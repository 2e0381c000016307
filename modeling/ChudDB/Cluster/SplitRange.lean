import ChudDB.Cluster.NodeStore
import ChudDB.Cluster.RangeMap

/-! # Splitting a range

`SplitRange` (`splitrange.go`): the first eight bytes of the ends of a range are read as numbers,
and the boundaries between the buckets are interpolated between them. A shorter end is filled up
with `0xFF`, so a boundary can lie behind the end of the range; then the last bucket ends before it
starts. -/

namespace ChudDB.Cluster
open Lib

/-- `boundaryPrefixBytes`. -/
def boundaryPrefixBytes : Nat := 8

structure Bucket where
  start : Bytes
  end_ : Bytes
deriving DecidableEq, Repr

inductive SplitError where
  | bucketCount (n : Int)
deriving DecidableEq, Repr

/-- `prefixToUint64`. -/
def prefixToUint64 (s : Bytes) (pad : UInt8) : Nat :=
  beNat ((s ++ List.replicate boundaryPrefixBytes pad).take boundaryPrefixBytes)

/-- `uint64ToBytes`. -/
def uint64ToBytes (v : Nat) : Bytes := beBytes boundaryPrefixBytes v

/-- The boundary values of the loop, from round `i` on with `rounds` rounds to go. -/
def boundaryValues (lo hi step : Nat) : Nat → Nat → List Nat
  | 0, _ => []
  | rounds + 1, i =>
    let boundaryValue := (lo + step * i) % 2 ^ 64
    if boundaryValue ≥ hi then [] else boundaryValue :: boundaryValues lo hi step rounds (i + 1)

/-- The buckets between the given boundaries. -/
def bucketsFrom (prev end_ : Bytes) : List Nat → List Bucket
  | [] => [⟨prev, end_⟩]
  | v :: vs => ⟨prev, uint64ToBytes v⟩ :: bucketsFrom (uint64ToBytes v) end_ vs

/-- `SplitRange`. -/
def splitRange (start end_ : Bytes) (n : Int) : Except SplitError (List Bucket) :=
  if n ≤ 0 then .error (.bucketCount n)
  else if n = 1 then .ok [⟨start, end_⟩]
  else
    let lo := prefixToUint64 start 0x00
    let hi := if end_ = [] then 2 ^ 64 - 1 else prefixToUint64 end_ 0xff
    if hi ≤ lo then .ok [⟨start, end_⟩]
    else
      let step := (hi - lo) / n.toNat
      let step := if step = 0 then 1 else step
      .ok (bucketsFrom start end_ (boundaryValues lo hi step (n.toNat - 1) 1))

/-- A bucket that holds keys. -/
def Bucket.Nonempty (b : Bucket) : Prop := b.end_ ≠ [] → b.start < b.end_

instance : DecidablePred Bucket.Nonempty := fun _ => inferInstanceAs (Decidable (_ → _))

/-- What `SplitRange` returns lies bucket by bucket between its ends. -/
theorem splitRange_eq_ok (hn : 0 < n) :
    ∃ vs, splitRange start end_ n = .ok (bucketsFrom start end_ vs) := by
  rw [splitRange, if_neg (not_le.mpr hn)]
  split
  · exact ⟨[], rfl⟩
  · dsimp only
    generalize (if end_ = [] then 2 ^ 64 - 1 else prefixToUint64 end_ 0xff) = hi
    split
    · exact ⟨[], rfl⟩
    · exact ⟨_, rfl⟩

theorem uint64ToBytes_ne_nil : uint64ToBytes v ≠ [] := by
  intro h
  have hlength : (uint64ToBytes v).length = boundaryPrefixBytes := length_beBytes
  rw [h] at hlength
  cases hlength

/-- A boundary is below the end that a scan uses for an unbounded range. -/
theorem uint64ToBytes_le : uint64ToBytes v ≤ unboundedRangeEnd :=
  le_unboundedRangeEnd (length_beBytes.trans_le (by decide))

/-- If none of the buckets is empty, they start in front of the end. -/
theorem lt_of_nonempty (h : ∀ b ∈ bucketsFrom prev end_ vs, b.Nonempty) (hend : end_ ≠ []) :
    prev < end_ := by
  induction vs generalizing prev with
  | nil => exact h _ List.mem_cons_self hend
  | cons v vs ih =>
    exact (h _ List.mem_cons_self uint64ToBytes_ne_nil).trans
      (ih fun b hb => h b (List.mem_cons_of_mem _ hb))

/-- The first boundary cuts the range, and the other buckets follow it. -/
theorem cut_of_nonempty (h : ∀ b ∈ bucketsFrom prev end_ (v :: vs), b.Nonempty) :
    prev < uint64ToBytes v ∧ (end_ ≠ [] → uint64ToBytes v < end_) ∧
      ∀ b ∈ bucketsFrom (uint64ToBytes v) end_ vs, b.Nonempty := by
  have hrest := fun b hb => h b (List.mem_cons_of_mem _ hb)
  exact ⟨h _ List.mem_cons_self uint64ToBytes_ne_nil, lt_of_nonempty hrest, hrest⟩

/-- A range that is cut at a boundary. -/
theorem scanned_cut (hlt : prev < uint64ToBytes v) (hlt' : end_ ≠ [] → uint64ToBytes v < end_) :
    (Scanned prev end_ key ↔
      Scanned prev (uint64ToBytes v) key ∨ Scanned (uint64ToBytes v) end_ key) ∧
    ¬ (Scanned prev (uint64ToBytes v) key ∧ Scanned (uint64ToBytes v) end_ key) := by
  obtain ⟨hiff, hnot⟩ := HalfOpen.cut hlt hlt' key
  refine ⟨?_, fun h => hnot ⟨h.1.1, h.2.1⟩⟩
  simp only [Scanned, uint64ToBytes_ne_nil, false_imp_iff, and_true, hiff, or_and_right]
  refine or_congr_left (and_iff_left_of_imp fun hkey _ => ?_)
  exact (hkey.2.resolve_left uint64ToBytes_ne_nil).le.trans uint64ToBytes_le

/-! ## When the buckets split the range -/

/-- A key lies in a bucket. -/
def Bucket.contains (b : Bucket) (key : Bytes) : Bool := decide (HalfOpen b.start b.end_ key)

theorem Bucket.contains_iff {b : Bucket} : b.contains key = true ↔ HalfOpen b.start b.end_ key :=
  decide_eq_true_iff

/-- The buckets are not empty, and each key of the range lies in one of them, and no other key in
any. -/
structure Splits (start end_ : Bytes) (buckets : List Bucket) : Prop where
  nonempty : ∀ b ∈ buckets, b.Nonempty
  once : ∀ key, Bucket.contains ⟨start, end_⟩ key = true → buckets.countP (·.contains key) = 1
  inside : ∀ b ∈ buckets, ∀ key, b.contains key = true → Bucket.contains ⟨start, end_⟩ key = true

theorem contains_cut (hlt : prev < uint64ToBytes v) (hlt' : end_ ≠ [] → uint64ToBytes v < end_)
    (key : Bytes) :
    (Bucket.contains ⟨prev, end_⟩ key = true ↔ Bucket.contains ⟨prev, uint64ToBytes v⟩ key = true ∨
      Bucket.contains ⟨uint64ToBytes v, end_⟩ key = true) ∧
    ¬ (Bucket.contains ⟨prev, uint64ToBytes v⟩ key = true ∧
      Bucket.contains ⟨uint64ToBytes v, end_⟩ key = true) := by
  simp only [Bucket.contains_iff]
  exact HalfOpen.cut hlt hlt' key

/-- Buckets that follow one another split their range if none is empty. -/
theorem splits_bucketsFrom (h : ∀ b ∈ bucketsFrom prev end_ vs, b.Nonempty) :
    Splits prev end_ (bucketsFrom prev end_ vs) := by
  induction vs generalizing prev with
  | nil =>
    refine ⟨h, fun key hkey => ?_, fun b hb key hkey => List.mem_singleton.mp hb ▸ hkey⟩
    rw [bucketsFrom, List.countP_singleton, if_pos hkey]
  | cons v vs ih =>
    obtain ⟨hlt, hlt', hrest⟩ := cut_of_nonempty h
    have hsplits := ih hrest
    have hcut := contains_cut hlt hlt'
    refine ⟨h, fun key hkey => ?_, fun b hb key hkey => ?_⟩
    · rw [bucketsFrom, List.countP_cons]
      by_cases hleft : Bucket.contains ⟨prev, uint64ToBytes v⟩ key = true
      · have hnone : (bucketsFrom (uint64ToBytes v) end_ vs).countP (·.contains key) = 0 :=
          List.countP_eq_zero.mpr fun b hb hin =>
            (hcut key).2 ⟨hleft, hsplits.inside b hb key hin⟩
        rw [hnone, if_pos hleft]
      · rw [if_neg hleft, hsplits.once key (((hcut key).1.mp hkey).resolve_left hleft)]
    · rcases List.mem_cons.mp hb with rfl | hb
      · exact (hcut key).1.mpr (.inl hkey)
      · exact (hcut key).1.mpr (.inr (hsplits.inside b hb key hkey))

/-- With increasing boundaries it is only the end of the range that can come too early. -/
theorem nonempty_bucketsFrom_iff (h : (prev :: vs.map uint64ToBytes).Pairwise (· < ·)) :
    (∀ b ∈ bucketsFrom prev end_ vs, b.Nonempty) ↔
      (end_ ≠ [] → prev < end_ ∧ ∀ v ∈ vs, uint64ToBytes v < end_) := by
  induction vs generalizing prev with
  | nil =>
    rw [bucketsFrom, List.forall_mem_singleton]
    exact forall_congr' fun _ => (and_iff_left nofun).symm
  | cons v vs ih =>
    rw [List.map_cons] at h
    have hlt : prev < uint64ToBytes v := List.rel_of_pairwise_cons h List.mem_cons_self
    rw [bucketsFrom, List.forall_mem_cons, ih (List.Pairwise.of_cons h),
      and_iff_right (show Bucket.Nonempty ⟨prev, uint64ToBytes v⟩ from fun _ => hlt)]
    refine forall_congr' fun _ => ?_
    rw [List.forall_mem_cons]
    exact ⟨fun h => ⟨hlt.trans h.1, h⟩, And.right⟩

/-- As long as nothing wraps around, the loop yields the multiples of the step between the bounds,
in increasing order. -/
theorem boundaryValues_spec (hstep : 0 < step)
    (hwrap : ∀ j < i + rounds, lo + step * j < hi → lo + step * (j + 1) < 2 ^ 64)
    (hlt : lo + step * i < hi) :
    ((lo + step * i) :: boundaryValues lo hi step rounds (i + 1)).Pairwise (· < ·) ∧
    ∀ v, v ∈ boundaryValues lo hi step rounds (i + 1) ↔
      v < hi ∧ ∃ j, i < j ∧ j ≤ i + rounds ∧ v = lo + step * j := by
  induction rounds generalizing i with
  | zero =>
    refine ⟨List.pairwise_singleton _ _, fun v => iff_of_false List.not_mem_nil ?_⟩
    rintro ⟨-, j, hij, hji, -⟩
    omega
  | succ rounds ih =>
    have hnext : lo + step * (i + 1) = lo + step * i + step := by ring
    have hmono : ∀ {j}, i < j → lo + step * (i + 1) ≤ lo + step * j := fun hij =>
      Nat.add_le_add_left (Nat.mul_le_mul_left step hij) lo
    rw [boundaryValues]
    simp only [Nat.mod_eq_of_lt (hwrap i (by omega) hlt)]
    split
    · rename_i hge
      refine ⟨List.pairwise_singleton _ _, fun v => iff_of_false List.not_mem_nil ?_⟩
      rintro ⟨hv, j, hij, -, rfl⟩
      exact (hge.trans (hmono hij)).not_gt hv
    · rename_i hbelow
      obtain ⟨hsorted, hmem⟩ :=
        ih (fun j hj => hwrap j (by omega)) (not_le.mp hbelow)
      refine ⟨List.pairwise_cons.mpr ⟨fun v hv => ?_, hsorted⟩, fun v => ?_⟩
      · rcases List.mem_cons.mp hv with rfl | hv
        · omega
        · have := List.rel_of_pairwise_cons hsorted hv
          omega
      · rw [List.mem_cons, hmem]
        constructor
        · rintro (rfl | ⟨hv, j, hij, hji, rfl⟩)
          · exact ⟨not_le.mp hbelow, i + 1, by omega, by omega, rfl⟩
          · exact ⟨hv, j, by omega, by omega, rfl⟩
        · rintro ⟨hv, j, hij, hji, rfl⟩
          rcases (Nat.succ_le_of_lt hij).eq_or_lt with rfl | hlater
          · exact .inl rfl
          · exact .inr ⟨hv, j, hlater, by omega, rfl⟩

theorem prefixToUint64_lt (s : Bytes) (pad : UInt8) : prefixToUint64 s pad < 2 ^ 64 := by
  have hlen : ((s ++ List.replicate boundaryPrefixBytes pad).take boundaryPrefixBytes).length =
      boundaryPrefixBytes := by
    rw [List.length_take, List.length_append, List.length_replicate]
    omega
  have hlt : prefixToUint64 s pad < 256 ^ boundaryPrefixBytes := hlen ▸ beNat_lt
  exact hlt

section Boundaries
variable {v w : Nat} {s : Bytes}

theorem length_uint64ToBytes : (uint64ToBytes v).length = boundaryPrefixBytes := length_beBytes

theorem beNat_uint64ToBytes (hv : v < 2 ^ 64) : beNat (uint64ToBytes v) = v :=
  beNat_beBytes_of_lt (show v < 256 ^ boundaryPrefixBytes from hv)

theorem uint64ToBytes_lt_iff (hv : v < 2 ^ 64) (hw : w < 2 ^ 64) :
    uint64ToBytes v < uint64ToBytes w ↔ v < w := by
  rw [← beNat_lt_iff (length_uint64ToBytes.trans length_uint64ToBytes.symm), beNat_uint64ToBytes hv,
    beNat_uint64ToBytes hw]

/-- The first bytes of a string, filled up with zeros, are those of its number. -/
theorem take_eq_uint64ToBytes (s : Bytes) :
    (s ++ List.replicate boundaryPrefixBytes 0).take boundaryPrefixBytes =
      uint64ToBytes (prefixToUint64 s 0x00) := by
  have hlen : ((s ++ List.replicate boundaryPrefixBytes 0).take boundaryPrefixBytes).length =
      (uint64ToBytes (prefixToUint64 s 0x00)).length := by
    rw [length_uint64ToBytes, List.length_take, List.length_append, List.length_replicate]
    omega
  have hnat := beNat_uint64ToBytes (prefixToUint64_lt s 0x00)
  rcases lt_trichotomy ((s ++ List.replicate boundaryPrefixBytes 0).take boundaryPrefixBytes)
      (uint64ToBytes (prefixToUint64 s 0x00)) with hlt | heq | hgt
  · exact absurd hnat ((beNat_lt_iff hlen).mpr hlt).ne'
  · exact heq
  · exact absurd hnat ((beNat_lt_iff hlen.symm).mpr hgt).ne

theorem lt_uint64ToBytes (hv : v < 2 ^ 64) (h : prefixToUint64 s 0x00 < v) : s < uint64ToBytes v := by
  refine lt_of_padded_lt length_uint64ToBytes (le_refl boundaryPrefixBytes) ?_
  rw [take_eq_uint64ToBytes]
  exact (uint64ToBytes_lt_iff (prefixToUint64_lt s 0x00) hv).mpr h

/-- A boundary below the filled up end lies before the end if it is below the end filled up with
zeros. -/
theorem uint64ToBytes_lt_end_iff (hv : v < prefixToUint64 end_ 0xff) :
    uint64ToBytes v < end_ ↔ v < prefixToUint64 end_ 0x00 := by
  have hv' : v < 2 ^ 64 := hv.trans (prefixToUint64_lt end_ 0xff)
  rw [lt_iff_lt_padded length_uint64ToBytes (le_refl boundaryPrefixBytes), take_eq_uint64ToBytes,
    uint64ToBytes_lt_iff hv' (prefixToUint64_lt end_ 0x00), or_iff_left_iff_imp]
  rintro ⟨heq, hlen⟩
  -- An end of more than eight bytes is not filled up at all.
  have hnat := congrArg beNat heq
  rw [beNat_uint64ToBytes hv', beNat_uint64ToBytes (prefixToUint64_lt end_ 0x00)] at hnat
  have hpad : ∀ pad, prefixToUint64 end_ pad = beNat (end_.take boundaryPrefixBytes) := fun pad => by
    rw [prefixToUint64, List.take_append_of_le_length hlen.le]
  rw [hpad] at hv hnat
  exact absurd hnat hv.ne

end Boundaries

/-- The number above the boundaries. -/
def upperValue (end_ : Bytes) : Nat := if end_ = [] then 2 ^ 64 - 1 else prefixToUint64 end_ 0xff

/-- The distance of the boundaries. -/
def boundaryStep (lo hi : Nat) (n : Int) : Nat :=
  if (hi - lo) / n.toNat = 0 then 1 else (hi - lo) / n.toNat

/-- The greatest boundary value, if there is one at all. -/
def lastBoundary (lo hi : Nat) (n : Int) : Nat :=
  min (lo + boundaryStep lo hi n * (n.toNat - 1)) (hi - 1)

/-- The boundary values between two numbers. -/
def boundaries (lo hi : Nat) (n : Int) : List Nat :=
  boundaryValues lo hi (boundaryStep lo hi n) (n.toNat - 1) 1

theorem upperValue_lt (end_ : Bytes) : upperValue end_ < 2 ^ 64 := by
  rw [upperValue]
  split
  · decide
  · exact prefixToUint64_lt end_ 0xff

section Step
variable {lo hi : Nat} {n : Int}

/-- Either the steps fit between the bounds, or they are of size one. -/
theorem boundaryStep_cases (lo hi : Nat) (hn : 1 < n) :
    (0 < boundaryStep lo hi n ∧ boundaryStep lo hi n * n.toNat ≤ hi - lo) ∨
      boundaryStep lo hi n = 1 ∧ hi - lo < n.toNat := by
  rw [boundaryStep]
  split
  · rename_i hzero
    exact .inr ⟨rfl, (Nat.div_eq_zero_iff.mp hzero).resolve_left (by omega)⟩
  · rename_i hpos
    exact .inl ⟨Nat.pos_of_ne_zero hpos, Nat.div_mul_le_self _ _⟩

theorem boundaries_spec (hn : 1 < n) (hlt : lo < hi) (hhi : hi < 2 ^ 64) :
    (lo :: boundaries lo hi n).Pairwise (· < ·) ∧
    ∀ v, v ∈ boundaries lo hi n ↔
      v < hi ∧ ∃ j, 0 < j ∧ j ≤ n.toNat - 1 ∧ v = lo + boundaryStep lo hi n * j := by
  have hstep : 0 < boundaryStep lo hi n := by
    rcases boundaryStep_cases lo hi hn with ⟨h, -⟩ | ⟨h, -⟩ <;> omega
  have hwrap : ∀ j < 0 + (n.toNat - 1), lo + boundaryStep lo hi n * j < hi →
      lo + boundaryStep lo hi n * (j + 1) < 2 ^ 64 := by
    intro j hj hbelow
    rcases boundaryStep_cases lo hi hn with ⟨-, hfit⟩ | ⟨hone, -⟩
    · have hle : boundaryStep lo hi n * (j + 1) ≤ boundaryStep lo hi n * n.toNat :=
        Nat.mul_le_mul_left _ (by omega)
      omega
    · rw [hone] at hbelow ⊢
      omega
  have hspec := boundaryValues_spec hstep hwrap (by omega)
  rwa [Nat.mul_zero, Nat.add_zero, Nat.zero_add, Nat.zero_add] at hspec

/-- All boundaries are below a number if the greatest one is. -/
theorem forall_boundaries_lt_iff (hn : 1 < n) (hlt : lo + 1 < hi) (hhi : hi < 2 ^ 64) :
    (∀ v ∈ boundaries lo hi n, v < w) ↔ lastBoundary lo hi n < w := by
  obtain ⟨-, hmem⟩ := boundaries_spec hn (Nat.lt_of_succ_lt hlt) hhi
  constructor
  · intro h
    refine h _ ((hmem _).mpr ?_)
    rw [lastBoundary]
    rcases boundaryStep_cases lo hi hn with ⟨hpos, hfit⟩ | ⟨hone, hmany⟩
    · have hlast : boundaryStep lo hi n * (n.toNat - 1) + boundaryStep lo hi n =
          boundaryStep lo hi n * n.toNat := by
        rw [← Nat.mul_succ]
        congr 1
        omega
      exact ⟨by omega, n.toNat - 1, by omega, le_refl _, by omega⟩
    · rw [hone]
      exact ⟨by omega, hi - 1 - lo, by omega, by omega, by omega⟩
  · intro h v hv
    obtain ⟨hbelow, j, -, hj, rfl⟩ := (hmem v).mp hv
    have hle : boundaryStep lo hi n * j ≤ boundaryStep lo hi n * (n.toNat - 1) :=
      Nat.mul_le_mul_left _ hj
    rw [lastBoundary] at h
    omega

end Step

/-- What `SplitRange` returns when there is something to split. -/
theorem splitRange_eq_boundaries (hn : 1 < n)
    (hlt : prefixToUint64 start 0x00 < upperValue end_) :
    splitRange start end_ n =
      .ok (bucketsFrom start end_ (boundaries (prefixToUint64 start 0x00) (upperValue end_) n)) := by
  rw [upperValue] at hlt
  rw [splitRange, if_neg (by omega), if_neg (by omega)]
  exact if_neg (not_le.mpr hlt)

theorem splitRange_eq_self (hn : 0 < n) (h : n = 1 ∨ upperValue end_ ≤ prefixToUint64 start 0x00) :
    splitRange start end_ n = .ok [⟨start, end_⟩] := by
  rw [splitRange, if_neg (by omega)]
  split
  · rfl
  · rename_i hne
    exact if_pos (h.resolve_left hne)

/-- The strings of the boundaries increase from the start of the range on. -/
theorem pairwise_boundaries (hn : 1 < n) (hlt : prefixToUint64 start 0x00 < upperValue end_) :
    (start :: (boundaries (prefixToUint64 start 0x00) (upperValue end_) n).map
      uint64ToBytes).Pairwise (· < ·) := by
  obtain ⟨hsorted, hmem⟩ := boundaries_spec hn hlt (upperValue_lt end_)
  obtain ⟨hfirst, hsorted⟩ := List.pairwise_cons.mp hsorted
  have hbound : ∀ v ∈ boundaries (prefixToUint64 start 0x00) (upperValue end_) n, v < 2 ^ 64 :=
    fun v hv => ((hmem v).mp hv).1.trans (upperValue_lt end_)
  refine List.pairwise_cons.mpr ⟨fun b hb => ?_, List.pairwise_map.mpr ?_⟩
  · obtain ⟨v, hv, rfl⟩ := List.mem_map.mp hb
    exact lt_uint64ToBytes (hbound v hv) (hfirst v hv)
  · exact hsorted.imp_of_mem fun hv hw hvw =>
      (uint64ToBytes_lt_iff (hbound _ hv) (hbound _ hw)).mpr hvw

/-- The buckets split the range unless the greatest boundary lies between the end of the range,
filled up with zeros, and the same end filled up with `0xFF`. -/
theorem splitRange_splits_iff (hn : 0 < n) (hrange : end_ = [] ∨ start < end_) :
    (∃ buckets, splitRange start end_ n = .ok buckets ∧ Splits start end_ buckets) ↔
      end_ = [] ∨ n = 1 ∨ upperValue end_ ≤ prefixToUint64 start 0x00 + 1 ∨
        lastBoundary (prefixToUint64 start 0x00) (upperValue end_) n <
          prefixToUint64 end_ 0x00 := by
  have hself : Splits start end_ [⟨start, end_⟩] := by
    change Splits start end_ (bucketsFrom start end_ [])
    refine splits_bucketsFrom fun b hb hend => ?_
    rw [List.mem_singleton.mp hb] at hend ⊢
    exact hrange.resolve_left hend
  by_cases hwhole : n = 1 ∨ upperValue end_ ≤ prefixToUint64 start 0x00
  · refine iff_of_true ⟨_, splitRange_eq_self hn hwhole, hself⟩ ?_
    rcases hwhole with hone | hle
    · exact .inr (.inl hone)
    · exact .inr (.inr (.inl (hle.trans (Nat.le_succ _))))
  · rw [not_or, not_le] at hwhole
    obtain ⟨hne, hlt⟩ := hwhole
    have hn1 : 1 < n := by omega
    have hnonempty : (∀ b ∈ bucketsFrom start end_ _, b.Nonempty) ↔ _ :=
      nonempty_bucketsFrom_iff (pairwise_boundaries hn1 hlt)
    have hsplits : (∃ buckets, splitRange start end_ n = .ok buckets ∧ Splits start end_ buckets) ↔
        (end_ ≠ [] → ∀ v ∈ boundaries (prefixToUint64 start 0x00) (upperValue end_) n,
          uint64ToBytes v < end_) := by
      rw [splitRange_eq_boundaries hn1 hlt]
      constructor
      · rintro ⟨buckets, hbuckets, hsplits⟩ hend
        cases hbuckets
        exact (hnonempty.mp hsplits.nonempty hend).2
      · intro hbelow
        exact ⟨_, rfl, splits_bucketsFrom (hnonempty.mpr fun hend =>
          ⟨hrange.resolve_left hend, hbelow hend⟩)⟩
    rw [hsplits, or_iff_right hne, ← or_iff_not_imp_left]
    by_cases hend : end_ = []
    · exact iff_of_true (.inl hend) (.inl hend)
    · rw [or_iff_right hend, or_iff_right hend]
      obtain ⟨-, hmem⟩ := boundaries_spec hn1 hlt (upperValue_lt end_)
      have hupper : upperValue end_ = prefixToUint64 end_ 0xff := if_neg hend
      have hnumbers : (∀ v ∈ boundaries (prefixToUint64 start 0x00) (upperValue end_) n,
            uint64ToBytes v < end_) ↔
          ∀ v ∈ boundaries (prefixToUint64 start 0x00) (upperValue end_) n,
            v < prefixToUint64 end_ 0x00 :=
        forall₂_congr fun v hv => uint64ToBytes_lt_end_iff (hupper ▸ ((hmem v).mp hv).1)
      rw [hnumbers]
      rcases (Nat.succ_le_of_lt hlt).eq_or_lt with hnext | hroom
      · refine iff_of_true (fun v hv => ?_) (.inl hnext.ge)
        -- There is no number between the two.
        have habove := List.rel_of_pairwise_cons (boundaries_spec hn1 hlt (upperValue_lt end_)).1 hv
        have hbelow := ((hmem v).mp hv).1
        omega
      · rw [forall_boundaries_lt_iff hn1 hroom (upperValue_lt end_),
          or_iff_right (not_le.mpr hroom)]

theorem splitRange_splits_unbounded :
    ∃ buckets, splitRange [97] [] 4 = .ok buckets ∧ Splits [97] [] buckets :=
  (splitRange_splits_iff (by decide) (.inl rfl)).mpr (.inl rfl)

/-- The last of four buckets from `a` to `c` starts behind `c`, and the one in front of it reaches
beyond the range. -/
theorem splitRange_leaves_range : ∃ buckets, splitRange [97] [99] 4 = .ok buckets ∧
    (∃ b ∈ buckets, ¬ b.Nonempty) ∧
    ∃ b ∈ buckets, b.contains [99, 48] = true ∧ Bucket.contains ⟨[97], [99]⟩ [99, 48] = false := by
  refine ⟨_, rfl, ?_⟩
  decide +kernel

end ChudDB.Cluster
