import ChudDB.Lib.BinaryCounter
import ChudDB.Lib.Bytes
import ChudDB.Lib.Loop

/-! # The Merkle tree of a table

`MerkleTree` (`merkle.go`) is a binary counter of hashes: level `i` holds the hash over `2 ^ i`
leaves, or the empty string. The hash that is carried out of the last level is dropped, and
`GetRoot` adds empty leaves until the last level holds a hash. With `maxLevels` levels that is the
hash over one block of `2 ^ (maxLevels - 1)` leaves (`getRoot_ofHashes`), and the number of levels is
chosen such that there are more leaves than that (`two_pow_lt`). -/

namespace ChudDB.Sstable
open Lib BinaryCounter

/-- `fmt.Sprintf("%x", sha256.Sum256(data))`, a text of 64 characters. -/
structure Sha256Hex where
  text : Bytes → Bytes
  text_ne_nil : ∀ data, text data ≠ []

/-- `int(math.Ceil(math.Log2(float64(n))))`. Rounding loses what a large number exceeds a power of
two by, and never adds to it. -/
structure CeilLog2 where
  eval : Nat → Nat
  eval_le : ∀ n, eval n ≤ Nat.clog 2 n

/-- Without rounding. -/
def CeilLog2.exact : CeilLog2 := ⟨Nat.clog 2, fun _ => le_refl _⟩

structure MerkleTree where
  lvlValues : List Bytes
  maxLevels : Nat
deriving DecidableEq, Repr

namespace MerkleTree
variable (sha : Sha256Hex) (log : CeilLog2)

/-- The number of levels for a number of leaves. -/
def levelCount (leafCount : Nat) : Nat :=
  let leafCount := if leafCount = 0 then 1 else leafCount
  let maxLevels := log.eval leafCount
  if maxLevels = 0 then 1 else maxLevels

/-- `InitializeMerkleTree`. -/
def initializeMerkleTree (leafCount : Nat) : MerkleTree :=
  ⟨List.replicate (levelCount log leafCount) [], levelCount log leafCount⟩

/-- `hashValues`. -/
def hashValues (left right : Bytes) : Bytes := sha.text (left ++ right)

/-- The loop of `AddLeaf` from a level on. -/
def addHash (currentHash : Bytes) : List Bytes → List Bytes
  | [] => []
  | value :: levels =>
    if value = [] then currentHash :: levels
    else [] :: addHash (hashValues sha value currentHash) levels

/-- `AddLeaf`. -/
def addLeaf (mt : MerkleTree) (value : Bytes) : MerkleTree :=
  { mt with lvlValues := addHash sha (sha.text value) mt.lvlValues }

/-- The value of the last level. -/
def top (mt : MerkleTree) : Bytes := mt.lvlValues.getD (mt.maxLevels - 1) []

/-- `GetRoot`: the root, and the tree with the leaves it has added. There are fewer of them than it
takes to fill the tree. -/
def getRoot (mt : MerkleTree) : Option (Bytes × MerkleTree) :=
  loop (fun mt => if mt.top = [] then .inl (addLeaf sha mt []) else .inr (mt.top, mt))
    (2 ^ mt.maxLevels) mt

/-- The tree for some values, as `FlushMemtable` builds it. -/
def ofValues (values : List Bytes) : MerkleTree :=
  values.foldl (addLeaf sha) (initializeMerkleTree log values.length)

/-- The root for some values. -/
def rootOf (values : List Bytes) : Option Bytes :=
  (getRoot sha (ofValues sha log values)).map Prod.fst

/-! ## The levels -/

/-- The tree with the given number of levels to which the hashes have been added. -/
def ofHashes (levels : Nat) (hashes : List Bytes) : MerkleTree :=
  ⟨(counter (hashValues sha) levels hashes).map (·.getD []), levels⟩

variable {sha log} {hashes : List Bytes} {k n : Nat}

theorem hashValues_ne_nil (left right : Bytes) : hashValues sha left right ≠ [] :=
  sha.text_ne_nil _

/-- On levels that hold no empty string as a hash, the loop is that of a binary counter. -/
theorem addHash_map {slots : List (Option Bytes)} (h : ∀ y, some y ∈ slots → y ≠ []) (x : Bytes) :
    addHash sha x (slots.map (·.getD [])) = (carry (hashValues sha) x slots).map (·.getD []) := by
  induction slots generalizing x with
  | nil => rfl
  | cons slot slots ih =>
    cases slot with
    | none => rfl
    | some y =>
      have hy : y ≠ [] := h y List.mem_cons_self
      have hrest := ih (fun z hz => h z (List.mem_cons_of_mem _ hz)) (hashValues sha y x)
      rw [List.map_cons, addHash, Option.getD_some, if_neg hy, hrest]
      rfl

theorem addLeaf_ofHashes (h : ∀ x ∈ hashes, x ≠ []) (value : Bytes) :
    addLeaf sha (ofHashes sha n hashes) value = ofHashes sha n (hashes ++ [sha.text value]) := by
  have hslots : ∀ y, some y ∈ counter (hashValues sha) n hashes → y ≠ [] :=
    forall_mem_counter hashValues_ne_nil h
  rw [addLeaf, ofHashes, addHash_map hslots, carry_counter]
  rfl

theorem counter_nil (n : Nat) : counter (hashValues sha) n [] = List.replicate n none := by
  induction n with
  | zero => rfl
  | succ n ih => rw [counter, pairs, ih]; rfl

theorem foldl_addLeaf (h : ∀ x ∈ hashes, x ≠ []) (values : List Bytes) :
    values.foldl (addLeaf sha) (ofHashes sha n hashes) =
      ofHashes sha n (hashes ++ values.map sha.text) := by
  induction values generalizing hashes with
  | nil => rw [List.foldl_nil, List.map_nil, List.append_nil]
  | cons value values ih =>
    rw [List.foldl_cons, addLeaf_ofHashes h, ih, List.append_assoc, List.map_cons,
      List.singleton_append]
    intro x hx
    rcases List.mem_append.mp hx with hx | hx
    · exact h x hx
    · rw [List.mem_singleton.mp hx]
      exact sha.text_ne_nil _

theorem ofValues_eq (values : List Bytes) :
    ofValues sha log values =
      ofHashes sha (levelCount log values.length) (values.map sha.text) := by
  have hinit : initializeMerkleTree log values.length =
      ofHashes sha (levelCount log values.length) [] := by
    rw [initializeMerkleTree, ofHashes, counter_nil, List.map_replicate]
    rfl
  rw [ofValues, hinit, foldl_addLeaf (List.forall_mem_nil _), List.nil_append]

theorem top_ofHashes (k : Nat) (hashes : List Bytes) : (ofHashes sha (k + 1) hashes).top =
    if hashes.length / 2 ^ k % 2 = 1 then
      (blocks (hashValues sha) k hashes).getLast?.getD []
    else [] := by
  have hlast := @getLast?_counter _ (hashValues sha) k hashes
  rw [List.getLast?_eq_getElem?, length_counter, Nat.add_sub_cancel] at hlast
  rw [top, ofHashes, List.getD_eq_getElem?_getD, List.getElem?_map, Nat.add_sub_cancel, hlast]
  split <;> rfl

/-- The last level is taken iff the number of blocks of `2 ^ k` leaves is odd. -/
theorem top_ofHashes_odd (sha : Sha256Hex) (h : ∀ x ∈ hashes, x ≠ [])
    (hodd : hashes.length / 2 ^ k % 2 = 1) :
    (ofHashes sha (k + 1) hashes).top ≠ [] ∧
    some (ofHashes sha (k + 1) hashes).top = (blocks (hashValues sha) k hashes).getLast? := by
  have hne : blocks (hashValues sha) k hashes ≠ [] := by
    refine blocks_ne_nil (Nat.pos_of_ne_zero fun hzero => ?_)
    rw [hzero] at hodd
    cases hodd
  rw [top_ofHashes, if_pos hodd, List.getLast?_eq_some_getLast hne, Option.getD_some]
  exact ⟨forall_mem_blocks hashValues_ne_nil h _ (List.getLast_mem hne), rfl⟩

theorem top_ofHashes_even (sha : Sha256Hex) (heven : hashes.length / 2 ^ k % 2 = 0) :
    (ofHashes sha (k + 1) hashes).top = [] := by
  rw [top_ofHashes, if_neg (by omega)]

/-! ## The root -/

/-- The number of empty leaves that `GetRoot` adds to `n` leaves: up to the end of the first block
from which on the number of blocks of `2 ^ k` leaves is odd. -/
def padding (k n : Nat) : Nat := if n / 2 ^ k % 2 = 1 then 0 else (n / 2 ^ k + 1) * 2 ^ k - n

/-- The hashes after `GetRoot`. -/
def padded (sha : Sha256Hex) (k : Nat) (hashes : List Bytes) : List Bytes :=
  hashes ++ List.replicate (padding k hashes.length) (sha.text [])

theorem padding_le (k n : Nat) : padding k n ≤ 2 ^ k := by
  have hle : n / 2 ^ k * 2 ^ k ≤ n := Nat.div_mul_le_self n (2 ^ k)
  unfold padding
  split
  · exact Nat.zero_le _
  · rw [Nat.succ_mul]
    exact Nat.sub_le_of_le_add (by omega)

theorem lt_padding (h : j < padding k n) : (n + j) / 2 ^ k % 2 = 0 := by
  unfold padding at h
  split at h
  · exact absurd h (Nat.not_lt_zero j)
  · next heven =>
    have hle : n / 2 ^ k * 2 ^ k ≤ n := Nat.div_mul_le_self n (2 ^ k)
    have hdiv : (n + j) / 2 ^ k = n / 2 ^ k :=
      Nat.div_eq_of_lt_le (by omega) (by omega)
    rw [hdiv]
    omega

theorem padding_odd (k n : Nat) : (n + padding k n) / 2 ^ k % 2 = 1 := by
  have hlt : n < (n / 2 ^ k + 1) * 2 ^ k :=
    Nat.lt_mul_of_div_lt (Nat.lt_succ_self _) (Nat.two_pow_pos k)
  unfold padding
  split
  · assumption
  · rw [Nat.add_sub_cancel' hlt.le, Nat.mul_div_cancel _ (Nat.two_pow_pos k)]
    omega

theorem forall_mem_replicate (sha : Sha256Hex) (h : ∀ x ∈ hashes, x ≠ []) (j : Nat) :
    ∀ x ∈ hashes ++ List.replicate j (sha.text []), x ≠ [] := by
  intro x hx
  rcases List.mem_append.mp hx with hx | hx
  · exact h x hx
  · rw [List.eq_of_mem_replicate hx]
    exact sha.text_ne_nil _

/-- `GetRoot` returns, and its result is the hash over the last block of the padded leaves. -/
theorem getRoot_ofHashes (sha : Sha256Hex) (k : Nat) (h : ∀ x ∈ hashes, x ≠ []) :
    ∃ r, getRoot sha (ofHashes sha (k + 1) hashes) = some r ∧
      some r.1 = (blocks (hashValues sha) k (padded sha k hashes)).getLast? := by
  refine loop_spec (m := padding k hashes.length)
    (J := fun m mt => ∃ j, j + m = padding k hashes.length ∧
      mt = ofHashes sha (k + 1) (hashes ++ List.replicate j (sha.text []))) ?_ ?_ ?_
  · rintro m _ ⟨j, hj, rfl⟩
    have hne := forall_mem_replicate sha h j
    have hlen : (hashes ++ List.replicate j (sha.text [])).length = hashes.length + j := by
      rw [List.length_append, List.length_replicate]
    rcases Nat.eq_zero_or_pos m with rfl | hm
    · right
      rw [Nat.add_zero] at hj
      obtain ⟨htop, hlast⟩ := top_ofHashes_odd sha (k := k) hne (by rw [hlen, hj, padding_odd])
      exact ⟨_, if_neg htop, by rw [padded, ← hj, hlast]⟩
    · left
      have htop := top_ofHashes_even sha (k := k) (hlen ▸ lt_padding (by omega))
      refine ⟨_, m - 1, if_pos htop, by omega, j + 1, by omega, ?_⟩
      rw [addLeaf_ofHashes hne, List.append_assoc, List.replicate_succ']
  · exact ⟨0, Nat.zero_add _, by rw [List.replicate_zero, List.append_nil]⟩
  · exact (padding_le k _).trans_lt (Nat.pow_lt_pow_succ Nat.one_lt_two)

theorem rootOf_eq (sha : Sha256Hex) (values : List Bytes)
    (hk : levelCount log values.length = k + 1) :
    ∃ root, rootOf sha log values = some root ∧
      some root = (blocks (hashValues sha) k (padded sha k (values.map sha.text))).getLast? := by
  have hne : ∀ x ∈ values.map sha.text, x ≠ [] := by
    intro x hx
    obtain ⟨value, -, rfl⟩ := List.mem_map.mp hx
    exact sha.text_ne_nil value
  obtain ⟨r, hr, hroot⟩ := getRoot_ofHashes sha k hne
  exact ⟨r.1, by rw [rootOf, ofValues_eq, hk, hr]; rfl, hroot⟩

/-! ## What the root depends on -/

theorem levelCount_pos (log : CeilLog2) (n : Nat) : ∃ k, levelCount log n = k + 1 := by
  have hpos : ∀ m : Nat, (if m = 0 then 1 else m) ≠ 0 := by
    intro m
    split <;> omega
  exact Nat.exists_eq_succ_of_ne_zero (hpos _)

/-- There are more leaves than the block of the last level covers. -/
theorem two_pow_lt (hn : 2 ≤ n) (hk : levelCount log n = k + 1) : 2 ^ k < n := by
  have hlog := log.eval_le n
  unfold levelCount at hk
  dsimp only at hk
  rw [if_neg (by omega : n ≠ 0)] at hk
  split at hk
  · obtain rfl : k = 0 := by omega
    omega
  · by_contra hle
    have hclog := Nat.clog_le_of_le_pow (b := 2) (not_lt.mp hle)
    omega

/-- If there are at least two complete blocks, then the root does not depend on the first one. -/
theorem getLast?_blocks_front {front rest : List Bytes} (hfront : front.length = 2 ^ k)
    (hrest : 2 ^ k ≤ rest.length) :
    (blocks (hashValues sha) k (front ++ rest)).getLast? =
      (blocks (hashValues sha) k rest).getLast? := by
  have hne : blocks (hashValues sha) k rest ≠ [] :=
    blocks_ne_nil (Nat.div_pos hrest (Nat.two_pow_pos k))
  rw [blocks_append (Dvd.intro 1 (by omega)), List.getLast?_append_of_ne_nil _ hne]

/-- Leaves after the last complete block do not count. -/
theorem blocks_back {front rest : List Bytes} (hfront : front.length = 2 ^ k)
    (hrest : rest.length < 2 ^ k) :
    blocks (hashValues sha) k (front ++ rest) = blocks (hashValues sha) k front := by
  rw [blocks_append (Dvd.intro 1 (by omega)), blocks_eq_nil hrest, List.append_nil]

/-- Lists of values with the same number of leaves and the same last block have the same root. -/
theorem rootOf_congr {values values' : List Bytes} (hlen : values.length = values'.length)
    (hk : levelCount log values.length = k + 1)
    (h : (blocks (hashValues sha) k (padded sha k (values.map sha.text))).getLast? =
      (blocks (hashValues sha) k (padded sha k (values'.map sha.text))).getLast?) :
    rootOf sha log values = rootOf sha log values' := by
  obtain ⟨root, hroot, hlast⟩ := rootOf_eq sha values hk
  obtain ⟨root', hroot', hlast'⟩ := rootOf_eq sha values' (hlen ▸ hk)
  rw [hroot, hroot', hlast, hlast', h]

/-- `n` values of which the first block of `2 ^ k` is `first` and the others are `other`. -/
def twoValues (k n : Nat) (first other : Bytes) : List Bytes :=
  List.replicate (2 ^ k) first ++ List.replicate (n - 2 ^ k) other

theorem length_twoValues (h : 2 ^ k < n) (first other : Bytes) :
    (twoValues k n first other).length = n := by
  rw [twoValues, List.length_append, List.length_replicate, List.length_replicate]
  omega

theorem twoValues_inj (h : 2 ^ k < n)
    (heq : twoValues k n first other = twoValues k n first' other') :
    first = first' ∧ other = other' := by
  have hparts := List.append_inj heq (by rw [List.length_replicate, List.length_replicate])
  have hpos := Nat.two_pow_pos k
  exact ⟨List.replicate_right_injective (by omega) hparts.1,
    List.replicate_right_injective (by omega) hparts.2⟩

theorem padded_twoValues (h : 2 ^ k < n) (first other : Bytes) :
    padded sha k ((twoValues k n first other).map sha.text) =
      List.replicate (2 ^ k) (sha.text first) ++
        (List.replicate (n - 2 ^ k) (sha.text other) ++
          List.replicate (padding k n) (sha.text [])) := by
  rw [padded, List.length_map, length_twoValues h, twoValues, List.map_append, List.map_replicate,
    List.map_replicate, List.append_assoc]

/-- Two different lists of values with the same root: if the leaves fill two blocks, then the first
block can be changed, and otherwise the leaves after it. -/
theorem exists_same_root (sha : Sha256Hex) (log : CeilLog2) (hn : 2 ≤ n) :
    ∃ values values' : List Bytes, values.length = n ∧ values'.length = n ∧ values ≠ values' ∧
      rootOf sha log values = rootOf sha log values' := by
  obtain ⟨k, hk⟩ := levelCount_pos log n
  have hlt : 2 ^ k < n := two_pow_lt hn hk
  have hlen := length_twoValues hlt
  rcases Nat.lt_or_ge n (2 * 2 ^ k) with hone | htwo
  · refine ⟨_, _, hlen [] [], hlen [] [0], ?_,
      rootOf_congr ((hlen _ _).trans (hlen _ _).symm) ((hlen _ _).symm ▸ hk) ?_⟩
    · exact fun heq => List.cons_ne_nil _ _ (twoValues_inj hlt heq).2.symm
    have hpad : padding k n = 0 := by
      rw [padding, if_pos]
      rw [Nat.div_eq_of_lt_le (by omega) (by omega : n < (1 + 1) * 2 ^ k)]
    have hrest : ∀ v : Bytes, (List.replicate (n - 2 ^ k) (sha.text v) ++
        List.replicate (padding k n) (sha.text [])).length < 2 ^ k := by
      intro v
      rw [hpad, List.length_append, List.length_replicate, List.length_replicate]
      omega
    rw [padded_twoValues hlt, padded_twoValues hlt, blocks_back List.length_replicate (hrest _),
      blocks_back List.length_replicate (hrest _)]
  · refine ⟨_, _, hlen [] [], hlen [0] [], ?_,
      rootOf_congr ((hlen _ _).trans (hlen _ _).symm) ((hlen _ _).symm ▸ hk) ?_⟩
    · exact fun heq => List.cons_ne_nil _ _ (twoValues_inj hlt heq).1.symm
    have hrest : 2 ^ k ≤ (List.replicate (n - 2 ^ k) (sha.text []) ++
        List.replicate (padding k n) (sha.text [])).length := by
      rw [List.length_append, List.length_replicate, List.length_replicate]
      omega
    rw [padded_twoValues hlt, padded_twoValues hlt,
      getLast?_blocks_front List.length_replicate hrest,
      getLast?_blocks_front List.length_replicate hrest]

/-- The root binds the values. -/
def Binds (sha : Sha256Hex) (log : CeilLog2) (n : Nat) : Prop :=
  ∀ values values' root, values.length = n → values'.length = n →
    rootOf sha log values = some root → rootOf sha log values' = some root → values = values'

theorem rootOf_singleton (value : Bytes) : rootOf sha log [value] = some (sha.text value) := by
  have hk : levelCount log [value].length = 0 + 1 := by
    have hlog := log.eval_le 1
    rw [Nat.clog_one_right] at hlog
    rw [List.length_singleton, levelCount, if_neg Nat.one_ne_zero, if_pos (by omega)]
  obtain ⟨root, hroot, hlast⟩ := rootOf_eq sha [value] hk
  have hpad : padding 0 1 = 0 := rfl
  rw [hroot, hlast, padded, List.length_map, List.length_singleton, hpad]
  rfl

/-- `GetRoot` returns for every list of values, and its result binds them iff there is one. -/
theorem rootOf_binds_iff (sha : Sha256Hex) (log : CeilLog2) (n : Nat)
    (hsha : Function.Injective sha.text) (hn : 1 ≤ n) :
    (∀ values : List Bytes, values.length = n → (rootOf sha log values).isSome) ∧
    (Binds sha log n ↔ n = 1) := by
  refine ⟨?_, ?_, ?_⟩
  · intro values hlen
    obtain ⟨k, hk⟩ := levelCount_pos log values.length
    obtain ⟨root, hroot, -⟩ := rootOf_eq sha values hk
    rw [hroot, Option.isSome_some]
  · intro hbinds
    by_contra hne
    obtain ⟨values, values', hlen, hlen', hdiff, hroot⟩ :=
      exists_same_root sha log (by omega : 2 ≤ n)
    obtain ⟨k, hk⟩ := levelCount_pos log values.length
    obtain ⟨root, hsome, -⟩ := rootOf_eq sha values hk
    exact hdiff (hbinds values values' root hlen hlen' hsome (hroot ▸ hsome))
  · rintro rfl values values' root hlen hlen' hroot hroot'
    obtain ⟨value, rfl⟩ := List.length_eq_one_iff.mp hlen
    obtain ⟨value', rfl⟩ := List.length_eq_one_iff.mp hlen'
    rw [rootOf_singleton] at hroot hroot'
    rw [hsha (Option.some.inj (hroot.trans hroot'.symm))]

theorem rootOf_binds_one :
    Binds ⟨fun data => 0 :: data, fun _ => List.cons_ne_nil _ _⟩ .exact 1 :=
  (rootOf_binds_iff ⟨fun data => 0 :: data, fun _ => List.cons_ne_nil _ _⟩ .exact 1
    (fun _ _ h => (List.cons.inj h).2) (le_refl 1)).2.mpr rfl

/-- Two values are combined and carried out of the only level, and the root is the hash of an empty
value, whatever the two are. -/
theorem rootOf_two_values_ignored :
    let sha : Sha256Hex := ⟨fun data => 0 :: data, fun _ => List.cons_ne_nil _ _⟩
    Function.Injective sha.text ∧
    rootOf sha .exact [[97], [98]] = some (sha.text []) ∧
    rootOf sha .exact [[99], [100]] = some (sha.text []) ∧
    ¬ Binds sha .exact 2 := by
  intro sha
  have hroot : rootOf sha .exact [[97], [98]] = some (sha.text []) := by decide +kernel
  have hroot' : rootOf sha .exact [[99], [100]] = some (sha.text []) := by decide +kernel
  refine ⟨fun _ _ h => (List.cons.inj h).2, hroot, hroot', fun hbinds => ?_⟩
  exact absurd (hbinds _ _ _ rfl rfl hroot hroot') (by decide)

end MerkleTree
end ChudDB.Sstable
