import ChudDB.Lib.Merge
import ChudDB.Lib.Ranking
import ChudDB.Cluster.MerkleRoot

/-! # Sizes of tablets and where to split them

`EstimateSize` and `PickSplitBoundary` (`scanner.go`) work on what a scan of the range returns. The
boundary is the key that divides the bytes most evenly, the least one if there are several
(`pickSplitBoundary_optimal`). Sizes are integers without a bound here; for an `int64` to overflow,
a scan would have to return 2^62 bytes. -/

namespace ChudDB.Cluster
open Lib

/-- `RangeScanner`: the answers of `ScanRawRange`. -/
abbrev RangeScanner (ε : Type u) := Bytes → Bytes → Except ε (List RawEntry)

/-- The errors of `EstimateSize` and `PickSplitBoundary`: that of the scan, and `ErrCannotSplit`. -/
inductive TabletScanError (ε : Type u) where
  | scanRange (start end_ : Bytes) (err : ε)
  | cannotSplit
deriving DecidableEq, Repr

def entrySize (e : RawEntry) : Int := e.1.length + e.2.length

def totalSize (entries : List RawEntry) : Int := (entries.map entrySize).sum

/-- `EstimateSize`. -/
def estimateSize {ε : Type u} (scanner : RangeScanner ε) (start end_ : Bytes) :
    Except (TabletScanError ε) Int :=
  match scanner start end_ with
  | .error err => .error (.scanRange start end_ err)
  | .ok entries => .ok (totalSize entries)

/-- A boundary with its difference replaces the best one found if it is strictly better. -/
def keepBetter (best : Option (Bytes × Int)) (boundary : Bytes) (difference : Int) :
    Option (Bytes × Int) :=
  match best with
  | none => some (boundary, difference)
  | some (_, bestDifference) =>
    if difference < bestDifference then some (boundary, difference) else best

/-- The loop of `PickSplitBoundary` over what follows the entry `last`. The entries in front of
`last` have the size `before`. -/
def pickLoop (total : Int) : RawEntry → List RawEntry → Int → Option (Bytes × Int) →
    Option (Bytes × Int)
  | _, [], _, best => best
  | last, e :: rest, before, best =>
    let before := before + entrySize last
    if last.1 = e.1 then pickLoop total e rest before best
    else pickLoop total e rest before (keepBetter best e.1 |total - 2 * before|)

/-- The boundary that is picked from the sorted entries. -/
def pickSorted : List RawEntry → Option Bytes
  | [] => none
  | first :: rest => (pickLoop (totalSize (first :: rest)) first rest 0 none).map Prod.fst

/-- `PickSplitBoundary`. The order of entries with the same key, which `sort.Slice` leaves open,
does not matter: what is best does not depend on it (`OptimalBoundary.perm`). -/
def pickSplitBoundary {ε : Type u} (scanner : RangeScanner ε) (start end_ : Bytes) :
    Except (TabletScanError ε) Bytes :=
  match scanner start end_ with
  | .error err => .error (.scanRange start end_ err)
  | .ok entries =>
    if entries.length < 2 then .error .cannotSplit
    else
      match pickSorted (entries.insertionSort (·.1 ≤ ·.1)) with
      | none => .error .cannotSplit
      | some boundary => .ok boundary

/-! ## The best boundary -/

/-- The difference between the bytes below a key and those at or above it. -/
def imbalance (entries : List RawEntry) (key : Bytes) : Int :=
  |totalSize (entries.filter (·.1 < key)) - totalSize (entries.filter (key ≤ ·.1))|

/-- The keys that leave an entry on both sides. -/
def Separates (entries : List RawEntry) (key : Bytes) : Prop :=
  key ∈ entries.map Prod.fst ∧ ∃ e ∈ entries, e.1 < key

/-- The least of the keys that divide the entries most evenly. -/
structure OptimalBoundary (entries : List RawEntry) (boundary : Bytes) : Prop where
  separates : Separates entries boundary
  least : ∀ key, Separates entries key → imbalance entries boundary < imbalance entries key ∨
    imbalance entries boundary = imbalance entries key ∧ boundary ≤ key

section
variable {entries entries' l seen rest : List RawEntry} {last : RawEntry} {key : Bytes}

@[simp] theorem totalSize_nil : totalSize [] = 0 := rfl

@[simp] theorem totalSize_append : totalSize (l ++ entries) = totalSize l + totalSize entries := by
  rw [totalSize, List.map_append, List.sum_append]; rfl

theorem totalSize_perm (h : entries.Perm entries') : totalSize entries = totalSize entries' :=
  (h.map entrySize).sum_eq

theorem imbalance_perm (h : entries.Perm entries') (key : Bytes) :
    imbalance entries key = imbalance entries' key := by
  rw [imbalance, totalSize_perm (h.filter _), totalSize_perm (h.filter (key ≤ ·.1))]
  rfl

theorem separates_perm (h : entries.Perm entries') :
    Separates entries key ↔ Separates entries' key := by
  simp only [Separates, List.mem_map, h.mem_iff]

theorem OptimalBoundary.perm {boundary : Bytes} (hopt : OptimalBoundary entries boundary)
    (h : entries.Perm entries') : OptimalBoundary entries' boundary := by
  refine ⟨(separates_perm h).mp hopt.separates, fun key hkey => ?_⟩
  rw [← imbalance_perm h, ← imbalance_perm h]
  exact hopt.least key ((separates_perm h).mpr hkey)

/-- What the loop computes from the total and the bytes in front of a key. -/
theorem abs_total_sub (entries : List RawEntry) (key : Bytes) :
    |totalSize entries - 2 * totalSize (entries.filter (·.1 < key))| = imbalance entries key := by
  have hparts : totalSize entries = totalSize (entries.filter (·.1 < key)) +
      totalSize (entries.filter (key ≤ ·.1)) := by
    rw [← totalSize_append]
    refine totalSize_perm ?_
    have hnot : (fun e : RawEntry => decide (key ≤ e.1)) = fun e => !decide (e.1 < key) := by
      funext e
      rw [← decide_not, decide_eq_decide, not_lt]
    rw [hnot]
    exact (List.filter_append_perm _ entries).symm
  rw [imbalance, abs_sub_comm (totalSize (entries.filter _))]
  congr 1
  omega

/-- In sorted entries, those in front of a new key are the entries below it. -/
theorem filter_lt_of_sorted {e : RawEntry} (hsorted : (seen ++ e :: rest).Pairwise (·.1 ≤ ·.1))
    (hlt : ∀ x ∈ seen, x.1 < e.1) : (seen ++ e :: rest).filter (·.1 < e.1) = seen := by
  have hge : ∀ x ∈ e :: rest, ¬ x.1 < e.1 := by
    rintro x (_ | ⟨_, hx⟩)
    · exact lt_irrefl _
    · exact not_lt.mpr (List.rel_of_pairwise_cons (List.pairwise_append.mp hsorted).2.1 hx)
  rw [List.filter_append, List.filter_eq_self.mpr (by simpa using hlt),
    List.filter_eq_nil_iff.mpr (by simpa using hge), List.append_nil]

/-- The loop keeps the first best of the keys that begin a run of equal keys. -/
theorem pickLoop_eq (hsorted : entries.Pairwise (·.1 ≤ ·.1))
    (hsplit : seen ++ last :: rest = entries) (best : Option Bytes) :
    pickLoop (totalSize entries) last rest (totalSize seen)
        (best.map fun key => (key, imbalance entries key)) =
      (((firsts Prod.fst last.1 rest).map Prod.fst).foldl
        (List.argAux fun a b => imbalance entries a < imbalance entries b) best).map
        fun key => (key, imbalance entries key) := by
  induction rest generalizing seen last best with
  | nil => rfl
  | cons e rest ih =>
    have hsplit' : (seen ++ [last]) ++ e :: rest = entries := by
      rw [List.append_assoc, List.singleton_append, hsplit]
    have hbefore : totalSize seen + entrySize last = totalSize (seen ++ [last]) := by
      simp [totalSize]
    rw [pickLoop, hbefore, firsts]
    by_cases heq : last.1 = e.1
    · rw [if_pos heq, if_pos heq.symm, ih hsplit', heq]
    · have hbelow : entries.filter (·.1 < e.1) = seen ++ [last] := by
        rw [← hsplit'] at hsorted ⊢
        refine filter_lt_of_sorted hsorted fun x hx => ?_
        have hcross := (List.pairwise_append.mp hsorted).2.2
        have hlast : last.1 < e.1 :=
          lt_of_le_of_ne (hcross last (by simp) e List.mem_cons_self) heq
        rcases List.mem_append.mp hx with hx | hx
        · have hseen := (List.pairwise_append.mp (List.pairwise_append.mp hsorted).1).2.2
          exact (hseen x hx last List.mem_cons_self).trans_lt hlast
        · rwa [List.mem_singleton.mp hx]
      rw [if_neg heq, if_neg (Ne.symm heq), ← hbelow, abs_total_sub, List.map_cons, List.foldl_cons,
        hbelow, ← ih hsplit']
      congr 1
      cases best with
      | none => rfl
      | some b =>
        by_cases hlt : imbalance entries e.1 < imbalance entries b <;>
          simp [keepBetter, List.argAux, hlt]

/-- The keys that begin a run are those with an entry below. -/
theorem mem_firsts_iff_separates {first : RawEntry}
    (hsorted : (first :: rest).Pairwise (·.1 ≤ ·.1)) :
    key ∈ (firsts Prod.fst first.1 rest).map Prod.fst ↔ Separates (first :: rest) key := by
  obtain ⟨hfirst, hrest⟩ := List.pairwise_cons.mp hsorted
  constructor
  · intro hkey
    obtain ⟨e, he, rfl⟩ := List.mem_map.mp hkey
    refine ⟨List.mem_map_of_mem (List.mem_cons_of_mem _ (firsts_sublist.subset he)), first,
      List.mem_cons_self, ?_⟩
    exact (firsts_sorted hrest hfirst).2 e he
  · rintro ⟨hkey, e, he, hlt⟩
    obtain ⟨x, hx, rfl⟩ := List.mem_map.mp hkey
    have hfirstLt : first.1 < x.1 := by
      rcases List.mem_cons.mp he with rfl | he
      · exact hlt
      · exact (hfirst e he).trans_lt hlt
    rcases List.mem_cons.mp hx with rfl | hx
    · exact absurd hfirstLt (lt_irrefl _)
    · obtain ⟨y, hy, hyx⟩ := exists_first hx hfirstLt.ne'
      exact List.mem_map.mpr ⟨y, hy, hyx⟩

theorem pickSorted_eq {first : RawEntry} (hsorted : (first :: rest).Pairwise (·.1 ≤ ·.1)) :
    pickSorted (first :: rest) =
      ((firsts Prod.fst first.1 rest).map Prod.fst).argmin (imbalance (first :: rest)) := by
  have h := pickLoop_eq hsorted (show [] ++ first :: rest = _ from rfl) none
  rw [Option.map_none, totalSize_nil] at h
  rw [pickSorted, h, Option.map_map]
  exact Option.map_id_fun ▸ rfl

theorem optimalBoundary_of_pickSorted {boundary : Bytes} (hsorted : entries.Pairwise (·.1 ≤ ·.1))
    (h : pickSorted entries = some boundary) : OptimalBoundary entries boundary := by
  cases entries with
  | nil => cases h
  | cons first rest =>
    rw [pickSorted_eq hsorted] at h
    obtain ⟨hmem, hle, hfirst⟩ := List.mem_argmin_iff.mp h
    obtain ⟨hheads, hrest⟩ := List.pairwise_cons.mp hsorted
    have hasc : ((firsts Prod.fst first.1 rest).map Prod.fst).Pairwise (· < ·) :=
      List.pairwise_map.mpr (firsts_sorted hrest hheads).1
    refine ⟨(mem_firsts_iff_separates hsorted).mp hmem, fun key hkey => ?_⟩
    have hkey' := (mem_firsts_iff_separates hsorted).mpr hkey
    rcases (hle key hkey').lt_or_eq with hlt | heq
    · exact .inl hlt
    · have hrank := rel_or_eq_of_idxOf_le hasc hmem hkey' (hfirst key hkey' heq.ge)
      exact .inr ⟨heq, hrank.elim le_of_lt le_of_eq⟩

theorem pickSorted_eq_none_iff (hsorted : entries.Pairwise (·.1 ≤ ·.1)) :
    pickSorted entries = none ↔ ∀ key, ¬ Separates entries key := by
  cases entries with
  | nil => simp [pickSorted, Separates]
  | cons first rest =>
    rw [pickSorted_eq hsorted, List.argmin_eq_none, List.eq_nil_iff_forall_not_mem]
    exact forall_congr' fun key => not_congr (mem_firsts_iff_separates hsorted)

/-- A key with an entry below exists if there are two keys. -/
theorem exists_separates_iff :
    (∃ key, Separates entries key) ↔ 2 ≤ (entries.map Prod.fst).toFinset.card := by
  rw [← Nat.lt_iff_add_one_le, Finset.one_lt_card]
  simp only [List.mem_toFinset]
  constructor
  · rintro ⟨key, hkey, e, he, hlt⟩
    exact ⟨e.1, List.mem_map_of_mem he, key, hkey, hlt.ne⟩
  · rintro ⟨a, ha, b, hb, hne⟩
    rcases lt_or_gt_of_ne hne with hlt | hlt
    · obtain ⟨e, he, rfl⟩ := List.mem_map.mp ha
      exact ⟨b, hb, e, he, hlt⟩
    · obtain ⟨e, he, rfl⟩ := List.mem_map.mp hb
      exact ⟨a, ha, e, he, hlt⟩

end

section
variable {ε : Type u} {scanner : RangeScanner ε} {start end_ : Bytes} {entries : List RawEntry}

/-- `PickSplitBoundary` picks from the sorted entries; the check of their number is subsumed. -/
theorem pickSplitBoundary_of_scan (hscan : scanner start end_ = .ok entries) :
    pickSplitBoundary scanner start end_ =
      match pickSorted (entries.insertionSort (·.1 ≤ ·.1)) with
      | none => .error .cannotSplit
      | some boundary => .ok boundary := by
  rw [pickSplitBoundary, hscan]
  dsimp only
  split
  · rename_i hlen
    match entries with
    | [] => rfl
    | [_] => rfl
    | _ :: _ :: _ => simp at hlen
  · rfl

theorem pickSplitBoundary_eq_cannotSplit_iff (hscan : scanner start end_ = .ok entries) :
    pickSplitBoundary scanner start end_ = .error .cannotSplit ↔
      ¬ ∃ key, Separates entries key := by
  have hperm := List.perm_insertionSort (fun a b : RawEntry => a.1 ≤ b.1) entries
  have hnone := pickSorted_eq_none_iff (pairwise_insertionSort_fst entries)
  rw [forall_congr' fun key => not_congr (separates_perm hperm), ← not_exists] at hnone
  rw [pickSplitBoundary_of_scan hscan, ← hnone]
  cases pickSorted (entries.insertionSort (·.1 ≤ ·.1)) <;> simp

/-- A boundary is the best one for what the scan returned. -/
theorem optimalBoundary_of_pickSplitBoundary {boundary : Bytes}
    (h : pickSplitBoundary scanner start end_ = .ok boundary) :
    ∃ entries, scanner start end_ = .ok entries ∧ OptimalBoundary entries boundary := by
  cases hscan : scanner start end_ with
  | error err => rw [pickSplitBoundary, hscan] at h; cases h
  | ok entries =>
    refine ⟨entries, rfl, ?_⟩
    rw [pickSplitBoundary_of_scan hscan] at h
    cases hpick : pickSorted (entries.insertionSort (·.1 ≤ ·.1)) with
    | none => rw [hpick] at h; cases h
    | some b =>
      rw [hpick] at h
      cases h
      exact (optimalBoundary_of_pickSorted (pairwise_insertionSort_fst entries) hpick).perm
        (List.perm_insertionSort _ _)

theorem exists_pickSplitBoundary (hscan : scanner start end_ = .ok entries)
    (h : ∃ key, Separates entries key) :
    ∃ boundary, pickSplitBoundary scanner start end_ = .ok boundary ∧
      OptimalBoundary entries boundary := by
  cases hpick : pickSplitBoundary scanner start end_ with
  | error err =>
    cases err with
    | cannotSplit => exact absurd h ((pickSplitBoundary_eq_cannotSplit_iff hscan).mp hpick)
    | scanRange _ _ _ =>
      rw [pickSplitBoundary_of_scan hscan] at hpick
      split at hpick <;> cases hpick
  | ok boundary =>
    obtain ⟨entries', hscan', hopt⟩ := optimalBoundary_of_pickSplitBoundary hpick
    rw [hscan] at hscan'
    cases hscan'
    exact ⟨boundary, rfl, hopt⟩

/-- `PickSplitBoundary` fails with `ErrCannotSplit` exactly on entries with fewer than two keys.
Otherwise it returns the key above the least one that divides the bytes most evenly, the least one
of them. -/
theorem pickSplitBoundary_optimal (hscan : scanner start end_ = .ok entries) :
    (pickSplitBoundary scanner start end_ = .error .cannotSplit ↔
      (entries.map Prod.fst).toFinset.card < 2) ∧
    (2 ≤ (entries.map Prod.fst).toFinset.card →
      ∃ boundary, pickSplitBoundary scanner start end_ = .ok boundary ∧
        OptimalBoundary entries boundary) := by
  rw [pickSplitBoundary_eq_cannotSplit_iff hscan, ← Nat.not_le, ← exists_separates_iff]
  exact ⟨Iff.rfl, exists_pickSplitBoundary hscan⟩

end

/-- Repeated keys at both ends, and two boundaries that are equally good. -/
theorem pickSplitBoundary_optimal_tie :
    let entries : List RawEntry := [([99], []), ([97], []), ([98], []), ([97], []), ([99], [])]
    imbalance entries [98] = imbalance entries [99] ∧ OptimalBoundary entries [98] := by
  intro entries
  let scanner : RangeScanner Empty := fun _ _ => .ok entries
  have hscan : scanner [] [] = .ok entries := rfl
  obtain ⟨boundary, hpick, hopt⟩ := (pickSplitBoundary_optimal hscan).2 (by decide)
  have hpick' : pickSplitBoundary scanner [] [] = .ok [98] := rfl
  rw [hpick'] at hpick
  cases hpick
  exact ⟨by decide, hopt⟩

end ChudDB.Cluster
