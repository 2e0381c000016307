import ChudDB.Lib.Bytes
import ChudDB.Lib.SortedMap

/-! # Vector clocks

`VectorClock` (`vector_clock.go`). The map from node IDs to counters is listed by node ID, so that
two clocks with the same entries are equal; a node that is not in the map counts as 0. `Compare`
decides the pointwise order of the counters (`compare_eq_before_iff` and so on) and `Merge` is the
pointwise maximum (`get_merge`). -/

namespace ChudDB.Cluster
open Lib

abbrev NodeID := Bytes

/-- A `uint64`. -/
abbrev Counter := Fin (2 ^ 64)

instance neZeroCounter : NeZero (2 ^ 64) := ⟨by decide⟩

/-- `math.MaxUint64`. -/
def maxUint64 : Counter := Fin.last _

/-- An incremented counter is the greater one unless it wraps around. -/
theorem lt_succ_iff {n : Counter} : n < n + 1 ↔ n ≠ maxUint64 :=
  Fin.lt_add_one_iff.trans Fin.lt_last_iff_ne_last

theorem val_succ {n : Counter} (h : n ≠ maxUint64) : (n + 1).val = n.val + 1 :=
  Fin.val_add_one_of_lt (Fin.lt_last_iff_ne_last.mpr h)

structure VectorClock where
  entries : List (NodeID × Counter)
  ascending : Ascending entries
deriving DecidableEq

/-- `versioning.Relation`. -/
inductive Relation where
  | equal
  | before
  | after
  | concurrent
deriving DecidableEq, Repr

/-- How two elements of an order stand to each other. -/
noncomputable def Relation.ofOrder {α : Type u} [PartialOrder α] (x y : α) : Relation :=
  open Classical in
  if x = y then .equal else if x ≤ y then .before else if y ≤ x then .after else .concurrent

/-- The relation seen from the other side. -/
def Relation.mirror : Relation → Relation
  | .equal => .equal
  | .before => .after
  | .after => .before
  | .concurrent => .concurrent

namespace VectorClock

variable {a b c : VectorClock} {id id' : NodeID}

def empty : VectorClock := ⟨[], List.Pairwise.nil⟩

/-- The counter of a node. -/
def get (c : VectorClock) (id : NodeID) : Counter := (c.entries.lookup id).getD 0

def set (c : VectorClock) (id : NodeID) (n : Counter) : VectorClock :=
  ⟨put id n c.entries, ascending_put c.ascending⟩

/-- `Increment`. -/
def increment (c : VectorClock) (nodeID : NodeID) : VectorClock :=
  c.set nodeID (c.get nodeID + 1)

/-- `Merge`. -/
def merge (a b : VectorClock) : VectorClock :=
  b.entries.foldl (fun merged e => if e.2 > merged.get e.1 then merged.set e.1 e.2 else merged) a

/-- `Compare`. -/
def compare (a b : VectorClock) : Relation :=
  let aLess := a.entries.any (fun e => decide (e.2 < b.get e.1)) ||
    b.entries.any (fun e => (a.entries.lookup e.1).isNone && decide (e.2 > 0))
  let aGreater := a.entries.any fun e => decide (e.2 > b.get e.1)
  match aLess, aGreater with
  | false, false => .equal
  | true, false => .before
  | false, true => .after
  | true, true => .concurrent

/-! ## Counters -/

theorem get_of_mem (h : (id, n) ∈ c.entries) : c.get id = n := by
  rw [get, (lookup_eq_some_iff_mem c.ascending.nodup).mpr h]
  rfl

theorem mem_of_get_ne_zero (h : c.get id ≠ 0) : (id, c.get id) ∈ c.entries := by
  rw [get] at h ⊢
  cases hl : c.entries.lookup id with
  | none => rw [hl] at h; exact absurd rfl h
  | some n => exact (lookup_eq_some_iff_mem c.ascending.nodup).mp hl

theorem get_set : (c.set id n).get id' = if id' = id then n else c.get id' := by
  rw [get, set, lookup_put c.ascending]
  split
  · rfl
  · rfl

theorem get_increment : (c.increment id).get id' = if id' = id then c.get id + 1 else c.get id' :=
  get_set

theorem get_increment_self : (c.increment id).get id = c.get id + 1 := by
  rw [get_increment, if_pos rfl]

theorem get_increment_ne (h : id' ≠ id) : (c.increment id).get id' = c.get id' := by
  rw [get_increment, if_neg h]

/-- One step of `Merge` raises one counter. -/
theorem get_raise {e : NodeID × Counter} :
    (if e.2 > c.get e.1 then c.set e.1 e.2 else c).get id =
      if id = e.1 then max (c.get id) e.2 else c.get id := by
  by_cases h : e.2 > c.get e.1
  · rw [if_pos h, get_set]
    by_cases hid : id = e.1
    · subst hid
      rw [if_pos rfl, if_pos rfl, max_eq_right h.le]
    · rw [if_neg hid, if_neg hid]
  · rw [if_neg h]
    by_cases hid : id = e.1
    · subst hid
      rw [if_pos rfl, max_eq_left (not_lt.mp h)]
    · rw [if_neg hid]

theorem get_foldl_raise {l : List (NodeID × Counter)} (hl : Ascending l) (a : VectorClock) :
    (l.foldl (fun merged e => if e.2 > merged.get e.1 then merged.set e.1 e.2 else merged) a).get id =
      max (a.get id) ((l.lookup id).getD 0) := by
  induction l generalizing a with
  | nil => exact (max_eq_left (Fin.zero_le _)).symm
  | cons e l ih =>
    obtain ⟨hgt, hl⟩ := ascending_cons.mp hl
    rw [List.foldl_cons, ih hl, get_raise, List.lookup_cons]
    by_cases hid : id = e.1
    · have hnone : l.lookup id = none := lookup_eq_none_of_ne fun e' he' => hid ▸ (hgt e' he').ne'
      rw [if_pos hid, hnone, beq_iff_eq.mpr hid]
      exact max_eq_left (Fin.zero_le _)
    · rw [if_neg hid, beq_eq_false_iff_ne.mpr hid]

theorem get_merge (a b : VectorClock) (id : NodeID) :
    (a.merge b).get id = max (a.get id) (b.get id) :=
  get_foldl_raise b.ascending a

/-! ## Comparison -/

/-- `aLess`. -/
theorem less_iff : (a.entries.any (fun e => decide (e.2 < b.get e.1)) ||
    b.entries.any (fun e => (a.entries.lookup e.1).isNone && decide (e.2 > 0))) = true ↔
      ∃ id, a.get id < b.get id := by
  rw [Bool.or_eq_true, List.any_eq_true, List.any_eq_true]
  constructor
  · rintro (⟨e, he, hlt⟩ | ⟨e, he, hlt⟩)
    · exact ⟨e.1, by rw [get_of_mem he]; exact of_decide_eq_true hlt⟩
    · rw [Bool.and_eq_true, Option.isNone_iff_eq_none, decide_eq_true_iff] at hlt
      refine ⟨e.1, ?_⟩
      rw [get_of_mem he, get, hlt.1]
      exact hlt.2
  · rintro ⟨id, hlt⟩
    have hpos : b.get id ≠ 0 := ne_bot_of_gt hlt
    have hmem := mem_of_get_ne_zero hpos
    cases hl : a.entries.lookup id with
    | some n =>
      refine .inl ⟨(id, n), (lookup_eq_some_iff_mem a.ascending.nodup).mp hl, ?_⟩
      rw [get, hl] at hlt
      exact decide_eq_true hlt
    | none =>
      refine .inr ⟨(id, b.get id), hmem, ?_⟩
      rw [hl]
      exact decide_eq_true (Fin.pos_iff_ne_zero.mpr hpos)

/-- `aGreater`. -/
theorem greater_iff : (a.entries.any fun e => decide (e.2 > b.get e.1)) = true ↔
    ∃ id, b.get id < a.get id := by
  rw [List.any_eq_true]
  constructor
  · rintro ⟨e, he, hlt⟩
    exact ⟨e.1, by rw [get_of_mem he]; exact of_decide_eq_true hlt⟩
  · rintro ⟨id, hlt⟩
    exact ⟨(id, a.get id), mem_of_get_ne_zero (ne_bot_of_gt hlt), decide_eq_true hlt⟩

theorem not_exists_lt_iff : (¬ ∃ id, a.get id < b.get id) ↔ b.get ≤ a.get := by
  simp only [not_exists, not_lt]
  rfl

/-- `Compare` by the two flags. -/
theorem compare_cases (a b : VectorClock) :
    (a.get ≤ b.get ∧ b.get ≤ a.get ∧ a.compare b = .equal) ∨
    (a.get ≤ b.get ∧ ¬ b.get ≤ a.get ∧ a.compare b = .before) ∨
    (¬ a.get ≤ b.get ∧ b.get ≤ a.get ∧ a.compare b = .after) ∨
    (¬ a.get ≤ b.get ∧ ¬ b.get ≤ a.get ∧ a.compare b = .concurrent) := by
  have hless := (less_iff (a := a) (b := b)).not.trans not_exists_lt_iff
  have hgreater := (greater_iff (a := a) (b := b)).not.trans not_exists_lt_iff
  rw [compare]
  generalize (a.entries.any _ || b.entries.any _) = less at hless
  generalize (a.entries.any _) = greater at hgreater
  cases less <;> cases greater <;> simp_all

theorem compare_eq_equal_iff : a.compare b = .equal ↔ a.get = b.get := by
  have heq : a.get = b.get ↔ a.get ≤ b.get ∧ b.get ≤ a.get := le_antisymm_iff
  rw [heq]
  rcases compare_cases a b with h | h | h | h <;> simp [h]

theorem compare_eq_before_iff : a.compare b = .before ↔ a.get < b.get := by
  rw [lt_iff_le_not_ge]
  rcases compare_cases a b with h | h | h | h <;> simp [h]

theorem compare_eq_after_iff : a.compare b = .after ↔ b.get < a.get := by
  rw [lt_iff_le_not_ge]
  rcases compare_cases a b with h | h | h | h <;> simp [h]

/-- `Before` or `Equal`. -/
theorem le_iff_compare : a.get ≤ b.get ↔ a.compare b = .before ∨ a.compare b = .equal := by
  rcases compare_cases a b with h | h | h | h <;> simp [h]

/-! ## The order of clocks -/

/-- Neither `Before` nor `Concurrent`. -/
def Covers (c a : VectorClock) : Prop := c.compare a ≠ .before ∧ c.compare a ≠ .concurrent

/-- The least of the clocks that cover two others. -/
structure IsLeastCover (a b m : VectorClock) : Prop where
  left : m.Covers a
  right : m.Covers b
  least : ∀ c : VectorClock, c.Covers a → c.Covers b → m.compare c = .before ∨ m.compare c = .equal

theorem compare_eq_ofOrder (a b : VectorClock) : a.compare b = .ofOrder a.get b.get := by
  have heq : a.get = b.get ↔ a.get ≤ b.get ∧ b.get ≤ a.get := le_antisymm_iff
  rw [Relation.ofOrder, heq]
  rcases compare_cases a b with h | h | h | h <;> simp [h]

theorem compare_mirror (a b : VectorClock) : b.compare a = (a.compare b).mirror := by
  rcases compare_cases a b with ⟨hab, hba, h⟩ | ⟨hab, hba, h⟩ | ⟨hab, hba, h⟩ | ⟨hab, hba, h⟩
  all_goals
    rw [h]
    rcases compare_cases b a with h' | h' | h' | h' <;> simp_all [Relation.mirror]

theorem covers_iff {c a : VectorClock} : c.Covers a ↔ a.get ≤ c.get := by
  rw [Covers]
  rcases compare_cases c a with h | h | h | h <;> simp [h]

theorem get_merge_eq_sup (a b : VectorClock) : (a.merge b).get = a.get ⊔ b.get :=
  funext fun id => get_merge a b id

/-- `Merge` is the least upper bound. -/
theorem isLeastCover_iff {m : VectorClock} :
    IsLeastCover a b m ↔ m.compare (a.merge b) = .equal := by
  rw [compare_eq_equal_iff, get_merge_eq_sup]
  constructor
  · intro h
    have hmerge : m.get ≤ (a.merge b).get := by
      refine le_iff_compare.mpr (h.least (a.merge b) (covers_iff.mpr ?_) (covers_iff.mpr ?_))
      · rw [get_merge_eq_sup]
        exact le_sup_left
      · rw [get_merge_eq_sup]
        exact le_sup_right
    rw [get_merge_eq_sup] at hmerge
    exact le_antisymm hmerge (sup_le (covers_iff.mp h.left) (covers_iff.mp h.right))
  · intro h
    refine ⟨covers_iff.mpr ?_, covers_iff.mpr ?_, fun c hca hcb => ?_⟩
    · rw [h]
      exact le_sup_left
    · rw [h]
      exact le_sup_right
    · rw [← le_iff_compare, h]
      exact sup_le (covers_iff.mp hca) (covers_iff.mp hcb)

/-- With an absent counter read as 0, `Compare` is the pointwise comparison and `Merge` is the join:
the clocks are a join semilattice up to `Equal`. -/
theorem join_semilattice (a b c : VectorClock) :
    a.compare b = .ofOrder a.get b.get ∧
    b.compare a = (a.compare b).mirror ∧
    (a.compare b = .before → b.compare c = .before → a.compare c = .before) ∧
    (∀ a' b' : VectorClock, a.compare a' = .equal → b.compare b' = .equal →
      a.compare b = a'.compare b') ∧
    (∀ m : VectorClock, IsLeastCover a b m ↔ m.compare (a.merge b) = .equal) ∧
    ((a.merge b).merge c).compare (a.merge (b.merge c)) = .equal ∧
    (a.merge b).compare (b.merge a) = .equal ∧
    (a.merge a).compare a = .equal := by
  refine ⟨compare_eq_ofOrder a b, compare_mirror a b, ?_, ?_, fun m => isLeastCover_iff, ?_, ?_, ?_⟩
  · rw [compare_eq_before_iff, compare_eq_before_iff, compare_eq_before_iff]
    exact lt_trans
  · intro a' b' ha hb
    rw [compare_eq_ofOrder, compare_eq_ofOrder, compare_eq_equal_iff.mp ha,
      compare_eq_equal_iff.mp hb]
  · rw [compare_eq_equal_iff]
    simp only [get_merge_eq_sup, sup_assoc]
  · rw [compare_eq_equal_iff, get_merge_eq_sup, get_merge_eq_sup, sup_comm]
  · rw [compare_eq_equal_iff, get_merge_eq_sup, sup_idem]

end VectorClock
end ChudDB.Cluster
