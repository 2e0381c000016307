import Mathlib

/-! # Linked lists

The nodes of a linked list are found from a link by following `next` up to the end. A list is
described by its nodes (`Linked`), and keeps this description when only the links of other nodes
change (`Linked.congr`). A new node is linked in behind the last one that a walk passes
(`Linked.splice`). -/

namespace ChudDB.Lib

variable {P : Type u} {next next' : P → Option P}

/-- The nodes from a link on. -/
def Linked (next : P → Option P) : Option P → List P → Prop
  | link, [] => link = none
  | link, p :: nodes => link = some p ∧ Linked next (next p) nodes

/-- Walk on from a node while the next one meets the condition. -/
def walk (next : P → Option P) (pass : P → Bool) : Nat → P → Option P
  | 0, _ => none
  | fuel + 1, p =>
    match next p with
    | some q => if pass q then walk next pass fuel q else some p
    | none => some p

/-- Visit the nodes from a link on. -/
def visit (next : P → Option P) : Nat → Option P → Option (List P)
  | 0, _ => none
  | _ + 1, none => some []
  | fuel + 1, some p => (visit next fuel (next p)).map (p :: ·)

variable {link : Option P} {nodes front back : List P} {p q : P} {pass : P → Bool}

theorem Linked.congr (h : Linked next link nodes) (hnext : ∀ p ∈ nodes, next' p = next p) :
    Linked next' link nodes := by
  induction nodes generalizing link with
  | nil => exact h
  | cons p nodes ih =>
    refine ⟨h.1, ?_⟩
    rw [hnext p List.mem_cons_self]
    exact ih h.2 fun q hq => hnext q (List.mem_cons_of_mem p hq)

theorem Linked.head? (h : Linked next link nodes) : link = nodes.head? := by
  cases nodes with
  | nil => exact h
  | cons p nodes => exact h.1

theorem visit_eq (h : Linked next link nodes) (hfuel : nodes.length < fuel) :
    visit next fuel link = some nodes := by
  induction nodes generalizing link fuel with
  | nil =>
    obtain ⟨fuel, rfl⟩ := Nat.exists_eq_succ_of_ne_zero (Nat.ne_of_gt hfuel)
    rw [h, visit]
  | cons p nodes ih =>
    obtain ⟨fuel, rfl⟩ := Nat.exists_eq_succ_of_ne_zero (Nat.ne_of_gt (Nat.zero_lt_of_lt hfuel))
    rw [h.1, visit, ih h.2 (Nat.lt_of_succ_lt_succ hfuel), Option.map_some]

theorem getLastD_append_cons (front back : List P) (p q : P) :
    (front ++ q :: back).getLastD p = back.getLastD q := by
  induction front generalizing p with
  | nil => rw [List.nil_append, List.getLastD_cons]
  | cons r front ih => rw [List.cons_append, List.getLastD_cons, ih]

/-- The link of a node leads to those behind it. -/
theorem Linked.behind (h : Linked next (next p) (front ++ back)) :
    Linked next (next (front.getLastD p)) back := by
  induction front generalizing p with
  | nil => exact h
  | cons q front ih =>
    rw [List.getLastD_cons]
    exact ih h.2

/-- The walk ends at the last of the nodes that it passes. -/
theorem walk_eq (h : Linked next (next p) nodes) (hfuel : nodes.length < fuel) :
    walk next pass fuel p = some ((nodes.takeWhile pass).getLastD p) := by
  induction nodes generalizing p fuel with
  | nil =>
    obtain ⟨fuel, rfl⟩ := Nat.exists_eq_succ_of_ne_zero (Nat.ne_of_gt hfuel)
    rw [walk, h]
    rfl
  | cons q nodes ih =>
    obtain ⟨fuel, rfl⟩ := Nat.exists_eq_succ_of_ne_zero (Nat.ne_of_gt (Nat.zero_lt_of_lt hfuel))
    rw [walk, h.1, List.takeWhile_cons]
    by_cases hpass : pass q = true
    · simp only [if_pos hpass, List.getLastD_cons]
      exact ih h.2 (Nat.lt_of_succ_lt_succ hfuel)
    · simp only [if_neg hpass]
      rfl

/-- Link in a new node behind the last one of the front. -/
theorem Linked.splice (h : Linked next (next p) (front ++ back))
    (hnodup : (p :: (front ++ back)).Nodup) (hnew : next' q = next (front.getLastD p))
    (hlast : next' (front.getLastD p) = some q)
    (hother : ∀ r ∈ p :: (front ++ back), r ≠ front.getLastD p → next' r = next r) :
    Linked next' (next' p) (front ++ q :: back) := by
  induction front generalizing p with
  | nil =>
    refine ⟨hlast, ?_⟩
    rw [hnew]
    refine h.congr fun r hr => hother r (List.mem_cons_of_mem p hr) ?_
    rintro rfl
    exact (List.nodup_cons.mp hnodup).1 hr
  | cons r front ih =>
    rw [List.getLastD_cons] at hnew hlast hother
    have hne : p ≠ front.getLastD r := by
      intro heq
      refine (List.nodup_cons.mp hnodup).1 ?_
      rw [heq]
      exact List.mem_append_left back List.getLastD_mem_cons
    refine ⟨?_, ih h.2 (List.nodup_cons.mp hnodup).2 hnew hlast fun r' hr' => ?_⟩
    · rw [hother p List.mem_cons_self hne]
      exact h.1
    · exact hother r' (List.mem_cons_of_mem p hr')

end ChudDB.Lib
