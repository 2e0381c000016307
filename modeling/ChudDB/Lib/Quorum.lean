import Mathlib

/-! # Quorums

Two counts over the same list that together exceed its length share an element. -/

namespace ChudDB.Lib

variable {l : List α} {p q : α → Bool}

theorem countP_add_countP_le (l : List α) (p q : α → Bool) :
    l.countP p + l.countP q ≤ l.length + l.countP fun a => p a && q a := by
  induction l with
  | nil => exact Nat.le_refl _
  | cons a l ih =>
    rw [List.countP_cons, List.countP_cons, List.countP_cons, List.length_cons]
    cases p a <;> cases q a <;> simp <;> omega

/-- Quorums intersect. -/
theorem exists_mem_of_countP_add_gt (h : l.length < l.countP p + l.countP q) :
    ∃ a ∈ l, p a = true ∧ q a = true := by
  have hle := countP_add_countP_le l p q
  have hpos : 0 < l.countP fun a => p a && q a := by omega
  obtain ⟨a, ha, hpq⟩ := List.countP_pos_iff.mp hpos
  exact ⟨a, ha, Bool.and_eq_true_iff.mp hpq⟩

end ChudDB.Lib
