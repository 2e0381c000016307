import Mathlib

/-! # Ranked lists

A list that is ordered by a strict order lists its elements by rank: the first `n` elements are
those before which fewer than `n` others rank. -/

namespace ChudDB.Lib

variable {α : Type u} {r : α → α → Prop} {l : List α} {a : α}

theorem mem_take_iff_countP_lt [DecidableRel r] (hasymm : ∀ a b, r a b → ¬ r b a)
    (h : l.Pairwise r) (ha : a ∈ l) (n : Nat) : a ∈ l.take n ↔ l.countP (r · a) < n := by
  induction l generalizing n with
  | nil => cases ha
  | cons b l ih =>
    obtain ⟨hb, hl⟩ := List.pairwise_cons.mp h
    rw [List.countP_cons]
    by_cases hab : a = b
    · -- Nothing ranks before the first element.
      have hnone : l.countP (r · a) = 0 :=
        List.countP_eq_zero.mpr fun c hc => by simpa using hasymm a c (hab ▸ hb c hc)
      have hself : ¬ r b a := fun hba => hasymm b a hba (hab ▸ hba)
      rw [hnone, if_neg (by simpa using hself)]
      cases n with
      | zero => simp
      | succ n => simp [hab]
    · have ha : a ∈ l := (List.mem_cons.mp ha).resolve_left hab
      rw [if_pos (by simpa using hb a ha)]
      cases n with
      | zero => simp
      | succ n => simp [hab, ih hl ha n]

/-- The earlier of two elements ranks before the later one. -/
theorem rel_or_eq_of_idxOf_le [DecidableEq α] {b : α} (h : l.Pairwise r) (ha : a ∈ l)
    (hb : b ∈ l) (hle : l.idxOf a ≤ l.idxOf b) : r a b ∨ a = b := by
  rcases hle.lt_or_eq with hlt | heq
  · have hab := List.pairwise_iff_getElem.mp h _ _ (List.idxOf_lt_length_of_mem ha)
      (List.idxOf_lt_length_of_mem hb) hlt
    rw [List.getElem_idxOf, List.getElem_idxOf] at hab
    exact .inl hab
  · exact .inr ((List.idxOf_inj ha).mp heq)

/-- Two lists with the same elements that are ordered by an antisymmetric relation are equal. -/
theorem eq_of_sorted_of_mem_iff (hanti : ∀ a b, r a b → r b a → a = b) {l l' : List α}
    (h : l.Pairwise r) (h' : l'.Pairwise r) (hl : l.Nodup) (hl' : l'.Nodup)
    (hmem : ∀ a, a ∈ l ↔ a ∈ l') : l = l' :=
  ((List.perm_ext_iff_of_nodup hl hl').mpr hmem).eq_of_pairwise (fun a b _ _ => hanti a b) h h'

end ChudDB.Lib
