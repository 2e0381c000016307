import Mathlib

/-! # Batches

A list cut into batches of a fixed size from the front; what is left over is shorter than a
batch. -/

namespace ChudDB.Lib

variable {α : Type u}

/-- At most `fuel` batches of `n` elements. -/
def batchesLoop (n : Nat) : Nat → List α → List (List α)
  | 0, _ => []
  | fuel + 1, l => if n ≤ l.length then l.take n :: batchesLoop n fuel (l.drop n) else []

def batches (n : Nat) (l : List α) : List (List α) := batchesLoop n l.length l

theorem length_of_mem_batchesLoop {b : List α} (h : b ∈ batchesLoop n fuel l) : b.length = n := by
  induction fuel generalizing l with
  | zero => cases h
  | succ fuel ih =>
    rw [batchesLoop] at h
    split at h
    · rename_i hlen
      rcases List.mem_cons.mp h with rfl | h
      · exact List.length_take_of_le hlen
      · exact ih h
    · cases h

theorem exists_rest (hn : 0 < n) (hfuel : l.length ≤ fuel) :
    ∃ rest : List α, l = (batchesLoop n fuel l).flatten ++ rest ∧ rest.length < n := by
  induction fuel generalizing l with
  | zero =>
    have : l = [] := List.eq_nil_of_length_eq_zero (by omega)
    exact ⟨[], by simp [this, batchesLoop], hn⟩
  | succ fuel ih =>
    rw [batchesLoop]
    split
    · obtain ⟨rest, heq, hlt⟩ := ih (l := l.drop n) (by rw [List.length_drop]; omega)
      refine ⟨rest, ?_, hlt⟩
      rw [List.flatten_cons, List.append_assoc, ← heq, List.take_append_drop]
    · exact ⟨l, by simp, by omega⟩

/-- A list is its batches and fewer elements than a batch has. -/
theorem exists_batches_append (hn : 0 < n) (l : List α) :
    ∃ rest, l = (batches n l).flatten ++ rest ∧ rest.length < n :=
  exists_rest hn le_rfl

variable {l b b' : List α} {i j : Nat}

theorem batches_ne_nil (hn : 0 < n) (h : (batches n l)[i]? = some b) : b ≠ [] := by
  have := length_of_mem_batchesLoop (List.mem_of_getElem? h)
  exact List.ne_nil_of_length_pos (by omega)

theorem mem_of_mem_batches (hn : 0 < n) (h : (batches n l)[i]? = some b) (ha : a ∈ b) : a ∈ l := by
  obtain ⟨rest, heq, -⟩ := exists_batches_append hn l
  rw [heq]
  exact List.mem_append_left _ (List.mem_flatten.mpr ⟨b, List.mem_of_getElem? h, ha⟩)

section Ordered

variable {R : α → α → Prop}

/-- Elements of an earlier batch stand before those of a later one. -/
theorem batches_ordered (hR : l.Pairwise R) (hn : 0 < n) (hij : i < j)
    (hi : (batches n l)[i]? = some b) (hj : (batches n l)[j]? = some b') (ha : a ∈ b)
    (ha' : a' ∈ b') : R a a' := by
  obtain ⟨rest, heq, -⟩ := exists_batches_append hn l
  rw [heq] at hR
  obtain ⟨hi', rfl⟩ := List.getElem?_eq_some_iff.mp hi
  obtain ⟨hj', rfl⟩ := List.getElem?_eq_some_iff.mp hj
  have hpair := (List.pairwise_flatten.mp (List.pairwise_append.mp hR).1).2
  exact List.pairwise_iff_getElem.mp hpair i j hi' hj' hij a ha a' ha'

/-- Elements of a batch stand before those that are left over. -/
theorem batches_ordered_rest (hR : l.Pairwise R) (hn : 0 < n) (hj : (batches n l)[j]? = some b)
    (ha : a ∈ b) (ha' : a' ∈ l)
    (hrest : ∀ (i : Nat) (b' : List α), (batches n l)[i]? = some b' → a' ∉ b') : R a a' := by
  obtain ⟨rest, heq, -⟩ := exists_batches_append hn l
  have hmem : a' ∈ rest := by
    rw [heq] at ha'
    rcases List.mem_append.mp ha' with hin | hin
    · obtain ⟨b', hb', hin⟩ := List.mem_flatten.mp hin
      obtain ⟨i, hi⟩ := List.getElem?_of_mem hb'
      exact absurd hin (hrest i b' hi)
    · exact hin
  rw [heq] at hR
  exact (List.pairwise_append.mp hR).2.2 a
    (List.mem_flatten.mpr ⟨b, List.mem_of_getElem? hj, ha⟩) a' hmem

end Ordered
end ChudDB.Lib
