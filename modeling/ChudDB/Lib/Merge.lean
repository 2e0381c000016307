import ChudDB.Lib.Lists

/-! # Merging sorted streams

A merge of several streams takes, again and again, a head with a least key. Where several heads have
the least key any of them may come first, so merging is a relation. -/

namespace ChudDB.Lib

variable {α : Type u} {K : Type v} [LinearOrder K] {key : α → K}

/-- `out` lists the elements of the streams in an order in which a merge may take them. -/
inductive Merges (key : α → K) : List (List α) → List α → Prop
  | done : (∀ s ∈ streams, s = []) → Merges key streams []
  | take : streams[i]? = some (x :: s) → (∀ y ∈ streams.filterMap List.head?, key x ≤ key y) →
    Merges key (streams.set i s) out → Merges key streams (x :: out)

omit [LinearOrder K] in
theorem flatten_set_perm {streams : List (List α)} (h : streams[i]? = some (x :: s)) :
    (x :: (streams.set i s).flatten).Perm streams.flatten := by
  obtain ⟨l₁, l₂, -, hsplit, hset⟩ := exists_split_set h
  rw [hset]
  conv_rhs => rw [hsplit]
  simp only [List.flatten_append, List.flatten_cons, List.cons_append]
  exact List.perm_middle.symm

theorem Merges.perm (h : Merges key streams out) : out.Perm streams.flatten := by
  induction h with
  | done hempty => rw [List.flatten_eq_nil_iff.mpr hempty]
  | take hget _ _ ih => exact (ih.cons _).trans (flatten_set_perm hget)

theorem Merges.sorted (h : Merges key streams out)
    (hs : ∀ s ∈ streams, s.Pairwise (key · ≤ key ·)) : out.Pairwise (key · ≤ key ·) := by
  induction h with
  | done => exact .nil
  | @take streams i x s out hget hmin hrest ih =>
    have hxs := List.pairwise_cons.mp (hs _ (List.mem_of_getElem? hget))
    apply List.Pairwise.cons
    · -- an element is not below the head of its stream, and no head is below `x`
      intro y hy
      have hy' : y ∈ streams.flatten :=
        (flatten_set_perm hget).mem_iff.mp (List.mem_cons_of_mem _ (hrest.perm.mem_iff.mp hy))
      obtain ⟨t, ht, hyt⟩ := List.mem_flatten.mp hy'
      cases t with
      | nil => cases hyt
      | cons z t =>
        have hz : key x ≤ key z := hmin z (List.mem_filterMap.mpr ⟨_, ht, rfl⟩)
        rcases List.mem_cons.mp hyt with rfl | hyt
        · exact hz
        · exact hz.trans ((List.pairwise_cons.mp (hs _ ht)).1 y hyt)
    · apply ih
      intro t ht
      rcases List.mem_or_eq_of_mem_set ht with ht | rfl
      · exact hs t ht
      · exact hxs.2

/-! ## The first of each run of equal keys -/

/-- The elements whose key is not the key of the element before; `last` is the key before the
list. -/
def firsts (key : α → K) : K → List α → List α
  | _, [] => []
  | last, x :: l => if key x = last then firsts key last l else x :: firsts key (key x) l

theorem firsts_sublist : (firsts key last l).Sublist l := by
  induction l generalizing last with
  | nil => exact .slnil
  | cons x l ih =>
    rw [firsts]
    split
    · exact ih.cons x
    · exact ih.cons_cons x

/-- In a sorted list the keys of the firsts strictly increase. -/
theorem firsts_sorted (h : l.Pairwise (key · ≤ key ·)) (hlast : ∀ x ∈ l, last ≤ key x) :
    (firsts key last l).Pairwise (key · < key ·) ∧ ∀ x ∈ firsts key last l, last < key x := by
  induction l generalizing last with
  | nil => exact ⟨.nil, by simp [firsts]⟩
  | cons x l ih =>
    obtain ⟨hx, hl⟩ := List.pairwise_cons.mp h
    rw [firsts]
    split
    · exact ih hl fun y hy => hlast y (List.mem_cons_of_mem _ hy)
    · rename_i hne
      have hlt : last < key x := lt_of_le_of_ne (hlast x List.mem_cons_self) (Ne.symm hne)
      obtain ⟨hsorted, habove⟩ := ih hl hx
      refine ⟨.cons habove hsorted, ?_⟩
      intro y hy
      rcases List.mem_cons.mp hy with rfl | hy
      · exact hlt
      · exact hlt.trans (habove y hy)

/-- Every key but the one before the list has a first. -/
theorem exists_first (hx : x ∈ l) (hne : key x ≠ last) : ∃ y ∈ firsts key last l, key y = key x := by
  induction l generalizing last with
  | nil => cases hx
  | cons z l ih =>
    rw [firsts]
    split
    · rename_i hz
      rcases List.mem_cons.mp hx with rfl | hx
      · exact absurd hz hne
      · exact ih hx hne
    · by_cases hzx : key z = key x
      · exact ⟨z, List.mem_cons_self, hzx⟩
      · rcases List.mem_cons.mp hx with rfl | hx
        · exact absurd rfl hzx
        · obtain ⟨y, hy, heq⟩ := ih hx (Ne.symm hzx)
          exact ⟨y, List.mem_cons_of_mem _ hy, heq⟩

end ChudDB.Lib
