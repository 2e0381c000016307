import Mathlib

/-! # Stores and copies in a slice

Code that keeps a sorted slice makes room for an element by an append and a copy, and finds the
place by an index that walks up or down. An index out of range is a run-time error (`none`). The
lemmas describe a position as the length of what stands before it. -/

namespace ChudDB.Lib
variable {α : Type u}

/-- The store `l[i] = a`. -/
def setAt (l : List α) (i : Nat) (a : α) : Option (List α) :=
  if i < l.length then some (l.set i a) else none

/-- `l[i:]`. -/
def sliceFrom (l : List α) (i : Nat) : Option (List α) :=
  if i ≤ l.length then some (l.drop i) else none

/-- `l[:i]`, within the length. -/
def sliceTo (l : List α) (i : Nat) : Option (List α) :=
  if i ≤ l.length then some (l.take i) else none

/-- `copy(l[dst:], l[src:])`; as many elements are copied as there are in the shorter part. -/
def copyWithin (l : List α) (dst src : Nat) : Option (List α) :=
  if dst ≤ l.length ∧ src ≤ l.length then
    some (l.take dst ++ (l.drop src).take (l.length - dst) ++ l.drop (dst + (l.length - src)))
  else none

/-- `l = append(l, zero)`, then `copy(l[i+1:], l[i:])`, then `l[i] = a`. -/
def insertAt (l : List α) (i : Nat) (zero a : α) : Option (List α) :=
  (copyWithin (l ++ [zero]) (i + 1) i).bind fun l => setAt l i a

/-- `for i < len(l) && p(l[i]) { i++ }`. -/
def walkUp (p : α → Bool) (l : List α) (i : Nat) : Nat :=
  if h : i < l.length then
    if p l[i] then walkUp p l (i + 1) else i
  else i
termination_by l.length - i

/-- `for i >= 0 && p(l[i]) { i-- }; i++`, from the index `i + 1` for `i`. -/
def walkDown (p : α → Bool) (l : List α) : Nat → Option Nat
  | 0 => some 0
  | i + 1 => l[i]?.bind fun a => if p a then walkDown p l i else some (i + 1)

theorem setAt_append_cons (l r : List α) (a b : α) :
    setAt (l ++ a :: r) l.length b = some (l ++ b :: r) := by
  rw [setAt, if_pos (by simp), List.set_append_right _ _ le_rfl, Nat.sub_self, List.set_cons_zero]

theorem insertAt_eq (l : List α) (i : Nat) (zero a : α) :
    insertAt l i zero a = if i ≤ l.length then some (l.take i ++ a :: l.drop i) else none := by
  have hlen : (l ++ [zero]).length = l.length + 1 := by simp
  rw [insertAt, copyWithin, hlen]
  by_cases h : i ≤ l.length
  · have hdrop : ((l ++ [zero]).drop i).take (l.length + 1 - (i + 1)) = l.drop i := by
      rw [List.drop_append_of_le_length h, List.take_append_of_le_length (by simp)]
      exact List.take_of_length_le (by simp)
    have hnil : (l ++ [zero]).drop (i + 1 + (l.length + 1 - i)) = [] :=
      List.drop_eq_nil_of_le (by simp; omega)
    obtain ⟨b, hb⟩ : ∃ b, (l ++ [zero])[i]? = some b :=
      ⟨_, List.getElem?_eq_getElem (by simp; omega)⟩
    have htake : (l ++ [zero]).take (i + 1) = l.take i ++ [b] := by
      rw [List.take_add_one, hb, List.take_append_of_le_length h]
      rfl
    have hset := setAt_append_cons (l.take i) (l.drop i) b a
    rw [List.length_take_of_le h] at hset
    rw [if_pos ⟨by omega, by omega⟩, hdrop, hnil, htake, Option.bind_some, List.append_nil,
      List.append_assoc, List.singleton_append, hset, if_pos h]
  · rw [if_neg (by omega), if_neg h]
    rfl

theorem insertAt_append (l r : List α) (zero a : α) :
    insertAt (l ++ r) l.length zero a = some (l ++ a :: r) := by
  rw [insertAt_eq, if_pos (by simp), List.take_left, List.drop_left]

theorem mem_of_mem_insertAt {l l' : List α} (h : insertAt l i zero a = some l') (hb : b ∈ l') :
    b = a ∨ b ∈ l := by
  rw [insertAt_eq] at h
  split at h
  · cases h
    rcases List.mem_append.mp hb with hb | hb
    · exact .inr (List.mem_of_mem_take hb)
    · exact (List.mem_cons.mp hb).imp_right List.mem_of_mem_drop
  · cases h

theorem sizeOf_le_of_sublist [SizeOf α] {l l' : List α} (h : l.Sublist l') :
    sizeOf l ≤ sizeOf l' := by
  induction h with
  | slnil => exact le_rfl
  | cons a _ ih =>
    rw [List.cons.sizeOf_spec]
    omega
  | cons_cons a _ ih =>
    rw [List.cons.sizeOf_spec, List.cons.sizeOf_spec]
    omega

theorem walkUp_append {l r : List α} {p : α → Bool} (hl : ∀ a ∈ l, p a = true)
    (hr : ∀ a ∈ r.head?, p a = false) : walkUp p (l ++ r) 0 = l.length := by
  -- from the index behind any part of `l` on
  have hfrom : ∀ l₁ l₂, l = l₁ ++ l₂ → walkUp p (l ++ r) l₁.length = l.length := by
    intro l₁ l₂
    induction l₂ generalizing l₁ with
    | nil =>
      rintro rfl
      rw [List.append_nil, walkUp]
      cases r with
      | nil => simp
      | cons a r => simp [hr a rfl]
    | cons a l₂ ih =>
      intro hsplit
      have hnext := ih (l₁ ++ [a]) (by rw [hsplit, List.append_assoc, List.singleton_append])
      rw [List.length_append, List.length_singleton] at hnext
      have hlt : l₁.length < (l ++ r).length := by simp [hsplit]
      have hget : (l ++ r)[l₁.length] = a := by simp [hsplit]
      rw [walkUp, dif_pos hlt, hget, if_pos (hl a (by simp [hsplit])), hnext]
  exact hfrom [] l rfl

theorem walkDown_append {l r : List α} {p : α → Bool} (hl : ∀ a ∈ l.getLast?, p a = false)
    (hr : ∀ a ∈ r, p a = true) (tail : List α) :
    walkDown p (l ++ r ++ tail) (l ++ r).length = some l.length := by
  induction r using List.reverseRecOn generalizing tail with
  | nil =>
    rw [List.append_nil]
    rcases List.eq_nil_or_concat l with rfl | ⟨l, a, rfl⟩
    · rfl
    · have ha : p a = false := hl a (by simp)
      simp [walkDown, ha]
  | append_singleton r a ih =>
    have hnext := ih (fun b hb => hr b (List.mem_append_left _ hb)) (a :: tail)
    have hlen : (l ++ (r ++ [a])).length = (l ++ r).length + 1 := by simp; omega
    have hassoc : l ++ (r ++ [a]) ++ tail = l ++ r ++ a :: tail := by simp
    rw [hlen, walkDown, hassoc, List.getElem?_append_right le_rfl, Nat.sub_self,
      List.getElem?_cons_zero, Option.bind_some, if_pos (hr a (by simp)), hnext]

end ChudDB.Lib
