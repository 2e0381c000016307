import Mathlib

/-! # Folding a sequence in a binary counter

Slot `i` of the counter holds the combination of a block of `2 ^ i` elements, or nothing. A new
element is put into slot 0; if the slot is taken, both are combined and carried on to the next slot.
`counter` says what the slots hold (`carry_counter`). A counter with `k + 1` slots loses what is
carried out of its last slot, which holds the last complete block of `2 ^ k` elements if there is an
odd number of such blocks (`getLast?_counter`). -/

namespace ChudDB.Lib.BinaryCounter

variable {α : Type u} (combine : α → α → α)

/-- Add an element to a counter. -/
def carry (x : α) : List (Option α) → List (Option α)
  | [] => []
  | none :: slots => some x :: slots
  | some y :: slots => none :: carry (combine y x) slots

/-- The combinations of the complete pairs. -/
def pairs : List α → List α
  | [] => []
  | [_] => []
  | a :: b :: l => combine a b :: pairs l

/-- The slots of a counter to which the elements of a list have been added. -/
def counter : Nat → List α → List (Option α)
  | 0, _ => []
  | n + 1, l => (if l.length % 2 = 1 then l.getLast? else none) :: counter n (pairs combine l)

/-- The combinations of the complete blocks of `2 ^ k` elements. -/
def blocks (k : Nat) (l : List α) : List α := (pairs combine)^[k] l

variable {combine} {l l' : List α} {k n : Nat} {x y : α}

theorem length_pairs (l : List α) : (pairs combine l).length = l.length / 2 := by
  induction l using pairs.induct with
  | case1 => simp [pairs]
  | case2 a => simp [pairs]
  | case3 a b l ih =>
    rw [pairs, List.length_cons, ih, List.length_cons, List.length_cons]
    omega

theorem pairs_append (h : l.length % 2 = 0) :
    pairs combine (l ++ l') = pairs combine l ++ pairs combine l' := by
  induction l using pairs.induct with
  | case1 => rfl
  | case2 a => cases h
  | case3 a b l ih =>
    rw [List.cons_append, List.cons_append, pairs, pairs, ih, List.cons_append]
    rw [List.length_cons, List.length_cons] at h
    omega

theorem forall_mem_pairs {P : α → Prop} (hc : ∀ a b, P (combine a b)) (l : List α) :
    ∀ x ∈ pairs combine l, P x := by
  induction l using pairs.induct with
  | case1 => exact nofun
  | case2 a => exact nofun
  | case3 a b l ih =>
    rw [pairs]
    exact List.forall_mem_cons.mpr ⟨hc a b, ih⟩

/-- What holds of the elements and of every combination holds of what the slots hold. -/
theorem forall_mem_counter {P : α → Prop} (hc : ∀ a b, P (combine a b)) (hl : ∀ x ∈ l, P x) :
    ∀ x, some x ∈ counter combine n l → P x := by
  induction n generalizing l with
  | zero => exact nofun
  | succ n ih =>
    intro x hx
    rcases List.mem_cons.mp hx with heq | hx
    · split at heq
      · exact hl x (List.mem_of_getLast? heq.symm)
      · cases heq
    · exact ih (forall_mem_pairs hc l) x hx

theorem length_counter (n : Nat) (l : List α) : (counter combine n l).length = n := by
  induction n generalizing l with
  | zero => rfl
  | succ n ih => rw [counter, List.length_cons, ih]

/-- Adding an element to the counter adds it to the list. -/
theorem carry_counter (n : Nat) (l : List α) (x : α) :
    carry combine x (counter combine n l) = counter combine n (l ++ [x]) := by
  induction n generalizing l x with
  | zero => rfl
  | succ n ih =>
    rw [counter, counter, List.length_append, List.length_singleton]
    rcases Nat.mod_two_eq_zero_or_one l.length with heven | hodd
    · rw [if_neg (by omega), if_pos (by omega), List.getLast?_concat, carry, pairs_append heven]
      exact congrArg _ (congrArg _ (List.append_nil _).symm)
    · -- the last element is taken, and the pair goes on to the next slot
      obtain ⟨init, last, rfl⟩ : ∃ init last, l = init ++ [last] := by
        refine ⟨_, _, (List.dropLast_append_getLast (List.ne_nil_of_length_pos ?_)).symm⟩
        omega
      rw [List.length_append, List.length_singleton] at hodd
      have hinit : init.length % 2 = 0 := by omega
      have hpair : pairs combine (init ++ [last] ++ [x]) =
          pairs combine (init ++ [last]) ++ [combine last x] := by
        rw [List.append_assoc, pairs_append hinit, pairs_append hinit, List.append_assoc]
        rfl
      rw [List.length_append, List.length_singleton, if_pos hodd, if_neg (by omega),
        List.getLast?_concat, carry, ih, hpair]

/-! ## Blocks -/

theorem blocks_succ (k : Nat) (l : List α) :
    blocks combine (k + 1) l = blocks combine k (pairs combine l) := rfl

theorem length_blocks (k : Nat) (l : List α) : (blocks combine k l).length = l.length / 2 ^ k := by
  induction k generalizing l with
  | zero => exact (Nat.div_one _).symm
  | succ k ih => rw [blocks_succ, ih, length_pairs, Nat.div_div_eq_div_mul, Nat.pow_succ']

theorem blocks_append (h : 2 ^ k ∣ l.length) :
    blocks combine k (l ++ l') = blocks combine k l ++ blocks combine k l' := by
  induction k generalizing l l' with
  | zero => rfl
  | succ k ih =>
    rw [Nat.pow_succ'] at h
    have heven : l.length % 2 = 0 := Nat.mod_eq_zero_of_dvd (dvd_of_mul_right_dvd h)
    have hhalf : 2 ^ k ∣ (pairs combine l).length := by
      rw [length_pairs]
      exact Nat.dvd_div_of_mul_dvd h
    rw [blocks_succ, pairs_append heven, ih hhalf]
    rfl

theorem blocks_eq_nil (h : l.length < 2 ^ k) : blocks combine k l = [] :=
  List.eq_nil_of_length_eq_zero (by rw [length_blocks, Nat.div_eq_of_lt h])

theorem blocks_ne_nil (h : 0 < l.length / 2 ^ k) : blocks combine k l ≠ [] :=
  List.ne_nil_of_length_pos (by rw [length_blocks]; exact h)

theorem forall_mem_blocks {P : α → Prop} (hc : ∀ a b, P (combine a b)) (hl : ∀ x ∈ l, P x) :
    ∀ x ∈ blocks combine k l, P x := by
  induction k generalizing l with
  | zero => exact hl
  | succ k ih => exact ih (forall_mem_pairs hc l)

/-- The last slot holds the last block if their number is odd. -/
theorem getLast?_counter (k : Nat) (l : List α) : (counter combine (k + 1) l).getLast? =
    some (if l.length / 2 ^ k % 2 = 1 then (blocks combine k l).getLast? else none) := by
  induction k generalizing l with
  | zero =>
    rw [counter, counter, List.getLast?_singleton, Nat.pow_zero, Nat.div_one]
    rfl
  | succ k ih =>
    rw [counter, List.getLast?_cons, ih, Option.getD_some, length_pairs, Nat.div_div_eq_div_mul,
      ← Nat.pow_succ', blocks_succ]

end ChudDB.Lib.BinaryCounter
