import Mathlib

/-! # Binary search over indices

`sort.Search` of the Go library: the smallest index in `[0, n)` at which a monotone predicate holds,
`n` when there is none. -/

namespace ChudDB.Lib

variable {f : Nat → Bool}

/-- The loop of `sort.Search` on the interval `[i, j)`. -/
def searchLoop (f : Nat → Bool) : Nat → Nat → Nat → Nat
  | 0, i, _ => i
  | fuel + 1, i, j =>
    if i < j then
      let h := (i + j) / 2
      if !f h then searchLoop f fuel (h + 1) j else searchLoop f fuel i h
    else i

/-- `sort.Search`. The interval shrinks in every iteration, so `n` iterations are enough. -/
def search (n : Nat) (f : Nat → Bool) : Nat := searchLoop f n 0 n

theorem searchLoop_le (h : i ≤ j) : searchLoop f fuel i j ≤ j := by
  induction fuel generalizing i j with
  | zero => exact h
  | succ fuel ih =>
    simp only [searchLoop]
    split
    · split
      · exact ih (by omega)
      · exact (ih (by omega)).trans (by omega)
    · exact h

theorem search_le : search n f ≤ n := searchLoop_le (Nat.zero_le n)

theorem searchLoop_spec (hmono : ∀ a b, a ≤ b → b < n → f a = true → f b = true)
    (hfuel : j - i ≤ fuel) (hij : i ≤ j) (hj : j ≤ n) (hlow : ∀ a < i, f a = false)
    (hhigh : j < n → f j = true) :
    searchLoop f fuel i j ≤ n ∧ (∀ a < searchLoop f fuel i j, f a = false) ∧
      (searchLoop f fuel i j < n → f (searchLoop f fuel i j) = true) := by
  induction fuel generalizing i j with
  | zero =>
    obtain rfl : i = j := by omega
    exact ⟨hj, hlow, hhigh⟩
  | succ fuel ih =>
    simp only [searchLoop]
    split
    · cases hf : f ((i + j) / 2) with
      | false =>
        refine ih (by omega) (by omega) hj ?_ hhigh
        intro a ha
        cases hfa : f a with
        | false => rfl
        | true =>
          rw [hmono a _ (by omega) (by omega) hfa] at hf
          cases hf
      | true => exact ih (by omega) (by omega) (by omega) hlow fun _ => hf
    · obtain rfl : i = j := by omega
      exact ⟨hj, hlow, hhigh⟩

/-- For a monotone predicate the result separates the indices where it fails from those where it
holds. -/
theorem search_spec (hmono : ∀ a b, a ≤ b → b < n → f a = true → f b = true) :
    search n f ≤ n ∧ (∀ a < search n f, f a = false) ∧
      (search n f < n → f (search n f) = true) :=
  searchLoop_spec hmono (by omega) (Nat.zero_le n) (Nat.le_refl n)
    (fun _ ha => absurd ha (Nat.not_lt_zero _)) fun h => absurd h (Nat.lt_irrefl n)

end ChudDB.Lib
