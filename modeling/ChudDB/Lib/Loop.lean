import Mathlib

/-! # Loops with early return

The body of a `for` loop either goes on with a new state (`Sum.inl`) or returns (`Sum.inr`). -/

namespace ChudDB.Lib

variable {σ : Type u} {ρ : Type v} {body : σ → σ ⊕ ρ}

/-- Iterate the body until it returns, at most `fuel` times. -/
def loop (body : σ → σ ⊕ ρ) : Nat → σ → Option ρ
  | 0, _ => none
  | fuel + 1, s =>
    match body s with
    | .inl s' => loop body fuel s'
    | .inr r => some r

/-- The rule for total correctness: `J m s` says that `s` meets the loop invariant and that at most
`m` iterations go on from it. -/
theorem loop_spec {J : Nat → σ → Prop} {Q : ρ → Prop}
    (hbody : ∀ {m s}, J m s →
      (∃ s' m', body s = .inl s' ∧ m' < m ∧ J m' s') ∨ ∃ r, body s = .inr r ∧ Q r)
    (h : J m s) (hfuel : m < fuel) : ∃ r, loop body fuel s = some r ∧ Q r := by
  induction fuel generalizing m s with
  | zero => exact absurd hfuel (Nat.not_lt_zero m)
  | succ fuel ih =>
    rcases hbody h with ⟨s', m', heq, hlt, hJ⟩ | ⟨r, heq, hQ⟩
    · obtain ⟨r, hr, hQ⟩ := ih hJ (by omega)
      exact ⟨r, by rw [loop, heq]; exact hr, hQ⟩
    · exact ⟨r, by rw [loop, heq], hQ⟩

end ChudDB.Lib
