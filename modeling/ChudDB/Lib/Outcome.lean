import Mathlib

/-! # What an operation that can fail leaves behind

`Outcome m s ok err` is the triple of a stateful operation: started in `s`, it succeeds with a
result and a state that meet `ok`, or fails in a state that meets `err`. -/

namespace ChudDB.Lib

variable {ε σ α β : Type u} {m : EStateM ε σ α} {f : α → EStateM ε σ β} {s s' : σ}
  {ok ok' : α → σ → Prop} {err err' : σ → Prop}

def Outcome (m : EStateM ε σ α) (s : σ) (ok : α → σ → Prop) (err : σ → Prop) : Prop :=
  match m.run s with
  | .ok a s' => ok a s'
  | .error _ s' => err s'

namespace Outcome

theorem of_ok (h : Outcome m s ok err) (hrun : m.run s = .ok a s') : ok a s' := by
  rw [Outcome, hrun] at h
  exact h

theorem of_error (h : Outcome m s ok err) (hrun : m.run s = .error e s') : err s' := by
  rw [Outcome, hrun] at h
  exact h

theorem mono (h : Outcome m s ok err) (hok : ∀ a s', ok a s' → ok' a s')
    (herr : ∀ s', err s' → err' s') : Outcome m s ok' err' := by
  cases hrun : m.run s with
  | ok a s' =>
    rw [Outcome, hrun]
    exact hok a s' (h.of_ok hrun)
  | error e s' =>
    rw [Outcome, hrun]
    exact herr s' (h.of_error hrun)

/-- The rule of composition. -/
theorem bind {ok' : β → σ → Prop} (h : Outcome m s ok err)
    (hf : ∀ a s', ok a s' → Outcome (f a) s' ok' err) : Outcome (m >>= f) s ok' err := by
  cases hrun : m.run s with
  | ok a s' =>
    have hbind : (m >>= f).run s = (f a).run s' := by
      change EStateM.bind m f s = _
      rw [EStateM.bind]
      change m s = _ at hrun
      rw [hrun]
      rfl
    rw [Outcome, hbind]
    exact hf a s' (h.of_ok hrun)
  | error e s' =>
    have hbind : (m >>= f).run s = .error e s' := by
      change EStateM.bind m f s = _
      rw [EStateM.bind]
      change m s = _ at hrun
      rw [hrun]
    rw [Outcome, hbind]
    exact h.of_error hrun

theorem get_bind {f : σ → EStateM ε σ α} (h : Outcome (f s) s ok err) :
    Outcome (get >>= f) s ok err := h

theorem set_bind {f : PUnit → EStateM ε σ α} (h : Outcome (f ⟨⟩) s' ok err) :
    Outcome (set s' >>= f) s ok err := h

theorem modify_bind {f : PUnit → EStateM ε σ α} {g : σ → σ} (h : Outcome (f ⟨⟩) (g s) ok err) :
    Outcome (modify g >>= f) s ok err := h

/-- A check that fails the operation. -/
theorem throw_if {c : Prop} [Decidable c] {f : PUnit → EStateM ε σ α} (herr : c → err s)
    (h : ¬ c → Outcome (f ⟨⟩) s ok err) :
    Outcome (if c then throw e >>= f else f ⟨⟩) s ok err := by
  split
  · rename_i hc
    exact herr hc
  · rename_i hc
    exact h hc

end Outcome
end ChudDB.Lib
