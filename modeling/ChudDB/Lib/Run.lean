import Mathlib

/-! # Runs of a labelled step function

A `System` is a partial step function on states: a label that is not enabled in a state has no
successor. `System.run` executes a list of labels, oldest first, and `System.Guarded` says that
every step of a run is taken in a state that meets a condition. The two invariant rules turn a
one-step argument into a statement about every run; the invariant may mention the labels executed
so far. -/

namespace ChudDB.Lib

/-- A labelled step function; `none` means that the label is not enabled. -/
abbrev System (σ : Type u) (α : Type v) := σ → α → Option σ

namespace System

variable {σ : Type u} {α : Type v} {step : System σ α}

/-- Execute the labels from left to right. -/
def run (step : System σ α) : σ → List α → Option σ
  | s, [] => some s
  | s, a :: as => (step s a).bind fun s' => run step s' as

/-- Every step of the run from `s` along the labels is taken in a state that meets `ok`. -/
def Guarded (step : System σ α) (ok : σ → α → Prop) : σ → List α → Prop
  | _, [] => True
  | s, a :: as => ok s a ∧ ∀ s', step s a = some s' → Guarded step ok s' as

@[simp] theorem run_nil : step.run s [] = some s := rfl

theorem run_cons_eq_some :
    step.run s (a :: as) = some t ↔ ∃ u, step s a = some u ∧ step.run u as = some t :=
  Option.bind_eq_some_iff

theorem run_cons_of_step (h : step s a = some u) : step.run s (a :: as) = step.run u as := by
  rw [run, h, Option.bind_some]

theorem run_append :
    step.run s (as ++ bs) = some t ↔ ∃ u, step.run s as = some u ∧ step.run u bs = some t := by
  induction as generalizing s with
  | nil => simp
  | cons a as ih =>
    simp only [List.cons_append, run_cons_eq_some, ih]
    constructor
    · rintro ⟨u, hu, w, hw, ht⟩
      exact ⟨w, ⟨u, hu, hw⟩, ht⟩
    · rintro ⟨w, ⟨u, hu, hw⟩, ht⟩
      exact ⟨u, hu, w, hw, ht⟩

theorem run_concat :
    step.run s (as ++ [a]) = some t ↔ ∃ u, step.run s as = some u ∧ step u a = some t := by
  rw [run_append]
  simp [run]

theorem Guarded.left {ok : σ → α → Prop} (hok : step.Guarded ok s (as ++ bs)) :
    step.Guarded ok s as := by
  induction as generalizing s with
  | nil => trivial
  | cons a as ih => exact ⟨hok.1, fun s' hs' => ih (hok.2 s' hs')⟩

theorem Guarded.of_append {ok : σ → α → Prop} (hok : step.Guarded ok s (as ++ bs))
    (h : step.run s as = some u) : step.Guarded ok u bs := by
  induction as generalizing s with
  | nil =>
    cases h
    exact hok
  | cons a as ih =>
    obtain ⟨v, hv, h⟩ := run_cons_eq_some.mp h
    exact ih (hok.2 v hv) h

/-- The invariant rule for guarded runs. -/
theorem run_invariant_of_guarded {ok : σ → α → Prop} {I : List α → σ → Prop} (h0 : I [] s₀)
    (hstep : ∀ {as s a s'}, I as s → ok s a → step s a = some s' → I (as ++ [a]) s')
    (hok : step.Guarded ok s₀ as) (h : step.run s₀ as = some s) : I as s := by
  have aux : ∀ (as past : List α) (s₁ : σ), I past s₁ → step.Guarded ok s₁ as →
      step.run s₁ as = some s → I (past ++ as) s := by
    intro as
    induction as with
    | nil =>
      intro past s₁ hI _ hr
      cases hr
      simpa using hI
    | cons a as ih =>
      intro past s₁ hI hok hr
      obtain ⟨u, hu, hr⟩ := run_cons_eq_some.mp hr
      have := ih (past ++ [a]) u (hstep hI hok.1 hu) (hok.2 u hu) hr
      simpa using this
  simpa using aux as [] s₀ h0 hok h

theorem guarded_true : step.Guarded (fun _ _ => True) s as := by
  induction as generalizing s with
  | nil => trivial
  | cons a as ih => exact ⟨trivial, fun _ _ => ih⟩

/-- The invariant rule: what holds initially and is kept by every step holds after every run. -/
theorem run_invariant {I : List α → σ → Prop} (h0 : I [] s₀)
    (hstep : ∀ {as s a s'}, I as s → step s a = some s' → I (as ++ [a]) s')
    (h : step.run s₀ as = some s) : I as s :=
  run_invariant_of_guarded h0 (fun hI _ hs => hstep hI hs) guarded_true h

/-- What the steps of a run put out, in their order. -/
def emitted (step : System σ α) (emit : σ → α → List β) : σ → List α → List β
  | _, [] => []
  | s, a :: as => emit s a ++
    match step s a with
    | none => []
    | some s' => emitted step emit s' as

theorem emitted_append {emit : σ → α → List β} (h : step.run s as = some u) :
    step.emitted emit s (as ++ bs) = step.emitted emit s as ++ step.emitted emit u bs := by
  induction as generalizing s with
  | nil =>
    cases h
    rfl
  | cons a as ih =>
    obtain ⟨v, hv, h⟩ := run_cons_eq_some.mp h
    simp only [List.cons_append, emitted, hv, ih h, List.append_assoc]

theorem mem_emitted_concat {emit : σ → α → List β} (h : step.run s as = some u) :
    b ∈ step.emitted emit s (as ++ [a]) ↔ b ∈ step.emitted emit s as ∨ b ∈ emit u a := by
  have hlast : step.emitted emit u [a] = emit u a := by
    rw [emitted]
    cases step u a <;> exact List.append_nil _
  rw [emitted_append h, List.mem_append, hlast]

/-- Along the run there is a state that meets `Q`, and `P` has held from it on. -/
def HeldSince (step : System σ α) (s₀ : σ) (as : List α) (Q P : σ → Prop) : Prop :=
  ∃ before after u, as = before ++ after ∧ step.run s₀ before = some u ∧ Q u ∧
    ∀ mid t, mid <+: after → step.run u mid = some t → P t

theorem heldSince_now {Q P : σ → Prop} (h : step.run s₀ as = some s) (hQ : Q s) (hP : P s) :
    step.HeldSince s₀ as Q P := by
  refine ⟨as, [], s, (List.append_nil as).symm, h, hQ, fun mid t hmid ht => ?_⟩
  rw [List.prefix_nil.mp hmid] at ht
  cases ht
  exact hP

theorem HeldSince.concat {Q P : σ → Prop} (h : step.HeldSince s₀ as Q P)
    (hrun : step.run s₀ (as ++ [a]) = some s') (hP : P s') : step.HeldSince s₀ (as ++ [a]) Q P := by
  obtain ⟨before, after, u, rfl, hu, hQ, hheld⟩ := h
  refine ⟨before, after ++ [a], u, List.append_assoc .., hu, hQ, fun mid t hmid ht => ?_⟩
  rcases List.prefix_concat_iff.mp hmid with rfl | hmid
  · rw [List.append_assoc, run_append] at hrun
    obtain ⟨u', hu', hrun⟩ := hrun
    rw [hu] at hu'
    cases hu'
    rw [hrun] at ht
    cases ht
    exact hP
  · exact hheld mid t hmid ht

theorem HeldSince.mono {Q Q' P : σ → Prop} (h : step.HeldSince s₀ as Q P)
    (himp : ∀ s, Q s → Q' s) : step.HeldSince s₀ as Q' P := by
  obtain ⟨before, after, u, has, hu, hQ, hheld⟩ := h
  exact ⟨before, after, u, has, hu, himp u hQ, hheld⟩

instance decidableGuarded (ok : σ → α → Prop) [∀ s a, Decidable (ok s a)] :
    ∀ s as, Decidable (step.Guarded ok s as)
  | _, [] => isTrue trivial
  | s, a :: as =>
    match hs : step s a with
    | none => decidable_of_iff (ok s a) ⟨fun h => ⟨h, fun s' h' => by simp [hs] at h'⟩, And.left⟩
    | some u =>
      have := decidableGuarded ok u as
      decidable_of_iff (ok s a ∧ step.Guarded ok u as)
        ⟨fun h => ⟨h.1, fun s' h' => by rw [hs] at h'; cases h'; exact h.2⟩,
          fun h => ⟨h.1, h.2 u hs⟩⟩

end System
end ChudDB.Lib
