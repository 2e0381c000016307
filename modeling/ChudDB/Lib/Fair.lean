import ChudDB.Lib.Lists
import ChudDB.Lib.Run

/-! # Fair executions

An execution is an infinite sequence of states in which at each time one label is executed or
nothing happens. A label belongs to a thread, or to the environment, which may do something or not.
An execution is fair when every thread that could go on is given a turn again and again. A goal is
reached in every fair execution if in each state some thread helps: its steps lower a rank, and the
steps of the others do not raise it and leave that thread the one that helps
(`Execution.exists_goal`). -/

namespace ChudDB.Lib

variable {σ : Type u} {α : Type v} {τ : Type w} {step : System σ α}

structure Execution (step : System σ α) where
  state : Nat → σ
  label : Nat → Option α
  next : ∀ n, match label n with
    | none => state (n + 1) = state n
    | some a => step (state n) a = some (state (n + 1))

/-- The thread can take a step. -/
def System.Enabled (step : System σ α) (thread : α → Option τ) (t : τ) (s : σ) : Prop :=
  ∃ a, thread a = some t ∧ (step s a).isSome

namespace Execution

variable {e : Execution step} {thread : α → Option τ}

/-- Again and again each thread takes a step or cannot take one. -/
def Fair (e : Execution step) (thread : α → Option τ) : Prop :=
  ∀ t n, ∃ m ≥ n, (∃ a, e.label m = some a ∧ thread a = some t) ∨ ¬ step.Enabled thread t (e.state m)

/-- Every step is taken in a state that meets `ok`. -/
def Guarded (e : Execution step) (ok : σ → α → Prop) : Prop :=
  ∀ n a, e.label n = some a → ok (e.state n) a

theorem state_succ (e : Execution step) (n : Nat) :
    e.label n = none ∧ e.state (n + 1) = e.state n ∨
      ∃ a, e.label n = some a ∧ step (e.state n) a = some (e.state (n + 1)) := by
  have hnext := e.next n
  cases hlabel : e.label n with
  | none =>
    rw [hlabel] at hnext
    exact .inl ⟨rfl, hnext⟩
  | some a =>
    rw [hlabel] at hnext
    exact .inr ⟨a, rfl, hnext⟩

theorem invariant {I : σ → Prop} {ok : σ → α → Prop} (hok : e.Guarded ok) (h0 : I (e.state 0))
    (hstep : ∀ {s a s'}, I s → ok s a → step s a = some s' → I s') (n : Nat) : I (e.state n) := by
  induction n with
  | zero => exact h0
  | succ n ih =>
    rcases e.state_succ n with ⟨-, heq⟩ | ⟨a, hlabel, hs⟩
    · rw [heq]
      exact ih
    · exact hstep ih (hok n a hlabel) hs

/-- A step brings the goal, lowers the rank, or belongs to a thread other than the one that helps
and changes neither the rank nor which thread that is. -/
def Progress (goal : σ → Prop) [LT β] (rank : σ → β) (thread : α → Option τ) (helpful : σ → τ)
    (s : σ) (a : α) (s' : σ) : Prop :=
  goal s' ∨ rank s' < rank s ∨ rank s' = rank s ∧ helpful s' = helpful s ∧ thread a ≠ some (helpful s)

/-- The rule of the helpful thread. -/
theorem exists_goal {β : Type x} [LT β] [WellFoundedLT β] {I goal : σ → Prop} {ok : σ → α → Prop}
    {rank : σ → β} {helpful : σ → τ} (hfair : e.Fair thread) (hok : e.Guarded ok) (h0 : I (e.state 0))
    (hI : ∀ {s a s'}, I s → ok s a → step s a = some s' → I s')
    (henabled : ∀ {s}, I s → ¬ goal s → step.Enabled thread (helpful s) s)
    (hprogress : ∀ {s a s'}, I s → ok s a → ¬ goal s → step s a = some s' →
      Progress goal rank thread helpful s a s') : ∃ n, goal (e.state n) := by
  have hinv := e.invariant hok h0 hI
  -- Until something better happens, rank and helpful thread stay what they are at time `n`.
  have hstays : ∀ n k, (∃ m, goal (e.state m) ∨ rank (e.state m) < rank (e.state n)) ∨
      rank (e.state (n + k)) = rank (e.state n) ∧ helpful (e.state (n + k)) = helpful (e.state n) ∧
        ∀ j < k, ∀ a, e.label (n + j) = some a → thread a ≠ some (helpful (e.state n)) := by
    intro n k
    induction k with
    | zero => exact .inr ⟨rfl, rfl, fun j hj => absurd hj (Nat.not_lt_zero j)⟩
    | succ k ih =>
      rcases ih with hbetter | ⟨hrank, hhelp, hothers⟩
      · exact .inl hbetter
      by_cases hgoal : goal (e.state (n + k))
      · exact .inl ⟨n + k, .inl hgoal⟩
      have hlast : ∀ {P : Nat → Prop}, (∀ j < k, P j) → P k → ∀ j < k + 1, P j := by
        intro P hP hk j hj
        rcases Nat.lt_succ_iff_lt_or_eq.mp hj with hj | rfl
        · exact hP j hj
        · exact hk
      rcases e.state_succ (n + k) with ⟨hlabel, heq⟩ | ⟨a, hlabel, hs⟩
      · refine .inr ⟨?_, ?_, hlast hothers fun a ha => ?_⟩
        · rw [← Nat.add_assoc, heq, hrank]
        · rw [← Nat.add_assoc, heq, hhelp]
        · rw [hlabel] at ha
          cases ha
      · rcases hprogress (hinv _) (hok _ _ hlabel) hgoal hs with hgoal' | hlt | ⟨hrank', hhelp', hother⟩
        · exact .inl ⟨_, .inl hgoal'⟩
        · exact .inl ⟨_, .inr (hrank ▸ hlt)⟩
        · refine .inr ⟨hrank'.trans hrank, hhelp'.trans hhelp, hlast hothers fun b hb => ?_⟩
          rw [hlabel, Option.some.injEq] at hb
          exact hb ▸ hhelp ▸ hother
  have hdescend : ∀ r n, rank (e.state n) = r → ∃ m, goal (e.state m) := by
    intro r
    induction r using WellFoundedLT.induction with
    | ind r ih =>
      intro n hn
      obtain ⟨m, hm, hturn⟩ := hfair (helpful (e.state n)) n
      obtain ⟨k, rfl⟩ := Nat.exists_eq_add_of_le hm
      have hbetter : ∃ m, goal (e.state m) ∨ rank (e.state m) < rank (e.state n) := by
        rcases hturn with ⟨a, hlabel, hthread⟩ | hdisabled
        · rcases hstays n (k + 1) with hbetter | ⟨-, -, hothers⟩
          · exact hbetter
          · exact absurd hthread (hothers k (Nat.lt_succ_self k) a hlabel)
        · rcases hstays n k with hbetter | ⟨-, hhelp, -⟩
          · exact hbetter
          · by_contra hno
            have hgoal : ¬ goal (e.state (n + k)) := fun h => hno ⟨_, .inl h⟩
            exact hdisabled (hhelp ▸ henabled (hinv _) hgoal)
      obtain ⟨m, hgoal | hlt⟩ := hbetter
      · exact ⟨m, hgoal⟩
      · exact ih _ (hn ▸ hlt) m rfl
  exact hdescend _ 0 rfl

/-- The execution that follows a run and then stops. -/
def ofRun (h : step.run s as = some t) : Execution step where
  state n := (step.run s (as.take n)).getD s
  label n := as[n]?
  next n := by
    have hsplit := h
    rw [← List.take_append_drop n as, System.run_append] at hsplit
    obtain ⟨u, hu, hrest⟩ := hsplit
    cases hlabel : as[n]? with
    | none =>
      have hlen : as.length ≤ n := List.getElem?_eq_none_iff.mp hlabel
      dsimp only
      rw [List.take_of_length_le hlen, List.take_of_length_le (hlen.trans (Nat.le_succ n))]
    | some a =>
      rw [take_succ_of_getElem? hlabel]
      rw [List.drop_eq_getElem?_toList_append, hlabel] at hrest
      obtain ⟨v, hv, -⟩ := System.run_cons_eq_some.mp hrest
      have hnext : step.run s (as.take n ++ [a]) = some v := System.run_concat.mpr ⟨u, hu, hv⟩
      dsimp only
      rw [hu, hnext]
      exact hv

theorem guarded_ofRun {ok : σ → α → Prop} (h : step.run s as = some t)
    (hok : step.Guarded ok s as) : (ofRun h).Guarded ok := by
  intro n a (hlabel : as[n]? = some a)
  have hsplit := h
  rw [← List.take_append_drop n as, System.run_append] at hsplit
  obtain ⟨u, hu, -⟩ := hsplit
  rw [← List.take_append_drop n as] at hok
  have hrest := hok.of_append hu
  rw [List.drop_eq_getElem?_toList_append, hlabel] at hrest
  change ok ((step.run s (as.take n)).getD s) a
  rw [hu]
  exact hrest.1

theorem fair_ofRun (h : step.run s as = some t) (hstuck : ∀ i, ¬ step.Enabled thread i t) :
    (ofRun h).Fair thread := by
  intro i n
  refine ⟨max n as.length, le_max_left .., .inr ?_⟩
  have hstate : (ofRun h).state (max n as.length) = t := by
    change (step.run s (as.take (max n as.length))).getD s = t
    rw [List.take_of_length_le (le_max_right ..), h]
    rfl
  rw [hstate]
  exact hstuck i

end Execution
end ChudDB.Lib
