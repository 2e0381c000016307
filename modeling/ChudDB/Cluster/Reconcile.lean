import ChudDB.Cluster.Envelope

/-! # Reconciling versions

`Reconcile` (`reconcile.go`) keeps the versions that no other version dominates; of several versions
with equal clocks it keeps the first. Every version is below one that is kept
(`exists_nonDominated_ge`), so the merged context is above all of them (`get_le_context`), and the
versions that are kept are the causal maxima (`causalMaxima_reconcile`). -/

namespace ChudDB.Cluster
open Lib

structure ReconcileResult where
  winner : Option Envelope
  siblings : List Envelope
  context : VectorClock

/-- The version at index `j` makes `Reconcile` drop the candidate at index `i`. -/
def dominates (candidate other : Envelope × Nat) : Bool :=
  other.2 != candidate.2 &&
    match candidate.1.vectorClock.compare other.1.vectorClock with
    | .before => true
    | .equal => decide (other.2 < candidate.2)
    | _ => false

def nonDominated (values : List Envelope) : List Envelope :=
  (values.zipIdx.filter fun c => !values.zipIdx.any (dominates c)).map Prod.fst

/-- The merge of the clocks of some versions. -/
def mergeClocks (values : List Envelope) : VectorClock :=
  values.foldl (fun context e => context.merge e.vectorClock) .empty

/-- `Reconcile`. -/
def reconcile (values : List Envelope) : ReconcileResult :=
  if values.isEmpty then ⟨none, [], .empty⟩
  else
    let kept := nonDominated values
    let context := mergeClocks kept
    match kept with
    | [winner] => ⟨some winner, [], context⟩
    | _ => ⟨none, kept, context⟩

/-- The versions a result holds. -/
def ReconcileResult.versions (r : ReconcileResult) : List Envelope :=
  match r.winner with
  | some winner => [winner]
  | none => r.siblings

/-! ## The versions that are kept -/

variable {values : List Envelope} {e : Envelope}

/-- The clock, and the index with the earlier one above the later one. -/
def rank (c : Envelope × Nat) : Lex ((NodeID → Counter) × ℕᵒᵈ) :=
  toLex (c.1.vectorClock.get, OrderDual.toDual c.2)

theorem eq_of_mem_zipIdx {c o : Envelope × Nat} (hc : c ∈ values.zipIdx) (ho : o ∈ values.zipIdx)
    (hidx : o.2 = c.2) : o = c := by
  rw [List.mem_zipIdx_iff_getElem?] at hc ho
  rw [hidx, hc] at ho
  exact (Prod.ext (Option.some.inj ho) hidx.symm).symm

theorem dominates_iff {c o : Envelope × Nat} (hc : c ∈ values.zipIdx) (ho : o ∈ values.zipIdx) :
    dominates c o = true ↔ rank c < rank o := by
  have hrank : rank c < rank o ↔ c.1.vectorClock.get < o.1.vectorClock.get ∨
      c.1.vectorClock.get = o.1.vectorClock.get ∧ o.2 < c.2 := Prod.Lex.lt_iff
  rw [hrank, dominates, ← VectorClock.compare_eq_before_iff, ← VectorClock.compare_eq_equal_iff,
    Bool.and_eq_true, bne_iff_ne]
  constructor
  · rintro ⟨-, h⟩
    split at h
    · exact .inl ‹_›
    · exact .inr ⟨‹_›, of_decide_eq_true h⟩
    · cases h
  · rintro (h | ⟨h, hlt⟩)
    · refine ⟨fun hidx => ?_, by rw [h]⟩
      rw [eq_of_mem_zipIdx hc ho hidx, VectorClock.compare_eq_before_iff] at h
      exact lt_irrefl _ h
    · exact ⟨hlt.ne, by rw [h]; exact decide_eq_true hlt⟩

/-- Every version is below one that is kept. -/
theorem exists_nonDominated_ge (h : a ∈ values) :
    ∃ b ∈ nonDominated values, a.vectorClock.get ≤ b.vectorClock.get := by
  obtain ⟨i, hi⟩ := List.mem_iff_getElem?.mp h
  have ha : (a, i) ∈ values.zipIdx := List.mem_zipIdx_iff_getElem?.mpr hi
  obtain ⟨m, hle, ⟨⟨c, hc, rfl⟩, hmax⟩⟩ :=
    ((List.finite_toSet values.zipIdx).image rank).exists_le_maximal ⟨(a, i), ha, rfl⟩
  refine ⟨c.1, List.mem_map_of_mem (List.mem_filter.mpr ⟨hc, ?_⟩), ?_⟩
  · rw [Bool.not_eq_true', ← Bool.not_eq_true, List.any_eq_true]
    rintro ⟨o, ho, hdom⟩
    have hlt := (dominates_iff hc ho).mp hdom
    exact hlt.not_ge (hmax ⟨o, ho, rfl⟩ hlt.le)
  · rcases Prod.Lex.le_iff.mp hle with hlt | heq
    · exact le_of_lt hlt
    · exact le_of_eq heq.1

theorem nonDominated_subset : nonDominated values ⊆ values := by
  intro e he
  obtain ⟨c, hc, rfl⟩ := List.mem_map.mp he
  exact (List.mem_zipIdx' (List.mem_filter.mp hc).1).2 ▸ List.getElem_mem _

/-! ## The context -/

theorem le_foldl_merge (values : List Envelope) (context : VectorClock) :
    let merged := values.foldl (fun context e => context.merge e.vectorClock) context
    context.get ≤ merged.get ∧ ∀ e ∈ values, e.vectorClock.get ≤ merged.get := by
  induction values generalizing context with
  | nil => exact ⟨le_refl _, nofun⟩
  | cons e values ih =>
    obtain ⟨hcontext, hvalues⟩ := ih (context.merge e.vectorClock)
    have hleft : context.get ≤ (context.merge e.vectorClock).get := fun id => by
      rw [VectorClock.get_merge]
      exact le_max_left _ _
    have hright : e.vectorClock.get ≤ (context.merge e.vectorClock).get := fun id => by
      rw [VectorClock.get_merge]
      exact le_max_right _ _
    refine ⟨hleft.trans hcontext, fun e' he' => ?_⟩
    rcases List.mem_cons.mp he' with rfl | he'
    · exact hright.trans hcontext
    · exact hvalues e' he'

/-- The result by the versions that are kept; without any it is the same as the early return. -/
theorem reconcile_def (values : List Envelope) :
    reconcile values = match nonDominated values with
      | [winner] => ⟨some winner, [], mergeClocks [winner]⟩
      | kept => ⟨none, kept, mergeClocks kept⟩ := by
  cases values with
  | nil => rfl
  | cons e values =>
    rw [reconcile, if_neg (by simp)]
    dsimp only
    split
    · rename_i hkept
      rw [hkept]
    · rfl

theorem versions_reconcile (values : List Envelope) :
    (reconcile values).versions = nonDominated values := by
  rw [reconcile_def]
  split
  · rename_i hkept
    exact hkept.symm
  · rfl

theorem context_reconcile (values : List Envelope) :
    (reconcile values).context = mergeClocks (nonDominated values) := by
  rw [reconcile_def]
  split
  · rename_i hkept
    rw [hkept]
  · rfl

/-- The context of a result is above every version. -/
theorem get_le_context (h : e ∈ values) : e.vectorClock.get ≤ (reconcile values).context.get := by
  obtain ⟨b, hb, hle⟩ := exists_nonDominated_ge h
  rw [context_reconcile]
  exact hle.trans ((le_foldl_merge _ .empty).2 b hb)

/-! ## Causal maxima -/

theorem VectorClock.compare_eq_concurrent_iff {a b : VectorClock} :
    a.compare b = .concurrent ↔ ¬ a.get ≤ b.get ∧ ¬ b.get ≤ a.get := by
  rcases VectorClock.compare_cases a b with h | h | h | h <;> simp [h]

/-- The versions that are kept are pairwise concurrent. -/
theorem pairwise_concurrent_nonDominated (values : List Envelope) :
    (nonDominated values).Pairwise fun a b => a.vectorClock.compare b.vectorClock = .concurrent := by
  have hidx : values.zipIdx.Pairwise fun c o => c.2 < o.2 := by
    rw [← List.pairwise_map (f := Prod.snd), List.zipIdx_map_snd]
    exact List.pairwise_lt_range'
  rw [nonDominated, List.pairwise_map]
  refine (hidx.filter _).imp_of_mem fun {c o} hc ho hlt => ?_
  obtain ⟨hc, hkept⟩ := List.mem_filter.mp hc
  obtain ⟨ho, hkept'⟩ := List.mem_filter.mp ho
  have hnot : ¬ rank c < rank o := fun h => by
    rw [List.any_eq_true.mpr ⟨o, ho, (dominates_iff hc ho).mpr h⟩] at hkept
    cases hkept
  have hnot' : ¬ rank o < rank c := fun h => by
    rw [List.any_eq_true.mpr ⟨c, hc, (dominates_iff ho hc).mpr h⟩] at hkept'
    cases hkept'
  -- The clock of a rank decides unless the clocks are equal, and then the earlier index wins.
  have hne : c.1.vectorClock.get ≠ o.1.vectorClock.get := fun heq =>
    hnot' (Prod.Lex.lt_iff.mpr (.inr ⟨heq.symm, hlt⟩))
  rw [VectorClock.compare_eq_concurrent_iff]
  exact ⟨fun hle => hnot (Prod.Lex.lt_iff.mpr (.inl (lt_of_le_of_ne hle hne))),
    fun hle => hnot' (Prod.Lex.lt_iff.mpr (.inl (lt_of_le_of_ne hle hne.symm)))⟩

theorem not_concurrent_self (clock : VectorClock) : clock.compare clock ≠ .concurrent := by
  rw [Ne, VectorClock.compare_eq_concurrent_iff]
  exact fun h => h.1 (le_refl _)

theorem nodup_nonDominated (values : List Envelope) : (nonDominated values).Nodup := by
  refine (pairwise_concurrent_nonDominated values).imp fun {a b} hconcurrent heq => ?_
  rw [heq] at hconcurrent
  exact not_concurrent_self _ hconcurrent

/-- Of two versions that are kept, neither is below the other. -/
theorem eq_of_le_of_mem_nonDominated {a b : Envelope} (ha : a ∈ nonDominated values)
    (hb : b ∈ nonDominated values) (hle : a.vectorClock.get ≤ b.vectorClock.get) : a = b := by
  have : Std.Symm fun a b : Envelope => a.vectorClock.compare b.vectorClock = .concurrent :=
    ⟨fun a b h => VectorClock.compare_eq_concurrent_iff.mpr
      (VectorClock.compare_eq_concurrent_iff.mp h).symm⟩
  by_contra hne
  have hconcurrent := (pairwise_concurrent_nonDominated values).forall ha hb hne
  exact (VectorClock.compare_eq_concurrent_iff.mp hconcurrent).1 hle

/-- One version is kept if and only if one version is above all. -/
theorem nonDominated_eq_singleton_iff : (∃ w, nonDominated values = [w]) ↔
    ∃ b ∈ values, ∀ e ∈ values, e.vectorClock.get ≤ b.vectorClock.get := by
  constructor
  · rintro ⟨w, hw⟩
    refine ⟨w, nonDominated_subset (hw ▸ List.mem_cons_self), fun e he => ?_⟩
    obtain ⟨b, hb, hle⟩ := exists_nonDominated_ge he
    rw [hw, List.mem_singleton] at hb
    exact hb ▸ hle
  · rintro ⟨b, hb, hall⟩
    obtain ⟨w, hw, hle⟩ := exists_nonDominated_ge hb
    refine ⟨w, List.perm_singleton.mp ?_⟩
    refine (List.perm_ext_iff_of_nodup (nodup_nonDominated values) (List.nodup_singleton w)).mpr
      fun e => ?_
    rw [List.mem_singleton]
    constructor
    · intro he
      exact eq_of_le_of_mem_nonDominated he hw ((hall e (nonDominated_subset he)).trans hle)
    · exact fun heq => heq ▸ hw

/-- If equal clocks mean equal versions, those are kept that are below no other. -/
theorem mem_nonDominated_iff
    (hsame : ∀ a ∈ values, ∀ b ∈ values, a.vectorClock.compare b.vectorClock = .equal → a = b) :
    e ∈ nonDominated values ↔
      e ∈ values ∧ ∀ o ∈ values, ¬ e.vectorClock.get < o.vectorClock.get := by
  constructor
  · intro he
    refine ⟨nonDominated_subset he, fun o ho hlt => ?_⟩
    obtain ⟨b, hb, hle⟩ := exists_nonDominated_ge ho
    have heq := eq_of_le_of_mem_nonDominated he hb (hlt.le.trans hle)
    exact (hlt.trans_le hle).ne (congrArg (fun e => e.vectorClock.get) heq)
  · rintro ⟨he, hmax⟩
    obtain ⟨b, hb, hle⟩ := exists_nonDominated_ge he
    have hbv := nonDominated_subset hb
    have hclocks := hle.eq_of_not_lt (hmax b hbv)
    rw [hsame e he b hbv (VectorClock.compare_eq_equal_iff.mpr hclocks)]
    exact hb

/-! ## The context as a clock -/

/-- No entry of the clock is 0. -/
def VectorClock.NoZero (clock : VectorClock) : Prop := ∀ entry ∈ clock.entries, entry.2 ≠ 0

/-- Two clocks without zero entries are equal if their counters are. -/
theorem VectorClock.NoZero.ext {a b : VectorClock} (ha : a.NoZero) (hb : b.NoZero)
    (h : a.get = b.get) : a = b := by
  have hlookup : ∀ {c : VectorClock}, c.NoZero → ∀ id,
      c.entries.lookup id = if c.get id = 0 then none else some (c.get id) := by
    intro c hc id
    rw [VectorClock.get]
    cases hid : c.entries.lookup id with
    | none => rfl
    | some n => exact (if_neg (hc (id, n) ((lookup_eq_some_iff_mem c.ascending.nodup).mp hid))).symm
  refine VectorClock.ext_entries (Ascending.ext a.ascending b.ascending fun id => ?_)
  rw [hlookup ha, hlookup hb, h]

theorem VectorClock.NoZero.merge {a b : VectorClock} (ha : a.NoZero) : (a.merge b).NoZero := by
  rw [VectorClock.merge]
  refine List.foldlRecOn b.entries _ ha fun merged h entry _ => ?_
  split
  · rename_i hgt
    intro entry' hentry'
    rcases mem_of_mem_put hentry' with rfl | hentry'
    · exact ne_bot_of_gt hgt
    · exact h entry' hentry'
  · exact h

theorem noZero_mergeClocks (values : List Envelope) : (mergeClocks values).NoZero :=
  List.foldlRecOn values _ nofun fun _ h _ _ => h.merge

/-- A counter of the merged clocks is one of theirs. -/
theorem exists_get_mergeClocks (values : List Envelope) (id : NodeID)
    (h : (mergeClocks values).get id ≠ 0) :
    ∃ e ∈ values, e.vectorClock.get id = (mergeClocks values).get id := by
  have hfold : ∀ context : VectorClock,
      (values.foldl (fun context e => context.merge e.vectorClock) context).get id = context.get id ∨
      ∃ e ∈ values, e.vectorClock.get id =
        (values.foldl (fun context e => context.merge e.vectorClock) context).get id := by
    clear h
    induction values with
    | nil => exact fun context => .inl rfl
    | cons e values ih =>
      intro context
      rcases ih (context.merge e.vectorClock) with hget | ⟨o, ho, hget⟩
      · rw [List.foldl_cons, hget, VectorClock.get_merge]
        rcases max_choice (context.get id) (e.vectorClock.get id) with hmax | hmax
        · exact .inl hmax
        · exact .inr ⟨e, List.mem_cons_self, hmax.symm⟩
      · exact .inr ⟨o, List.mem_cons_of_mem _ ho, hget⟩
  rcases hfold .empty with hget | hget
  · exact absurd hget h
  · exact hget

/-! ## What `Reconcile` returns -/

theorem winner_reconcile_isSome :
    (reconcile values).winner.isSome = true ↔ ∃ w, nonDominated values = [w] := by
  rw [reconcile_def]
  split
  · rename_i winner hkept
    exact iff_of_true rfl ⟨winner, hkept⟩
  · rename_i hkept
    exact iff_of_false Bool.false_ne_true fun ⟨w, hw⟩ => hkept w hw

theorem exists_get_context (id : NodeID) (h : (reconcile values).context.get id ≠ 0) :
    ∃ e ∈ values, e.vectorClock.get id = (reconcile values).context.get id := by
  rw [context_reconcile] at h ⊢
  obtain ⟨e, he, hget⟩ := exists_get_mergeClocks _ id h
  exact ⟨e, nonDominated_subset he, hget⟩

/-- The context depends only on which versions there are. -/
theorem context_congr {values' : List Envelope} (h : ∀ e, e ∈ values' ↔ e ∈ values) :
    (reconcile values').context = (reconcile values).context := by
  have hle : ∀ {l l' : List Envelope}, (∀ e, e ∈ l' ↔ e ∈ l) →
      (reconcile l').context.get ≤ (reconcile l).context.get := by
    intro l l' hmem id
    by_cases hzero : (reconcile l').context.get id = 0
    · rw [hzero]
      exact Fin.zero_le _
    · obtain ⟨e, he, hget⟩ := exists_get_context id hzero
      exact hget ▸ get_le_context ((hmem e).mp he) id
  have hnoZero : ∀ l, (reconcile l).context.NoZero := fun l =>
    context_reconcile l ▸ noZero_mergeClocks _
  exact (hnoZero _).ext (hnoZero _) (le_antisymm (hle h) (hle fun e => (h e).symm))

/-- A result holds the maxima of the versions in the causal order, and the least clock above
them. -/
structure CausalMaxima (values : List Envelope) (r : ReconcileResult) : Prop where
  concurrent : r.versions.Pairwise fun a b => a.vectorClock.compare b.vectorClock = .concurrent
  subset : ∀ e ∈ r.versions, e ∈ values
  below : ∀ e ∈ values, ∃ b ∈ r.versions,
    e.vectorClock.compare b.vectorClock = .before ∨ e.vectorClock.compare b.vectorClock = .equal
  winner : r.winner.isSome = true ↔ ∃ b ∈ values, ∀ e ∈ values,
    e.vectorClock.compare b.vectorClock = .before ∨ e.vectorClock.compare b.vectorClock = .equal
  le_context : ∀ e ∈ values, ∀ id, e.vectorClock.get id ≤ r.context.get id
  context_mem : ∀ id, r.context.get id ≠ 0 → ∃ e ∈ values, e.vectorClock.get id = r.context.get id
  after_context : ∀ clock : VectorClock, clock.compare r.context = .after →
    ∀ e ∈ values, clock.compare e.vectorClock = .after

theorem causalMaxima_reconcile (values : List Envelope) : CausalMaxima values (reconcile values) where
  concurrent := versions_reconcile values ▸ pairwise_concurrent_nonDominated values
  subset e he := nonDominated_subset (versions_reconcile values ▸ he)
  below e he := by
    obtain ⟨b, hb, hle⟩ := exists_nonDominated_ge he
    exact ⟨b, versions_reconcile values ▸ hb, VectorClock.le_iff_compare.mp hle⟩
  winner := by
    rw [winner_reconcile_isSome, nonDominated_eq_singleton_iff]
    simp only [VectorClock.le_iff_compare]
  le_context e he := get_le_context he
  context_mem := exists_get_context
  after_context clock hafter e he := by
    rw [VectorClock.compare_eq_after_iff] at hafter ⊢
    exact (get_le_context he).trans_lt hafter

theorem perm_nonDominated {values' : List Envelope}
    (hsame : ∀ a ∈ values, ∀ b ∈ values, a.vectorClock.compare b.vectorClock = .equal → a = b)
    (h : ∀ e, e ∈ values' ↔ e ∈ values) : (nonDominated values').Perm (nonDominated values) := by
  have hsame' : ∀ a ∈ values', ∀ b ∈ values',
      a.vectorClock.compare b.vectorClock = .equal → a = b := fun a ha b hb =>
    hsame a ((h a).mp ha) b ((h b).mp hb)
  refine (List.perm_ext_iff_of_nodup (nodup_nonDominated _) (nodup_nonDominated _)).mpr fun e => ?_
  rw [mem_nonDominated_iff hsame, mem_nonDominated_iff hsame', h]
  simp only [h]

/-- `Reconcile` returns the causal maxima, and if equal clocks mean equal versions, permuting and
repeating the versions only reorders the siblings. -/
theorem reconcile_returns_maxima (values : List Envelope) :
    CausalMaxima values (reconcile values) ∧
    ((∀ a ∈ values, ∀ b ∈ values, a.vectorClock.compare b.vectorClock = .equal → a = b) →
      ∀ values', (∀ e, e ∈ values' ↔ e ∈ values) →
        (reconcile values').winner = (reconcile values).winner ∧
        (reconcile values').siblings.Perm (reconcile values).siblings ∧
        (reconcile values').context = (reconcile values).context) := by
  refine ⟨causalMaxima_reconcile values, fun hsame values' h => ?_⟩
  have hperm := perm_nonDominated hsame h
  rw [← and_assoc]
  refine ⟨?_, context_congr h⟩
  rw [reconcile_def values', reconcile_def values]
  generalize nonDominated values' = kept' at hperm
  generalize nonDominated values = kept at hperm
  split
  · rw [← List.singleton_perm.mp hperm]
    exact ⟨rfl, .refl _⟩
  · rename_i hkept'
    split
    · rename_i winner
      exact absurd (List.perm_singleton.mp hperm) (hkept' winner)
    · exact ⟨rfl, hperm⟩

end ChudDB.Cluster
