import ChudDB.Cluster.Envelope

/-! # The latest version

`PickByTimestamp` (`reconcile.go`) keeps a running maximum: the latest version, and among several of
one time the one that is greatest by the tie-breaks, the last of which compares a text for the
clocks. The result is the first version of greatest `precedence` (`pickByTimestamp_eq_argmax`), so
the order of the versions matters exactly when several have it. Such versions differ in the clock
but not in its text; node IDs without a NUL byte rule that out (`stableClockString_inj`). -/

namespace ChudDB.Cluster
open Lib

/-- What a clock entry adds to `out` in `stableClockString`. -/
def stableClockEntry (entry : NodeID × Counter) : Bytes :=
  entry.1 ++ 0 :: (formatUint entry.2.val ++ [0])

/-- `stableClockString`; a clock lists its entries in the order of the node IDs. -/
def stableClockString (clock : VectorClock) : Bytes := clock.entries.flatMap stableClockEntry

/-- `stableEnvelopeLess`. -/
def stableEnvelopeLess (a b : Envelope) : Bool :=
  if a.deleted ≠ b.deleted then !a.deleted && b.deleted
  else if a.value ≠ b.value then decide (a.value < b.value)
  else decide (stableClockString a.vectorClock < stableClockString b.vectorClock)

/-- The loop of `PickByTimestamp` gives up `picked` for `value`. -/
def replaces (picked value : Envelope) : Bool :=
  decide (value.updatedAtUnixNano > picked.updatedAtUnixNano) ||
    (decide (value.updatedAtUnixNano = picked.updatedAtUnixNano) && stableEnvelopeLess picked value)

/-- `PickByTimestamp`; without versions it returns the zero value. -/
def pickByTimestamp : List Envelope → Envelope
  | [] => ⟨0, .empty, 0, false, []⟩
  | first :: values =>
    values.foldl (fun picked value => if replaces picked value then value else picked) first

/-! ## The text for a clock -/

/-- No node ID of the clock contains a NUL byte. -/
def VectorClock.NoNul (clock : VectorClock) : Prop := ∀ entry ∈ clock.entries, (0 : UInt8) ∉ entry.1

/-- Without NUL bytes in the node IDs, the NUL bytes of the text delimit its parts. -/
theorem stableClockEntry_selfDelimiting :
    SelfDelimiting stableClockEntry fun entry => (0 : UInt8) ∉ entry.1 := by
  intro e e' he he' x y heq
  simp only [stableClockEntry, List.append_assoc, List.cons_append, List.nil_append] at heq
  obtain ⟨hid, heq⟩ := append_terminator_inj he he' heq
  obtain ⟨hcounter, hrest⟩ :=
    append_terminator_inj zero_notMem_formatUint zero_notMem_formatUint heq
  exact ⟨Prod.ext hid (Fin.ext (formatUint_injective hcounter)), hrest⟩

/-- Clocks without NUL bytes have different texts. -/
theorem stableClockString_inj {a b : VectorClock} (ha : a.NoNul) (hb : b.NoNul)
    (h : stableClockString a = stableClockString b) : a = b :=
  VectorClock.ext_entries
    (stableClockEntry_selfDelimiting.flatMap_inj (fun _ => by simp [stableClockEntry]) ha hb h)

/-! ## The running maximum -/

/-- What `PickByTimestamp` compares, in the order in which it does. -/
def precedence (e : Envelope) : ℤ ×ₗ Bool ×ₗ Bytes ×ₗ Bytes :=
  toLex (e.updatedAtUnixNano, toLex (e.deleted, toLex (e.value, stableClockString e.vectorClock)))

theorem stableEnvelopeLess_iff {a b : Envelope} : stableEnvelopeLess a b = true ↔
    toLex (a.deleted, toLex (a.value, stableClockString a.vectorClock)) <
      toLex (b.deleted, toLex (b.value, stableClockString b.vectorClock)) := by
  rw [Prod.Lex.toLex_lt_toLex, Prod.Lex.toLex_lt_toLex, stableEnvelopeLess]
  by_cases hdeleted : a.deleted = b.deleted
  · by_cases hvalue : a.value = b.value
    · simp [hdeleted, hvalue]
    · simp [hdeleted, hvalue]
  · rw [if_pos hdeleted]
    cases ha : a.deleted <;> cases hb : b.deleted <;> simp_all

theorem replaces_iff {picked value : Envelope} :
    replaces picked value = true ↔ precedence picked < precedence value := by
  rw [precedence, precedence, Prod.Lex.toLex_lt_toLex, ← stableEnvelopeLess_iff, replaces]
  rw [Bool.or_eq_true, Bool.and_eq_true, decide_eq_true_iff, decide_eq_true_iff, eq_comm]

theorem foldl_argAux_precedence (values : List Envelope) (picked : Envelope) :
    values.foldl (List.argAux fun b c => precedence c < precedence b) (some picked) =
      some (values.foldl (fun picked value => if replaces picked value then value else picked)
        picked) := by
  induction values generalizing picked with
  | nil => rfl
  | cons value values ih =>
    rw [List.foldl_cons, List.foldl_cons, ← ih]
    congr 1
    by_cases h : precedence picked < precedence value
    · rw [if_pos (replaces_iff.mpr h)]
      exact if_pos h
    · rw [if_neg (mt replaces_iff.mp h)]
      exact if_neg h

/-- `PickByTimestamp` returns the first version of greatest precedence. -/
theorem pickByTimestamp_eq_argmax {values : List Envelope} (hne : values ≠ []) :
    values.argmax precedence = some (pickByTimestamp values) := by
  cases values with
  | nil => exact absurd rfl hne
  | cons first values => exact foldl_argAux_precedence values first

theorem pickByTimestamp_mem {values : List Envelope} (hne : values ≠ []) :
    pickByTimestamp values ∈ values :=
  List.argmax_mem (pickByTimestamp_eq_argmax hne)

theorem precedence_le_pickByTimestamp {values : List Envelope} {e : Envelope} (h : e ∈ values) :
    precedence e ≤ precedence (pickByTimestamp values) :=
  List.le_of_mem_argmax h (pickByTimestamp_eq_argmax (List.ne_nil_of_mem h))

theorem updatedAt_le_pickByTimestamp {values : List Envelope} {e : Envelope} (h : e ∈ values) :
    e.updatedAtUnixNano ≤ (pickByTimestamp values).updatedAtUnixNano := by
  rcases Prod.Lex.le_iff.mp (precedence_le_pickByTimestamp h) with hlt | heq
  · exact le_of_lt hlt
  · exact le_of_eq heq.1

/-! ## The order of the versions -/

/-- No version replaces this one. -/
def Unbeaten (values : List Envelope) (e : Envelope) : Prop :=
  e ∈ values ∧ ∀ value ∈ values, replaces e value = false

theorem unbeaten_iff {values : List Envelope} {e : Envelope} :
    Unbeaten values e ↔ e ∈ values ∧ ∀ value ∈ values, precedence value ≤ precedence e := by
  simp only [Unbeaten, Bool.eq_false_iff, ne_eq, replaces_iff, not_lt]

theorem unbeaten_pickByTimestamp {values : List Envelope} (hne : values ≠ []) :
    Unbeaten values (pickByTimestamp values) :=
  unbeaten_iff.mpr ⟨pickByTimestamp_mem hne, fun _ => precedence_le_pickByTimestamp⟩

/-- An unbeaten version is picked if it comes first. -/
theorem pickByTimestamp_cons {values : List Envelope} {e : Envelope}
    (h : ∀ value ∈ values, replaces e value = false) : pickByTimestamp (e :: values) = e := by
  rw [pickByTimestamp]
  refine List.foldlRecOn (motive := (· = e)) values _ rfl fun picked hpicked value hvalue => ?_
  rw [hpicked, h value hvalue]
  rfl

theorem Unbeaten.exists_perm {values : List Envelope} {e : Envelope} (h : Unbeaten values e) :
    ∃ values' : List Envelope, values'.Perm values ∧ pickByTimestamp values' = e := by
  obtain ⟨before, after, rfl⟩ := List.append_of_mem h.1
  have hothers : ∀ value ∈ before ++ after, replaces e value = false := fun value hvalue =>
    h.2 value (List.perm_middle.mem_iff.mpr (List.mem_cons_of_mem _ hvalue))
  exact ⟨e :: (before ++ after), List.perm_middle.symm, pickByTimestamp_cons hothers⟩

theorem Unbeaten.perm {values values' : List Envelope} {e : Envelope} (h : Unbeaten values' e)
    (hperm : values'.Perm values) : Unbeaten values e :=
  ⟨hperm.subset h.1, fun value hvalue => h.2 value (hperm.symm.subset hvalue)⟩

/-- Unbeaten versions agree in all but the clock, and in the text for the clock. -/
theorem Unbeaten.agree {values : List Envelope} {a b : Envelope} (ha : Unbeaten values a)
    (hb : Unbeaten values b) : a.updatedAtUnixNano = b.updatedAtUnixNano ∧
      a.deleted = b.deleted ∧ a.value = b.value ∧
      stableClockString a.vectorClock = stableClockString b.vectorClock := by
  rw [unbeaten_iff] at ha hb
  have heq : precedence a = precedence b := le_antisymm (hb.2 a ha.1) (ha.2 b hb.1)
  simpa [precedence] using heq

theorem Unbeaten.eq {values : List Envelope} {a b : Envelope}
    (hvalid : ∀ e ∈ values, e.validate = .ok ()) (ha : Unbeaten values a) (hb : Unbeaten values b)
    (hclock : a.vectorClock = b.vectorClock) : a = b := by
  obtain ⟨htime, hdeleted, hvalue, -⟩ := ha.agree hb
  have hversion := (version_of_validate (hvalid a ha.1)).trans
    (version_of_validate (hvalid b hb.1)).symm
  cases a
  cases b
  simp_all

theorem pickByTimestamp_perm {values values' : List Envelope}
    (hvalid : ∀ e ∈ values, e.validate = .ok ())
    (hclock : ∀ a b, Unbeaten values a → Unbeaten values b →
      stableClockString a.vectorClock = stableClockString b.vectorClock →
      a.vectorClock = b.vectorClock)
    (hperm : values'.Perm values) : pickByTimestamp values' = pickByTimestamp values := by
  cases values with
  | nil => rw [List.perm_nil.mp hperm]
  | cons e values =>
    have hne : values' ≠ [] := fun hnil => by simp [hnil] at hperm
    have hleft := (unbeaten_pickByTimestamp hne).perm hperm
    have hright := unbeaten_pickByTimestamp (List.cons_ne_nil e values)
    exact hleft.eq hvalid hright (hclock _ _ hleft hright (hleft.agree hright).2.2.2)

/-- With node IDs without a NUL byte the order does not matter. -/
theorem pickByTimestamp_perm_of_noNul {values values' : List Envelope}
    (hvalid : ∀ e ∈ values, e.validate = .ok ()) (hnul : ∀ e ∈ values, e.vectorClock.NoNul)
    (hperm : values'.Perm values) : pickByTimestamp values' = pickByTimestamp values :=
  pickByTimestamp_perm hvalid
    (fun a b ha hb => stableClockString_inj (hnul a ha.1) (hnul b hb.1)) hperm

/-- `PickByTimestamp` returns the same latest version for every order of valid versions exactly when
no two unbeaten versions have different clocks with one text. -/
theorem pickByTimestamp_order_independent_iff {values : List Envelope}
    (hvalid : ∀ e ∈ values, e.validate = .ok ()) :
    ((∀ values' : List Envelope, values'.Perm values →
        pickByTimestamp values' = pickByTimestamp values) ∧
      (values ≠ [] → pickByTimestamp values ∈ values) ∧
      ∀ e ∈ values, e.updatedAtUnixNano ≤ (pickByTimestamp values).updatedAtUnixNano) ↔
    ∀ a b, Unbeaten values a → Unbeaten values b →
      stableClockString a.vectorClock = stableClockString b.vectorClock →
      a.vectorClock = b.vectorClock := by
  constructor
  · rintro ⟨hsame, -, -⟩ a b ha hb -
    obtain ⟨la, hla, hpa⟩ := ha.exists_perm
    obtain ⟨lb, hlb, hpb⟩ := hb.exists_perm
    rw [← hpa, ← hpb, hsame la hla, hsame lb hlb]
  · intro hclock
    exact ⟨fun values' => pickByTimestamp_perm hvalid hclock, pickByTimestamp_mem,
      fun e => updatedAt_le_pickByTimestamp⟩

/-- Two nodes `a` and `b`, and one node whose ID reads like the first of them and the begin of the
second. -/
def twoNodes : Envelope :=
  ⟨1, ⟨[([97], 1), ([98], 2)], by unfold Ascending; decide⟩, 5, false, [118]⟩

def oneNode : Envelope :=
  ⟨1, ⟨[([97, 0, 49, 0, 98], 2)], by unfold Ascending; decide⟩, 5, false, [118]⟩

/-- Versions of two nodes without NUL bytes, in either order. -/
theorem pickByTimestamp_order_independent_later :
    let values := [twoNodes, { twoNodes with updatedAtUnixNano := 6 }]
    (∀ values' : List Envelope, values'.Perm values →
        pickByTimestamp values' = pickByTimestamp values) ∧
      (values ≠ [] → pickByTimestamp values ∈ values) ∧
      ∀ e ∈ values, e.updatedAtUnixNano ≤ (pickByTimestamp values).updatedAtUnixNano := by
  intro values
  refine (pickByTimestamp_order_independent_iff (by decide)).mpr fun a b ha hb => ?_
  have hnul : twoNodes.vectorClock.NoNul := by unfold VectorClock.NoNul; decide
  have hall : ∀ e ∈ values, e.vectorClock.NoNul := by
    simpa [values] using hnul
  exact stableClockString_inj (hall a ha.1) (hall b hb.1)

/-- Both versions are valid and of one time, and the first one wins in either order. -/
theorem pickByTimestamp_first_wins :
    twoNodes.validate = .ok () ∧ oneNode.validate = .ok () ∧
      pickByTimestamp [twoNodes, oneNode] = twoNodes ∧
      pickByTimestamp [oneNode, twoNodes] = oneNode ∧ twoNodes ≠ oneNode := by
  decide +kernel

end ChudDB.Cluster
