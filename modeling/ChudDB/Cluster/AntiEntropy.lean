import ChudDB.Cluster.NodeStore

/-! # Comparing two replicas

A leaf of a repair round (`scheduler.go`): `mergeDiff` walks the rows of both sides in the order of
their keys, and a row goes to the side that does not have the key or has a version with an older
clock. `applyPulls` stores what comes in, and the peer's `RepairKeys` what goes out. -/

namespace ChudDB.Cluster
open Lib

/-- What is to be pulled and what is to be pushed. -/
structure Diff where
  toPull : List KeyEnvelope
  toPush : List KeyEnvelope
deriving DecidableEq

namespace Diff

def pull (row : KeyEnvelope) (d : Diff) : Diff := { d with toPull := row :: d.toPull }

def push (row : KeyEnvelope) (d : Diff) : Diff := { d with toPush := row :: d.toPush }

end Diff

/-- `classifyKey`, for a key that both sides have. -/
def classifyKey (localRow peerRow : KeyEnvelope) (d : Diff) : Diff :=
  match localRow.2.vectorClock.compare peerRow.2.vectorClock with
  | .before => d.pull peerRow
  | .after => d.push localRow
  | .equal | .concurrent => d

/-- `mergeDiff` with a local row at hand; `next` goes on with the local rows behind it. -/
def mergeDiffRow (row : KeyEnvelope) (rest : List KeyEnvelope) (next : List KeyEnvelope → Diff) :
    List KeyEnvelope → Diff
  | [] => ⟨[], row :: rest⟩
  | peerRow :: peerRows =>
    if row.1 < peerRow.1 then (next (peerRow :: peerRows)).push row
    else if peerRow.1 < row.1 then (mergeDiffRow row rest next peerRows).pull peerRow
    else classifyKey row peerRow (next peerRows)

/-- `mergeDiff`. -/
def mergeDiff : List KeyEnvelope → List KeyEnvelope → Diff
  | [], peerRows => ⟨peerRows, []⟩
  | row :: rest, peerRows => mergeDiffRow row rest (mergeDiff rest) peerRows

/-- What `StreamRange` sends for a range, as it arrives, in the order of the keys. -/
def streamRange (peer : NodeStore) (start end_ : Bytes) : Except EnvelopeError (List KeyEnvelope) := do
  let rows ← (peer.scanRawRange start end_).mapM fun row => do return (row.1, ← row.2.received)
  return rows.insertionSort (·.1 ≤ ·.1)

/-- `localRows`. -/
def localRows (s : NodeStore) (start end_ : Bytes) : List KeyEnvelope :=
  (s.scanRawRange start end_).insertionSort (·.1 ≤ ·.1)

/-- The rows of `RepairKeys` as they are sent. -/
def toPbRows (rows : List KeyEnvelope) : List PbRow :=
  rows.map fun row => (row.1, some (envelopeToProto row.2))

/-- A row of `RepairKeys`. -/
def NodeStore.repairRow (row : PbRow) (s : NodeStore) : Except EnvelopeError NodeStore := do
  s.repair row.1 (← fromProto row.2)

/-- A row of `applyPulls`; `owned` is `IsOwner`. -/
def NodeStore.applyPull (row : KeyEnvelope) (owned : Bytes → Bool) (s : NodeStore) :
    Except EnvelopeError NodeStore :=
  if !owned row.1 then .ok s else s.repair row.1 row.2

/-! ## What is pulled and what is pushed -/

/-- How the two sides stand at a key. -/
def Older (a b : Option Envelope) : Prop :=
  ∃ e ∈ b, ∀ e' ∈ a, e'.vectorClock.compare e.vectorClock = .before

theorem older_none : Older none (some e) := ⟨e, rfl, nofun⟩

theorem older_some : Older (some e') (some e) ↔ e'.vectorClock.compare e.vectorClock = .before := by
  constructor
  · rintro ⟨e₁, he₁, h⟩
    cases he₁
    exact h e' rfl
  · exact fun h => ⟨e, rfl, fun e₁ he₁ => by cases he₁; exact h⟩

theorem not_older_none : ¬ Older a none := by
  rintro ⟨e, he, -⟩
  cases he

theorem compare_swap {a b : VectorClock} : a.compare b = .after ↔ b.compare a = .before := by
  rw [VectorClock.compare_eq_after_iff, VectorClock.compare_eq_before_iff]

variable {rows peerRows rest : List KeyEnvelope} {row : KeyEnvelope} {key : Bytes} {e : Envelope}

/-- A row is pulled if and only if it is the peer's and the local side is behind, and pushed in the
opposite case. -/
structure DiffSpec (rows peerRows : List KeyEnvelope) (d : Diff) : Prop where
  pull : ∀ key e, (key, e) ∈ d.toPull ↔
    peerRows.lookup key = some e ∧ Older (rows.lookup key) (peerRows.lookup key)
  push : ∀ key e, (key, e) ∈ d.toPush ↔
    rows.lookup key = some e ∧ Older (peerRows.lookup key) (rows.lookup key)

namespace DiffSpec

variable {d : Diff} {peerRow : KeyEnvelope}

/-- The same comparison, seen from the peer. -/
theorem swap (h : DiffSpec rows peerRows d) : DiffSpec peerRows rows ⟨d.toPush, d.toPull⟩ :=
  ⟨h.push, h.pull⟩

theorem not_mem (h : DiffSpec rows peerRows d) (hpeer : peerRows.lookup key = none) :
    (key, e) ∉ d.toPull := by
  rw [h.pull, hpeer]
  exact fun hmem => nomatch hmem.1

/-- A row that only one side has. -/
theorem push_cons (h : DiffSpec rest peerRows d) (hrow : rest.lookup row.1 = none)
    (hpeer : peerRows.lookup row.1 = none) : DiffSpec (row :: rest) peerRows (d.push row) := by
  refine ⟨fun key e => ?_, fun key e => ?_⟩
  · change (key, e) ∈ d.toPull ↔ _
    by_cases hkey : key = row.1
    · rw [hkey, hpeer]
      exact iff_of_false (h.not_mem hpeer) fun hmem => nomatch hmem.1
    · rw [h.pull, List.lookup_cons, beq_eq_false_iff_ne.mpr hkey]
  · change (key, e) ∈ row :: d.toPush ↔ _
    rw [List.mem_cons, List.lookup_cons]
    by_cases hkey : key = row.1
    · subst hkey
      rw [or_iff_left (h.swap.not_mem hrow), beq_self_eq_true, hpeer]
      constructor
      · intro heq
        rw [← heq]
        exact ⟨rfl, older_none⟩
      · rintro ⟨heq, -⟩
        exact Prod.ext rfl (Option.some.inj heq).symm
    · rw [or_iff_right fun heq => hkey (congrArg Prod.fst heq), h.push,
        beq_eq_false_iff_ne.mpr hkey]

theorem pull_cons (h : DiffSpec rows rest d) (hrow : rows.lookup row.1 = none)
    (hpeer : rest.lookup row.1 = none) : DiffSpec rows (row :: rest) (d.pull row) :=
  (h.swap.push_cons hpeer hrow).swap

/-- A key that both sides have. -/
theorem classify_cons (h : DiffSpec rest peerRows d) (hkey : row.1 = peerRow.1)
    (hrow : rest.lookup row.1 = none) (hpeer : peerRows.lookup row.1 = none) :
    DiffSpec (row :: rest) (peerRow :: peerRows) (classifyKey row peerRow d) := by
  obtain ⟨k, mine⟩ := row
  obtain ⟨k', theirs⟩ := peerRow
  cases hkey
  have hpull : ∀ {e}, (k, e) ∉ d.toPull := h.not_mem hpeer
  have hpush : ∀ {e}, (k, e) ∉ d.toPush := h.swap.not_mem hrow
  have hself : ∀ (v : Envelope) (l : List KeyEnvelope), ((k, v) :: l).lookup k = some v :=
    fun _ _ => List.lookup_cons_self
  have hother : ∀ {key : Bytes}, key ≠ k → ∀ (v : Envelope) (l : List KeyEnvelope),
      ((k, v) :: l).lookup key = l.lookup key := by
    intro key hne v l
    rw [List.lookup_cons, beq_eq_false_iff_ne.mpr hne]
  have hcons : ∀ {key : Bytes} {e v : Envelope} {l : List KeyEnvelope}, key ≠ k →
      ((key, e) ∈ (k, v) :: l ↔ (key, e) ∈ l) := by
    intro key e v l hne
    rw [List.mem_cons, or_iff_right fun heq => hne (congrArg Prod.fst heq)]
  have hmine : ∀ {e v : Envelope} {l : List KeyEnvelope}, (k, e) ∉ l →
      ((k, e) ∈ (k, v) :: l ↔ some v = some e) := by
    intro e v l hnot
    rw [List.mem_cons, or_iff_left hnot, Prod.mk.injEq, Option.some.injEq]
    exact ⟨fun heq => heq.2.symm, fun heq => ⟨rfl, heq.symm⟩⟩
  refine ⟨fun key e => ?_, fun key e => ?_⟩
  · by_cases hne : key = k
    · subst hne
      rw [hself, hself, older_some, classifyKey]
      split
      · rename_i hbefore
        rw [Diff.pull, hmine hpull]
        exact (and_iff_left hbefore).symm
      · rename_i hafter
        exact iff_of_false hpull fun hmem => by simp [hafter] at hmem
      · rename_i hequal
        exact iff_of_false hpull fun hmem => by simp [hequal] at hmem
      · rename_i hconcurrent
        exact iff_of_false hpull fun hmem => by simp [hconcurrent] at hmem
    · rw [hother hne, hother hne, ← h.pull, classifyKey]
      split
      · exact hcons hne
      · exact Iff.rfl
      · exact Iff.rfl
      · exact Iff.rfl
  · by_cases hne : key = k
    · subst hne
      rw [hself, hself, older_some, ← compare_swap, classifyKey]
      split
      · rename_i hbefore
        exact iff_of_false hpush fun hmem => by simp [hbefore] at hmem
      · rename_i hafter
        rw [Diff.push, hmine hpush]
        exact (and_iff_left hafter).symm
      · rename_i hequal
        exact iff_of_false hpush fun hmem => by simp [hequal] at hmem
      · rename_i hconcurrent
        exact iff_of_false hpush fun hmem => by simp [hconcurrent] at hmem
    · rw [hother hne, hother hne, ← h.push, classifyKey]
      split
      · exact Iff.rfl
      · exact hcons hne
      · exact Iff.rfl
      · exact Iff.rfl

/-- Nothing on the other side. -/
theorem push_all (h : Ascending rows) : DiffSpec rows [] ⟨[], rows⟩ := by
  refine ⟨fun key e => ?_, fun key e => ?_⟩
  · exact iff_of_false List.not_mem_nil fun hmem => nomatch hmem.1
  · rw [← lookup_eq_some_iff_mem h.nodup]
    constructor
    · intro heq
      rw [heq]
      exact ⟨rfl, older_none⟩
    · exact And.left

end DiffSpec

theorem diffSpec_mergeDiff (h : Ascending rows) (hpeer : Ascending peerRows) :
    DiffSpec rows peerRows (mergeDiff rows peerRows) := by
  induction rows generalizing peerRows with
  | nil => exact (DiffSpec.push_all hpeer).swap
  | cons row rest ih =>
    obtain ⟨hlt, hrest⟩ := ascending_cons.mp h
    have hrow : rest.lookup row.1 = none := lookup_eq_none_of_ne fun e he => (hlt e he).ne'
    rw [mergeDiff]
    -- The rows of the peer up to the key of the local row.
    induction peerRows with
    | nil => exact DiffSpec.push_all h
    | cons peerRow peerRows ih' =>
      obtain ⟨hlt', hpeerRest⟩ := ascending_cons.mp hpeer
      have hpeerRow : peerRows.lookup peerRow.1 = none :=
        lookup_eq_none_of_ne fun e he => (hlt' e he).ne'
      rw [mergeDiffRow]
      split
      · rename_i hless
        refine (ih hrest hpeer).push_cons hrow (lookup_eq_none_of_ne fun e he => ?_)
        rcases List.mem_cons.mp he with rfl | he
        · exact hless.ne'
        · exact (hless.trans (hlt' e he)).ne'
      · rename_i hnotless
        split
        · rename_i hgreater
          refine (ih' hpeerRest).pull_cons (lookup_eq_none_of_ne fun e he => ?_) hpeerRow
          rcases List.mem_cons.mp he with rfl | he
          · exact hgreater.ne'
          · exact (hgreater.trans (hlt e he)).ne'
        · rename_i hnotgreater
          have hkey : row.1 = peerRow.1 :=
            le_antisymm (not_lt.mp hnotgreater) (not_lt.mp hnotless)
          exact (ih hrest hpeerRest).classify_cons hkey hrow (hkey ▸ hpeerRow)

/-! ## The rows of the two sides -/

theorem localRows_eq (s : NodeStore) (start end_ : Bytes) :
    localRows s start end_ = s.scanRawRange start end_ :=
  insertionSort_of_ascending NodeStore.ascending_scanRawRange

/-- Converting rows one by one. -/
theorem mapM_rows {f : Envelope → Except EnvelopeError Envelope}
    (h : (rows.mapM fun row : KeyEnvelope => do return (row.1, ← f row.2)) = .ok rest) :
    rest.map Prod.fst = rows.map Prod.fst ∧
      ∀ key, match rows.lookup key with
        | none => rest.lookup key = none
        | some e => ∃ e', f e = .ok e' ∧ rest.lookup key = some e' := by
  induction rows generalizing rest with
  | nil =>
    cases h
    exact ⟨rfl, fun _ => rfl⟩
  | cons row rows ih =>
    rw [List.mapM_cons] at h
    cases hf : f row.2 with
    | error err =>
      rw [hf] at h
      cases h
    | ok e =>
      rw [hf] at h
      cases hrows : rows.mapM fun row : KeyEnvelope =>
          (do return (row.1, ← f row.2) : Except EnvelopeError KeyEnvelope) with
      | error err =>
        rw [hrows] at h
        cases h
      | ok rest' =>
        rw [hrows] at h
        cases h
        obtain ⟨hkeys, hlookup⟩ := ih hrows
        refine ⟨by rw [List.map_cons, List.map_cons, hkeys], fun key => ?_⟩
        rw [List.lookup_cons, List.lookup_cons]
        by_cases hkey : key = row.1
        · rw [beq_iff_eq.mpr hkey]
          exact ⟨e, hf, rfl⟩
        · rw [beq_eq_false_iff_ne.mpr hkey]
          exact hlookup key

/-- The rows that arrive from the peer. -/
structure Streamed (peer : NodeStore) (start end_ : Bytes) (rows : List KeyEnvelope) : Prop where
  ascending : Ascending rows
  lookup : ∀ key, match (peer.scanRawRange start end_).lookup key with
    | none => rows.lookup key = none
    | some e => ∃ e', e.received = .ok e' ∧ rows.lookup key = some e'

theorem streamed_of_streamRange {peer : NodeStore} {start end_ : Bytes}
    (h : streamRange peer start end_ = .ok rows) : Streamed peer start end_ rows := by
  rw [streamRange] at h
  cases hrows : (peer.scanRawRange start end_).mapM fun row : KeyEnvelope =>
      (do return (row.1, ← row.2.received) : Except EnvelopeError KeyEnvelope) with
  | error err =>
    rw [hrows] at h
    cases h
  | ok rows' =>
    rw [hrows] at h
    obtain ⟨hkeys, hlookup⟩ := mapM_rows hrows
    have hascending : Ascending rows' := by
      rw [Ascending, hkeys]
      exact NodeStore.ascending_scanRawRange
    have heq : rows'.insertionSort (·.1 ≤ ·.1) = rows := Except.ok.inj h
    rw [insertionSort_of_ascending hascending] at heq
    exact heq ▸ ⟨hascending, hlookup⟩

/-- A row from the peer is in the range. -/
theorem Streamed.scanned {peer : NodeStore} {start end_ : Bytes}
    (h : Streamed peer start end_ rows) (hrow : rows.lookup key = some e) :
    Scanned start end_ key := by
  have hlookup := h.lookup key
  rw [NodeStore.lookup_scanRawRange] at hlookup
  by_contra hout
  rw [if_neg hout] at hlookup
  rw [show rows.lookup key = none from hlookup] at hrow
  cases hrow

end ChudDB.Cluster
