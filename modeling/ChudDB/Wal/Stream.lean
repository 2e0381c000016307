import ChudDB.Lib.Run
import ChudDB.Wal.Cursor

/-! # Streaming the log

The system in which one process appends to its log, syncs, rotates and purges it, and a consumer
takes a cursor and calls `Next` again and again, after `io.EOF` too. A label `next` is one access of
such a call to the storage. `log` is every record appended and `returned` what the cursor has
delivered. -/

namespace ChudDB.Wal
open Lib

structure StreamState where
  store : AppendFileStorage
  log : List Record
  cursor : Option WALCursor
  returned : List Entry
deriving DecidableEq

inductive StreamOp where
  | appendPut (key value : Bytes)
  | appendDelete (key : Bytes)
  | sync
  | rotate
  | purgeUpTo (checkpointLSN : Nat)
  | cursorFrom (afterLSN : Nat)
  | next
deriving DecidableEq

namespace StreamState

/-- A storage in an empty directory; no cursor yet. -/
def init (segmentSize writeBufferSize : Int) : StreamState :=
  ⟨.newAppendStorageInDir [] segmentSize writeBufferSize, [], none, []⟩

def append (st : StreamState) (op : Op) (key value : Bytes) : StreamState :=
  match (AppendFileStorage.append noFaults op key value).run st.store with
  | .ok lsn store => { st with store := store, log := st.log ++ [⟨lsn, op, key, value⟩] }
  | .error _ store => { st with store := store }

def step (st : StreamState) : StreamOp → Option StreamState
  | .appendPut key value => some (st.append opPut key value)
  | .appendDelete key => some (st.append opDelete key [])
  | .sync => some { st with store := st.store.exec (AppendFileStorage.syncLocked noFaults) }
  | .rotate => some { st with store := st.store.exec (AppendFileStorage.rotateIfNeededLocked noFaults) }
  | .purgeUpTo checkpointLSN => some { st with store := st.store.purgeUpTo checkpointLSN }
  | .cursorFrom afterLSN =>
    some { st with cursor := some (Wal.cursorFrom st.store afterLSN), returned := [] }
  | .next => st.cursor.map fun c =>
    let (c, result) := c.next st.store
    { st with cursor := some c, returned := st.returned ++ WALCursor.delivered result }

/-- What is appended fits the format, and segment numbers do. -/
def Fits (st : StreamState) : StreamOp → Prop
  | .appendPut key value => st.store.Fits key value
  | .appendDelete key => st.store.Fits key []
  | .rotate => st.store.segmentID + 1 < 10 ^ 9
  | _ => True

instance : DecidablePred (Fits st)
  | .appendPut .. | .appendDelete _ => inferInstanceAs (Decidable (st.store.Fits _ _))
  | .rotate => inferInstanceAs (Decidable (_ < _))
  | .sync | .purgeUpTo _ | .cursorFrom _ | .next => isTrue trivial

/-- The store side of a state, which `Next` does not touch. -/
def InOrder (st : StreamState) (removed closed : List Segment) (active : Segment) : Prop :=
  ∃ n, OrderedLog st.store removed closed active n st.log

/-- A step of the storage: the segments grow at the end or are removed at the front. -/
structure StoreStep (st st' : StreamState) (removed segs removed' segs' : List Segment) : Prop where
  grows : Grows (removed ++ segs) (removed' ++ segs')
  removed : removed <+: removed'
  durable : st.store.durableLSN ≤ st'.store.durableLSN
  log : st.log <+: st'.log
  fresh : ∀ r ∈ st'.log, r ∉ st.log → st.store.appendedLSN < r.lsn
  cursor : st'.cursor = st.cursor
  returned : st'.returned = st.returned

end StreamState

theorem Grows.append_left (h : Grows segs segs') : Grows (pre ++ segs) (pre ++ segs') := by
  obtain ⟨init, g, rs, more, rfl, rfl⟩ := h
  exact ⟨pre ++ init, g, rs, more, by simp⟩

namespace StreamState

variable {st st' : StreamState} {removed closed : List Segment} {active : Segment}

theorem InOrder.append (h : InOrder st removed closed active) (hfits : st.store.Fits key value)
    (henc : encodeRecord checksumIEEE op key value st.store.nextLSN = .ok encoded) :
    ∃ closed' active', InOrder (st.append op key value) removed closed' active' ∧
      StoreStep st (st.append op key value) removed (closed ++ [active]) removed
        (closed' ++ [active']) := by
  obtain ⟨n, h⟩ := h
  obtain ⟨s', closed', active', n', hrun, hlog, hgrows, hdur, -, -⟩ := h.append hfits henc
  refine ⟨closed', active', ?_⟩
  simp only [StreamState.append, hrun]
  refine ⟨⟨n', hlog⟩, hgrows.append_left, List.prefix_rfl, hdur, by simp, ?_, rfl, rfl⟩
  intro r hr hnot
  rcases List.mem_append.mp hr with hr | hr
  · exact absurd hr hnot
  · cases List.mem_singleton.mp hr
    exact h.appended_lt

theorem StoreStep.same {store : AppendFileStorage}
    (hgrows : Grows (removed ++ segs) (removed' ++ segs'))
    (hremoved : removed <+: removed') (hdur : st.store.durableLSN ≤ store.durableLSN) :
    StoreStep st { st with store := store } removed segs removed' segs' :=
  ⟨hgrows, hremoved, hdur, List.prefix_rfl, fun _ hr hnot => absurd hr hnot, rfl, rfl⟩

/-- Every storage step keeps the log in order. Only a purge removes segments. -/
theorem InOrder.step (h : InOrder st removed closed active) (hfits : st.Fits op)
    (hstep : st.step op = some st') (hnext : op ≠ .next) (hcursor : ∀ n, op ≠ .cursorFrom n) :
    ∃ removed' closed' active', InOrder st' removed' closed' active' ∧
      StoreStep st st' removed (closed ++ [active]) removed' (closed' ++ [active']) ∧
      ((∀ n, op ≠ .purgeUpTo n) → removed' = removed) := by
  cases op with
  | appendPut key value =>
    cases hstep
    obtain ⟨closed', active', hlog, hst⟩ := h.append hfits encodeRecord_put
    exact ⟨removed, closed', active', hlog, hst, fun _ => rfl⟩
  | appendDelete key =>
    cases hstep
    obtain ⟨closed', active', hlog, hst⟩ := h.append hfits encodeRecord_delete
    exact ⟨removed, closed', active', hlog, hst, fun _ => rfl⟩
  | sync =>
    obtain ⟨n, h⟩ := h
    cases hstep
    simp only [AppendFileStorage.exec, AppendFileStorage.syncLocked_run h.file]
    exact ⟨removed, closed, active, ⟨_, h.sync⟩,
      .same Grows.rfl.append_left List.prefix_rfl h.durable_le, fun _ => rfl⟩
  | rotate =>
    obtain ⟨n, h⟩ := h
    cases hstep
    simp only [AppendFileStorage.exec, AppendFileStorage.rotateIfNeededLocked_run h.file]
    obtain ⟨closed', active', n', hlog, hgrows, hdur⟩ := h.rotate (h.segmentID ▸ hfits)
    exact ⟨removed, closed', active', ⟨n', hlog⟩,
      .same hgrows.append_left List.prefix_rfl hdur, fun _ => rfl⟩
  | purgeUpTo checkpoint =>
    obtain ⟨n, h⟩ := h
    cases hstep
    refine ⟨_, _, active, ⟨n, h.purgeUpTo⟩, .same ?_ (List.prefix_append _ _) (Nat.le_refl _),
      fun hno => absurd rfl (hno checkpoint)⟩
    rw [List.append_assoc, ← List.append_assoc (closed.takeWhile _),
      List.takeWhile_append_dropWhile]
    exact Grows.rfl.append_left
  | cursorFrom n => exact absurd rfl (hcursor n)
  | next => exact absurd rfl hnext

end StreamState

/-! ## Where a new cursor starts -/

theorem startIdx_spec {closed : List Segment} (afterLSN : Nat)
    (hmax : ∀ g ∈ closed, segmentMaxLSN s g.id = g.maxLSN)
    (hne : ∀ g ∈ closed, g.id ≠ s.segmentID) (hactive : s.segmentID = active.id) :
    ∃ past g rest, closed ++ [active] = past ++ g :: rest ∧
      startIdx s afterLSN ((closed ++ [active]).map (·.id)) = past.length ∧
      ∀ x ∈ past, x ∈ closed ∧ x.maxLSN ≤ afterLSN := by
  induction closed with
  | nil => exact ⟨[], active, [], rfl, by simp [startIdx, hactive], by simp⟩
  | cons x closed ih =>
    obtain ⟨past, g, rest, heq, hidx, hpast⟩ :=
      ih (fun g hg => hmax g (List.mem_cons_of_mem _ hg)) fun g hg => hne g (List.mem_cons_of_mem _ hg)
    simp only [List.cons_append, List.map_cons, startIdx, if_neg (hne x List.mem_cons_self),
      hmax x List.mem_cons_self]
    by_cases hx : x.maxLSN ≤ afterLSN
    · refine ⟨x :: past, g, rest, by rw [heq]; rfl, by rw [if_pos hx, hidx]; rfl, ?_⟩
      intro y hy
      rcases List.mem_cons.mp hy with rfl | hy
      · exact ⟨List.mem_cons_self, hx⟩
      · exact ⟨List.mem_cons_of_mem _ (hpast y hy).1, (hpast y hy).2⟩
    · exact ⟨[], x, closed ++ [active], rfl, if_neg hx, by simp⟩

/-- `CursorFrom` passes over closed segments that hold nothing behind `afterLSN`. -/
theorem OrderedLog.startIdx (h : OrderedLog s removed closed active n log) (afterLSN : Nat) :
    ∃ past g rest, closed ++ [active] = past ++ g :: rest ∧
      Wal.startIdx s afterLSN s.listSegments = past.length ∧
      ∀ x ∈ past, x ∈ closed ∧ ∀ r ∈ x.recs, r.lsn ≤ afterLSN := by
  have hmax : ∀ g ∈ closed, segmentMaxLSN s g.id = g.maxLSN := by
    intro g hg
    rw [segmentMaxLSN, h.data (List.mem_append_left _ hg), (h.wf g (by simp [hg])).maxLSNInSegment]
  have hne : ∀ g ∈ closed, g.id ≠ s.segmentID := by
    intro g hg
    rw [h.segmentID]
    exact Nat.ne_of_lt (id_lt_active h.sorted (List.mem_append_right _ hg))
  obtain ⟨past, g, rest, heq, hidx, hpast⟩ := startIdx_spec afterLSN hmax hne h.segmentID
  refine ⟨past, g, rest, heq, ?_, ?_⟩
  · rw [AppendFileStorage.listSegments, h.listSegments]
    exact hidx
  · intro x hx
    refine ⟨(hpast x hx).1, fun r hr => ?_⟩
    exact (h.le_maxLSN (by simp [(hpast x hx).1]) hr).trans (hpast x hx).2

end ChudDB.Wal
