import ChudDB.Wal.OrderedLog
import ChudDB.Wal.Recovery

/-! # LSNs across restarts

A storage that is opened on a directory takes its next LSN from the last segment file, or from the
one before it when the last file is empty. That file need not hold the newest record: a purge can
remove everything in front of a new segment, and a crash can leave a new segment without a complete
record. Then the LSNs start again at 1 (`purge_restarts_lsns`). In runs in which the file that is
read holds a record, and no record is appended behind a torn one, they increase
(`append_gt_everDurable`). -/

namespace ChudDB.Wal
open Lib

/-- A storage, and the highest LSN that was ever durable. -/
structure LsnState where
  store : AppendFileStorage
  everDurable : Nat
deriving DecidableEq

inductive LsnOp where
  | append (op : Op) (key value : Bytes)
  | sync
  | rotate
  | purge (checkpointLSN : Nat)
  /-- A clean close, and a new process. -/
  | reopen (segmentSize writeBufferSize : Int)
  /-- A crash that leaves the first `n` bytes of the active segment file, and a new process. -/
  | crash (n : Nat) (segmentSize writeBufferSize : Int)
deriving DecidableEq

/-- The segment file from which a new process takes its next LSN holds a complete record. -/
def Disk.Recoverable (d : Disk) : Prop :=
  match d.listSegments.reverse with
  | [] => False
  | last :: earlier => (readSegment checksumIEEE (d.data last)).1 ≠ [] ∨
    d.data last = [] ∧ ∃ prev ∈ earlier.head?, (readSegment checksumIEEE (d.data prev)).1 ≠ []

instance {d : Disk} : Decidable d.Recoverable := by
  unfold Disk.Recoverable
  split <;> infer_instance

namespace LsnState

/-- A storage in an empty directory. -/
def init (segmentSize writeBufferSize : Int) : LsnState :=
  ⟨.newAppendStorageInDir [] segmentSize writeBufferSize, 0⟩

def observe (st : LsnState) (store : AppendFileStorage) : LsnState :=
  ⟨store, max st.everDurable store.durableLSN⟩

def exec (st : LsnState) (m : StorageM α) : LsnState := st.observe (st.store.exec m)

def step : System LsnState LsnOp := fun st op =>
  match op with
  | .append op key value => some (st.exec (AppendFileStorage.append noFaults op key value))
  | .sync => some (st.exec (AppendFileStorage.syncLocked noFaults))
  | .rotate => some (st.exec (AppendFileStorage.rotateIfNeededLocked noFaults))
  | .purge checkpointLSN => some (st.observe (st.store.purgeUpTo checkpointLSN))
  | .reopen segmentSize writeBufferSize =>
    let st := st.exec (AppendFileStorage.closeLocked noFaults)
    some (st.observe (.newAppendStorageInDir st.store.disk segmentSize writeBufferSize))
  | .crash n segmentSize writeBufferSize => do
    let fd ← st.store.file
    let file ← st.store.disk[fd]?
    if file.synced ≤ n ∧ n ≤ file.data.length then
      some (st.observe
        (.newAppendStorageInDir (st.store.disk.truncate fd n) segmentSize writeBufferSize))
    else none

/-- Appends are made to a segment file that ends with a complete record and fit the format, and a
new process finds a record in the file that it reads, unless nothing was ever durable. -/
def Safe (st : LsnState) : LsnOp → Prop
  | .append _ key value =>
    (readSegment checksumIEEE (st.store.disk.dataAt (st.store.file.getD 0))).2 = [] ∧
      st.store.Fits key value
  | .sync | .purge _ => True
  | .rotate => st.store.segmentID + 1 < 10 ^ 9
  | .reopen .. => st.store.segmentID + 1 < 10 ^ 9 ∧
    (st.everDurable = 0 ∨ st.store.disk.Recoverable)
  | .crash n .. => st.store.segmentID + 1 < 10 ^ 9 ∧
    (st.everDurable = 0 ∨ (st.store.disk.truncate (st.store.file.getD 0) n).Recoverable)

instance {st : LsnState} : DecidablePred st.Safe
  | .append .. => inferInstanceAs (Decidable (_ = [] ∧ st.store.Fits _ _))
  | .sync | .purge _ => isTrue trivial
  | .rotate => inferInstanceAs (Decidable (_ < _))
  | .reopen .. | .crash .. => inferInstanceAs (Decidable (_ < _ ∧ (_ = 0 ∨ Disk.Recoverable _)))

end LsnState

/-! ## The newest record -/

/-- The LSN of the last record, 0 when there is none. -/
def lastLSN (log : List Record) : Nat := (log.getLast?.map (·.lsn)).getD 0

theorem lastLSN_append (h : rs ≠ []) : lastLSN (log ++ rs) = lastLSN rs := by
  rw [lastLSN, lastLSN, List.getLast?_append_of_ne_nil _ h]

theorem le_lastLSN (hinc : log.Pairwise (·.lsn < ·.lsn)) (hr : r ∈ log) : r.lsn ≤ lastLSN log :=
  le_getLast_of_increasing hinc hr

theorem lastLSN_mem (h : log ≠ []) : ∃ r ∈ log, lastLSN log = r.lsn := by
  refine ⟨log.getLast h, List.getLast_mem h, ?_⟩
  rw [lastLSN, List.getLast?_eq_some_getLast h]
  rfl

/-- A log that has lost its end. -/
theorem lastLSN_le_of_initial (hinc : log.Pairwise (·.lsn < ·.lsn)) (h : earlier <+: log) :
    lastLSN earlier ≤ lastLSN log := by
  by_cases hnil : earlier = []
  · rw [hnil]
    exact Nat.zero_le _
  · obtain ⟨r, hr, heq⟩ := lastLSN_mem hnil
    rw [heq]
    exact le_lastLSN hinc (h.subset hr)

theorem eq_nil_of_lastLSN (hpos : ∀ r ∈ log, 0 < r.lsn) (h : lastLSN log = 0) : log = [] := by
  by_contra hne
  obtain ⟨r, hr, heq⟩ := lastLSN_mem hne
  have hlsn := hpos r hr
  omega

/-! ## Opening a directory -/

theorem flatMap_recs_concat (removed closed : List Segment) (active : Segment) :
    (removed ++ (closed ++ [active])).flatMap (·.recs) =
      (removed ++ closed).flatMap (·.recs) ++ active.recs := by
  simp

/-- The segment from which a new process takes its next LSN. -/
def scanned (closed : List Segment) (active : Segment) : Segment :=
  if active.content = [] then closed.getLast?.getD active else active

theorem Segment.recs_eq_nil {g : Segment} (h : g.content = []) : g.recs = [] := by
  rw [Segment.content, List.append_eq_nil_iff, List.flatMap_eq_nil_iff] at h
  exact List.eq_nil_iff_forall_not_mem.mpr fun r hr => Record.bytes_ne_nil (h.1 r hr)

namespace DiskLayout

variable {d : Disk} {removed closed : List Segment} {active : Segment} {n : Nat}

theorem maxLSNFromLastSegment (h : DiskLayout d removed closed active n) :
    AppendFileStorage.maxLSNFromLastSegment d d.listSegments = (scanned closed active).maxLSN := by
  have hread : ∀ g ∈ closed ++ [active],
      AppendFileStorage.maxLSNInSegment (d.data g.id) = g.maxLSN := by
    intro g hg
    rw [h.data hg, (h.wf g (List.mem_append_right _ hg)).maxLSNInSegment]
  have hactive : active ∈ closed ++ [active] := List.mem_append_right _ List.mem_cons_self
  have hempty : (d.data active.id).length = 0 ↔ active.content = [] := by
    rw [h.data hactive, List.length_eq_zero_iff]
  have hlast : ((closed ++ [active]).map (·.id)).getLastD 0 = active.id := by simp
  rw [AppendFileStorage.maxLSNFromLastSegment, h.listSegments, hlast, scanned]
  cases closed using List.reverseRecOn with
  | nil =>
    rw [if_neg fun hlen => absurd hlen.2 (Nat.lt_irrefl 1), hread active hactive, List.getLast?_nil,
      Option.getD_none, ite_self]
  | append_singleton pre g =>
    have hprev : ((pre ++ [g] ++ [active]).map (·.id)).getD
        (((pre ++ [g] ++ [active]).map (·.id)).length - 2) 0 = g.id := by
      simp
    have hlen : ((pre ++ [g] ++ [active]).map (·.id)).length > 1 := by simp
    rw [hprev, List.getLast?_concat, Option.getD_some]
    by_cases hnil : active.content = []
    · rw [if_pos ⟨hempty.mpr hnil, hlen⟩, if_pos hnil, hread g (by simp)]
    · rw [if_neg fun hand => hnil (hempty.mp hand.1), if_neg hnil, hread active hactive]

theorem scanned_recs_ne_nil (h : DiskLayout d removed closed active n) (hrec : d.Recoverable) :
    (scanned closed active).recs ≠ [] := by
  have hread : ∀ g ∈ closed ++ [active], (readSegment checksumIEEE (d.data g.id)).1 = g.recs := by
    intro g hg
    rw [h.data hg, (h.wf g (List.mem_append_right _ hg)).readSegment]
  have hactive : active ∈ closed ++ [active] := List.mem_append_right _ List.mem_cons_self
  rw [Disk.Recoverable, h.listSegments, List.map_append, List.reverse_append] at hrec
  change _ ∨ _ at hrec
  rw [hread active hactive, h.data hactive] at hrec
  rw [scanned]
  rcases hrec with hrecs | ⟨hempty, prev, hprev, hrecs⟩
  · have hne : active.content ≠ [] := fun hnil => hrecs (Segment.recs_eq_nil hnil)
    rw [if_neg hne]
    exact hrecs
  · rw [if_pos hempty]
    cases closed using List.reverseRecOn with
    | nil => cases hprev
    | append_singleton pre g =>
      rw [List.map_append, List.reverse_append] at hprev
      cases hprev
      rw [hread g (by simp)] at hrecs
      rwa [List.getLast?_concat, Option.getD_some]

/-- The segment that is read holds the newest record, or there is none. -/
theorem lastLSN_scanned (hrecs : (scanned closed active).recs ≠ []) :
    lastLSN ((removed ++ (closed ++ [active])).flatMap (·.recs)) = (scanned closed active).maxLSN := by
  rw [scanned] at hrecs ⊢
  split at hrecs
  · rename_i hempty
    rw [if_pos hempty]
    have hactive : active.recs = [] := Segment.recs_eq_nil hempty
    cases closed using List.reverseRecOn with
    | nil => exact absurd hactive hrecs
    | append_singleton pre g =>
      rw [List.getLast?_concat, Option.getD_some] at hrecs ⊢
      have hlog : (removed ++ (pre ++ [g] ++ [active])).flatMap (·.recs) =
          (removed ++ pre).flatMap (·.recs) ++ g.recs := by
        simp [hactive]
      rw [hlog, lastLSN_append hrecs]
      rfl
  · rename_i hne
    rw [if_neg hne]
    rw [flatMap_recs_concat, lastLSN_append hrecs]
    rfl

end DiskLayout

theorem newAppendStorageInDir_lsns (h : DiskLayout d removed closed active n)
    (segmentSize bufferSize : Int) :
    let s := AppendFileStorage.newAppendStorageInDir d segmentSize bufferSize
    s.appendedLSN = (scanned closed active).maxLSN ∧
    s.durableLSN = (scanned closed active).maxLSN ∧
    s.nextLSN = if (scanned closed active).maxLSN > 0 then
      ((scanned closed active).maxLSN + 1) % 2 ^ 64 else 1 := by
  have hlast : d.listSegments.getLast? = some active.id := by
    rw [h.listSegments]
    simp
  simp only [AppendFileStorage.newAppendStorageInDir, hlast, h.maxLSNFromLastSegment]
  split <;> exact ⟨rfl, rfl, rfl⟩

/-! ## The invariant -/

/-- The LSNs of a log directory: they increase along the log, the storage knows the newest one, and
what was ever durable lies in the closed segments and in the synced part of the active one. -/
structure LsnInv (st : LsnState) (removed closed : List Segment) (active : Segment) (n : Nat) :
    Prop extends Layout st.store removed closed active n where
  increasing : ((removed ++ (closed ++ [active])).flatMap (·.recs)).Pairwise (·.lsn < ·.lsn)
  positive : ∀ r ∈ (removed ++ (closed ++ [active])).flatMap (·.recs), 0 < r.lsn
  appended : st.store.appendedLSN = lastLSN ((removed ++ (closed ++ [active])).flatMap (·.recs))
  appended_lt : st.store.appendedLSN < st.store.nextLSN
  bounded : st.store.nextLSN < 2 ^ 64
  durable_le : st.store.durableLSN ≤ st.everDurable
  closed_le : lastLSN ((removed ++ closed).flatMap (·.recs)) ≤ st.everDurable
  ever_le : st.everDurable ≤
    lastLSN ((removed ++ closed).flatMap (·.recs) ++ (cut n active.recs active.tail).1)

namespace LsnInv

variable {st st' : LsnState} {removed closed : List Segment} {active : Segment} {n : Nat}

theorem prefix_log (removed closed : List Segment) (active : Segment) (n : Nat) :
    (removed ++ closed).flatMap (·.recs) ++ (cut n active.recs active.tail).1 <+:
      (removed ++ (closed ++ [active])).flatMap (·.recs) := by
  rw [flatMap_recs_concat]
  exact (List.prefix_append_right_inj _).mpr cut_sublist

/-- What was ever durable is not newer than the newest record. -/
theorem ever_le_lastLSN (h : LsnInv st removed closed active n) :
    st.everDurable ≤ lastLSN ((removed ++ (closed ++ [active])).flatMap (·.recs)) :=
  h.ever_le.trans (lastLSN_le_of_initial h.increasing (prefix_log removed closed active n))

theorem ever_lt (h : LsnInv st removed closed active n) : st.everDurable < st.store.nextLSN :=
  (h.ever_le_lastLSN.trans_eq h.appended.symm).trans_lt h.appended_lt

theorem observe_self (h : LsnInv st removed closed active n) : st.observe st.store = st := by
  rw [LsnState.observe, max_eq_left h.durable_le]

/-- A directory in which every record is durable. -/
theorem of_durable (hlayout : Layout store removed closed active n)
    (hinc : ((removed ++ (closed ++ [active])).flatMap (·.recs)).Pairwise (·.lsn < ·.lsn))
    (hpos : ∀ r ∈ (removed ++ (closed ++ [active])).flatMap (·.recs), 0 < r.lsn)
    (happ : store.appendedLSN = lastLSN ((removed ++ (closed ++ [active])).flatMap (·.recs)))
    (hlt : store.appendedLSN < store.nextLSN) (hbounded : store.nextLSN < 2 ^ 64)
    (hdurable : store.durableLSN = store.appendedLSN)
    (hcut : (cut n active.recs active.tail).1 = active.recs)
    (hever : st.everDurable ≤ lastLSN ((removed ++ (closed ++ [active])).flatMap (·.recs))) :
    LsnInv (st.observe store) removed closed active n := by
  have hobserve : (st.observe store).everDurable =
      lastLSN ((removed ++ (closed ++ [active])).flatMap (·.recs)) := by
    rw [LsnState.observe, hdurable, happ, max_eq_right hever]
  refine ⟨hlayout, hinc, hpos, happ, hlt, hbounded, ?_, ?_, ?_⟩
  · exact le_max_right _ _
  · rw [hobserve]
    refine lastLSN_le_of_initial hinc ?_
    rw [flatMap_recs_concat]
    exact List.prefix_append _ _
  · rw [hobserve, hcut, flatMap_recs_concat]

theorem init : LsnInv (.init segmentSize bufferSize) [] [] (.empty 1) 0 where
  toLayout := Layout.new
  increasing := .nil
  positive _ hr := by cases hr
  appended := rfl
  appended_lt := Nat.one_pos
  bounded := newAppendStorageInDir_nextLSN
  durable_le := Nat.le_refl _
  closed_le := Nat.le_refl _
  ever_le := Nat.le_refl _

theorem cut_content (g : Segment) : (cut g.content.length g.recs g.tail).1 = g.recs := by
  rw [cut_all (by simp [Segment.content])]

theorem sync (h : LsnInv st removed closed active n) :
    LsnInv (st.observe (st.store.synced (removed.length + closed.length))) removed closed active
      active.content.length :=
  of_durable h.synced_layout h.increasing h.positive h.appended h.appended_lt h.bounded rfl
    (cut_content active) h.ever_le_lastLSN

theorem rotate (h : LsnInv st removed closed active n) (hid : active.id + 1 < 10 ^ 9) :
    ∃ closed' active' n', LsnInv
      (st.observe (st.store.rotated (removed.length + closed.length))) removed closed' active' n' := by
  rcases h.toLayout.rotated hid with heq | ⟨hrot, hdur⟩
  · rw [heq, h.observe_self]
    exact ⟨closed, active, n, h⟩
  · have hlog : (removed ++ (closed ++ [active] ++ [Segment.empty (active.id + 1)])).flatMap (·.recs) =
        (removed ++ (closed ++ [active])).flatMap (·.recs) := by
      simp [Segment.empty]
    refine ⟨closed ++ [active], .empty (active.id + 1), 0, of_durable hrot ?_ ?_ ?_ ?_ ?_ ?_ rfl ?_⟩
    · exact hlog ▸ h.increasing
    · exact hlog ▸ h.positive
    · rw [hlog, AppendFileStorage.rotated_appendedLSN, h.appended]
    · simpa using h.appended_lt
    · simpa using h.bounded
    · rw [hdur, AppendFileStorage.rotated_appendedLSN]
    · exact hlog ▸ h.ever_le_lastLSN

/-- The state between the write of a record and the rotation check. -/
theorem push (h : LsnInv st removed closed active n) (htail : active.tail = [])
    (hfits : st.store.Fits key value) (hop : op = opPut ∨ op = opDelete) :
    LsnInv ⟨(st.store.buffered (Record.bytes checksumIEEE ⟨st.store.nextLSN, op, key, value⟩)).flushed
        (removed.length + closed.length), st.everDurable⟩ removed closed
      (active.push ⟨st.store.nextLSN, op, key, value⟩) n := by
  have hlog : (removed ++ (closed ++ [active.push ⟨st.store.nextLSN, op, key, value⟩])).flatMap
      (·.recs) = (removed ++ (closed ++ [active])).flatMap (·.recs) ++
        [⟨st.store.nextLSN, op, key, value⟩] := by
    simp [Segment.push]
  have hbelow : ∀ r ∈ (removed ++ (closed ++ [active])).flatMap (·.recs),
      r.lsn < st.store.nextLSN := fun r hr =>
    (le_lastLSN h.increasing hr).trans_lt (h.appended ▸ h.appended_lt)
  have hinc : ((removed ++ (closed ++ [active.push ⟨st.store.nextLSN, op, key, value⟩])).flatMap
      (·.recs)).Pairwise (·.lsn < ·.lsn) := by
    rw [hlog, List.pairwise_append]
    refine ⟨h.increasing, List.pairwise_singleton _ _, fun r hr r' hr' => ?_⟩
    rw [List.mem_singleton.mp hr']
    exact hbelow r hr
  have hnext : (st.store.nextLSN + 1) % 2 ^ 64 = st.store.nextLSN + 1 := Nat.mod_eq_of_lt hfits.2.1
  refine ⟨h.flushed_buffered htail ⟨hop, h.bounded, hfits.1⟩, hinc, ?_, ?_, ?_, ?_, h.durable_le,
    h.closed_le, ?_⟩
  · rw [hlog]
    intro r hr
    rcases List.mem_append.mp hr with hr | hr
    · exact h.positive r hr
    · rw [List.mem_singleton.mp hr]
      exact h.appended_lt.pos
  · rw [hlog, lastLSN_append (List.cons_ne_nil _ _)]
    rfl
  · change st.store.nextLSN < (st.store.nextLSN + 1) % 2 ^ 64
    omega
  · exact Nat.mod_lt _ (by decide)
  · refine h.ever_le.trans (lastLSN_le_of_initial ?_ ?_)
    · exact hinc.sublist (prefix_log removed closed _ n).sublist
    · exact (List.prefix_append_right_inj _).mpr cut_prefix_push

theorem append (h : LsnInv st removed closed active n)
    (hok : st.Safe (.append op key value)) : ∃ removed' closed' active' n',
    LsnInv (st.exec (AppendFileStorage.append noFaults op key value)) removed' closed' active' n' := by
  obtain ⟨htorn, hfits⟩ := hok
  have htail : active.tail = [] := by
    have hdata : st.store.disk.dataAt (removed.length + closed.length) = active.content :=
      h.dataAt (by simp)
    rw [h.file, Option.getD_some, hdata, (h.wf active (by simp)).readSegment] at htorn
    exact htorn
  have hid : active.id + 1 < 10 ^ 9 := h.segmentID ▸ hfits.2.2
  rw [LsnState.exec, AppendFileStorage.exec]
  cases henc : encodeRecord checksumIEEE op key value st.store.nextLSN with
  | error e =>
    rw [AppendFileStorage.append_run_error henc]
    have hnext : (st.store.nextLSN + 1) % 2 ^ 64 = st.store.nextLSN + 1 :=
      Nat.mod_eq_of_lt hfits.2.1
    refine ⟨removed, closed, active, n, ?_⟩
    have hobserve : st.observe { st.store with nextLSN := (st.store.nextLSN + 1) % 2 ^ 64 } =
        ⟨{ st.store with nextLSN := (st.store.nextLSN + 1) % 2 ^ 64 }, st.everDurable⟩ := by
      rw [LsnState.observe, max_eq_left h.durable_le]
    dsimp only
    rw [hobserve]
    refine ⟨⟨h.toDiskLayout, h.segmentID, h.file, h.writeBuffer⟩, h.increasing, h.positive,
      h.appended, ?_, Nat.mod_lt _ (by decide), h.durable_le, h.closed_le, h.ever_le⟩
    have hlt := h.appended_lt
    dsimp only
    omega
  | ok encoded =>
    obtain ⟨rfl, hop⟩ := encodeRecord_eq_ok henc
    rw [AppendFileStorage.append_run h.file henc, ← AppendFileStorage.rotated_flushed]
    obtain ⟨closed', active', n', hinv⟩ := (h.push htail hfits hop).rotate hid
    exact ⟨removed, closed', active', n', hinv⟩

theorem purge (h : LsnInv st removed closed active n) (checkpoint : Nat) : ∃ removed' closed',
    LsnInv (st.observe (st.store.purgeUpTo checkpoint)) removed' closed' active n := by
  have hobserve : st.observe (st.store.purgeUpTo checkpoint) =
      ⟨st.store.purgeUpTo checkpoint, st.everDurable⟩ := by
    rw [LsnState.observe]
    exact congrArg (LsnState.mk _) (max_eq_left h.durable_le)
  have hsplit : ∀ rest : List Segment,
      removed ++ closed.takeWhile (fun g => decide (g.maxLSN ≤ checkpoint)) ++
        (closed.dropWhile (fun g => decide (g.maxLSN ≤ checkpoint)) ++ rest) =
      removed ++ (closed ++ rest) := by
    intro rest
    rw [List.append_assoc, ← List.append_assoc (closed.takeWhile _),
      List.takeWhile_append_dropWhile]
  have hall := hsplit [active]
  have hclosed := hsplit []
  rw [List.append_nil, List.append_nil] at hclosed
  rw [hobserve]
  refine ⟨_, _, h.toLayout.purgeUpTo, ?_, ?_, ?_, h.appended_lt, h.bounded, h.durable_le, ?_, ?_⟩
  · exact hall ▸ h.increasing
  · exact hall ▸ h.positive
  · exact hall ▸ h.appended
  · exact hclosed ▸ h.closed_le
  · exact hclosed ▸ h.ever_le

/-- When nothing is durable, the file that is read is the only one that can hold records. -/
theorem log_eq_nil (hpos : ∀ r ∈ (removed ++ (closed ++ [active])).flatMap (·.recs), 0 < r.lsn)
    (hclosed : lastLSN ((removed ++ closed).flatMap (·.recs)) = 0)
    (hrecs : (scanned closed active).recs = []) :
    (removed ++ (closed ++ [active])).flatMap (·.recs) = [] := by
  rw [flatMap_recs_concat] at hpos ⊢
  have hempty : (removed ++ closed).flatMap (·.recs) = [] :=
    eq_nil_of_lastLSN (fun r hr => hpos r (List.mem_append_left _ hr)) hclosed
  have hactive : active.recs = [] := by
    by_cases hcontent : active.content = []
    · exact Segment.recs_eq_nil hcontent
    · rwa [scanned, if_neg hcontent] at hrecs
  rw [hempty, hactive, List.append_nil]

/-- A new process on a directory whose segment files are on disk. -/
theorem reopen (h : DiskLayout d removed closed active active.content.length)
    (hid : active.id + 1 < 10 ^ 9)
    (hinc : ((removed ++ (closed ++ [active])).flatMap (·.recs)).Pairwise (·.lsn < ·.lsn))
    (hpos : ∀ r ∈ (removed ++ (closed ++ [active])).flatMap (·.recs), 0 < r.lsn)
    (hbound : lastLSN ((removed ++ (closed ++ [active])).flatMap (·.recs)) + 1 < 2 ^ 64)
    (hclosed : lastLSN ((removed ++ closed).flatMap (·.recs)) ≤ st.everDurable)
    (hever : st.everDurable ≤ lastLSN ((removed ++ (closed ++ [active])).flatMap (·.recs)))
    (hok : st.everDurable = 0 ∨ (scanned closed active).recs ≠ []) :
    ∃ removed' closed' active' n', LsnInv
      (st.observe (.newAppendStorageInDir d segmentSize bufferSize)) removed' closed' active' n' := by
  have hlast : (scanned closed active).maxLSN =
      lastLSN ((removed ++ (closed ++ [active])).flatMap (·.recs)) := by
    by_cases hrecs : (scanned closed active).recs = []
    · have hzero : st.everDurable = 0 := hok.resolve_right (not_not.mpr hrecs)
      rw [log_eq_nil hpos (by omega) hrecs, Segment.maxLSN, hrecs]
      rfl
    · exact (DiskLayout.lastLSN_scanned hrecs).symm
  obtain ⟨happ, hdur, hnext⟩ := newAppendStorageInDir_lsns h segmentSize bufferSize
  rw [hlast] at happ hdur hnext
  have hlt : (AppendFileStorage.newAppendStorageInDir d segmentSize bufferSize).appendedLSN <
      (AppendFileStorage.newAppendStorageInDir d segmentSize bufferSize).nextLSN := by
    rw [happ, hnext]
    split <;> omega
  rcases Layout.reopen h hid with hlayout | hlayout
  · exact ⟨removed, closed, active, _, of_durable hlayout hinc hpos happ hlt
      newAppendStorageInDir_nextLSN (hdur.trans happ.symm) (cut_content active) hever⟩
  · have hlog : (removed ++ (closed ++ [active] ++ [Segment.empty (active.id + 1)])).flatMap (·.recs) =
        (removed ++ (closed ++ [active])).flatMap (·.recs) := by
      simp [Segment.empty]
    exact ⟨removed, closed ++ [active], _, _, of_durable hlayout (hlog ▸ hinc) (hlog ▸ hpos)
      (hlog ▸ happ) hlt newAppendStorageInDir_nextLSN (hdur.trans happ.symm) rfl (hlog ▸ hever)⟩

theorem crash (h : LsnInv st removed closed active n)
    (hok : st.Safe (.crash m segmentSize bufferSize))
    (hstep : st.step (.crash m segmentSize bufferSize) = some st') :
    ∃ removed' closed' active' n', LsnInv st' removed' closed' active' n' := by
  have hactive : st.store.disk[removed.length + closed.length]? = some (active.file true n) := by
    rw [h.disk]
    exact diskOf_active
  obtain ⟨hid, hrec⟩ := hok
  rw [h.segmentID] at hid
  rw [h.file, Option.getD_some] at hrec
  simp only [LsnState.step, h.file, hactive, Option.bind_eq_bind, Option.bind_some] at hstep
  split at hstep
  · rename_i hm
    cases hstep
    have htrunc := h.truncate hm.2
    have hinitial : (removed ++ (closed ++ [active.truncate m])).flatMap (·.recs) <+:
        (removed ++ (closed ++ [active])).flatMap (·.recs) := by
      rw [flatMap_recs_concat]
      exact prefix_log removed closed active m
    have hinc := h.increasing.sublist hinitial.sublist
    have hle := lastLSN_le_of_initial h.increasing hinitial
    refine reopen htrunc hid hinc (fun r hr => h.positive r (hinitial.subset hr)) ?_ h.closed_le ?_
      (hrec.imp_right htrunc.scanned_recs_ne_nil)
    · have happ := h.appended
      have hlt := h.appended_lt
      have hbounded := h.bounded
      omega
    · refine h.ever_le.trans (lastLSN_le_of_initial hinc ?_)
      rw [flatMap_recs_concat]
      exact (List.prefix_append_right_inj _).mpr (cut_mono hm.1)
  · cases hstep

theorem step (h : LsnInv st removed closed active n) (hok : st.Safe op)
    (hstep : st.step op = some st') :
    ∃ removed' closed' active' n', LsnInv st' removed' closed' active' n' := by
  cases op with
  | append op key value =>
    cases hstep
    exact h.append hok
  | sync =>
    cases hstep
    rw [LsnState.exec, AppendFileStorage.exec, AppendFileStorage.syncLocked_run h.file]
    exact ⟨_, _, _, _, h.sync⟩
  | rotate =>
    cases hstep
    rw [LsnState.exec, AppendFileStorage.exec, AppendFileStorage.rotateIfNeededLocked_run h.file]
    exact ⟨_, h.rotate (h.segmentID ▸ hok)⟩
  | purge checkpoint =>
    cases hstep
    obtain ⟨removed', closed', hinv⟩ := h.purge checkpoint
    exact ⟨removed', closed', _, _, hinv⟩
  | reopen segmentSize bufferSize =>
    cases hstep
    have hsync := h.sync
    have hclose : st.exec (AppendFileStorage.closeLocked noFaults) =
        st.observe { st.store.synced (removed.length + closed.length) with file := none } := by
      rw [LsnState.exec, AppendFileStorage.exec, AppendFileStorage.closeLocked_run h.file]
    rw [hclose]
    have hbounded := hsync.bounded
    have hlt := hsync.appended_lt
    have happ := hsync.appended
    refine LsnInv.reopen hsync.toDiskLayout (h.segmentID ▸ hok.1) hsync.increasing hsync.positive
      (by omega) hsync.closed_le hsync.ever_le_lastLSN ?_
    by_cases hrecs : (scanned closed active).recs = []
    · have hzero : st.everDurable = 0 :=
        hok.2.resolve_right fun hrec => h.scanned_recs_ne_nil hrec hrecs
      have hclosed := h.closed_le
      have hle := hsync.ever_le_lastLSN
      rw [log_eq_nil h.positive (by omega) hrecs] at hle
      exact .inl (Nat.le_zero.mp hle)
    · exact .inr hrecs
  | crash m segmentSize bufferSize => exact h.crash hok hstep

end LsnInv

namespace LsnState

variable {st : LsnState} {store' : AppendFileStorage}

/-- In every run whose steps are safe, `Append` returns an LSN above everything that was ever
durable. -/
theorem append_gt_everDurable (hok : step.Guarded Safe (init segmentSize bufferSize) ops)
    (hrun : step.run (init segmentSize bufferSize) ops = some st)
    (happend : (AppendFileStorage.append noFaults op key value).run st.store = .ok lsn store') :
    st.everDurable < lsn := by
  obtain ⟨removed, closed, active, n, h⟩ : ∃ removed closed active n,
      LsnInv st removed closed active n :=
    System.run_invariant_of_guarded
      (I := fun _ st => ∃ removed closed active n, LsnInv st removed closed active n)
      ⟨[], [], _, 0, .init⟩ (fun ⟨_, _, _, _, h⟩ hok hs => h.step hok hs) hok hrun
  have hlsn : lsn = st.store.nextLSN := by
    cases henc : encodeRecord checksumIEEE op key value st.store.nextLSN with
    | error e =>
      rw [AppendFileStorage.append_run_error henc] at happend
      cases happend
    | ok encoded =>
      rw [AppendFileStorage.append_run h.file henc] at happend
      cases happend
      rfl
  rw [hlsn]
  exact h.ever_lt

/-- The first segment is purged, a crash tears the fifth record off, and a new process goes on in a
new segment. -/
def tornRun : List LsnOp :=
  [.append opPut [97] [49], .append opPut [98] [50], .append opPut [99] [51],
    .append opPut [100] [52], .sync, .append opPut [101] [53], .purge 3, .crash 37 20 65536]

def afterTornRun : LsnState := (step.run (init 60 65536) tornRun).get (by decide +kernel)

theorem append_gt_everDurable_torn :
    step.run (init 60 65536) tornRun = some afterTornRun ∧ afterTornRun.everDurable = 4 ∧
    ∃ lsn store', (AppendFileStorage.append noFaults opPut [102] [54]).run afterTornRun.store =
      .ok lsn store' ∧ afterTornRun.everDurable < lsn := by
  have hrun : step.run (init 60 65536) tornRun = some afterTornRun := (Option.some_get _).symm
  have hok : step.Guarded Safe (init 60 65536) tornRun := by decide +kernel
  have hlsn : (AppendFileStorage.append noFaults opPut [102] [54]).run' afterTornRun.store =
      some 5 := by decide +kernel
  refine ⟨hrun, by decide +kernel, ?_⟩
  cases happend : (AppendFileStorage.append noFaults opPut [102] [54]).run afterTornRun.store with
  | ok lsn store' => exact ⟨lsn, store', rfl, append_gt_everDurable hok hrun happend⟩
  | error e store' =>
    rw [EStateM.run', happend] at hlsn
    cases hlsn

/-- The first record fills its segment, which is purged. The next process finds an empty segment and
returns the LSN of that record again. -/
theorem purge_restarts_lsns :
    ∃ st ∈ step.run (init 20 65536) [.append opPut [97] [49], .purge 1, .reopen 20 65536],
      st.everDurable = 1 ∧
      (match (AppendFileStorage.append noFaults opPut [98] [50]).run st.store with
        | .ok lsn _ => lsn
        | .error .. => 0) = 1 := by
  decide +kernel

end LsnState
end ChudDB.Wal
