import ChudDB.Lib.Run
import ChudDB.Wal.LogSteps

/-! # Crash recovery

Runs of one log directory through any number of processes: appends, syncs, rotations, clean reopens
and crashes. A crash leaves a prefix of the active segment file that contains everything synced, and
the next process opens the directory with `NewAppendStorageInDir`.

`log` records what should be in the log: every appended record that no crash cut off, with the place
of its encoding. `made` are the records that were made durable, by a successful `Sync`, by a
rotation or by a clean close. -/

namespace ChudDB.Wal
open Lib

/-- A record with the handle of its segment file and the offset at which its encoding ends. -/
structure Logged where
  record : Record
  fd : Nat
  stop : Nat
deriving DecidableEq

structure CrashState where
  store : AppendFileStorage
  log : List Logged
  made : List Record
deriving DecidableEq

inductive CrashOp where
  | append (op : Op) (key value : Bytes)
  | sync
  | rotate
  | reopen (segmentSize writeBufferSize : Int)
  | crash (n : Nat) (segmentSize writeBufferSize : Int)
deriving DecidableEq

namespace CrashState

/-- A storage in an empty directory. -/
def init (segmentSize writeBufferSize : Int) : CrashState :=
  ⟨.newAppendStorageInDir [] segmentSize writeBufferSize, [], []⟩

def records (st : CrashState) : List Record := st.log.map (·.record)

/-- The log after an operation that may have rotated: a rotation syncs everything appended. -/
def advance (st : CrashState) (store : AppendFileStorage) (log : List Logged) : CrashState :=
  ⟨store, log, if store.segmentID = st.store.segmentID then st.made else log.map (·.record)⟩

def step (st : CrashState) : CrashOp → Option CrashState
  | .append op key value =>
    match (AppendFileStorage.append noFaults op key value).run st.store with
    | .ok lsn store =>
      let fd := st.store.file.getD 0
      some (st.advance store
        (st.log ++ [⟨⟨lsn, op, key, value⟩, fd, (store.disk.dataAt fd).length⟩]))
    | .error _ store => some { st with store := store }
  | .sync =>
    match (AppendFileStorage.syncLocked noFaults).run st.store with
    | .ok _ store => some ⟨store, st.log, st.records⟩
    | .error _ store => some { st with store := store }
  | .rotate =>
    match (AppendFileStorage.rotateIfNeededLocked noFaults).run st.store with
    | .ok _ store => some (st.advance store st.log)
    | .error _ store => some { st with store := store }
  | .reopen segmentSize writeBufferSize =>
    match (AppendFileStorage.closeLocked noFaults).run st.store with
    | .ok _ store =>
      some ⟨.newAppendStorageInDir store.disk segmentSize writeBufferSize, st.log, st.records⟩
    | .error _ _ => none
  | .crash n segmentSize writeBufferSize => do
    let fd ← st.store.file
    let file ← st.store.disk[fd]?
    if file.synced ≤ n ∧ n ≤ file.data.length then
      -- a record of the active segment survives when its encoding ends within the first `n` bytes
      some {
        store := .newAppendStorageInDir (st.store.disk.truncate fd n) segmentSize writeBufferSize
        log := st.log.filter fun e => !(e.fd == fd && n < e.stop)
        made := st.made }
    else none

/-- Replay returns what should be in the log, in append order, and that contains every record made
durable. -/
structure Recovered (st : CrashState) : Prop where
  replay : replay st.store = st.records
  durable : st.made.Sublist st.records

instance : Decidable (Recovered st) :=
  decidable_of_iff (replay st.store = st.records ∧ st.made.Sublist st.records)
    ⟨fun h => ⟨h.1, h.2⟩, fun h => ⟨h.replay, h.durable⟩⟩

/-- The bytes of the active segment file behind its last complete record. -/
def tornTail (st : CrashState) : Bytes :=
  (readSegment checksumIEEE (st.store.disk.dataAt (st.store.file.getD 0))).2

/-- Appends are made to a segment file that ends with a complete record, and records and segment
numbers fit the format. -/
def Safe (st : CrashState) : CrashOp → Prop
  | .append _ key value => st.tornTail = [] ∧
    recordHeaderSize + key.length + value.length < 2 ^ 32 ∧ st.store.segmentID + 1 < 10 ^ 9
  | .sync => True
  | _ => st.store.segmentID + 1 < 10 ^ 9

instance : DecidablePred (Safe st)
  | .append .. => inferInstanceAs (Decidable (_ ∧ _ ∧ _))
  | .sync => isTrue trivial
  | .rotate | .reopen .. | .crash .. => inferInstanceAs (Decidable (_ < _))

end CrashState

/-! ## Cutting a segment file -/

/-- The complete records among the first `n` bytes of a segment file, and the bytes behind them. -/
def cut : Nat → List Record → Bytes → List Record × Bytes
  | n, [], tail => ([], tail.take n)
  | n, r :: rs, tail =>
    if (r.bytes checksumIEEE).length ≤ n then
      (r :: (cut (n - (r.bytes checksumIEEE).length) rs tail).1,
        (cut (n - (r.bytes checksumIEEE).length) rs tail).2)
    else ([], (r.bytes checksumIEEE).take n)

theorem take_eq_cut : (rs.flatMap (Record.bytes checksumIEEE) ++ tail).take n =
    (cut n rs tail).1.flatMap (Record.bytes checksumIEEE) ++ (cut n rs tail).2 := by
  induction rs generalizing n with
  | nil => simp [cut]
  | cons r rs ih =>
    simp only [cut, List.flatMap_cons, List.append_assoc]
    split
    · rename_i h
      rw [List.take_append, List.take_of_length_le h, ih]
      simp
    · rename_i h
      rw [List.take_append_of_le_length (by omega)]
      simp

theorem cut_sublist : (cut n rs tail).1 <+: rs := by
  induction rs generalizing n with
  | nil => simp [cut]
  | cons r rs ih =>
    simp only [cut]
    split
    · exact (List.prefix_cons_inj r).mpr ih
    · exact List.nil_prefix

theorem cut_mono (h : n ≤ m) : (cut n rs tail).1 <+: (cut m rs tail).1 := by
  induction rs generalizing n m with
  | nil => simp [cut]
  | cons r rs ih =>
    simp only [cut]
    split
    · rw [if_pos (by omega)]
      exact (List.prefix_cons_inj r).mpr (ih (by omega))
    · exact List.nil_prefix

theorem cut_all (h : (rs.flatMap (Record.bytes checksumIEEE)).length ≤ n) :
    (cut n rs tail).1 = rs := by
  induction rs generalizing n with
  | nil => simp [cut]
  | cons r rs ih =>
    simp only [List.flatMap_cons, List.length_append] at h
    simp only [cut]
    rw [if_pos (by omega), ih (by omega)]

theorem cut_tail (hwf : ∀ r ∈ rs, r.WF) (htail : nextRecord checksumIEEE tail = none) :
    nextRecord checksumIEEE (cut n rs tail).2 = none := by
  induction rs generalizing n with
  | nil => exact nextRecord_take htail
  | cons r rs ih =>
    simp only [cut]
    split
    · exact ih fun r hr => hwf r (List.mem_cons_of_mem _ hr)
    · rename_i h
      refine nextRecord_of_torn (hwf r List.mem_cons_self)
        (List.take_append_drop n (r.bytes checksumIEEE)) ?_
      intro hnil
      have := congrArg List.length hnil
      rw [List.length_drop, List.length_nil] at this
      omega

/-- The records of a segment file with the places of their encodings. -/
def placed (fd : Nat) : Nat → List Record → List Logged
  | _, [] => []
  | off, r :: rs =>
    ⟨r, fd, off + (r.bytes checksumIEEE).length⟩ ::
      placed fd (off + (r.bytes checksumIEEE).length) rs

theorem placed_records : (placed fd off rs).map (·.record) = rs := by
  induction rs generalizing off with
  | nil => rfl
  | cons r rs ih => simp [placed, ih]

theorem placed_concat : placed fd off (rs ++ [r]) = placed fd off rs ++
    [⟨r, fd, off + (rs.flatMap (Record.bytes checksumIEEE)).length +
      (r.bytes checksumIEEE).length⟩] := by
  induction rs generalizing off with
  | nil => simp [placed]
  | cons r' rs ih =>
    simp only [List.cons_append, placed, ih, List.flatMap_cons, List.length_append]
    congr 4
    omega

theorem fd_of_mem_placed (h : e ∈ placed fd off rs) : e.fd = fd := by
  induction rs generalizing off with
  | nil => cases h
  | cons r rs ih =>
    rcases List.mem_cons.mp h with rfl | h
    · rfl
    · exact ih h

theorem lt_of_mem_placed (h : e ∈ placed fd off rs) : off < e.stop := by
  induction rs generalizing off with
  | nil => cases h
  | cons r rs ih =>
    have hpos : 0 < (r.bytes checksumIEEE).length := List.length_pos_iff.mpr Record.bytes_ne_nil
    rcases List.mem_cons.mp h with rfl | h
    · simp only
      omega
    · have := ih h
      omega

/-- The records whose encodings end within the first `n` bytes are those that survive the cut. -/
theorem placed_filter (hm : m = off + n) :
    (placed fd off rs).filter (fun e => !(e.fd == fd && m < e.stop)) =
      placed fd off (cut n rs tail).1 := by
  induction rs generalizing off n with
  | nil => rfl
  | cons r rs ih =>
    simp only [placed, cut]
    split
    · rename_i h
      have hkeep : ¬m < off + (r.bytes checksumIEEE).length := by omega
      rw [List.filter_cons_of_pos (by
        simp only [beq_self_eq_true, Bool.true_and, decide_eq_false hkeep, Bool.not_false]), placed]
      congr 1
      exact ih (by omega)
    · rename_i h
      rw [List.filter_eq_nil_iff.mpr, placed]
      intro e he
      have hfd : e.fd = fd := fd_of_mem_placed (show e ∈ placed fd off (r :: rs) from he)
      have hstop : m < e.stop := by
        rcases List.mem_cons.mp he with rfl | he
        · simp only
          omega
        · have := lt_of_mem_placed he
          omega
      simp [hfd, hstop]

theorem cut_prefix_push : (cut n rs tail).1 <+: (cut n (rs ++ [r]) tail').1 := by
  induction rs generalizing n with
  | nil =>
    rw [cut]
    exact List.nil_prefix
  | cons r' rs ih =>
    simp only [List.cons_append, cut]
    split
    · exact (List.prefix_cons_inj r').mpr ih
    · exact List.nil_prefix

/-- A segment file cut to its first `n` bytes. -/
def Segment.truncate (n : Nat) (g : Segment) : Segment :=
  ⟨g.id, (cut n g.recs g.tail).1, (cut n g.recs g.tail).2⟩

theorem Segment.content_truncate {g : Segment} : (g.truncate n).content = g.content.take n :=
  take_eq_cut.symm

theorem Segment.WF.truncate {g : Segment} (h : g.WF) : (g.truncate n).WF where
  recs := fun r hr => h.recs r (cut_sublist.mem hr)
  tail := cut_tail h.recs h.tail

theorem DiskLayout.truncate (h : DiskLayout d removed closed active m)
    (hn : n ≤ active.content.length) :
    DiskLayout (d.truncate (removed.length + closed.length) n) removed closed (active.truncate n)
      (active.truncate n).content.length where
  disk := by
    rw [h.disk, Disk.truncate, diskOf_modify_active, diskOf]
    simp only [Segment.file, Segment.content_truncate, List.length_take, Nat.min_eq_left hn]
    rfl
  sorted := by simpa [Segment.truncate] using h.sorted
  listed := h.listed
  wf := by
    intro g hg
    rw [← List.append_assoc] at hg
    rcases List.mem_append.mp hg with hg | hg
    · exact h.wf g (by rw [← List.append_assoc]; exact List.mem_append_left _ hg)
    · cases List.mem_singleton.mp hg
      exact (h.wf active (by simp)).truncate
  synced := Nat.le_refl _

/-! ## The invariant -/

/-- The records of the segments with the places of their encodings. -/
def logFrom (fd : Nat) : List Segment → List Logged
  | [] => []
  | g :: gs => placed fd 0 g.recs ++ logFrom (fd + 1) gs

theorem logFrom_append : logFrom fd (gs ++ hs) = logFrom fd gs ++ logFrom (fd + gs.length) hs := by
  induction gs generalizing fd with
  | nil => rfl
  | cons g gs ih =>
    rw [List.cons_append, logFrom, logFrom, ih, List.append_assoc, List.length_cons]
    congr 3
    omega

theorem logFrom_concat :
    logFrom fd (gs ++ [g]) = logFrom fd gs ++ placed (fd + gs.length) 0 g.recs := by
  rw [logFrom_append, logFrom, logFrom, List.append_nil]

theorem logFrom_records : (logFrom fd gs).map (·.record) = gs.flatMap (·.recs) := by
  induction gs generalizing fd with
  | nil => rfl
  | cons g gs ih => rw [logFrom, List.map_append, placed_records, ih, List.flatMap_cons]

theorem fd_lt_of_mem_logFrom (h : e ∈ logFrom fd gs) : e.fd < fd + gs.length := by
  induction gs generalizing fd with
  | nil => cases h
  | cons g gs ih =>
    rw [List.length_cons]
    rcases List.mem_append.mp h with h | h
    · rw [fd_of_mem_placed h]
      omega
    · have := ih h
      omega

namespace CrashState

/-- The log is that of the segment files, and what was made durable lies in the closed segments and
in the synced part of the active one. -/
structure Inv (st : CrashState) (closed : List Segment) (active : Segment) (n : Nat) : Prop where
  layout : Layout st.store [] closed active n
  nextLSN : st.store.nextLSN < 2 ^ 64
  log : st.log = logFrom 0 (closed ++ [active])
  made : st.made.Sublist (closed.flatMap (·.recs) ++ (cut n active.recs active.tail).1)

variable {st st' : CrashState} {store : AppendFileStorage} {log : List Logged} {made : List Record}

theorem Inv.records (h : Inv st closed active n) :
    st.records = (closed ++ [active]).flatMap (·.recs) := by
  rw [CrashState.records, h.log, logFrom_records]

theorem Inv.recovered (h : Inv st closed active n) : Recovered st where
  replay := by
    rw [h.records, replay, h.layout.records]
    exact List.map_id _
  durable := by
    rw [h.records]
    refine h.made.trans ?_
    rw [List.flatMap_append, List.flatMap_singleton]
    exact (List.Sublist.refl _).append cut_sublist.sublist

theorem Inv.init : Inv (init segmentSize bufferSize) [] (.empty 1) 0 where
  layout := Layout.new
  nextLSN := newAppendStorageInDir_nextLSN
  log := rfl
  made := List.nil_sublist _

/-- In a synced file no record is cut off. -/
theorem Inv.of_synced (hlayout : Layout store [] closed active active.content.length)
    (hlsn : store.nextLSN < 2 ^ 64) (hlog : log = logFrom 0 (closed ++ [active]))
    (hmade : made.Sublist ((closed ++ [active]).flatMap (·.recs))) :
    Inv ⟨store, log, made⟩ closed active active.content.length where
  layout := hlayout
  nextLSN := hlsn
  log := hlog
  made := by
    rw [cut_all (by simp [Segment.content])]
    simpa using hmade

/-- A new segment behind closed ones. -/
theorem Inv.of_next {id : Nat} (hlayout : Layout store [] closed (.empty id) 0)
    (hlsn : store.nextLSN < 2 ^ 64) (hlog : log = logFrom 0 closed)
    (hmade : made.Sublist (closed.flatMap (·.recs))) :
    Inv ⟨store, log, made⟩ closed (.empty id) 0 where
  layout := hlayout
  nextLSN := hlsn
  log := by
    rw [hlog, logFrom_concat, Segment.empty, placed, List.append_nil]
  made := by
    rw [Segment.empty, cut, List.append_nil]
    exact hmade

/-- Opening a directory whose active segment is synced. -/
theorem Inv.reopen (h : DiskLayout d [] closed active active.content.length)
    (hid : active.id + 1 < 10 ^ 9) (hlog : log = logFrom 0 (closed ++ [active]))
    (hmade : made.Sublist ((closed ++ [active]).flatMap (·.recs))) :
    ∃ closed' active' n',
      Inv ⟨.newAppendStorageInDir d segmentSize bufferSize, log, made⟩ closed' active' n' := by
  rcases Layout.reopen h hid with h | h
  · exact ⟨closed, active, _, .of_synced h newAppendStorageInDir_nextLSN hlog hmade⟩
  · exact ⟨closed ++ [active], _, _, .of_next h newAppendStorageInDir_nextLSN hlog hmade⟩

/-- A rotation check after the log has been extended accordingly. -/
theorem Inv.rotated (h : Layout store [] closed active n)
    (hid : active.id + 1 < 10 ^ 9) (hseg : st.store.segmentID = active.id)
    (hlsn : store.nextLSN < 2 ^ 64) (hlog : log = logFrom 0 (closed ++ [active]))
    (hmade : st.made.Sublist (closed.flatMap (·.recs) ++ (cut n active.recs active.tail).1)) :
    ∃ closed' active' n',
      Inv (st.advance (store.rotated closed.length) log) closed' active' n' := by
  have hrot := h.rotated hid
  simp only [List.length_nil, Nat.zero_add] at hrot
  rcases hrot with heq | ⟨hrot, -⟩
  · refine ⟨closed, active, n, ?_, ?_, hlog, ?_⟩
    · simpa only [advance, heq] using h
    · simpa only [advance, heq] using hlsn
    · rw [advance, heq, if_pos (h.segmentID.trans hseg.symm)]
      exact hmade
  · refine ⟨closed ++ [active], _, _, .of_next hrot (by simpa using hlsn) hlog ?_⟩
    rw [if_neg, hlog, logFrom_records]
    rw [hrot.segmentID, hseg]
    exact Nat.succ_ne_self _

theorem Inv.append (h : Inv st closed active n) (hok : st.Safe (.append op key value))
    (hstep : st.step (.append op key value) = some st') :
    ∃ closed' active' n', Inv st' closed' active' n' := by
  obtain ⟨htorn, hfits, hid⟩ := hok
  have hfile : st.store.file = some closed.length := by
    simpa using h.layout.file
  have htail : active.tail = [] := by
    have hdata : st.store.disk.dataAt closed.length = active.content :=
      h.layout.dataAt (by simp)
    rw [tornTail, hfile, Option.getD_some, hdata,
      (h.layout.wf active (by simp)).readSegment] at htorn
    exact htorn
  rw [h.layout.segmentID] at hid
  simp only [step] at hstep
  cases henc : encodeRecord checksumIEEE op key value st.store.nextLSN with
  | error e =>
    rw [AppendFileStorage.append_run_error henc] at hstep
    cases hstep
    have hl := h.layout
    exact ⟨closed, active, n,
      ⟨⟨⟨hl.disk, hl.sorted, hl.listed, hl.wf, hl.synced⟩, hl.segmentID, hl.file,
        hl.writeBuffer⟩, Nat.mod_lt _ (by decide), h.log, h.made⟩⟩
  | ok encoded =>
    obtain ⟨rfl, hop⟩ := encodeRecord_eq_ok henc
    have hwf : Record.WF ⟨st.store.nextLSN, op, key, value⟩ := ⟨hop, h.nextLSN, hfits⟩
    rw [AppendFileStorage.append_run hfile henc, ← AppendFileStorage.rotated_flushed] at hstep
    simp only [hfile, Option.getD_some] at hstep
    cases hstep
    have hpush := h.layout.flushed_buffered htail hwf
    simp only [List.length_nil, Nat.zero_add] at hpush
    refine Inv.rotated hpush hid h.layout.segmentID (Nat.mod_lt _ (by decide)) ?_ ?_
    · rw [h.log, logFrom_concat, logFrom_concat, List.append_assoc, Segment.push, placed_concat]
      have hdata := hpush.dataAt_rotated hid
      simp only [List.length_nil, Nat.zero_add] at hdata ⊢
      rw [hdata, Segment.content_push htail, List.length_append, Segment.content, htail,
        List.append_nil]
    · refine h.made.trans ((List.Sublist.refl _).append ?_)
      exact cut_prefix_push.sublist

theorem Inv.crash (h : Inv st closed active n) (hid : active.id + 1 < 10 ^ 9)
    (hstep : st.step (.crash m segmentSize bufferSize) = some st') :
    ∃ closed' active' n', Inv st' closed' active' n' := by
  have hfile : st.store.file = some closed.length := by
    simpa using h.layout.file
  have hactive : st.store.disk[closed.length]? = some (active.file true n) := by
    have : (diskOf [] closed active n)[0 + closed.length]? = some (active.file true n) :=
      diskOf_active
    rwa [← h.layout.disk, Nat.zero_add] at this
  simp only [step, hfile, hactive, Option.bind_eq_bind, Option.bind_some] at hstep
  split at hstep
  · rename_i hm
    cases hstep
    have htrunc := h.layout.truncate hm.2
    simp only [List.length_nil, Nat.zero_add] at htrunc
    refine Inv.reopen htrunc hid ?_ ?_
    · rw [h.log, logFrom_concat, logFrom_concat, List.filter_append]
      congr 1
      · rw [List.filter_eq_self]
        intro e he
        have := fd_lt_of_mem_logFrom he
        simp
        omega
      · simp only [Nat.zero_add]
        exact placed_filter (Nat.zero_add m).symm
    · rw [List.flatMap_append, List.flatMap_singleton]
      exact h.made.trans ((List.Sublist.refl _).append (cut_mono hm.1).sublist)
  · cases hstep

theorem Inv.step (h : Inv st closed active n) (hok : st.Safe op) (hstep : st.step op = some st') :
    ∃ closed' active' n', Inv st' closed' active' n' := by
  have hfile : st.store.file = some closed.length := by
    simpa using h.layout.file
  have hsync := h.layout.synced_layout
  simp only [List.length_nil, Nat.zero_add] at hsync
  cases op with
  | append op key value => exact h.append hok hstep
  | sync =>
    simp only [CrashState.step, AppendFileStorage.syncLocked_run hfile] at hstep
    cases hstep
    exact ⟨closed, active, _, .of_synced hsync h.nextLSN h.log (h.records ▸ .refl _)⟩
  | rotate =>
    simp only [CrashState.step, AppendFileStorage.rotateIfNeededLocked_run hfile] at hstep
    cases hstep
    exact Inv.rotated h.layout (h.layout.segmentID ▸ hok) h.layout.segmentID h.nextLSN h.log h.made
  | reopen segmentSize bufferSize =>
    simp only [CrashState.step, AppendFileStorage.closeLocked_run hfile] at hstep
    cases hstep
    exact Inv.reopen hsync.toDiskLayout (h.layout.segmentID ▸ hok) h.log (h.records ▸ .refl _)
  | crash n segmentSize bufferSize => exact h.crash (h.layout.segmentID ▸ hok) hstep

/-- In every run in which no append goes to a segment file with a torn tail, and records and segment
numbers fit, replay returns what was appended and not cut off, everything durable included. -/
theorem recovered_of_safe
    (hok : System.Guarded step Safe (init segmentSize bufferSize) ops)
    (hrun : System.run step (init segmentSize bufferSize) ops = some st) : Recovered st := by
  have hinv : ∃ closed active n, Inv st closed active n :=
    System.run_invariant_of_guarded (I := fun _ st => ∃ closed active n, Inv st closed active n)
      ⟨[], _, 0, .init⟩ (fun ⟨_, _, _, h⟩ hok hs => h.step hok hs) hok hrun
  obtain ⟨closed, active, n, h⟩ := hinv
  exact h.recovered

/-- A crash leaves ten bytes of the second record; the third one goes to a new segment. -/
theorem recovered_of_safe_torn : ∃ st ∈ System.run step (init 67108864 65536)
    [.append opPut [97] [49], .sync, .append opPut [98] [50, 50, 50, 50], .crash 37 67108864 65536,
      .reopen 30 65536, .append opPut [99] [51], .sync], Recovered st :=
  ⟨Option.get _ (by decide +kernel), Option.get_mem _,
    recovered_of_safe (by decide +kernel) (Option.some_get _).symm⟩

/-- The same crash, but the third record is appended behind the torn one: it is synced, and replay
does not return it. -/
theorem append_behind_torn_tail_lost : ∃ st ∈ System.run step (init 67108864 65536)
    [.append opPut [97] [49], .sync, .append opPut [98] [50, 50, 50, 50], .crash 37 67108864 65536,
      .append opPut [99] [51], .sync],
    ⟨2, opPut, [99], [51]⟩ ∈ st.made ∧ replay st.store = [⟨1, opPut, [97], [49]⟩] ∧
      ¬Recovered st := by
  decide +kernel

end CrashState
end ChudDB.Wal
