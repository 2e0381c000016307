import ChudDB.Lib.Outcome
import ChudDB.Lib.Run
import ChudDB.Wal.Log

/-! # Appends that fail

`Append` puts the record into the write buffer before it makes the calls that can fail, and takes it
back on no path. A record whose `Append` has failed in the `Write` of the active file is written by
the next `Sync`, and one whose `Append` has failed in a rotation is in the file already, so that a
replay returns it (`failed_append_is_replayed`). In runs in which no call fails once a record is in
the buffer of an open storage, a replay returns no record but those whose `Append` has succeeded
(`replay_subperm_acked`). -/

namespace ChudDB.Wal
open Lib

/-- A storage, and the records of the appends that returned an LSN, oldest first. -/
structure AppendRun where
  store : AppendFileStorage
  acked : List Record

inductive AppendRunOp where
  | append (io : Faults) (op : Op) (key value : Bytes)
  | sync (io : Faults)
  | rotate (io : Faults)
  | purge (checkpointLSN : Nat)
  | close (io : Faults)
  /-- A new process on the directory. What the old one had in its buffer is gone. -/
  | reopen (segmentSize writeBufferSize : Int)

namespace AppendRun

/-- A storage in an empty directory. -/
def init (segmentSize writeBufferSize : Int) : AppendRun :=
  ⟨.newAppendStorageInDir [] segmentSize writeBufferSize, []⟩

def append (st : AppendRun) (io : Faults) (op : Op) (key value : Bytes) : AppendRun :=
  match (AppendFileStorage.append io op key value).run st.store with
  | .ok lsn store => ⟨store, st.acked ++ [⟨lsn, op, key, value⟩]⟩
  | .error _ store => { st with store }

def step : System AppendRun AppendRunOp := fun st op =>
  match op with
  | .append io op key value => some (st.append io op key value)
  | .sync io => some { st with store := st.store.exec (AppendFileStorage.syncLocked io) }
  | .rotate io => some { st with store := st.store.exec (AppendFileStorage.rotateIfNeededLocked io) }
  | .purge checkpointLSN => some { st with store := st.store.purgeUpTo checkpointLSN }
  | .close io => some { st with store := st.store.exec (AppendFileStorage.closeLocked io) }
  | .reopen segmentSize writeBufferSize =>
    some { st with store := .newAppendStorageInDir st.store.disk segmentSize writeBufferSize }

end AppendRun

namespace AppendFileStorage

/-- The size of the active segment file. -/
def activeSize (s : AppendFileStorage) : Nat :=
  (s.file.map fun fd => (s.disk.dataAt fd).length).getD 0

/-- No call fails that `Append` makes for a record of `n` bytes: the `Write` and the `Stat`, and
those of the rotation when the record fills the segment. -/
def Spared (s : AppendFileStorage) (io : Faults) (n : Nat) : Prop :=
  io.write = none ∧ io.stat = false ∧
    (s.segmentSize ≤ (s.activeSize + s.writeBuffer.length + n : Nat) →
      io.sync = false ∧ io.close = false ∧ io.readDir = false ∧ io.openFile = false)

instance {s : AppendFileStorage} : Decidable (s.Spared io n) :=
  inferInstanceAs (Decidable (_ ∧ _ ∧ (_ → _)))

end AppendFileStorage

/-- The condition on an append: the storage has no active file, or `EncodeRecord` rejects the
record, or the length of the record fits its field and no call fails. -/
def AppendRun.Safe (st : AppendRun) : AppendRunOp → Prop
  | .append io op key value =>
    st.store.file = none ∨ (op ≠ opPut ∧ op ≠ opDelete) ∨ (op = opDelete ∧ value ≠ []) ∨
      (recordHeaderSize + key.length + value.length < 2 ^ 32 ∧
        st.store.Spared io (recordHeaderSize + key.length + value.length))
  | _ => True

instance {st : AppendRun} : DecidablePred st.Safe
  | .append .. => inferInstanceAs (Decidable (_ ∨ _ ∨ _ ∨ _))
  | .sync _ | .rotate _ | .purge _ | .close _ | .reopen .. => isTrue trivial

/-! ## The records in a directory -/

namespace SegmentFile

/-- The records that a reader of the file returns. -/
def records (f : SegmentFile) : List Record := (readSegment checksumIEEE f.data).1

/-- The file consists of complete records. -/
def Whole (f : SegmentFile) : Prop :=
  ∃ rs : List Record, (∀ r ∈ rs, r.WF) ∧ f.data = rs.flatMap (Record.bytes checksumIEEE)

theorem records_eq {f : SegmentFile} (hwf : ∀ r ∈ rs, r.WF)
    (h : f.data = rs.flatMap (Record.bytes checksumIEEE)) : f.records = rs := by
  have hread := readSegment_eq hwf (@nextRecord_nil checksumIEEE)
  rw [List.append_nil, ← h] at hread
  rw [records, hread]

theorem Whole.push {f f' : SegmentFile} (h : f.Whole) (hr : r.WF)
    (hdata : f'.data = f.data ++ Record.bytes checksumIEEE r) :
    f'.Whole ∧ f'.records = f.records ++ [r] := by
  obtain ⟨rs, hwf, hrs⟩ := h
  have hwf' : ∀ q ∈ rs ++ [r], q.WF := by
    intro q hq
    rcases List.mem_append.mp hq with hq | hq
    · exact hwf q hq
    · cases List.mem_singleton.mp hq
      exact hr
  have hrs' : f'.data = (rs ++ [r]).flatMap (Record.bytes checksumIEEE) := by
    simp [hdata, hrs]
  exact ⟨⟨_, hwf', hrs'⟩, by rw [records_eq hwf' hrs', records_eq hwf hrs]⟩

end SegmentFile

namespace Disk

variable {d : Disk}

/-- The records of all files in the directory, in the order of creation. -/
def held (d : Disk) : List Record := (d.filter (·.linked)).flatMap (·.records)

/-- The files consist of complete records, and no two files in the directory share a name. -/
structure Clean (d : Disk) : Prop where
  whole : ∀ f ∈ d, f.Whole
  nodup : d.names.Nodup

/-- A replay reads every file in the directory at most once. -/
theorem Clean.records_subperm (h : d.Clean) : d.records.Subperm d.held := by
  have hheld : d.held = d.names.flatMap fun id => (readSegment checksumIEEE (d.data id)).1 := by
    rw [held, names, List.flatMap_map]
    apply List.flatMap_congr
    intro f hf
    obtain ⟨hf, hl⟩ := List.mem_filter.mp hf
    rw [data_eq h.nodup hf hl, SegmentFile.records]
  rw [records, hheld]
  exact ((List.perm_insertionSort _ _).flatMap_right _).subperm.trans
    (List.filter_sublist.flatMap _).subperm

theorem held_append_cons (xs ys : Disk) (f : SegmentFile) :
    (xs ++ f :: ys).held = held xs ++ ((if f.linked then f.records else []) ++ held ys) := by
  cases h : f.linked <;> simp [held, h]

theorem names_append_cons (xs ys : Disk) (f : SegmentFile) :
    (xs ++ f :: ys).names = names xs ++ ((if f.linked then [f.id] else []) ++ names ys) := by
  cases h : f.linked <;> simp [names, h]

/-- A change of one file that keeps its name and adds at most the records `added`. -/
theorem Clean.modify (h : d.Clean) (fd : Nat) (g : SegmentFile → SegmentFile)
    (added : List Record) (hid : ∀ f, (g f).id = f.id)
    (hlinked : ∀ f, (g f).linked = true → f.linked = true) (hwhole : ∀ f, f.Whole → (g f).Whole)
    (hrecords : ∀ f, f.Whole → (g f).records.Subperm (f.records ++ added)) :
    Clean (d.modify fd g) ∧ (held (d.modify fd g)).Subperm (d.held ++ added) := by
  rcases modify_eq_self_or_split d fd g with heq | ⟨xs, f, ys, rfl, heq⟩
  · rw [heq]
    exact ⟨h, (List.sublist_append_left _ _).subperm⟩
  have hf : f.Whole := h.whole f (by simp)
  rw [heq]
  refine ⟨⟨fun q hq => ?_, ?_⟩, ?_⟩
  · rcases List.mem_append.mp hq with hq | hq
    · exact h.whole q (List.mem_append_left _ hq)
    rcases List.mem_cons.mp hq with rfl | hq
    · exact hwhole f hf
    · exact h.whole q (List.mem_append_right _ (List.mem_cons_of_mem _ hq))
  · refine h.nodup.sublist ?_
    rw [names_append_cons, names_append_cons]
    refine (List.Sublist.refl _).append (List.Sublist.append ?_ (List.Sublist.refl _))
    rw [hid]
    split
    · rename_i hl
      rw [if_pos (hlinked f hl)]
    · exact List.nil_sublist _
  · have hone : (if (g f).linked then (g f).records else []).Subperm
        ((if f.linked then f.records else []) ++ added) := by
      split
      · rename_i hl
        rw [if_pos (hlinked f hl)]
        exact hrecords f hf
      · exact List.nil_subperm
    rw [held_append_cons, held_append_cons, List.append_assoc, List.append_assoc]
    refine (List.subperm_append_left _).mpr (((List.subperm_append_right _).mpr hone).trans ?_)
    rw [List.append_assoc]
    exact ((List.perm_append_left_iff _).mpr List.perm_append_comm).subperm

theorem Clean.write (h : d.Clean) (hr : r.WF) :
    Clean (d.write fd (Record.bytes checksumIEEE r)) ∧
      (held (d.write fd (Record.bytes checksumIEEE r))).Subperm (d.held ++ [r]) := by
  refine h.modify fd _ [r] (fun _ => rfl) (fun _ hl => hl) (fun f hf => (hf.push hr rfl).1)
    fun f hf => ?_
  rw [(hf.push hr rfl).2]

theorem Clean.fsync (h : d.Clean) : Clean (d.fsync fd) ∧ (held (d.fsync fd)).Subperm d.held := by
  have hmodify := h.modify fd (fun f => { f with synced := f.data.length }) [] (fun _ => rfl)
    (fun _ hl => hl) (fun _ hf => hf) fun f _ => by
      rw [List.append_nil, SegmentFile.records, SegmentFile.records]
  rwa [List.append_nil] at hmodify

theorem Clean.remove {id : Nat} (h : d.Clean) :
    Clean (d.remove id) ∧ (held (d.remove id)).Subperm d.held := by
  unfold Disk.remove
  split
  · rename_i fd _
    have hmodify := h.modify fd (fun f => { f with linked := false }) [] (fun _ => rfl)
      nofun (fun _ hf => hf) fun f _ => by
        rw [List.append_nil, SegmentFile.records, SegmentFile.records]
    rwa [List.append_nil] at hmodify
  · exact ⟨h, List.Subperm.refl _⟩

theorem Clean.openFile {id : Nat} (h : d.Clean) :
    Clean (d.openFile id).2 ∧ (held (d.openFile id).2).Subperm d.held := by
  unfold Disk.openFile
  split
  · exact ⟨h, List.Subperm.refl _⟩
  rename_i hnone
  rw [lookup, List.findIdx?_eq_none_iff] at hnone
  refine ⟨⟨fun f hf => ?_, ?_⟩, ?_⟩
  · rcases List.mem_append.mp hf with hf | hf
    · exact h.whole f hf
    · cases List.mem_singleton.mp hf
      exact ⟨[], fun _ hr => (List.not_mem_nil hr).elim, rfl⟩
  · rw [names_append_cons]
    refine List.nodup_append.mpr ⟨h.nodup, by simp [names], ?_⟩
    rintro _ hmem _ hid rfl
    obtain ⟨f, hf, rfl⟩ := List.mem_map.mp hmem
    obtain ⟨hf, hl⟩ := List.mem_filter.mp hf
    have hne := hnone f hf
    simp [names] at hid
    simp [hl, hid] at hne
  · have hempty : SegmentFile.records ⟨id, [], 0, true⟩ = [] := rfl
    rw [held_append_cons, if_pos rfl, hempty, List.nil_append]
    exact (List.append_nil d.held).symm ▸ List.Subperm.refl _

theorem length_dataAt_write_le :
    ((d.write fd b).dataAt fd).length ≤ (d.dataAt fd).length + b.length := by
  rw [dataAt, dataAt, write, List.getElem?_modify]
  cases d[fd]? <;> simp

end Disk

/-! ## What the operations keep -/

/-- A replay of the directory returns records of the given appends only, now and later: the buffer
of an open storage is empty. -/
structure Kept (acked : List Record) (s : AppendFileStorage) : Prop where
  clean : s.disk.Clean
  held : s.disk.held.Subperm acked
  buffer : s.file ≠ none → s.writeBuffer = []
  lsn : s.nextLSN < 2 ^ 64

namespace Kept

open AppendFileStorage
variable {s : AppendFileStorage} {acked : List Record} {io : Faults}

theorem replay_subperm (h : Kept acked s) : (replay s).Subperm acked := by
  rw [replay, show s.disk.records.map recordToEntry = s.disk.records from List.map_id _]
  exact h.clean.records_subperm.trans h.held

theorem mono (h : Kept acked s) (hsub : acked.Subperm acked') : Kept acked' s :=
  ⟨h.clean, h.held.trans hsub, h.buffer, h.lsn⟩

theorem fsync (h : Kept acked s) :
    Kept acked { s with disk := s.disk.fsync fd, durableLSN := n } :=
  ⟨h.clean.fsync.1, h.clean.fsync.2.trans h.held, h.buffer, h.lsn⟩

theorem close (h : Kept acked s) : Kept acked { s with file := none } :=
  ⟨h.clean, h.held, fun hne => absurd rfl hne, h.lsn⟩

theorem openSegment (hclean : s.disk.Clean) (hheld : s.disk.held.Subperm acked)
    (hlsn : s.nextLSN < 2 ^ 64) (segment : Nat) : Kept acked (s.openSegment segment) :=
  ⟨hclean.openFile.1, hclean.openFile.2.trans hheld, fun _ => rfl, hlsn⟩

/-- The buffer of an open storage is empty, so a flush writes nothing. -/
theorem flushLocked (h : Kept acked s) :
    Outcome (flushLocked io) s (fun _ s' => s' = s) (fun s' => s' = s ∧ s.file = none) := by
  unfold AppendFileStorage.flushLocked
  apply Outcome.get_bind
  split
  · rfl
  rename_i hne
  split
  · rename_i hfile
    exact ⟨rfl, hfile⟩
  · rename_i hfile _
    exact absurd (by rw [h.buffer (by simp [hfile])]; rfl) hne
  · rename_i hfile _
    exact absurd (by rw [h.buffer (by simp [hfile])]; rfl) hne

theorem syncLocked (h : Kept acked s) :
    Outcome (syncLocked io) s (fun _ => Kept acked) (Kept acked) := by
  unfold AppendFileStorage.syncLocked
  refine (h.flushLocked.mono (fun _ _ heq => heq) (fun s' herr => herr.1 ▸ h)).bind ?_
  rintro _ s' rfl
  apply Outcome.get_bind
  split
  · exact h
  · split
    · exact h
    · exact h.fsync

theorem closeLocked (h : Kept acked s) :
    Outcome (closeLocked io) s (fun _ => Kept acked) (Kept acked) := by
  unfold AppendFileStorage.closeLocked
  refine h.syncLocked.bind fun _ s' h' => Outcome.get_bind ?_
  split
  · exact h'
  refine Outcome.set_bind ?_
  split
  · exact h'.close
  · exact h'.close

/-- A rotation fails only because of a call that it makes. -/
theorem rotateIfNeededLocked (h : Kept acked s) :
    Outcome (rotateIfNeededLocked io) s (fun _ => Kept acked)
      (fun s' => Kept acked s' ∧ ¬ s.Spared io 0) := by
  unfold AppendFileStorage.rotateIfNeededLocked
  apply Outcome.get_bind
  split
  · exact h
  rename_i fd hfile
  have hempty : s.writeBuffer = [] := h.buffer (by simp [hfile])
  refine (h.flushLocked.mono (fun _ _ heq => heq)
    (fun s' herr => by simp [hfile] at herr)).bind ?_
  rintro _ s' rfl
  refine Outcome.throw_if (fun hstat => ⟨h, fun hio => ?_⟩) fun _ => Outcome.get_bind ?_
  · rw [hio.2.1] at hstat
    cases hstat
  split
  · exact h
  rename_i hfull
  -- The segment is full, so `Spared` covers the calls of the rotation.
  have hsize : s'.segmentSize ≤ (s'.activeSize + s'.writeBuffer.length + 0 : Nat) := by
    rw [activeSize, hfile, hempty]
    simpa using hfull
  have hspared : s'.Spared io 0 →
      io.sync = false ∧ io.close = false ∧ io.readDir = false ∧ io.openFile = false :=
    fun hio => hio.2.2 hsize
  refine Outcome.throw_if (fun hsync => ⟨h, fun hio => ?_⟩) fun _ => Outcome.set_bind ?_
  · simp [(hspared hio).1] at hsync
  refine Outcome.throw_if (fun hclose => ⟨h.fsync, fun hio => ?_⟩) fun _ => Outcome.modify_bind ?_
  · simp [(hspared hio).2.1] at hclose
  refine Outcome.throw_if (fun hdir => ⟨h.fsync.close, fun hio => ?_⟩) fun _ => ?_
  · simp [(hspared hio).2.2.1] at hdir
  refine Outcome.throw_if (fun hopen => ⟨h.fsync.close, fun hio => ?_⟩) fun _ => ?_
  · simp [(hspared hio).2.2.2] at hopen
  have hsynced : Kept acked { s' with disk := s'.disk.fsync fd, durableLSN := s'.appendedLSN } :=
    h.fsync
  exact openSegment hsynced.clean hsynced.held hsynced.lsn _

/-- The record is in the file of an open storage before the calls of the rotation are made. -/
theorem flushed_buffered (h : Kept acked s) (hfile : s.file = some fd)
    (hr : Record.WF ⟨s.nextLSN, op, key, value⟩) :
    Kept (acked ++ [⟨s.nextLSN, op, key, value⟩])
      ((s.buffered (Record.bytes checksumIEEE ⟨s.nextLSN, op, key, value⟩)).flushed fd) where
  clean := by
    rw [flushed, buffered, h.buffer (by simp [hfile])]
    exact (h.clean.write hr).1
  held := by
    rw [flushed, buffered, h.buffer (by simp [hfile])]
    exact (h.clean.write hr).2.trans ((List.subperm_append_right _).mpr h.held)
  buffer _ := rfl
  lsn := Nat.mod_lt _ (by decide)

theorem spared_flushed_buffered (hfile : s.file = some fd) (hio : s.Spared io encoded.length) :
    ((s.buffered encoded).flushed fd).Spared io 0 := by
  refine ⟨hio.1, hio.2.1, fun hfull => hio.2.2 (hfull.trans ?_)⟩
  have hwrite : (((s.buffered encoded).flushed fd).disk.dataAt fd).length ≤
      (s.disk.dataAt fd).length + (s.writeBuffer ++ encoded).length :=
    Disk.length_dataAt_write_le
  have hactive : ((s.buffered encoded).flushed fd).activeSize =
      (((s.buffered encoded).flushed fd).disk.dataAt fd).length := by
    rw [activeSize, show ((s.buffered encoded).flushed fd).file = some fd from hfile]
    rfl
  have hbuffer : ((s.buffered encoded).flushed fd).writeBuffer.length = 0 := rfl
  rw [List.length_append] at hwrite
  rw [hactive, hbuffer, activeSize, hfile]
  simp only [Option.map_some, Option.getD_some]
  omega

/-- The rotation check of an `Append` succeeds with its record, or fails without. -/
def Rotates (acked : List Record) (r : Record) (io : Faults) (s : AppendFileStorage) : Prop :=
  Outcome (AppendFileStorage.rotateIfNeededLocked io) s (fun _ => Kept (acked ++ [r])) (Kept acked)

/-- `Append`, from the state in which the record is in the buffer. -/
theorem append_of_buffered (h : Kept acked s)
    (hbuffered : ∀ encoded, encodeRecord checksumIEEE op key value s.nextLSN = .ok encoded →
      Rotates acked ⟨s.nextLSN, op, key, value⟩ io (s.buffered encoded) ∧
      Outcome (AppendFileStorage.flushLocked io) (s.buffered encoded)
        (fun _ => Rotates acked ⟨s.nextLSN, op, key, value⟩ io) (Kept acked)) :
    Outcome (append io op key value) s
      (fun lsn => Kept (acked ++ [⟨lsn, op, key, value⟩])) (Kept acked) := by
  unfold AppendFileStorage.append
  refine Outcome.get_bind (Outcome.modify_bind ?_)
  split
  · exact ⟨h.clean, h.held, h.buffer, Nat.mod_lt _ (by decide)⟩
  rename_i encoded hencoded
  obtain ⟨hrotates, hflush⟩ := hbuffered encoded hencoded
  refine Outcome.modify_bind (Outcome.get_bind ?_)
  split
  · exact hflush.bind fun _ s' hrotates' => Outcome.bind hrotates' fun _ _ h' => h'
  · exact Outcome.bind hrotates fun _ _ h' => h'

theorem append_open (h : Kept acked s) (hfile : s.file = some fd)
    (hfits : recordHeaderSize + key.length + value.length < 2 ^ 32)
    (hio : s.Spared io (recordHeaderSize + key.length + value.length)) :
    Outcome (append io op key value) s
      (fun lsn => Kept (acked ++ [⟨lsn, op, key, value⟩])) (Kept acked) := by
  refine h.append_of_buffered fun encoded hencoded => ?_
  obtain ⟨rfl, hop⟩ := encodeRecord_eq_ok hencoded
  have hkept := h.flushed_buffered hfile ⟨hop, h.lsn, hfits⟩
  have hlen : (Record.bytes checksumIEEE ⟨s.nextLSN, op, key, value⟩).length =
      recordHeaderSize + key.length + value.length := Record.length_bytes
  have hspared := spared_flushed_buffered hfile (hlen ▸ hio)
  -- A rotation check flushes first, so it does not matter whether `Append` has flushed already.
  have hrotates : ∀ s' : AppendFileStorage, s'.file = some fd → s'.flushed fd =
      (s.buffered (Record.bytes checksumIEEE ⟨s.nextLSN, op, key, value⟩)).flushed fd →
      Rotates acked ⟨s.nextLSN, op, key, value⟩ io s' := by
    intro s' hfile' hflushed
    rw [Rotates, Outcome, rotateIfNeededLocked_run_flushed hfile' hio.1, hflushed]
    exact hkept.rotateIfNeededLocked.mono (fun _ _ h' => h') fun _ h' => absurd hspared h'.2
  have hfile' : (s.buffered (Record.bytes checksumIEEE ⟨s.nextLSN, op, key, value⟩)).file =
      some fd := hfile
  refine ⟨hrotates _ hfile' rfl, ?_⟩
  rw [Outcome, flushLocked_run hfile' hio.1]
  exact hrotates _ hfile' flushed_flushed

/-- Without an active file the record stays in the buffer for good. -/
theorem append_closed (h : Kept acked s) (hfile : s.file = none) :
    Outcome (append io op key value) s
      (fun lsn => Kept (acked ++ [⟨lsn, op, key, value⟩])) (Kept acked) := by
  refine h.append_of_buffered fun encoded _ => ?_
  have hbuffered : Kept acked (s.buffered encoded) :=
    ⟨h.clean, h.held, fun hne => absurd hfile hne, Nat.mod_lt _ (by decide)⟩
  have hrotates : Rotates acked ⟨s.nextLSN, op, key, value⟩ io (s.buffered encoded) :=
    hbuffered.rotateIfNeededLocked.mono
      (fun _ _ h' => h'.mono (List.sublist_append_left _ _).subperm) fun _ h' => h'.1
  exact ⟨hrotates, hbuffered.flushLocked.mono (fun _ _ heq => heq ▸ hrotates)
    fun _ herr => herr.1 ▸ hbuffered⟩

theorem append_rejected (h : Kept acked s)
    (hop : (op ≠ opPut ∧ op ≠ opDelete) ∨ (op = opDelete ∧ value ≠ [])) :
    Outcome (append io op key value) s
      (fun lsn => Kept (acked ++ [⟨lsn, op, key, value⟩])) (Kept acked) := by
  refine h.append_of_buffered fun encoded hencoded => ?_
  unfold encodeRecord at hencoded
  split at hencoded
  · cases hencoded
  split at hencoded
  · cases hencoded
  rename_i hknown hempty
  rcases hop with hop | ⟨hdelete, hvalue⟩
  · exact absurd hop hknown
  · exact absurd ⟨hdelete, fun hlen => hvalue (List.eq_nil_of_length_eq_zero hlen)⟩ hempty

theorem purgeUpTo (h : Kept acked s) : Kept acked (s.purgeUpTo checkpointLSN) := by
  have hpurge : ∀ (ids : List Nat) (d : Disk), d.Clean → d.held.Subperm acked →
      (purgeSegments s.segmentID checkpointLSN ids d).Clean ∧
        (purgeSegments s.segmentID checkpointLSN ids d).held.Subperm acked := by
    intro ids
    induction ids with
    | nil => exact fun d hclean hheld => ⟨hclean, hheld⟩
    | cons id ids ih =>
      intro d hclean hheld
      rw [purgeSegments]
      split
      · exact ih d hclean hheld
      split
      · exact ⟨hclean, hheld⟩
      · exact ih _ hclean.remove.1 (hclean.remove.2.trans hheld)
  obtain ⟨hclean, hheld⟩ := hpurge s.disk.listSegments s.disk h.clean h.held
  exact ⟨hclean, hheld, h.buffer, h.lsn⟩

theorem newAppendStorageInDir {d : Disk} (hclean : d.Clean) (hheld : d.held.Subperm acked)
    (segmentSize writeBufferSize : Int) :
    Kept acked (newAppendStorageInDir d segmentSize writeBufferSize) := by
  unfold AppendFileStorage.newAppendStorageInDir
  split
  · exact openSegment hclean hheld (Nat.one_lt_two_pow (by decide)) 1
  have hlsn : ∀ n, (if n > 0 then (n + 1) % 2 ^ 64 else 1) < 2 ^ 64 := by
    intro n
    split
    · exact Nat.mod_lt _ (by decide)
    · decide
  dsimp only
  split
  · exact openSegment hclean hheld (hlsn _) _
  · exact openSegment hclean hheld (hlsn _) _

end Kept

/-! ## Runs -/

namespace AppendRun

variable {st st' : AppendRun} {io : Faults}

theorem kept_exec {m : StorageM Unit}
    (h : Outcome m st.store (fun _ => Kept st.acked) (Kept st.acked)) :
    Kept st.acked (st.store.exec m) := by
  unfold AppendFileStorage.exec
  cases hrun : m.run st.store with
  | ok _ store => exact h.of_ok hrun
  | error _ store => exact h.of_error hrun

theorem kept_append (h : Outcome (AppendFileStorage.append io op key value) st.store
      (fun lsn => Kept (st.acked ++ [⟨lsn, op, key, value⟩])) (Kept st.acked)) :
    Kept (st.append io op key value).acked (st.append io op key value).store := by
  unfold append
  cases hrun : (AppendFileStorage.append io op key value).run st.store with
  | ok lsn store => exact h.of_ok hrun
  | error _ store => exact h.of_error hrun

theorem kept_step (h : Kept st.acked st.store) (hsafe : st.Safe op)
    (hstep : step st op = some st') : Kept st'.acked st'.store := by
  cases op with
  | append io op key value =>
    cases hstep
    apply kept_append
    rcases hsafe with hfile | hop | hop | ⟨hfits, hio⟩
    · exact h.append_closed hfile
    · exact h.append_rejected (.inl hop)
    · exact h.append_rejected (.inr hop)
    · cases hfile : st.store.file with
      | none => exact h.append_closed hfile
      | some fd => exact h.append_open hfile hfits hio
  | sync io =>
    cases hstep
    exact kept_exec h.syncLocked
  | rotate io =>
    cases hstep
    exact kept_exec (h.rotateIfNeededLocked.mono (fun _ _ h' => h') fun _ h' => h'.1)
  | purge checkpointLSN =>
    cases hstep
    exact h.purgeUpTo
  | close io =>
    cases hstep
    exact kept_exec h.closeLocked
  | reopen segmentSize writeBufferSize =>
    cases hstep
    exact Kept.newAppendStorageInDir h.clean h.held segmentSize writeBufferSize

theorem kept_init (segmentSize writeBufferSize : Int) :
    Kept (init segmentSize writeBufferSize).acked (init segmentSize writeBufferSize).store :=
  Kept.newAppendStorageInDir ⟨fun _ hf => (List.not_mem_nil hf).elim, List.nodup_nil⟩
    (List.Subperm.refl _) segmentSize writeBufferSize

/-- Whatever calls fail, each record that a replay returns is the record of an append of its own
that succeeded: an append that failed has left none. A record that an earlier process failed to
append can be appended again under the same LSN, so the records are counted. -/
theorem replay_subperm_acked (hsafe : step.Guarded Safe (init segmentSize writeBufferSize) ops)
    (h : step.run (init segmentSize writeBufferSize) ops = some st) :
    (replay st.store).Subperm st.acked := by
  have hkept : Kept st.acked st.store :=
    System.run_invariant_of_guarded (I := fun _ st => Kept st.acked st.store)
      (kept_init segmentSize writeBufferSize)
      (fun hI hok hstep => kept_step hI hok hstep) hsafe h
  exact hkept.replay_subperm

/-- An append succeeds, one is rejected, and one fails because the storage is closed. -/
def failingRun : List AppendRunOp :=
  [.append noFaults opPut [107] [118], .sync { noFaults with sync := true },
    .append noFaults opDelete [107] [118], .close noFaults,
    .append { noFaults with write := some 3 } opPut [107] [119], .reopen 64 1]

def afterFailingRun : AppendRun := (step.run (init 64 1) failingRun).get (by decide +kernel)

theorem replay_subperm_acked_failingRun :
    afterFailingRun.acked = [⟨1, opPut, [107], [118]⟩] ∧
      (replay afterFailingRun.store).Subperm afterFailingRun.acked :=
  ⟨by decide +kernel, replay_subperm_acked (by decide +kernel : step.Guarded Safe _ failingRun)
    (Option.some_get _).symm⟩

/-- The first `Write` fails and the next `Sync` writes the record; the second append fails when the
next segment cannot be opened. Both records are replayed by the next process. -/
theorem failed_append_is_replayed :
    (step.run (init 40 65536) [.append { noFaults with write := some 0 } opPut [107] [118],
      .sync noFaults, .append { noFaults with openFile := true } opDelete [107] [],
      .reopen 40 65536]).map (fun st => (st.acked, replay st.store)) =
        some ([], [⟨1, opPut, [107], [118]⟩, ⟨2, opDelete, [107], []⟩]) := by
  decide +kernel

end AppendRun

end ChudDB.Wal
