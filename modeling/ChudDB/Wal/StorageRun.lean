import ChudDB.Wal.Storage
import ChudDB.Wal.RecordLemmas

/-! # What the storage operations compute

Without faults and with an open active segment every operation succeeds. Each theorem gives the
resulting state as a plain function of the state before, so that later proofs never look at the
monadic code again. -/

namespace ChudDB.Wal
open Lib

namespace Disk

@[simp] theorem write_nil (d : Disk) : d.write fd [] = d := by
  unfold write
  apply List.ext_getElem?
  intro i
  rw [List.getElem?_modify]
  cases d[i]? with
  | none => rfl
  | some f => by_cases h : fd = i <;> simp [h]

end Disk

namespace AppendFileStorage

variable {s : AppendFileStorage}

/-- The state after the write buffer has been written out. -/
def flushed (s : AppendFileStorage) (fd : Nat) : AppendFileStorage :=
  { s with disk := s.disk.write fd s.writeBuffer, writeBuffer := [] }

/-- The state after `Sync`. -/
def synced (s : AppendFileStorage) (fd : Nat) : AppendFileStorage :=
  { s.flushed fd with
    disk := (s.flushed fd).disk.fsync fd
    durableLSN := s.appendedLSN }

/-- The state after a rotation check: a new segment when the active one has reached its size. -/
def rotated (s : AppendFileStorage) (fd : Nat) : AppendFileStorage :=
  if (((s.flushed fd).disk.dataAt fd).length : Int) < s.segmentSize then s.flushed fd
  else (s.synced fd).openSegment (s.synced fd).disk.nextSegmentID

/-- The state in which `Append` has put the encoded record into the buffer. -/
def buffered (s : AppendFileStorage) (encoded : Bytes) : AppendFileStorage :=
  { s with
    nextLSN := (s.nextLSN + 1) % 2 ^ 64
    writeBuffer := s.writeBuffer ++ encoded
    appendedLSN := s.nextLSN }

theorem flushed_flushed : (s.flushed fd).flushed fd = s.flushed fd := by
  simp [flushed]

@[simp] theorem noFaults_write : noFaults.write = none := rfl
@[simp] theorem noFaults_stat : noFaults.stat = false := rfl
@[simp] theorem noFaults_sync : noFaults.sync = false := rfl
@[simp] theorem noFaults_close : noFaults.close = false := rfl
@[simp] theorem noFaults_readDir : noFaults.readDir = false := rfl
@[simp] theorem noFaults_openFile : noFaults.openFile = false := rfl

theorem flushLocked_run (h : s.file = some fd) (hio : io.write = none) :
    (flushLocked io).run s = .ok () (s.flushed fd) := by
  obtain ⟨disk, _, _, _, file, buf, _, _, _⟩ := s
  cases h
  cases buf with
  | nil => simp [flushLocked, flushed]
  | cons b buf =>
    simp only [flushLocked, EStateM.run_bind, EStateM.run_get, hio]
    rfl

theorem syncLocked_run (h : s.file = some fd) :
    (syncLocked noFaults).run s = .ok () (s.synced fd) := by
  unfold syncLocked
  simp only [EStateM.run_bind, flushLocked_run h noFaults_write, EStateM.run_get]
  obtain ⟨disk, _, _, _, file, buf, _, _, _⟩ := s
  cases h
  rfl

theorem rotateIfNeededLocked_run (h : s.file = some fd) :
    (rotateIfNeededLocked noFaults).run s = .ok () (s.rotated fd) := by
  have hflush := flushLocked_run h noFaults_write
  unfold rotateIfNeededLocked
  by_cases hsize : (((s.flushed fd).disk.dataAt fd).length : Int) < (s.flushed fd).segmentSize
  · have : s.rotated fd = s.flushed fd := if_pos hsize
    simp [h, hflush, hsize, this]
  · have : s.rotated fd = (s.synced fd).openSegment (s.synced fd).disk.nextSegmentID :=
      if_neg hsize
    simp only [EStateM.run_bind, EStateM.run_get, h, hflush, noFaults_stat, Bool.false_eq_true,
      if_false, if_neg hsize, this]
    rfl

/-- A rotation check flushes first. -/
theorem rotateIfNeededLocked_run_flushed (h : s.file = some fd) (hio : io.write = none) :
    (rotateIfNeededLocked io).run s = (rotateIfNeededLocked io).run (s.flushed fd) := by
  have h' : (s.flushed fd).file = some fd := h
  unfold rotateIfNeededLocked
  simp only [EStateM.run_bind, EStateM.run_get, h, h', flushLocked_run h hio,
    flushLocked_run h' hio, flushed_flushed]

theorem rotated_flushed : (s.flushed fd).rotated fd = s.rotated fd := by
  simp only [rotated, synced, flushed_flushed]
  rfl

/-- `Append` of a record that encodes. -/
theorem append_run (h : s.file = some fd)
    (henc : encodeRecord checksumIEEE op key value s.nextLSN = .ok encoded) :
    (append noFaults op key value).run s = .ok s.nextLSN ((s.buffered encoded).rotated fd) := by
  unfold append
  have hf : (s.buffered encoded).file = some fd := h
  have hf' : ((s.buffered encoded).flushed fd).file = some fd := h
  simp only [EStateM.run_bind, EStateM.run_get, EStateM.run_modify, henc]
  split
  · have hrun := flushLocked_run hf noFaults_write
    simp only [buffered] at hrun hf'
    simp only [EStateM.run_bind, hrun, rotateIfNeededLocked_run hf', EStateM.run_pure,
      rotated_flushed]
    rfl
  · have hrun := rotateIfNeededLocked_run hf
    simp only [buffered] at hrun
    simp only [EStateM.run_bind, EStateM.run_pure, hrun]
    rfl

/-- `Append` of a record that does not encode uses up an LSN. -/
theorem append_run_error (henc : encodeRecord checksumIEEE op key value s.nextLSN = .error e) :
    (append noFaults op key value).run s =
      .error (.record e) { s with nextLSN := (s.nextLSN + 1) % 2 ^ 64 } := by
  unfold append
  simp only [EStateM.run_bind, EStateM.run_get, EStateM.run_modify, henc]
  rfl

theorem closeLocked_run (h : s.file = some fd) :
    (closeLocked noFaults).run s = .ok () { s.synced fd with file := none } := by
  have hf : (s.synced fd).file = some fd := h
  unfold closeLocked
  simp only [EStateM.run_bind, syncLocked_run h, EStateM.run_get, hf]
  rfl

end AppendFileStorage
end ChudDB.Wal
