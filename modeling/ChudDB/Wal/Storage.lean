import ChudDB.Wal.Record

/-! # The segment storage

`AppendFileStorage` (`append_file.go`, `segment.go`): records are appended to the active segment
file through a write buffer, `Sync` forces the file to disk, and a segment that has reached
`segmentSize` is synced, closed and followed by a new one. The directory is a list of files in
creation order, and an open handle is a position in that list, so that a handle survives
`os.Remove`. The mutex makes every operation one atomic step. A method that can fail runs in
`StorageM`, which keeps the fields already assigned when it fails; `Faults` says which calls of the
operating system fail. -/

namespace ChudDB.Wal
open Lib

/-- A segment file. The first `synced` bytes are on disk; `os.Remove` clears `linked`. -/
structure SegmentFile where
  id : Nat
  data : Bytes
  synced : Nat
  linked : Bool
deriving DecidableEq, Repr

/-- The files of the WAL directory in creation order. -/
abbrev Disk := List SegmentFile

namespace Disk

/-- The handle of the file named after `id`, if the directory has one. -/
def lookup (d : Disk) (id : Nat) : Option Nat := d.findIdx? fun f => f.linked && f.id == id

/-- What the file behind a handle holds. -/
def dataAt (d : Disk) (fd : Nat) : Bytes := (d[fd]?.map (·.data)).getD []

/-- What the file named after `id` holds. -/
def data (d : Disk) (id : Nat) : Bytes := ((d.lookup id).map d.dataAt).getD []

/-- `Write` on a handle opened with `O_APPEND`. -/
def write (d : Disk) (fd : Nat) (b : Bytes) : Disk :=
  d.modify fd fun f => { f with data := f.data ++ b }

/-- `Sync` on a handle. -/
def fsync (d : Disk) (fd : Nat) : Disk := d.modify fd fun f => { f with synced := f.data.length }

/-- `os.OpenFile` with `O_CREATE`. -/
def openFile (d : Disk) (id : Nat) : Nat × Disk :=
  match d.lookup id with
  | some fd => (fd, d)
  | none => (d.length, d ++ [⟨id, [], 0, true⟩])

/-- `os.Remove`. -/
def remove (d : Disk) (id : Nat) : Disk :=
  match d.lookup id with
  | some fd => d.modify fd fun f => { f with linked := false }
  | none => d

/-- A crash that leaves the first `n` bytes of a file; those are on disk then. -/
def truncate (d : Disk) (fd n : Nat) : Disk :=
  d.modify fd fun f => { f with data := f.data.take n, synced := n }

/-- `ListSegmentsInDir`. Names are written with `%09d` and `parseSegmentID` accepts stems of nine
digits only, so a segment is listed exactly when its number has at most nine digits. -/
def listSegments (d : Disk) : List Nat :=
  (((d.filter (·.linked)).map (·.id)).filter (· < 10 ^ 9)).insertionSort (· ≤ ·)

/-- `NextSegmentIDInDir`. -/
def nextSegmentID (d : Disk) : Nat :=
  match d.listSegments.getLast? with
  | none => 1
  | some id => id + 1

end Disk

/-- The calls of the operating system that fail during one operation. A failing `Write` may have
written the given number of bytes. -/
structure Faults where
  write : Option Nat
  stat : Bool
  sync : Bool
  close : Bool
  readDir : Bool
  openFile : Bool

def noFaults : Faults := ⟨none, false, false, false, false, false⟩

inductive StorageError where
  | record (e : RecordError)
  | write | stat | sync | close | readDir | openFile
deriving DecidableEq, Repr

structure AppendFileStorage where
  disk : Disk
  segmentSize : Int
  writeBufferSize : Int
  segmentID : Nat
  /-- The handle of the active segment; `none` is the `nil` file. -/
  file : Option Nat
  writeBuffer : Bytes
  nextLSN : Nat
  appendedLSN : Nat
  durableLSN : Nat
deriving DecidableEq, Repr

abbrev StorageM := EStateM StorageError AppendFileStorage

/-- The storage behind an operation, whether it succeeds or not. -/
def AppendFileStorage.exec (s : AppendFileStorage) (m : StorageM α) : AppendFileStorage :=
  match m.run s with
  | .ok _ s | .error _ s => s

namespace AppendFileStorage

/-- `openSegment`. -/
def openSegment (id : Nat) (s : AppendFileStorage) : AppendFileStorage :=
  { s with
    disk := (s.disk.openFile id).2
    segmentID := id
    file := some (s.disk.openFile id).1
    writeBuffer := [] }

/-- `flushLocked`. Writing to the `nil` file is an error. -/
def flushLocked (io : Faults) : StorageM Unit := do
  let s ← get
  if s.writeBuffer.length = 0 then
    pure ()
  else match s.file, io.write with
    | none, _ => throw .write
    | some fd, some n => do
      set { s with disk := s.disk.write fd (s.writeBuffer.take n) }
      throw .write
    | some fd, none => set { s with disk := s.disk.write fd s.writeBuffer, writeBuffer := [] }

/-- `syncLocked`. -/
def syncLocked (io : Faults) : StorageM Unit := do
  flushLocked io
  let s ← get
  match s.file with
  | none => pure ()
  | some fd =>
    if io.sync then throw .sync
    else set { s with disk := s.disk.fsync fd, durableLSN := s.appendedLSN }

/-- `rotateIfNeededLocked`. -/
def rotateIfNeededLocked (io : Faults) : StorageM Unit := do
  let s ← get
  match s.file with
  | none => pure ()
  | some fd => do
    flushLocked io
    if io.stat then throw .stat
    let s ← get
    if ((s.disk.dataAt fd).length : Int) < s.segmentSize then
      pure ()
    else do
      if io.sync then throw .sync
      set { s with disk := s.disk.fsync fd, durableLSN := s.appendedLSN }
      if io.close then throw .close
      modify fun s => { s with file := none }
      if io.readDir then throw .readDir
      if io.openFile then throw .openFile
      modify fun s => s.openSegment s.disk.nextSegmentID

/-- `Append`. The LSN is taken before the record is encoded. -/
def append (io : Faults) (op : Op) (key value : Bytes) : StorageM Nat := do
  let lsn := (← get).nextLSN
  modify fun s => { s with nextLSN := (s.nextLSN + 1) % 2 ^ 64 }
  match encodeRecord checksumIEEE op key value lsn with
  | .error e => throw (.record e)
  | .ok encoded => do
    modify fun s => { s with writeBuffer := s.writeBuffer ++ encoded, appendedLSN := lsn }
    let s ← get
    if (s.writeBuffer.length : Int) ≥ s.writeBufferSize then
      flushLocked io
    rotateIfNeededLocked io
    pure lsn

/-- `closeLocked`. -/
def closeLocked (io : Faults) : StorageM Unit := do
  syncLocked io
  let s ← get
  match s.file with
  | none => pure ()
  | some _ => do
    set { s with file := none }
    if io.close then throw .close

/-- `maxLSNInSegment`: the LSN of the last record that reads, 0 when there is none. -/
def maxLSNInSegment (data : Bytes) : Nat :=
  ((readSegment checksumIEEE data).1.getLast?.map (·.lsn)).getD 0

/-- `maxLSNFromLastSegment`. -/
def maxLSNFromLastSegment (d : Disk) (segments : List Nat) : Nat :=
  let last := segments.getLastD 0
  if (d.data last).length = 0 ∧ segments.length > 1 then
    maxLSNInSegment (d.data (segments.getD (segments.length - 2) 0))
  else
    maxLSNInSegment (d.data last)

/-- `NewAppendStorageInDir` on a directory with the given files. -/
def newAppendStorageInDir (d : Disk) (segmentSize writeBufferSize : Int) : AppendFileStorage :=
  let s : AppendFileStorage := {
    disk := d
    segmentSize := segmentSize
    writeBufferSize := writeBufferSize
    segmentID := 0
    file := none
    writeBuffer := []
    nextLSN := 1
    appendedLSN := 0
    durableLSN := 0 }
  match d.listSegments.getLast? with
  | none => s.openSegment 1
  | some last =>
    let maxLSN := maxLSNFromLastSegment d d.listSegments
    let s := { s with
      nextLSN := if maxLSN > 0 then (maxLSN + 1) % 2 ^ 64 else s.nextLSN
      appendedLSN := maxLSN
      durableLSN := maxLSN }
    if ((d.data last).length : Int) ≥ segmentSize then s.openSegment d.nextSegmentID
    else s.openSegment last

/-- The loop of `PurgeUpTo` over the listed segments. -/
def purgeSegments (active checkpointLSN : Nat) : List Nat → Disk → Disk
  | [], d => d
  | id :: ids, d =>
    if id = active then purgeSegments active checkpointLSN ids d
    else if maxLSNInSegment (d.data id) > checkpointLSN then d
    else purgeSegments active checkpointLSN ids (d.remove id)

/-- `PurgeUpTo`. -/
def purgeUpTo (checkpointLSN : Nat) (s : AppendFileStorage) : AppendFileStorage :=
  { s with disk := purgeSegments s.segmentID checkpointLSN s.disk.listSegments s.disk }

/-- `ListSegments`. -/
def listSegments (s : AppendFileStorage) : List Nat := s.disk.listSegments

end AppendFileStorage

abbrev Entry := Record

/-- `recordToEntry`; keys and values are byte strings on both sides. -/
def recordToEntry (rec : Record) : Entry := rec

/-- The records of the listed segments, in the order `ReplayFunc` visits them. -/
def Disk.records (d : Disk) : List Record :=
  d.listSegments.flatMap fun id => (readSegment checksumIEEE (d.data id)).1

/-- `Replay`. -/
def replay (s : AppendFileStorage) : List Entry := s.disk.records.map recordToEntry

end ChudDB.Wal
