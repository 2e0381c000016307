import ChudDB.Engine.Basic

/-! # Interleavings

The goroutines of a running engine, call by call: the writer (`applyWriteToMem`), a caller of
`TakeSnapshot` and the flusher. Every call on shared state is a step of its own, and the steps of
the goroutines come in any order. Memtables are shared by reference, so a goroutine may hold one
that is no longer active. -/

namespace ChudDB
open Lib Wal

/-- A reference to a memtable. -/
abbrev MemRef := Nat

/-- A write with the LSN it was logged under. -/
structure Write where
  lsn : Nat
  key : Key
  value : Value
deriving DecidableEq, Repr

/-- `Snapshot`; the files by level. -/
structure Snapshot where
  lsn : Nat
  sstables : List (List Path)
deriving DecidableEq, Repr

/-- How far `applyWriteToMem` has come: after the WAL append, `loadActiveMem`, `Add`, a `GetSize` at
or above the threshold, `ToRaw`, `Push`, and the swap in `swapActiveMem`; `Clear` is still to
come. -/
inductive Writer where
  | idle
  | appended (w : Write)
  | loaded (w : Write) (mem : MemRef)
  | added (w : Write) (mem : MemRef)
  | full (w : Write) (mem : MemRef)
  | copied (mem : MemRef) (im : ImmutableMemtable)
  | pushed (mem : MemRef)
  | swapped (mem : MemRef)
deriving DecidableEq, Repr

/-- How far `TakeSnapshot` has come: in `drainActiveMem` after `loadActiveMem`, a `GetSize` other
than 0, `ToRaw`, `AppendedLSN`, `Push` and the swap; then `drainActiveMem` has returned, and it
waits for the memtables with the given numbers to be flushed. -/
inductive Snapshotter where
  | idle
  | loaded (mem : MemRef)
  | nonempty (mem : MemRef)
  | copied (mem : MemRef) (raw : List KeyValue)
  | sealed (mem : MemRef) (im : ImmutableMemtable)
  | pushed (mem : MemRef)
  | swapped (mem : MemRef)
  | drained
  | waiting (pending : List Nat)
deriving DecidableEq, Repr

/-- How far a round of `runFlusher` has come: after `Peek`, `FlushMemtable`, `registerSSTable`,
`PurgeUpTo` and `PopFront`; `MarkFlushed` is still to come. -/
inductive Flusher where
  | idle
  | peeked (im : ImmutableMemtable)
  | written (im : ImmutableMemtable) (path : Path)
  | registered (im : ImmutableMemtable)
  | purged
  | popped
deriving DecidableEq, Repr

/-- What the goroutines share: an engine whose active memtable is a reference. The memtables are
numbered in the order they were made, and so are the immutable memtables: the first `popped` of them
have left the queue and the first `flushed` are marked. `hist` is every write appended to the log
and `snapshots` what `TakeSnapshot` returned. -/
structure Shared (M : Type) extends Engine MemRef where
  mems : List M
  popped : Nat
  flushed : Nat
  hist : List Write
  snapshots : List Snapshot

/-- A running engine. -/
structure Running (M : Type) extends Shared M where
  writer : Writer
  snapshotter : Snapshotter
  flusher : Flusher

/-- The next step of a goroutine; `append` and `takeSnapshot` start a write and a snapshot. -/
inductive Action where
  | append (key : Key) (value : Value)
  | writer
  | takeSnapshot
  | snapshotter
  | flusher (path : Path)
  | rotate
deriving DecidableEq, Repr

namespace Shared

variable {M : Type} [Memtable M] (cfg : Config)

/-- What a reference points to. -/
def mem (s : Shared M) (p : MemRef) : M := s.mems.getD p Memtable.newMemtable

def add (p : MemRef) (key : Key) (value : Value) (s : Shared M) : Shared M :=
  { s with mems := s.mems.set p (Memtable.add (s.mem p) key value) }

/-- `Push`; `none` while it waits for room. -/
def push (im : ImmutableMemtable) (s : Shared M) : Option (Shared M) :=
  (s.toEngine.push cfg im).map fun e => { s with toEngine := e }

/-- The first half of `swapActiveMem`. -/
def swap (s : Shared M) : Shared M :=
  { s with mems := s.mems ++ [Memtable.newMemtable], activeMem := s.mems.length }

/-- The second half of `swapActiveMem`. -/
def clear (p : MemRef) (s : Shared M) : Shared M :=
  { s with mems := s.mems.set p (Memtable.clear (s.mem p)) }

/-- The WAL append of a write; it counts as made if it succeeds. -/
def append (key : Key) (value : Value) (s : Shared M) : Shared M × Option Write :=
  match (Engine.appendToWal cfg key value).run s.wal with
  | .ok lsn wal =>
    ({ s with wal := wal, hist := s.hist ++ [⟨lsn, key, value⟩] }, some ⟨lsn, key, value⟩)
  | .error _ wal => ({ s with wal := wal }, none)

/-- `RotateIfNeeded`. -/
def rotate (s : Shared M) : Shared M :=
  match (AppendFileStorage.rotateIfNeededLocked noFaults).run s.wal with
  | .ok _ wal | .error _ wal => { s with wal := wal }

end Shared

namespace Running

variable {M : Type} [Memtable M] (cfg : Config)

def init (wal : AppendFileStorage) : Running M where
  activeMem := 0
  immQueue := []
  versions := List.replicate cfg.lsmLevels []
  files := []
  wal := wal
  mems := [Memtable.newMemtable]
  popped := 0
  flushed := 0
  hist := []
  snapshots := []
  writer := .idle
  snapshotter := .idle
  flusher := .idle

def appendStep (key : Key) (value : Value) (s : Running M) : Option (Running M) :=
  if s.writer = .idle then
    match s.append cfg key value with
    | (s', some w) => some { s with toShared := s', writer := .appended w }
    | (s', none) => some { s with toShared := s' }
  else none

def writerStep (s : Running M) : Option (Running M) :=
  match s.writer with
  | .idle => none
  | .appended w => some { s with writer := .loaded w s.activeMem }
  | .loaded w p => some { s with toShared := s.add p w.key w.value, writer := .added w p }
  | .added w p =>
    if Memtable.getSize (s.mem p) ≥ cfg.memtableSize then some { s with writer := .full w p }
    else some { s with writer := .idle }
  | .full w p => some { s with
      writer := .copied p (newImmutableMemtable (Memtable.toRaw (s.mem p)) w.lsn) }
  | .copied p im => (s.push cfg im).map fun s' => { s with toShared := s', writer := .pushed p }
  | .pushed p => some { s with toShared := s.swap, writer := .swapped p }
  | .swapped p => some { s with toShared := s.clear p, writer := .idle }

def snapshotterStep (s : Running M) : Option (Running M) :=
  match s.snapshotter with
  | .idle => none
  | .loaded p =>
    if Memtable.getSize (s.mem p) = 0 then some { s with snapshotter := .drained }
    else some { s with snapshotter := .nonempty p }
  | .nonempty p => some { s with snapshotter := .copied p (Memtable.toRaw (s.mem p)) }
  | .copied p raw => some { s with
      snapshotter := .sealed p (newImmutableMemtable raw s.wal.appendedLSN) }
  | .sealed p im => (s.push cfg im).map fun s' => { s with toShared := s', snapshotter := .pushed p }
  | .pushed p => some { s with toShared := s.swap, snapshotter := .swapped p }
  | .swapped p => some { s with toShared := s.clear p, snapshotter := .drained }
  | .drained => some { s with snapshotter := .waiting (List.range' s.popped s.immQueue.length) }
  | .waiting pending =>
    if ∀ i ∈ pending, i < s.flushed then some { s with
      snapshotter := .idle
      snapshots := s.snapshots ++ [⟨s.wal.appendedLSN, s.versions⟩] }
    else none

def flusherStep (path : Path) (s : Running M) : Option (Running M) :=
  match s.flusher with
  | .idle => s.immQueue.head?.map fun im => { s with flusher := .peeked im }
  | .peeked im =>
    if (s.getOrOpen path).isSome then none
    else some { s with
      toEngine := s.writeTable path ⟨im.data, im.maxLSN⟩
      flusher := .written im path }
  | .written im path => some { s with
      versions := Engine.registerSSTable 0 path s.versions
      flusher := .registered im }
  | .registered im => some { s with wal := s.wal.purgeUpTo im.maxLSN, flusher := .purged }
  | .purged => some { s with
      immQueue := s.immQueue.tail
      popped := s.popped + 1
      flusher := .popped }
  | .popped => some { s with flushed := s.flushed + 1, flusher := .idle }

def step (s : Running M) : Action → Option (Running M)
  | .append key value => s.appendStep cfg key value
  | .writer => s.writerStep cfg
  | .takeSnapshot =>
    if s.snapshotter = .idle then some { s with snapshotter := .loaded s.activeMem } else none
  | .snapshotter => s.snapshotterStep cfg
  | .flusher path => s.flusherStep path
  | .rotate => some { s with toShared := s.rotate }

end Running

/-! ## What the steps do -/

variable {M : Type} [Memtable M] (cfg : Config)

variable {cfg} in
omit [Memtable M] in
theorem Shared.push_eq_some {s s' : Shared M} (h : s.push cfg im = some s') :
    s.immQueue.length < cfg.maxImm ∧ s' = { s with immQueue := s.immQueue ++ [im] } := by
  obtain ⟨e, he, rfl⟩ := Option.map_eq_some_iff.mp h
  rw [Engine.push] at he
  split at he
  · cases he
  · rename_i hroom
    cases he
    exact ⟨Nat.lt_of_not_le hroom, rfl⟩

namespace Running

/-- The steps of the writer; `done` and `clear` end a write. -/
inductive WriterStep (s : Running M) : Running M → Prop
  | load (hpc : s.writer = .appended w) : WriterStep s { s with writer := .loaded w s.activeMem }
  | add (hpc : s.writer = .loaded w p) :
    WriterStep s { s with toShared := s.add p w.key w.value, writer := .added w p }
  | full (hpc : s.writer = .added w p) (hsize : Memtable.getSize (s.mem p) ≥ cfg.memtableSize) :
    WriterStep s { s with writer := .full w p }
  | done (hpc : s.writer = .added w p) (hsize : Memtable.getSize (s.mem p) < cfg.memtableSize) :
    WriterStep s { s with writer := .idle }
  | copy (hpc : s.writer = .full w p) : WriterStep s { s with
      writer := .copied p (newImmutableMemtable (Memtable.toRaw (s.mem p)) w.lsn) }
  | push (hpc : s.writer = .copied p im) (hroom : s.immQueue.length < cfg.maxImm) :
    WriterStep s { s with immQueue := s.immQueue ++ [im], writer := .pushed p }
  | swap (hpc : s.writer = .pushed p) :
    WriterStep s { s with toShared := s.swap, writer := .swapped p }
  | clear (hpc : s.writer = .swapped p) :
    WriterStep s { s with toShared := s.clear p, writer := .idle }

/-- The steps of `TakeSnapshot` behind the first load. -/
inductive SnapshotterStep (s : Running M) : Running M → Prop
  | empty (hpc : s.snapshotter = .loaded p) (hsize : Memtable.getSize (s.mem p) = 0) :
    SnapshotterStep s { s with snapshotter := .drained }
  | nonempty (hpc : s.snapshotter = .loaded p) (hsize : Memtable.getSize (s.mem p) ≠ 0) :
    SnapshotterStep s { s with snapshotter := .nonempty p }
  | copy (hpc : s.snapshotter = .nonempty p) :
    SnapshotterStep s { s with snapshotter := .copied p (Memtable.toRaw (s.mem p)) }
  | sealed (hpc : s.snapshotter = .copied p raw) : SnapshotterStep s { s with
      snapshotter := .sealed p (newImmutableMemtable raw s.wal.appendedLSN) }
  | push (hpc : s.snapshotter = .sealed p im) (hroom : s.immQueue.length < cfg.maxImm) :
    SnapshotterStep s { s with immQueue := s.immQueue ++ [im], snapshotter := .pushed p }
  | swap (hpc : s.snapshotter = .pushed p) :
    SnapshotterStep s { s with toShared := s.swap, snapshotter := .swapped p }
  | clear (hpc : s.snapshotter = .swapped p) :
    SnapshotterStep s { s with toShared := s.clear p, snapshotter := .drained }
  | wait (hpc : s.snapshotter = .drained) : SnapshotterStep s { s with
      snapshotter := .waiting (List.range' s.popped s.immQueue.length) }
  | done (hpc : s.snapshotter = .waiting pending) (hflushed : ∀ i ∈ pending, i < s.flushed) :
    SnapshotterStep s { s with
      snapshotter := .idle
      snapshots := s.snapshots ++ [⟨s.wal.appendedLSN, s.versions⟩] }

/-- The steps of a round of the flusher. -/
inductive FlusherStep (path : Path) (s : Running M) : Running M → Prop
  | peek (hpc : s.flusher = .idle) (hhead : s.immQueue.head? = some im) :
    FlusherStep path s { s with flusher := .peeked im }
  | write (hpc : s.flusher = .peeked im) (hfresh : s.getOrOpen path = none) :
    FlusherStep path s { s with
      toEngine := s.writeTable path ⟨im.data, im.maxLSN⟩
      flusher := .written im path }
  | register (hpc : s.flusher = .written im file) : FlusherStep path s { s with
      versions := Engine.registerSSTable 0 file s.versions
      flusher := .registered im }
  | purge (hpc : s.flusher = .registered im) : FlusherStep path s { s with
      wal := s.wal.purgeUpTo im.maxLSN
      flusher := .purged }
  | pop (hpc : s.flusher = .purged) : FlusherStep path s { s with
      immQueue := s.immQueue.tail
      popped := s.popped + 1
      flusher := .popped }
  | mark (hpc : s.flusher = .popped) :
    FlusherStep path s { s with flushed := s.flushed + 1, flusher := .idle }

variable {cfg} {s s' : Running M}

theorem writerStep_cases (h : s.writerStep cfg = some s') : WriterStep cfg s s' := by
  rw [writerStep] at h
  split at h
  · cases h
  · rename_i hpc
    cases h
    exact .load hpc
  · rename_i hpc
    cases h
    exact .add hpc
  · rename_i hpc
    split at h
    · rename_i hsize
      cases h
      exact .full hpc hsize
    · rename_i hsize
      cases h
      exact .done hpc (Int.not_le.mp hsize)
  · rename_i hpc
    cases h
    exact .copy hpc
  · rename_i hpc
    obtain ⟨t, hpush, rfl⟩ := Option.map_eq_some_iff.mp h
    obtain ⟨hroom, rfl⟩ := Shared.push_eq_some hpush
    exact .push hpc hroom
  · rename_i hpc
    cases h
    exact .swap hpc
  · rename_i hpc
    cases h
    exact .clear hpc

theorem snapshotterStep_cases (h : s.snapshotterStep cfg = some s') : SnapshotterStep cfg s s' := by
  rw [snapshotterStep] at h
  split at h
  · cases h
  · rename_i hpc
    split at h
    · rename_i hsize
      cases h
      exact .empty hpc hsize
    · rename_i hsize
      cases h
      exact .nonempty hpc hsize
  · rename_i hpc
    cases h
    exact .copy hpc
  · rename_i hpc
    cases h
    exact .sealed hpc
  · rename_i hpc
    obtain ⟨t, hpush, rfl⟩ := Option.map_eq_some_iff.mp h
    obtain ⟨hroom, rfl⟩ := Shared.push_eq_some hpush
    exact .push hpc hroom
  · rename_i hpc
    cases h
    exact .swap hpc
  · rename_i hpc
    cases h
    exact .clear hpc
  · rename_i hpc
    cases h
    exact .wait hpc
  · rename_i hpc
    split at h
    · rename_i hflushed
      cases h
      exact .done hpc hflushed
    · cases h

omit [Memtable M] in
theorem flusherStep_cases (h : s.flusherStep path = some s') : FlusherStep path s s' := by
  rw [flusherStep] at h
  split at h
  · rename_i hpc
    obtain ⟨im, hhead, rfl⟩ := Option.map_eq_some_iff.mp h
    exact .peek hpc hhead
  · rename_i hpc
    split at h
    · cases h
    · rename_i hfresh
      cases h
      exact .write hpc (Option.not_isSome_iff_eq_none.mp hfresh)
  · rename_i hpc
    cases h
    exact .register hpc
  · rename_i hpc
    cases h
    exact .purge hpc
  · rename_i hpc
    cases h
    exact .pop hpc
  · rename_i hpc
    cases h
    exact .mark hpc

end Running
end ChudDB
