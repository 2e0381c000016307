import ChudDB.Memtable.Immutable
import ChudDB.Wal.Storage

/-! # The engine

The state of `Engine` (`engine.go`) as its operations see it one after another: the active memtable,
the queue of immutable memtables, the registry of SSTables and the log. `Read` (`read.go`), the
write path (`write.go`), `drainActiveMem` and one round of the flusher (`flusher.go`). The engine is
generic in the memtable. -/

namespace ChudDB
open Lib Wal

/-- The configuration values the engine reads. -/
structure Config where
  tombstone : Value
  memtableSize : Int
  lsmLevels : Nat
  compactionThreshold : Nat
  maxImmutableCount : Int
  lsmLevels_pos : 0 < lsmLevels
  compactionThreshold_pos : 0 < compactionThreshold

/-- The capacity of the queue, as `newEngine` computes it. -/
def Config.maxImm (cfg : Config) : Nat :=
  if cfg.maxImmutableCount < 1 then 3 else cfg.maxImmutableCount.toNat

/-- The values of `config.json`; the tombstone is the text `<DELETED!>`. -/
def defaultConfig : Config where
  tombstone := [60, 68, 69, 76, 69, 84, 69, 68, 33, 62]
  memtableSize := 1000
  lsmLevels := 4
  compactionThreshold := 4
  maxImmutableCount := 4
  lsmLevels_pos := by decide
  compactionThreshold_pos := by decide

/-- One entry fills a memtable of this configuration. -/
def sealingConfig : Config := { defaultConfig with memtableSize := 1 }

/-- The random part of the name of a table file. -/
abbrev Path := Nat

/-- What a table file holds: its entries in file order, and the LSN of its footer. -/
structure SSTable where
  entries : List KeyValue
  maxLSN : Nat
deriving DecidableEq, Repr

/-- `SSTableReader.Get`. -/
def SSTable.get (t : SSTable) (key : Key) : Option Value := t.entries.lookup key

structure Engine (M : Type) where
  activeMem : M
  immQueue : List ImmutableMemtable
  /-- `versions[level]`, oldest table first. -/
  versions : List (List Path)
  files : List (Path × SSTable)
  wal : AppendFileStorage

inductive EngineError where
  | notAllowed
  | wal (e : StorageError)
deriving DecidableEq, Repr

namespace Engine

variable {M : Type} [Memtable M] (cfg : Config)

/-- `newEngine` in an empty data directory. -/
def newEngine (wal : AppendFileStorage) : Engine M where
  activeMem := Memtable.newMemtable
  immQueue := []
  versions := List.replicate cfg.lsmLevels []
  files := []
  wal := wal

/-! ## Reading -/

/-- `TableCache.GetOrOpen`. -/
def getOrOpen (e : Engine M) (path : Path) : Option SSTable := e.files.lookup path

/-- The order in which `readFromSSTables` visits the tables: level 0 newest first, the other levels
as they are listed. -/
def searchOrder (versions : List (List Path)) : List Path :=
  (versions.mapIdx fun i paths => if i = 0 then paths.reverse else paths).flatten

/-- The first version of `key` on the given paths; a table that does not open is passed over. -/
def firstVersion (e : Engine M) (paths : List Path) (key : Key) : Option Value :=
  paths.findSome? fun path => (e.getOrOpen path).bind (·.get key)

/-- `readFromSSTables`. -/
def readFromSSTables (e : Engine M) (key : Key) : Option Value :=
  match e.firstVersion (searchOrder e.versions) key with
  | some v => if v = cfg.tombstone then none else some v
  | none => none

/-- `Read`; `allowed` is the answer of the rate limiter. -/
def read (allowed : Bool) (e : Engine M) (key : Key) : Except EngineError (Option Value) :=
  if !allowed then .error .notAllowed
  else match Memtable.get cfg.tombstone e.activeMem key with
    | some v => .ok (if v = cfg.tombstone then none else some v)
    | none =>
      match e.immQueue.reverse.findSome? (·.get cfg.tombstone key) with
      | some v => .ok (if v = cfg.tombstone then none else some v)
      | none => .ok (e.readFromSSTables cfg key)

/-! ## Writing -/

/-- `immutableQueue.Push`; `none` while it waits for room. -/
def push (im : ImmutableMemtable) (e : Engine M) : Option (Engine M) :=
  if e.immQueue.length ≥ cfg.maxImm then none
  else some { e with immQueue := e.immQueue ++ [im] }

/-- Sealing the active memtable: `Push` and `swapActiveMem`. -/
def sealMem (lsn : Nat) (e : Engine M) : Option (Engine M) :=
  (e.push cfg (newImmutableMemtable (Memtable.toRaw e.activeMem) lsn)).map fun e =>
    { e with activeMem := Memtable.newMemtable }

/-- The WAL append of `applyWriteToMem`: `AppendDelete` for the tombstone, `AppendPut` otherwise. -/
def appendToWal (key : Key) (value : Value) : StorageM Nat :=
  if value = cfg.tombstone then AppendFileStorage.append noFaults opDelete key []
  else AppendFileStorage.append noFaults opPut key value

/-- `applyWriteToMem`; `none` while `Push` waits for room. -/
def applyWriteToMem (allowed : Bool) (key : Key) (value : Value) (e : Engine M) :
    Option (Except EngineError Nat × Engine M) :=
  if !allowed then some (.error .notAllowed, e)
  else match (appendToWal cfg key value).run e.wal with
    | .error err wal => some (.error (.wal err), { e with wal := wal })
    | .ok lsn wal =>
      let e := { e with wal := wal, activeMem := Memtable.add e.activeMem key value }
      if Memtable.getSize e.activeMem ≥ cfg.memtableSize then
        (e.sealMem cfg lsn).map fun e => (.ok lsn, e)
      else some (.ok lsn, e)

/-- `drainActiveMem`. -/
def drainActiveMem (e : Engine M) : Option (Engine M) :=
  if Memtable.getSize e.activeMem = 0 then some e else e.sealMem cfg e.wal.appendedLSN

/-- `registerSSTable`. -/
def registerSSTable (level : Nat) (path : Path) (versions : List (List Path)) : List (List Path) :=
  versions.modify level (· ++ [path])

/-- A table file is written under a fresh name. -/
def writeTable (path : Path) (t : SSTable) (e : Engine M) : Engine M :=
  { e with files := (path, t) :: e.files }

/-- `installCompaction`: the output goes to the next level, the inputs are taken out of their level
and deleted. -/
def installCompaction (level : Nat) (newPath : Path) (oldPaths : List Path) (e : Engine M) :
    Engine M :=
  { e with
    versions := (registerSSTable (level + 1) newPath e.versions).modify level
      (·.filter (· ∉ oldPaths))
    files := e.files.filter fun f => f.1 ∉ oldPaths }

/-- One round of the flusher: write the queue head as a table under a fresh name, register it at
level 0, purge the log, pop the head. `none` while the queue is empty. -/
def flush (path : Path) (e : Engine M) : Option (Engine M) :=
  match e.immQueue with
  | [] => none
  | im :: rest =>
    if (e.getOrOpen path).isSome then none
    else some { e.writeTable path ⟨im.data, im.maxLSN⟩ with
      versions := registerSSTable 0 path e.versions
      wal := e.wal.purgeUpTo im.maxLSN
      immQueue := rest }

/-- Sealing waits for room, and then moves the entries of the active memtable to the queue. -/
theorem sealMem_eq_some_iff {cfg : Config} {e e' : Engine M} : e.sealMem cfg lsn = some e' ↔
    e.immQueue.length < cfg.maxImm ∧ e' = { e with
      immQueue := e.immQueue ++ [newImmutableMemtable (Memtable.toRaw e.activeMem) lsn]
      activeMem := Memtable.newMemtable } := by
  rw [sealMem, push]
  by_cases hfull : e.immQueue.length ≥ cfg.maxImm
  · rw [if_pos hfull]
    simp [hfull]
  · rw [if_neg hfull]
    simp only [Option.map_some, Option.some.injEq, Nat.not_le.mp hfull, true_and]
    exact eq_comm

end Engine
end ChudDB
