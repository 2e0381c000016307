import ChudDB.Engine.Basic
import ChudDB.Sstable.RoundTrip

/-! # Flushing to files

The flusher over the bytes of table files. As long as no call on a file fails, a round is a round of
`Engine.flush`, and reads agree (`DiskEngine.flush_simulates`, `DiskEngine.Simulates.read_eq`). A
round in which a call fails registers what the file holds, purges the log and drops the memtable all
the same. -/

namespace ChudDB
open Lib Wal Sstable

/-- An engine whose tables are files; a file that a failed call left behind keeps its temporary
name. -/
structure DiskEngine (M : Type) where
  activeMem : M
  immQueue : List ImmutableMemtable
  versions : List (List Location)
  disk : List (Location × Bytes)
  wal : AppendFileStorage

/-- `GetOrOpen` and `Get`, as `readFromSSTables` uses them: errors count as not found. -/
def Sstable.tableGet (env : FlushEnv) (file : Bytes) (key : Key) : Option Value :=
  match openFile env.prefixConfig file with
  | .error _ => none
  | .ok r =>
    match r.get env.toHashing env.blockSize key with
    | .error _ => none
    | .ok v => v

namespace DiskEngine

variable {M : Type} [Memtable M] (env : FlushEnv) (cfg : Config)

/-- The order in which `readFromSSTables` visits the files. -/
def searchOrder (versions : List (List Location)) : List Location :=
  (versions.mapIdx fun i paths => if i = 0 then paths.reverse else paths).flatten

def firstVersion (e : DiskEngine M) (key : Key) : Option Value :=
  (searchOrder e.versions).findSome? fun path => (e.disk.lookup path).bind (tableGet env · key)

/-- `Read` for a user the rate limiter lets through. -/
def read (e : DiskEngine M) (key : Key) : Option Value :=
  match Memtable.get cfg.tombstone e.activeMem key with
  | some v => if v = cfg.tombstone then none else some v
  | none =>
    match e.immQueue.reverse.findSome? (·.get cfg.tombstone key) with
    | some v => if v = cfg.tombstone then none else some v
    | none =>
      match e.firstVersion env key with
      | some v => if v = cfg.tombstone then none else some v
      | none => none

/-- One round of `runFlusher`; the file gets the given name. -/
def flush (seeds : Seeds) (faults : FlushFaults) (name : Nat) (e : DiskEngine M) :
    Option (DiskEngine M) :=
  match e.immQueue with
  | [] => none
  | im :: rest =>
    let t := flushMemtable env seeds faults (.newFileWriter name) im.data im.maxLSN
    some { e with
      disk := (t.path, t.content) :: e.disk
      versions := e.versions.modify 0 (· ++ [t.path])
      wal := e.wal.purgeUpTo im.maxLSN
      immQueue := rest }

/-! ## Rounds without a failure -/

variable {env} {cfg} {d d' : DiskEngine M} {e : Engine M}

/-- The engine `e` is what the files of `d` stand for. -/
structure Simulates (env : FlushEnv) (d : DiskEngine M) (e : Engine M) : Prop where
  activeMem : d.activeMem = e.activeMem
  immQueue : d.immQueue = e.immQueue
  wal : d.wal = e.wal
  versions : d.versions = e.versions.map (·.map (⟨·, false⟩))
  files : ∀ name, Option.Rel (fun file t => ∀ key, tableGet env file key = SSTable.get t key)
    (d.disk.lookup ⟨name, false⟩) (e.files.lookup name)

omit [Memtable M] in
/-- Searching the files is searching the tables they stand for. -/
theorem Simulates.firstVersion_eq (h : Simulates env d e) (key : Key) :
    d.firstVersion env key = e.firstVersion (Engine.searchOrder e.versions) key := by
  have horder : searchOrder d.versions = (Engine.searchOrder e.versions).map (⟨·, false⟩) := by
    rw [searchOrder, Engine.searchOrder, h.versions, List.map_flatten]
    congr 1
    apply List.ext_getElem?
    intro i
    simp only [List.getElem?_mapIdx, List.getElem?_map, Option.map_map]
    congr 1
    funext paths
    by_cases hi : i = 0 <;> simp [hi]
  rw [firstVersion, Engine.firstVersion, horder, List.findSome?_map]
  congr 1
  funext name
  have hfiles := h.files name
  simp only [Function.comp_apply, Engine.getOrOpen]
  generalize d.disk.lookup ⟨name, false⟩ = file at hfiles
  generalize e.files.lookup name = t at hfiles
  cases hfiles with
  | none => rfl
  | some hget => exact hget key

theorem Simulates.read_eq (h : Simulates env d e) (key : Key) :
    e.read cfg true key = .ok (d.read env cfg key) := by
  rw [Engine.read, read, h.activeMem, h.immQueue, h.firstVersion_eq, Engine.readFromSSTables]
  cases Memtable.get cfg.tombstone e.activeMem key with
  | some v => rfl
  | none => cases e.immQueue.reverse.findSome? (·.get cfg.tombstone key) <;> rfl

omit [Memtable M] in
/-- A round without a failure on a sealed memtable is a round of the engine. -/
theorem flush_simulates (h : Simulates env d e) (hd : d.immQueue = im :: rest)
    (hne : im.data ≠ []) (hsorted : SortedKeys im.data)
    (hsize : (flushMemtable env seeds .none (.newFileWriter name) im.data im.maxLSN).content.length
      < 2 ^ 63)
    (hfresh : d.disk.lookup ⟨name, false⟩ = none) (hflush : d.flush env seeds .none name = some d') :
    ∃ e', e.flush name = some e' ∧ Simulates env d' e' := by
  obtain ⟨secs, -, -, htable⟩ := flushMemtable_none env seeds im.data im.maxLSN name
  obtain ⟨r, hopen, hserves⟩ := openFile_flushMemtable hne hsorted hsize
  have hget : ∀ key, tableGet env
      (flushMemtable env seeds .none (.newFileWriter name) im.data im.maxLSN).content key =
        SSTable.get ⟨im.data, im.maxLSN⟩ key := by
    intro key
    rw [tableGet, hopen]
    simp only [hserves.get_eq]
    rfl
  have hpath : (flushMemtable env seeds .none (.newFileWriter name) im.data im.maxLSN).path =
      ⟨name, false⟩ := by rw [htable]
  have hnone : e.getOrOpen name = none := by
    have hfiles := h.files name
    rw [hfresh] at hfiles
    rw [Engine.getOrOpen]
    generalize e.files.lookup name = t at hfiles
    cases hfiles
    rfl
  have heq : e.flush name = some { e.writeTable name ⟨im.data, im.maxLSN⟩ with
      versions := Engine.registerSSTable 0 name e.versions
      wal := e.wal.purgeUpTo im.maxLSN
      immQueue := rest } := by
    rw [Engine.flush, ← h.immQueue, hd, hnone]
    rfl
  rw [flush, hd] at hflush
  cases hflush
  refine ⟨_, heq, h.activeMem, rfl, ?_, ?_, ?_⟩
  · exact congrArg (·.purgeUpTo im.maxLSN) h.wal
  · simp only [Engine.registerSSTable, hpath, h.versions]
    cases e.versions with
    | nil => rfl
    | cons level versions => simp
  · intro name'
    simp only [hpath, Engine.writeTable, List.lookup_cons]
    by_cases hname : name' = name
    · subst hname
      rw [beq_self_eq_true, beq_self_eq_true]
      exact .some hget
    · rw [beq_eq_false_iff_ne.mpr hname, beq_eq_false_iff_ne.mpr (by simpa using hname)]
      exact h.files name'

/-! ## Rounds with a failure -/

/-- What a round in which a call fails has to keep of the memtable it was to write. -/
structure Keeps (env : FlushEnv) (cfg : Config) (im : ImmutableMemtable) (e e' : DiskEngine M) :
    Prop where
  notPurged : e'.wal = e.wal
  notPopped : e'.immQueue = e.immQueue
  readable : ∀ kv ∈ im.data, e'.read env cfg kv.1 = e.read env cfg kv.1

/-- The flusher does not look at failures: it keeps the memtable of a failed flush only in the sense
that no flush fails. -/
theorem keeps_iff_not_fails (env : FlushEnv) (cfg : Config) (e e' : DiskEngine M)
    (im : ImmutableMemtable) (rest : List ImmutableMemtable) (seeds : Seeds) (faults : FlushFaults)
    (name : Nat) (hq : e.immQueue = im :: rest) (hflush : e.flush env seeds faults name = some e') :
    (faults.Fails → Keeps env cfg im e e') ↔ ¬faults.Fails := by
  constructor
  · intro h hfails
    have hpop := (h hfails).notPopped
    rw [flush, hq] at hflush
    cases hflush
    rw [hq] at hpop
    exact absurd (congrArg List.length hpop) (by simp)
  · exact fun h hfails => absurd hfails h

/-- The entries were written and sealed, key 100 written after them; the log has a segment for
each. -/
def sealedEngine (data : List KeyValue) : DiskEngine HashMap where
  activeMem := Memtable.add Memtable.newMemtable [100] [2]
  immQueue := [⟨data, data.length⟩]
  versions := List.replicate 4 []
  disk := []
  wal :=
    match ((data ++ [([100], [2])]).forM fun kv =>
        Engine.appendToWal defaultConfig kv.1 kv.2).run (.newAppendStorageInDir [] 20 65536) with
    | .ok _ wal | .error _ wal => wal

theorem simulates_sealed (data : List KeyValue) : Simulates smallEnv (sealedEngine data)
    { (Engine.newEngine defaultConfig (sealedEngine data).wal : Engine HashMap) with
      activeMem := (sealedEngine data).activeMem
      immQueue := (sealedEngine data).immQueue } :=
  ⟨rfl, rfl, rfl, rfl, fun _ => .none⟩

theorem flush_simulates_sealed : ∃ d' e',
    (sealedEngine jumboEntries).flush smallEnv ⟨0, 0⟩ .none 5 = some d' ∧
      Simulates smallEnv d' e' ∧
      d'.read smallEnv defaultConfig [97, 98] = some (List.replicate 100 7) := by
  obtain ⟨e', -, h⟩ := flush_simulates (simulates_sealed jumboEntries) rfl (by decide)
    (by decide +kernel) (by decide +kernel) rfl
    (rfl : (sealedEngine jumboEntries).flush smallEnv ⟨0, 0⟩ .none 5 = _)
  exact ⟨_, e', rfl, h, by decide +kernel⟩

theorem keeps_iff_not_fails_footer :
    let faults : FlushFaults := ⟨none, none, some (.write 0), none⟩
    faults.Fails ∧ ∃ e', (sealedEngine jumboEntries).flush smallEnv ⟨0, 0⟩ faults 5 = some e' ∧
      ((faults.Fails → Keeps smallEnv defaultConfig ⟨jumboEntries, 4⟩ (sealedEngine jumboEntries)
        e') ↔ ¬faults.Fails) :=
  ⟨nofun, _, rfl, keeps_iff_not_fails smallEnv defaultConfig (sealedEngine jumboEntries) _ _ []
    ⟨0, 0⟩ ⟨none, none, some (.write 0), none⟩ 5 rfl rfl⟩

/-- The footer is not written: the memtable is dropped and its record purged, and key 97, readable
before the round, is not found after it. -/
theorem failed_footer_loses_key : ∃ e' ∈ (sealedEngine [([97], [1])]).flush smallEnv ⟨0, 0⟩
      ⟨none, none, some (.write 0), none⟩ 5,
    (sealedEngine [([97], [1])]).read smallEnv defaultConfig [97] = some [1] ∧
      (1 ∈ (sealedEngine [([97], [1])]).wal.disk.records.map (·.lsn)) ∧
      e'.immQueue = [] ∧ (1 ∉ e'.wal.disk.records.map (·.lsn)) ∧
      e'.read smallEnv defaultConfig [97] = none := by
  refine ⟨_, rfl, ?_⟩
  decide +kernel

end DiskEngine
end ChudDB
