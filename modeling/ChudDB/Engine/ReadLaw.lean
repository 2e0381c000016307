import ChudDB.Lib.Layers
import ChudDB.Engine.Basic

/-! # What `Read` returns without compaction

Runs of an engine that starts in an empty directory: writes, seals of the active memtable and rounds
of the flusher. The version of a key in the newest layer that holds one is always the last write to
the key. `Read` returns that version unless it is a delete in memory: the memtables hide deletes, so
`Read` goes on to the older layers and may find an older value there. -/

namespace ChudDB
open Lib Wal

inductive EngineOp where
  | write (key : Key) (value : Value)
  | drain
  | flush (path : Path)
deriving DecidableEq

/-- The last value written to a key. -/
def lastWrite (key : Key) (ops : List EngineOp) : Option Value :=
  (ops.filterMap fun
    | .write k v => if k = key then some v else none
    | _ => none).getLast?

theorem lastWrite_concat_write :
    lastWrite k (ops ++ [.write key value]) = if key = k then some value else lastWrite k ops := by
  by_cases h : key = k <;> simp [lastWrite, h]

theorem lastWrite_concat_drain : lastWrite k (ops ++ [.drain]) = lastWrite k ops := by
  simp [lastWrite]

theorem lastWrite_concat_flush : lastWrite k (ops ++ [.flush path]) = lastWrite k ops := by
  simp [lastWrite]

namespace Engine

variable {M : Type} [Memtable M] (cfg : Config)

/-- One step; a write that waits, fails or is not allowed does not count as made. -/
def step (e : Engine M) : EngineOp → Option (Engine M)
  | .write key value =>
    match e.applyWriteToMem cfg true key value with
    | some (.ok _, e) => some e
    | _ => none
  | .drain => e.drainActiveMem cfg
  | .flush path => e.flush path

/-- The entries in memory, newest layer first. -/
def memLayers (e : Engine M) : List (List KeyValue) :=
  Memtable.toRaw e.activeMem :: e.immQueue.reverse.map (·.data)

/-- The versions of a key in memory, newest first. -/
def memVersions (e : Engine M) (key : Key) : List Value := e.memLayers.filterMap (·.lookup key)

/-- What a table file says about the key. -/
def version (e : Engine M) (key : Key) (path : Path) : Option Value :=
  (e.getOrOpen path).bind (·.get key)

/-- Of the given tables those that hold the key. -/
def holders (e : Engine M) (key : Key) (paths : List Path) : List Path :=
  paths.filter fun p => (e.version key p).isSome

/-- The tables that hold the key, in the order in which `readFromSSTables` visits them. -/
def visited (e : Engine M) (key : Key) : List Path := e.holders key (searchOrder e.versions)

/-- The version of a key in the first table that `readFromSSTables` finds it in. -/
def tableVersion (e : Engine M) (key : Key) : Option Value :=
  e.firstVersion (searchOrder e.versions) key

/-- If the newest version of the key in memory is a delete, there is nothing but deletes behind it:
all versions in memory are deletes, and so is the one the tables hold, if any. -/
def NothingBehindDelete (e : Engine M) (key : Key) : Prop :=
  (e.memVersions key).head? = some cfg.tombstone →
    (∀ v ∈ e.memVersions key, v = cfg.tombstone) ∧ ∀ v ∈ e.tableVersion key, v = cfg.tombstone

instance (e : Engine M) : Decidable (e.NothingBehindDelete cfg key) :=
  inferInstanceAs (Decidable (_ → _ ∧ _))

variable {cfg} {e : Engine M}

/-! ## The answer in terms of versions -/

omit [Memtable M] in
theorem readFromSSTables_eq :
    e.readFromSSTables cfg key = live cfg.tombstone (e.tableVersion key) := by
  rw [readFromSSTables, tableVersion]
  cases e.firstVersion (searchOrder e.versions) key with
  | none => rfl
  | some v => exact live_some.symm

omit [Memtable M] in
theorem firstVersion_eq : e.firstVersion paths key = (e.holders key paths).head?.bind (e.version key) :=
  findSome?_eq_head?

omit [Memtable M] in
theorem tableVersion_eq : e.tableVersion key = (e.visited key).head?.bind (e.version key) :=
  firstVersion_eq

omit [Memtable M] in
theorem version_of_mem_holders (h : p ∈ e.holders key paths) : ∃ v, e.version key p = some v :=
  Option.isSome_iff_exists.mp (List.mem_filter.mp h).2

theorem live_inj (h : a = none ↔ b = none) : live t a = live t b ↔ a = b := by
  refine ⟨fun heq => ?_, fun heq => by rw [heq]⟩
  cases a with
  | none => exact (h.mp rfl).symm
  | some a =>
    cases b with
    | none => exact h.mpr rfl
    | some b =>
      rw [live_some, live_some] at heq
      split at heq <;> split at heq <;> simp_all

/-- `Read` returns the first version in memory that is not a delete, and asks the tables only when
there is none. -/
theorem read_eq (hsorted : ∀ im ∈ e.immQueue, SortedKeys im.data) :
    e.read cfg true key = .ok
      (((e.memVersions key).find? (· ≠ cfg.tombstone)).or
        (live cfg.tombstone (e.tableVersion key))) := by
  have hmem : ((e.memVersions key).find? (· ≠ cfg.tombstone)) =
      (Memtable.get cfg.tombstone e.activeMem key).or
        (e.immQueue.reverse.findSome? (·.get cfg.tombstone key)) := by
    have hqueue : e.immQueue.reverse.findSome? (·.get cfg.tombstone key) =
        (e.immQueue.reverse.map (·.data)).findSome? fun l => live cfg.tombstone (l.lookup key) := by
      rw [List.findSome?_map]
      apply findSome?_congr
      intro im him
      exact ImmutableMemtable.get_eq (hsorted im (List.mem_reverse.mp him))
    rw [hqueue, Memtable.get_eq, memVersions, ← findSome?_filter, memLayers, List.findSome?_cons]
    unfold live
    cases Option.filter _ ((Memtable.toRaw e.activeMem).lookup key) <;> rfl
  have hlive : ∀ v, (e.memVersions key).find? (· ≠ cfg.tombstone) = some v → v ≠ cfg.tombstone :=
    fun v hv => by simpa using List.find?_some hv
  rw [hmem] at hlive ⊢
  simp only [read, Bool.not_true, Bool.false_eq_true, if_false, readFromSSTables_eq]
  cases hget : Memtable.get cfg.tombstone e.activeMem key with
  | some v =>
    rw [hget] at hlive
    simp [hlive v rfl]
  | none =>
    rw [hget] at hlive
    cases hfind : e.immQueue.reverse.findSome? (·.get cfg.tombstone key) with
    | some v =>
      rw [hfind] at hlive
      simp [hlive v rfl]
    | none => rfl

/-- Hiding deletes layer by layer agrees with hiding them at the end exactly when nothing else
stands behind a delete in front. -/
theorem find_or_live_iff {ms : List Value} {t : Option Value} :
    (ms.find? (· ≠ tombstone)).or (live tombstone t) = live tombstone (ms.head?.or t) ↔
      (ms.head? = some tombstone → (∀ v ∈ ms, v = tombstone) ∧ ∀ v ∈ t, v = tombstone) := by
  cases ms with
  | nil => simp
  | cons v ms =>
    by_cases hv : v = tombstone
    · subst hv
      have hnone : live v ((v :: ms).head?.or t) = none := by simp [live_some]
      rw [hnone, Option.or_eq_none_iff, List.find?_eq_none]
      have ht : live v t = none ↔ ∀ w ∈ t, w = v := by
        cases t with
        | none => simp
        | some w => simp [live_some]
      simp [ht]
    · simp [live_some, hv]

/-! ## The invariant -/

/-- Only level 0 holds tables, they all open, and the newest version of every key is the last one
written. -/
structure ReadInv (cfg : Config) (e : Engine M) (level0 : List Path) (ops : List EngineOp) : Prop
    where
  sorted : ∀ im ∈ e.immQueue, SortedKeys im.data
  versions : e.versions = level0 :: List.replicate (cfg.lsmLevels - 1) []
  opens : ∀ path ∈ level0, (e.getOrOpen path).isSome = true
  newest : ∀ k, (e.memVersions k).head?.or (e.tableVersion k) = lastWrite k ops

theorem searchOrder_cons : searchOrder (level0 :: deeper) = level0.reverse ++ deeper.flatten := by
  have : (deeper.mapIdx fun i paths => if i + 1 = 0 then paths.reverse else paths) = deeper := by
    apply List.ext_getElem
    · simp
    · intro i h₁ h₂
      simp
  rw [searchOrder, List.mapIdx_cons, this]
  rfl

theorem searchOrder_levelZero : searchOrder (level0 :: List.replicate n []) = level0.reverse := by
  rw [searchOrder_cons]
  simp

theorem head?_memVersions :
    (e.memVersions k).head? = e.memLayers.findSome? (·.lookup k) := by
  rw [memVersions, List.head?_filterMap]

section files
variable {e' : Engine M} {t : SSTable}

omit [Memtable M] in
/-- A new file does not change what the other ones hold. -/
theorem getOrOpen_of_files (hfiles : e'.files = (path, t) :: e.files) (hne : p ≠ path) :
    e'.getOrOpen p = e.getOrOpen p := by
  rw [getOrOpen, hfiles, List.lookup_cons, beq_eq_false_iff_ne.mpr hne]
  rfl

omit [Memtable M] in
theorem firstVersion_of_files (hfiles : e'.files = (path, t) :: e.files)
    (hne : ∀ p ∈ paths, p ≠ path) : e'.firstVersion paths k = e.firstVersion paths k := by
  apply findSome?_congr
  intro p hp
  rw [getOrOpen_of_files hfiles (hne p hp)]

omit [Memtable M] in
theorem firstVersion_cons (hfiles : e'.files = (path, t) :: e.files) :
    e'.firstVersion (path :: paths) k = (t.get k).or (e'.firstVersion paths k) := by
  have : e'.getOrOpen path = some t := by simp [getOrOpen, hfiles]
  rw [firstVersion, List.findSome?_cons, this, Option.bind_some]
  cases t.get k <;> rfl

end files

namespace ReadInv

variable {level0 : List Path} {ops : List EngineOp} {e' : Engine M} {w : AppendFileStorage}

theorem init : ReadInv cfg (newEngine cfg w : Engine M) [] [] where
  sorted := by simp [newEngine]
  versions := by
    have := cfg.lsmLevels_pos
    obtain ⟨n, hn⟩ : ∃ n, cfg.lsmLevels = n + 1 := ⟨cfg.lsmLevels - 1, by omega⟩
    simp [newEngine, hn, List.replicate_succ]
  opens := by simp
  newest := by
    intro k
    have htables : searchOrder (newEngine cfg w : Engine M).versions = [] := by
      simp [searchOrder, newEngine]
    rw [head?_memVersions, tableVersion, htables]
    simp [memLayers, newEngine, Memtable.toRaw_new, firstVersion, lastWrite]

/-- `Add` to the active memtable. -/
theorem add (h : ReadInv cfg e level0 ops) :
    ReadInv cfg { e with wal := w, activeMem := Memtable.add e.activeMem key value } level0
      (ops ++ [.write key value]) where
  sorted := h.sorted
  versions := h.versions
  opens := h.opens
  newest := by
    intro k
    have hold := h.newest k
    rw [head?_memVersions, memLayers, List.findSome?_cons] at hold
    rw [lastWrite_concat_write, head?_memVersions, memLayers, List.findSome?_cons,
      Memtable.lookup_add]
    by_cases hk : k = key
    · rw [if_pos hk, if_pos hk.symm]
      rfl
    · rw [if_neg hk, if_neg (Ne.symm hk)]
      exact hold

/-- Sealing moves the entries of the active memtable one layer down. -/
theorem sealMem (h : ReadInv cfg e level0 ops) (hseal : e.sealMem cfg lsn = some e') :
    ReadInv cfg e' level0 ops := by
  obtain ⟨-, rfl⟩ := sealMem_eq_some_iff.mp hseal
  have hnodup := Memtable.nodup_toRaw e.activeMem
  refine ⟨?_, h.versions, h.opens, ?_⟩
  · intro im him
    rcases List.mem_append.mp him with him | him
    · exact h.sorted im him
    · cases List.mem_singleton.mp him
      exact sortedKeys_sortByKeys hnodup
  · intro k
    have hold := h.newest k
    rw [head?_memVersions, memLayers, List.findSome?_cons] at hold
    rw [← hold, head?_memVersions]
    simp only [memLayers, List.reverse_append, List.reverse_singleton, List.singleton_append,
      List.map_cons, List.findSome?_cons, Memtable.toRaw_new, List.lookup_nil,
      newImmutableMemtable, lookup_sortByKeys hnodup]
    rfl

theorem write (h : ReadInv cfg e level0 ops)
    (hstep : e.step cfg (.write key value) = some e') :
    ReadInv cfg e' level0 (ops ++ [.write key value]) := by
  simp only [step, applyWriteToMem, Bool.not_true, Bool.false_eq_true, if_false] at hstep
  cases hrun : (appendToWal cfg key value).run e.wal with
  | error err wal =>
    simp only [hrun] at hstep
    cases hstep
  | ok lsn wal =>
    simp only [hrun] at hstep
    have hadd : ReadInv cfg
        { e with wal := wal, activeMem := Memtable.add e.activeMem key value } level0
        (ops ++ [.write key value]) := h.add
    by_cases hsize : Memtable.getSize (Memtable.add e.activeMem key value) ≥ cfg.memtableSize
    · rw [if_pos hsize] at hstep
      cases hseal : Engine.sealMem cfg lsn
          { e with wal := wal, activeMem := Memtable.add e.activeMem key value } with
      | none =>
        rw [hseal] at hstep
        cases hstep
      | some e₁ =>
        rw [hseal] at hstep
        cases hstep
        exact hadd.sealMem hseal
    · rw [if_neg hsize] at hstep
      cases hstep
      exact hadd

theorem drain (h : ReadInv cfg e level0 ops) (hstep : e.step cfg .drain = some e') :
    ReadInv cfg e' level0 (ops ++ [.drain]) := by
  have hsame : ∀ {e' : Engine M}, ReadInv cfg e' level0 ops →
      ReadInv cfg e' level0 (ops ++ [.drain]) :=
    fun h => ⟨h.sorted, h.versions, h.opens, fun k => (h.newest k).trans lastWrite_concat_drain.symm⟩
  simp only [step, drainActiveMem] at hstep
  split at hstep
  · cases hstep
    exact hsame h
  · exact hsame (h.sealMem hstep)

/-- The oldest layer in memory becomes the newest table. -/
theorem flush (h : ReadInv cfg e level0 ops) (hstep : e.step cfg (.flush path) = some e') :
    ReadInv cfg e' (level0 ++ [path]) (ops ++ [.flush path]) := by
  simp only [step, Engine.flush] at hstep
  split at hstep
  · cases hstep
  · rename_i im rest hqueue
    split at hstep
    · cases hstep
    · rename_i hfresh
      cases hstep
      have hne : ∀ p ∈ level0, p ≠ path := by
        rintro p hp rfl
        exact hfresh (h.opens p hp)
      have hregister : registerSSTable 0 path e.versions =
          (level0 ++ [path]) :: List.replicate (cfg.lsmLevels - 1) [] := by
        rw [registerSSTable, h.versions]
        rfl
      refine ⟨fun im' him' => h.sorted im' (hqueue ▸ List.mem_cons_of_mem _ him'), hregister, ?_, ?_⟩
      · intro p hp
        rcases List.mem_append.mp hp with hp | hp
        · rw [getOrOpen_of_files rfl (hne p hp)]
          exact h.opens p hp
        · cases List.mem_singleton.mp hp
          simp [getOrOpen, writeTable]
      · intro k
        have hold := h.newest k
        rw [head?_memVersions, tableVersion, h.versions, searchOrder_levelZero, memLayers, hqueue,
          List.reverse_cons, List.map_append, ← List.cons_append, List.findSome?_append,
          Option.or_assoc] at hold
        rw [lastWrite_concat_flush, ← hold, head?_memVersions, tableVersion]
        simp only [hregister, searchOrder_levelZero, List.reverse_append, List.reverse_singleton,
          List.singleton_append]
        congr 1
        rw [firstVersion_cons rfl, firstVersion_of_files rfl fun p hp => hne p (List.mem_reverse.mp hp)]
        cases hlook : im.data.lookup k <;> simp [SSTable.get, hlook]

theorem step (h : ReadInv cfg e level0 ops) (hstep : e.step cfg op = some e') :
    ∃ level0', ReadInv cfg e' level0' (ops ++ [op]) := by
  cases op with
  | write key value => exact ⟨level0, h.write hstep⟩
  | drain => exact ⟨level0, h.drain hstep⟩
  | flush path => exact ⟨level0 ++ [path], h.flush hstep⟩

theorem run (hrun : System.run (Engine.step cfg) (newEngine cfg w : Engine M) ops = some e) :
    ∃ level0, ReadInv cfg e level0 ops :=
  System.run_invariant (I := fun ops (e : Engine M) => ∃ level0, ReadInv cfg e level0 ops)
    ⟨[], .init⟩ (fun ⟨_, h⟩ hs => h.step hs) hrun

end ReadInv

/-- After every run and for every key, `Read` returns what was written last, or nothing when that is
a delete or there was no write, exactly when nothing is left behind a delete in memory. -/
theorem read_lastWrite_iff (hrun : System.run (step cfg) (newEngine cfg w : Engine M) ops = some e) :
    e.read cfg true key = .ok (live cfg.tombstone (lastWrite key ops)) ↔
      e.NothingBehindDelete cfg key := by
  obtain ⟨level0, h⟩ := ReadInv.run hrun
  rw [read_eq h.sorted, ← h.newest key, Except.ok.injEq]
  exact find_or_live_iff

/-- A key that was overwritten by a delete before its memtable was sealed. -/
theorem read_lastWrite_deleted : ∃ e ∈ System.run (step defaultConfig)
    (newEngine defaultConfig (.newAppendStorageInDir [] 67108864 65536) : Engine HashMap)
    [.write [107] [118], .write [107] defaultConfig.tombstone, .drain, .flush 1],
    e.read defaultConfig true [107] = .ok (live defaultConfig.tombstone (lastWrite [107]
      [.write [107] [118], .write [107] defaultConfig.tombstone, .drain, .flush 1])) :=
  ⟨Option.get _ (by decide +kernel), Option.get_mem _,
    (read_lastWrite_iff (Option.get_mem _)).mpr (by decide +kernel)⟩

/-- A key is written, its memtable is sealed, and the key is deleted: `Read` returns the old
value. -/
theorem read_returns_deleted_value : ∃ e ∈ System.run (step defaultConfig)
    (newEngine defaultConfig (.newAppendStorageInDir [] 67108864 65536) : Engine HashMap)
    [.write [107] [118], .drain, .write [107] defaultConfig.tombstone],
    e.read defaultConfig true [107] = .ok (some [118]) ∧
      live defaultConfig.tombstone (lastWrite [107]
        [.write [107] [118], .drain, .write [107] defaultConfig.tombstone]) = none := by
  decide +kernel

end Engine
end ChudDB
