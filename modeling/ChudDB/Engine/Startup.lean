import ChudDB.Engine.Interleaving
import ChudDB.Memtable.BTree
import ChudDB.Memtable.SkipList

/-! # Starting up

`Start` (`engine.go`) replays the log into the active memtable before the goroutines run, and
`replayFlush` (`write.go`) writes a full memtable to a table file in the order in which the memtable
lists its entries. The state keeps every list that has been handed to `FlushMemtable`. -/

namespace ChudDB
open Lib Wal

/-- The lists that `ToRaw` and `TakeSnapshot` may return. A memtable that is `ordered` lists its
entries by key. -/
class Listing (M : Type) [Memtable M] where
  Lists : M → List KeyValue → Prop
  decidableLists (m : M) (l : List KeyValue) : Decidable (Lists m l)
  perm_of_lists : Lists m l → l.Perm (Memtable.toRaw m)
  ordered : Bool
  sorted_of_lists : ordered = true → Lists m l → SortedKeys l

instance [Memtable M] [Listing M] {m : M} : Decidable (Listing.Lists m l) :=
  Listing.decidableLists m l

/-- A Go map is visited in any order. -/
instance : Listing HashMap where
  Lists h l := l.Perm h.toRaw
  decidableLists _ _ := inferInstance
  perm_of_lists := id
  ordered := false
  sorted_of_lists := nofun

instance : Listing (SkipList cfg) where
  Lists s l := l = s.toRaw
  decidableLists _ _ := inferInstance
  perm_of_lists := List.Perm.of_eq
  ordered := true
  sorted_of_lists _ h := h ▸ SkipList.ascending_toRaw _

instance : Listing (BTree order) where
  Lists t l := l = t.toRaw
  decidableLists _ _ := inferInstance
  perm_of_lists := List.Perm.of_eq
  ordered := true
  sorted_of_lists {t _} _ h := h ▸ t.ascending

/-- An engine from `Start` on: the log entries that have not been replayed, and the lists handed to
`FlushMemtable`. -/
structure Lifecycle (M : Type) extends Running M where
  unreplayed : List Entry
  handed : List (List KeyValue)

/-- `Start` applies the next log entry; the list is what `TakeSnapshot` returns and the path the
name of the table file, if the memtable is full. Once the log is replayed, the goroutines run. -/
inductive LifecycleAction where
  | replay (snapshot : List KeyValue) (path : Path)
  | run (a : Action)
deriving DecidableEq, Repr

namespace Lifecycle
variable {M : Type} [Memtable M] [Listing M] (cfg : Config)

/-- `newEngine` on any data directory. -/
def start (wal : AppendFileStorage) (versions : List (List Path)) (files : List (Path × SSTable)) :
    Lifecycle M :=
  { (Running.init cfg wal : Running M) with
    versions := versions
    files := files
    unreplayed := replay wal
    handed := [] }

/-- What `Start` writes for a log entry. -/
def replayedValue (entry : Entry) : Value :=
  if entry.op = opDelete then cfg.tombstone else entry.value

/-- The active memtable after `Add`. -/
def replayed (s : Lifecycle M) (entry : Entry) : M :=
  Memtable.add (s.mem s.activeMem) entry.key (replayedValue cfg entry)

/-- `replayFlush`. -/
def replayFlush (snapshot : List KeyValue) (path : Path) (s : Lifecycle M) : Lifecycle M :=
  let shared := (s.toShared.clear s.activeMem).swap
  { s with
    toShared := { shared with
      files := (path, ⟨snapshot, 0⟩) :: shared.files
      versions := Engine.registerSSTable 0 path shared.versions }
    handed := s.handed ++ [snapshot] }

/-- `applyWrite`. -/
def applyWrite (snapshot : List KeyValue) (path : Path) (s : Lifecycle M) (entry : Entry) :
    Option (Lifecycle M) :=
  let s' := { s with toShared := s.add s.activeMem entry.key (replayedValue cfg entry) }
  if Memtable.getSize (s.replayed cfg entry) ≥ cfg.memtableSize then
    if Listing.Lists (s.replayed cfg entry) snapshot ∧ s.getOrOpen path = none then
      some (s'.replayFlush snapshot path)
    else none
  else some s'

/-- What the next step of a goroutine hands to `FlushMemtable`. -/
def handedBy (s : Lifecycle M) : Action → List (List KeyValue)
  | .flusher _ =>
    match s.flusher with
    | .peeked im => [im.data]
    | _ => []
  | _ => []

def step (s : Lifecycle M) : LifecycleAction → Option (Lifecycle M)
  | .replay snapshot path =>
    match s.unreplayed with
    | [] => none
    | entry :: unreplayed =>
      (s.applyWrite cfg snapshot path entry).map fun s => { s with unreplayed := unreplayed }
  | .run a =>
    if s.unreplayed = [] then (s.toRunning.step cfg a).map fun r =>
      { s with toRunning := r, handed := s.handed ++ s.handedBy a }
    else none

/-- The memtable lists its entries by key, or the next log entry does not fill it, or it has no
other key than that entry. -/
def ReplaySorted (s : Lifecycle M) : LifecycleAction → Prop
  | .replay _ _ => ∀ entry ∈ s.unreplayed.head?, Listing.ordered M = true ∨
    Memtable.getSize (s.replayed cfg entry) < cfg.memtableSize ∨
    ∀ e ∈ Memtable.toRaw (s.mem s.activeMem), e.1 = entry.key
  | .run _ => True

instance (s : Lifecycle M) : DecidablePred (s.ReplaySorted cfg)
  | .replay .. => inferInstanceAs (Decidable (∀ entry ∈ s.unreplayed.head?, _ ∨ _ ∨ _))
  | .run _ => isTrue trivial

end Lifecycle

/-! ## What is sealed -/

/-- What is sealed is sorted, and what is copied has each key once. -/
structure Running.Sealed (s : Running M) : Prop where
  queued : ∀ im ∈ s.immQueue, SortedKeys im.data
  writer : ∀ p im, s.writer = .copied p im → SortedKeys im.data
  copied : ∀ p raw, s.snapshotter = .copied p raw → (raw.map Prod.fst).Nodup
  sealed : ∀ p im, s.snapshotter = .sealed p im → SortedKeys im.data
  peeked : ∀ im, s.flusher = .peeked im → SortedKeys im.data

namespace Running.Sealed
variable {M : Type} [Memtable M] {cfg : Config} {s s' : Running M}

omit [Memtable M] in
theorem mem_push {im im' : ImmutableMemtable} (h : s.Sealed) (him : SortedKeys im.data)
    (him' : im' ∈ s.immQueue ++ [im]) : SortedKeys im'.data := by
  rcases List.mem_append.mp him' with hmem | hmem
  · exact h.queued im' hmem
  · rw [List.mem_singleton.mp hmem]
    exact him

omit [Memtable M] in
theorem append_step (h : s.Sealed) (hstep : s.appendStep cfg key value = some s') : s'.Sealed := by
  rw [appendStep, Shared.append] at hstep
  split at hstep
  · cases hrun : (Engine.appendToWal cfg key value).run s.wal with
    | ok lsn wal =>
      rw [hrun] at hstep
      cases hstep
      exact { h with writer := nofun }
    | error err wal =>
      rw [hrun] at hstep
      cases hstep
      exact { h with }
  · cases hstep

theorem writer_step (h : s.Sealed) (hstep : s.writerStep cfg = some s') : s'.Sealed := by
  cases writerStep_cases hstep with
  | load | add | full | done | swap | clear => exact { h with writer := by simp }
  | copy =>
    refine { h with writer := ?_ }
    rintro p im ⟨⟩
    exact sortedKeys_sortByKeys (Memtable.nodup_toRaw _)
  | push hpc =>
    exact { h with queued := fun _ => h.mem_push (h.writer _ _ hpc), writer := by simp }

theorem snapshotter_step (h : s.Sealed) (hstep : s.snapshotterStep cfg = some s') : s'.Sealed := by
  cases snapshotterStep_cases hstep with
  | empty | nonempty | swap | clear | wait | done =>
    exact { h with copied := by simp, sealed := by simp }
  | copy =>
    refine { h with copied := ?_, sealed := by simp }
    rintro p raw ⟨⟩
    exact Memtable.nodup_toRaw _
  | sealed hpc =>
    refine { h with copied := by simp, sealed := ?_ }
    rintro p im ⟨⟩
    exact sortedKeys_sortByKeys (h.copied _ _ hpc)
  | push hpc =>
    exact { h with
      queued := fun _ => h.mem_push (h.sealed _ _ hpc), copied := by simp, sealed := by simp }

omit [Memtable M] in
theorem flusher_step (h : s.Sealed) (hstep : s.flusherStep path = some s') : s'.Sealed := by
  cases flusherStep_cases hstep with
  | peek _ hhead =>
    refine { h with peeked := ?_ }
    rintro im' ⟨⟩
    exact h.queued _ (List.mem_of_mem_head? hhead)
  | write | register | purge | mark => exact { h with peeked := by simp }
  | pop =>
    exact { h with
      queued := fun im him => h.queued im (List.mem_of_mem_tail him), peeked := by simp }

omit [Memtable M] in
theorem rotate_step (h : s.Sealed) : Sealed { s with toShared := s.rotate } := by
  rw [Shared.rotate]
  split <;> exact { h with }

theorem step (h : s.Sealed) (hstep : s.step cfg a = some s') : s'.Sealed := by
  cases a with
  | append key value => exact h.append_step hstep
  | writer => exact h.writer_step hstep
  | takeSnapshot =>
    rw [Running.step] at hstep
    split at hstep
    · cases hstep
      exact { h with copied := nofun, sealed := nofun }
    · cases hstep
  | snapshotter => exact h.snapshotter_step hstep
  | flusher path => exact h.flusher_step hstep
  | rotate =>
    cases hstep
    exact h.rotate_step

end Running.Sealed

/-! ## What is handed to FlushMemtable -/

theorem sortedKeys_of_single {l : List KeyValue} (hnodup : (l.map Prod.fst).Nodup)
    (h : ∀ e ∈ l, e.1 = key) : SortedKeys l := by
  cases l with
  | nil => exact .nil
  | cons e l =>
    cases l with
    | nil => exact List.pairwise_singleton _ _
    | cons e' l =>
      have : e.1 ≠ e'.1 := by
        simp only [List.map_cons, List.nodup_cons, List.mem_cons, not_or] at hnodup
        exact hnodup.1.1
      exact absurd ((h e (by simp)).trans (h e' (by simp)).symm) this

namespace Lifecycle

/-- Every list handed over was sorted, and what is sealed is sorted. -/
structure Sorted (s : Lifecycle M) : Prop where
  handed : ∀ l ∈ s.handed, SortedKeys l
  running : s.toRunning.Sealed

theorem Sorted.handed_append {s : Lifecycle M} (h : s.Sorted) (hls : ∀ l ∈ ls, SortedKeys l) :
    ∀ l ∈ s.handed ++ ls, SortedKeys l := by
  intro l hl
  rcases List.mem_append.mp hl with hl | hl
  · exact h.handed l hl
  · exact hls l hl

variable {M : Type} [Memtable M] [Listing M] {cfg : Config}

/-- A full memtable that passes the check is listed by key. -/
theorem sorted_snapshot {s : Lifecycle M} (hentry : s.unreplayed = entry :: rest)
    (hok : s.ReplaySorted cfg (.replay snapshot path))
    (hfull : Memtable.getSize (s.replayed cfg entry) ≥ cfg.memtableSize)
    (hlists : Listing.Lists (s.replayed cfg entry) snapshot) : SortedKeys snapshot := by
  rcases hok entry (by rw [hentry]; rfl) with hordered | hsmall | hsingle
  · exact Listing.sorted_of_lists hordered hlists
  · omega
  · have hperm := Listing.perm_of_lists hlists
    have hnodup : (snapshot.map Prod.fst).Nodup :=
      ((hperm.map Prod.fst).nodup_iff).mpr (Memtable.nodup_toRaw _)
    refine sortedKeys_of_single hnodup fun e (he : e ∈ snapshot) => (?_ : e.1 = entry.key)
    -- the memtable has the key of the entry and the keys it had before
    by_contra hne
    have hmem : (Memtable.toRaw (s.replayed cfg entry)).lookup e.1 = some e.2 :=
      (lookup_eq_some_iff_mem (Memtable.nodup_toRaw _)).mpr (hperm.subset he)
    rw [replayed, Memtable.lookup_add, if_neg hne] at hmem
    exact hne (hsingle e ((lookup_eq_some_iff_mem (Memtable.nodup_toRaw _)).mp hmem))

theorem Sorted.step {s s' : Lifecycle M} (h : s.Sorted) (hok : s.ReplaySorted cfg a)
    (hstep : s.step cfg a = some s') : s'.Sorted := by
  cases a with
  | replay snapshot path =>
    rw [Lifecycle.step] at hstep
    cases hentry : s.unreplayed with
    | nil => rw [hentry] at hstep; cases hstep
    | cons entry rest =>
      rw [hentry] at hstep
      obtain ⟨s', happly, rfl⟩ := Option.map_eq_some_iff.mp hstep
      rw [applyWrite] at happly
      split at happly
      · rename_i hfull
        split at happly
        · rename_i hlists
          cases happly
          refine ⟨h.handed_append ?_, { h.running with }⟩
          intro l hl
          rw [List.mem_singleton.mp hl]
          exact sorted_snapshot hentry hok hfull hlists.1
        · cases happly
      · cases happly
        exact ⟨h.handed, { h.running with }⟩
  | run a =>
    rw [Lifecycle.step] at hstep
    split at hstep
    · obtain ⟨r, hr, rfl⟩ := Option.map_eq_some_iff.mp hstep
      refine ⟨h.handed_append ?_, h.running.step hr⟩
      intro l hl
      cases a with
      | flusher path =>
        rw [handedBy] at hl
        split at hl
        · rename_i im him
          rw [List.mem_singleton.mp hl]
          exact h.running.peeked im him
        · cases hl
      | _ => cases hl
    · cases hstep

/-- In every run from any data directory in which the replay passes the check, every list handed to
`FlushMemtable` has strictly increasing keys. -/
theorem handed_sorted
    (hok : System.Guarded (step cfg) (ReplaySorted cfg)
      (start cfg wal versions files : Lifecycle M) actions)
    (hrun : System.run (step cfg) (start cfg wal versions files : Lifecycle M) actions = some s) :
    ∀ l ∈ s.handed, SortedKeys l := by
  have hstart : (start cfg wal versions files : Lifecycle M).Sorted :=
    ⟨fun _ h => absurd h List.not_mem_nil, nofun, nofun, nofun, nofun, nofun⟩
  have hinv : s.Sorted :=
    System.run_invariant_of_guarded (I := fun _ (s : Lifecycle M) => s.Sorted) hstart
      (fun h hok hstep => h.step hok hstep) hok hrun
  exact hinv.handed

/-- A list of two keys is not sorted in both directions. -/
theorem not_sortedKeys_reverse {l : List KeyValue} (h : SortedKeys l) (he : e ∈ l) (he' : e' ∈ l)
    (hne : e ≠ e') : ¬ SortedKeys l.reverse := by
  intro hrev
  rw [SortedKeys, List.pairwise_map] at h hrev
  have hnone : l.Pairwise fun _ _ => False :=
    (h.and (List.pairwise_reverse.mp hrev)).imp fun h => lt_asymm h.1 h.2
  have : Std.Symm fun _ _ : KeyValue => False := ⟨fun _ _ h => h⟩
  exact hnone.forall he he' hne

/-- The check is exact for the hash map: where it fails, the next log entry is flushed with the keys
out of order, if the map lists them so. -/
theorem exists_unsorted_of_not_replaySorted {s : Lifecycle HashMap}
    (hbad : ¬ s.ReplaySorted cfg (.replay l p)) (hfresh : s.getOrOpen path = none) :
    ∃ snapshot s', s.step cfg (.replay snapshot path) = some s' ∧
      ∃ l ∈ s'.handed, ¬ SortedKeys l := by
  simp only [ReplaySorted, not_forall, not_or, not_lt, Option.mem_def] at hbad
  obtain ⟨entry, hentry, -, hfull, e, he, hne⟩ := hbad
  obtain ⟨rest, hrest⟩ : ∃ rest, s.unreplayed = entry :: rest := List.head?_eq_some_iff.mp hentry
  have hnodup := Memtable.nodup_toRaw (s.replayed cfg entry)
  have hmem : ∀ k v, (Memtable.toRaw (s.replayed cfg entry)).lookup k = some v →
      (k, v) ∈ sortByKeys (Memtable.toRaw (s.replayed cfg entry)) :=
    fun k v h => sortByKeys_perm.symm.subset ((lookup_eq_some_iff_mem hnodup).mp h)
  have hnew := hmem entry.key (replayedValue cfg entry) (by
    rw [replayed, Memtable.lookup_add, if_pos rfl])
  have hold := hmem e.1 e.2 (by
    rw [replayed, Memtable.lookup_add, if_neg hne]
    exact (lookup_eq_some_iff_mem (Memtable.nodup_toRaw _)).mpr he)
  have hbad := not_sortedKeys_reverse (sortedKeys_sortByKeys hnodup) hold hnew
    fun h => hne (congrArg Prod.fst h)
  have hlists : Listing.Lists (s.replayed cfg entry)
      (sortByKeys (Memtable.toRaw (s.replayed cfg entry))).reverse :=
    (List.reverse_perm _).trans sortByKeys_perm
  generalize (sortByKeys (Memtable.toRaw (s.replayed cfg entry))).reverse = snapshot at hbad hlists
  have hstep : s.step cfg (.replay snapshot path) =
      some { ({ s with toShared := s.add s.activeMem entry.key (replayedValue cfg entry) } :
        Lifecycle HashMap).replayFlush snapshot path with unreplayed := rest } := by
    rw [step, hrest]
    simp only [applyWrite]
    rw [if_pos hfull, if_pos ⟨hlists, hfresh⟩]
    rfl
  exact ⟨snapshot, _, hstep, snapshot, List.mem_append_right _ List.mem_cons_self, hbad⟩

/-- Four bytes fill the memtable. -/
def tinyConfig : Config := { defaultConfig with memtableSize := 4 }

/-- The log that a process leaves which has written two keys and was stopped before it flushed
them. -/
def leftLog : AppendFileStorage :=
  match System.run (Running.step tinyConfig)
      (.init tinyConfig (.newAppendStorageInDir [] 65536 65536) : Running HashMap)
      [.append [98] [2], .writer, .writer, .writer, .append [97] [1], .writer, .writer] with
  | some s => .newAppendStorageInDir s.wal.disk 65536 65536
  | none => .newAppendStorageInDir [] 65536 65536

/-- The B-tree replays that log, flushes it in order, and the engine then writes and flushes on. -/
theorem handed_sorted_bTree : ∃ s ∈ System.run (step tinyConfig)
    (start tinyConfig leftLog [[]] [] : Lifecycle (BTree 3))
    [.replay [] 0, .replay [([97], [1]), ([98], [2])] 7,
      .run (.append [97] [1, 2, 3]), .run .writer, .run .writer, .run .writer, .run .writer,
      .run .writer, .run (.flusher 8), .run (.flusher 8)],
    s.handed.length = 2 ∧ ∀ l ∈ s.handed, SortedKeys l :=
  ⟨Option.get _ (by decide +kernel), Option.get_mem _, by decide +kernel,
    handed_sorted (by decide +kernel) (Option.some_get _).symm⟩

/-- The hash map may list the two keys in the order in which they were written. -/
theorem replay_hands_unsorted : ∃ s ∈ System.run (step tinyConfig)
    (start tinyConfig leftLog [[]] [] : Lifecycle HashMap)
    [.replay [] 0, .replay [([98], [2]), ([97], [1])] 7], ∃ l ∈ s.handed, ¬ SortedKeys l :=
  ⟨Option.get _ (by decide +kernel), Option.get_mem _, [([98], [2]), ([97], [1])],
    by decide +kernel, by rw [SortedKeys]; decide⟩

end Lifecycle
end ChudDB
