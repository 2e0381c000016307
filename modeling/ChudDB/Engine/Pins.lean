import ChudDB.Compaction.Batches

/-! # Pinned files

A snapshot lists table files and pins them until it is released (`snapshot.go`); a compaction
deletes the files it replaced, and a deletion waits while its file is pinned (`engine.go`). The
registry is guarded by `versionMu`, the pin counts and the waiting deletions by `pinnedMu`. The
first part has the functions on what `pinnedMu` guards and the sequential `TakeSnapshot` with its
error path; the second part runs snapshots, releases, flushes and compactions side by side, one
locked section a step. -/

namespace ChudDB
open Lib

structure SnapshotFile where
  level : Nat
  path : Path
  size : Nat
deriving DecidableEq, Repr

/-- What `pinnedMu` guards; a path that is not in the map `pinned` counts 0. `removed` lists the
calls of `os.Remove`, oldest first. -/
structure Pins where
  pinned : Path → Int
  deferredDeletes : List Path
  removed : List Path

namespace Pins

variable {e : Pins}

def pinFile (path : Path) (e : Pins) : Pins :=
  { e with pinned := Function.update e.pinned path (e.pinned path + 1) }

/-- One turn of the first loop of `unpinFiles`; deleting an entry that is 0 changes no count. -/
def unpinFile (path : Path) (e : Pins) : Pins :=
  { e with pinned := Function.update e.pinned path (e.pinned path - 1) }

/-- The second loop of `unpinFiles`. -/
def sweep (e : Pins) : Pins :=
  { e with
    deferredDeletes := e.deferredDeletes.filter (e.pinned · > 0)
    removed := e.removed ++ e.deferredDeletes.filter (¬ e.pinned · > 0) }

def unpinFiles (files : List SnapshotFile) (e : Pins) : Pins :=
  (files.foldl (fun e f => e.unpinFile f.path) e).sweep

/-- One turn of the loop of `deleteFiles`. -/
def deleteFile (path : Path) (e : Pins) : Pins :=
  if e.pinned path > 0 then { e with deferredDeletes := e.deferredDeletes ++ [path] }
  else { e with removed := e.removed ++ [path] }

def deleteFiles (paths : List Path) (e : Pins) : Pins :=
  paths.foldl (fun e p => e.deleteFile p) e

/-! ## What the functions do to the counts -/

theorem pinned_pinFile : (e.pinFile q).pinned p = e.pinned p + [q].count p := by
  rw [pinFile, List.count_singleton]
  by_cases h : p = q
  · subst h
    simp
  · simp [h, Ne.symm h]

theorem pinned_unpinFile : (e.unpinFile q).pinned p = e.pinned p - [q].count p := by
  rw [unpinFile, List.count_singleton]
  by_cases h : p = q
  · subst h
    simp
  · simp [h, Ne.symm h]

theorem unpinFile_foldl (files : List SnapshotFile) :
    (files.foldl (fun e f => e.unpinFile f.path) e).deferredDeletes = e.deferredDeletes ∧
    (files.foldl (fun e f => e.unpinFile f.path) e).removed = e.removed ∧
    ∀ p, (files.foldl (fun e f => e.unpinFile f.path) e).pinned p =
      e.pinned p - (files.map SnapshotFile.path).count p := by
  induction files generalizing e with
  | nil => simp
  | cons f files ih =>
    obtain ⟨hd, hr, hp⟩ := ih (e := e.unpinFile f.path)
    refine ⟨hd, hr, fun p => ?_⟩
    have hcount : (f.path :: files.map SnapshotFile.path).count p =
        [f.path].count p + (files.map SnapshotFile.path).count p :=
      @List.count_append _ _ p [f.path] _
    rw [List.foldl_cons, hp, pinned_unpinFile, List.map_cons, hcount]
    omega

theorem pinned_unpinFiles {files : List SnapshotFile} :
    (e.unpinFiles files).pinned p = e.pinned p - (files.map SnapshotFile.path).count p :=
  (unpinFile_foldl files).2.2 p

/-- Whatever is deferred is kept or removed by its count after the release. -/
theorem count_unpinFiles {files : List SnapshotFile} :
    (e.unpinFiles files).deferredDeletes.count p =
      (if (e.unpinFiles files).pinned p > 0 then e.deferredDeletes.count p else 0) ∧
    (e.unpinFiles files).removed.count p = e.removed.count p +
      (if (e.unpinFiles files).pinned p > 0 then 0 else e.deferredDeletes.count p) := by
  obtain ⟨hd, hr, -⟩ := unpinFile_foldl (e := e) files
  simp only [unpinFiles, sweep, hd, hr, List.count_append, count_filter_ite, decide_eq_true_eq,
    ite_not, and_self]

theorem pinned_deleteFile : (e.deleteFile q).pinned = e.pinned := by
  rw [deleteFile]
  split <;> rfl

theorem count_deleteFile :
    (e.deleteFile q).deferredDeletes.count p = e.deferredDeletes.count p +
      (if e.pinned p > 0 then [q].count p else 0) ∧
    (e.deleteFile q).removed.count p = e.removed.count p +
      (if e.pinned p > 0 then 0 else [q].count p) := by
  rw [deleteFile]
  by_cases h : p = q
  · subst h
    by_cases hp : e.pinned p > 0 <;> simp [hp]
  · have hq : [q].count p = 0 := List.count_eq_zero.mpr (by simpa using h)
    by_cases hp : e.pinned q > 0 <;> simp [hp, hq]

theorem pinned_deleteFiles : (e.deleteFiles paths).pinned = e.pinned := by
  induction paths generalizing e with
  | nil => rfl
  | cons q paths ih => exact (ih (e := e.deleteFile q)).trans pinned_deleteFile

/-- A deletion is deferred or carried out by the count of its file. -/
theorem count_deleteFiles :
    (e.deleteFiles paths).deferredDeletes.count p = e.deferredDeletes.count p +
      (if e.pinned p > 0 then paths.count p else 0) ∧
    (e.deleteFiles paths).removed.count p = e.removed.count p +
      (if e.pinned p > 0 then 0 else paths.count p) := by
  induction paths generalizing e with
  | nil => simp [deleteFiles]
  | cons q paths ih =>
    obtain ⟨hd, hr⟩ := ih (e := e.deleteFile q)
    obtain ⟨hd', hr'⟩ := count_deleteFile (e := e) (q := q) (p := p)
    have hcount : (q :: paths).count p = [q].count p + paths.count p :=
      @List.count_append _ _ p [q] _
    rw [pinned_deleteFile, hd'] at hd
    rw [pinned_deleteFile, hr'] at hr
    rw [deleteFiles, List.foldl_cons, ← deleteFiles, hd, hr, hcount]
    split <;> omega

/-! ## TakeSnapshot and its error path -/

inductive SnapshotError where
  | stat (path : Path)
deriving DecidableEq, Repr

/-- `Snapshot` with the files it lists. -/
structure FileSnapshot where
  lsn : Nat
  sstables : List SnapshotFile
deriving DecidableEq, Repr

/-- The tables in the order in which the loops of `TakeSnapshot` visit them. -/
def listing (versions : List (List Path)) : List (Nat × Path) :=
  versions.zipIdx.flatMap fun v => v.1.map (v.2, ·)

/-- The loops of `TakeSnapshot`; `stat` is the size `os.Stat` reports, `none` if it fails. -/
def pinListed (stat : Path → Option Nat) :
    List (Nat × Path) → List SnapshotFile → Pins → Except SnapshotError (List SnapshotFile) × Pins
  | [], files, e => (.ok files, e)
  | (level, path) :: rest, files, e =>
    match stat path with
    | none => (.error (.stat path), e)
    | some size => pinListed stat rest (files ++ [⟨level, path, size⟩]) (e.pinFile path)

/-- `TakeSnapshot` from the moment it holds `versionMu`. -/
def takeSnapshot (stat : Path → Option Nat) (versions : List (List Path)) (lsn : Nat) (e : Pins) :
    Except SnapshotError FileSnapshot × Pins :=
  match pinListed stat (listing versions) [] e with
  | (.error err, e) => (.error err, e)
  | (.ok files, e) => (.ok ⟨lsn, files⟩, e)

theorem map_snd_listing : (listing versions).map Prod.snd = versions.flatten := by
  rw [listing, List.map_flatMap]
  simp only [List.map_map, Function.comp_def, List.map_id']
  rw [List.flatMap_def, List.zipIdx_map_fst]

/-- The loops pin the tables before the first one whose `Stat` fails. -/
theorem pinned_pinListed : (pinListed stat l files e).2.pinned p =
    e.pinned p + ((l.map Prod.snd).takeWhile fun q => (stat q).isSome).count p := by
  induction l generalizing files e with
  | nil => simp [pinListed]
  | cons x l ih =>
    obtain ⟨level, q⟩ := x
    rw [pinListed, List.map_cons]
    cases hs : stat q with
    | none => simp [hs]
    | some size =>
      have hcount := @List.count_append _ _ p [q]
        ((l.map Prod.snd).takeWhile fun q => (stat q).isSome)
      rw [List.singleton_append] at hcount
      rw [List.takeWhile_cons_of_pos (by simp [hs]), hcount, ih, pinned_pinFile]
      omega

theorem pinListed_error_iff : (∃ err, (pinListed stat l files e).1 = .error err) ↔
    ∃ q ∈ l.map Prod.snd, stat q = none := by
  induction l generalizing files e with
  | nil => simp [pinListed]
  | cons x l ih =>
    obtain ⟨level, q⟩ := x
    rw [pinListed, List.map_cons, List.exists_mem_cons_iff]
    cases hs : stat q with
    | none => simp
    | some size => simp [ih]

theorem pinListed_of_head (h : (l.map Prod.snd).head? = some q) (hs : stat q = none) :
    (pinListed stat l files e).2 = e := by
  cases l with
  | nil => cases h
  | cons x l =>
    cases h
    rw [pinListed, hs]

theorem takeSnapshot_eq_error_iff : takeSnapshot stat versions lsn e = (.error err, e') ↔
    pinListed stat (listing versions) [] e = (.error err, e') := by
  rw [takeSnapshot]
  split <;> simp_all

/-- The call left the counts as they were, and a later compaction removes and defers what it would
have without the call. -/
def NoTrace (e e' : Pins) : Prop :=
  (∀ p, e'.pinned p = e.pinned p) ∧ ∀ paths,
    (e'.deleteFiles paths).removed = (e.deleteFiles paths).removed ∧
    (e'.deleteFiles paths).deferredDeletes = (e.deleteFiles paths).deferredDeletes

theorem NoTrace.refl : NoTrace e e := ⟨fun _ => rfl, fun _ => ⟨rfl, rfl⟩⟩

/-- A failed `TakeSnapshot` leaves the pins it made: it is without a trace exactly if no `Stat`
fails or the first one does. -/
theorem takeSnapshot_noTrace_iff :
    (∀ err e', takeSnapshot stat versions lsn e = (.error err, e') → NoTrace e e') ↔
    (∀ p ∈ versions.flatten, (stat p).isSome) ∨
      ∃ p, versions.flatten.head? = some p ∧ stat p = none := by
  rw [← map_snd_listing]
  simp only [takeSnapshot_eq_error_iff]
  constructor
  · intro h
    by_cases hall : ∀ p ∈ (listing versions).map Prod.snd, (stat p).isSome
    · exact .inl hall
    · have hfail : ∃ q ∈ (listing versions).map Prod.snd, stat q = none := by simpa using hall
      obtain ⟨err, herr⟩ := (@pinListed_error_iff e _ _ []).mpr hfail
      have htrace := h err _ (Prod.ext herr rfl)
      -- the first table was visited; had its `Stat` gone well, it would be pinned once more
      cases hl : (listing versions).map Prod.snd with
      | nil => simp [hl] at hfail
      | cons q rest =>
        refine .inr ⟨q, rfl, ?_⟩
        have hq := htrace.1 q
        rw [pinned_pinListed, hl] at hq
        cases hs : stat q with
        | none => rfl
        | some size =>
          rw [List.takeWhile_cons_of_pos (by simp [hs]), List.count_cons_self] at hq
          omega
  · rintro (hall | ⟨q, hq, hs⟩) err e' he
    · obtain ⟨q, hq, hs⟩ := pinListed_error_iff.mp ⟨err, congrArg Prod.fst he⟩
      have := hall q hq
      simp [hs] at this
    · have hsame : (pinListed stat (listing versions) [] e).2 = e := pinListed_of_head hq hs
      rw [he] at hsame
      exact hsame ▸ NoTrace.refl

/-- `Stat` fails at the second of two tables: the first one stays pinned, and a compaction that
replaces it never removes it. -/
theorem takeSnapshot_leaves_pin :
    let e : Pins := ⟨fun _ => 0, [], []⟩
    let r := takeSnapshot (fun p => if p = 2 then none else some 100) [[1, 2]] 7 e
    r.1 = .error (.stat 2) ∧ r.2.pinned 1 = 1 ∧ e.pinned 1 = 0 ∧
      (r.2.deleteFiles [1]).removed = [] ∧ (e.deleteFiles [1]).removed = [1] := by
  decide +kernel

end Pins

/-! ## Snapshots, releases and compactions side by side -/

/-- The registry as the first section of `installCompaction` leaves it. -/
def installVersions (r : CompactionResult) (versions : List (List Path)) : List (List Path) :=
  (Engine.registerSSTable (r.level + 1) r.newPath versions).modify r.level
    (·.filter (· ∉ r.oldPaths))

/-- A call of `TakeSnapshot`: inside its loops, with the tables still to be visited and the files
pinned so far; returned; and with its snapshot released. -/
inductive SnapshotCall where
  | taking (rest : List (Nat × Path)) (files : List SnapshotFile)
  | taken (files : List SnapshotFile)
  | released
deriving DecidableEq, Repr

namespace SnapshotCall

/-- The call holds `versionMu` for reading. -/
def reading : SnapshotCall → Bool
  | .taking _ _ => true
  | .taken _ | .released => false

/-- The files that the call has pinned and not given back. -/
def held : SnapshotCall → List Path
  | .taking _ files | .taken files => files.map SnapshotFile.path
  | .released => []

end SnapshotCall

/-- The engine as snapshots and compactions see it. `replacing` has the calls of `installCompaction`
that have left `versionMu` and not yet called `deleteFiles`, `deleted` what was given to
`deleteFiles` so far. -/
structure PinState extends Pins where
  versions : List (List Path)
  calls : List SnapshotCall
  replacing : List (List Path)
  deleted : List Path

/-- A locked section: a call of `TakeSnapshot` takes `versionMu` (`begin`), pins the next table and
lists it with its size, returns (`finish`); `Release`; `registerSSTable`; the two sections of
`installCompaction`. -/
inductive PinAction where
  | begin
  | pin (i : Nat) (size : Nat)
  | finish (i : Nat)
  | release (i : Nat)
  | register (level : Nat) (path : Path)
  | install (r : CompactionResult)
  | delete (j : Nat)
deriving DecidableEq, Repr

namespace PinState

variable {s s' : PinState} {a : PinAction}

/-- A start on the tables found on disk. -/
def init (versions : List (List Path)) : PinState where
  pinned := fun _ => 0
  deferredDeletes := []
  removed := []
  versions := versions
  calls := []
  replacing := []
  deleted := []

/-- Every name a table file has had. -/
def names (s : PinState) : List Path := s.versions.flatten ++ (s.replacing.flatten ++ s.deleted)

/-- The files pinned by snapshots that are being taken or not yet released. -/
def held (s : PinState) : List Path := s.calls.flatMap SnapshotCall.held

/-- No call of `TakeSnapshot` keeps others from taking `versionMu` for writing. -/
def Unlocked (s : PinState) : Prop := ∀ c ∈ s.calls, c.reading = false

instance : Decidable s.Unlocked := inferInstanceAs (Decidable (∀ _ ∈ _, _))

/-- The output of a compaction has a new name; its inputs are different tables of its level. -/
def Installable (r : CompactionResult) (s : PinState) : Prop :=
  r.level + 1 < s.versions.length ∧ r.newPath ∉ s.names ∧ r.oldPaths.Nodup ∧
    ∀ p ∈ r.oldPaths, p ∈ s.versions.getD r.level []

instance : Decidable (Installable r s) := inferInstanceAs (Decidable (_ ∧ _ ∧ _ ∧ _))

def step (s : PinState) : PinAction → Option PinState
  | .begin => some { s with calls := s.calls ++ [.taking (Pins.listing s.versions) []] }
  | .pin i size =>
    match s.calls[i]? with
    | some (.taking ((level, path) :: rest) files) => some { s with
        toPins := s.pinFile path
        calls := s.calls.set i (.taking rest (files ++ [⟨level, path, size⟩])) }
    | _ => none
  | .finish i =>
    match s.calls[i]? with
    | some (.taking [] files) => some { s with calls := s.calls.set i (.taken files) }
    | _ => none
  | .release i =>
    match s.calls[i]? with
    | some (.taken files) => some { s with
        toPins := s.unpinFiles files
        calls := s.calls.set i .released }
    | _ => none
  | .register level path =>
    if s.Unlocked ∧ level < s.versions.length ∧ path ∉ s.names then
      some { s with versions := Engine.registerSSTable level path s.versions }
    else none
  | .install r =>
    if s.Unlocked ∧ s.Installable r then some { s with
      versions := installVersions r s.versions
      replacing := s.replacing ++ [r.oldPaths] }
    else none
  | .delete j =>
    match s.replacing[j]? with
    | some oldPaths => some { s with
        toPins := s.deleteFiles oldPaths
        replacing := s.replacing.eraseIdx j
        deleted := s.deleted ++ oldPaths }
    | none => none

/-- What a step can do. -/
theorem step_cases (h : s.step a = some s') :
    (a = .begin ∧
      s' = { s with calls := s.calls ++ [.taking (Pins.listing s.versions) []] }) ∨
    (∃ i size level path rest files, a = .pin i size ∧
      s.calls[i]? = some (.taking ((level, path) :: rest) files) ∧ s' = { s with
        toPins := s.pinFile path
        calls := s.calls.set i (.taking rest (files ++ [⟨level, path, size⟩])) }) ∨
    (∃ i files, a = .finish i ∧ s.calls[i]? = some (.taking [] files) ∧
      s' = { s with calls := s.calls.set i (.taken files) }) ∨
    (∃ i files, a = .release i ∧ s.calls[i]? = some (.taken files) ∧ s' = { s with
      toPins := s.unpinFiles files
      calls := s.calls.set i .released }) ∨
    (∃ level path, a = .register level path ∧ s.Unlocked ∧ level < s.versions.length ∧
      path ∉ s.names ∧ s' = { s with versions := Engine.registerSSTable level path s.versions }) ∨
    (∃ r, a = .install r ∧ s.Unlocked ∧ s.Installable r ∧ s' = { s with
      versions := installVersions r s.versions
      replacing := s.replacing ++ [r.oldPaths] }) ∨
    ∃ j oldPaths, a = .delete j ∧ s.replacing[j]? = some oldPaths ∧ s' = { s with
      toPins := s.deleteFiles oldPaths
      replacing := s.replacing.eraseIdx j
      deleted := s.deleted ++ oldPaths } := by
  cases a with
  | begin =>
    cases h
    exact .inl ⟨rfl, rfl⟩
  | pin i size =>
    rw [step] at h
    split at h
    · cases h
      exact .inr (.inl ⟨_, _, _, _, _, _, rfl, ‹_›, rfl⟩)
    · cases h
  | finish i =>
    rw [step] at h
    split at h
    · cases h
      exact .inr (.inr (.inl ⟨_, _, rfl, ‹_›, rfl⟩))
    · cases h
  | release i =>
    rw [step] at h
    split at h
    · cases h
      exact .inr (.inr (.inr (.inl ⟨_, _, rfl, ‹_›, rfl⟩)))
    · cases h
  | register level path =>
    obtain ⟨⟨hfree, hlevel, hfresh⟩, heq⟩ := Option.ite_none_right_eq_some.mp h
    cases heq
    exact .inr (.inr (.inr (.inr (.inl ⟨_, _, rfl, hfree, hlevel, hfresh, rfl⟩))))
  | install r =>
    obtain ⟨⟨hfree, hr⟩, heq⟩ := Option.ite_none_right_eq_some.mp h
    cases heq
    exact .inr (.inr (.inr (.inr (.inr (.inl ⟨_, rfl, hfree, hr, rfl⟩)))))
  | delete j =>
    rw [step] at h
    split at h
    · cases h
      exact .inr (.inr (.inr (.inr (.inr (.inr ⟨_, _, rfl, ‹_›, rfl⟩)))))
    · cases h

/-- The files that the compactions of a run replaced. -/
def replaced (as : List PinAction) : List Path :=
  as.flatMap fun
    | .install r => r.oldPaths
    | _ => []

/-- What the pin counts, the waiting deletions and the removals say after a run. -/
structure PinInv (as : List PinAction) (s : PinState) : Prop where
  nodup : s.names.Nodup
  replaced : (s.replacing.flatten ++ s.deleted).Perm (replaced as)
  listed : ∀ rest files, SnapshotCall.taking rest files ∈ s.calls →
    ∀ x ∈ rest, x.2 ∈ s.versions.flatten
  pinned : ∀ p, s.pinned p = s.held.count p
  deferred : ∀ p, s.deferredDeletes.count p = if p ∈ s.deleted ∧ p ∈ s.held then 1 else 0
  removed : ∀ p, s.removed.count p = if p ∈ s.deleted ∧ p ∉ s.held then 1 else 0

/-- A call goes on: what it holds is replaced in the list of what is held. -/
theorem held_set (h : s.calls[i]? = some c) : ∃ l₁ l₂, s.held = l₁ ++ (c.held ++ l₂) ∧
    ∀ c', (s.calls.set i c').flatMap SnapshotCall.held = l₁ ++ (c'.held ++ l₂) := by
  obtain ⟨k₁, k₂, -, hc, hset⟩ := exists_split_set h
  refine ⟨k₁.flatMap SnapshotCall.held, k₂.flatMap SnapshotCall.held, ?_, fun c' => ?_⟩
  · rw [held, hc, List.flatMap_append, List.flatMap_cons]
  · rw [hset, List.flatMap_append, List.flatMap_cons]

theorem flatten_registerSSTable {versions : List (List Path)} (h : level < versions.length) :
    (Engine.registerSSTable level path versions).flatten.Perm (path :: versions.flatten) := by
  obtain ⟨l₁, l₂, rfl, hv, -⟩ := exists_split_set (List.getElem?_eq_getElem h)
  rw [hv, Engine.registerSSTable, modify_append_cons]
  refine List.perm_iff_count.mpr fun p => ?_
  simp only [List.flatten_append, List.flatten_cons, List.count_append, List.count_cons,
    List.count_nil]
  omega

/-- Different members of a list without repetitions, taken out and put at the end. -/
theorem filter_notMem_append_perm {l old : List Path} (hl : l.Nodup) (hold : old.Nodup)
    (hin : ∀ p ∈ old, p ∈ l) : (l.filter (· ∉ old) ++ old).Perm l := by
  refine List.perm_iff_count.mpr fun p => ?_
  rw [List.count_append, count_filter_ite]
  by_cases hp : p ∈ old
  · simp [hp, List.count_eq_one_of_mem hold hp, List.count_eq_one_of_mem hl (hin p hp)]
  · simp [hp, List.count_eq_zero.mpr hp]

/-- The names in the registry and those just replaced are the earlier ones and the new one. -/
theorem flatten_installVersions {versions : List (List Path)} {r : CompactionResult}
    (hlevel : r.level + 1 < versions.length) (hnodup : versions.flatten.Nodup)
    (hold : r.oldPaths.Nodup) (hin : ∀ p ∈ r.oldPaths, p ∈ versions.getD r.level []) :
    ((installVersions r versions).flatten ++ r.oldPaths).Perm (r.newPath :: versions.flatten) := by
  obtain ⟨level, newPath, oldPaths⟩ := r
  dsimp only at hlevel hold hin ⊢
  have hreg : (Engine.registerSSTable (level + 1) newPath versions).flatten.Perm
    (newPath :: versions.flatten) := flatten_registerSSTable hlevel
  have hlt : level < versions.length := Nat.lt_of_succ_lt hlevel
  have hget : (Engine.registerSSTable (level + 1) newPath versions)[level]? =
      some (versions.getD level []) := by
    rw [Engine.registerSSTable, List.getElem?_modify_ne _ _ (Nat.succ_ne_self level),
      List.getElem?_eq_getElem hlt, List.getD_eq_getElem _ _ hlt]
  obtain ⟨l₁, l₂, rfl, hv, -⟩ := exists_split_set hget
  rw [installVersions, hv, modify_append_cons]
  rw [hv] at hreg
  have hsub : (versions.getD l₁.length []).Sublist versions.flatten := by
    rw [List.getD_eq_getElem _ _ hlt]
    exact List.sublist_flatten_of_mem (List.getElem_mem _)
  have hfilter := filter_notMem_append_perm (hnodup.sublist hsub) hold hin
  refine List.Perm.trans (List.perm_iff_count.mpr fun p => ?_) hreg
  have hp := List.perm_iff_count.mp hfilter p
  simp only [List.flatten_append, List.flatten_cons, List.count_append] at hp ⊢
  omega

theorem flatten_eraseIdx_perm {l : List (List Path)} {paths : List Path}
    (h : l[j]? = some paths) : l.flatten.Perm ((l.eraseIdx j).flatten ++ paths) := by
  obtain ⟨l₁, l₂, rfl, rfl, -⟩ := exists_split_set h
  refine List.perm_iff_count.mpr fun p => ?_
  rw [List.eraseIdx_append_of_length_le le_rfl, Nat.sub_self, List.eraseIdx_cons_zero]
  simp only [List.flatten_append, List.flatten_cons, List.count_append]
  omega

namespace PinInv

variable {as : List PinAction}

theorem init {versions : List (List Path)} (h : versions.flatten.Nodup) :
    PinInv [] (PinState.init versions) where
  nodup := by simpa [names, PinState.init] using h
  replaced := .refl _
  listed := by simp [PinState.init]
  pinned := by simp [PinState.init, held]
  deferred := by simp [PinState.init]
  removed := by simp [PinState.init]

theorem not_deleted (h : PinInv as s) (hp : p ∈ s.versions.flatten) : p ∉ s.deleted := fun hd =>
  (List.nodup_append.mp h.nodup).2.2 p hp p (List.mem_append_right _ hd) rfl

theorem pinned_pos_iff (h : PinInv as s) : s.pinned p > 0 ↔ p ∈ s.held := by
  rw [h.pinned p, ← List.count_pos_iff]
  omega

/-- Steps of snapshots that neither defer nor remove a file. -/
theorem move_calls {t : Pins} {cs : List SnapshotCall} (h : PinInv as s)
    (hlisted : ∀ rest files, SnapshotCall.taking rest files ∈ cs →
      ∀ x ∈ rest, x.2 ∈ s.versions.flatten)
    (hpinned : ∀ p, t.pinned p = (cs.flatMap SnapshotCall.held).count p)
    (hheld : ∀ p ∈ s.deleted, p ∈ cs.flatMap SnapshotCall.held ↔ p ∈ s.held)
    (hdeferred : t.deferredDeletes = s.deferredDeletes) (hremoved : t.removed = s.removed)
    (ha : PinState.replaced [a] = []) :
    PinInv (as ++ [a]) { s with toPins := t, calls := cs } where
  nodup := h.nodup
  replaced := by
    rw [PinState.replaced, List.flatMap_append, ← PinState.replaced, ← PinState.replaced, ha,
      List.append_nil]
    exact h.replaced
  listed := hlisted
  pinned := hpinned
  deferred := fun p => by
    have hp := h.deferred p
    rw [← hdeferred] at hp
    refine hp.trans (if_congr (and_congr_right fun hd => ?_) rfl rfl)
    exact (hheld p hd).symm
  removed := fun p => by
    have hp := h.removed p
    rw [← hremoved] at hp
    refine hp.trans (if_congr (and_congr_right fun hd => ?_) rfl rfl)
    exact not_congr (hheld p hd).symm

theorem step_begin (h : PinInv as s) : PinInv (as ++ [.begin])
    { s with calls := s.calls ++ [.taking (Pins.listing s.versions) []] } := by
  have hheld : (s.calls ++ [SnapshotCall.taking (Pins.listing s.versions) []]).flatMap
      SnapshotCall.held = s.held := by simp [held, SnapshotCall.held]
  refine h.move_calls (t := s.toPins) ?_ ?_ ?_ rfl rfl rfl
  · intro rest files hmem x hx
    rcases List.mem_append.mp hmem with hmem | hmem
    · exact h.listed rest files hmem x hx
    · rw [List.mem_singleton] at hmem
      injection hmem with hrest
      subst hrest
      rw [← Pins.map_snd_listing]
      exact List.mem_map_of_mem hx
  · rw [hheld]
    exact h.pinned
  · rw [hheld]
    exact fun _ _ => .rfl

theorem listed_set (h : PinInv as s) {c : SnapshotCall}
    (hc : ∀ rest files, c = .taking rest files → ∀ x ∈ rest, x.2 ∈ s.versions.flatten) :
    ∀ rest files, SnapshotCall.taking rest files ∈ s.calls.set i c →
      ∀ x ∈ rest, x.2 ∈ s.versions.flatten := by
  intro rest files hmem
  rcases List.mem_or_eq_of_mem_set hmem with hmem | heq
  · exact h.listed rest files hmem
  · exact hc rest files heq.symm

theorem step_pin (h : PinInv as s)
    (hc : s.calls[i]? = some (.taking ((level, path) :: rest) files)) :
    PinInv (as ++ [.pin i size]) { s with
      toPins := s.pinFile path
      calls := s.calls.set i (.taking rest (files ++ [⟨level, path, size⟩])) } := by
  have hlisted := h.listed _ _ (List.mem_of_getElem? hc)
  obtain ⟨l₁, l₂, hheld, hset⟩ := held_set hc
  have hnew := hset (.taking rest (files ++ [⟨level, path, size⟩]))
  simp only [SnapshotCall.held, List.map_append, List.map_singleton] at hheld hnew
  refine h.move_calls (h.listed_set fun _ _ heq x hx => ?_) (fun p => ?_) (fun p hd => ?_) rfl rfl rfl
  · injection heq with hrest
    subst hrest
    exact hlisted x (List.mem_cons_of_mem _ hx)
  · rw [Pins.pinned_pinFile, h.pinned p, hheld, hnew]
    simp only [List.count_append]
    omega
  · -- the file is in the registry, so no compaction has replaced it
    have hne : p ≠ path := by
      rintro rfl
      exact h.not_deleted (hlisted (level, p) List.mem_cons_self) hd
    rw [hheld, hnew]
    simp [hne]

theorem step_finish (h : PinInv as s) (hc : s.calls[i]? = some (.taking [] files)) :
    PinInv (as ++ [.finish i]) { s with calls := s.calls.set i (.taken files) } := by
  obtain ⟨l₁, l₂, hheld, hset⟩ := held_set hc
  have hsame : (s.calls.set i (.taken files)).flatMap SnapshotCall.held = s.held :=
    (hset (.taken files)).trans hheld.symm
  refine h.move_calls (t := s.toPins) (h.listed_set (by simp)) ?_ ?_ rfl rfl rfl
  · rw [hsame]
    exact h.pinned
  · rw [hsame]
    exact fun _ _ => .rfl

theorem step_release (h : PinInv as s) (hc : s.calls[i]? = some (.taken files)) :
    PinInv (as ++ [.release i]) { s with
      toPins := s.unpinFiles files
      calls := s.calls.set i .released } := by
  obtain ⟨l₁, l₂, hheld, hset⟩ := held_set hc
  have hnew := hset .released
  simp only [SnapshotCall.held, List.nil_append] at hheld hnew
  have hcount : ∀ p, (s.unpinFiles files).pinned p = ((l₁ ++ l₂).count p : Nat) := by
    intro p
    rw [Pins.pinned_unpinFiles, h.pinned p, hheld]
    simp only [List.count_append]
    omega
  have hpos : ∀ p, (s.unpinFiles files).pinned p > 0 ↔ p ∈ l₁ ++ l₂ := by
    intro p
    rw [hcount p, ← List.count_pos_iff]
    omega
  have hsub : ∀ p, p ∈ l₁ ++ l₂ → p ∈ s.held := by
    intro p hp
    rw [hheld]
    rcases List.mem_append.mp hp with hp | hp <;> simp [hp]
  refine ⟨h.nodup, ?_, h.listed_set (by simp), fun p => ?_, fun p => ?_, fun p => ?_⟩
  · simpa [PinState.replaced] using h.replaced
  · rw [held, hnew]
    exact hcount p
  · rw [held, hnew]
    refine Pins.count_unpinFiles.1.trans ?_
    rw [h.deferred p]
    have := hsub p
    by_cases hp : p ∈ l₁ ++ l₂
    · simp only [if_pos ((hpos p).mpr hp), hp, this hp, and_true]
    · simp only [if_neg fun hq => hp ((hpos p).mp hq), hp, and_false, if_false]
  · rw [held, hnew]
    refine Pins.count_unpinFiles.2.trans ?_
    rw [h.deferred p, h.removed p]
    by_cases hp : p ∈ l₁ ++ l₂
    · simp only [if_pos ((hpos p).mpr hp), hp, hsub p hp, not_true, and_false, if_false]
    · simp only [if_neg fun hq => hp ((hpos p).mp hq), hp, not_false_eq_true, and_true]
      by_cases hs : p ∈ s.held <;> simp [hs]

/-- A table gets a name that no file has had. -/
theorem step_register {path : Path} (h : PinInv as s) (hlevel : level < s.versions.length)
    (hfresh : path ∉ s.names) : PinInv (as ++ [.register level path])
    { s with versions := Engine.registerSSTable level path s.versions } := by
  have hperm : (Engine.registerSSTable level path s.versions).flatten.Perm
    (path :: s.versions.flatten) := flatten_registerSSTable hlevel
  refine ⟨?_, ?_, fun rest files hmem x hx => ?_, h.pinned, h.deferred, h.removed⟩
  · have hnames := hperm.append_right (s.replacing.flatten ++ s.deleted)
    exact hnames.nodup_iff.mpr (List.nodup_cons.mpr ⟨hfresh, h.nodup⟩)
  · simpa [PinState.replaced] using h.replaced
  · exact hperm.mem_iff.mpr (List.mem_cons_of_mem _ (h.listed rest files hmem x hx))

theorem step_install (h : PinInv as s) (hfree : s.Unlocked) (hr : s.Installable r) :
    PinInv (as ++ [.install r]) { s with
      versions := installVersions r s.versions
      replacing := s.replacing ++ [r.oldPaths] } := by
  obtain ⟨hlevel, hfresh, hold, hin⟩ := hr
  have hperm := flatten_installVersions hlevel (List.nodup_append.mp h.nodup).1 hold hin
  refine ⟨?_, ?_, fun rest files hmem => ?_, h.pinned, h.deferred, h.removed⟩
  · have hnames : ((installVersions r s.versions).flatten ++
        ((s.replacing ++ [r.oldPaths]).flatten ++ s.deleted)).Perm (r.newPath :: s.names) := by
      refine List.perm_iff_count.mpr fun p => ?_
      have hp := List.perm_iff_count.mp hperm p
      simp only [names, List.flatten_append, List.flatten_singleton, List.count_append,
        List.count_cons] at hp ⊢
      omega
    exact hnames.nodup_iff.mpr (List.nodup_cons.mpr ⟨hfresh, h.nodup⟩)
  · refine List.perm_iff_count.mpr fun p => ?_
    have hp := List.perm_iff_count.mp h.replaced p
    simp only [PinState.replaced, List.flatMap_append, List.flatMap_singleton, List.flatten_append,
      List.flatten_singleton, List.count_append] at hp ⊢
    omega
  · -- a call that holds `versionMu` keeps the compaction waiting
    cases hfree _ hmem

theorem step_delete (h : PinInv as s) (hj : s.replacing[j]? = some oldPaths) :
    PinInv (as ++ [.delete j]) { s with
      toPins := s.deleteFiles oldPaths
      replacing := s.replacing.eraseIdx j
      deleted := s.deleted ++ oldPaths } := by
  have hperm : (s.replacing.flatten ++ s.deleted).Perm
      ((s.replacing.eraseIdx j).flatten ++ (s.deleted ++ oldPaths)) := by
    refine List.perm_iff_count.mpr fun p => ?_
    have hp := List.perm_iff_count.mp (flatten_eraseIdx_perm hj) p
    simp only [List.count_append] at hp ⊢
    omega
  have hnodup := ((hperm.append_left s.versions.flatten).nodup_iff.mp h.nodup)
  -- a file is given to `deleteFiles` once
  have honce : ∀ p, (if p ∈ s.deleted then 1 else 0) + oldPaths.count p =
      if p ∈ s.deleted ++ oldPaths then 1 else 0 := by
    intro p
    have hall : (s.deleted ++ oldPaths).Nodup :=
      (List.nodup_append.mp (List.nodup_append.mp hnodup).2.1).2.1
    rw [← hall.count, List.count_append, (List.nodup_append.mp hall).1.count]
  refine ⟨hnodup, ?_, h.listed, fun p => ?_, fun p => ?_, fun p => ?_⟩
  · simpa [PinState.replaced] using hperm.symm.trans h.replaced
  · exact (congrFun Pins.pinned_deleteFiles p).trans (h.pinned p)
  · refine Pins.count_deleteFiles.1.trans ?_
    rw [h.deferred p]
    by_cases hp : p ∈ s.held
    · simp only [hp, and_true, if_pos (h.pinned_pos_iff.mpr hp)]
      exact (honce p).trans (if_congr ⟨fun hq => ⟨hq, hp⟩, And.left⟩ rfl rfl)
    · simp only [hp, and_false, if_false, if_neg fun hq => hp (h.pinned_pos_iff.mp hq)]
      exact (if_neg fun hq => hp hq.2).symm
  · refine Pins.count_deleteFiles.2.trans ?_
    rw [h.removed p]
    by_cases hp : p ∈ s.held
    · simp only [hp, not_true, and_false, if_false, if_pos (h.pinned_pos_iff.mpr hp)]
      exact (if_neg fun hq => hq.2 hp).symm
    · simp only [hp, not_false_eq_true, and_true, if_neg fun hq => hp (h.pinned_pos_iff.mp hq)]
      exact (honce p).trans (if_congr ⟨fun hq => ⟨hq, hp⟩, And.left⟩ rfl rfl)

theorem step (h : PinInv as s) (hstep : s.step a = some s') : PinInv (as ++ [a]) s' := by
  obtain ⟨rfl, rfl⟩ | ⟨i, size, level, path, rest, files, rfl, hc, rfl⟩ | ⟨i, files, rfl, hc, rfl⟩ |
    ⟨i, files, rfl, hc, rfl⟩ | ⟨level, path, rfl, -, hlevel, hfresh, rfl⟩ |
    ⟨r, rfl, hfree, hr, rfl⟩ | ⟨j, oldPaths, rfl, hj, rfl⟩ := step_cases hstep
  · exact h.step_begin
  · exact h.step_pin hc
  · exact h.step_finish hc
  · exact h.step_release hc
  · exact h.step_register hlevel hfresh
  · exact h.step_install hfree hr
  · exact h.step_delete hj

end PinInv

/-! ## Every run -/

/-- The step removes the file: it is given to `deleteFiles` while no snapshot holds it, or it was
given to `deleteFiles` before and the snapshot that is released is the last one to hold it. -/
def Removes (s : PinState) (p : Path) : PinAction → Prop
  | .delete j => ∃ oldPaths, s.replacing[j]? = some oldPaths ∧ p ∈ oldPaths ∧ p ∉ s.held
  | .release i => ∃ files, s.calls[i]? = some (.taken files) ∧ p ∈ files.map SnapshotFile.path ∧
      p ∈ s.deleted ∧ s.held.count p = (files.map SnapshotFile.path).count p
  | _ => False

/-- What is promised about the files after a run: those a snapshot lists are still there until it is
released, and a replaced file, once `deleteFiles` has been called for it, is removed exactly if no
snapshot holds it, and then once. -/
structure Sound (as : List PinAction) (s : PinState) : Prop where
  kept : ∀ files, SnapshotCall.taken files ∈ s.calls → ∀ f ∈ files, f.path ∉ s.removed
  once : ∀ p ∈ replaced as, s.removed.count p =
    if p ∉ s.replacing.flatten ∧ p ∉ s.held then 1 else 0
  others : ∀ p ∉ replaced as, p ∉ s.removed

namespace PinInv

variable {as : List PinAction}

theorem mem_deleted_iff (h : PinInv as s) :
    p ∈ s.deleted ↔ p ∈ PinState.replaced as ∧ p ∉ s.replacing.flatten := by
  have hnodup := (List.nodup_append.mp h.nodup).2.1
  rw [← h.replaced.mem_iff, List.mem_append]
  constructor
  · intro hd
    exact ⟨.inr hd, fun hr => (List.nodup_append.mp hnodup).2.2 p hr p hd rfl⟩
  · rintro ⟨hr | hd, hn⟩
    · exact absurd hr hn
    · exact hd

theorem sound (h : PinInv as s) : Sound as s where
  kept := fun files hmem f hf hr => by
    have hheld : f.path ∈ s.held := List.mem_flatMap.mpr ⟨_, hmem, List.mem_map_of_mem hf⟩
    have hcount := h.removed f.path
    rw [if_neg fun hq => hq.2 hheld] at hcount
    exact List.count_eq_zero.mp hcount hr
  once := fun p hp => by
    refine (h.removed p).trans (if_congr (and_congr_left fun _ => ?_) rfl rfl)
    rw [h.mem_deleted_iff]
    exact and_iff_right hp
  others := fun p hp hr => by
    have hcount := h.removed p
    rw [if_neg fun hq => hp (h.mem_deleted_iff.mp hq.1).1] at hcount
    exact List.count_eq_zero.mp hcount hr

theorem count_removed_release (h : PinInv as s) (hc : s.calls[i]? = some (.taken files)) :
    (s.Removes p (.release i) → (s.unpinFiles files).removed.count p = s.removed.count p + 1) ∧
      (¬ s.Removes p (.release i) → (s.unpinFiles files).removed.count p = s.removed.count p) := by
  obtain ⟨l₁, l₂, hheld, hset⟩ := held_set hc
  have hnext := (h.step_release hc).removed p
  rw [held, hset .released] at hnext
  simp only [SnapshotCall.held, List.nil_append] at hheld hnext
  rw [h.removed p, hnext]
  simp only [Removes, hc, Option.some.injEq, SnapshotCall.taken.injEq, exists_eq_left']
  have hcount : s.held.count p = (files.map SnapshotFile.path).count p ↔ p ∉ l₁ ++ l₂ := by
    rw [hheld, ← List.count_eq_zero]
    simp only [List.count_append]
    omega
  have hmem : p ∈ s.held ↔ p ∈ files.map SnapshotFile.path ∨ p ∈ l₁ ++ l₂ := by
    rw [hheld]
    simp only [List.mem_append]
    tauto
  rw [hcount]
  by_cases hd : p ∈ s.deleted <;> by_cases hf : p ∈ files.map SnapshotFile.path <;>
    by_cases hl : p ∈ l₁ ++ l₂ <;> simp only [hmem, hd, hf, hl] <;> decide

theorem count_removed_delete (h : PinInv as s) (hj : s.replacing[j]? = some oldPaths) :
    (s.Removes p (.delete j) → (s.deleteFiles oldPaths).removed.count p = s.removed.count p + 1) ∧
      (¬ s.Removes p (.delete j) →
        (s.deleteFiles oldPaths).removed.count p = s.removed.count p) := by
  have hreplacing : s.replacing.flatten.Nodup :=
    (List.nodup_append.mp (List.nodup_append.mp h.nodup).2.1).1
  have hold : oldPaths.Nodup :=
    hreplacing.sublist (List.sublist_flatten_of_mem (List.mem_of_getElem? hj))
  rw [Pins.count_deleteFiles.2, hold.count]
  simp only [Removes, hj, Option.some.injEq, exists_eq_left', h.pinned_pos_iff]
  by_cases hp : p ∈ oldPaths <;> by_cases hh : p ∈ s.held <;> simp [hp, hh]

/-- The steps that remove a file are the two kinds of `Removes`. -/
theorem count_removed_step (h : PinInv as s) (hstep : s.step a = some s') :
    (s.Removes p a → s'.removed.count p = s.removed.count p + 1) ∧
      (¬ s.Removes p a → s'.removed.count p = s.removed.count p) := by
  obtain ⟨rfl, rfl⟩ | ⟨i, size, level, path, rest, files, rfl, -, rfl⟩ | ⟨i, files, rfl, -, rfl⟩ |
    ⟨i, files, rfl, hc, rfl⟩ | ⟨level, path, rfl, -, -, -, rfl⟩ | ⟨r, rfl, -, -, rfl⟩ |
    ⟨j, oldPaths, rfl, hj, rfl⟩ := step_cases hstep
  · exact ⟨False.elim, fun _ => rfl⟩
  · exact ⟨False.elim, fun _ => rfl⟩
  · exact ⟨False.elim, fun _ => rfl⟩
  · exact h.count_removed_release hc
  · exact ⟨False.elim, fun _ => rfl⟩
  · exact ⟨False.elim, fun _ => rfl⟩
  · exact h.count_removed_delete hj

end PinInv

/-- In every interleaving of snapshots, releases, flushes and compactions, no file that an
unreleased snapshot lists is removed, and every replaced file is removed once: when `deleteFiles` is
called for it if no snapshot holds it, otherwise at the `Release` that drops its last pin. -/
theorem sound_of_run {versions : List (List Path)} (hnodup : versions.flatten.Nodup)
    (hrun : System.run step (init versions) as = some s) :
    Sound as s ∧ ∀ a s', s.step a = some s' → ∀ p,
      (s.Removes p a → s'.removed.count p = s.removed.count p + 1) ∧
      (¬ s.Removes p a → s'.removed.count p = s.removed.count p) := by
  have h : PinInv as s := System.run_invariant (PinInv.init hnodup) PinInv.step hrun
  exact ⟨h.sound, fun a s' hstep p => h.count_removed_step hstep⟩

/-- Two snapshots list the inputs of a compaction; the second one is released last. -/
def twoSnapshots : List PinAction :=
  [.begin, .pin 0 10, .begin, .pin 1 10, .pin 0 20, .finish 0, .pin 1 20, .finish 1,
    .install ⟨0, 3, [1, 2]⟩, .release 0, .delete 0, .release 1]

theorem sound_of_run_twoSnapshots :
    ∃ s ∈ System.run step (init [[1, 2], []]) twoSnapshots,
      Sound twoSnapshots s ∧ s.removed = [1, 2] := by
  have hremoved : (System.run step (init [[1, 2], []]) twoSnapshots).map (·.removed) =
      some [1, 2] := by decide +kernel
  obtain ⟨s, hs, hr⟩ := Option.map_eq_some_iff.mp hremoved
  exact ⟨s, hs, (sound_of_run (by decide) hs).1, hr⟩

/-! ## An undisturbed call -/

theorem run_pinListed (hc : s.calls[i]? = some (.taking l files))
    (h : Pins.pinListed stat l files s.toPins = (.ok files', e)) :
    ∃ as, System.run step s as =
      some { s with toPins := e, calls := s.calls.set i (.taking [] files') } := by
  induction l generalizing s files with
  | nil =>
    cases h
    obtain ⟨l₁, l₂, -, hl, hset⟩ := exists_split_set hc
    refine ⟨[], ?_⟩
    rw [hset, ← hl]
    rfl
  | cons x l ih =>
    obtain ⟨level, path⟩ := x
    rw [Pins.pinListed] at h
    split at h
    case h_1 => cases h
    case h_2 size hsize =>
      have hi : i < s.calls.length := lt_length_of_getElem? hc
      have hstep : s.step (.pin i size) = some { s with
          toPins := s.pinFile path
          calls := s.calls.set i (.taking l (files ++ [⟨level, path, size⟩])) } := by
        rw [step, hc]
      obtain ⟨as, has⟩ := ih (s := { s with
          toPins := s.pinFile path
          calls := s.calls.set i (.taking l (files ++ [⟨level, path, size⟩])) })
        (List.getElem?_set_self hi) h
      refine ⟨.pin i size :: as, ?_⟩
      rw [System.run_cons_of_step hstep, has, List.set_set]

/-- A successful `TakeSnapshot` is what its locked sections do one after another. -/
theorem run_takeSnapshot
    (h : Pins.takeSnapshot stat s.versions lsn s.toPins = (.ok snapshot, e)) :
    ∃ as, System.run step s as =
      some { s with toPins := e, calls := s.calls ++ [.taken snapshot.sstables] } := by
  rw [Pins.takeSnapshot] at h
  split at h
  case h_1 => cases h
  case h_2 files e' hlisted =>
    cases h
    have hc : (s.calls ++ [SnapshotCall.taking (Pins.listing s.versions) []])[s.calls.length]? =
        some (.taking (Pins.listing s.versions) []) := List.getElem?_concat_length
    obtain ⟨as, has⟩ := run_pinListed
      (s := { s with calls := s.calls ++ [.taking (Pins.listing s.versions) []] }) hc hlisted
    have hset : ∀ c, (s.calls ++ [SnapshotCall.taking (Pins.listing s.versions) []]).set
        s.calls.length c = s.calls ++ [c] := fun c => by
      rw [List.set_append_right _ _ le_rfl, Nat.sub_self, List.set_cons_zero]
    rw [hset] at has
    refine ⟨.begin :: (as ++ [.finish s.calls.length]), ?_⟩
    refine (System.run_cons_of_step rfl).trans (System.run_concat.mpr ⟨_, has, ?_⟩)
    simp [step]

end PinState
end ChudDB
