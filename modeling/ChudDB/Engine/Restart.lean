import ChudDB.Engine.Registry

/-! # Restarting

The level directories next to the registry. A table file is written under a random name; the
registry keeps the tables of a level in the order in which they were registered, and `initVersions`
(`engine.go`) rebuilds it from the directories, in the order of the names. -/

namespace ChudDB
open Lib Wal

/-- A name in a level directory: `sstable_<uuid>.db`, or `sstable_<uuid>.db.tmp` while the file is
written. The number of hex digits is fixed, so the names sort as the numbers do. -/
structure FileName where
  uuid : Path
  tmp : Bool
deriving DecidableEq, Repr

instance : LinearOrder FileName :=
  LinearOrder.lift' (fun n => toLex (n.uuid, n.tmp)) fun a b h => by
    cases a
    cases b
    simpa using h

/-- An engine with the level directories of its data root. -/
structure DataDir (M : Type) extends Engine M where
  dirs : List (List FileName)

/-- A flush, a compaction, a write of a table file that fails before the file gets its name, and a
restart. The tables are sorted, as they are written. -/
inductive DirAction where
  | flush (path : Path) (t : SSTable)
  | compact (level : Nat) (old : List Path) (path : Path) (out : SSTable)
  | abandon (level : Nat) (path : Path)
  | restart
deriving DecidableEq, Repr

/-- `os.ReadDir`. -/
def readDir (dir : List FileName) : List FileName := dir.insertionSort (· ≤ ·)

/-- `ListSSTablesInLevel`. -/
def listSSTablesInLevel (dir : List FileName) : List Path :=
  ((readDir dir).filter (!·.tmp)).map (·.uuid)

namespace DataDir
variable {M : Type} [Memtable M] (cfg : Config)

/-- `newEngine` in an empty data directory. -/
def new (wal : AppendFileStorage) : DataDir M :=
  { (Engine.newEngine cfg wal : Engine M) with dirs := List.replicate cfg.lsmLevels [] }

/-- `initVersions`: list the tables and remove the temporary files. -/
def initVersions (s : DataDir M) : DataDir M :=
  { s with
    versions := s.dirs.map listSSTablesInLevel
    dirs := s.dirs.map (·.filter (!·.tmp)) }

/-- A new engine on the data directory. -/
def restart (s : DataDir M) : DataDir M :=
  initVersions { s with toEngine := { Engine.newEngine cfg s.wal with files := s.files } }

def step (s : DataDir M) : DirAction → Option (DataDir M)
  | .flush path t =>
    if s.getOrOpen path = none ∧ SortedKeys t.entries then some { s with
      toEngine := { s.writeTable path t with
        versions := Engine.registerSSTable 0 path s.versions }
      dirs := s.dirs.modify 0 (· ++ [⟨path, false⟩]) }
    else none
  | .compact level old path out =>
    if level + 1 < cfg.lsmLevels ∧ s.getOrOpen path = none ∧ SortedKeys out.entries then some { s with
      toEngine := (s.writeTable path out).installCompaction level path old
      dirs := (s.dirs.modify (level + 1) (· ++ [⟨path, false⟩])).modify level
        (·.filter fun n => !(!n.tmp && n.uuid ∈ old)) }
    else none
  | .abandon level path => some { s with dirs := s.dirs.modify level (· ++ [⟨path, true⟩]) }
  | .restart => some (s.restart cfg)

/-! ## What a directory lists -/

/-- The registered tables of a level are the tables in its directory. -/
def Registered (dir : List FileName) (paths : List Path) : Prop :=
  ((dir.filter (!·.tmp)).map (·.uuid)).Perm paths

/-- Names in order. -/
theorem pairwise_listSSTablesInLevel (dir : List FileName) :
    (listSSTablesInLevel dir).Pairwise (· ≤ ·) := by
  have hs : (readDir dir).Pairwise (· ≤ ·) := List.pairwise_insertionSort _ _
  rw [listSSTablesInLevel, List.pairwise_map]
  refine (hs.filter _).imp fun {a b} h => ?_
  have hlex : toLex (a.uuid, a.tmp) ≤ toLex (b.uuid, b.tmp) := h
  exact (Prod.Lex.le_iff.mp hlex).elim le_of_lt fun h => h.1.le

theorem listSSTablesInLevel_perm (h : Registered dir paths) :
    (listSSTablesInLevel dir).Perm paths :=
  (((List.perm_insertionSort _ dir).filter _).map _).trans h

theorem registered_append (h : Registered dir paths) :
    Registered (dir ++ [⟨path, false⟩]) (paths ++ [path]) := by
  rw [Registered, List.filter_append, List.map_append]
  exact h.append (.refl _)

theorem registered_abandon (h : Registered dir paths) : Registered (dir ++ [⟨path, true⟩]) paths := by
  rw [Registered, List.filter_append, List.map_append]
  exact (List.append_nil _).symm ▸ h

theorem registered_delete {old paths : List Path} (h : Registered dir paths) :
    Registered (dir.filter fun n => !(!n.tmp && n.uuid ∈ old)) (paths.filter (· ∉ old)) := by
  have hmap : ∀ l : List FileName, ((l.filter (!·.tmp)).map (·.uuid)).filter (· ∉ old) =
      ((l.filter fun n => !(!n.tmp && n.uuid ∈ old)).filter (!·.tmp)).map (·.uuid) := by
    intro l
    rw [List.filter_map, List.filter_filter, List.filter_filter]
    congr 2
    funext n
    cases n.tmp <;> simp
  rw [Registered, ← hmap]
  exact h.filter _

theorem registered_initVersions (dir : List FileName) :
    Registered (dir.filter (!·.tmp)) (listSSTablesInLevel dir) := by
  rw [Registered, List.filter_filter]
  simp only [Bool.and_self]
  exact (((List.perm_insertionSort _ dir).filter _).map _).symm

/-- The directories list what the registry holds. -/
def Listed (s : DataDir M) : Prop := List.Forall₂ Registered s.dirs s.versions

variable {cfg} {s s' : DataDir M}

theorem Listed.step (h : s.Listed) (hstep : s.step cfg a = some s') : s'.Listed := by
  cases a with
  | flush path t =>
    rw [DataDir.step] at hstep
    split at hstep
    · cases hstep
      exact forall₂_modify h fun _ _ => registered_append
    · cases hstep
  | compact level old path out =>
    rw [DataDir.step] at hstep
    split at hstep
    · cases hstep
      exact forall₂_modify (forall₂_modify h fun _ _ => registered_append)
        fun _ _ => registered_delete
    · cases hstep
  | abandon level path =>
    cases hstep
    have : List.Forall₂ Registered (s.dirs.modify level (· ++ [⟨path, true⟩]))
        (s.versions.modify level id) := forall₂_modify h fun _ _ => registered_abandon
    rwa [List.modify_id] at this
  | restart =>
    cases hstep
    rw [Listed, restart, initVersions]
    simp only [List.forall₂_map_left_iff, List.forall₂_map_right_iff]
    exact List.forall₂_same.mpr fun dir _ => registered_initVersions dir

theorem listed_new : (new cfg wal : DataDir M).Listed := by
  rw [Listed, new]
  simp only [Engine.newEngine]
  induction cfg.lsmLevels with
  | zero => exact .nil
  | succ n ih => exact .cons (.refl _) ih

theorem listed_of_run (hrun : System.run (step cfg) (new cfg wal : DataDir M) actions = some s) :
    s.Listed :=
  System.run_invariant (I := fun _ (s : DataDir M) => s.Listed) listed_new (fun h => h.step) hrun

end DataDir

/-! ## Reading after a restart -/

namespace Engine
variable {M : Type} (e : Engine M) (key : Key)

/-- In the first of the levels that holds the key, the table that was registered first and the one
whose name sorts first say the same about it. -/
def FirstNameAgrees : List (List Path) → Prop
  | [] => True
  | paths :: deeper =>
    if e.holders key paths = [] then FirstNameAgrees deeper
    else (e.holders key paths).min?.bind (e.version key) =
      (e.holders key paths).head?.bind (e.version key)

/-- If level 0 holds the key, the table that was registered last and the one whose name sorts last
say the same about it; otherwise the first level that does agrees. -/
def NamesAgree : Prop :=
  match e.versions with
  | [] => True
  | level0 :: deeper =>
    if e.holders key level0 = [] then e.FirstNameAgrees key deeper
    else (e.holders key level0).max?.bind (e.version key) =
      (e.holders key level0).getLast?.bind (e.version key)

instance : ∀ levels, Decidable (e.FirstNameAgrees key levels)
  | [] => isTrue trivial
  | paths :: deeper =>
    have := instDecidableFirstNameAgrees deeper
    by unfold FirstNameAgrees; infer_instance

instance : Decidable (e.NamesAgree key) := by
  unfold NamesAgree
  split <;> infer_instance

variable {e key}

theorem firstVersion_append :
    e.firstVersion (paths ++ paths') k = (e.firstVersion paths k).or (e.firstVersion paths' k) :=
  List.findSome?_append

theorem firstVersion_reverse :
    e.firstVersion paths.reverse key = (e.holders key paths).getLast?.bind (e.version key) := by
  rw [firstVersion_eq, holders, List.filter_reverse, List.head?_reverse]
  rfl

theorem firstVersion_eq_none_iff : e.firstVersion paths key = none ↔ e.holders key paths = [] := by
  rw [firstVersion, List.findSome?_eq_none_iff, holders, List.filter_eq_nil_iff]
  simp [version]

theorem firstVersion_reverse_eq_none_iff :
    e.firstVersion paths.reverse key = none ↔ e.holders key paths = [] := by
  rw [firstVersion_eq_none_iff, holders, List.filter_reverse, List.reverse_eq_nil_iff]
  rfl

/-- A level in the order of the names. -/
structure ByName (new old : List Path) : Prop where
  sorted : new.Pairwise (· ≤ ·)
  perm : new.Perm old

theorem ByName.holders (h : ByName new old) : ByName (e.holders key new) (e.holders key old) :=
  ⟨h.sorted.filter _, h.perm.filter _⟩

theorem ByName.firstVersion (h : ByName new old) :
    e.firstVersion new key = (e.holders key old).min?.bind (e.version key) := by
  rw [firstVersion_eq, head?_eq_min?_of_sorted h.holders.sorted h.holders.perm]

theorem ByName.firstVersion_reverse (h : ByName new old) :
    e.firstVersion new.reverse key = (e.holders key old).max?.bind (e.version key) := by
  rw [Engine.firstVersion_reverse, getLast?_eq_max?_of_sorted h.holders.sorted h.holders.perm]

theorem ByName.holders_eq_nil_iff (h : ByName new old) :
    e.holders key new = [] ↔ e.holders key old = [] := by
  rw [← List.perm_nil, ← List.perm_nil]
  exact ⟨h.holders.perm.symm.trans, h.holders.perm.trans⟩

/-- Two searches that agree on whether the first level holds the key. -/
theorem or_eq_or_iff {x y a b : Option Value} (h : x = none ↔ y = none) :
    x.or a = y.or b ↔ if y = none then a = b else x = y := by
  cases y with
  | none => simp [h.mpr rfl]
  | some v =>
    obtain ⟨w, rfl⟩ := Option.ne_none_iff_exists'.mp fun hx => nomatch h.mp hx
    simp

theorem or_eq_none_iff {x y a b : Option Value} (h : x = none ↔ y = none)
    (h' : a = none ↔ b = none) : x.or a = none ↔ y.or b = none := by
  rw [Option.or_eq_none_iff, Option.or_eq_none_iff, h, h']

/-- The levels behind level 0. -/
theorem firstVersion_byName (e : Engine M) (key : Key) {new old : List (List Path)}
    (h : List.Forall₂ ByName new old) :
    (e.firstVersion new.flatten key = none ↔ e.firstVersion old.flatten key = none) ∧
    (e.firstVersion new.flatten key = e.firstVersion old.flatten key ↔
      e.FirstNameAgrees key old) := by
  induction h with
  | nil => exact ⟨.rfl, iff_of_true rfl trivial⟩
  | @cons new old news olds hlevel _ ih =>
    have hnone : e.firstVersion new key = none ↔ e.firstVersion old key = none := by
      rw [firstVersion_eq_none_iff, firstVersion_eq_none_iff, hlevel.holders_eq_nil_iff]
    rw [List.flatten_cons, List.flatten_cons, firstVersion_append, firstVersion_append]
    refine ⟨or_eq_none_iff hnone ih.1, ?_⟩
    rw [or_eq_or_iff hnone, FirstNameAgrees, ih.2]
    simp only [firstVersion_eq_none_iff, hlevel.firstVersion, ← firstVersion_eq]

/-- The tables answer the same in the order of the names exactly when the names agree. -/
theorem readFromSSTables_byName {cfg : Config} {e' : Engine M} (hfiles : e'.files = e.files)
    (h : List.Forall₂ ByName e'.versions e.versions) :
    e'.readFromSSTables cfg key = e.readFromSSTables cfg key ↔ e.NamesAgree key := by
  have hsame : ∀ paths, e'.firstVersion paths key = e.firstVersion paths key := by
    intro paths
    simp only [firstVersion, getOrOpen, hfiles]
  rw [readFromSSTables_eq, readFromSSTables_eq, tableVersion, tableVersion, hsame, NamesAgree]
  generalize e'.versions = new at h
  generalize e.versions = old at h
  cases h with
  | nil => exact iff_of_true rfl trivial
  | @cons new old news olds hlevel hdeeper =>
    obtain ⟨hrest, hagrees⟩ := firstVersion_byName e key hdeeper
    have hnone : e.firstVersion new.reverse key = none ↔ e.firstVersion old.reverse key = none := by
      rw [firstVersion_reverse_eq_none_iff, firstVersion_reverse_eq_none_iff,
        hlevel.holders_eq_nil_iff]
    rw [searchOrder_cons, searchOrder_cons, firstVersion_append, firstVersion_append,
      live_inj (or_eq_none_iff hnone hrest), or_eq_or_iff hnone, hagrees]
    simp only [firstVersion_reverse_eq_none_iff, hlevel.firstVersion_reverse,
      ← firstVersion_reverse]

end Engine

namespace DataDir
variable {M : Type} [Memtable M] {cfg : Config} {s : DataDir M}

theorem byName_restart (h : s.Listed) :
    List.Forall₂ Engine.ByName (s.restart cfg).versions s.versions := by
  rw [restart, initVersions]
  simp only [List.forall₂_map_left_iff]
  exact h.imp fun dir _ h => ⟨pairwise_listSSTablesInLevel dir, listSSTablesInLevel_perm h⟩

/-- After any flushes, compactions, failed writes and restarts, a restart keeps what the tables
answer for a key exactly when the names agree on it. -/
theorem readFromSSTables_restart_iff
    (hrun : System.run (step cfg) (new cfg wal : DataDir M) actions = some s) :
    (s.restart cfg).readFromSSTables cfg key = s.readFromSSTables cfg key ↔ s.NamesAgree key :=
  Engine.readFromSSTables_byName rfl (byName_restart (listed_of_run hrun))

/-- Two versions of a key, and the newer file has the greater name. -/
theorem readFromSSTables_restart_ascending : ∃ s ∈ System.run (step defaultConfig)
    (new defaultConfig (.newAppendStorageInDir [] 67108864 65536) : DataDir HashMap)
    [.flush 3 (Engine.oneKey 1), .flush 9 (Engine.oneKey 2)],
    (s.restart defaultConfig).readFromSSTables defaultConfig [107] =
      s.readFromSSTables defaultConfig [107] :=
  ⟨Option.get _ (by decide +kernel), Option.get_mem _,
    (readFromSSTables_restart_iff (Option.some_get _).symm).mpr (by decide +kernel)⟩

/-- The newer file has the smaller name: after the restart the older one answers. -/
theorem restart_returns_older : ∃ s ∈ System.run (step defaultConfig)
    (new defaultConfig (.newAppendStorageInDir [] 67108864 65536) : DataDir HashMap)
    [.flush 9 (Engine.oneKey 1), .flush 3 (Engine.oneKey 2)],
    s.readFromSSTables defaultConfig [107] = some [2] ∧
      (s.restart defaultConfig).readFromSSTables defaultConfig [107] = some [1] :=
  ⟨_, rfl, rfl, rfl⟩

end DataDir
end ChudDB
