import ChudDB.Engine.ReadLaw

/-! # Tables that fail

`readFromSSTables` (`read.go`) when tables cannot be opened or read. A table whose `GetOrOpen` or
`Get` fails is passed over like one that does not hold the key, and no error is returned, so the
answer may come from an older table. -/

namespace ChudDB
open Lib

/-- The calls that fail while a key is looked up. -/
structure TableFaults where
  getOrOpen : Path → Bool
  get : Path → Bool

namespace TableFaults

/-- No call fails. -/
def none : TableFaults := ⟨fun _ => false, fun _ => false⟩

/-- The table cannot be opened or not be read. -/
def fails (faults : TableFaults) (path : Path) : Bool := faults.getOrOpen path || faults.get path

end TableFaults

namespace Engine

variable {M : Type} (cfg : Config) (faults : TableFaults)

/-- The body of the loop of `readFromSSTables`; `none` goes on to the next table. -/
def versionAt (e : Engine M) (path : Path) (key : Key) : Option Value :=
  if faults.getOrOpen path then none
  else match e.getOrOpen path with
    | none => none
    | some reader => if faults.get path then none else reader.get key

/-- `readFromSSTables` with failures. -/
def readFromSSTablesWith (e : Engine M) (key : Key) : Except EngineError (Option Value) :=
  match (searchOrder e.versions).findSome? (e.versionAt faults · key) with
  | some v => if v = cfg.tombstone then .ok none else .ok (some v)
  | none => .ok none

/-- If the first table that holds the key fails, the first one that holds it and does not fail has
the same version; and if there is none, the version is a delete. -/
def FailuresHarmless (e : Engine M) (key : Key) : Prop :=
  ∀ p ∈ (e.visited key).head?, faults.fails p →
    match ((e.visited key).filter (!faults.fails ·)).head? with
    | some q => e.version key q = e.version key p
    | none => e.version key p = some cfg.tombstone

variable {cfg faults} {e : Engine M}

theorem versionAt_eq :
    e.versionAt faults path key = if faults.fails path then none else e.version key path := by
  rw [versionAt, TableFaults.fails, version]
  cases faults.getOrOpen path <;> cases e.getOrOpen path <;> cases faults.get path <;> rfl

/-- The answer comes from the first table that holds the key and does not fail. -/
theorem readFromSSTablesWith_eq : e.readFromSSTablesWith cfg faults key =
    .ok (live cfg.tombstone
      (((e.visited key).filter (!faults.fails ·)).head?.bind (e.version key))) := by
  have hfilter : ((searchOrder e.versions).filter fun path =>
      (e.versionAt faults path key).isSome) = (e.visited key).filter (!faults.fails ·) := by
    rw [visited, holders, List.filter_filter]
    apply List.filter_congr
    intro path _
    rw [versionAt_eq]
    cases faults.fails path <;> simp
  have hfirst : (searchOrder e.versions).findSome? (e.versionAt faults · key) =
      ((e.visited key).filter (!faults.fails ·)).head?.bind (e.version key) := by
    rw [findSome?_eq_head?, hfilter]
    cases hhead : ((e.visited key).filter (!faults.fails ·)).head? with
    | none => rfl
    | some q =>
      have hok : (!faults.fails q) = true := (List.mem_filter.mp (List.mem_of_head? hhead)).2
      simp only [Option.bind_some, versionAt_eq]
      rw [if_neg (by simpa using hok)]
  rw [readFromSSTablesWith, hfirst]
  cases ((e.visited key).filter (!faults.fails ·)).head?.bind (e.version key) with
  | none => rfl
  | some v =>
    dsimp only
    rw [live_some, apply_ite Except.ok]

theorem readFromSSTablesWith_none :
    e.readFromSSTablesWith cfg .none key = .ok (e.readFromSSTables cfg key) := by
  rw [readFromSSTablesWith_eq, readFromSSTables_eq, tableVersion_eq]
  simp [TableFaults.fails, TableFaults.none]

/-- `readFromSSTables` never returns an error, and on sorted tables, as they are written, it answers
as it would without failures exactly if the failures are harmless. -/
theorem reports_or_answers_iff (_hsorted : ∀ f ∈ e.files, SortedKeys f.2.entries) :
    ((∃ err, e.readFromSSTablesWith cfg faults key = .error err) ∨
      e.readFromSSTablesWith cfg faults key = e.readFromSSTablesWith cfg .none key) ↔
    e.FailuresHarmless cfg faults key := by
  rw [readFromSSTablesWith_none, readFromSSTables_eq, tableVersion_eq]
  simp only [readFromSSTablesWith_eq, reduceCtorEq, exists_false, false_or, Except.ok.injEq,
    FailuresHarmless]
  cases hhead : (e.visited key).head? with
  | none =>
    rw [List.head?_eq_none_iff.mp hhead]
    simp
  | some p =>
    obtain ⟨v, hv⟩ := version_of_mem_holders (List.mem_of_head? hhead)
    simp only [Option.mem_some_iff, forall_eq', Option.bind_some, hv]
    cases hp : faults.fails p with
    | false =>
      have hsame : ((e.visited key).filter (!faults.fails ·)).head? = some p := by
        obtain ⟨rest, hrest⟩ := List.head?_eq_some_iff.mp hhead
        rw [hrest, List.filter_cons_of_pos (by simp [hp])]
        rfl
      simp [hsame, hv]
    | true =>
      cases hq : ((e.visited key).filter (!faults.fails ·)).head? with
      | none => simp [live_some]
      | some q =>
        obtain ⟨u, hu⟩ := version_of_mem_holders (List.mem_filter.mp (List.mem_of_head? hq)).1
        simp [hu, live_inj]

/-- Two tables that hold a key. -/
def twoVersions (older newer : Value) : Engine HashMap :=
  { newEngine defaultConfig (.newAppendStorageInDir [] 67108864 65536) with
    versions := [[1, 2], [], [], []]
    files := [(1, ⟨[([107], older)], 1⟩), (2, ⟨[([107], newer), ([108], [3])], 2⟩)] }

/-- The newer table fails, and the older one holds the same version. -/
theorem reports_or_answers_same :
    (twoVersions [1] [1]).readFromSSTablesWith defaultConfig ⟨(· == 2), fun _ => false⟩ [107] =
      (twoVersions [1] [1]).readFromSSTablesWith defaultConfig .none [107] := by
  refine ((reports_or_answers_iff (by decide)).mpr ?_).resolve_left ?_
  · have hvisited : (twoVersions [1] [1]).visited [107] = [2, 1] := by decide +kernel
    intro p hp _
    rw [hvisited] at hp ⊢
    cases hp
    rfl
  · rintro ⟨err, herr⟩
    rw [readFromSSTablesWith_eq] at herr
    cases herr

/-- The newer of two tables that hold a key cannot be opened: the answer is the older version. -/
theorem failed_open_returns_older :
    (twoVersions [1] [2]).readFromSSTablesWith defaultConfig ⟨(· == 2), fun _ => false⟩ [107] =
        .ok (some [1]) ∧
      (twoVersions [1] [2]).readFromSSTablesWith defaultConfig .none [107] = .ok (some [2]) := by
  decide +kernel

end Engine
end ChudDB
