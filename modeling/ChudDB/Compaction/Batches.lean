import ChudDB.Lib.Batches
import ChudDB.Compaction.Merge

/-! # A round of the compactor

`CheckCompactionConditions` (`ss_compacter_st.go`) and the loop of `runCompactor` (`engine.go`) that
installs its results. A batch for which `compactTables` or `Commit` fails is passed over: its tables
stay in their level, and the batches behind it go on to the next level. -/

namespace ChudDB
open Lib

/-- `CompactionResult`. -/
structure CompactionResult where
  level : Nat
  newPath : Path
  oldPaths : List Path
deriving DecidableEq, Repr

namespace Engine

variable {M : Type} (cfg : Config) (safeCompactionLSN : Nat)

/-- `versions[level]`. -/
def level (e : Engine M) (i : Nat) : List Path := e.versions.getD i []

/-- The batches of a level. -/
def batchesOf (e : Engine M) (i : Nat) : List (List Path) :=
  batches cfg.compactionThreshold (e.level i)

/-- The table `compactTables` writes for the tables on the given paths. -/
def outputTable (e : Engine M) (level : Nat) (toCompact : List Path) : SSTable :=
  compactTables cfg (decide (level + 1 ≥ cfg.lsmLevels)) safeCompactionLSN
    (toCompact.filterMap e.getOrOpen)

/-- One batch, with the table that is written for it; `none` if it fails. `newPath` is the name
under which the output is committed, or `none` for a failure other than an input that does not
open. -/
def compactBatch (e : Engine M) (level : Nat) (newPath : Option Path) (toCompact : List Path) :
    Option (CompactionResult × SSTable) :=
  if toCompact.all fun p => (e.getOrOpen p).isSome then
    newPath.map fun p => (⟨level, p, toCompact⟩, e.outputTable cfg safeCompactionLSN level toCompact)
  else none

/-- `CheckCompactionConditions`; `commit level j` is the outcome of batch `j` of a level. -/
def checkCompactionConditions (commit : Nat → Nat → Option Path) (e : Engine M) :
    List (CompactionResult × SSTable) :=
  (List.range (cfg.lsmLevels - 1)).flatMap fun level =>
    (e.batchesOf cfg level).zipIdx.filterMap fun b =>
      e.compactBatch cfg safeCompactionLSN level (commit level b.2) b.1

/-- The installation of the results, in order. -/
def installAll (results : List CompactionResult) (e : Engine M) : Engine M :=
  results.foldl (fun e r => e.installCompaction r.level r.newPath r.oldPaths) e

/-- One round of `runCompactor`. -/
def runCompactor (commit : Nat → Nat → Option Path) (e : Engine M) : Engine M :=
  let results := e.checkCompactionConditions cfg safeCompactionLSN commit
  installAll (results.map Prod.fst)
    { e with files := results.map (fun r => (r.1.newPath, r.2)) ++ e.files }

/-! ## Recency -/

/-- The table on the path holds the key. -/
def Holds (e : Engine M) (path : Path) (key : Key) : Prop :=
  ∃ t, e.getOrOpen path = some t ∧ key ∈ t.entries.map Prod.fst

/-- The LSN in the footer of the table on the path. -/
def tableLSN (e : Engine M) (path : Path) : Nat := ((e.getOrOpen path).map SSTable.maxLSN).getD 0

/-- The place of the table in the listing of the registry, from the deepest level to level 0. -/
def place (e : Engine M) (path : Path) : Nat := e.versions.reverse.flatten.idxOf path

/-! How recent the tables are is given by a rank. It can be the LSN in the footer; but a replay writes
0 there for all its tables, and behind a failed batch the LSNs are out of order. The place in the
listing ranks every registry (`chronological_place`). -/

variable {ρ : Type u} [LinearOrder ρ] (rank : Path → ρ)

/-- Every table is at least as recent as the tables of deeper levels that share a key with it. -/
def RecencyKept (e : Engine M) : Prop :=
  ∀ i j, i < j → ∀ p ∈ e.level i, ∀ q ∈ e.level j,
    (∃ key, e.Holds p key ∧ e.Holds q key) → rank q ≤ rank p

/-- The tables of a level are listed from the oldest to the newest, and those of deeper levels are
older. -/
structure Chronological (e : Engine M) : Prop where
  length : e.versions.length = cfg.lsmLevels
  opens : ∀ i, ∀ p ∈ e.level i, ∃ t, e.getOrOpen p = some t ∧ SortedKeys t.entries
  ordered : ∀ i, (e.level i).Pairwise fun p q => rank p < rank q
  deeper : ∀ i j, i < j → ∀ p ∈ e.level i, ∀ q ∈ e.level j, rank q < rank p

/-- Outputs are committed under fresh names. -/
structure FreshNames (commit : Nat → Nat → Option Path) (e : Engine M) : Prop where
  fresh : ∀ {level j p}, commit level j = some p → e.getOrOpen p = none
  inj : ∀ {level j level' j' p}, commit level j = some p → commit level' j' = some p →
    level = level' ∧ j = j'

/-- A failed batch shares no key but the empty one with a batch behind it that succeeds. -/
def NoGap (commit : Nat → Nat → Option Path) (e : Engine M) : Prop :=
  ∀ level, level + 1 < cfg.lsmLevels → ∀ j j' b b', j < j' → (e.batchesOf cfg level)[j]? = some b →
    (e.batchesOf cfg level)[j']? = some b' → commit level j = none → commit level j' ≠ none →
    ∀ p ∈ b, ∀ q ∈ b', ∀ key ≠ [], ¬(e.Holds p key ∧ e.Holds q key)

variable {cfg safeCompactionLSN} {rank} {rank' : Path → ρ} {e : Engine M}
  {commit : Nat → Nat → Option Path}

/-! ## Installation -/

theorem length_installCompaction :
    (e.installCompaction lev newPath oldPaths).versions.length = e.versions.length := by
  simp [installCompaction, registerSSTable]

theorem level_installCompaction (h : lev + 1 < e.versions.length) :
    (e.installCompaction lev newPath oldPaths).level i =
      if i = lev then (e.level i).filter (· ∉ oldPaths)
      else if i = lev + 1 then e.level i ++ [newPath] else e.level i := by
  by_cases hi : i < e.versions.length
  · simp only [level, installCompaction, registerSSTable, List.getD_eq_getElem?_getD,
      List.getElem?_modify, List.getElem?_eq_getElem hi]
    by_cases hlev : i = lev
    · simp [hlev]
    · by_cases hnext : i = lev + 1
      · simp [hnext]
      · simp [hlev, hnext, Ne.symm hlev, Ne.symm hnext]
  · have hnone : e.versions[i]? = none := List.getElem?_eq_none_iff.mpr (by omega)
    rw [if_neg (by omega), if_neg (by omega)]
    simp [level, installCompaction, registerSSTable, List.getD_eq_getElem?_getD,
      List.getElem?_modify, hnone]

theorem level_installAll {rs : List CompactionResult}
    (hlen : ∀ r ∈ rs, r.level + 1 < e.versions.length)
    (hnew : ∀ r ∈ rs, ∀ r' ∈ rs, r.newPath ∉ r'.oldPaths) :
    (installAll rs e).level i =
      (e.level i).filter (fun p => decide (∀ r ∈ rs, r.level = i → p ∉ r.oldPaths)) ++
        (rs.filter fun r => r.level + 1 = i).map CompactionResult.newPath := by
  induction rs generalizing e with
  | nil => simp [installAll]
  | cons r rs ih =>
    have ih := @ih (e.installCompaction r.level r.newPath r.oldPaths)
      (fun r' hr' => by
        rw [length_installCompaction]
        exact hlen r' (List.mem_cons_of_mem _ hr'))
      (fun r' hr' r'' hr'' => hnew r' (List.mem_cons_of_mem _ hr') r'' (List.mem_cons_of_mem _ hr''))
    rw [installAll, List.foldl_cons, ← installAll, ih,
      level_installCompaction (hlen r List.mem_cons_self)]
    simp only [List.forall_mem_cons]
    by_cases hlev : r.level = i
    · have hnext : r.level + 1 ≠ i := by omega
      rw [if_pos hlev.symm, List.filter_filter, List.filter_cons_of_neg (by simpa using hnext)]
      simp [hlev, Bool.and_comm]
    · rw [if_neg (Ne.symm hlev)]
      simp only [hlev, false_implies, true_and]
      by_cases hnext : r.level + 1 = i
      · have hkept : ∀ r' ∈ rs, r'.level = i → r.newPath ∉ r'.oldPaths :=
          fun r' hr' _ => hnew r List.mem_cons_self r' (List.mem_cons_of_mem _ hr')
        rw [if_pos hnext.symm, List.filter_append, List.filter_cons_of_pos (by simpa using hkept),
          List.filter_cons_of_pos (by simpa using hnext)]
        simp
      · rw [if_neg (Ne.symm hnext), List.filter_cons_of_neg (by simpa using hnext)]

theorem length_installAll {rs : List CompactionResult} :
    (installAll rs e).versions.length = e.versions.length := by
  induction rs generalizing e with
  | nil => rfl
  | cons r rs ih => rw [installAll, List.foldl_cons, ← installAll, ih, length_installCompaction]

theorem getOrOpen_installAll {rs : List CompactionResult} (h : ∀ r ∈ rs, p ∉ r.oldPaths) :
    (installAll rs e).getOrOpen p = e.getOrOpen p := by
  induction rs generalizing e with
  | nil => rfl
  | cons r rs ih =>
    rw [installAll, List.foldl_cons, ← installAll,
      ih fun r' hr' => h r' (List.mem_cons_of_mem _ hr')]
    exact lookup_filter_notMem (h r List.mem_cons_self)

/-! ## A round -/

variable (cfg commit e) in
/-- Batch `j` of a level succeeds and its output is committed under the given name. -/
structure Committed (level j : Nat) (b : List Path) (newPath : Path) : Prop where
  level_lt : level + 1 < cfg.lsmLevels
  batch : (e.batchesOf cfg level)[j]? = some b
  commit_eq : commit level j = some newPath

theorem Committed.mem_level (h : Committed cfg e commit lev j b newPath) (hp : p ∈ b) :
    p ∈ e.level lev :=
  mem_of_mem_batches cfg.compactionThreshold_pos h.batch hp

theorem compactBatch_eq_some
    (h : e.compactBatch cfg safeCompactionLSN lev newPath b = some r) :
    ∃ p, newPath = some p ∧ r = (⟨lev, p, b⟩, e.outputTable cfg safeCompactionLSN lev b) := by
  rw [compactBatch] at h
  split at h
  · obtain ⟨p, hp, rfl⟩ := Option.map_eq_some_iff.mp h
    exact ⟨p, hp, rfl⟩
  · cases h

theorem mem_checkCompactionConditions (safeCompactionLSN : Nat) (h : e.Chronological cfg rank) :
    (r, t) ∈ e.checkCompactionConditions cfg safeCompactionLSN commit ↔
      (∃ j, Committed cfg e commit r.level j r.oldPaths r.newPath) ∧
        t = e.outputTable cfg safeCompactionLSN r.level r.oldPaths := by
  simp only [checkCompactionConditions, List.mem_flatMap, List.mem_range, List.mem_filterMap,
    Prod.exists, List.mem_zipIdx_iff_getElem?]
  constructor
  · rintro ⟨lev, hlev, b, j, hb, hbatch⟩
    obtain ⟨p, hp, heq⟩ := compactBatch_eq_some hbatch
    cases heq
    exact ⟨⟨j, Nat.add_lt_of_lt_sub hlev, hb, hp⟩, rfl⟩
  · rintro ⟨⟨j, hc⟩, rfl⟩
    have hall : (r.oldPaths.all fun p => (e.getOrOpen p).isSome) = true :=
      List.all_eq_true.mpr fun p hp => by
        obtain ⟨t, ht, -⟩ := h.opens _ p (hc.mem_level hp)
        exact Option.isSome_iff_exists.mpr ⟨t, ht⟩
    have := hc.level_lt
    refine ⟨r.level, by omega, r.oldPaths, j, hc.batch, ?_⟩
    rw [compactBatch, if_pos hall, hc.commit_eq]
    rfl

theorem mem_results (safeCompactionLSN : Nat) (h : e.Chronological cfg rank) :
    r ∈ (e.checkCompactionConditions cfg safeCompactionLSN commit).map Prod.fst ↔
      ∃ j, Committed cfg e commit r.level j r.oldPaths r.newPath := by
  constructor
  · intro hr
    obtain ⟨⟨r, t⟩, hrt, rfl⟩ := List.mem_map.mp hr
    exact ((mem_checkCompactionConditions _ h).mp hrt).1
  · intro hc
    exact List.mem_map.mpr ⟨(r, _), (mem_checkCompactionConditions _ h).mpr ⟨hc, rfl⟩, rfl⟩

theorem Chronological.path_ne (h : e.Chronological cfg rank) (hij : i ≠ j) (hp : p ∈ e.level i)
    (hq : q ∈ e.level j) : p ≠ q := by
  rintro rfl
  rcases Nat.lt_or_gt_of_ne hij with hlt | hlt
  · exact lt_irrefl _ (h.deeper _ _ hlt p hp p hq)
  · exact lt_irrefl _ (h.deeper _ _ hlt p hq p hp)

/-- A name under which an output is committed is not in the registry. -/
theorem Committed.notMem_level (hc : Committed cfg e commit lev j b p) (h : e.Chronological cfg rank)
    (hn : e.FreshNames commit) : p ∉ e.level i := by
  intro hp
  obtain ⟨t, ht, -⟩ := h.opens i p hp
  rw [hn.fresh hc.commit_eq] at ht
  cases ht

variable (cfg commit e) in
/-- The table is in no batch of the level that succeeds. -/
def Stays (i : Nat) (p : Path) : Prop :=
  ∀ j b newPath, Committed cfg e commit i j b newPath → p ∉ b

/-- The ranks after a round: a table that stays keeps its rank, and an output has the rank of the
newest table of its batch. -/
structure Inherits (cfg : Config) (commit : Nat → Nat → Option Path) (rank rank' : Path → ρ)
    (e : Engine M) : Prop where
  kept : ∀ i, ∀ p ∈ e.level i, Stays cfg e commit i p → rank' p = rank p
  output : ∀ lev j b p, Committed cfg e commit lev j b p →
    (∃ q ∈ b, rank q = rank' p) ∧ ∀ q ∈ b, rank q ≤ rank' p

/-- The tables that are neither inputs nor outputs of a round stay as they are. -/
theorem getOrOpen_kept (safeCompactionLSN : Nat) (h : e.Chronological cfg rank)
    (hn : e.FreshNames commit) (hp : p ∈ e.level i)
    (hstays : Stays cfg e commit i p) :
    (e.runCompactor cfg safeCompactionLSN commit).getOrOpen p = e.getOrOpen p := by
  rw [runCompactor, getOrOpen_installAll, getOrOpen, List.lookup_append,
    List.lookup_eq_none_iff.mpr, Option.none_or]
  · rfl
  · intro f hf
    obtain ⟨⟨r, t⟩, hrt, rfl⟩ := List.mem_map.mp hf
    obtain ⟨⟨j, hc⟩, -⟩ := (mem_checkCompactionConditions _ h).mp hrt
    rw [bne_iff_ne]
    rintro rfl
    exact hc.notMem_level h hn hp
  · intro r hr hpr
    obtain ⟨j, hc⟩ := (mem_results _ h).mp hr
    by_cases hlev : r.level = i
    · subst hlev
      exact hstays j _ _ hc hpr
    · exact h.path_ne hlev (hc.mem_level hpr) hp rfl

/-- The outputs of a round are found under their names. -/
theorem getOrOpen_output (h : e.Chronological cfg rank) (hn : e.FreshNames commit)
    (hc : Committed cfg e commit lev j b p) :
    (e.runCompactor cfg safeCompactionLSN commit).getOrOpen p =
      some (e.outputTable cfg safeCompactionLSN lev b) := by
  rw [runCompactor, getOrOpen_installAll, getOrOpen, List.lookup_append, lookup_of_unique,
    Option.some_or]
  · exact List.mem_map.mpr ⟨(⟨lev, p, b⟩, _),
      (mem_checkCompactionConditions _ h).mpr ⟨⟨j, hc⟩, rfl⟩, rfl⟩
  · intro t ht
    obtain ⟨⟨r, t⟩, hrt, heq⟩ := List.mem_map.mp ht
    obtain ⟨⟨j', hc'⟩, rfl⟩ := (mem_checkCompactionConditions _ h).mp hrt
    cases heq
    obtain ⟨rfl, rfl⟩ := hn.inj hc.commit_eq hc'.commit_eq
    rw [Option.some.inj (hc.batch.symm.trans hc'.batch)]
  · intro r hr hpr
    obtain ⟨j', hc'⟩ := (mem_results _ h).mp hr
    exact hc.notMem_level h hn (hc'.mem_level hpr)

theorem level_runCompactor (h : e.Chronological cfg rank) (hn : e.FreshNames commit) :
    (e.runCompactor cfg safeCompactionLSN commit).level i =
      (e.level i).filter (fun p => decide (∀ r ∈ (e.checkCompactionConditions cfg safeCompactionLSN
        commit).map Prod.fst, r.level = i → p ∉ r.oldPaths)) ++
      (((e.checkCompactionConditions cfg safeCompactionLSN commit).map Prod.fst).filter
        fun r => r.level + 1 = i).map CompactionResult.newPath := by
  rw [runCompactor, level_installAll]
  · rfl
  · intro r hr
    obtain ⟨j, hc⟩ := (mem_results _ h).mp hr
    exact hc.level_lt.trans_eq h.length.symm
  · intro r hr r' hr' hmem
    obtain ⟨j, hc⟩ := (mem_results _ h).mp hr
    obtain ⟨j', hc'⟩ := (mem_results _ h).mp hr'
    exact hc.notMem_level h hn (hc'.mem_level hmem)

theorem stays_iff (safeCompactionLSN : Nat) (h : e.Chronological cfg rank) :
    (∀ r ∈ (e.checkCompactionConditions cfg safeCompactionLSN commit).map Prod.fst,
      r.level = i → p ∉ r.oldPaths) ↔ Stays cfg e commit i p := by
  constructor
  · intro hall j b newPath hc
    exact hall ⟨i, newPath, b⟩ ((mem_results _ h).mpr ⟨j, hc⟩) rfl
  · rintro hall r hr rfl
    obtain ⟨j, hc⟩ := (mem_results _ h).mp hr
    exact hall j _ _ hc

/-- What a level holds after a round: its tables that were in no successful batch, and the outputs
from the level above. -/
theorem mem_level_runCompactor (h : e.Chronological cfg rank) (hn : e.FreshNames commit) :
    p ∈ (e.runCompactor cfg safeCompactionLSN commit).level i ↔
      p ∈ e.level i ∧ Stays cfg e commit i p ∨
        ∃ lev j b, lev + 1 = i ∧ Committed cfg e commit lev j b p := by
  rw [level_runCompactor h hn, List.mem_append, List.mem_filter, decide_eq_true_eq, stays_iff _ h,
    List.mem_map]
  apply or_congr_right
  constructor
  · rintro ⟨r, hr, rfl⟩
    obtain ⟨hr, hlev⟩ := List.mem_filter.mp hr
    obtain ⟨j, hc⟩ := (mem_results _ h).mp hr
    exact ⟨_, j, _, of_decide_eq_true hlev, hc⟩
  · rintro ⟨lev, j, b, hlev, hc⟩
    exact ⟨⟨lev, p, b⟩, List.mem_filter.mpr ⟨(mem_results _ h).mpr ⟨j, hc⟩, decide_eq_true hlev⟩,
      rfl⟩

/-! ## Recency after a round -/

theorem tableLSN_eq (ht : e.getOrOpen p = some t) : e.tableLSN p = t.maxLSN := by
  rw [tableLSN, ht]
  rfl

theorem tableLSN_congr {e' : Engine M} (ht : e'.getOrOpen p = e.getOrOpen p) :
    e'.tableLSN p = e.tableLSN p := by
  rw [tableLSN, ht, tableLSN]

theorem holds_congr {e' : Engine M} (ht : e'.getOrOpen p = e.getOrOpen p) :
    e'.Holds p key ↔ e.Holds p key := by
  rw [Holds, ht, Holds]

/-- The tables of a batch. -/
theorem Committed.mem_tables (hc : Committed cfg e commit lev j b p) (h : e.Chronological cfg rank)
    (hq : q ∈ b) : ∃ t ∈ b.filterMap e.getOrOpen, e.getOrOpen q = some t := by
  obtain ⟨t, ht, -⟩ := h.opens _ q (hc.mem_level hq)
  exact ⟨t, List.mem_filterMap.mpr ⟨q, hq, ht⟩, ht⟩

theorem Committed.sorted_tables (hc : Committed cfg e commit lev j b p)
    (h : e.Chronological cfg rank) :
    ∀ t ∈ b.filterMap e.getOrOpen, SortedKeys t.entries := by
  intro t ht
  obtain ⟨q, hq, htq⟩ := List.mem_filterMap.mp ht
  obtain ⟨t', ht', hsorted⟩ := h.opens _ q (hc.mem_level hq)
  rwa [← Option.some.inj (ht'.symm.trans htq)]

/-- The footer of an output has the LSN of the newest table of the batch. -/
theorem inherits_tableLSN (safeCompactionLSN : Nat) (h : e.Chronological cfg rank)
    (hn : e.FreshNames commit) : e.Inherits cfg commit e.tableLSN
      (e.runCompactor cfg safeCompactionLSN commit).tableLSN := by
  refine ⟨fun i p hp hstays => tableLSN_congr (getOrOpen_kept safeCompactionLSN h hn hp hstays),
    fun lev j b p hc => ?_⟩
  rw [tableLSN_eq (getOrOpen_output h hn hc)]
  obtain ⟨q, hq⟩ := List.exists_mem_of_ne_nil b (batches_ne_nil cfg.compactionThreshold_pos hc.batch)
  obtain ⟨t, ht, -⟩ := hc.mem_tables h hq
  obtain ⟨⟨t, ht, hmax⟩, hle⟩ := batchMaxLSN_spec (List.ne_nil_of_mem ht)
  constructor
  · obtain ⟨q, hq, htq⟩ := List.mem_filterMap.mp ht
    exact ⟨q, hq, (tableLSN_eq htq).trans hmax⟩
  · intro q hq
    obtain ⟨t, ht, htq⟩ := hc.mem_tables h hq
    exact (tableLSN_eq htq).trans_le (hle t ht)

/-- Any rank can be carried over a round. -/
theorem exists_inherits (h : e.Chronological cfg rank) (hn : e.FreshNames commit) :
    ∃ rank', e.Inherits cfg commit rank rank' := by
  have hnext : ∀ p, ∃ r, (∀ i, p ∈ e.level i → r = rank p) ∧ ∀ lev j b,
      Committed cfg e commit lev j b p → (∃ q ∈ b, rank q = r) ∧ ∀ q ∈ b, rank q ≤ r := by
    intro p
    by_cases hout : ∃ lev j b, Committed cfg e commit lev j b p
    · obtain ⟨lev, j, b, hc⟩ := hout
      have hne := batches_ne_nil cfg.compactionThreshold_pos hc.batch
      obtain ⟨q, hq, hmax⟩ := b.toFinset.exists_max_image rank
        ((List.toFinset_nonempty_iff b).mpr hne)
      refine ⟨rank q, fun i hp => absurd hp (hc.notMem_level h hn), fun lev' j' b' hc' => ?_⟩
      obtain ⟨rfl, rfl⟩ := hn.inj hc.commit_eq hc'.commit_eq
      rw [← Option.some.inj (hc.batch.symm.trans hc'.batch)]
      exact ⟨⟨q, List.mem_toFinset.mp hq, rfl⟩, fun q' hq' => hmax q' (List.mem_toFinset.mpr hq')⟩
    · exact ⟨rank p, fun _ _ => rfl, fun lev j b hc => absurd ⟨lev, j, b, hc⟩ hout⟩
  choose rank' hkept hout using hnext
  exact ⟨rank', fun i p hp _ => hkept p i hp, fun lev j b p hc => hout p lev j b hc⟩

/-- The output holds the keys of the batch, except the empty key. -/
theorem holds_output (h : e.Chronological cfg rank) (hn : e.FreshNames commit)
    (hc : Committed cfg e commit lev j b p) :
    (e.runCompactor cfg safeCompactionLSN commit).Holds p key ↔
      key ≠ [] ∧ ∃ q ∈ b, e.Holds q key := by
  have hlev := hc.level_lt
  have hdrop : dropTombstones (decide (lev + 1 ≥ cfg.lsmLevels)) safeCompactionLSN
      (b.filterMap e.getOrOpen) = false := by
    rw [decide_eq_false (by omega)]
    rfl
  have hsorted := hc.sorted_tables h
  have hkeys : (∃ t ∈ b.filterMap e.getOrOpen, key ∈ t.entries.map Prod.fst) ↔
      ∃ q ∈ b, e.Holds q key := by
    constructor
    · rintro ⟨t, ht, hk⟩
      obtain ⟨q, hq, htq⟩ := List.mem_filterMap.mp ht
      exact ⟨q, hq, t, htq, hk⟩
    · rintro ⟨q, hq, t, htq, hk⟩
      exact ⟨t, List.mem_filterMap.mpr ⟨q, hq, htq⟩, hk⟩
  rw [Holds, getOrOpen_output h hn hc, ← hkeys, ← key_mem_compactTables hsorted hdrop]
  simp only [Option.some.injEq, exists_eq_left']
  rfl

theorem Chronological.batch_lt {j j' : Nat} (h : e.Chronological cfg rank) (hlt : j < j')
    (hb : (e.batchesOf cfg i)[j]? = some b) (hb' : (e.batchesOf cfg i)[j']? = some b') (hp : p ∈ b)
    (hq : q ∈ b') : rank p < rank q :=
  batches_ordered (R := fun p q => rank p < rank q) (h.ordered i) cfg.compactionThreshold_pos hlt
    hb hb' hp hq

/-- A table that stays in its level is newer than a successful batch of the level, or it is in a
failed batch before it. -/
theorem kept_or_failed (h : e.Chronological cfg rank) (hc : Committed cfg e commit i j b newPath)
    (hp : p ∈ e.level i) (hstays : Stays cfg e commit i p) :
    (∀ q ∈ b, rank q < rank p) ∨
      ∃ j' b', j' < j ∧ (e.batchesOf cfg i)[j']? = some b' ∧ commit i j' = none ∧ p ∈ b' := by
  by_cases hrest : ∀ (j' : Nat) (b' : List Path), (e.batchesOf cfg i)[j']? = some b' → p ∉ b'
  · exact .inl fun q hq => batches_ordered_rest (R := fun p q => rank p < rank q)
      (h.ordered i) cfg.compactionThreshold_pos hc.batch hq hp hrest
  · simp only [not_forall, not_not] at hrest
    obtain ⟨j', b', hb', hpb'⟩ := hrest
    rcases Nat.lt_trichotomy j' j with hlt | rfl | hlt
    · refine .inr ⟨j', b', hlt, hb', ?_, hpb'⟩
      cases hcommit : commit i j' with
      | none => rfl
      | some path => exact absurd hpb' (hstays j' b' path ⟨hc.level_lt, hb', hcommit⟩)
    · exact absurd hpb' (hstays j' b' newPath ⟨hc.level_lt, hb', hc.commit_eq⟩)
    · exact .inl fun q hq => h.batch_lt hlt hc.batch hb' hq hpb'

/-- The tables of a failed batch stay. -/
theorem stays_of_failed (h : e.Chronological cfg rank) (hb : (e.batchesOf cfg i)[j]? = some b)
    (hfail : commit i j = none) (hp : p ∈ b) : Stays cfg e commit i p := by
  intro j' b' newPath hc hpb'
  rcases Nat.lt_trichotomy j' j with hlt | rfl | hlt
  · exact lt_irrefl _ (h.batch_lt hlt hc.batch hb hpb' hp)
  · rw [hc.commit_eq] at hfail
    cases hfail
  · exact lt_irrefl _ (h.batch_lt hlt hb hc.batch hp hpb')

/-- After a round a table is newer than a table of a deeper level, unless that is the output of a
batch behind the failed one in which the table is. -/
theorem rank_lt_or_gap (h : e.Chronological cfg rank) (hn : e.FreshNames commit)
    (hr : e.Inherits cfg commit rank rank') (hij : i < i')
    (hp : p ∈ (e.runCompactor cfg safeCompactionLSN commit).level i)
    (hq : q ∈ (e.runCompactor cfg safeCompactionLSN commit).level i') :
    rank' q < rank' p ∨
      ∃ j j' b b', j < j' ∧ (e.batchesOf cfg i)[j]? = some b ∧ commit i j = none ∧ p ∈ b ∧
        Committed cfg e commit i j' b' q := by
  rcases (mem_level_runCompactor h hn).mp hp with ⟨hp, hstays⟩ | ⟨lev, jp, bp, rfl, hcp⟩
  · rw [hr.kept i p hp hstays]
    rcases (mem_level_runCompactor h hn).mp hq with ⟨hq, hqstays⟩ | ⟨lev, jq, bq, rfl, hcq⟩
    · rw [hr.kept i' q hq hqstays]
      exact .inl (h.deeper i i' hij p hp q hq)
    · obtain ⟨⟨q', hq', heq⟩, -⟩ := hr.output _ _ _ _ hcq
      rw [← heq]
      rcases Nat.eq_or_lt_of_le (Nat.le_of_lt_succ hij) with rfl | hlt
      · rcases kept_or_failed h hcq hp hstays with hnewer | ⟨j, b, hlt, hb, hfail, hpb⟩
        · exact .inl (hnewer q' hq')
        · exact .inr ⟨j, jq, b, bq, hlt, hb, hfail, hpb, hcq⟩
      · exact .inl (h.deeper i lev hlt p hp q' (hcq.mem_level hq'))
  · obtain ⟨⟨p', hp', heq⟩, -⟩ := hr.output _ _ _ _ hcp
    rw [← heq]
    rcases (mem_level_runCompactor h hn).mp hq with ⟨hq, hqstays⟩ | ⟨lev', jq, bq, rfl, hcq⟩
    · rw [hr.kept i' q hq hqstays]
      exact .inl (h.deeper lev i' (by omega) p' (hcp.mem_level hp') q hq)
    · obtain ⟨⟨q', hq', heq'⟩, -⟩ := hr.output _ _ _ _ hcq
      rw [← heq']
      exact .inl (h.deeper lev lev' (by omega) p' (hcp.mem_level hp') q' (hcq.mem_level hq'))

/-! ## Chronological registries -/

/-- Every registry without a path that is listed twice is chronological in the order of its
listing. -/
theorem chronological_place (hlen : e.versions.length = cfg.lsmLevels)
    (hopens : ∀ i, ∀ p ∈ e.level i, ∃ t, e.getOrOpen p = some t ∧ SortedKeys t.entries)
    (hnodup : e.versions.reverse.flatten.Nodup) : e.Chronological cfg e.place := by
  have hlisting : e.versions.reverse.flatten.Pairwise fun p q => e.place p < e.place q := by
    rw [List.pairwise_iff_getElem]
    intro i j hi hj hij
    rwa [place, place, hnodup.idxOf_getElem, hnodup.idxOf_getElem]
  rw [List.pairwise_flatten, List.pairwise_reverse] at hlisting
  obtain ⟨hin, hbetween⟩ := hlisting
  have hmem : ∀ {i p}, p ∈ e.level i → ∃ hi : i < e.versions.length, p ∈ e.versions[i] := by
    intro i p hp
    rw [level, List.getD_eq_getElem?_getD] at hp
    cases hi : e.versions[i]? with
    | none => simp [hi] at hp
    | some l =>
      obtain ⟨hi', rfl⟩ := List.getElem?_eq_some_iff.mp hi
      exact ⟨hi', by simpa [hi] using hp⟩
  refine ⟨hlen, hopens, fun i => ?_, fun i j hij p hp q hq => ?_⟩
  · rw [level, List.getD_eq_getElem?_getD]
    cases hi : e.versions[i]? with
    | none => exact .nil
    | some l => exact hin l (List.mem_reverse.mpr (List.mem_of_getElem? hi))
  · obtain ⟨hi, hp⟩ := hmem hp
    obtain ⟨hj, hq⟩ := hmem hq
    exact List.pairwise_iff_getElem.mp hbetween i j hi hj hij q hq p hp

theorem Chronological.init [Memtable M] : (newEngine cfg w : Engine M).Chronological cfg rank := by
  have hlevel : ∀ i, (newEngine cfg w : Engine M).level i = [] := by
    intro i
    simp only [level, newEngine, List.getD_eq_getElem?_getD, List.getElem?_replicate]
    split <;> rfl
  refine ⟨by simp [newEngine], ?_, ?_, ?_⟩
  all_goals simp [hlevel]

/-- A flushed table is written and registered at level 0. -/
def addTable (path : Path) (t : SSTable) (e : Engine M) : Engine M :=
  { e.writeTable path t with versions := registerSSTable 0 path e.versions }

theorem level_addTable (h : 0 < e.versions.length) :
    (e.addTable path t).level i = if i = 0 then e.level i ++ [path] else e.level i := by
  cases hv : e.versions with
  | nil => simp [hv] at h
  | cons l rest => cases i <;> simp [level, addTable, registerSSTable, hv]

theorem mem_level_addTable (h : 0 < e.versions.length) (hp : p ∈ (e.addTable path t).level i) :
    p ∈ e.level i ∨ i = 0 ∧ p = path := by
  rw [level_addTable h] at hp
  split at hp
  · rename_i hi
    rcases List.mem_append.mp hp with hp | hp
    · exact .inl hp
    · exact .inr ⟨hi, List.mem_singleton.mp hp⟩
  · exact .inl hp

theorem getOrOpen_addTable_self : (e.addTable path t).getOrOpen path = some t := by
  simp [getOrOpen, addTable, writeTable]

theorem getOrOpen_addTable_of_ne (h : p ≠ path) :
    (e.addTable path t).getOrOpen p = e.getOrOpen p := by
  simp [getOrOpen, addTable, writeTable, List.lookup_cons, beq_eq_false_iff_ne.mpr h]

theorem tableLSN_addTable :
    (e.addTable path t).tableLSN = Function.update e.tableLSN path t.maxLSN := by
  funext p
  by_cases hp : p = path
  · rw [hp, Function.update_self, tableLSN_eq getOrOpen_addTable_self]
  · rw [Function.update_of_ne hp, tableLSN_congr (getOrOpen_addTable_of_ne hp)]

/-- A flush of a table that is newer than all others keeps the registry chronological. -/
theorem Chronological.addTable (h : e.Chronological cfg rank) (hfresh : e.getOrOpen path = none)
    (hsorted : SortedKeys t.entries) (hnewer : ∀ i, ∀ p ∈ e.level i, rank p < r) :
    (e.addTable path t).Chronological cfg (Function.update rank path r) := by
  have hlen : 0 < e.versions.length := h.length ▸ cfg.lsmLevels_pos
  have hne : ∀ {i p}, p ∈ e.level i → p ≠ path := by
    rintro i p hp rfl
    obtain ⟨t', ht', -⟩ := h.opens i p hp
    rw [hfresh] at ht'
    cases ht'
  refine ⟨?_, ?_, ?_, ?_⟩
  · simpa [Engine.addTable, registerSSTable] using h.length
  · intro i p hp
    rcases mem_level_addTable hlen hp with hp | ⟨-, rfl⟩
    · rw [getOrOpen_addTable_of_ne (hne hp)]
      exact h.opens i p hp
    · exact ⟨t, getOrOpen_addTable_self, hsorted⟩
  · intro i
    have hlevel : (e.level i).Pairwise fun p q =>
        Function.update rank path r p < Function.update rank path r q := by
      refine (h.ordered i).imp_of_mem fun hp hq hlt => ?_
      rwa [Function.update_of_ne (hne hp), Function.update_of_ne (hne hq)]
    rw [level_addTable hlen]
    split
    · refine List.pairwise_append.mpr ⟨hlevel, List.pairwise_singleton .., ?_⟩
      intro p hp q hq
      rw [List.mem_singleton.mp hq, Function.update_of_ne (hne hp), Function.update_self]
      exact hnewer i p hp
    · exact hlevel
  · intro i j hij p hp q hq
    rcases mem_level_addTable hlen hq with hq' | ⟨rfl, -⟩
    · rw [Function.update_of_ne (hne hq')]
      rcases mem_level_addTable hlen hp with hp' | ⟨-, rfl⟩
      · rw [Function.update_of_ne (hne hp')]
        exact h.deeper i j hij p hp' q hq'
      · rw [Function.update_self]
        exact hnewer j q hq'
    · exact absurd hij (Nat.not_lt_zero i)

/-- The outputs of a level are in the order of its batches. -/
theorem output_lt {j j' : Nat} (h : e.Chronological cfg rank)
    (hr : e.Inherits cfg commit rank rank') (hjj : j < j') (hc : Committed cfg e commit lev j b p)
    (hc' : Committed cfg e commit lev j' b' p') : rank' p < rank' p' := by
  obtain ⟨⟨q, hq, heq⟩, -⟩ := hr.output _ _ _ _ hc
  obtain ⟨⟨q', hq', heq'⟩, -⟩ := hr.output _ _ _ _ hc'
  rw [← heq, ← heq']
  exact h.batch_lt hjj hc.batch hc'.batch hq hq'

theorem results_ordered (safeCompactionLSN : Nat) (h : e.Chronological cfg rank)
    (hr : e.Inherits cfg commit rank rank') :
    ((e.checkCompactionConditions cfg safeCompactionLSN commit).map Prod.fst).Pairwise
      fun r r' => r.level = r'.level → rank' r.newPath < rank' r'.newPath := by
  rw [List.pairwise_map, checkCompactionConditions, List.pairwise_flatMap]
  constructor
  · intro lev hlev
    rw [List.pairwise_filterMap, List.pairwise_iff_getElem]
    intro j j' hj hj' hjj r hres r' hres' _
    rw [List.length_zipIdx] at hj hj'
    rw [List.getElem_zipIdx, Nat.zero_add] at hres hres'
    obtain ⟨p, hp, rfl⟩ := compactBatch_eq_some hres
    obtain ⟨p', hp', rfl⟩ := compactBatch_eq_some hres'
    have hlt := Nat.add_lt_of_lt_sub (List.mem_range.mp hlev)
    exact output_lt h hr hjj ⟨hlt, List.getElem?_eq_getElem hj, hp⟩
      ⟨hlt, List.getElem?_eq_getElem hj', hp'⟩
  · refine List.pairwise_lt_range.imp fun hlt r hres r' hres' heq => ?_
    obtain ⟨b, -, hb⟩ := List.mem_filterMap.mp hres
    obtain ⟨b', -, hb'⟩ := List.mem_filterMap.mp hres'
    obtain ⟨p, -, rfl⟩ := compactBatch_eq_some hb
    obtain ⟨p', -, rfl⟩ := compactBatch_eq_some hb'
    exact absurd heq hlt.ne

/-- A round in which the failed batches of a level come last keeps the registry chronological. -/
theorem Chronological.runCompactor (h : e.Chronological cfg rank) (hn : e.FreshNames commit)
    (hr : e.Inherits cfg commit rank rank')
    (hlast : ∀ lev j j', j < j' → commit lev j = none → commit lev j' = none) :
    (e.runCompactor cfg safeCompactionLSN commit).Chronological cfg rank' := by
  have hkept : ∀ i, ∀ p ∈ (e.level i).filter (fun p => decide (∀ r ∈ (e.checkCompactionConditions
      cfg safeCompactionLSN commit).map Prod.fst, r.level = i → p ∉ r.oldPaths)),
      rank' p = rank p := by
    intro i p hp
    obtain ⟨hp, hstays⟩ := List.mem_filter.mp hp
    exact hr.kept i p hp ((stays_iff _ h).mp (of_decide_eq_true hstays))
  refine ⟨?_, ?_, ?_, ?_⟩
  · rw [Engine.runCompactor, length_installAll]
    exact h.length
  · intro i p hp
    rcases (mem_level_runCompactor h hn).mp hp with ⟨hp, hstays⟩ | ⟨lev, j, b, rfl, hc⟩
    · rw [getOrOpen_kept safeCompactionLSN h hn hp hstays]
      exact h.opens i p hp
    · exact ⟨_, getOrOpen_output h hn hc, compactTables_sorted (hc.sorted_tables h)⟩
  · intro i
    rw [level_runCompactor h hn]
    refine List.pairwise_append.mpr ⟨?_, ?_, ?_⟩
    · refine ((h.ordered i).filter _).imp_of_mem fun hp hq hlt => ?_
      rwa [hkept i _ hp, hkept i _ hq]
    · rw [List.pairwise_map]
      refine ((results_ordered safeCompactionLSN h hr).filter _).imp_of_mem fun hp hq hlt => ?_
      have hlev := of_decide_eq_true (List.mem_filter.mp hp).2
      have hlev' := of_decide_eq_true (List.mem_filter.mp hq).2
      exact hlt (by omega)
    · intro p hp q hq
      obtain ⟨r, hres, rfl⟩ := List.mem_map.mp hq
      obtain ⟨hres, hlev⟩ := List.mem_filter.mp hres
      obtain ⟨j, hc⟩ := (mem_results _ h).mp hres
      obtain ⟨⟨q, hqb, heq⟩, -⟩ := hr.output _ _ _ _ hc
      rw [hkept i _ hp, ← heq]
      have := of_decide_eq_true hlev
      exact h.deeper r.level i (by omega) q (hc.mem_level hqb) p (List.mem_of_mem_filter hp)
  · intro i j hij p hp q hq
    rcases rank_lt_or_gap h hn hr hij hp hq with hlt | ⟨j, j', b, b', hjj, hb, hfail, -, hc⟩
    · exact hlt
    · have := hlast i j j' hjj hfail
      rw [hc.commit_eq] at this
      cases this

/-- The engines that flushes of ever newer tables and rounds of the compactor lead to, with the ranks
of their tables; in a round the failed batches of a level come last. -/
inductive Rounds [Memtable M] (cfg : Config) : (Path → ρ) → Engine M → Prop
  | init {rank : Path → ρ} : Rounds cfg rank (newEngine cfg w)
  | flush {rank : Path → ρ} {e : Engine M} : Rounds cfg rank e → e.getOrOpen path = none →
    SortedKeys t.entries → (∀ i, ∀ p ∈ e.level i, rank p < r) →
    Rounds cfg (Function.update rank path r) (e.addTable path t)
  | compact {rank rank' : Path → ρ} {e : Engine M} {commit : _} (safeCompactionLSN : Nat) :
    Rounds cfg rank e → e.FreshNames commit → e.Inherits cfg commit rank rank' →
    (∀ lev j j', j < j' → commit lev j = none → commit lev j' = none) →
    Rounds cfg rank' (e.runCompactor cfg safeCompactionLSN commit)

theorem Rounds.chronological [Memtable M] (h : Rounds cfg rank e) : e.Chronological cfg rank := by
  induction h with
  | init => exact .init
  | flush _ hfresh hsorted hnewer ih => exact ih.addTable hfresh hsorted hnewer
  | compact _ _ hn hr hlast ih => exact ih.runCompactor hn hr hlast

/-- After any flushes and rounds the tables of deeper levels are older. -/
theorem rounds_chronological [Memtable M] (h : Rounds cfg rank e) :
    e.Chronological cfg rank ∧ e.RecencyKept rank :=
  ⟨h.chronological, fun i j hij p hp q hq _ => (h.chronological.deeper i j hij p hp q hq).le⟩

/-! ## Failed batches -/

/-- After a round from a chronological registry no table is older than one of a deeper level with
which it shares a key, exactly when no failed batch shares a key with a successful batch behind
it. -/
theorem recencyKept_runCompactor_iff (h : e.Chronological cfg rank) (hn : e.FreshNames commit)
    (hr : e.Inherits cfg commit rank rank') :
    (e.runCompactor cfg safeCompactionLSN commit).RecencyKept rank' ↔ e.NoGap cfg commit := by
  constructor
  · intro hkept lev hlev j j' b b' hjj hb hb' hfail hok p hp q hq key hkey hshare
    obtain ⟨newPath, hcommit⟩ := Option.ne_none_iff_exists'.mp hok
    have hc : Committed cfg e commit lev j' b' newPath := ⟨hlev, hb', hcommit⟩
    have hpl : p ∈ e.level lev := mem_of_mem_batches cfg.compactionThreshold_pos hb hp
    have hstays := stays_of_failed h hb hfail hp
    have hp' := getOrOpen_kept safeCompactionLSN h hn hpl hstays
    have hle := hkept lev (lev + 1) (Nat.lt_succ_self _) p
      ((mem_level_runCompactor h hn).mpr (.inl ⟨hpl, hstays⟩)) newPath
      ((mem_level_runCompactor h hn).mpr (.inr ⟨lev, j', b', rfl, hc⟩))
      ⟨key, (holds_congr hp').mpr hshare.1, (holds_output h hn hc).mpr ⟨hkey, q, hq, hshare.2⟩⟩
    rw [hr.kept lev p hpl hstays] at hle
    exact absurd (((hr.output _ _ _ _ hc).2 q hq).trans hle)
      (not_le_of_gt (h.batch_lt hjj hb hb' hp hq))
  · rintro hgap i j hij p hp q hq ⟨key, hkp, hkq⟩
    rcases rank_lt_or_gap h hn hr hij hp hq with hlt | ⟨j, j', b, b', hjj, hb, hfail, hpb, hc⟩
    · exact hlt.le
    · have hpl : p ∈ e.level i := mem_of_mem_batches cfg.compactionThreshold_pos hb hpb
      rw [holds_congr (getOrOpen_kept safeCompactionLSN h hn hpl (stays_of_failed h hb hfail hpb))]
        at hkp
      obtain ⟨hne, q', hq', hkq'⟩ := (holds_output h hn hc).mp hkq
      have hok : commit i j' ≠ none := by
        rw [hc.commit_eq]
        exact Option.some_ne_none q
      exact absurd ⟨hkp, hkq'⟩
        (hgap i hc.level_lt j j' b b' hjj hb hc.batch hfail hok p hpb q' hq' key hne)

/-- `n` flushes of one key each. -/
def flushedTables (keyOf : Path → Key) (lsnOf : Path → Nat) : Nat → Engine HashMap
  | 0 => newEngine defaultConfig (.newAppendStorageInDir [] 67108864 65536)
  | n + 1 => (flushedTables keyOf lsnOf n).addTable n ⟨[(keyOf n, [])], lsnOf n⟩

theorem getOrOpen_flushedTables : (flushedTables keyOf lsnOf n).getOrOpen p =
    if p < n then some ⟨[(keyOf p, [])], lsnOf p⟩ else none := by
  induction n with
  | zero => rfl
  | succ n ih =>
    by_cases hp : p = n
    · subst hp
      rw [flushedTables, getOrOpen_addTable_self, if_pos (Nat.lt_succ_self p)]
    · rw [flushedTables, getOrOpen_addTable_of_ne hp, ih]
      have : p < n + 1 ↔ p < n :=
        ⟨fun hlt => lt_of_le_of_ne (Nat.le_of_lt_succ hlt) hp, fun hlt => hlt.trans n.lt_succ_self⟩
      simp only [this]

/-- The paths are numbered in the order of the flushes. -/
theorem chronological_flushedTables :
    (flushedTables keyOf lsnOf n).Chronological defaultConfig (id : Path → Nat) := by
  induction n with
  | zero => exact .init
  | succ n ih =>
    rw [flushedTables, ← Function.update_eq_self n (id : Path → Nat)]
    refine ih.addTable (by rw [getOrOpen_flushedTables, if_neg (lt_irrefl n)])
      (List.pairwise_singleton ..) fun i p hp => ?_
    obtain ⟨t, ht, -⟩ := ih.opens i p hp
    rw [getOrOpen_flushedTables, Option.ite_none_right_eq_some] at ht
    exact ht.1

theorem rounds_flushedTables (hlsn : StrictMono lsnOf) : Rounds defaultConfig
    (flushedTables keyOf lsnOf n).tableLSN (flushedTables keyOf lsnOf n) := by
  induction n with
  | zero => exact .init
  | succ n ih =>
    rw [flushedTables, tableLSN_addTable]
    refine ih.flush (by rw [getOrOpen_flushedTables, if_neg (lt_irrefl n)])
      (List.pairwise_singleton ..) fun i p hp => ?_
    obtain ⟨t, ht, -⟩ := chronological_flushedTables.opens i p hp
    rw [tableLSN_eq ht]
    rw [getOrOpen_flushedTables, Option.ite_none_right_eq_some, Option.some.injEq] at ht
    exact ht.2 ▸ hlsn ht.1

theorem rounds_chronological_compacted :
    let e := (flushedTables (fun _ => [107]) Nat.succ 8).runCompactor defaultConfig 0
      fun level j => some (8 + Nat.pair level j)
    e.RecencyKept e.tableLSN := by
  have hrounds := @rounds_flushedTables Nat.succ (fun _ => [107]) 8 fun _ _ => Nat.succ_lt_succ
  have hn : (flushedTables (fun _ => [107]) Nat.succ 8).FreshNames
      fun level j => some (8 + Nat.pair level j) :=
    ⟨fun h => by
        cases h
        rw [getOrOpen_flushedTables, if_neg (Nat.not_lt.mpr (Nat.le_add_right ..))],
      fun h h' => Nat.pair_eq_pair.mp (Nat.add_left_cancel (Option.some.inj (h.trans h'.symm)))⟩
  exact (rounds_chronological (hrounds.compact 0 hn
    (inherits_tableLSN 0 hrounds.chronological hn) fun _ _ _ _ => nofun)).2

/-- The first batch of level 0 fails and the second one succeeds. -/
def secondOnly (level j : Nat) : Option Path := if level = 0 ∧ j = 1 then some 100 else none

theorem freshNames_secondOnly : (flushedTables keyOf lsnOf 8).FreshNames secondOnly := by
  constructor
  · intro level j p h
    rw [secondOnly] at h
    split at h
    · cases h
      rw [getOrOpen_flushedTables]
      rfl
    · cases h
  · intro level j level' j' p h h'
    rw [secondOnly] at h h'
    split at h
    · split at h'
      · omega
      · cases h'
    · cases h

/-- Replayed tables, all with LSN 0, in the order of their listing; the failed batch and the one
behind it share no key. -/
theorem recencyKept_distinct_keys :
    let e := flushedTables (fun p => [UInt8.ofNat p]) 0 8
    ∃ rank, e.Inherits defaultConfig secondOnly e.place rank ∧
      (e.runCompactor defaultConfig 0 secondOnly).RecencyKept rank := by
  intro e
  have hchron : e.Chronological defaultConfig e.place := chronological_place
    chronological_flushedTables.length chronological_flushedTables.opens (by decide +kernel)
  have hn : e.FreshNames secondOnly := freshNames_secondOnly
  obtain ⟨rank, hr⟩ := exists_inherits hchron hn
  refine ⟨rank, hr, (recencyKept_runCompactor_iff hchron hn hr).mpr ?_⟩
  intro level hlevel j j' b b' hjj hb hb' _ _ p hp q hq key _ ⟨⟨t, ht, hkp⟩, t', ht', hkq⟩
  have hlt := hchron.batch_lt hjj hb hb' hp hq
  rw [getOrOpen_flushedTables, Option.ite_none_right_eq_some, Option.some.injEq] at ht ht'
  obtain ⟨hp, rfl⟩ := ht
  obtain ⟨hq, rfl⟩ := ht'
  have hkey : UInt8.ofNat p = UInt8.ofNat q := by simpa [List.mem_singleton.mp hkp] using hkq
  have heq := congrArg UInt8.toNat hkey
  rw [UInt8.toNat_ofNat', UInt8.toNat_ofNat', Nat.mod_eq_of_lt (Nat.lt_trans hp (by decide)),
    Nat.mod_eq_of_lt (Nat.lt_trans hq (by decide))] at heq
  exact hlt.ne (congrArg e.place heq)

/-- All tables hold one key: the failed batch is left in level 0 above the newer output. -/
theorem failed_batch_inverts_recency :
    let e := flushedTables (fun _ => [107]) Nat.succ 8
    let e' := e.runCompactor defaultConfig 0 secondOnly
    e.Chronological defaultConfig e.tableLSN ∧ ¬e'.RecencyKept e'.tableLSN := by
  refine ⟨(rounds_flushedTables fun _ _ => Nat.succ_lt_succ).chronological, fun h => ?_⟩
  have hle := h 0 1 (by decide) 0 (by decide +kernel) 100 (by decide +kernel)
    ⟨[107], ⟨⟨[([107], [])], 1⟩, by decide +kernel, by decide⟩,
      ⟨⟨[([107], [])], 8⟩, by decide +kernel, by decide⟩⟩
  revert hle
  decide +kernel

end Engine
end ChudDB
