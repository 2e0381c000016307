import ChudDB.Compaction.Batches

/-! # The tombstone gate

The compactor is documented to drop tombstones in the deepest level once the replicas have seen the
batch (`README.md`, safe compaction LSN gate). `CheckCompactionConditions` (`ss_compacter_st.go`)
goes up to the level above the deepest one, and there `level+1 >= LSMLevels` is still false, so no
tombstone is ever dropped (`dropTombstones_eq_false`). -/

namespace ChudDB
open Lib

/-- The documented gate for a batch of a source level: the output goes to the deepest level, and
there is no watermark, or the LSN of the batch is known and below it. -/
def GateOpen (cfg : Config) (level safeCompactionLSN : Nat) (tables : List SSTable) : Prop :=
  level + 1 = cfg.lsmLevels - 1 ∧ (safeCompactionLSN = 0 ∨
    0 < batchMaxLSN tables ∧ batchMaxLSN tables ≤ safeCompactionLSN)

instance : Decidable (GateOpen cfg level safe tables) := inferInstanceAs (Decidable (_ ∧ _))

/-- Some table holds the key. -/
def HeldBy (tables : List SSTable) (key : Key) : Prop := ∃ t ∈ tables, key ∈ t.entries.map Prod.fst

/-- What is documented of an output: it omits the keys whose surviving version is the tombstone if
the gate is open, and no key otherwise. `surviving` is the version of a key that survives. -/
def FollowsGate (cfg : Config) (level safeCompactionLSN : Nat) (tables : List SSTable)
    (surviving : Key → Value) (out : SSTable) : Prop :=
  ∀ key, HeldBy tables key → (key ∉ out.entries.map Prod.fst ↔
    GateOpen cfg level safeCompactionLSN tables ∧ surviving key = cfg.tombstone)

/-- No level that the compactor visits counts as the last one. -/
theorem dropTombstones_eq_false {cfg : Config} {level : Nat} (h : level + 1 < cfg.lsmLevels)
    (safeCompactionLSN : Nat) (tables : List SSTable) :
    dropTombstones (decide (level + 1 ≥ cfg.lsmLevels)) safeCompactionLSN tables = false := by
  have hlast : decide (level + 1 ≥ cfg.lsmLevels) = false := decide_eq_false (Nat.not_le.mpr h)
  rw [dropTombstones, hlast, Bool.false_and]

namespace Engine
variable {M : Type} {cfg : Config} {safeCompactionLSN : Nat} {commit : Nat → Nat → Option Path}
  {e : Engine M} {r : CompactionResult} {out : SSTable}

/-- The tables that a result replaces. -/
def inputs (e : Engine M) (r : CompactionResult) : List SSTable := r.oldPaths.filterMap e.getOrOpen

theorem output_of_mem_results
    (h : (r, out) ∈ e.checkCompactionConditions cfg safeCompactionLSN commit) :
    r.level + 1 < cfg.lsmLevels ∧
      out = compactTables cfg (decide (r.level + 1 ≥ cfg.lsmLevels)) safeCompactionLSN
        (e.inputs r) := by
  obtain ⟨level, hlevel, hr⟩ := List.mem_flatMap.mp h
  obtain ⟨b, -, hb⟩ := List.mem_filterMap.mp hr
  obtain ⟨p, -, heq⟩ := compactBatch_eq_some hb
  cases heq
  exact ⟨Nat.add_lt_of_lt_sub (List.mem_range.mp hlevel), rfl⟩

/-- An output omits the empty key and no other. -/
theorem notMem_output_iff {key : Key}
    (h : (r, out) ∈ e.checkCompactionConditions cfg safeCompactionLSN commit)
    (hsorted : ∀ t ∈ e.inputs r, SortedKeys t.entries) (hkey : HeldBy (e.inputs r) key) :
    key ∉ out.entries.map Prod.fst ↔ key = [] := by
  obtain ⟨hlevel, rfl⟩ := output_of_mem_results h
  rw [key_mem_compactTables hsorted (dropTombstones_eq_false hlevel safeCompactionLSN _),
    not_and_or, not_not]
  exact or_iff_left (not_not.mpr hkey)

/-- The outputs of a round follow the documented gate exactly where the gate is closed or no
tombstone survives, and the empty key does not occur. (If it does, it would have to be the one key
whose tombstone is to be dropped.) -/
theorem followsGate_iff
    (h : (r, out) ∈ e.checkCompactionConditions cfg safeCompactionLSN commit)
    (hsorted : ∀ t ∈ e.inputs r, SortedKeys t.entries) (surviving : Key → Value) :
    FollowsGate cfg r.level safeCompactionLSN (e.inputs r) surviving out ↔
      ∀ key, HeldBy (e.inputs r) key → (key = [] ↔
        GateOpen cfg r.level safeCompactionLSN (e.inputs r) ∧ surviving key = cfg.tombstone) :=
  forall₂_congr fun _ hkey => iff_congr (notMem_output_iff h hsorted hkey) Iff.rfl

/-- Tables on the paths 0, 1, … in the level above the deepest one. -/
def deepTables (tables : List SSTable) : Engine HashMap :=
  { newEngine defaultConfig (.newAppendStorageInDir [] 67108864 65536) with
    versions := [[], [], List.range tables.length, []]
    files := tables.zipIdx.map fun t => (t.2, t.1) }

/-- The batch of level 2 is committed under the name 100. -/
def deepCommit (level _j : Nat) : Option Path := if level = 2 then some 100 else none

/-- A batch of puts into the deepest level. -/
theorem followsGate_puts :
    ∃ out, (⟨2, 100, [0, 1, 2, 3]⟩, out) ∈
        (deepTables oneKeyBatch).checkCompactionConditions defaultConfig 0 deepCommit ∧
      FollowsGate defaultConfig 2 0 oneKeyBatch (fun _ => [4]) out := by
  let r : CompactionResult := ⟨2, 100, [0, 1, 2, 3]⟩
  have hmem : (r, (deepTables oneKeyBatch).outputTable defaultConfig 0 2 [0, 1, 2, 3]) ∈
      (deepTables oneKeyBatch).checkCompactionConditions defaultConfig 0 deepCommit :=
    List.mem_flatMap.mpr ⟨2, by decide, List.mem_filterMap.mpr ⟨([0, 1, 2, 3], 0), by decide, rfl⟩⟩
  have hinputs : (deepTables oneKeyBatch).inputs r = oneKeyBatch := by decide
  have hsorted : ∀ t ∈ (deepTables oneKeyBatch).inputs r, SortedKeys t.entries := by
    rw [hinputs]
    unfold SortedKeys
    decide
  have h := (followsGate_iff hmem hsorted fun _ => [4]).mpr ?_
  · rw [hinputs] at h
    exact ⟨_, hmem, h⟩
  · rintro key ⟨t, ht, hkey⟩
    rw [hinputs] at ht
    have hkey : key = [107] := by
      simp only [oneKeyBatch, List.mem_cons, List.not_mem_nil, or_false] at ht
      rcases ht with rfl | rfl | rfl | rfl <;> simpa using hkey
    rw [hkey]
    decide

/-- Four tables with a tombstone of one key. -/
def tombstoneBatch : List SSTable :=
  [⟨[([107], defaultConfig.tombstone)], 1⟩, ⟨[([108], [1])], 2⟩, ⟨[([109], [1])], 3⟩,
    ⟨[([110], [1])], 4⟩]

/-- The tombstone is written to the deepest level, with the gate open. -/
theorem deepest_level_keeps_tombstone :
    GateOpen defaultConfig 2 0 tombstoneBatch ∧
    ∃ out, (⟨2, 100, [0, 1, 2, 3]⟩, out) ∈
        (deepTables tombstoneBatch).checkCompactionConditions defaultConfig 0 deepCommit ∧
      ([107], defaultConfig.tombstone) ∈ out.entries ∧
      ∀ surviving : Key → Value, surviving [107] = defaultConfig.tombstone →
        ¬ FollowsGate defaultConfig 2 0 tombstoneBatch surviving out := by
  have hgate : GateOpen defaultConfig 2 0 tombstoneBatch := by decide
  have hout : ([107], defaultConfig.tombstone) ∈
      ((deepTables tombstoneBatch).outputTable defaultConfig 0 2 [0, 1, 2, 3]).entries := by
    decide +kernel
  refine ⟨hgate, _, List.mem_flatMap.mpr ⟨2, by decide,
    List.mem_filterMap.mpr ⟨([0, 1, 2, 3], 0), by decide, rfl⟩⟩, hout, ?_⟩
  intro surviving hsurviving hfollows
  have hheld : HeldBy tombstoneBatch [107] := ⟨_, List.mem_cons_self, by decide⟩
  exact (hfollows [107] hheld).mpr ⟨hgate, hsurviving⟩ (List.mem_map_of_mem hout)

end Engine
end ChudDB
