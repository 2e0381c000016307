import ChudDB.Engine.ReadLaw

/-! # The level registry

Histories of flushes to level 0 and of compactions. A compaction takes any tables of a level, since
`CheckCompactionConditions` goes on behind a batch that has failed, and its output, which holds for
each key the newest value among the inputs, is added at the end of the next level. How recent a
version is cannot be told from where its table stands, so a history keeps the flush that each
version is from. `readFromSSTables` visits the levels from 0 on and level 0 from its end, but the
deeper levels from the front, and the first table that holds the key answers. -/

namespace ChudDB
open Lib Wal

namespace Engine

variable {M : Type}

/-- Of the given tables that hold the key, `p` has the most recent version. -/
def IsNewest (e : Engine M) (origin : Path → Key → Nat) (key : Key) (paths : List Path) (p : Path) :
    Prop :=
  p ∈ e.holders key paths ∧ ∀ q ∈ e.holders key paths, origin q key ≤ origin p key

/-- `History cfg e flushes origin`: the registry of `e` results from the given flushes, oldest first,
and any compactions; a table that holds a key has its version from the flush `origin`. -/
inductive History [Memtable M] (cfg : Config) :
    Engine M → List SSTable → (Path → Key → Nat) → Prop
  | init : History cfg (newEngine cfg w) [] fun _ _ => 0
  | flush (path : Path) (t : SSTable) : History cfg e flushes origin → e.getOrOpen path = none →
    History cfg { e.writeTable path t with versions := registerSSTable 0 path e.versions }
      (flushes ++ [t]) (Function.update origin path fun _ => flushes.length)
  | compact (level : Nat) (old : List Path) (path : Path) (out : SSTable) (stamp : Key → Nat) :
    History cfg e flushes origin → level + 1 < cfg.lsmLevels →
    e.versions[level]? = some paths → (∀ p ∈ old, p ∈ paths) → e.getOrOpen path = none →
    (∀ k, e.holders k old = [] ∧ out.get k = none ∨
      ∃ p, e.IsNewest origin k old p ∧ out.get k = e.version k p ∧ stamp k = origin p k) →
    History cfg ((e.writeTable path out).installCompaction level path old) flushes
      (Function.update origin path stamp)

/-! ## The registered tables -/

/-- Every registered table opens, its versions are from the flushes of their origin, and every write
of a flush is still there or superseded. -/
structure Chronicle (cfg : Config) (e : Engine M) (flushes : List SSTable)
    (origin : Path → Key → Nat) : Prop where
  length : e.versions.length = cfg.lsmLevels
  nodup : e.versions.flatten.Nodup
  opens : ∀ p ∈ e.versions.flatten, e.getOrOpen p ≠ none
  written : ∀ p ∈ e.versions.flatten, ∀ k v, e.version k p = some v →
    ∃ t, flushes[origin p k]? = some t ∧ t.get k = some v
  kept : ∀ n t k v, flushes[n]? = some t → t.get k = some v →
    ∃ p ∈ e.holders k e.versions.flatten, n ≤ origin p k

/-- The registry after a compaction: the inputs are gone from their level, and the output is at the
end of the next one. -/
theorem versions_installCompaction {e : Engine M} {pre post : List (List Path)}
    {paths deeper : List Path} (hversions : e.versions = pre ++ paths :: deeper :: post)
    (old : List Path) (path : Path) :
    (e.installCompaction pre.length path old).versions =
      pre ++ paths.filter (· ∉ old) :: (deeper ++ [path]) :: post := by
  have hregister := modify_append_cons (pre ++ [paths]) post deeper (· ++ [path])
  rw [List.length_append, List.length_singleton, List.append_assoc, List.append_assoc,
    List.singleton_append, List.singleton_append] at hregister
  rw [installCompaction, registerSSTable, hversions, hregister, modify_append_cons]

/-- What is registered after a compaction is the output and what was registered and is no input. -/
theorem flatten_installCompaction {e : Engine M} {level : Nat} (hnodup : e.versions.flatten.Nodup)
    (hlevel : level + 1 < e.versions.length) (hpaths : e.versions[level]? = some paths)
    (hold : ∀ p ∈ old, p ∈ paths) (path : Path) :
    (e.installCompaction level path old).versions.length = e.versions.length ∧
      (e.installCompaction level path old).versions.flatten.Perm
        (path :: e.versions.flatten.filter (· ∉ old)) := by
  obtain ⟨pre, deeper, post, hversions, rfl⟩ : ∃ pre deeper post,
      e.versions = pre ++ paths :: deeper :: post ∧ pre.length = level := by
    obtain ⟨hlt, hval⟩ := List.getElem?_eq_some_iff.mp hpaths
    refine ⟨e.versions.take level, e.versions[level + 1], e.versions.drop (level + 2), ?_,
      List.length_take_of_le hlt.le⟩
    rw [← hval, ← List.drop_eq_getElem_cons hlevel, ← List.drop_eq_getElem_cons hlt,
      List.take_append_drop]
  rw [versions_installCompaction hversions, hversions]
  refine ⟨by simp, ?_⟩
  -- the inputs stand in their level only
  have hother : ∀ l : List Path, (∀ p ∈ l, p ∉ paths) → l.filter (· ∉ old) = l := fun l hl =>
    List.filter_eq_self.mpr fun p hp => decide_eq_true fun hmem => hl p hp (hold p hmem)
  rw [hversions, List.flatten_append, List.flatten_cons, List.flatten_cons] at hnodup
  obtain ⟨-, hrest, hpre⟩ := List.nodup_append.mp hnodup
  obtain ⟨-, -, hlater⟩ := List.nodup_append.mp hrest
  simp only [List.flatten_append, List.flatten_cons, List.filter_append]
  rw [hother pre.flatten fun p hp hmem => hpre p hp p (List.mem_append_left _ hmem) rfl,
    hother deeper fun p hp hmem => hlater p hmem p (List.mem_append_left _ hp) rfl,
    hother post.flatten fun p hp hmem => hlater p hmem p (List.mem_append_right _ hp) rfl]
  simp only [List.append_assoc, List.singleton_append]
  rw [← List.append_assoc, ← List.append_assoc, ← List.append_assoc, ← List.append_assoc]
  exact List.perm_middle

namespace Chronicle

variable {cfg : Config} {e : Engine M} {flushes : List SSTable} {origin : Path → Key → Nat}

theorem init [Memtable M] : Chronicle cfg (newEngine cfg w : Engine M) [] fun _ _ => 0 := by
  have hempty : (newEngine cfg w : Engine M).versions.flatten = [] := by simp [newEngine]
  refine ⟨by simp [newEngine], by simp [hempty], by simp [hempty], by simp [hempty], by simp⟩

theorem notMem_of_fresh (h : Chronicle cfg e flushes origin) (hfresh : e.getOrOpen path = none) :
    path ∉ e.versions.flatten := fun hmem => h.opens path hmem hfresh

/-- A step that registers a new table under a fresh name, in the place of some tables that it
supersedes. -/
theorem replace {e' : Engine M} {rest : List Path} {stamp : Key → Nat} (new : SSTable)
    (h : Chronicle cfg e flushes origin) (hfresh : e.getOrOpen path = none)
    (hlen : e'.versions.length = e.versions.length)
    (hperm : e'.versions.flatten.Perm (path :: rest)) (hrest : rest.Sublist e.versions.flatten)
    (hnew : e'.getOrOpen path = some new) (hsame : ∀ p ∈ rest, e'.getOrOpen p = e.getOrOpen p)
    (hwritten : ∀ k v, new.get k = some v →
      ∃ t, (flushes ++ more)[stamp k]? = some t ∧ t.get k = some v)
    (hkept : ∀ n t k v, (flushes ++ more)[n]? = some t → t.get k = some v →
      (∃ p ∈ e.holders k rest, n ≤ origin p k) ∨ new.get k ≠ none ∧ n ≤ stamp k) :
    Chronicle cfg e' (flushes ++ more) (Function.update origin path stamp) := by
  have hnot := h.notMem_of_fresh hfresh
  have hne : ∀ {p}, p ∈ rest → p ≠ path := fun hp heq => hnot (heq ▸ hrest.subset hp)
  have hversion : ∀ k, e'.version k path = new.get k := fun k => by rw [version, hnew]; rfl
  have hversion' : ∀ {p} k, p ∈ rest → e'.version k p = e.version k p := fun k hp => by
    rw [version, hsame _ hp, version]
  refine ⟨hlen.trans h.length, ?_, ?_, ?_, ?_⟩
  · rw [hperm.nodup_iff, List.nodup_cons]
    exact ⟨fun hp => hnot (hrest.subset hp), h.nodup.sublist hrest⟩
  · intro p hp
    rcases List.mem_cons.mp (hperm.mem_iff.mp hp) with rfl | hp
    · exact hnew ▸ Option.some_ne_none _
    · exact hsame p hp ▸ h.opens p (hrest.subset hp)
  · intro p hp k v hv
    rcases List.mem_cons.mp (hperm.mem_iff.mp hp) with rfl | hp
    · rw [Function.update_self]
      exact hwritten k v ((hversion k).symm.trans hv)
    · rw [Function.update_of_ne (hne hp)]
      obtain ⟨t, ht, hget⟩ := h.written p (hrest.subset hp) k v ((hversion' k hp).symm.trans hv)
      exact ⟨t, (List.getElem?_append_left (lt_length_of_getElem? ht)).trans ht, hget⟩
  · intro n t k v ht hget
    rcases hkept n t k v ht hget with ⟨p, hp, hle⟩ | ⟨hheld, hle⟩
    · obtain ⟨hp, hholds⟩ := List.mem_filter.mp hp
      refine ⟨p, List.mem_filter.mpr ⟨hperm.mem_iff.mpr (List.mem_cons_of_mem _ hp), ?_⟩, ?_⟩
      · rwa [hversion' k hp]
      · rwa [Function.update_of_ne (hne hp)]
    · refine ⟨path, List.mem_filter.mpr ⟨hperm.mem_iff.mpr List.mem_cons_self, ?_⟩, ?_⟩
      · rw [hversion]
        exact Option.isSome_iff_ne_none.mpr hheld
      · rwa [Function.update_self]

theorem flush (h : Chronicle cfg e flushes origin) (hfresh : e.getOrOpen path = none) :
    Chronicle cfg { e.writeTable path t with versions := registerSSTable 0 path e.versions }
      (flushes ++ [t]) (Function.update origin path fun _ => flushes.length) := by
  have hperm : (registerSSTable 0 path e.versions).flatten.Perm (path :: e.versions.flatten) := by
    cases hversions : e.versions with
    | nil =>
      have := h.length
      have := cfg.lsmLevels_pos
      simp only [hversions, List.length_nil] at *
      omega
    | cons level0 deeper =>
      simp only [registerSSTable, List.modify_zero_cons, List.flatten_cons, List.append_assoc,
        List.singleton_append]
      exact List.perm_middle
  refine h.replace t hfresh (by simp [registerSSTable]) hperm (.refl _)
    (by simp [getOrOpen, writeTable])
    (fun p hp => getOrOpen_of_files rfl fun heq => h.notMem_of_fresh hfresh (heq ▸ hp))
    (fun k v hv => ⟨t, by simp, hv⟩) fun n t' k v ht' hget => ?_
  rcases Nat.lt_or_ge n flushes.length with hn | hn
  · rw [List.getElem?_append_left hn] at ht'
    exact .inl (h.kept n t' k v ht' hget)
  · have hlt := lt_length_of_getElem? ht'
    rw [List.length_append, List.length_singleton] at hlt
    obtain rfl : n = flushes.length := by omega
    rw [List.getElem?_concat_length] at ht'
    cases ht'
    exact .inr ⟨hget ▸ Option.some_ne_none v, le_refl _⟩

theorem compact {level : Nat} {stamp : Key → Nat} (h : Chronicle cfg e flushes origin)
    (hlevel : level + 1 < cfg.lsmLevels) (hpaths : e.versions[level]? = some paths)
    (hold : ∀ p ∈ old, p ∈ paths) (hfresh : e.getOrOpen path = none)
    (hout : ∀ k, e.holders k old = [] ∧ out.get k = none ∨
      ∃ p, e.IsNewest origin k old p ∧ out.get k = e.version k p ∧ stamp k = origin p k) :
    Chronicle cfg ((e.writeTable path out).installCompaction level path old) flushes
      (Function.update origin path stamp) := by
  have hnot := h.notMem_of_fresh hfresh
  have hmem : ∀ p ∈ old, p ∈ e.versions.flatten := fun p hp =>
    List.mem_flatten.mpr ⟨paths, List.mem_of_getElem? hpaths, hold p hp⟩
  have hlookup : ∀ {p}, p ∉ old → ((e.writeTable path out).installCompaction level path old).getOrOpen
      p = (e.writeTable path out).getOrOpen p := fun hp => lookup_filter_notMem hp
  obtain ⟨hlen, hperm⟩ := flatten_installCompaction (e := e.writeTable path out) h.nodup
    (h.length.symm ▸ hlevel) hpaths hold path
  rw [← List.append_nil flushes]
  refine h.replace out hfresh hlen hperm List.filter_sublist ?_ (fun p hp => ?_) (fun k v hv => ?_)
    fun n t k v ht hget => ?_
  · rw [hlookup fun hp => hnot (hmem path hp)]
    simp [getOrOpen, writeTable]
  · obtain ⟨hp, hrest⟩ := List.mem_filter.mp hp
    rw [hlookup (of_decide_eq_true hrest)]
    exact getOrOpen_of_files rfl fun heq => hnot (heq ▸ hp)
  · obtain ⟨-, hnone⟩ | ⟨q, ⟨hq, -⟩, hget, hstamp⟩ := hout k
    · cases hnone.symm.trans hv
    · rw [hstamp, List.append_nil]
      exact h.written q (hmem q (List.mem_filter.mp hq).1) k v (hget.symm.trans hv)
  · rw [List.append_nil] at ht
    obtain ⟨p, hp, hle⟩ := h.kept n t k v ht hget
    obtain ⟨hreg, hholds⟩ := List.mem_filter.mp hp
    by_cases hin : p ∈ old
    · -- the output has a version that is as recent
      have hheld : p ∈ e.holders k old := List.mem_filter.mpr ⟨hin, hholds⟩
      obtain ⟨hnone, -⟩ | ⟨q, ⟨hq, hmax⟩, hout, hstamp⟩ := hout k
      · rw [hnone] at hheld
        cases hheld
      · refine .inr ⟨?_, hstamp ▸ hle.trans (hmax p hheld)⟩
        rw [hout]
        exact Option.isSome_iff_ne_none.mp (List.mem_filter.mp hq).2
    · exact .inl ⟨p, List.mem_filter.mpr ⟨List.mem_filter.mpr ⟨hreg, decide_eq_true hin⟩, hholds⟩,
        hle⟩

end Chronicle

variable {cfg : Config} {e : Engine M} {origin : Path → Key → Nat}

theorem History.chronicle [Memtable M] (h : History cfg e flushes origin) :
    Chronicle cfg e flushes origin := by
  induction h with
  | init => exact .init
  | flush _ _ _ hfresh ih => exact ih.flush hfresh
  | compact _ _ _ _ _ _ hlevel hpaths hold hfresh hout ih =>
    exact ih.compact hlevel hpaths hold hfresh hout

/-! ## Reading -/

/-- The first table that `readFromSSTables` finds the key in says the same about it as the one with
the most recent version. -/
def MeetsNewest (e : Engine M) (origin : Path → Key → Nat) (key : Key) : Prop :=
  ∀ p ∈ (e.visited key).head?, ∀ q, e.IsNewest origin key (searchOrder e.versions) q →
    e.version key p = e.version key q

theorem mem_searchOrder {levels : List (List Path)} :
    p ∈ searchOrder levels ↔ p ∈ levels.flatten := by
  cases levels with
  | nil => rfl
  | cons level0 deeper =>
    rw [searchOrder_cons, List.mem_append, List.mem_reverse, List.flatten_cons, List.mem_append]

/-- The most recent version that is registered is that of the most recent flush. -/
theorem Chronicle.version_newest (h : Chronicle cfg e flushes origin)
    (hq : e.IsNewest origin key (searchOrder e.versions) q) :
    e.version key q = newest (·.get key) flushes := by
  obtain ⟨hq, hmax⟩ := hq
  obtain ⟨v, hv⟩ := version_of_mem_holders hq
  obtain ⟨t, ht, hget⟩ := h.written q (mem_searchOrder.mp (List.mem_filter.mp hq).1) key v hv
  refine hv.trans (newest_eq_some ht hget fun m t' ht' hne => ?_).symm
  obtain ⟨v', hv'⟩ := Option.ne_none_iff_exists'.mp hne
  obtain ⟨p, hp, hle⟩ := h.kept m t' key v' ht' hv'
  obtain ⟨hp, hholds⟩ := List.mem_filter.mp hp
  exact hle.trans (hmax p (List.mem_filter.mpr ⟨mem_searchOrder.mpr hp, hholds⟩))

theorem exists_isNewest (origin : Path → Key → Nat) (h : e.holders key paths ≠ []) :
    ∃ q, e.IsNewest origin key paths q := by
  obtain ⟨q, hq, hmax⟩ := Finset.exists_max_image (e.holders key paths).toFinset (origin · key)
    (List.toFinset_nonempty_iff _ |>.mpr h)
  exact ⟨q, List.mem_toFinset.mp hq, fun p hp => hmax p (List.mem_toFinset.mpr hp)⟩

/-- After every history and for every key, the tables answer with the most recent flush that wrote
the key exactly when the first table that holds the key has the most recent version, or the same
value. -/
theorem readFromSSTables_newest_iff [Memtable M] (h : History cfg e flushes origin) :
    e.readFromSSTables cfg key = live cfg.tombstone (newest (·.get key) flushes) ↔
      e.MeetsNewest origin key := by
  have hc := h.chronicle
  rw [readFromSSTables_eq, tableVersion_eq, MeetsNewest]
  cases hhead : (e.visited key).head? with
  | none =>
    have hnone : newest (·.get key) flushes = none := by
      rw [newest, List.findSome?_eq_none_iff]
      intro t ht
      by_contra hne
      obtain ⟨v, hv⟩ := Option.ne_none_iff_exists'.mp hne
      obtain ⟨n, hn⟩ := List.mem_iff_getElem?.mp (List.mem_reverse.mp ht)
      obtain ⟨p, hp, -⟩ := hc.kept n t key v hn hv
      obtain ⟨hp, hholds⟩ := List.mem_filter.mp hp
      have hmem : p ∈ e.visited key := List.mem_filter.mpr ⟨mem_searchOrder.mpr hp, hholds⟩
      rw [List.head?_eq_none_iff.mp hhead] at hmem
      cases hmem
    simp [hnone]
  | some p =>
    have hmem : p ∈ e.visited key := List.mem_of_head? hhead
    obtain ⟨q, hq⟩ := exists_isNewest origin (List.ne_nil_of_mem hmem)
    obtain ⟨v, hv⟩ := version_of_mem_holders hmem
    obtain ⟨w, hw⟩ := version_of_mem_holders hq.1
    rw [← hc.version_newest hq, Option.bind_some, hv, hw, live_inj (by simp)]
    constructor
    · rintro heq p' ⟨⟩ q' hq'
      rw [hv, heq, ← hw, hc.version_newest hq, hc.version_newest hq']
    · intro hall
      rw [← hv, ← hw]
      exact hall p rfl q hq

/-- A table with one version of one key. -/
def oneKey (value : UInt8) : SSTable := ⟨[([107], [value])], 0⟩

/-- Tables of the one key are merged into the most recent of them. -/
theorem merges_oneKey {old : List Path} (hopens : ∀ p ∈ old, ∃ v, e.getOrOpen p = some (oneKey v))
    (hp : p ∈ old) (hopen : e.getOrOpen p = some (oneKey v))
    (hmax : ∀ q ∈ old, origin q [107] ≤ origin p [107]) (k : Key) :
    e.holders k old = [] ∧ (oneKey v).get k = none ∨
      ∃ p', e.IsNewest origin k old p' ∧ (oneKey v).get k = e.version k p' ∧
        origin p k = origin p' k := by
  by_cases hk : k = [107]
  · subst hk
    refine .inr ⟨p, ⟨List.mem_filter.mpr ⟨hp, ?_⟩, fun q hq => hmax q (List.mem_filter.mp hq).1⟩, ?_,
      rfl⟩ <;> rw [version, hopen] <;> rfl
  · have hnone : ∀ v, (oneKey v).get k = none := fun v => by simp [SSTable.get, oneKey, hk]
    refine .inl ⟨List.filter_eq_nil_iff.mpr fun q hq => ?_, hnone v⟩
    obtain ⟨w, hw⟩ := hopens q hq
    simp [version, hw, hnone]

/-- Eight flushes of the key. -/
def eightTables : List SSTable := [1, 2, 3, 4, 5, 6, 7, 8].map oneKey

def eightFlushes : Engine HashMap :=
  ⟨.newHashMap, [], [[1, 2, 3, 4, 5, 6, 7, 8], [], [], []],
    [(8, oneKey 8), (7, oneKey 7), (6, oneKey 6), (5, oneKey 5), (4, oneKey 4), (3, oneKey 3),
      (2, oneKey 2), (1, oneKey 1)], .newAppendStorageInDir [] 67108864 65536⟩

theorem history_eightFlushes : ∃ origin, History defaultConfig eightFlushes eightTables origin ∧
    ∀ p ∈ [1, 2, 3, 4, 5, 6, 7, 8], origin p [107] = p - 1 := by
  have h : History defaultConfig (newEngine defaultConfig (.newAppendStorageInDir [] 67108864 65536) :
    Engine HashMap) [] _ := .init
  exact ⟨_, .flush 8 (oneKey 8) (.flush 7 (oneKey 7) (.flush 6 (oneKey 6) (.flush 5 (oneKey 5)
    (.flush 4 (oneKey 4) (.flush 3 (oneKey 3) (.flush 2 (oneKey 2) (.flush 1 (oneKey 1) h
      rfl) rfl) rfl) rfl) rfl) rfl) rfl) rfl, by decide⟩

/-- A batch of them is compacted into a table of level 1. -/
def compacted (old : List Path) (path : Path) (v : UInt8) (e : Engine HashMap) : Engine HashMap :=
  (e.writeTable path (oneKey v)).installCompaction 0 path old

theorem history_compacted {e : Engine HashMap} {paths : List Path} {v : UInt8}
    (h : History defaultConfig e eightTables origin) (old : List Path) (path p : Path)
    (hpaths : e.versions[0]? = some paths)
    (hold : ∀ p ∈ old, p ∈ paths ∧ ∃ v, e.getOrOpen p = some (oneKey v))
    (hfresh : e.getOrOpen path = none) (hp : p ∈ old) (hopen : e.getOrOpen p = some (oneKey v))
    (hmax : ∀ q ∈ old, origin q [107] ≤ origin p [107]) :
    History defaultConfig (compacted old path v e) eightTables
      (Function.update origin path (origin p)) :=
  .compact 0 old path (oneKey v) _ h (by decide) hpaths (fun q hq => (hold q hq).1) hfresh
    (merges_oneKey (fun q hq => (hold q hq).2) hp hopen hmax)

/-- The first batch is compacted, and the newest table of level 0 answers. -/
theorem readFromSSTables_compactedOnce :
    (compacted [1, 2, 3, 4] 9 4 eightFlushes).readFromSSTables defaultConfig [107] =
      live defaultConfig.tombstone (newest (·.get [107]) eightTables) := by
  obtain ⟨origin, h, horigin⟩ := history_eightFlushes
  have hvisited : (compacted [1, 2, 3, 4] 9 4 eightFlushes).visited [107] = [8, 7, 6, 5, 9] := by
    decide +kernel
  refine (readFromSSTables_newest_iff (history_compacted h [1, 2, 3, 4] 9 4 rfl ?_ rfl (by decide)
    rfl (by simp [horigin]))).mpr ?_
  · simp
    exact ⟨⟨_, rfl⟩, ⟨_, rfl⟩, ⟨_, rfl⟩, _, rfl⟩
  · rintro p hp q ⟨hq, hmax⟩
    change q ∈ visited _ _ at hq
    change ∀ q ∈ visited _ _, _ at hmax
    rw [hvisited] at hp hq hmax
    cases hp
    have hlast := hmax 8 List.mem_cons_self
    simp only [List.mem_cons, List.not_mem_nil, or_false] at hq
    rcases hq with rfl | rfl | rfl | rfl | rfl
    · rfl
    all_goals simp [horigin] at hlast

/-- Both batches are compacted, and the older of the two tables of level 1 answers; or the first
batch fails, and its newest table answers, which is older than the table of level 1. -/
theorem level_one_answers_oldest : ∃ (e e' : Engine HashMap) (origin origin' : Path → Key → Nat),
    (History defaultConfig e eightTables origin ∧ e.versions = [[], [9, 10], [], []]) ∧
    (History defaultConfig e' eightTables origin' ∧ e'.versions = [[1, 2, 3, 4], [9], [], []]) ∧
    newest (·.get [107]) eightTables = some [8] ∧
    e.readFromSSTables defaultConfig [107] = some [4] ∧
    e'.readFromSSTables defaultConfig [107] = some [4] := by
  obtain ⟨origin, h, horigin⟩ := history_eightFlushes
  have hfirst : History defaultConfig (compacted [1, 2, 3, 4] 9 4 eightFlushes) eightTables
      (Function.update origin 9 (origin 4)) := by
    refine history_compacted h [1, 2, 3, 4] 9 4 rfl ?_ rfl (by decide) rfl (by simp [horigin])
    simp
    exact ⟨⟨_, rfl⟩, ⟨_, rfl⟩, ⟨_, rfl⟩, _, rfl⟩
  refine ⟨_, _, _, _, ⟨history_compacted hfirst [5, 6, 7, 8] 10 8 rfl ?_ rfl
      (by decide) rfl (by simp [horigin]), by decide⟩,
    ⟨history_compacted h [5, 6, 7, 8] 9 8 rfl ?_ rfl (by decide) rfl
      (by simp [horigin]), by decide⟩, by decide, by decide +kernel, by decide +kernel⟩
  all_goals
    simp
    exact ⟨⟨_, rfl⟩, ⟨_, rfl⟩, ⟨_, rfl⟩, _, rfl⟩

end Engine
end ChudDB
