import ChudDB.Lib.Paging
import ChudDB.Engine.ReadLaw
import ChudDB.Sstable.RoundTrip

/-! # Scans

`scan` (`scan.go`) with `RangeScan` and `PrefixScan` on top of it. A scan visits the layers from the
newest to the oldest and takes each key where it meets it first, deletes included, so that a delete
hides what older layers hold. After every run of writes, seals and flushes the pages of a scan put
together are the live entries it asks for, in the order of the keys. -/

namespace ChudDB
open Lib Wal

/-- The maps `results` and `seen` of `scan`; `results` is listed in the order of its keys. -/
structure ScanState where
  results : List KeyValue
  seen : List Key

namespace ScanState

/-- The maps `scan` begins with. -/
def empty : ScanState := ⟨[], []⟩

variable (tombstone : Value)

/-- What `scan` does with an entry of the active memtable. -/
def take (st : ScanState) (entry : KeyValue) : ScanState where
  seen := entry.1 :: st.seen
  results := if entry.2 ≠ tombstone then put entry.1 entry.2 st.results else st.results

/-- What `scan` does with an entry of an older layer. -/
def visit (st : ScanState) (entry : KeyValue) : ScanState :=
  if entry.1 ∈ st.seen then st else st.take tombstone entry

end ScanState

/-- The entries of a sorted table that `SSTableReader.RangeScan` returns. -/
def SSTable.rangeScan (start stop : Key) (t : SSTable) : Option (List KeyValue) :=
  some (t.entries.filter fun e => start ≤ e.1 ∧ e.1 ≤ stop)

/-- The entries of a sorted table that `SSTableReader.PrefixScan` returns. -/
def SSTable.prefixScan (pre : Key) (t : SSTable) : Option (List KeyValue) :=
  some (t.entries.filter fun e => pre <+: e.1)

/-- The expression `l[lo:hi]`; `none` is the run-time error for bounds that are out of order. -/
def slice (l : List α) (lo hi : Int) : Option (List α) :=
  if 0 ≤ lo ∧ lo ≤ hi ∧ hi ≤ l.length then some ((l.take hi.toNat).drop lo.toNat) else none

namespace Engine

variable {M : Type} [Memtable M] (cfg : Config)

/-- The loops of `scan`; a table that does not open or whose scan fails (`none`) is passed over. -/
def scanLayers (keyPred : Key → Bool) (sstScan : SSTable → Option (List KeyValue)) (e : Engine M) :
    ScanState :=
  let st := ((Memtable.toRaw e.activeMem).filter (keyPred ·.1)).foldl
    (ScanState.take cfg.tombstone) .empty
  let st := e.immQueue.reverse.foldl
    (fun st im => (im.data.filter (keyPred ·.1)).foldl (ScanState.visit cfg.tombstone) st) st
  (searchOrder e.versions).foldl
    (fun st path => match (e.getOrOpen path).bind sstScan with
      | none => st
      | some ssResults => ssResults.foldl (ScanState.visit cfg.tombstone) st) st

/-- `scan`. -/
def scan (keyPred : Key → Bool) (sstScan : SSTable → Option (List KeyValue)) (e : Engine M) :
    List KeyValue :=
  (e.scanLayers cfg keyPred sstScan).results

/-- `findAllRangeMatches`. -/
def findAllRangeMatches (start stop : Key) (e : Engine M) : List KeyValue :=
  e.scan cfg (fun key => start ≤ key ∧ key ≤ stop) (SSTable.rangeScan start stop)

/-- `findAllPrefixMatches`. -/
def findAllPrefixMatches (pre : Key) (e : Engine M) : List KeyValue :=
  e.scan cfg (fun key => pre <+: key) (SSTable.prefixScan pre)

/-- The page that `RangeScan` and `PrefixScan` cut out of their results; `allowed` is the answer of
the rate limiter, `none` a run-time error. -/
def pageOf (allowed : Bool) (results : List KeyValue) (pageNum pageSize : Int) :
    Option (Except EngineError (List KeyValue)) :=
  if !allowed then some (.error .notAllowed)
  else
    let sorted := sortByKeys results
    (slice sorted (min sorted.length ((pageNum - 1) * pageSize))
      (min sorted.length (pageNum * pageSize))).map .ok

/-- `RangeScan`. -/
def rangeScan (allowed : Bool) (start stop : Key) (pageNum pageSize : Int) (e : Engine M) :
    Option (Except EngineError (List KeyValue)) :=
  pageOf allowed (e.findAllRangeMatches cfg start stop) pageNum pageSize

/-- `PrefixScan`. -/
def prefixScan (allowed : Bool) (pre : Key) (pageNum pageSize : Int) (e : Engine M) :
    Option (Except EngineError (List KeyValue)) :=
  pageOf allowed (e.findAllPrefixMatches cfg pre) pageNum pageSize

end Engine

/-! ## What a scan has met -/

namespace ScanState

variable {tombstone : Value} {f : Key → Option Value} {st : ScanState}

/-- The scan has met the keys at which `f` has a value, in their newest versions. -/
structure Met (tombstone : Value) (f : Key → Option Value) (st : ScanState) : Prop where
  ascending : Ascending st.results
  seen : ∀ k, k ∈ st.seen ↔ (f k).isSome
  results : ∀ k, st.results.lookup k = live tombstone (f k)

theorem met_empty : Met tombstone (fun _ => none) .empty where
  ascending := List.Pairwise.nil
  seen := by simp [empty]
  results := by simp [empty]

theorem lookup_singleton {entry : KeyValue} :
    [entry].lookup k = if k = entry.1 then some entry.2 else none := by
  rw [List.lookup_cons]
  by_cases hk : k = entry.1
  · rw [if_pos hk, beq_iff_eq.mpr hk]
  · rw [if_neg hk, beq_eq_false_iff_ne.mpr hk, List.lookup_nil]

theorem Met.take {entry : KeyValue} (h : Met tombstone f st) (hnew : entry.1 ∉ st.seen) :
    Met tombstone (fun k => (f k).or ([entry].lookup k)) (st.take tombstone entry) := by
  have hnone : f entry.1 = none := by simpa [h.seen] using hnew
  refine ⟨?_, fun k => ?_, fun k => ?_⟩
  · rw [ScanState.take]
    split
    · exact ascending_put h.ascending
    · exact h.ascending
  · rw [ScanState.take, List.mem_cons, h.seen, lookup_singleton]
    by_cases hk : k = entry.1 <;> simp [hk]
  · rw [ScanState.take, lookup_singleton]
    by_cases hk : k = entry.1
    · rw [if_pos hk, hk, hnone, Option.none_or, live_some, ite_not]
      split
      · rw [h.results, hnone, live_none]
      · rw [lookup_put h.ascending, if_pos rfl]
    · rw [if_neg hk, Option.or_none, ← h.results k]
      split
      · rw [lookup_put h.ascending, if_neg hk]
      · rfl

/-- A key that was met before keeps its version. -/
theorem Met.visit {entry : KeyValue} (h : Met tombstone f st) :
    Met tombstone (fun k => (f k).or ([entry].lookup k)) (st.visit tombstone entry) := by
  rw [ScanState.visit]
  split
  · rename_i hseen
    have hsame : (fun k => (f k).or ([entry].lookup k)) = f := by
      funext k
      rw [lookup_singleton]
      split
      · rename_i hk
        obtain ⟨v, hv⟩ := Option.isSome_iff_exists.mp ((h.seen k).mp (hk ▸ hseen))
        rw [hv]
        rfl
      · exact Option.or_none
    rw [hsame]
    exact h
  · rename_i hnew
    exact h.take hnew

theorem Met.foldl_visit {l : List KeyValue} (h : Met tombstone f st) :
    Met tombstone (fun k => (f k).or (l.lookup k)) (l.foldl (ScanState.visit tombstone) st) := by
  induction l generalizing f st with
  | nil => simpa using h
  | cons entry l ih =>
    have hfirst : Met tombstone (fun k => (f k).or ([entry].lookup k)) _ := h.visit
    have hnext := ih hfirst
    simp only [Option.or_assoc, ← List.lookup_append, List.singleton_append] at hnext
    exact hnext

/-- Within a layer no key comes twice, so the active memtable may be visited like the others. -/
theorem foldl_take_eq {l : List KeyValue} (hnodup : (l.map Prod.fst).Nodup)
    (hnew : ∀ entry ∈ l, entry.1 ∉ st.seen) :
    l.foldl (ScanState.take tombstone) st = l.foldl (ScanState.visit tombstone) st := by
  induction l generalizing st with
  | nil => rfl
  | cons entry l ih =>
    rw [List.map_cons, List.nodup_cons] at hnodup
    rw [List.foldl_cons, List.foldl_cons, ScanState.visit, if_neg (hnew entry List.mem_cons_self)]
    refine ih hnodup.2 fun entry' hmem hseen => ?_
    rcases List.mem_cons.mp hseen with heq | hseen
    · exact hnodup.1 (heq ▸ List.mem_map_of_mem hmem)
    · exact hnew entry' (List.mem_cons_of_mem _ hmem) hseen

/-- Layers are visited one after another. -/
theorem Met.layers {layer : β → List KeyValue} {l : List β} (h : Met tombstone f st) :
    Met tombstone (fun k => (f k).or (l.findSome? fun b => (layer b).lookup k))
      (l.foldl (fun st b => (layer b).foldl (ScanState.visit tombstone) st) st) := by
  induction l generalizing f st with
  | nil => simpa using h
  | cons b l ih =>
    have hnext := ih (h.foldl_visit (l := layer b))
    have hcons : ∀ k, (((b :: l).findSome? fun b => (layer b).lookup k)) =
        ((layer b).lookup k).or (l.findSome? fun b => (layer b).lookup k) := by
      intro k
      rw [List.findSome?_cons]
      cases (layer b).lookup k <;> rfl
    simp only [Option.or_assoc, ← hcons] at hnext
    exact hnext

end ScanState

namespace Engine

variable {M : Type} [Memtable M] {cfg : Config} {e : Engine M}

/-- The scan of a table gives what the table holds of the wanted keys. -/
def ScansFor (keyPred : Key → Bool) (sstScan : SSTable → Option (List KeyValue)) : Prop :=
  ∀ t, ∃ l, sstScan t = some l ∧ ∀ k, l.lookup k = if keyPred k then t.get k else none

theorem scansFor_rangeScan :
    ScansFor (fun key => start ≤ key ∧ key ≤ stop) (SSTable.rangeScan start stop) :=
  fun t => ⟨_, rfl, fun k => @lookup_filter_fst _ _ k _ _ t.entries
    fun key => decide (start ≤ key ∧ key ≤ stop)⟩

theorem scansFor_prefixScan : ScansFor (fun key => pre <+: key) (SSTable.prefixScan pre) :=
  fun t => ⟨_, rfl, fun k => @lookup_filter_fst _ _ k _ _ t.entries
    fun key => decide (pre <+: key)⟩

/-- A reader of the table's file gives what the scans of the table give. -/
theorem scans_flushMemtable {env : Sstable.FlushEnv} {t : SSTable} (hne : t.entries ≠ [])
    (hsorted : SortedKeys t.entries)
    (hfile : file = (Sstable.flushMemtable env seeds .none (.newFileWriter name) t.entries
      t.maxLSN).content) (hsize : file.length < 2 ^ 63) :
    ∃ r, Sstable.openFile env.prefixConfig file = .ok r ∧
      (∀ start stop, ∃ m l, r.rangeScan env.blockSize start stop = .ok m ∧
        t.rangeScan start stop = some l ∧ ∀ k, m.lookup k = l.lookup k) ∧
      ∀ pre, ∃ m l, r.prefixScan env.toHashing env.blockSize pre = .ok m ∧
        t.prefixScan pre = some l ∧ ∀ k, m.lookup k = l.lookup k := by
  rw [hfile] at hsize ⊢
  obtain ⟨r, hopen, hserves⟩ := Sstable.openFile_flushMemtable hne hsorted hsize
  obtain ⟨groups, hgroups, hholds⟩ := hserves.blocks
  refine ⟨r, hopen, fun start stop => ?_, fun pre => ?_⟩
  · obtain ⟨m, hm, hlookup⟩ := hholds.rangeScan_eq start stop
    obtain ⟨l, hl, hscan⟩ := @scansFor_rangeScan start stop t
    refine ⟨m, l, hm, hl, fun k => ?_⟩
    rw [hlookup k, hscan k, hgroups]
    simp only [decide_eq_true_eq]
    rfl
  · obtain ⟨m, hm, hlookup⟩ := hholds.prefixScan_eq env.toHashing
      (fun k hk => hserves.prefixFilter k (hgroups ▸ hk)) pre
    obtain ⟨l, hl, hscan⟩ := @scansFor_prefixScan pre t
    refine ⟨m, l, hm, hl, fun k => ?_⟩
    rw [hlookup k, hscan k, hgroups]
    simp only [decide_eq_true_eq]
    rfl

theorem scans_flushMemtable_jumbo : ∃ r, Sstable.openFile Sstable.smallEnv.prefixConfig
      (Sstable.flushMemtable Sstable.smallEnv ⟨0, 0⟩ .none (.newFileWriter 0) Sstable.jumboEntries
        7).content = .ok r ∧
    ∃ m, r.rangeScan Sstable.smallEnv.blockSize [97, 98] [98] = .ok m ∧
      m.lookup [97] = none ∧ m.lookup [97, 98] = some (List.replicate 100 7) ∧
      m.lookup [98] = some [2] := by
  obtain ⟨r, hopen, hrange, -⟩ := @scans_flushMemtable _ ⟨0, 0⟩ 0 Sstable.smallEnv
    ⟨Sstable.jumboEntries, 7⟩ (by decide) (by decide +kernel) rfl (by decide +kernel)
  obtain ⟨m, l, hm, hl, heq⟩ := hrange [97, 98] [98]
  cases hl
  exact ⟨r, hopen, m, hm, heq [97], heq [97, 98], heq [98]⟩

/-- What `scan` takes from a table. -/
def tableLayer (sstScan : SSTable → Option (List KeyValue)) (e : Engine M) (path : Path) :
    List KeyValue :=
  ((e.getOrOpen path).bind sstScan).getD []

omit [Memtable M] in
theorem lookup_tableLayer (hscan : ScansFor keyPred sstScan) :
    (e.tableLayer sstScan path).lookup k =
      if keyPred k then (e.getOrOpen path).bind (·.get k) else none := by
  rw [tableLayer]
  cases e.getOrOpen path with
  | none => simp
  | some t =>
    obtain ⟨l, hl, hlookup⟩ := hscan t
    rw [Option.bind_some, hl, Option.getD_some, hlookup k]
    rfl

/-- The versions that `scan` meets, layer by layer. -/
theorem scanLayers_met : ScanState.Met cfg.tombstone
    (fun k => ((((Memtable.toRaw e.activeMem).filter (keyPred ·.1)).lookup k).or
        (e.immQueue.reverse.findSome? fun im => (im.data.filter (keyPred ·.1)).lookup k)).or
      ((searchOrder e.versions).findSome? fun path => (e.tableLayer sstScan path).lookup k))
    (e.scanLayers cfg keyPred sstScan) := by
  have hnodup : (((Memtable.toRaw e.activeMem).filter (keyPred ·.1)).map Prod.fst).Nodup :=
    (Memtable.nodup_toRaw e.activeMem).sublist (List.filter_sublist.map _)
  have htables : (fun (st : ScanState) path => match (e.getOrOpen path).bind sstScan with
      | none => st
      | some ssResults => ssResults.foldl (ScanState.visit cfg.tombstone) st) =
      fun st path => (e.tableLayer sstScan path).foldl (ScanState.visit cfg.tombstone) st := by
    funext st path
    rw [tableLayer]
    cases (e.getOrOpen path).bind sstScan <;> rfl
  rw [scanLayers, htables, ScanState.foldl_take_eq hnodup (by simp [ScanState.empty])]
  exact ScanState.met_empty.foldl_visit.layers.layers

/-- A scan finds the newest version of every wanted key, unless it is a delete. -/
theorem lookup_scan (hscan : ScansFor keyPred sstScan) :
    (e.scan cfg keyPred sstScan).lookup k =
      if keyPred k then live cfg.tombstone ((e.memVersions k).head?.or (e.tableVersion k))
      else none := by
  rw [scan, scanLayers_met.results k]
  simp only [lookup_filter_fst, lookup_tableLayer hscan, head?_memVersions, memLayers,
    List.findSome?_cons, List.findSome?_map]
  cases keyPred k with
  | false =>
    have hnone : ∀ {β : Type} (l : List β), (l.findSome? fun _ => (none : Option Value)) = none :=
      fun l => List.findSome?_eq_none_iff.mpr fun _ _ => rfl
    simp only [Bool.false_eq_true, if_false, hnone, Option.or_none, live_none]
  | true =>
    simp only [if_true]
    cases (Memtable.toRaw e.activeMem).lookup k <;> rfl

/-! ## The pages -/

theorem pageOf_eq {results : List KeyValue} {size : Nat} (n : Nat) :
    pageOf true results (n + 1) size = some (.ok (page size n (sortByKeys results))) := by
  have hlo : min ((sortByKeys results).length : Int) ((n + 1 - 1) * size) =
      (min (sortByKeys results).length (n * size) : Nat) := by
    push_cast
    congr 2
    omega
  have hhi : min ((sortByKeys results).length : Int) ((n + 1) * size) =
      (min (sortByKeys results).length ((n + 1) * size) : Nat) := by push_cast; rfl
  have hmono : n * size ≤ (n + 1) * size := Nat.mul_le_mul_right _ (Nat.le_succ n)
  rw [pageOf, if_neg (by decide)]
  simp only [hlo, hhi]
  rw [slice, if_pos (by omega), Int.toNat_natCast, Int.toNat_natCast, drop_take_eq_page]
  rfl

/-- Pages 1, 2, … of a scan up to the first short one. -/
structure UpToShortPage (scanPage : Int → Option (Except EngineError (List KeyValue)))
    (pageSize : Int) (pages : List (List KeyValue)) : Prop where
  returned : ∀ (i : Nat) page, pages[i]? = some page → scanPage (i + 1) = some (.ok page)
  full : ∀ page ∈ pages.dropLast, page.length = pageSize
  short : ∃ page, pages.getLast? = some page ∧ page.length < pageSize

theorem upToShortPage_pages {results : List KeyValue} {size : Nat} (hsize : 0 < size) :
    UpToShortPage (fun pageNum => pageOf true results pageNum size) size
      (pages size (sortByKeys results)) where
  returned := fun i page hi => by rw [pageOf_eq, ← getElem?_pages hi]
  full := fun page hmem => by rw [length_of_mem_dropLast_pages hsize hmem]
  short := ⟨_, getLast?_pages, Int.ofNat_lt.mpr (page_short hsize)⟩

/-- The entries of the wanted keys that are not deleted, each with its last value, in the order of
the keys. -/
structure LiveContents (cfg : Config) (ops : List EngineOp) (wanted : Key → Prop)
    (l : List KeyValue) : Prop where
  sorted : SortedKeys l
  mem_iff : ∀ k v, (k, v) ∈ l ↔ wanted k ∧ lastWrite k ops = some v ∧ v ≠ cfg.tombstone

theorem liveContents_scan (hrun : System.run (step cfg) (newEngine cfg w : Engine M) ops = some e)
    (hscan : ScansFor keyPred sstScan) :
    LiveContents cfg ops (keyPred ·) (sortByKeys (e.scan cfg keyPred sstScan)) := by
  obtain ⟨level0, h⟩ := ReadInv.run hrun
  have hascending : Ascending (e.scan cfg keyPred sstScan) := scanLayers_met.ascending
  refine ⟨sortedKeys_sortByKeys hascending.nodup, fun k v => ?_⟩
  rw [sortByKeys_perm.mem_iff, ← lookup_eq_some_iff_mem hascending.nodup, lookup_scan hscan,
    h.newest k]
  cases keyPred k with
  | false => simp
  | true => simp [live, Option.filter_eq_some_iff]

/-- After every run of writes, deletes, seals and flushes, the pages of `RangeScan` and those of
`PrefixScan`, up to the first short one, put together are the live entries asked for. -/
theorem scan_pages_live (hrun : System.run (step cfg) (newEngine cfg w : Engine M) ops = some e)
    (hsize : 1 ≤ pageSize) :
    (∀ start stop, ∃ pages,
      UpToShortPage (fun pageNum => e.rangeScan cfg true start stop pageNum pageSize) pageSize
        pages ∧
      LiveContents cfg ops (fun k => start ≤ k ∧ k ≤ stop) pages.flatten) ∧
    ∀ pre, ∃ pages,
      UpToShortPage (fun pageNum => e.prefixScan cfg true pre pageNum pageSize) pageSize pages ∧
      LiveContents cfg ops (fun k => pre <+: k) pages.flatten := by
  obtain ⟨size, rfl⟩ := Int.eq_ofNat_of_zero_le (by omega : 0 ≤ pageSize)
  have hpos : 0 < size := by omega
  constructor
  · intro start stop
    refine ⟨_, upToShortPage_pages hpos, ?_⟩
    rw [flatten_pages hpos]
    have h := liveContents_scan hrun (@scansFor_rangeScan start stop)
    simp only [decide_eq_true_eq] at h
    exact h
  · intro pre
    refine ⟨_, upToShortPage_pages hpos, ?_⟩
    rw [flatten_pages hpos]
    have h := liveContents_scan hrun (@scansFor_prefixScan pre)
    simp only [decide_eq_true_eq] at h
    exact h

/-- A key deleted over a flushed value, read in pages of one entry. -/
theorem scan_pages_live_deleted : ∃ e ∈ System.run (step defaultConfig)
    (newEngine defaultConfig (.newAppendStorageInDir [] 67108864 65536) : Engine HashMap)
    [.write [97] [1], .write [98] [2], .write [99] [3], .drain, .flush 1,
      .write [98] defaultConfig.tombstone],
    (∃ pages, UpToShortPage
      (fun pageNum => e.rangeScan defaultConfig true [97] [99] pageNum 1) 1 pages ∧
      ([98], [2]) ∉ pages.flatten) ∧
    e.rangeScan defaultConfig true [97] [99] 2 1 = some (.ok [([99], [3])]) := by
  refine ⟨Option.get _ (by decide +kernel), Option.get_mem _, ?_, by decide +kernel⟩
  refine ((scan_pages_live (Option.get_mem _) (le_refl 1)).1 [97] [99]).imp
    fun pages ⟨hpages, hlive⟩ => ⟨hpages, fun hmem => ?_⟩
  have := ((hlive.mem_iff [98] [2]).mp hmem).2.1
  revert this
  decide

end Engine
end ChudDB
