import ChudDB.Lib.Heap
import ChudDB.Lib.Loop
import ChudDB.Lib.Merge
import ChudDB.Lib.Layers
import ChudDB.Engine.Basic

/-! # Merging tables

`compactTables` (`ss_compacter_st.go`): the entries of the input tables are merged with a heap of
stream heads that is ordered by the key alone, and of the entries with one key the first that comes
out of the heap is written. -/

namespace ChudDB
open Lib

structure HeapEntry where
  key : Key
  value : Value
  streamIdx : Nat
deriving DecidableEq, Repr

/-- The entry for the next element of a stream. -/
def nextEntry (si : Nat) (stream : List KeyValue) : Option HeapEntry :=
  stream.head?.map fun e => ⟨e.1, e.2, si⟩

/-- Push the next element of a stream, if there is one. -/
def pushNext (si : Nat) (stream : List KeyValue) (h : Array HeapEntry) : Array HeapEntry :=
  match nextEntry si stream with
  | some entry => Heap.push HeapEntry.key h entry
  | none => h

/-- The heap with the first entry of each stream. -/
def seedHeap (streams : List (List KeyValue)) : Array HeapEntry :=
  streams.zipIdx.foldl (fun h s => pushNext s.2 s.1 h) #[]

/-- The state of the merge loop; `rest[i]` is what stream `i` holds from `indices[i]` on. -/
structure MergeState where
  heap : Array HeapEntry
  rest : List (List KeyValue)
  lastKey : Key
  written : List KeyValue

/-- One turn of the merge loop. -/
def mergeBody (dropTombstones : Bool) (tombstone : Value) (st : MergeState) :
    MergeState ⊕ List KeyValue :=
  match Heap.pop HeapEntry.key st.heap with
  | none => .inr st.written
  | some (entry, heap) =>
    let stream := st.rest.getD entry.streamIdx []
    let st := { st with
      heap := pushNext entry.streamIdx stream heap
      rest := st.rest.set entry.streamIdx stream.tail }
    if entry.key = st.lastKey then .inl st
    else if dropTombstones && entry.value = tombstone then .inl { st with lastKey := entry.key }
    else .inl { st with
      lastKey := entry.key
      written := st.written ++ [(entry.key, entry.value)] }

/-- The entries that are written for the given streams. Each turn of the loop takes one entry of the
streams. -/
def mergeStreams (dropTombstones : Bool) (tombstone : Value) (streams : List (List KeyValue)) :
    List KeyValue :=
  (loop (mergeBody dropTombstones tombstone) (streams.flatten.length + 1)
    ⟨seedHeap streams, streams.map List.tail, [], []⟩).getD []

def batchMaxLSN (tables : List SSTable) : Nat :=
  tables.foldl (fun m t => if t.maxLSN > m then t.maxLSN else m) 0

def dropTombstones (isLastLevel : Bool) (safeCompactionLSN : Nat) (tables : List SSTable) : Bool :=
  isLastLevel && (safeCompactionLSN == 0 ||
    (0 < batchMaxLSN tables && batchMaxLSN tables ≤ safeCompactionLSN))

/-- `compactTables` for tables that can all be opened and scanned. -/
def compactTables (cfg : Config) (isLastLevel : Bool) (safeCompactionLSN : Nat)
    (tables : List SSTable) : SSTable where
  entries := mergeStreams (dropTombstones isLastLevel safeCompactionLSN tables) cfg.tombstone
    (tables.map SSTable.entries)
  maxLSN := batchMaxLSN tables

/-! ## The merge loop -/

/-- The entries the heap holds when `streams` is what is left, its heads included. -/
def heads (streams : List (List KeyValue)) : List HeapEntry :=
  streams.zipIdx.filterMap fun s => nextEntry s.2 s.1

theorem nextEntry_eq_some :
    nextEntry si stream = some entry ↔
      entry.streamIdx = si ∧ ∃ s, stream = (entry.key, entry.value) :: s := by
  cases stream with
  | nil => simp [nextEntry]
  | cons e s =>
    obtain ⟨k, v⟩ := e
    obtain ⟨k', v', i⟩ := entry
    simp only [nextEntry, List.head?_cons, Option.map_some, Option.some.injEq, HeapEntry.mk.injEq,
      List.cons.injEq, Prod.mk.injEq]
    constructor
    · rintro ⟨rfl, rfl, rfl⟩
      exact ⟨rfl, s, ⟨rfl, rfl⟩, rfl⟩
    · rintro ⟨rfl, s', ⟨rfl, rfl⟩, -⟩
      exact ⟨rfl, rfl, rfl⟩

theorem mem_heads : entry ∈ heads streams ↔
    ∃ s, streams[entry.streamIdx]? = some ((entry.key, entry.value) :: s) := by
  simp only [heads, List.mem_filterMap, nextEntry_eq_some, Prod.exists]
  constructor
  · rintro ⟨stream, i, hmem, rfl, s, rfl⟩
    exact ⟨s, List.mem_zipIdx_iff_getElem?.mp hmem⟩
  · rintro ⟨s, hget⟩
    exact ⟨_, _, List.mem_zipIdx_iff_getElem?.mpr hget, rfl, s, rfl⟩

theorem heads_split : heads (l₁ ++ stream :: l₂) = heads l₁ ++ ((nextEntry l₁.length stream).toList ++
    (l₂.zipIdx (l₁.length + 1)).filterMap fun s => nextEntry s.2 s.1) := by
  rw [heads, List.zipIdx_append, List.filterMap_append, List.zipIdx_cons, Nat.zero_add,
    filterMap_cons_toList]
  rfl

theorem heads_set (h : streams[si]? = some ((k, v) :: s)) :
    (⟨k, v, si⟩ :: heads (streams.set si s)).Perm (heads streams ++ (nextEntry si s).toList) := by
  obtain ⟨l₁, l₂, rfl, hsplit, hset⟩ := exists_split_set h
  rw [hset, heads_split]
  conv_rhs => rw [hsplit, heads_split]
  have hold : (nextEntry l₁.length ((k, v) :: s)).toList = [⟨k, v, l₁.length⟩] := rfl
  rw [hold, List.append_assoc]
  apply List.perm_middle.symm.trans
  exact List.Perm.append_left _ (List.Perm.cons _ List.perm_append_comm)

theorem pushNext_perm : (pushNext si s h).toList.Perm (h.toList ++ (nextEntry si s).toList) := by
  rw [pushNext]
  cases nextEntry si s with
  | none => simp
  | some entry => simpa using (Heap.push_perm h entry).toList

theorem isHeap_pushNext (hh : Heap.IsHeap HeapEntry.key h) :
    Heap.IsHeap HeapEntry.key (pushNext si s h) := by
  rw [pushNext]
  cases nextEntry si s with
  | none => exact hh
  | some entry => exact Heap.isHeap_push hh entry

theorem foldl_pushNext {l : List (List KeyValue × Nat)} (hh : Heap.IsHeap HeapEntry.key h) :
    Heap.IsHeap HeapEntry.key (l.foldl (fun h s => pushNext s.2 s.1 h) h) ∧
      (l.foldl (fun h s => pushNext s.2 s.1 h) h).toList.Perm
        (h.toList ++ l.filterMap fun s => nextEntry s.2 s.1) := by
  induction l generalizing h with
  | nil => exact ⟨hh, by rw [List.filterMap_nil, List.append_nil]; exact .refl _⟩
  | cons s l ih =>
    obtain ⟨hheap, hperm⟩ := ih (isHeap_pushNext hh)
    refine ⟨hheap, hperm.trans ?_⟩
    rw [filterMap_cons_toList, ← List.append_assoc]
    exact pushNext_perm.append_right _

/-- The heap holds the heads of the streams, and `rest` is what follows them. -/
structure Heading (heap : Array HeapEntry) (rest streams : List (List KeyValue)) : Prop where
  isHeap : Heap.IsHeap HeapEntry.key heap
  perm : heap.toList.Perm (heads streams)
  rest_eq : rest = streams.map List.tail

theorem Heading.seed : Heading (seedHeap streams) (streams.map List.tail) streams := by
  obtain ⟨hheap, hperm⟩ := foldl_pushNext (l := streams.zipIdx) Heap.isHeap_empty
  exact ⟨hheap, hperm, rfl⟩

/-- While elements are left, the heap gives up a head with a least key, and the heap for what is
left then is the one after the push. -/
theorem Heading.pop (h : Heading heap rest streams) (hne : heap.size ≠ 0) :
    ∃ k v si s heap', Heap.pop HeapEntry.key heap = some (⟨k, v, si⟩, heap') ∧
      streams[si]? = some ((k, v) :: s) ∧
      (∀ e ∈ streams.filterMap List.head?, k ≤ e.1) ∧
      rest.getD si [] = s ∧ Heading (pushNext si s heap') (rest.set si s.tail) (streams.set si s) := by
  obtain ⟨⟨k, v, si⟩, heap', hpop, hperm, hheap, hmin⟩ := Heap.pop_spec h.isHeap (by omega)
  have hperm' : (heap'.toList ++ [(⟨k, v, si⟩ : HeapEntry)]).Perm (heads streams) := by
    simpa using hperm.toList.trans h.perm
  have hmem : (⟨k, v, si⟩ : HeapEntry) ∈ heads streams :=
    hperm'.mem_iff.mp (List.mem_append_right _ List.mem_cons_self)
  obtain ⟨s, hget⟩ := mem_heads.mp hmem
  have hrest : rest.getD si [] = s := by
    rw [h.rest_eq, List.getD_eq_getElem?_getD, List.getElem?_map, hget]
    rfl
  refine ⟨k, v, si, s, heap', hpop, hget, ?_, hrest, isHeap_pushNext hheap, ?_, ?_⟩
  · intro e he
    obtain ⟨stream, hstream, hhead⟩ := List.mem_filterMap.mp he
    obtain ⟨t, rfl⟩ := List.head?_eq_some_iff.mp hhead
    obtain ⟨i, hi⟩ := List.getElem?_of_mem hstream
    have he' : (⟨e.1, e.2, i⟩ : HeapEntry) ∈ heads streams := mem_heads.mpr ⟨t, hi⟩
    exact hmin _ (Array.mem_toList_iff.mp (h.perm.mem_iff.mpr he'))
  · have hcons : (⟨k, v, si⟩ :: (pushNext si s heap').toList).Perm
        (⟨k, v, si⟩ :: heads (streams.set si s)) := by
      apply List.Perm.trans _ (heads_set hget).symm
      apply (pushNext_perm.cons _).trans
      rw [← List.cons_append]
      exact (List.perm_append_singleton _ _).symm.trans hperm' |>.append_right _
    exact hcons.cons_inv
  · rw [h.rest_eq, List.map_set]

/-- What is written of a merged list, after `last` was the last key. -/
def writtenOf (dropTombstones : Bool) (tombstone : Value) (last : Key) (merged : List KeyValue) :
    List KeyValue :=
  (firsts Prod.fst last merged).filter fun e => !(dropTombstones && e.2 = tombstone)

theorem writtenOf_cons : writtenOf drop tombstone last (e :: merged) =
    if e.1 = last then writtenOf drop tombstone last merged
    else if drop && e.2 = tombstone then writtenOf drop tombstone e.1 merged
    else e :: writtenOf drop tombstone e.1 merged := by
  simp only [writtenOf, firsts]
  split
  · rfl
  · rw [List.filter_cons]
    cases (drop && decide (e.2 = tombstone)) <;> rfl

/-- The invariant of the loop: what was written, with what will be written for the streams that are
left, is what some merge of all streams writes. -/
def Merging (drop : Bool) (tombstone : Value) (all : List (List KeyValue)) (m : Nat)
    (st : MergeState) : Prop :=
  ∃ streams, Heading st.heap st.rest streams ∧ m = streams.flatten.length ∧
    ∀ merged, Merges Prod.fst streams merged → ∃ merged', Merges Prod.fst all merged' ∧
      writtenOf drop tombstone [] merged' =
        st.written ++ writtenOf drop tombstone st.lastKey merged

theorem Heading.all_nil (h : Heading heap rest streams) (hsize : heap.size = 0) :
    ∀ s ∈ streams, s = [] := by
  intro s hs
  cases s with
  | nil => rfl
  | cons e s =>
    obtain ⟨i, hi⟩ := List.getElem?_of_mem hs
    have hmem : (⟨e.1, e.2, i⟩ : HeapEntry) ∈ heap.toList :=
      h.perm.mem_iff.mpr (mem_heads.mpr ⟨s, hi⟩)
    rw [Array.eq_empty_of_size_eq_zero hsize] at hmem
    cases hmem

theorem Merging.stop (h : Merging drop tombstone all m st) (hsize : st.heap.size = 0) :
    mergeBody drop tombstone st = .inr st.written ∧
      ∃ merged, Merges Prod.fst all merged ∧ st.written = writtenOf drop tombstone [] merged := by
  obtain ⟨streams, hheading, -, hmerging⟩ := h
  obtain ⟨merged, hmerged, heq⟩ := hmerging [] (.done (hheading.all_nil hsize))
  refine ⟨by rw [mergeBody, Heap.pop_eq_none hsize], merged, hmerged, ?_⟩
  rw [heq]
  exact (List.append_nil _).symm

theorem Merging.step (h : Merging drop tombstone all m st) (hsize : st.heap.size ≠ 0) :
    ∃ st' m', mergeBody drop tombstone st = .inl st' ∧ m' < m ∧
      Merging drop tombstone all m' st' := by
  obtain ⟨streams, hheading, rfl, hmerging⟩ := h
  obtain ⟨k, v, si, s, heap, hpop, hget, hmin, hrest, hnext⟩ := hheading.pop hsize
  have hlen : (streams.set si s).flatten.length < streams.flatten.length := by
    rw [← (flatten_set_perm hget).length_eq]
    exact Nat.lt_succ_self _
  have htake : ∀ merged, Merges Prod.fst (streams.set si s) merged → ∃ merged',
      Merges Prod.fst all merged' ∧ writtenOf drop tombstone [] merged' =
        st.written ++ writtenOf drop tombstone st.lastKey ((k, v) :: merged) :=
    fun merged hmerged => hmerging _ (.take hget hmin hmerged)
  simp only [writtenOf_cons] at htake
  rw [mergeBody, hpop]
  simp only [hrest]
  split
  · rename_i hk
    simp only [if_pos hk] at htake
    exact ⟨_, _, rfl, hlen, _, hnext, rfl, htake⟩
  · rename_i hk
    simp only [if_neg hk] at htake
    split
    · rename_i hv
      simp only [if_pos hv] at htake
      exact ⟨_, _, rfl, hlen, _, hnext, rfl, htake⟩
    · rename_i hv
      simp only [if_neg hv] at htake
      refine ⟨_, _, rfl, hlen, _, hnext, rfl, ?_⟩
      intro merged hmerged
      obtain ⟨merged', hmerged', heq⟩ := htake merged hmerged
      exact ⟨merged', hmerged', by rw [heq, List.append_assoc]; rfl⟩

/-- The loop writes the first of each run of equal keys of some merge of the streams. -/
theorem mergeStreams_spec (drop : Bool) (tombstone : Value) (streams : List (List KeyValue)) :
    ∃ merged, Merges Prod.fst streams merged ∧
      mergeStreams drop tombstone streams = writtenOf drop tombstone [] merged := by
  have hstart : Merging drop tombstone streams streams.flatten.length
      ⟨seedHeap streams, streams.map List.tail, [], []⟩ :=
    ⟨streams, .seed, rfl, fun merged hmerged => ⟨merged, hmerged, rfl⟩⟩
  have hbody : ∀ {m st}, Merging drop tombstone streams m st →
      (∃ st' m', mergeBody drop tombstone st = .inl st' ∧ m' < m ∧
        Merging drop tombstone streams m' st') ∨
      ∃ r, mergeBody drop tombstone st = .inr r ∧
        ∃ merged, Merges Prod.fst streams merged ∧ r = writtenOf drop tombstone [] merged := by
    intro m st h
    by_cases hsize : st.heap.size = 0
    · exact .inr ⟨st.written, h.stop hsize⟩
    · exact .inl (h.step hsize)
  obtain ⟨r, hr, merged, hmerged, heq⟩ := loop_spec hbody hstart (Nat.lt_succ_self _)
  exact ⟨merged, hmerged, by rw [mergeStreams, hr, Option.getD_some, heq]⟩

/-! ## The table that is written -/

theorem nil_le_key (k : Key) : [] ≤ k := by
  cases k with
  | nil => exact le_rfl
  | cons b k => exact le_of_lt (List.nil_lt_cons b k)

section Tables

variable {cfg : Config} {isLastLevel : Bool} {safe : Nat} {tables : List SSTable}

/-- The entries of the inputs can be listed by key so that the output is what is written of that
list. -/
theorem compactTables_spec (cfg : Config) (isLastLevel : Bool) (safe : Nat)
    (hsorted : ∀ t ∈ tables, SortedKeys t.entries) :
    ∃ merged : List KeyValue, merged.Pairwise (·.1 ≤ ·.1) ∧
      (∀ e, e ∈ merged ↔ ∃ t ∈ tables, e ∈ t.entries) ∧
      (compactTables cfg isLastLevel safe tables).entries =
        writtenOf (dropTombstones isLastLevel safe tables) cfg.tombstone [] merged := by
  obtain ⟨merged, hmerged, heq⟩ := mergeStreams_spec (dropTombstones isLastLevel safe tables)
    cfg.tombstone (tables.map SSTable.entries)
  refine ⟨merged, ?_, ?_, heq⟩
  · apply hmerged.sorted
    intro s hs
    obtain ⟨t, ht, rfl⟩ := List.mem_map.mp hs
    exact (List.pairwise_map.mp (hsorted t ht)).imp le_of_lt
  · intro e
    rw [hmerged.perm.mem_iff]
    simp only [List.mem_flatten, List.mem_map, exists_exists_and_eq_and]

theorem compactTables_sorted (hsorted : ∀ t ∈ tables, SortedKeys t.entries) :
    SortedKeys (compactTables cfg isLastLevel safe tables).entries := by
  obtain ⟨merged, hle, -, heq⟩ := compactTables_spec cfg isLastLevel safe hsorted
  rw [heq, SortedKeys, List.pairwise_map]
  exact (firsts_sorted hle fun e _ => nil_le_key e.1).1.filter _

/-- The LSN of a batch is the greatest of its tables' LSNs. -/
theorem batchMaxLSN_spec (hne : tables ≠ []) :
    (∃ t ∈ tables, t.maxLSN = batchMaxLSN tables) ∧
      ∀ t ∈ tables, t.maxLSN ≤ batchMaxLSN tables := by
  have hfold : batchMaxLSN tables = (tables.map SSTable.maxLSN).foldl max 0 := by
    rw [batchMaxLSN, List.foldl_map]
    congr 1
    funext m t
    rw [max_def]
    split <;> split <;> omega
  obtain ⟨m, hm⟩ := Option.ne_none_iff_exists'.mp
    (fun hnone => hne (List.map_eq_nil_iff.mp (List.max?_eq_none_iff.mp hnone)) :
      (tables.map SSTable.maxLSN).max? ≠ none)
  obtain ⟨hmem, hle⟩ := List.max?_eq_some_iff.mp hm
  rw [hfold, List.foldl_max, hm, Option.getD_some, Nat.zero_max]
  exact ⟨List.mem_map.mp hmem, fun t ht => hle _ (List.mem_map_of_mem ht)⟩

/-- Every entry of the output is an entry of some input. -/
theorem mem_of_mem_compactTables (hsorted : ∀ t ∈ tables, SortedKeys t.entries)
    (h : e ∈ (compactTables cfg isLastLevel safe tables).entries) : ∃ t ∈ tables, e ∈ t.entries := by
  obtain ⟨merged, -, hmem, heq⟩ := compactTables_spec cfg isLastLevel safe hsorted
  rw [heq] at h
  exact (hmem e).mp (firsts_sublist.mem (List.mem_of_mem_filter h))

/-- The keys of the output are those of the inputs without the empty key, with which `lastKey`
starts. -/
theorem key_mem_compactTables (hsorted : ∀ t ∈ tables, SortedKeys t.entries)
    (hdrop : dropTombstones isLastLevel safe tables = false) :
    k ∈ (compactTables cfg isLastLevel safe tables).entries.map Prod.fst ↔
      k ≠ [] ∧ ∃ t ∈ tables, k ∈ t.entries.map Prod.fst := by
  obtain ⟨merged, hle, hmem, heq⟩ := compactTables_spec cfg isLastLevel safe hsorted
  have hwritten : (compactTables cfg isLastLevel safe tables).entries =
      firsts Prod.fst [] merged := by
    rw [heq, writtenOf, hdrop]
    exact List.filter_eq_self.mpr fun _ _ => rfl
  rw [hwritten]
  constructor
  · intro hk
    obtain ⟨e, he, rfl⟩ := List.mem_map.mp hk
    obtain ⟨t, ht, het⟩ := (hmem e).mp (firsts_sublist.mem he)
    exact ⟨((firsts_sorted hle fun e _ => nil_le_key e.1).2 e he).ne',
      t, ht, List.mem_map_of_mem het⟩
  · rintro ⟨hne, t, ht, hk⟩
    obtain ⟨e, he, rfl⟩ := List.mem_map.mp hk
    obtain ⟨e', he', hkey⟩ := exists_first ((hmem e).mpr ⟨t, ht, he⟩) hne
    exact List.mem_map.mpr ⟨e', he', hkey⟩

/-- `out` holds the newest version of every key of the tables, which are listed oldest first. -/
structure KeepsNewest (tables : List SSTable) (out : SSTable) : Prop where
  sorted : SortedKeys out.entries
  keys : ∀ k, k ∈ out.entries.map Prod.fst ↔ ∃ t ∈ tables, k ∈ t.entries.map Prod.fst
  newest : ∀ k v, (k, v) ∈ out.entries → Lib.newest (·.get k) tables = some v

/-- Tables that share a key hold the same value for it. -/
def SharedKeysAgree (tables : List SSTable) : Prop :=
  ∀ t ∈ tables, ∀ t' ∈ tables, ∀ e ∈ t.entries, ∀ e' ∈ t'.entries, e.1 = e'.1 → e.2 = e'.2

/-- If the tables that share a key agree on it, every version is the newest. -/
theorem SharedKeysAgree.newest_eq (h : SharedKeysAgree tables)
    (hsorted : ∀ t ∈ tables, SortedKeys t.entries) (ht : t ∈ tables) (hk : (k, v) ∈ t.entries) :
    Lib.newest (·.get k) tables = some v := by
  have hget : t.get k = some v :=
    (lookup_eq_some_iff_mem ((hsorted t ht).imp ne_of_lt)).mpr hk
  cases hnew : Lib.newest (·.get k) tables with
  | none =>
    have := List.findSome?_eq_none_iff.mp hnew t (List.mem_reverse.mpr ht)
    rw [hget] at this
    cases this
  | some v' =>
    obtain ⟨t', ht', hget'⟩ := List.exists_of_findSome?_eq_some hnew
    have ht' := List.mem_reverse.mp ht'
    have hk' : (k, v') ∈ t'.entries :=
      (lookup_eq_some_iff_mem ((hsorted t' ht').imp ne_of_lt)).mp hget'
    exact congrArg some (h t' ht' t ht _ hk' _ hk rfl)

/-- Compaction keeps the newest version of every key if no table holds the empty key and tables that
share a key agree on it. A table with the empty key rules it out; whether it fails for a key on
which tables differ depends on the layout of the heap. -/
theorem compactTables_keepsNewest (hsorted : ∀ t ∈ tables, SortedKeys t.entries)
    (hdrop : dropTombstones isLastLevel safe tables = false) :
    ((∀ t ∈ tables, [] ∉ t.entries.map Prod.fst) → SharedKeysAgree tables →
      KeepsNewest tables (compactTables cfg isLastLevel safe tables)) ∧
    (KeepsNewest tables (compactTables cfg isLastLevel safe tables) →
      ∀ t ∈ tables, [] ∉ t.entries.map Prod.fst) := by
  constructor
  · intro hempty hagree
    refine ⟨compactTables_sorted hsorted, ?_, ?_⟩
    · intro k
      rw [key_mem_compactTables hsorted hdrop]
      refine and_iff_right_of_imp ?_
      rintro ⟨t, ht, hk⟩ rfl
      exact hempty t ht hk
    · intro k v hkv
      obtain ⟨t, ht, hmem⟩ := mem_of_mem_compactTables hsorted hkv
      exact hagree.newest_eq hsorted ht hmem
  · intro hkeeps t ht hk
    have := (key_mem_compactTables hsorted hdrop).mp ((hkeeps.keys []).mpr ⟨t, ht, hk⟩)
    exact this.1 rfl

end Tables

/-- Two tables that share a key and agree on it. -/
theorem compactTables_keepsNewest_agreeing :
    let tables : List SSTable := [⟨[([97], [1]), ([98], [2])], 4⟩, ⟨[([98], [2]), ([99], [3])], 7⟩]
    SharedKeysAgree tables ∧ KeepsNewest tables (compactTables defaultConfig false 0 tables) := by
  have hagree : SharedKeysAgree
      [⟨[([97], [1]), ([98], [2])], 4⟩, ⟨[([98], [2]), ([99], [3])], 7⟩] := by
    unfold SharedKeysAgree
    decide
  refine ⟨hagree, (compactTables_keepsNewest ?_ rfl).1 (by decide) hagree⟩
  unfold SortedKeys
  decide

/-- Four tables that hold one key with different values. -/
def oneKeyBatch : List SSTable :=
  [⟨[([107], [1])], 1⟩, ⟨[([107], [2])], 2⟩, ⟨[([107], [3])], 3⟩, ⟨[([107], [4])], 4⟩]

/-- Of the four values of a key the oldest is kept; and the empty key is dropped. -/
theorem compaction_keeps_oldest_value :
    (compactTables defaultConfig false 0 oneKeyBatch).entries = [([107], [1])] ∧
      ¬KeepsNewest oneKeyBatch (compactTables defaultConfig false 0 oneKeyBatch) ∧
      (compactTables defaultConfig false 0 [⟨[([], [1])], 1⟩]).entries = [] := by
  have hout : (compactTables defaultConfig false 0 oneKeyBatch).entries = [([107], [1])] := by
    decide +kernel
  refine ⟨hout, ?_, by decide +kernel⟩
  intro h
  have hnew := h.newest [107] [1] (by rw [hout]; exact List.mem_cons_self)
  revert hnew
  decide

end ChudDB
