import ChudDB.Lib.Loop
import ChudDB.Lib.Paging
import ChudDB.Lib.Run
import ChudDB.Cluster.NodeStore

/-! # Scans page by page

The loop of `ScanRawRange` (`store.go`) over the answers of the engine's `RangeScan`, which are
taken to be the pages of the sorted pairs (`RawStore.rangeScan`). Over fixed contents the loop
returns the half-open range. Each page is cut out of the contents of its own moment, by its number:
a new key between two fetches moves the larger ones by one place. A scan with writes in between
still returns every key that was there before, but can return one twice. -/

namespace ChudDB.Cluster
open Lib

/-- `RawKV`. -/
abbrev RawKV := Bytes × Bytes

/-- The errors of `ScanRawRange`: that of the engine, and a row of less than two fields. -/
inductive ScanError (ε : Type u)
  | engine (err : ε)
  | malformedRow (row : List Bytes)
deriving DecidableEq, Repr

/-- The pairs that the engine holds, by key. -/
structure RawStore where
  rows : List RawKV
  ascending : Ascending rows
deriving DecidableEq

/-- The variables of the loop in `ScanRawRange`. -/
structure RawScan where
  page : Nat
  rows : List RawKV
deriving DecidableEq

/-- `scanEnd`. -/
def scanEnd (end_ : Bytes) : Bytes := if end_ = [] then unboundedRangeEnd else end_

/-- The loop over the rows of a batch. -/
def appendBatch {ε : Type u} (end_ : Bytes) :
    List (List Bytes) → List RawKV → Except (ScanError ε) (List RawKV)
  | [], rows => .ok rows
  | (key :: value :: _) :: batch, rows =>
    if end_ ≠ [] ∧ key = end_ then appendBatch end_ batch rows
    else appendBatch end_ batch (rows ++ [(key, value)])
  | row :: _, _ => .error (.malformedRow row)

namespace RawScan
variable {ε : Type u}

/-- The beginning of the loop. -/
def initial : RawScan := ⟨1, []⟩

/-- One iteration, with the answer of the engine. -/
def fetched (end_ : Bytes) (answer : Except ε (List (List Bytes))) (scan : RawScan) :
    RawScan ⊕ Except (ScanError ε) (List RawKV) :=
  match answer with
  | .error err => .inr (.error (.engine err))
  | .ok batch =>
    match appendBatch end_ batch scan.rows with
    | .error err => .inr (.error err)
    | .ok rows =>
      if batch.length < rawScanPageSize then .inr (.ok rows) else .inl ⟨scan.page + 1, rows⟩

end RawScan

/-- `ScanRawRange`, for at most `fuel` pages. -/
def scanRawRange {ε : Type u} (rangeScan : Bytes → Bytes → Nat → Nat → Except ε (List (List Bytes)))
    (start end_ : Bytes) (fuel : Nat) : Option (Except (ScanError ε) (List RawKV)) :=
  loop (fun scan : RawScan =>
    scan.fetched end_ (rangeScan start (scanEnd end_) scan.page rawScanPageSize)) fuel .initial

namespace RawStore

/-- The pairs from `start` to `stop`, both included. -/
def between (start stop : Bytes) (s : RawStore) : List RawKV :=
  s.rows.filter fun row => decide (start ≤ row.1 ∧ row.1 ≤ stop)

/-- `engine.RangeScan`: a page of the sorted pairs. -/
def rangeScan (s : RawStore) (start stop : Bytes) (pageNum pageSize : Nat) : List (List Bytes) :=
  let sorted := (s.between start stop).map fun row => [row.1, row.2]
  let lo := min sorted.length ((pageNum - 1) * pageSize)
  let hi := min sorted.length (pageNum * pageSize)
  (sorted.take hi).drop lo

/-- An engine with these contents that does not fail. -/
def engine (s : RawStore) : Bytes → Bytes → Nat → Nat → Except Empty (List (List Bytes)) :=
  fun start stop pageNum pageSize => .ok (s.rangeScan start stop pageNum pageSize)

/-- A write of a pair, of a new or of an existing key. -/
def write (key value : Bytes) (s : RawStore) : RawStore :=
  ⟨put key value s.rows, ascending_put s.ascending⟩

/-- The contents that a node store keeps in the engine, with the envelopes encoded. -/
def ofNodeStore (encode : Envelope → Bytes) (s : NodeStore) : RawStore :=
  ⟨s.rows.map fun row => (row.1, encode row.2), by
    have h := s.ascending
    rw [Ascending] at h ⊢
    rwa [List.map_map]⟩

end RawStore

variable {s : RawStore} {start end_ key value : Bytes} {scan : RawScan}

/-! ## One iteration -/

/-- The rows of a batch that are appended. -/
def kept (end_ : Bytes) (rows : List RawKV) : List RawKV :=
  rows.filter fun row => decide (¬ (end_ ≠ [] ∧ row.1 = end_))

theorem mem_kept {row : RawKV} {rows : List RawKV} :
    row ∈ kept end_ rows ↔ row ∈ rows ∧ ¬ (end_ ≠ [] ∧ row.1 = end_) := by
  rw [kept, List.mem_filter, decide_eq_true_iff]

theorem appendBatch_pairs (ε : Type u) (end_ : Bytes) (batch rows : List RawKV) :
    (appendBatch end_ (batch.map fun row => [row.1, row.2]) rows :
      Except (ScanError ε) (List RawKV)) = .ok (rows ++ kept end_ batch) := by
  induction batch generalizing rows with
  | nil => rw [List.map_nil, appendBatch, kept, List.filter_nil, List.append_nil]
  | cons row batch ih =>
    rw [List.map_cons, appendBatch, kept, List.filter_cons]
    split
    · next h => rw [ih, if_neg (by rw [decide_eq_true_iff]; exact not_not_intro h), kept]
    · next h =>
      rw [ih, if_pos (decide_eq_true h), List.append_assoc, List.singleton_append, kept]

namespace RawStore

theorem ascending_between (s : RawStore) (start stop : Bytes) : Ascending (s.between start stop) :=
  s.ascending.sublist List.filter_sublist

theorem mem_between {row : RawKV} {stop : Bytes} :
    row ∈ s.between start stop ↔ row ∈ s.rows ∧ start ≤ row.1 ∧ row.1 ≤ stop := by
  rw [between, List.mem_filter, decide_eq_true_iff]

theorem rangeScan_succ (s : RawStore) (start stop : Bytes) (n size : Nat) :
    s.rangeScan start stop (n + 1) size =
      (page size n (s.between start stop)).map fun row => [row.1, row.2] := by
  rw [rangeScan, Nat.add_sub_cancel, drop_take_eq_page, page, page, List.map_take, List.map_drop]

end RawStore

/-- What an iteration does with a page: it goes on if the page is full. -/
theorem fetched_eq (s : RawStore) (start end_ : Bytes) (n : Nat) (rows : List RawKV) :
    RawScan.fetched end_ (s.engine start (scanEnd end_) (n + 1) rawScanPageSize) ⟨n + 1, rows⟩ =
    (let batch := page rawScanPageSize n (s.between start (scanEnd end_))
     if batch.length < rawScanPageSize then .inr (.ok (rows ++ kept end_ batch))
     else .inl ⟨n + 2, rows ++ kept end_ batch⟩) := by
  simp only [RawScan.fetched, RawStore.engine]
  rw [RawStore.rangeScan_succ, appendBatch_pairs, List.length_map]

/-! ## Fixed contents -/

theorem kept_append (rows rows' : List RawKV) :
    kept end_ (rows ++ rows') = kept end_ rows ++ kept end_ rows' :=
  List.filter_append ..

/-- Over fixed contents the loop comes to an end after the first page that is not full, and returns
the rows up to the end without the one at the end. -/
theorem scanRawRange_eq_kept (s : RawStore) (start end_ : Bytes)
    (hfuel : (s.between start (scanEnd end_)).length / rawScanPageSize < fuel) :
    scanRawRange s.engine start end_ fuel =
      some (.ok (kept end_ (s.between start (scanEnd end_)))) := by
  have hsize : 0 < rawScanPageSize := by decide
  have hloop := fetched_eq s start end_
  generalize s.between start (scanEnd end_) = all at hfuel hloop ⊢
  suffices hreturns : ∃ r, scanRawRange s.engine start end_ fuel = some r ∧
      r = .ok (kept end_ all) by
    obtain ⟨r, hr, rfl⟩ := hreturns
    exact hr
  refine loop_spec (m := all.length / rawScanPageSize)
    (J := fun m scan => ∃ n, n + m = all.length / rawScanPageSize ∧
      scan = ⟨n + 1, kept end_ (all.take (n * rawScanPageSize))⟩) ?_ ⟨0, Nat.zero_add _, ?_⟩ hfuel
  · rintro m _ ⟨n, hn, rfl⟩
    rw [hloop]
    dsimp only
    rcases Nat.eq_zero_or_pos m with rfl | hm
    · obtain rfl : n = all.length / rawScanPageSize := by omega
      right
      rw [if_pos (page_short hsize)]
      refine ⟨_, rfl, ?_⟩
      rw [← kept_append, take_append_page, List.take_of_length_le]
      exact (Nat.lt_mul_of_div_lt (Nat.lt_succ_self _) hsize).le
    · left
      have hfull : (page rawScanPageSize n all).length = rawScanPageSize :=
        page_full hsize (by omega)
      rw [if_neg (by rw [hfull]; exact lt_irrefl _)]
      refine ⟨_, m - 1, rfl, by omega, n + 1, by omega, ?_⟩
      rw [← kept_append, take_append_page]
  · rw [Nat.zero_mul, List.take_zero]
    rfl

theorem kept_between (s : RawStore) (start end_ : Bytes) :
    kept end_ (s.between start (scanEnd end_)) =
      s.rows.filter fun row => decide (Scanned start end_ row.1) := by
  rw [kept, RawStore.between, List.filter_filter]
  refine List.filter_congr fun row _ => ?_
  rw [← Bool.decide_and, decide_eq_decide, scanEnd]
  by_cases hend : end_ = []
  · simp [hend, scanned_nil]
  · rw [scanned_iff hend, if_neg hend, lt_iff_le_and_ne]
    tauto

/-- The model of the anti-entropy store returns the same rows, with the envelopes for the values. -/
theorem scanRawRange_ofNodeStore (encode : Envelope → Bytes) (s : NodeStore) (start end_ : Bytes) :
    ∃ n, ∀ fuel, n < fuel →
      scanRawRange (RawStore.ofNodeStore encode s).engine start end_ fuel =
      some (.ok ((s.scanRawRange start end_).map fun row => (row.1, encode row.2))) := by
  refine ⟨((RawStore.ofNodeStore encode s).between start (scanEnd end_)).length / rawScanPageSize,
    fun fuel hfuel => ?_⟩
  rw [scanRawRange_eq_kept _ _ _ hfuel, kept_between, NodeStore.scanRawRange_eq,
    RawStore.ofNodeStore, List.filter_map]
  rfl

/-- Over fixed contents without keys above `unboundedRangeEnd`, `ScanRawRange` returns the pairs of
the half-open range, in the order of their keys. -/
theorem scanRawRange_halfOpen (s : RawStore) (start end_ : Bytes)
    (hkeys : ∀ row ∈ s.rows, row.1 ≤ unboundedRangeEnd) :
    ∃ rows n, (∀ fuel, n < fuel → scanRawRange s.engine start end_ fuel = some (.ok rows)) ∧
    Ascending rows ∧
    ∀ row, row ∈ rows ↔ row ∈ s.rows ∧ start ≤ row.1 ∧ (end_ ≠ [] → row.1 < end_) := by
  refine ⟨s.rows.filter fun row => decide (Scanned start end_ row.1),
    (s.between start (scanEnd end_)).length / rawScanPageSize, fun fuel hfuel => ?_,
    s.ascending.sublist List.filter_sublist, fun row => ?_⟩
  · rw [scanRawRange_eq_kept _ _ _ hfuel, kept_between]
  · rw [List.mem_filter, decide_eq_true_iff]
    refine and_congr_right fun hrow => ?_
    by_cases hend : end_ = []
    · simp [hend, scanned_nil, hkeys row hrow]
    · simp [scanned_iff hend, hend]

/-- Two pairs of which the second is at the end of a range. -/
def twoRows : RawStore := ⟨[([97], [1]), ([98], [2])], by unfold Ascending; decide⟩

theorem scanRawRange_halfOpen_twoRows :
    (∀ row ∈ twoRows.rows, row.1 ≤ unboundedRangeEnd) ∧
    ∃ rows n,
    (∀ fuel, n < fuel → scanRawRange twoRows.engine [] [98] fuel = some (.ok rows)) ∧
    Ascending rows ∧
    ∀ row, row ∈ rows ↔ row ∈ twoRows.rows ∧ [] ≤ row.1 ∧ (([98] : Bytes) ≠ [] → row.1 < [98]) :=
  ⟨by decide, scanRawRange_halfOpen twoRows [] [98] (by decide)⟩

/-! ## Writes between the fetches -/

/-- The contents, and the scan or its result. -/
structure ScanState where
  store : RawStore
  scan : RawScan ⊕ Except (ScanError Empty) (List RawKV)
deriving DecidableEq

inductive ScanLabel
  | write (key value : Bytes)
  | fetch
deriving DecidableEq, Repr

/-- A write at any time, or the next iteration of the scan on the contents of the moment. -/
def scanStep (start end_ : Bytes) : System ScanState ScanLabel
  | ⟨store, scan⟩, .write key value => some ⟨store.write key value, scan⟩
  | ⟨store, .inl scan⟩, .fetch =>
    some ⟨store, scan.fetched end_ (store.engine start (scanEnd end_) scan.page rawScanPageSize)⟩
  | ⟨_, .inr _⟩, .fetch => none

/-- The beginning of a scan. -/
def ScanState.init (store : RawStore) : ScanState := ⟨store, .inl .initial⟩

/-- The label writes a new key into the range, below the last row of the pages that have been
fetched, and that row has been returned. The row is then the first one of the next page. -/
def MovesReturned (start end_ : Bytes) (st : ScanState) : ScanLabel → Prop
  | .fetch => False
  | .write key _ => ∃ scan, st.scan = .inl scan ∧ key ∉ st.store.rows.map Prod.fst ∧ start ≤ key ∧
    ∃ row, (st.store.between start (scanEnd end_))[(scan.page - 1) * rawScanPageSize - 1]? =
      some row ∧ key < row.1 ∧ row.1 ∈ scan.rows.map Prod.fst

section
variable {store store' : RawStore} {rows result : List RawKV} {labels : List ScanLabel} {n : Nat}
  {r : Except (ScanError Empty) (List RawKV)} {st : ScanState} {stop : Bytes} {row : RawKV}

theorem between_write : (store.write key value).between start stop =
    if start ≤ key ∧ key ≤ stop then put key value (store.between start stop)
    else store.between start stop := by
  rw [RawStore.between, RawStore.write,
    filter_put store.ascending fun k => decide (start ≤ k ∧ k ≤ stop)]
  exact if_congr decide_eq_true_iff rfl rfl

/-- A write keeps the keys of the range. -/
theorem mem_keys_write {k : Bytes} (h : k ∈ (store.between start stop).map Prod.fst) :
    k ∈ ((store.write key value).between start stop).map Prod.fst := by
  rw [between_write]
  split
  · exact mem_keys_put h
  · exact h

/-- A write of a new key of the range moves the larger ones by one place. -/
theorem keyRank_write (k : Bytes) : keyRank ((store.write key value).between start stop) k =
    keyRank (store.between start stop) k +
      if (start ≤ key ∧ key ≤ stop) ∧ key < k ∧ key ∉ store.rows.map Prod.fst then 1 else 0 := by
  rw [between_write]
  by_cases hin : start ≤ key ∧ key ≤ stop
  · have hmem : key ∈ (store.between start stop).map Prod.fst ↔ key ∈ store.rows.map Prod.fst := by
      simp only [List.mem_map, RawStore.mem_between]
      constructor
      · rintro ⟨row, ⟨hrow, -⟩, rfl⟩
        exact ⟨row, hrow, rfl⟩
      · rintro ⟨row, hrow, rfl⟩
        exact ⟨row, ⟨hrow, hin⟩, rfl⟩
    rw [if_pos hin, keyRank_put (store.ascending_between start stop)]
    by_cases hmoves : key < k ∧ key ∉ store.rows.map Prod.fst
    · rw [if_pos ⟨hmoves.1, mt hmem.mp hmoves.2⟩, if_pos ⟨hin, hmoves⟩]
    · rw [if_neg fun h => hmoves ⟨h.1, mt hmem.mpr h.2⟩, if_neg fun h => hmoves h.2]
  · rw [if_neg hin, if_neg fun h => hin h.1, Nat.add_zero]

theorem run_done (h : (scanStep start end_).run ⟨store, .inr r⟩ labels = some st) :
    st.scan = .inr r := by
  induction labels generalizing store with
  | nil =>
    cases h
    rfl
  | cons label labels ih =>
    cases label with
    | write key value => exact ih h
    | fetch => cases h

theorem scanStep_fetch
    (hbatch : page rawScanPageSize n (store.between start (scanEnd end_)) = batch)
    (rows : List RawKV) :
    scanStep start end_ ⟨store, .inl ⟨n + 1, rows⟩⟩ .fetch =
      some ⟨store, if batch.length < rawScanPageSize then .inr (.ok (rows ++ kept end_ batch))
        else .inl ⟨n + 2, rows ++ kept end_ batch⟩⟩ := by
  rw [← hbatch]
  exact congrArg (fun scan => some (ScanState.mk store scan)) (fetched_eq store start end_ n rows)

/-- A fetch in a run that returns: either the scan returns, or it goes on with the next page. -/
theorem run_fetch
    (h : (scanStep start end_).run ⟨store, .inl ⟨n + 1, rows⟩⟩ (.fetch :: labels) = some st)
    (hdone : st.scan = .inr (.ok result)) :
    let batch := page rawScanPageSize n (store.between start (scanEnd end_))
    (scanStep start end_ ⟨store, .inl ⟨n + 1, rows⟩⟩ .fetch = some ⟨store, .inr (.ok result)⟩ ∧
      batch.length < rawScanPageSize ∧ result = rows ++ kept end_ batch) ∨
    (scanStep start end_ ⟨store, .inl ⟨n + 1, rows⟩⟩ .fetch =
        some ⟨store, .inl ⟨n + 2, rows ++ kept end_ batch⟩⟩ ∧
      (scanStep start end_).run ⟨store, .inl ⟨n + 2, rows ++ kept end_ batch⟩⟩ labels =
        some st) := by
  intro batch
  have hstep := scanStep_fetch (rfl : _ = batch) rows
  rw [System.run_cons_of_step hstep] at h
  by_cases hshort : batch.length < rawScanPageSize
  · rw [if_pos hshort] at h hstep
    have hresult := run_done h
    rw [hdone] at hresult
    cases hresult
    exact .inl ⟨hstep, hshort, rfl⟩
  · rw [if_neg hshort] at h hstep
    exact .inr ⟨hstep, h⟩

/-- What the rest of a scan adds: every key of the range that stands on the next page or behind it,
and only keys of the range. -/
theorem exists_rest (h : (scanStep start end_).run ⟨store, .inl ⟨n + 1, rows⟩⟩ labels = some st)
    (hdone : st.scan = .inr (.ok result)) :
    ∃ rest, result = rows ++ rest ∧ (∀ row ∈ rest, row.1 ≤ scanEnd end_) ∧
      ∀ k ∈ (store.between start (scanEnd end_)).map Prod.fst, ¬ (end_ ≠ [] ∧ k = end_) →
        n * rawScanPageSize ≤ keyRank (store.between start (scanEnd end_)) k →
        k ∈ rest.map Prod.fst := by
  induction labels generalizing store n rows with
  | nil =>
    cases h
    cases hdone
  | cons label labels ih =>
    cases label with
    | write key value =>
      obtain ⟨rest, hresult, hbound, hrest⟩ := ih h
      refine ⟨rest, hresult, hbound, fun k hk hend hrank => hrest k (mem_keys_write hk) hend ?_⟩
      rw [keyRank_write]
      exact hrank.trans (Nat.le_add_right ..)
    | fetch =>
      have hall := store.ascending_between start (scanEnd end_)
      have hfetch := run_fetch h hdone
      set batch := page rawScanPageSize n (store.between start (scanEnd end_)) with hpage
      have hbatch : ∀ row ∈ kept end_ batch, row.1 ≤ scanEnd end_ := by
        intro row hrow
        have hmem := ((mem_page_iff hall).mp (mem_kept.mp hrow).1).1
        exact (RawStore.mem_between.mp hmem).2.2
      rcases hfetch with ⟨-, hshort, hresult⟩ | ⟨-, h⟩
      · refine ⟨kept end_ batch, hresult, hbatch, fun k hk hend hrank => ?_⟩
        obtain ⟨row, hrow, rfl⟩ := List.mem_map.mp hk
        refine List.mem_map_of_mem (mem_kept.mpr ⟨?_, hend⟩)
        rw [hpage, page_eq_drop hshort]
        exact (mem_drop_iff hall _).mpr ⟨hrow, hrank⟩
      · obtain ⟨rest, hresult, hbound, hrest⟩ := ih h
        refine ⟨kept end_ batch ++ rest, by rw [hresult, List.append_assoc], ?_,
          fun k hk hend hrank => ?_⟩
        · exact List.forall_mem_append.mpr ⟨hbatch, hbound⟩
        · rw [List.map_append, List.mem_append]
          rcases Nat.lt_or_ge (keyRank (store.between start (scanEnd end_)) k)
            ((n + 1) * rawScanPageSize) with hlt | hge
          · obtain ⟨row, hrow, rfl⟩ := List.mem_map.mp hk
            left
            exact List.mem_map_of_mem
              (mem_kept.mpr ⟨(mem_page_iff hall).mpr ⟨hrow, hrank, hlt⟩, hend⟩)
          · exact .inr (hrest k hk hend hge)

/-- The rows returned so far: no key twice, and none on a later page. -/
structure Settled (start end_ : Bytes) (store : RawStore) (n : Nat) (rows : List RawKV) : Prop where
  nodup : (rows.map Prod.fst).Nodup
  stored : ∀ k ∈ rows.map Prod.fst, k ∈ (store.between start (scanEnd end_)).map Prod.fst
  rank_lt : ∀ k ∈ rows.map Prod.fst,
    keyRank (store.between start (scanEnd end_)) k < n * rawScanPageSize

theorem settled_nil : Settled start end_ store 0 [] where
  nodup := List.nodup_nil
  stored := List.forall_mem_nil _
  rank_lt := List.forall_mem_nil _

theorem Settled.write (h : Settled start end_ store n rows)
    (hok : ¬ MovesReturned start end_ ⟨store, .inl ⟨n + 1, rows⟩⟩ (.write key value)) :
    Settled start end_ (store.write key value) n rows where
  nodup := h.nodup
  stored k hk := mem_keys_write (h.stored k hk)
  rank_lt k hk := by
    rw [keyRank_write]
    split
    · next hnew =>
      have hlt := h.rank_lt k hk
      refine Nat.lt_of_le_of_ne hlt fun heq => hok ?_
      obtain ⟨row, hrow, rfl⟩ := List.mem_map.mp (h.stored k hk)
      refine ⟨_, rfl, hnew.2.2, hnew.1.1, row, ?_, hnew.2.1, hk⟩
      refine (getElem?_eq_some_iff_keyRank (store.ascending_between ..)).mpr ⟨hrow, ?_⟩
      rw [Nat.add_sub_cancel]
      omega
    · exact h.rank_lt k hk

theorem Settled.fetch (h : Settled start end_ store n rows) :
    Settled start end_ store (n + 1)
      (rows ++ kept end_ (page rawScanPageSize n (store.between start (scanEnd end_)))) := by
  have hall := store.ascending_between start (scanEnd end_)
  have hbatch : ∀ k ∈ (kept end_ (page rawScanPageSize n
      (store.between start (scanEnd end_)))).map Prod.fst,
      k ∈ (store.between start (scanEnd end_)).map Prod.fst ∧
      n * rawScanPageSize ≤ keyRank (store.between start (scanEnd end_)) k ∧
      keyRank (store.between start (scanEnd end_)) k < (n + 1) * rawScanPageSize := by
    intro k hk
    obtain ⟨row, hrow, rfl⟩ := List.mem_map.mp hk
    obtain ⟨hmem, hrank⟩ := (mem_page_iff hall).mp (mem_kept.mp hrow).1
    exact ⟨List.mem_map_of_mem hmem, hrank⟩
  have hnext : n * rawScanPageSize ≤ (n + 1) * rawScanPageSize :=
    Nat.mul_le_mul_right _ (Nat.le_succ n)
  constructor
  · rw [List.map_append, List.nodup_append]
    refine ⟨h.nodup, ?_, fun k hk k' hk' heq => ?_⟩
    · refine hall.nodup.sublist (List.Sublist.map _ (List.filter_sublist.trans ?_))
      exact (List.take_sublist ..).trans (List.drop_sublist ..)
    · have hlt := h.rank_lt k hk
      rw [heq] at hlt
      exact absurd (hbatch k' hk').2.1 (not_le.mpr hlt)
  · intro k hk
    rw [List.map_append, List.mem_append] at hk
    exact hk.elim (h.stored k) fun hk => (hbatch k hk).1
  · intro k hk
    rw [List.map_append, List.mem_append] at hk
    exact hk.elim (fun hk => (h.rank_lt k hk).trans_le hnext) fun hk => (hbatch k hk).2.2

/-- A scan during which no returned row moves to a later page returns no key twice. -/
theorem Settled.nodup_result (hsettled : Settled start end_ store n rows)
    (hok : (scanStep start end_).Guarded (fun st label => ¬ MovesReturned start end_ st label)
      ⟨store, .inl ⟨n + 1, rows⟩⟩ labels)
    (h : (scanStep start end_).run ⟨store, .inl ⟨n + 1, rows⟩⟩ labels = some st)
    (hdone : st.scan = .inr (.ok result)) : (result.map Prod.fst).Nodup := by
  induction labels generalizing store n rows with
  | nil =>
    cases h
    cases hdone
  | cons label labels ih =>
    cases label with
    | write key value => exact ih (hsettled.write hok.1) (hok.2 _ rfl) h
    | fetch =>
      rcases run_fetch h hdone with ⟨-, -, rfl⟩ | ⟨hstep, hrun⟩
      · exact hsettled.fetch.nodup
      · exact ih hsettled.fetch (hok.2 _ hstep) hrun

theorem guarded_done :
    (scanStep start end_).Guarded (fun st label => ¬ MovesReturned start end_ st label)
      ⟨store, .inr r⟩ labels := by
  induction labels generalizing store with
  | nil => trivial
  | cons label labels ih =>
    cases label with
    | write key value =>
      refine ⟨?_, fun st' h => ?_⟩
      · rintro ⟨scan, hscan, -⟩
        cases hscan
      · cases h
        exact ih
    | fetch => exact ⟨id, fun st' h => nomatch h⟩

/-- If a returned row moves to a later page, then it is returned again. -/
theorem guarded_of_nodup (hend : ∀ k ∈ rows.map Prod.fst, ¬ (end_ ≠ [] ∧ k = end_))
    (h : (scanStep start end_).run ⟨store, .inl ⟨n + 1, rows⟩⟩ labels = some st)
    (hdone : st.scan = .inr (.ok result)) (hnodup : (result.map Prod.fst).Nodup) :
    (scanStep start end_).Guarded (fun st label => ¬ MovesReturned start end_ st label)
      ⟨store, .inl ⟨n + 1, rows⟩⟩ labels := by
  induction labels generalizing store n rows with
  | nil => trivial
  | cons label labels ih =>
    cases label with
    | write key value =>
      refine ⟨?_, fun st' hst' => ?_⟩
      · rintro ⟨_, heq, hnew, hstart, row, hget, hlt, hreturned⟩
        cases heq
        obtain ⟨hrow, hrank⟩ :=
          (getElem?_eq_some_iff_keyRank (store.ascending_between start (scanEnd end_))).mp hget
        have hrun : (scanStep start end_).run ⟨store.write key value, .inl ⟨n + 1, rows⟩⟩ labels =
          some st := h
        obtain ⟨rest, rfl, -, hrest⟩ := exists_rest hrun hdone
        have hle : key ≤ scanEnd end_ := hlt.le.trans (RawStore.mem_between.mp hrow).2.2
        have hagain : row.1 ∈ rest.map Prod.fst := by
          refine hrest row.1 (mem_keys_write (List.mem_map_of_mem hrow)) (hend _ hreturned) ?_
          rw [keyRank_write, if_pos ⟨⟨hstart, hle⟩, hlt, hnew⟩, hrank, Nat.add_sub_cancel]
          omega
        rw [List.map_append, List.nodup_append] at hnodup
        exact hnodup.2.2 _ hreturned _ hagain rfl
      · cases hst'
        exact ih hend h
    | fetch =>
      refine ⟨id, fun st' hst' => ?_⟩
      rcases run_fetch h hdone with ⟨hstep, -⟩ | ⟨hstep, hrun⟩
      · rw [hstep] at hst'
        cases hst'
        exact guarded_done
      · rw [hstep] at hst'
        cases hst'
        refine ih (fun k hk => ?_) hrun
        rw [List.map_append, List.mem_append] at hk
        rcases hk with hk | hk
        · exact hend k hk
        · obtain ⟨row, hrow, rfl⟩ := List.mem_map.mp hk
          exact (mem_kept.mp hrow).2

/-- A key above `unboundedRangeEnd` in the range of a scan without an end. -/
def Unreachable (start end_ : Bytes) (store : RawStore) : Prop :=
  end_ = [] ∧ ∃ row ∈ store.rows, start ≤ row.1 ∧ unboundedRangeEnd < row.1

/-- The rows have no key twice, and every key of the range that was stored before. -/
def IsScanOf (start end_ : Bytes) (store : RawStore) (rows : List RawKV) : Prop :=
  (rows.map Prod.fst).Nodup ∧
  ∀ row ∈ store.rows, start ≤ row.1 → (end_ ≠ [] → row.1 < end_) → row.1 ∈ rows.map Prod.fst

/-- For every interleaving of writes with the fetches of a scan: what the scan returns is a set with
all the keys that were there iff no write moves a returned row to a later page, and no key is out of
reach. -/
theorem scan_during_writes_iff (start end_ : Bytes) (store : RawStore) (labels : List ScanLabel)
    (st : ScanState) (result : List RawKV)
    (hrun : (scanStep start end_).run (.init store) labels = some st)
    (hdone : st.scan = .inr (.ok result)) :
    IsScanOf start end_ store result ↔
      (scanStep start end_).Guarded (fun st label => ¬ MovesReturned start end_ st label)
        (.init store) labels ∧
      ¬ Unreachable start end_ store := by
  obtain ⟨rest, heq, hbound, hrest⟩ := exists_rest (n := 0) hrun hdone
  rw [List.nil_append] at heq
  subst heq
  constructor
  · rintro ⟨hnodup, hall⟩
    refine ⟨guarded_of_nodup (n := 0) nofun hrun hdone hnodup, ?_⟩
    rintro ⟨rfl, row, hrow, hstart, habove⟩
    obtain ⟨row', hrow', heq⟩ := List.mem_map.mp (hall row hrow hstart fun hne => absurd rfl hne)
    have hle := hbound row' hrow'
    rw [heq] at hle
    exact absurd habove (not_lt.mpr hle)
  · rintro ⟨hok, hreach⟩
    refine ⟨?_, fun row hrow hstart hend => ?_⟩
    · exact settled_nil.nodup_result (n := 0) hok hrun hdone
    · refine hrest row.1 (List.mem_map_of_mem (RawStore.mem_between.mpr ⟨hrow, hstart, ?_⟩)) ?_
        (by rw [Nat.zero_mul]; exact Nat.zero_le _)
      · rw [scanEnd]
        split
        · next hnil => exact not_lt.mp fun habove => hreach ⟨hnil, row, hrow, hstart, habove⟩
        · next hne => exact (hend hne).le
      · exact fun h => absurd h.2 (hend h.1).ne

theorem scan_during_writes_of_twoRows : IsScanOf [] [98] twoRows [([97], [3])] :=
  (scan_during_writes_iff [] [98] twoRows [.write [97] [3], .fetch]
    ⟨twoRows.write [97] [3], .inr (.ok [([97], [3])])⟩ [([97], [3])] (by decide +kernel) rfl).mpr
    ⟨⟨fun ⟨_, _, hnew, _⟩ => hnew (by decide), fun _ _ => ⟨id, fun _ _ => trivial⟩⟩,
      fun h => nomatch h.1⟩

/-! ## A row that is returned twice -/

/-- If a smaller key is written after a fetch that has returned everything in one full page, then
the last row stands on the second page, and is returned again. -/
theorem run_write_after_full_page {init : List RawKV} {last : RawKV}
    (hall : store.between [] (scanEnd []) = store.rows) (hrows : store.rows = init ++ [last])
    (hlen : init.length + 1 = rawScanPageSize) (hkey : ∀ row ∈ store.rows, key < row.1)
    (hle : key ≤ unboundedRangeEnd) :
    (scanStep [] []).run (.init store) [.fetch, .write key value, .fetch] =
      some ⟨store.write key value, .inr (.ok (store.rows ++ [last]))⟩ := by
  have hkept : ∀ rows, kept [] rows = rows := fun rows => by simp [kept]
  have hlength : store.rows.length = rawScanPageSize := by
    rw [hrows, List.length_append, List.length_singleton, hlen]
  have hfirst : scanStep [] [] (.init store) .fetch = some ⟨store, .inl ⟨2, store.rows⟩⟩ := by
    have hpage : page rawScanPageSize 0 (store.between [] (scanEnd [])) = store.rows := by
      rw [hall, page, Nat.zero_mul, List.drop_zero, List.take_of_length_le hlength.le]
    refine (scanStep_fetch hpage []).trans ?_
    rw [if_neg hlength.not_lt, hkept, List.nil_append]
  have hsecond : scanStep [] [] ⟨store.write key value, .inl ⟨2, store.rows⟩⟩ .fetch =
      some ⟨store.write key value, .inr (.ok (store.rows ++ [last]))⟩ := by
    have hput : put key value store.rows = (key, value) :: store.rows :=
      put_append (l := []) (List.forall_mem_nil _) hkey
    have hpage : page rawScanPageSize 1 ((store.write key value).between [] (scanEnd [])) =
        [last] := by
      rw [between_write, if_pos ⟨not_lt.mp (List.not_lt_nil key), hle⟩, hall, hput, page,
        Nat.one_mul, ← hlen, List.drop_succ_cons, hrows, List.drop_left,
        List.take_succ_cons, List.take_nil]
    refine (scanStep_fetch hpage store.rows).trans ?_
    rw [List.length_singleton, if_pos (by decide), hkept]
  rw [System.run_cons_of_step hfirst, System.run_cons_of_step rfl,
    System.run_cons_of_step hsecond, System.run_nil]

/-- The keys 1, …, `n` in two bytes. -/
def numbered (n : Nat) : List RawKV := (List.range n).map fun i => (beBytes 2 (i + 1), [])

theorem numbered_succ (n : Nat) : numbered (n + 1) = numbered n ++ [(beBytes 2 (n + 1), [])] := by
  rw [numbered, List.range_succ, List.map_append, List.map_singleton, numbered]

theorem mem_numbered (hn : n < 256 ^ 2) (h : row ∈ numbered n) :
    beBytes 2 0 < row.1 ∧ row.1 ≤ unboundedRangeEnd := by
  obtain ⟨i, hi, rfl⟩ := List.mem_map.mp h
  rw [List.mem_range] at hi
  refine ⟨(beNat_lt_iff (by simp)).mp ?_, le_unboundedRangeEnd (by simp)⟩
  rw [beNat_beBytes_of_lt (by omega), beNat_beBytes_of_lt (by omega)]
  omega

theorem ascending_numbered (hn : n < 256 ^ 2) : Ascending (numbered n) := by
  rw [numbered, Ascending, List.map_map, List.pairwise_map]
  refine List.pairwise_lt_range.imp_of_mem fun {i j} hi hj hlt => (beNat_lt_iff (by simp)).mp ?_
  rw [List.mem_range] at hi hj
  simp only [Function.comp_apply]
  rw [beNat_beBytes_of_lt (by omega), beNat_beBytes_of_lt (by omega)]
  omega

/-- One full page. -/
def fullPage : RawStore := ⟨numbered rawScanPageSize, ascending_numbered (by decide)⟩

/-- A scan of a full page between whose fetches the key 0 is written returns the last key twice. -/
theorem scan_returns_last_row_twice :
    let labels := [ScanLabel.fetch, .write (beBytes 2 0) [], .fetch]
    let result := fullPage.rows ++ [(beBytes 2 rawScanPageSize, [])]
    (scanStep [] []).run (.init fullPage) labels =
      some ⟨fullPage.write (beBytes 2 0) [], .inr (.ok result)⟩ ∧
    ¬ IsScanOf [] [] fullPage result := by
  intro labels result
  have hkeys : ∀ row ∈ fullPage.rows, beBytes 2 0 < row.1 ∧ row.1 ≤ unboundedRangeEnd := by
    simp only [fullPage]
    exact fun row => mem_numbered (by decide)
  have hsize : rawScanPageSize = 999 + 1 := rfl
  have hrows : fullPage.rows = numbered 999 ++ [(beBytes 2 rawScanPageSize, [])] := by
    simp only [fullPage]
    rw [hsize, numbered_succ]
  refine ⟨run_write_after_full_page ?_ hrows ?_ (fun row hrow => (hkeys row hrow).1)
    (le_unboundedRangeEnd (by simp)), ?_⟩
  · rw [RawStore.between, List.filter_eq_self]
    exact fun row hrow => decide_eq_true ⟨not_lt.mp (List.not_lt_nil _), (hkeys row hrow).2⟩
  · rw [numbered, List.length_map, List.length_range]
    rfl
  · rintro ⟨hnodup, -⟩
    change ((fullPage.rows ++ _).map Prod.fst).Nodup at hnodup
    rw [hrows, List.map_append, List.map_append, List.nodup_append] at hnodup
    exact hnodup.2.2 _ (List.mem_append_right _ List.mem_cons_self) _ List.mem_cons_self rfl

end

end ChudDB.Cluster
