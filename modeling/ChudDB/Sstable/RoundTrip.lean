import ChudDB.Memtable.Immutable
import ChudDB.Sstable.Layout

/-! # The round trip of a table file

A file written by `FlushMemtable` without a failure opens, and the reader answers every query from
the entries that were written. -/

namespace ChudDB.Sstable
open Lib FileWriter

/-! ## The sections behind the data -/

/-- The writer has nothing in its block; `bytes` is what it has written under the path `loc`. -/
structure AtEnd (bs : BlockSize) (fw : FileWriter) (loc : Location) (bytes : Bytes) : Prop where
  ready : fw.Ready
  current : fw.currentBlock = []
  stream : fw.stream = bytes
  size : fw.currentBlockNum * bs.size + fw.rawBytesWritten = bytes.length
  location : fw.location = loc

variable {bs : BlockSize} {fw : FileWriter} {loc : Location} {bytes : Bytes}

theorem AtEnd.bufFlush (h : AtEnd bs fw loc bytes) :
    fw.openIfNeeded.bufFlush none =
      (true, { fw with content := bytes, file := some ⟨[], false⟩ }) := by
  have hstream := h.stream
  rw [FileWriter.stream] at hstream
  cases hf : fw.file with
  | none =>
    rw [hf, h.ready.closed hf] at hstream
    rw [openIfNeeded, hf]
    simp only [FileWriter.bufFlush, ← hstream]
    rfl
  | some b =>
    rw [hf] at hstream
    rw [openIfNeeded, hf]
    simp only [FileWriter.bufFlush, hf, h.ready.err b hf, ← hstream]
    rfl

theorem AtEnd.writeRaw (h : AtEnd bs fw loc bytes) (data : Bytes) :
    ∃ fw', fw.writeRaw bs none data = (some bytes.length, fw') ∧ fw'.file ≠ none ∧
      AtEnd bs fw' loc (bytes ++ data) := by
  have hflush : fw.flushCurrentBlock bs = fw := if_pos (List.length_eq_zero_iff.mpr h.current)
  refine ⟨{ fw with
    content := bytes ++ data
    file := some ⟨[], false⟩
    rawBytesWritten := fw.rawBytesWritten + data.length }, ?_, nofun, ?_⟩
  · rw [FileWriter.writeRaw, hflush, if_neg nofun]
    simp only [show RawFault.inFlush none = none from rfl, h.bufFlush, h.size]
  · refine ⟨⟨nofun, ?_⟩, h.current, ?_, ?_, h.location⟩
    · rintro b ⟨⟩
      rfl
    · simp [FileWriter.stream]
    · rw [List.length_append, ← h.size]
      exact (Nat.add_assoc _ _ _).symm

theorem AtEnd.commit (h : AtEnd bs fw ⟨name, true⟩ bytes) (hopen : fw.file ≠ none) :
    ∃ fw', fw.commit none = (true, fw') ∧ fw'.location = ⟨name, false⟩ ∧ fw'.finish = bytes := by
  have hflush := h.bufFlush
  obtain ⟨b, hb⟩ := Option.ne_none_iff_exists'.mp hopen
  have hopened : fw.openIfNeeded = fw := by rw [openIfNeeded, hb]
  rw [hopened] at hflush
  refine ⟨{ fw with content := bytes, file := none, location := ⟨name, false⟩ }, ?_, rfl, rfl⟩
  rw [FileWriter.commit, show CommitFault.inFlush none = none from rfl, hflush]
  simp [h.location]

/-! ## The whole file -/

section
variable (env : FlushEnv) (seeds : Seeds) (data : List KeyValue) (maxLSN : Nat)

/-- The file of a table whose data part consists of the given sections. -/
def tableFile (secs : List Sec) : Bytes :=
  let blocks := secs.flatMap Prod.fst
  let index := serializeIndex (indexFrom 0 secs)
  let filters := filterSection env seeds data
  blocks ++ index ++ filters ++ serializeFooter ⟨blocks.length, index.length,
    (blocks ++ index).length, filters.length, data.length, maxLSN⟩

theorem flushMemtable_none (name : Nat) : ∃ secs, (∀ c ∈ secs, Stored env.blockSize c.1 c.2) ∧
    secs.flatMap Prod.snd = data ∧
    flushMemtable env seeds .none (newFileWriter name) data maxLSN =
      ⟨⟨name, false⟩, tableFile env seeds data maxLSN secs⟩ := by
  obtain ⟨secs, h, hdata⟩ := exists_sections env.blockSize name data
  refine ⟨secs, h.stored, hdata, ?_⟩
  have hindex := h.index
  rw [openSec, if_pos rfl, List.append_nil] at hindex
  have h₀ : AtEnd env.blockSize _ ⟨name, true⟩ (secs.flatMap Prod.fst) :=
    ⟨h.ready, h.current, h.stream, by rw [h.raw, Nat.add_zero, h.num_eq], h.location⟩
  obtain ⟨fw₁, heq₁, -, h₁⟩ := h₀.writeRaw (serializeIndex (indexFrom 0 secs))
  obtain ⟨fw₂, heq₂, -, h₂⟩ := h₁.writeRaw (filterSection env seeds data)
  obtain ⟨fw₃, heq₃, hopen, h₃⟩ := h₂.writeRaw (serializeFooter ⟨(secs.flatMap Prod.fst).length,
    (serializeIndex (indexFrom 0 secs)).length,
    (secs.flatMap Prod.fst ++ serializeIndex (indexFrom 0 secs)).length,
    (filterSection env seeds data).length, data.length, maxLSN⟩)
  obtain ⟨fw₄, heq₄, hloc, hfinish⟩ := h₃.commit hopen
  simp only at hindex heq₁
  simp only [flushMemtable, FlushFaults.none, hindex, heq₁, heq₂, Option.getD_some, heq₃, heq₄, hloc,
    hfinish, tableFile]

/-- The reader of that file. -/
def tableReader (secs : List Sec) : Reader :=
  ⟨tableFile env seeds data maxLSN secs, tableFilter env seeds data, tablePrefixFilter env seeds data,
    indexFrom 0 secs, data.length % 2 ^ 64, maxLSN % 2 ^ 64⟩

end

theorem length_serializeFooter : (serializeFooter f).length = footerSize := by
  simp [serializeFooter, intToBytes, footerSize]

theorem parseFooter_serializeFooter {f : Footer} (hio : f.indexOffset < 2 ^ 64)
    (his : f.indexSize < 2 ^ 64) (hfo : f.filterOffset < 2 ^ 64) (hfs : f.filterSize < 2 ^ 64) :
    parseFooter (serializeFooter f) = some (⟨f.indexOffset, f.indexSize, f.filterOffset,
      f.filterSize, f.itemCount % 2 ^ 64, f.maxLSN % 2 ^ 64⟩, footerMagic) := by
  have hmagic : readInt (intToBytes footerMagic) = some (footerMagic, []) := by decide
  rw [parseFooter, serializeFooter, readInt_append hio]
  simp only [Option.bind_eq_bind, Option.bind_some, readInt_append his, readInt_append hfo,
    readInt_append hfs, readInt_append_mod, hmagic]
  rfl

theorem parseFilterSection_filterSection {env : FlushEnv} {seeds : Seeds} {data : List KeyValue}
    (hne : data ≠ []) (hlen : (filterSection env seeds data).length < 2 ^ 64) :
    parseFilterSection env.prefixConfig (filterSection env seeds data) =
      some (tableFilter env seeds data, tablePrefixFilter env seeds data) := by
  have hvalid : (tableFilter env seeds data).Valid :=
    (BloomFilter.valid_new (List.length_pos_iff.mpr hne)).addMultiple
  obtain ⟨hpvalid, hmin, hmax, -⟩ := PrefixBloomFilter.addMultiple_spec env.toHashing
    (data.map Prod.fst) (PrefixBloomFilter.valid_new :
      (PrefixBloomFilter.newPrefixBloomFilter env.toHashing env.prefixConfig
        seeds.prefixFilter).filter.Valid)
  rw [filterSection, serializeFilterSection, List.length_append, List.length_append,
    length_sizeAndValueToBytes, length_sizeAndValueToBytes] at hlen
  rw [parseFilterSection, filterSection, serializeFilterSection, readSized_append (by omega)]
  simp only [Option.bind_eq_bind, Option.bind_some, hvalid.deserialize_serialize]
  rw [readSized_append (by omega)]
  simp only [Option.bind_some, tablePrefixFilter,
    PrefixBloomFilter.deserialize_serialize hpvalid hmin hmax]
  rfl

theorem mem_indexFrom (h : e ∈ indexFrom offset secs) :
    e.key.length ≤ (serializeIndex (indexFrom offset secs)).length ∧
      e.offset ≤ offset + (secs.flatMap Prod.fst).length := by
  constructor
  · have : e.bytes.length ≤ (serializeIndex (indexFrom offset secs)).length :=
      (List.sublist_flatten_of_mem (List.mem_map_of_mem h)).length_le
    rw [IndexEntry.bytes, List.length_append, length_sizeAndValueToBytes] at this
    omega
  · induction secs generalizing offset with
    | nil => cases h
    | cons c secs ih =>
      rw [indexFrom, List.mem_cons] at h
      rw [List.flatMap_cons, List.length_append]
      rcases h with rfl | h
      · exact Nat.le_add_right _ _
      · have := ih h
        omega

/-- `Open` finds the sections that the footer points to. -/
theorem openFile_sections {blocks bytes filters file : Bytes} {f : Footer}
    (hf : f = ⟨blocks.length, bytes.length, (blocks ++ bytes).length, filters.length, count, maxLSN⟩)
    (hfile : file = blocks ++ bytes ++ filters ++ serializeFooter f) (hsize : file.length < 2 ^ 63)
    (hindex : parseIndex bytes = some index)
    (hfilters : parseFilterSection cfg filters = some (bf, pbf)) :
    openFile cfg file = .ok ⟨file, bf, pbf, index, count % 2 ^ 64, maxLSN % 2 ^ 64⟩ := by
  have hlen : file.length = (blocks ++ bytes ++ filters).length + footerSize := by
    rw [hfile, List.length_append, length_serializeFooter]
  have hfooter : readAt file (file.length - footerSize) footerSize = some (serializeFooter f) := by
    have := readAt_append (a := blocks ++ bytes ++ filters) (c := []) rfl
      (length_serializeFooter (f := f))
    rwa [List.append_nil, ← hfile, ← Nat.add_sub_cancel (n := List.length _) (m := footerSize),
      ← hlen] at this
  have hreadIndex : readAt file blocks.length bytes.length = some bytes := by
    rw [hfile, List.append_assoc (blocks ++ bytes)]
    exact readAt_append rfl rfl
  have hreadFilter : readAt file (blocks ++ bytes).length filters.length = some filters := by
    rw [hfile]
    exact readAt_append rfl rfl
  simp only [List.length_append] at hlen
  have hparse := parseFooter_serializeFooter (f := f) (by rw [hf]; simp only; omega)
    (by rw [hf]; simp only; omega) (by rw [hf]; simp only [List.length_append]; omega)
    (by rw [hf]; simp only; omega)
  rw [openFile, if_neg (by omega), hfooter, Option.bind_some, hparse]
  simp only [hf, ne_eq, not_true_eq_false, if_false, hreadIndex, hindex, hreadFilter, hfilters]

/-- The file opens if its size is one a file can have. -/
theorem openFile_tableFile {env : FlushEnv} {data : List KeyValue} (hne : data ≠ [])
    (hsize : (tableFile env seeds data maxLSN secs).length < 2 ^ 63) :
    openFile env.prefixConfig (tableFile env seeds data maxLSN secs) =
      .ok (tableReader env seeds data maxLSN secs) := by
  have hlen : (secs.flatMap Prod.fst).length + (serializeIndex (indexFrom 0 secs)).length +
      (filterSection env seeds data).length < 2 ^ 63 := by
    simp only [tableFile, List.length_append] at hsize
    omega
  refine openFile_sections rfl rfl hsize ?_ (parseFilterSection_filterSection hne (by omega))
  refine parseIndex_serializeIndex fun e he => ?_
  have := mem_indexFrom he
  omega

/-! ## Queries -/

/-- The index of the reader names groups of entries that it can read; the keys increase. -/
structure Reader.Holds (bs : BlockSize) (r : Reader) (groups : List (List KeyValue)) : Prop where
  read : List.Forall₂ (fun e g => r.readEntries bs e = .ok g) r.index groups
  heads : Heads IndexEntry.key r.index groups
  sorted : Ascending groups.flatten

theorem forall₂_indexFrom {r : Reader} {a c : Bytes} (hstored : ∀ c ∈ secs, Stored bs c.1 c.2)
    (hfile : r.file = a ++ secs.flatMap Prod.fst ++ c) (hsize : r.file.length < 2 ^ 63) :
    List.Forall₂ (fun e g => r.readEntries bs e = .ok g) (indexFrom a.length secs)
      (secs.map Prod.snd) := by
  induction secs generalizing a with
  | nil => exact .nil
  | cons sec secs ih =>
    have hsec := hstored sec List.mem_cons_self
    rw [List.flatMap_cons, ← List.append_assoc a] at hfile
    refine .cons ?_ ?_
    · have hlen : (sec.2.flatMap encodeEntry).length < 2 ^ 63 := by
        refine lt_of_le_of_lt (hsec.length_le.trans ?_) hsize
        rw [hfile]
        simp only [List.length_append]
        omega
      have hread := hsec.read a (secs.flatMap Prod.fst ++ c)
      rw [← List.append_assoc, ← hfile] at hread
      rw [Reader.readEntries, hread]
      exact congrArg Except.ok (blockEntries_flatMap hlen)
    · have := ih (fun sec hmem => hstored sec (List.mem_cons_of_mem _ hmem)) hfile
      rwa [List.length_append] at this

theorem heads_indexFrom (hstored : ∀ c ∈ secs, Stored bs c.1 c.2) :
    Heads IndexEntry.key (indexFrom offset secs) (secs.map Prod.snd) := by
  induction secs generalizing offset with
  | nil => exact .nil
  | cons sec secs ih =>
    refine .cons ?_ (ih fun sec hmem => hstored sec (List.mem_cons_of_mem _ hmem))
    obtain ⟨e, t, heq⟩ := List.exists_cons_of_ne_nil (hstored sec List.mem_cons_self).ne_nil
    exact ⟨e.2, t, by rw [heq]; rfl⟩

theorem holds_tableReader {env : FlushEnv} {data : List KeyValue}
    (hstored : ∀ c ∈ secs, Stored env.blockSize c.1 c.2) (hdata : secs.flatMap Prod.snd = data)
    (hsorted : SortedKeys data)
    (hsize : (tableFile env seeds data maxLSN secs).length < 2 ^ 63) :
    (tableReader env seeds data maxLSN secs).Holds env.blockSize (secs.map Prod.snd) where
  read := by
    have hfile : (tableReader env seeds data maxLSN secs).file = [] ++ secs.flatMap Prod.fst ++ _ :=
      (List.append_assoc _ _ _).trans (List.append_assoc _ _ _)
    exact forall₂_indexFrom hstored hfile hsize
  heads := heads_indexFrom hstored
  sorted := by rwa [← hdata] at hsorted

namespace Reader.Holds

variable {r : Reader} {groups : List (List KeyValue)}

theorem indexKey_eq (j : Nat) (hj : j < r.index.length) : r.indexKey j = r.index[j].key := by
  rw [indexKey, List.getD_eq_getElem _ _ hj]

/-- `Get` finds what is stored, provided the filter lets the stored keys through. -/
theorem get_eq (h : r.Holds bs groups) (env : Hashing)
    (hfilter : ∀ k ∈ groups.flatten.map Prod.fst, r.filter.check env k) (key : Key) :
    r.get env bs key = .ok (groups.flatten.lookup key) := by
  rw [Reader.get]
  cases hcheck : r.filter.check env key with
  | false =>
    have hnone : groups.flatten.lookup key = none := by
      refine lookup_eq_none_of_ne fun e he heq => ?_
      have := hfilter e.1 (List.mem_map_of_mem he)
      rw [heq, hcheck] at this
      cases this
    rw [hnone]
    rfl
  | true =>
    have hf : ∀ j (hj : j < r.index.length),
        decide (key < r.indexKey j) = true ↔ key < r.index[j].key :=
      fun j hj => by rw [decide_eq_true_eq, indexKey_eq j hj]
    have hlen := h.heads.length_eq
    rw [lookup_search h.heads h.sorted hf, Bool.not_true, if_neg Bool.false_ne_true]
    have hle : search r.index.length (fun j => decide (key < r.indexKey j)) ≤ r.index.length :=
      search_le
    generalize search r.index.length (fun j => decide (key < r.indexKey j)) = i at hle ⊢
    by_cases hi : i = 0
    · rw [if_pos hi, if_pos hi]
    · have hlt : i - 1 < r.index.length := by omega
      have hread := List.Forall₂.get h.read hlt (hlen ▸ hlt)
      rw [List.get_eq_getElem, List.get_eq_getElem] at hread
      rw [if_neg hi, if_neg hi, List.getD_eq_getElem _ _ hlt, hread,
        List.getD_eq_getElem _ _ (hlen ▸ hlt)]
      rfl

/-- `PrefixScan` and `RangeScan` collect the wanted entries, wherever they start and stop. -/
theorem scanIndexed_startIdx {stop want past : Key → Bool} {ins : σ → KeyValue → σ}
    (h : r.Holds bs groups) (hpast : ∀ a b, a ≤ b → past a → want b = false)
    (hstop : ∀ a b, a ≤ b → stop a → want b = false) (hwant : ∀ a, want a → lo ≤ a) (acc : σ) :
    scanIndexed IndexEntry.key (r.readEntries bs) stop want past ins acc
        (r.index.drop (r.startIdx lo)) =
      .ok ((groups.flatten.filter (want ·.1)).foldl ins acc) :=
  scanIndexed_drop_search h.read h.heads h.sorted hpast hstop
    (fun j hj => by rw [decide_eq_true_eq, indexKey_eq j hj]) hwant acc

end Reader.Holds

/-! ## The answers of a scan as a map -/

theorem lookup_foldl_insert {l : List KeyValue} {m : Reader.Results} (h : (l.map Prod.fst).Nodup) :
    (l.foldl (fun results kv => results.insert kv.1 kv.2) m).lookup k =
      (l.lookup k).or (m.lookup k) := by
  induction l generalizing m with
  | nil => rfl
  | cons e l ih =>
    rw [List.map_cons, List.nodup_cons] at h
    rw [List.foldl_cons, ih h.2, List.lookup_cons]
    by_cases hk : k = e.1
    · subst hk
      have hnone : l.lookup e.1 = none := by
        refine lookup_eq_none_of_ne fun e' he' heq => h.1 ?_
        rw [← heq]
        exact List.mem_map_of_mem he'
      rw [hnone, beq_self_eq_true, AList.lookup_insert]
      rfl
    · rw [beq_eq_false_iff_ne.mpr hk, AList.lookup_insert_ne hk]

theorem lookup_scanned {l : List KeyValue} (h : Ascending l) (want : Key → Bool) :
    (((l.filter (want ·.1)).foldl (fun results kv => results.insert kv.1 kv.2)
      (∅ : Reader.Results)).lookup k) = if want k then l.lookup k else none := by
  have hnodup : ((l.filter (want ·.1)).map Prod.fst).Nodup :=
    (List.Pairwise.sublist (List.filter_sublist.map _) h).imp ne_of_lt
  rw [lookup_foldl_insert hnodup, lookup_filter_fst, AList.lookup_empty, Option.or_none]

/-! ## Prefixes in the order of keys -/

theorem lt_of_take_lt {a b : Bytes} (h : a.take n < b.take n) : a < b := by
  induction n generalizing a b with
  | zero => exact absurd h (lt_irrefl _)
  | succ n ih =>
    cases a with
    | nil =>
      cases b with
      | nil => exact absurd h (lt_irrefl _)
      | cons y b => exact List.nil_lt_cons _ _
    | cons x a =>
      cases b with
      | nil => exact absurd h (List.not_lt_nil _)
      | cons y b =>
        rw [List.take_succ_cons, List.take_succ_cons, List.cons_lt_cons_iff] at h
        rw [List.cons_lt_cons_iff]
        exact h.imp_right fun h => ⟨h.1, ih h.2⟩

theorem le_of_prefix {pre b : Bytes} (h : pre <+: b) : pre ≤ b := by
  obtain ⟨t, rfl⟩ := h
  refine not_lt.mp fun hlt => ?_
  induction pre with
  | nil => exact List.not_lt_nil _ hlt
  | cons x pre ih =>
    rw [List.cons_append, List.cons_lt_cons_iff] at hlt
    rcases hlt with hlt | ⟨-, hlt⟩
    · exact lt_irrefl x hlt
    · exact ih hlt

/-- Behind a key that is past the prefix no key has the prefix. -/
theorem not_prefix_of_isPastPrefix {pre a b : Bytes} (hab : a ≤ b)
    (h : Reader.isPastPrefix pre a) : ¬pre <+: b := by
  rintro ⟨t, rfl⟩
  have hlt : pre.take (min pre.length a.length) < a.take (min pre.length a.length) :=
    of_decide_eq_true h
  have htake : (pre ++ t).take (min pre.length a.length) = pre.take (min pre.length a.length) :=
    List.take_append_of_le_length (Nat.min_le_left _ _)
  rw [← htake] at hlt
  exact absurd (lt_of_take_lt hlt) (not_lt_of_ge hab)

namespace Reader.Holds

variable {r : Reader} {groups : List (List KeyValue)}

theorem rangeScan_eq (h : r.Holds bs groups) (start stop : Key) :
    ∃ m, r.rangeScan bs start stop = .ok m ∧
      ∀ k, m.lookup k = if start ≤ k ∧ k ≤ stop then groups.flatten.lookup k else none := by
  have hpast : ∀ a b : Key, a ≤ b → decide (stop < a) = true →
      decide (start ≤ b ∧ b ≤ stop) = false := by
    intro a b hab ha
    rw [decide_eq_true_eq] at ha
    rw [decide_eq_false_iff_not]
    exact fun hb => absurd (ha.trans_le hab) (not_lt_of_ge hb.2)
  have hwant : ∀ a : Key, decide (start ≤ a ∧ a ≤ stop) = true → start ≤ a :=
    fun a ha => (of_decide_eq_true ha).1
  refine ⟨_, h.scanIndexed_startIdx hpast hpast hwant ∅, fun k => ?_⟩
  rw [lookup_scanned h.sorted fun k => decide (start ≤ k ∧ k ≤ stop)]
  simp only [decide_eq_true_eq]

/-- The filter has to let every prefix of a stored key through. -/
theorem prefixScan_eq (h : r.Holds bs groups) (env : Hashing)
    (hfilter : ∀ k ∈ groups.flatten.map Prod.fst, ∀ pre, pre <+: k →
      r.prefixFilter.contains env pre) (pre : Bytes) :
    ∃ m, r.prefixScan env bs pre = .ok m ∧
      ∀ k, m.lookup k = if pre <+: k then groups.flatten.lookup k else none := by
  rw [prefixScan]
  cases hcontains : r.prefixFilter.contains env pre with
  | false =>
    refine ⟨∅, rfl, fun k => ?_⟩
    rw [AList.lookup_empty]
    split
    · rename_i hk
      refine (lookup_eq_none_of_ne fun e he heq => ?_).symm
      have := hfilter e.1 (List.mem_map_of_mem he) pre (heq ▸ hk)
      rw [hcontains] at this
      cases this
    · rfl
  | true =>
    have hpast : ∀ a b : Key, a ≤ b → isPastPrefix pre a = true → pre.isPrefixOf b = false := by
      intro a b hab ha
      rw [← Bool.not_eq_true, List.isPrefixOf_iff_prefix]
      exact not_prefix_of_isPastPrefix hab ha
    have hwant : ∀ a : Key, pre.isPrefixOf a = true → pre ≤ a :=
      fun a ha => le_of_prefix (List.isPrefixOf_iff_prefix.mp ha)
    have hstop : ∀ a b : Key, a ≤ b → false = true → pre.isPrefixOf b = false :=
      fun _ _ _ h => absurd h Bool.false_ne_true
    refine ⟨_, h.scanIndexed_startIdx hpast hstop hwant ∅, fun k => ?_⟩
    rw [lookup_scanned h.sorted pre.isPrefixOf]
    simp only [List.isPrefixOf_iff_prefix]

theorem scanAll_eq (h : r.Holds bs groups) : r.scanAll bs = .ok groups.flatten := by
  have hnone : ∀ a b : Key, a ≤ b → false = true → true = false :=
    fun _ _ _ h => absurd h Bool.false_ne_true
  refine (scanIndexed_eq h.read h.heads h.sorted hnone hnone []).trans ?_
  rw [List.filter_true, foldl_append_singleton, List.nil_append]

end Reader.Holds

/-! ## The round trip -/

theorem check_tableFilter {env : FlushEnv} {data : List KeyValue} (hk : k ∈ data.map Prod.fst) :
    (tableFilter env seeds data).check env.toHashing k := by
  have hpos : 0 < data.length := by
    rw [← List.length_map Prod.fst]
    exact List.length_pos_of_mem hk
  exact (BloomFilter.valid_new hpos).check_addMultiple (.inr hk)

/-- The reader has the given entries in its blocks, and its filters let their keys through. -/
structure Reader.Serves (env : FlushEnv) (r : Reader) (data : List KeyValue) : Prop where
  blocks : ∃ groups, groups.flatten = data ∧ r.Holds env.blockSize groups
  filter : ∀ k ∈ data.map Prod.fst, r.filter.check env.toHashing k
  prefixFilter : ∀ k ∈ data.map Prod.fst, ∀ pre, pre <+: k →
    r.prefixFilter.contains env.toHashing pre

theorem Reader.Serves.get_eq {env : FlushEnv} {r : Reader} (h : r.Serves env data) (key : Key) :
    r.get env.toHashing env.blockSize key = .ok (data.lookup key) := by
  obtain ⟨groups, rfl, hholds⟩ := h.blocks
  exact hholds.get_eq env.toHashing h.filter key

/-- A table that was written without a failure opens. -/
theorem openFile_flushMemtable {env : FlushEnv} {data : List KeyValue} (hne : data ≠ [])
    (hsorted : SortedKeys data)
    (hsize : (flushMemtable env seeds .none (newFileWriter name) data maxLSN).content.length
      < 2 ^ 63) :
    ∃ r, openFile env.prefixConfig
        (flushMemtable env seeds .none (newFileWriter name) data maxLSN).content = .ok r ∧
      r.Serves env data := by
  obtain ⟨secs, hstored, hdata, hflush⟩ := flushMemtable_none env seeds data maxLSN name
  rw [hflush] at hsize ⊢
  exact ⟨tableReader env seeds data maxLSN secs, openFile_tableFile hne hsize,
    ⟨_, hdata, holds_tableReader hstored hdata hsorted hsize⟩, fun _ => check_tableFilter,
    fun _ hk _ => PrefixBloomFilter.contains_addMultiple hk⟩

/-- A table that was written without a failure, and whose size is one a file can have, opens, and
the reader answers from the entries that were written. -/
theorem read_flushMemtable (env : FlushEnv) (seeds : Seeds) (name maxLSN : Nat)
    (data : List KeyValue) (hne : data ≠ []) (hsorted : SortedKeys data)
    (hsize : (flushMemtable env seeds .none (newFileWriter name) data maxLSN).content.length
      < 2 ^ 63) :
    ∃ r, openFile env.prefixConfig
        (flushMemtable env seeds .none (newFileWriter name) data maxLSN).content = .ok r ∧
      (∀ key, r.get env.toHashing env.blockSize key = .ok (data.lookup key)) ∧
      (∀ start stop, ∃ m, r.rangeScan env.blockSize start stop = .ok m ∧
        ∀ key, m.lookup key = if start ≤ key ∧ key ≤ stop then data.lookup key else none) ∧
      (∀ pre, ∃ m, r.prefixScan env.toHashing env.blockSize pre = .ok m ∧
        ∀ key, m.lookup key = if pre <+: key then data.lookup key else none) ∧
      r.scanAll env.blockSize = .ok data := by
  obtain ⟨r, hopen, hserves⟩ := openFile_flushMemtable hne hsorted hsize
  have hget := hserves.get_eq
  have hserves_filter := hserves.prefixFilter
  obtain ⟨groups, rfl, hholds⟩ := hserves.blocks
  exact ⟨r, hopen, hget, hholds.rangeScan_eq, hholds.prefixScan_eq env.toHashing hserves_filter,
    hholds.scanAll_eq⟩

/-- Small blocks, with filters of one cell and digests that are the same for all data. -/
def smallEnv : FlushEnv where
  md5 _ := List.replicate 16 0
  calculateParams _ := ⟨1, 1, by decide, by decide, fun _ => Nat.one_pos⟩
  blockSize := ⟨64, by decide, by decide⟩
  prefixConfig := defaultPrefixConfig
  getRootBytes _ := List.replicate 64 48

/-- One of the entries does not fit a block of `smallEnv`. -/
def jumboEntries : List KeyValue :=
  [([97], [1]), ([97, 98], List.replicate 100 7), ([98], [2]), ([99], [3])]

theorem read_flushMemtable_jumbo :
    ∃ r, openFile smallEnv.prefixConfig
        (flushMemtable smallEnv ⟨0, 0⟩ .none (newFileWriter 0) jumboEntries 7).content = .ok r ∧
      r.get smallEnv.toHashing smallEnv.blockSize [97, 98] = .ok (some (List.replicate 100 7)) ∧
      r.scanAll smallEnv.blockSize = .ok jumboEntries := by
  obtain ⟨r, hopen, hget, -, -, hscan⟩ := read_flushMemtable smallEnv ⟨0, 0⟩ 0 7 jumboEntries
    (by decide) (by decide +kernel) (by decide +kernel)
  exact ⟨r, hopen, hget [97, 98], hscan⟩

end ChudDB.Sstable
