import ChudDB.Sstable.Reader

/-! # Reading blocks and sections back

What `FileWriter` writes into a block, or into the blocks of one large entry, is what
`readDataBlock` returns (`stored_block`, `stored_jumbo`), and the loops over `readDataEntry` and
`parseIndex` find the entries that were encoded. -/

namespace ChudDB.Sstable
open Lib FileWriter

/-! ## Numbers and entries -/

theorem readInt_append_mod : readInt (intToBytes n ++ rest) = some (n % 2 ^ 64, rest) := by
  rw [readInt, intToBytes, takeN_append length_beBytes]
  simp [beNat, beBytes, leNat_leBytes]

theorem readInt_append (h : n < 2 ^ 64) : readInt (intToBytes n ++ rest) = some (n, rest) := by
  rw [readInt_append_mod, Nat.mod_eq_of_lt h]

theorem readSized_append (h : value.length < 2 ^ 64) :
    readSized (sizeAndValueToBytes value ++ rest) = some (value, rest) := by
  rw [readSized, sizeAndValueToBytes, List.append_assoc, readInt_append h]
  exact takeN_append rfl

@[simp] theorem length_sizeAndValueToBytes :
    (sizeAndValueToBytes value).length = 8 + value.length := by
  rw [sizeAndValueToBytes, List.length_append, intToBytes, length_beBytes]

theorem length_encodeEntry : (encodeEntry kv).length = 16 + kv.1.length + kv.2.length := by
  rw [encodeEntry, List.length_append, length_sizeAndValueToBytes, length_sizeAndValueToBytes]
  omega

theorem encodeEntry_ne_nil : encodeEntry kv ≠ [] := by
  intro h
  have := congrArg List.length h
  rw [length_encodeEntry, List.length_nil] at this
  omega

/-- The length of an encoding fits the fields that hold the lengths of its parts. -/
theorem reads_encodeEntry (h : (encodeEntry kv).length < 2 ^ 63) :
    Reads readDataEntry encodeEntry kv := by
  refine ⟨encodeEntry_ne_nil, fun rest => ?_⟩
  rw [length_encodeEntry] at h
  rw [readDataEntry, if_neg, encodeEntry, List.append_assoc, readSized_append (by omega)]
  · simp [readSized_append (show kv.2.length < 2 ^ 64 by omega)]
  · rw [List.length_append, length_encodeEntry]
    omega

theorem blockEntries_flatMap {entries : List KeyValue}
    (h : (entries.flatMap encodeEntry).length < 2 ^ 63) :
    blockEntries (entries.flatMap encodeEntry) = entries := by
  have hreads : ∀ kv ∈ entries, Reads readDataEntry encodeEntry kv := by
    intro kv hkv
    refine reads_encodeEntry (lt_of_le_of_lt ?_ h)
    exact (List.sublist_flatten_of_mem (List.mem_map_of_mem hkv)).length_le
  have : readAll readDataEntry (entries.flatMap encodeEntry ++ []).length
      (entries.flatMap encodeEntry ++ []) = (entries, []) := readAll_eq hreads rfl
  rw [List.append_nil] at this
  rw [blockEntries, this]

theorem parseIndex_serializeIndex (h : ∀ e ∈ index, e.key.length < 2 ^ 64 ∧ e.offset < 2 ^ 64) :
    parseIndex (serializeIndex index) = some index := by
  have hreads : ∀ e ∈ index, Reads parseIndexEntry IndexEntry.bytes e := by
    intro e he
    obtain ⟨hkey, hoffset⟩ := h e he
    constructor
    · intro hnil
      have := congrArg List.length hnil
      rw [IndexEntry.bytes, List.length_append, length_sizeAndValueToBytes, List.length_nil] at this
      omega
    · intro rest
      rw [parseIndexEntry, IndexEntry.bytes, List.append_assoc, readSized_append hkey]
      simp [readInt_append hoffset]
  have : readAll parseIndexEntry (index.flatMap IndexEntry.bytes ++ []).length
      (index.flatMap IndexEntry.bytes ++ []) = (index, []) := readAll_eq hreads rfl
  rw [List.append_nil] at this
  rw [parseIndex, serializeIndex, this]
  rfl

/-! ## One block -/

variable {bs : BlockSize}

theorem BlockSize.avail_pos : 0 < bs.avail := Nat.sub_pos_of_lt bs.three_lt

theorem BlockSize.avail_add : bs.avail + 3 = bs.size := Nat.sub_add_cancel bs.three_lt.le

/-- The content of a block with its padding. -/
theorem block_eq (h : data.length ≤ bs.avail) : ∃ body : Bytes, body.length = bs.avail ∧
    body.take data.length = data ∧ block bs data t =
      body ++ [UInt8.ofNat (data.length >>> 8), UInt8.ofNat data.length, t] := by
  refine ⟨data ++ List.replicate (bs.size - data.length - 3) 0, ?_, List.take_left, rfl⟩
  have := bs.avail_add
  rw [List.length_append, List.length_replicate]
  omega

theorem length_block (h : data.length ≤ bs.avail) : (block bs data t).length = bs.size := by
  obtain ⟨body, hbody, -, heq⟩ := block_eq (t := t) h
  rw [heq, List.length_append, hbody]
  exact bs.avail_add

theorem type_block (h : data.length ≤ bs.avail) :
    (block bs data t).getD ((block bs data t).length - 1) 0 = t := by
  obtain ⟨body, hbody, -, heq⟩ := block_eq (t := t) h
  have := bs.avail_add
  rw [length_block h, heq, List.getD_append_right _ _ _ _ (by omega),
    show bs.size - 1 - body.length = 2 by omega]
  rfl

/-- The two bytes of a count give it back. -/
theorem usedBytes_eq (h : n < 2 ^ 16) :
    (UInt8.ofNat (n >>> 8)).toNat <<< 8 ||| (UInt8.ofNat n).toNat = n := by
  rw [← Nat.shiftLeft_add_eq_or_of_lt (by exact UInt8.toNat_lt _)]
  simp only [UInt8.toNat_ofNat', Nat.shiftLeft_eq, Nat.shiftRight_eq_div_pow]
  omega

theorem extractClean_block (h : data.length ≤ bs.avail) : extractClean (block bs data t) = data := by
  have hsize := bs.avail_add
  have hle := bs.size_le
  have hlt := bs.three_lt
  obtain ⟨body, hbody, htake, heq⟩ := block_eq (t := t) h
  rw [extractClean, length_block h, if_neg (by omega), heq,
    List.getD_append_right _ _ _ _ (by omega), List.getD_append_right _ _ _ _ (by omega),
    show bs.size - 3 - body.length = 0 by omega, show bs.size - 2 - body.length = 1 by omega]
  simp only [List.getD_cons_zero, List.getD_cons_succ]
  rw [usedBytes_eq (by omega), if_neg (by omega), List.take_append_of_le_length (by omega), htake]

/-! ## What an index entry points to -/

/-- Wherever the bytes stand in a file, reading there returns the encoded entries. -/
structure Stored (bs : BlockSize) (bytes : Bytes) (entries : List KeyValue) : Prop where
  ne_nil : entries ≠ []
  length_le : (entries.flatMap encodeEntry).length ≤ bytes.length
  read : ∀ a c, readDataBlock bs (a ++ bytes ++ c) a.length = .ok (entries.flatMap encodeEntry)

theorem stored_block (hne : entries ≠ []) (h : (entries.flatMap encodeEntry).length ≤ bs.avail) :
    Stored bs (block bs (entries.flatMap encodeEntry) nonJumbo) entries where
  ne_nil := hne
  length_le := by
    rw [length_block h]
    exact h.trans (Nat.sub_le _ _)
  read a c := by
    rw [readDataBlock, readAt_append rfl (length_block h)]
    simp only [type_block h, extractClean_block h, true_or, if_true]

/-- How many blocks a large entry takes. -/
theorem numBlocks_spec (bs : BlockSize) (data : Bytes) : data.length ≤ numBlocks bs data * bs.avail ∧
    ∀ m, m < numBlocks bs data → m * bs.avail < data.length := by
  have hpos := bs.avail_pos
  have hmod := Nat.mod_lt (data.length + bs.avail - 1) hpos
  have hdiv := Nat.div_add_mod (data.length + bs.avail - 1) bs.avail
  rw [numBlocks, Nat.mul_comm _ bs.avail]
  constructor
  · omega
  · intro m hm
    have := Nat.mul_le_mul_left bs.avail hm
    rw [Nat.mul_succ] at this
    rw [Nat.mul_comm m]
    omega

theorem length_jumboBlocks : (jumboBlocks bs n left data).length = left * bs.size := by
  induction left generalizing data with
  | zero => rw [jumboBlocks, Nat.zero_mul, List.length_nil]
  | succ left ih =>
    rw [jumboBlocks, List.length_append, length_block (List.length_take_le _ _), ih, Nat.succ_mul]
    exact Nat.add_comm _ _

/-- Behind the first block, the blocks of an entry are read up to the last. -/
theorem readJumboForward_jumboBlocks (hleft : left + 1 < n) (hle : data.length ≤ (left + 1) * bs.avail)
    (hlt : left * bs.avail < data.length) (hfuel : left < fuel) (ho : a.length = offset) :
    readJumboForward bs (a ++ jumboBlocks bs n (left + 1) data ++ c) fuel offset acc =
      .ok (acc ++ data) := by
  induction left generalizing data a offset acc fuel with
  | zero =>
    obtain ⟨fuel, rfl⟩ : ∃ m, fuel = m + 1 := ⟨fuel - 1, by omega⟩
    have htake : data.take bs.avail = data := List.take_of_length_le (by omega)
    have hblock : data.length ≤ bs.avail := by omega
    have htype : jumboType (n - (0 + 1)) n = jumboEnd := by
      rw [jumboType, if_neg (by omega), if_neg (by omega), if_pos rfl]
    rw [jumboBlocks, jumboBlocks, List.append_nil, htake, htype, readJumboForward,
      readAt_append ho (length_block hblock)]
    simp only [type_block hblock, if_true, extractClean_block hblock]
  | succ left ih =>
    obtain ⟨fuel, rfl⟩ : ∃ m, fuel = m + 1 := ⟨fuel - 1, by omega⟩
    rw [Nat.succ_mul] at hle hlt
    have htake : (data.take bs.avail).length = bs.avail := List.length_take_of_le (by omega)
    have htype : jumboType (n - (left + 1 + 1)) n = jumboMiddle := by
      rw [jumboType, if_neg (by omega), if_neg (by omega), if_neg (by omega)]
    have hne : jumboMiddle ≠ jumboEnd := by decide
    rw [jumboBlocks, htype, ← List.append_assoc a, List.append_assoc (a ++ _), readJumboForward,
      readAt_append ho (length_block htake.le)]
    simp only [type_block htake.le, hne, if_false, extractClean_block htake.le]
    rw [← List.append_assoc (a ++ _), ih (by omega) (by rw [List.length_drop]; omega)
      (by rw [List.length_drop]; omega) (by omega), List.append_assoc, List.take_append_drop]
    rw [List.length_append, length_block htake.le, ho]

theorem stored_jumbo (h : bs.avail < (encodeEntry kv).length) :
    Stored bs (jumboBlocks bs (numBlocks bs (encodeEntry kv)) (numBlocks bs (encodeEntry kv))
      (encodeEntry kv)) [kv] where
  ne_nil := List.cons_ne_nil _ _
  length_le := by
    rw [length_jumboBlocks, List.flatMap_singleton]
    exact (numBlocks_spec bs (encodeEntry kv)).1.trans (Nat.mul_le_mul_left _ (Nat.sub_le _ _))
  read a c := by
    obtain ⟨hle, hlt⟩ := numBlocks_spec bs (encodeEntry kv)
    generalize numBlocks bs (encodeEntry kv) = n at hle hlt
    have hn : 1 < n := by
      by_contra hn
      have := Nat.mul_le_mul_right bs.avail (Nat.not_lt.mp hn)
      omega
    obtain ⟨left, rfl⟩ : ∃ left, n = left + 1 + 1 := ⟨n - 2, by omega⟩
    rw [List.flatMap_cons, List.flatMap_nil, List.append_nil]
    generalize encodeEntry kv = data at h hle hlt
    have htake : (data.take bs.avail).length = bs.avail := List.length_take_of_le h.le
    have htype : jumboType (left + 1 + 1 - (left + 1 + 1)) (left + 1 + 1) = jumboStart := by
      rw [jumboType, if_neg (by omega), if_pos (by omega)]
    have hne : ¬(jumboStart = nonJumbo ∨ jumboStart = jumboEnd) := by decide
    have hmul := hlt (left + 1) (by omega)
    rw [Nat.succ_mul] at hle hmul
    rw [jumboBlocks, htype, ← List.append_assoc a, List.append_assoc (a ++ _), readDataBlock,
      readAt_append rfl (length_block htake.le)]
    simp only [type_block htake.le, if_neg hne, if_true, extractClean_block htake.le]
    rw [← List.append_assoc (a ++ _), readJumboForward_jumboBlocks (by omega)
      (by rw [List.length_drop]; omega) (by rw [List.length_drop]; omega), List.take_append_drop]
    · have := bs.three_lt
      simp only [List.length_append, length_jumboBlocks, Nat.succ_mul]
      have := Nat.le_mul_of_pos_right left (show 0 < bs.size by omega)
      omega
    · rw [List.length_append, length_block htake.le]

end ChudDB.Sstable
