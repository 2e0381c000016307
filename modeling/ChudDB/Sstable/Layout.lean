import ChudDB.Sstable.Blocks

/-! # The layout of a table file

`SerializeDataBuildIndex` cuts the entries into sections, one for each block or run of blocks that
an index entry points to. `Packed` is the invariant of its loop: the sections that are written, and
the entries of the block being filled. -/

namespace ChudDB.Sstable
open Lib FileWriter

/-! ## The bytes of a writer -/

namespace FileWriter

variable {fw : FileWriter}

/-- What has reached the file or waits in its buffer. -/
def stream (fw : FileWriter) : Bytes := fw.content ++ fw.file.elim [] BufWriter.buf

/-- Nothing has failed, and a file that is not open yet is empty. -/
structure Ready (fw : FileWriter) : Prop where
  closed : fw.file = none → fw.content = []
  err : ∀ b, fw.file = some b → b.err = false

theorem Ready.openIfNeeded_bufWrite (h : fw.Ready) (data : Bytes) :
    (fw.openIfNeeded.bufWrite data).Ready ∧
      (fw.openIfNeeded.bufWrite data).stream = fw.stream ++ data ∧
      (fw.openIfNeeded.bufWrite data).rawBytesWritten = fw.rawBytesWritten ∧
      (fw.openIfNeeded.bufWrite data).location = fw.location := by
  cases hf : fw.file with
  | none =>
    rw [openIfNeeded, hf]
    refine ⟨⟨nofun, ?_⟩, ?_, rfl, rfl⟩
    · rintro b ⟨⟩
      rfl
    · simp [stream, bufWrite, hf, h.closed hf]
  | some b =>
    have herr := h.err b hf
    rw [openIfNeeded, hf]
    refine ⟨⟨?_, ?_⟩, ?_, rfl, rfl⟩
    · simp [bufWrite, hf]
    · simp [bufWrite, hf, herr]
    · simp [stream, bufWrite, hf, herr]

end FileWriter

/-! ## Sections -/

/-- The bytes of a section, and its entries. -/
abbrev Sec := Bytes × List KeyValue

def headKey (entries : List KeyValue) : Key := (entries.headD ([], [])).1

/-- The index of sections that begin at the given offset. -/
def indexFrom : Nat → List Sec → List IndexEntry
  | _, [] => []
  | offset, c :: cs => ⟨headKey c.2, offset⟩ :: indexFrom (offset + c.1.length) cs

theorem indexFrom_append : indexFrom offset (cs ++ cs') =
    indexFrom offset cs ++ indexFrom (offset + (cs.flatMap Prod.fst).length) cs' := by
  induction cs generalizing offset with
  | nil => rfl
  | cons c cs ih =>
    rw [List.cons_append, indexFrom, indexFrom, ih, List.cons_append, List.flatMap_cons,
      List.length_append, Nat.add_assoc]

theorem headKey_append (h : entries ≠ []) : headKey (entries ++ more) = headKey entries := by
  cases entries with
  | nil => exact absurd rfl h
  | cons e entries => rfl

/-! ## The loop -/

/-- The block being filled, as a section without bytes yet. -/
def openSec (cur : List KeyValue) : List Sec := if cur = [] then [] else [([], cur)]

/-- The sections `secs` are written under the path `loc`, and the entries `cur` are in the current
block. -/
structure Packed (bs : BlockSize) (loc : Location) (s : Serializer) (secs : List Sec)
    (cur : List KeyValue) : Prop where
  location : s.fw.location = loc
  ready : s.fw.Ready
  stored : ∀ c ∈ secs, Stored bs c.1 c.2
  stream : s.fw.stream = secs.flatMap Prod.fst
  num : s.fw.currentBlockNum * bs.size = s.fw.stream.length
  raw : s.fw.rawBytesWritten = 0
  current : s.fw.currentBlock = cur.flatMap encodeEntry
  offset : s.fw.offsetInBlock = s.fw.currentBlock.length
  fits : s.fw.currentBlock.length ≤ bs.avail
  index : s.index = indexFrom 0 (secs ++ openSec cur)
  last : if cur = [] then s.lastBlock < s.fw.currentBlockNum
    else s.lastBlock = s.fw.currentBlockNum

variable {bs : BlockSize} {loc : Location} {s : Serializer} {kv : KeyValue}

theorem Serializer.record_of_lt (h : s.lastBlock < r.1) :
    s.record bs kv r = ⟨r.2, s.index ++ [⟨kv.1, r.1 * bs.size⟩], r.1⟩ := by
  rw [record, if_pos (by omega)]

namespace Packed

theorem num_eq (h : Packed bs loc s secs cur) :
    s.fw.currentBlockNum * bs.size = (secs.flatMap Prod.fst).length := h.stream ▸ h.num

theorem currentBlock_eq_nil (h : Packed bs loc s secs cur) : s.fw.currentBlock = [] ↔ cur = [] := by
  rw [h.current]
  cases cur with
  | nil => simp
  | cons e cur => simp [encodeEntry_ne_nil]

theorem flushCurrentBlock (h : Packed bs loc s secs cur) :
    ∃ secs', Packed bs loc { s with fw := s.fw.flushCurrentBlock bs } secs' [] ∧
      secs'.flatMap Prod.snd = secs.flatMap Prod.snd ++ cur := by
  by_cases hcur : cur = []
  · subst hcur
    refine ⟨secs, ?_, (List.append_nil _).symm⟩
    rw [FileWriter.flushCurrentBlock, if_pos (List.length_eq_zero_iff.mpr h.current)]
    exact h
  · have hlen : s.fw.currentBlock.length ≠ 0 :=
      fun hlen => hcur (h.currentBlock_eq_nil.mp (List.length_eq_zero_iff.mp hlen))
    obtain ⟨hready, hstream, hraw, hloc⟩ :=
      h.ready.openIfNeeded_bufWrite (block bs s.fw.currentBlock nonJumbo)
    have hstored := stored_block hcur (h.current ▸ h.fits)
    rw [← h.current] at hstored
    have hlast := h.last
    rw [if_neg hcur] at hlast
    refine ⟨secs ++ [(block bs s.fw.currentBlock nonJumbo, cur)], ?_, by simp⟩
    rw [FileWriter.flushCurrentBlock, if_neg hlen]
    refine ⟨hloc.trans h.location, ⟨hready.closed, hready.err⟩, ?_, ?_, ?_, hraw.trans h.raw,
      rfl, rfl, Nat.zero_le _, ?_, ?_⟩
    · intro c hc
      rcases List.mem_append.mp hc with hc | hc
      · exact h.stored c hc
      · rw [List.mem_singleton.mp hc]
        exact hstored
    · refine hstream.trans ?_
      rw [h.stream, List.flatMap_append, List.flatMap_singleton]
    · refine Eq.trans ?_ (congrArg List.length hstream).symm
      rw [Nat.succ_mul, h.num, List.length_append, length_block h.fits]
    · refine h.index.trans ?_
      rw [openSec, if_neg hcur, openSec, if_pos rfl, List.append_nil, indexFrom_append,
        indexFrom_append]
      rfl
    · rw [if_pos rfl]
      change s.lastBlock < ((s.fw.currentBlockNum + 1 : Nat) : Int)
      omega

/-- A small entry that goes into an empty block begins a section. -/
theorem record_append_nil (h : Packed bs loc s secs [])
    (hlen : (encodeEntry kv).length ≤ bs.avail) :
    Packed bs loc (s.record bs kv (s.fw.currentBlockNum, s.fw.append (encodeEntry kv)))
      secs [kv] := by
  have hlast := h.last
  rw [if_pos rfl] at hlast
  have hcur : s.fw.currentBlock = [] := h.current
  have hoff := h.offset
  rw [hcur, List.length_nil] at hoff
  rw [Serializer.record_of_lt hlast]
  refine ⟨h.location, ⟨h.ready.closed, h.ready.err⟩, h.stored, h.stream, h.num, h.raw,
    ?_, ?_, ?_, ?_, ?_⟩
  · simp [FileWriter.append, hcur]
  · simp [FileWriter.append, hcur, hoff]
  · simpa [FileWriter.append, hcur] using hlen
  · rw [h.index, openSec, if_pos rfl, List.append_nil, openSec, if_neg (by simp), indexFrom_append,
      ← h.num_eq, Nat.zero_add]
    rfl
  · rw [if_neg (List.cons_ne_nil _ _)]
    rfl

/-- A small entry that goes behind others stays in their section. -/
theorem record_append (h : Packed bs loc s secs cur) (hcur : cur ≠ [])
    (hroom : s.fw.offsetInBlock + (encodeEntry kv).length + 3 ≤ bs.size) :
    Packed bs loc (s.record bs kv (s.fw.currentBlockNum, s.fw.append (encodeEntry kv))) secs
      (cur ++ [kv]) := by
  have hlast := h.last
  rw [if_neg hcur] at hlast
  have hne : cur ++ [kv] ≠ [] := by simp
  have hsize := bs.avail_add
  have hoff := h.offset
  rw [Serializer.record, if_neg (by simp [hlast])]
  refine ⟨h.location, ⟨h.ready.closed, h.ready.err⟩, h.stored, h.stream, h.num, h.raw,
    ?_, ?_, ?_, ?_, ?_⟩
  · simp [FileWriter.append, h.current]
  · simp [FileWriter.append, hoff]
  · simp only [FileWriter.append, List.length_append]
    omega
  · refine h.index.trans ?_
    rw [openSec, if_neg hcur, openSec, if_neg hne, indexFrom_append, indexFrom_append]
    simp only [indexFrom, headKey_append hcur]
  · rw [if_neg hne]
    exact hlast

/-- A large entry is a section of its own. -/
theorem record_writeJumboData (h : Packed bs loc s secs [])
    (hlen : bs.avail < (encodeEntry kv).length) :
    ∃ bytes, Packed bs loc (s.record bs kv (s.fw.writeJumboData bs (encodeEntry kv)))
      (secs ++ [(bytes, [kv])]) [] := by
  have hlast := h.last
  rw [if_pos rfl] at hlast
  have hcur : s.fw.flushCurrentBlock bs = s.fw := if_pos (List.length_eq_zero_iff.mpr h.current)
  obtain ⟨hready, hstream, hraw, hloc⟩ := h.ready.openIfNeeded_bufWrite
    (jumboBlocks bs (numBlocks bs (encodeEntry kv)) (numBlocks bs (encodeEntry kv)) (encodeEntry kv))
  have hstored := stored_jumbo hlen
  have hpos : 0 < numBlocks bs (encodeEntry kv) := by
    rw [Nat.pos_iff_ne_zero]
    intro hzero
    have := (numBlocks_spec bs (encodeEntry kv)).1
    rw [hzero] at this
    omega
  refine ⟨jumboBlocks bs (numBlocks bs (encodeEntry kv)) (numBlocks bs (encodeEntry kv))
    (encodeEntry kv), ?_⟩
  rw [writeJumboData, hcur, Serializer.record_of_lt hlast]
  refine ⟨hloc.trans h.location, ⟨hready.closed, hready.err⟩, ?_, ?_, ?_, hraw.trans h.raw,
    rfl, rfl, Nat.zero_le _, ?_, ?_⟩
  · intro c hc
    rcases List.mem_append.mp hc with hc | hc
    · exact h.stored c hc
    · rw [List.mem_singleton.mp hc]
      exact hstored
  · refine hstream.trans ?_
    rw [h.stream, List.flatMap_append, List.flatMap_singleton]
  · refine Eq.trans ?_ (congrArg List.length hstream).symm
    rw [Nat.add_mul, h.num, List.length_append, length_jumboBlocks]
  · rw [h.index, openSec, if_pos rfl, List.append_nil, List.append_nil, indexFrom_append,
      ← h.num_eq, Nat.zero_add]
    rfl
  · rw [if_pos rfl]
    change (s.fw.currentBlockNum : Int) < ((s.fw.currentBlockNum + _ : Nat) : Int)
    omega

/-- One round of the loop. -/
theorem add (h : Packed bs loc s secs cur) (kv : KeyValue) :
    ∃ secs' cur', Packed bs loc (s.add bs kv) secs' cur' ∧
      secs'.flatMap Prod.snd ++ cur' = secs.flatMap Prod.snd ++ cur ++ [kv] := by
  have hne : (encodeEntry kv).length ≠ 0 := fun h => encodeEntry_ne_nil (List.length_eq_zero_iff.mp h)
  have hsize := bs.avail_add
  obtain ⟨secs₁, hflush, hsnd⟩ := h.flushCurrentBlock
  rw [Serializer.add, write, if_neg Bool.false_ne_true, if_neg hne]
  by_cases hjumbo : bs.avail < (encodeEntry kv).length
  · rw [if_pos (show isJumbo bs _ = true from decide_eq_true hjumbo)]
    obtain ⟨bytes, hrec⟩ := hflush.record_writeJumboData hjumbo
    refine ⟨secs₁ ++ [(bytes, [kv])], [], ?_, ?_⟩
    · -- the flush inside `WriteJumboData` finds an empty block
      have hidem : (s.fw.flushCurrentBlock bs).flushCurrentBlock bs = s.fw.flushCurrentBlock bs :=
        if_pos (List.length_eq_zero_iff.mpr hflush.current)
      rw [writeJumboData, hidem] at hrec
      exact hrec
    · rw [List.append_nil, List.flatMap_append, hsnd]
      rfl
  · rw [if_neg (by simpa [isJumbo, BlockSize.avail] using hjumbo)]
    by_cases hroom : s.fw.offsetInBlock + (encodeEntry kv).length + 3 ≤ bs.size
    · have hcan : s.fw.canWrite bs (encodeEntry kv).length = true := decide_eq_true hroom
      rw [hcan, Bool.not_true, if_neg Bool.false_ne_true]
      by_cases hcur : cur = []
      · subst hcur
        refine ⟨secs, [kv], h.record_append_nil (Nat.not_lt.mp hjumbo), ?_⟩
        rw [List.append_nil]
      · exact ⟨secs, cur ++ [kv], h.record_append hcur hroom, (List.append_assoc _ _ _).symm⟩
    · have hcan : s.fw.canWrite bs (encodeEntry kv).length = false := decide_eq_false hroom
      rw [hcan, Bool.not_false, if_pos rfl]
      refine ⟨secs₁, [kv], hflush.record_append_nil (Nat.not_lt.mp hjumbo), ?_⟩
      rw [hsnd]

theorem foldl_add (h : Packed bs loc s secs cur) (data : List KeyValue) :
    ∃ secs' cur', Packed bs loc (data.foldl (Serializer.add bs) s) secs' cur' ∧
      secs'.flatMap Prod.snd ++ cur' = secs.flatMap Prod.snd ++ cur ++ data := by
  induction data generalizing s secs cur with
  | nil => exact ⟨secs, cur, h, (List.append_nil _).symm⟩
  | cons kv data ih =>
    obtain ⟨secs₁, cur₁, h₁, heq₁⟩ := h.add kv
    obtain ⟨secs₂, cur₂, h₂, heq₂⟩ := ih h₁
    refine ⟨secs₂, cur₂, h₂, ?_⟩
    rw [heq₂, heq₁, List.append_assoc _ [kv]]
    rfl

end Packed

/-- The data part of a file: sections that hold the entries in order, and an index of them. -/
theorem exists_sections (bs : BlockSize) (name : Nat) (data : List KeyValue) :
    ∃ secs, Packed bs ⟨name, true⟩
        { serializeDataBuildIndex bs (newFileWriter name) data with
          fw := ((serializeDataBuildIndex bs (newFileWriter name) data).fw.write bs [] true).2 }
        secs [] ∧
      secs.flatMap Prod.snd = data := by
  have hinit : Packed bs ⟨name, true⟩ ⟨newFileWriter name, [], -1⟩ [] [] := by
    refine ⟨rfl, ⟨fun _ => rfl, fun b hb => by cases hb⟩, ?_, rfl, ?_, rfl, rfl, rfl,
      Nat.zero_le _, rfl, ?_⟩
    · intro c hc
      cases hc
    · exact Nat.zero_mul _
    · rw [if_pos rfl]
      exact Int.negSucc_lt_zero 0
  obtain ⟨secs, cur, h, heq⟩ := hinit.foldl_add data
  obtain ⟨secs', h', heq'⟩ := h.flushCurrentBlock
  refine ⟨secs', h', ?_⟩
  rw [heq', heq]
  rfl

end ChudDB.Sstable
