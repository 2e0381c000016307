import ChudDB.Wal.Record

/-! # Reading records back

A record whose encoding is shorter than `2 ^ 32` bytes is read back whatever follows it
(`Record.reads`), and a proper prefix of such an encoding reads as the end of the segment
(`nextRecord_of_torn`). Both hold for every checksum function. A record whose length field holds
less than a header ends the segment as well (`nextRecord_of_wrapped`). -/

namespace ChudDB.Wal
open Lib

/-- The records the format can carry: a known operation, and an LSN and an encoded length that fit
their fields. -/
structure Record.WF (r : Record) : Prop where
  op : r.op = opPut ∨ r.op = opDelete
  lsn : r.lsn < 2 ^ 64
  length : recordHeaderSize + r.key.length + r.value.length < 2 ^ 32

/-! ## Slices -/

theorem slice_skip (h : a.length ≤ lo) :
    slice (a ++ b) lo hi = slice b (lo - a.length) (hi - a.length) := by
  rw [slice, slice, List.drop_append, List.drop_eq_nil_of_le h, List.nil_append]
  congr 1
  omega

theorem slice_append_left (h : a.length = n) : slice (a ++ b) 0 n = a := by
  rw [slice, List.drop_zero, Nat.sub_zero, ← h, List.take_left]

theorem slice_self (h : a.length = n) : slice a 0 n = a := by
  rw [slice, List.drop_zero, Nat.sub_zero, ← h, List.take_length]

theorem slice_append_of_le (h : hi ≤ a.length) : slice (a ++ b) lo hi = slice a lo hi := by
  by_cases hlo : lo ≤ a.length
  · rw [slice, slice, List.drop_append_of_le_length hlo, List.take_append_of_le_length]
    rw [List.length_drop]
    omega
  · rw [slice, slice, show hi - lo = 0 by omega, List.take_zero, List.take_zero]

theorem length_slice {b : Bytes} (h : hi ≤ b.length) : (slice b lo hi).length = hi - lo := by
  rw [slice, List.length_take, List.length_drop]
  omega

theorem slice_append_slice {b : Bytes} (hlo : lo ≤ mid) (hhi : mid ≤ hi) :
    slice b lo mid ++ slice b mid hi = slice b lo hi := by
  have hdrop : b.drop mid = (b.drop lo).drop (mid - lo) := by
    rw [List.drop_drop, Nat.add_sub_cancel' hlo]
  rw [slice, slice, slice, hdrop, ← List.take_add]
  congr 1
  omega

/-- A field is the number that is read from it. -/
theorem leBytes_slice {b : Bytes} (h : hi ≤ b.length) (hn : hi - lo = n) :
    leBytes n (leNat (slice b lo hi)) = slice b lo hi :=
  leBytes_leNat ((length_slice h).trans hn)

theorem slice_singleton {b : Bytes} (h : i < b.length) : slice b i (i + 1) = [b.getD i 0] := by
  rw [slice, Nat.add_sub_cancel_left, List.drop_eq_getElem_cons h, List.getD_eq_getElem _ _ h]
  rfl

/-! ## The fields of an encoding -/

section
variable {crc : Bytes → UInt32} {r : Record}

@[simp] theorem Record.length_bytes :
    (r.bytes crc).length = recordHeaderSize + r.key.length + r.value.length := by
  simp only [Record.bytes, Record.body, List.length_append, length_leBytes, List.length_cons,
    recordHeaderSize]
  omega

theorem Record.bytes_ne_nil : r.bytes crc ≠ [] := by
  intro h
  have := congrArg List.length h
  rw [Record.length_bytes, recordHeaderSize, List.length_nil] at this
  omega

theorem Record.slice_crc : slice (r.bytes crc) 0 4 = leBytes 4 (crc r.body).toNat :=
  slice_append_left length_leBytes

theorem Record.slice_len : slice (r.bytes crc) 4 8 =
    leBytes 4 (recordHeaderSize + r.key.length + r.value.length) := by
  rw [Record.bytes, slice_skip (by simp), Record.body]
  exact slice_append_left (by simp)

theorem Record.slice_lsn : slice (r.bytes crc) 8 16 = leBytes 8 r.lsn := by
  rw [Record.bytes, slice_skip (by simp), Record.body, slice_skip (by simp)]
  exact slice_append_left (by simp)

/-- The encoding behind the LSN. -/
private theorem Record.bytes_split : r.bytes crc =
    (leBytes 4 (crc r.body).toNat ++ (leBytes 4 (recordHeaderSize + r.key.length + r.value.length)
      ++ leBytes 8 r.lsn)) ++ (r.op :: (leBytes 4 r.key.length ++ (leBytes 4 r.value.length ++
        (r.key ++ r.value)))) := by
  simp only [List.append_assoc]
  rfl

theorem Record.getD_op : (r.bytes crc).getD 16 0 = r.op := by
  rw [Record.bytes_split, List.getD_append_right _ _ _ _ (by simp)]
  simp

theorem Record.slice_keyLen : slice (r.bytes crc) 17 21 = leBytes 4 r.key.length := by
  rw [Record.bytes_split, slice_skip (by simp), ← List.singleton_append, slice_skip (by simp)]
  exact slice_append_left (by simp)

theorem Record.slice_valLen : slice (r.bytes crc) 21 25 = leBytes 4 r.value.length := by
  rw [Record.bytes_split, slice_skip (by simp), ← List.singleton_append, slice_skip (by simp),
    slice_skip (by simp)]
  exact slice_append_left (by simp)

private theorem Record.slice_payload (h : recordHeaderSize ≤ lo) : slice (r.bytes crc) lo hi =
    slice (r.key ++ r.value) (lo - recordHeaderSize) (hi - recordHeaderSize) := by
  unfold recordHeaderSize at *
  rw [Record.bytes_split, slice_skip (by simp; omega), ← List.singleton_append,
    slice_skip (by simp; omega), slice_skip (by simp; omega), slice_skip (by simp; omega)]
  simp only [List.length_append, length_leBytes, List.length_singleton]
  congr 1

theorem Record.slice_key :
    slice (r.bytes crc) recordHeaderSize (recordHeaderSize + r.key.length) = r.key := by
  rw [Record.slice_payload (Nat.le_refl _), Nat.sub_self, Nat.add_sub_cancel_left]
  exact slice_append_left rfl

theorem Record.slice_value : slice (r.bytes crc) (recordHeaderSize + r.key.length)
    (recordHeaderSize + r.key.length + r.value.length) = r.value := by
  rw [Record.slice_payload (Nat.le_add_right _ _), slice_skip (by simp), Nat.add_sub_cancel_left,
    Nat.sub_self]
  exact slice_self (by omega)

theorem Record.slice_body :
    slice (r.bytes crc) 4 (recordHeaderSize + r.key.length + r.value.length) = r.body := by
  have hlen : (r.bytes crc).length = recordHeaderSize + r.key.length + r.value.length :=
    Record.length_bytes
  rw [Record.bytes] at hlen ⊢
  rw [slice_skip (by simp)]
  rw [List.length_append, length_leBytes] at hlen
  simp only [length_leBytes, Nat.sub_self]
  exact slice_self (by omega)

/-! ## Round trip -/

theorem decodeRecord_bytes (h : r.WF) : decodeRecord crc (r.bytes crc) = .ok r := by
  have hop : ¬(r.op ≠ opPut ∧ r.op ≠ opDelete) := by
    have := h.op
    tauto
  have hlen := h.length
  have hk : r.key.length < 256 ^ 4 := by omega
  have hv : r.value.length < 256 ^ 4 := by omega
  have hcrc : (crc r.body).toNat < 256 ^ 4 := (crc r.body).toNat_lt
  have htake : (r.bytes crc).take (recordHeaderSize + r.key.length + r.value.length) =
      r.bytes crc := by
    rw [List.take_of_length_le]
    exact Nat.le_of_eq Record.length_bytes
  simp only [decodeRecord, Record.length_bytes, Record.slice_len,
    leNat_leBytes_of_lt (show _ < 256 ^ 4 from hlen), htake, Record.slice_crc,
    leNat_leBytes_of_lt hcrc, Record.slice_body, Record.getD_op, Record.slice_keyLen,
    leNat_leBytes_of_lt hk, Record.slice_valLen, leNat_leBytes_of_lt hv, Record.slice_lsn,
    leNat_leBytes_of_lt (show _ < 256 ^ 8 from h.lsn), Record.slice_key, Record.slice_value]
  rw [if_neg (by omega), if_neg (by omega), if_neg (by omega), if_neg (by simp), if_neg hop,
    if_neg (by simp)]

/-- A well-formed record is read back, whatever follows it. -/
theorem Record.reads (h : r.WF) : Reads (nextRecord crc) (Record.bytes crc) r := by
  refine ⟨Record.bytes_ne_nil, fun rest => ?_⟩
  have hlen := h.length
  have hb : (r.bytes crc).length = recordHeaderSize + r.key.length + r.value.length :=
    Record.length_bytes
  have hheader : recordHeaderSize = 25 := rfl
  have hfield : leNat (slice (r.bytes crc ++ rest) 4 8) = (r.bytes crc).length := by
    rw [slice_append_of_le (by omega), Record.slice_len, hb]
    exact leNat_leBytes_of_lt hlen
  simp only [nextRecord, hfield, List.take_left, List.drop_left, decodeRecord_bytes h]
  rw [if_neg (by rw [List.length_append]; omega), if_neg (by omega),
    if_neg (by rw [List.length_append]; omega)]

/-- A proper prefix of the encoding of a well-formed record ends the segment. -/
theorem nextRecord_of_torn (h : r.WF) (hsplit : t ++ u = r.bytes crc) (hu : u ≠ []) :
    nextRecord crc t = none := by
  have hlen := h.length
  have hb := congrArg List.length hsplit
  rw [List.length_append, Record.length_bytes] at hb
  have hpos := List.length_pos_iff.mpr hu
  unfold nextRecord
  split
  · rfl
  · rename_i h8
    have hfield : leNat (slice t 4 8) = recordHeaderSize + r.key.length + r.value.length := by
      rw [← slice_append_of_le (b := u) (by omega), hsplit, Record.slice_len]
      exact leNat_leBytes_of_lt hlen
    simp only [hfield]
    split
    · rfl
    · rw [if_pos (by omega)]

/-- A record whose length field has wrapped to less than a header ends the segment. -/
theorem nextRecord_of_wrapped
    (h : (recordHeaderSize + r.key.length + r.value.length) % 2 ^ 32 < 8) :
    nextRecord crc (r.bytes crc ++ rest) = none := by
  have hb : (r.bytes crc).length = recordHeaderSize + r.key.length + r.value.length :=
    Record.length_bytes
  have hheader : recordHeaderSize = 25 := rfl
  have hfield : leNat (slice (r.bytes crc ++ rest) 4 8) < 8 := by
    rw [slice_append_of_le (by omega), Record.slice_len, leNat_leBytes]
    exact h
  simp only [nextRecord]
  rw [if_neg (by rw [List.length_append]; omega), if_pos hfield]

/-- What is read does not depend on the bytes that follow. -/
theorem nextRecord_append (h : nextRecord crc input = some (rec, rest)) :
    nextRecord crc (input ++ more) = some (rec, rest ++ more) := by
  unfold nextRecord at h ⊢
  split at h
  · cases h
  · rename_i h8
    simp only at h
    split at h
    · cases h
    · rename_i hheader
      split at h
      · cases h
      · rename_i hlen
        have hfield : slice (input ++ more) 4 8 = slice input 4 8 := slice_append_of_le (by omega)
        have htake : (input ++ more).take (leNat (slice input 4 8)) =
            input.take (leNat (slice input 4 8)) := List.take_append_of_le_length (by omega)
        simp only [hfield, htake]
        rw [if_neg (by rw [List.length_append]; omega), if_neg hheader,
          if_neg (by rw [List.length_append]; omega)]
        cases hdec : decodeRecord crc (input.take (leNat (slice input 4 8))) with
        | error e => simp [hdec] at h
        | ok rec' =>
          simp only [hdec, Option.some.injEq, Prod.mk.injEq] at h
          obtain ⟨rfl, rfl⟩ := h
          rw [List.drop_append_of_le_length (by omega)]

/-- A prefix of bytes that end the segment ends it too. -/
theorem nextRecord_take (h : nextRecord crc tail = none) : nextRecord crc (tail.take n) = none := by
  cases hn : nextRecord crc (tail.take n) with
  | none => rfl
  | some p =>
    have : nextRecord crc (tail.take n ++ tail.drop n) = some (p.1, p.2 ++ tail.drop n) :=
      nextRecord_append hn
    rw [List.take_append_drop, h] at this
    cases this

@[simp] theorem nextRecord_nil : nextRecord crc [] = none := rfl

theorem readSegment_eq {rs : List Record} (h : ∀ r ∈ rs, r.WF) (htail : nextRecord crc tail = none) :
    readSegment crc (rs.flatMap (Record.bytes crc) ++ tail) = (rs, tail) :=
  readAll_eq (fun r hr => Record.reads (h r hr)) htail

/-! ## Accepted records -/

theorem encodeRecord_eq_ok (h : encodeRecord crc op key value lsn = .ok encoded) :
    encoded = Record.bytes crc ⟨lsn, op, key, value⟩ ∧ (op = opPut ∨ op = opDelete) := by
  unfold encodeRecord at h
  split at h
  · cases h
  · rename_i hop
    split at h
    · cases h
    · cases h
      exact ⟨rfl, by tauto⟩

theorem encodeRecord_put :
    encodeRecord crc opPut key value lsn = .ok (Record.bytes crc ⟨lsn, opPut, key, value⟩) := by
  simp [encodeRecord, opPut, opDelete]

theorem encodeRecord_delete :
    encodeRecord crc opDelete key [] lsn = .ok (Record.bytes crc ⟨lsn, opDelete, key, []⟩) := by
  simp [encodeRecord]

/-! ## What is decoded -/

/-- The record that the fields of a buffer spell out. -/
def recordAt (b : Bytes) : Record where
  lsn := leNat (slice b 8 16)
  op := b.getD 16 0
  key := slice b recordHeaderSize (recordHeaderSize + leNat (slice b 17 21))
  value := slice b (recordHeaderSize + leNat (slice b 17 21))
    (recordHeaderSize + leNat (slice b 17 21) + leNat (slice b 21 25))

/-- The checks that a buffer of the length of its record passes. -/
structure Accepted (crc : Bytes → UInt32) (b : Bytes) : Prop where
  length : leNat (slice b 4 8) = b.length
  crc : (crc (slice b 4 b.length)).toNat = leNat (slice b 0 4)
  op : b.getD 16 0 = opPut ∨ b.getD 16 0 = opDelete
  fields : recordHeaderSize + leNat (slice b 17 21) + leNat (slice b 21 25) = b.length

theorem decodeRecord_eq_ok {buf : Bytes} (h : decodeRecord crc buf = .ok r) :
    ∃ b rest, buf = b ++ rest ∧ leNat (slice buf 4 8) = b.length ∧ Accepted crc b ∧
      r = recordAt b := by
  unfold decodeRecord at h
  simp only at h
  split at h
  · cases h
  split at h
  · cases h
  rename_i hheader
  split at h
  · cases h
  rename_i hbuf
  have hlen : (buf.take (leNat (slice buf 4 8))).length = leNat (slice buf 4 8) :=
    List.length_take_of_le (not_lt.mp hbuf)
  have hsplit := (List.take_append_drop (leNat (slice buf 4 8)) buf).symm
  generalize buf.take (leNat (slice buf 4 8)) = b at h hlen hsplit
  generalize buf.drop (leNat (slice buf 4 8)) = rest at hsplit
  have hfield : leNat (slice b 4 8) = b.length := by
    rw [hlen, hsplit, slice_append_of_le]
    rw [hlen]
    exact le_trans (by decide) (not_lt.mp hheader)
  split at h
  · cases h
  rename_i hcrc
  split at h
  · cases h
  rename_i hop
  split at h
  · cases h
  rename_i hfields
  cases h
  rw [← hlen] at hcrc hfields
  exact ⟨b, rest, hsplit, hlen.symm,
    ⟨hfield, not_not.mp hcrc, by tauto, not_not.mp hfields⟩, rfl⟩

/-- The fields of a buffer make up the buffer. -/
theorem slices_eq {b : Bytes} (hlen : recordHeaderSize + keyLen + valLen = b.length) :
    slice b 0 4 ++ slice b 4 b.length = b ∧
    slice b 4 b.length = slice b 4 8 ++ (slice b 8 16 ++ (b.getD 16 0 :: (slice b 17 21 ++
      (slice b 21 25 ++ (slice b recordHeaderSize (recordHeaderSize + keyLen) ++
        slice b (recordHeaderSize + keyLen) (recordHeaderSize + keyLen + valLen)))))) := by
  have hheader : recordHeaderSize = 25 := rfl
  have hop : b.getD 16 0 :: slice b 17 b.length = slice b 16 b.length := by
    rw [← List.singleton_append, ← slice_singleton (by omega)]
    exact slice_append_slice (by omega) (by omega)
  constructor
  · rw [slice_append_slice (by omega) (by omega), slice_self rfl]
  · rw [hheader, slice_append_slice (by omega) (by omega), ← hheader, hlen, hheader,
      slice_append_slice (by omega) (by omega), slice_append_slice (by omega) (by omega), hop,
      slice_append_slice (by omega) (by omega), slice_append_slice (by omega) (by omega)]

theorem Accepted.length_value {b : Bytes} (h : Accepted crc b) :
    (recordAt b).value.length = leNat (slice b 21 25) := by
  rw [recordAt, length_slice h.fields.le, Nat.add_sub_cancel_left]

/-- What is accepted is the encoding of the record that is returned. -/
theorem Accepted.bytes_recordAt {b : Bytes} (h : Accepted crc b) : (recordAt b).bytes crc = b := by
  have hheader : recordHeaderSize = 25 := rfl
  have hfields := h.fields
  obtain ⟨hb, hbody⟩ := slices_eq h.fields
  have hkey : (recordAt b).key.length = leNat (slice b 17 21) := by
    rw [recordAt, length_slice (by omega), Nat.add_sub_cancel_left]
  have hrecord : (recordAt b).body = slice b 4 b.length := by
    have hrecordLen : leBytes 4 b.length = slice b 4 8 := by
      rw [← h.length]
      exact leBytes_slice (by omega) rfl
    have hlsn : leBytes 8 (leNat (slice b 8 16)) = slice b 8 16 := leBytes_slice (by omega) rfl
    have hkeyLen : leBytes 4 (leNat (slice b 17 21)) = slice b 17 21 :=
      leBytes_slice (by omega) rfl
    have hvalLen : leBytes 4 (leNat (slice b 21 25)) = slice b 21 25 :=
      leBytes_slice (by omega) rfl
    rw [Record.body, hkey, h.length_value, h.fields, hrecordLen, hkeyLen, hvalLen, hbody, ← hlsn]
    rfl
  have hcrc : leBytes 4 (leNat (slice b 0 4)) = slice b 0 4 := leBytes_slice (by omega) rfl
  rw [Record.bytes, hrecord, h.crc, hcrc, hb]

theorem encodeRecord_eq_ok_iff (hop : r.op = opPut ∨ r.op = opDelete) :
    encodeRecord crc r.op r.key r.value r.lsn = .ok (r.bytes crc) ↔
      (r.op = opDelete → r.value.length = 0) := by
  have hknown : ¬ (r.op ≠ opPut ∧ r.op ≠ opDelete) := by tauto
  rw [encodeRecord, if_neg hknown]
  by_cases h : r.op = opDelete ∧ r.value.length ≠ 0
  · rw [if_pos h]
    exact iff_of_false nofun fun himp => h.2 (himp h.1)
  · rw [if_neg h]
    exact iff_of_true rfl (by tauto)

/-- What `DecodeRecord` accepts is what `EncodeRecord` returns for the record, except that a delete
with a value is decoded and not encoded. -/
theorem decodeRecord_encoded_iff {buf : Bytes} {r : Record} (h : decodeRecord crc buf = .ok r) :
    encodeRecord crc r.op r.key r.value r.lsn = .ok (buf.take (leNat (slice buf 4 8))) ↔
      (buf.getD 16 0 = opDelete → leNat (slice buf 21 25) = 0) := by
  have hheader : recordHeaderSize = 25 := rfl
  obtain ⟨b, rest, rfl, hlen, hb, rfl⟩ := decodeRecord_eq_ok h
  have hfields := hb.fields
  have hop : (b ++ rest).getD 16 0 = b.getD 16 0 :=
    List.getD_append _ _ _ _ (by omega)
  rw [hlen, List.take_left, hop, slice_append_of_le (by omega), ← hb.length_value]
  have hiff := @encodeRecord_eq_ok_iff crc (recordAt b) hb.op
  rwa [hb.bytes_recordAt] at hiff

/-! ## A torn tail -/

theorem Record.wf_of_encodeRecord {r : Record} {b : Bytes} (hlsn : r.lsn < 2 ^ 64)
    (h : encodeRecord crc r.op r.key r.value r.lsn = .ok b) (hlen : b.length < 2 ^ 32) :
    b = r.bytes crc ∧ r.WF := by
  obtain ⟨rfl, hop⟩ := encodeRecord_eq_ok h
  rw [Record.length_bytes] at hlen
  exact ⟨rfl, hop, hlsn, hlen⟩

/-- The encodings that `EncodeRecord` returns for records, all of a length that fits the length
field. LSNs are `uint64` values. -/
def Encodes (crc : Bytes → UInt32) : List Record → List Bytes → Prop :=
  List.Forall₂ fun r b => r.lsn < 2 ^ 64 ∧
    encodeRecord crc r.op r.key r.value r.lsn = .ok b ∧ b.length < 2 ^ 32

theorem Encodes.flatten_eq {rs : List Record} {encoded : List Bytes} (h : Encodes crc rs encoded) :
    encoded.flatten = rs.flatMap (Record.bytes crc) ∧ ∀ r ∈ rs, r.WF := by
  induction h with
  | nil => exact ⟨rfl, fun _ hr => (List.not_mem_nil hr).elim⟩
  | cons hr _ ih =>
    obtain ⟨rfl, hwf⟩ := Record.wf_of_encodeRecord hr.1 hr.2.1 hr.2.2
    rw [List.flatten_cons, List.flatMap_cons, ih.1]
    exact ⟨rfl, List.forall_mem_cons.mpr ⟨hwf, ih.2⟩⟩

/-- A segment that ends within a record is read up to that record: `Next` returns the records in
front of it, and then `io.EOF`. -/
theorem readSegment_torn {rs : List Record} {encoded : List Bytes} {last : Record} {b t : Bytes}
    (hrs : Encodes crc rs encoded) (hlast : Encodes crc [last] [b]) (ht : t <+: b) (hne : t ≠ b) :
    readSegment crc (encoded.flatten ++ t) = (rs, t) ∧ nextRecord crc t = none := by
  obtain ⟨hflat, hwf⟩ := hrs.flatten_eq
  obtain ⟨hlastFlat, hlastWF⟩ := hlast.flatten_eq
  obtain ⟨u, rfl⟩ := ht
  have hu : u ≠ [] := fun hnil => hne (by rw [hnil, List.append_nil])
  have hsplit : t ++ u = last.bytes crc := by simpa using hlastFlat
  have heof : nextRecord crc t = none :=
    nextRecord_of_torn (hlastWF last List.mem_cons_self) hsplit hu
  rw [hflat]
  exact ⟨readSegment_eq hwf heof, heof⟩

end

/-- The encoding of a put. -/
theorem decodeRecord_encoded_put :
    let buf := Record.bytes checksumIEEE ⟨7, opPut, [107], [118]⟩
    decodeRecord checksumIEEE buf = .ok ⟨7, opPut, [107], [118]⟩ ∧
      encodeRecord checksumIEEE opPut [107] [118] 7 = .ok (buf.take (leNat (slice buf 4 8))) := by
  intro buf
  have h : decodeRecord checksumIEEE buf = .ok ⟨7, opPut, [107], [118]⟩ :=
    decodeRecord_bytes ⟨.inl rfl, by decide, by decide⟩
  refine ⟨h, (decodeRecord_encoded_iff h).mpr fun hop => ?_⟩
  rw [Record.getD_op] at hop
  cases hop

/-- A delete with a value, which `EncodeRecord` refuses. -/
theorem decodeRecord_delete_with_value :
    let r : Record := ⟨7, opDelete, [107], [118]⟩
    decodeRecord checksumIEEE (r.bytes checksumIEEE) = .ok r ∧
      encodeRecord checksumIEEE r.op r.key r.value r.lsn = .error .deleteWithValue :=
  ⟨decodeRecord_bytes ⟨.inr rfl, by decide, by decide⟩, rfl⟩

/-- A put, and a delete that is cut off within its length field. -/
theorem readSegment_torn_inLength :
    let put : Record := ⟨1, opPut, [107], [118]⟩
    let t := (Record.bytes checksumIEEE ⟨2, opDelete, [107], []⟩).take 6
    readSegment checksumIEEE (Record.bytes checksumIEEE put ++ t) = ([put], t) ∧
      nextRecord checksumIEEE t = none := by
  intro put t
  have hput : Encodes checksumIEEE [put] [put.bytes checksumIEEE] :=
    .cons ⟨by decide, encodeRecord_put, by rw [Record.length_bytes]; decide⟩ .nil
  have hdelete : Encodes checksumIEEE [⟨2, opDelete, [107], []⟩]
      [Record.bytes checksumIEEE ⟨2, opDelete, [107], []⟩] :=
    .cons ⟨by decide, encodeRecord_delete, by rw [Record.length_bytes]; decide⟩ .nil
  have hne : t ≠ Record.bytes checksumIEEE ⟨2, opDelete, [107], []⟩ := by
    intro heq
    have hlen := congrArg List.length heq
    rw [List.length_take, Record.length_bytes] at hlen
    exact absurd hlen (by decide)
  have h := readSegment_torn hput hdelete (List.take_prefix 6 _) hne
  rwa [List.flatten_cons, List.flatten_nil, List.append_nil] at h

end ChudDB.Wal
