import ChudDB.Lib.Checked
import ChudDB.Lib.Loop
import ChudDB.Sstable.Reader

/-! # Parsing arbitrary bytes

The parsers of `reader.go` with the integers of the machine. A length field holds any `uint64`; it
is converted to an `int` and added to an offset in front of the bound check, so a length that
overflows the sum passes the check, and the slice behind it panics. The parsers return a value or an
error exactly when no length they meet does that (`parsers_return_iff`). Where they return a value,
it is the one of `Reader`, where lengths are natural numbers (`readDataEntry_eq_reader`). -/

namespace ChudDB.Sstable.Parsing
open Lib

/-! ## The parsers -/

inductive EntryError where
  | tooShort (length : Nat)
  | keyTruncated (need available : Int)
  | valueLengthTruncated
  | valueTruncated (need available : Int)
deriving DecidableEq, Repr

/-- The texts of the errors. -/
def EntryError.message : EntryError → String
  | .tooShort length => s!"data entry too short ({length} bytes)"
  | .keyTruncated need available => s!"key truncated (need {need} have {available})"
  | .valueLengthTruncated => "value length field truncated"
  | .valueTruncated need available => s!"value truncated (need {need} have {available})"

/-- `readDataEntry`: the key, the value and the number of bytes read. -/
def readDataEntry (data : Slice) : Checked EntryError (Key × Value × Int) :=
  if data.length < 16 then .error (.tooShort data.length)
  else
    (data.sizedAt 0 fun need off => .keyTruncated need (data.length - off)).andThen
      fun (key, off) =>
      if wrap (off + 8) > data.length then .error .valueLengthTruncated
      else
        (data.sizedAt off fun need off => .valueTruncated need (data.length - off)).andThen
          fun (value, off) => .ok (key, value, off)

inductive IndexError where
  | keyTruncated (off : Int)
  | offsetTruncated
deriving DecidableEq, Repr

/-- The texts of the errors. -/
def IndexError.message : IndexError → String
  | .keyTruncated off => s!"index: key truncated at offset {off}"
  | .offsetTruncated => "index: offset field truncated"

/-- A key and the offset of its block. -/
abbrev IndexRow := Key × Int

/-- One round of the loop of `parseIndex`, at an offset and with the entries so far. -/
def parseIndexRound (data : Slice) (s : Int × List IndexRow) :
    (Int × List IndexRow) ⊕ Checked IndexError (List IndexRow) :=
  if ¬ s.1 < data.length then .inr (.ok s.2)
  else if data.length - s.1 < 8 then .inr (.ok s.2)
  else
    match data.sizedAt s.1 fun _ off => .keyTruncated off with
    | .panic => .inr .panic
    | .error e => .inr (.error e)
    | .ok (key, off) =>
      if wrap (off + 8) > data.length then .inr (.error .offsetTruncated)
      else
        match data.uint64 off with
        | .panic => .inr .panic
        | .error e => .inr (.error e)
        | .ok blockOffset => .inl (wrap (off + 8), s.2 ++ [(key, wrap blockOffset)])

/-- `parseIndex`. A round reads at least 16 bytes, so there are fewer rounds than bytes. -/
def parseIndex (data : Slice) : Option (Checked IndexError (List IndexRow)) :=
  loop (parseIndexRound data) (data.length + 1) (0, [])

inductive FilterError (F : Type) where
  | tooShort
  | bloomTruncated
  | bloom (e : F)
  | prefixLengthTruncated
  | prefixTruncated
  | prefixBloom (e : F)
deriving DecidableEq, Repr

/-- The texts of the errors; `text` gives those of the filters. -/
def FilterError.message {F : Type} (text : F → String) : FilterError F → String
  | .tooShort => "filter section too short"
  | .bloomTruncated => "bloom filter bytes truncated"
  | .bloom e => "bloom filter: " ++ text e
  | .prefixLengthTruncated => "prefix filter length field truncated"
  | .prefixTruncated => "prefix filter bytes truncated"
  | .prefixBloom e => "prefix filter: " ++ text e

section
variable {F BF PBF : Type} (deserialize : Bytes → Except F BF)
  (deserializePrefix : Bytes → Except F PBF)

/-- `parseFilterSection`; what the two filters make of their bytes is not looked at here. -/
def parseFilterSection (data : Slice) : Checked (FilterError F) (BF × PBF) :=
  if data.length < 8 then .error .tooShort
  else
    (data.sizedAt 0 fun _ _ => .bloomTruncated).andThen fun (bytes, off) =>
      match deserialize bytes with
      | .error e => .error (.bloom e)
      | .ok bf =>
        if wrap (off + 8) > data.length then .error .prefixLengthTruncated
        else
          (data.sizedAt off fun _ _ => .prefixTruncated).andThen fun (bytes, _) =>
            match deserializePrefix bytes with
            | .error e => .error (.prefixBloom e)
            | .ok pbf => .ok (bf, pbf)

end

/-! ## Fields -/

variable {data : Slice} {off : Nat} {ε : Type}

/-- The first field of the bytes. -/
theorem sizedAt_zero (truncated : Int → Int → ε) (h : 8 ≤ data.length) :
    data.sizedAt 0 truncated =
      if ¬ data.Fits 0 then .panic
      else if data.length < 8 + data.numberAt 0 then .error (truncated (wrap (data.numberAt 0)) 8)
      else .ok (data.between 8 (8 + data.numberAt 0), ((8 + data.numberAt 0 : Nat) : Int)) := by
  have hoff : (0 : Nat) + 8 ≤ data.length := by omega
  have := Slice.sizedAt_eq truncated hoff
  simpa only [Nat.zero_add, Nat.cast_zero, Nat.cast_ofNat] using this

/-- The check in front of the second length. -/
theorem wrap_add_eight_gt (h : off ≤ data.length) :
    wrap ((off : Int) + 8) > data.length ↔ data.length < off + 8 := by
  have := data.length_lt
  rw [wrap_of_lt (by omega) (by omega)]
  omega

/-! ## One entry -/

/-- The lengths of the key and of the value do not overflow. -/
def EntryFits (data : Slice) : Prop :=
  16 ≤ data.length → data.Fits 0 ∧
    (8 + data.numberAt 0 + 8 ≤ data.length → data.Fits (8 + data.numberAt 0))

instance : Decidable (EntryFits data) := inferInstanceAs (Decidable (_ → _))

theorem readDataEntry_eq (data : Slice) :
    readDataEntry data =
      if data.length < 16 then .error (.tooShort data.length)
      else if ¬ data.Fits 0 then .panic
      else if data.length < 8 + data.numberAt 0 then
        .error (.keyTruncated (wrap (data.numberAt 0)) (data.length - 8))
      else if data.length < 8 + data.numberAt 0 + 8 then .error .valueLengthTruncated
      else if ¬ data.Fits (8 + data.numberAt 0) then .panic
      else if data.length < 8 + data.numberAt 0 + 8 + data.numberAt (8 + data.numberAt 0) then
        .error (.valueTruncated (wrap (data.numberAt (8 + data.numberAt 0)))
          (data.length - (8 + data.numberAt 0 + 8 : Nat)))
      else .ok (data.between 8 (8 + data.numberAt 0),
        data.between (8 + data.numberAt 0 + 8)
          (8 + data.numberAt 0 + 8 + data.numberAt (8 + data.numberAt 0)),
        ((8 + data.numberAt 0 + 8 + data.numberAt (8 + data.numberAt 0) : Nat) : Int)) := by
  rw [readDataEntry]
  refine ite_congr rfl (fun _ => rfl) fun hshort => ?_
  rw [sizedAt_zero _ (by omega)]
  split
  · rfl
  · split
    · rfl
    · rename_i hkey
      rw [Checked.andThen_ok]
      simp only [wrap_add_eight_gt (not_lt.mp hkey)]
      refine ite_congr rfl (fun _ => rfl) fun hroom => ?_
      rw [Slice.sizedAt_eq _ (not_lt.mp hroom)]
      split
      · rfl
      · split
        · rfl
        · rfl

theorem readDataEntry_returns_iff : (readDataEntry data).Returns ↔ EntryFits data := by
  simp only [readDataEntry_eq, Checked.returns_ite_error, Checked.returns_ite_panic,
    Checked.returns_ok, not_not, not_lt, implies_true, and_true, EntryFits]
  refine forall_congr' fun _ => and_congr_right fun _ => ?_
  exact ⟨fun h hroom => h (by omega) hroom, fun h _ hroom => h hroom⟩

/-- An entry takes at least its two lengths, and no more than there is. -/
theorem bytesRead_of_readDataEntry (h : readDataEntry data = .ok (key, value, n)) :
    16 ≤ n ∧ n ≤ data.length := by
  rw [readDataEntry_eq] at h
  repeat' split at h
  all_goals cases h
  omega

/-! ## The index -/

/-- The offset of the index entry behind the one at an offset. -/
def NextEntry (data : Slice) (off off' : Nat) : Prop :=
  off' = off + 8 + data.numberAt off + 8 ∧ off' ≤ data.length

/-- No key length from an offset on overflows. -/
def FitsFrom (data : Slice) (off : Nat) : Prop :=
  ∀ off', Relation.ReflTransGen (NextEntry data) off off' → off' + 8 ≤ data.length → data.Fits off'

/-- The key lengths that `parseIndex` meets do not overflow. -/
def IndexFits (data : Slice) : Prop := FitsFrom data 0

theorem fitsFrom_iff : FitsFrom data off ↔ (off + 8 ≤ data.length → data.Fits off) ∧
    (off + 8 + data.numberAt off + 8 ≤ data.length →
      FitsFrom data (off + 8 + data.numberAt off + 8)) := by
  constructor
  · intro h
    refine ⟨h off .refl, fun hle off' hoff' => h off' (.head ⟨rfl, hle⟩ hoff')⟩
  · rintro ⟨hfirst, hrest⟩ off' hoff'
    rcases Relation.ReflTransGen.cases_head hoff' with rfl | ⟨mid, ⟨rfl, hle⟩, htail⟩
    · exact hfirst
    · exact hrest hle off' htail

theorem parseIndexRound_eq (hoff : off ≤ data.length) (entries : List IndexRow) :
    parseIndexRound data ((off : Int), entries) =
      if data.length < off + 8 then .inr (.ok entries)
      else if ¬ data.Fits off then .inr .panic
      else if data.length < off + 8 + data.numberAt off then
        .inr (.error (.keyTruncated (off + 8 : Nat)))
      else if data.length < off + 8 + data.numberAt off + 8 then .inr (.error .offsetTruncated)
      else .inl (((off + 8 + data.numberAt off + 8 : Nat) : Int),
        entries ++ [(data.between (off + 8) (off + 8 + data.numberAt off),
          wrap (data.numberAt (off + 8 + data.numberAt off)))]) := by
  have hlen := data.length_lt
  rw [parseIndexRound]
  by_cases hroom : data.length < off + 8
  · rw [if_pos hroom]
    split
    · rfl
    · rw [if_pos (by simp only; omega)]
  · rw [if_neg hroom, if_neg (by simp only; omega), if_neg (by simp only; omega)]
    rw [Slice.sizedAt_eq _ (not_lt.mp hroom)]
    by_cases hfit : data.Fits off
    · rw [if_neg (not_not.mpr hfit), if_neg (not_not.mpr hfit)]
      by_cases htrunc : data.length < off + 8 + data.numberAt off
      · rw [if_pos htrunc, if_pos htrunc]
      · rw [if_neg htrunc, if_neg htrunc]
        simp only [wrap_add_eight_gt (not_lt.mp htrunc)]
        refine ite_congr rfl (fun _ => rfl) fun hnumber => ?_
        rw [Slice.uint64_eq (not_lt.mp hnumber), wrap_of_lt (by omega) (by omega)]
        rfl
    · rw [if_pos hfit, if_pos hfit]

/-- `parseIndex` comes to an end, and returns if no key length overflows. -/
theorem parseIndex_returns_iff (data : Slice) :
    ∃ r, parseIndex data = some r ∧ (r.Returns ↔ IndexFits data) := by
  -- the rounds left are bounded by the bytes left
  let J (m : Nat) (s : Int × List IndexRow) : Prop :=
    ∃ off : Nat, s.1 = off ∧ off + m = data.length ∧ (FitsFrom data off ↔ IndexFits data)
  have hstart : J data.length (0, []) := ⟨0, rfl, Nat.zero_add _, Iff.rfl⟩
  refine loop_spec (J := J) (fun {m s} hJ => ?_) hstart (Nat.lt_succ_self _)
  obtain ⟨o, entries⟩ := s
  obtain ⟨off, rfl, hm, hfits⟩ := hJ
  rw [parseIndexRound_eq (by omega), ← hfits, fitsFrom_iff]
  by_cases hroom : data.length < off + 8
  · rw [if_pos hroom]
    refine .inr ⟨_, rfl, iff_of_true (Checked.returns_ok _) ⟨fun h => ?_, fun h => ?_⟩⟩ <;> omega
  · rw [if_neg hroom]
    by_cases hfit : data.Fits off
    · rw [if_neg (not_not.mpr hfit)]
      split
      · refine .inr ⟨_, rfl, iff_of_true (Checked.returns_error _) ⟨fun _ => hfit, fun h => ?_⟩⟩
        omega
      · split
        · refine .inr ⟨_, rfl, iff_of_true (Checked.returns_error _) ⟨fun _ => hfit, fun h => ?_⟩⟩
          omega
        · rename_i hnext
          refine .inl ⟨_, data.length - (off + 8 + data.numberAt off + 8), rfl, by omega, _, rfl,
            by omega, ?_⟩
          rw [← hfits]
          refine Iff.trans ?_ fitsFrom_iff.symm
          exact ⟨fun h => ⟨fun _ => hfit, fun _ => h⟩, fun h => h.2 (not_lt.mp hnext)⟩
    · rw [if_pos hfit]
      exact .inr ⟨_, rfl, iff_of_false Checked.not_returns_panic fun h => hfit (h.1 (by omega))⟩

/-! ## The filters -/

section
variable {F BF PBF : Type} (deserialize : Bytes → Except F BF)
  (deserializePrefix : Bytes → Except F PBF)

/-- The lengths of the two filters do not overflow; the second one is met if the first filter can be
read. -/
def FilterFits (data : Slice) : Prop :=
  8 ≤ data.length → data.Fits 0 ∧
    (8 + data.numberAt 0 + 8 ≤ data.length →
      (deserialize (data.between 8 (8 + data.numberAt 0))).isOk →
      data.Fits (8 + data.numberAt 0))

theorem parseFilterSection_returns_iff :
    (parseFilterSection deserialize deserializePrefix data).Returns ↔
      FilterFits deserialize data := by
  rw [parseFilterSection, Checked.returns_ite_error, FilterFits, not_lt]
  refine forall_congr' fun hlen => ?_
  rw [sizedAt_zero _ hlen]
  by_cases hfit : data.Fits 0
  · rw [if_neg (not_not.mpr hfit), and_iff_right hfit]
    by_cases htrunc : data.length < 8 + data.numberAt 0
    · rw [if_pos htrunc]
      exact iff_of_true (Checked.returns_error _) fun h => absurd h (by omega)
    · rw [if_neg htrunc, Checked.andThen_ok]
      simp only [wrap_add_eight_gt (not_lt.mp htrunc)]
      cases deserialize (data.between 8 (8 + data.numberAt 0)) with
      | error e => exact iff_of_true (Checked.returns_error _) fun _ h => nomatch h
      | ok bf =>
        simp only [Checked.returns_ite_error, not_lt]
        refine forall_congr' fun hroom => ?_
        rw [Checked.returns_andThen, Slice.sizedAt_returns_iff _ hroom]
        · exact ⟨fun h _ => h, fun h => h rfl⟩
        · intro field
          cases deserializePrefix field.1 with
          | error e => exact Checked.returns_error _
          | ok pbf => exact Checked.returns_ok _
  · rw [if_pos hfit]
    exact iff_of_false Checked.not_returns_panic fun h => hfit h.1

/-- The parsers return a value or an error exactly when no length that they meet overflows, and
`readDataEntry` consumes at least its two lengths and at most the data. -/
theorem parsers_return_iff (data : Slice) :
    ((readDataEntry data).Returns ↔ EntryFits data) ∧
    (∀ key value bytesRead, readDataEntry data = .ok (key, value, bytesRead) →
      16 ≤ bytesRead ∧ bytesRead ≤ data.length) ∧
    (∃ r, parseIndex data = some r ∧ (r.Returns ↔ IndexFits data)) ∧
    ((parseFilterSection deserialize deserializePrefix data).Returns ↔
      FilterFits deserialize data) :=
  ⟨readDataEntry_returns_iff, fun _ _ _ => bytesRead_of_readDataEntry, parseIndex_returns_iff data,
    parseFilterSection_returns_iff deserialize deserializePrefix⟩

end

/-- Sixteen bytes `0xff`: the key length is read as `-1`. -/
def negativeLength : Slice := ⟨List.replicate 16 0xff, by decide⟩

/-- A length of `-1` passes the bound check and makes each parser panic. -/
theorem parsers_panic_on_negative_length :
    readDataEntry negativeLength = .panic ∧ parseIndex negativeLength = some .panic ∧
      parseFilterSection (fun b => (.ok b : Except Unit Bytes)) .ok negativeLength = .panic := by
  decide +kernel

/-! ## Lengths as natural numbers

A length that overflows is one that reaches past the end, so for the values that are returned the
lengths can be read as natural numbers. -/

theorem readInt_drop (h : off ≤ data.length) : readInt (data.bytes.drop off) =
    if data.length < off + 8 then none
    else some (data.numberAt off, data.bytes.drop (off + 8)) := by
  have hlen : (data.bytes.drop off).length = data.length - off := List.length_drop ..
  rw [readInt, takeN, hlen, List.drop_drop]
  by_cases hroom : data.length < off + 8
  · rw [if_pos hroom, if_neg (by omega)]
    rfl
  · rw [if_neg hroom, if_pos (by omega)]
    rfl

theorem readSized_drop (h : off ≤ data.length) : readSized (data.bytes.drop off) =
    if data.length < off + 8 then none
    else if data.length < off + 8 + data.numberAt off then none
    else some (data.between (off + 8) (off + 8 + data.numberAt off),
      data.bytes.drop (off + 8 + data.numberAt off)) := by
  rw [readSized, readInt_drop h]
  by_cases hroom : data.length < off + 8
  · rw [if_pos hroom, if_pos hroom]
    rfl
  · have hlen : (data.bytes.drop (off + 8)).length = data.length - (off + 8) := List.length_drop ..
    rw [if_neg hroom, if_neg hroom]
    change takeN _ _ = _
    rw [takeN, hlen, List.drop_drop]
    by_cases htrunc : data.length < off + 8 + data.numberAt off
    · rw [if_pos htrunc, if_neg (by omega)]
    · rw [if_neg htrunc, if_pos (by omega), Slice.between, List.drop_take, Nat.add_sub_cancel_left]

/-- A field that reaches past the end has no value, overflow or not. -/
theorem readSized_eq_sizedAt (truncated : Int → Int → ε) (h : off + 8 ≤ data.length) :
    readSized (data.bytes.drop off) =
      (data.sizedAt off truncated).value?.map fun field =>
        (field.1, data.bytes.drop field.2.toNat) := by
  have hlt := data.length_lt
  rw [readSized_drop (by omega), Slice.sizedAt_eq truncated h, if_neg (by omega)]
  by_cases htrunc : data.length < off + 8 + data.numberAt off
  · rw [if_pos htrunc, if_pos htrunc]
    split <;> rfl
  · have hfit : data.Fits off := by
      rw [Slice.Fits]
      omega
    rw [if_neg htrunc, if_neg htrunc, if_neg (not_not.mpr hfit)]
    rfl

/-- A field with a value ends at an offset inside the data. -/
theorem exists_of_sizedAt {truncated : Int → Int → ε} {o : Int} (ho : o = off)
    (h : off + 8 ≤ data.length) (hfield : data.sizedAt o truncated = .ok field) :
    ∃ off' : Nat, field.2 = off' ∧ off' ≤ data.length := by
  subst ho
  rw [Slice.sizedAt_eq truncated h] at hfield
  repeat' split at hfield
  all_goals cases hfield
  exact ⟨_, rfl, by omega⟩

theorem readDataEntry_eq_reader (data : Slice) : Sstable.readDataEntry data.bytes =
    (readDataEntry data).value?.map fun e => ((e.1, e.2.1), data.bytes.drop e.2.2.toNat) := by
  have hreader : Sstable.readDataEntry data.bytes =
      if data.length < 16 then none
      else (readSized data.bytes).bind fun key =>
        (readSized key.2).map fun value => ((key.1, value.1), value.2) := by
    rw [Sstable.readDataEntry]
    refine ite_congr rfl (fun _ => rfl) fun _ => ?_
    cases readSized data.bytes with
    | none => rfl
    | some key =>
      cases hvalue : readSized key.2 with
      | none => simp [hvalue]
      | some value => simp [hvalue]
  rw [hreader, readDataEntry]
  by_cases hshort : data.length < 16
  · rw [if_pos hshort, if_pos hshort]
    rfl
  rw [if_neg hshort, if_neg hshort]
  have hfirst := readSized_eq_sizedAt
    (fun need off => EntryError.keyTruncated need (data.length - off))
    (show 0 + 8 ≤ data.length by omega)
  rw [List.drop_zero, Nat.cast_zero] at hfirst
  rw [hfirst]
  cases hkey : data.sizedAt 0 fun need off => EntryError.keyTruncated need (data.length - off) with
  | panic => rfl
  | error e => rfl
  | ok field =>
    obtain ⟨off, hoff, hle⟩ :=
      exists_of_sizedAt Nat.cast_zero.symm (show 0 + 8 ≤ data.length by omega) hkey
    rw [Checked.value?_ok, Option.map_some, Option.bind_some, Checked.andThen_ok]
    simp only [hoff, wrap_add_eight_gt hle, Int.toNat_natCast]
    by_cases hroom : data.length < off + 8
    · rw [if_pos hroom, readSized_drop hle, if_pos hroom]
      rfl
    · rw [if_neg hroom, readSized_eq_sizedAt
        (fun need off => EntryError.valueTruncated need (data.length - off)) (not_lt.mp hroom)]
      cases data.sizedAt off fun need off => EntryError.valueTruncated need (data.length - off) with
      | panic => rfl
      | error e => rfl
      | ok value => rfl

theorem parseIndexEntry_drop (h : off ≤ data.length) :
    parseIndexEntry (data.bytes.drop off) =
      if data.length < off + 8 + data.numberAt off + 8 then none
      else some (⟨data.between (off + 8) (off + 8 + data.numberAt off),
        data.numberAt (off + 8 + data.numberAt off)⟩,
        data.bytes.drop (off + 8 + data.numberAt off + 8)) := by
  rw [parseIndexEntry, readSized_drop h]
  by_cases htrunc : data.length < off + 8 + data.numberAt off
  · rw [if_pos htrunc, ite_self, if_pos (by omega)]
    rfl
  · rw [if_neg htrunc, if_neg (show ¬ data.length < off + 8 by omega)]
    change (readInt _).bind _ = _
    rw [readInt_drop (not_lt.mp htrunc)]
    split <;> rfl

/-- The rounds from an offset on, and the entries read from there on. -/
theorem loop_parseIndexRound (hoff : off + m = data.length) (hfuel : m < fuel)
    (hrounds : m ≤ rounds) (entries : List IndexRow) :
    (loop (parseIndexRound data) fuel ((off : Int), entries)).bind Checked.value? =
      let read := readAll parseIndexEntry rounds (data.bytes.drop off)
      if read.2.length < 8 then
        some (entries ++ read.1.map fun e => (e.key, wrap e.offset))
      else none := by
  have hlt := data.length_lt
  induction fuel generalizing off m rounds entries with
  | zero => exact absurd hfuel (Nat.not_lt_zero m)
  | succ fuel ih =>
    have hlength : (data.bytes.drop off).length = m := by
      rw [List.length_drop]
      exact Nat.sub_eq_of_eq_add (by rw [← Slice.length]; omega)
    rw [loop, parseIndexRound_eq (by omega)]
    by_cases hnext : data.length < off + 8 + data.numberAt off + 8
    · -- no further entry
      have hread : readAll parseIndexEntry rounds (data.bytes.drop off) =
          ([], data.bytes.drop off) := by
        cases rounds with
        | zero => rfl
        | succ rounds => rw [readAll, parseIndexEntry_drop (by omega), if_pos hnext]
      simp only [hread, hlength, List.map_nil, List.append_nil]
      by_cases hroom : data.length < off + 8
      · rw [if_pos hroom, if_pos (by omega)]
        rfl
      · rw [if_neg hroom, if_neg (show ¬ m < 8 by omega), if_pos hnext]
        by_cases hfit : data.Fits off
        · rw [if_neg (not_not.mpr hfit)]
          by_cases htrunc : data.length < off + 8 + data.numberAt off
          · rw [if_pos htrunc]
            rfl
          · rw [if_neg htrunc]
            rfl
        · rw [if_pos hfit]
          rfl
    · have hfit : data.Fits off := by
        rw [Slice.Fits]
        omega
      obtain ⟨rounds, rfl⟩ : ∃ n, rounds = n + 1 := ⟨rounds - 1, by omega⟩
      rw [if_neg (by omega), if_neg (not_not.mpr hfit), if_neg (by omega), if_neg hnext, readAll,
        parseIndexEntry_drop (by omega), if_neg hnext]
      have hrest : off + 8 + data.numberAt off + 8 + (data.length -
          (off + 8 + data.numberAt off + 8)) = data.length := Nat.add_sub_cancel' (not_lt.mp hnext)
      have hfewer : data.length - (off + 8 + data.numberAt off + 8) < m := by omega
      have hnext := ih hrest (hfewer.trans_le (Nat.le_of_lt_succ hfuel))
        (Nat.le_of_lt_succ (hfewer.trans_le hrounds))
        (entries ++ [(data.between (off + 8) (off + 8 + data.numberAt off),
          wrap (data.numberAt (off + 8 + data.numberAt off)))])
      dsimp only at hnext
      rw [List.append_assoc, List.singleton_append] at hnext
      exact hnext

/-- `parseIndex` without the offsets of blocks, which are read as `int64`. -/
theorem parseIndex_eq_reader (data : Slice) :
    (Sstable.parseIndex data.bytes).map (·.map fun e => (e.key, wrap e.offset)) =
      (parseIndex data).bind Checked.value? := by
  have h := loop_parseIndexRound (Nat.zero_add data.length) (Nat.lt_succ_self _) le_rfl []
  rw [List.drop_zero, Nat.cast_zero] at h
  rw [parseIndex, h, Sstable.parseIndex]
  change Option.map _ (if _ then _ else _) = _
  rw [apply_ite (Option.map _)]
  rfl

/-- An error that says no more than that there is one. -/
def orFail : Option α → Except Unit α
  | none => .error ()
  | some a => .ok a

theorem parseFilterSection_eq_reader (cfg : PrefixConfig) (data : Slice) :
    Sstable.parseFilterSection cfg data.bytes =
      (parseFilterSection (orFail ∘ BloomFilter.deserializeFromByteArray)
        (orFail ∘ PrefixBloomFilter.deserializePrefixBloomFilter cfg) data).value? := by
  have hreader : Sstable.parseFilterSection cfg data.bytes =
      (readSized data.bytes).bind fun first =>
        (BloomFilter.deserializeFromByteArray first.1).bind fun bf =>
          (readSized first.2).bind fun second =>
            (PrefixBloomFilter.deserializePrefixBloomFilter cfg second.1).map fun pbf =>
              (bf, pbf) := by
    rw [Sstable.parseFilterSection]
    simp only [Option.bind_eq_bind, Option.pure_def, Option.map_eq_bind, Function.comp_def]
  rw [hreader, parseFilterSection]
  by_cases hshort : data.length < 8
  · have hfirst : readSized (data.bytes.drop 0) = none := by
      rw [readSized_drop (Nat.zero_le _), if_pos (by omega)]
    rw [List.drop_zero] at hfirst
    rw [if_pos hshort, hfirst]
    rfl
  rw [if_neg hshort]
  have hlen : 0 + 8 ≤ data.length := by omega
  have hfirst := readSized_eq_sizedAt (fun _ _ => FilterError.bloomTruncated (F := Unit)) hlen
  rw [List.drop_zero, Nat.cast_zero] at hfirst
  rw [hfirst]
  cases hbloom : data.sizedAt 0 fun _ _ => FilterError.bloomTruncated (F := Unit) with
  | panic => rfl
  | error e => rfl
  | ok field =>
    obtain ⟨off, hoff, hle⟩ :=
      exists_of_sizedAt Nat.cast_zero.symm (show 0 + 8 ≤ data.length by omega) hbloom
    rw [Checked.value?_ok, Option.map_some, Option.bind_some, Checked.andThen_ok]
    simp only [hoff, wrap_add_eight_gt hle, Int.toNat_natCast, Function.comp_apply]
    cases BloomFilter.deserializeFromByteArray field.1 with
    | none => rfl
    | some bf =>
      rw [Option.bind_some, orFail]
      by_cases hroom : data.length < off + 8
      · rw [readSized_drop hle, if_pos hroom]
        simp only [if_pos hroom]
        rfl
      · rw [readSized_eq_sizedAt (fun _ _ => FilterError.prefixTruncated (F := Unit))
          (not_lt.mp hroom)]
        simp only [if_neg hroom]
        cases data.sizedAt off fun _ _ => FilterError.prefixTruncated (F := Unit) with
        | panic => rfl
        | error e => rfl
        | ok second =>
          rw [Checked.value?_ok, Option.map_some, Option.bind_some, Checked.andThen_ok]
          cases PrefixBloomFilter.deserializePrefixBloomFilter cfg second.1 with
          | none => rfl
          | some pbf => rfl

end ChudDB.Sstable.Parsing
