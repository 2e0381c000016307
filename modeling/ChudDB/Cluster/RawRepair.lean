import ChudDB.Cluster.Envelope
import ChudDB.Cluster.MerkleRoot

/-! # Repair of stored bytes

The Merkle root (`roothash.go`) is taken over the raw values, and a repair moves decoded envelopes:
`StreamRange` and `applyPulls` on the way in, `localRows` and `RepairKeys` on the way out. Both end
with the same bytes on the other side (`repair_stores_same_bytes`). -/

namespace ChudDB.Cluster
open Lib

/-! ## The two repair paths -/

section
variable (json : Json)

/-- A row of `Server.StreamRange`. -/
def streamRow (raw : Bytes) : Except EnvelopeError PbEnvelope := do
  return envelopeToProto (← Envelope.decode json raw)

/-- The same row in `Client.StreamRange`. -/
def receiveRow (row : PbEnvelope) : Except EnvelopeError Envelope := envelopeFromProto json (some row)

/-- A row of `localRows`. -/
def localRow (raw : Bytes) : Except EnvelopeError Envelope := Envelope.decode json raw

/-- What `Server.RepairKeys` stores for a row. -/
def repairKey (row : PbEnvelope) : Except EnvelopeError Bytes := do
  storeRepair json (← envelopeFromProto json (some row))

/-- A raw value of the peer that is pulled; `applyPulls` stores it. -/
def pulled (raw : Bytes) : Except EnvelopeError Bytes := do
  storeRepair json (← receiveRow json (← streamRow json raw))

/-- A raw value that is pushed to the peer. -/
def pushed (raw : Bytes) : Except EnvelopeError Bytes := do
  repairKey json (envelopeToProto (← localRow json raw))

end

variable {json : Json} {e : Envelope}

theorem storeRepair_eq_encode (e : Envelope) : storeRepair json e = e.encode json := by
  rw [storeRepair, storeDelete, storePut]
  cases e.deleted <;> rfl

/-- What is stored decodes to a valid normalized envelope, and that passes through a message. -/
theorem envelopeFromProto_stored (hj : json.RoundTrips) (ht : e.Text)
    (hid : e.vectorClock.NoEmptyID) (h : e.encode json = .ok raw) :
    Envelope.decode json raw = .ok e.normalize ∧
      envelopeFromProto json (some (envelopeToProto e.normalize)) = .ok e.normalize := by
  obtain ⟨hvalid, -⟩ := Envelope.encode_eq_ok_iff.mp h
  refine ⟨Envelope.decode_encode hj ht h, ?_⟩
  have := envelopeFromProto_toProto hj ht.normalize hid
    ((Envelope.normalize_normalize e).symm ▸ hvalid)
  rwa [Envelope.normalize_normalize] at this

/-- Either repair path makes the peer store the same bytes, and with them the Merkle roots agree. -/
theorem repair_stores_same_bytes (hj : json.RoundTrips) (ht : e.Text)
    (hid : e.vectorClock.NoEmptyID) (h : e.encode json = .ok raw) :
    pulled json raw = .ok raw ∧ pushed json raw = .ok raw ∧
      ∀ digest key before after raw', pulled json raw = .ok raw' ∨ pushed json raw = .ok raw' →
        computeMerkleRoot digest (before ++ (key, raw') :: after) =
          computeMerkleRoot digest (before ++ (key, raw) :: after) := by
  obtain ⟨hdecode, hreceive⟩ := envelopeFromProto_stored hj ht hid h
  have hstore : storeRepair json e.normalize = .ok raw := by
    obtain ⟨hvalid, rfl⟩ := Envelope.encode_eq_ok_iff.mp h
    rw [storeRepair_eq_encode, Envelope.encode_eq_ok_iff, Envelope.normalize_normalize]
    exact ⟨hvalid, rfl⟩
  have hpulled : pulled json raw = .ok raw := by
    simp [pulled, streamRow, receiveRow, hdecode, hreceive, hstore, bind, Except.bind,
      pure, Except.pure]
  have hpushed : pushed json raw = .ok raw := by
    simp [pushed, localRow, repairKey, hdecode, hreceive, hstore, bind, Except.bind]
  refine ⟨hpulled, hpushed, ?_⟩
  intro digest key before after raw' hraw
  have : raw' = raw := by
    rcases hraw with hraw | hraw
    · rw [hpulled] at hraw
      exact (Except.ok.inj hraw).symm
    · rw [hpushed] at hraw
      exact (Except.ok.inj hraw).symm
  rw [this]

/-! ## An encoder -/

/-- The parts of an envelope as numbers. -/
def Envelope.parts (e : Envelope) : Int × List (List Nat × Nat) × Int × Bool × List Nat :=
  (e.version, e.vectorClock.entries.map (fun entry => (entry.1.map UInt8.toNat, entry.2.val)),
    e.updatedAtUnixNano, e.deleted, e.value.map UInt8.toNat)

theorem Envelope.parts_injective : Function.Injective Envelope.parts := by
  intro e e' h
  have hbytes : Function.Injective (List.map UInt8.toNat) :=
    List.map_injective_iff.mpr fun _ _ => UInt8.toNat_inj.mp
  obtain ⟨hversion, hclock, htime, hdeleted, hvalue⟩ :
      e.version = e'.version ∧ _ ∧ e.updatedAtUnixNano = e'.updatedAtUnixNano ∧
        e.deleted = e'.deleted ∧ e.value.map UInt8.toNat = e'.value.map UInt8.toNat := by
    simpa only [Envelope.parts, Prod.mk.injEq] using h
  have hentries : e.vectorClock.entries = e'.vectorClock.entries := by
    refine List.map_injective_iff.mpr ?_ hclock
    intro a b hab
    obtain ⟨hid, hcount⟩ := Prod.mk.inj hab
    exact Prod.ext (hbytes hid) (Fin.ext hcount)
  cases e
  cases e'
  simp only at hversion htime hdeleted hvalue hentries
  rw [hversion, VectorClock.ext_entries hentries, htime, hdeleted, hbytes hvalue]

noncomputable instance : Encodable Envelope := Encodable.ofInj Envelope.parts Envelope.parts_injective

/-- A put by node `n`. -/
def onePut : Envelope := newPut (VectorClock.empty.increment [110]) [118] 1

/-- What `json.Marshal` returns for it. -/
def onePutText : Bytes :=
  ("\x7b\"version\":1,\"vector_clock\":\x7b\"n\":1\x7d,\"updated_at_unix_nano\":1," ++
    "\"deleted\":false,\"value\":\"v\"\x7d").toByteArray.data.toList

theorem text_onePut : onePut.Text := by decide +kernel

theorem noEmptyID_onePut : onePut.vectorClock.NoEmptyID := by
  intro entry hentry
  rw [show entry = ([110], 1) from List.mem_singleton.mp hentry]
  exact List.cons_ne_nil _ _

/-- An encoder with the right text for one envelope; the others are written as their numbers. -/
noncomputable def sampleJson : Json where
  marshal e := if e = onePut then onePutText
    else List.replicate (onePutText.length + 1 + Encodable.encode e) 0
  unmarshal b := if b = onePutText then some onePut
    else Encodable.decode (b.length - (onePutText.length + 1))

theorem sampleJson_onePut : sampleJson.marshal onePut = onePutText := by
  simp [sampleJson]

theorem sampleJson_roundTrips : sampleJson.RoundTrips := by
  intro e _
  by_cases he : e = onePut
  · simp [sampleJson, he]
  · have hne : List.replicate (onePutText.length + 1 + Encodable.encode e) 0 ≠ onePutText := by
      intro h
      have hlength := congrArg List.length h
      rw [List.length_replicate] at hlength
      omega
    simp only [sampleJson, if_neg he, if_neg hne, List.length_replicate, Nat.add_sub_cancel_left,
      Encodable.encodek]

theorem repair_stores_same_bytes_onePut :
    ∃ raw, onePut.encode sampleJson = .ok raw ∧ pulled sampleJson raw = .ok raw ∧
      pushed sampleJson raw = .ok raw := by
  have hencode : onePut.encode sampleJson = .ok _ := Envelope.encode_eq_ok_iff.mpr ⟨rfl, rfl⟩
  obtain ⟨hpulled, hpushed, -⟩ :=
    repair_stores_same_bytes sampleJson_roundTrips text_onePut noEmptyID_onePut hencode
  exact ⟨_, hencode, hpulled, hpushed⟩

end ChudDB.Cluster
