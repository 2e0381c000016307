import ChudDB.Cluster.VectorClock

/-! # Envelopes

`Envelope` (`envelope.go`) and its conversions to and from protocol messages (`convert.go`). The
JSON encoder is a parameter: it is given a map and not the order of its entries, and
`Json.RoundTrips` says that it reads back what it wrote, for strings that are valid UTF-8. -/

namespace ChudDB.Cluster
open Lib

structure Envelope where
  version : Int
  vectorClock : VectorClock
  updatedAtUnixNano : Int
  deleted : Bool
  value : Bytes
deriving DecidableEq

inductive EnvelopeError where
  | unsupportedVersion (version : Int)
  | updatedAtNotSet
  | missingMagicPrefix
  | invalidJson
  | nilEnvelope
  | markedDeleted
  | notMarkedDeleted
deriving DecidableEq, Repr

/-- `encoding/json` on the envelope struct. -/
structure Json where
  marshal : Envelope → Bytes
  unmarshal : Bytes → Option Envelope

/-- `pb.Envelope`; a missing clock is a nil pointer. -/
structure PbEnvelope where
  version : Int
  vectorClock : Option (List (NodeID × Counter))
  updatedAtUnixNano : Int
  deleted : Bool
  value : Bytes
deriving DecidableEq

/-- `EnvelopeVersion`. -/
def envelopeVersion : Int := 1

/-- `MagicPrefix`, the text `NOSQLCLUSTER1:`. -/
def magicPrefix : Bytes := [78, 79, 83, 81, 76, 67, 76, 85, 83, 84, 69, 82, 49, 58]

/-- `NewPut`. -/
def newPut (clock : VectorClock) (value : Bytes) (now : Int) : Envelope :=
  ⟨envelopeVersion, clock, now, false, value⟩

/-- `NewDelete`. -/
def newDelete (clock : VectorClock) (now : Int) : Envelope :=
  ⟨envelopeVersion, clock, now, true, []⟩

namespace Envelope

/-- `normalize`; a nil map is an empty clock here. -/
def normalize (e : Envelope) : Envelope := { e with value := if e.deleted then [] else e.value }

/-- `validate`. -/
def validate (e : Envelope) : Except EnvelopeError Unit :=
  if e.version ≠ envelopeVersion then .error (.unsupportedVersion e.version)
  else if e.updatedAtUnixNano = 0 then .error .updatedAtNotSet
  else .ok ()

/-- `Encode`. -/
def encode (json : Json) (e : Envelope) : Except EnvelopeError Bytes := do
  let e := e.normalize
  e.validate
  return magicPrefix ++ json.marshal e

/-- `Decode`. -/
def decode (json : Json) (raw : Bytes) : Except EnvelopeError Envelope :=
  if !magicPrefix.isPrefixOf raw then .error .missingMagicPrefix
  else match json.unmarshal (raw.drop magicPrefix.length) with
    | none => .error .invalidJson
    | some e => do
      let e := e.normalize
      e.validate
      return e

end Envelope

/-! ## Messages -/

/-- `VectorClockToProto`. -/
def vectorClockToProto (clock : VectorClock) : Option (List (NodeID × Counter)) := some clock.entries

/-- `VectorClockFromProto`; entries without a node ID are dropped. -/
def vectorClockFromProto : Option (List (NodeID × Counter)) → VectorClock
  | none => .empty
  | some entries => entries.foldl (fun out e => if e.1 = [] then out else out.set e.1 e.2) .empty

/-- `EnvelopeToProto`; the version becomes an `int32`. -/
def envelopeToProto (e : Envelope) : PbEnvelope where
  version := e.version.bmod (2 ^ 32)
  vectorClock := vectorClockToProto e.vectorClock
  updatedAtUnixNano := e.updatedAtUnixNano
  deleted := e.deleted
  value := e.value

/-- `EnvelopeFromProto`. -/
def envelopeFromProto (json : Json) : Option PbEnvelope → Except EnvelopeError Envelope
  | none => .error .nilEnvelope
  | some p => do
    let out : Envelope := ⟨p.version, vectorClockFromProto p.vectorClock, p.updatedAtUnixNano,
      p.deleted, p.value⟩
    let encoded ← out.encode json
    Envelope.decode json encoded

/-! ## Storing -/

/-- `NodeStore.Put` and `NodeStore.Delete` up to the write to the engine: the raw value. -/
def storePut (json : Json) (e : Envelope) : Except EnvelopeError Bytes :=
  if e.deleted then .error .markedDeleted else e.encode json

def storeDelete (json : Json) (e : Envelope) : Except EnvelopeError Bytes :=
  if !e.deleted then .error .notMarkedDeleted else e.encode json

/-- The choice between the two that `RepairKeys` and `applyPulls` make. -/
def storeRepair (json : Json) (e : Envelope) : Except EnvelopeError Bytes :=
  if e.deleted then storeDelete json e else storePut json e

/-! ## Round trips -/

/-- A byte string is valid UTF-8. -/
def ValidUtf8 (b : Bytes) : Prop := ∃ s : List Char, b = s.flatMap String.utf8EncodeChar

instance (b : Bytes) : Decidable (ValidUtf8 b) :=
  decidable_of_iff ((ByteArray.mk b.toArray).validateUTF8 = true) <| by
    rw [ByteArray.validateUTF8_eq_true_iff]
    constructor
    · rintro ⟨s, hs⟩
      exact ⟨s, by simpa [List.utf8Encode] using congrArg (·.data.toList) hs⟩
    · rintro ⟨s, rfl⟩
      exact ⟨s, ByteArray.ext (by simp [List.utf8Encode])⟩

/-- The strings of an envelope are valid UTF-8. -/
structure Envelope.Text (e : Envelope) : Prop where
  value : ValidUtf8 e.value
  clock : ∀ entry ∈ e.vectorClock.entries, ValidUtf8 entry.1

instance (e : Envelope) : Decidable e.Text :=
  decidable_of_iff (ValidUtf8 e.value ∧ ∀ entry ∈ e.vectorClock.entries, ValidUtf8 entry.1)
    ⟨fun h => ⟨h.1, h.2⟩, fun h => ⟨h.value, h.clock⟩⟩

/-- What is assumed of `encoding/json`. -/
def Json.RoundTrips (json : Json) : Prop :=
  ∀ e : Envelope, e.Text → json.unmarshal (json.marshal e) = some e

theorem Envelope.Text.normalize {e : Envelope} (h : e.Text) : e.normalize.Text := by
  refine ⟨?_, h.clock⟩
  rw [Envelope.normalize]
  split
  · exact ⟨[], rfl⟩
  · exact h.value

@[simp] theorem Envelope.normalize_normalize (e : Envelope) : e.normalize.normalize = e.normalize := by
  rw [Envelope.normalize, Envelope.normalize]
  cases e.deleted <;> rfl

theorem Envelope.encode_eq_ok_iff {e : Envelope} : e.encode json = .ok raw ↔
    e.normalize.validate = .ok () ∧ raw = magicPrefix ++ json.marshal e.normalize := by
  rw [Envelope.encode]
  cases e.normalize.validate with
  | error err => simp [bind, Except.bind]
  | ok => simp [bind, Except.bind, pure, Except.pure, eq_comm]

theorem version_of_validate {e : Envelope} (h : e.validate = .ok ()) :
    e.version = envelopeVersion := by
  rw [Envelope.validate] at h
  split at h
  · cases h
  · exact not_not.mp ‹_›

/-- What is written is read back, normalized. -/
theorem Envelope.decode_encode {e : Envelope} (hj : json.RoundTrips) (ht : e.Text)
    (h : e.encode json = .ok raw) : Envelope.decode json raw = .ok e.normalize := by
  obtain ⟨hvalid, rfl⟩ := Envelope.encode_eq_ok_iff.mp h
  rw [Envelope.decode, List.isPrefixOf_iff_prefix.mpr (List.prefix_append _ _), List.drop_left,
    hj _ ht.normalize]
  simp [hvalid, bind, Except.bind, pure, Except.pure]

theorem VectorClock.ext_entries {a b : VectorClock} (h : a.entries = b.entries) : a = b := by
  cases a
  cases b
  congr

/-- No entry of the clock has an empty node ID. -/
def VectorClock.NoEmptyID (clock : VectorClock) : Prop := ∀ entry ∈ clock.entries, entry.1 ≠ []

theorem VectorClock.NoEmptyID.set {clock : VectorClock} (h : clock.NoEmptyID) {nodeID : NodeID}
    (hid : nodeID ≠ []) : (clock.set nodeID n).NoEmptyID := by
  intro entry hentry
  rcases mem_of_mem_put hentry with rfl | hentry
  · exact hid
  · exact h entry hentry

theorem VectorClock.NoEmptyID.merge {a b : VectorClock} (ha : a.NoEmptyID) (hb : b.NoEmptyID) :
    (a.merge b).NoEmptyID := by
  rw [VectorClock.merge]
  refine List.foldlRecOn b.entries _ ha fun merged h entry hentry => ?_
  split
  · exact h.set (hb entry hentry)
  · exact h

/-- A clock that comes from a message has no empty node ID. -/
theorem noEmptyID_vectorClockFromProto (p : Option (List (NodeID × Counter))) :
    (vectorClockFromProto p).NoEmptyID := by
  cases p with
  | none => exact nofun
  | some entries =>
    refine List.foldlRecOn entries _ nofun fun out h entry _ => ?_
    split
    · exact h
    · rename_i hid
      exact h.set hid

/-- The entries of a clock are set one after another, each behind the others. -/
theorem entries_foldl_set {l : List (NodeID × Counter)} (hid : ∀ entry ∈ l, entry.1 ≠ [])
    (clock : VectorClock) (hs : Ascending (clock.entries ++ l)) :
    (l.foldl (fun out e => if e.1 = [] then out else out.set e.1 e.2) clock).entries =
      clock.entries ++ l := by
  induction l generalizing clock with
  | nil => exact (List.append_nil _).symm
  | cons e l ih =>
    have hset : (clock.set e.1 e.2).entries = clock.entries ++ [e] := by
      have hlt := (ascending_append.mp hs).2.2
      have hput : put e.1 e.2 (clock.entries ++ []) = clock.entries ++ (e.1, e.2) :: [] :=
        put_append (fun e' he' => hlt e' he' e List.mem_cons_self) nofun
      rwa [List.append_nil] at hput
    rw [List.foldl_cons, if_neg (hid e List.mem_cons_self),
      ih (fun e' he' => hid e' (List.mem_cons_of_mem _ he')), hset, List.append_assoc,
      List.singleton_append]
    rw [hset, List.append_assoc, List.singleton_append]
    exact hs

/-- A clock without an empty node ID passes through a message. -/
theorem vectorClockFromProto_toProto {clock : VectorClock} (h : clock.NoEmptyID) :
    vectorClockFromProto (vectorClockToProto clock) = clock :=
  VectorClock.ext_entries (entries_foldl_set h .empty clock.ascending)

/-- A valid envelope passes through a message, normalized. -/
theorem envelopeFromProto_toProto {e : Envelope} (hj : json.RoundTrips) (ht : e.Text)
    (hid : e.vectorClock.NoEmptyID) (hvalid : e.normalize.validate = .ok ()) :
    envelopeFromProto json (some (envelopeToProto e)) = .ok e.normalize := by
  have hversion : e.version = envelopeVersion := by
    rw [Envelope.validate] at hvalid
    split at hvalid
    · cases hvalid
    · rename_i h
      exact not_not.mp h
  have hout : (⟨e.version.bmod (2 ^ 32), vectorClockFromProto (vectorClockToProto e.vectorClock),
      e.updatedAtUnixNano, e.deleted, e.value⟩ : Envelope) = e := by
    rw [vectorClockFromProto_toProto hid, hversion]
    cases e
    simp only at hversion
    rw [hversion]
    rfl
  have hencode : e.encode json = .ok _ := Envelope.encode_eq_ok_iff.mpr ⟨hvalid, rfl⟩
  rw [envelopeFromProto]
  simp only [envelopeToProto, hout, hencode]
  exact Envelope.decode_encode hj ht hencode

/-! ## What is stored and what is received -/

/-- What a store holds after `writeEnvelope`. -/
def Envelope.stored (e : Envelope) : Except EnvelopeError Envelope := do
  e.normalize.validate
  return e.normalize

/-- What arrives of an envelope that is sent in a message. -/
def Envelope.received (e : Envelope) : Except EnvelopeError Envelope :=
  Envelope.stored { e with
    version := e.version.bmod (2 ^ 32)
    vectorClock := vectorClockFromProto (vectorClockToProto e.vectorClock) }

theorem Envelope.stored_eq_ok_iff {e e' : Envelope} : e.stored = .ok e' ↔
    e.normalize.validate = .ok () ∧ e' = e.normalize := by
  rw [Envelope.stored]
  cases e.normalize.validate with
  | error err => simp [bind, Except.bind]
  | ok => simp [bind, Except.bind, pure, Except.pure, eq_comm]

/-- Storing is encoding, and reading is decoding. -/
theorem Envelope.encode_bind_decode {e : Envelope} (hj : json.RoundTrips) (ht : e.Text) :
    (e.encode json >>= Envelope.decode json) = e.stored := by
  cases hvalid : e.normalize.validate with
  | error err => simp [Envelope.encode, Envelope.stored, hvalid, bind, Except.bind]
  | ok =>
    have hencode : e.encode json = .ok _ := Envelope.encode_eq_ok_iff.mpr ⟨hvalid, rfl⟩
    rw [Envelope.stored_eq_ok_iff.mpr ⟨hvalid, rfl⟩, hencode]
    exact Envelope.decode_encode hj ht hencode

theorem Envelope.vectorClock_of_stored {e e' : Envelope} (h : e.stored = .ok e') :
    e'.vectorClock = e.vectorClock := by
  rw [(Envelope.stored_eq_ok_iff.mp h).2]
  rfl

theorem Envelope.vectorClock_of_received {e e' : Envelope} (hid : e.vectorClock.NoEmptyID)
    (h : e.received = .ok e') : e'.vectorClock = e.vectorClock :=
  (Envelope.vectorClock_of_stored h).trans (vectorClockFromProto_toProto hid)

end ChudDB.Cluster
