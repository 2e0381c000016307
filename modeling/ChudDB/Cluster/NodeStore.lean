import ChudDB.Lib.ByteOrder
import ChudDB.Lib.Tiling
import ChudDB.Cluster.RawRepair

/-! # The store of a node

`NodeStore` (`store.go`): the envelopes that a node holds, by key. `Put` and `Delete` write what
they are given; neither looks at what is there. `ScanRawRange` collects the pages of the engine's
inclusive `RangeScan`, of which it is assumed that it returns a page of the sorted pairs. -/

namespace ChudDB.Cluster
open Lib

/-- `versioning.KeyEnvelope`. -/
abbrev KeyEnvelope := Bytes × Envelope

structure NodeStore where
  rows : List KeyEnvelope
  ascending : Ascending rows
deriving DecidableEq

/-- `rawScanPageSize`. -/
def rawScanPageSize : Nat := 1000

/-- `unboundedRangeEnd`. -/
def unboundedRangeEnd : Bytes := List.replicate 64 0xff

/-- Keys of at most 64 bytes are not above `unboundedRangeEnd`. -/
theorem le_unboundedRangeEnd {key : Bytes} (h : key.length ≤ 64) : key ≤ unboundedRangeEnd :=
  le_replicate_255 h

/-- A row of a message; a missing envelope is a nil pointer. -/
abbrev PbRow := Bytes × Option PbEnvelope

/-- `EnvelopeFromProto`, for texts (`fromProto_eq`). -/
def fromProto : Option PbEnvelope → Except EnvelopeError Envelope
  | none => .error .nilEnvelope
  | some p => Envelope.stored
    ⟨p.version, vectorClockFromProto p.vectorClock, p.updatedAtUnixNano, p.deleted, p.value⟩

namespace NodeStore

def empty : NodeStore := ⟨[], .nil⟩

/-- The stored envelope of a key. -/
def get (s : NodeStore) (key : Bytes) : Option Envelope := s.rows.lookup key

def set (s : NodeStore) (key : Bytes) (e : Envelope) : NodeStore :=
  ⟨Lib.put key e s.rows, ascending_put s.ascending⟩

/-- `writeEnvelope`. -/
def writeEnvelope (key : Bytes) (e : Envelope) (s : NodeStore) : Except EnvelopeError NodeStore :=
  e.stored.map (s.set key)

/-- `NodeStore.Put`. -/
def put (key : Bytes) (e : Envelope) (s : NodeStore) : Except EnvelopeError NodeStore :=
  if e.deleted then .error .markedDeleted else s.writeEnvelope key e

/-- `NodeStore.Delete`. -/
def delete (key : Bytes) (e : Envelope) (s : NodeStore) : Except EnvelopeError NodeStore :=
  if !e.deleted then .error .notMarkedDeleted else s.writeEnvelope key e

/-- The choice between the two that `RepairKeys` and `applyPulls` make. -/
def repair (key : Bytes) (e : Envelope) (s : NodeStore) : Except EnvelopeError NodeStore :=
  if e.deleted then s.delete key e else s.put key e

/-- `engine.RangeScan`: a page of the rows from `start` to `end_`, both included. -/
def rangeScan (s : NodeStore) (start end_ : Bytes) (pageNum pageSize : Nat) : List KeyEnvelope :=
  ((s.rows.filter fun row => decide (start ≤ row.1 ∧ row.1 ≤ end_)).drop
    ((pageNum - 1) * pageSize)).take pageSize

/-- The loop of `ScanRawRange` from a page on. Every page but the last is full, so there are fewer
pages than rows. -/
def scanPages (s : NodeStore) (start end_ scanEnd : Bytes) : Nat → Nat → List KeyEnvelope
  | 0, _ => []
  | fuel + 1, page =>
    let batch := s.rangeScan start scanEnd page rawScanPageSize
    let rows := batch.filter fun row => !(end_ ≠ [] ∧ row.1 = end_ : Bool)
    if batch.length < rawScanPageSize then rows
    else rows ++ scanPages s start end_ scanEnd fuel (page + 1)

/-- `ScanRawRange`, with the envelopes for the raw values. -/
def scanRawRange (s : NodeStore) (start end_ : Bytes) : List KeyEnvelope :=
  let scanEnd := if end_ = [] then unboundedRangeEnd else end_
  s.scanPages start end_ scanEnd (s.rows.length + 1) 1

end NodeStore

variable {s s' : NodeStore} {key key' start end_ : Bytes} {e : Envelope}

/-- The range of `ScanRawRange`; an empty end stands for `unboundedRangeEnd`. -/
def Scanned (start end_ key : Bytes) : Prop :=
  HalfOpen start end_ key ∧ (end_ = [] → key ≤ unboundedRangeEnd)

instance : Decidable (Scanned start end_ key) := inferInstanceAs (Decidable (_ ∧ _))

theorem scanned_nil : Scanned start [] key ↔ start ≤ key ∧ key ≤ unboundedRangeEnd := by
  rw [Scanned, HalfOpen, show (⊥ : Bytes) = [] from rfl]
  simp

theorem scanned_iff (hend : end_ ≠ []) : Scanned start end_ key ↔ start ≤ key ∧ key < end_ := by
  rw [Scanned, HalfOpen, show (⊥ : Bytes) = [] from rfl]
  simp [hend]

/-- For texts, `fromProto` is `EnvelopeFromProto`. -/
theorem fromProto_eq {p : PbEnvelope} (hj : json.RoundTrips) (ht : Envelope.Text
    ⟨p.version, vectorClockFromProto p.vectorClock, p.updatedAtUnixNano, p.deleted, p.value⟩) :
    envelopeFromProto json (some p) = fromProto (some p) :=
  Envelope.encode_bind_decode hj ht

theorem fromProto_envelopeToProto : fromProto (some (envelopeToProto e)) = e.received := rfl

namespace NodeStore

theorem get_set : (s.set key e).get key' = if key' = key then some e else s.get key' := by
  rw [get, set, lookup_put s.ascending]
  split
  · rfl
  · rfl

/-- What a write leaves behind. -/
theorem writeEnvelope_eq_ok (h : s.writeEnvelope key e = .ok s') :
    ∃ e', e.stored = .ok e' ∧ s' = s.set key e' := by
  rw [writeEnvelope] at h
  cases hstored : e.stored with
  | error err =>
    rw [hstored] at h
    cases h
  | ok e' =>
    rw [hstored] at h
    cases h
    exact ⟨e', rfl, rfl⟩

theorem put_eq_ok (h : s.put key e = .ok s') : ∃ e', e.stored = .ok e' ∧ s' = s.set key e' := by
  rw [put] at h
  split at h
  · cases h
  · exact writeEnvelope_eq_ok h

theorem delete_eq_ok (h : s.delete key e = .ok s') :
    ∃ e', e.stored = .ok e' ∧ s' = s.set key e' := by
  rw [delete] at h
  split at h
  · cases h
  · exact writeEnvelope_eq_ok h

theorem repair_eq (s : NodeStore) (key : Bytes) (e : Envelope) :
    s.repair key e = s.writeEnvelope key e := by
  rw [repair, delete, put]
  cases e.deleted <;> rfl

theorem clock_of_writeEnvelope (h : s.writeEnvelope key e = .ok s') :
    ∃ e', e'.vectorClock = e.vectorClock ∧ s' = s.set key e' := by
  obtain ⟨e', hstored, hs'⟩ := writeEnvelope_eq_ok h
  exact ⟨e', Envelope.vectorClock_of_stored hstored, hs'⟩

/-! ## Scans -/

/-- The pages from one on are what is left of the rows, without the row at the end of the range. -/
theorem scanPages_eq (s : NodeStore) (start end_ scanEnd : Bytes) (fuel page : Nat)
    (h : ((s.rows.filter fun row => decide (start ≤ row.1 ∧ row.1 ≤ scanEnd)).drop
      ((page + 1 - 1) * rawScanPageSize)).length < fuel) :
    s.scanPages start end_ scanEnd fuel (page + 1) =
      ((s.rows.filter fun row => decide (start ≤ row.1 ∧ row.1 ≤ scanEnd)).drop
        ((page + 1 - 1) * rawScanPageSize)).filter
          fun row => !(end_ ≠ [] ∧ row.1 = end_ : Bool) := by
  induction fuel generalizing page with
  | zero => exact absurd h (Nat.not_lt_zero _)
  | succ fuel ih =>
    generalize hall : s.rows.filter (fun row => decide (start ≤ row.1 ∧ row.1 ≤ scanEnd)) = all
      at h ih ⊢
    rw [scanPages, rangeScan, hall]
    split
    · rename_i hshort
      rw [List.length_take] at hshort
      rw [List.take_of_length_le (by omega)]
    · rename_i hfull
      rw [List.length_take] at hfull
      have hsize : 0 < rawScanPageSize := by decide
      have hnext : (page + 1 + 1 - 1) * rawScanPageSize =
          (page + 1 - 1) * rawScanPageSize + rawScanPageSize := Nat.succ_mul ..
      have hshorter : (all.drop ((page + 1 + 1 - 1) * rawScanPageSize)).length < fuel := by
        rw [hnext, ← List.drop_drop, List.length_drop]
        omega
      rw [ih (page + 1) hshorter, hnext, ← List.drop_drop, ← List.filter_append,
        List.take_append_drop]

/-- `ScanRawRange` returns the rows of the range, in the order of their keys. -/
theorem scanRawRange_eq (s : NodeStore) (start end_ : Bytes) :
    s.scanRawRange start end_ = s.rows.filter fun row => decide (Scanned start end_ row.1) := by
  rw [scanRawRange, scanPages_eq]
  · rw [Nat.add_sub_cancel, Nat.zero_mul, List.drop_zero, List.filter_filter]
    refine List.filter_congr fun row _ => ?_
    by_cases hend : end_ = []
    · simp [scanned_nil, hend]
    · simp only [scanned_iff hend, hend, lt_iff_le_and_ne, if_false, ne_eq, not_false_eq_true,
        true_and, Bool.decide_and, decide_not]
      rw [Bool.and_comm, Bool.and_assoc]
  · rw [List.length_drop]
    exact Nat.lt_succ_of_le ((Nat.sub_le ..).trans (List.length_filter_le ..))

theorem ascending_scanRawRange : Ascending (s.scanRawRange start end_) := by
  rw [scanRawRange_eq]
  exact s.ascending.sublist List.filter_sublist

theorem lookup_scanRawRange :
    (s.scanRawRange start end_).lookup key = if Scanned start end_ key then s.get key else none := by
  rw [scanRawRange_eq, @lookup_filter_fst _ _ key _ _ _ fun k => decide (Scanned start end_ k)]
  exact if_congr decide_eq_true_iff rfl rfl

end NodeStore

end ChudDB.Cluster
