import ChudDB.Cluster.RepairRound

/-! # The repair handler

`Server.RepairKeys` (`server.go`) of the anti-entropy service. The ownership of all rows is checked
before the first write. The envelopes are decoded one by one while the rows are written, so a row
without a valid envelope leaves what stands in front of it in the store
(`repairKeys_unchanged_iff`). -/

namespace ChudDB.Cluster
open Lib

/-- `ctx.Err()`. -/
inductive ContextError where
  | canceled
  | deadlineExceeded
deriving DecidableEq, Repr

/-- The errors of `RepairKeys`: a context that is done, `FailedPrecondition`, `InvalidArgument` and
`Internal`. -/
inductive RepairKeysError where
  | context (err : ContextError)
  | notOwned (key : Bytes)
  | invalidEnvelope (key : Bytes) (err : EnvelopeError)
  | applyRepair (key : Bytes) (err : EnvelopeError)
deriving DecidableEq, Repr

/-- `Server`, with the answers of `IsOwner`. -/
structure RepairServer where
  json : Json
  isOwner : Bytes → Bool

namespace RepairServer
variable (srv : RepairServer)

/-- The second loop of `RepairKeys`. -/
def applyRows : List PbRow → NodeStore → Option RepairKeysError × NodeStore
  | [], s => (none, s)
  | row :: rows, s =>
    match envelopeFromProto srv.json row.2 with
    | .error err => (some (.invalidEnvelope row.1 err), s)
    | .ok envelope =>
      match s.repair row.1 envelope with
      | .error err => (some (.applyRepair row.1 err), s)
      | .ok s => applyRows rows s

/-- `RepairKeys`: the error, if there is one, and the store afterwards. -/
def repairKeys (ctxErr : Option ContextError) (rows : List PbRow) (s : NodeStore) :
    Option RepairKeysError × NodeStore :=
  match ctxErr with
  | some err => (some (.context err), s)
  | none =>
    match rows.find? fun row => !srv.isOwner row.1 with
    | some row => (some (.notOwned row.1), s)
    | none => srv.applyRows rows s

/-- The rows in front of the first one with a missing or invalid envelope, as they are written. -/
def accepted : List PbRow → List KeyEnvelope
  | [] => []
  | row :: rows =>
    match envelopeFromProto srv.json row.2 with
    | .error _ => []
    | .ok envelope => (row.1, envelope) :: accepted rows

end RepairServer

/-- What comes out of a message is stored as it is. -/
theorem stored_of_envelopeFromProto {p : Option PbEnvelope} {e : Envelope}
    (h : envelopeFromProto json p = .ok e) : e.stored = .ok e := by
  have hdecode : ∃ raw, Envelope.decode json raw = .ok e := by
    cases p with
    | none => cases h
    | some p =>
      rw [envelopeFromProto] at h
      cases hencode : Envelope.encode json ⟨p.version, vectorClockFromProto p.vectorClock,
          p.updatedAtUnixNano, p.deleted, p.value⟩ with
      | error err =>
        rw [hencode] at h
        cases h
      | ok raw =>
        rw [hencode] at h
        exact ⟨raw, h⟩
  obtain ⟨raw, hraw⟩ := hdecode
  rw [Envelope.decode] at hraw
  split at hraw
  · cases hraw
  cases hjson : json.unmarshal (raw.drop magicPrefix.length) with
  | none =>
    rw [hjson] at hraw
    cases hraw
  | some e' =>
    rw [hjson] at hraw
    have hstored : e'.stored = .ok e := hraw
    obtain ⟨hvalid, rfl⟩ := Envelope.stored_eq_ok_iff.mp hstored
    exact Envelope.stored_eq_ok_iff.mpr ⟨by rwa [Envelope.normalize_normalize], by simp⟩

namespace NodeStore

theorem ext_get {s s' : NodeStore} (h : ∀ key, s.get key = s'.get key) : s = s' := by
  obtain ⟨rows, hrows⟩ := s
  obtain ⟨rows', hrows'⟩ := s'
  congr
  exact hrows.ext hrows' h

theorem setAll_eq_self_iff {s : NodeStore} {rows : List KeyEnvelope} :
    s.setAll rows = s ↔ ∀ key e, rows.reverse.lookup key = some e → s.get key = some e := by
  constructor
  · intro h key e he
    rw [← h, get_setAll, he]
    rfl
  · intro h
    refine ext_get fun key => ?_
    rw [get_setAll]
    cases he : rows.reverse.lookup key with
    | none => rfl
    | some e => exact (h key e he).symm

end NodeStore

namespace RepairServer
variable {srv : RepairServer} {row : PbRow} {rows : List PbRow} {s : NodeStore}

theorem applyRows_cons_error (h : envelopeFromProto srv.json row.2 = .error err) :
    srv.applyRows (row :: rows) s = (some (.invalidEnvelope row.1 err), s) := by
  rw [applyRows, h]

theorem applyRows_cons_ok (h : envelopeFromProto srv.json row.2 = .ok envelope) :
    srv.applyRows (row :: rows) s = srv.applyRows rows (s.set row.1 envelope) := by
  rw [applyRows, h]
  dsimp only
  rw [NodeStore.repair_of_stored (stored_of_envelopeFromProto h)]

/-- The loop writes the rows in front of the first bad one. -/
theorem applyRows_store : (srv.applyRows rows s).2 = s.setAll (srv.accepted rows) := by
  induction rows generalizing s with
  | nil => rfl
  | cons row rows ih =>
    rw [accepted]
    cases he : envelopeFromProto srv.json row.2 with
    | error err =>
      rw [applyRows_cons_error he]
      rfl
    | ok envelope =>
      rw [applyRows_cons_ok he]
      exact ih

theorem applyRows_error_iff : (srv.applyRows rows s).1 ≠ none ↔
    ∃ row ∈ rows, ∃ err, envelopeFromProto srv.json row.2 = .error err := by
  induction rows generalizing s with
  | nil => simp [applyRows]
  | cons row rows ih =>
    rw [List.exists_mem_cons_iff]
    cases he : envelopeFromProto srv.json row.2 with
    | error err => simp [applyRows_cons_error he]
    | ok envelope =>
      rw [applyRows_cons_ok he, ih]
      simp

/-- A failed request leaves the store unchanged exactly if nothing had been written before the
error: the context was done, or a key is not owned, or what stands in front of the first bad row is
in the store already. -/
theorem repairKeys_unchanged_iff (srv : RepairServer) (ctxErr : Option ContextError)
    (rows : List PbRow) (s : NodeStore) :
    ((srv.repairKeys ctxErr rows s).1 ≠ none → (srv.repairKeys ctxErr rows s).2 = s) ↔
      ctxErr ≠ none ∨ (∃ row ∈ rows, srv.isOwner row.1 = false) ∨
      (∀ row ∈ rows, ∃ e, envelopeFromProto srv.json row.2 = .ok e) ∨
      ∀ key e, (srv.accepted rows).reverse.lookup key = some e → s.get key = some e := by
  cases ctxErr with
  | some err => simp [repairKeys]
  | none =>
    cases hfind : rows.find? fun row => !srv.isOwner row.1 with
    | some row =>
      have hrow : row ∈ rows ∧ srv.isOwner row.1 = false :=
        ⟨List.mem_of_find?_eq_some hfind, by simpa using List.find?_some hfind⟩
      have hunowned : ∃ row ∈ rows, srv.isOwner row.1 = false := ⟨row, hrow⟩
      have hkeep : (srv.repairKeys none rows s).2 = s := by rw [repairKeys, hfind]
      exact ⟨fun _ => .inr (.inl hunowned), fun _ _ => hkeep⟩
    | none =>
      have howned : ¬ ∃ row ∈ rows, srv.isOwner row.1 = false := by
        rintro ⟨row, hrow, hnot⟩
        exact List.find?_eq_none.mp hfind row hrow (by simp [hnot])
      have hgood : (∀ row ∈ rows, ∃ e, envelopeFromProto srv.json row.2 = .ok e) ↔
          ¬ (srv.applyRows rows s).1 ≠ none := by
        rw [applyRows_error_iff]
        push Not
        refine forall₂_congr fun row _ => ?_
        cases envelopeFromProto srv.json row.2 <;> simp
      simp only [repairKeys, hfind, howned, hgood, ne_eq, not_true_eq_false, false_or,
        applyRows_store, NodeStore.setAll_eq_self_iff]
      tauto

/-- A good row in front of one without an envelope stays in the store. -/
theorem repairKeys_leaves_prefix :
    let srv : RepairServer := ⟨sampleJson, fun _ => true⟩
    srv.repairKeys none [([107], some (envelopeToProto onePut)), ([108], none)] .empty =
        (some (.invalidEnvelope [108] .nilEnvelope), NodeStore.empty.set [107] onePut) ∧
      NodeStore.empty.set [107] onePut ≠ .empty := by
  intro srv
  have henvelope : envelopeFromProto sampleJson (some (envelopeToProto onePut)) = .ok onePut :=
    envelopeFromProto_toProto sampleJson_roundTrips text_onePut noEmptyID_onePut rfl
  constructor
  · let good : PbRow := ([107], some (envelopeToProto onePut))
    let bad : PbRow := ([108], none)
    have hgood : envelopeFromProto srv.json good.2 = .ok onePut := henvelope
    have hbad : envelopeFromProto srv.json bad.2 = .error .nilEnvelope := rfl
    change srv.applyRows [good, bad] .empty = _
    rw [applyRows_cons_ok hgood, applyRows_cons_error hbad]
  · intro h
    cases congrArg NodeStore.rows h

end RepairServer

/-- The handler as it stands in a repair round, where the texts of the rows are valid. -/
theorem RepairScheduler.repairKeys_eq {c : RepairScheduler} (hj : c.json.RoundTrips)
    {rows : List PbRow} (hrows : ∀ row ∈ rows, ∀ p ∈ row.2, Envelope.Text
      ⟨p.version, vectorClockFromProto p.vectorClock, p.updatedAtUnixNano, p.deleted, p.value⟩)
    (s : NodeStore) :
    let srv : RepairServer := ⟨c.json, c.isOwner c.peerID⟩
    c.repairKeys rows s =
      ((srv.repairKeys none rows s).1.isNone, (srv.repairKeys none rows s).2) := by
  intro srv
  have hfrom : ∀ row ∈ rows, envelopeFromProto c.json row.2 = fromProto row.2 := by
    intro row hrow
    cases hp : row.2 with
    | none => rfl
    | some p => exact fromProto_eq hj (hrows row hrow p hp)
  have happly : ∀ s : NodeStore, repairRows rows s =
      ((srv.applyRows rows s).1.isNone, (srv.applyRows rows s).2) := by
    clear hrows
    induction rows with
    | nil => exact fun _ => rfl
    | cons row rows ih =>
      intro s
      have ih := ih fun row hrow => hfrom row (List.mem_cons_of_mem _ hrow)
      have hrow := hfrom row List.mem_cons_self
      cases hp : fromProto row.2 with
      | error err =>
        rw [repairRows, NodeStore.repairRow, RepairServer.applyRows, hrow, hp]
        rfl
      | ok envelope =>
        have hstep : s.repairRow row = s.repair row.1 envelope := by
          rw [NodeStore.repairRow, hp]
          rfl
        rw [repairRows, hstep, RepairServer.applyRows, hrow, hp]
        cases hrepair : s.repair row.1 envelope with
        | error err => simp [hrepair]
        | ok s' => simp [hrepair, ih s']
  rw [RepairScheduler.repairKeys, RepairServer.repairKeys]
  split
  · rename_i hall
    have hfind : rows.find? (fun row => !srv.isOwner row.1) = none :=
      List.find?_eq_none.mpr fun row hrow => by
        simpa using List.all_eq_true.mp hall row hrow
    simp only [hfind]
    exact happly s
  · rename_i hall
    cases hfind : rows.find? (fun row => !srv.isOwner row.1) with
    | none =>
      refine absurd (List.all_eq_true.mpr fun row hrow => ?_) hall
      simpa using List.find?_eq_none.mp hfind row hrow
    | some row => rfl

end ChudDB.Cluster
