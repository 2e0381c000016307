import ChudDB.Lib.Quorum
import ChudDB.Cluster.Reconcile

/-! # Coordinated reads and writes

`Coordinator` (`coordinator.go`): a write is sent to every owner of the key and succeeds when a
quorum acknowledges it, and a read asks every owner and reconciles what a quorum answers. Which
owners fail is an input, and so is the order in which the answers of a read arrive. A replica holds
one envelope for a key: `Envelope.stored` and `Envelope.received` are what its store and a message
make of it. -/

namespace ChudDB.Cluster
open Lib

/-- What the replicas hold. -/
abbrev Replicas := NodeID → Bytes → Option Envelope

def Replicas.set (replicas : Replicas) (node : NodeID) (key : Bytes) (e : Envelope) : Replicas :=
  Function.update replicas node (Function.update (replicas node) key (some e))

theorem Replicas.set_apply {replicas : Replicas} :
    replicas.set node key e node' key = if node' = node then some e else replicas node' key := by
  rw [Replicas.set]
  split
  · rename_i h
    rw [h, Function.update_self, Function.update_self]
  · rename_i h
    rw [Function.update_of_ne h]

/-- A coordinator with its configured quorums; `Config.Validate` rejects an empty node ID. -/
structure Coordinator where
  nodeID : NodeID
  readQuorum : Int
  writeQuorum : Int
  nodeID_ne : nodeID ≠ []

inductive CoordinatorError where
  | emptyKey
  | noOwners
  | quorumExceedsOwners (quorum : Int) (owners : Nat)
  | quorumNotMet (acks : Nat) (quorum : Int)
deriving DecidableEq, Repr

structure WriteResult where
  vectorClock : VectorClock
  acks : Nat
  required : Int

structure ReadResult where
  versions : List Envelope
  vectorClock : VectorClock

/-- What happens to the write at one owner: it is applied and acknowledged, it is applied but the
acknowledgement is lost, or it fails. -/
inductive WriteFate where
  | acked
  | unacked
  | failed
deriving DecidableEq, Repr

/-- `readOutcome`; the error is not looked at. -/
abbrev ReadOutcome := Option (Option Envelope)

/-- The requested quorum, or the configured one. -/
def effectiveQuorum (configured requested : Int) : Int :=
  if requested ≤ 0 then configured else requested

/-- The checks of `resolveWriteQuorum`, which `Get` makes as well. -/
def resolveQuorum (configured requested : Int) (owners : List NodeID) :
    Except CoordinatorError Int :=
  if owners.isEmpty then .error .noOwners
  else
    let quorum := effectiveQuorum configured requested
    if quorum > owners.length then .error (.quorumExceedsOwners quorum owners.length)
    else .ok quorum

namespace Coordinator
variable (c : Coordinator)

/-- `writeToOwner`: what the owner stores. -/
def writeToOwner (ownerID : NodeID) (e : Envelope) : Except EnvelopeError Envelope :=
  if ownerID = c.nodeID then e.stored else e.received >>= Envelope.stored

/-- One round of the loop of `fanOutWrite`: the acknowledgements and the replicas. -/
def writeOne (fates : Nat → WriteFate) (key : Bytes) (e : Envelope) (acc : Nat × Replicas)
    (owner : NodeID × Nat) : Nat × Replicas :=
  match c.writeToOwner owner.1 e, fates owner.2 with
  | .ok e, .acked => (acc.1 + 1, acc.2.set owner.1 key e)
  | .ok e, .unacked => (acc.1, acc.2.set owner.1 key e)
  | _, _ => acc

/-- `fanOutWrite`. -/
def fanOutWrite (owners : List NodeID) (fates : Nat → WriteFate) (key : Bytes) (e : Envelope)
    (replicas : Replicas) : Nat × Replicas :=
  owners.zipIdx.foldl (c.writeOne fates key e) (0, replicas)

/-- `Put` and `Delete` behind the stamping of the envelope. -/
def write (owners : List NodeID) (fates : Nat → WriteFate) (key : Bytes) (requestedQuorum : Int)
    (stamp : VectorClock → Envelope) (clockContext : VectorClock) (replicas : Replicas) :
    Except CoordinatorError WriteResult × Replicas :=
  if key = [] then (.error .emptyKey, replicas)
  else match resolveQuorum c.writeQuorum requestedQuorum owners with
    | .error err => (.error err, replicas)
    | .ok quorum =>
      let newClock := clockContext.increment c.nodeID
      let (acks, replicas) := c.fanOutWrite owners fates key (stamp newClock) replicas
      if acks < quorum then (.error (.quorumNotMet acks quorum), replicas)
      else (.ok ⟨newClock, acks, quorum⟩, replicas)

/-- `Coordinator.Put`. -/
def put (owners : List NodeID) (fates : Nat → WriteFate) (now : Int) (key value : Bytes)
    (clockContext : VectorClock) (requestedQuorum : Int) (replicas : Replicas) :
    Except CoordinatorError WriteResult × Replicas :=
  c.write owners fates key requestedQuorum (newPut · value now) clockContext replicas

/-- `Coordinator.Delete`. -/
def delete (owners : List NodeID) (fates : Nat → WriteFate) (now : Int) (key : Bytes)
    (clockContext : VectorClock) (requestedQuorum : Int) (replicas : Replicas) :
    Except CoordinatorError WriteResult × Replicas :=
  c.write owners fates key requestedQuorum (newDelete · now) clockContext replicas

/-- `readFromOwner`. -/
def readFromOwner (replicas : Replicas) (key : Bytes) (ownerID : NodeID) : ReadOutcome :=
  match replicas ownerID key with
  | none => some none
  | some e => if ownerID = c.nodeID then some (some e) else e.received.toOption.map some

/-- `fanOutRead`, in the order of the owners; `answers` are the owners that are reached. -/
def fanOutRead (owners : List NodeID) (answers : Nat → Bool) (replicas : Replicas) (key : Bytes) :
    List ReadOutcome :=
  owners.zipIdx.map fun owner =>
    if answers owner.2 then c.readFromOwner replicas key owner.1 else none

/-- `Coordinator.Get` on the outcomes as they arrive. -/
def get (owners : List NodeID) (key : Bytes) (requestedQuorum : Int) (outcomes : List ReadOutcome) :
    Except CoordinatorError ReadResult :=
  if key = [] then .error .emptyKey
  else match resolveQuorum c.readQuorum requestedQuorum owners with
    | .error err => .error err
    | .ok quorum =>
      let acks := outcomes.countP (·.isSome)
      let found := outcomes.filterMap Option.join
      if acks < quorum then .error (.quorumNotMet acks quorum)
      else if found.isEmpty then .ok ⟨[], .empty⟩
      else
        let reconciled := reconcile found
        .ok ⟨reconciled.versions, reconciled.context⟩

/-! ## Acknowledgements -/

variable {c} {owners : List NodeID} {fates : Nat → WriteFate} {key : Bytes} {e e' : Envelope}
  {replicas : Replicas}

/-- An owner that acknowledges the write. -/
def acks (c : Coordinator) (fates : Nat → WriteFate) (e : Envelope) (owner : NodeID × Nat) : Bool :=
  decide (fates owner.2 = .acked) && (c.writeToOwner owner.1 e).isOk

/-- A replica holds a version of the key with the clock of the envelope. -/
def Holds (replicas : Replicas) (key : Bytes) (e : Envelope) (node : NodeID) : Prop :=
  ∃ e', replicas node key = some e' ∧ e'.vectorClock = e.vectorClock

theorem vectorClock_of_writeToOwner (hid : e.vectorClock.NoEmptyID)
    (h : c.writeToOwner owner e = .ok e') : e'.vectorClock = e.vectorClock := by
  rw [writeToOwner] at h
  split at h
  · exact Envelope.vectorClock_of_stored h
  · cases hr : e.received with
    | error err => rw [hr] at h; cases h
    | ok r =>
      rw [hr] at h
      exact (Envelope.vectorClock_of_stored h).trans (Envelope.vectorClock_of_received hid hr)

theorem holds_set_self (hclock : e'.vectorClock = e.vectorClock) :
    Holds (replicas.set owner key e') key e owner :=
  ⟨e', by rw [Replicas.set_apply, if_pos rfl], hclock⟩

theorem holds_set (hclock : e'.vectorClock = e.vectorClock) (h : Holds replicas key e node) :
    Holds (replicas.set owner key e') key e node := by
  by_cases hnode : node = owner
  · subst hnode
    exact holds_set_self hclock
  · obtain ⟨e'', he'', hclock⟩ := h
    exact ⟨e'', by rw [Replicas.set_apply, if_neg hnode]; exact he'', hclock⟩

/-- One owner: the count goes up by its acknowledgement, and what was held stays held. -/
theorem writeOne_spec (c : Coordinator) (fates : Nat → WriteFate) (key : Bytes)
    (hid : e.vectorClock.NoEmptyID) (acc : Nat × Replicas) (owner : NodeID × Nat) :
    (c.writeOne fates key e acc owner).1 = acc.1 + (if c.acks fates e owner then 1 else 0) ∧
    (∀ node, Holds acc.2 key e node → Holds (c.writeOne fates key e acc owner).2 key e node) ∧
    (c.acks fates e owner = true → Holds (c.writeOne fates key e acc owner).2 key e owner.1) := by
  rw [writeOne, acks]
  cases hw : c.writeToOwner owner.1 e with
  | error err => simp [Except.isOk, Except.toBool]
  | ok e' =>
    have hclock := vectorClock_of_writeToOwner hid hw
    cases fates owner.2 with
    | acked =>
      exact ⟨rfl, fun node => holds_set hclock, fun _ => holds_set_self hclock⟩
    | unacked =>
      exact ⟨rfl, fun node => holds_set hclock, nofun⟩
    | failed => exact ⟨rfl, fun _ h => h, nofun⟩

theorem foldl_writeOne_spec (c : Coordinator) (fates : Nat → WriteFate) (key : Bytes)
    (hid : e.vectorClock.NoEmptyID) (l : List (NodeID × Nat)) (acc : Nat × Replicas) :
    (l.foldl (c.writeOne fates key e) acc).1 = acc.1 + l.countP (c.acks fates e) ∧
    (∀ node, Holds acc.2 key e node → Holds (l.foldl (c.writeOne fates key e) acc).2 key e node) ∧
    ∀ owner ∈ l, c.acks fates e owner = true →
      Holds (l.foldl (c.writeOne fates key e) acc).2 key e owner.1 := by
  induction l generalizing acc with
  | nil => exact ⟨rfl, fun _ h => h, nofun⟩
  | cons owner l ih =>
    obtain ⟨hcount, hkeep, hnew⟩ := writeOne_spec c fates key hid acc owner
    obtain ⟨ihcount, ihkeep, ihnew⟩ := ih (c.writeOne fates key e acc owner)
    rw [List.foldl_cons, List.countP_cons]
    refine ⟨by rw [ihcount, hcount]; omega, fun node h => ihkeep node (hkeep node h), ?_⟩
    intro owner' howner' hacks
    rcases List.mem_cons.mp howner' with rfl | howner'
    · exact ihkeep _ (hnew hacks)
    · exact ihnew owner' howner' hacks

/-- What an owner that holds the version answers, if it answers. -/
theorem readFromOwner_of_holds (hid : e.vectorClock.NoEmptyID) (h : Holds replicas key e owner)
    (hread : (c.readFromOwner replicas key owner).isSome = true) :
    ∃ e', c.readFromOwner replicas key owner = some (some e') ∧ e'.vectorClock = e.vectorClock := by
  obtain ⟨e', he', hclock⟩ := h
  rw [readFromOwner, he'] at hread ⊢
  simp only at hread ⊢
  split at hread
  · rename_i howner
    rw [if_pos howner]
    exact ⟨e', rfl, hclock⟩
  · rename_i howner
    rw [if_neg howner]
    cases hr : e'.received with
    | error err => rw [hr] at hread; cases hread
    | ok r =>
      refine ⟨r, rfl, ?_⟩
      rw [Envelope.vectorClock_of_received (hclock ▸ hid) hr, hclock]

theorem resolveQuorum_eq_ok (h : resolveQuorum configured requested owners = .ok quorum) :
    quorum = effectiveQuorum configured requested := by
  rw [resolveQuorum] at h
  split at h
  · cases h
  · simp only at h
    split at h
    · cases h
    · cases h
      rfl

/-- A write that succeeds was acknowledged by its quorum, and the owners that acknowledged it hold
it. -/
theorem write_spec {stamp : VectorClock → Envelope} {context : VectorClock}
    (hstamp : ∀ clock, (stamp clock).vectorClock = clock) (hctx : context.NoEmptyID)
    (h : c.write owners fates key requested stamp context replicas = (.ok result, replicas')) :
    result.vectorClock.NoEmptyID ∧
    effectiveQuorum c.writeQuorum requested ≤
      owners.zipIdx.countP (c.acks fates (stamp result.vectorClock)) ∧
    ∀ owner ∈ owners.zipIdx, c.acks fates (stamp result.vectorClock) owner = true →
      Holds replicas' key (stamp result.vectorClock) owner.1 := by
  rw [write] at h
  split at h
  · cases h
  · cases hq : resolveQuorum c.writeQuorum requested owners with
    | error err => rw [hq] at h; cases h
    | ok quorum =>
      rw [hq] at h
      have hid : (context.increment c.nodeID).NoEmptyID := hctx.set c.nodeID_ne
      have hid' : (stamp (context.increment c.nodeID)).vectorClock.NoEmptyID := by
        rw [hstamp]
        exact hid
      obtain ⟨hcount, -, hholds⟩ :=
        foldl_writeOne_spec c fates key hid' owners.zipIdx (0, replicas)
      change (if ((c.fanOutWrite owners fates key _ replicas).1 : Int) < quorum then _ else _) = _ at h
      rw [Nat.zero_add] at hcount
      split at h
      · cases h
      · rename_i hacks
        cases h
        have := resolveQuorum_eq_ok hq
        rw [fanOutWrite] at hacks
        refine ⟨hid, ?_, hholds⟩
        dsimp only
        omega

/-- A read that succeeds was answered by its quorum, and returns what reconciling the versions in
the answers gives. -/
theorem get_eq_ok (h : c.get owners key requested outcomes = .ok result) :
    effectiveQuorum c.readQuorum requested ≤ outcomes.countP (·.isSome) ∧
    (outcomes.filterMap Option.join = [] ∧ result = ⟨[], .empty⟩ ∨
      outcomes.filterMap Option.join ≠ [] ∧
        result = ⟨nonDominated (outcomes.filterMap Option.join),
          mergeClocks (nonDominated (outcomes.filterMap Option.join))⟩) := by
  rw [get] at h
  split at h
  · cases h
  · cases hq : resolveQuorum c.readQuorum requested owners with
    | error err => rw [hq] at h; cases h
    | ok quorum =>
      rw [hq] at h
      have := resolveQuorum_eq_ok hq
      simp only [List.isEmpty_iff] at h
      split at h
      · cases h
      · rename_i hacks
        refine ⟨by omega, ?_⟩
        split at h
        · rename_i hfound
          cases h
          exact .inl ⟨hfound, rfl⟩
        · rename_i hfound
          cases h
          exact .inr ⟨hfound, by rw [versions_reconcile, context_reconcile]⟩

/-- A read covers every version that an answer holds. -/
theorem le_of_get (h : c.get owners key requested outcomes = .ok result)
    (he : some (some e) ∈ outcomes) :
    e.vectorClock.get ≤ result.vectorClock.get ∧
      ∃ v ∈ result.versions, e.vectorClock.get ≤ v.vectorClock.get := by
  have hfound : e ∈ outcomes.filterMap Option.join := List.mem_filterMap.mpr ⟨_, he, rfl⟩
  rcases (get_eq_ok h).2 with ⟨hnil, -⟩ | ⟨hne, rfl⟩
  · rw [hnil] at hfound
    cases hfound
  · refine ⟨?_, exists_nonDominated_ge hfound⟩
    have hcontext := get_le_context hfound
    rwa [context_reconcile] at hcontext

/-! ## What replicas and answers can hold -/

/-- After a fan-out a replica holds what it held before, or a version with the clock of the
write. -/
theorem held_of_fanOutWrite (hid : e.vectorClock.NoEmptyID)
    (h : (c.fanOutWrite owners fates key e replicas).2 node key = some e') :
    replicas node key = some e' ∨ e'.vectorClock = e.vectorClock := by
  rw [fanOutWrite] at h
  refine List.foldlRecOn (motive := fun acc : Nat × Replicas => acc.2 node key = some e' →
    replicas node key = some e' ∨ e'.vectorClock = e.vectorClock) owners.zipIdx _ .inl ?_ h
  intro acc hacc owner _ hnew
  rw [writeOne] at hnew
  have hset : ∀ stored, c.writeToOwner owner.1 e = .ok stored →
      acc.2.set owner.1 key stored node key = some e' →
        replicas node key = some e' ∨ e'.vectorClock = e.vectorClock := by
    intro stored hw h
    rw [Replicas.set_apply] at h
    split at h
    · cases h
      exact .inr (vectorClock_of_writeToOwner hid hw)
    · exact hacc h
  split at hnew
  · exact hset _ ‹_› hnew
  · exact hset _ ‹_› hnew
  · exact hacc hnew

theorem held_of_write {stamp : VectorClock → Envelope} {context : VectorClock}
    (hstamp : ∀ clock, (stamp clock).vectorClock = clock) (hctx : context.NoEmptyID)
    (h : (c.write owners fates key requested stamp context replicas).2 node key = some e) :
    replicas node key = some e ∨ e.vectorClock = context.increment c.nodeID := by
  have hid : (stamp (context.increment c.nodeID)).vectorClock.NoEmptyID := by
    rw [hstamp]
    exact hctx.set c.nodeID_ne
  rw [write] at h
  split at h
  · exact .inl h
  · split at h
    · exact .inl h
    · simp only at h
      rw [← hstamp (context.increment c.nodeID)]
      split at h
      · exact held_of_fanOutWrite hid h
      · exact held_of_fanOutWrite hid h

/-- An answer has the clock of what the owner holds. -/
theorem held_of_readFromOwner (hid : ∀ e', replicas owner key = some e' → e'.vectorClock.NoEmptyID)
    (h : c.readFromOwner replicas key owner = some (some e)) :
    ∃ e', replicas owner key = some e' ∧ e.vectorClock = e'.vectorClock := by
  rw [readFromOwner] at h
  split at h
  · cases h
  · rename_i e' he'
    refine ⟨e', he', ?_⟩
    split at h
    · cases h
      rfl
    · obtain ⟨r, hr, hre⟩ := Option.map_eq_some_iff.mp h
      cases hre
      cases hrec : e'.received with
      | error err => rw [hrec] at hr; cases hr
      | ok r' =>
        rw [hrec] at hr
        cases hr
        exact Envelope.vectorClock_of_received (hid e' he') hrec

/-! ## Quorum intersection -/

/-- A write quorum and a read quorum that exceed the number of owners share one that acknowledged
the write and answered the read. -/
theorem exists_owner_acks_answers {w r : Coordinator} {replicas : Replicas}
    {answers : Nat → Bool} {W R : Int}
    (hW : W ≤ owners.zipIdx.countP (w.acks fates e))
    (hR : R ≤ (r.fanOutRead owners answers replicas key).countP (·.isSome))
    (hquorum : owners.length < R + W) :
    ∃ owner ∈ owners.zipIdx, w.acks fates e owner = true ∧ answers owner.2 = true ∧
      (r.readFromOwner replicas key owner.1).isSome = true := by
  rw [fanOutRead, List.countP_map] at hR
  obtain ⟨owner, howner, hack, hread⟩ := exists_mem_of_countP_add_gt (l := owners.zipIdx)
    (p := w.acks fates e) (q := (·.isSome) ∘ fun owner : NodeID × Nat =>
      if answers owner.2 then r.readFromOwner replicas key owner.1 else none)
    (by rw [List.length_zipIdx]; omega)
  rw [Function.comp_apply] at hread
  cases hans : answers owner.2 with
  | false => rw [hans] at hread; cases hread
  | true =>
    rw [hans, if_pos rfl] at hread
    exact ⟨owner, howner, hack, hans, hread⟩

/-- A read after a successful write with overlapping quorums sees the write: its context covers the
clock of the write, and one of its versions is the write or a later one. The client's context of the
write comes from a message, and the answers of the read arrive in any order. -/
theorem get_sees_write {w r : Coordinator} {context : Option (List (NodeID × Counter))}
    {now : Int} {value : Bytes} {requestedW requestedR : Int} {written : WriteResult}
    {read : ReadResult} {before after later : Replicas} {answers : Nat → Bool}
    {outcomes : List ReadOutcome}
    (hwrite : w.put owners fates now key value (vectorClockFromProto context) requestedW before =
        (.ok written, after) ∨
      w.delete owners fates now key (vectorClockFromProto context) requestedW before =
        (.ok written, after))
    (hlater : ∀ owner ∈ owners, later owner key = after owner key)
    (harrive : outcomes.Perm (r.fanOutRead owners answers later key))
    (hread : r.get owners key requestedR outcomes = .ok read)
    (hquorum : owners.length <
      effectiveQuorum r.readQuorum requestedR + effectiveQuorum w.writeQuorum requestedW) :
    (∀ nodeID, written.vectorClock.get nodeID ≤ read.vectorClock.get nodeID) ∧
    ∃ v ∈ read.versions, v.vectorClock.compare written.vectorClock = .equal ∨
      v.vectorClock.compare written.vectorClock = .after := by
  -- a put and a delete differ in the envelope they stamp
  obtain ⟨stamp, hstamp, hwrite⟩ : ∃ stamp : VectorClock → Envelope,
      (∀ clock, (stamp clock).vectorClock = clock) ∧
      w.write owners fates key requestedW stamp (vectorClockFromProto context) before =
        (.ok written, after) := by
    rcases hwrite with h | h
    · exact ⟨_, fun _ => rfl, h⟩
    · exact ⟨_, fun _ => rfl, h⟩
  obtain ⟨hid, hW, hholds⟩ :=
    write_spec hstamp (noEmptyID_vectorClockFromProto context) hwrite
  have hR := (get_eq_ok hread).1
  rw [harrive.countP_eq] at hR
  obtain ⟨owner, howner, hack, hans, hanswer⟩ := exists_owner_acks_answers hW hR hquorum
  have hlater : Holds later key (stamp written.vectorClock) owner.1 := by
    obtain ⟨e', he', hclock⟩ := hholds owner howner hack
    exact ⟨e', (hlater _ (List.fst_mem_of_mem_zipIdx howner)).trans he', hclock⟩
  obtain ⟨e', he', hclock⟩ := readFromOwner_of_holds (by rw [hstamp]; exact hid) hlater hanswer
  rw [hstamp] at hclock
  have hmem : some (some e') ∈ outcomes := by
    refine harrive.mem_iff.mpr (List.mem_map.mpr ⟨owner, howner, ?_⟩)
    rw [hans, if_pos rfl, he']
  obtain ⟨hcontext, v, hv, hle⟩ := le_of_get hread hmem
  rw [hclock] at hcontext hle
  refine ⟨hcontext, v, hv, ?_⟩
  rw [VectorClock.compare_eq_equal_iff, VectorClock.compare_eq_after_iff]
  rcases hle.eq_or_lt with heq | hlt
  · exact .inl heq.symm
  · exact .inr hlt

/-- Owner `a` of three coordinates a put that misses `c`, and `b` reads while `a` is away. -/
theorem get_sees_write_twoOfThree :
    let a : Coordinator := ⟨[97], 2, 2, by decide⟩
    let b : Coordinator := ⟨[98], 2, 2, by decide⟩
    let owners : List NodeID := [[97], [98], [99]]
    let put := a.put owners (fun i => if i = 2 then .failed else .acked) 1 [107] [118]
      (vectorClockFromProto none) 0 fun _ _ => none
    let outcomes := b.fanOutRead owners (fun i => decide (i ≠ 0)) put.2 [107]
    ∃ written read, put.1 = .ok written ∧ b.get owners [107] 0 outcomes = .ok read ∧
      (∀ nodeID, written.vectorClock.get nodeID ≤ read.vectorClock.get nodeID) ∧
      ∃ v ∈ read.versions, v.vectorClock.compare written.vectorClock = .equal ∨
        v.vectorClock.compare written.vectorClock = .after := by
  intro a b owners put outcomes
  have hput : put = (.ok ⟨VectorClock.empty.increment [97], 2, 2⟩, put.2) := rfl
  have hget : b.get owners [107] 0 outcomes = .ok ⟨_, _⟩ := rfl
  exact ⟨_, _, congrArg Prod.fst hput, hget,
    get_sees_write (.inl hput) (fun _ _ => rfl) (List.Perm.refl outcomes) hget (by decide)⟩

/-! ## The clock of a write -/

theorem compare_increment_eq_after_iff (context : VectorClock) (nodeID : NodeID) :
    (context.increment nodeID).compare context = .after ↔ context.get nodeID ≠ maxUint64 := by
  rw [VectorClock.compare_eq_after_iff, ← lt_succ_iff, Pi.lt_def]
  constructor
  · rintro ⟨-, id, hlt⟩
    rw [VectorClock.get_increment] at hlt
    split at hlt
    · rename_i hid
      exact hid ▸ hlt
    · exact absurd hlt (lt_irrefl _)
  · intro hlt
    refine ⟨fun id => ?_, nodeID, by rwa [VectorClock.get_increment_self]⟩
    rw [VectorClock.get_increment]
    split
    · rename_i hid
      rw [hid]
      exact hlt.le
    · exact le_refl _

theorem vectorClock_of_write {stamp : VectorClock → Envelope} {context : VectorClock}
    {replicas : Replicas} {result : WriteResult}
    (h : (c.write owners fates key requested stamp context replicas).1 = .ok result) :
    result.vectorClock = context.increment c.nodeID := by
  rw [write] at h
  split at h
  · cases h
  · split at h
    · cases h
    · dsimp only at h
      split at h
      · cases h
      · cases h
        rfl

/-- The clock that a write is stamped with is after its context unless the context has the greatest
counter for the coordinator. -/
theorem write_after_context_iff (c : Coordinator) (context : VectorClock) :
    (∀ nodeID, (context.increment nodeID).compare context = .after ↔
      context.get nodeID ≠ maxUint64) ∧
    ∀ owners fates now key value requested replicas result,
      (c.put owners fates now key value context requested replicas).1 = .ok result ∨
        (c.delete owners fates now key context requested replicas).1 = .ok result →
      (result.vectorClock.compare context = .after ↔
        context.get c.nodeID ≠ maxUint64) := by
  refine ⟨compare_increment_eq_after_iff context, ?_⟩
  intro owners fates now key value requested replicas result h
  have hclock : result.vectorClock = context.increment c.nodeID := by
    rcases h with h | h
    · exact vectorClock_of_write h
    · exact vectorClock_of_write h
  rw [hclock]
  exact compare_increment_eq_after_iff context c.nodeID

/-- A put whose context has the greatest counter for the coordinator is stamped before its
context. -/
theorem write_before_context :
    let a : Coordinator := ⟨[97], 1, 1, by decide⟩
    let context := VectorClock.empty.set [97] maxUint64
    ∃ result, (a.put [[97]] (fun _ => .acked) 1 [107] [118] context 0 fun _ _ => none).1 =
      .ok result ∧ result.vectorClock.compare context = .before :=
  ⟨_, rfl, by decide +kernel⟩

end Coordinator

/-- The coordinator of node `a`, with quorums of one. -/
def nodeA : Coordinator := ⟨[97], 1, 1, by decide⟩

end ChudDB.Cluster
