import ChudDB.Lib.Run
import ChudDB.Cluster.Coordinator

/-! # The clocks of a run of writes

Coordinated writes and reads of one key, through any number of coordinators. `Increment` takes the
counter of a new write from the client's context alone. So a coordinator that is given two contexts
with the same counter for itself stamps that counter twice, and two blind writes get equal clocks
(`blind_writes_equal`). As long as that does not happen, or only for a repeated write, equal clocks
mean the same write (`equal_clocks_same_content`). -/

namespace ChudDB.Cluster
open Lib

/-- A write that a coordinator has stamped. -/
structure Write where
  coordinator : Coordinator
  context : VectorClock
  envelope : Envelope
  vectorClock_eq : envelope.vectorClock = context.increment coordinator.nodeID

/-- What has happened to the key: the replicas now and before, newest first, the writes, newest
first, and the clocks that clients were given. -/
structure Traffic where
  replicas : Replicas
  past : List Replicas
  log : List Write
  returned : List VectorClock

inductive Operation where
  | put (c : Coordinator) (value : Bytes) (context : VectorClock) (owners : List NodeID)
      (fates : Nat → WriteFate) (now requestedQuorum : Int)
  | delete (c : Coordinator) (context : VectorClock) (owners : List NodeID)
      (fates : Nat → WriteFate) (now requestedQuorum : Int)
  /-- The replies as they arrive: how many states ago an owner was read, and which. -/
  | get (c : Coordinator) (owners : List NodeID) (requestedQuorum : Int)
      (replies : List (Nat × NodeID))
  /-- A write reaches an owner after its coordinator has stopped waiting for it. -/
  | deliver (write : Nat) (owner : NodeID)
  /-- Anti-entropy copies what a replica held some states ago. -/
  | repair (age : Nat) (source target : NodeID)

namespace Traffic

variable {s s' t : Traffic} {key : Bytes} {log log' : List Write} {clock : VectorClock}
  {c : Coordinator}

/-- No replica holds the key. -/
def start : Traffic := ⟨fun _ _ => none, [], [], []⟩

/-- The replicas some states ago. -/
def ago (s : Traffic) (age : Nat) : Option Replicas := (s.replicas :: s.past)[age]?

def setReplicas (s : Traffic) (replicas : Replicas) : Traffic :=
  { s with replicas := replicas, past := s.replicas :: s.past }

def store (s : Traffic) (key : Bytes) (node : NodeID) : Except EnvelopeError Envelope → Traffic
  | .ok e => s.setReplicas (s.replicas.set node key e)
  | .error _ => s

/-- Whether a write with this outcome was stamped. `writeResult` returns the clock also when the
quorum was missed; the other errors come before the stamp. -/
def stamped : Except CoordinatorError WriteResult → Bool
  | .ok _ | .error (.quorumNotMet _ _) => true
  | .error _ => false

/-- The end of a write. -/
def record (s : Traffic) (w : Write) (outcome : Except CoordinatorError WriteResult × Replicas) :
    Traffic :=
  if stamped outcome.1 then
    { s.setReplicas outcome.2 with
      log := w :: s.log, returned := w.envelope.vectorClock :: s.returned }
  else s

/-- The contexts a client can pass. -/
def Offered (s : Traffic) (context : VectorClock) : Prop :=
  context = .empty ∨ context ∈ s.returned

instance : Decidable (s.Offered clock) := inferInstanceAs (Decidable (_ ∨ _))

def step (key : Bytes) : System Traffic Operation := fun s op =>
  match op with
  | .put c value context owners fates now requestedQuorum =>
    if s.Offered context then
      some (s.record ⟨c, context, newPut (context.increment c.nodeID) value now, rfl⟩
        (c.put owners fates now key value context requestedQuorum s.replicas))
    else none
  | .delete c context owners fates now requestedQuorum =>
    if s.Offered context then
      some (s.record ⟨c, context, newDelete (context.increment c.nodeID) now, rfl⟩
        (c.delete owners fates now key context requestedQuorum s.replicas))
    else none
  | .get c owners requestedQuorum replies =>
    if (replies.map Prod.snd).isPerm owners then
      let outcomes := replies.map fun reply =>
        (s.ago reply.1).bind fun replicas => c.readFromOwner replicas key reply.2
      match c.get owners key requestedQuorum outcomes with
      | .ok result => some { s with returned := result.vectorClock :: s.returned }
      | .error _ => some s
    else none
  | .deliver write owner =>
    s.log[write]?.map fun w => s.store key owner (w.coordinator.writeToOwner owner w.envelope)
  | .repair age source target => do
    let e ← (← s.ago age) source key
    some (s.store key target (e.received >>= Envelope.stored))

/-! ## Clocks in circulation -/

/-- Every counter of the clock was stamped by a write of its node. -/
structure Seen (log : List Write) (clock : VectorClock) : Prop where
  noEmptyID : clock.NoEmptyID
  stamped : ∀ nodeID, clock.get nodeID ≠ 0 → ∃ w ∈ log, w.coordinator.nodeID = nodeID ∧
    w.envelope.vectorClock.get nodeID = clock.get nodeID

theorem seen_empty : Seen log .empty where
  noEmptyID := nofun
  stamped _ h := (h rfl).elim

theorem Seen.mono (h : Seen log clock) (hsub : log ⊆ log') : Seen log' clock where
  noEmptyID := h.noEmptyID
  stamped nodeID hne := by
    obtain ⟨w, hw, hnode, hcounter⟩ := h.stamped nodeID hne
    exact ⟨w, hsub hw, hnode, hcounter⟩

theorem Seen.of_write {w : Write} (h : Seen log w.context) :
    Seen (w :: log) w.envelope.vectorClock where
  noEmptyID := by
    rw [w.vectorClock_eq]
    exact h.noEmptyID.set w.coordinator.nodeID_ne
  stamped nodeID hne := by
    by_cases hnode : nodeID = w.coordinator.nodeID
    · exact ⟨w, List.mem_cons_self, hnode.symm, rfl⟩
    · rw [w.vectorClock_eq, VectorClock.get_increment_ne hnode] at hne ⊢
      exact (h.mono (List.subset_cons_self w log)).stamped nodeID hne

theorem Seen.merge (ha : Seen log a) (hb : Seen log b) : Seen log (a.merge b) where
  noEmptyID := ha.noEmptyID.merge hb.noEmptyID
  stamped nodeID hne := by
    rw [VectorClock.get_merge] at hne ⊢
    rcases max_choice (a.get nodeID) (b.get nodeID) with hmax | hmax
    · rw [hmax] at hne ⊢
      exact ha.stamped nodeID hne
    · rw [hmax] at hne ⊢
      exact hb.stamped nodeID hne

theorem seen_mergeClocks {values : List Envelope} (h : ∀ e ∈ values, Seen log e.vectorClock) :
    Seen log (mergeClocks values) := by
  rw [mergeClocks]
  exact List.foldlRecOn values _ seen_empty fun clock hclock e he => hclock.merge (h e he)

theorem Seen.of_writeToOwner {e e' : Envelope} (h : Seen log e.vectorClock)
    (hw : c.writeToOwner owner e = .ok e') : Seen log e'.vectorClock :=
  Coordinator.vectorClock_of_writeToOwner h.noEmptyID hw ▸ h

/-! ## Fresh counters -/

/-- The client gives a coordinator a context with a counter for it that no earlier write through it
was given, unless the write repeats that one; and the counter can be incremented. -/
def Fresh (log : List Write) (c : Coordinator) (context : VectorClock) (deleted : Bool)
    (value : Bytes) : Prop :=
  context.get c.nodeID + 1 ≠ 0 ∧
  ∀ w ∈ log, w.coordinator.nodeID = c.nodeID → w.context.get c.nodeID = context.get c.nodeID →
    w.context.compare context = .equal ∧ w.envelope.deleted = deleted ∧ w.envelope.value = value

instance : Decidable (Fresh log c context deleted value) := inferInstanceAs (Decidable (_ ∧ _))

/-- The writes of a run with fresh counters. -/
inductive Orderly : List Write → Prop
  | nil : Orderly []
  | write {w : Write} {older : List Write} (h : Orderly older) (seen : Seen older w.context)
      (fresh : Fresh older w.coordinator w.context w.envelope.deleted w.envelope.value) :
      Orderly (w :: older)

theorem Orderly.seen (h : Orderly log) (hw : w ∈ log) : Seen log w.context := by
  induction h with
  | nil => cases hw
  | write _ seen _ ih =>
    rcases List.mem_cons.mp hw with rfl | hw
    · exact seen.mono (List.subset_cons_self _ _)
    · exact (ih hw).mono (List.subset_cons_self _ _)

theorem Orderly.seen_vectorClock (h : Orderly log) (hw : w ∈ log) :
    Seen log w.envelope.vectorClock :=
  (h.seen hw).of_write.mono (List.cons_subset.mpr ⟨hw, List.Subset.refl log⟩)

/-- A write that gets the clock of an earlier one has its counter from a write through the same
coordinator. -/
theorem exists_same_counter {w w' : Write} (h : Orderly log) (hw' : w' ∈ log)
    (hne : w.context.get w.coordinator.nodeID + 1 ≠ 0)
    (heq : w'.envelope.vectorClock.get = w.envelope.vectorClock.get) :
    ∃ u ∈ log, u.coordinator.nodeID = w.coordinator.nodeID ∧
      u.context.get w.coordinator.nodeID = w.context.get w.coordinator.nodeID := by
  have hcounter : w'.envelope.vectorClock.get w.coordinator.nodeID =
      w.context.get w.coordinator.nodeID + 1 := by
    rw [heq, w.vectorClock_eq, VectorClock.get_increment_self]
  by_cases hnode : w'.coordinator.nodeID = w.coordinator.nodeID
  · refine ⟨w', hw', hnode, ?_⟩
    rw [w'.vectorClock_eq, hnode, VectorClock.get_increment_self] at hcounter
    exact add_right_cancel hcounter
  · -- the counter stands in the context of `w'`, so it was stamped before
    rw [w'.vectorClock_eq, VectorClock.get_increment_ne (Ne.symm hnode)] at hcounter
    obtain ⟨u, hu, hnode', hstamp⟩ := (h.seen hw').stamped _ (hcounter ▸ hne)
    refine ⟨u, hu, hnode', ?_⟩
    rw [hcounter, u.vectorClock_eq, hnode', VectorClock.get_increment_self] at hstamp
    exact add_right_cancel hstamp

/-- Writes with equal clocks have the same content. -/
theorem Orderly.content_eq (h : Orderly log) (hw : w ∈ log) (hw' : w' ∈ log)
    (heq : w'.envelope.vectorClock.get = w.envelope.vectorClock.get) :
    w'.envelope.deleted = w.envelope.deleted ∧ w'.envelope.value = w.envelope.value := by
  induction h generalizing w w' with
  | nil => cases hw
  | @write w₀ log hlog seen fresh ih =>
    -- the new write against an older one
    have hnew : ∀ w' ∈ log, w'.envelope.vectorClock.get = w₀.envelope.vectorClock.get →
        w'.envelope.deleted = w₀.envelope.deleted ∧ w'.envelope.value = w₀.envelope.value := by
      intro w' hw' heq
      obtain ⟨u, hu, hnode, hcounter⟩ := exists_same_counter hlog hw' fresh.1 heq
      obtain ⟨hcontext, hdeleted, hvalue⟩ := fresh.2 u hu hnode hcounter
      rw [← hdeleted, ← hvalue]
      refine ih hu hw' (heq.trans ?_)
      rw [VectorClock.compare_eq_equal_iff] at hcontext
      rw [u.vectorClock_eq, w₀.vectorClock_eq, hnode]
      funext nodeID
      rw [VectorClock.get_increment, VectorClock.get_increment, hcontext]
    rcases List.mem_cons.mp hw with rfl | hold
    · rcases List.mem_cons.mp hw' with rfl | hold'
      · exact ⟨rfl, rfl⟩
      · exact hnew w' hold' heq
    · rcases List.mem_cons.mp hw' with rfl | hold'
      · obtain ⟨hdeleted, hvalue⟩ := hnew w hold heq.symm
        exact ⟨hdeleted.symm, hvalue.symm⟩
      · exact ih hold hold' heq

/-! ## Runs -/

structure Inv (key : Bytes) (s : Traffic) : Prop where
  orderly : Orderly s.log
  returned : ∀ clock ∈ s.returned, Seen s.log clock
  held : ∀ replicas ∈ s.replicas :: s.past, ∀ node e, replicas node key = some e →
    Seen s.log e.vectorClock

theorem inv_start : Inv key start where
  orderly := .nil
  returned := nofun
  held := by
    intro replicas hreplicas node e he
    rw [List.mem_singleton.mp hreplicas] at he
    cases he

namespace Inv

theorem seen_of_ago {replicas : Replicas} (h : Inv key s) (hago : s.ago age = some replicas)
    (he : replicas node key = some e) : Seen s.log e.vectorClock :=
  h.held replicas (List.mem_of_getElem? hago) node e he

theorem offered (h : Inv key s) (hoffered : s.Offered context) : Seen s.log context := by
  rcases hoffered with rfl | hmem
  · exact seen_empty
  · exact h.returned context hmem

theorem store {result : Except EnvelopeError Envelope} (h : Inv key s)
    (hresult : ∀ e, result = .ok e → Seen s.log e.vectorClock) :
    Inv key (s.store key node result) := by
  cases result with
  | error err => exact h
  | ok stored =>
    refine ⟨h.orderly, h.returned, ?_⟩
    intro replicas hreplicas node' e he
    rcases List.mem_cons.mp hreplicas with rfl | hreplicas
    · change s.replicas.set node key stored node' key = some e at he
      rw [Replicas.set_apply] at he
      split at he
      · cases he
        exact hresult stored rfl
      · exact h.held _ List.mem_cons_self node' e he
    · exact h.held replicas hreplicas node' e he

/-- A stamped write that has been sent to its owners. -/
theorem record {w : Write} {outcome : Except CoordinatorError WriteResult × Replicas}
    (h : Inv key s) (hseen : Seen s.log w.context) (hfresh : stamped outcome.1 →
      Fresh s.log w.coordinator w.context w.envelope.deleted w.envelope.value)
    (hheld : ∀ node e, outcome.2 node key = some e →
      s.replicas node key = some e ∨ e.vectorClock = w.envelope.vectorClock) :
    Inv key (s.record w outcome) := by
  have hsub := List.subset_cons_self w s.log
  rw [Traffic.record]
  split
  · rename_i hstamped
    refine ⟨.write h.orderly hseen (hfresh hstamped), ?_, ?_⟩
    · intro clock hclock
      rcases List.mem_cons.mp hclock with rfl | hclock
      · exact hseen.of_write
      · exact (h.returned clock hclock).mono hsub
    · intro replicas hreplicas node e he
      rcases List.mem_cons.mp hreplicas with rfl | hreplicas
      · rcases hheld node e he with he | hclock
        · exact (h.held _ List.mem_cons_self node e he).mono hsub
        · rw [hclock]
          exact hseen.of_write
      · exact (h.held replicas hreplicas node e he).mono hsub
  · exact h

theorem seen_of_get {c : Coordinator} {replies : List (Nat × NodeID)} {result : ReadResult}
    (h : Inv key s)
    (hget : c.get owners key requested (replies.map fun reply =>
      (s.ago reply.1).bind fun replicas => c.readFromOwner replicas key reply.2) = .ok result) :
    Seen s.log result.vectorClock := by
  rcases (Coordinator.get_eq_ok hget).2 with ⟨-, rfl⟩ | ⟨-, rfl⟩
  · exact seen_empty
  · refine seen_mergeClocks fun e he => ?_
    obtain ⟨outcome, houtcome, hjoin⟩ := List.mem_filterMap.mp (nonDominated_subset he)
    obtain ⟨reply, -, rfl⟩ := List.mem_map.mp houtcome
    obtain ⟨replicas, hago, hread⟩ := Option.bind_eq_some_iff.mp (Option.join_eq_some_iff.mp hjoin)
    have hheld : ∀ e', replicas reply.2 key = some e' → Seen s.log e'.vectorClock :=
      fun e' he' => h.seen_of_ago hago he'
    obtain ⟨e', he', hclock⟩ :=
      Coordinator.held_of_readFromOwner (fun e' he' => (hheld e' he').noEmptyID) hread
    rw [hclock]
    exact hheld e' he'

end Inv

/-- The condition on a write that is stamped. -/
def FreshCounter (key : Bytes) (s : Traffic) : Operation → Prop
  | .put c value context owners fates now requestedQuorum =>
    stamped (c.put owners fates now key value context requestedQuorum s.replicas).1 →
      Fresh s.log c context false value
  | .delete c context owners fates now requestedQuorum =>
    stamped (c.delete owners fates now key context requestedQuorum s.replicas).1 →
      Fresh s.log c context true []
  | _ => True

instance : ∀ key s op, Decidable (FreshCounter key s op)
  | _, _, .put .. => inferInstanceAs (Decidable (_ → Fresh ..))
  | _, _, .delete .. => inferInstanceAs (Decidable (_ → Fresh ..))
  | _, _, .get .. | _, _, .deliver .. | _, _, .repair .. => inferInstanceAs (Decidable True)

theorem inv_step (h : Inv key s) (hok : FreshCounter key s op) (hstep : step key s op = some s') :
    Inv key s' := by
  cases op with
  | put | delete =>
    obtain ⟨hoffered, hs'⟩ := Option.ite_none_right_eq_some.mp hstep
    cases hs'
    exact h.record (h.offered hoffered) hok fun node e he =>
      Coordinator.held_of_write (fun _ => rfl) (h.offered hoffered).noEmptyID he
  | get c owners requestedQuorum replies =>
    obtain ⟨-, hs'⟩ := Option.ite_none_right_eq_some.mp hstep
    split at hs'
    · rename_i result hget
      cases hs'
      refine ⟨h.orderly, ?_, h.held⟩
      intro clock hclock
      rcases List.mem_cons.mp hclock with rfl | hclock
      · exact h.seen_of_get hget
      · exact h.returned clock hclock
    · cases hs'
      exact h
  | deliver write owner =>
    obtain ⟨w, hw, rfl⟩ := Option.map_eq_some_iff.mp hstep
    have hw := List.mem_of_getElem? hw
    refine h.store fun e he => Seen.of_writeToOwner ?_ he
    exact h.orderly.seen_vectorClock hw
  | repair age source target =>
    obtain ⟨replicas, hago, hstep⟩ := Option.bind_eq_some_iff.mp hstep
    obtain ⟨e, he, hs'⟩ := Option.bind_eq_some_iff.mp hstep
    cases hs'
    refine h.store fun e' he' => ?_
    have hseen := h.seen_of_ago hago he
    cases hr : e.received with
    | error err => rw [hr] at he'; cases he'
    | ok r =>
      rw [hr] at he'
      rw [Envelope.vectorClock_of_stored he', Envelope.vectorClock_of_received hseen.noEmptyID hr]
      exact hseen

/-- In a run in which every stamped write has a fresh counter, writes with different content have
different clocks. -/
theorem equal_clocks_same_content (hok : (step key).Guarded (FreshCounter key) start ops)
    (hrun : System.run (step key) start ops = some t) :
    ∀ w ∈ t.log, ∀ w' ∈ t.log,
      (w.envelope.value ≠ w'.envelope.value ∨ w.envelope.deleted ≠ w'.envelope.deleted) →
      w.envelope.vectorClock.compare w'.envelope.vectorClock ≠ .equal := by
  have hinv : Inv key t := System.run_invariant_of_guarded (I := fun _ s => Inv key s) inv_start
    (fun h hok hstep => inv_step h hok hstep) hok hrun
  intro w hw w' hw' hne heq
  rw [VectorClock.compare_eq_equal_iff] at heq
  obtain ⟨hdeleted, hvalue⟩ := hinv.orderly.content_eq hw' hw heq
  exact hne.elim (fun h => h hvalue) fun h => h hdeleted

/-- A client writes, reads, and overwrites with the clock it has read. -/
theorem equal_clocks_same_content_readFirst : ∃ t ∈ System.run (step [107]) start
    [.put nodeA [1] .empty [[97]] (fun _ => .acked) 1 0, .get nodeA [[97]] 0 [(0, [97])],
      .put nodeA [2] (VectorClock.empty.increment [97]) [[97]] (fun _ => .acked) 2 0],
    ∀ w ∈ t.log, ∀ w' ∈ t.log,
      (w.envelope.value ≠ w'.envelope.value ∨ w.envelope.deleted ≠ w'.envelope.deleted) →
      w.envelope.vectorClock.compare w'.envelope.vectorClock ≠ .equal :=
  ⟨Option.get _ (by decide +kernel), Option.get_mem _,
    equal_clocks_same_content (by decide +kernel) (Option.some_get _).symm⟩

/-- Two blind puts of different values through one coordinator. -/
theorem blind_writes_equal : ∃ t ∈ System.run (step [107]) start
    [.put nodeA [1] .empty [[97]] (fun _ => .acked) 1 0,
      .put nodeA [2] .empty [[97]] (fun _ => .acked) 2 0],
    ∃ w ∈ t.log, ∃ w' ∈ t.log, w.envelope.value ≠ w'.envelope.value ∧
      w.envelope.vectorClock.compare w'.envelope.vectorClock = .equal :=
  ⟨Option.get _ (by decide +kernel), Option.get_mem _, by decide +kernel⟩

end Traffic
end ChudDB.Cluster
