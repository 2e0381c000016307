import ChudDB.Lib.Run
import ChudDB.Cluster.AntiEntropy
import ChudDB.Cluster.Coordinator

/-! # The versions of a replica

Three writers reach the store of a replica: `Put` and `Delete` messages of coordinators, which
arrive in any order and at any time, `RepairKeys` messages of other replicas, and its own repair
rounds, which compare the stores at one time and apply what they pull later. None of them looks at
what is stored when it writes. So a delayed message takes a key back to an older version
(`delayed_put_goes_back`). As long as what arrives is not older than what is there and no pulled row
has been overtaken, the versions of a key only advance (`versions_advance`). -/

namespace ChudDB.Cluster
open Lib

/-- A `PutRequest` or a `DeleteRequest`. -/
structure WriteRequest where
  key : Bytes
  envelope : PbEnvelope
  delete : Bool
deriving DecidableEq

/-- A loop over rows that has begun, with the rows still to do: the second one of `RepairKeys`, or
`applyPulls`, whose round has scanned the store `seen`. -/
inductive RepairLoop where
  | repairKeys (rows : List PbRow)
  | applyPulls (seen : NodeStore) (rows : List KeyEnvelope)
deriving DecidableEq

structure Replica where
  store : NodeStore
  inFlight : List WriteRequest
  loops : List RepairLoop
deriving DecidableEq

/-- The `owned` of a step are the answers of `IsOwner`, which change with the range map. -/
inductive Event where
  /-- A coordinator stamps a write with a client's context and sends it. -/
  | sendPut (c : Coordinator) (context : VectorClock) (key value : Bytes) (now : Int)
  | sendDelete (c : Coordinator) (context : VectorClock) (key : Bytes) (now : Int)
  /-- A message arrives. -/
  | deliver (i : Nat) (owned : Bytes → Bool)
  | receiveRepair (rows : List PbRow) (owned : Bytes → Bool)
  /-- A round compares a range with what a peer holds. -/
  | scan (start end_ : Bytes) (peer : NodeStore)
  /-- A loop deals with its next row. -/
  | row (i : Nat) (owned : Bytes → Bool)

/-- `Server.Put` and `Server.Delete`. -/
def NodeStore.serve (r : WriteRequest) (owned : Bytes → Bool) (s : NodeStore) : NodeStore :=
  if r.key = [] then s
  else if !owned r.key then s
  else match fromProto (some r.envelope) with
    | .error _ => s
    | .ok e => ((if r.delete then s.delete r.key e else s.put r.key e).toOption).getD s

namespace Replica

/-- A replica with the given contents. -/
def start (store : NodeStore) : Replica := ⟨store, [], []⟩

/-- The next row of the `i`th loop. An error ends the loop of `RepairKeys`, not that of
`applyPulls`. -/
def nextRow (i : Nat) (owned : Bytes → Bool) (s : Replica) : RepairLoop → Option Replica
  | .repairKeys (row :: rows) =>
    match s.store.repairRow row with
    | .ok store => some { s with store := store, loops := s.loops.set i (.repairKeys rows) }
    | .error _ => some { s with loops := s.loops.set i (.repairKeys []) }
  | .applyPulls seen (row :: rows) =>
    some { s with
      store := (s.store.applyPull row owned).toOption.getD s.store
      loops := s.loops.set i (.applyPulls seen rows) }
  | .repairKeys [] | .applyPulls _ [] => none

def step : System Replica Event := fun s event =>
  match event with
  | .sendPut c context key value now =>
    let e := newPut (context.increment c.nodeID) value now
    some { s with inFlight := s.inFlight ++ [⟨key, envelopeToProto e, false⟩] }
  | .sendDelete c context key now =>
    let e := newDelete (context.increment c.nodeID) now
    some { s with inFlight := s.inFlight ++ [⟨key, envelopeToProto e, true⟩] }
  | .deliver i owned =>
    s.inFlight[i]?.map fun r =>
      { s with store := s.store.serve r owned, inFlight := s.inFlight.eraseIdx i }
  | .receiveRepair rows owned =>
    if rows.all (owned ·.1) then some { s with loops := s.loops ++ [.repairKeys rows] } else some s
  | .scan start end_ peer =>
    match streamRange peer start end_ with
    | .error _ => some s
    | .ok peerRows =>
      let diff := mergeDiff (localRows s.store start end_) peerRows
      some { s with loops := s.loops ++ [.applyPulls s.store diff.toPull] }
  | .row i owned => s.loops[i]?.bind (s.nextRow i owned)

/-- The clock is not behind the one that is stored. -/
def Admits (s : Replica) (key : Bytes) (clock : VectorClock) : Prop :=
  match s.store.get key with
  | none => True
  | some stored => stored.vectorClock.compare clock = .before ∨ stored.vectorClock.compare clock = .equal

/-- A repair that comes in is not behind what is stored, and a pulled row finds what its round has
scanned, or something else that it is not behind. -/
def CurrentRow (s : Replica) : RepairLoop → Prop
  | .repairKeys ((key, some p) :: _) => s.Admits key (vectorClockFromProto p.vectorClock)
  | .applyPulls seen ((key, e) :: _) =>
    s.store.get key = seen.get key ∨ s.Admits key e.vectorClock
  | _ => True

/-- Neither a message nor a row of a repair has been overtaken. -/
def InTime (s : Replica) : Event → Prop
  | .deliver i _ =>
    ∀ r ∈ s.inFlight[i]?, s.Admits r.key (vectorClockFromProto r.envelope.vectorClock)
  | .row i _ => ∀ loop ∈ s.loops[i]?, s.CurrentRow loop
  | _ => True

/-- What changes the store has not been overtaken; nothing is asked of what the handlers refuse. -/
def Current (s : Replica) (event : Event) : Prop :=
  ∀ s' ∈ step s event, s'.store ≠ s.store → s.InTime event

variable {s s' s₀ : Replica} {key : Bytes} {e : Envelope}

instance : Decidable (s.Admits key clock) := by
  unfold Admits
  split <;> infer_instance

instance : DecidablePred s.CurrentRow := fun loop => by
  unfold CurrentRow
  split <;> infer_instance

instance : DecidablePred s.InTime
  | .deliver .. => inferInstanceAs (Decidable (∀ r ∈ s.inFlight[_]?, s.Admits _ _))
  | .row .. => inferInstanceAs (Decidable (∀ loop ∈ s.loops[_]?, s.CurrentRow loop))
  | .sendPut .. | .sendDelete .. | .receiveRepair .. | .scan .. => isTrue trivial

instance : DecidablePred s.Current := fun event =>
  inferInstanceAs (Decidable (∀ s' ∈ step s event, s'.store ≠ s.store → s.InTime event))

/-! ## One write -/

/-- Every key of the first store is in the second one, with a clock that is not older. -/
def Advances (s s' : NodeStore) : Prop :=
  ∀ key e, s.get key = some e → ∃ e', s'.get key = some e' ∧ e.vectorClock.get ≤ e'.vectorClock.get

theorem Advances.refl (s : NodeStore) : Advances s s := fun _ e he => ⟨e, he, le_refl _⟩

theorem Advances.trans {s s' s'' : NodeStore} (h : Advances s s') (h' : Advances s' s'') :
    Advances s s'' := by
  intro key e he
  obtain ⟨e', he', hle⟩ := h key e he
  obtain ⟨e'', he'', hle'⟩ := h' key e' he'
  exact ⟨e'', he'', hle.trans hle'⟩

theorem admits_iff : s.Admits key clock ↔
    ∀ e, s.store.get key = some e → e.vectorClock.get ≤ clock.get := by
  unfold Admits
  split
  · rename_i hnone
    exact iff_of_true trivial fun e he => by simp [hnone] at he
  · rename_i stored hstored
    rw [← VectorClock.le_iff_compare]
    constructor
    · intro hle e he
      rw [hstored] at he
      cases he
      exact hle
    · exact fun h => h stored hstored

/-- Writing an envelope that is not behind. -/
theorem advances_writeEnvelope {store' : NodeStore} (h : s.Admits key e.vectorClock)
    (hwrite : s.store.writeEnvelope key e = .ok store') : Advances s.store store' := by
  obtain ⟨e', hclock, rfl⟩ := NodeStore.clock_of_writeEnvelope hwrite
  intro key' old hold
  by_cases hkey : key' = key
  · subst hkey
    refine ⟨e', by rw [NodeStore.get_set, if_pos rfl], ?_⟩
    rw [hclock]
    exact admits_iff.mp h old hold
  · exact ⟨old, by rw [NodeStore.get_set, if_neg hkey]; exact hold, le_refl _⟩

/-- A write that fails changes nothing. -/
theorem advances_getD {result : Except EnvelopeError NodeStore}
    (h : ∀ store', result = .ok store' → Advances s.store store') :
    Advances s.store (result.toOption.getD s.store) := by
  cases result with
  | error err => exact Advances.refl _
  | ok store' => exact h store' rfl

theorem clock_of_fromProto {p : PbEnvelope} (h : fromProto (some p) = .ok e) :
    e.vectorClock = vectorClockFromProto p.vectorClock :=
  Envelope.vectorClock_of_stored h

theorem advances_serve (r : WriteRequest) (owned : Bytes → Bool)
    (h : s.Admits r.key (vectorClockFromProto r.envelope.vectorClock)) :
    Advances s.store (s.store.serve r owned) := by
  rw [NodeStore.serve]
  split
  · exact Advances.refl _
  split
  · exact Advances.refl _
  split
  · exact Advances.refl _
  · rename_i e he
    rw [← clock_of_fromProto he] at h
    refine advances_getD fun store' hstore => ?_
    split at hstore
    · obtain ⟨e', hstored, rfl⟩ := NodeStore.delete_eq_ok hstore
      exact advances_writeEnvelope h (by rw [NodeStore.writeEnvelope, hstored]; rfl)
    · obtain ⟨e', hstored, rfl⟩ := NodeStore.put_eq_ok hstore
      exact advances_writeEnvelope h (by rw [NodeStore.writeEnvelope, hstored]; rfl)

theorem advances_repairRow {p : PbEnvelope} {store' : NodeStore}
    (h : s.Admits key (vectorClockFromProto p.vectorClock))
    (hrow : s.store.repairRow (key, some p) = .ok store') : Advances s.store store' := by
  cases he : fromProto (some p) with
  | error err =>
    rw [NodeStore.repairRow, he] at hrow
    cases hrow
  | ok e =>
    rw [NodeStore.repairRow, he] at hrow
    rw [← clock_of_fromProto he] at h
    exact advances_writeEnvelope h ((NodeStore.repair_eq ..).symm.trans hrow)

theorem advances_applyPull (owned : Bytes → Bool) (h : s.Admits key e.vectorClock) :
    Advances s.store ((s.store.applyPull (key, e) owned).toOption.getD s.store) := by
  refine advances_getD fun store' hstore => ?_
  rw [NodeStore.applyPull] at hstore
  split at hstore
  · cases hstore
    exact Advances.refl _
  · rw [NodeStore.repair_eq] at hstore
    exact advances_writeEnvelope h hstore

/-! ## Runs -/

/-- What a round pulls is newer than what it has scanned. -/
def PullsNewer (s : Replica) : Prop :=
  ∀ seen rows, .applyPulls seen rows ∈ s.loops → ∀ key e, (key, e) ∈ rows →
    ∀ old, seen.get key = some old → old.vectorClock.get ≤ e.vectorClock.get

/-- The comparison of a round. -/
theorem le_of_mem_toPull {store peer : NodeStore} {lo hi : Bytes}
    (hstream : Streamed peer lo hi peerRows)
    (hpull : (key, e) ∈ (mergeDiff (localRows store lo hi) peerRows).toPull)
    (hold : store.get key = some old) : old.vectorClock.get ≤ e.vectorClock.get := by
  rw [localRows_eq] at hpull
  have hrows : Ascending (store.scanRawRange lo hi) := NodeStore.ascending_scanRawRange
  have hdiff := diffSpec_mergeDiff hrows hstream.ascending
  obtain ⟨hrow, holder⟩ := (hdiff.pull key e).mp hpull
  rw [NodeStore.lookup_scanRawRange, if_pos (hstream.scanned hrow), hold, hrow, older_some,
    VectorClock.compare_eq_before_iff] at holder
  exact holder.le

theorem PullsNewer.set {loop : RepairLoop} (h : s.PullsNewer)
    (hloop : ∀ seen rows, loop = .applyPulls seen rows → ∀ key e, (key, e) ∈ rows →
      ∀ old, seen.get key = some old → old.vectorClock.get ≤ e.vectorClock.get) :
    PullsNewer { s with store := store', loops := s.loops.set i loop } := by
  intro seen rows hmem
  rcases List.mem_or_eq_of_mem_set hmem with hmem | heq
  · exact h seen rows hmem
  · exact hloop seen rows heq.symm

theorem PullsNewer.nextRow {loop : RepairLoop} (h : s.PullsNewer) (hmem : loop ∈ s.loops)
    (hstep : s.nextRow i owned loop = some s') : s'.PullsNewer := by
  match loop with
  | .repairKeys [] | .applyPulls _ [] => cases hstep
  | .repairKeys ((key, p) :: rows) =>
    rw [Replica.nextRow] at hstep
    split at hstep <;> cases hstep <;> exact h.set nofun
  | .applyPulls seen ((key, e) :: rows) =>
    cases hstep
    refine h.set fun _ _ heq => ?_
    cases heq
    exact fun key e he => h seen _ hmem key e (List.mem_cons_of_mem _ he)

theorem PullsNewer.step (h : s.PullsNewer) (hstep : step s event = some s') : s'.PullsNewer := by
  cases event with
  | sendPut | sendDelete =>
    cases hstep
    exact h
  | deliver i owned =>
    obtain ⟨r, hr, rfl⟩ := Option.map_eq_some_iff.mp hstep
    exact h
  | receiveRepair rows owned =>
    rw [Replica.step] at hstep
    split at hstep
    · cases hstep
      intro seen rows' hmem
      rcases List.mem_append.mp hmem with hmem | hmem
      · exact h seen rows' hmem
      · cases List.mem_singleton.mp hmem
    · cases hstep
      exact h
  | scan start end_ peer =>
    rw [Replica.step] at hstep
    split at hstep
    · cases hstep
      exact h
    · rename_i peerRows hstream
      cases hstep
      intro seen rows' hmem key e he old hold
      rcases List.mem_append.mp hmem with hmem | hmem
      · exact h seen rows' hmem key e he old hold
      · cases List.mem_singleton.mp hmem
        exact le_of_mem_toPull (streamed_of_streamRange hstream) he hold
  | row i owned =>
    obtain ⟨loop, hloop, hrow⟩ := Option.bind_eq_some_iff.mp hstep
    exact h.nextRow (List.mem_of_getElem? hloop) hrow

/-- A row of a loop. -/
theorem nextRow_advances {loop : RepairLoop} (h : s.PullsNewer) (hmem : loop ∈ s.loops)
    (hcurrent : s.CurrentRow loop) (hstep : s.nextRow i owned loop = some s') :
    Advances s.store s'.store := by
  match loop with
  | .repairKeys [] | .applyPulls _ [] => cases hstep
  | .repairKeys ((key, p) :: rows) =>
    rw [nextRow] at hstep
    split at hstep
    · rename_i store hrow
      cases hstep
      cases p with
      | none => cases hrow
      | some p => exact advances_repairRow hcurrent hrow
    · cases hstep
      exact Advances.refl _
  | .applyPulls seen ((key, e) :: rows) =>
    cases hstep
    refine advances_applyPull owned ?_
    rcases hcurrent with hseen | hadmits
    · rw [admits_iff, hseen]
      exact h seen _ hmem key e List.mem_cons_self
    · exact hadmits

/-- One step. -/
theorem step_advances (h : s.PullsNewer) (hcurrent : s.Current event)
    (hstep : step s event = some s') : Advances s.store s'.store := by
  by_cases hsame : s'.store = s.store
  · rw [hsame]
    exact Advances.refl _
  have hcurrent := hcurrent s' hstep hsame
  cases event with
  | sendPut | sendDelete =>
    cases hstep
    exact absurd rfl hsame
  | deliver i owned =>
    obtain ⟨r, hr, rfl⟩ := Option.map_eq_some_iff.mp hstep
    exact advances_serve r owned (hcurrent r hr)
  | receiveRepair | scan =>
    rw [step] at hstep
    split at hstep <;> cases hstep <;> exact absurd rfl hsame
  | row i owned =>
    obtain ⟨loop, hloop, hrow⟩ := Option.bind_eq_some_iff.mp hstep
    exact nextRow_advances h (List.mem_of_getElem? hloop) (hcurrent loop hloop) hrow

theorem run_advances (h : s.PullsNewer) (hcurrent : step.Guarded Current s events)
    (hrun : step.run s events = some s') : s'.PullsNewer ∧ Advances s.store s'.store := by
  refine System.run_invariant_of_guarded
    (I := fun _ s₁ => s₁.PullsNewer ∧ Advances s.store s₁.store) ⟨h, Advances.refl _⟩ ?_ hcurrent hrun
  intro _ s₁ event s₂ hI hcurrent hs
  exact ⟨hI.1.step hs, hI.2.trans (step_advances hI.1 hcurrent hs)⟩

/-- In every run in which nothing has been overtaken, a version that is stored at some time is
followed only by versions with clocks that are not older. -/
theorem versions_advance {contents : NodeStore}
    (hcurrent : step.Guarded Current (start contents) (earlier ++ later))
    (hearlier : step.run (start contents) earlier = some s) (hlater : step.run s later = some s')
    (he : s.store.get key = some e) :
    ∃ e', s'.store.get key = some e' ∧
      (e.vectorClock.compare e'.vectorClock = .before ∨
        e.vectorClock.compare e'.vectorClock = .equal) := by
  have hstart : (start contents).PullsNewer := nofun
  obtain ⟨hnewer, -⟩ := run_advances hstart hcurrent.left hearlier
  obtain ⟨-, hadv⟩ := run_advances hnewer (hcurrent.of_append hearlier) hlater
  obtain ⟨e', he', hle⟩ := hadv key e he
  exact ⟨e', he', VectorClock.le_iff_compare.mp hle⟩

def everything : Bytes → Bool := fun _ => true

/-- The clocks of a client that writes twice through `a`. -/
def onceClock : VectorClock := VectorClock.empty.increment [97]

def twiceClock : VectorClock := onceClock.increment [97]

def firstPut : List Event := [.sendPut nodeA .empty [107] [49] 1, .deliver 0 everything]

/-- A peer has received the second write, a round pulls it, and then the message arrives, too. -/
def secondPut : List Event :=
  [.sendPut nodeA onceClock [107] [50] 2,
    .scan [] [] (NodeStore.empty.set [107] (newPut twiceClock [50] 2)), .row 0 everything,
    .deliver 0 everything]

def afterFirstPut : Replica := (step.run (start .empty) firstPut).get (by decide +kernel)

def afterSecondPut : Replica := (step.run afterFirstPut secondPut).get (by decide +kernel)

theorem versions_advance_pulled :
    afterFirstPut.store.get [107] = some (newPut onceClock [49] 1) ∧
    ∃ e', afterSecondPut.store.get [107] = some e' ∧
      (onceClock.compare e'.vectorClock = .before ∨ onceClock.compare e'.vectorClock = .equal) := by
  have hfirst : afterFirstPut.store.get [107] = some (newPut onceClock [49] 1) := by decide +kernel
  have hcurrent : step.Guarded Current (start .empty) (firstPut ++ secondPut) := by decide +kernel
  exact ⟨hfirst, versions_advance hcurrent (Option.some_get _).symm (Option.some_get _).symm hfirst⟩

/-- A client writes twice, the second time with the clock it got back from the first write. The
second message arrives; the first one has been delayed. -/
def secondFirst : List Event :=
  [.sendPut nodeA .empty [107] [49] 1,
    .sendPut nodeA onceClock [107] [50] 2, .deliver 1 everything]

/-- The first message arrives and takes the key back. -/
theorem delayed_put_goes_back :
    ∃ s ∈ step.run (start .empty) secondFirst, ∃ s' ∈ step s (.deliver 0 everything),
      ∃ e ∈ s.store.get [107], ∃ e' ∈ s'.store.get [107],
        e.vectorClock.compare e'.vectorClock = .after := by
  refine ⟨Option.get _ (by decide +kernel), Option.get_mem _, Option.get _ (by decide +kernel),
    Option.get_mem _, Option.get _ (by decide +kernel), Option.get_mem _,
    Option.get _ (by decide +kernel), Option.get_mem _, by decide +kernel⟩

end Replica
end ChudDB.Cluster
