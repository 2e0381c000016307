import ChudDB.Cluster.Membership

/-! # The failure detector

`Gossiper` (`gossiper.go`): a node probes its peers one at a time, suspects a peer that does not
answer, and declares it dead when it has been suspect for `SuspectTimeout`. The timer is kept beside
the table, and a refutation that arrives by gossip does not reset it. So a peer that is suspected
anew by gossip can be declared dead at once (`stale_timer_kills`). As long as a suspicion that
arrives from elsewhere meets no timer, no peer dies before its time (`no_premature_death`). -/

namespace ChudDB.Cluster
open Lib

/-- Where the goroutine of the gossiper is. -/
inductive GossipPc where
  | idle
  | probing (target : Member)
  /-- `escalateFailure` has read the clock. -/
  | escalating (target : Member) (now : Int)
  /-- `MarkSuspect` has succeeded, and the timer is to be set. -/
  | tracking (nodeID : NodeID) (now : Int)
  /-- The timer has run out, and `MarkDead` is to be called. -/
  | killing (target : Member) (now : Int)
  | clearing (nodeID : NodeID)
deriving DecidableEq, Repr

/-- A gossiper with its table; the clock is the time now. -/
structure Gossiper where
  table : Table
  suspectedSince : NodeID → Option Int
  clock : Int
  pc : GossipPc

inductive GossipOp where
  | advance (time : Nat)
  /-- A record that is received with a request, or in reply to the own gossip. -/
  | merge (record : Member)
  | seedReply (responder : Member)
  /-- `probeRandomPeer` chooses its target. -/
  | probe (nodeID : NodeID)
  /-- The target answers, to a direct or an indirect ping. -/
  | ack (responder : Member)
  /-- Neither ping is answered. -/
  | fail
  | escalate
  | track
  | kill
  | clear

namespace Gossiper

/-- The step of `escalateFailure` behind reading the clock. -/
def escalateFailure (timeout : Int) (g : Gossiper) (target : Member) (now : Int) : Gossiper :=
  match target.status with
  | .alive =>
    let marked := g.table.markSuspect g.clock target.nodeID target.incarnation
    { g with
      table := marked.1
      pc := if marked.2 then .tracking target.nodeID now else .idle }
  | .suspect =>
    let since := (g.suspectedSince target.nodeID).getD now
    { g with
      suspectedSince := Function.update g.suspectedSince target.nodeID (some since)
      pc := if now - since ≥ timeout then .killing target now else .idle }
  | _ => { g with pc := .idle }

def step (timeout : Int) : System Gossiper GossipOp := fun g op =>
  match op, g.pc with
  | .advance time, _ => some { g with clock := g.clock + time }
  | .merge record, _ => some { g with table := (g.table.merge g.clock record).1 }
  | .seedReply responder, .idle => some { g with table := (g.table.upsert g.clock responder).1 }
  | .probe nodeID, .idle =>
    match g.table.members nodeID with
    | none => none
    | some target =>
      if nodeID = g.table.localID ∨ target.status = .dead then none
      else some { g with pc := .probing target }
  | .ack responder, .probing target =>
    some { g with
      table := (g.table.upsert g.clock responder).1
      pc := .clearing target.nodeID }
  | .fail, .probing target => some { g with pc := .escalating target g.clock }
  | .escalate, .escalating target now => some (g.escalateFailure timeout target now)
  | .track, .tracking nodeID now =>
    some { g with
      suspectedSince := Function.update g.suspectedSince nodeID (some now)
      pc := .idle }
  | .kill, .killing target _ =>
    let marked := g.table.markDead g.clock target.nodeID target.incarnation
    some { g with
      table := marked.1
      pc := if marked.2 then .clearing target.nodeID else .idle }
  | .clear, .clearing nodeID =>
    some { g with
      suspectedSince := Function.update g.suspectedSince nodeID none
      pc := .idle }
  | _, _ => none

end Gossiper

namespace Table
variable {t : Table} {id : NodeID} {r : Member} {now : Int} {inc : Counter}

/-- The node is suspect at the incarnation. -/
def SuspectAt (t : Table) (id : NodeID) (inc : Counter) : Prop :=
  ∃ m ∈ t.members id, m.status = .suspect ∧ m.incarnation = inc

/-- Merging the record makes its node suspect anew. -/
def MergeSuspects (t : Table) (r : Member) : Prop :=
  r.status = .suspect ∧ ¬ t.Foreign r ∧ ∀ current ∈ t.members r.nodeID, supersedes r current = true

/-- Installing the record makes its node suspect anew. -/
def UpsertSuspects (t : Table) (r : Member) : Prop :=
  r.status = .suspect ∧ ¬ t.Foreign r ∧ ¬ t.SuspectAt r.nodeID r.incarnation

instance : Decidable (t.SuspectAt id inc) := inferInstanceAs (Decidable (∃ m ∈ _, _))

instance : Decidable (t.MergeSuspects r) := inferInstanceAs (Decidable (_ ∧ _ ∧ _))

instance : Decidable (t.UpsertSuspects r) := inferInstanceAs (Decidable (_ ∧ _ ∧ _))

theorem suspectAt_of_setLocked (h : (t.setLocked now r).SuspectAt id inc) :
    t.SuspectAt id inc ∨ id = r.nodeID ∧ r.status = .suspect ∧ r.incarnation = inc := by
  obtain ⟨m, hm, hstatus, hinc⟩ := h
  rw [members_setLocked] at hm
  split at hm
  · rename_i hid
    cases hm
    exact .inr ⟨hid, hstatus, hinc⟩
  · exact .inl ⟨m, hm, hstatus, hinc⟩

theorem suspectAt_of_upsert (h : (t.upsert now r).1.SuspectAt id inc) :
    t.SuspectAt id inc ∨ id = r.nodeID ∧ t.UpsertSuspects r := by
  rw [upsert] at h
  split at h
  · exact .inl h
  · rename_i hforeign
    have hset := suspectAt_of_setLocked h
    dsimp only at hset
    by_cases hsuspect : t.SuspectAt id inc
    · exact .inl hsuspect
    · obtain ⟨rfl, hstatus, rfl⟩ := hset.resolve_left hsuspect
      exact .inr ⟨rfl, hstatus, hforeign, hsuspect⟩

theorem suspectAt_of_merge (h : (t.merge now r).1.SuspectAt id inc) :
    t.SuspectAt id inc ∨ id = r.nodeID ∧ t.MergeSuspects r := by
  rw [merge] at h
  dsimp only at h
  split at h
  · exact .inl h
  rename_i hforeign
  split at h
  · -- A refutation leaves the local node alive.
    rw [refuteLocked] at h
    split at h
    · exact .inl h
    split at h
    · exact .inl h
    · rcases suspectAt_of_setLocked h with h | ⟨-, hstatus, -⟩
      · exact .inl h
      · cases hstatus
  split at h
  · rename_i hnone
    have hset := suspectAt_of_setLocked h
    refine hset.imp_right fun hset => ⟨hset.1, hset.2.1, hforeign, fun current hcurrent => ?_⟩
    rw [hnone] at hcurrent
    cases hcurrent
  · rename_i current hcurrent
    have hid := t.keyed _ _ hcurrent
    split at h
    · rename_i hsup
      have hset := suspectAt_of_setLocked h
      refine hset.imp_right fun hset => ⟨hset.1, hset.2.1, hforeign, fun current' hcurrent' => ?_⟩
      rw [hcurrent] at hcurrent'
      cases hcurrent'
      exact hsup
    split at h
    · rcases suspectAt_of_setLocked h with h | ⟨hid', hstatus, hinc⟩
      · exact .inl h
      · refine .inl ⟨current, ?_, hstatus, hinc⟩
        rw [hid', hid, hcurrent]
        rfl
    · exact .inl h

theorem suspectAt_of_markSuspect (h : (t.markSuspect now id' inc').1.SuspectAt id inc) :
    t.SuspectAt id inc ∨ id = id' ∧ (t.markSuspect now id' inc').2 = true := by
  rw [markSuspect, mark] at h ⊢
  split at h
  · exact .inl h
  split at h
  · exact .inl h
  · rename_i current hcurrent
    have hid := t.keyed _ _ hcurrent
    split at h
    · exact .inl h
    · rename_i hlocal _ hcond
      have hset := suspectAt_of_setLocked h
      refine hset.imp_right fun hset => ⟨hset.1.trans hid, ?_⟩
      rw [if_neg hlocal, if_neg hcond]

theorem suspectAt_of_markDead (h : (t.markDead now id' inc').1.SuspectAt id inc) :
    t.SuspectAt id inc := by
  rw [markDead, mark] at h
  split at h
  · exact h
  split at h
  · exact h
  split at h
  · exact h
  · rcases suspectAt_of_setLocked h with h | ⟨-, hstatus, -⟩
    · exact h
    · cases hstatus

/-- `MarkDead` succeeds only for a node that is suspect at the incarnation. -/
theorem suspectAt_of_markDead_true (h : (t.markDead now id inc).2 = true) : t.SuspectAt id inc := by
  rw [markDead, mark] at h
  split at h
  · cases h
  split at h
  · cases h
  · rename_i current hcurrent
    split at h
    · cases h
    · rename_i hcond
      rw [not_or, not_ne_iff, not_ne_iff] at hcond
      exact ⟨current, hcurrent, hcond.2, hcond.1⟩

end Table

namespace Gossiper
variable {g g₀ g' : Gossiper} {op : GossipOp} {id : NodeID} {target : Member} {timeout now : Int}

/-- `NewGossiper`. -/
def newGossiper (table : Table) (clock : Int) : Gossiper := ⟨table, fun _ => none, clock, .idle⟩

/-- The timer that the gossiper holds for the node, or may be about to set. -/
def timer (g : Gossiper) (id : NodeID) : Option Int :=
  match g.pc with
  | .escalating target now =>
    if id = target.nodeID then some ((g.suspectedSince id).getD now) else g.suspectedSince id
  | .tracking nodeID now => if id = nodeID then some now else g.suspectedSince id
  | _ => g.suspectedSince id

/-- A suspicion that comes from elsewhere meets no timer, and the own one is recorded at the time
that was read for it. -/
def InStep (g : Gossiper) (op : GossipOp) : Prop :=
  match op, g.pc with
  | .merge r, _ => g.table.MergeSuspects r → g.timer r.nodeID = none
  | .seedReply r, _ | .ack r, _ => g.table.UpsertSuspects r → g.timer r.nodeID = none
  | .escalate, .escalating target now => target.status = .alive → g.clock = now
  | _, _ => True

instance : Decidable (g.InStep op) := by
  unfold InStep
  split <;> infer_instance

/-- What a step does, and where the goroutine is before it. -/
inductive Steps (timeout : Int) (g : Gossiper) : GossipOp → Gossiper → Prop
  | advance {time : Nat} : Steps timeout g (.advance time) { g with clock := g.clock + time }
  | merge {r : Member} : Steps timeout g (.merge r) { g with table := (g.table.merge g.clock r).1 }
  | seedReply {r : Member} (hpc : g.pc = .idle) :
    Steps timeout g (.seedReply r) { g with table := (g.table.upsert g.clock r).1 }
  | probe {nodeID : NodeID} {target : Member} (hpc : g.pc = .idle)
    (htarget : g.table.members nodeID = some target)
    (hprobed : ¬ (nodeID = g.table.localID ∨ target.status = .dead)) :
    Steps timeout g (.probe nodeID) { g with pc := .probing target }
  | ack {r target : Member} (hpc : g.pc = .probing target) :
    Steps timeout g (.ack r)
      { g with table := (g.table.upsert g.clock r).1, pc := .clearing target.nodeID }
  | fail {target : Member} (hpc : g.pc = .probing target) :
    Steps timeout g .fail { g with pc := .escalating target g.clock }
  | escalate {target : Member} {now : Int} (hpc : g.pc = .escalating target now) :
    Steps timeout g .escalate (g.escalateFailure timeout target now)
  | track {nodeID : NodeID} {now : Int} (hpc : g.pc = .tracking nodeID now) :
    Steps timeout g .track
      { g with suspectedSince := Function.update g.suspectedSince nodeID (some now), pc := .idle }
  | kill {target : Member} {now : Int} {dead : Table} {marked : Bool}
    (hpc : g.pc = .killing target now)
    (hmarked : g.table.markDead g.clock target.nodeID target.incarnation = (dead, marked)) :
    Steps timeout g .kill
      { g with table := dead, pc := if marked then .clearing target.nodeID else .idle }
  | clear {nodeID : NodeID} (hpc : g.pc = .clearing nodeID) :
    Steps timeout g .clear
      { g with suspectedSince := Function.update g.suspectedSince nodeID none, pc := .idle }

theorem steps_of_step (h : g.step timeout op = some g') : Steps timeout g op g' := by
  unfold step at h
  split at h
  · cases h
    exact .advance
  · cases h
    exact .merge
  · cases h
    exact .seedReply ‹_›
  · split at h
    · cases h
    split at h
    · cases h
    · cases h
      exact .probe ‹_› ‹_› ‹_›
  · cases h
    exact .ack ‹_›
  · cases h
    exact .fail ‹_›
  · cases h
    exact .escalate ‹_›
  · cases h
    exact .track ‹_›
  · cases h
    exact .kill ‹_› rfl
  · cases h
    exact .clear ‹_›
  · cases h

/-! ## Timers and suspicion -/

theorem timer_escalating (hpc : g.pc = .escalating target now) :
    g.timer target.nodeID = some ((g.suspectedSince target.nodeID).getD now) := by
  rw [timer, hpc]
  exact if_pos rfl

theorem timer_eq_of_suspectedSince (hpc : g.pc = .escalating target now)
    (h : g.suspectedSince id = some since) : g.timer id = some since := by
  rw [timer, hpc]
  dsimp only
  split
  · rw [h, Option.getD_some]
  · exact h

/-- A timer of a suspect node was there before the step, when the node was already suspect, or it is
set to the time of the step. -/
def Timed (g g' : Gossiper) : Prop :=
  ∀ id since inc, g'.timer id = some since → g'.table.SuspectAt id inc →
    g.timer id = some since ∧ g.table.SuspectAt id inc ∨ g'.clock ≤ since

theorem timer_ite {c : Prop} [Decidable c] {pc pc' : GossipPc} :
    timer { g with pc := if c then pc else pc' } id =
      if c then timer { g with pc := pc } id else timer { g with pc := pc' } id := by
  split <;> rfl

theorem timed_markSuspect (hpc : g.pc = .escalating target now) (hclock : g.clock = now) :
    let marked := g.table.markSuspect g.clock target.nodeID target.incarnation
    Timed g { g with
      table := marked.1
      pc := if marked.2 then .tracking target.nodeID now else .idle } := by
  intro marked id since inc htimer hsuspect
  have htable := Table.suspectAt_of_markSuspect hsuspect
  rw [timer_ite (g := { g with table := marked.1 })] at htimer
  split at htimer
  · by_cases hid : id = target.nodeID
    · have hsince : some now = some since := (if_pos hid).symm.trans htimer
      exact .inr (hclock.trans (Option.some.inj hsince)).le
    · have hsince : g.suspectedSince id = some since := (if_neg hid).symm.trans htimer
      exact .inl ⟨timer_eq_of_suspectedSince hpc hsince, htable.resolve_right fun h => hid h.1⟩
  · rename_i hmarked
    exact .inl ⟨timer_eq_of_suspectedSince hpc htimer, htable.resolve_right fun h => hmarked h.2⟩

theorem timed_escalateFailure (hpc : g.pc = .escalating target now)
    (hok : target.status = .alive → g.clock = now) :
    Timed g (g.escalateFailure timeout target now) := by
  rw [escalateFailure]
  split
  · rename_i hstatus
    exact timed_markSuspect hpc (hok hstatus)
  · intro id since inc htimer hsuspect
    refine .inl ⟨?_, hsuspect⟩
    dsimp only at htimer
    rw [timer_ite (g := ⟨g.table, Function.update g.suspectedSince target.nodeID
      (some ((g.suspectedSince target.nodeID).getD now)), g.clock, .idle⟩)] at htimer
    have htimer : Function.update g.suspectedSince target.nodeID
        (some ((g.suspectedSince target.nodeID).getD now)) id = some since := by
      split at htimer <;> exact htimer
    rw [Function.update_apply] at htimer
    split at htimer
    · rename_i hid
      rw [hid, timer_escalating hpc, htimer]
    · exact timer_eq_of_suspectedSince hpc htimer
  · intro id since inc htimer hsuspect
    exact .inl ⟨timer_eq_of_suspectedSince hpc htimer, hsuspect⟩

theorem step_timed (hok : g.InStep op) (h : g.step timeout op = some g') : Timed g g' := by
  intro id since inc htimer hsuspect
  obtain ⟨table, suspectedSince, clock, pc⟩ := g
  cases steps_of_step h with
  | advance => exact .inl ⟨htimer, hsuspect⟩
  | merge =>
    rcases Table.suspectAt_of_merge hsuspect with hold | ⟨rfl, hnew⟩
    · exact .inl ⟨htimer, hold⟩
    · cases htimer.symm.trans (hok hnew)
  | seedReply hpc =>
    rcases Table.suspectAt_of_upsert hsuspect with hold | ⟨rfl, hnew⟩
    · exact .inl ⟨htimer, hold⟩
    · cases htimer.symm.trans (hok hnew)
  | probe hpc =>
    obtain rfl : pc = _ := hpc
    exact .inl ⟨htimer, hsuspect⟩
  | ack hpc =>
    obtain rfl : pc = _ := hpc
    rcases Table.suspectAt_of_upsert hsuspect with hold | ⟨rfl, hnew⟩
    · exact .inl ⟨htimer, hold⟩
    · cases htimer.symm.trans (hok hnew)
  | @fail target hpc =>
    obtain rfl : pc = _ := hpc
    by_cases hid : id = target.nodeID
    · have hsince : some ((suspectedSince id).getD clock) = some since :=
        (if_pos hid).symm.trans htimer
      cases hold : suspectedSince id with
      | none =>
        rw [hold] at hsince
        exact .inr (Option.some.inj hsince).le
      | some since' =>
        rw [hold] at hsince
        exact .inl ⟨hold.trans hsince, hsuspect⟩
    · have hsince : suspectedSince id = some since := (if_neg hid).symm.trans htimer
      exact .inl ⟨hsince, hsuspect⟩
  | escalate hpc =>
    obtain rfl : pc = _ := hpc
    exact timed_escalateFailure rfl hok id since inc htimer hsuspect
  | @track nodeID now hpc =>
    obtain rfl : pc = _ := hpc
    have hsince : Function.update suspectedSince nodeID (some now) id = some since := htimer
    rw [Function.update_apply] at hsince
    exact .inl ⟨hsince, hsuspect⟩
  | @kill _ _ dead _ hpc hmarked =>
    obtain rfl : pc = _ := hpc
    rw [timer_ite (g := ⟨dead, suspectedSince, clock, .idle⟩)] at htimer
    have hsince : suspectedSince id = some since := by
      split at htimer <;> exact htimer
    obtain rfl : _ = dead := congrArg Prod.fst hmarked
    exact .inl ⟨hsince, Table.suspectAt_of_markDead hsuspect⟩
  | @clear nodeID hpc =>
    obtain rfl : pc = _ := hpc
    have hsince : Function.update suspectedSince nodeID none id = some since := htimer
    rw [Function.update_apply] at hsince
    split at hsince
    · cases hsince
    · exact .inl ⟨hsince, hsuspect⟩

/-! ## Runs -/

/-- The times that the goroutine has read lie in the past, and a timer has run out for a peer that
is about to be declared dead. -/
structure PcInv (timeout : Int) (g : Gossiper) : Prop where
  escalating : ∀ target now, g.pc = .escalating target now → now ≤ g.clock
  killing : ∀ target now, g.pc = .killing target now → now ≤ g.clock ∧
    ∃ since, g.suspectedSince target.nodeID = some since ∧ timeout ≤ now - since

theorem PcInv.of_idle (hpc : g.pc = .idle) : PcInv timeout g where
  escalating _ _ h := by rw [hpc] at h; cases h
  killing _ _ h := by rw [hpc] at h; cases h

theorem PcInv.of_clearing (hpc : g.pc = .clearing id) : PcInv timeout g where
  escalating _ _ h := by rw [hpc] at h; cases h
  killing _ _ h := by rw [hpc] at h; cases h

theorem PcInv.escalateFailure (hnow : now ≤ g.clock) :
    PcInv timeout (g.escalateFailure timeout target now) := by
  rw [Gossiper.escalateFailure]
  split
  · refine ⟨fun target' now' hpc => ?_, fun target' now' hpc => ?_⟩ <;>
      (dsimp only at hpc; split at hpc <;> cases hpc)
  · refine ⟨fun target' now' hpc => ?_, fun target' now' hpc => ?_⟩
    · dsimp only at hpc
      split at hpc <;> cases hpc
    · dsimp only at hpc
      split at hpc
      · rename_i hexpired
        cases hpc
        exact ⟨hnow, _, Function.update_self .., hexpired⟩
      · cases hpc
  · exact .of_idle rfl

theorem PcInv.step (hI : PcInv timeout g) (h : g.step timeout op = some g') : PcInv timeout g' := by
  cases steps_of_step h with
  | @advance time =>
    have hclock : g.clock ≤ g.clock + time := by omega
    exact ⟨fun target now hpc => (hI.escalating target now hpc).trans hclock,
      fun target now hpc => (hI.killing target now hpc).imp_left fun hle => hle.trans hclock⟩
  | merge => exact ⟨hI.escalating, hI.killing⟩
  | seedReply hpc => exact .of_idle hpc
  | probe => exact ⟨fun _ _ hpc => (by cases hpc), fun _ _ hpc => (by cases hpc)⟩
  | ack => exact .of_clearing rfl
  | fail => exact ⟨fun _ _ hpc => (by cases hpc; exact le_rfl), fun _ _ hpc => (by cases hpc)⟩
  | escalate hpc => exact .escalateFailure (hI.escalating _ _ hpc)
  | track => exact .of_idle rfl
  | @kill _ _ _ marked =>
    cases marked with
    | true => exact .of_clearing rfl
    | false => exact .of_idle rfl
  | clear => exact .of_idle rfl

/-- How the state of the gossiper goes together with its run so far. -/
structure Inv (timeout : Int) (g₀ : Gossiper) (ops : List GossipOp) (g : Gossiper) : Prop where
  run : (step timeout).run g₀ ops = some g
  pc : PcInv timeout g
  timers : ∀ id since inc, g.timer id = some since → g.table.SuspectAt id inc →
    (step timeout).HeldSince g₀ ops (·.clock ≤ since) (·.table.SuspectAt id inc)

theorem inv_start (table : Table) (clock : Int) :
    Inv timeout (newGossiper table clock) [] (newGossiper table clock) where
  run := rfl
  pc := .of_idle rfl
  timers _ _ _ htimer := by cases htimer

theorem Inv.step (hI : Inv timeout g₀ ops g) (hok : g.InStep op)
    (h : g.step timeout op = some g') : Inv timeout g₀ (ops ++ [op]) g' := by
  have hrun : (Gossiper.step timeout).run g₀ (ops ++ [op]) = some g' :=
    System.run_concat.mpr ⟨g, hI.run, h⟩
  refine ⟨hrun, hI.pc.step h, fun id since inc htimer hsuspect => ?_⟩
  rcases step_timed hok h id since inc htimer hsuspect with ⟨htimer, hold⟩ | hclock
  · exact (hI.timers id since inc htimer hold).concat hrun hsuspect
  · exact System.heldSince_now hrun hclock hsuspect

/-- In a run in which every suspicion from elsewhere meets no timer, a peer that is declared dead
has been suspect at its incarnation since a time that lies `SuspectTimeout` back. -/
theorem no_premature_death (table : Table) (clock : Int)
    (hok : (step timeout).Guarded InStep (newGossiper table clock) ops)
    (hrun : (step timeout).run (newGossiper table clock) ops = some g)
    (hpc : g.pc = .killing target now)
    (hdead : (g.table.markDead g.clock target.nodeID target.incarnation).2 = true) :
    now ≤ g.clock ∧ (step timeout).HeldSince (newGossiper table clock) ops
      (·.clock ≤ now - timeout) (·.table.SuspectAt target.nodeID target.incarnation) := by
  have hI : Inv timeout (newGossiper table clock) ops g :=
    System.run_invariant_of_guarded (inv_start table clock) (fun hI hok h => hI.step hok h) hok hrun
  obtain ⟨hclock, since, hsince, htimeout⟩ := hI.pc.killing target now hpc
  have htimer : g.timer target.nodeID = some since := by
    rw [timer, hpc]
    exact hsince
  have hheld := hI.timers _ since _ htimer (Table.suspectAt_of_markDead_true hdead)
  exact ⟨hclock, hheld.mono fun u hu => by omega⟩

/-- A node that knows one peer, which is alive. -/
def sampleTable : Table :=
  ((Table.newTable [99] 0 ⟨[97], [], [], .alive, 1, none, 0, 0⟩).merge 0
    ⟨[98], [99], [], .alive, 1, none, 0, 0⟩).1

/-- The peer fails two probes that are `SuspectTimeout` apart. -/
def twoFailures : List GossipOp :=
  [.probe [98], .fail, .escalate, .track, .advance 5, .probe [98], .fail, .escalate]

def afterFailures : Gossiper :=
  ((step 5).run (newGossiper sampleTable 0) twoFailures).get (by decide +kernel)

theorem no_premature_death_twoFailures :
    (step 5).run (newGossiper sampleTable 0) twoFailures = some afterFailures ∧
    ∃ target, afterFailures.pc = .killing target 5 ∧ (step 5).HeldSince (newGossiper sampleTable 0)
      twoFailures (·.clock ≤ 5 - 5) (·.table.SuspectAt target.nodeID target.incarnation) := by
  have hrun : (step 5).run (newGossiper sampleTable 0) twoFailures = some afterFailures :=
    (Option.some_get _).symm
  have hok : (step 5).Guarded InStep (newGossiper sampleTable 0) twoFailures := by decide +kernel
  have hpc : afterFailures.pc = .killing ⟨[98], [99], [], .suspect, 1, some 0, 3, 0⟩ 5 := by
    decide +kernel
  exact ⟨hrun, _, hpc, (no_premature_death sampleTable 0 hok hrun hpc (by decide +kernel)).2⟩

/-- A peer that is suspected at time 0 refutes by gossip. At time 10 another node's suspicion of it
arrives, and the next failed probe finds the timer of time 0. -/
theorem stale_timer_kills :
    let status (g : Gossiper) := (g.clock, (g.table.members [98]).map (·.status))
    let refuted : List GossipOp :=
      [.probe [98], .fail, .escalate, .track, .merge ⟨[98], [99], [], .alive, 2, none, 0, 0⟩,
        .advance 10]
    let killed : List GossipOp :=
      [.merge ⟨[98], [99], [], .suspect, 2, none, 0, 0⟩, .probe [98], .fail, .escalate, .kill]
    ((step 5).run (newGossiper sampleTable 0) refuted).map status = some (10, some .alive) ∧
    ((step 5).run (newGossiper sampleTable 0) (refuted ++ killed)).map status =
      some (10, some .dead) := by
  decide +kernel

end Gossiper
end ChudDB.Cluster
