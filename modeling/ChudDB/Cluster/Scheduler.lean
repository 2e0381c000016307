import ChudDB.Lib.Layers
import ChudDB.Cluster.Assignment
import ChudDB.Cluster.Config
import ChudDB.Cluster.RangeMapGossip
import ChudDB.Cluster.TabletScan

/-! # The tablet scheduler

The tablet scheduler (`scheduler.go`) looks at the ranges of the map that the local node is a
replica of. It splits a range that is too large and merges two neighbours that are small enough,
once it has seen them for some ticks. It proposes a map with the new ranges in the place of the old
ones, and merges the proposal into the table. A tick makes at most one change. -/

namespace ChudDB.Cluster
open Lib

/-! ## Identifiers of proposals -/

def hexDigit (n : UInt8) : UInt8 := if n < 10 then 48 + n else 87 + n

/-- `hex.EncodeToString`. -/
def hexEncode (b : Bytes) : Bytes := b.flatMap fun x => [hexDigit (x / 16), hexDigit (x % 16)]

/-- The ranges in the order of their bounds, with the replicas of each in order. -/
def canonicalRanges (ranges : List Range) : List Range :=
  (ranges.map fun r => { r with replicas := r.replicas.insertionSort (· ≤ ·) }).insertionSort
    fun a b => a.start < b.start ∨ a.start = b.start ∧ a.end_ ≤ b.end_

/-- What `ProposalID` feeds to the hash. -/
def proposalStream (ranges : List Range) : Bytes :=
  let canonical := canonicalRanges ranges
  beBytes 8 canonical.length ++ canonical.flatMap fun r =>
    lengthPrefixed r.start ++ lengthPrefixed r.end_ ++ beBytes 8 r.replicas.length ++
      r.replicas.flatMap lengthPrefixed

/-- `ProposalID`. The hash is `crypto/sha256`. -/
def proposalID (sha256 : Bytes → Bytes) (ranges : List Range) : Bytes :=
  hexEncode (sha256 (proposalStream ranges))

theorem proposalID_ne_nil {sha256 : Bytes → Bytes} (h : ∀ data, (sha256 data).length = 32)
    (ranges : List Range) : proposalID sha256 ranges ≠ [] := by
  have hne : sha256 (proposalStream ranges) ≠ [] := by
    intro hnil
    have hlength := h (proposalStream ranges)
    rw [hnil] at hlength
    cases hlength
  obtain ⟨x, b, hb⟩ := List.exists_cons_of_ne_nil hne
  rw [proposalID, hb, hexEncode, List.flatMap_cons]
  exact List.cons_ne_nil _ _

/-! ## The scheduler

A round of a tick is taken apart: it attempts a change or not, the change makes a proposal or fails,
and the proposal is applied. -/

/-- A call of `splitRange` or of `mergeRanges`. -/
inductive Change where
  | split (index : Nat)
  | merge (leftIndex : Nat)
deriving DecidableEq, Repr

namespace Change

def index : Change → Nat
  | split i => i
  | merge i => i

/-- How many ranges a change replaces, and how many it puts in their place. -/
def width : Change → Nat
  | split _ => 1
  | merge _ => 2

def newWidth : Change → Nat
  | split _ => 2
  | merge _ => 1

/-- The ranges that a change of the map is about. -/
def ranges (c : Change) (m : RangeMap) : List Range := (m.ranges.drop c.index).take c.width

end Change

/-- `settledRange`. -/
structure SettledRange where
  start : Bytes
  end_ : Bytes
  generation : Counter
  proposalID : Bytes
deriving DecidableEq, Repr

def Range.settledKey (r : Range) : SettledRange := ⟨r.start, r.end_, r.generation, r.proposalID⟩

/-- `Scheduler`. The functions are `replicaScore` and `ProposalID`, and what `EstimateSize` and
`PickSplitBoundary` return for the store as it is. -/
structure Scheduler where
  cfg : Config
  replicaScore : Bytes → Bytes → NodeID → Counter
  proposalID : List Range → Bytes
  estimate : Bytes → Bytes → Option Int
  boundary : Bytes → Bytes → Option Bytes
  settled : SettledRange → Int

/-- The scheduler of `NewScheduler` with the counters `settled`. -/
def schedulerOver {ε : Type u} (cfg : Config) (sum64 : Bytes → Counter) (sha256 : Bytes → Bytes)
    (scanner : RangeScanner ε) (settled : SettledRange → Int) : Scheduler where
  cfg := cfg
  replicaScore := replicaScore sum64
  proposalID := proposalID sha256
  estimate start end_ := (estimateSize scanner start end_).toOption
  boundary start end_ := (pickSplitBoundary scanner start end_).toOption
  settled := settled

/-- `NewScheduler`. -/
def newScheduler {ε : Type u} (cfg : Config) (sum64 : Bytes → Counter) (sha256 : Bytes → Bytes)
    (scanner : RangeScanner ε) : Scheduler :=
  schedulerOver cfg sum64 sha256 scanner fun _ => 0

namespace Scheduler

/-- `apply` to the table that the snapshot was taken of. -/
def apply (table proposal : RangeMap) : Option RangeMap :=
  match table.tableMerge proposal with
  | (merged, .ok true) => some merged
  | _ => none

/-- The children of a split, with the identifier of the proposal that they make. -/
def splitChildren (s : Scheduler) (current : Range) (boundary : Bytes)
    (leftReplicas rightReplicas : List NodeID) : List Range :=
  let children proposalID : List Range :=
    [⟨current.start, boundary, leftReplicas, current.generation + 1, proposalID⟩,
      ⟨boundary, current.end_, rightReplicas, current.generation + 1, proposalID⟩]
  children (s.proposalID (children []))

/-- What `splitRange` passes to `apply`. -/
def splitProposal (s : Scheduler) (snapshot : RangeMap) (index : Nat) (candidates : List NodeID) :
    Option RangeMap := do
  let current ← snapshot.ranges[index]?
  if current.generation = maxUint64 then none
  else
    let boundary ← s.boundary current.start current.end_
    if boundary = [] ∨ boundary = current.start ∨ boundary = current.end_ then none
    else
      let leftReplicas ← (assignReplicas (s.replicaScore current.start boundary) candidates
        current.replicas s.cfg.replicationFactor).toOption
      let rightReplicas ← (assignReplicas (s.replicaScore boundary current.end_) candidates
        current.replicas s.cfg.replicationFactor).toOption
      some ⟨snapshot.ranges.take index ++
        s.splitChildren current boundary leftReplicas rightReplicas ++
        snapshot.ranges.drop (index + 1)⟩

/-- `splitRange`: the table afterwards, if it returns true. -/
def splitRange (s : Scheduler) (snapshot : RangeMap) (index : Nat) (candidates : List NodeID) :
    Option RangeMap :=
  (s.splitProposal snapshot index candidates).bind (apply snapshot)

def intersectReplicas (left right : List NodeID) : List NodeID := left.filter (· ∈ right)

/-- The range that a merge puts in the place of two. -/
def mergedRange (s : Scheduler) (left right : Range) (replicas : List NodeID) : Range :=
  let merged proposalID : Range :=
    ⟨left.start, right.end_, replicas, max left.generation right.generation + 1, proposalID⟩
  merged (s.proposalID [merged []])

/-- What `mergeRanges` passes to `apply`. -/
def mergeProposal (s : Scheduler) (snapshot : RangeMap) (leftIndex : Nat)
    (candidates : List NodeID) : Option RangeMap := do
  let left ← snapshot.ranges[leftIndex]?
  let right ← snapshot.ranges[leftIndex + 1]?
  if max left.generation right.generation = maxUint64 then none
  else
    let retained := intersectReplicas left.replicas right.replicas
    let replicas ← (assignReplicas (s.replicaScore left.start right.end_) candidates retained
      s.cfg.replicationFactor).toOption
    some ⟨snapshot.ranges.take leftIndex ++ [s.mergedRange left right replicas] ++
      snapshot.ranges.drop (leftIndex + 2)⟩

/-- `mergeRanges`: the table afterwards, if it returns true. -/
def mergeRanges (s : Scheduler) (snapshot : RangeMap) (leftIndex : Nat)
    (candidates : List NodeID) : Option RangeMap :=
  (s.mergeProposal snapshot leftIndex candidates).bind (apply snapshot)

/-- `updateSettled`. -/
def updateSettled (s : Scheduler) (snapshot : RangeMap) : Scheduler :=
  { s with settled := fun key =>
      if (snapshot.ranges.filter (s.cfg.nodeID ∈ ·.replicas)).any (·.settledKey = key) then
        s.settled key + 1
      else 0 }

def isSettled (s : Scheduler) (r : Range) : Bool :=
  s.settled r.settledKey ≥ s.cfg.tabletSettlingTicks

/-- The change that a round of `tick` attempts. -/
def attempt (s : Scheduler) (snapshot : RangeMap) (i : Nat) : Option Change := do
  let r ← snapshot.ranges[i]?
  if s.cfg.nodeID ∉ r.replicas ∨ ¬ s.isSettled r then none
  else
    let size ← s.estimate r.start r.end_
    if size ≥ s.cfg.tabletSplitBytes then some (.split i)
    else if size ≤ s.cfg.tabletMergeBytes then
      let next ← snapshot.ranges[i + 1]?
      if s.cfg.nodeID ∉ next.replicas ∨ ¬ s.isSettled next then none
      else
        let nextSize ← s.estimate next.start next.end_
        if nextSize ≤ s.cfg.tabletMergeBytes then some (.merge i) else none
    else none

/-- One round of the loop of `tick`: the table afterwards, if the round returns. -/
def visit (s : Scheduler) (snapshot : RangeMap) (candidates : List NodeID) (i : Nat) :
    Option RangeMap := do
  match ← s.attempt snapshot i with
  | .split index => s.splitRange snapshot index candidates
  | .merge leftIndex => s.mergeRanges snapshot leftIndex candidates

/-- `tick`, with the alive nodes: the scheduler and the table afterwards. -/
def tick (s : Scheduler) (table : RangeMap) (candidates : List NodeID) : Scheduler × RangeMap :=
  let s := s.updateSettled table
  (s, ((List.range table.ranges.length).findSome? (s.visit table candidates)).getD table)

end Scheduler

/-- The map has a range with these bounds, generation and proposal on the node. -/
def RangeMap.Shows (m : RangeMap) (nodeID : NodeID) (key : SettledRange) : Prop :=
  ∃ r ∈ m.ranges, r.settledKey = key ∧ nodeID ∈ r.replicas

instance RangeMap.decidableShows {m : RangeMap} {nodeID : NodeID} {key : SettledRange} :
    Decidable (m.Shows nodeID key) :=
  inferInstanceAs (Decidable (∃ r ∈ m.ranges, r.settledKey = key ∧ nodeID ∈ r.replicas))

namespace Scheduler

theorem settled_updateSettled (s : Scheduler) (m : RangeMap) (key : SettledRange) :
    (s.updateSettled m).settled key =
      if m.Shows s.cfg.nodeID key then s.settled key + 1 else 0 := by
  have hiff : (m.ranges.filter (s.cfg.nodeID ∈ ·.replicas)).any (·.settledKey = key) = true ↔
      m.Shows s.cfg.nodeID key := by
    simp only [List.any_eq_true, List.mem_filter, decide_eq_true_eq, RangeMap.Shows]
    exact exists_congr fun r => by rw [and_assoc, and_comm (a := _ ∈ r.replicas)]
  rw [updateSettled]
  exact if_congr hiff rfl rfl

/-! ## Attempts and proposals -/

def proposal (s : Scheduler) (snapshot : RangeMap) (candidates : List NodeID) :
    Change → Option RangeMap
  | .split i => s.splitProposal snapshot i candidates
  | .merge i => s.mergeProposal snapshot i candidates

variable {s : Scheduler} {m m' p : RangeMap} {candidates : List NodeID} {c : Change} {i : Nat}

/-- A round of `tick` applies the proposal of the change that it attempts. -/
theorem visit_eq : s.visit m candidates i =
    (s.attempt m i).bind fun c => (s.proposal m candidates c).bind (apply m) := by
  rw [visit, Option.bind_eq_bind]
  refine congrArg _ (funext fun c => ?_)
  cases c <;> rfl

theorem of_toOption_eq_some {x : Except ε α} (h : x.toOption = some a) : x = .ok a := by
  cases x with
  | error err => cases h
  | ok b => exact congrArg Except.ok (Option.some.inj h)

theorem splitProposal_eq_some_iff : s.splitProposal m i candidates = some p ↔
    ∃ current boundary leftReplicas rightReplicas, m.ranges[i]? = some current ∧
      current.generation ≠ maxUint64 ∧
      s.boundary current.start current.end_ = some boundary ∧
      ¬ (boundary = [] ∨ boundary = current.start ∨ boundary = current.end_) ∧
      assignReplicas (s.replicaScore current.start boundary) candidates current.replicas
        s.cfg.replicationFactor = .ok leftReplicas ∧
      assignReplicas (s.replicaScore boundary current.end_) candidates current.replicas
        s.cfg.replicationFactor = .ok rightReplicas ∧
      p = ⟨m.ranges.take i ++ s.splitChildren current boundary leftReplicas rightReplicas ++
        m.ranges.drop (i + 1)⟩ := by
  constructor
  · intro h
    obtain ⟨current, hcurrent, h⟩ := Option.bind_eq_some_iff.mp h
    split at h
    · cases h
    rename_i hgen
    obtain ⟨boundary, hboundary, h⟩ := Option.bind_eq_some_iff.mp h
    split at h
    · cases h
    rename_i hinside
    obtain ⟨leftReplicas, hleft, h⟩ := Option.bind_eq_some_iff.mp h
    obtain ⟨rightReplicas, hright, h⟩ := Option.bind_eq_some_iff.mp h
    exact ⟨current, boundary, leftReplicas, rightReplicas, hcurrent, hgen, hboundary, hinside,
      of_toOption_eq_some hleft, of_toOption_eq_some hright, (Option.some.inj h).symm⟩
  · rintro ⟨current, boundary, left, right, hcurrent, hgen, hboundary, hinside, hleft, hright, rfl⟩
    rw [splitProposal, hcurrent, Option.bind_eq_bind, Option.bind_some, if_neg hgen, hboundary,
      Option.bind_eq_bind, Option.bind_some, if_neg hinside, hleft, hright]
    rfl

theorem mergeProposal_eq_some_iff : s.mergeProposal m i candidates = some p ↔
    ∃ left right replicas, m.ranges[i]? = some left ∧ m.ranges[i + 1]? = some right ∧
      max left.generation right.generation ≠ maxUint64 ∧
      assignReplicas (s.replicaScore left.start right.end_) candidates
        (intersectReplicas left.replicas right.replicas) s.cfg.replicationFactor = .ok replicas ∧
      p = ⟨m.ranges.take i ++ [s.mergedRange left right replicas] ++ m.ranges.drop (i + 2)⟩ := by
  constructor
  · intro h
    obtain ⟨left, hleft, h⟩ := Option.bind_eq_some_iff.mp h
    obtain ⟨right, hright, h⟩ := Option.bind_eq_some_iff.mp h
    split at h
    · cases h
    rename_i hgen
    obtain ⟨replicas, hreplicas, h⟩ := Option.bind_eq_some_iff.mp h
    exact ⟨left, right, replicas, hleft, hright, hgen, of_toOption_eq_some hreplicas,
      (Option.some.inj h).symm⟩
  · rintro ⟨left, right, replicas, hleft, hright, hgen, hreplicas, rfl⟩
    rw [mergeProposal, hleft, Option.bind_eq_bind, Option.bind_some, hright, Option.bind_eq_bind,
      Option.bind_some, if_neg hgen]
    dsimp only
    rw [hreplicas]
    rfl

/-- What `tick` asks of each range that it changes. -/
def Ready (s : Scheduler) (r : Range) : Prop := s.cfg.nodeID ∈ r.replicas ∧ s.isSettled r = true

theorem ready_iff {r : Range} : s.Ready r ↔ ¬ (s.cfg.nodeID ∉ r.replicas ∨ ¬ s.isSettled r) := by
  rw [not_or, not_not, not_not, Ready]

theorem attempt_cases (h : s.attempt m i = some c) :
    (c = .split i ∧ ∃ r size, m.ranges[i]? = some r ∧ s.Ready r ∧
      s.estimate r.start r.end_ = some size ∧ s.cfg.tabletSplitBytes ≤ size) ∨
    (c = .merge i ∧ ∃ left right size size', m.ranges[i]? = some left ∧
      m.ranges[i + 1]? = some right ∧ s.Ready left ∧ s.Ready right ∧
      s.estimate left.start left.end_ = some size ∧ size ≤ s.cfg.tabletMergeBytes ∧
      s.estimate right.start right.end_ = some size' ∧ size' ≤ s.cfg.tabletMergeBytes) := by
  obtain ⟨r, hr, h⟩ := Option.bind_eq_some_iff.mp h
  split at h
  · cases h
  rename_i hready
  obtain ⟨size, hsize, h⟩ := Option.bind_eq_some_iff.mp h
  split at h
  · rename_i hlarge
    exact .inl ⟨(Option.some.inj h).symm, r, size, hr, ready_iff.mpr hready, hsize, hlarge⟩
  split at h
  · rename_i hsmall
    obtain ⟨next, hnext, h⟩ := Option.bind_eq_some_iff.mp h
    split at h
    · cases h
    rename_i hready'
    obtain ⟨nextSize, hnextSize, h⟩ := Option.bind_eq_some_iff.mp h
    split at h
    · rename_i hsmall'
      exact .inr ⟨(Option.some.inj h).symm, r, next, size, nextSize, hr, hnext,
        ready_iff.mpr hready, ready_iff.mpr hready', hsize, hsmall, hnextSize, hsmall'⟩
    · cases h
  · cases h

theorem attempt_eq_split {r : Range} {size : Int} (hr : m.ranges[i]? = some r) (hready : s.Ready r)
    (hsize : s.estimate r.start r.end_ = some size) (hlarge : size ≥ s.cfg.tabletSplitBytes) :
    s.attempt m i = some (.split i) := by
  rw [attempt, hr, Option.bind_eq_bind, Option.bind_some, if_neg (ready_iff.mp hready), hsize,
    Option.bind_eq_bind, Option.bind_some, if_pos hlarge]

theorem attempt_eq_merge {left right : Range} {size size' : Int} (hleft : m.ranges[i]? = some left)
    (hright : m.ranges[i + 1]? = some right) (hready : s.Ready left) (hready' : s.Ready right)
    (hsize : s.estimate left.start left.end_ = some size) (hnot : size < s.cfg.tabletSplitBytes)
    (hsmall : size ≤ s.cfg.tabletMergeBytes)
    (hsize' : s.estimate right.start right.end_ = some size')
    (hsmall' : size' ≤ s.cfg.tabletMergeBytes) : s.attempt m i = some (.merge i) := by
  rw [attempt, hleft, Option.bind_eq_bind, Option.bind_some, if_neg (ready_iff.mp hready), hsize,
    Option.bind_eq_bind, Option.bind_some, if_neg (not_le.mpr hnot), if_pos hsmall, hright,
    Option.bind_some, if_neg (ready_iff.mp hready'), hsize', Option.bind_some, if_pos hsmall']

/-- The change that a tick makes. -/
def performed (s : Scheduler) (m : RangeMap) (candidates : List NodeID) : Option Change :=
  (List.range m.ranges.length).findSome? fun i =>
    ((s.updateSettled m).attempt m i).filter fun c =>
      (((s.updateSettled m).proposal m candidates c).bind (apply m)).isSome

theorem tick_snd_eq (s : Scheduler) (m : RangeMap) (candidates : List NodeID) :
    (s.tick m candidates).2 = ((s.performed m candidates).bind fun c =>
      ((s.updateSettled m).proposal m candidates c).bind (apply m)).getD m := by
  have hvisit : (s.updateSettled m).visit m candidates = fun i =>
      ((s.updateSettled m).attempt m i).bind fun c =>
        ((s.updateSettled m).proposal m candidates c).bind (apply m) :=
    funext fun i => visit_eq
  rw [performed, ← findSome?_bind, ← hvisit]
  rfl

theorem tick_of_performed_eq_none (h : s.performed m candidates = none) :
    (s.tick m candidates).2 = m := by
  rw [tick_snd_eq, h]
  rfl

theorem performed_cases (h : s.performed m candidates = some c) :
    ∃ i p, (s.updateSettled m).attempt m i = some c ∧
      (s.updateSettled m).proposal m candidates c = some p ∧
      apply m p = some (s.tick m candidates).2 := by
  obtain ⟨i, -, hi⟩ := List.exists_of_findSome?_eq_some h
  obtain ⟨hattempt, hsome⟩ := Option.filter_eq_some_iff.mp hi
  obtain ⟨m', hm'⟩ := Option.isSome_iff_exists.mp hsome
  obtain ⟨p, hp, happly⟩ := Option.bind_eq_some_iff.mp hm'
  refine ⟨i, p, hattempt, hp, ?_⟩
  rw [tick_snd_eq, h, Option.bind_some, hm', happly]
  rfl

theorem performed_eq_none
    (h : ∀ r ∈ m.ranges, ¬ (s.updateSettled m).Ready r) : s.performed m candidates = none := by
  refine List.findSome?_eq_none_iff.mpr fun i _ => ?_
  cases hattempt : (s.updateSettled m).attempt m i with
  | none => rfl
  | some c =>
    rcases attempt_cases hattempt with ⟨-, r, -, hr, hready, -⟩ | ⟨-, r, -, -, -, hr, -, hready, -⟩
    · exact absurd hready (h r (List.mem_of_getElem? hr))
    · exact absurd hready (h r (List.mem_of_getElem? hr))

theorem performed_of_attempt_zero (hattempt : (s.updateSettled m).attempt m 0 = some c)
    (hp : (s.updateSettled m).proposal m candidates c = some p) (happly : apply m p = some m') :
    s.performed m candidates = some c := by
  obtain ⟨r, hr, -⟩ := Option.bind_eq_some_iff.mp hattempt
  obtain ⟨n, hn⟩ : ∃ n, m.ranges.length = n + 1 :=
    Nat.exists_eq_succ_of_ne_zero (List.getElem?_eq_some_iff.mp hr).1.ne'
  rw [performed, hn, List.range_succ_eq_map, List.findSome?_cons, hattempt, Option.filter_some,
    if_pos]
  rw [hp, Option.bind_some, happly]
  rfl

theorem tick_of_attempt_zero (hattempt : (s.updateSettled m).attempt m 0 = some c)
    (hp : (s.updateSettled m).proposal m candidates c = some p) (happly : apply m p = some m') :
    (s.tick m candidates).2 = m' := by
  rw [tick_snd_eq, performed_of_attempt_zero hattempt hp happly, Option.bind_some, hp,
    Option.bind_some, happly]
  rfl

end Scheduler
end ChudDB.Cluster
