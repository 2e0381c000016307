import ChudDB.Cluster.AntiEntropy
import ChudDB.Cluster.Ownership
import ChudDB.Cluster.SplitRange

/-! # A repair round

`RepairRange` (`scheduler.go`) walks down a tree of ranges. It compares the Merkle root of a range
with the peer's, and where they differ it splits the range, or at a leaf exchanges what one of the
sides lacks. The peer serves only ranges that it owns (`server.go`). Any call to the peer may fail;
over gRPC (`client.go`) those fail whose strings are not valid UTF-8. -/

namespace ChudDB.Cluster
open Lib

/-- The stores of the node that runs the round and of its peer. -/
structure Stores where
  own : NodeStore
  peer : NodeStore
deriving DecidableEq

inductive RepairError where
  | peerRoot (start end_ : Bytes)
  | split (start end_ : Bytes) (err : SplitError)
  | peerScan (start end_ : Bytes)
  | applyLocal (key : Bytes) (err : EnvelopeError)
  | push
deriving DecidableEq, Repr

/-- `ReplicaClient`: which calls of a walk go through. A call for the root or the rows of a range is
given by its ends, and the rows; one that pushes rows may break off behind some of them. -/
structure ReplicaClient where
  getMerkleRoot : Bytes → Bytes → Bool
  streamRange : Bytes → Bytes → List KeyEnvelope → Bool
  repairKeys : List KeyEnvelope → Option Nat

namespace ReplicaClient

/-- No call fails. -/
def reliable : ReplicaClient := ⟨fun _ _ => true, fun _ _ _ => true, fun _ => none⟩

/-- The ends of a range and the strings of the rows are proto3 strings. -/
def grpc : ReplicaClient where
  getMerkleRoot start end_ := decide (ValidUtf8 start ∧ ValidUtf8 end_)
  streamRange start end_ rows :=
    decide (ValidUtf8 start ∧ ValidUtf8 end_ ∧ ∀ row ∈ rows, ValidUtf8 row.1 ∧ row.2.Text)
  repairKeys rows := if ∀ row ∈ rows, ValidUtf8 row.1 ∧ row.2.Text then none else some 0

/-- The rows get to the peer, which is not called if there are none. -/
def Pushes (replicas : ReplicaClient) (rows : List KeyEnvelope) : Prop :=
  rows = [] ∨ replicas.repairKeys rows = none

instance (replicas : ReplicaClient) : DecidablePred replicas.Pushes :=
  fun _ => inferInstanceAs (Decidable (_ ∨ _))

end ReplicaClient

/-- A scheduler with the range map that both nodes hold, and the hash of the Merkle roots. -/
structure RepairScheduler where
  rangeMap : RangeMap
  nodeID : NodeID
  peerID : NodeID
  fanout : Int
  leafItemThreshold : Nat
  maxDepth : Nat
  json : Json
  digest : Bytes → Bytes

namespace RepairScheduler
variable (c : RepairScheduler)

/-- `Table.IsOwner`, asked at a node. -/
def isOwner (node : NodeID) (key : Bytes) : Bool := RingTable.isOwner ⟨node, c.rangeMap⟩ key

/-- `Table.OwnsRange`, asked at a node. -/
def ownsRange (node : NodeID) (start end_ : Bytes) : Bool :=
  RingTable.ownsRange ⟨node, c.rangeMap⟩ start end_

/-- The rows of a scan with their raw values. -/
def rawEntries (rows : List KeyEnvelope) : List RawEntry :=
  rows.map fun row => (row.1, magicPrefix ++ c.json.marshal row.2)

def merkleRoot (s : NodeStore) (start end_ : Bytes) : Bytes × Nat :=
  computeMerkleRoot c.digest (c.rawEntries (s.scanRawRange start end_))

/-- `applyPulls`; the first error is returned. -/
def applyPulls : List KeyEnvelope → NodeStore → Option RepairError × NodeStore
  | [], s => (none, s)
  | row :: rows, s =>
    match s.applyPull row (c.isOwner c.nodeID) with
    | .ok s => applyPulls rows s
    | .error err => (some (.applyLocal row.1 err), (applyPulls rows s).2)

/-- The second loop of `RepairKeys`; `false` if it returns an error. -/
def repairRows : List PbRow → NodeStore → Bool × NodeStore
  | [], s => (true, s)
  | row :: rows, s =>
    match s.repairRow row with
    | .ok s => repairRows rows s
    | .error _ => (false, s)

/-- `Server.RepairKeys` of the peer. -/
def repairKeys (rows : List PbRow) (s : NodeStore) : Bool × NodeStore :=
  if rows.all fun row => c.isOwner c.peerID row.1 then repairRows rows s else (false, s)

section Calls
variable (replicas : ReplicaClient)

/-- `pushRepairs`. -/
def pushRepairs (rows : List KeyEnvelope) (s : NodeStore) : Option RepairError × NodeStore :=
  if rows.length = 0 then (none, s)
  else match replicas.repairKeys rows with
    | none =>
      match c.repairKeys (toPbRows rows) s with
      | (true, s) => (none, s)
      | (false, s) => (some .push, s)
    | some applied => (some .push, (c.repairKeys (toPbRows (rows.take applied)) s).2)

/-- `diffLeaf`. -/
def diffLeafOver (start end_ : Bytes) (st : Stores) : Option RepairError × Stores :=
  let localRows := localRows st.own start end_
  if !(c.ownsRange c.peerID start end_ &&
      replicas.streamRange start end_ (st.peer.scanRawRange start end_)) then
    (some (.peerScan start end_), st)
  else match streamRange st.peer start end_ with
    | .error _ => (some (.peerScan start end_), st)
    | .ok peerRows =>
      let diff := mergeDiff localRows peerRows
      let (pullErr, own) := c.applyPulls diff.toPull st.own
      let (pushErr, peer) := c.pushRepairs replicas diff.toPush st.peer
      (pullErr.or pushErr, ⟨own, peer⟩)

/-- The beginning of `diffNode`; `mismatch` goes on with the larger count when the roots differ. -/
def compareRoots (start end_ : Bytes) (st : Stores)
    (mismatch : Nat → Option RepairError × Stores) : Option RepairError × Stores :=
  let localRoot := c.merkleRoot st.own start end_
  if !(c.ownsRange c.peerID start end_ && replicas.getMerkleRoot start end_) then
    (some (.peerRoot start end_), st)
  else
    let peerRoot := c.merkleRoot st.peer start end_
    if localRoot.2 = peerRoot.2 ∧ localRoot.1 = peerRoot.1 then (none, st)
    else mismatch (max localRoot.2 peerRoot.2)

/-- The loop over the buckets; a failed child does not abort its siblings. -/
def diffBuckets (diff : Bytes → Bytes → Stores → Option RepairError × Stores) :
    List Bucket → Stores → Option RepairError × Stores
  | [], st => (none, st)
  | bucket :: buckets, st =>
    let (err, st) := diff bucket.start bucket.end_ st
    let (err', st) := diffBuckets diff buckets st
    (err.or err', st)

/-- `diffNode` with the number of levels that `MaxDepth` leaves. -/
def diffNode : Nat → Bytes → Bytes → Stores → Option RepairError × Stores
  | 0, start, end_, st =>
    c.compareRoots replicas start end_ st fun _ => c.diffLeafOver replicas start end_ st
  | levels + 1, start, end_, st =>
    c.compareRoots replicas start end_ st fun mismatchCount =>
      if mismatchCount ≤ c.leafItemThreshold then c.diffLeafOver replicas start end_ st
      else match splitRange start end_ c.fanout with
        | .error err => (some (.split start end_ err), st)
        | .ok buckets =>
          if buckets = [⟨start, end_⟩] then c.diffLeafOver replicas start end_ st
          else diffBuckets (diffNode levels) buckets st

/-- `RepairRange`. -/
def repairRange (start end_ : Bytes) (st : Stores) : Option RepairError × Stores :=
  c.diffNode replicas c.maxDepth start end_ st

end Calls

/-- `diffLeaf` with no call that fails. -/
def diffLeaf (start end_ : Bytes) (st : Stores) : Option RepairError × Stores :=
  c.diffLeafOver .reliable start end_ st

end RepairScheduler

/-! ## What a round should do -/

/-- What a side should hold under a key for which it holds `a` and the other side `b`. -/
def settle (a b : Option Envelope) : Option Envelope :=
  match a, b with
  | none, b => b
  | some e, none => some e
  | some e, some e' => if e.vectorClock.compare e'.vectorClock = .before then some e' else some e

theorem settle_of_older (h : Older a b) : settle a b = b := by
  obtain ⟨e, he, hbefore⟩ := h
  cases he
  cases a with
  | none => rfl
  | some e' => exact if_pos (hbefore e' rfl)

theorem settle_of_not_older (h : ¬ Older a b) : settle a b = a := by
  cases a with
  | none =>
    cases b with
    | none => rfl
    | some e => exact absurd older_none h
  | some e' =>
    cases b with
    | none => rfl
    | some e => exact if_neg fun hbefore => h (older_some.mpr hbefore)

theorem not_older_self : ¬ Older a a := by
  cases a with
  | none => exact not_older_none
  | some e =>
    rw [older_some, VectorClock.compare_eq_before_iff]
    exact lt_irrefl _

/-- An envelope that is stored as it is and passes through a message unchanged. -/
structure Envelope.Sendable (e : Envelope) : Prop where
  stored : e.stored = .ok e
  noEmptyID : e.vectorClock.NoEmptyID

/-- Both sides hold what the services of a node can have written. -/
structure Stores.Written (st : Stores) : Prop where
  own : ∀ key e, st.own.get key = some e → e.Sendable
  peer : ∀ key e, st.peer.get key = some e → e.Sendable

/-- The exchange of a range: both sides hold under each key of it what they should, and under the
others what they held. -/
structure Repairs (start end_ : Bytes) (st st' : Stores) : Prop where
  own : ∀ key, st'.own.get key =
    if Scanned start end_ key then settle (st.own.get key) (st.peer.get key) else st.own.get key
  peer : ∀ key, st'.peer.get key =
    if Scanned start end_ key then settle (st.peer.get key) (st.own.get key) else st.peer.get key

theorem settle_eq_or (a b : Option Envelope) : settle a b = a ∨ settle a b = b := by
  by_cases h : Older a b
  · exact .inr (settle_of_older h)
  · exact .inl (settle_of_not_older h)

theorem Older.asymm (h : Older a b) : ¬ Older b a := by
  obtain ⟨e, he, hbefore⟩ := h
  cases he
  cases a with
  | none => exact not_older_none
  | some e' =>
    have hlt := VectorClock.compare_eq_before_iff.mp (hbefore e' rfl)
    rw [older_some, VectorClock.compare_eq_before_iff]
    exact hlt.asymm

/-- Once both sides are settled, neither is behind. -/
theorem not_older_settle : ¬ Older (settle a b) (settle b a) := by
  by_cases h : Older a b
  · rw [settle_of_older h, settle_of_not_older h.asymm]
    exact not_older_self
  · rw [settle_of_not_older h]
    by_cases h' : Older b a
    · rw [settle_of_older h']
      exact not_older_self
    · rwa [settle_of_not_older h']

instance (e : Envelope) : Decidable e.Sendable :=
  decidable_of_iff (e.stored = .ok e ∧ ∀ entry ∈ e.vectorClock.entries, entry.1 ≠ [])
    ⟨fun h => ⟨h.1, h.2⟩, fun h => ⟨h.stored, h.noEmptyID⟩⟩

theorem Stores.Written.of_rows {st : Stores} (hown : ∀ row ∈ st.own.rows, row.2.Sendable)
    (hpeer : ∀ row ∈ st.peer.rows, row.2.Sendable) : st.Written :=
  ⟨fun _ _ he => hown _ ((lookup_eq_some_iff_mem st.own.ascending.nodup).mp he),
    fun _ _ he => hpeer _ ((lookup_eq_some_iff_mem st.peer.ascending.nodup).mp he)⟩

namespace Repairs
variable {st st' : Stores} {start end_ : Bytes}

theorem forall_own {P : Envelope → Prop} (h : Repairs start end_ st st')
    (hown : ∀ key e, st.own.get key = some e → P e)
    (hpeer : ∀ key e, st.peer.get key = some e → P e) :
    ∀ key e, st'.own.get key = some e → P e := by
  intro key e he
  rw [h.own] at he
  split at he
  · rcases settle_eq_or (st.own.get key) (st.peer.get key) with heq | heq
    · exact hown key e (heq ▸ he)
    · exact hpeer key e (heq ▸ he)
  · exact hown key e he

/-- The same exchange, seen from the peer. -/
theorem swap (h : Repairs start end_ st st') :
    Repairs start end_ ⟨st.peer, st.own⟩ ⟨st'.peer, st'.own⟩ :=
  ⟨h.peer, h.own⟩

theorem written (h : Repairs start end_ st st') (hst : st.Written) : st'.Written :=
  ⟨h.forall_own hst.own hst.peer, h.swap.forall_own hst.peer hst.own⟩

end Repairs

/-! ## A leaf -/

namespace Envelope.Sendable
variable {e : Envelope}

theorem received (h : e.Sendable) : e.received = .ok e := by
  obtain ⟨hvalid, hnormal⟩ := Envelope.stored_eq_ok_iff.mp h.stored
  have hversion : e.version = envelopeVersion := version_of_validate (hnormal ▸ hvalid)
  have hsame : ({ e with
      version := e.version.bmod (2 ^ 32)
      vectorClock := vectorClockFromProto (vectorClockToProto e.vectorClock) } : Envelope) = e := by
    rw [vectorClockFromProto_toProto h.noEmptyID, hversion]
    cases e
    simp only at hversion
    rw [hversion]
    rfl
  rw [Envelope.received, hsame, h.stored]

end Envelope.Sendable

namespace NodeStore
variable {s : NodeStore} {rows : List KeyEnvelope} {key : Bytes} {e : Envelope}

/-- The rows written one after another. -/
def setAll (rows : List KeyEnvelope) (s : NodeStore) : NodeStore :=
  rows.foldl (fun s row => s.set row.1 row.2) s

/-- Of several rows for a key the last one is stored. -/
theorem get_setAll (key : Bytes) :
    (s.setAll rows).get key = (rows.reverse.lookup key).or (s.get key) := by
  induction rows generalizing s with
  | nil => rfl
  | cons row rows ih =>
    refine ih.trans ?_
    rw [get_set, List.reverse_cons, List.lookup_append, List.lookup_cons, List.lookup_nil,
      Option.or_assoc]
    congr 1
    by_cases hkey : key = row.1
    · rw [if_pos hkey, beq_iff_eq.mpr hkey]
      rfl
    · rw [if_neg hkey, beq_eq_false_iff_ne.mpr hkey]
      rfl

theorem get_setAll_of_not_mem (h : ∀ e, (key, e) ∉ rows) : (s.setAll rows).get key = s.get key := by
  have hnone : rows.reverse.lookup key = none :=
    lookup_eq_none_of_ne fun row hrow heq => h row.2 (heq ▸ List.mem_reverse.mp hrow)
  rw [get_setAll, hnone, Option.none_or]

/-- If the rows have one envelope for a key, that is what is written. -/
theorem get_setAll_of_mem (h : (key, e) ∈ rows) (hone : ∀ e', (key, e') ∈ rows → e' = e) :
    (s.setAll rows).get key = some e := by
  have hsome : rows.reverse.lookup key = some e :=
    lookup_of_unique (List.mem_reverse.mpr h) fun e' he' => hone e' (List.mem_reverse.mp he')
  rw [get_setAll, hsome, Option.some_or]

theorem repair_of_stored (h : e.stored = .ok e) : s.repair key e = .ok (s.set key e) := by
  rw [repair_eq, writeEnvelope, h]
  rfl

end NodeStore

namespace RepairScheduler
variable {c : RepairScheduler} {rows : List KeyEnvelope} {s : NodeStore}

theorem applyPulls_eq (howned : ∀ row ∈ rows, c.isOwner c.nodeID row.1 = true)
    (hrows : ∀ row ∈ rows, row.2.Sendable) : c.applyPulls rows s = (none, s.setAll rows) := by
  induction rows generalizing s with
  | nil => rfl
  | cons row rows ih =>
    have hpull : s.applyPull row (c.isOwner c.nodeID) = .ok (s.set row.1 row.2) := by
      rw [NodeStore.applyPull, howned row List.mem_cons_self]
      exact NodeStore.repair_of_stored (hrows row List.mem_cons_self).stored
    rw [applyPulls, hpull]
    exact ih (fun row hrow => howned row (List.mem_cons_of_mem _ hrow))
      fun row hrow => hrows row (List.mem_cons_of_mem _ hrow)

theorem repairRows_eq (hrows : ∀ row ∈ rows, row.2.Sendable) :
    repairRows (toPbRows rows) s = (true, s.setAll rows) := by
  induction rows generalizing s with
  | nil => rfl
  | cons row rows ih =>
    have hrow := hrows row List.mem_cons_self
    have hrepair : s.repairRow (row.1, some (envelopeToProto row.2)) = .ok (s.set row.1 row.2) := by
      rw [NodeStore.repairRow, fromProto_envelopeToProto, hrow.received]
      exact NodeStore.repair_of_stored hrow.stored
    rw [toPbRows, List.map_cons, repairRows, hrepair]
    exact ih fun row hrow => hrows row (List.mem_cons_of_mem _ hrow)

theorem repairKeys_toPbRows (howned : ∀ row ∈ rows, c.isOwner c.peerID row.1 = true)
    (hrows : ∀ row ∈ rows, row.2.Sendable) :
    c.repairKeys (toPbRows rows) s = (true, s.setAll rows) := by
  have hall : ((toPbRows rows).all fun row => c.isOwner c.peerID row.1) = true := by
    rw [toPbRows, List.all_map, List.all_eq_true]
    exact howned
  rw [repairKeys, if_pos hall, repairRows_eq hrows]

/-- The rows are pushed, or the call breaks off behind some of them. -/
theorem pushRepairs_cases (replicas : ReplicaClient) (s : NodeStore)
    (howned : ∀ row ∈ rows, c.isOwner c.peerID row.1 = true)
    (hrows : ∀ row ∈ rows, row.2.Sendable) :
    (replicas.Pushes rows ∧ c.pushRepairs replicas rows s = (none, s.setAll rows)) ∨
    (¬ replicas.Pushes rows ∧
      ∃ applied, c.pushRepairs replicas rows s = (some .push, s.setAll (rows.take applied))) := by
  rw [pushRepairs]
  split
  · rename_i hlength
    have hnil := List.eq_nil_of_length_eq_zero hlength
    exact .inl ⟨.inl hnil, hnil ▸ rfl⟩
  · rename_i hlength
    cases hcall : replicas.repairKeys rows with
    | none => exact .inl ⟨.inr hcall, by rw [repairKeys_toPbRows howned hrows]⟩
    | some applied =>
      refine .inr ⟨fun h => h.elim (fun hnil => hlength (hnil ▸ rfl)) (by simp [hcall]), applied, ?_⟩
      dsimp only
      rw [repairKeys_toPbRows (fun row hrow => howned row (List.mem_of_mem_take hrow))
        fun row hrow => hrows row (List.mem_of_mem_take hrow)]

end RepairScheduler

theorem NodeStore.get_of_mem_scanRawRange {s : NodeStore} (h : row ∈ s.scanRawRange start end_) :
    s.get row.1 = some row.2 := by
  have hlookup := (lookup_eq_some_iff_mem NodeStore.ascending_scanRawRange.nodup).mpr h
  rw [NodeStore.lookup_scanRawRange] at hlookup
  split at hlookup
  · exact hlookup
  · cases hlookup

/-- The rows of a store that holds what services have written arrive as they are. -/
theorem streamRange_eq {s : NodeStore} {start end_ : Bytes}
    (h : ∀ key e, s.get key = some e → e.Sendable) :
    streamRange s start end_ = .ok (s.scanRawRange start end_) := by
  have hmapM : ∀ {rows : List KeyEnvelope}, (∀ row ∈ rows, row.2.Sendable) →
      (rows.mapM fun row : KeyEnvelope =>
        (do return (row.1, ← row.2.received) : Except EnvelopeError KeyEnvelope)) = .ok rows := by
    intro rows hrows
    induction rows with
    | nil => rfl
    | cons row rows ih =>
      rw [List.mapM_cons, (hrows row List.mem_cons_self).received,
        ih fun row hrow => hrows row (List.mem_cons_of_mem _ hrow)]
      rfl
  rw [streamRange, hmapM fun row hrow => h _ _ (NodeStore.get_of_mem_scanRawRange hrow)]
  exact congrArg Except.ok (insertionSort_of_ascending NodeStore.ascending_scanRawRange)

/-- What a leaf finds out about the two stores. -/
def leafDiff (start end_ : Bytes) (st : Stores) : Diff :=
  mergeDiff (st.own.scanRawRange start end_) (st.peer.scanRawRange start end_)

section Leaf
variable {start end_ key : Bytes} {st : Stores} {e : Envelope}

theorem lookup_scanRawRange_older {s s' : NodeStore} :
    ((s'.scanRawRange start end_).lookup key = some e ∧
      Older ((s.scanRawRange start end_).lookup key) ((s'.scanRawRange start end_).lookup key)) ↔
    Scanned start end_ key ∧ s'.get key = some e ∧ Older (s.get key) (s'.get key) := by
  rw [NodeStore.lookup_scanRawRange, NodeStore.lookup_scanRawRange]
  by_cases hin : Scanned start end_ key
  · rw [if_pos hin, if_pos hin, and_iff_right hin]
  · simp [hin]

theorem diffSpec_leafDiff : DiffSpec (st.own.scanRawRange start end_)
    (st.peer.scanRawRange start end_) (leafDiff start end_ st) :=
  diffSpec_mergeDiff NodeStore.ascending_scanRawRange NodeStore.ascending_scanRawRange

theorem mem_toPull_iff : (key, e) ∈ (leafDiff start end_ st).toPull ↔
    Scanned start end_ key ∧ st.peer.get key = some e ∧ Older (st.own.get key) (st.peer.get key) :=
  (diffSpec_leafDiff.pull key e).trans lookup_scanRawRange_older

theorem mem_toPush_iff : (key, e) ∈ (leafDiff start end_ st).toPush ↔
    Scanned start end_ key ∧ st.own.get key = some e ∧ Older (st.peer.get key) (st.own.get key) :=
  (diffSpec_leafDiff.push key e).trans lookup_scanRawRange_older

/-- Writing the rows of a side that is behind. -/
theorem get_setAll_settle {rows : List KeyEnvelope} {s s' : NodeStore}
    (h : ∀ e, (key, e) ∈ rows ↔
      Scanned start end_ key ∧ s'.get key = some e ∧ Older (s.get key) (s'.get key)) :
    (s.setAll rows).get key =
      if Scanned start end_ key then settle (s.get key) (s'.get key) else s.get key := by
  by_cases hbehind : Scanned start end_ key ∧ Older (s.get key) (s'.get key)
  · obtain ⟨hin, holder⟩ := hbehind
    obtain ⟨e, he, -⟩ := id holder
    have hmem : (key, e) ∈ rows := (h e).mpr ⟨hin, he, holder⟩
    have hone : ∀ e', (key, e') ∈ rows → e' = e := fun e' he' =>
      Option.some.inj (((h e').mp he').2.1.symm.trans he)
    rw [if_pos hin, settle_of_older holder, NodeStore.get_setAll_of_mem hmem hone]
    exact he.symm
  · rw [NodeStore.get_setAll_of_not_mem fun e he => hbehind ⟨((h e).mp he).1, ((h e).mp he).2.2⟩]
    split
    · rename_i hin
      exact (settle_of_not_older fun holder => hbehind ⟨hin, holder⟩).symm
    · rfl

theorem repairs_leafDiff (start end_ : Bytes) (st : Stores) :
    Repairs start end_ st ⟨st.own.setAll (leafDiff start end_ st).toPull,
      st.peer.setAll (leafDiff start end_ st).toPush⟩ :=
  ⟨fun _ => get_setAll_settle fun _ => mem_toPull_iff,
    fun _ => get_setAll_settle fun _ => mem_toPush_iff⟩

/-- After the exchange there is nothing left to do. -/
theorem leafDiff_of_repairs {st' : Stores} (h : Repairs start end_ st st') :
    leafDiff start end_ st' = ⟨[], []⟩ := by
  have hpull : (leafDiff start end_ st').toPull = [] := by
    refine List.eq_nil_iff_forall_not_mem.mpr fun row hrow => ?_
    obtain ⟨hin, -, holder⟩ := mem_toPull_iff.mp (show (row.1, row.2) ∈ _ from hrow)
    rw [h.own, h.peer, if_pos hin, if_pos hin] at holder
    exact not_older_settle holder
  have hpush : (leafDiff start end_ st').toPush = [] := by
    refine List.eq_nil_iff_forall_not_mem.mpr fun row hrow => ?_
    obtain ⟨hin, -, holder⟩ := mem_toPush_iff.mp (show (row.1, row.2) ∈ _ from hrow)
    rw [h.own, h.peer, if_pos hin, if_pos hin] at holder
    exact not_older_settle holder
  exact congrArg₂ Diff.mk hpull hpush

end Leaf

namespace RepairScheduler
variable {c : RepairScheduler} {node : NodeID} {start end_ key : Bytes} {st : Stores}

/-- Who owns a range owns the keys that a scan of it returns. -/
theorem isOwner_of_ownsRange (hvalid : c.rangeMap.validate = .ok ())
    (h : c.ownsRange node start end_ = true) (hkey : Scanned start end_ key) :
    c.isOwner node key = true := by
  obtain ⟨⟨hstart, hend⟩, -⟩ := hkey
  obtain ⟨owners, howners, hmem⟩ := RingTable.ownsRange_iff.mp h
  obtain ⟨-, r, hr, hwithin, rfl⟩ := RangeMap.ownersForRange_eq_some_iff.mp howners
  have hbelow : r.end_ = [] ∨ key < r.end_ :=
    hwithin.imp_right fun ⟨hne, hle⟩ => (hend.resolve_left hne).trans_le hle
  refine RingTable.isOwner_of_owners ?_ hmem
  rw [RangeMap.owners, RangeMap.rangeAt_of_le hvalid hr hstart hbelow, Option.map_some]

/-- The calls of a leaf go through. -/
def LeafSent (replicas : ReplicaClient) (start end_ : Bytes) (st : Stores) : Prop :=
  replicas.streamRange start end_ (st.peer.scanRawRange start end_) = true ∧
    replicas.Pushes (leafDiff start end_ st).toPush

instance (replicas : ReplicaClient) (start end_ : Bytes) (st : Stores) :
    Decidable (LeafSent replicas start end_ st) := inferInstanceAs (Decidable (_ ∧ _))

/-- A leaf whose rows arrive. -/
theorem diffLeafOver_eq {replicas : ReplicaClient} (hpeer : c.ownsRange c.peerID start end_ = true)
    (hsent : replicas.streamRange start end_ (st.peer.scanRawRange start end_) = true)
    (hst : st.Written) :
    c.diffLeafOver replicas start end_ st =
      let pulls := c.applyPulls (leafDiff start end_ st).toPull st.own
      let pushes := c.pushRepairs replicas (leafDiff start end_ st).toPush st.peer
      (pulls.1.or pushes.1, ⟨pulls.2, pushes.2⟩) := by
  rw [diffLeafOver, hpeer, hsent, streamRange_eq hst.peer, localRows_eq]
  rfl

theorem pushRepairs_leafDiff (replicas : ReplicaClient) (hvalid : c.rangeMap.validate = .ok ())
    (hpeer : c.ownsRange c.peerID start end_ = true) (hst : st.Written) :
    let rows := (leafDiff start end_ st).toPush
    (replicas.Pushes rows ∧ c.pushRepairs replicas rows st.peer = (none, st.peer.setAll rows)) ∨
    (¬ replicas.Pushes rows ∧ ∃ applied,
      c.pushRepairs replicas rows st.peer = (some .push, st.peer.setAll (rows.take applied))) :=
  pushRepairs_cases replicas st.peer
    (fun _ hrow => isOwner_of_ownsRange hvalid hpeer (mem_toPush_iff.mp hrow).1)
    fun _ hrow => hst.own _ _ (mem_toPush_iff.mp hrow).2.1

/-- A leaf writes what the comparison of the two sides asks for, unless a call fails. -/
theorem diffLeafOver_cases (replicas : ReplicaClient) (hvalid : c.rangeMap.validate = .ok ())
    (hown : c.ownsRange c.nodeID start end_ = true) (hpeer : c.ownsRange c.peerID start end_ = true)
    (hst : st.Written) :
    (LeafSent replicas start end_ st ∧
      c.diffLeafOver replicas start end_ st = (none, ⟨st.own.setAll (leafDiff start end_ st).toPull,
        st.peer.setAll (leafDiff start end_ st).toPush⟩)) ∨
    ¬ LeafSent replicas start end_ st ∧ (c.diffLeafOver replicas start end_ st).1 ≠ none := by
  by_cases hsent : replicas.streamRange start end_ (st.peer.scanRawRange start end_) = true
  · have hpulls : c.applyPulls (leafDiff start end_ st).toPull st.own =
        (none, st.own.setAll (leafDiff start end_ st).toPull) := by
      refine applyPulls_eq (fun row hrow => ?_) fun row hrow => ?_
      · exact isOwner_of_ownsRange hvalid hown (mem_toPull_iff.mp hrow).1
      · exact hst.peer _ _ (mem_toPull_iff.mp hrow).2.1
    rw [diffLeafOver_eq hpeer hsent hst, hpulls]
    rcases pushRepairs_leafDiff replicas hvalid hpeer hst with ⟨hgo, heq⟩ | ⟨hfail, applied, heq⟩
    · rw [heq]
      exact .inl ⟨⟨hsent, hgo⟩, rfl⟩
    · rw [heq]
      exact .inr ⟨fun h => hfail h.2, Option.some_ne_none _⟩
  · refine .inr ⟨fun h => hsent h.1, ?_⟩
    rw [diffLeafOver, Bool.eq_false_iff.mpr hsent, Bool.and_false]
    exact Option.some_ne_none _

theorem diffLeaf_eq (hvalid : c.rangeMap.validate = .ok ())
    (hown : c.ownsRange c.nodeID start end_ = true) (hpeer : c.ownsRange c.peerID start end_ = true)
    (hst : st.Written) :
    c.diffLeaf start end_ st = (none, ⟨st.own.setAll (leafDiff start end_ st).toPull,
      st.peer.setAll (leafDiff start end_ st).toPush⟩) := by
  rcases diffLeafOver_cases .reliable hvalid hown hpeer hst with ⟨-, heq⟩ | ⟨hnot, -⟩
  · exact heq
  · exact absurd ⟨rfl, .inr rfl⟩ hnot

/-- One pass over a leaf settles every key that the scan reaches and touches no other one, and there
is nothing left for a second pass. -/
theorem diffLeaf_settles (hvalid : c.rangeMap.validate = .ok ())
    (hown : c.ownsRange c.nodeID start end_ = true) (hpeer : c.ownsRange c.peerID start end_ = true)
    (hst : st.Written) :
    ∃ st', c.diffLeaf start end_ st = (none, st') ∧ Repairs start end_ st st' ∧
      (∃ peerRows, streamRange st'.peer start end_ = .ok peerRows ∧
        mergeDiff (localRows st'.own start end_) peerRows = ⟨[], []⟩) ∧
      c.diffLeaf start end_ st' = (none, st') := by
  have hrepairs := repairs_leafDiff start end_ st
  have hwritten := hrepairs.written hst
  have hnothing := leafDiff_of_repairs hrepairs
  refine ⟨_, diffLeaf_eq hvalid hown hpeer hst, hrepairs, ⟨_, streamRange_eq hwritten.peer, ?_⟩, ?_⟩
  · rw [localRows_eq]
    exact hnothing
  · rw [diffLeaf_eq hvalid hown hpeer hwritten, hnothing]
    rfl

/-- Two replicas of all keys. -/
def wholeRange : RepairScheduler where
  rangeMap := ⟨[⟨[], [], [[97], [98]], 1, [112]⟩]⟩
  nodeID := [97]
  peerID := [98]
  fanout := 4
  leafItemThreshold := 1
  maxDepth := 8
  json := ⟨fun _ => [], fun _ => none⟩
  digest := id

/-- The value `v` with the given clock. -/
def putWith (clock : VectorClock) : Envelope := newPut clock [118] 1

/-- The peer has a newer version of one key, and each side a key of its own. -/
def staleStores : Stores :=
  ⟨(NodeStore.empty.set [107] (putWith (VectorClock.empty.set [97] 1))).set [108]
      (putWith (VectorClock.empty.set [97] 1)),
    (NodeStore.empty.set [107] (putWith (VectorClock.empty.set [97] 2))).set [109]
      (putWith (VectorClock.empty.set [98] 1))⟩

theorem diffLeaf_settles_stale : wholeRange.rangeMap.validate = .ok () ∧ staleStores.Written ∧
    ∃ st', wholeRange.diffLeaf [] [] staleStores = (none, st') ∧ Repairs [] [] staleStores st' := by
  have hvalid : wholeRange.rangeMap.validate = .ok () := by decide
  have hwritten : staleStores.Written := .of_rows (by decide +kernel) (by decide +kernel)
  obtain ⟨st', hst', hrepairs, -⟩ : ∃ st', wholeRange.diffLeaf [] [] staleStores = (none, st') ∧ _ :=
    diffLeaf_settles hvalid (by decide) (by decide) hwritten
  exact ⟨hvalid, hwritten, st', hst', hrepairs⟩

/-- A key that begins with the stand-in for the end of an unbounded range. -/
def farKey : Bytes := List.replicate 65 0xff

def farStores : Stores := ⟨NodeStore.empty.set farKey (putWith .empty), .empty⟩

/-- The clock of an envelope has an entry without a node ID. -/
def namelessStores : Stores :=
  ⟨NodeStore.empty.set [107] (putWith (VectorClock.empty.set [] 1)), .empty⟩

/-- The far key is not exchanged, and the entry without a node ID gets lost on the way, so the
second pass pushes the envelope again. -/
theorem diffLeaf_leaves_keys :
    ((wholeRange.diffLeaf [] [] farStores).1 = none ∧
      (wholeRange.diffLeaf [] [] farStores).2.peer.get farKey = none) ∧
    (wholeRange.diffLeaf [] [] namelessStores).1 = none ∧
      (wholeRange.diffLeaf [] [] namelessStores).2.peer.get [107] ≠ namelessStores.own.get [107] ∧
      (leafDiff [] [] (wholeRange.diffLeaf [] [] namelessStores).2).toPush ≠ [] := by
  decide +kernel

end RepairScheduler

end ChudDB.Cluster
