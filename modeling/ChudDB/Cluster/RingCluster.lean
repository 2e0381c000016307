import ChudDB.Lib.Run
import ChudDB.Cluster.ProposalIdentity
import ChudDB.Cluster.TabletProposal

/-! # The range maps of a cluster

The tables of all nodes (`table.go`), which start from the bootstrap map of `main.go`, pull maps from
one another (`syncer.go`, `server.go`, `client.go`) and merge the proposals of their tablet
schedulers. A map may arrive late, more than once or never, a proposal is made from a snapshot that
may be out of date when it is merged, the epoch is published after the merge, and a node may restart
at any time.

In every state that is reached, each table is a partition of the keys, and the replicas that it has
for a key are those of a proposal that was made (`tables_backed`). So two nodes that follow the same
proposal for a key route it to the same replicas (`same_proposal_same_owners`). -/

namespace ChudDB.Cluster
open Lib

/-! ## Range maps on the wire -/

/-- `pb.RangeSpec`. -/
structure RangeSpec where
  start : Bytes
  end_ : Bytes
  replicaNodeIDs : List NodeID
  generation : Counter
  proposalID : Bytes
deriving DecidableEq, Repr

/-- `pb.RangeMap`. -/
structure RangeMapProto where
  generation : Counter
  ranges : List (Option RangeSpec)
deriving DecidableEq, Repr

/-- `RangeToProto`. -/
def rangeToProto (r : Range) : RangeSpec := ⟨r.start, r.end_, r.replicas, r.generation, r.proposalID⟩

/-- `RangeFromProto`. -/
def rangeFromProto : Option RangeSpec → Range
  | none => ⟨[], [], [], 0, []⟩
  | some spec => ⟨spec.start, spec.end_, spec.replicaNodeIDs, spec.generation, spec.proposalID⟩

/-- `RangeMap.Epoch`. -/
def RangeMap.epoch (m : RangeMap) : Counter :=
  m.ranges.foldl (fun epoch r => if r.generation > epoch then r.generation else epoch) 0

/-- `RangeMapToProto`. -/
def rangeMapToProto (m : RangeMap) : RangeMapProto := ⟨m.epoch, m.ranges.map (some ∘ rangeToProto)⟩

/-- `RangeMapFromProto`. -/
def rangeMapFromProto : Option RangeMapProto → RangeMap
  | none => ⟨[]⟩
  | some pm => ⟨pm.ranges.map rangeFromProto⟩

theorem rangeMapFromProto_rangeMapToProto (m : RangeMap) :
    rangeMapFromProto (some (rangeMapToProto m)) = m := by
  rw [rangeMapToProto, rangeMapFromProto, List.map_map]
  exact congrArg RangeMap.mk (List.map_id _)

/-! ## The nodes -/

/-- The nodes with their configurations: `replicas` is `RangeMapReplicas`. -/
structure Ring (ι : Type) where
  cfg : ι → Config
  replicas : ι → List NodeID
  sum64 : Bytes → Counter
  sha256 : Bytes → Bytes
  valid : ∀ i, (cfg i).validate = .ok ()
  replicas_ne_nil : ∀ i, replicas i ≠ []
  length_sha256 : ∀ data, (sha256 data).length = 32

/-- The range of the map that `main.go` starts a node with. -/
def Ring.initialRange (ring : Ring ι) (i : ι) : Range :=
  let initial proposalID : Range :=
    ⟨[], [], ring.replicas i, (ring.cfg i).rangeMapGeneration, proposalID⟩
  initial (proposalID ring.sha256 [initial []])

/-- A tick of the tablet scheduler: its snapshot, its candidates and where its loop is. -/
structure TabletTick where
  snapshot : RangeMap
  candidates : List NodeID
  index : Nat

/-- A node: its table, the counters and the tick of its scheduler, how many merges have not yet read
the epoch that they publish, the epochs that they have read, and the epoch that it advertises. -/
structure RingNode where
  table : RangeMap
  settled : SettledRange → Int
  tick : Option TabletTick
  due : Nat
  read : List Counter
  advertised : Counter

structure RingWorld (ι : Type) where
  node : ι → RingNode
  wire : List RangeMapProto

inductive RingAct (ε : Type) where
  /-- `Scheduler.tick` up to its loop. -/
  | tick (candidates : List NodeID)
  /-- A round of the loop, over the store as it is. -/
  | visit (scanner : { scanner : RangeScanner ε // ScansInside scanner })
  /-- `Server.GetRangeMap`. -/
  | serve
  /-- `Syncer.pull` up to the merge. -/
  | pull (fetched : RangeMapProto)
  /-- `Table.Epoch`, after a merge that changed the table. -/
  | readEpoch
  /-- `PublishRangeMapEpoch` with an epoch that was read. -/
  | publish (epoch : Counter)
  | restart

namespace RingNode

/-- The node that `main.go` builds. -/
def start (ring : Ring ι) (i : ι) : RingNode :=
  ⟨⟨[ring.initialRange i]⟩, fun _ => 0, none, 0, [], (ring.cfg i).rangeMapGeneration⟩

/-- The scheduler of the node. -/
def scheduler (ring : Ring ι) (i : ι) (n : RingNode) (scanner : RangeScanner ε) : Scheduler :=
  schedulerOver (ring.cfg i) ring.sum64 ring.sha256 scanner n.settled

/-- The change that a round of the loop attempts, and the map that it proposes. -/
def proposal (ring : Ring ι) (i : ι) (n : RingNode) : RingAct ε → Option (Change × RangeMap)
  | .visit scanner => do
    let t ← n.tick
    let c ← (n.scheduler ring i scanner.1).attempt t.snapshot t.index
    let p ← (n.scheduler ring i scanner.1).proposal t.snapshot t.candidates c
    some (c, p)
  | _ => none

/-- `Table.Merge`, if it changes the table. -/
def merge (n : RingNode) (incoming : RangeMap) : Option RingNode :=
  (Scheduler.apply n.table incoming).map fun table => { n with table, due := n.due + 1 }

/-- A step of a node, with what it sends. -/
def act (ring : Ring ι) (i : ι) (wire : List RangeMapProto) (n : RingNode) (a : RingAct ε) :
    Option (RingNode × List RangeMapProto) :=
  match a with
  | .tick candidates =>
    if n.tick.isNone then
      -- `updateSettled` reads and writes the counters only.
      let s := n.scheduler ring i (fun _ _ => .ok [] : RangeScanner ε)
      some ({ n with
        settled := (s.updateSettled n.table).settled, tick := some ⟨n.table, candidates, 0⟩ }, [])
    else none
  | .visit _ => do
    let t ← n.tick
    if t.index < t.snapshot.ranges.length then
      match (n.proposal ring i a).bind fun (_, p) => n.merge p with
      | some n' => some ({ n' with tick := none }, [])
      | none => some ({ n with tick := some { t with index := t.index + 1 } }, [])
    else some ({ n with tick := none }, [])
  | .serve => some (n, [rangeMapToProto n.table])
  | .pull fetched =>
    if fetched ∈ wire then some ((n.merge (rangeMapFromProto (some fetched))).getD n, []) else none
  | .readEpoch =>
    if 0 < n.due then some ({ n with due := n.due - 1, read := n.table.epoch :: n.read }, [])
    else none
  | .publish epoch =>
    if epoch ∈ n.read then some ({ n with read := n.read.erase epoch, advertised := epoch }, [])
    else none
  | .restart => some (start ring i, [])

end RingNode

namespace RingWorld
variable [DecidableEq ι]

def start (ring : Ring ι) : RingWorld ι := ⟨RingNode.start ring, []⟩

def step (ring : Ring ι) : System (RingWorld ι) (ι × RingAct ε) := fun w (i, a) =>
  ((w.node i).act ring i w.wire a).map fun (n, sent) =>
    ⟨Function.update w.node i n, w.wire ++ sent⟩

end RingWorld

/-! ## Merging keeps what is known of a map -/

namespace RangeMap
variable {A B R m p : RangeMap} {key : Bytes} {a b r : Range} {P P' : Set (List Range)}
  {sha256 : Bytes → Bytes}

/-- What the map has for a key is what one of the proposals has for it. -/
def Backed (sha256 : Bytes → Bytes) (P : Set (List Range)) (m : RangeMap) : Prop :=
  ∀ key r, m.rangeAt key = some r → ∃ ps ∈ P, r.proposalID = proposalID sha256 ps ∧
    ∃ r' ∈ ps, r'.contains key = true ∧ r'.replicas = r.replicas

theorem of_rangeAt (h : m.rangeAt key = some r) : r ∈ m.ranges ∧ r.contains key = true :=
  ⟨List.mem_of_find?_eq_some h, List.find?_some (p := fun r : Range => r.contains key) h⟩

theorem Backed.mono (h : m.Backed sha256 P) (hP : P ⊆ P') : m.Backed sha256 P' := by
  intro key r hr
  obtain ⟨ps, hps, hfields⟩ := h key r hr
  exact ⟨ps, hP hps, hfields⟩

/-- The generation at a key does not fall, and while it stays the same the replicas do. -/
structure Grows (A R : RangeMap) : Prop where
  generation : ∀ key a r, A.rangeAt key = some a → R.rangeAt key = some r →
    a.generation ≤ r.generation
  fields : ∀ key a r, A.rangeAt key = some a → R.rangeAt key = some r →
    r.generation = a.generation → r.replicas = a.replicas ∧ r.proposalID = a.proposalID

theorem Grows.refl (A : RangeMap) : Grows A A := by
  constructor
  · intro key a r ha hr
    rw [ha] at hr
    exact (Option.some.inj hr) ▸ le_rfl
  · intro key a r ha hr _
    rw [ha] at hr
    cases hr
    exact ⟨rfl, rfl⟩

theorem Grows.trans (hB : Validated B) (h : Grows A B) (h' : Grows B R) : Grows A R := by
  constructor
  · intro key a r ha hr
    obtain ⟨b, hb⟩ := exists_rangeAt hB.tiles key
    exact (h.generation key a b ha hb).trans (h'.generation key b r hb hr)
  · intro key a r ha hr heq
    obtain ⟨b, hb⟩ := exists_rangeAt hB.tiles key
    have hab := h.generation key a b ha hb
    have hbr := h'.generation key b r hb hr
    obtain ⟨hreplicas, hproposal⟩ := h.fields key a b ha hb (le_antisymm (heq ▸ hbr) hab)
    obtain ⟨hreplicas', hproposal'⟩ := h'.fields key b r hb hr (le_antisymm (heq ▸ hab) hbr)
    exact ⟨hreplicas'.trans hreplicas, hproposal'.trans hproposal⟩

/-- What a successful merge makes of two tables. -/
theorem merge_keeps (hA : Validated A) (hB : Validated B) (h : A.merge B = .ok (R, changed)) :
    Validated R ∧ Grows A R ∧
      ∀ key r, R.rangeAt key = some r → ∃ c, (A.rangeAt key = some c ∨ B.rangeAt key = some c) ∧
        r.proposalID = c.proposalID ∧ r.replicas = c.replicas := by
  obtain ⟨pick, hpick⟩ := exists_pick hA.valid hB.valid
  rcases merge_spec hA.valid hB.valid hpick with ⟨-, hmerge⟩ | ⟨hstuck, R', hmerge, hvalid, hR⟩
  · rw [hmerge] at h
    cases h
  rw [hmerge] at h
  cases h
  refine ⟨⟨hvalid, hR.tiles⟩, ⟨?_, ?_⟩, ?_⟩
  · intro key a r ha hr
    obtain ⟨a', b, i, j, spec⟩ := pickSpec (hpick key)
    cases ha.symm.trans spec.atA
    have hle : a.generation ≤ (pick key).1.generation := spec.generation_eq ▸ le_max_left _ _
    rcases hR.generation hstuck hr with ⟨-, hval⟩ | ⟨-, heq⟩
    · exact Fin.le_def.mpr (by have := Fin.le_def.mp hle; omega)
    · exact heq ▸ hle
  · intro key a r ha hr heq
    obtain ⟨a', b, i, j, spec⟩ := pickSpec (hpick key)
    cases ha.symm.trans spec.atA
    have hcurrent := (spec.current_of_not_grown (hR.generation hstuck hr)
      fun hlt => hlt.ne heq.symm).2.1
    cases ha.symm.trans hcurrent
    exact (hR.fields hr).symm
  · intro key r hr
    obtain ⟨a, b, i, j, spec⟩ := pickSpec (hpick key)
    obtain ⟨hproposal, hreplicas⟩ := hR.fields hr
    refine ⟨(pick key).1, ?_, hproposal, hreplicas⟩
    rcases spec.fst_eq with heq | heq
    · exact .inl (heq ▸ spec.atA)
    · exact .inr (heq ▸ spec.atB)

/-- A partition of the keys that the proposals account for. -/
structure Derived (sha256 : Bytes → Bytes) (P : Set (List Range)) (m : RangeMap) : Prop where
  table : Validated m
  backed : m.Backed sha256 P

theorem Derived.mono (h : m.Derived sha256 P) (hP : P ⊆ P') : m.Derived sha256 P' :=
  ⟨h.table, h.backed.mono hP⟩

theorem Derived.apply (hA : A.Derived sha256 P) (hB : B.Derived sha256 P)
    (h : Scheduler.apply A B = some R) : R.Derived sha256 P ∧ Grows A R := by
  obtain ⟨hR, hgrows, hfields⟩ :=
    merge_keeps hA.table hB.table (Scheduler.apply_eq_some_iff.mp h)
  refine ⟨⟨hR, fun key r hr => ?_⟩, hgrows⟩
  obtain ⟨c, hc, hproposal, hreplicas⟩ := hfields key r hr
  rw [hproposal, hreplicas]
  exact hc.elim (hA.backed key c) (hB.backed key c)

theorem epoch_le_iff {e : Counter} : m.epoch ≤ e ↔ ∀ r ∈ m.ranges, r.generation ≤ e := by
  have hfold : ∀ (l : List Range) (e₀ : Counter),
      l.foldl (fun epoch r => if r.generation > epoch then r.generation else epoch) e₀ ≤ e ↔
        e₀ ≤ e ∧ ∀ r ∈ l, r.generation ≤ e := by
    intro l
    induction l with
    | nil => simp
    | cons r l ih =>
      intro e₀
      rw [List.foldl_cons, ih, List.forall_mem_cons, ← and_assoc]
      refine and_congr_left fun _ => ?_
      split
      · rename_i hgt
        exact ⟨fun h => ⟨hgt.le.trans h, h⟩, And.right⟩
      · rename_i hle
        exact ⟨fun h => ⟨h, (not_lt.mp hle).trans h⟩, And.left⟩
  rw [epoch, hfold]
  exact and_iff_right (Fin.zero_le _)

/-- The epoch of a table does not fall. -/
theorem Grows.epoch_le (hA : Validated A) (hR : Validated R) (h : Grows A R) : A.epoch ≤ R.epoch := by
  refine epoch_le_iff.mpr fun a ha => ?_
  have hat : A.rangeAt a.start = some a :=
    (rangeAt_eq_some_iff hA.tiles).mpr ⟨ha, hA.tiles.covers_start ha⟩
  obtain ⟨r, hr⟩ := exists_rangeAt hR.tiles a.start
  exact (h.generation _ a r hat hr).trans
    (epoch_le_iff.mp le_rfl r ((rangeAt_eq_some_iff hR.tiles).mp hr).1)

end RangeMap

/-! ## Proposals -/

/-- The ranges of a proposal that the change puts in. -/
def Change.newRanges (c : Change) (p : RangeMap) : List Range :=
  (p.ranges.drop c.index).take c.newWidth

/-- The ranges carry the identifier of the proposal that they make, and no key is in two of them. -/
structure Proposed (sha256 : Bytes → Bytes) (ps : List Range) : Prop where
  id : ∀ r ∈ ps, r.proposalID = proposalID sha256 ps
  sound : ∀ r ∈ ps, r.Sound
  once : ∀ key, ps.countP (·.contains key) ≤ 1

theorem Range.Sound.contains_start {r : Range} (h : r.Sound) : r.contains r.start = true := by
  rw [Range.contains, if_neg fun hlt => lt_irrefl _ hlt.2, if_neg fun hge => ?_]
  exact (h.lt hge.1).not_ge hge.2

theorem nodup_bounds_of_once {ps : List Range} (hsound : ∀ r ∈ ps, r.Sound)
    (honce : ∀ key, ps.countP (·.contains key) ≤ 1) : (ps.map Range.bounds).Nodup := by
  induction ps with
  | nil => exact List.nodup_nil
  | cons r ps ih =>
    have hr := hsound r List.mem_cons_self
    rw [List.map_cons, List.nodup_cons]
    refine ⟨fun hmem => ?_, ih (fun r' hr' => hsound r' (List.mem_cons_of_mem _ hr')) fun key => ?_⟩
    · obtain ⟨r', hr', hbounds⟩ := List.mem_map.mp hmem
      have hcontains : r'.contains r.start = true := by
        rw [← hr.contains_start, Range.contains, Range.contains]
        obtain ⟨hstart, hend⟩ := Prod.mk.inj hbounds
        rw [hstart, hend]
      have honce := honce r.start
      have hpos : 0 < ps.countP (·.contains r.start) :=
        List.countP_pos_iff.mpr ⟨r', hr', hcontains⟩
      rw [List.countP_cons, if_pos hr.contains_start] at honce
      omega
    · refine le_trans ?_ (honce key)
      exact (List.sublist_cons_self r ps).countP_le

/-- The identifier does not depend on what the fields for it hold. -/
theorem proposalID_congr {sha256 : Bytes → Bytes} {a b : List Range}
    (h : a.map (fun r => (r.start, r.end_, r.replicas)) =
      b.map fun r => (r.start, r.end_, r.replicas))
    (ha : (a.map Range.bounds).Nodup) : proposalID sha256 a = proposalID sha256 b := by
  have hbounds : a.map Range.bounds = b.map Range.bounds := by
    have := congrArg (List.map fun t : Bytes × Bytes × List NodeID => (t.1, t.2.1)) h
    rwa [List.map_map, List.map_map] at this
  have htriples : a.map Range.triple = b.map Range.triple := by
    have := congrArg (List.map fun t : Bytes × Bytes × List NodeID =>
      (t.1, t.2.1, t.2.2.insertionSort (· ≤ ·))) h
    rwa [List.map_map, List.map_map] at this
  have hsorted : sortedTriples a = sortedTriples b :=
    (sortedTriples_eq_iff ha (hbounds ▸ ha)).mpr fun t => htriples ▸ Iff.rfl
  rw [proposalID, proposalID, proposalStream_eq, proposalStream_eq, hsorted]

namespace Scheduler
open RangeMap
variable {s : Scheduler} {m p : RangeMap} {candidates : List NodeID} {c : Change} {new : List Range}
  {sha256 : Bytes → Bytes}

theorem newRanges_eq {pre post : List Range} (hranges : p.ranges = pre ++ new ++ post)
    (hpre : pre.length = c.index) (hnew : new.length = c.newWidth) : c.newRanges p = new := by
  rw [Change.newRanges, hranges, List.append_assoc, List.drop_left' hpre,
    List.take_left' hnew]

/-- The identifier that is put into the ranges is that of the ranges with it. -/
theorem id_of_unsigned (hnodup : (new.map Range.bounds).Nodup)
    (h : ∀ r ∈ new, r.proposalID = Cluster.proposalID sha256
      (new.map fun r => { r with proposalID := [] })) :
    ∀ r ∈ new, r.proposalID = Cluster.proposalID sha256 new := by
  intro r hr
  rw [h r hr]
  refine (proposalID_congr ?_ hnodup).symm
  rw [List.map_map]
  rfl

theorem id_of_proposal (hid : s.proposalID = Cluster.proposalID sha256)
    (h : s.proposal m candidates c = some p) (hnodup : ((c.newRanges p).map Range.bounds).Nodup) :
    ∀ r ∈ c.newRanges p, r.proposalID = Cluster.proposalID sha256 (c.newRanges p) := by
  refine id_of_unsigned hnodup ?_
  cases c with
  | split i =>
    obtain ⟨current, boundary, leftReplicas, rightReplicas, hcurrent, -, -, -, -, -, hp⟩ :=
      splitProposal_eq_some_iff.mp h
    have hnew : (Change.split i).newRanges p =
        s.splitChildren current boundary leftReplicas rightReplicas :=
      newRanges_eq (congrArg RangeMap.ranges hp)
        (List.length_take_of_le (List.getElem?_eq_some_iff.mp hcurrent).1.le) rfl
    rw [hnew, ← hid]
    intro r hr
    rcases List.mem_pair.mp hr with rfl | rfl <;> rfl
  | merge i =>
    obtain ⟨left, right, replicas, hleft, -, -, -, hp⟩ := mergeProposal_eq_some_iff.mp h
    have hnew : (Change.merge i).newRanges p = [s.mergedRange left right replicas] :=
      newRanges_eq (congrArg RangeMap.ranges hp)
        (List.length_take_of_le (List.getElem?_eq_some_iff.mp hleft).1.le) rfl
    rw [hnew, ← hid]
    intro r hr
    rw [List.mem_singleton.mp hr]
    rfl

theorem proposal_keeps (hs : s.WellFormed) (hid : s.proposalID = Cluster.proposalID sha256)
    (hm : m.Validated) (h : s.proposal m candidates c = some p) :
    p.Validated ∧ Proposed sha256 (c.newRanges p) ∧
      ∀ key, p.rangeAt key = m.rangeAt key ∨ ∃ r ∈ c.newRanges p, p.rangeAt key = some r := by
  have hpart := partitions_of_tiles hm.tiles
  obtain ⟨hvalid, -, new, heffect⟩ := takes_effect hs hm.valid hpart h
  have hpart' := heffect.replaces.partitions hpart
  have hnew : c.newRanges p = new := by
    refine newRanges_eq heffect.ranges ?_ heffect.length
    have hold := heffect.length_old
    have hwidth : 1 ≤ c.width := by cases c <;> simp [Change.width]
    rw [Change.ranges, List.length_take, List.length_drop] at hold
    rw [List.length_take]
    omega
  have hsound : ∀ r ∈ c.newRanges p, r.Sound := by
    intro r hr
    refine (validate_eq_ok_iff.mp hvalid).sound ?_
    rw [heffect.ranges]
    exact List.mem_append_left _ (List.mem_append_right _ (hnew ▸ hr))
  have honce : ∀ key, (c.newRanges p).countP (·.contains key) ≤ 1 := by
    intro key
    have hone := hpart' key
    rw [heffect.ranges, List.countP_append, List.countP_append] at hone
    rw [hnew]
    omega
  refine ⟨⟨hvalid, tiles_of_partitions hvalid hpart'⟩, ⟨?_, hsound, honce⟩, fun key => ?_⟩
  · exact id_of_proposal hid h (nodup_bounds_of_once hsound honce)
  · rcases heffect.replaces.rangeAt key with heq | ⟨r, hr, r', hr', hat, hat'⟩
    · exact .inl heq
    · exact .inr ⟨r', hnew ▸ hr', hat'⟩

end Scheduler

theorem Config.rangeMapGeneration_ne_zero {cfg : Config} (h : cfg.validate = .ok ()) :
    cfg.rangeMapGeneration ≠ 0 := by
  have hlast : decide (cfg.rangeMapGeneration < 1) = false :=
    Config.validate_eq_ok_iff.mp h _ (List.getLast_mem (l := cfg.checks) (List.cons_ne_nil _ _))
  intro hzero
  rw [hzero] at hlast
  cases hlast

/-! ## Runs -/

section
variable {ring : Ring ι} {i : ι} {n n' : RingNode} {a : RingAct ε} {wire sent : List RangeMapProto}
  {P P' : Set (List Range)}

theorem Ring.proposed_initialRange (ring : Ring ι) (i : ι) :
    Proposed ring.sha256 [ring.initialRange i] := by
  refine ⟨Scheduler.id_of_unsigned (List.nodup_singleton _) fun r hr => ?_, fun r hr => ?_,
    fun key => List.countP_le_length⟩
  · rw [List.mem_singleton.mp hr]
    rfl
  · rw [List.mem_singleton.mp hr]
    exact ⟨Config.rangeMapGeneration_ne_zero (ring.valid i),
      proposalID_ne_nil ring.length_sha256 _, ring.replicas_ne_nil i, fun h => (h rfl).elim⟩

/-- The bootstrap map is the proposal of its one range. -/
theorem Ring.derived_initialRange (ring : Ring ι) (hP : [ring.initialRange i] ∈ P) :
    RangeMap.Derived ring.sha256 P ⟨[ring.initialRange i]⟩ := by
  have hproposed := ring.proposed_initialRange i
  have hsound := hproposed.sound _ List.mem_cons_self
  have hvalid : RangeMap.validate ⟨[ring.initialRange i]⟩ = .ok () :=
    RangeMap.validate_eq_ok_iff.mpr (.last hsound rfl rfl)
  have hpart : RangeMap.Partitions ⟨[ring.initialRange i]⟩ := fun key => rfl
  refine ⟨⟨hvalid, RangeMap.tiles_of_partitions hvalid hpart⟩, fun key r hr => ?_⟩
  obtain ⟨hmem, hcontains⟩ := RangeMap.of_rangeAt hr
  exact ⟨_, hP, hproposed.id r hmem, r, hmem, hcontains, rfl⟩

namespace RingNode

/-- What the step proposes. -/
def proposed (ring : Ring ι) (i : ι) (n : RingNode) (a : RingAct ε) : List (List Range) :=
  ((n.proposal ring i a).map fun (c, p) => c.newRanges p).toList

theorem mem_proposed : ps ∈ n.proposed ring i a ↔
    ∃ c p, n.proposal ring i a = some (c, p) ∧ c.newRanges p = ps := by
  rw [proposed, Option.mem_toList, Option.map_eq_some_iff, Prod.exists]

/-- The maps of the node stem from the proposals, and no epoch that it publishes is ahead of its
table. -/
structure Sound (ring : Ring ι) (P : Set (List Range)) (n : RingNode) : Prop where
  table : n.table.Derived ring.sha256 P
  snapshot : ∀ t, n.tick = some t → t.snapshot.Derived ring.sha256 P
  read : ∀ e ∈ n.read, e ≤ n.table.epoch
  advertised : n.advertised ≤ n.table.epoch

theorem Sound.mono (h : n.Sound ring P) (hP : P ⊆ P') : n.Sound ring P' :=
  ⟨h.table.mono hP, fun t ht => (h.snapshot t ht).mono hP, h.read, h.advertised⟩

theorem sound_start (hP : [ring.initialRange i] ∈ P) : (start ring i).Sound ring P := by
  refine ⟨ring.derived_initialRange hP, fun t ht => (by cases ht), fun e he => (by cases he), ?_⟩
  exact RangeMap.epoch_le_iff.mp le_rfl (ring.initialRange i) List.mem_cons_self

theorem proposal_eq_some_iff {scanner : { scanner : RangeScanner ε // ScansInside scanner }}
    {c : Change} {p : RangeMap} : n.proposal ring i (.visit scanner) = some (c, p) ↔
      ∃ t, n.tick = some t ∧ (n.scheduler ring i scanner.1).attempt t.snapshot t.index = some c ∧
        (n.scheduler ring i scanner.1).proposal t.snapshot t.candidates c = some p := by
  simp only [proposal, Option.bind_eq_bind, Option.bind_eq_some_iff, Option.some.injEq,
    Prod.mk.injEq]
  constructor
  · rintro ⟨t, ht, c', hc, p', hp, rfl, rfl⟩
    exact ⟨t, ht, hc, hp⟩
  · rintro ⟨t, ht, hc, hp⟩
    exact ⟨t, ht, c, hc, p, hp, rfl, rfl⟩

/-- A proposal of a sound node is well formed, and what it does not replace is what was there. -/
theorem Sound.proposal (h : n.Sound ring P) (hp : n.proposal ring i a = some (c, p)) :
    Proposed ring.sha256 (c.newRanges p) ∧
      (c.newRanges p ∈ P → p.Derived ring.sha256 P) := by
  cases a with
  | visit scanner =>
    obtain ⟨t, ht, -, hp⟩ := proposal_eq_some_iff.mp hp
    have hsnapshot := h.snapshot t ht
    obtain ⟨htable, hproposed, hrange⟩ := Scheduler.proposal_keeps
      (wellFormed_schedulerOver ring.length_sha256 scanner.2) rfl hsnapshot.table hp
    refine ⟨hproposed, fun hmem => ⟨htable, fun key r hr => ?_⟩⟩
    rcases hrange key with heq | ⟨r', hr', heq⟩
    · exact hsnapshot.backed key r (heq ▸ hr)
    · cases hr.symm.trans heq
      exact ⟨_, hmem, hproposed.id r hr', r, hr', (RangeMap.of_rangeAt hr).2, rfl⟩
  | _ => cases hp

theorem Sound.merge {incoming : RangeMap} (h : n.Sound ring P)
    (hincoming : incoming.Derived ring.sha256 P) (hmerge : n.merge incoming = some n') :
    n'.Sound ring P ∧ RangeMap.Grows n.table n'.table := by
  obtain ⟨table, happly, rfl⟩ := Option.map_eq_some_iff.mp hmerge
  obtain ⟨htable, hgrows⟩ := h.table.apply hincoming happly
  have hepoch := hgrows.epoch_le h.table.table htable.table
  exact ⟨⟨htable, h.snapshot, fun e he => (h.read e he).trans hepoch,
    h.advertised.trans hepoch⟩, hgrows⟩

/-- Each step keeps this, and no step but a restart takes the table back. -/
theorem Sound.act (h : n.Sound ring P) (hinitial : [ring.initialRange i] ∈ P)
    (hproposed : ∀ ps ∈ n.proposed ring i a, ps ∈ P)
    (hwire : ∀ x ∈ wire, (rangeMapFromProto (some x)).Derived ring.sha256 P)
    (hact : n.act ring i wire a = some (n', sent)) :
    (n'.Sound ring P ∧ ∀ x ∈ sent, (rangeMapFromProto (some x)).Derived ring.sha256 P) ∧
      (a ≠ .restart → RangeMap.Grows n.table n'.table) := by
  have hquiet : ∀ x ∈ ([] : List RangeMapProto),
      (rangeMapFromProto (some x)).Derived ring.sha256 P := fun x hx => (by cases hx)
  have hstay : RangeMap.Grows n.table n.table := .refl _
  cases a with
  | tick candidates =>
    rw [RingNode.act] at hact
    split at hact
    · cases hact
      refine ⟨⟨⟨h.table, fun t ht => ?_, h.read, h.advertised⟩, hquiet⟩, fun _ => hstay⟩
      cases ht
      exact h.table
    · cases hact
  | visit scanner =>
    obtain ⟨t, ht, hact⟩ := Option.bind_eq_some_iff.mp hact
    have hsnapshot := h.snapshot t ht
    split at hact
    · split at hact
      · rename_i hmerged
        cases hact
        obtain ⟨⟨c, p⟩, hp, hmerge⟩ := Option.bind_eq_some_iff.mp hmerged
        obtain ⟨hn, hgrows⟩ :=
          h.merge ((h.proposal hp).2 (hproposed _ (mem_proposed.mpr ⟨c, p, hp, rfl⟩))) hmerge
        exact ⟨⟨⟨hn.table, fun t ht => (by cases ht), hn.read, hn.advertised⟩, hquiet⟩,
          fun _ => hgrows⟩
      · cases hact
        refine ⟨⟨⟨h.table, fun t' ht' => ?_, h.read, h.advertised⟩, hquiet⟩, fun _ => hstay⟩
        cases ht'
        exact hsnapshot
    · cases hact
      exact ⟨⟨⟨h.table, fun t ht => (by cases ht), h.read, h.advertised⟩, hquiet⟩, fun _ => hstay⟩
  | serve =>
    cases hact
    refine ⟨⟨h, fun x hx => ?_⟩, fun _ => hstay⟩
    rw [List.mem_singleton.mp hx, rangeMapFromProto_rangeMapToProto]
    exact h.table
  | pull fetched =>
    rw [RingNode.act] at hact
    split at hact
    · rename_i hmem
      cases hact
      cases hmerge : n.merge (rangeMapFromProto (some fetched)) with
      | none => exact ⟨⟨h, hquiet⟩, fun _ => hstay⟩
      | some merged =>
        obtain ⟨hn, hgrows⟩ := h.merge (hwire fetched hmem) hmerge
        exact ⟨⟨hn, hquiet⟩, fun _ => hgrows⟩
    · cases hact
  | readEpoch =>
    rw [RingNode.act] at hact
    split at hact
    · cases hact
      refine ⟨⟨⟨h.table, h.snapshot, fun e he => ?_, h.advertised⟩, hquiet⟩, fun _ => hstay⟩
      rcases List.mem_cons.mp he with rfl | he
      · exact le_rfl
      · exact h.read e he
    · cases hact
  | publish epoch =>
    rw [RingNode.act] at hact
    split at hact
    · rename_i hmem
      cases hact
      exact ⟨⟨⟨h.table, h.snapshot, fun e he => h.read e (List.mem_of_mem_erase he),
        h.read epoch hmem⟩, hquiet⟩, fun _ => hstay⟩
    · cases hact
  | restart =>
    cases hact
    exact ⟨⟨sound_start hinitial, hquiet⟩, fun hne => (hne rfl).elim⟩

end RingNode
end

namespace RingWorld
variable [DecidableEq ι] {ring : Ring ι} {i j : ι} {w w' : RingWorld ι}
  {ops ops' : List (ι × RingAct ε)} {P : Set (List Range)}

/-- The proposals of a run: the ranges of the bootstrap maps, and what the schedulers propose. -/
def proposals (ring : Ring ι) (ops : List (ι × RingAct ε)) : Set (List Range) :=
  {ps | (∃ i, ps = [ring.initialRange i]) ∨
    ps ∈ (step ring).emitted (fun w (i, a) => (w.node i).proposed ring i a) (start ring) ops}

theorem proposals_mono (hrun : (step ring).run (start ring) ops = some w) :
    proposals ring ops ⊆ proposals ring (ops ++ ops') := by
  rintro ps (hinitial | hps)
  · exact .inl hinitial
  · refine .inr ?_
    rw [System.emitted_append hrun]
    exact List.mem_append_left _ hps

theorem mem_proposals_concat (hrun : (step ring).run (start ring) ops = some w) {ps : List Range} :
    ps ∈ proposals ring (ops ++ [(i, a)]) ↔
      ps ∈ proposals ring ops ∨ ps ∈ (w.node i).proposed ring i a := by
  refine (or_congr_right (System.mem_emitted_concat hrun)).trans ?_
  rw [← or_assoc]
  rfl

/-- All maps of the cluster stem from the proposals. -/
structure Sound (ring : Ring ι) (P : Set (List Range)) (w : RingWorld ι) : Prop where
  node : ∀ i, (w.node i).Sound ring P
  wire : ∀ x ∈ w.wire, (rangeMapFromProto (some x)).Derived ring.sha256 P
  proposed : ∀ ps ∈ P, Proposed ring.sha256 ps

theorem sound_start : (start ring).Sound ring (proposals ring ([] : List (ι × RingAct ε))) := by
  refine ⟨fun i => RingNode.sound_start (.inl ⟨i, rfl⟩), fun x hx => (by cases hx), ?_⟩
  rintro ps (⟨i, rfl⟩ | hps)
  · exact ring.proposed_initialRange i
  · cases hps

theorem Sound.step (h : w.Sound ring (proposals ring ops))
    (hrun : (step ring).run (start ring) ops = some w)
    (hstep : step ring w (i, a) = some w') :
    w'.Sound ring (proposals ring (ops ++ [(i, a)])) ∧
      ∀ j, (i, a) ≠ (j, .restart) → RangeMap.Grows (w.node j).table (w'.node j).table := by
  obtain ⟨⟨n, sent⟩, hact, rfl⟩ := Option.map_eq_some_iff.mp hstep
  have hmono : proposals ring ops ⊆ proposals ring (ops ++ [(i, a)]) := proposals_mono hrun
  obtain ⟨⟨hn, hsent⟩, hgrows⟩ := ((h.node i).mono hmono).act (.inl ⟨i, rfl⟩)
    (fun ps hps => (mem_proposals_concat hrun).mpr (.inr hps))
    (fun x hx => (h.wire x hx).mono hmono) hact
  refine ⟨⟨fun j => ?_, fun x hx => ?_, fun ps hps => ?_⟩, fun j hj => ?_⟩
  · dsimp only
    rw [Function.update_apply]
    split
    · exact hn
    · exact (h.node j).mono hmono
  · rcases List.mem_append.mp hx with hx | hx
    · exact (h.wire x hx).mono hmono
    · exact hsent x hx
  · rcases (mem_proposals_concat hrun).mp hps with hps | hps
    · exact h.proposed ps hps
    · obtain ⟨c, p, hp, rfl⟩ := RingNode.mem_proposed.mp hps
      exact ((h.node i).proposal hp).1
  · dsimp only
    rw [Function.update_apply]
    split
    · rename_i hji
      subst hji
      exact hgrows fun ha => hj (ha ▸ rfl)
    · exact .refl _

theorem worldSound_of_run (hrun : (step ring).run (start ring) ops = some w) :
    w.Sound ring (proposals ring ops) := by
  refine (System.run_invariant (I := fun ops w => (RingWorld.step ring).run (start ring) ops = some w
    ∧ w.Sound ring (proposals ring ops)) ⟨rfl, sound_start⟩ ?_ hrun).2
  rintro ops w ⟨i, a⟩ w' ⟨hrun, hs⟩ hstep
  exact ⟨System.run_concat.mpr ⟨w, hrun, hstep⟩, (hs.step hrun hstep).1⟩

/-- In every run, the table of each node is a valid map that partitions the keys, and what it has
for a key is what a proposal of the run has for it. -/
theorem tables_backed (hrun : (step ring).run (start ring) ops = some w) (i : ι) :
    (w.node i).table.validate = .ok () ∧ (w.node i).table.Partitions ∧
      ∀ key, ∃ r, (w.node i).table.rangeAt key = some r ∧ ∃ ps ∈ proposals ring ops,
        r.proposalID = proposalID ring.sha256 ps ∧
          ∃ r' ∈ ps, r'.contains key = true ∧ r'.replicas = r.replicas := by
  obtain ⟨htable, hbacked⟩ := ((worldSound_of_run hrun).node i).table
  refine ⟨htable.valid, RangeMap.partitions_of_tiles htable.tiles, fun key => ?_⟩
  obtain ⟨r, hr⟩ := RangeMap.exists_rangeAt htable.tiles key
  exact ⟨r, hr, hbacked key r hr⟩

/-- Two nodes that start with one range on both. -/
def twoReplicas : Ring Bool where
  cfg i :=
    { Scheduler.sampleConfig 2 with
      nodeID := if i then [98] else [97], replicationFactor := 2, readQuorum := 1
      tabletSplitBytes := 2, tabletMergeBytes := 1 }
  replicas _ := [[97], [98]]
  sum64 := sampleSum64
  sha256 := sampleSha256
  valid := by decide +kernel
  replicas_ne_nil _ := List.cons_ne_nil _ _
  length_sha256 := length_sampleSha256

/-- The first node splits the range, publishes the new epoch and serves the map. -/
def split : List (Bool × RingAct Empty) :=
  [(false, .tick [[97], [98]]), (false, .visit sampleScanner), (false, .readEpoch), (false, .publish 2),
    (false, .serve)]

def afterSplit : RingWorld Bool :=
  ((step twoReplicas).run (start twoReplicas) split).get (by decide +kernel)

theorem run_split : (step twoReplicas).run (start twoReplicas) split = some afterSplit :=
  (Option.some_get _).symm

/-- The second node pulls it. -/
def pulls : List (Bool × RingAct Empty) := afterSplit.wire.map fun fetched => (true, .pull fetched)

def afterPulls : RingWorld Bool :=
  ((step twoReplicas).run afterSplit pulls).get (by decide +kernel)

theorem run_pulls : (step twoReplicas).run afterSplit pulls = some afterPulls :=
  (Option.some_get _).symm

theorem tables_backed_split :
    (afterPulls.node true).table.ranges.length = 2 ∧ (afterPulls.node true).table.Partitions :=
  ⟨by decide +kernel,
    (tables_backed (System.run_append.mpr ⟨afterSplit, run_split, run_pulls⟩) true).2.1⟩

theorem grows_of_run (hs : w.Sound ring (proposals ring ops))
    (hrun : (step ring).run (start ring) ops = some w) (hrun' : (step ring).run w ops' = some w')
    (hup : (i, .restart) ∉ ops') :
    RangeMap.Grows (w.node i).table (w'.node i).table := by
  induction ops' generalizing ops w with
  | nil =>
    cases hrun'
    exact .refl _
  | cons op ops' ih =>
    obtain ⟨u, hstep, hrun'⟩ := System.run_cons_eq_some.mp hrun'
    obtain ⟨hne, hup⟩ := not_or.mp fun h => hup (List.mem_cons.mpr h)
    obtain ⟨hu, hgrows⟩ := hs.step hrun hstep
    exact (hgrows i (Ne.symm hne)).trans (hu.node i).table.table
      (ih hu (System.run_concat.mpr ⟨w, hrun, hstep⟩) hrun' hup)

/-- While a node is up, the generation that its table has for a key does not fall, and a key gets
other replicas or another proposal with a greater generation only. What the node has advertised is
never ahead of the map that it serves then or later. -/
theorem generations_grow (hrun : (step ring).run (start ring) ops = some w)
    (hrun' : (step ring).run w ops' = some w') (hup : (i, .restart) ∉ ops') :
    (∀ key r r', (w.node i).table.rangeAt key = some r →
      (w'.node i).table.rangeAt key = some r' → r.generation ≤ r'.generation ∧
        (r'.replicas ≠ r.replicas ∨ r'.proposalID ≠ r.proposalID →
          r.generation < r'.generation)) ∧
    (w.node i).advertised ≤ (rangeMapToProto (w'.node i).table).generation := by
  have hs := worldSound_of_run hrun
  have hs' := worldSound_of_run (System.run_append.mpr ⟨w, hrun, hrun'⟩)
  have hgrows := grows_of_run hs hrun hrun' hup
  refine ⟨fun key r r' hr hr' => ?_, (hs.node i).advertised.trans
    (hgrows.epoch_le (hs.node i).table.table (hs'.node i).table.table)⟩
  have hle := hgrows.generation key r r' hr hr'
  refine ⟨hle, fun hdiffers => lt_of_le_of_ne hle fun heq => ?_⟩
  obtain ⟨hreplicas, hproposal⟩ := hgrows.fields key r r' hr hr' heq.symm
  exact hdiffers.elim (· hreplicas) (· hproposal)

/-- The first range of the split. -/
def leftRange : Range := (afterPulls.node true).table.ranges.head (by decide +kernel)

theorem generations_grow_split :
    (afterSplit.node true).table.rangeAt [107] = some (twoReplicas.initialRange true) ∧
      (afterPulls.node true).table.rangeAt [107] = some leftRange ∧
      (twoReplicas.initialRange true).generation < leftRange.generation := by
  have hup : (true, RingAct.restart) ∉ pulls := by
    intro h
    obtain ⟨fetched, -, heq⟩ := List.mem_map.mp h
    cases heq
  have hr : (afterSplit.node true).table.rangeAt [107] = some (twoReplicas.initialRange true) := by
    decide +kernel
  have hr' : (afterPulls.node true).table.rangeAt [107] = some leftRange := by decide +kernel
  exact ⟨hr, hr', ((generations_grow run_split run_pulls hup).1 [107] _ _ hr hr').2
    (.inr (by decide +kernel))⟩

/-- The ranges for a key of two proposals that say the same. -/
theorem replicas_perm {ps ps' : List Range} {q q' : Range} {key : Bytes}
    (htriples : ∀ t, t ∈ ps.map Range.triple ↔ t ∈ ps'.map Range.triple)
    (honce : ∀ key, ps'.countP (·.contains key) ≤ 1) (hq : q ∈ ps) (hq' : q' ∈ ps')
    (hkey : q.contains key = true) (hkey' : q'.contains key = true) :
    q.replicas.Perm q'.replicas := by
  obtain ⟨r, hr, htriple⟩ := List.mem_map.mp ((htriples q.triple).mp (List.mem_map_of_mem hq))
  have hcontains : r.contains key = true := by
    have hstart : r.start = q.start := congrArg Prod.fst htriple
    have hend : r.end_ = q.end_ := congrArg (fun t => t.2.1) htriple
    rw [← hkey, Range.contains, Range.contains, hstart, hend]
  have hsame : r = q' := by
    obtain ⟨m, hm⟩ := List.mem_iff_getElem?.mp hr
    obtain ⟨n, hn⟩ := List.mem_iff_getElem?.mp hq'
    obtain rfl := eq_of_countP_le_one (honce key) hm hcontains hn hkey'
    exact Option.some.inj (hm.symm.trans hn)
  have hsorted : r.replicas.insertionSort (· ≤ ·) = q.replicas.insertionSort (· ≤ ·) :=
    congrArg (fun t => t.2.2) htriple
  rw [← hsame]
  exact (List.perm_insertionSort (· ≤ ·) _).symm.trans
    (hsorted ▸ List.perm_insertionSort (· ≤ ·) r.replicas)

/-- Nodes whose tables have the same proposal for a key, at the same time or not, have the same
replicas for it, if the hash tells the proposals of the run apart. -/
theorem same_proposal_same_owners (hrun : (step ring).run (start ring) ops = some w)
    (hrun' : (step ring).run w ops' = some w')
    (hfit : ∀ ps ∈ proposals ring (ops ++ ops'), LengthsFit ps)
    (hsha : ∀ ps ∈ proposals ring (ops ++ ops'), ∀ ps' ∈ proposals ring (ops ++ ops'),
      ring.sha256 (proposalStream ps) = ring.sha256 (proposalStream ps') →
        proposalStream ps = proposalStream ps')
    (hr : (w.node i).table.rangeAt key = some r) (hr' : (w'.node j).table.rangeAt key = some r')
    (heq : r.proposalID = r'.proposalID) : r.replicas.Perm r'.replicas := by
  have hs' := worldSound_of_run (System.run_append.mpr ⟨w, hrun, hrun'⟩)
  obtain ⟨ps, hps, hid, q, hq, hkey, hreplicas⟩ :=
    (((worldSound_of_run hrun).node i).mono (proposals_mono hrun)).table.backed key r hr
  obtain ⟨ps', hps', hid', q', hq', hkey', hreplicas'⟩ := (hs'.node j).table.backed key r' hr'
  have hstream : proposalStream ps = proposalStream ps' :=
    hsha ps hps ps' hps' (hexEncode_inj (hid.symm.trans (heq.trans hid')))
  have hproposed := hs'.proposed ps hps
  have hproposed' := hs'.proposed ps' hps'
  have htriples := (proposalStream_eq_iff (nodup_bounds_of_once hproposed.sound hproposed.once)
    (nodup_bounds_of_once hproposed'.sound hproposed'.once) (hfit ps hps) (hfit ps' hps')).mp hstream
  rw [← hreplicas, ← hreplicas']
  exact replicas_perm htriples hproposed'.once hq hq' hkey hkey'

theorem same_proposal_same_owners_split :
    (afterSplit.node false).table.rangeAt [107] = some leftRange ∧
      (afterPulls.node true).table.rangeAt [107] = some leftRange ∧
      leftRange.replicas.Perm leftRange.replicas := by
  have hr : (afterSplit.node false).table.rangeAt [107] = some leftRange := by decide +kernel
  have hr' : (afterPulls.node true).table.rangeAt [107] = some leftRange := by decide +kernel
  have hmade : ∀ ps ∈ proposals twoReplicas (split ++ pulls),
      ps ∈ [[twoReplicas.initialRange false], (afterSplit.node false).table.ranges] := by
    rintro ps (⟨i, rfl⟩ | hps)
    · cases i <;> exact List.mem_cons_self
    · revert ps
      decide +kernel
  refine ⟨hr, hr', same_proposal_same_owners run_split run_pulls (fun ps hps => ?_)
    (fun ps hps ps' hps' => ?_) hr hr' rfl⟩
  · have hall : ∀ ps ∈ [[twoReplicas.initialRange false], (afterSplit.node false).table.ranges],
        ps.length < 2 ^ 63 ∧ ∀ r ∈ ps, r.start.length < 2 ^ 63 ∧ r.end_.length < 2 ^ 63 ∧
          r.replicas.length < 2 ^ 63 ∧ ∀ node ∈ r.replicas, node.length < 2 ^ 63 := by
      decide +kernel
    obtain ⟨hlength, hranges⟩ := hall ps (hmade ps hps)
    exact ⟨hlength, fun r hr => (hranges r hr).1, fun r hr => (hranges r hr).2.1,
      fun r hr => (hranges r hr).2.2.1, fun r hr => (hranges r hr).2.2.2⟩
  · have hall : ∀ ps ∈ [[twoReplicas.initialRange false], (afterSplit.node false).table.ranges],
        ∀ ps' ∈ [[twoReplicas.initialRange false], (afterSplit.node false).table.ranges],
          twoReplicas.sha256 (proposalStream ps) = twoReplicas.sha256 (proposalStream ps') →
            proposalStream ps = proposalStream ps' := by
      decide +kernel
    exact hall ps (hmade ps hps) ps' (hmade ps' hps')

end RingWorld
end ChudDB.Cluster
