import ChudDB.Lib.Quorum
import ChudDB.Cluster.TabletProposal

/-! # Splitting and merging tablets

The tablet scheduler (`scheduler.go`) replaces one range of the map by two, or two neighbours by
one. The new ranges keep all but one of the previous replicas. That is enough to keep a holder of
every acknowledged write if a write is acknowledged by at least two owners
(`tick_keeps_holder_iff`). The hash, the identifiers of proposals, the alive nodes and what the
scans of the store say are inputs. -/

namespace ChudDB.Cluster
open Lib

namespace RangeMap

/-- The map moves ranges, and each new range keeps replicas of the ranges that it takes keys
from. -/
def Moves (count : Int) (m m' : RangeMap) : Prop :=
  ∃ old new, Replaces m m' old new ∧
    ∀ r ∈ old, ∀ r' ∈ new, Retains count r.replicas r'.replicas

end RangeMap

namespace Scheduler
open RangeMap
variable {s : Scheduler} {m m' proposal : RangeMap} {candidates : List NodeID}

theorem tick_spec (s : Scheduler) (hm : m.validate = .ok ()) (hpart : m.Partitions)
    (candidates : List NodeID) :
    (s.tick m candidates).2 = m ∨ Moves s.cfg.replicationFactor m (s.tick m candidates).2 := by
  cases hperformed : s.performed m candidates with
  | none => exact .inl (tick_of_performed_eq_none hperformed)
  | some c =>
    obtain ⟨i, p, -, hp, happly⟩ := performed_cases hperformed
    have hmerge := apply_eq_some_iff.mp happly
    have hvalid := (validate_of_merge hmerge).2
    obtain ⟨new, heffect⟩ := effect_of_proposal hm hpart hp hvalid
    rw [heffect.replaces.merge_eq hm hpart hvalid, Except.ok.injEq, Prod.mk.injEq] at hmerge
    exact .inr ⟨c.ranges m, new, hmerge.1 ▸ heffect.replaces, heffect.retains⟩

/-! ## Holders of a write -/

variable {owners owners' : List NodeID}

/-- Replicas that are kept meet the holders of a write if the two together exceed the owners. -/
theorem exists_held_of_retains {held : NodeID → Bool} (h : Retains count owners owners')
    (hheld : (owners.length : Int) < owners.countP held + max 1 (count - 1)) :
    ∃ node ∈ owners', held node = true := by
  obtain ⟨kept, hnodup, hsub, hsub', hlength⟩ := h
  have hle : kept.length ≤ owners.countP (· ∈ kept) := by
    rw [List.countP_eq_length_filter]
    refine (hnodup.subperm fun node hnode => ?_).length_le
    exact List.mem_filter.mpr ⟨hsub hnode, decide_eq_true hnode⟩
  obtain ⟨node, -, hmeets, hkept⟩ := exists_mem_of_countP_add_gt
    (show owners.length < owners.countP held + owners.countP (· ∈ kept) by omega)
  exact ⟨node, hsub' (of_decide_eq_true hkept), hmeets⟩

theorem exists_held_of_moves {held : NodeID → Bool} (h : Moves count m m') (hcount : 1 ≤ count)
    (hfactor : ∀ r ∈ m.ranges, (r.replicas.length : Int) = count)
    (howners : m.owners key = some owners)
    (hheld : count < owners.countP held + max 1 (count - 1)) :
    ∃ owners', m'.owners key = some owners' ∧ ∃ node ∈ owners', held node = true := by
  obtain ⟨old, new, hreplaces, hretains⟩ := h
  obtain ⟨r₀, hat, rfl⟩ := Option.map_eq_some_iff.mp howners
  have hlength := hfactor r₀ (List.mem_of_find?_eq_some hat)
  rcases hreplaces.rangeAt key with hsame | ⟨r, hr, r', hr', hat₁, hat'⟩
  · have hpos : 0 < r₀.replicas.countP held := by
      have hle := List.countP_le_length (p := held) (l := r₀.replicas)
      omega
    obtain ⟨node, hnode, hnode'⟩ := List.countP_pos_iff.mp hpos
    exact ⟨r₀.replicas, by rw [RangeMap.owners, hsame, hat]; rfl, node, hnode, hnode'⟩
  · rw [hat, Option.some.injEq] at hat₁
    subst hat₁
    refine ⟨r'.replicas, by rw [RangeMap.owners, hat']; rfl, ?_⟩
    exact exists_held_of_retains (hretains r₀ hr r' hr') (hlength ▸ hheld)

/-! ## A split that loses the only holder -/

/-- Node IDs that extend one another. -/
def peer (nodeID : NodeID) (j : Nat) : NodeID := nodeID ++ List.replicate j 0

theorem peer_injective : Function.Injective (peer nodeID) := by
  intro i j h
  have hlength := congrArg List.length h
  rw [peer, peer, List.length_append, List.length_append, List.length_replicate,
    List.length_replicate] at hlength
  omega

def peers (nodeID : NodeID) (js : List Nat) : List NodeID := js.map (peer nodeID)

theorem mem_peers : peer nodeID j ∈ peers nodeID js ↔ j ∈ js :=
  List.mem_map_of_injective peer_injective

theorem mem_peers_self (hn : 1 ≤ n) : nodeID ∈ peers nodeID (List.range n) := by
  have hpeer : peer nodeID 0 ∈ peers nodeID (List.range n) :=
    mem_peers.mpr (List.mem_range.mpr hn)
  rwa [peer, List.replicate_zero, List.append_nil] at hpeer

/-- One range on `n` peers. -/
def startMap (nodeID : NodeID) (n : Nat) : RangeMap :=
  ⟨[⟨[], [], peers nodeID (List.range n), 1, [112]⟩]⟩

/-- All but the last of these peers, and a new one. -/
def survivors (nodeID : NodeID) (n : Nat) : List NodeID :=
  peers nodeID (List.range (n - 1) ++ [n])

theorem exists_assign_peers {js : List Nat} {previous : List NodeID} {count : Int}
    (score : NodeID → Counter) (hnode : nodeID ≠ []) (hjs : js.Nodup) (hcount : 1 ≤ count)
    (hlength : count ≤ js.length)
    (hprevious : max 1 (count - 1) ≤ js.countP (peer nodeID · ∈ previous)) :
    ∃ replicas, assignReplicas score (peers nodeID js) previous count = .ok replicas := by
  have hne : [] ∉ peers nodeID js := by
    intro hmem
    obtain ⟨j, -, hj⟩ := List.mem_map.mp hmem
    exact hnode (List.append_eq_nil_iff.mp hj).1
  have hperm : (rankCandidates score (peers nodeID js)).Perm _ :=
    rankCandidates_perm (hjs.map peer_injective) hne
  refine exists_assignReplicas hcount ?_ ?_
  · rwa [hperm.length_eq, peers, List.length_map]
  · rwa [hperm.countP_eq, peers, List.countP_map]

theorem exists_assign_survivors (score : NodeID → Counter) (hnode : nodeID ≠ []) (hn : 2 ≤ n) :
    ∃ replicas, assignReplicas score (survivors nodeID n) (peers nodeID (List.range n)) n =
      .ok replicas := by
  have hnodup : (List.range (n - 1) ++ [n]).Nodup := by
    refine List.nodup_append.mpr ⟨List.nodup_range, List.nodup_singleton n, fun i hi j hj => ?_⟩
    rw [List.mem_range] at hi
    rw [List.mem_singleton] at hj
    omega
  have hall : (List.range (n - 1)).countP (peer nodeID · ∈ peers nodeID (List.range n)) =
      n - 1 := by
    rw [List.countP_eq_length.mpr fun j hj => ?_, List.length_range]
    rw [List.mem_range] at hj
    exact decide_eq_true (mem_peers.mpr (List.mem_range.mpr (by omega)))
  refine exists_assign_peers score hnode hnodup (by omega) ?_ ?_
  · rw [List.length_append, List.length_range, List.length_singleton]
    omega
  · rw [List.countP_append, hall]
    omega

/-- A scheduler that splits the map above. -/
def splitter (cfg : Config) (replicaScore : Bytes → Bytes → NodeID → Counter)
    (proposalID : List Range → Bytes) : Scheduler where
  cfg := cfg
  replicaScore := replicaScore
  proposalID := proposalID
  estimate _ _ := some cfg.tabletSplitBytes
  boundary _ _ := some [109]
  settled _ := cfg.tabletSettlingTicks

theorem startMap_valid (nodeID : NodeID) (hn : 1 ≤ n) :
    (startMap nodeID n).validate = .ok () ∧ (startMap nodeID n).Partitions := by
  have hvalid : (startMap nodeID n).validate = .ok () := by
    refine validate_eq_ok_iff.mpr (.last ⟨one_ne_zero, List.cons_ne_nil _ _, ?_,
      fun h => absurd rfl h⟩ rfl rfl)
    intro hnil
    have hlength := congrArg List.length hnil
    rw [peers, List.length_map, List.length_range, List.length_nil] at hlength
    omega
  refine ⟨hvalid, partitions_of_tiles (.last rfl rfl)⟩

/-- The split of the map above leaves the last of the peers without a range. -/
theorem tick_splitter {cfg : Config} {n : Nat} (hcfg : cfg.Placement) (hn : 2 ≤ n)
    (hfactor : cfg.replicationFactor = n) (replicaScore : Bytes → Bytes → NodeID → Counter)
    {proposalID : List Range → Bytes} (hid : ∀ ranges, proposalID ranges ≠ []) :
    ∃ owners, ((splitter cfg replicaScore proposalID).tick (startMap cfg.nodeID n)
      (survivors cfg.nodeID n)).2.owners [] = some owners ∧ owners ⊆ survivors cfg.nodeID n := by
  obtain ⟨hvalid, hpart⟩ := startMap_valid cfg.nodeID (show 1 ≤ n by omega)
  obtain ⟨left, hleft⟩ := exists_assign_survivors (replicaScore [] [109]) hcfg.nodeID_ne hn
  obtain ⟨right, hright⟩ := exists_assign_survivors (replicaScore [109] []) hcfg.nodeID_ne hn
  obtain ⟨hretains, hsub⟩ := assignReplicas_spec hleft
  let s := (splitter cfg replicaScore proposalID).updateSettled (startMap cfg.nodeID n)
  let current : Range := ⟨[], [], peers cfg.nodeID (List.range n), 1, [112]⟩
  let proposal : RangeMap := ⟨s.splitChildren current [109] left right⟩
  have hvalid' : proposal.validate = .ok () := by
    have hgen : (1 : Counter) + 1 ≠ 0 := by decide
    refine validate_eq_ok_iff.mpr (.cons ⟨hgen, hid _, hretains.replicas_ne_nil, fun _ => ?_⟩ rfl
      (.last ⟨hgen, hid _, (assignReplicas_spec hright).1.replicas_ne_nil, fun h => absurd rfl h⟩
        rfl rfl))
    exact List.nil_lt_cons _ _
  have hreplaces : Replaces (startMap cfg.nodeID n) proposal [current]
      (s.splitChildren current [109] left right) := by
    have hgen : (1 : Counter) ≠ maxUint64 := by decide
    exact replaces_of_split (i := 0) rfl hgen (List.cons_ne_nil _ _) rfl hvalid'
  have hne : startMap cfg.nodeID n ≠ proposal := fun heq => by
    have hlength := congrArg (·.ranges.length) heq
    cases hlength
  have happly : apply (startMap cfg.nodeID n) proposal = some proposal := by
    rw [apply_eq_some_iff, hreplaces.merge_eq hvalid hpart hvalid', decide_eq_true hne]
  have hmem : cfg.nodeID ∈ current.replicas := mem_peers_self (by omega)
  have hready : s.Ready current := by
    refine ⟨hmem, decide_eq_true ?_⟩
    rw [settled_updateSettled, if_pos ⟨current, List.mem_singleton_self _, rfl, hmem⟩]
    exact Int.le_add_one le_rfl
  have hattempt : s.attempt (startMap cfg.nodeID n) 0 = some (.split 0) :=
    attempt_eq_split rfl hready rfl (le_refl cfg.tabletSplitBytes)
  have hproposal : s.splitProposal (startMap cfg.nodeID n) 0 (survivors cfg.nodeID n) =
      some proposal := by
    have hgen : (1 : Counter) ≠ maxUint64 := by decide
    have hinside : ¬ (([109] : Bytes) = [] ∨ ([109] : Bytes) = [] ∨ ([109] : Bytes) = []) := by
      decide
    exact splitProposal_eq_some_iff.mpr ⟨current, [109], left, right, rfl, hgen, rfl, hinside,
      hfactor ▸ hleft, hfactor ▸ hright, rfl⟩
  refine ⟨left, ?_, hsub⟩
  rw [tick_of_attempt_zero hattempt hproposal happly]
  rfl

/-- A tick keeps a holder of every write that a write quorum of the owners holds if two owners
acknowledge a write, or if there is only one replica. -/
theorem tick_keeps_holder_iff {cfg : Config} (hcfg : cfg.validate = .ok ())
    (replicaScore : Bytes → Bytes → NodeID → Counter) {proposalID : List Range → Bytes}
    (hid : ∀ ranges, proposalID ranges ≠ []) :
    (∀ (s : Scheduler) (m : RangeMap) (candidates owners : List NodeID) (key : Bytes)
        (held : NodeID → Bool),
      s.cfg = cfg → s.replicaScore = replicaScore → s.proposalID = proposalID →
      m.validate = .ok () → m.Partitions →
      (∀ r ∈ m.ranges, (r.replicas.length : Int) = cfg.replicationFactor) →
      m.owners key = some owners → cfg.writeQuorum ≤ owners.countP held →
      ∃ owners', (s.tick m candidates).2.owners key = some owners' ∧
        ∃ node ∈ owners', held node = true) ↔
    2 ≤ cfg.writeQuorum ∨ cfg.replicationFactor = 1 := by
  have hplace := Config.placement_of_validate hcfg
  have hfactor := hplace.one_le_replicationFactor
  have hquorum := hplace.one_le_writeQuorum
  constructor
  · intro h
    by_contra hcond
    obtain ⟨n, hn⟩ := Int.eq_ofNat_of_zero_le (show 0 ≤ cfg.replicationFactor by omega)
    obtain ⟨hvalid, hpart⟩ := startMap_valid cfg.nodeID (show 1 ≤ n by omega)
    obtain ⟨owners, howners, hsub⟩ :=
      tick_splitter hplace (show 2 ≤ n by omega) hn replicaScore hid
    have hlengths : ∀ r ∈ (startMap cfg.nodeID n).ranges,
        (r.replicas.length : Int) = cfg.replicationFactor := by
      intro r hr
      rw [List.mem_singleton.mp hr, peers, List.length_map, List.length_range, hn]
    have hheld : 0 < (peers cfg.nodeID (List.range n)).countP (· = peer cfg.nodeID (n - 1)) :=
      List.countP_pos_iff.mpr ⟨peer cfg.nodeID (n - 1),
        mem_peers.mpr (List.mem_range.mpr (by omega)), decide_eq_true rfl⟩
    obtain ⟨owners', howners', node, hnode, hlast⟩ := h (splitter cfg replicaScore proposalID)
      (startMap cfg.nodeID n) (survivors cfg.nodeID n) (peers cfg.nodeID (List.range n)) []
      (· = peer cfg.nodeID (n - 1)) rfl rfl rfl hvalid hpart hlengths rfl (by omega)
    rw [howners, Option.some.injEq] at howners'
    rw [of_decide_eq_true hlast, ← howners'] at hnode
    have hmem := mem_peers.mp (hsub hnode)
    rw [List.mem_append, List.mem_range, List.mem_singleton] at hmem
    omega
  · rintro hcond s m candidates owners key held rfl - - hm hpart hlengths howners hheld
    rcases s.tick_spec hm hpart candidates with heq | hmoves
    · rw [heq]
      obtain ⟨node, hnode, hnode'⟩ := List.countP_pos_iff.mp
        (show 0 < owners.countP held by omega)
      exact ⟨owners, howners, node, hnode, hnode'⟩
    · exact exists_held_of_moves hmoves hfactor hlengths howners (by omega)

/-- A scheduler that has settled on every range and finds it full. -/
def sampleScheduler (writeQuorum : Int) : Scheduler where
  cfg := sampleConfig writeQuorum
  replicaScore _ _ _ := 0
  proposalID _ := [112]
  estimate _ _ := some 256
  boundary _ _ := some [109]
  settled _ := 1

theorem tick_keeps_holder_iff_twoAcks :
    ∃ owners', ((sampleScheduler 2).tick sampleMap [[97], [98], [100]]).2.owners [107] =
      some owners' ∧ ∃ node ∈ owners', (node == [98] || node == [99]) = true := by
  have hcfg : (sampleConfig 2).validate = .ok () := rfl
  have hid : ∀ ranges, (sampleScheduler 2).proposalID ranges ≠ [] := fun _ => List.cons_ne_nil _ _
  exact (tick_keeps_holder_iff hcfg (sampleScheduler 2).replicaScore hid).mpr (.inl (by decide))
    (sampleScheduler 2) sampleMap [[97], [98], [100]] [[97], [98], [99]] [107]
    (fun node => node == [98] || node == [99]) rfl rfl rfl (by decide)
    (partitions_of_tiles (.last rfl rfl)) (by decide) rfl (by decide)

/-- With one acknowledgement the holder can be the replica that is dropped. -/
theorem tick_drops_holder :
    (sampleConfig 1).validate = .ok () ∧ sampleMap.validate = .ok () ∧
    sampleMap.owners [107] = some [[97], [98], [99]] ∧
    ((sampleScheduler 1).tick sampleMap [[97], [98], [100]]).2.owners [107] =
      some [[97], [98], [100]] :=
  ⟨rfl, by decide, rfl, by decide +kernel⟩

end Scheduler
end ChudDB.Cluster
