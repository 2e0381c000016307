import ChudDB.Cluster.RangeMapMerge
import ChudDB.Cluster.Replica
import ChudDB.Cluster.RepairWalk

/-! # Repair across the replicas

The repair schedulers of a cluster (`tick` in `scheduler.go`): a node takes a range that it owns,
picks another replica of it, and runs a round with it. The nodes hold the same range map, and their
rounds come in any order, one after another. Any call of a round may fail; its walk then leaves out
some of the buckets, and some of the rows of a leaf.

Whatever rounds are run, no replica goes back and nothing is made up (`rounds_keep`), and a version
that supersedes all others of its key reaches every replica that successful rounds connect with one
that holds it (`newest_spreads`). -/

namespace ChudDB.Cluster
open Lib

/-! ## A round that may fail -/

/-- A side that holds `a` where the other one holds `b` keeps it, or takes the newer of the two. -/
def Moved (a b a' : Option Envelope) : Prop := a' = a ∨ a' = settle a b

/-- Settling again changes nothing. -/
theorem Moved.trans (ha : Moved a b a') (hb : Moved b a b') (h : Moved a' b' a'') :
    Moved a b a'' := by
  have hself : ∀ c, settle c c = c := fun c => settle_of_not_older not_older_self
  rcases h with rfl | rfl
  · exact ha
  by_cases holder : Older a b
  · have hb' : b' = b := by rwa [Moved, settle_of_not_older holder.asymm, or_self] at hb
    rw [hb', Moved, settle_of_older holder]
    rcases ha with rfl | ha'
    · exact .inr (settle_of_older holder)
    · rw [ha', settle_of_older holder, hself]
      exact .inr rfl
  · have ha' : a' = a := by rwa [Moved, settle_of_not_older holder, or_self] at ha
    rw [ha']
    rcases hb with rfl | rfl
    · exact .inr rfl
    · by_cases holder' : Older b a
      · rw [settle_of_older holder', hself]
        exact .inl rfl
      · rw [settle_of_not_older holder']
        exact .inr rfl

def MovedAll (st st' : Stores) : Prop := ∀ key,
  Moved (st.own.get key) (st.peer.get key) (st'.own.get key) ∧
    Moved (st.peer.get key) (st.own.get key) (st'.peer.get key)

theorem MovedAll.refl (st : Stores) : MovedAll st st := fun _ => ⟨.inl rfl, .inl rfl⟩

theorem MovedAll.trans (h : MovedAll st st') (h' : MovedAll st' st'') :
    MovedAll st st'' := fun key =>
  ⟨(h key).1.trans (h key).2 (h' key).1, (h key).2.trans (h key).1 (h' key).2⟩

theorem MovedAll.written (h : MovedAll st st') (hst : st.Written) : st'.Written := by
  have hside : ∀ {P : Envelope → Prop} {a b a' : Option Envelope}, Moved a b a' →
      (∀ e, a = some e → P e) → (∀ e, b = some e → P e) → ∀ e, a' = some e → P e := by
    intro P a b a' hmoved ha hb e he
    rcases hmoved with rfl | rfl
    · exact ha e he
    · rcases settle_eq_or a b with heq | heq <;> rw [heq] at he
      · exact ha e he
      · exact hb e he
  exact ⟨fun key => hside (h key).1 (hst.own key) (hst.peer key),
    fun key => hside (h key).2 (hst.peer key) (hst.own key)⟩

theorem moved_setAll {rows : List KeyEnvelope} {s s' : NodeStore} {key : Bytes}
    (h : ∀ e, (key, e) ∈ rows → s'.get key = some e ∧ Older (s.get key) (s'.get key)) :
    Moved (s.get key) (s'.get key) ((s.setAll rows).get key) := by
  by_cases hmem : ∃ e, (key, e) ∈ rows
  · obtain ⟨e, he⟩ := hmem
    obtain ⟨hget, holder⟩ := h e he
    rw [NodeStore.get_setAll_of_mem he fun e' he' => Option.some.inj ((h e' he').1.symm.trans hget)]
    exact .inr ((settle_of_older holder).trans hget).symm
  · exact .inl (NodeStore.get_setAll_of_not_mem fun e he => hmem ⟨e, he⟩)

namespace RepairScheduler
variable {c : RepairScheduler} {st : Stores} {start end_ : Bytes}

/-- Rows that the node does not own are passed over. -/
theorem applyPulls_eq_filter {rows : List KeyEnvelope} {s : NodeStore}
    (hrows : ∀ row ∈ rows, row.2.Sendable) :
    c.applyPulls rows s = (none, s.setAll (rows.filter fun row => c.isOwner c.nodeID row.1)) := by
  induction rows generalizing s with
  | nil => rfl
  | cons row rows ih =>
    have ih' := fun s => @ih s fun row hrow => hrows row (List.mem_cons_of_mem _ hrow)
    rw [applyPulls, NodeStore.applyPull, List.filter_cons]
    cases c.isOwner c.nodeID row.1 with
    | false => exact ih' s
    | true =>
      rw [Bool.not_true, if_neg Bool.false_ne_true, if_pos rfl,
        NodeStore.repair_of_stored (hrows row List.mem_cons_self).stored]
      exact ih' _

theorem diffLeafOver_moves (replicas : ReplicaClient) (hvalid : c.rangeMap.validate = .ok ())
    (hst : st.Written) : MovedAll st (c.diffLeafOver replicas start end_ st).2 := by
  by_cases hcall : (c.ownsRange c.peerID start end_ &&
      replicas.streamRange start end_ (st.peer.scanRawRange start end_)) = true
  · obtain ⟨hpeer, hsent⟩ := Bool.and_eq_true_iff.mp hcall
    have hpushed : ∀ key, Moved (st.peer.get key) (st.own.get key)
        ((c.pushRepairs replicas (leafDiff start end_ st).toPush st.peer).2.get key) := by
      intro key
      rcases pushRepairs_leafDiff replicas hvalid hpeer hst with ⟨-, heq⟩ | ⟨-, applied, heq⟩
      · rw [heq]
        exact moved_setAll fun e he => (mem_toPush_iff.mp he).2
      · rw [heq]
        exact moved_setAll fun e he => (mem_toPush_iff.mp (List.mem_of_mem_take he)).2
    rw [diffLeafOver_eq hpeer hsent hst, applyPulls_eq_filter fun row hrow =>
      hst.peer _ _ (mem_toPull_iff.mp hrow).2.1]
    exact fun key => ⟨moved_setAll fun e he => (mem_toPull_iff.mp (List.mem_filter.mp he).1).2,
      hpushed key⟩
  · rw [diffLeafOver, Bool.eq_false_iff.mpr hcall]
    exact MovedAll.refl st

theorem compareRoots_moves {replicas : ReplicaClient} {mismatch : Nat → Option RepairError × Stores}
    (h : ∀ n, MovedAll st (mismatch n).2) :
    MovedAll st (c.compareRoots replicas start end_ st mismatch).2 := by
  rw [compareRoots]
  split
  · exact MovedAll.refl st
  · dsimp only
    split
    · exact MovedAll.refl st
    · exact h _

theorem diffBuckets_moves {diff : Bytes → Bytes → Stores → Option RepairError × Stores}
    (h : ∀ start end_ st, st.Written → MovedAll st (diff start end_ st).2) (buckets : List Bucket)
    (hst : st.Written) : MovedAll st (diffBuckets diff buckets st).2 := by
  induction buckets generalizing st with
  | nil => exact MovedAll.refl st
  | cons b buckets ih =>
    have hfirst := h b.start b.end_ st hst
    exact hfirst.trans (ih (hfirst.written hst))

/-- Whatever the walk meets, a side keeps what it holds or takes the newer version. -/
theorem diffNode_moves (replicas : ReplicaClient) (hvalid : c.rangeMap.validate = .ok ())
    (levels : Nat) (hst : st.Written) :
    MovedAll st (c.diffNode replicas levels start end_ st).2 := by
  induction levels generalizing start end_ st with
  | zero => exact compareRoots_moves fun _ => diffLeafOver_moves replicas hvalid hst
  | succ levels ih =>
    refine compareRoots_moves fun n => ?_
    split
    · exact diffLeafOver_moves replicas hvalid hst
    · split
      · exact MovedAll.refl st
      · split
        · exact diffLeafOver_moves replicas hvalid hst
        · exact diffBuckets_moves (fun start end_ st hst => ih hst) _ hst

end RepairScheduler

/-! ## The cluster -/

/-- The range map of the cluster and the configuration of its schedulers. -/
structure RepairCluster where
  rangeMap : RangeMap
  fanout : Int
  leafItemThreshold : Nat
  maxDepth : Nat
  json : Json
  digest : Bytes → Bytes
  valid : rangeMap.validate = .ok ()
  tiles : Tiles Range.start Range.end_ [] rangeMap.ranges
  fanout_ge : 2 ≤ fanout
  roundTrips : json.RoundTrips

/-- A round that `tick` of a node runs: the range, what `random` returns, and which calls to the peer
go through. -/
structure Round where
  node : NodeID
  range : Range
  random : Nat
  replicas : ReplicaClient

/-- `pickPeer`. -/
def Round.pickPeer (x : Round) : Option NodeID :=
  (x.range.replicas.filter (· ≠ x.node))[x.random]?

namespace RepairCluster
variable (c : RepairCluster)

def scheduler (nodeID peerID : NodeID) : RepairScheduler :=
  ⟨c.rangeMap, nodeID, peerID, c.fanout, c.leafItemThreshold, c.maxDepth, c.json, c.digest⟩

/-- A round of `tick` whose peer has an address, with the error that `RepairRange` returns. -/
def round (s : NodeID → NodeStore) (x : Round) :
    Option (Option RepairError × (NodeID → NodeStore)) :=
  if x.range ∈ c.rangeMap.ranges ∧ x.node ∈ x.range.replicas then
    x.pickPeer.map fun peer =>
      let (err, st) :=
        (c.scheduler x.node peer).repairRange x.replicas x.range.start x.range.end_
          ⟨s x.node, s peer⟩
      (err, Function.update (Function.update s x.node st.own) peer st.peer)
  else none

def step : System (NodeID → NodeStore) Round := fun s x => (c.round s x).map Prod.snd

/-- The nodes that a version of the key has reached from the given ones: a successful round over the
key brings it from one side to the other. -/
def informed (key : Bytes) : (NodeID → NodeStore) → List NodeID → List Round → List NodeID
  | _, nodes, [] => nodes
  | s, nodes, x :: xs =>
    match c.round s x with
    | none => nodes
    | some (err, s') =>
      let pair := x.node :: x.pickPeer.toList
      informed key s' (if err = none ∧ Scanned x.range.start x.range.end_ key ∧ ∃ n ∈ pair, n ∈ nodes
        then pair ++ nodes else nodes) xs

/-- What the stores hold has been written by the services, in strings that are valid UTF-8 and of
representable length. -/
def Stored (s : NodeID → NodeStore) : Prop := ∀ n key e, (s n).get key = some e →
  e.Sendable ∧ e.Text ∧ key.length < 2 ^ 64 ∧ (magicPrefix ++ c.json.marshal e).length < 2 ^ 64

/-- The digests of two nodes over a range are equal for equal rows only. -/
def NoCollision (s : NodeID → NodeStore) (_ : Round) : Prop := ∀ n m start end_,
  c.digest (merkleStream ((c.scheduler n m).rawEntries ((s n).scanRawRange start end_))) =
    c.digest (merkleStream ((c.scheduler n m).rawEntries ((s m).scanRawRange start end_))) →
  merkleStream ((c.scheduler n m).rawEntries ((s n).scanRawRange start end_)) =
    merkleStream ((c.scheduler n m).rawEntries ((s m).scanRawRange start end_))

variable {c} {s s' : NodeID → NodeStore} {x : Round} {xs : List Round} {n : NodeID} {key : Bytes}
  {e : Envelope} {top : NodeID → Counter}

theorem round_cases (h : c.round s x = some (err, s')) : ∃ peer st,
    x.range ∈ c.rangeMap.ranges ∧ x.node ∈ x.range.replicas ∧ x.pickPeer = some peer ∧
    peer ∈ x.range.replicas ∧
    (c.scheduler x.node peer).repairRange x.replicas x.range.start x.range.end_
      ⟨s x.node, s peer⟩ = (err, st) ∧
    s' x.node = st.own ∧ s' peer = st.peer ∧ ∀ n, n ≠ x.node → n ≠ peer → s' n = s n := by
  rw [round] at h
  split at h
  · rename_i hrange
    obtain ⟨peer, hpick, hround⟩ := Option.map_eq_some_iff.mp h
    obtain ⟨hmem, hne⟩ := List.mem_filter.mp (List.mem_of_getElem? hpick)
    have hne : peer ≠ x.node := of_decide_eq_true hne
    cases hround
    refine ⟨peer, _, hrange.1, hrange.2, hpick, hmem, rfl, ?_, Function.update_self .., ?_⟩
    · rw [Function.update_of_ne hne.symm, Function.update_self]
    · intro n hnode hpeer
      rw [Function.update_of_ne hpeer, Function.update_of_ne hnode]
  · cases h

theorem Stored.written (h : c.Stored s) (m : NodeID) : Stores.Written ⟨s n, s m⟩ :=
  ⟨fun key e he => (h n key e he).1, fun key e he => (h m key e he).1⟩

/-- A node keeps what it holds, or takes the newer version of another one. -/
theorem moved_step (hs : c.Stored s) (h : c.round s x = some (err, s')) (n : NodeID) (key : Bytes) :
    ∃ m, Moved ((s n).get key) ((s m).get key) ((s' n).get key) := by
  obtain ⟨peer, st, -, -, -, -, hround, hown, hpeer, hother⟩ := round_cases h
  have hmoves : MovedAll ⟨s x.node, s peer⟩ ((c.scheduler x.node peer).repairRange x.replicas
      x.range.start x.range.end_ ⟨s x.node, s peer⟩).2 :=
    RepairScheduler.diffNode_moves x.replicas c.valid c.maxDepth (hs.written peer)
  rw [hround] at hmoves
  by_cases hn : n = x.node
  · subst hn
    exact ⟨peer, hown ▸ (hmoves key).1⟩
  · by_cases hp : n = peer
    · subst hp
      exact ⟨x.node, hpeer ▸ (hmoves key).2⟩
    · exact ⟨n, .inl (by rw [hother n hn hp])⟩

theorem origin_step (hs : c.Stored s) (h : c.round s x = some (err, s'))
    (he : (s' n).get key = some e) : ∃ m, (s m).get key = some e := by
  obtain ⟨m, hmoved | hmoved⟩ := moved_step hs h n key
  · exact ⟨n, hmoved ▸ he⟩
  · rcases settle_eq_or ((s n).get key) ((s m).get key) with heq | heq
    · exact ⟨n, by rw [← heq, ← hmoved, he]⟩
    · exact ⟨m, by rw [← heq, ← hmoved, he]⟩

theorem Stored.step (hs : c.Stored s) (h : c.round s x = some (err, s')) : c.Stored s' := by
  intro n key e he
  obtain ⟨m, hm⟩ := origin_step hs h he
  exact hs m key e hm

theorem advances_step (hs : c.Stored s) (h : c.round s x = some (err, s')) (n : NodeID) :
    Replica.Advances (s n) (s' n) := by
  intro key e he
  obtain ⟨m, hmoved | hmoved⟩ := moved_step hs h n key
  · exact ⟨e, hmoved.trans he, le_rfl⟩
  · by_cases holder : Older ((s n).get key) ((s m).get key)
    · rw [settle_of_older holder] at hmoved
      obtain ⟨e', he', hbefore⟩ := holder
      exact ⟨e', hmoved.trans he', (VectorClock.compare_eq_before_iff.mp (hbefore e he)).le⟩
    · exact ⟨e, (hmoved.trans (settle_of_not_older holder)).trans he, le_rfl⟩

theorem step_eq_some (h : c.step s x = some s') : ∃ err, c.round s x = some (err, s') := by
  obtain ⟨⟨err, t⟩, hround, rfl⟩ := Option.map_eq_some_iff.mp h
  exact ⟨err, hround⟩

/-- After any rounds, failed ones among them, every node holds what it held before or a newer
version of it, and nothing that was not held by a node before. -/
theorem rounds_keep (hs : c.Stored s) (h : c.step.run s xs = some s') (n : NodeID) :
    Replica.Advances (s n) (s' n) ∧
      ∀ key e, (s' n).get key = some e → ∃ m, (s m).get key = some e := by
  refine (System.run_invariant (I := fun _ s' => c.Stored s' ∧ ∀ n, Replica.Advances (s n) (s' n) ∧
    ∀ key e, (s' n).get key = some e → ∃ m, (s m).get key = some e) ?_ ?_ h).2 n
  · exact ⟨hs, fun n => ⟨.refl _, fun key e he => ⟨n, he⟩⟩⟩
  · rintro xs t x t' ⟨ht, hI⟩ hstep
    obtain ⟨err, hround⟩ := step_eq_some hstep
    refine ⟨ht.step hround, fun n =>
      ⟨(hI n).1.trans (advances_step ht hround n), fun key e he => ?_⟩⟩
    obtain ⟨m, hm⟩ := origin_step ht hround he
    exact (hI m).2 key e hm

/-- Three replicas of one range. -/
noncomputable def threeReplicas : RepairCluster where
  rangeMap := ⟨[⟨[], [], [[97], [98], [99]], 1, [112]⟩]⟩
  fanout := 4
  leafItemThreshold := 1
  maxDepth := 8
  json := sampleJson
  digest := id
  valid := by decide
  tiles := .last rfl rfl
  fanout_ge := by decide
  roundTrips := sampleJson_roundTrips

/-- One of them holds a key. -/
def oneHolder : NodeID → NodeStore := fun n =>
  if n = [97] then (RepairScheduler.missing [[107]]).peer else .empty

theorem stored_oneHolder : threeReplicas.Stored oneHolder := by
  intro n key e he
  rw [oneHolder] at he
  split at he
  · exact ⟨(RepairScheduler.written_missing [[107]] (by decide +kernel)).peer key e he,
      (RepairScheduler.hashes_missing (c := threeReplicas.scheduler [97] [98]) rfl rfl [[107]]
        (by decide +kernel)).peer key e he⟩
  · cases he

/-- The holder repairs with the second replica, at first with a push that breaks off, and the third
one with the second. -/
def relay : List Round :=
  [⟨[97], ⟨[], [], [[97], [98], [99]], 1, [112]⟩, 0, { ReplicaClient.grpc with
      repairKeys := fun _ => some 0 }⟩,
    ⟨[97], ⟨[], [], [[97], [98], [99]], 1, [112]⟩, 0, .grpc⟩,
    ⟨[99], ⟨[], [], [[97], [98], [99]], 1, [112]⟩, 1, .grpc⟩]

theorem rounds_keep_relay : ∃ s ∈ threeReplicas.step.run oneHolder relay,
    ((s [97]).get [107]).isSome ∧ ∀ e, (s [99]).get [107] = some e →
      ∃ m, (oneHolder m).get [107] = some e := by
  have hsome : (threeReplicas.step.run oneHolder relay).isSome := by decide +kernel
  obtain ⟨s, hs⟩ := Option.isSome_iff_exists.mp hsome
  obtain ⟨e, he, -⟩ := (rounds_keep stored_oneHolder hs [97]).1 [107] onePut (by decide +kernel)
  exact ⟨s, hs, he ▸ rfl, (rounds_keep stored_oneHolder hs [99]).2 [107]⟩

/-! ## A version that supersedes the others -/

/-- The node holds a version with this clock. -/
def Has (top : NodeID → Counter) (a : Option Envelope) : Prop :=
  ∃ e, a = some e ∧ e.vectorClock.get = top

theorem has_settle {a b : Option Envelope} (ha : ∀ e, a = some e → e.vectorClock.get ≤ top)
    (hb : ∀ e, b = some e → e.vectorClock.get ≤ top) (h : Has top a ∨ Has top b) :
    Has top (settle a b) := by
  by_cases holder : Older a b
  · rw [settle_of_older holder]
    refine h.resolve_left ?_
    rintro ⟨e, rfl, rfl⟩
    obtain ⟨e', he', hbefore⟩ := holder
    exact (VectorClock.compare_eq_before_iff.mp (hbefore e rfl)).not_ge (hb e' he')
  · rw [settle_of_not_older holder]
    rcases h with h | ⟨e, rfl, rfl⟩
    · exact h
    · cases a with
      | none => exact absurd older_none holder
      | some e' =>
        rw [older_some, VectorClock.compare_eq_before_iff] at holder
        exact ⟨e', rfl, eq_of_le_of_not_lt (ha e' rfl) holder⟩

theorem repairs_of_round (hs : c.Stored s) (hcollision : c.NoCollision s x)
    (h : c.round s x = some (none, s')) : ∃ peer, x.pickPeer = some peer ∧
      Repairs x.range.start x.range.end_ ⟨s x.node, s peer⟩ ⟨s' x.node, s' peer⟩ := by
  obtain ⟨peer, st, hrange, hnode, hpick, hpeer, hround, hown, hpeer', -⟩ := round_cases h
  have hsound := (RangeMap.validate_eq_ok_iff.mp c.valid).sound hrange
  have hat : c.rangeMap.rangeAt x.range.start = some x.range :=
    (RangeMap.rangeAt_eq_some_iff c.tiles).mpr
      ⟨hrange, le_rfl, or_iff_not_imp_left.mpr fun hend => hsound.lt hend⟩
  have hhash : (c.scheduler x.node peer).Hashes ⟨s x.node, s peer⟩ :=
    ⟨fun key e he => (hs _ key e he).2, fun key e he => (hs _ key e he).2, hcollision x.node peer⟩
  have hwalk := @RepairScheduler.diffNode_spec (c.scheduler x.node peer) x.replicas _ _ _ _
    c.maxDepth _ c.valid hat hnode hpeer c.roundTrips hhash c.fanout_ge
    ⟨le_rfl, hsound.lt, fun hend => ⟨hend, le_rfl⟩⟩ (Agree.refl _) (hs.written peer)
  have hdone : Repairs x.range.start x.range.end_ ⟨s x.node, s peer⟩ ((c.scheduler x.node
      peer).repairRange x.replicas x.range.start x.range.end_ ⟨s x.node, s peer⟩).2 :=
    hwalk.repairs (hwalk.none_iff.mp (congrArg Prod.fst hround))
  rw [hround] at hdone
  refine ⟨peer, hpick, ?_⟩
  rw [hown, hpeer']
  exact hdone

/-- A version that no other one of its key is ahead of reaches every node that successful rounds
connect with one that holds it. -/
theorem newest_spreads {nodes : List NodeID} (hs : c.Stored s)
    (hcollision : c.step.Guarded c.NoCollision s xs) (h : c.step.run s xs = some s')
    (htop : ∀ n e, (s n).get key = some e → e.vectorClock.get ≤ top)
    (hnodes : ∀ n ∈ nodes, ∃ e, (s n).get key = some e ∧ e.vectorClock.get = top)
    (hn : n ∈ c.informed key s nodes xs) :
    ∃ e, (s' n).get key = some e ∧ e.vectorClock.get = top := by
  induction xs generalizing s nodes with
  | nil =>
    cases h
    exact hnodes n hn
  | cons x xs ih =>
    obtain ⟨t, hstep, hrest⟩ := System.run_cons_eq_some.mp h
    obtain ⟨err, hround⟩ := step_eq_some hstep
    have htop' : ∀ n e, (t n).get key = some e → e.vectorClock.get ≤ top := fun n e he => by
      obtain ⟨m, hm⟩ := origin_step hs hround he
      exact htop m e hm
    have hkeep : ∀ n ∈ nodes, Has top ((t n).get key) := fun n hn => by
      obtain ⟨e, he, rfl⟩ := hnodes n hn
      obtain ⟨e', he', hle⟩ := advances_step hs hround n key e he
      exact ⟨e', he', le_antisymm (htop' n e' he') hle⟩
    rw [informed, hround] at hn
    refine ih (hs.step hround) (hcollision.2 t hstep) hrest htop' ?_ hn
    split
    · rename_i hreach
      obtain ⟨rfl, hkey, hinformed⟩ := hreach
      obtain ⟨peer, hpick, hrepairs⟩ := repairs_of_round hs hcollision.1 hround
      have hone : Has top ((s x.node).get key) ∨ Has top ((s peer).get key) := by
        obtain ⟨m, hm, hmem⟩ := hinformed
        rw [hpick, Option.toList_some, List.mem_pair] at hm
        rcases hm with rfl | rfl
        · exact .inl (hnodes _ hmem)
        · exact .inr (hnodes _ hmem)
      intro n hn
      rw [hpick, Option.toList_some, List.mem_append, List.mem_pair] at hn
      rcases hn with (rfl | rfl) | hn
      · rw [hrepairs.own, if_pos hkey]
        exact has_settle (htop _) (htop _) hone
      · rw [hrepairs.peer, if_pos hkey]
        exact has_settle (htop _) (htop _) hone.symm
      · exact hkeep n hn
    · exact hkeep

theorem newest_spreads_relay : ∃ s ∈ threeReplicas.step.run oneHolder relay,
    ∃ e, (s [99]).get [107] = some e ∧ e.vectorClock.get = onePut.vectorClock.get := by
  have hsome : (threeReplicas.step.run oneHolder relay).isSome := by decide +kernel
  obtain ⟨s, hs⟩ := Option.isSome_iff_exists.mp hsome
  have honly : ∀ n e, (oneHolder n).get [107] = some e → e = onePut := by
    intro n e he
    rw [oneHolder] at he
    split at he
    · exact (Option.some.inj he).symm
    · cases he
  have hreached : [99] ∈ threeReplicas.informed [107] oneHolder [[97]] relay := by decide +kernel
  refine ⟨s, hs, newest_spreads stored_oneHolder ?_ hs (fun n e he => honly n e he ▸ le_rfl) ?_
    hreached⟩
  · exact ⟨fun _ _ _ _ h => h, fun _ _ => ⟨fun _ _ _ _ h => h, fun _ _ =>
      ⟨fun _ _ _ _ h => h, fun _ _ => trivial⟩⟩⟩
  · exact fun n hn => ⟨onePut, List.mem_singleton.mp hn ▸ by decide +kernel, rfl⟩

end RepairCluster
end ChudDB.Cluster
