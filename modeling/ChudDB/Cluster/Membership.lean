import ChudDB.Lib.Run
import ChudDB.Cluster.VectorClock

/-! # The membership table

`Table` (`table.go`, `member.go`): the records of the nodes of the cluster as one node knows them. A
record about another node is merged by its incarnation, then by its status, and its range-map epoch
separately, so the order of arrival does not matter (`mergeAll_order_independent`). A node answers
an accusation of itself with a higher incarnation, which wraps around at the largest one
(`local_outlives_accusations`, `accusation_at_max_wraps`). -/

namespace ChudDB.Cluster
open Lib

inductive Status where
  | unknown
  | alive
  | suspect
  | dead
deriving DecidableEq, Repr

/-- `Status.rank`. -/
def Status.rank : Status → Int
  | dead => 2
  | suspect => 1
  | alive => 0
  | unknown => -1

theorem Status.rank_injective : Function.Injective Status.rank := by
  intro a b h
  cases a <;> cases b <;> first | rfl | cases h

instance : LinearOrder Status := LinearOrder.lift' Status.rank Status.rank_injective

/-- `Member`; no `lastSeen` is the zero time. -/
structure Member where
  nodeID : NodeID
  clusterID : Bytes
  advertiseAddr : Bytes
  status : Status
  incarnation : Counter
  lastSeen : Option Int
  membershipEpoch : Counter
  rangeMapEpoch : Counter
deriving DecidableEq, Repr

/-- `supersedes`. -/
def supersedes (incoming current : Member) : Bool :=
  if incoming.incarnation ≠ current.incarnation then incoming.incarnation > current.incarnation
  else incoming.status.rank > current.status.rank

/-- What the precedence of records compares. -/
def Member.standing (m : Member) : Counter ×ₗ Status := toLex (m.incarnation, m.status)

theorem supersedes_iff {incoming current : Member} :
    supersedes incoming current = true ↔ current.standing < incoming.standing := by
  have hstatus : incoming.status.rank > current.status.rank ↔ current.status < incoming.status :=
    Iff.rfl
  rw [supersedes, Member.standing, Member.standing, Prod.Lex.toLex_lt_toLex, ← hstatus]
  dsimp only
  split
  · rename_i hne
    rw [decide_eq_true_iff]
    exact ⟨.inl, fun h => h.resolve_right fun heq => hne heq.1.symm⟩
  · rename_i heq
    have heq := (not_ne_iff.mp heq).symm
    rw [decide_eq_true_iff]
    exact ⟨fun h => .inr ⟨heq, h⟩, fun h => h.elim (fun hlt => absurd heq hlt.ne) And.right⟩

/-- `Table`; a record is kept under its own node ID, and there is one of the local node. -/
structure Table where
  clusterID : Bytes
  localID : NodeID
  members : NodeID → Option Member
  epoch : Counter
  keyed : ∀ id m, members id = some m → m.nodeID = id
  hasLocal : (members localID).isSome

/-- The operations on a table, each with the time; an upsert is one of another node's record. -/
inductive TableOp where
  | merge (now : Int) (record : Member)
  | markSuspect (now : Int) (nodeID : NodeID) (incarnation : Counter)
  | markDead (now : Int) (nodeID : NodeID) (incarnation : Counter)
  | refuteLocalSuspect (now : Int)
  | setLocalRangeMapEpoch (now : Int) (epoch : Counter)
  | upsert (now : Int) (record : Member)

/-- What `setLocked` fills in. -/
def Member.stamp (m : Member) (now : Int) (epoch : Counter) : Member :=
  { m with lastSeen := m.lastSeen.or (some now), membershipEpoch := epoch }

namespace Table
variable {t t' : Table} {id : NodeID} {m r : Member} {now : Int}

/-- `setLocked`. -/
def setLocked (t : Table) (now : Int) (m : Member) : Table where
  clusterID := t.clusterID
  localID := t.localID
  members := Function.update t.members m.nodeID (some (m.stamp now (t.epoch + 1)))
  epoch := t.epoch + 1
  keyed id m' h := by
    by_cases hid : id = m.nodeID
    · rw [hid, Function.update_self] at h
      rw [← Option.some.inj h, hid]
      rfl
    · rw [Function.update_of_ne hid] at h
      exact t.keyed id m' h
  hasLocal := by
    by_cases hid : t.localID = m.nodeID
    · rw [hid, Function.update_self]
      rfl
    · rw [Function.update_of_ne hid]
      exact t.hasLocal

/-- The record that `NewTable` puts into the table. -/
def selfRecord (clusterID : Bytes) (now : Int) (self : Member) : Member :=
  Member.stamp { self with
    status := if self.status = .unknown then .alive else self.status
    clusterID := clusterID } now 1

/-- `NewTable`. -/
def newTable (clusterID : Bytes) (now : Int) (self : Member) : Table where
  clusterID := clusterID
  localID := self.nodeID
  members := Function.update (fun _ => none) self.nodeID (some (selfRecord clusterID now self))
  epoch := 1
  keyed id m h := by
    by_cases hid : id = self.nodeID
    · rw [hid, Function.update_self] at h
      rw [← Option.some.inj h, hid]
      rfl
    · rw [Function.update_of_ne hid] at h
      cases h
  hasLocal := by
    rw [Function.update_self]
    rfl

/-- `Table.Local`. -/
def localMember (t : Table) : Member := (t.members t.localID).get t.hasLocal

/-- A record of another cluster is rejected. -/
def Foreign (t : Table) (m : Member) : Prop := m.clusterID ≠ [] ∧ m.clusterID ≠ t.clusterID

instance : Decidable (t.Foreign m) := inferInstanceAs (Decidable (_ ∧ _))

/-- `Table.Upsert`. -/
def upsert (t : Table) (now : Int) (m : Member) : Table × Bool :=
  if t.Foreign m then (t, false)
  else (t.setLocked now { m with clusterID := t.clusterID }, true)

/-- `refuteLocked`. -/
def refuteLocked (t : Table) (now : Int) (accusation : Member) : Table × Bool :=
  if accusation.status ≠ .suspect ∧ accusation.status ≠ .dead then (t, false)
  else if accusation.incarnation < t.localMember.incarnation then (t, false)
  else
    (t.setLocked now { t.localMember with
      incarnation := accusation.incarnation + 1
      status := .alive }, true)

/-- `Table.Merge`. -/
def merge (t : Table) (now : Int) (incoming : Member) : Table × Bool :=
  if t.Foreign incoming then (t, false)
  else
    let incoming := { incoming with clusterID := t.clusterID }
    if incoming.nodeID = t.localID then t.refuteLocked now incoming
    else match t.members incoming.nodeID with
      | none => (t.setLocked now incoming, true)
      | some current =>
        if supersedes incoming current then
          (t.setLocked now { incoming with
            rangeMapEpoch :=
              if current.rangeMapEpoch > incoming.rangeMapEpoch then current.rangeMapEpoch
              else incoming.rangeMapEpoch }, true)
        else if incoming.rangeMapEpoch > current.rangeMapEpoch then
          (t.setLocked now { current with rangeMapEpoch := incoming.rangeMapEpoch }, true)
        else (t, false)

/-- The two local transitions of another node's status, at the incarnation that the caller saw. -/
def mark (t : Table) (now : Int) (nodeID : NodeID) (incarnation : Counter) (old new : Status) :
    Table × Bool :=
  if nodeID = t.localID then (t, false)
  else match t.members nodeID with
    | none => (t, false)
    | some current =>
      if current.incarnation ≠ incarnation ∨ current.status ≠ old then (t, false)
      else (t.setLocked now { current with status := new }, true)

/-- `Table.MarkSuspect`. -/
def markSuspect (t : Table) (now : Int) (nodeID : NodeID) (incarnation : Counter) : Table × Bool :=
  t.mark now nodeID incarnation .alive .suspect

/-- `Table.MarkDead`. -/
def markDead (t : Table) (now : Int) (nodeID : NodeID) (incarnation : Counter) : Table × Bool :=
  t.mark now nodeID incarnation .suspect .dead

/-- `Table.RefuteLocalSuspect`. -/
def refuteLocalSuspect (t : Table) (now : Int) : Table :=
  t.setLocked now { t.localMember with
    incarnation := t.localMember.incarnation + 1
    status := .alive }

/-- `Table.SetLocalRangeMapEpoch`. -/
def setLocalRangeMapEpoch (t : Table) (now : Int) (epoch : Counter) : Table :=
  t.setLocked now { t.localMember with rangeMapEpoch := epoch }

/-! ## Reading the table back -/

theorem members_setLocked : (t.setLocked now m).members id =
    if id = m.nodeID then some (m.stamp now (t.epoch + 1)) else t.members id := by
  change Function.update _ _ _ id = _
  rw [Function.update_apply]

theorem members_localID (t : Table) : t.members t.localID = some t.localMember :=
  (Option.some_get t.hasLocal).symm

theorem localMember_nodeID (t : Table) : t.localMember.nodeID = t.localID :=
  t.keyed _ _ t.members_localID

theorem localMember_eq (hid : t'.localID = t.localID) (h : t'.members t.localID = some m) :
    t'.localMember = m := by
  have hlocal := t'.members_localID
  rw [hid, h] at hlocal
  exact (Option.some.inj hlocal).symm

theorem localMember_setLocked (hid : m.nodeID = t.localID) :
    (t.setLocked now m).localMember = m.stamp now (t.epoch + 1) :=
  localMember_eq (t := t) rfl (by rw [members_setLocked, if_pos hid.symm])

theorem localMember_newTable {clusterID : Bytes} :
    (newTable clusterID now m).localMember = selfRecord clusterID now m := by
  have hself : Function.update (fun _ => none) m.nodeID (some (selfRecord clusterID now m)) m.nodeID =
      some (selfRecord clusterID now m) := Function.update_self ..
  exact localMember_eq (t := newTable clusterID now m) rfl hself

/-- An operation changes at most the record of one node, and never whose table it is. -/
structure Sets (t : Table) (id : NodeID) (t' : Table) : Prop where
  clusterID : t'.clusterID = t.clusterID
  localID : t'.localID = t.localID
  frame : ∀ id', id' ≠ id → t'.members id' = t.members id'

theorem Sets.refl : Sets t id t := ⟨rfl, rfl, fun _ _ => rfl⟩

theorem Sets.localMember_eq (h : Sets t id t') (hid : id ≠ t.localID) :
    t'.localMember = t.localMember :=
  Table.localMember_eq h.localID ((h.frame t.localID hid.symm).trans t.members_localID)

theorem sets_setLocked (hid : m.nodeID = id) : Sets t id (t.setLocked now m) := by
  refine ⟨rfl, rfl, fun id' hne => ?_⟩
  rw [members_setLocked, if_neg (hid ▸ hne)]

theorem sets_upsert (t : Table) (now : Int) (m : Member) : Sets t m.nodeID (t.upsert now m).1 := by
  rw [upsert]
  split
  · exact .refl
  · exact sets_setLocked rfl

theorem sets_refuteLocked (t : Table) (now : Int) (r : Member) :
    Sets t t.localID (t.refuteLocked now r).1 := by
  rw [refuteLocked]
  split
  · exact .refl
  split
  · exact .refl
  · exact sets_setLocked t.localMember_nodeID

theorem sets_merge (t : Table) (now : Int) (r : Member) : Sets t r.nodeID (t.merge now r).1 := by
  rw [merge]
  dsimp only
  split
  · exact .refl
  split
  · rename_i hlocal
    exact hlocal ▸ sets_refuteLocked t now _
  split
  · exact sets_setLocked rfl
  · rename_i current hcurrent
    have hid := t.keyed _ _ hcurrent
    split
    · exact sets_setLocked rfl
    split
    · exact sets_setLocked hid
    · exact .refl

theorem sets_mark (t : Table) (now : Int) (id : NodeID) (incarnation : Counter) (old new : Status) :
    Sets t id (t.mark now id incarnation old new).1 := by
  rw [mark]
  split
  · exact .refl
  split
  · exact .refl
  · rename_i current hcurrent
    have hid := t.keyed _ _ hcurrent
    split
    · exact .refl
    · exact sets_setLocked hid

/-! ## Merging in any order -/

/-- The record sums up what has been heard: it has the highest standing and the highest range-map
epoch of them. -/
def SumsUp (heard : Set Member) : Option Member → Prop
  | none => heard = ∅
  | some m => IsGreatest (Member.standing '' heard) m.standing ∧
    IsGreatest (Member.rangeMapEpoch '' heard) m.rangeMapEpoch

theorem members_merge (hlocal : r.nodeID ≠ t.localID) (hforeign : ¬ t.Foreign r)
    (h : SumsUp heard (t.members r.nodeID)) :
    SumsUp (insert r heard) ((t.merge now r).1.members r.nodeID) := by
  rw [merge, if_neg hforeign]
  dsimp only
  rw [if_neg hlocal]
  cases hcurrent : t.members r.nodeID with
  | none =>
    rw [hcurrent] at h
    rw [members_setLocked, if_pos rfl, (show heard = ∅ from h), SumsUp, insert_empty_eq,
      Set.image_singleton, Set.image_singleton]
    exact ⟨isGreatest_singleton, isGreatest_singleton⟩
  | some current =>
    rw [hcurrent] at h
    obtain ⟨hstanding, hepoch⟩ := h
    have hstanding := hstanding.insert r.standing
    have hepoch := hepoch.insert r.rangeMapEpoch
    rw [← Set.image_insert_eq] at hstanding hepoch
    dsimp only
    split
    · rename_i hsup
      have hlt : current.standing < r.standing := supersedes_iff.mp hsup
      rw [members_setLocked, if_pos rfl]
      refine ⟨max_eq_left hlt.le ▸ hstanding, ?_⟩
      have hmax : (if current.rangeMapEpoch > r.rangeMapEpoch then current.rangeMapEpoch
          else r.rangeMapEpoch) = max r.rangeMapEpoch current.rangeMapEpoch := by
        rw [max_def_lt]
      exact hmax ▸ hepoch
    · rename_i hsup
      have hle : r.standing ≤ current.standing :=
        not_lt.mp fun hlt => hsup (supersedes_iff.mpr hlt)
      rw [max_eq_right hle] at hstanding
      split
      · rename_i hnewer
        rw [members_setLocked, if_pos (t.keyed _ _ hcurrent).symm]
        exact ⟨hstanding, max_eq_left hnewer.le ▸ hepoch⟩
      · rename_i hnewer
        rw [hcurrent]
        exact ⟨hstanding, max_eq_right (not_lt.mp hnewer) ▸ hepoch⟩

/-- Records that arrive one after the other, each with the time. -/
def mergeAll (t : Table) (records : List (Int × Member)) : Table :=
  records.foldl (fun t r => (t.merge r.1 r.2).1) t

theorem mergeAll_concat : t.mergeAll (records ++ [(now, r)]) = ((t.mergeAll records).merge now r).1 :=
  List.foldl_concat _ _ _ _

/-- What has been heard of a node: the record at the start, and the records of the own cluster. -/
def heard (t : Table) (id : NodeID) (records : List (Int × Member)) : Set Member :=
  { m | t.members id = some m ∨ (∃ now, (now, m) ∈ records) ∧ m.nodeID = id ∧ ¬ t.Foreign m }

theorem heard_concat_of (hid : r.nodeID = id) (hforeign : ¬ t.Foreign r) :
    t.heard id (records ++ [(now, r)]) = insert r (t.heard id records) := by
  ext m
  simp only [heard, Set.mem_ofPred_eq, Set.mem_insert_iff, List.mem_append, List.mem_singleton,
    Prod.mk.injEq]
  grind

theorem heard_concat_of_not (h : ¬ (r.nodeID = id ∧ ¬ t.Foreign r)) :
    t.heard id (records ++ [(now, r)]) = t.heard id records := by
  ext m
  simp only [heard, Set.mem_ofPred_eq, List.mem_append, List.mem_singleton, Prod.mk.injEq]
  grind

theorem sumsUp_mergeAll (hid : id ≠ t.localID) (records : List (Int × Member)) :
    SumsUp (t.heard id records) ((t.mergeAll records).members id) ∧
      (t.mergeAll records).localID = t.localID ∧ (t.mergeAll records).clusterID = t.clusterID := by
  induction records using List.reverseRecOn with
  | nil =>
    refine ⟨?_, rfl, rfl⟩
    have hheard : t.heard id [] = { m | t.members id = some m } := by
      ext m
      simp [heard]
    rw [hheard]
    change SumsUp _ (t.members id)
    cases hm : t.members id with
    | none => simp [SumsUp]
    | some m => simp [SumsUp]
  | append_singleton records delivery ih =>
    obtain ⟨now, r⟩ := delivery
    obtain ⟨hsums, hlocal, hcluster⟩ := ih
    have hsets := sets_merge (t.mergeAll records) now r
    rw [mergeAll_concat]
    refine ⟨?_, hsets.localID.trans hlocal, hsets.clusterID.trans hcluster⟩
    have hforeign : (t.mergeAll records).Foreign r ↔ t.Foreign r := by
      rw [Foreign, Foreign, hcluster]
    by_cases hr : r.nodeID = id ∧ ¬ t.Foreign r
    · obtain ⟨rfl, hr⟩ := hr
      rw [heard_concat_of rfl hr]
      exact members_merge (hlocal ▸ hid) (hforeign.not.mpr hr) hsums
    · rw [heard_concat_of_not hr]
      rcases not_and_or.mp hr with hne | hr
      · rw [hsets.frame id fun heq => hne heq.symm]
        exact hsums
      · rw [merge, if_pos (hforeign.mpr (not_not.mp hr))]
        exact hsums

theorem SumsUp.eq (h : SumsUp S o) (h' : SumsUp S o') :
    o.map (fun m => (m.incarnation, m.status, m.rangeMapEpoch)) =
      o'.map fun m => (m.incarnation, m.status, m.rangeMapEpoch) := by
  have hempty : ∀ {m}, SumsUp S (some m) → S ≠ ∅ := by
    rintro m ⟨⟨⟨r, hr, -⟩, -⟩, -⟩ hS
    exact absurd hr (hS ▸ Set.notMem_empty r)
  cases o with
  | none =>
    cases o' with
    | none => rfl
    | some m' => exact absurd h (hempty h')
  | some m =>
    cases o' with
    | none => exact absurd h' (hempty h)
    | some m' =>
      have hstanding : m.standing = m'.standing := h.1.unique h'.1
      obtain ⟨hinc, hstatus⟩ := Prod.mk.inj (toLex.injective hstanding)
      rw [Option.map_some, Option.map_some, hinc, hstatus, h.2.unique h'.2]

/-- Merging the same records about another node in any order, and any of them repeatedly, gives the
same record: the highest incarnation with the highest status at it, and the highest range-map
epoch. -/
theorem mergeAll_order_independent {records records' : List (Int × Member)} (hid : id ≠ t.localID)
    (hsame : ∀ m, m.nodeID = id → ¬ t.Foreign m →
      ((∃ now, (now, m) ∈ records) ↔ ∃ now, (now, m) ∈ records')) :
    SumsUp (t.heard id records) ((t.mergeAll records).members id) ∧
    ((t.mergeAll records).members id).map (fun m => (m.incarnation, m.status, m.rangeMapEpoch)) =
      ((t.mergeAll records').members id).map fun m =>
        (m.incarnation, m.status, m.rangeMapEpoch) := by
  have hsums := (sumsUp_mergeAll hid records).1
  have hsums' := (sumsUp_mergeAll hid records').1
  have hheard : t.heard id records = t.heard id records' := by
    ext m
    exact or_congr_right (and_congr_left fun h => hsame m h.1 h.2)
  exact ⟨hsums, hsums.eq (hheard ▸ hsums')⟩

theorem mergeAll_order_independent_twice :
    let t := newTable [99] 0 ⟨[97], [], [], .alive, 1, none, 0, 0⟩
    let suspect : Member := ⟨[98], [], [], .suspect, 3, none, 0, 5⟩
    let alive : Member := ⟨[98], [99], [], .alive, 3, none, 0, 7⟩
    ((t.mergeAll [(1, suspect), (2, alive)]).members [98]).map
        (fun m => (m.incarnation, m.status, m.rangeMapEpoch)) =
      ((t.mergeAll [(1, alive), (2, suspect), (3, alive)]).members [98]).map
        fun m => (m.incarnation, m.status, m.rangeMapEpoch) := by
  intro t suspect alive
  refine (mergeAll_order_independent (by decide) fun m _ _ => ?_).2
  simp only [List.mem_cons, Prod.mk.injEq, List.not_mem_nil, or_false, exists_or, exists_and_right,
    exists_eq, true_and]
  tauto

/-! ## Accusations of the local node -/

def step : System Table TableOp := fun t op =>
  match op with
  | .merge now record => some (t.merge now record).1
  | .markSuspect now nodeID incarnation => some (t.markSuspect now nodeID incarnation).1
  | .markDead now nodeID incarnation => some (t.markDead now nodeID incarnation).1
  | .refuteLocalSuspect now => some (t.refuteLocalSuspect now)
  | .setLocalRangeMapEpoch now epoch => some (t.setLocalRangeMapEpoch now epoch)
  | .upsert now record =>
    if record.nodeID = t.localID then none else some (t.upsert now record).1

/-- The record says that the local node is suspect or dead. -/
structure Accuses (t : Table) (r : Member) : Prop where
  nodeID : r.nodeID = t.localID
  status : r.status = .suspect ∨ r.status = .dead
  own : ¬ t.Foreign r

instance : Decidable (t.Accuses r) :=
  decidable_of_iff (r.nodeID = t.localID ∧ (r.status = .suspect ∨ r.status = .dead) ∧ ¬ t.Foreign r)
    ⟨fun h => ⟨h.1, h.2.1, h.2.2⟩, fun h => ⟨h.nodeID, h.status, h.own⟩⟩

/-- The operation does not raise the local incarnation beyond the largest one. -/
def NoWrap (t : Table) : TableOp → Prop
  | .merge _ r => t.Accuses r → r.incarnation ≠ maxUint64
  | .refuteLocalSuspect _ => t.localMember.incarnation ≠ maxUint64
  | _ => True

instance : ∀ op, Decidable (t.NoWrap op)
  | .merge _ _ => inferInstanceAs (Decidable (_ → _))
  | .refuteLocalSuspect _ => inferInstanceAs (Decidable (_ ≠ _))
  | .markSuspect .. | .markDead .. | .setLocalRangeMapEpoch .. | .upsert .. => isTrue trivial

/-- How an operation that does not wrap around leaves the local record. -/
structure Outlives (t t' : Table) : Prop where
  localID : t'.localID = t.localID
  status : t'.localMember.status = .alive
  incarnation : t.localMember.incarnation ≤ t'.localMember.incarnation

theorem Outlives.of_sets (h : Sets t id t') (hid : id ≠ t.localID)
    (halive : t.localMember.status = .alive) : Outlives t t' := by
  have heq := h.localMember_eq hid
  exact ⟨h.localID, heq ▸ halive, heq ▸ le_rfl⟩

theorem setLocked_outlives (now : Int) (m : Member) (hid : m.nodeID = t.localID)
    (hstatus : m.status = .alive)
    (hle : t.localMember.incarnation ≤ m.incarnation) :
    Outlives t (t.setLocked now m) ∧
      (t.setLocked now m).localMember.incarnation = m.incarnation := by
  have hlocal : (t.setLocked now m).localMember = m.stamp now (t.epoch + 1) :=
    localMember_setLocked hid
  exact ⟨⟨rfl, hlocal ▸ hstatus, hlocal ▸ hle⟩, hlocal ▸ rfl⟩

theorem refuteLocked_outlives (now : Int) (r : Member)
    (hmax : r.status = .suspect ∨ r.status = .dead → r.incarnation ≠ maxUint64)
    (halive : t.localMember.status = .alive) :
    Outlives t (t.refuteLocked now r).1 ∧ (r.status = .suspect ∨ r.status = .dead →
      r.incarnation < (t.refuteLocked now r).1.localMember.incarnation) := by
  rw [refuteLocked]
  split
  · rename_i hstatus
    exact ⟨⟨rfl, halive, le_rfl⟩, fun h => absurd h (not_or.mpr hstatus)⟩
  rename_i hstatus
  have haccused : r.status = .suspect ∨ r.status = .dead := by
    rwa [not_and_or, not_ne_iff, not_ne_iff] at hstatus
  split
  · rename_i hlt
    exact ⟨⟨rfl, halive, le_rfl⟩, fun _ => hlt⟩
  · rename_i hle
    have hlt := lt_succ_iff.mpr (hmax haccused)
    obtain ⟨hout, hinc⟩ := setLocked_outlives now { t.localMember with
      incarnation := r.incarnation + 1
      status := .alive } t.localMember_nodeID rfl ((not_lt.mp hle).trans hlt.le)
    exact ⟨hout, fun _ => hinc ▸ hlt⟩

theorem merge_outlives (now : Int) (halive : t.localMember.status = .alive)
    (hmax : t.Accuses r → r.incarnation ≠ maxUint64) :
    Outlives t (t.merge now r).1 ∧
      (t.Accuses r → r.incarnation < (t.merge now r).1.localMember.incarnation) := by
  by_cases hid : r.nodeID = t.localID
  · by_cases hforeign : t.Foreign r
    · rw [merge, if_pos hforeign]
      exact ⟨⟨rfl, halive, le_rfl⟩, fun h => absurd hforeign h.own⟩
    · rw [merge, if_neg hforeign]
      dsimp only
      rw [if_pos hid]
      obtain ⟨hout, hlt⟩ := refuteLocked_outlives now
        { r with clusterID := t.clusterID } (fun h => hmax ⟨hid, h, hforeign⟩) halive
      exact ⟨hout, fun h => hlt h.status⟩
  · exact ⟨.of_sets (sets_merge t now r) hid halive, fun h => absurd h.nodeID hid⟩

theorem mark_outlives (halive : t.localMember.status = .alive) :
    Outlives t (t.mark now id incarnation old new).1 := by
  by_cases hid : id = t.localID
  · rw [mark, if_pos hid]
    exact ⟨rfl, halive, le_rfl⟩
  · exact .of_sets (sets_mark t now id incarnation old new) hid halive

theorem step_outlives (halive : t.localMember.status = .alive) (hok : t.NoWrap op)
    (h : t.step op = some t') : Outlives t t' ∧
      ∀ now r, op = .merge now r → t.Accuses r → r.incarnation < t'.localMember.incarnation := by
  cases op with
  | merge now r =>
    cases h
    obtain ⟨hout, hlt⟩ := merge_outlives now halive hok
    exact ⟨hout, fun now' r' heq => by cases heq; exact hlt⟩
  | markSuspect | markDead =>
    cases h
    exact ⟨mark_outlives halive, nofun⟩
  | refuteLocalSuspect now =>
    cases h
    exact ⟨(setLocked_outlives now { t.localMember with
      incarnation := t.localMember.incarnation + 1
      status := .alive } t.localMember_nodeID rfl (lt_succ_iff.mpr hok).le).1, nofun⟩
  | setLocalRangeMapEpoch now epoch =>
    cases h
    exact ⟨(setLocked_outlives now { t.localMember with rangeMapEpoch := epoch }
      t.localMember_nodeID halive le_rfl).1, nofun⟩
  | upsert now record =>
    change (if _ then none else some _) = some t' at h
    split at h
    · cases h
    · rename_i hid
      cases h
      exact ⟨.of_sets (sets_upsert t now record) hid halive, nofun⟩

/-- As long as no operation wraps an incarnation around, the local node is alive in every state that
the table reaches, its incarnation does not decrease, and it is beyond that of an accusation. -/
theorem local_outlives_accusations {clusterID : Bytes} {self : Member} (hself : self.status = .unknown)
    (hok : step.Guarded NoWrap (newTable clusterID now self) ops)
    (hrun : step.run (newTable clusterID now self) ops = some t) :
    t.localMember.status = .alive ∧ ∀ op t', t.NoWrap op → t.step op = some t' →
      t.localMember.incarnation ≤ t'.localMember.incarnation ∧
      ∀ now r, op = .merge now r → t.Accuses r → r.incarnation < t'.localMember.incarnation := by
  have halive : t.localMember.status = .alive := by
    refine System.run_invariant_of_guarded (I := fun _ t => t.localMember.status = .alive) ?_
      (fun halive hok h => (step_outlives halive hok h).1.status) hok hrun
    rw [localMember_newTable]
    exact if_pos hself
  refine ⟨halive, fun op t' hok h => ?_⟩
  obtain ⟨hout, hlt⟩ := step_outlives halive hok h
  exact ⟨hout.incarnation, hlt⟩

/-- An accusation at the next to largest incarnation, and one at an incarnation long passed. -/
theorem local_outlives_accusations_old :
    let t := newTable [99] 0 ⟨[97], [], [], .unknown, 5, none, 0, 0⟩
    let dead (incarnation : Counter) : Member := ⟨[97], [99], [], .dead, incarnation, none, 0, 0⟩
    ∃ t', step.run t [.merge 1 (dead (maxUint64 - 1)), .merge 2 (dead 7)] = some t' ∧
      t'.localMember.status = .alive := by
  intro t dead
  have hok : step.Guarded NoWrap t [.merge 1 (dead (maxUint64 - 1)), .merge 2 (dead 7)] := by
    decide +kernel
  exact ⟨_, rfl, (local_outlives_accusations rfl hok rfl).1⟩

/-- The refutation of an accusation at the largest incarnation. -/
theorem accusation_at_max_wraps :
    let t := newTable [99] 0 ⟨[97], [], [], .unknown, 5, none, 0, 0⟩
    let accusation : Member := ⟨[97], [99], [], .suspect, maxUint64, none, 0, 0⟩
    t.localMember.incarnation = 5 ∧ (t.merge 1 accusation).1.localMember.incarnation = 0 := by
  decide +kernel

end Table
end ChudDB.Cluster
