import ChudDB.Cluster.Ownership
import ChudDB.Cluster.Scheduler

/-! # Proposals of the tablet scheduler

A proposal holds newer ranges for the same keys in the place of one or two ranges. If the scan of a
range returns keys of this range only, the boundary of a split lies strictly inside, and the
proposal is a valid map that partitions the keys. Merging it into the table that it was made from
leaves exactly the proposal (`proposal_takes_effect`). -/

namespace ChudDB.Cluster
open Lib

/-! ## Replacing ranges of a map -/

theorem countP_contains_cut {whole left right : Range} (hleft : left.start = whole.start)
    (hcut : left.end_ = right.start) (hright : right.end_ = whole.end_)
    (hlt : whole.start < right.start) (hlt' : whole.end_ ≠ [] → right.start < whole.end_)
    (key : Bytes) : [left, right].countP (·.contains key) = [whole].countP (·.contains key) := by
  have hcuts := HalfOpen.cut hlt hlt' key
  rw [← hleft, ← hright, ← hcut, ← Range.contains_iff (r := left), hcut,
    ← Range.contains_iff (r := right), hleft, hright, ← Range.contains_iff] at hcuts
  obtain ⟨hiff, hnot⟩ := hcuts
  simp only [List.countP_cons, List.countP_nil]
  cases hl : left.contains key <;> cases hr : right.contains key <;>
    cases hw : whole.contains key <;> simp_all

namespace RangeMap
variable {m m' : RangeMap} {old new : List Range} {key : Bytes}

/-- The map holds newer ranges for the same keys in the place of some of its ranges. -/
structure Replaces (m m' : RangeMap) (old new : List Range) : Prop where
  ranges : ∃ pre post, m.ranges = pre ++ old ++ post ∧ m'.ranges = pre ++ new ++ post
  covers : ∀ key, new.countP (·.contains key) = old.countP (·.contains key)
  newer : ∀ r ∈ old, ∀ r' ∈ new, r.generation < r'.generation

theorem Replaces.partitions (h : Replaces m m' old new) (hm : m.Partitions) : m'.Partitions := by
  obtain ⟨pre, post, hranges, hranges'⟩ := h.ranges
  intro key
  have hone := hm key
  rw [hranges, List.countP_append, List.countP_append] at hone
  rw [hranges', List.countP_append, List.countP_append, h.covers, hone]

/-- A key keeps its range, or moves from a replaced range to a new one. -/
theorem Replaces.rangeAt (h : Replaces m m' old new) (key : Bytes) :
    m'.rangeAt key = m.rangeAt key ∨
    ∃ r ∈ old, ∃ r' ∈ new, m.rangeAt key = some r ∧ m'.rangeAt key = some r' := by
  obtain ⟨pre, post, hranges, hranges'⟩ := h.ranges
  rw [RangeMap.rangeAt, RangeMap.rangeAt, hranges, hranges']
  simp only [List.find?_append]
  cases hpre : pre.find? (·.contains key) with
  | some r => exact .inl rfl
  | none =>
    have hcovers := h.covers key
    cases hold : old.find? (·.contains key) with
    | none =>
      have hzero : old.countP (·.contains key) = 0 :=
        List.countP_eq_zero.mpr (List.find?_eq_none.mp hold)
      have hnew : new.find? (·.contains key) = none :=
        List.find?_eq_none.mpr (List.countP_eq_zero.mp (hcovers.trans hzero))
      rw [hnew]
      exact .inl rfl
    | some r =>
      have hcontains := List.find?_some hold
      have hpos : 0 < old.countP (·.contains key) :=
        List.countP_pos_iff.mpr ⟨r, List.mem_of_find?_eq_some hold, hcontains⟩
      obtain ⟨r₁, hmem₁, hcontains₁⟩ := List.countP_pos_iff.mp (hcovers.symm ▸ hpos)
      cases hnew : new.find? (·.contains key) with
      | none => exact absurd hcontains₁ (List.find?_eq_none.mp hnew r₁ hmem₁)
      | some r' =>
        exact .inr ⟨r, List.mem_of_find?_eq_some hold, r', List.mem_of_find?_eq_some hnew, rfl, rfl⟩

/-- So merging it into the table leaves exactly this map. -/
theorem Replaces.merge_eq (h : Replaces m m' old new) (hm : m.validate = .ok ())
    (hpart : m.Partitions) (hm' : m'.validate = .ok ()) :
    m.merge m' = .ok (m', decide (m ≠ m')) := by
  refine merge_eq_incoming hm hpart hm' (h.partitions hpart) fun key a b ha hb => ?_
  rcases h.rangeAt key with heq | ⟨r, hr, r', hr', hat, hat'⟩
  · rw [heq, ha] at hb
    exact .inl (Option.some.inj hb)
  · rw [ha, Option.some.injEq] at hat
    rw [hb, Option.some.injEq] at hat'
    exact .inr (hat ▸ hat' ▸ h.newer r hr r' hr')

end RangeMap

theorem eq_take_append_drop {l : List α} (h : l[i]? = some a) :
    l = l.take i ++ a :: l.drop (i + 1) := by
  obtain ⟨hi, rfl⟩ := List.getElem?_eq_some_iff.mp h
  rw [← List.drop_eq_getElem_cons hi, List.take_append_drop]

namespace Scheduler
open RangeMap
variable {s : Scheduler} {m m' p proposal : RangeMap} {candidates : List NodeID} {c : Change}
  {i : Nat}

theorem apply_eq_some_iff : apply m p = some m' ↔ m.merge p = .ok (m', true) := by
  rw [apply, tableMerge]
  cases m.merge p with
  | error err => simp
  | ok result =>
    obtain ⟨merged, changed⟩ := result
    cases changed <;> simp

theorem replaces_of_split {boundary : Bytes} (hcurrent : m.ranges[i]? = some current)
    (hgen : current.generation ≠ maxUint64) (hboundary : boundary ≠ [])
    (hranges : proposal.ranges = m.ranges.take i ++
      s.splitChildren current boundary leftReplicas rightReplicas ++ m.ranges.drop (i + 1))
    (hvalid : proposal.validate = .ok ()) :
    Replaces m proposal [current]
      (s.splitChildren current boundary leftReplicas rightReplicas) := by
  have hsound : ∀ r ∈ s.splitChildren current boundary leftReplicas rightReplicas, r.Sound :=
    fun r hr => (validate_eq_ok_iff.mp hvalid).sound
      (hranges ▸ List.mem_append_left _ (List.mem_append_right _ hr))
  refine ⟨⟨_, _, ?_, hranges⟩, countP_contains_cut rfl rfl rfl ?_ ?_, fun r hr r' hr' => ?_⟩
  · rw [List.append_assoc, List.singleton_append]
    exact eq_take_append_drop hcurrent
  · exact (hsound _ List.mem_cons_self).lt hboundary
  · exact (hsound _ (List.mem_cons_of_mem _ List.mem_cons_self)).lt
  · rw [List.mem_singleton.mp hr]
    have hgeneration : r'.generation = current.generation + 1 := by
      rcases List.mem_pair.mp hr' with rfl | rfl <;> rfl
    exact hgeneration ▸ lt_succ_iff.mpr hgen

theorem eq_take_append_pair {l : List α} (h : l[i]? = some a) (h' : l[i + 1]? = some b) :
    l = l.take i ++ [a, b] ++ l.drop (i + 2) := by
  have htail : l.drop (i + 1) = b :: l.drop (i + 2) := by
    obtain ⟨hi, rfl⟩ := List.getElem?_eq_some_iff.mp h'
    exact List.drop_eq_getElem_cons hi
  rw [List.append_assoc, List.cons_append, List.singleton_append, ← htail]
  exact eq_take_append_drop h

theorem of_neighbours {left right : Range} (hm : m.validate = .ok ()) (hpart : m.Partitions)
    (hleft : m.ranges[i]? = some left) (hright : m.ranges[i + 1]? = some right) :
    left.end_ = right.start ∧ left.start < right.start ∧
      (right.end_ ≠ [] → right.start < right.end_) := by
  have htiles := tiles_of_partitions hm hpart
  rw [eq_take_append_pair hleft hright, List.append_assoc] at htiles
  obtain ⟨-, hlt, htail⟩ := htiles.of_append.of_cons_cons
  exact ⟨htail.start_eq.symm, htail.start_eq.symm ▸ hlt, htail.start_lt_stop List.mem_cons_self⟩

theorem replaces_of_merge (hm : m.validate = .ok ()) (hpart : m.Partitions)
    (hleft : m.ranges[i]? = some left) (hright : m.ranges[i + 1]? = some right)
    (hgen : max left.generation right.generation ≠ maxUint64) :
    Replaces m ⟨m.ranges.take i ++ [s.mergedRange left right replicas] ++ m.ranges.drop (i + 2)⟩
      [left, right] [s.mergedRange left right replicas] := by
  obtain ⟨hcut, hlt, hlt'⟩ := of_neighbours hm hpart hleft hright
  have hcovers : ∀ key, [left, right].countP (·.contains key) =
      [s.mergedRange left right replicas].countP (·.contains key) :=
    countP_contains_cut rfl hcut rfl hlt hlt'
  refine ⟨⟨_, _, eq_take_append_pair hleft hright, rfl⟩, fun key => (hcovers key).symm,
    fun r hr r' hr' => ?_⟩
  have hmax : r.generation ≤ max left.generation right.generation := by
    rcases List.mem_pair.mp hr with rfl | rfl
    · exact le_max_left _ _
    · exact le_max_right _ _
  rw [List.mem_singleton.mp hr']
  exact hmax.trans_lt (lt_succ_iff.mpr hgen)

/-! ## What a proposal changes -/

theorem ranges_split {r : Range} (h : m.ranges[i]? = some r) : (Change.split i).ranges m = [r] := by
  obtain ⟨hi, rfl⟩ := List.getElem?_eq_some_iff.mp h
  rw [Change.ranges, Change.index, Change.width, List.drop_eq_getElem_cons hi]
  rfl

theorem ranges_merge {left right : Range} (hleft : m.ranges[i]? = some left)
    (hright : m.ranges[i + 1]? = some right) : (Change.merge i).ranges m = [left, right] := by
  obtain ⟨hi, rfl⟩ := List.getElem?_eq_some_iff.mp hleft
  obtain ⟨hi', rfl⟩ := List.getElem?_eq_some_iff.mp hright
  rw [Change.ranges, Change.index, Change.width, List.drop_eq_getElem_cons hi,
    List.drop_eq_getElem_cons hi']
  rfl

/-- `p` is `m` with newer ranges in the place of those that the change is about, and they keep
replicas of these. -/
structure Effect (count : Int) (m p : RangeMap) (c : Change) (new : List Range) : Prop where
  ranges : p.ranges = m.ranges.take c.index ++ new ++ m.ranges.drop (c.index + c.width)
  replaces : Replaces m p (c.ranges m) new
  retains : ∀ r ∈ c.ranges m, ∀ r' ∈ new, Retains count r.replicas r'.replicas
  length : new.length = c.newWidth
  length_old : (c.ranges m).length = c.width

theorem effect_of_proposal (hm : m.validate = .ok ()) (hpart : m.Partitions)
    (h : s.proposal m candidates c = some p) (hvalid : p.validate = .ok ()) :
    ∃ new, Effect s.cfg.replicationFactor m p c new := by
  cases c with
  | split i =>
    obtain ⟨current, boundary, leftReplicas, rightReplicas, hcurrent, hgen, -, hinside, hleft,
      hright, rfl⟩ := splitProposal_eq_some_iff.mp h
    have hold := ranges_split hcurrent
    refine ⟨s.splitChildren current boundary leftReplicas rightReplicas, rfl, ?_, ?_, rfl, ?_⟩
    · rw [hold]
      exact replaces_of_split hcurrent hgen (not_or.mp hinside).1 rfl hvalid
    · rw [hold]
      intro r hr r' hr'
      rw [List.mem_singleton.mp hr]
      rcases List.mem_pair.mp hr' with rfl | rfl
      · exact (assignReplicas_spec hleft).1
      · exact (assignReplicas_spec hright).1
    · rw [hold]
      rfl
  | merge i =>
    obtain ⟨left, right, replicas, hleft, hright, hgen, hreplicas, rfl⟩ :=
      mergeProposal_eq_some_iff.mp h
    have hold := ranges_merge hleft hright
    refine ⟨[s.mergedRange left right replicas], rfl, ?_, ?_, rfl, ?_⟩
    · rw [hold]
      exact replaces_of_merge hm hpart hleft hright hgen
    · rw [hold]
      intro r hr r' hr'
      rw [List.mem_singleton.mp hr']
      refine (assignReplicas_spec hreplicas).1.mono fun node hnode => ?_
      obtain ⟨hmem, hmem'⟩ := List.mem_filter.mp hnode
      rcases List.mem_pair.mp hr with rfl | rfl
      · exact hmem
      · exact of_decide_eq_true hmem'
    · rw [hold]
      rfl

theorem Effect.ne (h : Effect count m p c new) : m ≠ p := by
  rintro rfl
  have hlength := congrArg List.length h.ranges
  have hold : (m.ranges.drop c.index).take c.width = c.ranges m := rfl
  have hparts : m.ranges = m.ranges.take c.index ++ c.ranges m ++
      m.ranges.drop (c.index + c.width) := by
    rw [← hold, List.append_assoc, ← List.drop_drop, List.take_append_drop, List.take_append_drop]
  have hlength' := congrArg List.length hparts
  have hold' := h.length_old
  have hnew := h.length
  simp only [List.length_append] at hlength hlength'
  have hwidth : c.newWidth ≠ c.width := by cases c <;> simp [Change.width, Change.newWidth]
  omega

/-! ## Valid proposals -/

theorem succ_ne_zero_of_ne_max {g : Counter} (h : g ≠ maxUint64) : g + 1 ≠ 0 := by
  intro hzero
  have hlt := lt_succ_iff.mpr h
  rw [hzero] at hlt
  exact absurd hlt (Fin.not_lt_zero g)

/-- The scheduler sets boundaries strictly inside a range, and proposals have an identifier. -/
structure WellFormed (s : Scheduler) : Prop where
  boundary : ∀ start end_ boundary, s.boundary start end_ = some boundary →
    start < boundary ∧ (end_ ≠ [] → boundary < end_)
  proposalID : ∀ ranges, s.proposalID ranges ≠ []

theorem validate_of_proposal (hs : s.WellFormed) (hm : m.validate = .ok ()) (hpart : m.Partitions)
    (h : s.proposal m candidates c = some p) : p.validate = .ok () := by
  have hchained := validate_eq_ok_iff.mp hm
  refine validate_eq_ok_iff.mpr ?_
  cases c with
  | split i =>
    obtain ⟨current, boundary, leftReplicas, rightReplicas, hcurrent, hgen, hboundary, -, hleft,
      hright, rfl⟩ := splitProposal_eq_some_iff.mp h
    obtain ⟨hlt, hlt'⟩ := hs.boundary _ _ _ hboundary
    rw [eq_take_append_drop hcurrent] at hchained
    obtain ⟨htail, hreplace⟩ := hchained.replace
    rw [List.append_assoc]
    have hsound : ∀ {id}, id ≠ [] → Range.Sound
        ⟨current.start, boundary, leftReplicas, current.generation + 1, id⟩ := fun hid =>
      ⟨succ_ne_zero_of_ne_max hgen, hid, (assignReplicas_spec hleft).1.replicas_ne_nil,
        fun _ => hlt⟩
    have hsound' : ∀ {id}, id ≠ [] → Range.Sound
        ⟨boundary, current.end_, rightReplicas, current.generation + 1, id⟩ := fun hid =>
      ⟨succ_ne_zero_of_ne_max hgen, hid, (assignReplicas_spec hright).1.replicas_ne_nil, hlt'⟩
    refine hreplace _ (.cons (hsound (hs.proposalID _)) rfl ?_)
    exact htail.replace_head (hsound' (hs.proposalID _)) rfl
  | merge i =>
    obtain ⟨left, right, replicas, hleft, hright, hgen, hreplicas, rfl⟩ :=
      mergeProposal_eq_some_iff.mp h
    obtain ⟨hcut, hlt, hlt'⟩ := of_neighbours hm hpart hleft hright
    rw [eq_take_append_pair hleft hright, List.append_assoc] at hchained
    obtain ⟨htail, hreplace⟩ := hchained.replace
    have hright' : Chained right.start (right :: m.ranges.drop (i + 2)) :=
      (show Chained left.start ([left] ++ right :: m.ranges.drop (i + 2)) from htail).replace.1
    have hsound : ∀ {id}, id ≠ [] → Range.Sound ⟨left.start, right.end_, replicas,
        max left.generation right.generation + 1, id⟩ := fun hid =>
      ⟨succ_ne_zero_of_ne_max hgen, hid, (assignReplicas_spec hreplicas).1.replicas_ne_nil,
        fun hne => hlt.trans (hlt' hne)⟩
    rw [List.append_assoc]
    exact hreplace _ (hright'.replace_head (hsound (hs.proposalID _)) rfl)

theorem takes_effect (hs : s.WellFormed) (hm : m.validate = .ok ()) (hpart : m.Partitions)
    (h : s.proposal m candidates c = some p) :
    p.validate = .ok () ∧ m.merge p = .ok (p, true) ∧
      ∃ new, Effect s.cfg.replicationFactor m p c new := by
  have hvalid := validate_of_proposal hs hm hpart h
  obtain ⟨new, heffect⟩ := effect_of_proposal hm hpart h hvalid
  have hmerge := heffect.replaces.merge_eq hm hpart hvalid
  rw [decide_eq_true heffect.ne] at hmerge
  exact ⟨hvalid, hmerge, new, heffect⟩

end Scheduler

/-! ## The scheduler over a scanner -/

section
variable {ε : Type u} {cfg : Config} {sum64 : Bytes → Counter} {sha256 : Bytes → Bytes}
  {scanner : RangeScanner ε} {settled : SettledRange → Int}

/-- Each scan returns keys of the scanned range only. -/
def ScansInside (scanner : RangeScanner ε) : Prop :=
  ∀ start end_ entries, scanner start end_ = .ok entries → ∀ e ∈ entries, HalfOpen start end_ e.1

theorem wellFormed_schedulerOver (hsha : ∀ data, (sha256 data).length = 32)
    (hscan : ScansInside scanner) :
    (schedulerOver cfg sum64 sha256 scanner settled).WellFormed := by
  refine ⟨fun start end_ boundary h => ?_, proposalID_ne_nil hsha⟩
  obtain ⟨entries, hentries, hopt⟩ :=
    optimalBoundary_of_pickSplitBoundary (Scheduler.of_toOption_eq_some h)
  obtain ⟨hmem, e, he, hlt⟩ := hopt.separates
  obtain ⟨e', he', rfl⟩ := List.mem_map.mp hmem
  refine ⟨(hscan _ _ _ hentries e he).1.trans_lt hlt, fun hne => ?_⟩
  exact (hscan _ _ _ hentries e' he').2.resolve_left hne

/-- A proposal that is made from a partition of the keys is a valid partition. Merging it into the
table that it was made from makes it the table. It leaves all other ranges as they are, and the new
ranges are newer than those that they replace. -/
theorem proposal_takes_effect {m p : RangeMap} {candidates : List NodeID} {c : Change}
    (hsha : ∀ data, (sha256 data).length = 32) (hscan : ScansInside scanner)
    (hm : m.validate = .ok ()) (hpart : m.Partitions)
    (h : (schedulerOver cfg sum64 sha256 scanner settled).proposal m candidates c = some p) :
    p.validate = .ok () ∧ p.Partitions ∧ m.tableMerge p = (p, .ok true) ∧
    ∃ new, p.ranges = m.ranges.take c.index ++ new ++ m.ranges.drop (c.index + c.width) ∧
      ∀ r ∈ c.ranges m, ∀ r' ∈ new, r.generation < r'.generation := by
  obtain ⟨hvalid, hmerge, new, heffect⟩ :=
    Scheduler.takes_effect (wellFormed_schedulerOver hsha hscan) hm hpart h
  refine ⟨hvalid, heffect.replaces.partitions hpart, ?_, new, heffect.ranges,
    heffect.replaces.newer⟩
  rw [RangeMap.tableMerge, hmerge]

end

namespace Scheduler

/-- A configuration with three replicas. -/
def sampleConfig (writeQuorum : Int) : Config where
  nodeID := [97]
  clusterID := [99]
  listenAddr := [58]
  advertiseAddr := [58]
  replicationFactor := 3
  readQuorum := 3
  writeQuorum := writeQuorum
  tabletSplitBytes := 256
  tabletMergeBytes := 64
  tabletCheckInterval := 30
  tabletSettlingTicks := 1
  antiEntropyInterval := 60
  antiEntropyTimeout := 5
  antiEntropyFanout := 4
  antiEntropyLeafItemThreshold := 32
  antiEntropyMaxDepth := 6
  gossipInterval := 10
  pingTimeout := 5
  suspectTimeout := 50
  deadTimeout := 300
  replicationTimeout := 20
  indirectPingFanout := 3
  rangeMapGeneration := 1

def sampleMap : RangeMap := ⟨[⟨[], [], [[97], [98], [99]], 1, [112]⟩]⟩

end Scheduler

/-- Four numbers in the place of `crypto/sha256`. -/
def sampleSha256 (data : Bytes) : Bytes :=
  [0, 1, 2, 3].flatMap fun x => beBytes 8 (sampleSum64 (x :: data)).val

theorem length_sampleSha256 (data : Bytes) : (sampleSha256 data).length = 32 := by
  simp [sampleSha256, length_beBytes]

/-- A store with two rows. -/
def sampleScanner : { scanner : RangeScanner Empty // ScansInside scanner } where
  val start end_ := .ok ([([107], []), ([109], [])].filter fun e => HalfOpen start end_ e.1)
  property start end_ entries hentries e he := by
    cases hentries
    exact of_decide_eq_true (List.mem_filter.mp he).2

/-- A split of the only range. -/
theorem proposal_takes_effect_split :
    let s := schedulerOver (Scheduler.sampleConfig 2) sampleSum64 sampleSha256 sampleScanner.val
      fun _ => 1
    ∃ p, s.proposal Scheduler.sampleMap [[97], [98], [99]] (.split 0) = some p ∧
      p.validate = .ok () ∧ p.Partitions ∧ Scheduler.sampleMap.tableMerge p = (p, .ok true) := by
  intro s
  have hsome : (s.proposal Scheduler.sampleMap [[97], [98], [99]] (.split 0)).isSome = true := by
    decide +kernel
  obtain ⟨p, hp⟩ := Option.isSome_iff_exists.mp hsome
  obtain ⟨hvalid, hpart, hmerge, -⟩ := proposal_takes_effect length_sampleSha256
    sampleScanner.property (by decide) (RangeMap.partitions_of_tiles (.last rfl rfl)) hp
  exact ⟨p, hp, hvalid, hpart, hmerge⟩

end ChudDB.Cluster
