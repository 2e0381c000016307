import ChudDB.Cluster.RangeMap

/-! # Merging range maps

`RangeMap.Merge` (`rangemap.go`). Both maps are cut at the ends of the ranges of either. On each
piece the range with the higher generation wins, a tie between different ranges is decided by
`compareTieCandidate`, and the proposal that wins a tie gets a new generation wherever its side is
chosen. The pieces that come from one range are then put together again.

The choice on a piece is the one at each of its keys (`pickAt`), so the result is described key by
key: it is the maximal tiling for the source of the choice, with the chosen contents (`Merges`). -/

namespace ChudDB.Cluster
open Lib

/-- The side of a merge: the current map or the incoming one. -/
inductive Side where
  | current
  | incoming
deriving DecidableEq, Repr

structure RangeSource where
  side : Side
  index : Nat
deriving DecidableEq, Repr

structure MergedSegment where
  start : Bytes
  end_ : Bytes
  range_ : Range
  source : RangeSource
deriving DecidableEq, Repr

structure ProposalRef where
  side : Side
  proposalID : Bytes
  generation : Counter
  index : Int
deriving DecidableEq, Repr

/-- The two comparisons that `compareTieCandidate` makes of each field. -/
def compareField (left right : Bytes) : Ordering :=
  if left < right then .lt else if left > right then .gt else .eq

/-- The loop over the replicas in `compareTieCandidate` and the comparison of the lengths after
it. -/
def compareReplicas : List NodeID → List NodeID → Ordering
  | a :: as, b :: bs => (compareField a b).then (compareReplicas as bs)
  | [], [] => .eq
  | [], _ :: _ => .lt
  | _ :: _, [] => .gt

def compareTieCandidate (left right : Range) : Ordering :=
  (compareField left.proposalID right.proposalID).then <|
    (compareField left.start right.start).then <|
      (compareField left.end_ right.end_).then (compareReplicas left.replicas right.replicas)

def sameRangeMetadata (left right : Range) : Bool :=
  left.generation = right.generation ∧ left.proposalID = right.proposalID ∧
    left.replicas = right.replicas

def rangesEqual (left right : Range) : Bool :=
  decide (left.start = right.start) && decide (left.end_ = right.end_) &&
    sameRangeMetadata left right

/-- The range that is chosen, where it comes from, and whether it won a tie. -/
def pickRange (current incoming : Range) (currentIndex incomingIndex : Nat) :
    Range × RangeSource × Bool :=
  if current.generation > incoming.generation then (current, ⟨.current, currentIndex⟩, false)
  else if incoming.generation > current.generation then
    (incoming, ⟨.incoming, incomingIndex⟩, false)
  else if rangesEqual current incoming then (current, ⟨.current, currentIndex⟩, false)
  else if compareTieCandidate current incoming ≠ .gt then
    (current, ⟨.current, currentIndex⟩, true)
  else (incoming, ⟨.incoming, incomingIndex⟩, true)

def proposalReference (source : RangeSource) (r : Range) : ProposalRef :=
  ⟨source.side, r.proposalID, r.generation, if r.proposalID = [] then source.index else -1⟩

/-- `coalesceSegments` behind a range. -/
def coalesceInto (last : Range) (source : RangeSource) : List MergedSegment → List Range
  | [] => [last]
  | segment :: segments =>
    let r := { segment.range_ with start := segment.start, end_ := segment.end_ }
    if source = segment.source ∧ sameRangeMetadata last r then
      coalesceInto { last with end_ := r.end_ } source segments
    else last :: coalesceInto r segment.source segments

def coalesceSegments : List MergedSegment → List Range
  | [] => []
  | segment :: segments =>
    coalesceInto { segment.range_ with start := segment.start, end_ := segment.end_ }
      segment.source segments

namespace RangeMap

def mergeBoundaries (left right : RangeMap) : List Bytes :=
  (((left.ranges ++ right.ranges).map Range.end_).filter (· ≠ [])).dedup.insertionSort (· ≤ ·)

/-- `rangeIndexAt`, with the range. -/
def rangeIndexAt (ranges : List Range) (key : Bytes) : Option (Range × Nat) :=
  ranges.zipIdx.find? (·.1.contains key)

/-- The choice that the loop of `Merge` makes at the start of a segment. -/
def pickAt (m incoming : RangeMap) (key : Bytes) : Option (Range × RangeSource × Bool) := do
  let (current, currentIndex) ← rangeIndexAt m.ranges key
  let (remote, incomingIndex) ← rangeIndexAt incoming.ranges key
  return pickRange current remote currentIndex incomingIndex

/-- The loop of `Merge` over the ends of the segments. -/
def mergeLoop (m incoming : RangeMap) (start : Bytes) :
    List Bytes → Except RangeMapError (List (MergedSegment × Bool))
  | [] => .ok []
  | end_ :: ends =>
    match m.pickAt incoming start with
    | none => .error (.notCovered start)
    | some (winner, source, tied) =>
      if tied ∧ winner.generation = maxUint64 then .error .tieAtMaximum
      else do
        let segments ← mergeLoop m incoming end_ ends
        return (⟨start, end_, winner, source⟩, tied) :: segments

/-- The second loop of `Merge`. -/
def bump (bumps : List ProposalRef) (segment : MergedSegment) : MergedSegment :=
  if proposalReference segment.source segment.range_ ∈ bumps then
    { segment with range_.generation := segment.range_.generation + 1 }
  else segment

/-- `RangeMap.Merge`. -/
def merge (m incoming : RangeMap) : Except RangeMapError (RangeMap × Bool) :=
  match m.validate, incoming.validate with
  | .error err, _ => .error (.current err)
  | .ok (), .error err => .error (.incoming err)
  | .ok (), .ok () => do
    let segments ← mergeLoop m incoming [] (mergeBoundaries m incoming ++ [[]])
    let bumps := (segments.filter (·.2)).map fun s => proposalReference s.1.source s.1.range_
    let result : RangeMap := ⟨coalesceSegments (segments.map fun s => bump bumps s.1)⟩
    match result.validate with
    | .error err => .error (.merged err)
    | .ok () => return (result, decide (m ≠ result))

end RangeMap

/-! ## Choosing a range -/

/-- What `sameRangeMetadata` compares. -/
def Range.metadata (r : Range) : Counter × Bytes × List NodeID :=
  (r.generation, r.proposalID, r.replicas)

theorem Range.ext_metadata {a b : Range} (hstart : a.start = b.start) (hend : a.end_ = b.end_)
    (h : a.metadata = b.metadata) : a = b := by
  obtain ⟨start, end_, replicas, generation, proposalID⟩ := a
  cases hstart
  cases hend
  cases h
  rfl

theorem sameRangeMetadata_iff {a b : Range} :
    sameRangeMetadata a b = true ↔ a.metadata = b.metadata := by
  simp [sameRangeMetadata, Range.metadata]

theorem rangesEqual_iff {a b : Range} : rangesEqual a b = true ↔ a = b := by
  obtain ⟨start, end_, replicas, generation, proposalID⟩ := a
  obtain ⟨start', end_', replicas', generation', proposalID'⟩ := b
  simp only [rangesEqual, Bool.and_eq_true, decide_eq_true_eq, sameRangeMetadata_iff,
    Range.metadata, Prod.mk.injEq, Range.mk.injEq]
  tauto

theorem compareField_swap (a b : Bytes) : (compareField a b).swap = compareField b a := by
  rw [compareField, compareField]
  rcases lt_trichotomy a b with h | rfl | h
  · rw [if_pos h, if_neg h.not_gt, if_pos h]
    rfl
  · rw [if_neg (lt_irrefl a), if_neg (lt_irrefl a)]
    rfl
  · rw [if_neg h.not_gt, if_pos h, if_pos h]
    rfl

theorem compareField_eq_eq {a b : Bytes} : compareField a b = .eq ↔ a = b := by
  rw [compareField]
  rcases lt_trichotomy a b with h | rfl | h
  · simp [h, h.ne]
  · simp
  · simp [h, h.not_gt, h.ne']

theorem compareReplicas_swap (a b : List NodeID) :
    (compareReplicas a b).swap = compareReplicas b a := by
  induction a generalizing b with
  | nil => cases b <;> rfl
  | cons x a ih =>
    cases b with
    | nil => rfl
    | cons y b => rw [compareReplicas, compareReplicas, Ordering.swap_then, compareField_swap, ih]

theorem compareReplicas_eq_eq {a b : List NodeID} : compareReplicas a b = .eq ↔ a = b := by
  induction a generalizing b with
  | nil => cases b <;> simp [compareReplicas]
  | cons x a ih =>
    cases b with
    | nil => simp [compareReplicas]
    | cons y b => rw [compareReplicas, Ordering.then_eq_eq, compareField_eq_eq, ih, List.cons.injEq]

theorem compareTieCandidate_swap (a b : Range) :
    (compareTieCandidate a b).swap = compareTieCandidate b a := by
  simp only [compareTieCandidate, Ordering.swap_then, compareField_swap, compareReplicas_swap]

/-- A tie between different ranges is decided. -/
theorem compareTieCandidate_ne_eq {a b : Range} (hgen : a.generation = b.generation) (hne : a ≠ b) :
    compareTieCandidate a b ≠ .eq := by
  intro heq
  simp only [compareTieCandidate, Ordering.then_eq_eq, compareField_eq_eq, compareReplicas_eq_eq] at heq
  obtain ⟨hprop, hstart, hend, hreplicas⟩ := heq
  exact hne (by cases a; cases b; simp_all)

/-- Two different ranges of one generation, the first of which is preferred. -/
def Prevails (a b : Range) : Prop :=
  a.generation = b.generation ∧ a ≠ b ∧ compareTieCandidate a b = .lt

theorem prevails_or_prevails {a b : Range} (hgen : a.generation = b.generation) (hne : a ≠ b) :
    Prevails a b ∨ Prevails b a := by
  have hdecided := compareTieCandidate_ne_eq hgen hne
  cases hcmp : compareTieCandidate a b with
  | lt => exact .inl ⟨hgen, hne, hcmp⟩
  | eq => exact absurd hcmp hdecided
  | gt =>
    refine .inr ⟨hgen.symm, hne.symm, ?_⟩
    rw [← compareTieCandidate_swap, hcmp]
    rfl

/-- The cases of `pickRange`. -/
inductive Picked (a b : Range) (i j : Nat) : Range × RangeSource × Bool → Prop
  | newer (h : b.generation < a.generation) : Picked a b i j (a, ⟨.current, i⟩, false)
  | older (h : a.generation < b.generation) : Picked a b i j (b, ⟨.incoming, j⟩, false)
  | same (h : a = b) : Picked a b i j (a, ⟨.current, i⟩, false)
  | wins (h : Prevails a b) : Picked a b i j (a, ⟨.current, i⟩, true)
  | loses (h : Prevails b a) : Picked a b i j (b, ⟨.incoming, j⟩, true)

theorem Picked.eq_pickRange (h : Picked a b i j c) : c = pickRange a b i j := by
  cases h with
  | newer h => rw [pickRange, if_pos h]
  | older h => rw [pickRange, if_neg h.not_gt, if_pos h]
  | same h =>
    subst h
    rw [pickRange, if_neg (lt_irrefl _), if_neg (lt_irrefl _), if_pos (rangesEqual_iff.mpr rfl)]
  | wins h =>
    rw [pickRange, if_neg h.1.not_gt, if_neg h.1.not_lt, if_neg (h.2.1 ∘ rangesEqual_iff.mp),
      if_pos (by rw [h.2.2]; nofun)]
  | loses h =>
    rw [pickRange, if_neg h.1.not_lt, if_neg h.1.not_gt,
      if_neg (h.2.1.symm ∘ rangesEqual_iff.mp), if_neg (by rw [← compareTieCandidate_swap, h.2.2]; simp)]

theorem picked_pickRange (a b : Range) (i j : Nat) : Picked a b i j (pickRange a b i j) := by
  have hof : ∀ c, Picked a b i j c → Picked a b i j (pickRange a b i j) :=
    fun c h => h.eq_pickRange ▸ h
  rcases lt_trichotomy a.generation b.generation with h | hgen | h
  · exact hof _ (.older h)
  · by_cases heq : a = b
    · exact hof _ (.same heq)
    · rcases prevails_or_prevails hgen heq with h | h
      · exact hof _ (.wins h)
      · exact hof _ (.loses h)
  · exact hof _ (.newer h)

namespace RangeMap

/-! ## The choice at a key -/

theorem map_rangeIndexAt (ranges : List Range) (key : Bytes) :
    (rangeIndexAt ranges key).map Prod.fst = ranges.find? (·.contains key) := by
  have h := List.find?_map (f := Prod.fst) (p := (Range.contains · key)) (l := ranges.zipIdx)
  rw [List.zipIdx_map_fst] at h
  exact h.symm

theorem exists_rangeIndexAt {ranges : List Range} (h : Chained [] ranges) (key : Bytes) :
    ∃ p, rangeIndexAt ranges key = some p := by
  obtain ⟨r, hr, hcontains⟩ : ∃ r ∈ ranges, r.contains key = true := h.exists_contains bot_le
  have hsome : (ranges.find? (·.contains key)).isSome = true :=
    List.find?_isSome.mpr ⟨r, hr, hcontains⟩
  rw [← map_rangeIndexAt, Option.isSome_map] at hsome
  exact Option.isSome_iff_exists.mp hsome

variable {A B R : RangeMap} {pick : Bytes → Range × RangeSource × Bool} {key key' : Bytes}

/-- Two validated maps have a choice at every key. -/
theorem exists_pick (hA : A.validate = .ok ()) (hB : B.validate = .ok ()) :
    ∃ pick : Bytes → Range × RangeSource × Bool, ∀ key, A.pickAt B key = some (pick key) := by
  have hpick : ∀ key, ∃ p, A.pickAt B key = some p := by
    intro key
    obtain ⟨a, ha⟩ := exists_rangeIndexAt (validate_eq_ok_iff.mp hA) key
    obtain ⟨b, hb⟩ := exists_rangeIndexAt (validate_eq_ok_iff.mp hB) key
    exact ⟨_, by rw [pickAt, ha, hb]; rfl⟩
  choose pick hpick using hpick
  exact ⟨pick, hpick⟩

/-- The ranges of the two maps at a key, with their indices, and the choice between them. -/
structure PickSpec (A B : RangeMap) (key : Bytes) (x : Range × RangeSource × Bool) (a b : Range)
    (i j : Nat) : Prop where
  atA : A.rangeAt key = some a
  atB : B.rangeAt key = some b
  indexA : A.ranges[i]? = some a
  indexB : B.ranges[j]? = some b
  picked : Picked a b i j x

theorem of_rangeIndexAt {m : RangeMap} (h : rangeIndexAt m.ranges key = some (r, i)) :
    m.rangeAt key = some r ∧ m.ranges[i]? = some r := by
  refine ⟨?_, List.mem_zipIdx_iff_getElem?.mp (List.mem_of_find?_eq_some h)⟩
  rw [rangeAt, ← map_rangeIndexAt, h]
  rfl

theorem pickSpec (h : A.pickAt B key = some x) : ∃ a b i j, PickSpec A B key x a b i j := by
  obtain ⟨⟨a, i⟩, ha, h⟩ := Option.bind_eq_some_iff.mp h
  obtain ⟨⟨b, j⟩, hb, h⟩ := Option.bind_eq_some_iff.mp h
  cases h
  exact ⟨a, b, i, j, (of_rangeIndexAt ha).1, (of_rangeIndexAt hb).1, (of_rangeIndexAt ha).2,
    (of_rangeIndexAt hb).2, picked_pickRange a b i j⟩

/-- The map of a side. -/
def sideOf (A B : RangeMap) : Side → RangeMap
  | .current => A
  | .incoming => B

theorem getElem?_source (h : A.pickAt B key = some x) :
    (sideOf A B x.2.1.side).ranges[x.2.1.index]? = some x.1 := by
  obtain ⟨a, b, i, j, -, -, hA, hB, hpicked⟩ := pickSpec h
  cases hpicked with
  | newer | same | wins => exact hA
  | older | loses => exact hB

/-- The source determines the range. -/
theorem fst_eq_of_source_eq (h : A.pickAt B key = some x) (h' : A.pickAt B key' = some x')
    (hsource : x.2.1 = x'.2.1) : x.1 = x'.1 := by
  have hrange := getElem?_source h
  rw [hsource, getElem?_source h'] at hrange
  exact (Option.some.inj hrange).symm

/-- In a map without repetitions the range determines the source. -/
theorem source_eq_of_fst_eq (h : A.pickAt B key = some x) (h' : A.pickAt B key' = some x')
    (hnodup : (sideOf A B x.2.1.side).ranges.Nodup) (hside : x.2.1.side = x'.2.1.side)
    (hfst : x.1 = x'.1) : x.2.1 = x'.2.1 := by
  have hi := getElem?_source h
  have hj := getElem?_source h'
  rw [← hside, ← hfst] at hj
  obtain ⟨hi, hri⟩ := List.getElem?_eq_some_iff.mp hi
  obtain ⟨hj, hrj⟩ := List.getElem?_eq_some_iff.mp hj
  have hindex := hnodup.getElem_inj_iff.mp (hri.trans hrj.symm)
  obtain ⟨_, ⟨side, i⟩, _⟩ := x
  obtain ⟨_, ⟨side', j⟩, _⟩ := x'
  exact congrArg₂ RangeSource.mk hside hindex

theorem PickSpec.fst_eq (h : PickSpec A B key x a b i j) : x.1 = a ∨ x.1 = b := by
  obtain ⟨-, -, -, -, hpicked⟩ := h
  cases hpicked with
  | newer | same | wins => exact .inl rfl
  | older | loses => exact .inr rfl

/-- Between the boundaries nothing changes. -/
theorem rangeIndexAt_congr {ranges : List Range} (h : Chained [] ranges) {start key : Bytes}
    (hle : start ≤ key)
    (hcut : ∀ r ∈ ranges, r.end_ ≠ [] → r.end_ ≤ start ∨ key < r.end_) :
    rangeIndexAt ranges key = rangeIndexAt ranges start := by
  have hcontains : ∀ r ∈ ranges, r.contains key = r.contains start := by
    intro r hr
    rw [Bool.eq_iff_iff, Range.contains_iff, Range.contains_iff]
    have hstart : r.start ≤ key → r.start ≤ start := by
      intro hlow
      rcases h.start_mem hr with hnil | hmem
      · exact hnil ▸ bot_le
      · obtain ⟨r', hr', hend⟩ := List.mem_map.mp hmem
        by_cases hne : r'.end_ = []
        · exact hend ▸ hne ▸ bot_le
        · exact (hend ▸ hcut r' hr' hne).resolve_right hlow.not_gt
    constructor
    · rintro ⟨hlow, hhigh⟩
      exact ⟨hstart hlow, hhigh.imp_right hle.trans_lt⟩
    · rintro ⟨hlow, hhigh⟩
      refine ⟨hlow.trans hle, ?_⟩
      by_cases hne : r.end_ = []
      · exact .inl hne
      · exact .inr ((hcut r hr hne).resolve_left (hhigh.resolve_left hne).not_ge)
  have hfind : ∀ l : List (Range × Nat), (∀ p ∈ l, p.1 ∈ ranges) →
      l.find? (·.1.contains key) = l.find? (·.1.contains start) := by
    intro l hl
    induction l with
    | nil => rfl
    | cons p l ih =>
      rw [List.find?_cons, List.find?_cons, hcontains p.1 (hl p List.mem_cons_self),
        ih fun q hq => hl q (List.mem_cons_of_mem p hq)]
  exact hfind ranges.zipIdx fun p hp => List.fst_mem_of_mem_zipIdx hp

theorem mem_mergeBoundaries {key : Bytes} : key ∈ mergeBoundaries A B ↔
    key ≠ [] ∧ ∃ r ∈ A.ranges ++ B.ranges, r.end_ = key := by
  rw [mergeBoundaries, List.mem_insertionSort, List.mem_dedup, List.mem_filter, List.mem_map,
    decide_eq_true_eq, and_comm]

theorem pairwise_mergeBoundaries (A B : RangeMap) :
    ([] :: mergeBoundaries A B).Pairwise (· < ·) := by
  refine List.pairwise_cons.mpr ⟨fun key hkey => ?_, ?_⟩
  · exact bot_lt_iff_ne_bot.mpr (mem_mergeBoundaries.mp hkey).1
  · have hnodup : (mergeBoundaries A B).Nodup :=
      (List.perm_insertionSort _ _).nodup_iff.mpr (List.nodup_dedup _)
    exact (List.pairwise_insertionSort (· ≤ ·) _).imp₂ (fun _ _ hle hne => lt_of_le_of_ne hle hne)
      hnodup

/-- The choice at a key is the one at the start of its segment. -/
theorem pickAt_eq_of_mem_cuts (hA : A.validate = .ok ()) (hB : B.validate = .ok ())
    (hp : p ∈ cuts [] (mergeBoundaries A B ++ [[]])) (hkey : Covers Prod.fst Prod.snd p key) :
    A.pickAt B key = A.pickAt B p.1 := by
  have hcut : ∀ r ∈ A.ranges ++ B.ranges, r.end_ ≠ [] → r.end_ ≤ p.1 ∨ key < r.end_ :=
    fun r hr hne => le_or_lt_of_mem_cuts (pairwise_mergeBoundaries A B) hp hkey
      (mem_mergeBoundaries.mpr ⟨hne, r, hr, rfl⟩)
  rw [pickAt, pickAt,
    rangeIndexAt_congr (validate_eq_ok_iff.mp hA) hkey.1 fun r hr =>
      hcut r (List.mem_append_left _ hr),
    rangeIndexAt_congr (validate_eq_ok_iff.mp hB) hkey.1 fun r hr =>
      hcut r (List.mem_append_right _ hr)]

/-! ## The segments -/

/-- The segment of a piece of the key space. -/
def segmentOf (pick : Bytes → Range × RangeSource × Bool) (p : Bytes × Bytes) :
    MergedSegment × Bool :=
  (⟨p.1, p.2, (pick p.1).1, (pick p.1).2.1⟩, (pick p.1).2.2)

/-- A tie that cannot be resolved. -/
def Stuck (pick : Bytes → Range × RangeSource × Bool) (key : Bytes) : Prop :=
  (pick key).2.2 = true ∧ (pick key).1.generation = maxUint64

theorem mergeLoop_spec (hpick : ∀ key, A.pickAt B key = some (pick key)) (start : Bytes)
    (ends : List Bytes) :
    (∃ p ∈ cuts start ends, Stuck pick p.1) ∧ mergeLoop A B start ends = .error .tieAtMaximum ∨
    (∀ p ∈ cuts start ends, ¬ Stuck pick p.1) ∧
      mergeLoop A B start ends = .ok ((cuts start ends).map (segmentOf pick)) := by
  induction ends generalizing start with
  | nil => exact .inr ⟨nofun, rfl⟩
  | cons end_ ends ih =>
    rw [mergeLoop, hpick start, cuts]
    simp only
    by_cases hstuck : (pick start).2.2 = true ∧ (pick start).1.generation = maxUint64
    · rw [if_pos hstuck]
      exact .inl ⟨⟨_, List.mem_cons_self, hstuck⟩, rfl⟩
    · rw [if_neg hstuck]
      rcases ih end_ with ⟨⟨p, hp, hbad⟩, hloop⟩ | ⟨hgood, hloop⟩
      · rw [hloop]
        exact .inl ⟨⟨p, List.mem_cons_of_mem _ hp, hbad⟩, rfl⟩
      · rw [hloop]
        refine .inr ⟨fun p hp => ?_, rfl⟩
        rcases List.mem_cons.mp hp with rfl | hp
        · exact hstuck
        · exact hgood p hp

end RangeMap

/-! ## Putting segments together -/

section Coalesce
variable {source : Bytes → RangeSource} {contents : Bytes → Counter × Bytes × List NodeID}

/-- On the keys of a range the source and the contents are as given. -/
def Painted (source : Bytes → RangeSource) (contents : Bytes → Counter × Bytes × List NodeID)
    (r : Range) (src : RangeSource) : Prop :=
  ∀ key, Covers Range.start Range.end_ r key → source key = src ∧ r.metadata = contents key

/-- The range of a segment. -/
def MergedSegment.placed (segment : MergedSegment) : Range :=
  { segment.range_ with start := segment.start, end_ := segment.end_ }

theorem Painted.extend {last : Range} {segment : MergedSegment}
    (hlast : Painted source contents last segment.source)
    (hsegment : Painted source contents segment.placed segment.source)
    (hstart : segment.start = last.end_) (hsame : last.metadata = segment.placed.metadata) :
    Painted source contents { last with end_ := segment.end_ } segment.source := by
  intro key hkey
  rcases lt_or_ge key last.end_ with hlow | hhigh
  · exact hlast key ⟨hkey.1, .inr hlow⟩
  · obtain ⟨hsource, hmeta⟩ := hsegment key ⟨hstart.trans_le hhigh, hkey.2⟩
    exact ⟨hsource, hsame.trans hmeta⟩

theorem tiles_extend {last : Range} {segment : MergedSegment}
    (h : Tiles Range.start Range.end_ lo (last :: segment.placed :: rest)) :
    Tiles Range.start Range.end_ lo ({ last with end_ := segment.end_ } :: rest) := by
  cases h with
  | cons hstart hlt h =>
    cases h with
    | last _ hend => exact .last hstart hend
    | cons hstart' hlt' h => exact .cons hstart (hlt.trans hlt') h

/-- Putting segments together gives the maximal tiling for their sources. -/
theorem coalesceInto_spec (hsource : ∀ key key', source key = source key' →
      contents key = contents key') {last : Range} {src : RangeSource}
    {segments : List MergedSegment} (hlast : Painted source contents last src)
    (hsegments : ∀ s ∈ segments, Painted source contents s.placed s.source)
    (htiles : Tiles Range.start Range.end_ lo (last :: segments.map MergedSegment.placed)) :
    Tiles Range.start Range.end_ lo (coalesceInto last src segments) ∧
    Tiles.Maximal Range.start Range.end_ source (coalesceInto last src segments) ∧
    ∀ r ∈ coalesceInto last src segments, ∀ key, Covers Range.start Range.end_ r key →
      r.metadata = contents key := by
  induction segments generalizing last src lo with
  | nil =>
    refine ⟨htiles, ⟨?_, List.isChain_singleton last⟩, ?_⟩
    · intro r hr key hkey
      rw [List.mem_singleton.mp hr] at hkey ⊢
      rw [(hlast key hkey).1, (hlast _ (htiles.covers_start List.mem_cons_self)).1]
    · intro r hr key hkey
      rw [List.mem_singleton.mp hr] at hkey ⊢
      exact (hlast key hkey).2
  | cons segment segments ih =>
    have hsegment := hsegments segment List.mem_cons_self
    have hrest := fun s hs => hsegments s (List.mem_cons_of_mem segment hs)
    have hcovers := htiles.covers_start List.mem_cons_self
    rw [List.map_cons] at htiles
    obtain ⟨hstart, hlt, hnext⟩ := htiles.of_cons_cons
    have hnextStart : segment.start = last.end_ := hnext.start_eq
    have hsegmentCovers : Covers Range.start Range.end_ segment.placed segment.start :=
      hnext.covers_start List.mem_cons_self
    rw [coalesceInto]
    split
    · rename_i hsame
      obtain ⟨rfl, hmeta⟩ := hsame
      exact ih (hlast.extend hsegment hnextStart (sameRangeMetadata_iff.mp hmeta)) hrest
        (tiles_extend htiles)
    · rename_i hdiff
      -- the same source would give the same contents
      have hne : source last.start ≠ source segment.start := by
        intro heq
        have hcontents := hsource _ _ heq
        rw [← (hlast _ hcovers).2, ← (hsegment _ hsegmentCovers).2] at hcontents
        rw [(hlast _ hcovers).1, (hsegment _ hsegmentCovers).1] at heq
        exact hdiff ⟨heq, sameRangeMetadata_iff.mpr hcontents⟩
      obtain ⟨ihtiles, ihmax, ihcontents⟩ := ih hsegment hrest hnext
      refine ⟨.cons hstart hlt ihtiles, ⟨?_, ?_⟩, ?_⟩
      · intro r hr key hkey
        rcases List.mem_cons.mp hr with rfl | hr
        · rw [(hlast key hkey).1, (hlast _ hcovers).1]
        · exact ihmax.mono r hr key hkey
      · refine List.isChain_cons.mpr ⟨fun r hr => ?_, ihmax.change⟩
        obtain ⟨rest, hrest⟩ := List.head?_eq_some_iff.mp hr
        have hr := (hrest ▸ ihtiles : Tiles Range.start Range.end_ last.end_ (r :: rest)).start_eq
        rwa [hr, ← hnextStart]
      · intro r hr key hkey
        rcases List.mem_cons.mp hr with rfl | hr
        · exact (hlast key hkey).2
        · exact ihcontents r hr key hkey

end Coalesce

namespace RangeMap
variable {A B R : RangeMap} {pick : Bytes → Range × RangeSource × Bool} {key key' : Bytes}

/-! ## The result -/

/-- The proposal of a choice. -/
def refOf (x : Range × RangeSource × Bool) : ProposalRef := proposalReference x.2.1 x.1

/-- The proposal that is chosen at the key has won a tie. -/
def Bumped (pick : Bytes → Range × RangeSource × Bool) (key : Bytes) : Prop :=
  ∃ key', (pick key').2.2 = true ∧ refOf (pick key') = refOf (pick key)

open Classical in
/-- What the merge puts at a key. -/
noncomputable def mergedAt (pick : Bytes → Range × RangeSource × Bool) (key : Bytes) :
    Counter × Bytes × List NodeID :=
  (if Bumped pick key then (pick key).1.generation + 1 else (pick key).1.generation,
    (pick key).1.proposalID, (pick key).1.replicas)

/-- What a merge computes, key by key. -/
structure Merges (pick : Bytes → Range × RangeSource × Bool) (R : RangeMap) : Prop where
  tiles : Tiles Range.start Range.end_ [] R.ranges
  maximal : Tiles.Maximal Range.start Range.end_ (fun key => (pick key).2.1) R.ranges
  contents : ∀ r ∈ R.ranges, ∀ key, Covers Range.start Range.end_ r key →
    r.metadata = mergedAt pick key

theorem mergedAt_congr (hpick : ∀ key, A.pickAt B key = some (pick key))
    (hsource : (pick key).2.1 = (pick key').2.1) : mergedAt pick key = mergedAt pick key' := by
  have hfst := fst_eq_of_source_eq (hpick key) (hpick key') hsource
  have hbumped : Bumped pick key ↔ Bumped pick key' := by
    rw [Bumped, Bumped, refOf, refOf, hfst, hsource]
  rw [mergedAt, mergedAt, hfst]
  by_cases h : Bumped pick key
  · rw [if_pos h, if_pos (hbumped.mp h)]
  · rw [if_neg h, if_neg (h ∘ hbumped.mpr)]

section
variable (hA : A.validate = .ok ()) (hB : B.validate = .ok ())
  (hpick : ∀ key, A.pickAt B key = some (pick key))
include hA hB hpick

theorem pick_eq_of_mem_cuts (hp : p ∈ cuts [] (mergeBoundaries A B ++ [[]]))
    (hkey : Covers Prod.fst Prod.snd p key) : pick key = pick p.1 := by
  have h := pickAt_eq_of_mem_cuts hA hB hp hkey
  rw [hpick, hpick] at h
  exact Option.some.inj h

theorem exists_mem_cuts (key : Bytes) : ∃ p ∈ cuts [] (mergeBoundaries A B ++ [[]]),
    Covers Prod.fst Prod.snd p key ∧ pick key = pick p.1 := by
  obtain ⟨p, hp, hcovers⟩ :=
    (tiles_cuts (pairwise_mergeBoundaries A B)).exists_covers (k := key) bot_le
  exact ⟨p, hp, hcovers, pick_eq_of_mem_cuts hA hB hpick hp hcovers⟩

omit hA hB hpick in
theorem bump_segmentOf (bumps : List ProposalRef) (p : Bytes × Bytes) :
    (bump bumps (segmentOf pick p).1).start = p.1 ∧
    (bump bumps (segmentOf pick p).1).end_ = p.2 ∧
    (bump bumps (segmentOf pick p).1).source = (pick p.1).2.1 := by
  rw [bump]
  split <;> exact ⟨rfl, rfl, rfl⟩

/-- The bumped segment of a piece. -/
theorem painted_bump (hp : p ∈ cuts [] (mergeBoundaries A B ++ [[]]))
    {bumps : List ProposalRef} (hbumps : ∀ key, refOf (pick key) ∈ bumps ↔ Bumped pick key) :
    Painted (fun key => (pick key).2.1) (mergedAt pick) (bump bumps (segmentOf pick p).1).placed
      (bump bumps (segmentOf pick p).1).source := by
  intro key hkey
  obtain ⟨hstart, hend, hsource⟩ := bump_segmentOf bumps p
  have hcovers : Covers Prod.fst Prod.snd p key := ⟨hstart ▸ hkey.1, hend ▸ hkey.2⟩
  have hpick := pick_eq_of_mem_cuts hA hB hpick hp hcovers
  refine ⟨by rw [hsource, ← hpick], ?_⟩
  have hiff : proposalReference (segmentOf pick p).1.source (segmentOf pick p).1.range_ ∈ bumps ↔
      Bumped pick key := by
    rw [← hbumps, hpick]
    rfl
  rw [mergedAt, bump]
  by_cases hbumped : Bumped pick key
  · rw [if_pos hbumped, if_pos (hiff.mpr hbumped), hpick]
    rfl
  · rw [if_neg hbumped, if_neg (hbumped ∘ hiff.mp), hpick]
    rfl

theorem mem_bumps : ref ∈ ((((cuts [] (mergeBoundaries A B ++ [[]])).map (segmentOf pick)).filter
      (·.2)).map fun s => proposalReference s.1.source s.1.range_) ↔
    ∃ key, (pick key).2.2 = true ∧ refOf (pick key) = ref := by
  simp only [List.mem_map, List.mem_filter]
  constructor
  · rintro ⟨s, ⟨⟨p, hp, rfl⟩, htied⟩, rfl⟩
    exact ⟨p.1, htied, rfl⟩
  · rintro ⟨key, htied, rfl⟩
    obtain ⟨p, hp, -, hpick⟩ := exists_mem_cuts hA hB hpick key
    rw [hpick] at htied ⊢
    exact ⟨_, ⟨⟨p, hp, rfl⟩, htied⟩, rfl⟩

theorem merges_coalesceSegments {bumps : List ProposalRef}
    (hbumps : ∀ key, refOf (pick key) ∈ bumps ↔ Bumped pick key) :
    Merges pick ⟨coalesceSegments (((cuts [] (mergeBoundaries A B ++ [[]])).map
      (segmentOf pick)).map fun s => bump bumps s.1)⟩ := by
  have htiles : Tiles Range.start Range.end_ [] ((cuts [] (mergeBoundaries A B ++ [[]])).map
      fun p => (bump bumps (segmentOf pick p).1).placed) :=
    (tiles_cuts (pairwise_mergeBoundaries A B)).map (fun p => (bump_segmentOf bumps p).1)
      fun p => (bump_segmentOf bumps p).2.1
  have hpainted := fun p hp => painted_bump hA hB hpick (p := p) hp hbumps
  rw [List.map_map]
  generalize cuts [] (mergeBoundaries A B ++ [[]]) = pieces at htiles hpainted
  cases pieces with
  | nil => cases htiles
  | cons p pieces =>
    have hrest : ∀ s ∈ pieces.map ((fun s => bump bumps s.1) ∘ segmentOf pick),
        Painted (fun key => (pick key).2.1) (mergedAt pick) s.placed s.source := by
      intro s hs
      obtain ⟨q, hq, rfl⟩ := List.mem_map.mp hs
      exact hpainted q (List.mem_cons_of_mem p hq)
    have htiles' : Tiles Range.start Range.end_ [] ((bump bumps (segmentOf pick p).1).placed ::
        (pieces.map ((fun s => bump bumps s.1) ∘ segmentOf pick)).map MergedSegment.placed) := by
      rw [List.map_map]
      exact htiles
    obtain ⟨h1, h2, h3⟩ := coalesceInto_spec (fun key key' => mergedAt_congr hpick)
      (hpainted p List.mem_cons_self) hrest htiles'
    exact ⟨h1, h2, h3⟩

omit hA hB hpick in
/-- A proposal that has won a tie can get a new generation. -/
theorem generation_ne_max_of_bumped (hstuck : ∀ key, ¬ Stuck pick key) (h : Bumped pick key) :
    (pick key).1.generation ≠ maxUint64 := by
  obtain ⟨key', htied, href⟩ := h
  intro hmax
  have hgen : (pick key').1.generation = (pick key).1.generation :=
    congrArg ProposalRef.generation href
  exact hstuck key' ⟨htied, hgen.trans hmax⟩

theorem sound_pick (key : Bytes) : (pick key).1.Sound := by
  obtain ⟨a, b, i, j, spec⟩ := pickSpec (hpick key)
  rcases spec.fst_eq with heq | heq
  · rw [heq]
    exact (validate_eq_ok_iff.mp hA).sound (List.mem_of_find?_eq_some spec.atA)
  · rw [heq]
    exact (validate_eq_ok_iff.mp hB).sound (List.mem_of_find?_eq_some spec.atB)

theorem sound_of_merges (hstuck : ∀ key, ¬ Stuck pick key) (h : Merges pick R)
    (hr : r ∈ R.ranges) : r.Sound := by
  have hmeta := h.contents r hr r.start (h.tiles.covers_start hr)
  have hsound := sound_pick hA hB hpick r.start
  simp only [Range.metadata, mergedAt, Prod.mk.injEq] at hmeta
  obtain ⟨hgen, hprop, hrep⟩ := hmeta
  refine ⟨?_, hprop ▸ hsound.proposalID, hrep ▸ hsound.replicas, h.tiles.start_lt_stop hr⟩
  rw [hgen]
  split
  · rename_i hbumped
    have hnext := val_succ (generation_ne_max_of_bumped hstuck hbumped)
    exact fun hzero => absurd (hzero ▸ hnext) (by simp)
  · exact hsound.generation

end

theorem chained_of_tiles (h : Tiles Range.start Range.end_ lo l) (hsound : ∀ r ∈ l, r.Sound) :
    Chained lo l := by
  induction h with
  | last hstart hend => exact .last (hsound _ List.mem_cons_self) hstart hend
  | cons hstart _ _ ih =>
    exact .cons (hsound _ List.mem_cons_self) hstart
      (ih fun r hr => hsound r (List.mem_cons_of_mem _ hr))

/-- What `Merge` does with two validated maps. -/
theorem merge_spec (hA : A.validate = .ok ()) (hB : B.validate = .ok ())
    (hpick : ∀ key, A.pickAt B key = some (pick key)) :
    (∃ key, Stuck pick key) ∧ A.merge B = .error .tieAtMaximum ∨
    (∀ key, ¬ Stuck pick key) ∧ ∃ R, A.merge B = .ok (R, decide (A ≠ R)) ∧
      R.validate = .ok () ∧ Merges pick R := by
  rw [merge, hA, hB]
  simp only
  rcases mergeLoop_spec hpick [] (mergeBoundaries A B ++ [[]]) with
    ⟨⟨p, -, hstuck⟩, hloop⟩ | ⟨hgood, hloop⟩
  · rw [hloop]
    exact .inl ⟨⟨p.1, hstuck⟩, rfl⟩
  · have hstuck : ∀ key, ¬ Stuck pick key := by
      intro key h
      obtain ⟨p, hp, -, heq⟩ := exists_mem_cuts hA hB hpick key
      rw [Stuck, heq] at h
      exact hgood p hp h
    have hmerges := merges_coalesceSegments hA hB hpick fun key => mem_bumps hA hB hpick
    have hvalid := validate_eq_ok_iff.mpr (chained_of_tiles hmerges.tiles fun r hr =>
      sound_of_merges hA hB hpick hstuck hmerges hr)
    refine .inr ⟨hstuck, _, ?_, hvalid, hmerges⟩
    rw [hloop]
    simp only [bind, Except.bind]
    rw [hvalid]
    rfl

theorem merges_of_merge (hA : A.validate = .ok ()) (hB : B.validate = .ok ())
    (hpick : ∀ key, A.pickAt B key = some (pick key)) (h : A.merge B = .ok (R, changed)) :
    (∀ key, ¬ Stuck pick key) ∧ Merges pick R ∧ changed = decide (A ≠ R) := by
  rcases merge_spec hA hB hpick with ⟨-, hmerge⟩ | ⟨hstuck, R', hmerge, -, hR⟩
  · rw [hmerge] at h
    cases h
  · rw [hmerge] at h
    cases h
    exact ⟨hstuck, hR, rfl⟩

theorem validate_of_merge (h : A.merge B = .ok x) : A.validate = .ok () ∧ B.validate = .ok () := by
  rw [merge] at h
  cases hA : A.validate with
  | error err => rw [hA] at h; cases h
  | ok =>
    cases hB : B.validate with
    | error err => rw [hA, hB] at h; cases h
    | ok => exact ⟨rfl, rfl⟩

/-! ## Generations grow -/

theorem rangeAt_eq_some_iff (h : Tiles Range.start Range.end_ [] R.ranges) :
    R.rangeAt key = some r ↔ r ∈ R.ranges ∧ Covers Range.start Range.end_ r key := by
  rw [(partitions_of_tiles h).rangeAt_eq_some_iff, Range.contains_iff]

theorem exists_rangeAt (h : Tiles Range.start Range.end_ [] R.ranges) (key : Bytes) :
    ∃ r, R.rangeAt key = some r := by
  obtain ⟨r, hr⟩ := h.exists_covers (k := key) bot_le
  exact ⟨r, (rangeAt_eq_some_iff h).mpr hr⟩

theorem PickSpec.generation_eq (h : PickSpec A B key x a b i j) :
    x.1.generation = max a.generation b.generation := by
  obtain ⟨-, -, -, -, hpicked⟩ := h
  cases hpicked with
  | newer h => exact (max_eq_left h.le).symm
  | older h => exact (max_eq_right h.le).symm
  | same h => rw [h, max_self]
  | wins h => rw [h.1, max_self]
  | loses h => rw [h.1, max_self]

/-- The generation of the result at a key. -/
theorem Merges.generation (h : Merges pick R) (hstuck : ∀ key, ¬ Stuck pick key)
    (hr : R.rangeAt key = some r) :
    Bumped pick key ∧ r.generation.val = (pick key).1.generation.val + 1 ∨
    ¬ Bumped pick key ∧ r.generation = (pick key).1.generation := by
  rw [rangeAt_eq_some_iff h.tiles] at hr
  have hmeta : r.generation = (mergedAt pick key).1 := congrArg Prod.fst (h.contents r hr.1 key hr.2)
  rw [hmeta, mergedAt]
  by_cases hbumped : Bumped pick key
  · rw [if_pos hbumped]
    exact .inl ⟨hbumped, val_succ (generation_ne_max_of_bumped hstuck hbumped)⟩
  · rw [if_neg hbumped]
    exact .inr ⟨hbumped, rfl⟩

theorem Merges.fields (h : Merges pick R) (hr : R.rangeAt key = some r) :
    r.proposalID = (pick key).1.proposalID ∧ r.replicas = (pick key).1.replicas := by
  rw [rangeAt_eq_some_iff h.tiles] at hr
  exact Prod.mk.inj (congrArg Prod.snd (h.contents r hr.1 key hr.2))

/-- A result in which the current map is chosen throughout and nothing is bumped. -/
theorem Merges.eq_current (h : Merges pick R) (hA : Tiles Range.start Range.end_ [] A.ranges)
    (hpick : ∀ key, A.pickAt B key = some (pick key))
    (hcurrent : ∀ key, (pick key).2.1.side = .current ∧ A.rangeAt key = some (pick key).1 ∧
      ¬ Bumped pick key) : R = A := by
  have hat : ∀ r ∈ A.ranges, ∀ key, Covers Range.start Range.end_ r key → (pick key).1 = r := by
    intro r hr key hkey
    have h := (rangeAt_eq_some_iff hA).mpr ⟨hr, hkey⟩
    rw [(hcurrent key).2.1] at h
    exact Option.some.inj h
  have hranges : R.ranges = A.ranges := by
    refine Tiles.eq_of_maximal ?_ h.tiles h.maximal hA (hA.maximal_of_colour_eq hat) ?_
    · intro key key'
      refine ⟨fst_eq_of_source_eq (hpick key) (hpick key'), fun hfst => ?_⟩
      refine source_eq_of_fst_eq (hpick key) (hpick key') ?_
        ((hcurrent key).1.trans (hcurrent key').1.symm) hfst
      rw [(hcurrent key).1]
      exact hA.nodup
    · intro r hr a ha hstart hend
      have hmeta := h.contents r hr r.start (h.tiles.covers_start hr)
      have ha' := hat a ha a.start (hA.covers_start ha)
      rw [mergedAt, if_neg (hcurrent r.start).2.2, hstart, ha'] at hmeta
      exact Range.ext_metadata hstart hend hmeta
  obtain ⟨ranges⟩ := R
  obtain ⟨ranges'⟩ := A
  exact congrArg RangeMap.mk hranges

theorem bumped_of_tied (h : (pick key).2.2 = true) : Bumped pick key := ⟨key, h, rfl⟩

/-- Where the generation does not grow the current range is chosen and not bumped. -/
theorem PickSpec.current_of_not_grown {r : Range} (spec : PickSpec A B key (pick key) a b i j)
    (hgen : Bumped pick key ∧ r.generation.val = (pick key).1.generation.val + 1 ∨
      ¬ Bumped pick key ∧ r.generation = (pick key).1.generation)
    (hgrown : ¬ a.generation < r.generation) :
    (pick key).2.1.side = .current ∧ A.rangeAt key = some (pick key).1 ∧ ¬ Bumped pick key := by
  have hmax := spec.generation_eq
  have hle : a.generation ≤ (pick key).1.generation := hmax ▸ le_max_left _ _
  rcases hgen with ⟨-, hval⟩ | ⟨hbumped, heq⟩
  · exact absurd (Fin.lt_def.mpr (by have := Fin.le_def.mp hle; omega)) hgrown
  · have htied : (pick key).2.2 ≠ true := fun h => hbumped (bumped_of_tied h)
    rw [heq] at hgrown
    obtain ⟨hatA, -, -, -, hpicked⟩ := spec
    rw [← and_assoc]
    refine ⟨?_, hbumped⟩
    revert hpicked htied hgrown
    generalize pick key = x
    intro hgrown htied hpicked
    cases hpicked with
    | newer | same | wins => exact ⟨rfl, hatA⟩
    | older h => exact absurd h hgrown
    | loses => exact absurd rfl htied

/-- If the current map is a partition, the result differs from it only where the generation grew. -/
theorem Merges.eq_of_not_grown (h : Merges pick R) (hstuck : ∀ key, ¬ Stuck pick key)
    (hA : Tiles Range.start Range.end_ [] A.ranges)
    (hpick : ∀ key, A.pickAt B key = some (pick key))
    (hgrown : ∀ key a r, A.rangeAt key = some a → R.rangeAt key = some r →
      ¬ a.generation < r.generation) : R = A := by
  refine h.eq_current hA hpick fun key => ?_
  obtain ⟨a, b, i, j, spec⟩ := pickSpec (hpick key)
  obtain ⟨r, hr⟩ := exists_rangeAt h.tiles key
  exact spec.current_of_not_grown (h.generation hstuck hr) (hgrown key a r spec.atA hr)

/-- `Merge` fails only at a tie that cannot be resolved. Otherwise its result is a partition that
has at each key the contents of a side with the highest generation, with this generation or the
next, and it reports a change exactly if the generation has grown at some key. -/
theorem merge_exact (hA : A.validate = .ok ()) (hB : B.validate = .ok ()) :
    (∀ err, A.merge B = .error err → ∃ key a b, A.rangeAt key = some a ∧ B.rangeAt key = some b ∧
      a ≠ b ∧ a.generation = maxUint64 ∧ b.generation = maxUint64) ∧
    ∀ R changed, A.merge B = .ok (R, changed) →
      (∀ key, R.ranges.countP (·.contains key) = 1) ∧
      (∀ key, ∃ a b r, A.rangeAt key = some a ∧ B.rangeAt key = some b ∧ R.rangeAt key = some r ∧
        (b.generation ≤ a.generation ∧ r.replicas = a.replicas ∧ r.proposalID = a.proposalID ∨
          a.generation ≤ b.generation ∧ r.replicas = b.replicas ∧ r.proposalID = b.proposalID) ∧
        (r.generation.val = max a.generation.val b.generation.val ∨
          r.generation.val = max a.generation.val b.generation.val + 1)) ∧
      (A.Partitions →
        (changed = true ↔ ∃ key a r, A.rangeAt key = some a ∧ R.rangeAt key = some r ∧
          a.generation < r.generation) ∧
        (changed = false → R = A)) := by
  obtain ⟨pick, hpick⟩ := exists_pick hA hB
  rcases merge_spec hA hB hpick with ⟨⟨key, htied, hmax⟩, hmerge⟩ | ⟨hstuck, R, hmerge, -, hR⟩
  · refine ⟨fun err _ => ?_, fun R changed h => ?_⟩
    · obtain ⟨a, b, i, j, spec⟩ := pickSpec (hpick key)
      have hpicked := spec.picked
      refine ⟨key, a, b, spec.atA, spec.atB, ?_⟩
      revert hpicked hmax htied
      generalize pick key = x
      intro htied hmax hpicked
      cases hpicked with
      | newer | older | same => cases htied
      | wins h => exact ⟨h.2.1, hmax, h.1 ▸ hmax⟩
      | loses h => exact ⟨h.2.1.symm, h.1 ▸ hmax, hmax⟩
    · rw [hmerge] at h
      cases h
  · refine ⟨fun err h => ?_, fun R' changed h => ?_⟩
    · rw [hmerge] at h
      cases h
    rw [hmerge] at h
    cases h
    refine ⟨partitions_of_tiles hR.tiles, fun key => ?_, fun hpart => ?_⟩
    · obtain ⟨a, b, i, j, spec⟩ := pickSpec (hpick key)
      obtain ⟨r, hr⟩ := exists_rangeAt hR.tiles key
      obtain ⟨hprop, hrep⟩ := hR.fields hr
      have hmax : (pick key).1.generation.val = max a.generation.val b.generation.val := by
        rw [spec.generation_eq]
        rfl
      refine ⟨a, b, r, spec.atA, spec.atB, hr, ?_, ?_⟩
      · rcases spec.fst_eq with heq | heq
        · rw [heq] at hprop hrep hmax
          exact .inl ⟨Fin.le_def.mpr (by omega), hrep, hprop⟩
        · rw [heq] at hprop hrep hmax
          exact .inr ⟨Fin.le_def.mpr (by omega), hrep, hprop⟩
      · rcases hR.generation hstuck hr with ⟨-, hval⟩ | ⟨-, heq⟩
        · exact .inr (hval.trans (congrArg (· + 1) hmax))
        · exact .inl (heq ▸ hmax)
    · have htiles := tiles_of_partitions hA hpart
      refine ⟨?_, fun h => (not_not.mp (of_decide_eq_false h)).symm⟩
      rw [decide_eq_true_eq]
      constructor
      · intro hne
        by_contra hgrown
        exact hne (hR.eq_of_not_grown hstuck htiles hpick fun key a r ha hr hlt =>
          hgrown ⟨key, a, r, ha, hr, hlt⟩).symm
      · rintro ⟨key, a, r, ha, hr, hlt⟩ rfl
        rw [ha] at hr
        cases hr
        exact lt_irrefl _ hlt

/-- A split of the only range, at a later generation, is taken over. -/
theorem merge_exact_split :
    let A : RangeMap := ⟨[⟨[], [], [[97]], 1, [112]⟩]⟩
    let B : RangeMap := ⟨[⟨[], [109], [[97]], 2, [113]⟩, ⟨[109], [], [[98]], 2, [113]⟩]⟩
    A.merge B = .ok (B, true) ∧ (∀ key, B.ranges.countP (·.contains key) = 1) ∧
      ∃ key a r, A.rangeAt key = some a ∧ B.rangeAt key = some r ∧ a.generation < r.generation := by
  intro A B
  have hmerge : A.merge B = .ok (B, true) := by decide +kernel
  obtain ⟨hpart, -, hchanged⟩ := (merge_exact (A := A) (B := B) (by decide) (by decide)).2 B true hmerge
  exact ⟨hmerge, hpart, ((hchanged (partitions_of_tiles (.last rfl rfl))).1.mp rfl)⟩

end RangeMap
end ChudDB.Cluster
