import ChudDB.Cluster.RangeMapMerge

/-! # Exchanging range maps

Nodes pull range maps from one another and merge them (`Table.Merge`, `syncer.go`). The choice of a
range is the same in both directions of a merge, but a range that both maps hold counts as one of
the current side. So it is bumped by a tie that the current side wins elsewhere and not by one that
the incoming side wins, and the two directions of a merge can differ in the generation of such a
range (`merge_comm_iff`, `merge_not_comm`). They still agree in everything else, and a second
exchange meets no tie (`second_exchange_agrees`). -/

namespace ChudDB.Cluster
open Lib

namespace RangeMap
variable {A B R R' X Y Z : RangeMap} {pick pick' : Bytes → Range × RangeSource × Bool}
  {key key' : Bytes} {a b r x y : Range}

/-- `Table.Merge`: the map that the table then holds, and what it returns. -/
def tableMerge (m incoming : RangeMap) : RangeMap × Except RangeMapError Bool :=
  match m.merge incoming with
  | .ok (merged, true) => (merged, .ok true)
  | .ok (_, false) => (m, .ok false)
  | .error err => (m, .error err)

/-! ## Maps of the same shape -/

/-- A range without its generation. -/
def shape (r : Range) : Range := { r with generation := 0 }

theorem eq_of_shape_eq (h : shape x = shape y) (hgen : x.generation = y.generation) : x = y := by
  obtain ⟨start, end_, replicas, generation, proposalID⟩ := x
  obtain ⟨start', end_', replicas', generation', proposalID'⟩ := y
  simp only [shape, Range.mk.injEq] at h
  obtain ⟨rfl, rfl, rfl, -, rfl⟩ := h
  cases hgen
  rfl

/-- The two maps differ only in the generations. -/
def SameShape (X Y : RangeMap) : Prop := X.ranges.map shape = Y.ranges.map shape

theorem SameShape.symm (h : SameShape X Y) : SameShape Y X := Eq.symm h

theorem SameShape.trans (h : SameShape X Y) (h' : SameShape Y Z) : SameShape X Z := Eq.trans h h'

theorem SameShape.rangeAt (h : SameShape X Y) (hX : Tiles Range.start Range.end_ [] X.ranges)
    (hY : Tiles Range.start Range.end_ [] Y.ranges) (hx : X.rangeAt key = some x) :
    ∃ y, Y.rangeAt key = some y ∧ shape x = shape y := by
  obtain ⟨hmem, hcovers⟩ := (rangeAt_eq_some_iff hX).mp hx
  obtain ⟨y, hy, hshape⟩ := List.mem_map.mp (h ▸ List.mem_map_of_mem hmem)
  refine ⟨y, (rangeAt_eq_some_iff hY).mpr ⟨hy, ?_⟩, hshape.symm⟩
  have hstart : (shape y).start = (shape x).start := by rw [hshape]
  have hend : (shape y).end_ = (shape x).end_ := by rw [hshape]
  change y.start = x.start at hstart
  change y.end_ = x.end_ at hend
  rw [Covers, hstart, hend]
  exact hcovers

theorem eq_of_rangeAt_eq (hX : Tiles Range.start Range.end_ [] X.ranges)
    (hY : Tiles Range.start Range.end_ [] Y.ranges) (h : ∀ key, X.rangeAt key = Y.rangeAt key) :
    X = Y := by
  have hmem : ∀ {X Y : RangeMap}, Tiles Range.start Range.end_ [] X.ranges →
      Tiles Range.start Range.end_ [] Y.ranges → (∀ key, X.rangeAt key = Y.rangeAt key) →
      ∀ r ∈ X.ranges, r ∈ Y.ranges := by
    intro X Y hX hY h r hr
    have hat := (rangeAt_eq_some_iff hX).mpr ⟨hr, hX.covers_start hr⟩
    rw [h] at hat
    exact ((rangeAt_eq_some_iff hY).mp hat).1
  obtain ⟨X⟩ := X
  obtain ⟨Y⟩ := Y
  exact congrArg mk (hX.ext hY fun r => ⟨hmem hX hY h r, hmem hY hX (fun key => (h key).symm) r⟩)

theorem SameShape.eq (h : SameShape X Y) (hX : Tiles Range.start Range.end_ [] X.ranges)
    (hY : Tiles Range.start Range.end_ [] Y.ranges)
    (hgen : ∀ key x y, X.rangeAt key = some x → Y.rangeAt key = some y →
      x.generation = y.generation) : X = Y := by
  refine eq_of_rangeAt_eq hX hY fun key => ?_
  obtain ⟨x, hx⟩ := exists_rangeAt hX key
  obtain ⟨y, hy, hshape⟩ := h.rangeAt hX hY hx
  rw [hx, hy, eq_of_shape_eq hshape (hgen key x y hx hy)]

theorem Merges.tiles_shape (h : Merges pick R) :
    Tiles Range.start Range.end_ [] (R.ranges.map shape) :=
  h.tiles.map (fun _ => rfl) fun _ => rfl

theorem Merges.maximal_shape (h : Merges pick R) :
    Tiles.Maximal Range.start Range.end_ (fun key => (pick key).2.1) (R.ranges.map shape) :=
  h.maximal.map (fun _ => rfl) fun _ => rfl

/-- Two results with the same changes of source and the same fields have the same shape. -/
theorem Merges.sameShape (h : Merges pick R) (h' : Merges pick' R')
    (hsource : ∀ key key', (pick key).2.1 = (pick key').2.1 ↔ (pick' key).2.1 = (pick' key').2.1)
    (hprop : ∀ key, (pick key).1.proposalID = (pick' key).1.proposalID)
    (hrep : ∀ key, (pick key).1.replicas = (pick' key).1.replicas) : SameShape R R' := by
  refine Tiles.eq_of_maximal hsource h.tiles_shape h.maximal_shape h'.tiles_shape
    h'.maximal_shape ?_
  intro s hs s' hs' hstart hend
  obtain ⟨r, hr, rfl⟩ := List.mem_map.mp hs
  obtain ⟨r', hr', rfl⟩ := List.mem_map.mp hs'
  have hat := (rangeAt_eq_some_iff h.tiles).mpr ⟨hr, h.tiles.covers_start hr⟩
  have hat' := (rangeAt_eq_some_iff h'.tiles).mpr ⟨hr', h'.tiles.covers_start hr'⟩
  change r.start = r'.start at hstart
  change r.end_ = r'.end_ at hend
  obtain ⟨hp, hq⟩ := h.fields hat
  obtain ⟨hp', hq'⟩ := h'.fields hat'
  rw [hprop, hstart, ← hp'] at hp
  rw [hrep, hstart, ← hq'] at hq
  simp only [shape, hstart, hend, hp, hq]

/-! ## Both directions of a merge -/

section Choice
variable {c c' : Range × RangeSource × Bool}

theorem PickSpec.current (h : PickSpec A B key c a b i j) (hside : c.2.1.side = .current) :
    c.1 = a := by
  obtain ⟨-, -, -, -, hpicked⟩ := h
  cases hpicked with
  | newer | same | wins => rfl
  | older | loses => cases hside

/-- Where the incoming range is chosen the two ranges differ. -/
theorem PickSpec.incoming (h : PickSpec A B key c a b i j) (hside : c.2.1.side = .incoming) :
    c.1 = b ∧ a ≠ b := by
  obtain ⟨-, -, -, -, hpicked⟩ := h
  cases hpicked with
  | newer | same | wins => cases hside
  | older h =>
    refine ⟨rfl, ?_⟩
    rintro rfl
    exact lt_irrefl _ h
  | loses h => exact ⟨rfl, h.2.1.symm⟩

/-- One range is not chosen from both sides. -/
theorem not_current_and_incoming (hA : Tiles Range.start Range.end_ [] A.ranges)
    (hB : Tiles Range.start Range.end_ [] B.ranges) (h : A.pickAt B key = some c)
    (h' : A.pickAt B key' = some c') (hside : c.2.1.side = .current)
    (hside' : c'.2.1.side = .incoming) : c.1 ≠ c'.1 := by
  obtain ⟨a, b, i, j, spec⟩ := pickSpec h
  obtain ⟨a', b', i', j', spec'⟩ := pickSpec h'
  obtain ⟨hb', hne⟩ := spec'.incoming hside'
  rw [spec.current hside, hb']
  rintro rfl
  -- the range of `A` covers the other key as well
  have hcovers := ((rangeAt_eq_some_iff hB).mp spec'.atB).2
  have hat := (rangeAt_eq_some_iff hA).mpr ⟨((rangeAt_eq_some_iff hA).mp spec.atA).1, hcovers⟩
  rw [spec'.atA] at hat
  exact hne (Option.some.inj hat)

theorem source_eq_iff (hA : Tiles Range.start Range.end_ [] A.ranges)
    (hB : Tiles Range.start Range.end_ [] B.ranges) (h : A.pickAt B key = some c)
    (h' : A.pickAt B key' = some c') : c.2.1 = c'.2.1 ↔ c.1 = c'.1 := by
  refine ⟨fst_eq_of_source_eq h h', fun hfst => ?_⟩
  have hnodup : (sideOf A B c.2.1.side).ranges.Nodup := by
    cases c.2.1.side with
    | current => exact hA.nodup
    | incoming => exact hB.nodup
  refine source_eq_of_fst_eq h h' hnodup ?_ hfst
  cases hside : c.2.1.side with
  | current =>
    cases hside' : c'.2.1.side with
    | current => rfl
    | incoming => exact absurd hfst (not_current_and_incoming hA hB h h' hside hside')
  | incoming =>
    cases hside' : c'.2.1.side with
    | current => exact absurd hfst.symm (not_current_and_incoming hA hB h' h hside' hside)
    | incoming => rfl

end Choice

def flip : Side → Side
  | .current => .incoming
  | .incoming => .current

/-- The choices of the two directions of a merge at a key. -/
structure Mirror (c c' : Range × RangeSource × Bool) (a b : Range) : Prop where
  range : c'.1 = c.1
  tied : c'.2.2 = c.2.2
  same : a = b → c.1 = a ∧ c.2.1.side = .current ∧ c'.2.1.side = .current ∧ c.2.2 = false
  side : a ≠ b → c'.2.1.side = flip c.2.1.side

theorem mirror {c c' : Range × RangeSource × Bool} (h : PickSpec A B key c a b i j)
    (h' : B.pickAt A key = some c') : Mirror c c' a b := by
  obtain ⟨b', a', j', i', hatB, hatA, -, -, hpicked'⟩ := pickSpec h'
  rw [h.atA] at hatA
  rw [h.atB] at hatB
  cases hatA
  cases hatB
  obtain ⟨-, -, -, -, hpicked⟩ := h
  have heq : ∀ {c}, Picked b a j' i' c → c' = c := fun h =>
    hpicked'.eq_pickRange.trans h.eq_pickRange.symm
  cases hpicked with
  | newer h =>
    cases heq (.older h)
    exact ⟨rfl, rfl, fun heq => absurd (heq ▸ h) (lt_irrefl _), fun _ => rfl⟩
  | older h =>
    cases heq (.newer h)
    exact ⟨rfl, rfl, fun heq => absurd (heq ▸ h) (lt_irrefl _), fun _ => rfl⟩
  | same h =>
    cases heq (.same h.symm)
    exact ⟨h.symm, rfl, fun _ => ⟨rfl, rfl, rfl, rfl⟩, fun hne => absurd h hne⟩
  | wins h =>
    cases heq (.loses h)
    exact ⟨rfl, rfl, fun heq => absurd heq h.2.1, fun _ => rfl⟩
  | loses h =>
    cases heq (.wins h)
    exact ⟨rfl, rfl, fun heq => absurd heq.symm h.2.1, fun _ => rfl⟩

/-- Two validated partitions with the choices of both directions of their merge. -/
structure Exchange (A B : RangeMap) (pick pick' : Bytes → Range × RangeSource × Bool) : Prop where
  validA : A.validate = .ok ()
  validB : B.validate = .ok ()
  tilesA : Tiles Range.start Range.end_ [] A.ranges
  tilesB : Tiles Range.start Range.end_ [] B.ranges
  pick : ∀ key, A.pickAt B key = some (pick key)
  pick' : ∀ key, B.pickAt A key = some (pick' key)

theorem exists_exchange (hA : A.validate = .ok ()) (hA' : A.Partitions)
    (hB : B.validate = .ok ()) (hB' : B.Partitions) : ∃ pick pick', Exchange A B pick pick' := by
  obtain ⟨pick, hpick⟩ := exists_pick hA hB
  obtain ⟨pick', hpick'⟩ := exists_pick hB hA
  exact ⟨pick, pick', hA, hB, tiles_of_partitions hA hA', tiles_of_partitions hB hB', hpick, hpick'⟩

/-- A tie that the range of the first map wins, for the proposal and the generation of `r`. -/
def WinsTie (A B : RangeMap) (r : Range) : Prop :=
  ∃ key a b, A.rangeAt key = some a ∧ B.rangeAt key = some b ∧ Prevails a b ∧
    a.proposalID = r.proposalID ∧ a.generation = r.generation

namespace Exchange
variable (h : Exchange A B pick pick')
include h

theorem symm : Exchange B A pick' pick :=
  ⟨h.validB, h.validA, h.tilesB, h.tilesA, h.pick', h.pick⟩

theorem exists_mirror (key : Bytes) :
    ∃ a b i j, PickSpec A B key (pick key) a b i j ∧ Mirror (pick key) (pick' key) a b := by
  obtain ⟨a, b, i, j, spec⟩ := pickSpec (h.pick key)
  exact ⟨a, b, i, j, spec, mirror spec (h.pick' key)⟩

theorem range_eq (key : Bytes) : (pick' key).1 = (pick key).1 := by
  obtain ⟨a, b, i, j, -, m⟩ := h.exists_mirror key
  exact m.range

theorem refOf_eq_iff : refOf (pick key) = refOf (pick key') ↔
    (pick key).2.1.side = (pick key').2.1.side ∧
    (pick key).1.proposalID = (pick key').1.proposalID ∧
    (pick key).1.generation = (pick key').1.generation := by
  have hne := (sound_pick h.validA h.validB h.pick key).proposalID
  have hne' := (sound_pick h.validA h.validB h.pick key').proposalID
  rw [refOf, refOf, proposalReference, proposalReference, if_neg hne, if_neg hne',
    ProposalRef.mk.injEq]
  tauto

/-- The two directions agree about ranges that the maps do not share. -/
theorem bumped_of_bumped (spec : PickSpec A B key (pick key) a b i j) (hne : a ≠ b)
    (hbumped : Bumped pick key) : Bumped pick' key := by
  obtain ⟨key', htied, href⟩ := hbumped
  obtain ⟨a', b', i', j', -, m'⟩ := h.exists_mirror key'
  have m := mirror spec (h.pick' key)
  have hne' : a' ≠ b' := fun heq => by
    rw [(m'.same heq).2.2.2] at htied
    cases htied
  refine ⟨key', m'.tied.trans htied, h.symm.refOf_eq_iff.mpr ?_⟩
  obtain ⟨hside, hprop, hgen⟩ := h.refOf_eq_iff.mp href
  rw [m'.side hne', m.side hne, m'.range, m.range, hside]
  exact ⟨rfl, hprop, hgen⟩

/-- A range that both maps hold is bumped if its proposal wins a tie for the current side. -/
theorem bumped_iff_winsTie (hA : A.rangeAt key = some r) (hB : B.rangeAt key = some r) :
    Bumped pick key ↔ WinsTie A B r := by
  obtain ⟨a, b, i, j, spec, m⟩ := h.exists_mirror key
  cases hA.symm.trans spec.atA
  cases hB.symm.trans spec.atB
  obtain ⟨hfst, hside, -, -⟩ := m.same rfl
  constructor
  · rintro ⟨key', htied, href⟩
    obtain ⟨hside', hprop, hgen⟩ := h.refOf_eq_iff.mp href
    rw [hside] at hside'
    rw [hfst] at hprop hgen
    obtain ⟨a', b', i', j', spec'⟩ := pickSpec (h.pick key')
    have hpicked := spec'.picked
    refine ⟨key', a', b', spec'.atA, spec'.atB, ?_⟩
    rw [spec'.current hside'] at hprop hgen
    refine ⟨?_, hprop, hgen⟩
    revert hpicked htied hside'
    generalize pick key' = c
    intro htied hside' hpicked
    cases hpicked with
    | newer | older | same => cases htied
    | wins h => exact h
    | loses => cases hside'
  · rintro ⟨key', a', b', hA', hB', hprevails, hprop, hgen⟩
    obtain ⟨a'', b'', i', j', spec'⟩ := pickSpec (h.pick key')
    cases hA'.symm.trans spec'.atA
    cases hB'.symm.trans spec'.atB
    have heq : pick key' = (a', ⟨.current, i'⟩, true) :=
      spec'.picked.eq_pickRange.trans (Picked.wins hprevails).eq_pickRange.symm
    refine ⟨key', by rw [heq], h.refOf_eq_iff.mpr ?_⟩
    rw [heq, hside, hfst]
    exact ⟨rfl, hprop, hgen⟩

/-- The two directions give maps of the same shape. -/
theorem sameShape (hR : Merges pick R) (hR' : Merges pick' R') : SameShape R R' := by
  refine hR.sameShape hR' (fun key key' => ?_) (fun key => ?_) fun key => ?_
  · rw [source_eq_iff h.tilesA h.tilesB (h.pick key) (h.pick key'),
      source_eq_iff h.tilesB h.tilesA (h.pick' key) (h.pick' key'), h.range_eq, h.range_eq]
  · rw [h.range_eq]
  · rw [h.range_eq]

theorem stuck_iff (key : Bytes) : Stuck pick' key ↔ Stuck pick key := by
  obtain ⟨a, b, i, j, -, m⟩ := h.exists_mirror key
  rw [Stuck, Stuck, m.tied, m.range]

/-- The generations of the two results agree where the bumps do. -/
theorem generation_eq_iff (hstuck : ∀ key, ¬ Stuck pick key) (hR : Merges pick R)
    (hR' : Merges pick' R') (hx : R.rangeAt key = some x) (hy : R'.rangeAt key = some y) :
    x.generation = y.generation ↔ (Bumped pick key ↔ Bumped pick' key) := by
  have hx := hR.generation hstuck hx
  have hy := hR'.generation (fun key => (h.stuck_iff key).not.mpr (hstuck key)) hy
  rw [h.range_eq] at hy
  rw [Fin.ext_iff]
  rcases hx with ⟨hbumped, hx⟩ | ⟨hbumped, hx⟩ <;> rcases hy with ⟨hbumped', hy⟩ | ⟨hbumped', hy⟩ <;>
    simp only [hbumped, hbumped', hx, hy] <;> simp

end Exchange

/-- Both directions of a merge return the same map if no proposal of a range that both maps hold
wins ties for one side only. -/
theorem merge_comm_iff (hA : A.validate = .ok ()) (hA' : A.Partitions) (hB : B.validate = .ok ())
    (hB' : B.Partitions) (hAB : A.merge B = .ok (R, changed)) (hBA : B.merge A = .ok (R', changed')) :
    R = R' ↔ ∀ r ∈ A.ranges, r ∈ B.ranges → (WinsTie A B r ↔ WinsTie B A r) := by
  obtain ⟨pick, pick', h⟩ := exists_exchange hA hA' hB hB'
  obtain ⟨hstuck, hR, -⟩ := merges_of_merge hA hB h.pick hAB
  obtain ⟨-, hR', -⟩ := merges_of_merge hB hA h.pick' hBA
  constructor
  · rintro rfl r hr hr'
    have hatA := (rangeAt_eq_some_iff h.tilesA).mpr ⟨hr, h.tilesA.covers_start hr⟩
    have hatB := (rangeAt_eq_some_iff h.tilesB).mpr ⟨hr', h.tilesB.covers_start hr'⟩
    obtain ⟨x, hx⟩ := exists_rangeAt hR.tiles r.start
    rw [← h.bumped_iff_winsTie hatA hatB, ← h.symm.bumped_iff_winsTie hatB hatA]
    exact (h.generation_eq_iff hstuck hR hR' hx hx).mp rfl
  · intro hties
    refine (h.sameShape hR hR').eq hR.tiles hR'.tiles fun key x y hx hy => ?_
    rw [h.generation_eq_iff hstuck hR hR' hx hy]
    obtain ⟨a, b, i, j, spec, m⟩ := h.exists_mirror key
    obtain ⟨a', b', i', j', spec'⟩ := pickSpec (h.pick' key)
    cases spec.atA.symm.trans spec'.atB
    cases spec.atB.symm.trans spec'.atA
    by_cases hne : a = b
    · subst hne
      rw [h.bumped_iff_winsTie spec.atA spec.atB, h.symm.bumped_iff_winsTie spec.atB spec.atA]
      exact hties a ((rangeAt_eq_some_iff h.tilesA).mp spec.atA).1
        ((rangeAt_eq_some_iff h.tilesB).mp spec.atB).1
    · exact ⟨h.bumped_of_bumped spec hne, h.symm.bumped_of_bumped spec' (Ne.symm hne)⟩

theorem merge_comm_iff_disjoint :
    let A : RangeMap := ⟨[⟨[], [109], [[97]], 2, [112]⟩, ⟨[109], [], [[97]], 2, [112]⟩]⟩
    let B : RangeMap := ⟨[⟨[], [], [[98]], 2, [113]⟩]⟩
    ∃ R c c', A.merge B = .ok (R, c) ∧ B.merge A = .ok (R, c') := by
  intro A B
  have hA : A.Partitions := partitions_of_tiles (.cons rfl (by decide) (.last rfl rfl))
  have hB : B.Partitions := partitions_of_tiles (.last rfl rfl)
  obtain ⟨⟨R, c⟩, hAB⟩ : ∃ x, A.merge B = .ok x := ⟨_, rfl⟩
  obtain ⟨⟨R', c'⟩, hBA⟩ : ∃ x, B.merge A = .ok x := ⟨_, rfl⟩
  have heq := (merge_comm_iff (by decide) hA (by decide) hB hAB hBA).mpr
    fun r hr hr' => absurd hr' (by revert r; decide)
  exact ⟨R, c, c', hAB, heq ▸ hBA⟩

/-- Both maps hold the first range. In one direction it is bumped with the second range of its
proposal, which wins its tie; in the other direction it is not. -/
theorem merge_not_comm :
    let A : RangeMap := ⟨[⟨[], [109], [[97]], 2, [112]⟩, ⟨[109], [], [[97]], 2, [112]⟩]⟩
    let B : RangeMap := ⟨[⟨[], [109], [[97]], 2, [112]⟩, ⟨[109], [], [[98]], 2, [113]⟩]⟩
    A.merge B = .ok (⟨[⟨[], [109], [[97]], 3, [112]⟩, ⟨[109], [], [[97]], 3, [112]⟩]⟩, true) ∧
      B.merge A = .ok (⟨[⟨[], [109], [[97]], 2, [112]⟩, ⟨[109], [], [[97]], 3, [112]⟩]⟩, true) := by
  decide +kernel

/-- A merge in which the incoming range is chosen throughout, or both maps hold it. -/
theorem Exchange.eq_incoming (h : Exchange A B pick pick') (hR : Merges pick R)
    (hincoming : ∀ key, B.rangeAt key = some (pick key).1 ∧ ¬ Bumped pick key) : R = B := by
  have hat : ∀ r ∈ B.ranges, ∀ key, Covers Range.start Range.end_ r key → (pick key).1 = r := by
    intro r hr key hkey
    have hat := (rangeAt_eq_some_iff h.tilesB).mpr ⟨hr, hkey⟩
    rw [(hincoming key).1] at hat
    exact Option.some.inj hat
  have hranges : R.ranges = B.ranges := by
    refine Tiles.eq_of_maximal ?_ hR.tiles hR.maximal h.tilesB (h.tilesB.maximal_of_colour_eq hat) ?_
    · exact fun key key' => source_eq_iff h.tilesA h.tilesB (h.pick key) (h.pick key')
    · intro r hr b hb hstart hend
      have hmeta := hR.contents r hr r.start (hR.tiles.covers_start hr)
      rw [mergedAt, if_neg (hincoming r.start).2, hstart,
        hat b hb b.start (h.tilesB.covers_start hb)] at hmeta
      exact Range.ext_metadata hstart hend hmeta
  obtain ⟨ranges⟩ := R
  obtain ⟨ranges'⟩ := B
  exact congrArg RangeMap.mk hranges

/-- A map that differs from the current one only where it is newer is taken over as it is. -/
theorem merge_eq_incoming (hA : A.validate = .ok ()) (hA' : A.Partitions)
    (hB : B.validate = .ok ()) (hB' : B.Partitions)
    (hnewer : ∀ key a b, A.rangeAt key = some a → B.rangeAt key = some b →
      a = b ∨ a.generation < b.generation) : A.merge B = .ok (B, decide (A ≠ B)) := by
  obtain ⟨pick, pick', h⟩ := exists_exchange hA hA' hB hB'
  have hpick : ∀ key, B.rangeAt key = some (pick key).1 ∧ (pick key).2.2 = false := by
    intro key
    obtain ⟨a, b, i, j, spec⟩ := pickSpec (h.pick key)
    have hatB := spec.atB
    have hpicked := spec.picked
    have hnewer := hnewer key a b spec.atA hatB
    revert hpicked
    generalize pick key = c
    intro hpicked
    cases hpicked with
    | newer hlt => rcases hnewer with rfl | hlt' <;> order
    | older => exact ⟨hatB, rfl⟩
    | same heq => exact ⟨heq ▸ hatB, rfl⟩
    | wins h =>
      rcases hnewer with heq | hlt
      · exact absurd heq h.2.1
      · exact absurd h.1 hlt.ne
    | loses h =>
      rcases hnewer with heq | hlt
      · exact absurd heq.symm h.2.1
      · exact absurd h.1 hlt.ne'
  have htied : ∀ key, (pick key).2.2 ≠ true := fun key => by rw [(hpick key).2]; exact Bool.false_ne_true
  rcases merge_spec hA hB h.pick with ⟨⟨key, hstuck⟩, -⟩ | ⟨-, R, hmerge, -, hR⟩
  · exact absurd hstuck.1 (htied key)
  · have heq := h.eq_incoming hR fun key => ⟨(hpick key).1, fun hb => hb.elim fun key' hb =>
      htied key' hb.1⟩
    rw [hmerge, heq]

/-! ## Quiescence -/

theorem eq_of_unchanged (hA : A.Partitions) (hB : B.Partitions)
    (hAB : (A.tableMerge B).2 = .ok false) (hBA : (B.tableMerge A).2 = .ok false) : A = B := by
  have hmerge : ∀ {A B : RangeMap}, (A.tableMerge B).2 = .ok false →
      ∃ R, A.merge B = .ok (R, false) := by
    intro A B h
    rw [tableMerge] at h
    split at h
    · cases h
    · exact ⟨_, ‹_›⟩
    · cases h
  obtain ⟨R, hAB⟩ := hmerge hAB
  obtain ⟨R', hBA⟩ := hmerge hBA
  obtain ⟨hvalidA, hvalidB⟩ := validate_of_merge hAB
  obtain ⟨pick, pick', h⟩ := exists_exchange hvalidA hA hvalidB hB
  obtain ⟨hstuck, hR, hsame⟩ := merges_of_merge hvalidA hvalidB h.pick hAB
  obtain ⟨hstuck', hR', hsame'⟩ := merges_of_merge hvalidB hvalidA h.pick' hBA
  obtain rfl : A = R := not_not.mp (of_decide_eq_false hsame.symm)
  obtain rfl : B = R' := not_not.mp (of_decide_eq_false hsame'.symm)
  refine eq_of_rangeAt_eq h.tilesA h.tilesB fun key => ?_
  obtain ⟨a, b, i, j, spec, m⟩ := h.exists_mirror key
  obtain ⟨a', b', i', j', spec'⟩ := pickSpec (h.pick' key)
  cases spec.atA.symm.trans spec'.atB
  cases spec.atB.symm.trans spec'.atA
  -- each direction keeps its own range, so the ranges are equal
  have hside := (spec.current_of_not_grown (hR.generation hstuck spec.atA) (lt_irrefl _)).1
  have hside' := (spec'.current_of_not_grown (hR'.generation hstuck' spec.atB) (lt_irrefl _)).1
  rw [spec.atA, spec.atB]
  by_contra hne
  have hflip := m.side fun heq => hne (congrArg some heq)
  rw [hside, hside'] at hflip
  cases hflip

/-- If no pull changes a table, all tables hold the same map. -/
theorem quiescent_agree {ι : Type u} {tables : ι → RangeMap}
    (hpart : ∀ i, (tables i).Partitions)
    (hquiet : ∀ i j, i ≠ j → ((tables i).tableMerge (tables j)).2 = .ok false) (i j : ι) :
    tables i = tables j := by
  by_cases hij : i = j
  · rw [hij]
  · exact eq_of_unchanged (hpart i) (hpart j) (hquiet i j hij) (hquiet j i (Ne.symm hij))

theorem quiescent_agree_two :
    let tables : Bool → RangeMap := fun _ => ⟨[⟨[], [], [[97]], 1, [112]⟩]⟩
    ((tables false).tableMerge (tables true)).2 = .ok false ∧ tables false = tables true := by
  intro tables
  have hquiet : ∀ i j, i ≠ j → ((tables i).tableMerge (tables j)).2 = .ok false := by
    decide +kernel
  exact ⟨hquiet false true (by decide), quiescent_agree (fun i => partitions_of_tiles (.last rfl rfl))
    hquiet false true⟩

/-! ## A second exchange -/

/-- A validated partition. -/
structure Validated (X : RangeMap) : Prop where
  valid : X.validate = .ok ()
  tiles : Tiles Range.start Range.end_ [] X.ranges

/-- Maps of the same shape meet no tie. -/
theorem not_tied_of_sameShape (hX : Validated X) (hY : Validated Y) (hshape : SameShape X Y)
    (hpick : ∀ key, X.pickAt Y key = some (pick key)) (key : Bytes) :
    (pick key).2.2 = false ∧ ∃ x y, X.rangeAt key = some x ∧ Y.rangeAt key = some y ∧
      shape x = shape y ∧ shape (pick key).1 = shape x ∧
      (pick key).1.generation = max x.generation y.generation := by
  obtain ⟨x, y, i, j, spec⟩ := pickSpec (hpick key)
  obtain ⟨y', hy', hxy⟩ := hshape.rangeAt hX.tiles hY.tiles spec.atA
  cases spec.atB.symm.trans hy'
  refine ⟨?_, x, y, spec.atA, spec.atB, hxy, ?_, spec.generation_eq⟩
  · have hpicked := spec.picked
    revert hpicked
    generalize pick key = c
    intro hpicked
    cases hpicked with
    | newer | older | same => rfl
    | wins h => exact absurd (eq_of_shape_eq hxy h.1) h.2.1
    | loses h => exact absurd (eq_of_shape_eq hxy.symm h.1) h.2.1
  · rcases spec.fst_eq with heq | heq
    · rw [heq]
    · rw [heq, hxy]

theorem sameShape_of_merges (hX : Validated X) (hY : Validated Y) (hshape : SameShape X Y)
    (hpick : ∀ key, X.pickAt Y key = some (pick key)) (hZ : Merges pick Z) : SameShape X Z := by
  choose htied xs ys hxs hys hxy hshapes hgens using not_tied_of_sameShape hX hY hshape hpick
  have hat : ∀ x ∈ X.ranges, ∀ key, Covers Range.start Range.end_ x key → xs key = x :=
    fun x hx key hkey => Option.some.inj
      ((hxs key).symm.trans ((rangeAt_eq_some_iff hX.tiles).mpr ⟨hx, hkey⟩))
  have heq : ∀ {X : RangeMap} {x x' : Range}, Validated X → x ∈ X.ranges → x' ∈ X.ranges →
      shape x = shape x' → x = x' := by
    intro X x x' hX hx hx' h
    have hstart : (shape x).start = (shape x').start := by rw [h]
    have hcovers := hX.tiles.covers_start hx
    rw [show x.start = x'.start from hstart] at hcovers
    exact hX.tiles.eq_of_covers hx hx' hcovers (hX.tiles.covers_start hx')
  have hmemX := fun key => ((rangeAt_eq_some_iff hX.tiles).mp (hxs key)).1
  have hmemY := fun key => ((rangeAt_eq_some_iff hY.tiles).mp (hys key)).1
  have hsource : ∀ key key', xs key = xs key' ↔ (pick key).2.1 = (pick key').2.1 := by
    intro key key'
    rw [source_eq_iff hX.tiles hY.tiles (hpick key) (hpick key')]
    constructor
    · intro h
      have hys : ys key = ys key' := heq hY (hmemY key) (hmemY key') (by rw [← hxy, ← hxy, h])
      refine eq_of_shape_eq ?_ ?_
      · rw [hshapes, hshapes, h]
      · rw [hgens, hgens, h, hys]
    · intro h
      exact heq hX (hmemX key) (hmemX key') (by rw [← hshapes, ← hshapes, h])
  have hmax : Tiles.Maximal Range.start Range.end_ xs (X.ranges.map shape) :=
    (hX.tiles.maximal_of_colour_eq hat).map (fun _ => rfl) fun _ => rfl
  refine Tiles.eq_of_maximal hsource (hX.tiles.map (fun _ => rfl) fun _ => rfl) hmax hZ.tiles_shape
    hZ.maximal_shape ?_
  intro s hs s' hs' hstart hend
  obtain ⟨x, hx, rfl⟩ := List.mem_map.mp hs
  obtain ⟨z, hz, rfl⟩ := List.mem_map.mp hs'
  change x.start = z.start at hstart
  change x.end_ = z.end_ at hend
  have hfields := hZ.fields ((rangeAt_eq_some_iff hZ.tiles).mpr ⟨hz, hZ.tiles.covers_start hz⟩)
  have hx' := hshapes z.start
  rw [← hstart, hat x hx x.start (hX.tiles.covers_start hx), hstart] at hx'
  simp only [shape, Range.mk.injEq] at hx' ⊢
  exact ⟨hstart, hend, hx'.2.2.1 ▸ hfields.2.symm, trivial, hx'.2.2.2.2 ▸ hfields.1.symm⟩

/-- Merging maps of the same shape takes the later generation everywhere. -/
theorem merge_sameShape (hX : Validated X) (hY : Validated Y) (hshape : SameShape X Y) :
    ∃ Z, X.merge Y = .ok (Z, decide (X ≠ Z)) ∧ Validated Z ∧ SameShape X Z ∧
      ∀ key x y z, X.rangeAt key = some x → Y.rangeAt key = some y → Z.rangeAt key = some z →
        z.generation = max x.generation y.generation := by
  obtain ⟨pick, hpick⟩ := exists_pick hX.valid hY.valid
  have hpicks := not_tied_of_sameShape hX hY hshape hpick
  have hbumped : ∀ key, ¬ Bumped pick key := by
    rintro key ⟨key', htied, -⟩
    rw [(hpicks key').1] at htied
    cases htied
  rcases merge_spec hX.valid hY.valid hpick with
    ⟨⟨key, htied, -⟩, -⟩ | ⟨hstuck, Z, hmerge, hvalid, hZ⟩
  · rw [(hpicks key).1] at htied
    cases htied
  · refine ⟨Z, hmerge, ⟨hvalid, hZ.tiles⟩, sameShape_of_merges hX hY hshape hpick hZ, ?_⟩
    intro key x y z hx hy hz
    obtain ⟨-, x', y', hx', hy', -, -, hgen⟩ := hpicks key
    cases hx.symm.trans hx'
    cases hy.symm.trans hy'
    rcases hZ.generation hstuck hz with ⟨h, -⟩ | ⟨-, heq⟩
    · exact absurd h (hbumped key)
    · exact heq.trans hgen

/-- A map absorbs one of the same shape with no later generation. -/
theorem merge_absorbs (hX : Validated X) (hY : Validated Y) (hshape : SameShape X Y)
    (hle : ∀ key x y, X.rangeAt key = some x → Y.rangeAt key = some y →
      y.generation ≤ x.generation) :
    X.merge Y = .ok (X, false) ∧ ∃ changed, Y.merge X = .ok (X, changed) := by
  obtain ⟨Z, hmerge, hZ, hXZ, hgen⟩ := merge_sameShape hX hY hshape
  obtain ⟨Z', hmerge', hZ', hYZ', hgen'⟩ := merge_sameShape hY hX hshape.symm
  have heq : X = Z := hXZ.eq hX.tiles hZ.tiles fun key x z hx hz => by
    obtain ⟨y, hy, -⟩ := hshape.rangeAt hX.tiles hY.tiles hx
    rw [hgen key x y z hx hy hz, max_eq_left (hle key x y hx hy)]
  have heq' : X = Z' := (hshape.trans hYZ').eq hX.tiles hZ'.tiles fun key x z hx hz => by
    obtain ⟨y, hy, -⟩ := hshape.rangeAt hX.tiles hY.tiles hx
    rw [hgen' key y x z hy hx hz, max_eq_right (hle key x y hx hy)]
  subst heq heq'
  exact ⟨by rw [hmerge, decide_eq_false (not_not.mpr rfl)], _, hmerge'⟩

/-- After a mutual pull a second one leaves both nodes with the same map, and no later exchange of
the maps involved changes it. -/
theorem second_exchange_agrees (hA : A.validate = .ok ()) (hA' : A.Partitions)
    (hB : B.validate = .ok ()) (hB' : B.Partitions)
    (hgen : ∀ r, r ∈ A.ranges ∨ r ∈ B.ranges → r.generation.val + 2 < maxUint64.val) :
    ∃ A₁ B₁ M, (∃ c, A.merge B = .ok (A₁, c)) ∧ (∃ c, B.merge A = .ok (B₁, c)) ∧
      (∃ c, A₁.merge B₁ = .ok (M, c)) ∧ (∃ c, B₁.merge A₁ = .ok (M, c)) ∧
      ∀ P, P = M ∨ P = A₁ ∨ P = B₁ →
        M.merge P = .ok (M, false) ∧ ∃ c, P.merge M = .ok (M, c) := by
  obtain ⟨pick, pick', h⟩ := exists_exchange hA hA' hB hB'
  have hstuck : ∀ key, ¬ Stuck pick key := by
    rintro key ⟨-, hmax⟩
    obtain ⟨a, b, i, j, spec⟩ := pickSpec (h.pick key)
    have hlt := hgen (pick key).1 (by
      rcases spec.fst_eq with heq | heq
      · exact .inl (heq ▸ List.mem_of_find?_eq_some spec.atA)
      · exact .inr (heq ▸ List.mem_of_find?_eq_some spec.atB))
    rw [hmax] at hlt
    omega
  obtain ⟨A₁, hA₁, hvalid, hR⟩ := (merge_spec hA hB h.pick).resolve_left
    (fun hs => hs.1.elim hstuck) |>.2
  obtain ⟨B₁, hB₁, hvalid', hR'⟩ := (merge_spec hB hA h.pick').resolve_left
    (fun hs => hs.1.elim fun key hs => hstuck key ((h.stuck_iff key).mp hs)) |>.2
  have htableA : Validated A₁ := ⟨hvalid, hR.tiles⟩
  have htableB : Validated B₁ := ⟨hvalid', hR'.tiles⟩
  have hshape := h.sameShape hR hR'
  obtain ⟨M, hM, htable, hAM, hgenM⟩ := merge_sameShape htableA htableB hshape
  obtain ⟨M', hM', htable', hBM', hgenM'⟩ := merge_sameShape htableB htableA hshape.symm
  have heq : M = M' := (hAM.symm.trans (hshape.trans hBM')).eq htable.tiles htable'.tiles
    fun key x y hx hy => by
      obtain ⟨a, ha, -⟩ := hAM.symm.rangeAt htable.tiles htableA.tiles hx
      obtain ⟨b, hb, -⟩ := hshape.rangeAt htableA.tiles htableB.tiles ha
      rw [hgenM key a b x ha hb hx, hgenM' key b a y hb ha hy, max_comm]
  subst heq
  refine ⟨A₁, B₁, M, ⟨_, hA₁⟩, ⟨_, hB₁⟩, ⟨_, hM⟩, ⟨_, hM'⟩, ?_⟩
  rintro P (rfl | rfl | rfl)
  · exact merge_absorbs htable htable rfl fun key x y hx hy =>
      (Option.some.inj (hx.symm.trans hy)).symm ▸ le_refl _
  · refine merge_absorbs htable htableA hAM.symm fun key x a hx ha => ?_
    obtain ⟨b, hb, -⟩ := hshape.rangeAt htableA.tiles htableB.tiles ha
    rw [hgenM key a b x ha hb hx]
    exact le_max_left _ _
  · refine merge_absorbs htable htableB hBM'.symm fun key x b hx hb => ?_
    obtain ⟨a, ha, -⟩ := hshape.symm.rangeAt htableB.tiles htableA.tiles hb
    rw [hgenM key a b x ha hb hx]
    exact le_max_right _ _

/-- The two maps of `merge_not_comm`. -/
theorem second_exchange_agrees_shared :
    let A : RangeMap := ⟨[⟨[], [109], [[97]], 2, [112]⟩, ⟨[109], [], [[97]], 2, [112]⟩]⟩
    let B : RangeMap := ⟨[⟨[], [109], [[97]], 2, [112]⟩, ⟨[109], [], [[98]], 2, [113]⟩]⟩
    ∃ A₁ B₁ M, (∃ c, A.merge B = .ok (A₁, c)) ∧ (∃ c, B.merge A = .ok (B₁, c)) ∧
      (∃ c, A₁.merge B₁ = .ok (M, c)) ∧ (∃ c, B₁.merge A₁ = .ok (M, c)) ∧
      M.merge M = .ok (M, false) := by
  intro A B
  have hA : A.Partitions := partitions_of_tiles (.cons rfl (by decide) (.last rfl rfl))
  have hB : B.Partitions := partitions_of_tiles (.cons rfl (by decide) (.last rfl rfl))
  obtain ⟨A₁, B₁, M, hA₁, hB₁, hM, hM', hP⟩ :=
    second_exchange_agrees (A := A) (B := B) (by decide) hA (by decide) hB (by
      intro r hr
      simp only [A, B, List.mem_cons, List.not_mem_nil, or_false] at hr
      rcases hr with (rfl | rfl) | rfl | rfl <;> decide)
  exact ⟨A₁, B₁, M, hA₁, hB₁, hM, hM', (hP M (.inl rfl)).1⟩

end RangeMap
end ChudDB.Cluster
