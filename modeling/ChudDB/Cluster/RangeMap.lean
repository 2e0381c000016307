import ChudDB.Lib.Tiling
import ChudDB.Cluster.VectorClock

/-! # Range maps

`Range` and `RangeMap` (`range.go`, `rangemap.go`). An empty `End` stands for no upper bound, and
the empty key is the least one, so a range covers the keys from its start up to its end. `Validate`
compares the end of a range with the start of the next one literally. So it also accepts a range
without an upper bound before another one, which then starts anew at the least key: what it accepts
are several partitions of the key space in a row (`partitions_iff_of_validate`). -/

namespace ChudDB.Cluster
open Lib

structure Range where
  start : Bytes
  end_ : Bytes
  replicas : List NodeID
  generation : Counter
  proposalID : Bytes
deriving DecidableEq, Repr

/-- `Range.Contains`. -/
def Range.contains (r : Range) (key : Bytes) : Bool :=
  if r.start ≠ [] ∧ key < r.start then false
  else if r.end_ ≠ [] ∧ key ≥ r.end_ then false
  else true

structure RangeMap where
  ranges : List Range
deriving DecidableEq, Repr

inductive RangeMapError where
  | noRanges
  | firstStart (start : Bytes)
  | lastEnd (end_ : Bytes)
  | noGeneration (i : Nat) (start end_ : Bytes)
  | noProposalID (i : Nat) (start end_ : Bytes)
  | noReplicas (i : Nat) (start end_ : Bytes)
  | emptyOrInverted (i : Nat) (start end_ : Bytes)
  | notContiguous (i : Nat) (start prevEnd : Bytes)
  | current (err : RangeMapError)
  | incoming (err : RangeMapError)
  | merged (err : RangeMapError)
  | tieAtMaximum
  /-- The panic of `rangeIndexAt`. -/
  | notCovered (key : Bytes)
deriving DecidableEq, Repr

namespace RangeMap

/-- One round of the loop of `Validate`. -/
def validateRange (i : Nat) (prev : Option Range) (r : Range) : Except RangeMapError Unit :=
  if r.generation = 0 then .error (.noGeneration i r.start r.end_)
  else if r.proposalID = [] then .error (.noProposalID i r.start r.end_)
  else if r.replicas = [] then .error (.noReplicas i r.start r.end_)
  else if r.end_ ≠ [] ∧ r.start ≥ r.end_ then .error (.emptyOrInverted i r.start r.end_)
  else match prev with
    | none => .ok ()
    | some prev =>
      if r.start ≠ prev.end_ then .error (.notContiguous i r.start prev.end_) else .ok ()

def validateFrom : Nat → Option Range → List Range → Except RangeMapError Unit
  | _, _, [] => .ok ()
  | i, prev, r :: rs =>
    match validateRange i prev r with
    | .error err => .error err
    | .ok () => validateFrom (i + 1) (some r) rs

/-- `RangeMap.Validate`. -/
def validate (m : RangeMap) : Except RangeMapError Unit :=
  match m.ranges.head?, m.ranges.getLast? with
  | some first, some last =>
    if first.start ≠ [] then .error (.firstStart first.start)
    else if last.end_ ≠ [] then .error (.lastEnd last.end_)
    else validateFrom 0 none m.ranges
  | _, _ => .error .noRanges

/-- The range of a map at a key: the first one that contains it. -/
def rangeAt (m : RangeMap) (key : Bytes) : Option Range := m.ranges.find? (·.contains key)

/-- `RangeMap.Owners`. -/
def owners (m : RangeMap) (key : Bytes) : Option (List NodeID) := (m.rangeAt key).map Range.replicas

/-- `RangeMap.OwnersForRange`. -/
def ownersForRange (m : RangeMap) (start end_ : Bytes) : Option (List NodeID) :=
  if end_ ≠ [] ∧ start ≥ end_ then none
  else match m.rangeAt start with
    | none => none
    | some r =>
      if end_ = [] then if r.end_ ≠ [] then none else some r.replicas
      else if r.end_ ≠ [] ∧ end_ > r.end_ then none else some r.replicas

/-- Every key lies in exactly one range. -/
def Partitions (m : RangeMap) : Prop := ∀ key, m.ranges.countP (·.contains key) = 1

end RangeMap

/-! ## What `Validate` accepts -/

theorem Range.contains_iff {r : Range} :
    r.contains key = true ↔ HalfOpen r.start r.end_ key := by
  have hlow : ¬ (r.start ≠ [] ∧ key < r.start) ↔ r.start ≤ key := by
    rw [not_and, not_lt]
    constructor
    · intro h
      by_cases hnil : r.start = []
      · exact hnil ▸ bot_le
      · exact h hnil
    · exact fun h _ => h
  have hhigh : ¬ (r.end_ ≠ [] ∧ key ≥ r.end_) ↔ r.end_ = [] ∨ key < r.end_ := by
    rw [not_and_or, not_not, not_le]
  rw [Range.contains, HalfOpen]
  change _ ↔ r.start ≤ key ∧ (r.end_ = [] ∨ key < r.end_)
  rw [← hlow, ← hhigh]
  split
  · rename_i h
    exact ⟨fun hfalse => absurd hfalse Bool.false_ne_true, fun h' => absurd h h'.1⟩
  · rename_i h
    split
    · rename_i h'
      exact ⟨fun hfalse => absurd hfalse Bool.false_ne_true, fun h'' => absurd h' h''.2⟩
    · rename_i h'
      exact ⟨fun _ => ⟨h, h'⟩, fun _ => rfl⟩

/-- What `Validate` asks of each range. -/
structure Range.Sound (r : Range) : Prop where
  generation : r.generation ≠ 0
  proposalID : r.proposalID ≠ []
  replicas : r.replicas ≠ []
  lt : r.end_ ≠ [] → r.start < r.end_

/-- The list of a map that `Validate` accepts, from some range on. -/
inductive Chained : Bytes → List Range → Prop
  | last {r : Range} (sound : r.Sound) (hstart : r.start = lo) (hend : r.end_ = []) : Chained lo [r]
  | cons {r : Range} (sound : r.Sound) (hstart : r.start = lo) (h : Chained r.end_ rs) :
    Chained lo (r :: rs)

namespace RangeMap

theorem validateRange_eq_ok_iff : validateRange i prev r = .ok () ↔
    r.Sound ∧ ∀ p ∈ prev, r.start = p.end_ := by
  rw [validateRange.eq_def]
  split
  · rename_i h
    exact ⟨nofun, fun hs => absurd h hs.1.generation⟩
  · rename_i hgen
    split
    · rename_i h
      exact ⟨nofun, fun hs => absurd h hs.1.proposalID⟩
    · rename_i hprop
      split
      · rename_i h
        exact ⟨nofun, fun hs => absurd h hs.1.replicas⟩
      · rename_i hrep
        split
        · rename_i h
          exact ⟨nofun, fun hs => absurd (hs.1.lt h.1) h.2.not_gt⟩
        · rename_i hlt
          have hsound : r.Sound :=
            ⟨hgen, hprop, hrep, fun hne => not_le.mp fun hle => hlt ⟨hne, hle⟩⟩
          cases prev with
          | none => simp [hsound]
          | some prev => simp [hsound]

theorem validateFrom_cons_iff : validateFrom i prev (r :: rs) = .ok () ↔
    r.Sound ∧ (∀ p ∈ prev, r.start = p.end_) ∧ validateFrom (i + 1) (some r) rs = .ok () := by
  rw [validateFrom, ← and_assoc, ← validateRange_eq_ok_iff (i := i)]
  cases validateRange i prev r with
  | error err => exact ⟨nofun, fun h => nomatch h.1⟩
  | ok => exact ⟨fun h => ⟨rfl, h⟩, And.right⟩

/-- The loop of `Validate` and its check of the last end. -/
theorem validateFrom_iff (hlo : ∀ p ∈ prev, p.end_ = lo) (hfirst : prev = none → r.start = lo) :
    validateFrom i prev (r :: rs) = .ok () ∧ ((r :: rs).getLast (by simp)).end_ = [] ↔
      Chained lo (r :: rs) := by
  induction rs generalizing i prev lo r with
  | nil =>
    rw [validateFrom_cons_iff, List.getLast_singleton]
    constructor
    · rintro ⟨⟨hsound, hprev, -⟩, hend⟩
      refine .last hsound ?_ hend
      cases prev with
      | none => exact hfirst rfl
      | some p => exact (hprev p rfl).trans (hlo p rfl)
    · rintro (⟨hsound, hstart, hend⟩ | ⟨-, -, h⟩)
      · exact ⟨⟨hsound, fun p hp => hstart.trans (hlo p hp).symm, rfl⟩, hend⟩
      · cases h
  | cons r' rs ih =>
    have ih : validateFrom (i + 1) (some r) (r' :: rs) = .ok () ∧ _ ↔ Chained r.end_ (r' :: rs) :=
      ih (fun p hp => by rw [Option.mem_some.mp hp]) nofun
    rw [validateFrom_cons_iff, List.getLast_cons (by simp)]
    constructor
    · rintro ⟨⟨hsound, hprev, hrest⟩, hend⟩
      refine .cons hsound ?_ (ih.mp ⟨hrest, hend⟩)
      cases prev with
      | none => exact hfirst rfl
      | some p => exact (hprev p rfl).trans (hlo p rfl)
    · rintro (_ | ⟨hsound, hstart, h⟩)
      obtain ⟨hrest, hend⟩ := ih.mpr h
      exact ⟨⟨hsound, fun p hp => hstart.trans (hlo p hp).symm, hrest⟩, hend⟩

theorem validate_eq_ok_iff {m : RangeMap} : m.validate = .ok () ↔ Chained [] m.ranges := by
  obtain ⟨ranges⟩ := m
  cases ranges with
  | nil => exact ⟨nofun, nofun⟩
  | cons r rs =>
    rw [validate, List.head?_cons, List.getLast?_eq_some_getLast (List.cons_ne_nil r rs)]
    simp only
    split
    · rename_i hstart
      refine ⟨nofun, fun h => absurd ?_ hstart⟩
      cases h with
      | last _ h => exact h
      | cons _ h => exact h
    · rename_i hstart
      have hiff : validateFrom 0 none (r :: rs) = .ok () ∧ _ ↔ Chained [] (r :: rs) :=
        validateFrom_iff nofun fun _ => not_not.mp hstart
      rw [← hiff]
      split
      · rename_i hend
        exact ⟨nofun, fun h => absurd h.2 hend⟩
      · rename_i hend
        exact ⟨fun h => ⟨h, not_not.mp hend⟩, And.left⟩

end RangeMap

namespace Chained
variable {lo : Bytes} {l : List Range}

theorem sound (h : Chained lo l) (hr : r ∈ l) : r.Sound := by
  induction h with
  | last sound => exact List.mem_singleton.mp hr ▸ sound
  | cons sound _ _ ih =>
    rcases List.mem_cons.mp hr with rfl | hr
    · exact sound
    · exact ih hr

theorem exists_contains (h : Chained lo l) (hkey : lo ≤ key) : ∃ r ∈ l, r.contains key = true := by
  induction h with
  | last _ hstart hend =>
    exact ⟨_, List.mem_cons_self, Range.contains_iff.mpr ⟨hstart.trans_le hkey, .inl hend⟩⟩
  | @cons lo _ r _ hstart _ ih =>
    by_cases hcovers : r.end_ = [] ∨ key < r.end_
    · exact ⟨r, List.mem_cons_self, Range.contains_iff.mpr ⟨hstart.trans_le hkey, hcovers⟩⟩
    · obtain ⟨r', hr', hcontains⟩ := ih (not_lt.mp fun h => hcovers (.inr h))
      exact ⟨r', List.mem_cons_of_mem r hr', hcontains⟩

/-- A range starts where another one ends, or at the front. -/
theorem start_mem (h : Chained lo l) (hr : r ∈ l) : r.start = lo ∨ r.start ∈ l.map Range.end_ := by
  induction h with
  | last _ hstart => exact .inl (List.mem_singleton.mp hr ▸ hstart)
  | cons _ hstart _ ih =>
    rcases List.mem_cons.mp hr with rfl | hr
    · exact .inl hstart
    · rcases ih hr with h | h
      · exact .inr (h ▸ List.mem_cons_self)
      · exact .inr (List.mem_cons_of_mem _ h)

theorem exists_last (h : Chained lo l) : ∃ last, l = l.dropLast ++ [last] ∧ last.end_ = [] := by
  induction h with
  | last _ _ hend => exact ⟨_, rfl, hend⟩
  | @cons _ rs r _ _ h ih =>
    obtain ⟨last, hlast, hend⟩ := ih
    refine ⟨last, ?_, hend⟩
    cases rs with
    | nil => cases h
    | cons r' rs =>
      rw [List.dropLast_cons_cons, List.cons_append, ← hlast]

theorem tiles (h : Chained lo l) (hends : ∀ r ∈ l.dropLast, r.end_ ≠ []) :
    Tiles Range.start Range.end_ lo l := by
  induction h with
  | last _ hstart hend => exact .last hstart hend
  | @cons _ rs r sound hstart h ih =>
    cases rs with
    | nil => cases h
    | cons r' rs =>
      rw [List.dropLast_cons_cons] at hends
      refine .cons hstart (hstart ▸ sound.lt (hends r List.mem_cons_self)) ?_
      exact ih fun r' hr' => hends r' (List.mem_cons_of_mem r hr')

/-- From a range on, a map can go on in another way. -/
theorem replace {pre : List Range} (h : Chained lo (pre ++ r :: l)) :
    Chained r.start (r :: l) ∧ ∀ l', Chained r.start l' → Chained lo (pre ++ l') := by
  induction pre generalizing lo with
  | nil =>
    have hstart : r.start = lo := by
      cases h with
      | last _ hstart => exact hstart
      | cons _ hstart => exact hstart
    subst hstart
    exact ⟨h, fun l' h' => h'⟩
  | cons p pre ih =>
    rw [List.cons_append] at h
    generalize hrest : pre ++ r :: l = rest at h
    cases h with
    | last => simp at hrest
    | cons sound hstart h =>
      obtain ⟨htail, hreplace⟩ := ih (hrest ▸ h)
      exact ⟨htail, fun l' h' => .cons sound hstart (hreplace l' h')⟩

/-- A range can be replaced by one with the same end. -/
theorem replace_head {r' : Range} (h : Chained lo (r :: l)) (sound : r'.Sound)
    (hend : r'.end_ = r.end_) : Chained r'.start (r' :: l) := by
  cases h with
  | last _ _ hnil => exact .last sound rfl (hend.trans hnil)
  | cons _ _ h => exact .cons sound rfl (hend ▸ h)

/-- Behind the key that a range was looked up for, the lookup finds the same range up to its end. -/
theorem find?_of_le (h : Chained lo l) (hlo : lo ≤ start)
    (hr : l.find? (·.contains start) = some r) (hkey : start ≤ key)
    (hend : r.end_ = [] ∨ key < r.end_) : l.find? (·.contains key) = some r := by
  have hcontains : r.contains start = true :=
    List.find?_some (p := fun r => Range.contains r start) hr
  have hcontains' : r.contains key = true :=
    Range.contains_iff.mpr ⟨(Range.contains_iff.mp hcontains).1.trans hkey, hend⟩
  induction h with
  | last =>
    rw [List.mem_singleton.mp (List.mem_of_find?_eq_some hr)] at hcontains' ⊢
    rw [List.find?_cons, hcontains']
  | @cons lo rs r₀ _ hstart _ ih =>
    rw [List.find?_cons] at hr
    cases hfirst : r₀.contains start with
    | true =>
      rw [hfirst] at hr
      cases hr
      rw [List.find?_cons, hcontains']
    | false =>
      rw [hfirst] at hr
      -- The first range ends at or before `start`, so it does not contain `key` either.
      have hover : ¬ (r₀.end_ = [] ∨ start < r₀.end_) := fun hcovers =>
        Bool.false_ne_true (hfirst.symm.trans
          (Range.contains_iff.mpr ⟨hstart.trans_le hlo, hcovers⟩))
      have hle : r₀.end_ ≤ start := not_lt.mp fun hlt => hover (.inr hlt)
      have hnot : r₀.contains key = false := by
        refine Bool.eq_false_iff.mpr fun hin => ?_
        rcases (Range.contains_iff.mp hin).2 with hnil | hlt
        · exact hover (.inl hnil)
        · exact (hle.trans hkey).not_gt hlt
      rw [List.find?_cons, hnot]
      exact ih hle hr

end Chained

namespace RangeMap
variable {m : RangeMap}

theorem rangeAt_of_le (h : m.validate = .ok ()) (hr : m.rangeAt start = some r) (hkey : start ≤ key)
    (hend : r.end_ = [] ∨ key < r.end_) : m.rangeAt key = some r :=
  (validate_eq_ok_iff.mp h).find?_of_le bot_le hr hkey hend

theorem partitions_of_tiles (h : Tiles Range.start Range.end_ [] m.ranges) : m.Partitions :=
  fun _ => h.countP_covers bot_le fun _ => Range.contains_iff

/-- In a partition a key is looked up in the only range that contains it. -/
theorem Partitions.rangeAt_eq_some_iff (hm : m.Partitions) :
    m.rangeAt key = some r ↔ r ∈ m.ranges ∧ r.contains key = true :=
  find?_eq_some_iff_of_countP_eq_one (hm key)

/-- Two ranges without an upper bound share a key. -/
theorem end_ne_of_partitions (h : m.validate = .ok ()) (hm : m.Partitions) :
    ∀ r ∈ m.ranges.dropLast, r.end_ ≠ [] := by
  intro r hr hend
  obtain ⟨last, hlast, hlastEnd⟩ := (validate_eq_ok_iff.mp h).exists_last
  have hcontains : ∀ r' : Range, r'.end_ = [] → r'.start ≤ max r.start last.start →
      r'.contains (max r.start last.start) = true := fun r' hend hle =>
    Range.contains_iff.mpr ⟨hle, .inl hend⟩
  have htwo := hm (max r.start last.start)
  rw [hlast, List.countP_append, List.countP_singleton,
    if_pos (hcontains last hlastEnd (le_max_right _ _))] at htwo
  have hpos : 0 < m.ranges.dropLast.countP (·.contains (max r.start last.start)) :=
    List.countP_pos_iff.mpr ⟨r, hr, hcontains r hend (le_max_left _ _)⟩
  omega

theorem tiles_of_partitions (h : m.validate = .ok ()) (hm : m.Partitions) :
    Tiles Range.start Range.end_ [] m.ranges :=
  (validate_eq_ok_iff.mp h).tiles (end_ne_of_partitions h hm)

/-- What `Validate` accepts is a partition if only its last range has no upper bound. -/
theorem partitions_iff_of_validate (h : m.validate = .ok ()) :
    (∀ key, m.ranges.countP (·.contains key) = 1) ↔ ∀ r ∈ m.ranges.dropLast, r.end_ ≠ [] :=
  ⟨end_ne_of_partitions h, fun hend =>
    partitions_of_tiles ((validate_eq_ok_iff.mp h).tiles hend)⟩

theorem partitions_iff_of_validate_split :
    let m : RangeMap := ⟨[⟨[], [109], [[97]], 1, [112]⟩, ⟨[109], [], [[98]], 1, [112]⟩]⟩
    m.validate = .ok () ∧ ∀ key, m.ranges.countP (·.contains key) = 1 := by
  intro m
  have hvalid : m.validate = .ok () := by decide
  exact ⟨hvalid, (partitions_iff_of_validate hvalid).mpr (by decide)⟩

/-- Two ranges that both cover every key. -/
theorem validate_accepts_overlap :
    let m : RangeMap := ⟨[⟨[], [], [[97]], 1, [112]⟩, ⟨[], [], [[98]], 1, [112]⟩]⟩
    m.validate = .ok () ∧ ∃ key, m.ranges.countP (·.contains key) = 2 :=
  ⟨by decide, [107], by decide⟩

end RangeMap
end ChudDB.Cluster
