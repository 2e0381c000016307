import ChudDB.Cluster.RangeMap

/-! # Ownership gates

`Table` (`table.go`) asks the range map who owns a key, a closed interval of keys (the scans of
clients) or a half-open one (the ranges of the repair). The last two answer from one range, and they
agree with the owners of every key of the interval (`owners_of_gates`). -/

namespace ChudDB.Cluster
open Lib

/-- `RangeMap.OwnersForKeyRange`. -/
def RangeMap.ownersForKeyRange (m : RangeMap) (start end_ : Bytes) : Option (List NodeID) :=
  match m.rangeAt start with
  | none => none
  | some r => if r.end_ ≠ [] ∧ end_ ≥ r.end_ then none else some r.replicas

/-- `ring.Table`. -/
structure RingTable where
  localNodeID : NodeID
  rangeMap : RangeMap
deriving DecidableEq, Repr

namespace RingTable

/-- `Table.IsOwner`. -/
def isOwner (t : RingTable) (key : Bytes) : Bool :=
  decide (t.localNodeID ∈ (t.rangeMap.owners key).getD [])

/-- `Table.OwnsKeyRange`. -/
def ownsKeyRange (t : RingTable) (start end_ : Bytes) : Bool :=
  match t.rangeMap.ownersForKeyRange start end_ with
  | none => false
  | some owners => decide (t.localNodeID ∈ owners)

/-- `Table.OwnsRange`. -/
def ownsRange (t : RingTable) (start end_ : Bytes) : Bool :=
  match t.rangeMap.ownersForRange start end_ with
  | none => false
  | some owners => decide (t.localNodeID ∈ owners)

end RingTable

namespace RangeMap
variable {m : RangeMap} {start end_ key : Bytes} {r : Range} {nodes : List NodeID}

theorem ownersForKeyRange_eq_some_iff : m.ownersForKeyRange start end_ = some nodes ↔
    ∃ r, m.rangeAt start = some r ∧ (r.end_ = [] ∨ end_ < r.end_) ∧ r.replicas = nodes := by
  rw [ownersForKeyRange]
  cases m.rangeAt start with
  | none => simp
  | some r =>
    have hcond : ¬ (r.end_ ≠ [] ∧ end_ ≥ r.end_) ↔ r.end_ = [] ∨ end_ < r.end_ := by
      rw [not_and_or, not_not, not_le]
    simp only [Option.some.injEq, exists_eq_left', ← hcond]
    split
    · rename_i h
      simp [h]
    · rename_i h
      simp [h]

theorem ownersForRange_eq_some_iff : m.ownersForRange start end_ = some nodes ↔
    (end_ = [] ∨ start < end_) ∧ ∃ r, m.rangeAt start = some r ∧
      (r.end_ = [] ∨ end_ ≠ [] ∧ end_ ≤ r.end_) ∧ r.replicas = nodes := by
  have hcond : ¬ (end_ ≠ [] ∧ start ≥ end_) ↔ end_ = [] ∨ start < end_ := by
    rw [not_and_or, not_not, not_le]
  rw [ownersForRange, ← hcond]
  split
  · rename_i h
    simp [h]
  · rename_i h
    rw [and_iff_right h]
    cases m.rangeAt start with
    | none => simp
    | some r =>
      simp only [Option.some.injEq, exists_eq_left']
      by_cases hend : end_ = []
      · by_cases hr : r.end_ = [] <;> simp [hend, hr]
      · by_cases hr : r.end_ = []
        · simp [hend, hr]
        · by_cases hle : end_ ≤ r.end_
          · simp [hend, hr, hle]
          · simp [hend, hr, hle, not_le.mp hle]

/-- The range at the start of an interval reaches over a closed interval if it contains its last
key. -/
theorem contains_end_iff (hat : m.rangeAt start = some r) (hle : start ≤ end_) :
    r.contains end_ = true ↔ r.end_ = [] ∨ end_ < r.end_ := by
  have hstart : r.contains start = true := List.find?_some (p := fun r => Range.contains r start) hat
  rw [Range.contains_iff, HalfOpen]
  exact and_iff_right ((Range.contains_iff.mp hstart).1.trans hle)

/-- It reaches over a half-open interval if it ends no earlier. -/
theorem covers_halfOpen_iff (hat : m.rangeAt start = some r) :
    (∀ key, HalfOpen start end_ key → r.contains key = true) ↔
      (r.end_ = [] ∨ end_ ≠ [] ∧ end_ ≤ r.end_) := by
  have hstart : HalfOpen r.start r.end_ start := Range.contains_iff.mp
    (List.find?_some (p := fun r => Range.contains r start) hat)
  constructor
  · intro hall
    by_contra hcond
    obtain ⟨hend, hlt⟩ := not_or.mp hcond
    have hbefore : start < r.end_ := hstart.2.resolve_left hend
    -- The end of the range is a key of the interval, but not of the range.
    have hin : HalfOpen start end_ r.end_ := by
      refine ⟨hbefore.le, ?_⟩
      by_cases hnil : end_ = []
      · exact .inl hnil
      · exact .inr (not_le.mp fun hle => hlt ⟨hnil, hle⟩)
    have hout := (Range.contains_iff.mp (hall _ hin)).2
    exact lt_irrefl _ (hout.resolve_left hend)
  · rintro hcond key ⟨hle, hbelow⟩
    refine Range.contains_iff.mpr ⟨hstart.1.trans hle, hcond.imp_right ?_⟩
    rintro ⟨hnil, hend⟩
    exact (hbelow.resolve_left hnil).trans_le hend

theorem owners_eq_of_contains (hm : m.Partitions) (hr : r ∈ m.ranges)
    (hkey : r.contains key = true) : m.owners key = some r.replicas := by
  rw [owners, hm.rangeAt_eq_some_iff.mpr ⟨hr, hkey⟩, Option.map_some]

theorem exists_ownersForKeyRange_iff (hm : m.Partitions) (hle : start ≤ end_) :
    (∃ owners, m.ownersForKeyRange start end_ = some owners) ↔
      ∃ r ∈ m.ranges, r.contains start = true ∧ r.contains end_ = true := by
  constructor
  · rintro ⟨owners, h⟩
    obtain ⟨r, hat, hend, -⟩ := ownersForKeyRange_eq_some_iff.mp h
    obtain ⟨hr, hstart⟩ := hm.rangeAt_eq_some_iff.mp hat
    exact ⟨r, hr, hstart, (contains_end_iff hat hle).mpr hend⟩
  · rintro ⟨r, hr, hstart, hend⟩
    have hat := hm.rangeAt_eq_some_iff.mpr ⟨hr, hstart⟩
    exact ⟨_, ownersForKeyRange_eq_some_iff.mpr ⟨r, hat, (contains_end_iff hat hle).mp hend, rfl⟩⟩

theorem owners_of_ownersForKeyRange (hm : m.Partitions)
    (h : m.ownersForKeyRange start end_ = some nodes) (hle : start ≤ key) (hend : key ≤ end_) :
    m.owners key = some nodes := by
  obtain ⟨r, hat, hbelow, rfl⟩ := ownersForKeyRange_eq_some_iff.mp h
  refine owners_eq_of_contains hm (List.mem_of_find?_eq_some hat) ?_
  exact (contains_end_iff hat hle).mpr (hbelow.imp_right hend.trans_lt)

theorem exists_ownersForRange_iff (hm : m.Partitions) :
    (∃ owners, m.ownersForRange start end_ = some owners) ↔
      (∃ key, HalfOpen start end_ key) ∧
      ∃ r ∈ m.ranges, ∀ key, HalfOpen start end_ key → r.contains key = true := by
  rw [HalfOpen.nonempty_iff]
  constructor
  · rintro ⟨owners, h⟩
    obtain ⟨hne, r, hat, hend, -⟩ := ownersForRange_eq_some_iff.mp h
    exact ⟨HalfOpen.start_iff.mpr hne, r, List.mem_of_find?_eq_some hat,
      (covers_halfOpen_iff hat).mpr hend⟩
  · rintro ⟨hne, r, hr, hall⟩
    have hat := hm.rangeAt_eq_some_iff.mpr ⟨hr, hall start hne⟩
    exact ⟨_, ownersForRange_eq_some_iff.mpr
      ⟨HalfOpen.start_iff.mp hne, r, hat, (covers_halfOpen_iff hat).mp hall, rfl⟩⟩

theorem owners_of_ownersForRange (hm : m.Partitions)
    (h : m.ownersForRange start end_ = some nodes) (hkey : HalfOpen start end_ key) :
    m.owners key = some nodes := by
  obtain ⟨-, r, hat, hend, rfl⟩ := ownersForRange_eq_some_iff.mp h
  refine owners_eq_of_contains hm (List.mem_of_find?_eq_some hat) ?_
  exact (covers_halfOpen_iff hat).mpr hend key hkey

end RangeMap

namespace RingTable
variable {t : RingTable} {start end_ key : Bytes} {owners : List NodeID}

theorem isOwner_of_owners (h : t.rangeMap.owners key = some owners)
    (hmem : t.localNodeID ∈ owners) : t.isOwner key = true := by
  rw [isOwner, h]
  exact decide_eq_true hmem

theorem ownsKeyRange_iff : t.ownsKeyRange start end_ = true ↔
    ∃ owners, t.rangeMap.ownersForKeyRange start end_ = some owners ∧ t.localNodeID ∈ owners := by
  rw [ownsKeyRange]
  cases t.rangeMap.ownersForKeyRange start end_ <;> simp

theorem ownsRange_iff : t.ownsRange start end_ = true ↔
    ∃ owners, t.rangeMap.ownersForRange start end_ = some owners ∧ t.localNodeID ∈ owners := by
  rw [ownsRange]
  cases t.rangeMap.ownersForRange start end_ <;> simp

end RingTable

namespace RangeMap

/-- The two interval gates succeed exactly on intervals within one range, and then give the owners
of each of their keys. So a node that is let through by one owns each of the keys. -/
theorem owners_of_gates {m : RangeMap} (hm : m.Partitions) (start end_ : Bytes) :
    (start ≤ end_ →
      ((∃ owners, m.ownersForKeyRange start end_ = some owners) ↔
        ∃ r ∈ m.ranges, r.contains start = true ∧ r.contains end_ = true) ∧
      ∀ owners, m.ownersForKeyRange start end_ = some owners →
        ∀ key, start ≤ key → key ≤ end_ → m.owners key = some owners) ∧
    ((∃ owners, m.ownersForRange start end_ = some owners) ↔
      (∃ key, HalfOpen start end_ key) ∧
      ∃ r ∈ m.ranges, ∀ key, HalfOpen start end_ key → r.contains key = true) ∧
    (∀ owners, m.ownersForRange start end_ = some owners →
      ∀ key, HalfOpen start end_ key → m.owners key = some owners) ∧
    ∀ node,
      (RingTable.ownsKeyRange ⟨node, m⟩ start end_ = true →
        ∀ key, start ≤ key → key ≤ end_ → RingTable.isOwner ⟨node, m⟩ key = true) ∧
      (RingTable.ownsRange ⟨node, m⟩ start end_ = true →
        ∀ key, HalfOpen start end_ key → RingTable.isOwner ⟨node, m⟩ key = true) := by
  refine ⟨fun hle => ⟨exists_ownersForKeyRange_iff hm hle, ?_⟩, exists_ownersForRange_iff hm, ?_,
    fun node => ⟨fun h key hstart hend => ?_, fun h key hkey => ?_⟩⟩
  · exact fun owners h key hstart hend => owners_of_ownersForKeyRange hm h hstart hend
  · exact fun owners h key hkey => owners_of_ownersForRange hm h hkey
  · obtain ⟨owners, howners, hmem⟩ := RingTable.ownsKeyRange_iff.mp h
    exact RingTable.isOwner_of_owners (owners_of_ownersForKeyRange hm howners hstart hend) hmem
  · obtain ⟨owners, howners, hmem⟩ := RingTable.ownsRange_iff.mp h
    exact RingTable.isOwner_of_owners (owners_of_ownersForRange hm howners hkey) hmem

/-- An interval up to the boundary of two ranges, closed and half-open. -/
theorem owners_of_gates_boundary :
    let m : RangeMap := ⟨[⟨[], [109], [[97]], 1, [112]⟩, ⟨[109], [], [[98]], 1, [112]⟩]⟩
    m.Partitions ∧ m.ownersForKeyRange [107] [109] = none ∧
      (∃ owners, m.ownersForRange [107] [109] = some owners) ∧ m.owners [108] = some [[97]] := by
  intro m
  have hm : m.Partitions := partitions_of_tiles (.cons rfl (by decide) (.last rfl rfl))
  refine ⟨hm, rfl, ?_, ?_⟩
  · refine (owners_of_gates hm [107] [109]).2.1.mpr ⟨⟨[107], by decide⟩, ?_⟩
    exact ⟨_, List.mem_cons_self, fun key hkey => Range.contains_iff.mpr ⟨bot_le, hkey.2⟩⟩
  · exact (owners_of_gates hm [107] [109]).2.2.1 [[97]] rfl [108] (by decide)

end RangeMap
end ChudDB.Cluster
