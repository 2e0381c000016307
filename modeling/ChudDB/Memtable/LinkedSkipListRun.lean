import ChudDB.Memtable.LinkedSkipListInsert

/-! # The skip list over sequences of operations

`Represents` says which nodes make up the levels of the list model `SkipList`. Every operation
returns and keeps this relation, so what holds of the levels after any sequence of operations holds
of the nodes. -/

namespace ChudDB
open Lib

/-- The nodes of a skip list, and the levels that they make up. -/
structure Represents {cfg : SkipListConfig} (s : LinkedSkipList cfg) (t : SkipList cfg)
    (levels : List NodeLevel) : Prop extends WellLinked s.heap levels where
  entries : levels.map (NodeLevel.entries s.heap) = t.levels
  head : levels.getLast?.map NodeLevel.sentinel = some s.head
  bottomHead : levels.head?.map NodeLevel.sentinel = some s.bottomHead
  byteSize : s.byteSize = t.byteSize
  flipped : s.flipped = t.flipped

namespace Represents
open NodeLevel
variable {cfg : SkipListConfig} {s : LinkedSkipList cfg} {t : SkipList cfg}
  {levels : List NodeLevel} {key : Key}

theorem length (hr : Represents s t levels) : levels.length = cfg.levels := by
  rw [← t.valid.length, ← hr.entries, List.length_map]

theorem ascending (hr : Represents s t levels) (hl : l ∈ levels) : Ascending (l.entries s.heap) :=
  t.valid.ascending _ (hr.entries ▸ List.mem_map_of_mem hl)

/-- A level has fewer nodes than have been allocated. -/
theorem length_nodes_lt (hr : Represents s t levels) {l : NodeLevel} (hl : l ∈ levels) :
    l.nodes.length < s.heap.size := by
  have hnodup : l.ptrs.Nodup := (List.nodup_flatMap.mp hr.nodup).1 l hl
  exact length_le_of_nodup_of_lt hnodup (hr.allocated l hl)

theorem searchable (hr : Represents s t levels) : s.heap.Searchable levels.reverse where
  linked l hl := hr.linked l (List.mem_reverse.mp hl)
  ascending _ hl := hr.ascending (List.mem_reverse.mp hl)
  size _ hl := hr.length_nodes_lt (List.mem_reverse.mp hl)
  stacked := List.isChain_reverse.mpr hr.stacked

theorem enters (hr : Represents s t levels) (key : Key) :
    s.heap.Enters key (some s.head) levels.reverse := by
  intro l hl
  have hhead := hr.head
  rw [List.head?_reverse] at hl
  rw [hl, Option.map_some] at hhead
  exact ⟨_, hhead.symm, .inl rfl⟩

theorem findInsertPath (hr : Represents s t levels) :
    s.heap.findInsertPath key cfg.levels (some s.head) =
      some (levels.map (left (below s.heap key))) := by
  have hpath := SkipHeap.findInsertPath_eq hr.searchable (hr.enters key)
  rwa [List.length_reverse, hr.length, List.map_reverse, List.reverse_reverse] at hpath

/-- The sentinels from the highest level down. -/
theorem linked_sentinels {h : SkipHeap}
    (hchain : levels.IsChain fun upper lower => Stacked h lower upper)
    (hend : ∀ l ∈ levels.getLast?, h.down l.sentinel = none) :
    Linked h.down (levels.head?.map sentinel) (levels.map sentinel) := by
  induction levels with
  | nil => rfl
  | cons upper levels ih =>
    refine ⟨rfl, ?_⟩
    cases levels with
    | nil => exact hend upper rfl
    | cons lower levels =>
      obtain ⟨hst, hrest⟩ := List.isChain_cons_cons.mp hchain
      rw [hst.sentinel]
      exact ih hrest hend

/-- The lowest level and those above it. -/
theorem exists_bottom (hr : Represents s t levels) :
    ∃ bottom above, levels = bottom :: above ∧ bottom.sentinel = s.bottomHead ∧
      bottom.entries s.heap = t.toRaw := by
  have hbottom := hr.bottomHead
  have hentries := hr.entries
  cases levels with
  | nil => cases hbottom
  | cons bottom above =>
    refine ⟨bottom, above, rfl, Option.some.inj hbottom, ?_⟩
    rw [SkipList.toRaw, ← hentries]
    rfl

theorem toRaw (hr : Represents s t levels) : s.toRaw = some t.toRaw := by
  obtain ⟨bottom, above, rfl, hsentinel, hraw⟩ := hr.exists_bottom
  have hvisit := visit_eq (hr.linked bottom List.mem_cons_self)
    (hr.length_nodes_lt List.mem_cons_self)
  rw [LinkedSkipList.toRaw, ← hsentinel, hvisit, Option.map_some, ← hraw]
  rfl

theorem get (hr : Represents s t levels) (tombstone : Value) (key : Key) :
    s.get tombstone key = some (t.get tombstone key) := by
  obtain ⟨bottom, above, rfl, -, hraw⟩ := hr.exists_bottom
  have hs := hr.searchable
  have henter := hr.enters key
  rw [List.reverse_cons] at hs henter
  have hnested : ∀ l ∈ above, (l.entries s.heap).Sublist (bottom.entries s.heap) := by
    have hn := t.valid.nested
    rw [← hr.entries, List.map_cons, List.pairwise_cons] at hn
    exact fun l hl => hn.1 _ (List.mem_map_of_mem hl)
  have hlength := hr.length
  rw [List.length_cons] at hlength
  rw [LinkedSkipList.get, SkipList.get_eq, ← hraw]
  refine SkipHeap.getFrom_eq hs henter (fun l hl => hnested l (List.mem_reverse.mp hl))
    (hr.bottom bottom rfl) ?_
  rw [List.length_reverse]
  omega

/-- Setting the value of a key that is there. -/
theorem add_of_some (hr : Represents s t levels) (value : Value)
    (hold : t.toRaw.lookup key = some old) :
    ∃ s', s.add key value = some s' ∧ Represents s' (t.add key value) levels := by
  obtain ⟨bottom, above, heq, -, hraw⟩ := hr.exists_bottom
  have hbottom : bottom ∈ levels := heq ▸ List.mem_cons_self
  obtain ⟨hlevels, hbytes, hflipped⟩ := t.add_of_some value hold
  rw [← hraw, lookup_entries (hr.linked bottom hbottom) (hr.ascending hbottom)] at hold
  obtain ⟨p, hright, rfl⟩ := Option.map_eq_some_iff.mp hold
  have hcell := s.heap.updateNodes_cell key value (levels.map (left (below s.heap key)))
  refine ⟨{ s with
    heap := s.heap.updateNodes key value (levels.map (left (below s.heap key)))
    byteSize := s.byteSize + (entryBytes key value - entryBytes key (s.heap.cell p).value) }, ?_,
    hr.toWellLinked.congr (s.heap.updateNodes_size ..) fun q => ?_, ?_, hr.head, hr.bottomHead,
    ?_, hr.flipped.trans hflipped.symm⟩
  · rw [LinkedSkipList.add, hr.findInsertPath, Option.bind_some, heq, List.map_cons,
      List.head?_cons, Option.bind_some, hright]
  · rw [SkipHeap.right, SkipHeap.down, hcell]
    split <;> exact ⟨rfl, rfl, rfl⟩
  · rw [hlevels, ← hr.entries, List.map_map]
    refine List.map_congr_left fun l hl => ?_
    simp only [Function.comp_apply, NodeLevel.entries, SkipList.replace, List.map_map]
    refine List.map_congr_left fun q hq => ?_
    -- the loop reaches the node of every level that has the key
    have hmem : q ∈ (levels.map (left (below s.heap key))).filterMap (s.heap.rightWith key) ↔
        (s.heap.cell q).key = key := by
      rw [List.filterMap_map, List.mem_filterMap]
      constructor
      · rintro ⟨l', hl', hsome⟩
        exact ((rightWith_left (hr.linked l' hl') (hr.ascending hl')).mp hsome).2
      · exact fun hkey =>
          ⟨l, hl, (rightWith_left (hr.linked l hl) (hr.ascending hl)).mpr ⟨hq, hkey⟩⟩
    rw [SkipHeap.entry, hcell, Function.comp_apply]
    by_cases hkey : (s.heap.entry q).1 = key
    · rw [if_pos (hmem.mpr hkey), if_pos hkey, ← hkey]
      rfl
    · rw [if_neg (mt hmem.mp hkey), if_neg hkey]
      rfl
  · rw [hbytes, ← hr.byteSize]

/-- Linking in a new key. -/
theorem add_of_none (hr : Represents s t levels) (value : Value)
    (hold : t.toRaw.lookup key = none) :
    ∃ s' levels', s.add key value = some s' ∧ Represents s' (t.add key value) levels' := by
  obtain ⟨bottom, above, heq, -, hraw⟩ := hr.exists_bottom
  have hbottom : bottom ∈ levels := heq ▸ List.mem_cons_self
  obtain ⟨hlevels, hbytes, hflipped⟩ := t.add_of_none value hold
  have hnot : ∀ l ∈ levels, ∀ e ∈ l.entries s.heap, e.1 ≠ key := by
    have hne := SkipList.ne_of_lookup_eq_none t.valid hold
    rw [← hr.entries] at hne
    exact fun l hl => hne _ (List.mem_map_of_mem hl)
  rw [← hraw, lookup_entries (hr.linked bottom hbottom) (hr.ascending hbottom),
    Option.map_eq_none_iff] at hold
  rw [← hr.flipped] at hlevels hflipped
  have hle : (SkipList.randomLevel cfg cfg.levels 1 s.flipped).1 ≤ levels.length := by
    rw [hr.length]
    exact SkipList.randomLevel_le (Nat.le_max_right _ _)
  have hpos : 0 < (SkipList.randomLevel cfg cfg.levels 1 s.flipped).1 :=
    SkipList.randomLevel_pos Nat.one_pos
  obtain ⟨h', hinsert, hins⟩ := SkipHeap.exists_insertNodes (below s.heap key) key value
    hr.nodup hr.allocated hr.linked hle
  generalize hrandom : SkipList.randomLevel cfg cfg.levels 1 s.flipped = r
    at hlevels hflipped hle hpos hinsert hins
  refine ⟨{ s with
    heap := h'.linkDown (List.range' s.heap.size r.1)
    byteSize := s.byteSize + entryBytes key value
    flipped := r.2 }, insertAll (below s.heap key) s.heap.size r.1 levels, ?_,
    hr.toWellLinked.insert hins hpos hle, ?_, ?_, ?_, ?_, hflipped.symm⟩
  · have hhead : (levels.map (left (below s.heap key))).head? =
        some (bottom.left (below s.heap key)) := by
      rw [heq]
      rfl
    rw [LinkedSkipList.add, hr.findInsertPath, Option.bind_some, hhead, Option.bind_some, hold]
    simp only [hrandom]
    rw [hinsert, Option.map_some]
  · obtain ⟨-, hcell⟩ := SkipHeap.linkDown_range' s.heap.size r.1 h'
    rw [hlevels, ← hr.entries]
    refine entries_insertAll (fun l hl => hr.ascending hl) hnot (fun l hl p hp => ?_)
      fun p hge hlt => ?_
    · have hp := hr.allocated l hl p (List.mem_cons_of_mem _ hp)
      rw [SkipHeap.entry, hcell, if_neg (by omega), hins.old p hp, SkipHeap.entry]
    · rw [SkipHeap.entry, hcell, hins.new p hge hlt]
      split <;> rfl
  · rw [← List.getLast?_map, map_sentinel_insertAll, List.getLast?_map]
    exact hr.head
  · rw [← List.head?_map, map_sentinel_insertAll, List.head?_map]
    exact hr.bottomHead
  · rw [hbytes, ← hr.byteSize]

theorem add (hr : Represents s t levels) (key : Key) (value : Value) :
    ∃ s' levels', s.add key value = some s' ∧ Represents s' (t.add key value) levels' := by
  cases hold : t.toRaw.lookup key with
  | some old =>
    obtain ⟨s', hadd, hr'⟩ := hr.add_of_some value hold
    exact ⟨s', levels, hadd, hr'⟩
  | none => exact hr.add_of_none value hold

end Represents

namespace SkipHeap

/-- The sentinels that `reset` allocates: each is below the one before it. -/
theorem addSentinels_spec (n curr : Nat) (h : SkipHeap) (hsize : h.size = curr + 1)
    (hcurr : h.cell curr = {}) :
    (addSentinels n curr h).2 = curr + n ∧ (addSentinels n curr h).1.size = curr + 1 + n ∧
    (∀ p < curr, (addSentinels n curr h).1.cell p = h.cell p) ∧
    ∀ p, curr ≤ p → p ≤ curr + n → (addSentinels n curr h).1.cell p =
      { down := if p < curr + n then some (p + 1) else none } := by
  induction n generalizing curr h with
  | zero =>
    refine ⟨rfl, hsize, fun _ _ => rfl, fun p hge hle => ?_⟩
    obtain rfl : p = curr := by omega
    rw [if_neg (by omega)]
    exact hcurr
  | succ n ih =>
    have hcell : ∀ p, (addSentinel curr h).cell p =
        if p = curr then { down := some (curr + 1) }
        else if p = curr + 1 then {} else h.cell p := by
      intro p
      rw [addSentinel, modify_cell, alloc_cell, alloc_cell, hsize,
        if_neg (by omega : curr ≠ curr + 1), hcurr]
    obtain ⟨hptr, hsize', hold, hnew⟩ := ih (curr + 1) (addSentinel curr h)
      (congrArg (· + 1) hsize) (by rw [hcell, if_neg (by omega), if_pos rfl])
    rw [addSentinels, hsize]
    refine ⟨by omega, by omega, fun p hp => ?_, fun p hge hle => ?_⟩
    · rw [hold p (by omega), hcell, if_neg (by omega), if_neg (by omega)]
    · rcases Nat.eq_or_lt_of_le hge with rfl | hgt
      · rw [hold _ (by omega), hcell, if_pos rfl, if_pos (by omega)]
      · rw [hnew p hgt (by omega), Nat.add_right_comm, Nat.add_assoc]

/-- Nodes of which each is below the one before it. -/
theorem isChain_range' {h : SkipHeap}
    (hdown : ∀ p, m ≤ p → p + 1 < m + n → h.down p = some (p + 1)) :
    (List.range' m n).IsChain fun upper lower => h.down upper = some lower := by
  induction n generalizing m with
  | zero => exact .nil
  | succ n ih =>
    cases n with
    | zero => exact .singleton _
    | succ n =>
      refine .cons_cons (hdown m (le_refl m) (by omega)) (@ih (m + 1) fun p hge hlt => ?_)
      exact hdown p (by omega) (by omega)

end SkipHeap

/-- Levels without nodes; their sentinels have been allocated from the highest down. -/
def emptyLevels (start n : Nat) : List NodeLevel :=
  (List.range' start n).reverse.map fun p => ⟨p, []⟩

theorem wellLinked_emptyLevels {h : SkipHeap} {start n : Nat} (hpos : 0 < n)
    (hcell : ∀ p, start ≤ p → p < start + n →
      h.cell p = { down := if p + 1 < start + n then some (p + 1) else none })
    (hsize : start + n ≤ h.size) : WellLinked h (emptyLevels start n) := by
  have hmem : ∀ l ∈ emptyLevels start n, ∃ p, (start ≤ p ∧ p < start + n) ∧ l = ⟨p, []⟩ := by
    intro l hl
    obtain ⟨p, hp, rfl⟩ := List.mem_map.mp hl
    exact ⟨p, List.mem_range'_1.mp (List.mem_reverse.mp hp), rfl⟩
  constructor
  · intro l hl
    obtain ⟨p, ⟨hge, hlt⟩, rfl⟩ := hmem l hl
    rw [NodeLevel.IsLinked, SkipHeap.right, hcell p hge hlt]
    rfl
  · rw [emptyLevels, List.isChain_map, List.isChain_reverse]
    refine List.IsChain.imp (fun upper lower hdown => ⟨hdown, List.forall_mem_nil _⟩)
      (SkipHeap.isChain_range' fun p hge hlt => ?_)
    rw [SkipHeap.down, hcell p hge (by omega), if_pos hlt]
  · intro l hl p hp
    rw [emptyLevels, List.head?_map, List.head?_reverse, List.getLast?_range',
      if_neg hpos.ne'] at hl
    cases hl
    have hlast : p = start + n - 1 := List.mem_singleton.mp hp
    rw [SkipHeap.down, hcell p (by omega) (by omega), if_neg (by omega)]
  · rw [emptyLevels, List.flatMap_map]
    simp only [NodeLevel.ptrs, List.flatMap_singleton']
    exact List.nodup_reverse.mpr List.nodup_range'
  · intro l hl p hp
    obtain ⟨q, ⟨-, hlt⟩, rfl⟩ := hmem l hl
    obtain rfl := List.mem_singleton.mp hp
    exact hlt.trans_le hsize

namespace Represents
open NodeLevel
variable {cfg : SkipListConfig} {s : LinkedSkipList cfg} {t : SkipList cfg}
  {levels : List NodeLevel} {key : Key}

theorem levels_pos (cfg : SkipListConfig) : 0 < cfg.levels :=
  Nat.lt_of_lt_of_le Nat.one_pos (Nat.le_max_right _ _)

/-- `reset` leaves empty levels, whatever was there before. -/
theorem reset (s : LinkedSkipList cfg) (t : SkipList cfg) (hflipped : s.flipped = t.flipped) :
    ∃ levels, Represents s.reset t.clear levels := by
  have hpos := levels_pos cfg
  obtain ⟨hptr, hsize, -, hnew⟩ := SkipHeap.addSentinels_spec (cfg.levels - 1) s.heap.size
    (s.heap.alloc {}) rfl (by rw [SkipHeap.alloc_cell, if_pos rfl])
  have hcell : ∀ p, s.heap.size ≤ p → p < s.heap.size + cfg.levels →
      s.reset.heap.cell p =
        { down := if p + 1 < s.heap.size + cfg.levels then some (p + 1) else none } := by
    intro p hge hlt
    refine (hnew p hge (by omega)).trans ?_
    congr 1
    exact if_congr (by omega) rfl rfl
  have hle : s.heap.size + cfg.levels ≤ s.reset.heap.size := (hsize.trans (by omega)).ge
  refine ⟨emptyLevels s.heap.size cfg.levels, wellLinked_emptyLevels hpos hcell hle, ?_, ?_, ?_, rfl,
    hflipped⟩
  · refine List.eq_replicate_iff.mpr ⟨?_, fun level hlevel => ?_⟩
    · rw [emptyLevels, List.length_map, List.length_map, List.length_reverse, List.length_range']
    · obtain ⟨l, hl, rfl⟩ := List.mem_map.mp hlevel
      obtain ⟨p, -, rfl⟩ := List.mem_map.mp hl
      rfl
  · rw [emptyLevels, List.getLast?_map, List.getLast?_reverse, List.head?_range', if_neg hpos.ne']
    rfl
  · rw [emptyLevels, List.head?_map, List.head?_reverse, List.getLast?_range', if_neg hpos.ne']
    exact congrArg some ((Nat.add_sub_assoc hpos _).trans hptr.symm)

/-- The levels as they are found from the head on. -/
theorem levels_eq (hr : Represents s t levels) : s.levels = some t.levels.reverse := by
  have hhead : levels.reverse.head?.map sentinel = some s.head := by
    rw [List.head?_reverse]
    exact hr.head
  have hlinked : Linked s.heap.down (some s.head) (levels.reverse.map sentinel) := by
    rw [← hhead]
    refine linked_sentinels hr.searchable.stacked fun l hl => ?_
    rw [List.getLast?_reverse] at hl
    exact hr.bottom l hl l.sentinel List.mem_cons_self
  have hfuel : (levels.reverse.map sentinel).length < cfg.levels + 1 := by
    rw [List.length_map, List.length_reverse, hr.length]
    exact Nat.lt_succ_self _
  rw [LinkedSkipList.levels, visit_eq hlinked hfuel, Option.bind_some, ← hr.entries,
    ← List.map_reverse]
  refine mapM_map_eq_some fun l hl => ?_
  have hl := List.mem_reverse.mp hl
  rw [visit_eq (hr.linked l hl) (hr.length_nodes_lt hl), Option.map_some]
  rfl

end Represents

/-! ## Sequences of operations -/

namespace LinkedSkipList
variable {cfg : SkipListConfig}

/-- An operation that changes the list. -/
def step : System (LinkedSkipList cfg) MemtableOp
  | s, .add key value => s.add key value
  | s, .clear => some s.clear
  | s, .takeSnapshot => s.takeSnapshot.map Prod.snd

/-- The nodes make up levels of which the lowest lists the entries. -/
def Lists (s : LinkedSkipList cfg) (raw : List KeyValue) : Prop :=
  ∃ t levels, Represents s t levels ∧ t.toRaw = raw

theorem lists_reset (s : LinkedSkipList cfg) (t : SkipList cfg) (hflipped : s.flipped = t.flipped) :
    Lists s.reset [] := by
  obtain ⟨levels, hr⟩ := Represents.reset s t hflipped
  exact ⟨t.clear, levels, hr, t.toRaw_clear⟩

/-- Every sequence of operations returns, and the list then holds the last values. -/
theorem exists_run (cfg : SkipListConfig) (ops : List MemtableOp) :
    ∃ s raw, step.run (newSkipList cfg) ops = some s ∧ Lists s raw ∧ ListsLast ops raw := by
  refine exists_run_listsLast (lists_reset _ (.newSkipList cfg) rfl) ?_ ?_ ?_ ops
  · rintro s _ key value ⟨t, levels, hr, rfl⟩
    obtain ⟨s', levels', hadd, hr'⟩ := hr.add key value
    exact ⟨s', hadd, _, levels', hr', t.toRaw_add⟩
  · rintro s _ ⟨t, levels, hr, rfl⟩
    exact ⟨s.reset, rfl, lists_reset s t hr.flipped⟩
  · rintro s _ ⟨t, levels, hr, rfl⟩
    refine ⟨s.reset, ?_, lists_reset s t hr.flipped⟩
    rw [step, takeSnapshot, hr.toRaw]
    rfl

/-- After every sequence of operations, with any number of levels and any coins: the levels are
sorted, and each is part of the one below it; `ToRaw` and `TakeSnapshot` list the last values, `Get`
finds them, and `GetSize` is their size. -/
theorem skipList_refines_map (maxLevel : Nat) (flips : Nat → Bool) (ops : List MemtableOp)
    (tombstone : Value) :
    ∃ s levels raw, step.run (newSkipList ⟨maxLevel, flips⟩) ops = some s ∧
      s.levels = some levels ∧ levels.length = max maxLevel 1 ∧
      (∀ level ∈ levels, Ascending level) ∧
      levels.Pairwise (fun upper lower => upper.Sublist lower) ∧
      s.toRaw = some raw ∧ s.takeSnapshot = some (raw, s.clear) ∧ ListsLast ops raw ∧
      (∀ key, s.get tombstone key = some (live tombstone (lastAdded ops key))) ∧
      s.getSize = bytesOf raw := by
  obtain ⟨s, _, hrun, ⟨t, nodes, hr, rfl⟩, hlast⟩ := exists_run ⟨maxLevel, flips⟩ ops
  refine ⟨s, t.levels.reverse, t.toRaw, hrun, hr.levels_eq, ?_, ?_, ?_, hr.toRaw, ?_, hlast,
    fun key => ?_, ?_⟩
  · rw [List.length_reverse, t.valid.length]
    rfl
  · exact fun level hl => t.valid.ascending level (List.mem_reverse.mp hl)
  · exact List.pairwise_reverse.mpr t.valid.nested
  · rw [takeSnapshot, hr.toRaw]
    rfl
  · rw [hr.get, t.get_eq, hlast.lookup_eq]
  · rw [getSize, hr.byteSize, t.byteSize_eq, SkipList.toRaw]

end LinkedSkipList

end ChudDB
