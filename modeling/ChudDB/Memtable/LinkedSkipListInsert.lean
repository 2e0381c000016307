import ChudDB.Memtable.LinkedSkipList

/-! # Linking nodes into the skip list

A new key gets a node on each of its levels, linked in behind the node that the search has left, and
linked down to the node of the level below. `Inserted` is what the first loop does to the heap, and
`linkDown_range'` what the second does. The levels that come out are again linked, stacked and
without common nodes (`WellLinked.insert`), and each has the new entry in its place. -/

namespace ChudDB
open Lib

namespace NodeLevel
variable {h h' : SkipHeap} {l : NodeLevel} {levels : List NodeLevel} {pass : Nat → Bool} {new : Nat}

/-- The level with a new node behind those that are passed. -/
def insert (pass : Nat → Bool) (new : Nat) (l : NodeLevel) : NodeLevel :=
  ⟨l.sentinel, l.nodes.takeWhile pass ++ new :: l.nodes.dropWhile pass⟩

/-- The levels of which the lowest `n` have been given new nodes, one after the other. -/
def insertAll (pass : Nat → Bool) : Nat → Nat → List NodeLevel → List NodeLevel
  | _, 0, levels => levels
  | _, _ + 1, [] => []
  | new, n + 1, l :: levels => l.insert pass new :: insertAll pass (new + 1) n levels

theorem IsLinked.congr (hl : l.IsLinked h) (hright : ∀ p ∈ l.ptrs, h'.right p = h.right p) :
    l.IsLinked h' := by
  rw [IsLinked, hright _ List.mem_cons_self]
  exact Linked.congr hl fun p hp => hright p (List.mem_cons_of_mem _ hp)

theorem left_mem (pass : Nat → Bool) (l : NodeLevel) : l.left pass ∈ l.ptrs :=
  ((List.takeWhile_sublist pass).cons_cons l.sentinel).subset List.getLastD_mem_cons

theorem perm_insert (pass : Nat → Bool) (new : Nat) (l : NodeLevel) :
    (l.insert pass new).ptrs.Perm (new :: l.ptrs) := by
  have hmiddle : (l.sentinel :: l.nodes.takeWhile pass ++ new :: l.nodes.dropWhile pass).Perm
      (new :: (l.sentinel :: l.nodes.takeWhile pass ++ l.nodes.dropWhile pass)) :=
    List.perm_middle
  rwa [List.cons_append, List.cons_append, List.takeWhile_append_dropWhile] at hmiddle

theorem perm_insertAll (pass : Nat → Bool) (new : Nat) (hn : n ≤ levels.length) :
    ((insertAll pass new n levels).flatMap ptrs).Perm
      (List.range' new n ++ levels.flatMap ptrs) := by
  induction levels generalizing new n with
  | nil =>
    obtain rfl := Nat.le_zero.mp hn
    exact .refl _
  | cons l levels ih =>
    cases n with
    | zero => exact .refl _
    | succ n =>
      rw [insertAll, List.flatMap_cons, List.flatMap_cons, List.range'_succ]
      refine ((perm_insert pass new l).append (ih (new + 1) (Nat.le_of_succ_le_succ hn))).trans ?_
      rw [List.cons_append, List.cons_append, ← List.append_assoc, ← List.append_assoc]
      exact (List.perm_append_comm.append_right _).cons new

theorem map_sentinel_insertAll (pass : Nat → Bool) (new : Nat) (n : Nat)
    (levels : List NodeLevel) :
    (insertAll pass new n levels).map sentinel = levels.map sentinel := by
  induction levels generalizing new n with
  | nil => cases n <;> rfl
  | cons l levels ih =>
    cases n with
    | zero => rfl
    | succ n =>
      rw [insertAll, List.map_cons, ih, List.map_cons]
      rfl

end NodeLevel

namespace SkipHeap
open NodeLevel
variable {h h' : SkipHeap} {levels : List NodeLevel} {key : Key} {value : Value} {pass : Nat → Bool}

/-- What the loop over the new nodes does: only links to the right of old nodes change, on the
levels that get a new node. -/
structure Inserted (pass : Nat → Bool) (key : Key) (value : Value) (n : Nat)
    (levels : List NodeLevel) (h h' : SkipHeap) : Prop where
  size : h'.size = h.size + n
  old : ∀ p < h.size, h'.cell p = { h.cell p with right := h'.right p }
  other : ∀ p < h.size, (∀ l ∈ levels, p ∉ l.ptrs) → h'.right p = h.right p
  new : ∀ p, h.size ≤ p → p < h.size + n →
    h'.cell p = { key := key, value := value, right := h'.right p }
  linked : ∀ l ∈ insertAll pass h.size n levels, l.IsLinked h'

theorem linkNew_cell {left : Nat} (hleft : left < h.size) (p : Nat) :
    (linkNew key value left h).cell p =
    if p = h.size then { key := key, value := value, right := h.right left }
    else if p = left then { h.cell left with right := some h.size } else h.cell p := by
  have hne : left ≠ h.size := hleft.ne
  rw [linkNew, modify_cell, alloc_cell, alloc_cell, if_neg hne]
  by_cases hp : p = left
  · rw [if_pos hp, if_pos hp, if_neg (hp ▸ hne)]
  · rw [if_neg hp, if_neg hp]

theorem linkNew_right {left : Nat} (hleft : left < h.size) (hp : p < h.size) (hne : p ≠ left) :
    (linkNew key value left h).right p = h.right p := by
  rw [right, linkNew_cell hleft, if_neg hp.ne, if_neg hne, right]

/-- The first level after the first iteration. -/
theorem isLinked_linkNew {l : NodeLevel} (hl : l.IsLinked h) (hnodup : l.ptrs.Nodup)
    (hsize : ∀ p ∈ l.ptrs, p < h.size) :
    (l.insert pass h.size).IsLinked (linkNew key value (l.left pass) h) := by
  have hleft : l.left pass < h.size := hsize _ (left_mem pass l)
  have hsplit : l.nodes.takeWhile pass ++ l.nodes.dropWhile pass = l.nodes :=
    List.takeWhile_append_dropWhile
  have hlinked : Linked h.right (h.right l.sentinel)
      (l.nodes.takeWhile pass ++ l.nodes.dropWhile pass) := by
    rw [hsplit]
    exact hl
  refine hlinked.splice ?_ ?_ ?_ ?_
  · rw [hsplit]
    exact hnodup
  · rw [right, linkNew_cell hleft, if_pos rfl]
    rfl
  · change (linkNew key value (l.left pass) h).right (l.left pass) = _
    rw [right, linkNew_cell hleft, if_neg hleft.ne, if_pos rfl]
  · intro p hp hne
    rw [hsplit] at hp
    exact linkNew_right hleft (hsize p hp) hne

theorem inserted_zero (hlinked : ∀ l ∈ levels, l.IsLinked h) :
    Inserted pass key value 0 levels h h where
  size := rfl
  old _ _ := rfl
  other _ _ _ := rfl
  new _ hle hlt := absurd hle (not_le.mpr hlt)
  linked := hlinked

/-- The first iteration and the others. -/
theorem Inserted.cons {l : NodeLevel}
    (hins : Inserted pass key value n levels (linkNew key value (l.left pass) h) h')
    (hl : l.IsLinked h) (hnodup : l.ptrs.Nodup) (hsize : ∀ p ∈ l.ptrs, p < h.size)
    (hdisj : ∀ l' ∈ levels, ∀ p ∈ l.ptrs, p ∉ l'.ptrs)
    (hold : ∀ l' ∈ levels, ∀ p ∈ l'.ptrs, p < h.size) :
    Inserted pass key value (n + 1) (l :: levels) h h' := by
  have hleft : l.left pass < h.size := hsize _ (left_mem pass l)
  have hcell := @linkNew_cell h key value (l.left pass) hleft
  have hgrown : (linkNew key value (l.left pass) h).size = h.size + 1 := rfl
  constructor
  · rw [hins.size, hgrown]
    omega
  · intro p hp
    rw [hins.old p (by omega), hcell, if_neg hp.ne]
    by_cases heq : p = l.left pass
    · rw [if_pos heq, heq]
    · rw [if_neg heq]
  · intro p hp hother
    rw [hins.other p (by omega) fun l' hl' => hother l' (List.mem_cons_of_mem _ hl')]
    refine linkNew_right hleft hp ?_
    rintro rfl
    exact hother l List.mem_cons_self (left_mem pass l)
  · intro p hle hlt
    rcases Nat.eq_or_lt_of_le hle with rfl | hgt
    · rw [hins.old _ (by omega), hcell, if_pos rfl]
    · exact hins.new p (by omega) (by omega)
  · intro l' hl'
    rcases List.mem_cons.mp hl' with rfl | hl'
    · have hfirst : (l.insert pass h.size).IsLinked (linkNew key value (l.left pass) h) :=
        isLinked_linkNew hl hnodup hsize
      refine hfirst.congr fun p hp => ?_
      rcases List.mem_cons.mp ((perm_insert pass h.size l).mem_iff.mp hp) with rfl | hp
      · exact hins.other _ (by omega) fun l' hl' hmem => (hold l' hl' _ hmem).ne rfl
      · have hlt := hsize p hp
        exact hins.other p (by omega) fun l' hl' => hdisj l' hl' p hp
    · exact hins.linked l' hl'

theorem exists_insertNodes (pass : Nat → Bool) (key : Key) (value : Value)
    (hnodup : (levels.flatMap ptrs).Nodup)
    (hsize : ∀ l ∈ levels, ∀ p ∈ l.ptrs, p < h.size) (hlinked : ∀ l ∈ levels, l.IsLinked h)
    (hn : n ≤ levels.length) :
    ∃ h', insertNodes key value (levels.map (left pass)) n h =
        some (h', List.range' h.size n) ∧
      Inserted pass key value n levels h h' := by
  induction levels generalizing h n with
  | nil =>
    obtain rfl := Nat.le_zero.mp hn
    exact ⟨h, rfl, inserted_zero hlinked⟩
  | cons l levels ih =>
    cases n with
    | zero => exact ⟨h, rfl, inserted_zero hlinked⟩
    | succ n =>
      rw [List.flatMap_cons, List.nodup_append] at hnodup
      obtain ⟨hnodup, hrest, hdisj⟩ := hnodup
      have hold := fun l' hl' => hsize l' (List.mem_cons_of_mem l hl')
      have hleft := hsize l List.mem_cons_self _ (left_mem pass l)
      have hapart : ∀ l' ∈ levels, ∀ p ∈ l.ptrs, p ∉ l'.ptrs := fun l' hl' p hp hp' =>
        hdisj p hp p (List.mem_flatMap.mpr ⟨l', hl', hp'⟩) rfl
      obtain ⟨h', heq, hins⟩ := ih (h := linkNew key value (l.left pass) h) hrest
        (fun l' hl' p hp => Nat.lt_succ_of_lt (hold l' hl' p hp))
        (fun l' hl' => (hlinked l' (List.mem_cons_of_mem l hl')).congr fun p hp =>
          linkNew_right hleft (hold l' hl' p hp)
            fun heq => hapart l' hl' _ (left_mem pass l) (heq ▸ hp))
        (Nat.le_of_succ_le_succ hn)
      refine ⟨h', ?_, hins.cons (hlinked l List.mem_cons_self) hnodup
        (hsize l List.mem_cons_self) hapart hold⟩
      rw [List.map_cons, insertNodes, heq, List.range'_succ]
      rfl

theorem linkDown_range' (m n : Nat) (h : SkipHeap) :
    (linkDown (List.range' m n) h).size = h.size ∧ ∀ p,
      (linkDown (List.range' m n) h).cell p =
        if m < p ∧ p < m + n then { h.cell p with down := some (p - 1) } else h.cell p := by
  induction n generalizing m h with
  | zero => exact ⟨rfl, fun p => (if_neg (by omega)).symm⟩
  | succ n ih =>
    cases n with
    | zero => exact ⟨rfl, fun p => (if_neg (by omega)).symm⟩
    | succ n =>
      obtain ⟨hsize, hcell⟩ :=
        ih (m + 1) (h.modify (m + 1) fun node => { node with down := some m })
      refine ⟨hsize, fun p => (hcell p).trans ?_⟩
      rw [modify_cell]
      by_cases hp : p = m + 1
      · rw [if_neg (by omega), if_pos hp, if_pos (by omega), hp, Nat.add_sub_cancel]
      · rw [if_neg hp]
        exact if_congr (by omega) rfl rfl

end SkipHeap

/-! ## The nodes and the levels -/

namespace WellLinked
open NodeLevel
variable {h h' : SkipHeap} {levels : List NodeLevel} {key : Key} {value : Value} {pass : Nat → Bool}

theorem congr (hwl : WellLinked h levels) (hsize : h'.size = h.size)
    (hcell : ∀ p,
      (h'.cell p).key = (h.cell p).key ∧ h'.right p = h.right p ∧ h'.down p = h.down p) :
    WellLinked h' levels where
  linked l hl := (hwl.linked l hl).congr fun p _ => (hcell p).2.1
  stacked := by
    refine hwl.stacked.imp fun lower upper hst => ⟨?_, fun p hp => ?_⟩
    · rw [(hcell _).2.2]
      exact hst.sentinel
    · obtain ⟨q, hq, hdown, hkey⟩ := hst.nodes p hp
      exact ⟨q, hq, (hcell p).2.2.trans hdown, by rw [(hcell q).1, (hcell p).1, hkey]⟩
  bottom l hl p hp := (hcell p).2.2.trans (hwl.bottom l hl p hp)
  nodup := hwl.nodup
  allocated l hl p hp := hsize ▸ hwl.allocated l hl p hp

end WellLinked

namespace NodeLevel
variable {h h' : SkipHeap} {l lower lower' upper : NodeLevel} {levels : List NodeLevel} {key : Key}
  {value : Value} {pass : Nat → Bool} {new p : Nat}

theorem mem_nodes_insert : p ∈ (l.insert pass new).nodes ↔ p = new ∨ p ∈ l.nodes := by
  rw [insert, List.mem_append, List.mem_cons, or_left_comm, ← List.mem_append,
    List.takeWhile_append_dropWhile]

/-- The lower level may get more nodes. -/
theorem Stacked.grow (hst : Stacked h lower upper) (hsent : lower'.sentinel = lower.sentinel)
    (hsub : lower.nodes ⊆ lower'.nodes) (hlow : ∀ p ∈ lower.nodes, (h'.cell p).key = (h.cell p).key)
    (hup : ∀ p ∈ upper.ptrs, (h'.cell p).key = (h.cell p).key ∧ h'.down p = h.down p) :
    Stacked h' lower' upper where
  sentinel := by rw [(hup _ List.mem_cons_self).2, hst.sentinel, hsent]
  nodes p hp := by
    obtain ⟨q, hq, hdown, hkey⟩ := hst.nodes p hp
    have hp := hup p (List.mem_cons_of_mem _ hp)
    exact ⟨q, hsub hq, hp.2.trans hdown, by rw [hlow q hq, hkey, hp.1]⟩

theorem Stacked.insert (hst : Stacked h lower upper)
    (hnew : ∃ q ∈ lower.nodes, h.down new = some q ∧ (h.cell q).key = (h.cell new).key) :
    Stacked h lower (upper.insert pass new) where
  sentinel := hst.sentinel
  nodes p hp := by
    rcases mem_nodes_insert.mp hp with rfl | hp
    · exact hnew
    · exact hst.nodes p hp

/-- The new nodes have one key, and each is above the one before it. -/
theorem isChain_insertAll (key : Key) (hchain : levels.IsChain (Stacked h))
    (hold : ∀ l ∈ levels, ∀ p ∈ l.ptrs, (h'.cell p).key = (h.cell p).key ∧ h'.down p = h.down p)
    (hkey : ∀ p, new ≤ p → p < new + n → (h'.cell p).key = key)
    (hdown : ∀ p, new < p → p < new + n → h'.down p = some (p - 1)) :
    (insertAll pass new n levels).IsChain (Stacked h') := by
  induction levels generalizing new n with
  | nil =>
    cases n <;> exact .nil
  | cons lower levels ih =>
    cases levels with
    | nil =>
      cases n with
      | zero => exact .singleton _
      | succ n =>
        cases n <;> exact .singleton _
    | cons upper levels =>
      obtain ⟨hst, hrest⟩ := List.isChain_cons_cons.mp hchain
      have hlow : ∀ p ∈ lower.nodes, (h'.cell p).key = (h.cell p).key := fun p hp =>
        (hold lower List.mem_cons_self p (List.mem_cons_of_mem _ hp)).1
      have hup := hold upper (List.mem_cons_of_mem _ List.mem_cons_self)
      have hrest' := fun l hl => hold l (List.mem_cons_of_mem lower hl)
      cases n with
      | zero =>
        have hupper : (insertAll pass new 0 (upper :: levels)).IsChain (Stacked h') :=
          ih hrest hrest' hkey hdown
        exact .cons_cons (hst.grow rfl (List.Subset.refl _) hlow hup) hupper
      | succ n =>
        have hlower : Stacked h' (lower.insert pass new) upper :=
          hst.grow rfl (fun p hp => mem_nodes_insert.mpr (.inr hp)) hlow hup
        have hupper : (insertAll pass (new + 1) n (upper :: levels)).IsChain (Stacked h') :=
          ih hrest hrest' (fun p hle hlt => hkey p (by omega) (by omega))
            fun p hgt hlt => hdown p (by omega) (by omega)
        cases n with
        | zero => exact .cons_cons hlower hupper
        | succ n =>
          refine .cons_cons (hlower.insert ⟨new, mem_nodes_insert.mpr (.inl rfl), ?_, ?_⟩) hupper
          · exact hdown (new + 1) (by omega) (by omega)
          · rw [hkey new (by omega) (by omega), hkey (new + 1) (by omega) (by omega)]

theorem entries_insert (hs : Ascending (l.entries h)) (hnot : ∀ e ∈ l.entries h, e.1 ≠ key)
    (hold : ∀ p ∈ l.nodes, h'.entry p = h.entry p) (hnew : h'.entry new = (key, value)) :
    (l.insert (below h key) new).entries h' = put key value (l.entries h) := by
  have htake : (l.nodes.takeWhile (below h key)).map h'.entry =
      (l.entries h).takeWhile fun e => decide (e.1 < key) := by
    rw [entries, List.takeWhile_map]
    exact List.map_congr_left fun p hp => hold p ((List.takeWhile_sublist _).subset hp)
  have hdrop : (l.nodes.dropWhile (below h key)).map h'.entry =
      (l.entries h).dropWhile fun e => decide (e.1 < key) := by
    rw [entries, List.dropWhile_map]
    exact List.map_congr_left fun p hp => hold p ((List.dropWhile_sublist _).subset hp)
  rw [← SkipList.takeWhile_append_cons hs hnot, ← htake, ← hdrop, ← hnew, entries, insert,
    List.map_append, List.map_cons]

theorem entries_insertAll (hs : ∀ l ∈ levels, Ascending (l.entries h))
    (hnot : ∀ l ∈ levels, ∀ e ∈ l.entries h, e.1 ≠ key)
    (hold : ∀ l ∈ levels, ∀ p ∈ l.nodes, h'.entry p = h.entry p)
    (hnew : ∀ p, new ≤ p → p < new + n → h'.entry p = (key, value)) :
    (insertAll (below h key) new n levels).map (entries h') =
      ((levels.map (entries h)).take n).map (put key value) ++ (levels.map (entries h)).drop n := by
  induction levels generalizing new n with
  | nil => cases n <;> rfl
  | cons l levels ih =>
    cases n with
    | zero =>
      rw [insertAll, List.take_zero, List.map_nil, List.nil_append, List.drop_zero]
      exact List.map_congr_left fun l' hl' => List.map_congr_left (hold l' hl')
    | succ n =>
      have hfirst := entries_insert (hs l List.mem_cons_self) (hnot l List.mem_cons_self)
        (hold l List.mem_cons_self) (hnew new (by omega) (by omega))
      have hrest : (insertAll (below h key) (new + 1) n levels).map (entries h') = _ :=
        ih (fun l' hl' => hs l' (List.mem_cons_of_mem l hl'))
          (fun l' hl' => hnot l' (List.mem_cons_of_mem l hl'))
          (fun l' hl' => hold l' (List.mem_cons_of_mem l hl'))
          fun p hle hlt => hnew p (by omega) (by omega)
      rw [insertAll, List.map_cons, hfirst, hrest]
      rfl

end NodeLevel

namespace WellLinked
open NodeLevel
variable {h h' : SkipHeap} {levels : List NodeLevel} {key : Key} {value : Value} {pass : Nat → Bool}

/-- The heap after both loops. -/
theorem insert (hwl : WellLinked h levels) (hins : SkipHeap.Inserted pass key value n levels h h')
    (hpos : 0 < n) (hn : n ≤ levels.length) :
    WellLinked (h'.linkDown (List.range' h.size n)) (insertAll pass h.size n levels) := by
  obtain ⟨hsize, hcell⟩ := SkipHeap.linkDown_range' h.size n h'
  have hright : ∀ p, (h'.linkDown (List.range' h.size n)).right p = h'.right p := by
    intro p
    rw [SkipHeap.right, hcell]
    split <;> rfl
  have hold : ∀ p < h.size, ((h'.linkDown (List.range' h.size n)).cell p).key = (h.cell p).key ∧
      (h'.linkDown (List.range' h.size n)).down p = h.down p := by
    intro p hp
    rw [SkipHeap.down, hcell, if_neg (by omega), hins.old p hp]
    exact ⟨rfl, rfl⟩
  have hmem : ∀ l ∈ insertAll pass h.size n levels, ∀ p ∈ l.ptrs,
      p ∈ List.range' h.size n ++ levels.flatMap ptrs := fun l hl p hp =>
    (perm_insertAll pass h.size hn).mem_iff.mp (List.mem_flatMap.mpr ⟨l, hl, hp⟩)
  constructor
  · exact fun l hl => (hins.linked l hl).congr fun p _ => hright p
  · refine isChain_insertAll key hwl.stacked
      (fun l hl p hp => hold p (hwl.allocated l hl p hp)) (fun p hle hlt => ?_) fun p hgt hlt => ?_
    · rw [hcell, hins.new p hle hlt]
      split <;> rfl
    · rw [SkipHeap.down, hcell, if_pos ⟨hgt, hlt⟩]
  · obtain ⟨m, rfl⟩ := Nat.exists_eq_succ_of_ne_zero hpos.ne'
    cases levels with
    | nil => cases hn
    | cons bottom levels =>
      rintro _ ⟨⟩ p hp
      rcases List.mem_cons.mp ((perm_insert pass h.size bottom).mem_iff.mp hp) with rfl | hp
      · rw [SkipHeap.down, hcell, if_neg (by omega), hins.new _ (le_refl _) (by omega)]
      · rw [(hold p (hwl.allocated bottom List.mem_cons_self p hp)).2]
        exact hwl.bottom bottom rfl p hp
  · rw [(perm_insertAll pass h.size hn).nodup_iff, List.nodup_append]
    refine ⟨List.nodup_range', hwl.nodup, fun p hp q hq heq => ?_⟩
    obtain ⟨l, hl, hq⟩ := List.mem_flatMap.mp hq
    have hlt := hwl.allocated l hl q hq
    have hge := (List.mem_range'_1.mp hp).1
    omega
  · intro l hl p hp
    rw [hsize, hins.size]
    rcases List.mem_append.mp (hmem l hl p hp) with hp | hp
    · exact (List.mem_range'_1.mp hp).2
    · obtain ⟨l', hl', hp⟩ := List.mem_flatMap.mp hp
      exact (hwl.allocated l' hl' p hp).trans_le (Nat.le_add_right ..)

end WellLinked

end ChudDB
