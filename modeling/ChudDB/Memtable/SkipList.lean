import ChudDB.Memtable.Basic

/-! # The skip list memtable

`SkipList` (`skiplist.go`). A level is the chain of nodes to the right of its sentinel, and every
level is part of the level below it; the invariant is carried by the structure. A search walks right
in a level, goes down, and walks on from the node with the same key. -/

namespace ChudDB
open Lib

/-- The number of levels, and the coin flips of the random source. -/
structure SkipListConfig where
  maxLevel : Nat
  flips : Nat → Bool

/-- `NewSkipList` has at least one level. -/
def SkipListConfig.levels (cfg : SkipListConfig) : Nat := max cfg.maxLevel 1

/-- The levels of a skip list, lowest first: sorted, and each part of those below it. -/
structure SkipLevels (cfg : SkipListConfig) (levels : List (List KeyValue)) : Prop where
  length : levels.length = cfg.levels
  ascending : ∀ level ∈ levels, Ascending level
  nested : levels.Pairwise fun lower upper => upper.Sublist lower

/-- `SkipList`; `flipped` coins have been used. -/
structure SkipList (cfg : SkipListConfig) where
  levels : List (List KeyValue)
  byteSize : Int
  flipped : Nat
  valid : SkipLevels cfg levels
  byteSize_eq : byteSize = bytesOf (levels.headD [])

namespace SkipList

/-- The chain to the right of the node with the given key; `none` is the sentinel. -/
def after (pos : Option Key) (level : List KeyValue) : List KeyValue :=
  match pos with
  | none => level
  | some k => (level.dropWhile (·.1 ≠ k)).tail

/-- Walk right while the next key is smaller: the node reached, and the chain to its right. -/
def walk (key : Key) : Option Key → List KeyValue → Option Key × List KeyValue
  | pos, [] => (pos, [])
  | pos, e :: right => if e.1 < key then walk key (some e.1) right else (pos, e :: right)

/-- `findInsertPath`, highest level first: the chain to the right of each of `lefts`. -/
def findInsertPath (key : Key) : Option Key → List (List KeyValue) → List (List KeyValue)
  | _, [] => []
  | pos, level :: below =>
    let (pos, right) := walk key pos (after pos level)
    right :: findInsertPath key pos below

/-- The level in which the chain `right` at its end has been replaced. -/
def relink (level right new : List KeyValue) : List KeyValue :=
  level.take (level.length - right.length) ++ new

/-- The new value of a node that has the key. -/
def update (key : Key) (value : Value) : List KeyValue → List KeyValue
  | [] => []
  | e :: right => if e.1 = key then (key, value) :: right else e :: right

/-- The loop of `randomLevel`: the level reached, and the coins used. -/
def randomLevel (cfg : SkipListConfig) : Nat → Nat → Nat → Nat × Nat
  | 0, level, flipped => (level, flipped)
  | fuel + 1, level, flipped =>
    if level < cfg.levels then
      if cfg.flips flipped then randomLevel cfg fuel (level + 1) (flipped + 1)
      else (level, flipped + 1)
    else (level, flipped)

/-- The value of the first node of a chain, if it has the key. -/
def found (key : Key) : List KeyValue → Option Value
  | [] => none
  | e :: _ => if e.1 = key then some e.2 else none

/-- `SkipList.Get`, highest level first. -/
def getFrom (tombstone : Value) (key : Key) : Option Key → List (List KeyValue) → Option Value
  | _, [] => none
  | pos, level :: below =>
    let (pos, right) := walk key pos (after pos level)
    match found key right with
    | some value => if value = tombstone then none else some value
    | none => getFrom tombstone key pos below

/-- The chains to the right of `lefts`, lowest level first. -/
def rights (key : Key) (levels : List (List KeyValue)) : List (List KeyValue) :=
  (findInsertPath key none levels.reverse).reverse

/-- The value of `existing` in `Add`. -/
def existing (key : Key) (rights : List (List KeyValue)) : Option Value := found key (rights.headD [])

/-- The first loop of `Add`. -/
def updateLevels (key : Key) (value : Value) (levels : List (List KeyValue)) :
    List (List KeyValue) :=
  List.zipWith (fun level right => relink level right (update key value right)) levels
    (rights key levels)

/-- The second loop of `Add`. -/
def insertLevels (key : Key) (value : Value) (height : Nat) (levels : List (List KeyValue)) :
    List (List KeyValue) :=
  (List.zipWith (fun level right => relink level right ((key, value) :: right)) levels
    (rights key levels)).take height ++ levels.drop height

/-! ## Paths -/

theorem walk_snd : (walk key pos right).2 = right.dropWhile (fun e => decide (e.1 < key)) := by
  induction right generalizing pos with
  | nil => rfl
  | cons e right ih =>
    rw [walk, List.dropWhile_cons]
    by_cases h : e.1 < key
    · rw [if_pos h, if_pos (decide_eq_true h), ih]
    · rw [if_neg h, if_neg (by simpa using h)]

/-- The walk ends where it began, or at a node with a smaller key. -/
theorem walk_fst (key : Key) (pos : Option Key) (right : List KeyValue) :
    (walk key pos right).1 = pos ∨ ∃ e ∈ right, e.1 < key ∧ (walk key pos right).1 = some e.1 := by
  induction right generalizing pos with
  | nil => exact .inl rfl
  | cons e right ih =>
    rw [walk]
    by_cases h : e.1 < key
    · rw [if_pos h]
      right
      rcases ih (some e.1) with heq | ⟨e', he', hlt, heq⟩
      · exact ⟨e, List.mem_cons_self, h, heq⟩
      · exact ⟨e', List.mem_cons_of_mem _ he', hlt, heq⟩
    · rw [if_neg h]
      exact .inl rfl

/-- A place in a level to the left of the key: the sentinel, or a node of the level. -/
def Before (key : Key) (pos : Option Key) (level : List KeyValue) : Prop :=
  ∀ k, pos = some k → k < key ∧ k ∈ level.map Prod.fst

theorem Before.mono (h : Before key pos upper) (hsub : upper.Sublist lower) :
    Before key pos lower :=
  fun k hk => ⟨(h k hk).1, (hsub.map Prod.fst).subset (h k hk).2⟩

/-- Where the walk begins does not matter. -/
theorem dropWhile_after {level : List KeyValue} (hs : Ascending level) (h : Before key pos level) :
    (after pos level).dropWhile (fun e => decide (e.1 < key)) =
      level.dropWhile (fun e => decide (e.1 < key)) := by
  cases pos with
  | none => rfl
  | some k =>
    obtain ⟨hk, hmem⟩ := h k rfl
    obtain ⟨e, he, rfl⟩ := List.mem_map.mp hmem
    obtain ⟨a, b, rfl⟩ := List.append_of_mem he
    obtain ⟨-, hb, hab⟩ := ascending_append.mp hs
    have hne : ∀ x ∈ a, decide (x.1 ≠ e.1) = true :=
      fun x hx => decide_eq_true (hab x hx e List.mem_cons_self).ne
    have hlt : ∀ x ∈ a, decide (x.1 < key) = true :=
      fun x hx => decide_eq_true ((hab x hx e List.mem_cons_self).trans hk)
    rw [after, List.dropWhile_append_of_pos hne, List.dropWhile_append_of_pos hlt,
      List.dropWhile_cons_of_neg (by simp), List.tail_cons, List.dropWhile_cons,
      if_pos (decide_eq_true hk)]

theorem before_walk {level : List KeyValue} (h : Before key pos level) :
    Before key (walk key pos (after pos level)).1 level := by
  rcases walk_fst key pos (after pos level) with heq | ⟨e, he, hlt, heq⟩
  · rw [heq]
    exact h
  · rw [heq]
    rintro k ⟨⟩
    refine ⟨hlt, List.mem_map_of_mem ?_⟩
    cases pos with
    | none => exact he
    | some k => exact (List.dropWhile_sublist _).subset (List.mem_of_mem_tail he)

/-- On every level the path ends right before the first key that is not smaller. -/
theorem findInsertPath_eq {levels : List (List KeyValue)} (hs : ∀ level ∈ levels, Ascending level)
    (hn : levels.Pairwise fun upper lower => upper.Sublist lower)
    (h : ∀ level ∈ levels, Before key pos level) :
    findInsertPath key pos levels = levels.map (·.dropWhile fun e => decide (e.1 < key)) := by
  induction levels generalizing pos with
  | nil => rfl
  | cons level below ih =>
    have hlevel := hs level List.mem_cons_self
    have hbefore := before_walk (h level List.mem_cons_self)
    rw [List.pairwise_cons] at hn
    rw [findInsertPath, List.map_cons]
    simp only [walk_snd, dropWhile_after hlevel (h level List.mem_cons_self)]
    rw [ih (fun l hl => hs l (List.mem_cons_of_mem _ hl)) hn.2 fun l hl => hbefore.mono (hn.1 l hl)]

variable {cfg : SkipListConfig} {levels : List (List KeyValue)} {key : Key} {value : Value}

theorem rights_eq (h : SkipLevels cfg levels) :
    rights key levels = levels.map (·.dropWhile fun e => decide (e.1 < key)) := by
  rw [rights, findInsertPath_eq, ← List.map_reverse, List.reverse_reverse]
  · exact fun level hl => h.ascending level (List.mem_reverse.mp hl)
  · exact List.pairwise_reverse.mpr h.nested
  · exact fun level _ k hk => by cases hk

theorem relink_dropWhile {level new : List KeyValue} {p : KeyValue → Bool} :
    relink level (level.dropWhile p) new = level.takeWhile p ++ new := by
  have hsplit : level.takeWhile p ++ level.dropWhile p = level := List.takeWhile_append_dropWhile
  have hlen : level.length - (level.dropWhile p).length = (level.takeWhile p).length := by
    have := congrArg List.length hsplit
    rw [List.length_append] at this
    omega
  rw [relink, hlen, ← List.prefix_iff_eq_take.mp (List.takeWhile_prefix p)]

/-! ## Adding a key -/

/-- The level with the value of a node replaced, if it has the key. -/
def replace (key : Key) (value : Value) (level : List KeyValue) : List KeyValue :=
  level.map fun e => if e.1 = key then (key, value) else e

theorem map_fst_replace : (replace key value level).map Prod.fst = level.map Prod.fst := by
  rw [replace, List.map_map]
  refine List.map_congr_left fun e _ => ?_
  simp only [Function.comp_apply]
  split
  · rename_i h
    exact h.symm
  · rfl

theorem replace_eq_self {level : List KeyValue} (h : ∀ e ∈ level, e.1 ≠ key) :
    replace key value level = level := by
  rw [replace]
  exact (List.map_congr_left fun e he => if_neg (h e he)).trans (List.map_id _)

theorem takeWhile_append_update {level : List KeyValue} (hs : Ascending level) :
    level.takeWhile (fun e => decide (e.1 < key)) ++
      update key value (level.dropWhile fun e => decide (e.1 < key)) = replace key value level := by
  have hp : ∀ e : KeyValue, decide (e.1 < key) = true ↔ e.1 < key := fun e => decide_eq_true_iff
  conv_rhs => rw [← List.takeWhile_append_dropWhile (p := fun e => decide (e.1 < key)) (l := level)]
  rw [replace, List.map_append]
  congr 1
  · exact (replace_eq_self fun e he => (lt_of_mem_takeWhile hp he).ne).symm
  · have hdrop := hs.sublist (List.dropWhile_sublist fun e => decide (e.1 < key))
    have hle := fun e (he : e ∈ level.dropWhile _) => le_of_mem_dropWhile hp hs he
    generalize level.dropWhile (fun e => decide (e.1 < key)) = right at hdrop hle
    cases right with
    | nil => rfl
    | cons e right =>
      have hright : replace key value right = right :=
        replace_eq_self fun e' he' => ((hle e List.mem_cons_self).trans_lt
          ((ascending_cons.mp hdrop).1 e' he')).ne'
      rw [replace] at hright
      rw [update, List.map_cons, hright]
      split <;> rfl

theorem updateLevels_eq (h : SkipLevels cfg levels) :
    updateLevels key value levels = levels.map (replace key value) := by
  rw [updateLevels, rights_eq h, List.zipWith_map_right, List.zipWith_self]
  refine List.map_congr_left fun level hl => ?_
  rw [relink_dropWhile, takeWhile_append_update (h.ascending level hl)]

theorem skipLevels_update (h : SkipLevels cfg levels) :
    SkipLevels cfg (updateLevels key value levels) := by
  rw [updateLevels_eq h]
  refine ⟨(List.length_map _).trans h.length, ?_, ?_⟩
  · intro level hl
    obtain ⟨level', hl', rfl⟩ := List.mem_map.mp hl
    rw [Ascending, map_fst_replace]
    exact h.ascending level' hl'
  · rw [List.pairwise_map]
    exact h.nested.imp fun hsub => hsub.map _

theorem takeWhile_append_cons {level : List KeyValue} (hs : Ascending level)
    (hnot : ∀ e ∈ level, e.1 ≠ key) :
    level.takeWhile (fun e => decide (e.1 < key)) ++
      (key, value) :: level.dropWhile (fun e => decide (e.1 < key)) = put key value level := by
  have hp : ∀ e : KeyValue, decide (e.1 < key) = true ↔ e.1 < key := fun e => decide_eq_true_iff
  have hlow := fun e (he : e ∈ level.takeWhile _) => lt_of_mem_takeWhile hp he
  have hhigh : ∀ e ∈ level.dropWhile (fun e => decide (e.1 < key)), key < e.1 := fun e he =>
    lt_of_le_of_ne (le_of_mem_dropWhile hp hs he)
      (hnot e ((List.dropWhile_sublist _).subset he)).symm
  rw [← put_append hlow hhigh, List.takeWhile_append_dropWhile]

theorem insertLevels_eq (h : SkipLevels cfg levels)
    (hnot : ∀ level ∈ levels, ∀ e ∈ level, e.1 ≠ key) (height : Nat) :
    insertLevels key value height levels =
      (levels.take height).map (put key value) ++ levels.drop height := by
  rw [insertLevels, rights_eq h, List.zipWith_map_right, List.zipWith_self, ← List.map_take]
  congr 1
  refine List.map_congr_left fun level hl => ?_
  have hl := List.mem_of_mem_take hl
  rw [relink_dropWhile, takeWhile_append_cons (h.ascending level hl) (hnot level hl)]

theorem put_sublist_put {upper lower : List KeyValue} (h : upper.Sublist lower) :
    (put key value upper).Sublist (put key value lower) :=
  (h.filter _).append ((h.filter _).cons_cons _)

theorem sublist_put {level : List KeyValue} (hs : Ascending level) (hnot : ∀ e ∈ level, e.1 ≠ key) :
    level.Sublist (put key value level) := by
  rw [← takeWhile_append_cons hs hnot]
  conv_lhs => rw [← List.takeWhile_append_dropWhile (p := fun e => decide (e.1 < key)) (l := level)]
  exact (List.Sublist.refl _).append (List.sublist_cons_self _ _)

theorem skipLevels_insert (h : SkipLevels cfg levels)
    (hnot : ∀ level ∈ levels, ∀ e ∈ level, e.1 ≠ key) (height : Nat) :
    SkipLevels cfg (insertLevels key value height levels) := by
  rw [insertLevels_eq h hnot]
  have hn := h.nested
  rw [← List.take_append_drop height levels, List.pairwise_append] at hn
  refine ⟨?_, ?_, ?_⟩
  · rw [List.length_append, List.length_map, ← List.length_append, List.take_append_drop]
    exact h.length
  · intro level hl
    rcases List.mem_append.mp hl with hl | hl
    · obtain ⟨level', hl', rfl⟩ := List.mem_map.mp hl
      exact ascending_put (h.ascending level' (List.mem_of_mem_take hl'))
    · exact h.ascending level (List.mem_of_mem_drop hl)
  · rw [List.pairwise_append]
    refine ⟨?_, hn.2.1, ?_⟩
    · rw [List.pairwise_map]
      exact hn.1.imp put_sublist_put
    · intro lower hl upper hu
      obtain ⟨level, hl', rfl⟩ := List.mem_map.mp hl
      have hmem := List.mem_of_mem_take hl'
      exact (hn.2.2 level hl' upper hu).trans
        (sublist_put (h.ascending level hmem) (hnot level hmem))

/-! ## The lowest level -/

theorem exists_bottom (h : SkipLevels cfg levels) :
    ∃ bottom above, levels = bottom :: above ∧ Ascending bottom ∧
      ∀ level ∈ levels, level.Sublist bottom := by
  have hpos : 0 < levels.length := by
    rw [h.length]
    exact Nat.lt_of_lt_of_le Nat.one_pos (Nat.le_max_right _ _)
  obtain ⟨bottom, above, rfl⟩ := List.exists_cons_of_length_pos hpos
  refine ⟨bottom, above, rfl, h.ascending bottom List.mem_cons_self, ?_⟩
  intro level hl
  rcases List.mem_cons.mp hl with rfl | hl
  · exact List.Sublist.refl _
  · exact (List.pairwise_cons.mp h.nested).1 level hl

/-- The path ends right before the key, if the level has it. -/
theorem found_dropWhile {level : List KeyValue} (hs : Ascending level) :
    found key (level.dropWhile fun e => decide (e.1 < key)) = level.lookup key := by
  have hp : ∀ e : KeyValue, decide (e.1 < key) = true ↔ e.1 < key := fun e => decide_eq_true_iff
  have hlow : (level.takeWhile fun e => decide (e.1 < key)).lookup key = none :=
    lookup_eq_none_of_ne fun e he => (lt_of_mem_takeWhile hp he).ne
  conv_rhs => rw [← List.takeWhile_append_dropWhile (p := fun e => decide (e.1 < key)) (l := level)]
  rw [List.lookup_append, hlow, Option.none_or]
  have hdrop := hs.sublist (List.dropWhile_sublist fun e => decide (e.1 < key))
  have hle := fun e (he : e ∈ level.dropWhile _) => le_of_mem_dropWhile hp hs he
  generalize level.dropWhile (fun e => decide (e.1 < key)) = right at hdrop hle
  cases right with
  | nil => rfl
  | cons e right =>
    rw [found, List.lookup_cons]
    by_cases hk : e.1 = key
    · rw [if_pos hk, hk, beq_self_eq_true]
    · have hnone : right.lookup key = none :=
        lookup_eq_none_of_ne fun e' he' => ((hle e List.mem_cons_self).trans_lt
          ((ascending_cons.mp hdrop).1 e' he')).ne'
      rw [if_neg hk, beq_eq_false_iff_ne.mpr (Ne.symm hk), hnone]

theorem existing_eq (h : SkipLevels cfg levels) :
    existing key (rights key levels) = (levels.headD []).lookup key := by
  rw [rights_eq h, existing]
  obtain ⟨bottom, above, rfl, hs, -⟩ := exists_bottom h
  exact found_dropWhile hs

/-- `Get` finds what the lowest level holds. -/
theorem getFrom_eq {levels : List (List KeyValue)} (hs : ∀ level ∈ levels, Ascending level)
    (hn : levels.Pairwise fun upper lower => upper.Sublist lower)
    (h : ∀ level ∈ levels, Before key pos level) :
    getFrom tombstone key pos levels = live tombstone ((levels.getLastD []).lookup key) := by
  induction levels generalizing pos with
  | nil => rfl
  | cons level below ih =>
    have hlevel := hs level List.mem_cons_self
    have hbefore := before_walk (h level List.mem_cons_self)
    rw [List.pairwise_cons] at hn
    rw [getFrom]
    simp only [walk_snd, dropWhile_after hlevel (h level List.mem_cons_self), found_dropWhile hlevel]
    cases below with
    | nil =>
      cases hlookup : level.lookup key with
      | some v => simp [hlookup, live_some]
      | none => simp [hlookup, getFrom]
    | cons lower below =>
      rw [List.getLastD_cons, List.getLastD_cons]
      have ih := ih (fun l hl => hs l (List.mem_cons_of_mem _ hl)) hn.2
        fun l hl => hbefore.mono (hn.1 l hl)
      rw [List.getLastD_cons] at ih
      cases hlookup : level.lookup key with
      | none => exact ih
      | some v =>
        have hlast : below.getLastD lower ∈ lower :: below := List.getLastD_mem_cons
        have hmem : (key, v) ∈ level := (lookup_eq_some_iff_mem hlevel.nodup).mp hlookup
        have := (lookup_eq_some_iff_mem
          (hs _ (List.mem_cons_of_mem _ hlast)).nodup).mpr ((hn.1 _ hlast).subset hmem)
        rw [this]
        exact live_some.symm

theorem headD_updateLevels (h : SkipLevels cfg levels)
    (hold : (levels.headD []).lookup key = some old) :
    (updateLevels key value levels).headD [] = put key value (levels.headD []) := by
  rw [updateLevels_eq h]
  obtain ⟨bottom, above, rfl, hs, -⟩ := exists_bottom h
  simp only [List.map_cons, List.headD_cons] at hold ⊢
  have hmem : (key, old) ∈ bottom := (lookup_eq_some_iff_mem hs.nodup).mp hold
  obtain ⟨a, b, rfl⟩ := List.append_of_mem hmem
  obtain ⟨-, hb, hab⟩ := ascending_append.mp hs
  have ha : replace key value a = a :=
    replace_eq_self fun e he => (hab e he _ List.mem_cons_self).ne
  have hb : replace key value b = b :=
    replace_eq_self fun e he => ((ascending_cons.mp hb).1 e he).ne'
  rw [replace] at ha hb
  rw [put_append_cons hs, replace, List.map_append, List.map_cons, ha, hb, if_pos rfl]

theorem ne_of_lookup_eq_none (h : SkipLevels cfg levels)
    (hold : (levels.headD []).lookup key = none) : ∀ level ∈ levels, ∀ e ∈ level, e.1 ≠ key := by
  obtain ⟨bottom, above, rfl, -, hsub⟩ := exists_bottom h
  intro level hl e he heq
  rw [List.headD_cons, List.lookup_eq_none_iff] at hold
  exact bne_iff_ne.mp (hold e ((hsub level hl).subset he)) heq.symm

theorem headD_insertLevels (h : SkipLevels cfg levels)
    (hold : (levels.headD []).lookup key = none) (hheight : 0 < height) :
    (insertLevels key value height levels).headD [] = put key value (levels.headD []) := by
  rw [insertLevels_eq h (ne_of_lookup_eq_none h hold)]
  obtain ⟨bottom, above, rfl, -, -⟩ := exists_bottom h
  obtain ⟨n, rfl⟩ : ∃ n, height = n + 1 := ⟨height - 1, by omega⟩
  rfl

theorem randomLevel_pos (hlevel : 0 < level) : 0 < (randomLevel cfg fuel level used).1 := by
  induction fuel generalizing level used with
  | zero => exact hlevel
  | succ fuel ih =>
    rw [randomLevel]
    split
    · split
      · exact ih (Nat.succ_pos _)
      · exact hlevel
    · exact hlevel

theorem randomLevel_le (hlevel : level ≤ cfg.levels) :
    (randomLevel cfg fuel level used).1 ≤ cfg.levels := by
  induction fuel generalizing level used with
  | zero => exact hlevel
  | succ fuel ih =>
    rw [randomLevel]
    split
    · split
      · exact ih ‹_›
      · exact hlevel
    · exact hlevel

/-! ## The memtable -/

theorem headD_replicate_nil : (List.replicate n ([] : List KeyValue)).headD [] = [] := by
  cases n with
  | zero => rfl
  | succ n => rfl

/-- `NewSkipList`. -/
def newSkipList (cfg : SkipListConfig) : SkipList cfg where
  levels := List.replicate cfg.levels []
  byteSize := 0
  flipped := 0
  valid := by
    refine ⟨List.length_replicate, ?_, ?_⟩
    · intro level hl
      rw [List.eq_of_mem_replicate hl]
      exact List.Pairwise.nil
    · exact List.pairwise_replicate.mpr (.inr (List.Sublist.refl _))
  byteSize_eq := by
    rw [headD_replicate_nil]
    rfl

/-- `SkipList.Clear`; the random source goes on. -/
def clear (s : SkipList cfg) : SkipList cfg := { newSkipList cfg with flipped := s.flipped }

/-- `SkipList.ToRaw`. -/
def toRaw (s : SkipList cfg) : List KeyValue := s.levels.headD []

theorem toRaw_clear (s : SkipList cfg) : s.clear.toRaw = [] := headD_replicate_nil

theorem ascending_toRaw (s : SkipList cfg) : Ascending (s.levels.headD []) := by
  obtain ⟨bottom, above, heq, hs, -⟩ := exists_bottom s.valid
  rw [heq]
  exact hs

theorem valid_update (s : SkipList cfg) (key : Key) (value : Value) :
    SkipLevels cfg (updateLevels key value s.levels) := skipLevels_update s.valid

theorem byteSize_update (s : SkipList cfg) (value : Value)
    (hold : existing key (rights key s.levels) = some old) :
    s.byteSize + (entryBytes key value - entryBytes key old) =
      bytesOf ((updateLevels key value s.levels).headD []) := by
  rw [existing_eq s.valid] at hold
  rw [headD_updateLevels s.valid hold, bytesOf_put s.ascending_toRaw, hold, s.byteSize_eq]
  simp only [Option.elim]
  omega

theorem valid_insert (s : SkipList cfg) (value : Value)
    (hold : existing key (rights key s.levels) = none) :
    SkipLevels cfg
      (insertLevels key value (randomLevel cfg cfg.levels 1 s.flipped).1 s.levels) :=
  skipLevels_insert s.valid (ne_of_lookup_eq_none s.valid (existing_eq s.valid ▸ hold)) _

theorem byteSize_insert (s : SkipList cfg) (value : Value)
    (hold : existing key (rights key s.levels) = none) :
    s.byteSize + entryBytes key value = bytesOf
      ((insertLevels key value (randomLevel cfg cfg.levels 1 s.flipped).1 s.levels).headD []) := by
  rw [existing_eq s.valid] at hold
  rw [headD_insertLevels s.valid hold (randomLevel_pos Nat.one_pos),
    bytesOf_put s.ascending_toRaw, hold, s.byteSize_eq]
  simp only [Option.elim]
  omega

/-- `SkipList.Add`. -/
def add (s : SkipList cfg) (key : Key) (value : Value) : SkipList cfg :=
  match hold : existing key (rights key s.levels) with
  | some old =>
    { levels := updateLevels key value s.levels
      byteSize := s.byteSize + (entryBytes key value - entryBytes key old)
      flipped := s.flipped
      valid := s.valid_update key value
      byteSize_eq := s.byteSize_update value hold }
  | none =>
    let r := randomLevel cfg cfg.levels 1 s.flipped
    { levels := insertLevels key value r.1 s.levels
      byteSize := s.byteSize + entryBytes key value
      flipped := r.2
      valid := s.valid_insert value hold
      byteSize_eq := s.byteSize_insert value hold }

/-- `Add` of a key that is there. -/
theorem add_of_some (s : SkipList cfg) (value : Value) (hold : s.toRaw.lookup key = some old) :
    (s.add key value).levels = s.levels.map (replace key value) ∧
    (s.add key value).byteSize = s.byteSize + (entryBytes key value - entryBytes key old) ∧
    (s.add key value).flipped = s.flipped := by
  have hexisting := (existing_eq s.valid).trans hold
  rw [add]
  split
  · rename_i old' hold'
    rw [hexisting] at hold'
    cases hold'
    exact ⟨updateLevels_eq s.valid, rfl, rfl⟩
  · rename_i hold'
    rw [hexisting] at hold'
    cases hold'

/-- `Add` of a new key. -/
theorem add_of_none (s : SkipList cfg) (value : Value) (hold : s.toRaw.lookup key = none) :
    (s.add key value).levels =
      (s.levels.take (randomLevel cfg cfg.levels 1 s.flipped).1).map (put key value) ++
        s.levels.drop (randomLevel cfg cfg.levels 1 s.flipped).1 ∧
    (s.add key value).byteSize = s.byteSize + entryBytes key value ∧
    (s.add key value).flipped = (randomLevel cfg cfg.levels 1 s.flipped).2 := by
  have hexisting := (existing_eq s.valid).trans hold
  rw [add]
  split
  · rename_i old hold'
    rw [hexisting] at hold'
    cases hold'
  · exact ⟨insertLevels_eq s.valid (ne_of_lookup_eq_none s.valid hold) _, rfl, rfl⟩

theorem toRaw_add (s : SkipList cfg) : (s.add key value).toRaw = put key value s.toRaw := by
  rw [add]
  split
  · rename_i old hold
    rw [existing_eq s.valid] at hold
    exact headD_updateLevels s.valid hold
  · rename_i hold
    rw [existing_eq s.valid] at hold
    exact headD_insertLevels s.valid hold (randomLevel_pos Nat.one_pos)

/-- `SkipList.Get`. -/
def get (tombstone : Value) (s : SkipList cfg) (key : Key) : Option Value :=
  getFrom tombstone key none s.levels.reverse

theorem get_eq (s : SkipList cfg) :
    s.get tombstone key = live tombstone (s.toRaw.lookup key) := by
  have hlast : s.levels.reverse.getLastD [] = s.levels.headD [] := by
    obtain ⟨bottom, above, heq, -⟩ := exists_bottom s.valid
    rw [heq, List.reverse_cons, List.getLastD_concat, List.headD_cons]
  rw [get, getFrom_eq, hlast, toRaw]
  · exact fun level hl => s.valid.ascending level (List.mem_reverse.mp hl)
  · exact List.pairwise_reverse.mpr s.valid.nested
  · exact fun level _ k hk => by cases hk

end SkipList

instance : Memtable (SkipList cfg) where
  newMemtable := .newSkipList cfg
  add := SkipList.add
  get := SkipList.get
  toRaw := SkipList.toRaw
  getSize s := s.byteSize
  clear := SkipList.clear
  nodup_toRaw s := s.ascending_toRaw.nodup
  toRaw_new := SkipList.headD_replicate_nil
  toRaw_clear := SkipList.toRaw_clear
  lookup_add s key value k := by
    rw [SkipList.toRaw_add, SkipList.toRaw, lookup_put s.ascending_toRaw]
    congr
  get_eq _ s _ := s.get_eq
  getSize_eq s := s.byteSize_eq

end ChudDB
