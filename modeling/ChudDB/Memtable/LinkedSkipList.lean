import ChudDB.Lib.Linked
import ChudDB.Memtable.SkipList

/-! # The nodes of the skip list

`SkipList` (`skiplist.go`) down to its nodes, which are linked to the right and downwards. A pointer
is a number, nodes are allocated one after the other, and a sentinel is a node with an empty key.
Following a nil pointer is a run-time error (`none`), and so is a loop that does not come to an end.
A `NodeLevel` is the sentinel of a level and its nodes in order. The search goes through these
levels from the top down (`findInsertPath_eq`), and the loop of an update reaches every node with
the key (`updateNodes_cell`). -/

namespace ChudDB
open Lib

/-- `skipNode`. -/
structure SkipNode where
  key : Key := []
  value : Value := []
  right : Option Nat := none
  down : Option Nat := none
deriving DecidableEq, Repr

/-- The nodes that have been allocated. -/
structure SkipHeap where
  cell : Nat → SkipNode
  size : Nat

namespace SkipHeap

/-- Allocate a node; its pointer is the old size. -/
def alloc (h : SkipHeap) (node : SkipNode) : SkipHeap :=
  ⟨Function.update h.cell h.size node, h.size + 1⟩

/-- Change a node. -/
def modify (h : SkipHeap) (p : Nat) (f : SkipNode → SkipNode) : SkipHeap :=
  ⟨Function.update h.cell p (f (h.cell p)), h.size⟩

def right (h : SkipHeap) (p : Nat) : Option Nat := (h.cell p).right
def down (h : SkipHeap) (p : Nat) : Option Nat := (h.cell p).down
def entry (h : SkipHeap) (p : Nat) : KeyValue := ((h.cell p).key, (h.cell p).value)

/-- The node to the right, if it has the key. -/
def rightWith (h : SkipHeap) (key : Key) (left : Nat) : Option Nat :=
  (h.right left).filter fun p => (h.cell p).key = key

/-- Walk right while the next key is smaller. -/
def walkRight (h : SkipHeap) (key : Key) (curr : Nat) : Option Nat :=
  walk h.right (fun p => decide ((h.cell p).key < key)) h.size curr

/-- `findInsertPath` from a level on, of which there are the given number; lowest level first. -/
def findInsertPath (h : SkipHeap) (key : Key) : Nat → Option Nat → Option (List Nat)
  | 0, _ => some []
  | _ + 1, none => none
  | level + 1, some curr =>
    (h.walkRight key curr).bind fun left =>
      (findInsertPath h key level (h.down left)).map (· ++ [left])

/-- The loop of `Get`. -/
def getFrom (tombstone : Value) (h : SkipHeap) (key : Key) :
    Nat → Option Nat → Option (Option Value)
  | 0, _ => none
  | _ + 1, none => some none
  | fuel + 1, some curr =>
    (h.walkRight key curr).bind fun curr =>
      match h.rightWith key curr with
      | some p => some (if (h.cell p).value = tombstone then none else some (h.cell p).value)
      | none => getFrom tombstone h key fuel (h.down curr)

/-- Set the value of the node to the right, if it has the key. -/
def updateRight (key : Key) (value : Value) (h : SkipHeap) (left : Nat) : SkipHeap :=
  match h.rightWith key left with
  | some p => h.modify p fun node => { node with value := value }
  | none => h

/-- The loop of `Add` that sets the value on every level. -/
def updateNodes (key : Key) (value : Value) (lefts : List Nat) (h : SkipHeap) : SkipHeap :=
  lefts.foldl (updateRight key value) h

/-- A new node to the right of `left`. -/
def linkNew (key : Key) (value : Value) (left : Nat) (h : SkipHeap) : SkipHeap :=
  (h.alloc { key := key, value := value, right := h.right left }).modify left
    fun node => { node with right := some h.size }

/-- The loop of `Add` that links in a new node on each of the lowest levels. -/
def insertNodes (key : Key) (value : Value) : List Nat → Nat → SkipHeap →
    Option (SkipHeap × List Nat)
  | _, 0, h => some (h, [])
  | [], _ + 1, _ => none
  | left :: lefts, level + 1, h =>
    (insertNodes key value lefts level (linkNew key value left h)).map fun r =>
      (r.1, h.size :: r.2)

/-- The loop of `Add` over the new nodes, lowest first. -/
def linkDown : List Nat → SkipHeap → SkipHeap
  | lower :: upper :: nodes, h =>
    linkDown (upper :: nodes) (h.modify upper fun node => { node with down := some lower })
  | _, h => h

/-- A new sentinel below another one. -/
def addSentinel (curr : Nat) (h : SkipHeap) : SkipHeap :=
  (h.alloc {}).modify curr fun node => { node with down := some h.size }

/-- The loop of `reset`. -/
def addSentinels : Nat → Nat → SkipHeap → SkipHeap × Nat
  | 0, curr, h => (h, curr)
  | level + 1, curr, h => addSentinels level h.size (addSentinel curr h)

end SkipHeap

/-- `SkipList`; `flipped` coins have been used. -/
structure LinkedSkipList (cfg : SkipListConfig) where
  heap : SkipHeap
  head : Nat
  bottomHead : Nat
  byteSize : Int
  flipped : Nat

namespace LinkedSkipList
variable {cfg : SkipListConfig}

/-- `reset`. -/
def reset (s : LinkedSkipList cfg) : LinkedSkipList cfg :=
  let head := s.heap.size
  let r := SkipHeap.addSentinels (cfg.levels - 1) head (s.heap.alloc {})
  ⟨r.1, head, r.2, 0, s.flipped⟩

/-- `NewSkipList`. -/
def newSkipList (cfg : SkipListConfig) : LinkedSkipList cfg :=
  reset ⟨⟨fun _ => {}, 0⟩, 0, 0, 0, 0⟩

/-- `SkipList.GetSize`. -/
def getSize (s : LinkedSkipList cfg) : Int := s.byteSize

/-- `SkipList.Get`. -/
def get (tombstone : Value) (s : LinkedSkipList cfg) (key : Key) : Option (Option Value) :=
  s.heap.getFrom tombstone key (cfg.levels + 1) (some s.head)

/-- `SkipList.Add`. -/
def add (s : LinkedSkipList cfg) (key : Key) (value : Value) : Option (LinkedSkipList cfg) :=
  (s.heap.findInsertPath key cfg.levels (some s.head)).bind fun lefts =>
    lefts.head?.bind fun left =>
      match s.heap.rightWith key left with
      | some existing =>
        let diff : Int := entryBytes key value - entryBytes key (s.heap.cell existing).value
        some { s with
          heap := s.heap.updateNodes key value lefts
          byteSize := s.byteSize + diff }
      | none =>
        let r := SkipList.randomLevel cfg cfg.levels 1 s.flipped
        (s.heap.insertNodes key value lefts r.1).map fun inserted =>
          { s with
            heap := inserted.1.linkDown inserted.2
            byteSize := s.byteSize + entryBytes key value
            flipped := r.2 }

/-- `SkipList.ToRaw`. -/
def toRaw (s : LinkedSkipList cfg) : Option (List KeyValue) :=
  (visit s.heap.right s.heap.size (s.heap.right s.bottomHead)).map (·.map s.heap.entry)

/-- `SkipList.Scan`: the entries for which `fn` is called. -/
def scan (pred : Key → Bool) (s : LinkedSkipList cfg) : Option (List KeyValue) :=
  s.toRaw.map (·.filter fun e => pred e.1)

/-- The levels as they are found from the head on, highest first. -/
def levels (s : LinkedSkipList cfg) : Option (List (List KeyValue)) :=
  (visit s.heap.down (cfg.levels + 1) (some s.head)).bind fun sentinels =>
    sentinels.mapM fun p =>
      (visit s.heap.right s.heap.size (s.heap.right p)).map (·.map s.heap.entry)

/-- `SkipList.Clear`. -/
def clear (s : LinkedSkipList cfg) : LinkedSkipList cfg := s.reset

/-- `SkipList.TakeSnapshot`. -/
def takeSnapshot (s : LinkedSkipList cfg) : Option (List KeyValue × LinkedSkipList cfg) :=
  s.toRaw.map fun raw => (raw, s.reset)

end LinkedSkipList

/-! ## The nodes of a level -/

/-- The nodes of a level: its sentinel, and those to the right of it. -/
structure NodeLevel where
  sentinel : Nat
  nodes : List Nat

namespace NodeLevel
variable {h h' : SkipHeap} {l lower upper : NodeLevel} {key : Key} {curr p : Nat}

def ptrs (l : NodeLevel) : List Nat := l.sentinel :: l.nodes

def entries (h : SkipHeap) (l : NodeLevel) : List KeyValue := l.nodes.map h.entry

def IsLinked (h : SkipHeap) (l : NodeLevel) : Prop := Linked h.right (h.right l.sentinel) l.nodes

/-- The nodes that are to the left of a key. -/
def below (h : SkipHeap) (key : Key) (p : Nat) : Bool := decide ((h.cell p).key < key)

/-- The last node to the left of a place. -/
def left (pass : Nat → Bool) (l : NodeLevel) : Nat := (l.nodes.takeWhile pass).getLastD l.sentinel

/-- A pointer that the search of a key may reach on a level. -/
def OnPath (h : SkipHeap) (key : Key) (l : NodeLevel) (curr : Nat) : Prop :=
  curr = l.sentinel ∨ curr ∈ l.nodes ∧ (h.cell curr).key < key

/-- The nodes of the upper level lead down to nodes of the lower level with the same keys. -/
structure Stacked (h : SkipHeap) (lower upper : NodeLevel) : Prop where
  sentinel : h.down upper.sentinel = some lower.sentinel
  nodes : ∀ p ∈ upper.nodes, ∃ q ∈ lower.nodes,
    h.down p = some q ∧ (h.cell q).key = (h.cell p).key

theorem below_iff : below h key p = true ↔ (h.cell p).key < key := decide_eq_true_iff

theorem onPath_left (h : SkipHeap) (key : Key) (l : NodeLevel) :
    OnPath h key l (l.left (below h key)) := by
  have hmem : l.left (below h key) ∈ l.sentinel :: l.nodes.takeWhile (below h key) :=
    List.getLastD_mem_cons
  rcases List.mem_cons.mp hmem with heq | hmem
  · exact .inl heq
  · exact .inr ⟨(List.takeWhile_sublist _).subset hmem, below_iff.mp (List.mem_takeWhile_imp hmem)⟩

theorem Stacked.onPath (hst : Stacked h lower upper) (hpath : OnPath h key upper curr) :
    ∃ q, h.down curr = some q ∧ OnPath h key lower q := by
  rcases hpath with rfl | ⟨hmem, hlt⟩
  · exact ⟨_, hst.sentinel, .inl rfl⟩
  · obtain ⟨q, hq, hdown, hkey⟩ := hst.nodes curr hmem
    exact ⟨q, hdown, .inr ⟨hq, hkey ▸ hlt⟩⟩

/-- Wherever the search comes from, it walks on to the last node with a smaller key. -/
theorem walkRight_eq (hlinked : l.IsLinked h) (hs : Ascending (l.entries h))
    (hsize : l.nodes.length < h.size) (hpath : OnPath h key l curr) :
    h.walkRight key curr = some (l.left (below h key)) := by
  rcases hpath with rfl | ⟨hmem, hlt⟩
  · exact walk_eq hlinked hsize
  · obtain ⟨front, back, heq⟩ := List.append_of_mem hmem
    rw [IsLinked, heq, List.append_cons] at hlinked
    rw [entries, heq, List.map_append, List.map_cons] at hs
    rw [heq, List.length_append, List.length_cons] at hsize
    have hbehind := hlinked.behind
    rw [List.getLastD_concat] at hbehind
    have hwalk : h.walkRight key curr = some ((back.takeWhile (below h key)).getLastD curr) :=
      walk_eq hbehind (by omega)
    have hfront : ∀ p ∈ front, below h key p = true := by
      intro p hp
      have hless := (ascending_append.mp hs).2.2 _ (List.mem_map_of_mem hp) _ List.mem_cons_self
      exact below_iff.mpr (hless.trans hlt)
    rw [hwalk, left, heq, List.takeWhile_append_of_pos hfront,
      List.takeWhile_cons_of_pos (below_iff.mpr hlt), getLastD_append_cons]

/-- The node behind the path is that of the key, if the level has it. -/
theorem rightWith_left (hlinked : l.IsLinked h) (hs : Ascending (l.entries h)) :
    h.rightWith key (l.left (below h key)) = some p ↔ p ∈ l.nodes ∧ (h.cell p).key = key := by
  have hsplit : l.nodes.takeWhile (below h key) ++ l.nodes.dropWhile (below h key) = l.nodes :=
    List.takeWhile_append_dropWhile
  have hbehind : h.right (l.left (below h key)) = (l.nodes.dropWhile (below h key)).head? := by
    rw [IsLinked, ← hsplit] at hlinked
    exact hlinked.behind.head?
  rw [SkipHeap.rightWith, hbehind, Option.filter_eq_some_iff, decide_eq_true_iff]
  refine and_congr_left fun hkey => ⟨fun hhead => ?_, fun hmem => ?_⟩
  · exact (List.dropWhile_sublist _).subset (List.mem_of_mem_head? hhead)
  · rw [← hsplit, List.mem_append] at hmem
    rcases hmem with hmem | hmem
    · exact absurd hkey (below_iff.mp (List.mem_takeWhile_imp hmem)).ne
    · -- a node before it would have a smaller key, and would have been passed
      have hfirst := List.head?_dropWhile_not (below h key) l.nodes
      have hdrop : Ascending ((l.nodes.dropWhile (below h key)).map h.entry) :=
        hs.sublist ((List.dropWhile_sublist _).map _)
      cases heq : l.nodes.dropWhile (below h key) with
      | nil =>
        rw [heq] at hmem
        cases hmem
      | cons q rest =>
        rw [heq] at hmem hfirst hdrop
        rcases List.mem_cons.mp hmem with rfl | hmem
        · rfl
        · have hless := (ascending_cons.mp hdrop).1 _ (List.mem_map_of_mem hmem)
          have hpassed : below h key q = true := below_iff.mpr (hless.trans_eq hkey)
          exact absurd (hpassed.symm.trans hfirst) (by decide)

theorem lookup_entries (hlinked : l.IsLinked h) (hs : Ascending (l.entries h)) :
    (l.entries h).lookup key =
      (h.rightWith key (l.left (below h key))).map fun p => (h.cell p).value := by
  cases hright : h.rightWith key (l.left (below h key)) with
  | some p =>
    obtain ⟨hmem, rfl⟩ := (rightWith_left hlinked hs).mp hright
    exact (lookup_eq_some_iff_mem hs.nodup).mpr (List.mem_map_of_mem hmem)
  | none =>
    refine lookup_eq_none_of_ne fun e he heq => ?_
    obtain ⟨p, hmem, rfl⟩ := List.mem_map.mp he
    have hsome := (rightWith_left hlinked hs).mpr ⟨hmem, heq⟩
    rw [hright] at hsome
    cases hsome

end NodeLevel

/-! ## Searching -/

/-- The nodes that make up some levels, lowest first. -/
structure WellLinked (h : SkipHeap) (levels : List NodeLevel) : Prop where
  linked : ∀ l ∈ levels, l.IsLinked h
  stacked : levels.IsChain (NodeLevel.Stacked h)
  bottom : ∀ l ∈ levels.head?, ∀ p ∈ l.ptrs, h.down p = none
  nodup : (levels.flatMap NodeLevel.ptrs).Nodup
  allocated : ∀ l ∈ levels, ∀ p ∈ l.ptrs, p < h.size

namespace SkipHeap
open NodeLevel
variable {h : SkipHeap} {levels : List NodeLevel} {key : Key} {start : Option Nat}

/-- The levels from one on can be searched: highest first. -/
structure Searchable (h : SkipHeap) (levels : List NodeLevel) : Prop where
  linked : ∀ l ∈ levels, l.IsLinked h
  ascending : ∀ l ∈ levels, Ascending (l.entries h)
  size : ∀ l ∈ levels, l.nodes.length < h.size
  stacked : levels.IsChain fun upper lower => Stacked h lower upper

/-- The link from which a level is entered. -/
def Enters (h : SkipHeap) (key : Key) (start : Option Nat) (levels : List NodeLevel) : Prop :=
  ∀ l ∈ levels.head?, ∃ curr, start = some curr ∧ OnPath h key l curr

theorem Searchable.tail {l : NodeLevel} (hs : h.Searchable (l :: levels)) :
    h.Searchable levels where
  linked l' hl := hs.linked l' (List.mem_cons_of_mem _ hl)
  ascending l' hl := hs.ascending l' (List.mem_cons_of_mem _ hl)
  size l' hl := hs.size l' (List.mem_cons_of_mem _ hl)
  stacked := hs.stacked.tail

/-- The way down from the end of the path on a level. -/
theorem Searchable.enters_down {l : NodeLevel} (hs : h.Searchable (l :: levels)) :
    h.Enters key (h.down (l.left (below h key))) levels := by
  intro lower hlower
  cases levels with
  | nil => cases hlower
  | cons l' levels =>
    cases hlower
    exact (List.isChain_cons_cons.mp hs.stacked).1.onPath (onPath_left h key l)

theorem Searchable.walkRight_eq {l : NodeLevel} (hs : h.Searchable (l :: levels))
    (hpath : OnPath h key l curr) : h.walkRight key curr = some (l.left (below h key)) :=
  NodeLevel.walkRight_eq (hs.linked l List.mem_cons_self) (hs.ascending l List.mem_cons_self)
    (hs.size l List.mem_cons_self) hpath

theorem findInsertPath_eq (hs : h.Searchable levels) (hstart : h.Enters key start levels) :
    h.findInsertPath key levels.length start = some (levels.map (left (below h key))).reverse := by
  induction levels generalizing start with
  | nil => rfl
  | cons l levels ih =>
    obtain ⟨curr, rfl, hpath⟩ := hstart l rfl
    rw [List.length_cons, findInsertPath, hs.walkRight_eq hpath, Option.bind_some,
      ih hs.tail hs.enters_down, List.map_cons, List.reverse_cons]
    rfl

/-- An iteration of `Get`: it returns if the level has the key, and otherwise goes down. -/
theorem Searchable.getFrom_succ {l : NodeLevel} (hs : h.Searchable (l :: levels))
    (hpath : OnPath h key l curr) :
    h.getFrom tombstone key (fuel + 1) (some curr) =
      match (l.entries h).lookup key with
      | some value => some (live tombstone (some value))
      | none => h.getFrom tombstone key fuel (h.down (l.left (below h key))) := by
  rw [getFrom, hs.walkRight_eq hpath, Option.bind_some,
    lookup_entries (hs.linked l List.mem_cons_self) (hs.ascending l List.mem_cons_self)]
  cases h.rightWith key (l.left (below h key)) with
  | none => rfl
  | some p => exact congrArg some live_some.symm

/-- `Get` finds what the lowest level holds. -/
theorem getFrom_eq {above : List NodeLevel} {bottom : NodeLevel}
    (hs : h.Searchable (above ++ [bottom])) (hstart : h.Enters key start (above ++ [bottom]))
    (hsub : ∀ l ∈ above, (l.entries h).Sublist (bottom.entries h))
    (hend : ∀ p ∈ bottom.ptrs, h.down p = none) (hfuel : above.length + 1 < fuel) :
    h.getFrom tombstone key fuel start =
      some (live tombstone ((bottom.entries h).lookup key)) := by
  induction above generalizing start fuel with
  | nil =>
    obtain ⟨fuel, rfl⟩ : ∃ n, fuel = n + 2 := ⟨fuel - 2, by rw [List.length_nil] at hfuel; omega⟩
    obtain ⟨curr, rfl, hpath⟩ := hstart bottom rfl
    rw [hs.getFrom_succ hpath]
    cases (bottom.entries h).lookup key with
    | some value => rfl
    | none =>
      have hleft : bottom.left (below h key) ∈ bottom.ptrs :=
        (List.takeWhile_sublist _).cons_cons _ |>.subset List.getLastD_mem_cons
      dsimp only
      rw [hend _ hleft]
      rfl
  | cons l above ih =>
    rw [List.length_cons] at hfuel
    obtain ⟨fuel, rfl⟩ : ∃ n, fuel = n + 1 := ⟨fuel - 1, by omega⟩
    obtain ⟨curr, rfl, hpath⟩ := hstart l rfl
    rw [List.cons_append] at hs
    rw [hs.getFrom_succ hpath]
    cases hlookup : (l.entries h).lookup key with
    | none =>
      exact ih hs.tail hs.enters_down (fun l' hl => hsub l' (List.mem_cons_of_mem _ hl)) (by omega)
    | some value =>
      have hasc := hs.ascending l List.mem_cons_self
      have hbottom : Ascending (bottom.entries h) :=
        hs.ascending bottom (List.mem_cons_of_mem _ (List.mem_append_right _ List.mem_cons_self))
      have hmem := (lookup_eq_some_iff_mem hasc.nodup).mp hlookup
      have hlow := (lookup_eq_some_iff_mem hbottom.nodup).mpr
        ((hsub l List.mem_cons_self).subset hmem)
      rw [hlow]

/-! ## Setting a value -/

theorem alloc_cell (h : SkipHeap) (node : SkipNode) (p : Nat) :
    (h.alloc node).cell p = if p = h.size then node else h.cell p := Function.update_apply ..

theorem modify_cell (h : SkipHeap) (q : Nat) (f : SkipNode → SkipNode) (p : Nat) :
    (h.modify q f).cell p = if p = q then f (h.cell q) else h.cell p := Function.update_apply ..

theorem updateRight_cell (h : SkipHeap) (key : Key) (value : Value) (left p : Nat) :
    (updateRight key value h left).cell p =
      if h.rightWith key left = some p then { h.cell p with value := value } else h.cell p := by
  rw [updateRight]
  cases h.rightWith key left with
  | none => rfl
  | some q =>
    dsimp only
    rw [modify_cell]
    by_cases hp : p = q
    · rw [if_pos hp, if_pos (congrArg some hp.symm), hp]
    · rw [if_neg hp, if_neg fun h => hp (Option.some.inj h).symm]

theorem rightWith_updateRight (h : SkipHeap) (key : Key) (value : Value) (left : Nat) :
    (updateRight key value h left).rightWith key = h.rightWith key := by
  have hcell := updateRight_cell h key value left
  have hkey : ∀ p, ((updateRight key value h left).cell p).key = (h.cell p).key := by
    intro p
    rw [hcell]
    split <;> rfl
  funext q
  have hright : (updateRight key value h left).right q = h.right q := by
    rw [right, hcell]
    split <;> rfl
  rw [rightWith, rightWith, hright]
  simp only [hkey]

/-- The nodes whose values the loop sets. -/
theorem updateNodes_cell (h : SkipHeap) (key : Key) (value : Value) (lefts : List Nat) (p : Nat) :
    (updateNodes key value lefts h).cell p =
      if p ∈ lefts.filterMap (h.rightWith key) then { h.cell p with value := value }
      else h.cell p := by
  induction lefts generalizing h with
  | nil => rfl
  | cons left lefts ih =>
    rw [updateNodes, List.foldl_cons]
    refine (ih _).trans ?_
    rw [rightWith_updateRight, updateRight_cell, List.filterMap_cons]
    cases hright : h.rightWith key left with
    | none => simp
    | some q =>
      by_cases hp : q = p
      · subst hp
        simp
      · have hp' : p ≠ q := Ne.symm hp
        simp [hp, hp']

theorem updateNodes_size (h : SkipHeap) (key : Key) (value : Value) (lefts : List Nat) :
    (updateNodes key value lefts h).size = h.size := by
  induction lefts generalizing h with
  | nil => rfl
  | cons left lefts ih =>
    refine (ih _).trans ?_
    rw [updateRight]
    cases h.rightWith key left <;> rfl

end SkipHeap

end ChudDB
