import ChudDB.Memtable.BTreeLayout

/-! # The B-tree over sequences of operations

`Filled` are the bounds on the sizes of the nodes of a B-tree. The operations of `BNode` keep them,
and by `toArrays` the slices have the shape of a B-tree (`WellFormed`). With the listing of the
tree, which changes as a map does, this gives what the memtable is after any sequence of operations.
-/

namespace ChudDB
open Lib

namespace BNode
variable {h order : Nat} {key : Key} {value : Value}

/-! ## The sizes of the nodes -/

/-- A node below the root has `order - 1` to `2 * order - 1` entries, and so have those below it. -/
def Filled (order : Nat) : {h : Nat} → BNode h → Prop
  | 0, _ => True
  | _ + 1, n => degree order - 1 ≤ n.rest.length ∧ n.rest.length ≤ 2 * degree order - 1 ∧
    ∀ c ∈ n.children, Filled order c

/-- The nodes below a node have the right sizes. -/
def FilledBelow (order : Nat) (n : BNode (h + 1)) : Prop := ∀ c ∈ n.children, Filled order c

theorem filled_succ {n : BNode (h + 1)} : Filled order n ↔
    degree order - 1 ≤ n.rest.length ∧ n.rest.length ≤ 2 * degree order - 1 ∧
      FilledBelow order n := Iff.rfl

theorem filledBelow_leaf (n : BNode 1) : FilledBelow order n := fun _ _ => trivial

theorem filledBelow_node_singleton {left right : BNode h} :
    FilledBelow order (node left [(e, right)]) ↔ Filled order left ∧ Filled order right :=
  List.forall_mem_cons.trans (and_congr_right fun _ => List.forall_mem_singleton)

theorem filledBelow_node_nil {c : BNode h} : FilledBelow order (node c []) ↔ Filled order c :=
  List.forall_mem_singleton

theorem two_le_degree (order : Nat) : 2 ≤ degree order := le_max_right _ _

section
variable {f : BNode h → BNode (h + 1)} {n : BNode (h + 1)}
  {before after : List (KeyValue × BNode h)}

theorem length_atChild (hrest : n.rest = before ++ after) :
    (atChild f n.first before after).rest.length =
      n.rest.length + (f (lastChild n.first before)).rest.length := by
  have hlen := congrArg List.length (entries_atChild (f := f) (c := n.first) :
    (atChild f n.first before after).entries = _)
  simp only [entries, List.length_map, List.length_append] at hlen
  rw [hlen, hrest, List.length_append]
  omega

theorem children_eq (hrest : n.rest = before ++ after) : n.children =
    leading n.first before ++ lastChild n.first before :: after.map Prod.snd :=
  (congrArg children (eq_atChild hrest)).trans children_atChild

theorem FilledBelow.lastChild (hn : FilledBelow order n) (hrest : n.rest = before ++ after) :
    Filled order (lastChild n.first before) :=
  hn _ (by simp [children_eq hrest])

/-- Replacing a child. -/
theorem FilledBelow.atChild (hn : FilledBelow order n) (hrest : n.rest = before ++ after)
    (hf : FilledBelow order (f (BNode.lastChild n.first before))) :
    FilledBelow order (atChild f n.first before after) := by
  rw [FilledBelow, children_eq hrest] at hn
  intro c hc
  rw [children_atChild] at hc
  rcases List.mem_append.mp hc with hc | hc
  · exact hn c (List.mem_append_left _ hc)
  · rcases List.mem_append.mp hc with hc | hc
    · exact hf c hc
    · exact hn c (List.mem_append_right _ (List.mem_cons_of_mem _ hc))

/-- An insertion below a node adds at most one entry to the node. -/
theorem filled_insertWith (key : Key) (hn : FilledBelow order n)
    (hf : ∀ c, Filled order c → FilledBelow order (f c) ∧ (f c).rest.length ≤ 1) :
    FilledBelow order (insertWith f key n) ∧ n.rest.length ≤ (insertWith f key n).rest.length ∧
      (insertWith f key n).rest.length ≤ n.rest.length + 1 := by
  have hrest := leftOf_append_rightOf key n
  obtain ⟨hbelow, hlen⟩ := hf _ (hn.lastChild hrest)
  rw [insertWith, length_atChild hrest]
  exact ⟨hn.atChild hrest hbelow, by omega, by omega⟩

end

theorem filled_split {n : BNode (h + 1)} (hn : FilledBelow order n) (full : isFull order n)
    (hsplit : n.split order full = (left, promoted, sibling)) :
    (left.rest.length = degree order - 1 ∧ FilledBelow order left) ∧
      (sibling.rest.length = degree order - 1 ∧ FilledBelow order sibling) := by
  obtain ⟨hleft, hright⟩ := children_split full
  have hlen : n.rest.length = 2 * degree order - 1 := full
  have hdegree := two_le_degree order
  rw [hsplit] at hleft hright
  cases hsplit
  refine ⟨⟨?_, fun c hc => hn c ?_⟩, ?_, fun c hc => hn c ?_⟩
  · simp only [node, rest, List.length_take] at hlen ⊢
    omega
  · exact List.mem_of_mem_take (hleft ▸ hc)
  · simp only [node, rest, List.length_drop] at hlen ⊢
    omega
  · exact List.mem_of_mem_drop (hright ▸ hc)

theorem filled_insertChild {c : BNode h} (hc : Filled order c) :
    FilledBelow order (insertChild order key value c) ∧
      (insertChild order key value c).rest.length ≤ 1 := by
  induction h with
  | zero => exact ⟨filledBelow_leaf _, le_rfl⟩
  | succ h ih =>
    have hins {n : BNode (h + 1)} (hn : FilledBelow order n) :=
      filled_insertWith (f := insertChild order key value) key hn fun c hc => ih hc
    have hdegree := two_le_degree order
    obtain ⟨hlo, hhi, hbelow⟩ := filled_succ.mp hc
    rw [insertChild]
    by_cases full : isFull order c
    · rw [dif_pos full]
      rcases hsplit : c.split order full with ⟨left, promoted, sibling⟩
      obtain ⟨⟨hlen, hleft⟩, hlen', hsibling⟩ := filled_split hbelow full hsplit
      by_cases hlt : promoted.1 < key
      · simp only [if_pos hlt]
        obtain ⟨hbelow', hle, hle'⟩ := hins hsibling
        refine ⟨filledBelow_node_singleton.mpr ⟨?_, ?_⟩, le_rfl⟩
        · exact filled_succ.mpr ⟨by omega, by omega, hleft⟩
        · exact filled_succ.mpr ⟨by omega, by omega, hbelow'⟩
      · simp only [if_neg hlt]
        obtain ⟨hbelow', hle, hle'⟩ := hins hleft
        refine ⟨filledBelow_node_singleton.mpr ⟨?_, ?_⟩, le_rfl⟩
        · exact filled_succ.mpr ⟨by omega, by omega, hbelow'⟩
        · exact filled_succ.mpr ⟨by omega, by omega, hsibling⟩
    · rw [dif_neg full]
      rw [isFull] at full
      obtain ⟨hbelow', hle, hle'⟩ := hins hbelow
      refine ⟨filledBelow_node_nil.mpr (filled_succ.mpr ⟨by omega, by omega, hbelow'⟩), ?_⟩
      exact Nat.zero_le 1

theorem filled_insertNonFull {n : BNode (h + 1)} (hn : FilledBelow order n) :
    FilledBelow order (insertNonFull order key value n) ∧
      (insertNonFull order key value n).rest.length ≤ n.rest.length + 1 := by
  obtain ⟨hbelow, -, hlen⟩ := filled_insertWith (f := insertChild order key value) key hn
    fun c hc => filled_insertChild hc
  exact ⟨hbelow, hlen⟩

/-- `updateExisting` at a node, from what it does below. -/
theorem filledBelow_updateExisting (key : Key) (value : Value) {n : BNode (h + 1)}
    (hn : FilledBelow order n)
    (hbelow : ∀ c : BNode h, Filled order c → Filled order (updateExisting key value c)) :
    FilledBelow order (updateExisting key value n) ∧
      (updateExisting key value n).rest.length = n.rest.length := by
  have hrest := passed_append_ahead key n
  obtain ⟨b, after, hahead, -, hupdate⟩ | ⟨-, hupdate⟩ := updateExisting_cases key value n
  · rw [hahead] at hrest
    rw [hupdate]
    refine ⟨fun c hc => hn c (children_setValue hrest ▸ hc), ?_⟩
    rw [hrest]
    simp [node, rest]
  · rw [hupdate]
    exact ⟨hn.atChild hrest (filledBelow_node_nil.mpr (hbelow _ (hn.lastChild hrest))),
      length_atChild hrest⟩

theorem filled_updateExisting {n : BNode h} (hn : Filled order n) :
    Filled order (updateExisting key value n) := by
  induction h with
  | zero => trivial
  | succ h ih =>
    obtain ⟨hlo, hhi, hbelow⟩ := filled_succ.mp hn
    obtain ⟨hbelow', hlen⟩ := filledBelow_updateExisting key value hbelow fun c hc => ih hc
    exact filled_succ.mpr ⟨by omega, by omega, hbelow'⟩

end BNode

/-- The shape of a B-tree whose leaves all have the depth `height`: a node has as many values as
keys, a node that is not a leaf has one child more than keys, and a node below the root has
`order - 1` to `2 * order - 1` keys. -/
def BTreeNode.WellFormed (order : Nat) : (height : Nat) → BTreeNode → Prop
  | 0, n => n.isLeaf = true ∧ n.values.length = n.keys.length
  | height + 1, n => n.isLeaf = false ∧ n.values.length = n.keys.length ∧
    n.children.length = n.keys.length + 1 ∧
    ∀ c ∈ n.children, order - 1 ≤ c.keys.length ∧ c.keys.length ≤ 2 * order - 1 ∧
      WellFormed order height c

theorem BNode.wellFormed_toArrays {n : BNode (h + 1)} (hn : FilledBelow order n) :
    n.toArrays.WellFormed (degree order) h := by
  have hvalues : n.toArrays.values.length = n.toArrays.keys.length := by
    rw [length_values, length_keys]
  induction h with
  | zero => exact ⟨rfl, hvalues⟩
  | succ h ih =>
    refine ⟨rfl, hvalues, ?_, ?_⟩
    · rw [children_toArrays, length_keys, List.length_map, children, List.length_cons,
        List.length_map]
    · intro c hc
      obtain ⟨c, hmem, rfl⟩ := List.mem_map.mp hc
      obtain ⟨hlo, hhi, hbelow⟩ := filled_succ.mp (hn c hmem)
      rw [length_keys]
      exact ⟨hlo, hhi, ih hbelow (by rw [length_values, length_keys])⟩

/-! ## The tree -/

namespace ArrayBTree
variable {order : Nat} {key : Key} {value : Value}

/-- The slices of a tree. -/
def ofBTree (t : BTree order) : ArrayBTree := ⟨t.root.toArrays, BNode.degree order, t.byteSize⟩

theorem newBTree_eq (order : Nat) : newBTree order = ofBTree (.newBTree order) := by
  have hdegree : (if order < 2 then 2 else order) = BNode.degree order := by
    rw [BNode.degree]
    split <;> omega
  rw [newBTree, hdegree]
  rfl

theorem clear_ofBTree (t : BTree order) : (ofBTree t).clear = ofBTree (.newBTree order) := rfl

theorem grow_ofBTree (t : BTree order) : (ofBTree t).grow = some t.grown.2.toArrays := by
  have hlen : (ofBTree t).root.keys.length = t.root.rest.length := BNode.length_keys _
  rw [grow, hlen]
  by_cases full : t.root.isFull order
  · rw [t.grown_of_full full]
    refine (if_pos full).trans ?_
    exact BTreeNode.Frame.splitChild (f := ⟨[], [], [], [], rfl⟩) (BNode.halves_toArrays full)
  · rw [t.grown_of_not_full full]
    exact if_neg full

theorem add_ofBTree (t : BTree order) :
    (ofBTree t).add key value = some (ofBTree (t.add key value)) := by
  have hlookup : (ofBTree t).root.lookup key = some (t.root.lookup key) := BNode.lookup_toArrays _
  rw [add, hlookup, BTree.add]
  split
  · next old hold =>
    have hupdate : (ofBTree t).root.updateExisting key value =
        some (t.root.updateExisting key value).toArrays := BNode.updateExisting_toArrays _
    simp only [Option.bind_eq_bind, Option.bind_some, hold, hupdate]
    rfl
  · next hold =>
    have hinsert : t.grown.2.toArrays.insertNonFull key value (ofBTree t).order =
        some (t.grown.2.insertNonFull order key value).toArrays := BNode.insertNonFull_toArrays _
    simp only [Option.bind_eq_bind, Option.bind_some, hold, grow_ofBTree, hinsert]
    rfl

theorem toRaw_ofBTree (t : BTree order) : (ofBTree t).toRaw = some t.toRaw := by
  rw [toRaw, BTreeNode.collect]
  refine (BNode.scan_toArrays ..).trans ?_
  rw [List.filter_true]
  rfl

/-- The nodes of a tree have the right sizes. -/
structure Sized (t : BTree order) : Prop where
  below : t.root.FilledBelow order
  length_le : t.root.rest.length ≤ 2 * BNode.degree order - 1

theorem Sized.newBTree : Sized (.newBTree order) := ⟨BNode.filledBelow_leaf _, Nat.zero_le _⟩

/-- A new key is inserted into a root that is not full. -/
theorem Sized.grown {t : BTree order} (ht : Sized t) : t.grown.2.FilledBelow order ∧
    t.grown.2.rest.length < 2 * BNode.degree order - 1 := by
  have hdegree := BNode.two_le_degree order
  by_cases full : t.root.isFull order
  · obtain ⟨⟨hlen, hleft⟩, hlen', hsibling⟩ := BNode.filled_split ht.below full rfl
    rw [t.grown_of_full full]
    refine ⟨BNode.filledBelow_node_singleton.mpr ⟨?_, ?_⟩, ?_⟩
    · exact BNode.filled_succ.mpr ⟨hlen.ge, hlen.trans_le (by omega), hleft⟩
    · exact BNode.filled_succ.mpr ⟨hlen'.ge, hlen'.trans_le (by omega), hsibling⟩
    · exact (by omega : 1 < 2 * BNode.degree order - 1)
  · rw [t.grown_of_not_full full]
    exact ⟨ht.below, lt_of_le_of_ne ht.length_le full⟩

theorem Sized.add {t : BTree order} (ht : Sized t) : Sized (t.add key value) := by
  rw [BTree.add]
  split
  · obtain ⟨hbelow, hlen⟩ := BNode.filledBelow_updateExisting key value ht.below
      fun c hc => BNode.filled_updateExisting hc
    exact ⟨hbelow, hlen.trans_le ht.length_le⟩
  · obtain ⟨hbelow, hlt⟩ := ht.grown
    obtain ⟨hbelow', hlen⟩ := BNode.filled_insertNonFull hbelow
    exact ⟨hbelow', hlen.trans hlt⟩

/-- The slices are those of a tree that lists the entries. -/
def Lists (order : Nat) (s : ArrayBTree) (raw : List KeyValue) : Prop :=
  ∃ t : BTree order, s = ofBTree t ∧ Sized t ∧ t.toRaw = raw

theorem lists_newBTree : Lists order (ofBTree (.newBTree order)) [] := ⟨_, rfl, .newBTree, rfl⟩

/-- Every sequence of operations returns, and the tree then holds the last values. -/
theorem exists_run (order : Nat) (ops : List MemtableOp) :
    ∃ s raw, step.run (newBTree order) ops = some s ∧ Lists order s raw ∧ ListsLast ops raw := by
  rw [newBTree_eq]
  refine exists_run_listsLast lists_newBTree ?_ ?_ ?_ ops
  · rintro _ _ key value ⟨t, rfl, ht, rfl⟩
    exact ⟨_, add_ofBTree t, t.add key value, rfl, ht.add, t.toRaw_add⟩
  · rintro _ _ ⟨t, rfl, -, -⟩
    exact ⟨_, congrArg some (clear_ofBTree t), lists_newBTree⟩
  · rintro _ _ ⟨t, rfl, -, -⟩
    refine ⟨ofBTree (.newBTree order), ?_, lists_newBTree⟩
    rw [step, takeSnapshot, toRaw_ofBTree]
    rfl

/-- After every sequence of operations, for every order: the tree has the shape of a B-tree; `ToRaw`
and `TakeSnapshot` list the last values, `Scan` those whose keys it is asked for, `Get` finds them,
and `GetSize` is their size. -/
theorem bTree_refines_map (order : Nat) (ops : List MemtableOp) (tombstone : Value) :
    ∃ t height raw, step.run (newBTree order) ops = some t ∧ t.order = max order 2 ∧
      t.root.WellFormed t.order height ∧ t.root.keys.length ≤ 2 * t.order - 1 ∧
      t.toRaw = some raw ∧ t.takeSnapshot = some (raw, t.clear) ∧ ListsLast ops raw ∧
      (∀ pred, t.scan pred = some (raw.filter fun e => pred e.1)) ∧
      (∀ key, t.get tombstone key = some (live tombstone (lastAdded ops key))) ∧
      t.getSize = bytesOf raw := by
  obtain ⟨_, _, hrun, ⟨t, rfl, ht, rfl⟩, hlast⟩ := exists_run order ops
  refine ⟨ofBTree t, t.height, t.toRaw, hrun, rfl, BNode.wellFormed_toArrays ht.below, ?_,
    toRaw_ofBTree t, ?_, hlast, fun pred => BNode.scan_toArrays t.root pred [], fun key => ?_,
    t.byteSize_eq⟩
  · exact (BNode.length_keys t.root).trans_le ht.length_le
  · rw [takeSnapshot, toRaw_ofBTree]
    rfl
  · rw [get, BTreeNode.search_eq]
    refine (congrArg _ (BNode.lookup_toArrays t.root)).trans ?_
    rw [Option.map_some, BNode.lookup_eq t.ascending, ← hlast.lookup_eq, BTree.toRaw]

end ArrayBTree

end ChudDB
