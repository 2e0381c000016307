import ChudDB.Lib.Slices
import ChudDB.Memtable.BTree

/-! # The arrays of the B-tree

`BTree` (`btree.go`) down to its nodes: a node has parallel slices of keys and values and a slice of
children, and the operations find, shift and cut them by index. An index out of range is a run-time
error (`none`). No two slices share an array, since a split copies the upper part of a node to its
sibling, so a slice is a list and a child is part of its parent.

A function that calls itself at a child ends because the child is smaller than the node; a split
makes no larger children (`sizeOf_splitChild`). A part of a node can be looked at by itself:
reading, storing and splitting a child of the part has the same effect in the node around it
(`Frame`). -/

namespace ChudDB
open Lib

/-- `bTreeNode`. -/
structure BTreeNode where
  keys : List Key := []
  values : List Value := []
  children : List BTreeNode := []
  isLeaf : Bool

namespace BTreeNode
variable {n c : BTreeNode} {key : Key} {value : Value} {order : Nat}

/-! ## The operations -/

theorem sizeOf_lt_of_mem (h : c ∈ n.children) : sizeOf c < sizeOf n := by
  have hlt := List.sizeOf_lt_of_mem h
  cases n with
  | mk keys values children isLeaf =>
    rw [mk.sizeOf_spec]
    simp only at hlt
    omega

theorem sizeOf_lt_of_getElem? {i : Nat} (h : n.children[i]? = some c) : sizeOf c < sizeOf n :=
  sizeOf_lt_of_mem (List.mem_of_getElem? h)

/-- The index at which the walk from the left stops. -/
def position (key : Key) (n : BTreeNode) : Nat := walkUp (fun k => decide (k < key)) n.keys 0

/-- `bTreeNode.search`. -/
def search (tombstone : Value) (key : Key) (n : BTreeNode) : Option (Option Value) :=
  if n.keys[n.position key]? = some key then
    n.values[n.position key]?.map fun value => if value = tombstone then none else some value
  else if n.isLeaf then some none
  else
    match _ : n.children[n.position key]? with
    | none => none
    | some c => c.search tombstone key
termination_by sizeOf n
decreasing_by exact sizeOf_lt_of_getElem? ‹_›

/-- `bTreeNode.lookup`. -/
def lookup (key : Key) (n : BTreeNode) : Option (Option Value) :=
  if n.keys[n.position key]? = some key then n.values[n.position key]?.map some
  else if n.isLeaf then some none
  else
    match _ : n.children[n.position key]? with
    | none => none
    | some c => c.lookup key
termination_by sizeOf n
decreasing_by exact sizeOf_lt_of_getElem? ‹_›

/-- A changed child is stored at its index. -/
def setChild (n : BTreeNode) (i : Nat) (c : BTreeNode) : BTreeNode :=
  { n with children := n.children.set i c }

/-- `updateExisting`. -/
def updateExisting (key : Key) (value : Value) (n : BTreeNode) : Option BTreeNode :=
  if n.keys[n.position key]? = some key then
    (setAt n.values (n.position key) value).map fun values => { n with values := values }
  else if n.isLeaf then some n
  else
    match _ : n.children[n.position key]? with
    | none => none
    | some c => (c.updateExisting key value).map (n.setChild (n.position key))
termination_by sizeOf n
decreasing_by exact sizeOf_lt_of_getElem? ‹_›

/-- The loop that moves the larger keys and their values one place to the right; the number is one
more than the index `i`. -/
def shift (key : Key) : Nat → List Key → List Value → Option (Nat × List Key × List Value)
  | 0, keys, values => some (0, keys, values)
  | i + 1, keys, values => do
    let k ← keys[i]?
    if key < k then
      let keys ← setAt keys (i + 1) k
      let v ← values[i]?
      let values ← setAt values (i + 1) v
      shift key i keys values
    else some (i + 1, keys, values)

/-- `insertNonFull` in a leaf. -/
def insertLeaf (key : Key) (value : Value) (n : BTreeNode) : Option BTreeNode := do
  let (i, keys, values) ← shift key n.keys.length (n.keys ++ [[]]) (n.values ++ [[]])
  let keys ← setAt keys i key
  let values ← setAt values i value
  some { n with keys := keys, values := values }

/-- The children of a full node are divided like its keys. -/
def cutChildren (order : Nat) (full : BTreeNode) : Option (List BTreeNode × List BTreeNode) :=
  if full.isLeaf then some (full.children, [])
  else do
    let siblingChildren ← sliceFrom full.children order
    let children ← sliceTo full.children order
    some (children, siblingChildren)

/-- What `splitChild` makes of a full child: what is left of it, the entry that moves up, and its
sibling. -/
def halves (order : Nat) (full : BTreeNode) : Option (BTreeNode × KeyValue × BTreeNode) := do
  let promotedKey ← full.keys[order - 1]?
  let promotedVal ← full.values[order - 1]?
  let siblingKeys ← sliceFrom full.keys order
  let siblingValues ← sliceFrom full.values order
  let keys ← sliceTo full.keys (order - 1)
  let values ← sliceTo full.values (order - 1)
  let (children, siblingChildren) ← full.cutChildren order
  let sibling : BTreeNode :=
    { keys := siblingKeys, values := siblingValues, children := siblingChildren,
      isLeaf := full.isLeaf }
  some ({ full with keys := keys, values := values, children := children },
    (promotedKey, promotedVal), sibling)

/-- `splitChild`. The nil that is appended to the children is overwritten, so any node can stand for
it. -/
def splitChild (i order : Nat) (n : BTreeNode) : Option BTreeNode := do
  let full ← n.children[i]?
  let (full, promoted, sibling) ← full.halves order
  let children ← insertAt (n.children.set i full) (i + 1) { isLeaf := false } sibling
  let keys ← insertAt n.keys i [] promoted.1
  let values ← insertAt n.values i [] promoted.2
  some { n with keys := keys, values := values, children := children }

/-- The node and the index of the child at which `insertNonFull` goes on, after a full child has
been split. -/
def descend (key : Key) (order : Nat) (n : BTreeNode) : Option (BTreeNode × Nat) := do
  let i ← walkDown (fun k => decide (key < k)) n.keys n.keys.length
  let child ← n.children[i]?
  if child.keys.length = 2 * order - 1 then
    let n ← n.splitChild i order
    let k ← n.keys[i]?
    some (n, if k < key then i + 1 else i)
  else some (n, i)

theorem sizeOf_cutChildren {left right : List BTreeNode}
    (h : n.cutChildren order = some (left, right)) :
    sizeOf left ≤ sizeOf n.children ∧ sizeOf right ≤ sizeOf n.children := by
  rw [cutChildren] at h
  split at h
  · cases h
    exact ⟨le_rfl, sizeOf_le_of_sublist (List.nil_sublist _)⟩
  · simp only [Option.bind_eq_bind, Option.bind_eq_some_iff, sliceFrom, sliceTo,
      Option.ite_none_right_eq_some, Option.some.injEq, Prod.mk.injEq] at h
    obtain ⟨_, ⟨-, rfl⟩, _, ⟨-, rfl⟩, rfl, rfl⟩ := h
    exact ⟨sizeOf_le_of_sublist (List.take_sublist ..), sizeOf_le_of_sublist (List.drop_sublist ..)⟩

theorem sizeOf_halves (h : n.halves order = some (left, promoted, sibling)) :
    sizeOf left ≤ sizeOf n ∧ sizeOf sibling ≤ sizeOf n := by
  simp only [halves, Option.bind_eq_bind, Option.bind_eq_some_iff, sliceFrom, sliceTo,
    Option.ite_none_right_eq_some, Option.some.injEq, Prod.mk.injEq] at h
  obtain ⟨_, -, _, -, _, ⟨-, rfl⟩, _, ⟨-, rfl⟩, _, ⟨-, rfl⟩, _, ⟨-, rfl⟩,
    ⟨children, siblingChildren⟩, hcut, rfl, -, rfl⟩ := h
  obtain ⟨hleft, hright⟩ := sizeOf_cutChildren hcut
  have hkeys := sizeOf_le_of_sublist (List.take_sublist (order - 1) n.keys)
  have hkeys' := sizeOf_le_of_sublist (List.drop_sublist order n.keys)
  have hvalues := sizeOf_le_of_sublist (List.take_sublist (order - 1) n.values)
  have hvalues' := sizeOf_le_of_sublist (List.drop_sublist order n.values)
  cases n with
  | mk keys values children isLeaf =>
    simp only [mk.sizeOf_spec] at *
    omega

/-- A split makes no child that is larger than the node was. -/
theorem sizeOf_splitChild (h : n.splitChild i order = some n') (hc : c ∈ n'.children) :
    sizeOf c < sizeOf n := by
  simp only [splitChild, Option.bind_eq_bind, Option.bind_eq_some_iff, Option.some.injEq] at h
  obtain ⟨full, hfull, ⟨left, promoted, sibling⟩, hhalves, _, hchildren, _, -, _, -, rfl⟩ := h
  obtain ⟨hleft, hsibling⟩ := sizeOf_halves hhalves
  have hlt := sizeOf_lt_of_getElem? hfull
  rcases mem_of_mem_insertAt hchildren hc with rfl | hc
  · omega
  · rcases List.mem_or_eq_of_mem_set hc with hc | rfl
    · exact sizeOf_lt_of_mem hc
    · omega

theorem sizeOf_descend (h : n.descend key order = some (n', i)) (hc : n'.children[i]? = some c) :
    sizeOf c < sizeOf n := by
  simp only [descend, Option.bind_eq_bind, Option.bind_eq_some_iff] at h
  obtain ⟨j, -, child, -, h⟩ := h
  split at h
  · simp only [Option.bind_eq_some_iff, Option.some.injEq, Prod.mk.injEq] at h
    obtain ⟨m, hsplit, k, -, rfl, -⟩ := h
    exact sizeOf_splitChild hsplit (List.mem_of_getElem? hc)
  · cases h
    exact sizeOf_lt_of_getElem? hc

/-- `insertNonFull`. -/
def insertNonFull (key : Key) (value : Value) (order : Nat) (n : BTreeNode) : Option BTreeNode :=
  if n.isLeaf then n.insertLeaf key value
  else
    match _ : n.descend key order with
    | none => none
    | some (n', i) =>
      match _ : n'.children[i]? with
      | none => none
      | some c => (c.insertNonFull key value order).map (n'.setChild i)
termination_by sizeOf n
decreasing_by exact sizeOf_descend ‹_› ‹_›

/-- The body of the loop over the keys of a node; `child` visits the child of an index, unless the
node is a leaf. -/
def visitKey (child : Nat → List KeyValue → Option (List KeyValue)) (pred : Key → Bool)
    (n : BTreeNode) (out : List KeyValue) (i : Nat) : Option (List KeyValue) := do
  let out ← child i out
  let key ← n.keys[i]?
  if pred key then
    let value ← n.values[i]?
    some (out ++ [(key, value)])
  else some out

/-- The loop, and the last child behind it. -/
def visitKeys (child : Nat → List KeyValue → Option (List KeyValue)) (pred : Key → Bool)
    (n : BTreeNode) (out : List KeyValue) : Option (List KeyValue) := do
  let out ← (List.range n.keys.length).foldlM (visitKey child pred n) out
  child n.keys.length out

/-- `bTreeNode.scan`; `out` are the entries that have been handed to `fn`. -/
def scan (pred : Key → Bool) (n : BTreeNode) (out : List KeyValue) : Option (List KeyValue) :=
  visitKeys (fun i out =>
    if n.isLeaf then some out
    else
      match _ : n.children[i]? with
      | none => none
      | some c => c.scan pred out) pred n out
termination_by sizeOf n
decreasing_by exact sizeOf_lt_of_getElem? ‹_›

/-- `bTreeNode.collect`. -/
def collect (n : BTreeNode) (pairs : List KeyValue) : Option (List KeyValue) :=
  n.scan (fun _ => true) pairs

end BTreeNode

/-- `BTree`. -/
structure ArrayBTree where
  root : BTreeNode
  order : Nat
  byteSize : Int

namespace ArrayBTree

/-- `NewBTree`. -/
def newBTree (order : Nat) : ArrayBTree where
  root := { isLeaf := true }
  order := if order < 2 then 2 else order
  byteSize := 0

/-- `BTree.GetSize`. -/
def getSize (t : ArrayBTree) : Int := t.byteSize

/-- `BTree.Get`. -/
def get (tombstone : Value) (t : ArrayBTree) (key : Key) : Option (Option Value) :=
  t.root.search tombstone key

/-- The root that a new key is inserted into: a full one is split below a new one. -/
def grow (t : ArrayBTree) : Option BTreeNode :=
  if t.root.keys.length = 2 * t.order - 1 then
    BTreeNode.splitChild 0 t.order { isLeaf := false, children := [t.root] }
  else some t.root

/-- `BTree.Add`. -/
def add (t : ArrayBTree) (key : Key) (value : Value) : Option ArrayBTree := do
  match ← t.root.lookup key with
  | some old =>
    let root ← t.root.updateExisting key value
    some { t with
      root := root
      byteSize := t.byteSize + (entryBytes key value - entryBytes key old) }
  | none =>
    let root ← t.grow
    let root ← root.insertNonFull key value t.order
    some { t with root := root, byteSize := t.byteSize + entryBytes key value }

/-- `BTree.Scan`: the entries that are handed to `fn`. -/
def scan (pred : Key → Bool) (t : ArrayBTree) : Option (List KeyValue) := t.root.scan pred []

/-- `BTree.ToRaw`. -/
def toRaw (t : ArrayBTree) : Option (List KeyValue) := t.root.collect []

/-- `BTree.Clear`. -/
def clear (t : ArrayBTree) : ArrayBTree := { t with root := { isLeaf := true }, byteSize := 0 }

/-- `BTree.TakeSnapshot`. -/
def takeSnapshot (t : ArrayBTree) : Option (List KeyValue × ArrayBTree) :=
  t.toRaw.map fun raw => (raw, { t with root := { isLeaf := true }, byteSize := 0 })

/-- An operation that changes the tree. -/
def step : System ArrayBTree MemtableOp
  | t, .add key value => t.add key value
  | t, .clear => some t.clear
  | t, .takeSnapshot => t.takeSnapshot.map Prod.snd

end ArrayBTree

namespace BTreeNode
variable {n c : BTreeNode} {key : Key} {value : Value} {order : Nat}

/-! ## One level of an operation -/

theorem lookup_eq (key : Key) (n : BTreeNode) : n.lookup key =
    if n.keys[n.position key]? = some key then n.values[n.position key]?.map some
    else if n.isLeaf then some none
    else n.children[n.position key]?.bind fun c => c.lookup key := by
  rw [lookup]
  cases n.children[n.position key]? <;> rfl

theorem search_eq (tombstone : Value) (key : Key) (n : BTreeNode) :
    n.search tombstone key = (n.lookup key).map (live tombstone) := by
  fun_induction search tombstone key n with
  | case1 n hkey =>
    rw [lookup_eq, if_pos hkey, Option.map_map]
    refine congrArg (Option.map · _) (funext fun value => ?_)
    exact live_some.symm
  | case2 n hkey hleaf => rw [lookup_eq, if_neg hkey, if_pos hleaf]; rfl
  | case3 n hkey hleaf hc => rw [lookup_eq, if_neg hkey, if_neg hleaf, hc]; rfl
  | case4 n hkey hleaf c hc ih => rw [lookup_eq, if_neg hkey, if_neg hleaf, hc]; exact ih

theorem updateExisting_eq (key : Key) (value : Value) (n : BTreeNode) :
    n.updateExisting key value =
    if n.keys[n.position key]? = some key then
      (setAt n.values (n.position key) value).map fun values => { n with values := values }
    else if n.isLeaf then some n
    else n.children[n.position key]?.bind fun c =>
      (c.updateExisting key value).map (n.setChild (n.position key)) := by
  rw [updateExisting]
  cases n.children[n.position key]? <;> rfl

theorem insertNonFull_eq (key : Key) (value : Value) (order : Nat) (n : BTreeNode) :
    n.insertNonFull key value order =
    if n.isLeaf then n.insertLeaf key value
    else (n.descend key order).bind fun m => m.1.children[m.2]?.bind fun c =>
      (c.insertNonFull key value order).map (m.1.setChild m.2) := by
  rw [insertNonFull]
  cases n.descend key order with
  | none => rfl
  | some m =>
    obtain ⟨n', i⟩ := m
    dsimp only [Option.bind_some]
    cases n'.children[i]? <;> rfl

theorem scan_eq (pred : Key → Bool) (n : BTreeNode) (out : List KeyValue) : n.scan pred out =
    visitKeys (fun i out =>
      if n.isLeaf then some out else n.children[i]?.bind fun c => c.scan pred out) pred n out := by
  rw [scan]
  congr 1
  funext i out
  cases n.children[i]? <;> rfl

/-- The loop of a leaf ends with a gap in front of the larger keys. -/
theorem shift_append {l r : List KeyValue} (hl : ∀ e ∈ l.getLast?, ¬ key < e.1)
    (hr : ∀ e ∈ r, key < e.1) (k : Key) (v : Value) (ks : List Key) (vs : List Value) :
    ∃ k' v', shift key (l ++ r).length ((l ++ r).map Prod.fst ++ k :: ks)
      ((l ++ r).map Prod.snd ++ v :: vs) =
        some (l.length, l.map Prod.fst ++ k' :: (r.map Prod.fst ++ ks),
          l.map Prod.snd ++ v' :: (r.map Prod.snd ++ vs)) := by
  induction r using List.reverseRecOn generalizing k v ks vs with
  | nil =>
    refine ⟨k, v, ?_⟩
    rw [List.append_nil]
    rcases List.eq_nil_or_concat l with rfl | ⟨l, e, rfl⟩
    · rfl
    · have he : ¬ key < e.1 := hl e (by simp)
      simp [shift, he]
  | append_singleton r e ih =>
    obtain ⟨k', v', hshift⟩ :=
      ih (fun e' he' => hr e' (List.mem_append_left _ he')) e.1 e.2 (e.1 :: ks) (e.2 :: vs)
    have hlen : (l ++ (r ++ [e])).length = (l ++ r).length + 1 := by simp; omega
    have hkeys := setAt_append_cons ((l ++ (r ++ [e])).map Prod.fst) ks k e.1
    have hvalues := setAt_append_cons ((l ++ (r ++ [e])).map Prod.snd) vs v e.2
    rw [List.length_map, hlen] at hkeys hvalues
    have hk : ((l ++ (r ++ [e])).map Prod.fst ++ k :: ks)[(l ++ r).length]? = some e.1 := by simp
    have hv : ((l ++ (r ++ [e])).map Prod.snd ++ v :: vs)[(l ++ r).length]? = some e.2 := by simp
    refine ⟨k', v', ?_⟩
    rw [hlen, shift]
    simp only [Option.bind_eq_bind, hk, Option.bind_some, if_pos (hr e (by simp)), hkeys, hv,
      hvalues]
    simpa using hshift

theorem insertLeaf_append {l r : List KeyValue} (hl : ∀ e ∈ l.getLast?, ¬ key < e.1)
    (hr : ∀ e ∈ r, key < e.1) (hkeys : n.keys = (l ++ r).map Prod.fst)
    (hvalues : n.values = (l ++ r).map Prod.snd) :
    n.insertLeaf key value = some { n with
      keys := (l ++ (key, value) :: r).map Prod.fst
      values := (l ++ (key, value) :: r).map Prod.snd } := by
  obtain ⟨k, v, hshift⟩ := shift_append hl hr [] [] [] []
  have hk := setAt_append_cons (l.map Prod.fst) (r.map Prod.fst) k key
  have hv := setAt_append_cons (l.map Prod.snd) (r.map Prod.snd) v value
  rw [List.length_map] at hk hv
  rw [insertLeaf, hkeys, hvalues, List.length_map, hshift]
  simp only [Option.bind_eq_bind, Option.bind_some, List.append_nil, hk, hv]
  simp

/-! ## A part of a node -/

/-- What stands to the left and to the right of a part of a node. -/
structure Frame where
  before : List KeyValue
  left : List BTreeNode
  after : List KeyValue
  right : List BTreeNode
  length_left : left.length = before.length

namespace Frame
variable {f : Frame}

/-- The node around a part. -/
def fill (f : Frame) (part : BTreeNode) : BTreeNode where
  keys := f.before.map Prod.fst ++ (part.keys ++ f.after.map Prod.fst)
  values := f.before.map Prod.snd ++ (part.values ++ f.after.map Prod.snd)
  children := f.left ++ (part.children ++ f.right)
  isLeaf := part.isLeaf

theorem getElem?_keys {k : Nat} (h : n.keys[k]? = some key) :
    (f.fill n).keys[f.before.length + k]? = some key := by
  rw [fill, List.getElem?_append_right (by simp), List.length_map, Nat.add_sub_cancel_left,
    List.getElem?_append_left (List.getElem?_eq_some_iff.mp h).1, h]

theorem getElem?_children {k : Nat} (h : n.children[k]? = some c) :
    (f.fill n).children[f.before.length + k]? = some c := by
  rw [fill, List.getElem?_append_right (by simp [f.length_left]), f.length_left,
    Nat.add_sub_cancel_left, List.getElem?_append_left (List.getElem?_eq_some_iff.mp h).1, h]

theorem setChild {k : Nat} (h : k < n.children.length) :
    (f.fill n).setChild (f.before.length + k) c = f.fill (n.setChild k c) := by
  have hset : (f.left ++ (n.children ++ f.right)).set (f.before.length + k) c =
      f.left ++ (n.children.set k c ++ f.right) := by
    rw [List.set_append_right _ _ (by simp [f.length_left]), f.length_left, Nat.add_sub_cancel_left,
      List.set_append_left _ _ h]
  rw [BTreeNode.setChild, BTreeNode.setChild, fill, hset]
  rfl

/-- Splitting the child that a frame is around. -/
theorem splitChild {left sibling : BTreeNode} {promoted : KeyValue}
    (h : c.halves order = some (left, promoted, sibling)) :
    (f.fill { children := [c], isLeaf := false }).splitChild f.before.length order =
      some (f.fill { keys := [promoted.1], values := [promoted.2], children := [left, sibling],
                     isLeaf := false }) := by
  have hset : (f.left ++ ([c] ++ f.right)).set f.before.length left =
      f.left ++ [left] ++ f.right := by
    rw [← f.length_left, List.set_append_right _ _ le_rfl, Nat.sub_self, List.append_assoc]
    rfl
  have hchildren (nil : BTreeNode) : insertAt (f.left ++ [left] ++ f.right) (f.before.length + 1)
      nil sibling = some (f.left ++ [left] ++ sibling :: f.right) := by
    have := insertAt_append (f.left ++ [left]) f.right nil sibling
    rwa [List.length_append, f.length_left] at this
  have hkeys := insertAt_append (f.before.map Prod.fst) (f.after.map Prod.fst) [] promoted.1
  have hvalues := insertAt_append (f.before.map Prod.snd) (f.after.map Prod.snd) [] promoted.2
  rw [List.length_map] at hkeys hvalues
  have hget : (f.left ++ ([c] ++ f.right))[f.before.length]? = some c := by
    rw [← f.length_left, List.getElem?_append_right le_rfl, Nat.sub_self]
    rfl
  rw [BTreeNode.splitChild, fill, hget]
  simp only [Option.bind_eq_bind, Option.bind_some, h, hset, hchildren, List.nil_append, hkeys,
    hvalues]
  rw [fill, List.append_assoc]
  rfl

/-- An insertion that goes on at a child of the part. -/
theorem insertNonFull {i k : Nat} {part c' : BTreeNode} (hleaf : n.isLeaf = false)
    (hn : n.descend key order = some (f.fill part, i + k)) (hi : f.before.length = i)
    (hc : part.children[k]? = some c) (hins : c.insertNonFull key value order = some c') :
    n.insertNonFull key value order = some (f.fill (part.setChild k c')) := by
  subst hi
  rw [insertNonFull_eq, if_neg (by simp [hleaf]), hn, Option.bind_some, getElem?_children hc,
    Option.bind_some, hins, Option.map_some, setChild (List.getElem?_eq_some_iff.mp hc).1]

end Frame

end BTreeNode

end ChudDB
