import ChudDB.Memtable.ArrayBTree

/-! # The slices of a B-tree node

`toArrays` lays out a node of the model `BNode` in slices. Every operation on the slices returns,
and it does what the operation of `BNode` does: `lookup_toArrays`, `updateExisting_toArrays`,
`insertNonFull_toArrays` and `scan_toArrays`, each by induction on the height. -/

namespace ChudDB
open Lib

namespace BNode
variable {h order : Nat} {key : Key} {value : Value}

/-- The entries of a node. -/
def entries (n : BNode (h + 1)) : List KeyValue := n.rest.map Prod.fst

/-- The children of a node. -/
def children (n : BNode (h + 1)) : List (BNode h) := n.first :: n.rest.map Prod.snd

/-- The children to the left of `lastChild`. -/
def leading (c : BNode h) : List (KeyValue × BNode h) → List (BNode h)
  | [] => []
  | b :: before => c :: leading b.2 before

theorem length_leading (c : BNode h) (before : List (KeyValue × BNode h)) :
    (leading c before).length = before.length := by
  induction before generalizing c with
  | nil => rfl
  | cons b before ih => exact congrArg (· + 1) (ih b.2)

theorem atChild_self (c : BNode h) (before after : List (KeyValue × BNode h)) :
    atChild (fun c => node c []) c before after = node c (before ++ after) := by
  induction before generalizing c with
  | nil => rfl
  | cons b before ih => rw [atChild, ih]; rfl

theorem eq_atChild {n : BNode (h + 1)} (hrest : n.rest = before ++ after) :
    n = atChild (fun c => node c []) n.first before after := by
  rw [atChild_self, ← hrest]
  rfl

section
variable {f : BNode h → BNode (h + 1)} {c : BNode h} {before after : List (KeyValue × BNode h)}

theorem entries_atChild : (atChild f c before after).entries =
    before.map Prod.fst ++ ((f (lastChild c before)).entries ++ after.map Prod.fst) := by
  induction before generalizing c with
  | nil => exact List.map_append
  | cons b before ih => exact congrArg (b.1 :: ·) ih

theorem children_atChild : (atChild f c before after).children =
    leading c before ++ ((f (lastChild c before)).children ++ after.map Prod.snd) := by
  induction before generalizing c with
  | nil => exact congrArg ((f c).first :: ·) List.map_append
  | cons b before ih => exact congrArg (c :: ·) ih

end

/-- The slices of a node. A leaf has no children. -/
def toArrays : {h : Nat} → BNode (h + 1) → BTreeNode
  | 0, n => { keys := n.entries.map Prod.fst, values := n.entries.map Prod.snd, isLeaf := true }
  | _ + 1, n =>
    { keys := n.entries.map Prod.fst, values := n.entries.map Prod.snd,
      children := n.children.map toArrays, isLeaf := false }

theorem keys_toArrays (n : BNode (h + 1)) : n.toArrays.keys = n.entries.map Prod.fst := by
  cases h <;> rfl

theorem values_toArrays (n : BNode (h + 1)) : n.toArrays.values = n.entries.map Prod.snd := by
  cases h <;> rfl

theorem children_toArrays (n : BNode (h + 2)) : n.toArrays.children = n.children.map toArrays := rfl

theorem toArrays_eta (n : BNode (h + 1)) : n.toArrays =
    ⟨n.entries.map Prod.fst, n.entries.map Prod.snd, n.toArrays.children, n.toArrays.isLeaf⟩ := by
  cases h <;> rfl

theorem isLeaf_toArrays (n m : BNode (h + 1)) : n.toArrays.isLeaf = m.toArrays.isLeaf := by
  cases h <;> rfl

theorem length_keys (n : BNode (h + 1)) : n.toArrays.keys.length = n.rest.length := by
  rw [keys_toArrays, entries, List.length_map, List.length_map]

theorem length_values (n : BNode (h + 1)) : n.toArrays.values.length = n.rest.length := by
  rw [values_toArrays, entries, List.length_map, List.length_map]

/-- An entry with another value. -/
theorem children_setValue {n : BNode (h + 1)} (hrest : n.rest = before ++ b :: after) :
    (node n.first (before ++ (e, b.2) :: after)).children = n.children := by
  rw [children, children, hrest]
  simp [node, first, rest]

/-- A node with the same children. -/
theorem toArrays_of_children {n m : BNode (h + 1)} (hc : m.children = n.children) :
    m.toArrays = { n.toArrays with
      keys := m.entries.map Prod.fst
      values := m.entries.map Prod.snd } := by
  cases h with
  | zero => rfl
  | succ h => rw [toArrays, toArrays, hc]

theorem getElem?_keys {n : BNode (h + 1)} (hrest : n.rest = before ++ after) :
    n.toArrays.keys[before.length]? = after.head?.map fun b => b.1.1 := by
  rw [keys_toArrays, entries, hrest]
  cases after <;> simp

theorem getElem?_values {n : BNode (h + 1)} (hrest : n.rest = before ++ after) :
    n.toArrays.values[before.length]? = after.head?.map fun b => b.1.2 := by
  rw [values_toArrays, entries, hrest]
  cases after <;> simp

section
variable {c : BNode (h + 1)} {before after : List (KeyValue × BNode (h + 1))}

/-- The frame around the last of the children `c` and those to the right of the entries `before`. -/
def frame (c : BNode (h + 1)) (before after : List (KeyValue × BNode (h + 1))) :
    BTreeNode.Frame where
  before := before.map Prod.fst
  left := (leading c before).map toArrays
  after := after.map Prod.fst
  right := (after.map Prod.snd).map toArrays
  length_left := by rw [List.length_map, length_leading, List.length_map]

theorem toArrays_atChild {f : BNode (h + 1) → BNode (h + 2)} :
    (atChild f c before after).toArrays =
      (frame c before after).fill (f (lastChild c before)).toArrays := by
  rw [toArrays, entries_atChild, children_atChild]
  simp [frame, BTreeNode.Frame.fill, toArrays]

theorem toArrays_eq_fill {n : BNode (h + 2)} (hrest : n.rest = before ++ after) : n.toArrays =
    (frame n.first before after).fill (node (lastChild n.first before) []).toArrays := by
  rw [← toArrays_atChild (f := fun c => node c []), ← eq_atChild hrest]

theorem length_frame_before : (frame c before after).before.length = before.length :=
  List.length_map _

theorem getElem?_children {n : BNode (h + 2)} (hrest : n.rest = before ++ after) :
    n.toArrays.children[before.length]? = some (lastChild n.first before).toArrays := by
  have hget := (frame n.first before after).getElem?_children (k := 0)
    (show (node (lastChild n.first before) []).toArrays.children[0]? = some _ from rfl)
  rwa [length_frame_before, ← toArrays_eq_fill hrest] at hget

theorem setChild_toArrays {n : BNode (h + 2)} (hrest : n.rest = before ++ after)
    (f : BNode (h + 1) → BNode (h + 1)) :
    n.toArrays.setChild before.length (f (lastChild n.first before)).toArrays =
      (atChild (fun c => node (f c) []) n.first before after).toArrays := by
  have hset := (frame n.first before after).setChild (k := 0)
    (n := (node (lastChild n.first before) []).toArrays)
    (c := (f (lastChild n.first before)).toArrays) Nat.one_pos
  rw [length_frame_before, ← toArrays_eq_fill hrest] at hset
  rw [toArrays_atChild]
  exact hset

end

/-! ## Finding a key -/

theorem position_toArrays (key : Key) (n : BNode (h + 1)) :
    n.toArrays.position key = (n.passed key).length := by
  have hkeys : n.toArrays.keys =
      (n.passed key).map (fun b => b.1.1) ++ (n.ahead key).map (fun b => b.1.1) := by
    rw [keys_toArrays, entries, List.map_map, ← List.map_append, ← passed_append_ahead]
    rfl
  rw [BTreeNode.position, hkeys, walkUp_append, List.length_map]
  · intro k hk
    obtain ⟨b, hb, rfl⟩ := List.mem_map.mp hk
    exact decide_eq_true (lt_of_passed hb)
  · intro k hk
    rw [List.head?_map] at hk
    obtain ⟨b, hb, rfl⟩ := Option.map_eq_some_iff.mp hk
    exact decide_eq_false (not_lt_of_ahead hb)

/-- `lookup` at a node, from what it does below. -/
theorem lookup_toArrays_of_child {n : BNode (h + 1)}
    (hbelow : (if n.toArrays.isLeaf then some none
      else n.toArrays.children[(n.passed key).length]?.bind fun c => c.lookup key) =
        some ((n.childAt key).lookup key)) :
    n.toArrays.lookup key = some (n.lookup key) := by
  rw [BTreeNode.lookup_eq, position_toArrays, getElem?_keys (passed_append_ahead key n),
    getElem?_values (passed_append_ahead key n), hbelow, lookup]
  cases n.ahead key with
  | nil => exact if_neg (Option.some_ne_none key).symm
  | cons b after =>
    simp only [List.head?_cons, Option.map_some, Option.some.injEq]
    by_cases hk : key = b.1.1
    · rw [if_pos hk.symm, if_pos hk]
    · rw [if_neg (Ne.symm hk), if_neg hk]

theorem lookup_toArrays (n : BNode (h + 1)) : n.toArrays.lookup key = some (n.lookup key) := by
  induction h with
  | zero => exact lookup_toArrays_of_child rfl
  | succ h ih =>
    refine lookup_toArrays_of_child ?_
    rw [getElem?_children (passed_append_ahead key n)]
    exact ih (n.childAt key)

/-! ## Changing a value -/

/-- `updateExisting` at a node, from what it does below. -/
theorem updateExisting_toArrays_of_child {n : BNode (h + 1)}
    (hbelow : (if n.toArrays.isLeaf then some n.toArrays
      else n.toArrays.children[(n.passed key).length]?.bind fun c =>
        (c.updateExisting key value).map (n.toArrays.setChild (n.passed key).length)) =
      some (atChild (fun c => node (updateExisting key value c) []) n.first (n.passed key)
        (n.ahead key)).toArrays) :
    n.toArrays.updateExisting key value = some (n.updateExisting key value).toArrays := by
  rw [BTreeNode.updateExisting_eq, position_toArrays, getElem?_keys (passed_append_ahead key n)]
  obtain ⟨b, after, hahead, hk, hupdate⟩ | ⟨hne, hupdate⟩ := updateExisting_cases key value n
  · have hrest : n.rest = n.passed key ++ b :: after := hahead ▸ passed_append_ahead key n
    have hvalues : n.toArrays.values = (n.passed key).map (fun b => b.1.2) ++
        b.1.2 :: after.map fun b => b.1.2 := by
      rw [values_toArrays, entries, List.map_map, hrest, List.map_append]
      rfl
    have hset := setAt_append_cons ((n.passed key).map fun b => b.1.2)
      (after.map fun b => b.1.2) b.1.2 value
    rw [List.length_map] at hset
    have hkeys : (node n.first (n.passed key ++ ((b.1.1, value), b.2) :: after)).entries.map
        Prod.fst = n.toArrays.keys := by
      rw [keys_toArrays, entries, entries, hrest]
      simp [node, rest]
    rw [hupdate, hahead, List.head?_cons, Option.map_some, if_pos (congrArg some hk.symm), hvalues,
      hset, toArrays_of_children (children_setValue hrest), hkeys]
    simp [entries, node, rest, Function.comp_def]
  · rw [hupdate, if_neg, hbelow]
    intro heq
    obtain ⟨b, hb, hk⟩ := Option.map_eq_some_iff.mp heq
    exact hne b hb hk.symm

theorem updateExisting_toArrays (n : BNode (h + 1)) :
    n.toArrays.updateExisting key value = some (n.updateExisting key value).toArrays := by
  induction h with
  | zero =>
    refine updateExisting_toArrays_of_child ?_
    exact congrArg (fun n => some (toArrays n)) (eq_atChild (passed_append_ahead key n))
  | succ h ih =>
    refine updateExisting_toArrays_of_child ?_
    rw [getElem?_children (passed_append_ahead key n)]
    refine (congrArg (Option.map _) (ih (n.childAt key))).trans ?_
    exact congrArg some (setChild_toArrays (passed_append_ahead key n) (updateExisting key value))

/-! ## Inserting a key -/

theorem not_lt_of_leftOf {n : BNode (h + 1)} (hb : b ∈ (n.leftOf key).getLast?) :
    ¬ key < b.1.1 := by
  obtain ⟨hne, rfl⟩ := List.mem_getLast?_eq_getLast hb
  have hlast := List.rdropWhile_last_not (fun b : KeyValue × BNode h => decide (key < b.1.1))
    n.rest hne
  exact fun hlt => hlast (decide_eq_true hlt)

theorem insertLeaf_toArrays (n : BNode 1) : n.toArrays.insertLeaf key value =
    some (n.insertNonFull order key value).toArrays := by
  have hentries : n.entries = (n.leftOf key).map Prod.fst ++ (n.rightOf key).map Prod.fst := by
    rw [entries, leftOf_append_rightOf key n, List.map_append]
  have hinsert : (n.insertNonFull order key value).entries =
      (n.leftOf key).map Prod.fst ++ (key, value) :: (n.rightOf key).map Prod.fst := by
    rw [insertNonFull, insertWith, entries_atChild]
    rfl
  rw [BTreeNode.insertLeaf_append (l := (n.leftOf key).map Prod.fst)
    (r := (n.rightOf key).map Prod.fst), ← hinsert]
  · rfl
  · intro e he
    rw [List.getLast?_map] at he
    obtain ⟨b, hb, rfl⟩ := Option.map_eq_some_iff.mp he
    exact not_lt_of_leftOf hb
  · intro e he
    obtain ⟨b, hb, rfl⟩ := List.mem_map.mp he
    exact lt_of_rightOf hb
  · rw [keys_toArrays, hentries]
  · rw [values_toArrays, hentries]

theorem walkDown_toArrays (key : Key) (n : BNode (h + 1)) :
    walkDown (fun k => decide (key < k)) n.toArrays.keys n.toArrays.keys.length =
      some (n.leftOf key).length := by
  have hkeys : n.toArrays.keys =
      (n.leftOf key).map (fun b => b.1.1) ++ (n.rightOf key).map (fun b => b.1.1) := by
    rw [keys_toArrays, entries, List.map_map, ← List.map_append, ← leftOf_append_rightOf]
    rfl
  have hwalk := walkDown_append (p := fun k => decide (key < k))
    (l := (n.leftOf key).map fun b => b.1.1) (r := (n.rightOf key).map fun b => b.1.1) ?_ ?_ []
  · rwa [List.append_nil, ← hkeys, List.length_map] at hwalk
  · intro k hk
    rw [List.getLast?_map] at hk
    obtain ⟨b, hb, rfl⟩ := Option.map_eq_some_iff.mp hk
    exact decide_eq_false (not_lt_of_leftOf hb)
  · intro k hk
    obtain ⟨b, hb, rfl⟩ := List.mem_map.mp hk
    exact decide_eq_true (lt_of_rightOf hb)

section
variable {n : BNode (h + 1)} (full : isFull order n)
include full

theorem children_split : (n.split order full).1.children = n.children.take (degree order) ∧
    (n.split order full).2.2.children = n.children.drop (degree order) := by
  have hlt := degree_lt full
  obtain ⟨d, hd⟩ : ∃ d, degree order = d + 1 := ⟨degree order - 1, by
    have : 2 ≤ degree order := le_max_right _ _
    omega⟩
  rw [hd, Nat.add_sub_cancel] at hlt
  simp only [split, children, hd, Nat.add_sub_cancel, List.take_succ_cons, List.drop_succ_cons]
  refine ⟨congrArg (n.first :: ·) List.map_take, ?_⟩
  rw [← List.map_drop, List.drop_eq_getElem_cons hlt]
  rfl

theorem cutChildren_toArrays : n.toArrays.cutChildren (degree order) = some
    ((n.split order full).1.toArrays.children, (n.split order full).2.2.toArrays.children) := by
  cases h with
  | zero => rfl
  | succ h =>
    have hlen : degree order ≤ (n.children.map toArrays).length := by
      have hlt := degree_lt full
      simp only [children, List.length_map, List.length_cons]
      omega
    have hleaf : ¬ n.toArrays.isLeaf = true := Bool.false_ne_true
    obtain ⟨hleft, hright⟩ := children_split full
    rw [children_toArrays, children_toArrays, hleft, hright, List.map_take, List.map_drop,
      BTreeNode.cutChildren, if_neg hleaf, children_toArrays, sliceFrom, if_pos hlen, sliceTo,
      if_pos hlen]
    rfl

theorem halves_toArrays : n.toArrays.halves (degree order) = some ((n.split order full).1.toArrays,
    (n.split order full).2.1, (n.split order full).2.2.toArrays) := by
  have hlt := degree_lt full
  have hlen : degree order ≤ n.rest.length := by omega
  have hkey : n.toArrays.keys[degree order - 1]? = some (n.split order full).2.1.1 := by
    rw [keys_toArrays, entries]
    simp [split, hlt]
  have hvalue : n.toArrays.values[degree order - 1]? = some (n.split order full).2.1.2 := by
    rw [values_toArrays, entries]
    simp [split, hlt]
  have hleft : (n.split order full).1.entries = n.entries.take (degree order - 1) :=
    List.map_take
  have hright : (n.split order full).2.2.entries = n.entries.drop (degree order) :=
    List.map_drop
  rw [toArrays_eta (n.split order full).1, toArrays_eta (n.split order full).2.2, hleft, hright,
    isLeaf_toArrays (n.split order full).1 n, isLeaf_toArrays (n.split order full).2.2 n,
    BTreeNode.halves, cutChildren_toArrays full, hkey, hvalue]
  simp only [Option.bind_eq_bind, Option.bind_some, sliceFrom, sliceTo, length_keys, length_values,
    if_pos hlen, if_pos hlt.le]
  rw [keys_toArrays, values_toArrays, List.map_take, List.map_drop, List.map_take, List.map_drop]

end

/-- Where an insertion goes on below a child that is not full. -/
theorem descend_toArrays_of_not_full {n : BNode (h + 2)}
    (hfull : ¬ isFull order (lastChild n.first (n.leftOf key))) :
    n.toArrays.descend key (degree order) =
      some ((frame n.first (n.leftOf key) (n.rightOf key)).fill
        (node (lastChild n.first (n.leftOf key)) []).toArrays, (n.leftOf key).length) := by
  rw [← toArrays_eq_fill (leftOf_append_rightOf key n), BTreeNode.descend, walkDown_toArrays]
  simp only [Option.bind_eq_bind, Option.bind_some, getElem?_children (leftOf_append_rightOf key n),
    length_keys]
  exact if_neg hfull

/-- Where it goes on below a child that has been split. -/
theorem descend_toArrays_of_full {n : BNode (h + 2)}
    (full : isFull order (lastChild n.first (n.leftOf key)))
    (hsplit : (lastChild n.first (n.leftOf key)).split order full = (left, promoted, sibling)) :
    n.toArrays.descend key (degree order) =
      some ((frame n.first (n.leftOf key) (n.rightOf key)).fill
          (node left [(promoted, sibling)]).toArrays,
        if promoted.1 < key then (n.leftOf key).length + 1 else (n.leftOf key).length) := by
  have hhalves := halves_toArrays full
  rw [hsplit] at hhalves
  have hnode := (frame n.first (n.leftOf key) (n.rightOf key)).splitChild hhalves
  have hkey := (frame n.first (n.leftOf key) (n.rightOf key)).getElem?_keys (k := 0)
    (show (node left [(promoted, sibling)]).toArrays.keys[0]? = some promoted.1 from rfl)
  rw [length_frame_before] at hnode hkey
  have hlen : (lastChild n.first (n.leftOf key)).rest.length = 2 * degree order - 1 := full
  rw [BTreeNode.descend, walkDown_toArrays]
  simp only [Option.bind_eq_bind, Option.bind_some, getElem?_children (leftOf_append_rightOf key n),
    length_keys, if_pos hlen]
  rw [toArrays_eq_fill (leftOf_append_rightOf key n)]
  refine (congrArg (Option.bind · _) hnode).trans ?_
  exact congrArg (Option.bind · _) hkey

theorem insertNonFull_toArrays (n : BNode (h + 1)) :
    n.toArrays.insertNonFull key value (degree order) =
      some (n.insertNonFull order key value).toArrays := by
  induction h with
  | zero => exact (BTreeNode.insertNonFull_eq ..).trans (insertLeaf_toArrays n)
  | succ h ih =>
    rw [insertNonFull, insertWith, toArrays_atChild, insertChild]
    by_cases full : isFull order (lastChild n.first (n.leftOf key))
    · rw [dif_pos full]
      rcases hsplit : (lastChild n.first (n.leftOf key)).split order full with
        ⟨left, promoted, sibling⟩
      have hdescend := descend_toArrays_of_full full hsplit
      by_cases hlt : promoted.1 < key
      · rw [if_pos hlt] at hdescend
        simp only [if_pos hlt]
        exact BTreeNode.Frame.insertNonFull rfl hdescend length_frame_before rfl (ih sibling)
      · rw [if_neg hlt] at hdescend
        simp only [if_neg hlt]
        exact BTreeNode.Frame.insertNonFull (k := 0) rfl hdescend length_frame_before rfl (ih left)
    · rw [dif_neg full]
      exact BTreeNode.Frame.insertNonFull (k := 0) rfl (descend_toArrays_of_not_full full)
        length_frame_before rfl (ih _)

/-! ## Visiting the entries -/

theorem lastChild_concat (c : BNode h) (before : List (KeyValue × BNode h))
    (b : KeyValue × BNode h) : lastChild c (before ++ [b]) = b.2 := by
  induction before generalizing c with
  | nil => rfl
  | cons b' before ih => exact ih b'.2

section
variable {n : BNode (h + 1)} {pred : Key → Bool}
  {child : Nat → List KeyValue → Option (List KeyValue)}

theorem visitKey_toArrays (hrest : n.rest = before ++ b :: after)
    (hchild : child before.length out = some out') :
    BTreeNode.visitKey child pred n.toArrays out before.length =
      some (out' ++ [b.1].filter fun e => pred e.1) := by
  have hkey := getElem?_keys hrest
  have hvalue := getElem?_values hrest
  simp only [List.head?_cons, Option.map_some] at hkey hvalue
  simp only [BTreeNode.visitKey, Option.bind_eq_bind, hchild, hkey, hvalue, Option.bind_some]
  cases hp : pred b.1.1 <;> simp [hp]

variable (hchild : ∀ before after, n.rest = before ++ after → ∀ out, child before.length out =
  some (out ++ (lastChild n.first before).collect.filter fun e => pred e.1))
include hchild

/-- The loop from an entry on, and the last child. -/
theorem foldlM_visitKey_toArrays (hrest : n.rest = before ++ after) (out : List KeyValue) :
    ((List.range' before.length after.length).foldlM
      (BTreeNode.visitKey child pred n.toArrays) out).bind (child n.rest.length) =
    some (out ++ (node (lastChild n.first before) after).collect.filter fun e => pred e.1) := by
  induction after generalizing before out with
  | nil =>
    rw [hrest, List.append_nil]
    refine (hchild before [] hrest out).trans ?_
    rw [collect_node, collectRest, List.flatMap_nil, List.append_nil]
  | cons b after ih =>
    have hrest' : n.rest = before ++ [b] ++ after := by
      rw [hrest, List.append_assoc, List.singleton_append]
    have hnext := ih hrest' (out ++ (lastChild n.first before).collect.filter (fun e => pred e.1) ++
      [b.1].filter fun e => pred e.1)
    rw [List.length_append, List.length_singleton, lastChild_concat] at hnext
    rw [List.length_cons, List.range'_succ, List.foldlM_cons,
      visitKey_toArrays hrest (hchild before (b :: after) hrest out)]
    refine hnext.trans ?_
    have hcollect : (node (lastChild n.first before) (b :: after)).collect =
        (lastChild n.first before).collect ++ ([b.1] ++ (node b.2 after).collect) := rfl
    rw [hcollect, List.filter_append, List.filter_append, List.append_assoc, List.append_assoc]

theorem visitKeys_toArrays (out : List KeyValue) :
    BTreeNode.visitKeys child pred n.toArrays out =
      some (out ++ n.collect.filter fun e => pred e.1) := by
  rw [BTreeNode.visitKeys, length_keys, List.range_eq_range']
  exact foldlM_visitKey_toArrays hchild (show n.rest = [] ++ n.rest from rfl) out

end

theorem scan_toArrays (n : BNode (h + 1)) (pred : Key → Bool) (out : List KeyValue) :
    n.toArrays.scan pred out = some (out ++ n.collect.filter fun e => pred e.1) := by
  induction h generalizing out with
  | zero =>
    rw [BTreeNode.scan_eq]
    exact visitKeys_toArrays (fun _ _ _ out => congrArg some (List.append_nil out).symm) out
  | succ h ih =>
    rw [BTreeNode.scan_eq]
    refine visitKeys_toArrays (fun before after hrest out => ?_) out
    rw [getElem?_children hrest]
    exact ih _ out
end BNode

end ChudDB
