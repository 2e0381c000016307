import ChudDB.Memtable.Basic

/-! # The B-tree memtable

`BTree` (`btree.go`). All leaves of a tree have the same depth, so a node is indexed by its height:
it is its first child and, for each of its entries, the child to the right of the entry. The
children of a leaf are the absent nodes of height 0. `collect` lists the entries in order; adding a
key sets it in that list (`collect_insertNonFull`, `collect_updateExisting`), and splitting a child
does not change the list. -/

namespace ChudDB
open Lib

/-- `bTreeNode`. -/
def BNode : Nat → Type
  | 0 => Unit
  | h + 1 => BNode h × List (KeyValue × BNode h)

namespace BNode
variable {h order : Nat} {key : Key} {value : Value}

def node (first : BNode h) (rest : List (KeyValue × BNode h)) : BNode (h + 1) := (first, rest)

def first (n : BNode (h + 1)) : BNode h := n.1

/-- The entries of a node, each with the child to its right. -/
def rest (n : BNode (h + 1)) : List (KeyValue × BNode h) := n.2

/-- `bTreeNode.collect`. -/
def collect : {h : Nat} → BNode h → List KeyValue
  | 0, _ => []
  | _ + 1, n => collect n.first ++ n.rest.flatMap fun b => b.1 :: collect b.2

/-- The last of the children `c` and those to the right of the entries `before`. -/
def lastChild (c : BNode h) : List (KeyValue × BNode h) → BNode h
  | [] => c
  | b :: before => lastChild b.2 before

/-- The node in which `f` has replaced that child, by a child or by several with entries between
them. -/
def atChild (f : BNode h → BNode (h + 1)) (c : BNode h) (before after : List (KeyValue × BNode h)) :
    BNode (h + 1) :=
  match before with
  | [] => node (f c).first ((f c).rest ++ after)
  | b :: before =>
    let n := atChild f b.2 before after
    node c ((b.1, n.first) :: n.rest)

/-! ## The operations -/

/-- The entries that the walk from the left passes. -/
def passed (key : Key) (n : BNode (h + 1)) : List (KeyValue × BNode h) :=
  n.rest.takeWhile fun b => decide (b.1.1 < key)

/-- The entries where it stops. -/
def ahead (key : Key) (n : BNode (h + 1)) : List (KeyValue × BNode h) :=
  n.rest.dropWhile fun b => decide (b.1.1 < key)

/-- The child between them. -/
def childAt (key : Key) (n : BNode (h + 1)) : BNode h := lastChild n.first (n.passed key)

/-- `bTreeNode.lookup`. -/
def lookup (key : Key) : {h : Nat} → BNode h → Option Value
  | 0, _ => none
  | _ + 1, n =>
    match n.ahead key with
    | [] => lookup key (n.childAt key)
    | b :: _ => if key = b.1.1 then some b.1.2 else lookup key (n.childAt key)

/-- `bTreeNode.search`. -/
def search (tombstone : Value) (key : Key) : {h : Nat} → BNode h → Option Value
  | 0, _ => none
  | _ + 1, n =>
    match n.ahead key with
    | [] => search tombstone key (n.childAt key)
    | b :: _ =>
      if key = b.1.1 then
        if b.1.2 = tombstone then none else some b.1.2
      else search tombstone key (n.childAt key)

/-- `updateExisting`. -/
def updateExisting (key : Key) (value : Value) : {h : Nat} → BNode h → BNode h
  | 0, n => n
  | _ + 1, n =>
    match n.ahead key with
    | [] => atChild (fun c => node (updateExisting key value c) []) n.first (n.passed key) []
    | b :: after =>
      if key = b.1.1 then node n.first (n.passed key ++ ((b.1.1, value), b.2) :: after)
      else atChild (fun c => node (updateExisting key value c) []) n.first (n.passed key) (b :: after)

/-- `NewBTree` has at least order 2. -/
def degree (order : Nat) : Nat := max order 2

def isFull (order : Nat) (n : BNode (h + 1)) : Prop := n.rest.length = 2 * degree order - 1

instance {n : BNode (h + 1)} : Decidable (isFull order n) := inferInstanceAs (Decidable (_ = _))

theorem degree_lt {n : BNode (h + 1)} (full : isFull order n) :
    degree order - 1 < n.rest.length := by
  have : 2 ≤ degree order := le_max_right _ _
  rw [isFull] at full
  omega

/-- What `splitChild` makes of a full child: its left part, the entry that moves up, and its
sibling. -/
def split (order : Nat) (n : BNode (h + 1)) (full : isFull order n) :
    BNode (h + 1) × KeyValue × BNode (h + 1) :=
  let b := n.rest.get ⟨degree order - 1, degree_lt full⟩
  (node n.first (n.rest.take (degree order - 1)), b.1, node b.2 (n.rest.drop (degree order)))

/-- The entries where the walk from the right stops. -/
def leftOf (key : Key) (n : BNode (h + 1)) : List (KeyValue × BNode h) :=
  n.rest.rdropWhile fun b => decide (key < b.1.1)

/-- The entries that it passes. -/
def rightOf (key : Key) (n : BNode (h + 1)) : List (KeyValue × BNode h) :=
  n.rest.rtakeWhile fun b => decide (key < b.1.1)

/-- `insertNonFull`; `f` inserts at the child. -/
def insertWith (f : BNode h → BNode (h + 1)) (key : Key) (n : BNode (h + 1)) : BNode (h + 1) :=
  atChild f n.first (n.leftOf key) (n.rightOf key)

/-- The child at which a key is inserted. In a leaf the entry takes the place of the absent child; a
full child is split first. -/
def insertChild (order : Nat) (key : Key) (value : Value) : {h : Nat} → BNode h → BNode (h + 1)
  | 0, c => node c [((key, value), c)]
  | _ + 1, c =>
    let insertNonFull := insertWith (insertChild order key value) key
    if full : isFull order c then
      let (left, promoted, sibling) := split order c full
      if promoted.1 < key then node left [(promoted, insertNonFull sibling)]
      else node (insertNonFull left) [(promoted, sibling)]
    else node (insertNonFull c) []

/-- `insertNonFull`. -/
def insertNonFull (order : Nat) (key : Key) (value : Value) (n : BNode (h + 1)) : BNode (h + 1) :=
  insertWith (insertChild order key value) key n

/-! ## The place of a key -/

/-- The entries behind the first child. -/
def collectRest (l : List (KeyValue × BNode h)) : List KeyValue :=
  l.flatMap fun b => b.1 :: b.2.collect

theorem collect_node (c : BNode h) (l : List (KeyValue × BNode h)) :
    (node c l).collect = c.collect ++ collectRest l := rfl

theorem collectRest_cons (b : KeyValue × BNode h) (l : List (KeyValue × BNode h)) :
    collectRest (b :: l) = b.1 :: (node b.2 l).collect := rfl

theorem collect_node_singleton (left right : BNode h) (e : KeyValue) :
    (node left [(e, right)]).collect = left.collect ++ e :: right.collect := by
  rw [collect_node, collectRest, List.flatMap_singleton]

theorem collect_node_append (c : BNode h) (l l' : List (KeyValue × BNode h)) :
    (node c (l ++ l')).collect = (node c l).collect ++ collectRest l' := by
  rw [collect_node, collect_node, List.append_assoc]
  exact congrArg _ List.flatMap_append

theorem map_fst_sublist (n : BNode (h + 1)) : (n.rest.map Prod.fst).Sublist n.collect := by
  have : ∀ l : List (KeyValue × BNode h), (l.map Prod.fst).Sublist (collectRest l) := by
    intro l
    induction l with
    | nil => exact .slnil
    | cons b l ih => exact (ih.trans (List.sublist_append_right _ _)).cons_cons b.1
  exact (this n.rest).trans (List.sublist_append_right _ _)

/-- A child of a node and the entries to its left and right: those of smaller and larger keys. -/
structure Place (key : Key) (n : BNode (h + 1)) (before after : List (KeyValue × BNode h))
    (l r : List KeyValue) : Prop where
  lt : ∀ e ∈ l, e.1 < key
  gt : ∀ e ∈ r, key < e.1
  collect_eq : n.collect = l ++ ((lastChild n.first before).collect ++ r)
  atChild_eq : ∀ f : BNode h → BNode (h + 1), (atChild f n.first before after).collect =
    l ++ ((f (lastChild n.first before)).collect ++ r)

theorem Place.ascending {n : BNode (h + 1)} (p : Place key n before after l r)
    (hs : Ascending n.collect) : Ascending (lastChild n.first before).collect := by
  rw [p.collect_eq, ascending_append, ascending_append] at hs
  exact hs.2.1.1

theorem Place.lookup_eq {n : BNode (h + 1)} (p : Place key n before after l r) :
    n.collect.lookup key = (lastChild n.first before).collect.lookup key := by
  rw [p.collect_eq, lookup_middle p.lt p.gt]

/-- Setting a key at its place. -/
theorem Place.collect_atChild {n : BNode (h + 1)} {f : BNode h → BNode (h + 1)}
    (p : Place key n before after l r)
    (hf : (f (lastChild n.first before)).collect =
      put key value (lastChild n.first before).collect) :
    (atChild f n.first before after).collect = put key value n.collect := by
  rw [p.atChild_eq, p.collect_eq, put_middle p.lt p.gt, hf]

theorem collect_eq_of_rest {n : BNode (h + 1)} (hrest : n.rest = l) :
    n.collect = n.first.collect ++ collectRest l := by
  rw [← hrest]
  rfl

theorem exists_place {n : BNode (h + 1)} {before after : List (KeyValue × BNode h)}
    (hs : Ascending n.collect) (hsplit : n.rest = before ++ after)
    (hbefore : ∀ b ∈ before, b.1.1 < key) (hafter : ∀ b ∈ after.head?, key < b.1.1) :
    ∃ l r, Place key n before after l r := by
  induction before generalizing n with
  | nil =>
    refine ⟨[], collectRest after, nofun, ?_, collect_eq_of_rest hsplit, fun f => ?_⟩
    · cases after with
      | nil => exact nofun
      | cons b after =>
        have hb : key < b.1.1 := hafter b rfl
        rw [collect_eq_of_rest hsplit, List.nil_append, ascending_append, collectRest_cons,
          ascending_cons] at hs
        intro e he
        rcases List.mem_cons.mp he with rfl | he
        · exact hb
        · exact hb.trans (hs.2.1.1 e he)
    · rw [atChild, collect_node_append]
      rfl
  | cons b before ih =>
    have hcollect := collect_eq_of_rest hsplit
    rw [List.cons_append, collectRest_cons] at hcollect
    rw [hcollect, ascending_append, ascending_cons] at hs
    obtain ⟨-, ⟨-, hright⟩, hleft⟩ := hs
    have hb : b.1.1 < key := hbefore b List.mem_cons_self
    obtain ⟨l, r, p⟩ := ih hright rfl fun b' hb' => hbefore b' (List.mem_cons_of_mem _ hb')
    refine ⟨n.first.collect ++ b.1 :: l, r, ?_, p.gt, ?_, fun f => ?_⟩
    · intro e he
      rcases List.mem_append.mp he with he | he
      · exact (hleft e he b.1 List.mem_cons_self).trans hb
      · rcases List.mem_cons.mp he with rfl | he
        · exact hb
        · exact p.lt e he
    · rw [hcollect, p.collect_eq, List.append_assoc, List.cons_append]
      rfl
    · rw [List.append_assoc, List.cons_append]
      exact congrArg (fun l => n.first.collect ++ b.1 :: l) (p.atChild_eq f)

theorem passed_append_ahead (key : Key) (n : BNode (h + 1)) :
    n.rest = n.passed key ++ n.ahead key := List.takeWhile_append_dropWhile.symm

theorem leftOf_append_rightOf (key : Key) (n : BNode (h + 1)) :
    n.rest = n.leftOf key ++ n.rightOf key := (List.rdropWhile_append_rtakeWhile ..).symm

theorem lt_of_passed {n : BNode (h + 1)} (hb : b ∈ n.passed key) : b.1.1 < key := by
  simpa using List.mem_takeWhile_imp hb

theorem not_lt_of_ahead {n : BNode (h + 1)} (hb : b ∈ (n.ahead key).head?) : ¬ b.1.1 < key := by
  have hnot := List.head?_dropWhile_not (fun b : KeyValue × BNode h => decide (b.1.1 < key)) n.rest
  have hhead : (n.rest.dropWhile fun b => decide (b.1.1 < key)).head? = some b := hb
  rw [hhead] at hnot
  simpa using hnot

theorem lt_of_rightOf {n : BNode (h + 1)} (hb : b ∈ n.rightOf key) : key < b.1.1 := by
  simpa using List.mem_rtakeWhile_imp hb

/-- The place that the walk from the left finds, when the key is not in the node itself. -/
theorem exists_place_left {n : BNode (h + 1)} (hs : Ascending n.collect)
    (hkey : ∀ b ∈ (n.ahead key).head?, key ≠ b.1.1) :
    ∃ l r, Place key n (n.passed key) (n.ahead key) l r := by
  refine exists_place hs (passed_append_ahead key n) (fun b hb => lt_of_passed hb) ?_
  exact fun b hb => lt_of_le_of_ne (not_lt.mp (not_lt_of_ahead hb)) (hkey b hb)

/-- The place that the walk from the right finds, when the key is not in the tree. -/
theorem exists_place_right {n : BNode (h + 1)} (hs : Ascending n.collect)
    (hkey : n.collect.lookup key = none) :
    ∃ l r, Place key n (n.leftOf key) (n.rightOf key) l r := by
  have hrest : n.rest.Pairwise fun b b' => b.1.1 < b'.1.1 := by
    simpa [Ascending, List.pairwise_map] using hs.sublist (map_fst_sublist n)
  refine exists_place hs (leftOf_append_rightOf key n) ?_ ?_
  · intro b hb
    have hle : b.1.1 ≤ key :=
      le_of_mem_rdropWhile (f := fun b : KeyValue × BNode h => b.1.1)
        (fun b => decide_eq_true_iff) hrest hb
    have hmem : b.1 ∈ n.collect :=
      (map_fst_sublist n).subset (List.mem_map_of_mem ((List.rdropWhile_prefix _ _).subset hb))
    exact lt_of_le_of_ne hle (bne_iff_ne.mp (List.lookup_eq_none_iff.mp hkey b.1 hmem)).symm
  · exact fun b hb => lt_of_rightOf (List.mem_of_mem_head? hb)

/-- The listing around an entry that has the key. -/
theorem collect_eq_of_ahead {n : BNode (h + 1)} (hahead : n.ahead key = b :: after) :
    n.collect = (node n.first (n.passed key)).collect ++ b.1 :: (node b.2 after).collect := by
  rw [collect_eq_of_rest (passed_append_ahead key n), hahead, ← collect_node, collect_node_append,
    collectRest_cons]

/-! ## What the operations do to the listing -/

theorem lookup_eq {n : BNode h} (hs : Ascending n.collect) :
    n.lookup key = n.collect.lookup key := by
  induction h with
  | zero => rfl
  | succ h ih =>
    -- the walk goes on below the child when the node does not have the key itself
    have hbelow : (∀ b ∈ (n.ahead key).head?, key ≠ b.1.1) →
        lookup key (n.childAt key) = n.collect.lookup key := by
      intro hkey
      obtain ⟨l, r, p⟩ := exists_place_left hs hkey
      rw [p.lookup_eq, childAt, ih (p.ascending hs)]
    rw [lookup]
    cases hahead : n.ahead key with
    | nil => exact hbelow (by simp [hahead])
    | cons b after =>
      by_cases hk : key = b.1.1
      · subst hk
        rw [collect_eq_of_ahead hahead, ascending_append] at hs
        have hnone := lookup_eq_none_of_ne fun e he => (hs.2.2 e he b.1 List.mem_cons_self).ne
        rw [collect_eq_of_ahead hahead, List.lookup_append, hnone, Option.none_or, List.lookup_cons,
          beq_self_eq_true]
        exact if_pos rfl
      · simp only [if_neg hk]
        exact hbelow (by simpa [hahead] using hk)

theorem search_eq {n : BNode h} : n.search tombstone key = live tombstone (n.lookup key) := by
  induction h with
  | zero => rfl
  | succ h ih =>
    rw [search, lookup]
    cases n.ahead key with
    | nil => exact ih
    | cons b after =>
      by_cases hk : key = b.1.1
      · simp only [if_pos hk, live_some]
      · simp only [if_neg hk, ih]

/-- What `updateExisting` does at a node: it changes the value there, or goes on below a child. -/
theorem updateExisting_cases (key : Key) (value : Value) (n : BNode (h + 1)) :
    (∃ b after, n.ahead key = b :: after ∧ key = b.1.1 ∧ updateExisting key value n =
      node n.first (n.passed key ++ ((b.1.1, value), b.2) :: after)) ∨
    ((∀ b ∈ (n.ahead key).head?, key ≠ b.1.1) ∧ updateExisting key value n =
      atChild (fun c => node (updateExisting key value c) []) n.first (n.passed key)
        (n.ahead key)) := by
  rw [updateExisting]
  cases n.ahead key with
  | nil => exact .inr ⟨by simp, rfl⟩
  | cons b after =>
    by_cases hk : key = b.1.1
    · exact .inl ⟨b, after, rfl, hk, if_pos hk⟩
    · exact .inr ⟨by simpa using hk, if_neg hk⟩

theorem collect_updateExisting {n : BNode h} (hs : Ascending n.collect)
    (hkey : n.collect.lookup key = some old) :
    (updateExisting key value n).collect = put key value n.collect := by
  induction h with
  | zero => cases hkey
  | succ h ih =>
    obtain ⟨b, after, hahead, rfl, hupdate⟩ | ⟨hne, hupdate⟩ := updateExisting_cases key value n
    · have hcollect := collect_eq_of_ahead hahead
      rw [hcollect] at hs
      rw [hupdate, hcollect, put_append_cons hs, collect_node_append, collectRest_cons]
    · obtain ⟨l, r, p⟩ := exists_place_left hs hne
      rw [hupdate]
      refine p.collect_atChild ?_
      rw [collect_node, ih (p.ascending hs) (p.lookup_eq ▸ hkey)]
      exact List.append_nil _

theorem collect_insertWith {f : BNode h → BNode (h + 1)} {n : BNode (h + 1)}
    (hs : Ascending n.collect) (hkey : n.collect.lookup key = none)
    (hf : ∀ c : BNode h, Ascending c.collect → c.collect.lookup key = none →
      (f c).collect = put key value c.collect) :
    (insertWith f key n).collect = put key value n.collect := by
  obtain ⟨l, r, p⟩ := exists_place_right hs hkey
  exact p.collect_atChild (hf _ (p.ascending hs) (p.lookup_eq ▸ hkey))

theorem collect_split {n : BNode (h + 1)} (full : isFull order n) :
    n.collect = (split order n full).1.collect ++ (split order n full).2.1 ::
      (split order n full).2.2.collect := by
  have hlt := degree_lt full
  have hdegree : 2 ≤ degree order := le_max_right _ _
  have hsplit : n.rest = n.rest.take (degree order - 1) ++
      n.rest.get ⟨degree order - 1, hlt⟩ :: n.rest.drop (degree order) := by
    conv_lhs => rw [← List.take_append_drop (degree order - 1) n.rest]
    rw [List.drop_eq_getElem_cons hlt, Nat.sub_add_cancel (by omega)]
    rfl
  rw [collect_eq_of_rest hsplit, ← collect_node, collect_node_append, collectRest_cons]
  rfl

/-- Inserting into one of the halves of a child. -/
theorem collect_insert_split {left sibling : BNode (h + 1)} {insert : BNode (h + 1) → BNode (h + 1)}
    (hs : Ascending (left.collect ++ promoted :: sibling.collect))
    (hkey : (left.collect ++ promoted :: sibling.collect).lookup key = none)
    (hins : ∀ n : BNode (h + 1), Ascending n.collect → n.collect.lookup key = none →
      (insert n).collect = put key value n.collect) :
    (if promoted.1 < key then node left [(promoted, insert sibling)]
      else node (insert left) [(promoted, sibling)]).collect =
      put key value (left.collect ++ promoted :: sibling.collect) := by
  obtain ⟨hleft, hright, hlt⟩ := ascending_append.mp hs
  obtain ⟨hgt, hright⟩ := ascending_cons.mp hright
  rw [List.lookup_eq_none_iff] at hkey
  have hne : key ≠ promoted.1 := bne_iff_ne.mp (hkey promoted (by simp))
  by_cases h : promoted.1 < key
  · have hlow : ∀ e ∈ left.collect ++ [promoted], e.1 < key := by
      intro e he
      rcases List.mem_append.mp he with he | he
      · exact (hlt e he promoted List.mem_cons_self).trans h
      · rwa [List.mem_singleton.mp he]
    have hnone : sibling.collect.lookup key = none :=
      List.lookup_eq_none_iff.mpr fun e he => hkey e (by simp [he])
    rw [if_pos h, List.append_cons, put_append_of_lt hlow, ← hins sibling hright hnone,
      ← List.append_cons, collect_node_singleton]
  · have hhigh : ∀ e ∈ promoted :: sibling.collect, key < e.1 := by
      have hlt' : key < promoted.1 := lt_of_le_of_ne (not_lt.mp h) hne
      intro e he
      rcases List.mem_cons.mp he with rfl | he
      · exact hlt'
      · exact hlt'.trans (hgt e he)
    have hnone : left.collect.lookup key = none :=
      List.lookup_eq_none_iff.mpr fun e he => hkey e (by simp [he])
    rw [if_neg h, put_append_of_gt hhigh, ← hins left hleft hnone, collect_node_singleton]

theorem collect_insertChild {c : BNode h} (hs : Ascending c.collect)
    (hkey : c.collect.lookup key = none) :
    (insertChild order key value c).collect = put key value c.collect := by
  induction h with
  | zero => rfl
  | succ h ih =>
    have hins : ∀ n : BNode (h + 1), Ascending n.collect → n.collect.lookup key = none →
        (insertWith (insertChild order key value) key n).collect = put key value n.collect :=
      fun n hs hkey => collect_insertWith hs hkey fun c hs hkey => ih hs hkey
    rw [insertChild]
    by_cases full : isFull order c
    · rw [collect_split full] at hs hkey ⊢
      rw [dif_pos full]
      exact collect_insert_split hs hkey hins
    · rw [dif_neg full, collect_node, hins c hs hkey]
      exact List.append_nil _

theorem collect_insertNonFull {n : BNode (h + 1)} (hs : Ascending n.collect)
    (hkey : n.collect.lookup key = none) :
    (insertNonFull order key value n).collect = put key value n.collect :=
  collect_insertWith hs hkey fun _ hs hkey => collect_insertChild hs hkey

end BNode

/-! ## The memtable -/

/-- `BTree`: the root is a node, and the keys are in order. -/
structure BTree (order : Nat) where
  height : Nat
  root : BNode (height + 1)
  byteSize : Int
  ascending : Ascending root.collect
  byteSize_eq : byteSize = bytesOf root.collect

namespace BTree
variable {order : Nat}

/-- `NewBTree`. -/
def newBTree (order : Nat) : BTree order where
  height := 0
  root := .node () []
  byteSize := 0
  ascending := List.Pairwise.nil
  byteSize_eq := bytesOf_nil

/-- The root a new key is inserted into: `Add` puts a new root on top of a full one. -/
def grown (t : BTree order) : Σ h, BNode (h + 1) :=
  if full : t.root.isFull order then
    let (left, promoted, sibling) := t.root.split order full
    ⟨t.height + 1, .node left [(promoted, sibling)]⟩
  else ⟨t.height, t.root⟩

theorem grown_of_full (t : BTree order) (full : t.root.isFull order) :
    t.grown = ⟨t.height + 1, .node (t.root.split order full).1
      [((t.root.split order full).2.1, (t.root.split order full).2.2)]⟩ := dif_pos full

theorem grown_of_not_full (t : BTree order) (full : ¬ t.root.isFull order) :
    t.grown = ⟨t.height, t.root⟩ := dif_neg full

theorem collect_grown (t : BTree order) : t.grown.2.collect = t.root.collect := by
  by_cases full : t.root.isFull order
  · rw [t.grown_of_full full, BNode.collect_split full]
    exact BNode.collect_node_singleton ..
  · rw [t.grown_of_not_full full]

theorem collect_insert (t : BTree order) (hkey : t.root.lookup key = none) :
    (t.grown.2.insertNonFull order key value).collect = put key value t.root.collect := by
  rw [BNode.lookup_eq t.ascending] at hkey
  rw [← collect_grown] at hkey ⊢
  exact BNode.collect_insertNonFull (t.collect_grown ▸ t.ascending) hkey

theorem collect_update (t : BTree order) (hkey : t.root.lookup key = some old) :
    (t.root.updateExisting key value).collect = put key value t.root.collect :=
  BNode.collect_updateExisting t.ascending (BNode.lookup_eq t.ascending ▸ hkey)

/-- `BTree.Add`. -/
def add (t : BTree order) (key : Key) (value : Value) : BTree order :=
  match hold : t.root.lookup key with
  | some old =>
    { height := t.height
      root := t.root.updateExisting key value
      byteSize := t.byteSize + (entryBytes key value - entryBytes key old)
      ascending := t.collect_update hold ▸ ascending_put t.ascending
      byteSize_eq := by
        rw [t.collect_update hold, bytesOf_put t.ascending, ← BNode.lookup_eq t.ascending, hold,
          t.byteSize_eq, Option.elim]
        omega }
  | none =>
    { height := t.grown.1
      root := t.grown.2.insertNonFull order key value
      byteSize := t.byteSize + entryBytes key value
      ascending := t.collect_insert hold ▸ ascending_put t.ascending
      byteSize_eq := by
        rw [t.collect_insert hold, bytesOf_put t.ascending, ← BNode.lookup_eq t.ascending, hold,
          t.byteSize_eq, Option.elim]
        omega }

/-- `BTree.ToRaw`. -/
def toRaw (t : BTree order) : List KeyValue := t.root.collect

theorem toRaw_add (t : BTree order) : (t.add key value).toRaw = put key value t.toRaw := by
  rw [toRaw, toRaw, add]
  split
  · exact t.collect_update ‹_›
  · exact t.collect_insert ‹_›

end BTree

instance : Memtable (BTree order) where
  newMemtable := .newBTree order
  add := BTree.add
  get tombstone t key := t.root.search tombstone key
  toRaw := BTree.toRaw
  getSize t := t.byteSize
  clear _ := .newBTree order
  nodup_toRaw t := t.ascending.nodup
  toRaw_new := rfl
  toRaw_clear _ := rfl
  lookup_add t key value k := by
    rw [BTree.toRaw_add, BTree.toRaw, lookup_put t.ascending]
    congr
  get_eq tombstone t k := by rw [BNode.search_eq, BNode.lookup_eq t.ascending, BTree.toRaw]
  getSize_eq t := t.byteSize_eq

end ChudDB
