import ChudDB.Lib.Bytes
import ChudDB.Lib.DoublyLinked
import ChudDB.Lib.Recency

/-! # The block cache

`LRUCache` (`LRU.go`) over the `DoublyLinkedList` of its blocks (`d_linked_list.go`). A pointer is a
number, and blocks are allocated one after the other. Following a nil pointer is a run-time error
(`none`). What each operation of the list does is said by the nodes of the list before and after it
(`IsList`): none of them follows a nil pointer, and the keys and the data of the blocks stay. -/

namespace ChudDB.BlockCache
open Lib

abbrev BlockKey := UInt64

/-- `Block`. -/
structure Block where
  data : Bytes
  blockKey : BlockKey
  next : Option Nat := none
  prev : Option Nat := none
deriving DecidableEq, Repr

/-- The text of `%d`. -/
def formatInt (n : Int) : Bytes :=
  if n < 0 then 45 :: formatUint n.natAbs else formatUint n.natAbs

/-- `NewBlockKey`. The hash is `xxhash.Sum64String`. -/
def newBlockKey (sum64 : Bytes → BlockKey) (blockNum : Int) (filename : Bytes) : BlockKey :=
  sum64 (filename ++ 58 :: formatInt blockNum)

/-- The blocks that have been allocated. -/
structure BlockHeap where
  cell : Nat → Block
  size : Nat

namespace BlockHeap

/-- `NewNode`; its pointer is the old size. -/
def newNode (h : BlockHeap) (data : Bytes) (key : BlockKey) : BlockHeap :=
  ⟨Function.update h.cell h.size { data := data, blockKey := key }, h.size + 1⟩

/-- Change a block. -/
def modify (h : BlockHeap) (p : Nat) (f : Block → Block) : BlockHeap :=
  ⟨Function.update h.cell p (f (h.cell p)), h.size⟩

def setNext (h : BlockHeap) (p : Nat) (link : Option Nat) : BlockHeap :=
  h.modify p fun block => { block with next := link }

def setPrev (h : BlockHeap) (p : Nat) (link : Option Nat) : BlockHeap :=
  h.modify p fun block => { block with prev := link }

/-- `Block.Set`. -/
def set (h : BlockHeap) (p : Nat) (data : Bytes) : BlockHeap :=
  h.modify p fun block => { block with data := data }

/-- `Block.Get`. -/
def get (h : BlockHeap) (p : Nat) : Bytes := (h.cell p).data

def blockKey (h : BlockHeap) (p : Nat) : BlockKey := (h.cell p).blockKey
def next (h : BlockHeap) (p : Nat) : Option Nat := (h.cell p).next
def prev (h : BlockHeap) (p : Nat) : Option Nat := (h.cell p).prev
def entry (h : BlockHeap) (p : Nat) : BlockKey × Bytes := (h.blockKey p, h.get p)

end BlockHeap

/-- `DoublyLinkedList`. -/
structure DoublyLinkedList where
  head : Option Nat := none
  tail : Option Nat := none
  length : Int := 0
deriving DecidableEq, Repr

namespace DoublyLinkedList

/-- `DoublyLinkedList.InsertBeginning`. -/
def insertBeginning (l : DoublyLinkedList) (n : Nat) (h : BlockHeap) :
    DoublyLinkedList × BlockHeap :=
  let h := (h.setPrev n none).setNext n l.head
  match l.head with
  | some head => (⟨some n, l.tail, l.length + 1⟩, h.setPrev head (some n))
  | none => (⟨some n, some n, l.length + 1⟩, h)

/-- `DoublyLinkedList.DeleteEnd`. -/
def deleteEnd (l : DoublyLinkedList) (h : BlockHeap) : Option (DoublyLinkedList × BlockHeap) :=
  match l.tail with
  | none => some (l, h)
  | some tail =>
    if l.length = 1 then some (⟨none, none, l.length - 1⟩, h)
    else (h.prev tail).map fun last => (⟨l.head, some last, l.length - 1⟩, h.setNext last none)

/-- The part of `MoveToFront` that takes the node out: the tail then. -/
def unlink (l : DoublyLinkedList) (node : Nat) (h : BlockHeap) : Option (Option Nat × BlockHeap) :=
  if l.tail = some node then
    (h.prev node).map fun last => (some last, h.setNext last none)
  else
    (h.prev node).bind fun before =>
      let h := h.setNext before (h.next node)
      (h.next node).map fun after => (l.tail, h.setPrev after (h.prev node))

/-- `DoublyLinkedList.MoveToFront`. -/
def moveToFront (l : DoublyLinkedList) (node : Nat) (h : BlockHeap) :
    Option (DoublyLinkedList × BlockHeap) :=
  if l.head = some node then some (l, h)
  else
    (l.unlink node h).bind fun (tail, h) =>
      let h := (h.setPrev node none).setNext node l.head
      l.head.map fun head => (⟨some node, tail, l.length⟩, h.setPrev head (some node))

end DoublyLinkedList

/-- `LRUCache`, with the blocks that its pointers lead to. -/
structure LRUCache where
  capacity : Int
  cache : BlockKey → Option Nat
  lruList : DoublyLinkedList
  heap : BlockHeap

namespace LRUCache

/-- `NewLRUCache`. -/
def newLRUCache (cacheCapacity : Int) : LRUCache :=
  ⟨cacheCapacity, fun _ => none, {}, ⟨fun _ => ⟨[], 0, none, none⟩, 0⟩⟩

/-- `LRUCache.evictLocked`. -/
def evictLocked (c : LRUCache) : Option LRUCache :=
  match c.lruList.tail with
  | none => some c
  | some tail =>
    (c.lruList.deleteEnd c.heap).map fun (lruList, heap) =>
      { c with
        cache := Function.update c.cache (c.heap.blockKey tail) none
        lruList := lruList
        heap := heap }

/-- `LRUCache.Put`. -/
def put (sum64 : Bytes → BlockKey) (c : LRUCache) (filePath : Bytes) (blockID : Int)
    (data : Bytes) : Option LRUCache :=
  if c.capacity ≤ 0 then some c
  else
    let key := newBlockKey sum64 blockID filePath
    match c.cache key with
    | some elem =>
      (c.lruList.moveToFront elem (c.heap.set elem data)).map fun (lruList, heap) =>
        { c with lruList := lruList, heap := heap }
    | none =>
      let node := c.heap.size
      let (lruList, heap) := c.lruList.insertBeginning node (c.heap.newNode data key)
      let c := { c with
        lruList := lruList
        heap := heap
        cache := Function.update c.cache key (some node) }
      if c.lruList.length > c.capacity then c.evictLocked else some c

/-- `LRUCache.Get`: the cache afterwards, and the data of a hit. -/
def get (sum64 : Bytes → BlockKey) (c : LRUCache) (filePath : Bytes) (blockID : Int) :
    Option (LRUCache × Option Bytes) :=
  if c.capacity ≤ 0 then some (c, none)
  else
    match c.cache (newBlockKey sum64 blockID filePath) with
    | some elem =>
      (c.lruList.moveToFront elem c.heap).map fun (lruList, heap) =>
        ({ c with lruList := lruList, heap := heap }, some (heap.get elem))
    | none => some (c, none)

/-- `LRUCache.Len`. -/
def len (c : LRUCache) : Int := c.lruList.length

/-- The nodes from the head on. -/
def forward (c : LRUCache) : Option (List Nat) :=
  visit c.heap.next (c.heap.size + 1) c.lruList.head

/-- The nodes from the tail back. -/
def backward (c : LRUCache) : Option (List Nat) :=
  visit c.heap.prev (c.heap.size + 1) c.lruList.tail

end LRUCache

/-! ## The blocks -/

namespace BlockHeap
variable {h : BlockHeap} {p q : Nat} {link : Option Nat} {data : Bytes} {key : BlockKey}

@[simp] theorem next_setNext :
    (h.setNext p link).next q = if q = p then link else h.next q := by
  by_cases hq : q = p
  · simp [setNext, modify, next, hq]
  · simp [setNext, modify, next, hq]

@[simp] theorem prev_setPrev :
    (h.setPrev p link).prev q = if q = p then link else h.prev q := by
  by_cases hq : q = p
  · simp [setPrev, modify, prev, hq]
  · simp [setPrev, modify, prev, hq]

theorem apply_cell_modify (field : Block → α) {f : Block → Block}
    (hf : ∀ block, field (f block) = field block) :
    field ((h.modify p f).cell q) = field (h.cell q) := by
  by_cases hq : q = p
  · simp [modify, hq, hf]
  · simp [modify, hq]

@[simp] theorem prev_setNext : (h.setNext p link).prev q = h.prev q :=
  apply_cell_modify Block.prev fun _ => rfl

@[simp] theorem next_setPrev : (h.setPrev p link).next q = h.next q :=
  apply_cell_modify Block.next fun _ => rfl

@[simp] theorem entry_setNext : (h.setNext p link).entry = h.entry :=
  funext fun _ => apply_cell_modify (fun block => (block.blockKey, block.data)) fun _ => rfl

@[simp] theorem entry_setPrev : (h.setPrev p link).entry = h.entry :=
  funext fun _ => apply_cell_modify (fun block => (block.blockKey, block.data)) fun _ => rfl

@[simp] theorem next_set : (h.set p data).next q = h.next q :=
  apply_cell_modify Block.next fun _ => rfl

@[simp] theorem prev_set : (h.set p data).prev q = h.prev q :=
  apply_cell_modify Block.prev fun _ => rfl

@[simp] theorem blockKey_set : (h.set p data).blockKey q = h.blockKey q :=
  apply_cell_modify Block.blockKey fun _ => rfl

@[simp] theorem get_set_self : (h.set p data).get p = data := by
  simp [set, modify, get]

@[simp] theorem entry_set_of_ne (hq : q ≠ p) : (h.set p data).entry q = h.entry q := by
  simp [set, modify, entry, blockKey, get, hq]

theorem set_get_self : h.set p (h.get p) = h := by
  simp [set, modify, get]

theorem cell_newNode_of_lt (hq : q < h.size) : (h.newNode data key).cell q = h.cell q :=
  Function.update_of_ne (Nat.ne_of_lt hq) _ _

theorem entry_newNode_self : (h.newNode data key).entry h.size = (key, data) := by
  simp [newNode, entry, blockKey, get]

@[simp] theorem size_setNext : (h.setNext p link).size = h.size := rfl

@[simp] theorem size_setPrev : (h.setPrev p link).size = h.size := rfl

/-- Put a node in front of the head. -/
theorem linked_front {head n : Nat} {nodes : List Nat}
    (hl : DoublyLinked h.next h.prev (head :: nodes)) (hn : n ∉ head :: nodes)
    (hh' : h' = ((h.setPrev n none).setNext n (some head)).setPrev head (some n)) :
    DoublyLinked h'.next h'.prev (n :: head :: nodes) := by
  have hne : ∀ q ∈ head :: nodes, q ≠ n := fun q hq heq => hn (heq ▸ hq)
  have hhead : n ≠ head := (hne head List.mem_cons_self).symm
  subst hh'
  refine hl.cons hn ?_ ?_ (fun q hq => ?_) fun q hq => ?_
  · simp
  · simp [hhead]
  · simp [hne q hq]
  · simp [hne q hq, eq_comm]

end BlockHeap

/-! ## The list -/

/-- The list has the given nodes. -/
structure IsList (h : BlockHeap) (l : DoublyLinkedList) (nodes : List Nat) : Prop where
  head : l.head = nodes.head?
  tail : l.tail = nodes.getLast?
  length : l.length = nodes.length
  linked : DoublyLinked h.next h.prev nodes
  allocated : ∀ p ∈ nodes, p < h.size

/-- The blocks have the same keys and data, only their links may differ. -/
structure SameBlocks (h h' : BlockHeap) : Prop where
  entry : h'.entry = h.entry
  size : h'.size = h.size

namespace IsList
variable {h h' : BlockHeap} {l : DoublyLinkedList} {nodes front back : List Nat} {n p : Nat}

theorem congr (hl : IsList h l nodes) (hsize : h.size ≤ h'.size)
    (hcell : ∀ p ∈ nodes, h'.next p = h.next p ∧ h'.prev p = h.prev p) : IsList h' l nodes :=
  { hl with
    linked :=
      ⟨hl.linked.nodup, hl.linked.forward.congr fun p hp => (hcell p hp).1,
        hl.linked.backward.congr fun p hp => (hcell p (List.mem_reverse.mp hp)).2⟩
    allocated := fun p hp => (hl.allocated p hp).trans_le hsize }

theorem insertBeginning (hl : IsList h l nodes) (hn : n ∉ nodes) (hlt : n < h.size) :
    IsList (l.insertBeginning n h).2 (l.insertBeginning n h).1 (n :: nodes) ∧
      SameBlocks h (l.insertBeginning n h).2 := by
  have hhead := hl.head
  have hallocated : ∀ p ∈ n :: nodes, p < h.size := List.forall_mem_cons.mpr ⟨hlt, hl.allocated⟩
  cases nodes with
  | nil =>
    rw [List.head?_nil] at hhead
    simp only [DoublyLinkedList.insertBeginning, hhead]
    refine ⟨⟨rfl, rfl, ?_, ?_, hallocated⟩, ⟨by simp, rfl⟩⟩
    · simp [hl.length]
    · refine hl.linked.cons hn ?_ ?_ (fun q hq => ?_) fun q hq => ?_
      · simp
      · simp
      · cases hq
      · cases hq
  | cons head nodes =>
    rw [List.head?_cons] at hhead
    simp only [DoublyLinkedList.insertBeginning, hhead]
    refine ⟨⟨rfl, ?_, ?_, BlockHeap.linked_front hl.linked hn rfl, hallocated⟩, ⟨by simp, rfl⟩⟩
    · rw [hl.tail, List.getLast?_cons_cons]
    · simp [hl.length]

/-- Cut off the last node. -/
theorem cutLast {last : Nat} (hl : DoublyLinked h.next h.prev (front ++ [p]))
    (hlast : front.getLast? = some last) :
    h.prev p = some last ∧
      DoublyLinked (h.setNext last none).next (h.setNext last none).prev front := by
  refine ⟨hl.prev_eq.trans hlast, ?_⟩
  rw [← List.append_nil front]
  refine hl.unlink (fun q _ => ?_) fun q _ => ?_
  · simp [hlast, eq_comm]
  · simp

theorem deleteEnd (hl : IsList h l (nodes ++ [p])) :
    ∃ l' h', l.deleteEnd h = some (l', h') ∧ IsList h' l' nodes ∧ SameBlocks h h' := by
  have htail : l.tail = some p := hl.tail.trans List.getLast?_concat
  have hlength : l.length = nodes.length + 1 := by simp [hl.length]
  have hallocated : ∀ q ∈ nodes, q < h.size := fun q hq =>
    hl.allocated q (List.mem_append_left _ hq)
  rcases hlast : nodes.getLast? with _ | last
  · cases List.getLast?_eq_none_iff.mp hlast
    refine ⟨⟨none, none, l.length - 1⟩, h, ?_,
      ⟨rfl, rfl, ?_, ⟨List.nodup_nil, trivial, trivial⟩, hallocated⟩, ⟨rfl, rfl⟩⟩
    · rw [DoublyLinkedList.deleteEnd, htail]
      exact if_pos hlength
    · simp [hlength]
  · have hne : nodes ≠ [] := by
      rintro rfl
      cases hlast
    obtain ⟨hprev, hlinked⟩ := cutLast hl.linked hlast
    refine ⟨⟨l.head, some last, l.length - 1⟩, h.setNext last none, ?_,
      ⟨?_, hlast.symm, ?_, hlinked, hallocated⟩, ⟨by simp, rfl⟩⟩
    · have hlength' : l.length ≠ 1 := by
        have := List.length_pos_iff.mpr hne
        omega
      simp only [DoublyLinkedList.deleteEnd, htail, if_neg hlength', hprev, Option.map_some]
    · exact hl.head.trans (List.head?_append_of_ne_nil nodes hne)
    · simp [hlength]

theorem unlink (hl : IsList h l (front ++ p :: back)) (hfront : front ≠ []) :
    ∃ tail h', l.unlink p h = some (tail, h') ∧ tail = (front ++ back).getLast? ∧
      DoublyLinked h'.next h'.prev (front ++ back) ∧ SameBlocks h h' := by
  have htail := hl.tail
  have hlinked := hl.linked
  obtain ⟨last, hlast⟩ : ∃ last, front.getLast? = some last :=
    ⟨_, List.getLast?_eq_some_getLast hfront⟩
  cases back with
  | nil =>
    obtain ⟨hprev, hlinked⟩ := cutLast hlinked hlast
    refine ⟨some last, h.setNext last none, ?_, ?_, ?_, ⟨by simp, rfl⟩⟩
    · rw [DoublyLinkedList.unlink, if_pos (htail.trans List.getLast?_concat), hprev,
        Option.map_some]
    · rw [List.append_nil, hlast]
    · rwa [List.append_nil]
  | cons after back =>
    -- a node in the middle: both neighbours get a new link, and the tail stays
    have hprev := hlinked.prev_eq.trans hlast
    have hnext : h.next p = some after := hlinked.next_eq
    obtain ⟨-, hback, -⟩ := List.nodup_append.mp hlinked.nodup
    have hnotTail : l.tail ≠ some p := by
      rw [htail, List.getLast?_append_cons, List.getLast?_cons_cons]
      intro h
      exact (List.nodup_cons.mp hback).1 (List.mem_of_getLast? h)
    refine ⟨l.tail, (h.setNext last (some after)).setPrev after (some last), ?_, ?_, ?_,
      ⟨by simp, rfl⟩⟩
    · simp [DoublyLinkedList.unlink, hnotTail, hprev, hnext]
    · rw [htail, List.getLast?_append_cons, List.getLast?_append_cons, List.getLast?_cons_cons]
    · refine hlinked.unlink (fun q _ => ?_) fun q _ => ?_
      · simp [hlast, eq_comm]
      · simp [hlast, eq_comm]

theorem moveToFront (hl : IsList h l (front ++ p :: back)) :
    ∃ l' h', l.moveToFront p h = some (l', h') ∧ IsList h' l' (p :: (front ++ back)) ∧
      SameBlocks h h' := by
  have hhead := hl.head
  cases front with
  | nil => exact ⟨l, h, if_pos hhead, hl, ⟨rfl, rfl⟩⟩
  | cons head front =>
    obtain ⟨tail, h', hunlink, htail, hlinked, hsame⟩ := hl.unlink (List.cons_ne_nil head front)
    have hperm : (p :: (head :: front ++ back)).Perm (head :: front ++ p :: back) :=
      List.perm_middle.symm
    have hnotMem : p ∉ head :: front ++ back :=
      (List.nodup_cons.mp (hperm.nodup_iff.mpr hl.linked.nodup)).1
    have hne : l.head ≠ some p := by
      rw [hhead]
      rintro ⟨⟩
      exact hnotMem List.mem_cons_self
    refine ⟨⟨some p, tail, l.length⟩,
      ((h'.setPrev p none).setNext p (some head)).setPrev head (some p), ?_,
      ⟨rfl, ?_, ?_, BlockHeap.linked_front hlinked hnotMem rfl, ?_⟩, ?_⟩
    · rw [DoublyLinkedList.moveToFront, if_neg hne, hunlink, Option.bind_some, hhead]
      rfl
    · rw [htail, List.cons_append, List.getLast?_cons_cons]
    · rw [hl.length, hperm.length_eq]
    · intro q hq
      simpa [hsame.size] using hl.allocated q (hperm.mem_iff.mp hq)
    · exact ⟨by simp [hsame.entry], hsame.size⟩

end IsList

end ChudDB.BlockCache
