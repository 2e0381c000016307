import ChudDB.Lib.Linked

/-! # Doubly linked lists

The nodes of a doubly linked list are threaded in one direction by `next` and in the other one by
`prev`. Taking a node out changes the links of its neighbours (`DoublyLinked.unlink`), and putting
one in front changes the link of the old first node (`DoublyLinked.cons`). Both are proved for one
direction, and the other one is that of the list read backwards. -/

namespace ChudDB.Lib

variable {P : Type u} {next next' prev prev' : P → Option P} {nodes front back : List P} {p n : P}

/-- The link of every node leads to the one behind it. -/
def Threaded (next : P → Option P) : List P → Prop
  | [] => True
  | p :: nodes => next p = nodes.head? ∧ Threaded next nodes

theorem Threaded.linked (h : Threaded next nodes) : Linked next nodes.head? nodes := by
  induction nodes with
  | nil => rfl
  | cons p nodes ih =>
    refine ⟨rfl, ?_⟩
    rw [h.1]
    exact ih h.2

theorem Threaded.congr (h : Threaded next nodes) (hnext : ∀ p ∈ nodes, next' p = next p) :
    Threaded next' nodes := by
  induction nodes with
  | nil => trivial
  | cons p nodes ih =>
    refine ⟨(hnext p List.mem_cons_self).trans h.1, ih h.2 fun q hq => ?_⟩
    exact hnext q (List.mem_cons_of_mem p hq)

theorem Threaded.of_append (h : Threaded next (front ++ back)) : Threaded next back := by
  induction front with
  | nil => exact h
  | cons p front ih => exact ih h.2

theorem Threaded.next_eq (h : Threaded next (front ++ p :: back)) : next p = back.head? :=
  h.of_append.1

section
variable [DecidableEq P]

/-- Replace what follows a front: the link of its last node leads there. -/
theorem Threaded.relink (h : Threaded next (front ++ back)) (hnodup : front.Nodup)
    (hnext : ∀ q ∈ front, next' q = if front.getLast? = some q then nodes.head? else next q)
    (hnodes : Threaded next' nodes) : Threaded next' (front ++ nodes) := by
  induction front with
  | nil => exact hnodes
  | cons p front ih =>
    have hp := hnext p List.mem_cons_self
    cases front with
    | nil =>
      rw [List.getLast?_singleton, if_pos rfl] at hp
      exact ⟨hp, hnodes⟩
    | cons q front =>
      rw [List.getLast?_cons_cons] at hp hnext
      have hnotMem := (List.nodup_cons.mp hnodup).1
      rw [if_neg fun hlast => hnotMem (List.mem_of_getLast? hlast)] at hp
      refine ⟨hp.trans h.1, ih h.2 (List.nodup_cons.mp hnodup).2 fun r hr => ?_⟩
      exact hnext r (List.mem_cons_of_mem p hr)

theorem Threaded.unlink (h : Threaded next (front ++ p :: back))
    (hnodup : (front ++ p :: back).Nodup)
    (hnext : ∀ q ∈ front ++ back,
      next' q = if front.getLast? = some q then back.head? else next q) :
    Threaded next' (front ++ back) := by
  obtain ⟨hfront, -, hdisjoint⟩ := List.nodup_append.mp hnodup
  refine h.relink hfront (fun q hq => hnext q (List.mem_append_left back hq)) ?_
  refine h.of_append.2.congr fun q hq => ?_
  rw [hnext q (List.mem_append_right front hq), if_neg]
  intro hlast
  exact hdisjoint q (List.mem_of_getLast? hlast) q (List.mem_cons_of_mem p hq) rfl

end

/-- The nodes of a doubly linked list. -/
structure DoublyLinked (next prev : P → Option P) (nodes : List P) : Prop where
  nodup : nodes.Nodup
  forward : Threaded next nodes
  backward : Threaded prev nodes.reverse

namespace DoublyLinked

theorem next_eq (h : DoublyLinked next prev (front ++ p :: back)) : next p = back.head? :=
  h.forward.next_eq

theorem reverse (h : DoublyLinked next prev nodes) : DoublyLinked prev next nodes.reverse where
  nodup := List.nodup_reverse.mpr h.nodup
  forward := h.backward
  backward := by
    rw [List.reverse_reverse]
    exact h.forward

theorem reverse_append_cons (front back : List P) (p : P) :
    (front ++ p :: back).reverse = back.reverse ++ p :: front.reverse := by
  rw [List.reverse_append, List.reverse_cons, List.append_assoc, List.singleton_append]

theorem prev_eq (h : DoublyLinked next prev (front ++ p :: back)) : prev p = front.getLast? := by
  have hreverse := h.reverse
  rw [reverse_append_cons] at hreverse
  rw [hreverse.next_eq, List.head?_reverse]

variable [DecidableEq P]

/-- Take out a node. -/
theorem unlink (h : DoublyLinked next prev (front ++ p :: back))
    (hnext : ∀ q ∈ front ++ back,
      next' q = if front.getLast? = some q then back.head? else next q)
    (hprev : ∀ q ∈ front ++ back,
      prev' q = if back.head? = some q then front.getLast? else prev q) :
    DoublyLinked next' prev' (front ++ back) := by
  have hreverse := h.reverse
  rw [reverse_append_cons] at hreverse
  refine ⟨?_, h.forward.unlink h.nodup hnext, ?_⟩
  · exact h.nodup.sublist (.append_left (List.sublist_cons_self p back) front)
  · rw [List.reverse_append]
    refine hreverse.forward.unlink hreverse.nodup fun q hq => ?_
    rw [List.getLast?_reverse, List.head?_reverse]
    refine hprev q ?_
    rw [← List.reverse_append] at hq
    exact List.mem_reverse.mp hq

/-- Put a node in front. -/
theorem cons (h : DoublyLinked next prev nodes) (hn : n ∉ nodes) (hnext_new : next' n = nodes.head?)
    (hprev_new : prev' n = none) (hnext : ∀ q ∈ nodes, next' q = next q)
    (hprev : ∀ q ∈ nodes, prev' q = if nodes.head? = some q then some n else prev q) :
    DoublyLinked next' prev' (n :: nodes) := by
  refine ⟨List.nodup_cons.mpr ⟨hn, h.nodup⟩, ⟨hnext_new, h.forward.congr hnext⟩, ?_⟩
  rw [List.reverse_cons]
  have hbackward := h.backward
  rw [← List.append_nil nodes.reverse] at hbackward
  refine hbackward.relink (List.nodup_reverse.mpr h.nodup) (fun q hq => ?_) ⟨hprev_new, trivial⟩
  rw [List.getLast?_reverse]
  exact hprev q (List.mem_reverse.mp hq)

end DoublyLinked

end ChudDB.Lib
