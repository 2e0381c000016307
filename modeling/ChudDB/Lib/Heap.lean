import Mathlib

/-! # Binary heaps in a slice

`Push` and `Pop` of Go's `container/heap` for elements ordered by a key. `Push` puts an element into
the heap and `Pop` takes out one whose key is least; which one of several with the least key it
takes depends on the layout. -/

namespace ChudDB.Lib.Heap

/-- The parent of a position; position 0 has none. -/
def parent (c : Nat) : Nat := (c - 1) / 2

theorem parent_lt (h : 0 < c) : parent c < c := by
  unfold parent
  omega

theorem eq_child_of_parent_eq (hc : 0 < c) (h : parent c = i) : c = 2 * i + 1 ∨ c = 2 * i + 2 := by
  unfold parent at h
  omega

/-- `Swap(i, j)`. -/
def swap (h : Array α) (i j : Nat) : Array α := h.swapIfInBounds i j

theorem swap_perm (h : Array α) (i j : Nat) : (swap h i j).Perm h := by
  rw [swap, Array.swapIfInBounds]
  split
  · split
    · exact Array.swap_perm _ _
    · exact .refl h
  · exact .refl h

section Sift

variable {α : Type u} {K : Type v} [LinearOrder K] (key : α → K)

/-- The key at a position, above all keys where there is no element. -/
def keyAt (h : Array α) (i : Nat) : WithTop K := h[i]?.map key

/-- `Less(i, j)`. -/
def less (h : Array α) (i j : Nat) : Bool := decide (keyAt key h i < keyAt key h j)

/-- `up`, for at most `fuel` swaps. -/
def up : Nat → Array α → Nat → Array α
  | 0, h, _ => h
  | fuel + 1, h, j =>
    if parent j = j ∨ !less key h j (parent j) then h
    else up fuel (swap h (parent j) j) (parent j)

/-- The child of `i` among the first `n` elements that `down` compares with it. -/
def child (h : Array α) (i n : Nat) : Nat :=
  if 2 * i + 2 < n ∧ less key h (2 * i + 2) (2 * i + 1) then 2 * i + 2 else 2 * i + 1

/-- `down`, for at most `fuel` swaps. -/
def down : Nat → Array α → Nat → Nat → Array α
  | 0, h, _, _ => h
  | fuel + 1, h, i, n =>
    if n ≤ 2 * i + 1 ∨ !less key h (child key h i n) i then h
    else down fuel (swap h i (child key h i n)) (child key h i n) n

/-- `heap.Push`. -/
def push (h : Array α) (x : α) : Array α := up key (h.size + 1) (h.push x) h.size

/-- `heap.Pop`; `none` for an empty heap. -/
def pop (h : Array α) : Option (α × Array α) :=
  let h := down key h.size (swap h 0 (h.size - 1)) 0 (h.size - 1)
  h.back?.map fun x => (x, h.pop)

/-! ## The heap order

It is stated for the keys by position; `up` and `down` only look at those. -/

section Order

variable {L : Type w} [LinearOrder L] {f : Nat → L}

/-- Among the first `n` positions no key is below its parent's. -/
def Ordered (f : Nat → L) (n : Nat) : Prop := ∀ c, 0 < c → c < n → f (parent c) ≤ f c

/-- The order as `up` meets it at `j`: only the key at `j` may be below its parent's. -/
structure UpOrdered (f : Nat → L) (n j : Nat) : Prop where
  rest : ∀ c, 0 < c → c < n → c ≠ j → f (parent c) ≤ f c
  grand : ∀ c, 0 < c → c < n → 0 < j → parent c = j → f (parent j) ≤ f c

/-- The order as `down` meets it at `i`: only the key at `i` may be above its children's. -/
structure DownOrdered (f : Nat → L) (n i : Nat) : Prop where
  rest : ∀ c, 0 < c → c < n → parent c ≠ i → f (parent c) ≤ f c
  grand : ∀ c, 0 < c → c < n → 0 < i → parent c = i → f (parent i) ≤ f c

/-- The keys after a swap of `i` and `j`. -/
def swapped (f : Nat → L) (i j k : Nat) : L := if k = j then f i else if k = i then f j else f k

omit [LinearOrder L] in
@[simp] theorem swapped_left : swapped f i j i = f j := by
  unfold swapped
  split
  · rename_i h
    rw [h]
  · rw [if_pos rfl]

omit [LinearOrder L] in
@[simp] theorem swapped_right : swapped f i j j = f i := if_pos rfl

omit [LinearOrder L] in
theorem swapped_of_ne (hi : k ≠ i) (hj : k ≠ j) : swapped f i j k = f k := by
  rw [swapped, if_neg hj, if_neg hi]

theorem Ordered.root_le (h : Ordered f n) (hc : c < n) : f 0 ≤ f c := by
  induction c using Nat.strong_induction_on with
  | h c ih =>
    rcases Nat.eq_zero_or_pos c with rfl | hpos
    · exact le_rfl
    · have hlt := parent_lt hpos
      exact (ih (parent c) hlt (hlt.trans hc)).trans (h c hpos hc)

theorem UpOrdered.swap (h : UpOrdered f n j) (hj : 0 < j) (hjn : j < n) (hlt : f j < f (parent j)) :
    UpOrdered (swapped f (parent j) j) n (parent j) := by
  have hpj := parent_lt hj
  constructor
  · intro c hc hcn hne
    by_cases hcj : c = j
    · subst hcj
      rw [swapped_left, swapped_right]
      exact hlt.le
    · rw [swapped_of_ne hne hcj]
      by_cases hpc : parent c = j
      · rw [hpc, swapped_right]
        exact h.grand c hc hcn hj hpc
      · by_cases hpp : parent c = parent j
        · rw [hpp, swapped_left]
          exact hlt.le.trans (hpp ▸ h.rest c hc hcn hcj)
        · rw [swapped_of_ne hpp hpc]
          exact h.rest c hc hcn hcj
  · intro c hc hcn hp hpc
    -- the parent of the new position is above both positions of the swap
    have hpp := parent_lt hp
    have habove : f (parent (parent j)) ≤ f (parent j) :=
      h.rest (parent j) hp (by omega) (by omega)
    rw [swapped_of_ne (by omega) (by omega)]
    by_cases hcj : c = j
    · rw [hcj, swapped_right]
      exact habove
    · rw [swapped_of_ne (by have := parent_lt hc; omega) hcj]
      exact habove.trans (hpc ▸ h.rest c hc hcn hcj)

theorem DownOrdered.swap (h : DownOrdered f n i) (hj : 0 < j) (hjn : j < n) (hji : parent j = i)
    (hmin : ∀ c, 0 < c → c < n → parent c = i → f j ≤ f c) (hlt : f j < f i) :
    DownOrdered (swapped f i j) n j := by
  have hij : i < j := hji ▸ parent_lt hj
  constructor
  · intro c hc hcn hne
    have hpc := parent_lt hc
    by_cases hci : c = i
    · subst hci
      rw [swapped_left, swapped_of_ne (by omega) hne]
      exact h.grand j hj hjn hc hji
    · by_cases hpi : parent c = i
      · rw [hpi, swapped_left]
        by_cases hcj : c = j
        · rw [hcj, swapped_right]
          exact hlt.le
        · rw [swapped_of_ne hci hcj]
          exact hmin c hc hcn hpi
      · rw [swapped_of_ne hpi hne, swapped_of_ne hci (fun hcj => hpi (hcj ▸ hji))]
        exact h.rest c hc hcn hpi
  · intro c hc hcn _ hpc
    have hlt' := parent_lt hc
    rw [hji, swapped_left, swapped_of_ne (by omega) (by omega), ← hpc]
    exact h.rest c hc hcn (by omega)

end Order

/-! ## Push and pop -/

variable {key} {h : Array α}

omit [LinearOrder K] in
theorem keyAt_swap (hi : i < h.size) (hj : j < h.size) :
    keyAt key (swap h i j) = swapped (keyAt key h) i j := by
  funext k
  rw [keyAt, swap, Array.swapIfInBounds_def, dif_pos hi, dif_pos hj, Array.getElem?_swap]
  by_cases hkj : k = j
  · rw [if_pos hkj.symm, hkj, swapped_right, keyAt, Array.getElem?_eq_getElem hi]
  · rw [if_neg (Ne.symm hkj)]
    by_cases hki : k = i
    · rw [if_pos hki.symm, hki, swapped_left, keyAt, Array.getElem?_eq_getElem hj]
    · rw [if_neg (Ne.symm hki), swapped_of_ne hki hkj, keyAt]

theorem up_perm : (up key fuel h j).Perm h := by
  induction fuel generalizing h j with
  | zero => exact .refl h
  | succ fuel ih =>
    rw [up]
    split
    · exact .refl h
    · exact ih.trans (swap_perm ..)

theorem down_perm : (down key fuel h i n).Perm h := by
  induction fuel generalizing h i with
  | zero => exact .refl h
  | succ fuel ih =>
    rw [down]
    split
    · exact .refl h
    · exact ih.trans (swap_perm ..)

theorem up_ordered (ho : UpOrdered (keyAt key h) n j) (hj : j < n) (hn : n ≤ h.size)
    (hfuel : j < fuel) : Ordered (keyAt key (up key fuel h j)) n := by
  induction fuel generalizing h j with
  | zero => exact absurd hfuel (Nat.not_lt_zero j)
  | succ fuel ih =>
    rw [up]
    split
    · rename_i hstop
      intro c hc hcn
      by_cases hcj : c = j
      · subst hcj
        rcases hstop with heq | hless
        · exact absurd heq (parent_lt hc).ne
        · exact le_of_not_gt (by simpa [less] using hless)
      · exact ho.rest c hc hcn hcj
    · rename_i hgo
      simp only [less, not_or, Bool.not_eq_true', decide_eq_false_iff_not, not_not] at hgo
      have hpos : 0 < j := by
        rcases Nat.eq_zero_or_pos j with rfl | hpos
        · exact absurd rfl hgo.1
        · exact hpos
      have hp := parent_lt hpos
      apply ih
      · rw [keyAt_swap (by omega) (by omega)]
        exact ho.swap hpos hj hgo.2
      · omega
      · rw [(swap_perm ..).size_eq]
        exact hn
      · omega

theorem child_spec (key : α → K) (h : Array α) (hi : 2 * i + 1 < n) :
    0 < child key h i n ∧ child key h i n < n ∧ parent (child key h i n) = i ∧
      ∀ c, 0 < c → c < n → parent c = i → keyAt key h (child key h i n) ≤ keyAt key h c := by
  unfold child
  split
  · rename_i hright
    have hlt : keyAt key h (2 * i + 2) < keyAt key h (2 * i + 1) := by
      simpa [less] using hright.2
    refine ⟨by omega, hright.1, by unfold parent; omega, ?_⟩
    intro c hc _ hpc
    rcases eq_child_of_parent_eq hc hpc with rfl | rfl
    · exact hlt.le
    · exact le_rfl
  · rename_i hleft
    refine ⟨by omega, hi, by unfold parent; omega, ?_⟩
    intro c hc hcn hpc
    rcases eq_child_of_parent_eq hc hpc with rfl | rfl
    · exact le_rfl
    · have hless : ¬less key h (2 * i + 2) (2 * i + 1) := fun hless => hleft ⟨hcn, hless⟩
      exact le_of_not_gt (by simpa [less] using hless)

theorem down_ordered (ho : DownOrdered (keyAt key h) n i) (hn : n ≤ h.size) (hfuel : n - i ≤ fuel) :
    Ordered (keyAt key (down key fuel h i n)) n := by
  induction fuel generalizing h i with
  | zero =>
    intro c hc hcn
    have := parent_lt hc
    exact ho.rest c hc hcn (by omega)
  | succ fuel ih =>
    rw [down]
    split
    · rename_i hstop
      intro c hc hcn
      by_cases hpc : parent c = i
      · have hchild := eq_child_of_parent_eq hc hpc
        rcases hstop with hlen | hless
        · omega
        · have hle : keyAt key h i ≤ keyAt key h (child key h i n) :=
            le_of_not_gt (by simpa [less] using hless)
          rw [hpc]
          exact hle.trans ((child_spec key h (by omega)).2.2.2 c hc hcn hpc)
      · exact ho.rest c hc hcn hpc
    · rename_i hgo
      simp only [less, not_or, Bool.not_eq_true', decide_eq_false_iff_not, not_not, not_le] at hgo
      obtain ⟨hpos, hlt, hp, hmin⟩ := child_spec key h hgo.1
      have hic := parent_lt hpos
      apply ih
      · rw [keyAt_swap (by omega) (by omega)]
        exact ho.swap hpos hlt hp hmin hgo.2
      · rw [(swap_perm ..).size_eq]
        exact hn
      · omega

/-- `down` leaves the elements from `n` on where they are. -/
theorem down_getElem? (hn : n ≤ h.size) (hk : n ≤ k) : (down key fuel h i n)[k]? = h[k]? := by
  induction fuel generalizing h i with
  | zero => rfl
  | succ fuel ih =>
    rw [down]
    split
    · rfl
    · rename_i hgo
      simp only [not_or, not_le] at hgo
      obtain ⟨hpos, hlt, hp, -⟩ := child_spec key h hgo.1
      have hic := parent_lt hpos
      rw [ih (by rw [(swap_perm ..).size_eq]; exact hn), swap, Array.swapIfInBounds_def,
        dif_pos (by omega), dif_pos (by omega), Array.getElem?_swap, if_neg (by omega),
        if_neg (by omega)]

/-- The slice is a heap. -/
def IsHeap (key : α → K) (h : Array α) : Prop := Ordered (keyAt key h) h.size

theorem isHeap_empty : IsHeap key #[] := fun _ _ hc => absurd hc (Nat.not_lt_zero _)

theorem push_perm (h : Array α) (x : α) : (push key h x).Perm (h.push x) := up_perm

theorem isHeap_push (hh : IsHeap key h) (x : α) : IsHeap key (push key h x) := by
  have hsize : (push key h x).size = h.size + 1 := by
    rw [(push_perm h x).size_eq, Array.size_push]
  have hat : ∀ c < h.size, keyAt key (h.push x) c = keyAt key h c := by
    intro c hc
    rw [keyAt, keyAt, Array.getElem?_push, if_neg (by omega)]
  rw [IsHeap, hsize]
  apply up_ordered
  · constructor
    · intro c hc hcn hne
      have := parent_lt hc
      rw [hat c (by omega), hat _ (by omega)]
      exact hh c hc (by omega)
    · intro c hc hcn _ hpc
      have := parent_lt hc
      omega
  · exact Nat.lt_succ_self _
  · rw [Array.size_push]
  · exact Nat.lt_succ_self _

theorem pop_eq_none (hsize : h.size = 0) : pop key h = none := by
  rw [Array.eq_empty_of_size_eq_zero hsize]
  rfl

/-- `heap.Pop` takes an element with a least key out of a heap and leaves a heap. -/
theorem pop_spec (hh : IsHeap key h) (hpos : 0 < h.size) :
    ∃ x rest, pop key h = some (x, rest) ∧ (rest.push x).Perm h ∧ IsHeap key rest ∧
      ∀ y ∈ h, key x ≤ key y := by
  obtain ⟨n, hn⟩ : ∃ n, h.size = n + 1 := ⟨h.size - 1, by omega⟩
  obtain ⟨x, hx⟩ : ∃ x, h[0]? = some x := ⟨_, Array.getElem?_eq_getElem hpos⟩
  have hperm : (down key (n + 1) (swap h 0 n) 0 n).Perm h := down_perm.trans (swap_perm ..)
  have hsize : (down key (n + 1) (swap h 0 n) 0 n).size = n + 1 := hperm.size_eq.trans hn
  have hlast : (down key (n + 1) (swap h 0 n) 0 n).back? = some x := by
    rw [Array.back?_eq_getElem?, hsize, Nat.add_sub_cancel,
      down_getElem? (by rw [(swap_perm ..).size_eq]; omega) le_rfl, swap, Array.swapIfInBounds_def,
      dif_pos hpos, dif_pos (by omega), Array.getElem?_swap, if_pos rfl,
      ← Array.getElem?_eq_getElem hpos, hx]
  refine ⟨x, (down key (n + 1) (swap h 0 n) 0 n).pop, ?_, ?_, ?_, ?_⟩
  · rw [pop, hn, Nat.add_sub_cancel, hlast]
    rfl
  · rw [Array.back?_eq_some_iff] at hlast
    obtain ⟨l, hl⟩ := hlast
    rw [hl, Array.pop_push, ← hl]
    exact hperm
  · have hord : Ordered (keyAt key (down key (n + 1) (swap h 0 n) 0 n)) n := by
      apply down_ordered
      · rw [keyAt_swap hpos (by omega)]
        constructor
        · intro c hc hcn hpc
          have := parent_lt hc
          rw [swapped_of_ne hpc (by omega), swapped_of_ne (by omega) (by omega)]
          exact hh c hc (by omega)
        · intro c _ _ h0 _
          exact absurd h0 (lt_irrefl 0)
      · rw [(swap_perm ..).size_eq]
        omega
      · omega
    intro c hc hcn
    rw [Array.size_pop, hsize, Nat.add_sub_cancel] at hcn
    have := parent_lt hc
    have hat : ∀ k < n, keyAt key (down key (n + 1) (swap h 0 n) 0 n).pop k =
        keyAt key (down key (n + 1) (swap h 0 n) 0 n) k := by
      intro k hk
      rw [keyAt, keyAt, Array.getElem?_pop, if_pos (by omega)]
    rw [hat c hcn, hat _ (by omega)]
    exact hord c hc hcn
  · intro y hy
    obtain ⟨c, hc, hcy⟩ := Array.mem_iff_getElem.mp hy
    have hle := Ordered.root_le hh hc
    rw [keyAt, keyAt, hx, Array.getElem?_eq_getElem hc, hcy] at hle
    exact WithTop.coe_le_coe.mp hle

end Sift
end ChudDB.Lib.Heap
