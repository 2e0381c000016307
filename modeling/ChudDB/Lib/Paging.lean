import ChudDB.Lib.SortedMap

/-! # Pages of a list

A list is read page by page; the last page is the first one that is not full. In a sorted listing
the page of an entry is determined by its keyRank, the number of smaller keys; a new key moves the
larger ones by one place (`keyRank_put`). -/

namespace ChudDB.Lib

variable {α : Type u} {l : List α} {size n : Nat}

/-- Page `n`, counted from 0. -/
def page (size n : Nat) (l : List α) : List α := (l.drop (n * size)).take size

/-- The pages up to the first one that is not full. -/
def pages (size : Nat) (l : List α) : List (List α) :=
  (List.range (l.length / size + 1)).map fun n => page size n l

theorem length_page : (page size n l).length = min size (l.length - n * size) := by
  rw [page, List.length_take, List.length_drop]

theorem page_full (hsize : 0 < size) (h : n < l.length / size) : (page size n l).length = size := by
  have hle : (n + 1) * size ≤ l.length := (Nat.le_div_iff_mul_le hsize).mp h
  rw [Nat.add_mul, Nat.one_mul] at hle
  rw [length_page]
  omega

theorem page_short (hsize : 0 < size) : (page size (l.length / size) l).length < size := by
  have hlt : l.length < (l.length / size + 1) * size := Nat.lt_mul_of_div_lt (by omega) hsize
  rw [Nat.add_mul, Nat.one_mul] at hlt
  rw [length_page]
  omega

theorem flatten_page : ((List.range n).map fun i => page size i l).flatten = l.take (n * size) := by
  induction n with
  | zero => simp
  | succ n ih =>
    rw [List.range_succ, List.map_append, List.flatten_append, ih, List.map_singleton,
      List.flatten_singleton, page, Nat.add_mul, Nat.one_mul, List.take_add]

theorem getElem?_pages (h : (pages size l)[n]? = some p) : p = page size n l := by
  rw [pages, List.getElem?_map, Option.map_eq_some_iff] at h
  obtain ⟨i, hi, rfl⟩ := h
  obtain ⟨-, rfl⟩ := List.getElem?_eq_some_iff.mp hi
  rw [List.getElem_range]

theorem length_of_mem_dropLast_pages (hsize : 0 < size) (h : p ∈ (pages size l).dropLast) :
    p.length = size := by
  rw [pages, List.range_succ, List.map_append, List.map_singleton, List.dropLast_concat] at h
  obtain ⟨n, hn, rfl⟩ := List.mem_map.mp h
  exact page_full hsize (List.mem_range.mp hn)

theorem getLast?_pages : (pages size l).getLast? = some (page size (l.length / size) l) := by
  rw [pages, List.range_succ, List.map_append, List.map_singleton, List.getLast?_concat]

/-- A page as the part of the list between its bounds. -/
theorem drop_take_eq_page :
    (l.take (min l.length ((n + 1) * size))).drop (min l.length (n * size)) = page size n l := by
  have htake : l.take (min l.length ((n + 1) * size)) = l.take ((n + 1) * size) := by
    rw [List.take_eq_take_iff]
    omega
  rw [htake, page]
  rcases Nat.le_total (n * size) l.length with hle | hge
  · rw [Nat.min_eq_right hle, List.drop_take, Nat.add_mul, Nat.one_mul, Nat.add_sub_cancel_left]
  · rw [Nat.min_eq_left hge, List.drop_of_length_le hge, List.take_nil]
    exact List.drop_of_length_le (List.length_take_le' ..)

theorem drop_eq_page_append (size n : Nat) (l : List α) :
    l.drop (n * size) = page size n l ++ l.drop ((n + 1) * size) := by
  rw [page, Nat.add_mul, Nat.one_mul, ← List.drop_drop, List.take_append_drop]

theorem take_append_page (size n : Nat) (l : List α) :
    l.take (n * size) ++ page size n l = l.take ((n + 1) * size) := by
  rw [page, Nat.add_mul, Nat.one_mul, List.take_add]

/-- A page that is not full is the last one. -/
theorem page_eq_drop (h : (page size n l).length < size) : page size n l = l.drop (n * size) := by
  rw [page, List.length_take] at h
  rw [page, List.take_of_length_le (by omega)]

/-- The pages put together give the list. -/
theorem flatten_pages (hsize : 0 < size) : (pages size l).flatten = l := by
  rw [pages, flatten_page]
  exact List.take_of_length_le (Nat.lt_mul_of_div_lt (by omega) hsize).le

/-! ## Pages of a sorted listing -/

section
variable {K : Type u} {V : Type v} [LinearOrder K] {l : List (K × V)} {k k' : K} {v : V}
  {e a : K × V}

/-- The number of smaller keys. -/
def keyRank (l : List (K × V)) (k : K) : Nat := l.countP fun e => decide (e.1 < k)

theorem keyRank_cons : keyRank (a :: l) k = keyRank l k + if a.1 < k then 1 else 0 := by
  rw [keyRank, List.countP_cons]
  exact congrArg _ (if_congr decide_eq_true_iff rfl rfl)

theorem keyRank_eq_zero (h : ∀ e ∈ l, k ≤ e.1) : keyRank l k = 0 :=
  List.countP_eq_zero.mpr fun e he hlt => not_le.mpr (of_decide_eq_true hlt) (h e he)

/-- In a sorted listing, an entry stands at its keyRank. -/
theorem mem_drop_iff (h : Ascending l) (n : Nat) : e ∈ l.drop n ↔ e ∈ l ∧ n ≤ keyRank l e.1 := by
  induction l generalizing n with
  | nil => simp
  | cons a l ih =>
    rw [ascending_cons] at h
    cases n with
    | zero => simp
    | succ n =>
      rw [List.drop_succ_cons, ih h.2, List.mem_cons, keyRank_cons]
      constructor
      · rintro ⟨he, hn⟩
        rw [if_pos (h.1 e he)]
        exact ⟨.inr he, Nat.succ_le_succ hn⟩
      · rintro ⟨rfl | he, hn⟩
        · rw [keyRank_eq_zero fun e' he' => (h.1 e' he').le, if_neg (lt_irrefl _)] at hn
          exact absurd hn (Nat.not_succ_le_zero n)
        · rw [if_pos (h.1 e he)] at hn
          exact ⟨he, Nat.le_of_succ_le_succ hn⟩

theorem mem_page_iff (h : Ascending l) : e ∈ page size n l ↔
    e ∈ l ∧ n * size ≤ keyRank l e.1 ∧ keyRank l e.1 < (n + 1) * size := by
  have hsplit := drop_eq_page_append size n l
  have hnodup : (l.drop (n * size)).Nodup :=
    (List.Nodup.of_map _ h.nodup).sublist (List.drop_sublist ..)
  rw [hsplit, List.nodup_append] at hnodup
  constructor
  · intro he
    obtain ⟨hl, hn⟩ := (mem_drop_iff h _).mp (hsplit ▸ List.mem_append_left _ he)
    refine ⟨hl, hn, not_le.mp fun hge => ?_⟩
    exact hnodup.2.2 e he e ((mem_drop_iff h _).mpr ⟨hl, hge⟩) rfl
  · rintro ⟨hl, hn, hlt⟩
    have he := (mem_drop_iff h _).mpr ⟨hl, hn⟩
    rw [hsplit, List.mem_append] at he
    rcases he with he | he
    · exact he
    · exact absurd ((mem_drop_iff h _).mp he).2 (not_le.mpr hlt)

theorem getElem?_eq_some_iff_keyRank (h : Ascending l) :
    l[n]? = some e ↔ e ∈ l ∧ keyRank l e.1 = n := by
  have hnodup : (l.drop n).Nodup := (List.Nodup.of_map _ h.nodup).sublist (List.drop_sublist ..)
  constructor
  · intro hget
    obtain ⟨hlt, rfl⟩ := List.getElem?_eq_some_iff.mp hget
    rw [List.drop_eq_getElem_cons hlt, List.nodup_cons, mem_drop_iff h] at hnodup
    have hmem : l[n] ∈ l := List.getElem_mem hlt
    have hge := ((mem_drop_iff h n).mp (List.mem_of_mem_head? (List.head?_drop ▸ hget))).2
    exact ⟨hmem, le_antisymm (not_lt.mp fun hgt => hnodup.1 ⟨hmem, hgt⟩) hge⟩
  · rintro ⟨he, rfl⟩
    have hdrop := (mem_drop_iff h (keyRank l e.1)).mpr ⟨he, le_refl _⟩
    have hlt : keyRank l e.1 < l.length := by
      by_contra hge
      rw [List.drop_of_length_le (not_lt.mp hge)] at hdrop
      cases hdrop
    rw [List.drop_eq_getElem_cons hlt, List.mem_cons, mem_drop_iff h] at hdrop
    rcases hdrop with heq | ⟨-, hgt⟩
    · rw [List.getElem?_eq_getElem hlt, ← heq]
    · exact absurd hgt (Nat.not_succ_le_self _)

/-- Setting a key moves the larger ones by one place if the key is new. -/
theorem keyRank_put (h : Ascending l) : keyRank (put k v l) k' =
    keyRank l k' + if k < k' ∧ k ∉ l.map Prod.fst then 1 else 0 := by
  rw [keyRank, keyRank, List.countP_eq_length_filter, List.countP_eq_length_filter,
    filter_put h (fun key => decide (key < k'))]
  by_cases hlt : k < k'
  · have hmem : k ∈ (l.filter fun e => decide (e.1 < k')).map Prod.fst ↔ k ∈ l.map Prod.fst := by
      simp only [List.mem_map, List.mem_filter, decide_eq_true_eq]
      grind
    rw [if_pos (decide_eq_true hlt), length_put (h.sublist List.filter_sublist)]
    simp only [hmem, hlt, true_and]
    grind
  · rw [if_neg (by simpa using hlt), if_neg fun hand => hlt hand.1, Nat.add_zero]

end

end ChudDB.Lib
