import ChudDB.Lib.Lists

/-! # Maps as sorted lists

A map is listed in the order of its keys. `put` sets a key; in a listing that is put together from
parts it changes only the part the key belongs to (`put_append_of_lt`, `put_append_of_gt`). -/

namespace ChudDB.Lib

variable {K : Type u} {V : Type v} [LinearOrder K] {l l' : List (K × V)} {k : K} {v : V}

/-- The keys of a table increase strictly. -/
def Ascending (l : List (K × V)) : Prop := (l.map Prod.fst).Pairwise (· < ·)

theorem ascending_append : Ascending (l ++ l') ↔
    Ascending l ∧ Ascending l' ∧ ∀ e ∈ l, ∀ e' ∈ l', e.1 < e'.1 := by
  simp only [Ascending, List.pairwise_map, List.pairwise_append]

theorem ascending_cons {e : K × V} : Ascending (e :: l) ↔ (∀ e' ∈ l, e.1 < e'.1) ∧ Ascending l := by
  simp only [Ascending, List.pairwise_map, List.pairwise_cons]

theorem Ascending.sublist (h : Ascending l) (hsub : l'.Sublist l) : Ascending l' :=
  List.Pairwise.sublist (hsub.map _) h

theorem Ascending.nodup (h : Ascending l) : (l.map Prod.fst).Nodup := h.imp ne_of_lt

omit [LinearOrder K] in
theorem lookup_eq_none_of_ne [BEq K] [LawfulBEq K] (h : ∀ e ∈ l, e.1 ≠ k) : l.lookup k = none := by
  rw [List.lookup_eq_none_iff]
  exact fun e he => bne_iff_ne.mpr (h e he).symm

/-- A listing is determined by what it has under each key. -/
theorem Ascending.ext [BEq K] [LawfulBEq K] (h : Ascending l) (h' : Ascending l')
    (hlookup : ∀ k, l.lookup k = l'.lookup k) : l = l' := by
  have hmem : ∀ {e : K × V} {l l' : List (K × V)}, Ascending l → Ascending l' →
      (∀ k, l.lookup k = l'.lookup k) → e ∈ l → e ∈ l' := by
    intro e l l' h h' hlookup he
    rw [← Prod.mk.eta (p := e), ← lookup_eq_some_iff_mem h'.nodup, ← hlookup]
    exact (lookup_eq_some_iff_mem h.nodup).mpr he
  have hperm : l.Perm l' := by
    refine (List.perm_ext_iff_of_nodup (List.Nodup.of_map _ h.nodup)
      (List.Nodup.of_map _ h'.nodup)).mpr fun e => ⟨hmem h h' hlookup, ?_⟩
    exact hmem h' h fun k => (hlookup k).symm
  rw [Ascending, List.pairwise_map] at h h'
  exact hperm.eq_of_pairwise (fun a b _ _ hab hba => absurd hba hab.asymm) h h'

/-! ## Sorting by key -/

section
variable [DecidableRel fun a b : K × V => a.1 ≤ b.1]

theorem pairwise_insertionSort_fst (l : List (K × V)) :
    (l.insertionSort fun a b => a.1 ≤ b.1).Pairwise fun a b => a.1 ≤ b.1 := by
  have : Std.Total fun a b : K × V => a.1 ≤ b.1 := ⟨fun a b => le_total a.1 b.1⟩
  have : IsTrans (K × V) fun a b => a.1 ≤ b.1 := ⟨fun _ _ _ => le_trans⟩
  exact List.pairwise_insertionSort _ _

theorem ascending_insertionSort (h : (l.map Prod.fst).Nodup) :
    Ascending (l.insertionSort fun a b => a.1 ≤ b.1) := by
  have hle := pairwise_insertionSort_fst l
  have hnodup : ((l.insertionSort fun a b => a.1 ≤ b.1).map Prod.fst).Nodup :=
    (((List.perm_insertionSort _ _).map Prod.fst).nodup_iff).mpr h
  rw [Ascending, List.pairwise_map]
  exact (hle.and (List.pairwise_map.mp hnodup)).imp fun h => lt_of_le_of_ne h.1 h.2

theorem insertionSort_of_ascending (h : Ascending l) :
    l.insertionSort (fun a b => a.1 ≤ b.1) = l := by
  refine List.Pairwise.insertionSort_eq ?_
  rw [Ascending, List.pairwise_map] at h
  exact h.imp le_of_lt

/-- Sorting brings two listings of one map together. -/
theorem insertionSort_eq_iff [BEq K] [LawfulBEq K] (h : (l.map Prod.fst).Nodup)
    (h' : (l'.map Prod.fst).Nodup) :
    l.insertionSort (fun a b => a.1 ≤ b.1) = l'.insertionSort (fun a b => a.1 ≤ b.1) ↔
      ∀ k, l.lookup k = l'.lookup k := by
  have hlookup : ∀ {l : List (K × V)}, (l.map Prod.fst).Nodup → ∀ k,
      (l.insertionSort fun a b => a.1 ≤ b.1).lookup k = l.lookup k := fun h _ =>
    (lookup_perm (List.perm_insertionSort _ _).symm h).symm
  constructor
  · intro heq k
    rw [← hlookup h, heq, hlookup h']
  · intro hsame
    refine (ascending_insertionSort h).ext (ascending_insertionSort h') fun k => ?_
    rw [hlookup h, hlookup h', hsame]

end

/-! ## Splitting a listing at a key -/

section
variable {p : K × V → Bool} (hp : ∀ e, p e = true ↔ e.1 < k)
include hp

theorem lt_of_mem_takeWhile (he : e ∈ l.takeWhile p) : e.1 < k :=
  (hp e).mp (List.mem_takeWhile_imp he)

theorem le_of_mem_dropWhile (h : Ascending l) (he : e ∈ l.dropWhile p) : k ≤ e.1 := by
  induction l with
  | nil => cases he
  | cons a l ih =>
    rw [ascending_cons] at h
    rw [List.dropWhile_cons] at he
    split at he
    · exact ih h.2 he
    · rename_i hk
      rw [hp, not_lt] at hk
      rcases List.mem_cons.mp he with rfl | he
      · exact hk
      · exact hk.trans (h.1 e he).le

end

/-- Walking left past the larger keys ends among those that are not larger. -/
theorem le_of_mem_rdropWhile {f : α → K} {p : α → Bool} (hp : ∀ a, p a = true ↔ k < f a)
    {l : List α} (h : l.Pairwise fun a b => f a < f b) (ha : a ∈ l.rdropWhile p) : f a ≤ k := by
  induction l using List.reverseRecOn with
  | nil => cases ha
  | append_singleton l b ih =>
    rw [List.pairwise_append] at h
    rw [List.rdropWhile_concat] at ha
    split at ha
    · exact ih h.1 ha
    · rename_i hk
      rw [hp, not_lt] at hk
      rcases List.mem_append.mp ha with ha | ha
      · exact (h.2.2 a ha b List.mem_cons_self).le.trans hk
      · rw [List.mem_singleton.mp ha]
        exact hk

/-! ## Setting a key -/

/-- Set a key of a listing. -/
def put (k : K) (v : V) (l : List (K × V)) : List (K × V) :=
  l.filter (fun e => decide (e.1 < k)) ++ (k, v) :: l.filter (fun e => decide (k < e.1))

theorem mem_of_mem_put (h : e ∈ put k v l) : e = (k, v) ∨ e ∈ l := by
  rcases List.mem_append.mp h with h | h
  · exact .inr (List.mem_filter.mp h).1
  · rcases List.mem_cons.mp h with h | h
    · exact .inl h
    · exact .inr (List.mem_filter.mp h).1

/-- Setting a key keeps the other ones. -/
theorem mem_keys_put (h : k' ∈ l.map Prod.fst) : k' ∈ (put k v l).map Prod.fst := by
  obtain ⟨e, he, rfl⟩ := List.mem_map.mp h
  rw [put, List.map_append, List.map_cons, List.mem_append, List.mem_cons]
  rcases lt_trichotomy e.1 k with hlt | heq | hgt
  · exact .inl (List.mem_map_of_mem (List.mem_filter.mpr ⟨he, decide_eq_true hlt⟩))
  · exact .inr (.inl heq)
  · exact .inr (.inr (List.mem_map_of_mem (List.mem_filter.mpr ⟨he, decide_eq_true hgt⟩)))

theorem ascending_put (h : Ascending l) : Ascending (put k v l) := by
  rw [put, ascending_append, ascending_cons]
  refine ⟨h.sublist List.filter_sublist, ⟨?_, h.sublist List.filter_sublist⟩, ?_⟩
  · exact fun e he => of_decide_eq_true (List.mem_filter.mp he).2
  · intro e he e' he'
    have hlt : e.1 < k := of_decide_eq_true (List.mem_filter.mp he).2
    rcases List.mem_cons.mp he' with rfl | he'
    · exact hlt
    · exact hlt.trans (of_decide_eq_true (List.mem_filter.mp he').2)

theorem put_append_of_lt (h : ∀ e ∈ l, e.1 < k) : put k v (l ++ l') = l ++ put k v l' := by
  have hlow : l.filter (fun e => decide (e.1 < k)) = l :=
    List.filter_eq_self.mpr fun e he => decide_eq_true (h e he)
  have hhigh : l.filter (fun e => decide (k < e.1)) = [] :=
    List.filter_eq_nil_iff.mpr fun e he hlt => lt_asymm (h e he) (of_decide_eq_true hlt)
  rw [put, put, List.filter_append, List.filter_append, hlow, hhigh, List.nil_append,
    List.append_assoc]

theorem put_append_of_gt (h : ∀ e ∈ l', k < e.1) : put k v (l ++ l') = put k v l ++ l' := by
  have hlow : l'.filter (fun e => decide (e.1 < k)) = [] :=
    List.filter_eq_nil_iff.mpr fun e he hlt => lt_asymm (h e he) (of_decide_eq_true hlt)
  have hhigh : l'.filter (fun e => decide (k < e.1)) = l' :=
    List.filter_eq_self.mpr fun e he => decide_eq_true (h e he)
  rw [put, put, List.filter_append, List.filter_append, hlow, hhigh, List.append_nil,
    List.append_assoc, List.cons_append]

/-- Setting a key in the part of a listing it belongs to. -/
theorem put_middle {pre : List (K × V)} (hpre : ∀ e ∈ pre, e.1 < k) (hl' : ∀ e ∈ l', k < e.1) :
    put k v (pre ++ (l ++ l')) = pre ++ (put k v l ++ l') := by
  rw [put_append_of_lt hpre, put_append_of_gt hl']

/-- Replacing the value of an entry. -/
theorem put_append_cons (h : Ascending (l ++ (k, w) :: l')) :
    put k v (l ++ (k, w) :: l') = l ++ (k, v) :: l' := by
  obtain ⟨-, h', hlt⟩ := ascending_append.mp h
  rw [put_append_of_lt fun e he => hlt e he _ List.mem_cons_self, ← List.singleton_append,
    put_append_of_gt (ascending_cons.mp h').1]
  simp [put]

/-- A key that is not there goes between the smaller and the larger ones. -/
theorem put_append (hlow : ∀ e ∈ l, e.1 < k) (hhigh : ∀ e ∈ l', k < e.1) :
    put k v (l ++ l') = l ++ (k, v) :: l' := by
  rw [put_append_of_lt hlow, ← List.nil_append l', put_append_of_gt hhigh]
  rfl

theorem lookup_middle [BEq K] [LawfulBEq K] {pre : List (K × V)} (hpre : ∀ e ∈ pre, e.1 < k)
    (hl' : ∀ e ∈ l', k < e.1) : (pre ++ (l ++ l')).lookup k = l.lookup k := by
  rw [List.lookup_append, List.lookup_append, lookup_eq_none_of_ne fun e he => (hpre e he).ne,
    lookup_eq_none_of_ne fun e he => (hl' e he).ne', Option.none_or, Option.or_none]

theorem lookup_put [BEq K] [LawfulBEq K] (h : Ascending l) (k' : K) :
    (put k v l).lookup k' = if k' = k then some v else l.lookup k' := by
  have hsplit : ∀ p : K × V → Bool, (∀ e, e.1 = k' → p e = true) →
      (l.filter p).lookup k' = l.lookup k' := by
    intro p hp
    induction l with
    | nil => rfl
    | cons e l ih =>
      have ih := ih (ascending_cons.mp h).2
      rw [List.filter_cons, List.lookup_cons]
      by_cases he : k' = e.1
      · rw [if_pos (hp e he.symm), List.lookup_cons, he, beq_self_eq_true]
      · rw [beq_eq_false_iff_ne.mpr he]
        split
        · rw [List.lookup_cons, beq_eq_false_iff_ne.mpr he]
          exact ih
        · exact ih
  rw [put, List.lookup_append, List.lookup_cons]
  rcases lt_trichotomy k' k with hlt | rfl | hgt
  · have hnone : (l.filter fun e => decide (k < e.1)).lookup k' = none :=
      lookup_eq_none_of_ne fun e he =>
        (hlt.trans (of_decide_eq_true (List.mem_filter.mp he).2)).ne'
    rw [hsplit _ fun e he => decide_eq_true (he ▸ hlt), beq_eq_false_iff_ne.mpr hlt.ne,
      if_neg hlt.ne, hnone, Option.or_none]
  · have hnone : (l.filter fun e => decide (e.1 < k')).lookup k' = none :=
      lookup_eq_none_of_ne fun e he => (of_decide_eq_true (List.mem_filter.mp he).2).ne
    rw [hnone, beq_self_eq_true, if_pos rfl]
    rfl
  · have hnone : (l.filter fun e => decide (e.1 < k)).lookup k' = none :=
      lookup_eq_none_of_ne fun e he =>
        ((of_decide_eq_true (List.mem_filter.mp he).2 : e.1 < k).trans hgt).ne
    rw [hnone, Option.none_or, beq_eq_false_iff_ne.mpr hgt.ne', if_neg hgt.ne']
    exact hsplit _ fun e he => decide_eq_true (he ▸ hgt)

theorem filter_put (h : Ascending l) (p : K → Bool) :
    (put k v l).filter (fun e => p e.1) =
      if p k then put k v (l.filter fun e => p e.1) else l.filter fun e => p e.1 := by
  have hfilter : Ascending (l.filter fun e => p e.1) := h.sublist List.filter_sublist
  refine ((ascending_put h).sublist List.filter_sublist).ext ?_ fun k' => ?_
  · split
    · exact ascending_put hfilter
    · exact hfilter
  · rw [lookup_filter_fst, lookup_put h]
    by_cases hk : p k = true
    · rw [if_pos hk, lookup_put hfilter, lookup_filter_fst]
      by_cases heq : k' = k
      · rw [if_pos heq, if_pos heq, heq, if_pos hk]
      · rw [if_neg heq, if_neg heq]
    · rw [if_neg hk, lookup_filter_fst]
      by_cases heq : k' = k
      · rw [heq, if_neg hk, if_neg hk]
      · rw [if_neg heq]

theorem length_put (h : Ascending l) :
    (put k v l).length = l.length + if k ∈ l.map Prod.fst then 0 else 1 := by
  split
  · next hk =>
    obtain ⟨e, he, rfl⟩ := List.mem_map.mp hk
    obtain ⟨l₁, l₂, rfl⟩ := List.append_of_mem he
    rw [put_append_cons h, List.length_append, List.length_append]
    rfl
  · next hk =>
    have hhigh : l.filter (fun e => decide (k < e.1)) = l.filter fun e => !decide (e.1 < k) := by
      refine List.filter_congr fun e he => ?_
      have hne : e.1 ≠ k := fun heq => hk (List.mem_map.mpr ⟨e, he, heq⟩)
      rw [← decide_not, decide_eq_decide, not_lt]
      exact ⟨le_of_lt, fun hle => lt_of_le_of_ne hle hne.symm⟩
    rw [put, List.length_append, List.length_cons, hhigh,
      List.length_eq_length_filter_add (l := l) fun e => decide (e.1 < k)]
    rfl

/-- The sum of a weight over the entries. -/
theorem sum_put [BEq K] [LawfulBEq K] (w : K × V → Int) (h : Ascending l) :
    ((put k v l).map w).sum =
      (l.map w).sum + w (k, v) - ((l.lookup k).elim 0 fun old => w (k, old)) := by
  have hsplit : (l.map w).sum = ((l.filter fun e => decide (e.1 < k)).map w).sum +
      ((l.lookup k).elim 0 fun old => w (k, old)) +
      ((l.filter fun e => decide (k < e.1)).map w).sum := by
    induction l with
    | nil => rfl
    | cons e l ih =>
      rw [ascending_cons] at h
      have ih := ih h.2
      obtain ⟨a, b⟩ := e
      rw [List.map_cons, List.sum_cons, List.filter_cons, List.filter_cons, List.lookup_cons]
      rcases lt_trichotomy a k with hlt | rfl | hgt
      · rw [if_pos (decide_eq_true hlt), if_neg (by simpa using hlt.le),
          beq_eq_false_iff_ne.mpr hlt.ne', List.map_cons, List.sum_cons, ih]
        simp only
        omega
      · have hnone : l.lookup a = none := lookup_eq_none_of_ne fun e he => (h.1 e he).ne'
        rw [hnone] at ih
        rw [if_neg (by simp), if_neg (by simp), beq_self_eq_true, ih]
        simp only [Option.elim]
        omega
      · rw [if_neg (by simpa using hgt.le), if_pos (decide_eq_true hgt),
          beq_eq_false_iff_ne.mpr hgt.ne, List.map_cons, List.sum_cons, ih]
        simp only
        omega
  rw [hsplit, put, List.map_append, List.sum_append, List.map_cons, List.sum_cons]
  omega

end ChudDB.Lib
