import Mathlib

/-! # Facts about lists -/

namespace ChudDB.Lib

/-- If one element has a property, all that have it are equal. -/
theorem eq_of_countP_eq_one {p : α → Bool} {l : List α} (h : l.countP p = 1) (ha : a ∈ l)
    (hb : b ∈ l) (hpa : p a = true) (hpb : p b = true) : a = b := by
  rw [List.countP_eq_length_filter] at h
  obtain ⟨only, honly⟩ := List.length_eq_one_iff.mp h
  have hmem : ∀ c ∈ l, p c = true → c = only := fun c hc hpc =>
    List.mem_singleton.mp (honly ▸ List.mem_filter.mpr ⟨hc, hpc⟩)
  rw [hmem a ha hpa, hmem b hb hpb]

theorem find?_eq_some_iff_of_countP_eq_one {p : α → Bool} {l : List α} (h : l.countP p = 1) :
    l.find? p = some a ↔ a ∈ l ∧ p a = true := by
  refine ⟨fun hfind => ⟨List.mem_of_find?_eq_some hfind, List.find?_some hfind⟩, ?_⟩
  rintro ⟨ha, hpa⟩
  obtain ⟨b, hb⟩ := Option.isSome_iff_exists.mp (List.find?_isSome.mpr ⟨a, ha, hpa⟩)
  rw [hb, eq_of_countP_eq_one h (List.mem_of_find?_eq_some hb) ha (List.find?_some hb) hpa]

theorem modify_append_cons (l r : List α) (a : α) (f : α → α) :
    (l ++ a :: r).modify l.length f = l ++ f a :: r := by
  induction l with
  | nil => rfl
  | cons b l ih => simp [ih]

/-- Changing the element at a position replaces one element or, past the end, nothing. -/
theorem modify_eq_self_or_split (l : List α) (i : Nat) (f : α → α) :
    l.modify i f = l ∨ ∃ xs a ys, l = xs ++ a :: ys ∧ l.modify i f = xs ++ f a :: ys := by
  by_cases h : i < l.length
  · have hsplit : l = l.take i ++ l[i] :: l.drop (i + 1) := by
      rw [List.getElem_cons_drop, List.take_append_drop]
    have hlen : (l.take i).length = i := List.length_take_of_le h.le
    refine .inr ⟨l.take i, l[i], l.drop (i + 1), hsplit, ?_⟩
    have hmodify := modify_append_cons (l.take i) (l.drop (i + 1)) l[i] f
    rw [hlen, ← hsplit] at hmodify
    exact hmodify
  · exact .inl (List.modify_eq_self (Nat.le_of_not_lt h))

/-- Changing one element changes a count by what that element contributes. -/
theorem countP_modify {l : List α} {p : α → Bool} {f : α → α} (h : l[i]? = some a) :
    (l.modify i f).countP p + (p a).toNat = l.countP p + (p (f a)).toNat := by
  have hcons : ∀ (b : α) (l : List α), (b :: l).countP p = l.countP p + (p b).toNat := by
    intro b l
    cases hb : p b with
    | true => exact List.countP_cons_of_pos hb
    | false => exact List.countP_cons_of_neg (Bool.eq_false_iff.mp hb)
  induction l generalizing i with
  | nil => cases h
  | cons b l ih =>
    cases i with
    | zero =>
      cases h
      rw [List.modify_zero_cons, hcons, hcons]
      omega
    | succ i =>
      have htail := ih (i := i) h
      rw [List.modify_succ_cons, hcons, hcons]
      omega

/-- Two positions with a property that at most one element has. -/
theorem eq_of_countP_le_one {l : List α} {p : α → Bool} {i j : Nat} (h : l.countP p ≤ 1)
    (hi : l[i]? = some a) (ha : p a = true) (hj : l[j]? = some b) (hb : p b = true) : i = j := by
  induction l generalizing i j with
  | nil => cases hi
  | cons c l ih =>
    have hrest : p c = true → ∀ {k : Nat} {d : α}, l[k]? = some d → p d = true → False := by
      intro hc k d hk hd
      rw [List.countP_cons_of_pos hc] at h
      have hpos : 0 < l.countP p := List.countP_pos_iff.mpr ⟨d, List.mem_of_getElem? hk, hd⟩
      omega
    cases i with
    | zero =>
      cases j with
      | zero => rfl
      | succ j =>
        cases hi
        exact (hrest ha hj hb).elim
    | succ i =>
      cases j with
      | zero =>
        cases hj
        exact (hrest hb hi ha).elim
      | succ j =>
        have hle : l.countP p ≤ 1 := (List.sublist_cons_self c l).countP_le.trans h
        rw [ih hle hi hj]

theorem take_succ_of_getElem? {l : List α} (h : l[j]? = some a) :
    l.take (j + 1) = l.take j ++ [a] := by
  rw [List.take_add_one, h]
  rfl

theorem lt_length_of_getElem? {l : List α} (h : l[j]? = some a) : j + 1 ≤ l.length :=
  (List.getElem?_eq_some_iff.mp h).1

theorem mapM_map_eq_some {f : β → Option γ} {g : α → β} {k : α → γ} {l : List α}
    (h : ∀ a ∈ l, f (g a) = some (k a)) : (l.map g).mapM f = some (l.map k) := by
  induction l with
  | nil => rfl
  | cons a l ih =>
    rw [List.map_cons, List.mapM_cons, h a List.mem_cons_self,
      ih fun b hb => h b (List.mem_cons_of_mem a hb)]
    rfl

theorem filterMap_cons_toList {f : α → Option β} :
    (a :: l).filterMap f = (f a).toList ++ l.filterMap f := by
  cases h : f a with
  | none => exact List.filterMap_cons_none h
  | some b => exact List.filterMap_cons_some h

theorem foldl_append_singleton {l : List α} :
    l.foldl (fun acc a => acc ++ [a]) acc = acc ++ l := by
  induction l generalizing acc with
  | nil => exact (List.append_nil _).symm
  | cons a l ih => rw [List.foldl_cons, ih, List.append_assoc, List.singleton_append]

theorem count_filter_ite [BEq α] [LawfulBEq α] {l : List α} {p : α → Bool} :
    (l.filter p).count a = if p a then l.count a else 0 := by
  cases hp : p a with
  | true => exact List.count_filter hp
  | false =>
    refine List.count_eq_zero.mpr fun hmem => ?_
    rw [(List.mem_filter.mp hmem).2] at hp
    cases hp

/-- A list around one of its positions. -/
theorem exists_split_set {l : List α} (h : l[i]? = some a) :
    ∃ l₁ l₂, l₁.length = i ∧ l = l₁ ++ a :: l₂ ∧ ∀ b, l.set i b = l₁ ++ b :: l₂ := by
  obtain ⟨hi, ha⟩ := List.getElem?_eq_some_iff.mp h
  refine ⟨l.take i, l.drop (i + 1), List.length_take_of_le hi.le, ?_, ?_⟩
  · rw [← ha, List.cons_getElem_drop_succ, List.take_append_drop]
  · exact fun b => List.set_eq_take_append_cons_drop.trans (if_pos hi)

/-- A key is found wherever it stands, as long as it stands nowhere else. -/
theorem lookup_eq_some_iff_mem [BEq α] [LawfulBEq α] {l : List (α × β)} (h : (l.map Prod.fst).Nodup) :
    l.lookup k = some v ↔ (k, v) ∈ l := by
  induction l with
  | nil => simp
  | cons e l ih =>
    rw [List.map_cons, List.nodup_cons] at h
    rw [List.lookup_cons]
    by_cases hk : k = e.1
    · subst hk
      rw [beq_self_eq_true]
      simp only [Option.some.injEq, List.mem_cons]
      constructor
      · rintro rfl
        exact .inl rfl
      · rintro (heq | hmem)
        · exact (Prod.mk.inj heq).2.symm
        · exact absurd (List.mem_map_of_mem hmem) h.1
    · rw [beq_eq_false_iff_ne.mpr hk]
      simp only [ih h.2, List.mem_cons]
      constructor
      · exact .inr
      · rintro (heq | hmem)
        · exact absurd (Prod.mk.inj heq).1 hk
        · exact hmem

theorem lookup_perm [BEq α] [LawfulBEq α] {l l' : List (α × β)} (hp : l.Perm l')
    (h : (l.map Prod.fst).Nodup) : l.lookup k = l'.lookup k := by
  have h' : (l'.map Prod.fst).Nodup := ((hp.map Prod.fst).nodup_iff).mp h
  apply Option.ext
  intro v
  rw [lookup_eq_some_iff_mem h, lookup_eq_some_iff_mem h', hp.mem_iff]

theorem lookup_of_unique [BEq α] [LawfulBEq α] {l : List (α × β)} (hmem : (k, v) ∈ l)
    (huniq : ∀ w, (k, w) ∈ l → w = v) : l.lookup k = some v := by
  obtain ⟨w, hw⟩ := Option.isSome_iff_exists.mp
    (List.lookup_isSome_iff.mpr ⟨(k, v), hmem, beq_self_eq_true k⟩)
  obtain ⟨l₁, l₂, hl, -⟩ := List.lookup_eq_some_iff.mp hw
  rw [hw, huniq w (by rw [hl]; exact List.mem_append_right _ List.mem_cons_self)]

theorem length_le_of_nodup_of_lt {l : List Nat} (hnodup : l.Nodup) (hlt : ∀ p ∈ l, p < n) :
    l.length ≤ n := by
  have hle := (hnodup.subperm fun p hp => List.mem_range.mpr (hlt p hp)).length_le
  rwa [List.length_range] at hle

/-- Keys that can be told apart may be renamed. -/
theorem lookup_map_injOn [BEq α] [LawfulBEq α] [BEq γ] [LawfulBEq γ] {f : α → γ} {s : Set α}
    (hf : Set.InjOn f s) (hk : k ∈ s) {l : List (α × β)} (hl : ∀ e ∈ l, e.1 ∈ s) :
    (l.map fun e => (f e.1, e.2)).lookup (f k) = l.lookup k := by
  induction l with
  | nil => rfl
  | cons e l ih =>
    have hkey : (f k == f e.1) = (k == e.1) := by
      rw [Bool.eq_iff_iff, beq_iff_eq, beq_iff_eq, hf.eq_iff hk (hl e List.mem_cons_self)]
    rw [List.map_cons, List.lookup_cons, List.lookup_cons, hkey,
      ih fun e he => hl e (List.mem_cons_of_mem _ he)]

theorem lookup_filter_fst [BEq α] [LawfulBEq α] {l : List (α × β)} {p : α → Bool} :
    (l.filter fun e => p e.1).lookup k = if p k then l.lookup k else none := by
  induction l with
  | nil => rw [List.filter_nil, List.lookup_nil, ite_self]
  | cons e l ih =>
    rw [List.lookup_cons]
    by_cases hk : k = e.1
    · subst hk
      cases hp : p e.1 with
      | true =>
        rw [List.filter_cons, if_pos hp, List.lookup_cons, beq_self_eq_true]
        rfl
      | false =>
        rw [List.filter_cons, if_neg (by rw [hp]; exact Bool.false_ne_true), ih, hp]
        rfl
    · rw [beq_eq_false_iff_ne.mpr hk, ← ih, List.filter_cons]
      split
      · rw [List.lookup_cons, beq_eq_false_iff_ne.mpr hk]
      · rfl

theorem lookup_filter_notMem [DecidableEq α] {l : List (α × β)} {old : List α} (hp : p ∉ old) :
    (l.filter fun f => f.1 ∉ old).lookup p = l.lookup p := by
  rw [@lookup_filter_fst _ _ p _ _ l fun q => decide (q ∉ old), if_pos (decide_eq_true hp)]

theorem forall₂_modify {R : α → β → Prop} {l : List α} {l' : List β} {f : α → α} {g : β → β}
    (h : List.Forall₂ R l l') (hfg : ∀ a b, R a b → R (f a) (g b)) :
    List.Forall₂ R (l.modify i f) (l'.modify i g) := by
  induction h generalizing i with
  | nil => simp
  | cons hab h ih =>
    cases i with
    | zero => exact .cons (hfg _ _ hab) h
    | succ i => exact .cons hab ih

section Sorted
variable [LinearOrder α] {l l' : List α}

/-- A sorted list begins with the least element. -/
theorem head?_eq_min?_of_sorted (hs : l'.Pairwise (· ≤ ·)) (hp : l'.Perm l) :
    l'.head? = l.min? := by
  cases l' with
  | nil => rw [List.nil_perm.mp hp]; rfl
  | cons a l' =>
    rw [List.head?_cons, eq_comm, List.min?_eq_some_iff]
    refine ⟨hp.subset List.mem_cons_self, fun b hb => ?_⟩
    rcases List.mem_cons.mp (hp.symm.subset hb) with rfl | hb
    · exact le_refl b
    · exact (List.pairwise_cons.mp hs).1 b hb

/-- A sorted list ends with the greatest element. -/
theorem getLast?_eq_max?_of_sorted (hs : l'.Pairwise (· ≤ ·)) (hp : l'.Perm l) :
    l'.getLast? = l.max? := by
  rw [← List.head?_reverse]
  cases hrev : l'.reverse with
  | nil =>
    rw [List.reverse_eq_nil_iff] at hrev
    rw [hrev] at hp
    rw [List.nil_perm.mp hp]
    rfl
  | cons a r =>
    have hs' : (a :: r).Pairwise fun a b => b ≤ a := by
      rw [← hrev, List.pairwise_reverse]
      exact hs
    have hp' : (a :: r).Perm l := hrev ▸ (List.reverse_perm l').trans hp
    rw [List.head?_cons, eq_comm, List.max?_eq_some_iff]
    refine ⟨hp'.subset List.mem_cons_self, fun b hb => ?_⟩
    rcases List.mem_cons.mp (hp'.symm.subset hb) with rfl | hb
    · exact le_refl b
    · exact (List.pairwise_cons.mp hs').1 b hb

end Sorted

/-- The last element of an increasing list has the greatest value. -/
theorem le_getLast_of_increasing {f : α → Nat} {l : List α} (h : l.Pairwise (f · < f ·))
    (ha : a ∈ l) : f a ≤ (l.getLast?.map f).getD 0 := by
  induction l using List.reverseRecOn with
  | nil => cases ha
  | append_singleton l last =>
    rw [List.getLast?_concat, Option.map_some, Option.getD_some]
    rcases List.mem_append.mp ha with ha | ha
    · exact ((List.pairwise_append.mp h).2.2 a ha last List.mem_cons_self).le
    · rw [List.mem_singleton.mp ha]

/-- In an increasing list what is below an element stands in front of it. -/
theorem mem_take_of_increasing {f : α → Nat} {l : List α} (h : l.Pairwise (f · < f ·))
    (hb : l[j]? = some b) (ha : a ∈ l) (hlt : f a < f b) : a ∈ l.take j := by
  obtain ⟨i, hi, rfl⟩ := List.mem_iff_getElem.mp ha
  obtain ⟨hj, rfl⟩ := List.getElem?_eq_some_iff.mp hb
  have hij : i < j := by
    rcases Nat.lt_trichotomy i j with hij | rfl | hji
    · exact hij
    · exact absurd hlt (Nat.lt_irrefl _)
    · exact absurd (List.pairwise_iff_getElem.mp h j i hj hi hji) (Nat.lt_asymm hlt)
  exact List.mem_take_iff_getElem.mpr ⟨i, Nat.lt_min.mpr ⟨hij, hi⟩, rfl⟩

theorem exists_getElem?_of_lt_takeWhile {p : α → Bool} {l : List α}
    (h : j < (l.takeWhile p).length) : ∃ a, l[j]? = some a ∧ p a = true := by
  refine ⟨(l.takeWhile p)[j], ?_, List.mem_takeWhile_imp (List.getElem_mem h)⟩
  obtain ⟨t, ht⟩ : l.takeWhile p <+: l := List.takeWhile_prefix p
  conv_lhs => rw [← ht]
  rw [List.getElem?_append_left h, List.getElem?_eq_getElem h]

end ChudDB.Lib
