import Mathlib

/-! # The order of most recent use

A log lists uses, most recent first. `recency` lists what was used in the order of its last use. The
first elements of this list are those with few others since their last use (`mem_take_recency`).
`lruPut` is the store that keeps them: it puts an entry in front and drops what no longer fits. Its
keys are the first ones in the order of recency, for every log (`map_fst_lruPut`,
`take_recency_cons`). -/

namespace ChudDB.Lib

variable {K : Type u} {V : Type v} [DecidableEq K] {k a b : K} {v w : V} {log l : List K} {cap : Nat}

/-- What was used, in the order of its last use. -/
def recency : List K → List K
  | [] => []
  | a :: log => a :: (recency log).filter (· ≠ a)

theorem mem_recency : a ∈ recency log ↔ a ∈ log := by
  induction log with
  | nil => rfl
  | cons b log ih =>
    by_cases hab : a = b
    · simp [recency, hab]
    · simp [recency, ih, hab]

theorem nodup_recency (log : List K) : (recency log).Nodup := by
  induction log with
  | nil => exact List.nodup_nil
  | cons a log ih =>
    refine List.nodup_cons.mpr ⟨fun h => ?_, ih.filter _⟩
    simpa using List.of_mem_filter h

/-! ## Others since the last use -/

theorem takeWhile_filter_ne (hab : a ≠ b) :
    (l.filter (· ≠ a)).takeWhile (· ≠ b) = (l.takeWhile (· ≠ b)).filter (· ≠ a) := by
  induction l with
  | nil => rfl
  | cons c l ih =>
    by_cases hca : c = a
    · subst hca
      rw [List.filter_cons_of_neg (by simp), List.takeWhile_cons_of_pos (by simpa using hab),
        List.filter_cons_of_neg (by simp), ih]
    · rw [List.filter_cons_of_pos (by simpa using hca)]
      by_cases hcb : c = b
      · rw [List.takeWhile_cons_of_neg (by simpa using hcb),
          List.takeWhile_cons_of_neg (by simpa using hcb), List.filter_nil]
      · rw [List.takeWhile_cons_of_pos (by simpa using hcb),
          List.takeWhile_cons_of_pos (by simpa using hcb),
          List.filter_cons_of_pos (by simpa using hca), ih]

theorem takeWhile_recency (log : List K) (b : K) :
    (recency log).takeWhile (· ≠ b) = recency (log.takeWhile (· ≠ b)) := by
  induction log with
  | nil => rfl
  | cons a log ih =>
    by_cases hab : a = b
    · rw [recency, List.takeWhile_cons_of_neg (by simpa using hab),
        List.takeWhile_cons_of_neg (by simpa using hab), recency]
    · rw [recency, List.takeWhile_cons_of_pos (by simpa using hab),
        List.takeWhile_cons_of_pos (by simpa using hab), recency, takeWhile_filter_ne hab, ih]

theorem mem_take_iff (n : Nat) (hb : b ∈ l) :
    b ∈ l.take n ↔ (l.takeWhile (· ≠ b)).length < n := by
  induction l generalizing n with
  | nil => cases hb
  | cons c l ih =>
    cases n with
    | zero => simp
    | succ n =>
      by_cases hcb : c = b
      · simp [hcb]
      · have hb : b ∈ l := (List.mem_cons.mp hb).resolve_left (Ne.symm hcb)
        rw [List.take_succ_cons, List.mem_cons, or_iff_right (Ne.symm hcb), ih n hb,
          List.takeWhile_cons_of_pos (by simpa using hcb), List.length_cons, Nat.add_lt_add_iff_right]

/-- The first elements are those since whose last use there are few distinct others. -/
theorem mem_take_recency (n : Nat) :
    b ∈ (recency log).take n ↔ b ∈ log ∧ (log.takeWhile (· ≠ b)).toFinset.card < n := by
  have hcard : ((recency log).takeWhile (· ≠ b)).length =
      (log.takeWhile (· ≠ b)).toFinset.card := by
    rw [takeWhile_recency, ← List.toFinset_card_of_nodup (nodup_recency _)]
    congr 1
    ext a
    rw [List.mem_toFinset, List.mem_toFinset, mem_recency]
  rw [← hcard]
  constructor
  · intro h
    have hmem := List.mem_of_mem_take h
    exact ⟨mem_recency.mp hmem, (mem_take_iff n hmem).mp h⟩
  · rintro ⟨hmem, hlt⟩
    exact (mem_take_iff n (mem_recency.mpr hmem)).mpr hlt

/-! ## The store -/

/-- Put an entry in front, and keep as many as fit. -/
def lruPut (cap : Nat) (k : K) (v : V) (l : List (K × V)) : List (K × V) :=
  ((k, v) :: l.filter (·.1 ≠ k)).take cap

theorem map_fst_lruPut (l : List (K × V)) :
    (lruPut cap k v l).map Prod.fst = (k :: (l.map Prod.fst).filter (· ≠ k)).take cap := by
  rw [lruPut, List.map_take, List.map_cons, List.filter_map]
  rfl

theorem lruPut_of_ne {l : List (K × V)} (h : ∀ e ∈ l, e.1 ≠ k) :
    lruPut cap k v l = ((k, v) :: l).take cap := by
  rw [lruPut, List.filter_eq_self.mpr fun e he => decide_eq_true (h e he)]

theorem lruPut_of_mem {front back : List (K × V)} (h : ∀ e ∈ front ++ back, e.1 ≠ k)
    (hcap : (front ++ (k, w) :: back).length ≤ cap) :
    lruPut cap k v (front ++ (k, w) :: back) = (k, v) :: (front ++ back) := by
  have hkeeps := List.filter_eq_self.mpr fun e he => decide_eq_true (h e he)
  rw [List.filter_append] at hkeeps
  rw [lruPut, List.filter_append, List.filter_cons_of_neg (by simp), hkeeps]
  refine List.take_of_length_le ?_
  simpa [Nat.add_assoc] using hcap

theorem mem_of_mem_lruPut {l : List (K × V)} {e : K × V} (he : e ∈ lruPut cap k v l) :
    e = (k, v) ∨ e ∈ l ∧ e.1 ≠ k := by
  rcases List.mem_cons.mp (List.mem_of_mem_take he) with heq | he
  · exact .inl heq
  · obtain ⟨hmem, hne⟩ := List.mem_filter.mp he
    exact .inr ⟨hmem, of_decide_eq_true hne⟩

/-- The store does not depend on what its keys are, as long as they can be told apart. -/
theorem lruPut_map [DecidableEq K'] {f : K → K'} {s : Set K} (hf : Set.InjOn f s) (hk : k ∈ s)
    {l : List (K × V)} (hl : ∀ e ∈ l, e.1 ∈ s) :
    lruPut cap (f k) v (l.map fun e => (f e.1, e.2)) =
      (lruPut cap k v l).map fun e => (f e.1, e.2) := by
  have hfilter : l.filter (fun e => decide (f e.1 ≠ f k)) = l.filter (fun e => decide (e.1 ≠ k)) :=
    List.filter_congr fun e he => by rw [decide_eq_decide, not_iff_not, hf.eq_iff (hl e he) hk]
  rw [lruPut, lruPut, List.map_take, List.map_cons, ← hfilter, List.filter_map]
  rfl

theorem take_filter_ne (hnodup : l.Nodup) (n : Nat) :
    ((l.take (n + 1)).filter (· ≠ a)).take n = (l.filter (· ≠ a)).take n := by
  induction l generalizing n with
  | nil => simp
  | cons b l ih =>
    obtain ⟨hnotMem, hnodup⟩ := List.nodup_cons.mp hnodup
    rw [List.take_succ_cons]
    by_cases hba : b = a
    · subst hba
      have hkeeps : ∀ {l' : List K}, l' ⊆ l → l'.filter (· ≠ b) = l' := fun hsub =>
        List.filter_eq_self.mpr fun c hc => by
          simp only [decide_eq_true_eq]
          rintro rfl
          exact hnotMem (hsub hc)
      rw [List.filter_cons_of_neg (by simp), List.filter_cons_of_neg (by simp),
        hkeeps (List.take_subset n l), hkeeps (List.Subset.refl l), List.take_take, min_self]
    · rw [List.filter_cons_of_pos (by simpa using hba), List.filter_cons_of_pos (by simpa using hba)]
      cases n with
      | zero => rfl
      | succ n => rw [List.take_succ_cons, List.take_succ_cons, ih hnodup]

/-- A use of the store is a use in the log. -/
theorem take_recency_cons (log : List K) (a : K) (cap : Nat) :
    (recency (a :: log)).take cap =
      (a :: ((recency log).take cap).filter (· ≠ a)).take cap := by
  cases cap with
  | zero => rfl
  | succ n =>
    rw [recency, List.take_succ_cons, List.take_succ_cons, take_filter_ne (nodup_recency log)]

end ChudDB.Lib
