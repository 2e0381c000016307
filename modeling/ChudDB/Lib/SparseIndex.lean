import ChudDB.Lib.Search
import ChudDB.Lib.SortedMap

/-! # Sorted tables with a sparse index

The entries of a table are sorted by key and cut into groups; an index names the groups in order and
knows the first key of each. A key is found by a binary search in the index and a look into one
group (`lookup_search`). A scan starts one group before the first that begins at or behind its lower
bound and stops early (`scanIndexed_eq`). -/

namespace ChudDB.Lib

variable {K : Type u} {V : Type v} {ι : Type w} {σ : Type x} {ε : Type y} [LinearOrder K]

/-- The index `idx` names the groups in order: `key` knows the first key of each. -/
def Heads (key : ι → K) (idx : List ι) (groups : List (List (K × V))) : Prop :=
  List.Forall₂ (fun i g => ∃ v t, g = (key i, v) :: t) idx groups

/-! ## Looking up a key -/

section
variable {key : ι → K} {idx : List ι} {groups : List (List (K × V))} {k : K}

omit [LinearOrder K] in
theorem Heads.length_eq (h : Heads key idx groups) : idx.length = groups.length :=
  List.Forall₂.length_eq h

omit [LinearOrder K] in
theorem Heads.drop_eq_cons (h : Heads key idx groups) (hi : i < idx.length) :
    ∃ v t gs, groups.drop i = ((key idx[i], v) :: t) :: gs := by
  have hlen := h.length_eq
  obtain ⟨v, t, hg⟩ := List.Forall₂.get h hi (hlen ▸ hi)
  rw [List.get_eq_getElem, List.get_eq_getElem] at hg
  refine ⟨v, t, groups.drop (i + 1), ?_⟩
  rw [← hg, List.cons_getElem_drop_succ]

/-- Everything in front of a group is below its first key, everything from there on is not. -/
theorem Heads.split (h : Heads key idx groups) (hs : Ascending groups.flatten)
    (hi : i < idx.length) :
    (∀ e ∈ (groups.take i).flatten, e.1 < key idx[i]) ∧
      ∀ e ∈ (groups.drop i).flatten, key idx[i] ≤ e.1 := by
  obtain ⟨v, t, gs, hg⟩ := h.drop_eq_cons hi
  rw [← List.take_append_drop i groups, List.flatten_append, ascending_append, hg] at hs
  obtain ⟨-, hright, hcross⟩ := hs
  rw [hg]
  constructor
  · exact fun e he => hcross e he _ List.mem_cons_self
  · intro e he
    rw [Ascending, List.flatten_cons, List.cons_append, List.map_cons, List.pairwise_cons] at hright
    rcases List.mem_cons.mp he with rfl | he
    · exact le_rfl
    · exact (hright.1 e.1 (List.mem_map_of_mem he)).le

theorem Heads.key_le (h : Heads key idx groups) (hs : Ascending groups.flatten) (hab : a ≤ b)
    (hb : b < idx.length) : key idx[a] ≤ key idx[b] := by
  obtain ⟨v, t, gs, hg⟩ := h.drop_eq_cons hb
  refine (h.split hs (i := a) (by omega)).2 (key idx[b], v) ?_
  have hsub : groups.drop b ⊆ groups.drop a := by
    rw [show b = a + (b - a) by omega, ← List.drop_drop]
    exact List.drop_subset _ _
  exact List.mem_flatten.mpr ⟨_, hsub (hg ▸ List.mem_cons_self), List.mem_cons_self⟩

/-- A key can only be in the last group that does not begin behind it. -/
theorem lookup_search [BEq K] [LawfulBEq K] (h : Heads key idx groups)
    (hs : Ascending groups.flatten) {f : Nat → Bool}
    (hf : ∀ j (hj : j < idx.length), f j = true ↔ k < key idx[j]) :
    groups.flatten.lookup k =
      if search idx.length f = 0 then none
      else (groups.getD (search idx.length f - 1) []).lookup k := by
  have hlen := h.length_eq
  have hmono : ∀ a b, a ≤ b → b < idx.length → f a = true → f b = true := by
    intro a b hab hb ha
    rw [hf a (by omega)] at ha
    rw [hf b hb]
    exact ha.trans_le (h.key_le hs hab hb)
  obtain ⟨hle, hbelow, hat⟩ := search_spec hmono
  generalize search idx.length f = i at hle hbelow hat
  -- from the group `i` on everything is behind the key
  have hright : (groups.drop i).flatten.lookup k = none := by
    refine lookup_eq_none_of_ne fun e he => ?_
    rcases Nat.lt_or_ge i idx.length with hi | hi
    · have := hat hi
      rw [hf i hi] at this
      exact (this.trans_le ((h.split hs hi).2 e he)).ne'
    · rw [List.drop_eq_nil_of_le (by omega)] at he
      cases he
  split
  · rename_i hi
    rw [hi, List.drop_zero] at hright
    exact hright
  · rename_i hi
    obtain ⟨j, rfl⟩ : ∃ j, i = j + 1 := ⟨i - 1, by omega⟩
    rw [Nat.add_sub_cancel]
    have hj : j < groups.length := by omega
    have hleft : (groups.take j).flatten.lookup k = none := by
      refine lookup_eq_none_of_ne fun e he => ?_
      have hk := hbelow j (Nat.lt_succ_self j)
      rw [← Bool.not_eq_true, hf j (by omega), not_lt] at hk
      exact ((h.split hs (by omega)).1 e he |>.trans_le hk).ne
    conv_lhs => rw [← List.take_append_drop j groups, List.drop_eq_getElem_cons hj]
    rw [List.flatten_append, List.flatten_cons, List.lookup_append, List.lookup_append, hleft, hright,
      Option.none_or, Option.or_none, List.getD_eq_getElem _ _ hj]

end

/-! ## Scans -/

section
variable (key : ι → K) (read : ι → Except ε (List (K × V))) (stop want past : K → Bool)
  (ins : σ → K × V → σ)

/-- Collect the wanted entries of a group; the flag says that an entry behind the scan was seen. -/
def scan : σ → List (K × V) → σ × Bool
  | acc, [] => (acc, false)
  | acc, e :: es =>
    if want e.1 then scan (ins acc e) es
    else if past e.1 then (acc, true)
    else scan acc es

/-- Read the groups in order and scan each; a group that begins behind the scan is not read. -/
def scanIndexed : σ → List ι → Except ε σ
  | acc, [] => .ok acc
  | acc, i :: is =>
    if stop (key i) then .ok acc
    else match read i with
      | .error e => .error e
      | .ok g =>
        match scan want past ins acc g with
        | (acc, true) => .ok acc
        | (acc, false) => scanIndexed acc is

end

section
variable {key : ι → K} {read : ι → Except ε (List (K × V))} {stop want past : K → Bool}
  {ins : σ → K × V → σ}

theorem filter_eq_nil_of_past {l : List (K × V)} (hpast : ∀ a b, a ≤ b → past a → want b = false)
    (ha : past a) (hl : ∀ e ∈ l, a ≤ e.1) : l.filter (want ·.1) = [] := by
  rw [List.filter_eq_nil_iff]
  intro e he
  rw [hpast a e.1 (hl e he) ha]
  exact Bool.false_ne_true

theorem scan_spec {l : List (K × V)} (hs : Ascending l)
    (hpast : ∀ a b, a ≤ b → past a → want b = false) (acc : σ) :
    (scan want past ins acc l).1 = (l.filter (want ·.1)).foldl ins acc ∧
      ((scan want past ins acc l).2 = true → ∃ e ∈ l, past e.1) := by
  induction l generalizing acc with
  | nil => exact ⟨rfl, fun h => by cases h⟩
  | cons e l ih =>
    rw [Ascending, List.map_cons, List.pairwise_cons] at hs
    rw [scan]
    split
    · rename_i hw
      obtain ⟨h₁, h₂⟩ := ih hs.2 (ins acc e)
      rw [List.filter_cons, if_pos hw, List.foldl_cons]
      exact ⟨h₁, fun h => (h₂ h).imp fun _ h => ⟨List.mem_cons_of_mem _ h.1, h.2⟩⟩
    · rename_i hw
      rw [List.filter_cons, if_neg hw]
      split
      · rename_i hp
        refine ⟨?_, fun _ => ⟨e, List.mem_cons_self, hp⟩⟩
        rw [filter_eq_nil_of_past hpast hp fun e' he' =>
          (hs.1 e'.1 (List.mem_map_of_mem he')).le]
        rfl
      · obtain ⟨h₁, h₂⟩ := ih hs.2 acc
        exact ⟨h₁, fun h => (h₂ h).imp fun _ h => ⟨List.mem_cons_of_mem _ h.1, h.2⟩⟩

/-- A scan of sorted groups collects the wanted entries in order, wherever it stops. -/
theorem scanIndexed_eq {idx : List ι} {groups : List (List (K × V))}
    (hread : List.Forall₂ (fun i g => read i = .ok g) idx groups) (h : Heads key idx groups)
    (hs : Ascending groups.flatten) (hpast : ∀ a b, a ≤ b → past a → want b = false)
    (hstop : ∀ a b, a ≤ b → stop a → want b = false) (acc : σ) :
    scanIndexed key read stop want past ins acc idx =
      .ok ((groups.flatten.filter (want ·.1)).foldl ins acc) := by
  induction hread generalizing acc with
  | nil => rfl
  | @cons i g idx groups hi hread ih =>
    rw [scanIndexed]
    have hle : ∀ e ∈ (g :: groups).flatten, key i ≤ e.1 := (h.split hs (i := 0) (by simp)).2
    have hrest := h
    rw [Heads, List.forall₂_cons] at hrest
    rw [List.flatten_cons] at hs ⊢
    obtain ⟨hg, hgs, hcross⟩ := ascending_append.mp hs
    split
    · rename_i hst
      rw [← List.flatten_cons, filter_eq_nil_of_past hstop hst hle]
      rfl
    · obtain ⟨hacc, hdone⟩ := scan_spec hg hpast acc
      rw [List.filter_append, List.foldl_append, ← hacc]
      rcases hscan : scan want past ins acc g with ⟨acc', d⟩
      rw [hscan] at hdone
      simp only [hi, hscan]
      cases d with
      | true =>
        obtain ⟨e, he, hp⟩ := hdone rfl
        rw [filter_eq_nil_of_past hpast hp fun e' he' => (hcross e he e' he').le]
        rfl
      | false => exact ih hrest.2 hgs acc'

/-- A scan may begin one group before the first that starts at or behind its lower bound. -/
theorem filter_drop_search {idx : List ι} {groups : List (List (K × V))} (h : Heads key idx groups)
    (hs : Ascending groups.flatten) {f : Nat → Bool}
    (hf : ∀ j (hj : j < idx.length), f j = true ↔ lo ≤ key idx[j])
    (hwant : ∀ a, want a → lo ≤ a) :
    (groups.drop (search idx.length f - 1)).flatten.filter (want ·.1) =
      groups.flatten.filter (want ·.1) := by
  have hmono : ∀ a b, a ≤ b → b < idx.length → f a = true → f b = true := by
    intro a b hab hb ha
    rw [hf a (by omega)] at ha
    rw [hf b hb]
    exact ha.trans (h.key_le hs hab hb)
  obtain ⟨hle, hbelow, -⟩ := search_spec hmono
  generalize search idx.length f = i at hle hbelow
  have hskip : (groups.take (i - 1)).flatten.filter (want ·.1) = [] := by
    rw [List.filter_eq_nil_iff]
    intro e he hw
    rcases Nat.eq_zero_or_pos i with rfl | hi
    · rw [List.take_zero] at he
      cases he
    · have hlt := hbelow (i - 1) (by omega)
      rw [← Bool.not_eq_true, hf (i - 1) (by omega), not_le] at hlt
      exact lt_irrefl _ (((h.split hs (by omega)).1 e he).trans (hlt.trans_le (hwant _ hw)))
  conv_rhs => rw [← List.take_append_drop (i - 1) groups]
  rw [List.flatten_append, List.filter_append, hskip, List.nil_append]

/-- A scan from there collects the wanted entries of the whole table. -/
theorem scanIndexed_drop_search {idx : List ι} {groups : List (List (K × V))}
    (hread : List.Forall₂ (fun i g => read i = .ok g) idx groups) (h : Heads key idx groups)
    (hs : Ascending groups.flatten) (hpast : ∀ a b, a ≤ b → past a → want b = false)
    (hstop : ∀ a b, a ≤ b → stop a → want b = false) {f : Nat → Bool}
    (hf : ∀ j (hj : j < idx.length), f j = true ↔ lo ≤ key idx[j])
    (hwant : ∀ a, want a → lo ≤ a) (acc : σ) :
    scanIndexed key read stop want past ins acc (idx.drop (search idx.length f - 1)) =
      .ok ((groups.flatten.filter (want ·.1)).foldl ins acc) := by
  have hdrop : Ascending (groups.drop (search idx.length f - 1)).flatten := by
    rw [← List.take_append_drop (search idx.length f - 1) groups, List.flatten_append,
      ascending_append] at hs
    exact hs.2.1
  rw [scanIndexed_eq (List.forall₂_drop _ hread) (List.forall₂_drop _ h) hdrop hpast hstop,
    filter_drop_search h hs hf hwant]

end

end ChudDB.Lib
