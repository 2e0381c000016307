import ChudDB.Lib.Lists

/-! # Tilings of a half-line

A tile covers the keys from its start up to, not including, its stop; a tile that stops at `⊥` is
unbounded. `Tiles lo l` says that the tiles of `l` follow one another from `lo` on without a gap.
A tiling whose tiles are the maximal stretches of one colour is determined by the colouring
(`Tiles.eq_of_maximal`). -/

namespace ChudDB.Lib

variable {ι : Type u} {K : Type v} [LinearOrder K] [OrderBot K]

/-- The keys from `lo` on and below `hi`; as an upper end `⊥` is no bound. -/
def HalfOpen (lo hi k : K) : Prop := lo ≤ k ∧ (hi = ⊥ ∨ k < hi)

/-- A tile covers the keys between its ends. -/
abbrev Covers (start stop : ι → K) (i : ι) (k : K) : Prop := HalfOpen (start i) (stop i) k

inductive Tiles (start stop : ι → K) : K → List ι → Prop
  | last (hstart : start i = lo) (hstop : stop i = ⊥) : Tiles start stop lo [i]
  | cons (hstart : start i = lo) (hlt : lo < stop i) (h : Tiles start stop (stop i) l) :
    Tiles start stop lo (i :: l)

namespace HalfOpen
variable {lo mid hi k : K}

instance : Decidable (HalfOpen lo hi k) := inferInstanceAs (Decidable (_ ∧ (_ ∨ _)))

theorem start_iff : HalfOpen lo hi lo ↔ hi = ⊥ ∨ lo < hi := and_iff_right le_rfl

theorem nonempty_iff : (∃ k, HalfOpen lo hi k) ↔ HalfOpen lo hi lo :=
  ⟨fun ⟨_, hle, hend⟩ => ⟨le_rfl, hend.imp_right hle.trans_lt⟩, fun h => ⟨lo, h⟩⟩

/-- A cut at a key inside. -/
theorem cut (hlt : lo < mid) (hlt' : hi ≠ ⊥ → mid < hi) (k : K) :
    (HalfOpen lo hi k ↔ HalfOpen lo mid k ∨ HalfOpen mid hi k) ∧
    ¬ (HalfOpen lo mid k ∧ HalfOpen mid hi k) := by
  have hne : mid ≠ ⊥ := (bot_le.trans_lt hlt).ne'
  simp only [HalfOpen, hne, false_or]
  rcases lt_or_ge k mid with hk | hk
  · have hbelow : hi = ⊥ ∨ k < hi := or_iff_not_imp_left.mpr fun h => hk.trans (hlt' h)
    exact ⟨by simp [hk, hk.not_ge, hbelow], fun h => hk.not_ge h.2.1⟩
  · exact ⟨by simp [hk, hk.not_gt, hlt.le.trans hk], fun h => hk.not_gt h.1.2⟩

end HalfOpen

namespace Tiles

variable {start stop : ι → K} {lo k k' : K} {i j : ι} {l l' : List ι}

theorem start_eq (h : Tiles start stop lo (i :: l)) : start i = lo := by
  cases h with
  | last hstart => exact hstart
  | cons hstart => exact hstart

theorem of_cons_cons (h : Tiles start stop lo (i :: j :: l)) :
    start i = lo ∧ lo < stop i ∧ Tiles start stop (stop i) (j :: l) := by
  cases h with
  | cons hstart hlt h => exact ⟨hstart, hlt, h⟩

theorem of_append {pre : List ι} (h : Tiles start stop lo (pre ++ i :: l)) :
    Tiles start stop (start i) (i :: l) := by
  induction pre generalizing lo with
  | nil => exact h.start_eq.symm ▸ h
  | cons j pre ih =>
    rw [List.cons_append] at h
    cases hrest : pre ++ i :: l with
    | nil => exact absurd hrest (List.append_ne_nil_of_right_ne_nil _ (List.cons_ne_nil i l))
    | cons j' rest =>
      rw [hrest] at h
      exact ih (hrest ▸ h.of_cons_cons.2.2)

theorem map {start' stop' : κ → K} {f : ι → κ} (hstart : ∀ i, start' (f i) = start i)
    (hstop : ∀ i, stop' (f i) = stop i) (h : Tiles start stop lo l) :
    Tiles start' stop' lo (l.map f) := by
  induction h with
  | last h h' => exact .last ((hstart _).trans h) ((hstop _).trans h')
  | @cons i lo l h hlt _ ih =>
    rw [← hstop i] at hlt ih
    exact .cons ((hstart i).trans h) hlt ih

theorem le_start (h : Tiles start stop lo l) (hi : i ∈ l) : lo ≤ start i := by
  induction h with
  | last hstart => rw [List.mem_singleton.mp hi, hstart]
  | cons hstart hlt _ ih =>
    rcases List.mem_cons.mp hi with rfl | hi
    · exact hstart.ge
    · exact hlt.le.trans (ih hi)

theorem lt_start_of_cons (h : Tiles start stop lo (i :: l)) (hj : j ∈ l) : start i < start j := by
  cases h with
  | last => cases hj
  | cons hstart hlt h => exact (hstart.trans_lt hlt).trans_le (h.le_start hj)

theorem pairwise_start_lt (h : Tiles start stop lo l) : l.Pairwise fun i j => start i < start j := by
  induction h with
  | last => exact List.pairwise_singleton _ _
  | cons hstart hlt h ih =>
    exact List.pairwise_cons.mpr ⟨fun j hj => (Tiles.cons hstart hlt h).lt_start_of_cons hj, ih⟩

theorem nodup (h : Tiles start stop lo l) : l.Nodup :=
  h.pairwise_start_lt.imp fun hlt heq => hlt.ne (congrArg start heq)

theorem start_lt_stop (h : Tiles start stop lo l) (hi : i ∈ l) (hne : stop i ≠ ⊥) :
    start i < stop i := by
  induction h with
  | last _ hstop => exact absurd (List.mem_singleton.mp hi ▸ hstop) hne
  | cons hstart hlt _ ih =>
    rcases List.mem_cons.mp hi with rfl | hi
    · exact hstart.trans_lt hlt
    · exact ih hi

theorem covers_start (h : Tiles start stop lo l) (hi : i ∈ l) : Covers start stop i (start i) := by
  by_cases hne : stop i = ⊥
  · exact ⟨le_refl _, .inl hne⟩
  · exact ⟨le_refl _, .inr (h.start_lt_stop hi hne)⟩

theorem exists_covers (h : Tiles start stop lo l) (hk : lo ≤ k) :
    ∃ i ∈ l, Covers start stop i k := by
  induction h with
  | last hstart hstop => exact ⟨_, List.mem_cons_self, hstart.trans_le hk, .inl hstop⟩
  | @cons i lo l hstart hlt _ ih =>
    rcases lt_or_ge k (stop i) with hlow | hhigh
    · exact ⟨_, List.mem_cons_self, hstart.trans_le hk, .inr hlow⟩
    · obtain ⟨j, hj, hcovers⟩ := ih hhigh
      exact ⟨j, List.mem_cons_of_mem _ hj, hcovers⟩

theorem not_covers_of_lt (h : Tiles start stop lo l) (hk : k < lo) (hi : i ∈ l) :
    ¬ Covers start stop i k :=
  fun hcovers => absurd (hcovers.1.trans_lt hk) (h.le_start hi).not_gt

/-- A key is covered once. -/
theorem countP_covers (h : Tiles start stop lo l) (hk : lo ≤ k) {p : ι → Bool}
    (hp : ∀ i, p i = true ↔ Covers start stop i k) : l.countP p = 1 := by
  induction h with
  | last hstart hstop =>
    rw [List.countP_singleton, if_pos ((hp _).mpr ⟨hstart.trans_le hk, .inl hstop⟩)]
  | @cons i lo l hstart hlt h ih =>
    rw [List.countP_cons]
    rcases lt_or_ge k (stop i) with hlow | hhigh
    · have hrest : l.countP p = 0 :=
        List.countP_eq_zero.mpr fun j hj => by
          rw [hp]
          exact h.not_covers_of_lt hlow hj
      rw [hrest, if_pos ((hp i).mpr ⟨hstart.trans_le hk, .inr hlow⟩)]
    · have hi : ¬ p i = true := by
        rw [hp]
        rintro ⟨-, hbot | hlt'⟩
        · exact absurd (hbot ▸ hlt) not_lt_bot
        · exact absurd hlt' hhigh.not_gt
      rw [if_neg hi, ih hhigh]

theorem eq_of_covers (h : Tiles start stop lo l) (hi : i ∈ l) (hj : j ∈ l)
    (hik : Covers start stop i k) (hjk : Covers start stop j k) : i = j :=
  eq_of_countP_eq_one (h.countP_covers ((h.le_start hi).trans hik.1) fun _ => decide_eq_true_iff)
    hi hj (decide_eq_true hik) (decide_eq_true hjk)

/-- Two tilings with the same tile at each key are equal. -/
theorem ext (h : Tiles start stop lo l) (h' : Tiles start stop lo l')
    (hsame : ∀ i, i ∈ l ↔ i ∈ l') : l = l' :=
  ((List.perm_ext_iff_of_nodup h.nodup h'.nodup).mpr hsame).eq_of_pairwise
    (fun _ _ _ _ hlt hgt => absurd hlt hgt.not_gt) h.pairwise_start_lt h'.pairwise_start_lt

end Tiles

/-! ## Cutting at keys -/

/-- The pieces from `lo` on when the half-line is cut at the given ends. -/
def cuts : K → List K → List (K × K)
  | _, [] => []
  | lo, stop :: stops => (lo, stop) :: cuts stop stops

section Cuts
variable {lo k b : K} {bs : List K} {p : K × K}

theorem tiles_cuts (h : (lo :: bs).Pairwise (· < ·)) :
    Tiles Prod.fst Prod.snd lo (cuts lo (bs ++ [⊥])) := by
  induction bs generalizing lo with
  | nil => exact .last rfl rfl
  | cons b bs ih =>
    rw [List.pairwise_cons] at h
    exact .cons rfl (h.1 b List.mem_cons_self) (ih h.2)

/-- No cut falls inside a piece. -/
theorem le_or_lt_of_mem_cuts (h : (lo :: bs).Pairwise (· < ·)) (hp : p ∈ cuts lo (bs ++ [⊥]))
    (hk : Covers Prod.fst Prod.snd p k) (hb : b ∈ bs) : b ≤ p.1 ∨ k < b := by
  induction bs generalizing lo with
  | nil => cases hb
  | cons c bs ih =>
    rw [List.pairwise_cons, List.pairwise_cons] at h
    have hc : lo < c := h.1 c List.mem_cons_self
    rcases List.mem_cons.mp hp with rfl | hp
    · -- the piece before the first cut
      right
      have hkc : k < c := hk.2.resolve_left (ne_bot_of_gt hc)
      rcases List.mem_cons.mp hb with rfl | hb
      · exact hkc
      · exact hkc.trans (h.2.1 b hb)
    · have htail : (c :: bs).Pairwise (· < ·) := List.pairwise_cons.mpr h.2
      rcases List.mem_cons.mp hb with rfl | hb
      · exact .inl ((tiles_cuts htail).le_start hp)
      · exact ih htail hp hb

end Cuts

namespace Tiles

variable {start stop : ι → K} {lo k k' : K} {i j : ι} {l l' : List ι}

/-! ## Maximal tilings -/

/-- Each tile has one colour, and the colour changes from each tile to the next. -/
structure Maximal (start stop : ι → K) (colour : K → C) (l : List ι) : Prop where
  mono : ∀ i ∈ l, ∀ k, Covers start stop i k → colour k = colour (start i)
  change : l.IsChain fun i j => colour (start i) ≠ colour (start j)

variable {colour : K → C} {colour' : K → C'}

theorem Maximal.tail (h : Maximal start stop colour (i :: l)) : Maximal start stop colour l where
  mono j hj := h.mono j (List.mem_cons_of_mem i hj)
  change := h.change.tail

/-- A tiling is maximal for the colouring of each key by its tile. -/
theorem maximal_of_colour_eq {colour : K → ι} (h : Tiles start stop lo l)
    (hcolour : ∀ i ∈ l, ∀ k, Covers start stop i k → colour k = i) :
    Maximal start stop colour l where
  mono i hi k hk := by rw [hcolour i hi k hk, hcolour i hi _ (h.covers_start hi)]
  change := by
    refine (h.pairwise_start_lt.imp_of_mem fun {i j} hi hj hlt => ?_).isChain
    rw [hcolour i hi _ (h.covers_start hi), hcolour j hj _ (h.covers_start hj)]
    exact fun heq => hlt.ne (congrArg start heq)

theorem Maximal.map {start' stop' : κ → K} {f : ι → κ} (hstart : ∀ i, start' (f i) = start i)
    (hstop : ∀ i, stop' (f i) = stop i) (h : Maximal start stop colour l) :
    Maximal start' stop' colour (l.map f) where
  mono j hj k hk := by
    obtain ⟨i, hi, rfl⟩ := List.mem_map.mp hj
    rw [Covers, hstart, hstop] at hk
    rw [hstart]
    exact h.mono i hi k hk
  change := by
    rw [List.isChain_map]
    exact h.change.imp fun i j hne => by rwa [hstart, hstart]

/-- A bounded tile is followed by another colour. -/
theorem Maximal.colour_stop_ne (hmax : Maximal start stop colour (i :: l))
    (h : Tiles start stop lo (i :: l)) (hne : stop i ≠ ⊥) : colour (stop i) ≠ colour lo := by
  cases h with
  | last _ hstop => exact absurd hstop hne
  | @cons _ _ l hstart _ h =>
    cases l with
    | nil => cases h
    | cons j l =>
      have hchange := (List.isChain_cons_cons.mp hmax.change).1
      rw [hstart, h.start_eq] at hchange
      exact hchange.symm

/-- A tile cannot end inside a tile of a tiling with the same colour changes. -/
theorem Maximal.not_covers_stop (hsame : ∀ k k', colour k = colour k' ↔ colour' k = colour' k')
    (hmax : Maximal start stop colour (i :: l)) (h : Tiles start stop lo (i :: l))
    (hmax' : Maximal start stop colour' (j :: l')) (h' : Tiles start stop lo (j :: l'))
    (hne : stop i ≠ ⊥) : ¬ Covers start stop j (stop i) := by
  intro hcovers
  have hcolour := hmax'.mono j List.mem_cons_self _ hcovers
  rw [h'.start_eq, ← hsame] at hcolour
  exact hmax.colour_stop_ne h hne hcolour

theorem Maximal.stop_eq (hsame : ∀ k k', colour k = colour k' ↔ colour' k = colour' k')
    (hmax : Maximal start stop colour (i :: l)) (h : Tiles start stop lo (i :: l))
    (hmax' : Maximal start stop colour' (j :: l')) (h' : Tiles start stop lo (j :: l')) :
    stop i = stop j := by
  have hij := hmax.not_covers_stop hsame h hmax' h'
  have hji := hmax'.not_covers_stop (fun k k' => (hsame k k').symm) h' hmax h
  have hlo : ∀ {i l}, Tiles start stop lo (i :: l) → stop i ≠ ⊥ → lo ≤ stop i := fun h hne =>
    h.start_eq ▸ (h.start_lt_stop List.mem_cons_self hne).le
  by_cases hi : stop i = ⊥
  · by_contra hne
    have hj : stop j ≠ ⊥ := fun hj => hne (hi.trans hj.symm)
    exact hji hj ⟨h.start_eq.trans_le (hlo h' hj), .inl hi⟩
  · have hle : stop j ≤ stop i := by
      by_contra hlt
      exact hij hi ⟨h'.start_eq.trans_le (hlo h hi), .inr (not_le.mp hlt)⟩
    have hj : stop j ≠ ⊥ := fun hj =>
      hij hi ⟨h'.start_eq.trans_le (hlo h hi), .inl hj⟩
    refine le_antisymm ?_ hle
    by_contra hlt
    exact hji hj ⟨h.start_eq.trans_le (hlo h' hj), .inr (not_le.mp hlt)⟩

/-- Two maximal tilings for the same colour changes agree. -/
theorem eq_of_maximal (hsame : ∀ k k', colour k = colour k' ↔ colour' k = colour' k')
    (h : Tiles start stop lo l) (hmax : Maximal start stop colour l)
    (h' : Tiles start stop lo l') (hmax' : Maximal start stop colour' l')
    (hext : ∀ i ∈ l, ∀ j ∈ l', start i = start j → stop i = stop j → i = j) : l = l' := by
  induction h generalizing l' with
  | @last i lo hstart hstop =>
    cases l' with
    | nil => cases h'
    | cons j l' =>
      have hstops := hmax.stop_eq hsame (.last hstart hstop) hmax' h'
      have hij := hext i List.mem_cons_self j List.mem_cons_self
        (hstart.trans h'.start_eq.symm) hstops
      cases h' with
      | last => rw [hij]
      | cons _ hlt => exact absurd (hstop.symm.trans hstops ▸ hlt) not_lt_bot
  | @cons i lo l hstart hlt h ih =>
    cases l' with
    | nil => cases h'
    | cons j l' =>
      have hstops := hmax.stop_eq hsame (.cons hstart hlt h) hmax' h'
      have hij := hext i List.mem_cons_self j List.mem_cons_self
        (hstart.trans h'.start_eq.symm) hstops
      cases h' with
      | last _ hstop => exact absurd (hstops.trans hstop ▸ hlt) not_lt_bot
      | cons _ _ h' =>
        rw [hij, ih hmax.tail (hstops ▸ h') hmax'.tail fun i hi j hj =>
          hext i (List.mem_cons_of_mem _ hi) j (List.mem_cons_of_mem _ hj)]

end Tiles
end ChudDB.Lib
