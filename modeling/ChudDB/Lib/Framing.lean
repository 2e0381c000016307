import Mathlib

/-! # Sequences of self-delimiting frames

`next` reads one frame from the front of its input and returns what follows it, or `none` when the
input does not start with a complete frame. `readAll` reads frames until there is none. A stream of
encoded frames followed by an unreadable tail is read back as exactly those frames, wherever the
reader starts among them. -/

namespace ChudDB.Lib

variable {β : Type u} {R : Type v} (next : List β → Option (R × List β))

/-- Read frames until `next` finds none, at most `fuel` of them. The second component is what was
not consumed. -/
def readAll : Nat → List β → List R × List β
  | 0, input => ([], input)
  | fuel + 1, input =>
    match next input with
    | none => ([], input)
    | some (r, rest) => (r :: (readAll fuel rest).1, (readAll fuel rest).2)

/-- `next` reads `enc r` back, whatever follows it. -/
def Reads (enc : R → List β) (r : R) : Prop :=
  enc r ≠ [] ∧ ∀ rest, next (enc r ++ rest) = some (r, rest)

variable {next} {enc : R → List β} {rs : List R} {tail : List β}

theorem Reads.length_le_flatMap (h : ∀ r ∈ rs, Reads next enc r) :
    rs.length ≤ (rs.flatMap enc).length := by
  induction rs with
  | nil => simp
  | cons r rs ih =>
    have hpos := List.length_pos_iff.mpr (h r List.mem_cons_self).1
    have := ih fun r hr => h r (List.mem_cons_of_mem _ hr)
    simp only [List.flatMap_cons, List.length_append, List.length_cons]
    omega

/-- Encoded frames followed by an unreadable tail are read back exactly. -/
theorem readAll_flatMap (h : ∀ r ∈ rs, Reads next enc r) (htail : next tail = none)
    (hfuel : rs.length ≤ fuel) : readAll next fuel (rs.flatMap enc ++ tail) = (rs, tail) := by
  induction rs generalizing fuel with
  | nil => cases fuel <;> simp [readAll, htail]
  | cons r rs ih =>
    cases fuel with
    | zero => simp at hfuel
    | succ fuel =>
      have hr := (h r List.mem_cons_self).2 (rs.flatMap enc ++ tail)
      have := ih (fun r hr => h r (List.mem_cons_of_mem _ hr)) (by simpa using hfuel)
      simp only [readAll, List.flatMap_cons, List.append_assoc, hr, this]

theorem readAll_eq (h : ∀ r ∈ rs, Reads next enc r) (htail : next tail = none) :
    readAll next (rs.flatMap enc ++ tail).length (rs.flatMap enc ++ tail) = (rs, tail) := by
  refine readAll_flatMap h htail ?_
  have := Reads.length_le_flatMap h
  rw [List.length_append]
  omega

/-! ## Unambiguous encodings -/

/-- An encoding can be told from what follows it. -/
def SelfDelimiting (enc : R → List β) (P : R → Prop) : Prop :=
  ∀ r r', P r → P r' → ∀ x y, enc r ++ x = enc r' ++ y → r = r' ∧ x = y

theorem SelfDelimiting.pair {S : Type w} {enc : R → List β} {enc' : S → List β} {P : R → Prop}
    {Q : S → Prop} (h : SelfDelimiting enc P) (h' : SelfDelimiting enc' Q) :
    SelfDelimiting (fun p : R × S => enc p.1 ++ enc' p.2) fun p => P p.1 ∧ Q p.2 := by
  intro p q hp hq x y heq
  rw [List.append_assoc, List.append_assoc] at heq
  obtain ⟨hfst, heq⟩ := h p.1 q.1 hp.1 hq.1 _ _ heq
  obtain ⟨hsnd, heq⟩ := h' p.2 q.2 hp.2 hq.2 _ _ heq
  exact ⟨Prod.ext hfst hsnd, heq⟩

/-- A terminator that occurs in neither of two strings delimits them. -/
theorem append_terminator_inj {t : β} {a b x y : List β} (ha : t ∉ a) (hb : t ∉ b)
    (heq : a ++ t :: x = b ++ t :: y) : a = b ∧ x = y := by
  rcases List.append_eq_append_iff.mp heq with ⟨c, rfl, hc⟩ | ⟨c, rfl, hc⟩
  · cases c with
    | nil => simpa using hc
    | cons d c =>
      cases hc
      exact absurd (List.mem_append_right a List.mem_cons_self) hb
  · cases c with
    | nil => simpa [eq_comm] using hc
    | cons d c =>
      cases hc
      exact absurd (List.mem_append_right b List.mem_cons_self) ha

/-- A stream of such frames, none of them empty, determines the frames. -/
theorem SelfDelimiting.flatMap_inj {P : R → Prop} (h : SelfDelimiting enc P)
    (hne : ∀ r, enc r ≠ []) {l l' : List R} (hl : ∀ r ∈ l, P r) (hl' : ∀ r ∈ l', P r)
    (heq : l.flatMap enc = l'.flatMap enc) : l = l' := by
  induction l generalizing l' with
  | nil =>
    cases l' with
    | nil => rfl
    | cons r l' => exact absurd (List.append_eq_nil_iff.mp heq.symm).1 (hne r)
  | cons r l ih =>
    cases l' with
    | nil => exact absurd (List.append_eq_nil_iff.mp heq).1 (hne r)
    | cons r' l' =>
      rw [List.flatMap_cons, List.flatMap_cons] at heq
      obtain ⟨rfl, hrest⟩ := h r r' (hl r List.mem_cons_self) (hl' r' List.mem_cons_self) _ _ heq
      rw [ih (fun s hs => hl s (List.mem_cons_of_mem _ hs))
        (fun s hs => hl' s (List.mem_cons_of_mem _ hs)) hrest]

theorem SelfDelimiting.flatMap_append_inj {P : R → Prop} (h : SelfDelimiting enc P) {l l' : List R}
    (hlength : l.length = l'.length) (hl : ∀ r ∈ l, P r) (hl' : ∀ r ∈ l', P r) {x y : List β}
    (heq : l.flatMap enc ++ x = l'.flatMap enc ++ y) : l = l' ∧ x = y := by
  induction l generalizing l' with
  | nil =>
    cases List.length_eq_zero_iff.mp hlength.symm
    exact ⟨rfl, heq⟩
  | cons r l ih =>
    obtain ⟨r', l', rfl⟩ := List.exists_cons_of_length_eq_add_one hlength.symm
    rw [List.flatMap_cons, List.flatMap_cons, List.append_assoc, List.append_assoc] at heq
    obtain ⟨rfl, hrest⟩ := h r r' (hl r List.mem_cons_self) (hl' r' List.mem_cons_self) _ _ heq
    obtain ⟨rfl, hbehind⟩ := ih (Nat.succ.inj hlength)
      (fun s hs => hl s (List.mem_cons_of_mem _ hs))
      (fun s hs => hl' s (List.mem_cons_of_mem _ hs)) hrest
    exact ⟨rfl, hbehind⟩

/-- A number of frames behind their count. -/
def counted (count : Nat → List β) (enc : R → List β) (l : List R) : List β :=
  count l.length ++ l.flatMap enc

theorem SelfDelimiting.counted {count : Nat → List β} {C : Nat → Prop} {P : R → Prop}
    (hcount : SelfDelimiting count C) (h : SelfDelimiting enc P) :
    SelfDelimiting (counted count enc) fun l => C l.length ∧ ∀ r ∈ l, P r := by
  intro l l' hl hl' x y heq
  rw [Lib.counted, Lib.counted, List.append_assoc, List.append_assoc] at heq
  obtain ⟨hlength, hrest⟩ := hcount _ _ hl.1 hl'.1 _ _ heq
  exact h.flatMap_append_inj hlength hl.2 hl'.2 hrest

/-! ## Reading at an offset -/

/-- The offset at which the frame number `i` starts. -/
def frameOffset (enc : R → List β) (rs : List R) (i : Nat) : Nat := ((rs.take i).flatMap enc).length

theorem drop_frameOffset :
    (rs.flatMap enc ++ tail).drop (frameOffset enc rs i) = (rs.drop i).flatMap enc ++ tail := by
  have : rs.flatMap enc = (rs.take i).flatMap enc ++ (rs.drop i).flatMap enc := by
    rw [← List.flatMap_append, List.take_append_drop]
  rw [this, List.append_assoc, frameOffset, List.drop_left]

/-- Reading at a frame boundary returns the frame that starts there. -/
theorem next_drop_frameOffset (h : ∀ r ∈ rs, Reads next enc r) (hi : i < rs.length) :
    next ((rs.flatMap enc ++ tail).drop (frameOffset enc rs i)) =
      some (rs[i], (rs.flatMap enc ++ tail).drop (frameOffset enc rs (i + 1))) := by
  rw [drop_frameOffset, drop_frameOffset, List.drop_eq_getElem_cons hi, List.flatMap_cons,
    List.append_assoc]
  exact (h _ (List.getElem_mem hi)).2 _

/-- Reading behind the last frame finds none. -/
theorem next_drop_frameOffset_length (htail : next tail = none) (hi : rs.length ≤ i) :
    next ((rs.flatMap enc ++ tail).drop (frameOffset enc rs i)) = none := by
  rw [drop_frameOffset, List.drop_eq_nil_of_le hi]
  exact htail

end ChudDB.Lib
