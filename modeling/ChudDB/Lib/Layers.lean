import Mathlib

/-! # Layered lookup

A value is looked up in a list of layers, the layer in front first; a layer answers or passes the
question on. -/

namespace ChudDB.Lib

variable {α : Type u} {β : Type v} {l : List α}

theorem findSome?_congr {f g : α → Option β} (h : ∀ a ∈ l, f a = g a) :
    l.findSome? f = l.findSome? g := by
  induction l with
  | nil => rfl
  | cons a l ih =>
    rw [List.findSome?_cons, List.findSome?_cons, h a List.mem_cons_self,
      ih fun a ha => h a (List.mem_cons_of_mem _ ha)]

/-- The first layer that answers. -/
theorem findSome?_eq_head? {f : α → Option β} :
    l.findSome? f = (l.filter fun a => (f a).isSome).head?.bind f := by
  induction l with
  | nil => rfl
  | cons a l ih =>
    rw [List.findSome?_cons, List.filter_cons]
    cases h : f a with
    | none => exact ih
    | some b => exact h.symm

/-- Layers that keep some of their answers to themselves: the first answer given is the first of all
answers that is not kept back. -/
theorem findSome?_filter {f : α → Option β} {p : β → Bool} :
    (l.findSome? fun a => (f a).filter p) = (l.filterMap f).find? p := by
  induction l with
  | nil => rfl
  | cons a l ih =>
    rw [List.findSome?_cons]
    cases hf : f a with
    | none =>
      rw [List.filterMap_cons_none hf]
      exact ih
    | some b =>
      rw [List.filterMap_cons_some hf]
      cases hp : p b with
      | false =>
        rw [List.find?_cons_of_neg (by simp [hp]), Option.filter_some_neg (by simp [hp])]
        exact ih
      | true => rw [List.find?_cons_of_pos hp, Option.filter_some_pos hp]

theorem findSome?_filterMap {f : α → Option γ} {g : γ → Option β} :
    (l.filterMap f).findSome? g = l.findSome? fun a => (f a).bind g := by
  induction l with
  | nil => rfl
  | cons a l ih =>
    rw [List.findSome?_cons]
    cases hf : f a with
    | none =>
      rw [List.filterMap_cons_none hf]
      exact ih
    | some c =>
      rw [List.filterMap_cons_some hf, List.findSome?_cons, ih]
      rfl

/-- The first result of `g` after `f` comes from the first value of `f` that `g` has a result for. -/
theorem findSome?_bind {f : α → Option γ} {g : γ → Option β} :
    (l.findSome? fun a => (f a).bind g) =
      (l.findSome? fun a => (f a).filter fun c => (g c).isSome).bind g := by
  rw [← findSome?_filterMap, findSome?_filter, findSome?_eq_head?, List.head?_filter]

/-- The newest of several layers that are listed oldest first. -/
def newest (f : α → Option β) (l : List α) : Option β := l.reverse.findSome? f

@[simp] theorem newest_nil {f : α → Option β} : newest f [] = none := rfl

theorem newest_append {f : α → Option β} : newest f (l ++ l') = (newest f l').or (newest f l) := by
  rw [newest, List.reverse_append, List.findSome?_append]
  rfl

theorem newest_singleton {f : α → Option β} : newest f [a] = f a := by
  cases h : f a <;> simp [newest, h]

/-- The last layer that answers. -/
theorem newest_eq_some {f : α → Option β} {n : Nat} (ha : l[n]? = some a) (hb : f a = some b)
    (hlast : ∀ m a, l[m]? = some a → f a ≠ none → m ≤ n) : newest f l = some b := by
  obtain ⟨hlt, hval⟩ := List.getElem?_eq_some_iff.mp ha
  have hlater : newest f (l.drop (n + 1)) = none := by
    rw [newest, List.findSome?_eq_none_iff]
    intro a' ha'
    obtain ⟨i, hi⟩ := List.mem_iff_getElem?.mp (List.mem_reverse.mp ha')
    rw [List.getElem?_drop] at hi
    by_contra hne
    have := hlast _ a' hi hne
    omega
  rw [← List.take_append_drop n l, List.drop_eq_getElem_cons hlt, hval, newest_append,
    ← List.singleton_append, newest_append, hlater, newest_singleton, hb]
  rfl

/-- Adjacent layers may be merged into one that answers as they do. -/
theorem newest_merge {f : α → Option β} {a : α} {b : List α} (h : f a = newest f b)
    (older newer : List α) :
    newest f (older ++ (a :: newer)) = newest f (older ++ (b ++ newer)) := by
  rw [newest_append, newest_append, newest_append, ← List.singleton_append, newest_append,
    newest_singleton, h]

/-! ## Layers that move

A queue of layers on top of older ones: its first layer is copied to the end of the older ones and
then taken out of the queue. -/

section moving
variable {κ : Type w} {f : α → κ → Option β} {target : κ → Option β} {older queue : List α}

/-- The newest answers of the layers are the wanted ones. -/
def Answers (f : α → κ → Option β) (target : κ → Option β) (l : List α) : Prop :=
  ∀ k, newest (f · k) l = target k

/-- A layer that gives wanted answers only. -/
def Current (f : α → κ → Option β) (target : κ → Option β) (a : α) : Prop :=
  ∀ k b, f a k = some b → target k = some b

theorem Answers.concat (h : Answers f target l) (ha : Current f target a) :
    Answers f target (l ++ [a]) := by
  intro k
  rw [newest_append, newest_singleton]
  cases hk : f a k with
  | none => exact h k
  | some b => exact (ha k b hk).symm

/-- The layer on top gives wanted answers only. -/
theorem Answers.current (h : Answers f target (l ++ [a])) : Current f target a := by
  intro k b hk
  rw [← h k, newest_append, newest_singleton, hk]
  rfl

/-- A layer may be put under one that it includes. -/
theorem Answers.insert (h : Answers f target (l ++ [a])) (hb : Current f target b) :
    Answers f target (l ++ [b] ++ [a]) := by
  intro k
  have hk := h k
  rw [newest_append, newest_singleton] at hk
  rw [newest_append, newest_singleton, newest_append, newest_singleton]
  cases ha : f a k with
  | some v =>
    rw [ha] at hk
    exact hk
  | none =>
    rw [ha] at hk
    cases hv : f b k with
    | some v => exact (hb k v hv).symm
    | none => exact hk

/-- A layer that holds whatever the one on top holds may replace it. -/
theorem Answers.replace (h : Answers f target (l ++ [a])) (hb : Current f target b)
    (hi : ∀ k v, f a k = some v → f b k = some v) : Answers f target (l ++ [b]) := by
  intro k
  have hk := h k
  rw [newest_append, newest_singleton] at hk ⊢
  cases hv : f b k with
  | some v => exact (hb k v hv).symm
  | none =>
    cases ha : f a k with
    | some v =>
      rw [hi k v ha] at hv
      cases hv
    | none =>
      rw [ha] at hk
      exact hk

theorem answers_concat_empty (ha : ∀ k, f a k = none) :
    Answers f target (l ++ [a]) ↔ Answers f target l := by
  simp only [Answers, newest_append, newest_singleton, ha, Option.none_or]

/-- A copy of a layer right below it changes nothing. -/
theorem answers_copy :
    Answers f target (older ++ a :: a :: queue) ↔ Answers f target (older ++ a :: queue) := by
  have h : ∀ k, newest (f · k) (older ++ a :: queue) = newest (f · k) (older ++ a :: a :: queue) := by
    intro k
    refine newest_merge ?_ older queue (b := [a, a])
    rw [show [a, a] = [a] ++ [a] from rfl, newest_append, newest_singleton]
    cases f a k <;> rfl
  simp only [Answers, h]

/-- The older layers with the first `m` of the queue give the wanted answers, for all `m` from `n`
on. -/
def Settled (f : α → κ → Option β) (target : κ → Option β) (older queue : List α) (n : Nat) : Prop :=
  ∀ m, n ≤ m → Answers f target (older ++ queue.take m)

theorem Settled.answers (h : Settled f target older queue n) :
    Answers f target (older ++ queue) := by
  have := h (max n queue.length) (Nat.le_max_left _ _)
  rwa [List.take_of_length_le (Nat.le_max_right _ _)] at this

theorem settled_length (h : Answers f target (older ++ queue)) :
    Settled f target older queue queue.length := by
  intro m hm
  rwa [List.take_of_length_le hm]

theorem Settled.push (h : Settled f target older queue n) (ha : Current f target a) :
    Settled f target older (queue ++ [a]) n := by
  intro m hm
  rcases Nat.lt_or_ge queue.length m with hlt | hle
  · rw [List.take_of_length_le (by simpa using hlt), ← List.append_assoc]
    exact h.answers.concat ha
  · rw [List.take_append_of_le_length hle]
    exact h m hm

theorem Settled.copy (h : Settled f target older (a :: queue) n) :
    Settled f target (older ++ [a]) (a :: queue) n := by
  intro m hm
  cases m with
  | zero =>
    have := h 1 (Nat.le_succ_of_le hm)
    rw [List.take_succ_cons, List.take_zero] at this
    rw [List.take_zero, List.append_nil]
    exact this
  | succ m =>
    rw [List.take_succ_cons, List.append_assoc]
    exact answers_copy.mpr (h (m + 1) hm)

theorem Settled.pop (h : Settled f target (older ++ [a]) (a :: queue) n) :
    Settled f target (older ++ [a]) queue (n - 1) := by
  intro m hm
  have hcopy := h (m + 1) (by omega)
  rw [List.take_succ_cons, List.append_assoc] at hcopy
  rw [List.append_assoc]
  exact answers_copy.mp hcopy

end moving

end ChudDB.Lib
