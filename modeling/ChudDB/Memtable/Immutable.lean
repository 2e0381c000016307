import ChudDB.Lib.Search
import ChudDB.Memtable.Basic

/-! # Immutable memtables

`ImmutableMemtable` (`immutable.go`): the entries of a sealed memtable, sorted by key, with the LSN
up to which the log is covered. `Get` finds a key by binary search and hides deletes. -/

namespace ChudDB
open Lib

structure ImmutableMemtable where
  data : List KeyValue
  maxLSN : Nat
deriving DecidableEq, Repr

/-- `key_value.SortByKeys`. -/
def sortByKeys (l : List KeyValue) : List KeyValue := l.insertionSort (·.1 ≤ ·.1)

/-- The keys strictly increase. -/
def SortedKeys (l : List KeyValue) : Prop := (l.map Prod.fst).Pairwise (· < ·)

instance : Decidable (SortedKeys l) := inferInstanceAs (Decidable (List.Pairwise _ _))

/-- `NewImmutableMemtable`. -/
def newImmutableMemtable (snapshot : List KeyValue) (maxLSN : Nat) : ImmutableMemtable :=
  ⟨sortByKeys snapshot, maxLSN⟩

/-- The index `Get` computes with `sort.Search`. -/
def ImmutableMemtable.searchKey (im : ImmutableMemtable) (key : Key) : Nat :=
  search im.data.length fun i => decide (key ≤ (im.data.getD i ([], [])).1)

/-- `ImmutableMemtable.Get`. -/
def ImmutableMemtable.get (tombstone : Value) (im : ImmutableMemtable) (key : Key) : Option Value :=
  match im.data[im.searchKey key]? with
  | some (k, v) => if k = key then (if v = tombstone then none else some v) else none
  | none => none

/-! ## Sorting -/

theorem sortByKeys_perm : (sortByKeys l).Perm l := List.perm_insertionSort _ _

theorem sortedKeys_sortByKeys (h : (l.map Prod.fst).Nodup) : SortedKeys (sortByKeys l) :=
  ascending_insertionSort h

theorem lookup_sortByKeys (h : (l.map Prod.fst).Nodup) : (sortByKeys l).lookup k = l.lookup k :=
  (lookup_perm sortByKeys_perm.symm h).symm

/-! ## Lookup -/

namespace ImmutableMemtable

variable {im : ImmutableMemtable}

theorem searchKey_spec (h : SortedKeys im.data) :
    (∀ i (hi : i < im.data.length), i < im.searchKey k → im.data[i].1 < k) ∧
      ∀ hi : im.searchKey k < im.data.length, k ≤ im.data[im.searchKey k].1 := by
  have hsorted := List.pairwise_map.mp h
  have hmono : ∀ a b, a ≤ b → b < im.data.length →
      decide (k ≤ (im.data.getD a ([], [])).1) = true →
      decide (k ≤ (im.data.getD b ([], [])).1) = true := by
    intro a b hab hb ha
    simp only [decide_eq_true_eq] at ha ⊢
    rcases Nat.eq_or_lt_of_le hab with rfl | hlt
    · exact ha
    · have hlt' := List.pairwise_iff_getElem.mp hsorted a b (by omega) hb hlt
      rw [List.getD_eq_getElem _ _ hb]
      rw [List.getD_eq_getElem _ _ (by omega)] at ha
      exact ha.trans (le_of_lt hlt')
  obtain ⟨-, hbelow, hat⟩ := search_spec hmono
  constructor
  · intro i hi hlt
    have := hbelow i hlt
    rw [List.getD_eq_getElem _ _ hi] at this
    exact lt_of_not_ge (of_decide_eq_false this)
  · intro hi
    have : k ≤ (im.data.getD (im.searchKey k) ([], [])).1 := of_decide_eq_true (hat hi)
    rwa [List.getD_eq_getElem _ _ hi] at this

theorem lookup_eq_some_iff_searchKey (h : SortedKeys im.data) :
    im.data.lookup k = some v ↔ im.data[im.searchKey k]? = some (k, v) := by
  have hsorted := List.pairwise_map.mp h
  obtain ⟨hbelow, hat⟩ := searchKey_spec (k := k) h
  rw [lookup_eq_some_iff_mem (h.imp ne_of_lt), List.mem_iff_getElem?]
  constructor
  · rintro ⟨i, hi⟩
    obtain ⟨hilt, hival⟩ := List.getElem?_eq_some_iff.mp hi
    rcases Nat.lt_trichotomy i (im.searchKey k) with hlt | heq | hgt
    · have := hbelow i hilt hlt
      rw [hival] at this
      exact absurd this (lt_irrefl _)
    · rw [← heq]
      exact hi
    · have hlt := List.pairwise_iff_getElem.mp hsorted _ i (hgt.trans hilt) hilt hgt
      rw [hival] at hlt
      exact absurd hlt (not_lt_of_ge (hat _))
  · exact fun hi => ⟨_, hi⟩

/-- Binary search finds what a scan of the entries finds. -/
theorem get_eq (h : SortedKeys im.data) :
    im.get tombstone k = live tombstone (im.data.lookup k) := by
  rw [get]
  cases hlookup : im.data.lookup k with
  | none =>
    cases hget : im.data[im.searchKey k]? with
    | none => rfl
    | some e =>
      obtain ⟨k', v⟩ := e
      simp only [live_none]
      split
      · rename_i hk
        subst hk
        rw [(lookup_eq_some_iff_searchKey h).mpr hget] at hlookup
        cases hlookup
      · rfl
  | some v =>
    rw [(lookup_eq_some_iff_searchKey h).mp hlookup, live_some]
    exact if_pos rfl

end ImmutableMemtable
end ChudDB
