import ChudDB.Lib.Bytes
import ChudDB.Lib.Run
import ChudDB.Lib.SortedMap

/-! # Memtables

The `Memtable` interface (`memtable.go`) with the laws the engine relies on, and the hash map that
the default configuration selects (`hashmap.go`). A value equal to the configured tombstone is a
delete; `Get` does not return it. -/

namespace ChudDB
open Lib

abbrev Key := Bytes
abbrev Value := Bytes

/-- `key_value.KeyValue`. -/
abbrev KeyValue := Key × Value

/-- `entryBytes`. -/
def entryBytes (key : Key) (value : Value) : Nat := key.length + value.length

/-- The bytes of a list of entries. -/
def bytesOf (l : List KeyValue) : Int := (l.map fun e => (entryBytes e.1 e.2 : Int)).sum

theorem bytesOf_nil : 0 = bytesOf [] := rfl

theorem bytesOf_put {l : List KeyValue} (hs : Ascending l) :
    bytesOf (put key value l) = bytesOf l + entryBytes key value -
      ((l.lookup key).elim 0 fun old => (entryBytes key old : Int)) :=
  sum_put (fun e => (entryBytes e.1 e.2 : Int)) hs

/-- What a lookup that hides deletes answers when the stored value is `v`. -/
def live (tombstone : Value) (v : Option Value) : Option Value := v.filter (· ≠ tombstone)

@[simp] theorem live_none : live tombstone none = none := rfl

theorem live_some : live tombstone (some v) = if v = tombstone then none else some v := by
  by_cases h : v = tombstone <;> simp [live, Option.filter, h]

/-- The memtable interface. `toRaw` lists the entries, deletes included; for a Go map the order of
the list is arbitrary, and the engine sorts it before it is used. -/
class Memtable (M : Type) where
  newMemtable : M
  add : M → Key → Value → M
  get : Value → M → Key → Option Value
  toRaw : M → List KeyValue
  getSize : M → Int
  clear : M → M
  nodup_toRaw (m : M) : ((toRaw m).map Prod.fst).Nodup
  toRaw_new : toRaw newMemtable = []
  toRaw_clear (m : M) : toRaw (clear m) = []
  lookup_add (m : M) (key : Key) (value : Value) (k : Key) :
    (toRaw (add m key value)).lookup k = if k = key then some value else (toRaw m).lookup k
  get_eq (tombstone : Value) (m : M) (k : Key) :
    get tombstone m k = live tombstone ((toRaw m).lookup k)
  getSize_eq (m : M) : getSize m = ((toRaw m).map fun e => (entryBytes e.1 e.2 : Int)).sum

/-! ## Sequences of operations -/

/-- The operations that change a memtable. -/
inductive MemtableOp
  | add (key : Key) (value : Value)
  | clear
  | takeSnapshot
deriving DecidableEq, Repr

/-- What an operation makes of the value of a key. -/
def MemtableOp.apply (key : Key) (old : Option Value) : MemtableOp → Option Value
  | .add k value => if key = k then some value else old
  | .clear => none
  | .takeSnapshot => none

/-- The last value that has been added for a key, unless the memtable has been emptied since. -/
def lastAdded (ops : List MemtableOp) (key : Key) : Option Value :=
  ops.foldl (MemtableOp.apply key) none

/-- The map from keys to last values, in the order of the keys. -/
structure ListsLast (ops : List MemtableOp) (raw : List KeyValue) : Prop where
  ascending : Ascending raw
  lookup_eq : ∀ key, raw.lookup key = lastAdded ops key

theorem lastAdded_concat :
    lastAdded (ops ++ [op]) key = MemtableOp.apply key (lastAdded ops key) op := by
  rw [lastAdded, List.foldl_append, List.foldl_cons, List.foldl_nil, lastAdded]

theorem listsLast_nil : ListsLast [] [] := ⟨.nil, fun _ => rfl⟩

theorem ListsLast.add (h : ListsLast ops raw) (key : Key) (value : Value) :
    ListsLast (ops ++ [.add key value]) (put key value raw) where
  ascending := ascending_put h.ascending
  lookup_eq k := by
    rw [lookup_put h.ascending, lastAdded_concat, h.lookup_eq, MemtableOp.apply]
    congr

theorem listsLast_clear : ListsLast (ops ++ [.clear]) [] :=
  ⟨.nil, fun key => by rw [lastAdded_concat]; rfl⟩

theorem listsLast_takeSnapshot : ListsLast (ops ++ [.takeSnapshot]) [] :=
  ⟨.nil, fun key => by rw [lastAdded_concat]; rfl⟩

/-- A memtable whose operations return and change its listing as a map changes: after every sequence
of operations it lists the last values. -/
theorem exists_run_listsLast {σ : Type} {s₀ : σ} {step : System σ MemtableOp}
    {Lists : σ → List KeyValue → Prop} (hnew : Lists s₀ [])
    (hadd : ∀ {s raw} (key : Key) (value : Value), Lists s raw →
      ∃ s', step s (.add key value) = some s' ∧ Lists s' (put key value raw))
    (hclear : ∀ {s raw}, Lists s raw → ∃ s', step s .clear = some s' ∧ Lists s' [])
    (hsnapshot : ∀ {s raw}, Lists s raw → ∃ s', step s .takeSnapshot = some s' ∧ Lists s' [])
    (ops : List MemtableOp) :
    ∃ s raw, step.run s₀ ops = some s ∧ Lists s raw ∧ ListsLast ops raw := by
  induction ops using List.reverseRecOn with
  | nil => exact ⟨s₀, [], rfl, hnew, listsLast_nil⟩
  | append_singleton ops op ih =>
    obtain ⟨s, raw, hrun, hlists, hlast⟩ := ih
    cases op with
    | add key value =>
      obtain ⟨s', hstep, hlists'⟩ := hadd key value hlists
      exact ⟨s', _, System.run_concat.mpr ⟨s, hrun, hstep⟩, hlists', hlast.add key value⟩
    | clear =>
      obtain ⟨s', hstep, hlists'⟩ := hclear hlists
      exact ⟨s', _, System.run_concat.mpr ⟨s, hrun, hstep⟩, hlists', listsLast_clear⟩
    | takeSnapshot =>
      obtain ⟨s', hstep, hlists'⟩ := hsnapshot hlists
      exact ⟨s', _, System.run_concat.mpr ⟨s, hrun, hstep⟩, hlists', listsLast_takeSnapshot⟩

/-! ## The hash map -/

/-- The entries of a Go map as a list. -/
def rawEntries (l : List (Sigma fun _ : Key => Value)) : List KeyValue := l.map fun e => (e.1, e.2)

theorem lookup_rawEntries {l : List (Sigma fun _ : Key => Value)} :
    (rawEntries l).lookup k = l.dlookup k := by
  induction l with
  | nil => rfl
  | cons e l ih =>
    by_cases h : k = e.1
    · subst h
      rw [List.dlookup_cons_eq]
      simp [rawEntries]
    · rw [List.dlookup_cons_ne _ _ h, ← ih, rawEntries, List.map_cons, List.lookup_cons,
        beq_eq_false_iff_ne.mpr h]
      rfl

def sizeOfEntries (l : List (Sigma fun _ : Key => Value)) : Int :=
  (l.map fun e => (entryBytes e.1 e.2 : Int)).sum

theorem sizeOfEntries_kerase {l : List (Sigma fun _ : Key => Value)}
    (h : l.dlookup k = some v) :
    sizeOfEntries (l.kerase k) + entryBytes k v = sizeOfEntries l := by
  induction l with
  | nil => cases h
  | cons e l ih =>
    by_cases hk : k = e.1
    · subst hk
      rw [List.dlookup_cons_eq] at h
      cases h
      rw [List.kerase_cons_eq rfl]
      simp [sizeOfEntries, add_comm]
    · rw [List.dlookup_cons_ne _ _ hk] at h
      rw [List.kerase_cons_ne hk]
      have := ih h
      simp only [sizeOfEntries, List.map_cons, List.sum_cons] at this ⊢
      omega

theorem sizeOfEntries_nil : 0 = sizeOfEntries [] := rfl

/-- `HashMap`; `byteSize` is kept equal to the size of the entries. -/
structure HashMap where
  data : AList fun _ : Key => Value
  byteSize : Int
  byteSize_eq : byteSize = sizeOfEntries data.entries

namespace HashMap

/-- `NewHashMap`. -/
def newHashMap : HashMap := ⟨∅, 0, sizeOfEntries_nil⟩

/-- The change of `byteSize` that `Add` makes. -/
def addedBytes (h : HashMap) (key : Key) (value : Value) : Int :=
  match h.data.lookup key with
  | some old => entryBytes key value - entryBytes key old
  | none => entryBytes key value

/-- `HashMap.Add`. -/
def add (h : HashMap) (key : Key) (value : Value) : HashMap where
  data := h.data.insert key value
  byteSize := h.byteSize + h.addedBytes key value
  byteSize_eq := by
    have hsum : sizeOfEntries (h.data.insert key value).entries =
        entryBytes key value + sizeOfEntries (h.data.entries.kerase key) := by
      rw [AList.entries_insert]
      simp [sizeOfEntries]
    rw [hsum, h.byteSize_eq, addedBytes]
    cases hold : h.data.lookup key with
    | none =>
      rw [List.kerase_of_notMem_keys (by rwa [← List.dlookup_eq_none])]
      exact add_comm _ _
    | some old =>
      have := sizeOfEntries_kerase hold
      simp only
      omega

/-- `HashMap.Get`. -/
def get (tombstone : Value) (h : HashMap) (key : Key) : Option Value :=
  match h.data.lookup key with
  | none => none
  | some value => if value = tombstone then none else some value

/-- `HashMap.ToRaw`. -/
def toRaw (h : HashMap) : List KeyValue := rawEntries h.data.entries

/-- `HashMap.GetSize`. -/
def getSize (h : HashMap) : Int := h.byteSize

/-- `HashMap.Clear`. -/
def clear (_ : HashMap) : HashMap := newHashMap

theorem lookup_toRaw (h : HashMap) : h.toRaw.lookup k = h.data.lookup k := lookup_rawEntries

end HashMap

instance : Memtable HashMap where
  newMemtable := .newHashMap
  add := HashMap.add
  get := HashMap.get
  toRaw := HashMap.toRaw
  getSize := HashMap.getSize
  clear := HashMap.clear
  nodup_toRaw h := by
    have := h.data.nodupKeys
    rw [List.NodupKeys, List.keys] at this
    simpa [HashMap.toRaw, rawEntries, Function.comp_def] using this
  toRaw_new := rfl
  toRaw_clear _ := rfl
  lookup_add h key value k := by
    rw [HashMap.lookup_toRaw, HashMap.lookup_toRaw]
    by_cases hk : k = key
    · subst hk
      rw [if_pos rfl]
      exact AList.lookup_insert _
    · rw [if_neg hk]
      exact AList.lookup_insert_ne hk
  get_eq tombstone h k := by
    rw [HashMap.lookup_toRaw, HashMap.get]
    cases h.data.lookup k with
    | none => rfl
    | some v => exact live_some.symm
  getSize_eq h := by
    rw [HashMap.getSize, h.byteSize_eq]
    simp [sizeOfEntries, HashMap.toRaw, rawEntries, Function.comp_def]

end ChudDB
