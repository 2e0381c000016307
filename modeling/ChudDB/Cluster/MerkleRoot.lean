import ChudDB.Lib.Bytes
import ChudDB.Lib.SortedMap

/-! # The Merkle root

`ComputeMerkleRoot` (`roothash.go`) hashes the entries of a range in the order of their keys, each
key and each value behind its length. What is hashed determines the entries, and the order of the
scan does not matter (`merkleRoot_identifies`). The hash is a parameter. -/

namespace ChudDB.Cluster
open Lib

/-- `RawEntry`. -/
abbrev RawEntry := Bytes × Bytes

/-- `writeLengthPrefixed`. -/
def lengthPrefixed (s : Bytes) : Bytes := beBytes 8 s.length ++ s

/-- What `ComputeMerkleRoot` feeds to the digest. -/
def merkleStream (entries : List RawEntry) : Bytes :=
  (entries.insertionSort (·.1 ≤ ·.1)).flatMap fun e => lengthPrefixed e.1 ++ lengthPrefixed e.2

/-- `ComputeMerkleRoot` over the entries of a range. -/
def computeMerkleRoot (digest : Bytes → Bytes) (entries : List RawEntry) : Bytes × Nat :=
  (digest (merkleStream entries), entries.length)

/-- A string can be told from what follows it, if its length fits the prefix. -/
theorem selfDelimiting_lengthPrefixed :
    SelfDelimiting lengthPrefixed fun s => s.length < 2 ^ 64 := by
  intro a b ha hb x y h
  rw [lengthPrefixed, lengthPrefixed, List.append_assoc, List.append_assoc] at h
  obtain ⟨hlength, hrest⟩ := selfDelimiting_beBytes _ _ ha hb _ _ h
  exact List.append_inj hrest hlength

theorem lengthPrefixed_ne_nil (s : Bytes) : lengthPrefixed s ≠ [] := by
  intro h
  have hlen := congrArg List.length h
  rw [lengthPrefixed, List.length_append, length_beBytes, List.length_nil] at hlen
  omega

/-- The entries can be read back from what is hashed. -/
theorem flatMap_lengthPrefixed_inj {l l' : List RawEntry}
    (hl : ∀ e ∈ l, e.1.length < 2 ^ 64 ∧ e.2.length < 2 ^ 64)
    (hl' : ∀ e ∈ l', e.1.length < 2 ^ 64 ∧ e.2.length < 2 ^ 64)
    (h : (l.flatMap fun e => lengthPrefixed e.1 ++ lengthPrefixed e.2) =
      l'.flatMap fun e => lengthPrefixed e.1 ++ lengthPrefixed e.2) : l = l' :=
  (selfDelimiting_lengthPrefixed.pair selfDelimiting_lengthPrefixed).flatMap_inj
    (fun e => List.append_ne_nil_of_left_ne_nil (lengthPrefixed_ne_nil e.1) _) hl hl' h

section
variable {entries entries' : List RawEntry}

/-- The stream stands for the map of the entries: it is the same for two scans exactly if they
return the same map. -/
theorem merkleStream_eq_iff (hkeys : (entries.map Prod.fst).Nodup)
    (hkeys' : (entries'.map Prod.fst).Nodup)
    (hlen : ∀ e ∈ entries, e.1.length < 2 ^ 64 ∧ e.2.length < 2 ^ 64)
    (hlen' : ∀ e ∈ entries', e.1.length < 2 ^ 64 ∧ e.2.length < 2 ^ 64) :
    merkleStream entries = merkleStream entries' ↔
      ∀ key, entries.lookup key = entries'.lookup key := by
  rw [← insertionSort_eq_iff hkeys hkeys']
  constructor
  · intro h
    refine flatMap_lengthPrefixed_inj ?_ ?_ h
    · exact fun e he => hlen e ((List.mem_insertionSort _).mp he)
    · exact fun e he => hlen' e ((List.mem_insertionSort _).mp he)
  · intro h
    rw [merkleStream, h, merkleStream]

/-- A digest that tells the two streams apart makes root and count a name for the contents. The
lengths are those that `len` returns. -/
theorem merkleRoot_identifies (hkeys : (entries.map Prod.fst).Nodup)
    (hkeys' : (entries'.map Prod.fst).Nodup)
    (hlen : ∀ e ∈ entries, e.1.length < 2 ^ 63 ∧ e.2.length < 2 ^ 63)
    (hlen' : ∀ e ∈ entries', e.1.length < 2 ^ 63 ∧ e.2.length < 2 ^ 63) :
    (merkleStream entries = merkleStream entries' ↔
      ∀ key, entries.lookup key = entries'.lookup key) ∧
    ∀ digest : Bytes → Bytes,
      (digest (merkleStream entries) = digest (merkleStream entries') →
        merkleStream entries = merkleStream entries') →
      (computeMerkleRoot digest entries = computeMerkleRoot digest entries' ↔
        ∀ key, entries.lookup key = entries'.lookup key) := by
  have hstream := merkleStream_eq_iff hkeys hkeys'
    (fun e he => ⟨(hlen e he).1.trans (by decide), (hlen e he).2.trans (by decide)⟩)
    (fun e he => ⟨(hlen' e he).1.trans (by decide), (hlen' e he).2.trans (by decide)⟩)
  refine ⟨hstream, fun digest hdigest => ?_⟩
  constructor
  · intro h
    exact hstream.mp (hdigest (Prod.mk.inj h).1)
  · intro h
    have hlength : entries.length = entries'.length := by
      rw [← List.length_insertionSort (·.1 ≤ ·.1) entries,
        (insertionSort_eq_iff hkeys hkeys').mpr h, List.length_insertionSort]
    rw [computeMerkleRoot, computeMerkleRoot, hstream.mpr h, hlength]

end

/-- Two orders of one map, and a map that splits the same bytes elsewhere. -/
theorem merkleRoot_identifies_reordered :
    merkleStream [([98], [1]), ([97], [2, 3])] = merkleStream [([97], [2, 3]), ([98], [1])] ∧
    merkleStream [([97], [2, 3]), ([98], [1])] ≠ merkleStream [([97, 2], [3]), ([98], [1])] := by
  constructor
  · exact (merkleRoot_identifies (by decide) (by decide) (by decide) (by decide)).1.mpr fun key => by
      simp only [List.lookup_cons, List.lookup_nil]
      by_cases h97 : key = [97]
      · subst h97
        decide
      · rw [beq_eq_false_iff_ne.mpr h97]
  · intro h
    have hlookup := (merkleRoot_identifies (by decide) (by decide) (by decide) (by decide)).1.mp h
      [97]
    exact absurd hlookup (by decide)

end ChudDB.Cluster
