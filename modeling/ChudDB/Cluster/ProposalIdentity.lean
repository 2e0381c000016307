import ChudDB.Cluster.Scheduler

/-! # What a proposal identifier stands for

`ProposalID` (`proposal.go`) hashes the ranges in the order of their bounds, and the replicas of
each in order. So neither order of the proposal matters, and the counts and lengths in front of the
parts make the hashed stream readable: it determines the bounds and the replicas of every range
(`proposalStream_eq_iff`). -/

namespace ChudDB.Cluster
open Lib

/-- The bounds of a range, which `ProposalID` sorts by. -/
def Range.bounds (r : Range) : Bytes × Bytes := (r.start, r.end_)

/-- What `ProposalID` hashes of a range. -/
def Range.triple (r : Range) : Bytes × Bytes × List NodeID :=
  (r.start, r.end_, r.replicas.insertionSort (· ≤ ·))

/-- One proposal is the other one with its ranges and the replicas of each in another order. -/
def Rearranged (a b : List Range) : Prop :=
  ∃ mid, a.Perm mid ∧ List.Forall₂
    (fun r r' => r.start = r'.start ∧ r.end_ = r'.end_ ∧ r.replicas.Perm r'.replicas) mid b

/-- The lengths are those that `len` returns. -/
structure LengthsFit (ranges : List Range) : Prop where
  length : ranges.length < 2 ^ 63
  start : ∀ r ∈ ranges, r.start.length < 2 ^ 63
  end_ : ∀ r ∈ ranges, r.end_.length < 2 ^ 63
  replicas : ∀ r ∈ ranges, r.replicas.length < 2 ^ 63
  replica : ∀ r ∈ ranges, ∀ node ∈ r.replicas, node.length < 2 ^ 63

variable {a b : List Range} {r r' : Range}

/-! ## The order of the parts -/

/-- What is hashed of the ranges, in the order in which it is. -/
def sortedTriples (ranges : List Range) : List (Bytes × Bytes × List NodeID) :=
  (canonicalRanges ranges).map fun r => (r.start, r.end_, r.replicas)

theorem sortedTriples_perm (ranges : List Range) :
    (sortedTriples ranges).Perm (ranges.map Range.triple) := by
  have hperm := (List.perm_insertionSort (fun a b : Range =>
    a.start < b.start ∨ a.start = b.start ∧ a.end_ ≤ b.end_) (ranges.map fun r =>
      { r with replicas := r.replicas.insertionSort (· ≤ ·) })).map
    fun r => (r.start, r.end_, r.replicas)
  rwa [List.map_map] at hperm

theorem sortedTriples_pairwise (ranges : List Range) :
    (sortedTriples ranges).Pairwise fun t t' => toLex (t.1, t.2.1) ≤ toLex (t'.1, t'.2.1) := by
  have hle : ∀ r r' : Range, (r.start < r'.start ∨ r.start = r'.start ∧ r.end_ ≤ r'.end_) ↔
      toLex (r.start, r.end_) ≤ toLex (r'.start, r'.end_) := by
    intro r r'
    rw [Prod.Lex.toLex_le_toLex]
  have : Std.Total fun a b : Range => a.start < b.start ∨ a.start = b.start ∧ a.end_ ≤ b.end_ :=
    ⟨fun r r' => by simpa only [hle] using le_total _ _⟩
  have : IsTrans Range fun a b => a.start < b.start ∨ a.start = b.start ∧ a.end_ ≤ b.end_ :=
    ⟨fun r r' r'' => by simpa only [hle] using le_trans⟩
  rw [sortedTriples, List.pairwise_map]
  exact (List.pairwise_insertionSort _ _).imp (hle _ _).mp

theorem nodup_bounds_triples (h : (a.map Range.bounds).Nodup) :
    ((a.map Range.triple).map fun t => (t.1, t.2.1)).Nodup := by
  rwa [List.map_map]

/-- Ranges with distinct bounds have only one order. -/
theorem sortedTriples_eq_iff (ha : (a.map Range.bounds).Nodup) (hb : (b.map Range.bounds).Nodup) :
    sortedTriples a = sortedTriples b ↔ ∀ t, t ∈ a.map Range.triple ↔ t ∈ b.map Range.triple := by
  constructor
  · intro h t
    rw [← (sortedTriples_perm a).mem_iff, h, (sortedTriples_perm b).mem_iff]
  · intro h
    have hperm : (a.map Range.triple).Perm (b.map Range.triple) :=
      (List.perm_ext_iff_of_nodup (nodup_bounds_triples ha).of_map
        (nodup_bounds_triples hb).of_map).mpr h
    have hsorted := (sortedTriples_perm a).trans (hperm.trans (sortedTriples_perm b).symm)
    refine hsorted.eq_of_pairwise (fun t t' ht ht' hle hge => ?_) (sortedTriples_pairwise a)
      (sortedTriples_pairwise b)
    refine List.inj_on_of_nodup_map (nodup_bounds_triples ha) ?_ ?_
      (toLex.injective (le_antisymm hle hge))
    · exact (sortedTriples_perm a).mem_iff.mp ht
    · exact (h t').mpr ((sortedTriples_perm b).mem_iff.mp ht')

theorem Range.triple_eq (hstart : r.start = r'.start) (hend : r.end_ = r'.end_)
    (hreplicas : r.replicas.Perm r'.replicas) : r.triple = r'.triple := by
  have hsorted : (r.replicas.insertionSort (· ≤ ·)).Perm (r'.replicas.insertionSort (· ≤ ·)) :=
    (List.perm_insertionSort _ _).trans (hreplicas.trans (List.perm_insertionSort _ _).symm)
  rw [triple, triple, hstart, hend,
    hsorted.eq_of_pairwise' (List.pairwise_insertionSort _ _) (List.pairwise_insertionSort _ _)]

theorem Rearranged.mem_triples (h : Rearranged a b) :
    ∀ t, t ∈ a.map Range.triple ↔ t ∈ b.map Range.triple := by
  obtain ⟨mid, hperm, hmid⟩ := h
  have htriples : mid.map Range.triple = b.map Range.triple := by
    induction hmid generalizing a with
    | nil => rfl
    | cons h _ ih =>
      rw [List.map_cons, List.map_cons, Range.triple_eq h.1 h.2.1 h.2.2, ih (List.Perm.refl _)]
  intro t
  rw [← htriples]
  exact (hperm.map Range.triple).mem_iff

/-! ## The hashed stream -/

def tripleBytes (t : Bytes × Bytes × List NodeID) : Bytes :=
  lengthPrefixed t.1 ++ (lengthPrefixed t.2.1 ++ counted (beBytes 8) lengthPrefixed t.2.2)

theorem proposalStream_eq (ranges : List Range) :
    proposalStream ranges = counted (beBytes 8) tripleBytes (sortedTriples ranges) := by
  simp only [proposalStream, counted, sortedTriples, List.length_map, List.flatMap_map, tripleBytes,
    List.append_assoc]

theorem selfDelimiting_tripleBytes :
    SelfDelimiting tripleBytes fun t => t.1.length < 2 ^ 64 ∧ t.2.1.length < 2 ^ 64 ∧
      t.2.2.length < 2 ^ 64 ∧ ∀ node ∈ t.2.2, node.length < 2 ^ 64 :=
  selfDelimiting_lengthPrefixed.pair
    (selfDelimiting_lengthPrefixed.pair (selfDelimiting_beBytes.counted selfDelimiting_lengthPrefixed))

theorem LengthsFit.sortedTriples (h : LengthsFit a) : (sortedTriples a).length < 2 ^ 64 ∧
    ∀ t ∈ sortedTriples a, t.1.length < 2 ^ 64 ∧ t.2.1.length < 2 ^ 64 ∧
      t.2.2.length < 2 ^ 64 ∧ ∀ node ∈ t.2.2, node.length < 2 ^ 64 := by
  have hlt : ∀ {n : Nat}, n < 2 ^ 63 → n < 2 ^ 64 := fun h => h.trans (by decide)
  constructor
  · rw [(sortedTriples_perm a).length_eq, List.length_map]
    exact hlt h.length
  · intro t ht
    obtain ⟨r, hr, rfl⟩ := List.mem_map.mp ((sortedTriples_perm a).mem_iff.mp ht)
    refine ⟨hlt (h.start r hr), hlt (h.end_ r hr), ?_, fun node hnode => ?_⟩
    · rw [Range.triple, List.length_insertionSort]
      exact hlt (h.replicas r hr)
    · exact hlt (h.replica r hr node ((List.mem_insertionSort _).mp hnode))

/-- The stream stands for the set of what it says of the ranges. -/
theorem proposalStream_eq_iff (ha : (a.map Range.bounds).Nodup) (hb : (b.map Range.bounds).Nodup)
    (hfit : LengthsFit a) (hfit' : LengthsFit b) :
    proposalStream a = proposalStream b ↔ ∀ t, t ∈ a.map Range.triple ↔ t ∈ b.map Range.triple := by
  rw [← sortedTriples_eq_iff ha hb, proposalStream_eq, proposalStream_eq]
  constructor
  · intro h
    have hcounted : SelfDelimiting (counted (beBytes 8) tripleBytes) _ :=
      selfDelimiting_beBytes.counted selfDelimiting_tripleBytes
    refine (hcounted _ _ hfit.sortedTriples hfit'.sortedTriples [] [] ?_).1
    rw [h]
  · intro h
    rw [h]

/-! ## The identifier -/

theorem hexDigit_inj {m n : UInt8} (hm : m < 16) (hn : n < 16) (h : hexDigit m = hexDigit n) :
    m = n := by
  rw [hexDigit, hexDigit] at h
  grind

theorem hexEncode_inj {x y : Bytes} (h : hexEncode x = hexEncode y) : x = y := by
  have hdelimits : SelfDelimiting (fun x : UInt8 => [hexDigit (x / 16), hexDigit (x % 16)])
      fun _ => True := by
    intro x y _ _ s t heq
    simp only [List.cons_append, List.nil_append, List.cons.injEq] at heq
    obtain ⟨hhigh, hlow, hrest⟩ := heq
    have hdiv : x / 16 = y / 16 := hexDigit_inj (by grind) (by grind) hhigh
    have hmod : x % 16 = y % 16 := hexDigit_inj (by grind) (by grind) hlow
    refine ⟨?_, hrest⟩
    grind
  exact hdelimits.flatMap_inj (fun _ => List.cons_ne_nil _ _) (fun _ _ => trivial)
    (fun _ _ => trivial) h

theorem Range.mem_replicas_of_triple_eq (h : r.triple = r'.triple) (node : NodeID) :
    node ∈ r.replicas ↔ node ∈ r'.replicas := by
  have hreplicas : r.replicas.insertionSort (· ≤ ·) = r'.replicas.insertionSort (· ≤ ·) :=
    congrArg (fun t => t.2.2) h
  rw [← List.mem_insertionSort (· ≤ ·), hreplicas, List.mem_insertionSort]

/-- The hashed stream ignores the order of the ranges and of their replicas, and nothing else of
them. With a hash that tells the two streams apart, the identifiers of two proposals are equal
exactly if the proposals say the same; a range whose bounds or whose set of replicas the other
proposal does not have makes them differ. -/
theorem proposalID_canonical (ha : (a.map Range.bounds).Nodup) (hb : (b.map Range.bounds).Nodup)
    (hfit : LengthsFit a) (hfit' : LengthsFit b) :
    (Rearranged a b → proposalStream a = proposalStream b) ∧
    (proposalStream a = proposalStream b →
      ∀ t, t ∈ a.map Range.triple ↔ t ∈ b.map Range.triple) ∧
    ∀ sha256 : Bytes → Bytes,
      (sha256 (proposalStream a) = sha256 (proposalStream b) →
        proposalStream a = proposalStream b) →
      (proposalID sha256 a = proposalID sha256 b ↔
        ∀ t, t ∈ a.map Range.triple ↔ t ∈ b.map Range.triple) ∧
      ∀ r ∈ a, (∀ r' ∈ b, r.bounds = r'.bounds →
          ¬∀ node, node ∈ r.replicas ↔ node ∈ r'.replicas) →
        proposalID sha256 a ≠ proposalID sha256 b := by
  have hstream := proposalStream_eq_iff ha hb hfit hfit'
  refine ⟨fun h => hstream.mpr h.mem_triples, hstream.mp, fun sha256 hsha256 => ?_⟩
  have hid : proposalID sha256 a = proposalID sha256 b ↔
      ∀ t, t ∈ a.map Range.triple ↔ t ∈ b.map Range.triple := by
    rw [← hstream]
    constructor
    · exact fun h => hsha256 (hexEncode_inj h)
    · intro h
      rw [proposalID, h, proposalID]
  refine ⟨hid, fun r hr hdiffers heq => ?_⟩
  obtain ⟨r', hr', htriple⟩ := List.mem_map.mp ((hid.mp heq r.triple).mp (List.mem_map_of_mem hr))
  have hbounds : r.bounds = r'.bounds := congrArg (fun t => (t.1, t.2.1)) htriple.symm
  exact hdiffers r' hr' hbounds (Range.mem_replicas_of_triple_eq htriple.symm)

/-- Two orders of one proposal, and another assignment of a replica. -/
theorem proposalID_canonical_reordered :
    proposalStream [⟨[109], [], [[2], [1]], 1, []⟩, ⟨[], [109], [[3]], 1, []⟩] =
      proposalStream [⟨[], [109], [[3]], 1, []⟩, ⟨[109], [], [[1], [2]], 1, []⟩] ∧
    proposalID id [⟨[], [], [[1]], 1, []⟩] ≠ proposalID id [⟨[], [], [[2]], 1, []⟩] := by
  constructor
  · refine (proposalID_canonical (by decide) (by decide) ⟨by decide, by decide, by decide,
      by decide, by decide⟩ ⟨by decide, by decide, by decide, by decide, by decide⟩).1 ?_
    exact ⟨_, .swap _ _ _, .cons ⟨rfl, rfl, .refl _⟩ (.cons ⟨rfl, rfl, .swap _ _ _⟩ .nil)⟩
  · refine ((proposalID_canonical (by decide) (by decide) ⟨by decide, by decide, by decide,
      by decide, by decide⟩ ⟨by decide, by decide, by decide, by decide, by decide⟩).2.2 id id).2
      ⟨[], [], [[1]], 1, []⟩ List.mem_cons_self ?_
    intro r' hr' _ hsame
    cases List.mem_singleton.mp hr'
    exact absurd ((hsame [1]).mp List.mem_cons_self) (by decide)

end ChudDB.Cluster
