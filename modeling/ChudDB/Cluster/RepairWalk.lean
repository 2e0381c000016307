import ChudDB.Cluster.RepairRound

/-! # The walk of a repair round

`diffNode` compares roots, and where they differ it goes on with the buckets of the range. The
buckets are disjoint, so what is done in one of them leaves the roots of the others alone, and the
walk can be judged by the stores that it started with (`diffNode_spec`). Of the hash it is assumed
that it does not collide on the rows of the two stores. A bucket that ends before it starts is
refused by the peer (`ownsRange_of_inverted`), and its keys are left as they were. So are those of a
bucket whose ends gRPC refuses: the boundaries of `SplitRange` are any eight bytes. -/

namespace ChudDB.Cluster
open Lib

/-! ## Equal roots -/

/-- What is assumed of the contents and of the hash: strings are valid UTF-8 and of representable
length, and two different lists of rows of a range have different digests. -/
structure RepairScheduler.Hashes (c : RepairScheduler) (st : Stores) : Prop where
  own : ∀ key e, st.own.get key = some e →
    e.Text ∧ key.length < 2 ^ 64 ∧ (magicPrefix ++ c.json.marshal e).length < 2 ^ 64
  peer : ∀ key e, st.peer.get key = some e →
    e.Text ∧ key.length < 2 ^ 64 ∧ (magicPrefix ++ c.json.marshal e).length < 2 ^ 64
  noCollision : ∀ start end_,
    c.digest (merkleStream (c.rawEntries (st.own.scanRawRange start end_))) =
      c.digest (merkleStream (c.rawEntries (st.peer.scanRawRange start end_))) →
    merkleStream (c.rawEntries (st.own.scanRawRange start end_)) =
      merkleStream (c.rawEntries (st.peer.scanRawRange start end_))

namespace RepairScheduler
variable {c : RepairScheduler} {st st₀ st' : Stores} {start end_ key : Bytes}

theorem rawEntries_injective (hj : c.json.RoundTrips) {rows rows' : List KeyEnvelope}
    (hrows : ∀ row ∈ rows, row.2.Text) (hrows' : ∀ row ∈ rows', row.2.Text)
    (h : c.rawEntries rows = c.rawEntries rows') : rows = rows' := by
  induction rows generalizing rows' with
  | nil => exact (List.map_eq_nil_iff.mp h.symm).symm
  | cons row rows ih =>
    cases rows' with
    | nil => cases h
    | cons row' rows' =>
      rw [rawEntries, rawEntries, List.map_cons, List.map_cons] at h
      obtain ⟨hrow, hrest⟩ := List.cons.inj h
      obtain ⟨hkey, hvalue⟩ := Prod.mk.inj hrow
      have hmarshal := congrArg c.json.unmarshal (List.append_cancel_left hvalue)
      rw [hj _ (hrows row List.mem_cons_self), hj _ (hrows' row' List.mem_cons_self)] at hmarshal
      rw [Prod.ext hkey (Option.some.inj hmarshal), ih
        (fun row hrow => hrows row (List.mem_cons_of_mem _ hrow))
        (fun row hrow => hrows' row (List.mem_cons_of_mem _ hrow)) hrest]

theorem merkleStream_rawEntries {rows : List KeyEnvelope} (h : Ascending rows) :
    merkleStream (c.rawEntries rows) =
      (c.rawEntries rows).flatMap fun e => lengthPrefixed e.1 ++ lengthPrefixed e.2 := by
  have hascending : Ascending (c.rawEntries rows) := by
    rw [Ascending, rawEntries, List.map_map]
    exact h
  rw [merkleStream, insertionSort_of_ascending hascending]

/-- Equal roots mean equal rows. -/
theorem scanRawRange_eq_of_merkleRoot_eq (hj : c.json.RoundTrips) (hst : c.Hashes st)
    (h : c.merkleRoot st.own start end_ = c.merkleRoot st.peer start end_) :
    st.own.scanRawRange start end_ = st.peer.scanRawRange start end_ := by
  have hown := fun row (hrow : row ∈ st.own.scanRawRange start end_) =>
    hst.own _ _ (NodeStore.get_of_mem_scanRawRange hrow)
  have hpeer := fun row (hrow : row ∈ st.peer.scanRawRange start end_) =>
    hst.peer _ _ (NodeStore.get_of_mem_scanRawRange hrow)
  obtain ⟨hdigest, hcount⟩ := Prod.mk.inj h
  have hstream := hst.noCollision start end_ hdigest
  rw [merkleStream_rawEntries NodeStore.ascending_scanRawRange,
    merkleStream_rawEntries NodeStore.ascending_scanRawRange] at hstream
  refine rawEntries_injective hj (fun row hrow => (hown row hrow).1)
    (fun row hrow => (hpeer row hrow).1) (flatMap_lengthPrefixed_inj ?_ ?_ hstream)
  · intro e he
    obtain ⟨row, hrow, rfl⟩ := List.mem_map.mp he
    exact (hown row hrow).2
  · intro e he
    obtain ⟨row, hrow, rfl⟩ := List.mem_map.mp he
    exact (hpeer row hrow).2

end RepairScheduler

/-! ## Stores that agree on a range -/

/-- The same contents on the keys of a range. -/
structure Agree (start end_ : Bytes) (st st' : Stores) : Prop where
  own : ∀ key, Scanned start end_ key → st'.own.get key = st.own.get key
  peer : ∀ key, Scanned start end_ key → st'.peer.get key = st.peer.get key

section Agree
variable {st st' st'' : Stores} {start end_ prev key : Bytes} {v : Nat}

theorem Agree.refl (st : Stores) : Agree start end_ st st := ⟨fun _ _ => rfl, fun _ _ => rfl⟩

theorem Agree.mono {lo hi : Bytes} (h : Agree start end_ st st')
    (hsub : ∀ key, Scanned lo hi key → Scanned start end_ key) : Agree lo hi st st' :=
  ⟨fun key hkey => h.own key (hsub key hkey), fun key hkey => h.peer key (hsub key hkey)⟩

theorem Agree.trans_left (h : Agree start end_ st' st'') (h' : Agree start end_ st st') :
    Agree start end_ st st'' :=
  ⟨fun key hkey => (h.own key hkey).trans (h'.own key hkey),
    fun key hkey => (h.peer key hkey).trans (h'.peer key hkey)⟩

theorem scanRawRange_congr {s s' : NodeStore}
    (h : ∀ key, Scanned start end_ key → s'.get key = s.get key) :
    s'.scanRawRange start end_ = s.scanRawRange start end_ := by
  refine Ascending.ext NodeStore.ascending_scanRawRange NodeStore.ascending_scanRawRange fun key => ?_
  rw [NodeStore.lookup_scanRawRange, NodeStore.lookup_scanRawRange]
  split
  · rename_i hkey
    exact h key hkey
  · rfl

/-- Nothing is done where both sides have the same rows. -/
theorem repairs_refl (h : ∀ key, Scanned start end_ key → st.own.get key = st.peer.get key) :
    Repairs start end_ st st := by
  refine ⟨fun key => ?_, fun key => ?_⟩
  · split
    · rename_i hkey
      rw [h key hkey, settle_of_not_older not_older_self]
    · rfl
  · split
    · rename_i hkey
      rw [h key hkey, settle_of_not_older not_older_self]
    · rfl

/-- What is done in front of a boundary is not seen behind it. -/
theorem Repairs.agree_right (h : Repairs prev (uint64ToBytes v) st st') (hlt : prev < uint64ToBytes v)
    (hlt' : end_ ≠ [] → uint64ToBytes v < end_) : Agree (uint64ToBytes v) end_ st st' := by
  have hout : ∀ key, Scanned (uint64ToBytes v) end_ key → ¬ Scanned prev (uint64ToBytes v) key :=
    fun key hkey hkey' => (scanned_cut hlt hlt').2 ⟨hkey', hkey⟩
  exact ⟨fun key hkey => (h.own key).trans (if_neg (hout key hkey)),
    fun key hkey => (h.peer key).trans (if_neg (hout key hkey))⟩

/-- Repairs on both sides of a boundary. -/
theorem Repairs.trans (h : Repairs prev (uint64ToBytes v) st st')
    (h' : Repairs (uint64ToBytes v) end_ st' st'') (hlt : prev < uint64ToBytes v)
    (hlt' : end_ ≠ [] → uint64ToBytes v < end_) : Repairs prev end_ st st'' := by
  have hcut : ∀ key, (Scanned prev end_ key ↔ _) ∧ _ := fun _ => scanned_cut hlt hlt'
  have hside : ∀ {a b a' b' a'' : Option Envelope} {key : Bytes},
      (a' = if Scanned prev (uint64ToBytes v) key then settle a b else a) →
      (b' = if Scanned prev (uint64ToBytes v) key then settle b a else b) →
      (a'' = if Scanned (uint64ToBytes v) end_ key then settle a' b' else a') →
      a'' = if Scanned prev end_ key then settle a b else a := by
    intro a b a' b' a'' key ha hb ha'
    rw [ha', ha, hb]
    by_cases hleft : Scanned prev (uint64ToBytes v) key
    · have hright : ¬ Scanned (uint64ToBytes v) end_ key := fun h => (hcut key).2 ⟨hleft, h⟩
      rw [if_neg hright, if_pos hleft, if_pos ((hcut key).1.mpr (.inl hleft))]
    · by_cases hright : Scanned (uint64ToBytes v) end_ key
      · rw [if_pos hright, if_neg hleft, if_neg hleft, if_pos ((hcut key).1.mpr (.inr hright))]
      · have hnone : ¬ Scanned prev end_ key := fun h => ((hcut key).1.mp h).elim hleft hright
        rw [if_neg hright, if_neg hleft, if_neg hnone]
  exact ⟨fun key => hside (h.own key) (h.peer key) (h'.own key),
    fun key => hside (h.peer key) (h.own key) (h'.peer key)⟩

end Agree

/-! ## The walk -/

namespace RepairScheduler
variable {c : RepairScheduler} {replicas : ReplicaClient} {st st₀ : Stores} {start end_ : Bytes}
  {levels : Nat} {r : Range}

/-- The calls of the walk go through, and wherever it splits a range, none of the buckets ends before
it starts. -/
def Completes (c : RepairScheduler) (replicas : ReplicaClient) :
    Nat → Bytes → Bytes → Stores → Prop
  | 0, start, end_, st => replicas.getMerkleRoot start end_ = true ∧
    (c.merkleRoot st.own start end_ = c.merkleRoot st.peer start end_ ∨
      LeafSent replicas start end_ st)
  | levels + 1, start, end_, st => replicas.getMerkleRoot start end_ = true ∧
    (c.merkleRoot st.own start end_ = c.merkleRoot st.peer start end_ ∨
      if max (c.merkleRoot st.own start end_).2 (c.merkleRoot st.peer start end_).2 ≤
          c.leafItemThreshold then LeafSent replicas start end_ st
      else match splitRange start end_ c.fanout with
        | .error _ => False
        | .ok buckets => if buckets = [⟨start, end_⟩] then LeafSent replicas start end_ st
          else ∀ b ∈ buckets, b.Nonempty ∧ Completes c replicas levels b.start b.end_ st)

instance decidableCompletes (c : RepairScheduler) (replicas : ReplicaClient) :
    ∀ levels start end_ st, Decidable (c.Completes replicas levels start end_ st)
  | 0, _, _, _ => inferInstanceAs (Decidable (_ ∧ _))
  | levels + 1, start, end_, st =>
    have := decidableCompletes c replicas levels
    have : Decidable (match splitRange start end_ c.fanout with
        | .error _ => False
        | .ok buckets => if buckets = [⟨start, end_⟩] then LeafSent replicas start end_ st
          else ∀ b ∈ buckets, b.Nonempty ∧ Completes c replicas levels b.start b.end_ st) :=
      match splitRange start end_ c.fanout with
      | .error _ => .isFalse id
      | .ok _ => inferInstanceAs (Decidable (ite ..))
    inferInstanceAs (Decidable (_ ∧ (_ ∨ _)))

/-- A range inside one of the map. -/
structure Within (r : Range) (start end_ : Bytes) : Prop where
  le : r.start ≤ start
  lt : end_ ≠ [] → start < end_
  bounded : r.end_ ≠ [] → end_ ≠ [] ∧ end_ ≤ r.end_

/-- A replica owns every range inside its range. -/
theorem ownsRange_of_within (hvalid : c.rangeMap.validate = .ok ())
    (hr : c.rangeMap.rangeAt r.start = some r) (hnode : node ∈ r.replicas)
    (h : Within r start end_) : c.ownsRange node start end_ = true := by
  have hcovers : r.end_ = [] ∨ start < r.end_ := or_iff_not_imp_left.mpr fun hne =>
    (h.lt (h.bounded hne).1).trans_le (h.bounded hne).2
  refine RingTable.ownsRange_iff.mpr ⟨_, RangeMap.ownersForRange_eq_some_iff.mpr
    ⟨or_iff_not_imp_left.mpr h.lt, r, RangeMap.rangeAt_of_le hvalid hr h.le hcovers, ?_, rfl⟩, hnode⟩
  exact or_iff_not_imp_left.mpr h.bounded

/-- The peer refuses a range that ends before it starts. -/
theorem ownsRange_of_inverted {b : Bucket} (h : ¬ b.Nonempty) :
    c.ownsRange node b.start b.end_ = false := by
  refine Bool.eq_false_iff.mpr fun howns => h ?_
  obtain ⟨owners, howners, -⟩ := RingTable.ownsRange_iff.mp howns
  exact or_iff_not_imp_left.mp (RangeMap.ownersForRange_eq_some_iff.mp howners).1

theorem diffNode_of_refused
    (h : (c.ownsRange c.peerID start end_ && replicas.getMerkleRoot start end_) = false) :
    c.diffNode replicas levels start end_ st = (some (.peerRoot start end_), st) := by
  cases levels <;> simp only [diffNode, compareRoots, h, Bool.not_false, if_true]

/-- An error in one of the buckets is an error of the node. -/
theorem diffBuckets_ne_none {diff : Bytes → Bytes → Stores → Option RepairError × Stores}
    {b : Bucket} {buckets : List Bucket} (hb : b ∈ buckets)
    (h : ∀ st, (diff b.start b.end_ st).1 ≠ none) : (diffBuckets diff buckets st).1 ≠ none := by
  induction buckets generalizing st with
  | nil => cases hb
  | cons b' buckets ih =>
    intro hnone
    obtain ⟨hfirst, hrest⟩ := Option.or_eq_none_iff.mp hnone
    rcases List.mem_cons.mp hb with rfl | hb
    · exact h st hfirst
    · exact ih hb hrest

/-- There is no error if and only if the condition holds, and then the range is repaired. -/
structure RepairsIff (P : Prop) (start end_ : Bytes) (st : Stores)
    (out : Option RepairError × Stores) : Prop where
  none_iff : out.1 = none ↔ P
  repairs : P → Repairs start end_ st out.2

/-- The buckets of a range, one after another. -/
theorem diffBuckets_spec {diff : Bytes → Bytes → Stores → Option RepairError × Stores}
    {P : Bucket → Prop} {vs : List Nat} {prev : Bytes}
    (hnonempty : ∀ b ∈ bucketsFrom prev end_ vs, b.Nonempty)
    (hdiff : ∀ b ∈ bucketsFrom prev end_ vs, ∀ st, Agree b.start b.end_ st₀ st → st.Written →
      RepairsIff (P b) b.start b.end_ st (diff b.start b.end_ st))
    (hagree : Agree prev end_ st₀ st) (hst : st.Written) :
    RepairsIff (∀ b ∈ bucketsFrom prev end_ vs, P b) prev end_ st
      (diffBuckets diff (bucketsFrom prev end_ vs) st) := by
  induction vs generalizing prev st with
  | nil =>
    obtain ⟨hnone, hrepairs⟩ := hdiff _ List.mem_cons_self st hagree hst
    rw [bucketsFrom, List.forall_mem_singleton]
    refine ⟨?_, hrepairs⟩
    rw [← hnone]
    exact Option.or_eq_none_iff.trans (and_iff_left rfl)
  | cons v vs ih =>
    obtain ⟨hlt, hlt', hrest⟩ := cut_of_nonempty hnonempty
    have hleft : ∀ key, Scanned prev (uint64ToBytes v) key → Scanned prev end_ key := fun key hkey =>
      (scanned_cut hlt hlt').1.mpr (.inl hkey)
    have hright : ∀ key, Scanned (uint64ToBytes v) end_ key → Scanned prev end_ key := fun key hkey =>
      (scanned_cut hlt hlt').1.mpr (.inr hkey)
    obtain ⟨hnone, hrepairs⟩ := hdiff _ List.mem_cons_self st (hagree.mono hleft) hst
    rw [bucketsFrom, List.forall_mem_cons]
    -- Behind a bucket that was repaired, the others find what was there at the start.
    have hothers := fun hfirst : P ⟨prev, uint64ToBytes v⟩ =>
      ih hrest (fun b hb => hdiff b (List.mem_cons_of_mem _ hb))
        (((hrepairs hfirst).agree_right hlt hlt').trans_left (hagree.mono hright))
        ((hrepairs hfirst).written hst)
    constructor
    · refine Option.or_eq_none_iff.trans ?_
      constructor
      · rintro ⟨hfirst, hlater⟩
        exact ⟨hnone.mp hfirst, (hothers (hnone.mp hfirst)).1.mp hlater⟩
      · rintro ⟨hfirst, hlater⟩
        exact ⟨hnone.mpr hfirst, (hothers hfirst).1.mpr hlater⟩
    · rintro ⟨hfirst, hlater⟩
      exact (hrepairs hfirst).trans ((hothers hfirst).2 hlater) hlt hlt'

theorem Within.of_mem {b : Bucket} {vs : List Nat} {prev : Bytes} (h : Within r prev end_)
    (hnonempty : ∀ b ∈ bucketsFrom prev end_ vs, b.Nonempty) (hb : b ∈ bucketsFrom prev end_ vs) :
    Within r b.start b.end_ := by
  induction vs generalizing prev with
  | nil =>
    rw [List.mem_singleton.mp hb]
    exact h
  | cons v vs ih =>
    obtain ⟨hlt, hlt', hrest⟩ := cut_of_nonempty hnonempty
    rcases List.mem_cons.mp hb with rfl | hb
    · exact ⟨h.le, fun _ => hlt, fun hne =>
        ⟨uint64ToBytes_ne_nil, ((hlt' (h.bounded hne).1).trans_le (h.bounded hne).2).le⟩⟩
    · exact ih ⟨h.le.trans hlt.le, hlt', h.bounded⟩ hrest hb

/-- The roots are those of the stores that the walk started with. -/
theorem compareRoots_eq {mismatch : Nat → Option RepairError × Stores}
    (howned : c.ownsRange c.peerID start end_ = true)
    (hcall : replicas.getMerkleRoot start end_ = true) (hagree : Agree start end_ st₀ st) :
    c.compareRoots replicas start end_ st mismatch =
      if c.merkleRoot st₀.own start end_ = c.merkleRoot st₀.peer start end_ then (none, st)
      else
        mismatch (max (c.merkleRoot st₀.own start end_).2 (c.merkleRoot st₀.peer start end_).2) := by
  have hown : c.merkleRoot st.own start end_ = c.merkleRoot st₀.own start end_ := by
    rw [merkleRoot, merkleRoot, scanRawRange_congr hagree.own]
  have hpeer : c.merkleRoot st.peer start end_ = c.merkleRoot st₀.peer start end_ := by
    rw [merkleRoot, merkleRoot, scanRawRange_congr hagree.peer]
  simp only [compareRoots, hown, hpeer, howned, hcall, Bool.and_self, Bool.not_true,
    Bool.false_eq_true, if_false]
  refine if_congr ?_ rfl rfl
  rw [Prod.ext_iff, and_comm]

theorem repairs_of_merkleRoot_eq (hj : c.json.RoundTrips) (hhash : c.Hashes st₀)
    (hagree : Agree start end_ st₀ st)
    (h : c.merkleRoot st₀.own start end_ = c.merkleRoot st₀.peer start end_) :
    Repairs start end_ st st := by
  have hscan := scanRawRange_eq_of_merkleRoot_eq hj hhash h
  refine repairs_refl fun key hkey => ?_
  have hlookup := congrArg (List.lookup key) hscan
  rw [NodeStore.lookup_scanRawRange, NodeStore.lookup_scanRawRange, if_pos hkey,
    if_pos hkey] at hlookup
  rw [hagree.own key hkey, hagree.peer key hkey, hlookup]

/-- A node is done if its roots are equal, and else if what it goes on with is. -/
theorem compareRoots_spec {P : Prop} {mismatch : Nat → Option RepairError × Stores}
    (howned : c.ownsRange c.peerID start end_ = true) (hj : c.json.RoundTrips)
    (hhash : c.Hashes st₀) (hagree : Agree start end_ st₀ st)
    (hmismatch : RepairsIff P start end_ st
      (mismatch (max (c.merkleRoot st₀.own start end_).2 (c.merkleRoot st₀.peer start end_).2))) :
    RepairsIff (replicas.getMerkleRoot start end_ = true ∧
        (c.merkleRoot st₀.own start end_ = c.merkleRoot st₀.peer start end_ ∨ P))
      start end_ st (c.compareRoots replicas start end_ st mismatch) := by
  cases hcall : replicas.getMerkleRoot start end_ with
  | false =>
    rw [compareRoots, hcall, Bool.and_false]
    exact ⟨iff_of_false (Option.some_ne_none _) (by simp), by simp⟩
  | true =>
    rw [compareRoots_eq howned hcall hagree, and_iff_right rfl]
    split
    · rename_i heq
      exact ⟨iff_of_true rfl (.inl heq), fun _ => repairs_of_merkleRoot_eq hj hhash hagree heq⟩
    · rename_i hroots
      rwa [or_iff_right hroots]

section Walk
variable (hvalid : c.rangeMap.validate = .ok ()) (hr : c.rangeMap.rangeAt r.start = some r)
  (hnode : c.nodeID ∈ r.replicas) (hpeer : c.peerID ∈ r.replicas)
include hvalid hr hnode hpeer

omit hvalid hr hnode hpeer in
theorem leafSent_congr (hagree : Agree start end_ st₀ st) :
    LeafSent replicas start end_ st ↔ LeafSent replicas start end_ st₀ := by
  rw [LeafSent, LeafSent, leafDiff, leafDiff, scanRawRange_congr hagree.own,
    scanRawRange_congr hagree.peer]

theorem diffLeafOver_spec (hwithin : Within r start end_) (hagree : Agree start end_ st₀ st)
    (hst : st.Written) : RepairsIff (LeafSent replicas start end_ st₀) start end_ st
      (c.diffLeafOver replicas start end_ st) := by
  rw [← leafSent_congr hagree]
  rcases diffLeafOver_cases replicas hvalid (ownsRange_of_within hvalid hr hnode hwithin)
    (ownsRange_of_within hvalid hr hpeer hwithin) hst with ⟨hsent, heq⟩ | ⟨hnot, herr⟩
  · rw [heq]
    exact ⟨iff_of_true rfl hsent, fun _ => repairs_leafDiff start end_ st⟩
  · exact ⟨iff_of_false herr hnot, fun hsent => absurd hsent hnot⟩

/-- The walk returns an error if and only if a call fails or it meets an inverted bucket, and
otherwise it repairs the range. -/
theorem diffNode_spec (hj : c.json.RoundTrips) (hhash : c.Hashes st₀) (hfanout : 2 ≤ c.fanout)
    (hwithin : Within r start end_) (hagree : Agree start end_ st₀ st) (hst : st.Written) :
    RepairsIff (c.Completes replicas levels start end_ st₀) start end_ st
      (c.diffNode replicas levels start end_ st) := by
  induction levels generalizing start end_ st with
  | zero =>
    exact compareRoots_spec (ownsRange_of_within hvalid hr hpeer hwithin) hj hhash hagree
      (diffLeafOver_spec hvalid hr hnode hpeer hwithin hagree hst)
  | succ levels ih =>
    have hleaf : RepairsIff (LeafSent replicas start end_ st₀) start end_ st _ :=
      diffLeafOver_spec hvalid hr hnode hpeer hwithin hagree hst
    refine compareRoots_spec (ownsRange_of_within hvalid hr hpeer hwithin) hj hhash hagree ?_
    split
    · exact hleaf
    · obtain ⟨vs, hsplit⟩ : ∃ vs, splitRange start end_ c.fanout = .ok (bucketsFrom start end_ vs) :=
        splitRange_eq_ok (by omega)
      rw [hsplit]
      dsimp only
      split
      · exact hleaf
      · by_cases hnonempty : ∀ b ∈ bucketsFrom start end_ vs, b.Nonempty
        · have hall : (∀ b ∈ bucketsFrom start end_ vs,
              b.Nonempty ∧ c.Completes replicas levels b.start b.end_ st₀) ↔
              ∀ b ∈ bucketsFrom start end_ vs, c.Completes replicas levels b.start b.end_ st₀ :=
            forall₂_congr fun b hb => and_iff_right (hnonempty b hb)
          rw [hall]
          exact diffBuckets_spec hnonempty
            (fun b hb st hagree hst => ih (hwithin.of_mem hnonempty hb) hagree hst) hagree hst
        · have hnot : ¬ ∀ b ∈ bucketsFrom start end_ vs,
              b.Nonempty ∧ c.Completes replicas levels b.start b.end_ st₀ := fun hall =>
            hnonempty fun b hb => (hall b hb).1
          refine ⟨iff_of_false ?_ hnot, fun hall => absurd hall hnot⟩
          obtain ⟨b, hb, hinverted⟩ := not_forall₂.mp hnonempty
          refine diffBuckets_ne_none hb fun st => ?_
          rw [diffNode_of_refused (by rw [ownsRange_of_inverted hinverted, Bool.false_and])]
          exact Option.some_ne_none _

end Walk

/-! ## A round -/

/-- What a round over a range of the map should do: every key of the range is settled on both sides,
and no other key is touched. -/
structure RepairsRange (r : Range) (st st' : Stores) : Prop where
  own : ∀ key, st'.own.get key =
    if r.contains key then settle (st.own.get key) (st.peer.get key) else st.own.get key
  peer : ∀ key, st'.peer.get key =
    if r.contains key then settle (st.peer.get key) (st.own.get key) else st.peer.get key

/-- The keys of the range that a scan does not reach. -/
def Unreached (r : Range) (key : Bytes) : Prop := r.end_ = [] ∧ unboundedRangeEnd < key

theorem contains_iff_scanned {key : Bytes} : r.contains key = true ↔
    Scanned r.start r.end_ key ∨ r.start ≤ key ∧ Unreached r key := by
  rw [Range.contains_iff, Scanned, Unreached]
  by_cases hend : r.end_ = []
  · have hopen : HalfOpen r.start r.end_ key ↔ r.start ≤ key := and_iff_left (.inl hend)
    rw [hopen, forall_prop_of_true hend, and_iff_right hend, ← and_or_left,
      and_iff_left (le_or_gt key _)]
  · simp [hend]

theorem settle_eq_left_iff {a b : Option Envelope} : settle a b = a ↔ ¬ Older a b := by
  refine ⟨fun h holder => ?_, settle_of_not_older⟩
  rw [settle_of_older holder] at h
  exact not_older_self (h ▸ holder)

/-- A repaired range is settled if the keys that the scan does not reach were. -/
theorem repairsRange_iff {st' : Stores} (h : Repairs r.start r.end_ st st') :
    RepairsRange r st st' ↔ ∀ key, r.start ≤ key → Unreached r key →
      ¬ Older (st.own.get key) (st.peer.get key) ∧ ¬ Older (st.peer.get key) (st.own.get key) := by
  have hout : ∀ {key}, Unreached r key → ¬ Scanned r.start r.end_ key := by
    rintro key ⟨hend, hlt⟩ ⟨-, hle⟩
    exact (hle hend).not_gt hlt
  constructor
  · intro hrange key hstart hkey
    have hin : r.contains key = true := contains_iff_scanned.mpr (.inr ⟨hstart, hkey⟩)
    have hown := hrange.own key
    have hpeer := hrange.peer key
    rw [h.own, if_neg (hout hkey), if_pos hin] at hown
    rw [h.peer, if_neg (hout hkey), if_pos hin] at hpeer
    exact ⟨settle_eq_left_iff.mp hown.symm, settle_eq_left_iff.mp hpeer.symm⟩
  · intro hfar
    have hside : ∀ {a b : Option Envelope} {key : Bytes},
        (r.start ≤ key → Unreached r key → ¬ Older a b) →
        (if Scanned r.start r.end_ key then settle a b else a) =
          if r.contains key = true then settle a b else a := by
      intro a b key hnot
      by_cases hkey : Scanned r.start r.end_ key
      · rw [if_pos hkey, if_pos (contains_iff_scanned.mpr (.inl hkey))]
      · rw [if_neg hkey]
        split
        · rename_i hin
          obtain ⟨hstart, hun⟩ := (contains_iff_scanned.mp hin).resolve_left hkey
          exact (settle_of_not_older (hnot hstart hun)).symm
        · rfl
    exact ⟨fun key => (h.own key).trans (hside fun hs hk => (hfar key hs hk).1),
      fun key => (h.peer key).trans (hside fun hs hk => (hfar key hs hk).2)⟩

/-- A round over a range of the map is correct if and only if the calls of its walk go through gRPC,
it meets no inverted bucket, and the two sides do not differ at a key that the scan does not reach. -/
theorem repairRange_repairs_iff (hvalid : c.rangeMap.validate = .ok ())
    (hr : c.rangeMap.rangeAt r.start = some r) (hnode : c.nodeID ∈ r.replicas)
    (hpeer : c.peerID ∈ r.replicas) (hfanout : 2 ≤ c.fanout) (hj : c.json.RoundTrips)
    (hst : st.Written) (hhash : c.Hashes st) :
    ((c.repairRange .grpc r.start r.end_ st).1 = none ∧
        RepairsRange r st (c.repairRange .grpc r.start r.end_ st).2) ↔
      c.Completes .grpc c.maxDepth r.start r.end_ st ∧
        ∀ key, r.start ≤ key → Unreached r key →
          ¬ Older (st.own.get key) (st.peer.get key) ∧
            ¬ Older (st.peer.get key) (st.own.get key) := by
  have hsound := (RangeMap.validate_eq_ok_iff.mp hvalid).sound (List.mem_of_find?_eq_some hr)
  have hwithin : Within r r.start r.end_ := ⟨le_refl _, hsound.lt, fun hne => ⟨hne, le_refl _⟩⟩
  have hwalk : RepairsIff (c.Completes .grpc c.maxDepth r.start r.end_ st) r.start r.end_ st _ :=
    diffNode_spec hvalid hr hnode hpeer hj hhash hfanout hwithin (Agree.refl st) hst
  rw [repairRange, hwalk.none_iff]
  exact and_congr_right fun hcompletes => repairsRange_iff (hwalk.repairs hcompletes)

/-- The range from `start` to `end_` and those around it, of both nodes. -/
noncomputable def threeRanges (start end_ : Bytes) (fanout : Int) (leafItemThreshold : Nat) :
    RepairScheduler where
  rangeMap := ⟨[⟨[], start, [[97], [98]], 1, [112]⟩, ⟨start, end_, [[97], [98]], 1, [112]⟩,
    ⟨end_, [], [[97], [98]], 1, [112]⟩]⟩
  nodeID := [97]
  peerID := [98]
  fanout := fanout
  leafItemThreshold := leafItemThreshold
  maxDepth := 8
  json := sampleJson
  digest := id

/-- Nothing here, and the given keys at the peer. -/
def missing (keys : List Bytes) : Stores :=
  ⟨.empty, keys.foldl (fun s key => s.set key onePut) .empty⟩

theorem written_missing (keys : List Bytes) (h : ∀ row ∈ (missing keys).peer.rows, row.2 = onePut) :
    (missing keys).Written :=
  .of_rows nofun fun row hrow => h row hrow ▸ by decide +kernel

theorem hashes_missing (hjson : c.json = sampleJson) (hdigest : c.digest = id) (keys : List Bytes)
    (h : ∀ row ∈ (missing keys).peer.rows, row.2 = onePut ∧ row.1.length < 2 ^ 64) :
    c.Hashes (missing keys) := by
  refine ⟨nofun, fun key e he => ?_, fun _ _ heq => by simpa only [hdigest, id] using heq⟩
  have hrow := h (key, e) ((lookup_eq_some_iff_mem (missing keys).peer.ascending.nodup).mp he)
  obtain ⟨rfl, hlen⟩ := hrow
  rw [hjson, sampleJson_onePut]
  exact ⟨text_onePut, hlen, by decide +kernel⟩

/-- A letter eight times. `SplitRange` finds those of `b` in the middle between `a` and `c`. -/
def eight (letter : UInt8) : Bytes := List.replicate 8 letter

def middleKeys : List Bytes := [eight 97 ++ [98], eight 98, eight 98 ++ [195, 169]]

theorem repairRange_repairs_split :
    let c := threeRanges (eight 97) (eight 99) 2 2
    (c.repairRange .grpc (eight 97) (eight 99) (missing middleKeys)).1 = none ∧
      (c.repairRange .grpc (eight 97) (eight 99) (missing middleKeys)).2.own.get (eight 98) =
        some onePut := by
  intro c
  have hiff := repairRange_repairs_iff (c := c)
    (r := ⟨eight 97, eight 99, [[97], [98]], 1, [112]⟩) (by decide) (by decide) (by decide)
    (by decide) (by decide) sampleJson_roundTrips (written_missing middleKeys (by decide +kernel))
    (hashes_missing rfl rfl _ (by decide +kernel))
  obtain ⟨hnone, hrange⟩ := hiff.mpr ⟨by decide +kernel, fun key _ hkey => nomatch hkey.1⟩
  exact ⟨hnone, (hrange.own (eight 98)).trans (by decide +kernel)⟩

/-- The keys that the peer has in the last range. -/
def lastKeys : List Bytes := [[100], [101], [122, 122]]

/-- None of the three boundaries behind `c` is valid UTF-8, so all buckets are refused, and nothing
is pulled. With a client that sends any ends, the third bucket from `a` to `c` reaches beyond `c` and
the last one starts there; the peer refuses both, and what it has between `b` and `c` is not
pulled. -/
theorem repairRange_skips_bucket :
    (let c := threeRanges [97] [99] 4 1
    c.rangeMap.validate = .ok () ∧
    c.rangeMap.rangeAt [99] = some ⟨[99], [], [[97], [98]], 1, [112]⟩ ∧
    c.json.RoundTrips ∧ (missing lastKeys).Written ∧ c.Hashes (missing lastKeys) ∧
    (c.repairRange .grpc [99] [] (missing lastKeys)).1 ≠ none ∧
    (c.repairRange .grpc [99] [] (missing lastKeys)).2 = missing lastKeys ∧
    (missing lastKeys).peer.get [101] = some onePut ∧ (missing lastKeys).own.get [101] = none) ∧
    let c := threeRanges [97] [99] 4 1
    c.rangeMap.rangeAt [97] = some ⟨[97], [99], [[97], [98]], 1, [112]⟩ ∧
    (missing [[97, 98], [98, 195, 169]]).Written ∧ c.Hashes (missing [[97, 98], [98, 195, 169]]) ∧
    (c.repairRange .reliable [97] [99] (missing [[97, 98], [98, 195, 169]])).1 ≠ none ∧
    (missing [[97, 98], [98, 195, 169]]).peer.get [98, 195, 169] = some onePut ∧
    (c.repairRange .reliable [97] [99] (missing [[97, 98], [98, 195, 169]])).2.own.get
      [98, 195, 169] = none := by
  refine ⟨⟨by decide, by decide, sampleJson_roundTrips, written_missing _ (by decide +kernel),
    hashes_missing rfl rfl _ (by decide +kernel), by decide +kernel⟩, by decide,
    written_missing _ (by decide +kernel), hashes_missing rfl rfl _ (by decide +kernel), ?_⟩
  decide +kernel

end RepairScheduler

end ChudDB.Cluster
