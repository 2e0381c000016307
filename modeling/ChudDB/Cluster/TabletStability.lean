import ChudDB.Cluster.NodeStore
import ChudDB.Cluster.Settling
import ChudDB.Cluster.Tablet

/-! # Changes that undo each other

With a fixed store the size of a range does not change. The parts of a range that is split have
together at least `SplitBytes`, and two ranges that are merged have together at most twice
`MergeBytes`. So a merge undoes a split, and a split a merge, only if `SplitBytes` is at most twice
`MergeBytes`. `Config.Validate` asks only that it is greater than `MergeBytes`, and then the
scheduler can split and merge the same ranges again and again (`neverUndoes_iff`,
`split_and_merge_again`). -/

namespace ChudDB.Cluster
open Lib

/-! ## Sizes of ranges -/

/-- `ScanRawRange` of a store with these rows (`NodeStore.scanRawRange_eq`). -/
def rawScan (rows : List RawEntry) : RangeScanner Empty := fun start end_ =>
  .ok (rows.filter fun e => decide (Scanned start end_ e.1))

/-- The rows of the store of a node are scanned in this way. -/
theorem rawScan_scanRawRange {s : NodeStore} {raw : Envelope → Bytes} {start end_ : Bytes} :
    rawScan (s.rows.map fun row => (row.1, raw row.2)) start end_ =
      .ok ((s.scanRawRange start end_).map fun row => (row.1, raw row.2)) := by
  rw [rawScan, NodeStore.scanRawRange_eq, List.filter_map]
  rfl

theorem scansInside_rawScan (rows : List RawEntry) : ScansInside (rawScan rows) := by
  intro start end_ entries hentries e he
  cases hentries
  have hin : Scanned start end_ e.1 := of_decide_eq_true (List.mem_filter.mp he).2
  exact hin.1

def sizeOf (rows : List RawEntry) (start end_ : Bytes) : Int :=
  totalSize (rows.filter fun e => decide (Scanned start end_ e.1))

theorem sizeOf_cons (e : RawEntry) (rows : List RawEntry) (start end_ : Bytes) :
    sizeOf (e :: rows) start end_ =
      (if Scanned start end_ e.1 then entrySize e else 0) + sizeOf rows start end_ := by
  rw [sizeOf, List.filter_cons]
  by_cases h : Scanned start end_ e.1
  · rw [if_pos h, if_pos (decide_eq_true h)]
    exact List.sum_cons
  · rw [if_neg h, decide_eq_false h, Int.zero_add]
    rfl

/-- What is scanned of a range is scanned of one of its parts. -/
theorem scanned_of_cut {start mid end_ key : Bytes} (hmid : mid ≠ []) (h : Scanned start end_ key) :
    Scanned start mid key ∨ Scanned mid end_ key := by
  obtain ⟨⟨hstart, hend⟩, hmax⟩ := h
  rcases lt_or_ge key mid with hlt | hge
  · exact .inl ((scanned_iff hmid).mpr ⟨hstart, hlt⟩)
  · exact .inr ⟨⟨hge, hend⟩, hmax⟩

theorem sizeOf_le_add (rows : List RawEntry) {start mid end_ : Bytes} (hmid : mid ≠ []) :
    sizeOf rows start end_ ≤ sizeOf rows start mid + sizeOf rows mid end_ := by
  induction rows with
  | nil => exact le_refl _
  | cons e rows ih =>
    have hsize : 0 ≤ entrySize e := Int.add_nonneg (Int.natCast_nonneg _) (Int.natCast_nonneg _)
    have hsize' : ∀ start end_, 0 ≤ if Scanned start end_ e.1 then entrySize e else 0 := by
      intro start end_
      split
      · exact hsize
      · exact le_refl 0
    have hpart : (if Scanned start end_ e.1 then entrySize e else 0) ≤
        (if Scanned start mid e.1 then entrySize e else 0) +
          if Scanned mid end_ e.1 then entrySize e else 0 := by
      by_cases h : Scanned start end_ e.1
      · rw [if_pos h]
        rcases scanned_of_cut hmid h with hleft | hright
        · rw [if_pos hleft]
          exact Int.le_add_of_nonneg_right (hsize' mid end_)
        · rw [if_pos hright]
          exact Int.le_add_of_nonneg_left (hsize' start mid)
      · rw [if_neg h]
        exact Int.add_nonneg (hsize' start mid) (hsize' mid end_)
    rw [sizeOf_cons, sizeOf_cons, sizeOf_cons]
    omega

/-! ## Runs of ticks -/

/-- The change that would undo this one, in the map that it leaves. -/
def Change.undo : Change → Change
  | .split i => .merge i
  | .merge i => .split i

namespace Scheduler
open RangeMap

/-- The scheduler and the table after `t` ticks of this node alone. -/
def ticks (s : Scheduler) (m : RangeMap) (candidates : List NodeID) (t : Nat) :
    Scheduler × RangeMap :=
  (fun st : Scheduler × RangeMap => st.1.tick st.2 candidates)^[t] (s, m)

/-- The change of tick `t`. -/
def performedAt (s : Scheduler) (m : RangeMap) (candidates : List NodeID) (t : Nat) :
    Option Change :=
  (s.ticks m candidates t).1.performed (s.ticks m candidates t).2 candidates

/-- No tick is about the very ranges that an earlier one has made: the children of a split are not
merged, and a merged range is not split. -/
def NeverUndoes (s : Scheduler) (m : RangeMap) (candidates : List NodeID) : Prop :=
  ∀ t t' c c', t < t' → s.performedAt m candidates t = some c →
    s.performedAt m candidates t' = some c' →
    c'.ranges (s.ticks m candidates t').2 ≠ c.undo.ranges (s.ticks m candidates (t + 1)).2

theorem ticks_succ (s : Scheduler) (m : RangeMap) (candidates : List NodeID) (t : Nat) :
    s.ticks m candidates (t + 1) =
      (s.ticks m candidates t).1.tick (s.ticks m candidates t).2 candidates :=
  Function.iterate_succ_apply' _ t (s, m)

theorem ticks_add (s : Scheduler) (m : RangeMap) (candidates : List NodeID) (t n : Nat) :
    s.ticks m candidates (t + n) =
      (s.ticks m candidates t).1.ticks (s.ticks m candidates t).2 candidates n := by
  rw [ticks, Nat.add_comm, Function.iterate_add_apply]
  rfl

section
variable {cfg : Config} {sum64 : Bytes → Counter} {sha256 : Bytes → Bytes} {rows : List RawEntry}
  {settled : SettledRange → Int} {m : RangeMap} {candidates : List NodeID} {c : Change}

/-- A run changes the counters of the scheduler only, and keeps the table valid. -/
structure Running (cfg : Config) (sum64 : Bytes → Counter) (sha256 : Bytes → Bytes)
    (rows : List RawEntry) (st : Scheduler × RangeMap) : Prop where
  scheduler : ∃ settled, st.1 = schedulerOver cfg sum64 sha256 (rawScan rows) settled
  valid : st.2.validate = .ok ()
  partitions : st.2.Partitions

theorem Running.performed (hsha : ∀ data, (sha256 data).length = 32)
    (h : Running cfg sum64 sha256 rows st) (hc : st.1.performed st.2 candidates = some c) :
    ∃ settled i, (schedulerOver cfg sum64 sha256 (rawScan rows) settled).attempt st.2 i = some c ∧
      (schedulerOver cfg sum64 sha256 (rawScan rows) settled).proposal st.2 candidates c =
        some (st.1.tick st.2 candidates).2 ∧
      (st.1.tick st.2 candidates).2.validate = .ok () ∧
      (st.1.tick st.2 candidates).2.Partitions := by
  obtain ⟨⟨settled, hs⟩, hvalid, hpart⟩ := h
  obtain ⟨i, p, hattempt, hp, happly⟩ := performed_cases hc
  obtain ⟨settled', hs'⟩ : ∃ settled', st.1.updateSettled st.2 =
      schedulerOver cfg sum64 sha256 (rawScan rows) settled' := by
    rw [hs]
    exact ⟨_, rfl⟩
  rw [hs'] at hattempt hp
  obtain ⟨hvalid', hmerge, new, heffect⟩ :=
    takes_effect (wellFormed_schedulerOver hsha (scansInside_rawScan rows)) hvalid hpart hp
  have hp' : (st.1.tick st.2 candidates).2 = p := by
    have hmerge' := apply_eq_some_iff.mp happly
    rw [hmerge] at hmerge'
    cases hmerge'
    rfl
  rw [hp']
  exact ⟨settled', i, hattempt, hp, hvalid', heffect.replaces.partitions hpart⟩

theorem Running.tick (hsha : ∀ data, (sha256 data).length = 32)
    (h : Running cfg sum64 sha256 rows st) :
    Running cfg sum64 sha256 rows (st.1.tick st.2 candidates) := by
  have hscheduler : ∃ settled, (st.1.tick st.2 candidates).1 =
      schedulerOver cfg sum64 sha256 (rawScan rows) settled := by
    obtain ⟨settled, hs⟩ := h.scheduler
    rw [hs]
    exact ⟨_, rfl⟩
  cases hc : st.1.performed st.2 candidates with
  | none =>
    have hkeep := tick_of_performed_eq_none hc
    exact ⟨hscheduler, by rw [hkeep]; exact h.valid, by rw [hkeep]; exact h.partitions⟩
  | some c =>
    obtain ⟨-, -, -, -, hvalid, hpart⟩ := h.performed hsha hc
    exact ⟨hscheduler, hvalid, hpart⟩

theorem running_ticks (hsha : ∀ data, (sha256 data).length = 32) (hm : m.validate = .ok ())
    (hpart : m.Partitions) (t : Nat) : Running cfg sum64 sha256 rows
      ((newScheduler cfg sum64 sha256 (rawScan rows)).ticks m candidates t) := by
  induction t with
  | zero => exact ⟨⟨_, rfl⟩, hm, hpart⟩
  | succ t ih =>
    rw [ticks_succ]
    exact ih.tick hsha

end

/-! ## The sizes of what is split and merged -/

/-- Two ranges are the parts of another one. -/
structure Cut (whole left right : Range) : Prop where
  start : left.start = whole.start
  cut : left.end_ = right.start
  ne : right.start ≠ []
  stop : right.end_ = whole.end_

theorem Cut.size_le {whole left right : Range} (h : Cut whole left right) (rows : List RawEntry) :
    sizeOf rows whole.start whole.end_ ≤
      sizeOf rows left.start left.end_ + sizeOf rows right.start right.end_ := by
  rw [h.start, h.cut, h.stop]
  exact sizeOf_le_add rows h.ne

/-- A tick splits a large range into parts, or puts a range in the place of its small parts. -/
inductive Resizes (cfg : Config) (rows : List RawEntry) (m m' : RangeMap) : Change → Prop
  | split (cut : Cut whole left right) (before : (Change.split i).ranges m = [whole])
    (after : (Change.merge i).ranges m' = [left, right])
    (large : cfg.tabletSplitBytes ≤ sizeOf rows whole.start whole.end_) :
    Resizes cfg rows m m' (.split i)
  | merge (cut : Cut whole left right) (before : (Change.merge i).ranges m = [left, right])
    (after : (Change.split i).ranges m' = [whole])
    (small : sizeOf rows left.start left.end_ ≤ cfg.tabletMergeBytes)
    (small' : sizeOf rows right.start right.end_ ≤ cfg.tabletMergeBytes) :
    Resizes cfg rows m m' (.merge i)

theorem ranges_of_append {c : Change} {pre new : List Range} (hindex : pre.length = c.index)
    (hwidth : new.length = c.width) (post : List Range) : c.ranges ⟨pre ++ new ++ post⟩ = new := by
  rw [Change.ranges, List.append_assoc, List.drop_left' hindex, List.take_left' hwidth]

section
variable {cfg : Config} {sum64 : Bytes → Counter} {sha256 : Bytes → Bytes} {rows : List RawEntry}
  {settled : SettledRange → Int} {m m' : RangeMap} {candidates : List NodeID} {c : Change}

theorem length_take_of_getElem? {l : List α} (h : l[i]? = some a) : (l.take i).length = i :=
  List.length_take_of_le (List.getElem?_eq_some_iff.mp h).1.le

theorem resizes_of_attempt (hm : m.validate = .ok ()) (hpart : m.Partitions)
    (hattempt : (schedulerOver cfg sum64 sha256 (rawScan rows) settled).attempt m i = some c)
    (hproposal : (schedulerOver cfg sum64 sha256 (rawScan rows) settled).proposal m candidates c =
      some m') : Resizes cfg rows m m' c := by
  rcases attempt_cases hattempt with ⟨rfl, current, size, hcurrent, -, hsize, hlarge⟩ |
    ⟨rfl, left, right, size, size', hleft, hright, -, -, hsize, hsmall, hsize', hsmall'⟩
  · obtain ⟨current', boundary, leftReplicas, rightReplicas, hcurrent', -, -, hinside, -, -, rfl⟩ :=
      splitProposal_eq_some_iff.mp hproposal
    rw [hcurrent] at hcurrent'
    cases hcurrent'
    cases hsize
    have hafter := ranges_of_append (c := .merge i) (length_take_of_getElem? hcurrent)
      (show ((schedulerOver cfg sum64 sha256 (rawScan rows) settled).splitChildren current boundary
        leftReplicas rightReplicas).length = 2 from rfl) (m.ranges.drop (i + 1))
    refine .split ?_ (ranges_split hcurrent) hafter hlarge
    exact ⟨rfl, rfl, (not_or.mp hinside).1, rfl⟩
  · obtain ⟨left', right', replicas, hleft', hright', -, -, rfl⟩ :=
      mergeProposal_eq_some_iff.mp hproposal
    rw [hleft] at hleft'
    cases hleft'
    rw [hright] at hright'
    cases hright'
    cases hsize
    cases hsize'
    obtain ⟨hcut, hlt, -⟩ := of_neighbours hm hpart hleft hright
    have hne : right.start ≠ [] := fun hnil => not_lt_bot (hnil ▸ hlt)
    have hafter := ranges_of_append (c := .split i) (length_take_of_getElem? hleft)
      (show [(schedulerOver cfg sum64 sha256 (rawScan rows) settled).mergedRange left right
        replicas].length = 1 from rfl) (m.ranges.drop (i + 2))
    refine .merge ?_ (ranges_merge hleft hright) hafter hsmall hsmall'
    exact ⟨rfl, hcut, hne, rfl⟩

theorem resizes_of_performedAt (hsha : ∀ data, (sha256 data).length = 32)
    (hm : m.validate = .ok ()) (hpart : m.Partitions) {t : Nat}
    (hc : (newScheduler cfg sum64 sha256 (rawScan rows)).performedAt m candidates t = some c) :
    Resizes cfg rows ((newScheduler cfg sum64 sha256 (rawScan rows)).ticks m candidates t).2
      ((newScheduler cfg sum64 sha256 (rawScan rows)).ticks m candidates (t + 1)).2 c := by
  have hrunning : Running cfg sum64 sha256 rows
      ((newScheduler cfg sum64 sha256 (rawScan rows)).ticks m candidates t) :=
    running_ticks hsha hm hpart t
  obtain ⟨settled, i, hattempt, hproposal, -⟩ := hrunning.performed hsha hc
  rw [ticks_succ]
  exact resizes_of_attempt hrunning.valid hrunning.partitions hattempt hproposal

/-- A range that is large enough to be split is larger than two that are small enough to be merged
can be together. -/
theorem neverUndoes_of_lt (hsha : ∀ data, (sha256 data).length = 32)
    (hbytes : 2 * cfg.tabletMergeBytes < cfg.tabletSplitBytes) (hm : m.validate = .ok ())
    (hpart : m.Partitions) :
    (newScheduler cfg sum64 sha256 (rawScan rows)).NeverUndoes m candidates := by
  intro t t' c c' _ hc hc' hsame
  have hresizes := resizes_of_performedAt hsha hm hpart hc
  cases resizes_of_performedAt hsha hm hpart hc' with
  | split _ hbefore _ hlarge =>
    cases hresizes with
    | split _ _ hafter =>
      have hpair := hbefore.symm.trans (hsame.trans hafter)
      cases hpair
    | merge cut _ hafter hsmall hsmall' =>
      have hwhole := hbefore.symm.trans (hsame.trans hafter)
      cases hwhole
      have hle := cut.size_le rows
      omega
  | merge _ hbefore _ hsmall hsmall' =>
    cases hresizes with
    | split cut _ hafter hlarge =>
      have hparts := hbefore.symm.trans (hsame.trans hafter)
      cases hparts
      have hle := cut.size_le rows
      omega
    | merge _ _ hafter =>
      have hpair := hbefore.symm.trans (hsame.trans hafter)
      cases hpair

end

/-! ## A run that splits and merges -/

/-- Two rows of the same size. -/
def evenRows (size : Nat) : List RawEntry :=
  [([97], List.replicate size 0), ([98], List.replicate size 0)]

theorem sizeOf_evenRows (size : Nat) :
    sizeOf (evenRows size) [] [] = 2 * (size + 1) ∧ sizeOf (evenRows size) [] [98] = size + 1 ∧
      sizeOf (evenRows size) [98] [] = size + 1 := by
  have hentry : ∀ b : UInt8, entrySize ([b], List.replicate size 0) = size + 1 := by
    intro b
    rw [entrySize, List.length_singleton, List.length_replicate, Int.add_comm]
    rfl
  have hnil : ∀ start end_, sizeOf [] start end_ = 0 := fun _ _ => rfl
  refine ⟨?_, ?_, ?_⟩ <;> rw [evenRows, sizeOf_cons, sizeOf_cons, hentry, hentry, hnil]
  · rw [if_pos (show Scanned [] [] [97] by decide), if_pos (show Scanned [] [] [98] by decide)]
    omega
  · rw [if_pos (show Scanned [] [98] [97] by decide),
      if_neg (show ¬ Scanned [] [98] [98] by decide)]
    omega
  · rw [if_neg (show ¬ Scanned [98] [] [97] by decide),
      if_pos (show Scanned [98] [] [98] by decide)]
    omega

theorem pickSplitBoundary_evenRows (size : Nat) :
    pickSplitBoundary (rawScan (evenRows size)) [] [] = .ok [98] := by
  have hscan : rawScan (evenRows size) [] [] = .ok (evenRows size) := by
    refine congrArg Except.ok (List.filter_eq_self.mpr fun e he => ?_)
    rcases List.mem_pair.mp he with rfl | rfl
    · exact decide_eq_true (show Scanned [] [] [97] by decide)
    · exact decide_eq_true (show Scanned [] [] [98] by decide)
  have hkeys : (evenRows size).map Prod.fst = [[97], [98]] := rfl
  have hseparates : Separates (evenRows size) [98] :=
    ⟨hkeys ▸ by decide, _, List.mem_cons_self, (by decide : ([97] : Bytes) < [98])⟩
  obtain ⟨boundary, hpick, hopt⟩ := exists_pickSplitBoundary hscan ⟨_, hseparates⟩
  obtain ⟨hmem, e, he, hlt⟩ := hopt.separates
  rw [hkeys] at hmem
  have hkey : e.1 ∈ [[97], [98]] := hkeys ▸ List.mem_map_of_mem he
  rcases List.mem_pair.mp hmem with rfl | rfl
  · rcases List.mem_pair.mp hkey with heq | heq <;> exact absurd (heq ▸ hlt) (by decide)
  · exact hpick

/-- With the replicas of a range for candidates, all of them are assigned again. -/
theorem exists_assign_all {n : Nat} {previous : List NodeID} (score : NodeID → Counter)
    (hnode : nodeID ≠ []) (hn : 1 ≤ n) (hprevious : peers nodeID (List.range n) ⊆ previous) :
    ∃ replicas, assignReplicas score (peers nodeID (List.range n)) previous n = .ok replicas ∧
      peers nodeID (List.range n) ⊆ replicas := by
  have hall : (List.range n).countP (peer nodeID · ∈ previous) = n := by
    rw [List.countP_eq_length.mpr fun j hj => ?_, List.length_range]
    exact decide_eq_true (hprevious (mem_peers.mpr hj))
  obtain ⟨replicas, hreplicas⟩ : ∃ replicas,
      assignReplicas score (peers nodeID (List.range n)) previous n = .ok replicas :=
    exists_assign_peers score hnode List.nodup_range (by omega) (by rw [List.length_range])
      (by rw [hall]; omega)
  refine ⟨replicas, hreplicas, ?_⟩
  have hassigned := assigned_of_assignReplicas hreplicas
  have hlength : replicas.length = n := by
    have hparts := hassigned.perm.length_eq
    have htotal := hassigned.length_added
    rw [List.length_append] at hparts
    omega
  have hperm : replicas.Perm (peers nodeID (List.range n)) := by
    refine (hassigned.nodup.subperm fun id hid => (hassigned.subset id hid).1).perm_of_length_le ?_
    rw [hlength, peers, List.length_map, List.length_range]
  exact hperm.symm.subset

section
variable {cfg : Config} {sum64 : Bytes → Counter} {sha256 : Bytes → Bytes} {rows : List RawEntry}
  {settled : SettledRange → Int} {m p : RangeMap} {candidates : List NodeID} {c : Change} {k : Nat}

/-- Nothing happens until the ranges of a map have settled. -/
theorem ticks_unsettled (hk : cfg.tabletSettlingTicks = k + 1)
    (hnode : ∀ r ∈ m.ranges, cfg.nodeID ∈ r.replicas)
    (hnew : ∀ r ∈ m.ranges, settled r.settledKey = 0) {j : Nat} (hj : j ≤ k) :
    ∃ settled', (schedulerOver cfg sum64 sha256 (rawScan rows) settled).ticks m candidates j =
        (schedulerOver cfg sum64 sha256 (rawScan rows) settled', m) ∧
      ∀ r ∈ m.ranges, settled' r.settledKey = j := by
  induction j with
  | zero => exact ⟨settled, rfl, hnew⟩
  | succ j ih =>
    obtain ⟨settled', hticks, hcount⟩ := ih (Nat.le_of_succ_le hj)
    let s := schedulerOver cfg sum64 sha256 (rawScan rows) settled'
    have hnext : ∀ r ∈ m.ranges, (s.updateSettled m).settled r.settledKey = (j + 1 : Nat) := by
      intro r hr
      rw [settled_updateSettled, if_pos ⟨r, hr, rfl, hnode r hr⟩, Nat.cast_succ]
      exact congrArg (· + 1) (hcount r hr)
    have hidle : s.performed m candidates = none := by
      refine performed_eq_none fun r hr hready => ?_
      have hsettled : cfg.tabletSettlingTicks ≤ (s.updateSettled m).settled r.settledKey :=
        of_decide_eq_true hready.2
      rw [hnext r hr, hk] at hsettled
      omega
    refine ⟨(s.updateSettled m).settled, ?_, hnext⟩
    rw [ticks_succ, hticks]
    exact Prod.ext rfl (tick_of_performed_eq_none hidle)

theorem ready_of_count (hk : cfg.tabletSettlingTicks = k + 1) {r : Range} (hr : r ∈ m.ranges)
    (hnode : cfg.nodeID ∈ r.replicas) (hcount : settled r.settledKey = k) :
    ((schedulerOver cfg sum64 sha256 (rawScan rows) settled).updateSettled m).Ready r := by
  refine ⟨hnode, decide_eq_true ?_⟩
  rw [settled_updateSettled, if_pos ⟨r, hr, rfl, hnode⟩]
  exact (hk.trans (congrArg (· + 1) hcount.symm)).le

/-- A change of the first range that waits for the ranges of the map only is made in tick `k`, if
these have not been counted yet. -/
theorem change_when_settled (hsha : ∀ data, (sha256 data).length = 32) (hm : m.validate = .ok ())
    (hpart : m.Partitions) (hk : cfg.tabletSettlingTicks = k + 1)
    (hnode : ∀ r ∈ m.ranges, cfg.nodeID ∈ r.replicas)
    (hnew : ∀ r ∈ m.ranges, settled r.settledKey = 0)
    (hattempt : ∀ settled,
      (∀ r ∈ m.ranges, (schedulerOver cfg sum64 sha256 (rawScan rows) settled).Ready r) →
      (schedulerOver cfg sum64 sha256 (rawScan rows) settled).attempt m 0 = some c)
    (hp : ∀ settled,
      (schedulerOver cfg sum64 sha256 (rawScan rows) settled).proposal m candidates c = some p) :
    let s := schedulerOver cfg sum64 sha256 (rawScan rows) settled
    s.performedAt m candidates k = some c ∧ (s.ticks m candidates k).2 = m ∧
      ∃ settled', s.ticks m candidates (k + 1) =
          (schedulerOver cfg sum64 sha256 (rawScan rows) settled', p) ∧
        ∀ key, ¬ m.Shows cfg.nodeID key → settled' key = 0 := by
  intro s
  obtain ⟨settled', hticks, hcount⟩ : ∃ settled', s.ticks m candidates k =
      (schedulerOver cfg sum64 sha256 (rawScan rows) settled', m) ∧ _ :=
    ticks_unsettled hk hnode hnew (le_refl k)
  let s₁ := schedulerOver cfg sum64 sha256 (rawScan rows) settled'
  have hready : ∀ r ∈ m.ranges, (s₁.updateSettled m).Ready r :=
    fun r hr => ready_of_count hk hr (hnode r hr) (hcount r hr)
  have hattempt₁ : (s₁.updateSettled m).attempt m 0 = some c := hattempt _ hready
  have hp₁ : (s₁.updateSettled m).proposal m candidates c = some p := hp _
  have hformed : (s₁.updateSettled m).WellFormed :=
    wellFormed_schedulerOver hsha (scansInside_rawScan rows)
  have happly := apply_eq_some_iff.mpr (takes_effect hformed hm hpart hp₁).2.1
  rw [performedAt, ticks_succ, hticks]
  refine ⟨performed_of_attempt_zero hattempt₁ hp₁ happly, rfl, (s₁.updateSettled m).settled,
    Prod.ext rfl (tick_of_attempt_zero hattempt₁ hp₁ happly), fun key hkey => ?_⟩
  exact (settled_updateSettled s₁ m key).trans (if_neg hkey)

end

/-- Two parts of the keys with one of the even rows each, on the same nodes. -/
structure EvenParts (nodes : List NodeID) (left right : Range) : Prop where
  left_start : left.start = []
  left_end : left.end_ = [98]
  right_start : right.start = [98]
  right_end : right.end_ = []
  replicas : ∀ r ∈ [left, right], nodes ⊆ r.replicas
  generation : ∀ r ∈ [left, right], r.generation = 2

section
variable {cfg : Config} {sum64 : Bytes → Counter} {sha256 : Bytes → Bytes} {n k size : Nat}

/-- When the only range has settled, it is split into even parts, which have not settled. -/
theorem splits_evenRows (hsha : ∀ data, (sha256 data).length = 32) (hnode : cfg.nodeID ≠ [])
    (hn : 1 ≤ n) (hfactor : cfg.replicationFactor = n) (hk : cfg.tabletSettlingTicks = k + 1)
    (hlarge : cfg.tabletSplitBytes ≤ 2 * (size + 1)) :
    let s := newScheduler cfg sum64 sha256 (rawScan (evenRows size))
    let nodes := peers cfg.nodeID (List.range n)
    s.performedAt (startMap cfg.nodeID n) nodes k = some (.split 0) ∧
    ∃ settled left right, s.ticks (startMap cfg.nodeID n) nodes (k + 1) =
        (schedulerOver cfg sum64 sha256 (rawScan (evenRows size)) settled, ⟨[left, right]⟩) ∧
      EvenParts nodes left right ∧ ∀ r ∈ [left, right], settled r.settledKey = 0 := by
  intro s nodes
  let current : Range := ⟨[], [], nodes, 1, [112]⟩
  obtain ⟨hvalid, hpart⟩ := startMap_valid cfg.nodeID hn
  have hassign : ∀ start end_, ∃ replicas, assignReplicas (Cluster.replicaScore sum64 start end_)
      nodes nodes cfg.replicationFactor = .ok replicas ∧ nodes ⊆ replicas := by
    intro start end_
    rw [hfactor]
    exact exists_assign_all _ hnode hn fun _ h => h
  obtain ⟨left, hleft, hleftNodes⟩ := hassign [] [98]
  obtain ⟨right, hright, hrightNodes⟩ := hassign [98] []
  let children := s.splitChildren current [98] left right
  have hp : s.proposal (startMap cfg.nodeID n) nodes (.split 0) = some ⟨children⟩ := by
    have hboundary : (pickSplitBoundary (rawScan (evenRows size)) [] []).toOption = some [98] := by
      rw [pickSplitBoundary_evenRows]
      rfl
    have hgen : (1 : Counter) ≠ maxUint64 := by decide
    have hinside : ¬ (([98] : Bytes) = [] ∨ ([98] : Bytes) = [] ∨ ([98] : Bytes) = []) := by decide
    exact splitProposal_eq_some_iff.mpr
      ⟨current, [98], left, right, rfl, hgen, hboundary, hinside, hleft, hright, rfl⟩
  obtain ⟨hperformed, -, settled, hticks, hcount⟩ :
      s.performedAt (startMap cfg.nodeID n) nodes k = some (.split 0) ∧ _ :=
    change_when_settled hsha hvalid hpart hk
      (fun r hr => List.mem_singleton.mp hr ▸ mem_peers_self hn) (fun _ _ => rfl)
      (fun _ hready => attempt_eq_split rfl (hready current List.mem_cons_self) rfl
        (hlarge.trans_eq (sizeOf_evenRows size).1.symm)) fun _ => hp
  have hgeneration : ∀ r ∈ children, r.generation = 2 := by
    intro r hr
    rcases List.mem_pair.mp hr with rfl | rfl <;> rfl
  refine ⟨hperformed, settled, _, _, hticks, ⟨rfl, rfl, rfl, rfl, ?_, hgeneration⟩,
    fun r hr => hcount _ ?_⟩
  · intro r hr
    rcases List.mem_pair.mp hr with rfl | rfl
    · exact hleftNodes
    · exact hrightNodes
  · rintro ⟨r', hr', hkey, -⟩
    have hold : r'.generation = 1 := List.mem_singleton.mp hr' ▸ rfl
    have hsame : r'.generation = r.generation := congrArg SettledRange.generation hkey
    rw [hold, hgeneration r hr] at hsame
    exact absurd hsame (by decide)

/-- When the even parts have settled, they are merged. -/
theorem merges_evenParts {left right : Range} {settled : SettledRange → Int}
    (hsha : ∀ data, (sha256 data).length = 32) (hnode : cfg.nodeID ≠ []) (hn : 1 ≤ n)
    (hfactor : cfg.replicationFactor = n) (hk : cfg.tabletSettlingTicks = k + 1)
    (hsmall : cfg.tabletMergeBytes = size + 1)
    (hlarge : cfg.tabletMergeBytes < cfg.tabletSplitBytes)
    (hparts : EvenParts (peers cfg.nodeID (List.range n)) left right)
    (hnew : ∀ r ∈ [left, right], settled r.settledKey = 0)
    (hvalid : (RangeMap.mk [left, right]).validate = .ok ())
    (hpart : (RangeMap.mk [left, right]).Partitions) :
    let s := schedulerOver cfg sum64 sha256 (rawScan (evenRows size)) settled
    let nodes := peers cfg.nodeID (List.range n)
    s.performedAt ⟨[left, right]⟩ nodes k = some (.merge 0) ∧
      (s.ticks ⟨[left, right]⟩ nodes k).2 = ⟨[left, right]⟩ := by
  intro s nodes
  have hmem : left ∈ [left, right] := List.mem_cons_self
  have hmem' : right ∈ [left, right] := List.mem_cons_of_mem _ List.mem_cons_self
  have hleftSize : sizeOf (evenRows size) left.start left.end_ = cfg.tabletMergeBytes := by
    rw [hparts.left_start, hparts.left_end, hsmall]
    exact (sizeOf_evenRows size).2.1
  have hrightSize : sizeOf (evenRows size) right.start right.end_ = cfg.tabletMergeBytes := by
    rw [hparts.right_start, hparts.right_end, hsmall]
    exact (sizeOf_evenRows size).2.2
  obtain ⟨replicas, hreplicas, -⟩ : ∃ replicas, assignReplicas
      (Cluster.replicaScore sum64 left.start right.end_) nodes
      (intersectReplicas left.replicas right.replicas) cfg.replicationFactor = .ok replicas ∧
      nodes ⊆ replicas := by
    rw [hfactor]
    exact exists_assign_all _ hnode hn fun id hid => List.mem_filter.mpr
      ⟨hparts.replicas left hmem hid, decide_eq_true (hparts.replicas right hmem' hid)⟩
  have hgen : max left.generation right.generation ≠ maxUint64 := by
    rw [hparts.generation left hmem, hparts.generation right hmem']
    decide
  have hp : s.proposal ⟨[left, right]⟩ nodes (.merge 0) =
      some ⟨[s.mergedRange left right replicas]⟩ :=
    mergeProposal_eq_some_iff.mpr ⟨left, right, replicas, rfl, rfl, hgen, hreplicas, rfl⟩
  obtain ⟨hperformed, htable, -⟩ : s.performedAt ⟨[left, right]⟩ nodes k = some (.merge 0) ∧ _ :=
    change_when_settled hsha hvalid hpart hk
      (fun r hr => hparts.replicas r hr (mem_peers_self hn)) hnew
      (fun _ hready => attempt_eq_merge rfl rfl (hready left hmem) (hready right hmem') rfl
        (hleftSize.trans_lt hlarge) hleftSize.le rfl hrightSize.le) fun _ => hp
  exact ⟨hperformed, htable⟩

theorem exists_undone (hcfg : cfg.validate = .ok ()) (hsha : ∀ data, (sha256 data).length = 32)
    (hbytes : cfg.tabletSplitBytes ≤ 2 * cfg.tabletMergeBytes) :
    ∃ rows m candidates, Ascending rows ∧ m.validate = .ok () ∧ m.Partitions ∧
      ¬ (newScheduler cfg sum64 sha256 (rawScan rows)).NeverUndoes m candidates := by
  have hplace := Config.placement_of_validate hcfg
  obtain ⟨hmerge, hlt, hticks⟩ := Config.thresholds_of_validate hcfg
  have hfactor := hplace.one_le_replicationFactor
  obtain ⟨n, hn⟩ := Int.eq_ofNat_of_zero_le (show 0 ≤ cfg.replicationFactor by omega)
  obtain ⟨k, hk⟩ := Int.eq_ofNat_of_zero_le (show 0 ≤ cfg.tabletSettlingTicks - 1 by omega)
  obtain ⟨size, hsize⟩ := Int.eq_ofNat_of_zero_le (show 0 ≤ cfg.tabletMergeBytes - 1 by omega)
  have hn' : 1 ≤ n := by omega
  have hk' : cfg.tabletSettlingTicks = k + 1 := by omega
  have hsize' : cfg.tabletMergeBytes = size + 1 := by omega
  let s := newScheduler cfg sum64 sha256 (rawScan (evenRows size))
  let m := startMap cfg.nodeID n
  let nodes := peers cfg.nodeID (List.range n)
  obtain ⟨hvalid, hpart⟩ := startMap_valid cfg.nodeID hn'
  obtain ⟨hsplit, settled, left, right, hstate, hparts, hnew⟩ :
      s.performedAt m nodes k = some (.split 0) ∧ _ :=
    splits_evenRows hsha hplace.nodeID_ne hn' hn hk' (hsize' ▸ hbytes)
  have hrunning : Running cfg sum64 sha256 (evenRows size) (s.ticks m nodes (k + 1)) :=
    running_ticks hsha hvalid hpart (k + 1)
  rw [hstate] at hrunning
  obtain ⟨hmergeAt, htable⟩ := merges_evenParts hsha hplace.nodeID_ne hn' hn hk' hsize' hlt hparts
    hnew hrunning.valid hrunning.partitions
  refine ⟨evenRows size, m, nodes, ?_, hvalid, hpart, fun hnever => ?_⟩
  · exact (by decide : ([[97], [98]] : List Bytes).Pairwise (· < ·))
  · have hlater : s.ticks m nodes (k + 1 + k) =
        (schedulerOver cfg sum64 sha256 (rawScan (evenRows size)) settled).ticks ⟨[left, right]⟩
          nodes k := by
      rw [ticks_add, hstate]
    refine hnever k (k + 1 + k) (.split 0) (.merge 0) (by omega) hsplit ?_ ?_
    · rw [performedAt, hlater]
      exact hmergeAt
    · rw [hlater, htable, hstate]
      rfl

end

/-- Splits and merges never undo each other, whatever the store holds, exactly if two ranges that
are small enough to be merged are too small together to be split. -/
theorem neverUndoes_iff {cfg : Config} (hcfg : cfg.validate = .ok ()) (sum64 : Bytes → Counter)
    {sha256 : Bytes → Bytes} (hsha : ∀ data, (sha256 data).length = 32) :
    (∀ (rows : List RawEntry) (m : RangeMap) (candidates : List NodeID), Ascending rows →
      m.validate = .ok () → m.Partitions →
      (newScheduler cfg sum64 sha256 (rawScan rows)).NeverUndoes m candidates) ↔
    2 * cfg.tabletMergeBytes < cfg.tabletSplitBytes := by
  constructor
  · intro h
    by_contra hbytes
    obtain ⟨rows, m, candidates, hrows, hm, hpart, hundone⟩ :=
      exists_undone hcfg hsha (not_lt.mp hbytes)
    exact hundone (h rows m candidates hrows hm hpart)
  · exact fun hbytes rows m candidates _ hm hpart => neverUndoes_of_lt hsha hbytes hm hpart

theorem neverUndoes_iff_quarter :
    (newScheduler (sampleConfig 2) sampleSum64 sampleSha256
      (rawScan (evenRows 200))).NeverUndoes sampleMap [[97], [98], [99]] :=
  (neverUndoes_iff (by decide) sampleSum64 length_sampleSha256).mpr (by decide)
    (evenRows 200) sampleMap [[97], [98], [99]] (by decide : ([[97], [98]] : List Bytes).Pairwise _)
    (by decide) (partitions_of_tiles (.last rfl rfl))

/-- Thresholds that `Validate` accepts. -/
def narrowConfig : Config :=
  { sampleConfig 2 with tabletSplitBytes := 100, tabletMergeBytes := 99 }

/-- Two rows of 50 bytes: the only range is split, its children are merged, and what they are merged
into is split again. -/
theorem split_and_merge_again :
    let s := newScheduler narrowConfig sampleSum64 sampleSha256 (rawScan (evenRows 49))
    let nodes : List NodeID := [[97], [98], [99]]
    narrowConfig.validate = .ok () ∧ sampleMap.validate = .ok () ∧
    s.performedAt sampleMap nodes 0 = some (.split 0) ∧
    s.performedAt sampleMap nodes 1 = some (.merge 0) ∧
    s.performedAt sampleMap nodes 2 = some (.split 0) ∧ ¬ s.NeverUndoes sampleMap nodes := by
  intro s nodes
  have hsplit : s.performedAt sampleMap nodes 0 = some (.split 0) := by decide +kernel
  have hmerge : s.performedAt sampleMap nodes 1 = some (.merge 0) := by decide +kernel
  refine ⟨by decide, by decide, hsplit, hmerge, by decide +kernel, fun hnever => ?_⟩
  exact hnever 0 1 _ _ Nat.one_pos hsplit hmerge rfl

end Scheduler
end ChudDB.Cluster
