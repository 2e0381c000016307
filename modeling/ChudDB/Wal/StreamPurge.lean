import ChudDB.Wal.Stream

/-! # Streaming a log that is purged

The cursor remembers its position as an index into the list of segments, and `PurgeUpTo` removes
segments at the front of that list. When `Next` lists the segments again, the index may point behind
segments that were never read. And `Next` asks whether a segment is active only after it has met the
end of it; a record that is written in between, and closes the segment, is left behind. The cursor
skips nothing as long as the segments in front of its index are, at each new listing, segments it
had in front of its index before, and a segment that it leaves still ends where the reader met the
end (`noSkip_of_noShift`). -/

namespace ChudDB.Wal
open Lib

/-! ## How the segments change -/

/-- A segment may have received records, which stand behind all that were there in the log. -/
theorem Grows.getElem? {segs segs' : List Segment} {i : Nat} (h : Grows segs segs')
    (hg : segs[i]? = some g) :
    ∃ rs, segs'[i]? = some { g with recs := g.recs ++ rs } ∧
      ((segs'.flatMap (·.recs)).Pairwise (·.lsn < ·.lsn) →
        ∀ r ∈ rs, r ∉ segs.flatMap (·.recs)) := by
  obtain ⟨init, a, rs, more, rfl, rfl⟩ := h
  rcases Nat.lt_or_ge i init.length with hi | hi
  · rw [List.getElem?_append_left hi] at hg ⊢
    exact ⟨[], by simpa using hg, nofun⟩
  · rw [List.getElem?_append_right hi] at hg ⊢
    obtain ⟨hlt, heq⟩ := List.getElem?_eq_some_iff.mp hg
    have hzero : i - init.length = 0 := by simpa using hlt
    simp only [hzero, List.getElem_cons_zero] at heq
    subst heq
    refine ⟨rs, by simp [hzero], fun hinc r hr hold => ?_⟩
    have hsplit : (init ++ { a with recs := a.recs ++ rs } :: more).flatMap (·.recs) =
        (init ++ [a]).flatMap (·.recs) ++ (rs ++ more.flatMap (·.recs)) := by simp
    rw [hsplit, List.pairwise_append] at hinc
    exact Nat.lt_irrefl _ (hinc.2.2 r hold r (List.mem_append_left _ hr))

/-- In the order of the log the segments follow their numbers. -/
theorem OrderedLog.lsn_lt (h : OrderedLog s removed closed active n log)
    (hg : g ∈ removed ++ (closed ++ [active])) (hg' : g' ∈ removed ++ (closed ++ [active]))
    (hid : g.id < g'.id) : ∀ r ∈ g.recs, ∀ r' ∈ g'.recs, r.lsn < r'.lsn := by
  have hids := List.pairwise_map.mp h.sorted
  have hlog := h.increasing
  rw [h.log_eq, List.pairwise_flatMap] at hlog
  have hall := List.Pairwise.forall_of_forall_of_flip
    (R := fun a b : Segment => a.id < b.id → ∀ r ∈ a.recs, ∀ r' ∈ b.recs, r.lsn < r'.lsn)
    (fun a _ hlt => absurd hlt (Nat.lt_irrefl _)) (hlog.2.imp fun {a b} hab (_ : a.id < b.id) => hab)
    (hids.imp fun hab hlt => absurd hlt (Nat.not_lt.mpr (Nat.le_of_lt hab)))
  exact hall hg hg' hid

/-- A record of a listed segment is in no removed one. -/
theorem OrderedLog.not_removed (h : OrderedLog s removed closed active n log)
    (hr : r ∈ (closed ++ [active]).flatMap (·.recs)) : r ∉ removed.flatMap (·.recs) := by
  intro hrem
  have hlog := h.increasing
  rw [h.log_eq, List.flatMap_append, List.pairwise_append] at hlog
  exact Nat.lt_irrefl _ (hlog.2.2 r hrem r hr)

theorem OrderedLog.id_inj (h : OrderedLog s removed closed active n log)
    (hg : g ∈ removed ++ (closed ++ [active])) (hg' : g' ∈ removed ++ (closed ++ [active]))
    (hid : g.id = g'.id) : g = g' :=
  List.inj_on_of_nodup_map (h.sorted.imp Nat.ne_of_lt) hg hg' hid

theorem OrderedLog.increasing_recs (h : OrderedLog s removed closed active n log)
    (hg : g ∈ removed ++ (closed ++ [active])) : g.recs.Pairwise (·.lsn < ·.lsn) := by
  have hinc := h.increasing
  rw [h.log_eq, List.pairwise_flatMap] at hinc
  exact hinc.1 g hg

/-- What the current listing is. -/
theorem OrderedLog.listing (h : OrderedLog s removed closed active n log) :
    s.listSegments.Pairwise (· < ·) ∧ (∀ i ∈ s.listSegments, i ≤ active.id) ∧
      ∀ g ∈ closed ++ [active], g.id ∈ s.listSegments := by
  have hlist : s.listSegments = (closed ++ [active]).map (·.id) := h.listSegments
  rw [hlist]
  refine ⟨?_, ?_, fun g hg => List.mem_map_of_mem hg⟩
  · have := h.sorted
    rw [List.map_append, List.pairwise_append] at this
    exact this.2.1
  · intro i hi
    obtain ⟨g, hg, rfl⟩ := List.mem_map.mp hi
    exact h.id_le (List.mem_append_right _ hg)

/-! ## The invariant -/

/-- `segments` is an earlier listing; everything that is still listed and stands in front of the
index has been delivered, and so has everything in front of a delivered entry. -/
structure Passed (closed : List Segment) (active : Segment) (log : List Record)
    (segments : List Nat) (segIdx afterLSN : Nat) (returned : List Entry) : Prop where
  sorted : segments.Pairwise (· < ·)
  bounded : ∀ i ∈ segments, i ≤ active.id
  complete : ∀ g ∈ closed ++ [active], g.id ∈ segments ∨ ∀ i ∈ segments, i < g.id
  passed_lt : ∀ i ∈ segments.take segIdx, i < active.id
  passed : ∀ g ∈ closed ++ [active], g.id ∈ segments.take segIdx →
    ∀ r ∈ g.recs, afterLSN < r.lsn → r ∈ returned
  mem_log : ∀ e ∈ returned, e ∈ log
  noSkip : ∀ e ∈ returned, ∀ r ∈ (closed ++ [active]).flatMap (·.recs),
    afterLSN < r.lsn → r.lsn < e.lsn → r ∈ returned

/-- The cursor reads the segment `g` behind the handle `i` and has delivered its first `j` records;
an entry in its hands is the next one. -/
structure ReadsAt (segs : List Segment) (c : WALCursor) (returned : List Entry) (rd : SegmentReader)
    (i : Nat) (g : Segment) (j : Nat) : Prop where
  file : segs[i]? = some g
  segment : c.segments[c.segIdx]? = some g.id
  le : j ≤ g.recs.length
  taken : ∀ r ∈ g.recs.take j, c.afterLSN < r.lsn → r ∈ returned
  reader : rd = readerAt i g (j + c.peeked.toList.length)
  peeked : ∀ e, c.peeked = some e → g.recs[j]? = some e ∧ c.afterLSN < e.lsn

namespace ReadsAt
variable {segs segs' : List Segment} {c : WALCursor} {returned : List Entry}

theorem setPc (h : ReadsAt segs c returned rd i g j) (pc : NextPc) :
    ReadsAt segs { c with pc := pc } returned rd i g j :=
  ⟨h.file, h.segment, h.le, h.taken, h.reader, h.peeked⟩

theorem grow (h : ReadsAt segs c returned rd i g j)
    (hget : segs'[i]? = some { g with recs := g.recs ++ rs }) :
    ReadsAt segs' c returned rd i { g with recs := g.recs ++ rs } j := by
  refine ⟨hget, h.segment, ?_, ?_, ?_, fun e he => ⟨?_, (h.peeked e he).2⟩⟩
  · simpa using h.le.trans (Nat.le_add_right _ _)
  · simp only
    rw [List.take_append_of_le_length h.le]
    exact h.taken
  · rw [h.reader, readerAt_grown]
    -- an entry in hand has been read, so the reader is still within the old records
    cases hp : c.peeked with
    | none => simpa using h.le
    | some e => simpa using lt_length_of_getElem? (h.peeked e hp).1
  · simp only
    rw [List.getElem?_append_left (lt_length_of_getElem? (h.peeked e he).1)]
    exact (h.peeked e he).1

theorem start (hfile : segs[i]? = some g) (hsegment : c.segments[c.segIdx]? = some g.id)
    (hp : c.peeked = none) :
    ReadsAt segs { c with reader := some ⟨i, 0⟩, pc := .head } returned ⟨i, 0⟩ i g 0 :=
  ⟨hfile, hsegment, Nat.zero_le _, by simp, by simp [hp, readerAt_zero], by simp [hp]⟩

/-- Passing over the next record, which is not behind `afterLSN`. -/
theorem skip (h : ReadsAt segs c returned rd i g j) (hp : c.peeked = none)
    (hget : g.recs[j]? = some e) (hle : e.lsn ≤ c.afterLSN) :
    ReadsAt segs { c with reader := some (readerAt i g (j + 1)) } returned (readerAt i g (j + 1))
      i g (j + 1) := by
  refine ⟨h.file, h.segment, lt_length_of_getElem? hget, fun r hr hlt => ?_, by simp [hp],
    by simp [hp]⟩
  rw [take_succ_of_getElem? hget] at hr
  rcases List.mem_append.mp hr with hr | hr
  · exact h.taken r hr hlt
  · cases List.mem_singleton.mp hr
    exact absurd hlt (Nat.not_lt.mpr hle)

theorem read (h : ReadsAt segs c returned rd i g j) (hget : g.recs[j]? = some e)
    (hlt : c.afterLSN < e.lsn) :
    ReadsAt segs { c with reader := some (readerAt i g (j + 1)), peeked := some e, pc := .read }
      returned (readerAt i g (j + 1)) i g j := by
  refine ⟨h.file, h.segment, h.le, h.taken, rfl, ?_⟩
  rintro e' ⟨⟩
  exact ⟨hget, hlt⟩

theorem deliver (h : ReadsAt segs c returned rd i g j) (hp : c.peeked = some e) :
    ReadsAt segs { c with peeked := none, pc := .head } (returned ++ [e]) rd i g (j + 1) := by
  have hget := (h.peeked e hp).1
  refine ⟨h.file, h.segment, lt_length_of_getElem? hget, fun r hr hlt => ?_, ?_, nofun⟩
  · rw [take_succ_of_getElem? hget] at hr
    rcases List.mem_append.mp hr with hr | hr
    · exact List.mem_append_left _ (h.taken r hr hlt)
    · exact List.mem_append_right _ hr
  · rw [h.reader, hp]
    rfl

/-- What a read at the position of the cursor gives. -/
theorem next (h : ReadsAt (removed ++ (closed ++ [active])) c returned rd i g j)
    (hlog : OrderedLog s removed closed active n log) (hp : c.peeked = none) :
    rd.next s.disk = g.recs[j]?.map fun r => (r, readerAt i g (j + 1)) := by
  have hrd := h.reader
  rw [hp] at hrd
  rw [hrd]
  exact next_readerAt (hlog.dataAt h.file) (hlog.wf g (List.mem_of_getElem? h.file))

theorem of_next (h : ReadsAt (removed ++ (closed ++ [active])) c returned rd i g j)
    (hlog : OrderedLog s removed closed active n log) (hp : c.peeked = none)
    (hnext : rd.next s.disk = some (e, rd')) :
    g.recs[j]? = some e ∧ rd' = readerAt i g (j + 1) := by
  rw [h.next hlog hp, Option.map_eq_some_iff] at hnext
  obtain ⟨e, hget, heq⟩ := hnext
  cases heq
  exact ⟨hget, rfl⟩

end ReadsAt

structure Passing (removed closed : List Segment) (active : Segment) (log : List Record)
    (c : WALCursor) (returned : List Entry) : Prop extends
    Passed closed active log c.segments c.segIdx c.afterLSN returned where
  reader : ∀ rd, c.reader = some rd →
    ∃ i g j, ReadsAt (removed ++ (closed ++ [active])) c returned rd i g j
  peeked : ∀ e, c.peeked = some e → c.reader ≠ none
  opening : ∀ i, c.pc = .opening i → c.peeked = none ∧ c.segments[c.segIdx]? = some i
  ended : c.pc = .ended → c.peeked = none ∧ c.reader ≠ none

theorem Passing.store_step {st st' : StreamState} {removed closed removed' closed' : List Segment}
    {active active' : Segment} {c : WALCursor}
    (hlog : OrderedLog st.store removed closed active n st.log)
    (hlog' : OrderedLog st'.store removed' closed' active' n' st'.log)
    (hst : st.StoreStep st' removed (closed ++ [active]) removed' (closed' ++ [active']))
    (h : Passing removed closed active st.log c returned) :
    Passing removed' closed' active' st'.log c returned := by
  obtain ⟨init, a, rs, more, heq, heq'⟩ := hst.grows
  rw [← List.append_assoc] at heq
  obtain ⟨rfl, ha⟩ := List.append_inj' heq rfl
  cases ha
  have hremoved : ∀ g ∈ removed, g ∈ removed' := fun g hg => hst.removed.subset hg
  have hids' := List.pairwise_map.mp hlog'.sorted
  -- a segment that is listed now was closed and listed before, is the active one, or is new
  have hlisted : ∀ g ∈ closed' ++ [active'],
      g ∈ closed ∨ g.id = active.id ∨ active.id < g.id := by
    intro g hg
    have hmem : g ∈ (removed ++ closed) ++ { active with recs := active.recs ++ rs } :: more :=
      heq' ▸ List.mem_append_right _ hg
    rcases List.mem_append.mp hmem with hmem | hmem
    · rcases List.mem_append.mp hmem with hmem | hmem
      · exact absurd ((List.pairwise_append.mp hids').2.2 g (hremoved g hmem) g hg)
          (Nat.lt_irrefl _)
      · exact .inl hmem
    · rcases List.mem_cons.mp hmem with rfl | hmem
      · exact .inr (.inl rfl)
      · rw [heq', List.pairwise_append] at hids'
        exact .inr (.inr ((List.pairwise_cons.mp hids'.2.1).1 g hmem))
  have hactive : active.id ≤ active'.id := by
    have hmem : { active with recs := active.recs ++ rs } ∈ removed' ++ (closed' ++ [active']) := by
      rw [heq']
      simp
    have := hlog'.id_le hmem
    exact this
  refine ⟨⟨h.sorted, fun i hi => (h.bounded i hi).trans hactive, ?_,
    fun i hi => (h.passed_lt i hi).trans_le hactive, ?_,
    fun e he => hst.log.subset (h.mem_log e he), ?_⟩, ?_, h.peeked, h.opening, h.ended⟩
  · intro g hg
    rcases hlisted g hg with hg | hid | hlt
    · exact h.complete g (List.mem_append_left _ hg)
    · rw [hid]
      exact h.complete active (by simp)
    · exact .inr fun i hi => (h.bounded i hi).trans_lt hlt
  · intro g hg hpassed
    rcases hlisted g hg with hg | hid | hlt
    · exact h.passed g (List.mem_append_left _ hg) hpassed
    · exact absurd (h.passed_lt g.id hpassed) (by omega)
    · exact absurd (h.passed_lt g.id hpassed) (by omega)
  · intro e he r hr hafter hlt
    refine h.noSkip e he r ?_ hafter hlt
    have hr' : r ∈ st'.log := by
      rw [hlog'.log_eq, List.flatMap_append]
      exact List.mem_append_right _ hr
    have hold : r ∈ st.log := by
      by_contra hnew
      have hfresh := hst.fresh r hr' hnew
      have := hlog.appended e (h.mem_log e he)
      omega
    rw [hlog.log_eq, List.flatMap_append] at hold
    rcases List.mem_append.mp hold with hold | hold
    · obtain ⟨g, hg, hrg⟩ := List.mem_flatMap.mp hold
      exact absurd (List.mem_flatMap.mpr ⟨g, hremoved g hg, hrg⟩) (hlog'.not_removed hr)
    · exact hold
  · intro rd hrd
    obtain ⟨i, g, j, hat⟩ := h.reader rd hrd
    obtain ⟨rs', hget', -⟩ := hst.grows.getElem? hat.file
    exact ⟨i, _, j, hat.grow hget'⟩

/-! ## One step of `Next` -/

section
variable {s : AppendFileStorage} {removed closed : List Segment} {active : Segment}
  {log : List Record} {c : WALCursor} {returned : List Entry}

/-- Everything listed in front of the next record has been delivered. -/
theorem Passing.noSkip_read (hlog : OrderedLog s removed closed active n log)
    (h : Passing removed closed active log c returned)
    (hat : ReadsAt (removed ++ (closed ++ [active])) c returned rd i g j)
    (hget : g.recs[j]? = some e) (hr : r ∈ (closed ++ [active]).flatMap (·.recs))
    (hafter : c.afterLSN < r.lsn) (hlt : r.lsn < e.lsn) : r ∈ returned := by
  obtain ⟨g', hg', hrg'⟩ := List.mem_flatMap.mp hr
  have hall : g ∈ removed ++ (closed ++ [active]) := List.mem_of_getElem? hat.file
  have hall' : g' ∈ removed ++ (closed ++ [active]) := List.mem_append_right _ hg'
  have he : e ∈ g.recs := List.mem_of_getElem? hget
  rcases Nat.lt_trichotomy g'.id g.id with hid | hid | hid
  · -- an earlier segment: it was listed when the cursor last looked, and has been passed
    have hmem : g'.id ∈ c.segments := (h.complete g' hg').resolve_right fun hbig =>
      Nat.lt_asymm hid (hbig g.id (List.mem_of_getElem? hat.segment))
    exact h.passed g' hg' (mem_take_of_increasing (f := id) h.sorted hat.segment hmem hid) r hrg'
      hafter
  · -- the same segment: an earlier record of it
    cases hlog.id_inj hall' hall hid
    exact hat.taken r (mem_take_of_increasing (hlog.increasing_recs hall) hget hrg' hlt) hafter
  · have := hlog.lsn_lt hall hall' hid e he r hrg'
    omega

/-- Delivering the entry in hand. -/
theorem Passing.deliver (hlog : OrderedLog s removed closed active n log)
    (h : Passing removed closed active log c returned) (hp : c.peeked = some e) :
    Passing removed closed active log { c with peeked := none, pc := .head } (returned ++ [e]) := by
  obtain ⟨rd, hr⟩ := Option.ne_none_iff_exists'.mp (h.peeked e hp)
  obtain ⟨i, g, j, hat⟩ := h.reader rd hr
  have hget := (hat.peeked e hp).1
  refine ⟨⟨h.sorted, h.bounded, h.complete, h.passed_lt,
    fun g hg hid r hr hlt => List.mem_append_left _ (h.passed g hg hid r hr hlt), ?_, ?_⟩, ?_,
    nofun, nofun, nofun⟩
  · intro e' he'
    rcases List.mem_append.mp he' with he' | he'
    · exact h.mem_log e' he'
    · cases List.mem_singleton.mp he'
      exact hlog.mem_log (List.mem_of_getElem? hat.file) (List.mem_of_getElem? hget)
  · intro e' he' r hr hafter hlt
    rcases List.mem_append.mp he' with he' | he'
    · exact List.mem_append_left _ (h.noSkip e' he' r hr hafter hlt)
    · cases List.mem_singleton.mp he'
      exact List.mem_append_left _ (h.noSkip_read hlog hat hget hr hafter hlt)
  · intro rd' hrd'
    cases hr.symm.trans hrd'
    exact ⟨i, g, j + 1, hat.deliver hp⟩

/-- A new listing in which the cursor keeps its place. -/
theorem Passed.relist (hlog : OrderedLog s removed closed active n log)
    (h : Passed closed active log segments segIdx afterLSN returned)
    (hkeep : ∀ i ∈ s.listSegments.take segIdx, i ∈ segments.take segIdx) :
    Passed closed active log s.listSegments segIdx afterLSN returned := by
  obtain ⟨hsorted, hbounded, hcomplete⟩ := hlog.listing
  exact ⟨hsorted, hbounded, fun g hg => .inl (hcomplete g hg),
    fun i hi => h.passed_lt i (hkeep i hi), fun g hg hi => h.passed g hg (hkeep g.id hi), h.mem_log,
    h.noSkip⟩

/-- Leaving a segment that has been read to its end. -/
theorem Passing.leave (hlog : OrderedLog s removed closed active n log)
    (h : Passing removed closed active log c returned)
    (hat : ReadsAt (removed ++ (closed ++ [active])) c returned rd i g j) (hend : g.recs[j]? = none)
    (hactive : g.id ≠ s.segmentID) :
    Passed closed active log c.segments (c.segIdx + 1) c.afterLSN returned := by
  have hall : g ∈ removed ++ (closed ++ [active]) := List.mem_of_getElem? hat.file
  have htake : c.segments.take (c.segIdx + 1) = c.segments.take c.segIdx ++ [g.id] :=
    take_succ_of_getElem? hat.segment
  refine ⟨h.sorted, h.bounded, h.complete, ?_, ?_, h.mem_log, h.noSkip⟩
  · intro i hi
    rw [htake] at hi
    rcases List.mem_append.mp hi with hi | hi
    · exact h.passed_lt i hi
    · cases List.mem_singleton.mp hi
      rw [hlog.segmentID] at hactive
      exact Nat.lt_of_le_of_ne (hlog.id_le hall) hactive
  · intro g' hg' hi r hr hlt
    rw [htake] at hi
    rcases List.mem_append.mp hi with hi | hi
    · exact h.passed g' hg' hi r hr hlt
    · cases hlog.id_inj (List.mem_append_right _ hg') hall (List.mem_singleton.mp hi)
      refine hat.taken r ?_ hlt
      rwa [List.take_of_length_le (List.getElem?_eq_none_iff.mp hend)]

end

/-! ## Keeping the place -/

namespace WALCursor

/-- If the next step lists the segments, those listed in front of the index of the cursor are among
those it had in front of it; and if it leaves a segment, the segment still ends where the reader has
met the end. -/
def KeepsPlace (s : AppendFileStorage) (c : WALCursor) : Prop :=
  match c.pc with
  | .head => c.peeked = none → c.reader = none →
    ∀ i ∈ s.listSegments.take c.segIdx, i ∈ c.segments.take c.segIdx
  | .ended => c.segments[c.segIdx]? ≠ some s.segmentID → ∀ r ∈ c.reader, r.next s.disk = none
  | .opening _ | .read => True

instance : Decidable (KeepsPlace s c) := by
  unfold KeepsPlace
  split <;> infer_instance

end WALCursor

section
variable {s : AppendFileStorage} {removed closed : List Segment} {active : Segment}
  {log : List Record} {c : WALCursor} {returned : List Entry}

theorem Passing.next (hlog : OrderedLog s removed closed active n log)
    (h : Passing removed closed active log c returned) (hkeep : c.KeepsPlace s)
    (hmove : c.Moves s c' es) : Passing removed closed active log c' (returned ++ es) := by
  cases hmove
  case deliver hp _ => exact h.deliver hlog hp
  -- the other steps deliver nothing
  all_goals rw [List.append_nil]
  case wait => exact h
  case restart =>
    exact ⟨h.toPassed, fun rd hr => (h.reader rd hr).imp fun i => .imp fun g => .imp fun j hat =>
      hat.setPc _, h.peeked, nofun, nofun⟩
  case list hp hr hpc hpc' =>
    simp only [WALCursor.KeepsPlace, hpc] at hkeep
    refine ⟨h.toPassed.relist hlog (hkeep hp hr), fun rd hrd => ?_, h.peeked, ?_, ?_⟩
    · cases hr.symm.trans hrd
    · rintro i rfl
      obtain hhead | ⟨i', hi', heq⟩ := hpc'
      · cases hhead
      · cases heq
        exact ⟨hp, hi'⟩
    · rintro rfl
      obtain hhead | ⟨i', -, heq⟩ := hpc'
      · cases hhead
      · cases heq
  case opened hpc hfd =>
    obtain ⟨hp, hseg⟩ := h.opening _ hpc
    obtain ⟨g, hg, rfl⟩ := hlog.of_lookup hfd
    refine ⟨h.toPassed, ?_, fun _ _ => Option.some_ne_none _, nofun, nofun⟩
    rintro rd ⟨⟩
    exact ⟨_, g, 0, .start hg hseg hp⟩
  case skip hp hr hpc hnext hle =>
    obtain ⟨i, g, j, hat⟩ := h.reader _ hr
    obtain ⟨hget, rfl⟩ := hat.of_next hlog hp hnext
    refine ⟨h.toPassed, ?_, fun _ _ => Option.some_ne_none _, fun i hi => ?_, fun hi => ?_⟩
    · rintro rd ⟨⟩
      exact ⟨i, g, j + 1, hat.skip hp hget hle⟩
    · cases hpc.symm.trans hi
    · cases hpc.symm.trans hi
  case read hp hr hpc hnext hlt =>
    obtain ⟨i, g, j, hat⟩ := h.reader _ hr
    obtain ⟨hget, rfl⟩ := hat.of_next hlog hp hnext
    refine ⟨h.toPassed, ?_, fun _ _ => Option.some_ne_none _, nofun, nofun⟩
    rintro rd ⟨⟩
    exact ⟨i, g, j, hat.read hget hlt⟩
  case finish hp hr _ =>
    exact ⟨h.toPassed, fun rd hr => (h.reader rd hr).imp fun i => .imp fun g => .imp fun j hat =>
      hat.setPc _, h.peeked, nofun, fun _ => ⟨hp, hr ▸ Option.some_ne_none _⟩⟩
  case close hpc =>
    refine ⟨h.toPassed, nofun, fun e he => ?_, nofun, nofun⟩
    cases (h.ended hpc).1.symm.trans he
  case leave hpc hactive =>
    obtain ⟨hp, hne⟩ := h.ended hpc
    obtain ⟨rd, hr⟩ := Option.ne_none_iff_exists'.mp hne
    obtain ⟨i, g, j, hat⟩ := h.reader rd hr
    simp only [WALCursor.KeepsPlace, hpc] at hkeep
    have hend := hkeep hactive rd hr
    rw [hat.next hlog hp, Option.map_eq_none_iff] at hend
    rw [hat.segment] at hactive
    refine ⟨h.leave hlog hat hend fun heq => hactive (congrArg some heq), nofun, fun e he => ?_,
      nofun, nofun⟩
    cases hp.symm.trans he

/-- A new cursor. -/
theorem Passing.cursorFrom (hlog : OrderedLog s removed closed active n log) :
    Passing removed closed active log (cursorFrom s afterLSN) [] := by
  have hlist : s.listSegments = (closed ++ [active]).map (·.id) := hlog.listSegments
  obtain ⟨past, g, rest, hsplit, hidx, hpast⟩ := hlog.startIdx afterLSN
  have htake : s.listSegments.take (startIdx s afterLSN s.listSegments) = past.map (·.id) := by
    rw [hidx, hlist, hsplit, List.map_append, List.take_left' (by simp)]
  obtain ⟨hsorted, hbounded, hcomplete⟩ := hlog.listing
  refine ⟨⟨hsorted, hbounded, fun g hg => .inl (hcomplete g hg), ?_, ?_, nofun, nofun⟩, nofun, nofun,
    nofun, nofun⟩
  · intro i hi
    simp only [Wal.cursorFrom, htake] at hi
    obtain ⟨x, hx, rfl⟩ := List.mem_map.mp hi
    exact id_lt_active hlog.sorted (List.mem_append_right _ (hpast x hx).1)
  · intro g' hg' hi r hr hlt
    simp only [Wal.cursorFrom, htake] at hi
    obtain ⟨x, hx, hid⟩ := List.mem_map.mp hi
    have hx' : x ∈ removed ++ (closed ++ [active]) := by simp [(hpast x hx).1]
    cases hlog.id_inj hx' (List.mem_append_right _ hg') hid
    exact absurd ((hpast _ hx).2 r hr) (Nat.not_le.mpr hlt)

end

/-! ## Runs -/

namespace StreamState

/-- Every entry that is durable, still listed and in front of an entry delivered has been delivered
as well. -/
def NoSkip (st : StreamState) : Prop :=
  ∀ c ∈ st.cursor, ∀ e ∈ st.returned, ∀ r ∈ st.store.disk.records,
    r.lsn ≤ st.store.durableLSN → c.afterLSN < r.lsn → r.lsn < e.lsn → r ∈ st.returned

instance : Decidable (NoSkip st) := by
  unfold NoSkip
  infer_instance

/-- Records fit, and every step of `Next` keeps the place of the cursor. -/
def NoShift (st : StreamState) : StreamOp → Prop
  | .next => ∀ c ∈ st.cursor, c.KeepsPlace st.store
  | op => st.Fits op

instance : DecidablePred (NoShift st)
  | .next => inferInstanceAs (Decidable (∀ c ∈ st.cursor, c.KeepsPlace st.store))
  | .appendPut key value => inferInstanceAs (Decidable (st.Fits (.appendPut key value)))
  | .appendDelete key => inferInstanceAs (Decidable (st.Fits (.appendDelete key)))
  | .rotate => inferInstanceAs (Decidable (st.Fits .rotate))
  | .sync | .purgeUpTo _ | .cursorFrom _ => isTrue trivial

/-- The invariant of runs with purges. -/
def PurgeInv (st : StreamState) : Prop :=
  ∃ removed closed active, InOrder st removed closed active ∧
    ∀ c, st.cursor = some c → Passing removed closed active st.log c st.returned

variable {st st' : StreamState}

theorem PurgeInv.store_step (h : PurgeInv st) (hfits : st.Fits op) (hstep : st.step op = some st')
    (hnext : op ≠ .next) (hcursor : ∀ n, op ≠ .cursorFrom n) : PurgeInv st' := by
  obtain ⟨removed, closed, active, ⟨n, hlog⟩, hpass⟩ := h
  obtain ⟨removed', closed', active', ⟨n', hlog'⟩, hst, -⟩ :=
    InOrder.step ⟨n, hlog⟩ hfits hstep hnext hcursor
  refine ⟨removed', closed', active', ⟨n', hlog'⟩, fun c hc => ?_⟩
  rw [hst.cursor] at hc
  rw [hst.returned]
  exact (hpass c hc).store_step hlog hlog' hst

theorem PurgeInv.step (h : PurgeInv st) (hok : st.NoShift op) (hstep : st.step op = some st') :
    PurgeInv st' := by
  obtain ⟨removed, closed, active, ⟨n, hlog⟩, hpass⟩ := h
  cases op with
  | cursorFrom afterLSN =>
    cases hstep
    refine ⟨removed, closed, active, ⟨n, hlog⟩, ?_⟩
    rintro c ⟨⟩
    exact .cursorFrom hlog
  | next =>
    obtain ⟨c, hc, rfl⟩ := Option.map_eq_some_iff.mp hstep
    refine ⟨removed, closed, active, ⟨n, hlog⟩, ?_⟩
    rintro c' ⟨⟩
    exact (hpass c hc).next hlog (hok c hc) (c.next_moves st.store)
  | appendPut | appendDelete | sync | rotate | purgeUpTo =>
    refine PurgeInv.store_step ⟨removed, closed, active, ⟨n, hlog⟩, hpass⟩ ?_ hstep (by simp)
      (by simp)
    exact hok

theorem PurgeInv.noSkip (h : PurgeInv st) : NoSkip st := by
  obtain ⟨removed, closed, active, ⟨n, hlog⟩, hpass⟩ := h
  intro c hc e he r hr _ hafter hlt
  rw [hlog.records] at hr
  exact (hpass c hc).noSkip e he r hr hafter hlt

/-- In every run in which each step of `Next` keeps the place of the cursor, the cursor skips no
entry that still exists. -/
theorem noSkip_of_noShift (hok : System.Guarded step NoShift (init segmentSize bufferSize) ops)
    (hrun : System.run step (init segmentSize bufferSize) ops = some st) : NoSkip st := by
  refine PurgeInv.noSkip <| System.run_invariant_of_guarded (I := fun _ st => PurgeInv st)
    ⟨[], [], _, ⟨0, OrderedLog.new⟩, ?_⟩ (fun h hok hs => h.step hok hs) hok hrun
  rintro c ⟨⟩

/-- The first segment is purged before the cursor has read any; nothing that is left is skipped. -/
theorem noSkip_of_noShift_purged : ∃ st ∈ System.run step (init 20 65536)
    ([.appendPut [97] [49], .appendPut [98] [50], .appendPut [99] [51], .cursorFrom 0, .purgeUpTo 1]
      ++ List.replicate 10 .next), NoSkip st ∧ st.returned.map (·.lsn) = [2, 3] := by
  refine ⟨Option.get _ (by decide +kernel), Option.get_mem _, ?_, by decide +kernel⟩
  exact noSkip_of_noShift (by decide +kernel) (Option.some_get _).symm

/-- Between the first and the third record the cursor has skipped the second one. -/
def SkippedSecond (st : StreamState) : Prop :=
  st.returned = [⟨1, opPut, [97], [49]⟩, ⟨3, opPut, [99], [51]⟩] ∧
    ⟨2, opPut, [98], [50]⟩ ∈ st.store.disk.records ∧ st.store.durableLSN = 3 ∧
    st.cursor.map (·.afterLSN) = some 0

instance : Decidable (SkippedSecond st) := inferInstanceAs (Decidable (_ ∧ _ ∧ _ ∧ _))

/-- The second record fills the segment after `Next` has met its end, and before it asks for the
active one. -/
def writtenAtEnd : List StreamOp :=
  [.appendPut [97] [49], .sync, .cursorFrom 0] ++ List.replicate 6 .next ++
    [.appendPut [98] [50], .appendPut [99] [51], .sync] ++ List.replicate 6 .next

/-- Three segments of one record each. The first is purged after the cursor has delivered its
record, the index moves on to the third one, and the second record, durable and listed, is never
delivered. Nor is it, without any purge, if it is written while `Next` is on its way. -/
theorem purge_shifts_cursor :
    (∃ st ∈ System.run step (init 20 65536)
      ([.appendPut [97] [49], .appendPut [98] [50], .appendPut [99] [51], .cursorFrom 0] ++
        List.replicate 4 .next ++ [.purgeUpTo 1] ++ List.replicate 6 .next),
      SkippedSecond st ∧ ¬NoSkip st) ∧
    ∃ st ∈ System.run step (init 40 65536) writtenAtEnd, SkippedSecond st ∧ ¬NoSkip st := by
  decide +kernel

end StreamState
end ChudDB.Wal
