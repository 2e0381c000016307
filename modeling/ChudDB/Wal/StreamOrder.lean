import ChudDB.Wal.StreamPurge

/-! # In-order streaming

Without purges a cursor delivers the durable entries behind `afterLSN` once and in order, as long as
no call of `Next` opens a segment from which entries have been delivered already, or leaves one to
which a record has been written behind the end that it has met (`streamed_of_noReread`). The first
happens after `io.EOF` at the end of the active segment: the reader is gone by then, and `Next` reads
the segment from its start again. -/

namespace ChudDB.Wal
open Lib

/-- Everything that stands in front of a chosen element is chosen too. -/
theorem prefix_of_downward {chosen all : List Record} (hchosen : chosen.Pairwise (·.lsn < ·.lsn))
    (hall : all.Pairwise (·.lsn < ·.lsn)) (hsub : ∀ e ∈ chosen, e ∈ all)
    (hdown : ∀ e ∈ chosen, ∀ r ∈ all, r.lsn < e.lsn → r ∈ chosen) : chosen <+: all := by
  induction all generalizing chosen with
  | nil =>
    rw [List.eq_nil_iff_forall_not_mem.mpr fun e he => List.not_mem_nil (hsub e he)]
  | cons r all ih =>
    cases chosen with
    | nil => exact List.nil_prefix
    | cons e chosen =>
      obtain ⟨hfirst, hchosen⟩ := List.pairwise_cons.mp hchosen
      obtain ⟨hr, hrest⟩ := List.pairwise_cons.mp hall
      have heq : e = r := by
        refine (List.mem_cons.mp (hsub e List.mem_cons_self)).resolve_right fun he => ?_
        have hlt := hr e he
        rcases List.mem_cons.mp (hdown e List.mem_cons_self r List.mem_cons_self hlt) with rfl | hmem
        · exact Nat.lt_irrefl _ hlt
        · exact Nat.lt_asymm hlt (hfirst r hmem)
      subst heq
      refine List.cons_prefix_cons.mpr ⟨rfl, ih hchosen hrest (fun e' he' => ?_) ?_⟩
      · refine (List.mem_cons.mp (hsub e' (List.mem_cons_of_mem _ he'))).resolve_left ?_
        rintro rfl
        exact Nat.lt_irrefl _ (hfirst _ he')
      · intro e' he' r hmem hlt
        refine (List.mem_cons.mp (hdown e' (List.mem_cons_of_mem _ he') r
          (List.mem_cons_of_mem _ hmem) hlt)).resolve_left ?_
        rintro rfl
        exact Nat.lt_irrefl _ (hr _ hmem)

/-- The cursor has an earlier listing, in which it has delivered durable entries in their order, and
nothing that it is about to read. -/
structure Ahead (s : AppendFileStorage) (segs : List Segment) (c : WALCursor)
    (returned : List Entry) : Prop where
  listing : c.segments <+: s.listSegments
  segIdx : c.segIdx ≤ c.segments.length
  increasing : returned.Pairwise (·.lsn < ·.lsn)
  durable : ∀ e ∈ returned, c.afterLSN < e.lsn ∧ e.lsn ≤ s.durableLSN
  reader : ∀ rd, c.reader = some rd →
    ∃ i g j, ReadsAt segs c returned rd i g j ∧ ∀ r ∈ g.recs.drop j, r ∉ returned

/-- The segment that the next step opens holds nothing that has been delivered, and the segment that
it leaves still ends where the reader has met the end. -/
def WALCursor.OpensUnread (s : AppendFileStorage) (returned : List Entry) (c : WALCursor) : Prop :=
  match c.pc with
  | .opening i => ∀ r ∈ (readSegment checksumIEEE (s.disk.data i)).1, r ∉ returned
  | .ended => c.KeepsPlace s
  | .head | .read => True

instance : Decidable (WALCursor.OpensUnread s returned c) :=
  match c with
  | ⟨_, _, _, _, _, .opening _⟩ => inferInstanceAs (Decidable (∀ r ∈ _, r ∉ returned))
  | ⟨a, i, l, r, p, .ended⟩ =>
    inferInstanceAs (Decidable (WALCursor.KeepsPlace s ⟨a, i, l, r, p, .ended⟩))
  | ⟨_, _, _, _, _, .head⟩ | ⟨_, _, _, _, _, .read⟩ => isTrue trivial

section
variable {s s' : AppendFileStorage} {closed closed' : List Segment} {active active' : Segment}
  {log : List Record} {c c' : WALCursor} {returned : List Entry}

theorem Ahead.store_step (hlog : OrderedLog s [] closed active n log)
    (hlog' : OrderedLog s' [] closed' active' n' log')
    (hgrows : Grows (closed ++ [active]) (closed' ++ [active']))
    (hdurable : s.durableLSN ≤ s'.durableLSN) (hmem : ∀ e ∈ returned, e ∈ log)
    (h : Ahead s (closed ++ [active]) c returned) : Ahead s' (closed' ++ [active']) c returned where
  listing := by
    refine h.listing.trans ?_
    obtain ⟨init, a, rs, more, heq, heq'⟩ := hgrows
    rw [AppendFileStorage.listSegments, AppendFileStorage.listSegments, hlog.listSegments,
      hlog'.listSegments, heq, heq']
    simp
  segIdx := h.segIdx
  increasing := h.increasing
  durable := fun e he => (h.durable e he).imp_right fun hle => hle.trans hdurable
  reader := by
    intro rd hrd
    obtain ⟨i, g, j, hat, hfresh⟩ := h.reader rd hrd
    obtain ⟨rs, hget, hnew⟩ := hgrows.getElem? hat.file
    refine ⟨i, _, j, hat.grow hget, fun r hr hret => ?_⟩
    rw [List.drop_append_of_le_length hat.le] at hr
    rcases List.mem_append.mp hr with hr | hr
    · exact hfresh r hr hret
    · exact hnew (hlog'.log_eq ▸ hlog'.increasing) r hr (hlog.log_eq ▸ hmem r hret)

/-- Without a purge a new listing only adds segments, so the cursor keeps its place. -/
theorem Ahead.keepsPlace (h : Ahead s segs c returned) (hopens : c.OpensUnread s returned) :
    c.KeepsPlace s := by
  rw [WALCursor.OpensUnread] at hopens
  cases hpc : c.pc with
  | ended => simpa only [hpc] using hopens
  | opening i => simp only [WALCursor.KeepsPlace, hpc]
  | read => simp only [WALCursor.KeepsPlace, hpc]
  | head =>
    simp only [WALCursor.KeepsPlace, hpc]
    intro _ _ i hi
    obtain ⟨more, hmore⟩ := h.listing
    rwa [← hmore, List.take_append_of_le_length h.segIdx] at hi

/-- The entry in hand is the next one to be delivered. -/
theorem Ahead.lt_peeked (hlog : OrderedLog s [] closed active n log)
    (hpass : Passing [] closed active log c returned) (h : Ahead s (closed ++ [active]) c returned)
    (hp : c.peeked = some e) : ∀ e' ∈ returned, e'.lsn < e.lsn := by
  intro e' he'
  obtain ⟨rd, hr⟩ := Option.ne_none_iff_exists'.mp (hpass.peeked e hp)
  obtain ⟨i, g, j, hat, hfresh⟩ := h.reader rd hr
  obtain ⟨hget, hlt⟩ := hat.peeked e hp
  obtain ⟨hj, hval⟩ := List.getElem?_eq_some_iff.mp hget
  have hnot : e ∉ returned := hfresh e (hval ▸ List.drop_eq_getElem_cons hj ▸ List.mem_cons_self)
  have hmem : e ∈ (closed ++ [active]).flatMap (·.recs) :=
    List.mem_flatMap.mpr ⟨g, List.mem_of_getElem? hat.file, List.mem_of_getElem? hget⟩
  have hmem' : e' ∈ (closed ++ [active]).flatMap (·.recs) := hlog.log_eq ▸ hpass.mem_log e' he'
  have hinc : ((closed ++ [active]).flatMap (·.recs)).Pairwise (·.lsn < ·.lsn) :=
    hlog.log_eq ▸ hlog.increasing
  rcases Nat.lt_trichotomy e.lsn e'.lsn with hlt' | heq | hlt'
  · exact absurd (hpass.noSkip e' he' e hmem hlt hlt') hnot
  · have hinj := List.inj_on_of_nodup_map (List.pairwise_map.mpr (hinc.imp Nat.ne_of_lt)) hmem hmem'
      heq
    exact absurd (hinj ▸ he') hnot
  · exact hlt'

/-- An entry that is delivered is durable: those of the closed segments are. -/
theorem Passing.durable_peeked (hlog : OrderedLog s [] closed active n log)
    (hpass : Passing [] closed active log c returned) (hp : c.peeked = some e)
    (hsafe : e.lsn ≤ s.durableLSN ∨ c.segments[c.segIdx]? ≠ some s.segmentID) :
    c.afterLSN < e.lsn ∧ e.lsn ≤ s.durableLSN := by
  obtain ⟨rd, hr⟩ := Option.ne_none_iff_exists'.mp (hpass.peeked e hp)
  obtain ⟨i, g, j, hat⟩ := hpass.reader rd hr
  obtain ⟨hget, hlt⟩ := hat.peeked e hp
  refine ⟨hlt, hsafe.elim id fun hactive => ?_⟩
  have hmem : g ∈ closed ++ [active] := List.mem_of_getElem? hat.file
  rcases List.mem_append.mp hmem with hclosed | hlast
  · exact hlog.durable g hclosed e (List.mem_of_getElem? hget)
  · cases List.mem_singleton.mp hlast
    exact absurd (hat.segment.trans (congrArg some hlog.segmentID.symm)) hactive

theorem Ahead.deliver (hlog : OrderedLog s [] closed active n log)
    (hpass : Passing [] closed active log c returned) (h : Ahead s (closed ++ [active]) c returned)
    (hp : c.peeked = some e)
    (hsafe : e.lsn ≤ s.durableLSN ∨ c.segments[c.segIdx]? ≠ some s.segmentID) :
    Ahead s (closed ++ [active]) { c with peeked := none, pc := .head } (returned ++ [e]) := by
  have hdurable := hpass.durable_peeked hlog hp hsafe
  refine ⟨h.listing, h.segIdx, ?_, ?_, fun rd hr => ?_⟩
  · refine List.pairwise_append.mpr ⟨h.increasing, List.pairwise_singleton .., fun e' he' e he => ?_⟩
    rw [List.mem_singleton.mp he]
    exact h.lt_peeked hlog hpass hp e' he'
  · intro e' he'
    rcases List.mem_append.mp he' with he' | he'
    · exact h.durable e' he'
    · cases List.mem_singleton.mp he'
      exact hdurable
  · obtain ⟨i, g, j, hat, hfresh⟩ := h.reader rd hr
    refine ⟨i, g, j + 1, hat.deliver hp, fun r hr hret => ?_⟩
    obtain ⟨hj, hval⟩ := List.getElem?_eq_some_iff.mp (hat.peeked _ hp).1
    rcases List.mem_append.mp hret with hret | hret
    · exact hfresh r (List.drop_eq_getElem_cons hj ▸ List.mem_cons_of_mem _ hr) hret
    · -- the records of a segment are in the order of their LSNs
      have hinc := (hlog.increasing_recs (List.mem_of_getElem? hat.file)).sublist
        (List.drop_sublist j g.recs)
      rw [List.drop_eq_getElem_cons hj, List.pairwise_cons, hval] at hinc
      exact Nat.lt_irrefl _ (List.mem_singleton.mp hret ▸ hinc.1 r hr)

theorem Ahead.next (hlog : OrderedLog s [] closed active n log)
    (hpass : Passing [] closed active log c returned) (h : Ahead s (closed ++ [active]) c returned)
    (hopens : c.OpensUnread s returned) (hmove : c.Moves s c' es) :
    Ahead s (closed ++ [active]) c' (returned ++ es) := by
  cases hmove
  case deliver hp hsafe => exact h.deliver hlog hpass hp hsafe
  all_goals rw [List.append_nil]
  case wait => exact h
  case restart | finish =>
    exact ⟨h.listing, h.segIdx, h.increasing, h.durable, fun rd hr => (h.reader rd hr).imp
      fun i => .imp fun g => .imp fun j hat => ⟨hat.1.setPc _, hat.2⟩⟩
  case list hp hr _ _ =>
    refine ⟨List.prefix_rfl, h.segIdx.trans h.listing.length_le, h.increasing, h.durable,
      fun rd hrd => ?_⟩
    cases hr.symm.trans hrd
  case opened hpc hfd =>
    obtain ⟨hp, hseg⟩ := hpass.opening _ hpc
    obtain ⟨g, hg, rfl⟩ := hlog.of_lookup hfd
    have hmem : g ∈ closed ++ [active] := List.mem_of_getElem? hg
    refine ⟨h.listing, h.segIdx, h.increasing, h.durable, ?_⟩
    rintro rd ⟨⟩
    refine ⟨_, g, 0, .start hg hseg hp, ?_⟩
    simp only [WALCursor.OpensUnread, hpc] at hopens
    rwa [hlog.data hmem, (hlog.wf g hmem).readSegment] at hopens
  case skip hp hr _ hnext hle =>
    obtain ⟨i, g, j, hat, hfresh⟩ := h.reader _ hr
    obtain ⟨hget, rfl⟩ := hat.of_next hlog hp hnext
    refine ⟨h.listing, h.segIdx, h.increasing, h.durable, ?_⟩
    rintro rd ⟨⟩
    refine ⟨i, g, j + 1, hat.skip hp hget hle, fun r hr => hfresh r ?_⟩
    exact List.mem_of_mem_drop (i := 1) (by rwa [List.drop_drop])
  case read hp hr _ hnext hlt =>
    obtain ⟨i, g, j, hat, hfresh⟩ := h.reader _ hr
    obtain ⟨hget, rfl⟩ := hat.of_next hlog hp hnext
    refine ⟨h.listing, h.segIdx, h.increasing, h.durable, ?_⟩
    rintro rd ⟨⟩
    exact ⟨i, g, j, hat.read hget hlt, hfresh⟩
  case close => exact ⟨h.listing, h.segIdx, h.increasing, h.durable, nofun⟩
  case leave hpc _ =>
    obtain ⟨rd, hr⟩ := Option.ne_none_iff_exists'.mp (hpass.ended hpc).2
    obtain ⟨i, g, j, hat, -⟩ := h.reader rd hr
    exact ⟨h.listing, lt_length_of_getElem? hat.segment, h.increasing, h.durable, nofun⟩

end

/-! ## Runs -/

namespace StreamState

/-- The entries delivered are a prefix of the durable ones behind `afterLSN`, and their LSNs
increase. -/
def Streamed (st : StreamState) : Prop :=
  ∀ c ∈ st.cursor,
    st.returned <+: (st.log.filter fun r => c.afterLSN < r.lsn ∧ r.lsn ≤ st.store.durableLSN) ∧
      st.returned.Pairwise (·.lsn < ·.lsn)

instance : Decidable (Streamed st) := by
  unfold Streamed
  infer_instance

/-- There is no purge, records fit, and `Next` opens no segment that it has delivered from and
leaves none that has grown behind the end that it has met. -/
def NoReread (st : StreamState) : StreamOp → Prop
  | .purgeUpTo _ => False
  | .next => ∀ c ∈ st.cursor, c.OpensUnread st.store st.returned
  | op => st.Fits op

instance : DecidablePred (NoReread st)
  | .purgeUpTo _ => isFalse not_false
  | .next => inferInstanceAs (Decidable (∀ c ∈ st.cursor, c.OpensUnread st.store st.returned))
  | .appendPut key value => inferInstanceAs (Decidable (st.Fits (.appendPut key value)))
  | .appendDelete key => inferInstanceAs (Decidable (st.Fits (.appendDelete key)))
  | .rotate => inferInstanceAs (Decidable (st.Fits .rotate))
  | .sync | .cursorFrom _ => isTrue trivial

/-- The invariant of runs without purges. -/
def StreamInv (st : StreamState) : Prop :=
  ∃ closed active, InOrder st [] closed active ∧ ∀ c, st.cursor = some c →
    Passing [] closed active st.log c st.returned ∧
      Ahead st.store (closed ++ [active]) c st.returned

variable {st st' : StreamState}

theorem StreamInv.store_step (h : StreamInv st) (hfits : st.Fits op)
    (hstep : st.step op = some st') (hnext : op ≠ .next) (hcursor : ∀ n, op ≠ .cursorFrom n)
    (hpurge : ∀ n, op ≠ .purgeUpTo n) : StreamInv st' := by
  obtain ⟨closed, active, ⟨n, hlog⟩, hstream⟩ := h
  obtain ⟨removed', closed', active', ⟨n', hlog'⟩, hst, hremoved⟩ :=
    InOrder.step ⟨n, hlog⟩ hfits hstep hnext hcursor
  cases hremoved hpurge
  refine ⟨closed', active', ⟨n', hlog'⟩, fun c hc => ?_⟩
  rw [hst.cursor] at hc
  obtain ⟨hpass, hahead⟩ := hstream c hc
  rw [hst.returned]
  exact ⟨hpass.store_step hlog hlog' hst,
    hahead.store_step hlog hlog' hst.grows hst.durable hpass.mem_log⟩

theorem StreamInv.step (h : StreamInv st) (hok : st.NoReread op) (hstep : st.step op = some st') :
    StreamInv st' := by
  cases op with
  | purgeUpTo n => exact absurd hok id
  | cursorFrom afterLSN =>
    obtain ⟨closed, active, ⟨n, hlog⟩, -⟩ := h
    cases hstep
    refine ⟨closed, active, ⟨n, hlog⟩, ?_⟩
    rintro c ⟨⟩
    obtain ⟨past, g, rest, hsplit, hidx, -⟩ := hlog.startIdx afterLSN
    refine ⟨.cursorFrom hlog, List.prefix_rfl, ?_, .nil, nofun, nofun⟩
    have hlist : st.store.listSegments = (closed ++ [active]).map (·.id) := hlog.listSegments
    simp only [Wal.cursorFrom]
    rw [hidx, hlist, hsplit]
    simp
  | next =>
    obtain ⟨closed, active, ⟨n, hlog⟩, hstream⟩ := h
    obtain ⟨c, hc, rfl⟩ := Option.map_eq_some_iff.mp hstep
    obtain ⟨hpass, hahead⟩ := hstream c hc
    have hmove := c.next_moves st.store
    refine ⟨closed, active, ⟨n, hlog⟩, ?_⟩
    rintro c' ⟨⟩
    exact ⟨hpass.next hlog (hahead.keepsPlace (hok c hc)) hmove,
      hahead.next hlog hpass (hok c hc) hmove⟩
  | appendPut | appendDelete | sync | rotate =>
    refine h.store_step ?_ hstep (by simp) (by simp) (by simp)
    exact hok

theorem StreamInv.streamed (h : StreamInv st) : Streamed st := by
  obtain ⟨closed, active, ⟨n, hlog⟩, hstream⟩ := h
  intro c hc
  obtain ⟨hpass, hahead⟩ := hstream c hc
  refine ⟨prefix_of_downward hahead.increasing (hlog.increasing.sublist List.filter_sublist)
    (fun e he => List.mem_filter.mpr ⟨hpass.mem_log e he, by simpa using hahead.durable e he⟩) ?_,
    hahead.increasing⟩
  intro e he r hr hlt
  obtain ⟨hr, hbetween⟩ := List.mem_filter.mp hr
  exact hpass.noSkip e he r (hlog.log_eq ▸ hr) (of_decide_eq_true hbetween).1 hlt

/-- In every run without purges in which `Next` never opens a segment it has delivered from, and
never leaves one that has grown behind the end it has met, the cursor streams the durable log. -/
theorem streamed_of_noReread (hok : System.Guarded step NoReread (init segmentSize bufferSize) ops)
    (hrun : System.run step (init segmentSize bufferSize) ops = some st) : Streamed st := by
  refine StreamInv.streamed <| System.run_invariant_of_guarded (I := fun _ st => StreamInv st)
    ⟨[], _, ⟨0, OrderedLog.new⟩, ?_⟩ (fun h hok hs => h.step hok hs) hok hrun
  rintro c ⟨⟩

/-- Three segments, of which the cursor skips the first and delivers the rest; the last record is
written while `Next` is on its way. -/
theorem streamed_of_noReread_rotating : ∃ st ∈ System.run step (init 20 65536)
    ([.appendPut [97] [49], .appendDelete [98], .cursorFrom 1] ++ List.replicate 5 .next ++
      [.appendPut [99] [51]] ++ List.replicate 5 .next),
    Streamed st ∧ st.returned.map (·.lsn) = [2, 3] := by
  refine ⟨Option.get _ (by decide +kernel), Option.get_mem _, ?_, by decide +kernel⟩
  exact streamed_of_noReread (by decide +kernel) (Option.some_get _).symm

/-- Calling `Next` again after `io.EOF` delivers the only entry of the log a second time; and a
record that is written while `Next` is on its way is skipped. -/
theorem next_after_eof_repeats :
    (∃ st ∈ System.run step (init 67108864 65536)
      ([.appendPut [97] [49], .sync, .cursorFrom 0] ++ List.replicate 12 .next),
      st.returned = [⟨1, opPut, [97], [49]⟩, ⟨1, opPut, [97], [49]⟩] ∧ ¬Streamed st) ∧
    ∃ st ∈ System.run step (init 40 65536) writtenAtEnd, SkippedSecond st ∧ ¬Streamed st := by
  decide +kernel

end StreamState
end ChudDB.Wal
