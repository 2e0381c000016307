import ChudDB.Engine.Acknowledgement

/-! # Every write is answered

Once no more requests and no more callers of `WaitDurable` arrive, the writer works off what it has,
whatever fails, as long as each goroutine that can go on is given a turn. With the invariant this
gives the contract of the queue: every request is answered exactly once, and one that asked for it
is answered without an error only when its record is durable (`acknowledged_durable`). -/

namespace ChudDB
open Lib Wal

/-- The goroutines that must be given turns. -/
inductive Thread where
  | writer
  | caller (i : Nat)
deriving DecidableEq

namespace Turn

def thread : Turn → Option Thread
  | .writer .. => some .writer
  | .caller i _ => some (.caller i)
  | _ => none

/-- Something new comes in from outside. -/
def Arrives : Turn → Prop
  | .send .. | .stopWriter | .waitDurable _ => True
  | _ => False

instance : DecidablePred Arrives
  | .send .. | .stopWriter | .waitDurable _ => isTrue trivial
  | .writer .. | .caller .. | .store .. => isFalse not_false

end Turn

namespace WriteQueue

variable {cfg : Config} {s s' : WriteQueue}

/-- How many answers a request has received. -/
def answers (s : WriteQueue) (r : WriteReq) : Nat := s.replies.countP (·.req.done == r.done)

/-- Nothing is left to do. -/
def Idle (s : WriteQueue) : Prop := s.writeCh = [] ∧ (s.loop = .receive ∨ s.loop = .stopped)

/-! ## The rank -/

/-- The steps that the writer has before it, those within `WaitDurable` apart. -/
def work (s : WriteQueue) : Nat :=
  10 * s.writeCh.length +
    match s.loop with
    | .receive | .stopped => 0
    | .drain batch => 3 * batch.length + 6
    | .apply batch rest => 2 * batch.length + 3 * rest.length + 5
    | .signalAsync batch rest => batch.length + rest.length + 4
    | .wait batch _ => batch.length + 3
    | .signalSync _ rest => rest.length + 1

def callRank (s : WriteQueue) : Nat :=
  match s.loop with
  | .wait _ i => (s.wal.calls[i]?.map s.wal.rank).getD 0
  | _ => 0

def rank (s : WriteQueue) : ℕ ×ₗ ℕ := toLex (s.work, s.callRank)

/-- Whose turn brings the writer on. -/
def helpful (s : WriteQueue) : Thread :=
  match s.loop with
  | .wait _ i =>
    match s.wal.calls[i]?.map (s.wal.helper i) with
    | some j => if j = i then .writer else .caller j
    | none => .writer
  | _ => .writer

theorem rank_lt_of_work (h : s'.work < s.work) : s'.rank < s.rank :=
  Prod.Lex.toLex_lt_toLex.mpr (.inl h)

theorem callRank_of_wait (hloop : s.loop = .wait batch i) (hc : s.wal.calls[i]? = some c) :
    s.callRank = s.wal.rank c := by
  rw [callRank, hloop]
  dsimp only
  rw [hc]
  rfl

theorem helpful_of_wait (hloop : s.loop = .wait batch i) (hc : s.wal.calls[i]? = some c) :
    s.helpful = if s.wal.helper i c = i then .writer else .caller (s.wal.helper i c) := by
  rw [helpful, hloop]
  dsimp only
  rw [hc]
  rfl

theorem rank_lt_of_wal (hloop : s.loop = .wait batch i) (hc : s.wal.calls[i]? = some c)
    (hc' : wal'.calls[i]? = some c') (hlt : wal'.rank c' < s.wal.rank c) :
    { s with wal := wal' }.rank < s.rank := by
  refine Prod.Lex.toLex_lt_toLex.mpr (.inr ⟨rfl, ?_⟩)
  rw [callRank_of_wait hloop hc]
  exact (callRank_of_wait (s := { s with wal := wal' }) hloop hc').trans_lt hlt

/-- Every step outside of `WaitDurable` is one step less. -/
theorem WriterStep.progress (hstep : WriterStep cfg s s') (h : s.Inv) :
    s'.Idle ∨ s'.rank < s.rank := by
  cases hstep with
  | stop hloop hch hclosed => exact .inl ⟨hch, .inr rfl⟩
  | call hloop hmove =>
    have hwaits := h.waitsFor
    rw [hloop] at hwaits
    obtain ⟨c, hc, -, hhonest⟩ := hwaits
    obtain ⟨c₁, pc, hc₁, hmove⟩ := WAL.moves_of_stepCall hmove
    cases hc.symm.trans hc₁
    exact .inr (rank_lt_of_wal hloop hc (hmove.getElem? h.wal hc) (hmove.rank_lt h.wal hc hhonest))
  | receive hloop hch =>
    refine .inr (rank_lt_of_work ?_)
    rw [work, work, hloop, hch, List.length_cons]
    dsimp only [List.length_singleton]
    omega
  | drain hloop hch =>
    refine .inr (rank_lt_of_work ?_)
    rw [work, work, hloop, hch, List.length_cons]
    dsimp only
    rw [List.length_append, List.length_singleton]
    omega
  | apply hloop happly =>
    refine .inr (rank_lt_of_work ?_)
    rw [work, work, hloop]
    dsimp only
    rw [List.length_append, List.length_singleton, List.length_cons]
    omega
  | drained hloop | applied hloop | signalAsync hloop | skipSync hloop | wait hloop | noSync hloop
  | returned hloop | signalSync hloop | skipAsync hloop | done hloop =>
    refine .inr (rank_lt_of_work ?_)
    rw [work, work, hloop]
    simp only [reply, List.length_cons, List.length_nil]
    omega

/-- Others, who change the WAL only, do not hold the writer up. -/
theorem progress_of_wal (h : s.Inv) (hother : t ≠ some Thread.writer)
    (hwait : ∀ batch i c, s.loop = .wait batch i → s.wal.calls[i]? = some c → s.wal.Honest c →
      ∃ c', wal'.calls[i]? = some c' ∧ (wal'.rank c' < s.wal.rank c ∨
        wal'.rank c' = s.wal.rank c ∧ wal'.helper i c' = s.wal.helper i c ∧
          t ≠ some (.caller (s.wal.helper i c)))) :
    { s with wal := wal' }.rank < s.rank ∨
      { s with wal := wal' }.rank = s.rank ∧ { s with wal := wal' }.helpful = s.helpful ∧
        t ≠ some s.helpful := by
  by_cases hloop : ∃ batch i, s.loop = .wait batch i
  · obtain ⟨batch, i, hloop⟩ := hloop
    have hwaits := h.waitsFor
    rw [hloop] at hwaits
    obtain ⟨c, hc, -, hhonest⟩ := hwaits
    obtain ⟨c', hc', hlt | ⟨hrank, hhelper, hcaller⟩⟩ := hwait batch i c hloop hc hhonest
    · exact .inl (rank_lt_of_wal hloop hc hc' hlt)
    · have hcallRank := callRank_of_wait (s := { s with wal := wal' }) hloop hc'
      have hhelpful := helpful_of_wait (s := { s with wal := wal' }) hloop hc'
      dsimp only at hcallRank hhelpful
      right
      rw [rank, rank, hcallRank, hrank, hhelpful, hhelper, callRank_of_wait hloop hc,
        helpful_of_wait hloop hc]
      refine ⟨rfl, rfl, ?_⟩
      split
      · exact hother
      · exact hcaller
  · -- Outside of `WaitDurable` the WAL plays no role.
    have hwriter : ∀ wal'', { s with wal := wal'' }.callRank = 0 ∧
        { s with wal := wal'' }.helpful = .writer := by
      intro wal''
      rw [callRank, helpful]
      dsimp only
      split
      · rename_i hwait
        exact absurd ⟨_, _, hwait⟩ hloop
      · exact ⟨rfl, rfl⟩
    right
    rw [rank, rank, (hwriter wal').1, (hwriter wal').2, (hwriter s.wal).1, (hwriter s.wal).2]
    exact ⟨rfl, rfl, hother⟩

theorem progress (h : s.Inv) (hlsn : s.LsnLeft turn) (harrives : ¬ turn.Arrives)
    (hstep : step cfg s turn = some s') :
    Execution.Progress Idle rank Turn.thread helpful s turn s' := by
  cases turn with
  | writer io allowed =>
    rcases (writerStep_of_runWriter hstep).progress h with hidle | hlt
    · exact .inl hidle
    · exact .inr (.inl hlt)
  | caller j io =>
    rw [WriteQueue.step] at hstep
    split at hstep
    · cases hstep
    · rename_i hown
      obtain ⟨wal', hmove, rfl⟩ := Option.map_eq_some_iff.mp hstep
      obtain ⟨c', pc, hc', hmove⟩ := WAL.moves_of_stepCall hmove
      have hthread : Turn.thread (.caller j io) ≠ some .writer := by simp [Turn.thread]
      refine .inr (progress_of_wal h hthread fun batch i c hloop hc hhonest => ?_)
      have hne : j ≠ i := by
        rintro rfl
        rw [ownCall, hloop] at hown
        exact hown rfl
      obtain ⟨c₁, hc₁, -, -, hrank⟩ := hmove.rank_other h.wal hc' hne hc hhonest
      rcases hrank with hlt | ⟨heq, hhelper, hj⟩
      · exact ⟨c₁, hc₁, .inl hlt⟩
      · refine ⟨c₁, hc₁, .inr ⟨heq, hhelper, fun ht => hj ?_⟩⟩
        cases ht
        rfl
  | store op io =>
    cases hstep
    obtain ⟨heq, hadv⟩ := h.advances_useStore hlsn
    rw [heq]
    have hthread : ∀ t, Turn.thread (.store op io) ≠ some t := by simp [Turn.thread]
    refine .inr (progress_of_wal h (hthread _) fun batch i c _ hc _ => ⟨c, hc, ?_⟩)
    exact (WAL.rank_store_le hadv).lt_or_eq.imp id fun heq => ⟨heq, rfl, hthread _⟩
  | send | stopWriter | waitDurable => exact absurd trivial harrives

/-- In `WaitDurable`, the writer or the leader for which it waits can go on. -/
theorem enabled_of_wait (h : s.Inv) (hloop : s.loop = .wait batch i)
    (hc : s.wal.calls[i]? = some c) : (step cfg).Enabled Turn.thread s.helpful s := by
  rw [helpful_of_wait hloop hc]
  by_cases hactive : c.pc.active = true
  · obtain ⟨wal', hmove⟩ := h.wal.exists_stepCall_helper hc hactive noFaults
    split
    · rename_i hown
      rw [hown] at hmove
      refine ⟨.writer noFaults true, rfl, ?_⟩
      rw [step, runWriter, hloop]
      dsimp only
      split
      · rfl
      · rw [hmove]
        rfl
    · rename_i hother
      refine ⟨.caller (s.wal.helper i c) noFaults, rfl, ?_⟩
      rw [step, ownCall, hloop]
      dsimp only
      rw [if_neg fun heq => hother (Option.some.inj heq).symm, hmove]
      rfl
  · obtain ⟨lsn, pc⟩ := c
    cases pc with
    | returned err =>
      have hown : s.wal.helper i ⟨lsn, .returned err⟩ = i := if_neg (by simp)
      rw [if_pos hown]
      refine ⟨.writer noFaults true, rfl, ?_⟩
      rw [step, runWriter, hloop]
      dsimp only
      rw [hc]
      rfl
    | start | waiting | leading | synced => exact absurd rfl hactive

/-- Nobody waits for ever: whoever's turn it should be can go on. -/
theorem enabled (h : s.Inv) (hidle : ¬ s.Idle) : (step cfg).Enabled Turn.thread s.helpful s := by
  by_cases hwait : ∃ batch i, s.loop = .wait batch i
  · obtain ⟨batch, i, hloop⟩ := hwait
    have hwaits := h.waitsFor
    rw [hloop] at hwaits
    obtain ⟨c, hc, -⟩ := hwaits
    exact enabled_of_wait h hloop hc
  · refine ⟨.writer noFaults true, ?_, ?_⟩
    · rw [helpful]
      split
      · rename_i hloop
        exact absurd ⟨_, _, hloop⟩ hwait
      · rfl
    · rw [step, runWriter]
      cases hloop : s.loop with
      | receive =>
        cases hch : s.writeCh with
        | nil => exact absurd ⟨hch, .inl hloop⟩ hidle
        | cons r rest => rfl
      | drain batch => cases s.writeCh <;> rfl
      | apply batch rest => cases rest <;> rfl
      | signalAsync batch rest =>
        cases rest with
        | nil =>
          dsimp only
          split <;> rfl
        | cons a rest => rfl
      | wait batch i => exact absurd ⟨batch, i, hloop⟩ hwait
      | signalSync err rest => cases rest <;> rfl
      | stopped => exact absurd ⟨(h.stopped hloop).1, .inr hloop⟩ hidle

/-! ## The contract -/

/-- The answers of a request and the places where it still is make one. -/
theorem Inv.answers_add (h : s.Inv) (hr : r ∈ s.sent) :
    s.answers r + (s.loop.pending ++ s.writeCh).countP (·.done == r.done) = 1 := by
  have hsent : s.sent.countP (·.done == r.done) = 1 := by
    have hcount : (s.sent.map (·.done)).count r.done = 1 := by
      rw [h.numbered]
      refine List.count_eq_one_of_mem List.nodup_range ?_
      rw [← h.numbered]
      exact List.mem_map_of_mem hr
    rw [List.count, List.countP_map] at hcount
    exact hcount
  have hperm := h.accounted.countP_eq (fun q => q.done == r.done)
  rw [hsent, List.append_assoc, List.countP_append, List.countP_map] at hperm
  exact hperm

theorem Inv.answers_le_one (h : s.Inv) (hr : r ∈ s.sent) : s.answers r ≤ 1 := by
  have hone := h.answers_add hr
  omega

theorem Inv.answers_eq_one (h : s.Inv) (hidle : s.Idle) (hr : r ∈ s.sent) : s.answers r = 1 := by
  have hone := h.answers_add hr
  have hpending : s.loop.pending = [] := by
    rcases hidle.2 with hloop | hloop <;> rw [hloop] <;> rfl
  rw [hpending, hidle.1] at hone
  exact hone

theorem sent_of_step (hstep : step cfg s turn = some s') (harrives : ¬ turn.Arrives) :
    s'.sent = s.sent := by
  cases turn with
  | writer io allowed =>
    cases writerStep_of_runWriter hstep <;> rfl
  | caller j io =>
    rw [WriteQueue.step] at hstep
    split at hstep
    · cases hstep
    · obtain ⟨wal', -, rfl⟩ := Option.map_eq_some_iff.mp hstep
      rfl
  | store op io =>
    cases hstep
    rfl
  | send | stopWriter | waitDurable => exact absurd trivial harrives

/-- In every fair execution in which nothing new arrives, every request is answered. -/
theorem exists_answered (h : s.Inv) (e : Execution (step cfg)) (h0 : e.state 0 = s)
    (hfair : e.Fair Turn.thread)
    (hok : e.Guarded fun s turn => s.LsnLeft turn ∧ ¬ turn.Arrives) :
    ∃ n, ∀ r ∈ s.sent, (e.state n).answers r = 1 := by
  have hstep : ∀ {s₁ turn s₂}, s₁.Inv ∧ s₁.sent = s.sent → s₁.LsnLeft turn ∧ ¬ turn.Arrives →
      step cfg s₁ turn = some s₂ → s₂.Inv ∧ s₂.sent = s.sent :=
    fun hI hok hs => ⟨hI.1.step hok.1 hs, (sent_of_step hs hok.2).trans hI.2⟩
  have hstart : (e.state 0).Inv ∧ (e.state 0).sent = s.sent := by
    rw [h0]
    exact ⟨h, rfl⟩
  obtain ⟨n, hidle⟩ := e.exists_goal hfair hok hstart hstep (fun hI => enabled hI.1)
    fun hI hok _ hs => progress hI.1 hok.1 hok.2 hs
  obtain ⟨hI, hsent⟩ := e.invariant hok hstart hstep n
  exact ⟨n, fun r hr => hI.answers_eq_one hidle (hsent ▸ hr)⟩

/-- With nothing to do and all other calls returned, everyone rests. -/
theorem not_enabled (hloop : s.loop = .receive) (hch : s.writeCh = []) (hclosed : s.closed = false)
    (hcalls : ∀ c ∈ s.wal.calls, c.pc.active = false) (t : Thread) :
    ¬ (step cfg).Enabled Turn.thread t s := by
  rintro ⟨turn, hthread, hsome⟩
  cases turn with
  | writer io allowed =>
    rw [step, runWriter, hloop, hch, hclosed] at hsome
    cases hsome
  | caller i io =>
    rw [step, ownCall, hloop, if_neg (by simp), Option.isSome_map] at hsome
    obtain ⟨wal', hmove⟩ := Option.isSome_iff_exists.mp hsome
    obtain ⟨c, pc, hc, hmove⟩ := WAL.moves_of_stepCall hmove
    have hinactive := hcalls c (List.mem_of_getElem? hc)
    cases hmove with
    | direct hpc | covered hpc | blocks hpc | leads hpc | syncs hpc | returns hpc | fails hpc
    | leadsAgain hpc =>
      rw [hpc] at hinactive
      cases hinactive
  | store | send | stopWriter | waitDurable => cases hthread

instance : DecidablePred s.LsnLeft := fun turn => by
  unfold LsnLeft
  split
  · split <;> infer_instance
  · infer_instance
  · infer_instance

/-- The contract of the write queue, for every stream of requests, every interleaving with other
users of the log, and every pattern of failures: no request is answered twice, one that asked for it
is answered without an error only when its record is durable, and every request is answered. -/
theorem acknowledged_durable
    (hopen : (AppendFileStorage.newAppendStorageInDir d segmentSize bufferSize).appendedLSN + 1 <
      2 ^ 64)
    (hrun : (step cfg).run (newEngine d segmentSize bufferSize mode) turns = some s)
    (hlsn : (step cfg).Guarded LsnLeft (newEngine d segmentSize bufferSize mode) turns) :
    (∀ r ∈ s.sent, s.answers r ≤ 1) ∧
    (∀ a ∈ s.replies, a.req.sync = true → a.err = none →
      ∃ n, (a.req.done, n) ∈ s.appended ∧ n ≤ a.durableLSN) ∧
    ∀ e : Execution (step cfg), e.state 0 = s → e.Fair Turn.thread →
      e.Guarded (fun s turn => s.LsnLeft turn ∧ ¬ turn.Arrives) →
      ∃ n, ∀ r ∈ s.sent, (e.state n).answers r = 1 := by
  have h : s.Inv := System.run_invariant_of_guarded (I := fun _ s => s.Inv) (inv_newEngine hopen)
    (fun hI hlsn hs => hI.step hlsn hs) hlsn hrun
  exact ⟨fun r hr => h.answers_le_one hr, h.durable, fun e h0 => exists_answered h e h0⟩

/-- Two requests, of which the first asks for durability, and another caller of `WaitDurable`. -/
def arrivals : List Turn := [.send [97] [49] true, .send [98] [50] false, .waitDurable 1]

/-- The other caller leads, its `Sync` fails, and the writer leads. -/
def turnsTaken : List Turn :=
  .caller 0 noFaults :: .caller 0 { noFaults with sync := true } :: .caller 0 noFaults ::
    List.replicate 16 (.writer noFaults true)

def idleEngine : WriteQueue := newEngine [] 60 65536 .group

def afterArrivals : WriteQueue :=
  ((step defaultConfig).run idleEngine arrivals).get (by decide +kernel)

def afterTurns : WriteQueue :=
  ((step defaultConfig).run afterArrivals turnsTaken).get (by decide +kernel)

theorem acknowledged_durable_twoRequests :
    (afterTurns.replies.map fun a => (a.req.done, a.err, a.durableLSN)) =
      [(1, none, 0), (0, none, 2)] ∧
    (∀ a ∈ afterTurns.replies, a.req.sync = true → a.err = none →
      ∃ n, (a.req.done, n) ∈ afterTurns.appended ∧ n ≤ a.durableLSN) ∧
    ∃ e : Execution (step defaultConfig), e.state 0 = afterArrivals ∧ e.Fair Turn.thread ∧
      ∃ n, ∀ r ∈ afterArrivals.sent, (e.state n).answers r = 1 := by
  have hopen : (AppendFileStorage.newAppendStorageInDir [] 60 65536).appendedLSN + 1 < 2 ^ 64 := by
    decide +kernel
  have hrun : (step defaultConfig).run idleEngine arrivals = some afterArrivals :=
    (Option.some_get _).symm
  have hturns : (step defaultConfig).run afterArrivals turnsTaken = some afterTurns :=
    (Option.some_get _).symm
  have hlsn : (step defaultConfig).Guarded LsnLeft idleEngine arrivals := by decide +kernel
  have hlsn' : (step defaultConfig).Guarded LsnLeft idleEngine (arrivals ++ turnsTaken) := by
    decide +kernel
  have hok : (step defaultConfig).Guarded (fun s turn => s.LsnLeft turn ∧ ¬ turn.Arrives)
      afterArrivals turnsTaken := by decide +kernel
  have hrest : ∀ t, ¬ (step defaultConfig).Enabled Turn.thread t afterTurns :=
    not_enabled rfl rfl rfl (by decide +kernel)
  refine ⟨by decide +kernel, ?_, Execution.ofRun hturns, rfl, Execution.fair_ofRun hturns hrest, ?_⟩
  · exact (acknowledged_durable hopen (System.run_append.mpr ⟨_, hrun, hturns⟩) hlsn').2.1
  · exact (acknowledged_durable hopen hrun hlsn).2.2 _ rfl (Execution.fair_ofRun hturns hrest)
      (Execution.guarded_ofRun hturns hok)

/-- A directory whose last record has the largest LSN. -/
def lastLsnDir : Disk :=
  let data := Record.bytes checksumIEEE ⟨2 ^ 64 - 1, opPut, [97], [49]⟩
  [⟨1, data, data.length, true⟩]

/-- A request is appended under LSN 0 and synced by someone else; then another one is sent. -/
def wrapRun : List Turn :=
  .send [97] [50] true :: List.replicate 8 (.writer noFaults true) ++
    .store .sync noFaults :: .send [97] [51] true :: List.replicate 10 (.writer noFaults true)

/-- Behind the largest LSN the counter starts at 0 again, and every later write counts as
flushed. -/
theorem wrapped_lsn_acknowledged :
    ∃ s ∈ (step defaultConfig).run (newEngine lastLsnDir 4096 65536 .group) wrapRun,
      ∃ a ∈ s.replies, a.req.sync = true ∧ a.err = none ∧
        ∀ n, (a.req.done, n) ∈ s.appended → a.durableLSN < n := by
  have hbad : (((step defaultConfig).run (newEngine lastLsnDir 4096 65536 .group) wrapRun).map
      fun s => (s.replies, s.appended)) =
      some ([⟨⟨[97], [50], true, 0⟩, none, 2 ^ 64 - 1⟩, ⟨⟨[97], [51], true, 1⟩, none, 0⟩],
        [(0, 0), (1, 1)]) := by decide +kernel
  obtain ⟨s, hs, heq⟩ := Option.map_eq_some_iff.mp hbad
  obtain ⟨hreplies, happended⟩ := Prod.mk.inj heq
  refine ⟨s, hs, ⟨⟨[97], [51], true, 1⟩, none, 0⟩, ?_, rfl, rfl, ?_⟩
  · rw [hreplies]
    decide
  · intro n hn
    rw [happended] at hn
    simp only [List.mem_cons, Prod.mk.injEq, List.not_mem_nil, or_false] at hn
    rcases hn with ⟨hdone, -⟩ | ⟨-, rfl⟩
    · cases hdone
    · exact Nat.one_pos

end WriteQueue
end ChudDB
