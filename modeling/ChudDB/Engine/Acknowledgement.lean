import ChudDB.Engine.WriteQueue

/-! # Acknowledged writes

The invariant of the write queue: no request is lost or answered twice, and one that asked for it is
answered without an error only when its record is durable. -/

namespace ChudDB
open Lib Wal

/-- The requests of the round that have not been answered. -/
def WriteLoop.pending : WriteLoop → List WriteReq
  | .receive | .stopped => []
  | .drain batch => batch
  | .apply batch rest => batch.map (·.req) ++ rest
  | .signalAsync batch rest =>
    (batch.map (·.req)).filter (·.sync) ++ (rest.map (·.req)).filter (!·.sync)
  | .wait batch _ => (batch.map (·.req)).filter (·.sync)
  | .signalSync _ rest => (rest.map (·.req)).filter (·.sync)

/-- The requests of the round that have been applied. -/
def WriteLoop.batch : WriteLoop → List Applied
  | .apply batch _ | .signalAsync batch _ | .wait batch _ => batch
  | .signalSync _ rest => rest
  | _ => []

namespace WriteQueue

variable {cfg : Config} {s s' : WriteQueue}

/-! ## The highest LSN of a batch -/

theorem syncTarget_concat (batch : List Applied) (a : Applied) :
    syncTarget (batch ++ [a]) =
      match a.result with
      | .ok lsn => if a.req.sync ∧ lsn > (syncTarget batch).1 then (lsn, true) else syncTarget batch
      | .error _ => syncTarget batch := by
  rw [syncTarget, List.foldl_append]
  rfl

theorem le_syncTarget (ha : a ∈ batch) (hsync : a.req.sync = true) (hok : a.result = .ok n) :
    n ≤ (syncTarget batch).1 := by
  induction batch using List.reverseRecOn with
  | nil => cases ha
  | append_singleton batch b ih =>
    rw [syncTarget_concat]
    rcases List.mem_append.mp ha with ha | ha
    · have hle := ih ha
      split
      · split
        · rename_i hlt
          exact hle.trans hlt.2.le
        · exact hle
      · exact hle
    · cases List.mem_singleton.mp ha
      rw [hok]
      dsimp only
      split
      · exact Nat.le_refl _
      · rename_i hnot
        exact Nat.le_of_not_lt fun hlt => hnot ⟨hsync, hlt⟩

theorem syncTarget_le (h : ∀ a ∈ batch, ∀ n, a.result = .ok n → n ≤ m) :
    (syncTarget batch).1 ≤ m := by
  induction batch using List.reverseRecOn with
  | nil => exact Nat.zero_le m
  | append_singleton batch b ih =>
    rw [syncTarget_concat]
    have hle := ih fun a ha => h a (List.mem_append_left _ ha)
    split
    · rename_i lsn hok
      split
      · exact h b List.mem_concat_self lsn hok
      · exact hle
    · exact hle

theorem syncTarget_eq_zero (batch : List Applied) :
    (syncTarget batch).2 = false → (syncTarget batch).1 = 0 := by
  induction batch using List.reverseRecOn with
  | nil => exact fun _ => rfl
  | append_singleton batch b ih =>
    rw [syncTarget_concat]
    split
    · split
      · exact nofun
      · exact ih
    · exact ih

/-! ## The invariant -/

/-- What is known in a round about the requests that asked for durability. -/
def WaitsFor (w : WAL) : WriteLoop → Prop
  | .wait batch i => ∃ c, w.calls[i]? = some c ∧ c.lsn = (syncTarget batch).1 ∧ w.Honest c
  | .signalSync none rest =>
    ∀ a ∈ rest, a.req.sync = true → ∀ n, a.result = .ok n → n ≤ w.store.durableLSN
  | _ => True

structure Inv (s : WriteQueue) : Prop where
  wal : s.wal.Inv
  /-- A request is in the channel, in the round, or has been answered. -/
  accounted : (s.replies.map (·.req) ++ s.loop.pending ++ s.writeCh).Perm s.sent
  numbered : s.sent.map (·.done) = List.range s.sent.length
  applied : ∀ a ∈ s.loop.batch, ∀ n, a.result = .ok n →
    (a.req.done, n) ∈ s.appended ∧ n ≤ s.wal.store.appendedLSN
  waitsFor : WaitsFor s.wal s.loop
  stopped : s.loop = .stopped → s.writeCh = [] ∧ s.closed = true
  durable : ∀ r ∈ s.replies, r.req.sync = true → r.err = none →
    ∃ n, (r.req.done, n) ∈ s.appended ∧ n ≤ r.durableLSN

theorem inv_newEngine
    (h : (AppendFileStorage.newAppendStorageInDir d segmentSize bufferSize).appendedLSN + 1 < 2 ^ 64) :
    (newEngine d segmentSize bufferSize mode).Inv where
  wal := ⟨AppendFileStorage.sound_newAppendStorageInDir h, Nat.le_refl _, rfl, nofun⟩
  accounted := .refl _
  numbered := rfl
  applied := nofun
  waitsFor := trivial
  stopped := nofun
  durable := nofun

/-- Only the WAL has changed, and the writer's call is where it should be. -/
theorem Inv.of_wal (h : s.Inv) (hwal : wal'.Inv) (hadv : s.wal.store.Advances wal'.store)
    (hcall : ∀ batch i c, s.loop = .wait batch i → s.wal.calls[i]? = some c → s.wal.Honest c →
      ∃ c', wal'.calls[i]? = some c' ∧ c'.lsn = c.lsn ∧ wal'.Honest c') :
    Inv { s with wal := wal' } where
  wal := hwal
  accounted := h.accounted
  numbered := h.numbered
  applied a ha n hn := by
    obtain ⟨hmem, hle⟩ := h.applied a ha n hn
    exact ⟨hmem, hle.trans hadv.appended⟩
  waitsFor := by
    have hwaits := h.waitsFor
    cases hloop : s.loop with
    | wait batch i =>
      rw [hloop] at hwaits
      obtain ⟨c, hc, hlsn, hhonest⟩ := hwaits
      obtain ⟨c', hc', hlsn', hhonest'⟩ := hcall batch i c hloop hc hhonest
      exact ⟨c', hc', hlsn'.trans hlsn, hhonest'⟩
    | signalSync err rest =>
      rw [hloop] at hwaits
      cases err with
      | none => exact fun a ha hsync n hn => (hwaits a ha hsync n hn).trans hadv.durable
      | some e => trivial
    | receive | drain | apply | signalAsync | stopped => trivial
  stopped := h.stopped
  durable := h.durable

theorem Inv.of_store (h : s.Inv) (hadv : s.wal.store.Advances store') :
    Inv { s with wal := { s.wal with store := store' } } :=
  h.of_wal (h.wal.of_store hadv) hadv fun _ _ c _ hc hhonest => ⟨c, hc, rfl, hhonest.mono hadv⟩

/-- A step of some call of `WaitDurable`. -/
theorem Inv.of_move (h : s.Inv) (hmove : s.wal.stepCall io j = some wal') :
    Inv { s with wal := wal' } := by
  obtain ⟨c', pc, hc', hmove⟩ := WAL.moves_of_stepCall hmove
  refine h.of_wal (h.wal.moves hc' hmove) (hmove.advances h.wal) fun batch i c hloop hc hhonest => ?_
  by_cases hij : j = i
  · subst hij
    cases hc.symm.trans hc'
    exact ⟨_, hmove.getElem? h.wal hc, rfl, hmove.honest h.wal hhonest⟩
  · obtain ⟨c₁, hc₁, hlsn, hhonest₁, -⟩ := hmove.rank_other h.wal hc' hij hc hhonest
    exact ⟨c₁, hc₁, hlsn, hhonest₁⟩

/-- What the append of a request does to the log. -/
theorem applyWriteToMem_spec (h : applyWriteToMem cfg io allowed r w = (result, w'))
    (hs : w.store.Sound) (hlsn : w.store.nextLSN + 1 < 2 ^ 64) :
    w' = { w with store := w'.store } ∧ w.store.Advances w'.store ∧
      ∀ n, result = .ok n → n ≤ w'.store.appendedLSN := by
  have hspec : Outcome (appendToWal cfg io r) w.store
      (fun lsn s' => w.store.Advances s' ∧ lsn ≤ s'.appendedLSN) w.store.Advances := by
    rw [appendToWal]
    split <;> exact (AppendFileStorage.outcome_append hs hlsn).mono
      (fun _ _ h => ⟨h.1, h.2.2.le⟩) fun _ h => h
  rw [applyWriteToMem] at h
  split at h
  · cases h
    exact ⟨rfl, hs.advances, nofun⟩
  · split at h
    · rename_i lsn store hrun
      cases h
      obtain ⟨hadv, hle⟩ := hspec.of_ok hrun
      refine ⟨rfl, hadv, fun n hn => ?_⟩
      cases hn
      exact hle
    · rename_i e store hrun
      cases h
      exact ⟨rfl, hspec.of_error hrun, nofun⟩

theorem Inv.writerStep (h : s.Inv) (hlsn : s.LsnLeft (.writer io allowed))
    (hstep : WriterStep cfg s s') : s'.Inv := by
  have haccounted := h.accounted
  have happlied := h.applied
  have hwaits := h.waitsFor
  cases hstep with
  | receive hloop hch | drain hloop hch =>
    rw [hloop, hch] at haccounted
    refine ⟨h.wal, ?_, h.numbered, nofun, trivial, nofun, h.durable⟩
    simpa [WriteLoop.pending] using haccounted
  | stop hloop hch hclosed =>
    rw [hloop] at haccounted
    exact ⟨h.wal, haccounted, h.numbered, nofun, trivial, fun _ => ⟨hch, hclosed⟩, h.durable⟩
  | drained hloop | done hloop =>
    rw [hloop] at haccounted
    exact ⟨h.wal, haccounted, h.numbered, nofun, trivial, nofun, h.durable⟩
  | apply hloop happly =>
    rw [hloop] at haccounted happlied
    rw [LsnLeft, hloop] at hlsn
    obtain ⟨heq, hadv, hle⟩ := applyWriteToMem_spec happly h.wal.sound hlsn
    rename_i batch r rest io' allowed' result wal'
    refine ⟨heq ▸ h.wal.of_store hadv, ?_, h.numbered, fun a ha n hn => ?_, trivial, nofun, ?_⟩
    · simpa [WriteLoop.pending] using haccounted
    · rcases List.mem_append.mp ha with ha | ha
      · obtain ⟨hmem, hn'⟩ := happlied a ha n hn
        exact ⟨List.mem_append_left _ hmem, hn'.trans hadv.appended⟩
      · cases List.mem_singleton.mp ha
        refine ⟨List.mem_append_right _ ?_, hle n hn⟩
        rw [show result = .ok n from hn]
        exact List.mem_singleton_self _
    · intro r hr hsync herr
      obtain ⟨n, hmem, hn⟩ := h.durable r hr hsync herr
      exact ⟨n, List.mem_append_left _ hmem, hn⟩
  | applied hloop =>
    rw [hloop] at haccounted happlied
    rename_i batch
    refine ⟨h.wal, .trans ?_ haccounted, h.numbered, happlied, trivial, nofun, h.durable⟩
    refine (List.Perm.append_left _ ?_).append_right _
    rw [WriteLoop.pending, WriteLoop.pending, List.append_nil]
    exact List.filter_append_perm _ _
  | signalAsync hloop hsync =>
    rw [hloop] at haccounted happlied
    refine ⟨h.wal, .trans ?_ haccounted, h.numbered, happlied, trivial, nofun,
      fun r hr hr' herr => ?_⟩
    · simp only [reply, WriteLoop.pending, List.map_append, List.map_cons, List.map_nil, hsync,
        Bool.not_false, List.filter_cons_of_pos, List.append_assoc]
      rw [List.singleton_append, List.cons_append]
      exact List.Perm.append_left _ List.perm_middle.symm
    · rcases List.mem_append.mp hr with hr | hr
      · exact h.durable r hr hr' herr
      · cases List.mem_singleton.mp hr
        rw [hsync] at hr'
        cases hr'
  | skipSync hloop hsync =>
    rw [hloop] at haccounted happlied
    refine ⟨h.wal, ?_, h.numbered, happlied, trivial, nofun, h.durable⟩
    simpa [WriteLoop.pending, hsync] using haccounted
  | wait hloop hneeds =>
    rw [hloop] at haccounted happlied
    refine ⟨h.wal.waitDurable, ?_, h.numbered, happlied, ?_, nofun, h.durable⟩
    · simpa [WriteLoop.pending] using haccounted
    · refine ⟨_, WAL.getElem?_waitDurable_self, rfl, ?_, nofun⟩
      exact syncTarget_le fun a ha n hn => (happlied a ha n hn).2
  | noSync hloop hneeds =>
    rw [hloop] at haccounted happlied
    refine ⟨h.wal, ?_, h.numbered, happlied, ?_, nofun, h.durable⟩
    · simpa [WriteLoop.pending] using haccounted
    · intro a ha hsync n hn
      have hle := le_syncTarget ha hsync hn
      rw [syncTarget_eq_zero _ hneeds] at hle
      exact hle.trans (Nat.zero_le _)
  | call hloop hmove => exact h.of_move hmove
  | returned hloop hcall =>
    rw [hloop] at haccounted happlied hwaits
    obtain ⟨c, hc, hc', hhonest⟩ := hwaits
    cases hc.symm.trans hcall
    refine ⟨h.wal, haccounted, h.numbered, happlied, ?_, nofun, h.durable⟩
    rename_i err
    cases err with
    | none =>
      intro a ha hsync n hn
      exact (le_syncTarget ha hsync hn).trans (hc' ▸ hhonest.durable (.inr rfl))
    | some e => trivial
  | signalSync hloop hsync =>
    rw [hloop] at haccounted happlied hwaits
    rename_i err a rest
    refine ⟨h.wal, ?_, h.numbered, fun b hb => happlied b (List.mem_cons_of_mem _ hb), ?_, nofun,
      fun r hr hr' herr => ?_⟩
    · simpa [reply, WriteLoop.pending, hsync] using haccounted
    · cases err with
      | none => exact fun b hb => hwaits b (List.mem_cons_of_mem _ hb)
      | some e => trivial
    · rcases List.mem_append.mp hr with hr | hr
      · exact h.durable r hr hr' herr
      · cases List.mem_singleton.mp hr
        cases hresult : a.result with
        | error e =>
          rw [hresult] at herr
          cases herr
        | ok n =>
          rw [hresult] at herr
          cases Option.map_eq_none_iff.mp herr
          exact ⟨n, (happlied a List.mem_cons_self n hresult).1,
            hwaits a List.mem_cons_self hsync n hresult⟩
  | skipAsync hloop hsync =>
    rw [hloop] at haccounted happlied hwaits
    rename_i err a rest
    refine ⟨h.wal, ?_, h.numbered, fun b hb => happlied b (List.mem_cons_of_mem _ hb), ?_, nofun,
      h.durable⟩
    · simpa [WriteLoop.pending, hsync] using haccounted
    · cases err with
      | none => exact fun b hb => hwaits b (List.mem_cons_of_mem _ hb)
      | some e => trivial

/-- What others do with the storage. -/
theorem Inv.advances_useStore (h : s.Inv) (hlsn : s.LsnLeft (.store op io)) :
    useStore op io s.wal = { s.wal with store := (useStore op io s.wal).store } ∧
      s.wal.store.Advances (useStore op io s.wal).store := by
  have hs := h.wal.sound
  have hexec : ∀ {α : Type} (m : StorageM α),
      Outcome m s.wal.store (fun _ => s.wal.store.Advances) s.wal.store.Advances →
      (s.wal.exec m).2 = { s.wal with store := (s.wal.exec m).2.store } ∧
        s.wal.store.Advances (s.wal.exec m).2.store := by
    intro α m houtcome
    obtain ⟨heq, hok, herr⟩ := WAL.exec_eq rfl houtcome
    refine ⟨heq, ?_⟩
    by_cases hnone : (s.wal.exec m).1 = none
    · obtain ⟨-, hadv⟩ := hok hnone
      exact hadv
    · exact herr hnone
  cases op with
  | append op key value =>
    exact hexec _ ((AppendFileStorage.outcome_append hs hlsn).mono
      (fun _ _ h => h.1) fun _ h => h)
  | sync => exact hexec _ ((AppendFileStorage.outcome_syncLocked hs).mono
      (fun _ _ h => h.1) fun _ h => h)
  | rotate => exact hexec _ ((AppendFileStorage.outcome_rotateIfNeededLocked hs).mono
      (fun _ _ h => h.1) fun _ h => h)
  | purge checkpointLSN => exact ⟨rfl, hs.advances_purgeUpTo⟩
  | close => exact hexec _ (AppendFileStorage.outcome_closeLocked hs)

/-- One step of anyone. -/
theorem Inv.step (h : s.Inv) (hlsn : s.LsnLeft turn) (hstep : step cfg s turn = some s') : s'.Inv := by
  cases turn with
  | writer io allowed => exact h.writerStep hlsn (writerStep_of_runWriter hstep)
  | caller i io =>
    rw [WriteQueue.step] at hstep
    split at hstep
    · cases hstep
    · obtain ⟨wal', hmove, rfl⟩ := Option.map_eq_some_iff.mp hstep
      exact h.of_move hmove
  | store op io =>
    cases hstep
    obtain ⟨heq, hadv⟩ := h.advances_useStore hlsn
    rw [heq]
    exact h.of_store hadv
  | send key value sync =>
    rw [WriteQueue.step] at hstep
    split at hstep
    · cases hstep
    · rename_i hopen
      cases hstep
      refine ⟨h.wal, ?_, ?_, h.applied, h.waitsFor, fun hstopped => ?_, h.durable⟩
      · rw [← List.append_assoc]
        exact h.accounted.append_right _
      · rw [List.map_append, h.numbered, List.length_append]
        exact List.range_succ.symm
      · exact absurd (.inl (h.stopped hstopped).2) hopen
  | stopWriter =>
    rw [WriteQueue.step] at hstep
    split at hstep
    · cases hstep
    · cases hstep
      exact ⟨h.wal, h.accounted, h.numbered, h.applied, h.waitsFor,
        fun hstopped => ⟨(h.stopped hstopped).1, rfl⟩, h.durable⟩
  | waitDurable lsn =>
    cases hstep
    refine h.of_wal h.wal.waitDurable h.wal.sound.advances fun _ i c _ hc hhonest => ?_
    exact ⟨c, WAL.getElem?_waitDurable hc, rfl, hhonest.mono h.wal.sound.advances⟩

end WriteQueue
end ChudDB
