import ChudDB.Engine.Sequential
import ChudDB.Engine.SnapshotLoss
import ChudDB.Engine.WriteLog

/-! # What the log may forget

The flusher purges the log up to the LSN of the immutable memtable it has just registered. Without
snapshots the queue is in the order of the LSNs, so whatever a purge removes from the log is in a
registered table. -/

namespace ChudDB
open Lib Wal

variable {M : Type} [Memtable M] {cfg : Config}

/-- One of the layers answers for the key of `w` with the value of `w` or of a later write. -/
def Covered (ws : List Write) (layers : List (List KeyValue)) (w : Write) : Prop :=
  ∃ l ∈ layers, ∃ w' ∈ ws, w'.key = w.key ∧ w.lsn ≤ w'.lsn ∧ l.lookup w.key = some w'.value

instance : Decidable (Covered ws layers w) :=
  inferInstanceAs (Decidable (∃ l ∈ _, ∃ w' ∈ _, _ ∧ _ ∧ _))

theorem Covered.mono (h : Covered ws layers w) (hw : ws ⊆ ws') (hl : layers ⊆ layers') :
    Covered ws' layers' w := by
  obtain ⟨l, hmem, w', hmem', hw'⟩ := h
  exact ⟨l, hl hmem, w', hw hmem', hw'⟩

/-- A layer may be replaced by one that includes it. -/
theorem Covered.replace (h : Covered ws (l :: layers) w) (hi : Includes l l') :
    Covered ws (l' :: layers) w := by
  obtain ⟨l₀, hmem, w', hmem', hkey, hle, hlook⟩ := h
  rcases List.mem_cons.mp hmem with rfl | hmem
  · exact ⟨l', List.mem_cons_self, w', hmem', hkey, hle, hi _ _ hlook⟩
  · exact ⟨l₀, List.mem_cons_of_mem _ hmem, w', hmem', hkey, hle, hlook⟩

namespace Running

variable {s s' : Running M}

/-- What is found is covered, because the LSNs increase. -/
theorem covered_of_found (hinc : s.applied.Pairwise (·.lsn < ·.lsn)) (hi : s.applied[i]? = some w)
    (h : s.Found s.applied i w) : Covered s.applied (s.active :: s.frozen) w := by
  obtain ⟨l, hl, w', hw', hkey, hlook⟩ := h
  refine ⟨l, hl, w', List.mem_of_mem_drop hw', hkey, ?_, hlook⟩
  obtain ⟨hlt, rfl⟩ := List.getElem?_eq_some_iff.mp hi
  rw [List.drop_eq_getElem_cons hlt] at hw'
  rcases List.mem_cons.mp hw' with rfl | hw'
  · exact Nat.le_refl _
  · have hpair := hinc.sublist (List.drop_sublist i s.applied)
    rw [List.drop_eq_getElem_cons hlt, List.pairwise_cons] at hpair
    exact Nat.le_of_lt (hpair.1 w' hw')

/-- A sealed memtable on its way to the queue covers all writes together with the queue and the
tables. -/
def SealOK (s : Running M) : Writer → Prop
  | .loaded _ p => p = s.activeMem
  | .added w _ | .full w _ => w ∈ s.hist
  | .copied _ im => im.maxLSN ≤ s.wal.appendedLSN ∧ ∀ w ∈ s.hist, Covered s.hist (im.data :: s.frozen) w
  | _ => True

omit [Memtable M] in
theorem SealOK.mono {pc : Writer} (h : s.SealOK pc) (hh : s'.hist = s.hist)
    (ha : s'.activeMem = s.activeMem) (happ : s'.wal.appendedLSN = s.wal.appendedLSN)
    (hf : s.frozen ⊆ s'.frozen) : s'.SealOK pc := by
  cases pc with
  | loaded w p => exact Eq.trans h ha.symm
  | added w p | full w p =>
    change w ∈ s'.hist
    rw [hh]
    exact h
  | copied p im =>
    refine ⟨happ ▸ h.1, ?_⟩
    rw [hh]
    exact fun w hw => (h.2 w hw).mono (List.Subset.refl _) (List.cons_subset_cons _ hf)
  | idle | appended | pushed | swapped => trivial

structure CoverInv (cfg : Config) (s : Running M) : Prop where
  loss : LossInv cfg s
  logged : s.Logged cfg
  quiet : s.snapshotter = .idle
  sealed : s.SealOK s.writer
  queue : ∀ im ∈ s.immQueue, im.maxLSN ≤ s.wal.appendedLSN
  covered : ∀ older im newer, s.immQueue = older ++ im :: newer → ∀ w ∈ s.hist,
    w.lsn ≤ im.maxLSN → Covered s.hist (im.data :: (older.map (·.data) ++ s.tables)) w
  kept : ∀ w ∈ s.hist, w.record cfg ∈ s.wal.disk.records ∨ Covered s.hist s.tables w

namespace CoverInv

theorem init : CoverInv cfg
    (init cfg (.newAppendStorageInDir [] segmentSize bufferSize) : Running M) where
  loss := .init
  logged := logged_init
  quiet := rfl
  sealed := trivial
  queue := by simp [Running.init]
  covered := by simp [Running.init]
  kept := by simp [Running.init]

theorem noLoss (h : CoverInv cfg s) : s.NoLoss a := by
  cases a with
  | writer =>
    have hseal := h.sealed
    simp only [NoLoss, AddKept, h.quiet]
    split
    · rename_i hpc
      rw [hpc] at hseal
      exact ⟨hseal, id⟩
    · trivial
  | snapshotter => simp [NoLoss, SwapKept, h.quiet]
  | append | takeSnapshot | flusher | rotate => trivial

/-- A step that adds nothing to the log and to the queue. -/
theorem move (h : CoverInv cfg s) (hloss : LossInv cfg s') (hlogged : s'.Logged cfg)
    (hsnap : s'.snapshotter = s.snapshotter) (hsealed : s'.SealOK s'.writer)
    (hh : s'.hist = s.hist) (hq : s'.immQueue = s.immQueue) (ht : s.tables ⊆ s'.tables)
    (hrec : s.wal.disk.records ⊆ s'.wal.disk.records)
    (happ : s.wal.appendedLSN = s'.wal.appendedLSN) : CoverInv cfg s' where
  loss := hloss
  logged := hlogged
  quiet := hsnap.trans h.quiet
  sealed := hsealed
  queue := by
    rw [hq, ← happ]
    exact h.queue
  covered := by
    rw [hq, hh]
    intro older im newer heq w hw hle
    refine (h.covered older im newer heq w hw hle).mono (List.Subset.refl _) ?_
    exact List.cons_subset_cons _ (List.append_subset.mpr
      ⟨List.subset_append_left _ _, List.Subset.trans ht (List.subset_append_right _ _)⟩)
  kept := by
    rw [hh]
    intro w hw
    rcases h.kept w hw with hk | hk
    · exact .inl (hrec hk)
    · exact .inr (hk.mono (List.Subset.refl _) ht)

/-- A step of the writer that concerns only the memtables. -/
theorem move_writer {pc : Writer} (h : CoverInv cfg s)
    (hloss : LossInv cfg { s with mems := ms, activeMem := p, writer := pc })
    (hsealed : ({ s with mems := ms, activeMem := p } : Running M).SealOK pc) :
    CoverInv cfg { s with mems := ms, activeMem := p, writer := pc } :=
  h.move hloss h.logged rfl hsealed rfl rfl (List.Subset.refl _) (List.Subset.refl _) rfl

theorem append (h : CoverInv cfg s) (hfits : s.wal.Fits key value)
    (hstep : s.appendStep cfg key value = some s') : CoverInv cfg s' := by
  have hloss := h.loss.append hstep
  rw [appendStep] at hstep
  split at hstep
  · obtain ⟨wal, happend, hlogged, hrec, happ⟩ := h.logged.append hfits
    rw [happend] at hstep
    cases hstep
    have hlt := h.logged.appendedLSN_lt
    have hhist : s.hist ⊆ s.hist ++ [⟨s.wal.nextLSN, key, value⟩] := List.subset_append_left _ _
    refine ⟨hloss, hlogged, h.quiet, trivial, ?_, ?_, ?_⟩
    · intro im him
      exact (h.queue im him).trans (happ ▸ hlt.le)
    · -- the new write is behind everything in the queue
      intro older im newer heq w hw hle
      rcases List.mem_append.mp hw with hw | hw
      · exact (h.covered older im newer heq w hw hle).mono hhist (List.Subset.refl _)
      · cases List.mem_singleton.mp hw
        have : im.maxLSN ≤ s.wal.appendedLSN := h.queue im (by rw [heq]; simp)
        exact absurd (hle.trans this) (Nat.not_le.mpr hlt)
    · intro w hw
      change _ ∈ wal.disk.records ∨ _
      rw [hrec]
      rcases List.mem_append.mp hw with hw | hw
      · rcases h.kept w hw with hk | hk
        · exact .inl (List.mem_append_left _ hk)
        · exact .inr (hk.mono hhist (List.Subset.refl _))
      · cases List.mem_singleton.mp hw
        exact .inl (List.mem_append_right _ List.mem_cons_self)
  · cases hstep

/-- The sealed memtable covers what the active memtable covered. -/
theorem sealed_copied {im : ImmutableMemtable} (h : CoverInv cfg s) (hw : s.writer = .full w p)
    (hi : Includes s.active im.data) : ∀ w ∈ s.hist, Covered s.hist (im.data :: s.frozen) w := by
  have happ : s.applied = s.hist := by rw [applied, hw]
  intro w hw
  obtain ⟨i, hw⟩ := List.mem_iff_getElem?.mp hw
  rw [← happ] at hw ⊢
  exact (covered_of_found (happ ▸ h.logged.increasing) hw (h.loss.found i w hw)).replace hi

theorem push (h : CoverInv cfg s) (hw : s.writer = .copied p im)
    (hloss : LossInv cfg { s with immQueue := s.immQueue ++ [im], writer := .pushed p }) :
    CoverInv cfg { s with immQueue := s.immQueue ++ [im], writer := .pushed p } := by
  have hsealed := h.sealed
  rw [hw] at hsealed
  refine ⟨hloss, h.logged, h.quiet, trivial, ?_, ?_, h.kept⟩
  · intro im' him'
    rcases List.mem_append.mp him' with him' | him'
    · exact h.queue im' him'
    · cases List.mem_singleton.mp him'
      exact hsealed.1
  · intro older im' newer heq w hw hle
    rcases List.eq_nil_or_concat newer with rfl | ⟨newer, last, rfl⟩
    · obtain ⟨rfl, hlast⟩ := List.append_inj' heq rfl
      cases hlast
      exact hsealed.2 w hw
    · rw [List.concat_eq_append, ← List.cons_append, ← List.append_assoc] at heq
      exact h.covered older im' newer (List.append_inj' heq rfl).1 w hw hle

theorem writer_step (h : CoverInv cfg s) (hstep : s.writerStep cfg = some s') :
    CoverInv cfg s' := by
  have hloss := h.loss.writer_step (h.noLoss (a := .writer)) hstep
  have hsealed := h.sealed
  cases writerStep_cases hstep with
  | load => exact h.move_writer hloss rfl
  | add hpc =>
    have hwriter := h.loss.writer
    rw [hpc] at hwriter
    obtain ⟨-, past, hpast⟩ := hwriter
    refine h.move_writer hloss ?_
    change _ ∈ s.hist
    simp [hpast]
  | full hpc =>
    rw [hpc] at hsealed
    exact h.move_writer hloss hsealed
  | done | swap | clear => exact h.move_writer hloss trivial
  | copy hpc =>
    rw [hpc] at hsealed
    exact h.move_writer hloss
      ⟨h.logged.le_appendedLSN hsealed, h.sealed_copied hpc hloss.writer.2⟩
  | push hpc => exact h.push hpc hloss

/-- What a purge removes is in the table that was registered before. -/
theorem purge (h : CoverInv cfg s) (hf : s.flusher = .registered im)
    (hloss : LossInv cfg { s with wal := s.wal.purgeUpTo im.maxLSN, flusher := .purged }) :
    CoverInv cfg { s with wal := s.wal.purgeUpTo im.maxLSN, flusher := .purged } := by
  have hflush := h.loss.flusher
  rw [hf] at hflush
  obtain ⟨hhead, hmem⟩ := hflush
  obtain ⟨rest, hqueue⟩ := List.head?_eq_some_iff.mp hhead
  obtain ⟨hlogged, hpurge⟩ := h.logged.purgeUpTo im.maxLSN
  refine ⟨hloss, hlogged, h.quiet, h.sealed, h.queue, h.covered, ?_⟩
  intro w hw
  rcases h.kept w hw with hk | hk
  · rcases hpurge _ hk with hk | hle
    · exact .inl hk
    · rw [Write.record_lsn] at hle
      refine .inr ((h.covered [] im rest hqueue w hw hle).mono (List.Subset.refl _) ?_)
      exact List.cons_subset.mpr ⟨hmem, List.Subset.refl _⟩
  · exact .inr hk

theorem pop (h : CoverInv cfg s) (hhead : s.immQueue.head? = some im) (hmem : im.data ∈ s.tables)
    (hloss : LossInv cfg { s with
      immQueue := s.immQueue.tail, popped := s.popped + 1, flusher := .popped }) :
    CoverInv cfg { s with
      immQueue := s.immQueue.tail, popped := s.popped + 1, flusher := .popped } := by
  obtain ⟨rest, hqueue⟩ := List.head?_eq_some_iff.mp hhead
  have htail : s.immQueue.tail = rest := by rw [hqueue, List.tail_cons]
  refine ⟨hloss, h.logged, h.quiet, ?_, ?_, ?_, h.kept⟩
  · exact h.sealed.mono rfl rfl rfl fun l hl => (Shared.frame_pop hhead hmem).frozen l hl
  · exact fun im' him' => h.queue im' (List.mem_of_mem_tail him')
  · intro older im' newer heq w hw hle
    have hsplit : s.immQueue = (im :: older) ++ im' :: newer := by
      rw [hqueue, ← htail]
      exact congrArg (im :: ·) heq
    refine (h.covered (im :: older) im' newer hsplit w hw hle).mono (List.Subset.refl _) ?_
    refine List.cons_subset_cons _ ?_
    rw [List.map_cons, List.cons_append]
    exact List.cons_subset.mpr ⟨List.mem_append_right _ hmem, List.Subset.refl _⟩

theorem flusher_step (h : CoverInv cfg s) (hstep : s.flusherStep path = some s') :
    CoverInv cfg s' := by
  have hloss := h.loss.flusher_step hstep
  cases flusherStep_cases hstep with
  | peek | mark =>
    exact h.move hloss h.logged rfl h.sealed rfl rfl (List.Subset.refl _) (List.Subset.refl _) rfl
  | write hpc hfresh =>
    refine h.move hloss h.logged rfl ?_ rfl rfl ?_ (List.Subset.refl _) rfl
    · exact h.sealed.mono rfl rfl rfl fun l hl => (Shared.frame_writeTable hfresh).frozen l hl
    · exact fun l hl => Shared.tables_writeTable hfresh hl
  | register =>
    refine h.move hloss h.logged rfl ?_ rfl rfl ?_ (List.Subset.refl _) rfl
    · exact h.sealed.mono rfl rfl rfl fun l hl => Shared.frame_register.frozen l hl
    · exact fun l hl => Shared.tables_register hl
  | purge hpc => exact h.purge hpc hloss
  | pop hpc =>
    have hflush := h.loss.flusher
    rw [hpc] at hflush
    obtain ⟨im, him, hmem⟩ := hflush
    exact h.pop him hmem hloss

theorem rotate_step (h : CoverInv cfg s) (hid : s.wal.segmentID + 1 < 10 ^ 9) :
    CoverInv cfg { s with toShared := s.rotate } := by
  have hloss := h.loss.rotate_step
  obtain ⟨wal, hrotate, hlogged, hrec, happ⟩ := h.logged.rotate hid
  rw [hrotate] at hloss ⊢
  refine h.move hloss hlogged rfl ?_ rfl rfl (List.Subset.refl _) ?_ happ.symm
  · exact h.sealed.mono rfl rfl happ (List.Subset.refl _)
  · exact hrec ▸ List.Subset.refl _

theorem step (h : CoverInv cfg s) (hsnap : a ≠ .takeSnapshot) (hfits : s.LogFits a)
    (hstep : s.step cfg a = some s') : CoverInv cfg s' := by
  cases a with
  | append key value => exact h.append hfits hstep
  | writer => exact h.writer_step hstep
  | takeSnapshot => exact absurd rfl hsnap
  | snapshotter => simp [Running.step, snapshotterStep, h.quiet] at hstep
  | flusher path => exact h.flusher_step hstep
  | rotate =>
    cases hstep
    exact h.rotate_step hfits

end CoverInv

/-- In every run without snapshots whose records fit the format, the record of a completed write is
in the log, or a registered table holds its key with its value or a later one; and the log holds a
suffix of all records. -/
theorem covered_of_logFits (hsnap : .takeSnapshot ∉ actions)
    (hok : System.Guarded (step cfg) LogFits
      (init cfg (.newAppendStorageInDir [] segmentSize bufferSize) : Running M) actions)
    (hrun : System.run (step cfg)
      (init cfg (.newAppendStorageInDir [] segmentSize bufferSize) : Running M) actions = some s) :
    (∀ w ∈ s.completed, w.record cfg ∈ s.wal.disk.records ∨ Covered s.hist s.tables w) ∧
      s.wal.disk.records <:+ s.hist.map (·.record cfg) := by
  have h : .takeSnapshot ∉ actions → CoverInv cfg s := by
    refine System.run_invariant_of_guarded
      (I := fun actions (s : Running M) => .takeSnapshot ∉ actions → CoverInv cfg s)
      (fun _ => .init) ?_ hok hrun
    intro past s a s' h hfits hstep hsnap
    simp only [List.mem_append, List.mem_singleton, not_or] at hsnap
    exact (h hsnap.1).step (Ne.symm hsnap.2) hfits hstep
  have h := h hsnap
  refine ⟨fun w hw => h.kept w ?_, h.logged.suffix⟩
  revert hw
  unfold completed
  cases s.writer <;> first | exact id | exact List.mem_of_mem_dropLast

/-- Every write is sealed and every record closes its segment; the first table is registered and the
first record purged. -/
theorem covered_of_logFits_purged : ∃ s ∈ System.run (step sealingConfig)
    (init sealingConfig (.newAppendStorageInDir [] 20 65536) :
      Running HashMap)
    [.append [97] [1], .writer, .writer, .writer, .writer, .writer, .writer, .writer,
      .append [98] [2], .writer, .writer, .writer, .flusher 7, .flusher 7, .flusher 7, .flusher 7],
    (∀ w ∈ s.completed, w.record sealingConfig ∈ s.wal.disk.records ∨
      Covered s.hist s.tables w) ∧
    s.wal.disk.records <:+ s.hist.map (·.record sealingConfig) :=
  ⟨Option.get _ (by decide +kernel), Option.get_mem _,
    covered_of_logFits (by decide) (by decide +kernel) (Option.some_get _).symm⟩

/-! ## A record that is too long -/

/-- The log after the first write. -/
theorem appendToWal_first :
    ∃ wal closed active n,
      (Engine.appendToWal sealingConfig [97] [1]).run
          (.newAppendStorageInDir [] 67108864 65536) = .ok 1 wal ∧
        OrderedLog wal [] closed active n [Write.record sealingConfig ⟨1, [97], [1]⟩] ∧
        wal.nextLSN = 2 ∧ wal.segmentID = 1 ∧ wal.segmentSize = 67108864 := by
  have hfits : (AppendFileStorage.newAppendStorageInDir [] 67108864 65536).Fits [97] [1] := by
    decide
  obtain ⟨wal, closed, active, n, hwal, hlog, -⟩ :=
    Engine.appendToWal_run sealingConfig OrderedLog.new hfits
  refine ⟨wal, closed, active, n, hwal, hlog, ?_⟩
  have hcomputed : ∃ wal, (Engine.appendToWal sealingConfig [97] [1]).run
        (.newAppendStorageInDir [] 67108864 65536) = .ok 1 wal ∧
      wal.nextLSN = 2 ∧ wal.segmentID = 1 ∧ wal.segmentSize = 67108864 :=
    ⟨_, rfl, by decide +kernel, by decide +kernel, by decide +kernel⟩
  obtain ⟨wal', hwal', hfields⟩ := hcomputed
  rw [hwal] at hwal'
  cases hwal'
  exact hfields

/-- After a second write whose length field wraps, a purge up to the first one empties the log. -/
theorem appendToWal_wrapped {V : Value} (hlen : V.length = 2 ^ 32 - 26)
    (hlog : OrderedLog wal removed closed active n [Write.record sealingConfig ⟨1, [97], [1]⟩])
    (hlsn : wal.nextLSN = 2) (hid : wal.segmentID = 1) (hsize : wal.segmentSize = 67108864) :
    ∃ wal', (Engine.appendToWal sealingConfig [98] V).run wal = .ok 2 wal' ∧
      (wal'.purgeUpTo 1).disk.records = [] := by
  have hV : V ≠ sealingConfig.tombstone := by
    rintro rfl
    cases hlen
  have henc : encodeRecord checksumIEEE opPut [98] V wal.nextLSN = .ok _ := encodeRecord_put
  rw [Engine.appendToWal, if_neg hV, ← hlsn]
  refine hlog.purgeUpTo_wrapped henc ?_ ?_ ?_ ?_
  · rw [hlen]
    decide
  · rw [hsize, hlen]
    decide
  · rw [hid]
    decide
  · intro r hr
    cases List.mem_singleton.mp hr
    exact Nat.le_refl _

/-- Two writes, the second of them too long, and a flush of the first. -/
theorem run_wrapped {V : Value} (hlen : V.length = 2 ^ 32 - 26) :
    ∃ s ∈ System.run (step sealingConfig)
      (init sealingConfig (.newAppendStorageInDir [] 67108864 65536) : Running HashMap)
      (sealActions [97] [1] ++ (sealActions [98] V ++ List.replicate 6 (.flusher 7))),
      s.hist = [⟨1, [97], [1]⟩, ⟨2, [98], V⟩] ∧ s.writer = .idle ∧
        s.wal.disk.records = [] ∧ s.tables = [[([97], [1])]] := by
  obtain ⟨wal₁, closed, active, n, hwal₁, hlog, hlsn, hid, hsize⟩ := appendToWal_first
  obtain ⟨wal₂, hwal₂, hpurge⟩ := appendToWal_wrapped hlen hlog hlsn hid hsize
  obtain ⟨s₁, hrun₁, hview₁, hwrote₁⟩ := run_sealActions
    (s := (init sealingConfig (.newAppendStorageInDir [] 67108864 65536) : Running HashMap))
    rfl (by decide) hwal₁ (by decide) (by decide)
  have hs₁ : s₁.wal = wal₁ := congrArg Engine.wal hview₁
  have hq₁ : s₁.immQueue = [⟨[([97], [1])], 1⟩] := congrArg Engine.immQueue hview₁
  rw [← hs₁] at hwal₂
  have hfull : Memtable.getSize (Memtable.add s₁.view.activeMem [98] V) ≥
      sealingConfig.memtableSize := by
    rw [hview₁]
    change (1 : Int) ≤ 0 + ((1 + V.length : Nat) : Int)
    omega
  obtain ⟨s₂, hrun₂, hview₂, hwrote₂⟩ :=
    run_sealActions hwrote₁.writer hwrote₁.ref hwal₂ hfull (by rw [hq₁]; decide)
  have hs₂ : s₂.view.wal = wal₂ := congrArg Engine.wal hview₂
  have hfiles₂ : s₂.view.files = [] :=
    (congrArg Engine.files hview₂).trans (congrArg Engine.files hview₁)
  have hversions₂ : s₂.versions = [[], [], [], []] :=
    (congrArg Engine.versions hview₂).trans (congrArg Engine.versions hview₁)
  have hflush : s₂.view.flush 7 = some { s₂.view.writeTable 7 ⟨[([97], [1])], 1⟩ with
      versions := Engine.registerSSTable 0 7 s₂.versions
      wal := wal₂.purgeUpTo 1
      immQueue := s₂.immQueue.tail } := by
    have hq₂ : s₂.view.immQueue = ⟨[([97], [1])], 1⟩ :: s₂.immQueue.tail := by
      have hq : s₂.immQueue = s₁.immQueue ++ [_] := congrArg Engine.immQueue hview₂
      change s₂.immQueue = _
      rw [hq, hq₁]
      rfl
    have hfresh : s₂.view.getOrOpen 7 = none := by
      rw [Engine.getOrOpen, hfiles₂]
      rfl
    simp only [Engine.flush, hq₂, hfresh, Option.isSome_none, Bool.false_eq_true, if_false, hs₂]
    rfl
  obtain ⟨s₃, hrun₃, hview₃, hhist₃, hwriter₃⟩ :=
    run_flush sealingConfig (hwrote₂.flusher.trans hwrote₁.flusher) hflush
  refine ⟨s₃, ?_, ?_, hwriter₃.trans hwrote₂.writer, ?_, ?_⟩
  · exact System.run_append.mpr ⟨s₁, hrun₁, System.run_append.mpr ⟨s₂, hrun₂, hrun₃⟩⟩
  · rw [hhist₃, hwrote₂.hist, hwrote₁.hist]
    rfl
  · have hs₃ : s₃.wal = wal₂.purgeUpTo 1 := congrArg Engine.wal hview₃
    rw [hs₃]
    exact hpurge
  · have hversions₃ : s₃.versions = Engine.registerSSTable 0 7 s₂.versions :=
      congrArg Engine.versions hview₃
    have hfiles₃ : s₃.files = (7, ⟨[([97], [1])], 1⟩) :: s₂.view.files :=
      congrArg Engine.files hview₃
    rw [hversions₂] at hversions₃
    rw [hfiles₂] at hfiles₃
    rw [Shared.tables, hversions₃]
    simp [Engine.registerSSTable, Engine.getOrOpen, hfiles₃]

/-- The purge behind the flush of the first write removes the record of the second one, which is in
no table yet. -/
theorem purge_drops_wrapped_record :
    ∃ s ∈ System.run (step sealingConfig)
      (init sealingConfig (.newAppendStorageInDir [] 67108864 65536) : Running HashMap)
      (sealActions [97] [1] ++ (sealActions [98] (List.replicate (2 ^ 32 - 26) 0) ++
        List.replicate 6 (.flusher 7))),
      ∃ w ∈ s.completed, w.key = [98] ∧ w.record sealingConfig ∉ s.wal.disk.records ∧
        ¬Covered s.hist s.tables w := by
  obtain ⟨s, hs, hhist, hidle, hrecords, htables⟩ := run_wrapped List.length_replicate
  refine ⟨s, hs, ⟨2, [98], List.replicate (2 ^ 32 - 26) 0⟩, ?_, rfl, ?_, ?_⟩
  · rw [completed, hidle, hhist]
    exact List.mem_cons_of_mem _ List.mem_cons_self
  · rw [hrecords]
    exact List.not_mem_nil
  · rintro ⟨l, hl, w', -, -, -, hlook⟩
    rw [htables] at hl
    cases List.mem_singleton.mp hl
    cases hlook

end Running
end ChudDB
