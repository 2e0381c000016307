import ChudDB.Engine.Interleaving

/-! # Undisturbed goroutines

The steps of one goroutine without a step of another in between are the operations of `Engine`: a
write, a drain of the active memtable and a round of the flusher. `Running.view` is the engine the
goroutines see. -/

namespace ChudDB
open Lib Wal

namespace Running

variable {M : Type} [Memtable M] {cfg : Config} {s : Running M}

/-- The running engine with its active memtable in place of the reference to it. -/
def view (s : Running M) : Engine M where
  activeMem := s.mem s.activeMem
  immQueue := s.immQueue
  versions := s.versions
  files := s.files
  wal := s.wal

theorem mem_add (hp : p < s.mems.length) :
    (s.add p key value).mem p = Memtable.add (s.mem p) key value := by
  simp [Shared.add, Shared.mem, List.getD_eq_getElem?_getD, List.getElem?_set_self hp]

/-- The calls of a write that does not seal the memtable. -/
def writeActions (key : Key) (value : Value) : List Action :=
  [.append key value, .writer, .writer, .writer]

/-- The calls of a write that seals the memtable. -/
def sealActions (key : Key) (value : Value) : List Action :=
  [.append key value, .writer, .writer, .writer, .writer, .writer, .writer, .writer]

/-- What a write leaves alone and what it records. -/
structure Wrote (s s' : Running M) (w : Write) : Prop where
  writer : s'.writer = .idle
  snapshotter : s'.snapshotter = s.snapshotter
  flusher : s'.flusher = s.flusher
  ref : s'.activeMem < s'.mems.length
  hist : s'.hist = s.hist ++ [w]

/-- The active memtable is new after `swapActiveMem`. -/
theorem view_swap_clear (hp : p < s.mems.length) :
    view { s with toShared := s.swap.clear p } =
      { s.view with activeMem := Memtable.newMemtable } := by
  have hmem : (s.swap.clear p).mem s.mems.length = Memtable.newMemtable := by
    rw [Shared.mem, List.getD_eq_getElem?_getD, Shared.clear,
      List.getElem?_set_ne (Nat.ne_of_lt hp)]
    simp [Shared.swap]
  change Engine.mk ((s.swap.clear p).mem s.mems.length) _ _ _ _ = _
  rw [hmem]
  rfl

omit [Memtable M] in
theorem push_of_room (t : Shared M) (im : ImmutableMemtable) (hroom : t.immQueue.length < cfg.maxImm) :
    t.push cfg im = some { t with immQueue := t.immQueue ++ [im] } := by
  rw [Shared.push, Engine.push, if_neg (Nat.not_le.mpr hroom)]
  rfl

/-! ## Writes -/

section write
variable {lsn : Nat} {wal : AppendFileStorage} {w : Write}

/-- The state behind the WAL append. -/
def appended (s : Running M) (wal : AppendFileStorage) (w : Write) : Running M :=
  { s with wal := wal, hist := s.hist ++ [w], writer := .appended w }

theorem step_append (hidle : s.writer = .idle)
    (hwal : (Engine.appendToWal cfg key value).run s.wal = .ok lsn wal) :
    s.step cfg (.append key value) = some (s.appended wal ⟨lsn, key, value⟩) := by
  rw [step, appendStep, if_pos hidle, Shared.append, hwal]
  rfl

variable (hidle : s.writer = .idle) (hp : s.activeMem < s.mems.length)
variable (hwal : (Engine.appendToWal cfg key value).run s.wal = .ok lsn wal)
include hidle hp hwal

/-- `applyWriteToMem` below the threshold. -/
theorem run_writeActions
    (hsize : ¬Memtable.getSize (Memtable.add s.view.activeMem key value) ≥ cfg.memtableSize) :
    ∃ s', System.run (step cfg) s (writeActions key value) = some s' ∧
      s'.view = { s.view with
        wal := wal, activeMem := Memtable.add s.view.activeMem key value } ∧
      Wrote s s' ⟨lsn, key, value⟩ := by
  have hmem : ((s.appended wal ⟨lsn, key, value⟩).add s.activeMem key value).mem s.activeMem =
      Memtable.add s.view.activeMem key value := mem_add hp
  refine ⟨{ s with
      toShared := (s.appended wal ⟨lsn, key, value⟩).add s.activeMem key value
      writer := .idle }, ?_, ?_, ⟨rfl, rfl, rfl, ?_, rfl⟩⟩
  · refine (System.run_cons_of_step (step_append hidle hwal)).trans ?_
    refine (System.run_cons_of_step rfl).trans ?_
    refine (System.run_cons_of_step rfl).trans ?_
    exact System.run_cons_of_step (if_neg (hmem ▸ hsize))
  · rw [← hmem]
    rfl
  · simpa [Shared.add, appended] using hp

/-- `applyWriteToMem` with a seal. -/
theorem run_sealActions
    (hsize : Memtable.getSize (Memtable.add s.view.activeMem key value) ≥ cfg.memtableSize)
    (hroom : s.immQueue.length < cfg.maxImm) :
    ∃ s', System.run (step cfg) s (sealActions key value) = some s' ∧
      s'.view = { s.view with
        wal := wal
        immQueue := s.immQueue ++ [newImmutableMemtable
          (Memtable.toRaw (Memtable.add s.view.activeMem key value)) lsn]
        activeMem := Memtable.newMemtable } ∧
      Wrote s s' ⟨lsn, key, value⟩ := by
  let t := (s.appended wal ⟨lsn, key, value⟩).add s.activeMem key value
  have hmem : t.mem s.activeMem = Memtable.add s.view.activeMem key value := mem_add hp
  let im := newImmutableMemtable (Memtable.toRaw (t.mem s.activeMem)) lsn
  refine ⟨{ s with
      toShared := ({ t with immQueue := t.immQueue ++ [im] } : Shared M).swap.clear s.activeMem
      writer := .idle }, ?_, ?_, ⟨rfl, rfl, rfl, ?_, rfl⟩⟩
  · refine (System.run_cons_of_step (step_append hidle hwal)).trans ?_
    refine (System.run_cons_of_step rfl).trans ?_
    refine (System.run_cons_of_step rfl).trans ?_
    refine (System.run_cons_of_step (if_pos (hmem ▸ hsize))).trans ?_
    refine (System.run_cons_of_step rfl).trans ?_
    refine (System.run_cons_of_step (congrArg (Option.map _) (push_of_room t im hroom))).trans ?_
    refine (System.run_cons_of_step rfl).trans ?_
    exact System.run_cons_of_step rfl
  · have hlen : s.activeMem < t.mems.length := by simpa [t, Shared.add, appended] using hp
    rw [← hmem]
    exact view_swap_clear
      (s := { s with toShared := { t with immQueue := t.immQueue ++ [im] }, writer := .idle }) hlen
  · simp [Shared.clear, Shared.swap]

end write

/-- A write that the engine makes is made by the calls of the writer. -/
theorem run_applyWriteToMem (hidle : s.writer = .idle) (hp : s.activeMem < s.mems.length)
    (h : s.view.applyWriteToMem cfg true key value = some (.ok lsn, e)) :
    ∃ actions s', System.run (step cfg) s (.append key value :: actions) = some s' ∧
      (∀ a ∈ actions, a = .writer) ∧ s'.view = e ∧ Wrote s s' ⟨lsn, key, value⟩ := by
  rw [Engine.applyWriteToMem, if_neg (by simp)] at h
  cases hwal : (Engine.appendToWal cfg key value).run s.view.wal with
  | error err wal =>
    rw [hwal] at h
    cases h
  | ok lsn' wal =>
    rw [hwal] at h
    simp only at h
    split at h
    · rename_i hsize
      obtain ⟨e', hseal, heq⟩ := Option.map_eq_some_iff.mp h
      obtain ⟨hroom, rfl⟩ := Engine.sealMem_eq_some_iff.mp hseal
      cases heq
      obtain ⟨s', hrun, hview, hwrote⟩ := run_sealActions hidle hp hwal hsize hroom
      exact ⟨_, s', hrun, by simp, hview, hwrote⟩
    · rename_i hsize
      obtain ⟨s', hrun, hview, hwrote⟩ := run_writeActions hidle hp hwal hsize
      cases h
      exact ⟨_, s', hrun, by simp, hview, hwrote⟩

/-! ## Drains and flushes -/

/-- The drain of `TakeSnapshot`. -/
theorem run_drainActiveMem (hidle : s.snapshotter = .idle) (hp : s.activeMem < s.mems.length)
    (h : s.view.drainActiveMem cfg = some e) :
    ∃ actions s', System.run (step cfg) s (.takeSnapshot :: actions) = some s' ∧
      (∀ a ∈ actions, a = .snapshotter) ∧ s'.view = e ∧ s'.snapshotter = .drained ∧
      s'.hist = s.hist := by
  have hload : s.step cfg .takeSnapshot = some { s with snapshotter := .loaded s.activeMem } :=
    if_pos hidle
  rw [Engine.drainActiveMem] at h
  split at h
  · rename_i hsize
    cases h
    refine ⟨[.snapshotter], { s with snapshotter := .drained }, ?_, by simp, rfl, rfl, rfl⟩
    refine (System.run_cons_of_step hload).trans ?_
    exact System.run_cons_of_step (if_pos hsize)
  · rename_i hsize
    obtain ⟨hroom, rfl⟩ := Engine.sealMem_eq_some_iff.mp h
    let im := newImmutableMemtable (Memtable.toRaw (s.mem s.activeMem)) s.wal.appendedLSN
    refine ⟨List.replicate 6 .snapshotter, { s with
        toShared :=
          ({ s.toShared with immQueue := s.immQueue ++ [im] } : Shared M).swap.clear s.activeMem
        snapshotter := .drained }, ?_, by simp, ?_, rfl, rfl⟩
    · refine (System.run_cons_of_step hload).trans ?_
      refine (System.run_cons_of_step (if_neg hsize)).trans ?_
      refine (System.run_cons_of_step rfl).trans ?_
      refine (System.run_cons_of_step rfl).trans ?_
      refine (System.run_cons_of_step
        (congrArg (Option.map _) (push_of_room s.toShared im hroom))).trans ?_
      refine (System.run_cons_of_step rfl).trans ?_
      exact System.run_cons_of_step rfl
    · exact view_swap_clear (s := { s with
        toShared := { s.toShared with immQueue := s.immQueue ++ [im] }, snapshotter := .drained }) hp

theorem step_flusher_idle (hidle : s.flusher = .idle) (hhead : s.immQueue.head? = some im) :
    s.step cfg (.flusher path) = some { s with flusher := .peeked im } := by
  rw [step, flusherStep, hidle, hhead]
  rfl

/-- A round of the flusher. -/
theorem run_flush (cfg : Config) (hidle : s.flusher = .idle) (h : s.view.flush path = some e) :
    ∃ s', System.run (step cfg) s (List.replicate 6 (.flusher path)) = some s' ∧ s'.view = e ∧
      s'.hist = s.hist ∧ s'.writer = s.writer := by
  rw [Engine.flush] at h
  split at h
  · cases h
  · rename_i im rest hqueue
    split at h
    · cases h
    · rename_i hfresh
      cases h
      have hhead : s.immQueue.head? = some im := List.head?_eq_some_iff.mpr ⟨rest, hqueue⟩
      refine ⟨{ s with
          toEngine := { s.writeTable path ⟨im.data, im.maxLSN⟩ with
            versions := Engine.registerSSTable 0 path s.versions
            wal := s.wal.purgeUpTo im.maxLSN
            immQueue := s.immQueue.tail }
          popped := s.popped + 1
          flushed := s.flushed + 1
          flusher := .idle }, ?_, ?_, rfl, rfl⟩
      · refine (System.run_cons_of_step (step_flusher_idle hidle hhead)).trans ?_
        refine (System.run_cons_of_step (if_neg hfresh)).trans ?_
        refine (System.run_cons_of_step rfl).trans ?_
        refine (System.run_cons_of_step rfl).trans ?_
        refine (System.run_cons_of_step rfl).trans ?_
        exact System.run_cons_of_step rfl
      · have htail : s.immQueue.tail = rest := by
          rw [show s.immQueue = im :: rest from hqueue, List.tail_cons]
        simp only [view, htail]
        rfl

end Running
end ChudDB
