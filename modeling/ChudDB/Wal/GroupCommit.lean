import ChudDB.Lib.Lists
import ChudDB.Lib.Run
import ChudDB.Wal.StorageLsn

/-! # Group commit

`WaitDurable` of the WAL, step by step. In group mode a caller whose LSN is not flushed yet becomes
the leader if there is none, syncs without holding the lock, and publishes the durable LSN; the
others wait for it. The calls that were made are listed in the order in which they came, and a step
is what a caller does between two points at which another one can run: everything up to the next
`Unlock`, `cond.Wait`, `Sync` or `return`. -/

namespace ChudDB.Wal
open Lib

/-- `WALSyncMode`; every text other than `"sync"` means group commit. -/
inductive SyncMode where
  | sync
  | group
deriving DecidableEq, Repr

/-- Where a call of `WaitDurable` stands: before it takes the lock (at the start, or woken up), in
`cond.Wait`, before and behind the leader's `Sync`, and behind its `return`. -/
inductive WaitPc where
  | start
  | waiting
  | leading
  | synced (err : Option StorageError)
  | returned (err : Option StorageError)
deriving DecidableEq, Repr

/-- The leader is behind `w.syncing = true` and before `w.syncing = false`. -/
def WaitPc.leads : WaitPc → Bool
  | .leading | .synced _ => true
  | _ => false

structure Call where
  lsn : Nat
  pc : WaitPc
deriving DecidableEq, Repr

/-- `cond.Broadcast` for one caller. -/
def Call.wake (c : Call) : Call :=
  match c.pc with
  | .waiting => { c with pc := .start }
  | _ => c

structure WAL where
  store : AppendFileStorage
  syncMode : SyncMode
  syncing : Bool
  flushedLSN : Nat
  calls : List Call
deriving DecidableEq

namespace WAL

/-- `NewWALWithStorage`. -/
def newWALWithStorage (store : AppendFileStorage) (syncMode : SyncMode) : WAL :=
  ⟨store, syncMode, false, store.durableLSN, []⟩

/-- A caller enters `WaitDurable`. -/
def waitDurable (lsn : Nat) (w : WAL) : WAL := { w with calls := w.calls ++ [⟨lsn, .start⟩] }

/-- The error that an operation of the storage returns, and the WAL behind it. -/
def exec (m : StorageM α) (w : WAL) : Option StorageError × WAL :=
  match m.run w.store with
  | .ok _ store => (none, { w with store := store })
  | .error e store => (some e, { w with store := store })

def setPc (i : Nat) (pc : WaitPc) (w : WAL) : WAL :=
  { w with calls := w.calls.modify i fun c => { c with pc := pc } }

/-- The leader takes the lock again, publishes the durable LSN and wakes the others. -/
def publish (w : WAL) : WAL :=
  { w with
    flushedLSN := w.store.durableLSN
    syncing := false
    calls := w.calls.map Call.wake }

/-- One round of the loop, up to where the lock is given up. -/
def round (i lsn : Nat) (w : WAL) : WAL :=
  if lsn ≤ w.flushedLSN then w.setPc i (.returned none)
  else if w.syncing then w.setPc i .waiting
  else { w with syncing := true }.setPc i .leading

/-- The next step of a call; `none` while it waits and when it has returned. -/
def stepCall (io : Faults) (i : Nat) (w : WAL) : Option WAL := do
  let c ← w.calls[i]?
  match c.pc, w.syncMode with
  | .start, .sync =>
    let (err, w) := w.exec (AppendFileStorage.syncLocked io)
    some (w.setPc i (.returned err))
  | .start, .group => some (w.round i c.lsn)
  | .leading, _ =>
    let (err, w) := w.exec (AppendFileStorage.syncLocked io)
    some (w.setPc i (.synced err))
  | .synced err, _ =>
    let w := w.publish
    if err.isSome ∧ c.lsn > w.flushedLSN then some (w.setPc i (.returned err))
    else some (w.round i c.lsn)
  | .waiting, _ | .returned _, _ => none

/-! ## What a step does -/

/-- The steps of the call `c`, the `i`th, and where it stands then. -/
inductive Moves (w : WAL) (i : Nat) (c : Call) : WaitPc → WAL → Prop
  /-- In sync mode every caller syncs. -/
  | direct (hpc : c.pc = .start) (hmode : w.syncMode = .sync)
      (hsync : w.exec (AppendFileStorage.syncLocked io) = (err, w')) :
      Moves w i c (.returned err) (w'.setPc i (.returned err))
  | covered (hpc : c.pc = .start) (hmode : w.syncMode = .group) (hle : c.lsn ≤ w.flushedLSN) :
      Moves w i c (.returned none) (w.setPc i (.returned none))
  | blocks (hpc : c.pc = .start) (hmode : w.syncMode = .group) (hlt : w.flushedLSN < c.lsn)
      (hsyncing : w.syncing = true) : Moves w i c .waiting (w.setPc i .waiting)
  | leads (hpc : c.pc = .start) (hmode : w.syncMode = .group) (hlt : w.flushedLSN < c.lsn)
      (hsyncing : w.syncing = false) :
      Moves w i c .leading ({ w with syncing := true }.setPc i .leading)
  | syncs (hpc : c.pc = .leading)
      (hsync : w.exec (AppendFileStorage.syncLocked io) = (err, w')) :
      Moves w i c (.synced err) (w'.setPc i (.synced err))
  | returns (hpc : c.pc = .synced err) (hle : c.lsn ≤ w.store.durableLSN) :
      Moves w i c (.returned none) (w.publish.setPc i (.returned none))
  | fails (hpc : c.pc = .synced (some e)) (hlt : w.store.durableLSN < c.lsn) :
      Moves w i c (.returned (some e)) (w.publish.setPc i (.returned (some e)))
  | leadsAgain (hpc : c.pc = .synced none) (hlt : w.store.durableLSN < c.lsn) :
      Moves w i c .leading ({ w.publish with syncing := true }.setPc i .leading)

variable {w w' : WAL} {c : Call} {i j : Nat} {pc : WaitPc}

theorem moves_of_stepCall (h : w.stepCall io i = some w') :
    ∃ c pc, w.calls[i]? = some c ∧ Moves w i c pc w' := by
  simp only [stepCall, Option.bind_eq_bind, Option.bind_eq_some_iff] at h
  obtain ⟨c, hc, h⟩ := h
  split at h
  · rename_i hpc hmode
    cases h
    exact ⟨c, _, hc, .direct hpc hmode rfl⟩
  · rename_i hpc hmode
    cases h
    rw [round]
    split
    · rename_i hle
      exact ⟨c, _, hc, .covered hpc hmode hle⟩
    · rename_i hlt
      split
      · rename_i hsyncing
        exact ⟨c, _, hc, .blocks hpc hmode (Nat.lt_of_not_le hlt) hsyncing⟩
      · rename_i hsyncing
        exact ⟨c, _, hc, .leads hpc hmode (Nat.lt_of_not_le hlt) (Bool.eq_false_iff.mpr hsyncing)⟩
  · rename_i hpc
    cases h
    exact ⟨c, _, hc, .syncs hpc rfl⟩
  · rename_i err hpc
    by_cases hle : c.lsn ≤ w.publish.flushedLSN
    · rw [if_neg fun hfail => Nat.not_lt.mpr hle hfail.2, round, if_pos hle] at h
      cases h
      exact ⟨c, _, hc, .returns hpc hle⟩
    · have hlt : w.publish.flushedLSN < c.lsn := Nat.lt_of_not_le hle
      cases err with
      | some e =>
        rw [if_pos ⟨rfl, hlt⟩] at h
        cases h
        exact ⟨c, _, hc, .fails hpc hlt⟩
      | none =>
        rw [if_neg fun hfail => Bool.noConfusion hfail.1, round, if_neg hle,
          if_neg (show ¬ w.publish.syncing = true from Bool.false_ne_true)] at h
        cases h
        exact ⟨c, _, hc, .leadsAgain hpc hlt⟩
  · cases h
  · cases h

@[simp] theorem store_setPc : (w.setPc i pc).store = w.store := rfl

theorem getElem?_setPc_self (h : w.calls[i]? = some c) :
    (w.setPc i pc).calls[i]? = some { c with pc := pc } := by
  rw [setPc, List.getElem?_modify_eq, h]
  rfl

theorem getElem?_setPc_of_ne (h : i ≠ j) : (w.setPc i pc).calls[j]? = w.calls[j]? :=
  List.getElem?_modify_ne _ _ h

/-- An operation of the storage leaves everything else as it is, and `P` describes what it does. -/
theorem exec_eq {m : StorageM α} {ok : α → AppendFileStorage → Prop}
    {err : AppendFileStorage → Prop} (h : w.exec m = (e, w')) (houtcome : Outcome m w.store ok err) :
    w' = { w with store := w'.store } ∧
      (e = none → ∃ a, ok a w'.store) ∧ (e ≠ none → err w'.store) := by
  unfold exec at h
  split at h
  · rename_i a store hrun
    cases h
    exact ⟨rfl, fun _ => ⟨a, houtcome.of_ok hrun⟩, fun hne => absurd rfl hne⟩
  · rename_i e store hrun
    cases h
    exact ⟨rfl, nofun, fun _ => houtcome.of_error hrun⟩

/-- `Sync` through the WAL. -/
theorem exec_syncLocked (h : w.exec (AppendFileStorage.syncLocked io) = (err, w'))
    (hs : w.store.Sound) : w' = { w with store := w'.store } ∧ w.store.Advances w'.store ∧
      (err = none → w'.store.durableLSN = w'.store.appendedLSN) := by
  obtain ⟨heq, hok, herr⟩ := exec_eq h (AppendFileStorage.outcome_syncLocked hs)
  refine ⟨heq, ?_, fun hnone => ?_⟩
  · by_cases hnone : err = none
    · obtain ⟨-, hadv, -⟩ := hok hnone
      exact hadv
    · exact herr hnone
  · obtain ⟨-, -, hdurable, -⟩ := hok hnone
    exact hdurable

/-! ## The invariant -/

structure Inv (w : WAL) : Prop where
  sound : w.store.Sound
  flushed_le : w.flushedLSN ≤ w.store.durableLSN
  leaders : w.calls.countP (·.pc.leads) = w.syncing.toNat
  waiting : ∀ c ∈ w.calls, c.pc = .waiting → w.syncing = true

theorem countP_setPc (p : WaitPc → Bool) (pc : WaitPc) (h : w.calls[i]? = some c) :
    (w.setPc i pc).calls.countP (fun c => p c.pc) + (p c.pc).toNat =
      w.calls.countP (fun c => p c.pc) + (p pc).toNat :=
  countP_modify h

theorem countP_publish (p : WaitPc → Bool) (hp : p .start = p .waiting) :
    w.publish.calls.countP (fun c => p c.pc) = w.calls.countP (fun c => p c.pc) := by
  rw [publish, List.countP_map]
  congr 1
  funext c
  obtain ⟨lsn, pc⟩ := c
  cases pc <;> first | exact hp | rfl

theorem getElem?_publish (h : w.calls[i]? = some c) : w.publish.calls[i]? = some c.wake := by
  rw [publish, List.getElem?_map, h]
  rfl

theorem mem_setPc (h : c ∈ (w.setPc i pc).calls) : c.pc = pc ∨ c ∈ w.calls := by
  obtain ⟨j, hj⟩ := List.mem_iff_getElem?.mp h
  by_cases hij : i = j
  · subst hij
    rw [setPc, List.getElem?_modify_eq] at hj
    obtain ⟨c, -, rfl⟩ := Option.map_eq_some_iff.mp hj
    exact .inl rfl
  · rw [getElem?_setPc_of_ne hij] at hj
    exact .inr (List.mem_of_getElem? hj)

theorem not_waiting_of_mem_publish (h : c ∈ w.publish.calls) : c.pc ≠ .waiting := by
  obtain ⟨⟨lsn, pc⟩, -, rfl⟩ := List.mem_map.mp h
  cases pc <;> exact nofun

theorem wake_of_ne_waiting (h : c.pc ≠ .waiting) : c.wake = c := by
  obtain ⟨lsn, pc⟩ := c
  cases pc with
  | waiting => exact absurd rfl h
  | start | leading | synced | returned => rfl

theorem lsn_wake : c.wake.lsn = c.lsn := by
  obtain ⟨lsn, pc⟩ := c
  cases pc <;> rfl

theorem wake_of_leads (h : c.pc.leads = true) : c.wake = c :=
  wake_of_ne_waiting fun hpc => by simp [hpc, WaitPc.leads] at h

theorem getElem?_publish_of_leads (hc : w.calls[i]? = some c) (h : c.pc.leads = true) :
    w.publish.calls[i]? = some c := by
  rw [getElem?_publish hc, wake_of_leads h]

/-- While a call leads, the others see `w.syncing`. -/
theorem Inv.syncing_of_leads (h : w.Inv) (hc : w.calls[i]? = some c) (hleads : c.pc.leads = true) :
    w.syncing = true := by
  have hpos : 0 < w.calls.countP (·.pc.leads) :=
    List.countP_pos_iff.mpr ⟨c, List.mem_of_getElem? hc, hleads⟩
  rw [h.leaders] at hpos
  cases hsyncing : w.syncing with
  | true => rfl
  | false =>
    rw [hsyncing] at hpos
    exact absurd hpos (Nat.lt_irrefl 0)

/-- Everything but the storage is as it was. -/
theorem Inv.of_store (h : w.Inv) (hadv : w.store.Advances store') :
    Inv { w with store := store' } where
  sound := hadv.sound
  flushed_le := h.flushed_le.trans hadv.durable
  leaders := h.leaders
  waiting := h.waiting

theorem Inv.setPc (h : w.Inv) (hc : w.calls[i]? = some c) (hleads : pc.leads = c.pc.leads)
    (hwaiting : pc = .waiting → w.syncing = true) : (w.setPc i pc).Inv where
  sound := h.sound
  flushed_le := h.flushed_le
  leaders := by
    have hcount := countP_setPc WaitPc.leads pc hc
    rw [hleads] at hcount
    exact (Nat.add_right_cancel hcount).trans h.leaders
  waiting c' hc' hpc := by
    rcases mem_setPc hc' with rfl | hmem
    · exact hwaiting hpc
    · exact h.waiting c' hmem hpc

/-- The leader publishes, and leads again or returns. -/
theorem Inv.publish (h : w.Inv) (hc : w.calls[i]? = some c) (hleads : c.pc.leads = true)
    (hpc : pc ≠ .waiting) (hsyncing : pc.leads = syncing') :
    ({ w.publish with syncing := syncing' }.setPc i pc).Inv where
  sound := h.sound
  flushed_le := Nat.le_refl _
  leaders := by
    have hcount := countP_setPc WaitPc.leads pc (getElem?_publish hc)
    rw [countP_publish WaitPc.leads rfl, h.leaders, h.syncing_of_leads hc hleads,
      wake_of_leads hleads, hleads, hsyncing, Nat.add_comm] at hcount
    exact Nat.add_left_cancel hcount
  waiting c' hc' hwaiting := by
    rcases mem_setPc hc' with rfl | hmem
    · exact absurd hwaiting hpc
    · exact absurd hwaiting (not_waiting_of_mem_publish hmem)

theorem Inv.moves (h : w.Inv) (hc : w.calls[i]? = some c) (hmove : w.Moves i c pc w') : w'.Inv := by
  cases hmove with
  | direct hpc _ hsync | syncs hpc hsync =>
    obtain ⟨heq, hadv, -⟩ := exec_syncLocked hsync h.sound
    rw [heq]
    exact (h.of_store hadv).setPc hc (by rw [hpc]; rfl) nofun
  | covered hpc hmode hle => exact h.setPc hc (by rw [hpc]; rfl) nofun
  | blocks hpc hmode hlt hsyncing => exact h.setPc hc (by rw [hpc]; rfl) fun _ => hsyncing
  | leads hpc hmode hlt hsyncing =>
    refine ⟨h.sound, h.flushed_le, ?_, fun _ _ _ => rfl⟩
    have hcount := countP_setPc WaitPc.leads .leading hc
    rw [h.leaders, hsyncing, hpc] at hcount
    exact hcount
  | returns hpc | fails hpc | leadsAgain hpc => exact h.publish hc (by rw [hpc]; rfl) nofun rfl

/-- A new caller. -/
theorem Inv.waitDurable (h : w.Inv) : (w.waitDurable lsn).Inv where
  sound := h.sound
  flushed_le := h.flushed_le
  leaders := by
    rw [WAL.waitDurable, List.countP_append]
    exact h.leaders
  waiting c hc hpc := by
    rcases List.mem_append.mp hc with hc | hc
    · exact h.waiting c hc hpc
    · cases List.mem_singleton.mp hc
      cases hpc

theorem getElem?_waitDurable (hc : w.calls[i]? = some c) :
    (w.waitDurable lsn).calls[i]? = some c := by
  rw [waitDurable, List.getElem?_append_left (List.getElem?_eq_some_iff.mp hc).1, hc]

theorem getElem?_waitDurable_self :
    (w.waitDurable lsn).calls[w.calls.length]? = some ⟨lsn, .start⟩ :=
  List.getElem?_concat_length

theorem Moves.advances (hmove : w.Moves i c pc w') (h : w.Inv) : w.store.Advances w'.store := by
  cases hmove with
  | direct _ _ hsync | syncs _ hsync =>
    obtain ⟨-, hadv, -⟩ := exec_syncLocked hsync h.sound
    exact hadv
  | covered | blocks | leads | returns | fails | leadsAgain => exact h.sound.advances

/-- The other calls stay where they are until the leader publishes, and are then woken up. -/
theorem Moves.other (hmove : w.Moves j c' pc w') (h : w.Inv) (hne : j ≠ i)
    (hc : w.calls[i]? = some c) :
    w'.calls[i]? = some c ∧ w'.flushedLSN = w.flushedLSN ∧ (∀ err, c'.pc ≠ .synced err) ∨
    w'.calls[i]? = some c.wake ∧ w'.flushedLSN = w.store.durableLSN ∧ ∃ err, c'.pc = .synced err := by
  cases hmove with
  | direct hpc _ hsync | syncs hpc hsync =>
    obtain ⟨heq, -⟩ := exec_syncLocked hsync h.sound
    rw [getElem?_setPc_of_ne hne, heq]
    exact .inl ⟨hc, rfl, fun err => by simp [hpc]⟩
  | covered hpc | blocks hpc | leads hpc =>
    exact .inl ⟨(getElem?_setPc_of_ne hne).trans hc, rfl, fun err => by simp [hpc]⟩
  | returns hpc | fails hpc | leadsAgain hpc =>
    exact .inr ⟨(getElem?_setPc_of_ne hne).trans (getElem?_publish hc), rfl, _, hpc⟩

theorem Moves.syncMode_eq (hmove : w.Moves j c pc w') (h : w.Inv) : w'.syncMode = w.syncMode := by
  cases hmove with
  | direct _ _ hsync | syncs _ hsync =>
    obtain ⟨heq, -⟩ := exec_syncLocked hsync h.sound
    rw [heq]
    rfl
  | covered | blocks | leads | returns | fails | leadsAgain => rfl

/-! ## A call for an LSN that was appended -/

structure Honest (w : WAL) (c : Call) : Prop where
  appended : c.lsn ≤ w.store.appendedLSN
  durable : c.pc = .synced none ∨ c.pc = .returned none → c.lsn ≤ w.store.durableLSN

theorem Honest.mono (h : w.Honest c) (hadv : w.store.Advances w'.store) : w'.Honest c :=
  ⟨h.appended.trans hadv.appended, fun hpc => (h.durable hpc).trans hadv.durable⟩

theorem Honest.wake (h : w.Honest c) : w.Honest c.wake := by
  obtain ⟨lsn, pc⟩ := c
  cases pc with
  | waiting => exact ⟨h.appended, nofun⟩
  | start | leading | synced | returned => exact h

theorem Moves.getElem? (hmove : w.Moves i c pc w') (h : w.Inv) (hc : w.calls[i]? = some c) :
    w'.calls[i]? = some { c with pc := pc } := by
  cases hmove with
  | direct _ _ hsync | syncs _ hsync =>
    obtain ⟨heq, -⟩ := exec_syncLocked hsync h.sound
    exact getElem?_setPc_self (by rw [heq]; exact hc)
  | covered | blocks | leads => exact getElem?_setPc_self hc
  | returns hpc | fails hpc | leadsAgain hpc =>
    exact getElem?_setPc_self (getElem?_publish_of_leads hc (by rw [hpc]; rfl))

/-- Such a call returns without an error only when its LSN is durable. -/
theorem Moves.honest (hmove : w.Moves i c pc w') (h : w.Inv) (hhonest : w.Honest c) :
    w'.Honest { c with pc := pc } := by
  have happended := hhonest.appended.trans (hmove.advances h).appended
  refine ⟨happended, fun hpc' => ?_⟩
  cases hmove with
  | direct hpc hmode hsync =>
    obtain ⟨-, -, hdurable⟩ := exec_syncLocked hsync h.sound
    rcases hpc' with hpc' | hpc'
    · cases hpc'
    · cases hpc'
      exact happended.trans (hdurable rfl).ge
  | covered hpc hmode hle => exact hle.trans h.flushed_le
  | syncs hpc hsync =>
    obtain ⟨-, -, hdurable⟩ := exec_syncLocked hsync h.sound
    rcases hpc' with hpc' | hpc'
    · cases hpc'
      exact happended.trans (hdurable rfl).ge
    · cases hpc'
  | returns hpc hle => exact hle
  | blocks | leads | fails | leadsAgain => rcases hpc' with hpc' | hpc' <;> cases hpc'

end WAL
end ChudDB.Wal
