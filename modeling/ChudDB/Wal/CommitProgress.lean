import ChudDB.Wal.GroupCommit

/-! # A group commit gets done

A call of `WaitDurable` for an LSN that was appended returns, whatever the other callers do, as long
as each caller that can go on is given a turn. `rank` says how far a call is from returning and
`helper` whose turn brings it nearer: its own, or the leader's while it waits. A leader that
publishes too small an LSN has synced before the append, or its `Sync` failed and it returns:
`credit` counts how often that can happen. -/

namespace ChudDB.Wal
open Lib

namespace WaitPc

def active : WaitPc → Bool
  | .returned _ => false
  | _ => true

def isLeading : WaitPc → Bool
  | .leading => true
  | _ => false

def isSynced : WaitPc → Bool
  | .synced none => true
  | _ => false

end WaitPc

namespace WAL

variable {w w' : WAL} {c c' : Call} {i j lsn : Nat} {pc : WaitPc}

/-- How often the durable LSN can still be published and be below `lsn`. -/
def credit (w : WAL) (lsn : Nat) : Nat :=
  2 * w.calls.countP (·.pc.active) +
    if w.store.durableLSN < lsn then w.calls.countP (·.pc.isSynced) else 0

/-- What the leader still has to do. -/
def lag (w : WAL) : Nat := 1 + w.calls.countP (·.pc.isLeading)

def rank (w : WAL) (c : Call) : Nat :=
  match c.pc with
  | .returned _ => 0
  | .synced _ => 1
  | .leading => 2
  | .start =>
    if w.syncMode = .sync ∨ c.lsn ≤ w.flushedLSN then 1 else 6 + 3 * w.credit c.lsn
  | .waiting => 3 + w.lag + 3 * w.credit c.lsn

def leader (w : WAL) : Nat := w.calls.findIdx (·.pc.leads)

/-- The call whose next step brings the `i`th nearer to its return. -/
def helper (w : WAL) (i : Nat) (c : Call) : Nat := if c.pc = .waiting then w.leader else i

/-! ## The leader -/

theorem Inv.eq_of_leads (h : w.Inv) (hc : w.calls[i]? = some c) (hleads : c.pc.leads = true)
    (hc' : w.calls[j]? = some c') (hleads' : c'.pc.leads = true) : i = j := by
  have hle : w.calls.countP (·.pc.leads) ≤ 1 := by
    rw [h.leaders]
    exact Bool.toNat_le w.syncing
  exact eq_of_countP_le_one hle hc hleads hc' hleads'

theorem Inv.leader_eq (h : w.Inv) (hc : w.calls[i]? = some c) (hleads : c.pc.leads = true) :
    w.leader = i := by
  have hlt : w.leader < w.calls.length :=
    List.findIdx_lt_length_of_exists ⟨c, List.mem_of_getElem? hc, hleads⟩
  have hfound : w.calls[w.leader].pc.leads = true := List.findIdx_getElem (w := hlt)
  exact h.eq_of_leads (List.getElem?_eq_getElem hlt) hfound hc hleads

/-- Whoever waits waits for a leader. -/
theorem Inv.exists_leader (h : w.Inv) (hc : w.calls[i]? = some c) (hpc : c.pc = .waiting) :
    ∃ c', w.calls[w.leader]? = some c' ∧ c'.pc.leads = true := by
  have hcount : w.calls.countP (·.pc.leads) = 1 := by
    rw [h.leaders, h.waiting c (List.mem_of_getElem? hc) hpc]
    rfl
  obtain ⟨c', hmem, hleads⟩ := List.countP_pos_iff.mp (hcount.ge.trans' Nat.one_pos)
  obtain ⟨l, hl⟩ := List.mem_iff_getElem?.mp hmem
  rw [h.leader_eq hl hleads]
  exact ⟨c', hl, hleads⟩

/-! ## The credit -/

theorem credit_setPc (hc : w.calls[j]? = some c) (lsn : Nat) (pc : WaitPc) :
    (w.setPc j pc).credit lsn + 2 * c.pc.active.toNat +
        (if w.store.durableLSN < lsn then c.pc.isSynced.toNat else 0) =
      w.credit lsn + 2 * pc.active.toNat +
        if w.store.durableLSN < lsn then pc.isSynced.toNat else 0 := by
  have hactive := countP_setPc WaitPc.active pc hc
  have hsynced := countP_setPc WaitPc.isSynced pc hc
  rw [credit, credit, store_setPc]
  split <;> omega

theorem credit_publish : w.publish.credit lsn = w.credit lsn := by
  rw [credit, credit, countP_publish WaitPc.active rfl, countP_publish WaitPc.isSynced rfl]
  rfl

theorem credit_store_le (hadv : w.store.Advances store') :
    { w with store := store' }.credit lsn ≤ w.credit lsn := by
  have hdurable := hadv.durable
  rw [credit, credit]
  dsimp only
  split <;> split <;> omega

theorem credit_setPc_le (pc : WaitPc) (hc : w.calls[j]? = some c) (hactive : c.pc.active = true)
    (hpc : pc.isSynced = true → lsn ≤ w.store.durableLSN) :
    (w.setPc j pc).credit lsn ≤ w.credit lsn := by
  have hset := credit_setPc hc lsn pc
  have hle := Bool.toNat_le pc.active
  have hsynced : (if w.store.durableLSN < lsn then pc.isSynced.toNat else 0) = 0 := by
    split
    · rename_i hlt
      rw [Bool.eq_false_iff.mpr fun h => Nat.not_lt.mpr (hpc h) hlt]
      rfl
    · rfl
  rw [hsynced, hactive, Bool.toNat_true] at hset
  omega

theorem credit_setPc_lt (pc : WaitPc) (hc : w.calls[j]? = some c) (hactive : c.pc.active = true)
    (hpc : pc.isSynced = false)
    (hless : pc.active = false ∨ c.pc.isSynced = true ∧ w.store.durableLSN < lsn) :
    (w.setPc j pc).credit lsn < w.credit lsn := by
  have hset := credit_setPc hc lsn pc
  rw [hpc, hactive, Bool.toNat_true, Bool.toNat_false, ite_self] at hset
  rcases hless with hinactive | ⟨hsynced, hlt⟩
  · rw [hinactive, Bool.toNat_false] at hset
    omega
  · have hle := Bool.toNat_le pc.active
    rw [if_pos hlt, hsynced, Bool.toNat_true] at hset
    omega

/-- A leader that publishes an LSN below `lsn` uses some of the credit. -/
theorem Moves.credit_lt (hmove : w.Moves j c pc w') (hc : w.calls[j]? = some c)
    (hpc : c.pc = .synced err) (hlt : w.store.durableLSN < lsn) : w'.credit lsn < w.credit lsn := by
  have hleads : c.pc.leads = true := by rw [hpc]; rfl
  have hactive : c.pc.active = true := by rw [hpc]; rfl
  have hc' := getElem?_publish_of_leads hc hleads
  refine Nat.lt_of_lt_of_eq ?_ credit_publish
  cases hmove with
  | direct hpc' | covered hpc' | blocks hpc' | leads hpc' | syncs hpc' => simp [hpc] at hpc'
  | returns => exact credit_setPc_lt (.returned none) hc' hactive rfl (.inl rfl)
  | fails => exact credit_setPc_lt (.returned (some _)) hc' hactive rfl (.inl rfl)
  | leadsAgain hpc' =>
    exact credit_setPc_lt .leading hc' hactive rfl (.inr ⟨by rw [hpc']; rfl, hlt⟩)

/-- The credit does not grow. -/
theorem Moves.credit_le (hmove : w.Moves j c pc w') (h : w.Inv) (hc : w.calls[j]? = some c)
    (hlsn : lsn ≤ w.store.appendedLSN) : w'.credit lsn ≤ w.credit lsn := by
  cases hmove with
  | direct hpc hmode hsync =>
    obtain ⟨heq, hadv, -⟩ := exec_syncLocked hsync h.sound
    rw [heq]
    refine Nat.le_trans ?_ (credit_store_le hadv)
    exact credit_setPc_le (.returned _) hc (by rw [hpc]; rfl) nofun
  | syncs hpc hsync =>
    obtain ⟨heq, hadv, hdurable⟩ := exec_syncLocked hsync h.sound
    rename_i err _
    rw [heq]
    refine Nat.le_trans ?_ (credit_store_le hadv)
    refine credit_setPc_le (.synced err) hc (by rw [hpc]; rfl) fun hsynced => ?_
    cases err with
    | none => exact (hlsn.trans hadv.appended).trans (hdurable rfl).ge
    | some e => cases hsynced
  | covered hpc => exact credit_setPc_le (.returned none) hc (by rw [hpc]; rfl) nofun
  | blocks hpc => exact credit_setPc_le .waiting hc (by rw [hpc]; rfl) nofun
  | leads hpc => exact credit_setPc_le .leading hc (by rw [hpc]; rfl) nofun
  | returns hpc | fails hpc | leadsAgain hpc =>
    refine Nat.le_trans ?_ credit_publish.le
    have hc' := getElem?_publish_of_leads hc (by rw [hpc]; rfl)
    exact credit_setPc_le _ hc' (by rw [hpc]; rfl) fun hsynced => by cases hsynced

/-! ## The rank -/

theorem Inv.lag_le (h : w.Inv) : w.lag ≤ 2 := by
  have hle : w.calls.countP (·.pc.isLeading) ≤ w.calls.countP (·.pc.leads) := by
    refine List.countP_mono_left fun c _ hleading => ?_
    obtain ⟨lsn, pc⟩ := c
    cases pc <;> first | rfl | cases hleading
  have hone := Bool.toNat_le w.syncing
  rw [h.leaders] at hle
  rw [lag]
  omega

/-- The call's own step. -/
theorem Moves.rank_lt (hmove : w.Moves i c pc w') (h : w.Inv) (hc : w.calls[i]? = some c)
    (hhonest : w.Honest c) : w'.rank { c with pc := pc } < w.rank c := by
  have hcredit := hmove.credit_le h hc hhonest.appended
  have hlag := (h.moves hc hmove).lag_le
  have huncovered : w.syncMode = .group → w.flushedLSN < c.lsn →
      ¬ (w.syncMode = .sync ∨ c.lsn ≤ w.flushedLSN) := by
    rintro hmode hlt (hsync | hle)
    · rw [hmode] at hsync
      cases hsync
    · exact Nat.not_le.mpr hlt hle
  cases hmove with
  | direct hpc hmode hsync =>
    rw [rank, rank, hpc]
    dsimp only
    rw [if_pos (.inl hmode)]
    exact Nat.one_pos
  | covered hpc hmode hle =>
    rw [rank, rank, hpc]
    dsimp only
    rw [if_pos (.inr hle)]
    exact Nat.one_pos
  | blocks hpc hmode hlt | leads hpc hmode hlt =>
    rw [rank, rank, hpc]
    dsimp only
    rw [if_neg (huncovered hmode hlt)]
    omega
  | syncs hpc hsync =>
    rw [rank, rank, hpc]
    exact Nat.lt_succ_self 1
  | returns hpc | fails hpc =>
    rw [rank, rank, hpc]
    exact Nat.one_pos
  | leadsAgain hpc hlt => exact absurd (hhonest.durable (.inl hpc)) (Nat.not_le.mpr hlt)

/-- The rank when the leader publishes: whoever waited starts again, with less credit or covered. -/
theorem rank_wake_lt (hpc : c.pc = .waiting)
    (hcredit : w'.flushedLSN < c.lsn → w'.credit c.lsn < w.credit c.lsn) :
    w'.rank c.wake < w.rank c := by
  obtain ⟨lsn, pc⟩ := c
  cases hpc
  dsimp only [rank, Call.wake, lag] at hcredit ⊢
  split
  · omega
  · rename_i huncovered
    have hlt := hcredit (Nat.lt_of_not_le fun hle => huncovered (.inr hle))
    omega

/-- Until then the leader's `Sync` is what brings it nearer. -/
theorem Moves.lag_eq (hmove : w.Moves j c pc w') (h : w.Inv) (hc : w.calls[j]? = some c)
    (hsyncing : w.syncing = true) (hpublish : ∀ err, c.pc ≠ .synced err) :
    w'.lag + c.pc.leads.toNat = w.lag := by
  cases hmove with
  | direct hpc hmode hsync =>
    obtain ⟨heq, -⟩ := exec_syncLocked hsync h.sound
    rename_i err _
    have hcount := countP_setPc WaitPc.isLeading (.returned err) hc
    rw [hpc] at hcount ⊢
    rw [heq]
    exact congrArg (1 + ·) hcount
  | covered hpc =>
    have hcount := countP_setPc WaitPc.isLeading (.returned none) hc
    rw [hpc] at hcount ⊢
    exact congrArg (1 + ·) hcount
  | blocks hpc =>
    have hcount := countP_setPc WaitPc.isLeading .waiting hc
    rw [hpc] at hcount ⊢
    exact congrArg (1 + ·) hcount
  | leads hpc hmode hlt hfree =>
    rw [hsyncing] at hfree
    cases hfree
  | syncs hpc hsync =>
    obtain ⟨heq, -⟩ := exec_syncLocked hsync h.sound
    rename_i err _
    have hcount := countP_setPc WaitPc.isLeading (.synced err) hc
    rw [hpc] at hcount ⊢
    rw [heq]
    exact (Nat.add_assoc ..).trans (congrArg (1 + ·) hcount)
  | returns hpc | fails hpc | leadsAgain hpc => exact absurd hpc (hpublish _)

theorem rank_le (hpc : c.pc ≠ .waiting) (hmode : w'.syncMode = w.syncMode)
    (hflushed : w.flushedLSN ≤ w'.flushedLSN) (hcredit : w'.credit c.lsn ≤ w.credit c.lsn) :
    w'.rank c ≤ w.rank c := by
  obtain ⟨lsn, pc⟩ := c
  cases pc with
  | waiting => exact absurd rfl hpc
  | leading | synced | returned => exact Nat.le_refl _
  | start =>
    dsimp only [rank] at hcredit ⊢
    rw [hmode]
    split
    · split <;> omega
    · rename_i huncovered
      rw [if_neg fun hcovered => huncovered (hcovered.imp id fun hle => hle.trans hflushed)]
      omega

/-- A step of another call. -/
theorem Moves.rank_other (hmove : w.Moves j c' pc w') (h : w.Inv) (hc' : w.calls[j]? = some c')
    (hne : j ≠ i) (hc : w.calls[i]? = some c) (hhonest : w.Honest c) :
    ∃ c₁, w'.calls[i]? = some c₁ ∧ c₁.lsn = c.lsn ∧ w'.Honest c₁ ∧
      (w'.rank c₁ < w.rank c ∨
        w'.rank c₁ = w.rank c ∧ w'.helper i c₁ = w.helper i c ∧ j ≠ w.helper i c) := by
  have hhonest' := hhonest.mono (hmove.advances h)
  have hcredit := hmove.credit_le h hc' hhonest.appended
  by_cases hwaiting : c.pc = .waiting
  · rcases hmove.other h hne hc with ⟨hsame, -, hpublish⟩ | ⟨hwoken, hflushed, err, hpc⟩
    · refine ⟨c, hsame, rfl, hhonest', ?_⟩
      have hlag := hmove.lag_eq h hc' (h.waiting c (List.mem_of_getElem? hc) hwaiting) hpublish
      have hrank : ∀ w : WAL, w.rank c = 3 + w.lag + 3 * w.credit c.lsn := by
        intro w
        rw [rank, hwaiting]
      obtain ⟨l, hl, hleads⟩ := h.exists_leader hc hwaiting
      rw [hrank, hrank, helper, helper, if_pos hwaiting, if_pos hwaiting]
      by_cases hj : j = w.leader
      · subst hj
        cases hl.symm.trans hc'
        rw [hleads, Bool.toNat_true] at hlag
        exact .inl (by omega)
      · have hl' : w'.calls[w.leader]? = some l := by
          rcases hmove.other h hj hl with ⟨hl', -⟩ | ⟨-, -, err, hpc⟩
          · exact hl'
          · exact absurd hpc (hpublish err)
        rw [(h.moves hc' hmove).leader_eq hl' hleads]
        have hle : 3 + w'.lag + 3 * w'.credit c.lsn ≤ 3 + w.lag + 3 * w.credit c.lsn := by omega
        exact hle.lt_or_eq.imp id fun heq => ⟨heq, rfl, hj⟩
    · refine ⟨c.wake, hwoken, lsn_wake, hhonest'.wake, .inl (rank_wake_lt hwaiting fun hlt => ?_)⟩
      exact hmove.credit_lt hc' hpc (hflushed ▸ hlt)
  · have hle : w'.rank c ≤ w.rank c := by
      refine rank_le hwaiting (hmove.syncMode_eq h) ?_ hcredit
      rcases hmove.other h hne hc with ⟨-, hflushed, -⟩ | ⟨-, hflushed, -⟩
      · exact hflushed.ge
      · exact hflushed.ge.trans' h.flushed_le
    have hsame : w'.calls[i]? = some c := by
      rcases hmove.other h hne hc with ⟨hsame, -⟩ | ⟨hwoken, -⟩
      · exact hsame
      · rw [hwoken, wake_of_ne_waiting hwaiting]
    refine ⟨c, hsame, rfl, hhonest', ?_⟩
    rw [helper, helper, if_neg hwaiting, if_neg hwaiting]
    exact hle.lt_or_eq.imp id fun heq => ⟨heq, rfl, hne⟩

/-- What happens to the storage does not hold a call up. -/
theorem rank_store_le (hadv : w.store.Advances store') :
    { w with store := store' }.rank c ≤ w.rank c := by
  have hcredit : { w with store := store' }.credit c.lsn ≤ w.credit c.lsn := credit_store_le hadv
  by_cases hwaiting : c.pc = .waiting
  · rw [rank, rank, hwaiting]
    exact Nat.add_le_add_left (Nat.mul_le_mul_left 3 hcredit) _
  · exact rank_le hwaiting rfl (Nat.le_refl _) hcredit

/-- A call that is neither waiting nor has returned can go on. -/
theorem exists_stepCall (hc : w.calls[i]? = some c) (hactive : c.pc.active = true)
    (hpc : c.pc ≠ .waiting) (io : Faults) : ∃ w', w.stepCall io i = some w' := by
  obtain ⟨lsn, pc⟩ := c
  rw [stepCall, hc]
  cases pc with
  | start => cases w.syncMode <;> exact ⟨_, rfl⟩
  | waiting => exact absurd rfl hpc
  | leading => exact ⟨_, rfl⟩
  | synced err =>
    dsimp only [Option.bind_eq_bind, Option.bind_some]
    split <;> exact ⟨_, rfl⟩
  | returned err => cases hactive

theorem Inv.exists_stepCall_helper (h : w.Inv) (hc : w.calls[i]? = some c)
    (hactive : c.pc.active = true) (io : Faults) :
    ∃ w', w.stepCall io (w.helper i c) = some w' := by
  rw [helper]
  split
  · rename_i hwaiting
    obtain ⟨l, hl, hleads⟩ := h.exists_leader hc hwaiting
    obtain ⟨lsn, pc⟩ := l
    refine exists_stepCall hl ?_ ?_ io
    · cases pc <;> first | rfl | cases hleads
    · rintro rfl
      cases hleads
  · rename_i hpc
    exact exists_stepCall hc hactive hpc io

end WAL
end ChudDB.Wal
