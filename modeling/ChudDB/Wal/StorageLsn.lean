import ChudDB.Lib.Outcome
import ChudDB.Wal.RecordLemmas
import ChudDB.Wal.Storage

/-! # The LSNs of a storage, whatever fails

What the operations of the storage do to its LSNs when any call of the operating system may fail. A
storage that has lost its active file in a rotation buffers what is appended and can no longer write
it, so a `Sync` that succeeds has made every record durable that was appended. -/

namespace ChudDB.Wal.AppendFileStorage
open Lib

variable {s s' s'' : AppendFileStorage} {io : Faults} {d : Disk} {f : Option Nat} {segment : Nat}

/-- The LSNs of a storage are in order. -/
structure Sound (s : AppendFileStorage) : Prop where
  durable_le : s.durableLSN ≤ s.appendedLSN
  appended_lt : s.appendedLSN < s.nextLSN
  /-- Without a file, what is not durable is still in the buffer. -/
  closed : s.file = none → s.writeBuffer = [] → s.durableLSN = s.appendedLSN

/-- The LSNs stay in order and do not go back. -/
structure Advances (s s' : AppendFileStorage) : Prop where
  sound : s'.Sound
  durable : s.durableLSN ≤ s'.durableLSN
  appended : s.appendedLSN ≤ s'.appendedLSN

theorem Advances.trans (h : Advances s s') (h' : Advances s' s'') : Advances s s'' :=
  ⟨h'.sound, h.durable.trans h'.durable, h.appended.trans h'.appended⟩

theorem Sound.advances (h : s.Sound) : Advances s s := ⟨h, Nat.le_refl _, Nat.le_refl _⟩

/-- The disk has changed, and as much of the buffer as the closed file allows. -/
theorem Sound.advances_disk (h : s.Sound) (hbuffer : s.file = none → buffer = s.writeBuffer) :
    Advances s { s with disk := d, writeBuffer := buffer } where
  sound := ⟨h.durable_le, h.appended_lt, fun hfile hempty => h.closed hfile (hbuffer hfile ▸ hempty)⟩
  durable := Nat.le_refl _
  appended := Nat.le_refl _

theorem Sound.advances_sync (h : s.Sound) :
    Advances s { s with disk := d, durableLSN := s.appendedLSN } where
  sound := ⟨Nat.le_refl _, h.appended_lt, fun _ _ => rfl⟩
  durable := h.durable_le
  appended := Nat.le_refl _

/-- The active file goes once everything is durable. -/
theorem Sound.advances_file (h : s.Sound) (hdurable : s.durableLSN = s.appendedLSN) :
    Advances s { s with file := f } :=
  ⟨⟨h.durable_le, h.appended_lt, fun _ _ => hdurable⟩, Nat.le_refl _, Nat.le_refl _⟩

theorem Sound.advances_openSegment (h : s.Sound) : Advances s (s.openSegment segment) :=
  ⟨⟨h.durable_le, h.appended_lt, nofun⟩, Nat.le_refl _, Nat.le_refl _⟩

/-- A record has been put into the buffer. -/
theorem Sound.advances_push (h : s.Sound) (hlsn : s.nextLSN < n) (hne : encoded ≠ []) :
    Advances s { s with
      nextLSN := n
      writeBuffer := s.writeBuffer ++ encoded
      appendedLSN := s.nextLSN } where
  sound.durable_le := h.durable_le.trans h.appended_lt.le
  sound.appended_lt := hlsn
  sound.closed _ hempty := absurd (List.append_eq_nil_iff.mp hempty).2 hne
  durable := Nat.le_refl _
  appended := h.appended_lt.le

/-- A directory whose last LSN is not the largest one. -/
theorem sound_newAppendStorageInDir {size bufferSize : Int}
    (h : (newAppendStorageInDir d size bufferSize).appendedLSN + 1 < 2 ^ 64) :
    (newAppendStorageInDir d size bufferSize).Sound := by
  have hopened : ∀ {s : AppendFileStorage} (id : Nat), s.durableLSN = s.appendedLSN →
      s.appendedLSN < s.nextLSN → (s.openSegment id).Sound :=
    fun _ hdurable hlt => ⟨hdurable.le, hlt, nofun⟩
  unfold newAppendStorageInDir at h ⊢
  split at h
  · exact hopened 1 rfl Nat.one_pos
  dsimp only at h ⊢
  have hlt : ∀ n, n + 1 < 2 ^ 64 → n < if n > 0 then (n + 1) % 2 ^ 64 else 1 := by
    intro n hn
    split
    · rw [Nat.mod_eq_of_lt hn]
      exact Nat.lt_succ_self n
    · omega
  split
  · rename_i hfull
    rw [if_pos hfull] at h
    exact hopened _ rfl (hlt _ h)
  · rename_i hroom
    rw [if_neg hroom] at h
    exact hopened _ rfl (hlt _ h)

theorem outcome_flushLocked (h : s.Sound) : Outcome (flushLocked io) s
    (fun _ s' => Advances s s' ∧ s'.file = s.file ∧ s'.appendedLSN = s.appendedLSN ∧
      s'.writeBuffer = [])
    (Advances s) := by
  unfold flushLocked
  apply Outcome.get_bind
  split
  · rename_i hempty
    exact ⟨h.advances, rfl, rfl, List.eq_nil_of_length_eq_zero hempty⟩
  split
  · exact h.advances
  · exact h.advances_disk fun _ => rfl
  · rename_i fd hfile _
    exact ⟨h.advances_disk fun hnone => by simp [hnone] at hfile, rfl, rfl, rfl⟩

theorem outcome_syncLocked (h : s.Sound) : Outcome (syncLocked io) s
    (fun _ s' => Advances s s' ∧ s'.durableLSN = s'.appendedLSN ∧ s'.appendedLSN = s.appendedLSN)
    (Advances s) := by
  unfold syncLocked
  refine (outcome_flushLocked h).bind fun _ s₁ ⟨hadv, hfile, happended, hempty⟩ => ?_
  apply Outcome.get_bind
  split
  · rename_i hnone
    exact ⟨hadv, hadv.sound.closed hnone hempty, happended⟩
  · split
    · exact hadv
    · exact ⟨hadv.trans hadv.sound.advances_sync, rfl, happended⟩

theorem outcome_rotateIfNeededLocked (h : s.Sound) : Outcome (rotateIfNeededLocked io) s
    (fun _ s' => Advances s s' ∧ s'.appendedLSN = s.appendedLSN) (Advances s) := by
  unfold rotateIfNeededLocked
  apply Outcome.get_bind
  split
  · exact ⟨h.advances, rfl⟩
  rename_i handle _
  refine (outcome_flushLocked h).bind fun _ s₁ ⟨hadv, _, happended, _⟩ => ?_
  refine Outcome.throw_if (fun _ => hadv) fun _ => Outcome.get_bind ?_
  split
  · exact ⟨hadv, happended⟩
  refine Outcome.throw_if (fun _ => hadv) fun _ => Outcome.set_bind ?_
  -- The old segment is durable, so nothing is lost when the next one cannot be opened.
  have hsync := hadv.trans (hadv.sound.advances_sync (d := s₁.disk.fsync handle))
  refine Outcome.throw_if (fun _ => hsync) fun _ => Outcome.modify_bind ?_
  have hclosed := hsync.trans (hsync.sound.advances_file (f := none) rfl)
  refine Outcome.throw_if (fun _ => hclosed) fun _ => Outcome.throw_if (fun _ => hclosed) fun _ => ?_
  exact ⟨hclosed.trans hclosed.sound.advances_openSegment, happended⟩

/-- An append that succeeds has appended under the LSN that it returns. -/
theorem outcome_append (h : s.Sound) (hlsn : s.nextLSN + 1 < 2 ^ 64) :
    Outcome (append io op key value) s
      (fun lsn s' => Advances s s' ∧ lsn = s.nextLSN ∧ lsn = s'.appendedLSN) (Advances s) := by
  unfold append
  refine Outcome.get_bind (Outcome.modify_bind ?_)
  rw [Nat.mod_eq_of_lt hlsn]
  split
  · exact ⟨⟨h.durable_le, h.appended_lt.trans (Nat.lt_succ_self _), h.closed⟩, Nat.le_refl _,
      Nat.le_refl _⟩
  rename_i encoded hencoded
  have hne : encoded ≠ [] := (encodeRecord_eq_ok hencoded).1 ▸ Record.bytes_ne_nil
  have hpush := h.advances_push (Nat.lt_succ_self _) hne
  have hrest : ∀ s', Advances s s' → s'.appendedLSN = s.nextLSN →
      Outcome (rotateIfNeededLocked io >>= fun _ => pure s.nextLSN) s'
        (fun lsn s' => Advances s s' ∧ lsn = s.nextLSN ∧ lsn = s'.appendedLSN) (Advances s) := by
    intro s' hadv happended
    refine ((outcome_rotateIfNeededLocked hadv.sound).mono (fun _ s'' h => h)
      fun s'' h => hadv.trans h).bind fun _ s'' ⟨hadv', happended'⟩ => ?_
    exact ⟨hadv.trans hadv', rfl, (happended'.trans happended).symm⟩
  refine Outcome.modify_bind (Outcome.get_bind ?_)
  split
  · refine ((outcome_flushLocked hpush.sound).mono (fun _ s'' h => h)
      fun s'' h => hpush.trans h).bind fun _ s'' ⟨hadv', _, happended', _⟩ => ?_
    exact hrest s'' (hpush.trans hadv') happended'
  · exact hrest _ hpush rfl

theorem outcome_closeLocked (h : s.Sound) :
    Outcome (closeLocked io) s (fun _ => Advances s) (Advances s) := by
  unfold closeLocked
  refine (outcome_syncLocked h).bind fun _ s₁ ⟨hadv, hdurable, happended⟩ => Outcome.get_bind ?_
  split
  · exact hadv
  have hclosed := hadv.trans (hadv.sound.advances_file (f := none) hdurable)
  refine Outcome.set_bind ?_
  split
  · exact hclosed
  · exact hclosed

theorem Sound.advances_purgeUpTo (h : s.Sound) : Advances s (s.purgeUpTo checkpointLSN) :=
  h.advances_disk fun _ => rfl

end ChudDB.Wal.AppendFileStorage
