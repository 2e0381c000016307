import ChudDB.Wal.OrderedLog
import ChudDB.Engine.Interleaving

/-! # The log of a running engine

The log holds one record for each write, in the order of the LSNs, from the first segment that was
not purged on. This holds as long as the records fit the format. -/

namespace ChudDB
open Lib Wal

variable {M : Type} {cfg : Config}

/-- The record of a write: a delete for the tombstone, a put otherwise. -/
def Write.record (cfg : Config) (w : Write) : Record :=
  if w.value = cfg.tombstone then ⟨w.lsn, opDelete, w.key, []⟩ else ⟨w.lsn, opPut, w.key, w.value⟩

@[simp] theorem Write.record_lsn {w : Write} : (w.record cfg).lsn = w.lsn := by
  unfold record
  split <;> rfl

theorem Wal.OrderedLog.log_eq_records (h : OrderedLog s removed closed active n log) :
    log = removed.flatMap (·.recs) ++ s.disk.records := by
  rw [h.log_eq, List.flatMap_append, h.toLayout.toDiskLayout.records]

/-- The WAL append of a write that fits succeeds and logs its record. -/
theorem Engine.appendToWal_run (cfg : Config) {wal : AppendFileStorage}
    (h : OrderedLog wal removed closed active n log) (hfits : wal.Fits key value) :
    ∃ wal' closed' active' n',
      (appendToWal cfg key value).run wal = .ok wal.nextLSN wal' ∧
        OrderedLog wal' removed closed' active' n'
          (log ++ [Write.record cfg ⟨wal.nextLSN, key, value⟩]) ∧
        wal'.appendedLSN = wal.nextLSN := by
  by_cases hv : value = cfg.tombstone
  · have hfits' : wal.Fits key [] := ⟨Nat.lt_of_le_of_lt (by simp) hfits.1, hfits.2⟩
    obtain ⟨wal', closed', active', n', hrun, hlog, -, -, happ, -⟩ :=
      h.append hfits' encodeRecord_delete
    refine ⟨wal', closed', active', n', ?_, ?_, happ⟩
    · rw [appendToWal, if_pos hv]
      exact hrun
    · rw [Write.record, if_pos hv]
      exact hlog
  · obtain ⟨wal', closed', active', n', hrun, hlog, -, -, happ, -⟩ :=
      h.append hfits encodeRecord_put
    refine ⟨wal', closed', active', n', ?_, ?_, happ⟩
    · rw [appendToWal, if_neg hv]
      exact hrun
    · rw [Write.record, if_neg hv]
      exact hlog

namespace Shared

variable {s : Shared M}

/-- The records of the log, those that were purged included, are the records of the writes. -/
def Logged (cfg : Config) (s : Shared M) : Prop :=
  ∃ removed closed active n,
    OrderedLog s.wal removed closed active n (s.hist.map (·.record cfg))

namespace Logged

theorem suffix (h : s.Logged cfg) : s.wal.disk.records <:+ s.hist.map (·.record cfg) := by
  obtain ⟨removed, closed, active, n, hlog⟩ := h
  exact ⟨_, hlog.log_eq_records.symm⟩

theorem increasing (h : s.Logged cfg) : s.hist.Pairwise (·.lsn < ·.lsn) := by
  obtain ⟨removed, closed, active, n, hlog⟩ := h
  simpa [List.pairwise_map] using hlog.increasing

theorem le_appendedLSN (h : s.Logged cfg) (hw : w ∈ s.hist) : w.lsn ≤ s.wal.appendedLSN := by
  obtain ⟨removed, closed, active, n, hlog⟩ := h
  simpa using hlog.appended _ (List.mem_map_of_mem hw)

theorem appendedLSN_lt (h : s.Logged cfg) : s.wal.appendedLSN < s.wal.nextLSN := by
  obtain ⟨removed, closed, active, n, hlog⟩ := h
  exact hlog.appended_lt

/-- The WAL append of a write. -/
theorem append [Memtable M] (h : s.Logged cfg) (hfits : s.wal.Fits key value) :
    ∃ wal, s.append cfg key value =
        ({ s with wal := wal, hist := s.hist ++ [⟨s.wal.nextLSN, key, value⟩] },
          some ⟨s.wal.nextLSN, key, value⟩) ∧
      Logged cfg { s with wal := wal, hist := s.hist ++ [⟨s.wal.nextLSN, key, value⟩] } ∧
      wal.disk.records = s.wal.disk.records ++ [Write.record cfg ⟨s.wal.nextLSN, key, value⟩] ∧
      wal.appendedLSN = s.wal.nextLSN := by
  obtain ⟨removed, closed, active, n, hlog⟩ := h
  obtain ⟨wal, closed', active', n', hrun, hlog', happ⟩ :=
    Engine.appendToWal_run cfg hlog hfits
  refine ⟨wal, by rw [Shared.append, hrun], ⟨removed, closed', active', n', ?_⟩, ?_, happ⟩
  · simpa using hlog'
  · have := hlog'.log_eq_records
    rw [hlog.log_eq_records, List.append_assoc] at this
    exact (List.append_cancel_left this).symm

/-- The rotation check keeps the records. -/
theorem rotate [Memtable M] (h : s.Logged cfg) (hid : s.wal.segmentID + 1 < 10 ^ 9) :
    ∃ wal, s.rotate = { s with wal := wal } ∧ Logged cfg { s with wal := wal } ∧
      wal.disk.records = s.wal.disk.records ∧ wal.appendedLSN = s.wal.appendedLSN := by
  obtain ⟨removed, closed, active, n, hlog⟩ := h
  rw [hlog.segmentID] at hid
  obtain ⟨closed', active', n', hlog', -, -⟩ := hlog.rotate hid
  refine ⟨s.wal.rotated (removed.length + closed.length), ?_,
    ⟨removed, closed', active', n', hlog'⟩, ?_, AppendFileStorage.rotated_appendedLSN⟩
  · rw [Shared.rotate, AppendFileStorage.rotateIfNeededLocked_run hlog.file]
  · have := hlog'.log_eq_records
    rw [hlog.log_eq_records] at this
    exact (List.append_cancel_left this).symm

/-- A purge removes only records up to the checkpoint. -/
theorem purgeUpTo (h : s.Logged cfg) (checkpoint : Nat) :
    Logged cfg { s with wal := s.wal.purgeUpTo checkpoint } ∧
      ∀ r ∈ s.wal.disk.records,
        r ∈ (s.wal.purgeUpTo checkpoint).disk.records ∨ r.lsn ≤ checkpoint := by
  obtain ⟨removed, closed, active, n, hlog⟩ := h
  have hlog' : OrderedLog (s.wal.purgeUpTo checkpoint) _ _ active n _ := hlog.purgeUpTo
  refine ⟨⟨_, _, active, n, hlog'⟩, ?_⟩
  intro r hr
  rw [hlog.toLayout.toDiskLayout.records] at hr
  rw [hlog'.toLayout.toDiskLayout.records]
  obtain ⟨g, hg, hr⟩ := List.mem_flatMap.mp hr
  rcases List.mem_append.mp hg with hg | hg
  · rw [← List.takeWhile_append_dropWhile (p := fun g : Segment => decide (g.maxLSN ≤ checkpoint))
      (l := closed), List.mem_append] at hg
    rcases hg with hg' | hg'
    · have hmax : g.maxLSN ≤ checkpoint := by simpa using List.mem_takeWhile_imp hg'
      refine .inr (le_trans (hlog.le_maxLSN ?_ hr) hmax)
      have hmem : g ∈ closed := List.takeWhile_sublist _ |>.subset hg'
      simp [hmem]
    · exact .inl (List.mem_flatMap.mpr ⟨g, List.mem_append_left _ hg', hr⟩)
  · exact .inl (List.mem_flatMap.mpr ⟨g, List.mem_append_right _ hg, hr⟩)

end Logged
end Shared

namespace Running

/-- What a step adds to the log fits the format. -/
def LogFits (s : Running M) : Action → Prop
  | .append key value => s.wal.Fits key value
  | .rotate => s.wal.segmentID + 1 < 10 ^ 9
  | _ => True

instance (s : Running M) : DecidablePred s.LogFits
  | .append .. => inferInstanceAs (Decidable (s.wal.Fits _ _))
  | .rotate => inferInstanceAs (Decidable (_ < _))
  | .writer | .takeSnapshot | .snapshotter | .flusher _ => isTrue trivial

theorem logged_init [Memtable M] : Shared.Logged cfg
    (init cfg (.newAppendStorageInDir [] segmentSize bufferSize) : Running M).toShared :=
  ⟨_, _, _, _, OrderedLog.new⟩

end Running
end ChudDB
