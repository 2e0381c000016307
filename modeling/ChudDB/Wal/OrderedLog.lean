import ChudDB.Wal.LogSteps

/-! # The order of the log

`OrderedLog s removed closed active n log` adds the LSNs to the layout of the segment files: `log`
is every record ever appended, the LSNs of the log increase, the storage hands out larger ones, and
closed segments are durable. Appending, syncing, rotating and purging keep it. -/

namespace ChudDB.Wal
open Lib

/-- One more record fits the format: its length field, its LSN and the number of a further
segment do not overflow. -/
def AppendFileStorage.Fits (s : AppendFileStorage) (key value : Bytes) : Prop :=
  recordHeaderSize + key.length + value.length < 2 ^ 32 ∧ s.nextLSN + 1 < 2 ^ 64 ∧
    s.segmentID + 1 < 10 ^ 9

instance : Decidable (AppendFileStorage.Fits s key value) := inferInstanceAs (Decidable (_ ∧ _))

structure OrderedLog (s : AppendFileStorage) (removed closed : List Segment) (active : Segment)
    (n : Nat) (log : List Record) : Prop extends Layout s removed closed active n where
  log_eq : log = (removed ++ (closed ++ [active])).flatMap (·.recs)
  increasing : log.Pairwise (·.lsn < ·.lsn)
  appended : ∀ r ∈ log, r.lsn ≤ s.appendedLSN
  appended_lt : s.appendedLSN < s.nextLSN
  bounded : s.nextLSN < 2 ^ 64
  durable : ∀ g ∈ removed ++ closed, ∀ r ∈ g.recs, r.lsn ≤ s.durableLSN
  durable_le : s.durableLSN ≤ s.appendedLSN
  tail : active.tail = []

/-- The last segment may have received records and further segments may follow it. -/
def Grows (segs segs' : List Segment) : Prop :=
  ∃ init g rs more, segs = init ++ [g] ∧
    segs' = init ++ { g with recs := g.recs ++ rs } :: more

theorem Grows.rfl : Grows (closed ++ [active]) (closed ++ [active]) :=
  ⟨closed, active, [], [], by simp⟩

namespace OrderedLog

variable {s : AppendFileStorage} {removed closed : List Segment} {active : Segment} {n : Nat}
  {log : List Record}

theorem new : OrderedLog (.newAppendStorageInDir [] segmentSize bufferSize) [] [] (.empty 1) 0 [] where
  toLayout := Layout.new
  log_eq := rfl
  increasing := .nil
  appended := by simp
  appended_lt := Nat.one_pos
  bounded := newAppendStorageInDir_nextLSN
  durable := by simp
  durable_le := Nat.le_refl _
  tail := rfl

theorem mem_log (h : OrderedLog s removed closed active n log)
    (hg : g ∈ removed ++ (closed ++ [active])) (hr : r ∈ g.recs) : r ∈ log := by
  rw [h.log_eq]
  exact List.mem_flatMap.mpr ⟨g, hg, hr⟩

theorem sync (h : OrderedLog s removed closed active n log) :
    OrderedLog (s.synced (removed.length + closed.length)) removed closed active
      active.content.length log where
  toLayout := h.synced_layout
  log_eq := h.log_eq
  increasing := h.increasing
  appended := h.appended
  appended_lt := h.appended_lt
  bounded := h.bounded
  durable := fun g hg r hr => h.appended r (h.mem_log (by simp at hg ⊢; tauto) hr)
  durable_le := Nat.le_refl _
  tail := h.tail

theorem rotate (h : OrderedLog s removed closed active n log) (hid : active.id + 1 < 10 ^ 9) :
    ∃ closed' active' n',
      OrderedLog (s.rotated (removed.length + closed.length)) removed closed' active' n' log ∧
        Grows (closed ++ [active]) (closed' ++ [active']) ∧
        s.durableLSN ≤ (s.rotated (removed.length + closed.length)).durableLSN := by
  rcases h.toLayout.rotated hid with heq | ⟨hrot, hdur⟩
  · rw [heq]
    exact ⟨closed, active, n, h, .rfl, Nat.le_refl _⟩
  · refine ⟨closed ++ [active], .empty (active.id + 1), 0, ⟨hrot, ?_, ?_, ?_, ?_, ?_, ?_, ?_, ?_⟩,
      ?_, ?_⟩
    · rw [h.log_eq]
      simp [Segment.empty]
    · exact h.increasing
    · simpa using h.appended
    · simpa using h.appended_lt
    · simpa using h.bounded
    · intro g hg r hr
      rw [hdur]
      exact h.appended r (h.mem_log hg hr)
    · rw [hdur]
      simp
    · rfl
    · exact ⟨closed, active, [], [.empty (active.id + 1)], by simp⟩
    · rw [hdur]
      exact h.durable_le

/-- The state between the write of a record and the rotation check. -/
theorem push (h : OrderedLog s removed closed active n log) (hfits : s.Fits key value)
    (hop : op = opPut ∨ op = opDelete) :
    OrderedLog ((s.buffered (Record.bytes checksumIEEE ⟨s.nextLSN, op, key, value⟩)).flushed
        (removed.length + closed.length)) removed closed
      (active.push ⟨s.nextLSN, op, key, value⟩) n (log ++ [⟨s.nextLSN, op, key, value⟩]) where
  toLayout := h.flushed_buffered h.tail ⟨hop, h.bounded, hfits.1⟩
  log_eq := by
    rw [h.log_eq]
    simp [Segment.push]
  increasing := by
    rw [List.pairwise_append]
    refine ⟨h.increasing, by simp, ?_⟩
    intro r hr r' hr'
    cases List.mem_singleton.mp hr'
    exact Nat.lt_of_le_of_lt (h.appended r hr) h.appended_lt
  appended := by
    intro r hr
    rcases List.mem_append.mp hr with hr | hr
    · exact Nat.le_of_lt (Nat.lt_of_le_of_lt (h.appended r hr) h.appended_lt)
    · cases List.mem_singleton.mp hr
      exact Nat.le_refl _
  appended_lt := by
    have := hfits.2.1
    simp only [AppendFileStorage.flushed, AppendFileStorage.buffered]
    rw [Nat.mod_eq_of_lt this]
    exact Nat.lt_succ_self _
  bounded := Nat.mod_lt _ (by decide)
  durable := h.durable
  durable_le := h.durable_le.trans (Nat.le_of_lt h.appended_lt)
  tail := h.tail

/-- `Append` of a record that encodes and fits. -/
theorem append (h : OrderedLog s removed closed active n log) (hfits : s.Fits key value)
    (henc : encodeRecord checksumIEEE op key value s.nextLSN = .ok encoded) :
    ∃ s' closed' active' n',
      (AppendFileStorage.append noFaults op key value).run s = .ok s.nextLSN s' ∧
        OrderedLog s' removed closed' active' n' (log ++ [⟨s.nextLSN, op, key, value⟩]) ∧
        Grows (closed ++ [active]) (closed' ++ [active']) ∧ s.durableLSN ≤ s'.durableLSN ∧
        s'.appendedLSN = s.nextLSN ∧ s'.nextLSN = s.nextLSN + 1 := by
  obtain ⟨rfl, hop⟩ := encodeRecord_eq_ok henc
  have hid := hfits.2.2
  rw [h.segmentID] at hid
  obtain ⟨closed', active', n', hrot, hgrows, hdur⟩ := (h.push hfits hop).rotate hid
  refine ⟨_, closed', active', n', AppendFileStorage.append_run h.file henc, ?_, ?_, ?_, ?_, ?_⟩
  · rw [← AppendFileStorage.rotated_flushed]
    exact hrot
  · obtain ⟨init, g, rs, more, heq, heq'⟩ := hgrows
    obtain ⟨rfl, hg⟩ := List.append_inj' heq rfl
    cases hg
    refine ⟨closed, active, ⟨s.nextLSN, op, key, value⟩ :: rs, more, rfl, ?_⟩
    simpa [Segment.push] using heq'
  · rw [← AppendFileStorage.rotated_flushed]
    exact hdur
  · exact AppendFileStorage.rotated_appendedLSN
  · rw [AppendFileStorage.rotated_nextLSN]
    exact Nat.mod_eq_of_lt hfits.2.1

theorem purgeUpTo (h : OrderedLog s removed closed active n log) :
    OrderedLog (s.purgeUpTo checkpoint)
      (removed ++ closed.takeWhile fun g => decide (g.maxLSN ≤ checkpoint))
      (closed.dropWhile fun g => decide (g.maxLSN ≤ checkpoint)) active n log where
  toLayout := h.toLayout.purgeUpTo
  log_eq := by
    rw [h.log_eq, List.append_assoc, ← List.append_assoc (closed.takeWhile _),
      List.takeWhile_append_dropWhile]
  increasing := h.increasing
  appended := h.appended
  appended_lt := h.appended_lt
  bounded := h.bounded
  durable := by
    rw [List.append_assoc, List.takeWhile_append_dropWhile]
    exact h.durable
  durable_le := h.durable_le
  tail := h.tail

/-- In the log of one segment the last record has the largest LSN. -/
theorem le_maxLSN (h : OrderedLog s removed closed active n log)
    (hg : g ∈ removed ++ (closed ++ [active])) (hr : r ∈ g.recs) : r.lsn ≤ g.maxLSN := by
  have hsub : g.recs.Pairwise (·.lsn < ·.lsn) := by
    refine h.increasing.sublist ?_
    rw [h.log_eq]
    exact List.sublist_flatten_of_mem (List.mem_map_of_mem hg)
  exact le_getLast_of_increasing hsub hr

/-- `maxLSNInSegment` does not see a record whose length field has wrapped, so a purge up to the
records before it removes the segment. -/
theorem purgeUpTo_wrapped (h : OrderedLog s removed closed active n log)
    (henc : encodeRecord checksumIEEE op key value s.nextLSN = .ok encoded)
    (hwrap : (recordHeaderSize + key.length + value.length) % 2 ^ 32 < 8)
    (hsize : s.segmentSize ≤ (recordHeaderSize + key.length + value.length : Nat))
    (hid : s.segmentID + 1 < 10 ^ 9) (hlog : ∀ r ∈ log, r.lsn ≤ checkpoint) :
    ∃ s', (AppendFileStorage.append noFaults op key value).run s = .ok s.nextLSN s' ∧
      (s'.purgeUpTo checkpoint).disk.records = [] := by
  refine ⟨_, AppendFileStorage.append_run h.file henc, ?_⟩
  obtain ⟨rfl, -⟩ := encodeRecord_eq_ok henc
  have hend : nextRecord checksumIEEE (Record.bytes checksumIEEE ⟨s.nextLSN, op, key, value⟩) =
      none := by
    rw [← List.append_nil (Record.bytes checksumIEEE _)]
    exact nextRecord_of_wrapped hwrap
  have hflush := h.toLayout.flushed_unread h.tail hend
  rw [h.segmentID] at hid
  have hrot := hflush.rotated_of_full hid (by
    simp only [Segment.content, List.length_append, Record.length_bytes]
    exact hsize.trans (Int.ofNat_le.mpr (Nat.le_add_left _ _)))
  rw [AppendFileStorage.rotated_flushed] at hrot
  have hpurge : Layout (AppendFileStorage.purgeUpTo checkpoint _) _ _ _ 0 := hrot.purgeUpTo
  rw [hpurge.toDiskLayout.records, List.dropWhile_eq_nil_iff.mpr]
  · rfl
  · intro g hg
    have hrecs : ∀ r ∈ g.recs, r ∈ log := by
      intro r hr
      rcases List.mem_append.mp hg with hg | hg
      · exact h.mem_log (by simp [hg]) hr
      · cases List.mem_singleton.mp hg
        exact h.mem_log (g := active) (by simp) hr
    rw [decide_eq_true_eq, Segment.maxLSN]
    cases hlast : g.recs.getLast? with
    | none => exact Nat.zero_le _
    | some r => exact hlog r (hrecs r (List.mem_of_getLast? hlast))

end OrderedLog
end ChudDB.Wal
