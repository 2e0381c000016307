import ChudDB.Wal.Log

/-! # The log under the storage operations

One lemma for each operation of the storage: which segments it holds afterwards. Appending needs an
active segment without a torn tail, and a record and a segment number that fit the format. -/

namespace ChudDB.Wal
open Lib

namespace Segment

/-- A new segment file. -/
def empty (id : Nat) : Segment := ⟨id, [], []⟩

def push (g : Segment) (r : Record) : Segment := { g with recs := g.recs ++ [r] }

theorem content_push {g : Segment} (h : g.tail = []) :
    (g.push r).content = g.content ++ r.bytes checksumIEEE := by
  simp [content, push, h]

theorem WF.push {g : Segment} (h : g.WF) (hr : r.WF) : (g.push r).WF where
  recs := by
    intro r' hr'
    rcases List.mem_append.mp hr' with hr' | hr'
    · exact h.recs r' hr'
    · cases List.mem_singleton.mp hr'
      exact hr
  tail := h.tail

theorem wf_empty {id : Nat} : (empty id).WF where
  recs := by simp [empty]
  tail := nextRecord_nil

end Segment

/-- The state after a storage has been opened on an empty directory. -/
theorem Layout.new : Layout (AppendFileStorage.newAppendStorageInDir [] segmentSize bufferSize) [] []
    (.empty 1) 0 where
  disk := rfl
  segmentID := rfl
  file := rfl
  writeBuffer := rfl
  sorted := by simp
  listed := by simp [Segment.empty]
  wf := by
    intro g hg
    cases List.mem_singleton.mp hg
    exact Segment.wf_empty
  synced := Nat.zero_le _

namespace AppendFileStorage

variable {s : AppendFileStorage}

@[simp] theorem rotated_nextLSN : (s.rotated fd).nextLSN = s.nextLSN := by
  unfold rotated
  split <;> rfl

@[simp] theorem rotated_appendedLSN : (s.rotated fd).appendedLSN = s.appendedLSN := by
  unfold rotated
  split <;> rfl

end AppendFileStorage

namespace Layout

variable {s : AppendFileStorage} {removed closed : List Segment} {active : Segment} {n : Nat}

/-- Writing out a buffer: the active segment is replaced by one with the bytes at its end. -/
theorem flushed_bytes {b : Bytes} {active' : Segment} (h : Layout s removed closed active n)
    (hid : active'.id = active.id) (hcontent : active'.content = active.content ++ b)
    (hwf : active'.WF) :
    Layout ((s.buffered b).flushed (removed.length + closed.length)) removed closed active' n where
  disk := by
    simp only [AppendFileStorage.flushed, AppendFileStorage.buffered, h.disk, h.writeBuffer,
      Disk.write, List.nil_append]
    rw [diskOf_modify_active]
    simp [diskOf, Segment.file, hid, hcontent]
  segmentID := h.segmentID.trans hid.symm
  file := h.file
  writeBuffer := rfl
  sorted := by simpa [hid] using h.sorted
  listed := hid ▸ h.listed
  wf := by
    intro g hg
    rw [← List.append_assoc] at hg
    rcases List.mem_append.mp hg with hg | hg
    · exact h.wf g (by rw [← List.append_assoc]; exact List.mem_append_left _ hg)
    · cases List.mem_singleton.mp hg
      exact hwf
  synced := by
    rw [hcontent, List.length_append]
    exact h.synced.trans (Nat.le_add_right _ _)

theorem flushed_buffered (h : Layout s removed closed active n) (htail : active.tail = [])
    (hr : r.WF) :
    Layout ((s.buffered (r.bytes checksumIEEE)).flushed (removed.length + closed.length))
      removed closed (active.push r) n :=
  h.flushed_bytes rfl (Segment.content_push htail) ((h.wf active (by simp)).push hr)

/-- Writing out bytes that do not read as a record. -/
theorem flushed_unread (h : Layout s removed closed active n) (htail : active.tail = [])
    (hb : nextRecord checksumIEEE b = none) :
    Layout ((s.buffered b).flushed (removed.length + closed.length)) removed closed
      { active with tail := b } n := by
  refine h.flushed_bytes rfl ?_ ⟨(h.wf active (by simp)).recs, hb⟩
  simp only [Segment.content, htail, List.append_nil]

theorem flushed_eq (h : Layout s removed closed active n) : s.flushed fd = s := by
  simp only [AppendFileStorage.flushed, h.writeBuffer, Disk.write_nil]
  rw [← h.writeBuffer]

/-- `Sync`. -/
theorem synced_layout (h : Layout s removed closed active n) :
    Layout (s.synced (removed.length + closed.length)) removed closed active
      active.content.length where
  disk := by
    simp only [AppendFileStorage.synced, h.flushed_eq, h.disk, Disk.fsync]
    rw [diskOf_modify_active]
    rfl
  segmentID := h.segmentID
  file := h.file
  writeBuffer := rfl
  sorted := h.sorted
  listed := h.listed
  wf := h.wf
  synced := Nat.le_refl _

/-- Creating the segment behind a fully synced active one. -/
theorem openNext (h : DiskLayout s.disk removed closed active active.content.length)
    (hid : active.id + 1 < 10 ^ 9) :
    Layout (s.openSegment s.disk.nextSegmentID) removed (closed ++ [active])
      (.empty (active.id + 1)) 0 := by
  have hnext : s.disk.nextSegmentID = active.id + 1 := by
    rw [h.disk]
    exact nextSegmentID_diskOf h.sorted h.listed
  have hopen : s.disk.openFile (active.id + 1) =
      (removed.length + (closed ++ [active]).length,
        diskOf removed (closed ++ [active]) (.empty (active.id + 1)) 0) := by
    have hnone : s.disk.lookup (active.id + 1) = none := by
      apply Disk.lookup_eq_none
      intro f hf
      have hmem := List.mem_map_of_mem (f := (·.id)) hf
      rw [h.disk, diskOf_ids] at hmem
      obtain ⟨g, hg, hgid⟩ := List.mem_map.mp hmem
      have := h.id_le hg
      omega
    rw [Disk.openFile, hnone]
    simp [h.disk, diskOf, Segment.file, Segment.empty, Segment.content, Nat.add_assoc]
  rw [hnext]
  refine ⟨⟨?_, ?_, hid, ?_, Nat.zero_le _⟩, rfl, ?_, rfl⟩
  · simp only [AppendFileStorage.openSegment, hopen]
  · rw [← List.append_assoc, List.map_append, List.pairwise_append]
    refine ⟨h.sorted, by simp, ?_⟩
    intro a ha b hb
    obtain ⟨g, hg, rfl⟩ := List.mem_map.mp ha
    simp only [List.map_singleton, List.mem_singleton] at hb
    subst hb
    have := h.id_le hg
    simp only [Segment.empty]
    omega
  · intro g hg
    rw [← List.append_assoc] at hg
    rcases List.mem_append.mp hg with hg | hg
    · exact h.wf g hg
    · cases List.mem_singleton.mp hg
      exact Segment.wf_empty
  · simp only [AppendFileStorage.openSegment, hopen]

/-- Opening the last segment again. -/
theorem openLast (h : DiskLayout s.disk removed closed active n) :
    Layout (s.openSegment active.id) removed closed active n := by
  have hopen : s.disk.openFile active.id = (removed.length + closed.length, s.disk) := by
    have : s.disk.lookup active.id = some (removed.length + closed.length) := by
      rw [h.disk]
      exact lookup_active h.sorted
    rw [Disk.openFile, this]
  refine ⟨⟨?_, h.sorted, h.listed, h.wf, h.synced⟩, rfl, ?_, rfl⟩
  · simp only [AppendFileStorage.openSegment, hopen]
    exact h.disk
  · simp only [AppendFileStorage.openSegment, hopen]

/-- The rotation check either leaves the storage alone or closes the active segment, which is synced
then, and opens the next one. -/
theorem rotated (h : Layout s removed closed active n) (hid : active.id + 1 < 10 ^ 9) :
    s.rotated (removed.length + closed.length) = s ∨
      (Layout (s.rotated (removed.length + closed.length)) removed (closed ++ [active])
          (.empty (active.id + 1)) 0 ∧
        (s.rotated (removed.length + closed.length)).durableLSN = s.appendedLSN) := by
  unfold AppendFileStorage.rotated
  split
  · exact .inl h.flushed_eq
  · exact .inr ⟨openNext h.synced_layout.toDiskLayout hid, rfl⟩

/-- A full segment is closed. -/
theorem rotated_of_full (h : Layout s removed closed active n) (hid : active.id + 1 < 10 ^ 9)
    (hfull : s.segmentSize ≤ active.content.length) :
    Layout (s.rotated (removed.length + closed.length)) removed (closed ++ [active])
      (.empty (active.id + 1)) 0 := by
  unfold AppendFileStorage.rotated
  rw [h.flushed_eq, if_neg]
  · exact openNext h.synced_layout.toDiskLayout hid
  · rw [h.disk, diskOf_dataAt_active]
    exact not_lt.mpr hfull

/-- The file that was active before a rotation check keeps its content. -/
theorem dataAt_rotated (h : Layout s removed closed active n) (hid : active.id + 1 < 10 ^ 9) :
    (s.rotated (removed.length + closed.length)).disk.dataAt (removed.length + closed.length) =
      active.content := by
  rcases h.rotated hid with heq | ⟨hrot, -⟩
  · rw [heq, h.disk, diskOf_dataAt_active]
  · rw [hrot.disk, Disk.dataAt,
      diskOf_closed (show closed ++ [active] = closed ++ active :: [] from rfl)]
    rfl

/-- Removing the first of the closed segments. -/
theorem remove_first (h : Layout s removed (g :: rest) active n) :
    Layout { s with disk := s.disk.remove g.id } (removed ++ [g]) rest active n where
  disk := by
    have hlookup : s.disk.lookup g.id = some removed.length := by
      rw [h.disk]
      exact lookup_closed h.sorted (show g :: rest = [] ++ g :: rest from rfl)
    simp only [Disk.remove, hlookup]
    rw [h.disk, diskOf, List.map_cons, List.cons_append]
    have := modify_append_cons (removed.map fun g => g.file false g.content.length)
      (rest.map (fun g => g.file true g.content.length) ++ [active.file true n])
      (g.file true g.content.length) fun f => { f with linked := false }
    rw [List.length_map] at this
    rw [this]
    simp [Segment.file, diskOf]
  segmentID := h.segmentID
  file := by
    rw [h.file]
    simp only [List.length_append, List.length_cons, List.length_nil]
    congr 1
    omega
  writeBuffer := h.writeBuffer
  sorted := by simpa using h.sorted
  listed := h.listed
  wf := by simpa using h.wf
  synced := h.synced

/-- `PurgeUpTo` removes the closed segments up to the first one that holds a later record. -/
theorem purgeUpTo (h : Layout s removed closed active n) :
    Layout (s.purgeUpTo checkpoint)
      (removed ++ closed.takeWhile fun g => decide (g.maxLSN ≤ checkpoint))
      (closed.dropWhile fun g => decide (g.maxLSN ≤ checkpoint)) active n := by
  have hpurge : s.purgeUpTo checkpoint = { s with
      disk := AppendFileStorage.purgeSegments active.id checkpoint
        ((closed ++ [active]).map (·.id)) s.disk } := by
    rw [← h.listSegments, ← h.segmentID]
    rfl
  rw [hpurge]
  clear hpurge
  -- the loop visits the closed segments first; the active one is skipped at the end
  induction closed generalizing s removed with
  | nil =>
    simp only [List.nil_append, List.map_cons, List.map_nil, AppendFileStorage.purgeSegments,
      if_true, List.takeWhile_nil, List.dropWhile_nil, List.append_nil]
    exact h
  | cons g rest ih =>
    have hne : g.id ≠ active.id := Nat.ne_of_lt (id_lt_active h.sorted (by simp))
    have hmax : AppendFileStorage.maxLSNInSegment (s.disk.data g.id) = g.maxLSN := by
      rw [h.data (by simp), (h.wf g (by simp)).maxLSNInSegment]
    simp only [List.cons_append, List.map_cons, AppendFileStorage.purgeSegments, if_neg hne, hmax]
    by_cases hg : g.maxLSN ≤ checkpoint
    · rw [if_neg (by omega), List.takeWhile_cons_of_pos (by simpa using hg),
        List.dropWhile_cons_of_pos (by simpa using hg)]
      have := ih h.remove_first
      simpa using this
    · rw [if_pos (by omega), List.takeWhile_cons_of_neg (by simpa using hg),
        List.dropWhile_cons_of_neg (by simpa using hg), List.append_nil]
      exact h

/-- Opening a directory: appends go on in the last segment, or in a new one when the last segment
has reached its size. -/
theorem reopen (h : DiskLayout d removed closed active active.content.length)
    (hid : active.id + 1 < 10 ^ 9) :
    Layout (.newAppendStorageInDir d segmentSize bufferSize) removed closed active
        active.content.length ∨
      Layout (.newAppendStorageInDir d segmentSize bufferSize) removed (closed ++ [active])
        (.empty (active.id + 1)) 0 := by
  have hlast : d.listSegments.getLast? = some active.id := by
    rw [h.listSegments]
    simp
  simp only [AppendFileStorage.newAppendStorageInDir, hlast]
  split
  · exact .inr (openNext h hid)
  · exact .inl (openLast h)

end Layout

theorem newAppendStorageInDir_nextLSN :
    (AppendFileStorage.newAppendStorageInDir d size bufferSize).nextLSN < 2 ^ 64 := by
  unfold AppendFileStorage.newAppendStorageInDir
  split
  · simp [AppendFileStorage.openSegment]
  · simp only
    split <;> simp only [AppendFileStorage.openSegment] <;> split <;> omega

end ChudDB.Wal
