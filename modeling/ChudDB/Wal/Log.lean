import ChudDB.Lib.Lists
import ChudDB.Wal.StorageRun

/-! # The log a storage represents

A `Segment` says what a segment file holds in terms of records: the records that read, and the bytes
behind them, which read as the end of the file. `Layout s removed closed active synced` states that
the directory of `s` consists of the removed segments, the closed ones and the active one, in the
order of their numbers, and that the fields of `s` that concern files agree with that. -/

namespace ChudDB.Wal
open Lib

structure Segment where
  id : Nat
  recs : List Record
  tail : Bytes
deriving DecidableEq, Repr

namespace Segment

/-- The bytes of the segment file. -/
def content (g : Segment) : Bytes := g.recs.flatMap (Record.bytes checksumIEEE) ++ g.tail

structure WF (g : Segment) : Prop where
  recs : ∀ r ∈ g.recs, r.WF
  tail : nextRecord checksumIEEE g.tail = none

def file (g : Segment) (linked : Bool) (synced : Nat) : SegmentFile :=
  ⟨g.id, g.content, synced, linked⟩

/-- The LSN of the last record, 0 when there is none. -/
def maxLSN (g : Segment) : Nat := (g.recs.getLast?.map (·.lsn)).getD 0

theorem WF.readSegment {g : Segment} (h : g.WF) :
    readSegment checksumIEEE g.content = (g.recs, g.tail) :=
  readSegment_eq h.recs h.tail

theorem WF.maxLSNInSegment {g : Segment} (h : g.WF) :
    AppendFileStorage.maxLSNInSegment g.content = g.maxLSN := by
  rw [AppendFileStorage.maxLSNInSegment, h.readSegment, maxLSN]

end Segment

/-! ## Directories -/

namespace Disk

/-- The names in the directory. -/
def names (d : Disk) : List Nat := (d.filter (·.linked)).map (·.id)

theorem names_sublist (d : Disk) : d.names.Sublist (d.map (·.id)) := List.filter_sublist.map _

/-- A file is found under its name when no two files in the directory share a name. -/
theorem lookup_eq_some {d : Disk} (hn : d.names.Nodup) (hi : d[i]? = some f)
    (hl : f.linked = true) : d.lookup f.id = some i := by
  obtain ⟨hlt, rfl⟩ := List.getElem?_eq_some_iff.mp hi
  rw [lookup, List.findIdx?_eq_some_iff_getElem]
  refine ⟨hlt, by simp [hl], fun j hj hmatch => ?_⟩
  have hjlt : j < d.length := hj.trans hlt
  simp only [Bool.and_eq_true, beq_iff_eq] at hmatch
  rw [names, List.Nodup, List.pairwise_map, List.pairwise_filter,
    List.pairwise_iff_getElem] at hn
  exact hn j i hjlt hlt hj hmatch.1 hl hmatch.2

theorem lookup_eq_none {d : Disk} {id : Nat} (h : ∀ f ∈ d, f.id ≠ id) : d.lookup id = none := by
  rw [lookup, List.findIdx?_eq_none_iff]
  intro f hf
  simp [h f hf]

theorem data_eq {d : Disk} (hn : d.names.Nodup) (hf : f ∈ d) (hl : f.linked = true) :
    d.data f.id = f.data := by
  obtain ⟨i, hi⟩ := List.mem_iff_getElem?.mp hf
  rw [data, lookup_eq_some hn hi hl]
  simp [dataAt, hi]

end Disk

/-- The directory that holds the given segments; `synced` bytes of the active one are on disk. -/
def diskOf (removed closed : List Segment) (active : Segment) (synced : Nat) : Disk :=
  removed.map (fun g => g.file false g.content.length) ++
    (closed.map (fun g => g.file true g.content.length) ++ [active.file true synced])

/-- The directory holds the given segments, in the order of their numbers. -/
structure DiskLayout (d : Disk) (removed closed : List Segment) (active : Segment)
    (synced : Nat) : Prop where
  disk : d = diskOf removed closed active synced
  sorted : ((removed ++ (closed ++ [active])).map (·.id)).Pairwise (· < ·)
  listed : active.id < 10 ^ 9
  wf : ∀ g ∈ removed ++ (closed ++ [active]), g.WF
  synced : synced ≤ active.content.length

/-- The storage appends to the active one of the given segments; its buffer is empty. -/
structure Layout (s : AppendFileStorage) (removed closed : List Segment) (active : Segment)
    (synced : Nat) : Prop extends DiskLayout s.disk removed closed active synced where
  segmentID : s.segmentID = active.id
  file : s.file = some (removed.length + closed.length)
  writeBuffer : s.writeBuffer = []

section diskOf
variable {removed closed : List Segment} {active : Segment} {synced : Nat}

theorem diskOf_ids :
    (diskOf removed closed active synced).map (·.id) =
      (removed ++ (closed ++ [active])).map (·.id) := by
  simp [diskOf, Segment.file, Function.comp_def]

theorem diskOf_linked : (diskOf removed closed active synced).filter (·.linked) =
    closed.map (fun g => g.file true g.content.length) ++ [active.file true synced] := by
  simp [diskOf, Segment.file, List.filter_append, List.filter_map, Function.comp_def]

theorem diskOf_active :
    (diskOf removed closed active synced)[removed.length + closed.length]? =
      some (active.file true synced) := by
  rw [diskOf, ← List.append_assoc, List.getElem?_append_right (by simp)]
  simp

@[simp] theorem diskOf_dataAt_active :
    (diskOf removed closed active synced).dataAt (removed.length + closed.length) =
      active.content := by
  rw [Disk.dataAt, diskOf_active]
  rfl

theorem diskOf_closed (h : closed = past ++ g :: rest) :
    (diskOf removed closed active synced)[removed.length + past.length]? =
      some (g.file true g.content.length) := by
  subst h
  rw [diskOf, List.getElem?_append_right (by simp), List.getElem?_append_left (by simp)]
  simp

/-- The file behind a handle, whether it is still listed or not. -/
theorem diskOf_dataAt (h : (removed ++ (closed ++ [active]))[i]? = some g) :
    (diskOf removed closed active synced).dataAt i = g.content := by
  have hdata : (diskOf removed closed active synced).map (·.data) =
      (removed ++ (closed ++ [active])).map (·.content) := by
    simp [diskOf, Segment.file, Function.comp_def]
  rw [Disk.dataAt, ← List.getElem?_map, hdata, List.getElem?_map, h]
  rfl

/-- Changing the active file leaves the others alone. -/
theorem diskOf_modify_active (f : SegmentFile → SegmentFile) :
    (diskOf removed closed active synced).modify (removed.length + closed.length) f =
      removed.map (fun g => g.file false g.content.length) ++
        (closed.map (fun g => g.file true g.content.length) ++ [f (active.file true synced)]) := by
  rw [diskOf, ← List.append_assoc, ← List.append_assoc]
  have := modify_append_cons (removed.map (fun g => g.file false g.content.length) ++
    closed.map (fun g => g.file true g.content.length)) [] (active.file true synced) f
  simpa using this

section
variable (hsorted : ((removed ++ (closed ++ [active])).map (·.id)).Pairwise (· < ·))
include hsorted

theorem diskOf_nodup : (diskOf removed closed active synced).names.Nodup := by
  refine List.Nodup.sublist (Disk.names_sublist _) ?_
  rw [diskOf_ids]
  exact hsorted.imp Nat.ne_of_lt

theorem id_lt_active (hg : g ∈ removed ++ closed) : g.id < active.id := by
  rw [← List.append_assoc, List.map_append, List.pairwise_append] at hsorted
  exact hsorted.2.2 g.id (List.mem_map_of_mem hg) active.id (by simp)

theorem listSegments_diskOf (hlisted : active.id < 10 ^ 9) :
    (diskOf removed closed active synced).listSegments = (closed ++ [active]).map (·.id) := by
  have hids : ((closed.map (fun g => g.file true g.content.length) ++
      [active.file true synced]).map (·.id)) = (closed ++ [active]).map (·.id) := by
    simp [Segment.file, Function.comp_def]
  have hsub : ((closed ++ [active]).map (·.id)).Pairwise (· < ·) := by
    rw [List.map_append, List.pairwise_append] at hsorted
    exact hsorted.2.1
  rw [Disk.listSegments, diskOf_linked, hids, List.filter_eq_self.mpr]
  · exact (hsub.imp Nat.le_of_lt).insertionSort_eq
  · intro id hid
    obtain ⟨g, hg, rfl⟩ := List.mem_map.mp hid
    rcases List.mem_append.mp hg with hg | hg
    · have := id_lt_active hsorted (List.mem_append_right _ hg)
      simp only [decide_eq_true_eq]
      omega
    · cases List.mem_singleton.mp hg
      simpa using hlisted

theorem nextSegmentID_diskOf (hlisted : active.id < 10 ^ 9) :
    (diskOf removed closed active synced).nextSegmentID = active.id + 1 := by
  rw [Disk.nextSegmentID, listSegments_diskOf hsorted hlisted]
  simp

theorem data_diskOf (hg : g ∈ closed ++ [active]) :
    (diskOf removed closed active synced).data g.id = g.content := by
  have hn : (diskOf removed closed active synced).names.Nodup := diskOf_nodup hsorted
  rcases List.mem_append.mp hg with hg | hg
  · refine Disk.data_eq (f := g.file true g.content.length) hn ?_ rfl
    exact List.mem_append_right _ (List.mem_append_left _ (List.mem_map_of_mem hg))
  · cases List.mem_singleton.mp hg
    refine Disk.data_eq (f := active.file true synced) hn ?_ rfl
    simp [diskOf]

theorem lookup_closed (h : closed = past ++ g :: rest) :
    (diskOf removed closed active synced).lookup g.id = some (removed.length + past.length) := by
  have hn : (diskOf removed closed active synced).names.Nodup := diskOf_nodup hsorted
  exact Disk.lookup_eq_some (f := g.file true g.content.length) hn (diskOf_closed h) rfl

theorem lookup_active : (diskOf removed closed active synced).lookup active.id =
    some (removed.length + closed.length) :=
  Disk.lookup_eq_some (f := active.file true synced) (diskOf_nodup hsorted) diskOf_active rfl

end
end diskOf

namespace DiskLayout

variable {d : Disk} {removed closed : List Segment} {active : Segment} {synced : Nat}

theorem listSegments (h : DiskLayout d removed closed active synced) :
    d.listSegments = (closed ++ [active]).map (·.id) := by
  rw [h.disk]
  exact listSegments_diskOf h.sorted h.listed

theorem data (h : DiskLayout d removed closed active synced) (hg : g ∈ closed ++ [active]) :
    d.data g.id = g.content := by
  rw [h.disk]
  exact data_diskOf h.sorted hg

theorem id_le (h : DiskLayout d removed closed active synced)
    (hg : g ∈ removed ++ (closed ++ [active])) : g.id ≤ active.id := by
  rw [← List.append_assoc] at hg
  rcases List.mem_append.mp hg with hg | hg
  · exact Nat.le_of_lt (id_lt_active h.sorted hg)
  · cases List.mem_singleton.mp hg
    exact Nat.le_refl _

theorem dataAt (h : DiskLayout d removed closed active synced)
    (hg : (removed ++ (closed ++ [active]))[i]? = some g) : d.dataAt i = g.content := by
  rw [h.disk]
  exact diskOf_dataAt hg

/-- What is found under a name is one of the segments. -/
theorem of_lookup (h : DiskLayout d removed closed active synced) (hl : d.lookup i = some fd) :
    ∃ g, (removed ++ (closed ++ [active]))[fd]? = some g ∧ g.id = i := by
  obtain ⟨hlt, hfile, -⟩ := List.findIdx?_eq_some_iff_getElem.mp hl
  have hid : (d.map (·.id))[fd]? = some i := by
    rw [List.getElem?_map, List.getElem?_eq_getElem hlt]
    simpa using (Bool.and_eq_true_iff.mp hfile).2
  rw [h.disk, diskOf_ids, List.getElem?_map] at hid
  exact Option.map_eq_some_iff.mp hid

/-- Replay reads the records of the segments that are still there, in order. -/
theorem records (h : DiskLayout d removed closed active synced) :
    d.records = (closed ++ [active]).flatMap (·.recs) := by
  rw [Disk.records, h.listSegments, List.flatMap_map]
  apply List.flatMap_congr
  intro g hg
  rw [h.data hg, (h.wf g (List.mem_append_right _ hg)).readSegment]

end DiskLayout
end ChudDB.Wal
