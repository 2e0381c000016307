import ChudDB.Wal.OrderedLog

/-! # The WAL cursor

`CursorFrom` (`wal.go`) and `WALCursor.Next` (`cursor.go`). `Next` may run beside the writers: it
lists, opens and reads segment files without the lock of the storage, and takes the lock only for
the one read of `ActiveSegment` or of `DurableLSN`. So `WALCursor.next` is not a whole call but one
such access, and the storage may change between two of them. An operation of the storage is one
step of the system, since a file access that falls into it sees the files as they are before or
behind it: it writes whole records at the end of one file, and creates or removes one file at a
time (a purge of several segments is as good as several purges). -/

namespace ChudDB.Wal
open Lib

/-- `fileSegmentReader`: an open file and the read offset. -/
structure SegmentReader where
  fd : Nat
  offset : Nat
deriving DecidableEq, Repr

/-- `fileSegmentReader.Next`. -/
def SegmentReader.next (d : Disk) (r : SegmentReader) : Option (Record × SegmentReader) :=
  (nextRecord checksumIEEE ((d.dataAt r.fd).drop r.offset)).map fun p =>
    (p.1, { r with offset := (d.dataAt r.fd).length - p.2.length })

/-- `OpenSegmentReader`. -/
def AppendFileStorage.openSegmentReader (s : AppendFileStorage) (segmentID : Nat) :
    Option SegmentReader :=
  (s.disk.lookup segmentID).map (⟨·, 0⟩)

/-- Where a call of `Next` stands. -/
inductive NextPc where
  /-- At the head of its loop; so is a cursor between two calls. -/
  | head
  /-- The segments are listed, and this one is to be opened. -/
  | opening (segmentID : Nat)
  /-- The reader has met the end of its segment, and `ActiveSegment` is asked next. -/
  | ended
  /-- An entry has been read, and `ActiveSegment` is asked next. -/
  | read
deriving DecidableEq, Repr

/-- A cursor with the call that is on its way. Until `ActiveSegment` has answered, the entry in the
hands of the call is in `peeked` and the reader that it has closed in `reader`; nothing looks at
the two fields meanwhile. -/
structure WALCursor where
  afterLSN : Nat
  segIdx : Nat
  segments : List Nat
  reader : Option SegmentReader
  peeked : Option Entry
  pc : NextPc
deriving DecidableEq, Repr

inductive NextError where
  | eof
  | segmentNotFound (segmentID : Nat)
deriving DecidableEq, Repr

/-- `segmentMaxLSN`. -/
def segmentMaxLSN (s : AppendFileStorage) (segmentID : Nat) : Nat :=
  AppendFileStorage.maxLSNInSegment (s.disk.data segmentID)

/-- The loop of `CursorFrom` that skips the segments without a record behind `afterLSN`. -/
def startIdx (s : AppendFileStorage) (afterLSN : Nat) : List Nat → Nat
  | [] => 0
  | id :: ids =>
    if id = s.segmentID then 0
    else if segmentMaxLSN s id ≤ afterLSN then startIdx s afterLSN ids + 1
    else 0

/-- `CursorFrom`. -/
def cursorFrom (s : AppendFileStorage) (afterLSN : Nat) : WALCursor where
  afterLSN := afterLSN
  segIdx := startIdx s afterLSN s.listSegments
  segments := s.listSegments
  reader := none
  peeked := none
  pc := .head

namespace WALCursor

/-- One access of `Next` to the storage, with the result if the call returns. The segment at
`segIdx` is the one the reader was opened for, so the index is in range at `ActiveSegment`. An entry
of the active segment is kept, and whether it is durable is asked as for any entry kept. -/
def next (s : AppendFileStorage) (c : WALCursor) : WALCursor × Option (Except NextError Entry) :=
  match c.pc with
  | .head =>
    match c.peeked, c.reader with
    | some e, _ =>
      if e.lsn ≤ s.durableLSN then ({ c with peeked := none }, some (.ok e))
      else (c, some (.error .eof))
    | none, none =>
      let c := { c with segments := s.listSegments }
      match c.segments[c.segIdx]? with
      | none => (c, some (.error .eof))
      | some id => ({ c with pc := .opening id }, none)
    | none, some r =>
      match r.next s.disk with
      | none => ({ c with pc := .ended }, none)
      | some (rec, r) =>
        let c := { c with reader := some r }
        let entry := recordToEntry rec
        if entry.lsn ≤ c.afterLSN then (c, none)
        else ({ c with peeked := some entry, pc := .read }, none)
  | .opening id =>
    match s.openSegmentReader id with
    | none => ({ c with pc := .head }, some (.error (.segmentNotFound id)))
    | some r => ({ c with reader := some r, pc := .head }, none)
  | .ended =>
    let c := { c with reader := none, pc := .head }
    if c.segments[c.segIdx]? = some s.segmentID then (c, some (.error .eof))
    else ({ c with segIdx := c.segIdx + 1 }, none)
  | .read =>
    if c.segments[c.segIdx]? = some s.segmentID then ({ c with pc := .head }, none)
    else ({ c with peeked := none, pc := .head }, c.peeked.map .ok)

/-- What a step delivers. -/
def delivered : Option (Except NextError Entry) → List Entry
  | some (.ok e) => [e]
  | _ => []

/-- The steps of a cursor, and what they deliver. -/
inductive Moves (s : AppendFileStorage) (c : WALCursor) : WALCursor → List Entry → Prop
  | wait : Moves s c c []
  | deliver (hp : c.peeked = some e)
      (hsafe : e.lsn ≤ s.durableLSN ∨ c.segments[c.segIdx]? ≠ some s.segmentID) :
      Moves s c { c with peeked := none, pc := .head } [e]
  /-- The entry is kept, or the segment could not be opened. -/
  | restart (hpc : c.pc = .read ∨ ∃ i, c.pc = .opening i) : Moves s c { c with pc := .head } []
  | list {pc' : NextPc} (hp : c.peeked = none) (hr : c.reader = none) (hpc : c.pc = .head)
      (hpc' : pc' = .head ∨ ∃ i, s.listSegments[c.segIdx]? = some i ∧ pc' = .opening i) :
      Moves s c { c with segments := s.listSegments, pc := pc' } []
  | opened (hpc : c.pc = .opening i) (hfd : s.disk.lookup i = some fd) :
      Moves s c { c with reader := some ⟨fd, 0⟩, pc := .head } []
  | skip (hp : c.peeked = none) (hr : c.reader = some r) (hpc : c.pc = .head)
      (hnext : r.next s.disk = some (e, r')) (hle : e.lsn ≤ c.afterLSN) :
      Moves s c { c with reader := some r' } []
  | read (hp : c.peeked = none) (hr : c.reader = some r) (hpc : c.pc = .head)
      (hnext : r.next s.disk = some (e, r')) (hlt : c.afterLSN < e.lsn) :
      Moves s c { c with reader := some r', peeked := some e, pc := .read } []
  | finish (hp : c.peeked = none) (hr : c.reader = some r) (hpc : c.pc = .head) :
      Moves s c { c with pc := .ended } []
  | close (hpc : c.pc = .ended) : Moves s c { c with reader := none, pc := .head } []
  | leave (hpc : c.pc = .ended) (hactive : c.segments[c.segIdx]? ≠ some s.segmentID) :
      Moves s c { c with reader := none, pc := .head, segIdx := c.segIdx + 1 } []

theorem next_moves (s : AppendFileStorage) (c : WALCursor) :
    Moves s c (c.next s).1 (delivered (c.next s).2) := by
  unfold next
  split
  · rename_i hpc
    split
    · rename_i e hp
      split
      · rename_i hle
        have hmove := Moves.deliver (s := s) hp (.inl hle)
        rw [← hpc] at hmove
        exact hmove
      · exact .wait
    · rename_i hp hr
      simp only
      split
      · have hmove := Moves.list (s := s) hp hr hpc (.inl rfl)
        rw [← hpc] at hmove
        exact hmove
      · rename_i id hid
        exact .list hp hr hpc (.inr ⟨id, hid, rfl⟩)
    · rename_i r hp hr
      split
      · exact .finish hp hr hpc
      · rename_i hnext
        simp only
        split
        · rename_i hle
          exact .skip hp hr hpc hnext hle
        · rename_i hle
          exact .read hp hr hpc hnext (Nat.lt_of_not_le hle)
  · rename_i id hpc
    split
    · exact .restart (.inr ⟨id, hpc⟩)
    · rename_i hopen
      obtain ⟨fd, hfd, rfl⟩ := Option.map_eq_some_iff.mp hopen
      exact .opened hpc hfd
  · rename_i hpc
    simp only
    split
    · exact .close hpc
    · rename_i hactive
      exact .leave hpc hactive
  · rename_i hpc
    split
    · exact .restart (.inl hpc)
    · rename_i hactive
      cases hp : c.peeked with
      | none =>
        have hmove := Moves.restart (s := s) (.inl hpc)
        rw [hp] at hmove
        exact hmove
      | some e => exact .deliver hp (.inr hactive)

end WALCursor

/-! ## Reading at record boundaries -/

/-- The reader of `g` that has read the first `j` records. -/
def readerAt (fd : Nat) (g : Segment) (j : Nat) : SegmentReader :=
  ⟨fd, frameOffset (Record.bytes checksumIEEE) g.recs j⟩

theorem readerAt_zero : readerAt fd g 0 = ⟨fd, 0⟩ := by
  simp [readerAt, frameOffset]

theorem next_readerAt (hd : Disk.dataAt d fd = g.content) (hg : g.WF) :
    (readerAt fd g j).next d = g.recs[j]?.map fun r => (r, readerAt fd g (j + 1)) := by
  have hreads : ∀ r ∈ g.recs, Reads (nextRecord checksumIEEE) (Record.bytes checksumIEEE) r :=
    fun r hr => Record.reads (hg.recs r hr)
  simp only [SegmentReader.next, readerAt, hd, Segment.content]
  by_cases hj : j < g.recs.length
  · rw [next_drop_frameOffset hreads hj, List.getElem?_eq_getElem hj]
    have hle : frameOffset (Record.bytes checksumIEEE) g.recs (j + 1) ≤
        (g.recs.flatMap (Record.bytes checksumIEEE) ++ g.tail).length := by
      conv_rhs => rw [← List.take_append_drop (j + 1) g.recs, List.flatMap_append]
      simp only [frameOffset, List.length_append]
      omega
    simp only [Option.map_some, List.length_drop, Option.some.injEq, Prod.mk.injEq,
      SegmentReader.mk.injEq, true_and]
    omega
  · rw [next_drop_frameOffset_length hg.tail (by omega), List.getElem?_eq_none (by omega)]
    rfl

theorem readerAt_grown {g : Segment} (h : j ≤ g.recs.length) :
    readerAt fd { g with recs := g.recs ++ rs } j = readerAt fd g j := by
  simp only [readerAt, frameOffset]
  rw [List.take_append_of_le_length h]

end ChudDB.Wal
