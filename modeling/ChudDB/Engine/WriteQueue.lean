import ChudDB.Engine.Basic
import ChudDB.Lib.Fair
import ChudDB.Wal.CommitProgress

/-! # The write queue

`runWriter` (`write_queue.go`): one goroutine takes the requests from a channel in batches, appends
each to the log, answers the asynchronous ones, waits once for the highest LSN of the others, and
answers these. Its steps interleave with those of the callers that send requests, of the other
callers of `WaitDurable`, and of whoever uses the storage, and any call of the operating system may
fail. The part of `applyWriteToMem` behind the append, which puts the write into the memtable, is
left out here: it cannot fail. -/

namespace ChudDB
open Lib Wal

/-- `writeReq`; the user, whom only the rate limiter looks at, is left out. -/
structure WriteReq where
  key : Key
  value : Value
  sync : Bool
  /-- The number of the channel on which the answer is sent. -/
  done : Nat
deriving DecidableEq

/-- A request of the batch with its `lsns[i]` and `errs[i]`. -/
structure Applied where
  req : WriteReq
  result : Except EngineError Nat

/-- What is sent on `done` other than `nil`: `errs[i]` or `syncErr`. -/
inductive ReplyError where
  | apply (e : EngineError)
  | sync (e : StorageError)
deriving DecidableEq, Repr

/-- An answer, and the durable LSN at the moment at which it was sent. -/
structure Reply where
  req : WriteReq
  err : Option ReplyError
  durableLSN : Nat
deriving DecidableEq

/-- How far a round of `runWriter` has come. In its loops over the batch the second list is what is
still to do, and `call` is the number of its call of `WaitDurable`. -/
inductive WriteLoop where
  | receive
  | drain (batch : List WriteReq)
  | apply (batch : List Applied) (rest : List WriteReq)
  | signalAsync (batch rest : List Applied)
  | wait (batch : List Applied) (call : Nat)
  | signalSync (syncErr : Option StorageError) (rest : List Applied)
  | stopped

/-- `sent` is every request ever sent, `appended` says under which LSN the request of a channel was
appended, and `replies` is every answer. -/
structure WriteQueue where
  wal : WAL
  writeCh : List WriteReq
  closed : Bool
  loop : WriteLoop
  sent : List WriteReq
  appended : List (Nat × Nat)
  replies : List Reply

/-- What others do to the storage. -/
inductive StoreOp where
  | append (op : Op) (key value : Bytes)
  | sync
  | rotate
  | purge (checkpointLSN : Nat)
  | close

inductive Turn where
  /-- A step of `runWriter`; `allowed` is the answer of the rate limiter. -/
  | writer (io : Faults) (allowed : Bool)
  /-- A step of another call of `WaitDurable`. -/
  | caller (i : Nat) (io : Faults)
  | store (op : StoreOp) (io : Faults)
  | send (key : Key) (value : Value) (sync : Bool)
  /-- `stopWriter` closes the channel. -/
  | stopWriter
  | waitDurable (lsn : Nat)

namespace WriteQueue

/-- The capacity of the channel. -/
def capacity : Nat := 256

/-- The engine of a process that opens the log in a directory. -/
def newEngine (d : Disk) (segmentSize writeBufferSize : Int) (syncMode : SyncMode) : WriteQueue where
  wal := .newWALWithStorage (.newAppendStorageInDir d segmentSize writeBufferSize) syncMode
  writeCh := []
  closed := false
  loop := .receive
  sent := []
  appended := []
  replies := []

variable (cfg : Config)

/-- `AppendDelete` for the tombstone, `AppendPut` otherwise. -/
def appendToWal (io : Faults) (r : WriteReq) : StorageM Nat :=
  if r.value = cfg.tombstone then AppendFileStorage.append io opDelete r.key []
  else AppendFileStorage.append io opPut r.key r.value

/-- `applyWriteToMem`, up to the memtable. -/
def applyWriteToMem (io : Faults) (allowed : Bool) (r : WriteReq) (w : WAL) :
    Except EngineError Nat × WAL :=
  if !allowed then (.error .notAllowed, w)
  else match (appendToWal cfg io r).run w.store with
    | .ok lsn store => (.ok lsn, { w with store := store })
    | .error e store => (.error (.wal e), { w with store := store })

/-- The loop that finds `maxSyncLSN` and `needsSync`. -/
def syncTarget (batch : List Applied) : Nat × Bool :=
  batch.foldl (fun (maxSyncLSN, needsSync) a =>
    match a.result with
    | .ok lsn => if a.req.sync ∧ lsn > maxSyncLSN then (lsn, true) else (maxSyncLSN, needsSync)
    | .error _ => (maxSyncLSN, needsSync)) (0, false)

/-- `r.done <- …`: the error of the request, or else `syncErr`. -/
def reply (a : Applied) (syncErr : Option StorageError) (s : WriteQueue) : WriteQueue :=
  let err := match a.result with
    | .error e => some (.apply e)
    | .ok _ => syncErr.map .sync
  { s with replies := s.replies ++ [⟨a.req, err, s.wal.store.durableLSN⟩] }

/-- The next step of `runWriter`; `none` while it waits for a request or in `WaitDurable`, and when
it has returned. -/
def runWriter (io : Faults) (allowed : Bool) (s : WriteQueue) : Option WriteQueue :=
  match s.loop with
  | .receive =>
    match s.writeCh with
    | r :: rest => some { s with writeCh := rest, loop := .drain [r] }
    | [] => if s.closed then some { s with loop := .stopped } else none
  | .drain batch =>
    match s.writeCh with
    | r :: rest => some { s with writeCh := rest, loop := .drain (batch ++ [r]) }
    | [] => some { s with loop := .apply [] batch }
  | .apply batch (r :: rest) =>
    let (result, wal) := applyWriteToMem cfg io allowed r s.wal
    some { s with
      wal := wal
      appended := s.appended ++ (result.toOption.map fun lsn => (r.done, lsn)).toList
      loop := .apply (batch ++ [⟨r, result⟩]) rest }
  | .apply batch [] => some { s with loop := .signalAsync batch batch }
  | .signalAsync batch (a :: rest) =>
    some { if a.req.sync then s else s.reply a none with loop := .signalAsync batch rest }
  | .signalAsync batch [] =>
    let (maxSyncLSN, needsSync) := syncTarget batch
    if needsSync then
      some { s with wal := s.wal.waitDurable maxSyncLSN, loop := .wait batch s.wal.calls.length }
    else some { s with loop := .signalSync none batch }
  | .wait batch call =>
    match s.wal.calls[call]? with
    | some ⟨_, .returned err⟩ => some { s with loop := .signalSync err batch }
    | _ => (s.wal.stepCall io call).map fun wal => { s with wal := wal }
  | .signalSync syncErr (a :: rest) =>
    some { if a.req.sync then s.reply a syncErr else s with loop := .signalSync syncErr rest }
  | .signalSync _ [] => some { s with loop := .receive }
  | .stopped => none

/-- The writer's own call of `WaitDurable`. -/
def ownCall (s : WriteQueue) : Option Nat :=
  match s.loop with
  | .wait _ call => some call
  | _ => none

def useStore (op : StoreOp) (io : Faults) (w : WAL) : WAL :=
  match op with
  | .append op key value => (w.exec (AppendFileStorage.append io op key value)).2
  | .sync => (w.exec (AppendFileStorage.syncLocked io)).2
  | .rotate => (w.exec (AppendFileStorage.rotateIfNeededLocked io)).2
  | .purge checkpointLSN => { w with store := w.store.purgeUpTo checkpointLSN }
  | .close => (w.exec (AppendFileStorage.closeLocked io)).2

def step : System WriteQueue Turn := fun s turn =>
  match turn with
  | .writer io allowed => s.runWriter cfg io allowed
  | .caller i io =>
    if s.ownCall = some i then none
    else (s.wal.stepCall io i).map fun wal => { s with wal := wal }
  | .store op io => some { s with wal := useStore op io s.wal }
  | .send key value sync =>
    if s.closed ∨ s.writeCh.length ≥ capacity then none
    else
      let r : WriteReq := ⟨key, value, sync, s.sent.length⟩
      some { s with writeCh := s.writeCh ++ [r], sent := s.sent ++ [r] }
  | .stopWriter => if s.closed then none else some { s with closed := true }
  | .waitDurable lsn => some { s with wal := s.wal.waitDurable lsn }

/-- No append takes the last LSN, after which the counter starts at 0 again. -/
def LsnLeft (s : WriteQueue) : Turn → Prop
  | .writer .. =>
    match s.loop with
    | .apply _ (_ :: _) => s.wal.store.nextLSN + 1 < 2 ^ 64
    | _ => True
  | .store (.append ..) _ => s.wal.store.nextLSN + 1 < 2 ^ 64
  | _ => True

variable {cfg} {s s' : WriteQueue}

/-! ## What a step of the writer does -/

inductive WriterStep (cfg : Config) (s : WriteQueue) : WriteQueue → Prop
  | receive (hloop : s.loop = .receive) (hch : s.writeCh = r :: rest) :
      WriterStep cfg s { s with writeCh := rest, loop := .drain [r] }
  | stop (hloop : s.loop = .receive) (hch : s.writeCh = []) (hclosed : s.closed = true) :
      WriterStep cfg s { s with loop := .stopped }
  | drain (hloop : s.loop = .drain batch) (hch : s.writeCh = r :: rest) :
      WriterStep cfg s { s with writeCh := rest, loop := .drain (batch ++ [r]) }
  | drained (hloop : s.loop = .drain batch) (hch : s.writeCh = []) :
      WriterStep cfg s { s with loop := .apply [] batch }
  | apply (hloop : s.loop = .apply batch (r :: rest))
      (happly : applyWriteToMem cfg io allowed r s.wal = (result, wal')) :
      WriterStep cfg s { s with
        wal := wal'
        appended := s.appended ++ (result.toOption.map fun lsn => (r.done, lsn)).toList
        loop := .apply (batch ++ [⟨r, result⟩]) rest }
  | applied (hloop : s.loop = .apply batch []) :
      WriterStep cfg s { s with loop := .signalAsync batch batch }
  | signalAsync (hloop : s.loop = .signalAsync batch (a :: rest)) (hsync : a.req.sync = false) :
      WriterStep cfg s { s.reply a none with loop := .signalAsync batch rest }
  | skipSync (hloop : s.loop = .signalAsync batch (a :: rest)) (hsync : a.req.sync = true) :
      WriterStep cfg s { s with loop := .signalAsync batch rest }
  | wait (hloop : s.loop = .signalAsync batch []) (hneeds : (syncTarget batch).2 = true) :
      WriterStep cfg s { s with
        wal := s.wal.waitDurable (syncTarget batch).1
        loop := .wait batch s.wal.calls.length }
  | noSync (hloop : s.loop = .signalAsync batch []) (hneeds : (syncTarget batch).2 = false) :
      WriterStep cfg s { s with loop := .signalSync none batch }
  | call (hloop : s.loop = .wait batch i) (hmove : s.wal.stepCall io i = some wal') :
      WriterStep cfg s { s with wal := wal' }
  | returned (hloop : s.loop = .wait batch i) (hcall : s.wal.calls[i]? = some ⟨lsn, .returned err⟩) :
      WriterStep cfg s { s with loop := .signalSync err batch }
  | signalSync (hloop : s.loop = .signalSync err (a :: rest)) (hsync : a.req.sync = true) :
      WriterStep cfg s { s.reply a err with loop := .signalSync err rest }
  | skipAsync (hloop : s.loop = .signalSync err (a :: rest)) (hsync : a.req.sync = false) :
      WriterStep cfg s { s with loop := .signalSync err rest }
  | done (hloop : s.loop = .signalSync err []) : WriterStep cfg s { s with loop := .receive }

theorem writerStep_of_runWriter (h : s.runWriter cfg io allowed = some s') :
    WriterStep cfg s s' := by
  unfold runWriter at h
  split at h
  · rename_i hloop
    split at h
    · rename_i hch
      cases h
      exact .receive hloop hch
    · rename_i hch
      split at h
      · rename_i hclosed
        cases h
        exact .stop hloop hch hclosed
      · cases h
  · rename_i hloop
    split at h
    · rename_i hch
      cases h
      exact .drain hloop hch
    · rename_i hch
      cases h
      exact .drained hloop hch
  · rename_i hloop
    cases h
    exact .apply hloop rfl
  · rename_i hloop
    cases h
    exact .applied hloop
  · rename_i batch a rest hloop
    cases h
    cases hsync : a.req.sync with
    | true => exact .skipSync hloop hsync
    | false => exact .signalAsync hloop hsync
  · rename_i batch hloop
    dsimp only at h
    split at h
    · rename_i hneeds
      cases h
      exact .wait hloop hneeds
    · rename_i hneeds
      cases h
      exact .noSync hloop (Bool.eq_false_iff.mpr hneeds)
  · rename_i batch i hloop
    split at h
    · rename_i hcall
      cases h
      exact .returned hloop hcall
    · obtain ⟨wal', hmove, rfl⟩ := Option.map_eq_some_iff.mp h
      exact .call hloop hmove
  · rename_i err a rest hloop
    cases h
    cases hsync : a.req.sync with
    | true => exact .signalSync hloop hsync
    | false => exact .skipAsync hloop hsync
  · rename_i hloop
    cases h
    exact .done hloop
  · cases h

end WriteQueue
end ChudDB
