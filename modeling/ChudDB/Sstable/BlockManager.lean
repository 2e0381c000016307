import ChudDB.Sstable.BlockCacheRun

/-! # The block manager

`BlockManager` (`block_manager.go`): calls of `ReadAt` by any number of goroutines, with the block
cache in front of the files and a table of the files that are open. Opening a file is not under the
lock, so two calls may open the same file, and the second one then closes its own. A file may be
closed by `CloseFile` at any time, also while a call is about to read it, and its name may appear and
disappear. What was written under a name does not change.

A call that succeeds has read what a plain read of the file returns (`reads_agree`). -/

namespace ChudDB.BlockCache
open Lib

/-- What the block manager reads of the configuration, and the outside: `content` is what has been
written under a name. -/
structure BlockConfig where
  blockSize : Nat
  cacheCapacity : Int
  sum64 : Bytes → BlockKey
  content : Bytes → Bytes
  blockSize_pos : 0 < blockSize

/-- A call of `ReadAt`. -/
structure ReadRequest where
  path : Bytes
  offset : Int
  size : Nat
deriving DecidableEq

inductive ReadError where
  | notOpened
  | notRead
deriving DecidableEq, Repr

/-- How far a call of `ReadAt` has come: before the look into the cache, in `getOrOpenFD` before the
first lock, before `os.Open` and, with a new descriptor, before the second lock; then with a
descriptor before the read, and with the data before `Put`. -/
inductive ReadCall where
  | start
  | lookup
  | opening
  | opened (fd : Nat)
  | read (fd : Nat)
  | put (data : Bytes)
  | returned (result : Except ReadError Bytes)
deriving DecidableEq

/-- An `*os.File`. -/
structure FileHandle where
  path : Bytes
  closed : Bool
deriving DecidableEq

structure BlockManager where
  lruCache : LRUCache
  openFDs : Bytes → Option Nat
  handles : List FileHandle
  present : Bytes → Bool
  calls : List (ReadRequest × ReadCall)

inductive BlockOp where
  | readAt (req : ReadRequest)
  /-- The next step of a call. -/
  | advance (i : Nat)
  | closeFile (path : Bytes)
  | clearCache
  /-- A file is written or removed. -/
  | setPresent (path : Bytes) (present : Bool)

/-- `os.File.ReadAt` on a buffer of the size, if it fills it. -/
def FileHandle.readAt (content : Bytes → Bytes) (f : FileHandle) (offset : Int) (size : Nat) :
    Option Bytes :=
  if offset < 0 then none
  else if size = 0 then some []
  else if f.closed then none
  else Lib.readAt (content f.path) offset.toNat size

namespace ReadRequest

variable (cfg : BlockConfig)

def isBlockRead (req : ReadRequest) : Bool :=
  req.size = cfg.blockSize ∧ req.offset.tmod cfg.blockSize = 0

/-- The name of the block in the cache. -/
def block (req : ReadRequest) : BlockName := (req.path, req.offset.tdiv cfg.blockSize)

/-- What a read of the file returns. -/
def plain (req : ReadRequest) : Option Bytes :=
  FileHandle.readAt cfg.content ⟨req.path, false⟩ req.offset req.size

end ReadRequest

namespace BlockManager

variable (cfg : BlockConfig)

/-- `NewBlockManager`. -/
def newBlockManager : BlockManager :=
  ⟨.newLRUCache cfg.cacheCapacity, fun _ => none, [], fun _ => false, []⟩

def close (bm : BlockManager) (fd : Nat) : BlockManager :=
  { bm with handles := bm.handles.modify fd fun handle => { handle with closed := true } }

/-- `CloseFile`. -/
def closeFile (bm : BlockManager) (path : Bytes) : BlockManager :=
  match bm.openFDs path with
  | some fd => { bm.close fd with openFDs := Function.update bm.openFDs path none }
  | none => bm

/-- The next step of `ReadAt`; `none` if it follows a nil pointer or has returned. -/
def next (bm : BlockManager) (req : ReadRequest) : ReadCall → Option (BlockManager × ReadCall)
  | .start =>
    if req.isBlockRead cfg then
      (bm.lruCache.get cfg.sum64 (req.block cfg).1 (req.block cfg).2).map fun (cache, found) =>
        ({ bm with lruCache := cache },
          match found with
          | some data => .returned (.ok data)
          | none => .lookup)
    else some (bm, .lookup)
  | .lookup =>
    match bm.openFDs req.path with
    | some fd => some (bm, .read fd)
    | none => some (bm, .opening)
  | .opening =>
    if bm.present req.path then
      some ({ bm with handles := bm.handles ++ [⟨req.path, false⟩] }, .opened bm.handles.length)
    else some (bm, .returned (.error .notOpened))
  | .opened fd =>
    match bm.openFDs req.path with
    | some existing => some (bm.close fd, .read existing)
    | none => some ({ bm with openFDs := Function.update bm.openFDs req.path (some fd) }, .read fd)
  | .read fd =>
    bm.handles[fd]?.map fun f => (bm,
      match f.readAt cfg.content req.offset req.size with
      | some data => if req.isBlockRead cfg then .put data else .returned (.ok data)
      | none => .returned (.error .notRead))
  | .put data =>
    (bm.lruCache.put cfg.sum64 (req.block cfg).1 (req.block cfg).2 data).map fun cache =>
      ({ bm with lruCache := cache }, .returned (.ok data))
  | .returned _ => none

def step : System BlockManager BlockOp := fun bm op =>
  match op with
  | .readAt req => some { bm with calls := bm.calls ++ [(req, .start)] }
  | .advance i =>
    bm.calls[i]?.bind fun (req, call) => (bm.next cfg req call).map fun (bm, call) =>
      { bm with calls := bm.calls.set i (req, call) }
  | .closeFile path => some (bm.closeFile path)
  | .clearCache => some { bm with lruCache := .newLRUCache cfg.cacheCapacity }
  | .setPresent path present => some { bm with present := Function.update bm.present path present }

end BlockManager

theorem FileHandle.readAt_eq_some {content : Bytes → Bytes} {f : FileHandle}
    (h : f.readAt content offset size = some data) :
    FileHandle.readAt content ⟨f.path, false⟩ offset size = some data := by
  rw [readAt] at h ⊢
  split
  · simp_all
  · split
    · simp_all
    · simp_all

/-! ## The cache -/

variable {cfg : BlockConfig} {blocks : Set BlockName} {c : LRUCache} {block : BlockName}
  {data : Bytes} {req : ReadRequest}

/-- The bytes of a block. -/
def blockData (cfg : BlockConfig) (block : BlockName) : Option Bytes :=
  FileHandle.readAt cfg.content ⟨block.1, false⟩ (block.2 * cfg.blockSize) cfg.blockSize

theorem ReadRequest.plain_of_isBlockRead (h : req.isBlockRead cfg = true) :
    req.plain cfg = blockData cfg (req.block cfg) := by
  obtain ⟨hsize, hmod⟩ := of_decide_eq_true h
  have hoffset : req.offset.tdiv cfg.blockSize * cfg.blockSize = req.offset := by
    have hdiv := Int.mul_tdiv_add_tmod req.offset cfg.blockSize
    rw [hmod, add_zero, mul_comm] at hdiv
    exact hdiv
  rw [plain, blockData, block, hoffset, hsize]

/-- The cache has some of the blocks, each with its bytes. -/
structure Caches (cfg : BlockConfig) (blocks : Set BlockName) (c : LRUCache) : Prop where
  represents : ∃ nodes, Represents c nodes ∧ nodes.length ≤ c.capacity.toNat ∧
    ∀ e ∈ nodes.map c.heap.entry, ∃ block ∈ blocks, block.key cfg.sum64 = e.1 ∧
      blockData cfg block = some e.2

namespace Caches

theorem new : Caches cfg blocks (.newLRUCache capacity) :=
  ⟨[], ⟨⟨rfl, rfl, rfl, ⟨List.nodup_nil, trivial, trivial⟩, by simp⟩,
    fun _ _ => by simp [LRUCache.newLRUCache]⟩, Nat.zero_le _, by simp⟩

/-- A use of a block with its bytes keeps this. -/
theorem touched {nodes nodes' : List Nat} {c' : LRUCache} (hb : block ∈ blocks)
    (hdata : blockData cfg block = some data)
    (hentries : ∀ e ∈ nodes.map c.heap.entry, ∃ block ∈ blocks, block.key cfg.sum64 = e.1 ∧
      blockData cfg block = some e.2)
    (hcapacity : c'.capacity = c.capacity) (hr : Represents c' nodes')
    (hput : nodes'.map c'.heap.entry =
      lruPut c.capacity.toNat (block.key cfg.sum64) data (nodes.map c.heap.entry)) :
    Caches cfg blocks c' := by
  refine ⟨nodes', hr, ?_, fun e he => ?_⟩
  · rw [← List.length_map c'.heap.entry, hput, hcapacity, lruPut]
    exact List.length_take_le _ _
  · rw [hput] at he
    rcases mem_of_mem_lruPut he with rfl | ⟨he, -⟩
    · exact ⟨block, hb, rfl, hdata⟩
    · exact hentries e he

theorem get (h : Caches cfg blocks c) (hb : block ∈ blocks)
    (hinj : Set.InjOn (BlockName.key cfg.sum64) blocks) :
    ∃ c' found, c.get cfg.sum64 block.1 block.2 = some (c', found) ∧ Caches cfg blocks c' ∧
      ∀ data, found = some data → blockData cfg block = some data := by
  obtain ⟨nodes, hr, hle, hentries⟩ := h
  cases hlookup : (nodes.map c.heap.entry).lookup (block.key cfg.sum64) with
  | none =>
    exact ⟨c, none, hr.get_of_miss rfl hlookup, ⟨nodes, hr, hle, hentries⟩, fun _ h => (by cases h)⟩
  | some data =>
    obtain ⟨pre, post, hsplit, -⟩ := List.lookup_eq_some_iff.mp hlookup
    obtain ⟨block', hb', hkey, hdata⟩ := hentries (block.key cfg.sum64, data) (by simp [hsplit])
    rw [hinj hb' hb hkey] at hdata
    have hpos : 0 < nodes.length := by
      rw [← List.length_map c.heap.entry, hsplit]
      simp
    obtain ⟨c', nodes', hget, hcapacity, hr', hput⟩ :=
      hr.get_of_hit (by omega) (by omega) (rfl : newBlockKey cfg.sum64 block.2 block.1 = _) hlookup
    refine ⟨c', some data, hget, touched hb hdata hentries hcapacity hr' hput, fun _ h => ?_⟩
    cases h
    exact hdata

theorem put (h : Caches cfg blocks c) (hb : block ∈ blocks)
    (hdata : blockData cfg block = some data) :
    ∃ c', c.put cfg.sum64 block.1 block.2 data = some c' ∧ Caches cfg blocks c' := by
  obtain ⟨nodes, hr, hle, hentries⟩ := h
  by_cases hcap : c.capacity ≤ 0
  · refine ⟨c, ?_, ⟨nodes, hr, hle, hentries⟩⟩
    rw [LRUCache.put, if_pos hcap]
  · obtain ⟨c', nodes', hput, hcapacity, hr', hentries'⟩ :=
      hr.put (by omega) (by omega) (rfl : newBlockKey cfg.sum64 block.2 block.1 = _) data
    exact ⟨c', hput, touched hb hdata hentries hcapacity hr' hentries'⟩

theorem mono (h : Caches cfg blocks c) (hsub : blocks ⊆ blocks') : Caches cfg blocks' c := by
  obtain ⟨nodes, hr, hle, hentries⟩ := h
  refine ⟨nodes, hr, hle, fun e he => ?_⟩
  obtain ⟨block, hb, he⟩ := hentries e he
  exact ⟨block, hsub hb, he⟩

end Caches

/-! ## The steps of a call -/

namespace BlockManager

variable {bm bm' : BlockManager} {call call' : ReadCall} {ops : List BlockOp} {op : BlockOp}
  {path : Bytes} {fd i : Nat}

/-- Descriptors keep their names, and a closed one stays closed. -/
def Keeps (bm bm' : BlockManager) : Prop :=
  ∀ {fd : Nat} {f}, bm.handles[fd]? = some f →
    ∃ f', bm'.handles[fd]? = some f' ∧ f'.path = f.path ∧ (f.closed = true → f'.closed = true)

theorem Keeps.refl : Keeps bm bm := fun h => ⟨_, h, rfl, id⟩

theorem keeps_close : Keeps bm (bm.close fd) := by
  intro k f h
  by_cases hk : k = fd
  · refine ⟨{ f with closed := true }, ?_, rfl, fun _ => rfl⟩
    rw [close, hk, List.getElem?_modify_eq, ← hk, h]
    rfl
  · exact ⟨f, (List.getElem?_modify_ne _ _ (Ne.symm hk)).trans h, rfl, id⟩

/-- The descriptor is one of the file. -/
def Named (bm : BlockManager) (path : Bytes) (fd : Nat) : Prop :=
  ∃ closed, bm.handles[fd]? = some ⟨path, closed⟩

theorem Named.keeps (h : bm.Named path fd) (hk : Keeps bm bm') : bm'.Named path fd := by
  obtain ⟨closed, hf⟩ := h
  obtain ⟨⟨path', closed'⟩, hf', rfl, -⟩ := hk hf
  exact ⟨closed', hf'⟩

/-! ## The data -/

/-- The blocks that the calls read. -/
def requested (cfg : BlockConfig) (ops : List BlockOp) : Set BlockName :=
  {block | ∃ req, .readAt req ∈ ops ∧ req.isBlockRead cfg = true ∧ req.block cfg = block}

/-- What a call has: a descriptor of its file, the bytes of the file, or a reason why it failed. -/
def Holds (cfg : BlockConfig) (bm : BlockManager) (req : ReadRequest) : ReadCall → Prop
  | .opened fd | .read fd => bm.Named req.path fd
  | .put data => req.isBlockRead cfg = true ∧ req.plain cfg = some data
  | .returned (.ok data) => req.plain cfg = some data
  | .returned (.error .notRead) =>
    req.plain cfg = none ∨ ∃ fd : Nat, bm.handles[fd]? = some ⟨req.path, true⟩
  | _ => True

theorem Holds.keeps (h : Holds cfg bm req call) (hk : Keeps bm bm') : Holds cfg bm' req call := by
  match call with
  | .opened _ | .read _ => exact Named.keeps h hk
  | .put _ | .returned (.ok _) => exact h
  | .returned (.error .notRead) =>
    refine h.imp_right ?_
    rintro ⟨fd, hf⟩
    obtain ⟨⟨path', closed'⟩, hf', rfl, hclosed⟩ := hk hf
    cases hclosed rfl
    exact ⟨fd, hf'⟩
  | .start | .lookup | .opening | .returned (.error .notOpened) => trivial

structure Inv (cfg : BlockConfig) (ops : List BlockOp) (bm : BlockManager) : Prop where
  cache : Caches cfg (requested cfg ops) bm.lruCache
  registered : ∀ path fd, bm.openFDs path = some fd → bm.Named path fd
  calls : ∀ c ∈ bm.calls, .readAt c.1 ∈ ops ∧ Holds cfg bm c.1 c.2

theorem requested_mono : requested cfg ops ⊆ requested cfg (ops ++ [op]) := by
  rintro block ⟨req, hreq, hblock⟩
  exact ⟨req, List.mem_append_left [op] hreq, hblock⟩

/-- How many more steps a call can take. -/
def left : ReadCall → Nat
  | .start => 6
  | .lookup => 5
  | .opening => 4
  | .opened _ => 3
  | .read _ => 2
  | .put _ => 1
  | .returned _ => 0

/-- What the next step of a call does. -/
structure Progress (cfg : BlockConfig) (ops : List BlockOp) (bm : BlockManager) (req : ReadRequest)
    (call : ReadCall) (bm' : BlockManager) (call' : ReadCall) : Prop where
  next : bm.next cfg req call = some (bm', call')
  left : left call' < left call
  calls : bm'.calls = bm.calls
  keeps : Keeps bm bm'
  cache : Caches cfg (requested cfg ops) bm'.lruCache
  fds : ∀ path fd, bm'.openFDs path = some fd → bm.openFDs path = some fd ∨ bm'.Named path fd
  holds : Holds cfg bm' req call'

namespace Inv

theorem new : Inv cfg [] (newBlockManager cfg) := ⟨.new, nofun, nofun⟩

/-- A step that keeps the descriptors, and what it changes besides. -/
theorem update (h : Inv cfg ops bm) (hk : Keeps bm bm')
    (hcache : Caches cfg (requested cfg ops) bm'.lruCache)
    (hfds : ∀ path fd, bm'.openFDs path = some fd →
      bm.openFDs path = some fd ∨ bm'.Named path fd)
    (hcalls : ∀ c ∈ bm'.calls, c ∈ bm.calls ∨ .readAt c.1 ∈ ops ++ [op] ∧ Holds cfg bm' c.1 c.2) :
    Inv cfg (ops ++ [op]) bm' where
  cache := hcache.mono requested_mono
  registered path fd hfd := (hfds path fd hfd).elim (fun hold => (h.registered path fd hold).keeps hk) id
  calls c hc := by
    rcases hcalls c hc with hold | hnew
    · obtain ⟨hasked, hholds⟩ := h.calls c hold
      exact ⟨List.mem_append_left [op] hasked, hholds.keeps hk⟩
    · exact hnew

theorem block_mem (h : Inv cfg ops bm) (hi : bm.calls[i]? = some (req, call))
    (hblock : req.isBlockRead cfg = true) : req.block cfg ∈ requested cfg ops :=
  ⟨req, (h.calls _ (List.mem_of_getElem? hi)).1, hblock, rfl⟩

/-- A step that leaves the descriptors as they are. -/
theorem keep (call' : ReadCall) (hcache : Caches cfg (requested cfg ops) c)
    (hnext : bm.next cfg req call = some ({ bm with lruCache := c }, call'))
    (hleft : left call' < left call) (hholds : Holds cfg bm req call') :
    ∃ bm' call', Progress cfg ops bm req call bm' call' :=
  ⟨_, call', hnext, hleft, rfl, Keeps.refl, hcache, fun _ _ => .inl, hholds.keeps Keeps.refl⟩

/-- A call that has not returned has a next step. -/
theorem progress (h : Inv cfg ops bm)
    (hinj : Set.InjOn (BlockName.key cfg.sum64) (requested cfg ops))
    (hi : bm.calls[i]? = some (req, call)) (hcall : ∀ result, call ≠ .returned result) :
    ∃ bm' call', Progress cfg ops bm req call bm' call' := by
  have hholds := (h.calls _ (List.mem_of_getElem? hi)).2
  cases call with
  | start =>
    by_cases hblock : req.isBlockRead cfg = true
    · obtain ⟨cache, found, hget, hcache, hfound⟩ := h.cache.get (h.block_mem hi hblock) hinj
      cases found with
      | none => exact keep .lookup hcache (by simp [next, hblock, hget]) (by simp [left]) trivial
      | some data =>
        exact keep (.returned (.ok data)) hcache (by simp [next, hblock, hget]) (by simp [left])
          ((req.plain_of_isBlockRead hblock).trans (hfound data rfl))
    · exact keep .lookup h.cache (by simp [next, hblock]) (by simp [left]) trivial
  | lookup =>
    cases hfd : bm.openFDs req.path with
    | none => exact keep .opening h.cache (by simp [next, hfd]) (by simp [left]) trivial
    | some fd =>
      exact keep (.read fd) h.cache (by simp [next, hfd]) (by simp [left]) (h.registered _ _ hfd)
  | opening =>
    cases hpresent : bm.present req.path with
    | false =>
      exact keep (.returned (.error .notOpened)) h.cache (by simp [next, hpresent]) (by simp [left])
        trivial
    | true =>
      exact ⟨{ bm with handles := bm.handles ++ [⟨req.path, false⟩] }, .opened bm.handles.length,
        by simp [next, hpresent], by simp [left], rfl,
        fun hf => ⟨_, (List.getElem?_append_left (List.getElem?_eq_some_iff.mp hf).1).trans hf, rfl, id⟩,
        h.cache, fun _ _ => .inl, false, List.getElem?_concat_length⟩
  | opened fd =>
    cases hfd : bm.openFDs req.path with
    | some existing =>
      exact ⟨bm.close fd, .read existing, by simp [next, hfd], by simp [left], rfl, keeps_close,
        h.cache, fun _ _ => .inl, (h.registered _ _ hfd).keeps keeps_close⟩
    | none =>
      refine ⟨{ bm with openFDs := Function.update bm.openFDs req.path (some fd) }, .read fd,
        by simp [next, hfd], by simp [left], rfl, Keeps.refl, h.cache, fun path fd' hfd' => ?_, hholds⟩
      dsimp only at hfd'
      rw [Function.update_apply] at hfd'
      split at hfd'
      · rename_i hpath
        cases hfd'
        rw [hpath]
        exact .inr hholds
      · exact .inl hfd'
  | read fd =>
    obtain ⟨closed, hf⟩ := hholds
    cases hread : FileHandle.readAt cfg.content ⟨req.path, closed⟩ req.offset req.size with
    | none =>
      refine keep (.returned (.error .notRead)) h.cache (by simp [next, hf, hread]) (by simp [left]) ?_
      cases closed with
      | false => exact .inl hread
      | true => exact .inr ⟨fd, hf⟩
    | some data =>
      have hplain := FileHandle.readAt_eq_some hread
      by_cases hblock : req.isBlockRead cfg = true
      · exact keep (.put data) h.cache (by simp [next, hf, hread, hblock]) (by simp [left])
          ⟨hblock, hplain⟩
      · exact keep (.returned (.ok data)) h.cache (by simp [next, hf, hread, hblock]) (by simp [left])
          hplain
  | put data =>
    obtain ⟨hblock, hplain⟩ := hholds
    obtain ⟨cache, hput, hcache⟩ := h.cache.put (h.block_mem hi hblock)
      ((req.plain_of_isBlockRead hblock).symm.trans hplain)
    exact keep (.returned (.ok data)) hcache (by simp [next, hput]) (by simp [left]) hplain
  | returned result => exact absurd rfl (hcall result)

theorem step (h : Inv cfg ops bm) (hinj : Set.InjOn (BlockName.key cfg.sum64) (requested cfg ops))
    (hstep : BlockManager.step cfg bm op = some bm') : Inv cfg (ops ++ [op]) bm' := by
  cases op with
  | readAt req =>
    cases hstep
    refine h.update Keeps.refl h.cache (fun _ _ => .inl) fun c hc => ?_
    refine (List.mem_append.mp hc).imp_right fun hnew => ?_
    cases List.mem_singleton.mp hnew
    exact ⟨List.mem_append_right ops List.mem_cons_self, trivial⟩
  | advance i =>
    obtain ⟨⟨req, call⟩, hi, hmap⟩ := Option.bind_eq_some_iff.mp hstep
    obtain ⟨⟨bm₁, call'⟩, hnext, rfl⟩ := Option.map_eq_some_iff.mp hmap
    have hcall : ∀ result, call ≠ .returned result := by
      rintro result rfl
      cases hnext
    obtain ⟨bm₂, call₂, hp⟩ := h.progress hinj hi hcall
    cases hnext.symm.trans hp.next
    refine h.update hp.keeps hp.cache hp.fds fun c hc => ?_
    refine (List.mem_or_eq_of_mem_set hc).imp (fun hold => hp.calls ▸ hold) ?_
    rintro rfl
    exact ⟨List.mem_append_left _ (h.calls _ (List.mem_of_getElem? hi)).1, hp.holds⟩
  | closeFile path =>
    cases hstep
    rw [closeFile]
    split
    · refine h.update keeps_close h.cache (fun path' fd hfd => .inl ?_) fun _ => .inl
      dsimp only at hfd
      rw [Function.update_apply] at hfd
      split at hfd
      · cases hfd
      · exact hfd
    · exact h.update Keeps.refl h.cache (fun _ _ => .inl) fun _ => .inl
  | clearCache =>
    cases hstep
    exact h.update Keeps.refl .new (fun _ _ => .inl) fun _ => .inl
  | setPresent path present =>
    cases hstep
    exact h.update Keeps.refl h.cache (fun _ _ => .inl) fun _ => .inl

end Inv

theorem inv_of_run (hinj : Set.InjOn (BlockName.key cfg.sum64) (requested cfg ops))
    (h : (step cfg).run (newBlockManager cfg) ops = some bm) : Inv cfg ops bm := by
  refine System.run_invariant (I := fun ops bm => Set.InjOn (BlockName.key cfg.sum64)
    (requested cfg ops) → Inv cfg ops bm) (fun _ => .new) ?_ h hinj
  intro ops bm op bm' ih hstep hinj
  exact (ih (hinj.mono requested_mono)).step (hinj.mono requested_mono) hstep

/-- Whatever the calls and `CloseFile` do between each other's steps, a call never follows a nil
pointer and returns after at most six steps of its own, with the bytes that a plain read of the file
returns. A read fails only if the plain read does, or a descriptor of the file has been closed. -/
theorem reads_agree (hinj : Set.InjOn (BlockName.key cfg.sum64) (requested cfg ops))
    (h : (step cfg).run (newBlockManager cfg) ops = some bm)
    (hi : bm.calls[i]? = some (req, call)) :
    (∀ data, call = .returned (.ok data) → req.plain cfg = some data) ∧
    (call = .returned (.error .notRead) →
      req.plain cfg = none ∨ ∃ fd : Nat, bm.handles[fd]? = some ⟨req.path, true⟩) ∧
    left call ≤ 6 ∧
    ((∀ result, call ≠ .returned result) → ∃ bm' call', step cfg bm (.advance i) = some bm' ∧
      bm'.calls[i]? = some (req, call') ∧ left call' < left call) := by
  have hinv := inv_of_run hinj h
  have hholds := (hinv.calls _ (List.mem_of_getElem? hi)).2
  refine ⟨?_, ?_, ?_, fun hcall => ?_⟩
  · rintro data rfl
    exact hholds
  · rintro rfl
    exact hholds
  · cases call <;> simp [left]
  · obtain ⟨bm₁, call', hp⟩ := hinv.progress hinj hi hcall
    refine ⟨{ bm₁ with calls := bm₁.calls.set i (req, call') }, call', ?_, ?_, hp.left⟩
    · simp only [step, hi, Option.bind_some, hp.next, Option.map_some]
    · rw [hp.calls]
      exact List.getElem?_set_self (List.getElem?_eq_some_iff.mp hi).1

/-- Files of four bytes, in blocks of two. -/
def sampleConfig : BlockConfig where
  blockSize := 2
  cacheCapacity := 1
  sum64 data := (data.getLastD 0).toUInt64
  content _ := [97, 98, 99, 100]
  blockSize_pos := by decide

/-- Two calls find no descriptor and open the file; the first one enters its own, and the second one
closes its own. Both read, and after the file is closed a third call finds the block in the cache. -/
def sampleReads : List BlockOp :=
  [.setPresent [102] true, .readAt ⟨[102], 2, 2⟩, .readAt ⟨[102], 2, 2⟩, .advance 0, .advance 0,
    .advance 1, .advance 1, .advance 0, .advance 1, .advance 0, .advance 1, .advance 0, .advance 0,
    .advance 1, .closeFile [102], .readAt ⟨[102], 2, 2⟩, .advance 2]

def afterReads : BlockManager :=
  ((step sampleConfig).run (newBlockManager sampleConfig) sampleReads).get (by decide +kernel)

theorem reads_agree_race :
    afterReads.handles = [⟨[102], true⟩, ⟨[102], true⟩] ∧
    (⟨[102], 2, 2⟩ : ReadRequest).plain sampleConfig = some [99, 100] := by
  have hrequested : requested sampleConfig sampleReads ⊆ {([102], 1)} := by
    rintro block ⟨req, hreq, -, rfl⟩
    have : req = ⟨[102], 2, 2⟩ := by simpa [sampleReads] using hreq
    subst this
    decide +kernel
  have hcall : afterReads.calls[2]? = some (⟨[102], 2, 2⟩, .returned (.ok [99, 100])) := by
    decide +kernel
  exact ⟨by decide +kernel, (reads_agree ((Set.subsingleton_singleton.anti hrequested).injOn _)
    (Option.some_get _).symm hcall).1 _ rfl⟩

end BlockManager
end ChudDB.BlockCache
