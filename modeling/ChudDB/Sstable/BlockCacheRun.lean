import ChudDB.Lib.Lists
import ChudDB.Lib.Run
import ChudDB.Sstable.BlockCache

/-! # What the block cache holds

The map of the cache finds exactly the nodes of the list, each under its key (`Represents`). On the
entries of the nodes, `Put` and a `Get` that hits are `lruPut` (`Represents.put`,
`Represents.get_of_hit`). So after every sequence of operations the cache holds the blocks that come
first in the order of most recent use, with the data of their latest `Put`
(`lruCache_holds_recent`). -/

namespace ChudDB.BlockCache
open Lib

/-- The map finds the nodes of the list. -/
structure Represents (c : LRUCache) (nodes : List Nat) : Prop where
  list : IsList c.heap c.lruList nodes
  cache : ∀ key p, c.cache key = some p ↔ p ∈ nodes ∧ c.heap.blockKey p = key

theorem SameBlocks.blockKey {h h' : BlockHeap} (hsame : SameBlocks h h') (p : Nat) :
    h'.blockKey p = h.blockKey p :=
  congrArg Prod.fst (congrFun hsame.entry p)

theorem SameBlocks.get {h h' : BlockHeap} (hsame : SameBlocks h h') (p : Nat) :
    h'.get p = h.get p :=
  congrArg Prod.snd (congrFun hsame.entry p)

namespace Represents
variable {sum64 : Bytes → BlockKey} {c : LRUCache} {nodes : List Nat} {key : BlockKey} {p q : Nat}
  {data filePath : Bytes} {blockID : Int}

theorem eq_of_blockKey_eq (hr : Represents c nodes) (hp : p ∈ nodes) (hq : q ∈ nodes)
    (hkey : c.heap.blockKey p = c.heap.blockKey q) : p = q := by
  have hp' := (hr.cache _ p).mpr ⟨hp, hkey⟩
  rw [(hr.cache _ q).mpr ⟨hq, rfl⟩] at hp'
  exact (Option.some.inj hp').symm

theorem of_hit (hr : Represents c nodes) (hp : c.cache key = some p) :
    ∃ front back, nodes = front ++ p :: back ∧ c.heap.blockKey p = key ∧
      ∀ q ∈ front ++ back, c.heap.blockKey q ≠ key := by
  obtain ⟨hmem, hkey⟩ := (hr.cache key p).mp hp
  obtain ⟨front, back, rfl⟩ := List.append_of_mem hmem
  refine ⟨front, back, rfl, hkey, fun q hq hqkey => ?_⟩
  have hperm : (front ++ p :: back).Perm (p :: (front ++ back)) := List.perm_middle
  have hq' : q ∈ front ++ p :: back := hperm.mem_iff.mpr (List.mem_cons_of_mem p hq)
  cases hr.eq_of_blockKey_eq hq' hmem (hqkey.trans hkey.symm)
  exact (List.nodup_cons.mp (hperm.nodup_iff.mp hr.list.linked.nodup)).1 hq

theorem of_miss (hr : Represents c nodes) (hmiss : c.cache key = none) :
    ∀ p ∈ nodes, c.heap.blockKey p ≠ key := by
  intro p hp hkey
  rw [(hr.cache key p).mpr ⟨hp, hkey⟩] at hmiss
  cases hmiss

theorem entries_of_miss (hr : Represents c nodes) (hmiss : c.cache key = none) :
    ∀ e ∈ nodes.map c.heap.entry, e.1 ≠ key :=
  List.forall_mem_map.mpr (hr.of_miss hmiss)

theorem lookup_entries (hr : Represents c nodes) (key : BlockKey) :
    (nodes.map c.heap.entry).lookup key = (c.cache key).map c.heap.get := by
  cases hcache : c.cache key with
  | none =>
    rw [Option.map_none, List.lookup_eq_none_iff]
    exact fun e he => bne_iff_ne.mpr (hr.entries_of_miss hcache e he).symm
  | some p =>
    obtain ⟨hmem, hkey⟩ := (hr.cache key p).mp hcache
    refine lookup_of_unique (List.mem_map.mpr ⟨p, hmem, Prod.ext hkey rfl⟩) fun data hdata => ?_
    obtain ⟨q, hq, hentry⟩ := List.mem_map.mp hdata
    obtain ⟨hqkey, rfl⟩ := Prod.mk.inj hentry
    rw [hr.eq_of_blockKey_eq hq hmem (hqkey.trans hkey.symm)]

/-- Set the data of a block and move its node to the front. -/
theorem touch (hr : Represents c nodes) (hle : nodes.length ≤ c.capacity)
    (hp : c.cache key = some p) (data : Bytes) :
    ∃ lruList heap nodes', c.lruList.moveToFront p (c.heap.set p data) = some (lruList, heap) ∧
      heap.get p = data ∧
      Represents { c with lruList := lruList, heap := heap } nodes' ∧
      nodes'.map heap.entry = lruPut c.capacity.toNat key data (nodes.map c.heap.entry) := by
  obtain ⟨front, back, rfl, hkey, hother⟩ := hr.of_hit hp
  have hlist : IsList (c.heap.set p data) c.lruList (front ++ p :: back) :=
    hr.list.congr le_rfl fun q _ => ⟨BlockHeap.next_set, BlockHeap.prev_set⟩
  obtain ⟨lruList, heap, hmove, hlist', hsame⟩ := hlist.moveToFront
  have hget : heap.get p = data := (hsame.get p).trans BlockHeap.get_set_self
  have hblockKey : ∀ q, heap.blockKey q = c.heap.blockKey q := fun q =>
    (hsame.blockKey q).trans BlockHeap.blockKey_set
  refine ⟨lruList, heap, p :: (front ++ back), hmove, hget, ⟨hlist', fun key' q => ?_⟩, ?_⟩
  · rw [hr.cache, hblockKey, List.perm_middle.mem_iff]
  · have hentry : heap.entry p = (key, data) := Prod.ext ((hblockKey p).trans hkey) hget
    have hentries : (front ++ back).map heap.entry = (front ++ back).map c.heap.entry := by
      refine List.map_congr_left fun q hq => ?_
      rw [hsame.entry]
      refine BlockHeap.entry_set_of_ne ?_
      rintro rfl
      exact hother q hq hkey
    have hbefore : (front ++ p :: back).map c.heap.entry =
        front.map c.heap.entry ++ (key, c.heap.get p) :: back.map c.heap.entry := by
      rw [List.map_append, List.map_cons, BlockHeap.entry, hkey]
    rw [hbefore, lruPut_of_mem, List.map_cons, hentry, hentries, List.map_append]
    · rw [← List.map_append]
      exact List.forall_mem_map.mpr hother
    · rw [← hbefore, List.length_map]
      omega

theorem evictLocked (hr : Represents c (nodes ++ [p])) :
    ∃ c', c.evictLocked = some c' ∧ c'.capacity = c.capacity ∧ SameBlocks c.heap c'.heap ∧
      Represents c' nodes := by
  obtain ⟨lruList, heap, hdelete, hlist, hsame⟩ := hr.list.deleteEnd
  have htail : c.lruList.tail = some p := hr.list.tail.trans List.getLast?_concat
  have hp : p ∈ nodes ++ [p] := List.mem_append_right nodes List.mem_cons_self
  refine ⟨{ c with
    cache := Function.update c.cache (c.heap.blockKey p) none
    lruList := lruList
    heap := heap }, ?_, rfl, hsame, hlist, fun key q => ?_⟩
  · rw [LRUCache.evictLocked, htail, hdelete]
    rfl
  · rw [hsame.blockKey]
    by_cases hkey : key = c.heap.blockKey p
    · simp only [hkey, Function.update_self]
      refine iff_of_false (Option.some_ne_none q).symm ?_
      rintro ⟨hq, hqkey⟩
      cases hr.eq_of_blockKey_eq (List.mem_append_left [p] hq) hp hqkey
      exact (List.nodup_append.mp hr.list.linked.nodup).2.2 p hq p List.mem_cons_self rfl
    · simp only [Function.update_of_ne hkey, hr.cache, List.mem_append, List.mem_singleton]
      constructor
      · rintro ⟨hq | rfl, hqkey⟩
        · exact ⟨hq, hqkey⟩
        · exact absurd hqkey.symm hkey
      · rintro ⟨hq, hqkey⟩
        exact ⟨.inl hq, hqkey⟩

/-- Put in a new block, before anything is evicted. -/
theorem insert (hr : Represents c nodes) (hmiss : c.cache key = none) (data : Bytes)
    (hinsert : c.lruList.insertBeginning c.heap.size (c.heap.newNode data key) = (lruList, heap)) :
    Represents { c with
        lruList := lruList
        heap := heap
        cache := Function.update c.cache key (some c.heap.size) } (c.heap.size :: nodes) ∧
      (c.heap.size :: nodes).map heap.entry = (key, data) :: nodes.map c.heap.entry := by
  have hcell : ∀ q ∈ nodes, (c.heap.newNode data key).cell q = c.heap.cell q := fun q hq =>
    BlockHeap.cell_newNode_of_lt (hr.list.allocated q hq)
  have hlist : IsList (c.heap.newNode data key) c.lruList nodes :=
    hr.list.congr (Nat.le_succ _) fun q hq =>
      ⟨congrArg Block.next (hcell q hq), congrArg Block.prev (hcell q hq)⟩
  have hnew : c.heap.size ∉ nodes := fun hmem => Nat.lt_irrefl _ (hr.list.allocated _ hmem)
  obtain ⟨hlist', hsame⟩ := hlist.insertBeginning hnew (Nat.lt_succ_self _)
  rw [hinsert] at hlist' hsame
  have hentry : heap.entry c.heap.size = (key, data) := by
    rw [hsame.entry]
    exact BlockHeap.entry_newNode_self
  have hentries : ∀ q ∈ nodes, heap.entry q = c.heap.entry q := by
    intro q hq
    rw [hsame.entry, BlockHeap.entry, BlockHeap.blockKey, BlockHeap.get, hcell q hq]
    rfl
  refine ⟨⟨hlist', fun key' q => ?_⟩, ?_⟩
  · have hkey : heap.blockKey c.heap.size = key := congrArg Prod.fst hentry
    have hkeys : ∀ q ∈ nodes, heap.blockKey q = c.heap.blockKey q := fun q hq =>
      congrArg Prod.fst (hentries q hq)
    -- the new node has the key, and no other node has it
    by_cases hkey' : key' = key
    · subst hkey'
      simp only [Function.update_self, Option.some.injEq]
      constructor
      · rintro rfl
        exact ⟨List.mem_cons_self, hkey⟩
      · rintro ⟨hq, hqkey⟩
        rcases List.mem_cons.mp hq with rfl | hq
        · rfl
        · exact absurd ((hkeys q hq).symm.trans hqkey) (hr.of_miss hmiss q hq)
    · simp only [Function.update_of_ne hkey', hr.cache]
      constructor
      · rintro ⟨hq, hqkey⟩
        exact ⟨List.mem_cons_of_mem _ hq, (hkeys q hq).trans hqkey⟩
      · rintro ⟨hq, hqkey⟩
        rcases List.mem_cons.mp hq with rfl | hq
        · exact absurd (hqkey.symm.trans hkey) hkey'
        · exact ⟨hq, (hkeys q hq).symm.trans hqkey⟩
  · rw [List.map_cons, hentry, List.map_congr_left hentries]

theorem put (hr : Represents c nodes) (hcap : 1 ≤ c.capacity) (hle : nodes.length ≤ c.capacity)
    (hkey : newBlockKey sum64 blockID filePath = key) (data : Bytes) :
    ∃ c' nodes', c.put sum64 filePath blockID data = some c' ∧ c'.capacity = c.capacity ∧
      Represents c' nodes' ∧
      nodes'.map c'.heap.entry = lruPut c.capacity.toNat key data (nodes.map c.heap.entry) := by
  have hpos : ¬c.capacity ≤ 0 := by omega
  cases hcache : c.cache key with
  | some p =>
    obtain ⟨lruList, heap, nodes', hmove, -, hr', hentries⟩ := hr.touch hle hcache data
    refine ⟨{ c with lruList := lruList, heap := heap }, nodes', ?_, rfl, hr', hentries⟩
    simp only [LRUCache.put, if_neg hpos, hkey, hcache, hmove, Option.map_some]
  | none =>
    obtain ⟨⟨lruList, heap⟩, hinsert⟩ :
        ∃ r, c.lruList.insertBeginning c.heap.size (c.heap.newNode data key) = r := ⟨_, rfl⟩
    obtain ⟨hr', hentries⟩ := hr.insert hcache data hinsert
    have hlength : lruList.length = nodes.length + 1 := by simpa using hr'.list.length
    simp only [LRUCache.put, if_neg hpos, hkey, hcache, hinsert]
    rw [lruPut_of_ne (hr.entries_of_miss hcache), ← hentries]
    by_cases hfull : lruList.length > c.capacity
    · -- one node more than fits, so the last one goes
      obtain ⟨nodes', p, hnodes⟩ : ∃ nodes' p, c.heap.size :: nodes = nodes' ++ [p] :=
        ⟨_, _, (List.dropLast_append_getLast (List.cons_ne_nil _ nodes)).symm⟩
      rw [hnodes] at hr' ⊢
      obtain ⟨c', hevict, hcapacity, hsame, hr'⟩ := hr'.evictLocked
      refine ⟨c', nodes', by rw [if_pos hfull, hevict], hcapacity, hr', ?_⟩
      have hlength' : nodes'.length = nodes.length := by simpa using congrArg List.length hnodes.symm
      rw [List.map_append, List.take_left' (by rw [List.length_map]; omega), hsame.entry]
    · refine ⟨_, _, if_neg hfull, rfl, hr', ?_⟩
      rw [List.take_of_length_le]
      rw [List.length_map, List.length_cons]
      omega

/-- A hit of `Get` is a use of the block with the data that it has. -/
theorem get_of_hit (hr : Represents c nodes) (hcap : 1 ≤ c.capacity)
    (hle : nodes.length ≤ c.capacity) (hkey : newBlockKey sum64 blockID filePath = key)
    (hhit : (nodes.map c.heap.entry).lookup key = some data) :
    ∃ c' nodes', c.get sum64 filePath blockID = some (c', some data) ∧ c'.capacity = c.capacity ∧
      Represents c' nodes' ∧
      nodes'.map c'.heap.entry = lruPut c.capacity.toNat key data (nodes.map c.heap.entry) := by
  have hpos : ¬c.capacity ≤ 0 := by omega
  rw [hr.lookup_entries, Option.map_eq_some_iff] at hhit
  obtain ⟨p, hcache, rfl⟩ := hhit
  obtain ⟨lruList, heap, nodes', hmove, hget, hr', hentries⟩ :=
    hr.touch hle hcache (c.heap.get p)
  rw [BlockHeap.set_get_self] at hmove
  refine ⟨{ c with lruList := lruList, heap := heap }, nodes', ?_, rfl, hr', hentries⟩
  simp only [LRUCache.get, if_neg hpos, hkey, hcache, hmove, Option.map_some, hget]

theorem get_of_miss (hr : Represents c nodes)
    (hkey : newBlockKey sum64 blockID filePath = key)
    (hmiss : (nodes.map c.heap.entry).lookup key = none) :
    c.get sum64 filePath blockID = some (c, none) := by
  rw [hr.lookup_entries, Option.map_eq_none_iff] at hmiss
  rw [LRUCache.get, hkey, hmiss]
  split <;> rfl

theorem length_le_size (hr : Represents c nodes) : nodes.length ≤ c.heap.size :=
  length_le_of_nodup_of_lt hr.list.linked.nodup hr.list.allocated

theorem forward (hr : Represents c nodes) : c.forward = some nodes := by
  rw [LRUCache.forward, hr.list.head]
  exact visit_eq hr.list.linked.forward.linked (Nat.lt_succ_of_le hr.length_le_size)

theorem backward (hr : Represents c nodes) : c.backward = some nodes.reverse := by
  rw [LRUCache.backward, hr.list.tail, ← List.head?_reverse]
  refine visit_eq hr.list.linked.backward.linked ?_
  rw [List.length_reverse]
  exact Nat.lt_succ_of_le hr.length_le_size

end Represents

/-! ## Sequences of operations -/

/-- A block is named by its file and its number. -/
abbrev BlockName := Bytes × Int

def BlockName.key (sum64 : Bytes → BlockKey) (block : BlockName) : BlockKey :=
  newBlockKey sum64 block.2 block.1

inductive CacheOp where
  | put (block : BlockName) (data : Bytes)
  | get (block : BlockName)

def CacheOp.block : CacheOp → BlockName
  | .put block _ => block
  | .get block => block

/-- The cache, and the blocks that were inserted or hit, most recent first. -/
structure TracedCache where
  cache : LRUCache
  touched : List BlockName

def TracedCache.new (capacity : Int) : TracedCache := ⟨.newLRUCache capacity, []⟩

/-- An operation; a `Put` inserts or hits if there is any room at all. -/
def step (sum64 : Bytes → BlockKey) : System TracedCache CacheOp
  | s, .put block data =>
    (s.cache.put sum64 block.1 block.2 data).map fun c =>
      ⟨c, if 0 < s.cache.capacity then block :: s.touched else s.touched⟩
  | s, .get block =>
    (s.cache.get sum64 block.1 block.2).map fun (c, result) =>
      ⟨c, if result.isSome then block :: s.touched else s.touched⟩

/-- The data of the latest `Put` of a block. -/
def latestPut (ops : List CacheOp) (block : BlockName) : Option Bytes :=
  ops.foldl (fun latest op =>
    match op with
    | .put block' data => if block' = block then some data else latest
    | .get _ => latest) none

theorem latestPut_put {ops : List CacheOp} {block block' : BlockName} {data : Bytes} :
    latestPut (ops ++ [.put block' data]) block =
      if block' = block then some data else latestPut ops block := by
  rw [latestPut, List.foldl_append]
  rfl

theorem latestPut_get {ops : List CacheOp} {block block' : BlockName} :
    latestPut (ops ++ [.get block']) block = latestPut ops block := by
  rw [latestPut, List.foldl_append]
  rfl

/-- What is known of the cache after some operations: it has the `contents`, which are the blocks
used last with the data put last. -/
structure Holds (sum64 : Bytes → BlockKey) (blocks : Set BlockName) (capacity : Int)
    (ops : List CacheOp) (s : TracedCache) (nodes : List Nat) (contents : List (BlockName × Bytes)) :
    Prop where
  represents : Represents s.cache nodes
  capacity_eq : s.cache.capacity = capacity
  entries : nodes.map s.cache.heap.entry = contents.map fun e => (e.1.key sum64, e.2)
  recent : contents.map Prod.fst = (recency s.touched).take capacity.toNat
  latest : ∀ e ∈ contents, latestPut ops e.1 = some e.2
  touched : ∀ block, block ∈ s.touched ↔ (latestPut ops block).isSome
  named : ∀ block ∈ s.touched, block ∈ blocks

namespace Holds
variable {sum64 : Bytes → BlockKey} {blocks : Set BlockName} {capacity : Int} {ops ops' : List CacheOp}
  {s : TracedCache} {nodes nodes' : List Nat} {contents : List (BlockName × Bytes)}
  {block : BlockName} {data : Bytes} {c : LRUCache}

theorem named_contents (h : Holds sum64 blocks capacity ops s nodes contents) :
    ∀ e ∈ contents, e.1 ∈ blocks := by
  intro e he
  have hrecent : e.1 ∈ (recency s.touched).take capacity.toNat := by
    rw [← h.recent]
    exact List.mem_map_of_mem he
  exact h.named _ (mem_recency.mp (List.mem_of_mem_take hrecent))

theorem length_le (h : Holds sum64 blocks capacity ops s nodes contents) (hcap : 0 ≤ capacity) :
    nodes.length ≤ capacity := by
  have hentries := congrArg List.length h.entries
  have hrecent := congrArg List.length h.recent
  rw [List.length_map, List.length_map] at hentries
  rw [List.length_map, List.length_take] at hrecent
  omega

/-- What `Get` finds. -/
theorem lookup (h : Holds sum64 blocks capacity ops s nodes contents)
    (hinj : Set.InjOn (BlockName.key sum64) blocks) (hblock : block ∈ blocks) :
    (nodes.map s.cache.heap.entry).lookup (block.key sum64) = contents.lookup block := by
  rw [h.entries]
  exact lookup_map_injOn hinj hblock h.named_contents

theorem nodup_contents (h : Holds sum64 blocks capacity ops s nodes contents) :
    (contents.map Prod.fst).Nodup := by
  rw [h.recent]
  exact (nodup_recency _).sublist (List.take_sublist _ _)

theorem latestPut_of_lookup (h : Holds sum64 blocks capacity ops s nodes contents)
    (hlookup : contents.lookup block = some data) : latestPut ops block = some data :=
  h.latest (block, data) ((lookup_eq_some_iff_mem h.nodup_contents).mp hlookup)

theorem lookup_contents (h : Holds sum64 blocks capacity ops s nodes contents)
    (block : BlockName) : contents.lookup block =
      if ((s.touched.takeWhile (· ≠ block)).toFinset.card : Int) < capacity then
        latestPut ops block
      else none := by
  have hmem : block ∈ contents.map Prod.fst ↔ block ∈ s.touched ∧
      ((s.touched.takeWhile (· ≠ block)).toFinset.card : Int) < capacity := by
    rw [h.recent, mem_take_recency, Int.lt_toNat]
  by_cases hblock : block ∈ contents.map Prod.fst
  · obtain ⟨⟨_, data⟩, he, rfl⟩ := List.mem_map.mp hblock
    rw [if_pos (hmem.mp hblock).2, h.latest _ he]
    exact (lookup_eq_some_iff_mem h.nodup_contents).mpr he
  · have hnone : contents.lookup block = none := by
      rw [List.lookup_eq_none_iff]
      intro e he
      rw [bne_iff_ne]
      rintro rfl
      exact hblock (List.mem_map_of_mem he)
    rw [hnone]
    split
    case isTrue hlt =>
      -- recent enough but not held: the block was never put
      have hnotTouched : block ∉ s.touched := fun htouched => hblock (hmem.mpr ⟨htouched, hlt⟩)
      rw [h.touched, Bool.not_eq_true, Option.isSome_eq_false_iff, Option.isNone_iff_eq_none]
        at hnotTouched
      exact hnotTouched.symm
    case isFalse => rfl

/-- A use of a block. -/
theorem touch (h : Holds sum64 blocks capacity ops s nodes contents)
    (hinj : Set.InjOn (BlockName.key sum64) blocks) (hblock : block ∈ blocks)
    (hr : Represents c nodes') (hcapacity : c.capacity = capacity)
    (hentries : nodes'.map c.heap.entry =
      lruPut capacity.toNat (block.key sum64) data (nodes.map s.cache.heap.entry))
    (hlatest : latestPut ops' block = some data)
    (hother : ∀ block', block' ≠ block → latestPut ops' block' = latestPut ops block') :
    Holds sum64 blocks capacity ops' ⟨c, block :: s.touched⟩ nodes'
      (lruPut capacity.toNat block data contents) where
  represents := hr
  capacity_eq := hcapacity
  entries := by
    rw [hentries, h.entries]
    exact lruPut_map hinj hblock h.named_contents
  recent := by
    rw [map_fst_lruPut, h.recent, ← take_recency_cons]
  latest e he := by
    rcases mem_of_mem_lruPut he with rfl | ⟨hmem, hne⟩
    · exact hlatest
    · rw [hother _ hne, h.latest e hmem]
  touched block' := by
    by_cases hblock' : block' = block
    · simp [hblock', hlatest]
    · rw [hother _ hblock', ← h.touched]
      simp [hblock']
  named block' hblock' := by
    rcases List.mem_cons.mp hblock' with rfl | hblock'
    · exact hblock
    · exact h.named block' hblock'

theorem new (sum64 : Bytes → BlockKey) (blocks : Set BlockName) (capacity : Int) :
    Holds sum64 blocks capacity [] (.new capacity) [] [] where
  represents := ⟨⟨rfl, rfl, rfl, ⟨List.nodup_nil, trivial, trivial⟩, by simp⟩,
    fun _ _ => by simp [TracedCache.new, LRUCache.newLRUCache]⟩
  capacity_eq := rfl
  entries := rfl
  recent := List.take_nil.symm
  latest := by simp
  touched := by simp [TracedCache.new, latestPut]
  named := by simp [TracedCache.new]

theorem capacity_pos (h : Holds sum64 blocks capacity ops s nodes contents) (hcap : 1 ≤ capacity) :
    1 ≤ s.cache.capacity ∧ nodes.length ≤ s.cache.capacity := by
  rw [h.capacity_eq]
  exact ⟨hcap, h.length_le (by omega)⟩

theorem put (h : Holds sum64 blocks capacity ops s nodes contents) (hcap : 1 ≤ capacity)
    (hinj : Set.InjOn (BlockName.key sum64) blocks) (hblock : block ∈ blocks) (data : Bytes) :
    ∃ s' nodes' contents', step sum64 s (.put block data) = some s' ∧
      Holds sum64 blocks capacity (ops ++ [.put block data]) s' nodes' contents' := by
  obtain ⟨hpos, hle⟩ := h.capacity_pos hcap
  obtain ⟨c, nodes', hput, hcapacity, hr, hentries⟩ := h.represents.put hpos hle rfl data
  rw [h.capacity_eq] at hcapacity hentries
  refine ⟨⟨c, block :: s.touched⟩, nodes', _, ?_, h.touch hinj hblock hr hcapacity hentries ?_ ?_⟩
  · rw [step, hput, Option.map_some, if_pos (show 0 < s.cache.capacity by omega)]
  · rw [latestPut_put, if_pos rfl]
  · intro block' hne
    rw [latestPut_put, if_neg hne.symm]

theorem get (h : Holds sum64 blocks capacity ops s nodes contents) (hcap : 1 ≤ capacity)
    (hinj : Set.InjOn (BlockName.key sum64) blocks) (hblock : block ∈ blocks) :
    ∃ s' nodes' contents', step sum64 s (.get block) = some s' ∧
      s.cache.get sum64 block.1 block.2 = some (s'.cache, contents.lookup block) ∧
      Holds sum64 blocks capacity (ops ++ [.get block]) s' nodes' contents' := by
  obtain ⟨hpos, hle⟩ := h.capacity_pos hcap
  have hlookup' := h.lookup hinj hblock
  cases hlookup : contents.lookup block with
  | some data =>
    obtain ⟨c, nodes', hget, hcapacity, hr, hentries⟩ :=
      h.represents.get_of_hit hpos hle rfl (hlookup'.trans hlookup)
    rw [h.capacity_eq] at hcapacity hentries
    refine ⟨⟨c, block :: s.touched⟩, nodes', _, ?_, hget,
      h.touch hinj hblock hr hcapacity hentries ?_ fun _ _ => latestPut_get⟩
    · rw [step, hget]
      rfl
    · rw [latestPut_get, h.latestPut_of_lookup hlookup]
  | none =>
    have hget := h.represents.get_of_miss rfl (hlookup'.trans hlookup)
    refine ⟨s, nodes, contents, ?_, hget, { h with latest := ?_, touched := ?_ }⟩
    · rw [step, hget]
      rfl
    · simpa only [latestPut_get] using h.latest
    · simpa only [latestPut_get] using h.touched

/-- Every sequence of operations returns. -/
theorem exists_run (hcap : 1 ≤ capacity) (hinj : Set.InjOn (BlockName.key sum64) blocks)
    (hops : ∀ op ∈ ops, op.block ∈ blocks) :
    ∃ s nodes contents, (step sum64).run (.new capacity) ops = some s ∧
      Holds sum64 blocks capacity ops s nodes contents := by
  induction ops using List.reverseRecOn with
  | nil => exact ⟨_, _, _, rfl, new sum64 blocks capacity⟩
  | append_singleton ops op ih =>
    obtain ⟨s, nodes, contents, hrun, h⟩ := ih fun op' hop => hops op' (List.mem_append_left _ hop)
    have hop := hops op (List.mem_append_right _ List.mem_cons_self)
    cases op with
    | put block data =>
      obtain ⟨s', nodes', contents', hstep, h'⟩ := h.put hcap hinj hop data
      exact ⟨s', nodes', contents', System.run_concat.mpr ⟨s, hrun, hstep⟩, h'⟩
    | get block =>
      obtain ⟨s', nodes', contents', hstep, -, h'⟩ := h.get hcap hinj hop
      exact ⟨s', nodes', contents', System.run_concat.mpr ⟨s, hrun, hstep⟩, h'⟩

end Holds

/-- After every sequence of operations on blocks whose keys do not collide: the list has the same
nodes from the head on as from the tail back, their number is the recorded length and at most the
capacity, the map finds exactly these nodes, and they are those of the blocks used most recently, in
this order. `Get` returns the data of the latest `Put` if fewer other blocks than the capacity were
inserted or hit since the block was, and otherwise nothing. -/
theorem lruCache_holds_recent (sum64 : Bytes → BlockKey) {capacity : Int} (hcap : 1 ≤ capacity)
    {blocks : Set BlockName} (hinj : Set.InjOn (BlockName.key sum64) blocks) (ops : List CacheOp)
    (hops : ∀ op ∈ ops, op.block ∈ blocks) :
    ∃ s nodes, (step sum64).run (.new capacity) ops = some s ∧
      s.cache.forward = some nodes ∧ s.cache.backward = some nodes.reverse ∧
      s.cache.lruList.head = nodes.head? ∧ s.cache.lruList.tail = nodes.getLast? ∧
      s.cache.len = nodes.length ∧ nodes.length ≤ capacity ∧
      (∀ key p, s.cache.cache key = some p ↔ p ∈ nodes ∧ s.cache.heap.blockKey p = key) ∧
      nodes.map s.cache.heap.blockKey =
        ((recency s.touched).take capacity.toNat).map (BlockName.key sum64) ∧
      ∀ block ∈ blocks, ∃ c, s.cache.get sum64 block.1 block.2 = some (c,
        if ((s.touched.takeWhile (· ≠ block)).toFinset.card : Int) < capacity then
          latestPut ops block
        else none) := by
  obtain ⟨s, nodes, contents, hrun, h⟩ := Holds.exists_run hcap hinj hops
  have hr := h.represents
  have hle := h.length_le (by omega)
  refine ⟨s, nodes, hrun, hr.forward, hr.backward, hr.list.head, hr.list.tail, hr.list.length, hle,
    hr.cache, ?_, fun block hblock => ?_⟩
  · have hkeys := congrArg (List.map Prod.fst) h.entries
    rw [List.map_map, List.map_map] at hkeys
    rw [← h.recent, List.map_map]
    exact hkeys
  · obtain ⟨s', -, -, -, hget, -⟩ := h.get hcap hinj hblock
    rw [← h.lookup_contents]
    exact ⟨s'.cache, hget⟩

/-- Room for two blocks: the hit of block 0 keeps it, and the third block evicts block 1. -/
theorem lruCache_holds_recent_evicts :
    let sum64 : Bytes → BlockKey := fun data => (data.getLastD 0).toUInt64
    ∃ s, (step sum64).run (.new 2) [.put ([102], 0) [97], .put ([102], 1) [98], .get ([102], 0),
        .put ([102], 2) [99]] = some s ∧
      (∃ c, s.cache.get sum64 [102] 0 = some (c, some [97])) ∧
      ∃ c, s.cache.get sum64 [102] 1 = some (c, none) := by
  intro sum64
  have hkeys : ∀ b ∈ [([102], 0), ([102], 1), ([102], 2)],
      ∀ b' ∈ [([102], 0), ([102], 1), ([102], 2)],
      BlockName.key sum64 b = BlockName.key sum64 b' → b = b' := by decide +kernel
  have hinj : Set.InjOn (BlockName.key sum64) { b | b ∈ [([102], 0), ([102], 1), ([102], 2)] } :=
    fun b hb b' hb' h => hkeys b hb b' hb' h
  obtain ⟨s, -, hrun, -, -, -, -, -, -, -, -, hget⟩ := lruCache_holds_recent sum64
    (show (1 : Int) ≤ 2 by decide) hinj
    [.put ([102], 0) [97], .put ([102], 1) [98], .get ([102], 0), .put ([102], 2) [99]]
    (by simp [CacheOp.block])
  have htouched : some s.touched = some [([102], 2), ([102], 0), ([102], 1), ([102], 0)] := by
    rw [← Option.map_some, ← hrun]
    decide +kernel
  refine ⟨s, hrun, ?_, ?_⟩
  · obtain ⟨c, hc⟩ := hget ([102], 0) (by decide)
    rw [Option.some.inj htouched] at hc
    exact ⟨c, hc⟩
  · obtain ⟨c, hc⟩ := hget ([102], 1) (by decide)
    rw [Option.some.inj htouched] at hc
    exact ⟨c, hc⟩

end ChudDB.BlockCache
