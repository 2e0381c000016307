import ChudDB.Engine.Interleaving

/-! # Writes during a snapshot

`drainActiveMem` copies the active memtable, pushes the copy and then replaces the memtable, without
stopping the writer. A write that is added to the memtable after the copy, or to another memtable
that the drain then replaces, is dropped. As long as neither happens, every completed write stays in
the active memtable, the queue or a registered table, or is overwritten there. -/

namespace ChudDB
open Lib Wal

variable {M : Type} [Memtable M]

namespace Shared

/-- The entries of the active memtable. -/
def active (s : Shared M) : List KeyValue := Memtable.toRaw (s.mem s.activeMem)

/-- The entries of the registered tables. -/
def tables (s : Shared M) : List (List KeyValue) :=
  (s.versions.flatten.filterMap s.getOrOpen).map (·.entries)

/-- The entries of the queue and of the registered tables. -/
def frozen (s : Shared M) : List (List KeyValue) := s.immQueue.map (·.data) ++ s.tables

/-- Write number `i` of `ws`, which is `w`, or a later write to its key is found in the active
memtable, the queue or a registered table. -/
def Found (s : Shared M) (ws : List Write) (i : Nat) (w : Write) : Prop :=
  ∃ l ∈ s.active :: s.frozen, ∃ w' ∈ ws.drop i, w'.key = w.key ∧ l.lookup w.key = some w'.value

instance (s : Shared M) : Decidable (s.Found ws i w) :=
  inferInstanceAs (Decidable (∃ l ∈ _, ∃ w' ∈ _, _ ∧ _))

end Shared

namespace Running

/-- The writes for which `applyWriteToMem` has returned. -/
def completed (s : Running M) : List Write :=
  match s.writer with
  | .idle => s.hist
  | _ => s.hist.dropLast

/-- The writes that were added to a memtable. -/
def applied (s : Running M) : List Write :=
  match s.writer with
  | .appended _ | .loaded _ _ => s.hist.dropLast
  | _ => s.hist

/-- The drain holds a copy of this memtable. -/
def Copied (p : MemRef) : Snapshotter → Prop
  | .copied q _ | .sealed q _ | .pushed q => q = p
  | _ => False

instance : Decidable (Copied p c) :=
  match c with
  | .copied .. | .sealed .. | .pushed _ => inferInstanceAs (Decidable (_ = p))
  | .idle | .loaded _ | .nonempty _ | .swapped _ | .drained | .waiting _ => isFalse not_false

/-- `Add` goes to the active memtable, and not after a drain has copied it. -/
def AddKept (s : Running M) : Prop :=
  match s.writer with
  | .loaded _ p => p = s.activeMem ∧ ¬Copied p s.snapshotter
  | _ => True

/-- A drain replaces the memtable it has copied or an empty one. -/
def SwapKept (s : Running M) : Prop :=
  match s.snapshotter with
  | .pushed p => p = s.activeMem ∨ s.active = []
  | _ => True

omit [Memtable M] in
instance (s : Running M) : Decidable s.AddKept :=
  match s with
  | { writer := .loaded .., .. } => inferInstanceAs (Decidable (_ ∧ ¬ _))
  | { writer := .idle, .. } | { writer := .appended _, .. } | { writer := .added .., .. }
  | { writer := .full .., .. } | { writer := .copied .., .. } | { writer := .pushed _, .. }
  | { writer := .swapped _, .. } => isTrue trivial

instance (s : Running M) : Decidable s.SwapKept :=
  match s with
  | { snapshotter := .pushed _, .. } => inferInstanceAs (Decidable (_ ∨ _))
  | { snapshotter := .idle, .. } | { snapshotter := .loaded _, .. }
  | { snapshotter := .nonempty _, .. } | { snapshotter := .copied .., .. }
  | { snapshotter := .sealed .., .. } | { snapshotter := .swapped _, .. }
  | { snapshotter := .drained, .. } | { snapshotter := .waiting _, .. } => isTrue trivial

def NoLoss (s : Running M) : Action → Prop
  | .writer => s.AddKept
  | .snapshotter => s.SwapKept
  | _ => True

instance (s : Running M) : DecidablePred s.NoLoss
  | .writer => inferInstanceAs (Decidable s.AddKept)
  | .snapshotter => inferInstanceAs (Decidable s.SwapKept)
  | .append .. | .takeSnapshot | .flusher _ | .rotate => isTrue trivial

end Running

/-! ## The invariant -/

/-- Lookups in `l` are lookups in `l'`. -/
def Includes (l l' : List KeyValue) : Prop := ∀ k v, l.lookup k = some v → l'.lookup k = some v

namespace Shared

/-- What the active memtable holds is in the queue or a table, too. -/
def Backed (s : Shared M) : Prop :=
  ∀ k v, s.active.lookup k = some v → ∃ l ∈ s.frozen, l.lookup k = some v

def WriterOK (s : Shared M) : Writer → Prop
  | .idle => True
  | .appended w => ∃ past, s.hist = past ++ [w]
  | .loaded w p => p < s.mems.length ∧ ∃ past, s.hist = past ++ [w]
  | .added _ p | .full _ p => p < s.mems.length ∧ (p = s.activeMem ∨ s.active = [])
  | .copied p im => p < s.mems.length ∧ Includes s.active im.data
  | .pushed p => p < s.mems.length ∧ s.Backed
  | .swapped p => p < s.mems.length ∧ p ≠ s.activeMem

def SnapshotterOK (s : Shared M) : Snapshotter → Prop
  | .loaded p | .nonempty p => p < s.mems.length
  | .copied p raw => p < s.mems.length ∧ (p = s.activeMem → Includes s.active (sortByKeys raw))
  | .sealed p im => p < s.mems.length ∧ (p = s.activeMem → Includes s.active im.data)
  | .pushed p => p < s.mems.length ∧ (p = s.activeMem → s.Backed)
  | .swapped p => p < s.mems.length ∧ p ≠ s.activeMem
  | _ => True

def FlusherOK (s : Shared M) : Flusher → Prop
  | .peeked im => s.immQueue.head? = some im
  | .written im path =>
    s.immQueue.head? = some im ∧ s.getOrOpen path = some ⟨im.data, im.maxLSN⟩
  | .registered im => s.immQueue.head? = some im ∧ im.data ∈ s.tables
  | .purged => ∃ im, s.immQueue.head? = some im ∧ im.data ∈ s.tables
  | _ => True

variable {cfg : Config} {s s' : Shared M}

/-! ## What a step leaves alone -/

/-- A change that keeps what the queue and the tables hold, and keeps the active memtable or
replaces it by a new one when its content is in the queue or a table. -/
structure Frame (s s' : Shared M) : Prop where
  frozen : ∀ l ∈ s.frozen, l ∈ s'.frozen
  length : s.mems.length ≤ s'.mems.length
  active : s'.activeMem = s.activeMem ∧ s'.active = s.active ∨
    s.mems.length ≤ s'.activeMem ∧ s'.active = [] ∧ s.Backed

namespace Frame

theorem found (h : Frame s s') (hf : s.Found ws i w) : s'.Found ws i w := by
  obtain ⟨l, hl, w', hw', hkey, hlook⟩ := hf
  have hfrozen : ∀ l ∈ s.frozen, l ∈ s'.active :: s'.frozen :=
    fun l hl => List.mem_cons_of_mem _ (h.frozen l hl)
  rcases List.mem_cons.mp hl with rfl | hl
  · rcases h.active with ⟨-, hactive⟩ | ⟨-, -, hbacked⟩
    · exact ⟨s'.active, List.mem_cons_self, w', hw', hkey, by rw [hactive]; exact hlook⟩
    · obtain ⟨l, hl, hlook⟩ := hbacked _ _ hlook
      exact ⟨l, hfrozen l hl, w', hw', hkey, hlook⟩
  · exact ⟨l, hfrozen l hl, w', hw', hkey, hlook⟩

theorem includes (h : Frame s s') (hi : Includes s.active l) : Includes s'.active l := by
  rcases h.active with ⟨-, hactive⟩ | ⟨-, hactive, -⟩
  · rw [hactive]
    exact hi
  · rw [hactive]
    intro k v hk
    cases hk

theorem backed (h : Frame s s') (hb : s.Backed) : s'.Backed := by
  intro k v hk
  rcases h.active with ⟨-, hactive⟩ | ⟨-, hactive, -⟩
  · rw [hactive] at hk
    obtain ⟨l, hl, hlook⟩ := hb k v hk
    exact ⟨l, h.frozen l hl, hlook⟩
  · rw [hactive] at hk
    cases hk

theorem ne_active (h : Frame s s') (hp : p < s.mems.length) (hne : p ≠ s.activeMem) :
    p ≠ s'.activeMem := by
  rcases h.active with ⟨hmem, -⟩ | ⟨hmem, -⟩
  · rwa [hmem]
  · omega

theorem of_eq_active (h : Frame s s') (hp : p < s.mems.length) (heq : p = s'.activeMem) :
    p = s.activeMem := by
  rcases h.active with ⟨hmem, -⟩ | ⟨hmem, -⟩
  · rw [heq, hmem]
  · omega

theorem writerOK {pc : Writer} (h : Frame s s') (hh : s'.hist = s.hist) (hok : s.WriterOK pc) :
    s'.WriterOK pc := by
  have hlen := h.length
  cases pc with
  | idle => trivial
  | appended w =>
    obtain ⟨past, hpast⟩ := hok
    exact ⟨past, hh.trans hpast⟩
  | loaded w p =>
    obtain ⟨hp, past, hpast⟩ := hok
    exact ⟨hp.trans_le hlen, past, hh.trans hpast⟩
  | added w p | full w p =>
    refine ⟨hok.1.trans_le hlen, ?_⟩
    rcases h.active with ⟨hmem, hactive⟩ | ⟨-, hactive, -⟩
    · rw [hmem, hactive]
      exact hok.2
    · exact .inr hactive
  | copied p im => exact ⟨hok.1.trans_le hlen, h.includes hok.2⟩
  | pushed p => exact ⟨hok.1.trans_le hlen, h.backed hok.2⟩
  | swapped p => exact ⟨hok.1.trans_le hlen, h.ne_active hok.1 hok.2⟩

theorem snapshotterOK {pc : Snapshotter} (h : Frame s s') (hok : s.SnapshotterOK pc) :
    s'.SnapshotterOK pc := by
  have hlen := h.length
  cases pc with
  | idle | drained | waiting => trivial
  | loaded p | nonempty p => exact Nat.lt_of_lt_of_le hok hlen
  | copied p raw | sealed p im =>
    exact ⟨hok.1.trans_le hlen, fun heq => h.includes (hok.2 (h.of_eq_active hok.1 heq))⟩
  | pushed p =>
    exact ⟨hok.1.trans_le hlen, fun heq => h.backed (hok.2 (h.of_eq_active hok.1 heq))⟩
  | swapped p => exact ⟨hok.1.trans_le hlen, h.ne_active hok.1 hok.2⟩

end Frame

/-- A change that keeps the head of the queue, the files and the registered tables. -/
structure Steady (s s' : Shared M) : Prop where
  head : ∀ im, s.immQueue.head? = some im → s'.immQueue.head? = some im
  files : ∀ p t, s.getOrOpen p = some t → s'.getOrOpen p = some t
  tables : ∀ l ∈ s.tables, l ∈ s'.tables

omit [Memtable M] in
theorem Steady.flusherOK {pc : Flusher} (h : Steady s s') (hok : s.FlusherOK pc) :
    s'.FlusherOK pc := by
  cases pc with
  | idle | popped => trivial
  | peeked im => exact h.head im hok
  | written im path => exact ⟨h.head im hok.1, h.files _ _ hok.2⟩
  | registered im => exact ⟨h.head im hok.1, h.tables _ hok.2⟩
  | purged =>
    obtain ⟨im, him, hmem⟩ := hok
    exact ⟨im, h.head im him, h.tables _ hmem⟩

/-! ## The changes -/

theorem active_swap : s.swap.active = [] := by
  simp [active, swap, mem, Memtable.toRaw_new]

theorem active_clear (hp : p ≠ s.activeMem) : (s.clear p).active = s.active := by
  simp [active, clear, mem, List.getD_eq_getElem?_getD, List.getElem?_set_ne hp]

/-- Changes of the log, the counters and the history. -/
theorem frame_log :
    Frame s { s with wal := w, popped := m, flushed := n, hist := h, snapshots := l } :=
  ⟨fun _ hl => hl, Nat.le_refl _, .inl ⟨rfl, rfl⟩⟩

theorem frame_push : Frame s { s with immQueue := s.immQueue ++ [im] } := by
  refine ⟨?_, Nat.le_refl _, .inl ⟨rfl, rfl⟩⟩
  intro l hl
  rcases List.mem_append.mp hl with hl | hl
  · obtain ⟨im', him', rfl⟩ := List.mem_map.mp hl
    exact List.mem_append_left _ (List.mem_map_of_mem (List.mem_append_left _ him'))
  · exact List.mem_append_right _ hl

theorem frame_swap (hb : s.Backed) : Frame s s.swap :=
  ⟨fun _ hl => hl, by simp [swap], .inr ⟨Nat.le_refl _, active_swap, hb⟩⟩

theorem frame_clear (hp : p ≠ s.activeMem) : Frame s (s.clear p) :=
  ⟨fun _ hl => hl, by simp [clear], .inl ⟨rfl, active_clear hp⟩⟩

omit [Memtable M] in
theorem getOrOpen_congr (hf : s'.files = s.files) : s'.getOrOpen = s.getOrOpen := by
  funext p
  rw [Engine.getOrOpen, hf, Engine.getOrOpen]

omit [Memtable M] in
theorem tables_congr (hv : s'.versions = s.versions) (hf : s'.files = s.files) :
    s'.tables = s.tables := by
  rw [tables, hv, getOrOpen_congr hf, tables]

omit [Memtable M] in
theorem steady_of_eq (hq : s'.immQueue = s.immQueue) (hv : s'.versions = s.versions)
    (hf : s'.files = s.files) : Steady s s' :=
  ⟨fun _ him => hq ▸ him, fun _ _ ht => getOrOpen_congr hf ▸ ht,
    fun _ hl => tables_congr hv hf ▸ hl⟩

omit [Memtable M] in
theorem steady_push : Steady s { s with immQueue := s.immQueue ++ [im] } := by
  refine ⟨fun im' him' => ?_, fun _ _ h => h, fun _ h => h⟩
  obtain ⟨rest, hrest⟩ := List.head?_eq_some_iff.mp him'
  simp [hrest]

omit [Memtable M] in
theorem mem_tables :
    l ∈ s.tables ↔ ∃ p ∈ s.versions.flatten, ∃ t, s.getOrOpen p = some t ∧ t.entries = l := by
  simp only [tables, List.mem_map, List.mem_filterMap]
  constructor
  · rintro ⟨t, ⟨p, hp, ht⟩, rfl⟩
    exact ⟨p, hp, t, ht, rfl⟩
  · rintro ⟨p, hp, t, ht, rfl⟩
    exact ⟨t, ⟨p, hp, ht⟩, rfl⟩

omit [Memtable M] in
/-- A new file is not one of the registered tables. -/
theorem getOrOpen_writeTable (hfresh : s.getOrOpen path = none) (ht : s.getOrOpen p = some t) :
    (s.writeTable path t').getOrOpen p = some t := by
  have hne : p ≠ path := by
    rintro rfl
    rw [hfresh] at ht
    cases ht
  rw [Engine.getOrOpen, Engine.writeTable, List.lookup_cons, beq_eq_false_iff_ne.mpr hne]
  exact ht

omit [Memtable M] in
theorem tables_writeTable (hfresh : s.getOrOpen path = none) (hl : l ∈ s.tables) :
    l ∈ tables { s with toEngine := s.writeTable path t } := by
  obtain ⟨p, hp, t', ht', rfl⟩ := mem_tables.mp hl
  exact mem_tables.mpr ⟨p, hp, t', getOrOpen_writeTable hfresh ht', rfl⟩

theorem frame_writeTable (hfresh : s.getOrOpen path = none) :
    Frame s { s with toEngine := s.writeTable path t } := by
  refine ⟨?_, Nat.le_refl _, .inl ⟨rfl, rfl⟩⟩
  intro l hl
  rcases List.mem_append.mp hl with hl | hl
  · exact List.mem_append_left _ hl
  · exact List.mem_append_right _ (tables_writeTable hfresh hl)

omit [Memtable M] in
theorem tables_register (hl : l ∈ s.tables) :
    l ∈ tables { s with versions := Engine.registerSSTable 0 path s.versions } := by
  obtain ⟨p, hp, t, ht, rfl⟩ := mem_tables.mp hl
  refine mem_tables.mpr ⟨p, ?_, t, ht, rfl⟩
  cases hv : s.versions with
  | nil =>
    rw [hv] at hp
    cases hp
  | cons level0 deeper =>
    rw [hv] at hp
    simp only [Engine.registerSSTable, List.modify_zero_cons, List.flatten_cons,
      List.mem_append] at hp ⊢
    tauto

omit [Memtable M] in
theorem mem_tables_register (hv : 0 < s.versions.length) (ht : s.getOrOpen path = some t) :
    t.entries ∈ tables { s with versions := Engine.registerSSTable 0 path s.versions } := by
  refine mem_tables.mpr ⟨path, ?_, t, ht, rfl⟩
  cases hv' : s.versions with
  | nil => simp [hv'] at hv
  | cons level0 deeper => simp [Engine.registerSSTable]

theorem frame_register :
    Frame s { s with versions := Engine.registerSSTable 0 path s.versions } := by
  refine ⟨?_, Nat.le_refl _, .inl ⟨rfl, rfl⟩⟩
  intro l hl
  rcases List.mem_append.mp hl with hl | hl
  · exact List.mem_append_left _ hl
  · exact List.mem_append_right _ (tables_register hl)

theorem frame_pop (him : s.immQueue.head? = some im) (hmem : im.data ∈ s.tables) :
    Frame s { s with immQueue := s.immQueue.tail, popped := n } := by
  refine ⟨?_, Nat.le_refl _, .inl ⟨rfl, rfl⟩⟩
  obtain ⟨rest, hrest⟩ := List.head?_eq_some_iff.mp him
  intro l hl
  rcases List.mem_append.mp hl with hl | hl
  · rw [hrest, List.map_cons, List.mem_cons] at hl
    rcases hl with rfl | hl
    · exact List.mem_append_right _ hmem
    · exact List.mem_append_left _ (by rw [hrest]; exact hl)
  · exact List.mem_append_right _ hl

/-- `Add` to the active memtable overwrites one key. -/
theorem lookup_active_add (hp : s.activeMem < s.mems.length) :
    (s.add s.activeMem key value).active.lookup k =
      if k = key then some value else s.active.lookup k := by
  have hmem : (s.add s.activeMem key value).mem s.activeMem =
      Memtable.add (s.mem s.activeMem) key value := by
    simp [add, mem, List.getD_eq_getElem?_getD, List.getElem?_set_self hp]
  rw [active, active, ← Memtable.lookup_add, ← hmem]
  rfl

end Shared

namespace Running
open Shared

variable {cfg : Config} {s s' : Running M}

structure LossInv (cfg : Config) (s : Running M) : Prop where
  levels : s.versions.length = cfg.lsmLevels
  ref : s.activeMem < s.mems.length
  found : ∀ i w, s.applied[i]? = some w → s.Found s.applied i w
  writer : s.WriterOK s.writer
  snapshotter : s.SnapshotterOK s.snapshotter
  flusher : s.FlusherOK s.flusher

namespace LossInv

theorem init : LossInv cfg (init cfg w : Running M) where
  levels := by simp [Running.init]
  ref := by simp [Running.init]
  found := by simp [applied, Running.init]
  writer := trivial
  snapshotter := trivial
  flusher := trivial

/-- A step within a frame. -/
theorem move (h : LossInv cfg s) (hf : Frame s.toShared s'.toShared)
    (hv : s'.versions.length = s.versions.length) (hr : s'.activeMem < s'.mems.length)
    (ha : s'.applied = s.applied) (hw : s'.WriterOK s'.writer)
    (hs : s'.SnapshotterOK s'.snapshotter) (hfl : s'.FlusherOK s'.flusher) : LossInv cfg s' where
  levels := hv.trans h.levels
  ref := hr
  found := by
    rw [ha]
    exact fun i w hi => hf.found (h.found i w hi)
  writer := hw
  snapshotter := hs
  flusher := hfl

/-- A step of the writer within a frame. -/
theorem move_writer {pc : Writer} {t : Shared M} (h : LossInv cfg s)
    (hf : Frame s.toShared t) (hst : Steady s.toShared t)
    (hv : t.versions = s.versions) (hr : t.activeMem < t.mems.length)
    (ha : applied { s with toShared := t, writer := pc } = s.applied) (hw : t.WriterOK pc) :
    LossInv cfg { s with toShared := t, writer := pc } :=
  h.move hf (by rw [hv]) hr ha hw (hf.snapshotterOK h.snapshotter) (hst.flusherOK h.flusher)

/-- A step of the snapshot within a frame. -/
theorem move_snapshotter {pc : Snapshotter} {t : Shared M} (h : LossInv cfg s)
    (hf : Frame s.toShared t) (hst : Steady s.toShared t)
    (hv : t.versions = s.versions) (hr : t.activeMem < t.mems.length) (hh : t.hist = s.hist)
    (hs : t.SnapshotterOK pc) : LossInv cfg { s with toShared := t, snapshotter := pc } :=
  h.move hf (by rw [hv]) hr (by simp only [applied, hh]) (hf.writerOK hh h.writer) hs
    (hst.flusherOK h.flusher)

/-- A step of the writer that changes nothing shared. -/
theorem stay_writer {pc : Writer} (h : LossInv cfg s)
    (ha : applied { s with writer := pc } = s.applied) (hw : s.WriterOK pc) :
    LossInv cfg { s with writer := pc } :=
  h.move_writer frame_log (steady_of_eq rfl rfl rfl) rfl h.ref
    ha hw

/-- A step of the snapshot that changes nothing shared. -/
theorem stay_snapshotter {pc : Snapshotter} (h : LossInv cfg s) (hs : s.SnapshotterOK pc) :
    LossInv cfg { s with snapshotter := pc } :=
  h.move_snapshotter frame_log (steady_of_eq rfl rfl rfl) rfl
    h.ref rfl hs

/-- A step of the flusher within a frame. -/
theorem move_flusher {pc : Flusher} {t : Shared M} (h : LossInv cfg s)
    (hf : Frame s.toShared t) (hv : t.versions.length = s.versions.length)
    (hr : t.activeMem < t.mems.length) (hh : t.hist = s.hist) (hfl : t.FlusherOK pc) :
    LossInv cfg { s with toShared := t, flusher := pc } :=
  h.move hf hv hr (by simp only [applied, hh]) (hf.writerOK hh h.writer)
    (hf.snapshotterOK h.snapshotter) hfl

theorem append (h : LossInv cfg s) (hstep : s.appendStep cfg key value = some s') :
    LossInv cfg s' := by
  rw [appendStep] at hstep
  split at hstep
  · rename_i hidle
    have happ : s.applied = s.hist := by rw [applied, hidle]
    rw [Shared.append] at hstep
    cases hrun : (Engine.appendToWal cfg key value).run s.wal with
    | ok lsn wal =>
      rw [hrun] at hstep
      cases hstep
      refine h.move_writer frame_log
        (steady_of_eq rfl rfl rfl) rfl h.ref ?_ ⟨_, rfl⟩
      rw [happ]
      exact List.dropLast_concat
    | error e wal =>
      rw [hrun] at hstep
      cases hstep
      have hf : Frame s.toShared { s.toShared with wal := wal } :=
        frame_log
      exact h.move hf rfl h.ref rfl (hf.writerOK rfl h.writer) (hf.snapshotterOK h.snapshotter)
        h.flusher
  · cases hstep

/-- `Add` to the active memtable, when no drain holds a copy of it. -/
theorem add (h : LossInv cfg s) (hw : s.writer = .loaded w s.activeMem)
    (hcopy : ¬Copied s.activeMem s.snapshotter) :
    LossInv cfg { s with
      toShared := s.add s.activeMem w.key w.value, writer := .added w s.activeMem } := by
  have hwriter := h.writer
  rw [hw] at hwriter
  obtain ⟨-, past, hpast⟩ := hwriter
  refine ⟨h.levels, by simpa [Shared.add] using h.ref, ?_, ⟨by simpa [Shared.add] using h.ref,
    .inl rfl⟩, ?_, h.flusher⟩
  · intro i w₀ hi
    have hi : (past ++ [w])[i]? = some w₀ := hpast ▸ hi
    have hlt : i < past.length + 1 := by simpa using (List.getElem?_eq_some_iff.mp hi).1
    have happ : s.applied = past := by
      simp only [applied, hw, hpast, List.dropLast_concat]
    change Shared.Found _ s.hist i w₀
    rw [hpast]
    have hdrop : (past ++ [w]).drop i = past.drop i ++ [w] :=
      List.drop_append_of_le_length (Nat.le_of_lt_succ hlt)
    have hlast : w ∈ (past ++ [w]).drop i := by
      rw [hdrop]
      exact List.mem_append_right _ List.mem_cons_self
    by_cases hkey : w₀.key = w.key
    · -- the new write overwrites every earlier one to its key
      refine ⟨_, List.mem_cons_self, w, hlast, hkey.symm, ?_⟩
      rw [lookup_active_add h.ref, if_pos hkey]
    · have hi' : s.applied[i]? = some w₀ := by
        rw [happ]
        rcases Nat.lt_succ_iff_lt_or_eq.mp hlt with hlt | rfl
        · rwa [List.getElem?_append_left hlt] at hi
        · rw [List.getElem?_concat_length] at hi
          cases hi
          exact absurd rfl hkey
      obtain ⟨l, hl, w', hw', hkey', hlook⟩ := h.found i w₀ hi'
      rw [happ] at hw'
      replace hw' : w' ∈ (past ++ [w]).drop i := by
        rw [hdrop]
        exact List.mem_append_left _ hw'
      rcases List.mem_cons.mp hl with rfl | hl
      · refine ⟨_, List.mem_cons_self, w', hw', hkey', ?_⟩
        rw [lookup_active_add h.ref, if_neg hkey]
        exact hlook
      · exact ⟨l, List.mem_cons_of_mem _ hl, w', hw', hkey', hlook⟩
  · have hsnap := h.snapshotter
    have hlen : (s.add s.activeMem w.key w.value).mems.length = s.mems.length := by
      simp [Shared.add]
    -- a copy that is already taken is not of the active memtable
    cases hpc : s.snapshotter with
    | idle | drained | waiting => trivial
    | loaded q | nonempty q =>
      rw [hpc] at hsnap
      exact hsnap.trans_eq hlen.symm
    | copied q raw | sealed q im | pushed q =>
      rw [hpc] at hsnap hcopy
      exact ⟨hsnap.1.trans_eq hlen.symm, fun heq => absurd heq hcopy⟩
    | swapped q =>
      rw [hpc] at hsnap
      exact ⟨hsnap.1.trans_eq hlen.symm, hsnap.2⟩

theorem includes_sortByKeys (m : M) :
    Includes (Memtable.toRaw m) (sortByKeys (Memtable.toRaw m)) := by
  intro k v hk
  rw [lookup_sortByKeys (Memtable.nodup_toRaw m)]
  exact hk

theorem writer_step (h : LossInv cfg s) (hok : s.AddKept)
    (hstep : s.writerStep cfg = some s') : LossInv cfg s' := by
  have hwriter := h.writer
  cases writerStep_cases hstep with
  | load hpc =>
    rw [hpc] at hwriter
    exact h.stay_writer (by simp only [applied, hpc]) ⟨h.ref, hwriter⟩
  | add hpc =>
    rw [AddKept, hpc] at hok
    obtain ⟨rfl, hcopy⟩ := hok
    exact h.add hpc hcopy
  | full hpc =>
    rw [hpc] at hwriter
    exact h.stay_writer (by simp only [applied, hpc]) hwriter
  | done hpc => exact h.stay_writer (by simp only [applied, hpc]) trivial
  | copy hpc =>
    rw [hpc] at hwriter
    obtain ⟨hp, hactive⟩ := hwriter
    refine h.stay_writer (by simp only [applied, hpc]) ⟨hp, ?_⟩
    rcases hactive with rfl | hactive
    · exact includes_sortByKeys _
    · rw [hactive]
      intro k v hk
      cases hk
  | push hpc =>
    rename_i im _
    rw [hpc] at hwriter
    refine h.move_writer frame_push steady_push rfl h.ref
      (by simp only [applied, hpc]) ⟨hwriter.1, ?_⟩
    intro k v hk
    exact ⟨im.data, List.mem_append_left _ (List.mem_map_of_mem (List.mem_append_right _
      List.mem_cons_self)), hwriter.2 k v hk⟩
  | swap hpc =>
    rw [hpc] at hwriter
    exact h.move_writer (frame_swap hwriter.2) (steady_of_eq rfl rfl rfl) rfl
      (by simp [Shared.swap]) (by simp only [applied, hpc, Shared.swap])
      ⟨by simpa [Shared.swap] using Nat.lt_succ_of_lt hwriter.1, hwriter.1.ne⟩
  | clear hpc =>
    rw [hpc] at hwriter
    exact h.move_writer (frame_clear hwriter.2) (steady_of_eq rfl rfl rfl) rfl
      (by simpa [Shared.clear] using h.ref) (by simp only [applied, hpc, Shared.clear]) trivial

theorem snapshotter_step (h : LossInv cfg s) (hok : s.SwapKept)
    (hstep : s.snapshotterStep cfg = some s') : LossInv cfg s' := by
  have hsnap := h.snapshotter
  cases snapshotterStep_cases hstep with
  | empty | wait => exact h.stay_snapshotter trivial
  | nonempty hpc | sealed hpc =>
    rw [hpc] at hsnap
    exact h.stay_snapshotter hsnap
  | copy hpc =>
    rw [hpc] at hsnap
    refine h.stay_snapshotter ⟨hsnap, ?_⟩
    rintro rfl
    exact includes_sortByKeys _
  | push hpc =>
    rename_i im _
    rw [hpc] at hsnap
    refine h.move_snapshotter frame_push steady_push rfl h.ref rfl ⟨hsnap.1, ?_⟩
    intro heq k v hk
    exact ⟨im.data, List.mem_append_left _ (List.mem_map_of_mem (List.mem_append_right _
      List.mem_cons_self)), hsnap.2 heq k v hk⟩
  | swap hpc =>
    rw [hpc] at hsnap
    rw [SwapKept, hpc] at hok
    have hb : s.Backed := by
      rcases hok with heq | hactive
      · exact hsnap.2 heq
      · intro k v hk
        rw [hactive] at hk
        cases hk
    exact h.move_snapshotter (frame_swap hb) (steady_of_eq rfl rfl rfl) rfl
      (by simp [Shared.swap]) rfl
      ⟨by simpa [Shared.swap] using Nat.lt_succ_of_lt hsnap.1, hsnap.1.ne⟩
  | clear hpc =>
    rw [hpc] at hsnap
    exact h.move_snapshotter (frame_clear hsnap.2) (steady_of_eq rfl rfl rfl) rfl
      (by simpa [Shared.clear] using h.ref) rfl trivial
  | done =>
    exact h.move_snapshotter frame_log
      (steady_of_eq rfl rfl rfl) rfl h.ref rfl trivial

theorem flusher_step (h : LossInv cfg s) (hstep : s.flusherStep path = some s') :
    LossInv cfg s' := by
  have hflush := h.flusher
  cases flusherStep_cases hstep with
  | peek _ hhead => exact h.move_flusher frame_log rfl h.ref rfl hhead
  | write hpc hfresh =>
    rw [hpc] at hflush
    refine h.move_flusher (frame_writeTable hfresh) rfl h.ref rfl ⟨hflush, ?_⟩
    simp [Engine.getOrOpen, Engine.writeTable]
  | register hpc =>
    rw [hpc] at hflush
    refine h.move_flusher frame_register (by simp [Engine.registerSSTable]) h.ref rfl
      ⟨hflush.1, ?_⟩
    exact mem_tables_register (h.levels ▸ cfg.lsmLevels_pos) hflush.2
  | purge hpc =>
    rw [hpc] at hflush
    exact h.move_flusher frame_log rfl h.ref rfl ⟨_, hflush⟩
  | pop hpc =>
    rw [hpc] at hflush
    obtain ⟨im, him, hmem⟩ := hflush
    exact h.move_flusher (frame_pop him hmem) rfl h.ref rfl trivial
  | mark => exact h.move_flusher frame_log rfl h.ref rfl trivial

theorem rotate_step (h : LossInv cfg s) : LossInv cfg { s with toShared := s.rotate } := by
  rw [Shared.rotate]
  split
  all_goals exact h.move_flusher frame_log rfl h.ref rfl h.flusher

theorem step (h : LossInv cfg s) (hok : s.NoLoss a) (hstep : s.step cfg a = some s') :
    LossInv cfg s' := by
  cases a with
  | append key value => exact h.append hstep
  | writer => exact h.writer_step hok hstep
  | takeSnapshot =>
    simp only [Running.step] at hstep
    split at hstep
    · cases hstep
      exact h.stay_snapshotter h.ref
    · cases hstep
  | snapshotter => exact h.snapshotter_step hok hstep
  | flusher path => exact h.flusher_step hstep
  | rotate =>
    cases hstep
    exact h.rotate_step

end LossInv

omit [Memtable M] in
theorem completed_prefix : s.completed <+: s.applied := by
  unfold completed applied
  cases s.writer <;> first | exact List.prefix_rfl | exact List.dropLast_prefix _

/-- In every run in which each `Add` goes to the active memtable before a drain copies it, and in
which each drain replaces the memtable it has copied or an empty one, every completed write is found
in the active memtable, the queue or a registered table, or a later write to its key is. -/
theorem found_of_noLoss
    (hok : System.Guarded (step cfg) NoLoss (init cfg w : Running M) actions)
    (hrun : System.run (step cfg) (init cfg w : Running M) actions = some s) :
    ∀ i w, s.completed[i]? = some w → s.Found s.applied i w := by
  have h : LossInv cfg s := System.run_invariant_of_guarded
    (I := fun _ (s : Running M) => LossInv cfg s) .init (fun h hok hs => h.step hok hs) hok hrun
  obtain ⟨rest, hrest⟩ := s.completed_prefix
  intro i w hi
  refine h.found i w ?_
  rw [← hrest, List.getElem?_append_left (List.getElem?_eq_some_iff.mp hi).1]
  exact hi

/-- A snapshot between two writes. -/
theorem found_of_noLoss_between : ∃ s ∈ System.run (step defaultConfig)
    (init defaultConfig (.newAppendStorageInDir [] 67108864 65536) : Running HashMap)
    [.append [97] [1], .writer, .writer, .writer, .takeSnapshot, .snapshotter, .snapshotter,
      .snapshotter, .snapshotter, .snapshotter, .append [98] [2], .writer, .writer, .writer,
      .snapshotter], ∀ i w, s.completed[i]? = some w → s.Found s.applied i w :=
  ⟨Option.get _ (by decide +kernel), Option.get_mem _,
    found_of_noLoss (by decide +kernel) (Option.some_get _).symm⟩

/-- A write that is added after the drain has copied the memtable is gone when the drain replaces
it. -/
theorem drain_drops_write : ∃ s ∈ System.run (step defaultConfig)
    (init defaultConfig (.newAppendStorageInDir [] 67108864 65536) : Running HashMap)
    [.append [97] [1], .writer, .writer, .writer, .takeSnapshot, .snapshotter, .snapshotter,
      .append [98] [2], .writer, .writer, .writer,
      .snapshotter, .snapshotter, .snapshotter, .snapshotter],
    s.completed[1]? = some ⟨2, [98], [2]⟩ ∧ ¬s.Found s.applied 1 ⟨2, [98], [2]⟩ := by
  decide +kernel

end Running
end ChudDB
