import ChudDB.Engine.ReadLaw
import ChudDB.Engine.SnapshotLoss
import ChudDB.Engine.WriteLog

/-! # What a snapshot contains

`TakeSnapshot` drains the active memtable, waits for the queue to be flushed, and then reads the
last LSN of the log and lists the files. A write that is appended to the log after the drain has
copied the memtable is covered by that LSN and missing in the files. As long as no write is on its
way from the log to the memtable when the drain copies it, and none is appended before the snapshot
is returned, the files hold every write up to the LSN. -/

namespace ChudDB
open Lib Wal

variable {M : Type} [Memtable M] {cfg : Config}

/-- The files of the snapshot hold every write up to its LSN, or a later one to the same key. -/
def Snapshot.Consistent (s : Shared M) (snap : Snapshot) : Prop :=
  ∀ w ∈ s.hist, w.lsn ≤ snap.lsn → ∃ w' ∈ s.hist, w'.key = w.key ∧ w.lsn ≤ w'.lsn ∧
    s.firstVersion (Engine.searchOrder snap.sstables) w.key = some w'.value

omit [Memtable M] in
instance (s : Shared M) (snap : Snapshot) : Decidable (snap.Consistent s) :=
  inferInstanceAs (Decidable (∀ w ∈ _, _ → ∃ w' ∈ _, _ ∧ _ ∧ _))

namespace Running

/-- No write is on its way from the log to the memtable. -/
def Quiet : Writer → Prop
  | .appended _ | .loaded _ _ => False
  | _ => True

instance : Decidable (Quiet c) :=
  match c with
  | .appended _ | .loaded .. => isFalse not_false
  | .idle | .added .. | .full .. | .copied .. | .pushed _ | .swapped _ => isTrue trivial

/-- The drain has not copied the memtable yet. -/
def BeforeCopy : Snapshotter → Prop
  | .idle | .loaded _ | .nonempty _ => True
  | _ => False

instance : Decidable (BeforeCopy c) :=
  match c with
  | .idle | .loaded _ | .nonempty _ => isTrue trivial
  | .copied .. | .sealed .. | .pushed _ | .swapped _ | .drained | .waiting _ => isFalse not_false

/-- The drain copies the active memtable, or there is nothing to copy, and no write is on its
way. -/
def CopySafe (s : Running M) : Prop :=
  match s.snapshotter with
  | .loaded p => Memtable.getSize (s.mem p) = 0 → Quiet s.writer ∧ s.active = []
  | .nonempty p => Quiet s.writer ∧ (p = s.activeMem ∨ s.active = [])
  | _ => True

instance (s : Running M) : Decidable s.CopySafe :=
  match s with
  | { snapshotter := .loaded _, .. } => inferInstanceAs (Decidable (_ → _ ∧ _))
  | { snapshotter := .nonempty _, .. } => inferInstanceAs (Decidable (_ ∧ (_ ∨ _)))
  | { snapshotter := .idle, .. } | { snapshotter := .copied .., .. }
  | { snapshotter := .sealed .., .. } | { snapshotter := .pushed _, .. }
  | { snapshotter := .swapped _, .. } | { snapshotter := .drained, .. }
  | { snapshotter := .waiting _, .. } => isTrue trivial

def SnapshotSafe (s : Running M) : Action → Prop
  | .append key value => s.wal.Fits key value ∧ BeforeCopy s.snapshotter
  | .snapshotter => s.CopySafe
  | .rotate => s.wal.segmentID + 1 < 10 ^ 9
  | _ => True

instance (s : Running M) : DecidablePred s.SnapshotSafe
  | .append .. => inferInstanceAs (Decidable (_ ∧ _))
  | .snapshotter => inferInstanceAs (Decidable s.CopySafe)
  | .rotate => inferInstanceAs (Decidable (_ < _))
  | .writer | .takeSnapshot | .flusher _ => isTrue trivial

end Running

/-! ## The last write -/

/-- The value of the last write to a key. -/
def lastValue (ws : List Write) (key : Key) : Option Value :=
  newest (fun w : Write => if w.key = key then some w.value else none) ws

theorem lastValue_concat :
    lastValue (ws ++ [w]) k = if w.key = k then some w.value else lastValue ws k := by
  rw [lastValue, newest_append, newest_singleton]
  by_cases hk : w.key = k
  · rw [if_pos hk, if_pos hk]
    rfl
  · rw [if_neg hk, if_neg hk]
    rfl

theorem lastValue_spec (hinc : ws.Pairwise (·.lsn < ·.lsn)) (hw : w ∈ ws) :
    ∃ w' ∈ ws, w'.key = w.key ∧ w.lsn ≤ w'.lsn ∧ lastValue ws w.key = some w'.value := by
  induction ws using List.reverseRecOn with
  | nil => cases hw
  | append_singleton ws last ih =>
    rw [List.pairwise_append] at hinc
    rw [lastValue_concat]
    by_cases hk : last.key = w.key
    · refine ⟨last, by simp, hk, ?_, if_pos hk⟩
      rcases List.mem_append.mp hw with hw | hw
      · exact Nat.le_of_lt (hinc.2.2 w hw last (by simp))
      · exact Nat.le_of_eq (congrArg Write.lsn (List.mem_singleton.mp hw))
    · have hw : w ∈ ws := by
        rcases List.mem_append.mp hw with hw | hw
        · exact hw
        · exact absurd (congrArg Write.key (List.mem_singleton.mp hw)).symm hk
      obtain ⟨w', hw', hkey, hle, hlast⟩ := ih hinc.1 hw
      exact ⟨w', List.mem_append_left _ hw', hkey, hle, (if_neg hk).trans hlast⟩

/-! ## The invariant -/

/-- What a layer answers. -/
def entry (l : List KeyValue) (key : Key) : Option Value := l.lookup key

namespace Shared

/-- The entries of a memtable. -/
def content (s : Shared M) (p : MemRef) : List KeyValue := Memtable.toRaw (s.mem p)

/-- The layers below the active memtable, oldest first. -/
def layers (s : Shared M) : List (List KeyValue) := s.tables ++ s.immQueue.map (·.data)

/-- The tables, with the memtables before number `b` that are still in the queue, hold the last
values. -/
def Answered (ws : List Write) (b : Nat) (s : Shared M) : Prop :=
  Settled entry (lastValue ws) s.tables (s.immQueue.map (·.data)) (b - s.popped)

/-- A memtable that the writer or the drain holds has the last values only. -/
def Held (ws : List Write) (p : MemRef) (s : Shared M) : Prop :=
  p < s.mems.length ∧ Current entry (lastValue ws) (s.content p)

/-- The entries may replace the active memtable. -/
def Replaces (ws : List Write) (l : List KeyValue) (s : Shared M) : Prop :=
  Includes s.active l ∧ Current entry (lastValue ws) l

def WriterAt (ws : List Write) (s : Shared M) : Writer → Prop
  | .idle => True
  | .appended w => ∃ past, s.hist = past ++ [w]
  | .loaded w p => p = s.activeMem ∧ ∃ past, s.hist = past ++ [w]
  | .added _ p | .full _ p => s.Held ws p ∧ (p = s.activeMem ∨ s.active = [])
  | .copied p im => s.Held ws p ∧ (p = s.activeMem ∨ s.active = []) ∧ s.Replaces ws im.data
  | .pushed p => s.Held ws p ∧ (p = s.activeMem ∨ s.active = []) ∧ ∃ b, s.Answered ws b
  | .swapped p => s.Held ws p ∧ p ≠ s.activeMem

/-- The memtable the drain has loaded is the active one, or is cleared, or is about to be. -/
def Loaded (s : Shared M) (w : Writer) (p : MemRef) : Prop :=
  p = s.activeMem ∨ s.content p = [] ∨ w = .swapped p

def SnapshotterAt (ws : List Write) (s : Shared M) (w : Writer) : Snapshotter → Prop
  | .idle => True
  | .loaded p | .nonempty p => p < s.mems.length ∧ s.Loaded w p
  | .copied p raw => Running.Quiet w ∧ p < s.mems.length ∧ s.Replaces ws (sortByKeys raw)
  | .sealed p im => Running.Quiet w ∧ p < s.mems.length ∧ s.Replaces ws im.data
  | .pushed p => Running.Quiet w ∧ p < s.mems.length ∧ ∃ b, s.Answered ws b
  | .swapped p => Running.Quiet w ∧ p < s.mems.length ∧ p ≠ s.activeMem ∧ ∃ b, s.Answered ws b
  | .drained => Running.Quiet w ∧ ∃ b, s.Answered ws b
  | .waiting pending => Running.Quiet w ∧
    ∃ b, s.Answered ws b ∧ ∀ i, s.popped ≤ i → i < b → i ∈ pending

/-- The head of the queue is the newest table. -/
def Copied (im : ImmutableMemtable) (s : Shared M) : Prop :=
  s.immQueue.head? = some im ∧ ∃ older, s.tables = older ++ [im.data]

def FlusherAt (s : Shared M) : Flusher → Prop
  | .idle => True
  | .peeked im => s.immQueue.head? = some im
  | .written im path =>
    s.immQueue.head? = some im ∧ s.getOrOpen path = some ⟨im.data, im.maxLSN⟩
  | .registered im => s.Copied im
  | .purged => ∃ im, s.Copied im
  | .popped => s.flushed < s.popped

/-- The registered tables are in level 0, and they open. -/
structure Registered (cfg : Config) (s : Shared M) : Prop where
  level : ∃ level0, s.versions = level0 :: List.replicate (cfg.lsmLevels - 1) []
  opens : ∀ p ∈ s.versions.flatten, (s.getOrOpen p).isSome = true

/-- The listed tables open, too, and the snapshots are consistent. -/
structure SnapshotsOK (cfg : Config) (s : Shared M) : Prop where
  logged : s.Logged cfg
  lsn : ∀ snap ∈ s.snapshots, snap.lsn ≤ s.wal.appendedLSN
  listed : ∀ snap ∈ s.snapshots, ∀ p ∈ Engine.searchOrder snap.sstables,
    (s.getOrOpen p).isSome = true
  consistent : ∀ snap ∈ s.snapshots, snap.Consistent s

variable {s s' : Shared M} {ws : List Write}

/-! ## What a step leaves alone -/

/-- A change under which the last values stay where they are. -/
structure Keeps (ws : List Write) (s s' : Shared M) : Prop where
  length : s.mems.length ≤ s'.mems.length
  content : ∀ p < s.mems.length, s'.content p = s.content p ∨ s'.content p = []
  active : s'.activeMem = s.activeMem ∧ s'.active = s.active ∨
    s.mems.length ≤ s'.activeMem ∧ s'.active = []
  top : Answers entry (lastValue ws) (s.layers ++ [s.active]) →
    Answers entry (lastValue ws) (s'.layers ++ [s'.active])
  answered : ∀ b, s.Answered ws b → s'.Answered ws b

theorem current_nil : Current entry (lastValue ws) [] := by
  intro k v hk
  cases hk

namespace Keeps

theorem held (h : Keeps ws s s') (hp : s.Held ws p) : s'.Held ws p := by
  refine ⟨hp.1.trans_le h.length, ?_⟩
  rcases h.content p hp.1 with heq | heq
  · rw [heq]
    exact hp.2
  · rw [heq]
    exact current_nil

theorem replaces (h : Keeps ws s s') (hl : s.Replaces ws l) : s'.Replaces ws l := by
  refine ⟨?_, hl.2⟩
  rcases h.active with ⟨-, hactive⟩ | ⟨-, hactive⟩
  · rw [hactive]
    exact hl.1
  · rw [hactive]
    intro k v hk
    cases hk

theorem active_or (h : Keeps ws s s') (hp : p = s.activeMem ∨ s.active = []) :
    p = s'.activeMem ∨ s'.active = [] := by
  rcases h.active with ⟨hmem, hactive⟩ | ⟨-, hactive⟩
  · rwa [hmem, hactive]
  · exact .inr hactive

theorem ne_active (h : Keeps ws s s') (hp : p < s.mems.length) (hne : p ≠ s.activeMem) :
    p ≠ s'.activeMem := by
  rcases h.active with ⟨hmem, -⟩ | ⟨hmem, -⟩
  · rwa [hmem]
  · omega

theorem exists_answered (h : Keeps ws s s') (hb : ∃ b, s.Answered ws b) :
    ∃ b, s'.Answered ws b :=
  hb.imp h.answered

theorem writerAt {pc : Writer} (h : Keeps ws s s') (hh : s'.hist = s.hist)
    (hload : Running.Quiet pc ∨ s'.activeMem = s.activeMem) (hok : s.WriterAt ws pc) :
    s'.WriterAt ws pc := by
  cases pc with
  | idle => trivial
  | appended w =>
    obtain ⟨past, hpast⟩ := hok
    exact ⟨past, hh.trans hpast⟩
  | loaded w p =>
    obtain ⟨hp, past, hpast⟩ := hok
    rcases hload with hload | hload
    · exact absurd hload id
    · exact ⟨hp.trans hload.symm, past, hh.trans hpast⟩
  | added w p | full w p => exact ⟨h.held hok.1, h.active_or hok.2⟩
  | copied p im => exact ⟨h.held hok.1, h.active_or hok.2.1, h.replaces hok.2.2⟩
  | pushed p => exact ⟨h.held hok.1, h.active_or hok.2.1, h.exists_answered hok.2.2⟩
  | swapped p => exact ⟨h.held hok.1, h.ne_active hok.1.1 hok.2⟩

theorem snapshotterAt {w w' : Writer} {pc : Snapshotter} (h : Keeps ws s s')
    (hpop : s.popped ≤ s'.popped) (hquiet : Running.Quiet w → Running.Quiet w')
    (hload : ∀ p < s.mems.length, s.Loaded w p → s'.Loaded w' p)
    (hok : s.SnapshotterAt ws w pc) : s'.SnapshotterAt ws w' pc := by
  cases pc with
  | idle => trivial
  | loaded p | nonempty p => exact ⟨hok.1.trans_le h.length, hload p hok.1 hok.2⟩
  | copied p raw | sealed p im =>
    exact ⟨hquiet hok.1, hok.2.1.trans_le h.length, h.replaces hok.2.2⟩
  | pushed p => exact ⟨hquiet hok.1, hok.2.1.trans_le h.length, h.exists_answered hok.2.2⟩
  | swapped p =>
    obtain ⟨hq, hp, hne, hb⟩ := hok
    exact ⟨hquiet hq, hp.trans_le h.length, h.ne_active hp hne, h.exists_answered hb⟩
  | drained => exact ⟨hquiet hok.1, h.exists_answered hok.2⟩
  | waiting pending =>
    obtain ⟨hq, b, hb, hpending⟩ := hok
    exact ⟨hquiet hq, b, h.answered b hb, fun i hi => hpending i (hpop.trans hi)⟩

end Keeps

/-! ## The changes -/

theorem content_swap (hp : p < s.mems.length) : s.swap.content p = s.content p := by
  simp [content, mem, swap, List.getD_eq_getElem?_getD, List.getElem?_append_left hp]

theorem content_clear_self (hp : p < s.mems.length) : (s.clear p).content p = [] := by
  simp [content, mem, clear, List.getD_eq_getElem?_getD, List.getElem?_set_self hp,
    Memtable.toRaw_clear]

theorem content_clear_ne (hne : p ≠ q) : (s.clear p).content q = s.content q := by
  simp [content, mem, clear, List.getD_eq_getElem?_getD, List.getElem?_set_ne hne]

/-- Changes of the log, the history and the snapshots. -/
theorem keeps_log :
    Keeps ws s { s with wal := wal, hist := h, flushed := n, snapshots := l } :=
  ⟨Nat.le_refl _, fun _ _ => .inl rfl, .inl ⟨rfl, rfl⟩, id, fun _ => id⟩

theorem keeps_push (him : Current entry (lastValue ws) im.data) :
    Keeps ws s { s with immQueue := s.immQueue ++ [im] } := by
  refine ⟨Nat.le_refl _, fun _ _ => .inl rfl, .inl ⟨rfl, rfl⟩, fun h => ?_, fun b hb => ?_⟩
  · have hlayers : layers { s with immQueue := s.immQueue ++ [im] } = s.layers ++ [im.data] := by
      simp only [layers, List.map_append, List.map_singleton, List.append_assoc]
      rfl
    rw [hlayers]
    exact h.insert him
  · have := hb.push him
    rw [Answered, List.map_append, List.map_singleton]
    exact this

theorem keeps_swap (hb : ∃ b, s.Answered ws b) : Keeps ws s s.swap := by
  obtain ⟨b, hb⟩ := hb
  refine ⟨by simp [swap], fun p hp => .inl (content_swap hp), .inr ⟨Nat.le_refl _, active_swap⟩,
    fun _ => ?_, fun _ h => h⟩
  rw [active_swap, answers_concat_empty fun _ => rfl]
  exact hb.answers

theorem keeps_clear (hne : p ≠ s.activeMem) (hp : p < s.mems.length) :
    Keeps ws s (s.clear p) := by
  refine ⟨by simp [clear], fun q hq => ?_, .inl ⟨rfl, active_clear hne⟩, fun h => ?_, fun _ h => h⟩
  · by_cases heq : p = q
    · subst heq
      exact .inr (content_clear_self hp)
    · exact .inl (content_clear_ne heq)
  · rw [active_clear hne]
    exact h

omit [Memtable M] in
/-- A table file under a fresh name. -/
theorem tables_writeTable_eq (hopens : ∀ p ∈ s.versions.flatten, (s.getOrOpen p).isSome = true)
    (hfresh : s.getOrOpen path = none) :
    tables { s with toEngine := s.writeTable path t } = s.tables := by
  rw [tables, tables]
  congr 1
  refine List.filterMap_congr fun p hp => ?_
  obtain ⟨t', ht'⟩ := Option.isSome_iff_exists.mp (hopens p hp)
  rw [ht']
  exact getOrOpen_writeTable hfresh ht'

theorem keeps_of_tables (hmems : s'.mems = s.mems) (hactive : s'.activeMem = s.activeMem)
    (hqueue : s'.immQueue = s.immQueue) (hpop : s'.popped = s.popped)
    (htables : s'.tables = s.tables) : Keeps ws s s' := by
  have hcontent : ∀ p, s'.content p = s.content p := fun p => by
    rw [content, mem, hmems]
    rfl
  have hact : s'.active = s.active := by
    change s'.content s'.activeMem = _
    rw [hcontent, hactive]
    rfl
  refine ⟨by rw [hmems], fun p _ => .inl (hcontent p), .inl ⟨hactive, hact⟩, ?_, ?_⟩
  · rw [layers, layers, htables, hqueue, hact]
    exact id
  · intro b hb
    rwa [Answered, htables, hqueue, hpop]

omit [Memtable M] in
theorem tables_register_eq (hlevel : ∃ level0, s.versions = level0 :: List.replicate n [])
    (ht : s.getOrOpen path = some t) :
    tables { s with versions := Engine.registerSSTable 0 path s.versions } =
      s.tables ++ [t.entries] := by
  obtain ⟨level0, hlevel⟩ := hlevel
  rw [tables, tables, hlevel]
  simp only [Engine.registerSSTable, List.modify_zero_cons, List.flatten_cons,
    List.flatten_replicate_nil, List.append_nil, List.filterMap_append, List.map_append]
  have hlast : [path].filterMap s.getOrOpen = [t] := by
    rw [List.filterMap_cons_some ht, List.filterMap_nil]
  exact congrArg (_ ++ ·) (congrArg (List.map _) hlast)

theorem keeps_register (hlevel : ∃ level0, s.versions = level0 :: List.replicate n [])
    (hhead : s.immQueue.head? = some im) (ht : s.getOrOpen path = some ⟨im.data, lsn⟩) :
    Keeps ws s { s with versions := Engine.registerSSTable 0 path s.versions } := by
  have htables := tables_register_eq hlevel ht
  obtain ⟨rest, hqueue⟩ := List.head?_eq_some_iff.mp hhead
  refine ⟨Nat.le_refl _, fun _ _ => .inl rfl, .inl ⟨rfl, rfl⟩, fun h => ?_, fun b hb => ?_⟩
  · rw [layers, htables]
    rw [layers] at h
    simp only [hqueue, List.map_cons, List.append_assoc, List.cons_append, List.nil_append] at h ⊢
    exact answers_copy.mpr h
  · rw [Answered, htables]
    rw [Answered] at hb
    simp only [hqueue, List.map_cons] at hb ⊢
    exact hb.copy

theorem keeps_pop (h : s.Copied im) :
    Keeps ws s { s with immQueue := s.immQueue.tail, popped := s.popped + 1 } := by
  obtain ⟨hhead, older, htables⟩ := h
  obtain ⟨rest, hqueue⟩ := List.head?_eq_some_iff.mp hhead
  have htables' : tables { s with immQueue := s.immQueue.tail, popped := s.popped + 1 } =
      older ++ [im.data] := htables
  refine ⟨Nat.le_refl _, fun _ _ => .inl rfl, .inl ⟨rfl, rfl⟩, fun h => ?_, fun b hb => ?_⟩
  · rw [layers, htables']
    rw [layers, htables] at h
    simp only [hqueue, List.map_cons, List.tail_cons, List.append_assoc, List.cons_append,
      List.nil_append] at h ⊢
    exact answers_copy.mp h
  · rw [Answered, htables']
    rw [Answered, htables] at hb
    simp only [hqueue, List.map_cons, List.tail_cons] at hb ⊢
    rw [← Nat.sub_sub]
    exact hb.pop

theorem content_add_ne (hne : p ≠ q) : (s.add p key value).content q = s.content q := by
  simp [content, mem, add, List.getD_eq_getElem?_getD, List.getElem?_set_ne hne]

/-- The copy of a memtable that is active, or while the active one is empty. -/
theorem replaces_sortByKeys (hp : p = s.activeMem ∨ s.active = [])
    (hc : Current entry (lastValue ws) (s.content p)) :
    s.Replaces ws (sortByKeys (Memtable.toRaw (s.mem p))) := by
  refine ⟨?_, ?_⟩
  · rcases hp with rfl | hp
    · exact Running.LossInv.includes_sortByKeys _
    · rw [hp]
      intro k v hk
      cases hk
  · intro k v hk
    rw [entry, lookup_sortByKeys (Memtable.nodup_toRaw _)] at hk
    exact hc k v hk

/-- What is pushed is below the active memtable, and may take its place. -/
theorem answered_push (htop : Answers entry (lastValue ws) (s.layers ++ [s.active]))
    (hr : s.Replaces ws im.data) :
    ∃ b, Answered ws b { s with immQueue := s.immQueue ++ [im] } := by
  have hans : Answers entry (lastValue ws) (s.layers ++ [im.data]) := htop.replace hr.2 hr.1
  rw [layers, List.append_assoc] at hans
  refine ⟨s.popped + (s.immQueue.length + 1), ?_⟩
  have hsettled := settled_length hans
  rw [List.length_append, List.length_map, List.length_singleton] at hsettled
  rw [Answered, Nat.add_sub_cancel_left, List.map_append, List.map_singleton]
  exact hsettled

/-- `Add` to the active memtable makes its value the last one of the key. -/
theorem answers_add {w : Write} (hp : s.activeMem < s.mems.length)
    (htop : Answers entry (lastValue ws) (s.layers ++ [s.active])) :
    Answers entry (lastValue (ws ++ [w]))
      (s.layers ++ [(s.add s.activeMem w.key w.value).active]) := by
  intro k
  have hk := htop k
  rw [newest_append, newest_singleton] at hk ⊢
  rw [lastValue_concat, entry, lookup_active_add hp]
  by_cases hkey : k = w.key
  · rw [if_pos hkey, if_pos hkey.symm]
    rfl
  · rw [if_neg hkey, if_neg (Ne.symm hkey)]
    exact hk

/-! ## The registry -/

omit [Memtable M] in
/-- The newest value the registered tables hold. -/
theorem firstVersion_eq_newest (hlevel : ∃ level0, s.versions = level0 :: List.replicate n []) :
    s.firstVersion (Engine.searchOrder s.versions) k = newest (entry · k) s.tables := by
  obtain ⟨level0, hlevel⟩ := hlevel
  rw [tables, hlevel, Engine.searchOrder_levelZero, Engine.firstVersion, newest, List.flatten_cons,
    List.flatten_replicate_nil, List.append_nil, ← List.map_reverse, ← List.filterMap_reverse,
    List.findSome?_map, findSome?_filterMap]
  rfl

namespace Registered

omit [Memtable M] in
theorem of_eq (h : Registered cfg s) (hversions : s'.versions = s.versions)
    (hfiles : s'.files = s.files) : Registered cfg s' :=
  ⟨hversions ▸ h.level, by
    rw [hversions, getOrOpen_congr hfiles]
    exact h.opens⟩

omit [Memtable M] in
theorem writeTable (h : Registered cfg s) (hfresh : s.getOrOpen path = none) :
    Registered cfg { s with toEngine := s.writeTable path t } := by
  refine ⟨h.level, fun p hp => ?_⟩
  obtain ⟨t', ht'⟩ := Option.isSome_iff_exists.mp (h.opens p hp)
  exact Option.isSome_iff_exists.mpr ⟨t', getOrOpen_writeTable hfresh ht'⟩

omit [Memtable M] in
theorem register (h : Registered cfg s) (ht : s.getOrOpen path = some t) :
    Registered cfg { s with versions := Engine.registerSSTable 0 path s.versions } := by
  obtain ⟨level0, hlevel⟩ := h.level
  refine ⟨⟨level0 ++ [path], by simp [hlevel, Engine.registerSSTable]⟩, fun p hp => ?_⟩
  simp only [hlevel, Engine.registerSSTable, List.modify_zero_cons, List.flatten_cons,
    List.flatten_replicate_nil, List.append_nil, List.mem_append, List.mem_singleton] at hp
  rcases hp with hp | rfl
  · exact h.opens p (by simp [hlevel, hp])
  · exact Option.isSome_iff_exists.mpr ⟨t, ht⟩

end Registered

namespace SnapshotsOK

omit [Memtable M] in
theorem of_eq (h : SnapshotsOK cfg s) (hwal : s'.wal = s.wal) (hhist : s'.hist = s.hist)
    (hfiles : s'.files = s.files) (hsnaps : s'.snapshots = s.snapshots) : SnapshotsOK cfg s' := by
  have hopen := getOrOpen_congr hfiles
  have hfirst : s'.firstVersion = s.firstVersion := by
    funext paths k
    rw [Engine.firstVersion, hopen, Engine.firstVersion]
  obtain ⟨hlogged, hlsn, hlisted, hcons⟩ := h
  refine ⟨?_, ?_, ?_, ?_⟩
  · rwa [Logged, hwal, hhist]
  · rwa [hsnaps, hwal]
  · rwa [hsnaps, hopen]
  · rw [hsnaps]
    intro snap hsnap
    rw [Snapshot.Consistent, hhist, hfirst]
    exact hcons snap hsnap

omit [Memtable M] in
/-- A change of the log that keeps the last LSN. -/
theorem log (h : SnapshotsOK cfg s) (hlogged : Logged cfg { s with wal := wal })
    (happ : wal.appendedLSN = s.wal.appendedLSN) : SnapshotsOK cfg { s with wal := wal } :=
  ⟨hlogged, fun snap hsnap => (h.lsn snap hsnap).trans_eq happ.symm, h.listed, h.consistent⟩

omit [Memtable M] in
/-- A new write is behind every snapshot. -/
theorem append (h : SnapshotsOK cfg s) (hlsn : s.wal.appendedLSN < w.lsn)
    (hlogged : Logged cfg { s with wal := wal, hist := s.hist ++ [w] })
    (happ : wal.appendedLSN = w.lsn) :
    SnapshotsOK cfg { s with wal := wal, hist := s.hist ++ [w] } := by
  refine ⟨hlogged, ?_, h.listed, ?_⟩
  · intro snap hsnap
    exact (h.lsn snap hsnap).trans (hlsn.le.trans_eq happ.symm)
  · intro snap hsnap w₀ hw₀ hle
    rcases List.mem_append.mp hw₀ with hw₀ | hw₀
    · obtain ⟨w', hw', hrest⟩ := h.consistent snap hsnap w₀ hw₀ hle
      exact ⟨w', List.mem_append_left _ hw', hrest⟩
    · cases List.mem_singleton.mp hw₀
      exact absurd (hle.trans (h.lsn snap hsnap)) (Nat.not_le.mpr hlsn)

omit [Memtable M] in
theorem writeTable (h : SnapshotsOK cfg s) (hfresh : s.getOrOpen path = none) :
    SnapshotsOK cfg { s with toEngine := s.writeTable path t } := by
  refine ⟨h.logged, h.lsn, fun snap hsnap p hp => ?_, ?_⟩
  · obtain ⟨t', ht'⟩ := Option.isSome_iff_exists.mp (h.listed snap hsnap p hp)
    exact Option.isSome_iff_exists.mpr ⟨t', getOrOpen_writeTable hfresh ht'⟩
  · intro snap hsnap w hw hle
    obtain ⟨w', hw', hkey, hle', hfirst⟩ := h.consistent snap hsnap w hw hle
    refine ⟨w', hw', hkey, hle', Eq.trans ?_ hfirst⟩
    refine Engine.firstVersion_of_files rfl fun p hp => ?_
    rintro rfl
    have := h.listed snap hsnap p hp
    rw [hfresh] at this
    cases this

omit [Memtable M] in
/-- A snapshot of tables that hold the last values. -/
theorem snapshot (h : SnapshotsOK cfg s) (hr : Registered cfg s)
    (hans : Answers entry (lastValue s.hist) s.tables) :
    SnapshotsOK cfg { s with
      snapshots := s.snapshots ++ [⟨s.wal.appendedLSN, s.versions⟩] } := by
  refine ⟨h.logged, ?_, ?_, ?_⟩
  · intro snap hsnap
    rcases List.mem_append.mp hsnap with hsnap | hsnap
    · exact h.lsn snap hsnap
    · cases List.mem_singleton.mp hsnap
      exact Nat.le_refl _
  · intro snap hsnap p hp
    rcases List.mem_append.mp hsnap with hsnap | hsnap
    · exact h.listed snap hsnap p hp
    · cases List.mem_singleton.mp hsnap
      obtain ⟨level0, hlevel⟩ := hr.level
      rw [hlevel, Engine.searchOrder_levelZero, List.mem_reverse] at hp
      exact hr.opens p (by simp [hlevel, hp])
  · intro snap hsnap
    rcases List.mem_append.mp hsnap with hsnap | hsnap
    · exact h.consistent snap hsnap
    · cases List.mem_singleton.mp hsnap
      intro w hw _
      obtain ⟨w', hw', hkey, hle, hlast⟩ := lastValue_spec h.logged.increasing hw
      exact ⟨w', hw', hkey, hle,
        (firstVersion_eq_newest hr.level).trans ((hans w.key).trans hlast)⟩

end SnapshotsOK

/-! ## Steps of the writer and of the drain -/

/-- A change of the memtables and of the end of the queue. -/
structure Local (s s' : Shared M) : Prop where
  wal : s'.wal = s.wal
  hist : s'.hist = s.hist
  versions : s'.versions = s.versions
  files : s'.files = s.files
  snapshots : s'.snapshots = s.snapshots
  popped : s'.popped = s.popped
  flushed : s'.flushed = s.flushed
  queue : s.immQueue <+: s'.immQueue

omit [Memtable M] in
theorem local_mems : Local s { s with mems := ms, activeMem := p } :=
  ⟨rfl, rfl, rfl, rfl, rfl, rfl, rfl, List.prefix_rfl⟩

omit [Memtable M] in
theorem local_push : Local s { s with immQueue := s.immQueue ++ [im] } :=
  ⟨rfl, rfl, rfl, rfl, rfl, rfl, rfl, List.prefix_append _ _⟩

namespace Local

omit [Memtable M] in
theorem snapshotsOK (h : Local s s') (hs : s.SnapshotsOK cfg) : s'.SnapshotsOK cfg :=
  hs.of_eq h.wal h.hist h.files h.snapshots

omit [Memtable M] in
theorem head (h : Local s s') (him : s.immQueue.head? = some im) :
    s'.immQueue.head? = some im := by
  obtain ⟨rest, hrest⟩ := h.queue
  obtain ⟨tail, htail⟩ := List.head?_eq_some_iff.mp him
  rw [← hrest, htail]
  rfl

omit [Memtable M] in
theorem copied (h : Local s s') (hc : s.Copied im) : s'.Copied im := by
  obtain ⟨hhead, older, holder⟩ := hc
  exact ⟨h.head hhead, older, (tables_congr h.versions h.files).trans holder⟩

omit [Memtable M] in
theorem flusherAt {pc : Flusher} (h : Local s s') (hok : s.FlusherAt pc) : s'.FlusherAt pc := by
  cases pc with
  | idle => trivial
  | peeked im => exact h.head hok
  | written im path =>
    refine ⟨h.head hok.1, ?_⟩
    rw [Engine.getOrOpen, h.files]
    exact hok.2
  | registered im => exact h.copied hok
  | purged => exact hok.imp fun _ => h.copied
  | popped =>
    change s'.flushed < s'.popped
    rw [h.flushed, h.popped]
    exact hok

end Local
end Shared

namespace Running
open Shared

variable {s s' : Running M}

/-- The layers hold the last values, and the writer and the flusher keep them there. -/
structure Layered (cfg : Config) (s : Running M) : Prop where
  registered : s.Registered cfg
  ref : s.activeMem < s.mems.length
  marked : s.flushed ≤ s.popped
  top : Answers entry (lastValue s.applied) (s.layers ++ [s.active])
  writer : s.WriterAt s.applied s.writer
  flusher : s.FlusherAt s.flusher

namespace Layered

theorem init : Layered cfg (init cfg wal : Running M) where
  registered := by
    obtain ⟨n, hn⟩ : ∃ n, cfg.lsmLevels = n + 1 :=
      ⟨cfg.lsmLevels - 1, (Nat.sub_add_cancel cfg.lsmLevels_pos).symm⟩
    exact ⟨⟨[], by simp [Running.init, hn, List.replicate_succ]⟩, by simp [Running.init]⟩
  ref := by simp [Running.init]
  marked := Nat.le_refl _
  top := by
    have htables : (Running.init cfg wal : Running M).tables = [] := by
      simp [Shared.tables, Running.init]
    have hactive : (Running.init cfg wal : Running M).active = [] := Memtable.toRaw_new
    rw [Shared.layers, htables, hactive, answers_concat_empty fun _ => rfl]
    exact fun k => rfl
  writer := trivial
  flusher := trivial

/-- A step of the writer that adds nothing. -/
theorem move_writer {pc : Writer} {t : Shared M} (h : Layered cfg s)
    (hk : Keeps s.applied s.toShared t) (hl : Local s.toShared t)
    (href : t.activeMem < t.mems.length)
    (ha : applied { s with toShared := t, writer := pc } = s.applied)
    (hw : t.WriterAt s.applied pc) : Layered cfg { s with toShared := t, writer := pc } where
  registered := h.registered.of_eq hl.versions hl.files
  ref := href
  marked := by
    change t.flushed ≤ t.popped
    rw [hl.flushed, hl.popped]
    exact h.marked
  top := by
    rw [ha]
    exact hk.top h.top
  writer := by
    rw [ha]
    exact hw
  flusher := hl.flusherAt h.flusher

/-- A step of the flusher, which leaves the active memtable alone. -/
theorem move_flusher {pc : Flusher} {t : Shared M} (h : Layered cfg s)
    (hk : Keeps s.applied s.toShared t) (hr : t.Registered cfg) (hh : t.hist = s.hist)
    (hactive : t.activeMem = s.activeMem) (hmarked : t.flushed ≤ t.popped) (hf : t.FlusherAt pc) :
    Layered cfg { s with toShared := t, flusher := pc } := by
  have ha : applied { s with toShared := t, flusher := pc } = s.applied := by
    simp only [applied, hh]
  refine ⟨hr, ?_, hmarked, ?_, ?_, hf⟩
  · change t.activeMem < t.mems.length
    rw [hactive]
    exact h.ref.trans_le hk.length
  · rw [ha]
    exact hk.top h.top
  · rw [ha]
    exact hk.writerAt hh (.inr hactive) h.writer

theorem append (h : Layered cfg s) (hidle : s.writer = .idle) (wal : AppendFileStorage) (w : Write) :
    Layered cfg { s with
      toShared := { s.toShared with wal := wal, hist := s.hist ++ [w] }, writer := .appended w } := by
  have happlied : s.applied = (s.hist ++ [w]).dropLast := by
    rw [List.dropLast_concat, applied, hidle]
  have htop := h.top
  rw [happlied] at htop
  exact ⟨h.registered.of_eq rfl rfl, h.ref, h.marked, htop, ⟨_, rfl⟩, h.flusher⟩

theorem hist_of_loaded (h : Layered cfg s) (hw : s.writer = .loaded w p) :
    s.hist = s.applied ++ [w] := by
  have hwriter := h.writer
  rw [hw] at hwriter
  obtain ⟨-, past, hpast⟩ := hwriter
  rw [applied, hw, hpast, List.dropLast_concat]

/-- `Add` to the active memtable. -/
theorem add (h : Layered cfg s) (hw : s.writer = .loaded w s.activeMem) :
    Layered cfg { s with
      toShared := s.add s.activeMem w.key w.value, writer := .added w s.activeMem } := by
  have hl : Local s.toShared (s.add s.activeMem w.key w.value) := local_mems
  have href : s.activeMem < (s.add s.activeMem w.key w.value).mems.length := by
    simpa [Shared.add] using h.ref
  have htop : Answers entry (lastValue s.hist)
      (s.layers ++ [(s.add s.activeMem w.key w.value).active]) := by
    rw [h.hist_of_loaded hw]
    exact answers_add h.ref h.top
  exact ⟨h.registered.of_eq rfl rfl, href, h.marked, htop, ⟨⟨href, htop.current⟩, .inl rfl⟩,
    hl.flusherAt h.flusher⟩

end Layered

structure ConsInv (cfg : Config) (s : Running M) : Prop extends Layered cfg s where
  snapshots : s.SnapshotsOK cfg
  snapshotter : s.SnapshotterAt s.applied s.writer s.snapshotter

namespace ConsInv

theorem init : ConsInv cfg
    (init cfg (.newAppendStorageInDir [] segmentSize bufferSize) : Running M) := by
  refine ⟨.init, ⟨logged_init, ?_, ?_, ?_⟩, trivial⟩
  all_goals simp [Running.init]

/-- A step of the writer. -/
theorem move_writer {pc : Writer} {t : Shared M} (h : ConsInv cfg s)
    (hk : Keeps s.applied s.toShared t) (hl : Local s.toShared t)
    (href : t.activeMem < t.mems.length)
    (ha : applied { s with toShared := t, writer := pc } = s.applied)
    (hquiet : Quiet s.writer → Quiet pc)
    (hload : ∀ p < s.mems.length, s.Loaded s.writer p → t.Loaded pc p)
    (hw : t.WriterAt s.applied pc) : ConsInv cfg { s with toShared := t, writer := pc } := by
  refine ⟨h.toLayered.move_writer hk hl href ha hw, hl.snapshotsOK h.snapshots, ?_⟩
  rw [ha]
  exact hk.snapshotterAt (Nat.le_of_eq hl.popped.symm) hquiet hload h.snapshotter

/-- A step of the snapshot. -/
theorem move_snapshotter {pc : Snapshotter} {t : Shared M} (h : ConsInv cfg s)
    (hk : Keeps s.applied s.toShared t) (hl : Local s.toShared t)
    (href : t.activeMem < t.mems.length)
    (hload : Quiet s.writer ∨ t.activeMem = s.activeMem)
    (hs : t.SnapshotterAt s.applied s.writer pc) :
    ConsInv cfg { s with toShared := t, snapshotter := pc } := by
  have ha : applied { s with toShared := t } = s.applied := by simp only [applied, hl.hist]
  have hlayered := h.toLayered.move_writer hk hl href ha (hk.writerAt hl.hist hload h.writer)
  refine ⟨⟨hlayered.registered, href, hlayered.marked, hlayered.top, hlayered.writer,
    hlayered.flusher⟩, hl.snapshotsOK h.snapshots, ?_⟩
  change t.SnapshotterAt (applied { s with toShared := t }) s.writer pc
  rw [ha]
  exact hs

/-- A step that concerns neither the memtables nor the end of the queue. -/
theorem move_flusher {pc : Flusher} {t : Shared M} (h : ConsInv cfg s)
    (hk : Keeps s.applied s.toShared t) (hr : t.Registered cfg) (hsnaps : t.SnapshotsOK cfg)
    (hh : t.hist = s.hist) (hmems : t.mems = s.mems) (hactive : t.activeMem = s.activeMem)
    (hpop : s.popped ≤ t.popped) (hmarked : t.flushed ≤ t.popped) (hf : t.FlusherAt pc) :
    ConsInv cfg { s with toShared := t, flusher := pc } := by
  refine ⟨h.toLayered.move_flusher hk hr hh hactive hmarked hf, hsnaps, ?_⟩
  have ha : applied { s with toShared := t, flusher := pc } = s.applied := by
    simp only [applied, hh]
  rw [ha]
  refine hk.snapshotterAt hpop id (fun p hp hload => ?_) h.snapshotter
  rw [Shared.Loaded, Shared.content, Shared.mem, hactive, hmems]
  exact hload

theorem append (h : ConsInv cfg s) (hfits : s.wal.Fits key value)
    (hbefore : BeforeCopy s.snapshotter) (hstep : s.appendStep cfg key value = some s') :
    ConsInv cfg s' := by
  rw [appendStep] at hstep
  split at hstep
  · rename_i hidle
    obtain ⟨wal, happend, hlogged, -, happ⟩ := h.snapshots.logged.append hfits
    rw [happend] at hstep
    cases hstep
    refine ⟨h.toLayered.append hidle _ _,
      h.snapshots.append h.snapshots.logged.appendedLSN_lt hlogged happ, ?_⟩
    have hsnap := h.snapshotter
    -- a write starts only before the memtable is copied
    cases hpc : s.snapshotter with
    | idle => trivial
    | loaded p | nonempty p =>
      rw [hpc, hidle] at hsnap
      refine ⟨hsnap.1, ?_⟩
      rcases hsnap.2 with hp | hp | hp
      · exact .inl hp
      · exact .inr (.inl hp)
      · cases hp
    | copied | sealed | pushed | swapped | drained | waiting =>
      rw [hpc] at hbefore
      exact absurd hbefore id
  · cases hstep

/-- `Add` to the active memtable. -/
theorem add (h : ConsInv cfg s) (hw : s.writer = .loaded w s.activeMem) :
    ConsInv cfg { s with
      toShared := s.add s.activeMem w.key w.value, writer := .added w s.activeMem } := by
  refine ⟨h.toLayered.add hw, local_mems.snapshotsOK h.snapshots, ?_⟩
  have hsnap := h.snapshotter
  rw [hw] at hsnap
  cases hpc : s.snapshotter with
  | idle => trivial
  | loaded q | nonempty q =>
    rw [hpc] at hsnap
    refine ⟨by simpa [Shared.add] using hsnap.1, ?_⟩
    by_cases hq : q = s.activeMem
    · exact .inl hq
    · rcases hsnap.2 with hq' | hq' | hq'
      · exact absurd hq' hq
      · exact .inr (.inl ((content_add_ne (Ne.symm hq)).trans hq'))
      · cases hq'
  | copied | sealed | pushed | swapped | drained | waiting =>
    rw [hpc] at hsnap
    exact absurd hsnap.1 id

/-- What the drain has loaded, when the writer is not about to clear it. -/
theorem loaded_of_eq {t : Shared M} {w w' : Writer} (hload : s.Loaded w p)
    (hswap : ∀ p, w ≠ .swapped p) (hactive : t.activeMem = s.activeMem) (hmems : t.mems = s.mems) :
    t.Loaded w' p := by
  rw [Shared.Loaded, Shared.content, Shared.mem, hactive, hmems]
  rcases hload with hp | hp | hp
  · exact .inl hp
  · exact .inr (.inl hp)
  · exact absurd hp (hswap p)

/-- A step of the writer that changes nothing shared. -/
theorem stay_writer {pc : Writer} (h : ConsInv cfg s)
    (ha : applied { s with writer := pc } = s.applied) (hquiet : Quiet s.writer → Quiet pc)
    (hswap : ∀ p, s.writer ≠ .swapped p) (hw : s.WriterAt s.applied pc) :
    ConsInv cfg { s with writer := pc } := by
  exact h.move_writer keeps_log local_mems h.ref ha hquiet
    (fun p _ hload => loaded_of_eq hload hswap rfl rfl) hw

/-- The swap of the writer: the drain may still hold the memtable that was active. -/
theorem swap_writer (h : ConsInv cfg s) (hw : s.writer = .pushed q) :
    ConsInv cfg { s with toShared := s.swap, writer := .swapped q } := by
  have hwriter := h.writer
  rw [hw] at hwriter
  obtain ⟨hheld, hactive, hb⟩ := hwriter
  have hk := keeps_swap hb
  have hlen : s.swap.activeMem < s.swap.mems.length := by simp [Shared.swap]
  refine h.move_writer hk local_mems hlen (by simp only [applied, hw, Shared.swap])
    (fun _ => trivial) (fun p hp hload => ?_) ⟨hk.held hheld, hheld.1.ne⟩
  rw [hw] at hload
  rcases hload with rfl | hempty | hpc
  · rcases hactive with rfl | hempty
    · exact .inr (.inr rfl)
    · exact .inr (.inl ((content_swap hp).trans hempty))
  · exact .inr (.inl ((content_swap hp).trans hempty))
  · cases hpc

theorem clear_writer (h : ConsInv cfg s) (hw : s.writer = .swapped q) :
    ConsInv cfg { s with toShared := s.clear q, writer := .idle } := by
  have hwriter := h.writer
  rw [hw] at hwriter
  obtain ⟨⟨hq, -⟩, hne⟩ := hwriter
  refine h.move_writer (keeps_clear hne hq) local_mems
    (by simpa [Shared.clear] using h.ref) (by simp only [applied, hw, Shared.clear])
    (fun _ => trivial) (fun p hp hload => ?_) trivial
  rw [hw] at hload
  rcases hload with hp' | hempty | hpc
  · exact .inl hp'
  · rcases (keeps_clear hne hq : Keeps s.applied _ _).content p hp with hc | hc
    · exact .inr (.inl (hc.trans hempty))
    · exact .inr (.inl hc)
  · cases hpc
    exact .inr (.inl (content_clear_self hq))

theorem writer_step (h : ConsInv cfg s) (hstep : s.writerStep cfg = some s') :
    ConsInv cfg s' := by
  have hwriter := h.writer
  cases writerStep_cases hstep with
  | load hpc =>
    rw [hpc] at hwriter
    exact h.stay_writer (by simp only [applied, hpc]) (by rw [hpc]; exact id) (by simp [hpc])
      ⟨rfl, hwriter⟩
  | add hpc =>
    rw [hpc] at hwriter
    obtain ⟨rfl, -⟩ := hwriter
    exact h.add hpc
  | full hpc =>
    rw [hpc] at hwriter
    exact h.stay_writer (by simp only [applied, hpc]) (fun _ => trivial) (by simp [hpc]) hwriter
  | done hpc =>
    exact h.stay_writer (by simp only [applied, hpc]) (fun _ => trivial) (by simp [hpc]) trivial
  | copy hpc =>
    rw [hpc] at hwriter
    exact h.stay_writer (by simp only [applied, hpc]) (fun _ => trivial) (by simp [hpc])
      ⟨hwriter.1, hwriter.2, replaces_sortByKeys hwriter.2 hwriter.1.2⟩
  | push hpc =>
    rw [hpc] at hwriter
    obtain ⟨hheld, hactive, hr⟩ := hwriter
    refine h.move_writer (keeps_push hr.2) local_push h.ref
      (by simp only [applied, hpc]) (fun _ => trivial) (fun q _ hload => ?_)
      ⟨hheld, hactive, answered_push h.top hr⟩
    exact loaded_of_eq hload (by simp [hpc]) rfl rfl
  | swap hpc => exact h.swap_writer hpc
  | clear hpc => exact h.clear_writer hpc

/-- A step of the snapshot that changes nothing shared. -/
theorem stay_snapshotter {pc : Snapshotter} (h : ConsInv cfg s)
    (hs : s.SnapshotterAt s.applied s.writer pc) : ConsInv cfg { s with snapshotter := pc } :=
  h.move_snapshotter keeps_log local_mems h.ref (.inr rfl) hs

/-- The memtable that the drain copies has the last values only. -/
theorem current_loaded (h : ConsInv cfg s) (hload : s.Loaded s.writer p) :
    Current entry (lastValue s.applied) (s.content p) := by
  rcases hload with rfl | hempty | hpc
  · exact h.top.current
  · rw [hempty]
    exact current_nil
  · have hwriter := h.writer
    rw [hpc] at hwriter
    exact hwriter.1.2

/-- Nothing is in memory but the queue. -/
theorem answered_of_empty (h : ConsInv cfg s) (hempty : s.active = []) :
    ∃ b, s.Answered s.applied b := by
  have htop := h.top
  rw [hempty, answers_concat_empty fun _ => rfl] at htop
  refine ⟨s.popped + (s.immQueue.map (·.data)).length, ?_⟩
  rw [Answered, Nat.add_sub_cancel_left]
  exact settled_length htop

/-- When all memtables that were in the queue are flushed, the tables hold the last values. -/
theorem answers_tables {pending : List Nat} (h : ConsInv cfg s) (hb : s.Answered s.applied b)
    (hpending : ∀ i, s.popped ≤ i → i < b → i ∈ pending) (hflushed : ∀ i ∈ pending, i < s.flushed) :
    Answers entry (lastValue s.applied) s.tables := by
  have hle : b ≤ s.popped := by
    by_contra hlt
    have := hflushed s.popped (hpending s.popped (Nat.le_refl _) (Nat.not_le.mp hlt))
    exact absurd (this.trans_le h.marked) (Nat.lt_irrefl _)
  have := hb 0 (Nat.le_of_eq (Nat.sub_eq_zero_of_le hle))
  rwa [List.take_zero, List.append_nil] at this

theorem snapshotter_step (h : ConsInv cfg s) (hok : s.CopySafe)
    (hstep : s.snapshotterStep cfg = some s') : ConsInv cfg s' := by
  have hsnap := h.snapshotter
  cases snapshotterStep_cases hstep with
  | empty hpc hsize =>
    rw [CopySafe, hpc] at hok
    obtain ⟨hquiet, hempty⟩ := hok hsize
    exact h.stay_snapshotter ⟨hquiet, h.answered_of_empty hempty⟩
  | nonempty hpc | sealed hpc =>
    rw [hpc] at hsnap
    exact h.stay_snapshotter hsnap
  | copy hpc =>
    rw [hpc] at hsnap
    rw [CopySafe, hpc] at hok
    exact h.stay_snapshotter
      ⟨hok.1, hsnap.1, replaces_sortByKeys hok.2 (h.current_loaded hsnap.2)⟩
  | push hpc =>
    rw [hpc] at hsnap
    obtain ⟨hquiet, hp, hr⟩ := hsnap
    exact h.move_snapshotter (keeps_push hr.2) local_push h.ref (.inr rfl)
      ⟨hquiet, hp, answered_push h.top hr⟩
  | swap hpc =>
    rw [hpc] at hsnap
    obtain ⟨hquiet, hp, hb⟩ := hsnap
    exact h.move_snapshotter (keeps_swap hb) local_mems (by simp [Shared.swap])
      (.inl hquiet) ⟨hquiet, by simpa [Shared.swap] using Nat.lt_succ_of_lt hp, hp.ne, hb⟩
  | clear hpc =>
    rw [hpc] at hsnap
    obtain ⟨hquiet, hp, hne, hb⟩ := hsnap
    exact h.move_snapshotter (keeps_clear hne hp) local_mems
      (by simpa [Shared.clear] using h.ref) (.inl hquiet) ⟨hquiet, hb⟩
  | wait hpc =>
    rw [hpc] at hsnap
    obtain ⟨hquiet, b, hb⟩ := hsnap
    refine h.stay_snapshotter ⟨hquiet, s.popped + s.immQueue.length, ?_, ?_⟩
    · rw [Answered, Nat.add_sub_cancel_left,
        show s.immQueue.length = (s.immQueue.map (·.data)).length from (List.length_map _).symm]
      exact settled_length hb.answers
    · exact fun i hle hlt => List.mem_range'_1.mpr ⟨hle, hlt⟩
  | done hpc hflushed =>
    rw [hpc] at hsnap
    obtain ⟨hquiet, b, hb, hpending⟩ := hsnap
    have happlied : s.applied = s.hist := by
      unfold applied
      split <;> simp_all [Quiet]
    have hans := h.answers_tables hb hpending hflushed
    rw [happlied] at hans
    refine ⟨⟨h.registered.of_eq rfl rfl, h.ref, h.marked, h.top, ?_, h.flusher⟩,
      h.snapshots.snapshot h.registered hans, trivial⟩
    exact (keeps_log : Keeps s.applied s.toShared _).writerAt rfl (.inr rfl) h.writer

theorem flusher_step (h : ConsInv cfg s) (hstep : s.flusherStep path = some s') :
    ConsInv cfg s' := by
  have hflush := h.flusher
  cases flusherStep_cases hstep with
  | peek _ hhead =>
    exact h.move_flusher keeps_log h.registered h.snapshots rfl rfl rfl (Nat.le_refl _)
      h.marked hhead
  | write hpc hfresh =>
    rw [hpc] at hflush
    have htables := fun t => tables_writeTable_eq (t := t) h.registered.opens hfresh
    refine h.move_flusher (keeps_of_tables rfl rfl rfl rfl (htables _))
      (h.registered.writeTable hfresh) (h.snapshots.writeTable hfresh) rfl rfl rfl (Nat.le_refl _)
      h.marked ⟨hflush, ?_⟩
    simp [Engine.getOrOpen, Engine.writeTable]
  | register hpc =>
    rw [hpc] at hflush
    obtain ⟨hhead, ht⟩ := hflush
    exact h.move_flusher (keeps_register h.registered.level hhead ht)
      (h.registered.register ht) (h.snapshots.of_eq rfl rfl rfl rfl) rfl rfl rfl (Nat.le_refl _)
      h.marked ⟨hhead, s.tables, tables_register_eq h.registered.level ht⟩
  | purge hpc =>
    rw [hpc] at hflush
    exact h.move_flusher keeps_log (h.registered.of_eq rfl rfl)
      (h.snapshots.log (h.snapshots.logged.purgeUpTo _).1 rfl) rfl rfl rfl (Nat.le_refl _) h.marked
      ⟨_, hflush⟩
  | pop hpc =>
    rw [hpc] at hflush
    obtain ⟨im, hcopied⟩ := hflush
    exact h.move_flusher (keeps_pop hcopied) (h.registered.of_eq rfl rfl)
      (h.snapshots.of_eq rfl rfl rfl rfl) rfl rfl rfl (Nat.le_succ _) (Nat.le_succ_of_le h.marked)
      (Nat.lt_succ_of_le h.marked)
  | mark hpc =>
    rw [hpc] at hflush
    exact h.move_flusher keeps_log (h.registered.of_eq rfl rfl)
      (h.snapshots.of_eq rfl rfl rfl rfl) rfl rfl rfl (Nat.le_refl _) hflush trivial

theorem rotate_step (h : ConsInv cfg s) (hid : s.wal.segmentID + 1 < 10 ^ 9) :
    ConsInv cfg { s with toShared := s.rotate } := by
  obtain ⟨wal, hrotate, hlogged, -, happ⟩ := h.snapshots.logged.rotate hid
  rw [hrotate]
  exact h.move_flusher keeps_log (h.registered.of_eq rfl rfl) (h.snapshots.log hlogged happ)
    rfl rfl rfl (Nat.le_refl _) h.marked h.flusher

theorem step (h : ConsInv cfg s) (hok : s.SnapshotSafe a) (hstep : s.step cfg a = some s') :
    ConsInv cfg s' := by
  cases a with
  | append key value => exact h.append hok.1 hok.2 hstep
  | writer => exact h.writer_step hstep
  | takeSnapshot =>
    simp only [Running.step] at hstep
    split at hstep
    · cases hstep
      exact h.stay_snapshotter ⟨h.ref, .inl rfl⟩
    · cases hstep
  | snapshotter => exact h.snapshotter_step hok hstep
  | flusher path => exact h.flusher_step hstep
  | rotate =>
    cases hstep
    exact h.rotate_step hok

end ConsInv

/-- In every run in which each drain copies the active memtable (or finds nothing to copy) while no
write is on its way from the log to it, and in which no write is appended from that copy until the
snapshot is returned, every snapshot is consistent. -/
theorem consistent_of_snapshotSafe
    (hok : System.Guarded (step cfg) SnapshotSafe
      (init cfg (.newAppendStorageInDir [] segmentSize bufferSize) : Running M) actions)
    (hrun : System.run (step cfg)
      (init cfg (.newAppendStorageInDir [] segmentSize bufferSize) : Running M) actions = some s) :
    ∀ snap ∈ s.snapshots, snap.Consistent s.toShared := by
  have h : ConsInv cfg s := System.run_invariant_of_guarded
    (I := fun _ (s : Running M) => ConsInv cfg s) .init (fun h hok hs => h.step hok hs) hok hrun
  exact h.snapshots.consistent

/-- A write between the start of a snapshot and its copy of the memtable is in the files; one behind
the snapshot is not covered by its LSN. -/
theorem consistent_of_snapshotSafe_flushed : ∃ s ∈ System.run (step defaultConfig)
    (init defaultConfig (.newAppendStorageInDir [] 67108864 65536) : Running HashMap)
    [.append [97] [1], .writer, .writer, .writer, .takeSnapshot, .snapshotter, .append [98] [2],
      .writer, .writer, .writer, .snapshotter, .snapshotter, .snapshotter, .snapshotter,
      .snapshotter, .snapshotter, .flusher 7, .flusher 7, .flusher 7, .flusher 7, .flusher 7,
      .flusher 7, .snapshotter, .append [97] [3]],
    s.snapshots = [⟨2, [[7], [], [], []]⟩] ∧ ∀ snap ∈ s.snapshots, snap.Consistent s.toShared := by
  refine ⟨Option.get _ (by decide +kernel), Option.get_mem _, by decide +kernel, ?_⟩
  exact consistent_of_snapshotSafe (by decide +kernel) (Option.some_get _).symm

/-- A write between the drain and the end of the snapshot is covered by its LSN and not in a
file. -/
theorem snapshot_misses_write : ∃ s ∈ System.run (step defaultConfig)
    (init defaultConfig (.newAppendStorageInDir [] 67108864 65536) : Running HashMap)
    [.takeSnapshot, .snapshotter, .snapshotter, .append [97] [1], .writer, .writer, .writer,
      .snapshotter], ∃ snap ∈ s.snapshots, ¬snap.Consistent s.toShared := by
  decide +kernel

end Running
end ChudDB
