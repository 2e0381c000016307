import ChudDB.Engine.SnapshotConsistency

/-! # A read among seals and flushes

`Read` (`read.go`) against the writer and the flusher, call by call: the reader loads the active
memtable, asks it, asks the immutable memtables that are then in the queue, and asks the tables. In
the meantime a sealed memtable moves from the active place to the queue and on to a table. Each move
publishes the entries in their new place before it takes them out of the old one, and the reader
asks the places in the same order, so it does not miss a key that nobody writes while it is at
work. -/

namespace ChudDB
open Lib Wal

/-- How far `Read` has come: after the load of the active memtable, its `Get`, and the `Get` of the
queue's memtables, when these did not find the key; and what it returned. -/
inductive ReadCall where
  | idle
  | loaded (key : Key) (mem : MemRef)
  | missedMem (key : Key)
  | missedQueue (key : Key)
  | returned (key : Key) (value : Option Value)
deriving DecidableEq, Repr

/-- A running engine with a reader. -/
structure Reading (M : Type) extends Running M where
  reader : ReadCall

/-- A step of the writer, the flusher or the reader; `load` starts a read. -/
inductive ReadAction where
  | append (key : Key) (value : Value)
  | writer
  | flusher (path : Path)
  | rotate
  | load (key : Key)
  | reader
deriving DecidableEq, Repr

namespace Reading

variable {M : Type} [Memtable M] (cfg : Config)

def init (wal : AppendFileStorage) : Reading M where
  toRunning := .init cfg wal
  reader := .idle

/-- What `Read` returns for a value it has found. -/
def answer (value : Value) : Option Value := if value = cfg.tombstone then none else some value

def readerStep (s : Reading M) : Option (Reading M) :=
  match s.reader with
  | .idle | .returned _ _ => none
  | .loaded key p =>
    match Memtable.get cfg.tombstone (s.mem p) key with
    | some v => some { s with reader := .returned key (answer cfg v) }
    | none => some { s with reader := .missedMem key }
  | .missedMem key =>
    match s.immQueue.reverse.findSome? (·.get cfg.tombstone key) with
    | some v => some { s with reader := .returned key (answer cfg v) }
    | none => some { s with reader := .missedQueue key }
  | .missedQueue key => some { s with reader := .returned key (s.readFromSSTables cfg key) }

/-- `load` is `loadActiveMem`, the first step of a read. -/
def loadStep (key : Key) (s : Reading M) : Option (Reading M) :=
  match s.reader with
  | .idle | .returned _ _ => some { s with reader := .loaded key s.activeMem }
  | _ => none

def step (s : Reading M) : ReadAction → Option (Reading M)
  | .append key value => (s.appendStep cfg key value).map fun r => { s with toRunning := r }
  | .writer => (s.writerStep cfg).map fun r => { s with toRunning := r }
  | .flusher path => (s.flusherStep path).map fun r => { s with toRunning := r }
  | .rotate => some { s with toShared := s.rotate }
  | .load key => s.loadStep key
  | .reader => s.readerStep cfg

end Reading

variable {M : Type} [Memtable M] {cfg : Config}

namespace Shared

variable {s s' : Shared M}

/-! ## Where a key is found -/

/-- The tables with the first `m` memtables of the queue have the value of the key, for all `m` from
`n` on. -/
def Behind (k : Key) (v : Value) (n : Nat) (s : Shared M) : Prop :=
  Settled (fun l (_ : Unit) => entry l k) (fun _ => some v) s.tables (s.immQueue.map (·.data)) n

/-- A change during which a reader does not lose the key. -/
structure Moves (k : Key) (v : Value) (s s' : Shared M) : Prop where
  length : s.mems.length ≤ s'.mems.length
  content : ∀ p < s.mems.length, entry (s'.content p) k = entry (s.content p) k ∨
    entry (s'.content p) k = none ∧ ∃ n, s'.Behind k v n
  behind : ∀ n, s.Behind k v n → ∃ m ≤ n, s'.Behind k v m

/-- What the reader of a key relies on. -/
def ReaderAt (k : Key) (v : Value) (s : Shared M) : ReadCall → Prop
  | .idle => False
  | .loaded key p => key = k ∧ p < s.mems.length ∧
    (entry (s.content p) k = some v ∨ entry (s.content p) k = none ∧ ∃ n, s.Behind k v n)
  | .missedMem key => key = k ∧ ∃ n, s.Behind k v n
  | .missedQueue key => key = k ∧ s.Behind k v 0
  | .returned key value => key = k ∧ value = some v

theorem Moves.exists_behind (h : Moves k v s s') (hb : ∃ n, s.Behind k v n) :
    ∃ n, s'.Behind k v n := by
  obtain ⟨n, hn⟩ := hb
  obtain ⟨m, -, hm⟩ := h.behind n hn
  exact ⟨m, hm⟩

theorem Moves.readerAt {pc : ReadCall} (h : Moves k v s s') (hr : s.ReaderAt k v pc) :
    s'.ReaderAt k v pc := by
  cases pc with
  | idle => exact hr
  | loaded key p =>
    obtain ⟨hkey, hp, hfound⟩ := hr
    refine ⟨hkey, hp.trans_le h.length, ?_⟩
    rcases h.content p hp with hsame | hgone
    · rw [hsame]
      exact hfound.imp_right fun hb => ⟨hb.1, h.exists_behind hb.2⟩
    · exact .inr hgone
  | missedMem key => exact ⟨hr.1, h.exists_behind hr.2⟩
  | missedQueue key =>
    obtain ⟨hkey, hb⟩ := hr
    obtain ⟨m, hm, hb⟩ := h.behind 0 hb
    rw [Nat.le_zero.mp hm] at hb
    exact ⟨hkey, hb⟩
  | returned key value => exact hr

omit [Memtable M] in
theorem behind_of_answers (h : Answers entry (lastValue ws) s.layers)
    (hlast : lastValue ws k = some v) : ∃ n, s.Behind k v n :=
  ⟨_, settled_length fun _ => (h k).trans hlast⟩

omit [Memtable M] in
theorem exists_behind_of_answered (hb : ∃ b, s.Answered ws b) (hlast : lastValue ws k = some v) :
    ∃ n, s.Behind k v n := by
  obtain ⟨b, hb⟩ := hb
  exact behind_of_answers hb.answers hlast

/-! ## The moves -/

theorem moves_of_tables (hmems : s'.mems = s.mems) (hqueue : s'.immQueue = s.immQueue)
    (htables : s'.tables = s.tables) : Moves k v s s' := by
  refine ⟨by rw [hmems], fun p _ => .inl ?_, fun n hn => ⟨n, Nat.le_refl _, ?_⟩⟩
  · rw [content, mem, hmems]
    rfl
  · rwa [Behind, htables, hqueue]

theorem moves_push (him : Current entry (lastValue ws) im.data) (hlast : lastValue ws k = some v) :
    Moves k v s { s with immQueue := s.immQueue ++ [im] } := by
  refine ⟨Nat.le_refl _, fun _ _ => .inl rfl, fun n hn => ⟨n, Nat.le_refl _, ?_⟩⟩
  rw [Behind, List.map_append, List.map_singleton]
  refine Settled.push hn fun _ b hb => ?_
  rw [← him k b hb, hlast]

theorem moves_swap : Moves k v s s.swap :=
  ⟨by simp [swap], fun p hp => .inl (by rw [content_swap hp]), fun n hn => ⟨n, Nat.le_refl _, hn⟩⟩

/-- A memtable is cleared when its entries are in the queue or in a table. -/
theorem moves_clear (hp : p < s.mems.length) (hb : ∃ n, s.Behind k v n) :
    Moves k v s (s.clear p) := by
  refine ⟨by simp [clear], fun q hq => ?_, fun n hn => ⟨n, Nat.le_refl _, hn⟩⟩
  by_cases heq : p = q
  · subst heq
    exact .inr ⟨by rw [content_clear_self hp]; rfl, hb⟩
  · exact .inl (by rw [content_clear_ne heq])

theorem moves_add (hp : p < s.mems.length) (hne : k ≠ key) : Moves k v s (s.add p key value) := by
  refine ⟨by simp [add], fun q hq => .inl ?_, fun n hn => ⟨n, Nat.le_refl _, hn⟩⟩
  by_cases heq : p = q
  · subst heq
    have hmem : (s.add p key value).mem p = Memtable.add (s.mem p) key value := by
      simp [add, mem, List.getD_eq_getElem?_getD, List.getElem?_set_self hp]
    rw [entry, entry, content, hmem, Memtable.lookup_add, if_neg hne]
    rfl
  · rw [content_add_ne heq]

theorem moves_register (hlevel : ∃ level0, s.versions = level0 :: List.replicate n [])
    (hhead : s.immQueue.head? = some im) (ht : s.getOrOpen path = some ⟨im.data, lsn⟩) :
    Moves k v s { s with versions := Engine.registerSSTable 0 path s.versions } := by
  have htables := tables_register_eq hlevel ht
  obtain ⟨rest, hqueue⟩ := List.head?_eq_some_iff.mp hhead
  refine ⟨Nat.le_refl _, fun _ _ => .inl rfl, fun n hn => ⟨n, Nat.le_refl _, ?_⟩⟩
  rw [Behind, htables]
  rw [Behind] at hn
  simp only [hqueue, List.map_cons] at hn ⊢
  exact hn.copy

theorem moves_pop (h : s.Copied im) :
    Moves k v s { s with immQueue := s.immQueue.tail, popped := s.popped + 1 } := by
  obtain ⟨hhead, older, htables⟩ := h
  obtain ⟨rest, hqueue⟩ := List.head?_eq_some_iff.mp hhead
  have htables' : tables { s with immQueue := s.immQueue.tail, popped := s.popped + 1 } =
      older ++ [im.data] := htables
  refine ⟨Nat.le_refl _, fun _ _ => .inl rfl, fun n hn => ⟨n - 1, Nat.sub_le _ _, ?_⟩⟩
  rw [Behind, htables']
  rw [Behind, htables] at hn
  simp only [hqueue, List.map_cons, List.tail_cons] at hn ⊢
  exact hn.pop

end Shared

namespace Running
open Shared

variable {s s' : Running M}

/-! ## The writer and the flusher -/

/-- The next step of the writer is to add a write to this key. -/
def Adds (key : Key) (s : Running M) : Prop :=
  match s.writer with
  | .loaded w _ => w.key = key
  | _ => False

omit [Memtable M] in
instance (s : Running M) : Decidable (s.Adds key) :=
  match s with
  | { writer := .loaded .., .. } => inferInstanceAs (Decidable (_ = key))
  | { writer := .idle, .. } | { writer := .appended _, .. } | { writer := .added .., .. }
  | { writer := .full .., .. } | { writer := .copied .., .. } | { writer := .pushed _, .. }
  | { writer := .swapped _, .. } => isFalse not_false

/-- The queued memtables are sorted, and a memtable is cleared when the layers behind it hold its
entries. -/
structure RaceInv (cfg : Config) (s : Running M) : Prop extends Layered cfg s where
  sorted : ∀ im ∈ s.immQueue, SortedKeys im.data
  copied : ∀ p im, s.writer = .copied p im → SortedKeys im.data
  swapped : ∀ p, s.writer = .swapped p → ∃ b, s.Answered s.applied b

/-- The step keeps the invariant, and a key with a value is not lost unless the step writes it. -/
def Passes (cfg : Config) (written : Key → Prop) (s s' : Running M) : Prop :=
  RaceInv cfg s' ∧ ∀ k v, lastValue s.applied k = some v → ¬ written k →
    lastValue s'.applied k = some v ∧ Moves k v s.toShared s'.toShared

namespace RaceInv

theorem init : RaceInv cfg (init cfg w : Running M) := by
  refine ⟨.init, ?_, ?_, ?_⟩
  all_goals simp [Running.init]

/-- A step of the writer that adds nothing. -/
theorem move_writer {pc : Writer} {t : Shared M} (h : RaceInv cfg s)
    (hk : Keeps s.applied s.toShared t) (hl : Local s.toShared t)
    (href : t.activeMem < t.mems.length)
    (ha : applied { s with toShared := t, writer := pc } = s.applied)
    (hsorted : ∀ im ∈ t.immQueue, SortedKeys im.data)
    (hcopied : ∀ p im, pc = .copied p im → SortedKeys im.data)
    (hw : t.WriterAt s.applied pc) (hswapped : ∀ p, pc = .swapped p → ∃ b, t.Answered s.applied b)
    (hm : ∀ k v, lastValue s.applied k = some v → Moves k v s.toShared t) :
    s.Passes cfg written { s with toShared := t, writer := pc } := by
  refine ⟨⟨h.toLayered.move_writer hk hl href ha hw, hsorted, hcopied, ?_⟩,
    fun k v hlast _ => ⟨?_, hm k v hlast⟩⟩
  · rw [ha]
    exact hswapped
  · rw [ha]
    exact hlast

/-- A step of the writer that changes nothing shared. -/
theorem stay_writer {pc : Writer} (h : RaceInv cfg s)
    (ha : applied { s with writer := pc } = s.applied)
    (hcopied : ∀ p im, pc = .copied p im → SortedKeys im.data) (hw : s.WriterAt s.applied pc)
    (hswapped : ∀ p, pc ≠ .swapped p) : s.Passes cfg written { s with writer := pc } :=
  h.move_writer keeps_log local_mems h.ref ha h.sorted hcopied hw
    (fun p hp => absurd hp (hswapped p)) fun _ _ _ => moves_of_tables rfl rfl rfl

theorem add (h : RaceInv cfg s) (hw : s.writer = .loaded w s.activeMem) :
    s.Passes cfg s.Adds { s with
      toShared := s.add s.activeMem w.key w.value, writer := .added w s.activeMem } := by
  refine ⟨⟨h.toLayered.add hw, h.sorted, by simp, by simp⟩, fun k v hlast hadds => ?_⟩
  change ¬ s.Adds k at hadds
  rw [Adds, hw] at hadds
  refine ⟨?_, moves_add h.ref (Ne.symm hadds)⟩
  change lastValue s.hist k = some v
  rw [h.hist_of_loaded hw, lastValue_concat, if_neg hadds]
  exact hlast

theorem writer_step (h : RaceInv cfg s) (hstep : s.writerStep cfg = some s') :
    s.Passes cfg s.Adds s' := by
  have hwriter := h.writer
  cases writerStep_cases hstep with
  | load hpc =>
    rw [hpc] at hwriter
    exact h.stay_writer (by simp only [applied, hpc]) (by simp) ⟨rfl, hwriter⟩ (by simp)
  | add hpc =>
    rw [hpc] at hwriter
    obtain ⟨rfl, -⟩ := hwriter
    exact h.add hpc
  | full hpc =>
    rw [hpc] at hwriter
    exact h.stay_writer (by simp only [applied, hpc]) (by simp) hwriter (by simp)
  | done hpc => exact h.stay_writer (by simp only [applied, hpc]) (by simp) trivial (by simp)
  | copy hpc =>
    rw [hpc] at hwriter
    refine h.stay_writer (by simp only [applied, hpc]) (fun q im heq => ?_)
      ⟨hwriter.1, hwriter.2, replaces_sortByKeys hwriter.2 hwriter.1.2⟩ (by simp)
    cases heq
    exact sortedKeys_sortByKeys (Memtable.nodup_toRaw _)
  | push hpc =>
    rw [hpc] at hwriter
    obtain ⟨hheld, hactive, hr⟩ := hwriter
    refine h.move_writer (keeps_push hr.2) local_push h.ref
      (by simp only [applied, hpc]) (fun im' him' => ?_) (by simp)
      ⟨hheld, hactive, answered_push h.top hr⟩ (by simp)
      fun k v hlast => moves_push hr.2 hlast
    rcases List.mem_append.mp him' with him' | him'
    · exact h.sorted im' him'
    · cases List.mem_singleton.mp him'
      exact h.copied _ _ hpc
  | swap hpc =>
    rw [hpc] at hwriter
    obtain ⟨hheld, -, hb⟩ := hwriter
    have hk := keeps_swap hb
    exact h.move_writer hk local_mems (by simp [Shared.swap])
      (by simp only [applied, hpc, Shared.swap]) h.sorted (by simp) ⟨hk.held hheld, hheld.1.ne⟩
      (fun _ _ => hb) fun _ _ _ => moves_swap
  | clear hpc =>
    rw [hpc] at hwriter
    obtain ⟨⟨hp, -⟩, hne⟩ := hwriter
    have hb := h.swapped _ hpc
    exact h.move_writer (keeps_clear hne hp) local_mems
      (by simpa [Shared.clear] using h.ref) (by simp only [applied, hpc, Shared.clear]) h.sorted
      (by simp) trivial (by simp)
      fun k v hlast => moves_clear hp (exists_behind_of_answered hb hlast)

/-- A step that concerns neither the memtables nor the end of the queue. -/
theorem move_flusher {pc : Flusher} {t : Shared M} (h : RaceInv cfg s)
    (hk : Keeps s.applied s.toShared t) (hr : t.Registered cfg) (hh : t.hist = s.hist)
    (hactive : t.activeMem = s.activeMem) (hsorted : ∀ im ∈ t.immQueue, SortedKeys im.data)
    (hmarked : t.flushed ≤ t.popped) (hf : t.FlusherAt pc)
    (hm : ∀ k v, lastValue s.applied k = some v → Moves k v s.toShared t) :
    s.Passes cfg written { s with toShared := t, flusher := pc } := by
  have ha : applied { s with toShared := t, flusher := pc } = s.applied := by
    simp only [applied, hh]
  refine ⟨⟨h.toLayered.move_flusher hk hr hh hactive hmarked hf, hsorted, h.copied, ?_⟩,
    fun k v hlast _ => ⟨?_, hm k v hlast⟩⟩
  · rw [ha]
    exact fun p hp => hk.exists_answered (h.swapped p hp)
  · rw [ha]
    exact hlast

/-- A step of the flusher that moves nothing. -/
theorem stay_flusher {pc : Flusher} {t : Shared M} (h : RaceInv cfg s) (hh : t.hist = s.hist)
    (hactive : t.activeMem = s.activeMem) (hmems : t.mems = s.mems)
    (hqueue : t.immQueue = s.immQueue) (hpop : t.popped = s.popped)
    (hversions : t.versions = s.versions) (hfiles : t.files = s.files)
    (hmarked : t.flushed ≤ t.popped) (hf : t.FlusherAt pc) :
    s.Passes cfg written { s with toShared := t, flusher := pc } := by
  have htables := tables_congr hversions hfiles
  exact h.move_flusher (keeps_of_tables hmems hactive hqueue hpop htables)
    (h.registered.of_eq hversions hfiles) hh hactive (hqueue ▸ h.sorted) hmarked hf
    fun _ _ _ => moves_of_tables hmems hqueue htables

theorem flusher_step (h : RaceInv cfg s) (hstep : s.flusherStep path = some s') :
    s.Passes cfg written s' := by
  have hflush := h.flusher
  cases flusherStep_cases hstep with
  | peek _ hhead => exact h.stay_flusher rfl rfl rfl rfl rfl rfl rfl h.marked hhead
  | write hpc hfresh =>
    rw [hpc] at hflush
    have htables := fun t => tables_writeTable_eq (t := t) h.registered.opens hfresh
    refine h.move_flusher (keeps_of_tables rfl rfl rfl rfl (htables _))
      (h.registered.writeTable hfresh) rfl rfl h.sorted h.marked ⟨hflush, ?_⟩
      fun _ _ _ => moves_of_tables rfl rfl (htables _)
    simp [Engine.getOrOpen, Engine.writeTable]
  | register hpc =>
    rw [hpc] at hflush
    obtain ⟨hhead, ht⟩ := hflush
    have hlevel := h.registered.level
    exact h.move_flusher (keeps_register hlevel hhead ht) (h.registered.register ht) rfl rfl
      h.sorted h.marked ⟨hhead, s.tables, tables_register_eq hlevel ht⟩
      fun _ _ _ => moves_register hlevel hhead ht
  | purge hpc =>
    rw [hpc] at hflush
    exact h.stay_flusher rfl rfl rfl rfl rfl rfl rfl h.marked ⟨_, hflush⟩
  | pop hpc =>
    rw [hpc] at hflush
    obtain ⟨im, hcopied⟩ := hflush
    exact h.move_flusher (keeps_pop hcopied) (h.registered.of_eq rfl rfl) rfl rfl
      (fun im' him' => h.sorted im' (List.mem_of_mem_tail him')) (Nat.le_succ_of_le h.marked)
      (Nat.lt_succ_of_le h.marked) fun _ _ _ => moves_pop hcopied
  | mark hpc =>
    rw [hpc] at hflush
    exact h.stay_flusher rfl rfl rfl rfl rfl rfl rfl hflush trivial

theorem rotate_step (h : RaceInv cfg s) : s.Passes cfg written { s with toShared := s.rotate } := by
  have hrotate : ∃ wal, s.rotate = { s.toShared with wal := wal } := by
    rw [Shared.rotate]
    split <;> exact ⟨_, rfl⟩
  obtain ⟨wal, hrotate⟩ := hrotate
  rw [hrotate]
  exact h.stay_flusher rfl rfl rfl rfl rfl rfl rfl h.marked h.flusher

theorem append_step (h : RaceInv cfg s) (hstep : s.appendStep cfg key value = some s') :
    s.Passes cfg written s' := by
  rw [appendStep] at hstep
  split at hstep
  · rename_i hidle
    cases hrun : (Engine.appendToWal cfg key value).run s.wal with
    | error err wal =>
      simp only [Shared.append, hrun] at hstep
      cases hstep
      exact h.stay_flusher rfl rfl rfl rfl rfl rfl rfl h.marked h.flusher
    | ok lsn wal =>
      simp only [Shared.append, hrun] at hstep
      cases hstep
      refine ⟨⟨h.toLayered.append hidle _ _, h.sorted, by simp, by simp⟩,
        fun k v hlast _ => ⟨?_, moves_of_tables rfl rfl rfl⟩⟩
      change lastValue (s.hist ++ [(⟨lsn, key, value⟩ : Write)]).dropLast k = some v
      rw [List.dropLast_concat]
      rw [applied, hidle] at hlast
      exact hlast
  · cases hstep

end RaceInv
end Running

namespace Reading

variable {s s' : Reading M}

/-- While a read of the key is at work, the key is not written and no other read begins. -/
def During (key : Key) (s : Reading M) : ReadAction → Prop
  | .writer => ¬ s.Adds key
  | .load _ => False
  | _ => True

omit [Memtable M] in
instance (key : Key) (s : Reading M) : DecidablePred (s.During key)
  | .writer => inferInstanceAs (Decidable (¬ s.Adds key))
  | .load _ => isFalse not_false
  | .append .. | .flusher _ | .rotate | .reader => isTrue trivial

/-- The steps of the reader that are still to come. -/
def stepsLeft : ReadCall → Nat
  | .loaded _ _ => 3
  | .missedMem _ => 2
  | .missedQueue _ => 1
  | .idle | .returned _ _ => 0

/-- The engine does its steps whatever the reader does. -/
theorem engine_step (h : s.RaceInv cfg) (hstep : s.step cfg a = some s')
    (hload : ∀ key, a ≠ .load key) (hreader : a ≠ .reader) :
    s.Passes cfg (fun k => a = .writer ∧ s.Adds k) s'.toRunning ∧ s'.reader = s.reader := by
  cases a with
  | append key value =>
    obtain ⟨r, hr, rfl⟩ := Option.map_eq_some_iff.mp hstep
    exact ⟨h.append_step hr, rfl⟩
  | writer =>
    obtain ⟨r, hr, rfl⟩ := Option.map_eq_some_iff.mp hstep
    obtain ⟨hinv, hpasses⟩ := h.writer_step hr
    exact ⟨⟨hinv, fun k v hlast hne => hpasses k v hlast fun hadds => hne ⟨rfl, hadds⟩⟩, rfl⟩
  | flusher path =>
    obtain ⟨r, hr, rfl⟩ := Option.map_eq_some_iff.mp hstep
    exact ⟨h.flusher_step hr, rfl⟩
  | rotate =>
    cases hstep
    exact ⟨h.rotate_step, rfl⟩
  | load key => exact absurd rfl (hload key)
  | reader => exact absurd rfl hreader

/-! ## The reader -/

/-- The memtable that is active when the read begins, or the layers behind it, have the value. -/
theorem readerAt_load (h : s.RaceInv cfg) (hlast : lastValue s.applied k = some v) :
    s.ReaderAt k v (.loaded k s.activeMem) := by
  refine ⟨rfl, h.ref, ?_⟩
  have htop := h.top k
  rw [newest_append, newest_singleton, hlast] at htop
  change entry s.active k = some v ∨ entry s.active k = none ∧ _
  cases hactive : entry s.active k with
  | some u =>
    rw [hactive] at htop
    exact .inl htop
  | none =>
    rw [hactive, Option.none_or] at htop
    exact .inr ⟨rfl, _, settled_length fun _ => htop⟩

/-- What the memtables of the queue answer: their versions of the key, newest first, without
deletes. -/
theorem findSome?_get_queue {queue : List ImmutableMemtable}
    (hsorted : ∀ im ∈ queue, SortedKeys im.data) :
    queue.reverse.findSome? (·.get cfg.tombstone k) =
      ((queue.map (·.data)).reverse.filterMap (entry · k)).find? (· ≠ cfg.tombstone) := by
  rw [← findSome?_filter, ← List.map_reverse, List.findSome?_map]
  apply findSome?_congr
  intro im him
  exact ImmutableMemtable.get_eq (hsorted im (List.mem_reverse.mp him))

omit [Memtable M] in
/-- The queue either has the value or nothing at all of the key. -/
theorem behind_queue (hsorted : ∀ im ∈ s.immQueue, SortedKeys im.data)
    (hb : ∃ n, s.Behind k v n) (hlive : v ≠ cfg.tombstone) :
    s.immQueue.reverse.findSome? (·.get cfg.tombstone k) = some v ∨
      s.immQueue.reverse.findSome? (·.get cfg.tombstone k) = none ∧ s.Behind k v 0 := by
  obtain ⟨n, hn⟩ := hb
  have hans : newest (entry · k) (s.tables ++ s.immQueue.map (·.data)) = some v := hn.answers ()
  rw [newest_append] at hans
  rw [findSome?_get_queue hsorted]
  cases hversions : (s.immQueue.map (·.data)).reverse.filterMap (entry · k) with
  | cons u older =>
    have hnewest : newest (entry · k) (s.immQueue.map (·.data)) = some u := by
      rw [newest, ← List.head?_filterMap, hversions]
      rfl
    rw [hnewest] at hans
    cases hans
    exact .inl (List.find?_cons_of_pos (by simpa using hlive))
  | nil =>
    have hnone : ∀ l ∈ s.immQueue.map (·.data), entry l k = none := fun l hl =>
      List.filterMap_eq_nil_iff.mp hversions l (List.mem_reverse.mpr hl)
    have hempty : ∀ m, newest (entry · k) ((s.immQueue.map (·.data)).take m) = none := fun m =>
      List.findSome?_eq_none_iff.mpr fun l hl =>
        hnone l (List.mem_of_mem_take (List.mem_reverse.mp hl))
    refine .inr ⟨rfl, fun m _ _ => ?_⟩
    have hall := hempty (s.immQueue.map (·.data)).length
    rw [List.take_length] at hall
    rw [hall, Option.none_or] at hans
    rw [newest_append, hempty m, Option.none_or]
    exact hans

theorem readerStep_toRunning (hstep : s.readerStep cfg = some s') :
    s'.toRunning = s.toRunning := by
  rw [readerStep] at hstep
  split at hstep
  · cases hstep
  · cases hstep
  · split at hstep <;> cases hstep <;> rfl
  · split at hstep <;> cases hstep <;> rfl
  · cases hstep
    rfl

theorem reader_step (h : s.RaceInv cfg) (hr : s.ReaderAt k v s.reader) (hlive : v ≠ cfg.tombstone)
    (hstep : s.readerStep cfg = some s') :
    s'.ReaderAt k v s'.reader ∧ stepsLeft s'.reader < stepsLeft s.reader := by
  rw [readerStep] at hstep
  cases hpc : s.reader with
  | idle =>
    rw [hpc] at hr
    exact hr.elim
  | returned key value =>
    rw [hpc] at hstep
    cases hstep
  | loaded key p =>
    rw [hpc] at hstep hr
    obtain ⟨rfl, hp, hfound⟩ := hr
    simp only [Memtable.get_eq] at hstep
    rcases hfound with hfound | ⟨hnone, hb⟩
    · rw [show (Memtable.toRaw (s.mem p)).lookup key = some v from hfound, live_some,
        if_neg hlive] at hstep
      cases hstep
      exact ⟨⟨rfl, if_neg hlive⟩, by simp [stepsLeft]⟩
    · rw [show (Memtable.toRaw (s.mem p)).lookup key = none from hnone, live_none] at hstep
      cases hstep
      exact ⟨⟨rfl, hb⟩, by simp [stepsLeft]⟩
  | missedMem key =>
    rw [hpc] at hstep hr
    obtain ⟨rfl, hb⟩ := hr
    rcases behind_queue h.sorted hb hlive with hfound | ⟨hnone, hb⟩
    · simp only [hfound] at hstep
      cases hstep
      exact ⟨⟨rfl, if_neg hlive⟩, by simp [stepsLeft]⟩
    · simp only [hnone] at hstep
      cases hstep
      exact ⟨⟨rfl, hb⟩, by simp [stepsLeft]⟩
  | missedQueue key =>
    rw [hpc] at hstep hr
    obtain ⟨rfl, hb⟩ := hr
    cases hstep
    have htables : newest (entry · key) s.tables = some v := by
      have := hb 0 (Nat.le_refl _) ()
      rwa [List.take_zero, List.append_nil] at this
    refine ⟨⟨rfl, ?_⟩, by simp [stepsLeft]⟩
    rw [Engine.readFromSSTables_eq, Engine.tableVersion,
      Shared.firstVersion_eq_newest h.registered.level, htables, live_some, if_neg hlive]

/-- The state of a read: the engine and the reader keep the value of the key within reach. -/
structure ReadRun (cfg : Config) (k : Key) (v : Value) (during : List ReadAction) (s : Reading M) :
    Prop where
  engine : s.RaceInv cfg
  last : lastValue s.applied k = some v
  reader : s.ReaderAt k v s.reader
  left : during.count .reader + stepsLeft s.reader ≤ 3

theorem ReadRun.step {during : List ReadAction} (h : ReadRun cfg k v during s)
    (hlive : v ≠ cfg.tombstone) (hduring : s.During k a) (hstep : s.step cfg a = some s') :
    ReadRun cfg k v (during ++ [a]) s' := by
  by_cases hreader : a = .reader
  · subst hreader
    have hsame := readerStep_toRunning hstep
    obtain ⟨hr, hlt⟩ := reader_step h.engine h.reader hlive hstep
    refine ⟨hsame ▸ h.engine, hsame ▸ h.last, hr, ?_⟩
    have := h.left
    rw [List.count_append, List.count_singleton_self]
    omega
  · have hload : ∀ key, a ≠ .load key := by
      rintro key rfl
      exact hduring
    obtain ⟨⟨hengine, hpasses⟩, hsame⟩ := engine_step h.engine hstep hload hreader
    have hunwritten : ¬ (a = .writer ∧ s.Adds k) := by
      rintro ⟨rfl, hadds⟩
      exact hduring hadds
    obtain ⟨hlast, hmoves⟩ := hpasses k v h.last hunwritten
    refine ⟨hengine, hlast, hsame ▸ hmoves.readerAt h.reader, ?_⟩
    rw [List.count_append, List.count_singleton, hsame]
    simpa [hreader] using h.left

/-- A reader that has not returned is not blocked. -/
theorem ReadRun.returned_or_enabled {during : List ReadAction} (h : ReadRun cfg k v during s) :
    s.reader = .returned k (some v) ∨
      (s.step cfg .reader).isSome = true ∧ during.count .reader < 3 := by
  have hr := h.reader
  have hleft := h.left
  simp only [Reading.step, readerStep]
  cases hpc : s.reader with
  | idle =>
    rw [hpc] at hr
    exact hr.elim
  | returned key value =>
    rw [hpc] at hr
    obtain ⟨rfl, rfl⟩ := hr
    exact .inl rfl
  | loaded key p | missedMem key | missedQueue key =>
    rw [hpc] at hleft
    simp only [stepsLeft] at hleft
    refine .inr ⟨?_, by omega⟩
    simp only
    try split
    all_goals rfl

theorem raceInv_of_run
    (hrun : System.run (step cfg) (init cfg w : Reading M) actions = some s) : s.RaceInv cfg := by
  refine System.run_invariant (I := fun _ (s : Reading M) => s.RaceInv cfg) .init ?_ hrun
  intro _ s a s' h hstep
  cases a with
  | load key =>
    simp only [step, loadStep] at hstep
    split at hstep
    · cases hstep
      exact h
    · cases hstep
      exact h
    · cases hstep
  | reader =>
    have hsame : s'.toRunning = s.toRunning := readerStep_toRunning hstep
    exact hsame ▸ h
  | append | writer | flusher | rotate => exact (engine_step h hstep (by simp) (by simp)).1.1

/-- In every interleaving, a read of a key whose last value before it began is `v`, not a delete,
and that is not written while the read is at work, returns `v`: at each moment it has returned `v`,
or its next step can be taken and is one of at most three. -/
theorem read_returns_last (hbefore : System.run (step cfg) (init cfg w : Reading M) before = some s₀)
    (hlast : lastValue s₀.applied k = some v) (hlive : v ≠ cfg.tombstone)
    (hload : s₀.step cfg (.load k) = some s₁)
    (hduring : System.Guarded (step cfg) (During k) s₁ during)
    (hrun : System.run (step cfg) s₁ during = some s) :
    s.reader = .returned k (some v) ∨
      (s.step cfg .reader).isSome = true ∧ during.count .reader < 3 := by
  have hengine := raceInv_of_run hbefore
  have hstart : s₁ = { s₀ with reader := .loaded k s₀.activeMem } := by
    simp only [step, loadStep] at hload
    split at hload
    · exact (Option.some.inj hload).symm
    · exact (Option.some.inj hload).symm
    · cases hload
  have h0 : ReadRun cfg k v [] s₁ := by
    rw [hstart]
    exact ⟨hengine, hlast, readerAt_load hengine hlast, Nat.le_refl _⟩
  have h : ReadRun cfg k v during s := System.run_invariant_of_guarded h0
    (fun h hok hs => h.step hlive hok hs) hduring hrun
  exact h.returned_or_enabled

/-- The memtable is cleared under the reader, and the reader finds its entries in a table. -/
theorem read_returns_last_sealed :
    ∃ s₀ ∈ System.run (step sealingConfig)
      (init sealingConfig (.newAppendStorageInDir [] 67108864 65536) : Reading HashMap)
      [.append [107] [118], .writer, .writer, .writer],
    ∃ s₁ ∈ s₀.step sealingConfig (.load [107]),
    ∃ s ∈ System.run (step sealingConfig) s₁
      [.writer, .writer, .writer, .writer, .reader, .flusher 7, .flusher 7, .flusher 7, .flusher 7,
        .flusher 7, .reader, .reader],
    s.reader = .returned [107] (some [118]) := by
  refine ⟨Option.get _ (by decide +kernel), Option.get_mem _, Option.get _ (by decide +kernel),
    Option.get_mem _, Option.get _ (by decide +kernel), Option.get_mem _, ?_⟩
  refine (read_returns_last (Option.get_mem _) (by decide +kernel) (by decide) (Option.get_mem _)
    (by decide +kernel) (Option.get_mem _)).resolve_right fun hpending => ?_
  exact absurd hpending.2 (by decide)

end Reading
end ChudDB
