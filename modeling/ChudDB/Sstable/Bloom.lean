import ChudDB.Lib.Bytes

/-! # Bloom filters

`BloomFilter` (`filter.go`, `hash.go`) and `PrefixBloomFilter` (`prefixfilter.go`) with their byte
format. The digest is a parameter, and so are the float formulas of `params.go`, which give the
number of hash functions and of cells. What was added is found (`check_addMultiple`,
`contains_addMultiple`), also after a round through the byte format. -/

namespace ChudDB.Sstable
open Lib

/-- What `calculateParams` computes for an expected number of elements; both numbers are stored as
`int32`. -/
structure BloomParams (expectedElements : Nat) where
  k : Nat
  m : Nat
  k_lt : k < 2 ^ 31
  m_lt : m < 2 ^ 31
  m_pos : 0 < expectedElements → 0 < m

/-- What the filters take from elsewhere: `md5`, and the parameters at the configured false positive
rate. -/
structure Hashing where
  md5 : Bytes → Bytes
  calculateParams (expectedElements : Nat) : BloomParams expectedElements

/-- `BloomFilter`; a hash function is given by its seed. -/
structure BloomFilter where
  k : Nat
  m : Nat
  array : Bytes
  hashes : List Bytes
deriving DecidableEq, Repr

/-- `CreateHashFunctions`; `ts` is the random number it draws. -/
def createHashFunctions (k ts : Nat) : List Bytes :=
  (List.range k).map fun i => beBytes 4 ((ts + i) % 2 ^ 32)

namespace BloomFilter

variable (env : Hashing)

/-- `NewBloomFilterWithParams`. -/
def newBloomFilterWithParams (expectedElements ts : Nat) : BloomFilter :=
  let p := env.calculateParams expectedElements
  ⟨p.k, p.m, List.replicate p.m 0, createHashFunctions p.k ts⟩

/-- `NewBloomFilterWithParams` once `calculateParams` has set `K` and `M`. -/
def withParams (k m ts : Nat) : BloomFilter :=
  ⟨k, m, List.replicate m 0, createHashFunctions k ts⟩

/-- The cell that the hash function with the given seed selects. -/
def cell (f : BloomFilter) (s seed : Bytes) : Nat :=
  beNat ((env.md5 (s ++ seed)).take 8) % f.m

/-- `BloomFilter.Add`. -/
def add (f : BloomFilter) (s : Bytes) : BloomFilter :=
  { f with array := f.hashes.foldl (fun array seed => array.set (f.cell env s seed) 1) f.array }

/-- `BloomFilter.AddMultiple`. -/
def addMultiple (f : BloomFilter) (l : List Bytes) : BloomFilter := l.foldl (add env) f

/-- `BloomFilter.Check`. -/
def check (f : BloomFilter) (s : Bytes) : Bool :=
  f.hashes.all fun seed => f.array.getD (f.cell env s seed) 0 == 1

/-- `SerializeToByteArray`. -/
def serializeToByteArray (f : BloomFilter) : Bytes :=
  beBytes 4 f.k ++ (beBytes 4 f.m ++ (f.array ++ f.hashes.flatten))

/-- The loop of `DeserializeFromByteArray` that reads the seeds. -/
def readSeeds : Nat → Bytes → Option (List Bytes)
  | 0, _ => some []
  | n + 1, data => do
    let (seed, data) ← takeN 4 data
    return seed :: (← readSeeds n data)

/-- `DeserializeFromByteArray`. -/
def deserializeFromByteArray (data : Bytes) : Option BloomFilter := do
  let (k, data) ← takeN 4 data
  let (m, data) ← takeN 4 data
  let (array, data) ← takeN (beNat m) data
  let hashes ← readSeeds (beNat k) data
  return ⟨beNat k, beNat m, array, hashes⟩

/-! ## No false negatives -/

/-- The filters `newBloomFilterWithParams` makes and `add` keeps. -/
structure Valid (f : BloomFilter) : Prop where
  k_lt : f.k < 2 ^ 31
  m_lt : f.m < 2 ^ 31
  m_pos : 0 < f.m
  length_array : f.array.length = f.m
  length_hashes : f.hashes.length = f.k
  length_seed : ∀ seed ∈ f.hashes, seed.length = 4

variable {env}

theorem valid_withParams {k m : Nat} (hk : k < 2 ^ 31) (hm : m < 2 ^ 31) (hpos : 0 < m) :
    (withParams k m ts).Valid where
  k_lt := hk
  m_lt := hm
  m_pos := hpos
  length_array := List.length_replicate
  length_hashes := by simp [withParams, createHashFunctions]
  length_seed := by simp [withParams, createHashFunctions]

theorem valid_new (hn : 0 < n) : (newBloomFilterWithParams env n ts).Valid :=
  valid_withParams (env.calculateParams n).k_lt (env.calculateParams n).m_lt
    ((env.calculateParams n).m_pos hn)

theorem length_foldl_set {seeds : List Bytes} {c : Bytes → Nat} {array : Bytes} :
    (seeds.foldl (fun array seed => array.set (c seed) 1) array).length = array.length := by
  induction seeds generalizing array with
  | nil => rfl
  | cons seed seeds ih => rw [List.foldl_cons, ih, List.length_set]

/-- A cell that is set stays set, and the cells of the given seeds are set in the end. -/
theorem getD_foldl_set {seeds : List Bytes} {c : Bytes → Nat} {array : Bytes} (hj : j < array.length)
    (h : array.getD j 0 = 1 ∨ ∃ seed ∈ seeds, c seed = j) :
    (seeds.foldl (fun array seed => array.set (c seed) 1) array).getD j 0 = 1 := by
  induction seeds generalizing array with
  | nil =>
    rcases h with h | ⟨seed, hmem, -⟩
    · exact h
    · cases hmem
  | cons seed seeds ih =>
    rw [List.foldl_cons]
    refine ih (by rwa [List.length_set]) ?_
    by_cases hc : c seed = j
    · left
      rw [hc, List.getD_eq_getElem _ _ (by rwa [List.length_set]), List.getElem_set_self]
    · rcases h with h | ⟨seed', hmem, hc'⟩
      · left
        rw [List.getD_eq_getElem _ _ (by rwa [List.length_set]), List.getElem_set_ne hc]
        rwa [List.getD_eq_getElem _ _ hj] at h
      · rcases List.mem_cons.mp hmem with rfl | hmem
        · exact absurd hc' hc
        · exact .inr ⟨seed', hmem, hc'⟩

variable {f : BloomFilter}

theorem Valid.add (h : f.Valid) : (f.add env s).Valid :=
  { h with length_array := length_foldl_set.trans h.length_array }

theorem Valid.cell_lt (h : f.Valid) : f.cell env s seed < f.array.length := by
  rw [h.length_array]
  exact Nat.mod_lt _ h.m_pos

theorem Valid.check_add (h : f.Valid) (hs : f.check env s ∨ s = s') :
    (f.add env s').check env s := by
  rw [check, List.all_eq_true]
  intro seed hseed
  rw [beq_iff_eq]
  refine getD_foldl_set (h.cell_lt (s := s)) ?_
  rcases hs with hs | rfl
  · exact .inl (beq_iff_eq.mp (List.all_eq_true.mp hs seed hseed))
  · exact .inr ⟨seed, hseed, rfl⟩

theorem Valid.addMultiple (h : f.Valid) : (f.addMultiple env l).Valid := by
  induction l generalizing f with
  | nil => exact h
  | cons s l ih => exact ih h.add

/-- Everything that was added is found. -/
theorem Valid.check_addMultiple (h : f.Valid) (hs : f.check env s ∨ s ∈ l) :
    (f.addMultiple env l).check env s := by
  induction l generalizing f with
  | nil => exact hs.resolve_right List.not_mem_nil
  | cons s' l ih =>
    refine ih h.add ?_
    rcases hs with hs | hs
    · exact .inl (h.check_add (.inl hs))
    · rcases List.mem_cons.mp hs with heq | hs
      · exact .inl (h.check_add (.inr heq))
      · exact .inr hs

/-! ## The byte format -/

theorem readSeeds_flatten {seeds : List Bytes} (h : ∀ seed ∈ seeds, seed.length = 4) :
    readSeeds seeds.length seeds.flatten = some seeds := by
  induction seeds with
  | nil => rfl
  | cons seed seeds ih =>
    rw [List.length_cons, List.flatten_cons, readSeeds, takeN_append (h _ List.mem_cons_self)]
    simp [ih fun seed hseed => h seed (List.mem_cons_of_mem _ hseed)]

theorem Valid.deserialize_serialize (h : f.Valid) :
    deserializeFromByteArray f.serializeToByteArray = some f := by
  have hk : beNat (beBytes 4 f.k) = f.k := beNat_beBytes_of_lt (h.k_lt.trans (by decide))
  have hm : beNat (beBytes 4 f.m) = f.m := beNat_beBytes_of_lt (h.m_lt.trans (by decide))
  have hseeds := readSeeds_flatten h.length_seed
  rw [h.length_hashes] at hseeds
  rw [deserializeFromByteArray, serializeToByteArray, takeN_append length_beBytes]
  simp only [Option.bind_eq_bind, Option.bind_some, takeN_append length_beBytes, hk, hm,
    takeN_append h.length_array, hseeds]
  rfl

end BloomFilter

/-! ## Filters for prefixes -/

/-- `MIN_PREFIX_LENGTH`, `MAX_PREFIX_LENGTH` and `BLOOM_FILTER_EXPECTED_ELEMENTS`. -/
structure PrefixConfig where
  minPrefixLength : Nat
  maxPrefixLength : Nat
  expectedElements : Nat
  min_le_max : minPrefixLength ≤ maxPrefixLength
  expectedElements_pos : 0 < expectedElements

/-- The values of `config.json`. -/
def defaultPrefixConfig : PrefixConfig := ⟨1, 128, 1000, by decide, by decide⟩

/-- `PrefixBloomFilter`. -/
structure PrefixBloomFilter where
  filter : BloomFilter
  minLength : Nat
  maxLength : Nat
deriving DecidableEq, Repr

namespace PrefixBloomFilter

variable (env : Hashing) (cfg : PrefixConfig)

/-- `NewPrefixBloomFilter`. -/
def newPrefixBloomFilter (ts : Nat) : PrefixBloomFilter where
  filter := .newBloomFilterWithParams env
    (cfg.expectedElements * (cfg.maxPrefixLength + 1 - cfg.minPrefixLength)) ts
  minLength := cfg.minPrefixLength
  maxLength := cfg.maxPrefixLength

/-- The prefixes that `PrefixBloomFilter.Add` adds for a key, shortest first. -/
def prefixes (minLength maxLength : Nat) (key : Bytes) : List Bytes :=
  (List.range' minLength (min maxLength key.length + 1 - minLength)).map key.take

/-- `PrefixBloomFilter.Add`. -/
def add (f : PrefixBloomFilter) (key : Bytes) : PrefixBloomFilter :=
  { f with filter := f.filter.addMultiple env (prefixes f.minLength f.maxLength key) }

/-- `PrefixBloomFilter.AddMultiple`. -/
def addMultiple (f : PrefixBloomFilter) (keys : List Bytes) : PrefixBloomFilter :=
  keys.foldl (add env) f

/-- `PrefixBloomFilter.Contains`. -/
def contains (f : PrefixBloomFilter) (pre : Bytes) : Bool :=
  if pre.length < f.minLength then true
  else if pre.length > f.maxLength then f.filter.check env (pre.take f.maxLength)
  else f.filter.check env pre

/-- `PrefixBloomFilter.SerializeToByteArray`. -/
def serializeToByteArray (f : PrefixBloomFilter) : Bytes := f.filter.serializeToByteArray

/-- `DeserializePrefixBloomFilter`. -/
def deserializePrefixBloomFilter (data : Bytes) : Option PrefixBloomFilter :=
  (BloomFilter.deserializeFromByteArray data).map
    (⟨·, cfg.minPrefixLength, cfg.maxPrefixLength⟩)

variable {env} {cfg} {f : PrefixBloomFilter}

theorem mem_prefixes {lo hi n : Nat} (hlo : lo ≤ n) (hhi : n ≤ hi) (hn : n ≤ key.length) :
    key.take n ∈ prefixes lo hi key := by
  refine List.mem_map_of_mem (List.mem_range'_1.mpr ⟨hlo, ?_⟩)
  omega

theorem valid_new : (newPrefixBloomFilter env cfg ts).filter.Valid := by
  refine BloomFilter.valid_new (Nat.mul_pos cfg.expectedElements_pos ?_)
  have := cfg.min_le_max
  omega

/-- Adding keys only changes the cells, and nothing that was found gets lost. -/
theorem addMultiple_spec (env : Hashing) (keys : List Bytes) (h : f.filter.Valid) :
    (f.addMultiple env keys).filter.Valid ∧
      (f.addMultiple env keys).minLength = f.minLength ∧
      (f.addMultiple env keys).maxLength = f.maxLength ∧
      ∀ s, (f.filter.check env s ∨ ∃ key ∈ keys, s ∈ prefixes f.minLength f.maxLength key) →
        (f.addMultiple env keys).filter.check env s := by
  induction keys generalizing f with
  | nil =>
    refine ⟨h, rfl, rfl, ?_⟩
    rintro s (hs | ⟨key, hkey, -⟩)
    · exact hs
    · cases hkey
  | cons key keys ih =>
    obtain ⟨hvalid, hmin, hmax, hcheck⟩ := ih (f := f.add env key) h.addMultiple
    refine ⟨hvalid, hmin, hmax, ?_⟩
    rintro s (hs | ⟨key', hkey, hs⟩)
    · exact hcheck s (.inl (h.check_addMultiple (.inl hs)))
    · rcases List.mem_cons.mp hkey with rfl | hkey
      · exact hcheck s (.inl (h.check_addMultiple (.inr hs)))
      · exact hcheck s (.inr ⟨key', hkey, hs⟩)

theorem deserialize_serialize (h : f.filter.Valid) (hmin : f.minLength = cfg.minPrefixLength)
    (hmax : f.maxLength = cfg.maxPrefixLength) :
    deserializePrefixBloomFilter cfg f.serializeToByteArray = some f := by
  rw [deserializePrefixBloomFilter, serializeToByteArray, h.deserialize_serialize, Option.map_some,
    ← hmin, ← hmax]

/-- Every prefix of a key that was added is found, whatever its length. -/
theorem contains_of_valid {keys : List Bytes} (h : f.filter.Valid) (hle : f.minLength ≤ f.maxLength)
    (hkey : key ∈ keys) (hpre : pre <+: key) : (f.addMultiple env keys).contains env pre := by
  obtain ⟨-, hmin, hmax, hcheck⟩ := addMultiple_spec env keys h
  have htake : ∀ n, f.minLength ≤ n → n ≤ f.maxLength → n ≤ key.length →
      (f.addMultiple env keys).filter.check env (key.take n) :=
    fun n h₁ h₂ h₃ => hcheck _ (.inr ⟨key, hkey, mem_prefixes h₁ h₂ h₃⟩)
  obtain ⟨n, rfl, hn⟩ : ∃ n, pre = key.take n ∧ n ≤ key.length :=
    ⟨pre.length, List.prefix_iff_eq_take.mp hpre, hpre.length_le⟩
  rw [contains, hmin, hmax, List.length_take_of_le hn]
  split
  · rfl
  · split
    · rw [List.take_take]
      exact htake _ (le_min hle (by omega)) (Nat.min_le_left _ _) (by omega)
    · exact htake _ (by omega) (by omega) hn

theorem contains_addMultiple {keys : List Bytes} (hkey : key ∈ keys) (hpre : pre <+: key) :
    ((newPrefixBloomFilter env cfg ts).addMultiple env keys).contains env pre :=
  contains_of_valid valid_new cfg.min_le_max hkey hpre

end PrefixBloomFilter

section
open BloomFilter PrefixBloomFilter
variable {k m k' m' : Nat}

/-- What was added to either filter is found after a round through the byte format. The lengths of
the prefixes are not stored, `DeserializePrefixBloomFilter` takes them from the configuration
again. -/
theorem filters_no_false_negatives (env : Hashing) (cfg : PrefixConfig) (ts ts' : Nat)
    (hk : k < 2 ^ 31) (hm : m < 2 ^ 31) (hpos : 1 ≤ m)
    (hk' : k' < 2 ^ 31) (hm' : m' < 2 ^ 31) (hpos' : 1 ≤ m') (keys : List Bytes) :
    (∃ f, deserializeFromByteArray
        ((withParams k m ts).addMultiple env keys).serializeToByteArray = some f ∧
      ∀ key ∈ keys, f.check env key) ∧
    ∃ f, deserializePrefixBloomFilter cfg
        ((PrefixBloomFilter.mk (withParams k' m' ts') cfg.minPrefixLength
          cfg.maxPrefixLength).addMultiple env keys).serializeToByteArray = some f ∧
      ∀ key ∈ keys, ∀ pre, pre <+: key → f.contains env pre := by
  have hvalid : (withParams k m ts).Valid := valid_withParams hk hm hpos
  have hvalid' : (withParams k' m' ts').Valid := valid_withParams hk' hm' hpos'
  constructor
  · refine ⟨_, hvalid.addMultiple.deserialize_serialize, fun key hkey => ?_⟩
    exact hvalid.check_addMultiple (.inr hkey)
  · obtain ⟨haddMultiple, hmin, hmax, -⟩ := addMultiple_spec
      (f := ⟨withParams k' m' ts', cfg.minPrefixLength, cfg.maxPrefixLength⟩) env keys hvalid'
    refine ⟨_, deserialize_serialize haddMultiple hmin hmax, fun key hkey pre hpre => ?_⟩
    exact contains_of_valid hvalid' cfg.min_le_max hkey hpre

/-- Both filters with three cells and two hash functions; the prefixes have lengths from 2 to 3. The
first byte of the digest is the first byte of its input. -/
theorem filters_no_false_negatives_small :
    let env : Hashing := ⟨fun data => data.take 1, fun _ => ⟨2, 3, by decide, by decide, by simp⟩⟩
    let cfg : PrefixConfig := ⟨2, 3, 1, by decide, by decide⟩
    (∃ f, deserializeFromByteArray
        ((withParams 2 3 7).addMultiple env [[1, 2, 3, 4], [5]]).serializeToByteArray = some f ∧
      ∀ key ∈ [[1, 2, 3, 4], [5]], f.check env key) ∧
    ∃ f, deserializePrefixBloomFilter cfg
        ((PrefixBloomFilter.mk (withParams 2 3 7) 2 3).addMultiple env
          [[1, 2, 3, 4], [5]]).serializeToByteArray = some f ∧
      ∀ key ∈ [[1, 2, 3, 4], [5]], ∀ pre, pre <+: key → f.contains env pre :=
  filters_no_false_negatives _ ⟨2, 3, 1, by decide, by decide⟩ 7 7 (by decide) (by decide)
    (by decide) (by decide) (by decide) (by decide) _

end
end ChudDB.Sstable
