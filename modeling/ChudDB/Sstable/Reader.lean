import ChudDB.Lib.SparseIndex
import ChudDB.Sstable.Writer

/-! # Reading table files

`SSTableReader` (`reader.go`): `Open` checks the footer and loads index and filters; `Get`,
`PrefixScan`, `RangeScan` and `ScanAll` find their blocks through the index. Reading through the
`BlockManager` returns the bytes of the file. -/

namespace ChudDB.Sstable
open Lib

inductive OpenError where
  | tooSmall
  | readFooter
  | badMagic
  | readIndex
  | parseIndex
  | readFilter
  | parseFilter
deriving DecidableEq, Repr

inductive BlockError where
  | read (offset : Nat)
  | unexpectedType (offset : Nat) (blockType : UInt8)
deriving DecidableEq, Repr

/-- Eight bytes as a number, and what follows them. -/
def readInt (data : Bytes) : Option (Nat × Bytes) := do
  let (n, data) ← takeN 8 data
  return (beNat n, data)

/-- A length and as many bytes, and what follows them. -/
def readSized (data : Bytes) : Option (Bytes × Bytes) := do
  let (n, data) ← readInt data
  takeN n data

/-- `readDataEntry`. -/
def readDataEntry (data : Bytes) : Option (KeyValue × Bytes) :=
  if data.length < 16 then none
  else do
    let (key, data) ← readSized data
    let (value, data) ← readSized data
    return ((key, value), data)

/-- The entries the loops over `readDataEntry` meet in the data of a block. -/
def blockEntries (data : Bytes) : List KeyValue := (readAll readDataEntry data.length data).1

/-! ## Blocks -/

/-- `extractClean`. -/
def extractClean (block : Bytes) : Bytes :=
  if block.length < 3 then block
  else
    let usedBytes := (block.getD (block.length - 3) 0).toNat <<< 8 |||
      (block.getD (block.length - 2) 0).toNat
    if usedBytes > block.length - 3 then block.take (block.length - 3) else block.take usedBytes

section
variable (bs : BlockSize) (file : Bytes)

/-- The loop of `readJumboForward`. Every block read lies inside the file, so there are at most as
many as it has bytes. -/
def readJumboForward : Nat → Nat → Bytes → Except BlockError Bytes
  | 0, offset, _ => .error (.read offset)
  | fuel + 1, offset, result =>
    match readAt file offset bs.size with
    | none => .error (.read offset)
    | some block =>
      let result := result ++ extractClean block
      if block.getD (block.length - 1) 0 = jumboEnd then .ok result
      else readJumboForward fuel (offset + bs.size) result

/-- `readDataBlock`. -/
def readDataBlock (offset : Nat) : Except BlockError Bytes :=
  match readAt file offset bs.size with
  | none => .error (.read offset)
  | some block =>
    let blockType := block.getD (block.length - 1) 0
    let cleanData := extractClean block
    if blockType = nonJumbo ∨ blockType = jumboEnd then .ok cleanData
    else if blockType = jumboStart then
      readJumboForward bs file (file.length + 1) (offset + bs.size) cleanData
    else .error (.unexpectedType offset blockType)

end

/-! ## Opening a file -/

/-- `SSTableReader`; `file` is what its path holds. -/
structure Reader where
  file : Bytes
  filter : BloomFilter
  prefixFilter : PrefixBloomFilter
  index : List IndexEntry
  itemCount : Nat
  maxLSN : Nat
deriving DecidableEq, Repr

/-- One round of the loop of `parseIndex`. -/
def parseIndexEntry (data : Bytes) : Option (IndexEntry × Bytes) := do
  let (key, data) ← readSized data
  let (offset, data) ← readInt data
  return (⟨key, offset⟩, data)

/-- `parseIndex`; fewer than eight bytes at the end are ignored. -/
def parseIndex (data : Bytes) : Option (List IndexEntry) :=
  let (entries, rest) := readAll parseIndexEntry data.length data
  if rest.length < 8 then some entries else none

/-- `parseFilterSection`. -/
def parseFilterSection (cfg : PrefixConfig) (data : Bytes) :
    Option (BloomFilter × PrefixBloomFilter) := do
  let (bf, data) ← readSized data
  let bf ← BloomFilter.deserializeFromByteArray bf
  let (pbf, _) ← readSized data
  let pbf ← PrefixBloomFilter.deserializePrefixBloomFilter cfg pbf
  return (bf, pbf)

/-- The numbers of a footer, and its magic number. -/
def parseFooter (data : Bytes) : Option (Footer × Nat) := do
  let (indexOffset, data) ← readInt data
  let (indexSize, data) ← readInt data
  let (filterOffset, data) ← readInt data
  let (filterSize, data) ← readInt data
  let (itemCount, data) ← readInt data
  let (maxLSN, data) ← readInt data
  let (magic, _) ← readInt data
  return (⟨indexOffset, indexSize, filterOffset, filterSize, itemCount, maxLSN⟩, magic)

/-- `Open`. -/
def openFile (cfg : PrefixConfig) (file : Bytes) : Except OpenError Reader :=
  if file.length < footerSize then .error .tooSmall
  else match (readAt file (file.length - footerSize) footerSize).bind parseFooter with
    | none => .error .readFooter
    | some (footer, magic) =>
      if magic ≠ footerMagic then .error .badMagic
      else match readAt file footer.indexOffset footer.indexSize with
        | none => .error .readIndex
        | some indexBytes =>
          match parseIndex indexBytes with
          | none => .error .parseIndex
          | some index =>
            match readAt file footer.filterOffset footer.filterSize with
            | none => .error .readFilter
            | some filterBytes =>
              match parseFilterSection cfg filterBytes with
              | none => .error .parseFilter
              | some (bf, pbf) => .ok ⟨file, bf, pbf, index, footer.itemCount, footer.maxLSN⟩

/-! ## Queries -/

namespace Reader

variable (env : Hashing) (bs : BlockSize)

/-- The entries of the block an index entry points to. -/
def readEntries (r : Reader) (e : IndexEntry) : Except BlockError (List KeyValue) :=
  (readDataBlock bs r.file e.offset).map blockEntries

/-- The key of index entry `j`. -/
def indexKey (r : Reader) (j : Nat) : Key := (r.index.getD j ⟨[], 0⟩).key

/-- `SSTableReader.Get`. -/
def get (r : Reader) (key : Key) : Except BlockError (Option Value) :=
  if !r.filter.check env key then .ok none
  else
    let i := search r.index.length fun j => decide (key < r.indexKey j)
    if i = 0 then .ok none
    else (r.readEntries bs (r.index.getD (i - 1) ⟨[], 0⟩)).map (·.lookup key)

/-- A Go map from keys to values. -/
abbrev Results := AList fun _ : Key => Value

/-- The index entry at which `PrefixScan` and `RangeScan` start. -/
def startIdx (r : Reader) (lo : Key) : Nat :=
  search r.index.length (fun j => decide (lo ≤ r.indexKey j)) - 1

/-- `isPastPrefix`. -/
def isPastPrefix (pre key : Bytes) : Bool :=
  let n := min pre.length key.length
  pre.take n < key.take n

/-- `PrefixScan`. -/
def prefixScan (r : Reader) (pre : Bytes) : Except BlockError Results :=
  if !r.prefixFilter.contains env pre then .ok ∅
  else scanIndexed IndexEntry.key (r.readEntries bs) (fun _ => false) (pre.isPrefixOf ·)
    (isPastPrefix pre) (fun results kv => results.insert kv.1 kv.2) ∅
    (r.index.drop (r.startIdx pre))

/-- `RangeScan`. -/
def rangeScan (r : Reader) (start stop : Key) : Except BlockError Results :=
  scanIndexed IndexEntry.key (r.readEntries bs) (stop < ·) (fun k => start ≤ k ∧ k ≤ stop)
    (stop < ·) (fun results kv => results.insert kv.1 kv.2) ∅ (r.index.drop (r.startIdx start))

/-- `ScanAll`; the calls it makes, in order. -/
def scanAll (r : Reader) : Except BlockError (List KeyValue) :=
  scanIndexed IndexEntry.key (r.readEntries bs) (fun _ => false) (fun _ => true) (fun _ => false)
    (fun calls kv => calls ++ [kv]) [] r.index

end Reader
end ChudDB.Sstable
