import ChudDB.Memtable.Basic
import ChudDB.Sstable.Bloom

/-! # Writing table files

`FileWriter` (`writer.go`) packs encoded entries into blocks of fixed size; `FlushMemtable`
(`ss_parser.go`) writes the entries of a memtable, a sparse index, two filters and a footer through
it. A block is its content, zeros, and a trailer of a two byte count and a type; an entry that does
not fit one block is spread over several. Calls on the file may fail; a failed call is given by the
point at which it fails. -/

namespace ChudDB.Sstable
open Lib

/-- `BLOCK_SIZE`; the trailer has to fit, and the number of used bytes has to fit the trailer. -/
structure BlockSize where
  size : Nat
  three_lt : 3 < size
  size_le : size ≤ 2 ^ 16 + 2

/-- The value of `config.json`. -/
def defaultBlockSize : BlockSize := ⟨4096, by decide, by decide⟩

/-- The bytes of a block in front of its trailer. -/
def BlockSize.avail (bs : BlockSize) : Nat := bs.size - 3

def nonJumbo : UInt8 := 0
def jumboStart : UInt8 := 1
def jumboMiddle : UInt8 := 3
def jumboEnd : UInt8 := 7

/-- The path of a table file: the UUID in its name, and whether the name still ends in `.tmp`. -/
structure Location where
  name : Nat
  tmp : Bool
deriving DecidableEq, Repr

/-- A `bufio.Writer`: what it holds back, and whether it has met an error, which it never
forgets. -/
structure BufWriter where
  buf : Bytes
  err : Bool
deriving DecidableEq, Repr

/-- `FileWriter`; `content` is what the file at `location` holds. -/
structure FileWriter where
  location : Location
  currentBlock : Bytes
  currentBlockNum : Nat
  offsetInBlock : Nat
  rawBytesWritten : Nat
  file : Option BufWriter
  content : Bytes
deriving DecidableEq, Repr

/-- Where a `WriteRaw` fails: when it opens the file, or after some bytes of the buffer, or of the
data itself, have reached the file. -/
inductive RawFault where
  | openFile
  | flush (n : Nat)
  | write (n : Nat)
deriving DecidableEq, Repr

def RawFault.inFlush : Option RawFault → Option Nat
  | some (.flush n) => some n
  | _ => none

/-- Where a `Commit` fails. -/
inductive CommitFault where
  | flush (n : Nat)
  | close
  | rename
deriving DecidableEq, Repr

def CommitFault.inFlush : Option CommitFault → Option Nat
  | some (.flush n) => some n
  | _ => none

namespace FileWriter

variable (bs : BlockSize)

/-- `NewFileWriter`. -/
def newFileWriter (name : Nat) : FileWriter := ⟨⟨name, true⟩, [], 0, 0, 0, none, []⟩

/-- `openIfNeeded`; a file that exists is truncated. -/
def openIfNeeded (fw : FileWriter) : FileWriter :=
  match fw.file with
  | some _ => fw
  | none => { fw with file := some ⟨[], false⟩, content := [] }

/-- `Write` of the buffer. -/
def bufWrite (data : Bytes) (fw : FileWriter) : FileWriter :=
  { fw with file := fw.file.map fun b => if b.err then b else { b with buf := b.buf ++ data } }

/-- `Flush` of the buffer; `fault` is the number of bytes that reach the file if it fails. The flag
is whether it succeeds. -/
def bufFlush (fault : Option Nat) (fw : FileWriter) : Bool × FileWriter :=
  match fw.file with
  | none => (true, fw)
  | some b =>
    if b.err then (false, fw)
    else match fault with
      | none => (true, { fw with content := fw.content ++ b.buf, file := some ⟨[], false⟩ })
      | some n => (false, { fw with
          content := fw.content ++ b.buf.take n
          file := some ⟨b.buf.drop n, true⟩ })

/-- A block as it is written. -/
def block (data : Bytes) (blockType : UInt8) : Bytes :=
  data ++ List.replicate (bs.size - data.length - 3) (0 : UInt8) ++
    [UInt8.ofNat (data.length >>> 8), UInt8.ofNat data.length, blockType]

/-- `FlushCurrentBlock`. -/
def flushCurrentBlock (fw : FileWriter) : FileWriter :=
  if fw.currentBlock.length = 0 then fw
  else { fw.openIfNeeded.bufWrite (block bs fw.currentBlock nonJumbo) with
    currentBlockNum := fw.currentBlockNum + 1
    currentBlock := []
    offsetInBlock := 0 }

/-- The type of block `i` of an entry that takes `numBlocks` blocks. -/
def jumboType (i numBlocks : Nat) : UInt8 :=
  if i = 0 ∧ numBlocks = 1 then jumboEnd
  else if i = 0 then jumboStart
  else if i = numBlocks - 1 then jumboEnd
  else jumboMiddle

/-- The loop of `WriteJumboData`: the blocks that are left, and the data they hold. -/
def jumboBlocks (numBlocks : Nat) : Nat → Bytes → Bytes
  | 0, _ => []
  | left + 1, data =>
    block bs (data.take bs.avail) (jumboType (numBlocks - (left + 1)) numBlocks) ++
      jumboBlocks numBlocks left (data.drop bs.avail)

/-- `numBlocks` of `WriteJumboData`. -/
def numBlocks (data : Bytes) : Nat := (data.length + bs.avail - 1) / bs.avail

/-- `WriteJumboData`. -/
def writeJumboData (data : Bytes) (fw : FileWriter) : Nat × FileWriter :=
  let fw := fw.flushCurrentBlock bs
  let n := numBlocks bs data
  (fw.currentBlockNum, { fw.openIfNeeded.bufWrite (jumboBlocks bs n n data) with
    currentBlockNum := fw.currentBlockNum + n
    currentBlock := []
    offsetInBlock := 0 })

/-- `IsJumbo`. -/
def isJumbo (dataLen : Nat) : Bool := dataLen > bs.size - 3

/-- `CanWrite`. -/
def canWrite (dataLen : Nat) (fw : FileWriter) : Bool := fw.offsetInBlock + dataLen + 3 ≤ bs.size

/-- The end of `Write`: the data goes into the current block. -/
def append (data : Bytes) (fw : FileWriter) : FileWriter :=
  { fw with
    currentBlock := fw.currentBlock ++ data
    offsetInBlock := fw.offsetInBlock + data.length }

/-- `FileWriter.Write`; the number of the block in which the data begins. -/
def write (data : Bytes) (sectionEnd : Bool) (fw : FileWriter) : Nat × FileWriter :=
  let fw := if sectionEnd then fw.flushCurrentBlock bs else fw
  if data.length = 0 then (fw.currentBlockNum, fw)
  else if isJumbo bs data.length then fw.writeJumboData bs data
  else
    let fw := if !fw.canWrite bs data.length then fw.flushCurrentBlock bs else fw
    (fw.currentBlockNum, fw.append data)

/-- `WriteRaw`; the offset at which the data begins, `none` for an error. -/
def writeRaw (fault : Option RawFault) (data : Bytes) (fw : FileWriter) :
    Option Nat × FileWriter :=
  let fw := fw.flushCurrentBlock bs
  if fault = some .openFile then (none, fw)
  else
    match fw.openIfNeeded.bufFlush (RawFault.inFlush fault) with
    | (false, fw) => (none, fw)
    | (true, fw) =>
      match fault with
      | some (.write n) => (none, { fw with content := fw.content ++ data.take n })
      | _ => (some (fw.currentBlockNum * bs.size + fw.rawBytesWritten), { fw with
          content := fw.content ++ data
          rawBytesWritten := fw.rawBytesWritten + data.length })

/-- `Commit`; whether it succeeds. -/
def commit (fault : Option CommitFault) (fw : FileWriter) : Bool × FileWriter :=
  match fw.bufFlush (CommitFault.inFlush fault) with
  | (false, fw) => (false, fw)
  | (true, fw) =>
    if fault = some .close then (false, fw)
    else
      let fw := { fw with file := none }
      if !fw.location.tmp then (true, fw)
      else if fault = some .rename then (false, fw)
      else (true, { fw with location := { fw.location with tmp := false } })

/-- What `ResetFileWriter` does to the file it leaves: what the buffer still holds is written. The
next file is a `newFileWriter` with a fresh name. -/
def finish (fw : FileWriter) : Bytes := (fw.bufFlush none).2.content

end FileWriter

/-! ## The sections of a table file -/

structure IndexEntry where
  key : Key
  offset : Nat
deriving DecidableEq, Repr

def footerSize : Nat := 56

def footerMagic : Nat := 0x0D1AACCE55DB0002

/-- `IntToBytes`. -/
def intToBytes (n : Nat) : Bytes := beBytes 8 n

/-- `SizeAndValueToBytes`. -/
def sizeAndValueToBytes (value : Bytes) : Bytes := intToBytes value.length ++ value

/-- An entry as `SerializeDataBuildIndex` writes it. -/
def encodeEntry (kv : KeyValue) : Bytes := sizeAndValueToBytes kv.1 ++ sizeAndValueToBytes kv.2

/-- The state of the loop of `SerializeDataBuildIndex`. -/
structure Serializer where
  fw : FileWriter
  index : List IndexEntry
  lastBlock : Int

/-- The entry has been written, and begins in block `r.1`. -/
def Serializer.record (bs : BlockSize) (s : Serializer) (kv : KeyValue) (r : Nat × FileWriter) :
    Serializer :=
  if (r.1 : Int) ≠ s.lastBlock then ⟨r.2, s.index ++ [⟨kv.1, r.1 * bs.size⟩], r.1⟩
  else { s with fw := r.2 }

/-- The body of the loop. -/
def Serializer.add (bs : BlockSize) (s : Serializer) (kv : KeyValue) : Serializer :=
  s.record bs kv (s.fw.write bs (encodeEntry kv) false)

/-- `SerializeDataBuildIndex`. -/
def serializeDataBuildIndex (bs : BlockSize) (fw : FileWriter) (keyValues : List KeyValue) :
    Serializer :=
  keyValues.foldl (Serializer.add bs) ⟨fw, [], -1⟩

/-- One entry of `SerializeIndex`. -/
def IndexEntry.bytes (e : IndexEntry) : Bytes := sizeAndValueToBytes e.key ++ intToBytes e.offset

/-- `SerializeIndex`. -/
def serializeIndex (entries : List IndexEntry) : Bytes := entries.flatMap IndexEntry.bytes

/-- `SerializeFilterSection`. -/
def serializeFilterSection (bf pbf merkle : Bytes) : Bytes :=
  sizeAndValueToBytes bf ++ (sizeAndValueToBytes pbf ++ sizeAndValueToBytes merkle)

/-- The numbers of a footer. -/
structure Footer where
  indexOffset : Nat
  indexSize : Nat
  filterOffset : Nat
  filterSize : Nat
  itemCount : Nat
  maxLSN : Nat

/-- `SerializeFooter`. -/
def serializeFooter (f : Footer) : Bytes :=
  intToBytes f.indexOffset ++ (intToBytes f.indexSize ++ (intToBytes f.filterOffset ++
    (intToBytes f.filterSize ++ (intToBytes f.itemCount ++ (intToBytes f.maxLSN ++
      intToBytes footerMagic)))))

/-! ## Flushing a memtable -/

/-- What `FlushMemtable` takes from elsewhere: the hashing of the filters, and the root of the
Merkle tree over the values, which no reader of the file looks at. -/
structure FlushEnv extends Hashing where
  blockSize : BlockSize
  prefixConfig : PrefixConfig
  getRootBytes : List Value → Bytes

/-- The random seeds of the two filters. -/
structure Seeds where
  filter : Nat
  prefixFilter : Nat

/-- Which of the calls of `FlushMemtable` on the file fail, and where. -/
structure FlushFaults where
  index : Option RawFault
  filter : Option RawFault
  footer : Option RawFault
  commit : Option CommitFault
deriving DecidableEq, Repr

def FlushFaults.none : FlushFaults := ⟨.none, .none, .none, .none⟩

/-- Some call fails. -/
def FlushFaults.Fails (f : FlushFaults) : Prop := f ≠ .none

/-- The path `FlushMemtable` returns, and what the file there holds afterwards. -/
structure Flushed where
  path : Location
  content : Bytes
deriving DecidableEq, Repr

variable (env : FlushEnv) (seeds : Seeds)

/-- The filter of `FlushMemtable`. -/
def tableFilter (data : List KeyValue) : BloomFilter :=
  (BloomFilter.newBloomFilterWithParams env.toHashing data.length seeds.filter).addMultiple
    env.toHashing (data.map Prod.fst)

/-- The prefix filter of `FlushMemtable`. -/
def tablePrefixFilter (data : List KeyValue) : PrefixBloomFilter :=
  (PrefixBloomFilter.newPrefixBloomFilter env.toHashing env.prefixConfig
    seeds.prefixFilter).addMultiple env.toHashing (data.map Prod.fst)

/-- The filter section of `FlushMemtable`. -/
def filterSection (data : List KeyValue) : Bytes :=
  serializeFilterSection (tableFilter env seeds data).serializeToByteArray
    (tablePrefixFilter env seeds data).serializeToByteArray
    (env.getRootBytes (data.map Prod.snd))

/-- `FlushMemtable`: no error is looked at, and the offset of a failed call is 0. -/
def flushMemtable (faults : FlushFaults) (fw : FileWriter) (data : List KeyValue) (maxLSN : Nat) :
    Flushed :=
  let bs := env.blockSize
  let s := serializeDataBuildIndex bs fw data
  let fw := (s.fw.write bs [] true).2
  let indexBytes := serializeIndex s.index
  let (indexOffset, fw) := fw.writeRaw bs faults.index indexBytes
  let filterBytes := filterSection env seeds data
  let (filterOffset, fw) := fw.writeRaw bs faults.filter filterBytes
  let footer := serializeFooter ⟨indexOffset.getD 0, indexBytes.length, filterOffset.getD 0,
    filterBytes.length, data.length, maxLSN⟩
  let (_, fw) := fw.writeRaw bs faults.footer footer
  let (_, fw) := fw.commit faults.commit
  ⟨fw.location, fw.finish⟩

end ChudDB.Sstable
