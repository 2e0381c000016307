import ChudDB.Lib.Bytes

/-! # WAL records

The byte format of a log record (`record.go`) and the reader of a segment file
(`fileSegmentReader.Next`). A record is a 25 byte header (checksum, record length, LSN, operation,
key length, value length) followed by the key and the value; all numbers are little endian, and the
three length fields hold the low 32 bits of the length. The checksum function is a parameter of the
format; `checksumIEEE` is the one the storage uses. -/

namespace ChudDB.Wal
open Lib

abbrev Op := UInt8

def opPut : Op := 1
def opDelete : Op := 2

/-- A decoded record; LSNs are `uint64` values. -/
structure Record where
  lsn : Nat
  op : Op
  key : Bytes
  value : Bytes
deriving DecidableEq, Repr

inductive RecordError where
  | invalidOp (op : Op)
  | deleteWithValue
  | tooShort (len : Nat)
  | invalidLength (recordLen : Nat)
  | shortBuffer (len recordLen : Nat)
  | crcMismatch
  | lengthMismatch
deriving DecidableEq, Repr

/-- The texts of the errors. -/
def RecordError.message : RecordError → String
  | .invalidOp op => s!"invalid wal op: {op}"
  | .deleteWithValue => "delete record must have empty value"
  | .tooShort len => s!"record too short: {len} bytes"
  | .invalidLength recordLen => s!"invalid record length: {recordLen}"
  | .shortBuffer len recordLen =>
    s!"buffer shorter than record length: have {len} want {recordLen}"
  | .crcMismatch => "record crc mismatch"
  | .lengthMismatch => "record length mismatch"

def recordHeaderSize : Nat := 25

/-- One byte of the reflected CRC-32 with polynomial `0xEDB88320`. -/
def crcByte (crc : UInt32) (b : UInt8) : UInt32 :=
  (List.range 8).foldl (fun c _ => if c &&& 1 = 1 then (c >>> 1) ^^^ 0xEDB88320 else c >>> 1)
    (crc ^^^ b.toUInt32)

/-- `crc32.ChecksumIEEE`. -/
def checksumIEEE (data : Bytes) : UInt32 := data.foldl crcByte 0xFFFFFFFF ^^^ 0xFFFFFFFF

/-- `data[lo:hi]`. -/
def slice (data : Bytes) (lo hi : Nat) : Bytes := (data.drop lo).take (hi - lo)

section
variable (crc : Bytes → UInt32)

/-- What the checksum of a record covers: everything behind the checksum itself. -/
def Record.body (r : Record) : Bytes :=
  leBytes 4 (recordHeaderSize + r.key.length + r.value.length) ++ (leBytes 8 r.lsn ++ (r.op ::
    (leBytes 4 r.key.length ++ (leBytes 4 r.value.length ++ (r.key ++ r.value)))))

/-- The encoding of a record. -/
def Record.bytes (r : Record) : Bytes := leBytes 4 (crc r.body).toNat ++ r.body

/-- `EncodeRecord`. -/
def encodeRecord (op : Op) (key value : Bytes) (lsn : Nat) : Except RecordError Bytes :=
  if op ≠ opPut ∧ op ≠ opDelete then .error (.invalidOp op)
  else if op = opDelete ∧ value.length ≠ 0 then .error .deleteWithValue
  else .ok (Record.bytes crc ⟨lsn, op, key, value⟩)

/-- `DecodeRecord`. -/
def decodeRecord (buf : Bytes) : Except RecordError Record :=
  if buf.length < recordHeaderSize then .error (.tooShort buf.length) else
  let recordLen := leNat (slice buf 4 8)
  if recordLen < recordHeaderSize then .error (.invalidLength recordLen) else
  if buf.length < recordLen then .error (.shortBuffer buf.length recordLen) else
  let recordBuf := buf.take recordLen
  let expectedCRC := leNat (slice recordBuf 0 4)
  if (crc (slice recordBuf 4 recordLen)).toNat ≠ expectedCRC then .error .crcMismatch else
  let op : Op := recordBuf.getD 16 0
  if op ≠ opPut ∧ op ≠ opDelete then .error (.invalidOp op) else
  let keyLen := leNat (slice recordBuf 17 21)
  let valLen := leNat (slice recordBuf 21 25)
  if recordHeaderSize + keyLen + valLen ≠ recordLen then .error .lengthMismatch else
  let keyEnd := recordHeaderSize + keyLen
  .ok {
    lsn := leNat (slice recordBuf 8 16)
    op := op
    key := slice recordBuf recordHeaderSize keyEnd
    value := slice recordBuf keyEnd (keyEnd + valLen) }

/-- `fileSegmentReader.Next` on what remains of the file: the record at the front and what follows
it, or `none` for `io.EOF`. A short header, a short record and a record that does not decode all
end the segment. -/
def nextRecord (input : Bytes) : Option (Record × Bytes) :=
  if input.length < 8 then none else
  let recordLen := leNat (slice input 4 8)
  if recordLen < 8 then none else
  if input.length < recordLen then none else
  match decodeRecord crc (input.take recordLen) with
  | .error _ => none
  | .ok rec => some (rec, input.drop recordLen)

/-- All records of a segment file, read until `io.EOF`, and the bytes behind them. -/
def readSegment (data : Bytes) : List Record × Bytes := readAll (nextRecord crc) data.length data

end

example : checksumIEEE [0x31, 0x32, 0x33, 0x34, 0x35, 0x36, 0x37, 0x38, 0x39] = 0xCBF43926 := by
  decide +kernel

end ChudDB.Wal
