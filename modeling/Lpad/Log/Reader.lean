import Lpad.Log.Format

/-!
# The log reader

`log::Reader` with checksums, from the start of the file (`initial_offset` is 0 at all its
uses). The file is read block by block. What the reader finds wrong it reports and drops,
with one exception: if the file ends in the middle of a fragment or of a record, the
writer died there, and the rest is ignored.
-/

namespace Lpad

/-- `log::Reader`: what is left of the file, `buffer_` and `eof_`. -/
structure LogReader where
  rest : Bytes
  buffer : Bytes
  eof : Bool
deriving DecidableEq, Repr

def LogReader.new (file : Bytes) : LogReader := ⟨file, [], false⟩

/-- The special results of `ReadPhysicalRecord`. -/
def kEof : Nat := 5

def kBadRecord : Nat := 6

/-- A call of `Reporter::Corruption`. -/
structure Drop where
  bytes : Nat
  reason : Status
deriving DecidableEq, Repr

/-- What `ReadPhysicalRecord` returns, the reader after it, and what it reported. -/
structure Physical where
  type : Nat
  fragment : Bytes
  reader : LogReader
  drops : List Drop
deriving DecidableEq, Repr

/-- `unsigned int type = header[6]`, where `char` has a sign. -/
def charUint (b : Byte) : Nat := if b.toNat < 128 then b.toNat else 2 ^ 32 - 256 + b.toNat

/-- The next block is read if there is no room for a header in the buffer. After that
there is, or the end of the file has been reached. -/
def LogReader.refill (r : LogReader) : LogReader :=
  if r.buffer.length < kHeaderSize ∧ r.eof = false then
    let buffer := r.rest.take kBlockSize
    ⟨r.rest.drop kBlockSize, buffer, decide (buffer.length < kBlockSize)⟩
  else r

variable (crc : Bytes → BitVec 32)

/-- `Reader::ReadPhysicalRecord` -/
def LogReader.readPhysicalRecord (r : LogReader) : Physical :=
  let r := r.refill
  let cleared := { r with buffer := [] }
  if r.buffer.length < kHeaderSize then ⟨kEof, [], cleared, []⟩
  else
    let type := charUint (r.buffer.getD 6 0)
    let length := (r.buffer.getD 4 0).toNat ||| ((r.buffer.getD 5 0).toNat <<< 8)
    let dropSize := r.buffer.length
    if kHeaderSize + length > r.buffer.length then
      if r.eof then ⟨kEof, [], cleared, []⟩
      else ⟨kBadRecord, [], cleared, [⟨dropSize, .corruption "bad record length"⟩]⟩
    else if type = RecordType.kZeroType.code ∧ length = 0 then ⟨kBadRecord, [], cleared, []⟩
    else if crc ((r.buffer.drop 6).take (1 + length)) ≠
        crcUnmask (BitVec.ofNat 32 (decodeFixed32 r.buffer)) then
      ⟨kBadRecord, [], cleared, [⟨dropSize, .corruption "checksum mismatch"⟩]⟩
    else
      ⟨type, (r.buffer.drop kHeaderSize).take length,
        { r with buffer := r.buffer.drop (kHeaderSize + length) }, []⟩

/-- What `ReadRecord` does: the record, or `none` at the end of the input, the reader
after it, and what it reported. -/
structure ReadResult where
  record : Option Bytes
  reader : LogReader
  drops : List Drop
deriving DecidableEq, Repr

def ReadResult.report (res : ReadResult) (drops : List Drop) : ReadResult :=
  { res with drops := drops ++ res.drops }

/-- A record has begun and does not end. An empty beginning is not reported, since old
writers left one at the end of a block. -/
def partialDrop (inFragmented : Bool) (scratch : Bytes) (msg : String) : List Drop :=
  if inFragmented ∧ scratch ≠ [] then [⟨scratch.length, .corruption msg⟩] else []

/-- The loop of `Reader::ReadRecord`. Every round but the last takes at least a header
from the input. -/
def LogReader.readRecordLoop :
    (fuel : Nat) → (inFragmented : Bool) → (scratch : Bytes) → LogReader → ReadResult
  | 0, _, _, r => ⟨none, r, []⟩
  | fuel + 1, inFragmented, scratch, r =>
    let p := r.readPhysicalRecord crc
    let drop (bytes : Nat) (msg : String) : List Drop := [⟨bytes, .corruption msg⟩]
    match p.type with
    | 1 =>
      ReadResult.report ⟨some p.fragment, p.reader, []⟩
        (p.drops ++ partialDrop inFragmented scratch "partial record without end(1)")
    | 2 =>
      (LogReader.readRecordLoop fuel true p.fragment p.reader).report
        (p.drops ++ partialDrop inFragmented scratch "partial record without end(2)")
    | 3 =>
      if inFragmented then
        (LogReader.readRecordLoop fuel true (scratch ++ p.fragment) p.reader).report p.drops
      else
        (LogReader.readRecordLoop fuel false scratch p.reader).report
          (p.drops ++ drop p.fragment.length "missing start of fragmented record(1)")
    | 4 =>
      if inFragmented then
        ReadResult.report ⟨some (scratch ++ p.fragment), p.reader, []⟩ p.drops
      else
        (LogReader.readRecordLoop fuel false scratch p.reader).report
          (p.drops ++ drop p.fragment.length "missing start of fragmented record(2)")
    | 5 => ReadResult.report ⟨none, p.reader, []⟩ p.drops
    | 6 =>
      if inFragmented then
        (LogReader.readRecordLoop fuel false [] p.reader).report
          (p.drops ++ drop scratch.length "error in middle of record")
      else (LogReader.readRecordLoop fuel false scratch p.reader).report p.drops
    | type =>
      (LogReader.readRecordLoop fuel false [] p.reader).report
        (p.drops ++ drop (p.fragment.length + if inFragmented then scratch.length else 0)
          ("unknown record type " ++ toString type))

/-- `Reader::ReadRecord` -/
def LogReader.readRecord (r : LogReader) : ReadResult :=
  r.readRecordLoop crc (r.buffer.length + r.rest.length + 1) false []

/-- What the caller of `ReadRecord` sees: records, and reports to its reporter. -/
inductive LogEvent where
  | record (data : Bytes)
  | drop (d : Drop)
deriving DecidableEq, Repr

/-- `ReadRecord` until it returns `false`. -/
def LogReader.readAll : (fuel : Nat) → LogReader → List LogEvent
  | 0, _ => []
  | fuel + 1, r =>
    let res := r.readRecord crc
    res.drops.map .drop ++
      match res.record with
      | none => []
      | some data => .record data :: LogReader.readAll fuel res.reader

/-- All that a reader finds in a file. -/
def readLog (file : Bytes) : List LogEvent := (LogReader.new file).readAll crc (file.length + 1)

end Lpad
