import Lpad.Log.Format

/-!
# The log writer

`log::Writer`. Each call of `AddRecord` appends the fragments of one record to the file. The
writer keeps the offset in the current block. It counts the bytes that it meant to
write, and not those that are in the file.
-/

namespace Lpad

/-- How an `Append` ends: all bytes are written, or an error after some of them. -/
inductive AppendResult where
  | done
  | failed (written : Nat) (msg : String)
deriving DecidableEq, Repr

/-- `WritableFile::Append`, on the contents of the file. -/
def appendFile (file data : Bytes) : AppendResult → Status × Bytes
  | .done => (.ok, file ++ data)
  | .failed written msg => (.ioError msg, file ++ data.take written)

/-- What the environment answers while one fragment is written: three calls of `Append` and
one of `Flush`. -/
structure FragmentResults where
  trailer : AppendResult
  header : AppendResult
  payload : AppendResult
  flush : Status

/-- No call fails. -/
def FragmentResults.done : FragmentResults := ⟨.done, .done, .done, .ok⟩

/-- `log::Writer` and the file `dest_`. -/
structure LogWriter where
  file : Bytes
  blockOffset : Nat
deriving DecidableEq, Repr

def LogWriter.new : LogWriter := ⟨[], 0⟩

variable (crc : Bytes → BitVec 32)

/-- `Writer::EmitPhysicalRecord` -/
def LogWriter.emitPhysicalRecord (io : FragmentResults) (w : LogWriter) (f : Fragment) :
    Status × LogWriter :=
  let (s, file) := appendFile w.file (f.header crc) io.header
  let (s, file) :=
    if s.isOk then
      let (s, file) := appendFile file f.payload io.payload
      if s.isOk then (io.flush, file) else (s, file)
    else (s, file)
  (s, ⟨file, w.blockOffset + kHeaderSize + f.payload.length⟩)

/-- A block without room for a header is left. The status of this `Append` is not looked
at. -/
def LogWriter.switchBlock (io : FragmentResults) (w : LogWriter) : LogWriter :=
  let leftover := kBlockSize - w.blockOffset
  if leftover < kHeaderSize then
    let file :=
      if leftover > 0 then (appendFile w.file (List.replicate leftover 0) io.trailer).2 else w.file
    ⟨file, 0⟩
  else w

/-- The type of a fragment, by whether it is the first and the last of its record. -/
def fragmentType : (isFirst isLast : Bool) → RecordType
  | true, true => .kFullType
  | true, false => .kFirstType
  | false, true => .kLastType
  | false, false => .kMiddleType

/-- The loop of `AddRecord`; `io i` is for the fragment number `i`. Only the first round can
leave a block without taking a byte, so `left.length + 2` rounds are enough. -/
def LogWriter.addRecordLoop (io : Nat → FragmentResults) :
    (fuel i : Nat) → (isFirst : Bool) → (left : Bytes) → LogWriter → Status × LogWriter
  | 0, _, _, _, w => (.ok, w)
  | fuel + 1, i, isFirst, left, w =>
    let w := w.switchBlock (io i)
    let avail := kBlockSize - w.blockOffset - kHeaderSize
    let fragment := left.take avail
    let left := left.drop avail
    let (s, w) := w.emitPhysicalRecord crc (io i)
      ⟨fragmentType isFirst left.isEmpty, fragment⟩
    if s.isOk ∧ left.length > 0 then LogWriter.addRecordLoop io fuel (i + 1) false left w
    else (s, w)

/-- `Writer::AddRecord` -/
def LogWriter.addRecord (io : Nat → FragmentResults) (w : LogWriter) (slice : Bytes) :
    Status × LogWriter :=
  w.addRecordLoop crc io (slice.length + 2) 0 true slice

end Lpad
