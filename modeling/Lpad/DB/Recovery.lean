import Lpad.DB.VersionSet
import Lpad.DB.WriteBatch
import Lpad.Enclave.MergeSort
import Mathlib.Data.List.Sort

/-!
# Tables out of memtables, logs and the manifest

`WriteLevel0Table` turns a memtable into a table file. A running database calls it
for its immutable memtable, with the current version to place the table in; log
recovery calls it without a version, and then every table goes to level 0.

When a database is opened, `VersionSet::Recover` replays the manifest and
`RecoverLogFile` replays each log that the manifest does not cover. A log becomes as
many tables as it fills memtables. What is modelled of the files is their records,
edits in the manifest and batches in a log.
-/

namespace Lpad

/-! ## Memtables -/

/-- The options that matter here, and the arena size of a memtable with the given
entries, which may be any function of them. -/
structure Options where
  writeBufferSize : Nat
  paranoidChecks : Bool
  approximateMemoryUsage : MemTable → Nat

def MemEntry.record (e : MemEntry) : Record :=
  ⟨appendInternalKey ⟨e.userKey, e.sequence, e.type⟩, e.value⟩

/-- `MemTable::NewIterator` read to its end: the skip list is ordered by internal
key. -/
def MemTable.records (mem : MemTable) : List Record :=
  (mem.map MemEntry.record).insertionSort fun a b => internalKeyCompare a.key b.key ≠ .gt

/-- How `BuildTable` ends for a memtable that is not empty. -/
structure TableIO where
  status : Status
  fileSize : Nat

/-- What `WriteLevel0Table` returns and leaves behind: its status, the edit, the version
set, which has given out a file number, and the table that was built. -/
structure Level0Table where
  status : Status
  edit : VersionEdit
  versions : VersionSet
  table : Option (Nat × List Record)

/-- `DBImpl::WriteLevel0Table`. Without a base version the table goes to level 0. -/
def writeLevel0Table (vs : VersionSet) (mem : MemTable) (edit : VersionEdit)
    (base : Option Version) (io : TableIO) : Level0Table :=
  let number := vs.nextFileNumber
  let vs := { vs with nextFileNumber := number + 1 }
  match mem.records with
  | [] => ⟨.ok, edit, vs, none⟩  -- file_size is zero
  | first :: rest =>
    let last := rest.getLastD first
    if io.status.isOk ∧ io.fileSize > 0 then
      let level :=
        match base with
        | some v =>
          v.pickLevelForMemTableOutput (extractUserKey first.key) (extractUserKey last.key)
        | none => 0
      ⟨io.status, edit.addFile level ⟨number, io.fileSize, first.key, last.key⟩, vs,
        some (number, first :: rest)⟩
    else ⟨io.status, edit, vs, none⟩

/-! ## Logs -/

/-- `DBImpl::MaybeIgnoreError` -/
def Options.maybeIgnoreError (options : Options) (s : Status) : Status :=
  if s.isOk || options.paranoidChecks then s else .ok

/-- The local variables of `RecoverLogFile`, and what it changes: the edit, the version
set, the tables on disk. -/
structure Replay where
  status : Status
  mem : Option MemTable
  edit : VersionEdit
  versions : VersionSet
  tables : List (Nat × List Record)
  maxSequence : Nat

/-- `WriteLevel0Table(mem, edit, NULL)`; the environment answers by file number. -/
def Replay.writeTable (r : Replay) (io : Nat → TableIO) (mem : MemTable) : Replay :=
  let t := writeLevel0Table r.versions mem r.edit none (io r.versions.nextFileNumber)
  { r with
    status := t.status
    mem := none
    edit := t.edit
    versions := t.versions
    tables := r.tables ++ t.table.toList }

/-- A batch has been inserted whose last sequence number is `lastSeq`. -/
def Replay.inserted (r : Replay) (mem : MemTable) (lastSeq : Nat) : Replay :=
  { r with
    mem := some mem
    maxSequence := if lastSeq > r.maxSequence then lastSeq else r.maxSequence }

/-- The `while` loop of `RecoverLogFile` over the records that the log reader
delivers. -/
def recoverLoop (options : Options) (io : Nat → TableIO) : List Bytes → Replay → Replay
  | [], r => r
  | record :: rest, r =>
    if !r.status.isOk then r
    else if record.length < 12 then
      recoverLoop options io rest
        { r with
          status := if options.paranoidChecks then .corruption "log record too small"
            else r.status }
    else
      let batch := WriteBatch.setContents record
      let (mem, status) := insertInto batch (r.mem.getD [])
      let status := options.maybeIgnoreError status
      if !status.isOk then { r with status := status, mem := some mem }
      else
        let r := r.inserted mem (uint64 (batch.sequence + batch.count + (2 ^ 64 - 1)))
        if options.approximateMemoryUsage mem > options.writeBufferSize then
          let r := r.writeTable io mem
          if r.status.isOk then recoverLoop options io rest r else r
        else recoverLoop options io rest r

/-- `DBImpl::RecoverLogFile`; `file` is the outcome of opening the log. -/
def recoverLogFile (options : Options) (io : Nat → TableIO) (file : Status)
    (records : List Bytes) (r : Replay) : Replay :=
  if !file.isOk then { r with status := options.maybeIgnoreError file }
  else
    let r := recoverLoop options io records { r with status := .ok, mem := none }
    match r.mem with
    | some mem => if r.status.isOk then r.writeTable io mem else { r with mem := none }
    | none => r

/-! ## The manifest -/

/-- `NewDB`: the first edit of a new database. -/
def newDB : VersionEdit :=
  { VersionEdit.clear with
    logNumber := some 0, nextFileNumber := some 2, lastSequence := some 0 }

/-- The last value that the edits give to one of the numbers. -/
def latest (field : VersionEdit → Option Nat) (manifest : List VersionEdit) : Option Nat :=
  manifest.foldl (fun n edit => (field edit).or n) none

/-- `VersionSet::Recover` on the edits of the manifest. -/
def VersionSet.recover (manifest : List VersionEdit) : Except Status VersionSet :=
  match latest VersionEdit.nextFileNumber manifest, latest VersionEdit.logNumber manifest,
    latest VersionEdit.lastSequence manifest with
  | none, _, _ => .error (.corruption "no meta-nextfile entry in descriptor")
  | some _, none, _ => .error (.corruption "no meta-lognumber entry in descriptor")
  | some _, some _, none => .error (.corruption "no last-sequence-number entry in descriptor")
  | some nextFile, some logNumber, some lastSequence =>
    let pointers := (manifest.flatMap VersionEdit.compactPointers).foldl
      (fun cp p => Function.update cp p.1 p.2) VersionSet.init.compactPointer
    .ok
      { current := (manifest.foldl Builder.apply Builder.new).saveTo Version.empty
        compactPointer := pointers
        -- `manifest_file_number_` takes the recorded number
        nextFileNumber := nextFile + 1
        lastSequence := lastSequence
        logNumber := logNumber
        prevLogNumber := (latest VersionEdit.prevLogNumber manifest).getD 0 }

def VersionSet.markFileNumberUsed (vs : VersionSet) (number : Nat) : VersionSet :=
  if vs.nextFileNumber ≤ number then { vs with nextFileNumber := number + 1 } else vs

/-- `VersionSet::WriteSnapshot`: the edit a new manifest starts with. -/
def VersionSet.writeSnapshot (vs : VersionSet) : VersionEdit :=
  let levels := List.range kNumLevels
  { VersionEdit.clear with
    compactPointers := (levels.filter fun level => vs.compactPointer level ≠ []).map
      fun level => (level, vs.compactPointer level)
    newFiles := levels.flatMap fun level => (vs.current.files level).map fun f => (level, f) }

end Lpad
