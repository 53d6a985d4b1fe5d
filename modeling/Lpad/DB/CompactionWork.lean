import Lpad.DB.VersionSet
import Lpad.Enclave.MergeSort

/-!
# Running a compaction in the enclave

`DoCompactionWork` of the `VERIFY` build. The host opens one iterator for each
input channel, the enclave merges them (`onecEnclCompact`), and `do_flush_1c` hands
every merged record to `SU_flush_data`, which applies the drop rule and writes the
kept records to output tables. At the end the outputs replace the inputs in the
version set.

Two things are worth noting before reading on. The three variables of the drop rule
are globals of `db_impl.cpp`, like the merge buffers, and are not reset between
compactions (`Globals`). And every hop from `SU_flush_data` and from the input
iterators back to `DoCompactionWork` returns nothing: the statuses are listed in
`Work.outcomes`, where the code drops them.

What the file system answers is an argument (`Files`). Flushing touches nothing the
merge reads, so the model flushes the merged records after the merge. A waiting
immutable memtable, which `SU_flush_data` flushes first, concerns the version set
only and is a step of its own there.
-/

namespace Lpad

/-! ## The file system -/

/-- An iterator read to its end: the entries it shows while it is valid, and its
status then. -/
structure Input where
  records : List Record
  status : Status
deriving DecidableEq, Repr

/-- `NewTwoLevelIterator` over the tables of a level: their entries one after the
other, the first error among their statuses. -/
def Input.concat (inputs : List Input) : Input where
  records := inputs.flatMap Input.records
  status := ((inputs.map Input.status).find? fun s => !s.isOk).getD .ok

/-- The answers of the environment to one compaction. Output tables are counted from
`0` in the order in which they are opened; each of them is opened, finished, synced,
closed and opened again for reading at most once. -/
structure Files where
  /-- `table_cache_->NewIterator` on an input table -/
  table : FileMetaData → Input
  /-- `versions_->NewFileNumber()` -/
  newFileNumber : Nat → Nat
  /-- what the memory of a fresh `Output` holds in `file_size` -/
  uninitialized : Nat → Nat
  newWritableFile : Nat → Status
  /-- `TableBuilder::FileSize` after these entries -/
  fileSize : Nat → List Record → Nat
  finish : Nat → Status
  /-- `TableBuilder::FileSize` after `Finish` -/
  finishedSize : Nat → List Record → Nat
  sync : Nat → Status
  close : Nat → Status
  /-- `table_cache_->NewIterator` on the finished table -/
  newIterator : Nat → Status

/-- The inputs of one level: level-0 tables have a channel each, the tables of a
deeper level share one. -/
def prepareLevel (files : Files) (level : Nat) (tables : List FileMetaData) : List Input :=
  if tables.isEmpty then []
  else if level = 0 then tables.map files.table
  else [Input.concat (tables.map files.table)]

/-- `VersionSet::SU_PrepareInputs`: the iterators of `g_list`. Their number is
`n_ways`. -/
def Compaction.suPrepareInputs (c : Compaction) (files : Files) : List Input :=
  prepareLevel files c.level c.inputs0 ++ prepareLevel files (c.level + 1) c.inputs1

/-! ## Output tables -/

/-- `CompactionState::Output`, with the entries its table got. -/
structure Output where
  number : Nat
  fileSize : Nat
  smallest : Bytes
  largest : Bytes
  entries : List Record
deriving DecidableEq, Repr

/-- `CompactionState`. The builder of the last output is open while `builder` is not
null; it stands for the entries added to it. -/
structure CompactionState where
  compaction : Compaction
  smallestSnapshot : Nat
  outputs : List Output
  builder : Option (List Record)
  totalBytes : Nat

def CompactionState.new (c : Compaction) (smallestSnapshot : Nat) : CompactionState :=
  ⟨c, smallestSnapshot, [], none, 0⟩

/-- Replace `current_output()`, the last of the outputs. -/
def updateLast (f : Output → Output) : List Output → List Output
  | [] => []
  | [out] => [f out]
  | out :: rest => out :: updateLast f rest

/-- `OpenCompactionOutputFile`. The output is listed even when there is no file. -/
def CompactionState.openOutputFile (files : Files) (st : CompactionState) :
    Status × CompactionState :=
  let i := st.outputs.length
  let s := files.newWritableFile i
  let st := { st with
    outputs := st.outputs ++ [⟨files.newFileNumber i, files.uninitialized i, [], [], []⟩] }
  (s, if s.isOk then { st with builder := some [] } else st)

/-- `FinishCompactionOutputFile1`. The builder is gone afterwards, whatever the
status. -/
def CompactionState.finishOutputFile (files : Files) (st : CompactionState) :
    Status × CompactionState :=
  match st.builder with
  | none => (.ok, st)
  | some entries =>
    let i := st.outputs.length - 1
    let bytes := files.finishedSize i entries
    let s := files.finish i
    let s := if s.isOk then files.sync i else s
    let s := if s.isOk then files.close i else s
    let s := if s.isOk ∧ entries ≠ [] then files.newIterator i else s
    (s, { st with
      outputs := updateLast (fun out => { out with fileSize := bytes, entries := entries })
        st.outputs
      totalBytes := st.totalBytes + bytes
      builder := none })

/-- The end of `SU_flush_data` for a kept record and an open builder: the bounds of
the output, and `TableBuilder::Add`. -/
def CompactionState.add (st : CompactionState) (entries : List Record) (r : Record) :
    CompactionState :=
  { st with
    outputs := updateLast (fun out => { out with
      smallest := if entries = [] then r.key else out.smallest
      largest := r.key }) st.outputs
    builder := some (entries ++ [r]) }

/-- The records given to `TableBuilder::Add` so far, in all outputs. -/
def CompactionState.added (st : CompactionState) : List Record :=
  st.outputs.flatMap Output.entries ++ st.builder.getD []

/-! ## The drop rule -/

/-- `g_current_user_key`, `g_has_current_user_key` and `g_last_sequence_for_key`. -/
structure DropState where
  currentUserKey : Bytes
  hasCurrentUserKey : Bool
  lastSequenceForKey : Nat
deriving DecidableEq, Repr

/-- The initial values, which are also those after a key that does not parse. -/
def DropState.init : DropState := ⟨[], false, kMaxSequenceNumber⟩

/-- First occurrence of a user key: start over. -/
def DropState.enter (d : DropState) (userKey : Bytes) : DropState :=
  if d.hasCurrentUserKey = false ∨ sliceCompare userKey d.currentUserKey ≠ .eq
  then ⟨userKey, true, kMaxSequenceNumber⟩ else d

/-- The drop rule of `SU_flush_data`: whether the record is dropped, and the state
the rule leaves. -/
def dropRule (d : DropState) (c : Compaction) (smallestSnapshot : Nat) (key : Bytes) :
    Bool × DropState × Compaction :=
  match parseInternalKey key with
  | none => (false, DropState.init, c)  -- do not hide error keys
  | some ikey =>
    let d := d.enter ikey.userKey
    let d' := { d with lastSequenceForKey := ikey.sequence }
    if d.lastSequenceForKey ≤ smallestSnapshot then
      (true, d', c)  -- hidden by a newer entry for the same user key
    else if ikey.type = .kTypeDeletion ∧ ikey.sequence ≤ smallestSnapshot then
      let (base, c) := c.isBaseLevelForKey ikey.userKey
      (base, d', c)
    else (false, d', c)

/-! ## `SU_flush_data` -/

/-- What becomes of a record handed to `SU_flush_data`. -/
inductive Fate where
  /-- the table before it could not be finished -/
  | skipped
  | dropped
  /-- kept, but there is no output file -/
  | unwritten
  | added
deriving DecidableEq, Repr

/-- One call of `SU_flush_data`: its status, the fate of the record, the state. -/
structure Flushed where
  status : Status
  fate : Fate
  compact : CompactionState
  drop : DropState

/-- `if (ShouldStopBefore(key) && builder != NULL) FinishCompactionOutputFile1` -/
def CompactionState.stopBefore (files : Files) (st : CompactionState) (key : Bytes) :
    Status × CompactionState :=
  let (stop, c) := st.compaction.shouldStopBefore key
  let st := { st with compaction := c }
  if stop && st.builder.isSome then st.finishOutputFile files else (.ok, st)

/-- Open an output file if necessary. -/
def CompactionState.ensureOpen (files : Files) (st : CompactionState) :
    Status × CompactionState :=
  if st.builder.isNone then st.openOutputFile files else (.ok, st)

/-- Close the output file if it is big enough. -/
def CompactionState.closeIfBig (files : Files) (st : CompactionState) :
    Status × CompactionState :=
  if files.fileSize (st.outputs.length - 1) (st.builder.getD [])
      ≥ st.compaction.maxOutputFileSize
  then st.finishOutputFile files else (.ok, st)

/-- The block `if (!drop)` of `SU_flush_data`. -/
def CompactionState.writeRecord (files : Files) (st : CompactionState) (r : Record) :
    Status × Fate × CompactionState :=
  let (s, st) := st.ensureOpen files
  if s.isOk then
    let (s, st) := (st.add (st.builder.getD []) r).closeIfBig files
    (s, .added, st)
  else (s, .unwritten, st)

/-- `DBImpl::SU_flush_data` -/
def CompactionState.suFlushData (files : Files) (st : CompactionState) (d : DropState)
    (r : Record) : Flushed :=
  let (s, st) := st.stopBefore files r.key
  if s.isOk then
    let (drop, d, c) := dropRule d st.compaction st.smallestSnapshot r.key
    let st := { st with compaction := c }
    if drop then ⟨.ok, .dropped, st, d⟩
    else
      let (s, fate, st) := st.writeRecord files r
      ⟨s, fate, st, d⟩
  else ⟨s, .skipped, st, d⟩

/-- A call of `SU_flush_data` as it is remembered here: the slices it got, the status
it returned, the fate of the record. -/
structure Outcome where
  record : Record
  status : Status
  fate : Fate
deriving DecidableEq, Repr

/-- The loops of `do_flush_1c` over all batches: every record goes to
`SU_flush_data`, whatever became of the ones before it. -/
def CompactionState.flushAll (files : Files) :
    List Record → CompactionState → DropState → List Outcome × CompactionState × DropState
  | [], st, d => ([], st, d)
  | r :: rest, st, d =>
    let f := st.suFlushData files d r
    let (outcomes, st, d) := CompactionState.flushAll files rest f.compact f.drop
    (⟨r, f.status, f.fate⟩ :: outcomes, st, d)

/-! ## `DoCompactionWork` -/

/-- The globals of `db_impl.cpp` that outlive a compaction. -/
structure Globals where
  arg : GArg
  drop : DropState

def Globals.init : Globals := ⟨GArg.init, DropState.init⟩

/-- One call of `DoCompactionWork`: the compaction, the smallest live snapshot, and
what the environment does: the file system, `shutting_down_` when the merge is over,
the version set by then, the outcome of the manifest write. -/
structure CompactionJob where
  compaction : Compaction
  smallestSnapshot : Nat
  files : Files
  shuttingDown : Bool
  versions : VersionSet
  manifest : Status

/-- The iterators of the job. -/
def CompactionJob.inputs (job : CompactionJob) : List Input :=
  job.compaction.suPrepareInputs job.files

/-- `n_ways` -/
def CompactionJob.nWays (job : CompactionJob) : Nat := job.inputs.length

/-- The entries each iterator delivers. -/
def CompactionJob.iter (job : CompactionJob) (c : Nat) : List Record :=
  ((job.inputs[c]?).map Input.records).getD []

/-- `InstallCompactionResults`: the edit it gives to `LogAndApply`. -/
def CompactionState.installEdit (st : CompactionState) : VersionEdit :=
  st.outputs.foldl (fun edit out => edit.addFile (st.compaction.level + 1)
      ⟨out.number, out.fileSize, out.smallest, out.largest⟩)
    (st.compaction.addInputDeletions st.compaction.edit)

/-- A finished call of `DoCompactionWork`. `edit` is what `InstallCompactionResults`
logged, `none` if it was not called; `outcomes` lists the calls of `SU_flush_data`;
`merge` and `compact` are the two sides of the work when the enclave returned. -/
structure Work where
  status : Status
  edit : Option VersionEdit
  versions : VersionSet
  merge : Merge
  compact : CompactionState
  outcomes : List Outcome
  globals : Globals

/-- `DoCompactionWork` between `SU_compact`, whose result is ignored, and the
installation: only `shutting_down_` and the last output table can make it fail. -/
def CompactionState.complete (st : CompactionState) (job : CompactionJob) :
    Status × CompactionState :=
  let s : Status := if job.shuttingDown then .ioError "Deleting DB during compaction" else .ok
  if s.isOk ∧ st.builder.isSome then st.finishOutputFile job.files else (s, st)

/-- The flushes of a compaction: the merged records go to `SU_flush_data` one by one,
with the drop state of the compaction before. -/
def CompactionJob.flushes (job : CompactionJob) (g : Globals) (w : Merge) :
    List Outcome × CompactionState × DropState :=
  CompactionState.flushAll job.files w.flushed.flatten
    (CompactionState.new job.compaction job.smallestSnapshot) g.drop

/-- The part of `DoCompactionWork` that follows the merge. -/
def CompactionJob.conclude (job : CompactionJob) (g : Globals) (w : Merge) : Work :=
  let flushed := job.flushes g w
  let done := flushed.2.1.complete job
  if done.1.isOk then
    let edit := done.2.installEdit
    let logged := job.versions.logAndApply edit job.manifest
    ⟨logged.1, some edit, logged.2, w, flushed.2.1, flushed.1, ⟨w.arg, flushed.2.2⟩⟩
  else ⟨done.1, none, job.versions, w, flushed.2.1, flushed.1, ⟨w.arg, flushed.2.2⟩⟩

/-- `DBImpl::DoCompactionWork` of the `VERIFY` build; `none` means that the fuel of the
merge ran out. -/
def doCompactionWork (fuel : Nat) (g : Globals) (job : CompactionJob) : Option Work :=
  (onecEnclCompact fuel job.nWays g.arg job.iter).map (job.conclude g)

/-- Compactions one after the other in one process; the result is what they leave
in the globals. -/
def runJobs (fuel : Nat) (g : Globals) : List CompactionJob → Option Globals
  | [] => some g
  | job :: jobs => (doCompactionWork fuel g job).bind fun work => runJobs fuel work.globals jobs

end Lpad
