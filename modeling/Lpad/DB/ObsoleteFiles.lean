import Lpad.Base.RefCount
import Lpad.Base.Run
import Lpad.DB.DatabaseEffects

/-!
# Deleting obsolete files

`DeleteObsoleteFiles` removes what it finds in the directory and takes for garbage.
What it may keep is spread over `pending_outputs_`, the list of versions and the log
numbers, and the rest of `DBImpl` changes these in several steps, most of them with the
mutex released in between.

`Directory` is `DBImpl` as far as its files are concerned, at the grain of the mutex: a
step is what one thread does between two points where others may run. The background
thread gives the mutex up while it builds a table, while it compacts and while
`LogAndApply` writes to the manifest; `Stage` says where it is. A flush from within a
compaction finds `running` set. Before a call of `DeleteObsoleteFiles` the mutex is not
given up, so in stage `collecting` no other step is possible. `DB::Open` makes such a call
too, and `Directory.opened` is the state right before it.
-/

namespace Lpad

/-! ## Files -/

/-- A child of the directory, as `ParseFileName` reads its name. -/
inductive FileName where
  | log (number : Nat)
  | dbLock
  | table (number : Nat)
  | descriptor (number : Nat)
  | current
  | temp (number : Nat)
  | infoLog
deriving DecidableEq, Repr

/-- `files_` of a version. -/
abbrev Levels := Nat → List FileMetaData

/-- `VersionSet::AddLiveFiles`: the tables of all versions on the list. -/
def addLiveFiles (list : List (Cell Levels)) (live : List Nat) : List Nat :=
  live ++ list.flatMap fun v =>
    (List.range kNumLevels).flatMap fun level => (v.value level).map FileMetaData.number

/-! ## State -/

/-- A record that went to the log with number `log`. -/
structure LoggedRecord where
  log : Nat
  record : Bytes
deriving DecidableEq, Repr

/-- A compaction that `DoCompactionWork` is busy with; `input` is the reference to its
input version. -/
structure OpenCompaction where
  state : CompactionState
  input : Handle Levels

/-- `compact->outputs[i].number` -/
def OpenCompaction.numbers (r : OpenCompaction) : List Nat := r.state.outputs.map Output.number

/-- Where the background thread has released the mutex. -/
inductive Stage where
  /-- between two calls, or in the merge of the compaction that is running -/
  | free
  /-- `WriteLevel0Table` is in `BuildTable`; `base` is referenced by `CompactMemTable` -/
  | building (number : Nat) (base : Handle Levels)
  /-- `LogAndApply`, called by `CompactMemTable`, writes to the manifest -/
  | flushing (edit : VersionEdit) (v : Version)
  /-- the same, called by `InstallCompactionResults` -/
  | installing (edit : VersionEdit) (v : Version)
  /-- the same for a trivial move; `input` is the reference of the compaction object -/
  | moving (edit : VersionEdit) (v : Version) (input : Handle Levels)
  /-- a call of `DeleteObsoleteFiles` is next, and the mutex is held -/
  | collecting

structure Directory where
  versions : VersionSet
  /-- `dummy_versions_`, the list of versions -/
  list : List (Cell Levels)
  /-- the identity of `current_` -/
  currentId : Nat
  nextId : Nat
  /-- the references that readers hold -/
  readers : List (Handle Levels)
  pendingOutputs : List Nat
  manifestFileNumber : Nat
  mem : List LoggedRecord
  imm : Option (List LoggedRecord)
  logfileNumber : Nat
  /-- what the front writer is about to log and insert -/
  committing : Option LoggedRecord
  bgError : Status
  running : Option OpenCompaction
  stage : Stage
  files : List FileName

namespace Directory

/-- `current_` and the reference the version set holds to it. -/
def current (d : Directory) : Handle Levels := ⟨d.currentId, d.versions.current.files⟩

def recordBackgroundError (d : Directory) (s : Status) : Directory :=
  { d with bgError := if d.bgError.isOk then s else d.bgError }

/-! ## `DeleteObsoleteFiles` -/

def live (d : Directory) : List Nat := addLiveFiles d.list d.pendingOutputs

/-- The `switch` over the type of a file. -/
def keep (d : Directory) : FileName → Bool
  | .log number =>
    decide (number ≥ d.versions.logNumber) || number == d.versions.prevLogNumber
  | .descriptor number => decide (number ≥ d.manifestFileNumber)
  | .table number => d.live.contains number
  | .temp number => d.live.contains number
  | .current => true
  | .dbLock => true
  | .infoLog => true

/-- `DBImpl::DeleteObsoleteFiles`. Errors of `GetChildren` and `DeleteFile` are ignored;
`deletes` says which of the files are listed and can be deleted. -/
def deleteObsoleteFiles (d : Directory) (deletes : FileName → Bool) : Directory :=
  if d.bgError.isOk then
    { d with files := d.files.filter fun f => d.keep f || !deletes f }
  else d

/-! ## `LogAndApply` in two halves -/

end Directory

/-- The end of `LogAndApply`: the new version is installed. -/
def VersionSet.install (vs : VersionSet) (edit : VersionEdit) (v : Version) : VersionSet :=
  { vs with
    current := v
    logNumber := edit.logNumber.getD vs.logNumber
    prevLogNumber := edit.prevLogNumber.getD vs.prevLogNumber }

namespace Directory

/-- The first half of `LogAndApply`: the edit is completed and the next version built,
then the mutex is released. -/
def logAndApply (d : Directory) (edit : VersionEdit) (stage : VersionEdit → Version → Stage) :
    Directory :=
  let completed := d.versions.completeEdit edit
  { d with
    versions := d.versions.setCompactPointers edit.compactPointers
    stage := stage completed (d.versions.nextVersion completed) }

/-- The second half after a successful write: `AppendVersion` and the log numbers. -/
def appendVersion (d : Directory) (edit : VersionEdit) (v : Version) : Directory :=
  { d with
    versions := d.versions.install edit v
    list := addCell d.nextId v.files (dropRef d.currentId d.list)
    currentId := d.nextId
    nextId := d.nextId + 1 }

/-! ## Foreground -/

/-- `versions_->NewFileNumber()` -/
def takeFileNumber (d : Directory) : VersionSet :=
  { d.versions with nextFileNumber := d.versions.nextFileNumber + 1 }

/-- The front writer logs and inserts, with the mutex released. -/
def addRecord (d : Directory) (record : Bytes) : Directory :=
  { d with committing := some ⟨d.logfileNumber, record⟩ }

/-- The front writer has the mutex again. A record that can only be inserted in part
counts as inserted. -/
def insertInto (d : Directory) (e : LoggedRecord) (count : Nat) (sync : Bool) (io : LogIO) :
    Directory :=
  let synced := !sync || io.sync.isOk
  { d with
    committing := none
    versions := { d.versions with lastSequence := uint64 (d.versions.lastSequence + count) }
    mem := if io.addRecord.isOk && synced then d.mem ++ [e] else d.mem
    bgError := if io.addRecord.isOk && !synced then (d.recordBackgroundError io.sync).bgError
      else d.bgError }

/-- The last branch of `MakeRoomForWrite`. -/
def switchLog (d : Directory) (newLog : Status) : Directory :=
  if newLog.isOk then
    let number := d.versions.nextFileNumber
    { d with
      versions := d.takeFileNumber
      files := d.files.insert (.log number)
      logfileNumber := number
      imm := some d.mem
      mem := [] }
  else d

/-- `MakeRoomForWrite` gets to its last branch. -/
def NeedsLog (d : Directory) : Prop :=
  d.bgError.isOk ∧ d.imm.isNone ∧ (d.versions.current.files 0).length < kL0StopWritesTrigger

instance (d : Directory) : Decidable d.NeedsLog := inferInstanceAs (Decidable (_ ∧ _ ∧ _))

/-- `versions_->current()->Ref()` by a reader. -/
def pin (d : Directory) : Directory :=
  { d with list := addRef d.currentId d.list, readers := d.current :: d.readers }

/-- `Unref` by a reader. -/
def release (d : Directory) (i : Nat) (h : Handle Levels) : Directory :=
  { d with list := dropRef h.id d.list, readers := d.readers.eraseIdx i }

/-- `Version::UpdateStats`, if the reader still reads the current version and the file
has used up its seeks. -/
def updateStats (d : Directory) (level : Nat) (f : FileMetaData) : Directory :=
  let v := d.versions.current
  if v.fileToCompact.isNone then
    { d with versions := { d.versions with
      current := { v with fileToCompact := some (f, level) } } }
  else d

inductive Foreground where
  | addRecord (record : Bytes)
  | insertInto (count : Nat) (sync : Bool) (io : LogIO)
  | switchLog (newLog : Status)
  | pin
  /-- the `i`-th reference that readers hold goes -/
  | release (i : Nat)
  | seek (level : Nat) (f : FileMetaData)

/-- While the front writer commits, no other writer makes room. -/
def foreground (d : Directory) : Foreground → Option Directory
  | .addRecord record =>
    if d.committing.isNone ∧ d.bgError.isOk then some (d.addRecord record) else none
  | .insertInto count sync io => d.committing.map fun e => d.insertInto e count sync io
  | .switchLog newLog =>
    if d.committing.isNone ∧ d.NeedsLog then some (d.switchLog newLog) else none
  | .pin => some d.pin
  | .release i => d.readers[i]?.map (d.release i)
  | .seek level f => some (d.updateStats level f)

/-! ## The flush -/

/-- `CompactMemTable` up to `BuildTable`. -/
def startFlush (d : Directory) : Directory :=
  let number := d.versions.nextFileNumber
  { d with
    versions := d.takeFileNumber
    list := addRef d.currentId d.list
    pendingOutputs := number :: d.pendingOutputs
    stage := .building number d.current }

/-- What `BuildTable` returns: its status and, in `meta`, the size and the bounds. -/
structure BuiltTable where
  status : Status
  fileSize : Nat
  smallest : Bytes
  largest : Bytes

/-- The table stays in the directory. -/
def BuiltTable.kept (t : BuiltTable) : Bool := t.status.isOk && decide (t.fileSize > 0)

/-- The edit after `WriteLevel0Table`. -/
def BuiltTable.edit (t : BuiltTable) (number : Nat) (base : Version) : VersionEdit :=
  if t.kept then
    VersionEdit.clear.addFile
      (base.pickLevelForMemTableOutput (extractUserKey t.smallest) (extractUserKey t.largest))
      ⟨number, t.fileSize, t.smallest, t.largest⟩
  else VersionEdit.clear

/-- The status of `CompactMemTable` before `LogAndApply`. -/
def BuiltTable.flushStatus (t : BuiltTable) (shuttingDown : Bool) : Status :=
  if t.status.isOk ∧ shuttingDown then .ioError "Deleting DB during memtable compaction"
  else t.status

/-- From the end of `BuildTable` to the manifest. The number leaves `pending_outputs_`
before the edit that lists the table has been applied. -/
def built (d : Directory) (number : Nat) (base : Handle Levels) (t : BuiltTable)
    (shuttingDown : Bool) : Directory :=
  let d := { d with
    pendingOutputs := d.pendingOutputs.filter (· ≠ number)
    list := dropRef base.id d.list
    files := if t.kept then d.files.insert (.table number)
      else d.files.filter (· ≠ FileName.table number) }
  let s := t.flushStatus shuttingDown
  if s.isOk then
    d.logAndApply { t.edit number ⟨base.value, none⟩ with
      prevLogNumber := some 0
      logNumber := some d.logfileNumber } .flushing
  else { d.recordBackgroundError s with stage := .free }

/-- The end of `CompactMemTable`, but for the call of `DeleteObsoleteFiles`. -/
def flushed (d : Directory) (edit : VersionEdit) (v : Version) (manifest : Status) : Directory :=
  if manifest.isOk then { d.appendVersion edit v with imm := none, stage := .collecting }
  else { d.recordBackgroundError manifest with stage := .free }

/-! ## Compactions -/

/-- `BackgroundCompaction` with a compaction that is no trivial move. -/
def startCompaction (d : Directory) (c : Compaction) (smallestSnapshot : Nat) : Directory :=
  { d with
    list := addRef d.currentId d.list
    running := some ⟨CompactionState.new c smallestSnapshot, d.current⟩ }

def startMove (d : Directory) (c : Compaction) (f : FileMetaData) : Directory :=
  { d with list := addRef d.currentId d.list }.logAndApply (c.moveEdit f)
    (Stage.moving · · d.current)

/-- `BackgroundCompaction` without an immutable memtable, for a manual compaction or for
the one `PickCompaction` chooses. -/
def backgroundCompaction (d : Directory) (manual : Option ManualCompaction)
    (smallestSnapshot : Nat) : Directory :=
  let choice := match manual with
    | some m => d.versions.compactRange m.level m.rangeBegin m.rangeEnd
    | none => d.versions.pickCompaction
  match choice with
  | none => d
  | some (c, versions) =>
    let d := { d with versions := versions }
    match c.inputs0 with
    | f :: _ =>
      if manual.isNone ∧ c.isTrivialMove then d.startMove c f
      else d.startCompaction c smallestSnapshot
    | [] => d.startCompaction c smallestSnapshot

/-- The end of a trivial move; the compaction object goes with its reference. -/
def moved (d : Directory) (edit : VersionEdit) (v : Version) (input : Handle Levels)
    (manifest : Status) : Directory :=
  let d := if manifest.isOk then d.appendVersion edit v else d.recordBackgroundError manifest
  { d with list := dropRef input.id d.list, stage := .free }

/-- `OpenCompactionOutputFile` -/
def openOutput (d : Directory) (r : OpenCompaction) (io : Files) : Directory :=
  let number := d.versions.nextFileNumber
  let opened := r.state.openOutputFile { io with newFileNumber := fun _ => number }
  { d with
    versions := d.takeFileNumber
    pendingOutputs := number :: d.pendingOutputs
    running := some { r with state := opened.2 }
    files := if opened.1.isOk then d.files.insert (.table number) else d.files }

/-- The merge goes on without a change to what other threads see. -/
def withState (d : Directory) (r : OpenCompaction) (st : CompactionState) : Directory :=
  { d with running := some { r with state := st } }

/-- `CleanupCompaction` and `ReleaseInputs`, before the call of `DeleteObsoleteFiles`. -/
def cleanupCompaction (d : Directory) (r : OpenCompaction) : Directory :=
  { d with
    pendingOutputs := d.pendingOutputs.filter (· ∉ r.numbers)
    list := dropRef r.input.id d.list
    running := none
    stage := .collecting }

/-- `DoCompactionWork` after the merge. The loop ends with status `loop` and the input
iterator with `input`; the `VERIFY` build takes both for `OK`. -/
def finishWork (st : CompactionState) (loop input : Status) (io : Files) (shuttingDown : Bool) :
    Status × CompactionState :=
  let s : Status :=
    if loop.isOk ∧ shuttingDown then .ioError "Deleting DB during compaction" else loop
  let finished := if s.isOk ∧ st.builder.isSome then st.finishOutputFile io else (s, st)
  (if finished.1.isOk then input else finished.1, finished.2)

/-- From the end of the merge to the manifest, or to the end of the compaction. -/
def endCompaction (d : Directory) (r : OpenCompaction) (finished : Status × CompactionState) :
    Directory :=
  let r := { r with state := finished.2 }
  let d := d.withState r finished.2
  if finished.1.isOk then d.logAndApply finished.2.installEdit .installing
  else (d.recordBackgroundError finished.1).cleanupCompaction r

/-- The end of `InstallCompactionResults` and of the compaction. -/
def installed (d : Directory) (r : OpenCompaction) (edit : VersionEdit) (v : Version)
    (manifest : Status) : Directory :=
  if manifest.isOk then (d.appendVersion edit v).cleanupCompaction r
  else (d.recordBackgroundError manifest).cleanupCompaction r

/-! ## Steps -/

inductive Background where
  | startFlush
  | built (t : BuiltTable) (shuttingDown : Bool)
  | flushed (manifest : Status)
  | compact (manual : Option ManualCompaction) (smallestSnapshot : Nat)
  | moved (manifest : Status)
  | openOutput (io : Files)
  /-- `TableBuilder::Add` -/
  | add (r : Record)
  | finishOutput (io : Files)
  | endCompaction (loop input : Status) (io : Files) (shuttingDown : Bool)
  | installed (manifest : Status)

/-- The thread of the running compaction is in the merge. -/
def merging (d : Directory) : Option OpenCompaction :=
  match d.stage with
  | .free => d.running
  | _ => none

def background (d : Directory) : Background → Option Directory
  | .startFlush =>
    match d.stage with
    | .free =>
      -- no check for errors within a running compaction
      if d.imm.isSome ∧ (d.running.isSome ∨ d.bgError.isOk) then some d.startFlush else none
    | _ => none
  | .built t shuttingDown =>
    match d.stage with
    | .building number base => some (d.built number base t shuttingDown)
    | _ => none
  | .flushed manifest =>
    match d.stage with
    | .flushing edit v => some (d.flushed edit v manifest)
    | _ => none
  | .compact manual smallestSnapshot =>
    match d.stage with
    | .free =>
      if d.imm.isNone ∧ d.running.isNone ∧ d.bgError.isOk
      then some (d.backgroundCompaction manual smallestSnapshot) else none
    | _ => none
  | .moved manifest =>
    match d.stage with
    | .moving edit v input => some (d.moved edit v input manifest)
    | _ => none
  | .openOutput io =>
    d.merging.bind fun r => if r.state.builder.isNone then some (d.openOutput r io) else none
  | .add rec =>
    d.merging.bind fun r =>
      r.state.builder.map fun entries => d.withState r (r.state.add entries rec)
  | .finishOutput io =>
    d.merging.bind fun r =>
      if r.state.builder.isSome then some (d.withState r (r.state.finishOutputFile io).2)
      else none
  | .endCompaction loop input io shuttingDown =>
    d.merging.map fun r => d.endCompaction r (finishWork r.state loop input io shuttingDown)
  | .installed manifest =>
    match d.stage with
    | .installing edit v => d.running.map fun r => d.installed r edit v manifest
    | _ => none

inductive Action where
  | foreground (e : Foreground)
  | background (e : Background)
  | deleteObsoleteFiles (deletes : FileName → Bool)

def step (d : Directory) : Action → Option Directory
  | .foreground e =>
    match d.stage with
    | .collecting => none  -- the mutex is held
    | _ => d.foreground e
  | .background e => d.background e
  | .deleteObsoleteFiles deletes =>
    match d.stage with
    | .collecting => some { d.deleteObsoleteFiles deletes with stage := .free }
    | _ => none

/-- `DB::Open` has recovered `versions` and, in `edit`, the tables of the replayed logs; its
own `LogAndApply` has succeeded and the call of `DeleteObsoleteFiles` is next. `files` is
whatever lies in the directory by then. -/
def opened (versions : VersionSet) (edit : VersionEdit) (manifestFileNumber : Nat)
    (files : List FileName) : Directory :=
  let number := versions.nextFileNumber
  let vs := { versions with nextFileNumber := number + 1 }
  let vs := (vs.logAndApply { edit with logNumber := some number } .ok).2
  { versions := vs
    list := [⟨0, vs.current.files, 1⟩]
    currentId := 0
    nextId := 1
    readers := []
    pendingOutputs := []
    manifestFileNumber := manifestFileNumber
    mem := []
    imm := none
    logfileNumber := number
    committing := none
    bgError := .ok
    running := none
    stage := .collecting
    files := files }

end Directory

end Lpad
