import Lpad.DB.CompactionSpec
import Lpad.DB.Recovery
import Lpad.DB.WriteQueue

/-!
# The database as a state machine

`DBImpl` between two points where its mutex is held. Foreground threads write,
make room, take snapshots and ask for manual compactions; one background thread
flushes the immutable memtable and compacts. A compaction takes two steps,
`background` chooses it and `finish` is the return of `DoCompactionWork`. In between
the mutex is released: foreground steps go on, and the background thread itself
flushes the next immutable memtable from within `SU_flush_data`. The process may end
after any step; `reopen` is the next `DB::Open` that succeeds.

Every answer of the environment is part of the event, so a run is a list of events.
-/

namespace Lpad

/-- Each write is delayed by 1 ms at this many level-0 files. -/
def kL0SlowdownWritesTrigger : Nat := 8

/-! ## State -/

/-- A log file and the records in it. -/
structure LogFile where
  number : Nat
  records : List Bytes
deriving DecidableEq, Repr

/-- `ManualCompaction` -/
structure ManualCompaction where
  level : Nat
  rangeBegin : Option Bytes
  rangeEnd : Option Bytes
deriving DecidableEq, Repr

/-- A compaction that `DoCompactionWork` is busy with. -/
structure RunningCompaction where
  compaction : Compaction
  smallestSnapshot : Nat
  isManual : Bool

/-- `DBImpl`, the files it reads back (`manifest`, `logs`, `tables`) and the globals of
the process. `manifest` lists the edits, `tables` the entries of each table ever built,
by its number. -/
structure Database where
  mem : MemTable
  imm : Option MemTable
  versions : VersionSet
  manifest : List VersionEdit
  logs : List LogFile
  logfileNumber : Nat
  tables : Nat → List Record
  snapshots : List Nat
  manual : Option ManualCompaction
  running : Option RunningCompaction
  bgError : Status
  globals : Globals

/-- The directory after `NewDB`, before it is opened. -/
def Database.created : Database where
  mem := []
  imm := none
  versions := VersionSet.init
  manifest := [newDB]
  logs := []
  logfileNumber := 0
  tables := fun _ => []
  snapshots := []
  manual := none
  running := none
  bgError := .ok
  globals := Globals.init

/-- `versions_->NumLevelFiles(level)` -/
def Database.numLevelFiles (db : Database) (level : Nat) : Nat :=
  (db.versions.current.files level).length

/-- How a write to the manifest ends, and whether the record can be read back although
the write has failed. -/
structure ManifestIO where
  status : Status
  written : Bool

def Database.recordBackgroundError (db : Database) (s : Status) : Database :=
  if db.bgError.isOk then { db with bgError := s } else db

/-- The part of `DeleteObsoleteFiles` that concerns the logs. -/
def Database.deleteObsoleteFiles (db : Database) : Database :=
  if db.bgError.isOk then
    { db with
      logs := db.logs.filter fun l =>
        decide (l.number ≥ db.versions.logNumber) || l.number == db.versions.prevLogNumber }
  else db

/-- Tables that have been built. -/
def Database.store (db : Database) (built : List (Nat × List Record)) : Database :=
  { db with tables := built.foldl (fun ts t => Function.update ts t.1 t.2) db.tables }

/-- The edit reaches the manifest. -/
def Database.logEdit (db : Database) (edit : VersionEdit) (io : ManifestIO) : Database :=
  if io.status.isOk || io.written then
    { db with manifest := db.manifest ++ [db.versions.completeEdit edit] }
  else db

/-- `versions_->LogAndApply(edit, &mutex_)` -/
def Database.logAndApply (db : Database) (edit : VersionEdit) (io : ManifestIO) :
    Status × Database :=
  let r := db.versions.logAndApply edit io.status
  (r.1, { db.logEdit edit io with versions := r.2 })

/-! ## Foreground -/

/-- The part of the state that a commit changes. -/
def Database.writeState (db : Database) : WriteState where
  lastSequence := db.versions.lastSequence
  log := (db.logs.find? fun l => l.number == db.logfileNumber).elim [] LogFile.records
  mem := db.mem
  bgError := db.bgError

/-- A group of writers with room in the memtable commits, `WriteState.commit`. -/
def Database.write (db : Database) (updates : WriteBatch) (sync : Bool) (io : LogIO) : Database :=
  let s := (db.writeState.commit updates sync io).1
  { db with
    mem := s.mem
    versions := { db.versions with lastSequence := s.lastSequence }
    logs := db.logs.map fun l =>
      if l.number = db.logfileNumber then { l with records := s.log } else l
    bgError := s.bgError }

/-- What one round of the loop of `MakeRoomForWrite` does. -/
inductive Room where
  | fail (s : Status)
  /-- sleep for 1 ms, with `allow_delay` false from then on -/
  | delay
  /-- there is room in the current memtable -/
  | ready
  /-- the previous memtable is still being compacted -/
  | waitImm
  /-- there are too many level-0 files -/
  | waitLevel0
  /-- switch to a new memtable -/
  | switch
deriving DecidableEq, Repr

def Database.room (options : Options) (db : Database) (force allowDelay : Bool) : Room :=
  if !db.bgError.isOk then .fail db.bgError
  else if allowDelay ∧ db.numLevelFiles 0 ≥ kL0SlowdownWritesTrigger then .delay
  else if !force ∧ options.approximateMemoryUsage db.mem ≤ options.writeBufferSize then .ready
  else if db.imm.isSome then .waitImm
  else if db.numLevelFiles 0 ≥ kL0StopWritesTrigger then .waitLevel0
  else .switch

/-- The last branch of `MakeRoomForWrite`: a new log, and the memtable becomes
immutable. Without a log the number goes back. -/
def Database.switchMemTable (db : Database) (newLog : Status) : Database :=
  if newLog.isOk then
    let number := db.versions.nextFileNumber
    { db with
      versions := { db.versions with nextFileNumber := number + 1 }
      logs := db.logs ++ [⟨number, []⟩]
      logfileNumber := number
      imm := some db.mem
      mem := [] }
  else db

/-- `Version::UpdateStats` for a file that has used up its seeks. -/
def Database.updateStats (db : Database) (level : Nat) (f : FileMetaData) : Database :=
  let v := db.versions.current
  if v.fileToCompact.isNone then
    { db with versions := { db.versions with
      current := { v with fileToCompact := some (f, level) } } }
  else db

/-! ## Background -/

/-- `DBImpl::CompactMemTable` -/
def Database.compactMemTable (db : Database) (imm : MemTable) (build : TableIO)
    (shuttingDown : Bool) (manifest : ManifestIO) : Database :=
  let t := writeLevel0Table db.versions imm VersionEdit.clear (some db.versions.current) build
  let db := { db with versions := t.versions }.store t.table.toList
  let s : Status :=
    if t.status.isOk ∧ shuttingDown then .ioError "Deleting DB during memtable compaction"
    else t.status
  if s.isOk then
    let edit := { t.edit with prevLogNumber := some 0, logNumber := some db.logfileNumber }
    let r := db.logAndApply edit manifest
    if r.1.isOk then { r.2 with imm := none }.deleteObsoleteFiles
    else r.2.recordBackgroundError r.1
  else db.recordBackgroundError s

/-- `compact->smallest_snapshot` -/
def Database.smallestSnapshot (db : Database) : Nat :=
  db.snapshots.head?.getD db.versions.lastSequence

/-- The edit of a trivial move: the one input goes to the next level. -/
def Compaction.moveEdit (c : Compaction) (f : FileMetaData) : VersionEdit :=
  (c.edit.deleteFile c.level f.number).addFile (c.level + 1) f

def Database.trivialMove (db : Database) (c : Compaction) (f : FileMetaData)
    (manifest : ManifestIO) : Database :=
  let r := db.logAndApply (c.moveEdit f) manifest
  if r.1.isOk then r.2 else r.2.recordBackgroundError r.1

/-- The call of `DoCompactionWork`, up to the point where it releases the mutex. -/
def Database.startCompaction (db : Database) (c : Compaction) (isManual : Bool) : Database :=
  { db with running := some ⟨c, db.smallestSnapshot, isManual⟩ }

/-- `BackgroundCompaction` for a manual compaction. -/
def Database.manualCompaction (db : Database) (m : ManualCompaction) : Database :=
  match db.versions.compactRange m.level m.rangeBegin m.rangeEnd with
  | none => { db with manual := none }
  | some p => { db with versions := p.2 }.startCompaction p.1 true

/-- `BackgroundCompaction` for a compaction that `PickCompaction` has chosen. -/
def Database.pickedCompaction (db : Database) (c : Compaction) (manifest : ManifestIO) :
    Database :=
  match c.inputs0 with
  | f :: _ => if c.isTrivialMove then db.trivialMove c f manifest else db.startCompaction c false
  | [] => db.startCompaction c false

def Database.automaticCompaction (db : Database) (manifest : ManifestIO) : Database :=
  db.versions.pickCompaction.elim db fun p =>
    { db with versions := p.2 }.pickedCompaction p.1 manifest

/-- `BackgroundCompaction` without an immutable memtable. -/
def Database.backgroundCompaction (db : Database) (manifest : ManifestIO) : Database :=
  match db.manual with
  | some m => db.manualCompaction m
  | none => db.automaticCompaction manifest

/-- The call of `DoCompactionWork` that is about to return. The outputs are numbered
here; the source numbers each when it opens it. -/
def Database.job (db : Database) (r : RunningCompaction) (files : Files) (shuttingDown : Bool)
    (manifest : ManifestIO) : CompactionJob where
  compaction := r.compaction
  smallestSnapshot := r.smallestSnapshot
  files := { files with newFileNumber := fun i => db.versions.nextFileNumber + i }
  shuttingDown := shuttingDown
  versions := db.versions
  manifest := manifest.status

/-- An iterator shows entries of its table only, in order and from the first one on. -/
def Database.Reads (db : Database) (c : Compaction) (files : Files) : Prop :=
  ∀ f ∈ c.inputs0 ++ c.inputs1, (files.table f).records <+: db.tables f.number

instance (db : Database) (c : Compaction) (files : Files) : Decidable (db.Reads c files) :=
  inferInstanceAs (Decidable (∀ f ∈ c.inputs0 ++ c.inputs1, _))

/-- File numbers for the outputs of a compaction. -/
def Database.takeFileNumbers (db : Database) (count : Nat) : Database :=
  { db with
    versions := { db.versions with nextFileNumber := db.versions.nextFileNumber + count } }

/-- `InstallCompactionResults`, if it was called, writes its edit. -/
def Database.logWork (db : Database) (work : Work) (manifest : ManifestIO) : Database :=
  work.edit.elim db fun edit => db.logEdit edit manifest

/-- The end of a compaction: what `DoCompactionWork` has done to the version set and the
globals, and the end of `BackgroundCompaction`. -/
def Database.finishCompaction (db : Database) (r : RunningCompaction) (job : CompactionJob)
    (manifest : ManifestIO) (work : Work) : Database :=
  let outputs := (work.compact.complete job).2.outputs
  let db := (db.takeFileNumbers outputs.length).logWork work manifest
  let db := { db with
    versions := { work.versions with nextFileNumber := db.versions.nextFileNumber }
    running := none
    manual := if r.isManual then none else db.manual
    globals := work.globals }
  let db := db.store (outputs.map fun out => (out.number, out.entries))
  let db := if work.status.isOk then db else db.recordBackgroundError work.status
  db.deleteObsoleteFiles

/-! ## Opening -/

/-- How the environment answers during `DB::Open`: opening a log, how many of its
records can be read, building a table, a new log, a new manifest. `sameProcess` says
whether the globals are still there. -/
structure OpenIO where
  logFile : Nat → Status
  survive : Nat → Nat
  build : Nat → TableIO
  newLog : Status
  manifest : Status
  sameProcess : Bool

/-- The logs that the version set does not cover, by number. -/
def Database.logsToReplay (db : Database) (vs : VersionSet) : List LogFile :=
  (db.logs.filter fun l => decide (l.number ≥ vs.logNumber) || l.number == vs.prevLogNumber)
    |>.insertionSort fun a b => a.number ≤ b.number

/-- The loop over the logs in `DBImpl::Recover`. The status of a log replaces that of
the log before. -/
def Database.replayLogs (options : Options) (db : Database) (io : OpenIO) (vs : VersionSet) :
    Replay :=
  (db.logsToReplay vs).foldl (fun r l =>
      let r := recoverLogFile options io.build (io.logFile l.number)
        (l.records.take (io.survive l.number)) r
      { r with versions := r.versions.markFileNumberUsed l.number })
    ⟨.ok, none, VersionEdit.clear, vs, [], 0⟩

/-- `DB::Open` after the logs have been replayed: a new log, a new manifest with a
snapshot and the edit, and a database with nothing in memory. -/
def Database.install (db : Database) (io : OpenIO) (r : Replay) : Database :=
  let vs := if r.versions.lastSequence < r.maxSequence
    then { r.versions with lastSequence := r.maxSequence } else r.versions
  let number := vs.nextFileNumber
  let vs := { vs with nextFileNumber := number + 1 }
  let edit := { r.edit with logNumber := some number }
  let opened : Database :=
    { mem := []
      imm := none
      versions := (vs.logAndApply edit .ok).2
      manifest := [vs.writeSnapshot, vs.completeEdit edit]
      logs := db.logs ++ [⟨number, []⟩]
      logfileNumber := number
      tables := db.tables
      snapshots := []
      manual := none
      running := none
      bgError := .ok
      globals := if io.sameProcess then db.globals else Globals.init }
  (opened.store r.tables).deleteObsoleteFiles

/-- `DB::Open` on the files of `db`; `none` when it fails. A failed open leaves the
manifest and the logs as they were. -/
def Database.reopen (options : Options) (db : Database) (io : OpenIO) : Option Database :=
  match VersionSet.recover db.manifest with
  | .error _ => none
  | .ok vs =>
    let r := db.replayLogs options io vs
    if r.status.isOk && io.newLog.isOk && io.manifest.isOk then some (db.install io r) else none

/-- Nothing goes wrong. -/
def OpenIO.working : OpenIO :=
  ⟨fun _ => .ok, fun _ => 0, fun _ => ⟨.ok, 1⟩, .ok, .ok, false⟩

/-- A new database that has been opened. -/
def Database.init (options : Options) : Database :=
  (Database.created.reopen options OpenIO.working).getD Database.created

/-! ## Events -/

inductive Event where
  /-- a group of writers commits -/
  | write (updates : WriteBatch) (sync : Bool) (io : LogIO)
  /-- one round of the loop of `MakeRoomForWrite` -/
  | makeRoom (force allowDelay : Bool) (newLog : Status)
  /-- `GetSnapshot` -/
  | getSnapshot
  /-- `ReleaseSnapshot` of the `i`-th live snapshot -/
  | releaseSnapshot (i : Nat)
  /-- a read charges its last seek to the `i`-th file of a level -/
  | seek (level i : Nat)
  /-- `TEST_CompactRange` -/
  | compactRange (level : Nat) (rangeBegin rangeEnd : Option Bytes)
  /-- `CompactMemTable`, from `BackgroundCompaction` or from `SU_flush_data`; the latter calls
  it at most once for each record, which is not counted here -/
  | compactMemTable (build : TableIO) (shuttingDown : Bool) (manifest : ManifestIO)
  /-- `BackgroundCompaction` without an immutable memtable -/
  | background (manifest : ManifestIO)
  /-- the return of `DoCompactionWork` -/
  | finish (files : Files) (shuttingDown : Bool) (manifest : ManifestIO)
  | reopen (io : OpenIO)

/-- One step, `none` when it cannot be taken. -/
def Database.step (options : Options) (db : Database) : Event → Option Database
  | .write updates sync io => some (db.write updates sync io)
  | .makeRoom force allowDelay newLog =>
    if db.room options force allowDelay = .switch then some (db.switchMemTable newLog)
    else some db
  | .getSnapshot => some { db with snapshots := db.snapshots ++ [db.versions.lastSequence] }
  | .releaseSnapshot i => some { db with snapshots := db.snapshots.eraseIdx i }
  | .seek level i =>
    if level + 1 < kNumLevels
    then ((db.versions.current.files level)[i]?).map (db.updateStats level) else none
  | .compactRange level rangeBegin rangeEnd =>
    if level + 1 < kNumLevels ∧ db.manual.isNone ∧ db.bgError.isOk
    then some { db with manual := some ⟨level, rangeBegin, rangeEnd⟩ } else none
  | .compactMemTable build shuttingDown manifest =>
    match db.imm with
    | some imm =>
      -- no check for errors within a running compaction
      if db.running.isSome ∨ db.bgError.isOk
      then some (db.compactMemTable imm build shuttingDown manifest) else none
    | none => none
  | .background manifest =>
    if db.imm.isNone ∧ db.running.isNone ∧ db.bgError.isOk
    then some (db.backgroundCompaction manifest) else none
  | .finish files shuttingDown manifest =>
    match db.running with
    | some r =>
      if db.Reads r.compaction files then
        let job := db.job r files shuttingDown manifest
        (doCompactionWork (job.recordCount + 1) db.globals job).map
          (db.finishCompaction r job manifest)
      else none
    | none => none
  | .reopen io => db.reopen options io

/-- **Inversion of a step.** -/
inductive Database.Stepped (options : Options) (db : Database) : Event → Database → Prop where
  | write {updates : WriteBatch} {sync : Bool} {io : LogIO} :
      Stepped options db (.write updates sync io) (db.write updates sync io)
  | switch {force allowDelay : Bool} {newLog : Status}
      (room : db.room options force allowDelay = .switch) :
      Stepped options db (.makeRoom force allowDelay newLog) (db.switchMemTable newLog)
  | stay {force allowDelay : Bool} {newLog : Status}
      (room : db.room options force allowDelay ≠ .switch) :
      Stepped options db (.makeRoom force allowDelay newLog) db
  | getSnapshot :
      Stepped options db .getSnapshot
        { db with snapshots := db.snapshots ++ [db.versions.lastSequence] }
  | releaseSnapshot {i : Nat} :
      Stepped options db (.releaseSnapshot i) { db with snapshots := db.snapshots.eraseIdx i }
  | seek {level i : Nat} {f : FileMetaData} (level_lt : level + 1 < kNumLevels)
      (file : (db.versions.current.files level)[i]? = some f) :
      Stepped options db (.seek level i) (db.updateStats level f)
  | compactRange {level : Nat} {rangeBegin rangeEnd : Option Bytes}
      (level_lt : level + 1 < kNumLevels) (free : db.manual = none) :
      Stepped options db (.compactRange level rangeBegin rangeEnd)
        { db with manual := some ⟨level, rangeBegin, rangeEnd⟩ }
  | compactMemTable {imm : MemTable} {build : TableIO} {shuttingDown : Bool}
      {manifest : ManifestIO} (imm_eq : db.imm = some imm) :
      Stepped options db (.compactMemTable build shuttingDown manifest)
        (db.compactMemTable imm build shuttingDown manifest)
  | background {manifest : ManifestIO} (imm : db.imm = none) (running : db.running = none) :
      Stepped options db (.background manifest) (db.backgroundCompaction manifest)
  | finish {r : RunningCompaction} {files : Files} {shuttingDown : Bool}
      {manifest : ManifestIO} {work : Work} (running : db.running = some r)
      (reads : db.Reads r.compaction files)
      (done : doCompactionWork ((db.job r files shuttingDown manifest).recordCount + 1) db.globals
        (db.job r files shuttingDown manifest) = some work) :
      Stepped options db (.finish files shuttingDown manifest)
        (db.finishCompaction r (db.job r files shuttingDown manifest) manifest work)
  | reopen {io : OpenIO} {db' : Database} (opened : db.reopen options io = some db') :
      Stepped options db (.reopen io) db'

theorem Database.step_stepped {options : Options} {db db' : Database} {event : Event}
    (h : db.step options event = some db') : db.Stepped options event db' := by
  cases event with
  | write updates sync io =>
    obtain rfl := Option.some.inj h
    exact .write
  | makeRoom force allowDelay newLog =>
    simp only [step] at h
    split at h
    · obtain rfl := Option.some.inj h
      exact .switch ‹_›
    · obtain rfl := Option.some.inj h
      exact .stay ‹_›
  | getSnapshot =>
    obtain rfl := Option.some.inj h
    exact .getSnapshot
  | releaseSnapshot i =>
    obtain rfl := Option.some.inj h
    exact .releaseSnapshot
  | seek level i =>
    simp only [step] at h
    split at h
    · obtain ⟨f, hf, rfl⟩ := Option.map_eq_some_iff.mp h
      exact .seek ‹_› hf
    · cases h
  | compactRange level rangeBegin rangeEnd =>
    simp only [step] at h
    split at h
    · rename_i hguard
      obtain rfl := Option.some.inj h
      exact .compactRange hguard.1 (Option.isNone_iff_eq_none.mp hguard.2.1)
    · cases h
  | compactMemTable build shuttingDown manifest =>
    simp only [step] at h
    split at h
    · rename_i imm himm
      split at h
      · obtain rfl := Option.some.inj h
        exact .compactMemTable himm
      · cases h
    · cases h
  | background manifest =>
    simp only [step] at h
    split at h
    · rename_i hguard
      obtain rfl := Option.some.inj h
      exact .background (Option.isNone_iff_eq_none.mp hguard.1)
        (Option.isNone_iff_eq_none.mp hguard.2.1)
    · cases h
  | finish files shuttingDown manifest =>
    simp only [step] at h
    split at h
    · rename_i r hr
      split at h
      · obtain ⟨work, hwork, rfl⟩ := Option.map_eq_some_iff.mp h
        exact .finish hr ‹_› hwork
      · cases h
    · cases h
  | reopen io => exact .reopen h

end Lpad
