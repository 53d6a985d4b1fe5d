import Lpad.DB.GetSpec
import Lpad.DB.ObsoleteFiles

/-!
# `RepairDB`

A database whose manifest is lost is repaired from the other files in its directory. Each
log becomes a table, each table is read from its first entry to its last for its bounds and
its largest sequence number, and a new manifest lists all of them at level 0. A table that
cannot be read to its end is replaced by a copy of what can be read of it.

The numbers of the tables stay as they are. Those made of logs are numbered from the
largest number in the directory on, in the order in which the directory lists the logs.

Messages to the info log are left out. Files that are archived are gone, and so is a copy
that does not take the place of its table.
-/

namespace Lpad

/-! ## The directory -/

/-- The number that `ParseFileName` gives with a name. -/
def FileName.number : FileName → Nat
  | .log number | .table number | .descriptor number | .temp number => number
  | .dbLock | .current | .infoLog => 0

/-- A database directory. `children` are the names in the order of `GetChildren`, with
`none` for a name that `ParseFileName` refuses. Of a log it has the records that the reader
delivers, of a table the entries. -/
structure Disk where
  children : List (Option FileName)
  logs : Nat → List Bytes
  tables : Nat → List Record

/-- How the environment answers during a repair. -/
structure RepairIO where
  getChildren : Status
  /-- opening the log -/
  logFile : Nat → Status
  /-- building the table of a log -/
  build : Nat → TableIO
  /-- the size of a table, under one of its two names -/
  fileSize : Nat → Option Nat
  /-- what can still be read of a table, if an error comes up -/
  damaged : Nat → Option (List Record)
  /-- the size of the copy, if it takes the place of a damaged table -/
  copy : Nat → Option Nat
  /-- writing the manifest, renaming it, setting `CURRENT` -/
  descriptor : Status

/-! ## `Repairer` -/

structure TableInfo where
  file : FileMetaData
  maxSequence : Nat
deriving DecidableEq, Repr

/-- The members of `Repairer` and the tables in the directory. -/
structure Repairer where
  manifests : List Nat
  tableNumbers : List Nat
  logs : List Nat
  tables : List TableInfo
  nextFileNumber : Nat
  files : Nat → List Record

namespace Repairer

def init (disk : Disk) : Repairer := ⟨[], [], [], [], 1, disk.tables⟩

/-- `if (number + 1 > next_file_number_) next_file_number_ = number + 1;` -/
def markNumber (r : Repairer) (number : Nat) : Repairer :=
  { r with
    nextFileNumber := if number + 1 > r.nextFileNumber then number + 1 else r.nextFileNumber }

/-- One round of the loop in `FindFiles`. The number of a manifest does not count. -/
def findFile (r : Repairer) : Option FileName → Repairer
  | none => r
  | some (.descriptor number) => { r with manifests := r.manifests ++ [number] }
  | some (.log number) => { r.markNumber number with logs := r.logs ++ [number] }
  | some (.table number) =>
    { r.markNumber number with tableNumbers := r.tableNumbers ++ [number] }
  | some name => r.markNumber name.number

def findFiles (io : RepairIO) (disk : Disk) : Except Status Repairer :=
  if !io.getChildren.isOk then .error io.getChildren
  else if disk.children = [] then .error (.ioError "repair found no files")
  else .ok (disk.children.foldl findFile (init disk))

end Repairer

/-- One round of the loop in `ConvertLogToTable`. An error of `InsertInto` is ignored, and
what it has inserted stays. -/
def addLogRecord (mem : MemTable) (record : Bytes) : MemTable :=
  if record.length < 12 then mem else (insertInto (WriteBatch.setContents record) mem).1

/-- The entries of the memtable that a log fills. -/
def convertedEntries (records : List Bytes) : List Record :=
  MemTable.records (records.foldl addLogRecord [])

namespace Repairer

/-- `ConvertLogToTable`, with its status. `BuildTable` leaves no file for a memtable without
entries. -/
def convertLogToTable (io : RepairIO) (disk : Disk) (r : Repairer) (log : Nat) :
    Status × Repairer :=
  if !(io.logFile log).isOk then (io.logFile log, r)
  else
    let number := r.nextFileNumber
    let r := { r with nextFileNumber := number + 1 }
    match convertedEntries (disk.logs log) with
    | [] => (.ok, r)
    | first :: rest =>
      if (io.build log).status.isOk ∧ (io.build log).fileSize > 0 then
        (.ok,
          { r with
            files := Function.update r.files number (first :: rest)
            tableNumbers := r.tableNumbers ++ [number] })
      else ((io.build log).status, r)

/-- `ConvertLogFilesToTables`. The status of a log is reported and forgotten. -/
def convertLogFilesToTables (io : RepairIO) (disk : Disk) (r : Repairer) : Repairer :=
  r.logs.foldl (fun r log => (r.convertLogToTable io disk log).2) r

end Repairer

/-- One round of the loop in `ScanTable`; the flag is `empty`. -/
def TableInfo.scan (s : Bool × TableInfo) (entry : Record) : Bool × TableInfo :=
  match parseInternalKey entry.key with
  | none => s
  | some parsed =>
    let t := s.2
    (false,
      { file :=
          { t.file with
            smallest := if s.1 then entry.key else t.file.smallest
            largest := entry.key }
        maxSequence :=
          if parsed.sequence > t.maxSequence then parsed.sequence else t.maxSequence })

/-- What `ScanTable` finds out about a table. -/
def tableInfo (number size : Nat) (entries : List Record) : TableInfo :=
  (entries.foldl TableInfo.scan (true, ⟨⟨number, size, [], []⟩, 0⟩)).2

namespace Repairer

/-- `RepairTable`. The bounds are those of the scan. -/
def repairTable (io : RepairIO) (r : Repairer) (t : TableInfo) (entries : List Record) :
    Repairer :=
  let r := { r with nextFileNumber := r.nextFileNumber + 1 }
  match entries, io.copy t.file.number with
  | first :: rest, some size =>
    { r with
      files := Function.update r.files t.file.number (first :: rest)
      tables := r.tables ++ [{ t with file := { t.file with fileSize := size } }] }
  | _, _ => r

/-- `ScanTable`. Without a size the table is dropped. -/
def scanTable (io : RepairIO) (r : Repairer) (number : Nat) : Repairer :=
  match io.fileSize number with
  | none => r
  | some size =>
    match io.damaged number with
    | none => { r with tables := r.tables ++ [tableInfo number size (r.files number)] }
    | some entries => r.repairTable io (tableInfo number size entries) entries

def extractMetaData (io : RepairIO) (r : Repairer) : Repairer :=
  r.tableNumbers.foldl (scanTable io) r

/-- The largest sequence number that `WriteDescriptor` finds. -/
def maxSequence (r : Repairer) : Nat :=
  r.tables.foldl (fun s t => if s < t.maxSequence then t.maxSequence else s) 0

/-- The edit of `WriteDescriptor`. -/
def edit (r : Repairer) : VersionEdit :=
  r.tables.foldl (fun e t => e.addFile 0 t.file)
    { VersionEdit.clear with
      logNumber := some 0
      nextFileNumber := some r.nextFileNumber
      lastSequence := some r.maxSequence }

/-- The directory that a repair leaves behind, as a database before it is opened: the tables
and a manifest with one edit. The logs have been archived. -/
def repaired (r : Repairer) : Database :=
  { Database.created with
    manifest := [r.edit]
    tables := r.files }

end Repairer

/-- `RepairDB` -/
def repairDB (io : RepairIO) (disk : Disk) : Except Status Database :=
  match Repairer.findFiles io disk with
  | .error s => .error s
  | .ok r =>
    let r := (r.convertLogFilesToTables io disk).extractMetaData io
    if io.descriptor.isOk then .ok r.repaired else .error io.descriptor

/-! ## What the directory holds -/

def tableNumber : Option FileName → Option Nat
  | some (.table number) => some number
  | _ => none

def logNumber : Option FileName → Option Nat
  | some (.log number) => some number
  | _ => none

namespace Disk

def tableNumbers (disk : Disk) : List Nat := disk.children.filterMap tableNumber

def logNumbers (disk : Disk) : List Nat := disk.children.filterMap logNumber

/-- The entries of a log, if there are any and their table can be built. -/
def logTable (disk : Disk) (io : RepairIO) (log : Nat) : Option (List Record) :=
  if (io.logFile log).isOk ∧ convertedEntries (disk.logs log) ≠ [] ∧
      (io.build log).status.isOk ∧ (io.build log).fileSize > 0
  then some (convertedEntries (disk.logs log)) else none

/-- Everything a repair can find: the logs, the one that is listed last first, and the
tables by falling numbers. -/
def sources (disk : Disk) (io : RepairIO) : List (List Record) :=
  (disk.logNumbers.filterMap (disk.logTable io)).reverse ++
    (disk.tableNumbers.insertionSort (· ≥ ·)).map disk.tables

/-- A table as `TableBuilder` writes it: not empty and sorted, with internal keys. -/
structure SoundTable (entries : List Record) : Prop where
  nonempty : entries ≠ []
  sorted : entries.Pairwise fun a b => keyRank a.key ≤ keyRank b.key
  wellFormed : ∀ x ∈ entries, WellFormed x.key

theorem soundTable_iff {entries : List Record} :
    SoundTable entries ↔ entries ≠ [] ∧
      entries.Pairwise (fun a b => keyRank a.key ≤ keyRank b.key) ∧
        ∀ x ∈ entries, WellFormed x.key := by
  constructor
  · intro h
    exact ⟨h.nonempty, h.sorted, h.wellFormed⟩
  · rintro ⟨hnonempty, hsorted, hwellFormed⟩
    exact ⟨hnonempty, hsorted, hwellFormed⟩

instance (entries : List Record) : Decidable (SoundTable entries) :=
  decidable_of_iff _ soundTable_iff.symm

/-- The directory is there and its tables are sound. -/
structure Sound (disk : Disk) : Prop where
  children : disk.children ≠ []
  numbers : disk.tableNumbers.Nodup
  tables : ∀ n ∈ disk.tableNumbers, SoundTable (disk.tables n)

instance (disk : Disk) : Decidable disk.Sound :=
  decidable_of_iff (disk.children ≠ [] ∧ disk.tableNumbers.Nodup ∧
      ∀ n ∈ disk.tableNumbers, SoundTable (disk.tables n))
    ⟨fun h => ⟨h.1, h.2.1, h.2.2⟩, fun h => ⟨h.children, h.numbers, h.tables⟩⟩

end Disk

/-- All tables can be read, and the new manifest can be written. -/
structure RepairIO.Readable (io : RepairIO) : Prop where
  getChildren : io.getChildren = .ok
  fileSize : ∀ n, (io.fileSize n).isSome
  undamaged : ∀ n, io.damaged n = none
  descriptor : io.descriptor = .ok

/-- Nothing goes wrong. -/
def RepairIO.working : RepairIO where
  getChildren := .ok
  logFile _ := .ok
  build _ := ⟨.ok, 4096⟩
  fileSize _ := some 4096
  damaged _ := none
  copy _ := some 4096
  descriptor := .ok

/-- The directory of a database that no compaction is working on and none has left an unfinished
output in: the logs and the tables of the current version, next to `CURRENT`, `LOCK`, a manifest
and the info log. -/
def Database.disk (db : Database) : Disk where
  children := [.current, .dbLock, .descriptor 1, .infoLog].map some ++
    db.logs.map (fun l => some (.log l.number)) ++
    (List.range kNumLevels).flatMap fun level =>
      (db.versions.current.files level).map fun f => some (.table f.number)
  logs n := (db.logs.find? fun l => l.number == n).elim [] LogFile.records
  tables := db.tables

end Lpad
