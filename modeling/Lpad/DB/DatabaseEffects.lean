import Lpad.DB.Database
import Lpad.DB.LevelEdits
import Lpad.DB.OutputFiles

/-!
# What a step does to the tables

The steps of the database other than `reopen`, seen from the data they keep: the two
memtables, the files of the current version, the entries of the tables and the
compaction that runs. `Database.Effect` lists what can happen to them. Everything else
(the logs, the manifest, errors, snapshots) only decides which of these happens.
-/

namespace Lpad

/-! ## Contents -/

/-- The part of a database that holds its entries, and the globals of the process. -/
structure Contents where
  mem : MemTable
  imm : Option MemTable
  current : Version
  nextFileNumber : Nat
  lastSequence : Nat
  tables : Nat → List Record
  running : Option RunningCompaction
  globals : Globals

def Database.contents (db : Database) : Contents where
  mem := db.mem
  imm := db.imm
  current := db.versions.current
  nextFileNumber := db.versions.nextFileNumber
  lastSequence := db.versions.lastSequence
  tables := db.tables
  running := db.running
  globals := db.globals

namespace Database

variable (db : Database)

theorem recordBackgroundError_contents (s : Status) :
    (db.recordBackgroundError s).contents = db.contents := by
  unfold recordBackgroundError
  split <;> rfl

theorem deleteObsoleteFiles_contents : db.deleteObsoleteFiles.contents = db.contents := by
  unfold deleteObsoleteFiles
  split <;> rfl

theorem logEdit_contents (edit : VersionEdit) (io : ManifestIO) :
    (db.logEdit edit io).contents = db.contents := by
  unfold logEdit
  split <;> rfl

theorem logWork_contents (work : Work) (io : ManifestIO) :
    (db.logWork work io).contents = db.contents := by
  unfold logWork
  cases work.edit with
  | none => rfl
  | some edit => exact db.logEdit_contents edit io

theorem store_tables_of_notMem {built : List (Nat × List Record)} {n : Nat}
    (h : n ∉ built.map Prod.fst) : (db.store built).tables n = db.tables n := by
  suffices hfold : ∀ ts : Nat → List Record,
      built.foldl (fun ts t => Function.update ts t.1 t.2) ts n = ts n from hfold db.tables
  induction built with
  | nil => exact fun _ => rfl
  | cons t built ih =>
    intro ts
    rw [List.map_cons, List.mem_cons, not_or] at h
    rw [List.foldl_cons, ih h.2, Function.update_of_ne h.1]

theorem store_tables_of_mem {built : List (Nat × List Record)} {n : Nat} {records : List Record}
    (hnodup : (built.map Prod.fst).Nodup) (h : (n, records) ∈ built) :
    (db.store built).tables n = records := by
  obtain ⟨before, after, rfl⟩ := List.append_of_mem h
  rw [List.map_append, List.map_cons, List.nodup_append, List.nodup_cons] at hnodup
  have hafter := store_tables_of_notMem
    { db.store before with
      tables := Function.update (db.store before).tables n records } hnodup.2.1.1
  have hsplit : (db.store (before ++ (n, records) :: after)).tables =
      (Database.store { db.store before with
        tables := Function.update (db.store before).tables n records } after).tables := by
    unfold store
    rw [List.foldl_append, List.foldl_cons]
  rw [hsplit, hafter]
  exact Function.update_self _ _ _

end Database

/-! ## `LogAndApply` -/

theorem VersionSet.logAndApply_status (vs : VersionSet) (edit : VersionEdit) (s : Status) :
    (vs.logAndApply edit s).1 = s := by
  unfold logAndApply
  dsimp only
  split <;> rfl

/-- The version of the edit becomes the current one, if the manifest can be written.
Numbers do not change. -/
theorem VersionSet.logAndApply_spec (vs : VersionSet) (edit : VersionEdit) (s : Status) :
    (vs.logAndApply edit s).2.current = (if s.isOk then vs.nextVersion edit else vs.current) ∧
      (vs.logAndApply edit s).2.nextFileNumber = vs.nextFileNumber ∧
      (vs.logAndApply edit s).2.lastSequence = vs.lastSequence := by
  unfold logAndApply
  dsimp only
  split
  · exact ⟨rfl, rfl, rfl⟩
  · exact ⟨rfl, rfl, rfl⟩

theorem Database.logAndApply_contents (db : Database) (edit : VersionEdit) (io : ManifestIO) :
    (db.logAndApply edit io).2.contents = { db.contents with
      current :=
        if io.status.isOk then db.versions.nextVersion edit else db.versions.current } := by
  obtain ⟨hcurrent, hnext, hlast⟩ := db.versions.logAndApply_spec edit io.status
  have hlogged := db.logEdit_contents edit io
  simp only [contents, Contents.mk.injEq] at hlogged ⊢
  exact ⟨hlogged.1, hlogged.2.1, hcurrent, hnext, hlast, hlogged.2.2.2.2.2⟩

/-! ## Memtables -/

theorem MemTable.mem_records {mem : MemTable} {r : Record} :
    r ∈ mem.records ↔ ∃ e ∈ mem, e.record = r := by
  rw [MemTable.records, List.mem_insertionSort, List.mem_map]

theorem MemTable.records_sorted (mem : MemTable) :
    mem.records.Pairwise fun a b => keyRank a.key ≤ keyRank b.key := by
  have hle : ∀ a b : Record, internalKeyCompare a.key b.key ≠ .gt ↔
      keyRank a.key ≤ keyRank b.key := by
    intro a b
    rw [Ne, internalKeyCompare_gt_iff, not_lt]
  have htotal : Std.Total fun a b : Record => internalKeyCompare a.key b.key ≠ .gt :=
    ⟨fun a b => by simpa only [hle] using le_total (keyRank a.key) (keyRank b.key)⟩
  have htrans : IsTrans Record fun a b : Record => internalKeyCompare a.key b.key ≠ .gt :=
    ⟨fun a b c => by simpa only [hle] using le_trans⟩
  exact (List.pairwise_insertionSort _ (mem.map MemEntry.record)).imp fun h => (hle _ _).mp h

/-- The first and the last entry of a memtable that is not empty. -/
structure MemTable.Spans (mem : MemTable) (first last : Record) : Prop where
  head : mem.records.head? = some first
  last : mem.records.getLast? = some last

/-- The ends of a sorted list of records bound all of them. -/
theorem bounds_of_sorted {records : List Record} {first last : Record}
    (hsorted : records.Pairwise fun a b => keyRank a.key ≤ keyRank b.key)
    (hfirst : records.head? = some first) (hlast : records.getLast? = some last) {r : Record}
    (hr : r ∈ records) : keyRank first.key ≤ keyRank r.key ∧ keyRank r.key ≤ keyRank last.key := by
  constructor
  · cases records with
    | nil => cases hr
    | cons x rest =>
      obtain rfl := Option.some.inj hfirst
      rcases List.mem_cons.mp hr with rfl | hr
      · exact le_refl _
      · exact (List.pairwise_cons.mp hsorted).1 r hr
  · obtain ⟨before, rfl⟩ := List.getLast?_eq_some_iff.mp hlast
    rcases List.mem_append.mp hr with hr | hr
    · exact (List.pairwise_append.mp hsorted).2.2 r hr last (List.mem_singleton_self _)
    · rw [List.mem_singleton.mp hr]

theorem MemTable.Spans.le {mem : MemTable} {first last : Record} (h : mem.Spans first last) :
    keyRank first.key ≤ keyRank last.key :=
  (bounds_of_sorted mem.records_sorted h.head h.last (List.mem_of_getLast? h.last)).1

/-- A search for the first user key starts at or before the first entry. -/
theorem MemTable.Spans.seek_le {mem : MemTable} {first last : Record} (h : mem.Spans first last) :
    keyRank (appendInternalKey ⟨extractUserKey first.key, kMaxSequenceNumber, .kTypeValue⟩) ≤
      keyRank first.key := by
  obtain ⟨e, -, he⟩ := MemTable.mem_records.mp (List.mem_of_head? h.head)
  rw [← he, MemEntry.record, extractUserKey_appendInternalKey]
  exact keyRank_seek_le _

theorem writeLevel0Table_versions (vs : VersionSet) (mem : MemTable) (edit : VersionEdit)
    (base : Option Version) (io : TableIO) :
    (writeLevel0Table vs mem edit base io).versions =
      { vs with nextFileNumber := vs.nextFileNumber + 1 } := by
  unfold writeLevel0Table
  dsimp only
  split
  · rfl
  · split <;> rfl

/-- **`WriteLevel0Table`** builds no table and leaves the edit as it is, or it adds the table
of the memtable at the level that the version picks. -/
theorem writeLevel0Table_cases (vs : VersionSet) (mem : MemTable) (edit : VersionEdit)
    (v : Version) (io : TableIO) :
    ((writeLevel0Table vs mem edit (some v) io).edit = edit ∧
      (writeLevel0Table vs mem edit (some v) io).table = none) ∨
    ∃ first last, mem.Spans first last ∧
      (writeLevel0Table vs mem edit (some v) io).edit = edit.addFile
        (v.pickLevelForMemTableOutput (extractUserKey first.key) (extractUserKey last.key))
        ⟨vs.nextFileNumber, io.fileSize, first.key, last.key⟩ ∧
      (writeLevel0Table vs mem edit (some v) io).table = some (vs.nextFileNumber, mem.records) := by
  unfold writeLevel0Table
  dsimp only
  split
  · exact Or.inl ⟨rfl, rfl⟩
  · rename_i first rest hrecords
    split
    · right
      refine ⟨first, rest.getLastD first, ⟨by rw [hrecords]; rfl, ?_⟩, rfl, by rw [hrecords]⟩
      rw [hrecords, List.getLast?_cons, List.getLastD_eq_getLast?]
    · exact Or.inl ⟨rfl, rfl⟩

/-! ## Flushes -/

/-- The edit of a flush: one new file, at the level picked for it. -/
structure VersionEdit.Flushes (edit : VersionEdit) (v : Version) (number : Nat)
    (first last : Record) (level : Nat) : Prop where
  deleted : edit.deletedFiles = []
  added : ∃ size, edit.newFiles = [(level, ⟨number, size, first.key, last.key⟩)]
  level : v.pickLevelForMemTableOutput (extractUserKey first.key) (extractUserKey last.key) = level

/-! ## Effects -/

/-- File numbers grow, tables that have a number stay as they are, and the globals of the
process stay in order. -/
structure Contents.Keeps (d d' : Contents) : Prop where
  next : d.nextFileNumber ≤ d'.nextFileNumber
  tables : ∀ n < d.nextFileNumber, d'.tables n = d.tables n
  globals : d.globals.Idle → d'.globals.Idle

/-- The memtables and the numbering of writes are as before. -/
structure Contents.SameMemory (d d' : Contents) : Prop where
  mem : d'.mem = d.mem
  imm : d'.imm = d.imm
  lastSequence : d'.lastSequence = d.lastSequence

/-- The files of the version are as before. A file that has used up its seeks is one of
them. -/
structure Contents.SameFiles (d d' : Contents) : Prop where
  files : d'.current.files = d.current.files
  seek : ∀ f level, d'.current.fileToCompact = some (f, level) →
    d.current.fileToCompact = some (f, level) ∨ f ∈ d.current.files level

theorem Contents.Keeps.refl (d : Contents) : d.Keeps d := ⟨Nat.le_refl _, fun _ _ => rfl, id⟩

theorem Contents.SameMemory.refl (d : Contents) : d.SameMemory d := ⟨rfl, rfl, rfl⟩

theorem Contents.SameFiles.refl (d : Contents) : d.SameFiles d := ⟨rfl, fun _ _ h => Or.inl h⟩

/-- A compaction that `BackgroundCompaction` may choose in a state. -/
def VersionSet.Chooses (vs : VersionSet) (c : Compaction) (vs' : VersionSet) : Prop :=
  vs.pickCompaction = some (c, vs') ∨
    ∃ level rangeBegin rangeEnd, vs.compactRange level rangeBegin rangeEnd = some (c, vs')

/-- The level that `BackgroundCompaction` is about to compact. -/
def Database.compactionLevel (db : Database) : Option Nat :=
  match db.manual with
  | some m => some m.level
  | none => db.versions.pickStart.map Prod.fst

theorem VersionSet.pickCompaction_level {vs : VersionSet} {p : Compaction × VersionSet}
    (h : vs.pickCompaction = some p) : vs.pickStart.map Prod.fst = some p.1.level := by
  obtain ⟨⟨level, inputs0⟩, hstart, rfl⟩ := Option.map_eq_some_iff.mp h
  rw [hstart]
  rfl

theorem VersionSet.compactRange_level {vs : VersionSet} {p : Compaction × VersionSet}
    {level : Nat} {b e : Option Bytes} (h : vs.compactRange level b e = some p) :
    p.1.level = level := by
  unfold compactRange at h
  dsimp only at h
  split at h
  · cases h
  · rw [← Option.some.inj h]
    rfl

/-- Choosing a compaction moves a compaction pointer and nothing else. -/
theorem VersionSet.Chooses.versions {vs vs' : VersionSet} {c : Compaction}
    (h : vs.Chooses c vs') : ∃ pointers, vs' = { vs with compactPointer := pointers } := by
  rcases h with hpick | ⟨level, rangeBegin, rangeEnd, hrange⟩
  · obtain ⟨⟨level, inputs0⟩, -, heq⟩ := Option.map_eq_some_iff.mp hpick
    exact ⟨_, (Prod.mk.inj heq).2.symm⟩
  · unfold VersionSet.compactRange at hrange
    dsimp only at hrange
    split at hrange
    · cases hrange
    · exact ⟨_, (Prod.mk.inj (Option.some.inj hrange)).2.symm⟩

inductive Database.Effect (options : Options) (db : Database) : Event → Contents → Prop where
  | write {updates : WriteBatch} {sync : Bool} {io : LogIO} :
      Effect options db (.write updates sync io) { db.contents with
        mem := (db.writeState.commit updates sync io).1.mem
        lastSequence := (db.writeState.commit updates sync io).1.lastSequence }
  /-- the memtable becomes immutable -/
  | rotate {force allowDelay : Bool} {newLog : Status}
      (room : db.room options force allowDelay = .switch) :
      Effect options db (.makeRoom force allowDelay newLog) { db.contents with
        mem := [], imm := some db.mem, nextFileNumber := db.versions.nextFileNumber + 1 }
  /-- nothing happens to the version, but for a file that was charged its last seek -/
  | idle {event : Event} {d : Contents} (keeps : db.contents.Keeps d)
      (memory : db.contents.SameMemory d) (files : db.contents.SameFiles d)
      (running : d.running = db.running ∨ d.running = none) : Effect options db event d
  /-- the immutable memtable is gone, without a table -/
  | discard {event : Event} {d : Contents} {imm : MemTable} (imm_eq : db.imm = some imm)
      (keeps : db.contents.Keeps d) (files : db.contents.SameFiles d)
      (running : d.running = db.running) (memory : db.contents.SameMemory d) :
      Effect options db event { d with imm := none }
  /-- the immutable memtable becomes a table of the version -/
  | flush {build : TableIO} {shuttingDown : Bool} {manifest : ManifestIO} {d : Contents}
      {imm : MemTable} {first last : Record} {level : Nat} {edit : VersionEdit}
      (imm_eq : db.imm = some imm) (spans : imm.Spans first last)
      (flushes : edit.Flushes db.versions.current db.versions.nextFileNumber first last level)
      (keeps : db.contents.Keeps d) (current : d.current = db.versions.nextVersion edit)
      (next : db.versions.nextFileNumber < d.nextFileNumber)
      (stored : d.tables db.versions.nextFileNumber = imm.records)
      (running : d.running = db.running) (memory : db.contents.SameMemory d) :
      Effect options db (.compactMemTable build shuttingDown manifest) { d with imm := none }
  /-- a trivial move -/
  | move {manifest : ManifestIO} {c : Compaction} {vs : VersionSet} {f : FileMetaData}
      (stopped : db.running = none) (chosen : db.versions.Chooses c vs)
      (level : db.compactionLevel = some c.level)
      (inputs0 : c.inputs0 = [f]) (inputs1 : c.inputs1 = []) :
      Effect options db (.background manifest) { db.contents with
        current := db.versions.nextVersion (c.moveEdit f) }
  /-- a compaction starts -/
  | start {manifest : ManifestIO} {c : Compaction} {vs : VersionSet} {r : RunningCompaction}
      (stopped : db.running = none) (chosen : db.versions.Chooses c vs)
      (level : db.compactionLevel = some c.level)
      (compaction : r.compaction = c) :
      Effect options db (.background manifest) { db.contents with running := some r }
  /-- a compaction is over and its outputs replace its inputs -/
  | install {files : Files} {shuttingDown : Bool} {manifest : ManifestIO} {d : Contents}
      {r : RunningCompaction} {work : Work} (running : db.running = some r)
      (reads : db.Reads r.compaction files)
      (done : doCompactionWork ((db.job r files shuttingDown manifest).recordCount + 1) db.globals
        (db.job r files shuttingDown manifest) = some work)
      (finished : (work.compact.complete (db.job r files shuttingDown manifest)).1.isOk = true)
      (keeps : db.contents.Keeps d) (memory : db.contents.SameMemory d)
      (current : d.current = db.versions.nextVersion
        (work.compact.complete (db.job r files shuttingDown manifest)).2.installEdit)
      (next : d.nextFileNumber = db.versions.nextFileNumber +
        (work.compact.complete (db.job r files shuttingDown manifest)).2.outputs.length)
      (stored : ∀ out ∈ (work.compact.complete (db.job r files shuttingDown manifest)).2.outputs,
        d.tables out.number = out.entries)
      (stopped : d.running = none) : Effect options db (.finish files shuttingDown manifest) d

theorem Database.Effect.idle_globals {options : Options} {db : Database} {event : Event}
    {d : Contents} (h : db.Effect options event d) (hidle : db.globals.Idle) : d.globals.Idle := by
  cases h with
  | write | rotate _ | move _ _ _ _ _ | start _ _ _ _ => exact hidle
  | idle keeps _ _ _ => exact keeps.globals hidle
  | discard _ keeps _ _ _ => exact keeps.globals hidle
  | flush _ _ _ keeps _ _ _ _ _ => exact keeps.globals hidle
  | install _ _ _ _ keeps _ _ _ _ _ => exact keeps.globals hidle

/-! ## Every step has one of these effects -/

/-- An edit without files leaves the files of the version alone. -/
theorem VersionSet.nextVersion_of_empty (vs : VersionSet) {edit : VersionEdit}
    (hdeleted : edit.deletedFiles = []) (hnew : edit.newFiles = []) :
    (vs.nextVersion edit).files = vs.current.files := by
  funext level
  have happly : Builder.new.apply edit = Builder.new := by
    rw [Builder.apply, hdeleted, hnew]
    rfl
  show ((Builder.new.apply edit).levels level).mergeFiles
    ((Builder.new.apply edit).levels level).addedFiles (vs.current.files level) = _
  rw [happly]
  exact List.filter_eq_self.mpr (by simp [Builder.new])

/-- The version after `DoCompactionWork`. -/
theorem CompactionJob.conclude_versions (job : CompactionJob) (g : Globals) (w : Merge) :
    (job.conclude g w).versions.lastSequence = job.versions.lastSequence ∧
      ((((job.conclude g w).compact.complete job).1.isOk = true ∧
          (job.conclude g w).versions.current = job.versions.nextVersion
            ((job.conclude g w).compact.complete job).2.installEdit) ∨
        (job.conclude g w).versions.current = job.versions.current) := by
  rw [CompactionJob.conclude_compact]
  unfold CompactionJob.conclude
  dsimp only
  split
  · rename_i hok
    obtain ⟨hcurrent, -, hlast⟩ := job.versions.logAndApply_spec
      ((job.flushes g w).2.1.complete job).2.installEdit job.manifest
    refine ⟨hlast, ?_⟩
    rw [hcurrent]
    split
    · exact Or.inl ⟨hok, rfl⟩
    · exact Or.inr rfl
  · exact ⟨rfl, Or.inr rfl⟩

namespace Database

variable {options : Options} {db : Database}

/-- The state in which `CompactMemTable` logs its edit: a file number is used up, and there
may be a table under it. -/
theorem built_keeps (db : Database) {t : Level0Table}
    (hversions : t.versions = { db.versions with nextFileNumber := db.versions.nextFileNumber + 1 })
    (htable : ∀ n records, t.table = some (n, records) → n = db.versions.nextFileNumber) :
    db.contents.Keeps (({ db with versions := t.versions }.store t.table.toList).contents) where
  next := by
    show _ ≤ t.versions.nextFileNumber
    rw [hversions]
    exact Nat.le_succ _
  tables := by
    intro n hn
    refine store_tables_of_notMem _ ?_
    intro hmem
    obtain ⟨⟨m, records⟩, hm, rfl⟩ := List.mem_map.mp hmem
    have heq := htable m records (by simpa using hm)
    exact absurd hn (by rw [heq]; exact Nat.lt_irrefl _)
  globals := id

/-- `CompactMemTable` after its edit is in the manifest. -/
theorem installed_effect {imm : MemTable} (himm : db.imm = some imm) {t : Level0Table}
    {build : TableIO} {shuttingDown : Bool} {manifest : ManifestIO} {logNumber : Option Nat}
    (hversions : t.versions = { db.versions with nextFileNumber := db.versions.nextFileNumber + 1 })
    (hcases : (t.edit = VersionEdit.clear ∧ t.table = none) ∨
      ∃ first last, imm.Spans first last ∧
        t.edit = VersionEdit.clear.addFile (db.versions.current.pickLevelForMemTableOutput
          (extractUserKey first.key) (extractUserKey last.key))
          ⟨db.versions.nextFileNumber, build.fileSize, first.key, last.key⟩ ∧
        t.table = some (db.versions.nextFileNumber, imm.records))
    (hkeeps : db.contents.Keeps ({ db with versions := t.versions }.store t.table.toList).contents)
    (hmemory : db.contents.SameMemory
      ({ db with versions := t.versions }.store t.table.toList).contents)
    (hok : manifest.status.isOk = true) :
    Effect options db (.compactMemTable build shuttingDown manifest)
      (Database.contents { (({ db with versions := t.versions }.store t.table.toList).logAndApply
        { t.edit with prevLogNumber := some 0, logNumber := logNumber } manifest).2 with
          imm := none }) := by
  have hcontents := ({ db with versions := t.versions }.store t.table.toList).logAndApply_contents
    { t.edit with prevLogNumber := some 0, logNumber := logNumber } manifest
  rw [if_pos hok] at hcontents
  have hnext :
      t.versions.nextVersion { t.edit with prevLogNumber := some 0, logNumber := logNumber } =
      db.versions.nextVersion { t.edit with prevLogNumber := some 0, logNumber := logNumber } := by
    rw [hversions]
    rfl
  show Effect options db _ { (Database.logAndApply _ _ _).2.contents with imm := none }
  rw [hcontents]
  rcases hcases with ⟨hedit, -⟩ | ⟨first, last, hspans, hedit, htable⟩
  · have hempty : (t.versions.nextVersion
        { t.edit with prevLogNumber := some 0, logNumber := logNumber }).files =
          db.versions.current.files := by
      rw [hnext]
      apply VersionSet.nextVersion_of_empty <;> rw [hedit] <;> rfl
    refine .discard himm ⟨hkeeps.next, hkeeps.tables, hkeeps.globals⟩ ⟨hempty, ?_⟩ rfl
      ⟨hmemory.mem, hmemory.imm, hmemory.lastSequence⟩
    rintro f level h
    cases h
  · have hflushes : VersionEdit.Flushes
        { t.edit with prevLogNumber := some 0, logNumber := logNumber } db.versions.current
        db.versions.nextFileNumber first last (db.versions.current.pickLevelForMemTableOutput
          (extractUserKey first.key) (extractUserKey last.key)) := by
      refine ⟨?_, ⟨build.fileSize, ?_⟩, rfl⟩
      · rw [hedit]
        rfl
      · rw [hedit]
        rfl
    refine .flush himm hspans hflushes ⟨hkeeps.next, hkeeps.tables, hkeeps.globals⟩ hnext ?_ ?_ rfl
      ⟨hmemory.mem, hmemory.imm, hmemory.lastSequence⟩
    · show _ < t.versions.nextFileNumber
      rw [hversions]
      exact Nat.lt_succ_self _
    · refine store_tables_of_mem _ ?_ ?_
      · rw [htable]
        exact List.nodup_singleton _
      · rw [htable]
        exact List.mem_singleton_self _

theorem compactMemTable_effect {imm : MemTable} (himm : db.imm = some imm) (build : TableIO)
    (shuttingDown : Bool) (manifest : ManifestIO) :
    Effect options db (.compactMemTable build shuttingDown manifest)
      (db.compactMemTable imm build shuttingDown manifest).contents := by
  have hversions := writeLevel0Table_versions db.versions imm VersionEdit.clear
    (some db.versions.current) build
  have hcases := writeLevel0Table_cases db.versions imm VersionEdit.clear db.versions.current build
  unfold Database.compactMemTable
  dsimp only
  generalize writeLevel0Table db.versions imm VersionEdit.clear (some db.versions.current)
    build = t at hversions hcases
  have hkeeps := db.built_keeps hversions (by
    intro n records htable
    rcases hcases with ⟨-, hnone⟩ | ⟨_, _, -, -, hsome⟩
    · rw [hnone] at htable
      cases htable
    · rw [hsome] at htable
      exact (Prod.mk.inj (Option.some.inj htable)).1.symm)
  have hmemory : db.contents.SameMemory
      ({ db with versions := t.versions }.store t.table.toList).contents :=
    ⟨rfl, rfl, by show t.versions.lastSequence = _; rw [hversions]; rfl⟩
  have hfiles : db.contents.SameFiles
      ({ db with versions := t.versions }.store t.table.toList).contents := by
    have hcurrent : t.versions.current = db.versions.current := by rw [hversions]
    refine ⟨congrArg Version.files hcurrent, fun f level h => Or.inl ?_⟩
    exact (congrArg Version.fileToCompact hcurrent).symm.trans h
  generalize (if t.status.isOk = true ∧ shuttingDown = true then
    Status.ioError "Deleting DB during memtable compaction" else t.status) = s
  split
  · split
    · rename_i hok
      rw [Database.logAndApply, VersionSet.logAndApply_status] at hok
      rw [deleteObsoleteFiles_contents]
      exact installed_effect himm hversions hcases hkeeps hmemory hok
    · rename_i hfail
      rw [recordBackgroundError_contents, logAndApply_contents]
      rw [Database.logAndApply, VersionSet.logAndApply_status] at hfail
      rw [if_neg hfail]
      exact .idle hkeeps hmemory hfiles (Or.inl rfl)
  · rw [recordBackgroundError_contents]
    exact .idle hkeeps hmemory hfiles (Or.inl rfl)

theorem pickedCompaction_effect (hstopped : db.running = none) {c : Compaction} {vs : VersionSet}
    (hchosen : db.versions.Chooses c vs) (hlevel : db.compactionLevel = some c.level)
    (manifest : ManifestIO) :
    Effect options db (.background manifest)
      (({ db with versions := vs }.pickedCompaction c manifest).contents) := by
  obtain ⟨pointers, rfl⟩ := hchosen.versions
  have hstart : Effect options db (.background manifest)
      ({ db with versions := { db.versions with compactPointer := pointers } }.startCompaction c
        false).contents := .start hstopped hchosen hlevel rfl
  unfold pickedCompaction
  cases hinputs0 : c.inputs0 with
  | nil => exact hstart
  | cons f rest =>
    dsimp only
    split
    · rename_i htrivial
      obtain ⟨hone, hnone, -⟩ := of_decide_eq_true htrivial
      have hrest : rest = [] := by
        rw [hinputs0, List.length_cons] at hone
        exact List.length_eq_zero_iff.mp (Nat.succ.inj hone)
      have hcontents := Database.logAndApply_contents
        { db with versions := { db.versions with compactPointer := pointers } } (c.moveEdit f)
        manifest
      have hmoved : Effect options db (.background manifest)
          (Database.logAndApply { db with versions :=
            { db.versions with compactPointer := pointers } } (c.moveEdit f)
            manifest).2.contents := by
        rw [hcontents]
        by_cases hok : manifest.status.isOk = true
        · rw [if_pos hok]
          exact .move hstopped hchosen hlevel (by rw [hinputs0, hrest])
            (List.length_eq_zero_iff.mp hnone)
        · rw [if_neg hok]
          exact .idle (.refl _) (.refl _) (.refl _) (Or.inl rfl)
      unfold trivialMove
      dsimp only
      split
      · exact hmoved
      · rw [recordBackgroundError_contents]
        exact hmoved
    · exact hstart

theorem backgroundCompaction_effect (hstopped : db.running = none) (manifest : ManifestIO) :
    Effect options db (.background manifest) (db.backgroundCompaction manifest).contents := by
  have hidle : Effect options db (.background manifest) db.contents :=
    .idle (.refl _) (.refl _) (.refl _) (Or.inl rfl)
  unfold backgroundCompaction
  cases hmanual : db.manual with
  | some m =>
    dsimp only
    unfold manualCompaction
    cases hrange : db.versions.compactRange m.level m.rangeBegin m.rangeEnd with
    | none => exact hidle
    | some p =>
      have hchosen : db.versions.Chooses p.1 p.2 := Or.inr ⟨_, _, _, hrange⟩
      obtain ⟨pointers, hp⟩ := hchosen.versions
      have hlevel : db.compactionLevel = some p.1.level := by
        rw [compactionLevel, hmanual, VersionSet.compactRange_level hrange]
      dsimp only
      rw [hp]
      exact .start hstopped hchosen hlevel rfl
  | none =>
    rcases hpick : db.versions.pickCompaction with _ | p
    · simp only [automaticCompaction, hpick, Option.elim_none]
      exact hidle
    · simp only [automaticCompaction, hpick, Option.elim_some]
      refine pickedCompaction_effect hstopped (Or.inl hpick) ?_ manifest
      rw [compactionLevel, hmanual]
      exact VersionSet.pickCompaction_level hpick

theorem finishCompaction_contents (db : Database) (r : RunningCompaction) (job : CompactionJob)
    (manifest : ManifestIO) (work : Work) :
    (db.finishCompaction r job manifest work).contents = { db.contents with
      current := work.versions.current
      nextFileNumber := db.versions.nextFileNumber + (work.compact.complete job).2.outputs.length
      lastSequence := work.versions.lastSequence
      tables := (db.store ((work.compact.complete job).2.outputs.map fun out =>
        (out.number, out.entries))).tables
      running := none
      globals := work.globals } := by
  have hlogged := (db.takeFileNumbers (work.compact.complete job).2.outputs.length).logWork_contents
    work manifest
  unfold finishCompaction
  dsimp only
  rw [deleteObsoleteFiles_contents]
  generalize (db.takeFileNumbers (work.compact.complete job).2.outputs.length).logWork work
    manifest = logged at hlogged
  simp only [contents, Contents.mk.injEq] at hlogged
  obtain ⟨hmem, himm, -, hnext, -, htables, -⟩ := hlogged
  split
  · simp only [contents, store, hmem, himm, hnext, htables]
    rfl
  · rw [recordBackgroundError_contents]
    simp only [contents, store, hmem, himm, hnext, htables]
    rfl

/-- The outputs of a compaction have new numbers. -/
theorem job_outputs_number (r : RunningCompaction) (files : Files) (shuttingDown : Bool)
    (manifest : ManifestIO) (g : Globals) (w : Merge) {out : Output}
    (hout : out ∈ (((db.job r files shuttingDown manifest).conclude g w).compact.complete
      (db.job r files shuttingDown manifest)).2.outputs) :
    db.versions.nextFileNumber ≤ out.number ∧ out.number < db.versions.nextFileNumber +
      (((db.job r files shuttingDown manifest).conclude g w).compact.complete
        (db.job r files shuttingDown manifest)).2.outputs.length := by
  have hnumbered := (db.job r files shuttingDown manifest).conclude_numbered g w
  have hmem := List.mem_map_of_mem (f := Output.number) hout
  rw [hnumbered] at hmem
  obtain ⟨i, hi, heq⟩ := List.mem_map.mp hmem
  rw [← heq]
  exact ⟨Nat.le_add_right _ _, Nat.add_lt_add_left (List.mem_range.mp hi) _⟩

theorem finish_effect {r : RunningCompaction} (hr : db.running = some r) {files : Files}
    {shuttingDown : Bool} {manifest : ManifestIO} {work : Work}
    (hreads : db.Reads r.compaction files)
    (hdone : doCompactionWork ((db.job r files shuttingDown manifest).recordCount + 1) db.globals
      (db.job r files shuttingDown manifest) = some work) :
    Effect options db (.finish files shuttingDown manifest)
      (db.finishCompaction r (db.job r files shuttingDown manifest) manifest work).contents := by
  rw [finishCompaction_contents]
  have hdone' := hdone
  obtain ⟨w, -, rfl⟩ := Option.map_eq_some_iff.mp hdone
  have hnumbered := CompactionJob.conclude_numbered (db.job r files shuttingDown manifest)
    db.globals w
  obtain ⟨hlast, hcurrent⟩ := CompactionJob.conclude_versions
    (db.job r files shuttingDown manifest) db.globals w
  have hidle : db.globals.Idle →
      ((db.job r files shuttingDown manifest).conclude db.globals w).globals.Idle := by
    intro h
    obtain ⟨w', -, hwork, -, -, hclean, -⟩ := doCompactionWork_spec h.clean
      (Nat.lt_succ_self (db.job r files shuttingDown manifest).recordCount)
    rw [Option.some.inj (hdone'.symm.trans hwork)]
    exact CompactionJob.conclude_idle h hclean
  generalize hst : (CompactionState.complete _ (db.job r files shuttingDown manifest)).2 = st at *
  have hnumbers : (st.outputs.map fun out => (out.number, out.entries)).map Prod.fst =
      (List.range st.outputs.length).map fun i => db.versions.nextFileNumber + i := by
    rw [List.map_map]
    exact hnumbered
  have hkeeps : ∀ d : Contents, d.nextFileNumber = db.versions.nextFileNumber + st.outputs.length →
      d.tables = (db.store (st.outputs.map fun out => (out.number, out.entries))).tables →
      (db.globals.Idle → d.globals.Idle) → db.contents.Keeps d := by
    intro d hnext htables hglobals
    refine ⟨?_, ?_, hglobals⟩
    · rw [hnext]
      exact Nat.le_add_right _ _
    · intro n hn
      rw [htables]
      refine store_tables_of_notMem db ?_
      rw [hnumbers, List.mem_map]
      rintro ⟨i, -, rfl⟩
      exact absurd hn (Nat.not_lt.mpr (Nat.le_add_right _ _))
  rcases hcurrent with ⟨hok, hcurrent⟩ | hcurrent
  · refine .install hr hreads hdone' hok (hkeeps _ rfl rfl hidle) ⟨rfl, rfl, hlast⟩ ?_ ?_ ?_ rfl
    · rw [hst]
      exact hcurrent
    · rw [hst]
    · rw [hst]
      intro out hout
      refine store_tables_of_mem db ?_ (List.mem_map.mpr ⟨out, hout, rfl⟩)
      rw [hnumbers]
      exact List.nodup_range.map fun a b h => Nat.add_left_cancel h
  · refine .idle (hkeeps _ rfl rfl hidle) ⟨rfl, rfl, hlast⟩ ⟨?_, ?_⟩ (Or.inr rfl)
    · exact congrArg Version.files hcurrent
    · exact fun f level h => Or.inl ((congrArg Version.fileToCompact hcurrent).symm.trans h)

/-- A memtable becomes immutable only if there is no other one. -/
theorem room_switch {force allowDelay : Bool}
    (h : db.room options force allowDelay = .switch) : db.imm = none := by
  apply Option.not_isSome_iff_eq_none.mp
  intro hsome
  unfold room at h
  rw [if_pos hsome] at h
  split at h
  · cases h
  · split at h
    · cases h
    · split at h <;> cases h

/-- **Every step other than an open has one of the effects.** -/
theorem step_effect {db' : Database} {event : Event} (h : db.step options event = some db')
    (hopen : ∀ io, event ≠ .reopen io) : Effect options db event db'.contents := by
  have hidle : ∀ {event : Event}, Effect options db event db.contents :=
    .idle (.refl _) (.refl _) (.refl _) (Or.inl rfl)
  cases step_stepped h with
  | write => exact .write
  | @switch _ _ newLog room =>
    unfold switchMemTable
    split
    · exact .rotate room
    · exact hidle
  | stay _ => exact hidle
  | getSnapshot => exact hidle
  | releaseSnapshot => exact hidle
  | @seek level _ f _ file =>
    unfold updateStats
    dsimp only
    split
    · refine .idle ⟨Nat.le_refl _, fun _ _ => rfl, id⟩ ⟨rfl, rfl, rfl⟩ ⟨rfl, ?_⟩ (Or.inl rfl)
      intro g level' hg
      obtain ⟨rfl, rfl⟩ := Prod.mk.inj (Option.some.inj hg)
      exact Or.inr (List.mem_of_getElem? file)
    · exact hidle
  | compactRange _ _ => exact hidle
  | compactMemTable imm_eq => exact compactMemTable_effect imm_eq _ _ _
  | background _ running => exact backgroundCompaction_effect running _
  | finish running reads done => exact finish_effect running reads done
  | reopen _ => exact absurd rfl (hopen _)

end Database

end Lpad
