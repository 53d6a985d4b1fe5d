import Lpad.DB.BuilderReplay
import Lpad.DB.GetSequence
import Lpad.DB.Repair

/-!
# Lookups after a repair

All tables are at level 0 after a repair, and a lookup asks those of level 0 by falling
numbers, up to the first that has an entry of the user key. So it sees the newest entry if
the table with the highest number has it. A flush gives the higher number to the newer
entries. A compaction does not: its outputs are old entries under new numbers.
-/

namespace Lpad

/-! ## The steps of a repair -/

namespace Repairer

variable {r r₀ : Repairer} {disk : Disk} {io : RepairIO}

/-- The repairer has gone through these children. -/
structure Listed (r : Repairer) (disk : Disk) (children : List (Option FileName)) : Prop where
  tableNumbers : r.tableNumbers = children.filterMap tableNumber
  logs : r.logs = children.filterMap logNumber
  tables : r.tables = []
  files : r.files = disk.tables
  below : ∀ n ∈ r.tableNumbers, n < r.nextFileNumber

theorem lt_markNumber (r : Repairer) (number : Nat) :
    number < (r.markNumber number).nextFileNumber ∧
      r.nextFileNumber ≤ (r.markNumber number).nextFileNumber := by
  unfold markNumber
  dsimp only
  split
  · rename_i h
    exact ⟨Nat.lt_succ_self number, Nat.le_of_lt h⟩
  · rename_i h
    exact ⟨Nat.not_lt.mp h, Nat.le_refl _⟩

theorem Listed.findFile {seen : List (Option FileName)} (h : r.Listed disk seen)
    (name : Option FileName) : (r.findFile name).Listed disk (seen ++ [name]) := by
  have hmark : ∀ number, ∀ n ∈ r.tableNumbers, n < (r.markNumber number).nextFileNumber :=
    fun number n hn => lt_of_lt_of_le (h.below n hn) (r.lt_markNumber number).2
  -- neither a table nor a log
  have hother : ∀ r' : Repairer, tableNumber name = none → logNumber name = none →
      r'.tableNumbers = r.tableNumbers → r'.logs = r.logs → r'.tables = r.tables →
      r'.files = r.files → (∀ n ∈ r.tableNumbers, n < r'.nextFileNumber) →
        r'.Listed disk (seen ++ [name]) := by
    intro r' htable hlog hnumbers hlogs htables hfiles hbelow
    refine ⟨?_, ?_, htables.trans h.tables, hfiles.trans h.files, ?_⟩
    · simp [hnumbers, h.tableNumbers, List.filterMap_append, htable]
    · simp [hlogs, h.logs, List.filterMap_append, hlog]
    · rw [hnumbers]
      exact hbelow
  cases name with
  | none => exact hother r rfl rfl rfl rfl rfl rfl h.below
  | some name =>
    cases name with
    | log number =>
      refine ⟨?_, ?_, h.tables, h.files, hmark number⟩
      · simp [Repairer.findFile, markNumber, h.tableNumbers, List.filterMap_append, tableNumber]
      · simp [Repairer.findFile, h.logs, List.filterMap_append, logNumber]
    | table number =>
      refine ⟨?_, ?_, h.tables, h.files, ?_⟩
      · simp [Repairer.findFile, h.tableNumbers, List.filterMap_append, tableNumber]
      · simp [Repairer.findFile, markNumber, h.logs, List.filterMap_append, logNumber]
      · intro n hn
        rcases List.mem_append.mp hn with hn | hn
        · exact hmark number n hn
        · rw [List.mem_singleton.mp hn]
          exact (r.lt_markNumber number).1
    | descriptor number => exact hother _ rfl rfl rfl rfl rfl rfl h.below
    | dbLock => exact hother _ rfl rfl rfl rfl rfl rfl (hmark 0)
    | current => exact hother _ rfl rfl rfl rfl rfl rfl (hmark 0)
    | temp number => exact hother _ rfl rfl rfl rfl rfl rfl (hmark number)
    | infoLog => exact hother _ rfl rfl rfl rfl rfl rfl (hmark 0)

theorem foldl_findFile_listed (disk : Disk) (children : List (Option FileName)) :
    (children.foldl findFile (init disk)).Listed disk children := by
  induction children using List.reverseRecOn with
  | nil => exact ⟨rfl, rfl, rfl, rfl, fun n hn => by cases hn⟩
  | append_singleton children name ih =>
    rw [List.foldl_append]
    exact ih.findFile name

/-- What the conversion of logs adds: tables with new, rising numbers. -/
structure Converted (r₀ r : Repairer) (numbers : List Nat) (contents : List (List Record)) :
    Prop where
  tableNumbers : r.tableNumbers = r₀.tableNumbers ++ numbers
  contents : numbers.map r.files = contents
  rising : numbers.Pairwise (· < ·)
  fresh : ∀ n ∈ numbers, r₀.nextFileNumber ≤ n
  below : ∀ n ∈ numbers, n < r.nextFileNumber
  next : r₀.nextFileNumber ≤ r.nextFileNumber
  kept : ∀ n < r₀.nextFileNumber, r.files n = r₀.files n
  tables : r.tables = r₀.tables

theorem Converted.refl (r : Repairer) : r.Converted r [] [] where
  tableNumbers := (List.append_nil _).symm
  contents := rfl
  rising := List.Pairwise.nil
  fresh n hn := by cases hn
  below n hn := by cases hn
  next := Nat.le_refl _
  kept _ _ := rfl
  tables := rfl

/-- One log becomes a table, or a number is used up at most. -/
theorem convertLogToTable_cases (r : Repairer) (io : RepairIO) (disk : Disk) (log : Nat) :
    (∃ entries, disk.logTable io log = some entries ∧ (r.convertLogToTable io disk log).2 =
      { r with
        nextFileNumber := r.nextFileNumber + 1
        files := Function.update r.files r.nextFileNumber entries
        tableNumbers := r.tableNumbers ++ [r.nextFileNumber] }) ∨
    disk.logTable io log = none ∧ ∃ next, r.nextFileNumber ≤ next ∧
      (r.convertLogToTable io disk log).2 = { r with nextFileNumber := next } := by
  unfold convertLogToTable Disk.logTable
  by_cases hopen : (io.logFile log).isOk = true
  · rw [hopen]
    cases hentries : convertedEntries (disk.logs log) with
    | nil =>
      right
      exact ⟨by simp, r.nextFileNumber + 1, Nat.le_succ _, rfl⟩
    | cons first rest =>
      by_cases hbuild : (io.build log).status.isOk = true ∧ (io.build log).fileSize > 0
      · left
        exact ⟨first :: rest, by simp [hbuild.1, hbuild.2], by simp [hbuild.1, hbuild.2]⟩
      · right
        refine ⟨?_, r.nextFileNumber + 1, Nat.le_succ _, ?_⟩
        · rw [if_neg fun h => hbuild h.2.2]
        · simp only [Bool.not_true, Bool.false_eq_true, if_false]
          rw [if_neg hbuild]
  · right
    exact ⟨by simp [hopen], r.nextFileNumber, Nat.le_refl _, by simp [hopen]⟩

theorem Converted.log {numbers : List Nat} {contents : List (List Record)}
    (h : r₀.Converted r numbers contents) (io : RepairIO) (disk : Disk) (log : Nat) :
    ∃ numbers', r₀.Converted (r.convertLogToTable io disk log).2 numbers'
      (contents ++ (disk.logTable io log).toList) := by
  rcases r.convertLogToTable_cases io disk log with
    ⟨entries, hentries, hr⟩ | ⟨hentries, next, hnext, hr⟩
  · have hold : ∀ n < r.nextFileNumber,
        Function.update r.files r.nextFileNumber entries n = r.files n :=
      fun n hn => Function.update_of_ne (Nat.ne_of_lt hn) _ _
    rw [hr, hentries]
    refine ⟨numbers ++ [r.nextFileNumber], ?_, ?_, ?_, ?_, ?_, ?_, ?_, h.tables⟩
    · show r.tableNumbers ++ [r.nextFileNumber] = _
      rw [h.tableNumbers, List.append_assoc]
    · rw [List.map_append, ← h.contents]
      congr 1
      · exact List.map_congr_left fun n hn => hold n (h.below n hn)
      · simp
    · refine List.pairwise_append.mpr ⟨h.rising, List.pairwise_singleton _ _, ?_⟩
      intro n hn m hm
      rw [List.mem_singleton.mp hm]
      exact h.below n hn
    · intro n hn
      rcases List.mem_append.mp hn with hn | hn
      · exact h.fresh n hn
      · rw [List.mem_singleton.mp hn]
        exact h.next
    · intro n hn
      rcases List.mem_append.mp hn with hn | hn
      · exact Nat.lt_succ_of_lt (h.below n hn)
      · rw [List.mem_singleton.mp hn]
        exact Nat.lt_succ_self _
    · exact Nat.le_succ_of_le h.next
    · intro n hn
      exact (hold n (lt_of_lt_of_le hn h.next)).trans (h.kept n hn)
  · rw [hr, hentries, Option.toList_none, List.append_nil]
    exact ⟨numbers, h.tableNumbers, h.contents, h.rising, h.fresh,
      fun n hn => lt_of_lt_of_le (h.below n hn) hnext, le_trans h.next hnext, h.kept, h.tables⟩

/-- **All logs**: their tables in the order of the listing. -/
theorem convertLogFilesToTables_converted (r : Repairer) (io : RepairIO) (disk : Disk) :
    ∃ numbers, r.Converted (r.convertLogFilesToTables io disk) numbers
      (r.logs.filterMap (disk.logTable io)) := by
  have hlogs : ∀ logs : List Nat, ∃ numbers,
      r.Converted (logs.foldl (fun r log => (r.convertLogToTable io disk log).2) r) numbers
        (logs.filterMap (disk.logTable io)) := by
    intro logs
    induction logs using List.reverseRecOn with
    | nil => exact ⟨[], Converted.refl r⟩
    | append_singleton logs log ih =>
      obtain ⟨numbers, hnumbers⟩ := ih
      obtain ⟨numbers', hnumbers'⟩ := hnumbers.log io disk log
      refine ⟨numbers', ?_⟩
      rw [List.foldl_append, List.filterMap_append]
      have hlast : [log].filterMap (disk.logTable io) = (disk.logTable io log).toList := by
        cases hlog : disk.logTable io log <;> simp [hlog]
      rw [hlast]
      exact hnumbers'
  exact hlogs r.logs

end Repairer

/-! ## The scan of a table -/

/-- What the loop of `ScanTable` knows after these entries. -/
structure TableInfo.Scanned (s : Bool × TableInfo) (number : Nat) (entries : List Record) :
    Prop where
  empty : s.1 = entries.isEmpty
  number : s.2.file.number = number
  smallest : ∀ x ∈ entries.head?, s.2.file.smallest = x.key
  largest : ∀ x ∈ entries.getLast?, s.2.file.largest = x.key
  above : ∀ x ∈ entries, x.sequence ≤ s.2.maxSequence
  bounded : s.2.maxSequence ≤ kMaxSequenceNumber

theorem TableInfo.Scanned.scan {s : Bool × TableInfo} {number : Nat} {entries : List Record}
    (h : Scanned s number entries) {entry : Record} (hwf : WellFormed entry.key) :
    Scanned (TableInfo.scan s entry) number (entries ++ [entry]) := by
  obtain ⟨p, hp, huser, hsequence⟩ := Record.parsed_of_wellFormed hwf
  obtain ⟨q, hq, hkey⟩ := hwf
  have hbound : p.sequence ≤ kMaxSequenceNumber := by
    rw [← hsequence, Record.sequence, hkey, keySequence_appendInternalKey hq]
    exact hq
  unfold TableInfo.scan
  rw [hp]
  dsimp only
  refine ⟨by simp, h.number, ?_, ?_, ?_, ?_⟩
  · intro x hx
    rw [h.empty]
    cases entries with
    | nil =>
      obtain rfl := Option.some.inj hx
      rfl
    | cons first rest => exact h.smallest x hx
  · intro x hx
    rw [List.getLast?_concat] at hx
    obtain rfl := Option.some.inj hx
    rfl
  · have hmax : s.2.maxSequence ≤ (if p.sequence > s.2.maxSequence then p.sequence
        else s.2.maxSequence) ∧ p.sequence ≤ (if p.sequence > s.2.maxSequence then p.sequence
        else s.2.maxSequence) := by
      split
      · rename_i hlt
        exact ⟨Nat.le_of_lt hlt, Nat.le_refl _⟩
      · rename_i hge
        exact ⟨Nat.le_refl _, Nat.not_lt.mp hge⟩
    intro x hx
    rcases List.mem_append.mp hx with hx | hx
    · exact le_trans (h.above x hx) hmax.1
    · rw [List.mem_singleton.mp hx, hsequence]
      exact hmax.2
  · show (if p.sequence > s.2.maxSequence then p.sequence else s.2.maxSequence) ≤ _
    split
    · exact hbound
    · exact h.bounded

theorem tableInfo_scanned (number size : Nat) {entries : List Record}
    (hwf : ∀ x ∈ entries, WellFormed x.key) :
    ∃ empty, TableInfo.Scanned (empty, tableInfo number size entries) number entries := by
  have hscan : TableInfo.Scanned
      (entries.foldl TableInfo.scan (true, ⟨⟨number, size, [], []⟩, 0⟩)) number entries := by
    induction entries using List.reverseRecOn with
    | nil =>
      refine ⟨rfl, rfl, ?_, ?_, ?_, Nat.zero_le _⟩
      all_goals
        intro x hx
        cases hx
    | append_singleton entries entry ih =>
      rw [List.foldl_append]
      exact (ih fun x hx => hwf x (List.mem_append_left _ hx)).scan
        (hwf entry (List.mem_append_right _ (List.mem_singleton_self _)))
  exact ⟨_, hscan⟩

/-- What the scan of a sound table finds: bounds for its keys and sequence numbers. -/
structure TableInfo.Covers (t : TableInfo) (number : Nat) (entries : List Record) : Prop where
  number : t.file.number = number
  lower : ∀ x ∈ entries, t.file.lo ≤ keyRank x.key
  upper : ∀ x ∈ entries, keyRank x.key ≤ t.file.hi
  above : ∀ x ∈ entries, x.sequence ≤ t.maxSequence
  bounded : t.maxSequence ≤ kMaxSequenceNumber

theorem Disk.SoundTable.covers {entries : List Record} (h : Disk.SoundTable entries)
    (number size : Nat) : (tableInfo number size entries).Covers number entries := by
  obtain ⟨empty, hscan⟩ := tableInfo_scanned number size h.wellFormed
  obtain ⟨first, hfirst⟩ : ∃ first, entries.head? = some first := by
    cases hentries : entries with
    | nil => exact absurd hentries h.nonempty
    | cons first rest => exact ⟨first, rfl⟩
  obtain ⟨last, hlast⟩ : ∃ last, entries.getLast? = some last :=
    ⟨_, List.getLast?_eq_some_getLast h.nonempty⟩
  refine ⟨hscan.number, ?_, ?_, hscan.above, hscan.bounded⟩
  · intro x hx
    have hbounds := (bounds_of_sorted h.sorted hfirst hlast hx).1
    rwa [← hscan.smallest first hfirst] at hbounds
  · intro x hx
    have hbounds := (bounds_of_sorted h.sorted hfirst hlast hx).2
    rwa [← hscan.largest last hlast] at hbounds

/-- Entries of a memtable always have internal keys: what does not fit in the sequence
number is lost. -/
theorem MemEntry.wellFormed_record (e : MemEntry) : WellFormed e.record.key := by
  rw [wellFormed_iff]
  have hlen : ¬ (appendInternalKey ⟨e.userKey, e.sequence, e.type⟩).length < 8 := by
    simp [appendInternalKey, leBytes_length]
  have htag : trailer (appendInternalKey ⟨e.userKey, e.sequence, e.type⟩) % 256 = e.type.code := by
    have hcode := e.type.code_lt
    rw [trailer_appendInternalKey]
    simp only [packSequenceAndType]
    omega
  show (parseInternalKey (appendInternalKey ⟨e.userKey, e.sequence, e.type⟩)).isSome = true
  rw [parseInternalKey, if_neg hlen, htag]
  cases e.type <;> rfl

theorem Disk.logTable_sound {disk : Disk} {io : RepairIO} {log : Nat} {entries : List Record}
    (h : disk.logTable io log = some entries) : SoundTable entries := by
  unfold logTable at h
  split at h
  · rename_i hlog
    obtain rfl := Option.some.inj h
    refine ⟨hlog.2.1, MemTable.records_sorted _, ?_⟩
    intro x hx
    obtain ⟨e, -, rfl⟩ := MemTable.mem_records.mp hx
    exact e.wellFormed_record
  · cases h

theorem Disk.Sound.sources {disk : Disk} (h : disk.Sound) (io : RepairIO) :
    ∀ entries ∈ disk.sources io, SoundTable entries := by
  intro entries hentries
  rcases List.mem_append.mp hentries with hentries | hentries
  · obtain ⟨log, -, hlog⟩ := List.mem_filterMap.mp (List.mem_reverse.mp hentries)
    exact logTable_sound hlog
  · obtain ⟨n, hn, rfl⟩ := List.mem_map.mp hentries
    exact h.tables n ((List.mem_insertionSort _).mp hn)

/-! ## The new manifest -/

namespace Repairer

/-- What `ScanTable` adds for a table that can be read. -/
def scanned (r : Repairer) (io : RepairIO) (number : Nat) : TableInfo :=
  tableInfo number ((io.fileSize number).getD 0) (r.files number)

theorem scanTable_eq (hio : io.Readable) (r : Repairer) (number : Nat) :
    r.scanTable io number = { r with tables := r.tables ++ [r.scanned io number] } := by
  obtain ⟨size, hsize⟩ := Option.isSome_iff_exists.mp (hio.fileSize number)
  unfold scanTable scanned
  rw [hsize, hio.undamaged number]
  rfl

theorem extractMetaData_eq (hio : io.Readable) (r : Repairer) :
    r.extractMetaData io = { r with tables := r.tables ++ r.tableNumbers.map (r.scanned io) } := by
  have hscan : ∀ numbers : List Nat, numbers.foldl (scanTable io) r =
      { r with tables := r.tables ++ numbers.map (r.scanned io) } := by
    intro numbers
    induction numbers using List.reverseRecOn with
    | nil =>
      rw [List.map_nil, List.append_nil]
      rfl
    | append_singleton numbers number ih =>
      rw [List.foldl_append, ih, List.map_append, ← List.append_assoc]
      exact scanTable_eq hio _ number
  exact hscan r.tableNumbers

theorem edit_eq (r : Repairer) :
    r.edit =
      { VersionEdit.clear with
        logNumber := some 0
        nextFileNumber := some r.nextFileNumber
        lastSequence := some r.maxSequence
        newFiles := r.tables.map fun t => (0, t.file) } := by
  have hadd : ∀ (tables : List TableInfo) (e : VersionEdit),
      tables.foldl (fun e t => e.addFile 0 t.file) e =
        { e with newFiles := e.newFiles ++ tables.map fun t => (0, t.file) } := by
    intro tables
    induction tables with
    | nil =>
      intro e
      rw [List.map_nil, List.append_nil]
      rfl
    | cons t tables ih =>
      intro e
      rw [List.foldl_cons, ih, List.map_cons]
      simp [VersionEdit.addFile]
  exact hadd r.tables _

theorem edit_filesFor (r : Repairer) (level : Nat) :
    r.edit.filesFor level = if level = 0 then r.tables.map TableInfo.file else [] := by
  unfold VersionEdit.filesFor
  rw [r.edit_eq]
  dsimp only
  by_cases hlevel : level = 0
  · subst hlevel
    simp [List.filter_map, Function.comp_def]
  · have hne : 0 ≠ level := fun heq => hlevel heq.symm
    simp [hlevel, hne]

/-- The last sequence number is not below that of any table, and it is one of them. -/
theorem maxSequence_spec (r : Repairer) :
    (∀ t ∈ r.tables, t.maxSequence ≤ r.maxSequence) ∧
      ∀ bound, (∀ t ∈ r.tables, t.maxSequence ≤ bound) → r.maxSequence ≤ bound := by
  have hfold : ∀ (tables : List TableInfo) (s bound : Nat),
      tables.foldl (fun s t => if s < t.maxSequence then t.maxSequence else s) s ≤ bound ↔
        s ≤ bound ∧ ∀ t ∈ tables, t.maxSequence ≤ bound := by
    intro tables
    induction tables with
    | nil => simp
    | cons t tables ih =>
      intro s bound
      rw [List.foldl_cons, ih, List.forall_mem_cons, ← and_assoc]
      have hmax : (if s < t.maxSequence then t.maxSequence else s) = max s t.maxSequence :=
        (max_def_lt _ _).symm
      rw [hmax, max_le_iff]
  refine ⟨((hfold r.tables 0 r.maxSequence).mp (Nat.le_refl _)).2, fun bound hbound => ?_⟩
  exact (hfold r.tables 0 bound).mpr ⟨Nat.zero_le _, hbound⟩

/-- **Reopening** a repaired directory: nothing is replayed, and the version has the files
of the manifest. -/
theorem repaired_reopen (r : Repairer) (options : Options) {io : OpenIO}
    (hlog : io.newLog.isOk = true) (hmanifest : io.manifest.isOk = true) :
    ∃ db, r.repaired.reopen options io = some db ∧ db.mem = [] ∧ db.imm = none ∧
      db.tables = r.files ∧ db.versions.lastSequence = r.maxSequence ∧
      db.versions.current.files = ((Builder.new.apply r.edit).saveTo Version.empty).files := by
  have hrecover : ∃ vs, VersionSet.recover r.repaired.manifest = .ok vs ∧
      vs.lastSequence = r.maxSequence ∧
      vs.current = (Builder.new.apply r.edit).saveTo Version.empty := by
    have hedit := r.edit_eq
    unfold VersionSet.recover repaired latest
    simp only [List.foldl_cons, List.foldl_nil, hedit, Option.some_or]
    exact ⟨_, rfl, rfl, rfl⟩
  obtain ⟨vs, hvs, hlast, hcurrent⟩ := hrecover
  have hreplay : r.repaired.replayLogs options io vs = ⟨.ok, none, VersionEdit.clear, vs, [], 0⟩ :=
    rfl
  refine ⟨r.repaired.install io ⟨.ok, none, VersionEdit.clear, vs, [], 0⟩, ?_, ?_⟩
  · unfold Database.reopen
    rw [hvs]
    dsimp only
    rw [hreplay, hlog, hmanifest]
    rfl
  · have hopened : ∀ db : Database, (db.store []).deleteObsoleteFiles.mem = db.mem ∧
        (db.store []).deleteObsoleteFiles.imm = db.imm ∧
        (db.store []).deleteObsoleteFiles.tables = db.tables ∧
        (db.store []).deleteObsoleteFiles.versions = db.versions := by
      intro db
      unfold Database.deleteObsoleteFiles
      split <;> exact ⟨rfl, rfl, rfl, rfl⟩
    unfold Database.install
    dsimp only
    rw [if_neg (Nat.not_lt_zero _)]
    obtain ⟨hmem, himm, htables, hversions⟩ := hopened _
    rw [hmem, himm, htables, hversions]
    refine ⟨rfl, rfl, rfl, hlast, ?_⟩
    rw [← hcurrent]
    exact VersionSet.nextVersion_of_empty _ rfl rfl

end Repairer

/-! ## All tables at level 0 -/

/-- The table has an entry of the user key. -/
def hasEntry (u : Bytes) (entries : List Record) : Bool :=
  entries.any fun x => decide (x.userKey = u)

theorem hasEntry_iff {u : Bytes} {entries : List Record} :
    hasEntry u entries = true ↔ ∃ x ∈ entries, x.userKey = u := by
  simp [hasEntry]

/-- The first of the tables that have an entry of `u` has the newest one; or its own newest
entry and the newest of all are both deletions, which a lookup does not tell apart. -/
def NewestFirst (tables : List (List Record)) (u : Bytes) : Prop :=
  ∀ entries, tables.find? (hasEntry u) = some entries →
    ∃ x, NewestAt entries u kMaxSequenceNumber x ∧
      (NewestAt tables.flatten u kMaxSequenceNumber x ∨
        x.type = some .kTypeDeletion ∧
          ∃ y, NewestAt tables.flatten u kMaxSequenceNumber y ∧ y.type = some .kTypeDeletion)

/-- A database with nothing in memory and all of its tables at level 0. Their numbers are
listed from the highest to the lowest. -/
structure Database.Flat (db : Database) (numbers : List Nat) : Prop where
  mem : db.mem = []
  imm : db.imm = none
  falling : numbers.Pairwise (· > ·)
  level0 : ((db.versions.current.files 0).map FileMetaData.number).Perm numbers
  deeper : ∀ level, 0 < level → db.versions.current.files level = []
  tables : ∀ n ∈ numbers, Disk.SoundTable (db.tables n)
  covers : ∀ f ∈ db.versions.current.files 0, ∀ x ∈ db.tables f.number,
    f.lo ≤ keyRank x.key ∧ keyRank x.key ≤ f.hi
  seen : ∀ n ∈ numbers, ∀ x ∈ db.tables n, x.sequence ≤ db.versions.lastSequence
  bounded : db.versions.lastSequence ≤ kMaxSequenceNumber

/-- Where nothing is found, there is no need to look. -/
theorem findSome?_filter_of_none {α β : Type*} {l : List α} {p : α → Bool} {look : α → Option β}
    (h : ∀ a ∈ l, p a = false → look a = none) :
    (l.filter p).findSome? look = l.findSome? look := by
  induction l with
  | nil => rfl
  | cons a l ih =>
    have ih := ih fun b hb => h b (List.mem_cons_of_mem _ hb)
    cases hp : p a with
    | true => rw [List.filter_cons_of_pos hp, List.findSome?_cons, List.findSome?_cons, ih]
    | false =>
      rw [List.filter_cons_of_neg (by simp [hp]), List.findSome?_cons, ih,
        h a List.mem_cons_self hp]

/-- The first for which something is found is the first that has something. -/
theorem findSome?_eq_find?_bind {α β : Type*} {l : List α} {p : α → Bool} {look : α → Option β}
    (h : ∀ a ∈ l, (look a).isSome = p a) : l.findSome? look = (l.find? p).bind look := by
  induction l with
  | nil => rfl
  | cons a l ih =>
    have ha := h a List.mem_cons_self
    rw [List.findSome?_cons, List.find?_cons, ih fun b hb => h b (List.mem_cons_of_mem _ hb), ← ha]
    cases hlook : look a with
    | none => rfl
    | some b => simp [hlook]

/-- The type and the sequence number make up the trailer. -/
theorem Record.trailer_eq {x y : Record} (hx : WellFormed x.key) (hy : WellFormed y.key)
    (htype : x.type = y.type) (hsequence : x.sequence = y.sequence) : x.trailer = y.trailer := by
  unfold Record.sequence keySequence at hsequence
  unfold Record.trailer
  have hcode : Lpad.trailer x.key % 256 = Lpad.trailer y.key % 256 := by
    rcases Record.type_cases hx with ⟨hxtag, hxtype⟩ | ⟨hxtag, hxtype⟩
    · rcases Record.type_cases hy with ⟨hytag, -⟩ | ⟨-, hytype⟩
      · rw [hxtag, hytag]
      · rw [hxtype, hytype] at htype
        cases htype
    · rcases Record.type_cases hy with ⟨-, hytype⟩ | ⟨hytag, -⟩
      · rw [hxtype, hytype] at htype
        cases htype
      · rw [hxtag, hytag]
  omega

namespace Database.Flat

variable {db : Database} {numbers : List Nat} (h : db.Flat numbers) {k : LookupKey}

include h

/-- The files that are read, by their numbers. -/
theorem filesToSearch_numbers (k : LookupKey) :
    (db.versions.current.filesToSearch k 0).map FileMetaData.number =
      numbers.filter fun n =>
        decide (n ∈ (db.versions.current.filesToSearch k 0).map FileMetaData.number) := by
  generalize hsearch : db.versions.current.filesToSearch k 0 = files
  have hsubset : ∀ n ∈ files.map FileMetaData.number, n ∈ numbers := by
    intro n hn
    obtain ⟨f, hf, rfl⟩ := List.mem_map.mp hn
    rw [← hsearch] at hf
    exact h.level0.mem_iff.mp (List.mem_map_of_mem (Version.mem_filesToSearch_zero.mp hf).1)
  have hdistinct : numbers.Nodup := h.falling.imp fun hgt => (Nat.ne_of_lt hgt).symm
  have hnodup : (files.map FileMetaData.number).Nodup := by
    have hall : ((db.versions.current.files 0).map FileMetaData.number).Nodup :=
      h.level0.nodup_iff.mpr hdistinct
    rw [← hsearch, Version.filesToSearch, if_pos rfl]
    have hperm := (List.perm_insertionSort (fun f g : FileMetaData => f.number ≥ g.number)
      ((db.versions.current.files 0).filter fun f => decide
        (sliceCompare k.userKey f.startKey ≠ .lt ∧ sliceCompare k.userKey f.limitKey ≠ .gt))).map
      FileMetaData.number
    exact hperm.nodup_iff.mpr (hall.sublist (List.filter_sublist.map _))
  have hfalling : (files.map FileMetaData.number).Pairwise (· > ·) := by
    have hsorted : (files.map FileMetaData.number).Pairwise (· ≥ ·) := by
      rw [List.pairwise_map, ← hsearch]
      exact Version.filesToSearch_zero_sorted _ k
    exact (hsorted.and hnodup).imp fun hpair => lt_of_le_of_ne hpair.1 hpair.2.symm
  have hperm : (files.map FileMetaData.number).Perm
      (numbers.filter fun n => decide (n ∈ files.map FileMetaData.number)) := by
    refine (List.perm_ext_iff_of_nodup hnodup (hdistinct.filter _)).mpr fun n => ?_
    rw [List.mem_filter, decide_eq_true_iff]
    exact ⟨fun hn => ⟨hsubset n hn, hn⟩, fun hn => hn.2⟩
  exact hperm.eq_of_pairwise (fun _ _ _ _ hgt hlt => absurd hgt (lt_asymm hlt)) hfalling
    (h.falling.filter _)

/-- Leaving out the files whose range does not have the user key changes nothing. -/
theorem lookupLevel_zero (k : LookupKey) :
    db.lookupLevel k 0 = (numbers.map db.tables).findSome? fun entries => lookup entries k := by
  have hmap : db.lookupLevel k 0 =
      ((db.versions.current.filesToSearch k 0).map FileMetaData.number).findSome?
        fun n => lookup (db.tables n) k := by
    rw [List.findSome?_map]
    rfl
  rw [hmap, h.filesToSearch_numbers, findSome?_filter_of_none, List.findSome?_map]
  · rfl
  · intro n hn hleft
    have hleft := of_decide_eq_false hleft
    obtain ⟨f, hf, rfl⟩ := List.mem_map.mp (h.level0.mem_iff.mpr hn)
    cases hlook : lookup (db.tables f.number) k with
    | none => rfl
    | some r =>
      obtain ⟨-, huser, hr⟩ := lookup_eq_some hlook
      obtain ⟨hlower, hupper⟩ := h.covers f hf r hr
      refine absurd (List.mem_map_of_mem (Version.mem_filesToSearch_zero.mpr ⟨hf, ?_, ?_⟩)) hleft
      · exact le_of_le_of_eq (userKey_le_of_keyRank_le hlower) huser
      · exact le_of_eq_of_le huser.symm (userKey_le_of_keyRank_le hupper)

theorem lookup_levels (k : LookupKey) :
    (lookup db.mem.records k).or ((lookup db.immRecords k).or
        ((List.range kNumLevels).findSome? (db.lookupLevel k))) =
      (numbers.map db.tables).findSome? fun entries => lookup entries k := by
  have hmem : lookup db.mem.records k = none := by
    rw [h.mem]
    rfl
  have himm : lookup db.immRecords k = none := by
    rw [immRecords, h.imm]
    rfl
  have hdeeper : ∀ level, 0 < level → db.lookupLevel k level = none := by
    intro level hlevel
    unfold lookupLevel
    rw [List.findSome?_eq_none_iff]
    intro f hf
    have hfiles := Version.filesToSearch_subset hf
    rw [h.deeper level hlevel] at hfiles
    cases hfiles
  rw [hmem, himm, Option.none_or, Option.none_or, ← h.lookupLevel_zero k]
  have hlevels : List.range kNumLevels = [0, 1, 2, 3, 4, 5, 6] := rfl
  rw [hlevels]
  cases hzero : db.lookupLevel k 0 with
  | none => simp [hzero, hdeeper]
  | some r => simp [hzero]

theorem keys : db.KeysWellFormed where
  mem x hx := by
    rw [h.mem] at hx
    cases hx
  imm x hx := by
    rw [immRecords, h.imm] at hx
    cases hx
  tables level _ f hf := by
    rcases Nat.eq_zero_or_pos level with rfl | hlevel
    · exact (h.tables f.number (h.level0.mem_iff.mp (List.mem_map_of_mem hf))).wellFormed
    · rw [h.deeper level hlevel] at hf
      cases hf

/-- A lookup in one table, at the last sequence number: the newest entry of the user key, if
it has one. -/
theorem lookup_table (entries : List Record) (hentries : entries ∈ numbers.map db.tables)
    (hk : k.sequence = db.versions.lastSequence) :
    (lookup entries k).isSome = hasEntry k.userKey entries ∧
      ∀ r, lookup entries k = some r → NewestAt entries k.userKey kMaxSequenceNumber r := by
  obtain ⟨n, hn, rfl⟩ := List.mem_map.mp hentries
  have hsound := h.tables n hn
  have hseen : ∀ x ∈ db.tables n, x.sequence ≤ k.sequence := by
    rw [hk]
    exact h.seen n hn
  have hmax : k.sequence ≤ kMaxSequenceNumber := by
    rw [hk]
    exact h.bounded
  have hreads := lookup_reads hsound.sorted hsound.wellFormed hmax
  cases hlook : lookup (db.tables n) k with
  | none =>
    rw [hlook] at hreads
    constructor
    · have hnone : ¬ hasEntry k.userKey (db.tables n) = true := by
        rintro hhas
        obtain ⟨x, hx, huser⟩ := hasEntry_iff.mp hhas
        exact absurd (Record.sequence_le_iff.mp (hseen x hx)) (not_le.mpr (hreads x hx huser))
      exact (Bool.eq_false_iff.mpr hnone).symm
    · intro r hr
      cases hr
  | some r =>
    rw [hlook] at hreads
    have hnewest := newestAt_iff.mpr hreads
    constructor
    · exact (hasEntry_iff.mpr ⟨r, hnewest.mem, hnewest.userKey⟩).symm
    · intro x hx
      obtain rfl := Option.some.inj hx
      exact ⟨hnewest.mem, hnewest.userKey, le_trans hnewest.seen hmax,
        fun x hx huser _ => hnewest.newest x hx huser (hseen x hx)⟩

theorem wellFormed {x : Record} (hx : x ∈ (numbers.map db.tables).flatten) : WellFormed x.key := by
  obtain ⟨entries, hentries, hx⟩ := List.mem_flatten.mp hx
  obtain ⟨n, hn, rfl⟩ := List.mem_map.mp hentries
  exact (h.tables n hn).wellFormed x hx

/-- **The lookup tells the newest entry exactly if the first table has it.** -/
theorem tells_iff {tableStatus : Nat → Status} (hstatus : ∀ n, tableStatus n = .ok) (key : Bytes)
    (out : GetOutput) :
    (db.suGet tableStatus none key out).Tells (numbers.map db.tables).flatten key
        kMaxSequenceNumber ↔ NewestFirst (numbers.map db.tables) key := by
  have hanswer := h.keys.answered hstatus none key out rfl
  rw [h.lookup_levels] at hanswer
  have htable := fun entries hentries =>
    h.lookup_table (k := ⟨key, db.snapshotNumber none⟩) entries hentries rfl
  rw [findSome?_eq_find?_bind fun entries hentries => (htable entries hentries).1] at hanswer
  unfold NewestFirst
  cases hfirst : (numbers.map db.tables).find? (hasEntry key) with
  | none =>
    -- no table has an entry of the user key
    rw [hfirst] at hanswer
    have hunseen : Unseen (numbers.map db.tables).flatten key kMaxSequenceNumber := by
      intro x hx huser
      obtain ⟨entries, hentries, hx⟩ := List.mem_flatten.mp hx
      exact absurd (hasEntry_iff.mpr ⟨x, hx, huser⟩)
        (List.find?_eq_none.mp hfirst entries hentries)
    refine iff_of_true (Or.inr (Or.inr ⟨hunseen, hanswer⟩)) ?_
    intro entries hentries
    cases hentries
  | some entries =>
    have hentries := List.mem_of_find?_eq_some hfirst
    have hhas := List.find?_some hfirst
    obtain ⟨r, hr⟩ := Option.isSome_iff_exists.mp ((htable entries hentries).1.trans hhas)
    have hnewest := (htable entries hentries).2 r hr
    have hall : ∀ x ∈ entries, x ∈ (numbers.map db.tables).flatten :=
      fun x hx => List.mem_flatten.mpr ⟨entries, hentries, hx⟩
    rw [hfirst, Option.bind_some, hr] at hanswer
    have hkey : ∀ x, NewestAt entries key kMaxSequenceNumber x → x.key = r.key := fun x hx =>
      hx.key_eq hnewest (h.wellFormed (hall x hx.mem)) (h.wellFormed (hall r hnewest.mem))
    -- an entry that is as new as the newest one
    have hmoved : ∀ y, NewestAt (numbers.map db.tables).flatten key kMaxSequenceNumber y →
        y.trailer = r.trailer →
          NewestAt (numbers.map db.tables).flatten key kMaxSequenceNumber r := by
      intro y hy htrailer
      refine ⟨hall r hnewest.mem, hnewest.userKey, hnewest.seen, fun x hx huser hle => ?_⟩
      exact le_of_le_of_eq (hy.newest x hx huser hle) htrailer
    constructor
    · intro htells xs hxs
      obtain rfl := Option.some.inj hxs
      refine ⟨r, hnewest, ?_⟩
      rcases htells with ⟨y, hy, hytype, hs, hout⟩ | ⟨y, hy, hytype, hs⟩ | ⟨hunseen, -⟩
      · left
        rcases hanswer with ⟨htype, -, hout'⟩ | ⟨-, hs'⟩
        · have hsequence : y.sequence = r.sequence :=
            congrArg GetOutput.tw (hout.symm.trans hout')
          exact hmoved y hy (Record.trailer_eq (h.wellFormed hy.mem)
            (h.wellFormed (hall r hnewest.mem)) (hytype.trans htype.symm) hsequence)
        · rw [hs] at hs'
          cases hs'
      · right
        rcases hanswer with ⟨-, hs', -⟩ | ⟨htype, -⟩
        · rw [hs] at hs'
          cases hs'
        · exact ⟨htype, y, hy, hytype⟩
      · exact absurd (hunseen r (hall r hnewest.mem) hnewest.userKey) (not_lt.mpr hnewest.seen)
    · intro hnewestFirst
      obtain ⟨x, hx, hcase⟩ := hnewestFirst entries rfl
      have hsame := hkey x hx
      rcases hcase with hx | ⟨hxtype, y, hy, hytype⟩
      · have hr := hmoved x hx (congrArg Lpad.trailer hsame)
        rcases hanswer with ⟨htype, hs, hout⟩ | ⟨htype, hs⟩
        · exact Or.inl ⟨r, hr, htype, hs, hout⟩
        · exact Or.inr (Or.inl ⟨r, hr, htype, hs⟩)
      · have hrtype : r.type = some .kTypeDeletion := by
          rw [Record.type, ← hsame]
          exact hxtype
        rcases hanswer with ⟨htype, -, -⟩ | ⟨-, hs⟩
        · rw [hrtype] at htype
          cases htype
        · exact Or.inr (Or.inl ⟨y, hy, hytype, hs⟩)

end Database.Flat

/-! ## The repair as a whole -/

/-- The numbers of the tables after a repair, from the highest to the lowest: those of the
logs, which are new, and then those that were there. -/
theorem Repairer.Converted.falling {r₀ r : Repairer} {disk : Disk} {numbers : List Nat}
    {contents : List (List Record)} (h : r₀.Converted r numbers contents)
    (hlisted : r₀.Listed disk disk.children) (hdisk : disk.Sound) :
    (numbers.reverse ++ disk.tableNumbers.insertionSort (· ≥ ·)).Pairwise (· > ·) := by
  refine List.pairwise_append.mpr ⟨List.pairwise_reverse.mpr h.rising, ?_, ?_⟩
  · have hsorted : (disk.tableNumbers.insertionSort (· ≥ ·)).Pairwise (· ≥ ·) :=
      List.pairwise_insertionSort _ _
    have hnodup : (disk.tableNumbers.insertionSort (· ≥ ·)).Nodup :=
      (List.perm_insertionSort _ _).nodup_iff.mpr hdisk.numbers
    exact (hsorted.and hnodup).imp fun hpair => lt_of_le_of_ne hpair.1 hpair.2.symm
  · intro n hn m hm
    have hm := (List.mem_insertionSort _).mp hm
    rw [Disk.tableNumbers, ← hlisted.tableNumbers] at hm
    exact lt_of_lt_of_le (hlisted.below m hm) (h.fresh n (List.mem_reverse.mp hn))

/-- The contents of these tables are what the directory holds. -/
theorem Repairer.Converted.map_files {r₀ r : Repairer} {disk : Disk} {io : RepairIO}
    {numbers : List Nat} (h : r₀.Converted r numbers (disk.logNumbers.filterMap (disk.logTable io)))
    (hlisted : r₀.Listed disk disk.children) :
    (numbers.reverse ++ disk.tableNumbers.insertionSort (· ≥ ·)).map r.files = disk.sources io := by
  rw [List.map_append, List.map_reverse, h.contents]
  congr 1
  refine List.map_congr_left fun n hn => ?_
  have hn := (List.mem_insertionSort _).mp hn
  rw [Disk.tableNumbers, ← hlisted.tableNumbers] at hn
  rw [h.kept n (hlisted.below n hn), hlisted.files]

/-- The repairer has scanned the tables with these numbers. -/
structure Repairer.Described (r : Repairer) (numbers : List Nat) : Prop where
  falling : numbers.Pairwise (· > ·)
  perm : (r.tables.map fun t => t.file.number).Perm numbers
  sound : ∀ n ∈ numbers, Disk.SoundTable (r.files n)
  covers : ∀ t ∈ r.tables, t.Covers t.file.number (r.files t.file.number)

theorem Repairer.described {r : Repairer} {io : RepairIO} (hio : io.Readable)
    (htables : r.tables = []) {numbers : List Nat} (hfalling : numbers.Pairwise (· > ·))
    (hperm : r.tableNumbers.Perm numbers) (hsound : ∀ n ∈ numbers, Disk.SoundTable (r.files n)) :
    (r.extractMetaData io).Described numbers := by
  have hcovers : ∀ n ∈ r.tableNumbers, (r.scanned io n).Covers n (r.files n) :=
    fun n hn => (hsound n (hperm.mem_iff.mp hn)).covers n _
  rw [r.extractMetaData_eq hio, htables, List.nil_append]
  refine ⟨hfalling, ?_, hsound, ?_⟩
  · have hnumbers : (r.tableNumbers.map (r.scanned io)).map (fun t => t.file.number) =
        r.tableNumbers := by
      rw [List.map_map]
      exact (List.map_congr_left fun n hn => (hcovers n hn).number).trans (List.map_id' _)
    rw [hnumbers]
    exact hperm
  · intro t ht
    obtain ⟨n, hn, rfl⟩ := List.mem_map.mp ht
    rw [(hcovers n hn).number]
    exact hcovers n hn

theorem Repairer.Described.flat {r : Repairer} {numbers : List Nat} (h : r.Described numbers)
    {db : Database} (hmem : db.mem = []) (himm : db.imm = none) (htables : db.tables = r.files)
    (hlast : db.versions.lastSequence = r.maxSequence)
    (hfiles : db.versions.current.files =
      ((Builder.new.apply r.edit).saveTo Version.empty).files) : db.Flat numbers := by
  have hnodup : numbers.Nodup := h.falling.imp fun hgt => (Nat.ne_of_lt hgt).symm
  have hadds : r.edit.adds.Nodup := by
    have hnumbers : r.edit.adds.map Prod.snd = r.tables.map fun t => t.file.number := by
      rw [VersionEdit.adds, r.edit_eq, List.map_map, List.map_map]
      rfl
    apply List.Nodup.of_map Prod.snd
    rw [hnumbers]
    exact h.perm.nodup_iff.mpr hnodup
  have hlevel : ∀ level, (db.versions.current.files level).Perm (r.edit.filesFor level) := by
    rw [hfiles]
    exact Builder.Tracks.saveTo_perm hadds (by rw [r.edit_eq]; rfl)
  have hmax := r.maxSequence_spec
  refine ⟨hmem, himm, h.falling, ?_, ?_, ?_, ?_, ?_, ?_⟩
  · have hzero := (hlevel 0).map FileMetaData.number
    rw [r.edit_filesFor, if_pos rfl, List.map_map] at hzero
    exact hzero.trans h.perm
  · intro level hpos
    have hnone := hlevel level
    rw [r.edit_filesFor, if_neg (Nat.ne_of_gt hpos)] at hnone
    exact hnone.eq_nil
  · rw [htables]
    exact h.sound
  · intro f hf x hx
    rw [(hlevel 0).mem_iff, r.edit_filesFor, if_pos rfl] at hf
    obtain ⟨t, ht, rfl⟩ := List.mem_map.mp hf
    rw [htables] at hx
    exact ⟨(h.covers t ht).lower x hx, (h.covers t ht).upper x hx⟩
  · intro n hn x hx
    obtain ⟨t, ht, rfl⟩ := List.mem_map.mp (h.perm.mem_iff.mpr hn)
    rw [htables] at hx
    rw [hlast]
    exact le_trans ((h.covers t ht).above x hx) (hmax.1 t ht)
  · rw [hlast]
    exact hmax.2 _ fun t ht => (h.covers t ht).bounded

/-- **A repaired and reopened directory** is a flat database of what it held. -/
theorem repairDB_flat {io : RepairIO} {disk : Disk} (hio : io.Readable) (hdisk : disk.Sound) :
    ∃ repaired, repairDB io disk = .ok repaired ∧ ∀ (options : Options) (opening : OpenIO),
      opening.newLog = .ok → opening.manifest = .ok →
        ∃ db, repaired.reopen options opening = some db ∧
          ∃ numbers, db.Flat numbers ∧ numbers.map db.tables = disk.sources io := by
  have hlisted := Repairer.foldl_findFile_listed disk disk.children
  have hfind : Repairer.findFiles io disk =
      .ok (disk.children.foldl Repairer.findFile (Repairer.init disk)) := by
    unfold Repairer.findFiles
    rw [hio.getChildren, if_neg hdisk.children]
    rfl
  generalize disk.children.foldl Repairer.findFile (Repairer.init disk) = r₀ at hlisted hfind
  obtain ⟨new, hconverted⟩ := r₀.convertLogFilesToTables_converted io disk
  rw [hlisted.logs] at hconverted
  generalize hr : r₀.convertLogFilesToTables io disk = r at hconverted
  have hrepair : repairDB io disk = .ok (r.extractMetaData io).repaired := by
    unfold repairDB
    rw [hfind]
    dsimp only
    rw [hr, hio.descriptor]
    rfl
  have hsources := hconverted.map_files hlisted
  have hperm : r.tableNumbers.Perm (new.reverse ++ disk.tableNumbers.insertionSort (· ≥ ·)) := by
    rw [hconverted.tableNumbers, hlisted.tableNumbers]
    exact List.perm_append_comm.trans ((List.reverse_perm new).symm.append
      (List.perm_insertionSort _ _).symm)
  have hdescribed := Repairer.described hio (hconverted.tables.trans hlisted.tables)
    (hconverted.falling hlisted hdisk) hperm fun n hn => hdisk.sources io _ (by
      rw [← hsources]
      exact List.mem_map_of_mem hn)
  refine ⟨_, hrepair, ?_⟩
  intro options opening hlog hmanifest
  obtain ⟨db, hdb, hmem, himm, htables, hlast, hfiles⟩ :=
    (r.extractMetaData io).repaired_reopen options (Status.isOk_iff.mpr hlog)
      (Status.isOk_iff.mpr hmanifest)
  refine ⟨db, hdb, _, hdescribed.flat hmem himm htables hlast hfiles, ?_⟩
  rw [htables, r.extractMetaData_eq hio]
  exact hsources

end Lpad
