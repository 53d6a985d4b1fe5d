import Lpad.DB.CompactionSpec

/-!
# What a compaction does with errors

An error of an input iterator or of `SU_flush_data` reaches nobody: `do_reload_1c`,
`do_flush_1c` and `SU_compact` drop it on the way. `conclude_refused_iff` says when
`DoCompactionWork` nevertheless returns an error and leaves the version set alone:
when the database is shutting down, or when the merge has left an output table open
and just this table cannot be finished.

So for any given inputs the errors are respected, whatever goes wrong, only while the
database is shutting down (`failed_compaction_refused_iff`). Otherwise a table that
cannot be read to its end is merged as far as it goes, and deleted
(`unreadable_input_deleted`).
-/

namespace Lpad

/-! ## When the result is refused -/

/-- An input iterator stopped with an error, or a call of `SU_flush_data` returned
one. -/
def CompactionJob.Failed (job : CompactionJob) (work : Work) : Prop :=
  (∃ input ∈ job.inputs, input.status ≠ .ok) ∨ ∃ o ∈ work.outcomes, o.status ≠ .ok

/-- `DoCompactionWork` returns an error, `InstallCompactionResults` is not called and
the version set stays as it was. -/
structure CompactionJob.Refused (job : CompactionJob) (work : Work) : Prop where
  status : work.status ≠ .ok
  edit : work.edit = none
  versions : work.versions = job.versions

/-- The merge has left an output table open, and finishing it fails. -/
def CompactionJob.LastTableFails (job : CompactionJob) (work : Work) : Prop :=
  work.compact.builder.isSome ∧ (work.compact.finishOutputFile job.files).1 ≠ .ok

theorem CompactionState.complete_ok_iff {st : CompactionState} {job : CompactionJob} :
    (st.complete job).1.isOk = true ↔
      job.shuttingDown = false ∧
        (st.builder.isSome → (st.finishOutputFile job.files).1 = .ok) := by
  unfold complete
  cases hsd : job.shuttingDown with
  | true => simp [Status.isOk]
  | false =>
    by_cases hb : st.builder.isSome = true
    · simp [Status.isOk_iff, hb]
    · simp [Status.isOk, hb]

/-- **When the result of a compaction is refused.** Whatever the iterators and the
calls of `SU_flush_data` have returned, only these two conditions matter. -/
theorem CompactionJob.conclude_refused_iff (job : CompactionJob) (g : Globals) (w : Merge) :
    job.Refused (job.conclude g w) ↔
      job.shuttingDown = true ∨ job.LastTableFails (job.conclude g w) := by
  have hcompact := job.conclude_compact g w
  by_cases hok : ((job.flushes g w).2.1.complete job).1.isOk = true
  · -- installed: neither condition holds
    have hedit : (job.conclude g w).edit ≠ none := by
      unfold conclude
      dsimp only
      rw [if_pos hok]
      simp
    obtain ⟨hsd, hlast⟩ := CompactionState.complete_ok_iff.mp hok
    constructor
    · intro href
      exact absurd href.edit hedit
    · rintro (h | ⟨hb, hfail⟩)
      · rw [hsd] at h
        cases h
      · rw [hcompact] at hb hfail
        exact absurd (hlast hb) hfail
  · have hwork : job.conclude g w = ⟨((job.flushes g w).2.1.complete job).1, none, job.versions,
        w, (job.flushes g w).2.1, (job.flushes g w).1, ⟨w.arg, (job.flushes g w).2.2⟩⟩ := by
      unfold conclude
      dsimp only
      rw [if_neg hok]
    constructor
    · intro _
      rw [CompactionState.complete_ok_iff, not_and_or] at hok
      rcases hok with hsd | hlast
      · exact Or.inl (by simpa using hsd)
      · right
        rw [LastTableFails, hcompact]
        exact Classical.not_imp.mp hlast
    · intro _
      rw [Status.isOk_iff] at hok
      rw [hwork]
      exact ⟨hok, rfl, rfl⟩

/-! ## The same inputs with other errors -/

/-- Two file systems that show the same entries in every table. -/
def SameRecords (files files' : Files) : Prop :=
  ∀ f, (files'.table f).records = (files.table f).records

theorem prepareLevel_records {files files' : Files} (h : SameRecords files files') (level : Nat)
    (tables : List FileMetaData) :
    (prepareLevel files' level tables).map Input.records =
      (prepareLevel files level tables).map Input.records := by
  have htables : (tables.map files'.table).map Input.records =
      (tables.map files.table).map Input.records := by
    rw [List.map_map, List.map_map]
    exact List.map_congr_left fun f _ => h f
  unfold prepareLevel
  split
  · rfl
  · split
    · exact htables
    · show [(tables.map files'.table).flatMap Input.records] =
        [(tables.map files.table).flatMap Input.records]
      rw [List.flatMap_def, List.flatMap_def, htables]

/-- The job in another environment. -/
def CompactionJob.withFiles (job : CompactionJob) (files : Files) : CompactionJob :=
  { job with files := files }

theorem CompactionJob.withFiles_records {job : CompactionJob} {files : Files}
    (h : SameRecords job.files files) :
    (job.withFiles files).inputs.map Input.records = job.inputs.map Input.records := by
  show (job.compaction.suPrepareInputs files).map Input.records =
    (job.compaction.suPrepareInputs job.files).map Input.records
  rw [Compaction.suPrepareInputs, Compaction.suPrepareInputs, List.map_append, List.map_append,
    prepareLevel_records h, prepareLevel_records h]

theorem CompactionJob.withFiles_recordCount {job : CompactionJob} {files : Files}
    (h : SameRecords job.files files) :
    (job.withFiles files).recordCount = job.recordCount := by
  have hrec := withFiles_records h
  have hways : (job.withFiles files).nWays = job.nWays := by
    have hlen := congrArg List.length hrec
    rwa [List.length_map, List.length_map] at hlen
  have hiter : (job.withFiles files).iter = job.iter := by
    funext c
    rw [iter, iter, ← List.getElem?_map, ← List.getElem?_map, hrec]
  rw [recordCount, recordCount, hways, hiter]

/-- Every table shows its entries and then a checksum error; everything else works. -/
def Files.unreadable (files : Files) : Files :=
  { files with
    table := fun f => ⟨(files.table f).records, .corruption "block checksum mismatch"⟩
    newWritableFile := fun _ => .ok
    finish := fun _ => .ok
    sync := fun _ => .ok
    close := fun _ => .ok
    newIterator := fun _ => .ok }

theorem CompactionState.finishOutputFile_unreadable (files : Files) (st : CompactionState) :
    (st.finishOutputFile files.unreadable).1 = .ok := by
  unfold finishOutputFile Files.unreadable
  cases st.builder with
  | none => rfl
  | some entries => simp [Status.isOk]

theorem prepareLevel_unreadable (files : Files) (level : Nat) {tables : List FileMetaData}
    (h : tables ≠ []) :
    ∃ input ∈ prepareLevel files.unreadable level tables, input.status ≠ .ok := by
  obtain ⟨f, rest, rfl⟩ := List.exists_cons_of_ne_nil h
  unfold prepareLevel
  simp only [List.isEmpty_cons, Bool.false_eq_true, if_false]
  split
  · exact ⟨files.unreadable.table f, List.mem_cons_self, by simp [Files.unreadable]⟩
  · refine ⟨_, List.mem_cons_self, ?_⟩
    simp [Input.concat, Files.unreadable, Status.isOk]

/-- **When a failed compaction is never installed.** For any compaction and any entries
its inputs deliver: in each run the result is refused exactly when the database is
shutting down or the last open table cannot be finished; hence all errors of the input
iterators and of `SU_flush_data` lead to a refusal if and only if the database is
shutting down when the merge is over. -/
theorem failed_compaction_refused_iff {job : CompactionJob}
    (hinputs : job.compaction.inputs0 ≠ []) {g : Globals} (hidle : g.Idle) {fuel : Nat}
    (hfuel : job.recordCount < fuel) :
    (∀ files, SameRecords job.files files → ∃ work,
      doCompactionWork fuel g (job.withFiles files) = some work ∧
      ((job.withFiles files).Refused work ↔
        job.shuttingDown = true ∨ (job.withFiles files).LastTableFails work)) ∧
    ((∀ files, SameRecords job.files files → ∀ work,
      doCompactionWork fuel g (job.withFiles files) = some work →
      (job.withFiles files).Failed work → (job.withFiles files).Refused work) ↔
        job.shuttingDown = true) := by
  have hrun : ∀ files, SameRecords job.files files → ∃ w,
      doCompactionWork fuel g (job.withFiles files) =
        some ((job.withFiles files).conclude g w) := by
    intro files hsame
    have hf : (job.withFiles files).recordCount < fuel := by
      rwa [CompactionJob.withFiles_recordCount hsame]
    obtain ⟨w, -, hwork, -⟩ := doCompactionWork_spec hidle.clean hf
    exact ⟨w, hwork⟩
  refine ⟨?_, ?_, ?_⟩
  · intro files hsame
    obtain ⟨w, hwork⟩ := hrun files hsame
    exact ⟨_, hwork, CompactionJob.conclude_refused_iff _ g w⟩
  · intro hall
    -- every input fails, and nothing else does
    have hsame : SameRecords job.files job.files.unreadable := fun _ => rfl
    obtain ⟨w, hwork⟩ := hrun _ hsame
    obtain ⟨input, hinput, hstatus⟩ :=
      prepareLevel_unreadable job.files job.compaction.level hinputs
    have hfailed : (job.withFiles job.files.unreadable).Failed
        ((job.withFiles job.files.unreadable).conclude g w) :=
      Or.inl ⟨input, List.mem_append_left _ hinput, hstatus⟩
    have href := hall _ hsame _ hwork hfailed
    rcases (CompactionJob.conclude_refused_iff _ g w).mp href with hsd | ⟨-, hfail⟩
    · exact hsd
    · exact absurd (CompactionState.finishOutputFile_unreadable _ _) hfail
  · intro hsd files hsame work hwork _
    obtain ⟨w, hwork'⟩ := hrun files hsame
    obtain rfl := Option.some.inj (hwork'.symm.trans hwork)
    exact (CompactionJob.conclude_refused_iff _ g w).mpr (Or.inl hsd)

/-! ## A table that cannot be read to its end -/

/-- A level-0 table with the entries of two user keys. -/
def tornTable : FileMetaData where
  number := 7
  fileSize := 4096
  smallest := appendInternalKey ⟨List.replicate 16 97, 1, .kTypeValue⟩
  largest := appendInternalKey ⟨List.replicate 16 98, 2, .kTypeValue⟩

/-- The version set of a database with this one table. -/
def tornVersions : VersionSet :=
  { VersionSet.init with
    current := ⟨fun level => if level = 0 then [tornTable] else [], none⟩
    nextFileNumber := 8
    lastSequence := 2 }

/-- A manual compaction of everything, in which the second block of the table does not
pass its checksum. -/
def tornJob : CompactionJob :=
  manualJob tornVersions 0 fun _ =>
    ⟨[⟨tornTable.smallest, [10]⟩], .corruption "block checksum mismatch"⟩

theorem failed_compaction_refused_iff_torn :
    tornJob.compaction.inputs0 = [tornTable] ∧
    ¬ ∀ files, SameRecords tornJob.files files → ∀ work,
      doCompactionWork 2 Globals.init (tornJob.withFiles files) = some work →
      (tornJob.withFiles files).Failed work → (tornJob.withFiles files).Refused work := by
  have hinputs : tornJob.compaction.inputs0 = [tornTable] := by decide
  refine ⟨hinputs, fun hall => ?_⟩
  have hne : tornJob.compaction.inputs0 ≠ [] := by
    rw [hinputs]
    simp
  have hiff := (failed_compaction_refused_iff hne Globals.init_idle
    (by decide : tornJob.recordCount < 2)).2
  exact absurd (hiff.mp hall) (by decide)

/-- The read error ends the merge of the table after its first entry. The compaction
reports success and the table is deleted, with an entry that is nowhere else. -/
theorem unreadable_input_deleted :
    (∃ input ∈ tornJob.inputs, input.status ≠ .ok) ∧
    ∃ work, doCompactionWork 2 Globals.init tornJob = some work ∧ tornJob.Failed work ∧
      work.status = .ok ∧ work.edit ≠ none ∧
      tornJob.versions.current.files 0 = [tornTable] ∧ work.versions.current.files 0 = [] ∧
      work.compact.added = [⟨tornTable.smallest, [10]⟩] := by
  have hfail : ∃ input ∈ tornJob.inputs, input.status ≠ .ok := by decide
  have hrun : ((doCompactionWork 2 Globals.init tornJob).map fun work =>
      (work.status, work.edit.isSome, work.versions.current.files 0, work.compact.added)) =
      some (.ok, true, [], [⟨tornTable.smallest, [10]⟩]) := by decide +kernel
  obtain ⟨work, hwork, hfields⟩ := Option.map_eq_some_iff.mp hrun
  simp only [Prod.mk.injEq] at hfields
  obtain ⟨hstatus, hedit, hfiles, hadded⟩ := hfields
  refine ⟨hfail, work, hwork, Or.inl hfail, hstatus, ?_, rfl, hfiles, hadded⟩
  intro hnone
  rw [hnone] at hedit
  cases hedit

end Lpad
