import Lpad.DB.AgeInvariant
import Lpad.DB.DropReads

/-!
# Live snapshots and compactions

`GetSnapshot` appends the last sequence number to the list of live snapshots, and
`ReleaseSnapshot` takes an element out. The list stays sorted, so that its first element,
which a compaction takes as `smallest_snapshot`, is the least (`snapshots_sorted`).
Together with the drop rule: no compaction changes what a live snapshot or the latest
state reads.
-/

namespace Lpad

/-! ## The list of snapshots -/

section Snapshots

variable (db : Database)

theorem Database.recordBackgroundError_snapshots (s : Status) :
    (db.recordBackgroundError s).snapshots = db.snapshots := by
  unfold recordBackgroundError
  split <;> rfl

theorem Database.deleteObsoleteFiles_snapshots :
    db.deleteObsoleteFiles.snapshots = db.snapshots := by
  unfold deleteObsoleteFiles
  split <;> rfl

theorem Database.logEdit_snapshots (edit : VersionEdit) (io : ManifestIO) :
    (db.logEdit edit io).snapshots = db.snapshots := by
  unfold logEdit
  split <;> rfl

theorem Database.compactMemTable_snapshots (imm : MemTable) (build : TableIO)
    (shuttingDown : Bool) (manifest : ManifestIO) :
    (db.compactMemTable imm build shuttingDown manifest).snapshots = db.snapshots := by
  unfold compactMemTable
  dsimp only
  generalize writeLevel0Table db.versions imm VersionEdit.clear (some db.versions.current) build = t
  generalize (if t.status.isOk = true ∧ shuttingDown = true then
    Status.ioError "Deleting DB during memtable compaction" else t.status) = s
  split
  · split
    · rw [deleteObsoleteFiles_snapshots]
      exact logEdit_snapshots _ _ _
    · rw [recordBackgroundError_snapshots]
      exact logEdit_snapshots _ _ _
  · rw [recordBackgroundError_snapshots]
    rfl

theorem Database.trivialMove_snapshots (c : Compaction) (f : FileMetaData)
    (manifest : ManifestIO) : (db.trivialMove c f manifest).snapshots = db.snapshots := by
  unfold trivialMove
  dsimp only
  split
  · exact logEdit_snapshots _ _ _
  · rw [recordBackgroundError_snapshots]
    exact logEdit_snapshots _ _ _

theorem Database.backgroundCompaction_snapshots (manifest : ManifestIO) :
    (db.backgroundCompaction manifest).snapshots = db.snapshots := by
  unfold backgroundCompaction
  split
  · unfold manualCompaction
    split <;> rfl
  · unfold automaticCompaction
    cases db.versions.pickCompaction with
    | none => rfl
    | some p =>
      show (Database.pickedCompaction _ p.1 manifest).snapshots = _
      unfold pickedCompaction
      split
      · split
        · exact trivialMove_snapshots _ _ _ _
        · rfl
      · rfl

theorem Database.finishCompaction_snapshots (r : RunningCompaction) (job : CompactionJob)
    (manifest : ManifestIO) (work : Work) :
    (db.finishCompaction r job manifest work).snapshots = db.snapshots := by
  have hlog : ∀ db : Database, (db.logWork work manifest).snapshots = db.snapshots := by
    intro db
    unfold logWork
    cases work.edit with
    | none => rfl
    | some edit => exact logEdit_snapshots _ _ _
  unfold finishCompaction
  dsimp only
  rw [deleteObsoleteFiles_snapshots]
  split
  · exact hlog _
  · rw [recordBackgroundError_snapshots]
    exact hlog _

theorem Database.reopen_snapshots {options : Options} {io : OpenIO} {db' : Database}
    (h : db.reopen options io = some db') : db'.snapshots = [] := by
  unfold reopen at h
  split at h
  · cases h
  · dsimp only at h
    split at h
    · obtain rfl := Option.some.inj h
      exact deleteObsoleteFiles_snapshots _
    · cases h

end Snapshots

/-- A step adds the latest state to the snapshots, or takes some of them out. -/
theorem Database.step_snapshots {options : Options} {db db' : Database} {event : Event}
    (h : db.step options event = some db') :
    db'.snapshots.Sublist db.snapshots ∨
      db' = { db with snapshots := db.snapshots ++ [db.versions.lastSequence] } := by
  cases Database.step_stepped h with
  | getSnapshot => exact Or.inr rfl
  | releaseSnapshot => exact Or.inl (List.eraseIdx_sublist _ _)
  | write | stay _ | compactRange _ _ => exact Or.inl (List.Sublist.refl _)
  | switch _ =>
    left
    unfold switchMemTable
    split <;> exact List.Sublist.refl _
  | seek _ _ =>
    left
    unfold updateStats
    dsimp only
    split <;> exact List.Sublist.refl _
  | compactMemTable _ =>
    left
    rw [compactMemTable_snapshots]
  | background _ _ =>
    left
    rw [backgroundCompaction_snapshots]
  | finish _ _ _ =>
    left
    rw [finishCompaction_snapshots]
  | reopen opened =>
    left
    rw [reopen_snapshots db opened]
    exact List.nil_sublist _

/-- Sequence numbers are never given back. -/
theorem Database.Effect.lastSequence_le {options : Options} {db : Database} {event : Event}
    {d : Contents} (h : db.Effect options event d) (hnumbers : db.Numbers event) :
    db.versions.lastSequence ≤ d.lastSequence := by
  cases h with
  | @write updates sync io =>
    obtain ⟨ops, hops, hmax⟩ := hnumbers
    show _ ≤ (db.writeState.commit updates sync io).1.lastSequence
    rw [(db.writeState.commit_cases hops hmax sync io).1]
    exact Nat.le_add_right _ _
  | rotate _ | move _ _ _ _ _ | start _ _ _ _ => exact le_rfl
  | idle _ memory _ _ => exact le_of_eq memory.lastSequence.symm
  | discard _ _ _ _ memory => exact le_of_eq memory.lastSequence.symm
  | flush _ _ _ _ _ _ _ _ memory => exact le_of_eq memory.lastSequence.symm
  | install _ _ _ _ _ memory _ _ _ _ => exact le_of_eq memory.lastSequence.symm

/-- The snapshots are sorted, and none is ahead of the last sequence number. -/
structure Database.SnapshotsSorted (db : Database) : Prop where
  sorted : db.snapshots.Pairwise (· ≤ ·)
  le : ∀ s ∈ db.snapshots, s ≤ db.versions.lastSequence

theorem Database.SnapshotsSorted.step {options : Options} {db db' : Database} {event : Event}
    (h : db.SnapshotsSorted) (hnumbers : db.Numbers event)
    (hstep : db.step options event = some db') : db'.SnapshotsSorted := by
  rcases Database.step_snapshots hstep with hsub | rfl
  · refine ⟨h.sorted.sublist hsub, fun s hs => ?_⟩
    by_cases hopen : ∃ io, event = .reopen io
    · obtain ⟨io, rfl⟩ := hopen
      rw [Database.reopen_snapshots db hstep] at hs
      cases hs
    · exact le_trans (h.le s (hsub.subset hs))
        ((Database.step_effect hstep fun io heq => hopen ⟨io, heq⟩).lastSequence_le hnumbers)
  · constructor
    · show (db.snapshots ++ [db.versions.lastSequence]).Pairwise (· ≤ ·)
      rw [List.pairwise_append]
      refine ⟨h.sorted, List.pairwise_singleton _ _, fun s hs t ht => ?_⟩
      rw [List.mem_singleton.mp ht]
      exact h.le s hs
    · intro s hs
      rcases List.mem_append.mp hs with hs | hs
      · exact h.le s hs
      · exact le_of_eq (List.mem_singleton.mp hs)

/-- **The smallest snapshot** that a compaction starts with is not after any live
snapshot, nor after the latest state. -/
theorem Database.smallestSnapshot_le {db : Database} (h : db.SnapshotsSorted) {s : Nat}
    (hs : s ∈ db.snapshots ∨ s = db.versions.lastSequence) : db.smallestSnapshot ≤ s := by
  unfold smallestSnapshot
  cases hsnapshots : db.snapshots with
  | nil =>
    rcases hs with hs | rfl
    · rw [hsnapshots] at hs
      cases hs
    · exact le_rfl
  | cons oldest rest =>
    have holdest : oldest ∈ db.snapshots := by
      rw [hsnapshots]
      exact List.mem_cons_self
    show oldest ≤ s
    rcases hs with hs | rfl
    · have hsorted := h.sorted
      rw [hsnapshots] at hs hsorted
      rcases List.mem_cons.mp hs with rfl | hs
      · exact le_rfl
      · exact (List.pairwise_cons.mp hsorted).1 s hs
    · exact h.le oldest holdest

theorem Database.snapshots_sorted {options : Options} {events : List Event} {db : Database}
    (hrun : runs (Database.step options) (Database.init options) events = some db)
    (hnumbers : RunMeets (Database.step options) Database.Numbers (Database.init options) events) :
    db.SnapshotsSorted := by
  refine RunMeets.invariant ?_ ?_ hnumbers hrun
  · intro db event db' h hnumbers hstep
    exact h.step hnumbers hstep
  · constructor
    · exact List.Pairwise.nil
    · intro s hs
      cases hs

/-! ## Reads -/

/-- **Compactions preserve reads.** Records in the order of the comparator go to
`SU_flush_data` one by one, from the initial drop state and with any compaction. Every
read at the smallest snapshot or later is preserved. Without file errors this is about
all records and about what the tables get. If the smallest snapshot is the one that a
database hands to its compaction, every live snapshot and the latest state are among
these reads. -/
theorem compaction_preserves_reads (files : Files) (st : CompactionState)
    (hsnapshot : st.smallestSnapshot < kMaxSequenceNumber) {records : List Record}
    (horder : InOrder records) (hwf : ∀ r ∈ records, WellFormed r.key) :
    let outcomes := (CompactionState.flushAll files records st DropState.init).1
    (∀ u s, st.smallestSnapshot ≤ s →
      st.PreservesReads (reachedRecords outcomes) (keptRecords outcomes) u s) ∧
    (files.Works → reachedRecords outcomes = records ∧
      keptRecords outcomes = addedRecords outcomes) ∧
    (∀ options events db, runs (Database.step options) (Database.init options) events = some db →
      RunMeets (Database.step options) Database.Numbers (Database.init options) events →
      st.smallestSnapshot = db.smallestSnapshot →
      ∀ u s, s ∈ db.snapshots ∨ s = db.versions.lastSequence →
        st.PreservesReads (reachedRecords outcomes) (keptRecords outcomes) u s) := by
  intro outcomes
  have hreads : ∀ u s, st.smallestSnapshot ≤ s →
      st.PreservesReads (reachedRecords outcomes) (keptRecords outcomes) u s :=
    fun u s hs => CompactionState.flushAll_preservesReads files st hsnapshot horder hwf u hs
  refine ⟨hreads, fun h => h.fates records st _, ?_⟩
  intro options events db hrun hnumbers heq u s hs
  apply hreads u s
  rw [heq]
  exact Database.smallestSnapshot_le (Database.snapshots_sorted hrun hnumbers) hs

/-- Three entries of one user key, two of them below the smallest snapshot. -/
def threeEntries : List Record :=
  [⟨appendInternalKey ⟨List.replicate 16 107, 5, .kTypeValue⟩, [5]⟩,
    ⟨appendInternalKey ⟨List.replicate 16 107, 3, .kTypeDeletion⟩, []⟩,
    ⟨appendInternalKey ⟨List.replicate 16 107, 2, .kTypeValue⟩, [2]⟩]

theorem compaction_preserves_reads_threeEntries :
    let files := Files.working fun _ => ⟨[], .ok⟩
    let st := CompactionState.new (Compaction.new 0 Version.empty []) 4
    let outcomes := (CompactionState.flushAll files threeEntries st DropState.init).1
    outcomes.map Outcome.fate = [.added, .dropped, .dropped] ∧
    ∀ u s, 4 ≤ s → st.PreservesReads threeEntries (addedRecords outcomes) u s := by
  intro files st outcomes
  have hwf : ∀ r ∈ threeEntries, WellFormed r.key := by
    intro r hr
    rcases List.mem_cons.mp hr with rfl | hr
    · exact ⟨_, by decide, rfl⟩
    · rcases List.mem_cons.mp hr with rfl | hr
      · exact ⟨_, by decide, rfl⟩
      · rw [List.mem_singleton.mp hr]
        exact ⟨_, by decide, rfl⟩
  have hreads := compaction_preserves_reads files st (by decide) (by decide) hwf
  obtain ⟨hall, hadded⟩ := hreads.2.1 (Files.working_works _)
  refine ⟨by decide +kernel, fun u s hs => ?_⟩
  have h := hreads.1 u s hs
  rwa [hall, hadded] at h

end Lpad
