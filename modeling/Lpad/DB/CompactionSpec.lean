import Lpad.DB.CompactionWork
import Lpad.Enclave.MergeSpec

/-!
# What a compaction does with the merged records

The facts about `DoCompactionWork` that hold on every path: it returns, the records
it flushes are those the enclave merge drew from the channels, and it leaves a clean
`g_arg_t` to the next compaction. On the output side `flushAll_added` says that the
tables got exactly the records whose fate is `added`, in the order of the calls.
-/

namespace Lpad

/-! ## The call as a whole -/

/-- The number of records in all channels of a compaction. -/
def CompactionJob.recordCount (job : CompactionJob) : Nat :=
  ((List.range job.nWays).flatMap job.iter).length

section Conclude

variable (job : CompactionJob) (g : Globals) (w : Merge)

theorem CompactionJob.conclude_merge : (job.conclude g w).merge = w := by
  unfold conclude
  dsimp only
  split <;> rfl

theorem CompactionJob.conclude_outcomes :
    (job.conclude g w).outcomes = (job.flushes g w).1 := by
  unfold conclude
  dsimp only
  split <;> rfl

theorem CompactionJob.conclude_compact :
    (job.conclude g w).compact = (job.flushes g w).2.1 := by
  unfold conclude
  dsimp only
  split <;> rfl

theorem CompactionJob.conclude_globals :
    (job.conclude g w).globals = ⟨w.arg, (job.flushes g w).2.2⟩ := by
  unfold conclude
  dsimp only
  split <;> rfl

end Conclude

/-- **`DoCompactionWork` returns**, from any clean `g_arg_t`, and flushes what the
merge drew. -/
theorem doCompactionWork_spec {g : Globals} (hclean : g.arg.Clean) {job : CompactionJob}
    {fuel : Nat} (hfuel : job.recordCount < fuel) :
    ∃ w out, doCompactionWork fuel g job = some (job.conclude g w) ∧
      Draws job.nWays job.iter w.nexts out ∧
      List.Forall₂ Preserved out w.flushed.flatten ∧ w.arg.Clean ∧
      (Comparable job.nWays job.iter → Greedy Record.prefix24 job.nWays job.iter w.nexts) := by
  obtain ⟨w, out, hrun, hdraws, hitems, hclean', hgreedy⟩ := onecEnclCompact_spec hclean hfuel
  refine ⟨w, out, ?_, hdraws, hitems, hclean', hgreedy⟩
  rw [doCompactionWork, hrun, Option.map_some]

/-- A file system on which everything works, with the given input tables. -/
def Files.working (table : FileMetaData → Input) : Files where
  table := table
  newFileNumber := fun i => 100 + i
  uninitialized := fun _ => 0
  newWritableFile := fun _ => .ok
  fileSize := fun _ entries => entries.length
  finish := fun _ => .ok
  finishedSize := fun _ entries => entries.length + 1
  sync := fun _ => .ok
  close := fun _ => .ok
  newIterator := fun _ => .ok

/-- A manual compaction of a whole level with these input tables, while nothing else
goes wrong and no snapshot is held. -/
def manualJob (vs : VersionSet) (level : Nat) (table : FileMetaData → Input) :
    CompactionJob where
  compaction := ((vs.compactRange level none none).map Prod.fst).getD
    (Compaction.new level vs.current [])
  smallestSnapshot := vs.lastSequence
  files := Files.working table
  shuttingDown := false
  versions := vs
  manifest := .ok

/-! ## Output tables -/

theorem updateLast_append (f : Output → Output) (last : Output) :
    ∀ outs : List Output, updateLast f (outs ++ [last]) = outs ++ [f last]
  | [] => rfl
  | [_] => rfl
  | _ :: b :: outs => by
    have ih := updateLast_append f last (b :: outs)
    simp only [List.cons_append] at ih ⊢
    rw [updateLast]
    · rw [ih]
    · simp

/-- While a builder is open, the last output stands for it and has no entries yet. -/
def CompactionState.Building (st : CompactionState) : Prop :=
  st.builder.isSome → ∃ outs last, st.outputs = outs ++ [last] ∧ last.entries = []

theorem CompactionState.building_of_none {st : CompactionState} (h : st.builder = none) :
    st.Building := by
  intro hs
  rw [h] at hs
  cases hs

/-- Finishing a table closes the builder and moves its entries to the output. -/
theorem CompactionState.finishOutputFile_added (files : Files) {st : CompactionState}
    (h : st.Building) :
    (st.finishOutputFile files).2.builder = none ∧
      (st.finishOutputFile files).2.added = st.added := by
  unfold finishOutputFile
  cases hb : st.builder with
  | none => exact ⟨hb, rfl⟩
  | some entries =>
    obtain ⟨outs, last, houts, hlast⟩ := h (by rw [hb]; rfl)
    refine ⟨rfl, ?_⟩
    simp [added, houts, hb, updateLast_append, hlast]

theorem CompactionState.stopBefore_added (files : Files) {st : CompactionState} (key : Bytes)
    (h : st.Building) :
    (st.stopBefore files key).2.Building ∧ (st.stopBefore files key).2.added = st.added := by
  unfold stopBefore
  dsimp only
  split
  · have h' : CompactionState.Building
        { st with compaction := (st.compaction.shouldStopBefore key).2 } := h
    have hfin := finishOutputFile_added files h'
    exact ⟨building_of_none hfin.1, hfin.2⟩
  · exact ⟨h, rfl⟩

theorem CompactionState.ensureOpen_added (files : Files) {st : CompactionState}
    (h : st.Building) :
    (st.ensureOpen files).2.Building ∧ (st.ensureOpen files).2.added = st.added ∧
      ((st.ensureOpen files).1.isOk = true → (st.ensureOpen files).2.builder.isSome) := by
  unfold ensureOpen
  cases hb : st.builder with
  | some entries =>
    refine ⟨h, rfl, fun _ => ?_⟩
    show st.builder.isSome
    rw [hb]
    rfl
  | none =>
    simp only [Option.isNone_none, if_true]
    unfold openOutputFile
    dsimp only
    split
    · refine ⟨fun _ => ⟨st.outputs, _, rfl, rfl⟩, ?_, fun _ => rfl⟩
      simp [added, hb]
    · rename_i hfail
      refine ⟨building_of_none hb, ?_, fun hok => absurd hok hfail⟩
      simp [added, hb]

theorem CompactionState.add_added {st : CompactionState} {r : Record} (h : st.Building)
    (hopen : st.builder.isSome) :
    (st.add (st.builder.getD []) r).Building ∧
      (st.add (st.builder.getD []) r).added = st.added ++ [r] := by
  obtain ⟨outs, last, houts, hlast⟩ := h hopen
  obtain ⟨entries, hb⟩ := Option.isSome_iff_exists.mp hopen
  constructor
  · have hout : (st.add (st.builder.getD []) r).outputs = outs ++ [{ last with
        smallest := if st.builder.getD [] = [] then r.key else last.smallest
        largest := r.key }] := by
      rw [add, houts, updateLast_append]
    exact fun _ => ⟨outs, _, hout, hlast⟩
  · simp [add, added, houts, hb, updateLast_append, hlast]

theorem CompactionState.closeIfBig_added (files : Files) {st : CompactionState}
    (h : st.Building) :
    (st.closeIfBig files).2.Building ∧ (st.closeIfBig files).2.added = st.added := by
  unfold closeIfBig
  split
  · have hfin := finishOutputFile_added files h
    exact ⟨building_of_none hfin.1, hfin.2⟩
  · exact ⟨h, rfl⟩

theorem CompactionState.writeRecord_added (files : Files) {st : CompactionState} (r : Record)
    (h : st.Building) :
    (st.writeRecord files r).2.2.Building ∧
      (st.writeRecord files r).2.2.added =
        st.added ++ if (st.writeRecord files r).2.1 = .added then [r] else [] := by
  obtain ⟨hbuild, hsame, hopen⟩ := ensureOpen_added files h
  unfold writeRecord
  dsimp only
  split
  · rename_i hok
    obtain ⟨hbuild', hadd⟩ := add_added (r := r) hbuild (hopen hok)
    obtain ⟨hbuild'', hclose⟩ := closeIfBig_added files hbuild'
    refine ⟨hbuild'', ?_⟩
    rw [hclose, hadd, hsame]
    rfl
  · refine ⟨hbuild, ?_⟩
    rw [hsame]
    simp

/-- **One call of `SU_flush_data`** gives its record to `TableBuilder::Add` exactly when
its fate is `added`. -/
theorem CompactionState.suFlushData_added (files : Files) {st : CompactionState}
    (d : DropState) (r : Record) (h : st.Building) :
    (st.suFlushData files d r).compact.Building ∧
      (st.suFlushData files d r).compact.added =
        st.added ++ if (st.suFlushData files d r).fate = .added then [r] else [] := by
  obtain ⟨hbuild, hsame⟩ := stopBefore_added files r.key h
  unfold suFlushData
  dsimp only
  split
  · split
    · refine ⟨hbuild, ?_⟩
      rw [← hsame]
      simp [added]
    · rw [← hsame]
      exact writeRecord_added files r hbuild
  · refine ⟨hbuild, ?_⟩
    rw [← hsame]
    simp

/-- The records of the calls whose fate is `added`. -/
def addedRecords (outcomes : List Outcome) : List Record :=
  (outcomes.filter fun o => decide (o.fate = .added)).map Outcome.record

theorem CompactionState.flushAll_added {files : Files} : ∀ (records : List Record)
    {st : CompactionState} {d : DropState}, st.Building →
    (flushAll files records st d).2.1.added =
      st.added ++ addedRecords (flushAll files records st d).1
  | [], _, _, _ => by simp [flushAll, addedRecords]
  | r :: rest, st, d, h => by
    obtain ⟨hbuild, hadd⟩ := suFlushData_added files d r h
    rw [flushAll]
    dsimp only
    rw [flushAll_added rest hbuild, hadd, List.append_assoc]
    congr 1
    by_cases hfate : (st.suFlushData files d r).fate = .added
    · simp [addedRecords, hfate]
    · simp [addedRecords, hfate]

theorem CompactionState.flushAll_records {files : Files} : ∀ (records : List Record)
    (st : CompactionState) (d : DropState),
    (flushAll files records st d).1.map Outcome.record = records
  | [], _, _ => rfl
  | r :: rest, st, d => by
    rw [flushAll]
    dsimp only
    rw [List.map_cons, flushAll_records rest]

/-- What the tables of a compaction got. -/
theorem CompactionJob.conclude_added (job : CompactionJob) (g : Globals) (w : Merge) :
    (job.conclude g w).compact.added = addedRecords (job.conclude g w).outcomes := by
  have hnew : (CompactionState.new job.compaction job.smallestSnapshot).Building :=
    CompactionState.building_of_none rfl
  rw [conclude_compact, conclude_outcomes, flushes, CompactionState.flushAll_added _ hnew]
  simp [CompactionState.new, CompactionState.added]

/-! ## Without file errors -/

/-- Every operation on an output file succeeds. -/
structure Files.Works (files : Files) : Prop where
  newWritableFile : ∀ i, files.newWritableFile i = .ok
  finish : ∀ i, files.finish i = .ok
  sync : ∀ i, files.sync i = .ok
  close : ∀ i, files.close i = .ok
  newIterator : ∀ i, files.newIterator i = .ok

theorem Files.working_works (table : FileMetaData → Input) : (Files.working table).Works :=
  ⟨fun _ => rfl, fun _ => rfl, fun _ => rfl, fun _ => rfl, fun _ => rfl⟩

section Works

variable {files : Files} (h : files.Works) (st : CompactionState)

include h

theorem Files.Works.finishOutputFile : (st.finishOutputFile files).1 = .ok := by
  unfold CompactionState.finishOutputFile
  cases st.builder with
  | none => rfl
  | some entries =>
    dsimp only
    rw [h.finish, h.sync, h.close, h.newIterator]
    simp [Status.isOk]

theorem Files.Works.stopBefore (key : Bytes) : (st.stopBefore files key).1 = .ok := by
  unfold CompactionState.stopBefore
  dsimp only
  split
  · exact h.finishOutputFile _
  · rfl

theorem Files.Works.ensureOpen : (st.ensureOpen files).1 = .ok := by
  unfold CompactionState.ensureOpen CompactionState.openOutputFile
  split
  · exact h.newWritableFile _
  · rfl

theorem Files.Works.closeIfBig : (st.closeIfBig files).1 = .ok := by
  unfold CompactionState.closeIfBig
  split
  · exact h.finishOutputFile _
  · rfl

theorem Files.Works.writeRecord (r : Record) :
    (st.writeRecord files r).1 = .ok ∧ (st.writeRecord files r).2.1 = .added := by
  unfold CompactionState.writeRecord
  dsimp only
  rw [h.ensureOpen]
  exact ⟨h.closeIfBig _, rfl⟩

theorem Files.Works.suFlushData (d : DropState) (r : Record) :
    (st.suFlushData files d r).status = .ok := by
  unfold CompactionState.suFlushData
  dsimp only
  rw [h.stopBefore]
  simp only [Status.isOk, if_true]
  split
  · rfl
  · exact (h.writeRecord _ r).1

end Works

/-! ## The drop state -/

/-- A drop state remembers a sequence number that a key can carry. -/
def DropState.Bounded (d : DropState) : Prop := d.lastSequenceForKey ≤ kMaxSequenceNumber

theorem parseInternalKey_sequence_le {key : Bytes} {p : ParsedInternalKey}
    (h : parseInternalKey key = some p) : p.sequence ≤ kMaxSequenceNumber := by
  obtain ⟨-, hseq⟩ := parseInternalKey_eq_some h
  have hlen : (key.drop (key.length - 8)).length ≤ 8 := by
    rw [List.length_drop]
    omega
  have hlt : trailer key < 256 ^ 8 :=
    lt_of_lt_of_le (leNat_lt _) (Nat.pow_le_pow_right (by decide) hlen)
  rw [hseq, kMaxSequenceNumber]
  omega

theorem dropRule_bounded (d : DropState) (c : Compaction) (smallestSnapshot : Nat)
    (key : Bytes) : (dropRule d c smallestSnapshot key).2.1.Bounded := by
  unfold dropRule
  cases hp : parseInternalKey key with
  | none => exact Nat.le_refl _
  | some p =>
    have hle := parseInternalKey_sequence_le hp
    dsimp only
    split
    · exact hle
    · split <;> exact hle

theorem CompactionState.suFlushData_bounded {files : Files} {st : CompactionState}
    {d : DropState} {r : Record} (h : d.Bounded) :
    (st.suFlushData files d r).drop.Bounded := by
  unfold suFlushData
  dsimp only
  split
  · split <;> exact dropRule_bounded _ _ _ _
  · exact h

theorem CompactionState.flushAll_bounded {files : Files} : ∀ (records : List Record)
    {st : CompactionState} {d : DropState}, d.Bounded →
    (flushAll files records st d).2.2.Bounded
  | [], _, _, h => h
  | _ :: rest, _, _, h => flushAll_bounded rest (suFlushData_bounded h)

/-! ## Sequences of compactions -/

/-- What the globals are like between compactions: the buffers are clean, the rest
is whatever the last compaction left. -/
structure Globals.Idle (g : Globals) : Prop where
  clean : g.arg.Clean
  bounded : g.drop.Bounded

theorem Globals.init_idle : Globals.init.Idle := ⟨GArg.init_clean, Nat.le_refl _⟩

theorem CompactionJob.conclude_idle {g : Globals} (h : g.Idle) {job : CompactionJob} {w : Merge}
    (hw : w.arg.Clean) : (job.conclude g w).globals.Idle := by
  rw [conclude_globals]
  exact ⟨hw, CompactionState.flushAll_bounded _ h.bounded⟩

theorem runJobs_spec {fuel : Nat} : ∀ (jobs : List CompactionJob) {g : Globals}, g.Idle →
    (∀ job ∈ jobs, job.recordCount < fuel) → ∃ g', runJobs fuel g jobs = some g' ∧ g'.Idle
  | [], g, h, _ => ⟨g, rfl, h⟩
  | job :: jobs, g, h, hfuel => by
    obtain ⟨w, -, hwork, -, -, hclean, -⟩ :=
      doCompactionWork_spec h.clean (hfuel job List.mem_cons_self)
    obtain ⟨g', hrest, hidle'⟩ := runJobs_spec jobs (CompactionJob.conclude_idle h hclean)
      fun j hj => hfuel j (List.mem_cons_of_mem _ hj)
    refine ⟨g', ?_, hidle'⟩
    rw [runJobs, hwork, Option.bind_some, hrest]

end Lpad
