import Lpad.DB.ObsoleteFiles

/-!
# No needed file is deleted

`Directory.Needed` says what a file is needed for, in terms of who uses it and not of what
`DeleteObsoleteFiles` looks at. Three invariants connect the two. The counts of the
versions are the references that are out, so a version in use is on the list. The
outputs of a running compaction stay in `pending_outputs_`, also while a flush from
within the compaction takes a number and gives it back. The log number of the version
set lies below the logs of both memtables, because no log is switched while there is an
immutable memtable.

A table that was flushed is neither pending nor in a version while its edit is on the way
to the manifest. It survives because the one thread that could make a call is busy
writing that edit.
-/

namespace Lpad

/-! ## Who needs a file -/

/-- The references the background thread holds besides that of a running compaction. -/
def Stage.handles : Stage → List (Handle Levels)
  | .building _ base => [base]
  | .moving _ _ input => [input]
  | _ => []

/-- The tables built, or being built, for an edit on its way. -/
def Stage.tables : Stage → List Nat
  | .building number _ => [number]
  | .flushing edit _ => edit.newFiles.map fun n => n.2.number
  | .installing edit _ => edit.newFiles.map fun n => n.2.number
  | .moving edit _ _ => edit.newFiles.map fun n => n.2.number
  | _ => []

/-- The number of the table that is being built. -/
def Stage.builds : Stage → Option Nat
  | .building number _ => some number
  | _ => none

namespace Directory

/-- All references to versions. -/
def handles (d : Directory) : List (Handle Levels) :=
  d.current :: (d.stage.handles ++ (d.running.toList.map OpenCompaction.input ++ d.readers))

inductive Needed (d : Directory) : FileName → Prop where
  /-- the tables of a version that is current or that somebody holds -/
  | version {h : Handle Levels} (held : h ∈ d.handles) {level : Nat} (level_lt : level < kNumLevels)
      {f : FileMetaData} (file : f ∈ h.value level) : Needed d (.table f.number)
  | pending {number : Nat} (file : number ∈ d.pendingOutputs) : Needed d (.table number)
  /-- the tables for an edit that the background thread is about to apply -/
  | edit {number : Nat} (file : number ∈ d.stage.tables) : Needed d (.table number)
  /-- the outputs of a compaction, which its edit will list -/
  | output {r : OpenCompaction} (running : d.running = some r) {number : Nat}
      (file : number ∈ r.numbers) : Needed d (.table number)
  | mem {e : LoggedRecord} (entry : e ∈ d.mem) : Needed d (.log e.log)
  | imm {m : List LoggedRecord} (memtable : d.imm = some m) {e : LoggedRecord} (entry : e ∈ m) :
      Needed d (.log e.log)
  | committing {e : LoggedRecord} (entry : d.committing = some e) : Needed d (.log e.log)
  /-- the log that is written to -/
  | logfile : Needed d (.log d.logfileNumber)
  | manifest : Needed d (.descriptor d.manifestFileNumber)

end Directory

/-! ## The work of a compaction -/

namespace CompactionState

/-- Neither the numbers of the outputs nor the edit of the compaction have changed. -/
structure SameTables (st st' : CompactionState) : Prop where
  numbers : st'.outputs.map Output.number = st.outputs.map Output.number
  compaction : st'.compaction = st.compaction

theorem add_sameTables (st : CompactionState) (entries : List Record) (r : Record) :
    st.SameTables (st.add entries r) := by
  refine ⟨?_, rfl⟩
  apply updateLast_map
  intro out
  rfl

theorem finishOutputFile_sameTables (io : Files) (st : CompactionState) :
    st.SameTables (st.finishOutputFile io).2 := by
  unfold finishOutputFile
  split
  · exact ⟨rfl, rfl⟩
  · refine ⟨?_, rfl⟩
    apply updateLast_map
    intro out
    rfl

theorem finishWork_sameTables (st : CompactionState) (loop input : Status) (io : Files)
    (shuttingDown : Bool) :
    st.SameTables (Directory.finishWork st loop input io shuttingDown).2 := by
  unfold Directory.finishWork
  extract_lets s finished
  show st.SameTables (if s.isOk ∧ st.builder.isSome then st.finishOutputFile io else (s, st)).2
  split
  · exact finishOutputFile_sameTables io st
  · exact ⟨rfl, rfl⟩

theorem openOutputFile_compaction (io : Files) (st : CompactionState) :
    (st.openOutputFile io).2.compaction = st.compaction := by
  unfold openOutputFile
  dsimp only
  split <;> rfl

end CompactionState

/-- The edits of a compaction leave the log number to `LogAndApply`. -/
theorem VersionSet.Chooses.edit_logNumber {vs vs' : VersionSet} {c : Compaction}
    (h : vs.Chooses c vs') : c.edit.logNumber = none := by
  rcases h with hpick | ⟨level, rangeBegin, rangeEnd, hrange⟩
  · obtain ⟨⟨level, inputs0⟩, -, heq⟩ := Option.map_eq_some_iff.mp hpick
    obtain ⟨rfl, -⟩ := Prod.mk.inj heq
    rfl
  · unfold VersionSet.compactRange at hrange
    dsimp only at hrange
    split at hrange
    · cases hrange
    · obtain ⟨rfl, -⟩ := Prod.mk.inj (Option.some.inj hrange)
      rfl

theorem VersionEdit.foldl_logNumber {α : Type*} (f : VersionEdit → α → VersionEdit)
    (hf : ∀ edit a, (f edit a).logNumber = edit.logNumber) (as : List α) (edit : VersionEdit) :
    (as.foldl f edit).logNumber = edit.logNumber := by
  induction as generalizing edit with
  | nil => rfl
  | cons a as ih => rw [List.foldl_cons, ih, hf]

theorem CompactionState.installEdit_logNumber (st : CompactionState) :
    st.installEdit.logNumber = st.compaction.edit.logNumber := by
  unfold installEdit Compaction.addInputDeletions
  dsimp only
  refine (VersionEdit.foldl_logNumber _ ?_ _ _).trans
    ((VersionEdit.foldl_logNumber _ ?_ _ _).trans (VersionEdit.foldl_logNumber _ ?_ _ _))
  all_goals
    intro edit a
    rfl

/-! ## What a step does -/

namespace Directory

variable {d t : Directory}

/-- **Inversion of a step.** `merge` stands for `add` and `finishOutput`. -/
inductive Stepped (d : Directory) : Directory → Prop where
  | addRecord {record : Bytes} : Stepped d (d.addRecord record)
  | insertInto {e : LoggedRecord} (committing : d.committing = some e) {count : Nat} {sync : Bool}
      {io : LogIO} : Stepped d (d.insertInto e count sync io)
  | switchLog (idle : d.committing = none) (needs : d.NeedsLog) {newLog : Status} :
      Stepped d (d.switchLog newLog)
  | pin : Stepped d d.pin
  | release {i : Nat} {h : Handle Levels} (held : d.readers[i]? = some h) :
      Stepped d (d.release i h)
  | seek {level : Nat} {f : FileMetaData} : Stepped d (d.updateStats level f)
  | startFlush (free : d.stage = .free) (imm : d.imm.isSome) : Stepped d d.startFlush
  | built {number : Nat} {base : Handle Levels} (stage : d.stage = .building number base)
      {table : BuiltTable} {shuttingDown : Bool} :
      Stepped d (d.built number base table shuttingDown)
  | flushed {edit : VersionEdit} {v : Version} (stage : d.stage = .flushing edit v)
      {manifest : Status} : Stepped d (d.flushed edit v manifest)
  | nothing : Stepped d d
  | startCompaction (free : d.stage = .free) (stopped : d.running = none) {c : Compaction}
      (edit : c.edit.logNumber = none) {pointers : Nat → Bytes} {smallestSnapshot : Nat} :
      Stepped d (startCompaction { d with versions :=
        { d.versions with compactPointer := pointers } } c smallestSnapshot)
  | startMove (free : d.stage = .free) {c : Compaction} (edit : c.edit.logNumber = none)
      {pointers : Nat → Bytes} {f : FileMetaData} :
      Stepped d (startMove { d with versions :=
        { d.versions with compactPointer := pointers } } c f)
  | moved {edit : VersionEdit} {v : Version} {input : Handle Levels}
      (stage : d.stage = .moving edit v input) {manifest : Status} :
      Stepped d (d.moved edit v input manifest)
  | openOutput (free : d.stage = .free) {r : OpenCompaction} (running : d.running = some r)
      {io : Files} : Stepped d (d.openOutput r io)
  | merge {r : OpenCompaction} (running : d.running = some r) {st : CompactionState}
      (same : r.state.SameTables st) : Stepped d (d.withState r st)
  | endCompaction (free : d.stage = .free) {r : OpenCompaction} (running : d.running = some r)
      {finished : Status × CompactionState} (same : r.state.SameTables finished.2) :
      Stepped d (d.endCompaction r finished)
  | installed {edit : VersionEdit} {v : Version} (stage : d.stage = .installing edit v)
      {r : OpenCompaction} (running : d.running = some r) {manifest : Status} :
      Stepped d (d.installed r edit v manifest)
  | collect (stage : d.stage = .collecting) {deletes : FileName → Bool} :
      Stepped d { d.deleteObsoleteFiles deletes with stage := .free }

theorem stepped_of_foreground {e : Foreground} (h : d.foreground e = some t) : d.Stepped t := by
  cases e with
  | addRecord record =>
    simp only [foreground] at h
    split at h
    · cases h
      exact .addRecord
    · cases h
  | insertInto count sync io =>
    obtain ⟨e, he, rfl⟩ := Option.map_eq_some_iff.mp h
    exact .insertInto he
  | switchLog newLog =>
    simp only [foreground] at h
    split at h
    · case isTrue hguard =>
        cases h
        exact .switchLog (Option.isNone_iff_eq_none.mp hguard.1) hguard.2
    · cases h
  | pin =>
    cases h
    exact .pin
  | release i =>
    obtain ⟨handle, hheld, rfl⟩ := Option.map_eq_some_iff.mp h
    exact .release hheld
  | seek level f =>
    cases h
    exact .seek

theorem stepped_of_backgroundCompaction (free : d.stage = .free) (stopped : d.running = none)
    (manual : Option ManualCompaction) (smallestSnapshot : Nat) :
    d.Stepped (d.backgroundCompaction manual smallestSnapshot) := by
  unfold backgroundCompaction
  dsimp only
  split
  · exact .nothing
  · case h_2 c versions hchoice =>
      have hchooses : d.versions.Chooses c versions := by
        cases manual with
        | none => exact Or.inl hchoice
        | some m => exact Or.inr ⟨_, _, _, hchoice⟩
      obtain ⟨pointers, rfl⟩ := hchooses.versions
      have hedit := hchooses.edit_logNumber
      split
      · split
        · exact .startMove free hedit
        · exact .startCompaction free stopped hedit
      · exact .startCompaction free stopped hedit

theorem merging_eq_some {r : OpenCompaction} (h : d.merging = some r) :
    d.stage = .free ∧ d.running = some r := by
  unfold merging at h
  split at h
  · case h_1 hfree => exact ⟨hfree, h⟩
  · cases h

theorem stepped_of_background {e : Background} (h : d.background e = some t) : d.Stepped t := by
  cases e with
  | startFlush =>
    simp only [background] at h
    split at h
    · case h_1 hfree =>
        split at h
        · case isTrue hguard =>
            cases h
            exact .startFlush hfree hguard.1
        · cases h
    · cases h
  | built table shuttingDown =>
    simp only [background] at h
    split at h
    · case h_1 hstage =>
        cases h
        exact .built hstage
    · cases h
  | flushed manifest =>
    simp only [background] at h
    split at h
    · case h_1 hstage =>
        cases h
        exact .flushed hstage
    · cases h
  | compact manual smallestSnapshot =>
    simp only [background] at h
    split at h
    · case h_1 hfree =>
        split at h
        · case isTrue hguard =>
            cases h
            exact stepped_of_backgroundCompaction hfree
              (Option.isNone_iff_eq_none.mp hguard.2.1) manual smallestSnapshot
        · cases h
    · cases h
  | moved manifest =>
    simp only [background] at h
    split at h
    · case h_1 hstage =>
        cases h
        exact .moved hstage
    · cases h
  | openOutput io =>
    obtain ⟨r, hr, h⟩ := Option.bind_eq_some_iff.mp h
    obtain ⟨hfree, hrunning⟩ := merging_eq_some hr
    split at h
    · cases h
      exact .openOutput hfree hrunning
    · cases h
  | add record =>
    obtain ⟨r, hr, h⟩ := Option.bind_eq_some_iff.mp h
    obtain ⟨entries, -, rfl⟩ := Option.map_eq_some_iff.mp h
    exact .merge (merging_eq_some hr).2 (r.state.add_sameTables entries record)
  | finishOutput io =>
    obtain ⟨r, hr, h⟩ := Option.bind_eq_some_iff.mp h
    split at h
    · cases h
      exact .merge (merging_eq_some hr).2 (r.state.finishOutputFile_sameTables io)
    · cases h
  | endCompaction loop input io shuttingDown =>
    obtain ⟨r, hr, rfl⟩ := Option.map_eq_some_iff.mp h
    obtain ⟨hfree, hrunning⟩ := merging_eq_some hr
    exact .endCompaction hfree hrunning
      (r.state.finishWork_sameTables loop input io shuttingDown)
  | installed manifest =>
    simp only [background] at h
    split at h
    · case h_1 hstage =>
        obtain ⟨r, hrunning, rfl⟩ := Option.map_eq_some_iff.mp h
        exact .installed hstage hrunning
    · cases h

theorem stepped_of_step {a : Action} (h : d.step a = some t) : d.Stepped t := by
  cases a with
  | foreground e =>
    simp only [step] at h
    split at h
    · cases h
    · exact stepped_of_foreground h
  | background e => exact stepped_of_background h
  | deleteObsoleteFiles deletes =>
    simp only [step] at h
    split at h
    · case h_1 hstage =>
        cases h
        exact .collect hstage
    · cases h

/-! ## References -/

/-- The counts on the list are those of the references, and identities are not used
again. -/
structure Counted (d : Directory) : Prop where
  counts : Counts d.handles d.list
  fresh : ∀ c ∈ d.list, c.id < d.nextId

theorem appendVersion_handles (edit : VersionEdit) (v : Version) :
    (d.appendVersion edit v).handles = ⟨d.nextId, v.files⟩ ::
      (d.stage.handles ++ (d.running.toList.map OpenCompaction.input ++ d.readers)) :=
  rfl

namespace Counted

theorem of_eq (h : d.Counted) (hhandles : t.handles = d.handles) (hlist : t.list = d.list)
    (hid : t.nextId = d.nextId) : t.Counted := by
  refine ⟨?_, ?_⟩
  · rw [hhandles, hlist]
    exact h.counts
  · rw [hlist, hid]
    exact h.fresh

theorem recordBackgroundError (h : d.Counted) (s : Status) :
    (d.recordBackgroundError s).Counted :=
  h.of_eq rfl rfl rfl

/-- Somebody takes a reference to the current version. -/
theorem share (h : d.Counted) (hhandles : (d.current :: d.handles).Perm t.handles)
    (hlist : t.list = addRef d.currentId d.list) (hid : t.nextId = d.nextId) : t.Counted := by
  refine ⟨?_, ?_⟩
  · rw [hlist]
    exact (h.counts.addRef (h := d.current) List.mem_cons_self).perm hhandles
  · rw [hlist, hid]
    intro c hc
    have hmem : c.id ∈ (addRef d.currentId d.list).map Cell.id := List.mem_map_of_mem hc
    rw [addRef_ids] at hmem
    obtain ⟨c', hc', hsame⟩ := List.mem_map.mp hmem
    rw [← hsame]
    exact h.fresh c' hc'

/-- Somebody drops a reference. -/
theorem drop (h : d.Counted) {x : Handle Levels} (hhandles : d.handles.Perm (x :: t.handles))
    (hlist : t.list = dropRef x.id d.list) (hid : t.nextId = d.nextId) : t.Counted := by
  refine ⟨?_, ?_⟩
  · rw [hlist]
    exact (h.counts.perm hhandles).dropRef
  · rw [hlist, hid]
    intro c hc
    obtain ⟨c', hc', hsame⟩ := id_of_mem_dropRef hc
    rw [← hsame]
    exact h.fresh c' hc'

theorem appendVersion (h : d.Counted) (edit : VersionEdit) (v : Version) :
    (d.appendVersion edit v).Counted := by
  have hold : ∀ c ∈ dropRef d.currentId d.list, c.id < d.nextId := by
    intro c hc
    obtain ⟨c', hc', hsame⟩ := id_of_mem_dropRef hc
    rw [← hsame]
    exact h.fresh c' hc'
  refine ⟨?_, ?_⟩
  · apply h.counts.dropRef.addCell v.files
    intro c hc
    exact Nat.ne_of_lt (hold c hc)
  · intro c hc
    rcases List.mem_append.mp hc with hc | hc
    · exact Nat.lt_succ_of_lt (hold c hc)
    · rw [List.mem_singleton.mp hc]
      exact Nat.lt_succ_self _

theorem withState (h : d.Counted) {r : OpenCompaction} (hr : d.running = some r)
    (st : CompactionState) : (d.withState r st).Counted := by
  refine h.of_eq ?_ rfl rfl
  simp only [handles, hr]
  rfl

/-- The compaction of the running thread drops its input version. -/
theorem cleanupCompaction (h : d.Counted) {r : OpenCompaction} (hr : d.running = some r)
    (hstage : d.stage.handles = []) : (d.cleanupCompaction r).Counted := by
  refine h.drop (x := r.input) ?_ rfl rfl
  simp only [handles, hstage, hr]
  exact List.Perm.swap _ _ _

theorem pin (h : d.Counted) : d.pin.Counted := by
  refine h.share (List.Perm.cons _ ?_) rfl rfl
  rw [handles, ← List.append_assoc]
  refine List.perm_middle.symm.trans (List.Perm.of_eq ?_)
  rw [List.append_assoc]
  rfl

theorem release (h : d.Counted) {i : Nat} {x : Handle Levels} (held : d.readers[i]? = some x) :
    (d.release i x).Counted := by
  obtain ⟨hi, hx⟩ := List.getElem?_eq_some_iff.mp held
  have hreaders : d.readers.Perm (x :: d.readers.eraseIdx i) := by
    rw [← hx]
    exact (List.getElem_cons_eraseIdx_perm hi).symm
  refine h.drop (x := x) ?_ rfl rfl
  rw [handles, ← List.append_assoc]
  refine ((hreaders.append_left _).trans List.perm_middle).cons _ |>.trans ?_
  refine (List.Perm.swap _ _ _).trans (List.Perm.of_eq ?_)
  rw [List.append_assoc]
  rfl

/-- The flush gives its base version back. -/
theorem built (h : d.Counted) {number : Nat} {base : Handle Levels}
    (stage : d.stage = .building number base) (table : BuiltTable) (shuttingDown : Bool) :
    (d.built number base table shuttingDown).Counted := by
  unfold Directory.built
  dsimp only
  split
  all_goals
    refine h.drop (x := base) ?_ rfl rfl
    simp only [handles, stage]
    exact List.Perm.swap _ _ _

theorem flushed (h : d.Counted) {edit : VersionEdit} {v : Version}
    (stage : d.stage = .flushing edit v) (manifest : Status) :
    (d.flushed edit v manifest).Counted := by
  unfold Directory.flushed
  split
  · refine (h.appendVersion edit v).of_eq ?_ rfl rfl
    rw [appendVersion_handles, stage]
    rfl
  · refine h.of_eq ?_ rfl rfl
    simp only [handles, stage]
    rfl

/-- The compaction object of a trivial move goes, whether or not the move succeeds. -/
theorem moved (h : d.Counted) {edit : VersionEdit} {v : Version} {input : Handle Levels}
    (stage : d.stage = .moving edit v input) (manifest : Status) :
    (d.moved edit v input manifest).Counted := by
  unfold Directory.moved
  dsimp only
  split
  · refine (h.appendVersion edit v).drop (x := input) ?_ rfl rfl
    rw [appendVersion_handles, stage]
    exact List.Perm.swap _ _ _
  · refine h.drop (x := input) ?_ rfl rfl
    simp only [handles, stage]
    exact List.Perm.swap _ _ _

theorem endCompaction (h : d.Counted) (free : d.stage = .free) {r : OpenCompaction}
    (running : d.running = some r) (finished : Status × CompactionState) :
    (d.endCompaction r finished).Counted := by
  have hstate := h.withState running finished.2
  have hfree : (d.withState r finished.2).stage = .free := free
  unfold Directory.endCompaction
  dsimp only
  split
  · refine hstate.of_eq ?_ rfl rfl
    simp only [handles, hfree]
    rfl
  · apply (hstate.recordBackgroundError finished.1).cleanupCompaction rfl
    show (d.withState r finished.2).stage.handles = []
    rw [hfree]
    rfl

theorem installed (h : d.Counted) {edit : VersionEdit} {v : Version}
    (stage : d.stage = .installing edit v) {r : OpenCompaction} (running : d.running = some r)
    (manifest : Status) : (d.installed r edit v manifest).Counted := by
  have hstage : d.stage.handles = [] := by
    rw [stage]
    rfl
  unfold Directory.installed
  split
  · exact (h.appendVersion edit v).cleanupCompaction running hstage
  · exact (h.recordBackgroundError manifest).cleanupCompaction running hstage

theorem step (h : d.Counted) (hstep : d.Stepped t) : t.Counted := by
  cases hstep with
  | addRecord => exact h.of_eq rfl rfl rfl
  | insertInto _ => exact h.of_eq rfl rfl rfl
  | switchLog _ _ =>
    unfold switchLog
    split <;> exact h.of_eq rfl rfl rfl
  | pin => exact h.pin
  | release held => exact h.release held
  | seek =>
    unfold updateStats
    dsimp only
    split <;> exact h.of_eq rfl rfl rfl
  | startFlush free _ =>
    refine h.share (List.Perm.of_eq ?_) rfl rfl
    simp only [handles, free]
    rfl
  | built stage => exact h.built stage _ _
  | flushed stage => exact h.flushed stage _
  | nothing => exact h
  | startCompaction free stopped _ =>
    refine h.share (List.Perm.of_eq ?_) rfl rfl
    simp only [handles, free, stopped]
    rfl
  | startMove free _ =>
    refine h.share (List.Perm.of_eq ?_) rfl rfl
    simp only [handles, free]
    rfl
  | moved stage => exact h.moved stage _
  | openOutput _ running =>
    refine h.of_eq ?_ rfl rfl
    simp only [handles, running]
    rfl
  | merge running _ => exact h.withState running _
  | endCompaction free running _ => exact h.endCompaction free running _
  | installed stage running => exact h.installed stage running _
  | collect stage =>
    unfold deleteObsoleteFiles
    split
    all_goals
      refine h.of_eq ?_ rfl rfl
      simp only [handles, stage]
      rfl

end Counted

/-! ## Pending outputs -/

/-- The outputs of the running compaction are pending, and a flush from within it has a
number of its own. -/
structure Reserved (d : Directory) : Prop where
  outputs : ∀ r, d.running = some r → ∀ n ∈ r.numbers,
    n ∈ d.pendingOutputs ∧ n < d.versions.nextFileNumber
  building : ∀ n, d.stage.builds = some n → ∀ r, d.running = some r → n ∉ r.numbers

namespace Reserved

/-- No compaction is running. -/
theorem of_stopped (h : d.running = none) : d.Reserved := by
  refine ⟨?_, ?_⟩
  · intro r hr
    rw [h] at hr
    cases hr
  · intro n _ r hr
    rw [h] at hr
    cases hr

/-- Only the stage has changed, and numbers may have been given out. -/
theorem of_stage (h : d.Reserved) (hrunning : t.running = d.running)
    (hpending : t.pendingOutputs = d.pendingOutputs)
    (hnext : d.versions.nextFileNumber ≤ t.versions.nextFileNumber)
    (hstage : t.stage.builds = d.stage.builds ∨ t.stage.builds = none) : t.Reserved := by
  refine ⟨?_, ?_⟩
  · intro r hr n hn
    rw [hrunning] at hr
    obtain ⟨hmem, hlt⟩ := h.outputs r hr n hn
    rw [hpending]
    exact ⟨hmem, Nat.lt_of_lt_of_le hlt hnext⟩
  · intro n hn r hr
    rw [hrunning] at hr
    rcases hstage with hsame | hnone
    · rw [hsame] at hn
      exact h.building n hn r hr
    · rw [hnone] at hn
      cases hn

theorem withState (h : d.Reserved) {r : OpenCompaction} (hr : d.running = some r)
    {st : CompactionState} (same : r.state.SameTables st) : (d.withState r st).Reserved := by
  have hnumbers : OpenCompaction.numbers { r with state := st } = r.numbers := same.numbers
  refine ⟨?_, ?_⟩
  · intro r' hr' n hn
    cases hr'
    rw [hnumbers] at hn
    exact h.outputs r hr n hn
  · intro n hn r' hr'
    cases hr'
    rw [hnumbers]
    exact h.building n hn r hr

/-- A flush within the compaction takes a number that no output has. -/
theorem startFlush (h : d.Reserved) : d.startFlush.Reserved := by
  refine ⟨?_, ?_⟩
  · intro r hr n hn
    obtain ⟨hmem, hlt⟩ := h.outputs r hr n hn
    exact ⟨List.mem_cons_of_mem _ hmem, Nat.lt_succ_of_lt hlt⟩
  · intro n hbuilds r hr hn
    cases hbuilds
    exact Nat.lt_irrefl _ (h.outputs r hr _ hn).2

/-- The number of the flush leaves `pending_outputs_`, those of the outputs stay. -/
theorem built (h : d.Reserved) {number : Nat} {base : Handle Levels}
    (stage : d.stage = .building number base) (table : BuiltTable) (shuttingDown : Bool) :
    (d.built number base table shuttingDown).Reserved := by
  have hbuilds : d.stage.builds = some number := by
    rw [stage]
    rfl
  -- the table of the flush is no output of the compaction it interrupts
  have hout : ∀ r, d.running = some r → ∀ n ∈ r.numbers,
      n ∈ d.pendingOutputs.filter (· ≠ number) ∧ n < d.versions.nextFileNumber := by
    intro r hr n hn
    obtain ⟨hmem, hlt⟩ := h.outputs r hr n hn
    refine ⟨List.mem_filter.mpr ⟨hmem, decide_eq_true ?_⟩, hlt⟩
    rintro rfl
    exact h.building n hbuilds r hr hn
  unfold Directory.built
  dsimp only
  split
  all_goals
    refine ⟨hout, ?_⟩
    intro n hn
    cases hn

theorem openOutput (h : d.Reserved) (free : d.stage = .free) {r : OpenCompaction}
    (running : d.running = some r) (io : Files) : (d.openOutput r io).Reserved := by
  refine ⟨?_, ?_⟩
  · intro r' hr' n hn
    cases hr'
    simp only [OpenCompaction.numbers, CompactionState.openOutputFile_outputs, List.map_append,
      List.mem_append, List.map_cons, List.map_nil, List.mem_singleton] at hn
    rcases hn with hn | rfl
    · obtain ⟨hmem, hlt⟩ := h.outputs r running n hn
      exact ⟨List.mem_cons_of_mem _ hmem, Nat.lt_succ_of_lt hlt⟩
    · exact ⟨List.mem_cons_self, Nat.lt_succ_self _⟩
  · intro n hn
    have hnone : d.stage.builds = none := by
      rw [free]
      rfl
    exact absurd (hnone.symm.trans hn) (Option.some_ne_none n).symm

theorem step (h : d.Reserved) (hstep : d.Stepped t) : t.Reserved := by
  cases hstep with
  | addRecord => exact h.of_stage rfl rfl (Nat.le_refl _) (Or.inl rfl)
  | insertInto _ => exact h.of_stage rfl rfl (Nat.le_refl _) (Or.inl rfl)
  | switchLog _ _ =>
    unfold switchLog
    split
    · exact h.of_stage rfl rfl (Nat.le_succ _) (Or.inl rfl)
    · exact h
  | pin => exact h.of_stage rfl rfl (Nat.le_refl _) (Or.inl rfl)
  | release _ => exact h.of_stage rfl rfl (Nat.le_refl _) (Or.inl rfl)
  | seek =>
    unfold updateStats
    dsimp only
    split
    · exact h.of_stage rfl rfl (Nat.le_refl _) (Or.inl rfl)
    · exact h
  | startFlush _ _ => exact h.startFlush
  | built stage => exact h.built stage _ _
  | flushed _ =>
    unfold flushed
    split <;> exact h.of_stage rfl rfl (Nat.le_refl _) (Or.inr rfl)
  | nothing => exact h
  | startCompaction free _ _ =>
    refine ⟨?_, ?_⟩
    · intro r hr n hn
      cases hr
      cases hn
    · intro n _ r hr hn
      cases hr
      cases hn
  | startMove _ _ => exact h.of_stage rfl rfl (Nat.le_refl _) (Or.inr rfl)
  | moved _ =>
    unfold moved
    dsimp only
    split <;> exact h.of_stage rfl rfl (Nat.le_refl _) (Or.inr rfl)
  | openOutput free running => exact h.openOutput free running _
  | merge running same => exact h.withState running same
  | endCompaction _ running same =>
    unfold endCompaction
    dsimp only
    split
    · exact (h.withState running same).of_stage rfl rfl (Nat.le_refl _) (Or.inr rfl)
    · exact of_stopped rfl
  | installed _ _ =>
    unfold installed
    split <;> exact of_stopped rfl
  | collect _ =>
    unfold deleteObsoleteFiles
    split <;> exact h.of_stage rfl rfl (Nat.le_refl _) (Or.inr rfl)

end Reserved

/-! ## Log numbers -/

/-- What the edit on its way says about the logs. The memtable of a flush stays until its
edit is applied. -/
def StageLog (d : Directory) : Prop :=
  match d.stage with
  | .building _ _ => d.imm.isSome
  | .flushing edit _ => d.imm.isSome ∧ edit.logNumber = some d.logfileNumber
  | .installing edit _ => edit.logNumber = some d.versions.logNumber
  | .moving edit _ _ => edit.logNumber = some d.versions.logNumber
  | _ => True

structure LogsKept (d : Directory) : Prop where
  log_le : d.versions.logNumber ≤ d.logfileNumber
  log_lt : d.logfileNumber < d.versions.nextFileNumber
  mem : ∀ e ∈ d.mem, e.log = d.logfileNumber
  committing : ∀ e, d.committing = some e → e.log = d.logfileNumber
  imm : ∀ m, d.imm = some m → ∀ e ∈ m, d.versions.logNumber ≤ e.log
  stage : d.StageLog
  edit : ∀ r, d.running = some r → r.state.compaction.edit.logNumber = none

namespace LogsKept

theorem recordBackgroundError (h : d.LogsKept) (s : Status) :
    (d.recordBackgroundError s).LogsKept :=
  { h with }

theorem insertInto (h : d.LogsKept) {e : LoggedRecord} (hcommitting : d.committing = some e)
    (count : Nat) (sync : Bool) (io : LogIO) : (d.insertInto e count sync io).LogsKept := by
  refine { h with mem := ?_, committing := ?_ }
  · intro e' he'
    unfold Directory.insertInto at he'
    dsimp only at he'
    split at he'
    · rcases List.mem_append.mp he' with he' | he'
      · exact h.mem e' he'
      · rw [List.mem_singleton.mp he']
        exact h.committing e hcommitting
    · exact h.mem e' he'
  · intro e' he'
    cases he'

/-- No log is switched while a flush is under way, so an edit on its way cannot be about
an older log. -/
theorem switchLog (h : d.LogsKept) (idle : d.committing = none) (needs : d.NeedsLog)
    (newLog : Status) : (d.switchLog newLog).LogsKept := by
  have himm : d.imm = none := Option.isNone_iff_eq_none.mp needs.2.1
  unfold Directory.switchLog
  split
  · refine
      { log_le := Nat.le_of_lt (Nat.lt_of_le_of_lt h.log_le h.log_lt)
        log_lt := Nat.lt_succ_self _
        mem := ?_
        committing := ?_
        imm := ?_
        stage := ?_
        edit := h.edit }
    · intro e he
      cases he
    · intro e he
      rw [show _ = none from idle] at he
      cases he
    · intro m hm e he
      cases hm
      rw [h.mem e he]
      exact h.log_le
    · -- `imm_` was empty, so the edit on its way is not that of a flush
      have hstage := h.stage
      unfold StageLog at hstage ⊢
      rw [himm] at hstage
      cases hcase : d.stage with
      | free => trivial
      | collecting => trivial
      | building number base =>
        rw [hcase] at hstage
        cases hstage
      | flushing edit v =>
        rw [hcase] at hstage
        cases hstage.1
      | installing edit v =>
        rw [hcase] at hstage
        exact hstage
      | moving edit v input =>
        rw [hcase] at hstage
        exact hstage
  · exact h

theorem built (h : d.LogsKept) {number : Nat} {base : Handle Levels}
    (stage : d.stage = .building number base) (table : BuiltTable) (shuttingDown : Bool) :
    (d.built number base table shuttingDown).LogsKept := by
  have himm : d.imm.isSome := by
    have hstage := h.stage
    unfold StageLog at hstage
    rw [stage] at hstage
    exact hstage
  unfold Directory.built
  dsimp only
  split
  · exact { h with stage := ⟨himm, rfl⟩ }
  · exact { h with stage := trivial }

/-- After the flush the earlier logs are not needed: their memtable is in the version. -/
theorem flushed (h : d.LogsKept) {edit : VersionEdit} {v : Version}
    (stage : d.stage = .flushing edit v) (manifest : Status) :
    (d.flushed edit v manifest).LogsKept := by
  have hlog : edit.logNumber = some d.logfileNumber := by
    have hstage := h.stage
    unfold StageLog at hstage
    rw [stage] at hstage
    exact hstage.2
  unfold Directory.flushed
  split
  · refine { h with log_le := ?_, imm := ?_, stage := trivial }
    · show edit.logNumber.getD _ ≤ d.logfileNumber
      rw [hlog]
      exact Nat.le_refl _
    · intro m hm
      cases hm
  · exact { h with stage := trivial }

/-- Edits other than that of a flush get the log number the version set has. -/
theorem completeEdit_logNumber (vs : VersionSet) {edit : VersionEdit} (h : edit.logNumber = none) :
    (vs.completeEdit edit).logNumber = some vs.logNumber := by
  show some (edit.logNumber.getD vs.logNumber) = some vs.logNumber
  rw [h]
  rfl

/-- To install such an edit changes no log number. -/
theorem appendVersion (h : d.LogsKept) {edit : VersionEdit}
    (hlog : edit.logNumber = some d.versions.logNumber) (v : Version) :
    (d.appendVersion edit v).LogsKept := by
  have hsame : (d.appendVersion edit v).versions.logNumber = d.versions.logNumber := by
    show edit.logNumber.getD _ = _
    rw [hlog]
    rfl
  refine { h with log_le := ?_, imm := ?_, stage := ?_ }
  · rw [hsame]
    exact h.log_le
  · rw [hsame]
    exact h.imm
  · have hstage := h.stage
    unfold StageLog at hstage ⊢
    rw [hsame]
    exact hstage

theorem withState (h : d.LogsKept) {r : OpenCompaction} (hr : d.running = some r)
    {st : CompactionState} (same : r.state.SameTables st) : (d.withState r st).LogsKept := by
  refine { h with edit := ?_ }
  intro r' hr'
  cases hr'
  dsimp only
  rw [same.compaction]
  exact h.edit r hr

theorem cleanupCompaction (h : d.LogsKept) {r : OpenCompaction} :
    (d.cleanupCompaction r).LogsKept := by
  refine { h with stage := trivial, edit := ?_ }
  intro r' hr'
  cases hr'

theorem step (h : d.LogsKept) (hstep : d.Stepped t) : t.LogsKept := by
  cases hstep with
  | addRecord =>
    refine { h with committing := ?_ }
    intro e he
    cases he
    rfl
  | insertInto committing => exact h.insertInto committing _ _ _
  | switchLog idle needs => exact h.switchLog idle needs _
  | pin => exact { h with }
  | release _ => exact { h with }
  | seek =>
    unfold updateStats
    dsimp only
    split
    · exact { h with }
    · exact h
  | startFlush _ imm =>
    exact { h with log_lt := Nat.lt_succ_of_lt h.log_lt, stage := imm }
  | built stage => exact h.built stage _ _
  | flushed stage => exact h.flushed stage _
  | nothing => exact h
  | startCompaction _ _ edit =>
    refine { h with edit := ?_ }
    intro r hr
    cases hr
    exact edit
  | startMove _ edit =>
    refine { h with stage := ?_ }
    exact completeEdit_logNumber _ edit
  | @moved edit v input stage manifest =>
    have hlog := h.stage
    unfold StageLog at hlog
    rw [stage] at hlog
    unfold moved
    dsimp only
    split
    · exact { h.appendVersion hlog v with stage := trivial }
    · exact { h with stage := trivial }
  | @openOutput _ r running io =>
    refine { h with log_lt := Nat.lt_succ_of_lt h.log_lt, edit := ?_ }
    intro r' hr'
    cases hr'
    dsimp only
    rw [CompactionState.openOutputFile_compaction]
    exact h.edit r running
  | merge running same => exact h.withState running same
  | @endCompaction _ r running finished same =>
    have hstate := h.withState running same
    have hedit : finished.2.installEdit.logNumber = none := by
      rw [CompactionState.installEdit_logNumber, same.compaction]
      exact h.edit r running
    unfold endCompaction
    dsimp only
    split
    · exact { hstate with stage := completeEdit_logNumber _ hedit }
    · exact (hstate.recordBackgroundError finished.1).cleanupCompaction
  | @installed edit v stage r _ manifest =>
    have hlog := h.stage
    unfold StageLog at hlog
    rw [stage] at hlog
    unfold installed
    split
    · exact (h.appendVersion hlog v).cleanupCompaction
    · exact (h.recordBackgroundError manifest).cleanupCompaction
  | collect _ =>
    unfold deleteObsoleteFiles
    split <;> exact { h with stage := trivial }

end LogsKept

/-! ## What a call keeps -/

structure Kept (d : Directory) : Prop where
  counted : d.Counted
  reserved : d.Reserved
  logs : d.LogsKept

theorem opened_kept (versions : VersionSet) (edit : VersionEdit) (manifestFileNumber : Nat)
    (files : List FileName) : (opened versions edit manifestFileNumber files).Kept where
  counted :=
    { counts := Counts.single 0 _
      fresh := by
        intro c hc
        rw [List.mem_singleton.mp hc]
        exact Nat.one_pos }
  reserved := Reserved.of_stopped rfl
  logs :=
    { log_le := Nat.le_refl _
      log_lt := Nat.lt_succ_self _
      mem := by
        intro e he
        cases he
      committing := by
        intro e he
        cases he
      imm := by
        intro m hm
        cases hm
      stage := trivial
      edit := by
        intro r hr
        cases hr }

theorem Kept.step (h : d.Kept) {a : Action} (hstep : d.step a = some t) : t.Kept where
  counted := h.counted.step (stepped_of_step hstep)
  reserved := h.reserved.step (stepped_of_step hstep)
  logs := h.logs.step (stepped_of_step hstep)

theorem runs_kept {versions : VersionSet} {edit : VersionEdit} {manifestFileNumber : Nat}
    {files : List FileName} {run : List Action}
    (hrun : runs step (opened versions edit manifestFileNumber files) run = some d) : d.Kept :=
  runs_invariant (fun _ _ _ hs hstep => hs.step hstep)
    (opened_kept versions edit manifestFileNumber files) hrun

theorem mem_live {number : Nat} : number ∈ d.live ↔
    number ∈ d.pendingOutputs ∨ ∃ c ∈ d.list, ∃ level < kNumLevels, ∃ f ∈ c.value level,
      f.number = number := by
  simp only [live, addLiveFiles, List.mem_append, List.mem_flatMap, List.mem_range, List.mem_map]

/-- When a call is due, whatever is needed passes the test of `DeleteObsoleteFiles`. -/
theorem Kept.keep_of_needed (h : d.Kept) (stage : d.stage = .collecting) {f : FileName}
    (hneeded : d.Needed f) : d.keep f = true := by
  have hlog : ∀ n, d.versions.logNumber ≤ n → d.keep (.log n) = true := by
    intro n hn
    rw [keep, decide_eq_true hn, Bool.true_or]
  have htable : ∀ n ∈ d.live, d.keep (.table n) = true := by
    intro n hn
    rw [keep, List.contains_iff_mem]
    exact hn
  cases hneeded with
  | version held level_lt file =>
    obtain ⟨c, hc, -, hvalue⟩ := h.counted.counts.held _ held
    rw [← hvalue] at file
    exact htable _ (mem_live.mpr (Or.inr ⟨c, hc, _, level_lt, _, file, rfl⟩))
  | pending file => exact htable _ (mem_live.mpr (Or.inl file))
  | edit file =>
    -- the thread that makes the call has no edit on its way
    rw [stage] at file
    cases file
  | output running file =>
    exact htable _ (mem_live.mpr (Or.inl (h.reserved.outputs _ running _ file).1))
  | mem entry =>
    apply hlog
    rw [h.logs.mem _ entry]
    exact h.logs.log_le
  | imm memtable entry => exact hlog _ (h.logs.imm _ memtable _ entry)
  | committing entry =>
    apply hlog
    rw [h.logs.committing _ entry]
    exact h.logs.log_le
  | logfile => exact hlog _ h.logs.log_le
  | manifest => exact decide_eq_true (Nat.le_refl _)

/-- A call is made at the end of a stage only. -/
theorem step_deleteObsoleteFiles {deletes : FileName → Bool}
    (h : d.step (.deleteObsoleteFiles deletes) = some t) :
    d.stage = .collecting ∧ t = { d.deleteObsoleteFiles deletes with stage := .free } := by
  simp only [step] at h
  split at h
  · case h_1 hstage =>
      cases h
      exact ⟨hstage, rfl⟩
  · cases h

/-- **Garbage collection never removes a needed file**: whatever the threads have done since
`DB::Open`, a call of `DeleteObsoleteFiles` leaves every file in the directory that somebody
needs. -/
theorem deleteObsoleteFiles_spares_needed (versions : VersionSet) (edit : VersionEdit)
    (manifestFileNumber : Nat) (files : List FileName) (run : List Action)
    {deletes : FileName → Bool} {f : FileName}
    (hrun : runs step (opened versions edit manifestFileNumber files) run = some d)
    (hstep : d.step (.deleteObsoleteFiles deletes) = some t) (hneeded : d.Needed f)
    (hf : f ∈ d.files) : f ∈ t.files := by
  obtain ⟨hstage, rfl⟩ := step_deleteObsoleteFiles hstep
  have hkeep := (runs_kept hrun).keep_of_needed hstage hneeded
  unfold deleteObsoleteFiles
  split
  · apply List.mem_filter.mpr
    rw [hkeep, Bool.true_or]
    exact ⟨hf, rfl⟩
  · exact hf

/-- A table of one key is flushed and compacted. While the compaction has an output open,
a writer fills the next memtable and the compacting thread flushes it. -/
def flushWithinCompaction : List Action :=
  let key := appendInternalKey ⟨[97], 1, .kTypeValue⟩
  let table : BuiltTable := ⟨.ok, 1, key, key⟩
  let io := Files.working fun _ => ⟨[], .ok⟩
  let write : List Action :=
    [.foreground (.addRecord [97]), .foreground (.insertInto 1 false ⟨.ok, .ok⟩),
      .foreground (.switchLog .ok)]
  let flush : List Action :=
    [.background .startFlush, .background (.built table false), .background (.flushed .ok)]
  let collect : List Action := [.deleteObsoleteFiles fun _ => true]
  collect ++ write ++ flush ++ collect ++
    [.foreground .pin, .background (.compact (some ⟨2, none, none⟩) 1),
      .background (.openOutput io)] ++ write ++ flush

/-- The flush has made its call due, and table 5 is the output of the compaction. -/
theorem deleteObsoleteFiles_spares_output :
    ∃ d t, runs step
        (opened VersionSet.init VersionEdit.clear 1 [.current, .descriptor 1, .table 9])
        flushWithinCompaction = some d ∧
      d.step (.deleteObsoleteFiles fun _ => true) = some t ∧
      d.Needed (.table 5) ∧ .table 5 ∈ d.files ∧ .table 5 ∈ t.files := by
  have hcheck : (runs step
      (opened VersionSet.init VersionEdit.clear 1 [.current, .descriptor 1, .table 9])
      flushWithinCompaction).any (fun d =>
        (d.step (.deleteObsoleteFiles fun _ => true)).isSome && d.files.contains (.table 5) &&
          d.running.any fun r => r.numbers.contains 5) = true := by
    decide +kernel
  obtain ⟨d, hrun, hd⟩ := (Option.any_eq_true _ _).mp hcheck
  simp only [Bool.and_eq_true, Option.isSome_iff_exists, List.contains_iff_mem,
    Option.any_eq_true] at hd
  obtain ⟨⟨⟨t, hstep⟩, hf⟩, r, hr, hnumber⟩ := hd
  have hneeded : d.Needed (.table 5) := .output hr hnumber
  exact ⟨d, t, hrun, hstep, hneeded, hf,
    deleteObsoleteFiles_spares_needed _ _ _ _ _ hrun hstep hneeded hf⟩

/-- **Nothing else stays**: after a call that finds no error and can delete what it wants to,
a table in the directory is one that somebody needs. -/
theorem needed_of_deleteObsoleteFiles {versions : VersionSet} {edit : VersionEdit}
    {manifestFileNumber : Nat} {files : List FileName} {run : List Action} {number : Nat}
    (hrun : runs step (opened versions edit manifestFileNumber files) run = some d)
    (hok : d.bgError.isOk)
    (hf : .table number ∈ (d.deleteObsoleteFiles fun _ => true).files) :
    d.Needed (.table number) := by
  rw [deleteObsoleteFiles, if_pos hok] at hf
  have hkeep := (List.mem_filter.mp hf).2
  rw [Bool.not_true, Bool.or_false, keep, List.contains_iff_mem] at hkeep
  rcases mem_live.mp hkeep with hpending | ⟨c, hc, level, hlevel, f, hfile, rfl⟩
  · exact .pending hpending
  · obtain ⟨x, hx, -, hvalue⟩ := (runs_kept hrun).counted.counts.exists_handle hc
    rw [← hvalue] at hfile
    exact .version hx hlevel hfile

theorem needed_of_deleteObsoleteFiles_output :
    ∃ d, runs step
        (opened VersionSet.init VersionEdit.clear 1 [.current, .descriptor 1, .table 9])
        flushWithinCompaction = some d ∧
      .table 9 ∉ d.files ∧ d.Needed (.table 5) := by
  have hcheck : (runs step
      (opened VersionSet.init VersionEdit.clear 1 [.current, .descriptor 1, .table 9])
      flushWithinCompaction).any (fun d => d.bgError.isOk && !d.files.contains (.table 9) &&
        (d.deleteObsoleteFiles fun _ => true).files.contains (.table 5)) = true := by
    decide +kernel
  obtain ⟨d, hrun, hd⟩ := (Option.any_eq_true _ _).mp hcheck
  simp only [Bool.and_eq_true, Bool.not_eq_true', List.contains_iff_mem] at hd
  exact ⟨d, hrun, by simpa using hd.1.2, needed_of_deleteObsoleteFiles hrun hd.1.1 hd.2⟩

end Directory

end Lpad
