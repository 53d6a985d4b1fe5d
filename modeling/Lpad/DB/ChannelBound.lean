import Lpad.Base.Run
import Lpad.DB.DatabaseEffects

/-!
# How many channels a compaction has

`g_arg_t` has rows for ten channels, and nothing compares `n_ways` with that number.
A compaction of a deeper level has at most two channels. A compaction of level 0 has
one for each of its level-0 inputs and one for level 1, so what bounds it is the
number of level-0 files.

Two kinds of steps lead to a new level-0 file. `MakeRoomForWrite` lets a memtable
become immutable while there are fewer than twelve, and the flush that follows, also
one from within a running compaction, may put it at level 0. `DB::Open` adds a table
for every memtable that the logs fill. `channels_never_overrun` says how much earlier
than the code both would have to stop.
-/

namespace Lpad

/-- The length of the arrays of `g_arg_t`. -/
def numChannels : Nat := 10

/-! ## The number of channels -/

theorem prepareLevel_length_le (files : Files) (level : Nat) (tables : List FileMetaData) :
    (prepareLevel files level tables).length ≤ if level = 0 then tables.length else 1 := by
  unfold prepareLevel
  split
  · exact Nat.zero_le _
  · split
    · rw [List.length_map]
    · exact Nat.le_refl 1

/-- `n_ways`: one channel for each level-0 input, else one for each level. -/
theorem Compaction.suPrepareInputs_length_le (c : Compaction) (files : Files) :
    (c.suPrepareInputs files).length ≤ (if c.level = 0 then c.inputs0.length else 1) + 1 := by
  rw [suPrepareInputs, List.length_append]
  have h1 := prepareLevel_length_le files (c.level + 1) c.inputs1
  rw [if_neg (Nat.succ_ne_zero _)] at h1
  exact Nat.add_le_add (prepareLevel_length_le files c.level c.inputs0) h1

/-- A compaction that has been chosen and not run: at most `n` level-0 inputs, and
nothing added to its edit. -/
structure Compaction.Chosen (c : Compaction) (n : Nat) : Prop where
  inputs : c.level = 0 → c.inputs0.length ≤ n
  edit : c.edit.newFiles = []

theorem Compaction.Chosen.channels {c : Compaction} {n : Nat} (h : c.Chosen n) (hn : 1 ≤ n)
    (files : Files) : (c.suPrepareInputs files).length ≤ n + 1 := by
  have hle := c.suPrepareInputs_length_le files
  split at hle
  · exact le_trans hle (Nat.succ_le_succ (h.inputs ‹_›))
  · exact le_trans hle (Nat.succ_le_succ hn)

/-- `SetupOtherInputs` on a new compaction of some files of its level. -/
theorem VersionSet.setupOtherInputs_chosen {vs : VersionSet} {level n : Nat}
    {inputs0 : List FileMetaData} (hlen : level = 0 → inputs0.length ≤ n)
    (hn : (vs.current.files 0).length ≤ n) :
    (vs.setupOtherInputs (Compaction.new level vs.current inputs0)).1.Chosen n ∧
      (vs.setupOtherInputs (Compaction.new level vs.current inputs0)).2.current =
        vs.current := by
  refine ⟨⟨?_, rfl⟩, rfl⟩
  rintro hlevel
  obtain rfl : level = 0 := hlevel
  show (vs.current.growInputs 0 inputs0).1.length ≤ n
  rcases vs.current.growInputs_fst 0 inputs0 with heq | hsub
  · rw [heq]
    exact hlen rfl
  · exact le_trans hsub.length_le hn

theorem VersionSet.pickCompaction_chosen {vs vs' : VersionSet} {c : Compaction} {n : Nat}
    (h : vs.pickCompaction = some (c, vs')) (hn : (vs.current.files 0).length ≤ n) :
    c.Chosen n ∧ vs'.current = vs.current := by
  obtain ⟨⟨level, inputs0⟩, -, heq⟩ := Option.map_eq_some_iff.mp h
  dsimp only at heq
  obtain ⟨rfl, rfl⟩ := Prod.mk.inj heq
  apply setupOtherInputs_chosen _ hn
  rintro rfl
  rw [if_pos rfl]
  exact le_trans (vs.current.getOverlappingInputs_sublist 0 _ _).length_le hn

theorem VersionSet.compactRange_chosen {vs vs' : VersionSet} {c : Compaction} {n level : Nat}
    {b e : Option Bytes} (h : vs.compactRange level b e = some (c, vs'))
    (hn : (vs.current.files 0).length ≤ n) : c.Chosen n ∧ vs'.current = vs.current := by
  unfold compactRange at h
  dsimp only at h
  split at h
  · cases h
  · obtain ⟨rfl, rfl⟩ := Prod.mk.inj (Option.some.inj h)
    apply setupOtherInputs_chosen _ hn
    rintro rfl
    rw [if_neg (Nat.lt_irrefl 0)]
    exact le_trans (vs.current.getOverlappingInputs_sublist 0 _ _).length_le hn

/-! ## What an edit adds to a level -/

/-- The files that an edit adds to a level. -/
def VersionEdit.addedTo (edit : VersionEdit) (level : Nat) : Nat :=
  edit.newFiles.countP fun n => decide (n.1 = level)

theorem insertFile_length_le (f : FileMetaData) :
    ∀ files : List FileMetaData, (insertFile f files).length ≤ files.length + 1
  | [] => Nat.le_refl 1
  | g :: rest => by
    unfold insertFile
    split
    · exact Nat.le_refl _
    · split
      · exact Nat.succ_le_succ (insertFile_length_le f rest)
      · exact Nat.le_succ _

theorem LevelState.kept_length_le (l : LevelState) (files : List FileMetaData) :
    (l.kept files).length ≤ files.length := List.length_filter_le _ _

theorem LevelState.mergeFiles_length_le (l : LevelState) :
    ∀ added base : List FileMetaData, (l.mergeFiles added base).length ≤ added.length + base.length
  | [], base => by
    rw [List.length_nil, Nat.zero_add]
    exact l.kept_length_le base
  | f :: added, base => by
    have hbefore := l.kept_length_le (base.takeWhile fun g => !bySmallestKey f g)
    have hself := l.kept_length_le [f]
    have hafter := mergeFiles_length_le l added (base.dropWhile fun g => !bySmallestKey f g)
    have hbase : (base.takeWhile fun g => !bySmallestKey f g).length +
        (base.dropWhile fun g => !bySmallestKey f g).length = base.length := by
      rw [← List.length_append, List.takeWhile_append_dropWhile]
    simp only [mergeFiles, List.length_append, List.length_cons, List.length_nil] at *
    omega

theorem Builder.addFile_addedFiles_length_le (b : Builder) (level level' : Nat)
    (f : FileMetaData) :
    ((b.addFile level f).levels level').addedFiles.length ≤
      (b.levels level').addedFiles.length + if level = level' then 1 else 0 := by
  unfold addFile
  dsimp only
  by_cases h : level' = level
  · subst h
    rw [Function.update_self, if_pos rfl]
    exact insertFile_length_le f _
  · rw [Function.update_of_ne h]
    exact Nat.le_add_right _ _

theorem Builder.foldl_addFile_length_le (level : Nat) :
    ∀ (added : List (Nat × FileMetaData)) (b : Builder),
      ((added.foldl (fun b n => b.addFile n.1 n.2) b).levels level).addedFiles.length ≤
        (b.levels level).addedFiles.length + added.countP fun n => decide (n.1 = level)
  | [], _ => Nat.le_refl _
  | n :: added, b => by
    have hhead := b.addFile_addedFiles_length_le n.1 level n.2
    have htail := foldl_addFile_length_le level added (b.addFile n.1 n.2)
    rw [List.foldl_cons, List.countP_cons]
    simp only [decide_eq_true_eq]
    omega

/-- **A level grows by what the edit adds to it**, at most. -/
theorem VersionSet.nextVersion_length_le (vs : VersionSet) (edit : VersionEdit) (level : Nat) :
    ((vs.nextVersion edit).files level).length ≤
      (vs.current.files level).length + edit.addedTo level := by
  have hadded := Builder.foldl_addFile_length_le level edit.newFiles
    (edit.deletedFiles.foldl (fun b d => b.deleteFile d.1 d.2) Builder.new)
  rw [(Builder.foldl_deleteFile_levels level edit.deletedFiles Builder.new).1] at hadded
  have hmerge := ((Builder.new.apply edit).levels level).mergeFiles_length_le
    ((Builder.new.apply edit).levels level).addedFiles (vs.current.files level)
  have hnew : ((Builder.new.apply edit).levels level).addedFiles.length ≤ edit.addedTo level := by
    refine le_trans hadded (le_of_eq ?_)
    exact Nat.zero_add _
  refine le_trans hmerge ?_
  omega

theorem VersionSet.logAndApply_length_le (vs : VersionSet) (edit : VersionEdit) (s : Status)
    (level : Nat) :
    ((vs.logAndApply edit s).2.current.files level).length ≤
      (vs.current.files level).length + edit.addedTo level := by
  unfold logAndApply
  dsimp only
  split
  · exact vs.nextVersion_length_le (vs.completeEdit edit) level
  · exact Nat.le_add_right _ _

/-! ## The edits of compactions -/

theorem VersionEdit.addedTo_addFile (edit : VersionEdit) (level level' : Nat)
    (f : FileMetaData) : (edit.addFile level f).addedTo level' =
      edit.addedTo level' + if level = level' then 1 else 0 := by
  unfold addedTo addFile
  rw [List.countP_append, List.countP_singleton]
  simp only [decide_eq_true_eq]

theorem VersionEdit.addedTo_of_nil {edit : VersionEdit} (h : edit.newFiles = []) (level : Nat) :
    edit.addedTo level = 0 := by
  rw [addedTo, h, List.countP_nil]

/-- One memtable becomes one table. -/
theorem VersionEdit.Flushes.addedTo_le {edit : VersionEdit} {v : Version} {number level : Nat}
    {first last : Record} (h : edit.Flushes v number first last level) : edit.addedTo 0 ≤ 1 := by
  obtain ⟨size, hnew⟩ := h.added
  rw [VersionEdit.addedTo, hnew]
  exact List.countP_le_length

/-- A trivial move adds nothing to level 0. -/
theorem Compaction.moveEdit_addedTo {c : Compaction} {n : Nat} (h : c.Chosen n)
    (f : FileMetaData) : (c.moveEdit f).addedTo 0 = 0 := by
  have hdel : (c.edit.deleteFile c.level f.number).newFiles = [] := h.edit
  rw [moveEdit, VersionEdit.addedTo_addFile, if_neg (Nat.succ_ne_zero _),
    VersionEdit.addedTo_of_nil hdel]

theorem foldl_deleteFile_newFiles (level : Nat) : ∀ (files : List FileMetaData)
    (edit : VersionEdit),
    (files.foldl (fun edit f => edit.deleteFile level f.number) edit).newFiles = edit.newFiles
  | [], _ => rfl
  | f :: files, edit => foldl_deleteFile_newFiles level files (edit.deleteFile level f.number)

theorem foldl_addFile_addedTo {level : Nat} (h : level ≠ 0) : ∀ (outputs : List Output)
    (edit : VersionEdit),
    (outputs.foldl (fun edit out => edit.addFile level
      ⟨out.number, out.fileSize, out.smallest, out.largest⟩) edit).addedTo 0 = edit.addedTo 0
  | [], _ => rfl
  | out :: outputs, edit => by
    rw [List.foldl_cons, foldl_addFile_addedTo h outputs, VersionEdit.addedTo_addFile,
      if_neg h, Nat.add_zero]

/-- The outputs of a compaction go to level 1 or below. -/
theorem CompactionState.installEdit_addedTo {st : CompactionState}
    (h : st.compaction.edit.newFiles = []) : st.installEdit.addedTo 0 = 0 := by
  unfold installEdit
  rw [foldl_addFile_addedTo (Nat.succ_ne_zero _)]
  apply VersionEdit.addedTo_of_nil
  unfold Compaction.addInputDeletions
  dsimp only
  rw [foldl_deleteFile_newFiles, foldl_deleteFile_newFiles, h]

/-! ## Recovery -/

theorem writeLevel0Table_current (vs : VersionSet) (mem : MemTable) (edit : VersionEdit)
    (base : Option Version) (io : TableIO) :
    (writeLevel0Table vs mem edit base io).versions.current = vs.current := by
  rw [writeLevel0Table_versions]

theorem recoverLoop_current (options : Options) (io : Nat → TableIO) :
    ∀ (records : List Bytes) (r : Replay),
      (recoverLoop options io records r).versions.current = r.versions.current
  | [], _ => rfl
  | record :: rest, r => by
    unfold recoverLoop
    split
    · rfl
    · split
      · exact recoverLoop_current options io rest _
      · dsimp only
        split
        · rfl
        · split
          · split
            · rw [recoverLoop_current options io rest]
              exact writeLevel0Table_current _ _ _ _ _
            · exact writeLevel0Table_current _ _ _ _ _
          · exact recoverLoop_current options io rest _

theorem recoverLogFile_current (options : Options) (io : Nat → TableIO) (file : Status)
    (records : List Bytes) (r : Replay) :
    (recoverLogFile options io file records r).versions.current = r.versions.current := by
  unfold recoverLogFile
  split
  · rfl
  · dsimp only
    have hloop := recoverLoop_current options io records { r with status := .ok, mem := none }
    split
    · split
      · exact (writeLevel0Table_current _ _ _ _ _).trans hloop
      · exact hloop
    · exact hloop

theorem VersionSet.markFileNumberUsed_current (vs : VersionSet) (number : Nat) :
    (vs.markFileNumberUsed number).current = vs.current := by
  unfold markFileNumberUsed
  split <;> rfl

/-- Replaying the logs leaves the version alone; its tables are in the edit. -/
theorem Database.replayLogs_current (options : Options) (db : Database) (io : OpenIO)
    (vs : VersionSet) : (db.replayLogs options io vs).versions.current = vs.current := by
  unfold replayLogs
  generalize db.logsToReplay vs = logs
  suffices h : ∀ r : Replay, (logs.foldl (fun r l =>
      let r := recoverLogFile options io.build (io.logFile l.number)
        (l.records.take (io.survive l.number)) r
      { r with versions := r.versions.markFileNumberUsed l.number }) r).versions.current =
        r.versions.current from h _
  induction logs with
  | nil => exact fun _ => rfl
  | cons l logs ih =>
    intro r
    rw [List.foldl_cons, ih]
    dsimp only
    rw [VersionSet.markFileNumberUsed_current, recoverLogFile_current]

/-! ## The bound along a run -/

/-- Level 0 and the memtable that may join it stay below the number of channels. The
rest is what the steps of a compaction need to know about their state. -/
structure Database.Bounded (db : Database) : Prop where
  level0 : db.numLevelFiles 0 + db.imm.toList.length < numChannels
  running : ∀ r, db.running = some r → r.compaction.Chosen (numChannels - 1)
  idle : db.globals.Idle

namespace Database.Bounded

variable {db : Database}

theorem files_le (h : db.Bounded) : (db.versions.current.files 0).length ≤ numChannels - 1 :=
  Nat.le_sub_one_of_lt (lt_of_le_of_lt (Nat.le_add_right _ _) h.level0)

theorem of_contents {db' : Database} (hcontents : db'.contents = db.contents) (h : db.Bounded) :
    db'.Bounded := by
  simp only [contents, Contents.mk.injEq] at hcontents
  obtain ⟨-, himm, hcurrent, -, -, -, hrunning, hglobals⟩ := hcontents
  refine ⟨?_, ?_, ?_⟩
  · rw [numLevelFiles, hcurrent, himm]
    exact h.level0
  · rw [hrunning]
    exact h.running
  · rw [hglobals]
    exact h.idle

/-- The version that `DB::Open` starts with has the recovered level-0 files and a table
for each memtable of the logs. -/
theorem install (h : db.Bounded) (io : OpenIO) {r : Replay}
    (hle : (r.versions.current.files 0).length + r.edit.newFiles.length < numChannels) :
    (db.install io r).Bounded := by
  have hcurrent : (if r.versions.lastSequence < r.maxSequence
      then { r.versions with lastSequence := r.maxSequence } else r.versions).current =
        r.versions.current := by
    split <;> rfl
  unfold Database.install
  dsimp only
  generalize (if r.versions.lastSequence < r.maxSequence
    then { r.versions with lastSequence := r.maxSequence } else r.versions) = vs at hcurrent
  have hversions := { vs with nextFileNumber := vs.nextFileNumber + 1 }.logAndApply_length_le
    { r.edit with logNumber := some vs.nextFileNumber } .ok 0
  have hadded : r.edit.addedTo 0 ≤ r.edit.newFiles.length := List.countP_le_length
  have hfiles : (vs.current.files 0).length + r.edit.addedTo 0 < numChannels := by
    rw [hcurrent]
    exact lt_of_le_of_lt (Nat.add_le_add_left hadded _) hle
  refine of_contents (deleteObsoleteFiles_contents _) ⟨lt_of_le_of_lt hversions hfiles, ?_, ?_⟩
  · rintro r hr
    cases hr
  · show Globals.Idle (if io.sameProcess then db.globals else Globals.init)
    split
    · exact h.idle
    · exact Globals.init_idle

end Database.Bounded

/-- **Few enough level-0 files.** The two kinds of steps that may lead to more of them are
taken while there are fewer than nine, and leave at most nine. -/
def Database.Unhurried (options : Options) (db : Database) : Event → Prop
  | .makeRoom force allowDelay _ =>
    db.room options force allowDelay = .switch → db.numLevelFiles 0 + 1 < numChannels
  | .reopen io => ∀ vs, VersionSet.recover db.manifest = .ok vs →
      (vs.current.files 0).length + (db.replayLogs options io vs).edit.newFiles.length
        < numChannels
  | _ => True

instance (options : Options) (db : Database) :
    ∀ event, Decidable (db.Unhurried options event)
  | .makeRoom _ _ _ => inferInstanceAs (Decidable (_ → _))
  | .reopen io =>
    match h : VersionSet.recover db.manifest with
    | .error _ => isTrue fun vs hvs => by cases h.symm.trans hvs
    | .ok vs => decidable_of_iff
        ((vs.current.files 0).length + (db.replayLogs options io vs).edit.newFiles.length
          < numChannels)
        ⟨fun hlt vs' hvs => by cases h.symm.trans hvs; exact hlt, fun hall => hall vs h⟩
  | .write _ _ _ | .getSnapshot | .releaseSnapshot _ | .seek _ _ | .compactRange _ _ _
  | .compactMemTable _ _ _ | .background _ | .finish _ _ _ => isTrue trivial

namespace Database.Bounded

variable {options : Options} {db db' : Database}

theorem reopen (h : db.Bounded) {io : OpenIO} (hmeets : db.Unhurried options (.reopen io))
    (hstep : db.reopen options io = some db') : db'.Bounded := by
  unfold Database.reopen at hstep
  cases hvs : VersionSet.recover db.manifest with
  | error e =>
    rw [hvs] at hstep
    cases hstep
  | ok vs =>
    rw [hvs] at hstep
    dsimp only at hstep
    split at hstep
    · rw [← Option.some.inj hstep]
      apply h.install
      rw [Database.replayLogs_current]
      exact hmeets vs hvs
    · cases hstep

theorem chosen (h : db.Bounded) {c : Compaction} {vs : VersionSet}
    (hchosen : db.versions.Chooses c vs) : c.Chosen (numChannels - 1) := by
  rcases hchosen with hpick | ⟨level, rangeBegin, rangeEnd, hrange⟩
  · exact (VersionSet.pickCompaction_chosen hpick h.files_le).1
  · exact (VersionSet.compactRange_chosen hrange h.files_le).1

/-- An edit that adds nothing to level 0 leaves the bound. -/
theorem nextVersion (h : db.Bounded) {edit : VersionEdit} (hnone : edit.addedTo 0 = 0) :
    ((db.versions.nextVersion edit).files 0).length + db.imm.toList.length < numChannels := by
  have hle := db.versions.nextVersion_length_le edit 0
  rw [hnone, Nat.add_zero] at hle
  exact lt_of_le_of_lt (Nat.add_le_add_right hle _) h.level0

/-- **One step keeps the bound.** -/
theorem effect (h : db.Bounded) {event : Event} (hmeets : db.Unhurried options event)
    {d : Contents} (heffect : db.Effect options event d) :
    (d.current.files 0).length + d.imm.toList.length < numChannels ∧
      (∀ r, d.running = some r → r.compaction.Chosen (numChannels - 1)) ∧ d.globals.Idle := by
  cases heffect with
  | write => exact ⟨h.level0, h.running, h.idle⟩
  | rotate room => exact ⟨hmeets room, h.running, h.idle⟩
  | idle keeps memory files running =>
    refine ⟨?_, ?_, keeps.globals h.idle⟩
    · rw [files.files, memory.imm]
      exact h.level0
    · rcases running with hsame | hnone
      · rw [hsame]
        exact h.running
      · rw [hnone]
        rintro r hr
        cases hr
  | discard imm_eq keeps files running memory =>
    refine ⟨?_, ?_, keeps.globals h.idle⟩
    · show (Version.files _ 0).length + 0 < numChannels
      rw [files.files]
      exact lt_of_le_of_lt (Nat.le_add_right _ _) h.level0
    · rw [running]
      exact h.running
  | flush imm_eq spans flushes keeps current next stored running memory =>
    refine ⟨?_, ?_, keeps.globals h.idle⟩
    · -- the table takes the room that the switch has left for it
      show (Version.files _ 0).length + 0 < numChannels
      have hlevel0 := h.level0
      rw [imm_eq] at hlevel0
      rw [current]
      refine lt_of_le_of_lt (le_trans (db.versions.nextVersion_length_le _ 0) ?_) hlevel0
      exact Nat.add_le_add_left flushes.addedTo_le _
    · rw [running]
      exact h.running
  | move stopped chosen level inputs0 inputs1 =>
    exact ⟨h.nextVersion (Compaction.moveEdit_addedTo (h.chosen chosen) _), h.running, h.idle⟩
  | start stopped chosen level compaction =>
    refine ⟨h.level0, ?_, h.idle⟩
    rintro r hr
    obtain rfl := Option.some.inj hr
    rw [compaction]
    exact h.chosen chosen
  | install running reads done finished keeps memory current next stored stopped =>
    refine ⟨?_, ?_, keeps.globals h.idle⟩
    · obtain ⟨w, -, rfl⟩ := Option.map_eq_some_iff.mp done
      obtain ⟨-, -, -, hedit⟩ := Compaction.core_eq
        (CompactionJob.conclude_core (db.job _ _ _ _) db.globals w)
      rw [current, memory.imm]
      refine h.nextVersion (CompactionState.installEdit_addedTo ?_)
      rw [hedit]
      exact (h.running _ running).edit
    · rw [stopped]
      rintro r hr
      cases hr

theorem step (h : db.Bounded) {event : Event} (hmeets : db.Unhurried options event)
    (hstep : db.step options event = some db') : db'.Bounded := by
  by_cases hopen : ∃ io, event = .reopen io
  · obtain ⟨io, rfl⟩ := hopen
    exact h.reopen hmeets hstep
  · obtain ⟨hlevel0, hrunning, hidle⟩ := h.effect hmeets
      (step_effect hstep fun io heq => hopen ⟨io, heq⟩)
    exact ⟨hlevel0, hrunning, hidle⟩

theorem created : Database.created.Bounded := by
  refine ⟨by decide, ?_, Globals.init_idle⟩
  rintro r hr
  cases hr

theorem init (options : Options) : (Database.init options).Bounded := by
  unfold Database.init
  cases hopen : Database.created.reopen options OpenIO.working with
  | none => exact created
  | some db =>
    refine created.reopen ?_ hopen
    rintro vs hvs
    obtain rfl := Except.ok.inj hvs
    show 0 + 0 < numChannels
    decide

end Database.Bounded

/-! ## The arrays of `g_arg_t` -/

/-- A call of `DoCompactionWork` keeps to the arrays: there are rows for all channels, it
returns, it takes records from these channels only, and it writes no other row. -/
def CompactionJob.KeepsToArrays (job : CompactionJob) (g : Globals) : Prop :=
  job.nWays ≤ numChannels ∧ ∃ work, doCompactionWork (job.recordCount + 1) g job = some work ∧
    (∀ next ∈ work.merge.nexts, next < numChannels) ∧
    ∀ c, numChannels ≤ c → work.globals.arg.chan c = g.arg.chan c

theorem Compaction.Chosen.keepsToArrays {job : CompactionJob}
    (h : job.compaction.Chosen (numChannels - 1)) {g : Globals} (hidle : g.Idle) :
    job.KeepsToArrays g := by
  have hways : job.nWays ≤ numChannels := h.channels (by decide) job.files
  have hfuel := Nat.lt_succ_self job.recordCount
  obtain ⟨w, out, hwork, hdraws, -, -, -⟩ := doCompactionWork_spec hidle.clean hfuel
  refine ⟨hways, _, hwork, ?_, ?_⟩
  · rw [CompactionJob.conclude_merge]
    exact fun next hnext => lt_of_lt_of_le (hdraws.picks_lt next hnext) hways
  · intro c hc
    rw [CompactionJob.conclude_globals]
    obtain ⟨w', hmerge, hw'⟩ := Option.map_eq_some_iff.mp hwork
    obtain rfl : w' = w := by
      have hsame := congrArg Work.merge hw'
      rwa [CompactionJob.conclude_merge, CompactionJob.conclude_merge] at hsame
    exact onecEnclCompact_beyond hidle.clean hfuel hmerge (le_trans hways hc)

/-- **Channel arrays are not overrun in unhurried runs.** In every state that such a run
reaches, a compaction chosen by `PickCompaction` or `CompactRange` keeps to the ten rows of
`g_arg_t`, whatever its tables hold. -/
theorem channels_never_overrun {options : Options} {events : List Event} {db : Database}
    (hrun : runs (Database.step options) (Database.init options) events = some db)
    (hmeets : RunMeets (Database.step options) (Database.Unhurried options)
      (Database.init options) events) {job : CompactionJob} {vs : VersionSet}
    (hchosen : db.versions.pickCompaction = some (job.compaction, vs) ∨
      ∃ level rangeBegin rangeEnd,
        db.versions.compactRange level rangeBegin rangeEnd = some (job.compaction, vs)) :
    job.KeepsToArrays db.globals := by
  have hbounded : db.Bounded := RunMeets.invariant
    (fun _ _ _ h hmeets hstep => Database.Bounded.step h hmeets hstep)
    (Database.Bounded.init options) hmeets hrun
  rcases hchosen with hpick | ⟨level, rangeBegin, rangeEnd, hrange⟩
  · exact (VersionSet.pickCompaction_chosen hpick hbounded.files_le).1.keepsToArrays
      hbounded.idle
  · exact (VersionSet.compactRange_chosen hrange hbounded.files_le).1.keepsToArrays
      hbounded.idle

/-! ## Runs -/

/-- Memtables of 4 MB. -/
def defaultOptions : Options := ⟨4194304, false, fun mem => 100 * mem.length⟩

/-- Write a batch, make the memtable immutable, flush it. The switch is the one that a write
of a null batch forces, as `TEST_CompactMemTable` does. -/
def writeAndFlush (updates : WriteBatch) : List Event :=
  [.write updates false ⟨.ok, .ok⟩,
    .makeRoom true false .ok,
    .compactMemTable ⟨.ok, 4096⟩ false ⟨.ok, true⟩]

/-- Put one key and flush it. -/
def putAndFlush : List Event := writeAndFlush (WriteBatch.clear.put [107] [1])

/-- Six of them leave tables at levels 2 and 1 and four at level 0, which `PickCompaction`
chooses with the one at level 1: five channels. -/
theorem channels_never_overrun_sixFlushes :
    ∃ db c vs, runs (Database.step defaultOptions) (Database.init defaultOptions)
        (List.replicate 6 putAndFlush).flatten = some db ∧
      db.versions.pickCompaction = some (c, vs) ∧ c.inputs0.length = 4 ∧ c.inputs1.length = 1 ∧
      ∀ job : CompactionJob, job.compaction = c → job.KeepsToArrays db.globals := by
  have hmeets : RunMeets (Database.step defaultOptions) (Database.Unhurried defaultOptions)
      (Database.init defaultOptions) (List.replicate 6 putAndFlush).flatten := by
    decide +kernel
  have heval : ((runs (Database.step defaultOptions) (Database.init defaultOptions)
      (List.replicate 6 putAndFlush).flatten).bind fun db => db.versions.pickCompaction.map fun p =>
        (p.1.inputs0.length, p.1.inputs1.length)) = some (4, 1) := by
    decide +kernel
  obtain ⟨db, hdb, hpick⟩ := Option.bind_eq_some_iff.mp heval
  obtain ⟨⟨c, vs⟩, hc, hlength⟩ := Option.map_eq_some_iff.mp hpick
  obtain ⟨h0, h1⟩ := Prod.mk.inj hlength
  refine ⟨db, c, vs, hdb, hc, h0, h1, ?_⟩
  rintro job rfl
  exact channels_never_overrun hdb hmeets (Or.inl hc)

/-- The keys that the second flush of `busyStart` writes, in order. -/
def busyKeys : List Bytes := (List.range 12).map fun i => [107 + UInt8.ofNat i]

/-- Two flushes leave a table with one entry at level 2 and one with twelve at level 1, and a
manual compaction of level 1 starts. -/
def busyStart : List Event :=
  putAndFlush ++ writeAndFlush (busyKeys.foldl (fun b key => b.put key [1]) WriteBatch.clear) ++
    [.compactRange 1 none none, .background ⟨.ok, true⟩]

/-- The tables of the compaction: the entries have the sequence numbers 1 and 2 to 13. -/
def busyFiles : Files :=
  Files.working fun f =>
    if f.number = 5 then ⟨[⟨appendInternalKey ⟨[107], 1, .kTypeValue⟩, [1]⟩], .ok⟩
    else ⟨busyKeys.mapIdx fun i key => ⟨appendInternalKey ⟨key, i + 2, .kTypeValue⟩, [1]⟩, .ok⟩

/-- While the compaction runs, twelve more memtables are flushed to level 0. -/
def busyRun : List Event :=
  busyStart ++ (List.replicate 12 putAndFlush).flatten ++ [.finish busyFiles false ⟨.ok, true⟩]

/-- **An overrun.** `SU_flush_data` may flush a memtable for each record that is merged, and the
compaction that runs during the twelve flushes has thirteen. At the end of the run
`PickCompaction` chooses twelve level-0 files. -/
theorem busyRun_overruns :
    (∃ db r, runs (Database.step defaultOptions) (Database.init defaultOptions) busyStart
        = some db ∧ db.running = some r ∧
      (db.job r busyFiles false ⟨.ok, true⟩).recordCount = 13) ∧
    ∃ db c vs, runs (Database.step defaultOptions) (Database.init defaultOptions) busyRun
        = some db ∧
      db.versions.pickCompaction = some (c, vs) ∧
      ∀ files, (c.suPrepareInputs files).length = 12 := by
  constructor
  · have hstart : ((runs (Database.step defaultOptions) (Database.init defaultOptions)
        busyStart).bind fun db => db.running.map fun r =>
          (db.job r busyFiles false ⟨.ok, true⟩).recordCount) = some 13 := by
      decide +kernel
    obtain ⟨db, hdb, hrunning⟩ := Option.bind_eq_some_iff.mp hstart
    obtain ⟨r, hr, hcount⟩ := Option.map_eq_some_iff.mp hrunning
    exact ⟨db, r, hdb, hr, hcount⟩
  · have heval : ((runs (Database.step defaultOptions) (Database.init defaultOptions)
        busyRun).bind fun db => db.versions.pickCompaction.map fun p =>
          (p.1.level, p.1.inputs0.length, p.1.inputs1.isEmpty)) = some (0, 12, true) := by
      decide +kernel
    obtain ⟨db, hdb, hpick⟩ := Option.bind_eq_some_iff.mp heval
    obtain ⟨⟨c, vs⟩, hc, heq⟩ := Option.map_eq_some_iff.mp hpick
    simp only [Prod.mk.injEq] at heq
    obtain ⟨hlevel, hinputs0, hinputs1⟩ := heq
    refine ⟨db, c, vs, hdb, hc, fun files => ?_⟩
    have hne : c.inputs0.isEmpty = false := by
      cases h : c.inputs0 with
      | nil =>
        rw [h] at hinputs0
        cases hinputs0
      | cons f rest => rfl
    simp [Compaction.suPrepareInputs, prepareLevel, hlevel, hinputs1, hne, hinputs0]

end Lpad
