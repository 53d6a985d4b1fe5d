import Lpad.DB.ChannelBound
import Lpad.DB.DatabaseEffects

/-!
# Levels stay sorted and disjoint

From level 1 on the files of every version are meant to lie in a row; `FindFile`
searches them by bisection. Three kinds of edits change a level: the table of a
flushed memtable, a file moved down as it is, and the outputs of a compaction in
place of its inputs.

The outputs of a compaction may lie anywhere between the smallest and the largest
key of its inputs. When it is chosen, no other file of the output level is in that
range (`Compaction.Sound`). But while it runs, `CompactMemTable` places a memtable
by the files there are, and a memtable in a gap between two inputs overlaps none of
them. It may then land on the output level, inside the range.
-/

namespace Lpad

/-! ## Versions -/

/-- The files below level 0 lie in a row, all files are proper, and a file that has used
up its seeks is one of the version. -/
structure Version.Ordered (v : Version) : Prop where
  row : ∀ level, 0 < level → FilesInRow (v.files level)
  proper : ∀ level, FilesProper (v.files level)
  seek : ∀ f level, v.fileToCompact = some (f, level) → f ∈ v.files level

/-- An edit whose new files are apart from each other and from what stays. -/
structure Version.Accepts (v : Version) (edit : VersionEdit) : Prop where
  fresh : edit.Fresh
  proper : ∀ level, FilesProper (edit.filesFor level)
  new : ∀ level, 0 < level → (edit.filesFor level).Pairwise FilesApart
  apart : ∀ level, 0 < level → ∀ f ∈ v.files level, (level, f.number) ∉ edit.deletedFiles →
    ∀ g ∈ edit.filesFor level, FilesApart f g

theorem Version.empty_ordered : Version.empty.Ordered where
  row := fun _ _ => List.Pairwise.nil
  proper := fun _ _ hf => by cases hf
  seek := fun _ _ h => by cases h

theorem Version.Ordered.nextVersion {vs : VersionSet} (h : vs.current.Ordered)
    {edit : VersionEdit} (hedit : vs.current.Accepts edit) : (vs.nextVersion edit).Ordered where
  row := fun level hlevel => VersionSet.nextVersion_inRow hedit.fresh (h.row level hlevel)
    (h.proper level) (hedit.proper level) (hedit.new level hlevel) (hedit.apart level hlevel)
  proper := by
    intro level f hf
    rcases VersionSet.mem_nextVersion hedit.fresh hf with hf | ⟨hf, -⟩
    · exact hedit.proper level f hf
    · exact h.proper level f hf
  seek := fun _ _ h => by cases h

/-! ## Flushed memtables -/

theorem VersionEdit.filesFor_single {edit : VersionEdit} {level : Nat} {f : FileMetaData}
    (h : edit.newFiles = [(level, f)]) (level' : Nat) :
    edit.filesFor level' = if level = level' then [f] else [] := by
  unfold filesFor
  rw [h]
  by_cases hl : level = level'
  · simp [hl]
  · simp [hl]

/-- A memtable that goes below level 0 meets no file down to its level. -/
theorem Version.Ordered.not_meets {v : Version} (h : v.Ordered) {mem : MemTable}
    {first last : Record} (hspans : mem.Spans first last) {level : Nat}
    (hlevel : v.pickLevelForMemTableOutput (extractUserKey first.key)
      (extractUserKey last.key) = level) (hpos : 0 < level) {j : Nat} (hj : j ≤ level) :
    ∀ f ∈ v.files j, keyRank last.key < f.lo ∨ f.hi < keyRank first.key := by
  intro f hf
  have hclear : v.overlapInLevel j (some (extractUserKey first.key))
      (some (extractUserKey last.key)) = false := by
    subst hlevel
    exact Version.pickLevel_clear hpos hj
  rcases Version.overlapInLevel_eq_false (h.row j) (h.proper j) hclear f hf with hlt | hlt
  · exact Or.inr (lt_of_lt_of_le hlt hspans.seek_le)
  · exact Or.inl (keyRank_lt_of_userKey_lt hlt)

theorem VersionEdit.Flushes.fresh {edit : VersionEdit} {v : Version} {number level : Nat}
    {first last : Record} (h : edit.Flushes v number first last level) : edit.Fresh := by
  intro n _
  rw [h.deleted]
  exact List.not_mem_nil

theorem VersionEdit.Flushes.mem_filesFor {edit : VersionEdit} {v : Version}
    {number level level' : Nat} {first last : Record}
    (h : edit.Flushes v number first last level) {f : FileMetaData}
    (hf : f ∈ edit.filesFor level') :
    level = level' ∧ f.number = number ∧ f.smallest = first.key ∧ f.largest = last.key := by
  obtain ⟨size, hnew⟩ := h.added
  rw [edit.filesFor_single hnew] at hf
  split at hf
  · rename_i hl
    rw [List.mem_singleton.mp hf]
    exact ⟨hl, rfl, rfl, rfl⟩
  · cases hf

theorem Version.Ordered.accepts_flush {v : Version} (h : v.Ordered) {mem : MemTable}
    {first last : Record} (hspans : mem.Spans first last) {edit : VersionEdit}
    {number level : Nat} (hedit : edit.Flushes v number first last level) : v.Accepts edit where
  fresh := hedit.fresh
  proper := by
    intro level' f hf
    obtain ⟨-, -, hlo, hhi⟩ := hedit.mem_filesFor hf
    show keyRank f.smallest ≤ keyRank f.largest
    rw [hlo, hhi]
    exact hspans.le
  new := by
    intro level' _
    obtain ⟨size, hnew⟩ := hedit.added
    rw [edit.filesFor_single hnew]
    split
    · exact List.pairwise_singleton _ _
    · exact List.Pairwise.nil
  apart := by
    intro level' hpos f hf _ g hg
    obtain ⟨rfl, -, hlo, hhi⟩ := hedit.mem_filesFor hg
    rcases h.not_meets hspans hedit.level hpos (Nat.le_refl _) f hf with hlt | hlt
    · right
      show keyRank g.largest < f.lo
      rw [hhi]
      exact hlt
    · left
      show f.hi < keyRank g.smallest
      rw [hlo]
      exact hlt

/-! ## Chosen compactions -/

/-- `g` lies on one side of all inputs. -/
def Compaction.Outside (c : Compaction) (lo hi : KeyRank) : Prop :=
  (∀ f ∈ c.inputs0 ++ c.inputs1, hi < f.lo) ∨ (∀ f ∈ c.inputs0 ++ c.inputs1, f.hi < lo)

/-- **A compaction and the current version**: its inputs are files of the version, and
the other files of the output level lie on one side of all of them. -/
structure Compaction.Sound (c : Compaction) (v : Version) : Prop where
  inputs0 : ∀ f ∈ c.inputs0, f ∈ v.files c.level
  inputs1 : ∀ f ∈ c.inputs1, f ∈ v.files (c.level + 1)
  outside : ∀ g ∈ v.files (c.level + 1), g ∉ c.inputs1 → c.Outside g.lo g.hi
  newFiles : c.edit.newFiles = []
  deletedFiles : c.edit.deletedFiles = []

theorem VersionSet.setupOtherInputs_sound {vs : VersionSet} (h : vs.current.Ordered)
    {level : Nat} {inputs0 : List FileMetaData} (hmem : ∀ f ∈ inputs0, f ∈ vs.current.files level) :
    (vs.setupOtherInputs (Compaction.new level vs.current inputs0)).1.Sound vs.current := by
  have hclosed := vs.current.growInputs_closed level inputs0
  constructor
  case inputs0 =>
    show ∀ f ∈ (vs.current.growInputs level inputs0).1, f ∈ vs.current.files level
    rcases vs.current.growInputs_fst level inputs0 with heq | hsub
    · rw [heq]
      exact hmem
    · exact fun f hf => hsub.subset hf
  case inputs1 => exact fun f hf => ((hclosed.mem f).mp hf).1
  case outside =>
    intro g hg hnot
    exact hclosed.outside (h.row (level + 1) (Nat.succ_pos level)) (h.proper (level + 1)) hg hnot
  case newFiles => rfl
  case deletedFiles => rfl

theorem VersionSet.firstInput_sublist (vs : VersionSet) (level : Nat) :
    (vs.firstInput level).Sublist (vs.current.files level) := by
  unfold firstInput
  dsimp only
  split
  · rename_i f hfind
    exact List.singleton_sublist.mpr (List.mem_of_find?_eq_some hfind)
  · exact List.take_sublist 1 _

theorem takeUpTo_sublist (limit : Nat) : ∀ (total : Nat) (files : List FileMetaData),
    (takeUpTo limit total files).Sublist files
  | _, [] => List.Sublist.refl _
  | total, f :: rest => by
    unfold takeUpTo
    split
    · exact (List.nil_sublist rest).cons_cons f
    · exact (takeUpTo_sublist limit _ rest).cons_cons f

theorem VersionSet.pickStart_sublist {vs : VersionSet} (hordered : vs.current.Ordered)
    {level : Nat} {inputs0 : List FileMetaData} (h : vs.pickStart = some (level, inputs0)) :
    inputs0.Sublist (vs.current.files level) := by
  unfold pickStart at h
  split at h
  · obtain ⟨rfl, rfl⟩ := Prod.mk.inj (Option.some.inj h)
    exact vs.firstInput_sublist _
  · obtain ⟨⟨f, lvl⟩, hseek, heq⟩ := Option.map_eq_some_iff.mp h
    obtain ⟨rfl, rfl⟩ := Prod.mk.inj heq
    exact List.singleton_sublist.mpr (hordered.seek f lvl hseek)

/-- **How a compaction is chosen**: `SetupOtherInputs` on some files of a level, in their
order. On level 0 these are closed. -/
theorem VersionSet.Chooses.inputs {vs vs' : VersionSet} {c : Compaction} (h : vs.Chooses c vs')
    (hordered : vs.current.Ordered) : ∃ level inputs0,
      inputs0.Sublist (vs.current.files level) ∧
      (level = 0 → ∀ g ∈ vs.current.files 0, g ∉ inputs0 → ∀ f ∈ inputs0, KeysApart g f) ∧
      c = (vs.setupOtherInputs (Compaction.new level vs.current inputs0)).1 := by
  rcases h with hpick | ⟨level, rangeBegin, rangeEnd, hrange⟩
  · obtain ⟨⟨level, inputs0⟩, hstart, heq⟩ := Option.map_eq_some_iff.mp hpick
    refine ⟨level, _, ?_, ?_, (Prod.mk.inj heq).1.symm⟩
    · split
      · rename_i hzero
        subst hzero
        exact vs.current.getOverlappingInputs_sublist 0 _ _
      · exact pickStart_sublist hordered hstart
    · rintro rfl g hg hnot f hf
      rw [if_pos rfl] at hnot hf
      exact Version.getOverlappingInputs_zero hg hnot hf
  · unfold VersionSet.compactRange at hrange
    dsimp only at hrange
    split at hrange
    · cases hrange
    · refine ⟨level, _, ?_, ?_, (Prod.mk.inj (Option.some.inj hrange)).1.symm⟩
      · have hsub := vs.current.getOverlappingInputs_sublist level rangeBegin rangeEnd
        split
        · exact (takeUpTo_sublist _ _ _).trans hsub
        · exact hsub
      · rintro rfl g hg hnot f hf
        rw [if_neg (Nat.lt_irrefl 0)] at hnot hf
        exact Version.getOverlappingInputs_zero hg hnot hf

theorem VersionSet.Chooses.sound {vs vs' : VersionSet} {c : Compaction} (h : vs.Chooses c vs')
    (hordered : vs.current.Ordered) : c.Sound vs.current := by
  obtain ⟨level, inputs0, hsub, -, rfl⟩ := h.inputs hordered
  exact setupOtherInputs_sound hordered fun f hf => hsub.subset hf

/-! ## The edits of compactions -/

/-- The file that `InstallCompactionResults` adds for an output. -/
def Output.file (out : Output) : FileMetaData :=
  ⟨out.number, out.fileSize, out.smallest, out.largest⟩

/-- Outputs as a merge of the inputs yields them: in a row, and between the smallest and
the largest key of the inputs. -/
structure Compaction.Yields (c : Compaction) (outputs : List Output) : Prop where
  row : FilesInRow (outputs.map Output.file)
  proper : FilesProper (outputs.map Output.file)
  lower : ∀ out ∈ outputs, ∃ f ∈ c.inputs0 ++ c.inputs1, f.lo ≤ out.file.lo
  upper : ∀ out ∈ outputs, ∃ f ∈ c.inputs0 ++ c.inputs1, out.file.hi ≤ f.hi

instance (c : Compaction) (outputs : List Output) : Decidable (c.Yields outputs) :=
  decidable_of_iff (FilesInRow (outputs.map Output.file) ∧ FilesProper (outputs.map Output.file) ∧
      (∀ out ∈ outputs, ∃ f ∈ c.inputs0 ++ c.inputs1, f.lo ≤ out.file.lo) ∧
      ∀ out ∈ outputs, ∃ f ∈ c.inputs0 ++ c.inputs1, out.file.hi ≤ f.hi)
    ⟨fun h => ⟨h.1, h.2.1, h.2.2.1, h.2.2.2⟩, fun h => ⟨h.row, h.proper, h.lower, h.upper⟩⟩

/-- A file on one side of all inputs is apart from every output. -/
theorem Compaction.Yields.apart {c : Compaction} {outputs : List Output} (h : c.Yields outputs)
    {f : FileMetaData} (hf : c.Outside f.lo f.hi) {out : Output} (hout : out ∈ outputs) :
    FilesApart f out.file := by
  rcases hf with hbefore | hafter
  · obtain ⟨g, hg, hle⟩ := h.lower out hout
    exact Or.inl (lt_of_lt_of_le (hbefore g hg) hle)
  · obtain ⟨g, hg, hle⟩ := h.upper out hout
    exact Or.inr (lt_of_le_of_lt hle (hafter g hg))

theorem foldl_deleteFile_deletedFiles (level : Nat) {d : Nat × Nat} :
    ∀ (files : List FileMetaData) (edit : VersionEdit),
      d ∈ (files.foldl (fun edit f => edit.deleteFile level f.number) edit).deletedFiles ↔
        d ∈ edit.deletedFiles ∨ ∃ f ∈ files, d = (level, f.number)
  | [], edit => by simp
  | f :: files, edit => by
    rw [List.foldl_cons, foldl_deleteFile_deletedFiles level files, VersionEdit.deleteFile,
      List.mem_insert_iff]
    simp only [List.exists_mem_cons_iff]
    rw [or_comm (a := d = (level, f.number)), or_assoc]

theorem Compaction.mem_addInputDeletions {c : Compaction} {edit : VersionEdit} {d : Nat × Nat} :
    d ∈ (c.addInputDeletions edit).deletedFiles ↔ d ∈ edit.deletedFiles ∨
      (∃ f ∈ c.inputs0, d = (c.level, f.number)) ∨
        ∃ f ∈ c.inputs1, d = (c.level + 1, f.number) := by
  unfold addInputDeletions
  dsimp only
  rw [foldl_deleteFile_deletedFiles, foldl_deleteFile_deletedFiles, or_assoc]

theorem foldl_addFile_newFiles (level : Nat) : ∀ (outputs : List Output) (edit : VersionEdit),
    (outputs.foldl (fun edit out => edit.addFile level
      ⟨out.number, out.fileSize, out.smallest, out.largest⟩) edit).newFiles =
        edit.newFiles ++ outputs.map (fun out => (level, out.file))
  | [], edit => by simp
  | out :: outputs, edit => by
    rw [List.foldl_cons, foldl_addFile_newFiles level outputs]
    simp [VersionEdit.addFile, Output.file]

theorem foldl_addFile_deletedFiles (level : Nat) : ∀ (outputs : List Output) (edit : VersionEdit),
    (outputs.foldl (fun edit out => edit.addFile level
      ⟨out.number, out.fileSize, out.smallest, out.largest⟩) edit).deletedFiles =
        edit.deletedFiles
  | [], _ => rfl
  | out :: outputs, edit => by
    rw [List.foldl_cons, foldl_addFile_deletedFiles level outputs]
    rfl

/-- An edit that replaces the inputs of a compaction by some files of the next level. -/
structure VersionEdit.Replaces (edit : VersionEdit) (c : Compaction)
    (outputs : List FileMetaData) : Prop where
  newFiles : edit.newFiles = outputs.map fun f => (c.level + 1, f)
  deletedFiles : ∀ d, d ∈ edit.deletedFiles ↔
    (∃ f ∈ c.inputs0, d = (c.level, f.number)) ∨ ∃ f ∈ c.inputs1, d = (c.level + 1, f.number)

theorem VersionEdit.Replaces.filesFor {edit : VersionEdit} {c : Compaction}
    {outputs : List FileMetaData} (h : edit.Replaces c outputs) (level : Nat) :
    edit.filesFor level = if level = c.level + 1 then outputs else [] := by
  unfold VersionEdit.filesFor
  rw [h.newFiles]
  split
  · rename_i heq
    subst heq
    rw [List.filter_eq_self.mpr (by simp)]
    simp [Function.comp_def]
  · rename_i hne
    rw [List.filter_eq_nil_iff.mpr (by simp [Ne.symm hne])]
    rfl

theorem VersionEdit.Replaces.fresh {edit : VersionEdit} {c : Compaction}
    {outputs : List FileMetaData} (h : edit.Replaces c outputs)
    (hne : ∀ out ∈ outputs, ∀ f ∈ c.inputs1, out.number ≠ f.number) : edit.Fresh := by
  intro n hn hdel
  rw [h.newFiles] at hn
  obtain ⟨out, hout, rfl⟩ := List.mem_map.mp hn
  rcases (h.deletedFiles _).mp hdel with ⟨f, -, heq⟩ | ⟨f, hf, heq⟩
  · exact Nat.succ_ne_self c.level (Prod.mk.inj heq).1
  · exact hne out hout f hf (Prod.mk.inj heq).2

/-- **Replacing the inputs by files of their range** is accepted by the version. -/
theorem Compaction.Sound.accepts {c : Compaction} {v : Version} (h : c.Sound v)
    {outputs : List FileMetaData} {edit : VersionEdit} (hedit : edit.Replaces c outputs)
    (hrow : FilesInRow outputs) (hproper : FilesProper outputs)
    (hfresh : ∀ out ∈ outputs, ∀ f ∈ c.inputs1, out.number ≠ f.number)
    (hrange : ∀ g, c.Outside g.lo g.hi → ∀ out ∈ outputs, FilesApart g out) :
    v.Accepts edit where
  fresh := hedit.fresh hfresh
  proper := by
    intro level f hf
    rw [hedit.filesFor] at hf
    split at hf
    · exact hproper f hf
    · cases hf
  new := by
    intro level _
    rw [hedit.filesFor]
    split
    · exact List.Pairwise.imp (fun hlt => Or.inl hlt) hrow
    · exact List.Pairwise.nil
  apart := by
    intro level _ f hf hnot g hg
    rw [hedit.filesFor] at hg
    split at hg
    · rename_i heq
      subst heq
      refine hrange f (h.outside f hf ?_) g hg
      intro hmem
      exact hnot ((hedit.deletedFiles _).mpr (Or.inr ⟨f, hmem, rfl⟩))
    · cases hg

/-- A trivial move replaces its one input by the same file. -/
theorem Compaction.Sound.moveEdit_replaces {c : Compaction} {v : Version} (h : c.Sound v)
    {f : FileMetaData} (hinputs0 : c.inputs0 = [f]) (hinputs1 : c.inputs1 = []) :
    (c.moveEdit f).Replaces c [f] where
  newFiles := by
    show c.edit.newFiles ++ [(c.level + 1, f)] = _
    rw [h.newFiles]
    rfl
  deletedFiles := by
    intro d
    show d ∈ c.edit.deletedFiles.insert (c.level, f.number) ↔ _
    rw [h.deletedFiles, hinputs0, hinputs1]
    simp

/-- The edit of `InstallCompactionResults`. -/
theorem CompactionState.installEdit_replaces {st : CompactionState} {c : Compaction}
    {v : Version} (h : c.Sound v) (hcore : st.compaction.core = c.core) :
    st.installEdit.Replaces c (st.outputs.map Output.file) := by
  obtain ⟨hlevel, hinputs0, hinputs1, hedit⟩ := Compaction.core_eq hcore
  constructor
  case newFiles =>
    unfold installEdit
    rw [foldl_addFile_newFiles, Compaction.addInputDeletions, foldl_deleteFile_newFiles,
      foldl_deleteFile_newFiles, hedit, h.newFiles, hlevel]
    simp
  case deletedFiles =>
    intro d
    unfold installEdit
    rw [foldl_addFile_deletedFiles, Compaction.mem_addInputDeletions, hedit, h.deletedFiles,
      hlevel, hinputs0, hinputs1]
    simp

/-! ## The levels along a run -/

/-- A memtable of the given range overlaps no file down to the given level. -/
def Version.ClearFor (v : Version) (level : Nat) (lo hi : KeyRank) : Prop :=
  ∀ j ≤ level, ∀ f ∈ v.files j, ¬ Meets FileMetaData.lo FileMetaData.hi f lo hi

/-- **No flush into a gap.** A memtable that is flushed while a compaction runs, and that
overlaps no file down to the output level, lies on one side of all inputs. Below level 2
nothing is flushed. -/
def Database.GapFree (db : Database) : Event → Prop
  | .compactMemTable _ _ _ => ∀ imm r first last, db.imm = some imm → db.running = some r →
      imm.Spans first last → r.compaction.level + 1 ≤ kMaxMemCompactLevel →
      db.versions.current.ClearFor (r.compaction.level + 1) (keyRank first.key)
        (keyRank last.key) →
      r.compaction.Outside (keyRank first.key) (keyRank last.key)
  | _ => True

/-- The outputs of a compaction that succeeds are sorted, disjoint and in the range of its
inputs. -/
def Database.OutputsInRange (db : Database) : Event → Prop
  | .finish files shuttingDown manifest => ∀ r work, db.running = some r →
      db.Reads r.compaction files →
      doCompactionWork ((db.job r files shuttingDown manifest).recordCount + 1) db.globals
        (db.job r files shuttingDown manifest) = some work →
      (work.compact.complete (db.job r files shuttingDown manifest)).1.isOk = true →
      r.compaction.Yields (work.compact.complete (db.job r files shuttingDown manifest)).2.outputs
  | _ => True

instance (db : Database) : ∀ event : Event, Decidable (db.OutputsInRange event)
  | .finish files shuttingDown manifest =>
    decidable_of_iff (∀ r ∈ db.running, db.Reads r.compaction files →
      ∀ work ∈ doCompactionWork ((db.job r files shuttingDown manifest).recordCount + 1)
        db.globals (db.job r files shuttingDown manifest),
      (work.compact.complete (db.job r files shuttingDown manifest)).1.isOk = true →
      r.compaction.Yields
        (work.compact.complete (db.job r files shuttingDown manifest)).2.outputs)
      ⟨fun h r work hr hreads hwork => h r hr hreads work hwork,
        fun h r hr hreads work hwork => h r work hr hreads hwork⟩
  | .write _ _ _ | .makeRoom _ _ _ | .getSnapshot | .releaseSnapshot _ | .seek _ _
  | .compactRange _ _ _ | .compactMemTable _ _ _ | .background _ | .reopen _ => isTrue trivial

/-- What the steps need to know: the version is ordered, file numbers are below the next
one, and the running compaction fits the version. -/
structure Contents.LevelsOrdered (d : Contents) : Prop where
  ordered : d.current.Ordered
  below : ∀ level, ∀ f ∈ d.current.files level, f.number < d.nextFileNumber
  running : ∀ r, d.running = some r → r.compaction.Sound d.current

theorem Version.Ordered.sameFiles {v v' : Version} (h : v.Ordered) (hfiles : v'.files = v.files)
    (hseek : ∀ f level, v'.fileToCompact = some (f, level) →
      v.fileToCompact = some (f, level) ∨ f ∈ v.files level) : v'.Ordered where
  row := by
    rw [hfiles]
    exact h.row
  proper := by
    rw [hfiles]
    exact h.proper
  seek := by
    intro f level hnow
    rw [hfiles]
    rcases hseek f level hnow with hold | hmem
    · exact h.seek f level hold
    · exact hmem

theorem Compaction.Sound.sameFiles {c : Compaction} {v v' : Version} (h : c.Sound v)
    (hfiles : v'.files = v.files) : c.Sound v' where
  inputs0 := by
    rw [hfiles]
    exact h.inputs0
  inputs1 := by
    rw [hfiles]
    exact h.inputs1
  outside := by
    rw [hfiles]
    exact h.outside
  newFiles := h.newFiles
  deletedFiles := h.deletedFiles

/-- A flush that is not into a gap leaves the running compaction sound. -/
theorem Compaction.Sound.flush {vs : VersionSet} {c : Compaction} (h : c.Sound vs.current)
    (hordered : vs.current.Ordered) {mem : MemTable} {first last : Record}
    (hspans : mem.Spans first last) {edit : VersionEdit} {number level : Nat}
    (hedit : edit.Flushes vs.current number first last level)
    (hgap : c.level + 1 ≤ kMaxMemCompactLevel →
      vs.current.ClearFor (c.level + 1) (keyRank first.key) (keyRank last.key) →
      c.Outside (keyRank first.key) (keyRank last.key)) : c.Sound (vs.nextVersion edit) where
  inputs0 := by
    intro f hf
    refine VersionSet.nextVersion_keeps hedit.fresh (h.inputs0 f hf) ?_
    rw [hedit.deleted]
    exact List.not_mem_nil
  inputs1 := by
    intro f hf
    refine VersionSet.nextVersion_keeps hedit.fresh (h.inputs1 f hf) ?_
    rw [hedit.deleted]
    exact List.not_mem_nil
  outside := by
    intro g hg hnot
    rcases VersionSet.mem_nextVersion hedit.fresh hg with hnew | ⟨hold, -⟩
    · -- the new table is at the output level, so nothing down to it overlaps the memtable
      obtain ⟨rfl, -, hlo, hhi⟩ := hedit.mem_filesFor hnew
      have hclear : vs.current.ClearFor (c.level + 1) (keyRank first.key) (keyRank last.key) := by
        intro j hj f hf
        rw [not_meets_iff]
        exact hordered.not_meets hspans hedit.level (Nat.succ_pos _) hj f hf
      have hmax : c.level + 1 ≤ kMaxMemCompactLevel := by
        rw [← hedit.level]
        exact Version.pickLevel_le
      show c.Outside (keyRank g.smallest) (keyRank g.largest)
      rw [hlo, hhi]
      exact hgap hmax hclear
    · exact h.outside g hold hnot
  newFiles := h.newFiles
  deletedFiles := h.deletedFiles

namespace Contents.LevelsOrdered

variable {options : Options} {db : Database}

theorem flush (h : db.contents.LevelsOrdered) {d : Contents} {mem : MemTable}
    {first last : Record} (hspans : mem.Spans first last) {edit : VersionEdit} {level : Nat}
    (hedit : edit.Flushes db.versions.current db.versions.nextFileNumber first last level)
    (hcurrent : d.current = db.versions.nextVersion edit)
    (hnext : db.versions.nextFileNumber < d.nextFileNumber) (hrunning : d.running = db.running)
    (hgap : ∀ r, db.running = some r → r.compaction.level + 1 ≤ kMaxMemCompactLevel →
      db.versions.current.ClearFor (r.compaction.level + 1) (keyRank first.key)
        (keyRank last.key) →
      r.compaction.Outside (keyRank first.key) (keyRank last.key)) : d.LevelsOrdered where
  ordered := by
    rw [hcurrent]
    exact h.ordered.nextVersion (h.ordered.accepts_flush hspans hedit)
  below := by
    intro level' f hf
    rw [hcurrent] at hf
    rcases VersionSet.mem_nextVersion hedit.fresh hf with hnew | ⟨hold, -⟩
    · obtain ⟨-, hnumber, -⟩ := hedit.mem_filesFor hnew
      rw [hnumber]
      exact hnext
    · exact lt_trans (h.below level' f hold) hnext
  running := by
    intro r hr
    rw [hrunning] at hr
    rw [hcurrent]
    exact (h.running r hr).flush h.ordered hspans hedit (hgap r hr)

/-- A move or an installation: an edit that replaces the inputs of a compaction. -/
theorem replace (h : db.contents.LevelsOrdered) {d : Contents} {c : Compaction}
    {edit : VersionEdit} {outputs : List FileMetaData}
    (hedit : edit.Replaces c outputs) (haccepts : db.versions.current.Accepts edit)
    (hcurrent : d.current = db.versions.nextVersion edit)
    (hnext : db.versions.nextFileNumber ≤ d.nextFileNumber)
    (hnumbers : ∀ out ∈ outputs, out.number < d.nextFileNumber) (hrunning : d.running = none) :
    d.LevelsOrdered where
  ordered := by
    rw [hcurrent]
    exact h.ordered.nextVersion haccepts
  below := by
    intro level f hf
    rw [hcurrent] at hf
    rcases VersionSet.mem_nextVersion haccepts.fresh hf with hnew | ⟨hold, -⟩
    · rw [hedit.filesFor] at hnew
      split at hnew
      · exact hnumbers f hnew
      · cases hnew
    · exact lt_of_lt_of_le (h.below level f hold) hnext
  running := by
    intro r hr
    rw [hrunning] at hr
    cases hr

theorem move (h : db.contents.LevelsOrdered) {c : Compaction}
    (hsound : c.Sound db.versions.current) {f : FileMetaData} (hinputs0 : c.inputs0 = [f])
    (hinputs1 : c.inputs1 = []) (hstopped : db.running = none) :
    Contents.LevelsOrdered { db.contents with
      current := db.versions.nextVersion (c.moveEdit f) } := by
  have hf : f ∈ db.versions.current.files c.level := by
    apply hsound.inputs0
    rw [hinputs0]
    exact List.mem_singleton_self f
  have hreplaces := hsound.moveEdit_replaces hinputs0 hinputs1
  refine h.replace hreplaces ?_ rfl (Nat.le_refl _) ?_ hstopped
  · refine hsound.accepts hreplaces (List.pairwise_singleton _ _) ?_ ?_ ?_
    · intro g hg
      rw [List.mem_singleton.mp hg]
      exact h.ordered.proper c.level f hf
    · rw [hinputs1]
      rintro _ _ g hg
      cases hg
    · intro g hout out hmem
      rw [List.mem_singleton.mp hmem]
      have hin : f ∈ c.inputs0 ++ c.inputs1 := by
        rw [hinputs0]
        exact List.mem_cons_self
      rcases hout with hbefore | hafter
      · exact Or.inl (hbefore f hin)
      · exact Or.inr (hafter f hin)
  · intro out hmem
    rw [List.mem_singleton.mp hmem]
    exact h.below c.level f hf

theorem install (h : db.contents.LevelsOrdered) {r : RunningCompaction}
    (hr : db.running = some r) {files : Files} {shuttingDown : Bool} {manifest : ManifestIO}
    {w : Merge} {st : CompactionState} (hst : st = (((db.job r files shuttingDown
      manifest).conclude db.globals w).compact.complete (db.job r files shuttingDown manifest)).2)
    (hyields : r.compaction.Yields st.outputs) {d : Contents}
    (hcurrent : d.current = db.versions.nextVersion st.installEdit)
    (hnext : d.nextFileNumber = db.versions.nextFileNumber + st.outputs.length)
    (hstopped : d.running = none) : d.LevelsOrdered := by
  have hsound := h.running r hr
  have hreplaces : st.installEdit.Replaces r.compaction (st.outputs.map Output.file) := by
    apply CompactionState.installEdit_replaces hsound
    rw [hst]
    exact CompactionJob.conclude_core (db.job r files shuttingDown manifest) db.globals w
  have hnumber : ∀ out ∈ st.outputs, db.versions.nextFileNumber ≤ out.number ∧
      out.number < db.versions.nextFileNumber + st.outputs.length := by
    rw [hst]
    exact fun out hout => Database.job_outputs_number r files shuttingDown manifest _ w hout
  refine h.replace hreplaces ?_ hcurrent ?_ ?_ hstopped
  · refine hsound.accepts hreplaces hyields.row hyields.proper ?_ ?_
    · intro g hg f hf
      obtain ⟨out, hout, rfl⟩ := List.mem_map.mp hg
      have hold := h.below _ f (hsound.inputs1 f hf)
      exact (lt_of_lt_of_le hold (hnumber out hout).1).ne'
    · intro g hg f hf
      obtain ⟨out, hout, rfl⟩ := List.mem_map.mp hf
      exact hyields.apart hg hout
  · rw [hnext]
    exact Nat.le_add_right _ _
  · intro f hf
    obtain ⟨out, hout, rfl⟩ := List.mem_map.mp hf
    rw [hnext]
    exact (hnumber out hout).2

/-- **One step keeps the levels ordered.** -/
theorem effect (h : db.contents.LevelsOrdered) {event : Event} (hgaps : db.GapFree event)
    (houtputs : db.OutputsInRange event) {d : Contents} (heffect : db.Effect options event d) :
    d.LevelsOrdered := by
  cases heffect with
  | write => exact ⟨h.ordered, h.below, h.running⟩
  | rotate _ =>
    exact ⟨h.ordered, fun level f hf => Nat.lt_succ_of_lt (h.below level f hf), h.running⟩
  | idle keeps memory files running =>
    refine ⟨h.ordered.sameFiles files.files files.seek, ?_, ?_⟩
    · intro level f hf
      rw [files.files] at hf
      exact lt_of_lt_of_le (h.below level f hf) keeps.next
    · intro r hr
      rcases running with hsame | hnone
      · rw [hsame] at hr
        exact (h.running r hr).sameFiles files.files
      · rw [hnone] at hr
        cases hr
  | discard imm_eq keeps files running memory =>
    refine ⟨h.ordered.sameFiles files.files files.seek, ?_, ?_⟩
    · intro level f hf
      rw [files.files] at hf
      exact lt_of_lt_of_le (h.below level f hf) keeps.next
    · intro r hr
      rw [running] at hr
      exact (h.running r hr).sameFiles files.files
  | flush imm_eq spans flushes keeps current next stored running memory =>
    exact h.flush spans flushes current next running fun r hr =>
      hgaps _ r _ _ imm_eq hr spans
  | move stopped chosen level inputs0 inputs1 =>
    exact h.move (chosen.sound h.ordered) inputs0 inputs1 stopped
  | start stopped chosen level compaction =>
    refine ⟨h.ordered, h.below, ?_⟩
    intro r hr
    obtain rfl := Option.some.inj hr
    rw [compaction]
    exact chosen.sound h.ordered
  | install running reads done finished keeps memory current next stored stopped =>
    have hyields := houtputs _ _ running reads done finished
    obtain ⟨w, -, rfl⟩ := Option.map_eq_some_iff.mp done
    exact h.install running rfl hyields current next stopped

theorem init (options : Options) : (Database.init options).contents.LevelsOrdered := by
  refine ⟨?_, ?_, ?_⟩
  · exact Version.empty_ordered
  · intro level f hf
    cases hf
  · intro r hr
    cases hr

end Contents.LevelsOrdered

/-- **Levels stay sorted and disjoint** in every run without a flush into a gap, as long as
the outputs of each compaction are sorted, disjoint and in the range of its inputs. -/
theorem levels_sorted {options : Options} {events : List Event} {db : Database}
    (hrun : runs (Database.step options) (Database.init options) events = some db)
    (hopen : ∀ io, Event.reopen io ∉ events)
    (houtputs : RunMeets (Database.step options) Database.OutputsInRange (Database.init options)
      events)
    (hgaps : RunMeets (Database.step options) Database.GapFree (Database.init options) events) :
    ∀ level, 1 ≤ level → SortedLevel (db.versions.current.files level) := by
  have hordered : db.contents.LevelsOrdered := by
    refine RunMeets.invariant (P := fun db => db.contents.LevelsOrdered) ?_
      (Contents.LevelsOrdered.init options)
      ((RunMeets.of_notMem hopen).and (hgaps.and houtputs)) hrun
    rintro db event db' h ⟨hopen, hgaps, houtputs⟩ hstep
    exact h.effect hgaps houtputs (Database.step_effect hstep hopen)
  intro level hlevel
  exact sortedLevel_iff.mpr (hordered.ordered.row level hlevel)

/-! ## Runs -/

/-- Values for `a` and for `x` go to level 2, deletions that follow go to level 1. The
snapshot keeps all of them. A manual compaction of level 1 starts. -/
def startedRun : List Event :=
  [.getSnapshot] ++ writeAndFlush (WriteBatch.clear.put [97] [1]) ++
    writeAndFlush (WriteBatch.clear.delete [97]) ++
    writeAndFlush (WriteBatch.clear.put [120] [1]) ++
    writeAndFlush (WriteBatch.clear.delete [120]) ++
    [.compactRange 1 none none, .background ⟨.ok, true⟩]

/-- The return of this compaction. Each of its inputs has one entry. -/
def finishStarted : Event :=
  .finish (Files.working fun f =>
      ⟨[⟨f.smallest, if f.number = 5 ∨ f.number = 9 then [1] else []⟩], .ok⟩)
    false ⟨.ok, true⟩

/-- The compaction on its own leaves sorted levels. -/
theorem levels_sorted_started :
    ∃ db, runs (Database.step defaultOptions) (Database.init defaultOptions)
        (startedRun ++ [finishStarted]) = some db ∧
      ∀ level, 1 ≤ level → SortedLevel (db.versions.current.files level) := by
  have heval : (runs (Database.step defaultOptions) (Database.init defaultOptions)
      (startedRun ++ [finishStarted])).isSome = true := by
    decide +kernel
  obtain ⟨db, hdb⟩ := Option.isSome_iff_exists.mp heval
  have houtputs : RunMeets (Database.step defaultOptions) Database.OutputsInRange
      (Database.init defaultOptions) (startedRun ++ [finishStarted]) := by
    decide +kernel
  -- no memtable is flushed while it runs
  have hidle : RunMeets (Database.step defaultOptions)
      (fun db event => (match event with
        | .compactMemTable _ _ _ => db.running.isNone
        | _ => true) = true)
      (Database.init defaultOptions) (startedRun ++ [finishStarted]) := by
    decide +kernel
  have hgaps : RunMeets (Database.step defaultOptions) Database.GapFree
      (Database.init defaultOptions) (startedRun ++ [finishStarted]) := by
    refine hidle.mono ?_
    intro db event hnone
    cases event <;> try trivial
    intro imm r first last _ hr
    rw [hr] at hnone
    cases hnone
  have hopen : ∀ io, Event.reopen io ∉ startedRun ++ [finishStarted] := by
    simp [startedRun, finishStarted, writeAndFlush]
  exact ⟨db, hdb, levels_sorted hdb hopen houtputs hgaps⟩

/-- A value for `m` is flushed while the compaction runs. -/
def gapRun : List Event :=
  startedRun ++ writeAndFlush (WriteBatch.clear.put [109] [1]) ++ [finishStarted]

/-- **A flush into a gap.** The memtable with `m` overlaps no file and goes to level 2. The
compaction then installs one table from `a` to `x` next to it. -/
theorem gapRun_overlaps :
    RunMeets (Database.step defaultOptions) Database.OutputsInRange
      (Database.init defaultOptions) gapRun ∧
    ∃ db, runs (Database.step defaultOptions) (Database.init defaultOptions) gapRun = some db ∧
      (db.versions.current.files 2).map (fun f => (f.startKey, f.limitKey)) =
        [([97], [120]), ([109], [109])] ∧
      ¬ SortedLevel (db.versions.current.files 2) := by
  refine ⟨by decide +kernel, ?_⟩
  have heval : ((runs (Database.step defaultOptions) (Database.init defaultOptions) gapRun).map
      fun db => ((db.versions.current.files 2).map (fun f => (f.startKey, f.limitKey)),
        decide (SortedLevel (db.versions.current.files 2)))) =
      some ([([97], [120]), ([109], [109])], false) := by
    decide +kernel
  obtain ⟨db, hdb, hfiles⟩ := Option.map_eq_some_iff.mp heval
  obtain ⟨hkeys, hsorted⟩ := Prod.mk.inj hfiles
  exact ⟨db, hdb, hkeys, of_decide_eq_false hsorted⟩

end Lpad
