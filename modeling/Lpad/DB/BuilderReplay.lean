import Lpad.DB.LevelEdits
import Lpad.DB.Recovery

/-!
# One builder for many edits

`LogAndApply` makes a version of each edit, on top of the one before. `Recover` applies all
edits to one builder and saves once. If a file number is added at most once to a level,
the results are the same: both have the files that were added and not deleted since, and
both have them in the order of `BySmallestKey`.

`b.Tracks v adds` relates the two at each point of the history.
-/

namespace Lpad

/-! ## The order of files -/

/-- Smallest key and number. -/
def FileMetaData.place (f : FileMetaData) : KeyRank ×ₗ Nat := toLex (f.lo, f.number)

theorem bySmallestKey_iff {f g : FileMetaData} : bySmallestKey f g = true ↔ f.place < g.place := by
  rw [FileMetaData.place, FileMetaData.place, Prod.Lex.toLex_lt_toLex]
  unfold bySmallestKey
  cases hcompare : internalKeyCompare f.smallest g.smallest with
  | lt =>
    have hlt : f.lo < g.lo := internalKeyCompare_lt_iff.mp hcompare
    simp [hlt]
  | gt =>
    have hgt : g.lo < f.lo := internalKeyCompare_gt_iff.mp hcompare
    simp [not_lt_of_gt hgt, ne_of_gt hgt]
  | eq =>
    have hle : f.lo ≤ g.lo := by
      rw [← not_lt]
      intro hlt
      have := internalKeyCompare_gt_iff.mpr hlt
      rw [hcompare] at this
      cases this
    have hge : g.lo ≤ f.lo := by
      rw [← not_lt]
      intro hlt
      have := internalKeyCompare_lt_iff.mpr hlt
      rw [hcompare] at this
      cases this
    simp [le_antisymm hle hge]

/-- Files with different numbers are in one order or the other. -/
theorem place_lt_of_not {f g : FileMetaData} (hne : f.number ≠ g.number)
    (h : bySmallestKey f g = false) : g.place < f.place := by
  have hnot : ¬ f.place < g.place := by
    rw [← bySmallestKey_iff, h]
    exact Bool.false_ne_true
  refine lt_of_le_of_ne (not_lt.mp hnot) ?_
  intro heq
  exact hne (congrArg (fun p => (ofLex p).2) heq.symm)

/-- In the strict order of `BySmallestKey`. -/
def FilesOrdered (files : List FileMetaData) : Prop := files.Pairwise fun f g => f.place < g.place

theorem FilesOrdered.nodup {files : List FileMetaData} (h : FilesOrdered files) : files.Nodup := by
  refine List.Pairwise.imp ?_ h
  intro f g hlt heq
  rw [heq] at hlt
  exact lt_irrefl _ hlt

/-- An ordered list is determined by its files. -/
theorem FilesOrdered.ext {files files' : List FileMetaData} (h : FilesOrdered files)
    (h' : FilesOrdered files') (hmem : ∀ f, f ∈ files ↔ f ∈ files') : files = files' := by
  have hperm : files.Perm files' := (List.perm_ext_iff_of_nodup h.nodup h'.nodup).mpr hmem
  exact hperm.eq_of_pairwise (fun _ _ _ _ hlt hgt => absurd hlt (lt_asymm hgt)) h h'

theorem insertFile_ordered {f : FileMetaData} {files : List FileMetaData}
    (h : FilesOrdered files) : FilesOrdered (insertFile f files) :=
  insertFile_pairwise (R := fun f g => f.place < g.place) (fun _ _ _ => lt_trans) h
    fun _ _ => ⟨bySmallestKey_iff.mp, bySmallestKey_iff.mp⟩

theorem foldl_insertFile_ordered (added : List FileMetaData) {files : List FileMetaData}
    (h : FilesOrdered files) :
    FilesOrdered (added.foldl (fun files f => insertFile f files) files) := by
  induction added generalizing files with
  | nil => exact h
  | cons f added ih => exact ih (insertFile_ordered h)

/-- A file with a number of its own is inserted. -/
theorem mem_insertFile_iff {f x : FileMetaData} {files : List FileMetaData}
    (hnew : ∀ g ∈ files, f.number ≠ g.number) : x ∈ insertFile f files ↔ x = f ∨ x ∈ files := by
  refine ⟨mem_insertFile, ?_⟩
  induction files with
  | nil =>
    rintro (rfl | hx)
    · exact List.mem_cons_self
    · cases hx
  | cons g rest ih =>
    have ih := ih fun x hx => hnew x (List.mem_cons_of_mem _ hx)
    unfold insertFile
    by_cases hfg : bySmallestKey f g = true
    · rw [if_pos hfg]
      exact fun h => List.mem_cons.mpr h
    · have hgf : bySmallestKey g f = true := bySmallestKey_iff.mpr
        (place_lt_of_not (hnew g List.mem_cons_self) (Bool.eq_false_iff.mpr hfg))
      rw [if_neg hfg, if_pos hgf]
      rintro (rfl | hx)
      · exact List.mem_cons_of_mem _ (ih (Or.inl rfl))
      · rcases List.mem_cons.mp hx with rfl | hx
        · exact List.mem_cons_self
        · exact List.mem_cons_of_mem _ (ih (Or.inr hx))

theorem mem_foldl_insertFile_iff {x : FileMetaData} {added files : List FileMetaData}
    (hadded : (added.map FileMetaData.number).Nodup)
    (hnew : ∀ f ∈ added, ∀ g ∈ files, f.number ≠ g.number) :
    x ∈ added.foldl (fun files f => insertFile f files) files ↔ x ∈ added ∨ x ∈ files := by
  induction added generalizing files with
  | nil => simp
  | cons f added ih =>
    obtain ⟨hf, hrest⟩ := List.nodup_cons.mp hadded
    have hinsert := fun x => mem_insertFile_iff (x := x) (hnew f List.mem_cons_self)
    rw [List.foldl_cons, ih hrest]
    · rw [hinsert, List.mem_cons]
      tauto
    · intro y hy g hg
      rcases (hinsert g).mp hg with rfl | hg
      · exact fun heq => hf (heq ▸ List.mem_map_of_mem hy)
      · exact hnew y (List.mem_cons_of_mem _ hy) g hg

/-! ## Applying an edit -/

/-- Levels and numbers of the files that an edit adds. -/
def VersionEdit.adds (edit : VersionEdit) : List (Nat × Nat) :=
  edit.newFiles.map fun n => (n.1, n.2.number)

theorem VersionEdit.mem_adds {edit : VersionEdit} {level : Nat} {f : FileMetaData}
    (h : f ∈ edit.filesFor level) : (level, f.number) ∈ edit.adds :=
  List.mem_map.mpr ⟨(level, f), mem_filesFor.mp h, rfl⟩

/-- Numbers that are added once to a level. -/
theorem VersionEdit.filesFor_nodup {edit : VersionEdit} (h : edit.adds.Nodup) (level : Nat) :
    ((edit.filesFor level).map FileMetaData.number).Nodup := by
  apply List.Nodup.of_map fun number => (level, number)
  have hpairs :
      ((edit.filesFor level).map FileMetaData.number).map (fun number => (level, number)) =
        (edit.newFiles.filter fun n => decide (n.1 = level)).map fun n => (n.1, n.2.number) := by
    unfold filesFor
    rw [List.map_map, List.map_map]
    apply List.map_congr_left
    intro n hn
    have hlevel : n.1 = level := of_decide_eq_true (List.mem_filter.mp hn).2
    rw [← hlevel]
    rfl
  rw [hpairs]
  exact h.sublist (List.filter_sublist.map _)

/-- What a builder with one edit adds. -/
theorem Builder.mem_apply_new {edit : VersionEdit} (h : edit.adds.Nodup) (level : Nat)
    {f : FileMetaData} :
    f ∈ ((Builder.new.apply edit).levels level).addedFiles ↔ f ∈ edit.filesFor level := by
  rw [(Builder.new.apply_level edit level).1,
    mem_foldl_insertFile_iff (VersionEdit.filesFor_nodup h level) (fun _ _ g hg => by cases hg)]
  simp [Builder.new]

/-- An edit that deletes nothing saves all of its files. -/
theorem Builder.mem_saveTo_new {edit : VersionEdit} (h : edit.adds.Nodup)
    (hdeleted : edit.deletedFiles = []) (level : Nat) {f : FileMetaData} :
    f ∈ ((Builder.new.apply edit).saveTo Version.empty).files level ↔
      f ∈ edit.filesFor level := by
  have hnone : f.number ∉ ((Builder.new.apply edit).levels level).deletedFiles := by
    intro hnumber
    rcases ((Builder.new.apply_level _ level).2 f.number).mp hnumber with ⟨hnew | hnew, -⟩
    · simp [Builder.new] at hnew
    · simp [hdeleted] at hnew
  show f ∈ LevelState.mergeFiles _ _ _ ↔ _
  rw [LevelState.mem_mergeFiles, mem_apply_new h]
  have hbase : f ∉ Version.empty.files level := List.not_mem_nil
  simp only [hbase, hnone, or_false, not_false_eq_true, and_true]

/-! ## The two histories -/

/-- The edit as it is read back: the deleted files are the same set. -/
def SameEdit (edit edit' : VersionEdit) : Prop :=
  ∃ deleted, (∀ d, d ∈ deleted ↔ d ∈ edit.deletedFiles) ∧
    edit' = { edit with deletedFiles := deleted }

/-- The builder `b` of all edits so far and the version `v` that came out of them one by
one. The pairs `adds` are the levels and numbers that were added. -/
structure Builder.Tracks (b : Builder) (v : Version) (adds : List (Nat × Nat)) : Prop where
  addedOrdered : ∀ level, FilesOrdered (b.levels level).addedFiles
  ordered : ∀ level, FilesOrdered (v.files level)
  mem_iff : ∀ level f, f ∈ v.files level ↔
    f ∈ (b.levels level).addedFiles ∧ f.number ∉ (b.levels level).deletedFiles
  numbers : ∀ level, ∀ f ∈ (b.levels level).addedFiles, (level, f.number) ∈ adds

namespace Builder.Tracks

variable {b : Builder} {v : Version} {adds : List (Nat × Nat)} {edit edit' : VersionEdit}

theorem start : Builder.new.Tracks Version.empty [] where
  addedOrdered _ := List.Pairwise.nil
  ordered _ := List.Pairwise.nil
  mem_iff level f := by simp [Builder.new, Version.empty]
  numbers level f hf := by cases hf

/-- **One edit**, for the builder as it was read back. -/
theorem apply (h : b.Tracks v adds) (hnodup : (adds ++ edit.adds).Nodup)
    (hedits : SameEdit edit edit') :
    (b.apply edit').Tracks ((Builder.new.apply edit).saveTo v) (adds ++ edit.adds) := by
  obtain ⟨hfiles, hdeleted⟩ : edit'.newFiles = edit.newFiles ∧
      ∀ d, d ∈ edit'.deletedFiles ↔ d ∈ edit.deletedFiles := by
    obtain ⟨deleted, hmem, rfl⟩ := hedits
    exact ⟨rfl, hmem⟩
  obtain ⟨-, hedit, hdisjoint⟩ := List.nodup_append.mp hnodup
  have hsame : ∀ level, edit'.filesFor level = edit.filesFor level := by
    intro level
    unfold VersionEdit.filesFor
    rw [hfiles]
  -- a number that was added before is not added again
  have hfresh : ∀ level, ∀ f ∈ edit.filesFor level, ∀ g ∈ (b.levels level).addedFiles,
      f.number ≠ g.number := by
    intro level f hf g hg heq
    exact hdisjoint _ (h.numbers level g hg) _ (VersionEdit.mem_adds hf) (by rw [heq])
  have hall : ∀ level f, f ∈ ((b.apply edit').levels level).addedFiles ↔
      f ∈ edit.filesFor level ∨ f ∈ (b.levels level).addedFiles := by
    intro level f
    rw [(b.apply_level edit' level).1, hsame,
      mem_foldl_insertFile_iff (VersionEdit.filesFor_nodup hedit level) (hfresh level)]
  refine ⟨fun level => ?_, fun level => ?_, fun level f => ?_, fun level f hf => ?_⟩
  · rw [(b.apply_level edit' level).1]
    exact foldl_insertFile_ordered _ (h.addedOrdered level)
  · refine LevelState.mergeFiles_pairwise _ (R := fun f g => f.place < g.place)
      (fun _ _ _ => lt_trans) ?_ (h.ordered level) fun f hf g hg => ⟨bySmallestKey_iff.mp, ?_⟩
    · rw [(Builder.new.apply_level edit level).1]
      exact foldl_insertFile_ordered _ List.Pairwise.nil
    · exact place_lt_of_not
        (hfresh level f ((mem_apply_new hedit level).mp hf) g ((h.mem_iff level g).mp hg).1)
  · show f ∈ LevelState.mergeFiles _ _ _ ↔ _
    rw [LevelState.mem_mergeFiles, mem_apply_new hedit, hall, (b.apply_level edit' level).2,
      (Builder.new.apply_level edit level).2, hsame, hdeleted, h.mem_iff]
    have hnone : f.number ∉ (Builder.new.levels level).deletedFiles := by simp [Builder.new]
    by_cases hf : f ∈ edit.filesFor level
    · -- what the edit adds is in the version, whatever was deleted
      have hadded : ¬ ∀ g ∈ edit.filesFor level, g.number ≠ f.number := fun hall => hall f hf rfl
      simp [hf, hadded]
    · by_cases hold : f ∈ (b.levels level).addedFiles
      · have hkept : ∀ g ∈ edit.filesFor level, g.number ≠ f.number :=
          fun g hg => hfresh level g hg f hold
        tauto
      · simp [hf, hold]
  · rcases (hall level f).mp hf with hf | hf
    · exact List.mem_append_right _ (VersionEdit.mem_adds hf)
    · exact List.mem_append_left _ (h.numbers level f hf)

/-- **Saving once** gives the version of the one-by-one history. -/
theorem saveTo_empty (h : b.Tracks v adds) (level : Nat) :
    (b.saveTo Version.empty).files level = v.files level := by
  refine FilesOrdered.ext ?_ (h.ordered level) fun f => ?_
  · exact LevelState.mergeFiles_pairwise _ (R := fun f g => f.place < g.place)
      (fun _ _ _ => lt_trans) (h.addedOrdered level) List.Pairwise.nil
      fun f _ g hg => by cases hg
  · show f ∈ LevelState.mergeFiles _ _ _ ↔ _
    rw [LevelState.mem_mergeFiles, h.mem_iff]
    simp [Version.empty]

/-- The files of one edit that deletes nothing. -/
theorem saveTo_perm (hnodup : edit.adds.Nodup) (hdeleted : edit.deletedFiles = []) (level : Nat) :
    (((Builder.new.apply edit).saveTo Version.empty).files level).Perm (edit.filesFor level) := by
  have htracks : (Builder.new.apply edit).Tracks ((Builder.new.apply edit).saveTo Version.empty)
      ([] ++ edit.adds) := Builder.Tracks.start.apply hnodup ⟨_, fun _ => Iff.rfl, rfl⟩
  refine (List.perm_ext_iff_of_nodup (htracks.ordered level).nodup ?_).mpr fun f =>
    Builder.mem_saveTo_new hnodup hdeleted level
  exact (VersionEdit.filesFor_nodup hnodup level).of_map _

end Builder.Tracks

end Lpad
