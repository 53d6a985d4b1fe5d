import Lpad.DB.Levels
import Mathlib.Data.List.TakeWhile

/-!
# A level after an edit

`VersionSet::Builder` inserts the new files of an edit into an ordered set and
`SaveTo` merges that set with the files of the base version. A level that lies in a
row still does so afterwards, provided that the new files are apart from each other
and from the base files that stay.
-/

namespace Lpad

/-! ## The ordered set -/

theorem bySmallestKey_le {f g : FileMetaData} (h : bySmallestKey f g = true) : f.lo ≤ g.lo := by
  unfold bySmallestKey at h
  split at h
  · exact le_of_lt (internalKeyCompare_lt_iff.mp ‹_›)
  · cases h
  · rename_i heq
    apply internalKeyCompare_ne_lt_iff.mp
    intro hlt
    have := internalKeyCompare_gt_iff.mpr (internalKeyCompare_lt_iff.mp hlt)
    rw [heq] at this
    cases this

theorem bySmallestKey_ge {f g : FileMetaData} (h : bySmallestKey f g = false) : g.lo ≤ f.lo := by
  unfold bySmallestKey at h
  split at h
  · cases h
  · exact le_of_lt (internalKeyCompare_gt_iff.mp ‹_›)
  · rename_i heq
    apply internalKeyCompare_ne_lt_iff.mp
    rw [heq]
    simp

/-- The file goes to its place, unless an equivalent one is there. -/
theorem insertFile_perm (f : FileMetaData) :
    ∀ files : List FileMetaData, insertFile f files = files ∨ (insertFile f files).Perm (f :: files)
  | [] => Or.inr (List.Perm.refl _)
  | g :: rest => by
    unfold insertFile
    split
    · exact Or.inr (List.Perm.refl _)
    · split
      · rcases insertFile_perm f rest with heq | hperm
        · exact Or.inl (by rw [heq])
        · exact Or.inr ((hperm.cons g).trans (List.Perm.swap f g rest))
      · exact Or.inl rfl

theorem mem_insertFile {f g : FileMetaData} {files : List FileMetaData}
    (h : g ∈ insertFile f files) : g = f ∨ g ∈ files := by
  rcases insertFile_perm f files with heq | hperm
  · rw [heq] at h
    exact Or.inr h
  · exact List.mem_cons.mp (hperm.mem_iff.mp h)

/-- The set stays ordered by any relation that follows its comparison. -/
theorem insertFile_pairwise {R : FileMetaData → FileMetaData → Prop}
    (htrans : ∀ f g x, R f g → R g x → R f x) {f : FileMetaData} {files : List FileMetaData}
    (hfiles : files.Pairwise R)
    (hcross : ∀ g ∈ files, (bySmallestKey f g = true → R f g) ∧
      (bySmallestKey g f = true → R g f)) : (insertFile f files).Pairwise R := by
  induction files with
  | nil => exact List.pairwise_singleton _ _
  | cons g rest ih =>
    obtain ⟨hhead, htail⟩ := List.pairwise_cons.mp hfiles
    obtain ⟨hfg, hgf⟩ := hcross g List.mem_cons_self
    unfold insertFile
    split
    · rename_i hlt
      refine List.pairwise_cons.mpr ⟨?_, hfiles⟩
      intro x hx
      rcases List.mem_cons.mp hx with rfl | hx
      · exact hfg hlt
      · exact htrans _ _ _ (hfg hlt) (hhead x hx)
    · split
      · rename_i hlt
        refine List.pairwise_cons.mpr ⟨?_, ih htail fun x hx => hcross x
          (List.mem_cons_of_mem _ hx)⟩
        intro x hx
        rcases mem_insertFile hx with rfl | hx
        · exact hgf hlt
        · exact hhead x hx
      · exact hfiles

theorem insertFile_sorted {f : FileMetaData} {files : List FileMetaData}
    (h : files.Pairwise fun f g => f.lo ≤ g.lo) :
    (insertFile f files).Pairwise fun f g => f.lo ≤ g.lo :=
  insertFile_pairwise (R := fun f g => f.lo ≤ g.lo) (fun _ _ _ => le_trans) h
    fun _ _ => ⟨bySmallestKey_le, bySmallestKey_le⟩

theorem insertFile_apart {f : FileMetaData} {files : List FileMetaData}
    (hfiles : files.Pairwise FilesApart) (hf : ∀ g ∈ files, FilesApart f g) :
    (insertFile f files).Pairwise FilesApart := by
  rcases insertFile_perm f files with heq | hperm
  · rw [heq]
    exact hfiles
  · exact (hperm.pairwise_iff fun h => h.symm).mpr (List.pairwise_cons.mpr ⟨hf, hfiles⟩)

/-! ## `SaveTo` -/

/-- `SaveTo` merges the added files with the base files, less the deleted ones. -/
theorem LevelState.mergeFiles_perm (l : LevelState) : ∀ added base : List FileMetaData,
    (l.mergeFiles added base).Perm (l.kept (added ++ base))
  | [], base => List.Perm.refl _
  | f :: added, base => by
    have ih := l.mergeFiles_perm added (base.dropWhile fun g => !bySmallestKey f g)
    rw [mergeFiles]
    refine (ih.append_left _).trans ?_
    unfold kept
    rw [← List.filter_append, ← List.filter_append]
    apply List.Perm.filter
    rw [List.append_assoc, List.singleton_append]
    refine (List.perm_append_comm_assoc _ (f :: added) _).trans ?_
    rw [List.takeWhile_append_dropWhile]

theorem LevelState.mem_mergeFiles {l : LevelState} {added base : List FileMetaData}
    {g : FileMetaData} : g ∈ l.mergeFiles added base ↔
      (g ∈ added ∨ g ∈ base) ∧ g.number ∉ l.deletedFiles := by
  rw [(l.mergeFiles_perm added base).mem_iff, kept, List.mem_filter, List.mem_append,
    decide_eq_true_eq]

/-- The merge of two ordered lists is ordered, by any relation that follows the
comparison between them. -/
theorem LevelState.mergeFiles_pairwise (l : LevelState) {R : FileMetaData → FileMetaData → Prop}
    (htrans : ∀ f g x, R f g → R g x → R f x) {added base : List FileMetaData}
    (hadded : added.Pairwise R) (hbase : base.Pairwise R)
    (hcross : ∀ f ∈ added, ∀ g ∈ base, (bySmallestKey f g = true → R f g) ∧
      (bySmallestKey f g = false → R g f)) : (l.mergeFiles added base).Pairwise R := by
  induction added generalizing base with
  | nil => exact hbase.sublist List.filter_sublist
  | cons f added ih =>
    obtain ⟨hhead, htail⟩ := List.pairwise_cons.mp hadded
    have hf := hcross f List.mem_cons_self
    have hbefore : ∀ g ∈ base.takeWhile fun g => !bySmallestKey f g, R g f := by
      intro g hg
      exact (hf g ((List.takeWhile_sublist _).mem hg)).2
        (by simpa using List.mem_takeWhile_imp hg)
    have hdropped := List.dropWhile_sublist (fun g => !bySmallestKey f g) (l := base)
    have hafter : ∀ g ∈ base.dropWhile fun g => !bySmallestKey f g, R f g := by
      have hsorted := hbase.sublist hdropped
      have hmem := hdropped.subset
      cases hdrop : base.dropWhile fun g => !bySmallestKey f g with
      | nil => simp
      | cons g rest =>
        rw [hdrop] at hsorted hmem
        have hg : R f g := by
          apply (hf g (hmem List.mem_cons_self)).1
          have := List.head?_dropWhile_not (fun g => !bySmallestKey f g) base
          rw [hdrop] at this
          simpa using this
        intro x hx
        rcases List.mem_cons.mp hx with rfl | hx
        · exact hg
        · exact htrans _ _ _ hg ((List.pairwise_cons.mp hsorted).1 x hx)
    have hmerged := ih htail (hbase.sublist hdropped) fun x hx g hg =>
      hcross x (List.mem_cons_of_mem _ hx) g (hdropped.subset hg)
    have hle : ∀ g ∈ l.mergeFiles added (base.dropWhile fun g => !bySmallestKey f g),
        R f g := by
      intro g hg
      rcases (mem_mergeFiles.mp hg).1 with hg | hg
      · exact hhead g hg
      · exact hafter g hg
    have hkept : ∀ g ∈ l.kept [f], g = f := by
      intro g hg
      exact List.mem_singleton.mp (List.mem_of_mem_filter hg)
    rw [mergeFiles, List.append_assoc, List.pairwise_append]
    refine ⟨?_, ?_, ?_⟩
    · exact (hbase.sublist (List.takeWhile_sublist _)).sublist List.filter_sublist
    · rw [List.pairwise_append]
      refine ⟨(List.pairwise_singleton _ f).sublist List.filter_sublist, hmerged, ?_⟩
      intro g hg x hx
      rw [hkept g hg]
      exact hle x hx
    · intro g hg x hx
      have hgf := hbefore g (List.mem_of_mem_filter hg)
      rcases List.mem_append.mp hx with hx | hx
      · rw [hkept x hx]
        exact hgf
      · exact htrans _ _ _ hgf (hle x hx)

theorem LevelState.mergeFiles_sorted (l : LevelState) {added base : List FileMetaData}
    (hadded : added.Pairwise fun f g => f.lo ≤ g.lo)
    (hbase : base.Pairwise fun f g => f.lo ≤ g.lo) :
    (l.mergeFiles added base).Pairwise fun f g => f.lo ≤ g.lo :=
  l.mergeFiles_pairwise (R := fun f g => f.lo ≤ g.lo) (fun _ _ _ => le_trans) hadded hbase
    fun _ _ _ _ => ⟨bySmallestKey_le, bySmallestKey_ge⟩

/-! ## Edits -/

/-- The files that an edit adds to a level. -/
def VersionEdit.filesFor (edit : VersionEdit) (level : Nat) : List FileMetaData :=
  (edit.newFiles.filter fun n => decide (n.1 = level)).map Prod.snd

theorem VersionEdit.mem_filesFor {edit : VersionEdit} {level : Nat} {f : FileMetaData} :
    f ∈ edit.filesFor level ↔ (level, f) ∈ edit.newFiles := by
  unfold filesFor
  simp

/-- What a list of new files makes of a level of the builder. -/
theorem Builder.foldl_addFile_levels (level : Nat) :
    ∀ (added : List (Nat × FileMetaData)) (b : Builder),
      ((added.foldl (fun b n => b.addFile n.1 n.2) b).levels level).addedFiles =
        ((added.filter fun n => decide (n.1 = level)).map Prod.snd).foldl
          (fun files f => insertFile f files) (b.levels level).addedFiles ∧
      ∀ number, number ∈ ((added.foldl (fun b n => b.addFile n.1 n.2) b).levels
          level).deletedFiles ↔
        number ∈ (b.levels level).deletedFiles ∧
          ∀ f ∈ (added.filter fun n => decide (n.1 = level)).map Prod.snd, f.number ≠ number
  | [], b => by simp
  | (lvl, f) :: added, b => by
    obtain ⟨hfiles, hdeleted⟩ := Builder.foldl_addFile_levels level added (b.addFile lvl f)
    rw [List.foldl_cons]
    by_cases h : lvl = level
    · subst h
      simp only [List.filter_cons, decide_true, if_true, List.map_cons, List.foldl_cons,
        List.forall_mem_cons]
      constructor
      · rw [hfiles]
        simp [addFile]
      · intro number
        rw [hdeleted]
        simp only [addFile, Function.update_self, List.mem_filter, decide_not,
          Bool.not_eq_true', decide_eq_false_iff_not]
        constructor
        · rintro ⟨⟨hmem, hne⟩, hrest⟩
          exact ⟨hmem, Ne.symm hne, hrest⟩
        · rintro ⟨hmem, hne, hrest⟩
          exact ⟨⟨hmem, Ne.symm hne⟩, hrest⟩
    · simp only [List.filter_cons, h, decide_false, Bool.false_eq_true, if_false]
      have hsame : (b.addFile lvl f).levels level = b.levels level := by
        simp [addFile, Function.update_of_ne (Ne.symm h)]
      rw [hsame] at hfiles hdeleted
      exact ⟨hfiles, hdeleted⟩

theorem Builder.foldl_deleteFile_levels (level : Nat) :
    ∀ (deleted : List (Nat × Nat)) (b : Builder),
      ((deleted.foldl (fun b d => b.deleteFile d.1 d.2) b).levels level).addedFiles =
        (b.levels level).addedFiles ∧
      ∀ number, number ∈ ((deleted.foldl (fun b d => b.deleteFile d.1 d.2) b).levels
          level).deletedFiles ↔
        number ∈ (b.levels level).deletedFiles ∨ (level, number) ∈ deleted
  | [], b => by simp
  | (lvl, n) :: deleted, b => by
    obtain ⟨hfiles, hdeleted⟩ :=
      Builder.foldl_deleteFile_levels level deleted (b.deleteFile lvl n)
    rw [List.foldl_cons]
    by_cases h : lvl = level
    · subst h
      refine ⟨by rw [hfiles]; simp [deleteFile], fun number => ?_⟩
      rw [hdeleted]
      simp only [deleteFile, Function.update_self, List.mem_cons, Prod.mk.injEq, true_and]
      rw [or_assoc, or_left_comm]
    · have hsame : (b.deleteFile lvl n).levels level = b.levels level := by
        simp [deleteFile, Function.update_of_ne (Ne.symm h)]
      rw [hsame] at hfiles hdeleted
      refine ⟨hfiles, fun number => ?_⟩
      rw [hdeleted]
      simp [Ne.symm h]

/-- **What an edit makes of a level of a builder.** -/
theorem Builder.apply_level (b : Builder) (edit : VersionEdit) (level : Nat) :
    ((b.apply edit).levels level).addedFiles =
      (edit.filesFor level).foldl (fun files f => insertFile f files)
        (b.levels level).addedFiles ∧
    ∀ number, number ∈ ((b.apply edit).levels level).deletedFiles ↔
      (number ∈ (b.levels level).deletedFiles ∨ (level, number) ∈ edit.deletedFiles) ∧
        ∀ f ∈ edit.filesFor level, f.number ≠ number := by
  obtain ⟨hadded, hkept⟩ := Builder.foldl_addFile_levels level edit.newFiles
    (edit.deletedFiles.foldl (fun b d => b.deleteFile d.1 d.2) b)
  obtain ⟨hnone, hdeleted⟩ := Builder.foldl_deleteFile_levels level edit.deletedFiles b
  refine ⟨?_, fun number => ?_⟩
  · rw [apply, hadded, hnone]
    rfl
  · rw [apply, hkept, hdeleted]
    rfl

/-- An edit of which no new file has the number of a file that it deletes from the same
level. -/
def VersionEdit.Fresh (edit : VersionEdit) : Prop :=
  ∀ n ∈ edit.newFiles, (n.1, n.2.number) ∉ edit.deletedFiles

/-- **A level after an edit**: the added files merged into the base files that are not
deleted. -/
theorem VersionSet.nextVersion_files (vs : VersionSet) {edit : VersionEdit} (hfresh : edit.Fresh)
    (level : Nat) : ∃ l : LevelState,
      (vs.nextVersion edit).files level = l.mergeFiles
        ((edit.filesFor level).foldl (fun files f => insertFile f files) [])
        (vs.current.files level) ∧
      ∀ number, number ∈ l.deletedFiles ↔ (level, number) ∈ edit.deletedFiles := by
  obtain ⟨hadded, hdeleted⟩ := Builder.new.apply_level edit level
  refine ⟨(Builder.new.apply edit).levels level, ?_, ?_⟩
  · show ((Builder.new.apply edit).levels level).mergeFiles
      ((Builder.new.apply edit).levels level).addedFiles (vs.current.files level) = _
    rw [hadded]
    rfl
  · intro number
    rw [hdeleted]
    constructor
    · rintro ⟨hmem | hmem, -⟩
      · simp [Builder.new] at hmem
      · exact hmem
    · intro hmem
      refine ⟨Or.inr hmem, ?_⟩
      intro f hf hnum
      exact hfresh _ (VersionEdit.mem_filesFor.mp hf) (hnum ▸ hmem)

theorem mem_foldl_insertFile {g : FileMetaData} : ∀ (added : List FileMetaData)
    {files : List FileMetaData},
    g ∈ added.foldl (fun files f => insertFile f files) files → g ∈ added ∨ g ∈ files
  | [], _, h => Or.inr h
  | f :: added, files, h => by
    rcases mem_foldl_insertFile added h with h | h
    · exact Or.inl (List.mem_cons_of_mem _ h)
    · rcases mem_insertFile h with rfl | h
      · exact Or.inl List.mem_cons_self
      · exact Or.inr h

/-- Files that are pairwise apart, inserted one by one. -/
theorem foldl_insertFile_spec : ∀ (added : List FileMetaData) {files : List FileMetaData},
    (files.Pairwise fun f g => f.lo ≤ g.lo) → (added ++ files).Pairwise FilesApart →
    ((added.foldl (fun files f => insertFile f files) files).Pairwise fun f g => f.lo ≤ g.lo) ∧
      (added.foldl (fun files f => insertFile f files) files).Pairwise FilesApart
  | [], _, hsorted, hapart => ⟨hsorted, hapart⟩
  | f :: added, files, hsorted, hapart => by
    rw [List.cons_append, List.pairwise_cons] at hapart
    obtain ⟨hf, hrest⟩ := hapart
    obtain ⟨hadded, hfiles, hcross⟩ := List.pairwise_append.mp hrest
    rw [List.foldl_cons]
    refine foldl_insertFile_spec added (insertFile_sorted hsorted) ?_
    refine List.pairwise_append.mpr ⟨hadded, insertFile_apart hfiles fun g hg =>
      hf g (List.mem_append_right _ hg), ?_⟩
    intro x hx y hy
    rcases mem_insertFile hy with rfl | hy
    · exact (hf x (List.mem_append_left _ hx)).symm
    · exact hcross x hx y hy

/-- Which files a level has after an edit. -/
theorem VersionSet.mem_nextVersion {vs : VersionSet} {edit : VersionEdit} (hfresh : edit.Fresh)
    {level : Nat} {f : FileMetaData} (h : f ∈ (vs.nextVersion edit).files level) :
    f ∈ edit.filesFor level ∨
      f ∈ vs.current.files level ∧ (level, f.number) ∉ edit.deletedFiles := by
  obtain ⟨l, hfiles, hdeleted⟩ := vs.nextVersion_files hfresh level
  rw [hfiles, LevelState.mem_mergeFiles, hdeleted] at h
  rcases h.1 with hnew | hbase
  · rcases mem_foldl_insertFile _ hnew with hnew | hnew
    · exact Or.inl hnew
    · simp at hnew
  · exact Or.inr ⟨hbase, h.2⟩

theorem VersionSet.nextVersion_keeps {vs : VersionSet} {edit : VersionEdit} (hfresh : edit.Fresh)
    {level : Nat} {f : FileMetaData} (h : f ∈ vs.current.files level)
    (hnot : (level, f.number) ∉ edit.deletedFiles) : f ∈ (vs.nextVersion edit).files level := by
  obtain ⟨l, hfiles, hdeleted⟩ := vs.nextVersion_files hfresh level
  rw [hfiles, LevelState.mem_mergeFiles, hdeleted]
  exact ⟨Or.inr h, hnot⟩

/-- A level to which an edit adds nothing. -/
theorem VersionSet.nextVersion_sublist {vs : VersionSet} {edit : VersionEdit}
    (hfresh : edit.Fresh) {level : Nat} (h : edit.filesFor level = []) :
    ((vs.nextVersion edit).files level).Sublist (vs.current.files level) := by
  obtain ⟨l, hfiles, -⟩ := vs.nextVersion_files hfresh level
  rw [hfiles, h]
  exact List.filter_sublist

/-- **A row stays a row** when the new files are apart from each other and from the base
files that stay. -/
theorem VersionSet.nextVersion_inRow {vs : VersionSet} {edit : VersionEdit} (hfresh : edit.Fresh)
    {level : Nat} (hrow : FilesInRow (vs.current.files level))
    (hproper : FilesProper (vs.current.files level)) (hproper' : FilesProper (edit.filesFor level))
    (hnew : (edit.filesFor level).Pairwise FilesApart)
    (hapart : ∀ f ∈ vs.current.files level, (level, f.number) ∉ edit.deletedFiles →
      ∀ g ∈ edit.filesFor level, FilesApart f g) :
    FilesInRow ((vs.nextVersion edit).files level) := by
  obtain ⟨l, hfiles, hdeleted⟩ := vs.nextVersion_files hfresh level
  obtain ⟨hsorted, hadded⟩ := foldl_insertFile_spec (edit.filesFor level)
    List.Pairwise.nil (by rw [List.append_nil]; exact hnew)
  apply inRow_of_sorted
  · intro f hf
    rcases mem_nextVersion hfresh hf with hf | ⟨hf, -⟩
    · exact hproper' f hf
    · exact hproper f hf
  · rw [hfiles]
    exact l.mergeFiles_sorted hsorted (hrow.sorted hproper)
  · rw [hfiles, (l.mergeFiles_perm _ _).pairwise_iff fun h => h.symm, LevelState.kept,
      List.filter_append, List.pairwise_append]
    refine ⟨hadded.sublist List.filter_sublist, ?_, ?_⟩
    · exact (List.Pairwise.imp (fun hlt => Or.inl hlt) hrow).sublist List.filter_sublist
    · intro g hg f hf
      obtain ⟨hf, hnot⟩ := List.mem_filter.mp hf
      rw [decide_eq_true_eq, hdeleted] at hnot
      rcases mem_foldl_insertFile _ (List.mem_of_mem_filter hg) with hg | hg
      · exact (hapart f hf hnot g hg).symm
      · simp at hg

end Lpad
