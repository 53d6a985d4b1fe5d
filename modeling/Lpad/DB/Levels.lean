import Lpad.Base.Interval
import Lpad.DB.OverlapClosure
import Lpad.DB.VersionSet

/-!
# Files of a level as intervals

A table file serves the internal keys from `smallest` to `largest`. From level 1 on
the files of a version are meant to lie in a row. This module says what the range
queries of `version_set.cpp` answer about such a level.
-/

namespace Lpad

/-! ## Files as intervals -/

def FileMetaData.lo (f : FileMetaData) : KeyRank := keyRank f.smallest

def FileMetaData.hi (f : FileMetaData) : KeyRank := keyRank f.largest

/-- One file lies completely before the other. -/
abbrev FilesApart (f g : FileMetaData) : Prop := Apart FileMetaData.lo FileMetaData.hi f g

/-- The files lie one after the other. -/
abbrev FilesInRow (files : List FileMetaData) : Prop :=
  InRow FileMetaData.lo FileMetaData.hi files

/-- The smallest keys are not above the largest. -/
abbrev FilesProper (files : List FileMetaData) : Prop :=
  Proper FileMetaData.lo FileMetaData.hi files

/-- The files are sorted and disjoint under `InternalKeyComparator`, the condition that
`SaveTo` checks in debug builds. -/
def SortedLevel (files : List FileMetaData) : Prop :=
  files.Pairwise fun f g => internalKeyCompare f.largest g.smallest = .lt

instance (files : List FileMetaData) : Decidable (SortedLevel files) :=
  inferInstanceAs (Decidable (List.Pairwise _ _))

theorem sortedLevel_iff {files : List FileMetaData} : SortedLevel files ↔ FilesInRow files := by
  unfold SortedLevel FilesInRow InRow
  simp only [internalKeyCompare_lt_iff]
  rfl

theorem FilesInRow.sorted_hi {files : List FileMetaData} (h : FilesInRow files)
    (hproper : FilesProper files) : files.Pairwise fun f g => f.hi ≤ g.hi := by
  refine List.Pairwise.imp_of_mem ?_ h
  intro f g _ hg hlt
  exact le_trans (le_of_lt hlt) (hproper g hg)

/-! ## `FindFile` -/

/-- **The loop of `FindFile`**: everything before the index is below the key, nothing
from it on. -/
theorem findFileLoop_spec {files : List FileMetaData} {key : Bytes}
    (hsorted : files.Pairwise fun f g => f.hi ≤ g.hi) :
    ∀ {fuel left right : Nat}, left ≤ right → right ≤ files.length → right - left ≤ fuel →
      (∀ f ∈ files.take left, f.hi < keyRank key) →
      (∀ f ∈ files.drop right, keyRank key ≤ f.hi) →
      (∀ f ∈ files.take (findFileLoop files key fuel left right), f.hi < keyRank key) ∧
      (∀ f ∈ files.drop (findFileLoop files key fuel left right), keyRank key ≤ f.hi)
  | 0, left, right, hle, _, hfuel, hbelow, habove => by
    obtain rfl : left = right := by omega
    exact ⟨hbelow, habove⟩
  | fuel + 1, left, right, hle, hright, hfuel, hbelow, habove => by
    unfold findFileLoop
    split
    · rename_i hlt
      have hmid : (left + right) / 2 < files.length := by omega
      dsimp only
      rw [List.getElem?_eq_getElem hmid]
      dsimp only
      have hsplit : files = files.take ((left + right) / 2) ++
          files[(left + right) / 2] :: files.drop ((left + right) / 2 + 1) := by
        rw [← List.drop_eq_getElem_cons hmid, List.take_append_drop]
      have hparts := hsorted
      rw [hsplit, List.pairwise_append, List.pairwise_cons] at hparts
      obtain ⟨-, ⟨hafter, -⟩, hbefore⟩ := hparts
      split
      · rename_i hcmp
        have hcmp := internalKeyCompare_lt_iff.mp hcmp
        refine findFileLoop_spec hsorted (by omega) hright (by omega) ?_ habove
        intro f hf
        rw [List.take_succ_eq_append_getElem hmid, List.mem_append, List.mem_singleton] at hf
        rcases hf with hf | rfl
        · exact lt_of_le_of_lt (hbefore f hf _ List.mem_cons_self) hcmp
        · exact hcmp
      · rename_i hcmp
        have hcmp := internalKeyCompare_ne_lt_iff.mp hcmp
        refine findFileLoop_spec hsorted (by omega) (by omega) (by omega) hbelow ?_
        intro f hf
        rw [List.drop_eq_getElem_cons hmid, List.mem_cons] at hf
        rcases hf with rfl | hf
        · exact hcmp
        · exact le_trans hcmp (hafter f hf)
    · obtain rfl : left = right := by omega
      exact ⟨hbelow, habove⟩

theorem findFile_spec {files : List FileMetaData} (key : Bytes) (hrow : FilesInRow files)
    (hproper : FilesProper files) :
    (∀ f ∈ files.take (findFile files key), f.hi < keyRank key) ∧
      (∀ f ∈ files.drop (findFile files key), keyRank key ≤ f.hi) := by
  refine findFileLoop_spec (hrow.sorted_hi hproper) (Nat.zero_le _) (Nat.le_refl _)
    (Nat.le_refl _) ?_ ?_
  · simp
  · simp

/-! ## Overlap with a range of user keys -/

/-- What a negative answer of `SomeFileOverlapsRange` says of each file. -/
theorem someFileOverlapsRange_eq_false {files : List FileMetaData} {s l : Bytes}
    {disjoint : Bool} (hrow : disjoint = true → FilesInRow files) (hproper : FilesProper files)
    (h : someFileOverlapsRange disjoint files (some s) (some l) = false) :
    ∀ f ∈ files, f.hi < keyRank (appendInternalKey ⟨s, kMaxSequenceNumber, .kTypeValue⟩) ∨
      l < f.startKey := by
  intro f hf
  cases disjoint with
  | false =>
    simp only [someFileOverlapsRange, if_true, List.any_eq_false, Bool.not_eq_true',
      Bool.not_eq_false, Bool.or_eq_true, afterFile, beforeFile, Option.any_some, beq_iff_eq,
      sliceCompare_gt_iff, sliceCompare_lt_iff] at h
    rcases h f hf with hafter | hbefore
    · left
      apply keyRank_lt_of_userKey_lt
      rw [extractUserKey_appendInternalKey]
      exact hafter
    · exact Or.inr hbefore
  | true =>
    have hfind := findFile_spec (appendInternalKey ⟨s, kMaxSequenceNumber, .kTypeValue⟩)
      (hrow rfl) hproper
    simp only [someFileOverlapsRange, Bool.true_eq_false, if_false] at h
    generalize findFile files (appendInternalKey ⟨s, kMaxSequenceNumber, .kTypeValue⟩) = i
      at h hfind
    have hmem := hf
    rw [← List.take_append_drop i files, List.mem_append] at hmem
    rcases hmem with hmem | hmem
    · exact Or.inl (hfind.1 f hmem)
    · right
      -- the file found lies after the range, and the others after it
      have hdrop := (hrow rfl).sublist (List.drop_sublist i files)
      cases htail : files.drop i with
      | nil =>
        rw [htail] at hmem
        simp at hmem
      | cons g rest =>
        rw [← List.head?_drop, htail] at h
        simp only [List.head?_cons, Bool.not_eq_false', beforeFile, Option.any_some,
          beq_iff_eq, sliceCompare_lt_iff] at h
        rw [htail] at hmem hdrop
        rcases List.mem_cons.mp hmem with rfl | hrest
        · exact h
        · have hlt := (List.pairwise_cons.mp hdrop).1 f hrest
          have hg : g ∈ files := List.mem_of_mem_drop (htail ▸ List.mem_cons_self)
          exact lt_of_lt_of_le h (userKey_le_of_keyRank_le (le_trans (hproper g hg)
            (le_of_lt hlt)))

theorem Version.overlapInLevel_eq_false {v : Version} {level : Nat} {s l : Bytes}
    (hrow : 0 < level → FilesInRow (v.files level)) (hproper : FilesProper (v.files level))
    (h : v.overlapInLevel level (some s) (some l) = false) :
    ∀ f ∈ v.files level,
      f.hi < keyRank (appendInternalKey ⟨s, kMaxSequenceNumber, .kTypeValue⟩) ∨
        l < f.startKey :=
  someFileOverlapsRange_eq_false (fun hd => hrow (of_decide_eq_true hd)) hproper h

/-! ## Where a flushed memtable goes -/

theorem Version.pickLevelLoop_clear {v : Version} {s l : Bytes} :
    ∀ (left level : Nat), (∀ j ≤ level, v.overlapInLevel j (some s) (some l) = false) →
      ∀ j ≤ v.pickLevelLoop s l left level, v.overlapInLevel j (some s) (some l) = false
  | 0, _, h => h
  | left + 1, level, h => by
    unfold pickLevelLoop
    split
    · exact h
    · rename_i hnext
      split
      · exact h
      · apply pickLevelLoop_clear left (level + 1)
        intro j hj
        rcases Nat.lt_or_eq_of_le hj with hlt | rfl
        · exact h j (Nat.le_of_lt_succ hlt)
        · exact Bool.eq_false_iff.mpr hnext

/-- A table that goes below level 0 overlaps nothing down to its level. -/
theorem Version.pickLevel_clear {v : Version} {s l : Bytes} {j : Nat}
    (hpos : 0 < v.pickLevelForMemTableOutput s l) (hj : j ≤ v.pickLevelForMemTableOutput s l) :
    v.overlapInLevel j (some s) (some l) = false := by
  unfold pickLevelForMemTableOutput at hpos hj
  split at hpos
  · exact absurd hpos (Nat.lt_irrefl 0)
  · rename_i hzero
    rw [if_neg hzero] at hj
    refine pickLevelLoop_clear kMaxMemCompactLevel 0 ?_ j hj
    intro j hj
    rw [Nat.le_zero.mp hj]
    exact Bool.eq_false_iff.mpr hzero

theorem Version.pickLevelLoop_le {v : Version} {s l : Bytes} :
    ∀ left level : Nat, v.pickLevelLoop s l left level ≤ level + left
  | 0, _ => Nat.le_refl _
  | left + 1, level => by
    unfold pickLevelLoop
    split
    · exact Nat.le_add_right _ _
    · split
      · exact Nat.le_add_right _ _
      · refine le_trans (pickLevelLoop_le left (level + 1)) (le_of_eq ?_)
        exact Nat.succ_add_eq_add_succ level left

theorem Version.pickLevel_le {v : Version} {s l : Bytes} :
    v.pickLevelForMemTableOutput s l ≤ kMaxMemCompactLevel := by
  unfold pickLevelForMemTableOutput
  split
  · exact Nat.zero_le _
  · exact le_trans (pickLevelLoop_le _ _) (le_of_eq (Nat.zero_add _))

/-! ## Inputs of a compaction -/

/-- One round of the loop of `GetRange`. -/
def widenRange (r : Bytes × Bytes) (f : FileMetaData) : Bytes × Bytes :=
  (if internalKeyCompare f.smallest r.1 = .lt then f.smallest else r.1,
    if internalKeyCompare f.largest r.2 = .gt then f.largest else r.2)

theorem getRange_cons (f : FileMetaData) (rest : List FileMetaData) :
    getRange (f :: rest) = rest.foldl widenRange (f.smallest, f.largest) := rfl

/-- A round takes the file in and loses nothing. -/
theorem widenRange_spec (r : Bytes × Bytes) (f : FileMetaData) :
    (keyRank (widenRange r f).1 ≤ keyRank r.1 ∧ keyRank (widenRange r f).1 ≤ f.lo) ∧
      (keyRank r.2 ≤ keyRank (widenRange r f).2 ∧ f.hi ≤ keyRank (widenRange r f).2) := by
  unfold widenRange
  constructor
  · dsimp only
    split
    · rename_i hlt
      exact ⟨le_of_lt (internalKeyCompare_lt_iff.mp hlt), le_refl _⟩
    · rename_i hge
      exact ⟨le_refl _, internalKeyCompare_ne_lt_iff.mp hge⟩
  · dsimp only
    split
    · rename_i hgt
      exact ⟨le_of_lt (internalKeyCompare_gt_iff.mp hgt), le_refl _⟩
    · rename_i hle
      exact ⟨le_refl _, not_lt.mp (mt internalKeyCompare_gt_iff.mpr hle)⟩

/-- `GetRange` covers all its files. -/
theorem getRange_covers {files : List FileMetaData} {f : FileMetaData} (hf : f ∈ files) :
    keyRank (getRange files).1 ≤ f.lo ∧ f.hi ≤ keyRank (getRange files).2 := by
  -- the induction also carries the range reached so far
  have hfold : ∀ (files : List FileMetaData) (r : Bytes × Bytes),
      (keyRank (files.foldl widenRange r).1 ≤ keyRank r.1 ∧
        keyRank r.2 ≤ keyRank (files.foldl widenRange r).2) ∧
      ∀ g ∈ files, keyRank (files.foldl widenRange r).1 ≤ g.lo ∧
        g.hi ≤ keyRank (files.foldl widenRange r).2 := by
    intro files
    induction files with
    | nil => simp
    | cons first rest ih =>
      intro r
      obtain ⟨⟨hlo, hhi⟩, hrest⟩ := ih (widenRange r first)
      obtain ⟨⟨hlo', hlof⟩, hhi', hhif⟩ := widenRange_spec r first
      refine ⟨⟨le_trans hlo hlo', le_trans hhi' hhi⟩, ?_⟩
      intro g hg
      rcases List.mem_cons.mp hg with rfl | hg
      · exact ⟨le_trans hlo hlof, le_trans hhif hhi⟩
      · exact hrest g hg
  cases files with
  | nil => simp at hf
  | cons first rest =>
    rw [getRange_cons]
    obtain ⟨hfirst, hrest⟩ := hfold rest (first.smallest, first.largest)
    rcases List.mem_cons.mp hf with rfl | hf
    · exact hfirst
    · exact hrest f hf

/-- **`GetOverlappingInputs` below level 0**: the files that overlap the range. -/
theorem Version.mem_getOverlappingInputs {v : Version} {level : Nat} (hlevel : level ≠ 0)
    {begin' end' : Bytes} {f : FileMetaData} :
    f ∈ v.getOverlappingInputs level (some begin') (some end') ↔
      f ∈ v.files level ∧ extractUserKey begin' ≤ f.limitKey ∧
        f.startKey ≤ extractUserKey end' := by
  rw [v.getOverlappingInputs_deep hlevel, List.mem_filter, decide_eq_true_iff]
  simp only [FileMetaData.MeetsRange, Range.Meets, Range.map, inputRange, Option.map_some,
    Option.mem_some, forall_eq', id]

/-- `inputs1` are the files of the next level that overlap `inputs0`. -/
structure Version.ClosedInputs (v : Version) (level : Nat)
    (inputs0 inputs1 : List FileMetaData) : Prop where
  mem : ∀ g, g ∈ inputs1 ↔ g ∈ v.files (level + 1) ∧
    extractUserKey (getRange inputs0).1 ≤ g.limitKey ∧
      g.startKey ≤ extractUserKey (getRange inputs0).2

theorem Version.closedInputs_overlapping (v : Version) (level : Nat)
    (inputs0 : List FileMetaData) :
    v.ClosedInputs level inputs0 (v.getOverlappingInputs (level + 1)
      (some (getRange inputs0).1) (some (getRange inputs0).2)) :=
  ⟨fun _ => mem_getOverlappingInputs (Nat.succ_ne_zero level)⟩

/-- However `SetupOtherInputs` has grown the inputs, those of the next level are the
ones that overlap. -/
theorem Version.growInputs_closed (v : Version) (level : Nat) (inputs0 : List FileMetaData) :
    v.ClosedInputs level (v.growInputs level inputs0).1 (v.growInputs level inputs0).2 := by
  unfold growInputs
  dsimp only
  split
  · exact v.closedInputs_overlapping level inputs0
  · split
    · split
      · exact v.closedInputs_overlapping level _
      · exact v.closedInputs_overlapping level inputs0
    · exact v.closedInputs_overlapping level inputs0

/-- The first-level inputs either stay or are replaced by all files of the level that
overlap some range. -/
theorem Version.growInputs_fst_eq (v : Version) (level : Nat) (inputs0 : List FileMetaData) :
    (v.growInputs level inputs0).1 = inputs0 ∨
      ∃ b e, (v.growInputs level inputs0).1 = v.getOverlappingInputs level b e := by
  unfold growInputs
  dsimp only
  split
  · exact Or.inl rfl
  · split
    · split
      · exact Or.inr ⟨_, _, rfl⟩
      · exact Or.inl rfl
    · exact Or.inl rfl

theorem Version.growInputs_fst (v : Version) (level : Nat) (inputs0 : List FileMetaData) :
    (v.growInputs level inputs0).1 = inputs0 ∨
      (v.growInputs level inputs0).1.Sublist (v.files level) := by
  rcases v.growInputs_fst_eq level inputs0 with heq | ⟨b, e, heq⟩
  · exact Or.inl heq
  · rw [heq]
    exact Or.inr (v.getOverlappingInputs_sublist level b e)

theorem Version.growInputs_snd (v : Version) (level : Nat) (inputs0 : List FileMetaData) :
    (v.growInputs level inputs0).2.Sublist (v.files (level + 1)) := by
  unfold growInputs
  dsimp only
  split
  · exact v.getOverlappingInputs_sublist _ _ _
  · split
    · split
      · exact v.getOverlappingInputs_sublist _ _ _
      · exact v.getOverlappingInputs_sublist _ _ _
    · exact v.getOverlappingInputs_sublist _ _ _

/-- **A file of the next level that is not an input lies outside all inputs**, on one
side of them. -/
theorem Version.ClosedInputs.outside {v : Version} {level : Nat}
    {inputs0 inputs1 : List FileMetaData} (h : v.ClosedInputs level inputs0 inputs1)
    (hrow : FilesInRow (v.files (level + 1))) (hproper : FilesProper (v.files (level + 1)))
    {g : FileMetaData} (hg : g ∈ v.files (level + 1)) (hnot : g ∉ inputs1) :
    (∀ f ∈ inputs0 ++ inputs1, g.hi < f.lo) ∨ (∀ f ∈ inputs0 ++ inputs1, f.hi < g.lo) := by
  have hside := mt (h.mem g).mpr hnot
  simp only [hg, true_and, not_and_or, not_le] at hside
  rcases hside with hbefore | hafter
  · left
    intro f hf
    rcases List.mem_append.mp hf with hf | hf
    · exact lt_of_lt_of_le (keyRank_lt_of_userKey_lt hbefore) (getRange_covers hf).1
    · obtain ⟨hmem, hlimit, -⟩ := (h.mem f).mp hf
      rcases hrow.apart hg hmem (by rintro rfl; exact hnot hf) with hlt | hlt
      · exact hlt
      · -- `f` would end before `g` does, and so before the range
        have hle : f.hi ≤ g.hi := le_trans (le_of_lt hlt) (hproper g hg)
        exact absurd (lt_of_le_of_lt (userKey_le_of_keyRank_le hle) hbefore) (not_lt_of_ge hlimit)
  · right
    intro f hf
    rcases List.mem_append.mp hf with hf | hf
    · exact lt_of_le_of_lt (getRange_covers hf).2 (keyRank_lt_of_userKey_lt hafter)
    · obtain ⟨hmem, -, hstart⟩ := (h.mem f).mp hf
      rcases hrow.apart hmem hg (by rintro rfl; exact hnot hf) with hlt | hlt
      · exact hlt
      · have hle : g.lo ≤ f.lo := le_trans (hproper g hg) (le_of_lt hlt)
        exact absurd (lt_of_lt_of_le hafter (userKey_le_of_keyRank_le hle)) (not_lt_of_ge hstart)

/-! ## Files without a common user key -/

/-- No user key lies in the ranges of both files. -/
def KeysApart (f g : FileMetaData) : Prop := f.limitKey < g.startKey ∨ g.limitKey < f.startKey

/-- No file of the level ends with the user key that another one starts with. -/
def Version.Unsplit (v : Version) (level : Nat) : Prop :=
  ∀ f ∈ v.files level, ∀ g ∈ v.files level, f ≠ g → f.limitKey ≠ g.startKey

instance (v : Version) (level : Nat) : Decidable (v.Unsplit level) :=
  inferInstanceAs (Decidable (∀ f ∈ v.files level, ∀ g ∈ v.files level, f ≠ g → _))

theorem Version.Unsplit.keysApart {v : Version} {level : Nat} (h : v.Unsplit level)
    (hrow : FilesInRow (v.files level)) {f g : FileMetaData} (hf : f ∈ v.files level)
    (hg : g ∈ v.files level) (hne : f ≠ g) : KeysApart f g := by
  rcases hrow.apart hf hg hne with hlt | hlt
  · left
    exact lt_of_le_of_ne (userKey_le_of_keyRank_le (le_of_lt hlt)) (h f hf g hg hne)
  · right
    exact lt_of_le_of_ne (userKey_le_of_keyRank_le (le_of_lt hlt)) (h g hg f hf hne.symm)

/-- **On level 0 the inputs are closed**: a file that is not taken has no user key in common
with one that is. -/
theorem Version.getOverlappingInputs_zero {v : Version} {begin' end' : Option Bytes}
    {f g : FileMetaData} (hg : g ∈ v.files 0) (hnot : g ∉ v.getOverlappingInputs 0 begin' end')
    (hf : f ∈ v.getOverlappingInputs 0 begin' end') : KeysApart g f := by
  obtain ⟨s, hclosure, -, hinputs⟩ := v.getOverlappingInputsBy_zero ranks_sliceCompare begin' end'
  rw [getOverlappingInputs_eq hinputs, List.mem_filter, decide_eq_true_iff] at hnot hf
  have hout : ¬ g.MeetsRange id s := fun hmeets => hnot ⟨hg, hmeets⟩
  obtain ⟨hstart, hlimit⟩ := hclosure.closed f hf.1 hf.2
  rcases Range.not_meets_iff.mp hout with ⟨k, hk, hlt⟩ | ⟨k, hk, hlt⟩
  · exact Or.inl (lt_of_lt_of_le hlt (hstart k hk))
  · exact Or.inr (lt_of_le_of_lt (hlimit k hk) hlt)

end Lpad
