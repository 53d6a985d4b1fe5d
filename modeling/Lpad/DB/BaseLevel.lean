import Lpad.DB.OverlapSearch

/-!
# `IsBaseLevelForKey` over a run of keys

The level pointers of a compaction only move forward, and a query that finds the key in a file
returns before it has looked at the deeper levels. For keys that do not decrease this changes no
answer: a pointer that has moved for a smaller key finds what one at the start finds
(`PtrsAgreeBy`), and that is what a scan of all files finds.
-/

namespace Lpad

/-! ## Level pointers -/

theorem takeWhile_length_split {α : Type*} {p q : α → Bool}
    (h : ∀ x, p x = true → q x = true) : ∀ l : List α, (l.takeWhile q).length =
      (l.takeWhile p).length + ((l.drop (l.takeWhile p).length).takeWhile q).length
  | [] => rfl
  | x :: xs => by
    by_cases hp : p x = true
    · rw [List.takeWhile_cons_of_pos (h x hp), List.takeWhile_cons_of_pos hp]
      simp only [List.length_cons, List.drop_succ_cons]
      rw [takeWhile_length_split h xs, Nat.add_right_comm]
    · rw [List.takeWhile_cons_of_neg hp]
      simp

section Pointers

variable {ucmp : Bytes → Bytes → Ordering} {v : Version} {key key' : Bytes} {p q r : Nat → Nat}

/-- The pointers `p` and `q` find the same files for all keys from `key` on. -/
def PtrsAgreeBy (ucmp : Bytes → Bytes → Ordering) (v : Version) (key : Bytes)
    (p q : Nat → Nat) : Prop :=
  ∀ lvl key', ucmp key key' ≠ .gt →
    seekLevelBy ucmp (v.files lvl) key' (p lvl) = seekLevelBy ucmp (v.files lvl) key' (q lvl)

theorem PtrsAgreeBy.refl (key : Bytes) (p : Nat → Nat) : PtrsAgreeBy ucmp v key p p :=
  fun _ _ _ => rfl

theorem PtrsAgreeBy.symm (h : PtrsAgreeBy ucmp v key p q) : PtrsAgreeBy ucmp v key q p :=
  fun lvl key' hle => (h lvl key' hle).symm

theorem PtrsAgreeBy.trans (h : PtrsAgreeBy ucmp v key p q) (h' : PtrsAgreeBy ucmp v key q r) :
    PtrsAgreeBy ucmp v key p r :=
  fun lvl key' hle => (h lvl key' hle).trans (h' lvl key' hle)

variable [Std.TransCmp ucmp]

theorem PtrsAgreeBy.mono (h : PtrsAgreeBy ucmp v key p q) (hle : ucmp key key' ≠ .gt) :
    PtrsAgreeBy ucmp v key' p q := by
  intro lvl key'' hle'
  apply h lvl key''
  rw [ne_eq, ← Ordering.isLE_iff_ne_gt] at hle hle' ⊢
  exact Std.TransCmp.isLE_trans hle hle'

/-- A pointer that has moved for a smaller key is no obstacle for a larger one. -/
theorem seekLevelBy_seekLevelBy (h : ucmp key key' ≠ .gt) (files : List FileMetaData)
    (ptr : Nat) : seekLevelBy ucmp files key' (seekLevelBy ucmp files key ptr) =
      seekLevelBy ucmp files key' ptr := by
  obtain ⟨κ, _, urank, hrank⟩ := exists_ranks ucmp
  have hmono : ∀ f : FileMetaData, (ucmp key f.limitKey == .gt) = true →
      (ucmp key' f.limitKey == .gt) = true := by
    intro f hf
    rw [ne_eq, hrank.gt_iff, not_lt] at h
    rw [beq_iff_eq, hrank.gt_iff] at hf ⊢
    exact lt_of_lt_of_le hf h
  have hsplit := takeWhile_length_split hmono (files.drop ptr)
  rw [List.drop_drop] at hsplit
  unfold seekLevelBy
  rw [hsplit, Nat.add_assoc]

theorem ptrsAgreeBy_seek (v : Version) (key : Bytes) (p : Nat → Nat) (lvl : Nat) :
    PtrsAgreeBy ucmp v key p
      (Function.update p lvl (seekLevelBy ucmp (v.files lvl) key (p lvl))) := by
  intro lvl' key' hle
  by_cases hlvl : lvl' = lvl
  · subst hlvl
    rw [Function.update_self, seekLevelBy_seekLevelBy hle]
  · rw [Function.update_of_ne hlvl]

/-- The pointers after a query find what they found before it. -/
theorem baseLevelLoopBy_ptrs (v : Version) (key : Bytes) : ∀ (lvls : List Nat) (p : Nat → Nat),
    PtrsAgreeBy ucmp v key p (baseLevelLoopBy ucmp v key lvls p).2
  | [], p => PtrsAgreeBy.refl key p
  | lvl :: lvls, p => by
    have hseek : PtrsAgreeBy ucmp v key p _ := ptrsAgreeBy_seek v key p lvl
    unfold baseLevelLoopBy
    dsimp only
    split
    · split
      · exact hseek.trans (baseLevelLoopBy_ptrs v key lvls _)
      · exact hseek
    · exact hseek.trans (baseLevelLoopBy_ptrs v key lvls _)

/-- Pointers that agree get the same answer. -/
theorem baseLevelLoopBy_answer : ∀ (lvls : List Nat) {p q : Nat → Nat},
    PtrsAgreeBy ucmp v key p q →
    (baseLevelLoopBy ucmp v key lvls p).1 = (baseLevelLoopBy ucmp v key lvls q).1
  | [], _, _, _ => rfl
  | lvl :: lvls, p, q, h => by
    have hself : ucmp key key ≠ .gt := by
      have heq : ucmp key key = .eq := Std.ReflCmp.compare_self
      rw [heq]
      decide
    have hptr := h lvl key hself
    have hnext := (ptrsAgreeBy_seek v key p lvl).symm.trans
      (h.trans (ptrsAgreeBy_seek v key q lvl))
    rw [hptr] at hnext
    have ih := baseLevelLoopBy_answer lvls hnext
    unfold baseLevelLoopBy
    dsimp only
    rw [hptr]
    split
    · split
      · exact ih
      · rfl
    · exact ih

end Pointers

/-! ## One query with fresh pointers -/

section Fresh

variable {ucmp : Bytes → Bytes → Ordering}

/-- The user-key range of a file contains the key. -/
def FileMetaData.HoldsKeyBy (ucmp : Bytes → Bytes → Ordering) (f : FileMetaData)
    (key : Bytes) : Prop :=
  ucmp key f.startKey ≠ .lt ∧ ucmp key f.limitKey ≠ .gt

instance (f : FileMetaData) (key : Bytes) : Decidable (f.HoldsKeyBy ucmp key) :=
  inferInstanceAs (Decidable (_ ∧ _))

variable [Std.TransCmp ucmp] {v : Version}

/-- At the place where the pointer comes to rest, the start key decides for the level. -/
theorem seekLevelBy_zero {files : List FileMetaData} (h : InRowBy ucmp files) (key : Bytes) :
    (files[seekLevelBy ucmp files key 0]?.any fun f => ucmp key f.startKey != .lt) = true ↔
      ∃ f ∈ files, f.HoldsKeyBy ucmp key := by
  obtain ⟨κ, _, urank, hrank⟩ := exists_ranks ucmp
  have hbefore : files.Pairwise fun f g =>
      (ucmp key f.startKey == .lt) = true → (ucmp key g.startKey == .lt) = true := by
    refine (h.startKey_le hrank).imp ?_
    intro f g hle
    simp only [beq_iff_eq, hrank.lt_iff]
    exact fun hlt => hlt.trans_le hle
  have hptr : seekLevelBy ucmp files key 0 =
      files.findIdx fun f => !(ucmp key f.limitKey == .gt) := by
    rw [seekLevelBy, List.drop_zero, Nat.zero_add, List.takeWhile_eq_take_findIdx_not,
      List.length_take]
    exact min_eq_left List.findIdx_le_length
  have hfirst := any_eq_of_first (fun f => ucmp key f.limitKey == .gt) hbefore
  rw [hptr]
  simp only [bne]
  rw [← hfirst, List.any_eq_true]
  simp only [Bool.not_eq_true', Bool.or_eq_false_iff, beq_eq_false_iff_ne,
    FileMetaData.HoldsKeyBy, ne_eq, and_comm]

/-- **A query with fresh pointers** is true just when no file of the levels holds the key. -/
theorem baseLevelLoopBy_fresh (key : Bytes) : ∀ (lvls : List Nat),
    (∀ lvl ∈ lvls, InRowBy ucmp (v.files lvl)) →
    ((baseLevelLoopBy ucmp v key lvls fun _ => 0).1 = true ↔
      ∀ lvl ∈ lvls, ∀ f ∈ v.files lvl, ¬ f.HoldsKeyBy ucmp key)
  | [], _ => by simp [baseLevelLoopBy]
  | lvl :: lvls, hrow => by
    have hlevel := seekLevelBy_zero (hrow lvl List.mem_cons_self) key
    have ih := baseLevelLoopBy_fresh key lvls fun l hl => hrow l (List.mem_cons_of_mem lvl hl)
    -- the pointer that this level has moved makes no difference to the levels behind it
    rw [baseLevelLoopBy_answer lvls (ptrsAgreeBy_seek v key (fun _ => 0) lvl)] at ih
    rw [List.forall_mem_cons, ← ih, baseLevelLoopBy]
    cases hget : (v.files lvl)[seekLevelBy ucmp (v.files lvl) key 0]? with
    | none =>
      rw [hget, Option.any_none] at hlevel
      have hnone : ∀ f ∈ v.files lvl, ¬ f.HoldsKeyBy ucmp key :=
        fun f hf hholds => Bool.false_ne_true (hlevel.mpr ⟨f, hf, hholds⟩)
      exact (and_iff_right hnone).symm
    | some f =>
      rw [hget, Option.any_some, bne_iff_ne] at hlevel
      dsimp only
      split
      · rename_i hlt
        have hnone : ∀ f ∈ v.files lvl, ¬ f.HoldsKeyBy ucmp key :=
          fun f hf hholds => hlevel.mpr ⟨f, hf, hholds⟩ hlt
        exact (and_iff_right hnone).symm
      · rename_i hlt
        obtain ⟨g, hg, hholds⟩ := hlevel.mp hlt
        exact ⟨fun h => absurd h Bool.false_ne_true, fun h => absurd hholds (h.1 g hg)⟩

end Fresh

/-! ## A run of queries -/

section Run

variable {ucmp : Bytes → Bytes → Ordering}

/-- The answers to one key after the other on one compaction. -/
def Compaction.baseAnswersBy (ucmp : Bytes → Bytes → Ordering) :
    Compaction → List Bytes → List Bool
  | _, [] => []
  | c, key :: keys =>
    (c.isBaseLevelForKeyBy ucmp key).1 ::
      baseAnswersBy ucmp (c.isBaseLevelForKeyBy ucmp key).2 keys

/-- No file of the levels from `level + 2` on holds the key. -/
def Compaction.IsBaseLevel (ucmp : Bytes → Bytes → Ordering) (c : Compaction)
    (key : Bytes) : Prop :=
  ∀ lvl, c.level + 2 ≤ lvl → lvl < kNumLevels → ∀ f ∈ c.inputVersion.files lvl,
    ¬ f.HoldsKeyBy ucmp key

theorem Compaction.mem_deeperLevels {c : Compaction} {lvl : Nat} :
    lvl ∈ c.deeperLevels ↔ c.level + 2 ≤ lvl ∧ lvl < kNumLevels := by
  rw [deeperLevels, List.mem_range'_1]
  omega

variable [Std.TransCmp ucmp]

/-- With pointers that agree with fresh ones, a query answers as the scan of all files does. -/
theorem Compaction.isBaseLevelForKeyBy_iff {c : Compaction} {key : Bytes}
    (hrow : ∀ lvl > 0, InRowBy ucmp (c.inputVersion.files lvl))
    (hptrs : PtrsAgreeBy ucmp c.inputVersion key c.levelPtrs fun _ => 0) :
    (c.isBaseLevelForKeyBy ucmp key).1 = true ↔ c.IsBaseLevel ucmp key := by
  have hdeep : ∀ lvl ∈ c.deeperLevels, InRowBy ucmp (c.inputVersion.files lvl) := by
    intro lvl hlvl
    exact hrow lvl (Nat.zero_lt_of_lt (mem_deeperLevels.mp hlvl).1)
  have hfresh := baseLevelLoopBy_fresh key c.deeperLevels hdeep
  rw [← baseLevelLoopBy_answer c.deeperLevels hptrs] at hfresh
  refine hfresh.trans ?_
  simp only [mem_deeperLevels, and_imp, IsBaseLevel]

theorem Compaction.baseAnswersBy_run {keys : List Bytes} :
    ∀ {c : Compaction}, (∀ lvl > 0, InRowBy ucmp (c.inputVersion.files lvl)) →
      keys.Pairwise (fun a b => ucmp a b ≠ .gt) →
      (∀ key ∈ keys, PtrsAgreeBy ucmp c.inputVersion key c.levelPtrs fun _ => 0) →
      List.Forall₂ (fun key base => base = true ↔ c.IsBaseLevel ucmp key) keys
        (c.baseAnswersBy ucmp keys) := by
  induction keys with
  | nil => exact fun _ _ _ => List.Forall₂.nil
  | cons key keys ih =>
    intro c hrow hkeys hptrs
    obtain ⟨hfirst, hrest⟩ := List.pairwise_cons.mp hkeys
    have hagree := hptrs key List.mem_cons_self
    refine List.Forall₂.cons (c.isBaseLevelForKeyBy_iff hrow hagree) ?_
    apply ih (c := (c.isBaseLevelForKeyBy ucmp key).2) hrow hrest
    intro key' hkey'
    have hmoved : PtrsAgreeBy ucmp c.inputVersion key _ _ :=
      baseLevelLoopBy_ptrs c.inputVersion key c.deeperLevels c.levelPtrs
    exact (hmoved.symm.trans hagree).mono (hfirst key' hkey')

/-- **Moving pointers answer as the full scan**: for keys that do not decrease, each answer of a
new compaction is true exactly when no file of a level from `level + 2` on has the key in its
range. -/
theorem Compaction.baseAnswersBy_eq_scan {c : Compaction}
    (hrow : ∀ lvl > 0, InRowBy ucmp (c.inputVersion.files lvl))
    (hptrs : c.levelPtrs = fun _ => 0) {keys : List Bytes}
    (hkeys : keys.Pairwise fun a b => ucmp a b ≠ .gt) :
    List.Forall₂ (fun key base => base = true ↔ c.IsBaseLevel ucmp key) keys
      (c.baseAnswersBy ucmp keys) := by
  apply baseAnswersBy_run hrow hkeys
  intro key _
  rw [hptrs]
  exact PtrsAgreeBy.refl key _

end Run

/-- The two files with a common boundary key, at level 2. -/
def boundaryVersion : Version := ⟨fun lvl => if lvl = 2 then boundaryFiles else [], none⟩

theorem boundaryVersion_inRow (lvl : Nat) : InRowBy sliceCompare (boundaryVersion.files lvl) := by
  by_cases hlvl : lvl = 2
  · subst hlvl
    exact ⟨by decide +kernel, by decide +kernel⟩
  · have hfiles : boundaryVersion.files lvl = [] := if_neg hlvl
    rw [hfiles]
    exact ⟨List.Pairwise.nil, nofun⟩

theorem Compaction.baseAnswersBy_eq_scan_boundary :
    List.Forall₂
        (fun key base => base = true ↔
          (Compaction.new 0 boundaryVersion []).IsBaseLevel sliceCompare key)
        [[96], [98], [98], [101]]
        ((Compaction.new 0 boundaryVersion []).baseAnswersBy sliceCompare
          [[96], [98], [98], [101]]) ∧
      (Compaction.new 0 boundaryVersion []).baseAnswersBy sliceCompare
        [[96], [98], [98], [101]] = [true, false, false, true] :=
  ⟨Compaction.baseAnswersBy_eq_scan (fun lvl _ => boundaryVersion_inRow lvl) rfl
    (by decide +kernel), by decide +kernel⟩

end Lpad
