import Lpad.Base.RangeClosure
import Lpad.DB.VersionQueries

/-!
# The inputs that `GetOverlappingInputs` selects

On level 0 the loop widens the range to each file that it takes and starts over. It ends with
the files that meet the least range closed under the files of the level; below level 0 with
those that meet the range itself.
-/

namespace Lpad

section Scan

variable {κ : Type*} [LinearOrder κ] {ucmp : Bytes → Bytes → Ordering} {urank : Bytes → κ}
  {r : Range Bytes} {f : FileMetaData} {k : Bytes}

/-- The user keys of a file meet the range, in the order of the ranks. -/
abbrev FileMetaData.MeetsRange (urank : Bytes → κ) (f : FileMetaData) (r : Range Bytes) : Prop :=
  (r.map urank).Meets (urank f.startKey) (urank f.limitKey)

/-- The least range of user keys around `r` that covers each of the files which it meets. -/
abbrev ClosureOf (urank : Bytes → κ) (files : List FileMetaData) (r s : Range Bytes) : Prop :=
  Range.IsClosure (urank ∘ FileMetaData.startKey) (urank ∘ FileMetaData.limitKey) files
    (r.map urank) (s.map urank)

/-- One end of the range moves out to that of a file. -/
abbrev WidensTo (urank : Bytes → κ) (f : FileMetaData) (r r' : Range Bytes) : Prop :=
  Range.Widens (urank ∘ FileMetaData.startKey) (urank ∘ FileMetaData.limitKey) f
    (r.map urank) (r'.map urank)

theorem any_compare_lt_iff (hrank : Ranks ucmp urank) {b : Option Bytes} :
    (b.any fun b => ucmp k b == .lt) = true ↔ ∃ j ∈ b.map urank, urank k < j := by
  cases b <;> simp [hrank.lt_iff]

theorem any_compare_gt_iff (hrank : Ranks ucmp urank) {b : Option Bytes} :
    (b.any fun b => ucmp k b == .gt) = true ↔ ∃ j ∈ b.map urank, j < urank k := by
  cases b <;> simp [hrank.gt_iff]

/-- The two tests with which a file is skipped. -/
theorem not_meetsRange_iff (hrank : Ranks ucmp urank) : ¬ f.MeetsRange urank r ↔
    (r.lower.any fun b => ucmp f.limitKey b == .lt) = true ∨
      (r.upper.any fun e => ucmp f.startKey e == .gt) = true := by
  rw [any_compare_lt_iff hrank, any_compare_gt_iff hrank]
  exact Range.not_meets_iff

/-- **One pass over level 0** takes the files that meet the range and finds them covered, or
widens the range to one that is not. -/
theorem scanInputsBy_zero_cases (hrank : Ranks ucmp urank) (r : Range Bytes)
    (rest inputs : List FileMetaData) :
    (scanInputsBy ucmp 0 r.lower r.upper rest inputs =
        .done (inputs ++ rest.filter fun f => f.MeetsRange urank r) ∧
      ∀ f ∈ rest, f.MeetsRange urank r →
        (r.map urank).Covers (urank f.startKey) (urank f.limitKey)) ∨
    ∃ f ∈ rest, f.MeetsRange urank r ∧ ∃ r' : Range Bytes, WidensTo urank f r r' ∧
      scanInputsBy ucmp 0 r.lower r.upper rest inputs = .restart r'.lower r'.upper := by
  induction rest generalizing inputs with
  | nil => exact Or.inl ⟨by rw [scanInputsBy, List.filter_nil, List.append_nil], nofun⟩
  | cons f rest ih =>
    by_cases hmeets : f.MeetsRange urank r
    · obtain ⟨hbefore, hafter⟩ := not_or.mp (mt (not_meetsRange_iff hrank).mpr (not_not.mpr hmeets))
      unfold scanInputsBy
      rw [if_neg hbefore, if_neg hafter, if_pos rfl]
      by_cases hstart : (r.lower.any fun b => ucmp f.startKey b == .lt) = true
      · right
        obtain ⟨j, hj, hlt⟩ := (any_compare_lt_iff hrank).mp hstart
        refine ⟨f, List.mem_cons_self, hmeets, ⟨some f.startKey, r.upper⟩,
          Or.inl ⟨j, hj, hlt, rfl⟩, ?_⟩
        rw [if_pos hstart]
      · rw [if_neg hstart]
        by_cases hlimit : (r.upper.any fun e => ucmp f.limitKey e == .gt) = true
        · right
          obtain ⟨j, hj, hlt⟩ := (any_compare_gt_iff hrank).mp hlimit
          refine ⟨f, List.mem_cons_self, hmeets, ⟨r.lower, some f.limitKey⟩,
            Or.inr ⟨j, hj, hlt, rfl⟩, ?_⟩
          rw [if_pos hlimit]
        · rw [if_neg hlimit]
          rw [any_compare_lt_iff hrank] at hstart
          rw [any_compare_gt_iff hrank] at hlimit
          rcases ih (inputs ++ [f]) with ⟨hdone, hrest⟩ | ⟨g, hg, hrestart⟩
          · left
            rw [hdone, List.filter_cons, if_pos (decide_eq_true hmeets), List.append_assoc]
            refine ⟨rfl, ?_⟩
            intro g hg hmeets
            rcases List.mem_cons.mp hg with rfl | hg
            · exact Range.covers_iff.mpr ⟨hstart, hlimit⟩
            · exact hrest g hg hmeets
          · exact Or.inr ⟨g, List.mem_cons_of_mem f hg, hrestart⟩
    · -- the file lies outside, and both tests lead on to the next one
      have hskip : scanInputsBy ucmp 0 r.lower r.upper (f :: rest) inputs =
          scanInputsBy ucmp 0 r.lower r.upper rest inputs := by
        rw [scanInputsBy]
        rcases (not_meetsRange_iff hrank).mp hmeets with hbefore | hafter
        · rw [if_pos hbefore]
        · rw [if_pos hafter, ite_self]
      rw [hskip, List.filter_cons, if_neg (mt of_decide_eq_true hmeets)]
      rcases ih inputs with ⟨hdone, hrest⟩ | ⟨g, hg, hrestart⟩
      · left
        refine ⟨hdone, ?_⟩
        intro g hg hg'
        rcases List.mem_cons.mp hg with rfl | hg
        · exact absurd hg' hmeets
        · exact hrest g hg hg'
      · exact Or.inr ⟨g, List.mem_cons_of_mem f hg, hrestart⟩

/-- Below level 0 one pass decides, file by file. -/
theorem scanInputsBy_deep (hrank : Ranks ucmp urank) {level : Nat} (hlevel : level ≠ 0)
    (r : Range Bytes) : ∀ rest inputs : List FileMetaData,
      scanInputsBy ucmp level r.lower r.upper rest inputs =
        .done (inputs ++ rest.filter fun f => f.MeetsRange urank r)
  | [], inputs => by rw [scanInputsBy, List.filter_nil, List.append_nil]
  | f :: rest, inputs => by
    rw [List.filter_cons, scanInputsBy, if_neg hlevel]
    by_cases hmeets : f.MeetsRange urank r
    · obtain ⟨hbefore, hafter⟩ := not_or.mp (mt (not_meetsRange_iff hrank).mpr (not_not.mpr hmeets))
      rw [if_neg hbefore, if_neg hafter, if_pos (decide_eq_true hmeets),
        scanInputsBy_deep hrank hlevel r rest, List.append_assoc, List.singleton_append]
    · rw [if_neg (mt of_decide_eq_true hmeets), scanInputsBy_deep hrank hlevel r rest]
      rcases (not_meetsRange_iff hrank).mp hmeets with hbefore | hafter
      · rw [if_pos hbefore]
      · rw [if_pos hafter, ite_self]

end Scan

section Overlapping

variable {κ : Type*} [LinearOrder κ] {ucmp : Bytes → Bytes → Ordering} {urank : Bytes → κ}

/-- **The passes over level 0** end with the closure: each restart leaves fewer files sticking
out of the range. -/
theorem overlapLoopBy_zero (hrank : Ranks ucmp urank) (files : List FileMetaData) :
    ∀ (n : Nat) (r : Range Bytes),
      Range.outside (urank ∘ FileMetaData.startKey) (urank ∘ FileMetaData.limitKey) files
        (r.map urank) < n →
      ∃ s : Range Bytes, ClosureOf urank files r s ∧
        ((s.lower = none ↔ r.lower = none) ∧ (s.upper = none ↔ r.upper = none)) ∧
        ∀ rounds ≥ n, overlapLoopBy ucmp 0 files rounds r.lower r.upper =
          some (files.filter fun f => f.MeetsRange urank s)
  | 0, _, h => absurd h (Nat.not_lt_zero _)
  | n + 1, r, h => by
    rcases scanInputsBy_zero_cases hrank r files [] with
      ⟨hdone, hcovers⟩ | ⟨f, hf, hmeets, r', hwidens, hrestart⟩
    · refine ⟨r, Range.Closed.isClosure hcovers, ⟨.rfl, .rfl⟩, ?_⟩
      intro rounds hrounds
      obtain ⟨m, rfl⟩ := Nat.exists_eq_add_of_lt hrounds
      rw [overlapLoopBy, hdone]
      rfl
    · obtain ⟨s, hs, hends, hinputs⟩ := overlapLoopBy_zero hrank files n r'
        (Nat.lt_of_lt_of_le (hwidens.outside_lt hf) (Nat.le_of_lt_succ h))
      have hends' := hwidens.ends
      simp only [Range.map, Option.map_eq_none_iff] at hends'
      refine ⟨s, hwidens.isClosure hf hmeets hs,
        ⟨hends.1.trans hends'.1, hends.2.trans hends'.2⟩, ?_⟩
      intro rounds hrounds
      obtain ⟨m, rfl⟩ := Nat.exists_eq_add_of_lt hrounds
      rw [overlapLoopBy, hrestart]
      exact hinputs (n + m) (Nat.le_add_right n m)

/-- The user keys from `begin` to `end`, each possibly null. -/
def inputRange (begin' end' : Option Bytes) : Range Bytes :=
  ⟨begin'.map extractUserKey, end'.map extractUserKey⟩

/-- The inputs of level 0, which the loop reaches within two restarts for each file. -/
theorem Version.getOverlappingInputsBy_zero (hrank : Ranks ucmp urank) (v : Version)
    (begin' end' : Option Bytes) :
    ∃ s : Range Bytes, ClosureOf urank (v.files 0) (inputRange begin' end') s ∧
      ((s.lower = none ↔ begin' = none) ∧ (s.upper = none ↔ end' = none)) ∧
      ∀ rounds > 2 * (v.files 0).length, v.getOverlappingInputsBy ucmp rounds 0 begin' end' =
        some ((v.files 0).filter fun f => f.MeetsRange urank s) := by
  have houtside := Range.outside_le (urank ∘ FileMetaData.startKey)
    (urank ∘ FileMetaData.limitKey) (v.files 0) ((inputRange begin' end').map urank)
  obtain ⟨s, hs, hends, hinputs⟩ := overlapLoopBy_zero hrank (v.files 0)
    (2 * (v.files 0).length + 1) (inputRange begin' end') (Nat.lt_succ_of_le houtside)
  refine ⟨s, hs, ?_, hinputs⟩
  simpa only [inputRange, Option.map_eq_none_iff] using hends

theorem Version.getOverlappingInputsBy_deep (hrank : Ranks ucmp urank) (v : Version)
    {level : Nat} (hlevel : level ≠ 0) (begin' end' : Option Bytes) {rounds : Nat}
    (hrounds : 0 < rounds) :
    v.getOverlappingInputsBy ucmp rounds level begin' end' =
      some ((v.files level).filter fun f => f.MeetsRange urank (inputRange begin' end')) := by
  obtain ⟨n, rfl⟩ := Nat.exists_eq_succ_of_ne_zero hrounds.ne'
  have hscan := scanInputsBy_deep hrank hlevel (inputRange begin' end') (v.files level) []
  rw [inputRange] at hscan
  rw [getOverlappingInputsBy, overlapLoopBy, hscan, inputRange]
  rfl

/-- **`GetOverlappingInputs` selects a closure.** On level 0 it ends after at most two restarts
for each file and returns the files that meet the least range which holds `[begin, end]` and
every file that it meets; a side without a bound stays so. On the other levels it returns the
files that meet `[begin, end]`. -/
theorem Version.getOverlappingInputsBy_closure (hrank : Ranks ucmp urank) (v : Version)
    (begin' end' : Option Bytes) :
    (∃ s : Range Bytes, ClosureOf urank (v.files 0) (inputRange begin' end') s ∧
      ((s.lower = none ↔ begin' = none) ∧ (s.upper = none ↔ end' = none)) ∧
      ∀ rounds > 2 * (v.files 0).length, v.getOverlappingInputsBy ucmp rounds 0 begin' end' =
        some ((v.files 0).filter fun f => f.MeetsRange urank s)) ∧
    ∀ level > 0, ∀ rounds > 0, v.getOverlappingInputsBy ucmp rounds level begin' end' =
      some ((v.files level).filter fun f => f.MeetsRange urank (inputRange begin' end')) := by
  constructor
  · exact v.getOverlappingInputsBy_zero hrank begin' end'
  · intro level hlevel rounds hrounds
    exact v.getOverlappingInputsBy_deep hrank hlevel.ne' begin' end' hrounds

/-- Three files in a chain: the range of the first reaches the third over the second. -/
def chainVersion : Version where
  files
    | 0 => [chainFile 1 97 99, chainFile 2 98 101, chainFile 3 100 102]
    | _ => []
  fileToCompact := none
where
  chainFile (number : Nat) (a b : UInt8) : FileMetaData :=
    ⟨number, 0, appendInternalKey ⟨[a], number, .kTypeValue⟩,
      appendInternalKey ⟨[b], number, .kTypeValue⟩⟩

theorem Version.getOverlappingInputsBy_closure_chain :
    (∃ s : Range Bytes, ClosureOf id (chainVersion.files 0)
        (inputRange (some (appendInternalKey ⟨[97], 9, .kTypeValue⟩))
          (some (appendInternalKey ⟨[97], 9, .kTypeValue⟩))) s ∧
      ∀ rounds > 2 * (chainVersion.files 0).length,
        chainVersion.getOverlappingInputsBy sliceCompare rounds 0
            (some (appendInternalKey ⟨[97], 9, .kTypeValue⟩))
            (some (appendInternalKey ⟨[97], 9, .kTypeValue⟩)) =
          some ((chainVersion.files 0).filter fun f => f.MeetsRange id s)) ∧
      chainVersion.getOverlappingInputsBy sliceCompare 7 0
          (some (appendInternalKey ⟨[97], 9, .kTypeValue⟩))
          (some (appendInternalKey ⟨[97], 9, .kTypeValue⟩)) = some (chainVersion.files 0) := by
  obtain ⟨s, hs, -, hinputs⟩ := (Version.getOverlappingInputsBy_closure ranks_sliceCompare
    chainVersion (some (appendInternalKey ⟨[97], 9, .kTypeValue⟩))
    (some (appendInternalKey ⟨[97], 9, .kTypeValue⟩))).1
  exact ⟨⟨s, hs, hinputs⟩, by decide +kernel⟩

end Overlapping

/-! ## The bytewise comparator -/

theorem Version.getOverlappingInputs_eq {v : Version} {level : Nat} {begin' end' : Option Bytes}
    {inputs : List FileMetaData}
    (h : ∀ rounds > 2 * (v.files level).length,
      v.getOverlappingInputsBy sliceCompare rounds level begin' end' = some inputs) :
    v.getOverlappingInputs level begin' end' = inputs := by
  have hdone := h (2 * (v.files level).length + 1) (Nat.lt_succ_self _)
  rw [getOverlappingInputsBy, overlapLoopBy_sliceCompare] at hdone
  rw [getOverlappingInputs, hdone, Option.getD_some]

theorem Version.getOverlappingInputs_deep (v : Version) {level : Nat} (hlevel : level ≠ 0)
    (begin' end' : Option Bytes) : v.getOverlappingInputs level begin' end' =
      (v.files level).filter fun f => f.MeetsRange id (inputRange begin' end') :=
  getOverlappingInputs_eq fun _ hrounds =>
    v.getOverlappingInputsBy_deep ranks_sliceCompare hlevel begin' end' (Nat.zero_lt_of_lt hrounds)

/-- The inputs are files of the level, each once and in list order. -/
theorem Version.getOverlappingInputs_sublist (v : Version) (level : Nat)
    (begin' end' : Option Bytes) :
    (v.getOverlappingInputs level begin' end').Sublist (v.files level) := by
  by_cases hlevel : level = 0
  · subst hlevel
    obtain ⟨s, -, -, hinputs⟩ := v.getOverlappingInputsBy_zero ranks_sliceCompare begin' end'
    rw [getOverlappingInputs_eq hinputs]
    exact List.filter_sublist
  · rw [v.getOverlappingInputs_deep hlevel]
    exact List.filter_sublist

end Lpad
