import Lpad.Base.Cursor
import Lpad.Format.InternalKey
import Mathlib.Data.Prod.Lex

/-!
# Comparators

`comparator.cpp`: the bytewise comparator is a total order on byte strings.
`InternalKeyComparator` is one over any user comparator that is.
-/

namespace Lpad

/-- A key and a value as iterators show them. -/
abbrev Slices : Type := Entry Bytes Bytes

theorem ranks_sliceCompare : Ranks sliceCompare (id : Bytes → Bytes) := by
  intro a b
  symm
  cases h : sliceCompare a b with
  | lt => exact compare_lt_iff_lt.mpr (sliceCompare_lt_iff.mp h)
  | eq => exact compare_eq_iff_eq.mpr (sliceCompare_eq_iff.mp h)
  | gt => exact compare_gt_iff_gt.mpr (sliceCompare_gt_iff.mp h)

instance instTransCmpSliceCompare : Std.TransCmp sliceCompare := ranks_sliceCompare.transCmp

instance instLawfulEqCmpSliceCompare : Std.LawfulEqCmp sliceCompare where
  compare_self := sliceCompare_eq_iff.mpr rfl
  eq_of_compare := sliceCompare_eq_iff.mp

/-- `InternalKeyComparator::Compare` over any user comparator. -/
def internalKeyCompareBy (ucmp : Bytes → Bytes → Ordering) (a b : Bytes) : Ordering :=
  match ucmp (extractUserKey a) (extractUserKey b) with
  | .eq => if trailer a > trailer b then .lt else if trailer a < trailer b then .gt else .eq
  | r => r

theorem internalKeyCompareBy_sliceCompare :
    internalKeyCompareBy sliceCompare = internalKeyCompare := rfl

section InternalKeyComparator

variable {κ : Type*} [LinearOrder κ] {ucmp : Bytes → Bytes → Ordering} {urank : Bytes → κ}

/-- Ascending user key, then descending trailer. -/
def internalRank (urank : Bytes → κ) (key : Bytes) : κ ×ₗ Natᵒᵈ :=
  toLex (urank (extractUserKey key), OrderDual.toDual (trailer key))

theorem Ranks.internalKey (h : Ranks ucmp urank) :
    Ranks (internalKeyCompareBy ucmp) (internalRank urank) := by
  intro a b
  symm
  rw [internalKeyCompareBy]
  cases hu : ucmp (extractUserKey a) (extractUserKey b) with
  | lt => exact compare_lt_iff_lt.mpr (Prod.Lex.toLex_lt_toLex.mpr (Or.inl (h.lt_iff.mp hu)))
  | gt => exact compare_gt_iff_gt.mpr (Prod.Lex.toLex_lt_toLex.mpr (Or.inl (h.gt_iff.mp hu)))
  | eq =>
    have heq := h.eq_iff.mp hu
    dsimp only
    rcases lt_trichotomy (trailer a) (trailer b) with hlt | htr | hgt
    · rw [if_neg (not_lt_of_gt hlt), if_pos hlt, compare_gt_iff_gt]
      exact Prod.Lex.toLex_lt_toLex.mpr (Or.inr ⟨heq.symm, hlt⟩)
    · rw [htr, if_neg (lt_irrefl _), if_neg (lt_irrefl _), compare_eq_iff_eq, internalRank,
        internalRank, heq, htr]
    · rw [if_pos hgt, compare_lt_iff_lt]
      exact Prod.Lex.toLex_lt_toLex.mpr (Or.inr ⟨heq, hgt⟩)

end InternalKeyComparator

end Lpad
