import Lpad.Base.Bytes
import Mathlib.Data.List.Basic

/-!
# Bit arrays

Bits kept in bytes, eight to a byte and the lowest one first. Setting a bit clears no other.
-/

namespace Lpad.BitArray

def mask (i : Nat) : UInt8 := 1 <<< UInt8.ofNat (i % 8)

def set (array : Bytes) (i : Nat) : Bytes := array.modify (i / 8) (· ||| mask i)

/-- The bits behind the end are 0. -/
def test (array : Bytes) (i : Nat) : Bool := (array.getD (i / 8) 0 &&& mask i) != 0

variable {array : Bytes} {i j : Nat}

theorem or_and_eq (a b c : UInt8) : (a ||| b) &&& c = (a &&& c) ||| (b &&& c) := by
  apply UInt8.toNat_inj.mp
  rw [UInt8.toNat_and, UInt8.toNat_or, UInt8.toNat_or, UInt8.toNat_and, UInt8.toNat_and,
    Nat.and_or_distrib_right]

theorem mask_ne_zero (i : Nat) : mask i ≠ 0 := by
  have h : ∀ k < 8, (1 : UInt8) <<< UInt8.ofNat k ≠ 0 := by decide
  exact h (i % 8) (Nat.mod_lt i (by decide))

@[simp] theorem length_set (array : Bytes) (i : Nat) : (set array i).length = array.length :=
  List.length_modify _ _ _

theorem getD_set (h : i / 8 < array.length) :
    (set array i).getD (i / 8) 0 = array.getD (i / 8) 0 ||| mask i := by
  rw [set, List.getD_eq_getElem?_getD, List.getD_eq_getElem?_getD, List.getElem?_modify_eq,
    List.getElem?_eq_getElem h]
  rfl

theorem test_set_self (h : i / 8 < array.length) : test (set array i) i = true := by
  rw [test, getD_set h, or_and_eq, UInt8.and_self, bne_iff_ne]
  exact fun hzero => mask_ne_zero i (UInt8.or_eq_zero_iff.mp hzero).2

theorem lt_of_test (h : test array i = true) : i / 8 < array.length := by
  rw [test, bne_iff_ne] at h
  by_contra hle
  rw [List.getD_eq_getElem?_getD, List.getElem?_eq_none (not_lt.mp hle)] at h
  exact h UInt8.zero_and

theorem test_set (h : test array j = true) (i : Nat) : test (set array i) j = true := by
  have hlt := lt_of_test h
  rw [test, bne_iff_ne] at h ⊢
  by_cases hij : i / 8 = j / 8
  · rw [← hij] at hlt
    rw [← hij, getD_set hlt, or_and_eq]
    rw [← hij] at h
    exact fun hzero => h (UInt8.or_eq_zero_iff.mp hzero).1
  · have hget : (set array i).getD (j / 8) 0 = array.getD (j / 8) 0 := by
      rw [set, List.getD_eq_getElem?_getD, List.getD_eq_getElem?_getD,
        List.getElem?_modify_ne _ _ hij]
    rw [hget]
    exact h

theorem test_append (h : test array i = true) (rest : Bytes) : test (array ++ rest) i = true := by
  have hlt := lt_of_test h
  rw [test, bne_iff_ne] at h
  rw [test, bne_iff_ne, List.getD_eq_getElem?_getD, List.getElem?_append_left hlt,
    ← List.getD_eq_getElem?_getD]
  exact h

end Lpad.BitArray
