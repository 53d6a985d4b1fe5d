import Mathlib.Data.List.Lex
import Mathlib.Algebra.GroupWithZero.Nat
import Mathlib.Order.Lattice

/-!
# Byte strings

The byte-level vocabulary the storage format is written in: `memcmp`, the
comparison of two slices, and fixed-width and little-endian numbers. The order
facts are not proved here a second time. Bytes are a linear order, so byte strings
are one too (the lexicographic order of `Mathlib.Data.List.Lex`), and the two C
comparisons are shown to be that order read through `Ordering`.
-/

namespace Lpad

abbrev Byte : Type := UInt8
abbrev Bytes : Type := List Byte

instance instLinearOrderByte : LinearOrder Byte where
  le_refl := UInt8.le_refl
  le_trans := fun _ _ _ => UInt8.le_trans
  le_antisymm := fun _ _ => UInt8.le_antisymm
  le_total := UInt8.le_total
  toDecidableLE := inferInstance
  lt_iff_le_not_ge := by
    intro a b
    simp only [UInt8.lt_iff_toNat_lt, UInt8.le_iff_toNat_le]
    omega

/-! ## The order on prefixes -/

theorem lt_of_take_lt_take : ∀ (n : Nat) {a b : Bytes}, a.take n < b.take n → a < b
  | 0, _, _, h => by simp at h
  | _ + 1, [], [], h => by simp at h
  | _ + 1, [], _ :: _, _ => by simp
  | _ + 1, _ :: _, [], h => by simp at h
  | n + 1, a :: as, b :: bs, h => by
    rw [List.take_succ_cons, List.take_succ_cons, List.cons_lt_cons_iff] at h
    rw [List.cons_lt_cons_iff]
    rcases h with hlt | ⟨rfl, hlt⟩
    · exact Or.inl hlt
    · exact Or.inr ⟨rfl, lt_of_take_lt_take n hlt⟩

theorem take_le_take {a b : Bytes} (n : Nat) (h : a ≤ b) : a.take n ≤ b.take n := by
  rw [← not_lt] at h ⊢
  exact fun hlt => h (lt_of_take_lt_take n hlt)

/-- No block of at most `n` bytes lies above `n` bytes of `0xff`. -/
theorem le_replicate_max : ∀ (n : Nat) {a : Bytes}, a.length ≤ n → a ≤ List.replicate n 255
  | _, [], _ => by
    rw [← not_lt]
    simp
  | n + 1, b :: bs, h => by
    have hle : bs ≤ List.replicate n 255 := le_replicate_max n (by simpa using h)
    rw [← not_lt] at hle ⊢
    rw [List.replicate_succ, List.cons_lt_cons_iff]
    rintro (hlt | ⟨-, hlt⟩)
    · exact absurd hlt (not_lt_of_ge (UInt8.le_iff_toNat_le.mpr (Nat.le_of_lt_succ b.toNat_lt)))
    · exact hle hlt

/-! ## Fixed-width numbers -/

/-- Conversion to a 32-bit unsigned type. -/
def uint32 (n : Nat) : Nat := n % 2 ^ 32

/-- Conversion to a 64-bit unsigned type. -/
def uint64 (n : Nat) : Nat := n % 2 ^ 64

theorem uint32_of_lt {n : Nat} (h : n < 2 ^ 32) : uint32 n = n := Nat.mod_eq_of_lt h

theorem uint64_of_lt {n : Nat} (h : n < 2 ^ 64) : uint64 n = n := Nat.mod_eq_of_lt h

/-! ## `memcmp` -/

/-- `memcmp` over the common length of the two blocks: the first differing byte
decides, compared unsigned. -/
def memcmp : Bytes → Bytes → Ordering
  | a :: as, b :: bs => if a < b then .lt else if b < a then .gt else memcmp as bs
  | _, _ => .eq

theorem memcmp_cons_self (a : Byte) (as bs : Bytes) :
    memcmp (a :: as) (a :: bs) = memcmp as bs := by
  simp [memcmp]

/-- On blocks of one length `memcmp` is negative exactly when the first is
lexicographically smaller. -/
theorem memcmp_lt_iff : ∀ {a b : Bytes}, a.length = b.length →
    (memcmp a b = .lt ↔ a < b)
  | [], [], _ => by simp [memcmp]
  | a :: as, b :: bs, h => by
    have hlen : as.length = bs.length := by simpa using h
    rw [List.cons_lt_cons_iff]
    rcases lt_trichotomy a b with hab | rfl | hba
    · simp [memcmp, hab]
    · rw [memcmp_cons_self, memcmp_lt_iff hlen]
      simp
    · simp [memcmp, hba, not_lt_of_gt hba, ne_of_gt hba]

/-- A prefix decides first: comparing concatenations whose first parts have one
length compares these parts, and the rest only when they are equal. -/
theorem memcmp_append : ∀ {a b : Bytes} (as bs : Bytes), a.length = b.length →
    memcmp (a ++ as) (b ++ bs) = (memcmp a b).then (memcmp as bs)
  | [], [], as, bs, _ => rfl
  | a :: a', b :: b', as, bs, h => by
    have hlen : a'.length = b'.length := by simpa using h
    rcases lt_trichotomy a b with hab | rfl | hba
    · simp [memcmp, hab]
    · simp only [List.cons_append, memcmp_cons_self]
      exact memcmp_append as bs hlen
    · simp [memcmp, hba, not_lt_of_gt hba]

/-! ## `Slice::compare` -/

/-- The comparison of two slices: `memcmp` over the common length, the shorter
slice first when that is a tie. -/
def sliceCompare (a b : Bytes) : Ordering :=
  (memcmp a b).then (compare a.length b.length)

theorem sliceCompare_cons_self (a : Byte) (as bs : Bytes) :
    sliceCompare (a :: as) (a :: bs) = sliceCompare as bs := by
  simp [sliceCompare, memcmp_cons_self, Nat.compare_eq_ite_lt]

theorem sliceCompare_lt_iff : ∀ {a b : Bytes}, sliceCompare a b = .lt ↔ a < b
  | [], [] => by simp [sliceCompare, memcmp]
  | [], b :: bs => by simp [sliceCompare, memcmp, Nat.compare_eq_ite_lt]
  | a :: as, [] => by simp [sliceCompare, memcmp, Nat.compare_eq_ite_lt]
  | a :: as, b :: bs => by
    rw [List.cons_lt_cons_iff]
    rcases lt_trichotomy a b with hab | rfl | hba
    · simp [sliceCompare, memcmp, hab]
    · rw [sliceCompare_cons_self, sliceCompare_lt_iff]
      simp
    · simp [sliceCompare, memcmp, hba, not_lt_of_gt hba, ne_of_gt hba]

theorem sliceCompare_eq_iff : ∀ {a b : Bytes}, sliceCompare a b = .eq ↔ a = b
  | [], [] => by simp [sliceCompare, memcmp]
  | [], b :: bs => by simp [sliceCompare, memcmp, Nat.compare_eq_ite_lt]
  | a :: as, [] => by simp [sliceCompare, memcmp, Nat.compare_eq_ite_lt]
  | a :: as, b :: bs => by
    rcases lt_trichotomy a b with hab | rfl | hba
    · simp [sliceCompare, memcmp, hab, ne_of_lt hab]
    · rw [sliceCompare_cons_self, sliceCompare_eq_iff]
      simp
    · simp [sliceCompare, memcmp, hba, not_lt_of_gt hba, ne_of_gt hba]

theorem sliceCompare_gt_iff {a b : Bytes} : sliceCompare a b = .gt ↔ b < a := by
  have hlt := @sliceCompare_lt_iff a b
  have heq := @sliceCompare_eq_iff a b
  rcases lt_trichotomy a b with h | h | h
  · simp [hlt.mpr h, not_lt_of_gt h]
  · subst h
    simp [heq.mpr rfl]
  · have hnlt : sliceCompare a b ≠ .lt := fun e => not_lt_of_gt h (hlt.mp e)
    have hneq : sliceCompare a b ≠ .eq := fun e => ne_of_gt h (heq.mp e)
    cases hc : sliceCompare a b with
    | lt => exact absurd hc hnlt
    | eq => exact absurd hc hneq
    | gt => simp [h]

/-! ## Little-endian numbers -/

/-- The number a block of bytes denotes, lowest byte first. -/
def leNat : Bytes → Nat
  | [] => 0
  | b :: bs => b.toNat + 256 * leNat bs

/-- The `n` low bytes of a number, lowest first. -/
def leBytes : Nat → Nat → Bytes
  | 0, _ => []
  | n + 1, v => UInt8.ofNat v :: leBytes n (v / 256)

@[simp] theorem leBytes_length : ∀ n v : Nat, (leBytes n v).length = n
  | 0, _ => rfl
  | n + 1, v => by simp [leBytes, leBytes_length n]

theorem leNat_lt : ∀ bs : Bytes, leNat bs < 256 ^ bs.length
  | [] => by simp [leNat]
  | b :: bs => by
    have ih := leNat_lt bs
    have hb := b.toNat_lt
    simp only [leNat, List.length_cons, Nat.pow_succ]
    omega

theorem leNat_leBytes : ∀ n v : Nat, leNat (leBytes n v) = v % 256 ^ n
  | 0, v => by simp [leBytes, leNat, Nat.mod_one]
  | n + 1, v => by
    have hbyte : (UInt8.ofNat v).toNat = v % 256 := by simp
    have hpow : 256 ^ (n + 1) = 256 * 256 ^ n := Nat.pow_succ'
    rw [leBytes, leNat, leNat_leBytes n, hbyte, hpow, Nat.mod_mul]

theorem leNat_injective : ∀ {a b : Bytes}, a.length = b.length →
    leNat a = leNat b → a = b
  | [], [], _, _ => rfl
  | a :: as, b :: bs, hlen, h => by
    have ha := a.toNat_lt
    have hb := b.toNat_lt
    simp only [leNat] at h
    have hhead : a = b := UInt8.toNat_inj.mp (by omega)
    have htail : leNat as = leNat bs := by omega
    rw [hhead, leNat_injective (by simpa using hlen) htail]

end Lpad
