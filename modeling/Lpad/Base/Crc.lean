import Mathlib.Data.Nat.Bitwise
import Mathlib.Logic.Function.Iterate

/-!
# Reflected cyclic redundancy checks

A remainder of `w` bits takes in its data lowest bit first. One bit step is linear over
exclusive or, and a remainder whose low bits are clear only moves down. From these two facts
come the step by a table of 256 words (`byteStep_split`) and the step that takes in several
bytes at once (`foldl_absorb`), for any width and any polynomial.
-/

namespace Lpad.Crc

variable {w : Nat}

/-! ## Linear maps -/

/-- The map goes through exclusive or. -/
def Linear (f : BitVec w → BitVec w) : Prop := ∀ x y, f (x ^^^ y) = f x ^^^ f y

theorem Linear.iterate {f : BitVec w → BitVec w} (h : Linear f) : ∀ n, Linear f^[n]
  | 0 => fun _ _ => rfl
  | n + 1 => by
    intro x y
    rw [Function.iterate_succ_apply, h, Linear.iterate h n]
    rfl

/-! ## One bit and one byte -/

section Steps

variable (P : BitVec w)

/-- The remainder moves down one bit; the polynomial comes in when a bit drops out. -/
def bitStep (x : BitVec w) : BitVec w := (x >>> 1) ^^^ if x.getLsbD 0 then P else 0#w

/-- Eight bit steps. -/
def byteStep : BitVec w → BitVec w := (bitStep P)^[8]

theorem ite_xor (a b : Bool) : (if (a ^^ b) then P else 0#w) =
    (if a then P else 0#w) ^^^ if b then P else 0#w := by
  cases a <;> cases b <;> simp

theorem bitStep_linear : Linear (bitStep P) := by
  intro x y
  unfold bitStep
  rw [BitVec.ushiftRight_xor_distrib, BitVec.getLsbD_xor, ite_xor]
  ac_rfl

theorem byteStep_linear : Linear (byteStep P) := (bitStep_linear P).iterate 8

/-- **Clear low bits**: the remainder only moves down. -/
theorem iterate_bitStep_of_low : ∀ {n : Nat} {x : BitVec w}, (∀ i < n, x.getLsbD i = false) →
    (bitStep P)^[n] x = x >>> n
  | 0, _, _ => by rw [Function.iterate_zero, BitVec.ushiftRight_zero, id]
  | n + 1, x, h => by
    have hstep : bitStep P x = x >>> 1 := by
      rw [bitStep, h 0 (Nat.succ_pos n), if_neg Bool.false_ne_true, BitVec.xor_zero]
    have hlow : ∀ i < n, (x >>> 1).getLsbD i = false := by
      intro i hi
      rw [BitVec.getLsbD_ushiftRight, Nat.add_comm]
      exact h (i + 1) (Nat.succ_lt_succ hi)
    rw [Function.iterate_succ_apply, hstep, iterate_bitStep_of_low hlow,
      ← BitVec.shiftRight_add, Nat.add_comm]

theorem byteStep_shiftLeft (x : BitVec w) : byteStep P (x <<< 8) = x <<< 8 >>> 8 := by
  apply iterate_bitStep_of_low
  intro i hi
  rw [BitVec.getLsbD_shiftLeft, decide_eq_true hi]
  simp

end Steps

/-! ## Bytes of a word -/

theorem getLsbD_and_255 (x : BitVec w) (i : Nat) :
    (x &&& 255#w).getLsbD i = (x.getLsbD i && decide (i < 8)) := by
  have hmask : (255 : Nat).testBit i = decide (i < 8) := Nat.testBit_two_pow_sub_one 8 i
  rw [BitVec.getLsbD_and, BitVec.getLsbD_ofNat, hmask]
  by_cases hi : i < w
  · rw [decide_eq_true hi, Bool.true_and]
  · rw [BitVec.getLsbD_of_ge x i (Nat.le_of_not_lt hi), Bool.false_and, Bool.false_and]

theorem xor_and_255 (x y : BitVec w) : (x ^^^ y) &&& 255#w = (x &&& 255#w) ^^^ (y &&& 255#w) := by
  apply BitVec.eq_of_getLsbD_eq
  intro i _
  rw [BitVec.getLsbD_xor, getLsbD_and_255, getLsbD_and_255, getLsbD_and_255, BitVec.getLsbD_xor,
    Bool.and_xor_distrib_right]

/-- A word is its lowest byte and the rest. -/
theorem low_xor_high (x : BitVec w) : (x &&& 255#w) ^^^ (x >>> 8 <<< 8) = x := by
  apply BitVec.eq_of_getLsbD_eq
  intro i hi
  rw [BitVec.getLsbD_xor, getLsbD_and_255, BitVec.getLsbD_shiftLeft, BitVec.getLsbD_ushiftRight,
    decide_eq_true hi]
  by_cases hlow : i < 8
  · simp [hlow]
  · have hback : 8 + (i - 8) = i := Nat.add_sub_cancel' (Nat.le_of_not_lt hlow)
    simp [hlow, hback]

/-- No bit from `8 * n` on is set. -/
def Short (n : Nat) (x : BitVec w) : Prop := ∀ i, 8 * n ≤ i → x.getLsbD i = false

theorem short_and_255 (x : BitVec w) : Short 1 (x &&& 255#w) := by
  intro i hi
  rw [getLsbD_and_255, decide_eq_false (Nat.not_lt.mpr hi), Bool.and_false]

theorem Short.and_255 {x : BitVec w} (h : Short 1 x) : x &&& 255#w = x := by
  apply BitVec.eq_of_getLsbD_eq
  intro i _
  rw [getLsbD_and_255]
  by_cases hi : i < 8
  · rw [decide_eq_true hi, Bool.and_true]
  · rw [h i (Nat.le_of_not_lt hi), Bool.false_and]

theorem Short.ushiftRight {n : Nat} {x : BitVec w} (h : Short (n + 1) x) : Short n (x >>> 8) := by
  intro i hi
  rw [BitVec.getLsbD_ushiftRight]
  exact h (8 + i) (by omega)

theorem Short.ushiftRight_eq_zero {x : BitVec w} (h : Short 1 x) : x >>> 8 = 0#w := by
  apply BitVec.eq_of_getLsbD_eq
  intro i _
  rw [BitVec.getLsbD_ushiftRight, BitVec.getLsbD_zero]
  exact h (8 + i) (Nat.le_add_right 8 i)

/-- A word with room for one byte more loses nothing. -/
theorem Short.shiftLeft_ushiftRight {n : Nat} {x : BitVec w} (h : Short n x)
    (hroom : 8 * (n + 1) ≤ w) : x <<< 8 >>> 8 = x := by
  apply BitVec.eq_of_getLsbD_eq
  intro i _
  rw [BitVec.getLsbD_ushiftRight, BitVec.getLsbD_shiftLeft]
  by_cases hi : 8 * n ≤ i
  · rw [Nat.add_sub_cancel_left, h i hi, Bool.and_false]
  · have hin : 8 + i < w := by omega
    simp [hin]

/-- The bytes from the lowest on, as one word. -/
def word : List (BitVec w) → BitVec w
  | [] => 0#w
  | b :: bs => b ^^^ (word bs <<< 8)

theorem short_word : ∀ {bs : List (BitVec w)}, (∀ b ∈ bs, Short 1 b) → Short bs.length (word bs)
  | [], _ => fun i _ => BitVec.getLsbD_zero
  | b :: bs, h => by
    intro i hi
    have hb := h b List.mem_cons_self
    have hbs := short_word fun c hc => h c (List.mem_cons_of_mem b hc)
    rw [List.length_cons] at hi
    rw [word, BitVec.getLsbD_xor, BitVec.getLsbD_shiftLeft, hb i (by omega),
      hbs (i - 8) (by omega)]
    simp

/-- The lowest `n` bytes of a word. -/
def bytes : Nat → BitVec w → List (BitVec w)
  | 0, _ => []
  | n + 1, x => (x &&& 255#w) :: bytes n (x >>> 8)

theorem short_of_mem_bytes : ∀ {n : Nat} {x b : BitVec w}, b ∈ bytes n x → Short 1 b
  | n + 1, x, b, h => by
    rcases List.mem_cons.mp h with rfl | h
    · exact short_and_255 x
    · exact short_of_mem_bytes h

theorem word_bytes : ∀ {n : Nat} {x : BitVec w}, Short n x → word (bytes n x) = x
  | 0, x, h => by
    apply BitVec.eq_of_getLsbD_eq
    intro i _
    rw [bytes, word, BitVec.getLsbD_zero, h i (Nat.zero_le i)]
  | n + 1, x, h => by
    rw [bytes, word, word_bytes h.ushiftRight]
    exact low_xor_high x

/-! ## Taking in bytes -/

section Absorb

variable (P : BitVec w)

/-- One byte goes into the remainder. -/
def absorb (l b : BitVec w) : BitVec w := byteStep P (l ^^^ b)

/-- **The step by table**: what a byte adds is looked up for the lowest byte alone. -/
theorem byteStep_split (x : BitVec w) : byteStep P x = byteStep P (x &&& 255#w) ^^^ (x >>> 8) := by
  have hhigh : byteStep P (x >>> 8 <<< 8) = x >>> 8 := by
    rw [byteStep_shiftLeft]
    apply BitVec.eq_of_getLsbD_eq
    intro i _
    rw [BitVec.getLsbD_ushiftRight, BitVec.getLsbD_shiftLeft, Nat.add_sub_cancel_left,
      BitVec.getLsbD_ushiftRight]
    by_cases hi : 8 + i < w
    · simp [hi]
    · rw [BitVec.getLsbD_of_ge x (8 + i) (Nat.le_of_not_lt hi), Bool.and_false]
  conv_lhs => rw [← low_xor_high x]
  rw [byteStep_linear P, hhigh]

/-- **Several bytes at once**: they go into the remainder as one word. -/
theorem foldl_absorb : ∀ {bs : List (BitVec w)} (l : BitVec w), (∀ b ∈ bs, Short 1 b) →
    8 * bs.length ≤ w → bs.foldl (absorb P) l = (byteStep P)^[bs.length] (l ^^^ word bs)
  | [], l, _, _ => by
    rw [List.foldl_nil, word, BitVec.xor_zero]
    rfl
  | b :: bs, l, hbs, hroom => by
    have htail : ∀ c ∈ bs, Short 1 c := fun c hc => hbs c (List.mem_cons_of_mem b hc)
    rw [List.length_cons] at hroom
    have hword : byteStep P (word bs <<< 8) = word bs := by
      rw [byteStep_shiftLeft, (short_word htail).shiftLeft_ushiftRight hroom]
    rw [List.foldl_cons, foldl_absorb _ htail (by omega), List.length_cons,
      Function.iterate_succ_apply, word, ← BitVec.xor_assoc, byteStep_linear P, hword]
    rfl

/-- The iterated step of a word, byte by byte. -/
theorem iterate_byteStep {n : Nat} {x : BitVec w} (h : Short n x) (hroom : 8 * n ≤ w) :
    (byteStep P)^[n] x = (bytes n x).foldl (absorb P) 0#w := by
  have hlen : (bytes n x).length = n := by
    clear h hroom
    induction n generalizing x with
    | zero => rfl
    | succ n ih => rw [bytes, List.length_cons, ih]
  rw [foldl_absorb P 0#w (fun b hb => short_of_mem_bytes hb) (by rw [hlen]; exact hroom),
    hlen, word_bytes h, BitVec.zero_xor]

end Absorb

end Lpad.Crc
