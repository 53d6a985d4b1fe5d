import Lpad.Base.Crc
import Lpad.Format.Coding
import Lpad.Format.Crc32cTables

/-!
# `crc32c::Extend`

`crc32c.cpp` takes in single bytes up to an address divisible by four, then sixteen and four
bytes at a time with tables for four bytes, then the rest byte by byte. Where one loop hands
over to the next depends on the address and the length, the value does not: no step changes
what the bytes that are left would make of the remainder one by one.
-/

namespace Lpad.Crc32c

/-- The polynomial of CRC-32C, lowest coefficient first; the tables come from it. -/
def polynomial : BitVec 32 := 0x82f63b78#32

/-! ## The source -/

def ofByte (b : Byte) : BitVec 32 := BitVec.ofNat 32 b.toNat

/-- The word of a table at an index. -/
def entry (table : List Nat) (i : BitVec 32) : BitVec 32 := BitVec.ofNat 32 (table.getD i.toNat 0)

/-- `STEP1` -/
def step1 (l : BitVec 32) (b : Byte) : BitVec 32 :=
  entry table0 ((l &&& 0xff#32) ^^^ ofByte b) ^^^ (l >>> 8)

/-- `STEP4`, with the bytes from `p` on. -/
def step4 (l : BitVec 32) (p : Bytes) : BitVec 32 :=
  let c := l ^^^ BitVec.ofNat 32 (decodeFixed32 p)
  entry table3 (c &&& 0xff#32) ^^^ entry table2 ((c >>> 8) &&& 0xff#32) ^^^
    entry table1 ((c >>> 16) &&& 0xff#32) ^^^ entry table0 (c >>> 24)

/-- `while (p != x)`, with `x - p` bytes to go. -/
def alignLoop : Nat → BitVec 32 → Bytes → BitVec 32 × Bytes
  | n + 1, l, b :: p => alignLoop n (step1 l b) p
  | _, l, p => (l, p)

/-- `while ((e-p) >= 16)` -/
def loop16 : Nat → BitVec 32 → Bytes → BitVec 32 × Bytes
  | 0, l, p => (l, p)
  | rounds + 1, l, p =>
    if p.length ≥ 16 then
      loop16 rounds (step4 (step4 (step4 (step4 l p) (p.drop 4)) (p.drop 8)) (p.drop 12))
        (p.drop 16)
    else (l, p)

/-- `while ((e-p) >= 4)` -/
def loop4 : Nat → BitVec 32 → Bytes → BitVec 32 × Bytes
  | 0, l, p => (l, p)
  | rounds + 1, l, p =>
    if p.length ≥ 4 then loop4 rounds (step4 l p) (p.drop 4) else (l, p)

/-- `Extend`, for data that starts at an address. -/
def extend (address : Nat) (crc : BitVec 32) (data : Bytes) : BitVec 32 :=
  let l := crc ^^^ 0xffffffff#32
  -- the first address from there on that is divisible by four, perhaps behind the data
  let x := (address + 3) >>> 2 <<< 2
  let (l, p) :=
    if x ≤ address + data.length then alignLoop (x - address) l data else (l, data)
  let (l, p) := loop16 p.length l p
  let (l, p) := loop4 p.length l p
  p.foldl step1 l ^^^ 0xffffffff#32

/-- `Value` -/
def value (address : Nat) (data : Bytes) : BitVec 32 := extend address 0#32 data

/-! ## The tables -/

open Crc

theorem entry_of_table {table : List Nat} {n : Nat}
    (htable : table = (List.range 256).map fun i =>
      ((byteStep polynomial)^[n] (BitVec.ofNat 32 i)).toNat)
    {i : BitVec 32} (hi : Short 1 i) : entry table i = (byteStep polynomial)^[n] i := by
  have hlt : i.toNat < 256 := by
    rw [← hi.and_255, BitVec.toNat_and]
    exact Nat.lt_succ_of_le Nat.and_le_right
  rw [entry, htable, List.getD_eq_getElem?_getD, List.getElem?_map, List.getElem?_range hlt]
  simp

theorem table0_eq : table0 = (List.range 256).map fun i =>
    ((byteStep polynomial)^[1] (BitVec.ofNat 32 i)).toNat := by
  decide +kernel

theorem table1_eq : table1 = (List.range 256).map fun i =>
    ((byteStep polynomial)^[2] (BitVec.ofNat 32 i)).toNat := by
  decide +kernel

theorem table2_eq : table2 = (List.range 256).map fun i =>
    ((byteStep polynomial)^[3] (BitVec.ofNat 32 i)).toNat := by
  decide +kernel

theorem table3_eq : table3 = (List.range 256).map fun i =>
    ((byteStep polynomial)^[4] (BitVec.ofNat 32 i)).toNat := by
  decide +kernel

/-! ## One step -/

theorem short_ofByte (b : Byte) : Short 1 (ofByte b) := by
  intro i hi
  rw [ofByte, BitVec.getLsbD_ofNat, Nat.testBit_lt_two_pow, Bool.and_false]
  exact Nat.lt_of_lt_of_le b.toNat_lt (Nat.pow_le_pow_right (by decide) hi)

/-- `STEP1` takes in one byte. -/
theorem step1_eq (l : BitVec 32) (b : Byte) : step1 l b = absorb polynomial l (ofByte b) := by
  have hb := short_ofByte b
  have hlow : (l ^^^ ofByte b) &&& 255#32 = (l &&& 255#32) ^^^ ofByte b := by
    rw [xor_and_255, hb.and_255]
  have hhigh : (l ^^^ ofByte b) >>> 8 = l >>> 8 := by
    rw [BitVec.ushiftRight_xor_distrib, hb.ushiftRight_eq_zero, BitVec.xor_zero]
  have hentry : entry table0 ((l ^^^ ofByte b) &&& 255#32) = _ :=
    entry_of_table table0_eq (short_and_255 _)
  rw [absorb, byteStep_split, hhigh, step1, ← hlow, hentry]
  rfl

/-- The four bytes of a word by the four tables. -/
theorem entries_eq (c : BitVec 32) :
    entry table3 (c &&& 0xff#32) ^^^ entry table2 ((c >>> 8) &&& 0xff#32) ^^^
      entry table1 ((c >>> 16) &&& 0xff#32) ^^^ entry table0 (c >>> 24) =
    (byteStep polynomial)^[4] c := by
  have hshort : Short 4 c := fun i hi => BitVec.getLsbD_of_ge c i hi
  have htop : c >>> 24 = (c >>> 24) &&& 255#32 := by
    have h24 : Short 1 (c >>> 8 >>> 8 >>> 8) := hshort.ushiftRight.ushiftRight.ushiftRight
    rw [← BitVec.shiftRight_add, ← BitVec.shiftRight_add] at h24
    exact h24.and_255.symm
  have hlin := byteStep_linear polynomial
  rw [htop, entry_of_table table3_eq (short_and_255 _), entry_of_table table2_eq (short_and_255 _),
    entry_of_table table1_eq (short_and_255 _), entry_of_table table0_eq (short_and_255 _),
    iterate_byteStep polynomial hshort (by decide)]
  simp only [bytes, List.foldl_cons, List.foldl_nil, absorb, BitVec.zero_xor, hlin _ _,
    ← BitVec.shiftRight_add]
  rfl

/-- Bytes loaded as a little-endian number are the word of these bytes. -/
theorem ofNat_leNat : ∀ bs : Bytes, BitVec.ofNat 32 (leNat bs) = word (bs.map ofByte)
  | [] => rfl
  | b :: bs => by
    rw [List.map_cons, word, ← ofNat_leNat bs, leNat]
    apply BitVec.eq_of_getLsbD_eq
    intro i hi
    have hb : b.toNat < 2 ^ 8 := b.toNat_lt
    have hbit : (b.toNat + 256 * leNat bs).testBit i =
        if i < 8 then b.toNat.testBit i else (leNat bs).testBit (i - 8) := by
      rw [Nat.add_comm]
      exact Nat.testBit_two_pow_mul_add (leNat bs) hb i
    rw [BitVec.getLsbD_xor, BitVec.getLsbD_shiftLeft, ofByte, BitVec.getLsbD_ofNat,
      BitVec.getLsbD_ofNat, BitVec.getLsbD_ofNat, hbit]
    by_cases hlow : i < 8
    · simp [hlow, hi]
    · have hzero : b.toNat.testBit i = false := Nat.testBit_lt_two_pow
        (Nat.lt_of_lt_of_le hb (Nat.pow_le_pow_right (by decide) (Nat.le_of_not_lt hlow)))
      have hin : i - 8 < 32 := by omega
      simp [hlow, hi, hzero, hin]

/-- **`STEP4` is four times `STEP1`.** -/
theorem step4_eq (l : BitVec 32) {p : Bytes} (h : 4 ≤ p.length) :
    step4 l p = (p.take 4).foldl step1 l := by
  have hstep : step1 = fun l b => absorb polynomial l (ofByte b) := by
    funext l b
    exact step1_eq l b
  have hlen : ((p.take 4).map ofByte).length = 4 := by
    rw [List.length_map, List.length_take, min_eq_left h]
  have hbytes : ∀ b ∈ (p.take 4).map ofByte, Short 1 b := by
    intro b hb
    obtain ⟨a, -, rfl⟩ := List.mem_map.mp hb
    exact short_ofByte a
  have hfold := foldl_absorb polynomial l hbytes (by rw [hlen])
  rw [hlen] at hfold
  rw [step4, entries_eq, decodeFixed32, ofNat_leNat, ← hfold, List.foldl_map, hstep]

/-! ## The loops -/

/-- What is still to come gives the same value before and after four bytes. -/
theorem foldl_step4 (l : BitVec 32) {p : Bytes} (h : 4 ≤ p.length) :
    (p.drop 4).foldl step1 (step4 l p) = p.foldl step1 l := by
  rw [step4_eq l h, ← List.foldl_append, List.take_append_drop]

theorem alignLoop_fold : ∀ (n : Nat) (l : BitVec 32) (p : Bytes),
    (alignLoop n l p).2.foldl step1 (alignLoop n l p).1 = p.foldl step1 l
  | 0, _, _ => rfl
  | _ + 1, _, [] => rfl
  | n + 1, l, b :: p => by
    rw [alignLoop, alignLoop_fold n, List.foldl_cons]

theorem loop16_fold : ∀ (rounds : Nat) (l : BitVec 32) (p : Bytes),
    (loop16 rounds l p).2.foldl step1 (loop16 rounds l p).1 = p.foldl step1 l
  | 0, _, _ => rfl
  | rounds + 1, l, p => by
    rw [loop16]
    split
    · rename_i hlen
      have hdrop : ∀ k ≤ 12, 4 ≤ (p.drop k).length := by
        intro k hk
        rw [List.length_drop]
        omega
      rw [loop16_fold rounds]
      have h12 := foldl_step4 (step4 (step4 (step4 l p) (p.drop 4)) (p.drop 8)) (hdrop 12 le_rfl)
      have h8 := foldl_step4 (step4 (step4 l p) (p.drop 4)) (hdrop 8 (by decide))
      have h4 := foldl_step4 (step4 l p) (hdrop 4 (by decide))
      rw [List.drop_drop] at h12 h8 h4
      rw [h12, h8, h4, foldl_step4 l (Nat.le_trans (by decide) hlen)]
    · rfl

theorem loop4_fold : ∀ (rounds : Nat) (l : BitVec 32) (p : Bytes),
    (loop4 rounds l p).2.foldl step1 (loop4 rounds l p).1 = p.foldl step1 l
  | 0, _, _ => rfl
  | rounds + 1, l, p => by
    rw [loop4]
    split
    · rename_i hlen
      rw [loop4_fold rounds, foldl_step4 l hlen]
    · rfl

/-- **`Extend` does not depend on the address**: it is `STEP1` for each byte. -/
theorem extend_eq (address : Nat) (crc : BitVec 32) (data : Bytes) :
    extend address crc data = data.foldl step1 (crc ^^^ 0xffffffff#32) ^^^ 0xffffffff#32 := by
  unfold extend
  dsimp only
  rw [loop4_fold, loop16_fold]
  split
  · rw [alignLoop_fold]
  · rfl

/-- **`Extend` composes**, whatever the addresses. -/
theorem extend_append (address address' address'' : Nat) (crc : BitVec 32) (a b : Bytes) :
    extend address' (extend address crc a) b = extend address'' crc (a ++ b) := by
  rw [extend_eq, extend_eq, extend_eq, BitVec.xor_assoc, BitVec.xor_self, BitVec.xor_zero,
    List.foldl_append]

/-- **Alignment and splitting make no difference.** `Extend` is the byte step over the data, it
composes, and the checksum that the log writer makes of the type byte and then the payload is
the one that the reader makes of both in a row. -/
theorem extend_independent :
    (∀ address crc data, extend address crc data =
      data.foldl step1 (crc ^^^ 0xffffffff#32) ^^^ 0xffffffff#32) ∧
    (∀ address address' address'' crc a b,
      extend address' (extend address crc a) b = extend address'' crc (a ++ b)) ∧
    ∀ typeAddress payloadAddress headerAddress (type : Byte) (payload : Bytes),
      extend payloadAddress (value typeAddress [type]) payload =
        value headerAddress (type :: payload) := by
  refine ⟨extend_eq, extend_append, ?_⟩
  intro typeAddress payloadAddress headerAddress type payload
  exact extend_append typeAddress payloadAddress headerAddress 0#32 [type] payload

end Lpad.Crc32c
