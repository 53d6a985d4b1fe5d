import Lpad.Base.Run
import Lpad.Enclave.Sha1

/-!
# `sha1` is SHA-1

The 16 words of `X` are a window on the 80 words of the schedule: before round `t`, the
word `W_j` is at index `j mod 16` for the last 16 values of `j` (`Window`). The indices of
the five loops are written differently, but in round `t` they are those of `W_(t-16)`,
`W_(t-14)`, `W_(t-8)` and `W_(t-3)`. So every loop does the rounds of the standard, one
after the other.

What `hash_update` leaves in the buffer, `hash_final` pads to one or two blocks. These are
the last blocks of the padded message.
-/

namespace Lpad

open Sha1

/-! ## Words -/

theorem rotate_eq {n : Nat} (hn : n < 32) (a : Word) : rotate a n = a.rotateLeft n := by
  have hones : (0xffffffff#32 : Word) = BitVec.allOnes 32 := rfl
  rw [rotate, hones, BitVec.and_allOnes, BitVec.rotateLeft, BitVec.rotateLeftAux,
    Nat.mod_eq_of_lt hn]

@[simp] theorem uint_ulong (w : Word) : uint (ulong w) = w := by
  simp [uint, ulong]

@[simp] theorem uint_add (x y : ULong) : uint (x + y) = uint x + uint y := 
  BitVec.setWidth_add x y (by decide)

@[simp] theorem uint_xor (x y : ULong) : uint (x ^^^ y) = uint x ^^^ uint y := BitVec.setWidth_xor

theorem f00_19_eq : f00_19 = ch := by
  funext b c d
  apply BitVec.eq_of_getLsbD_eq
  intro i hi
  simp only [f00_19, ch, BitVec.getLsbD_xor, BitVec.getLsbD_and, BitVec.getLsbD_not, hi]
  cases b.getLsbD i <;> cases c.getLsbD i <;> cases d.getLsbD i <;> rfl

theorem f40_59_eq : f40_59 = maj := by
  funext b c d
  apply BitVec.eq_of_getLsbD_eq
  intro i hi
  simp only [f40_59, maj, BitVec.getLsbD_xor, BitVec.getLsbD_and, BitVec.getLsbD_or]
  cases b.getLsbD i <;> cases c.getLsbD i <;> cases d.getLsbD i <;> rfl

/-- The sums that are kept in the context. -/
theorem ulong_add (a b : Word) : (ulong a + ulong b) &&& 0xffffffff#64 = ulong (a + b) := by
  apply BitVec.eq_of_toNat_eq
  have ha := a.isLt
  have hb := b.isLt
  have hmask : (0xffffffff#64).toNat = 2 ^ 32 - 1 := rfl
  rw [BitVec.toNat_and, hmask, Nat.and_two_pow_sub_one_eq_mod]
  simp only [ulong, BitVec.toNat_add, BitVec.toNat_setWidth]
  omega

theorem hostL2c_ulong (w : Word) : hostL2c (ulong w) = bytesOfWord w := by
  have hmask : (0xff#64).toNat = 2 ^ 8 - 1 := rfl
  have hbyte : ∀ n, n ≤ 24 → ((ulong w >>> n) &&& 0xff#64).setWidth 8 = w.extractLsb' n 8 := by
    intro n hn
    apply BitVec.eq_of_toNat_eq
    have hw : w.toNat % 2 ^ 64 = w.toNat := Nat.mod_eq_of_lt (lt_trans w.isLt (by decide))
    rw [BitVec.toNat_setWidth, BitVec.toNat_and, hmask, Nat.and_two_pow_sub_one_eq_mod,
      BitVec.toNat_ushiftRight, ulong, BitVec.toNat_setWidth, BitVec.extractLsb'_toNat, hw,
      Nat.mod_mod]
  have h0 := hbyte 0 (by decide)
  rw [BitVec.ushiftRight_zero] at h0
  rw [hostL2c, bytesOfWord, hbyte 24 (by decide), hbyte 16 (by decide), hbyte 8 (by decide), h0]

/-- The shifts put each byte where the big-endian word has it. -/
theorem hostC2l_eq (data : Bytes) (t : Nat) : hostC2l data (4 * t) = wordAt data t := by
  unfold hostC2l wordAt
  generalize data.getD (4 * t) 0 = b₀
  generalize data.getD (4 * t + 1) 0 = b₁
  generalize data.getD (4 * t + 2) 0 = b₂
  generalize data.getD (4 * t + 3) 0 = b₃
  apply BitVec.eq_of_getLsbD_eq
  intro i hi
  simp only [uint, byteUlong, wordOfBytes, BitVec.getLsbD_setWidth, BitVec.getLsbD_or,
    BitVec.getLsbD_shiftLeft, BitVec.getLsbD_append, hi]
  have hz : ∀ (b : Byte) (j : Nat), 8 ≤ j → b.toBitVec.getLsbD j = false :=
    fun b j hj => BitVec.getLsbD_of_ge _ _ hj
  have h64 : i < 64 := by omega
  have h24 : i - 24 < 64 := by omega
  have h16 : i - 16 < 64 := by omega
  have h8 : i - 8 < 64 := by omega
  simp only [h64, h24, h16, h8, Nat.sub_sub, Nat.reduceAdd, decide_true, Bool.true_and]
  rcases (by omega : i < 8 ∨ 8 ≤ i ∧ i < 16 ∨ 16 ≤ i ∧ i < 24 ∨ 24 ≤ i) with h | h | h | h
  · simp [h, show i < 16 by omega, show i < 24 by omega]
  · simp [show ¬ i < 8 by omega, show i < 16 by omega, show i < 24 by omega,
      show i - 8 < 8 by omega, hz b₃ i (by omega)]
  · simp [show ¬ i < 8 by omega, show ¬ i < 16 by omega, show i < 24 by omega,
      show ¬ i - 8 < 8 by omega, show i - 16 < 8 by omega, hz b₃ i (by omega),
      hz b₂ (i - 8) (by omega)]
  · simp [show ¬ i < 8 by omega, show ¬ i < 16 by omega, show ¬ i < 24 by omega,
      show ¬ i - 8 < 8 by omega, show ¬ i - 16 < 8 by omega, hz b₃ i (by omega),
      hz b₂ (i - 8) (by omega), hz b₁ (i - 16) (by omega)]

/-! ## Rounds -/

/-- The sum of a round, in the orders in which the bodies add it up. -/
theorem round_sum (x f e k w : Word) :
    x + (e + k + f) + w = x + f + e + k + w ∧ x + (w + (e + k + f)) = x + f + e + k + w := by
  constructor <;> ac_rfl

theorem body00_15_eq {t : Nat} (hk : roundConstant t = uint k00_19) (hf : roundFunction t = f00_19)
    (r : Working) (xi : ULong) : body00_15 r xi = Sha1.round (uint xi) t r := by
  rw [body00_15, shiftRegs, Sha1.round, hk, hf, rotate_eq (by decide), rotate_eq (by decide)]
  simp only [uint_add, uint_ulong]
  rw [(round_sum _ _ _ _ _).1]

theorem body16_59_eq {k : ULong} {f : Word → Word → Word → Word} {t : Nat}
    (hk : roundConstant t = uint k) (hf : roundFunction t = f) (r : Working) (w : Word) :
    body16_59 k f r w = Sha1.round w t r := by
  rw [body16_59, shiftRegs, Sha1.round, hk, hf, rotate_eq (by decide), rotate_eq (by decide)]
  simp only [uint_add, uint_ulong]
  rw [(round_sum _ _ _ _ _).2]

theorem body60_79_eq {t : Nat} (hk : roundConstant t = uint k60_79) (hf : roundFunction t = f60_79)
    (r : Working) (w : Word) : body60_79 r w = Sha1.round w t r := by
  rw [body60_79, shiftRegs, Sha1.round, hk, hf, rotate_eq (by decide), rotate_eq (by decide)]
  simp only [uint_add, uint_ulong]
  rw [(round_sum _ _ _ _ _).1]

/-! Which constant and which function belong to a round. -/

theorem round00_19 {t : Nat} (ht : t < 20) :
    roundConstant t = uint k00_19 ∧ roundFunction t = f00_19 := by
  rw [roundConstant, roundFunction, if_pos ht, if_pos ht, f00_19_eq]
  exact ⟨rfl, rfl⟩

theorem round20_39 {t : Nat} (hge : 20 ≤ t) (hlt : t < 40) :
    roundConstant t = uint k20_39 ∧ roundFunction t = f20_39 := by
  rw [roundConstant, roundFunction, if_neg (not_lt.mpr hge), if_neg (not_lt.mpr hge), if_pos hlt,
    if_pos hlt]
  exact ⟨rfl, rfl⟩

theorem round40_59 {t : Nat} (hge : 40 ≤ t) (hlt : t < 60) :
    roundConstant t = uint k40_59 ∧ roundFunction t = f40_59 := by
  have h20 : ¬ t < 20 := by omega
  rw [roundConstant, roundFunction, if_neg h20, if_neg h20, if_neg (not_lt.mpr hge),
    if_neg (not_lt.mpr hge), if_pos hlt, if_pos hlt, f40_59_eq]
  exact ⟨rfl, rfl⟩

theorem round60_79 {t : Nat} (hge : 60 ≤ t) :
    roundConstant t = uint k60_79 ∧ roundFunction t = f60_79 := by
  have h20 : ¬ t < 20 := by omega
  have h40 : ¬ t < 40 := by omega
  rw [roundConstant, roundFunction, if_neg h20, if_neg h20, if_neg h40, if_neg h40,
    if_neg (not_lt.mpr hge), if_neg (not_lt.mpr hge)]
  exact ⟨rfl, rfl⟩

/-- Before round `t`, the array has the last 16 words of the schedule. -/
def Window (x : Nat → ULong) (block : Bytes) (t : Nat) : Prop :=
  ∀ j, j < t → t ≤ j + 16 → x (j % 16) = ulong (scheduleWord block j)

theorem Window.update {x : Nat → ULong} {block : Bytes} {t : Nat} (h : Window x block t) :
    Window (Function.update x (t % 16) (ulong (scheduleWord block t))) block (t + 1) := by
  intro j hj hle
  rcases Nat.lt_succ_iff_lt_or_eq.mp hj with hlt | rfl
  · -- of 16 consecutive numbers no two have the same remainder
    have hne : j % 16 ≠ t % 16 := by omega
    rw [Function.update_of_ne hne]
    exact h j hlt (by omega)
  · rw [Function.update_self]

theorem xor_reverse (w x y z : Word) : w ^^^ x ^^^ y ^^^ z = z ^^^ y ^^^ x ^^^ w := by
  ac_rfl

/-- `Xupdate` at the right indices computes the next word. -/
theorem Window.xupdate_eq {x : Nat → ULong} {block : Bytes} {t ia ib ic id : Nat}
    (h : Window x block t) (h16 : 16 ≤ t) (h80 : t < 80) (ha : ia = t % 16)
    (hb : ib = (t - 14) % 16) (hc : ic = (t - 8) % 16) (hd : id = (t - 3) % 16) :
    xupdate x ia ib ic id = scheduleWord block t := by
  have ha' : ia = (t - 16) % 16 := by omega
  rw [xupdate, ha', hb, hc, hd, h (t - 16) (by omega) (by omega), h (t - 14) (by omega) (by omega),
    h (t - 8) (by omega) (by omega), h (t - 3) (by omega) (by omega),
    schedule_recurrence h16 h80, rotate_eq (by decide)]
  simp only [uint_xor, uint_ulong]
  rw [xor_reverse]

/-- After `t` rounds on a block, from the hash value `h`. -/
structure InRound (block : Bytes) (h : Working) (t : Nat) (s : BlockState) : Prop where
  regs : s.regs = rounds (schedule block) t h
  window : Window s.x block t

theorem rounds_succ (w : List Word) (t : Nat) (h : Working) :
    rounds w (t + 1) h = Sha1.round (w.getD t 0) t (rounds w t h) := by
  rw [rounds, List.range_succ, List.foldl_append, ← rounds]
  rfl

theorem InRound.load {block : Bytes} {h : Working} {t : Nat} {s : BlockState}
    (hs : InRound block h t s) (ht : t < 16) : InRound block h (t + 1) (s.load block t) := by
  have hword : hostC2l block (4 * t) = scheduleWord block t := by
    rw [hostC2l_eq, schedule_lt ht]
  have hmod : t = t % 16 := (Nat.mod_eq_of_lt ht).symm
  have hround := round00_19 (lt_trans ht (by decide : 16 < 20))
  constructor
  case regs =>
    rw [BlockState.load]
    dsimp only
    rw [Function.update_self, body00_15_eq hround.1 hround.2, uint_ulong, hword, hs.regs,
      rounds_succ]
    rfl
  case window =>
    rw [BlockState.load]
    dsimp only
    rw [hword]
    nth_rewrite 1 [hmod]
    exact hs.window.update

theorem InRound.mix {block : Bytes} {h : Working} {t ia ib ic id : Nat} {s : BlockState}
    {body : Working → Word → Working} (hs : InRound block h t s) (h16 : 16 ≤ t) (h80 : t < 80)
    (hbody : ∀ r w, body r w = Sha1.round w t r) (ha : ia = t % 16) (hb : ib = (t - 14) % 16)
    (hc : ic = (t - 8) % 16) (hd : id = (t - 3) % 16) :
    InRound block h (t + 1) (s.mix body ia ib ic id) := by
  have hword := hs.window.xupdate_eq h16 h80 ha hb hc hd
  constructor
  case regs =>
    rw [BlockState.mix]
    dsimp only
    rw [hword, hbody, hs.regs, rounds_succ]
    rfl
  case window =>
    rw [BlockState.mix]
    dsimp only
    rw [hword, ha]
    exact hs.window.update

theorem and_fifteen (n : Nat) : n &&& 15 = n % 16 := Nat.and_two_pow_sub_one_eq_mod n 4

section Loops

variable {block : Bytes} {h : Working} {s : BlockState}

theorem InRound.loop00_15 (hs : InRound block h 0 s) :
    InRound block h 16 ((List.range 16).foldl (fun s i => s.load block i) s) := by
  apply foldl_range_induction (P := fun i s => InRound block h i s) hs
  intro i s hi hs
  exact hs.load hi

theorem InRound.loop16_19 (hs : InRound block h 16 s) :
    InRound block h 20 ((List.range 4).foldl
      (fun s i => s.mix body16_19 i (i + 2) (i + 8) ((i + 13) &&& 15)) s) := by
  apply foldl_range_induction (n := 4) (P := fun i s => InRound block h (16 + i) s) hs
  intro i s hi hs
  have hround := round00_19 (t := 16 + i) (by omega)
  apply hs.mix (by omega) (by omega) (body16_59_eq hround.1 hround.2) (by omega) (by omega)
    (by omega)
  rw [and_fifteen]
  omega

theorem InRound.loop20_39 (hs : InRound block h 20 s) :
    InRound block h 40 ((List.range' 4 20).foldl (fun s i =>
      s.mix body20_39 (i &&& 15) ((i + 2) &&& 15) ((i + 8) &&& 15) ((i + 13) &&& 15)) s) := by
  apply foldl_range'_induction (a := 4) (n := 20) (P := fun i s => InRound block h (16 + i) s) hs
  intro i s hge hi hs
  have hround := round20_39 (t := 16 + i) (by omega) (by omega)
  simp only [and_fifteen]
  apply hs.mix (by omega) (by omega) (body16_59_eq hround.1 hround.2) <;> omega

theorem InRound.loop40_59 (hs : InRound block h 40 s) :
    InRound block h 60 ((List.range 20).foldl (fun s i =>
      s.mix body40_59 ((i + 8) &&& 15) ((i + 10) &&& 15) (i &&& 15) ((i + 5) &&& 15)) s) := by
  apply foldl_range_induction (n := 20) (P := fun i s => InRound block h (40 + i) s) hs
  intro i s hi hs
  have hround := round40_59 (t := 40 + i) (by omega) (by omega)
  simp only [and_fifteen]
  apply hs.mix (by omega) (by omega) (body16_59_eq hround.1 hround.2) <;> omega

theorem InRound.loop60_79 (hs : InRound block h 60 s) :
    InRound block h 80 ((List.range' 4 20).foldl (fun s i =>
      s.mix body60_79 ((i + 8) &&& 15) ((i + 10) &&& 15) (i &&& 15) ((i + 5) &&& 15)) s) := by
  apply foldl_range'_induction (a := 4) (n := 20) (P := fun i s => InRound block h (56 + i) s) hs
  intro i s hge hi hs
  have hround := round60_79 (t := 56 + i) (by omega)
  simp only [and_fifteen]
  apply hs.mix (by omega) (by omega) (body60_79_eq hround.1 hround.2) <;> omega

end Loops

/-- **The five loops** are the 80 rounds. -/
theorem BlockState.run_regs (block : Bytes) (h : Working) (x : Nat → ULong) :
    (BlockState.run block ⟨h, x⟩).regs = rounds (schedule block) 80 h := by
  have hstart : InRound block h 0 ⟨h, x⟩ := ⟨rfl, fun j hj => absurd hj (Nat.not_lt_zero j)⟩
  exact hstart.loop00_15.loop16_19.loop20_39.loop40_59.loop60_79.regs

/-! ## Blocks -/

/-- The hash value of a context. -/
structure ShaCtx.Holds (c : ShaCtx) (h : Working) : Prop where
  h0 : c.h0 = ulong h.a
  h1 : c.h1 = ulong h.b
  h2 : c.h2 = ulong h.c
  h3 : c.h3 = ulong h.d
  h4 : c.h4 = ulong h.e

theorem ShaCtx.Holds.regs {c : ShaCtx} {h : Working} (hc : c.Holds h) : c.regs = h := by
  rw [ShaCtx.regs, hc.h0, hc.h1, hc.h2, hc.h3, hc.h4]
  simp only [uint_ulong]

theorem ShaCtx.Holds.addRegs {c : ShaCtx} {h : Working} (hc : c.Holds h) (r : Working) :
    (c.addRegs r).Holds (h.add r) where
  h0 := by rw [ShaCtx.addRegs, hc.h0, ulong_add, Working.add]
  h1 := by rw [ShaCtx.addRegs, hc.h1, ulong_add, Working.add]
  h2 := by rw [ShaCtx.addRegs, hc.h2, ulong_add, Working.add]
  h3 := by rw [ShaCtx.addRegs, hc.h3, ulong_add, Working.add]
  h4 := by rw [ShaCtx.addRegs, hc.h4, ulong_add, Working.add]

/-- A block is read up to its 64th byte. -/
theorem schedule_take (data : Bytes) : schedule (data.take 64) = schedule data := by
  have hword : ∀ t ∈ List.range 16, wordAt (data.take 64) t = wordAt data t := by
    intro t ht
    rw [List.mem_range] at ht
    have hget : ∀ i < 64, (data.take 64).getD i 0 = data.getD i 0 := by
      intro i hi
      rw [List.getD_eq_getElem?_getD, List.getD_eq_getElem?_getD, List.getElem?_take_of_lt hi]
    rw [wordAt, wordAt, hget _ (by omega), hget _ (by omega), hget _ (by omega), hget _ (by omega)]
  rw [schedule, schedule, List.map_congr_left hword]

theorem ShaCtx.hashBlockDataOrder_succ {c : ShaCtx} {h : Working} (hc : c.Holds h) (data : Bytes)
    (num : Nat) :
    ∃ c' : ShaCtx, c.hashBlockDataOrder data (num + 1) =
        c'.hashBlockDataOrder (data.drop 64) num ∧
      c'.Holds (compress h (data.take 64)) ∧
      c' = { c' with nl := c.nl, nh := c.nh, data := c.data, num := c.num } := by
  refine ⟨_, rfl, ?_, rfl⟩
  rw [hc.regs, BlockState.run_regs, compress, schedule_take]
  exact hc.addRegs _

theorem blocks_cons {data : Bytes} (h : 64 ≤ data.length) :
    blocks data = data.take 64 :: blocks (data.drop 64) := by
  have hcount : data.length / 64 = (data.drop 64).length / 64 + 1 := by
    rw [List.length_drop]
    omega
  rw [blocks, hcount, List.range_succ_eq_map, List.map_cons, List.map_map, blocks]
  congr 1
  apply List.map_congr_left
  intro i _
  simp only [Function.comp_apply, Nat.succ_eq_add_one, List.drop_drop]
  rw [Nat.mul_add, Nat.add_comm, Nat.mul_one]

theorem blocks_nil {data : Bytes} (h : data.length < 64) : blocks data = [] := by
  rw [blocks, Nat.div_eq_of_lt h]
  rfl

/-- **`HASH_BLOCK_DATA_ORDER`** over all complete blocks. The other fields stay. -/
theorem ShaCtx.hashBlockDataOrder_spec {c : ShaCtx} {h : Working} (hc : c.Holds h) {data : Bytes}
    {num : Nat} (hnum : num = data.length / 64) :
    ∃ c', c.hashBlockDataOrder data num = c' ∧ c'.Holds ((blocks data).foldl compress h) ∧
      c' = { c' with nl := c.nl, nh := c.nh, data := c.data, num := c.num } := by
  induction num generalizing c h data with
  | zero =>
    rw [blocks_nil (by omega)]
    exact ⟨c, rfl, hc, rfl⟩
  | succ num ih =>
    obtain ⟨c₁, hrun, hc₁, hframe⟩ := hashBlockDataOrder_succ hc data num
    have hrest : num = (data.drop 64).length / 64 := by
      rw [List.length_drop]
      omega
    obtain ⟨c', hrun', hc', hframe'⟩ := ih hc₁ hrest
    refine ⟨c', hrun.trans hrun', ?_, ?_⟩
    · rw [blocks_cons (by omega), List.foldl_cons]
      exact hc'
    · rw [hframe', hframe]

/-! ## Messages -/

/-- Blocks of a concatenation that is cut at a multiple of 64. -/
theorem blocks_append {xs ys : Bytes} {q : Nat} (h : xs.length = 64 * q) :
    blocks (xs ++ ys) = blocks xs ++ blocks ys := by
  induction q generalizing xs with
  | zero =>
    rw [List.length_eq_zero_iff.mp h]
    rfl
  | succ q ih =>
    have hlong : 64 ≤ xs.length := by omega
    have hrest : (xs.drop 64).length = 64 * q := by
      rw [List.length_drop]
      omega
    rw [blocks_cons hlong, blocks_cons (by rw [List.length_append]; omega),
      List.take_append_of_le_length hlong, List.drop_append_of_le_length hlong, ih hrest]
    rfl

theorem blocks_single {block : Bytes} (h : block.length = 64) : blocks block = [block] := by
  rw [blocks_cons (by omega), blocks_nil (by rw [List.length_drop]; omega),
    List.take_of_length_le (by omega)]

/-- A buffer of 64 bytes that begins with some bytes. -/
structure Starts (p bytes : Bytes) : Prop where
  length : p.length = 64
  take : p.take bytes.length = bytes

/-- More bytes are written behind those that are there. -/
theorem Starts.put {p bytes : Bytes} (h : Starts p bytes) (more : Bytes) {n : Nat}
    (hn : n = bytes.length) (hroom : bytes.length + more.length ≤ 64) :
    Starts (putBytes p n more) (bytes ++ more) := by
  have hlength := h.length
  subst hn
  constructor
  case length =>
    rw [putBytes, List.length_append, List.length_append, List.length_take, List.length_drop]
    omega
  case take =>
    rw [putBytes, h.take, ← List.length_append, List.take_left]

theorem Starts.eq {p bytes : Bytes} (h : Starts p bytes) (hfull : bytes.length = 64) :
    p = bytes := by
  rw [← h.take, hfull, ← h.length, List.take_length]

/-- What `hash_update` leaves behind for a message: the hash value after its complete
blocks, the rest in the buffer, and the number of bits. -/
structure ShaCtx.Updated (c : ShaCtx) (message : Bytes) : Prop where
  holds : c.Holds ((blocks message).foldl compress initial)
  num : c.num = message.length % 64
  starts : Starts c.data (message.drop (message.length / 64 * 64))
  nl : c.nl = ulong (BitVec.ofNat 32 (8 * message.length))
  nh : c.nh = ulong (BitVec.ofNat 32 (8 * message.length / 2 ^ 32))

theorem ShaCtx.init_holds : ShaCtx.init.Holds initial := ⟨rfl, rfl, rfl, rfl, rfl⟩

/-- The two words of the length, for a message of less than `2^31` bytes. -/
theorem length_words {n : Nat} (hn : n < 2 ^ 31) :
    (0#64 + BitVec.ofNat 64 n <<< 3) &&& 0xffffffff#64 = ulong (BitVec.ofNat 32 (8 * n)) ∧
      0#64 + (BitVec.ofNat 64 n >>> 29) = ulong (BitVec.ofNat 32 (8 * n / 2 ^ 32)) := by
  have hmask : (0xffffffff#64).toNat = 2 ^ 32 - 1 := rfl
  constructor
  · apply BitVec.eq_of_toNat_eq
    rw [BitVec.zero_add, BitVec.toNat_and, hmask, Nat.and_two_pow_sub_one_eq_mod]
    simp only [ulong, BitVec.toNat_shiftLeft, BitVec.toNat_ofNat, BitVec.toNat_setWidth,
      Nat.shiftLeft_eq]
    omega
  · apply BitVec.eq_of_toNat_eq
    rw [BitVec.zero_add]
    simp only [ulong, BitVec.toNat_ushiftRight, BitVec.toNat_ofNat, BitVec.toNat_setWidth,
      Nat.shiftRight_eq_div_pow]
    omega

theorem ShaCtx.updateBlocks_spec {c : ShaCtx} (hc : c.Holds initial) (hnum : c.num = 0)
    (hdata : c.data.length = 64) (message : Bytes) :
    ∃ c', c.updateBlocks message = c' ∧ c'.Holds ((blocks message).foldl compress initial) ∧
      c'.num = message.length % 64 ∧ Starts c'.data (message.drop (message.length / 64 * 64)) ∧
      c'.nl = c.nl ∧ c'.nh = c.nh := by
  -- the complete blocks; there may be none
  obtain ⟨c₁, hrun, hholds, hframe⟩ : ∃ c₁,
      (if message.length / 64 > 0 then c.hashBlockDataOrder message (message.length / 64) else c) =
        c₁ ∧ c₁.Holds ((blocks message).foldl compress initial) ∧
        c₁ = { c₁ with nl := c.nl, nh := c.nh, data := c.data, num := c.num } := by
    obtain ⟨c₁, hrun, hholds, hframe⟩ := hashBlockDataOrder_spec hc
      (rfl : message.length / 64 = message.length / 64)
    refine ⟨c₁, ?_, hholds, hframe⟩
    split
    · exact hrun
    · rename_i hnone
      rw [Nat.eq_zero_of_not_pos hnone] at hrun
      exact hrun
  have hrest : (message.drop (message.length / 64 * 64)).length = message.length % 64 := by
    rw [List.length_drop]
    omega
  have hempty : Starts c₁.data [] := by
    rw [hframe]
    exact ⟨hdata, rfl⟩
  have hnl : c₁.nl = c.nl := by rw [hframe]
  have hnh : c₁.nh = c.nh := by rw [hframe]
  unfold updateBlocks
  dsimp only
  rw [hrun]
  refine ⟨_, rfl, ?_⟩
  split
  · refine ⟨⟨hholds.h0, hholds.h1, hholds.h2, hholds.h3, hholds.h4⟩, hrest, ?_, hnl, hnh⟩
    have hroom : ([] : Bytes).length + (message.drop (message.length / 64 * 64)).length ≤ 64 := by
      rw [hrest, List.length_nil]
      omega
    exact hempty.put _ rfl hroom
  · rename_i hzero
    rw [not_not, List.length_eq_zero_iff] at hzero
    refine ⟨hholds, ?_, ?_, hnl, hnh⟩
    · rw [← hrest, hzero, hframe, hnum]
      rfl
    · rw [hzero]
      exact hempty

theorem ShaCtx.hashUpdate_spec (message : Bytes) (hlength : message.length < 2 ^ 31) :
    (ShaCtx.init.hashUpdate message).Updated message := by
  unfold hashUpdate
  dsimp only
  split
  · rename_i hempty
    obtain rfl := List.length_eq_zero_iff.mp hempty
    exact ⟨init_holds, rfl, ⟨rfl, rfl⟩, rfl, rfl⟩
  · obtain ⟨hnl, hnh⟩ := length_words hlength
    have hover : ¬ (ShaCtx.init.nl + BitVec.ofNat 64 message.length <<< 3 &&& 0xffffffff#64) <
        ShaCtx.init.nl := BitVec.not_lt_zero
    rw [if_neg hover, if_neg (by decide)]
    obtain ⟨c', hrun, hholds, hnum, hstarts, hnl', hnh'⟩ := updateBlocks_spec
      (c := { ShaCtx.init with
        nh := ShaCtx.init.nh + (BitVec.ofNat 64 message.length >>> 29)
        nl := ShaCtx.init.nl + BitVec.ofNat 64 message.length <<< 3 &&& 0xffffffff#64 })
      ⟨rfl, rfl, rfl, rfl, rfl⟩ rfl rfl message
    rw [hrun]
    exact ⟨hholds, hnum, hstarts, hnl'.trans hnl, hnh'.trans hnh⟩

/-- The context after the last block: 20 bytes of digest. -/
theorem ShaCtx.Holds.hashMakeString {c : ShaCtx} {h : Working} (hc : c.Holds h) :
    c.hashMakeString = h.bytes := by
  rw [ShaCtx.hashMakeString, hc.h0, hc.h1, hc.h2, hc.h3, hc.h4]
  simp only [hostL2c_ulong]
  rfl

/-- What the buffer is padded with. -/
def padding (length : Nat) : Bytes :=
  [0x80] ++ List.replicate (zeroBytes length) 0 ++ lengthBytes length

/-- The last steps of `hash_final`: zeros up to the last 8 bytes, then the length. -/
theorem Starts.finish {p bytes : Bytes} (h : Starts p bytes) {n : Nat} (hn : n = bytes.length)
    (hroom : n ≤ 56) (hi lo : ULong) :
    putBytes (putBytes (putBytes p n (List.replicate (64 - 8 - n) 0)) (64 - 8) (hostL2c hi))
        (64 - 4) (hostL2c lo) =
      bytes ++ List.replicate (56 - n) 0 ++ hostL2c hi ++ hostL2c lo := by
  have hlen : ∀ l, (hostL2c l).length = 4 := fun _ => rfl
  have hzeros := h.put (List.replicate (64 - 8 - n) 0) hn
    (by rw [List.length_replicate]; omega)
  have hhi := hzeros.put (hostL2c hi) (n := 64 - 8)
    (by rw [List.length_append, List.length_replicate]; omega)
    (by rw [List.length_append, List.length_replicate, hlen]; omega)
  have hlo := hhi.put (hostL2c lo) (n := 64 - 4)
    (by rw [List.length_append, List.length_append, List.length_replicate, hlen]; omega)
    (by rw [List.length_append, List.length_append, List.length_replicate, hlen, hlen]; omega)
  apply hlo.eq
  rw [List.length_append, List.length_append, List.length_append, List.length_replicate, hlen, hlen]
  omega

/-- One more block, which is all of the buffer. -/
theorem ShaCtx.hashBlockDataOrder_one {c : ShaCtx} {h : Working} (hc : c.Holds h) {block : Bytes}
    (hblock : block.length = 64) :
    ∃ c', c.hashBlockDataOrder block 1 = c' ∧ c'.Holds (compress h block) ∧ c'.nh = c.nh ∧
      c'.nl = c.nl := by
  obtain ⟨c', hrun, hholds, hframe⟩ := hashBlockDataOrder_spec hc
    (by rw [hblock] : 1 = block.length / 64)
  rw [blocks_single hblock] at hholds
  exact ⟨c', hrun, hholds, by rw [hframe], by rw [hframe]⟩

/-- **`hash_final`** processes the rest of the message with its padding. The padding needs
a second block if the rest leaves less than 9 bytes. -/
theorem ShaCtx.Updated.hashFinal {c : ShaCtx} {message : Bytes} (hc : c.Updated message) :
    c.hashFinal =
      ((blocks (message.drop (message.length / 64 * 64) ++ padding message.length)).foldl
        compress ((blocks message).foldl compress initial)).bytes := by
  have hlength : (message.drop (message.length / 64 * 64)).length = message.length % 64 := by
    rw [List.length_drop]
    omega
  have hnum : c.num = (message.drop (message.length / 64 * 64)).length := hc.num.trans hlength.symm
  have hbits : hostL2c c.nh ++ hostL2c c.nl = lengthBytes message.length := by
    rw [hc.nh, hc.nl, hostL2c_ulong, hostL2c_ulong, lengthBytes]
  have hstarts := hc.starts
  have hholds := hc.holds
  revert hlength hnum hstarts hholds
  generalize message.drop (message.length / 64 * 64) = rest
  generalize (blocks message).foldl compress initial = h
  intro hlength hnum hstarts hholds
  have hmark := hstarts.put [0x80] hnum (by rw [List.length_singleton]; omega)
  have hn : c.num + 1 = (rest ++ [0x80]).length := by
    rw [List.length_append, List.length_singleton, hnum]
  unfold ShaCtx.hashFinal
  dsimp only
  by_cases hbig : c.num + 1 > 64 - 8
  · -- the mark and zeros fill this block, zeros and the length the next
    rw [if_pos hbig]
    dsimp only
    have hfill := hmark.put (List.replicate (64 - (c.num + 1)) 0) hn
      (by rw [← hn, List.length_replicate]; omega)
    have hfull : (rest ++ [0x80] ++ List.replicate (64 - (c.num + 1)) 0).length = 64 := by
      rw [List.length_append, ← hn, List.length_replicate]
      omega
    rw [hfill.eq hfull]
    obtain ⟨c₁, hrun₁, hholds₁, hnh, hnl⟩ := hashBlockDataOrder_one hholds hfull
    have hempty : Starts (rest ++ [0x80] ++ List.replicate (64 - (c.num + 1)) 0) [] := ⟨hfull, rfl⟩
    have hlast := hempty.finish (n := 0) rfl (Nat.zero_le 56) c.nh c.nl
    rw [List.nil_append, List.append_assoc _ (hostL2c c.nh), hbits] at hlast
    have hlastFull : (List.replicate (56 - 0) 0 ++ lengthBytes message.length).length = 64 := by
      rw [List.length_append, List.length_replicate]
      rfl
    have hzeros : zeroBytes message.length = 64 - (c.num + 1) + (56 - 0) := by
      unfold zeroBytes
      omega
    have hsplit : rest ++ padding message.length =
        (rest ++ [0x80] ++ List.replicate (64 - (c.num + 1)) 0) ++
          (List.replicate (56 - 0) 0 ++ lengthBytes message.length) := by
      rw [padding, hzeros, List.replicate_add]
      simp only [List.append_assoc]
    rw [hrun₁, hnh, hnl, hlast]
    obtain ⟨c₂, hrun₂, hholds₂, -⟩ := hashBlockDataOrder_one hholds₁ hlastFull
    rw [hrun₂, hholds₂.hashMakeString, hsplit, blocks_append (q := 1) hfull, blocks_single hfull,
      blocks_single hlastFull]
    rfl
  · rw [if_neg hbig]
    dsimp only
    have hlast := hmark.finish hn (by omega) c.nh c.nl
    rw [List.append_assoc _ (hostL2c c.nh), hbits] at hlast
    have hzeros : zeroBytes message.length = 56 - (c.num + 1) := by
      unfold zeroBytes
      omega
    have hsplit : rest ++ padding message.length =
        rest ++ [0x80] ++ List.replicate (56 - (c.num + 1)) 0 ++ lengthBytes message.length := by
      rw [padding, hzeros]
      simp only [List.append_assoc]
    have hfull : (rest ++ padding message.length).length = 64 := by
      have hbytes : (lengthBytes message.length).length = 8 := rfl
      rw [hsplit, List.length_append, List.length_append, ← hn, List.length_replicate, hbytes]
      omega
    rw [hlast, ← hsplit]
    obtain ⟨c₁, hrun₁, hholds₁, -⟩ := hashBlockDataOrder_one hholds hfull
    rw [hrun₁, hholds₁.hashMakeString, blocks_single hfull]
    rfl

/-- The padded message: its complete blocks, then the rest with the padding. -/
theorem blocks_pad (message : Bytes) :
    blocks (pad message) =
      blocks message ++
        blocks (message.drop (message.length / 64 * 64) ++ padding message.length) := by
  have hcut : (message.take (message.length / 64 * 64)).length = 64 * (message.length / 64) := by
    rw [List.length_take]
    omega
  have hrest : blocks (message.drop (message.length / 64 * 64)) = [] := by
    apply blocks_nil
    rw [List.length_drop]
    omega
  have hpad : pad message = message.take (message.length / 64 * 64) ++
      (message.drop (message.length / 64 * 64) ++ padding message.length) := by
    rw [← List.append_assoc, List.take_append_drop, pad, padding]
    simp only [List.append_assoc]
  have hmessage : blocks message = blocks (message.take (message.length / 64 * 64)) := by
    conv_lhs => rw [← List.take_append_drop (message.length / 64 * 64) message]
    rw [blocks_append hcut, hrest, List.append_nil]
  rw [hpad, blocks_append hcut, ← hmessage]

/-- **`sha1` computes SHA-1** of every message whose length is a nonnegative `int`. -/
theorem sha1_eq_digest (message : Bytes) (hlength : message.length < 2 ^ 31) :
    sha1 message = Sha1.digest message := by
  have hfinal := (ShaCtx.hashUpdate_spec message hlength).hashFinal
  rw [← List.foldl_append, ← blocks_pad] at hfinal
  have hdigest : (Sha1.digest message).length = 20 := rfl
  rw [sha1, hfinal, ← Sha1.digest, ← hdigest, List.take_left]

/-- A message of 55 bytes is the longest that needs no second block for its padding. -/
theorem sha1_eq_digest_fiftyFive :
    sha1 (List.replicate 55 97) = Sha1.digest (List.replicate 55 97) :=
  sha1_eq_digest (List.replicate 55 97) (by decide)

end Lpad
