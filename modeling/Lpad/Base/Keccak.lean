import Lpad.Base.Bytes
import Mathlib.Data.Fin.Basic
import Mathlib.Data.List.FinRange
import Mathlib.Data.List.Induction

/-!
# Keccak

The permutation Keccak-f[1600] as FIPS 202 defines it: 24 rounds of five steps on a state
of 5 x 5 lanes of 64 bits. The rotation offsets and the round constants are computed the
way the standard gives them, by the walk over the lanes and by the shift register.

The sponge is over any permutation `f` of byte strings. A message is padded by `10*1` and
absorbed block by block. `absorbByte` does the same one byte at a time and applies `f` as
soon as a block is full, so that a message may come in pieces (`sponge_eq_foldl`).
-/

namespace Lpad.Keccak

abbrev Lane : Type := BitVec 64

/-- The lanes, row by row. -/
abbrev State : Type := Vector Lane 25

def State.lane (a : State) (x y : Fin 5) : Lane := a[5 * y.val + x.val]

/-- The state with these lanes. -/
def State.ofLanes (g : Fin 5 → Fin 5 → Lane) : State :=
  Vector.ofFn fun i => g ⟨i.val % 5, by omega⟩ ⟨i.val / 5, by omega⟩

@[simp] theorem State.lane_ofLanes (g : Fin 5 → Fin 5 → Lane) (x y : Fin 5) :
    (State.ofLanes g).lane x y = g x y := by
  have hx : (5 * y.val + x.val) % 5 = x.val := by omega
  have hy : (5 * y.val + x.val) / 5 = y.val := by omega
  simp only [State.lane, State.ofLanes, Vector.getElem_ofFn, hx, hy]

/-- States with the same lanes are equal. -/
theorem State.ext_lane {a b : State} (h : ∀ x y, a.lane x y = b.lane x y) : a = b := by
  apply Vector.ext
  intro i hi
  have hlane := h ⟨i % 5, by omega⟩ ⟨i / 5, by omega⟩
  have hindex : 5 * (i / 5) + i % 5 = i := by omega
  simpa only [State.lane, hindex] using hlane

/-! ## The steps of a round -/

def column (a : State) (x : Fin 5) : Lane :=
  a.lane x 0 ^^^ a.lane x 1 ^^^ a.lane x 2 ^^^ a.lane x 3 ^^^ a.lane x 4

def theta (a : State) : State := .ofLanes fun x y =>
  a.lane x y ^^^ (column a (x - 1) ^^^ (column a (x + 1)).rotateLeft 1)

/-- The lanes in the order in which they get their offsets. -/
def rhoWalk : Nat → Fin 5 × Fin 5
  | 0 => (1, 0)
  | t + 1 =>
    let (x, y) := rhoWalk t
    (y, 2 * x + 3 * y)

/-- The lane in the middle is not on the walk. -/
def rhoOffset (x y : Fin 5) : Nat :=
  match (List.range 24).find? fun t => rhoWalk t = (x, y) with
  | some t => (t + 1) * (t + 2) / 2 % 64
  | none => 0

def rho (a : State) : State := .ofLanes fun x y => (a.lane x y).rotateLeft (rhoOffset x y)

def pi (a : State) : State := .ofLanes fun x y => a.lane (x + 3 * y) x

def chi (a : State) : State := .ofLanes fun x y =>
  a.lane x y ^^^ (~~~(a.lane (x + 1) y) &&& a.lane (x + 2) y)

/-- The shift register behind the round constants; bit `i` is `R[i]`. -/
def shiftRegister : Nat → BitVec 8
  | 0 => 1
  | t + 1 =>
    let r := shiftRegister t
    if r.msb then (r <<< 1) ^^^ 0x71#8 else r <<< 1

def rc (t : Nat) : Bool := (shiftRegister (t % 255)).getLsbD 0

/-- `RC[i]` has its bits at the positions `2^j - 1`. -/
def roundConstant (i : Nat) : Lane :=
  (List.range 7).foldl
    (fun c j => if rc (j + 7 * i) then c ||| (1#64 <<< (2 ^ j - 1)) else c) 0

def iota (c : Lane) (a : State) : State := .ofLanes fun x y =>
  if x = 0 ∧ y = 0 then a.lane x y ^^^ c else a.lane x y

/-- A round with a given constant. -/
def roundWith (c : Lane) (a : State) : State := iota c (chi (pi (rho (theta a))))

def round (i : Nat) : State → State := roundWith (roundConstant i)

def keccakF (a : State) : State := (List.range 24).foldl (fun a i => round i a) a

/-! ## Bytes -/

/-- Eight bytes are a lane, lowest byte first; the lanes come row by row. -/
def ofBytes (s : Bytes) : State :=
  Vector.ofFn fun i => BitVec.ofNat 64 (leNat ((s.drop (8 * i.val)).take 8))

def toBytes (a : State) : Bytes := a.toList.flatMap fun w => leBytes 8 w.toNat

/-- The permutation on 200 bytes. -/
def permute (s : Bytes) : Bytes := toBytes (keccakF (ofBytes s))

@[simp] theorem toBytes_length (a : State) : (toBytes a).length = 200 := by
  simp [toBytes, List.length_flatMap]

/-- The lanes can be read back. -/
theorem drop_flatMap_leBytes {i : Nat} : ∀ {lanes : List Lane} (hi : i < lanes.length),
    ((lanes.flatMap fun w => leBytes 8 w.toNat).drop (8 * i)).take 8 =
      leBytes 8 lanes[i].toNat := by
  induction i with
  | zero =>
    rintro (_ | ⟨w, lanes⟩) hi
    · exact absurd hi (Nat.not_lt_zero _)
    · rw [List.flatMap_cons, Nat.mul_zero, List.drop_zero, List.take_left' (leBytes_length _ _)]
      rfl
  | succ i ih =>
    rintro (_ | ⟨w, lanes⟩) hi
    · exact absurd hi (Nat.not_lt_zero _)
    · have hdrop : 8 * (i + 1) = 8 + 8 * i := by rw [Nat.mul_succ, Nat.add_comm]
      rw [List.flatMap_cons, hdrop, ← List.drop_drop, List.drop_left' (leBytes_length _ _),
        ih (Nat.lt_of_succ_lt_succ hi)]
      rfl

theorem ofBytes_toBytes (a : State) : ofBytes (toBytes a) = a := by
  apply Vector.ext
  intro i hi
  have hlength : i < a.toList.length := by rwa [Vector.length_toList]
  have hlt : (a.toList[i]).toNat < 256 ^ 8 := (a.toList[i]).isLt
  rw [ofBytes, Vector.getElem_ofFn, toBytes, drop_flatMap_leBytes hlength, leNat_leBytes,
    Nat.mod_eq_of_lt hlt, BitVec.ofNat_toNat, BitVec.setWidth_eq, Vector.getElem_toList]

@[simp] theorem permute_length (s : Bytes) : (permute s).length = 200 := toBytes_length _

/-! ## Sums of byte strings -/

/-- The second string is added to the beginning of the first. -/
def xorBytes : Bytes → Bytes → Bytes
  | [], _ => []
  | s, [] => s
  | a :: s, b :: c => (a ^^^ b) :: xorBytes s c

@[simp] theorem xorBytes_nil (s : Bytes) : xorBytes s [] = s := by
  cases s <;> rfl

@[simp] theorem xorBytes_length : ∀ s c : Bytes, (xorBytes s c).length = s.length
  | [], _ => rfl
  | _ :: _, [] => rfl
  | _ :: s, _ :: c => by rw [xorBytes, List.length_cons, List.length_cons, xorBytes_length s c]

theorem xorBytes_append : ∀ {s c : Bytes} (s' c' : Bytes), s.length = c.length →
    xorBytes (s ++ s') (c ++ c') = xorBytes s c ++ xorBytes s' c'
  | [], [], _, _, _ => rfl
  | a :: s, b :: c, s', c', h => by
    have hlength : s.length = c.length := Nat.succ_injective h
    rw [List.cons_append, List.cons_append, xorBytes, xorBytes, List.cons_append,
      xorBytes_append s' c' hlength]

theorem xorBytes_zeros : ∀ (s : Bytes) (n : Nat), xorBytes s (List.replicate n 0) = s
  | [], _ => rfl
  | _ :: _, 0 => rfl
  | a :: s, n + 1 => by rw [List.replicate_succ, xorBytes, UInt8.xor_zero, xorBytes_zeros s n]

/-- The string is added from a place on, its first byte on its own. -/
theorem xorBytes_modify (b : Byte) (c : Bytes) : ∀ {s : Bytes} {p : Nat}, p < s.length →
    (s.modify p (· ^^^ b)).take (p + 1) ++ xorBytes ((s.modify p (· ^^^ b)).drop (p + 1)) c =
      s.take p ++ xorBytes (s.drop p) (b :: c)
  | _ :: _, 0, _ => rfl
  | a :: s, p + 1, h => by
    have ih := xorBytes_modify b c (s := s) (Nat.lt_of_succ_lt_succ h)
    rw [List.modify_succ_cons, List.take_succ_cons, List.drop_succ_cons, List.cons_append, ih]
    rfl

/-! ## The sponge -/

section Sponge

variable (f : Bytes → Bytes) (rate : Nat)

def absorb (s block : Bytes) : Bytes := f (xorBytes s block)

/-- What `10*1` appends, in bytes with the lowest bit first. -/
def padding (length : Nat) : Bytes :=
  let q := rate - length % rate
  if q = 1 then [0x81] else 0x01 :: (List.replicate (q - 2) 0 ++ [0x80])

def pad (message : Bytes) : Bytes := message ++ padding rate message.length

def blocks (padded : Bytes) : List Bytes :=
  (List.range (padded.length / rate)).map fun i => (padded.drop (rate * i)).take rate

/-- The state after the padded message. -/
def sponge (width : Nat) (message : Bytes) : Bytes :=
  (blocks rate (pad rate message)).foldl (absorb f) (List.replicate width 0)

/-- The first `n` blocks of output. -/
def squeeze : (n : Nat) → Bytes → Bytes
  | 0, _ => []
  | n + 1, s => s.take rate ++ squeeze n (f s)

/-- The first `size` bytes of output. -/
def output (size : Nat) (s : Bytes) : Bytes := (squeeze f rate (size / rate + 1) s).take size

/-- One byte of a message: the state and the place of the next byte. -/
def absorbByte (st : Bytes × Nat) (b : Byte) : Bytes × Nat :=
  let s := st.1.modify st.2 (· ^^^ b)
  if st.2 + 1 = rate then (f s, 0) else (s, st.2 + 1)

variable {f rate}

/-- **Bytes of one block** come to the same as their sum with the state. -/
theorem foldl_absorbByte {s chunk : Bytes} {p : Nat} (hp : p < rate)
    (hroom : p + chunk.length ≤ rate) (hs : rate ≤ s.length) :
    chunk.foldl (absorbByte f rate) (s, p) =
      if p + chunk.length = rate then (f (s.take p ++ xorBytes (s.drop p) chunk), 0)
      else (s.take p ++ xorBytes (s.drop p) chunk, p + chunk.length) := by
  induction chunk generalizing s p with
  | nil =>
    rw [List.length_nil, Nat.add_zero, if_neg hp.ne, xorBytes_nil, List.take_append_drop]
    rfl
  | cons b chunk ih =>
    rw [List.length_cons] at hroom ⊢
    rw [List.foldl_cons, ← xorBytes_modify b chunk (lt_of_lt_of_le hp hs)]
    by_cases hfull : p + 1 = rate
    · -- `b` was the last byte of the block
      have hnil : chunk = [] := List.eq_nil_of_length_eq_zero (by omega)
      subst hnil
      have hstep : absorbByte f rate (s, p) b = (f (s.modify p (· ^^^ b)), 0) := if_pos hfull
      rw [List.foldl_nil, hstep, List.length_nil, if_pos hfull, xorBytes_nil,
        List.take_append_drop]
    · have hstep : absorbByte f rate (s, p) b = (s.modify p (· ^^^ b), p + 1) := if_neg hfull
      have hlength : rate ≤ (s.modify p (· ^^^ b)).length := by rwa [List.length_modify]
      rw [hstep, ih (by omega) (by omega) hlength, Nat.add_right_comm, Nat.add_assoc]

theorem foldl_absorbByte_full {s block : Bytes} (hrate : 0 < rate) (hlength : block.length = rate)
    (hs : rate ≤ s.length) : block.foldl (absorbByte f rate) (s, 0) = (absorb f s block, 0) := by
  rw [foldl_absorbByte hrate (by omega) hs, if_pos (by omega), List.take_zero, List.drop_zero]
  rfl

theorem blocks_cons {data : Bytes} (hrate : 0 < rate) (h : rate ≤ data.length) :
    blocks rate data = data.take rate :: blocks rate (data.drop rate) := by
  have hcount : data.length / rate = (data.drop rate).length / rate + 1 := by
    rw [List.length_drop, ← Nat.add_div_right _ hrate, Nat.sub_add_cancel h]
  rw [blocks, hcount, List.range_succ_eq_map, List.map_cons, List.map_map, blocks]
  congr 1
  apply List.map_congr_left
  intro i _
  rw [Function.comp_apply, Nat.succ_eq_add_one, List.drop_drop, Nat.mul_add, Nat.mul_one,
    Nat.add_comm]

/-- **Blocks and bytes.** Whole blocks may be absorbed one byte at a time. -/
theorem foldl_absorb_eq {width n : Nat} (hrate : 0 < rate) (hwidth : rate ≤ width)
    (hf : ∀ s, (f s).length = width) {s data : Bytes} (hs : s.length = width)
    (hdata : data.length = rate * n) :
    data.foldl (absorbByte f rate) (s, 0) = ((blocks rate data).foldl (absorb f) s, 0) := by
  induction n generalizing s data with
  | zero =>
    rw [List.eq_nil_of_length_eq_zero hdata]
    simp [blocks]
  | succ n ih =>
    rw [Nat.mul_succ] at hdata
    have hrest : (data.drop rate).length = rate * n := by
      rw [List.length_drop, hdata, Nat.add_sub_cancel]
    have hblock : (data.take rate).length = rate := by
      rw [List.length_take, hdata]
      omega
    rw [blocks_cons hrate (by omega), List.foldl_cons, absorb, ← ih (hf _) hrest]
    nth_rewrite 1 [← List.take_append_drop rate data]
    rw [List.foldl_append, foldl_absorbByte_full hrate hblock (by omega)]
    rfl

/-- The place is the length of what was absorbed, modulo the rate. -/
theorem foldl_absorbByte_snd (hrate : 0 < rate) (s message : Bytes) :
    (message.foldl (absorbByte f rate) (s, 0)).2 = message.length % rate := by
  induction message using List.reverseRecOn with
  | nil => rw [List.length_nil, Nat.zero_mod]; rfl
  | append_singleton message b ih =>
    rw [List.foldl_append, List.foldl_cons, List.foldl_nil, List.length_append,
      List.length_singleton]
    generalize message.foldl (absorbByte f rate) (s, 0) = st at ih ⊢
    have hsplit : message.length + 1 = rate * (message.length / rate) + (st.2 + 1) := by
      rw [ih, ← Nat.add_assoc, Nat.div_add_mod]
    have hlt : st.2 < rate := by
      rw [ih]
      exact Nat.mod_lt _ hrate
    rw [absorbByte]
    split
    case isTrue hfull => rw [hsplit, hfull, ← Nat.mul_succ, Nat.mul_mod_right]
    case isFalse hfull =>
      have hnext : st.2 + 1 < rate := by omega
      rw [hsplit, Nat.mul_add_mod, Nat.mod_eq_of_lt hnext]

theorem foldl_absorbByte_length {width : Nat} (hf : ∀ s, (f s).length = width) {s : Bytes} {p : Nat}
    (hs : s.length = width) (message : Bytes) :
    (message.foldl (absorbByte f rate) (s, p)).1.length = width := by
  induction message generalizing s p with
  | nil => exact hs
  | cons b message ih =>
    rw [List.foldl_cons, absorbByte]
    split
    · exact ih (hf _)
    · exact ih (by rw [List.length_modify, hs])

theorem pad_length (hrate : 0 < rate) (message : Bytes) :
    (pad rate message).length = rate * (message.length / rate + 1) := by
  have hlt := Nat.mod_lt message.length hrate
  have hpadding : (padding rate message.length).length = rate - message.length % rate := by
    rw [padding]
    split
    case isTrue h => rw [h]; rfl
    case isFalse h =>
      rw [List.length_cons, List.length_append, List.length_replicate, List.length_singleton]
      omega
  have hsplit := Nat.div_add_mod message.length rate
  rw [pad, List.length_append, hpadding, Nat.mul_succ]
  omega

/-- **Byte by byte.** The message may come in any pieces. -/
theorem sponge_eq_foldl {width : Nat} (hrate : 0 < rate) (hwidth : rate ≤ width)
    (hf : ∀ s, (f s).length = width) (message : Bytes) :
    (pad rate message).foldl (absorbByte f rate) (List.replicate width 0, 0) =
      (sponge f rate width message, 0) :=
  foldl_absorb_eq hrate hwidth hf List.length_replicate (pad_length hrate message)

/-- The last block: `1` where the message ends, and the last bit of the block. -/
theorem foldl_padding {s : Bytes} {length : Nat} (hrate : 0 < rate) (hs : rate ≤ s.length) :
    (padding rate length).foldl (absorbByte f rate) (s, length % rate) =
      (f ((s.modify (length % rate) (· ^^^ 1)).modify (rate - 1) (· ^^^ 0x80)), 0) := by
  have hlt := Nat.mod_lt length hrate
  rw [padding]
  generalize length % rate = p at hlt ⊢
  by_cases hlast : rate - p = 1
  · -- both bits are in one byte
    have hfull : p + 1 = rate := by omega
    have hp : rate - 1 = p := by omega
    have hbyte : (fun x : Byte => x ^^^ 0x80) ∘ (fun x => x ^^^ 1) = (· ^^^ 0x81) := by
      funext x
      rw [Function.comp_apply, UInt8.xor_assoc]
      rfl
    rw [if_pos hlast, List.foldl_cons, List.foldl_nil, absorbByte, if_pos hfull, hp,
      List.modify_modify_eq, hbyte]
  · have hfirst : absorbByte f rate (s, p) 1 = (s.modify p (· ^^^ 1), p + 1) :=
      if_neg (by dsimp only; omega)
    have hzeros : (List.replicate (rate - p - 2) (0 : Byte)).foldl (absorbByte f rate)
        (s.modify p (· ^^^ 1), p + 1) = (s.modify p (· ^^^ 1), rate - 1) := by
      have hroom : p + 1 + (List.replicate (rate - p - 2) (0 : Byte)).length = rate - 1 := by
        rw [List.length_replicate]
        omega
      rw [foldl_absorbByte (by omega) (by omega) (by rwa [List.length_modify]), hroom,
        if_neg (by omega), xorBytes_zeros, List.take_append_drop]
    have hend : rate - 1 + 1 = rate := Nat.sub_add_cancel hrate
    rw [if_neg hlast, List.foldl_cons, List.foldl_append, hfirst, hzeros, List.foldl_cons,
      List.foldl_nil, absorbByte, if_pos hend]

/-- One block of output is enough up to the rate. -/
theorem output_of_le {s : Bytes} {size : Nat} (hsize : size ≤ rate) (hs : rate ≤ s.length) :
    output f rate size s = s.take size := by
  have hblock : size ≤ (s.take rate).length := by
    rw [List.length_take]
    omega
  rw [output, squeeze, List.take_append_of_le_length hblock, List.take_take, Nat.min_eq_left hsize]

end Sponge

/-- **Keccak of a message**, with capacity `1600 - 8 rate` and `size` bytes of output. -/
def digest (rate size : Nat) (message : Bytes) : Bytes :=
  output permute rate size (sponge permute rate 200 message)

end Lpad.Keccak
