import Lpad.Base.Bytes

/-!
# SHA-3 in the enclave

`Enclave/sha3.cpp`. The 25 local variables of `KeccakF1600` are named by a consonant for
the plane and a vowel for the lane in it; here they are the fields of `Lanes`, and `Aba`
is `l.b.a`. The loop does two rounds in one iteration, from the `A` variables to the `E`
variables and back. The text of the second round is that of the first with `A` and `E`
exchanged.

`m_state` and `m_counter` are global variables. `KeccakF1600` has the state as an argument
and does not use it.
-/

namespace Lpad

abbrev Word64 : Type := BitVec 64

def rotlFixed (x : Word64) (y : Nat) : Word64 :=
  if y ≠ 0 then (x <<< y) ||| (x >>> (64 - y)) else x

/-- `((word64*)p)[i]` -/
def loadWord (p : Bytes) (i : Nat) : Word64 := BitVec.ofNat 64 (leNat ((p.drop (8 * i)).take 8))

def storeWord (p : Bytes) (i : Nat) (w : Word64) : Bytes :=
  p.take (8 * i) ++ leBytes 8 w.toNat ++ p.drop (8 * i + 8)

/-- `buf` is all that follows the pointer. -/
def xorbuf (buf mask : Bytes) (count : Nat) : Bytes :=
  let words := count / 8
  let buf := (List.range words).foldl
    (fun buf i => storeWord buf i (loadWord buf i ^^^ loadWord mask i)) buf
  let count := count - 8 * words
  if count = 0 then buf
  else (List.range count).foldl
    (fun buf i => buf.modify (8 * words + i) (· ^^^ mask.getD (8 * words + i) 0)) buf

/-! ## The permutation -/

def keccakFRoundConstants : List Word64 :=
  [0x0000000000000001#64, 0x0000000000008082#64, 0x800000000000808a#64,
    0x8000000080008000#64, 0x000000000000808b#64, 0x0000000080000001#64,
    0x8000000080008081#64, 0x8000000000008009#64, 0x000000000000008a#64,
    0x0000000000000088#64, 0x0000000080008009#64, 0x000000008000000a#64,
    0x000000008000808b#64, 0x800000000000008b#64, 0x8000000000008089#64,
    0x8000000000008003#64, 0x8000000000008002#64, 0x8000000000000080#64,
    0x000000000000800a#64, 0x800000008000000a#64, 0x8000000080008081#64,
    0x8000000000008080#64, 0x0000000080000001#64, 0x8000000080008008#64]

structure Plane where
  a : Word64
  e : Word64
  i : Word64
  o : Word64
  u : Word64

structure Lanes where
  b : Plane
  g : Plane
  k : Plane
  m : Plane
  s : Plane

/-- The five lines that end each group, on `BCa` to `BCu`. -/
def Plane.chi (bc : Plane) : Plane where
  a := bc.a ^^^ (~~~bc.e &&& bc.i)
  e := bc.e ^^^ (~~~bc.i &&& bc.o)
  i := bc.i ^^^ (~~~bc.o &&& bc.u)
  o := bc.o ^^^ (~~~bc.u &&& bc.a)
  u := bc.u ^^^ (~~~bc.a &&& bc.e)

/-- `prepareTheta` and `thetaRhoPiChiIotaPrepareTheta`, from `A` to `E`. -/
def Lanes.thetaRhoPiChiIota (c : Word64) (l : Lanes) : Lanes :=
  let bc : Plane := ⟨l.b.a ^^^ l.g.a ^^^ l.k.a ^^^ l.m.a ^^^ l.s.a,
    l.b.e ^^^ l.g.e ^^^ l.k.e ^^^ l.m.e ^^^ l.s.e, l.b.i ^^^ l.g.i ^^^ l.k.i ^^^ l.m.i ^^^ l.s.i,
    l.b.o ^^^ l.g.o ^^^ l.k.o ^^^ l.m.o ^^^ l.s.o, l.b.u ^^^ l.g.u ^^^ l.k.u ^^^ l.m.u ^^^ l.s.u⟩
  let d : Plane := ⟨bc.u ^^^ rotlFixed bc.e 1, bc.a ^^^ rotlFixed bc.i 1,
    bc.e ^^^ rotlFixed bc.o 1, bc.i ^^^ rotlFixed bc.u 1, bc.o ^^^ rotlFixed bc.a 1⟩
  let b := Plane.chi ⟨l.b.a ^^^ d.a, rotlFixed (l.g.e ^^^ d.e) 44, rotlFixed (l.k.i ^^^ d.i) 43,
    rotlFixed (l.m.o ^^^ d.o) 21, rotlFixed (l.s.u ^^^ d.u) 14⟩
  let b := { b with a := b.a ^^^ c }
  let g := Plane.chi ⟨rotlFixed (l.b.o ^^^ d.o) 28, rotlFixed (l.g.u ^^^ d.u) 20,
    rotlFixed (l.k.a ^^^ d.a) 3, rotlFixed (l.m.e ^^^ d.e) 45, rotlFixed (l.s.i ^^^ d.i) 61⟩
  let k := Plane.chi ⟨rotlFixed (l.b.e ^^^ d.e) 1, rotlFixed (l.g.i ^^^ d.i) 6,
    rotlFixed (l.k.o ^^^ d.o) 25, rotlFixed (l.m.u ^^^ d.u) 8, rotlFixed (l.s.a ^^^ d.a) 18⟩
  let m := Plane.chi ⟨rotlFixed (l.b.u ^^^ d.u) 27, rotlFixed (l.g.a ^^^ d.a) 36,
    rotlFixed (l.k.e ^^^ d.e) 10, rotlFixed (l.m.i ^^^ d.i) 15, rotlFixed (l.s.o ^^^ d.o) 56⟩
  let s := Plane.chi ⟨rotlFixed (l.b.i ^^^ d.i) 62, rotlFixed (l.g.o ^^^ d.o) 55,
    rotlFixed (l.k.u ^^^ d.u) 39, rotlFixed (l.m.a ^^^ d.a) 41, rotlFixed (l.s.e ^^^ d.e) 2⟩
  ⟨b, g, k, m, s⟩

/-- One iteration of the loop. -/
def Lanes.iteration (l : Lanes) (round : Nat) : Lanes :=
  let e := l.thetaRhoPiChiIota (keccakFRoundConstants.getD round 0)
  e.thetaRhoPiChiIota (keccakFRoundConstants.getD (round + 1) 0)

/-- `copyFromState` -/
def loadPlane (s : Bytes) (i : Nat) : Plane :=
  ⟨loadWord s i, loadWord s (i + 1), loadWord s (i + 2), loadWord s (i + 3), loadWord s (i + 4)⟩

def copyFromState (s : Bytes) : Lanes :=
  ⟨loadPlane s 0, loadPlane s 5, loadPlane s 10, loadPlane s 15, loadPlane s 20⟩

def storePlane (s : Bytes) (i : Nat) (p : Plane) : Bytes :=
  let s := storeWord s i p.a
  let s := storeWord s (i + 1) p.e
  let s := storeWord s (i + 2) p.i
  let s := storeWord s (i + 3) p.o
  storeWord s (i + 4) p.u

def copyToState (s : Bytes) (l : Lanes) : Bytes :=
  let s := storePlane s 0 l.b
  let s := storePlane s 5 l.g
  let s := storePlane s 10 l.k
  let s := storePlane s 15 l.m
  storePlane s 20 l.s

def keccakF1600 (s : Bytes) : Bytes :=
  let l := (List.range 12).foldl (fun l i => l.iteration (2 * i)) (copyFromState s)
  copyToState s l

/-! ## Messages -/

/-- `m_state` and `m_counter`. -/
structure Sha3 where
  state : Bytes
  counter : Nat

namespace Sha3

def restart : Sha3 := ⟨List.replicate 200 0, 0⟩

/-- `xorbuf(m_state + m_counter, input, count)` -/
def xorInput (c : Sha3) (input : Bytes) (count : Nat) : Bytes :=
  c.state.take c.counter ++ xorbuf (c.state.drop c.counter) input count

/-- The loop of `sha3_update` and what follows it; `none` when `fuel` runs out. -/
def updateLoop : (fuel : Nat) → Sha3 → Bytes → Option Sha3
  | 0, _, _ => none
  | fuel + 1, c, input =>
    let spaceLeft := 136 - c.counter
    if spaceLeft ≤ input.length then
      updateLoop fuel ⟨keccakF1600 (c.xorInput input spaceLeft), 0⟩ (input.drop spaceLeft)
    else
      some ⟨c.xorInput input input.length, c.counter + input.length⟩

def update (c : Sha3) (input : Bytes) : Option Sha3 := c.updateLoop (input.length + 1) input

/-- The bytes that `sha3_final` writes to `hash`, and the state after it. -/
def final (c : Sha3) (size : Nat) : Sha3 × Bytes :=
  let s := c.state.modify c.counter (· ^^^ 1)
  let s := s.modify 135 (· ^^^ 0x80)
  let s := keccakF1600 s
  (restart, s.take size)

/-- A call of `sha3_update` or `sha3_final`. -/
inductive Call where
  | update (input : Bytes)
  | final (size : Nat)

/-- The state after the calls, and the hashes they wrote. -/
def run : Sha3 → List Call → Option (Sha3 × List Bytes)
  | c, [] => some (c, [])
  | c, .update input :: calls => do
    let c ← c.update input
    c.run calls
  | c, .final size :: calls => do
    let (c, hash) := c.final size
    let (c, hashes) ← c.run calls
    return (c, hash :: hashes)

end Sha3

end Lpad
