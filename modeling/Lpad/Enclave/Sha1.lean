import Lpad.Base.Fips180
import Mathlib.Logic.Function.Basic

/-!
# SHA-1 in the enclave

`Enclave/sha1.cpp`. The registers are `unsigned int`, the hash value and the words of the
schedule are `unsigned long`, and C converts between the two without saying so; here
the conversions are `ulong` and `uint`. Of the schedule only the last 16 words are kept.

`sha1` has a result type but returns nothing. Its callers do not use the result, so only
what it writes to `digest` is modelled.
-/

namespace Lpad

open Sha1 (Word Working)

abbrev ULong : Type := BitVec 64

def ulong (w : Word) : ULong := w.setWidth 64

def uint (l : ULong) : Word := l.setWidth 32

/-! ## Macros -/

def k00_19 : ULong := 0x5a827999#64
def k20_39 : ULong := 0x6ed9eba1#64
def k40_59 : ULong := 0x8f1bbcdc#64
def k60_79 : ULong := 0xca62c1d6#64

def f00_19 (b c d : Word) : Word := ((c ^^^ d) &&& b) ^^^ d
def f20_39 (b c d : Word) : Word := b ^^^ c ^^^ d
def f40_59 (b c d : Word) : Word := (b &&& c) ||| ((b ||| c) &&& d)
def f60_79 (b c d : Word) : Word := f20_39 b c d

/-- `ROTATE` of an `unsigned int`. -/
def rotate (a : Word) (n : Nat) : Word := (a <<< n) ||| ((a &&& 0xffffffff#32) >>> (32 - n))

def byteUlong (b : Byte) : ULong := b.toBitVec.setWidth 64

/-- `HOST_c2l` at an offset, with `l` an `unsigned int`. -/
def hostC2l (data : Bytes) (start : Nat) : Word :=
  uint ((byteUlong (data.getD start 0) <<< 24) ||| (byteUlong (data.getD (start + 1) 0) <<< 16) |||
    (byteUlong (data.getD (start + 2) 0) <<< 8) ||| byteUlong (data.getD (start + 3) 0))

/-- `HOST_l2c` -/
def hostL2c (l : ULong) : Bytes :=
  [⟨((l >>> 24) &&& 0xff#64).setWidth 8⟩, ⟨((l >>> 16) &&& 0xff#64).setWidth 8⟩,
    ⟨((l >>> 8) &&& 0xff#64).setWidth 8⟩, ⟨(l &&& 0xff#64).setWidth 8⟩]

/-- What all bodies end with: `E=D, D=C, C=ROTATE(B,30), B=A`, and the new `A`. -/
def shiftRegs (r : Working) (a : Word) : Working := ⟨a, r.a, rotate r.b 30, r.c, r.d⟩

/-- `BODY_00_15` -/
def body00_15 (r : Working) (xi : ULong) : Working :=
  let t := uint (ulong r.e + k00_19 + ulong (f00_19 r.b r.c r.d))
  shiftRegs r (uint (ulong (rotate r.a 5 + t) + xi))

/-- `Xupdate`: the new `T`, which is also the new `X[ia]`. -/
def xupdate (x : Nat → ULong) (ia ib ic id : Nat) : Word :=
  rotate (uint (x ia ^^^ x ib ^^^ x ic ^^^ x id)) 1

/-- `BODY_16_19`, `BODY_20_39` and `BODY_40_59` differ in the constant and the function;
`t` is what `Xupdate` gave. -/
def body16_59 (k : ULong) (f : Word → Word → Word → Word) (r : Working) (t : Word) : Working :=
  let t := uint (ulong t + (ulong r.e + k + ulong (f r.b r.c r.d)))
  shiftRegs r (rotate r.a 5 + t)

def body16_19 : Working → Word → Working := body16_59 k00_19 f00_19
def body20_39 : Working → Word → Working := body16_59 k20_39 f20_39
def body40_59 : Working → Word → Working := body16_59 k40_59 f40_59

/-- `BODY_60_79`, which adds the word of the schedule at the end. -/
def body60_79 (r : Working) (xa : Word) : Working :=
  let t := uint (ulong r.e + k60_79 + ulong (f60_79 r.b r.c r.d))
  shiftRegs r (uint (ulong (rotate r.a 5 + t) + ulong xa))

/-! ## Blocks -/

structure ShaCtx where
  h0 : ULong
  h1 : ULong
  h2 : ULong
  h3 : ULong
  h4 : ULong
  nl : ULong
  nh : ULong
  data : Bytes
  num : Nat

/-- The registers and `X`. -/
structure BlockState where
  regs : Working
  x : Nat → ULong

/-- One round of the first loop. -/
def BlockState.load (data : Bytes) (s : BlockState) (i : Nat) : BlockState :=
  let l := hostC2l data (4 * i)
  let x := Function.update s.x i (ulong l)
  ⟨body00_15 s.regs (x i), x⟩

/-- One round of another loop, with the four indices of its `Xupdate`. -/
def BlockState.mix (body : Working → Word → Working) (s : BlockState) (ia ib ic id : Nat) :
    BlockState :=
  let t := xupdate s.x ia ib ic id
  ⟨body s.regs t, Function.update s.x ia (ulong t)⟩

/-- The five loops over one block. No word of `X` is read before it is written. -/
def BlockState.run (data : Bytes) (s : BlockState) : BlockState :=
  let s := (List.range 16).foldl (fun s i => s.load data i) s
  let s := (List.range 4).foldl
    (fun s i => s.mix body16_19 i (i + 2) (i + 8) ((i + 13) &&& 15)) s
  let s := (List.range' 4 20).foldl
    (fun s i => s.mix body20_39 (i &&& 15) ((i + 2) &&& 15) ((i + 8) &&& 15) ((i + 13) &&& 15)) s
  let s := (List.range 20).foldl
    (fun s i => s.mix body40_59 ((i + 8) &&& 15) ((i + 10) &&& 15) (i &&& 15) ((i + 5) &&& 15)) s
  (List.range' 4 20).foldl
    (fun s i => s.mix body60_79 ((i + 8) &&& 15) ((i + 10) &&& 15) (i &&& 15) ((i + 5) &&& 15)) s

/-- The registers of a block. -/
def ShaCtx.regs (c : ShaCtx) : Working := ⟨uint c.h0, uint c.h1, uint c.h2, uint c.h3, uint c.h4⟩

def ShaCtx.addRegs (c : ShaCtx) (r : Working) : ShaCtx :=
  { c with
    h0 := (c.h0 + ulong r.a) &&& 0xffffffff#64
    h1 := (c.h1 + ulong r.b) &&& 0xffffffff#64
    h2 := (c.h2 + ulong r.c) &&& 0xffffffff#64
    h3 := (c.h3 + ulong r.d) &&& 0xffffffff#64
    h4 := (c.h4 + ulong r.e) &&& 0xffffffff#64 }

/-- `HASH_BLOCK_DATA_ORDER`. It is never called with `num` 0. -/
def ShaCtx.hashBlockDataOrder (c : ShaCtx) (data : Bytes) : Nat → ShaCtx
  | 0 => c
  | num + 1 =>
    let c := c.addRegs (BlockState.run data ⟨c.regs, fun _ => 0⟩).regs
    c.hashBlockDataOrder (data.drop 64) num

/-! ## Messages -/

/-- `memcpy` and `memset` of some bytes to `p + start`. -/
def putBytes (p : Bytes) (start : Nat) (bytes : Bytes) : Bytes :=
  p.take start ++ bytes ++ p.drop (start + bytes.length)

/-- `hash_update` from the point on where `c->num` is 0. -/
def ShaCtx.updateBlocks (c : ShaCtx) (data : Bytes) : ShaCtx :=
  let n := data.length / 64
  let c := if n > 0 then c.hashBlockDataOrder data n else c
  let data := data.drop (n * 64)
  if data.length ≠ 0 then { c with num := data.length, data := putBytes c.data 0 data } else c

/-- `hash_update` -/
def ShaCtx.hashUpdate (c : ShaCtx) (data : Bytes) : ShaCtx :=
  let len := data.length
  if len = 0 then c
  else
    let l := (c.nl + (BitVec.ofNat 64 len <<< 3)) &&& 0xffffffff#64
    let nh := if l < c.nl then c.nh + 1 else c.nh
    let c := { c with nh := nh + (BitVec.ofNat 64 len >>> 29), nl := l }
    let n := c.num
    if n ≠ 0 then
      if len ≥ 64 ∨ len + n ≥ 64 then
        let p := putBytes c.data n (data.take (64 - n))
        let c := c.hashBlockDataOrder p 1
        ShaCtx.updateBlocks { c with num := 0, data := List.replicate 64 0 } (data.drop (64 - n))
      else { c with data := putBytes c.data n data, num := c.num + len }
    else c.updateBlocks data

/-- `HASH_MAKE_STRING` -/
def ShaCtx.hashMakeString (c : ShaCtx) : Bytes :=
  hostL2c c.h0 ++ hostL2c c.h1 ++ hostL2c c.h2 ++ hostL2c c.h3 ++ hostL2c c.h4

/-- `hash_final`: what it writes to `md`. -/
def ShaCtx.hashFinal (c : ShaCtx) : Bytes :=
  let p := putBytes c.data c.num [0x80]
  let n := c.num + 1
  let (c, p, n) :=
    if n > 64 - 8 then
      let p := putBytes p n (List.replicate (64 - n) 0)
      (c.hashBlockDataOrder p 1, p, 0)
    else (c, p, n)
  let p := putBytes p n (List.replicate (64 - 8 - n) 0)
  let p := putBytes p (64 - 8) (hostL2c c.nh)
  let p := putBytes p (64 - 4) (hostL2c c.nl)
  (c.hashBlockDataOrder p 1).hashMakeString

/-- The context after `memset` and the assignments to `h0`, .., `h4`. -/
def ShaCtx.init : ShaCtx where
  h0 := 0x67452301#64
  h1 := 0xefcdab89#64
  h2 := 0x98badcfe#64
  h3 := 0x10325476#64
  h4 := 0xc3d2e1f0#64
  nl := 0
  nh := 0
  data := List.replicate 64 0
  num := 0

/-- `sha1`: what it writes to `digest`. -/
def sha1 (message : Bytes) : Bytes :=
  ((ShaCtx.init.hashUpdate message).hashFinal ++ List.replicate 44 0).take 20

end Lpad
