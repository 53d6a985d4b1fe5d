import Lpad.Base.Bytes
import Mathlib.Data.List.GetD
import Mathlib.Logic.Function.Iterate

/-!
# SHA-1

The hash function as FIPS 180-4 defines it. The message is padded to a multiple of 64
bytes and cut into blocks of 16 words. For each block the words are extended to a schedule
of 80, and 80 rounds mix them into five working variables.

`schedule_lt` and `schedule_recurrence` give the schedule in the words of the standard.
-/

namespace Lpad.Sha1

abbrev Word : Type := BitVec 32

/-! ## Section 4: functions and constants -/

def ch (x y z : Word) : Word := (x &&& y) ^^^ (~~~x &&& z)

def parity (x y z : Word) : Word := x ^^^ y ^^^ z

def maj (x y z : Word) : Word := (x &&& y) ^^^ (x &&& z) ^^^ (y &&& z)

/-- `f_t` -/
def roundFunction (t : Nat) : Word → Word → Word → Word :=
  if t < 20 then ch else if t < 40 then parity else if t < 60 then maj else parity

/-- `K_t` -/
def roundConstant (t : Nat) : Word :=
  if t < 20 then 0x5a827999#32 else if t < 40 then 0x6ed9eba1#32
  else if t < 60 then 0x8f1bbcdc#32 else 0xca62c1d6#32

/-! ## Section 5: preprocessing -/

/-- Four bytes as a word, the first is the most significant. -/
def wordOfBytes (b₀ b₁ b₂ b₃ : Byte) : Word :=
  ((b₀.toBitVec ++ b₁.toBitVec) ++ b₂.toBitVec) ++ b₃.toBitVec

def bytesOfWord (w : Word) : Bytes :=
  [⟨w.extractLsb' 24 8⟩, ⟨w.extractLsb' 16 8⟩, ⟨w.extractLsb' 8 8⟩, ⟨w.extractLsb' 0 8⟩]

/-- The word number `t` of a block. -/
def wordAt (block : Bytes) (t : Nat) : Word :=
  wordOfBytes (block.getD (4 * t) 0) (block.getD (4 * t + 1) 0) (block.getD (4 * t + 2) 0)
    (block.getD (4 * t + 3) 0)

/-- The number of zero bytes after the byte `0x80`: the least that makes the padded
message a multiple of 64 bytes. -/
def zeroBytes (length : Nat) : Nat := (64 - (length + 9) % 64) % 64

/-- The number of bits of the message, as 64 bits. -/
def lengthBytes (length : Nat) : Bytes :=
  bytesOfWord (BitVec.ofNat 32 (8 * length / 2 ^ 32)) ++ bytesOfWord (BitVec.ofNat 32 (8 * length))

def pad (message : Bytes) : Bytes :=
  message ++ [0x80] ++ List.replicate (zeroBytes message.length) 0 ++ lengthBytes message.length

/-- The blocks of 64 bytes. -/
def blocks (padded : Bytes) : List Bytes :=
  (List.range (padded.length / 64)).map fun i => (padded.drop (64 * i)).take 64

/-! ## Section 6: the computation -/

/-- The working variables, and also the hash value. -/
structure Working where
  a : Word
  b : Word
  c : Word
  d : Word
  e : Word
deriving DecidableEq, Repr

/-- `H^(0)` -/
def initial : Working :=
  ⟨0x67452301#32, 0xefcdab89#32, 0x98badcfe#32, 0x10325476#32, 0xc3d2e1f0#32⟩

/-- The word that follows the first words of a schedule. -/
def nextWord (w : List Word) : Word :=
  (w.getD (w.length - 3) 0 ^^^ w.getD (w.length - 8) 0 ^^^ w.getD (w.length - 14) 0 ^^^
    w.getD (w.length - 16) 0).rotateLeft 1

def extend (w : List Word) : List Word := w ++ [nextWord w]

/-- The message schedule `W_0, .., W_79` of a block. -/
def schedule (block : Bytes) : List Word := extend^[64] ((List.range 16).map (wordAt block))

def round (w : Word) (t : Nat) (s : Working) : Working where
  a := s.a.rotateLeft 5 + roundFunction t s.b s.c s.d + s.e + roundConstant t + w
  b := s.a
  c := s.b.rotateLeft 30
  d := s.c
  e := s.d

/-- The first `n` rounds. -/
def rounds (w : List Word) (n : Nat) (s : Working) : Working :=
  (List.range n).foldl (fun s t => round (w.getD t 0) t s) s

def Working.add (x y : Working) : Working :=
  ⟨x.a + y.a, x.b + y.b, x.c + y.c, x.d + y.d, x.e + y.e⟩

def compress (h : Working) (block : Bytes) : Working := h.add (rounds (schedule block) 80 h)

def Working.bytes (h : Working) : Bytes :=
  bytesOfWord h.a ++ bytesOfWord h.b ++ bytesOfWord h.c ++ bytesOfWord h.d ++ bytesOfWord h.e

/-- The message digest. -/
def digest (message : Bytes) : Bytes := ((blocks (pad message)).foldl compress initial).bytes

/-! ## The schedule -/

/-- `W_t` of a block. -/
def scheduleWord (block : Bytes) (t : Nat) : Word := (schedule block).getD t 0

theorem length_extend_iterate (w : List Word) (n : Nat) :
    (extend^[n] w).length = w.length + n := by
  induction n with
  | zero => rfl
  | succ n ih =>
    rw [Function.iterate_succ_apply', extend, List.length_append, ih]
    rfl

/-- Extending a schedule keeps the words that are there. -/
theorem getD_extend_iterate {w : List Word} {n t : Nat} (ht : t < w.length) :
    (extend^[n] w).getD t 0 = w.getD t 0 := by
  induction n with
  | zero => rfl
  | succ n ih =>
    rw [Function.iterate_succ_apply', extend, List.getD_append _ _ _ _ (by
      rw [length_extend_iterate]
      omega), ih]

theorem getD_extend_last (w : List Word) : (extend w).getD w.length 0 = nextWord w := by
  rw [extend, List.getD_append_right _ _ _ _ (le_refl _), Nat.sub_self]
  rfl

/-- The first words are those of the block. -/
theorem schedule_lt {block : Bytes} {t : Nat} (ht : t < 16) :
    scheduleWord block t = wordAt block t := by
  unfold scheduleWord schedule
  rw [getD_extend_iterate (by simpa using ht)]
  simp [ht]

/-- **The recurrence** for the other words. -/
theorem schedule_recurrence {block : Bytes} {t : Nat} (h16 : 16 ≤ t) (h80 : t < 80) :
    scheduleWord block t =
      (scheduleWord block (t - 3) ^^^ scheduleWord block (t - 8) ^^^ scheduleWord block (t - 14) ^^^
        scheduleWord block (t - 16)).rotateLeft 1 := by
  obtain ⟨words, hwords⟩ : ∃ words, words = extend^[t - 16] ((List.range 16).map (wordAt block)) :=
    ⟨_, rfl⟩
  have hlength : words.length = t := by
    rw [hwords, length_extend_iterate, List.length_map, List.length_range]
    omega
  -- the schedule goes on from its first `t` words
  have hsplit : schedule block = extend^[79 - t] (extend words) := by
    have hsum : 79 - t + (t - 16).succ = 64 := by omega
    rw [hwords, ← Function.iterate_succ_apply' extend, ← Function.iterate_add_apply, hsum, schedule]
  have hkeep : ∀ i < t, scheduleWord block i = words.getD i 0 := by
    intro i hi
    have hlt : i < (extend words).length := by
      rw [extend, List.length_append, hlength]
      omega
    rw [scheduleWord, hsplit, getD_extend_iterate hlt, extend,
      List.getD_append _ _ _ _ (hlength ▸ hi)]
  have hlast : scheduleWord block t = nextWord words := by
    have hlt : t < (extend words).length := by
      rw [extend, List.length_append, hlength]
      exact Nat.lt_succ_self t
    rw [scheduleWord, hsplit, getD_extend_iterate hlt, ← getD_extend_last, hlength]
  rw [hlast, hkeep (t - 3) (by omega), hkeep (t - 8) (by omega), hkeep (t - 14) (by omega),
    hkeep (t - 16) (by omega), nextWord, hlength]

example : digest [97, 98, 99] =
    [0xa9, 0x99, 0x3e, 0x36, 0x47, 0x06, 0x81, 0x6a, 0xba, 0x3e, 0x25, 0x71, 0x78, 0x50, 0xc2,
      0x6c, 0x9c, 0xd0, 0xd8, 0x9d] := by decide +kernel

end Lpad.Sha1
