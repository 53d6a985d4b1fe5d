import Lpad.Base.Run
import Lpad.Format.Coding
import Lpad.Format.Comparator

/-!
# Writing a block

`block_builder.cpp`. A key is stored without the prefix that it shares with the key before it,
except at restart points, which come every `block_restart_interval` keys. `none` says that an
assertion failed.
-/

namespace Lpad.Table

/-- The members of `BlockBuilder`, apart from the options. -/
structure BlockBuilder where
  buffer : Bytes
  restarts : List Nat
  counter : Nat
  finished : Bool
  lastKey : Bytes
deriving DecidableEq, Repr

/-- The loop of `Add` that counts the bytes two keys share. -/
def sharedLength : (lastKey key : Bytes) → Nat
  | a :: lastKey, b :: key => if a = b then sharedLength lastKey key + 1 else 0
  | _, _ => 0

theorem sharedLength_spec (a b : Bytes) :
    sharedLength a b ≤ a.length ∧ sharedLength a b ≤ b.length ∧
      a.take (sharedLength a b) = b.take (sharedLength a b) := by
  fun_induction sharedLength a b with
  | case1 a lastKey key ih =>
    obtain ⟨hlast, hkey, htake⟩ := ih
    refine ⟨Nat.succ_le_succ hlast, Nat.succ_le_succ hkey, ?_⟩
    rw [List.take_succ_cons, List.take_succ_cons, htake]
  | case2 => exact ⟨Nat.zero_le _, Nat.zero_le _, rfl⟩
  | case3 => exact ⟨Nat.zero_le _, Nat.zero_le _, rfl⟩

namespace BlockBuilder

def new : BlockBuilder := ⟨[], [0], 0, false, []⟩

/-- The entry that `Add` appends. -/
def encodeEntry (shared : Nat) (key value : Bytes) : Bytes :=
  encodeVarint32 (uint32 shared) ++ encodeVarint32 (uint32 (key.length - shared)) ++
    encodeVarint32 (uint32 value.length) ++ (key.drop shared ++ value)

def currentSizeEstimate (b : BlockBuilder) : Nat := b.buffer.length + b.restarts.length * 4 + 4

/-- `BlockBuilder::Finish` -/
def finish (b : BlockBuilder) : BlockBuilder :=
  { b with
    buffer := b.buffer ++ b.restarts.flatMap encodeFixed32 ++
      encodeFixed32 (uint32 b.restarts.length)
    finished := true }

/-- `BlockBuilder::Reset` -/
def reset (_ : BlockBuilder) : BlockBuilder := ⟨[], [0], 0, false, []⟩

def empty (b : BlockBuilder) : Bool := b.buffer.isEmpty

section Add

variable (cmp : Bytes → Bytes → Ordering) (blockRestartInterval : Nat)

/-- `restarts_`, `counter_` and the bytes shared with the last key, for a new key. -/
def restart (b : BlockBuilder) (key : Bytes) : List Nat × Nat × Nat :=
  if b.counter < blockRestartInterval then (b.restarts, b.counter, sharedLength b.lastKey key)
  else (b.restarts ++ [uint32 b.buffer.length], 0, 0)

def add (b : BlockBuilder) (key value : Bytes) : Option BlockBuilder :=
  if b.finished = false ∧ b.counter ≤ blockRestartInterval ∧
      (b.buffer = [] ∨ cmp key b.lastKey = .gt) then
    let (restarts, counter, shared) := b.restart blockRestartInterval key
    some
      { b with
        buffer := b.buffer ++ encodeEntry shared key value
        restarts
        counter := counter + 1
        lastKey := b.lastKey.take shared ++ key.drop shared }
  else none

/-- Calls of `Add` on a new builder. -/
def addAll (entries : List Slices) : Option BlockBuilder :=
  runs (fun b e => b.add cmp blockRestartInterval e.key e.value) new entries

/-- The contents of a block with these entries. -/
def build (entries : List Slices) : Option Bytes :=
  (addAll cmp blockRestartInterval entries).map fun b => b.finish.buffer

end Add

end BlockBuilder

end Lpad.Table
