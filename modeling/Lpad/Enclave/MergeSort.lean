import Lpad.Base.Bytes
import Mathlib.Logic.Function.Basic

/-!
# The one-copy enclave merge

`Enclave/merge_sort_1c.cpp` with the two ocalls it makes (`do_reload_1c`,
`do_flush_1c` of `db_impl.cpp`). Host and enclave share one `g_arg_t`: for each
input channel a buffer of 1024 slots with a cursor, and one output buffer of
1024 slots. A slot holds 32 key bytes and 100 value bytes, the sizes are kept
beside it. The enclave asks the host to refill a channel, picks the channel whose
slot under the cursor is least under a 24-byte `memcmp`, copies that slot to the
output buffer, and asks the host to take the output buffer when it is full.

The arrays are total functions from indices. An index past the end of `out_key`
or `out_value` is reached only by a slice longer than its slot; the model then
reads whatever bytes the memory holds there, left unspecified in `GArg`.

The digests that `insert` computes for each merged key go to its own locals and
are dropped, so it does not appear.
-/

namespace Lpad

/-- `INPUT_BUFFER_SIZE` and `OUTPUT_BUFFER_SIZE`. -/
def bufferSize : Nat := 1024

/-- An entry of an input table as its iterator shows it: internal key and value. -/
structure Record where
  key : Bytes
  value : Bytes
deriving DecidableEq, Repr

/-! ## Memory -/

/-- `for (i = 0; i < len; i++) ... mem[start + i]` -/
def readBytes (mem : Nat → Byte) (start len : Nat) : Bytes :=
  (List.range len).map fun i => mem (start + i)

/-- `for (i = 0; i < bs.size; i++) mem[start + i] = bs[i]` -/
def writeBytes (mem : Nat → Byte) (start : Nat) (bs : Bytes) : Nat → Byte := fun j =>
  if start ≤ j ∧ j < start + bs.length then bs.getD (j - start) 0 else mem j

/-- The rows of `g_arg_t` that belong to one input channel. The cursor `inIndex`
is a slot number or one of two sentinels: `-1`, nothing is loaded, and `1024`,
the buffer is used up. -/
structure Channel where
  keySizes : Nat → Nat
  valueSizes : Nat → Nat
  keyData : Nat → Byte
  valueData : Nat → Byte
  inIndex : Int
  dataCount : Nat

/-- The output part of `g_arg_t`. -/
structure OutBuffer where
  key : Nat → Byte
  keySizes : Nat → Nat
  value : Nat → Byte
  valueSizes : Nat → Nat
  index : Nat

/-- `struct g_arg_t`: the rows of every channel and the output buffer. -/
structure GArg where
  chan : Nat → Channel
  out : OutBuffer

/-- `struct g_arg_t my_arg`, a global: the cursors start at `-1`, the output
buffer is empty, everything else is zero. -/
def GArg.init : GArg where
  chan := fun _ => ⟨fun _ => 0, fun _ => 0, fun _ => 0, fun _ => 0, -1, 0⟩
  out := ⟨fun _ => 0, fun _ => 0, fun _ => 0, fun _ => 0, 0⟩

/-! ## One channel -/

/-- The body of the loop of `do_reload_1c`: the sizes are stored as they are, of
the bytes at most 32 and 100. -/
def Channel.loadSlot (ch : Channel) (index : Nat) (r : Record) : Channel :=
  { ch with
    keySizes := Function.update ch.keySizes index r.key.length
    valueSizes := Function.update ch.valueSizes index r.value.length
    keyData := writeBytes ch.keyData (index * 32) (r.key.take 32)
    valueData := writeBytes ch.valueData (index * 100) (r.value.take 100) }

/-- `while (iter->Valid() && index < INPUT_BUFFER_SIZE) ...`: the channel, the
entries the iterator has left, the final index. -/
def Channel.reloadLoop (ch : Channel) : List Record → Nat → Channel × List Record × Nat
  | [], index => (ch, [], index)
  | r :: rest, index =>
    if index < bufferSize then (ch.loadSlot index r).reloadLoop rest (index + 1)
    else (ch, r :: rest, index)

/-- `do_reload_1c` for one channel and the iterator behind it. -/
def Channel.reload (ch : Channel) (iter : List Record) : Channel × List Record :=
  match ch.reloadLoop iter 0 with
  | (ch, rest, index) => ({ ch with dataCount := index }, rest)

def Channel.setIndex (ch : Channel) (index : Int) : Channel := { ch with inIndex := index }

/-- `onec_readKV`: move the cursor to the next slot, refilling the buffer when it
is unloaded or used up. The Boolean is the return value. -/
def Channel.readKV (ch : Channel) (iter : List Record) : Bool × Channel × List Record :=
  if ch.inIndex = bufferSize ∨ ch.inIndex = -1 then
    match ch.reload iter with
    | (ch, iter) =>
      if ch.dataCount = 0 then (false, ch.setIndex (-1), iter)
      else (true, ch.setIndex (-1 + 1), iter)
  else if ch.inIndex = ch.dataCount then (false, ch.setIndex (-1), iter)
  else (true, ch.setIndex (ch.inIndex + 1), iter)

/-- The 24 key bytes under the cursor that `onec_compare` looks at. -/
def Channel.cursorKey (ch : Channel) : Bytes :=
  readBytes ch.keyData (ch.inIndex.toNat * 32) 24

/-! ## The merge -/

/-- Both sides of a running compaction: the shared `g_arg_t`, what the iterators
`g_list` have left, the batches flushed so far, and the channels written out so
far (the successive values of `next`). -/
structure Merge where
  arg : GArg
  iter : Nat → List Record
  flushed : List (List Record)
  nexts : List Nat

def Merge.setChannel (w : Merge) (channel : Nat) (ch : Channel) (rest : List Record) : Merge :=
  { w with
    arg := { w.arg with chan := Function.update w.arg.chan channel ch }
    iter := Function.update w.iter channel rest }

def Merge.onecReadKV (w : Merge) (channel : Nat) : Bool × Merge :=
  match (w.arg.chan channel).readKV (w.iter channel) with
  | (ok, ch, rest) => (ok, w.setChannel channel ch rest)

/-- The slices `do_flush_1c` makes of the filled slots of the output buffer. -/
def OutBuffer.slices (out : OutBuffer) : List Record :=
  (List.range out.index).map fun i =>
    ⟨readBytes out.key (i * 32) (out.keySizes i), readBytes out.value (i * 100) (out.valueSizes i)⟩

/-- `ocall_1c_flush()` and the assignment `out_index = 0` that follows it. -/
def Merge.flush (w : Merge) : Merge :=
  { w with
    flushed := w.flushed ++ [w.arg.out.slices]
    arg := { w.arg with out := { w.arg.out with index := 0 } } }

/-- The two copy loops of `onec_writeKV` into the next output slot. -/
def OutBuffer.put (out : OutBuffer) (ch : Channel) : OutBuffer where
  key := writeBytes out.key (out.index * 32)
    (readBytes ch.keyData (ch.inIndex.toNat * 32) 32)
  keySizes := Function.update out.keySizes out.index (ch.keySizes ch.inIndex.toNat)
  value := writeBytes out.value (out.index * 100)
    (readBytes ch.valueData (ch.inIndex.toNat * 100) 100)
  valueSizes := Function.update out.valueSizes out.index (ch.valueSizes ch.inIndex.toNat)
  index := out.index + 1

def Merge.onecWriteKV (w : Merge) (channel : Nat) : Merge :=
  let w := if w.arg.out.index = bufferSize then w.flush else w
  { w with
    arg := { w.arg with out := w.arg.out.put (w.arg.chan channel) }
    nexts := w.nexts ++ [channel] }

/-- `onec_compare(i, s)`: `memcmp` of the 24 key bytes under the two cursors. -/
def Merge.onecCompare (w : Merge) (i s : Nat) : Ordering :=
  memcmp (w.arg.chan i).cursorKey (w.arg.chan s).cursorKey

/-- The head of the loop of `onec_findSmallest`: a channel without a valid cursor
is read again, and skipped when that returns `0`. -/
def Merge.fetch (w : Merge) (i : Nat) : Bool × Merge :=
  if (w.arg.chan i).inIndex = -1 ∨ (w.arg.chan i).inIndex = (w.arg.chan i).dataCount
  then w.onecReadKV i else (true, w)

/-- One iteration of the loop of `onec_findSmallest`; `none` is `smallest == -1`. -/
def Merge.findStep (acc : Option Nat × Merge) (i : Nat) : Option Nat × Merge :=
  match acc.2.fetch i with
  | (false, w) => (acc.1, w)
  | (true, w) =>
    match acc.1 with
    | none => (some i, w)
    | some s => if w.onecCompare i s = .lt then (some i, w) else (some s, w)

def Merge.onecFindSmallest (w : Merge) (nWays : Nat) : Option Nat × Merge :=
  (List.range nWays).foldl Merge.findStep (none, w)

/-- The `while (count > 0)` loop of `onec_EnclCompact`; `none` means that the
fuel ran out. -/
def Merge.compactLoop (fileCount : Nat) : Nat → Nat → Merge → Option Merge
  | 0, _, _ => none
  | fuel + 1, count, w =>
    if count > 0 then
      match w.onecFindSmallest fileCount with
      | (none, w) => some w
      | (some next, w) =>
        match (w.onecWriteKV next).onecReadKV next with
        | (true, w) => Merge.compactLoop fileCount fuel count w
        | (false, w) => Merge.compactLoop fileCount fuel (count - 1) w
    else some w

/-- `onec_EnclCompact(file_count, &my_arg)` on the iterators of one compaction. -/
def onecEnclCompact (fuel fileCount : Nat) (arg : GArg) (iter : Nat → List Record) :
    Option Merge :=
  let w := (List.range fileCount).foldl (fun w i => (w.onecReadKV i).2) ⟨arg, iter, [], []⟩
  (Merge.compactLoop fileCount fuel fileCount w).map Merge.flush

/-- The arguments of one compaction: `file_count` and the iterators in `g_list`. -/
structure Call where
  fileCount : Nat
  iter : Nat → List Record

/-- Compactions one after the other on the one global `my_arg`; the result lists
the state in which each of them returns. -/
def runCalls (fuel : Nat) (arg : GArg) : List Call → Option (List Merge)
  | [] => some []
  | call :: calls =>
    (onecEnclCompact fuel call.fileCount arg call.iter).bind fun w =>
      (runCalls fuel w.arg calls).map (w :: ·)

end Lpad
