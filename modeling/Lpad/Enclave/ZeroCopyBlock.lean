import Lpad.Table.BlockBuilder
import Mathlib.Data.List.Range

/-!
# The block builder of the enclave

`Enclave/zerocpy/block_builder.cpp` writes a block into a buffer outside the enclave, at a cursor
that it moves itself. The restart points of an index block are in a global array with a counter
of its own. `none` says that an assertion failed or that a write goes past the end of the buffer
or of the array.

The options of the enclave have no comparator. `Add` asserts that the keys increase bytewise,
where the builder of `App/integration` asserts it for the comparator of its options.
-/

namespace Lpad.Table

inductive BlockType where
  | data
  | index
  | metaIndex
deriving DecidableEq, Repr

/-- The words of `g_mem`. -/
def kIndexRestarts : Nat := 30000000

/-- The members of the enclave's `BlockBuilder`, with the memory that its pointers lead to:
`bSU` is the buffer outside, `restartsIndex` the array `g_mem`. -/
structure ZeroCopyBuilder where
  blockType : BlockType
  bSU : Bytes
  bufferPointer : Nat
  restarts : List Nat
  restartsIndex : Nat → Nat
  restartsPointer : Nat
  counter : Nat
  finished : Bool
  lastKey : Bytes

/-- `memcpy` to an offset of a buffer. -/
def memcpy (dst : Bytes) (offset : Nat) (src : Bytes) : Option Bytes :=
  if offset + src.length ≤ dst.length then
    some (dst.take offset ++ src ++ dst.drop (offset + src.length))
  else none

namespace ZeroCopyBuilder

/-- The constructor. The array has what the builder before left there, and the counter of the
array is not initialised for the other types. -/
def new (blockType : BlockType) (buf : Bytes) (gMem : Nat → Nat) (unset : Nat) :
    ZeroCopyBuilder where
  blockType := blockType
  bSU := buf
  bufferPointer := 0
  restarts := [0]
  restartsIndex := if blockType = .index then Function.update gMem 0 0 else gMem
  restartsPointer := if blockType = .index then 1 else unset
  counter := 0
  finished := false
  lastKey := []

def reset (z : ZeroCopyBuilder) : ZeroCopyBuilder :=
  { z with
    bufferPointer := 0
    restarts := [0]
    restartsIndex :=
      if z.blockType = .index then Function.update z.restartsIndex 0 0 else z.restartsIndex
    restartsPointer := if z.blockType = .index then 1 else z.restartsPointer
    counter := 0
    finished := false
    lastKey := [] }

def empty (z : ZeroCopyBuilder) : Bool := z.bufferPointer == 0

/-- The number of restart points. -/
def restartCount (z : ZeroCopyBuilder) : Nat :=
  if z.blockType = .index then z.restartsPointer else z.restarts.length

/-- The restart points that `Finish` goes through. -/
def restartWords (z : ZeroCopyBuilder) : List Nat :=
  if z.blockType = .index then (List.range z.restartsPointer).map z.restartsIndex
  else z.restarts

def currentSizeEstimate (z : ZeroCopyBuilder) : Nat :=
  z.bufferPointer + z.restartCount * 4 + 4

/-- Bytes go to the cursor, which moves behind them. -/
def put (z : ZeroCopyBuilder) (bytes : Bytes) : Option ZeroCopyBuilder :=
  (memcpy z.bSU z.bufferPointer bytes).map fun bSU =>
    { z with bSU, bufferPointer := uint32 (z.bufferPointer + bytes.length) }

/-- `Finish`: the builder and the slice that it returns. -/
def finish (z : ZeroCopyBuilder) : Option (ZeroCopyBuilder × Bytes) := do
  let count := uint32 z.restartCount
  let z ← z.restartWords.foldlM (fun z word => z.put (encodeFixed32 word)) z
  let z ← z.put (encodeFixed32 count)
  some ({ z with finished := true }, z.bSU.take z.bufferPointer)

/-- The restart point of the next entry. -/
def pushRestart (z : ZeroCopyBuilder) : Option ZeroCopyBuilder :=
  if z.blockType = .index then
    if z.restartsPointer < kIndexRestarts then
      some
        { z with
          restartsIndex := Function.update z.restartsIndex z.restartsPointer z.bufferPointer
          restartsPointer := uint32 (z.restartsPointer + 1) }
    else none
  else some { z with restarts := z.restarts ++ [z.bufferPointer] }

/-- The restart bookkeeping of `Add`: the builder and the bytes shared with the last key. -/
def restart (blockRestartInterval : Nat) (z : ZeroCopyBuilder) (key : Bytes) :
    Option (ZeroCopyBuilder × Nat) :=
  if z.counter < blockRestartInterval then some (z, sharedLength z.lastKey key)
  else z.pushRestart.map fun z => ({ z with counter := 0 }, 0)

/-- The three lengths, the key delta and the value of an entry. -/
def putEntry (z : ZeroCopyBuilder) (shared : Nat) (key value : Bytes) : Option ZeroCopyBuilder := do
  let z ← z.put (encodeVarint32 (uint32 shared))
  let z ← z.put (encodeVarint32 (uint32 (key.length - shared)))
  let z ← z.put (encodeVarint32 (uint32 value.length))
  let z ← z.put (key.drop shared)
  z.put value

def add (blockRestartInterval : Nat) (z : ZeroCopyBuilder) (key value : Bytes) :
    Option ZeroCopyBuilder :=
  if z.finished = false ∧ z.counter ≤ blockRestartInterval ∧
      (z.bufferPointer = 0 ∨ sliceCompare key z.lastKey = .gt) then do
    let (z, shared) ← z.restart blockRestartInterval key
    let z ← z.putEntry shared key value
    some
      { z with
        lastKey := z.lastKey.take shared ++ key.drop shared
        counter := z.counter + 1 }
  else none

end ZeroCopyBuilder

/-! ## Calls of the two builders -/

inductive BuilderCall where
  | add (key value : Bytes)
  | currentSizeEstimate
  | empty
  | finish
  | reset
deriving DecidableEq, Repr

inductive BuilderAnswer where
  | done
  | size (n : Nat)
  | isEmpty (b : Bool)
  | contents (bytes : Bytes)
deriving DecidableEq, Repr

def BlockBuilder.call (cmp : Bytes → Bytes → Ordering) (blockRestartInterval : Nat)
    (b : BlockBuilder) : BuilderCall → Option (BlockBuilder × BuilderAnswer)
  | .add key value => (b.add cmp blockRestartInterval key value).map fun b => (b, .done)
  | .currentSizeEstimate => some (b, .size b.currentSizeEstimate)
  | .empty => some (b, .isEmpty b.empty)
  | .finish => some (b.finish, .contents b.finish.buffer)
  | .reset => some (b.reset, .done)

def ZeroCopyBuilder.call (blockRestartInterval : Nat) (z : ZeroCopyBuilder) :
    BuilderCall → Option (ZeroCopyBuilder × BuilderAnswer)
  | .add key value => (z.add blockRestartInterval key value).map fun z => (z, .done)
  | .currentSizeEstimate => some (z, .size z.currentSizeEstimate)
  | .empty => some (z, .isEmpty z.empty)
  | .finish => z.finish.map fun (z, bytes) => (z, .contents bytes)
  | .reset => some (z.reset, .done)

/-- The block of the builder stays within the limits: 32-bit sizes, the array of restart points
and the buffer outside. -/
def BlockBuilder.Fits (capacity : Nat) (b : BlockBuilder) : Prop :=
  b.buffer.length < 2 ^ 32 ∧ b.restarts.length ≤ kIndexRestarts ∧ b.buffer.length ≤ capacity

instance (capacity : Nat) : DecidablePred (BlockBuilder.Fits capacity) := fun _ =>
  inferInstanceAs (Decidable (_ ∧ _ ∧ _))

/-- Each key is above the one added before it since the last `Reset`, byte by byte. -/
def KeysIncrease : (last : Option Bytes) → List BuilderCall → Prop
  | _, [] => True
  | last, .add key _ :: calls =>
    (∀ k ∈ last, sliceCompare key k = .gt) ∧ KeysIncrease (some key) calls
  | _, .reset :: calls => KeysIncrease none calls
  | last, .currentSizeEstimate :: calls => KeysIncrease last calls
  | last, .empty :: calls => KeysIncrease last calls
  | last, .finish :: calls => KeysIncrease last calls

/-- The builder after an entry. -/
def BlockBuilder.added (blockRestartInterval : Nat) (b : BlockBuilder) (key value : Bytes) :
    BlockBuilder :=
  { b with
    buffer := b.buffer ++ encodeEntry (b.restart blockRestartInterval key).2.2 key value
    restarts := (b.restart blockRestartInterval key).1
    counter := (b.restart blockRestartInterval key).2.1 + 1
    lastKey := b.lastKey.take (b.restart blockRestartInterval key).2.2 ++
      key.drop (b.restart blockRestartInterval key).2.2 }

theorem BlockBuilder.add_eq (cmp : Bytes → Bytes → Ordering) (blockRestartInterval : Nat)
    (b : BlockBuilder) (key value : Bytes) :
    b.add cmp blockRestartInterval key value =
      if b.finished = false ∧ b.counter ≤ blockRestartInterval ∧
        (b.buffer = [] ∨ cmp key b.lastKey = .gt)
      then some (b.added blockRestartInterval key value) else none :=
  rfl

/-! ## Bytes at the cursor -/

namespace ZeroCopyBuilder

/-- `z'` is `z` with these bytes in its buffer and the cursor behind them. -/
structure Filled (z z' : ZeroCopyBuilder) (buffer : Bytes) : Prop where
  same : z' = { z with bSU := z'.bSU, bufferPointer := buffer.length }
  length : z'.bSU.length = z.bSU.length
  holds : z'.bSU.take buffer.length = buffer

theorem take_length_of_memcpy {dst src buffer : Bytes} (h : dst.take buffer.length = buffer)
    (hroom : (buffer ++ src).length ≤ dst.length) :
    ∃ dst', memcpy dst buffer.length src = some dst' ∧ dst'.length = dst.length ∧
      dst'.take (buffer ++ src).length = buffer ++ src := by
  rw [List.length_append] at hroom
  refine ⟨_, if_pos hroom, ?_, ?_⟩
  · rw [h, List.length_append, List.length_append, List.length_drop]
    omega
  · rw [h]
    exact List.take_left

theorem Filled.put {z z' : ZeroCopyBuilder} {buffer : Bytes} (h : Filled z z' buffer)
    (bytes : Bytes) (hlt : (buffer ++ bytes).length < 2 ^ 32)
    (hroom : (buffer ++ bytes).length ≤ z.bSU.length) :
    ∃ z'', z'.put bytes = some z'' ∧ Filled z z'' (buffer ++ bytes) := by
  have hpointer : z'.bufferPointer = buffer.length := by rw [h.same]
  rw [← h.length] at hroom
  obtain ⟨dst, hcopy, hlength, hholds⟩ := take_length_of_memcpy h.holds hroom
  have hnext : uint32 (buffer.length + bytes.length) = (buffer ++ bytes).length := by
    rw [List.length_append] at hlt ⊢
    exact uint32_of_lt hlt
  refine ⟨{ z' with bSU := dst, bufferPointer := (buffer ++ bytes).length }, ?_, ?_, ?_, hholds⟩
  · rw [ZeroCopyBuilder.put, hpointer, hcopy, hnext]
    rfl
  · rw [h.same]
  · exact hlength.trans h.length

/-- A loop that writes one piece after the other. -/
theorem Filled.foldlM_put {z : ZeroCopyBuilder} {α : Type*} (encode : α → Bytes) :
    ∀ (xs : List α) {z' : ZeroCopyBuilder} {buffer : Bytes}, Filled z z' buffer →
      (buffer ++ xs.flatMap encode).length < 2 ^ 32 →
      (buffer ++ xs.flatMap encode).length ≤ z.bSU.length →
      ∃ z'', xs.foldlM (fun z x => z.put (encode x)) z' = some z'' ∧
        Filled z z'' (buffer ++ xs.flatMap encode)
  | [], z', buffer, h, _, _ => ⟨z', rfl, by rwa [List.flatMap_nil, List.append_nil]⟩
  | x :: xs, z', buffer, h, hlt, hroom => by
    rw [List.flatMap_cons, ← List.append_assoc] at hlt hroom ⊢
    have hle := (List.sublist_append_left (buffer ++ encode x) (xs.flatMap encode)).length_le
    obtain ⟨z₁, hput, h₁⟩ := h.put (encode x) (hle.trans_lt hlt) (hle.trans hroom)
    obtain ⟨z₂, hrest, h₂⟩ := h₁.foldlM_put encode xs hlt hroom
    refine ⟨z₂, ?_, h₂⟩
    rw [List.foldlM_cons, hput]
    exact hrest

end ZeroCopyBuilder

/-! ## The two builders side by side -/

/-- The enclave's builder stands where the ordinary one does. -/
structure Mirrors (z : ZeroCopyBuilder) (b : BlockBuilder) : Prop where
  pointer : z.bufferPointer = b.buffer.length
  holds : z.bSU.take b.buffer.length = b.buffer
  words : z.restartWords = b.restarts
  count : z.restartCount = b.restarts.length
  counter : z.counter = b.counter
  finished : z.finished = b.finished
  lastKey : z.lastKey = b.lastKey

namespace Mirrors

open ZeroCopyBuilder

variable {z : ZeroCopyBuilder} {b : BlockBuilder}

theorem new (blockType : BlockType) (buf : Bytes) (gMem : Nat → Nat) (unset : Nat) :
    Mirrors (ZeroCopyBuilder.new blockType buf gMem unset) BlockBuilder.new := by
  refine ⟨rfl, rfl, ?_, ?_, rfl, rfl, rfl⟩
  · cases blockType <;> simp [restartWords, ZeroCopyBuilder.new, BlockBuilder.new]
  · cases blockType <;> rfl

theorem reset (z : ZeroCopyBuilder) (b : BlockBuilder) : Mirrors z.reset b.reset := by
  refine ⟨rfl, rfl, ?_, ?_, rfl, rfl, rfl⟩
  · unfold restartWords ZeroCopyBuilder.reset BlockBuilder.reset
    split <;> simp_all
  · unfold restartCount ZeroCopyBuilder.reset BlockBuilder.reset
    split <;> simp_all

theorem currentSizeEstimate (h : Mirrors z b) :
    z.currentSizeEstimate = b.currentSizeEstimate := by
  rw [ZeroCopyBuilder.currentSizeEstimate, BlockBuilder.currentSizeEstimate, h.pointer, h.count]

theorem empty (h : Mirrors z b) : z.empty = b.empty := by
  rw [ZeroCopyBuilder.empty, BlockBuilder.empty, h.pointer]
  cases b.buffer <;> rfl

theorem filled (h : Mirrors z b) : Filled z z b.buffer :=
  ⟨by rw [← h.pointer], rfl, h.holds⟩

theorem finish (h : Mirrors z b) (hfits : b.finish.Fits z.bSU.length) :
    ∃ z', z.finish = some (z', b.finish.buffer) ∧ Mirrors z' b.finish ∧
      z'.bSU.length = z.bSU.length := by
  obtain ⟨hlt, -, hroom⟩ := hfits
  have hle : (b.buffer ++ b.restarts.flatMap encodeFixed32).length ≤ b.finish.buffer.length :=
    (List.sublist_append_left _ _).length_le
  obtain ⟨z₁, hwords, h₁⟩ := h.filled.foldlM_put encodeFixed32 b.restarts (hle.trans_lt hlt)
    (hle.trans hroom)
  obtain ⟨z₂, hcount, h₂⟩ := h₁.put (encodeFixed32 (uint32 b.restarts.length)) hlt hroom
  have hpointer : z₂.bufferPointer = b.finish.buffer.length := by
    rw [h₂.same]
    rfl
  refine ⟨{ z₂ with finished := true }, ?_, ?_, h₂.length⟩
  · rw [ZeroCopyBuilder.finish, h.words, h.count, hwords]
    dsimp only [Option.bind_eq_bind, Option.bind_some]
    rw [hcount, Option.bind_some, hpointer]
    congr 2
    exact h₂.holds
  · refine ⟨hpointer, h₂.holds, ?_, ?_, ?_, rfl, ?_⟩
    · rw [h₂.same]
      exact h.words
    · rw [h₂.same]
      exact h.count
    · rw [h₂.same]
      exact h.counter
    · rw [h₂.same]
      exact h.lastKey

/-- A new restart point, in the array or in the vector. -/
theorem pushRestart (h : Mirrors z b) (hlt : b.buffer.length < 2 ^ 32)
    (hroom : b.restarts.length < kIndexRestarts) :
    ∃ z', z.pushRestart = some z' ∧ z'.bSU = z.bSU ∧
      Mirrors z' { b with restarts := b.restarts ++ [uint32 b.buffer.length] } := by
  have hoffset : uint32 b.buffer.length = z.bufferPointer := by
    rw [uint32_of_lt hlt, h.pointer]
  have hwords := h.words
  have hcount := h.count
  rw [restartWords] at hwords
  rw [restartCount] at hcount
  unfold ZeroCopyBuilder.pushRestart
  rw [hoffset]
  by_cases hindex : z.blockType = .index
  · rw [if_pos hindex] at hwords hcount
    rw [← hcount] at hroom
    have hnext : uint32 (z.restartsPointer + 1) = z.restartsPointer + 1 :=
      uint32_of_lt (Nat.lt_of_le_of_lt hroom (by decide))
    rw [if_pos hindex, if_pos hroom, hnext]
    refine ⟨_, rfl, rfl, h.pointer, h.holds, ?_, ?_, h.counter, h.finished, h.lastKey⟩
    · rw [restartWords, if_pos hindex]
      dsimp only
      rw [List.range_succ, List.map_append, List.map_singleton, Function.update_self, ← hwords]
      congr 1
      apply List.map_congr_left
      intro i hi
      rw [Function.update_of_ne (List.mem_range.mp hi).ne]
    · rw [restartCount, if_pos hindex, List.length_append, List.length_singleton, hcount]
  · rw [if_neg hindex] at hwords hcount
    rw [if_neg hindex]
    refine ⟨_, rfl, rfl, h.pointer, h.holds, ?_, ?_, h.counter, h.finished, h.lastKey⟩
    · rw [restartWords, if_neg hindex, hwords]
    · rw [restartCount, if_neg hindex, List.length_append, List.length_append, hcount]

/-- The restart bookkeeping of `Add`. -/
theorem restart (h : Mirrors z b) (blockRestartInterval : Nat) (key : Bytes)
    (hlt : b.buffer.length < 2 ^ 32)
    (hroom : (b.restart blockRestartInterval key).1.length ≤ kIndexRestarts) :
    ∃ z', z.restart blockRestartInterval key =
        some (z', (b.restart blockRestartInterval key).2.2) ∧ z'.bSU = z.bSU ∧
      Mirrors z' { b with
        restarts := (b.restart blockRestartInterval key).1
        counter := (b.restart blockRestartInterval key).2.1 } := by
  unfold ZeroCopyBuilder.restart
  unfold BlockBuilder.restart at hroom ⊢
  rw [h.counter, h.lastKey]
  by_cases hcounter : b.counter < blockRestartInterval
  · rw [if_pos hcounter, if_pos hcounter]
    exact ⟨z, rfl, rfl, h⟩
  · rw [if_neg hcounter] at hroom
    rw [if_neg hcounter, if_neg hcounter]
    dsimp only at hroom ⊢
    rw [List.length_append, List.length_singleton] at hroom
    obtain ⟨z', hpush, hbuffer, h'⟩ := h.pushRestart hlt hroom
    refine ⟨{ z' with counter := 0 }, ?_, hbuffer, ?_⟩
    · rw [hpush, Option.map_some]
    · exact ⟨h'.pointer, h'.holds, h'.words, h'.count, rfl, h'.finished, h'.lastKey⟩

end Mirrors

theorem ZeroCopyBuilder.Filled.putEntry {z z' : ZeroCopyBuilder} {buffer : Bytes}
    (h : Filled z z' buffer) (shared : Nat) (key value : Bytes)
    (hlt : (buffer ++ BlockBuilder.encodeEntry shared key value).length < 2 ^ 32)
    (hroom : (buffer ++ BlockBuilder.encodeEntry shared key value).length ≤ z.bSU.length) :
    ∃ z'', z'.putEntry shared key value = some z'' ∧
      Filled z z'' (buffer ++ BlockBuilder.encodeEntry shared key value) := by
  obtain ⟨z'', hputs, h''⟩ := h.foldlM_put id [encodeVarint32 (uint32 shared),
    encodeVarint32 (uint32 (key.length - shared)), encodeVarint32 (uint32 value.length),
    key.drop shared, value] (by simpa [BlockBuilder.encodeEntry] using hlt)
    (by simpa [BlockBuilder.encodeEntry] using hroom)
  refine ⟨z'', ?_, by simpa [BlockBuilder.encodeEntry] using h''⟩
  simpa [ZeroCopyBuilder.putEntry, List.foldlM_cons] using hputs

namespace Mirrors

open ZeroCopyBuilder

variable {z : ZeroCopyBuilder} {b : BlockBuilder} {blockRestartInterval : Nat}

/-- The assertions of the two builders say the same. -/
theorem add_asserts (h : Mirrors z b) (key : Bytes) :
    (z.finished = false ∧ z.counter ≤ blockRestartInterval ∧
      (z.bufferPointer = 0 ∨ sliceCompare key z.lastKey = .gt)) ↔
    b.finished = false ∧ b.counter ≤ blockRestartInterval ∧
      (b.buffer = [] ∨ sliceCompare key b.lastKey = .gt) := by
  rw [h.finished, h.counter, h.pointer, h.lastKey, List.length_eq_zero_iff]

theorem add (h : Mirrors z b) {key value : Bytes}
    (hasserts : b.finished = false ∧ b.counter ≤ blockRestartInterval ∧
      (b.buffer = [] ∨ sliceCompare key b.lastKey = .gt))
    (hfits : (b.added blockRestartInterval key value).Fits z.bSU.length) :
    ∃ z', z.add blockRestartInterval key value = some z' ∧
      Mirrors z' (b.added blockRestartInterval key value) ∧ z'.bSU.length = z.bSU.length := by
  obtain ⟨hlt, hrestarts, hroom⟩ := hfits
  have hle : b.buffer.length ≤ (b.added blockRestartInterval key value).buffer.length :=
    (List.sublist_append_left _ _).length_le
  obtain ⟨z₁, hrestart, hbuffer, h₁⟩ := h.restart blockRestartInterval key (hle.trans_lt hlt)
    hrestarts
  rw [← hbuffer] at hroom
  obtain ⟨z₂, hput, h₂⟩ := h₁.filled.putEntry (b.restart blockRestartInterval key).2.2 key value
    hlt hroom
  have hlast : z₂.lastKey = b.lastKey := by
    rw [h₂.same]
    exact h₁.lastKey
  refine ⟨{ z₂ with
    lastKey := z₂.lastKey.take (b.restart blockRestartInterval key).2.2 ++
      key.drop (b.restart blockRestartInterval key).2.2
    counter := z₂.counter + 1 }, ?_, ?_, ?_⟩
  · rw [ZeroCopyBuilder.add, if_pos ((h.add_asserts key).mpr hasserts), hrestart]
    dsimp only [Option.bind_eq_bind, Option.bind_some]
    rw [hput, Option.bind_some]
  · refine ⟨?_, h₂.holds, ?_, ?_, ?_, ?_, ?_⟩
    · rw [h₂.same]
      rfl
    · rw [h₂.same]
      exact h₁.words
    · rw [h₂.same]
      exact h₁.count
    · rw [h₂.same]
      exact congrArg (· + 1) h₁.counter
    · rw [h₂.same]
      exact h₁.finished
    · dsimp only
      rw [hlast]
      rfl
  · rw [← hbuffer]
    exact h₂.length

/-- **One call** leads both builders on, or fails in both. -/
theorem call (h : Mirrors z b) (blockRestartInterval : Nat) (c : BuilderCall) :
    match b.call sliceCompare blockRestartInterval c with
    | none => z.call blockRestartInterval c = none
    | some (b', answer) => b'.Fits z.bSU.length →
        ∃ z', z.call blockRestartInterval c = some (z', answer) ∧ Mirrors z' b' ∧
          z'.bSU.length = z.bSU.length := by
  cases c with
  | add key value =>
    rw [BlockBuilder.call, BlockBuilder.add_eq]
    by_cases hasserts : b.finished = false ∧ b.counter ≤ blockRestartInterval ∧
        (b.buffer = [] ∨ sliceCompare key b.lastKey = .gt)
    · rw [if_pos hasserts]
      intro hfits
      obtain ⟨z', hz, h', hlength⟩ := h.add hasserts hfits
      exact ⟨z', by rw [ZeroCopyBuilder.call, hz, Option.map_some], h', hlength⟩
    · rw [if_neg hasserts]
      show z.call blockRestartInterval (.add key value) = none
      rw [ZeroCopyBuilder.call, ZeroCopyBuilder.add, if_neg (mt (h.add_asserts key).mp hasserts),
        Option.map_none]
  | currentSizeEstimate =>
    exact fun _ => ⟨z, by rw [ZeroCopyBuilder.call, h.currentSizeEstimate], h, rfl⟩
  | empty => exact fun _ => ⟨z, by rw [ZeroCopyBuilder.call, h.empty], h, rfl⟩
  | finish =>
    intro hfits
    obtain ⟨z', hz, h', hlength⟩ := h.finish hfits
    exact ⟨z', by rw [ZeroCopyBuilder.call, hz, Option.map_some], h', hlength⟩
  | reset => exact fun _ => ⟨z.reset, rfl, Mirrors.reset z b, rfl⟩

/-- **All calls**: the enclave's builder answers as the ordinary one with the bytewise
comparator. -/
theorem answers_eq : ∀ {calls : List BuilderCall} {z : ZeroCopyBuilder} {b : BlockBuilder},
    Mirrors z b →
    StatesMeet (BlockBuilder.call sliceCompare blockRestartInterval)
      (BlockBuilder.Fits z.bSU.length) b calls →
    answers (ZeroCopyBuilder.call blockRestartInterval) z calls =
      answers (BlockBuilder.call sliceCompare blockRestartInterval) b calls
  | [], _, _, _, _ => rfl
  | c :: calls, z, b, h, hmeet => by
    have hcall := h.call blockRestartInterval c
    rw [answers, answers]
    unfold StatesMeet at hmeet
    cases hb : b.call sliceCompare blockRestartInterval c with
    | none =>
      rw [hb] at hcall
      rw [hcall]
      rfl
    | some p =>
      rw [hb] at hcall hmeet
      obtain ⟨hfits, hmeet⟩ := hmeet
      obtain ⟨z', hz, h', hlength⟩ := hcall hfits
      rw [← hlength] at hmeet
      rw [hz, Option.bind_some, Option.bind_some]
      exact congrArg (Option.map (p.2 :: ·)) (answers_eq h' hmeet)

end Mirrors

/-! ## Other comparators -/

section Comparators

variable {cmp : Bytes → Bytes → Ordering} {blockRestartInterval : Nat} {b : BlockBuilder}

/-- What a call does depends on the comparator only through its assertion. -/
theorem BlockBuilder.call_eq_of_some {c : BuilderCall} {p q : BlockBuilder × BuilderAnswer}
    (hp : b.call cmp blockRestartInterval c = some p)
    (hq : b.call sliceCompare blockRestartInterval c = some q) : p = q := by
  cases c with
  | add key value =>
    rw [call, add_eq, Option.map_eq_some_iff] at hp hq
    obtain ⟨b₁, hb₁, rfl⟩ := hp
    obtain ⟨b₂, hb₂, rfl⟩ := hq
    rw [Option.ite_none_right_eq_some] at hb₁ hb₂
    rw [← Option.some.inj hb₁.2, ← Option.some.inj hb₂.2]
  | currentSizeEstimate => exact Option.some.inj (hp.symm.trans hq)
  | empty => exact Option.some.inj (hp.symm.trans hq)
  | finish => exact Option.some.inj (hp.symm.trans hq)
  | reset => exact Option.some.inj (hp.symm.trans hq)

theorem statesMeet_sliceCompare {C : BlockBuilder → Prop} :
    ∀ {calls : List BuilderCall} {b : BlockBuilder} {as : List BuilderAnswer},
      answers (BlockBuilder.call cmp blockRestartInterval) b calls = some as →
      StatesMeet (BlockBuilder.call cmp blockRestartInterval) C b calls →
      StatesMeet (BlockBuilder.call sliceCompare blockRestartInterval) C b calls
  | [], _, _, _, _ => trivial
  | c :: calls, b, as, has, hmeet => by
    rw [answers, Option.bind_eq_some_iff] at has
    obtain ⟨p, hp, hrest⟩ := has
    obtain ⟨rest, hrest, -⟩ := Option.map_eq_some_iff.mp hrest
    unfold StatesMeet at hmeet ⊢
    rw [hp] at hmeet
    cases hq : b.call sliceCompare blockRestartInterval c with
    | none => trivial
    | some q =>
      obtain rfl := BlockBuilder.call_eq_of_some hp hq
      exact ⟨hmeet.1, statesMeet_sliceCompare hrest hmeet.2⟩

/-- The last key of a block that is still open; `none` for an empty one. -/
def BlockBuilder.LastIs (b : BlockBuilder) (last : Option Bytes) : Prop :=
  b.finished = false → b.buffer = [] ∧ last = none ∨ b.buffer ≠ [] ∧ last = some b.lastKey

theorem BlockBuilder.LastIs.increase_iff {last : Option Bytes} (h : b.LastIs last)
    (hopen : b.finished = false) (key : Bytes) :
    (b.buffer = [] ∨ sliceCompare key b.lastKey = .gt) ↔
      ∀ k ∈ last, sliceCompare key k = .gt := by
  rcases h hopen with ⟨hempty, rfl⟩ | ⟨hne, rfl⟩
  · exact iff_of_true (Or.inl hempty) nofun
  · rw [or_iff_right hne]
    constructor
    · rintro hgt k hk
      rwa [← Option.some.inj hk]
    · exact fun hall => hall b.lastKey rfl

theorem BlockBuilder.lastIs_added (b : BlockBuilder) (key value : Bytes) :
    (b.added blockRestartInterval key value).LastIs (some key) := by
  intro _
  right
  constructor
  · have hentry := encodeVarint32_length_pos (uint32 (b.restart blockRestartInterval key).2.2)
    intro hnil
    have hlength := congrArg List.length hnil
    simp only [added, encodeEntry, List.length_append, List.length_nil] at hlength
    omega
  · have hshared : b.lastKey.take (b.restart blockRestartInterval key).2.2 =
        key.take (b.restart blockRestartInterval key).2.2 := by
      unfold restart
      split
      · exact (sharedLength_spec b.lastKey key).2.2
      · rfl
    rw [added, hshared, List.take_append_drop]

/-- Calls that pass the assertions of some comparator pass those of the bytewise one just when
the keys increase byte by byte. -/
theorem answers_sliceCompare_iff : ∀ {calls : List BuilderCall} {b : BlockBuilder}
    {last : Option Bytes} {as : List BuilderAnswer}, b.LastIs last →
    answers (BlockBuilder.call cmp blockRestartInterval) b calls = some as →
    (answers (BlockBuilder.call sliceCompare blockRestartInterval) b calls = some as ↔
      KeysIncrease last calls)
  | [], _, _, _, _, has => iff_of_true has trivial
  | c :: calls, b, last, as, hlast, has => by
    rw [answers, Option.bind_eq_some_iff] at has
    obtain ⟨p, hp, hmap⟩ := has
    obtain ⟨rest, hrest, rfl⟩ := Option.map_eq_some_iff.mp hmap
    -- a call that both let through leads both to one state, from which the rest goes on
    have hnext : ∀ {last'}, p.1.LastIs last' →
        b.call sliceCompare blockRestartInterval c = some p →
        (answers (BlockBuilder.call sliceCompare blockRestartInterval) b (c :: calls) =
          some (p.2 :: rest) ↔ KeysIncrease last' calls) := by
      intro last' hlast' hq
      rw [← answers_sliceCompare_iff hlast' hrest, answers, hq, Option.bind_some,
        Option.map_eq_some_iff]
      constructor
      · rintro ⟨rest', hrest', heq⟩
        rwa [← (List.cons.inj heq).2]
      · exact fun h => ⟨rest, h, rfl⟩
    cases c with
    | add key value =>
      rw [BlockBuilder.call, BlockBuilder.add_eq, Option.map_eq_some_iff] at hp
      obtain ⟨b', hadd, rfl⟩ := hp
      obtain ⟨⟨hopen, hcounter, -⟩, hadd⟩ := Option.ite_none_right_eq_some.mp hadd
      obtain rfl := Option.some.inj hadd
      have hiff := hlast.increase_iff hopen key
      rw [KeysIncrease, ← hiff]
      by_cases hkey : b.buffer = [] ∨ sliceCompare key b.lastKey = .gt
      · rw [and_iff_right hkey]
        apply hnext (b.lastIs_added key value)
        rw [BlockBuilder.call, BlockBuilder.add_eq, if_pos ⟨hopen, hcounter, hkey⟩]
        rfl
      · refine iff_of_false ?_ fun h => hkey h.1
        rw [answers, BlockBuilder.call, BlockBuilder.add_eq, if_neg fun h => hkey h.2.2]
        nofun
    | currentSizeEstimate =>
      obtain rfl := Option.some.inj hp
      exact hnext hlast rfl
    | empty =>
      obtain rfl := Option.some.inj hp
      exact hnext hlast rfl
    | finish =>
      obtain rfl := Option.some.inj hp
      exact hnext (fun hopen => Bool.noConfusion (show true = false from hopen)) rfl
    | reset =>
      obtain rfl := Option.some.inj hp
      exact hnext (fun _ => Or.inl ⟨rfl, rfl⟩) rfl

end Comparators

/-! ## The same block -/

/-- **The builder of the enclave writes the same block.** Calls that the ordinary builder answers
within the limits get the same answers from it, for every type of block and whatever is in the
buffer and the array before, exactly when the keys of each block increase byte by byte. -/
theorem zeroCopyBuilder_answers_iff (blockType : BlockType) (buf : Bytes) (gMem : Nat → Nat)
    (unset : Nat) {cmp : Bytes → Bytes → Ordering} {blockRestartInterval : Nat}
    {calls : List BuilderCall} {as : List BuilderAnswer}
    (hanswers : answers (BlockBuilder.call cmp blockRestartInterval) BlockBuilder.new calls =
      some as)
    (hfits : StatesMeet (BlockBuilder.call cmp blockRestartInterval)
      (BlockBuilder.Fits buf.length) BlockBuilder.new calls) :
    answers (ZeroCopyBuilder.call blockRestartInterval)
        (ZeroCopyBuilder.new blockType buf gMem unset) calls = some as ↔
      KeysIncrease none calls := by
  have hbytewise := Mirrors.answers_eq (Mirrors.new blockType buf gMem unset)
    (statesMeet_sliceCompare hanswers hfits)
  rw [hbytewise]
  exact answers_sliceCompare_iff (fun _ => Or.inl ⟨rfl, rfl⟩) hanswers

/-- Two blocks of an index builder, with a restart point for each entry. -/
def indexCalls : List BuilderCall :=
  [.add [97, 98] [1], .add [97, 99] [2], .currentSizeEstimate, .finish, .reset, .empty,
    .add [96] [3], .finish]

theorem zeroCopyBuilder_answers_iff_index :
    KeysIncrease none indexCalls ∧
    answers (ZeroCopyBuilder.call 1)
        (ZeroCopyBuilder.new .index (List.replicate 64 0xee) (fun _ => 7) 9) indexCalls =
      answers (BlockBuilder.call sliceCompare 1) BlockBuilder.new indexCalls := by
  have hkeys : KeysIncrease none indexCalls := by
    simp only [indexCalls, KeysIncrease, Option.mem_some, forall_eq', Option.not_mem_none,
      false_imp_iff, implies_true, and_true, true_and]
    decide +kernel
  obtain ⟨as, has⟩ := Option.isSome_iff_exists.mp
    (show (answers (BlockBuilder.call sliceCompare 1) BlockBuilder.new indexCalls).isSome = true by
      decide +kernel)
  refine ⟨hkeys, ?_⟩
  rw [has]
  exact (zeroCopyBuilder_answers_iff .index (List.replicate 64 0xee) (fun _ => 7) 9 has
    (by decide +kernel)).mpr hkeys

/-- Two entries of one user key, in the order of `InternalKeyComparator`. -/
def twoVersions : List BuilderCall :=
  [.add (appendInternalKey ⟨[97], 5, .kTypeValue⟩) [1],
    .add (appendInternalKey ⟨[97], 3, .kTypeValue⟩) [2], .finish]

/-- **Newer before older**: the ordinary builder writes the block, the one of the enclave stops
at its assertion. -/
theorem zeroCopyBuilder_stops :
    (answers (BlockBuilder.call internalKeyCompare 16) BlockBuilder.new twoVersions).isSome =
      true ∧
    StatesMeet (BlockBuilder.call internalKeyCompare 16) (BlockBuilder.Fits 64) BlockBuilder.new
      twoVersions ∧
    answers (ZeroCopyBuilder.call 16)
      (ZeroCopyBuilder.new .data (List.replicate 64 0) (fun _ => 0) 0) twoVersions = none := by
  refine ⟨by decide +kernel, by decide +kernel, by decide +kernel⟩

end Lpad.Table
