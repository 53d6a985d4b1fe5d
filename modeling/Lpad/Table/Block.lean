import Lpad.Base.Cursor
import Lpad.Format.Coding
import Lpad.Format.Status

/-!
# Reading a block

`block.cpp`, for any contents. Offsets and sizes are 32-bit numbers where the source has
`uint32_t`. A slice of the block is its offset and size; `value_` is one of them.

`reads` is not in the source: the slices of `data_` that have been read as the delta of a key
or shown as a value, the last one first.

The loops that parse entries have as many rounds as the block has bytes, and the binary search
as many as there are restart points. `none` says that these were not enough, or that an
assertion failed.
-/

namespace Lpad.Table

/-! ## Entries -/

/-- `DecodeEntry` on the bytes from `p` to `limit`: the lengths, and the bytes from the delta
of the key to `limit`. -/
def decodeEntry (region : Bytes) : Option (Nat × Nat × Nat × Bytes) :=
  match region with
  | b₀ :: b₁ :: b₂ :: rest =>
    if (b₀.toNat ||| b₁.toNat ||| b₂.toNat) < 128 then
      check b₀.toNat b₁.toNat b₂.toNat rest
    else
      match getVarint32 region with
      | none => none
      | some (shared, region) =>
        match getVarint32 region with
        | none => none
        | some (nonShared, region) =>
          match getVarint32 region with
          | none => none
          | some (valueLength, region) => check shared nonShared valueLength region
  | _ => none
where
  /-- The sum of the lengths is a 32-bit number. -/
  check (shared nonShared valueLength : Nat) (region : Bytes) : Option (Nat × Nat × Nat × Bytes) :=
    if uint32 region.length < uint32 (nonShared + valueLength) then none
    else some (shared, nonShared, valueLength, region)

/-- The fast path reads the same numbers. -/
theorem getVarint32_of_lt {b : UInt8} (h : b.toNat < 128) (rest : Bytes) :
    getVarint32 (b :: rest) = some (b.toNat, rest) := by
  rw [getVarint32]
  exact if_pos ((and_128_eq_zero_iff b.toNat_lt).mpr h)

theorem decodeEntry_eq {region : Bytes} (h : 3 ≤ region.length) :
    decodeEntry region = (getVarint32 region).bind fun (shared, region) =>
      (getVarint32 region).bind fun (nonShared, region) =>
        (getVarint32 region).bind fun (valueLength, region) =>
          decodeEntry.check shared nonShared valueLength region := by
  obtain ⟨b₀, b₁, b₂, rest, rfl⟩ : ∃ b₀ b₁ b₂ rest, region = b₀ :: b₁ :: b₂ :: rest := by
    match region, h with
    | b₀ :: b₁ :: b₂ :: rest, _ => exact ⟨b₀, b₁, b₂, rest, rfl⟩
  unfold decodeEntry
  dsimp only
  by_cases hfast : (b₀.toNat ||| b₁.toNat ||| b₂.toNat) < 128
  · have h₀ : b₀.toNat < 128 := (Nat.left_le_or.trans Nat.left_le_or).trans_lt hfast
    have h₁ : b₁.toNat < 128 := (Nat.right_le_or.trans Nat.left_le_or).trans_lt hfast
    have h₂ : b₂.toNat < 128 := Nat.right_le_or.trans_lt hfast
    rw [if_pos hfast, getVarint32_of_lt h₀, Option.bind_some, getVarint32_of_lt h₁,
      Option.bind_some, getVarint32_of_lt h₂, Option.bind_some]
  · rw [if_neg hfast]
    cases getVarint32 (b₀ :: b₁ :: b₂ :: rest) with
    | none => rfl
    | some r =>
      obtain ⟨shared, region⟩ := r
      dsimp only [Option.bind_some]
      cases getVarint32 region with
      | none => rfl
      | some r =>
        obtain ⟨nonShared, region⟩ := r
        dsimp only [Option.bind_some]
        cases getVarint32 region with
        | none => rfl
        | some r => rfl

/-! ## The iterator -/

/-- `Block::Iter`, without the comparator. -/
structure Iter where
  data : Bytes
  restarts : Nat
  numRestarts : Nat
  current : Nat
  restartIndex : Nat
  key : Bytes
  valueStart : Nat
  valueSize : Nat
  status : Status
  reads : List (Nat × Nat)

namespace Iter

/-- The constructor. `value_` is set before it is read. -/
def new (data : Bytes) (restarts numRestarts : Nat) : Iter :=
  ⟨data, restarts, numRestarts, restarts, numRestarts, [], 0, 0, .ok, []⟩

variable (it : Iter)

def valid : Bool := it.current < it.restarts

/-- Some bytes of `data_`. -/
def slice (start size : Nat) : Bytes := (it.data.drop start).take size

def value : Bytes := it.slice it.valueStart it.valueSize

def nextEntryOffset : Nat := uint32 (it.valueStart + it.valueSize)

def getRestartPoint (index : Nat) : Nat := decodeFixed32 (it.data.drop (it.restarts + index * 4))

def seekToRestartPoint (index : Nat) : Iter :=
  { it with
    key := [], restartIndex := index, valueStart := it.getRestartPoint index, valueSize := 0 }

/-- The bytes from an offset to the restart array. -/
def region (offset : Nat) : Bytes := (it.data.take it.restarts).drop offset

/-- `CorruptionError`. `value_` is set before it is read. -/
def corruptionError : Iter :=
  { it with
    current := it.restarts
    restartIndex := it.numRestarts
    status := .corruption "bad entry in block"
    key := []
    valueStart := 0
    valueSize := 0 }

/-- The iterator behind the last entry. -/
def ended : Iter := { it with current := it.restarts, restartIndex := it.numRestarts }

/-- The loop of `ParseNextKey` over the restart points; it ends at the last of them. -/
def skipRestarts : (rounds : Nat) → (index : Nat) → Nat
  | 0, index => index
  | rounds + 1, index =>
    if index + 1 < it.numRestarts ∧ it.getRestartPoint (index + 1) < it.current then
      skipRestarts rounds (index + 1)
    else index

/-- `ParseNextKey` with the entry at `current_` decoded. -/
def setEntry (shared nonShared valueLength : Nat) (region : Bytes) : Iter :=
  let p := it.restarts - region.length
  let it :=
    { it with
      key := it.key.take shared ++ it.slice p nonShared
      valueStart := p + nonShared
      valueSize := valueLength
      reads := (p + nonShared, valueLength) :: (p, nonShared) :: it.reads }
  { it with restartIndex := it.skipRestarts it.numRestarts it.restartIndex }

/-- `ParseNextKey` -/
def parseNextKey : Bool × Iter :=
  let it := { it with current := it.nextEntryOffset }
  if it.current ≥ it.restarts then (false, it.ended)
  else
    match decodeEntry (it.region it.current) with
    | none => (false, it.corruptionError)
    | some (shared, nonShared, valueLength, region) =>
      if it.key.length < shared then (false, it.corruptionError)
      else (true, it.setEntry shared nonShared valueLength region)

/-- `ParseNextKey() && NextEntryOffset() < bound`, again and again. -/
def parseUntil (bound : Nat) : (fuel : Nat) → Iter → Option Iter
  | 0, _ => none
  | fuel + 1, it =>
    let (more, it) := it.parseNextKey
    if more ∧ it.nextEntryOffset < bound then parseUntil bound fuel it else some it

def next : Option Iter := if it.valid then some it.parseNextKey.2 else none

/-- The loop of `Prev`: the last restart point before `original` up to an index. -/
def restartBefore (original : Nat) : (index : Nat) → Option Nat
  | 0 => if it.getRestartPoint 0 ≥ original then none else some 0
  | index + 1 =>
    if it.getRestartPoint (index + 1) ≥ original then restartBefore original index
    else some (index + 1)

def prev : Option Iter :=
  if it.valid then
    match it.restartBefore it.current it.restartIndex with
    | none => some it.ended
    | some index => parseUntil it.current (it.data.length + 1) (it.seekToRestartPoint index)
  else none

def seekToFirst : Option Iter := some (it.seekToRestartPoint 0).parseNextKey.2

def seekToLast : Option Iter :=
  parseUntil it.restarts (it.data.length + 1) (it.seekToRestartPoint (it.numRestarts - 1))

section Seek

variable (cmp : Bytes → Bytes → Ordering) (target : Bytes)

/-- The binary search of `Seek`: `left` at its end, or `none` for a corruption; and the
iterator. -/
def searchRestarts : (fuel : Nat) → (left right : Nat) → Iter → Option (Option Nat × Iter)
  | 0, _, _, _ => none
  | fuel + 1, left, right, it =>
    if left < right then
      let mid := uint32 (left + right + 1) / 2
      match decodeEntry (it.region (it.getRestartPoint mid)) with
      | none => some (none, it.corruptionError)
      | some (shared, nonShared, _, region) =>
        if shared ≠ 0 then some (none, it.corruptionError)
        else
          let p := it.restarts - region.length
          let it := { it with reads := (p, nonShared) :: it.reads }
          if cmp (it.slice p nonShared) target = .lt then searchRestarts fuel mid right it
          else searchRestarts fuel left (uint32 (mid + (2 ^ 32 - 1))) it
    else some (some left, it)

/-- The linear search of `Seek`. -/
def searchKeys : (fuel : Nat) → Iter → Option Iter
  | 0, _ => none
  | fuel + 1, it =>
    let (more, it) := it.parseNextKey
    if more ∧ cmp it.key target = .lt then searchKeys fuel it else some it

def seek : Option Iter :=
  match searchRestarts cmp target it.numRestarts 0 (it.numRestarts - 1) it with
  | none => none
  | some (none, it) => some it
  | some (some left, it) =>
    searchKeys cmp target (it.data.length + 1) (it.seekToRestartPoint left)

end Seek

end Iter

/-- The class `Block::Iter`. -/
def blockIterator (cmp : Bytes → Bytes → Ordering) : Iterator Iter Bytes Bytes where
  valid it := it.valid
  key it := it.key
  value it := it.value
  move
    | .seekToFirst, it => it.seekToFirst
    | .seekToLast, it => it.seekToLast
    | .seek target, it => it.seek cmp target
    | .next, it => it.next
    | .prev, it => it.prev

/-! ## Blocks -/

/-- `Block`: the contents, `size_` and `restart_offset_`. -/
structure Block where
  data : Bytes
  size : Nat
  restartOffset : Nat

namespace Block

def numRestarts (b : Block) : Nat := decodeFixed32 (b.data.drop (b.size - 4))

/-- The constructor; the size 0 marks an error. -/
def new (contents : Bytes) : Block :=
  let b : Block := ⟨contents, contents.length, 0⟩
  if b.size < 4 then { b with size := 0 }
  else if b.numRestarts > (b.size - 4) / 4 then { b with size := 0 }
  else { b with restartOffset := uint32 (b.size - uint32 (1 + b.numRestarts) * 4) }

/-- What `NewIterator` returns: `NewErrorIterator`, `NewEmptyIterator` or an `Iter`. -/
inductive NewIterator where
  | error (status : Status)
  | empty
  | iter (it : Iter)

def newIterator (b : Block) : NewIterator :=
  if b.size < 4 then .error (.corruption "bad block contents")
  else if b.numRestarts = 0 then .empty
  else .iter (.new b.data b.restartOffset b.numRestarts)

namespace NewIterator

def status : NewIterator → Status
  | .error status => status
  | .empty => .ok
  | .iter it => it.status

def reads : NewIterator → List (Nat × Nat)
  | .iter it => it.reads
  | _ => []

end NewIterator

end Block

/-- The iterators of `NewIterator`: `EmptyIterator` or `Block::Iter`. -/
def newBlockIterator (cmp : Bytes → Bytes → Ordering) :
    Iterator Block.NewIterator Bytes Bytes where
  valid
    | .iter it => it.valid
    | _ => false
  key
    | .iter it => it.key
    | _ => []
  value
    | .iter it => it.value
    | _ => []
  move
    | m, .iter it => ((blockIterator cmp).move m it).map .iter
    | m, it => if m.relative then none else some it

end Lpad.Table
