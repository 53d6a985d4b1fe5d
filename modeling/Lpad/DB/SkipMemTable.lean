import Lpad.DB.Get
import Lpad.DB.SkipListCursor
import Lpad.Format.Comparator

/-!
# The memtable as a skip list

`memtable.cpp` over any user comparator. `MemTable` is a memtable by the calls of `Add`; here
it is the skip list that they build. The key of a node is the buffer that `Add` has filled,
and a pointer into it is the bytes from there on. A read behind its end gives `none`.
-/

namespace Lpad

/-- `VarintLength`; ten bytes hold 64 bits. -/
def varintLength : (rounds : Nat) → (v : Nat) → Nat
  | 0, _ => 1
  | rounds + 1, v => if v ≥ 128 then varintLength rounds (v >>> 7) + 1 else 1

/-- `LookupKey::memtable_key` -/
def LookupKey.memtableKey (k : LookupKey) : Bytes :=
  encodeVarint32 (uint32 (k.userKey.length + 8)) ++ k.internalKey

namespace MemTable

/-- `MemTable::Table` -/
abbrev Table : Type := SkipList Bytes

/-- `GetLengthPrefixedSlice` of a pointer. -/
def sliceAt (data : Bytes) : Bytes :=
  match getLengthPrefixedSlice data with
  | none => []
  | some (slice, _) => slice

/-- `MemTable::KeyComparator` -/
def keyComparator (ucmp : Bytes → Bytes → Ordering) (aptr bptr : Bytes) : Ordering :=
  internalKeyCompareBy ucmp (sliceAt aptr) (sliceAt bptr)

/-- What `Add` writes to the buffer. -/
def encodeEntry (e : MemEntry) : Bytes :=
  encodeVarint32 (uint32 (e.userKey.length + 8)) ++
    (e.userKey ++ encodeFixed64 (uint64 (e.sequence <<< 8) ||| e.type.code)) ++
    (encodeVarint32 (uint32 e.value.length) ++ e.value)

/-- `encoded_len`, in `Add`. -/
def encodedLen (e : MemEntry) : Nat :=
  varintLength 9 (e.userKey.length + 8) + (e.userKey.length + 8) +
    varintLength 9 e.value.length + e.value.length

namespace Table

variable (ucmp : Bytes → Bytes → Ordering)

/-- `MemTable::Add`, with the height that is drawn for the node. -/
def add (t : Table) (e : MemEntry) (height : Nat) : Option Table :=
  if (encodeEntry e).length = encodedLen e then
    t.insert (keyComparator ucmp) (encodeEntry e) height
  else none

/-- What `SUGet` reads from the entry it found. -/
def readEntry (entry : Bytes) (k : LookupKey) (s : Status) (out : GetOutput) :
    Option (Bool × Status × GetOutput) :=
  match getVarint32 entry with
  | none => none
  | some (keyLength, keyPtr) =>
    -- `key_length - 8` is computed in 32 bits
    if ucmp (keyPtr.take (uint32 (keyLength + (2 ^ 32 - 8)))) k.userKey = .eq then
      let tag := decodeFixed64 (keyPtr.drop (keyLength - 8))
      let out := { out with tw := tag >>> 8 }
      match tag &&& 255 with
      | 1 =>
        match getLengthPrefixedSlice (keyPtr.drop keyLength) with
        | none => none
        | some (value, _) => some (true, s, { out with value })
      | 0 => some (true, .notFound "", out)
      | _ => some (false, s, out)
    else some (false, s, out)

/-- `MemTable::SUGet`: the return value, `*s`, and the output. -/
def suGet (t : Table) (k : LookupKey) (s : Status) (out : GetOutput) :
    Option (Bool × Status × GetOutput) :=
  let it := t.iterator (keyComparator ucmp)
  match it.move (.seek k.memtableKey) none with
  | none => none
  | some iter =>
    if it.valid iter then readEntry ucmp (it.key iter) k s out else some (false, s, out)

end Table

end MemTable

end Lpad
