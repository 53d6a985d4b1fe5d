import Lpad.DB.DropReads
import Lpad.Format.Comparator
import Lpad.Format.Status

/-!
# The iterator of a user

`db_iter.cpp`. The internal iterator and the user comparator are parameters. The samples
that `ParseKey` takes for `RecordReadSample` are left out, and so is the capacity of
`saved_value_`.

The loops go on until the internal iterator is not valid. `fuel` bounds their rounds;
`none` says that it ran out, or that an assertion failed.
-/

namespace Lpad

/-- `DBIter` -/
structure DBIter (σ : Type) where
  iter : σ
  status : Status
  savedKey : Bytes
  savedValue : Bytes
  direction : Direction
  valid : Bool

namespace DBIter

variable {σ : Type}

def new (iter : σ) : DBIter σ := ⟨iter, .ok, [], [], .forward, false⟩

section Code

variable (it : Iterator σ Bytes Bytes) (ucmp : Bytes → Bytes → Ordering) (sequence : Nat)

def parseKey (d : DBIter σ) : DBIter σ × Option ParsedInternalKey :=
  match parseInternalKey (it.key d.iter) with
  | none => ({ d with status := .corruption "corrupted internal key in DBIter" }, none)
  | some ikey => (d, some ikey)

/-- `ParseKey(&ikey) && ikey.sequence <= sequence_` -/
def parseVisible (d : DBIter σ) : DBIter σ × Option ParsedInternalKey :=
  let (d, ikey) := d.parseKey it
  (d, ikey.filter fun ikey => ikey.sequence ≤ sequence)

/-- The body of the loop of `FindNextUserEntry`, up to `iter_->Next()`: the iterator to
return with, or to go on with and the new value of `skipping`. `skip` is always
`&saved_key_`. -/
def nextBody (skipping : Bool) (d : DBIter σ) : DBIter σ ⊕ (Bool × DBIter σ) :=
  let (d, ikey) := d.parseVisible it sequence
  match ikey with
  | none => .inr (skipping, d)
  | some ikey =>
    match ikey.type with
    | .kTypeDeletion => .inr (true, { d with savedKey := ikey.userKey })
    | .kTypeValue =>
      if skipping ∧ ucmp ikey.userKey d.savedKey ≠ .gt then .inr (skipping, d)
      else .inl { d with valid := true, savedKey := [] }

def findNextUserEntry : (fuel : Nat) → (skipping : Bool) → DBIter σ → Option (DBIter σ)
  | 0, _, _ => none
  | fuel + 1, skipping, d =>
    match d.nextBody it ucmp sequence skipping with
    | .inl d => some d
    | .inr (skipping, d) =>
      match it.move .next d.iter with
      | none => none
      | some iter =>
        if it.valid iter then findNextUserEntry fuel skipping { d with iter }
        else some { d with iter, savedKey := [], valid := false }

/-- The body of the loop of `FindPrevUserEntry`, up to `iter_->Prev()`: the iterator when
it breaks, or the new `value_type` and the iterator. -/
def prevBody (valueType : ValueType) (d : DBIter σ) : DBIter σ ⊕ (ValueType × DBIter σ) :=
  let (d, ikey) := d.parseVisible it sequence
  match ikey with
  | none => .inr (valueType, d)
  | some ikey =>
    if valueType ≠ .kTypeDeletion ∧ ucmp ikey.userKey d.savedKey = .lt then .inl d
    else
      match ikey.type with
      | .kTypeDeletion => .inr (.kTypeDeletion, { d with savedKey := [], savedValue := [] })
      | .kTypeValue => .inr (.kTypeValue,
          { d with savedKey := extractUserKey (it.key d.iter), savedValue := it.value d.iter })

/-- The loop of `FindPrevUserEntry`: `value_type` at its end, and the iterator. -/
def prevLoop : (fuel : Nat) → (valueType : ValueType) → DBIter σ → Option (ValueType × DBIter σ)
  | 0, _, _ => none
  | fuel + 1, valueType, d =>
    match d.prevBody it ucmp sequence valueType with
    | .inl d => some (valueType, d)
    | .inr (valueType, d) =>
      match it.move .prev d.iter with
      | none => none
      | some iter =>
        if it.valid iter then prevLoop fuel valueType { d with iter }
        else some (valueType, { d with iter })

/-- What `FindPrevUserEntry` does after its loop. -/
def endPrev (valueType : ValueType) (d : DBIter σ) : DBIter σ :=
  match valueType with
  | .kTypeDeletion =>
    { d with valid := false, savedKey := [], savedValue := [], direction := .forward }
  | .kTypeValue => { d with valid := true }

def findPrevUserEntry (fuel : Nat) (d : DBIter σ) : Option (DBIter σ) :=
  if it.valid d.iter then
    (d.prevLoop it ucmp sequence fuel .kTypeDeletion).map fun (valueType, d) => endPrev valueType d
  else some (endPrev .kTypeDeletion d)

/-- The loop of `Prev` in the forward direction; `false` when it came to the end of the
internal iterator. -/
def scanBack : (fuel : Nat) → DBIter σ → Option (Bool × DBIter σ)
  | 0, _ => none
  | fuel + 1, d =>
    match it.move .prev d.iter with
    | none => none
    | some iter =>
      if it.valid iter then
        if ucmp (extractUserKey (it.key iter)) d.savedKey = .lt then some (true, { d with iter })
        else scanBack fuel { d with iter }
      else some (false, { d with iter, valid := false, savedKey := [], savedValue := [] })

def next (fuel : Nat) (d : DBIter σ) : Option (DBIter σ) :=
  if d.valid then
    match d.direction with
    | .reverse =>
      match it.move (if it.valid d.iter then .next else .seekToFirst) d.iter with
      | none => none
      | some iter =>
        let d := { d with direction := .forward, iter }
        if it.valid iter then d.findNextUserEntry it ucmp sequence fuel true
        else some { d with valid := false, savedKey := [] }
    | .forward =>
      let d := { d with savedKey := extractUserKey (it.key d.iter) }
      d.findNextUserEntry it ucmp sequence fuel true
  else none

def prev (fuel : Nat) (d : DBIter σ) : Option (DBIter σ) :=
  if d.valid then
    match d.direction with
    | .reverse => d.findPrevUserEntry it ucmp sequence fuel
    | .forward =>
      let d := { d with savedKey := extractUserKey (it.key d.iter) }
      match d.scanBack it ucmp fuel with
      | none => none
      | some (false, d) => some d
      | some (true, d) => { d with direction := .reverse }.findPrevUserEntry it ucmp sequence fuel
  else none

/-- `Seek` and `SeekToFirst` after they have moved the internal iterator. -/
def startForward (fuel : Nat) (d : DBIter σ) : Option (DBIter σ) :=
  if it.valid d.iter then d.findNextUserEntry it ucmp sequence fuel false
  else some { d with valid := false }

def seek (fuel : Nat) (target : Bytes) (d : DBIter σ) : Option (DBIter σ) :=
  let savedKey := appendInternalKey ⟨target, sequence, .kTypeValue⟩
  match it.move (.seek savedKey) d.iter with
  | none => none
  | some iter =>
    { d with direction := .forward, savedValue := [], savedKey, iter }.startForward it ucmp
      sequence fuel

def seekToFirst (fuel : Nat) (d : DBIter σ) : Option (DBIter σ) :=
  match it.move .seekToFirst d.iter with
  | none => none
  | some iter =>
    { d with direction := .forward, savedValue := [], iter }.startForward it ucmp sequence fuel

def seekToLast (fuel : Nat) (d : DBIter σ) : Option (DBIter σ) :=
  match it.move .seekToLast d.iter with
  | none => none
  | some iter =>
    { d with direction := .reverse, savedValue := [], iter }.findPrevUserEntry it ucmp sequence fuel

end Code

end DBIter

/-- The class `DBIter` over an internal iterator. -/
def dbIterator {σ : Type} (it : Iterator σ Bytes Bytes) (ucmp : Bytes → Bytes → Ordering)
    (sequence fuel : Nat) : Iterator (DBIter σ) Bytes Bytes where
  valid d := d.valid
  key d := match d.direction with
    | .forward => extractUserKey (it.key d.iter)
    | .reverse => d.savedKey
  value d := match d.direction with
    | .forward => it.value d.iter
    | .reverse => d.savedValue
  move
    | .seekToFirst => DBIter.seekToFirst it ucmp sequence fuel
    | .seekToLast => DBIter.seekToLast it ucmp sequence fuel
    | .seek target => DBIter.seek it ucmp sequence fuel target
    | .next => DBIter.next it ucmp sequence fuel
    | .prev => DBIter.prev it ucmp sequence fuel

end Lpad
