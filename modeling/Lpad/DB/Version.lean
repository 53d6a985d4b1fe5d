import Lpad.Format.InternalKey
import Mathlib.Algebra.BigOperators.Group.List.Defs

/-!
# Versions

A `Version` (`version_set.cpp`) lists the table files of each level. Level 0
holds flushed memtables, whose key ranges may overlap. The range queries of this
module decide which files a compaction reads and at which level a flushed
memtable lands.

`GetOverlappingInputs` is the one loop here that does not simply walk a list: on
level 0 it restarts whenever a file it takes widens the range.
-/

namespace Lpad

/-! ## Configuration -/

def kNumLevels : Nat := 7

/-- Level-0 compaction is started when there are this many files. -/
def kL0CompactionTrigger : Nat := 4

/-- Writes stop at this many level-0 files. -/
def kL0StopWritesTrigger : Nat := 12

/-- The deepest level a flushed memtable is pushed to. -/
def kMaxMemCompactLevel : Nat := 2

def kTargetFileSize : Nat := 2 * 1048576

def kMaxGrandParentOverlapBytes : Nat := 10 * kTargetFileSize

def kExpandedCompactionByteSizeLimit : Nat := 25 * kTargetFileSize

def maxFileSizeForLevel (_level : Nat) : Nat := kTargetFileSize

/-! ## Files -/

/-- A table file: its number, its size, and the smallest and largest internal key
it serves. -/
structure FileMetaData where
  number : Nat
  fileSize : Nat
  smallest : Bytes
  largest : Bytes
deriving DecidableEq, Repr

def FileMetaData.startKey (f : FileMetaData) : Bytes := extractUserKey f.smallest

def FileMetaData.limitKey (f : FileMetaData) : Bytes := extractUserKey f.largest

/-- `TotalFileSize` -/
def totalFileSize (files : List FileMetaData) : Nat := (files.map FileMetaData.fileSize).sum

/-- `Version`: the files of each level, `files_[level]`, and the file that has used
up its seeks, with its level. -/
structure Version where
  files : Nat → List FileMetaData
  fileToCompact : Option (FileMetaData × Nat)

/-- `new Version(vset)` -/
def Version.empty : Version := ⟨fun _ => [], none⟩

/-- `AfterFile`; `none` is a null pointer, which lies before all keys. -/
def afterFile (userKey : Option Bytes) (f : FileMetaData) : Bool :=
  userKey.any fun k => sliceCompare k f.limitKey == .gt

/-- `BeforeFile`; `none` is a null pointer, which lies after all keys. -/
def beforeFile (userKey : Option Bytes) (f : FileMetaData) : Bool :=
  userKey.any fun k => sliceCompare k f.startKey == .lt

/-- The `while (left < right)` loop of `FindFile`. The range halves each round,
so its length is fuel enough. -/
def findFileLoop (files : List FileMetaData) (key : Bytes) : Nat → Nat → Nat → Nat
  | 0, _, right => right
  | fuel + 1, left, right =>
    if left < right then
      let mid := (left + right) / 2
      match files[mid]? with
      | some f =>
        if internalKeyCompare f.largest key = .lt
        then findFileLoop files key fuel (mid + 1) right
        else findFileLoop files key fuel left mid
      | none => right
    else right

/-- `FindFile`: the least index whose largest key is not below `key`. -/
def findFile (files : List FileMetaData) (key : Bytes) : Nat :=
  findFileLoop files key files.length 0 files.length

/-- `SomeFileOverlapsRange` -/
def someFileOverlapsRange (disjointSortedFiles : Bool) (files : List FileMetaData)
    (smallestUserKey largestUserKey : Option Bytes) : Bool :=
  if disjointSortedFiles = false then
    files.any fun f => !(afterFile smallestUserKey f || beforeFile largestUserKey f)
  else
    let index :=
      match smallestUserKey with
      | some k => findFile files (appendInternalKey ⟨k, kMaxSequenceNumber, .kTypeValue⟩)
      | none => 0
    match files[index]? with
    | none => false
    | some f => !beforeFile largestUserKey f

/-- `Version::OverlapInLevel` -/
def Version.overlapInLevel (v : Version) (level : Nat)
    (smallestUserKey largestUserKey : Option Bytes) : Bool :=
  someFileOverlapsRange (decide (level > 0)) (v.files level) smallestUserKey largestUserKey

/-! ## `GetOverlappingInputs` -/

/-- How one pass over the files of a level ends: with the inputs, or with a wider
range to start over with. -/
inductive Scan where
  | done (inputs : List FileMetaData)
  | restart (userBegin userEnd : Option Bytes)

/-- One pass of the loop of `GetOverlappingInputs`, from some file on. -/
def scanInputs (level : Nat) (userBegin userEnd : Option Bytes) :
    List FileMetaData → List FileMetaData → Scan
  | [], inputs => .done inputs
  | f :: rest, inputs =>
    if userBegin.any fun b => sliceCompare f.limitKey b == .lt then
      -- completely before the range
      scanInputs level userBegin userEnd rest inputs
    else if userEnd.any fun e => sliceCompare f.startKey e == .gt then
      -- completely after the range
      scanInputs level userBegin userEnd rest inputs
    else if level = 0 then
      if userBegin.any fun b => sliceCompare f.startKey b == .lt then
        .restart (some f.startKey) userEnd
      else if userEnd.any fun e => sliceCompare f.limitKey e == .gt then
        .restart userBegin (some f.limitKey)
      else scanInputs level userBegin userEnd rest (inputs ++ [f])
    else scanInputs level userBegin userEnd rest (inputs ++ [f])

/-- Passes until one of them ends without a restart. -/
def overlapLoop (level : Nat) (files : List FileMetaData) :
    Nat → Option Bytes → Option Bytes → Option (List FileMetaData)
  | 0, _, _ => none
  | fuel + 1, userBegin, userEnd =>
    match scanInputs level userBegin userEnd files [] with
    | .done inputs => some inputs
    | .restart userBegin userEnd => overlapLoop level files fuel userBegin userEnd

/-- `Version::GetOverlappingInputs` for two internal keys, each possibly null. -/
def Version.getOverlappingInputs (v : Version) (level : Nat) (begin' end' : Option Bytes) :
    List FileMetaData :=
  (overlapLoop level (v.files level) (2 * (v.files level).length + 1)
    (begin'.map extractUserKey) (end'.map extractUserKey)).getD []

/-! ## Where a flushed memtable goes -/

/-- The `while (level < kMaxMemCompactLevel)` loop of `PickLevelForMemTableOutput`;
the first argument counts the levels left. -/
def Version.pickLevelLoop (v : Version) (smallestUserKey largestUserKey : Bytes) :
    Nat → Nat → Nat
  | 0, level => level
  | left + 1, level =>
    if v.overlapInLevel (level + 1) (some smallestUserKey) (some largestUserKey) then level
    else if level + 2 < kNumLevels ∧
        totalFileSize (v.getOverlappingInputs (level + 2)
          (some (appendInternalKey ⟨smallestUserKey, kMaxSequenceNumber, .kTypeValue⟩))
          (some (appendInternalKey ⟨largestUserKey, 0, .kTypeDeletion⟩)))
          > kMaxGrandParentOverlapBytes then level
    else v.pickLevelLoop smallestUserKey largestUserKey left (level + 1)

/-- `Version::PickLevelForMemTableOutput` -/
def Version.pickLevelForMemTableOutput (v : Version) (smallestUserKey largestUserKey : Bytes) :
    Nat :=
  if v.overlapInLevel 0 (some smallestUserKey) (some largestUserKey) then 0
  else v.pickLevelLoop smallestUserKey largestUserKey kMaxMemCompactLevel 0

/-! ## Ranges -/

/-- `GetRange`: the smallest and the largest key of some files. -/
def getRange : List FileMetaData → Bytes × Bytes
  | [] => ([], [])
  | f :: rest =>
    rest.foldl (fun r f =>
      (if internalKeyCompare f.smallest r.1 = .lt then f.smallest else r.1,
        if internalKeyCompare f.largest r.2 = .gt then f.largest else r.2))
      (f.smallest, f.largest)

/-- `GetRange2` -/
def getRange2 (inputs1 inputs2 : List FileMetaData) : Bytes × Bytes :=
  getRange (inputs1 ++ inputs2)

end Lpad
