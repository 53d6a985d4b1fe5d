import Lpad.DB.Version
import Lpad.Format.Status
import Mathlib.Logic.Function.Basic

/-!
# Version edits and the version set

A `VersionEdit` names files to delete and files to add. `VersionSet::Builder`
applies edits to a version, and `LogAndApply` makes the result the current version
once the edit is in the manifest; whether that write succeeds is an argument of the
model. `PickCompaction` and `CompactRange` choose the input files of a compaction.

`Finalize` compares the levels by quotients of sizes. The source takes the quotients
in `double`; here they are compared exactly, by cross multiplication.
-/

namespace Lpad

/-! ## Edits -/

/-- `VersionEdit`; the deleted files are pairs of level and number. -/
structure VersionEdit where
  logNumber : Option Nat
  prevLogNumber : Option Nat
  nextFileNumber : Option Nat
  lastSequence : Option Nat
  compactPointers : List (Nat × Bytes)
  deletedFiles : List (Nat × Nat)
  newFiles : List (Nat × FileMetaData)
deriving DecidableEq, Repr

def VersionEdit.clear : VersionEdit := ⟨none, none, none, none, [], [], []⟩

def VersionEdit.setCompactPointer (edit : VersionEdit) (level : Nat) (key : Bytes) :
    VersionEdit :=
  { edit with compactPointers := edit.compactPointers ++ [(level, key)] }

def VersionEdit.addFile (edit : VersionEdit) (level : Nat) (f : FileMetaData) : VersionEdit :=
  { edit with newFiles := edit.newFiles ++ [(level, f)] }

/-- `DeleteFile`; the deleted files are a `std::set`. -/
def VersionEdit.deleteFile (edit : VersionEdit) (level number : Nat) : VersionEdit :=
  { edit with deletedFiles := edit.deletedFiles.insert (level, number) }

/-! ## `VersionSet::Builder` -/

/-- `BySmallestKey`: by smallest key, ties by file number. -/
def bySmallestKey (f1 f2 : FileMetaData) : Bool :=
  match internalKeyCompare f1.smallest f2.smallest with
  | .lt => true
  | .gt => false
  | .eq => decide (f1.number < f2.number)

/-- Insertion into the ordered set `FileSet`, which keeps the old of two
equivalent files. -/
def insertFile (f : FileMetaData) : List FileMetaData → List FileMetaData
  | [] => [f]
  | g :: rest =>
    if bySmallestKey f g then f :: g :: rest
    else if bySmallestKey g f then g :: insertFile f rest
    else g :: rest

structure LevelState where
  deletedFiles : List Nat
  addedFiles : List FileMetaData

/-- The levels of a builder. -/
structure Builder where
  levels : Nat → LevelState

def Builder.new : Builder := ⟨fun _ => ⟨[], []⟩⟩

def Builder.deleteFile (b : Builder) (level number : Nat) : Builder :=
  let l := b.levels level
  ⟨Function.update b.levels level { l with deletedFiles := number :: l.deletedFiles }⟩

/-- A file that an edit adds is no longer deleted. -/
def Builder.addFile (b : Builder) (level : Nat) (f : FileMetaData) : Builder :=
  let l := b.levels level
  ⟨Function.update b.levels level
    ⟨l.deletedFiles.filter (· ≠ f.number), insertFile f l.addedFiles⟩⟩

/-- `Builder::Apply`, less the compaction pointers. -/
def Builder.apply (b : Builder) (edit : VersionEdit) : Builder :=
  let b := edit.deletedFiles.foldl (fun b d => b.deleteFile d.1 d.2) b
  edit.newFiles.foldl (fun b n => b.addFile n.1 n.2) b

/-- `MaybeAddFile` for a list of files. -/
def LevelState.kept (l : LevelState) (files : List FileMetaData) : List FileMetaData :=
  files.filter fun f => decide (f.number ∉ l.deletedFiles)

/-- The merge of `SaveTo`: before each added file come the base files up to
`std::upper_bound`, which on a sorted range is the first file above it. -/
def LevelState.mergeFiles (l : LevelState) :
    List FileMetaData → List FileMetaData → List FileMetaData
  | [], base => l.kept base
  | f :: added, base =>
    l.kept (base.takeWhile fun g => !bySmallestKey f g) ++ l.kept [f] ++
      l.mergeFiles added (base.dropWhile fun g => !bySmallestKey f g)

/-- `Builder::SaveTo` over the base version. -/
def Builder.saveTo (b : Builder) (base : Version) : Version :=
  ⟨fun level => (b.levels level).mergeFiles (b.levels level).addedFiles (base.files level), none⟩

/-! ## The version set -/

structure VersionSet where
  current : Version
  compactPointer : Nat → Bytes
  nextFileNumber : Nat
  lastSequence : Nat
  logNumber : Nat
  prevLogNumber : Nat

/-- The constructor `VersionSet::VersionSet`. -/
def VersionSet.init : VersionSet := ⟨Version.empty, fun _ => [], 2, 0, 0, 0⟩

/-- The fields `LogAndApply` fills in before it writes the edit. -/
def VersionSet.completeEdit (vs : VersionSet) (edit : VersionEdit) : VersionEdit :=
  { edit with
    logNumber := some (edit.logNumber.getD vs.logNumber)
    prevLogNumber := some (edit.prevLogNumber.getD vs.prevLogNumber)
    nextFileNumber := some vs.nextFileNumber
    lastSequence := some vs.lastSequence }

/-- The loop over `compact_pointers_` in `Builder::Apply`. -/
def VersionSet.setCompactPointers (vs : VersionSet) (pointers : List (Nat × Bytes)) :
    VersionSet :=
  { vs with
    compactPointer := pointers.foldl (fun cp p => Function.update cp p.1 p.2) vs.compactPointer }

/-- The version an edit makes of the current one. -/
def VersionSet.nextVersion (vs : VersionSet) (edit : VersionEdit) : Version :=
  (Builder.new.apply edit).saveTo vs.current

/-- `VersionSet::LogAndApply`; `manifest` is the outcome of writing the edit to the
manifest. The compaction pointers are set even when that fails. -/
def VersionSet.logAndApply (vs : VersionSet) (edit : VersionEdit) (manifest : Status) :
    Status × VersionSet :=
  let edit := vs.completeEdit edit
  let v := vs.nextVersion edit
  let vs := vs.setCompactPointers edit.compactPointers
  if manifest.isOk then
    (manifest,
      { vs with
        current := v
        logNumber := edit.logNumber.getD vs.logNumber
        prevLogNumber := edit.prevLogNumber.getD vs.prevLogNumber })
  else (manifest, vs)

/-! ## Which level needs a compaction -/

/-- A quotient of two numbers, not evaluated. -/
structure Score where
  num : Nat
  den : Nat
deriving DecidableEq, Repr

def Score.gt (a b : Score) : Bool := decide (a.num * b.den > b.num * a.den)

/-- `MaxBytesForLevel` -/
def maxBytesForLevel (level : Nat) : Nat := 10 * 1048576 * 10 ^ (level - 1)

/-- The score of a level in `Finalize`. -/
def Version.score (v : Version) (level : Nat) : Score :=
  if level = 0 then ⟨(v.files 0).length, kL0CompactionTrigger⟩
  else ⟨totalFileSize (v.files level), maxBytesForLevel level⟩

/-- `Finalize`: the first level with the largest score, among all but the last. -/
def Version.compactionLevel (v : Version) : Nat :=
  (List.range (kNumLevels - 1)).foldl
    (fun best level => if (v.score level).gt (v.score best) then level else best) 0

/-- `compaction_score_ >= 1` -/
def Version.needsSizeCompaction (v : Version) : Bool :=
  decide ((v.score v.compactionLevel).num ≥ (v.score v.compactionLevel).den)

/-! ## Choosing a compaction -/

/-- `Compaction`: what is compacted, and the cursors of the two scans that go along
with the output. -/
structure Compaction where
  level : Nat
  maxOutputFileSize : Nat
  inputVersion : Version
  edit : VersionEdit
  inputs0 : List FileMetaData
  inputs1 : List FileMetaData
  grandparents : List FileMetaData
  grandparentIndex : Nat
  seenKey : Bool
  overlappedBytes : Nat
  levelPtrs : Nat → Nat

/-- The constructor `Compaction::Compaction`, with the input version and the inputs
of the first level. -/
def Compaction.new (level : Nat) (inputVersion : Version) (inputs0 : List FileMetaData) :
    Compaction where
  level := level
  maxOutputFileSize := maxFileSizeForLevel level
  inputVersion := inputVersion
  edit := VersionEdit.clear
  inputs0 := inputs0
  inputs1 := []
  grandparents := []
  grandparentIndex := 0
  seenKey := false
  overlappedBytes := 0
  levelPtrs := fun _ => 0

/-- The inputs `SetupOtherInputs` settles on: those of the next level that overlap
and, if there are any, the larger set of first-level inputs that does not pull in
more of the next level. -/
def Version.growInputs (v : Version) (level : Nat) (inputs0 : List FileMetaData) :
    List FileMetaData × List FileMetaData :=
  let (smallest, largest) := getRange inputs0
  let inputs1 := v.getOverlappingInputs (level + 1) (some smallest) (some largest)
  if inputs1.isEmpty then (inputs0, inputs1)
  else
    let (allStart, allLimit) := getRange2 inputs0 inputs1
    let expanded0 := v.getOverlappingInputs level (some allStart) (some allLimit)
    if expanded0.length > inputs0.length ∧
        totalFileSize inputs1 + totalFileSize expanded0 < kExpandedCompactionByteSizeLimit then
      let (newStart, newLimit) := getRange expanded0
      let expanded1 := v.getOverlappingInputs (level + 1) (some newStart) (some newLimit)
      if expanded1.length = inputs1.length then (expanded0, expanded1) else (inputs0, inputs1)
    else (inputs0, inputs1)

/-- `VersionSet::SetupOtherInputs` -/
def VersionSet.setupOtherInputs (vs : VersionSet) (c : Compaction) : Compaction × VersionSet :=
  let (inputs0, inputs1) := vs.current.growInputs c.level c.inputs0
  let (allStart, allLimit) := getRange2 inputs0 inputs1
  let grandparents :=
    if c.level + 2 < kNumLevels
    then vs.current.getOverlappingInputs (c.level + 2) (some allStart) (some allLimit)
    else []
  let largest := (getRange inputs0).2
  ({ c with
      inputs0 := inputs0
      inputs1 := inputs1
      grandparents := grandparents
      edit := c.edit.setCompactPointer c.level largest },
    { vs with compactPointer := Function.update vs.compactPointer c.level largest })

/-- The file a size compaction of a level starts with: the first one after the
compaction pointer, else the first one of the level. -/
def VersionSet.firstInput (vs : VersionSet) (level : Nat) : List FileMetaData :=
  let files := vs.current.files level
  match files.find? fun f => vs.compactPointer level == [] ||
      internalKeyCompare f.largest (vs.compactPointer level) == .gt with
  | some f => [f]
  | none => files.take 1

/-- The level and the file `PickCompaction` starts with: a level with too much data
goes before a file with too many seeks. -/
def VersionSet.pickStart (vs : VersionSet) : Option (Nat × List FileMetaData) :=
  if vs.current.needsSizeCompaction then
    some (vs.current.compactionLevel, vs.firstInput vs.current.compactionLevel)
  else vs.current.fileToCompact.map fun (f, level) => (level, [f])

/-- `VersionSet::PickCompaction`; `none` is a null pointer. -/
def VersionSet.pickCompaction (vs : VersionSet) : Option (Compaction × VersionSet) :=
  vs.pickStart.map fun (level, inputs0) =>
    let inputs0 :=
      -- level-0 files may overlap each other, so all overlapping ones are taken
      if level = 0 then
        let (smallest, largest) := getRange inputs0
        vs.current.getOverlappingInputs 0 (some smallest) (some largest)
      else inputs0
    vs.setupOtherInputs (Compaction.new level vs.current inputs0)

/-- The loop of `CompactRange` that cuts the inputs once they reach the limit. -/
def takeUpTo (limit : Nat) : Nat → List FileMetaData → List FileMetaData
  | _, [] => []
  | total, f :: rest =>
    if total + f.fileSize ≥ limit then [f] else f :: takeUpTo limit (total + f.fileSize) rest

/-- `VersionSet::CompactRange`; `none` is a null pointer. -/
def VersionSet.compactRange (vs : VersionSet) (level : Nat) (begin' end' : Option Bytes) :
    Option (Compaction × VersionSet) :=
  let inputs := vs.current.getOverlappingInputs level begin' end'
  if inputs.isEmpty then none
  else
    let inputs := if level > 0 then takeUpTo (maxFileSizeForLevel level) 0 inputs else inputs
    some (vs.setupOtherInputs (Compaction.new level vs.current inputs))

/-! ## A compaction -/

/-- `Compaction::IsTrivialMove` -/
def Compaction.isTrivialMove (c : Compaction) : Bool :=
  decide (c.inputs0.length = 1 ∧ c.inputs1.length = 0 ∧
    totalFileSize c.grandparents ≤ kMaxGrandParentOverlapBytes)

/-- `Compaction::AddInputDeletions` -/
def Compaction.addInputDeletions (c : Compaction) (edit : VersionEdit) : VersionEdit :=
  let edit := c.inputs0.foldl (fun edit f => edit.deleteFile c.level f.number) edit
  c.inputs1.foldl (fun edit f => edit.deleteFile (c.level + 1) f.number) edit

/-- The inner loop of `IsBaseLevelForKey`: step over the files that end before the
key. -/
def seekLevel (files : List FileMetaData) (userKey : Bytes) (ptr : Nat) : Nat :=
  ptr + ((files.drop ptr).takeWhile fun f => sliceCompare userKey f.limitKey == .gt).length

/-- `for (lvl = level_ + 2; lvl < kNumLevels; lvl++)` over the listed levels: the
answer and the level pointers. -/
def baseLevelLoop (v : Version) (userKey : Bytes) :
    List Nat → (Nat → Nat) → Bool × (Nat → Nat)
  | [], ptrs => (true, ptrs)
  | lvl :: lvls, ptrs =>
    let ptr := seekLevel (v.files lvl) userKey (ptrs lvl)
    let ptrs := Function.update ptrs lvl ptr
    match (v.files lvl)[ptr]? with
    | some f =>
      if sliceCompare userKey f.startKey = .lt then baseLevelLoop v userKey lvls ptrs
      else (false, ptrs)
    | none => baseLevelLoop v userKey lvls ptrs

/-- The levels below the output level. -/
def Compaction.deeperLevels (c : Compaction) : List Nat :=
  List.range' (c.level + 2) (kNumLevels - (c.level + 2))

/-- `Compaction::IsBaseLevelForKey` -/
def Compaction.isBaseLevelForKey (c : Compaction) (userKey : Bytes) : Bool × Compaction :=
  let (base, ptrs) := baseLevelLoop c.inputVersion userKey c.deeperLevels c.levelPtrs
  (base, { c with levelPtrs := ptrs })

/-- The `while` loop of `ShouldStopBefore` over the grandparents from the index on:
index and overlapped bytes. -/
def grandparentLoop (internalKey : Bytes) (seenKey : Bool) :
    List FileMetaData → Nat → Nat → Nat × Nat
  | [], index, bytes => (index, bytes)
  | f :: rest, index, bytes =>
    if internalKeyCompare internalKey f.largest = .gt then
      grandparentLoop internalKey seenKey rest (index + 1)
        (if seenKey then bytes + f.fileSize else bytes)
    else (index, bytes)

/-- `Compaction::ShouldStopBefore` -/
def Compaction.shouldStopBefore (c : Compaction) (internalKey : Bytes) : Bool × Compaction :=
  let (index, bytes) := grandparentLoop internalKey c.seenKey
    (c.grandparents.drop c.grandparentIndex) c.grandparentIndex c.overlappedBytes
  let c := { c with grandparentIndex := index, seenKey := true, overlappedBytes := bytes }
  if bytes > kMaxGrandParentOverlapBytes then (true, { c with overlappedBytes := 0 })
  else (false, c)

end Lpad
