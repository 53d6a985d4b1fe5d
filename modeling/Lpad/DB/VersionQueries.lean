import Lpad.DB.VersionSet
import Lpad.Format.Comparator

/-!
# The range queries of a version over any user comparator

`version_set.cpp` compares user keys with the comparator of the options. Here its range queries
take that comparator as an argument. With the bytewise one they are those of `Version` and
`VersionSet`, which the rest of the development uses.

`FindFile` has 32-bit indices, so `left + right` may wrap; its result is `none` when the search
has not ended within the given rounds or reads past the files. Up to `2 ^ 31` files nothing wraps,
and the search is the one of `Version`, whose indices are plain numbers.
-/

namespace Lpad

section Queries

variable (ucmp : Bytes → Bytes → Ordering)

/-! ## One file and a user key -/

/-- `AfterFile` -/
def afterFileBy (userKey : Option Bytes) (f : FileMetaData) : Bool :=
  userKey.any fun k => ucmp k f.limitKey == .gt

/-- `BeforeFile` -/
def beforeFileBy (userKey : Option Bytes) (f : FileMetaData) : Bool :=
  userKey.any fun k => ucmp k f.startKey == .lt

/-! ## `FindFile` and `SomeFileOverlapsRange` -/

/-- The loop of `FindFile` with its `uint32_t` indices. -/
def findFileLoopBy (files : List FileMetaData) (key : Bytes) : Nat → Nat → Nat → Option Nat
  | 0, _, _ => none
  | rounds + 1, left, right =>
    if left < right then
      let mid := uint32 (left + right) / 2
      match files[mid]? with
      | none => none
      | some f =>
        if internalKeyCompareBy ucmp f.largest key = .lt
        then findFileLoopBy files key rounds (uint32 (mid + 1)) right
        else findFileLoopBy files key rounds left mid
    else some right

/-- `FindFile` -/
def findFileBy (rounds : Nat) (files : List FileMetaData) (key : Bytes) : Option Nat :=
  findFileLoopBy ucmp files key rounds 0 (uint32 files.length)

/-- The index at which `SomeFileOverlapsRange` looks; a null pointer lies before all files. -/
def startIndexBy (rounds : Nat) (files : List FileMetaData) : Option Bytes → Option Nat
  | some k =>
    findFileBy ucmp rounds files (appendInternalKey ⟨k, kMaxSequenceNumber, .kTypeValue⟩)
  | none => some 0

/-- `SomeFileOverlapsRange` -/
def someFileOverlapsRangeBy (rounds : Nat) (disjointSortedFiles : Bool)
    (files : List FileMetaData) (smallestUserKey largestUserKey : Option Bytes) : Option Bool :=
  if disjointSortedFiles = false then
    some (files.any fun f =>
      !(afterFileBy ucmp smallestUserKey f || beforeFileBy ucmp largestUserKey f))
  else
    (startIndexBy ucmp rounds files smallestUserKey).map fun index =>
      match files[index]? with
      | none => false
      | some f => !beforeFileBy ucmp largestUserKey f

/-! ## `GetOverlappingInputs` -/

/-- One pass of the loop, from some file on. -/
def scanInputsBy (level : Nat) (userBegin userEnd : Option Bytes) :
    List FileMetaData → List FileMetaData → Scan
  | [], inputs => .done inputs
  | f :: rest, inputs =>
    if userBegin.any fun b => ucmp f.limitKey b == .lt then
      scanInputsBy level userBegin userEnd rest inputs
    else if userEnd.any fun e => ucmp f.startKey e == .gt then
      scanInputsBy level userBegin userEnd rest inputs
    else if level = 0 then
      if userBegin.any fun b => ucmp f.startKey b == .lt then
        .restart (some f.startKey) userEnd
      else if userEnd.any fun e => ucmp f.limitKey e == .gt then
        .restart userBegin (some f.limitKey)
      else scanInputsBy level userBegin userEnd rest (inputs ++ [f])
    else scanInputsBy level userBegin userEnd rest (inputs ++ [f])

/-- Passes until one of them ends without a restart; `none` when there are not enough. -/
def overlapLoopBy (level : Nat) (files : List FileMetaData) :
    Nat → Option Bytes → Option Bytes → Option (List FileMetaData)
  | 0, _, _ => none
  | rounds + 1, userBegin, userEnd =>
    match scanInputsBy ucmp level userBegin userEnd files [] with
    | .done inputs => some inputs
    | .restart userBegin userEnd => overlapLoopBy level files rounds userBegin userEnd

/-- `Version::GetOverlappingInputs` -/
def Version.getOverlappingInputsBy (v : Version) (rounds level : Nat)
    (begin' end' : Option Bytes) : Option (List FileMetaData) :=
  overlapLoopBy ucmp level (v.files level) rounds (begin'.map extractUserKey)
    (end'.map extractUserKey)

/-! ## `IsBaseLevelForKey` -/

/-- The inner loop: step over the files that end before the key. -/
def seekLevelBy (files : List FileMetaData) (userKey : Bytes) (ptr : Nat) : Nat :=
  ptr + ((files.drop ptr).takeWhile fun f => ucmp userKey f.limitKey == .gt).length

/-- The loop over the levels. -/
def baseLevelLoopBy (v : Version) (userKey : Bytes) :
    List Nat → (Nat → Nat) → Bool × (Nat → Nat)
  | [], ptrs => (true, ptrs)
  | lvl :: lvls, ptrs =>
    let ptr := seekLevelBy ucmp (v.files lvl) userKey (ptrs lvl)
    let ptrs := Function.update ptrs lvl ptr
    match (v.files lvl)[ptr]? with
    | some f =>
      if ucmp userKey f.startKey = .lt then baseLevelLoopBy v userKey lvls ptrs
      else (false, ptrs)
    | none => baseLevelLoopBy v userKey lvls ptrs

/-- `Compaction::IsBaseLevelForKey` -/
def Compaction.isBaseLevelForKeyBy (c : Compaction) (userKey : Bytes) : Bool × Compaction :=
  let (base, ptrs) := baseLevelLoopBy ucmp c.inputVersion userKey c.deeperLevels c.levelPtrs
  (base, { c with levelPtrs := ptrs })

end Queries

/-! ## The bytewise comparator -/

section Bytewise

variable {files : List FileMetaData}

/-- Up to `2 ^ 31` files both searches take the same way. -/
theorem findFileLoopBy_sliceCompare (hlen : files.length ≤ 2 ^ 31) (key : Bytes) :
    ∀ {fuel rounds left right : Nat}, right ≤ files.length → right - left ≤ fuel →
      right - left < rounds →
      findFileLoopBy sliceCompare files key rounds left right =
        some (findFileLoop files key fuel left right)
  | _, 0, _, _, _, _, hrounds => absurd hrounds (Nat.not_lt_zero _)
  | 0, rounds + 1, left, right, _, hfuel, _ => by
    rw [findFileLoopBy, if_neg (Nat.not_lt.mpr (Nat.sub_eq_zero_iff_le.mp (Nat.le_zero.mp hfuel)))]
    rfl
  | fuel + 1, rounds + 1, left, right, hright, hfuel, hrounds => by
    unfold findFileLoopBy findFileLoop
    split
    · rename_i hlt
      have hmid : (left + right) / 2 < right := by omega
      have hsum : uint32 (left + right) = left + right := uint32_of_lt (by omega)
      have hnext : uint32 ((left + right) / 2 + 1) = (left + right) / 2 + 1 :=
        uint32_of_lt (by omega)
      dsimp only
      rw [hsum, hnext, List.getElem?_eq_getElem (hmid.trans_le hright)]
      dsimp only
      rw [internalKeyCompareBy_sliceCompare]
      by_cases hcmp : internalKeyCompare files[(left + right) / 2].largest key = .lt
      · rw [if_pos hcmp, if_pos hcmp]
        apply findFileLoopBy_sliceCompare hlen key hright
        all_goals omega
      · rw [if_neg hcmp, if_neg hcmp]
        apply findFileLoopBy_sliceCompare hlen key (hmid.le.trans hright)
        all_goals omega
    · rfl

theorem findFileBy_sliceCompare (hlen : files.length ≤ 2 ^ 31) {rounds : Nat}
    (hrounds : files.length < rounds) (key : Bytes) :
    findFileBy sliceCompare rounds files key = some (findFile files key) := by
  rw [findFileBy, uint32_of_lt (Nat.lt_of_le_of_lt hlen (by decide))]
  exact findFileLoopBy_sliceCompare hlen key le_rfl le_rfl hrounds

theorem someFileOverlapsRangeBy_sliceCompare (hlen : files.length ≤ 2 ^ 31) {rounds : Nat}
    (hrounds : files.length < rounds) (disjoint : Bool) (smallest largest : Option Bytes) :
    someFileOverlapsRangeBy sliceCompare rounds disjoint files smallest largest =
      some (someFileOverlapsRange disjoint files smallest largest) := by
  unfold someFileOverlapsRangeBy someFileOverlapsRange
  split
  · rfl
  · cases smallest with
    | none => rfl
    | some k =>
      rw [startIndexBy, findFileBy_sliceCompare hlen hrounds]
      rfl

end Bytewise

theorem scanInputsBy_sliceCompare (level : Nat) (b e : Option Bytes) :
    ∀ rest inputs,
      scanInputsBy sliceCompare level b e rest inputs = scanInputs level b e rest inputs
  | [], _ => rfl
  | f :: rest, inputs => by
    unfold scanInputsBy scanInputs
    rw [scanInputsBy_sliceCompare level b e rest inputs,
      scanInputsBy_sliceCompare level b e rest (inputs ++ [f])]

theorem overlapLoopBy_sliceCompare (level : Nat) (files : List FileMetaData) :
    ∀ rounds b e, overlapLoopBy sliceCompare level files rounds b e =
      overlapLoop level files rounds b e
  | 0, _, _ => rfl
  | rounds + 1, b, e => by
    unfold overlapLoopBy overlapLoop
    rw [scanInputsBy_sliceCompare]
    cases scanInputs level b e files [] with
    | done inputs => rfl
    | restart b' e' => exact overlapLoopBy_sliceCompare level files rounds b' e'

theorem baseLevelLoopBy_sliceCompare (v : Version) (userKey : Bytes) :
    ∀ lvls ptrs, baseLevelLoopBy sliceCompare v userKey lvls ptrs =
      baseLevelLoop v userKey lvls ptrs
  | [], _ => rfl
  | lvl :: lvls, ptrs => by
    unfold baseLevelLoopBy baseLevelLoop
    simp only [baseLevelLoopBy_sliceCompare v userKey lvls]
    rfl

end Lpad
