import Lpad.Format.Comparator

/-!
# Short keys between and after others

`FindShortestSeparator` and `FindShortSuccessor` of the bytewise comparator (`comparator.cpp`)
and of `InternalKeyComparator` (`dbformat.cpp`). Index blocks hold the keys they make. A result
is `none` when an assertion of the source fails.
-/

namespace Lpad

/-- `Comparator`, less its name. -/
structure Comparator where
  compare : Bytes → Bytes → Ordering
  findShortestSeparator : (start limit : Bytes) → Option Bytes
  findShortSuccessor : (key : Bytes) → Option Bytes

/-! ## The bytewise comparator -/

namespace BytewiseComparator

/-- The loop that finds the length of the common prefix. -/
def diffIndex : (start limit : Bytes) → Nat
  | a :: start, b :: limit => if a = b then diffIndex start limit + 1 else 0
  | _, _ => 0

/-- `FindShortestSeparator` -/
def findShortestSeparator (start limit : Bytes) : Option Bytes :=
  let i := diffIndex start limit
  -- at the end of one of them there is no byte to compare: one is a prefix of the other
  match start[i]?, limit[i]? with
  | some diffByte, some limitByte =>
    if diffByte < 0xff ∧ diffByte.toNat + 1 < limitByte.toNat then
      let start := start.take i ++ [diffByte + 1]
      if sliceCompare start limit = .lt then some start else none
    else some start
  | _, _ => some start

/-- `FindShortSuccessor` -/
def findShortSuccessor : (key : Bytes) → Bytes
  | [] => []
  | byte :: key => if byte ≠ 0xff then [byte + 1] else byte :: findShortSuccessor key

end BytewiseComparator

/-- `BytewiseComparator()` -/
def bytewiseComparator : Comparator where
  compare := sliceCompare
  findShortestSeparator := BytewiseComparator.findShortestSeparator
  findShortSuccessor := fun key => some (BytewiseComparator.findShortSuccessor key)

/-! ## `InternalKeyComparator` -/

/-- The earliest internal key of a user key. -/
def earliestKey (userKey : Bytes) : Bytes :=
  appendInternalKey ⟨userKey, kMaxSequenceNumber, .kTypeValue⟩

namespace InternalKeyComparator

variable (user : Comparator)

/-- `FindShortestSeparator` -/
def findShortestSeparator (start limit : Bytes) : Option Bytes := do
  let tmp ← user.findShortestSeparator (extractUserKey start) (extractUserKey limit)
  if tmp.length < (extractUserKey start).length ∧
      user.compare (extractUserKey start) tmp = .lt then
    -- shorter physically, but larger logically
    let tmp := earliestKey tmp
    if internalKeyCompareBy user.compare start tmp = .lt ∧
        internalKeyCompareBy user.compare tmp limit = .lt then some tmp else none
  else some start

/-- `FindShortSuccessor` -/
def findShortSuccessor (key : Bytes) : Option Bytes := do
  let tmp ← user.findShortSuccessor (extractUserKey key)
  if tmp.length < (extractUserKey key).length ∧
      user.compare (extractUserKey key) tmp = .lt then
    let tmp := earliestKey tmp
    if internalKeyCompareBy user.compare key tmp = .lt then some tmp else none
  else some key

end InternalKeyComparator

/-- `InternalKeyComparator(user)` -/
def internalKeyComparator (user : Comparator) : Comparator where
  compare := internalKeyCompareBy user.compare
  findShortestSeparator := InternalKeyComparator.findShortestSeparator user
  findShortSuccessor := InternalKeyComparator.findShortSuccessor user

/-! ## What the bytewise comparator finds -/

namespace BytewiseComparator

theorem append_lt_append_iff (pre : Bytes) {a b : Bytes} : pre ++ a < pre ++ b ↔ a < b := by
  induction pre with
  | nil => rfl
  | cons x pre ih => rw [List.cons_append, List.cons_append, List.cons_lt_cons_self, ih]

/-- Up to the index the two strings are one, and where both go on they differ. -/
theorem diffIndex_split : ∀ {start limit : Bytes} {a b : Byte},
    start[diffIndex start limit]? = some a → limit[diffIndex start limit]? = some b →
    ∃ pre s l, start = pre ++ a :: s ∧ limit = pre ++ b :: l ∧
      start.take (diffIndex start limit) = pre
  | [], _, _, _, ha, _ => by cases ha
  | _ :: _, [], _, _, _, hb => by cases hb
  | x :: start, y :: limit, a, b, ha, hb => by
    unfold diffIndex at ha hb ⊢
    by_cases hxy : x = y
    · subst hxy
      rw [if_pos rfl] at ha hb ⊢
      rw [List.getElem?_cons_succ] at ha hb
      obtain ⟨pre, s, l, rfl, rfl, htake⟩ := diffIndex_split ha hb
      refine ⟨x :: pre, s, l, rfl, rfl, ?_⟩
      rw [List.take_succ_cons, htake]
    · rw [if_neg hxy] at ha hb ⊢
      obtain rfl : x = a := Option.some.inj ha
      obtain rfl : y = b := Option.some.inj hb
      exact ⟨[], start, limit, rfl, rfl, rfl⟩

theorem toNat_succ {a : Byte} (h : a ≠ 0xff) : (a + 1).toNat = a.toNat + 1 := by
  have hne : a.toNat ≠ 255 := fun heq => h (UInt8.toNat_inj.mp heq)
  have hlt := a.toNat_lt
  have hone : (1 : Byte).toNat = 1 := rfl
  rw [UInt8.toNat_add, hone]
  omega

theorem lt_succ_byte {a : Byte} (h : a ≠ 0xff) : a < a + 1 := by
  rw [UInt8.lt_iff_toNat_lt, toNat_succ h]
  exact Nat.lt_succ_self _

/-- **The separator** is the first string itself, or lies strictly between the two. -/
theorem findShortestSeparator_spec (start limit : Bytes) :
    ∃ t, findShortestSeparator start limit = some t ∧ (t = start ∨ start < t ∧ t < limit) := by
  unfold findShortestSeparator
  dsimp only
  split
  · rename_i a b ha hb
    obtain ⟨pre, s, l, hstart, hlimit, htake⟩ := diffIndex_split ha hb
    split
    · rename_i hbyte
      obtain ⟨hmax, hnext⟩ := hbyte
      have hsucc : a < a + 1 := lt_succ_byte hmax.ne
      have hbelow : a + 1 < b := by
        rw [UInt8.lt_iff_toNat_lt, toNat_succ hmax.ne]
        exact hnext
      have hlt : pre ++ [a + 1] < limit := by
        rw [hlimit, append_lt_append_iff, List.cons_lt_cons_iff]
        exact Or.inl hbelow
      rw [htake, if_pos (sliceCompare_lt_iff.mpr hlt)]
      refine ⟨_, rfl, Or.inr ⟨?_, hlt⟩⟩
      rw [hstart, append_lt_append_iff, List.cons_lt_cons_iff]
      exact Or.inl hsucc
    · exact ⟨start, rfl, Or.inl rfl⟩
  · exact ⟨start, rfl, Or.inl rfl⟩

end BytewiseComparator

/-! ## What `InternalKeyComparator` finds -/

theorem wellFormed_earliestKey (userKey : Bytes) : WellFormed (earliestKey userKey) :=
  ⟨⟨userKey, kMaxSequenceNumber, .kTypeValue⟩, le_rfl, rfl⟩

theorem extractUserKey_earliestKey (userKey : Bytes) :
    extractUserKey (earliestKey userKey) = userKey :=
  extractUserKey_appendInternalKey _

namespace InternalKeyComparator

/-- Different user keys decide. -/
theorem compare_lt_of_userKey_lt {a b : Bytes} (h : extractUserKey a < extractUserKey b) :
    internalKeyCompareBy bytewiseComparator.compare a b = .lt :=
  internalKeyCompare_lt_iff.mpr (keyRank_lt_of_userKey_lt h)

/-- **The separator** of two keys is the first of them, or the earliest key of a user key
strictly between theirs. -/
theorem findShortestSeparator_spec (a b : Bytes) :
    ∃ k, findShortestSeparator bytewiseComparator a b = some k ∧
      (k = a ∨ ∃ t, k = earliestKey t ∧ extractUserKey a < t ∧ t < extractUserKey b) := by
  obtain ⟨t, ht, hcase⟩ := BytewiseComparator.findShortestSeparator_spec (extractUserKey a)
    (extractUserKey b)
  have huser : bytewiseComparator.findShortestSeparator (extractUserKey a) (extractUserKey b) =
    some t := ht
  rw [findShortestSeparator, huser]
  dsimp only [Option.bind_eq_bind, Option.bind_some]
  split
  · rename_i hshort
    have hlt : extractUserKey a < t := sliceCompare_lt_iff.mp hshort.2
    have hbelow : t < extractUserKey b := by
      rcases hcase with rfl | ⟨-, hbelow⟩
      · exact absurd hlt (lt_irrefl _)
      · exact hbelow
    rw [if_pos]
    · exact ⟨_, rfl, Or.inr ⟨t, rfl, hlt, hbelow⟩⟩
    · constructor
      · apply compare_lt_of_userKey_lt
        rw [extractUserKey_earliestKey]
        exact hlt
      · apply compare_lt_of_userKey_lt
        rw [extractUserKey_earliestKey]
        exact hbelow
  · exact ⟨a, rfl, Or.inl rfl⟩

/-- **The successor** is the key itself or the earliest key of a larger user key. -/
theorem findShortSuccessor_spec (a : Bytes) :
    ∃ k, findShortSuccessor bytewiseComparator a = some k ∧
      (k = a ∨ ∃ t, k = earliestKey t ∧ extractUserKey a < t) := by
  have huser : bytewiseComparator.findShortSuccessor (extractUserKey a) =
    some (BytewiseComparator.findShortSuccessor (extractUserKey a)) := rfl
  rw [findShortSuccessor, huser]
  dsimp only [Option.bind_eq_bind, Option.bind_some]
  split
  · rename_i hshort
    have hlt := sliceCompare_lt_iff.mp hshort.2
    rw [if_pos]
    · exact ⟨_, rfl, Or.inr ⟨_, rfl, hlt⟩⟩
    · apply compare_lt_of_userKey_lt
      rw [extractUserKey_earliestKey]
      exact hlt
  · exact ⟨a, rfl, Or.inl rfl⟩

end InternalKeyComparator

/-- **Index separators separate.** For a key `a` and any key `b` above it, the separator `k` is
well formed with `a ≤ k < b`, and its user key is strictly between the two unless it is `a`. The
successor of `a` is well formed and not below it. -/
theorem internalKeyComparator_separates {a : Bytes} (ha : WellFormed a) :
    (∀ b, WellFormed b → (internalKeyComparator bytewiseComparator).compare a b = .lt →
      ∃ k, (internalKeyComparator bytewiseComparator).findShortestSeparator a b = some k ∧
        WellFormed k ∧ (internalKeyComparator bytewiseComparator).compare a k ≠ .gt ∧
        (internalKeyComparator bytewiseComparator).compare k b = .lt ∧
        (k ≠ a → bytewiseComparator.compare (extractUserKey a) (extractUserKey k) = .lt ∧
          bytewiseComparator.compare (extractUserKey k) (extractUserKey b) = .lt)) ∧
    ∃ k, (internalKeyComparator bytewiseComparator).findShortSuccessor a = some k ∧
      WellFormed k ∧ (internalKeyComparator bytewiseComparator).compare a k ≠ .gt := by
  have hcmp : (internalKeyComparator bytewiseComparator).compare = internalKeyCompare := rfl
  have hself : internalKeyCompare a a ≠ .gt := by
    rw [ne_eq, internalKeyCompare_gt_iff]
    exact lt_irrefl _
  have habove : ∀ t, extractUserKey a < t → internalKeyCompare a (earliestKey t) ≠ .gt := by
    intro t hlt
    rw [ne_eq, internalKeyCompare_gt_iff, not_lt]
    apply (keyRank_lt_of_userKey_lt _).le
    rw [extractUserKey_earliestKey]
    exact hlt
  rw [hcmp]
  constructor
  · intro b _ hab
    obtain ⟨k, hk, hcase⟩ := InternalKeyComparator.findShortestSeparator_spec a b
    refine ⟨k, hk, ?_⟩
    rcases hcase with rfl | ⟨t, rfl, hlt, hbelow⟩
    · exact ⟨ha, hself, hab, fun hne => absurd rfl hne⟩
    · rw [extractUserKey_earliestKey]
      refine ⟨wellFormed_earliestKey t, habove t hlt, ?_, fun _ =>
        ⟨sliceCompare_lt_iff.mpr hlt, sliceCompare_lt_iff.mpr hbelow⟩⟩
      rw [internalKeyCompare_lt_iff]
      apply keyRank_lt_of_userKey_lt
      rw [extractUserKey_earliestKey]
      exact hbelow
  · obtain ⟨k, hk, hcase⟩ := InternalKeyComparator.findShortSuccessor_spec a
    refine ⟨k, hk, ?_⟩
    rcases hcase with rfl | ⟨t, rfl, hlt⟩
    · exact ⟨ha, hself⟩
    · exact ⟨wellFormed_earliestKey t, habove t hlt⟩

/-- Shortened behind a byte `0xff`. -/
theorem internalKeyComparator_separates_maxByte :
    (internalKeyComparator bytewiseComparator).findShortestSeparator
        (appendInternalKey ⟨[255, 3, 1], 7, .kTypeValue⟩)
        (appendInternalKey ⟨[255, 9], 7, .kTypeValue⟩) = some (earliestKey [255, 4]) ∧
    (∃ k, (internalKeyComparator bytewiseComparator).findShortestSeparator
        (appendInternalKey ⟨[255, 3, 1], 7, .kTypeValue⟩)
        (appendInternalKey ⟨[255, 9], 7, .kTypeValue⟩) = some k ∧ WellFormed k) ∧
    ∃ k, (internalKeyComparator bytewiseComparator).findShortSuccessor
        (appendInternalKey ⟨[255, 3, 1], 7, .kTypeValue⟩) = some k ∧ WellFormed k ∧
      (internalKeyComparator bytewiseComparator).compare
        (appendInternalKey ⟨[255, 3, 1], 7, .kTypeValue⟩) k ≠ .gt := by
  obtain ⟨hsep, hsucc⟩ := internalKeyComparator_separates
    (a := appendInternalKey ⟨[255, 3, 1], 7, .kTypeValue⟩) (by decide +kernel)
  obtain ⟨k, hk, hwell, -⟩ := hsep (appendInternalKey ⟨[255, 9], 7, .kTypeValue⟩)
    (by decide +kernel) (by decide +kernel)
  exact ⟨by decide +kernel, ⟨k, hk, hwell⟩, hsucc⟩

end Lpad
