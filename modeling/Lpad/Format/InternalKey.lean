import Lpad.Base.Bytes
import Mathlib.Data.Prod.Lex
import Mathlib.Order.Lattice

/-!
# Internal keys

An internal key is the user key followed by eight bytes, the packed sequence
number and value type in little-endian order (`dbformat.h`, `dbformat.cpp`).
Tables, memtables and compactions order internal keys by ascending user key and,
for one user key, by *descending* packed number, so that the newest entry of a
user key comes first.

`internalKeyCompare` is the code's comparator. `keyRank` says what it computes:
the lexicographic rank of user key and dual trailer, a linear order.
-/

namespace Lpad

/-- `kMaxSequenceNumber`: eight bits stay free at the bottom of a 64-bit word. -/
def kMaxSequenceNumber : Nat := 2 ^ 56 - 1

inductive ValueType : Type where
  | kTypeDeletion
  | kTypeValue
deriving DecidableEq, Repr

/-- The value type is embedded as the low byte of the trailer. -/
def ValueType.code : ValueType → Nat
  | .kTypeDeletion => 0
  | .kTypeValue => 1

structure ParsedInternalKey where
  userKey : Bytes
  sequence : Nat
  type : ValueType
deriving DecidableEq, Repr

def packSequenceAndType (seq : Nat) (t : ValueType) : Nat := seq * 256 + t.code

/-- `AppendInternalKey` on an empty string: the serialization of a parsed key. -/
def appendInternalKey (p : ParsedInternalKey) : Bytes :=
  p.userKey ++ leBytes 8 (packSequenceAndType p.sequence p.type)

def extractUserKey (internalKey : Bytes) : Bytes :=
  internalKey.take (internalKey.length - 8)

/-- `DecodeFixed64(data + size - 8)`: the packed sequence number and type. -/
def trailer (internalKey : Bytes) : Nat :=
  leNat (internalKey.drop (internalKey.length - 8))

/-- `ParseInternalKey`; `none` is the return value `false`. -/
def parseInternalKey (internalKey : Bytes) : Option ParsedInternalKey :=
  if internalKey.length < 8 then none
  else
    match trailer internalKey % 256 with
    | 0 => some ⟨extractUserKey internalKey, trailer internalKey / 256, .kTypeDeletion⟩
    | 1 => some ⟨extractUserKey internalKey, trailer internalKey / 256, .kTypeValue⟩
    | _ => none

/-- `InternalKeyComparator::Compare` over the bytewise user comparator. -/
def internalKeyCompare (a b : Bytes) : Ordering :=
  match sliceCompare (extractUserKey a) (extractUserKey b) with
  | .eq => if trailer a > trailer b then .lt else if trailer a < trailer b then .gt else .eq
  | r => r

/-! ## The order the comparator computes -/

/-- Ascending user key, then descending trailer. -/
abbrev KeyRank : Type := Bytes ×ₗ Natᵒᵈ

def keyRank (internalKey : Bytes) : KeyRank :=
  toLex (extractUserKey internalKey, OrderDual.toDual (trailer internalKey))

theorem keyRank_lt_iff {a b : Bytes} : keyRank a < keyRank b ↔
    extractUserKey a < extractUserKey b ∨
      extractUserKey a = extractUserKey b ∧ trailer b < trailer a := by
  rw [keyRank, keyRank, Prod.Lex.toLex_lt_toLex, OrderDual.toDual_lt_toDual]

theorem internalKeyCompare_lt_iff {a b : Bytes} :
    internalKeyCompare a b = .lt ↔ keyRank a < keyRank b := by
  rw [keyRank_lt_iff, internalKeyCompare]
  cases hc : sliceCompare (extractUserKey a) (extractUserKey b) with
  | lt =>
    have hlt := sliceCompare_lt_iff.mp hc
    simp [hlt]
  | eq =>
    have heq := sliceCompare_eq_iff.mp hc
    simp only [heq, lt_irrefl, true_and, false_or]
    split
    · simpa
    · split <;> simp_all
  | gt =>
    have hgt := sliceCompare_gt_iff.mp hc
    simp [not_lt_of_gt hgt, ne_of_gt hgt]

theorem parseInternalKey_eq_some {key : Bytes} {p : ParsedInternalKey}
    (h : parseInternalKey key = some p) :
    p.userKey = extractUserKey key ∧ p.sequence = trailer key / 256 := by
  unfold parseInternalKey at h
  split at h
  · simp at h
  · split at h
    · rw [← Option.some.inj h]
      exact ⟨rfl, rfl⟩
    · rw [← Option.some.inj h]
      exact ⟨rfl, rfl⟩
    · simp at h

/-- Splitting an internal key of at least eight bytes into its two parts. -/
theorem extractUserKey_append_trailer (key : Bytes) :
    key = extractUserKey key ++ key.drop (key.length - 8) := by
  rw [extractUserKey, List.take_append_drop]

theorem extractUserKey_appendInternalKey (p : ParsedInternalKey) :
    extractUserKey (appendInternalKey p) = p.userKey := by
  simp [extractUserKey, appendInternalKey]

theorem keyRank_injective {a b : Bytes} (ha : 8 ≤ a.length) (hb : 8 ≤ b.length)
    (h : keyRank a = keyRank b) : a = b := by
  have hpair := congrArg ofLex h
  simp only [keyRank, ofLex_toLex, Prod.mk.injEq, OrderDual.toDual_inj] at hpair
  obtain ⟨huser, htrail⟩ := hpair
  have hdrop : a.drop (a.length - 8) = b.drop (b.length - 8) := by
    apply leNat_injective _ htrail
    simp only [List.length_drop]
    omega
  rw [extractUserKey_append_trailer a, extractUserKey_append_trailer b, huser, hdrop]

/-! ## Ranks of keys -/

theorem userKey_le_of_keyRank_le {a b : Bytes} (h : keyRank a ≤ keyRank b) :
    extractUserKey a ≤ extractUserKey b := by
  rw [← not_lt] at h ⊢
  intro hlt
  exact h (keyRank_lt_iff.mpr (Or.inl hlt))

theorem keyRank_lt_of_userKey_lt {a b : Bytes} (h : extractUserKey a < extractUserKey b) :
    keyRank a < keyRank b := keyRank_lt_iff.mpr (Or.inl h)

theorem internalKeyCompare_ne_lt_iff {a b : Bytes} :
    internalKeyCompare a b ≠ .lt ↔ keyRank b ≤ keyRank a := by
  rw [Ne, internalKeyCompare_lt_iff, not_lt]

theorem internalKeyCompare_gt_iff {a b : Bytes} :
    internalKeyCompare a b = .gt ↔ keyRank b < keyRank a := by
  rw [keyRank_lt_iff, internalKeyCompare]
  cases hc : sliceCompare (extractUserKey a) (extractUserKey b) with
  | lt =>
    have hlt := sliceCompare_lt_iff.mp hc
    simp [not_lt_of_gt hlt, ne_of_gt hlt]
  | eq =>
    have heq := sliceCompare_eq_iff.mp hc
    simp only [heq, lt_irrefl, true_and, false_or]
    split
    · rename_i hgt
      simp [not_lt_of_gt hgt]
    · split <;> simp_all
  | gt =>
    have hgt := sliceCompare_gt_iff.mp hc
    simp [hgt]

theorem trailer_appendInternalKey (p : ParsedInternalKey) :
    trailer (appendInternalKey p) = packSequenceAndType p.sequence p.type % 256 ^ 8 := by
  have hlen : (appendInternalKey p).length - 8 = p.userKey.length := by
    simp [appendInternalKey, leBytes_length]
  rw [trailer, hlen, appendInternalKey, List.drop_left, leNat_leBytes]

/-- No entry has a larger trailer than the key a search starts from. -/
theorem trailer_le_seek (p : ParsedInternalKey) (userKey : Bytes) :
    trailer (appendInternalKey p) ≤
      trailer (appendInternalKey ⟨userKey, kMaxSequenceNumber, .kTypeValue⟩) := by
  rw [trailer_appendInternalKey, trailer_appendInternalKey]
  cases p.type with
  | kTypeDeletion =>
    simp only [packSequenceAndType, ValueType.code, kMaxSequenceNumber]
    omega
  | kTypeValue =>
    simp only [packSequenceAndType, ValueType.code, kMaxSequenceNumber]
    omega

/-- The key a search for a user key starts from comes before all its entries. -/
theorem keyRank_seek_le (p : ParsedInternalKey) :
    keyRank (appendInternalKey ⟨p.userKey, kMaxSequenceNumber, .kTypeValue⟩) ≤
      keyRank (appendInternalKey p) := by
  rw [← not_lt, keyRank_lt_iff, extractUserKey_appendInternalKey,
    extractUserKey_appendInternalKey]
  rintro (hlt | ⟨-, hlt⟩)
  · exact lt_irrefl _ hlt
  · exact not_lt_of_ge (trailer_le_seek p p.userKey) hlt

/-! ## Well-formed keys -/

/-- The sequence number in an internal key. -/
def keySequence (key : Bytes) : Nat := trailer key / 256

/-- Keys as memtables make them. -/
def WellFormed (key : Bytes) : Prop :=
  ∃ p : ParsedInternalKey, p.sequence ≤ kMaxSequenceNumber ∧ key = appendInternalKey p

theorem ValueType.code_lt (t : ValueType) : t.code < 2 := by
  cases t <;> decide

/-- A sequence number of 56 bits leaves room for the type. -/
theorem trailer_eq_pack {p : ParsedInternalKey} (h : p.sequence ≤ kMaxSequenceNumber) :
    trailer (appendInternalKey p) = packSequenceAndType p.sequence p.type := by
  have hcode := p.type.code_lt
  rw [trailer_appendInternalKey, Nat.mod_eq_of_lt]
  unfold packSequenceAndType
  unfold kMaxSequenceNumber at h
  omega

theorem keySequence_appendInternalKey {p : ParsedInternalKey}
    (h : p.sequence ≤ kMaxSequenceNumber) : keySequence (appendInternalKey p) = p.sequence := by
  have hcode := p.type.code_lt
  rw [keySequence, trailer_eq_pack h, packSequenceAndType]
  omega

theorem parseInternalKey_appendInternalKey {p : ParsedInternalKey}
    (h : p.sequence ≤ kMaxSequenceNumber) : parseInternalKey (appendInternalKey p) = some p := by
  have hcode := p.type.code_lt
  have htype : packSequenceAndType p.sequence p.type % 256 = p.type.code := by
    unfold packSequenceAndType
    omega
  have hseq : packSequenceAndType p.sequence p.type / 256 = p.sequence := by
    unfold packSequenceAndType
    omega
  have hlen : ¬ (appendInternalKey p).length < 8 := by
    simp [appendInternalKey, leBytes_length]
  rw [parseInternalKey, if_neg hlen, trailer_eq_pack h, htype, hseq,
    extractUserKey_appendInternalKey]
  obtain ⟨userKey, sequence, type⟩ := p
  cases type <;> rfl

theorem WellFormed.length {key : Bytes} (h : WellFormed key) : 8 ≤ key.length := by
  obtain ⟨p, -, rfl⟩ := h
  simp [appendInternalKey, leBytes_length]

theorem parseInternalKey_trailer {key : Bytes} {p : ParsedInternalKey}
    (h : parseInternalKey key = some p) :
    8 ≤ key.length ∧ trailer key = packSequenceAndType p.sequence p.type := by
  unfold parseInternalKey at h
  split at h
  · cases h
  · refine ⟨by omega, ?_⟩
    split at h
    · obtain rfl := Option.some.inj h
      simp only [packSequenceAndType, ValueType.code]
      omega
    · obtain rfl := Option.some.inj h
      simp only [packSequenceAndType, ValueType.code]
      omega
    · cases h

/-- Well-formed are the keys that `ParseInternalKey` accepts. -/
theorem wellFormed_iff {key : Bytes} : WellFormed key ↔ (parseInternalKey key).isSome = true := by
  constructor
  · rintro ⟨p, hp, rfl⟩
    rw [parseInternalKey_appendInternalKey hp]
    rfl
  · intro h
    obtain ⟨p, hp⟩ := Option.isSome_iff_exists.mp h
    obtain ⟨hlen, htrailer⟩ := parseInternalKey_trailer hp
    have hbound : trailer key < 256 ^ 8 := by
      have hlast : (key.drop (key.length - 8)).length = 8 := by
        rw [List.length_drop]
        omega
      have hlt := leNat_lt (key.drop (key.length - 8))
      rwa [hlast] at hlt
    refine ⟨p, ?_, ?_⟩
    · rw [htrailer, packSequenceAndType] at hbound
      unfold kMaxSequenceNumber
      omega
    · apply keyRank_injective hlen (by simp [appendInternalKey, leBytes_length])
      rw [keyRank, keyRank, extractUserKey_appendInternalKey, trailer_appendInternalKey, ← htrailer,
        Nat.mod_eq_of_lt hbound, (parseInternalKey_eq_some hp).1]

instance (key : Bytes) : Decidable (WellFormed key) := decidable_of_iff _ wellFormed_iff.symm

/-- A search for its user key starts at or before a well-formed key. -/
theorem WellFormed.seek_le {key : Bytes} (h : WellFormed key) :
    keyRank (appendInternalKey ⟨extractUserKey key, kMaxSequenceNumber, .kTypeValue⟩) ≤
      keyRank key := by
  obtain ⟨p, -, rfl⟩ := h
  rw [extractUserKey_appendInternalKey]
  exact keyRank_seek_le p

end Lpad
