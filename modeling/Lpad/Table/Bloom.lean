import Lpad.Base.BitArray
import Lpad.Format.Coding
import Lpad.Format.InternalKey

/-!
# Filter policies

`filter_policy.h`, `bloom.cpp` with `hash.cpp`, and `InternalFilterPolicy` of `dbformat.cpp`. A
policy may not match less than the keys that its filter was made of (`NoFalseNegatives`).
-/

namespace Lpad.Table

/-- The methods of `FilterPolicy` but `Name`. `createFilter` is what `CreateFilter` appends for
`keys[0,n-1]`; `none` says that an assertion failed. -/
structure FilterPolicy where
  createFilter : List Bytes → Option Bytes
  keyMayMatch : (key filter : Bytes) → Option Bool

namespace FilterPolicy

/-- What `filter_policy.h` asks of a policy: a filter of some keys matches them. The number of
keys is an `int`. -/
def NoFalseNegatives (p : FilterPolicy) : Prop :=
  ∀ keys : List Bytes, keys.length < 2 ^ 31 →
    ∃ filter, p.createFilter keys = some filter ∧
      ∀ key ∈ keys, p.keyMayMatch key filter = some true

end FilterPolicy

/-! ## Hashing -/

/-- `h += w; h *= m; h ^= (h >> r)` -/
def hashMix (h w r : UInt32) : UInt32 :=
  let h := (h + w) * 0xc6a4a793
  h ^^^ (h >>> r)

/-- The loop of `Hash`, four bytes at a time, and the bytes that remain. -/
def hashLoop : Bytes → UInt32 → UInt32
  | b₀ :: b₁ :: b₂ :: b₃ :: data, h =>
    hashLoop data (hashMix h (UInt32.ofNat (decodeFixed32 [b₀, b₁, b₂, b₃])) 16)
  | [b₀, b₁, b₂], h => hashMix (h + (b₂.toUInt32 <<< 16) + (b₁.toUInt32 <<< 8)) b₀.toUInt32 24
  | [b₀, b₁], h => hashMix (h + (b₁.toUInt32 <<< 8)) b₀.toUInt32 24
  | [b₀], h => hashMix h b₀.toUInt32 24
  | [], h => h

/-- `Hash` -/
def hash (data : Bytes) (seed : UInt32) : UInt32 :=
  hashLoop data (seed ^^^ UInt32.ofNat (data.length * 0xc6a4a793))

/-! ## Bloom filters -/

def bloomHash (key : Bytes) : UInt32 := hash key 0xbc9f1d34

/-- Rotate right 17 bits. -/
def bloomDelta (h : UInt32) : UInt32 := (h >>> 17) ||| (h <<< 15)

/-- The members of `BloomFilterPolicy`. -/
structure BloomFilterPolicy where
  bitsPerKey : Nat
  k : Nat

namespace BloomFilterPolicy

/-- The constructor. `bits_per_key * 0.69`, as a double, is cut at 30 before its rounding errors
could reach a whole number. -/
def new (bitsPerKey : Nat) : BloomFilterPolicy :=
  let k := bitsPerKey * 69 / 100
  let k := if k < 1 then 1 else k
  ⟨bitsPerKey, if k > 30 then 30 else k⟩

/-- The inner loop of `CreateFilter`. -/
def addProbes (bits : Nat) (delta : UInt32) : (k : Nat) → UInt32 → Bytes → Bytes
  | 0, _, array => array
  | k + 1, h, array => addProbes bits delta k (h + delta) (BitArray.set array (h.toNat % bits))

def addKey (k bits : Nat) (array key : Bytes) : Bytes :=
  addProbes bits (bloomDelta (bloomHash key)) k (bloomHash key) array

/-- The size of the array in bytes. The product of two `int`s fits a `size_t`. -/
def filterBytes (p : BloomFilterPolicy) (n : Nat) : Nat :=
  let bits := n * p.bitsPerKey
  let bits := if bits < 64 then 64 else bits
  (bits + 7) / 8

def createFilter (p : BloomFilterPolicy) (keys : List Bytes) : Bytes :=
  let bytes := p.filterBytes keys.length
  keys.foldl (addKey p.k (bytes * 8)) (List.replicate bytes 0) ++ [UInt8.ofNat p.k]

/-- The loop of `KeyMayMatch`. -/
def testProbes (array : Bytes) (bits : Nat) (delta : UInt32) : (k : Nat) → UInt32 → Bool
  | 0, _ => true
  | k + 1, h =>
    if BitArray.test array (h.toNat % bits) = false then false
    else testProbes array bits delta k (h + delta)

def keyMayMatch (key bloomFilter : Bytes) : Bool :=
  let len := bloomFilter.length
  if len < 2 then false
  else
    let bits := (len - 1) * 8
    let k := (bloomFilter.getD (len - 1) 0).toNat
    -- as a `char` above 127 it is a large `size_t`
    if k > 30 then true
    else testProbes bloomFilter bits (bloomDelta (bloomHash key)) k (bloomHash key)

def policy (p : BloomFilterPolicy) : FilterPolicy where
  createFilter keys := some (p.createFilter keys)
  keyMayMatch key filter := some (keyMayMatch key filter)

end BloomFilterPolicy

/-- `InternalFilterPolicy`. `ExtractUserKey` asserts that there is a trailer. -/
def internalFilterPolicy (userPolicy : FilterPolicy) : FilterPolicy where
  createFilter keys :=
    if keys.all fun key => 8 ≤ key.length then userPolicy.createFilter (keys.map extractUserKey)
    else none
  keyMayMatch key filter :=
    if 8 ≤ key.length then userPolicy.keyMayMatch (extractUserKey key) filter else none

/-! ## No false negatives -/

namespace BloomFilterPolicy

theorem k_le (bitsPerKey : Nat) : (new bitsPerKey).k ≤ 30 := by
  unfold new
  dsimp only
  split_ifs <;> omega

variable {array : Bytes} {bits : Nat} {delta : UInt32}

theorem length_addProbes (k : Nat) (h : UInt32) (array : Bytes) :
    (addProbes bits delta k h array).length = array.length := by
  induction k generalizing h array with
  | zero => rfl
  | succ k ih => rw [addProbes, ih, BitArray.length_set]

theorem test_addProbes {i : Nat} (k : Nat) (h : UInt32) (htest : BitArray.test array i = true) :
    BitArray.test (addProbes bits delta k h array) i = true := by
  induction k generalizing h array with
  | zero => exact htest
  | succ k ih => exact ih _ (BitArray.test_set htest _)

/-- More bits do not hurt. -/
theorem testProbes_mono {array' : Bytes}
    (hmono : ∀ i, BitArray.test array i = true → BitArray.test array' i = true) {k : Nat}
    {h : UInt32} (htest : testProbes array bits delta k h = true) :
    testProbes array' bits delta k h = true := by
  induction k generalizing h with
  | zero => rfl
  | succ k ih =>
    rw [testProbes] at htest ⊢
    split at htest
    case isTrue => cases htest
    case isFalse hset =>
      rw [hmono _ (Bool.not_eq_false _ ▸ hset), if_neg Bool.noConfusion]
      exact ih htest

/-- The bits that one key sets. -/
theorem testProbes_addProbes (hbits : 0 < bits) (harray : bits ≤ array.length * 8) (k : Nat)
    (h : UInt32) : testProbes (addProbes bits delta k h array) bits delta k h = true := by
  induction k generalizing h array with
  | zero => rfl
  | succ k ih =>
    have hset : BitArray.test (addProbes bits delta (k + 1) h array) (h.toNat % bits) = true := by
      rw [addProbes]
      apply test_addProbes
      apply BitArray.test_set_self
      have hpos := Nat.mod_lt h.toNat hbits
      exact Nat.div_lt_of_lt_mul (Nat.mul_comm _ 8 ▸ hpos.trans_le harray)
    rw [testProbes, hset, if_neg Bool.noConfusion, addProbes]
    apply ih
    rw [BitArray.length_set]
    exact harray

/-- The loop over the keys: every key has its bits set. -/
theorem testProbes_foldl (k : Nat) (keys : List Bytes) (hbits : 0 < bits)
    (harray : bits ≤ array.length * 8) :
    (keys.foldl (addKey k bits) array).length = array.length ∧
      (∀ i, BitArray.test array i = true →
        BitArray.test (keys.foldl (addKey k bits) array) i = true) ∧
      ∀ key ∈ keys, testProbes (keys.foldl (addKey k bits) array) bits
        (bloomDelta (bloomHash key)) k (bloomHash key) = true := by
  induction keys generalizing array with
  | nil => exact ⟨rfl, fun _ h => h, nofun⟩
  | cons key keys ih =>
    have hlength : (addKey k bits array key).length = array.length := length_addProbes k _ array
    obtain ⟨hlen, hmono, hkeys⟩ := ih (hlength ▸ harray)
    refine ⟨hlen.trans hlength, ?_, ?_⟩
    · intro i htest
      exact hmono i (test_addProbes k _ htest)
    · intro key' hkey'
      rcases List.mem_cons.mp hkey' with rfl | hmem
      · exact testProbes_mono hmono (testProbes_addProbes hbits harray k _)
      · exact hkeys key' hmem

theorem eight_le_filterBytes (p : BloomFilterPolicy) (n : Nat) : 8 ≤ p.filterBytes n := by
  unfold filterBytes
  dsimp only
  split <;> omega

/-- **A Bloom filter** matches its keys. -/
theorem keyMayMatch_createFilter {p : BloomFilterPolicy} (hk : p.k ≤ 30) {keys : List Bytes}
    {key : Bytes} (hkey : key ∈ keys) : keyMayMatch key (p.createFilter keys) = true := by
  have hbytes := eight_le_filterBytes p keys.length
  unfold createFilter
  dsimp only
  generalize p.filterBytes keys.length = bytes at hbytes
  have hzeros : (List.replicate bytes (0 : UInt8)).length = bytes := List.length_replicate
  obtain ⟨hlength, -, hkeys⟩ := testProbes_foldl p.k keys (show 0 < bytes * 8 by omega)
    (show bytes * 8 ≤ (List.replicate bytes (0 : UInt8)).length * 8 by rw [hzeros])
  generalize keys.foldl (addKey p.k (bytes * 8)) (List.replicate bytes 0) = array at hlength hkeys
  rw [hzeros] at hlength
  have hlen : (array ++ [UInt8.ofNat p.k]).length - 1 = array.length := by
    rw [List.length_append, List.length_singleton, Nat.add_sub_cancel]
  have hlast : (array ++ [UInt8.ofNat p.k]).getD array.length 0 = UInt8.ofNat p.k := by
    rw [List.getD_eq_getElem?_getD, List.getElem?_append_right le_rfl, Nat.sub_self]
    rfl
  have hbyte : (UInt8.ofNat p.k).toNat = p.k := by
    rw [UInt8.toNat_ofNat']
    omega
  unfold keyMayMatch
  dsimp only
  rw [hlen, hlast, hbyte, if_neg (by rw [List.length_append, List.length_singleton]; omega),
    if_neg (not_lt.mpr hk), hlength]
  exact testProbes_mono (fun i htest => BitArray.test_append htest _) (hkeys key hkey)

theorem noFalseNegatives (bitsPerKey : Nat) : (new bitsPerKey).policy.NoFalseNegatives := by
  intro keys _
  refine ⟨_, rfl, ?_⟩
  intro key hkey
  exact congrArg some (keyMayMatch_createFilter (k_le bitsPerKey) hkey)

end BloomFilterPolicy

/-- Through `InternalFilterPolicy` a filter matches every key with the user key of one of its
keys. -/
theorem internalFilterPolicy_matches {userPolicy : FilterPolicy}
    (hpolicy : userPolicy.NoFalseNegatives) {keys : List Bytes} (hlength : keys.length < 2 ^ 31)
    (hkeys : ∀ key ∈ keys, 8 ≤ key.length) :
    ∃ filter, (internalFilterPolicy userPolicy).createFilter keys = some filter ∧
      ∀ key ∈ keys, ∀ key', 8 ≤ key'.length → extractUserKey key' = extractUserKey key →
        (internalFilterPolicy userPolicy).keyMayMatch key' filter = some true := by
  obtain ⟨filter, hcreate, hmatch⟩ := hpolicy (keys.map extractUserKey)
    (by rw [List.length_map]; exact hlength)
  refine ⟨filter, ?_, ?_⟩
  · have hall : (keys.all fun key => decide (8 ≤ key.length)) = true := by
      rw [List.all_eq_true]
      exact fun key hkey => decide_eq_true (hkeys key hkey)
    exact (if_pos hall).trans hcreate
  · intro key hkey key' hlong huser
    refine (if_pos hlong).trans ?_
    rw [huser]
    exact hmatch _ (List.mem_map_of_mem hkey)

end Lpad.Table
