import Lpad.Base.Bytes
import Lpad.Base.Segments
import Mathlib.Tactic.Ring

/-!
# Fixed-width numbers, varints and length-prefixed slices

`util/coding.cpp`. A varint is written seven bits to a byte, lowest first, with
the top bit set on every byte but the last. The encoder is the code's five-way
case split; `varintBytes` is the loop it unrolls, and the decoder is shown to
undo it.
-/

namespace Lpad

def encodeFixed32 (value : Nat) : Bytes := leBytes 4 value

def encodeFixed64 (value : Nat) : Bytes := leBytes 8 value

/-- `DecodeFixed32`, of the first four bytes. -/
def decodeFixed32 (bs : Bytes) : Nat := leNat (bs.take 4)

/-- `DecodeFixed64`, of the first eight bytes. -/
def decodeFixed64 (bs : Bytes) : Nat := leNat (bs.take 8)

/-- `EncodeVarint32` -/
def encodeVarint32 (v : Nat) : Bytes :=
  if v < 2 ^ 7 then [UInt8.ofNat v]
  else if v < 2 ^ 14 then [UInt8.ofNat (v ||| 128), UInt8.ofNat (v >>> 7)]
  else if v < 2 ^ 21 then
    [UInt8.ofNat (v ||| 128), UInt8.ofNat (v >>> 7 ||| 128), UInt8.ofNat (v >>> 14)]
  else if v < 2 ^ 28 then
    [UInt8.ofNat (v ||| 128), UInt8.ofNat (v >>> 7 ||| 128), UInt8.ofNat (v >>> 14 ||| 128),
      UInt8.ofNat (v >>> 21)]
  else
    [UInt8.ofNat (v ||| 128), UInt8.ofNat (v >>> 7 ||| 128), UInt8.ofNat (v >>> 14 ||| 128),
      UInt8.ofNat (v >>> 21 ||| 128), UInt8.ofNat (v >>> 28)]

/-- The loop of `GetVarint32PtrFallback`, at most `rounds` more bytes: the number
read and the bytes after it. -/
def varint32Loop : (rounds shift result : Nat) → Bytes → Option (Nat × Bytes)
  | 0, _, _, _ => none
  | _ + 1, _, _, [] => none
  | rounds + 1, shift, result, byte :: rest =>
    if byte.toNat &&& 128 ≠ 0 then
      varint32Loop rounds (shift + 7) (result ||| uint32 ((byte.toNat &&& 127) <<< shift)) rest
    else some (result ||| uint32 (byte.toNat <<< shift), rest)

/-- `GetVarint32`: one byte is read in place, the rest is left to the loop. -/
def getVarint32 : Bytes → Option (Nat × Bytes)
  | [] => varint32Loop 5 0 0 []
  | byte :: rest =>
    if byte.toNat &&& 128 = 0 then some (byte.toNat, rest)
    else varint32Loop 5 0 0 (byte :: rest)

/-- The loop of `EncodeVarint64`, at most `rounds + 1` bytes. -/
def varint64Bytes : (rounds v : Nat) → Bytes
  | 0, v => [UInt8.ofNat v]
  | rounds + 1, v =>
    if v ≥ 128 then UInt8.ofNat ((v &&& 127) ||| 128) :: varint64Bytes rounds (v >>> 7)
    else [UInt8.ofNat v]

/-- `EncodeVarint64`; ten bytes hold 64 bits. -/
def encodeVarint64 (v : Nat) : Bytes := varint64Bytes 9 v

/-- The loop of `GetVarint64Ptr`, at most `rounds` more bytes. -/
def varint64Loop : (rounds shift result : Nat) → Bytes → Option (Nat × Bytes)
  | 0, _, _, _ => none
  | _ + 1, _, _, [] => none
  | rounds + 1, shift, result, byte :: rest =>
    if byte.toNat &&& 128 ≠ 0 then
      varint64Loop rounds (shift + 7) (result ||| uint64 ((byte.toNat &&& 127) <<< shift)) rest
    else some (result ||| uint64 (byte.toNat <<< shift), rest)

/-- `GetVarint64` -/
def getVarint64 (input : Bytes) : Option (Nat × Bytes) := varint64Loop 10 0 0 input

/-- `PutLengthPrefixedSlice`; the size is converted to 32 bits. -/
def putLengthPrefixedSlice (value : Bytes) : Bytes :=
  encodeVarint32 (uint32 value.length) ++ value

/-- `GetLengthPrefixedSlice`: the slice and the input after it. -/
def getLengthPrefixedSlice (input : Bytes) : Option (Bytes × Bytes) :=
  match getVarint32 input with
  | none => none
  | some (len, rest) => if len ≤ rest.length then some (rest.take len, rest.drop len) else none

/-! ## Round trips -/

theorem decodeFixed32_encode {v : Nat} (h : v < 2 ^ 32) (rest : Bytes) :
    decodeFixed32 (encodeFixed32 v ++ rest) = v := by
  rw [decodeFixed32, encodeFixed32, List.take_left' (leBytes_length 4 v), leNat_leBytes]
  exact Nat.mod_eq_of_lt h

theorem decodeFixed32_lt (bs : Bytes) : decodeFixed32 bs < 2 ^ 32 :=
  (leNat_lt _).trans_le (Nat.pow_le_pow_right (by decide : 0 < 256) (List.length_take_le 4 bs))

/-! ### Arrays of fixed-width numbers -/

theorem length_of_mem_encodeFixed32 {words : List Nat} :
    ∀ s ∈ words.map encodeFixed32, s.length = 4 := by
  intro s hs
  obtain ⟨w, -, rfl⟩ := List.mem_map.mp hs
  exact leBytes_length 4 w

theorem length_flatMap_encodeFixed32 (words : List Nat) :
    (words.flatMap encodeFixed32).length = words.length * 4 := by
  rw [List.flatMap_def, ← segmentOffset_length,
    segmentOffset_of_length length_of_mem_encodeFixed32 le_rfl, List.length_map]

/-- A word of an array that starts at an offset. -/
theorem decodeFixed32_array {data tail : Bytes} {offset : Nat} {words : List Nat}
    (hdata : data.drop offset = words.flatMap encodeFixed32 ++ tail) {j w : Nat}
    (hj : words[j]? = some w) (hw : w < 2 ^ 32) :
    decodeFixed32 (data.drop (offset + j * 4)) = w := by
  have hsegment : (words.map encodeFixed32)[j]? = some (encodeFixed32 w) := by
    rw [List.getElem?_map, hj, Option.map_some]
  have hle := (List.getElem?_eq_some_iff.mp hsegment).1.le
  have hoffset := segmentOffset_of_length length_of_mem_encodeFixed32 hle
  have hdrop := drop_segmentOffset hsegment
  rw [hoffset] at hdrop
  have hin : j * 4 ≤ (words.map encodeFixed32).flatten.length := by
    rw [← hoffset, ← segmentOffset_length]
    exact segmentOffset_le hle
  rw [← List.drop_drop, hdata, List.flatMap_def, List.drop_append_of_le_length hin, hdrop,
    List.append_assoc, decodeFixed32_encode hw]

theorem decodeFixed64_encode {v : Nat} (h : v < 2 ^ 64) (rest : Bytes) :
    decodeFixed64 (encodeFixed64 v ++ rest) = v := by
  rw [decodeFixed64, encodeFixed64, List.take_left' (leBytes_length 8 v), leNat_leBytes]
  exact Nat.mod_eq_of_lt h

/-- The encoding as a loop of at most `rounds + 1` bytes. -/
def varintBytes : (rounds v : Nat) → Bytes
  | 0, v => [UInt8.ofNat v]
  | rounds + 1, v =>
    if v < 2 ^ 7 then [UInt8.ofNat v]
    else UInt8.ofNat (v ||| 128) :: varintBytes rounds (v >>> 7)

theorem encodeVarint32_eq (v : Nat) : encodeVarint32 v = varintBytes 4 v := by
  have hlt : ∀ i j, (v >>> i < 2 ^ j ↔ v < 2 ^ (i + j)) := by
    intro i j
    rw [Nat.shiftRight_eq_div_pow, Nat.div_lt_iff_lt_mul (Nat.two_pow_pos i), ← Nat.pow_add,
      Nat.add_comm]
  simp only [encodeVarint32, varintBytes, ← Nat.shiftRight_add, hlt]
  split_ifs <;> rfl

theorem toNat_continued (v : Nat) : (UInt8.ofNat (v ||| 128)).toNat = v % 128 + 128 := by
  have hbyte : ∀ x : Fin 256, x.val ||| 128 = x.val % 128 + 128 := by
    decide +kernel
  have hmod : (v ||| 128) % 2 ^ 8 = v % 2 ^ 8 ||| 128 % 2 ^ 8 := Nat.or_mod_two_pow
  have hx := hbyte ⟨v % 256, Nat.mod_lt _ (by decide)⟩
  rw [UInt8.toNat_ofNat', hmod]
  refine hx.trans ?_
  rw [Nat.mod_mod_of_dvd v (by decide)]

/-- The top bit of a byte, the one that says whether the number goes on. -/
theorem and_128_eq_zero_iff {x : Nat} (h : x < 256) : x &&& 128 = 0 ↔ x < 128 := by
  have hbyte : ∀ x : Fin 256, x.val &&& 128 = 0 ↔ x.val < 128 := by decide +kernel
  exact hbyte ⟨x, h⟩

/-- Both decoding loops, in words of `bits` bits. -/
def varintLoop (bits : Nat) : (rounds shift result : Nat) → Bytes → Option (Nat × Bytes)
  | 0, _, _, _ => none
  | _ + 1, _, _, [] => none
  | rounds + 1, shift, result, byte :: rest =>
    if byte.toNat &&& 128 ≠ 0 then
      varintLoop bits rounds (shift + 7)
        (result ||| ((byte.toNat &&& 127) <<< shift) % 2 ^ bits) rest
    else some (result ||| (byte.toNat <<< shift) % 2 ^ bits, rest)

theorem varint32Loop_eq (rounds shift result : Nat) (bs : Bytes) :
    varint32Loop rounds shift result bs = varintLoop 32 rounds shift result bs := by
  induction rounds generalizing shift result bs with
  | zero => rfl
  | succ rounds ih =>
    cases bs with
    | nil => rfl
    | cons byte rest =>
      rw [varint32Loop, varintLoop, ih]
      rfl

theorem varint64Loop_eq (rounds shift result : Nat) (bs : Bytes) :
    varint64Loop rounds shift result bs = varintLoop 64 rounds shift result bs := by
  induction rounds generalizing shift result bs with
  | zero => rfl
  | succ rounds ih =>
    cases bs with
    | nil => rfl
    | cons byte rest =>
      rw [varint64Loop, varintLoop, ih]
      rfl

/-- Adding seven more bits above the ones read so far. -/
theorem or_shiftLeft {bits shift result x : Nat} (hresult : result < 2 ^ shift)
    (hx : x * 2 ^ shift < 2 ^ bits) :
    result ||| (x <<< shift) % 2 ^ bits = result + x * 2 ^ shift := by
  rw [Nat.shiftLeft_eq, Nat.mod_eq_of_lt hx, Nat.or_comm, Nat.mul_comm,
    ← Nat.two_pow_add_eq_or_of_lt hresult, Nat.add_comm]

/-- **The loop reads back what was written.** `result` holds the low `shift` bits,
the bytes hold the bits above. -/
theorem varintLoop_varintBytes (bits : Nat) (rest : Bytes) : ∀ (rounds shift result v : Nat),
    result < 2 ^ shift → v * 2 ^ shift < 2 ^ bits → v < 2 ^ (7 * (rounds + 1)) →
    varintLoop bits (rounds + 1) shift result (varintBytes rounds v ++ rest) =
      some (result + v * 2 ^ shift, rest)
  | rounds, shift, result, v, hresult, hfit, hv => by
    by_cases hlast : v < 2 ^ 7
    · have hbytes : varintBytes rounds v = [UInt8.ofNat v] := by
        cases rounds with
        | zero => rfl
        | succ rounds => rw [varintBytes, if_pos hlast]
      have hnat : (UInt8.ofNat v).toNat = v := by
        rw [UInt8.toNat_ofNat']
        omega
      have htop : v &&& 128 = 0 := (and_128_eq_zero_iff (by omega)).mpr hlast
      rw [hbytes, List.singleton_append, varintLoop, hnat, htop]
      simp [or_shiftLeft hresult hfit]
    · cases rounds with
      | zero => exact absurd hv hlast
      | succ rounds =>
        have htop : v % 128 + 128 &&& 128 ≠ 0 := by
          rw [Ne, and_128_eq_zero_iff (by omega)]
          omega
        have hlow : v % 128 + 128 &&& 127 = v % 128 := by
          refine (Nat.and_two_pow_sub_one_eq_mod (v % 128 + 128) 7).trans ?_
          omega
        have hdecomp : v % 128 * 2 ^ shift + v / 2 ^ 7 * 2 ^ (shift + 7) = v * 2 ^ shift :=
          calc v % 128 * 2 ^ shift + v / 128 * 2 ^ (shift + 7)
              = (v % 128 + 128 * (v / 128)) * 2 ^ shift := by ring
            _ = v * 2 ^ shift := by rw [Nat.mod_add_div v 128]
        have hlowfit : v % 128 * 2 ^ shift < 2 ^ bits := by omega
        have hhighfit : v / 2 ^ 7 * 2 ^ (shift + 7) < 2 ^ bits :=
          Nat.lt_of_le_of_lt (Nat.le_add_left _ _) (hdecomp.trans_lt hfit)
        have hlowlt : result + v % 128 * 2 ^ shift < 2 ^ (shift + 7) := by
          have : v % 128 * 2 ^ shift ≤ 127 * 2 ^ shift :=
            Nat.mul_le_mul_right _ (by omega)
          have : 2 ^ (shift + 7) = 2 ^ shift * 128 := Nat.pow_add ..
          omega
        rw [varintBytes, if_neg hlast, List.cons_append, varintLoop, toNat_continued,
          if_pos htop, hlow, or_shiftLeft hresult hlowfit, Nat.shiftRight_eq_div_pow,
          varintLoop_varintBytes bits rest rounds _ _ _ hlowlt hhighfit ?_, Nat.add_assoc,
          hdecomp]
        rw [Nat.div_lt_iff_lt_mul (by decide), ← Nat.pow_add]
        exact hv

theorem getVarint32_encode {v : Nat} (h : v < 2 ^ 32) (rest : Bytes) :
    getVarint32 (encodeVarint32 v ++ rest) = some (v, rest) := by
  have hloop := varintLoop_varintBytes 32 rest 4 0 0 v (by decide) (by omega) (by omega)
  rw [← encodeVarint32_eq, ← varint32Loop_eq] at hloop
  cases hbytes : encodeVarint32 v ++ rest with
  | nil =>
    rw [hbytes] at hloop
    simp [varint32Loop] at hloop
  | cons byte tail =>
    rw [hbytes] at hloop
    have hbyte : byte.toNat < 2 ^ 32 := byte.toNat_lt.trans (by decide)
    by_cases htop : byte.toNat &&& 128 = 0
    · simp only [varint32Loop, htop] at hloop
      simp only [getVarint32, htop]
      simpa [uint32_of_lt hbyte] using hloop
    · rw [getVarint32, if_neg htop, hloop]
      simp

theorem encodeVarint64_eq (v : Nat) : encodeVarint64 v = varintBytes 9 v := by
  have hloop : ∀ rounds v, varint64Bytes rounds v = varintBytes rounds v := by
    intro rounds
    induction rounds with
    | zero => exact fun _ => rfl
    | succ rounds ih =>
      intro v
      have hbyte : UInt8.ofNat ((v &&& 127) ||| 128) = UInt8.ofNat (v ||| 128) := by
        have hmod : v &&& 127 = v % 2 ^ 7 := Nat.and_two_pow_sub_one_eq_mod v 7
        apply UInt8.toNat_inj.mp
        rw [toNat_continued, toNat_continued, hmod]
        omega
      rw [varint64Bytes, varintBytes, ih, hbyte]
      by_cases hv : v < 2 ^ 7
      · rw [if_pos hv, if_neg (by omega)]
      · rw [if_neg hv, if_pos (by omega)]
  exact hloop 9 v

theorem getVarint64_encode {v : Nat} (h : v < 2 ^ 64) (rest : Bytes) :
    getVarint64 (encodeVarint64 v ++ rest) = some (v, rest) := by
  have hloop := varintLoop_varintBytes 64 rest 9 0 0 v (by decide) (by omega) (by omega)
  rw [getVarint64, varint64Loop_eq, encodeVarint64_eq, hloop]
  simp

/-- **A slice is read back**, and the input goes on after it. -/
theorem getLengthPrefixedSlice_put {value : Bytes} (h : value.length < 2 ^ 32) (rest : Bytes) :
    getLengthPrefixedSlice (putLengthPrefixedSlice value ++ rest) = some (value, rest) := by
  unfold getLengthPrefixedSlice putLengthPrefixedSlice
  rw [uint32_of_lt h, List.append_assoc, getVarint32_encode h]
  simp

/-! ## What is read -/

/-- A varint takes at least one byte from the front. -/
theorem varintLoop_suffix {bits rounds shift result v : Nat} {input rest : Bytes}
    (h : varintLoop bits rounds shift result input = some (v, rest)) :
    ∃ used, used ≠ [] ∧ input = used ++ rest := by
  induction rounds generalizing shift result input with
  | zero => cases h
  | succ rounds ih =>
    cases input with
    | nil => cases h
    | cons byte input =>
      rw [varintLoop] at h
      split at h
      · obtain ⟨used, -, rfl⟩ := ih h
        exact ⟨byte :: used, List.cons_ne_nil _ _, rfl⟩
      · cases h
        exact ⟨[byte], List.cons_ne_nil _ _, rfl⟩

theorem getVarint32_suffix {v : Nat} {input rest : Bytes}
    (h : getVarint32 input = some (v, rest)) : ∃ used, used ≠ [] ∧ input = used ++ rest := by
  cases input with
  | nil => cases h
  | cons byte input =>
    rw [getVarint32] at h
    split at h
    · cases h
      exact ⟨[byte], List.cons_ne_nil _ _, rfl⟩
    · rw [varint32Loop_eq] at h
      exact varintLoop_suffix h

theorem getVarint64_suffix {v : Nat} {input rest : Bytes}
    (h : getVarint64 input = some (v, rest)) : ∃ used, used ≠ [] ∧ input = used ++ rest := by
  rw [getVarint64, varint64Loop_eq] at h
  exact varintLoop_suffix h

theorem length_lt_of_suffix {used input rest : Bytes} (hused : used ≠ [])
    (h : input = used ++ rest) : rest.length < input.length := by
  rw [h, List.length_append]
  exact Nat.lt_add_of_pos_left (List.length_pos_iff.mpr hused)

theorem getVarint32_length {v : Nat} {input rest : Bytes}
    (h : getVarint32 input = some (v, rest)) : rest.length < input.length := by
  obtain ⟨used, hused, hinput⟩ := getVarint32_suffix h
  exact length_lt_of_suffix hused hinput

theorem getVarint64_length {v : Nat} {input rest : Bytes}
    (h : getVarint64 input = some (v, rest)) : rest.length < input.length := by
  obtain ⟨used, hused, hinput⟩ := getVarint64_suffix h
  exact length_lt_of_suffix hused hinput

theorem getLengthPrefixedSlice_length {value input rest : Bytes}
    (h : getLengthPrefixedSlice input = some (value, rest)) : rest.length < input.length := by
  unfold getLengthPrefixedSlice at h
  split at h
  · cases h
  · next len tail hlen =>
      split at h
      · cases h
        rw [List.length_drop]
        exact Nat.lt_of_le_of_lt (Nat.sub_le _ _) (getVarint32_length hlen)
      · cases h

theorem encodeVarint32_length_pos (v : Nat) : 0 < (encodeVarint32 v).length := by
  unfold encodeVarint32
  split_ifs <;> simp

end Lpad
