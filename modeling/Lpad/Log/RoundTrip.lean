import Lpad.Log.Layout
import Lpad.Log.Reader
import Mathlib.Data.List.Induction

/-!
# The reader on what the writer wrote

The file is read up to any byte. Every fragment that is complete up to there is returned,
and the reader reports the end of the file at the first one that is not. So all records
that are complete in a file are read, in order, and nothing is reported as corrupted
(`readAll_of_prefix`).
-/

namespace Lpad

variable {crc : Bytes → BitVec 32}

/-! ## Headers -/

theorem charUint_code (t : RecordType) : charUint (UInt8.ofNat t.code) = t.code := by
  cases t <;> rfl

/-- The two bytes of a length. -/
theorem length_of_bytes {n : Nat} (h : n < 2 ^ 16) :
    (UInt8.ofNat (n &&& 0xff)).toNat ||| ((UInt8.ofNat (n >>> 8)).toNat <<< 8) = n := by
  have hlow : n &&& 0xff = n % 2 ^ 8 := Nat.and_two_pow_sub_one_eq_mod n 8
  have hhigh : n >>> 8 = n / 2 ^ 8 := Nat.shiftRight_eq_div_pow n 8
  have hmod : n % 2 ^ 8 < 2 ^ 8 := Nat.mod_lt _ (by decide)
  have hdiv : n / 2 ^ 8 < 2 ^ 8 := by omega
  rw [UInt8.toNat_ofNat', UInt8.toNat_ofNat', hlow, hhigh, Nat.mod_eq_of_lt hmod,
    Nat.mod_eq_of_lt hdiv, Nat.shiftLeft_eq, Nat.or_comm, Nat.mul_comm,
    ← Nat.two_pow_add_eq_or_of_lt hmod]
  exact Nat.div_add_mod n (2 ^ 8)

namespace Fragment

variable (crc) (f : Fragment) (s : Bytes)

/-- The length in the header, for a fragment that fits a block. -/
theorem header_size (h : kHeaderSize + f.payload.length ≤ kBlockSize) :
    ((f.header crc ++ s).getD 4 0).toNat ||| (((f.header crc ++ s).getD 5 0).toNat <<< 8) =
      f.payload.length := by
  have hsmall : f.payload.length < 2 ^ 16 := by
    have : kBlockSize < 2 ^ 16 := by decide
    omega
  exact length_of_bytes hsmall

theorem header_type : charUint ((f.header crc ++ s).getD 6 0) = f.type.code :=
  charUint_code f.type

theorem header_crc :
    crcUnmask (BitVec.ofNat 32 (decodeFixed32 (f.header crc ++ s))) =
      crc (UInt8.ofNat f.type.code :: f.payload) := by
  rw [header, List.append_assoc, decodeFixed32_encode (BitVec.isLt _), BitVec.ofNat_toNat,
    BitVec.setWidth_eq, crcUnmask_crcMask]

/-- The bytes that the checksum is over. -/
theorem header_checked :
    ((f.header crc ++ (f.payload ++ s)).drop 6).take (1 + f.payload.length) =
      UInt8.ofNat f.type.code :: f.payload := by
  have hdrop : (f.header crc ++ (f.payload ++ s)).drop 6 =
      UInt8.ofNat f.type.code :: (f.payload ++ s) := rfl
  rw [hdrop, Nat.add_comm, List.take_succ_cons, List.take_left]

end Fragment

/-! ## Positions -/

/-- The bytes `stream` are still to be read, and they begin at the offset `off` in a
block. -/
structure LogReader.At (off : Nat) (stream : Bytes) (r : LogReader) : Prop where
  stream_eq : r.buffer ++ r.rest = stream
  position : (r.eof = true ∧ r.rest = [] ∧ off + r.buffer.length < kBlockSize) ∨
    (r.eof = false ∧ off + r.buffer.length = kBlockSize)

/-- Nothing has been read yet, which is like being at the end of a block. -/
theorem LogReader.at_new (file : Bytes) : (LogReader.new file).At kBlockSize file :=
  ⟨rfl, .inr ⟨rfl, rfl⟩⟩

namespace LogReader.At

variable {off : Nat} {stream s : Bytes} {r : LogReader} {f : Fragment}

/-- If the block is not full, the reader knows that the file ends in it. -/
theorem eof_of_short (h : r.At off stream) (hshort : off + stream.length < kBlockSize) :
    r.eof = true ∧ r.buffer = stream := by
  have hlength := congrArg List.length h.stream_eq
  rw [List.length_append] at hlength
  rcases h.position with ⟨heof, hrest, -⟩ | ⟨-, hfull⟩
  · have hstream := h.stream_eq
    rw [hrest, List.append_nil] at hstream
    exact ⟨heof, hstream⟩
  · omega

/-- With room for a header in the block there is nothing to refill. -/
theorem refill_of_room (h : r.At off stream) (hroom : off + kHeaderSize ≤ kBlockSize) :
    r.refill = r := by
  unfold refill
  rw [if_neg]
  rintro ⟨hshort, heof⟩
  rcases h.position with ⟨heof', -⟩ | ⟨-, hfull⟩
  · rw [heof] at heof'
    cases heof'
  · omega

/-- The trailer is skipped by reading the next block. -/
theorem refill_trailer (h : r.At off (trailerBytes off ++ s)) : r.refill.At (nextOffset off) s := by
  unfold trailerBytes at h
  unfold nextOffset
  by_cases hfull : kBlockSize < off + kHeaderSize
  · rw [if_pos hfull] at h ⊢
    have hlength := congrArg List.length h.stream_eq
    rw [List.length_append, List.length_append, List.length_replicate] at hlength
    rcases h.position with ⟨-, hrest, hshort⟩ | ⟨heof, hend⟩
    · rw [hrest, List.length_nil] at hlength
      omega
    · obtain ⟨-, hrest⟩ := List.append_inj h.stream_eq (by rw [List.length_replicate]; omega)
      have hshort : r.buffer.length < kHeaderSize := by omega
      unfold refill
      rw [if_pos ⟨hshort, heof⟩, hrest]
      refine ⟨List.take_append_drop _ _, ?_⟩
      dsimp only
      by_cases hend : (s.take kBlockSize).length < kBlockSize
      · rw [List.length_take] at hend
        refine .inl ⟨by simpa using hend, List.drop_eq_nil_of_le (by omega), ?_⟩
        rw [List.length_take]
        omega
      · refine .inr ⟨by simpa using hend, ?_⟩
        rw [List.length_take] at hend ⊢
        omega
  · rw [if_neg hfull] at h ⊢
    rwa [h.refill_of_room (by omega)]

end LogReader.At

theorem LogReader.refill_refill (r : LogReader) : r.refill.refill = r.refill := by
  by_cases hneeds : r.buffer.length < kHeaderSize ∧ r.eof = false
  · have hrefill : r.refill = ⟨r.rest.drop kBlockSize, r.rest.take kBlockSize,
        decide ((r.rest.take kBlockSize).length < kBlockSize)⟩ := if_pos hneeds
    rw [hrefill]
    refine if_neg ?_
    rintro ⟨hshort, heof⟩
    have hlong : ¬ (r.rest.take kBlockSize).length < kBlockSize := of_decide_eq_false heof
    exact hlong (Nat.lt_trans hshort (by decide))
  · have hrefill : r.refill = r := if_neg hneeds
    rw [hrefill, hrefill]

/-- The first thing `ReadPhysicalRecord` does is to refill the buffer. -/
theorem LogReader.readPhysicalRecord_refill (r : LogReader) :
    r.refill.readPhysicalRecord crc = r.readPhysicalRecord crc := by
  unfold readPhysicalRecord
  rw [r.refill_refill]

/-! ## One fragment -/

theorem LogReader.refill_of_eof {r : LogReader} (heof : r.eof = true) : r.refill = r := by
  refine if_neg ?_
  rintro ⟨-, hmore⟩
  rw [heof] at hmore
  cases hmore

/-- At the end of the file, without room for a header in the buffer. -/
theorem LogReader.readPhysicalRecord_of_eof {r : LogReader} (heof : r.eof = true)
    (hshort : r.buffer.length < kHeaderSize) :
    r.readPhysicalRecord crc = ⟨kEof, [], { r with buffer := [] }, []⟩ := by
  unfold readPhysicalRecord
  rw [refill_of_eof heof]
  exact if_pos hshort

namespace LogReader.At

variable {off : Nat} {stream s : Bytes} {r : LogReader} {f : Fragment}

/-- A complete fragment in the current block. -/
theorem read_here (h : r.At off (f.bytes crc ++ s))
    (hfits : off + kHeaderSize + f.payload.length ≤ kBlockSize) (htype : f.type ≠ .kZeroType) :
    ∃ r' : LogReader, r.readPhysicalRecord crc = ⟨f.type.code, f.payload, r', []⟩ ∧
      r'.At (off + kHeaderSize + f.payload.length) s := by
  have hlength := congrArg List.length h.stream_eq
  rw [List.length_append, List.length_append, f.bytes_length] at hlength
  -- the fragment is in the buffer as a whole
  have hbuffer : kHeaderSize + f.payload.length ≤ r.buffer.length := by
    rcases h.position with ⟨-, hrest, -⟩ | ⟨-, hfull⟩
    · rw [hrest, List.length_nil] at hlength
      omega
    · omega
  obtain ⟨t, ht⟩ : f.bytes crc <+: r.buffer :=
    List.prefix_of_prefix_length_le ⟨s, rfl⟩ ⟨r.rest, h.stream_eq⟩
      (by rw [f.bytes_length]; exact hbuffer)
  have hs : t ++ r.rest = s := by
    have := h.stream_eq
    rw [← ht, List.append_assoc] at this
    exact List.append_cancel_left this
  have hparse : r.buffer = f.header crc ++ (f.payload ++ t) := by
    rw [← ht, Fragment.bytes, List.append_assoc]
  have hdrop : r.buffer.drop (kHeaderSize + f.payload.length) = t := by
    rw [← ht, ← f.bytes_length crc, List.drop_left]
  have htake : (r.buffer.drop kHeaderSize).take f.payload.length = f.payload := by
    rw [hparse, ← f.header_length crc, List.drop_left, List.take_left]
  have hcode : ¬ (f.type.code = RecordType.kZeroType.code ∧ f.payload.length = 0) := by
    rintro ⟨hzero, -⟩
    cases hf : f.type <;> rw [hf] at hzero htype <;> first | exact htype rfl | cases hzero
  have hsize : (r.buffer.getD 4 0).toNat ||| ((r.buffer.getD 5 0).toNat <<< 8) =
      f.payload.length := by
    rw [hparse]
    exact f.header_size crc _ (by omega)
  have hread : charUint (r.buffer.getD 6 0) = f.type.code := by
    rw [hparse]
    exact f.header_type crc _
  have hcrc : crc ((r.buffer.drop 6).take (1 + f.payload.length)) =
      crcUnmask (BitVec.ofNat 32 (decodeFixed32 r.buffer)) := by
    rw [hparse, f.header_checked, f.header_crc]
  refine ⟨{ r with buffer := t }, ?_, ?_⟩
  · unfold readPhysicalRecord
    rw [h.refill_of_room (by omega)]
    dsimp only
    rw [if_neg (show ¬ r.buffer.length < kHeaderSize by omega), hsize, hread,
      if_neg (Nat.not_lt.mpr hbuffer), if_neg hcode, if_neg (not_not.mpr hcrc), htake, hdrop]
  · refine ⟨hs, ?_⟩
    have htlength : t.length = r.buffer.length - (kHeaderSize + f.payload.length) := by
      rw [← hdrop, List.length_drop]
    rcases h.position with ⟨heof, hrest, hshort⟩ | ⟨heof, hfull⟩
    · exact .inl ⟨heof, hrest, by dsimp only; omega⟩
    · exact .inr ⟨heof, by dsimp only; omega⟩

/-- The file ends before the payload that a header announces. What stands there in place of
the payload does not matter. -/
theorem read_torn (h : r.At off stream) (hheader : f.header crc <+: stream)
    (hshort : stream.length < kHeaderSize + f.payload.length)
    (hfits : off + kHeaderSize + f.payload.length ≤ kBlockSize) :
    r.readPhysicalRecord crc = ⟨kEof, [], { r with buffer := [] }, []⟩ := by
  obtain ⟨heof, rfl⟩ := h.eof_of_short (by omega)
  obtain ⟨t, ht⟩ := hheader
  have hsize := f.header_size crc t (by omega)
  rw [ht] at hsize
  have hlength : ¬ r.buffer.length < kHeaderSize := by
    rw [← ht, List.length_append, f.header_length]
    omega
  unfold readPhysicalRecord
  rw [refill_of_eof heof]
  dsimp only
  rw [if_neg hlength, hsize, if_pos hshort, if_pos heof]

/-- A fragment that does not end in the file, in the current block. -/
theorem read_short_here (h : r.At off stream) (hstream : stream <+: f.bytes crc)
    (hshort : stream.length < (f.bytes crc).length)
    (hfits : off + kHeaderSize + f.payload.length ≤ kBlockSize) :
    r.readPhysicalRecord crc = ⟨kEof, [], { r with buffer := [] }, []⟩ := by
  rw [f.bytes_length] at hshort
  by_cases hheader : stream.length < kHeaderSize
  · obtain ⟨heof, hbuffer⟩ := h.eof_of_short (by omega)
    exact readPhysicalRecord_of_eof heof (by rwa [hbuffer])
  · have hcomplete : f.header crc <+: stream :=
      List.prefix_of_prefix_length_le (List.prefix_append _ _) hstream
        (by rw [f.header_length]; omega)
    exact h.read_torn hcomplete hshort hfits

/-- **The next fragment**, after a trailer if there is one. -/
theorem read_fragment (h : r.At off (trailerBytes off ++ (f.bytes crc ++ s)))
    (hfits : nextOffset off + kHeaderSize + f.payload.length ≤ kBlockSize)
    (htype : f.type ≠ .kZeroType) :
    ∃ r' : LogReader, r.readPhysicalRecord crc = ⟨f.type.code, f.payload, r', []⟩ ∧
      r'.At (nextOffset off + kHeaderSize + f.payload.length) s := by
  rw [← r.readPhysicalRecord_refill]
  exact h.refill_trailer.read_here hfits htype

/-- Nothing of the block that was read is left, and no more comes. -/
theorem read_end (h : r.At off []) :
    ∃ r' : LogReader, r.readPhysicalRecord crc = ⟨kEof, [], r', []⟩ := by
  have hnil : ∀ {off : Nat} {r : LogReader}, r.At off [] → off < kBlockSize →
      ∃ r' : LogReader, r.readPhysicalRecord crc = ⟨kEof, [], r', []⟩ := by
    intro off r h hoff
    obtain ⟨heof, hbuffer⟩ := h.eof_of_short hoff
    exact ⟨_, readPhysicalRecord_of_eof heof (by rw [hbuffer]; decide)⟩
  by_cases hoff : off < kBlockSize
  · exact hnil h hoff
  · -- at the end of a block the reader has to try the next one
    have htrailer : trailerBytes off = [] := by
      unfold trailerBytes
      rw [Nat.sub_eq_zero_of_le (Nat.le_of_not_lt hoff)]
      split <;> rfl
    rw [← r.readPhysicalRecord_refill]
    have hnext : r.At off (trailerBytes off ++ []) := by rwa [htrailer]
    have hroom := nextOffset_fits off
    unfold kHeaderSize at hroom
    exact hnil hnext.refill_trailer (by omega)

/-- **A fragment that does not end in the file**, or whose trailer does not. -/
theorem read_short (h : r.At off stream) (hstream : stream <+: trailerBytes off ++ f.bytes crc)
    (hshort : stream.length < (trailerBytes off ++ f.bytes crc).length)
    (hfits : nextOffset off + kHeaderSize + f.payload.length ≤ kBlockSize) :
    ∃ r' : LogReader, r.readPhysicalRecord crc = ⟨kEof, [], r', []⟩ := by
  by_cases htrailer : (trailerBytes off).length ≤ stream.length
  · obtain ⟨s, rfl⟩ : trailerBytes off <+: stream :=
      List.prefix_of_prefix_length_le (List.prefix_append _ _) hstream htrailer
    rw [List.length_append, List.length_append, Nat.add_lt_add_iff_left] at hshort
    rw [← r.readPhysicalRecord_refill]
    exact ⟨_, h.refill_trailer.read_short_here ((List.prefix_append_right_inj _).mp hstream)
      hshort hfits⟩
  · -- the file ends in a trailer, which is shorter than a header
    have hfull : kBlockSize < off + kHeaderSize := by
      by_contra hroom
      rw [trailerBytes, if_neg hroom] at htrailer
      exact htrailer (Nat.zero_le _)
    rw [trailerBytes, if_pos hfull, List.length_replicate] at htrailer
    obtain ⟨heof, hbuffer⟩ := h.eof_of_short (by omega)
    exact ⟨_, readPhysicalRecord_of_eof heof (by rw [hbuffer]; omega)⟩

end LogReader.At

/-! ## One record -/

theorem fragmentType_ne_zero (isFirst isLast : Bool) :
    fragmentType isFirst isLast ≠ .kZeroType := by
  cases isFirst <;> cases isLast <;> decide

namespace LogReader

variable {off off' fuel : Nat} {isFirst : Bool} {data scratch stream s : Bytes}
  {fs : List Fragment} {bytes : Bytes} {r r' : LogReader}

/-- The last fragment of a record ends it. -/
theorem readRecordLoop_last
    (hread : r.readPhysicalRecord crc = ⟨(fragmentType isFirst true).code, data, r', []⟩)
    (hscratch : isFirst = true → scratch = []) :
    r.readRecordLoop crc (fuel + 1) (!isFirst) scratch = ⟨some (scratch ++ data), r', []⟩ := by
  rw [readRecordLoop, hread]
  cases isFirst with
  | true =>
    rw [hscratch rfl]
    rfl
  | false => rfl

/-- Any other one is added to `scratch`. -/
theorem readRecordLoop_more
    (hread : r.readPhysicalRecord crc = ⟨(fragmentType isFirst false).code, data, r', []⟩)
    (hscratch : isFirst = true → scratch = []) :
    r.readRecordLoop crc (fuel + 1) (!isFirst) scratch =
      r'.readRecordLoop crc fuel true (scratch ++ data) := by
  rw [readRecordLoop, hread]
  cases isFirst with
  | true =>
    rw [hscratch rfl]
    rfl
  | false => rfl

/-- At the end of the file a record that has begun is dropped without a report. -/
theorem readRecordLoop_eof (hread : r.readPhysicalRecord crc = ⟨kEof, [], r', []⟩)
    (inFragmented : Bool) :
    r.readRecordLoop crc (fuel + 1) inFragmented scratch = ⟨none, r', []⟩ := by
  rw [readRecordLoop, hread]
  rfl

/-- **A complete record is returned.** -/
theorem readRecordLoop_complete (hsplits : Splits isFirst data fs)
    (hlayout : Layout crc off fs bytes off') (hat : r.At off (bytes ++ s))
    (hfuel : (bytes ++ s).length < fuel) (hscratch : isFirst = true → scratch = []) :
    ∃ r' : LogReader, r.readRecordLoop crc fuel (!isFirst) scratch =
      ⟨some (scratch ++ data), r', []⟩ ∧ r'.At off' s := by
  induction hsplits generalizing off bytes fuel scratch r with
  | last isFirst data =>
    obtain _ | fuel := fuel
    · exact absurd hfuel (Nat.not_lt_zero _)
    cases hlayout with
    | cons hfits hrest =>
      cases hrest
      rw [List.append_nil, List.append_assoc] at hat
      obtain ⟨r', hread, hat'⟩ := hat.read_fragment hfits (fragmentType_ne_zero _ _)
      exact ⟨r', readRecordLoop_last hread hscratch, hat'⟩
  | more isFirst fragment _ ih =>
    obtain _ | fuel := fuel
    · exact absurd hfuel (Nat.not_lt_zero _)
    cases hlayout with
    | @cons _ _ _ _ tail hfits hrest =>
      rw [List.append_assoc, List.append_assoc] at hat hfuel
      obtain ⟨r', hread, hat'⟩ := hat.read_fragment hfits (fragmentType_ne_zero _ _)
      rw [List.length_append, List.length_append, Fragment.bytes_length] at hfuel
      have hless : 0 < kHeaderSize := by decide
      obtain ⟨r'', hloop, hat''⟩ := ih hrest hat'
        (show (tail ++ s).length < fuel by omega) (fun h => by cases h)
      refine ⟨r'', ?_, hat''⟩
      rw [readRecordLoop_more hread hscratch, ← List.append_assoc]
      exact hloop

/-- **A record that does not end in the file** is not returned, and not reported. -/
theorem readRecordLoop_short (hsplits : Splits isFirst data fs)
    (hlayout : Layout crc off fs bytes off') (hat : r.At off stream) (hstream : stream <+: bytes)
    (hshort : stream.length < bytes.length) (hfuel : stream.length < fuel)
    (hscratch : isFirst = true → scratch = []) :
    ∃ r' : LogReader, r.readRecordLoop crc fuel (!isFirst) scratch = ⟨none, r', []⟩ := by
  induction hsplits generalizing off bytes fuel scratch r stream with
  | last isFirst data =>
    obtain _ | fuel := fuel
    · exact absurd hfuel (Nat.not_lt_zero _)
    cases hlayout with
    | cons hfits hrest =>
      cases hrest
      rw [List.append_nil] at hstream hshort
      obtain ⟨r', hread⟩ := hat.read_short hstream hshort hfits
      exact ⟨r', readRecordLoop_eof hread _⟩
  | @more isFirst fragment rest fs _ ih =>
    obtain _ | fuel := fuel
    · exact absurd hfuel (Nat.not_lt_zero _)
    cases hlayout with
    | @cons _ _ _ _ tail hfits hrest =>
      rw [← List.append_assoc] at hstream hshort
      generalize hhead : trailerBytes off ++
        (⟨fragmentType isFirst false, fragment⟩ : Fragment).bytes crc = head at *
      by_cases hcomplete : head.length ≤ stream.length
      · -- this fragment is complete, so the file ends in a later one
        obtain ⟨s, rfl⟩ : head <+: stream :=
          List.prefix_of_prefix_length_le (List.prefix_append _ _) hstream hcomplete
        rw [List.length_append, List.length_append, Nat.add_lt_add_iff_left] at hshort
        have hpos : 0 < head.length := by
          rw [← hhead, List.length_append, Fragment.bytes_length, kHeaderSize]
          omega
        rw [List.length_append] at hfuel
        rw [← hhead, List.append_assoc] at hat
        obtain ⟨r', hread, hat'⟩ := hat.read_fragment hfits (fragmentType_ne_zero _ _)
        rw [readRecordLoop_more hread hscratch]
        exact ih hrest hat' ((List.prefix_append_right_inj _).mp hstream) hshort (by omega)
          (fun h => by cases h)
      · have hpart : stream <+: head :=
          List.prefix_of_prefix_length_le hstream (List.prefix_append _ _) (by omega)
        rw [← hhead] at hpart hcomplete
        obtain ⟨r', hread⟩ := hat.read_short hpart (by omega) hfits
        exact ⟨r', readRecordLoop_eof hread _⟩

end LogReader

/-! ## The whole file -/

/-- Records and the bytes of each in the file, from one offset in a block to another. -/
inductive Recorded (crc : Bytes → BitVec 32) : Nat → List (Bytes × Bytes) → Nat → Prop
  | nil (off : Nat) : Recorded crc off [] off
  | cons {off mid off' : Nat} {data bytes : Bytes} {fs : List Fragment}
      {rs : List (Bytes × Bytes)} (hsplits : Splits true data fs)
      (hlayout : Layout crc off fs bytes mid) (hrest : Recorded crc mid rs off') :
      Recorded crc off ((data, bytes) :: rs) off'

theorem Layout.length_pos {off off' : Nat} {fs : List Fragment} {bytes : Bytes}
    (h : Layout crc off fs bytes off') (hne : fs ≠ []) : 0 < bytes.length := by
  cases h with
  | nil => exact absurd rfl hne
  | cons =>
    rw [List.length_append, List.length_append, Fragment.bytes_length, kHeaderSize]
    omega

theorem Splits.ne_nil {isFirst : Bool} {data : Bytes} {fs : List Fragment}
    (h : Splits isFirst data fs) : fs ≠ [] := by
  cases h <;> exact List.cons_ne_nil _ _

/-- The bytes of all the records. -/
def recordedBytes (rs : List (Bytes × Bytes)) : Bytes := rs.flatMap Prod.snd

namespace LogReader

variable {off off' fuel : Nat} {stream : Bytes} {rs : List (Bytes × Bytes)} {r : LogReader}

theorem At.length_eq (h : r.At off stream) :
    r.buffer.length + r.rest.length = stream.length := by
  rw [← h.stream_eq, List.length_append]

/-- **The reader on a part of a log.** It returns the records that end in that part, and
reports nothing. -/
theorem readAll_of_prefix (hrecorded : Recorded crc off rs off') (hat : r.At off stream)
    (hstream : stream <+: recordedBytes rs) (hfuel : stream.length < fuel) :
    ∃ k ≤ rs.length, r.readAll crc fuel = (rs.take k).map (fun x => .record x.1) ∧
      ∀ i < rs.length, i < k ↔ (recordedBytes (rs.take (i + 1))).length ≤ stream.length := by
  induction hrecorded generalizing fuel stream r with
  | nil off =>
    obtain _ | fuel := fuel
    · exact absurd hfuel (Nat.not_lt_zero _)
    obtain rfl : stream = [] := List.prefix_nil.mp hstream
    obtain ⟨r', hread⟩ : ∃ r' : LogReader, r.readPhysicalRecord crc = ⟨kEof, [], r', []⟩ :=
      hat.read_end
    refine ⟨0, Nat.le_refl _, ?_, fun i hi => absurd hi (Nat.not_lt_zero _)⟩
    rw [readAll, readRecord, readRecordLoop_eof hread]
    rfl
  | @cons off mid off' data bytes fs rs hsplits hlayout hrest ih =>
    obtain _ | fuel := fuel
    · exact absurd hfuel (Nat.not_lt_zero _)
    have hends : ∀ i, (recordedBytes (((data, bytes) :: rs).take (i + 1))).length =
        bytes.length + (recordedBytes (rs.take i)).length := by
      intro i
      rw [List.take_succ_cons, recordedBytes, List.flatMap_cons, List.length_append]
      rfl
    have hstream' : stream <+: bytes ++ recordedBytes rs := hstream
    by_cases hcomplete : bytes.length ≤ stream.length
    · -- the record is there in full: the reader is at its end afterwards
      obtain ⟨s, rfl⟩ : bytes <+: stream :=
        List.prefix_of_prefix_length_le (List.prefix_append _ _) hstream' hcomplete
      have hpos := hlayout.length_pos hsplits.ne_nil
      obtain ⟨r', hread, hat'⟩ := readRecordLoop_complete hsplits hlayout hat
        (Nat.lt_succ_of_le (Nat.le_of_eq hat.length_eq.symm)) (fun _ => rfl)
      rw [List.length_append] at hfuel
      obtain ⟨k, hk, hrecords, hiff⟩ := ih hat'
        ((List.prefix_append_right_inj _).mp hstream') (show s.length < fuel by omega)
      refine ⟨k + 1, Nat.succ_le_succ hk, ?_, ?_⟩
      · rw [readAll, readRecord]
        rw [Bool.not_true] at hread
        rw [hread]
        dsimp only
        rw [hrecords]
        rfl
      · intro i hi
        rw [hends, List.length_append]
        cases i with
        | zero =>
          have hzero : (recordedBytes (rs.take 0)).length = 0 := rfl
          rw [hzero]
          omega
        | succ i =>
          have := hiff i (Nat.lt_of_succ_lt_succ hi)
          omega
    · -- the log ends within the record, which the reader takes for the end of the file
      have hpart : stream <+: bytes :=
        List.prefix_of_prefix_length_le hstream' (List.prefix_append _ _) (by omega)
      obtain ⟨r', hread⟩ := readRecordLoop_short hsplits hlayout hat hpart (by omega)
        (Nat.lt_succ_of_le (Nat.le_of_eq hat.length_eq.symm)) (fun _ => rfl)
      refine ⟨0, Nat.zero_le _, ?_, ?_⟩
      · rw [readAll, readRecord]
        rw [Bool.not_true] at hread
        rw [hread]
        rfl
      · intro i hi
        rw [hends]
        omega

end LogReader

/-- A log begins at the start of a block, for the reader that is the end of the one
before. -/
theorem Recorded.of_start {off' : Nat} {rs : List (Bytes × Bytes)} (h : Recorded crc 0 rs off') :
    ∃ off'', Recorded crc kBlockSize rs off'' := by
  cases h with
  | nil => exact ⟨kBlockSize, .nil _⟩
  | cons hsplits hlayout hrest =>
    refine ⟨_, .cons hsplits ?_ hrest⟩
    cases hlayout with
    | nil => exact absurd rfl hsplits.ne_nil
    | cons hfits hlayout =>
      have hnext : nextOffset kBlockSize = nextOffset 0 := rfl
      have htrailer : trailerBytes kBlockSize = trailerBytes 0 := rfl
      rw [← hnext] at hfits hlayout
      rw [← htrailer]
      exact .cons hfits hlayout

theorem Recorded.snoc {off mid off' : Nat} {rs : List (Bytes × Bytes)} {data bytes : Bytes}
    {fs : List Fragment} (h : Recorded crc off rs mid) (hsplits : Splits true data fs)
    (hlayout : Layout crc mid fs bytes off') : Recorded crc off (rs ++ [(data, bytes)]) off' := by
  induction h with
  | nil off => exact .cons hsplits hlayout (.nil _)
  | cons hsplits' hlayout' _ ih => exact .cons hsplits' hlayout' (ih hlayout)

theorem recordedBytes_append (rs rs' : List (Bytes × Bytes)) :
    recordedBytes (rs ++ rs') = recordedBytes rs ++ recordedBytes rs' := List.flatMap_append

theorem readLog_of_prefix {off' : Nat} {stream : Bytes} {rs : List (Bytes × Bytes)}
    (hrecorded : Recorded crc 0 rs off') (hstream : stream <+: recordedBytes rs) :
    ∃ k ≤ rs.length, readLog crc stream = (rs.take k).map (fun x => .record x.1) ∧
      ∀ i < rs.length, i < k ↔ (recordedBytes (rs.take (i + 1))).length ≤ stream.length := by
  obtain ⟨off'', hrecorded'⟩ := hrecorded.of_start
  exact LogReader.readAll_of_prefix hrecorded' (LogReader.at_new stream) hstream
    (Nat.lt_succ_self _)

/-- The file of a writer is the log of these records. -/
structure LogWriter.Holds (crc : Bytes → BitVec 32) (rs : List (Bytes × Bytes)) (w : LogWriter) :
    Prop where
  recorded : Recorded crc 0 rs w.blockOffset
  file_eq : w.file = recordedBytes rs
  bound : w.blockOffset ≤ kBlockSize

namespace LogWriter

variable {rs : List (Bytes × Bytes)} {w : LogWriter}

theorem holds_new : LogWriter.new.Holds crc [] := ⟨.nil 0, rfl, Nat.zero_le _⟩

/-- **A call of `AddRecord`** appends the record to the log, or a beginning of it and then
the status is an error. -/
theorem Holds.addRecord (h : w.Holds crc rs) (io : Nat → FragmentResults)
    (htrailer : ∀ i, (io i).trailer = .done) (slice : Bytes) :
    ∃ bytes, (∃ off', Recorded crc 0 (rs ++ [(slice, bytes)]) off') ∧
      (∃ p, p <+: bytes ∧ (w.addRecord crc io slice).2.file = recordedBytes rs ++ p) ∧
      ((w.addRecord crc io slice).1.isOk = true →
        (w.addRecord crc io slice).2.Holds crc (rs ++ [(slice, bytes)])) := by
  obtain ⟨fs, bytes, off', hsplits, hlayout, hoff', ⟨p, hp, hfile⟩, hall⟩ :
      Wrote crc true slice w (w.addRecord crc io slice) := addRecord_spec htrailer h.bound
  have hrecorded := h.recorded.snoc hsplits hlayout
  refine ⟨bytes, ⟨off', hrecorded⟩, ⟨p, hp, by rw [hfile, h.file_eq]⟩, fun hok => ?_⟩
  rw [hall hok]
  refine ⟨hrecorded, ?_, hoff'⟩
  rw [recordedBytes_append, ← h.file_eq]
  exact congrArg (w.file ++ ·) (List.append_nil bytes).symm

/-- `AddRecord` for each of the slices, without errors. -/
def addRecords (crc : Bytes → BitVec 32) (w : LogWriter) (slices : List Bytes) : LogWriter :=
  slices.foldl (fun w slice => (w.addRecord crc (fun _ => .done) slice).2) w

theorem addRecords_cons (w : LogWriter) (slice : Bytes) (slices : List Bytes) :
    w.addRecords crc (slice :: slices) =
      (w.addRecord crc (fun _ => .done) slice).2.addRecords crc slices := rfl

theorem addRecords_snoc (w : LogWriter) (slices : List Bytes) (slice : Bytes) :
    w.addRecords crc (slices ++ [slice]) =
      ((w.addRecords crc slices).addRecord crc (fun _ => .done) slice).2 := by
  rw [addRecords, List.foldl_append]
  rfl

/-- The log of the slices, with the place where each of them ends. -/
theorem addRecords_holds (crc : Bytes → BitVec 32) (slices : List Bytes) :
    ∃ rs, (LogWriter.new.addRecords crc slices).Holds crc rs ∧ rs.map Prod.fst = slices ∧
      ∀ n, (LogWriter.new.addRecords crc (slices.take n)).file = recordedBytes (rs.take n) := by
  induction slices using List.reverseRecOn with
  | nil => exact ⟨[], holds_new, rfl, fun n => by rw [List.take_nil, List.take_nil]; rfl⟩
  | append_singleton slices slice ih =>
    obtain ⟨rs, hholds, hslices, hends⟩ := ih
    obtain ⟨bytes, -, -, hok⟩ := hholds.addRecord (fun _ => .done) (fun _ => rfl) slice
    have hall := hok (by rw [LogWriter.addRecord, addRecordLoop_done]; rfl)
    have hlength : slices.length = rs.length := by rw [← hslices, List.length_map]
    refine ⟨rs ++ [(slice, bytes)], by rwa [addRecords_snoc], by simp [hslices], ?_⟩
    intro n
    by_cases hn : n ≤ slices.length
    · rw [List.take_append_of_le_length hn, List.take_append_of_le_length (hlength ▸ hn)]
      exact hends n
    · rw [List.take_of_length_le (by rw [List.length_append, List.length_singleton]; omega),
        List.take_of_length_le (by rw [List.length_append, List.length_singleton]; omega),
        addRecords_snoc]
      exact hall.file_eq

end LogWriter

/-- **Every truncation of a log**: the reader returns the slices whose records end before
the cut, in order, and reports nothing. -/
theorem readLog_truncated (crc : Bytes → BitVec 32) (slices : List Bytes) (m : Nat) :
    ∃ k ≤ slices.length,
      readLog crc ((LogWriter.new.addRecords crc slices).file.take m) =
        (slices.take k).map .record ∧
      ∀ i < slices.length,
        i < k ↔ (LogWriter.new.addRecords crc (slices.take (i + 1))).file.length ≤ m := by
  obtain ⟨rs, hholds, hslices, hends⟩ := LogWriter.addRecords_holds crc slices
  have hlength : slices.length = rs.length := by rw [← hslices, List.length_map]
  rw [hholds.file_eq]
  obtain ⟨k, hk, hread, hiff⟩ := readLog_of_prefix hholds.recorded
    (List.take_prefix m (recordedBytes rs))
  refine ⟨k, hlength ▸ hk, ?_, ?_⟩
  · rw [hread, ← hslices, ← List.map_take, List.map_map]
    rfl
  · intro i hi
    have hle : (recordedBytes (rs.take (i + 1))).length ≤ (recordedBytes rs).length := by
      rw [← List.take_append_drop (i + 1) rs, recordedBytes_append, List.take_append_drop,
        List.length_append]
      exact Nat.le_add_right _ _
    rw [hiff i (hlength ▸ hi), hends, List.length_take]
    omega

end Lpad
