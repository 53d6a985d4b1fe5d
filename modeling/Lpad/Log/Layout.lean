import Lpad.Log.Writer

/-!
# Fragments in a file

`Layout off fs bytes off'` says that `bytes` are the fragments `fs`, from the offset `off`
in a block to the offset `off'`, with the trailers of the blocks that are left on the way.
The writer produces a layout. If an `Append` fails, the file has a beginning of one.
-/

namespace Lpad

variable {crc : Bytes → BitVec 32}

/-- What stands before a fragment that is written at `off`: a trailer, or nothing if the
block has room for a header. -/
def trailerBytes (off : Nat) : Bytes :=
  if kBlockSize < off + kHeaderSize then List.replicate (kBlockSize - off) 0 else []

/-- Where that fragment begins. -/
def nextOffset (off : Nat) : Nat := if kBlockSize < off + kHeaderSize then 0 else off

theorem nextOffset_fits (off : Nat) : nextOffset off + kHeaderSize ≤ kBlockSize := by
  unfold nextOffset
  split
  · decide
  · omega

/-- If no byte fits behind the header, the fragment stays in its block. -/
theorem nextOffset_of_edge {off : Nat} (h : nextOffset off + kHeaderSize = kBlockSize) :
    nextOffset off = off := by
  unfold nextOffset at h ⊢
  by_cases hfull : kBlockSize < off + kHeaderSize
  · rw [if_pos hfull] at h
    exact absurd h (by decide)
  · rw [if_neg hfull]

/-- Fragments and trailers, from one offset in a block to another. -/
inductive Layout (crc : Bytes → BitVec 32) : Nat → List Fragment → Bytes → Nat → Prop
  | nil (off : Nat) : Layout crc off [] [] off
  | cons {off off' : Nat} {f : Fragment} {fs : List Fragment} {bytes : Bytes}
      (hfits : nextOffset off + kHeaderSize + f.payload.length ≤ kBlockSize)
      (hrest : Layout crc (nextOffset off + kHeaderSize + f.payload.length) fs bytes off') :
      Layout crc off (f :: fs) (trailerBytes off ++ (f.bytes crc ++ bytes)) off'

/-- The fragments of one record, or of what is left of it after the first ones. -/
inductive Splits : Bool → Bytes → List Fragment → Prop
  | last (isFirst : Bool) (data : Bytes) :
      Splits isFirst data [⟨fragmentType isFirst true, data⟩]
  | more (isFirst : Bool) (fragment : Bytes) {rest : Bytes} {fs : List Fragment}
      (hrest : Splits false rest fs) :
      Splits isFirst (fragment ++ rest) (⟨fragmentType isFirst false, fragment⟩ :: fs)

/-! ## The writer -/

/-- What an `Append` leaves in the file. -/
theorem appendFile_spec (file data : Bytes) (res : AppendResult) :
    ∃ s p, appendFile file data res = (s, file ++ p) ∧ p <+: data ∧
      (s.isOk = true → p = data) := by
  cases res with
  | done => exact ⟨.ok, data, rfl, List.prefix_rfl, fun _ => rfl⟩
  | failed written msg =>
    exact ⟨.ioError msg, data.take written, rfl, List.take_prefix _ _, fun h => by cases h⟩

/-- **One fragment**: the file gets a beginning of it, and all of it if the status is
`OK`. The offset is advanced in either case. -/
theorem LogWriter.emitPhysicalRecord_spec (crc : Bytes → BitVec 32) (io : FragmentResults)
    (w : LogWriter) (f : Fragment) :
    ∃ s p, w.emitPhysicalRecord crc io f =
        (s, ⟨w.file ++ p, w.blockOffset + kHeaderSize + f.payload.length⟩) ∧
      p <+: f.bytes crc ∧ (s.isOk = true → p = f.bytes crc) := by
  obtain ⟨s, p, hheader, hp, hall⟩ := appendFile_spec w.file (f.header crc) io.header
  unfold emitPhysicalRecord
  rw [hheader]
  dsimp only
  by_cases hs : s.isOk = true
  · obtain ⟨s', p', hpayload, hp', hall'⟩ := appendFile_spec (w.file ++ p) f.payload io.payload
    have hpart : p ++ p' <+: f.bytes crc := by
      rw [hall hs]
      exact (List.prefix_append_right_inj _).mpr hp'
    rw [if_pos hs, hpayload, List.append_assoc]
    dsimp only
    by_cases hs' : s'.isOk = true
    · rw [if_pos hs']
      exact ⟨io.flush, p ++ p', rfl, hpart, fun _ => by rw [hall hs, hall' hs', Fragment.bytes]⟩
    · rw [if_neg hs']
      exact ⟨s', p ++ p', rfl, hpart, fun h => absurd h hs'⟩
  · rw [if_neg hs]
    exact ⟨s, p, rfl, hp.trans (List.prefix_append _ _), fun h => absurd h hs⟩

/-- Leaving a block, if its trailer is written. -/
theorem LogWriter.switchBlock_spec {io : FragmentResults} (htrailer : io.trailer = .done)
    {w : LogWriter} (hoff : w.blockOffset ≤ kBlockSize) :
    w.switchBlock io = ⟨w.file ++ trailerBytes w.blockOffset, nextOffset w.blockOffset⟩ := by
  have hiff : kBlockSize - w.blockOffset < kHeaderSize ↔
      kBlockSize < w.blockOffset + kHeaderSize := by
    have : 0 < kHeaderSize := by decide
    omega
  unfold switchBlock trailerBytes nextOffset
  dsimp only
  by_cases hfull : kBlockSize < w.blockOffset + kHeaderSize
  · rw [if_pos (hiff.mpr hfull), if_pos hfull, if_pos hfull, htrailer]
    by_cases hleft : kBlockSize - w.blockOffset > 0
    · rw [if_pos hleft]
      rfl
    · have hzero : kBlockSize - w.blockOffset = 0 := by omega
      rw [if_neg hleft, hzero, List.replicate_zero, List.append_nil]
  · rw [if_neg (fun h => hfull (hiff.mp h)), if_neg hfull, if_neg hfull, List.append_nil]

/-- `res` comes from writing what is left of a record: there is a layout of it from the
current offset such that the file has got a beginning of that, and all of it if the status
is `OK`. -/
def Wrote (crc : Bytes → BitVec 32) (isFirst : Bool) (left : Bytes) (w : LogWriter)
    (res : Status × LogWriter) : Prop :=
  ∃ fs bytes off', Splits isFirst left fs ∧ Layout crc w.blockOffset fs bytes off' ∧
    off' ≤ kBlockSize ∧ (∃ p, p <+: bytes ∧ res.2.file = w.file ++ p) ∧
    (res.1.isOk = true → res.2 = ⟨w.file ++ bytes, off'⟩)

/-- The last fragment. -/
theorem Wrote.last {isFirst : Bool} {left p : Bytes} {w : LogWriter} {s : Status}
    (hfits : nextOffset w.blockOffset + kHeaderSize + left.length ≤ kBlockSize)
    (hp : p <+: (⟨fragmentType isFirst true, left⟩ : Fragment).bytes crc)
    (hall : s.isOk = true → p = (⟨fragmentType isFirst true, left⟩ : Fragment).bytes crc) :
    Wrote crc isFirst left w
      (s, ⟨w.file ++ trailerBytes w.blockOffset ++ p,
        nextOffset w.blockOffset + kHeaderSize + left.length⟩) := by
  refine ⟨_, _, _, .last isFirst left, .cons hfits (.nil _), hfits, ?_, ?_⟩
  · refine ⟨trailerBytes w.blockOffset ++ p, ?_, List.append_assoc _ _ _⟩
    rw [List.append_nil]
    exact (List.prefix_append_right_inj _).mpr hp
  · intro hs
    rw [hall hs, List.append_nil, List.append_assoc]

/-- A fragment that is not the last, after which the rest is written. -/
theorem Wrote.more {isFirst : Bool} {fragment rest : Bytes} {w : LogWriter}
    {res : Status × LogWriter}
    (hfits : nextOffset w.blockOffset + kHeaderSize + fragment.length ≤ kBlockSize)
    (hrest : Wrote crc false rest
      ⟨w.file ++ trailerBytes w.blockOffset ++
          (⟨fragmentType isFirst false, fragment⟩ : Fragment).bytes crc,
        nextOffset w.blockOffset + kHeaderSize + fragment.length⟩ res) :
    Wrote crc isFirst (fragment ++ rest) w res := by
  obtain ⟨fs, bytes, off', hsplits, hlayout, hoff', ⟨p, hp, hfile⟩, hall⟩ := hrest
  refine ⟨_, _, _, .more isFirst fragment hsplits, .cons hfits hlayout, hoff', ?_, ?_⟩
  · refine ⟨_, (List.prefix_append_right_inj _).mpr ((List.prefix_append_right_inj _).mpr hp), ?_⟩
    rw [hfile]
    simp only [List.append_assoc]
  · intro hs
    rw [hall hs]
    simp only [List.append_assoc]

/-- A fragment that is not the last and fails. The layout goes on as calls without errors
would have written it. -/
theorem Wrote.failed {isFirst : Bool} {fragment rest p : Bytes} {w w' : LogWriter} {s : Status}
    {res : Status × LogWriter} (hs : ¬ s.isOk = true)
    (hfits : nextOffset w.blockOffset + kHeaderSize + fragment.length ≤ kBlockSize)
    (hp : p <+: (⟨fragmentType isFirst false, fragment⟩ : Fragment).bytes crc)
    (hoff : w'.blockOffset = nextOffset w.blockOffset + kHeaderSize + fragment.length)
    (hrest : Wrote crc false rest w' res) (off : Nat) :
    Wrote crc isFirst (fragment ++ rest) w
      (s, ⟨w.file ++ trailerBytes w.blockOffset ++ p, off⟩) := by
  obtain ⟨fs, bytes, off', hsplits, hlayout, hoff', -, -⟩ := hrest
  rw [hoff] at hlayout
  refine ⟨_, _, _, .more isFirst fragment hsplits, .cons hfits hlayout, hoff', ?_,
    fun h => absurd h hs⟩
  refine ⟨trailerBytes w.blockOffset ++ p, ?_, List.append_assoc _ _ _⟩
  exact (List.prefix_append_right_inj _).mpr (hp.trans (List.prefix_append _ _))

/-- The loop of `AddRecord`, if every trailer is written. -/
theorem LogWriter.addRecordLoop_spec {fuel i : Nat} {io : Nat → FragmentResults} {isFirst : Bool}
    {left : Bytes} {w : LogWriter} (htrailer : ∀ i, (io i).trailer = .done)
    (hoff : w.blockOffset ≤ kBlockSize) (hfuel : left.length < fuel)
    (hedge : w.blockOffset + kHeaderSize = kBlockSize → left.length + 1 < fuel) :
    Wrote crc isFirst left w (w.addRecordLoop crc io fuel i isFirst left) := by
  induction fuel generalizing i io isFirst left w with
  | zero => exact absurd hfuel (Nat.not_lt_zero _)
  | succ fuel ih =>
    have hroom := nextOffset_fits w.blockOffset
    rw [addRecordLoop, switchBlock_spec (htrailer i) hoff]
    dsimp only
    generalize havail : kBlockSize - nextOffset w.blockOffset - kHeaderSize = avail
    obtain ⟨s, p, hemit, hp, hall⟩ := emitPhysicalRecord_spec crc (io i)
      ⟨w.file ++ trailerBytes w.blockOffset, nextOffset w.blockOffset⟩
      ⟨fragmentType isFirst (left.drop avail).isEmpty, left.take avail⟩
    rw [hemit]
    dsimp only
    have hlength : (left.take avail).length = min avail left.length := List.length_take
    have hfits : nextOffset w.blockOffset + kHeaderSize + (left.take avail).length ≤
        kBlockSize := by omega
    by_cases hlast : left.length ≤ avail
    · -- nothing is left after this fragment
      rw [List.drop_eq_nil_of_le hlast, List.take_of_length_le hlast] at *
      rw [if_neg (fun h => Nat.lt_irrefl 0 h.2)]
      exact Wrote.last hfits hp hall
    · -- the fragment fills its block, so the next round begins at the end of a block
      have hmore : (left.drop avail).isEmpty = false := by
        rw [List.isEmpty_eq_false_iff, ← List.length_pos_iff, List.length_drop]
        omega
      have hfull : nextOffset w.blockOffset + kHeaderSize + (left.take avail).length =
          kBlockSize := by omega
      have hshort : (left.drop avail).length < fuel := by
        rw [List.length_drop]
        by_cases hzero : avail = 0
        · -- only the header fits: the round writes an empty fragment
          have hsame := nextOffset_of_edge
            (show nextOffset w.blockOffset + kHeaderSize = kBlockSize by omega)
          have := hedge (by omega)
          omega
        · omega
      rw [hmore] at hp hall
      have hround : ∀ (io : Nat → FragmentResults) (file : Bytes),
          (∀ i, (io i).trailer = .done) → Wrote crc false (left.drop avail)
            ⟨file, nextOffset w.blockOffset + kHeaderSize + (left.take avail).length⟩
            (LogWriter.addRecordLoop crc io fuel (i + 1) false (left.drop avail)
              ⟨file, nextOffset w.blockOffset + kHeaderSize + (left.take avail).length⟩) :=
        fun io file htrailer => ih htrailer hfits hshort
          (fun h => absurd (hfull ▸ h : kBlockSize + kHeaderSize = kBlockSize) (by decide))
      by_cases hs : s.isOk = true
      · have hpos : 0 < (left.drop avail).length := by
          rw [List.length_drop]
          omega
        rw [if_pos ⟨hs, hpos⟩, hall hs]
        have hwrote : Wrote crc isFirst (left.take avail ++ left.drop avail) w _ :=
          Wrote.more hfits (hround io _ htrailer)
        rwa [List.take_append_drop] at hwrote
      · -- the append has failed: what is there begins what would have been written
        rw [if_neg (fun h => hs h.1)]
        have hwrote := Wrote.failed hs hfits hp rfl
          (hround (fun _ => .done) w.file (fun _ => rfl))
          (nextOffset w.blockOffset + kHeaderSize + (left.take avail).length)
        rwa [List.take_append_drop] at hwrote

/-- **One call of `AddRecord`**, if every trailer is written. -/
theorem LogWriter.addRecord_spec {io : Nat → FragmentResults} {w : LogWriter} {slice : Bytes}
    (htrailer : ∀ i, (io i).trailer = .done) (hoff : w.blockOffset ≤ kBlockSize) :
    Wrote crc true slice w (w.addRecord crc io slice) :=
  addRecordLoop_spec htrailer hoff (by omega) (fun _ => by omega)

/-- Without errors the status is `OK`. -/
theorem LogWriter.addRecordLoop_done (fuel i : Nat) (isFirst : Bool) (left : Bytes)
    (w : LogWriter) :
    (w.addRecordLoop crc (fun _ => .done) fuel i isFirst left).1 = .ok := by
  induction fuel generalizing i isFirst left w with
  | zero => rfl
  | succ fuel ih =>
    rw [addRecordLoop]
    dsimp only
    split
    · exact ih _ _ _ _
    · rfl

end Lpad
