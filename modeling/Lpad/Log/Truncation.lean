import Lpad.Log.RoundTrip

/-!
# Reading a log that was cut off

`ReadRecord` returns on every file: a round of its loop that does not end it takes at least
a header from the input. So the fuel of the model never runs out, and a reader that is
called until it returns `false` comes to an end. On a log that was cut off anywhere, the
calls return the records that are complete, and then `false` without a report
(`readRecord_truncated`).
-/

namespace Lpad

namespace LogReader

variable (crc : Bytes → BitVec 32)

/-- The bytes that have not been consumed yet. -/
def size (r : LogReader) : Nat := r.buffer.length + r.rest.length

theorem refill_size (r : LogReader) : r.refill.size ≤ r.size := by
  unfold refill size
  split
  · have htake : (r.rest.take kBlockSize).length + (r.rest.drop kBlockSize).length =
        r.rest.length := by
      rw [← List.length_append, List.take_append_drop]
    dsimp only
    omega
  · exact Nat.le_refl _

/-- Every physical record but the end of the file takes at least a header. -/
theorem readPhysicalRecord_size (r : LogReader) :
    (r.readPhysicalRecord crc).type = kEof ∨
      (r.readPhysicalRecord crc).reader.size + kHeaderSize ≤ r.size := by
  have hsize := r.refill_size
  generalize hrefilled : r.refill = q at hsize
  unfold readPhysicalRecord
  dsimp only
  rw [hrefilled]
  by_cases hshort : q.buffer.length < kHeaderSize
  · left
    rw [if_pos hshort]
  · rw [if_neg hshort]
    have hcleared : (LogReader.mk q.rest [] q.eof).size + kHeaderSize ≤ r.size := by
      unfold size at hsize ⊢
      dsimp only [List.length_nil]
      omega
    split_ifs
    · exact Or.inl rfl
    · exact Or.inr hcleared
    · exact Or.inr hcleared
    · exact Or.inr hcleared
    · right
      unfold size at hsize ⊢
      dsimp only
      rw [List.length_drop]
      omega

/-- The loop of `ReadRecord` returns within so many rounds. -/
def loopReturns : (fuel : Nat) → (inFragmented : Bool) → LogReader → Bool
  | 0, _, _ => false
  | fuel + 1, inFragmented, r =>
    let p := r.readPhysicalRecord crc
    match p.type with
    | 1 => true
    | 2 => loopReturns fuel true p.reader
    | 3 => loopReturns fuel inFragmented p.reader
    | 4 => inFragmented || loopReturns fuel false p.reader
    | 5 => true
    | _ => loopReturns fuel false p.reader

/-- **`ReadRecord` returns**, whatever the file holds. -/
theorem loopReturns_of_size {fuel : Nat} {r : LogReader} (h : r.size < fuel)
    (inFragmented : Bool) : r.loopReturns crc fuel inFragmented = true := by
  induction fuel generalizing r inFragmented with
  | zero => exact absurd h (Nat.not_lt_zero _)
  | succ fuel ih =>
    rcases r.readPhysicalRecord_size crc with heof | hsize
    · rw [loopReturns, heof]
      rfl
    · have hnext : ∀ inFragmented,
          (r.readPhysicalRecord crc).reader.loopReturns crc fuel inFragmented = true := by
        apply ih
        have : 0 < kHeaderSize := by decide
        omega
      unfold loopReturns
      dsimp only
      split
      · rfl
      · exact hnext _
      · exact hnext _
      · rw [hnext, Bool.or_true]
      · rfl
      · exact hnext _

/-- A record that is returned has taken something from the input. -/
theorem readRecordLoop_size {fuel : Nat} {r : LogReader} {inFragmented : Bool}
    {scratch data : Bytes} {res : ReadResult}
    (hres : r.readRecordLoop crc fuel inFragmented scratch = res) (h : res.record = some data) :
    res.reader.size < r.size := by
  induction fuel generalizing r inFragmented scratch res with
  | zero =>
    rw [← hres] at h
    cases h
  | succ fuel ih =>
    have hpos : 0 < kHeaderSize := by decide
    rcases r.readPhysicalRecord_size crc with heof | hsize
    · rw [readRecordLoop, heof] at hres
      rw [← hres] at h
      cases h
    · generalize hp : r.readPhysicalRecord crc = p at hsize
      -- what is returned by a later round has been read from what this one has left
      have hlater : ∀ inFragmented scratch drops,
          (p.reader.readRecordLoop crc fuel inFragmented scratch).report drops = res →
          res.reader.size < r.size := by
        intro inFragmented scratch drops hres
        rw [← hres] at h ⊢
        have hsmaller := ih rfl h
        exact Nat.lt_of_lt_of_le hsmaller (Nat.le_of_add_right_le hsize)
      have hnow : ∀ data drops, ReadResult.report ⟨some data, p.reader, []⟩ drops = res →
          res.reader.size < r.size := by
        intro data drops hres
        rw [← hres]
        exact Nat.lt_of_lt_of_le (Nat.lt_add_of_pos_right hpos) hsize
      unfold readRecordLoop at hres
      rw [hp] at hres
      dsimp only at hres
      split at hres
      · exact hnow _ _ hres
      · exact hlater _ _ _ hres
      · split at hres
        · exact hlater _ _ _ hres
        · exact hlater _ _ _ hres
      · split at hres
        · exact hnow _ _ hres
        · exact hlater _ _ _ hres
      · rw [← hres] at h
        cases h
      · split at hres
        · exact hlater _ _ _ hres
        · exact hlater _ _ _ hres
      · exact hlater _ _ _ hres

/-- A call of `ReadRecord` returns, with this result. -/
structure Reads (r : LogReader) (res : ReadResult) : Prop where
  returns : r.loopReturns crc (r.buffer.length + r.rest.length + 1) false = true
  result : r.readRecord crc = res

theorem reads (r : LogReader) : r.Reads crc (r.readRecord crc) :=
  ⟨r.loopReturns_of_size crc (Nat.lt_succ_self _) false, rfl⟩

/-- **What a series of calls does**: it returns these records, then `false`, and the
reporter is not called. -/
inductive Delivers : LogReader → List Bytes → Prop
  | eof {r r' : LogReader} (h : r.Reads crc ⟨none, r', []⟩) : Delivers r []
  | record {r r' : LogReader} {data : Bytes} {rest : List Bytes}
      (h : r.Reads crc ⟨some data, r', []⟩) (later : Delivers r' rest) : Delivers r (data :: rest)

variable {crc}

theorem delivers_of_readAll {fuel : Nat} {r : LogReader} {records : List Bytes}
    (hfuel : r.size < fuel) (h : r.readAll crc fuel = records.map .record) :
    r.Delivers crc records := by
  induction records generalizing fuel r with
  | nil =>
    obtain _ | fuel := fuel
    · exact absurd hfuel (Nat.not_lt_zero _)
    generalize hres : r.readRecord crc = res
    obtain ⟨record, r', drops⟩ := res
    rw [readAll, hres] at h
    obtain ⟨hdrops, hrecord⟩ := List.append_eq_nil_iff.mp h
    cases record with
    | none =>
      obtain rfl : drops = [] := List.map_eq_nil_iff.mp hdrops
      exact .eof (hres ▸ r.reads crc)
    | some data => cases hrecord
  | cons data records ih =>
    obtain _ | fuel := fuel
    · exact absurd hfuel (Nat.not_lt_zero _)
    have hreads := r.reads crc
    have hsize : ∀ data, (r.readRecord crc).record = some data →
        (r.readRecord crc).reader.size < r.size := fun data => readRecordLoop_size crc rfl
    generalize hres : r.readRecord crc = res at hreads hsize
    obtain ⟨record, r', drops⟩ := res
    rw [readAll, hres, List.map_cons] at h
    -- a report would come before the record
    cases drops with
    | cons d drops => cases h
    | nil =>
      cases record with
      | none => cases h
      | some data' =>
        obtain ⟨hdata, hrest⟩ := List.cons.inj h
        cases hdata
        exact .record hreads (ih (Nat.lt_of_lt_of_le (hsize data rfl)
          (Nat.le_of_lt_succ hfuel)) hrest)

end LogReader

/-- **Log round trip under truncation.** Of any list of records, written without errors and
cut off at any byte, the calls of `ReadRecord` return those that end before the cut, and
then report the end of the file. -/
theorem readRecord_truncated (crc : Bytes → BitVec 32) (slices : List Bytes) (n : Nat) :
    ∃ k ≤ slices.length,
      (LogReader.new ((LogWriter.new.addRecords crc slices).file.take n)).Delivers crc
        (slices.take k) ∧
      ∀ i < slices.length,
        i < k ↔ (LogWriter.new.addRecords crc (slices.take (i + 1))).file.length ≤ n := by
  obtain ⟨k, hk, hread, hends⟩ := readLog_truncated crc slices n
  refine ⟨k, hk, LogReader.delivers_of_readAll ?_ hread, hends⟩
  rw [LogReader.size, LogReader.new, List.length_nil, Nat.zero_add]
  exact Nat.lt_succ_self _

end Lpad
