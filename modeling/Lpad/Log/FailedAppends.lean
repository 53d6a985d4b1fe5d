import Lpad.Log.RoundTrip

/-!
# A log that is used after an error

A writer is called again and again, and each `Append` may fail after a part of its bytes.
The records that were acknowledged should be in the log. They are as long as nothing is
written after an `Append` that failed: the writer does not take back what a failed call
has left in the file, and counts the bytes that are not there.
-/

namespace Lpad

variable {crc : Bytes → BitVec 32}

/-- A call of `AddRecord` and what the environment answers during it. -/
structure AddCall where
  slice : Bytes
  io : Nat → FragmentResults

/-- The writer after some calls, and the records for which `AddRecord` returned `OK`. -/
def LogWriter.addCalls (crc : Bytes → BitVec 32) : LogWriter → List AddCall → LogWriter × List Bytes
  | w, [] => (w, [])
  | w, c :: cs =>
    let (s, w) := w.addRecord crc c.io c.slice
    let (w, acknowledged) := w.addCalls crc cs
    (w, if s.isOk then c.slice :: acknowledged else acknowledged)

/-- The records among the events of a reader. -/
def returnedRecords (events : List LogEvent) : List Bytes :=
  events.filterMap fun
    | .record data => some data
    | .drop _ => none

/-- **Acknowledged records survive**: a reader of the file returns them, in order. -/
def Survive (crc : Bytes → BitVec 32) (calls : List AddCall) : Prop :=
  (LogWriter.new.addCalls crc calls).2.Sublist
    (returnedRecords (readLog crc (LogWriter.new.addCalls crc calls).1.file))

/-! ## A torn record hides the ones after it -/

/-- A header is in the file and its payload is not. As long as less is written after it than
the payload has, the reader finds nothing. -/
theorem readLog_torn {f : Fragment} {more : Bytes} (hmore : more.length < f.payload.length)
    (hfits : kHeaderSize + f.payload.length ≤ kBlockSize) :
    readLog crc (f.header crc ++ more) = [] := by
  have hat : (LogReader.new (f.header crc ++ more)).refill.At 0 (f.header crc ++ more) :=
    LogReader.At.refill_trailer (LogReader.at_new _)
  have hread := hat.read_torn (List.prefix_append _ _)
    (by rw [List.length_append, f.header_length]; omega) (by omega)
  rw [LogReader.readPhysicalRecord_refill] at hread
  rw [readLog, LogReader.readAll, LogReader.readRecord, LogReader.readRecordLoop_eof hread]
  rfl

/-- A record that fits the current block is one fragment. -/
theorem LogWriter.addRecord_of_fits {w : LogWriter} {slice : Bytes}
    (hfits : w.blockOffset + kHeaderSize + slice.length ≤ kBlockSize)
    (io : Nat → FragmentResults) :
    w.addRecord crc io slice = w.emitPhysicalRecord crc (io 0) ⟨.kFullType, slice⟩ := by
  have hswitch : w.switchBlock (io 0) = w := if_neg (by omega)
  have havail : slice.length ≤ kBlockSize - w.blockOffset - kHeaderSize := by omega
  rw [addRecord, addRecordLoop, hswitch]
  dsimp only
  rw [List.take_of_length_le havail, List.drop_eq_nil_of_le havail,
    if_neg (fun h => Nat.lt_irrefl 0 h.2)]
  rfl

/-- The header is written and nothing of the payload. -/
def noPayload : FragmentResults := ⟨.done, .done, .failed 0 "no space", .ok⟩

/-- The payload of the first record is not written, and the second call succeeds. -/
def tornThenWhole : List AddCall :=
  [⟨List.replicate 10 1, fun _ => noPayload⟩, ⟨[9], fun _ => .done⟩]

theorem tornThenWhole_calls (crc : Bytes → BitVec 32) :
    LogWriter.new.addCalls crc tornThenWhole =
      (⟨(⟨.kFullType, List.replicate 10 1⟩ : Fragment).header crc ++
        (⟨.kFullType, [9]⟩ : Fragment).bytes crc, 25⟩, [[9]]) := by
  have hfirst : LogWriter.new.addRecord crc (fun _ => noPayload) (List.replicate 10 1) =
      (.ioError "no space", ⟨(⟨.kFullType, List.replicate 10 1⟩ : Fragment).header crc, 17⟩) := by
    have hroom : LogWriter.new.blockOffset + kHeaderSize + (List.replicate 10 (1 : Byte)).length ≤
        kBlockSize := by decide
    rw [LogWriter.addRecord_of_fits hroom]
    have hfile : ∀ file : Bytes, [] ++ file ++ [] = file := fun file => List.append_nil file
    exact congrArg (fun file => (Status.ioError "no space", (⟨file, 17⟩ : LogWriter))) (hfile _)
  have hsecond : ∀ file, (⟨file, 17⟩ : LogWriter).addRecord crc (fun _ => .done) [9] =
      (.ok, ⟨file ++ (⟨.kFullType, [9]⟩ : Fragment).header crc ++ [9], 25⟩) := by
    intro file
    have hroom : 17 + kHeaderSize + [(9 : Byte)].length ≤ kBlockSize := by decide
    exact LogWriter.addRecord_of_fits
      (show (⟨file, 17⟩ : LogWriter).blockOffset + _ + _ ≤ _ from hroom) _
  rw [tornThenWhole, LogWriter.addCalls, hfirst]
  dsimp only
  rw [LogWriter.addCalls, hsecond]
  dsimp only
  rw [List.append_assoc]
  rfl

/-- The reader waits for the ten bytes of the first record and takes the second one for the
beginning of them. -/
theorem tornThenWhole_lost :
    tornThenWhole.length = 2 ∧ ∀ crc : Bytes → BitVec 32,
      (LogWriter.new.addCalls crc tornThenWhole).2 = [[9]] ∧
        readLog crc (LogWriter.new.addCalls crc tornThenWhole).1.file = [] ∧
        ¬ Survive crc tornThenWhole := by
  refine ⟨rfl, fun crc => ?_⟩
  have hread : readLog crc (LogWriter.new.addCalls crc tornThenWhole).1.file = [] := by
    rw [tornThenWhole_calls]
    exact readLog_torn (by rw [Fragment.bytes_length]; decide) (by decide)
  have hacknowledged : (LogWriter.new.addCalls crc tornThenWhole).2 = [[9]] := by
    rw [tornThenWhole_calls]
  refine ⟨hacknowledged, hread, ?_⟩
  unfold Survive
  rw [hacknowledged, hread]
  intro h
  cases h

/-! ## Nothing is written after an error -/

/-- No `Append` and no `Flush` fails before the last call, and no `Append` of a trailer, whose
status `AddRecord` does not look at, fails in it. -/
def Undamaged (calls : List AddCall) : Prop :=
  (∀ c ∈ calls.dropLast, ∀ i, c.io i = .done) ∧ ∀ c ∈ calls, ∀ i, (c.io i).trailer = .done

theorem Undamaged.take {calls : List AddCall} (h : Undamaged calls) (n : Nat) :
    Undamaged (calls.take n) := by
  refine ⟨fun c hc => h.1 c ?_, fun c hc => h.2 c (List.mem_of_mem_take hc)⟩
  rw [List.dropLast_eq_take, List.take_take, List.length_take] at hc
  rw [List.dropLast_eq_take]
  exact (List.take_subset_take_left calls (by omega)) hc

/-- The calls but the last, without errors. -/
theorem LogWriter.addCalls_done {calls : List AddCall} (h : ∀ c ∈ calls, ∀ i, c.io i = .done)
    (w : LogWriter) :
    w.addCalls crc calls =
      (w.addRecords crc (calls.map AddCall.slice), calls.map AddCall.slice) := by
  induction calls generalizing w with
  | nil => rfl
  | cons c cs ih =>
    have hio : c.io = fun _ => .done := funext (h c List.mem_cons_self)
    have hok : (w.addRecord crc (fun _ => .done) c.slice).1 = .ok := addRecordLoop_done _ _ _ _ _
    rw [addCalls, hio]
    dsimp only
    rw [ih fun c hc => h c (List.mem_cons_of_mem _ hc), hok]
    rfl

theorem LogWriter.addCalls_snoc (calls : List AddCall) (c : AddCall) (w : LogWriter) :
    w.addCalls crc (calls ++ [c]) =
      (((w.addCalls crc calls).1.addRecord crc c.io c.slice).2,
        (w.addCalls crc calls).2 ++
          if ((w.addCalls crc calls).1.addRecord crc c.io c.slice).1.isOk
          then [c.slice] else []) := by
  induction calls generalizing w with
  | nil => rfl
  | cons c' cs ih =>
    rw [List.cons_append, addCalls, addCalls]
    dsimp only
    rw [ih]
    dsimp only
    split <;> rfl

theorem returnedRecords_map (rs : List (Bytes × Bytes)) :
    returnedRecords (rs.map fun x => .record x.1) = rs.map Prod.fst := by
  induction rs with
  | nil => rfl
  | cons x rs ih => exact congrArg (x.1 :: ·) ih

/-- In a log of `rs` and a beginning of one more record, the reader finds all of `rs`, and
the last record if it is complete. -/
theorem readLog_last {rs : List (Bytes × Bytes)} {off' : Nat} {slice bytes p : Bytes}
    (hrecorded : Recorded crc 0 (rs ++ [(slice, bytes)]) off') (hp : p <+: bytes) :
    ∃ k, rs.length ≤ k ∧ (p = bytes → rs.length < k) ∧
      returnedRecords (readLog crc (recordedBytes rs ++ p)) =
        ((rs ++ [(slice, bytes)]).take k).map Prod.fst := by
  have hbytes : recordedBytes (rs ++ [(slice, bytes)]) = recordedBytes rs ++ bytes := by
    rw [recordedBytes_append]
    exact congrArg (recordedBytes rs ++ ·) (List.append_nil bytes)
  have hfile : recordedBytes rs ++ p <+: recordedBytes (rs ++ [(slice, bytes)]) := by
    rw [hbytes]
    exact (List.prefix_append_right_inj _).mpr hp
  obtain ⟨k, -, hread, hiff⟩ := readLog_of_prefix hrecorded hfile
  rw [List.length_append, List.length_singleton] at hiff
  refine ⟨k, ?_, ?_, by rw [hread, returnedRecords_map]⟩
  · -- the last record of `rs` ends before the one more
    obtain hzero | hpos := Nat.eq_zero_or_pos rs.length
    · omega
    have hlast := (hiff (rs.length - 1) (by omega)).mpr (by
      rw [Nat.sub_add_cancel hpos, List.take_left, List.length_append]
      exact Nat.le_add_right _ _)
    omega
  · intro hall
    refine (hiff rs.length (by omega)).mpr ?_
    rw [List.take_of_length_le (by rw [List.length_append, List.length_singleton]), hbytes, hall]

/-- **Acknowledged records survive if nothing is written after an error.** -/
theorem survive_of_undamaged {calls : List AddCall} (h : Undamaged calls) : Survive crc calls := by
  obtain rfl | ⟨cs, c, rfl⟩ := List.eq_nil_or_concat calls
  · exact List.nil_sublist _
  rw [List.concat_eq_append] at h ⊢
  obtain ⟨hdone, htrailer⟩ := h
  rw [List.dropLast_concat] at hdone
  obtain ⟨rs, hholds, hslices, -⟩ := LogWriter.addRecords_holds crc (cs.map AddCall.slice)
  obtain ⟨bytes, ⟨off', hrecorded⟩, ⟨p, hp, hfile⟩, hok⟩ :=
    hholds.addRecord c.io (htrailer c (by simp)) c.slice
  obtain ⟨k, hk, hlast, hread⟩ := readLog_last hrecorded hp
  unfold Survive
  rw [LogWriter.addCalls_snoc, LogWriter.addCalls_done hdone]
  dsimp only
  rw [hfile, hread]
  split
  · -- the last call succeeded, so its record is complete
    rename_i hstatus
    have hcomplete := (hok hstatus).file_eq
    rw [hfile, recordedBytes_append] at hcomplete
    have hall : p = bytes := by
      rw [List.append_cancel_left hcomplete]
      exact List.append_nil bytes
    have hwhole : (rs ++ [(c.slice, bytes)]).length ≤ k := by
      rw [List.length_append, List.length_singleton]
      exact hlast hall
    rw [List.take_of_length_le hwhole, List.map_append, hslices]
    exact List.Sublist.refl _
  · rw [← hslices, List.append_nil, List.take_append, List.take_of_length_le hk, List.map_append]
    exact List.sublist_append_left _ _

/-- The same in every state of such a run. -/
theorem undamaged_survives {calls : List AddCall} (h : Undamaged calls) (n : Nat) :
    Survive crc (calls.take n) := survive_of_undamaged (h.take n)

theorem undamaged_survives_torn :
    Undamaged [⟨[9], fun _ => .done⟩, ⟨List.replicate 10 1, fun _ => noPayload⟩] ∧
      Survive (fun _ => 0)
        ([⟨[9], fun _ => .done⟩, ⟨List.replicate 10 1, fun _ => noPayload⟩].take 2) := by
  have hundamaged :
      Undamaged [⟨[9], fun _ => .done⟩, ⟨List.replicate 10 1, fun _ => noPayload⟩] := by
    refine ⟨fun c hc i => ?_, fun c hc i => ?_⟩
    · rw [List.mem_singleton.mp hc]
    · rcases List.mem_cons.mp hc with rfl | hc
      · rfl
      · rw [List.mem_singleton.mp hc]
        rfl
  exact ⟨hundamaged, undamaged_survives hundamaged 2⟩

end Lpad
