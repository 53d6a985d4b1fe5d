import Lpad.DB.BuilderReplay
import Lpad.DB.EditCoding
import Lpad.Log.RoundTrip

/-!
# The manifest

The descriptor log of a version set. The first `LogAndApply` creates it with a snapshot of
the current version, and every call appends its edit. `VersionSet::Recover` reads the edits
back from the bytes of the file and gets the version that was current in memory.
-/

namespace Lpad

/-! ## Writing -/

/-- `BytewiseComparatorImpl::Name` -/
def comparatorName : Bytes :=
  "leveldb.BytewiseComparator".toList.map fun c => UInt8.ofNat c.toNat

/-- A version set and `descriptor_log_`, which is `NULL` before the first call. -/
structure Descriptor where
  versions : VersionSet
  log : Option LogWriter

/-- A call of `LogAndApply`, with the numbers that the version set has by then:
`NewFileNumber` and `SetLastSequence` change them between the calls. -/
structure LogAndApplyCall where
  nextFileNumber : Nat
  lastSequence : Nat
  edit : VersionEdit

def VersionSet.renumber (vs : VersionSet) (c : LogAndApplyCall) : VersionSet :=
  { vs with nextFileNumber := c.nextFileNumber, lastSequence := c.lastSequence }

/-- The record of `WriteSnapshot`. The builder has set the compaction pointers before it. -/
def VersionSet.snapshotRecord (vs : VersionSet) (edit : VersionEdit) : ManifestRecord :=
  ⟨some comparatorName, (vs.setCompactPointers edit.compactPointers).writeSnapshot⟩

/-- `VersionSet::LogAndApply` that succeeds, with what it writes to the manifest. -/
def Descriptor.logAndApply (crc : Bytes → BitVec 32) (d : Descriptor) (c : LogAndApplyCall) :
    Descriptor :=
  let vs := d.versions.renumber c
  let edit := vs.completeEdit c.edit
  let log :=
    match d.log with
    | some w => w
    | none => (LogWriter.new.addRecord crc (fun _ => .done) (vs.snapshotRecord edit).encodeTo).2
  ⟨(vs.logAndApply c.edit .ok).2,
    some (log.addRecord crc (fun _ => .done) (ManifestRecord.encodeTo ⟨none, edit⟩)).2⟩

/-! ## Reading -/

/-- Bytes as the text of a message. -/
def bytesText (bs : Bytes) : String := String.ofList (bs.map fun b => Char.ofNat b.toNat)

/-- What the loop of `Recover` does with a record of the reader or with a report to
`LogReporter`: the status and the edits read so far. -/
def manifestEvent (acc : Status × List VersionEdit) : LogEvent → Status × List VersionEdit
  | .drop d => if acc.1.isOk then (d.reason, acc.2) else acc
  | .record data =>
    if acc.1.isOk then
      match decodeFrom data with
      | .error s => (s, acc.2)
      | .ok r =>
        match r.comparator with
        | some name =>
          if name = comparatorName then (.ok, acc.2 ++ [r.edit])
          else (.invalidArgument (bytesText name ++ " does not match existing comparator : "
            ++ bytesText comparatorName), acc.2)
        | none => (.ok, acc.2 ++ [r.edit])
    else acc

/-- `VersionSet::Recover` on the bytes of the manifest. -/
def recoverManifest (crc : Bytes → BitVec 32) (contents : Bytes) : Except Status VersionSet :=
  let (s, edits) := (readLog crc contents).foldl manifestEvent (.ok, [])
  if s.isOk then VersionSet.recover edits else .error s

/-! ## The calls -/

namespace VersionSet

/-- The version set after some calls. -/
def afterCalls (vs : VersionSet) (calls : List LogAndApplyCall) : VersionSet :=
  calls.foldl (fun vs c => ((vs.renumber c).logAndApply c.edit .ok).2) vs

/-- The edits that the calls write. -/
def completedEdits : VersionSet → List LogAndApplyCall → List VersionEdit
  | _, [] => []
  | vs, c :: cs =>
    (vs.renumber c).completeEdit c.edit ::
      completedEdits ((vs.renumber c).logAndApply c.edit .ok).2 cs

/-- Levels and numbers of all files of the history, those of the first version included. -/
def allAdds (vs : VersionSet) (calls : List LogAndApplyCall) : List (Nat × Nat) :=
  vs.writeSnapshot.adds ++ calls.flatMap fun c => c.edit.adds

end VersionSet

/-- The records of the manifest. -/
def manifestRecords (vs : VersionSet) (c : LogAndApplyCall) (cs : List LogAndApplyCall) :
    List ManifestRecord :=
  (vs.renumber c).snapshotRecord c.edit ::
    (vs.completedEdits (c :: cs)).map fun edit => ⟨none, edit⟩

variable {crc : Bytes → BitVec 32}

namespace VersionSet

theorem afterCalls_cons (vs : VersionSet) (c : LogAndApplyCall) (cs : List LogAndApplyCall) :
    vs.afterCalls (c :: cs) = ((vs.renumber c).logAndApply c.edit .ok).2.afterCalls cs := rfl

theorem completedEdits_cons (vs : VersionSet) (c : LogAndApplyCall) (cs : List LogAndApplyCall) :
    vs.completedEdits (c :: cs) = (vs.renumber c).completeEdit c.edit ::
      ((vs.renumber c).logAndApply c.edit .ok).2.completedEdits cs := rfl

end VersionSet

/-- Further calls append their edits. -/
theorem Descriptor.logAndApply_append (w : LogWriter) (vs : VersionSet)
    (cs : List LogAndApplyCall) :
    cs.foldl (Descriptor.logAndApply crc) ⟨vs, some w⟩ =
      ⟨vs.afterCalls cs, some (w.addRecords crc
        (((vs.completedEdits cs).map fun edit => ⟨none, edit⟩).map ManifestRecord.encodeTo))⟩ := by
  induction cs generalizing w vs with
  | nil => rfl
  | cons c cs ih =>
    rw [List.foldl_cons, Descriptor.logAndApply]
    dsimp only
    rw [ih, VersionSet.afterCalls_cons, VersionSet.completedEdits_cons, List.map_cons,
      List.map_cons, LogWriter.addRecords_cons]

/-- **The manifest of a history**: the snapshot, and the edits in order. -/
theorem Descriptor.logAndApply_calls (vs : VersionSet) (c : LogAndApplyCall)
    (cs : List LogAndApplyCall) :
    (c :: cs).foldl (Descriptor.logAndApply crc) ⟨vs, none⟩ =
      ⟨vs.afterCalls (c :: cs), some (LogWriter.new.addRecords crc
        ((manifestRecords vs c cs).map ManifestRecord.encodeTo))⟩ := by
  have hsnapshot : (vs.renumber c).snapshotRecord ((vs.renumber c).completeEdit c.edit) =
      (vs.renumber c).snapshotRecord c.edit := rfl
  rw [List.foldl_cons, Descriptor.logAndApply]
  dsimp only
  rw [Descriptor.logAndApply_append, manifestRecords, VersionSet.afterCalls_cons,
    VersionSet.completedEdits_cons, List.map_cons, List.map_cons, List.map_cons,
    LogWriter.addRecords_cons, LogWriter.addRecords_cons, hsnapshot]

/-- A log that was not cut off is read as a whole. -/
theorem readLog_addRecords (crc : Bytes → BitVec 32) (slices : List Bytes) :
    readLog crc (LogWriter.new.addRecords crc slices).file = slices.map .record := by
  obtain ⟨k, hk, hread, hiff⟩ := readLog_truncated crc slices
    (LogWriter.new.addRecords crc slices).file.length
  rw [List.take_length] at hread
  have hall : slices.length ≤ k := by
    obtain hzero | hpos := Nat.eq_zero_or_pos slices.length
    · omega
    have hlast := (hiff (slices.length - 1) (by omega)).mpr (by
      rw [Nat.sub_add_cancel hpos, List.take_length])
    omega
  rw [hread, List.take_of_length_le hall]

/-! ## The edits that are read -/

/-- The comparator of a record, if it has one, is ours. -/
def ManifestRecord.Ours (r : ManifestRecord) : Prop :=
  r.comparator = none ∨ r.comparator = some comparatorName

theorem foldl_manifestEvent {records : List ManifestRecord}
    (hfits : ∀ r ∈ records, r.Fits) (hours : ∀ r ∈ records, r.Ours) (edits : List VersionEdit) :
    ∃ edits', List.Forall₂ SameEdit (records.map ManifestRecord.edit) edits' ∧
      ((records.map ManifestRecord.encodeTo).map LogEvent.record).foldl manifestEvent
        (.ok, edits) = (.ok, edits ++ edits') := by
  induction records generalizing edits with
  | nil => exact ⟨[], .nil, by rw [List.append_nil]; rfl⟩
  | cons r records ih =>
    obtain ⟨deleted, hmem, hdecode⟩ :=
      ManifestRecord.decodeFrom_encodeTo (hfits r List.mem_cons_self)
    obtain ⟨edits', hsame, hfold⟩ := ih (fun x hx => hfits x (List.mem_cons_of_mem _ hx))
      (fun x hx => hours x (List.mem_cons_of_mem _ hx))
      (edits ++ [{ r.edit with deletedFiles := deleted }])
    have hstep : manifestEvent (.ok, edits) (.record r.encodeTo) =
        (.ok, edits ++ [{ r.edit with deletedFiles := deleted }]) := by
      unfold manifestEvent
      dsimp only
      rw [hdecode]
      dsimp only
      rcases hours r List.mem_cons_self with hnone | hname
      · rw [hnone]
        rfl
      · rw [hname]
        exact (if_pos rfl).trans (if_pos rfl)
    refine ⟨{ r.edit with deletedFiles := deleted } :: edits',
      .cons ⟨deleted, hmem, rfl⟩ hsame, ?_⟩
    rw [List.map_cons, List.map_cons, List.foldl_cons, hstep, hfold, List.append_assoc]
    rfl

/-- `Recover` on the manifest of a history goes over edits that are the written ones. -/
theorem recoverManifest_eq (crc : Bytes → BitVec 32) {vs : VersionSet} {c : LogAndApplyCall}
    {cs : List LogAndApplyCall}
    (hfits : ∀ r ∈ manifestRecords vs c cs, r.Fits) :
    ∃ edits, List.Forall₂ SameEdit ((manifestRecords vs c cs).map ManifestRecord.edit) edits ∧
      recoverManifest crc (LogWriter.new.addRecords crc
        ((manifestRecords vs c cs).map ManifestRecord.encodeTo)).file =
          VersionSet.recover edits := by
  have hours : ∀ r ∈ manifestRecords vs c cs, r.Ours := by
    intro r hr
    rcases List.mem_cons.mp hr with rfl | hr
    · exact Or.inr rfl
    · obtain ⟨edit, -, rfl⟩ := List.mem_map.mp hr
      exact Or.inl rfl
  obtain ⟨edits, hsame, hfold⟩ := foldl_manifestEvent hfits hours []
  refine ⟨edits, hsame, ?_⟩
  rw [recoverManifest, readLog_addRecords, hfold]
  rfl

/-! ## The numbers -/

/-- The last value of a field that every call records. -/
theorem latest_completedEdits (field : VersionEdit → Option Nat) (value : VersionSet → Nat)
    (hset : ∀ (edit : VersionEdit) deleted,
      field { edit with deletedFiles := deleted } = field edit)
    (hwritten : ∀ (vs : VersionSet) (c : LogAndApplyCall),
      field ((vs.renumber c).completeEdit c.edit) =
        some (value ((vs.renumber c).logAndApply c.edit .ok).2))
    {vs : VersionSet} {calls : List LogAndApplyCall} (hne : calls ≠ []) {edits : List VersionEdit}
    (hsame : List.Forall₂ SameEdit (vs.completedEdits calls) edits) (n : Option Nat) :
    edits.foldl (fun n edit => (field edit).or n) n = some (value (vs.afterCalls calls)) := by
  induction calls generalizing vs edits n with
  | nil => exact absurd rfl hne
  | cons c cs ih =>
    rw [VersionSet.completedEdits_cons] at hsame
    cases hsame with
    | @cons _ edit' _ rest hhead htail =>
      obtain ⟨deleted, -, rfl⟩ := hhead
      rw [List.foldl_cons, VersionSet.afterCalls_cons, hset, hwritten, Option.some_or]
      cases cs with
      | nil =>
        cases htail
        rfl
      | cons c' cs => exact ih (List.cons_ne_nil _ _) htail _

/-! ## The files -/

/-- Every level is in the order of `BySmallestKey`, and there are no others than the levels
of the configuration. -/
structure Version.KeyOrdered (v : Version) : Prop where
  ordered : ∀ level, FilesOrdered (v.files level)
  levels : ∀ level, kNumLevels ≤ level → v.files level = []

theorem Version.empty_keyOrdered : Version.empty.KeyOrdered :=
  ⟨fun _ => List.Pairwise.nil, fun _ _ => rfl⟩

theorem VersionSet.mem_snapshot {vs : VersionSet} {level : Nat} {f : FileMetaData} :
    f ∈ vs.writeSnapshot.filesFor level ↔ level < kNumLevels ∧ f ∈ vs.current.files level := by
  rw [VersionEdit.mem_filesFor]
  unfold writeSnapshot
  simp

/-- The builder that has read the snapshot. -/
theorem Builder.Tracks.snapshot {vs : VersionSet} {edit : VersionEdit} (h : vs.current.KeyOrdered)
    (hnodup : vs.writeSnapshot.adds.Nodup) (hsame : SameEdit vs.writeSnapshot edit) :
    (Builder.new.apply edit).Tracks vs.current vs.writeSnapshot.adds := by
  have htracks := Builder.Tracks.start.apply hnodup hsame
  rw [List.nil_append] at htracks
  have hfiles : ∀ level, ((Builder.new.apply vs.writeSnapshot).saveTo Version.empty).files level =
      vs.current.files level := by
    intro level
    refine FilesOrdered.ext (htracks.ordered level) (h.ordered level) fun f => ?_
    -- a snapshot deletes nothing, so all of its files are saved
    rw [Builder.mem_saveTo_new hnodup rfl, VersionSet.mem_snapshot]
    by_cases hlevel : level < kNumLevels
    · simp only [hlevel, true_and]
    · rw [h.levels level (Nat.le_of_not_lt hlevel)]
      simp only [hlevel, false_and, List.not_mem_nil]
  refine ⟨htracks.addedOrdered, h.ordered, fun level f => ?_, htracks.numbers⟩
  rw [← hfiles]
  exact htracks.mem_iff level f

/-- **All calls.** -/
theorem Builder.Tracks.calls {b : Builder} {vs : VersionSet} {adds : List (Nat × Nat)}
    {calls : List LogAndApplyCall} {edits : List VersionEdit} (h : b.Tracks vs.current adds)
    (hnodup : (adds ++ calls.flatMap fun c => c.edit.adds).Nodup)
    (hsame : List.Forall₂ SameEdit (vs.completedEdits calls) edits) :
    (edits.foldl Builder.apply b).Tracks (vs.afterCalls calls).current
      (adds ++ calls.flatMap fun c => c.edit.adds) := by
  induction calls generalizing b vs adds edits with
  | nil =>
    cases hsame
    rw [List.flatMap_nil, List.append_nil]
    exact h
  | cons c cs ih =>
    rw [VersionSet.completedEdits_cons] at hsame
    rw [List.flatMap_cons, ← List.append_assoc] at hnodup ⊢
    cases hsame with
    | cons hhead htail =>
      have hone : (adds ++ ((vs.renumber c).completeEdit c.edit).adds).Nodup :=
        (List.nodup_append.mp hnodup).1
      rw [List.foldl_cons, VersionSet.afterCalls_cons]
      exact ih (h.apply hone hhead) hnodup htail

/-! ## Recovery -/

/-- `Recover` on the edits as they were read back. -/
theorem VersionSet.recover_calls {vs : VersionSet} {c : LogAndApplyCall}
    {cs : List LogAndApplyCall} (hvs : vs.current.KeyOrdered)
    (hnodup : (vs.allAdds (c :: cs)).Nodup)
    {edits : List VersionEdit}
    (hsame : List.Forall₂ SameEdit ((manifestRecords vs c cs).map ManifestRecord.edit) edits) :
    ∃ r, VersionSet.recover edits = .ok r ∧
      (∀ level, r.current.files level = (vs.afterCalls (c :: cs)).current.files level) ∧
      r.logNumber = (vs.afterCalls (c :: cs)).logNumber ∧
      r.prevLogNumber = (vs.afterCalls (c :: cs)).prevLogNumber ∧
      r.lastSequence = (vs.afterCalls (c :: cs)).lastSequence ∧
      r.nextFileNumber = (vs.afterCalls (c :: cs)).nextFileNumber + 1 ∧
      ∀ level, ∀ f ∈ r.current.files level, (level, f.number) ∈ vs.allAdds (c :: cs) := by
  have hedits : ((manifestRecords vs c cs).map ManifestRecord.edit) =
      ((vs.renumber c).setCompactPointers c.edit.compactPointers).writeSnapshot ::
        vs.completedEdits (c :: cs) := by
    rw [manifestRecords, List.map_cons, List.map_map]
    exact congrArg _ (List.map_id _)
  rw [hedits] at hsame
  cases hsame with
  | @cons _ snapshot _ rest hsnapshot hrest =>
    have hne : c :: cs ≠ [] := List.cons_ne_nil _ _
    -- numbers and pointers do not matter for the files of the snapshot
    have hstart : (Builder.new.apply snapshot).Tracks vs.current vs.writeSnapshot.adds := by
      generalize hvs' : (vs.renumber c).setCompactPointers c.edit.compactPointers = vs'
        at hsnapshot
      have hcurrent : vs'.current = vs.current := by rw [← hvs']; rfl
      have hadds : vs'.writeSnapshot.adds = vs.writeSnapshot.adds := by rw [← hvs']; rfl
      rw [← hcurrent, ← hadds]
      exact Builder.Tracks.snapshot (hcurrent ▸ hvs)
        (hadds ▸ (List.nodup_append.mp hnodup).1) hsnapshot
    have htracks := hstart.calls hnodup hrest
    have hfiles := htracks.saveTo_empty
    have hlog := latest_completedEdits VersionEdit.logNumber VersionSet.logNumber
      (fun _ _ => rfl) (fun _ _ => rfl) hne hrest
    have hprev := latest_completedEdits VersionEdit.prevLogNumber VersionSet.prevLogNumber
      (fun _ _ => rfl) (fun _ _ => rfl) hne hrest
    have hnext := latest_completedEdits VersionEdit.nextFileNumber VersionSet.nextFileNumber
      (fun _ _ => rfl) (fun _ _ => rfl) hne hrest
    have hlast := latest_completedEdits VersionEdit.lastSequence VersionSet.lastSequence
      (fun _ _ => rfl) (fun _ _ => rfl) hne hrest
    unfold VersionSet.recover latest
    simp only [List.foldl_cons, hlog, hprev, hnext, hlast]
    refine ⟨_, rfl, hfiles, rfl, rfl, rfl, rfl, fun level f hf => ?_⟩
    have hf' : f ∈ (vs.afterCalls (c :: cs)).current.files level := hfiles level ▸ hf
    exact htracks.numbers level f ((htracks.mem_iff level f).mp hf').1

/-- What `Recover` finds in the manifest of a history. -/
theorem recoverManifest_calls (crc : Bytes → BitVec 32) {vs : VersionSet} {c : LogAndApplyCall}
    {cs : List LogAndApplyCall} (hvs : vs.current.KeyOrdered)
    (hnodup : (vs.allAdds (c :: cs)).Nodup) (hfits : ∀ r ∈ manifestRecords vs c cs, r.Fits) :
    ∃ w r, (c :: cs).foldl (Descriptor.logAndApply crc) ⟨vs, none⟩ =
        ⟨vs.afterCalls (c :: cs), some w⟩ ∧
      recoverManifest crc w.file = .ok r ∧
      (∀ level, r.current.files level = (vs.afterCalls (c :: cs)).current.files level) ∧
      r.logNumber = (vs.afterCalls (c :: cs)).logNumber ∧
      r.prevLogNumber = (vs.afterCalls (c :: cs)).prevLogNumber ∧
      r.lastSequence = (vs.afterCalls (c :: cs)).lastSequence ∧
      r.nextFileNumber = (vs.afterCalls (c :: cs)).nextFileNumber + 1 ∧
      ∀ level, ∀ f ∈ r.current.files level, (level, f.number) ∈ vs.allAdds (c :: cs) := by
  obtain ⟨edits, hsame, hrecover⟩ := recoverManifest_eq crc hfits
  obtain ⟨r, hr, hrest⟩ := VersionSet.recover_calls hvs hnodup hsame
  exact ⟨_, r, Descriptor.logAndApply_calls vs c cs, hrecover.trans hr, hrest⟩

/-- **The manifest reproduces the version.** After any number of calls, `Recover` finds the
files of the current version at every level, in the same order, and the numbers that were
recorded last. No file has the next file number or one above it, if the numbers that the
history adds are not above the next file number of the last call. That number has to have a
successor in 64 bits, which is the next file number then. -/
theorem recoverManifest_reproduces (crc : Bytes → BitVec 32) {vs : VersionSet}
    {c : LogAndApplyCall} {cs : List LogAndApplyCall} (hvs : vs.current.KeyOrdered)
    (hnodup : (vs.allAdds (c :: cs)).Nodup) (hfits : ∀ r ∈ manifestRecords vs c cs, r.Fits)
    (hnumbers : ∀ p ∈ vs.allAdds (c :: cs), p.2 ≤ (vs.afterCalls (c :: cs)).nextFileNumber)
    (hroom : (vs.afterCalls (c :: cs)).nextFileNumber < 2 ^ 64 - 1) :
    ∃ w r, (c :: cs).foldl (Descriptor.logAndApply crc) ⟨vs, none⟩ =
        ⟨vs.afterCalls (c :: cs), some w⟩ ∧
      recoverManifest crc w.file = .ok r ∧
      (∀ level, r.current.files level = (vs.afterCalls (c :: cs)).current.files level) ∧
      r.logNumber = (vs.afterCalls (c :: cs)).logNumber ∧
      r.prevLogNumber = (vs.afterCalls (c :: cs)).prevLogNumber ∧
      r.lastSequence = (vs.afterCalls (c :: cs)).lastSequence ∧
      r.nextFileNumber < 2 ^ 64 ∧
      ∀ level, ∀ f ∈ r.current.files level, f.number < r.nextFileNumber := by
  obtain ⟨w, r, hrun, hrecover, hfiles, hlog, hprev, hlast, hnext, hadds⟩ :=
    recoverManifest_calls crc hvs hnodup hfits
  refine ⟨w, r, hrun, hrecover, hfiles, hlog, hprev, hlast, ?_, fun level f hf => ?_⟩
  · exact hnext ▸ Nat.add_lt_of_lt_sub hroom
  · exact hnext ▸ Nat.lt_succ_of_le (hnumbers _ (hadds level f hf))

/-- The first call adds two files to level 0, the second one moves one of them to
level 1. -/
def movedFile : LogAndApplyCall × LogAndApplyCall :=
  (⟨7, 20, { VersionEdit.clear with
      newFiles := [(0, ⟨6, 100, [1, 0, 0, 0, 0, 0, 0, 0, 0], [1, 0, 0, 0, 0, 0, 0, 0, 0]⟩),
        (0, ⟨4, 100, [2, 0, 0, 0, 0, 0, 0, 0, 0], [2, 0, 0, 0, 0, 0, 0, 0, 0]⟩)] }⟩,
    ⟨7, 25, { VersionEdit.clear with
      deletedFiles := [(0, 6)]
      newFiles := [(1, ⟨6, 100, [1, 0, 0, 0, 0, 0, 0, 0, 0], [1, 0, 0, 0, 0, 0, 0, 0, 0]⟩)] }⟩)

theorem recoverManifest_reproduces_moved :
    (VersionSet.init.allAdds [movedFile.1, movedFile.2]).Nodup ∧
      ∃ w r, [movedFile.1, movedFile.2].foldl (Descriptor.logAndApply fun _ => 0)
          ⟨VersionSet.init, none⟩ =
          ⟨VersionSet.init.afterCalls [movedFile.1, movedFile.2], some w⟩ ∧
        recoverManifest (fun _ => 0) w.file = .ok r ∧ r.lastSequence = 25 := by
  have hnodup : (VersionSet.init.allAdds [movedFile.1, movedFile.2]).Nodup := by decide +kernel
  obtain ⟨w, r, hrun, hrecover, -, -, -, hlast, -⟩ :=
    recoverManifest_reproduces (fun _ => 0) Version.empty_keyOrdered hnodup (by decide +kernel)
      (by decide +kernel) (by decide +kernel)
  exact ⟨hnodup, w, r, hrun, hrecover, hlast⟩

/-- A file whose number was not given out by `NewFileNumber`. -/
def foreignFile : LogAndApplyCall :=
  ⟨2, 0, { VersionEdit.clear with
    newFiles := [(0, ⟨9, 100, [1, 0, 0, 0, 0, 0, 0, 0, 0], [1, 0, 0, 0, 0, 0, 0, 0, 0]⟩)] }⟩

/-- The number is in the recovered version, and the next file number is below it. -/
theorem foreignFile_above_next :
    (VersionSet.init.allAdds [foreignFile]).Nodup ∧ ∀ crc : Bytes → BitVec 32,
      ∃ w r, [foreignFile].foldl (Descriptor.logAndApply crc) ⟨VersionSet.init, none⟩ =
          ⟨VersionSet.init.afterCalls [foreignFile], some w⟩ ∧
        recoverManifest crc w.file = .ok r ∧
        ∃ f ∈ r.current.files 0, ¬ f.number < r.nextFileNumber := by
  have hnodup : (VersionSet.init.allAdds [foreignFile]).Nodup := by decide +kernel
  refine ⟨hnodup, fun crc => ?_⟩
  obtain ⟨w, r, hrun, hrecover, hfiles, -, -, -, hnext, -⟩ :=
    recoverManifest_calls crc Version.empty_keyOrdered hnodup (by decide +kernel)
  refine ⟨w, r, hrun, hrecover, ⟨9, 100, [1, 0, 0, 0, 0, 0, 0, 0, 0], [1, 0, 0, 0, 0, 0, 0, 0, 0]⟩,
    ?_, ?_⟩
  · rw [hfiles]
    decide +kernel
  · rw [hnext]
    decide +kernel

end Lpad
