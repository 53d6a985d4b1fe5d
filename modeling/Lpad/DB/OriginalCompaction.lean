import Lpad.DB.MergingIterator
import Lpad.DB.CompactionSpec

/-!
# Compactions without the enclave

`DoCompactionWork` of the build without `VERIFY`: one loop that pulls entries from the
merging iterator over the inputs, applies the drop rule and writes the kept entries.
The drop rule and the handling of output tables are the same code as in
`SU_flush_data`. There are two differences. The drop state is local, so it starts
afresh. And an error, of an output file or of an input iterator, ends the loop and
becomes the status of the compaction.

`doCompactionWork_refines_original` compares the two builds where they are meant to
agree.
-/

namespace Lpad

/-- The answers of the environment that only the original loop asks for. -/
structure LoopAnswers where
  /-- `status()` of an input iterator while these entries are left -/
  midway : Nat → List Record → Status
  /-- `shutting_down_` before the given iteration -/
  shuttingDown : Nat → Bool

/-- `FinishCompactionOutputFile`. It looks at the status of the input first, and abandons
the table if that is an error. -/
def CompactionState.finishOriginalOutputFile (files : Files) (input : Status)
    (st : CompactionState) : Status × CompactionState :=
  match st.builder with
  | none => (.ok, st)
  | some entries =>
    if input.isOk then st.finishOutputFile files
    else
      let bytes := files.fileSize (st.outputs.length - 1) entries
      (input, { st with
        outputs := updateLast (fun out => { out with fileSize := bytes, entries := entries })
          st.outputs
        totalBytes := st.totalBytes + bytes
        builder := none })

/-- `if (ShouldStopBefore(key) && builder != NULL) FinishCompactionOutputFile` -/
def CompactionState.originalStopBefore (files : Files) (input : Status) (st : CompactionState)
    (key : Bytes) : Status × CompactionState :=
  let (stop, c) := st.compaction.shouldStopBefore key
  let st := { st with compaction := c }
  if stop && st.builder.isSome then st.finishOriginalOutputFile files input else (.ok, st)

/-- Close the output file if it is big enough. -/
def CompactionState.originalCloseIfBig (files : Files) (input : Status) (st : CompactionState) :
    Status × CompactionState :=
  if files.fileSize (st.outputs.length - 1) (st.builder.getD [])
      ≥ st.compaction.maxOutputFileSize
  then st.finishOriginalOutputFile files input else (.ok, st)

/-- The body of the loop for one entry: the status is not OK when the loop breaks. -/
def CompactionState.compactEntry (files : Files) (input : Status) (st : CompactionState)
    (d : DropState) (r : Record) : Status × CompactionState × DropState :=
  let (s, st) := st.originalStopBefore files input r.key
  if s.isOk then
    let (drop, d, c) := dropRule d st.compaction st.smallestSnapshot r.key
    let st := { st with compaction := c }
    if drop then (.ok, st, d)
    else
      let (s, st) := st.ensureOpen files
      if s.isOk then
        let (s, st) := (st.add (st.builder.getD []) r).originalCloseIfBig files input
        (s, st, d)
      else (s, st, d)
  else (s, st, d)

/-- `for (; input->Valid() && !shutting_down_; )`: the status, the iterator and the state
when the loop is left; `none` means that the fuel ran out or the iterator did not return. -/
def CompactionState.originalLoop (files : Files) (answers : LoopAnswers) :
    Nat → Nat → MergedInput → CompactionState → DropState →
      Option (Status × MergedInput × CompactionState)
  | 0, _, _, _, _ => none
  | fuel + 1, i, input, st, d =>
    match input.entry with
    | none => some (.ok, input, st)
    | some r =>
      if answers.shuttingDown i then some (.ok, input, st)
      else
        let (s, st, d) := st.compactEntry files input.status d r
        if s.isOk then do
          let input ← mergedInput.move .next input
          originalLoop files answers fuel (i + 1) input st d
        else some (s, input, st)

/-- A finished call of the original `DoCompactionWork`; `compact` has all output tables. -/
structure OriginalWork where
  status : Status
  edit : Option VersionEdit
  versions : VersionSet
  compact : CompactionState

/-- The part of the original `DoCompactionWork` that follows the loop. -/
def CompactionJob.concludeOriginal (job : CompactionJob) (s : Status) (input : MergedInput)
    (st : CompactionState) : OriginalWork :=
  let s := if s.isOk ∧ job.shuttingDown then .ioError "Deleting DB during compaction" else s
  let (s, st) :=
    if s.isOk ∧ st.builder.isSome then st.finishOriginalOutputFile job.files input.status
    else (s, st)
  let s := if s.isOk then input.status else s
  if s.isOk then
    let edit := st.installEdit
    let logged := job.versions.logAndApply edit job.manifest
    ⟨logged.1, some edit, logged.2, st⟩
  else ⟨s, none, job.versions, st⟩

/-- `DBImpl::DoCompactionWork` of the original build. -/
def originalDoCompactionWork (fuel : Nat) (answers : LoopAnswers) (job : CompactionJob) :
    Option OriginalWork := do
  let input ← mergedInput.move .seekToFirst (job.makeInputIterator answers.midway)
  let (s, input, st) ← CompactionState.originalLoop job.files answers fuel 0 input
    (CompactionState.new job.compaction job.smallestSnapshot) DropState.init
  return job.concludeOriginal s input st

/-! ## The loop without errors -/

/-- No iterator fails and nobody shuts the database down. -/
structure LoopAnswers.Calm (answers : LoopAnswers) : Prop where
  midway : ∀ c rest, answers.midway c rest = .ok
  shuttingDown : ∀ i, answers.shuttingDown i = false

/-- The two ways to finish a table agree when the input is all right. -/
theorem CompactionState.finishOriginalOutputFile_ok (files : Files) (st : CompactionState) :
    st.finishOriginalOutputFile files .ok = st.finishOutputFile files := by
  unfold finishOriginalOutputFile finishOutputFile
  cases st.builder <;> rfl

theorem CompactionState.originalStopBefore_ok (files : Files) (st : CompactionState)
    (key : Bytes) : st.originalStopBefore files .ok key = st.stopBefore files key := by
  unfold originalStopBefore stopBefore
  simp only [finishOriginalOutputFile_ok]

theorem CompactionState.originalCloseIfBig_ok (files : Files) (st : CompactionState) :
    st.originalCloseIfBig files .ok = st.closeIfBig files := by
  unfold originalCloseIfBig closeIfBig
  rw [finishOriginalOutputFile_ok]

/-- **One entry.** With a good input the body of the loop is `SU_flush_data`. -/
theorem CompactionState.compactEntry_ok (files : Files) (st : CompactionState) (d : DropState)
    (r : Record) :
    st.compactEntry files .ok d r = ((st.suFlushData files d r).status,
      (st.suFlushData files d r).compact, (st.suFlushData files d r).drop) := by
  unfold compactEntry suFlushData
  rw [originalStopBefore_ok]
  dsimp only
  split
  · split
    · rfl
    · unfold writeRecord
      dsimp only
      split
      · rw [originalCloseIfBig_ok]
      · rfl
  · rfl

/-- **The loop is a run of `SU_flush_data`** over what the iterator yields. The induction
is on the entries. -/
theorem CompactionState.originalLoop_eq {files : Files} (hworks : files.Works)
    {answers : LoopAnswers} (hcalm : answers.Calm) {input : MergedInput} {records : List Record}
    (hyields : MergedInput.Yields input records) : ∀ {fuel : Nat} (i : Nat)
    (st : CompactionState) (d : DropState), records.length < fuel →
    ∃ last, MergedInput.status last = .ok ∧ originalLoop files answers fuel i input st d =
      some (.ok, last, (flushAll files records st d).2.1) := by
  induction hyields with
  | @nil input hentry hstatus =>
    intro fuel i st d hfuel
    obtain ⟨fuel, rfl⟩ := Nat.exists_eq_succ_of_ne_zero (Nat.ne_of_gt hfuel)
    refine ⟨input, hstatus, ?_⟩
    rw [originalLoop, hentry]
    rfl
  | @cons input next r rest hentry hstatus hnext _ ih =>
    intro fuel i st d hfuel
    obtain ⟨fuel, rfl⟩ := Nat.exists_eq_succ_of_ne_zero (Nat.ne_of_gt (Nat.zero_lt_of_lt hfuel))
    have hrest : rest.length < fuel := Nat.lt_of_succ_lt_succ hfuel
    obtain ⟨last, hlast, hloop⟩ := ih (i + 1) (st.suFlushData files d r).compact
      (st.suFlushData files d r).drop hrest
    refine ⟨last, hlast, ?_⟩
    rw [originalLoop, hentry]
    dsimp only
    rw [hcalm.shuttingDown, hstatus, compactEntry_ok, hworks.suFlushData, hnext]
    exact hloop

/-! ## The two builds -/

/-- The compactions that the enclave is made for, with no user key in two channels. -/
structure CompactionJob.Separate (job : CompactionJob) : Prop where
  ways : job.nWays ≤ 10
  keyLength : ∀ c < job.nWays, ∀ r ∈ job.iter c, r.key.length = 24
  value : ∀ c < job.nWays, ∀ r ∈ job.iter c, r.value.length ≤ 100
  userKeys : ∀ c < job.nWays, ∀ d < job.nWays, c ≠ d → ∀ a ∈ job.iter c, ∀ b ∈ job.iter d,
    extractUserKey a.key ≠ extractUserKey b.key

/-- There are no file errors and there is no shutdown. -/
structure CompactionJob.Undisturbed (job : CompactionJob) : Prop where
  files : job.files.Works
  inputs : ∀ input ∈ job.inputs, input.status = .ok
  shuttingDown : job.shuttingDown = false

/-- On keys with different user keys, `memcmp` and the comparator agree. -/
theorem prefix24_lt_iff_rank {a b : Record} (ha : a.key.length = 24) (hb : b.key.length = 24)
    (hne : extractUserKey a.key ≠ extractUserKey b.key) :
    a.prefix24 < b.prefix24 ↔ a.rank < b.rank := by
  have hbytes : ∀ {x y : Record}, x.key.length = 24 → y.key.length = 24 →
      extractUserKey x.key < extractUserKey y.key → x.prefix24 < y.prefix24 := by
    intro x y hx hy hlt
    rw [prefix24_eq hx, prefix24_eq hy, ← memcmp_lt_iff (hx.trans hy.symm)]
    exact memcmp_of_userKey_lt hx hy hlt
  have hrank : ∀ {x y : Record}, extractUserKey x.key < extractUserKey y.key →
      x.rank < y.rank := fun hlt => keyRank_lt_iff.mpr (Or.inl hlt)
  rcases lt_or_gt_of_ne hne with hlt | hgt
  · exact iff_of_true (hbytes ha hb hlt) (hrank hlt)
  · exact iff_of_false (not_lt_of_gt (hbytes hb ha hgt)) (not_lt_of_gt (hrank hgt))

/-- What the enclave flushes is what the merging iterator yields. -/
theorem CompactionJob.Separate.yields {job : CompactionJob} (h : job.Separate)
    (hundisturbed : job.Undisturbed) {answers : LoopAnswers} (hcalm : answers.Calm)
    {picks : List Nat} {out : List Record} (hdraws : Draws job.nWays job.iter picks out)
    (hgreedy : Greedy Record.prefix24 job.nWays job.iter picks) :
    ∃ input, mergedInput.move .seekToFirst (job.makeInputIterator answers.midway) = some input ∧
      MergedInput.Yields input out := by
  refine newMergingIterator_yields ?_ hdraws (hgreedy.congr hdraws.picks_lt ?_)
  · intro c rest
    dsimp only
    split
    · cases hc : job.inputs[c]? with
      | none => rfl
      | some input => exact hundisturbed.inputs input (List.mem_of_getElem? hc)
    · exact hcalm.midway c rest
  · intro c hc d hd hcd x hx y hy
    exact prefix24_lt_iff_rank (h.keyLength c hc x hx) (h.keyLength d hd y hy)
      (h.userKeys c hc d hd hcd x hx y hy)

/-- The two builds also end in the same way. -/
theorem CompactionJob.Undisturbed.conclude_eq {job : CompactionJob} (h : job.Undisturbed)
    {last : MergedInput} (hlast : MergedInput.status last = .ok) (g : Globals) (w : Merge) :
    let original := job.concludeOriginal .ok last (job.flushes g w).2.1
    let work := job.conclude g w
    (work.compact.complete job).2 = original.compact ∧ work.status = original.status ∧
      work.edit = original.edit ∧ work.versions = original.versions := by
  have hcomplete : (job.flushes g w).2.1.complete job =
      if (job.flushes g w).2.1.builder.isSome = true then
        (job.flushes g w).2.1.finishOutputFile job.files
      else (.ok, (job.flushes g w).2.1) := by
    unfold CompactionState.complete
    rw [h.shuttingDown]
    simp [Status.isOk]
  have hdone : ((job.flushes g w).2.1.complete job).1 = .ok := by
    rw [hcomplete]
    split
    · exact h.files.finishOutputFile _
    · rfl
  have horiginal : job.concludeOriginal .ok last (job.flushes g w).2.1 =
      let st := ((job.flushes g w).2.1.complete job).2
      let logged := job.versions.logAndApply st.installEdit job.manifest
      ⟨logged.1, some st.installEdit, logged.2, st⟩ := by
    unfold concludeOriginal
    rw [h.shuttingDown, hlast, CompactionState.finishOriginalOutputFile_ok]
    rw [hcomplete] at hdone ⊢
    simp only [Status.isOk, Bool.false_eq_true, and_false, if_false, true_and] at hdone ⊢
    rw [hdone]
    simp
  dsimp only
  rw [horiginal, conclude_compact]
  unfold conclude
  dsimp only
  rw [hdone]
  exact ⟨rfl, rfl, rfl, rfl⟩

/-- **The enclave compaction refines the original one.** For every compaction with 16-byte
user keys, values of at most 100 bytes, at most 10 channels and no user key in two of
them, from the initial drop state and any clean buffers, without file errors and
without shutdown: both builds return, with the same output tables, the same status, and
the same edit of the version set. -/
theorem doCompactionWork_refines_original {job : CompactionJob} (hseparate : job.Separate)
    (hundisturbed : job.Undisturbed) {arg : GArg} (hclean : arg.Clean) {answers : LoopAnswers}
    (hcalm : answers.Calm) {fuel : Nat} (hfuel : job.recordCount < fuel) :
    ∃ work original, doCompactionWork fuel ⟨arg, DropState.init⟩ job = some work ∧
      originalDoCompactionWork fuel answers job = some original ∧
      (work.compact.complete job).2.outputs = original.compact.outputs ∧
      work.status = original.status ∧ work.edit = original.edit ∧
      work.versions = original.versions := by
  obtain ⟨w, out, hwork, hdraws, hitems, -, hgreedy⟩ :=
    doCompactionWork_spec (g := ⟨arg, DropState.init⟩) hclean hfuel
  have hlong : Comparable job.nWays job.iter :=
    LongKeys.comparable fun c hc r hr => (hseparate.keyLength c hc r hr).ge
  have hflat : w.flushed.flatten = out := by
    refine forall₂_preserved_eq hdraws ?_ hseparate.value hitems
    intro c hc r hr
    rw [hseparate.keyLength c hc r hr]
    decide
  obtain ⟨input, hseek, hyields⟩ :=
    hseparate.yields hundisturbed hcalm hdraws (hgreedy hlong)
  have hlength : out.length < fuel := by
    rw [hdraws.perm.length_eq]
    exact hfuel
  obtain ⟨last, hlast, hloop⟩ := CompactionState.originalLoop_eq hundisturbed.files hcalm hyields
    0 (CompactionState.new job.compaction job.smallestSnapshot) DropState.init hlength
  have hflushes : job.flushes ⟨arg, DropState.init⟩ w = CompactionState.flushAll job.files out
      (CompactionState.new job.compaction job.smallestSnapshot) DropState.init := by
    rw [CompactionJob.flushes, hflat]
  rw [← hflushes] at hloop
  obtain ⟨hcompact, hstatus, hedit, hversions⟩ :=
    hundisturbed.conclude_eq hlast ⟨arg, DropState.init⟩ w
  refine ⟨_, _, hwork, ?_, congrArg CompactionState.outputs hcompact, hstatus, hedit, hversions⟩
  rw [originalDoCompactionWork, hseek, Option.bind_eq_bind, Option.bind_some, hloop]
  rfl

/-! ## Two tables of level 0 -/

/-- A table with one entry of a 16-byte user key that repeats one letter. -/
def letterTable (number : Nat) (letter : Byte) : FileMetaData where
  number := number
  fileSize := 4096
  smallest := appendInternalKey ⟨List.replicate 16 letter, number, .kTypeValue⟩
  largest := appendInternalKey ⟨List.replicate 16 letter, number, .kTypeValue⟩

/-- The tables of `z` and `a` on level 0 are compacted to level 1. -/
def twoLetters : CompactionJob :=
  manualJob
    { VersionSet.init with
      current := ⟨fun level => if level = 0 then [letterTable 3 122, letterTable 4 97] else [],
        none⟩
      lastSequence := 4 }
    0 fun f => ⟨[⟨f.smallest, [1]⟩], .ok⟩

def calmAnswers : LoopAnswers := ⟨fun _ _ => .ok, fun _ => false⟩

theorem doCompactionWork_refines_original_twoLetters :
    ∃ work original, doCompactionWork 3 Globals.init twoLetters = some work ∧
      originalDoCompactionWork 3 calmAnswers twoLetters = some original ∧
      (work.compact.complete twoLetters).2.outputs = original.compact.outputs ∧
      work.status = original.status ∧ work.edit = original.edit ∧
      work.versions = original.versions := by
  have hways : twoLetters.nWays = 2 := by decide
  have hseparate : twoLetters.Separate := by
    refine ⟨by decide, by decide, by decide, ?_⟩
    rw [hways]
    intro c hc d hd
    rcases (by omega : c = 0 ∨ c = 1) with rfl | rfl <;>
      rcases (by omega : d = 0 ∨ d = 1) with rfl | rfl <;> decide
  have hundisturbed : twoLetters.Undisturbed :=
    ⟨Files.working_works _, by decide, rfl⟩
  exact doCompactionWork_refines_original hseparate hundisturbed GArg.init_clean
    ⟨fun _ _ => rfl, fun _ => rfl⟩ (by decide)

end Lpad
