import Lpad.DB.DropIndependence
import Mathlib.Logic.Relation

/-!
# The output tables of a compaction

Everything `SU_flush_data` and the end of `DoCompactionWork` do to the compaction
state is made of elementary changes: the cursors of the compaction move, a table is
finished, an output file cannot be opened, one is opened for a first record, a record
is added to the open table. What each of them keeps, the whole compaction keeps
(`CompactionState.Reaches`).
-/

namespace Lpad

/-! ## Elementary changes -/

/-- A compaction less its cursors. -/
def Compaction.core (c : Compaction) : Compaction :=
  { c with grandparentIndex := 0, seenKey := false, overlappedBytes := 0, levelPtrs := fun _ => 0 }

theorem Compaction.core_eq {c c' : Compaction} (h : c.core = c'.core) :
    c.level = c'.level ∧ c.inputs0 = c'.inputs0 ∧ c.inputs1 = c'.inputs1 ∧ c.edit = c'.edit := by
  simp only [Compaction.core, Compaction.mk.injEq] at h
  exact ⟨h.1, h.2.2.2.2.1, h.2.2.2.2.2.1, h.2.2.2.1⟩

/-- One elementary change of the compaction state. -/
inductive CompactionState.Change (files : Files) (st : CompactionState) :
    CompactionState → Prop where
  | seek {c : Compaction} (same : c.core = st.compaction.core) :
      Change files st { st with compaction := c }
  | finish : Change files st (st.finishOutputFile files).2
  | fail (closed : st.builder = none)
      (refused : ¬ (files.newWritableFile st.outputs.length).isOk = true) :
      Change files st (st.openOutputFile files).2
  | start (closed : st.builder = none)
      (opened : (files.newWritableFile st.outputs.length).isOk = true) (r : Record) :
      Change files st ((st.openOutputFile files).2.add [] r)
  | add {entries : List Record} (opened : st.builder = some entries) (r : Record) :
      Change files st (st.add entries r)

/-- Any number of elementary changes. -/
def CompactionState.Reaches (files : Files) : CompactionState → CompactionState → Prop :=
  Relation.ReflTransGen (Change files)

namespace CompactionState.Reaches

variable {files : Files} {st st' st'' : CompactionState}

theorem refl : Reaches files st st := Relation.ReflTransGen.refl

theorem trans (h : Reaches files st st') (h' : Reaches files st' st'') : Reaches files st st'' :=
  Relation.ReflTransGen.trans h h'

theorem of_change (h : Change files st st') : Reaches files st st' := Relation.ReflTransGen.single h

/-- What every change keeps. -/
theorem invariant {P : CompactionState → Prop}
    (hchange : ∀ st st', P st → Change files st st' → P st') (h : Reaches files st st')
    (hst : P st) : P st' := by
  induction h with
  | refl => exact hst
  | tail _ hlast ih => exact hchange _ _ ih hlast

end CompactionState.Reaches

theorem Compaction.shouldStopBefore_core (c : Compaction) (key : Bytes) :
    (c.shouldStopBefore key).2.core = c.core := by
  unfold shouldStopBefore
  dsimp only
  split <;> rfl

namespace CompactionState

variable (files : Files)

theorem stopBefore_reaches (st : CompactionState) (key : Bytes) :
    Reaches files st (st.stopBefore files key).2 := by
  have hseek : Reaches files st { st with compaction := (st.compaction.shouldStopBefore key).2 } :=
    .of_change (.seek (st.compaction.shouldStopBefore_core key))
  unfold stopBefore
  dsimp only
  split
  · exact hseek.trans (.of_change .finish)
  · exact hseek

theorem writeRecord_reaches (st : CompactionState) (r : Record) :
    Reaches files st (st.writeRecord files r).2.2 := by
  have hclose : ∀ st' : CompactionState, Reaches files st' (st'.closeIfBig files).2 := by
    intro st'
    unfold closeIfBig
    split
    · exact .of_change .finish
    · exact .refl
  unfold writeRecord ensureOpen
  cases hb : st.builder with
  | none =>
    by_cases hok : (files.newWritableFile st.outputs.length).isOk = true
    · have hbuilder : (st.openOutputFile files).2.builder = some [] := by
        unfold openOutputFile
        dsimp only
        rw [if_pos hok]
      simp only [Option.isNone_none, if_true]
      rw [if_pos (show (st.openOutputFile files).1.isOk = true from hok), hbuilder]
      exact (Reaches.of_change (.start hb hok r)).trans (hclose _)
    · simp only [Option.isNone_none, if_true]
      rw [if_neg (show ¬ (st.openOutputFile files).1.isOk = true from hok)]
      exact .of_change (.fail hb hok)
  | some entries =>
    simp only [Option.isNone_some, Bool.false_eq_true, if_false]
    rw [if_pos (show Status.isOk .ok = true from rfl), hb]
    exact (Reaches.of_change (.add hb r)).trans (hclose _)

theorem suFlushData_reaches (st : CompactionState) (d : DropState) (r : Record) :
    Reaches files st (st.suFlushData files d r).compact := by
  have hstop := st.stopBefore_reaches files r.key
  unfold suFlushData
  dsimp only
  split
  · obtain ⟨q, hq, -⟩ := dropRule_compaction d (st.stopBefore files r.key).2.compaction
      (st.stopBefore files r.key).2.smallestSnapshot r.key
    have hdrop : Reaches files st { (st.stopBefore files r.key).2 with
        compaction := (dropRule d (st.stopBefore files r.key).2.compaction
          (st.stopBefore files r.key).2.smallestSnapshot r.key).2.2 } := by
      refine hstop.trans (.of_change (.seek ?_))
      rw [hq]
      rfl
    split
    · exact hdrop
    · exact hdrop.trans (writeRecord_reaches files _ r)
  · exact hstop

theorem flushAll_reaches : ∀ (records : List Record) (st : CompactionState) (d : DropState),
    Reaches files st (flushAll files records st d).2.1
  | [], _, _ => .refl
  | r :: rest, st, d => by
    rw [flushAll]
    exact (suFlushData_reaches files st d r).trans (flushAll_reaches rest _ _)

theorem complete_reaches (st : CompactionState) (job : CompactionJob) :
    Reaches job.files st (st.complete job).2 := by
  unfold complete
  dsimp only
  generalize (if job.shuttingDown = true then
    Status.ioError "Deleting DB during compaction" else .ok) = s
  split
  · exact .of_change .finish
  · exact .refl

end CompactionState

/-- The state a compaction leaves is reached from a new one. -/
theorem CompactionJob.conclude_reaches (job : CompactionJob) (g : Globals) (w : Merge) :
    CompactionState.Reaches job.files
      (CompactionState.new job.compaction job.smallestSnapshot)
      ((job.conclude g w).compact.complete job).2 := by
  rw [conclude_compact]
  exact (CompactionState.flushAll_reaches job.files _ _ _).trans
    (CompactionState.complete_reaches _ job)

/-! ## What the changes keep -/

theorem updateLast_map {α : Type*} (g : Output → α) (f : Output → Output)
    (h : ∀ out, g (f out) = g out) : ∀ outs : List Output, (updateLast f outs).map g = outs.map g
  | [] => rfl
  | [out] => by simp [updateLast, h]
  | out :: out' :: rest => by
    rw [updateLast]
    · rw [List.map_cons, updateLast_map g f h (out' :: rest)]
      rfl
    · simp

theorem CompactionState.Change.core {files : Files} {st st' : CompactionState}
    (h : Change files st st') : st'.compaction.core = st.compaction.core := by
  cases h with
  | seek same => exact same
  | finish => rw [(finishOutputFile_compaction files st).1]
  | fail _ _ | start _ _ _ =>
    unfold openOutputFile
    dsimp only
    split <;> rfl
  | add _ _ => rfl

/-- The compaction is the same at the end, but for its cursors. -/
theorem CompactionJob.conclude_core (job : CompactionJob) (g : Globals) (w : Merge) :
    ((job.conclude g w).compact.complete job).2.compaction.core = job.compaction.core :=
  (job.conclude_reaches g w).invariant (P := fun st => st.compaction.core = job.compaction.core)
    (fun _ _ h hchange => hchange.core.trans h) rfl

/-- The outputs are numbered in the order in which they are opened. -/
def CompactionState.Numbered (files : Files) (st : CompactionState) : Prop :=
  st.outputs.map Output.number = (List.range st.outputs.length).map files.newFileNumber

theorem CompactionState.Numbered.updateLast {files : Files} {st : CompactionState}
    (h : st.Numbered files) {f : Output → Output} (hf : ∀ out, (f out).number = out.number) :
    (Lpad.updateLast f st.outputs).map Output.number =
      (List.range (Lpad.updateLast f st.outputs).length).map files.newFileNumber := by
  have hmap := updateLast_map Output.number f hf st.outputs
  have hlen : (Lpad.updateLast f st.outputs).length = st.outputs.length := by
    simpa using congrArg List.length hmap
  rw [hmap, hlen]
  exact h

theorem CompactionState.openOutputFile_outputs (files : Files) (st : CompactionState) :
    (st.openOutputFile files).2.outputs = st.outputs ++
      [⟨files.newFileNumber st.outputs.length, files.uninitialized st.outputs.length,
        [], [], []⟩] := by
  unfold openOutputFile
  dsimp only
  split <;> rfl

theorem CompactionState.Numbered.openOutputFile {files : Files} {st : CompactionState}
    (h : st.Numbered files) : (st.openOutputFile files).2.Numbered files := by
  unfold Numbered
  rw [openOutputFile_outputs, List.map_append, List.length_append, List.length_singleton,
    List.range_succ, List.map_append, h]
  rfl

theorem CompactionState.Numbered.change {files : Files} {st st' : CompactionState}
    (h : st.Numbered files) (hchange : Change files st st') : st'.Numbered files := by
  cases hchange with
  | seek _ => exact h
  | finish =>
    unfold finishOutputFile
    split
    · exact h
    · exact h.updateLast fun _ => rfl
  | fail _ _ => exact h.openOutputFile
  | start _ _ r => exact h.openOutputFile.updateLast fun _ => rfl
  | add _ r => exact h.updateLast fun _ => rfl

theorem CompactionJob.conclude_numbered (job : CompactionJob) (g : Globals) (w : Merge) :
    ((job.conclude g w).compact.complete job).2.Numbered job.files :=
  (job.conclude_reaches g w).invariant (fun _ _ h hchange => h.change hchange) rfl

/-! ## The bounds of the output tables -/

/-- The first and the last entry of an output, from which it has its bounds. -/
structure Output.Spans (out : Output) (first last : Record) : Prop where
  head : out.entries.head? = some first
  final : out.entries.getLast? = some last
  smallest : out.smallest = first.key
  largest : out.largest = last.key

/-- The outputs as they would be if the open table were finished now. -/
def CompactionState.closed (st : CompactionState) : List Output :=
  match st.builder with
  | none => st.outputs
  | some entries => updateLast (fun out => { out with entries := entries }) st.outputs

structure CompactionState.Tabled (st : CompactionState) : Prop where
  building : st.Building
  spans : ∀ out ∈ st.closed, ∃ first last, out.Spans first last

theorem CompactionState.closed_append {st : CompactionState} {outs : List Output} {last : Output}
    {entries : List Record} (houts : st.outputs = outs ++ [last])
    (hb : st.builder = some entries) : st.closed = outs ++ [{ last with entries := entries }] := by
  rw [closed, hb]
  dsimp only
  rw [houts, updateLast_append]

theorem CompactionState.Tabled.finish {st : CompactionState} (h : st.Tabled) (files : Files) :
    (st.finishOutputFile files).2.Tabled := by
  have hclosed := finishOutputFile_added files h.building
  refine ⟨building_of_none hclosed.1, ?_⟩
  rw [closed, hclosed.1]
  show ∀ out ∈ (st.finishOutputFile files).2.outputs, _
  unfold finishOutputFile
  cases hb : st.builder with
  | none =>
    have hspans := h.spans
    rw [closed, hb] at hspans
    exact hspans
  | some entries =>
    obtain ⟨outs, last, houts, -⟩ := h.building (by rw [hb]; rfl)
    have hspans := h.spans
    rw [closed_append houts hb] at hspans
    dsimp only
    rw [houts, updateLast_append]
    intro out hout
    rcases List.mem_append.mp hout with hout | hout
    · exact hspans out (List.mem_append_left _ hout)
    · rw [List.mem_singleton.mp hout]
      obtain ⟨first, lst, hlast⟩ := hspans _ (List.mem_append_right _ (List.mem_singleton_self _))
      exact ⟨first, lst, hlast.head, hlast.final, hlast.smallest, hlast.largest⟩

theorem CompactionState.Tabled.start {st : CompactionState} (h : st.Tabled) {files : Files}
    (hb : st.builder = none) (r : Record) :
    ((st.openOutputFile files).2.add [] r).Tabled := by
  have houts : ((st.openOutputFile files).2.add [] r).outputs = st.outputs ++
      [⟨files.newFileNumber st.outputs.length, files.uninitialized st.outputs.length,
        r.key, r.key, []⟩] := by
    show updateLast _ (st.openOutputFile files).2.outputs = _
    rw [openOutputFile_outputs, updateLast_append]
    rfl
  refine ⟨fun _ => ⟨_, _, houts, rfl⟩, ?_⟩
  have hbuilder : ((st.openOutputFile files).2.add [] r).builder = some [r] := rfl
  rw [closed_append houts hbuilder]
  intro out hout
  rcases List.mem_append.mp hout with hout | hout
  · have hspans := h.spans
    rw [closed, hb] at hspans
    exact hspans out hout
  · rw [List.mem_singleton.mp hout]
    exact ⟨r, r, rfl, rfl, rfl, rfl⟩

theorem CompactionState.Tabled.add {st : CompactionState} (h : st.Tabled) {entries : List Record}
    (hb : st.builder = some entries) (r : Record) : (st.add entries r).Tabled := by
  obtain ⟨outs, last, houts, hempty⟩ := h.building (by rw [hb]; rfl)
  have houts' : (st.add entries r).outputs = outs ++ [{ last with
      smallest := if entries = [] then r.key else last.smallest
      largest := r.key }] := by
    show updateLast _ st.outputs = _
    rw [houts, updateLast_append]
  have hspans := h.spans
  rw [closed_append houts hb] at hspans
  refine ⟨fun _ => ⟨_, _, houts', hempty⟩, ?_⟩
  have hbuilder : (st.add entries r).builder = some (entries ++ [r]) := rfl
  rw [closed_append houts' hbuilder]
  intro out hout
  rcases List.mem_append.mp hout with hout | hout
  · exact hspans out (List.mem_append_left _ hout)
  · rw [List.mem_singleton.mp hout]
    obtain ⟨first, lst, hlast⟩ := hspans _ (List.mem_append_right _ (List.mem_singleton_self _))
    have hne : entries ≠ [] := by
      rintro rfl
      cases hlast.head
    refine ⟨first, r, ?_, List.getLast?_concat, ?_, rfl⟩
    · show (entries ++ [r]).head? = some first
      rw [List.head?_append_of_ne_nil _ hne]
      exact hlast.head
    · show (if entries = [] then r.key else last.smallest) = first.key
      rw [if_neg hne]
      exact hlast.smallest

theorem CompactionState.Tabled.change {files : Files}
    (hfiles : ∀ i, (files.newWritableFile i).isOk = true) {st st' : CompactionState}
    (h : st.Tabled) (hchange : Change files st st') : st'.Tabled := by
  cases hchange with
  | seek _ => exact ⟨h.building, h.spans⟩
  | finish => exact h.finish files
  | fail _ refused => exact absurd (hfiles _) refused
  | start closed _ r => exact h.start closed r
  | add opened r => exact h.add opened r

theorem CompactionState.complete_builder {st : CompactionState} {job : CompactionJob}
    (h : (st.complete job).1.isOk = true) : (st.complete job).2.builder = none := by
  have hfinished : (st.finishOutputFile job.files).2.builder = none := by
    unfold finishOutputFile
    cases hb : st.builder with
    | none => exact hb
    | some entries => rfl
  unfold complete at h ⊢
  dsimp only at h ⊢
  generalize (if job.shuttingDown = true then
    Status.ioError "Deleting DB during compaction" else .ok) = s at h ⊢
  split
  · exact hfinished
  · rename_i hnot
    rw [if_neg hnot] at h
    rw [not_and] at hnot
    exact Option.not_isSome_iff_eq_none.mp (hnot h)

/-- **The output tables of a compaction that succeeds**: each has its bounds from its first
and its last entry, and together they hold some of the flushed records, in order. -/
theorem CompactionJob.conclude_outputs {job : CompactionJob}
    (hfiles : ∀ i, (job.files.newWritableFile i).isOk = true) (g : Globals) (w : Merge)
    (hok : ((job.conclude g w).compact.complete job).1.isOk = true) :
    (∀ out ∈ ((job.conclude g w).compact.complete job).2.outputs,
        ∃ first last, out.Spans first last) ∧
      (((job.conclude g w).compact.complete job).2.outputs.flatMap Output.entries).Sublist
        w.flushed.flatten := by
  have hnew : (CompactionState.new job.compaction job.smallestSnapshot).Tabled :=
    ⟨CompactionState.building_of_none rfl, fun out hout => by cases hout⟩
  have hbuilder := CompactionState.complete_builder hok
  have htabled := (job.conclude_reaches g w).invariant
    (fun _ _ h hchange => h.change hfiles hchange) hnew
  have hcompact : (job.conclude g w).compact.Tabled := by
    rw [conclude_compact]
    exact (CompactionState.flushAll_reaches job.files _ _ _).invariant
      (fun _ _ h hchange => h.change hfiles hchange) hnew
  constructor
  · have hspans := htabled.spans
    rwa [CompactionState.closed, hbuilder] at hspans
  · have hadded : ((job.conclude g w).compact.complete job).2.added =
        (job.conclude g w).compact.added := by
      unfold CompactionState.complete
      dsimp only
      generalize (if job.shuttingDown = true then
        Status.ioError "Deleting DB during compaction" else .ok) = s
      split
      · exact (CompactionState.finishOutputFile_added job.files hcompact.building).2
      · rfl
    have hentries : ((job.conclude g w).compact.complete job).2.outputs.flatMap Output.entries =
        addedRecords (job.conclude g w).outcomes := by
      rw [← conclude_added, ← hadded, CompactionState.added, hbuilder]
      exact (List.append_nil _).symm
    have hrecords : (job.conclude g w).outcomes.map Outcome.record = w.flushed.flatten := by
      rw [conclude_outcomes, flushes]
      exact CompactionState.flushAll_records _ _ _
    rw [hentries, ← hrecords]
    exact List.filter_sublist.map Outcome.record

end Lpad
