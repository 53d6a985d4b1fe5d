import Lpad.DB.AgeInvariant

/-!
# Deeper levels are older

`Version::Get` asks one level after the other and stops at the first that has the user
key. So for each user key the entries of a level have to be newer than those of every
deeper level. A flush keeps that order, since a memtable is newer than all tables and
goes no deeper than its keys allow. A compaction keeps it if no older entry of a key
stays behind on the level that it compacts.

On level 0 `GetOverlappingInputs` sees to that. Below level 0 files do not overlap, and
the code takes some of them. But `SU_flush_data` may finish a table between two entries
of one user key, when a snapshot keeps both. The newer entry is then the last one of
its file and the older one the first of the next file, and a compaction of the former
alone takes the newer entry below the older one.
-/

namespace Lpad

/-! ## Running a compaction -/

/-- A compaction that the enclave merges in the order of the comparator, with an output
file whenever it asks for one. -/
structure CompactionJob.Mergeable (job : CompactionJob) : Prop where
  ways : job.nWays ≤ 10
  keyLength : ∀ c < job.nWays, ∀ x ∈ job.iter c, x.key.length = 24
  agree : TrailersAgree job.nWays job.iter
  opens : ∀ i, (job.files.newWritableFile i).isOk = true

theorem mem_prepareLevel {files : Files} {level : Nat} {tables : List FileMetaData} {inp : Input}
    (hinp : inp ∈ prepareLevel files level tables) {x : Record} (hx : x ∈ inp.records) :
    ∃ f ∈ tables, x ∈ (files.table f).records := by
  unfold prepareLevel at hinp
  split at hinp
  · cases hinp
  · split at hinp
    · obtain ⟨f, hf, rfl⟩ := List.mem_map.mp hinp
      exact ⟨f, hf, hx⟩
    · rw [List.mem_singleton.mp hinp] at hx
      obtain ⟨_, hmem, hx⟩ := List.mem_flatMap.mp hx
      obtain ⟨f, hf, rfl⟩ := List.mem_map.mp hmem
      exact ⟨f, hf, hx⟩

/-- Tables in a row, read one after the other. -/
theorem concat_inOrder {files : Files} {tables : List FileMetaData} (hrow : FilesInRow tables)
    (hdescribes : ∀ f ∈ tables, f.Describes (files.table f).records) :
    InOrder (Input.concat (tables.map files.table)).records := by
  show InOrder ((tables.map files.table).flatMap Input.records)
  rw [inOrder_iff, List.pairwise_flatMap]
  constructor
  · intro inp hinp
    obtain ⟨f, hf, rfl⟩ := List.mem_map.mp hinp
    exact inOrder_iff.mp (hdescribes f hf).sorted
  · rw [List.pairwise_map]
    refine List.Pairwise.imp_of_mem ?_ hrow
    intro f g hf hg hlt x hx y hy
    exact lt_of_le_of_lt ((hdescribes f hf).upper x hx)
      (lt_of_lt_of_le hlt ((hdescribes g hg).lower y hy))

theorem prepareLevel_inOrder {files : Files} {level : Nat} {tables : List FileMetaData}
    (hrow : 0 < level → FilesInRow tables)
    (hdescribes : ∀ f ∈ tables, f.Describes (files.table f).records) {inp : Input}
    (hinp : inp ∈ prepareLevel files level tables) : InOrder inp.records := by
  unfold prepareLevel at hinp
  split at hinp
  · cases hinp
  · split at hinp
    · obtain ⟨f, hf, rfl⟩ := List.mem_map.mp hinp
      exact (hdescribes f hf).sorted
    · rw [List.mem_singleton.mp hinp]
      exact concat_inOrder (hrow (Nat.pos_of_ne_zero ‹_›)) hdescribes

/-- A part of a table that is read from the start. -/
theorem FileMetaData.Describes.ofPrefix {f : FileMetaData} {records records' : List Record}
    (h : f.Describes records) (hle : records' <+: records) : f.Describes records' where
  sorted := List.Pairwise.sublist hle.sublist h.sorted
  wellFormed := fun x hx => h.wellFormed x (hle.subset hx)
  lower := fun x hx => h.lower x (hle.subset hx)
  upper := fun x hx => h.upper x (hle.subset hx)

section Finish

variable {db : Database} {r : RunningCompaction} {files : Files} {shuttingDown : Bool}
  {manifest : ManifestIO}

/-- What an iterator of a running compaction shows is in the table of an input. -/
theorem Database.Reads.mem_tables (hreads : db.Reads r.compaction files) {f : FileMetaData}
    (hf : f ∈ r.compaction.inputs0 ++ r.compaction.inputs1) {x : Record}
    (hx : x ∈ (files.table f).records) : x ∈ db.tables f.number := (hreads f hf).subset hx

theorem Contents.Aged.input_describes (h : db.contents.Aged) (hr : db.running = some r)
    {f : FileMetaData} (hf : f ∈ r.compaction.inputs0 ++ r.compaction.inputs1) :
    f.Describes (db.tables f.number) := by
  have hsound := h.levels.running r hr
  rcases List.mem_append.mp hf with hf | hf
  · exact h.tables _ f (hsound.inputs0 f hf)
  · exact h.tables _ f (hsound.inputs1 f hf)

/-- Entries of different channels have different keys. -/
theorem Contents.Aged.inputs_distinct (h : db.contents.Aged) (hr : db.running = some r)
    (hreads : db.Reads r.compaction files) :
    (r.compaction.suPrepareInputs files).Pairwise fun a b =>
      ∀ x ∈ a.records, ∀ y ∈ b.records, x.key ≠ y.key := by
  have hsound := h.levels.running r hr
  have hlined := h.lined r hr
  have hone : ∀ level tables, level ≠ 0 → (prepareLevel files level tables).Pairwise fun a b =>
      ∀ x ∈ a.records, ∀ y ∈ b.records, x.key ≠ y.key := by
    intro level tables hlevel
    unfold prepareLevel
    split
    · exact List.Pairwise.nil
    · exact List.pairwise_singleton _ _
  unfold Compaction.suPrepareInputs
  rw [List.pairwise_append]
  refine ⟨?_, hone _ _ (Nat.succ_ne_zero _), ?_⟩
  · rcases Nat.eq_zero_or_pos r.compaction.level with hzero | hpos
    · -- level-0 files are of different age
      unfold prepareLevel
      split
      · exact List.Pairwise.nil
      · rw [List.pairwise_map]
        refine List.Pairwise.imp_of_mem ?_ (hlined.numbers0 hzero)
        intro f g hf hg hne x hx y hy heq
        have hxmem := hreads.mem_tables (List.mem_append_left _ hf) hx
        have hymem := hreads.mem_tables (List.mem_append_left _ hg) hy
        have hf0 := hsound.inputs0 f hf
        have hg0 := hsound.inputs0 g hg
        rw [hzero] at hf0 hg0
        have hseq : keySequence x.key ≠ keySequence y.key := by
          rcases Nat.lt_or_gt_of_ne hne with hlt | hlt
          · exact ne_of_lt (h.level0 f hf0 g hg0 hlt _ ⟨f, List.mem_singleton_self _, x, hxmem, rfl⟩
              _ ⟨g, List.mem_singleton_self _, y, hymem, rfl⟩)
          · exact ne_of_gt (h.level0 g hg0 f hf0 hlt _ ⟨g, List.mem_singleton_self _, y, hymem, rfl⟩
              _ ⟨f, List.mem_singleton_self _, x, hxmem, rfl⟩)
        exact hseq (congrArg keySequence heq)
    · exact hone _ _ (Nat.pos_iff_ne_zero.mp hpos)
  · intro a ha b hb x hx y hy heq
    obtain ⟨f, hf, hx⟩ := mem_prepareLevel ha hx
    obtain ⟨g, hg, hy⟩ := mem_prepareLevel hb hy
    have hlt := h.order _ _ (Nat.lt_succ_self r.compaction.level) x.key
      ⟨f, hsound.inputs0 f hf, x, hreads.mem_tables (List.mem_append_left _ hf) hx, rfl⟩ y.key
      ⟨g, hsound.inputs1 g hg, y, hreads.mem_tables (List.mem_append_right _ hg) hy, rfl⟩
      (congrArg extractUserKey heq)
    rw [heq] at hlt
    exact lt_irrefl _ hlt

/-- The channels of a running compaction are sorted and have no key in common. -/
theorem Contents.Aged.sortedInputs (h : db.contents.Aged) (hr : db.running = some r)
    (hreads : db.Reads r.compaction files)
    (hmerge : (db.job r files shuttingDown manifest).Mergeable) :
    SortedInputs (db.job r files shuttingDown manifest).nWays
      (db.job r files shuttingDown manifest).iter := by
  have hlined := h.lined r hr
  have hdescribes : ∀ f ∈ r.compaction.inputs0 ++ r.compaction.inputs1,
      f.Describes (files.table f).records := fun f hf =>
    (h.input_describes hr hf).ofPrefix (hreads f hf)
  have hiter : ∀ c, ∀ x ∈ (db.job r files shuttingDown manifest).iter c,
      ∃ inp, (r.compaction.suPrepareInputs files)[c]? = some inp ∧ x ∈ inp.records := by
    intro c x hx
    have hx : x ∈ (((r.compaction.suPrepareInputs files)[c]?).map Input.records).getD [] := hx
    cases hc : (r.compaction.suPrepareInputs files)[c]? with
    | none =>
      rw [hc] at hx
      cases hx
    | some inp =>
      rw [hc] at hx
      exact ⟨inp, rfl, hx⟩
  refine ⟨hmerge.ways, hmerge.keyLength, ?_, ?_⟩
  · intro c hc
    have hc : c < (r.compaction.suPrepareInputs files).length := hc
    show InOrder ((((r.compaction.suPrepareInputs files)[c]?).map Input.records).getD [])
    rw [List.getElem?_eq_getElem hc]
    have hmem := List.getElem_mem (l := r.compaction.suPrepareInputs files) hc
    rcases List.mem_append.mp hmem with hmem | hmem
    · exact prepareLevel_inOrder hlined.row0 (fun f hf => hdescribes f (List.mem_append_left _ hf))
        hmem
    · exact prepareLevel_inOrder (fun _ => hlined.row1)
        (fun f hf => hdescribes f (List.mem_append_right _ hf)) hmem
  · intro c hc d hd hcd x hx y hy
    obtain ⟨a, ha, hx⟩ := hiter c x hx
    obtain ⟨b, hb, hy⟩ := hiter d y hy
    have hdistinct := List.pairwise_iff_getElem.mp (h.inputs_distinct hr hreads)
    obtain ⟨hc', rfl⟩ := List.getElem?_eq_some_iff.mp ha
    obtain ⟨hd', rfl⟩ := List.getElem?_eq_some_iff.mp hb
    rcases Nat.lt_or_gt_of_ne hcd with hlt | hlt
    · exact hdistinct c d hc' hd' hlt x hx y hy
    · exact (hdistinct d c hd' hc' hlt y hy x hx).symm

/-- **What a mergeable compaction flushes** is in order, and its keys are those of the
inputs. -/
theorem Contents.Aged.flushed (h : db.contents.Aged) (hidle : db.globals.Idle)
    (hr : db.running = some r) (hreads : db.Reads r.compaction files)
    (hmerge : (db.job r files shuttingDown manifest).Mergeable) {w : Merge}
    (hw : onecEnclCompact ((db.job r files shuttingDown manifest).recordCount + 1)
      (db.job r files shuttingDown manifest).nWays db.globals.arg
      (db.job r files shuttingDown manifest).iter = some w) :
    InOrder w.flushed.flatten ∧ ∀ x ∈ w.flushed.flatten,
      ∃ f ∈ r.compaction.inputs0 ++ r.compaction.inputs1, ∃ y ∈ db.tables f.number,
        y.key = x.key := by
  have hsorted := h.sortedInputs hr hreads hmerge
  have hfuel := Nat.lt_succ_self (db.job r files shuttingDown manifest).recordCount
  constructor
  · obtain ⟨w', hw', hiff⟩ := onecEnclCompact_sorted_iff hsorted hidle.clean hfuel
    obtain rfl := Option.some.inj (hw.symm.trans hw')
    exact hiff.mpr hmerge.agree
  · obtain ⟨w', out, hw', hdraws, hitems, -, -⟩ := onecEnclCompact_spec hidle.clean hfuel
    obtain rfl := Option.some.inj (hw.symm.trans hw')
    intro x hx
    have hkey := List.mem_map_of_mem (f := Record.key) hx
    rw [keys_of_preserved hdraws
      (fun c hc y hy => (hsorted.keyLength c hc y hy).trans_le (by decide)) hitems] at hkey
    obtain ⟨y, hy, heq⟩ := List.mem_map.mp hkey
    obtain ⟨c, hc, hmem⟩ := hdraws.mem_iff.mp hy
    have hc : c < (r.compaction.suPrepareInputs files).length := hc
    have hmem : y ∈ (((r.compaction.suPrepareInputs files)[c]?).map Input.records).getD [] := hmem
    rw [List.getElem?_eq_getElem hc] at hmem
    rcases List.mem_append.mp (List.getElem_mem hc) with hinp | hinp
    · obtain ⟨f, hf, hy⟩ := mem_prepareLevel hinp hmem
      exact ⟨f, List.mem_append_left _ hf, y,
        hreads.mem_tables (List.mem_append_left _ hf) hy, heq⟩
    · obtain ⟨f, hf, hy⟩ := mem_prepareLevel hinp hmem
      exact ⟨f, List.mem_append_right _ hf, y,
        hreads.mem_tables (List.mem_append_right _ hf) hy, heq⟩

end Finish

section Outputs

variable {outputs : List Output} {records : List Record}

theorem outputs_inOrder (hsub : (outputs.flatMap Output.entries).Sublist records)
    (horder : InOrder records) :
    (∀ out ∈ outputs, InOrder out.entries) ∧ outputs.Pairwise fun out out' =>
      ∀ x ∈ out.entries, ∀ y ∈ out'.entries, keyRank x.key < keyRank y.key := by
  have hall := (inOrder_iff.mp horder).sublist hsub
  rw [List.pairwise_flatMap] at hall
  exact ⟨fun out hout => inOrder_iff.mpr (hall.1 out hout), hall.2⟩

/-- Tables cut from a sequence in order have their entries between their bounds. -/
theorem Output.Spans.bounds {out : Output} {first last : Record} (h : out.Spans first last)
    (horder : InOrder out.entries) : ∀ x ∈ out.entries,
      out.file.lo ≤ keyRank x.key ∧ keyRank x.key ≤ out.file.hi := by
  intro x hx
  have hsorted : out.entries.Pairwise fun a b => keyRank a.key ≤ keyRank b.key :=
    (inOrder_iff.mp horder).imp le_of_lt
  show keyRank out.smallest ≤ _ ∧ _ ≤ keyRank out.largest
  rw [h.smallest, h.largest]
  exact bounds_of_sorted hsorted h.head h.final hx

/-- Tables cut from a sequence in order lie in a row. -/
theorem outputs_inRow (hspans : ∀ out ∈ outputs, ∃ first last, out.Spans first last)
    (hsub : (outputs.flatMap Output.entries).Sublist records) (horder : InOrder records) :
    FilesInRow (outputs.map Output.file) := by
  show (outputs.map Output.file).Pairwise _
  rw [List.pairwise_map]
  refine List.Pairwise.imp_of_mem ?_ (outputs_inOrder hsub horder).2
  intro out out' hout hout' hlt
  obtain ⟨first, last, h⟩ := hspans out hout
  obtain ⟨first', last', h'⟩ := hspans out' hout'
  show keyRank out.largest < keyRank out'.smallest
  rw [h.largest, h'.smallest]
  exact hlt last (List.mem_of_getLast? h.final) first' (List.mem_of_head? h'.head)

end Outputs

section Install

variable {db : Database} {r : RunningCompaction} {files : Files} {shuttingDown : Bool}
  {manifest : ManifestIO} {w : Merge}

/-- The outputs of a mergeable compaction that succeeds, entry by entry. -/
theorem Contents.Aged.outputs_entries (h : db.contents.Aged) (hidle : db.globals.Idle)
    (hr : db.running = some r) (hreads : db.Reads r.compaction files)
    (hmerge : (db.job r files shuttingDown manifest).Mergeable)
    (hw : onecEnclCompact ((db.job r files shuttingDown manifest).recordCount + 1)
      (db.job r files shuttingDown manifest).nWays db.globals.arg
      (db.job r files shuttingDown manifest).iter = some w)
    (hok : (((db.job r files shuttingDown manifest).conclude db.globals w).compact.complete
      (db.job r files shuttingDown manifest)).1.isOk = true) {out : Output}
    (hout : out ∈ (((db.job r files shuttingDown manifest).conclude
      db.globals w).compact.complete (db.job r files shuttingDown manifest)).2.outputs) :
    out.file.Describes out.entries ∧ ∀ x ∈ out.entries,
      ∃ f ∈ r.compaction.inputs0 ++ r.compaction.inputs1, ∃ y ∈ db.tables f.number,
        y.key = x.key := by
  obtain ⟨horder, hkeys⟩ := h.flushed hidle hr hreads hmerge hw
  obtain ⟨hspans, hsub⟩ := CompactionJob.conclude_outputs hmerge.opens db.globals w hok
  have hentries : ∀ x ∈ out.entries, x ∈ w.flushed.flatten := fun x hx =>
    hsub.subset (List.mem_flatMap.mpr ⟨out, hout, hx⟩)
  have hsorted := (outputs_inOrder hsub horder).1 out hout
  obtain ⟨first, last, hspan⟩ := hspans out hout
  refine ⟨⟨hsorted, ?_, ?_, ?_⟩, fun x hx => hkeys x (hentries x hx)⟩
  · intro x hx
    obtain ⟨f, hf, y, hy, heq⟩ := hkeys x (hentries x hx)
    rw [← heq]
    exact (h.input_describes hr hf).wellFormed y hy
  · exact fun x hx => (hspan.bounds hsorted x hx).1
  · exact fun x hx => (hspan.bounds hsorted x hx).2

/-- The outputs of a mergeable compaction lie in a row, in the range of the inputs. -/
theorem Contents.Aged.yields (h : db.contents.Aged) (hidle : db.globals.Idle)
    (hr : db.running = some r) (hreads : db.Reads r.compaction files)
    (hmerge : (db.job r files shuttingDown manifest).Mergeable)
    (hw : onecEnclCompact ((db.job r files shuttingDown manifest).recordCount + 1)
      (db.job r files shuttingDown manifest).nWays db.globals.arg
      (db.job r files shuttingDown manifest).iter = some w)
    (hok : (((db.job r files shuttingDown manifest).conclude db.globals w).compact.complete
      (db.job r files shuttingDown manifest)).1.isOk = true) :
    r.compaction.Yields (((db.job r files shuttingDown manifest).conclude
      db.globals w).compact.complete (db.job r files shuttingDown manifest)).2.outputs := by
  obtain ⟨hspans, hsub⟩ := CompactionJob.conclude_outputs hmerge.opens db.globals w hok
  have hentries := fun (out : Output) (hout : out ∈ _) =>
    h.outputs_entries hidle hr hreads hmerge hw hok hout
  refine ⟨outputs_inRow hspans hsub (h.flushed hidle hr hreads hmerge hw).1, ?_, ?_, ?_⟩
  · intro f hf
    obtain ⟨out, hout, rfl⟩ := List.mem_map.mp hf
    obtain ⟨first, last, hspan⟩ := hspans out hout
    have hfirst := List.mem_of_head? hspan.head
    exact le_trans ((hentries out hout).1.lower first hfirst)
      ((hentries out hout).1.upper first hfirst)
  · intro out hout
    obtain ⟨first, last, hspan⟩ := hspans out hout
    obtain ⟨f, hf, y, hy, heq⟩ := (hentries out hout).2 first (List.mem_of_head? hspan.head)
    refine ⟨f, hf, ?_⟩
    show f.lo ≤ keyRank out.smallest
    rw [hspan.smallest, ← heq]
    exact (h.input_describes hr hf).lower y hy
  · intro out hout
    obtain ⟨first, last, hspan⟩ := hspans out hout
    obtain ⟨f, hf, y, hy, heq⟩ := (hentries out hout).2 last (List.mem_of_getLast? hspan.final)
    refine ⟨f, hf, ?_⟩
    show keyRank out.largest ≤ f.hi
    rw [hspan.largest, ← heq]
    exact (h.input_describes hr hf).upper y hy

end Install

/-! ## The age order along a run -/

/-- **Steps that keep the age order.** Writes are numbered, no memtable is flushed into a
gap, the level that is compacted next has no user key in two files, and the enclave
merges in the order of the comparator. -/
structure Database.KeepsAge (db : Database) (event : Event) : Prop where
  numbers : db.Numbers event
  gapFree : db.GapFree event
  unsplit : ∀ manifest, event = .background manifest → ∀ level, db.compactionLevel = some level →
    1 ≤ level → db.versions.current.Unsplit level
  mergeable : ∀ files shuttingDown manifest, event = .finish files shuttingDown manifest →
    ∀ r, db.running = some r → (db.job r files shuttingDown manifest).Mergeable

theorem Contents.Aged.outputsInRange {db : Database} (h : db.contents.Aged)
    (hidle : db.globals.Idle) {event : Event} (hkeeps : db.KeepsAge event) :
    db.OutputsInRange event := by
  cases event with
  | finish files shuttingDown manifest =>
    rintro r work hr hreads hdone hok
    obtain ⟨w, hw, rfl⟩ := Option.map_eq_some_iff.mp hdone
    exact h.yields hidle hr hreads (hkeeps.mergeable _ _ _ rfl r hr) hw hok
  | _ => trivial

/-- The edit with which a compaction is installed. -/
theorem Contents.Aged.installEdit_replaces {db : Database} (h : db.contents.Aged)
    {r : RunningCompaction} (hr : db.running = some r) {files : Files} {shuttingDown : Bool}
    {manifest : ManifestIO} {w : Merge} {done : Status × CompactionState}
    (hst : ((db.job r files shuttingDown manifest).conclude db.globals w).compact.complete
      (db.job r files shuttingDown manifest) = done) :
    done.2.installEdit.Replaces r.compaction (done.2.outputs.map Output.file) ∧
      done.2.installEdit.Fresh := by
  have hsound := h.levels.running r hr
  have hreplaces : done.2.installEdit.Replaces r.compaction (done.2.outputs.map Output.file) := by
    apply CompactionState.installEdit_replaces hsound
    rw [← hst]
    exact CompactionJob.conclude_core (db.job r files shuttingDown manifest) db.globals w
  refine ⟨hreplaces, hreplaces.fresh fun f hf g hg => ?_⟩
  obtain ⟨out, hout, rfl⟩ := List.mem_map.mp hf
  subst hst
  exact (lt_of_lt_of_le (h.levels.below _ g (hsound.inputs1 g hg))
    (Database.job_outputs_number r files shuttingDown manifest _ w hout).1).ne'

theorem Contents.Aged.install {db : Database} (h : db.contents.Aged) (hidle : db.globals.Idle)
    {r : RunningCompaction} (hr : db.running = some r) {files : Files} {shuttingDown : Bool}
    {manifest : ManifestIO} (hreads : db.Reads r.compaction files)
    (hmerge : (db.job r files shuttingDown manifest).Mergeable) {w : Merge}
    (hw : onecEnclCompact ((db.job r files shuttingDown manifest).recordCount + 1)
      (db.job r files shuttingDown manifest).nWays db.globals.arg
      (db.job r files shuttingDown manifest).iter = some w) {done : Status × CompactionState}
    (hst : ((db.job r files shuttingDown manifest).conclude db.globals w).compact.complete
      (db.job r files shuttingDown manifest) = done)
    (hok : done.1.isOk = true) {d : Contents} (hkeeps : db.contents.Keeps d)
    (hmemory : db.contents.SameMemory d)
    (hcurrent : d.current = db.versions.nextVersion done.2.installEdit)
    (hstored : ∀ out ∈ done.2.outputs, d.tables out.number = out.entries)
    (hstopped : d.running = none) (hlevels : d.LevelsOrdered) : d.Aged := by
  have hsound := h.levels.running r hr
  obtain ⟨hreplaces, hfresh⟩ := h.installEdit_replaces hr hst
  have hentries : ∀ out ∈ done.2.outputs, out.file.Describes out.entries ∧ ∀ x ∈ out.entries,
      ∃ f ∈ r.compaction.inputs0 ++ r.compaction.inputs1, ∃ y ∈ db.tables f.number,
        y.key = x.key := by
    intro out hout
    subst hst
    exact h.outputs_entries hidle hr hreads hmerge hw hok hout
  refine h.replace hsound hreplaces hfresh hkeeps hcurrent hmemory hstopped hlevels ?_ ?_
    (h.staying r hr)
  · intro f hf
    obtain ⟨out, hout, rfl⟩ := List.mem_map.mp hf
    show out.file.Describes (d.tables out.number)
    rw [hstored out hout]
    exact (hentries out hout).1
  · rintro _ ⟨f, hf, x, hx, rfl⟩
    obtain ⟨out, hout, rfl⟩ := List.mem_map.mp hf
    change x ∈ d.tables out.number at hx
    rw [hstored out hout] at hx
    obtain ⟨g, hg, y, hy, heq⟩ := (hentries out hout).2 x hx
    rcases List.mem_append.mp hg with hg | hg
    · exact Or.inl ⟨g, hg, y, hy, heq⟩
    · exact Or.inr ⟨g, hg, y, hy, heq⟩

theorem Contents.Aged.move {db : Database} (h : db.contents.Aged) {c : Compaction}
    {vs : VersionSet} (hchosen : db.versions.Chooses c vs)
    (hunsplit : 1 ≤ c.level → db.versions.current.Unsplit c.level) {f : FileMetaData}
    (hinputs0 : c.inputs0 = [f]) (hinputs1 : c.inputs1 = []) (hstopped : db.running = none)
    (hlevels : Contents.LevelsOrdered { db.contents with
      current := db.versions.nextVersion (c.moveEdit f) }) :
    Contents.Aged { db.contents with current := db.versions.nextVersion (c.moveEdit f) } := by
  have hsound := hchosen.sound h.levels.ordered
  have hreplaces := hsound.moveEdit_replaces hinputs0 hinputs1
  have hfresh : (c.moveEdit f).Fresh := by
    refine hreplaces.fresh ?_
    rw [hinputs1]
    rintro _ _ g hg
    cases hg
  refine h.replace hsound hreplaces hfresh ⟨Nat.le_refl _, fun _ _ => rfl, id⟩ rfl
    ⟨rfl, rfl, rfl⟩ hstopped hlevels ?_ ?_ (h.chosen_staying hchosen hunsplit)
  · intro g hg
    apply h.tables c.level g
    apply hsound.inputs0
    rw [hinputs0]
    exact hg
  · rw [hinputs0]
    exact Set.subset_union_left

/-- **One step keeps the age order.** -/
theorem Contents.Aged.effect {options : Options} {db : Database} (h : db.contents.Aged)
    (hidle : db.globals.Idle) {event : Event} (hkeeps : db.KeepsAge event) {d : Contents}
    (heffect : db.Effect options event d) : d.Aged := by
  have hlevels := h.levels.effect hkeeps.gapFree (h.outputsInRange hidle hkeeps) heffect
  have hunsplit : ∀ {manifest : ManifestIO} {c : Compaction}, event = .background manifest →
      db.compactionLevel = some c.level → 1 ≤ c.level → db.versions.current.Unsplit c.level :=
    fun hevent hlevel => hkeeps.unsplit _ hevent _ hlevel
  cases heffect with
  | write =>
    exact h.sameTables ⟨Nat.le_refl _, fun _ _ => rfl, id⟩ rfl hlevels
      (fun _ => h.memory.write hkeeps.numbers) (Or.inl rfl)
  | rotate room =>
    refine h.sameTables ⟨Nat.le_succ _, fun _ _ => rfl, id⟩ rfl hlevels ?_ (Or.inl rfl)
    intro _
    -- the two memtables together hold the same entries
    have hfree : db.contents.imm = none := Database.room_switch room
    refine h.memory.subset ?_ rfl fun level k hk => ⟨level, hk⟩
    rw [hfree]
    show (db.mem ++ []).Sublist db.mem
    rw [List.append_nil]
  | idle keeps memory files running =>
    refine h.sameTables keeps files.files hlevels ?_ running
    intro hkeys
    refine h.memory.subset ?_ memory.lastSequence fun level k hk => ⟨level, hkeys ▸ hk⟩
    rw [memory.imm, memory.mem]
  | discard imm_eq keeps files running memory =>
    refine h.sameTables ⟨keeps.next, keeps.tables, keeps.globals⟩ files.files hlevels ?_
      (Or.inl running)
    intro hkeys
    refine h.memory.subset ?_ memory.lastSequence fun level k hk => ⟨level, hkeys ▸ hk⟩
    show (Contents.mem _).Sublist _
    rw [memory.mem]
    exact List.sublist_append_right _ _
  | flush imm_eq spans flushes keeps current next stored running memory =>
    have hflushed := h.flushed_of_flushes imm_eq spans flushes keeps current stored
    exact h.flush imm_eq spans flushes
      ⟨hflushed.files, hflushed.tables, hflushed.stored, hflushed.newer⟩ current running
      memory.mem rfl memory.lastSequence hlevels
  | move stopped chosen level inputs0 inputs1 =>
    exact h.move chosen (hunsplit rfl level) inputs0 inputs1 stopped hlevels
  | start stopped chosen level compaction =>
    refine ⟨hlevels, h.tables, h.numbers, h.level0, h.order, ?_, ?_, ?_⟩
    · exact h.memory.subset (List.Sublist.refl _) rfl fun level k hk => ⟨level, hk⟩
    · rintro r hr
      obtain rfl := Option.some.inj hr
      rw [compaction]
      exact chosen.lined h.levels.ordered h.numbers
    · rintro r hr
      obtain rfl := Option.some.inj hr
      rw [compaction]
      exact h.chosen_staying chosen (hunsplit rfl level)
  | install running reads done finished keeps memory current next stored stopped =>
    obtain ⟨w, hw, rfl⟩ := Option.map_eq_some_iff.mp done
    exact h.install hidle running reads (hkeeps.mergeable _ _ _ rfl _ running) hw rfl finished
      keeps memory current stored stopped hlevels

theorem Contents.Aged.init (options : Options) : (Database.init options).contents.Aged := by
  have hempty : ∀ level, ∀ k, k ∉ (Database.init options).contents.keysAt level := by
    rintro level k ⟨f, hf, -⟩
    cases hf
  refine ⟨Contents.LevelsOrdered.init options, ?_, List.Pairwise.nil, ?_, ?_, ?_, ?_, ?_⟩
  · intro level f hf
    cases hf
  · intro f hf
    cases hf
  · intro i j _ k hk
    exact absurd hk (hempty i k)
  · refine ⟨List.Pairwise.nil, ?_, ?_, ?_, Nat.zero_le _⟩
    · intro level k hk
      exact absurd hk (hempty level k)
    · intro level k hk
      exact absurd hk (hempty level k)
    · intro e he
      cases he
  · intro r hr
    cases hr
  · intro r hr
    cases hr

/-- **Deeper levels are older** in every state that a run reaches whose steps keep the age
order. -/
theorem levels_aged {options : Options} {events : List Event} {db : Database}
    (hrun : runs (Database.step options) (Database.init options) events = some db)
    (hopen : ∀ io, Event.reopen io ∉ events)
    (hkeeps : RunMeets (Database.step options) Database.KeepsAge (Database.init options) events) :
    db.LevelsAged := by
  have haged : db.contents.Aged ∧ db.globals.Idle := by
    refine RunMeets.invariant (P := fun db => db.contents.Aged ∧ db.globals.Idle) ?_
      ⟨Contents.Aged.init options, Globals.init_idle⟩
      ((RunMeets.of_notMem hopen).and hkeeps) hrun
    rintro db event db' ⟨h, hidle⟩ ⟨hopen, hkeeps⟩ hstep
    have heffect := Database.step_effect hstep hopen
    exact ⟨h.effect hidle hkeeps heffect, heffect.idle_globals hidle⟩
  exact Database.levelsAged_iff.mpr haged.1.order

/-! ## Runs -/

def userKeyK : Bytes := List.replicate 16 107

/-- A value for `k` goes to level 2 and a deletion that follows goes to level 1. The
snapshot keeps both. A manual compaction of level 1 starts. -/
def overwriteRun : List Event :=
  [.getSnapshot] ++ writeAndFlush (WriteBatch.clear.put userKeyK [1]) ++
    writeAndFlush (WriteBatch.clear.delete userKeyK) ++
    [.compactRange 1 none none, .background ⟨.ok, true⟩]

/-- The files of this compaction. Each of its inputs has one entry. -/
def overwriteFiles : Files :=
  Files.working fun f => ⟨[⟨f.smallest, if f.number = 5 then [1] else []⟩], .ok⟩

/-- A check that can be evaluated, for steps that are not the end of a compaction. -/
def Database.Simple (db : Database) : Event → Prop
  | .write updates _ _ => (updates = WriteBatch.clear.put userKeyK [1] ∨
      updates = WriteBatch.clear.delete userKeyK) ∧ db.versions.lastSequence ≤ 1
  | .compactMemTable _ _ _ => db.running.isNone = true
  | .background _ => ∀ level ∈ db.compactionLevel, 1 ≤ level → db.versions.current.Unsplit level
  | .finish _ _ _ => False
  | _ => True

instance (db : Database) : ∀ event : Event, Decidable (db.Simple event)
  | .write updates _ _ => inferInstanceAs (Decidable ((updates = _ ∨ updates = _) ∧ _ ≤ 1))
  | .compactMemTable _ _ _ => inferInstanceAs (Decidable (_ = true))
  | .background _ => inferInstanceAs (Decidable (∀ level ∈ db.compactionLevel, 1 ≤ level → _))
  | .finish _ _ _ => isFalse id
  | .makeRoom _ _ _ | .getSnapshot | .releaseSnapshot _ | .seek _ _ | .compactRange _ _ _
  | .reopen _ => isTrue trivial

theorem Database.Simple.keepsAge {db : Database} {event : Event} (h : db.Simple event) :
    db.KeepsAge event := by
  constructor
  case numbers =>
    cases event <;> try trivial
    obtain ⟨hupdates, hlast⟩ := h
    have hmax : db.versions.lastSequence + 1 ≤ kMaxSequenceNumber :=
      le_trans (Nat.succ_le_succ hlast) (by decide)
    rcases hupdates with rfl | rfl
    · exact ⟨_, WriteBatch.Encodes.clear.put ⟨by decide, by decide⟩ (by decide), hmax⟩
    · refine ⟨_, WriteBatch.Encodes.clear.delete ?_ (by decide), hmax⟩
      show userKeyK.length < 2 ^ 32
      decide
  case gapFree =>
    cases event <;> try trivial
    intro imm r first last _ hr
    change db.running.isNone = true at h
    rw [hr] at h
    cases h
  case unsplit =>
    rintro manifest rfl level hlevel
    exact h level hlevel
  case mergeable =>
    rintro files shuttingDown manifest rfl
    exact h.elim

/-- The compaction on its own leaves both entries on level 2. -/
theorem levels_aged_overwrite :
    ∃ db, runs (Database.step defaultOptions) (Database.init defaultOptions)
        (overwriteRun ++ [.finish overwriteFiles false ⟨.ok, true⟩]) = some db ∧
      (db.entriesAt 2).length = 2 ∧ db.LevelsAged := by
  have heval : ((runs (Database.step defaultOptions) (Database.init defaultOptions)
      (overwriteRun ++ [.finish overwriteFiles false ⟨.ok, true⟩])).map fun db =>
        (db.entriesAt 2).length) = some 2 := by
    decide +kernel
  obtain ⟨db, hdb, hentries⟩ := Option.map_eq_some_iff.mp heval
  have hstart : RunMeets (Database.step defaultOptions) Database.Simple
      (Database.init defaultOptions) overwriteRun := by
    decide +kernel
  have hinputs : ((runs (Database.step defaultOptions) (Database.init defaultOptions)
      overwriteRun).all fun db => db.running.all fun r =>
        let job := db.job r overwriteFiles false ⟨.ok, true⟩
        decide (job.nWays ≤ 10 ∧ (∀ c < job.nWays, ∀ x ∈ job.iter c, x.key.length = 24) ∧
          TrailersAgree job.nWays job.iter)) = true := by
    decide +kernel
  have hkeeps : RunMeets (Database.step defaultOptions) Database.KeepsAge
      (Database.init defaultOptions)
      (overwriteRun ++ [.finish overwriteFiles false ⟨.ok, true⟩]) := by
    refine (hstart.mono fun db event h => h.keepsAge).snoc ?_
    intro t ht
    refine ⟨trivial, trivial, fun _ h => (nomatch h), ?_⟩
    rintro files shuttingDown manifest heq r hr
    cases heq
    rw [ht, Option.all_some, hr, Option.all_some] at hinputs
    obtain ⟨hways, hlength, hagree⟩ := of_decide_eq_true hinputs
    exact ⟨hways, hlength, hagree, fun _ => rfl⟩
  have hopen : ∀ io, Event.reopen io ∉
      overwriteRun ++ [.finish overwriteFiles false ⟨.ok, true⟩] := by
    simp [overwriteRun, writeAndFlush]
  exact ⟨db, hdb, hentries, levels_aged hdb hopen hkeeps⟩

/-- The output table is full after the deletion. Then a read charges its last seek to this
table, and it is moved to level 3 on its own. -/
def splitRun : List Event :=
  overwriteRun ++ [.finish { overwriteFiles with fileSize := fun _ _ => kTargetFileSize } false
    ⟨.ok, true⟩, .seek 2 0, .background ⟨.ok, true⟩]

/-- **A user key split over two tables.** The deletion of `k`, with sequence number 2, is on
level 3 and the value that it deletes, with sequence number 1, on level 2. -/
theorem splitRun_notAged :
    ∃ db, runs (Database.step defaultOptions) (Database.init defaultOptions) splitRun = some db ∧
      db.entriesAt 2 = [⟨appendInternalKey ⟨userKeyK, 1, .kTypeValue⟩, [1]⟩] ∧
      db.entriesAt 3 = [⟨appendInternalKey ⟨userKeyK, 2, .kTypeDeletion⟩, []⟩] ∧
      ¬ db.LevelsAged := by
  have heval : ((runs (Database.step defaultOptions) (Database.init defaultOptions)
      splitRun).map fun db => (db.entriesAt 2, db.entriesAt 3)) =
      some ([⟨appendInternalKey ⟨userKeyK, 1, .kTypeValue⟩, [1]⟩],
        [⟨appendInternalKey ⟨userKeyK, 2, .kTypeDeletion⟩, []⟩]) := by
    decide +kernel
  obtain ⟨db, hdb, hentries⟩ := Option.map_eq_some_iff.mp heval
  obtain ⟨h2, h3⟩ := Prod.mk.inj hentries
  refine ⟨db, hdb, h2, h3, ?_⟩
  intro haged
  have hlt := haged 2 3 (by decide) _ (by rw [h2]; exact List.mem_singleton_self _) _
    (by rw [h3]; exact List.mem_singleton_self _) (by decide)
  exact absurd hlt (by decide)

end Lpad
