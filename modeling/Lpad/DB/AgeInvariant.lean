import Lpad.Base.Layers
import Lpad.DB.LevelOrder
import Lpad.Enclave.MergeOrder

/-!
# Age order of tables

For each user key the entries of a level have to be newer than those of every deeper
level. This module says what else a database keeps so that this stays true: tables are
sorted and between the bounds of their files, level-0 files are numbered by age, the
memtables are newer than all tables, and what stays behind on the level of a running
compaction is newer than its inputs. Flushes and writes keep all of it, and so does an
edit that replaces files by files with the same entries one level down.
-/

namespace Lpad

/-! ## Entries -/

/-- The entries of the tables of a level. -/
def Database.entriesAt (db : Database) (level : Nat) : List Record :=
  (db.versions.current.files level).flatMap fun f => db.tables f.number

/-- **Age order of levels.** -/
def Database.LevelsAged (db : Database) : Prop :=
  ∀ i j, i < j → ∀ x ∈ db.entriesAt i, ∀ y ∈ db.entriesAt j,
    extractUserKey x.key = extractUserKey y.key → keySequence y.key < keySequence x.key

/-- The keys in some tables. -/
def Contents.keysOf (d : Contents) (files : List FileMetaData) : Set Bytes :=
  { k | ∃ f ∈ files, ∃ x ∈ d.tables f.number, x.key = k }

def Contents.keysAt (d : Contents) (level : Nat) : Set Bytes := d.keysOf (d.current.files level)

theorem Contents.keysOf_mono {d : Contents} {files files' : List FileMetaData}
    (h : ∀ f ∈ files, f ∈ files') : d.keysOf files ⊆ d.keysOf files' := by
  rintro k ⟨f, hf, x, hx, rfl⟩
  exact ⟨f, h f hf, x, hx, rfl⟩

theorem Contents.Keeps.keysOf {d d' : Contents} (h : d.Keeps d') {files : List FileMetaData}
    (hbelow : ∀ f ∈ files, f.number < d.nextFileNumber) : d'.keysOf files = d.keysOf files := by
  ext k
  constructor
  · rintro ⟨f, hf, x, hx, rfl⟩
    rw [h.tables f.number (hbelow f hf)] at hx
    exact ⟨f, hf, x, hx, rfl⟩
  · rintro ⟨f, hf, x, hx, rfl⟩
    refine ⟨f, hf, x, ?_, rfl⟩
    rw [h.tables f.number (hbelow f hf)]
    exact hx

theorem Database.levelsAged_iff {db : Database} :
    db.LevelsAged ↔ AgeOrdered extractUserKey keySequence db.contents.keysAt := by
  unfold LevelsAged entriesAt
  constructor
  · rintro h i j hij _ ⟨f, hf, x, hx, rfl⟩ _ ⟨g, hg, y, hy, rfl⟩
    exact h i j hij x (List.mem_flatMap.mpr ⟨f, hf, hx⟩) y (List.mem_flatMap.mpr ⟨g, hg, hy⟩)
  · intro h i j hij x hx y hy
    obtain ⟨f, hf, hx⟩ := List.mem_flatMap.mp hx
    obtain ⟨g, hg, hy⟩ := List.mem_flatMap.mp hy
    exact h i j hij x.key ⟨f, hf, x, hx, rfl⟩ y.key ⟨g, hg, y, hy, rfl⟩

/-! ## The invariant -/

/-- The records of a table are sorted, well formed, and between its bounds. -/
structure FileMetaData.Describes (f : FileMetaData) (records : List Record) : Prop where
  sorted : InOrder records
  wellFormed : ∀ x ∈ records, WellFormed x.key
  lower : ∀ x ∈ records, f.lo ≤ keyRank x.key
  upper : ∀ x ∈ records, keyRank x.key ≤ f.hi

instance (f : FileMetaData) (records : List Record) : Decidable (f.Describes records) :=
  decidable_of_iff (InOrder records ∧ (∀ x ∈ records, WellFormed x.key) ∧
      (∀ x ∈ records, f.lo ≤ keyRank x.key) ∧ ∀ x ∈ records, keyRank x.key ≤ f.hi)
    ⟨fun h => ⟨h.1, h.2.1, h.2.2.1, h.2.2.2⟩,
      fun h => ⟨h.sorted, h.wellFormed, h.lower, h.upper⟩⟩

/-- The memtables are newer than the tables, the immutable one is the older of the two,
and all entries are numbered. -/
structure Contents.Layered (d : Contents) : Prop where
  increasing : (d.imm.getD [] ++ d.mem).Pairwise fun e e' => e.sequence < e'.sequence
  above : ∀ level, ∀ k ∈ d.keysAt level, ∀ e ∈ d.imm.getD [] ++ d.mem, keySequence k < e.sequence
  stored : ∀ level, ∀ k ∈ d.keysAt level, keySequence k ≤ d.lastSequence
  pending : ∀ e ∈ d.imm.getD [] ++ d.mem, e.sequence ≤ d.lastSequence
  bounded : d.lastSequence ≤ kMaxSequenceNumber

/-- Nothing is added to the memtables or the tables. -/
theorem Contents.Layered.subset {d d' : Contents} (h : d.Layered)
    (hmem : (d'.imm.getD [] ++ d'.mem).Sublist (d.imm.getD [] ++ d.mem))
    (hlast : d'.lastSequence = d.lastSequence)
    (hkeys : ∀ level, ∀ k ∈ d'.keysAt level, ∃ level', k ∈ d.keysAt level') : d'.Layered where
  increasing := h.increasing.sublist hmem
  above := by
    intro level k hk e he
    obtain ⟨level', hk⟩ := hkeys level k hk
    exact h.above level' k hk e (hmem.subset he)
  stored := by
    intro level k hk
    obtain ⟨level', hk⟩ := hkeys level k hk
    rw [hlast]
    exact h.stored level' k hk
  pending := by
    intro e he
    rw [hlast]
    exact h.pending e (hmem.subset he)
  bounded := by
    rw [hlast]
    exact h.bounded

/-- The inputs of a compaction below level 0 are in a row, those of level 0 are different
files. -/
structure Compaction.Lined (c : Compaction) : Prop where
  row0 : 0 < c.level → FilesInRow c.inputs0
  numbers0 : c.level = 0 → c.inputs0.Pairwise fun f g => f.number ≠ g.number
  row1 : FilesInRow c.inputs1

/-- The files that stay on the level of a compaction. -/
def Version.staying (v : Version) (c : Compaction) : List FileMetaData :=
  (v.files c.level).filter (· ∉ c.inputs0)

structure Contents.Aged (d : Contents) : Prop where
  levels : d.LevelsOrdered
  tables : ∀ level, ∀ f ∈ d.current.files level, f.Describes (d.tables f.number)
  numbers : (d.current.files 0).Pairwise fun f g => f.number ≠ g.number
  level0 : ∀ f ∈ d.current.files 0, ∀ g ∈ d.current.files 0, f.number < g.number →
    ∀ k ∈ d.keysOf [f], ∀ k' ∈ d.keysOf [g], keySequence k < keySequence k'
  order : AgeOrdered extractUserKey keySequence d.keysAt
  memory : d.Layered
  lined : ∀ r, d.running = some r → r.compaction.Lined
  staying : ∀ r, d.running = some r → Newer extractUserKey keySequence
    (d.keysOf (d.current.staying r.compaction)) (d.keysOf r.compaction.inputs0)

/-! ## Steps that leave the tables alone -/

/-- The part of the invariant that speaks of tables, in a state with the same files and
tables. -/
theorem Contents.Aged.sameTables {d d' : Contents} (h : d.Aged) (hkeeps : d.Keeps d')
    (hfiles : d'.current.files = d.current.files) (hlevels : d'.LevelsOrdered)
    (hmemory : d'.keysAt = d.keysAt → d'.Layered)
    (hrunning : d'.running = d.running ∨ d'.running = none) : d'.Aged := by
  have hsame : ∀ files : List FileMetaData, (∀ f ∈ files, ∃ level, f ∈ d.current.files level) →
      d'.keysOf files = d.keysOf files := by
    intro files hmem
    refine hkeeps.keysOf fun f hf => ?_
    obtain ⟨level, hf⟩ := hmem f hf
    exact h.levels.below level f hf
  have hkeys : d'.keysAt = d.keysAt := by
    funext level
    rw [keysAt, keysAt, hfiles]
    exact hsame _ fun f hf => ⟨level, hf⟩
  have hr : ∀ r, d'.running = some r → d.running = some r := by
    intro r hr
    rcases hrunning with heq | hnone
    · rwa [heq] at hr
    · rw [hnone] at hr
      cases hr
  refine ⟨hlevels, ?_, ?_, ?_, ?_, hmemory hkeys, ?_, ?_⟩
  · intro level f hf
    rw [hfiles] at hf
    rw [hkeeps.tables _ (h.levels.below level f hf)]
    exact h.tables level f hf
  · rw [hfiles]
    exact h.numbers
  · rw [hfiles]
    intro f hf g hg hlt
    rw [hsame [f] fun x hx => ⟨0, by rwa [List.mem_singleton.mp hx]⟩,
      hsame [g] fun x hx => ⟨0, by rwa [List.mem_singleton.mp hx]⟩]
    exact h.level0 f hf g hg hlt
  · rw [hkeys]
    exact h.order
  · exact fun r hr' => h.lined r (hr r hr')
  · intro r hr'
    have hsound := h.levels.running r (hr r hr')
    have hstaying : d'.current.staying r.compaction = d.current.staying r.compaction := by
      rw [Version.staying, Version.staying, hfiles]
    rw [hstaying, hsame (d.current.staying r.compaction) fun f hf => ⟨_, List.mem_of_mem_filter hf⟩,
      hsame _ fun f hf => ⟨_, hsound.inputs0 f hf⟩]
    exact h.staying r (hr r hr')

/-! ## Writes -/

/-- The batch is one of the batch interface, and there are numbers for its operations. -/
def Database.Numbers (db : Database) : Event → Prop
  | .write updates _ _ => ∃ ops, updates.Encodes ops ∧
      db.versions.lastSequence + ops.length ≤ kMaxSequenceNumber
  | _ => True

theorem Contents.Layered.write {db : Database} (h : db.contents.Layered) {updates : WriteBatch}
    {sync : Bool} {io : LogIO} (hwrite : db.Numbers (.write updates sync io)) :
    Contents.Layered { db.contents with
      mem := (db.writeState.commit updates sync io).1.mem
      lastSequence := (db.writeState.commit updates sync io).1.lastSequence } := by
  obtain ⟨ops, hops, hmax⟩ := hwrite
  obtain ⟨hlast, hmem⟩ := db.writeState.commit_cases hops hmax sync io
  have hgrow : db.contents.lastSequence ≤
      (db.writeState.commit updates sync io).1.lastSequence := by
    rw [hlast]
    exact Nat.le_add_right _ _
  rcases hmem with hmem | hmem
  · -- nothing was inserted, but the numbers are used up
    refine ⟨?_, ?_, ?_, ?_, ?_⟩
    · rw [hmem]
      exact h.increasing
    · rw [hmem]
      exact h.above
    · exact fun level k hk => le_trans (h.stored level k hk) hgrow
    · rw [hmem]
      exact fun e he => le_trans (h.pending e he) hgrow
    · rw [hlast]
      exact hmax
  · -- the new entries have the numbers after the last one
    have hnew : ∀ e ∈ numbered (db.versions.lastSequence + 1) ops,
        db.contents.lastSequence < e.sequence ∧
          e.sequence ≤ db.versions.lastSequence + ops.length := by
      intro e he
      obtain ⟨hle, hlt⟩ := numbered_bounds ops _ e he
      refine ⟨hle, ?_⟩
      omega
    have hsplit : ∀ e ∈ db.contents.imm.getD [] ++
        (db.mem ++ numbered (db.versions.lastSequence + 1) ops),
        e ∈ db.contents.imm.getD [] ++ db.contents.mem ∨
          e ∈ numbered (db.versions.lastSequence + 1) ops := by
      intro e he
      rw [← List.append_assoc] at he
      exact List.mem_append.mp he
    refine ⟨?_, ?_, ?_, ?_, ?_⟩
    · rw [hmem]
      show (db.contents.imm.getD [] ++
        (db.mem ++ numbered (db.versions.lastSequence + 1) ops)).Pairwise _
      rw [← List.append_assoc, List.pairwise_append]
      refine ⟨h.increasing, numbered_increasing _ _, ?_⟩
      intro e he e' he'
      exact lt_of_le_of_lt (h.pending e he) (hnew e' he').1
    · rw [hmem]
      intro level k hk e he
      rcases hsplit e he with he | he
      · exact h.above level k hk e he
      · exact lt_of_le_of_lt (h.stored level k hk) (hnew e he).1
    · exact fun level k hk => le_trans (h.stored level k hk) hgrow
    · rw [hmem]
      intro e he
      rcases hsplit e he with he | he
      · exact le_trans (h.pending e he) hgrow
      · rw [hlast]
        exact (hnew e he).2
    · rw [hlast]
      exact hmax

/-! ## Flushes -/

section Flush

variable {mem : MemTable}

theorem MemEntry.record_wellFormed {e : MemEntry} (h : e.sequence ≤ kMaxSequenceNumber) :
    WellFormed e.record.key ∧ keySequence e.record.key = e.sequence :=
  ⟨⟨_, h, rfl⟩, keySequence_appendInternalKey (p := ⟨e.userKey, e.sequence, e.type⟩) h⟩

/-- The table of a memtable with different numbers. -/
theorem MemTable.Spans.describes {first last : Record} (h : mem.Spans first last)
    (hbound : ∀ e ∈ mem, e.sequence ≤ kMaxSequenceNumber)
    (hincreasing : mem.Pairwise fun e e' => e.sequence < e'.sequence) {f : FileMetaData}
    (hsmallest : f.smallest = first.key) (hlargest : f.largest = last.key) :
    f.Describes mem.records := by
  have hwell : ∀ x ∈ mem.records, WellFormed x.key := by
    intro x hx
    obtain ⟨e, he, rfl⟩ := MemTable.mem_records.mp hx
    exact (MemEntry.record_wellFormed (hbound e he)).1
  have hdistinct : mem.records.Pairwise fun x y => x.key ≠ y.key := by
    have hmap : (mem.map MemEntry.record).Pairwise fun x y => x.key ≠ y.key := by
      rw [List.pairwise_map]
      refine List.Pairwise.imp_of_mem ?_ hincreasing
      intro e e' he he' hlt heq
      have hseq := congrArg keySequence heq
      rw [(MemEntry.record_wellFormed (hbound e he)).2,
        (MemEntry.record_wellFormed (hbound e' he')).2] at hseq
      exact absurd hseq (ne_of_lt hlt)
    exact ((List.perm_insertionSort _ _).pairwise_iff fun h => h.symm).mpr hmap
  refine ⟨?_, hwell, ?_, ?_⟩
  · rw [inOrder_iff]
    refine List.Pairwise.imp_of_mem ?_ (mem.records_sorted.and hdistinct)
    rintro x y hx hy ⟨hle, hne⟩
    refine lt_of_le_of_ne hle fun heq => hne ?_
    exact keyRank_injective (hwell x hx).length (hwell y hy).length heq
  · intro x hx
    show keyRank f.smallest ≤ _
    rw [hsmallest]
    exact (bounds_of_sorted mem.records_sorted h.head h.last hx).1
  · intro x hx
    show _ ≤ keyRank f.largest
    rw [hlargest]
    exact (bounds_of_sorted mem.records_sorted h.head h.last hx).2

/-- A memtable that goes below level 0 has no user key in common with a table down to its
level. -/
theorem Version.Ordered.flush_disjoint {v : Version} (h : v.Ordered) {first last : Record}
    (hspans : mem.Spans first last) {level : Nat}
    (hlevel : v.pickLevelForMemTableOutput (extractUserKey first.key)
      (extractUserKey last.key) = level) {j : Nat} (hj : j < level) {f : FileMetaData}
    (hf : f ∈ v.files j) {records : List Record} (hdescribes : f.Describes records)
    {x y : Record} (hx : x ∈ records) (hy : y ∈ mem.records) :
    extractUserKey x.key ≠ extractUserKey y.key := by
  intro heq
  have hclear : v.overlapInLevel j (some (extractUserKey first.key))
      (some (extractUserKey last.key)) = false := by
    subst hlevel
    exact Version.pickLevel_clear (Nat.zero_lt_of_lt hj) (le_of_lt hj)
  obtain ⟨hfirst, hlast⟩ := bounds_of_sorted mem.records_sorted hspans.head hspans.last hy
  rcases Version.overlapInLevel_eq_false (h.row j) (h.proper j) hclear f hf with hlt | hlt
  · -- the file ends before the entries of the first user key, and `x` is one of them or later
    have hxlt := lt_of_le_of_lt (hdescribes.upper x hx) hlt
    have hle : extractUserKey x.key ≤ extractUserKey first.key := by
      have := userKey_le_of_keyRank_le (le_of_lt hxlt)
      rwa [extractUserKey_appendInternalKey] at this
    have hsame : extractUserKey x.key = extractUserKey first.key :=
      le_antisymm hle (heq ▸ userKey_le_of_keyRank_le hfirst)
    rw [← hsame] at hxlt
    exact absurd (hdescribes.wellFormed x hx).seek_le (not_le_of_gt hxlt)
  · have hxstart := userKey_le_of_keyRank_le (hdescribes.lower x hx)
    have hylast := userKey_le_of_keyRank_le hlast
    rw [← heq] at hylast
    exact absurd (lt_of_lt_of_le hlt hxstart) (not_lt_of_ge hylast)

end Flush

/-- The files of a version after a flush: those before, and the new one. -/
theorem VersionEdit.Flushes.mem_files {vs : VersionSet} {edit : VersionEdit}
    {number level level' : Nat} {first last : Record}
    (h : edit.Flushes vs.current number first last level) {f : FileMetaData}
    (hf : f ∈ (vs.nextVersion edit).files level') :
    (level' = level ∧ f.number = number ∧ f.smallest = first.key ∧ f.largest = last.key) ∨
      f ∈ vs.current.files level' := by
  rcases VersionSet.mem_nextVersion h.fresh hf with hnew | ⟨hold, -⟩
  · obtain ⟨hlevel, hrest⟩ := h.mem_filesFor hnew
    exact Or.inl ⟨hlevel.symm, hrest⟩
  · exact Or.inr hold

/-- Level 0 after a flush has different files. -/
theorem VersionEdit.Flushes.numbers {vs : VersionSet} {edit : VersionEdit} {number level : Nat}
    {first last : Record} (h : edit.Flushes vs.current number first last level)
    (hfiles : (vs.current.files 0).Pairwise fun f g => f.number ≠ g.number)
    (hbelow : ∀ f ∈ vs.current.files 0, f.number < number) :
    ((vs.nextVersion edit).files 0).Pairwise fun f g => f.number ≠ g.number := by
  obtain ⟨size, hnew⟩ := h.added
  have hfor := edit.filesFor_single hnew 0
  split at hfor
  · obtain ⟨l, heq, -⟩ := vs.nextVersion_files h.fresh 0
    rw [heq, hfor, (l.mergeFiles_perm _ _).pairwise_iff fun h => h.symm]
    refine List.Pairwise.sublist List.filter_sublist ?_
    refine List.pairwise_cons.mpr ⟨?_, hfiles⟩
    exact fun f hf => (hbelow f hf).ne'
  · exact hfiles.sublist (VersionSet.nextVersion_sublist h.fresh hfor)

/-- `d` is `old` with the table of a memtable: one new file, and all its entries are newer
than those there were. -/
structure Contents.Flushed (d old : Contents) (mem : MemTable) (level : Nat) : Prop where
  files : ∀ level' f, f ∈ d.current.files level' →
    (level' = level ∧ f.number = old.nextFileNumber ∧ f.Describes mem.records) ∨
      f ∈ old.current.files level'
  tables : ∀ n < old.nextFileNumber, d.tables n = old.tables n
  stored : d.tables old.nextFileNumber = mem.records
  newer : ∀ x ∈ mem.records, ∀ i, ∀ k ∈ old.keysAt i, keySequence k < keySequence x.key

namespace Contents.Flushed

variable {d old : Contents} {mem : MemTable} {level : Nat}

theorem keys (h : d.Flushed old mem level) (hold : old.LevelsOrdered) :
    ∀ i, ∀ k ∈ d.keysAt i, k ∈ old.keysAt i ∨
      i = level ∧ k ∈ { k | ∃ x ∈ mem.records, x.key = k } := by
  rintro i k ⟨f, hf, x, hx, rfl⟩
  rcases h.files i f hf with ⟨rfl, hnumber, -⟩ | hf
  · rw [hnumber, h.stored] at hx
    exact Or.inr ⟨rfl, x, hx, rfl⟩
  · rw [h.tables _ (hold.below i f hf)] at hx
    exact Or.inl ⟨f, hf, x, hx, rfl⟩

theorem describes (h : d.Flushed old mem level) (hold : old.Aged) :
    ∀ level', ∀ f ∈ d.current.files level', f.Describes (d.tables f.number) := by
  intro level' f hf
  rcases h.files level' f hf with ⟨-, hnumber, hdescribes⟩ | hf
  · rw [hnumber, h.stored]
    exact hdescribes
  · rw [h.tables _ (hold.levels.below level' f hf)]
    exact hold.tables level' f hf

/-- The new file has the largest number. -/
theorem level0 (h : d.Flushed old mem level) (hold : old.Aged) :
    ∀ f ∈ d.current.files 0, ∀ g ∈ d.current.files 0, f.number < g.number →
      ∀ k ∈ d.keysOf [f], ∀ k' ∈ d.keysOf [g], keySequence k < keySequence k' := by
  rintro f hf g hg hlt _ ⟨f', hf', x, hx, rfl⟩ _ ⟨g', hg', y, hy, rfl⟩
  obtain rfl := List.mem_singleton.mp hf'
  obtain rfl := List.mem_singleton.mp hg'
  rcases h.files 0 f' hf with ⟨-, hnumber, -⟩ | hfold
  · rcases h.files 0 g' hg with ⟨-, hnumber', -⟩ | hgold
    · rw [hnumber, hnumber'] at hlt
      exact absurd hlt (lt_irrefl _)
    · have hbelow := hold.levels.below 0 g' hgold
      rw [hnumber] at hlt
      exact absurd (lt_trans hlt hbelow) (lt_irrefl _)
  · rw [h.tables _ (hold.levels.below 0 f' hfold)] at hx
    rcases h.files 0 g' hg with ⟨-, hnumber', -⟩ | hgold
    · rw [hnumber', h.stored] at hy
      exact h.newer y hy 0 x.key ⟨f', hfold, x, hx, rfl⟩
    · rw [h.tables _ (hold.levels.below 0 g' hgold)] at hy
      exact hold.level0 f' hfold g' hgold hlt x.key ⟨f', List.mem_singleton_self _, x, hx, rfl⟩
        y.key ⟨g', List.mem_singleton_self _, y, hy, rfl⟩

/-- The new table may stay behind on the level of a running compaction. -/
theorem staying (h : d.Flushed old mem level) (hold : old.Aged) {r : RunningCompaction}
    (hr : old.running = some r) : Newer extractUserKey keySequence
      (d.keysOf (d.current.staying r.compaction)) (d.keysOf r.compaction.inputs0) := by
  rintro _ ⟨g, hg, x, hx, rfl⟩ _ ⟨f, hf, y, hy, rfl⟩ hkey
  have hfin := (hold.levels.running r hr).inputs0 f hf
  rw [h.tables _ (hold.levels.below _ f hfin)] at hy
  obtain ⟨hgmem, hgnot⟩ := List.mem_filter.mp hg
  rcases h.files _ g hgmem with ⟨-, hnumber, -⟩ | hgold
  · rw [hnumber, h.stored] at hx
    exact h.newer x hx _ y.key ⟨f, hfin, y, hy, rfl⟩
  · rw [h.tables _ (hold.levels.below _ g hgold)] at hx
    exact hold.staying r hr x.key ⟨g, List.mem_filter.mpr ⟨hgold, hgnot⟩, x, hx, rfl⟩ y.key
      ⟨f, hf, y, hy, rfl⟩ hkey

/-- The table takes the place of the immutable memtable. -/
theorem layered (h : d.Flushed old mem level) (hold : old.Aged) (himm : old.imm = some mem)
    (hmem : d.mem = old.mem) (hnone : d.imm = none) (hlast : d.lastSequence = old.lastSequence) :
    d.Layered := by
  have hmemory := hold.memory
  have hincreasing := hmemory.increasing
  have hpending := hmemory.pending
  have habove := hmemory.above
  rw [himm, Option.getD_some] at hincreasing hpending habove
  have hsequence : ∀ x ∈ mem.records, ∃ e ∈ mem, keySequence x.key = e.sequence := by
    intro x hx
    obtain ⟨e, he, rfl⟩ := MemTable.mem_records.mp hx
    refine ⟨e, he, (MemEntry.record_wellFormed ?_).2⟩
    exact le_trans (hpending e (List.mem_append_left _ he)) hmemory.bounded
  have hnow : d.imm.getD [] ++ d.mem = old.mem := by
    rw [hnone, hmem]
    rfl
  refine ⟨?_, ?_, ?_, ?_, ?_⟩
  · rw [hnow]
    exact (List.pairwise_append.mp hincreasing).2.1
  · rw [hnow]
    intro i k hk e he
    rcases h.keys hold.levels i k hk with hk | ⟨-, x, hx, rfl⟩
    · exact habove i k hk e (List.mem_append_right _ he)
    · obtain ⟨e', he', heq⟩ := hsequence x hx
      rw [heq]
      exact (List.pairwise_append.mp hincreasing).2.2 e' he' e he
  · rw [hlast]
    intro i k hk
    rcases h.keys hold.levels i k hk with hk | ⟨-, x, hx, rfl⟩
    · exact hmemory.stored i k hk
    · obtain ⟨e', he', heq⟩ := hsequence x hx
      rw [heq]
      exact hpending e' (List.mem_append_left _ he')
  · rw [hnow, hlast]
    exact fun e he => hpending e (List.mem_append_right _ he)
  · rw [hlast]
    exact hmemory.bounded

end Contents.Flushed

/-- The state after a flush. -/
theorem Contents.Aged.flushed_of_flushes {db : Database} (h : db.contents.Aged) {d : Contents}
    {mem : MemTable} (himm : db.imm = some mem) {first last : Record}
    (hspans : mem.Spans first last) {edit : VersionEdit} {level : Nat}
    (hedit : edit.Flushes db.versions.current db.versions.nextFileNumber first last level)
    (hkeeps : db.contents.Keeps d) (hcurrent : d.current = db.versions.nextVersion edit)
    (hstored : d.tables db.versions.nextFileNumber = mem.records) :
    d.Flushed db.contents mem level := by
  have hincreasing := h.memory.increasing
  have hpending := h.memory.pending
  have habove := h.memory.above
  rw [show db.contents.imm = some mem from himm, Option.getD_some] at hincreasing hpending habove
  have hbound : ∀ e ∈ mem, e.sequence ≤ kMaxSequenceNumber := fun e he =>
    le_trans (hpending e (List.mem_append_left _ he)) h.memory.bounded
  refine ⟨?_, hkeeps.tables, hstored, ?_⟩
  · intro level' f hf
    rw [hcurrent] at hf
    rcases hedit.mem_files hf with ⟨hlevel, hnumber, hsmallest, hlargest⟩ | hf
    · exact Or.inl ⟨hlevel, hnumber, hspans.describes hbound
        (List.pairwise_append.mp hincreasing).1 hsmallest hlargest⟩
    · exact Or.inr hf
  · intro x hx i k hk
    obtain ⟨e, he, rfl⟩ := MemTable.mem_records.mp hx
    rw [(MemEntry.record_wellFormed (hbound e he)).2]
    exact habove i k hk e (List.mem_append_left _ he)

/-- **A flush keeps the age order.** -/
theorem Contents.Aged.flush {db : Database} (h : db.contents.Aged) {d : Contents}
    {mem : MemTable} (himm : db.imm = some mem) {first last : Record}
    (hspans : mem.Spans first last) {edit : VersionEdit} {level : Nat}
    (hedit : edit.Flushes db.versions.current db.versions.nextFileNumber first last level)
    (hflushed : d.Flushed db.contents mem level)
    (hcurrent : d.current = db.versions.nextVersion edit) (hrunning : d.running = db.running)
    (hmem : d.mem = db.mem) (hnone : d.imm = none)
    (hlast : d.lastSequence = db.versions.lastSequence) (hlevels : d.LevelsOrdered) : d.Aged where
  levels := hlevels
  tables := hflushed.describes h
  numbers := by
    rw [hcurrent]
    exact hedit.numbers h.numbers (h.levels.below 0)
  level0 := hflushed.level0 h
  order := by
    refine h.order.insert (hflushed.keys h.levels) ?_ ?_
    · rintro _ ⟨x, hx, rfl⟩ i k hk
      exact hflushed.newer x hx i k hk
    · rintro i hi _ ⟨f, hf, x, hx, rfl⟩ _ ⟨y, hy, rfl⟩
      exact h.levels.ordered.flush_disjoint hspans hedit.level hi hf (h.tables i f hf) hx hy
  memory := hflushed.layered h himm hmem hnone hlast
  lined := by
    rw [hrunning]
    exact h.lined
  staying := by
    rw [hrunning]
    exact fun r hr => hflushed.staying h hr

/-! ## Compactions -/

/-- The files of a version in which a compaction is installed. What stays on the level of
the compaction is none of its inputs. -/
theorem VersionEdit.Replaces.mem_files {vs : VersionSet} {edit : VersionEdit} {c : Compaction}
    {outputs : List FileMetaData} (h : edit.Replaces c outputs) (hfresh : edit.Fresh)
    {level : Nat} {f : FileMetaData} (hf : f ∈ (vs.nextVersion edit).files level) :
    (level = c.level + 1 ∧ f ∈ outputs) ∨
      f ∈ vs.current.files level ∧ (level = c.level → f ∈ vs.current.staying c) := by
  rcases VersionSet.mem_nextVersion hfresh hf with hnew | ⟨hold, hkept⟩
  · left
    rw [h.filesFor] at hnew
    split at hnew
    · exact ⟨‹_›, hnew⟩
    · cases hnew
  · right
    refine ⟨hold, ?_⟩
    rintro rfl
    refine List.mem_filter.mpr ⟨hold, decide_eq_true ?_⟩
    intro hin
    exact hkept ((h.deletedFiles _).mpr (Or.inl ⟨f, hin, rfl⟩))

/-- **A compaction keeps the age order** if its outputs hold entries of its inputs and what
stays on its level is newer than the inputs there. -/
theorem Contents.Aged.replace {db : Database} (h : db.contents.Aged) {d : Contents}
    {c : Compaction} (hsound : c.Sound db.versions.current) {edit : VersionEdit}
    {outputs : List FileMetaData} (hedit : edit.Replaces c outputs) (hfresh : edit.Fresh)
    (hkeeps : db.contents.Keeps d) (hcurrent : d.current = db.versions.nextVersion edit)
    (hmemory : db.contents.SameMemory d) (hrunning : d.running = none)
    (hlevels : d.LevelsOrdered)
    (hdescribes : ∀ out ∈ outputs, out.Describes (d.tables out.number))
    (hkeys : d.keysOf outputs ⊆ db.contents.keysOf c.inputs0 ∪ db.contents.keysOf c.inputs1)
    (hstaying : Newer extractUserKey keySequence
      (db.contents.keysOf (db.versions.current.staying c)) (db.contents.keysOf c.inputs0)) :
    d.Aged := by
  have hsplit : ∀ level f, f ∈ d.current.files level → (level = c.level + 1 ∧ f ∈ outputs) ∨
      f ∈ db.versions.current.files level ∧
        (level = c.level → f ∈ db.versions.current.staying c) := by
    intro level f hf
    rw [hcurrent] at hf
    exact hedit.mem_files hfresh hf
  have hold : ∀ level f, f ∈ db.versions.current.files level →
      d.tables f.number = db.tables f.number := fun level f hf =>
    hkeeps.tables f.number (h.levels.below level f hf)
  have hupper : db.contents.keysOf c.inputs0 ⊆ db.contents.keysAt c.level :=
    keysOf_mono hsound.inputs0
  have hlower : db.contents.keysOf c.inputs1 ⊆ db.contents.keysAt (c.level + 1) :=
    keysOf_mono hsound.inputs1
  -- a key stays on its level or comes from an input, one level up at most
  have hsunk : ∀ i, ∀ k ∈ d.keysAt i,
      (k ∈ db.contents.keysAt i ∧
        (i = c.level → k ∈ db.contents.keysOf (db.versions.current.staying c))) ∨
      i = c.level + 1 ∧ (k ∈ db.contents.keysOf c.inputs0 ∨ k ∈ db.contents.keysOf c.inputs1) := by
    rintro i k ⟨f, hf, x, hx, rfl⟩
    rcases hsplit i f hf with ⟨hi, hout⟩ | ⟨hmem, hstay⟩
    · exact Or.inr ⟨hi, hkeys ⟨f, hout, x, hx, rfl⟩⟩
    · rw [hold i f hmem] at hx
      exact Or.inl ⟨⟨f, hmem, x, hx, rfl⟩, fun hi => ⟨f, hstay hi, x, hx, rfl⟩⟩
  have hstored : ∀ i, ∀ k ∈ d.keysAt i, ∃ j, k ∈ db.contents.keysAt j := by
    intro i k hk
    rcases hsunk i k hk with ⟨hk, -⟩ | ⟨-, hk | hk⟩
    · exact ⟨i, hk⟩
    · exact ⟨_, hupper hk⟩
    · exact ⟨_, hlower hk⟩
  have hzero : ∀ f ∈ d.current.files 0, f ∈ db.versions.current.files 0 := by
    intro f hf
    rcases hsplit 0 f hf with ⟨hlevel, -⟩ | ⟨hmem, -⟩
    · exact absurd hlevel (Nat.succ_ne_zero _).symm
    · exact hmem
  refine ⟨hlevels, ?_, ?_, ?_, h.order.sink hsunk hupper hlower hstaying, ?_, ?_, ?_⟩
  · intro level f hf
    rcases hsplit level f hf with ⟨-, hout⟩ | ⟨hmem, -⟩
    · exact hdescribes f hout
    · rw [hold level f hmem]
      exact h.tables level f hmem
  · rw [hcurrent]
    refine h.numbers.sublist (VersionSet.nextVersion_sublist hfresh ?_)
    rw [hedit.filesFor, if_neg (Nat.succ_ne_zero _).symm]
  · intro f hf g hg hlt
    have hsame : ∀ f ∈ db.versions.current.files 0, d.keysOf [f] = db.contents.keysOf [f] :=
      fun f hf => hkeeps.keysOf fun x hx => by
        rw [List.mem_singleton.mp hx]
        exact h.levels.below 0 f hf
    rw [hsame f (hzero f hf), hsame g (hzero g hg)]
    exact h.level0 f (hzero f hf) g (hzero g hg) hlt
  · refine h.memory.subset ?_ hmemory.lastSequence hstored
    rw [hmemory.imm, hmemory.mem]
  · rw [hrunning]
    rintro r hr
    cases hr
  · rw [hrunning]
    rintro r hr
    cases hr

/-! ### Choosing the inputs -/

theorem VersionSet.Chooses.lined {vs vs' : VersionSet} {c : Compaction} (h : vs.Chooses c vs')
    (hordered : vs.current.Ordered)
    (hnumbers : (vs.current.files 0).Pairwise fun f g => f.number ≠ g.number) : c.Lined := by
  obtain ⟨level, inputs0, hsub, -, rfl⟩ := h.inputs hordered
  have hsub0 : (vs.current.growInputs level inputs0).1.Sublist (vs.current.files level) := by
    rcases vs.current.growInputs_fst level inputs0 with heq | hgrown
    · rw [heq]
      exact hsub
    · exact hgrown
  refine ⟨fun hpos => (hordered.row level hpos).sublist hsub0, ?_, ?_⟩
  · rintro rfl
    exact hnumbers.sublist hsub0
  · exact (hordered.row (level + 1) (Nat.succ_pos level)).sublist
      (vs.current.growInputs_snd level inputs0)

/-- What stays on the level of a chosen compaction has no user key in common with the
inputs there, if no user key of the level is split. -/
theorem VersionSet.Chooses.keysApart {vs vs' : VersionSet} {c : Compaction}
    (h : vs.Chooses c vs') (hordered : vs.current.Ordered)
    (hunsplit : 1 ≤ c.level → vs.current.Unsplit c.level) {f g : FileMetaData}
    (hg : g ∈ vs.current.staying c) (hf : f ∈ c.inputs0) : KeysApart g f := by
  have hsound := h.sound hordered
  obtain ⟨hmem, hnot⟩ := List.mem_filter.mp hg
  have hnot := of_decide_eq_true hnot
  obtain ⟨level, inputs0, -, hclosed, rfl⟩ := h.inputs hordered
  rcases Nat.eq_zero_or_pos level with rfl | hpos
  · -- `SetupOtherInputs` leaves the inputs or takes all that overlap
    change f ∈ (vs.current.growInputs 0 inputs0).1 at hf
    change g ∉ (vs.current.growInputs 0 inputs0).1 at hnot
    rcases vs.current.growInputs_fst_eq 0 inputs0 with heq | ⟨b, e, heq⟩
    · rw [heq] at hf hnot
      exact hclosed rfl g hmem hnot f hf
    · rw [heq] at hf hnot
      exact Version.getOverlappingInputs_zero hmem hnot hf
  · refine (hunsplit hpos).keysApart (hordered.row level hpos) hmem (hsound.inputs0 f hf) ?_
    rintro rfl
    exact hnot hf

theorem Contents.Aged.chosen_staying {db : Database} (h : db.contents.Aged) {c : Compaction}
    {vs : VersionSet} (hchosen : db.versions.Chooses c vs)
    (hunsplit : 1 ≤ c.level → db.versions.current.Unsplit c.level) :
    Newer extractUserKey keySequence (db.contents.keysOf (db.versions.current.staying c))
      (db.contents.keysOf c.inputs0) := by
  rintro _ ⟨g, hg, x, hx, rfl⟩ _ ⟨f, hf, y, hy, rfl⟩ hkey
  have hg' := h.tables c.level g (List.mem_of_mem_filter hg)
  have hf' := h.tables c.level f ((hchosen.sound h.levels.ordered).inputs0 f hf)
  have hxlo := userKey_le_of_keyRank_le (hg'.lower x hx)
  have hxhi := userKey_le_of_keyRank_le (hg'.upper x hx)
  have hylo := userKey_le_of_keyRank_le (hf'.lower y hy)
  have hyhi := userKey_le_of_keyRank_le (hf'.upper y hy)
  rw [hkey] at hxlo hxhi
  rcases hchosen.keysApart h.levels.ordered hunsplit hg hf with hlt | hlt
  · exact absurd (lt_of_le_of_lt hxhi (lt_of_lt_of_le hlt hylo)) (lt_irrefl _)
  · exact absurd (lt_of_le_of_lt hyhi (lt_of_lt_of_le hlt hxlo)) (lt_irrefl _)

end Lpad
