import Lpad.DB.BaseLevel
import Lpad.DB.CompactionSpec

/-!
# Which compactions depend on earlier ones

The drop state is a process global, so a compaction starts with what the one before
it left there. Only its first record can notice: the drop rule overwrites the state
with the key and the sequence number of the record it has just seen. The first record
notices when the state names its user key with a sequence number that is already
below the smallest snapshot (`DropState.Hides`), because then the rule takes it for
an old entry of the same key. `drop_decisions_agree` is the statement for two arbitrary
histories.

If one history hides the first record and the other does not, the two runs also ask
`IsBaseLevelForKey` about different keys, and its level pointers differ from then on.
They give the same answers for all keys from that of the first record on: a pointer that lags
behind catches up (`PtrsAgree`).
-/

namespace Lpad

/-! ## Level pointers -/

/-- The pointers `p` and `q` find the same files for all keys from `key` on. -/
def PtrsAgree (v : Version) (key : Bytes) (p q : Nat → Nat) : Prop :=
  ∀ lvl key', key ≤ key' →
    seekLevel (v.files lvl) key' (p lvl) = seekLevel (v.files lvl) key' (q lvl)

theorem PtrsAgree.refl (v : Version) (key : Bytes) (p : Nat → Nat) : PtrsAgree v key p p :=
  fun _ _ _ => rfl

theorem PtrsAgree.symm {v : Version} {key : Bytes} {p q : Nat → Nat} (h : PtrsAgree v key p q) :
    PtrsAgree v key q p :=
  fun lvl key' hle => (h lvl key' hle).symm

theorem PtrsAgree.trans {v : Version} {key : Bytes} {p q r : Nat → Nat}
    (h : PtrsAgree v key p q) (h' : PtrsAgree v key q r) : PtrsAgree v key p r :=
  fun lvl key' hle => (h lvl key' hle).trans (h' lvl key' hle)

theorem PtrsAgree.mono {v : Version} {key key' : Bytes} {p q : Nat → Nat}
    (h : PtrsAgree v key p q) (hle : key ≤ key') : PtrsAgree v key' p q :=
  fun lvl key'' hle' => h lvl key'' (le_trans hle hle')

theorem ptrsAgree_iff {v : Version} {key : Bytes} {p q : Nat → Nat} :
    PtrsAgree v key p q ↔ PtrsAgreeBy sliceCompare v key p q := by
  simp only [PtrsAgree, PtrsAgreeBy, ne_eq, sliceCompare_gt_iff, not_lt]
  rfl

/-- The pointers after a query find what they found before it. -/
theorem baseLevelLoop_ptrs (v : Version) (key : Bytes) (lvls : List Nat) (p : Nat → Nat) :
    PtrsAgree v key p (baseLevelLoop v key lvls p).2 := by
  rw [ptrsAgree_iff, ← baseLevelLoopBy_sliceCompare]
  exact baseLevelLoopBy_ptrs v key lvls p

/-- Pointers that agree get the same answer. -/
theorem baseLevelLoop_answer {v : Version} {key : Bytes} (lvls : List Nat) {p q : Nat → Nat}
    (h : PtrsAgree v key p q) :
    (baseLevelLoop v key lvls p).1 = (baseLevelLoop v key lvls q).1 := by
  rw [← baseLevelLoopBy_sliceCompare, ← baseLevelLoopBy_sliceCompare]
  exact baseLevelLoopBy_answer lvls (ptrsAgree_iff.mp h)

theorem baseLevelLoop_agree {v : Version} {low key : Bytes} (hkey : low ≤ key) :
    ∀ (lvls : List Nat) {p q : Nat → Nat}, PtrsAgree v low p q →
      PtrsAgree v low (baseLevelLoop v key lvls p).2 (baseLevelLoop v key lvls q).2
  | [], _, _, h => h
  | lvl :: lvls, p, q, h => by
    have hnext : PtrsAgree v low
        (Function.update p lvl (seekLevel (v.files lvl) key (p lvl)))
        (Function.update q lvl (seekLevel (v.files lvl) key (q lvl))) := by
      intro lvl' key' hle
      by_cases hlvl : lvl' = lvl
      · subst hlvl
        rw [Function.update_self, Function.update_self, h lvl' key hkey]
      · rw [Function.update_of_ne hlvl, Function.update_of_ne hlvl]
        exact h lvl' key' hle
    have ih := baseLevelLoop_agree hkey lvls hnext
    unfold baseLevelLoop
    dsimp only
    rw [← h lvl key hkey] at hnext ih ⊢
    split
    · split
      · exact ih
      · exact hnext
    · exact ih

/-! ## States that differ in their pointers -/

def Compaction.withPtrs (c : Compaction) (p : Nat → Nat) : Compaction := { c with levelPtrs := p }

def CompactionState.withPtrs (st : CompactionState) (p : Nat → Nat) : CompactionState :=
  { st with compaction := st.compaction.withPtrs p }

section WithPtrs

variable (files : Files) (st : CompactionState) (p : Nat → Nat)

theorem CompactionState.finishOutputFile_withPtrs :
    (st.withPtrs p).finishOutputFile files =
      ((st.finishOutputFile files).1, (st.finishOutputFile files).2.withPtrs p) := by
  obtain ⟨c, snapshot, outputs, builder, total⟩ := st
  cases builder with
  | none => rfl
  | some entries => rfl

theorem CompactionState.ensureOpen_withPtrs :
    (st.withPtrs p).ensureOpen files =
      ((st.ensureOpen files).1, (st.ensureOpen files).2.withPtrs p) := by
  obtain ⟨c, snapshot, outputs, builder, total⟩ := st
  cases builder with
  | none =>
    by_cases hok : (files.newWritableFile outputs.length).isOk = true
    · simp [ensureOpen, openOutputFile, withPtrs, hok]
    · simp [ensureOpen, openOutputFile, withPtrs, hok]
  | some entries => rfl

theorem CompactionState.closeIfBig_withPtrs :
    (st.withPtrs p).closeIfBig files =
      ((st.closeIfBig files).1, (st.closeIfBig files).2.withPtrs p) := by
  have hfinish := finishOutputFile_withPtrs files st p
  unfold closeIfBig
  by_cases hbig : files.fileSize (st.outputs.length - 1) (st.builder.getD []) ≥
      st.compaction.maxOutputFileSize
  · rw [if_pos hbig]
    exact (if_pos hbig).trans hfinish
  · rw [if_neg hbig]
    exact if_neg hbig

theorem CompactionState.writeRecord_withPtrs (r : Record) :
    (st.withPtrs p).writeRecord files r =
      ((st.writeRecord files r).1, (st.writeRecord files r).2.1,
        (st.writeRecord files r).2.2.withPtrs p) := by
  unfold writeRecord
  rw [ensureOpen_withPtrs]
  dsimp only
  split
  · have hclose := closeIfBig_withPtrs files ((st.ensureOpen files).2.add
      ((st.ensureOpen files).2.builder.getD []) r) p
    exact congrArg (fun x : Status × CompactionState => (x.1, Fate.added, x.2)) hclose
  · rfl

end WithPtrs

/-! ## The drop rule -/

/-- An earlier compaction hides a record: it left the record's user key in the drop
state, with a sequence number no live snapshot can tell apart. -/
def DropState.Hides (d : DropState) (smallestSnapshot : Nat) (key : Bytes) : Prop :=
  ∃ ikey, parseInternalKey key = some ikey ∧ d.hasCurrentUserKey = true ∧
    d.currentUserKey = ikey.userKey ∧ d.lastSequenceForKey ≤ smallestSnapshot

theorem DropState.enter_of_same {d : DropState} {userKey : Bytes}
    (hhas : d.hasCurrentUserKey = true) (hkey : d.currentUserKey = userKey) :
    d.enter userKey = d := by
  rw [enter, if_neg]
  rintro (h | h)
  · rw [hhas] at h
    cases h
  · exact h (sliceCompare_eq_iff.mpr hkey.symm)

theorem DropState.enter_of_other {d : DropState} {userKey : Bytes}
    (h : ¬ (d.hasCurrentUserKey = true ∧ d.currentUserKey = userKey)) :
    d.enter userKey = ⟨userKey, true, kMaxSequenceNumber⟩ := by
  rw [enter, if_pos]
  rw [not_and_or] at h
  rcases h with h | h
  · exact Or.inl (by simpa using h)
  · right
    intro he
    exact h (sliceCompare_eq_iff.mp he).symm

theorem DropState.enter_names (d : DropState) (u : Bytes) :
    (d.enter u).currentUserKey = u ∧ (d.enter u).hasCurrentUserKey = true := by
  by_cases h : d.hasCurrentUserKey = true ∧ d.currentUserKey = u
  · rw [enter_of_same h.1 h.2]
    exact ⟨h.2, h.1⟩
  · rw [enter_of_other h]
    exact ⟨rfl, rfl⟩

/-- The rule remembers the key it has just seen. -/
theorem dropRule_remembers {key : Bytes} {ikey : ParsedInternalKey}
    (hp : parseInternalKey key = some ikey) (d : DropState) (c : Compaction)
    (smallestSnapshot : Nat) :
    (dropRule d c smallestSnapshot key).2.1 = ⟨ikey.userKey, true, ikey.sequence⟩ := by
  unfold dropRule
  rw [hp]
  dsimp only
  rw [(d.enter_names ikey.userKey).1, (d.enter_names ikey.userKey).2]
  split
  · rfl
  · split <;> rfl

/-- The state after the rule forgets the state before it. -/
theorem dropRule_drop (d d' : DropState) (c c' : Compaction) (smallestSnapshot : Nat)
    (key : Bytes) :
    (dropRule d c smallestSnapshot key).2.1 = (dropRule d' c' smallestSnapshot key).2.1 := by
  cases hp : parseInternalKey key with
  | none =>
    unfold dropRule
    rw [hp]
  | some ikey => rw [dropRule_remembers hp, dropRule_remembers hp]

/-- The rule moves the level pointers only, and only as far as the key. -/
theorem dropRule_compaction (d : DropState) (c : Compaction) (smallestSnapshot : Nat)
    (key : Bytes) : ∃ q, (dropRule d c smallestSnapshot key).2.2 = c.withPtrs q ∧
      PtrsAgree c.inputVersion (extractUserKey key) c.levelPtrs q := by
  have hstay : ∃ q, c = c.withPtrs q ∧
      PtrsAgree c.inputVersion (extractUserKey key) c.levelPtrs q :=
    ⟨c.levelPtrs, rfl, PtrsAgree.refl _ _ _⟩
  unfold dropRule
  cases hp : parseInternalKey key with
  | none => exact hstay
  | some ikey =>
    dsimp only
    split
    · exact hstay
    · split
      · obtain ⟨huser, -⟩ := parseInternalKey_eq_some hp
        refine ⟨_, rfl, ?_⟩
        rw [huser]
        exact baseLevelLoop_ptrs _ _ _ _
      · exact hstay

/-- Pointers that agree for all keys from `low` on lead to one decision, and still agree
after it. -/
theorem dropRule_agree {c c' : Compaction} (hversion : c'.inputVersion = c.inputVersion)
    (hlevel : c'.level = c.level) {low key : Bytes}
    (h : PtrsAgree c.inputVersion low c.levelPtrs c'.levelPtrs)
    (hkey : low ≤ extractUserKey key) (d : DropState) (smallestSnapshot : Nat) :
    (dropRule d c' smallestSnapshot key).1 = (dropRule d c smallestSnapshot key).1 ∧
      PtrsAgree c.inputVersion low (dropRule d c smallestSnapshot key).2.2.levelPtrs
        (dropRule d c' smallestSnapshot key).2.2.levelPtrs := by
  unfold dropRule
  cases hp : parseInternalKey key with
  | none => exact ⟨rfl, h⟩
  | some ikey =>
    dsimp only
    split
    · exact ⟨rfl, h⟩
    · split
      · rw [← (parseInternalKey_eq_some hp).1] at hkey
        unfold Compaction.isBaseLevelForKey Compaction.deeperLevels
        rw [hversion, hlevel]
        exact ⟨(baseLevelLoop_answer _ (h.mono hkey)).symm, baseLevelLoop_agree hkey _ h⟩
      · exact ⟨rfl, h⟩

/-- A hidden record is dropped, and no level pointer moves. -/
theorem dropRule_of_hides {d : DropState} {smallestSnapshot : Nat} {key : Bytes}
    (h : d.Hides smallestSnapshot key) (c : Compaction) :
    (dropRule d c smallestSnapshot key).1 = true ∧
      (dropRule d c smallestSnapshot key).2.2 = c := by
  obtain ⟨ikey, hp, hhas, hkey, hle⟩ := h
  unfold dropRule
  rw [hp]
  dsimp only
  rw [DropState.enter_of_same hhas hkey, if_pos hle]
  exact ⟨rfl, rfl⟩

/-- For a record that is not hidden, the rule is that of a fresh compaction. -/
theorem dropRule_of_not_hides {d : DropState} (hd : d.Bounded) {smallestSnapshot : Nat}
    {key : Bytes} (h : ¬ d.Hides smallestSnapshot key) (c : Compaction) :
    dropRule d c smallestSnapshot key = dropRule DropState.init c smallestSnapshot key := by
  unfold dropRule
  cases hp : parseInternalKey key with
  | none => rfl
  | some ikey =>
    have hinit : DropState.init.enter ikey.userKey =
        ⟨ikey.userKey, true, kMaxSequenceNumber⟩ := by
      apply DropState.enter_of_other
      rintro ⟨h, -⟩
      cases h
    dsimp only
    rw [hinit]
    by_cases hsame : d.hasCurrentUserKey = true ∧ d.currentUserKey = ikey.userKey
    · -- the remembered entry is visible to a snapshot: the rule starts afresh
      have hle : ¬ d.lastSequenceForKey ≤ smallestSnapshot :=
        fun hle => h ⟨ikey, hp, hsame.1, hsame.2, hle⟩
      have hmax : ¬ kMaxSequenceNumber ≤ smallestSnapshot := fun h => hle (le_trans hd h)
      rw [DropState.enter_of_same hsame.1 hsame.2, if_neg hle, if_neg hmax, hsame.1, hsame.2]
    · rw [DropState.enter_of_other hsame]

/-- **What the state before can change**: a record is dropped when it is hidden, or
when a fresh compaction drops it too. -/
theorem dropRule_iff {d : DropState} (hd : d.Bounded) (c : Compaction) (smallestSnapshot : Nat)
    (key : Bytes) :
    (dropRule d c smallestSnapshot key).1 = true ↔
      d.Hides smallestSnapshot key ∨
        (dropRule DropState.init c smallestSnapshot key).1 = true := by
  by_cases h : d.Hides smallestSnapshot key
  · exact iff_of_true (dropRule_of_hides h c).1 (Or.inl h)
  · rw [dropRule_of_not_hides hd h]
    exact ⟨Or.inr, fun hor => hor.resolve_left h⟩

/-- The rule depends on the compaction only through what `IsBaseLevelForKey` reads. -/
theorem dropRule_congr {c c' : Compaction} (hversion : c'.inputVersion = c.inputVersion)
    (hlevel : c'.level = c.level) (hptrs : c'.levelPtrs = c.levelPtrs) (d : DropState)
    (smallestSnapshot : Nat) (key : Bytes) :
    (dropRule d c' smallestSnapshot key).1 = (dropRule d c smallestSnapshot key).1 ∧
      (dropRule d c' smallestSnapshot key).2.2.levelPtrs =
        (dropRule d c smallestSnapshot key).2.2.levelPtrs := by
  unfold dropRule
  cases parseInternalKey key with
  | none => exact ⟨rfl, hptrs⟩
  | some ikey =>
    dsimp only
    split
    · exact ⟨rfl, hptrs⟩
    · split
      · unfold Compaction.isBaseLevelForKey Compaction.deeperLevels
        rw [hversion, hlevel, hptrs]
        exact ⟨rfl, rfl⟩
      · exact ⟨rfl, hptrs⟩

/-! ## One call of `SU_flush_data` in two runs -/

theorem CompactionState.finishOutputFile_compaction (files : Files) (st : CompactionState) :
    (st.finishOutputFile files).2.compaction = st.compaction ∧
      (st.finishOutputFile files).2.smallestSnapshot = st.smallestSnapshot := by
  unfold finishOutputFile
  cases st.builder with
  | none => exact ⟨rfl, rfl⟩
  | some entries => exact ⟨rfl, rfl⟩

/-- Stopping before a key leaves everything alone that the drop rule reads. -/
theorem CompactionState.stopBefore_compaction (files : Files) (st : CompactionState)
    (key : Bytes) :
    (st.stopBefore files key).2.compaction = (st.compaction.shouldStopBefore key).2 ∧
      (st.stopBefore files key).2.smallestSnapshot = st.smallestSnapshot := by
  unfold stopBefore
  dsimp only
  split
  · exact finishOutputFile_compaction files _
  · exact ⟨rfl, rfl⟩

theorem Compaction.shouldStopBefore_reads (c : Compaction) (key : Bytes) :
    (c.shouldStopBefore key).2.inputVersion = c.inputVersion ∧
      (c.shouldStopBefore key).2.level = c.level ∧
      (c.shouldStopBefore key).2.levelPtrs = c.levelPtrs := by
  unfold shouldStopBefore
  dsimp only
  split <;> exact ⟨rfl, rfl, rfl⟩

theorem CompactionState.writeRecord_compaction (files : Files) (st : CompactionState)
    (r : Record) : (st.writeRecord files r).2.2.compaction = st.compaction ∧
      (st.writeRecord files r).2.2.smallestSnapshot = st.smallestSnapshot := by
  have hopen : (st.ensureOpen files).2.compaction = st.compaction ∧
      (st.ensureOpen files).2.smallestSnapshot = st.smallestSnapshot := by
    unfold ensureOpen openOutputFile
    dsimp only
    split
    · split <;> exact ⟨rfl, rfl⟩
    · exact ⟨rfl, rfl⟩
  unfold writeRecord
  dsimp only
  split
  · unfold closeIfBig
    split
    · obtain ⟨hcompaction, hsnapshot⟩ := finishOutputFile_compaction files
        ((st.ensureOpen files).2.add ((st.ensureOpen files).2.builder.getD []) r)
      exact ⟨hcompaction.trans hopen.1, hsnapshot.trans hopen.2⟩
    · exact hopen
  · exact hopen

theorem CompactionState.writeRecord_fate (files : Files) (st : CompactionState) (r : Record) :
    (st.writeRecord files r).2.1 ≠ .skipped ∧ (st.writeRecord files r).2.1 ≠ .dropped := by
  unfold writeRecord
  dsimp only
  split <;> simp

/-- One call in normal form: the stop, the decision, the write, and pointers that have
moved no further than the key. -/
theorem CompactionState.suFlushData_eq (files : Files) (st : CompactionState) (d : DropState)
    (r : Record) : ∃ q,
      q = (dropRule d st.compaction st.smallestSnapshot r.key).2.2.levelPtrs ∧
      PtrsAgree st.compaction.inputVersion (extractUserKey r.key) st.compaction.levelPtrs q ∧
      st.suFlushData files d r =
        if (st.stopBefore files r.key).1.isOk then
          if (dropRule d st.compaction st.smallestSnapshot r.key).1 then
            ⟨.ok, .dropped, (st.stopBefore files r.key).2.withPtrs q,
              (dropRule d st.compaction st.smallestSnapshot r.key).2.1⟩
          else
            let w := (st.stopBefore files r.key).2.writeRecord files r
            ⟨w.1, w.2.1, w.2.2.withPtrs q,
              (dropRule d st.compaction st.smallestSnapshot r.key).2.1⟩
        else ⟨(st.stopBefore files r.key).1, .skipped, (st.stopBefore files r.key).2, d⟩ := by
  obtain ⟨hcomp, hsnap⟩ := stopBefore_compaction files st r.key
  obtain ⟨hversion, hlevel, hptrs⟩ := st.compaction.shouldStopBefore_reads r.key
  obtain ⟨hdec, hmoved⟩ := dropRule_congr hversion hlevel hptrs d st.smallestSnapshot r.key
  obtain ⟨q, hq, hagree⟩ := dropRule_compaction d (st.compaction.shouldStopBefore r.key).2
    st.smallestSnapshot r.key
  rw [hversion, hptrs] at hagree
  rw [hq] at hmoved
  refine ⟨q, hmoved, hagree, ?_⟩
  have hrule : dropRule d (st.stopBefore files r.key).2.compaction
      (st.stopBefore files r.key).2.smallestSnapshot r.key =
      ((dropRule d st.compaction st.smallestSnapshot r.key).1,
        (dropRule d st.compaction st.smallestSnapshot r.key).2.1,
        (st.stopBefore files r.key).2.compaction.withPtrs q) := by
    rw [hcomp, hsnap]
    exact Prod.ext hdec (Prod.ext (dropRule_drop d d _ _ _ _) hq)
  unfold suFlushData
  dsimp only
  rw [hrule]
  split
  · split
    · rfl
    · have hwrite := writeRecord_withPtrs files (st.stopBefore files r.key).2 q r
      exact congrArg (fun x : Status × Fate × CompactionState =>
        (⟨x.1, x.2.1, x.2.2, (dropRule d st.compaction st.smallestSnapshot r.key).2.1⟩ : Flushed))
        hwrite
  · rfl

/-- The two states have in common what the drop rule reads, as far as it matters for keys
from `low` on. -/
structure CompactionState.ReadsAlike (low : Bytes) (st st' : CompactionState) : Prop where
  version : st'.compaction.inputVersion = st.compaction.inputVersion
  level : st'.compaction.level = st.compaction.level
  snapshot : st'.smallestSnapshot = st.smallestSnapshot
  ptrs : PtrsAgree st.compaction.inputVersion low st.compaction.levelPtrs st'.compaction.levelPtrs

/-- One call when no operation on an output file fails. -/
theorem Files.Works.suFlushData_reads {files : Files} (h : files.Works) (st : CompactionState)
    (d : DropState) (r : Record) :
    let rule := dropRule d st.compaction st.smallestSnapshot r.key
    let f := st.suFlushData files d r
    f.fate = (if rule.1 then .dropped else .added) ∧ f.drop = rule.2.1 ∧
      f.compact.compaction.inputVersion = st.compaction.inputVersion ∧
      f.compact.compaction.level = st.compaction.level ∧
      f.compact.smallestSnapshot = st.smallestSnapshot ∧
      f.compact.compaction.levelPtrs = rule.2.2.levelPtrs := by
  obtain ⟨q, rfl, -, heq⟩ := st.suFlushData_eq files d r
  obtain ⟨hcomp, hsnap⟩ := CompactionState.stopBefore_compaction files st r.key
  obtain ⟨hversion, hlevel, -⟩ := st.compaction.shouldStopBefore_reads r.key
  obtain ⟨hcomp', hsnap'⟩ :=
    CompactionState.writeRecord_compaction files (st.stopBefore files r.key).2 r
  rw [← hcomp] at hversion hlevel
  dsimp only
  rw [heq, h.stopBefore, if_pos (by rfl)]
  split
  · exact ⟨rfl, rfl, hversion, hlevel, hsnap, rfl⟩
  · refine ⟨(h.writeRecord _ r).2, rfl, ?_, ?_, hsnap'.trans hsnap, rfl⟩
    · exact (congrArg Compaction.inputVersion hcomp').trans hversion
    · exact (congrArg Compaction.level hcomp').trans hlevel

/-- Two calls on records with one key, with drop states that decide alike. -/
theorem CompactionState.ReadsAlike.step {files : Files} (hworks : files.Works)
    {st st' : CompactionState} {low : Bytes} {d d' : DropState} {r r' : Record}
    (h : st.ReadsAlike low st') (hkey : r'.key = r.key)
    (hdec : (dropRule d' st'.compaction st.smallestSnapshot r.key).1 =
      (dropRule d st.compaction st.smallestSnapshot r.key).1)
    (hptrs : PtrsAgree st.compaction.inputVersion low
      (dropRule d st.compaction st.smallestSnapshot r.key).2.2.levelPtrs
      (dropRule d' st'.compaction st.smallestSnapshot r.key).2.2.levelPtrs) :
    (st'.suFlushData files d' r').fate = (st.suFlushData files d r).fate ∧
      (st'.suFlushData files d' r').drop = (st.suFlushData files d r).drop ∧
      (st.suFlushData files d r).compact.ReadsAlike low (st'.suFlushData files d' r').compact := by
  obtain ⟨hfate, hdrop, hversion, hlevel, hsnap, hmoved⟩ := hworks.suFlushData_reads st d r
  obtain ⟨hfate', hdrop', hversion', hlevel', hsnap', hmoved'⟩ :=
    hworks.suFlushData_reads st' d' r'
  rw [hkey, h.snapshot] at hfate' hdrop' hmoved'
  refine ⟨?_, ?_, ?_, ?_, ?_, ?_⟩
  · rw [hfate, hfate', hdec]
  · rw [hdrop, hdrop']
    exact dropRule_drop d' d _ _ _ _
  · rw [hversion', hversion, h.version]
  · rw [hlevel', hlevel, h.level]
  · rw [hsnap', hsnap, h.snapshot]
  · rw [hversion, hmoved, hmoved']
    exact hptrs

/-- Runs on records with the same keys, all from `low` on, meet the same fates. -/
theorem CompactionState.ReadsAlike.fates {files : Files} (hworks : files.Works) {low : Bytes} :
    ∀ {l l' : List Record} {st st' : CompactionState} (d : DropState), st.ReadsAlike low st' →
    l'.map Record.key = l.map Record.key → (∀ r ∈ l, low ≤ extractUserKey r.key) →
    (flushAll files l' st' d).1.map Outcome.fate = (flushAll files l st d).1.map Outcome.fate
  | [], l', _, _, _, _, hkeys, _ => by
    rw [List.map_eq_nil_iff.mp hkeys]
    rfl
  | r :: l, [], _, _, _, _, hkeys, _ => by cases hkeys
  | r :: l, r' :: l', st, st', d, h, hkeys, hlow => by
    obtain ⟨hkey, hrest⟩ := List.cons.inj hkeys
    obtain ⟨hdec, hptrs⟩ := dropRule_agree h.version h.level h.ptrs (hlow r List.mem_cons_self) d
      st.smallestSnapshot
    obtain ⟨hfate, hdrop, hnext⟩ := h.step hworks hkey hdec hptrs
    have ih := fates hworks (st.suFlushData files d r).drop hnext hrest
      fun x hx => hlow x (List.mem_cons_of_mem _ hx)
    unfold flushAll
    dsimp only
    rw [List.map_cons, List.map_cons, hdrop, ih, hfate]

/-! ## The first record -/

theorem CompactionState.stopBefore_first {files : Files} {st : CompactionState} {key : Bytes}
    (h : st.builder = none) : (st.stopBefore files key).1.isOk = true := by
  unfold stopBefore
  dsimp only
  rw [h]
  simp [Status.isOk]

/-- The compactions that do not depend on the bytes that earlier ones left in the buffers: at
most ten channels, keys that fit their slots, no comparison that reads behind a key; and values
that fit their slots, unless no operation on an output file fails. -/
structure CompactionJob.Fits (job : CompactionJob) : Prop where
  ways : job.nWays ≤ 10
  slot : ∀ c < job.nWays, ∀ r ∈ job.iter c, r.key.length ≤ 32
  comparable : Comparable job.nWays job.iter
  value : (∀ c < job.nWays, ∀ r ∈ job.iter c, r.value.length ≤ 100) ∨ job.files.Works

/-- The keys a compaction flushes do not depend on the buffers it finds. -/
theorem CompactionJob.Fits.flushed {job : CompactionJob} (h : job.Fits)
    {g : Globals} (hidle : g.Idle) {fuel : Nat} (hfuel : job.recordCount < fuel) :
    ∃ w out, doCompactionWork fuel g job = some (job.conclude g w) ∧
      Draws job.nWays job.iter w.nexts out ∧
      Greedy Record.prefix24 job.nWays job.iter w.nexts ∧
      w.flushed.flatten.map Record.key = out.map Record.key ∧
      (w.flushed.flatten = out ∨ job.files.Works) := by
  obtain ⟨w, out, hwork, hdraws, hitems, -, hgreedy⟩ :=
    doCompactionWork_spec hidle.clean hfuel
  exact ⟨w, out, hwork, hdraws, hgreedy h.comparable, keys_of_preserved hdraws h.slot hitems,
    h.value.imp_left fun hvalue => forall₂_preserved_eq hdraws h.slot hvalue hitems⟩

end Lpad
