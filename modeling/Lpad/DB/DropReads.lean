import Lpad.Base.Layers
import Lpad.DB.DropIndependence
import Lpad.Enclave.MergeOrder
import Mathlib.Data.List.Pairwise

/-!
# The drop rule and reads

`SU_flush_data` drops an entry for one of two reasons: a newer entry of its user key is
already visible to the smallest snapshot, or it is a deletion that this snapshot sees
and no deeper level has the user key. The rule does not look for the newer entry. It
only remembers the sequence number of the entry before, which is enough because the
entries come in the order of the comparator: the one before has the least sequence
number of all newer ones (`Fed.hides_iff`).

`flushAll_kept_iff` states the rule as a property of the set of entries.
`flushAll_preservesReads` is what follows for reads at the smallest snapshot or later.

An entry whose call ends before the drop rule, because a table could not be finished,
takes no part in this; `reachedRecords` are the others.
-/

namespace Lpad

/-! ## Entries and reads -/

def Record.userKey (r : Record) : Bytes := extractUserKey r.key

/-- The packed sequence number and type; the comparator puts the larger first. -/
def Record.trailer (r : Record) : Nat := Lpad.trailer r.key

def Record.sequence (r : Record) : Nat := keySequence r.key

/-- What `ParseInternalKey` says about the type. -/
def Record.type (r : Record) : Option ValueType :=
  (parseInternalKey r.key).map ParsedInternalKey.type

/-- A well-formed key parses, to what the record has as its user key and sequence
number. -/
theorem Record.parsed_of_wellFormed {r : Record} (h : WellFormed r.key) :
    ∃ p, parseInternalKey r.key = some p ∧ r.userKey = p.userKey ∧ r.sequence = p.sequence := by
  obtain ⟨p, hp, hkey⟩ := h
  refine ⟨p, ?_, ?_, ?_⟩
  · rw [hkey]
    exact parseInternalKey_appendInternalKey hp
  · rw [Record.userKey, hkey, extractUserKey_appendInternalKey]
  · rw [Record.sequence, hkey, keySequence_appendInternalKey hp]

/-- The newest entry of user key `u` with a sequence number of at most `s`. Where one
sequence number has two entries, the comparator puts the value first. -/
structure NewestAt (records : List Record) (u : Bytes) (s : Nat) (r : Record) : Prop where
  mem : r ∈ records
  userKey : r.userKey = u
  seen : r.sequence ≤ s
  newest : ∀ x ∈ records, x.userKey = u → x.sequence ≤ s → x.trailer ≤ r.trailer

/-- The largest packed number with sequence number `s`. -/
def snapshotTime (s : Nat) : Nat := s * 256 + 255

theorem Record.sequence_le_iff {r : Record} {s : Nat} :
    r.sequence ≤ s ↔ r.trailer ≤ snapshotTime s := by
  unfold Record.sequence Record.trailer keySequence snapshotTime
  omega

theorem newestAt_iff {records : List Record} {u : Bytes} {s : Nat} {r : Record} :
    NewestAt records u s r ↔
      IsNewest Record.userKey Record.trailer { x | x ∈ records } u (snapshotTime s) r := by
  constructor
  · intro h
    refine ⟨h.mem, h.userKey, Record.sequence_le_iff.mp h.seen, fun x hx hu hle => ?_⟩
    exact h.newest x hx hu (Record.sequence_le_iff.mpr hle)
  · intro h
    refine ⟨h.mem, h.key_eq, Record.sequence_le_iff.mpr h.le, fun x hx hu hle => ?_⟩
    exact h.newest x hx hu (Record.sequence_le_iff.mp hle)

/-- A newer entry of the same user key is visible to the smallest snapshot. -/
def HiddenIn (records : List Record) (smallestSnapshot : Nat) (r : Record) : Prop :=
  Hidden Record.userKey Record.trailer { x | x ∈ records } (snapshotTime smallestSnapshot) r

/-- A deletion that the smallest snapshot sees, at the base level of its user key. -/
def CompactionState.Obsolete (st : CompactionState) (r : Record) : Prop :=
  r.type = some .kTypeDeletion ∧ r.sequence ≤ st.smallestSnapshot ∧
    (st.compaction.isBaseLevelForKey r.userKey).1 = true

/-! ## What the calls did -/

/-- The records that got as far as the drop rule. -/
def reachedRecords (outcomes : List Outcome) : List Record :=
  (outcomes.filter fun o => decide (o.fate ≠ .skipped)).map Outcome.record

/-- The records that the drop rule let pass. -/
def keptRecords (outcomes : List Outcome) : List Record :=
  (outcomes.filter fun o => decide (o.fate ≠ .skipped ∧ o.fate ≠ .dropped)).map Outcome.record

theorem reachedRecords_cons (o : Outcome) (outcomes : List Outcome) :
    reachedRecords (o :: outcomes) = if o.fate = .skipped then reachedRecords outcomes
      else o.record :: reachedRecords outcomes := by
  by_cases h : o.fate = .skipped
  · simp [reachedRecords, h]
  · simp [reachedRecords, h]

theorem keptRecords_cons (o : Outcome) (outcomes : List Outcome) :
    keptRecords (o :: outcomes) = if o.fate = .skipped ∨ o.fate = .dropped
      then keptRecords outcomes else o.record :: keptRecords outcomes := by
  by_cases h : o.fate = .skipped ∨ o.fate = .dropped
  · rw [if_pos h]
    rcases h with h | h <;> simp [keptRecords, h]
  · rw [if_neg h]
    rw [not_or] at h
    simp [keptRecords, h.1, h.2]

theorem keptRecords_subset (outcomes : List Outcome) :
    ∀ r ∈ keptRecords outcomes, r ∈ reachedRecords outcomes := by
  intro r hr
  obtain ⟨o, ho, rfl⟩ := List.mem_map.mp hr
  obtain ⟨ho, hfate⟩ := List.mem_filter.mp ho
  apply List.mem_map_of_mem
  rw [List.mem_filter]
  refine ⟨ho, ?_⟩
  rw [decide_eq_true_eq] at hfate ⊢
  exact hfate.1

theorem reachedRecords_sublist (files : Files) (records : List Record) (st : CompactionState)
    (d : DropState) :
    (reachedRecords (CompactionState.flushAll files records st d).1).Sublist records := by
  have hsub := (List.filter_sublist (l := (CompactionState.flushAll files records st d).1)
    (p := fun o => decide (o.fate ≠ .skipped))).map Outcome.record
  rwa [CompactionState.flushAll_records] at hsub

/-- Without file errors, all records reach the rule and those it keeps are added. -/
theorem Files.Works.fates {files : Files} (h : files.Works) : ∀ (records : List Record)
    (st : CompactionState) (d : DropState),
    reachedRecords (CompactionState.flushAll files records st d).1 = records ∧
      keptRecords (CompactionState.flushAll files records st d).1 =
        addedRecords (CompactionState.flushAll files records st d).1
  | [], _, _ => ⟨rfl, rfl⟩
  | r :: rest, st, d => by
    obtain ⟨hreached, hkept⟩ :=
      h.fates rest (st.suFlushData files d r).compact (st.suFlushData files d r).drop
    have hfate : (st.suFlushData files d r).fate = .dropped ∨
        (st.suFlushData files d r).fate = .added := by
      unfold CompactionState.suFlushData
      dsimp only
      rw [h.stopBefore]
      simp only [Status.isOk, if_true]
      split
      · exact Or.inl rfl
      · exact Or.inr (h.writeRecord _ r).2
    unfold CompactionState.flushAll
    dsimp only
    rw [reachedRecords_cons, keptRecords_cons, hreached, hkept]
    rcases hfate with hfate | hfate
    · simp [hfate, addedRecords]
    · simp [hfate, addedRecords]

/-! ## The rule for one record -/

/-- With a fresh state only obsolete deletions are dropped. -/
theorem dropRule_init_iff {st : CompactionState} {r : Record} (hwf : WellFormed r.key)
    (hsnapshot : st.smallestSnapshot < kMaxSequenceNumber) :
    (dropRule DropState.init st.compaction st.smallestSnapshot r.key).1 = true ↔
      st.Obsolete r := by
  obtain ⟨p, hparse, huser, hseq⟩ := Record.parsed_of_wellFormed hwf
  have henter : DropState.init.enter p.userKey = ⟨p.userKey, true, kMaxSequenceNumber⟩ := by
    apply DropState.enter_of_other
    rintro ⟨h, -⟩
    cases h
  unfold CompactionState.Obsolete Record.type dropRule
  rw [hparse, huser, hseq]
  dsimp only
  rw [henter, if_neg (not_le.mpr hsnapshot)]
  by_cases hdel : p.type = .kTypeDeletion ∧ p.sequence ≤ st.smallestSnapshot
  · rw [if_pos hdel]
    simp [hdel.1, hdel.2]
  · rw [if_neg hdel]
    simp only [Bool.false_eq_true, Option.map_some, Option.some.injEq, false_iff]
    rintro ⟨htype, hle, -⟩
    exact hdel ⟨htype, hle⟩

/-! ## Feeding a list -/

/-- The states after the records `done` have reached the drop rule: the drop state
remembers the last of them, and the level pointers have moved for their keys only. -/
structure CompactionState.Fed (st₀ : CompactionState) (done : List Record)
    (st : CompactionState) (d : DropState) : Prop where
  snapshot : st.smallestSnapshot = st₀.smallestSnapshot
  version : st.compaction.inputVersion = st₀.compaction.inputVersion
  level : st.compaction.level = st₀.compaction.level
  ptrs : ∀ key, (∀ x ∈ done, x.userKey ≤ key) →
    PtrsAgree st₀.compaction.inputVersion key st₀.compaction.levelPtrs st.compaction.levelPtrs
  drop : done = [] ∧ d = DropState.init ∨
    ∃ pre x, done = pre ++ [x] ∧ d = ⟨x.userKey, true, x.sequence⟩

namespace CompactionState.Fed

variable {st₀ st : CompactionState} {done : List Record} {d : DropState}

theorem init (st : CompactionState) : st.Fed [] st DropState.init :=
  ⟨rfl, rfl, rfl, fun _ _ => PtrsAgree.refl _ _ _, Or.inl ⟨rfl, rfl⟩⟩

theorem bounded (h : st₀.Fed done st d) (hwf : ∀ x ∈ done, WellFormed x.key) : d.Bounded := by
  rcases h.drop with ⟨-, rfl⟩ | ⟨pre, x, rfl, rfl⟩
  · exact Nat.le_refl _
  · obtain ⟨p, hp, hkey⟩ := hwf x (List.mem_append_right _ (List.mem_singleton_self x))
    show keySequence x.key ≤ kMaxSequenceNumber
    rw [hkey, keySequence_appendInternalKey hp]
    exact hp

/-- **The remembered entry** decides whether some newer entry hides the record: it is the
oldest of them. -/
theorem hides_iff (h : st₀.Fed done st d) {r : Record} (hwf : WellFormed r.key)
    (horder : InOrder (done ++ [r])) (s : Nat) : d.Hides s r.key ↔ HiddenIn done s r := by
  obtain ⟨p, hparse, huser, -⟩ := Record.parsed_of_wellFormed hwf
  rcases h.drop with ⟨rfl, rfl⟩ | ⟨pre, x, rfl, rfl⟩
  · refine iff_of_false ?_ ?_
    · rintro ⟨-, -, hhas, -⟩
      cases hhas
    · rintro ⟨y, hy, -⟩
      cases hy
  · rw [inOrder_iff, List.append_assoc, List.pairwise_append] at horder
    obtain ⟨-, hlast, hpre⟩ := horder
    have hxr : keyRank x.key < keyRank r.key :=
      (List.pairwise_cons.mp hlast).1 r (List.mem_singleton_self r)
    constructor
    · rintro ⟨ikey, hikey, -, hcurrent, hle⟩
      obtain rfl : p = ikey := Option.some.inj (hparse.symm.trans hikey)
      have hsame : x.userKey = r.userKey := hcurrent.trans huser.symm
      refine ⟨x, List.mem_append_right _ (List.mem_singleton_self x), hsame, ?_,
        Record.sequence_le_iff.mp hle⟩
      rcases keyRank_lt_iff.mp hxr with hlt | ⟨-, hlt⟩
      · exact absurd hsame (ne_of_lt hlt)
      · exact hlt
    · rintro ⟨y, hy, hsame, -, hle⟩
      have hyx : keyRank y.key ≤ keyRank x.key := by
        rcases List.mem_append.mp hy with hy | hy
        · exact le_of_lt (hpre y hy x List.mem_cons_self)
        · rw [List.mem_singleton.mp hy]
      -- the user key of the remembered entry lies between two equal ones
      have hxuser : x.userKey = r.userKey := by
        apply le_antisymm (userKey_le_of_keyRank_le (le_of_lt hxr))
        show r.userKey ≤ x.userKey
        rw [← hsame]
        exact userKey_le_of_keyRank_le hyx
      refine ⟨p, hparse, rfl, hxuser.trans huser, ?_⟩
      show x.sequence ≤ s
      rw [Record.sequence_le_iff]
      refine le_trans ?_ hle
      rw [← not_lt]
      intro hlt
      have hxy : keyRank x.key < keyRank y.key :=
        keyRank_lt_iff.mpr (Or.inr ⟨hxuser.trans hsame.symm, hlt⟩)
      exact absurd hyx (not_le.mpr hxy)

/-- **The decision** on the next record. -/
theorem decides (h : st₀.Fed done st d) (hdone : ∀ x ∈ done, WellFormed x.key) {r : Record}
    (hwf : WellFormed r.key) (horder : InOrder (done ++ [r]))
    (hsnapshot : st₀.smallestSnapshot < kMaxSequenceNumber) :
    (dropRule d st.compaction st.smallestSnapshot r.key).1 = true ↔
      HiddenIn done st₀.smallestSnapshot r ∨ st₀.Obsolete r := by
  have hbelow : ∀ x ∈ done, x.userKey ≤ r.userKey := by
    intro x hx
    rw [inOrder_iff, List.pairwise_append] at horder
    exact userKey_le_of_keyRank_le
      (le_of_lt (horder.2.2 x hx r (List.mem_singleton_self r)))
  have hagree := h.ptrs r.userKey hbelow
  -- the level pointers give the same answers as at the start
  have hfresh : (dropRule DropState.init st.compaction st.smallestSnapshot r.key).1 =
      (dropRule DropState.init st₀.compaction st₀.smallestSnapshot r.key).1 := by
    rw [h.snapshot]
    exact (dropRule_agree h.version h.level hagree le_rfl _ _).1
  rw [dropRule_iff (h.bounded hdone), h.hides_iff hwf horder, hfresh, h.snapshot,
    dropRule_init_iff hwf hsnapshot]

/-- What a call leaves when the record has reached the rule. -/
theorem next (h : st₀.Fed done st d) (files : Files) {r : Record} (hwf : WellFormed r.key)
    (hreached : (st.suFlushData files d r).fate ≠ .skipped) :
    st₀.Fed (done ++ [r]) (st.suFlushData files d r).compact (st.suFlushData files d r).drop := by
  obtain ⟨q, -, hq, heq⟩ := st.suFlushData_eq files d r
  obtain ⟨hcomp, hsnap⟩ := stopBefore_compaction files st r.key
  obtain ⟨hversion, hlevel, -⟩ := st.compaction.shouldStopBefore_reads r.key
  have hdrop : (dropRule d st.compaction st.smallestSnapshot r.key).2.1 =
      ⟨r.userKey, true, r.sequence⟩ := by
    obtain ⟨p, hparse, huser, hseq⟩ := Record.parsed_of_wellFormed hwf
    rw [dropRule_remembers hparse, huser, hseq]
  have hptrs : ∀ key, (∀ x ∈ done ++ [r], x.userKey ≤ key) →
      PtrsAgree st₀.compaction.inputVersion key st₀.compaction.levelPtrs q := by
    intro key hkey
    have hold := h.ptrs key fun x hx => hkey x (List.mem_append_left _ hx)
    have hnew := hq.mono (hkey r (List.mem_append_right _ (List.mem_singleton_self r)))
    rw [h.version] at hnew
    exact hold.trans hnew
  have hmake : ∀ c : CompactionState, c.compaction = (st.compaction.shouldStopBefore r.key).2 →
      c.smallestSnapshot = st.smallestSnapshot →
      st₀.Fed (done ++ [r]) (c.withPtrs q) ⟨r.userKey, true, r.sequence⟩ := by
    intro c hc hs
    refine ⟨hs.trans h.snapshot, ?_, ?_, hptrs, Or.inr ⟨done, r, rfl, rfl⟩⟩
    · show c.compaction.inputVersion = _
      rw [hc, hversion, h.version]
    · show c.compaction.level = _
      rw [hc, hlevel, h.level]
  rw [heq] at hreached ⊢
  split
  · split
    · rw [hdrop]
      exact hmake _ hcomp hsnap
    · dsimp only
      rw [hdrop]
      obtain ⟨hcomp', hsnap'⟩ := writeRecord_compaction files (st.stopBefore files r.key).2 r
      exact hmake _ (hcomp'.trans hcomp) (hsnap'.trans hsnap)
  · rename_i hfail
    rw [if_neg hfail] at hreached
    exact absurd rfl hreached

/-- A call that ends before the rule. -/
theorem skip (h : st₀.Fed done st d) (files : Files) {r : Record}
    (hskipped : (st.suFlushData files d r).fate = .skipped) :
    st₀.Fed done (st.suFlushData files d r).compact (st.suFlushData files d r).drop := by
  obtain ⟨q, -, -, heq⟩ := st.suFlushData_eq files d r
  obtain ⟨hcomp, hsnap⟩ := stopBefore_compaction files st r.key
  obtain ⟨hversion, hlevel, hptrs⟩ := st.compaction.shouldStopBefore_reads r.key
  have hfail : ¬ (st.stopBefore files r.key).1.isOk = true := by
    intro hok
    rw [heq, if_pos hok] at hskipped
    split at hskipped
    · cases hskipped
    · exact (writeRecord_fate files _ r).1 hskipped
  rw [heq, if_neg hfail]
  refine ⟨hsnap.trans h.snapshot, ?_, ?_, ?_, h.drop⟩
  · show (stopBefore files st r.key).2.compaction.inputVersion = _
    rw [hcomp, hversion, h.version]
  · show (stopBefore files st r.key).2.compaction.level = _
    rw [hcomp, hlevel, h.level]
  · intro key hkey
    show PtrsAgree _ key _ (stopBefore files st r.key).2.compaction.levelPtrs
    rw [hcomp, hptrs]
    exact h.ptrs key hkey

/-- The fate of a record that has reached the rule tells the decision. -/
theorem fate_iff (files : Files) (st : CompactionState) (d : DropState) {r : Record}
    (hreached : (st.suFlushData files d r).fate ≠ .skipped) :
    (st.suFlushData files d r).fate = .dropped ↔
      (dropRule d st.compaction st.smallestSnapshot r.key).1 = true := by
  obtain ⟨q, -, -, heq⟩ := st.suFlushData_eq files d r
  rw [heq] at hreached ⊢
  split at hreached
  · rename_i hok
    rw [if_pos hok]
    split
    · rename_i hdrop
      exact ⟨fun _ => hdrop, fun _ => rfl⟩
    · rename_i hdrop
      exact ⟨fun hfate => absurd hfate (writeRecord_fate files _ r).2, fun h => absurd h hdrop⟩
  · exact absurd rfl hreached

end CompactionState.Fed

/-- Entries that come later hide nothing. -/
theorem hiddenIn_append {done rest : List Record} {r : Record}
    (horder : InOrder (done ++ r :: rest)) (s : Nat) :
    HiddenIn (done ++ r :: rest) s r ↔ HiddenIn done s r := by
  constructor
  · rintro ⟨y, hy, hsame, hlt, hle⟩
    rcases List.mem_append.mp hy with hy | hy
    · exact ⟨y, hy, hsame, hlt, hle⟩
    · rcases List.mem_cons.mp hy with rfl | hy
      · exact absurd hlt (lt_irrefl _)
      · rw [inOrder_iff, List.pairwise_append] at horder
        have hry := (List.pairwise_cons.mp horder.2.1).1 y hy
        rcases keyRank_lt_iff.mp hry with huser | ⟨-, htrailer⟩
        · exact absurd hsame (ne_of_gt huser)
        · exact absurd hlt (not_lt_of_gt htrailer)
  · rintro ⟨y, hy, hrest⟩
    exact ⟨y, List.mem_append_left _ hy, hrest⟩

/-- **Which records the rule keeps**, among those that reach it: the ones that are not
hidden and not obsolete. The induction is on the records that follow. -/
theorem CompactionState.flushAll_kept_iff (files : Files) {st₀ : CompactionState}
    (hsnapshot : st₀.smallestSnapshot < kMaxSequenceNumber) : ∀ {records done : List Record}
    {st : CompactionState} {d : DropState}, st₀.Fed done st d → InOrder (done ++ records) →
    (∀ x ∈ done ++ records, WellFormed x.key) →
    ∀ r ∈ reachedRecords (flushAll files records st d).1,
      (r ∈ keptRecords (flushAll files records st d).1 ↔
        ¬ HiddenIn (done ++ reachedRecords (flushAll files records st d).1)
          st₀.smallestSnapshot r ∧ ¬ st₀.Obsolete r)
  | [], _, _, _, _, _, _, _, hr => by cases hr
  | x :: rest, done, st, d, hfed, horder, hwf, r, hr => by
    have hxwf := hwf x (List.mem_append_right _ List.mem_cons_self)
    -- the outcomes of the calls that follow
    have hcons : (flushAll files (x :: rest) st d).1 =
        ⟨x, (st.suFlushData files d x).status, (st.suFlushData files d x).fate⟩ ::
          (flushAll files rest (st.suFlushData files d x).compact
            (st.suFlushData files d x).drop).1 := rfl
    rw [hcons, reachedRecords_cons] at hr ⊢
    rw [keptRecords_cons]
    have hlater := reachedRecords_sublist files rest (st.suFlushData files d x).compact
      (st.suFlushData files d x).drop
    by_cases hskipped : (st.suFlushData files d x).fate = .skipped
    · have hsub : (done ++ rest).Sublist (done ++ x :: rest) :=
        (List.Sublist.refl done).append (List.sublist_cons_self x rest)
      rw [if_pos hskipped] at hr ⊢
      rw [if_pos (Or.inl hskipped)]
      exact flushAll_kept_iff files hsnapshot (hfed.skip files hskipped)
        (List.Pairwise.sublist hsub horder) (fun y hy => hwf y (hsub.subset hy)) r hr
    · rw [if_neg hskipped] at hr ⊢
      dsimp only at hr ⊢
      have horder' := List.Pairwise.sublist
        ((List.Sublist.refl done).append (hlater.cons_cons x)) horder
      have hone : InOrder (done ++ [x]) := List.Pairwise.sublist
        ((List.Sublist.refl done).append ((List.nil_sublist rest).cons_cons x)) horder
      have hdecides := hfed.decides (fun y hy => hwf y (List.mem_append_left _ hy)) hxwf hone
        hsnapshot
      have hfate := Fed.fate_iff files st d hskipped
      have hother : ∀ y ∈ reachedRecords (flushAll files rest
          (st.suFlushData files d x).compact (st.suFlushData files d x).drop).1, y ≠ x := by
        rintro y hy rfl
        have hpairs := (List.pairwise_append.mp (inOrder_iff.mp horder')).2.1
        exact lt_irrefl _ ((List.pairwise_cons.mp hpairs).1 y hy)
      rcases List.mem_cons.mp hr with rfl | hr
      · rw [hiddenIn_append horder', ← not_or, ← hdecides, ← hfate]
        by_cases hdropped : (st.suFlushData files d r).fate = .dropped
        · rw [if_pos (Or.inr hdropped)]
          refine iff_of_false (fun hmem => ?_) (fun hnot => hnot hdropped)
          exact hother r (keptRecords_subset _ r hmem) rfl
        · rw [if_neg (not_or.mpr ⟨hskipped, hdropped⟩)]
          exact iff_of_true List.mem_cons_self hdropped
      · have ih := flushAll_kept_iff files hsnapshot (hfed.next files hxwf hskipped)
          (by rw [List.append_assoc]; exact horder)
          (by rw [List.append_assoc]; exact hwf) r hr
        rw [List.append_assoc, List.singleton_append] at ih
        rw [← ih]
        split
        · exact Iff.rfl
        · rw [List.mem_cons, or_iff_right (hother r hr)]

/-! ## Reads -/

/-- No entry of user key `u` has a sequence number of at most `s`. -/
def Unseen (records : List Record) (u : Bytes) (s : Nat) : Prop :=
  ∀ x ∈ records, x.userKey = u → s < x.sequence

/-- In a sorted list, a user key and a packed number name one entry. -/
theorem InOrder.eq_of_trailer {records : List Record} (h : InOrder records) {x y : Record}
    (hx : x ∈ records) (hy : y ∈ records) (huser : x.userKey = y.userKey)
    (htrailer : x.trailer = y.trailer) : x = y := by
  have hpairs : records.Pairwise fun a b =>
      a.userKey = b.userKey ∧ a.trailer = b.trailer → a = b := by
    refine (inOrder_iff.mp h).imp ?_
    rintro a b hlt ⟨hu, ht⟩
    rcases keyRank_lt_iff.mp hlt with hlt | ⟨-, hlt⟩
    · exact absurd hu (ne_of_lt hlt)
    · exact absurd ht (ne_of_gt hlt)
  refine hpairs.forall_of_forall_of_flip (fun _ _ _ => rfl) ?_ hx hy ⟨huser, htrailer⟩
  refine hpairs.imp ?_
  rintro a b hab ⟨hu, ht⟩
  exact (hab ⟨hu.symm, ht.symm⟩).symm

/-- What a read of `u` at `s` sees after the records have gone through the drop rule: a
value is still seen; a deletion is still seen or nothing is, and the latter only at the
base level of `u`; where nothing was seen nothing is. -/
structure CompactionState.PreservesReads (st : CompactionState) (before after : List Record)
    (u : Bytes) (s : Nat) : Prop where
  value : ∀ r, NewestAt before u s r → r.type = some .kTypeValue → NewestAt after u s r
  deletion : ∀ r, NewestAt before u s r → r.type = some .kTypeDeletion →
    NewestAt after u s r ∨
      Unseen after u s ∧ (st.compaction.isBaseLevelForKey u).1 = true
  unseen : Unseen before u s → Unseen after u s

/-- **The drop rule preserves reads** at the smallest snapshot and later. The records are
in the order of the comparator and go to `SU_flush_data` one by one, from the initial
drop state. -/
theorem CompactionState.flushAll_preservesReads (files : Files) (st : CompactionState)
    (hsnapshot : st.smallestSnapshot < kMaxSequenceNumber) {records : List Record}
    (horder : InOrder records) (hwf : ∀ r ∈ records, WellFormed r.key) (u : Bytes) {s : Nat}
    (hs : st.smallestSnapshot ≤ s) :
    st.PreservesReads (reachedRecords (flushAll files records st DropState.init).1)
      (keptRecords (flushAll files records st DropState.init).1) u s := by
  have hkept := flushAll_kept_iff files hsnapshot (Fed.init st) horder hwf
  have hreached : InOrder (reachedRecords (flushAll files records st DropState.init).1) :=
    List.Pairwise.sublist (reachedRecords_sublist files records st _) horder
  generalize (flushAll files records st DropState.init).1 = outcomes at hkept hreached
  rw [List.nil_append] at hkept
  have hsub := keptRecords_subset outcomes
  have htime : snapshotTime st.smallestSnapshot ≤ snapshotTime s := by
    unfold snapshotTime
    omega
  -- what is not obsolete stays, and stays the newest
  have hstays : ∀ r, NewestAt (reachedRecords outcomes) u s r → ¬ st.Obsolete r →
      NewestAt (keptRecords outcomes) u s r := by
    intro r hr hlive
    have hnewest := newestAt_iff.mp hr
    exact newestAt_iff.mpr (hnewest.subset hsub
      ((hkept r hr.mem).mpr ⟨hnewest.not_hidden htime, hlive⟩))
  constructor
  case value =>
    intro r hr htype
    apply hstays r hr
    rintro ⟨hdel, -⟩
    rw [htype] at hdel
    cases hdel
  case deletion =>
    intro r hr htype
    by_cases hobsolete : st.Obsolete r
    · refine Or.inr ⟨?_, hr.userKey ▸ hobsolete.2.2⟩
      intro x hx huser
      by_contra hle
      have hle := Record.sequence_le_iff.mp (not_lt.mp hle)
      obtain ⟨hvisible, hlive⟩ := (hkept x (hsub x hx)).mp hx
      apply hvisible
      refine (newestAt_iff.mp hr).hides (Record.sequence_le_iff.mp hobsolete.2.1) huser hle
        (hsub x hx) ?_
      intro htrailer
      obtain rfl := hreached.eq_of_trailer (hsub x hx) hr.mem (huser.trans hr.userKey.symm)
        htrailer
      exact hlive hobsolete
    · exact Or.inl (hstays r hr hobsolete)
  case unseen => exact fun hunseen x hx => hunseen x (hsub x hx)

end Lpad
