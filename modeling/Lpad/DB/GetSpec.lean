import Lpad.DB.AgeInvariant
import Lpad.DB.DropReads
import Lpad.DB.Get

/-!
# Lookups find the newest entry

A seek in one sorted run of records finds the newest entry that the snapshot sees, if
there is one of the user key. The layers of a database are such runs, and the search
asks them from the newest to the oldest. Level 0 is as many layers as it has files. Every
other level is one layer, although only one of its files is read: `FindFile` looks for
the first file that ends at or after the target, so that an entry in a later file is
hidden by the end of this one, if it has the same user key at all.
-/

namespace Lpad

/-! ## One run of records -/

/-- A read of the entries with the lookup key gives this. -/
abbrev ReadsAt (entries : Set Record) (k : LookupKey) : Option Record → Prop :=
  Reads Record.userKey Record.trailer entries k.userKey (snapshotTime k.sequence)

/-- Some entries are not improved by others, for this lookup key. -/
abbrev LeadsAt (k : LookupKey) (a b : Set Record) : Prop :=
  Leads Record.userKey Record.trailer k.userKey (snapshotTime k.sequence) a b

/-- The entry that a seek ends at, if it belongs to the user key. -/
def lookup (records : List Record) (k : LookupKey) : Option Record :=
  (seek records k.internalKey).filter fun r => decide (r.userKey = k.userKey)

theorem seek_eq_none {records : List Record} {target : Bytes} :
    seek records target = none ↔ ∀ x ∈ records, keyRank x.key < keyRank target := by
  simp [seek, List.find?_eq_none, internalKeyCompare_lt_iff]

/-- The first entry at or after the target is the least one. -/
theorem seek_least {records : List Record} {target : Bytes} {r : Record}
    (hsorted : records.Pairwise fun a b => keyRank a.key ≤ keyRank b.key)
    (h : seek records target = some r) :
    r ∈ records ∧ keyRank target ≤ keyRank r.key ∧
      ∀ x ∈ records, keyRank target ≤ keyRank x.key → keyRank r.key ≤ keyRank x.key := by
  obtain ⟨hr, before, after, rfl, hbefore⟩ := List.find?_eq_some_iff_append.mp h
  rw [decide_eq_true_iff, internalKeyCompare_ne_lt_iff] at hr
  refine ⟨by simp, hr, ?_⟩
  intro x hx hle
  rw [List.pairwise_append, List.pairwise_cons] at hsorted
  rcases List.mem_append.mp hx with hx | hx
  · have hlt := hbefore x hx
    rw [Bool.not_eq_true', decide_eq_false_iff_not, not_not, internalKeyCompare_lt_iff] at hlt
    exact absurd hlt (not_lt.mpr hle)
  · rcases List.mem_cons.mp hx with rfl | hx
    · exact le_refl _
    · exact hsorted.2.1.1 x hx

theorem Record.userKey_le {x y : Record} (h : keyRank x.key ≤ keyRank y.key) :
    x.userKey ≤ y.userKey := userKey_le_of_keyRank_le h

/-- For one user key, a later rank is an older entry. -/
theorem Record.trailer_le {x y : Record} (h : keyRank x.key ≤ keyRank y.key)
    (huser : x.userKey = y.userKey) : y.trailer ≤ x.trailer := by
  by_contra hlt
  exact absurd h (not_le.mpr (keyRank_lt_iff.mpr (Or.inr ⟨huser.symm, not_le.mp hlt⟩)))

theorem LookupKey.userKey_internalKey (k : LookupKey) :
    extractUserKey k.internalKey = k.userKey := extractUserKey_appendInternalKey _

/-- The snapshot sees the entries of the user key from the target on. The target has the
larger one of the two types, so that both come after it. -/
theorem LookupKey.seen_iff {k : LookupKey} (hk : k.sequence ≤ kMaxSequenceNumber) {x : Record}
    (hx : WellFormed x.key) (huser : x.userKey = k.userKey) :
    x.trailer ≤ snapshotTime k.sequence ↔ keyRank k.internalKey ≤ keyRank x.key := by
  have htarget : trailer k.internalKey = k.sequence * 256 + 1 :=
    trailer_eq_pack (p := ⟨k.userKey, k.sequence, .kTypeValue⟩) hk
  have htrailer : x.trailer % 256 ≤ 1 := by
    obtain ⟨p, hp, hkey⟩ := hx
    have hcode := p.type.code_lt
    rw [Record.trailer, hkey, trailer_eq_pack hp, packSequenceAndType]
    omega
  rw [← not_lt (a := keyRank x.key), keyRank_lt_iff, k.userKey_internalKey, htarget]
  change _ ↔ ¬ (x.userKey < k.userKey ∨ x.userKey = k.userKey ∧ _ < x.trailer)
  rw [huser, snapshotTime]
  simp only [lt_irrefl, true_and, false_or]
  omega

/-- **A seek in a sorted run** finds the newest entry that the snapshot sees. -/
theorem lookup_reads {records : List Record} {k : LookupKey}
    (hsorted : records.Pairwise fun a b => keyRank a.key ≤ keyRank b.key)
    (hwf : ∀ x ∈ records, WellFormed x.key) (hk : k.sequence ≤ kMaxSequenceNumber) :
    ReadsAt { x | x ∈ records } k (lookup records k) := by
  have hseen : ∀ x ∈ records, x.userKey = k.userKey →
      (x.trailer ≤ snapshotTime k.sequence ↔ keyRank k.internalKey ≤ keyRank x.key) :=
    fun x hx huser => LookupKey.seen_iff hk (hwf x hx) huser
  unfold lookup
  cases hseek : seek records k.internalKey with
  | none =>
    intro x hx huser
    by_contra hle
    have hle := (hseen x hx huser).mp (not_lt.mp hle)
    exact absurd (seek_eq_none.mp hseek x hx) (not_lt.mpr hle)
  | some r =>
    obtain ⟨hr, htarget, hleast⟩ := seek_least hsorted hseek
    by_cases huser : r.userKey = k.userKey
    · rw [Option.filter_some, if_pos (decide_eq_true huser)]
      refine ⟨hr, huser, (hseen r hr huser).mpr htarget, ?_⟩
      intro x hx hxuser hle
      have hle := hleast x hx ((hseen x hx hxuser).mp hle)
      exact Record.trailer_le hle (huser.trans hxuser.symm)
    · rw [Option.filter_some, if_neg (by simpa using huser)]
      -- an entry of the user key would stand between the target and `r`
      intro x hx hxuser
      by_contra hle
      have hle := hleast x hx ((hseen x hx hxuser).mp (not_lt.mp hle))
      apply huser
      apply le_antisymm
      · exact le_of_le_of_eq (Record.userKey_le hle) hxuser
      · have hfrom := userKey_le_of_keyRank_le htarget
        rwa [k.userKey_internalKey] at hfrom

/-! ## What the code answers -/

/-- The answer that belongs to an entry, or to none. -/
def Answered (o : Option Record) (s : Status) (out : GetOutput) : Prop :=
  match o with
  | some r =>
    r.type = some .kTypeValue ∧ s = .ok ∧ out = ⟨r.value, r.sequence⟩ ∨
      r.type = some .kTypeDeletion ∧ s = .notFound ""
  | none => s = .notFound ""

/-- The two types of a well-formed key, and how they are read off the trailer. -/
theorem Record.type_cases {r : Record} (h : WellFormed r.key) :
    Lpad.trailer r.key % 256 = 1 ∧ r.type = some .kTypeValue ∨
      Lpad.trailer r.key % 256 = 0 ∧ r.type = some .kTypeDeletion := by
  obtain ⟨⟨userKey, sequence, type⟩, hp, hkey⟩ := h
  have htype : r.type = some type := by
    rw [Record.type, hkey, parseInternalKey_appendInternalKey hp]
    rfl
  rw [htype, hkey, trailer_eq_pack hp]
  cases type with
  | kTypeValue =>
    left
    exact ⟨by simp only [packSequenceAndType, ValueType.code]; omega, rfl⟩
  | kTypeDeletion =>
    right
    exact ⟨by simp only [packSequenceAndType, ValueType.code]; omega, rfl⟩

theorem lookup_eq_some {records : List Record} {k : LookupKey} {r : Record}
    (h : lookup records k = some r) :
    seek records k.internalKey = some r ∧ r.userKey = k.userKey ∧ r ∈ records := by
  obtain ⟨hseek, huser⟩ := Option.filter_eq_some_iff.mp h
  exact ⟨hseek, of_decide_eq_true huser, List.mem_of_find?_eq_some hseek⟩

theorem lookup_eq_none {records : List Record} {k : LookupKey} {r : Record}
    (h : lookup records k = none) (hseek : seek records k.internalKey = some r) :
    r.userKey ≠ k.userKey := by
  intro huser
  rw [lookup, hseek, Option.filter_some, if_pos (decide_eq_true huser)] at h
  cases h

theorem MemTable.suGet_of_none {mem : MemTable} {k : LookupKey}
    (h : lookup mem.records k = none) (s : Status) (out : GetOutput) :
    mem.suGet k s out = (false, s, out) := by
  unfold MemTable.suGet
  cases hseek : seek mem.records k.internalKey with
  | none => rfl
  | some r =>
    have hne : ¬ sliceCompare (extractUserKey r.key) k.userKey = .eq := by
      rw [sliceCompare_eq_iff]
      exact lookup_eq_none h hseek
    dsimp only
    rw [if_neg hne]

theorem MemTable.suGet_of_some {mem : MemTable} {k : LookupKey} {r : Record}
    (hwf : ∀ x ∈ mem.records, WellFormed x.key) (h : lookup mem.records k = some r)
    (out : GetOutput) :
    ∃ s out', mem.suGet k .ok out = (true, s, out') ∧ Answered (some r) s out' ∧
      out'.tw = r.sequence := by
  obtain ⟨hseek, huser, hr⟩ := lookup_eq_some h
  have heq : sliceCompare (extractUserKey r.key) k.userKey = .eq := sliceCompare_eq_iff.mpr huser
  unfold MemTable.suGet
  rw [hseek]
  dsimp only
  rw [if_pos heq]
  rcases Record.type_cases (hwf r hr) with ⟨htag, htype⟩ | ⟨htag, htype⟩
  · rw [htag]
    exact ⟨_, _, rfl, Or.inl ⟨htype, rfl, rfl⟩, rfl⟩
  · rw [htag]
    exact ⟨_, _, rfl, Or.inr ⟨htype, rfl⟩, rfl⟩

theorem internalGet_of_none {table : List Record} {k : LookupKey}
    (hwf : ∀ x ∈ table, WellFormed x.key) (h : lookup table k = none) (out : GetOutput) :
    internalGet table k out = (.kNotFound, out) := by
  unfold internalGet
  cases hseek : seek table k.internalKey with
  | none => rfl
  | some r =>
    have huser := lookup_eq_none h hseek
    obtain ⟨p, hp⟩ := Option.isSome_iff_exists.mp
      (wellFormed_iff.mp (hwf r (List.mem_of_find?_eq_some hseek)))
    have hne : ¬ sliceCompare p.userKey k.userKey = .eq := by
      rw [sliceCompare_eq_iff, (parseInternalKey_eq_some hp).1]
      exact huser
    dsimp only [saveValue]
    rw [hp]
    dsimp only
    rw [if_neg hne]

theorem internalGet_of_some {table : List Record} {k : LookupKey} {r : Record}
    (hwf : ∀ x ∈ table, WellFormed x.key) (h : lookup table k = some r) (out : GetOutput) :
    r.type = some .kTypeValue ∧ internalGet table k out = (.kFound, ⟨r.value, r.sequence⟩) ∨
      r.type = some .kTypeDeletion ∧ internalGet table k out = (.kDeleted, out) := by
  obtain ⟨hseek, huser, hr⟩ := lookup_eq_some h
  obtain ⟨⟨userKey, sequence, type⟩, hp⟩ :=
    Option.isSome_iff_exists.mp (wellFormed_iff.mp (hwf r hr))
  obtain ⟨hpuser, hpseq⟩ := parseInternalKey_eq_some hp
  have htype : r.type = some type := by
    rw [Record.type, hp]
    rfl
  have heq : sliceCompare userKey k.userKey = .eq := by
    rw [sliceCompare_eq_iff, ← huser]
    exact hpuser
  have hsequence : sequence = r.sequence := hpseq
  unfold internalGet saveValue
  rw [hseek]
  dsimp only
  rw [hp]
  dsimp only
  rw [if_pos heq, htype, hsequence]
  cases type with
  | kTypeValue => exact Or.inl ⟨rfl, rfl⟩
  | kTypeDeletion => exact Or.inr ⟨rfl, rfl⟩

/-- The answer of the tables: only a value is written to the output. -/
def TableAnswered (o : Option Record) (before : GetOutput) (s : Status) (out : GetOutput) : Prop :=
  match o with
  | some r =>
    r.type = some .kTypeValue ∧ s = .ok ∧ out = ⟨r.value, r.sequence⟩ ∨
      r.type = some .kTypeDeletion ∧ s = .notFound "" ∧ out = before
  | none => s = .notFound "" ∧ out = before

theorem TableAnswered.answered {o : Option Record} {before out : GetOutput} {s : Status}
    (h : TableAnswered o before s out) : Answered o s out := by
  cases o with
  | none => exact h.1
  | some r =>
    rcases h with hvalue | ⟨htype, hs, -⟩
    · exact Or.inl hvalue
    · exact Or.inr ⟨htype, hs⟩

/-- **The search over files** gives the answer of the first file that has one. -/
theorem searchFiles_answered (cache : TableCache) (k : LookupKey)
    (hstatus : ∀ n, cache.status n = .ok) {files : List (Nat × FileMetaData)}
    (hwf : ∀ p ∈ files, ∀ x ∈ cache.records p.2.number, WellFormed x.key) (st : Search) :
    TableAnswered (files.findSome? fun p => lookup (cache.records p.2.number) k) st.out
      (searchFiles cache k files st).1 (searchFiles cache k files st).2.out := by
  induction files generalizing st with
  | nil => exact ⟨rfl, rfl⟩
  | cons p rest ih =>
    obtain ⟨level, f⟩ := p
    have hf := hwf (level, f) List.mem_cons_self
    have hok : (cache.status f.number).isOk = true := by
      rw [hstatus]
      rfl
    rw [List.findSome?_cons]
    unfold searchFiles
    dsimp only
    rw [if_pos hok]
    cases hlook : lookup (cache.records f.number) k with
    | none =>
      rw [internalGet_of_none hf hlook]
      exact ih (fun p hp => hwf p (List.mem_cons_of_mem _ hp))
        { st.next level f with out := (st.next level f).out }
    | some r =>
      rcases internalGet_of_some hf hlook (st.next level f).out with
        ⟨htype, hget⟩ | ⟨htype, hget⟩
      · rw [hget]
        exact Or.inl ⟨htype, hstatus _, rfl⟩
      · rw [hget]
        exact Or.inr ⟨htype, rfl, rfl⟩

/-! ## The layers of a database -/

/-- Where the two have entries of one user key, those of the first have the larger
sequence numbers. -/
def NewerRecords (xs ys : List Record) : Prop :=
  ∀ x ∈ xs, ∀ y ∈ ys, x.userKey = y.userKey → y.sequence < x.sequence

instance (xs ys : List Record) : Decidable (NewerRecords xs ys) :=
  inferInstanceAs (Decidable (∀ x ∈ xs, ∀ y ∈ ys, x.userKey = y.userKey → y.sequence < x.sequence))

/-- The entries of the immutable memtable, if there is one. -/
def Database.immRecords (db : Database) : List Record := MemTable.records (db.imm.getD [])

/-- All entries of a database. -/
def Database.entries (db : Database) : List Record :=
  db.mem.records ++ (db.immRecords ++ (List.range kNumLevels).flatMap db.entriesAt)

/-- What the search relies on. Tables are sorted and between the bounds of their files,
the files of a level below 0 are in a row, and of each user key the entries get older from
the memtable to the immutable memtable, to the files of level 0 by falling numbers, and
from level to level. Files of a level may share the user key of a bound. -/
structure Database.Stacked (db : Database) : Prop where
  memory : ∀ x ∈ db.mem.records ++ db.immRecords, WellFormed x.key
  tables : ∀ level < kNumLevels, ∀ f ∈ db.versions.current.files level,
    f.Describes (db.tables f.number)
  levels : ∀ level < kNumLevels, 0 < level → SortedLevel (db.versions.current.files level)
  mem_imm : NewerRecords db.mem.records db.immRecords
  mem_tables : ∀ level < kNumLevels, NewerRecords db.mem.records (db.entriesAt level)
  imm_tables : ∀ level < kNumLevels, NewerRecords db.immRecords (db.entriesAt level)
  level0 : ∀ f ∈ db.versions.current.files 0, ∀ g ∈ db.versions.current.files 0,
    g.number < f.number → NewerRecords (db.tables f.number) (db.tables g.number)
  deeper : ∀ j < kNumLevels, ∀ i < j, NewerRecords (db.entriesAt i) (db.entriesAt j)

/-- From level 1 on, the largest key of a file is a key of its table. -/
def Database.LargestStored (db : Database) : Prop :=
  ∀ level < kNumLevels, 0 < level → ∀ f ∈ db.versions.current.files level,
    ∃ x ∈ db.tables f.number, x.key = f.largest

theorem NewerRecords.leads {xs ys : List Record} (h : NewerRecords xs ys) (k : LookupKey) :
    LeadsAt k { x | x ∈ xs } { y | y ∈ ys } := by
  apply Newer.leads
  intro x hx y hy huser
  have hlt := h x hx y hy huser
  unfold Record.sequence keySequence at hlt
  change Lpad.trailer y.key < Lpad.trailer x.key
  omega

theorem FileMetaData.Describes.reads {f : FileMetaData} {records : List Record} {k : LookupKey}
    (h : f.Describes records) (hk : k.sequence ≤ kMaxSequenceNumber) :
    ReadsAt { x | x ∈ records } k (lookup records k) := by
  apply lookup_reads _ h.wellFormed hk
  exact (inOrder_iff.mp h.sorted).imp fun hlt => le_of_lt hlt

variable {db : Database} {k : LookupKey}

/-- What reading the files of a level gives. -/
def Database.lookupLevel (db : Database) (k : LookupKey) (level : Nat) : Option Record :=
  (db.versions.current.filesToSearch k level).findSome? fun f => lookup (db.tables f.number) k

theorem Database.mem_entriesAt {level : Nat} {x : Record} :
    x ∈ db.entriesAt level ↔
      ∃ f ∈ db.versions.current.files level, x ∈ db.tables f.number := List.mem_flatMap

theorem Version.mem_filesToSearch_zero {v : Version} {f : FileMetaData} :
    f ∈ v.filesToSearch k 0 ↔ f ∈ v.files 0 ∧ f.startKey ≤ k.userKey ∧ k.userKey ≤ f.limitKey := by
  rw [filesToSearch, if_pos rfl, List.mem_insertionSort, List.mem_filter, decide_eq_true_iff, Ne,
    Ne, sliceCompare_lt_iff, sliceCompare_gt_iff, not_lt, not_lt]

theorem Version.filesToSearch_zero_sorted (v : Version) (k : LookupKey) :
    (v.filesToSearch k 0).Pairwise fun f g => g.number ≤ f.number := by
  have htotal : Std.Total fun f g : FileMetaData => f.number ≥ g.number :=
    ⟨fun f g => le_total g.number f.number⟩
  have htrans : IsTrans FileMetaData fun f g : FileMetaData => f.number ≥ g.number :=
    ⟨fun _ _ _ hfg hgh => le_trans hgh hfg⟩
  rw [filesToSearch, if_pos rfl]
  exact List.pairwise_insertionSort _ _

/-- **Level 0.** The files are asked one after the other; those that are left out do not
have the user key. -/
theorem Database.Stacked.reads_zero (h : db.Stacked) (hk : k.sequence ≤ kMaxSequenceNumber) :
    ReadsAt { x | x ∈ db.entriesAt 0 } k (db.lookupLevel k 0) := by
  have hdescribes : ∀ f ∈ db.versions.current.files 0, f.Describes (db.tables f.number) :=
    h.tables 0 (by decide)
  have hreads : ReadsAt { x | ∃ f ∈ db.versions.current.filesToSearch k 0,
      x ∈ { x | x ∈ db.tables f.number } } k (db.lookupLevel k 0) := by
    apply Reads.findSome?
    · intro f hf
      exact (hdescribes f (Version.mem_filesToSearch_zero.mp hf).1).reads hk
    · refine (Version.filesToSearch_zero_sorted db.versions.current k).imp_of_mem ?_
      intro f g hf hg hle
      rcases Nat.lt_or_eq_of_le hle with hlt | heq
      · exact (h.level0 f (Version.mem_filesToSearch_zero.mp hf).1 g
          (Version.mem_filesToSearch_zero.mp hg).1 hlt).leads k
      · rw [heq]
        exact Leads.refl _
  refine hreads.superset ?_ ?_
  · rintro x ⟨f, hf, hx⟩
    exact mem_entriesAt.mpr ⟨f, (Version.mem_filesToSearch_zero.mp hf).1, hx⟩
  · intro y hy huser hle
    obtain ⟨f, hf, hyf⟩ := mem_entriesAt.mp hy
    refine ⟨y, ⟨f, ?_, hyf⟩, huser, hle, le_refl _⟩
    rw [Version.mem_filesToSearch_zero, ← huser]
    exact ⟨hf, userKey_le_of_keyRank_le ((hdescribes f hf).lower y hyf),
      userKey_le_of_keyRank_le ((hdescribes f hf).upper y hyf)⟩

/-- What is read of a deeper level: no file, and then each file ends before the target or
begins after the user key, or the first file that does not end before the target. -/
theorem Version.filesToSearch_cases {v : Version} {level : Nat} (hdeep : 0 < level)
    (hrow : FilesInRow (v.files level)) (hproper : FilesProper (v.files level)) (k : LookupKey) :
    (v.filesToSearch k level = [] ∧
      ∀ g ∈ v.files level, g.hi < keyRank k.internalKey ∨ k.userKey < g.startKey) ∨
    ∃ f ∈ v.files level, v.filesToSearch k level = [f] ∧ keyRank k.internalKey ≤ f.hi ∧
      ∀ g ∈ v.files level, g.hi < keyRank k.internalKey ∨ g = f ∨ f.hi < g.lo := by
  obtain ⟨hbelow, habove⟩ := findFile_spec k.internalKey hrow hproper
  rw [filesToSearch, if_neg (Nat.ne_of_gt hdeep)]
  generalize v.files level = files at *
  generalize findFile files k.internalKey = index at *
  have hsplit : ∀ g ∈ files, g.hi < keyRank k.internalKey ∨ g ∈ files.drop index := by
    intro g hg
    rw [← List.take_append_drop index files, List.mem_append] at hg
    exact hg.imp_left (hbelow g)
  rcases Nat.lt_or_ge index files.length with hlt | hge
  · have hdrop := List.drop_eq_getElem_cons hlt
    have hin : files[index] ∈ files := List.getElem_mem hlt
    rw [List.getElem?_eq_getElem hlt]
    generalize files[index] = f at *
    have hafter : ∀ g ∈ files.drop (index + 1), f.hi < g.lo := by
      have hpairs := hrow.sublist (List.drop_sublist index files)
      rw [hdrop] at hpairs
      exact (List.pairwise_cons.mp hpairs).1
    simp only [hdrop, List.mem_cons] at hsplit habove
    dsimp only
    split
    · -- the file begins after the user key, and so does every later one
      rename_i hbegins
      rw [sliceCompare_lt_iff] at hbegins
      refine Or.inl ⟨rfl, fun g hg => (hsplit g hg).imp_right ?_⟩
      rintro (rfl | hg)
      · exact hbegins
      · have hlo : f.lo ≤ g.lo := le_of_lt (lt_of_le_of_lt (hproper f hin) (hafter g hg))
        exact lt_of_lt_of_le hbegins (userKey_le_of_keyRank_le hlo)
    · refine Or.inr ⟨f, hin, rfl, habove f (Or.inl rfl), fun g hg => ?_⟩
      exact (hsplit g hg).imp_right fun h => h.imp_right (hafter g)
  · rw [List.getElem?_eq_none hge]
    refine Or.inl ⟨rfl, fun g hg => (hsplit g hg).imp_right ?_⟩
    rw [List.drop_eq_nil_of_le hge]
    exact fun h => (List.not_mem_nil h).elim

/-- **Deeper levels.** Let `y` be an entry of the user key that the snapshot sees. Its
file does not end before the target, so it is the one that `FindFile` gives or a later
one. In the second case the largest entry of the first file is between the target and
`y`: it has the same user key, the snapshot sees it, and it is newer. -/
theorem Database.Stacked.reads_deeper (h : db.Stacked) (hlargest : db.LargestStored)
    (hk : k.sequence ≤ kMaxSequenceNumber) {level : Nat} (hlevel : level < kNumLevels)
    (hdeep : 0 < level) :
    ReadsAt { x | x ∈ db.entriesAt level } k (db.lookupLevel k level) := by
  have hdescribes := h.tables level hlevel
  have hends := hlargest level hlevel hdeep
  have hproper : FilesProper (db.versions.current.files level) := by
    intro f hf
    obtain ⟨x, hx, hkey⟩ := hends f hf
    have hlower := (hdescribes f hf).lower x hx
    rwa [hkey] at hlower
  have hrow := sortedLevel_iff.mp (h.levels level hlevel hdeep)
  -- the file of an entry that the snapshot sees does not end before the target
  have hreaches : ∀ g ∈ db.versions.current.files level, ∀ y ∈ db.tables g.number,
      y.userKey = k.userKey → y.trailer ≤ snapshotTime k.sequence →
        ¬ g.hi < keyRank k.internalKey := by
    intro g hg y hy huser hle hlt
    have hin := hdescribes g hg
    have htarget := (LookupKey.seen_iff hk (hin.wellFormed y hy) huser).mp hle
    exact absurd (lt_of_le_of_lt (hin.upper y hy) hlt) (not_lt.mpr htarget)
  unfold Database.lookupLevel
  rcases Version.filesToSearch_cases hdeep hrow hproper k with
    ⟨hsearch, hnone⟩ | ⟨f, hf, hsearch, hfirst, hothers⟩
  · rw [hsearch]
    intro y hy huser
    by_contra hle
    obtain ⟨g, hg, hyg⟩ := mem_entriesAt.mp hy
    rcases hnone g hg with hlt | hlt
    · exact hreaches g hg y hyg huser (not_lt.mp hle) hlt
    · have hstart := userKey_le_of_keyRank_le ((hdescribes g hg).lower y hyg)
      exact absurd hlt (not_lt.mpr (le_of_le_of_eq hstart huser))
  · have hread : ReadsAt { x | x ∈ db.tables f.number } k
        ([f].findSome? fun f => lookup (db.tables f.number) k) := by
      rw [List.findSome?_singleton]
      exact (hdescribes f hf).reads hk
    rw [hsearch]
    refine hread.superset (fun x hx => mem_entriesAt.mpr ⟨f, hf, hx⟩) ?_
    intro y hy huser hle
    obtain ⟨g, hg, hyg⟩ := mem_entriesAt.mp hy
    rcases hothers g hg with hlt | rfl | hlater
    · exact (hreaches g hg y hyg huser hle hlt).elim
    · exact ⟨y, hyg, huser, hle, le_refl _⟩
    · obtain ⟨x, hx, hkey⟩ := hends f hf
      have hxy : keyRank x.key ≤ keyRank y.key := by
        rw [hkey]
        exact le_of_lt (lt_of_lt_of_le hlater ((hdescribes g hg).lower y hyg))
      have htarget : keyRank k.internalKey ≤ keyRank x.key := by
        rw [hkey]
        exact hfirst
      have hxuser : x.userKey = k.userKey := by
        apply le_antisymm
        · exact le_of_le_of_eq (Record.userKey_le hxy) huser
        · have hle := userKey_le_of_keyRank_le htarget
          rwa [k.userKey_internalKey] at hle
      refine ⟨x, hx, hxuser, ?_, Record.trailer_le hxy (hxuser.trans huser.symm)⟩
      exact (LookupKey.seen_iff hk ((hdescribes f hf).wellFormed x hx) hxuser).mpr htarget

/-- **All levels**, from the first to the last. -/
theorem Database.Stacked.reads_levels (h : db.Stacked) (hlargest : db.LargestStored)
    (hk : k.sequence ≤ kMaxSequenceNumber) :
    ReadsAt { x | ∃ level ∈ List.range kNumLevels, x ∈ { x | x ∈ db.entriesAt level } } k
      ((List.range kNumLevels).findSome? (db.lookupLevel k)) := by
  apply Reads.findSome?
  · intro level hlevel
    rw [List.mem_range] at hlevel
    rcases Nat.eq_zero_or_pos level with rfl | hdeep
    · exact h.reads_zero hk
    · exact h.reads_deeper hlargest hk hlevel hdeep
  · refine List.pairwise_lt_range.imp_of_mem ?_
    intro i j _ hj hij
    exact (h.deeper j (List.mem_range.mp hj) i hij).leads k

/-! ## The lookup -/

theorem findSome?_flatMap {α β γ : Type*} (l : List α) (f : α → List β) (look : β → Option γ) :
    (l.flatMap f).findSome? look = l.findSome? fun a => (f a).findSome? look := by
  induction l with
  | nil => rfl
  | cons a l ih =>
    rw [List.flatMap_cons, List.findSome?_append, List.findSome?_cons, ih]
    cases (f a).findSome? look <;> rfl

theorem Version.filesToSearch_subset {v : Version} {level : Nat} {f : FileMetaData}
    (h : f ∈ v.filesToSearch k level) : f ∈ v.files level := by
  rcases Nat.eq_zero_or_pos level with rfl | hdeep
  · exact (mem_filesToSearch_zero.mp h).1
  · rw [filesToSearch, if_neg (Nat.ne_of_gt hdeep)] at h
    split at h
    · cases h
    · rename_i g hg
      split at h
      · cases h
      · rw [List.mem_singleton.mp h]
        exact List.mem_of_getElem? hg

/-- Every entry of a database has an internal key. -/
structure Database.KeysWellFormed (db : Database) : Prop where
  mem : ∀ x ∈ db.mem.records, WellFormed x.key
  imm : ∀ x ∈ db.immRecords, WellFormed x.key
  tables : ∀ level < kNumLevels, ∀ f ∈ db.versions.current.files level,
    ∀ x ∈ db.tables f.number, WellFormed x.key

theorem Database.Stacked.keys (h : db.Stacked) : db.KeysWellFormed where
  mem x hx := h.memory x (List.mem_append_left _ hx)
  imm x hx := h.memory x (List.mem_append_right _ hx)
  tables level hlevel f hf := (h.tables level hlevel f hf).wellFormed

theorem Database.KeysWellFormed.version_answered (h : db.KeysWellFormed)
    {tableStatus : Nat → Status} (hstatus : ∀ n, tableStatus n = .ok) (k : LookupKey)
    (out : GetOutput) :
    TableAnswered ((List.range kNumLevels).findSome? (db.lookupLevel k)) out
      (db.versions.current.suGet ⟨db.tables, tableStatus⟩ k out).1
      (db.versions.current.suGet ⟨db.tables, tableStatus⟩ k out).2.out := by
  have hlook : (List.range kNumLevels).findSome? (db.lookupLevel k) =
      ((List.range kNumLevels).flatMap fun level =>
        (db.versions.current.filesToSearch k level).map (level, ·)).findSome? fun p =>
          lookup (db.tables p.2.number) k := by
    rw [findSome?_flatMap]
    congr
    ext1 level
    rw [List.findSome?_map]
    rfl
  rw [hlook]
  refine searchFiles_answered ⟨db.tables, tableStatus⟩ k hstatus ?_ ⟨none, none, out⟩
  intro p hp
  obtain ⟨level, hlevel, hp⟩ := List.mem_flatMap.mp hp
  obtain ⟨f, hf, rfl⟩ := List.mem_map.mp hp
  exact h.tables level (List.mem_range.mp hlevel) f (Version.filesToSearch_subset hf)

theorem Database.immGet_of_none (h : lookup db.immRecords k = none) (s : Status)
    (out : GetOutput) : db.immGet k s out = (false, s, out) := by
  unfold immGet
  unfold immRecords at h
  cases himm : db.imm with
  | none => rfl
  | some imm =>
    rw [himm] at h
    exact MemTable.suGet_of_none h s out

theorem Database.immGet_of_some {r : Record} (hwf : ∀ x ∈ db.immRecords, WellFormed x.key)
    (h : lookup db.immRecords k = some r) (out : GetOutput) :
    ∃ s out', db.immGet k .ok out = (true, s, out') ∧ Answered (some r) s out' ∧
      out'.tw = r.sequence := by
  unfold immGet
  unfold immRecords at h hwf
  cases himm : db.imm with
  | none =>
    rw [himm] at h
    cases h
  | some imm =>
    rw [himm] at h hwf
    exact MemTable.suGet_of_some hwf h out

/-- The first layer that has an entry answers. -/
theorem Database.KeysWellFormed.answered (h : db.KeysWellFormed) {tableStatus : Nat → Status}
    (hstatus : ∀ n, tableStatus n = .ok) (snapshot : Option Nat) (key : Bytes) (out : GetOutput)
    (hk : k = ⟨key, db.snapshotNumber snapshot⟩) :
    Answered ((lookup db.mem.records k).or ((lookup db.immRecords k).or
        ((List.range kNumLevels).findSome? (db.lookupLevel k))))
      (db.suGet tableStatus snapshot key out).status
      (db.suGet tableStatus snapshot key out).out := by
  unfold Database.suGet
  dsimp only
  rw [← hk]
  cases hlook : lookup db.mem.records k with
  | some r =>
    obtain ⟨s, out', hget, hanswer, -⟩ := MemTable.suGet_of_some h.mem hlook out
    rw [hget]
    exact hanswer
  | none =>
    rw [MemTable.suGet_of_none hlook]
    dsimp only
    cases hlook : lookup db.immRecords k with
    | some r =>
      obtain ⟨s, out', hget, hanswer, -⟩ := immGet_of_some h.imm hlook out
      rw [hget]
      exact hanswer
    | none =>
      rw [immGet_of_none hlook]
      exact (h.version_answered hstatus k out).answered

theorem Database.Stacked.reads_mem (h : db.Stacked) (hk : k.sequence ≤ kMaxSequenceNumber) :
    ReadsAt { x | x ∈ db.mem.records } k (lookup db.mem.records k) :=
  lookup_reads (MemTable.records_sorted _) h.keys.mem hk

theorem Database.Stacked.reads_imm (h : db.Stacked) (hk : k.sequence ≤ kMaxSequenceNumber) :
    ReadsAt { x | x ∈ db.immRecords } k (lookup db.immRecords k) :=
  lookup_reads (MemTable.records_sorted _) h.keys.imm hk

/-- All layers together. -/
theorem Database.Stacked.reads (h : db.Stacked) (hlargest : db.LargestStored)
    (hk : k.sequence ≤ kMaxSequenceNumber) :
    ReadsAt { x | x ∈ db.entries } k ((lookup db.mem.records k).or ((lookup db.immRecords k).or
      ((List.range kNumLevels).findSome? (db.lookupLevel k)))) := by
  have hlevels := h.reads_levels hlargest hk
  have himm := h.reads_imm hk
  have hmem := h.reads_mem hk
  have hset : { x | x ∈ db.entries } = { x | x ∈ db.mem.records } ∪ ({ x | x ∈ db.immRecords } ∪
      { x | ∃ level ∈ List.range kNumLevels, x ∈ { x | x ∈ db.entriesAt level } }) := by
    ext x
    simp [Database.entries]
  rw [hset]
  apply hmem.union
  · apply himm.union hlevels
    rintro x hx y ⟨level, hlevel, hy⟩
    exact (h.imm_tables level (List.mem_range.mp hlevel)).leads k x hx y hy
  · rintro x hx y (hy | ⟨level, hlevel, hy⟩)
    · exact h.mem_imm.leads k x hx y hy
    · exact (h.mem_tables level (List.mem_range.mp hlevel)).leads k x hx y hy

/-- The result is that of a newest entry of `u` with a sequence number of at most `s`: its
value, or `NotFound` for a deletion, and also if there is no such entry. -/
def GetResult.Tells (res : GetResult) (entries : List Record) (u : Bytes) (s : Nat) : Prop :=
  (∃ r, NewestAt entries u s r ∧ r.type = some .kTypeValue ∧
    res.status = .ok ∧ res.out = ⟨r.value, r.sequence⟩) ∨
  (∃ r, NewestAt entries u s r ∧ r.type = some .kTypeDeletion ∧ res.status = .notFound "") ∨
  Unseen entries u s ∧ res.status = .notFound ""

/-- What a lookup tells, with plain indices in the search of a level. -/
theorem Database.Stacked.tells (h : db.Stacked) (hlargest : db.LargestStored)
    {tableStatus : Nat → Status} (hstatus : ∀ n, tableStatus n = .ok) (snapshot : Option Nat)
    (hsnapshot : db.snapshotNumber snapshot ≤ kMaxSequenceNumber) (key : Bytes)
    (out : GetOutput) :
    (db.suGet tableStatus snapshot key out).Tells db.entries key
      (db.snapshotNumber snapshot) := by
  have hreads := h.reads (k := ⟨key, db.snapshotNumber snapshot⟩) hlargest hsnapshot
  have hanswer := h.keys.answered hstatus snapshot key out rfl
  revert hreads hanswer
  generalize (lookup db.mem.records _).or _ = o
  intro hreads hanswer
  cases o with
  | some r =>
    have hnewest := newestAt_iff.mpr hreads
    rcases hanswer with ⟨htype, hs, hout⟩ | ⟨htype, hs⟩
    · exact Or.inl ⟨r, hnewest, htype, hs, hout⟩
    · exact Or.inr (Or.inl ⟨r, hnewest, htype, hs⟩)
  | none =>
    refine Or.inr (Or.inr ⟨?_, hanswer⟩)
    intro x hx huser
    have hlt := hreads x hx huser
    rw [← not_le] at hlt ⊢
    exact fun hle => hlt (Record.sequence_le_iff.mp hle)

/-- **Layered lookup is correct**, for every user key and every snapshot, with up to `2 ^ 31`
files on a level: it returns, and tells the newest entry. -/
theorem suGet_newest {db : Database} (hstacked : db.Stacked) (hlargest : db.LargestStored)
    (hfew : db.versions.current.FewFiles) {rounds : Nat} (hrounds : 2 ^ 31 < rounds)
    {tableStatus : Nat → Status} (hstatus : ∀ n, tableStatus n = .ok) (snapshot : Option Nat)
    (hsnapshot : db.snapshotNumber snapshot ≤ kMaxSequenceNumber) (key : Bytes)
    (out : GetOutput) :
    ∃ res, db.suGetIn rounds tableStatus snapshot key out = some res ∧
      res.Tells db.entries key (db.snapshotNumber snapshot) :=
  ⟨_, Database.suGetIn_eq hfew hrounds tableStatus snapshot key out,
    hstacked.tells hlargest hstatus snapshot hsnapshot key out⟩

/-! ## A bound that is not an entry -/

/-- The value entry number `seq` of a user key. -/
def valueEntry (userKey : Bytes) (seq : Nat) (value : Bytes) : Record :=
  MemEntry.record ⟨seq, .kTypeValue, userKey, value⟩

/-- Two files of level 1 that share the user key `u`: one ends at number 3 and the next
begins at number 2. `upper` is what the table of the first has of `u`. -/
def boundaryDb (upper : List Record) : Database :=
  { Database.created with
    versions :=
      { VersionSet.init with
        current :=
          { files := fun level =>
              if level = 1 then
                [⟨4, 1, (valueEntry [97] 1 []).key, (valueEntry [117] 3 []).key⟩,
                  ⟨5, 1, (valueEntry [117] 2 []).key, (valueEntry [117] 2 []).key⟩]
              else []
            fileToCompact := none }
        lastSequence := 5 }
    tables := fun n =>
      if n = 4 then valueEntry [97] 1 [10] :: upper
      else if n = 5 then [valueEntry [117] 2 [20]] else [] }

theorem boundaryDb_fewFiles (upper : List Record) :
    (boundaryDb upper).versions.current.FewFiles := by
  change ∀ level < kNumLevels, ((boundaryDb []).versions.current.files level).length ≤ 2 ^ 31
  decide +kernel

/-- With number 3 in the table its bounds are those of the entries. -/
theorem boundaryDb_stored : (boundaryDb [valueEntry [117] 3 [30]]).Stacked ∧
    (boundaryDb [valueEntry [117] 3 [30]]).LargestStored := by
  refine ⟨⟨?_, ?_, ?_, ?_, ?_, ?_, ?_, ?_⟩, ?_⟩
  case refine_9 => unfold Database.LargestStored; decide +kernel
  all_goals decide +kernel

/-- Both snapshots find their entry, on either side of the boundary. -/
theorem suGet_newest_boundary :
    let db := boundaryDb [valueEntry [117] 3 [30]]
    (∃ res, db.suGetIn (2 ^ 32) (fun _ => .ok) none [117] ⟨[], 0⟩ = some res ∧
      res.Tells db.entries [117] 5) ∧
    ∃ res, db.suGetIn (2 ^ 32) (fun _ => .ok) (some 2) [117] ⟨[], 0⟩ = some res ∧
      res.Tells db.entries [117] 2 := by
  obtain ⟨hstacked, hlargest⟩ := boundaryDb_stored
  exact ⟨suGet_newest hstacked hlargest (boundaryDb_fewFiles _) (by decide) (fun _ => rfl) none
      (by decide) [117] ⟨[], 0⟩,
    suGet_newest hstacked hlargest (boundaryDb_fewFiles _) (by decide) (fun _ => rfl) (some 2)
      (by decide) [117] ⟨[], 0⟩⟩

/-- **A largest key that is not in the table** sends the lookup to the wrong file: nothing
is found, although number 2 is a value. -/
theorem boundaryDb_missed :
    (boundaryDb []).Stacked ∧
      NewestAt (boundaryDb []).entries [117] 5 (valueEntry [117] 2 [20]) ∧
      (valueEntry [117] 2 [20]).type = some .kTypeValue ∧
      ((boundaryDb []).suGetIn 3 (fun _ => .ok) (some 5) [117] ⟨[], 0⟩).map GetResult.status =
        some (.notFound "") := by
  refine ⟨?_, ?_, by decide +kernel, by decide +kernel⟩
  · exact ⟨by decide +kernel, by decide +kernel, by decide +kernel, by decide +kernel,
      by decide +kernel, by decide +kernel, by decide +kernel, by decide +kernel⟩
  · exact ⟨by decide +kernel, by decide +kernel, by decide +kernel, by decide +kernel⟩

end Lpad
