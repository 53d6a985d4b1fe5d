import Lpad.DB.VersionQueries

/-!
# `FindFile` and the two overlap tests

Over files that lie in a row, the binary search of `FindFile` gives the first file whose largest
key is not below the search key, and the overlap test that looks at this one file agrees with
the test of every file. This holds for up to `2 ^ 31` files. With more, `left + right` wraps, and
the search for a key above all files does not find their end.
-/

namespace Lpad

section Search

variable {ucmp : Bytes → Bytes → Ordering} {files : List FileMetaData} {key : Bytes}

/-- The files are sorted and disjoint, and the smallest key of each is not above its largest. -/
structure InRowBy (ucmp : Bytes → Bytes → Ordering) (files : List FileMetaData) : Prop where
  row : files.Pairwise fun f g => internalKeyCompareBy ucmp f.largest g.smallest = .lt
  proper : ∀ f ∈ files, internalKeyCompareBy ucmp f.smallest f.largest ≠ .gt

/-- What `FindFile` is to return: the least index whose largest key is not below the key. -/
def firstNotBelow (ucmp : Bytes → Bytes → Ordering) (files : List FileMetaData) (key : Bytes) :
    Nat :=
  files.findIdx fun f => internalKeyCompareBy ucmp f.largest key != .lt

/-- The files before one that is below the key are below it as well. -/
def BelowFirst (ucmp : Bytes → Bytes → Ordering) (files : List FileMetaData) (key : Bytes) : Prop :=
  files.Pairwise fun f g => internalKeyCompareBy ucmp g.largest key = .lt →
    internalKeyCompareBy ucmp f.largest key = .lt

theorem InRowBy.belowFirst [Std.TransCmp ucmp] (h : InRowBy ucmp files) (key : Bytes) :
    BelowFirst ucmp files key := by
  obtain ⟨κ, _, urank, hrank⟩ := exists_ranks ucmp
  have hint := hrank.internalKey
  refine List.Pairwise.imp_of_mem ?_ h.row
  intro f g _ hg hlt hbelow
  have hproper := h.proper g hg
  rw [ne_eq, hint.gt_iff, not_lt] at hproper
  rw [hint.lt_iff] at hlt hbelow ⊢
  exact hlt.trans (hproper.trans_lt hbelow)

/-- **The binary search** closes in on that index. -/
theorem findFileLoopBy_eq (hbelow : BelowFirst ucmp files key) (hlen : files.length ≤ 2 ^ 31) :
    ∀ {rounds left right : Nat}, left ≤ firstNotBelow ucmp files key →
      firstNotBelow ucmp files key ≤ right → right ≤ files.length → right - left < rounds →
      findFileLoopBy ucmp files key rounds left right = some (firstNotBelow ucmp files key)
  | 0, _, _, _, _, _, hrounds => absurd hrounds (Nat.not_lt_zero _)
  | rounds + 1, left, right, hleft, hright, hlength, hrounds => by
    unfold findFileLoopBy
    split
    · rename_i hlt
      have hsum : uint32 (left + right) = left + right := uint32_of_lt (by omega)
      have hmid : (left + right) / 2 < files.length := by omega
      dsimp only
      rw [hsum, List.getElem?_eq_getElem hmid]
      dsimp only
      split
      · -- the file in the middle is below the key, and so are those before it
        rename_i hcmp
        have hnext : uint32 ((left + right) / 2 + 1) = (left + right) / 2 + 1 :=
          uint32_of_lt (by omega)
        rw [hnext]
        have hafter : (left + right) / 2 < firstNotBelow ucmp files key := by
          apply List.lt_findIdx_of_not hmid
          intro j hj
          have hjcmp : internalKeyCompareBy ucmp files[j].largest key = .lt := by
            rcases Nat.lt_or_eq_of_le hj with hj | rfl
            · exact List.pairwise_iff_getElem.mp hbelow j _ _ hmid hj hcmp
            · exact hcmp
          rw [hjcmp]
          decide
        exact findFileLoopBy_eq hbelow hlen hafter hright hlength (by omega)
      · rename_i hcmp
        have hbefore : firstNotBelow ucmp files key ≤ (left + right) / 2 := by
          by_contra hnot
          exact hcmp (by simpa using List.not_of_lt_findIdx (Nat.lt_of_not_le hnot))
        exact findFileLoopBy_eq hbelow hlen hleft hbefore hmid.le (by omega)
    · have hend : right = firstNotBelow ucmp files key := by omega
      rw [hend]

theorem findFileBy_eq (hbelow : BelowFirst ucmp files key) (hlen : files.length ≤ 2 ^ 31)
    {rounds : Nat} (hrounds : files.length < rounds) :
    findFileBy ucmp rounds files key = some (firstNotBelow ucmp files key) := by
  have hright : uint32 files.length = files.length :=
    uint32_of_lt (Nat.lt_of_le_of_lt hlen (by decide))
  rw [findFileBy, hright]
  exact findFileLoopBy_eq hbelow hlen (Nat.zero_le _) List.findIdx_le_length le_rfl
    (Nat.lt_of_le_of_lt (Nat.sub_le _ _) hrounds)

end Search

/-! ## The two overlap tests -/

section Overlap

variable {ucmp : Bytes → Bytes → Ordering} {files : List FileMetaData}

/-- A list in which what lies before stays so: its first element that does not lie after decides
whether there is one in between. -/
theorem any_eq_of_first {α : Type*} (after : α → Bool) {before : α → Bool} :
    ∀ {l : List α}, (l.Pairwise fun f g => before f = true → before g = true) →
      l.any (fun f => !(after f || before f)) =
        l[l.findIdx fun f => !after f]?.any fun f => !before f
  | [], _ => rfl
  | f :: rest, h => by
    obtain ⟨hfirst, hrest⟩ := List.pairwise_cons.mp h
    rw [List.any_cons, List.findIdx_cons]
    cases hafter : after f with
    | true =>
      rw [any_eq_of_first after hrest]
      rfl
    | false =>
      cases hbefore : before f with
      | false => simp [hbefore]
      | true =>
        -- those behind it lie before as well
        have hnone : rest.any (fun g => !(after g || before g)) = false := by
          rw [List.any_eq_false]
          intro g hg
          rw [hfirst g hg hbefore, Bool.or_true]
          decide
        rw [hnone]
        simp [hbefore]

/-- The start keys do not decrease. -/
theorem InRowBy.startKey_le {κ : Type*} [LinearOrder κ] {urank : Bytes → κ}
    (hrank : Ranks ucmp urank) (h : InRowBy ucmp files) :
    files.Pairwise fun f g => urank f.startKey ≤ urank g.startKey := by
  have hint := hrank.internalKey
  refine List.Pairwise.imp_of_mem ?_ h.row
  intro f g hf _ hlt
  have hproper := h.proper f hf
  rw [ne_eq, hint.gt_iff, not_lt] at hproper
  have hle := hproper.trans (hint.lt_iff.mp hlt).le
  exact (Prod.Lex.monotone_fst_ofLex hle : _)

/-- The earliest internal key of a user key is above a file's largest key just when the user
key is. -/
theorem seek_above_iff [Std.TransCmp ucmp] {f : FileMetaData} (hf : WellFormed f.largest)
    (k : Bytes) :
    internalKeyCompareBy ucmp f.largest (appendInternalKey ⟨k, kMaxSequenceNumber, .kTypeValue⟩) =
      .lt ↔ afterFileBy ucmp (some k) f = true := by
  obtain ⟨κ, _, urank, hrank⟩ := exists_ranks ucmp
  obtain ⟨p, -, hp⟩ := hf
  rw [afterFileBy, Option.any_some, beq_iff_eq, hrank.gt_iff, hrank.internalKey.lt_iff,
    internalRank, internalRank, Prod.Lex.toLex_lt_toLex, extractUserKey_appendInternalKey]
  refine or_iff_left ?_
  rintro ⟨-, hlt⟩
  rw [hp] at hlt
  exact not_lt_of_ge (trailer_le_seek p k) hlt

theorem findIdx_congr {α : Type*} {p q : α → Bool} :
    ∀ {l : List α}, (∀ x ∈ l, p x = q x) → l.findIdx p = l.findIdx q
  | [], _ => rfl
  | x :: rest, h => by
    rw [List.findIdx_cons, List.findIdx_cons, h x List.mem_cons_self,
      findIdx_congr fun y hy => h y (List.mem_cons_of_mem x hy)]

/-- The index at which the fast test looks is that of the first file which does not end before
the range. -/
theorem startIndexBy_eq [Std.TransCmp ucmp] (h : InRowBy ucmp files)
    (hkeys : ∀ f ∈ files, WellFormed f.largest) (hlen : files.length ≤ 2 ^ 31) {rounds : Nat}
    (hrounds : files.length < rounds) (smallest : Option Bytes) :
    startIndexBy ucmp rounds files smallest =
      some (files.findIdx fun f => !afterFileBy ucmp smallest f) := by
  cases smallest with
  | none => cases files <;> rfl
  | some k =>
    rw [startIndexBy, findFileBy_eq (h.belowFirst _) hlen hrounds, firstNotBelow]
    congr 1
    apply findIdx_congr
    intro f hf
    rw [Bool.eq_iff_iff, bne_iff_ne, Bool.not_eq_true', ← Bool.not_eq_true, ne_eq,
      seek_above_iff (hkeys f hf)]

/-- **The fast test is the slow one.** -/
theorem someFileOverlapsRangeBy_true [Std.TransCmp ucmp] (h : InRowBy ucmp files)
    (hkeys : ∀ f ∈ files, WellFormed f.largest) (hlen : files.length ≤ 2 ^ 31)
    (smallest largest : Option Bytes) {rounds : Nat} (hrounds : files.length < rounds) :
    someFileOverlapsRangeBy ucmp rounds true files smallest largest =
      someFileOverlapsRangeBy ucmp rounds false files smallest largest := by
  obtain ⟨κ, _, urank, hrank⟩ := exists_ranks ucmp
  have hbefore : files.Pairwise fun f g =>
      beforeFileBy ucmp largest f = true → beforeFileBy ucmp largest g = true := by
    refine (h.startKey_le hrank).imp ?_
    intro f g hle
    simp only [beforeFileBy, Option.any_eq_true, beq_iff_eq, hrank.lt_iff]
    rintro ⟨k, hk, hlt⟩
    exact ⟨k, hk, hlt.trans_le hle⟩
  simp only [someFileOverlapsRangeBy, Bool.true_eq_false, if_false, if_true]
  rw [startIndexBy_eq h hkeys hlen hrounds, any_eq_of_first _ hbefore, Option.map_some]
  cases files[files.findIdx fun f => !afterFileBy ucmp smallest f]? <;> rfl

end Overlap

/-! ## More files -/

section ManyFiles

variable {ucmp : Bytes → Bytes → Ordering} {files : List FileMetaData} {key : Bytes}

/-- With more than `2 ^ 31` files and all of them below the key, `left` never comes to the end:
the middle of a sum of 32 bits lies within `2 ^ 31`. -/
theorem findFileLoopBy_none {right : Nat} (hright : right ≤ files.length) (hmany : 2 ^ 31 < right)
    (hbelow : ∀ f ∈ files, internalKeyCompareBy ucmp f.largest key = .lt) :
    ∀ (rounds : Nat) {left : Nat}, left ≤ 2 ^ 31 →
      findFileLoopBy ucmp files key rounds left right = none
  | 0, _, _ => rfl
  | rounds + 1, left, hleft => by
    have hmid : uint32 (left + right) / 2 < 2 ^ 31 :=
      Nat.div_lt_of_lt_mul (Nat.mod_lt _ (by decide))
    have hget : uint32 (left + right) / 2 < files.length :=
      hmid.trans (hmany.trans_le hright)
    have hnext : uint32 (uint32 (left + right) / 2 + 1) ≤ 2 ^ 31 := (Nat.mod_le _ _).trans hmid
    unfold findFileLoopBy
    rw [if_pos (hleft.trans_lt hmany)]
    dsimp only
    rw [List.getElem?_eq_getElem hget]
    dsimp only
    rw [if_pos (hbelow _ (List.getElem_mem hget))]
    exact findFileLoopBy_none hright hmany hbelow rounds hnext

/-- The search returns no index behind its range. -/
theorem findFileLoopBy_le : ∀ {rounds left right index : Nat},
    findFileLoopBy ucmp files key rounds left right = some index → index ≤ right
  | 0, _, _, _, h => by cases h
  | rounds + 1, left, right, index, h => by
    unfold findFileLoopBy at h
    split at h
    · rename_i hlt
      have hmid : uint32 (left + right) / 2 ≤ right := by
        have := Nat.mod_le (left + right) (2 ^ 32)
        unfold uint32
        omega
      dsimp only at h
      split at h
      · cases h
      · split at h
        · exact findFileLoopBy_le h
        · exact (findFileLoopBy_le h).trans hmid
    · exact (Option.some.inj h).ge

/-- A key above all of more than `2 ^ 31` files is not found to be so. -/
theorem findFileBy_ne (hmany : 2 ^ 31 < files.length)
    (hbelow : ∀ f ∈ files, internalKeyCompareBy ucmp f.largest key = .lt) (rounds : Nat) :
    findFileBy ucmp rounds files key ≠ some files.length := by
  intro hfound
  have hright : uint32 files.length = files.length :=
    Nat.le_antisymm (Nat.mod_le _ _) (findFileLoopBy_le hfound)
  rw [findFileBy, hright, findFileLoopBy_none le_rfl hmany hbelow rounds (Nat.zero_le _)] at hfound
  cases hfound

end ManyFiles

/-- `FindFile` gives the least index whose largest key is not below the search key, and the binary
overlap test is the linear one, for all user keys. -/
def OverlapTestsAgree (ucmp : Bytes → Bytes → Ordering) (files : List FileMetaData) : Prop :=
  (∀ key, ∀ rounds > files.length,
    findFileBy ucmp rounds files key = some (firstNotBelow ucmp files key)) ∧
  ∀ smallest largest, ∀ rounds > files.length,
    someFileOverlapsRangeBy ucmp rounds true files smallest largest =
      someFileOverlapsRangeBy ucmp rounds false files smallest largest

/-- **Binary and linear overlap test agree** on up to `2 ^ 31` files, and on no more than that if
some key lies above them all. -/
theorem someFileOverlapsRangeBy_agree {ucmp : Bytes → Bytes → Ordering} [Std.TransCmp ucmp]
    {files : List FileMetaData} (h : InRowBy ucmp files)
    (hkeys : ∀ f ∈ files, WellFormed f.largest) :
    (files.length ≤ 2 ^ 31 → OverlapTestsAgree ucmp files) ∧
    ∀ key, (∀ f ∈ files, internalKeyCompareBy ucmp f.largest key = .lt) →
      OverlapTestsAgree ucmp files → files.length ≤ 2 ^ 31 := by
  constructor
  · intro hlen
    constructor
    · intro key rounds hrounds
      exact findFileBy_eq (h.belowFirst key) hlen hrounds
    · intro smallest largest rounds hrounds
      exact someFileOverlapsRangeBy_true h hkeys hlen smallest largest hrounds
  · rintro key hbelow ⟨hfind, -⟩
    by_contra hmany
    have hlast : firstNotBelow ucmp files key = files.length :=
      List.findIdx_eq_length.mpr fun f hf => by rw [hbelow f hf]; rfl
    have hfound := hfind key _ (Nat.lt_succ_self _)
    rw [hlast] at hfound
    exact findFileBy_ne (Nat.lt_of_not_le hmany) hbelow _ hfound

/-- Two files that share the user key `b` at their boundary. -/
def boundaryFiles : List FileMetaData :=
  [⟨1, 0, appendInternalKey ⟨[97], 5, .kTypeValue⟩, appendInternalKey ⟨[98], 4, .kTypeValue⟩⟩,
    ⟨2, 0, appendInternalKey ⟨[98], 3, .kTypeValue⟩, appendInternalKey ⟨[100], 7, .kTypeValue⟩⟩]

theorem someFileOverlapsRangeBy_agree_boundary :
    someFileOverlapsRangeBy sliceCompare 3 true boundaryFiles (some [98]) (some [98]) =
        someFileOverlapsRangeBy sliceCompare 3 false boundaryFiles (some [98]) (some [98]) ∧
      someFileOverlapsRangeBy sliceCompare 3 true boundaryFiles (some [98]) (some [98]) =
        some true := by
  have hrow : InRowBy sliceCompare boundaryFiles := ⟨by decide +kernel, by decide +kernel⟩
  have hagree := (someFileOverlapsRangeBy_agree hrow (by decide +kernel)).1 (by decide +kernel)
  exact ⟨hagree.2 (some [98]) (some [98]) 3 (by decide), by decide +kernel⟩

/-! ## A level with one file too many -/

/-- The lowest `w` bytes of a number, the highest of them first. -/
def beBytes : Nat → Nat → Bytes
  | 0, _ => []
  | w + 1, i => UInt8.ofNat (i / 256 ^ w) :: beBytes w (i % 256 ^ w)

theorem beBytes_lt : ∀ {w i j : Nat}, i < j → j < 256 ^ w → beBytes w i < beBytes w j
  | 0, i, j, hij, hj => by omega
  | w + 1, i, j, hij, hj => by
    have hpos : 0 < 256 ^ w := Nat.pow_pos (by decide)
    have hj256 : j / 256 ^ w < 256 := Nat.div_lt_of_lt_mul (by rwa [← Nat.pow_succ])
    have hle : i / 256 ^ w ≤ j / 256 ^ w := Nat.div_le_div_right hij.le
    rw [beBytes, beBytes, List.cons_lt_cons_iff]
    rcases Nat.lt_or_eq_of_le hle with hlt | heq
    · left
      rw [UInt8.lt_iff_toNat_lt, UInt8.toNat_ofNat', UInt8.toNat_ofNat',
        Nat.mod_eq_of_lt (hlt.trans hj256), Nat.mod_eq_of_lt hj256]
      exact hlt
    · right
      refine ⟨congrArg _ heq, beBytes_lt ?_ (Nat.mod_lt _ hpos)⟩
      have hi := Nat.div_add_mod i (256 ^ w)
      have hj := Nat.div_add_mod j (256 ^ w)
      rw [heq] at hi
      omega

/-- File `i` holds the one user key that its number makes in four bytes. -/
def numberedFile (i : Nat) : FileMetaData :=
  ⟨i, 0, appendInternalKey ⟨beBytes 4 i, 0, .kTypeValue⟩,
    appendInternalKey ⟨beBytes 4 i, 0, .kTypeValue⟩⟩

theorem numberedFiles_inRow {n : Nat} (hn : n ≤ 2 ^ 32) :
    InRowBy sliceCompare ((List.range n).map numberedFile) := by
  have hrank := ranks_sliceCompare.internalKey
  constructor
  · rw [List.pairwise_map]
    refine List.Pairwise.imp_of_mem ?_ List.pairwise_lt_range
    intro i j _ hj hij
    rw [hrank.lt_iff, internalRank, internalRank, Prod.Lex.toLex_lt_toLex, numberedFile,
      numberedFile, extractUserKey_appendInternalKey, extractUserKey_appendInternalKey]
    exact Or.inl (beBytes_lt hij ((List.mem_range.mp hj).trans_le hn))
  · intro f hf
    obtain ⟨i, -, rfl⟩ := List.mem_map.mp hf
    rw [ne_eq, hrank.gt_iff]
    exact lt_irrefl _

/-- **With `2 ^ 31 + 1` files**, each with one user key of four bytes, the linear test returns and
the binary one never does. -/
theorem someFileOverlapsRangeBy_manyFiles : ∃ files : List FileMetaData,
    files.length = 2 ^ 31 + 1 ∧ InRowBy sliceCompare files ∧
    (∀ f ∈ files, WellFormed f.largest ∧ f.largest.length = 12 ∧ f.smallest = f.largest) ∧
    ∀ rounds, someFileOverlapsRangeBy sliceCompare rounds true files (some [255]) none = none ∧
      someFileOverlapsRangeBy sliceCompare rounds false files (some [255]) none = some false := by
  obtain ⟨n, hn⟩ : ∃ n, n = 2 ^ 31 + 1 := ⟨_, rfl⟩
  have hlen : ((List.range n).map numberedFile).length = 2 ^ 31 + 1 := by
    rw [List.length_map, List.length_range, hn]
  have hkeys : ∀ f ∈ (List.range n).map numberedFile,
      WellFormed f.largest ∧ f.largest.length = 12 ∧ f.smallest = f.largest := by
    intro f hf
    obtain ⟨i, -, rfl⟩ := List.mem_map.mp hf
    exact ⟨⟨⟨beBytes 4 i, 0, .kTypeValue⟩, Nat.zero_le _, rfl⟩, rfl, rfl⟩
  have hafter : ∀ f ∈ (List.range n).map numberedFile,
      afterFileBy sliceCompare (some [255]) f = true := by
    intro f hf
    obtain ⟨i, hi, rfl⟩ := List.mem_map.mp hf
    have hbyte : i / 256 ^ 3 < 255 := by
      have := List.mem_range.mp hi
      omega
    rw [afterFileBy, Option.any_some, beq_iff_eq, sliceCompare_gt_iff, FileMetaData.limitKey,
      numberedFile, extractUserKey_appendInternalKey]
    refine List.cons_lt_cons_iff.mpr (Or.inl ?_)
    rw [UInt8.lt_iff_toNat_lt, UInt8.toNat_ofNat', Nat.mod_eq_of_lt (hbyte.trans (by decide))]
    exact hbyte
  refine ⟨(List.range n).map numberedFile, hlen, numberedFiles_inRow (by omega), hkeys, ?_⟩
  intro rounds
  constructor
  · have hbelow : ∀ f ∈ (List.range n).map numberedFile, _ :=
      fun f hf => (seek_above_iff (hkeys f hf).1 [255]).mpr (hafter f hf)
    have hright : uint32 (2 ^ 31 + 1) = 2 ^ 31 + 1 := uint32_of_lt (by decide)
    simp only [someFileOverlapsRangeBy, Bool.true_eq_false, if_false, startIndexBy, findFileBy]
    rw [hlen, hright, findFileLoopBy_none hlen.ge (by decide) hbelow rounds (Nat.zero_le _)]
    rfl
  · have hany : (((List.range n).map numberedFile).any fun f =>
        !(afterFileBy sliceCompare (some [255]) f || beforeFileBy sliceCompare none f)) =
        false := by
      rw [List.any_eq_false]
      intro f hf
      rw [hafter f hf, Bool.true_or]
      decide
    rw [someFileOverlapsRangeBy, if_pos rfl, hany]

end Lpad
