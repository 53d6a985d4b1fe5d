import Lpad.DB.SnapshotMap
import Lpad.DB.UserIterator

/-!
# A user's iterator is a cursor over the map of its snapshot

Going forward, `FindNextUserEntry` must not show an entry when a newer one of the same user
key was passed, or when the user key is not behind the one to skip. It knows both from one
string, the user key up to which it skips (`Skips`). This is right as long as the entries in
front of it that it must not show have one user key, that very string; in the reverse
direction `iter_` stands where this is so.

Going back, `FindPrevUserEntry` has in `saved_key_` and `saved_value_` the last entry of the
snapshot that it passed, which is the newest of its user key when the next one that the
snapshot sees has another (`Passed`).
-/

namespace Lpad.DBIter

variable {σ : Type} {it : Iterator σ Bytes Bytes} {ucmp : Bytes → Bytes → Ordering}
  {κ : Type*} [LinearOrder κ] {urank : Bytes → κ} {records : List Record} {s : Nat} {d : DBIter σ}

/-! ## The internal iterator -/

/-- The internal iterator is a cursor at `p`. -/
def Over (it : Iterator σ Bytes Bytes) (ucmp : Bytes → Bytes → Ordering) (records : List Record)
    (iter : σ) (p : Option Nat) : Prop :=
  BehavesAs it (internalKeyCompareBy ucmp) (records.map Record.slices) iter p

theorem Over.valid {iter : σ} {i : Nat} {r : Record} (h : Over it ucmp records iter (some i))
    (hr : records[i]? = some r) : it.valid iter = true ∧ it.key iter = r.key ∧
      it.value iter = r.value := by
  have hentry := BehavesAs.entry h
  rw [Cursor.entryAt_some, List.getElem?_map, hr] at hentry
  exact Iterator.entry_eq_some.mp hentry

theorem Over.invalid {iter : σ} (h : Over it ucmp records iter none) : it.valid iter = false :=
  Iterator.entry_eq_none.mp (BehavesAs.entry h)

theorem Over.next {iter : σ} {i : Nat} (h : Over it ucmp records iter (some i)) :
    ∃ iter', it.move .next iter = some iter' ∧
      Over it ucmp records iter' (if i + 1 < records.length then some (i + 1) else none) := by
  obtain ⟨iter', hmove, hiter⟩ := BehavesAs.move h (m := .next) rfl
  rw [List.length_map] at hiter
  exact ⟨iter', hmove, hiter⟩

theorem Over.prev {iter : σ} {i : Nat} (h : Over it ucmp records iter (some i)) :
    ∃ iter', it.move .prev iter = some iter' ∧
      Over it ucmp records iter' (if i = 0 then none else some (i - 1)) :=
  BehavesAs.move h (m := .prev) rfl

theorem Over.seekToFirst {iter : σ} {p : Option Nat} (h : Over it ucmp records iter p) :
    ∃ iter', it.move .seekToFirst iter = some iter' ∧
      Over it ucmp records iter' (if 0 < records.length then some 0 else none) := by
  obtain ⟨iter', hmove, hiter⟩ := BehavesAs.move h (m := .seekToFirst) rfl
  have hplace : (if (records.map Record.slices).length = 0 then none else some 0) =
      if 0 < records.length then some 0 else none := by
    rw [List.length_map]
    split <;> split <;> first | rfl | omega
  rw [hplace] at hiter
  exact ⟨iter', hmove, hiter⟩

/-- `ParseKey` on a well-formed key that the snapshot sees. -/
theorem parseVisible_seen {i : Nat} {r : Record} (h : Over it ucmp records d.iter (some i))
    (hr : records[i]? = some r) (hwf : WellFormed r.key) (hseen : r.sequence ≤ s) :
    ∃ ikey, d.parseVisible it s = (d, some ikey) ∧ ikey.userKey = r.userKey ∧
      r.type = some ikey.type := by
  obtain ⟨ikey, hparse, huser, hseq⟩ := Record.parsed_of_wellFormed hwf
  refine ⟨ikey, ?_, huser.symm, ?_⟩
  · rw [hseq] at hseen
    simp [parseVisible, parseKey, (h.valid hr).2.1, hparse, hseen]
  · rw [Record.type, hparse]
    rfl

theorem parseVisible_unseen {i : Nat} {r : Record} (h : Over it ucmp records d.iter (some i))
    (hr : records[i]? = some r) (hwf : WellFormed r.key) (hseen : ¬ r.sequence ≤ s) :
    d.parseVisible it s = (d, none) := by
  obtain ⟨ikey, hparse, -, hseq⟩ := Record.parsed_of_wellFormed hwf
  rw [hseq, not_le] at hseen
  simp [parseVisible, parseKey, (h.valid hr).2.1, hparse, hseen]

/-! ## Forward -/

variable {P : κ → Prop} {i : Nat} {r : Record} {skipping : Bool} {skip : Bytes}

/-- Before the entry at `i` is looked at. The user keys that may be shown are those in `P`. -/
structure Skips (urank : Bytes → κ) (records : List Record) (s : Nat) (P : κ → Prop) (i : Nat)
    (skipping : Bool) (skip : Bytes) : Prop where
  hides : ∀ j a, records[j]? = some a → i ≤ j → a.sequence ≤ s →
    (skipping = true ∧ urank a.userKey ≤ urank skip ↔
      ¬ P (urank a.userKey) ∨
        ∃ k b, k < i ∧ records[k]? = some b ∧ b.sequence ≤ s ∧ b.userKey = a.userKey)
  below : ∀ j a, records[j]? = some a → i ≤ j → a.sequence ≤ s → ¬ P (urank a.userKey) →
    a.userKey = skip
  least : ∀ j a, Shown records s j a → P (urank a.userKey) → i ≤ j

/-- An entry that the snapshot does not see is passed. -/
theorem Skips.unseen (h : Skips urank records s P i skipping skip) (hr : records[i]? = some r)
    (hseen : ¬ r.sequence ≤ s) : Skips urank records s P (i + 1) skipping skip where
  hides := by
    intro j a ha hij hsa
    rw [h.hides j a ha (Nat.le_of_succ_le hij) hsa]
    apply or_congr_right
    constructor
    · rintro ⟨k, b, hk, hb⟩
      exact ⟨k, b, Nat.lt_succ_of_lt hk, hb⟩
    · rintro ⟨k, b, hk, hb, hsb, hkey⟩
      rcases Nat.lt_succ_iff_lt_or_eq.mp hk with hlt | rfl
      · exact ⟨k, b, hlt, hb, hsb, hkey⟩
      · obtain rfl := Option.some.inj (hr.symm.trans hb)
        exact absurd hsb hseen
  below := fun j a ha hij => h.below j a ha (Nat.le_of_succ_le hij)
  least := by
    intro j a ha hPa
    apply Nat.succ_le_of_lt (lt_of_le_of_ne (h.least j a ha hPa) _)
    rintro rfl
    obtain rfl := Option.some.inj (hr.symm.trans ha.at_place)
    exact hseen ha.seen

/-- A deletion is passed, and its user key is skipped from now on. -/
theorem Skips.deletion (h : Skips urank records s P i skipping skip)
    (hL : ByComparator urank records) (hP : ∀ a b, a ≤ b → P a → P b)
    (hr : records[i]? = some r) (hseen : r.sequence ≤ s)
    (htype : r.type = some .kTypeDeletion) : Skips urank records s P (i + 1) true r.userKey := by
  -- an entry behind the deletion that must not be shown has its user key
  have hsame : ∀ j a, records[j]? = some a → i < j → a.sequence ≤ s → ¬ P (urank a.userKey) →
      a.userKey = r.userKey := by
    intro j a ha hij hsa hnot
    have hle := hL.userKey_le hr ha hij.le
    rw [h.below j a ha hij.le hsa hnot,
      h.below i r hr (le_refl i) hseen fun hPr => hnot (hP _ _ hle hPr)]
  constructor
  case hides =>
    intro j a ha hij hsa
    have hle := hL.userKey_le hr ha (Nat.le_of_succ_le hij)
    constructor
    · rintro ⟨-, hge⟩
      exact Or.inr ⟨i, r, Nat.lt_succ_self i, hr, hseen,
        hL.injective _ _ (le_antisymm hle hge)⟩
    · rintro (hnot | ⟨k, b, hk, hb, -, hkey⟩)
      · exact ⟨rfl, by rw [hsame j a ha hij hsa hnot]⟩
      · rw [← hkey]
        exact ⟨rfl, hL.userKey_le hb hr (Nat.le_of_lt_succ hk)⟩
  case below => exact fun j a ha hij hsa hnot => hsame j a ha hij hsa hnot
  case least =>
    intro j a ha hPa
    apply Nat.succ_le_of_lt (lt_of_le_of_ne (h.least j a ha hPa) _)
    rintro rfl
    obtain rfl := Option.some.inj (hr.symm.trans ha.at_place)
    exact absurd (htype.symm.trans ha.type) (by decide)

/-- A value that is hidden is passed. -/
theorem Skips.hidden (h : Skips urank records s P i skipping skip) (hr : records[i]? = some r)
    (hseen : r.sequence ≤ s) (hskip : skipping = true ∧ urank r.userKey ≤ urank skip) :
    Skips urank records s P (i + 1) skipping skip where
  hides := by
    intro j a ha hij hsa
    have hold := h.hides j a ha (Nat.le_of_succ_le hij) hsa
    constructor
    · intro hskip'
      rcases hold.mp hskip' with hnot | ⟨k, b, hk, hb⟩
      · exact Or.inl hnot
      · exact Or.inr ⟨k, b, Nat.lt_succ_of_lt hk, hb⟩
    · rintro (hnot | ⟨k, b, hk, hb, hsb, hkey⟩)
      · exact hold.mpr (Or.inl hnot)
      · rcases Nat.lt_succ_iff_lt_or_eq.mp hk with hlt | rfl
        · exact hold.mpr (Or.inr ⟨k, b, hlt, hb, hsb, hkey⟩)
        · obtain rfl := Option.some.inj (hr.symm.trans hb)
          rw [← hkey]
          exact hskip
  below := fun j a ha hij => h.below j a ha (Nat.le_of_succ_le hij)
  least := by
    intro j a ha hPa
    apply Nat.succ_le_of_lt (lt_of_le_of_ne (h.least j a ha hPa) _)
    rintro rfl
    obtain rfl := Option.some.inj (hr.symm.trans ha.at_place)
    rcases (h.hides i r hr (le_refl i) hseen).mp hskip with hnot | ⟨k, b, hk, hb, hsb, hkey⟩
    · exact hnot hPa
    · exact ha.first k b hb hk hsb hkey

/-- A value that is not hidden is the next entry to show. -/
theorem Skips.found (h : Skips urank records s P i skipping skip) (hr : records[i]? = some r)
    (hseen : r.sequence ≤ s) (htype : r.type = some .kTypeValue)
    (hskip : ¬ (skipping = true ∧ urank r.userKey ≤ urank skip)) :
    Shown records s i r ∧ P (urank r.userKey) := by
  rw [h.hides i r hr (le_refl i) hseen, not_or, not_not] at hskip
  refine ⟨⟨hr, hseen, htype, ?_⟩, hskip.1⟩
  intro j a ha hij hsa hkey
  exact hskip.2 ⟨j, a, hij, ha, hsa, hkey⟩

/-- **One round of `FindNextUserEntry`**: it returns with the entry to show, or it passes the
entry. -/
theorem nextBody_spec (hrank : Ranks ucmp urank) (hL : ByComparator urank records)
    (hP : ∀ a b, a ≤ b → P a → P b) (hr : records[i]? = some r) (hwf : WellFormed r.key)
    (hover : Over it ucmp records d.iter (some i))
    (h : Skips urank records s P i skipping d.savedKey) :
    (d.nextBody it ucmp s skipping = .inl { d with valid := true, savedKey := [] } ∧
      Shown records s i r ∧ P (urank r.userKey)) ∨
    ∃ skipping' savedKey, d.nextBody it ucmp s skipping = .inr (skipping', { d with savedKey }) ∧
      Skips urank records s P (i + 1) skipping' savedKey := by
  unfold nextBody
  by_cases hseen : r.sequence ≤ s
  · obtain ⟨ikey, hparse, huser, htype⟩ := parseVisible_seen hover hr hwf hseen
    rw [hparse]
    dsimp only
    cases hk : ikey.type with
    | kTypeDeletion =>
      rw [hk] at htype
      refine Or.inr ⟨true, ikey.userKey, rfl, ?_⟩
      rw [huser]
      exact h.deletion hL hP hr hseen htype
    | kTypeValue =>
      rw [hk] at htype
      have hiff : (skipping = true ∧ ucmp ikey.userKey d.savedKey ≠ .gt) ↔
          (skipping = true ∧ urank r.userKey ≤ urank d.savedKey) := by
        rw [huser, ne_eq, hrank.gt_iff, not_lt]
      by_cases hskip : skipping = true ∧ urank r.userKey ≤ urank d.savedKey
      · exact Or.inr ⟨skipping, d.savedKey, if_pos (hiff.mpr hskip), h.hidden hr hseen hskip⟩
      · exact Or.inl ⟨if_neg fun hc => hskip (hiff.mp hc), h.found hr hseen htype hskip⟩
  · rw [parseVisible_unseen hover hr hwf hseen]
    exact Or.inr ⟨skipping, d.savedKey, rfl, h.unseen hr hseen⟩

/-- What `FindNextUserEntry` leaves: it is at the first entry of the map with a user key in
`P`, or there is none. -/
def NextFound (it : Iterator σ Bytes Bytes) (ucmp : Bytes → Bytes → Ordering) (urank : Bytes → κ)
    (records : List Record) (s : Nat) (P : κ → Prop) (d : DBIter σ) : Prop :=
  (d.valid = true ∧ ∃ i r, Shown records s i r ∧ P (urank r.userKey) ∧
      (∀ j a, Shown records s j a → P (urank a.userKey) → i ≤ j) ∧
      Over it ucmp records d.iter (some i)) ∨
    (d.valid = false ∧ (∀ j a, Shown records s j a → ¬ P (urank a.userKey)) ∧
      ∃ p, Over it ucmp records d.iter p)

/-- **`FindNextUserEntry`** -/
theorem findNextUserEntry_spec (hrank : Ranks ucmp urank) (hL : ByComparator urank records)
    (hwf : ∀ r ∈ records, WellFormed r.key) (hP : ∀ a b, a ≤ b → P a → P b) {fuel : Nat}
    (hfuel : records.length < i + fuel) (hi : i < records.length)
    (hover : Over it ucmp records d.iter (some i))
    (h : Skips urank records s P i skipping d.savedKey) :
    ∃ d', d.findNextUserEntry it ucmp s fuel skipping = some d' ∧
      d'.direction = d.direction ∧ NextFound it ucmp urank records s P d' := by
  induction fuel generalizing d i skipping with
  | zero => omega
  | succ fuel ih =>
    have hr := List.getElem?_eq_getElem hi
    unfold findNextUserEntry
    rcases nextBody_spec hrank hL hP hr (hwf _ (List.getElem_mem hi)) hover h with
      ⟨hbody, hshown, hPr⟩ | ⟨skipping', savedKey, hbody, hskips⟩
    · rw [hbody]
      exact ⟨_, rfl, rfl, Or.inl ⟨rfl, i, _, hshown, hPr, h.least, hover⟩⟩
    · obtain ⟨iter', hmove, hover'⟩ := hover.next
      rw [hbody]
      dsimp only
      rw [hmove]
      dsimp only
      split at hover'
      case isTrue hnext =>
        rw [if_pos (hover'.valid (List.getElem?_eq_getElem hnext)).1]
        exact ih (d := { d with savedKey, iter := iter' }) (by omega) hnext hover' hskips
      case isFalse hnext =>
        rw [if_neg (by rw [hover'.invalid]; decide)]
        refine ⟨_, rfl, rfl, Or.inr ⟨rfl, ?_, none, hover'⟩⟩
        intro j a ha hPa
        have hlt := (List.getElem?_eq_some_iff.mp ha.at_place).1
        exact hnext (lt_of_le_of_lt (hskips.least j a ha hPa) hlt)

/-- The places from which `FindNextUserEntry` starts without a key to skip: what the snapshot
sees from there on is in `P`, and nothing that it sees before. -/
theorem skips_start
    (hfront : ∀ j a, records[j]? = some a → i ≤ j → a.sequence ≤ s → P (urank a.userKey))
    (hback : ∀ j a, records[j]? = some a → j < i → a.sequence ≤ s → ¬ P (urank a.userKey))
    (skip : Bytes) : Skips urank records s P i false skip where
  hides := by
    intro j a ha hij hsa
    refine iff_of_false (by simp) ?_
    rintro (hnot | ⟨k, b, hk, hb, hsb, hkey⟩)
    · exact hnot (hfront j a ha hij hsa)
    · apply hback k b hb hk hsb
      rw [hkey]
      exact hfront j a ha hij hsa
  below := fun j a ha hij hsa hnot => absurd (hfront j a ha hij hsa) hnot
  least := fun j a ha hPa => not_lt.mp fun hlt => hback j a ha.at_place hlt ha.seen hPa

/-- The places from which `Next` starts: the snapshot sees no smaller key from there on, and no
larger one before. -/
theorem skips_current (hL : ByComparator urank records)
    (hfront : ∀ j a, records[j]? = some a → i ≤ j → a.sequence ≤ s →
      urank r.userKey ≤ urank a.userKey)
    (hback : ∀ j a, records[j]? = some a → j < i → a.sequence ≤ s →
      urank a.userKey ≤ urank r.userKey) :
    Skips urank records s (urank r.userKey < ·) i true r.userKey where
  hides := by
    intro j a ha hij hsa
    constructor
    · rintro ⟨-, hle⟩
      exact Or.inl (not_lt.mpr hle)
    · rintro (hnot | ⟨k, b, hk, hb, hsb, hkey⟩)
      · exact ⟨rfl, not_lt.mp hnot⟩
      · rw [← hkey]
        exact ⟨rfl, hback k b hb hk hsb⟩
  below := fun j a ha hij hsa hnot =>
    hL.injective _ _ (le_antisymm (not_lt.mp hnot) (hfront j a ha hij hsa))
  least := fun j a ha hlt => not_lt.mp fun hji =>
    absurd hlt (not_lt.mpr (hback j a ha.at_place hji ha.seen))

/-- From a place in the list, or from its end. -/
theorem forward_from (hrank : Ranks ucmp urank) (hL : ByComparator urank records)
    (hwf : ∀ r ∈ records, WellFormed r.key) (hP : ∀ a b, a ≤ b → P a → P b) {fuel : Nat}
    (hfuel : records.length < fuel)
    (hover : Over it ucmp records d.iter (if i < records.length then some i else none))
    (h : Skips urank records s P i skipping d.savedKey) :
    (it.valid d.iter = true ∧ ∃ d', d.findNextUserEntry it ucmp s fuel skipping = some d' ∧
      d'.direction = d.direction ∧ NextFound it ucmp urank records s P d') ∨
    (it.valid d.iter = false ∧ ∀ j a, Shown records s j a → ¬ P (urank a.userKey)) := by
  split at hover
  case isTrue hlt =>
    exact Or.inl ⟨(hover.valid (List.getElem?_eq_getElem hlt)).1,
      findNextUserEntry_spec hrank hL hwf hP (by omega) hlt hover h⟩
  case isFalse hge =>
    refine Or.inr ⟨hover.invalid, ?_⟩
    intro j a ha hPa
    have hlt := (List.getElem?_eq_some_iff.mp ha.at_place).1
    exact hge (lt_of_le_of_lt (h.least j a ha hPa) hlt)

/-! ## Back -/

variable {i₀ : Nat} {valueType : ValueType}

/-- The entries from `n` up to `i₀` are passed. What is in the map among them is the one that
was saved, or nothing. -/
def Passed (records : List Record) (s i₀ n : Nat) : ValueType → (key value : Bytes) → Prop
  | .kTypeDeletion, _, _ => ∀ j a, Shown records s j a → n ≤ j → i₀ < j
  | .kTypeValue, key, value => ∃ q a, n ≤ q ∧ q ≤ i₀ ∧ records[q]? = some a ∧ a.sequence ≤ s ∧
      a.type = some .kTypeValue ∧ key = a.userKey ∧ value = a.value ∧
      (∀ j b, records[j]? = some b → n ≤ j → j < q → ¬ b.sequence ≤ s) ∧
      ∀ j b, Shown records s j b → n ≤ j → j ≤ i₀ → j = q

/-- An entry that the snapshot does not see. -/
theorem Passed.unseen {key value : Bytes} (h : Passed records s i₀ (i + 1) valueType key value)
    (hr : records[i]? = some r) (hseen : ¬ r.sequence ≤ s) :
    Passed records s i₀ i valueType key value := by
  have hother : ∀ {j b}, records[j]? = some b → b.sequence ≤ s → i ≤ j → i + 1 ≤ j := by
    intro j b hb hsb hij
    apply Nat.succ_le_of_lt (lt_of_le_of_ne hij _)
    rintro rfl
    obtain rfl := Option.some.inj (hr.symm.trans hb)
    exact hseen hsb
  cases valueType with
  | kTypeDeletion => exact fun j a ha hij => h j a ha (hother ha.at_place ha.seen hij)
  | kTypeValue =>
    obtain ⟨q, a, hnq, hq, ha, hsa, htype, hkey, hvalue, hbetween, honly⟩ := h
    refine ⟨q, a, Nat.le_of_succ_le hnq, hq, ha, hsa, htype, hkey, hvalue, ?_, ?_⟩
    · intro j b hb hij hjq hsb
      exact hbetween j b hb (hother hb hsb hij) hjq hsb
    · intro j b hb hij hj
      exact honly j b hb (hother hb.at_place hb.seen hij) hj

/-- An older entry of the same user key than `r` is not in the map, so nothing that was passed
before `r` is. -/
theorem Passed.only (hL : ByComparator urank records) {key value : Bytes}
    (h : Passed records s i₀ (i + 1) valueType key value) (hr : records[i]? = some r)
    (hseen : r.sequence ≤ s)
    (hkey : valueType = .kTypeValue → urank key ≤ urank r.userKey) :
    ∀ j a, Shown records s j a → i ≤ j → j ≤ i₀ → j = i := by
  intro j a ha hij hj
  by_contra hne
  have hlt : i + 1 ≤ j := Nat.succ_le_of_lt (lt_of_le_of_ne hij (Ne.symm hne))
  cases valueType with
  | kTypeDeletion => exact absurd (h j a ha hlt) (not_lt.mpr hj)
  | kTypeValue =>
    obtain ⟨q, b, -, -, hb, -, -, rfl, -, -, honly⟩ := h
    obtain rfl := honly j a ha hlt hj
    obtain rfl := Option.some.inj (hb.symm.trans ha.at_place)
    have hle := hL.userKey_le hr hb (Nat.le_of_succ_le hlt)
    exact ha.first i r hr hlt hseen (hL.injective _ _ (le_antisymm hle (hkey rfl)))

/-- `iter_` is just before the entries of the user key of `r` that the snapshot sees. -/
structure Before (urank : Bytes → κ) (records : List Record) (s : Nat) (p : Option Nat)
    (r : Record) : Prop where
  at_place : ∀ j, p = some j → ∃ a, records[j]? = some a ∧ urank a.userKey < urank r.userKey
  behind : ∀ j a, records[j]? = some a → a.sequence ≤ s → (∀ i, p = some i → i < j) →
    urank r.userKey ≤ urank a.userKey

theorem Before.in_range {p : Option Nat} (h : Before urank records s p r) (j : Nat)
    (hj : p = some j) : j < records.length := by
  obtain ⟨a, ha, -⟩ := h.at_place j hj
  exact (List.getElem?_eq_some_iff.mp ha).1

/-- The entry that was saved is the newest of its user key when there is none that the snapshot
sees from `n` down, up to a smaller user key. -/
theorem Passed.shown (hL : ByComparator urank records) {key value : Bytes} {n : Nat}
    {p : Option Nat} (h : Passed records s i₀ n .kTypeValue key value)
    (hp : ∀ j < n, ∃ i, p = some i ∧ j ≤ i)
    (hless : ∀ i, p = some i → ∃ b, records[i]? = some b ∧ urank b.userKey < urank key) :
    ∃ q a, Shown records s q a ∧ key = a.userKey ∧ value = a.value ∧ q ≤ i₀ ∧
      (∀ j b, Shown records s j b → j ≤ i₀ → j ≤ q) ∧ Before urank records s p a := by
  obtain ⟨q, a, hnq, hq, ha, hsa, htype, rfl, rfl, hbetween, honly⟩ := h
  -- what is below `n` has a smaller user key
  have hsmaller : ∀ j b, records[j]? = some b → j < n → urank b.userKey < urank a.userKey := by
    intro j b hb hj
    obtain ⟨i, hi, hji⟩ := hp j hj
    obtain ⟨c, hc, hlt⟩ := hless i hi
    exact lt_of_le_of_lt (hL.userKey_le hb hc hji) hlt
  have hshown : Shown records s q a := by
    refine ⟨ha, hsa, htype, ?_⟩
    intro j b hb hjq hsb hkey
    by_cases hj : j < n
    · exact absurd (congrArg urank hkey) (hsmaller j b hb hj).ne
    · exact hbetween j b hb (not_lt.mp hj) hjq hsb
  refine ⟨q, a, hshown, rfl, rfl, hq, ?_, hless, ?_⟩
  · intro j b hb hj
    by_cases hjn : j < n
    · exact (lt_of_lt_of_le hjn hnq).le
    · exact (honly j b hb (not_lt.mp hjn) hj).le
  · intro j b hb hsb hpj
    by_cases hjn : j < n
    · obtain ⟨i, hi, hji⟩ := hp j hjn
      exact absurd (hpj i hi) (not_lt.mpr hji)
    · exact hL.userKey_le ha hb (not_lt.mp fun hlt => hbetween j b hb (not_lt.mp hjn) hlt hsb)

/-- What the loop of `FindPrevUserEntry` leaves: the last entry of the map up to `i₀` is
saved, or there is none. -/
def Saved (it : Iterator σ Bytes Bytes) (ucmp : Bytes → Bytes → Ordering) (urank : Bytes → κ)
    (records : List Record) (s i₀ : Nat) (d : DBIter σ) : ValueType → Prop
  | .kTypeValue => ∃ p q a, Over it ucmp records d.iter p ∧ Shown records s q a ∧
      d.savedKey = a.userKey ∧ d.savedValue = a.value ∧ q ≤ i₀ ∧
      (∀ j b, Shown records s j b → j ≤ i₀ → j ≤ q) ∧ Before urank records s p a
  | .kTypeDeletion => (∀ j a, Shown records s j a → i₀ < j) ∧ ∃ p, Over it ucmp records d.iter p

/-- **One round of `FindPrevUserEntry`**: it breaks with an entry that is saved, or it passes
the entry. -/
theorem prevBody_spec (hrank : Ranks ucmp urank) (hL : ByComparator urank records)
    (hr : records[i]? = some r) (hwf : WellFormed r.key) (hi : i ≤ i₀)
    (hover : Over it ucmp records d.iter (some i))
    (h : Passed records s i₀ (i + 1) valueType d.savedKey d.savedValue) :
    (d.prevBody it ucmp s valueType = .inl d ∧ Saved it ucmp urank records s i₀ d valueType) ∨
    ∃ valueType' savedKey savedValue, d.prevBody it ucmp s valueType =
        .inr (valueType', { d with savedKey, savedValue }) ∧
      Passed records s i₀ i valueType' savedKey savedValue := by
  unfold prevBody
  by_cases hseen : r.sequence ≤ s
  · obtain ⟨ikey, hparse, huser, htype⟩ := parseVisible_seen hover hr hwf hseen
    rw [hparse]
    dsimp only
    by_cases hbreak : valueType ≠ .kTypeDeletion ∧ ucmp ikey.userKey d.savedKey = .lt
    · -- a smaller user key: the one that is saved has no newer entry
      rw [if_pos hbreak]
      rw [huser, hrank.lt_iff] at hbreak
      obtain ⟨hvalue, hless⟩ := hbreak
      cases valueType with
      | kTypeDeletion => exact absurd rfl hvalue
      | kTypeValue =>
        refine Or.inl ⟨rfl, some i, ?_⟩
        obtain ⟨q, a, hq⟩ := h.shown hL (p := some i)
          (fun j hj => ⟨i, rfl, Nat.le_of_lt_succ hj⟩) (by
            intro j hj
            obtain rfl := Option.some.inj hj
            exact ⟨r, hr, hless⟩)
        exact ⟨q, a, hover, hq⟩
    · rw [if_neg hbreak]
      -- what was saved has the user key of `r`, or nothing was
      have hsame : valueType = .kTypeValue → urank d.savedKey ≤ urank r.userKey := by
        rintro rfl
        rw [huser, hrank.lt_iff, not_and, not_lt] at hbreak
        exact hbreak (by decide)
      have honly := h.only hL hr hseen hsame
      cases hk : ikey.type with
      | kTypeDeletion =>
        rw [hk] at htype
        refine Or.inr ⟨.kTypeDeletion, [], [], rfl, ?_⟩
        intro j a ha hij
        refine not_le.mp fun hj => ?_
        obtain rfl := honly j a ha hij hj
        obtain rfl := Option.some.inj (hr.symm.trans ha.at_place)
        exact absurd (htype.symm.trans ha.type) (by decide)
      | kTypeValue =>
        rw [hk] at htype
        obtain ⟨-, hkey, hvalue⟩ := hover.valid hr
        refine Or.inr ⟨.kTypeValue, extractUserKey (it.key d.iter), it.value d.iter, rfl, i, r,
          le_refl i, hi, hr, hseen, htype, ?_, hvalue, ?_, honly⟩
        · rw [hkey]
          rfl
        · exact fun j b _ hij hji => absurd hji (not_lt.mpr hij)
  · rw [parseVisible_unseen hover hr hwf hseen]
    exact Or.inr ⟨valueType, d.savedKey, d.savedValue, rfl, h.unseen hr hseen⟩

/-- Nothing is left to look at. -/
theorem Passed.saved (hL : ByComparator urank records)
    (h : Passed records s i₀ 0 valueType d.savedKey d.savedValue)
    (hover : Over it ucmp records d.iter none) :
    Saved it ucmp urank records s i₀ d valueType := by
  cases valueType with
  | kTypeDeletion => exact ⟨fun j a ha => h j a ha (Nat.zero_le j), none, hover⟩
  | kTypeValue =>
    obtain ⟨q, a, hq⟩ := h.shown hL (p := none) (fun j hj => absurd hj (Nat.not_lt_zero j)) nofun
    exact ⟨none, q, a, hover, hq⟩

theorem prevLoop_spec (hrank : Ranks ucmp urank) (hL : ByComparator urank records)
    (hwf : ∀ r ∈ records, WellFormed r.key) {fuel : Nat} (hfuel : i < fuel)
    (hi : i < records.length) (hi₀ : i ≤ i₀) (hover : Over it ucmp records d.iter (some i))
    (h : Passed records s i₀ (i + 1) valueType d.savedKey d.savedValue) :
    ∃ valueType' d', d.prevLoop it ucmp s fuel valueType = some (valueType', d') ∧
      d'.direction = d.direction ∧ Saved it ucmp urank records s i₀ d' valueType' := by
  induction fuel generalizing d i valueType with
  | zero => exact absurd hfuel (Nat.not_lt_zero i)
  | succ fuel ih =>
    have hr := List.getElem?_eq_getElem hi
    unfold prevLoop
    rcases prevBody_spec hrank hL hr (hwf _ (List.getElem_mem hi)) hi₀ hover h with
      ⟨hbody, hsaved⟩ | ⟨valueType', savedKey, savedValue, hbody, hpassed⟩
    · rw [hbody]
      exact ⟨valueType, d, rfl, rfl, hsaved⟩
    · obtain ⟨iter', hmove, hover'⟩ := hover.prev
      rw [hbody]
      dsimp only
      rw [hmove]
      dsimp only
      split at hover'
      case isTrue hzero =>
        subst hzero
        rw [if_neg (by rw [hover'.invalid]; decide)]
        exact ⟨_, _, rfl, rfl,
          Passed.saved (d := { d with savedKey, savedValue, iter := iter' }) hL hpassed hover'⟩
      case isFalse hne =>
        have hlt : i - 1 < records.length := by omega
        have hpred : i - 1 + 1 = i := Nat.sub_add_cancel (Nat.pos_of_ne_zero hne)
        rw [if_pos (hover'.valid (List.getElem?_eq_getElem hlt)).1]
        exact ih (d := { d with savedKey, savedValue, iter := iter' }) (by omega) hlt (by omega)
          hover' (by rwa [hpred])

/-- What `FindPrevUserEntry` leaves when it starts at `p`: the last entry of the map up to
there. -/
def PrevFound (it : Iterator σ Bytes Bytes) (ucmp : Bytes → Bytes → Ordering) (urank : Bytes → κ)
    (records : List Record) (s : Nat) (p : Option Nat) (d : DBIter σ) : Prop :=
  (d.valid = true ∧ d.direction = .reverse ∧ ∃ p' q a, Over it ucmp records d.iter p' ∧
      Shown records s q a ∧ d.savedKey = a.userKey ∧ d.savedValue = a.value ∧
      (∃ i, p = some i ∧ q ≤ i) ∧
      (∀ j b i, Shown records s j b → p = some i → j ≤ i → j ≤ q) ∧ Before urank records s p' a) ∨
    (d.valid = false ∧ (∀ j b i, Shown records s j b → p = some i → i < j) ∧
      ∃ p, Over it ucmp records d.iter p)

/-- **`FindPrevUserEntry`** -/
theorem findPrevUserEntry_spec (hrank : Ranks ucmp urank) (hL : ByComparator urank records)
    (hwf : ∀ r ∈ records, WellFormed r.key) {fuel : Nat} (hfuel : records.length < fuel)
    {p : Option Nat} (hp : ∀ i, p = some i → i < records.length)
    (hover : Over it ucmp records d.iter p) (hdir : d.direction = .reverse) :
    ∃ d', d.findPrevUserEntry it ucmp s fuel = some d' ∧
      PrevFound it ucmp urank records s p d' := by
  unfold findPrevUserEntry
  cases p with
  | none =>
    rw [if_neg (by rw [hover.invalid]; decide)]
    exact ⟨_, rfl, Or.inr ⟨rfl, nofun, none, hover⟩⟩
  | some i =>
    have hi := hp i rfl
    have hpassed : Passed records s i (i + 1) .kTypeDeletion d.savedKey d.savedValue :=
      fun j _ _ hij => hij
    obtain ⟨valueType, d', hrun, hdir', hsaved⟩ := prevLoop_spec hrank hL hwf
      (lt_trans hi hfuel) hi (le_refl i) hover hpassed
    rw [if_pos (hover.valid (List.getElem?_eq_getElem hi)).1, hrun]
    refine ⟨_, rfl, ?_⟩
    cases valueType with
    | kTypeDeletion =>
      obtain ⟨hnone, hover'⟩ := hsaved
      refine Or.inr ⟨rfl, ?_, hover'⟩
      intro j b k hb hk
      rw [← Option.some.inj hk]
      exact hnone j b hb
    | kTypeValue =>
      obtain ⟨p', q, a, hover', ha, hkey, hvalue, hq, hmost, hbefore⟩ := hsaved
      refine Or.inl ⟨rfl, hdir'.trans hdir, p', q, a, hover', ha, hkey, hvalue, ⟨i, rfl, hq⟩, ?_,
        hbefore⟩
      intro j b k hb hk hjk
      rw [← Option.some.inj hk] at hjk
      exact hmost j b hb hjk

/-- **The loop of `Prev`** in the forward direction comes to the last entry with a smaller user
key, whether the snapshot sees it or not. -/
theorem scanBack_spec (hrank : Ranks ucmp urank) {fuel : Nat} (hfuel : i < fuel)
    (hi : i < records.length) (hover : Over it ucmp records d.iter (some i))
    (hge : ∀ (j : Nat) (a : Record), records[j]? = some a → i ≤ j →
      urank d.savedKey ≤ urank a.userKey) :
    (∃ iter k b, d.scanBack it ucmp fuel = some (true, { d with iter }) ∧
      Over it ucmp records iter (some k) ∧ records[k]? = some b ∧
      urank b.userKey < urank d.savedKey ∧
      ∀ (j : Nat) (a : Record), records[j]? = some a → k < j →
        urank d.savedKey ≤ urank a.userKey) ∨
    ∃ iter, d.scanBack it ucmp fuel =
        some (false, { d with iter, valid := false, savedKey := [], savedValue := [] }) ∧
      Over it ucmp records iter none ∧
      ∀ (j : Nat) (a : Record), records[j]? = some a → urank d.savedKey ≤ urank a.userKey := by
  induction fuel generalizing d i with
  | zero => exact absurd hfuel (Nat.not_lt_zero i)
  | succ fuel ih =>
    obtain ⟨iter', hmove, hover'⟩ := hover.prev
    unfold scanBack
    rw [hmove]
    dsimp only
    split at hover'
    case isTrue hzero =>
      rw [if_neg (by rw [hover'.invalid]; decide)]
      refine Or.inr ⟨iter', rfl, hover', ?_⟩
      intro j a ha
      exact hge j a ha (by omega)
    case isFalse hne =>
      have hlt : i - 1 < records.length := by omega
      have hb := List.getElem?_eq_getElem hlt
      obtain ⟨hvalid, hkey, -⟩ := hover'.valid hb
      have hiff : ucmp (extractUserKey (it.key iter')) d.savedKey = .lt ↔
          urank records[i - 1].userKey < urank d.savedKey := by
        rw [hkey, hrank.lt_iff, Record.userKey]
      rw [if_pos hvalid]
      by_cases hless : urank records[i - 1].userKey < urank d.savedKey
      · rw [if_pos (hiff.mpr hless)]
        refine Or.inl ⟨iter', i - 1, records[i - 1], rfl, hover', hb, hless, ?_⟩
        intro j a ha hij
        exact hge j a ha (by omega)
      · rw [if_neg fun h => hless (hiff.mp h)]
        apply ih (d := { d with iter := iter' }) (by omega) hlt hover'
        intro j a ha hij
        rcases hij.lt_or_eq with hgt | rfl
        · exact hge j a ha (by omega)
        · obtain rfl := Option.some.inj (hb.symm.trans ha)
          exact not_lt.mp hless

/-! ## The motions -/

/-- Where `iter_` is while the iterator is valid. -/
def Placed (urank : Bytes → κ) (records : List Record) (s : Nat) (d : DBIter σ) (p : Option Nat) :
    Prop :=
  match d.direction with
  | .forward => ∃ i r, p = some i ∧ Shown records s i r
  | .reverse => ∃ i r, Shown records s i r ∧ d.savedKey = r.userKey ∧ d.savedValue = r.value ∧
      Before urank records s p r

/-- The invariant between two calls. -/
def Good (it : Iterator σ Bytes Bytes) (ucmp : Bytes → Bytes → Ordering) (urank : Bytes → κ)
    (records : List Record) (s : Nat) (d : DBIter σ) : Prop :=
  ∃ p, Over it ucmp records d.iter p ∧ (d.valid = true → Placed urank records s d p)

variable {fuel : Nat}

theorem entry_invalid (h : d.valid = false) : (dbIterator it ucmp s fuel).entry d = none :=
  Iterator.entry_eq_none.mpr h

theorem entry_forward (hvalid : d.valid = true) (hdir : d.direction = .forward)
    (hover : Over it ucmp records d.iter (some i)) (hr : records[i]? = some r) :
    (dbIterator it ucmp s fuel).entry d = some r.shown := by
  obtain ⟨-, hkey, hvalue⟩ := hover.valid hr
  rw [Iterator.entry_eq_some]
  refine ⟨hvalid, ?_, ?_⟩
  · simp only [dbIterator, hdir, hkey]
    rfl
  · simp only [dbIterator, hdir, hvalue]
    rfl

theorem entry_reverse (hvalid : d.valid = true) (hdir : d.direction = .reverse)
    (hkey : d.savedKey = r.userKey) (hvalue : d.savedValue = r.value) :
    (dbIterator it ucmp s fuel).entry d = some r.shown := by
  rw [Iterator.entry_eq_some]
  refine ⟨hvalid, ?_, ?_⟩
  · simp only [dbIterator, hdir, hkey]
    rfl
  · simp only [dbIterator, hdir, hvalue]
    rfl

/-- An iterator that has become invalid. -/
theorem good_invalid {p : Option Nat} (hover : Over it ucmp records d.iter p)
    (hvalid : d.valid = false) : Good it ucmp urank records s d :=
  ⟨p, hover, fun h => absurd h (by rw [hvalid]; decide)⟩

/-- After `FindNextUserEntry`. -/
theorem NextFound.good (fuel : Nat) (hL : ByComparator urank records)
    (h : NextFound it ucmp urank records s P d) (hdir : d.direction = .forward) :
    Good it ucmp urank records s d ∧
      IsFirst urank (snapshotMap s records) P ((dbIterator it ucmp s fuel).entry d) := by
  rcases h with ⟨hvalid, i, r, hshown, hP, hleast, hover⟩ | ⟨hvalid, hnone, p, hover⟩
  · constructor
    · refine ⟨some i, hover, fun _ => ?_⟩
      rw [Placed, hdir]
      exact ⟨i, r, rfl, hshown⟩
    · rw [entry_forward hvalid hdir hover hshown.at_place]
      exact isFirst_shown hL hshown hP hleast
  · refine ⟨good_invalid hover hvalid, ?_⟩
    rw [entry_invalid hvalid]
    exact isFirst_shown_none hL hnone

/-- After `FindPrevUserEntry`, where the entries of the map up to `p` are those in `P`. -/
theorem PrevFound.good (fuel : Nat) (hL : ByComparator urank records) {p : Option Nat}
    (h : PrevFound it ucmp urank records s p d)
    (hp : ∀ j a, Shown records s j a → (P (urank a.userKey) ↔ ∃ i, p = some i ∧ j ≤ i)) :
    Good it ucmp urank records s d ∧
      IsLast urank (snapshotMap s records) P ((dbIterator it ucmp s fuel).entry d) := by
  rcases h with ⟨hvalid, hdir, p', q, a, hover, hshown, hkey, hvalue, hq, hmost, hbefore⟩ |
    ⟨hvalid, hnone, p', hover⟩
  · constructor
    · refine ⟨p', hover, fun _ => ?_⟩
      rw [Placed, hdir]
      exact ⟨q, a, hshown, hkey, hvalue, hbefore⟩
    · rw [entry_reverse hvalid hdir hkey hvalue]
      apply isLast_shown hL hshown ((hp q a hshown).mpr hq)
      intro j b hb hPb
      obtain ⟨i, hi, hji⟩ := (hp j b hb).mp hPb
      exact hmost j b i hb hi hji
  · refine ⟨good_invalid hover hvalid, ?_⟩
    rw [entry_invalid hvalid]
    apply isLast_shown_none hL
    intro j b hb hPb
    obtain ⟨i, hi, hji⟩ := (hp j b hb).mp hPb
    exact absurd (hnone j b i hb hi) (not_lt.mpr hji)

/-- `Seek` and `SeekToFirst` behind the motion of the internal iterator. -/
theorem startForward_spec (hrank : Ranks ucmp urank) (hL : ByComparator urank records)
    (hwf : ∀ r ∈ records, WellFormed r.key) (hfuel : records.length < fuel)
    (hP : ∀ a b, a ≤ b → P a → P b) (hdir : d.direction = .forward)
    (hover : Over it ucmp records d.iter (if i < records.length then some i else none))
    (h : Skips urank records s P i false d.savedKey) :
    ∃ d', d.startForward it ucmp s fuel = some d' ∧ Good it ucmp urank records s d' ∧
      IsFirst urank (snapshotMap s records) P ((dbIterator it ucmp s fuel).entry d') := by
  unfold startForward
  rcases forward_from hrank hL hwf hP hfuel hover h with
    ⟨hvalid, d', hrun, hdir', hfound⟩ | ⟨hinvalid, hnone⟩
  · rw [if_pos hvalid]
    exact ⟨d', hrun, hfound.good fuel hL (hdir'.trans hdir)⟩
  · rw [if_neg (by rw [hinvalid]; decide)]
    refine ⟨_, rfl, good_invalid hover rfl, ?_⟩
    rw [entry_invalid rfl]
    exact isFirst_shown_none hL hnone

theorem seekToFirst_spec (hrank : Ranks ucmp urank) (hL : ByComparator urank records)
    (hwf : ∀ r ∈ records, WellFormed r.key) (hfuel : records.length < fuel)
    (h : Good it ucmp urank records s d) :
    ∃ d', d.seekToFirst it ucmp s fuel = some d' ∧ Good it ucmp urank records s d' ∧
      IsFirst urank (snapshotMap s records) (fun _ => True)
        ((dbIterator it ucmp s fuel).entry d') := by
  obtain ⟨p, hover, -⟩ := h
  obtain ⟨iter', hmove, hover'⟩ := hover.seekToFirst
  unfold seekToFirst
  rw [hmove]
  exact startForward_spec hrank hL hwf hfuel (fun _ _ _ _ => trivial) rfl hover'
    (skips_start (fun _ _ _ _ _ => trivial) (fun j _ _ hj => absurd hj (Nat.not_lt_zero j)) _)

/-- Among the entries that the snapshot sees, those that `Seek` stops at have no smaller user
key. -/
theorem seek_stops_iff (hrank : Ranks ucmp urank) (hwf : ∀ r ∈ records, WellFormed r.key)
    (hs : s ≤ kMaxSequenceNumber) (target : Bytes) (hr : r ∈ records) (hseen : r.sequence ≤ s) :
    internalKeyCompareBy ucmp r.key (appendInternalKey ⟨target, s, .kTypeValue⟩) ≠ .lt ↔
      urank target ≤ urank r.userKey := by
  obtain ⟨ikey, hparse, -, hseq⟩ := Record.parsed_of_wellFormed (hwf r hr)
  have htrailer : trailer r.key = ikey.sequence * 256 + ikey.type.code :=
    (parseInternalKey_trailer hparse).2
  have htarget : trailer (appendInternalKey ⟨target, s, .kTypeValue⟩) = s * 256 + 1 :=
    trailer_eq_pack (p := ⟨target, s, .kTypeValue⟩) hs
  have hcode := ikey.type.code_lt
  have hle : trailer r.key ≤ trailer (appendInternalKey ⟨target, s, .kTypeValue⟩) := by
    omega
  rw [ne_eq, hrank.internalKey.lt_iff, internalRank, internalRank, Prod.Lex.toLex_lt_toLex,
    extractUserKey_appendInternalKey, not_or, not_lt]
  constructor
  · exact fun h => h.1
  · exact fun h => ⟨h, fun hlt => absurd hlt.2 (not_lt.mpr hle)⟩

theorem seek_spec (hrank : Ranks ucmp urank) (hL : ByComparator urank records)
    (hwf : ∀ r ∈ records, WellFormed r.key) (hfuel : records.length < fuel)
    (hs : s ≤ kMaxSequenceNumber) (h : Good it ucmp urank records s d) (target : Bytes) :
    ∃ d', d.seek it ucmp s fuel target = some d' ∧ Good it ucmp urank records s d' ∧
      IsFirst urank (snapshotMap s records) (urank target ≤ ·)
        ((dbIterator it ucmp s fuel).entry d') := by
  obtain ⟨p, hover, -⟩ := h
  obtain ⟨iter', hmove, hover'⟩ := BehavesAs.move hover
    (m := .seek (appendInternalKey ⟨target, s, .kTypeValue⟩)) rfl
  unfold seek
  dsimp only
  rw [hmove]
  dsimp only
  have hstops : ∀ {j : Nat} {a : Record}, records[j]? = some a → a.sequence ≤ s →
      (internalKeyCompareBy ucmp a.key (appendInternalKey ⟨target, s, .kTypeValue⟩) ≠ .lt ↔
        urank target ≤ urank a.userKey) := fun ha =>
    seek_stops_iff hrank hwf hs target (List.mem_of_getElem? ha)
  have hP : ∀ a b, a ≤ b → urank target ≤ a → urank target ≤ b := fun _ _ hab h => h.trans hab
  rw [List.findIdx?_map] at hover'
  cases hfind : records.findIdx? ((fun e : Slices => decide (internalKeyCompareBy ucmp e.key
      (appendInternalKey ⟨target, s, .kTypeValue⟩) ≠ .lt)) ∘ Record.slices) with
  | none =>
    rw [hfind] at hover'
    rw [List.findIdx?_eq_none_iff] at hfind
    apply startForward_spec (i := records.length) hrank hL hwf hfuel hP rfl
      (by rwa [if_neg (lt_irrefl _)])
    apply skips_start
    · intro j a ha hj
      exact absurd (List.getElem?_eq_some_iff.mp ha).1 (not_lt.mpr hj)
    · intro j a ha _ hsa hle
      have hnot := hfind a (List.mem_of_getElem? ha)
      rw [Function.comp_apply, decide_eq_false_iff_not] at hnot
      exact hnot ((hstops ha hsa).mpr hle)
  | some i =>
    rw [hfind] at hover'
    obtain ⟨hi, hat, hbelow⟩ := List.findIdx?_eq_some_iff_getElem.mp hfind
    rw [Function.comp_apply, decide_eq_true_iff, ne_eq, hrank.internalKey.lt_iff, not_lt] at hat
    apply startForward_spec (i := i) hrank hL hwf hfuel hP rfl (by rwa [if_pos hi])
    apply skips_start
    · intro j a ha hij hsa
      rw [← hstops ha hsa, ne_eq, hrank.internalKey.lt_iff, not_lt]
      exact hat.trans (hL.rank_le (List.getElem?_eq_getElem hi) ha hij)
    · intro j a ha hji hsa hle
      obtain ⟨hj, rfl⟩ := List.getElem?_eq_some_iff.mp ha
      apply hbelow j hji
      rw [Function.comp_apply, decide_eq_true_iff]
      exact (hstops ha hsa).mpr hle

theorem seekToLast_spec (hrank : Ranks ucmp urank) (hL : ByComparator urank records)
    (hwf : ∀ r ∈ records, WellFormed r.key) (hfuel : records.length < fuel)
    (h : Good it ucmp urank records s d) :
    ∃ d', d.seekToLast it ucmp s fuel = some d' ∧ Good it ucmp urank records s d' ∧
      IsLast urank (snapshotMap s records) (fun _ => True)
        ((dbIterator it ucmp s fuel).entry d') := by
  obtain ⟨p, hover, -⟩ := h
  obtain ⟨iter', hmove, hover'⟩ := BehavesAs.move hover (m := .seekToLast) rfl
  rw [List.length_map] at hover'
  unfold seekToLast
  rw [hmove]
  dsimp only
  obtain ⟨d', hrun, hfound⟩ := findPrevUserEntry_spec
    (d := { d with direction := .reverse, savedValue := [], iter := iter' }) hrank hL hwf hfuel (by
      intro i hi
      split at hi
      · cases hi
      · rw [← Option.some.inj hi]
        omega) hover' rfl
  refine ⟨d', hrun, hfound.good fuel hL ?_⟩
  intro j a ha
  have hlt := (List.getElem?_eq_some_iff.mp ha.at_place).1
  refine iff_of_true trivial ⟨records.length - 1, if_neg (by omega), by omega⟩

/-- In the reverse direction the entries up to `iter_` are those with a smaller user key. -/
theorem Before.lt_iff (hL : ByComparator urank records) {p : Option Nat}
    (h : Before urank records s p r) {j : Nat} {a : Record} (ha : records[j]? = some a)
    (hseen : a.sequence ≤ s) :
    urank a.userKey < urank r.userKey ↔ ∃ i, p = some i ∧ j ≤ i := by
  constructor
  · intro hlt
    by_contra hnone
    refine absurd hlt (not_lt.mpr (h.behind j a ha hseen ?_))
    intro i hi
    exact not_le.mp fun hle => hnone ⟨i, hi, hle⟩
  · rintro ⟨i, hi, hji⟩
    obtain ⟨b, hb, hlt⟩ := h.at_place i hi
    exact lt_of_le_of_lt (hL.userKey_le ha hb hji) hlt

/-- One motion forward, and `iter_` is where `FindNextUserEntry` can begin. -/
theorem Before.skips (hL : ByComparator urank records) {p : Option Nat}
    (h : Before urank records s p r) (hi : ∀ j, j < i ↔ ∃ k, p = some k ∧ j ≤ k) :
    Skips urank records s (urank r.userKey < ·) i true r.userKey := by
  apply skips_current hL
  · intro j a ha hij hseen
    by_contra hlt
    exact absurd ((hi j).mpr ((h.lt_iff hL ha hseen).mp (not_le.mp hlt))) (not_lt.mpr hij)
  · intro j a ha hji hseen
    exact ((h.lt_iff hL ha hseen).mpr ((hi j).mp hji)).le

/-- The motion of `Next` in the reverse direction. -/
theorem Over.turn {iter : σ} {p : Option Nat} (hover : Over it ucmp records iter p)
    (hp : ∀ j, p = some j → j < records.length) :
    ∃ iter' i, it.move (if it.valid iter then .next else .seekToFirst) iter = some iter' ∧
      Over it ucmp records iter' (if i < records.length then some i else none) ∧
      ∀ j, j < i ↔ ∃ k, p = some k ∧ j ≤ k := by
  cases p with
  | none =>
    obtain ⟨iter', hmove, hover'⟩ := hover.seekToFirst
    rw [if_neg (by rw [hover.invalid]; decide)]
    exact ⟨iter', 0, hmove, hover', by simp⟩
  | some k =>
    obtain ⟨iter', hmove, hover'⟩ := hover.next
    rw [if_pos (hover.valid (List.getElem?_eq_getElem (hp k rfl))).1]
    refine ⟨iter', k + 1, hmove, hover', fun j => ?_⟩
    rw [Nat.lt_succ_iff]
    simp

theorem next_spec (hrank : Ranks ucmp urank) (hL : ByComparator urank records)
    (hwf : ∀ r ∈ records, WellFormed r.key) (hfuel : records.length < fuel)
    (h : Good it ucmp urank records s d) (hvalid : d.valid = true) :
    ∃ d' e, d.next it ucmp s fuel = some d' ∧ Good it ucmp urank records s d' ∧
      (dbIterator it ucmp s fuel).entry d = some e ∧
      IsFirst urank (snapshotMap s records) (urank e.key < ·)
        ((dbIterator it ucmp s fuel).entry d') := by
  have hP : ∀ {c : κ} (a b : κ), a ≤ b → c < a → c < b := fun _ _ hab h => lt_of_lt_of_le h hab
  obtain ⟨p, hover, hplaced⟩ := h
  have hplaced := hplaced hvalid
  unfold next
  rw [if_pos hvalid]
  unfold Placed at hplaced
  cases hdir : d.direction with
  | forward =>
    rw [hdir] at hplaced
    obtain ⟨i, r, rfl, hr⟩ := hplaced
    have hskips : Skips urank records s (urank r.userKey < ·) i true r.userKey :=
      skips_current hL (fun j a ha hij _ => hL.userKey_le hr.at_place ha hij)
        fun j a ha hji _ => hL.userKey_le ha hr.at_place hji.le
    have hlt := (List.getElem?_eq_some_iff.mp hr.at_place).1
    obtain ⟨d', hrun, hdir', hfound⟩ := findNextUserEntry_spec
      (d := { d with savedKey := r.userKey, direction := .forward }) hrank hL hwf hP
      (Nat.lt_add_left i hfuel) hlt hover hskips
    have hkey : extractUserKey (it.key d.iter) = r.userKey := by
      rw [(hover.valid hr.at_place).2.1, Record.userKey]
    obtain ⟨hgood, hfirst⟩ := hfound.good fuel hL hdir'
    refine ⟨d', r.shown, ?_, hgood, entry_forward hvalid hdir hover hr.at_place, hfirst⟩
    dsimp only
    rw [hkey]
    exact hrun
  | reverse =>
    rw [hdir] at hplaced
    obtain ⟨q, r, hr, hkey, hvalue, hbefore⟩ := hplaced
    obtain ⟨iter', i, hmove, hover', hi⟩ := hover.turn hbefore.in_range
    dsimp only
    rw [hmove]
    dsimp only
    have hskips := hbefore.skips hL hi
    rw [← hkey] at hskips
    rcases forward_from (d := { d with direction := .forward, iter := iter' }) hrank hL hwf hP
        hfuel hover' hskips with ⟨hvalid', d', hrun, hdir', hfound⟩ | ⟨hinvalid, hnone⟩
    · rw [if_pos hvalid']
      obtain ⟨hgood, hfirst⟩ := hfound.good fuel hL hdir'
      refine ⟨d', r.shown, hrun, hgood, entry_reverse hvalid hdir hkey hvalue, ?_⟩
      rw [hkey] at hfirst
      exact hfirst
    · rw [if_neg (by rw [hinvalid]; decide)]
      refine ⟨_, r.shown, rfl, good_invalid hover' rfl, entry_reverse hvalid hdir hkey hvalue, ?_⟩
      rw [entry_invalid rfl]
      rw [hkey] at hnone
      exact isFirst_shown_none hL hnone

theorem prev_spec (hrank : Ranks ucmp urank) (hL : ByComparator urank records)
    (hwf : ∀ r ∈ records, WellFormed r.key) (hfuel : records.length < fuel)
    (h : Good it ucmp urank records s d) (hvalid : d.valid = true) :
    ∃ d' e, d.prev it ucmp s fuel = some d' ∧ Good it ucmp urank records s d' ∧
      (dbIterator it ucmp s fuel).entry d = some e ∧
      IsLast urank (snapshotMap s records) (· < urank e.key)
        ((dbIterator it ucmp s fuel).entry d') := by
  obtain ⟨p, hover, hplaced⟩ := h
  have hplaced := hplaced hvalid
  unfold prev
  rw [if_pos hvalid]
  unfold Placed at hplaced
  cases hdir : d.direction with
  | forward =>
    rw [hdir] at hplaced
    obtain ⟨i, r, rfl, hr⟩ := hplaced
    have hentry : (dbIterator it ucmp s fuel).entry d = some r.shown :=
      entry_forward hvalid hdir hover hr.at_place
    have hlt := (List.getElem?_eq_some_iff.mp hr.at_place).1
    have hkey : extractUserKey (it.key d.iter) = r.userKey := by
      rw [(hover.valid hr.at_place).2.1, Record.userKey]
    dsimp only
    rw [hkey]
    rcases scanBack_spec (d := { d with savedKey := r.userKey, direction := .forward })
        hrank (hlt.trans hfuel) hlt hover
        (fun j a ha hij => hL.userKey_le hr.at_place ha hij) with
      ⟨iter', k, b, hscan, hover', hb, hless, hbehind⟩ | ⟨iter', hscan, hover', hge⟩
    · rw [hscan]
      dsimp only
      have hbefore : Before urank records s (some k) r := by
        constructor
        · rintro j ⟨⟩
          exact ⟨b, hb, hless⟩
        · intro j a ha _ hkj
          exact hbehind j a ha (hkj k rfl)
      obtain ⟨d', hrun, hfound⟩ := findPrevUserEntry_spec (s := s)
        (d := { d with savedKey := r.userKey, direction := .reverse, iter := iter' }) hrank hL
        hwf hfuel hbefore.in_range hover' rfl
      obtain ⟨hgood, hlast⟩ := hfound.good fuel (P := (· < urank r.userKey)) hL
        fun j a ha => hbefore.lt_iff hL ha.at_place ha.seen
      exact ⟨d', r.shown, hrun, hgood, hentry, hlast⟩
    · rw [hscan]
      refine ⟨_, r.shown, rfl, good_invalid hover' rfl, hentry, ?_⟩
      rw [entry_invalid rfl]
      apply isLast_shown_none hL
      intro j a ha hless
      exact absurd hless (not_lt.mpr (hge j a ha.at_place))
  | reverse =>
    rw [hdir] at hplaced
    obtain ⟨q, r, hr, hkey, hvalue, hbefore⟩ := hplaced
    obtain ⟨d', hrun, hfound⟩ := findPrevUserEntry_spec (s := s) hrank hL hwf hfuel
      hbefore.in_range hover hdir
    obtain ⟨hgood, hlast⟩ := hfound.good fuel (P := (· < urank r.userKey)) hL
      fun j a ha => hbefore.lt_iff hL ha.at_place ha.seen
    exact ⟨d', r.shown, hrun, hgood, entry_reverse hvalid hdir hkey hvalue, hlast⟩

/-- **Every motion** keeps the invariant and leads to the right entry of the map. -/
theorem Good.move (hrank : Ranks ucmp urank) (hL : ByComparator urank records)
    (hwf : ∀ r ∈ records, WellFormed r.key) (hfuel : records.length < fuel)
    (hs : s ≤ kMaxSequenceNumber) (h : Good it ucmp urank records s d) (m : Motion Bytes)
    (hvalid : m.relative = true → d.valid = true) :
    ∃ d', (dbIterator it ucmp s fuel).move m d = some d' ∧ Good it ucmp urank records s d' ∧
      Lands urank (snapshotMap s records) ((dbIterator it ucmp s fuel).entry d)
        ((dbIterator it ucmp s fuel).entry d') m := by
  cases m with
  | seekToFirst => exact seekToFirst_spec hrank hL hwf hfuel h
  | seekToLast => exact seekToLast_spec hrank hL hwf hfuel h
  | seek target => exact seek_spec hrank hL hwf hfuel hs h target
  | next =>
    obtain ⟨d', e, hmove, hgood, hentry, hfirst⟩ := next_spec hrank hL hwf hfuel h (hvalid rfl)
    exact ⟨d', hmove, hgood, e, hentry, hfirst⟩
  | prev =>
    obtain ⟨d', e, hmove, hgood, hentry, hlast⟩ := prev_spec hrank hL hwf hfuel h (hvalid rfl)
    exact ⟨d', hmove, hgood, e, hentry, hlast⟩

/-- **A user's iterator is a cursor over the map that its snapshot sees**, for any sequence of
motions and any user comparator. -/
theorem dbIterator_cursor [Std.TransCmp ucmp] [Std.LawfulEqCmp ucmp]
    (hwf : ∀ r ∈ records, WellFormed r.key)
    (hsorted : records.Pairwise fun a b => internalKeyCompareBy ucmp a.key b.key = .lt)
    (hs : s ≤ kMaxSequenceNumber) {iter : σ} {p : Option Nat}
    (hcursor : BehavesAs it (internalKeyCompareBy ucmp) (records.map Record.slices) iter p)
    {fuel : Nat} (hfuel : records.length < fuel) :
    BehavesAs (dbIterator it ucmp s fuel) ucmp (snapshotMap s records) (.new iter) none := by
  obtain ⟨κ, _, urank, hrank⟩ := exists_ranks ucmp
  have hL : ByComparator urank records := by
    constructor
    case sorted => exact hsorted.imp fun h => hrank.internalKey.lt_iff.mp h
    case injective => exact fun u v h => Std.LawfulEqCmp.eq_of_compare (hrank.eq_iff.mpr h)
  apply BehavesAs.of_lands hrank (increasing_snapshotMap hL s) (Good it ucmp urank records s)
  · intro d m hgood hvalid
    exact hgood.move hrank hL hwf hfuel hs m hvalid
  · exact good_invalid hcursor rfl
  · exact entry_invalid rfl

/-- An overwrite, a deletion and an entry newer than the snapshot. -/
def fiveRecords : List Record :=
  [⟨appendInternalKey ⟨[1], 9, .kTypeValue⟩, [19]⟩,
   ⟨appendInternalKey ⟨[1], 4, .kTypeValue⟩, [14]⟩,
   ⟨appendInternalKey ⟨[2], 3, .kTypeDeletion⟩, []⟩,
   ⟨appendInternalKey ⟨[2], 1, .kTypeValue⟩, [21]⟩,
   ⟨appendInternalKey ⟨[3], 2, .kTypeValue⟩, [32]⟩]

theorem dbIterator_cursor_fiveRecords :
    snapshotMap 5 fiveRecords = [⟨[1], [14]⟩, ⟨[3], [32]⟩] ∧
      BehavesAs (dbIterator (listIterator (internalKeyCompareBy sliceCompare)) sliceCompare 5 6)
        sliceCompare (snapshotMap 5 fiveRecords) (.new (fiveRecords.map Record.slices, none))
        none :=
  ⟨by decide +kernel,
    dbIterator_cursor (by decide +kernel) (by decide +kernel) (by decide)
      (listIterator_cursor (internalKeyCompareBy sliceCompare) (fiveRecords.map Record.slices) none)
      (by decide)⟩

end Lpad.DBIter
