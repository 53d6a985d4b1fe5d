import Lpad.DB.DropReads
import Lpad.Format.Comparator
import Mathlib.Data.List.Dedup
import Mathlib.Data.List.MinMax

/-!
# The map that a snapshot sees

Entries in the order of the comparator, and a sequence number. A user key is mapped to the
value of its newest entry up to that number; it is absent when that entry is a deletion or
there is none. `Shown` says the same by places in the list: the newest entry of a user key
is the first one that the snapshot sees.
-/

namespace Lpad

/-- What an internal iterator shows for a record. -/
def Record.slices (r : Record) : Slices := ⟨r.key, r.value⟩

/-- What a user's iterator shows for it. -/
def Record.shown (r : Record) : Slices := ⟨r.userKey, r.value⟩

/-- The entries of the map, by user key. -/
def snapshotMap (sequence : Nat) (records : List Record) : List Slices :=
  (records.map Record.userKey).dedup.filterMap fun u =>
    ((records.filter fun r => r.userKey = u ∧ r.sequence ≤ sequence).argmax Record.trailer).bind
      fun r => if r.type = some .kTypeValue then some r.shown else none

section Order

variable {κ : Type*} [LinearOrder κ] {urank : Bytes → κ} {records : List Record} {s : Nat}

/-- The order of `InternalKeyComparator`, over a user comparator by which different keys are
different. -/
structure ByComparator (urank : Bytes → κ) (records : List Record) : Prop where
  sorted : records.Pairwise fun a b => internalRank urank a.key < internalRank urank b.key
  injective : ∀ u v, urank u = urank v → u = v

theorem ByComparator.lt (h : ByComparator urank records) {i j : Nat} {a b : Record}
    (ha : records[i]? = some a) (hb : records[j]? = some b) (hij : i < j) :
    urank a.userKey < urank b.userKey ∨ a.userKey = b.userKey ∧ b.trailer < a.trailer := by
  obtain ⟨hi, rfl⟩ := List.getElem?_eq_some_iff.mp ha
  obtain ⟨hj, rfl⟩ := List.getElem?_eq_some_iff.mp hb
  rcases Prod.Lex.toLex_lt_toLex.mp (List.pairwise_iff_getElem.mp h.sorted i j hi hj hij) with
    hlt | ⟨heq, hlt⟩
  · exact Or.inl hlt
  · exact Or.inr ⟨h.injective _ _ heq, hlt⟩

theorem ByComparator.rank_le (h : ByComparator urank records) {i j : Nat} {a b : Record}
    (ha : records[i]? = some a) (hb : records[j]? = some b) (hij : i ≤ j) :
    internalRank urank a.key ≤ internalRank urank b.key := by
  rcases hij.lt_or_eq with hlt | rfl
  · obtain ⟨hi, rfl⟩ := List.getElem?_eq_some_iff.mp ha
    obtain ⟨hj, rfl⟩ := List.getElem?_eq_some_iff.mp hb
    exact (List.pairwise_iff_getElem.mp h.sorted i j hi hj hlt).le
  · rw [Option.some.inj (ha.symm.trans hb)]

theorem ByComparator.userKey_le (h : ByComparator urank records) {i j : Nat} {a b : Record}
    (ha : records[i]? = some a) (hb : records[j]? = some b) (hij : i ≤ j) :
    urank a.userKey ≤ urank b.userKey := by
  rcases hij.lt_or_eq with hlt | rfl
  · rcases h.lt ha hb hlt with hlt | ⟨heq, -⟩
    · exact hlt.le
    · rw [heq]
  · rw [Option.some.inj (ha.symm.trans hb)]

/-- The record at a place is in the map: a value, and the first one of its user key that the
snapshot sees. -/
structure Shown (records : List Record) (s i : Nat) (r : Record) : Prop where
  at_place : records[i]? = some r
  seen : r.sequence ≤ s
  type : r.type = some .kTypeValue
  first : ∀ j a, records[j]? = some a → j < i → a.sequence ≤ s → a.userKey ≠ r.userKey

theorem Shown.newestAt (h : ByComparator urank records) {i : Nat} {r : Record}
    (hr : Shown records s i r) : NewestAt records r.userKey s r where
  mem := List.mem_of_getElem? hr.at_place
  userKey := rfl
  seen := hr.seen
  newest := by
    intro x hx hkey hseen
    obtain ⟨j, hj⟩ := List.mem_iff_getElem?.mp hx
    rcases Nat.lt_trichotomy i j with hlt | rfl | hlt
    · rcases h.lt hr.at_place hj hlt with hless | ⟨-, htrailer⟩
      · exact absurd (congrArg urank hkey) hless.ne'
      · exact htrailer.le
    · rw [Option.some.inj (hj.symm.trans hr.at_place)]
    · exact absurd hkey (hr.first j x hj hlt hseen)

theorem NewestAt.shown (h : ByComparator urank records) {u : Bytes} {r : Record}
    (hr : NewestAt records u s r) (htype : r.type = some .kTypeValue) :
    ∃ i, Shown records s i r := by
  obtain ⟨i, hi⟩ := List.mem_iff_getElem?.mp hr.mem
  refine ⟨i, hi, hr.seen, htype, ?_⟩
  intro j a hj hlt hseen hkey
  rcases h.lt hj hi hlt with hless | ⟨-, htrailer⟩
  · exact absurd (congrArg urank hkey) hless.ne
  · have hle := hr.newest a (List.mem_of_getElem? hj) (hkey.trans hr.userKey) hseen
    exact absurd htrailer (not_lt.mpr hle)

/-- There is one newest entry. -/
theorem NewestAt.unique (h : ByComparator urank records) {u : Bytes} {a b : Record}
    (ha : NewestAt records u s a) (hb : NewestAt records u s b) : a = b := by
  obtain ⟨i, hi⟩ := List.mem_iff_getElem?.mp ha.mem
  obtain ⟨j, hj⟩ := List.mem_iff_getElem?.mp hb.mem
  have hab : b.trailer ≤ a.trailer := ha.newest b hb.mem hb.userKey hb.seen
  have hba : a.trailer ≤ b.trailer := hb.newest a ha.mem ha.userKey ha.seen
  have hkey : urank a.userKey = urank b.userKey := by rw [ha.userKey, hb.userKey]
  rcases Nat.lt_trichotomy i j with hlt | rfl | hlt
  · rcases h.lt hi hj hlt with hless | ⟨-, htrailer⟩
    · exact absurd hkey hless.ne
    · exact absurd htrailer (not_lt.mpr hba)
  · exact Option.some.inj (hi.symm.trans hj)
  · rcases h.lt hj hi hlt with hless | ⟨-, htrailer⟩
    · exact absurd hkey hless.ne'
    · exact absurd htrailer (not_lt.mpr hab)

/-- What `argmax` picks for a user key. -/
theorem argmax_newestAt {u : Bytes} {r : Record}
    (h : (records.filter fun r => r.userKey = u ∧ r.sequence ≤ s).argmax Record.trailer = some r) :
    NewestAt records u s r := by
  obtain ⟨hmem, hmax, -⟩ := List.mem_argmax_iff.mp (Option.mem_def.mpr h)
  rw [List.mem_filter, decide_eq_true_iff] at hmem
  obtain ⟨hmem, hkey, hseen⟩ := hmem
  refine ⟨hmem, hkey, hseen, ?_⟩
  intro x hx hkey' hseen'
  exact hmax x (List.mem_filter.mpr ⟨hx, decide_eq_true ⟨hkey', hseen'⟩⟩)

/-- **The map, place by place.** -/
theorem mem_snapshotMap (h : ByComparator urank records) {e : Slices} :
    e ∈ snapshotMap s records ↔ ∃ i r, Shown records s i r ∧ e = r.shown := by
  rw [snapshotMap, List.mem_filterMap]
  constructor
  · rintro ⟨u, -, hu⟩
    obtain ⟨r, hr, hvalue⟩ := Option.bind_eq_some_iff.mp hu
    split at hvalue
    case isTrue htype =>
      obtain ⟨i, hi⟩ := (argmax_newestAt hr).shown h htype
      exact ⟨i, r, hi, (Option.some.inj hvalue).symm⟩
    case isFalse => cases hvalue
  · rintro ⟨i, r, hr, rfl⟩
    have hnewest := hr.newestAt h
    have hmem : r ∈ records.filter fun x => x.userKey = r.userKey ∧ x.sequence ≤ s :=
      List.mem_filter.mpr ⟨hnewest.mem, decide_eq_true ⟨rfl, hr.seen⟩⟩
    refine ⟨r.userKey, List.mem_dedup.mpr (List.mem_map_of_mem hnewest.mem), ?_⟩
    cases hmax : (records.filter fun x => x.userKey = r.userKey ∧ x.sequence ≤ s).argmax
        Record.trailer with
    | none =>
      rw [List.argmax_eq_none] at hmax
      rw [hmax] at hmem
      cases hmem
    | some x =>
      rw [(argmax_newestAt hmax).unique h hnewest, Option.bind_some, if_pos hr.type]

theorem increasing_snapshotMap (h : ByComparator urank records) (s : Nat) :
    Increasing urank (snapshotMap s records) := by
  have hkeys : (records.map Record.userKey).Pairwise fun u v => urank u ≤ urank v := by
    rw [List.pairwise_map, List.pairwise_iff_getElem]
    intro i j hi hj hij
    exact h.userKey_le (List.getElem?_eq_getElem hi) (List.getElem?_eq_getElem hj) hij.le
  have hle := hkeys.sublist (List.dedup_sublist _)
  have hlt : (records.map Record.userKey).dedup.Pairwise fun u v => urank u < urank v :=
    (hle.and (List.nodup_dedup _)).imp fun ⟨hle, hne⟩ =>
      lt_of_le_of_ne hle fun heq => hne (h.injective _ _ heq)
  have hkey : ∀ u e, ((records.filter fun r => r.userKey = u ∧ r.sequence ≤ s).argmax
      Record.trailer).bind (fun r => if r.type = some .kTypeValue then some r.shown else none) =
        some e → e.key = u := by
    intro u e he
    obtain ⟨r, hr, hvalue⟩ := Option.bind_eq_some_iff.mp he
    split at hvalue
    case isTrue => rw [← Option.some.inj hvalue, ← (argmax_newestAt hr).userKey, Record.shown]
    case isFalse => cases hvalue
  rw [Increasing, snapshotMap, List.pairwise_filterMap]
  apply hlt.imp
  intro u v huv a ha b hb
  rwa [hkey u a ha, hkey v b hb]

/-! First and last in the map. -/

variable {P : κ → Prop} {i : Nat} {r : Record}

theorem isFirst_shown (h : ByComparator urank records) (hr : Shown records s i r)
    (hP : P (urank r.userKey))
    (hleast : ∀ j a, Shown records s j a → P (urank a.userKey) → i ≤ j) :
    IsFirst urank (snapshotMap s records) P (some r.shown) := by
  refine ⟨(mem_snapshotMap h).mpr ⟨i, r, hr, rfl⟩, hP, ?_⟩
  intro d hd hPd
  obtain ⟨j, a, ha, rfl⟩ := (mem_snapshotMap h).mp hd
  exact h.userKey_le hr.at_place ha.at_place (hleast j a ha hPd)

theorem isLast_shown (h : ByComparator urank records) (hr : Shown records s i r)
    (hP : P (urank r.userKey))
    (hmost : ∀ j a, Shown records s j a → P (urank a.userKey) → j ≤ i) :
    IsLast urank (snapshotMap s records) P (some r.shown) := by
  refine ⟨(mem_snapshotMap h).mpr ⟨i, r, hr, rfl⟩, hP, ?_⟩
  intro d hd hPd
  obtain ⟨j, a, ha, rfl⟩ := (mem_snapshotMap h).mp hd
  exact h.userKey_le ha.at_place hr.at_place (hmost j a ha hPd)

theorem isFirst_shown_none (h : ByComparator urank records)
    (hnone : ∀ j a, Shown records s j a → ¬ P (urank a.userKey)) :
    IsFirst urank (snapshotMap s records) P none := by
  intro e he
  obtain ⟨j, a, ha, rfl⟩ := (mem_snapshotMap h).mp he
  exact hnone j a ha

theorem isLast_shown_none (h : ByComparator urank records)
    (hnone : ∀ j a, Shown records s j a → ¬ P (urank a.userKey)) :
    IsLast urank (snapshotMap s records) P none := by
  intro e he
  obtain ⟨j, a, ha, rfl⟩ := (mem_snapshotMap h).mp he
  exact hnone j a ha

end Order

end Lpad
