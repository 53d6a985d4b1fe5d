import Lpad.Table.Merger
import Mathlib.Data.List.Sort

/-!
# The merging iterator is a cursor over the union

In the forward direction every child that is not the current one is at its first entry
above the current key, in the reverse direction at its last entry below (`Around`). The two
are one notion, in an order and in the order upside down. Every operation first brings all
children to the first entry of one and the same set of keys, which is closed upwards; then
`FindSmallest` finds the first entry of the union in that set, and the invariant holds
again.
-/

namespace Lpad.Table

variable {σ : Type} {it : Iterator σ Bytes Bytes} {cmp : Bytes → Bytes → Ordering}

/-! ## The union -/

/-- The entries of all children in one list. -/
def sortedUnion (cmp : Bytes → Bytes → Ordering) (ls : Nat → List Slices) (n : Nat) : List Slices :=
  ((List.range n).flatMap ls).mergeSort fun a b => (cmp a.key b.key).isLE

/-- The children's lists are increasing and have no key in common. -/
structure Disjoint {κ : Type*} [LinearOrder κ] (rank : Bytes → κ) (ls : Nat → List Slices)
    (n : Nat) : Prop where
  increasing : ∀ i < n, Increasing rank (ls i)
  distinct : ∀ i < n, ∀ j < n, i ≠ j → ∀ a ∈ ls i, ∀ b ∈ ls j, rank a.key ≠ rank b.key

section Union

variable {κ : Type*} [LinearOrder κ] {rank : Bytes → κ} {ls : Nat → List Slices} {n : Nat}

theorem mem_sortedUnion {e : Slices} : e ∈ sortedUnion cmp ls n ↔ ∃ i < n, e ∈ ls i := by
  rw [sortedUnion, List.mem_mergeSort, List.mem_flatMap]
  simp only [List.mem_range]

theorem increasing_sortedUnion (hrank : Ranks cmp rank) (hls : Disjoint rank ls n) :
    Increasing rank (sortedUnion cmp ls n) := by
  have hle : ∀ a b : Slices, (cmp a.key b.key).isLE = true ↔ rank a.key ≤ rank b.key := by
    intro a b
    rw [hrank, Ordering.isLE_iff_ne_gt, compare_gt_iff_gt, not_lt]
  have hsorted : (sortedUnion cmp ls n).Pairwise fun a b => rank a.key ≤ rank b.key := by
    have hpairwise : (sortedUnion cmp ls n).Pairwise fun a b => (cmp a.key b.key).isLE = true := by
      apply List.pairwise_mergeSort
      · intro a b c
        rw [hle, hle, hle]
        exact le_trans
      · intro a b
        rw [Bool.or_eq_true, hle, hle]
        exact le_total _ _
    exact hpairwise.imp fun {a b} h => (hle a b).mp h
  have hne : ((List.range n).flatMap ls).Pairwise fun a b => rank a.key ≠ rank b.key := by
    rw [List.pairwise_flatMap]
    constructor
    · intro i hi
      exact (hls.increasing i (List.mem_range.mp hi)).imp fun h => h.ne
    · apply List.Pairwise.imp_of_mem _ (List.pairwise_lt_range (n := n))
      intro i j hi hj hij a ha b hb
      exact hls.distinct i (List.mem_range.mp hi) j (List.mem_range.mp hj) hij.ne a ha b hb
  have hne' : (sortedUnion cmp ls n).Pairwise fun a b => rank a.key ≠ rank b.key :=
    ((List.mergeSort_perm _ _).pairwise_iff fun {a b} h => h.symm).mpr hne
  exact (hsorted.and hne').imp fun ⟨hle, hne⟩ => lt_of_le_of_ne hle hne

end Union

/-! ## One child -/

/-- A wrapper around a cursor over `l`. -/
structure Tracks (it : Iterator σ Bytes Bytes) (cmp : Bytes → Bytes → Ordering) (l : List Slices)
    (w : IteratorWrapper σ) : Prop where
  cursor : ∃ p, BehavesAs it cmp l w.iter p
  valid : w.valid = it.valid w.iter
  key : w.valid = true → w.key = it.key w.iter

theorem tracks_set {l : List Slices} {iter : σ} (h : ∃ p, BehavesAs it cmp l iter p) :
    Tracks it cmp l (.set it iter) where
  cursor := h
  valid := rfl
  key := fun hvalid => if_pos hvalid

section Child

variable {κ : Type*} [LinearOrder κ] {rank : Bytes → κ} {l : List Slices} {w : IteratorWrapper σ}

theorem Tracks.entry_some (h : Tracks it cmp l w) (hvalid : w.valid = true) :
    ∃ e, it.entry w.iter = some e ∧ w.key = e.key := by
  refine ⟨⟨it.key w.iter, it.value w.iter⟩, ?_, h.key hvalid⟩
  rw [Iterator.entry, if_pos (h.valid.symm.trans hvalid)]

theorem Tracks.entry_none (h : Tracks it cmp l w) (hvalid : w.valid = false) :
    it.entry w.iter = none :=
  Iterator.entry_eq_none.mpr (h.valid.symm.trans hvalid)

theorem Tracks.valid_of_entry (h : Tracks it cmp l w) {e : Slices} (he : it.entry w.iter = some e) :
    w.valid = true ∧ w.key = e.key := by
  obtain ⟨hvalid, hkey, -⟩ := Iterator.entry_eq_some.mp he
  have hv : w.valid = true := h.valid.trans hvalid
  exact ⟨hv, (h.key hv).trans hkey⟩

theorem Tracks.move (h : Tracks it cmp l w) (hrank : Ranks cmp rank) (hl : Increasing rank l)
    (m : Motion Bytes) (hm : m.relative = true → w.valid = true) :
    ∃ w', w.move it m = some w' ∧ Tracks it cmp l w' ∧
      Lands rank l (it.entry w.iter) (it.entry w'.iter) m := by
  obtain ⟨p, hp⟩ := h.cursor
  obtain ⟨s', p', hmove, hs', hlands⟩ := hp.lands hrank hl m fun hrel =>
    h.valid.symm.trans (hm hrel)
  refine ⟨w.update it s', ?_, ⟨⟨p', hs'⟩, rfl, fun hvalid => if_pos hvalid⟩, hlands⟩
  rw [IteratorWrapper.move, hmove]
  rfl

/-- A child whose keys are all different from `key` is put behind it. -/
theorem positionAfter_spec (h : Tracks it cmp l w) (hrank : Ranks cmp rank) (hl : Increasing rank l)
    {key : Bytes} (hne : ∀ e ∈ l, rank key ≠ rank e.key) :
    ∃ w', positionAfter it cmp key w = some w' ∧ Tracks it cmp l w' ∧
      IsFirst rank l (rank key < ·) (it.entry w'.iter) := by
  obtain ⟨w', hmove, hw', hfirst⟩ := h.move hrank hl (.seek key) nofun
  have hnot : ¬ (w'.valid = true ∧ cmp key w'.key = .eq) := by
    rintro ⟨hvalid, heq⟩
    obtain ⟨e, he, hkey⟩ := hw'.entry_some hvalid
    rw [he] at hfirst
    rw [hrank.eq_iff, hkey] at heq
    exact hne e hfirst.1 heq
  refine ⟨w', ?_, hw', ?_⟩
  · rw [positionAfter, hmove]
    exact if_neg hnot
  · apply IsFirst.congr hfirst
    intro e he
    exact ⟨fun hle => lt_of_le_of_ne hle (hne e he), le_of_lt⟩

/-- A child is put before `key`. -/
theorem positionBefore_spec (h : Tracks it cmp l w) (hrank : Ranks cmp rank)
    (hl : Increasing rank l) (key : Bytes) :
    ∃ w', positionBefore it key w = some w' ∧ Tracks it cmp l w' ∧
      IsLast rank l (· < rank key) (it.entry w'.iter) := by
  obtain ⟨w', hmove, hw', hfirst⟩ := h.move hrank hl (.seek key) nofun
  cases hvalid : w'.valid with
  | true =>
    obtain ⟨w'', hmove', hw'', e, he, hlast⟩ := hw'.move hrank hl .prev fun _ => hvalid
    refine ⟨w'', ?_, hw'', ?_⟩
    · rw [positionBefore, hmove]
      exact (if_pos hvalid).trans hmove'
    · -- the entries below the first one that is not below `key` are those below `key`
      have hfirst' : IsFirst rank l (rank key ≤ ·) (some e) := he ▸ hfirst
      apply IsFirst.congr hlast
      intro d hd
      constructor
      · intro hlt
        exact not_le.mp fun hle => absurd hlt (not_lt.mpr (hfirst'.2.2 d hd hle))
      · exact fun hlt => lt_of_lt_of_le hlt hfirst'.2.1
  | false =>
    obtain ⟨w'', hmove', hw'', hlast⟩ := hw'.move hrank hl .seekToLast nofun
    have hnone : IsFirst rank l (rank key ≤ ·) none := hw'.entry_none hvalid ▸ hfirst
    refine ⟨w'', ?_, hw'', ?_⟩
    · rw [positionBefore, hmove]
      exact (if_neg (by rw [hvalid]; decide)).trans hmove'
    · have hlast' : IsLast rank l (fun _ => True) (it.entry w''.iter) := hlast
      apply IsFirst.congr hlast'
      intro d hd
      exact ⟨fun _ => not_le.mp (hnone d hd), fun _ => trivial⟩

end Child

/-! ## All children -/

section Children

variable {κ : Type*} [LinearOrder κ] {rank : Bytes → κ} {ls : Nat → List Slices} {n : Nat}
  {children : Nat → IteratorWrapper σ} {P : κ → Prop}

/-- Child `c` is at an entry, and every other child at its first entry above it. -/
def Around (it : Iterator σ Bytes Bytes) (rank : Bytes → κ) (ls : Nat → List Slices) (n : Nat)
    (children : Nat → IteratorWrapper σ) (c : Nat) : Prop :=
  c < n ∧ ∃ e, it.entry (children c).iter = some e ∧ e ∈ ls c ∧
    ∀ i < n, i ≠ c → IsFirst rank (ls i) (rank e.key < ·) (it.entry (children i).iter)

/-- **The search.** All children are at their first entry in a set of keys that is closed
upwards. What is found is the first entry of the union in that set, and the others are
around it. -/
theorem find_spec {wanted : Ordering} {order : List Nat}
    (hwanted : ∀ a b, cmp a b = wanted ↔ rank a < rank b) (horder : ∀ i, i ∈ order ↔ i < n)
    (hdistinct : ∀ i < n, ∀ j < n, i ≠ j → ∀ a ∈ ls i, ∀ b ∈ ls j, rank a.key ≠ rank b.key)
    (htracks : ∀ i < n, Tracks it cmp (ls i) (children i)) (hP : ∀ a b, a ≤ b → P a → P b)
    (hfirst : ∀ i < n, IsFirst rank (ls i) P (it.entry (children i).iter))
    {l : List Slices} (hl : ∀ e, e ∈ l ↔ ∃ i < n, e ∈ ls i) :
    IsFirst rank l P ((order.foldl (findStep cmp wanted children) none).bind
        fun c => it.entry (children c).iter) ∧
      ∀ c, order.foldl (findStep cmp wanted children) none = some c →
        Around it rank ls n children c := by
  have hfound := foldl_findStep hwanted children order
  generalize order.foldl (findStep cmp wanted children) none = found at hfound ⊢
  cases found with
  | none =>
    refine ⟨?_, fun c hc => absurd hc (by simp)⟩
    intro e he
    obtain ⟨i, hi, hmem⟩ := (hl e).mp he
    have hnone := hfirst i hi
    rw [(htracks i hi).entry_none (hfound i ((horder i).mpr hi))] at hnone
    exact hnone e hmem
  | some c =>
    obtain ⟨hc, hvalid, hleast⟩ := hfound.least
    rw [horder] at hc
    obtain ⟨e, he, hkey⟩ := (htracks c hc).entry_some hvalid
    have hec := hfirst c hc
    rw [he] at hec
    -- no entry in the set is below the one that was found
    have hbelow : ∀ i < n, ∀ d, it.entry (children i).iter = some d → rank e.key ≤ rank d.key := by
      intro i hi d hd
      obtain ⟨hv, hk⟩ := (htracks i hi).valid_of_entry hd
      rw [← hkey, ← hk]
      exact hleast i ((horder i).mpr hi) hv
    constructor
    · rw [Option.bind_some, he]
      refine ⟨(hl e).mpr ⟨c, hc, hec.1⟩, hec.2.1, ?_⟩
      intro d hd hPd
      obtain ⟨i, hi, hmem⟩ := (hl d).mp hd
      have hi' := hfirst i hi
      cases hentry : it.entry (children i).iter with
      | none =>
        rw [hentry] at hi'
        exact absurd hPd (hi' d hmem)
      | some b =>
        rw [hentry] at hi'
        exact (hbelow i hi b hentry).trans (hi'.2.2 d hmem hPd)
    · intro c' hc'
      obtain rfl := Option.some.inj hc'
      refine ⟨hc, e, he, hec.1, ?_⟩
      intro i hi hne
      have hi' := hfirst i hi
      cases hentry : it.entry (children i).iter with
      | none =>
        rw [hentry] at hi'
        intro d hd hlt
        exact hi' d hd (hP _ _ hlt.le hec.2.1)
      | some b =>
        rw [hentry] at hi'
        have hneq := hdistinct i hi c hc hne b hi'.1 e hec.1
        refine ⟨hi'.1, lt_of_le_of_ne (hbelow i hi b hentry) hneq.symm, ?_⟩
        intro d hd hlt
        exact hi'.2.2 d hd (hP _ _ hlt.le hec.2.1)

end Children

/-! ## The iterator -/

section Iterator

variable {κ : Type*} [LinearOrder κ] {rank : Bytes → κ} {ls : Nat → List Slices} {n : Nat}
  {mi : MergingIterator σ}

/-- The invariant between two calls. An iterator that is not valid may have its children
anywhere. -/
structure Inv (it : Iterator σ Bytes Bytes) (cmp : Bytes → Bytes → Ordering) (rank : Bytes → κ)
    (ls : Nat → List Slices) (n : Nat) (mi : MergingIterator σ) : Prop where
  size : mi.n = n
  tracks : ∀ i < n, Tracks it cmp (ls i) (mi.children i)
  forward : ∀ c, mi.current = some c → mi.direction = .forward →
    Around it rank ls n mi.children c
  reverse : ∀ c, mi.current = some c → mi.direction = .reverse →
    Around it (fun k => OrderDual.toDual (rank k)) ls n mi.children c

/-- The current child is at an entry of its list. -/
theorem Inv.current (h : Inv it cmp rank ls n mi) {c : Nat} (hc : mi.current = some c) :
    c < n ∧ ∃ e, it.entry (mi.children c).iter = some e ∧ e ∈ ls c := by
  cases hdir : mi.direction with
  | forward =>
    obtain ⟨hlt, e, he, hmem, -⟩ := h.forward c hc hdir
    exact ⟨hlt, e, he, hmem⟩
  | reverse =>
    obtain ⟨hlt, e, he, hmem, -⟩ := h.reverse c hc hdir
    exact ⟨hlt, e, he, hmem⟩

theorem Inv.entry (h : Inv it cmp rank ls n mi) :
    (mergingIterator it cmp).entry mi =
      mi.current.bind fun c => it.entry (mi.children c).iter := by
  cases hc : mi.current with
  | none =>
    rw [Option.bind_none, Iterator.entry_eq_none]
    simp [mergingIterator, hc]
  | some c =>
    obtain ⟨hlt, e, he, -⟩ := h.current hc
    obtain ⟨-, hvalue⟩ := (Iterator.entry_eq_some.mp he).2
    rw [Option.bind_some, he, Iterator.entry_eq_some]
    refine ⟨by simp [mergingIterator, hc], ?_, ?_⟩
    · simpa [mergingIterator, hc] using ((h.tracks c hlt).valid_of_entry he).2
    · simpa [mergingIterator, hc] using hvalue

variable {children : Nat → IteratorWrapper σ} {P : κ → Prop}

/-- After `FindSmallest`. -/
theorem findSmallest_spec (hrank : Ranks cmp rank) (hls : Disjoint rank ls n)
    (htracks : ∀ i < n, Tracks it cmp (ls i) (children i)) (hP : ∀ a b, a ≤ b → P a → P b)
    (hfirst : ∀ i < n, IsFirst rank (ls i) P (it.entry (children i).iter))
    (hmi : mi = MergingIterator.findSmallest cmp ⟨children, n, none, .forward⟩) :
    Inv it cmp rank ls n mi ∧
      IsFirst rank (sortedUnion cmp ls n) P ((mergingIterator it cmp).entry mi) := by
  have hwanted : ∀ a b, cmp a b = .lt ↔ rank a < rank b := fun _ _ => hrank.lt_iff
  obtain ⟨hunion, haround⟩ := find_spec hwanted (fun _ => List.mem_range) hls.distinct htracks hP
    hfirst fun _ => mem_sortedUnion
  have hinv : Inv it cmp rank ls n mi := by
    rw [hmi]
    exact ⟨rfl, htracks, fun c hc _ => haround c hc, nofun⟩
  refine ⟨hinv, ?_⟩
  rw [hinv.entry, hmi]
  exact hunion

/-- After `FindLargest`: the same upside down. -/
theorem findLargest_spec (hrank : Ranks cmp rank) (hls : Disjoint rank ls n)
    (htracks : ∀ i < n, Tracks it cmp (ls i) (children i)) (hP : ∀ a b, b ≤ a → P a → P b)
    (hlast : ∀ i < n, IsLast rank (ls i) P (it.entry (children i).iter))
    (hmi : mi = MergingIterator.findLargest cmp ⟨children, n, none, .reverse⟩) :
    Inv it cmp rank ls n mi ∧
      IsLast rank (sortedUnion cmp ls n) P ((mergingIterator it cmp).entry mi) := by
  have horder : ∀ i, i ∈ (List.range n).reverse ↔ i < n := fun i => by
    rw [List.mem_reverse, List.mem_range]
  have hwanted : ∀ a b, cmp a b = .gt ↔
      OrderDual.toDual (rank a) < OrderDual.toDual (rank b) := fun _ _ => hrank.gt_iff
  obtain ⟨hunion, haround⟩ := find_spec hwanted horder hls.distinct htracks
    (P := fun a => P (OrderDual.ofDual a)) (fun a b hle => hP (OrderDual.ofDual a) _ hle) hlast
    fun _ => mem_sortedUnion
  have hinv : Inv it cmp rank ls n mi := by
    rw [hmi]
    exact ⟨rfl, htracks, nofun, fun c hc _ => haround c hc⟩
  refine ⟨hinv, ?_⟩
  rw [hinv.entry, hmi]
  exact hunion

/-- All children make the same motion. -/
theorem forEachChild_move (hrank : Ranks cmp rank) (hls : Disjoint rank ls n)
    (h : Inv it cmp rank ls n mi) (m : Motion Bytes) (hm : m.relative = false) :
    ∃ children, forEachChild mi.n (fun _ => IteratorWrapper.move it m) mi.children = some children ∧
      ∀ i < n, Tracks it cmp (ls i) (children i) ∧
        Lands rank (ls i) (it.entry (mi.children i).iter) (it.entry (children i).iter) m := by
  rw [h.size]
  apply forEachChild_spec (Q := fun i w => Tracks it cmp (ls i) w ∧
    Lands rank (ls i) (it.entry (mi.children i).iter) (it.entry w.iter) m)
  intro i hi
  exact (h.tracks i hi).move hrank (hls.increasing i hi) m fun hrel =>
    absurd hrel (by rw [hm]; decide)

/-- The loops over the children that are not the current one. -/
theorem forEachOther {f : IteratorWrapper σ → Option (IteratorWrapper σ)} {c : Nat}
    {Q : Option Slices → List Slices → Prop}
    (htracks : ∀ i < n, Tracks it cmp (ls i) (children i))
    (h : ∀ i < n, i ≠ c → ∃ w, f (children i) = some w ∧ Tracks it cmp (ls i) w ∧
      Q (it.entry w.iter) (ls i)) :
    ∃ children', forEachChild n (fun i child => if i ≠ c then f child else some child) children =
        some children' ∧
      ∀ i < n, Tracks it cmp (ls i) (children' i) ∧ (i = c → children' i = children i) ∧
        (i ≠ c → Q (it.entry (children' i).iter) (ls i)) := by
  apply forEachChild_spec (Q := fun i w => Tracks it cmp (ls i) w ∧ (i = c → w = children i) ∧
    (i ≠ c → Q (it.entry w.iter) (ls i)))
  intro i hi
  split
  case isTrue hne =>
    obtain ⟨w, hw, hw', hQ⟩ := h i hi hne
    exact ⟨w, hw, hw', fun heq => absurd heq hne, fun _ => hQ⟩
  case isFalse heq => exact ⟨_, rfl, htracks i hi, fun _ => rfl, fun hne => absurd hne heq⟩

/-- The other children come behind the current key. -/
theorem Inv.ensureAfter (hrank : Ranks cmp rank) (hls : Disjoint rank ls n)
    (h : Inv it cmp rank ls n mi) {c : Nat} (hc : mi.current = some c) {e : Slices}
    (he : it.entry (mi.children c).iter = some e) :
    ∃ children, MergingIterator.ensureAfter it cmp mi c = some children ∧
      ∀ i < n, Tracks it cmp (ls i) (children i) ∧ (i = c → children i = mi.children i) ∧
        (i ≠ c → IsFirst rank (ls i) (rank e.key < ·) (it.entry (children i).iter)) := by
  obtain ⟨hlt, e', he', hmem⟩ := h.current hc
  obtain rfl : e = e' := Option.some.inj (he.symm.trans he')
  rw [MergingIterator.ensureAfter]
  split
  case isTrue hreverse =>
    have hkey : (mi.children c).key = e.key := ((h.tracks c hlt).valid_of_entry he).2
    rw [h.size, hkey]
    apply forEachOther (Q := fun y l => IsFirst rank l (rank e.key < ·) y) h.tracks
    intro i hi hne
    exact positionAfter_spec (h.tracks i hi) hrank (hls.increasing i hi)
      (hls.distinct c hlt i hi (Ne.symm hne) e hmem)
  case isFalse hforward =>
    obtain ⟨-, d, hd, -, hothers⟩ := h.forward c hc (not_not.mp hforward)
    obtain rfl := Option.some.inj (he.symm.trans hd)
    exact ⟨mi.children, rfl, fun i hi => ⟨h.tracks i hi, fun _ => rfl, hothers i hi⟩⟩

/-- The other children come before the current key. -/
theorem Inv.ensureBefore (hrank : Ranks cmp rank) (hls : Disjoint rank ls n)
    (h : Inv it cmp rank ls n mi) {c : Nat} (hc : mi.current = some c) {e : Slices}
    (he : it.entry (mi.children c).iter = some e) :
    ∃ children, MergingIterator.ensureBefore it mi c = some children ∧
      ∀ i < n, Tracks it cmp (ls i) (children i) ∧ (i = c → children i = mi.children i) ∧
        (i ≠ c → IsLast rank (ls i) (· < rank e.key) (it.entry (children i).iter)) := by
  obtain ⟨hlt, -⟩ := h.current hc
  rw [MergingIterator.ensureBefore]
  split
  case isTrue hforward =>
    have hkey : (mi.children c).key = e.key := ((h.tracks c hlt).valid_of_entry he).2
    rw [h.size, hkey]
    apply forEachOther (Q := fun y l => IsLast rank l (· < rank e.key) y) h.tracks
    intro i hi _
    exact positionBefore_spec (h.tracks i hi) hrank (hls.increasing i hi) e.key
  case isFalse hreverse =>
    obtain ⟨-, d, hd, -, hothers⟩ := h.reverse c hc (not_not.mp hreverse)
    obtain rfl := Option.some.inj (he.symm.trans hd)
    exact ⟨mi.children, rfl, fun i hi => ⟨h.tracks i hi, fun _ => rfl, hothers i hi⟩⟩

/-- The current child makes its motion when the others are in place. -/
theorem Inv.move_current {m : Motion Bytes} {c : Nat} {Q : Option Slices → List Slices → Prop}
    (hrank : Ranks cmp rank) (hls : Disjoint rank ls n) (h : Inv it cmp rank ls n mi)
    (hc : mi.current = some c)
    (hothers : ∀ i < n, Tracks it cmp (ls i) (children i) ∧
      (i = c → children i = mi.children i) ∧ (i ≠ c → Q (it.entry (children i).iter) (ls i)))
    (hcurrent : ∀ y, Lands rank (ls c) (it.entry (mi.children c).iter) y m → Q y (ls c)) :
    ∃ w, (children c).move it m = some w ∧
      (∀ i < n, Tracks it cmp (ls i) (Function.update children c w i)) ∧
      ∀ i < n, Q (it.entry (Function.update children c w i).iter) (ls i) := by
  obtain ⟨hlt, e, he, -⟩ := h.current hc
  have hsame : children c = mi.children c := (hothers c hlt).2.1 rfl
  obtain ⟨w, hw, htracks, hlands⟩ := (h.tracks c hlt).move hrank (hls.increasing c hlt) m
    fun _ => ((h.tracks c hlt).valid_of_entry he).1
  refine ⟨w, by rwa [hsame], ?_, ?_⟩
  · intro i hi
    by_cases hic : i = c
    · subst hic
      rwa [Function.update_self]
    · rw [Function.update_of_ne hic]
      exact (hothers i hi).1
  · intro i hi
    by_cases hic : i = c
    · subst hic
      rw [Function.update_self]
      exact hcurrent _ hlands
    · rw [Function.update_of_ne hic]
      exact (hothers i hi).2.2 hic

/-- **One motion** of the merging iterator. -/
theorem Inv.move (hrank : Ranks cmp rank) (hls : Disjoint rank ls n) (h : Inv it cmp rank ls n mi)
    (m : Motion Bytes) (hm : m.relative = true → (mergingIterator it cmp).valid mi = true) :
    ∃ mi', (mergingIterator it cmp).move m mi = some mi' ∧ Inv it cmp rank ls n mi' ∧
      Lands rank (sortedUnion cmp ls n) ((mergingIterator it cmp).entry mi)
        ((mergingIterator it cmp).entry mi') m := by
  obtain rfl := h.size
  cases m with
  | seekToFirst =>
    obtain ⟨children, hrun, hch⟩ := forEachChild_move hrank hls h .seekToFirst rfl
    obtain ⟨hinv, hfirst⟩ := findSmallest_spec (P := fun _ => True) hrank hls
      (fun i hi => (hch i hi).1) (fun _ _ _ _ => trivial) (fun i hi => (hch i hi).2) rfl
    refine ⟨_, ?_, hinv, hfirst⟩
    simp only [mergingIterator, MergingIterator.seekToFirst, hrun]
    rfl
  | seekToLast =>
    obtain ⟨children, hrun, hch⟩ := forEachChild_move hrank hls h .seekToLast rfl
    obtain ⟨hinv, hlast⟩ := findLargest_spec (P := fun _ => True) hrank hls
      (fun i hi => (hch i hi).1) (fun _ _ _ _ => trivial) (fun i hi => (hch i hi).2) rfl
    refine ⟨_, ?_, hinv, hlast⟩
    simp only [mergingIterator, MergingIterator.seekToLast, hrun]
    rfl
  | seek target =>
    obtain ⟨children, hrun, hch⟩ := forEachChild_move hrank hls h (.seek target) rfl
    obtain ⟨hinv, hfirst⟩ := findSmallest_spec (P := (rank target ≤ ·)) hrank hls
      (fun i hi => (hch i hi).1) (fun _ _ hab hle => hle.trans hab) (fun i hi => (hch i hi).2) rfl
    refine ⟨_, ?_, hinv, hfirst⟩
    simp only [mergingIterator, MergingIterator.seek, hrun]
    rfl
  | next =>
    obtain ⟨c, hc⟩ := Option.isSome_iff_exists.mp (hm rfl)
    obtain ⟨-, e, he, -⟩ := h.current hc
    obtain ⟨children, hrun, hch⟩ := h.ensureAfter hrank hls hc he
    obtain ⟨w, hw, htracks, hfirst⟩ := h.move_current (m := .next)
      (Q := fun y l => IsFirst rank l (rank e.key < ·) y) hrank hls hc hch (by
        rintro y ⟨d, hd, hfirst⟩
        obtain rfl := Option.some.inj (he.symm.trans hd)
        exact hfirst)
    obtain ⟨hinv, hunion⟩ := findSmallest_spec (P := (rank e.key < ·)) hrank hls htracks
      (fun _ _ hab hlt => lt_of_lt_of_le hlt hab) hfirst rfl
    refine ⟨_, ?_, hinv, e, ?_, hunion⟩
    · simp only [mergingIterator, MergingIterator.next, hc, Option.bind_eq_bind,
        Option.bind_some, hrun, hw]
      rfl
    · rw [h.entry, hc, Option.bind_some, he]
  | prev =>
    obtain ⟨c, hc⟩ := Option.isSome_iff_exists.mp (hm rfl)
    obtain ⟨-, e, he, -⟩ := h.current hc
    obtain ⟨children, hrun, hch⟩ := h.ensureBefore hrank hls hc he
    obtain ⟨w, hw, htracks, hlast⟩ := h.move_current (m := .prev)
      (Q := fun y l => IsLast rank l (· < rank e.key) y) hrank hls hc hch (by
        rintro y ⟨d, hd, hlast⟩
        obtain rfl := Option.some.inj (he.symm.trans hd)
        exact hlast)
    obtain ⟨hinv, hunion⟩ := findLargest_spec (P := (· < rank e.key)) hrank hls htracks
      (fun _ _ hab hlt => lt_of_le_of_lt hab hlt) hlast rfl
    refine ⟨_, ?_, hinv, e, ?_, hunion⟩
    · simp only [mergingIterator, MergingIterator.prev, hc, Option.bind_eq_bind,
        Option.bind_some, hrun, hw]
      rfl
    · rw [h.entry, hc, Option.bind_some, he]

theorem inv_new {start : Nat → σ} (h : ∀ i < n, ∃ p, BehavesAs it cmp (ls i) (start i) p) :
    Inv it cmp rank ls n (.new it start n) where
  size := rfl
  tracks := fun i hi => tracks_set (h i hi)
  forward := nofun
  reverse := nofun

theorem mergingIterator_cursor (hrank : Ranks cmp rank) (hls : Disjoint rank ls n) {start : Nat → σ}
    (hstart : ∀ i < n, ∃ p, BehavesAs it cmp (ls i) (start i) p) :
    BehavesAs (mergingIterator it cmp) cmp (sortedUnion cmp ls n) (.new it start n) none :=
  BehavesAs.of_lands hrank (increasing_sortedUnion hrank hls) (Inv it cmp rank ls n)
    (fun _ m h hm => h.move hrank hls m hm) (inv_new hstart) rfl

theorem mergedIterator_cursor (hrank : Ranks cmp rank) (hls : Disjoint rank ls n) {start : Nat → σ}
    (hstart : ∀ i < n, ∃ p, BehavesAs it cmp (ls i) (start i) p) :
    ∃ p, BehavesAs (mergedIterator it cmp) cmp (sortedUnion cmp ls n)
      (newMergingIterator it start n) p := by
  rw [newMergingIterator]
  split
  case isTrue hzero =>
    subst hzero
    refine ⟨none, ?_⟩
    apply BehavesAs.of_simulation fun s p => s = Merged.empty ∧ p = none
    case hentry =>
      rintro _ _ ⟨rfl, rfl⟩
      rfl
    case hstep =>
      rintro _ _ m p' ⟨rfl, rfl⟩ hstep
      refine ⟨.empty, ?_, rfl, ?_⟩
      · cases m <;> simp_all [Cursor.step, mergedIterator, Motion.relative]
      · cases m <;> simp_all [Cursor.step, sortedUnion]
    case h => exact ⟨rfl, rfl⟩
  case isFalse hpos =>
    split
    case isTrue hone =>
      subst hone
      obtain ⟨p, hp⟩ := hstart 0 Nat.one_pos
      have hunion : sortedUnion cmp ls 1 = ls 0 := by
        have hflat : (List.range 1).flatMap ls = ls 0 := by simp [List.range_succ]
        rw [sortedUnion, hflat]
        apply List.mergeSort_of_pairwise
        exact (hls.increasing 0 Nat.one_pos).imp fun hlt => by rw [hrank.lt_iff.mpr hlt]; rfl
      rw [hunion]
      exact ⟨p, hp.embed (fun _ => rfl) fun _ _ => rfl⟩
    case isFalse =>
      exact ⟨none, (mergingIterator_cursor hrank hls hstart).embed (fun _ => rfl) fun _ _ => rfl⟩

end Iterator

/-- **The merging iterator is a cursor over the sorted union** of its children, and its status
is OK exactly when that of every child is. So is what `NewMergingIterator` returns, which is
another object for no child and for one. -/
theorem newMergingIterator_cursor [Std.TransCmp cmp] (it : Iterator σ Bytes Bytes)
    (status : σ → Status) {start : Nat → σ} {ls : Nat → List Slices} {n : Nat}
    (hstart : ∀ i < n, ∃ p, BehavesAs it cmp (ls i) (start i) p)
    (hsorted : ∀ i < n, (ls i).Pairwise fun a b => cmp a.key b.key = .lt)
    (hdistinct : ∀ i < n, ∀ j < n, i ≠ j → ∀ a ∈ ls i, ∀ b ∈ ls j, cmp a.key b.key ≠ .eq) :
    BehavesAs (mergingIterator it cmp) cmp (sortedUnion cmp ls n) (.new it start n) none ∧
    (∃ p, BehavesAs (mergedIterator it cmp) cmp (sortedUnion cmp ls n)
      (newMergingIterator it start n) p) ∧
    ∀ mi : MergingIterator σ, (mi.status status).isOk = true ↔
      ∀ i < mi.n, (status (mi.children i).iter).isOk = true := by
  obtain ⟨κ, _, rank, hrank⟩ := exists_ranks cmp
  have hls : Disjoint rank ls n := by
    constructor
    case increasing => exact fun i hi => (hsorted i hi).imp fun h => hrank.lt_iff.mp h
    case distinct =>
      intro i hi j hj hne a ha b hb heq
      exact hdistinct i hi j hj hne a ha b hb (hrank.eq_iff.mpr heq)
  exact ⟨mergingIterator_cursor hrank hls hstart, mergedIterator_cursor hrank hls hstart,
    fun mi => mi.status_isOk status⟩

/-- Two children over lists. -/
def twoLists : Nat → List Slices
  | 0 => [⟨[1], [10]⟩, ⟨[3], [30]⟩]
  | _ => [⟨[2], [20]⟩]

theorem newMergingIterator_cursor_twoLists :
    BehavesAs (mergingIterator (listIterator sliceCompare) sliceCompare) sliceCompare
      (sortedUnion sliceCompare twoLists 2)
      (.new (listIterator sliceCompare) (fun i => (twoLists i, none)) 2) none :=
  (newMergingIterator_cursor (listIterator sliceCompare) (fun _ => Status.ok)
    (fun i _ => ⟨none, listIterator_cursor sliceCompare (twoLists i) none⟩) (by decide)
    (by decide)).1

end Lpad.Table
