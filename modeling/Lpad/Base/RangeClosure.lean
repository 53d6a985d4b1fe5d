import Mathlib.Order.Basic
import Mathlib.Data.List.Basic
import Mathlib.Order.Lattice

/-!
# Ranges closed under overlapping intervals

A range over a linear order, possibly without an end on either side, and a list of intervals.
The range is closed when it covers every interval that it meets. Every range lies in a least
closed one. A loop that widens it to an interval which it meets keeps that closure
(`Widens.isClosure`) and ends, as fewer intervals stick out each time (`Widens.outside_lt`).
-/

namespace Lpad

/-- A side without a bound is `none`. -/
structure Range (α : Type*) where
  lower : Option α
  upper : Option α

namespace Range

def map {α β : Type*} (f : α → β) (r : Range α) : Range β := ⟨r.lower.map f, r.upper.map f⟩

variable {ι α : Type*} [LinearOrder α] {lo hi : ι → α} {l : List ι} {r r' s t : Range α} {f : ι}

/-- Some point of the range may be between `a` and `b`. -/
def Meets (r : Range α) (a b : α) : Prop := (∀ k ∈ r.lower, k ≤ b) ∧ ∀ k ∈ r.upper, a ≤ k

instance (r : Range α) (a b : α) : Decidable (r.Meets a b) :=
  inferInstanceAs (Decidable (_ ∧ _))

/-- All points from `a` to `b` are in the range. -/
def Covers (r : Range α) (a b : α) : Prop := (∀ k ∈ r.lower, k ≤ a) ∧ ∀ k ∈ r.upper, b ≤ k

/-- One range lies in the other. -/
def Within (r s : Range α) : Prop :=
  (∀ k ∈ s.lower, ∃ j ∈ r.lower, k ≤ j) ∧ ∀ k ∈ s.upper, ∃ j ∈ r.upper, j ≤ k

/-- The range covers each interval that it meets. -/
def Closed (lo hi : ι → α) (l : List ι) (r : Range α) : Prop :=
  ∀ f ∈ l, r.Meets (lo f) (hi f) → r.Covers (lo f) (hi f)

/-- The least closed range around another one. -/
structure IsClosure (lo hi : ι → α) (l : List ι) (r s : Range α) : Prop where
  within : r.Within s
  closed : Closed lo hi l s
  least : ∀ t, r.Within t → Closed lo hi l t → s.Within t

/-- One end moves out to that of an interval. -/
def Widens (lo hi : ι → α) (f : ι) (r r' : Range α) : Prop :=
  (∃ k ∈ r.lower, lo f < k ∧ r' = ⟨some (lo f), r.upper⟩) ∨
    ∃ k ∈ r.upper, k < hi f ∧ r' = ⟨r.lower, some (hi f)⟩

/-- How many intervals stick out of the range, counted once for each side. -/
def outside (lo hi : ι → α) (l : List ι) (r : Range α) : Nat :=
  l.countP (fun f => r.lower.any fun k => decide (lo f < k)) +
    l.countP (fun f => r.upper.any fun k => decide (k < hi f))

theorem Within.refl (r : Range α) : r.Within r :=
  ⟨fun k hk => ⟨k, hk, le_rfl⟩, fun k hk => ⟨k, hk, le_rfl⟩⟩

theorem Within.trans (hrs : r.Within s) (hst : s.Within t) : r.Within t := by
  constructor
  · intro k hk
    obtain ⟨j, hj, hkj⟩ := hst.1 k hk
    obtain ⟨i, hi, hji⟩ := hrs.1 j hj
    exact ⟨i, hi, hkj.trans hji⟩
  · intro k hk
    obtain ⟨j, hj, hjk⟩ := hst.2 k hk
    obtain ⟨i, hi, hij⟩ := hrs.2 j hj
    exact ⟨i, hi, hij.trans hjk⟩

theorem Meets.mono {a b : α} (h : r.Meets a b) (hrs : r.Within s) : s.Meets a b := by
  constructor
  · intro k hk
    obtain ⟨j, hj, hkj⟩ := hrs.1 k hk
    exact hkj.trans (h.1 j hj)
  · intro k hk
    obtain ⟨j, hj, hjk⟩ := hrs.2 k hk
    exact (h.2 j hj).trans hjk

theorem not_meets_iff {a b : α} :
    ¬ r.Meets a b ↔ (∃ k ∈ r.lower, b < k) ∨ ∃ k ∈ r.upper, k < a := by
  rw [Meets, not_and_or]
  simp only [not_forall, not_le, exists_prop]

theorem covers_iff {a b : α} :
    r.Covers a b ↔ (¬ ∃ k ∈ r.lower, a < k) ∧ ¬ ∃ k ∈ r.upper, k < b := by
  simp only [Covers, not_exists, not_and, not_lt]

/-- A closed range is its own closure. -/
theorem Closed.isClosure (h : Closed lo hi l r) : IsClosure lo hi l r r :=
  ⟨.refl r, h, fun _ ht _ => ht⟩

namespace Widens

theorem within (h : Widens lo hi f r r') : r.Within r' := by
  rcases h with ⟨k, hk, hlt, rfl⟩ | ⟨k, hk, hlt, rfl⟩
  · refine ⟨?_, (Within.refl r).2⟩
    intro j hj
    obtain rfl : lo f = j := Option.some.inj hj
    exact ⟨k, hk, hlt.le⟩
  · refine ⟨(Within.refl r).1, ?_⟩
    intro j hj
    obtain rfl : hi f = j := Option.some.inj hj
    exact ⟨k, hk, hlt.le⟩

/-- A side without a bound stays so. -/
theorem ends (h : Widens lo hi f r r') :
    (r'.lower = none ↔ r.lower = none) ∧ (r'.upper = none ↔ r.upper = none) := by
  rcases h with ⟨k, hk, -, rfl⟩ | ⟨k, hk, -, rfl⟩
  · rw [Option.mem_def.mp hk]
    exact ⟨by simp only [reduceCtorEq], .rfl⟩
  · rw [Option.mem_def.mp hk]
    exact ⟨.rfl, by simp only [reduceCtorEq]⟩

/-- A closed range around the old one is also around the new one. -/
theorem within_of_closed (h : Widens lo hi f r r') (hf : f ∈ l) (hmeets : r.Meets (lo f) (hi f))
    (hrt : r.Within t) (ht : Closed lo hi l t) : r'.Within t := by
  obtain ⟨hlower, hupper⟩ := ht f hf (hmeets.mono hrt)
  rcases h with ⟨-, -, -, rfl⟩ | ⟨-, -, -, rfl⟩
  · exact ⟨fun k hk => ⟨lo f, rfl, hlower k hk⟩, hrt.2⟩
  · exact ⟨hrt.1, fun k hk => ⟨hi f, rfl, hupper k hk⟩⟩

/-- **Widening** to an interval that the range meets does not change the closure. -/
theorem isClosure (h : Widens lo hi f r r') (hf : f ∈ l) (hmeets : r.Meets (lo f) (hi f))
    (hs : IsClosure lo hi l r' s) : IsClosure lo hi l r s where
  within := h.within.trans hs.within
  closed := hs.closed
  least t hrt ht := hs.least t (h.within_of_closed hf hmeets hrt ht) ht

end Widens

theorem countP_lt_of_mem {p q : ι → Bool} {x : ι} (hx : x ∈ l) (hpx : p x = false)
    (hqx : q x = true) (himp : ∀ y ∈ l, p y = true → q y = true) : l.countP p < l.countP q := by
  obtain ⟨before, after, rfl⟩ := List.append_of_mem hx
  have hbefore : before.countP p ≤ before.countP q :=
    List.countP_mono_left fun y hy => himp y (List.mem_append_left _ hy)
  have hafter : after.countP p ≤ after.countP q :=
    List.countP_mono_left fun y hy =>
      himp y (List.mem_append_right _ (List.mem_cons_of_mem _ hy))
  rw [List.countP_append, List.countP_append, List.countP_cons_of_pos hqx,
    List.countP_cons_of_neg (by rw [hpx]; exact Bool.false_ne_true)]
  exact Nat.add_lt_add_of_le_of_lt hbefore (Nat.lt_succ_of_le hafter)

theorem Widens.outside_lt (h : Widens lo hi f r r') (hf : f ∈ l) :
    outside lo hi l r' < outside lo hi l r := by
  rcases h with ⟨k, hk, hlt, rfl⟩ | ⟨k, hk, hlt, rfl⟩
  · apply Nat.add_lt_add_right
    rw [Option.mem_def.mp hk]
    simp only [Option.any_some]
    refine countP_lt_of_mem hf (decide_eq_false (lt_irrefl _)) (decide_eq_true hlt) ?_
    intro g _ hg
    exact decide_eq_true ((of_decide_eq_true hg).trans hlt)
  · apply Nat.add_lt_add_left
    rw [Option.mem_def.mp hk]
    simp only [Option.any_some]
    refine countP_lt_of_mem hf (decide_eq_false (lt_irrefl _)) (decide_eq_true hlt) ?_
    intro g _ hg
    exact decide_eq_true (hlt.trans (of_decide_eq_true hg))

theorem outside_le (lo hi : ι → α) (l : List ι) (r : Range α) :
    outside lo hi l r ≤ 2 * l.length := by
  rw [Nat.two_mul]
  exact Nat.add_le_add List.countP_le_length List.countP_le_length

end Range

end Lpad
