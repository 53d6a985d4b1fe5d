import Mathlib.Data.List.Pairwise
import Mathlib.Order.Basic
import Mathlib.Order.Lattice

/-!
# Intervals in a row

A list of closed intervals over a linear order, each given by its two ends. `InRow`
says that they lie one after the other, in list order and without a common point.
A list that is sorted by left ends and whose intervals are pairwise apart is in a
row; so an operation that keeps a list sorted only has to be checked for what it
puts together.
-/

namespace Lpad

variable {ι α : Type*} [LinearOrder α] {lo hi : ι → α}

/-- One of the two lies completely before the other. -/
def Apart (lo hi : ι → α) (f g : ι) : Prop := hi f < lo g ∨ hi g < lo f

/-- One after the other. -/
def InRow (lo hi : ι → α) (l : List ι) : Prop := l.Pairwise fun f g => hi f < lo g

/-- Each interval has a point. -/
def Proper (lo hi : ι → α) (l : List ι) : Prop := ∀ f ∈ l, lo f ≤ hi f

instance (l : List ι) : Decidable (InRow lo hi l) :=
  inferInstanceAs (Decidable (l.Pairwise fun f g => hi f < lo g))

instance (l : List ι) : Decidable (Proper lo hi l) :=
  inferInstanceAs (Decidable (∀ f ∈ l, lo f ≤ hi f))

theorem Apart.symm {f g : ι} (h : Apart lo hi f g) : Apart lo hi g f := Or.symm h

instance : Std.Symm (Apart lo hi) := ⟨fun _ _ h => h.symm⟩

theorem InRow.sublist {l l' : List ι} (h : InRow lo hi l) (hsub : l'.Sublist l) :
    InRow lo hi l' := List.Pairwise.sublist hsub h

/-- Two intervals of a row are apart. -/
theorem InRow.apart {l : List ι} (h : InRow lo hi l) {f g : ι} (hf : f ∈ l) (hg : g ∈ l)
    (hne : f ≠ g) : Apart lo hi f g := by
  have hall : l.Pairwise (Apart lo hi) := List.Pairwise.imp (fun hlt => Or.inl hlt) h
  exact hall.forall hf hg hne

/-- A row is sorted by left ends. -/
theorem InRow.sorted {l : List ι} (h : InRow lo hi l) (hproper : Proper lo hi l) :
    l.Pairwise fun f g => lo f ≤ lo g := by
  refine List.Pairwise.imp_of_mem ?_ h
  intro f g hf _ hlt
  exact le_trans (hproper f hf) (le_of_lt hlt)

/-- **Sorted and apart is in a row.** -/
theorem inRow_of_sorted {l : List ι} (hproper : Proper lo hi l)
    (hsorted : l.Pairwise fun f g => lo f ≤ lo g) (hapart : l.Pairwise (Apart lo hi)) :
    InRow lo hi l := by
  refine List.Pairwise.imp_of_mem ?_ (hsorted.and hapart)
  rintro f g - hg ⟨hle, hlt | hlt⟩
  · exact hlt
  · exact absurd (lt_of_le_of_lt (hproper g hg) hlt) (not_lt_of_ge hle)

/-- Some point of the interval lies between `a` and `b`. -/
def Meets (lo hi : ι → α) (f : ι) (a b : α) : Prop := lo f ≤ b ∧ a ≤ hi f

theorem not_meets_iff {f : ι} {a b : α} : ¬ Meets lo hi f a b ↔ b < lo f ∨ hi f < a := by
  rw [Meets, not_and_or, not_le, not_le]

end Lpad
