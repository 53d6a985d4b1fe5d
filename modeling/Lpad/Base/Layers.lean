import Mathlib.Data.Set.Basic
import Mathlib.Order.Basic

/-!
# Layers of timed entries

A store that never updates in place keeps several entries for one key, in layers.
Reading works from the first layer on and stops at the first that has the key, which
is right if entries of one key get older from layer to layer. `AgeOrdered` says so for
numbered layers. There are two ways to change such a store: new entries come in from
outside, at a layer above which their keys do not occur, and entries sink from one
layer to the next, provided that no older entry of their key stays behind.

A read at a time sees the newest entry of its key that is not later (`IsNewest`). An
entry that has a newer one before the time `t` can go without changing a read at `t` or
after (`Hidden`). `Reads` says what a read of some entries gives, and `Reads.findSome?`
that layers can be asked one after the other.
-/

namespace Lpad

variable {ε κ τ : Type*} [LinearOrder τ] {key : ε → κ} {time : ε → τ}

/-- Where the two have entries of one key, those of the first are newer. -/
def Newer (key : ε → κ) (time : ε → τ) (a b : Set ε) : Prop :=
  ∀ x ∈ a, ∀ y ∈ b, key x = key y → time y < time x

/-- Each layer is newer than those after it. -/
def AgeOrdered (key : ε → κ) (time : ε → τ) (layers : ℕ → Set ε) : Prop :=
  ∀ i j, i < j → Newer key time (layers i) (layers j)

/-- **New entries** come in at a layer. They are newer than all there are, and no layer
above has one of their keys. -/
theorem AgeOrdered.insert {layers layers' : ℕ → Set ε} (h : AgeOrdered key time layers) {l : ℕ}
    {new : Set ε} (hlayers : ∀ i, ∀ x ∈ layers' i, x ∈ layers i ∨ i = l ∧ x ∈ new)
    (hnew : ∀ x ∈ new, ∀ i, ∀ y ∈ layers i, time y < time x)
    (hclear : ∀ i < l, ∀ x ∈ layers i, ∀ y ∈ new, key x ≠ key y) :
    AgeOrdered key time layers' := by
  intro i j hij x hx y hy hkey
  rcases hlayers i x hx with hx | ⟨rfl, hx⟩
  · rcases hlayers j y hy with hy | ⟨rfl, hy⟩
    · exact h i j hij x hx y hy hkey
    · exact absurd hkey (hclear i hij x hx y hy)
  · rcases hlayers j y hy with hy | ⟨rfl, -⟩
    · exact hnew x hx j y hy
    · exact absurd hij (lt_irrefl _)

/-- **Entries sink** from layer `c` to the next, together with some of that layer. What
stays in layer `c` is newer. -/
theorem AgeOrdered.sink {layers layers' : ℕ → Set ε} (h : AgeOrdered key time layers) {c : ℕ}
    {upper lower stay : Set ε}
    (hlayers : ∀ i, ∀ x ∈ layers' i,
      (x ∈ layers i ∧ (i = c → x ∈ stay)) ∨ i = c + 1 ∧ (x ∈ upper ∨ x ∈ lower))
    (hupper : upper ⊆ layers c) (hlower : lower ⊆ layers (c + 1))
    (hstay : Newer key time stay upper) : AgeOrdered key time layers' := by
  intro i j hij x hx y hy hkey
  rcases hlayers i x hx with ⟨hxold, hxstay⟩ | ⟨rfl, hxsunk⟩
  · rcases hlayers j y hy with ⟨hyold, -⟩ | ⟨rfl, hyupper | hylower⟩
    · exact h i j hij x hxold y hyold hkey
    · rcases Nat.lt_or_eq_of_le (Nat.le_of_lt_succ hij) with hlt | rfl
      · exact h i c hlt x hxold y (hupper hyupper) hkey
      · exact hstay x (hxstay rfl) y hyupper hkey
    · exact h i (c + 1) hij x hxold y (hlower hylower) hkey
  · rcases hlayers j y hy with ⟨hyold, -⟩ | ⟨rfl, -⟩
    · rcases hxsunk with hxupper | hxlower
      · exact h c j (lt_trans (Nat.lt_succ_self c) hij) x (hupper hxupper) y hyold hkey
      · exact h (c + 1) j hij x (hlower hxlower) y hyold hkey
    · exact absurd hij (lt_irrefl _)

/-! ## Reads -/

/-- A read of `k` at time `t` sees `x`. -/
structure IsNewest (key : ε → κ) (time : ε → τ) (entries : Set ε) (k : κ) (t : τ) (x : ε) :
    Prop where
  mem : x ∈ entries
  key_eq : key x = k
  le : time x ≤ t
  newest : ∀ y ∈ entries, key y = k → time y ≤ t → time y ≤ time x

/-- There is a newer entry of the same key, and it is not after `t`. -/
def Hidden (key : ε → κ) (time : ε → τ) (entries : Set ε) (t : τ) (x : ε) : Prop :=
  ∃ y ∈ entries, key y = key x ∧ time x < time y ∧ time y ≤ t

variable {entries kept : Set ε} {k : κ} {t t₀ : τ} {x y : ε}

theorem IsNewest.not_hidden (h : IsNewest key time entries k t x) (ht : t₀ ≤ t) :
    ¬ Hidden key time entries t₀ x := by
  rintro ⟨y, hy, hkey, hlt, hle⟩
  exact absurd (h.newest y hy (hkey.trans h.key_eq) (le_trans hle ht)) (not_le.mpr hlt)

theorem IsNewest.subset (h : IsNewest key time entries k t x) (hkept : kept ⊆ entries)
    (hx : x ∈ kept) : IsNewest key time kept k t x :=
  ⟨hx, h.key_eq, h.le, fun y hy => h.newest y (hkept hy)⟩

/-- The newest entry hides all others that the read could see. -/
theorem IsNewest.hides (h : IsNewest key time entries k t x) (ht : time x ≤ t₀)
    (hkey : key y = k) (hle : time y ≤ t) (hy : y ∈ entries) (hne : time y ≠ time x) :
    Hidden key time entries t₀ y :=
  ⟨x, h.mem, h.key_eq.trans hkey.symm, lt_of_le_of_ne (h.newest y hy hkey hle) hne, ht⟩

/-! ## Reading layer by layer -/

/-- A read of `k` at time `t` gives this: the newest entry, or nothing if all entries of
the key are later. -/
def Reads (key : ε → κ) (time : ε → τ) (entries : Set ε) (k : κ) (t : τ) : Option ε → Prop
  | some x => IsNewest key time entries k t x
  | none => ∀ x ∈ entries, key x = k → t < time x

/-- What a read of `a` finds, a read of `b` could not improve. -/
def Leads (key : ε → κ) (time : ε → τ) (k : κ) (t : τ) (a b : Set ε) : Prop :=
  ∀ x, IsNewest key time a k t x → ∀ y ∈ b, key y = k → time y ≤ t → time y ≤ time x

variable {a b : Set ε} {o o' : Option ε}

theorem Newer.leads (h : Newer key time a b) : Leads key time k t a b := by
  intro x hx y hy hkey _
  exact le_of_lt (h x hx.mem y hy (hx.key_eq.trans hkey.symm))

theorem Leads.refl (a : Set ε) : Leads key time k t a a := fun _ hx => hx.newest

/-- Ask `a` first, and `b` if `a` has nothing. -/
theorem Reads.union (ha : Reads key time a k t o) (hb : Reads key time b k t o')
    (hleads : Leads key time k t a b) : Reads key time (a ∪ b) k t (o.or o') := by
  cases o with
  | some x =>
    refine ⟨Or.inl ha.mem, ha.key_eq, ha.le, ?_⟩
    rintro y (hy | hy) hkey hle
    · exact ha.newest y hy hkey hle
    · exact hleads x ha y hy hkey hle
  | none =>
    cases o' with
    | some x =>
      refine ⟨Or.inr hb.mem, hb.key_eq, hb.le, ?_⟩
      rintro y (hy | hy) hkey hle
      · exact absurd hle (not_le.mpr (ha y hy hkey))
      · exact hb.newest y hy hkey hle
    | none =>
      rintro y (hy | hy) hkey
      · exact ha y hy hkey
      · exact hb y hy hkey

/-- Entries that a read does not need may be left out, where each has a newer one. -/
theorem Reads.superset (h : Reads key time a k t o) (hsub : a ⊆ b)
    (hcovers : ∀ y ∈ b, key y = k → time y ≤ t →
      ∃ x ∈ a, key x = k ∧ time x ≤ t ∧ time y ≤ time x) : Reads key time b k t o := by
  cases o with
  | some x =>
    refine ⟨hsub h.mem, h.key_eq, h.le, ?_⟩
    intro y hy hkey hle
    obtain ⟨z, hz, hzkey, hzle, hyz⟩ := hcovers y hy hkey hle
    exact le_trans hyz (h.newest z hz hzkey hzle)
  | none =>
    intro y hy hkey
    by_contra hle
    obtain ⟨z, hz, hzkey, hzle, -⟩ := hcovers y hy hkey (not_lt.mp hle)
    exact absurd hzle (not_le.mpr (h z hz hzkey))

/-- **Layers can be asked one after the other**, up to the first that has an entry. -/
theorem Reads.findSome? {ι : Type*} {layer : ι → Set ε} {look : ι → Option ε} {l : List ι}
    (hlook : ∀ i ∈ l, Reads key time (layer i) k t (look i))
    (hleads : l.Pairwise fun i j => Leads key time k t (layer i) (layer j)) :
    Reads key time { x | ∃ i ∈ l, x ∈ layer i } k t (l.findSome? look) := by
  induction l with
  | nil =>
    rintro x ⟨i, hi, -⟩
    cases hi
  | cons i l ih =>
    rw [List.pairwise_cons] at hleads
    have hset : { x | ∃ j ∈ i :: l, x ∈ layer j } = layer i ∪ { x | ∃ j ∈ l, x ∈ layer j } := by
      ext x
      simp
    have hor : (i :: l).findSome? look = (look i).or (l.findSome? look) := by
      rw [List.findSome?_cons]
      cases look i <;> rfl
    rw [hset, hor]
    apply Reads.union (hlook i List.mem_cons_self)
    · apply ih _ hleads.2
      exact fun j hj => hlook j (List.mem_cons_of_mem _ hj)
    · rintro x hx y ⟨j, hj, hy⟩ hkey hle
      exact hleads.1 j hj x hx y hy hkey hle

end Lpad
