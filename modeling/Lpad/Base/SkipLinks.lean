import Mathlib.Data.Finset.Card
import Mathlib.Order.Defs.LinearOrder

/-!
# Linked lists one above the other

The links of a skip list, without the memory that they are stored in. A node is on the levels
below its height and the head is on all of them. On each level the link of a place leads to
the next node of that level in the order of the ranks, and a node is put in by the links of
its predecessors alone (`Linked.insert`). Following the links of a level lists its nodes in
order (`Linked.walk`).

A link that a place does not have, because it is not that high, reads as `none`; `some none`
is the end of a level.
-/

namespace Lpad

/-- Where a link can start. -/
inductive Place (N : Type*) where
  | head
  | node (i : N)
deriving DecidableEq, Repr

namespace Skip

variable {N : Type*} {κ : Type*} [LinearOrder κ]

/-- The node comes after the place. -/
def Behind (rank : N → κ) : Place N → N → Prop
  | .head, _ => True
  | .node j, i => rank j < rank i

/-- The place is on level `ℓ`. -/
def On (height : Nat) (on : Nat → N → Prop) (ℓ : Nat) : Place N → Prop
  | .head => ℓ < height
  | .node i => on ℓ i

/-- The first node of a set, or `none` if there is none. -/
def FirstOf (rank : N → κ) (S : N → Prop) : Option N → Prop
  | none => ∀ i, ¬ S i
  | some i => S i ∧ ∀ j, S j → rank i ≤ rank j

structure Linked (height : Nat) (on : Nat → N → Prop) (rank : N → κ)
    (next : Place N → Nat → Option (Option N)) : Prop where
  lower : ∀ ℓ i, on (ℓ + 1) i → on ℓ i
  bounded : ∀ ℓ i, on ℓ i → ℓ < height
  distinct : ∀ i j, on 0 i → on 0 j → rank i = rank j → i = j
  link : ∀ ℓ x, On height on ℓ x →
    ∃ n, next x ℓ = some n ∧ FirstOf rank (fun i => on ℓ i ∧ Behind rank x i) n

/-- The last place of a level with a rank in `P`. -/
structure LastOn (height : Nat) (on : Nat → N → Prop) (rank : N → κ) (P : κ → Prop) (ℓ : Nat)
    (x : Place N) : Prop where
  on_level : On height on ℓ x
  mem : ∀ i, x = .node i → P (rank i)
  last : ∀ j, on ℓ j → P (rank j) → ¬ Behind rank x j

variable {height : Nat} {on : Nat → N → Prop} {rank : N → κ} {P : κ → Prop} {ℓ : Nat} {x : Place N}
  {next : Place N → Nat → Option (Option N)} {n : Option N} {i : N}

theorem Linked.bottom (h : Linked height on rank next) (hi : on ℓ i) : on 0 i := by
  induction ℓ with
  | zero => exact hi
  | succ ℓ ih => exact ih (h.lower ℓ i hi)

theorem Linked.on_lower (h : Linked height on rank next) (hx : On height on (ℓ + 1) x) :
    On height on ℓ x := by
  cases x with
  | head => exact Nat.lt_of_succ_lt hx
  | node i => exact h.lower ℓ i hx

theorem Linked.firstOf (h : Linked height on rank next) (hx : On height on ℓ x)
    (hn : next x ℓ = some n) : FirstOf rank (fun i => on ℓ i ∧ Behind rank x i) n := by
  obtain ⟨n', hn', hfirst⟩ := h.link ℓ x hx
  rwa [Option.some.inj (hn.symm.trans hn')]

/-- The ranks matter on the nodes only. -/
theorem Linked.congr (h : Linked height on rank next) {rank' : N → κ}
    (hrank : ∀ i, on 0 i → rank' i = rank i) : Linked height on rank' next where
  lower := h.lower
  bounded := h.bounded
  distinct := by
    intro i j hi hj heq
    rw [hrank i hi, hrank j hj] at heq
    exact h.distinct i j hi hj heq
  link := by
    intro ℓ x hx
    obtain ⟨n, hn, hfirst⟩ := h.link ℓ x hx
    have hbehind : ∀ i, on ℓ i → (Behind rank' x i ↔ Behind rank x i) := by
      intro i hi
      cases x with
      | head => exact Iff.rfl
      | node j => rw [Behind, Behind, hrank i (h.bottom hi), hrank j (h.bottom hx)]
    refine ⟨n, hn, ?_⟩
    cases n with
    | none =>
      rintro i ⟨hi, hxi⟩
      exact hfirst i ⟨hi, (hbehind i hi).mp hxi⟩
    | some i =>
      obtain ⟨⟨hi, hxi⟩, hle⟩ := hfirst
      refine ⟨⟨hi, (hbehind i hi).mpr hxi⟩, ?_⟩
      rintro j ⟨hj, hxj⟩
      rw [hrank i (h.bottom hi), hrank j (h.bottom hj)]
      exact hle j ⟨hj, (hbehind j hj).mp hxj⟩

theorem LastOn.congr (hl : Linked height on rank next) (h : LastOn height on rank P ℓ x)
    {rank' : N → κ} (hrank : ∀ i, on 0 i → rank' i = rank i) : LastOn height on rank' P ℓ x := by
  cases x with
  | head =>
    refine ⟨h.on_level, nofun, ?_⟩
    intro j hj hPj
    rw [hrank j (hl.bottom hj)] at hPj
    exact h.last j hj hPj
  | node i =>
    have hi := hrank i (hl.bottom h.on_level)
    refine ⟨h.on_level, ?_, ?_⟩
    · rintro _ ⟨⟩
      rw [hi]
      exact h.mem i rfl
    · intro j hj hPj
      rw [hrank j (hl.bottom hj)] at hPj
      rw [Behind, hi, hrank j (hl.bottom hj)]
      exact h.last j hj hPj

/-! ## Search -/

/-- A search for the end of a lower set `P` stops on a level when the link leads out of `P`. -/
theorem Linked.lastOn (h : Linked height on rank next) (hP : ∀ a b, a ≤ b → P b → P a)
    (hx : On height on ℓ x) (hmem : ∀ i, x = .node i → P (rank i)) (hn : next x ℓ = some n)
    (hstop : ∀ i, n = some i → ¬ P (rank i)) : LastOn height on rank P ℓ x := by
  refine ⟨hx, hmem, ?_⟩
  intro j hj hPj hbehind
  have hfirst := h.firstOf hx hn
  cases n with
  | none => exact hfirst j ⟨hj, hbehind⟩
  | some i => exact hstop i rfl (hP _ _ (hfirst.2 j ⟨hj, hbehind⟩) hPj)

/-- On the lowest level the link leads to the first node that is not in `P`. -/
theorem LastOn.firstOf_not (h : Linked height on rank next) (hP : ∀ a b, a ≤ b → P b → P a)
    (hlast : LastOn height on rank P 0 x) (hn : next x 0 = some n)
    (hstop : ∀ i, n = some i → ¬ P (rank i)) :
    FirstOf rank (fun i => on 0 i ∧ ¬ P (rank i)) n := by
  have hfirst := h.firstOf hlast.on_level hn
  have hbehind : ∀ j, ¬ P (rank j) → Behind rank x j := by
    intro j hj
    cases x with
    | head => trivial
    | node i => exact not_le.mp fun hle => hj (hP _ _ hle (hlast.mem i rfl))
  cases n with
  | none =>
    rintro j ⟨hon, hj⟩
    exact hfirst j ⟨hon, hbehind j hj⟩
  | some i =>
    refine ⟨⟨hfirst.1.1, hstop i rfl⟩, ?_⟩
    rintro j ⟨hon, hj⟩
    exact hfirst.2 j ⟨hon, hbehind j hj⟩

instance decidableBehind (rank : N → κ) : (x : Place N) → DecidablePred (Behind rank x)
  | .head, _ => isTrue trivial
  | .node j, i => inferInstanceAs (Decidable (rank j < rank i))

/-- A search comes nearer to the end with every node. -/
theorem card_behind_lt {s : Finset N} (hi : i ∈ s) (hbehind : Behind rank x i) :
    (s.filter (Behind rank (.node i))).card < (s.filter (Behind rank x)).card := by
  apply Finset.card_lt_card
  refine ⟨?_, ?_⟩
  · intro j hj
    rw [Finset.mem_filter] at hj ⊢
    refine ⟨hj.1, ?_⟩
    cases x with
    | head => trivial
    | node k => exact lt_trans (show rank k < rank i from hbehind) hj.2
  · intro hsub
    have hmem := hsub (Finset.mem_filter.mpr ⟨hi, hbehind⟩)
    exact lt_irrefl (rank i) (Finset.mem_filter.mp hmem).2

/-! ## A new node -/

section Insert

variable {z : N} {h : Nat} {prev : Nat → Place N} {next' : Place N → Nat → Option (Option N)}

/-- The links after `z` was put in behind `prev` on the levels below `h`. -/
structure Spliced (next next' : Place N → Nat → Option (Option N)) (z : N) (h : Nat)
    (prev : Nat → Place N) : Prop where
  new : ∀ ℓ < h, next' (.node z) ℓ = next (prev ℓ) ℓ
  before : ∀ ℓ < h, next' (prev ℓ) ℓ = some (some z)
  other : ∀ ℓ x, x ≠ .node z → (ℓ < h → x ≠ prev ℓ) → next' x ℓ = next x ℓ

/-- The levels with it. -/
def withNode (on : Nat → N → Prop) (z : N) (h ℓ : Nat) (i : N) : Prop := on ℓ i ∨ i = z ∧ ℓ < h

/-- The first node behind `prev` is the first one behind the new node. -/
theorem LastOn.behind_iff (hlast : LastOn height on rank (· < rank z) ℓ x)
    (hne : ∀ i, on ℓ i → rank i ≠ rank z) (hi : on ℓ i) :
    Behind rank x i ↔ rank z < rank i := by
  constructor
  · intro hbehind
    have hnot : ¬ rank i < rank z := fun hlt => hlast.last i hi hlt hbehind
    exact lt_of_le_of_ne (not_lt.mp hnot) (hne i hi).symm
  · intro hlt
    cases x with
    | head => trivial
    | node j => exact lt_trans (hlast.mem j rfl) hlt

/-- On a level without the new node, and in front of a place that is not its predecessor, the
first node behind is the old one. -/
theorem firstOf_withNode (hfirst : FirstOf rank (fun i => on ℓ i ∧ Behind rank x i) n)
    (hz : ℓ < h → Behind rank x z → ∃ j, on ℓ j ∧ Behind rank x j ∧ rank j ≤ rank z) :
    FirstOf rank (fun i => withNode on z h ℓ i ∧ Behind rank x i) n := by
  cases n with
  | none =>
    rintro i ⟨hi | ⟨rfl, hlt⟩, hbehind⟩
    · exact hfirst i ⟨hi, hbehind⟩
    · obtain ⟨j, hj, hxj, -⟩ := hz hlt hbehind
      exact hfirst j ⟨hj, hxj⟩
  | some i =>
    obtain ⟨⟨hi, hxi⟩, hle⟩ := hfirst
    refine ⟨⟨Or.inl hi, hxi⟩, ?_⟩
    rintro k ⟨hk | ⟨rfl, hlt⟩, hxk⟩
    · exact hle k ⟨hk, hxk⟩
    · obtain ⟨j, hj, hxj, hjz⟩ := hz hlt hxk
      exact (hle j ⟨hj, hxj⟩).trans hjz

/-- **A node is put in** behind its predecessors on the levels below its height. -/
theorem Linked.insert (hl : Linked height on rank next) (hz : ∀ ℓ, ¬ on ℓ z)
    (hne : ∀ i, on 0 i → rank i ≠ rank z) (hh : h ≤ height)
    (hprev : ∀ ℓ < h, LastOn height on rank (· < rank z) ℓ (prev ℓ))
    (hs : Spliced next next' z h prev) : Linked height (withNode on z h) rank next' where
  lower := by
    rintro ℓ i (hi | ⟨rfl, hlt⟩)
    · exact Or.inl (hl.lower ℓ i hi)
    · exact Or.inr ⟨rfl, Nat.lt_of_succ_lt hlt⟩
  bounded := by
    rintro ℓ i (hi | ⟨rfl, hlt⟩)
    · exact hl.bounded ℓ i hi
    · exact hlt.trans_le hh
  distinct := by
    rintro i j (hi | ⟨rfl, -⟩) (hj | ⟨rfl, -⟩) heq
    · exact hl.distinct i j hi hj heq
    · exact absurd heq (hne i hi)
    · exact absurd heq.symm (hne j hj)
    · rfl
  link := by
    intro ℓ x hx
    have hneℓ : ∀ i, on ℓ i → rank i ≠ rank z := fun i hi => hne i (hl.bottom hi)
    by_cases hxz : x = .node z
    · -- the new node has the link of its predecessor
      subst hxz
      have hlt : ℓ < h := by
        rcases hx with hold | ⟨-, hlt⟩
        · exact absurd hold (hz ℓ)
        · exact hlt
      have hlast := hprev ℓ hlt
      obtain ⟨n, hn, hfirst⟩ := hl.link ℓ (prev ℓ) hlast.on_level
      refine ⟨n, (hs.new ℓ hlt).trans hn, firstOf_withNode ?_ ?_⟩
      · cases n with
        | none =>
          rintro i ⟨hi, hzi⟩
          exact hfirst i ⟨hi, (hlast.behind_iff hneℓ hi).mpr hzi⟩
        | some i =>
          obtain ⟨⟨hi, hpi⟩, hle⟩ := hfirst
          refine ⟨⟨hi, (hlast.behind_iff hneℓ hi).mp hpi⟩, ?_⟩
          rintro j ⟨hj, hzj⟩
          exact hle j ⟨hj, (hlast.behind_iff hneℓ hj).mpr hzj⟩
      · exact fun _ hzz => absurd hzz (lt_irrefl _)
    · have hold : On height on ℓ x := by
        cases x with
        | head => exact hx
        | node i =>
          rcases hx with hi | ⟨rfl, -⟩
          · exact hi
          · exact absurd rfl hxz
      obtain ⟨n, hn, hfirst⟩ := hl.link ℓ x hold
      by_cases hxp : ℓ < h ∧ x = prev ℓ
      · -- its predecessor leads to it
        obtain ⟨hlt, rfl⟩ := hxp
        have hlast := hprev ℓ hlt
        refine ⟨some z, hs.before ℓ hlt, ⟨Or.inr ⟨rfl, hlt⟩, ?_⟩, ?_⟩
        · cases hp : prev ℓ with
          | head => trivial
          | node j => exact hlast.mem j hp
        · rintro j ⟨hj | ⟨rfl, -⟩, hbehind⟩
          · exact ((hlast.behind_iff hneℓ hj).mp hbehind).le
          · exact le_rfl
      · -- between any other place and the new node there is the predecessor
        refine ⟨n, (hs.other ℓ x hxz fun hlt heq => hxp ⟨hlt, heq⟩).trans hn,
          firstOf_withNode hfirst ?_⟩
        intro hlt hxz'
        have hlast := hprev ℓ hlt
        have hxprev : x ≠ prev ℓ := fun heq => hxp ⟨hlt, heq⟩
        cases hp : prev ℓ with
        | head =>
          cases x with
          | head => exact absurd hp.symm hxprev
          | node i =>
            have hnot := hlast.last i hold hxz'
            rw [hp] at hnot
            exact absurd trivial hnot
        | node j =>
          have hj : on ℓ j := by
            have hon := hlast.on_level
            rwa [hp] at hon
          refine ⟨j, hj, ?_, (hlast.mem j hp).le⟩
          cases x with
          | head => trivial
          | node i =>
            have hnot : ¬ rank j < rank i := by
              have hnot := hlast.last i hold hxz'
              rwa [hp] at hnot
            apply lt_of_le_of_ne (not_lt.mp hnot)
            intro heq
            apply hxprev
            rw [hp, hl.distinct i j (hl.bottom hold) (hl.bottom hj) heq]

end Insert

/-! ## The list of a level -/

/-- Following the links of a level. -/
def Walk (next : Place N → Nat → Option (Option N)) (ℓ : Nat) : Option N → List N → Prop
  | none, [] => True
  | some i, j :: l => i = j ∧ ∃ n, next (.node i) ℓ = some n ∧ Walk next ℓ n l
  | _, _ => False

/-- The nodes behind a place, when these are a sorted list. -/
theorem Linked.walk_behind (h : Linked height on rank next) [DecidablePred (on ℓ)] {l : List N}
    (hsorted : l.Pairwise fun i j => rank i < rank j)
    (hmem : ∀ i, on ℓ i → (Behind rank x i ↔ i ∈ l))
    (hfirst : FirstOf rank (fun i => on ℓ i ∧ Behind rank x i) n) :
    Walk next ℓ n (l.filter (on ℓ ·)) := by
  induction l generalizing x n with
  | nil =>
    cases n with
    | none => trivial
    | some i => exact absurd ((hmem i hfirst.1.1).mp hfirst.1.2) List.not_mem_nil
  | cons a l ih =>
    obtain ⟨hhead, htail⟩ := List.pairwise_cons.mp hsorted
    by_cases ha : on ℓ a
    · have hxa : Behind rank x a := (hmem a ha).mpr List.mem_cons_self
      rw [List.filter_cons_of_pos (by simpa using ha)]
      cases n with
      | none => exact absurd ⟨ha, hxa⟩ (hfirst a)
      | some i =>
        obtain ⟨⟨hi, hxi⟩, hle⟩ := hfirst
        have hia : i = a := by
          rcases List.mem_cons.mp ((hmem i hi).mp hxi) with rfl | hil
          · rfl
          · exact absurd (hhead i hil) (not_lt.mpr (hle a ⟨ha, hxa⟩))
        subst hia
        obtain ⟨n, hn, hfirst⟩ := h.link ℓ (.node i) hi
        refine ⟨rfl, n, hn, ih htail ?_ hfirst⟩
        intro j hj
        constructor
        · intro hij
          have hxj : Behind rank x j := by
            cases x with
            | head => trivial
            | node k => exact lt_trans (show rank k < rank i from hxi) hij
          rcases List.mem_cons.mp ((hmem j hj).mp hxj) with rfl | hjl
          · exact absurd hij (lt_irrefl _)
          · exact hjl
        · exact hhead j
    · rw [List.filter_cons_of_neg (by simpa using ha)]
      apply ih htail _ hfirst
      intro j hj
      rw [hmem j hj, List.mem_cons]
      constructor
      · rintro (rfl | hjl)
        · exact absurd hj ha
        · exact hjl
      · exact Or.inr

/-- **A level in order.** -/
theorem Linked.walk (h : Linked height on rank next) [DecidablePred (on ℓ)] (hℓ : ℓ < height)
    {l : List N} (hsorted : l.Pairwise fun i j => rank i < rank j) (hmem : ∀ i, on 0 i ↔ i ∈ l) :
    ∃ n, next .head ℓ = some n ∧ Walk next ℓ n (l.filter (on ℓ ·)) := by
  obtain ⟨n, hn, hfirst⟩ := h.link ℓ .head hℓ
  refine ⟨n, hn, h.walk_behind hsorted ?_ hfirst⟩
  exact fun i hi => iff_of_true trivial ((hmem i).mp (h.bottom hi))

end Skip

end Lpad
