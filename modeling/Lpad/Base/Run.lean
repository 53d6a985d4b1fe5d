import Mathlib.Data.List.Induction
import Mathlib.Logic.Function.Basic

/-!
# Runs of a transition system

A system is a partial step function: `step s a` is the state after action `a`,
`none` when `a` is not enabled in `s`. A run is a list of actions, and an
interleaving of several parties is a list of actions that carry who acts.

`runs_induction` is the rule every whole-run property below goes through: the
motive may look at the actions taken so far.
-/

namespace Lpad

variable {σ α : Type*} {step : σ → α → Option σ}

def runs (step : σ → α → Option σ) : σ → List α → Option σ
  | s, [] => some s
  | s, a :: as => (step s a).bind fun t => runs step t as

theorem runs_append (s : σ) (as bs : List α) :
    runs step s (as ++ bs) = (runs step s as).bind fun t => runs step t bs := by
  induction as generalizing s with
  | nil => rfl
  | cons a as ih =>
    cases h : step s a with
    | none => simp [runs, h]
    | some t => simp [runs, h, ih]

theorem runs_snoc {s t : σ} {as : List α} {a : α} :
    runs step s (as ++ [a]) = some t ↔ ∃ u, runs step s as = some u ∧ step u a = some t := by
  rw [runs_append, Option.bind_eq_some_iff]
  constructor
  · rintro ⟨u, hu, ht⟩
    refine ⟨u, hu, ?_⟩
    simpa [runs] using ht
  · rintro ⟨u, hu, ht⟩
    exact ⟨u, hu, by simp [runs, ht]⟩

/-- A prefix of a run is a run. -/
theorem runs_of_append {s t : σ} {as bs : List α} (h : runs step s (as ++ bs) = some t) :
    ∃ u, runs step s as = some u ∧ runs step u bs = some t := by
  rw [runs_append, Option.bind_eq_some_iff] at h
  exact h

/-- **Induction along a run**, last action first. -/
theorem runs_induction {s : σ} {P : List α → σ → Prop} (hnil : P [] s)
    (hsnoc : ∀ as u a t, runs step s as = some u → P as u → step u a = some t →
      P (as ++ [a]) t) :
    ∀ as t, runs step s as = some t → P as t := by
  intro as
  induction as using List.reverseRecOn with
  | nil =>
    intro t h
    rw [← Option.some.inj h]
    exact hnil
  | append_singleton as a ih =>
    intro t h
    obtain ⟨u, hu, ht⟩ := runs_snoc.mp h
    exact hsnoc as u a t hu (ih u hu) ht

/-- An invariant of the steps holds wherever a run leads. -/
theorem runs_invariant {P : σ → Prop} (hstep : ∀ s a t, P s → step s a = some t → P t)
    {s t : σ} {as : List α} (hs : P s) (h : runs step s as = some t) : P t :=
  runs_induction (P := fun _ u => P u) hs (fun _ u a v _ hu hv => hstep u a v hu hv) as t h

/-- A thread after another one has moved is where it was. -/
theorem update_thread_cases {β : Type*} {threads : Nat → β} {t t' : Nat} {th th' : β}
    (h : Function.update threads t th t' = th') :
    (t' = t ∧ th = th') ∨ (t' ≠ t ∧ threads t' = th') := by
  by_cases ht : t' = t
  · subst ht
    rw [Function.update_self] at h
    exact Or.inl ⟨rfl, h⟩
  · rw [Function.update_of_ne ht] at h
    exact Or.inr ⟨ht, h⟩

/-! ## Runs whose steps meet a condition -/

/-- Each action is taken in a state where the condition on the two holds. -/
def RunMeets (step : σ → α → Option σ) (C : σ → α → Prop) : σ → List α → Prop
  | _, [] => True
  | s, a :: as => C s a ∧ (step s a).elim True fun t => RunMeets step C t as

theorem RunMeets.cons {C : σ → α → Prop} {s : σ} {a : α} {as : List α} (hc : C s a)
    (h : ∀ t, step s a = some t → RunMeets step C t as) : RunMeets step C s (a :: as) := by
  refine ⟨hc, ?_⟩
  cases ht : step s a with
  | none => trivial
  | some t => exact h t ht

instance decidableElimTrue {o : Option σ} {P : σ → Prop} [∀ t, Decidable (P t)] :
    Decidable (o.elim True P) :=
  match o with
  | none => isTrue trivial
  | some t => inferInstanceAs (Decidable (P t))

instance RunMeets.decidable {C : σ → α → Prop} [∀ s a, Decidable (C s a)] :
    ∀ (as : List α) (s : σ), Decidable (RunMeets step C s as)
  | [], _ => isTrue trivial
  | a :: as, s =>
    have : ∀ t, Decidable (RunMeets step C t as) := RunMeets.decidable as
    inferInstanceAs (Decidable (C s a ∧ (step s a).elim True fun t => RunMeets step C t as))

/-- The condition holds at every action that a prefix of the run leads to. -/
theorem runMeets_iff {C : σ → α → Prop} : ∀ {as : List α} {s : σ},
    RunMeets step C s as ↔
      ∀ done a rest u, as = done ++ a :: rest → runs step s done = some u → C u a
  | [], s => by simp [RunMeets]
  | b :: as, s => by
    constructor
    · rintro ⟨hb, hmeets⟩ done a rest u hsplit hu
      cases done with
      | nil =>
        cases hsplit
        rw [← Option.some.inj hu]
        exact hb
      | cons _ done =>
        cases hsplit
        obtain ⟨t, ht, hu⟩ := Option.bind_eq_some_iff.mp hu
        rw [ht] at hmeets
        exact runMeets_iff.mp hmeets done a rest u rfl hu
    · intro h
      refine RunMeets.cons (h [] b as s rfl rfl) fun t ht => ?_
      refine runMeets_iff.mpr fun done a rest u hsplit hu => ?_
      refine h (b :: done) a rest u (by rw [hsplit, List.cons_append]) ?_
      simp [runs, ht, hu]

/-- Actions that do not occur are taken nowhere. -/
theorem RunMeets.of_notMem {ι : Type*} {f : ι → α} {s : σ} {as : List α}
    (h : ∀ i, f i ∉ as) : RunMeets step (fun _ a => ∀ i, a ≠ f i) s as := by
  rw [runMeets_iff]
  rintro done a rest _ rfl _ i rfl
  exact h i (List.mem_append_right _ List.mem_cons_self)

/-- A prefix of a run meets what the run meets. -/
theorem RunMeets.of_append {C : σ → α → Prop} {s : σ} {as bs : List α}
    (h : RunMeets step C s (as ++ bs)) : RunMeets step C s as := by
  rw [runMeets_iff] at h ⊢
  intro done a rest u hsplit hu
  exact h done a (rest ++ bs) u (by rw [hsplit, List.append_assoc, List.cons_append]) hu

theorem RunMeets.snoc {C : σ → α → Prop} {s : σ} {as : List α} {a : α}
    (h : RunMeets step C s as) (ha : ∀ t, runs step s as = some t → C t a) :
    RunMeets step C s (as ++ [a]) := by
  rw [runMeets_iff] at h ⊢
  intro done b rest u hsplit hu
  rcases List.eq_nil_or_concat rest with rfl | ⟨rest, c, rfl⟩
  · obtain ⟨rfl, hb⟩ := List.append_inj' hsplit rfl
    cases hb
    exact ha u hu
  · rw [List.concat_eq_append, ← List.cons_append, ← List.append_assoc] at hsplit
    obtain ⟨rfl, -⟩ := List.append_inj' hsplit rfl
    exact h done b rest u rfl hu

theorem RunMeets.mono {C D : σ → α → Prop} (h : ∀ s a, C s a → D s a) {s : σ} {as : List α}
    (hc : RunMeets step C s as) : RunMeets step D s as := by
  rw [runMeets_iff] at hc ⊢
  exact fun done a rest u hsplit hu => h u a (hc done a rest u hsplit hu)

theorem RunMeets.and {C D : σ → α → Prop} {s : σ} {as : List α} (hc : RunMeets step C s as)
    (hd : RunMeets step D s as) : RunMeets step (fun s a => C s a ∧ D s a) s as := by
  rw [runMeets_iff] at hc hd ⊢
  exact fun done a rest u hsplit hu =>
    ⟨hc done a rest u hsplit hu, hd done a rest u hsplit hu⟩

/-- An invariant of the steps that meet a condition. -/
theorem RunMeets.invariant {C : σ → α → Prop} {P : σ → Prop}
    (hstep : ∀ s a t, P s → C s a → step s a = some t → P t) {t : σ} :
    ∀ {as : List α} {s : σ}, P s → RunMeets step C s as → runs step s as = some t → P t
  | [], s, hs, _, h => by
    rw [← Option.some.inj h]
    exact hs
  | a :: as, s, hs, hmeets, h => by
    obtain ⟨u, hu, hrest⟩ := Option.bind_eq_some_iff.mp h
    obtain ⟨hc, hmeets⟩ := hmeets
    rw [hu] at hmeets
    exact RunMeets.invariant hstep (hstep s a u hs hc hu) hmeets hrest

/-! ## Calls and answers -/

section Answers

variable {β : Type*}

/-- The answers to calls made one after the other. -/
def answers (call : σ → α → Option (σ × β)) : σ → List α → Option (List β)
  | _, [] => some []
  | s, a :: as => (call s a).bind fun (t, b) => (answers call t as).map (b :: ·)

/-- Each state that the calls lead to meets the condition. -/
def StatesMeet (call : σ → α → Option (σ × β)) (C : σ → Prop) : σ → List α → Prop
  | _, [] => True
  | s, a :: as =>
    match call s a with
    | none => True
    | some (t, _) => C t ∧ StatesMeet call C t as

instance decidableStatesMeet (call : σ → α → Option (σ × β)) (C : σ → Prop) [DecidablePred C] :
    ∀ s as, Decidable (StatesMeet call C s as)
  | _, [] => isTrue trivial
  | s, a :: as => by
    unfold StatesMeet
    cases call s a with
    | none => exact isTrue trivial
    | some p =>
      have := decidableStatesMeet call C p.1 as
      exact inferInstanceAs (Decidable (_ ∧ _))

end Answers

/-! ## Counting loops -/

/-- **The rule for a counting loop**: what one round takes from `i` to `i + 1`, the loop takes
from its first to its last index. -/
theorem foldl_range'_induction {f : σ → ℕ → σ} {P : ℕ → σ → Prop} {a n : ℕ} {s : σ}
    (h : P a s) (hround : ∀ i s, a ≤ i → i < a + n → P i s → P (i + 1) (f s i)) :
    P (a + n) ((List.range' a n).foldl f s) := by
  induction n with
  | zero => exact h
  | succ n ih =>
    rw [List.range'_concat, List.foldl_append, Nat.one_mul]
    apply hround (a + n) _ (Nat.le_add_right _ _) (Nat.lt_succ_self _)
    apply ih
    intro i s hle hlt
    exact hround i s hle (Nat.lt_succ_of_lt hlt)

/-- The same for a loop that starts at 0. -/
theorem foldl_range_induction {f : σ → ℕ → σ} {P : ℕ → σ → Prop} {n : ℕ} {s : σ} (h : P 0 s)
    (hround : ∀ i s, i < n → P i s → P (i + 1) (f s i)) : P n ((List.range n).foldl f s) := by
  have hloop := foldl_range'_induction (n := n) h fun i s _ hlt =>
    hround i s (by rwa [Nat.zero_add] at hlt)
  rwa [Nat.zero_add, ← List.range_eq_range'] at hloop

end Lpad
