import Mathlib.Data.Nat.Bitwise
import Mathlib.Tactic.Ring

/-!
# Perfect trees in a binary counter

A sequence of messages is kept as perfect trees of different heights, at most one of each
height, the older ones higher. A new message is a tree of height 0. Where a tree of the
same height is already there, the two make one of the next height. So the trees are the
binary digits of the number of messages (`Commits.slotHolds`), and from high to low
they cover all messages in order (`flatMap_slotBlock`).
-/

namespace Lpad

variable {μ α : Type*} {leaf : μ → α} {combine : α → α → α}

/-- The root of the perfect tree of a height over some messages. -/
inductive PerfectRoot (leaf : μ → α) (combine : α → α → α) : ℕ → List μ → α → Prop
  | leaf (m : μ) : PerfectRoot leaf combine 0 [m] (leaf m)
  | node {i : ℕ} {xs ys : List μ} {l r : α} :
      PerfectRoot leaf combine i xs l → PerfectRoot leaf combine i ys r →
        PerfectRoot leaf combine (i + 1) (xs ++ ys) (combine l r)

/-- A tree is added to the slots. It is the right side of each tree it meets. -/
def carryInto (combine : α → α → α) (carry : α) : List (Option α) → List (Option α)
  | [] => []
  | none :: rest => some carry :: rest
  | some l :: rest => none :: carryInto combine (combine l carry) rest

/-- The slots from height `i` on commit to these messages: the first slot to the last of
them, if it is not empty. -/
inductive Commits (leaf : μ → α) (combine : α → α → α) : ℕ → List μ → List (Option α) → Prop
  | nil (i : ℕ) : Commits leaf combine i [] []
  | empty {i : ℕ} {ms : List μ} {rest : List (Option α)} :
      Commits leaf combine (i + 1) ms rest → Commits leaf combine i ms (none :: rest)
  | full {i : ℕ} {ms block : List μ} {rest : List (Option α)} {root : α} :
      Commits leaf combine (i + 1) ms rest → PerfectRoot leaf combine i block root →
        Commits leaf combine i (ms ++ block) (some root :: rest)

theorem length_carryInto (carry : α) (slots : List (Option α)) :
    (carryInto combine carry slots).length = slots.length := by
  induction slots generalizing carry with
  | nil => rfl
  | cons slot rest ih =>
    cases slot with
    | none => rfl
    | some l => exact congrArg Nat.succ (ih (combine l carry))

theorem PerfectRoot.length_eq {i : ℕ} {ms : List μ} {root : α}
    (h : PerfectRoot leaf combine i ms root) : ms.length = 2 ^ i := by
  induction h with
  | leaf m => rfl
  | node hl hr ihl ihr => rw [List.length_append, ihl, ihr, pow_succ, mul_two]

theorem Commits.replicate (n i : ℕ) : Commits leaf combine i [] (List.replicate n none) := by
  induction n generalizing i with
  | zero => exact .nil i
  | succ n ih => exact .empty (ih (i + 1))

/-- **One more tree.** There is room for it as long as not all slots are full. -/
theorem Commits.carryInto {i : ℕ} {ms block : List μ} {slots : List (Option α)} {carry : α}
    (h : Commits leaf combine i ms slots) (hroot : PerfectRoot leaf combine i block carry)
    (hroom : ms.length + 2 ^ i < 2 ^ (i + slots.length)) :
    Commits leaf combine i (ms ++ block) (carryInto combine carry slots) := by
  induction h generalizing block carry with
  | nil i =>
    rw [List.length_nil, List.length_nil, Nat.add_zero, Nat.zero_add] at hroom
    exact absurd hroom (lt_irrefl _)
  | empty hrest ih => exact .full hrest hroot
  | @full i ms older rest l hrest holder ih =>
    rw [List.append_assoc]
    apply Commits.empty
    apply ih (holder.node hroot)
    rw [List.length_append, holder.length_eq, List.length_cons] at hroom
    calc ms.length + 2 ^ (i + 1) = ms.length + 2 ^ i + 2 ^ i := by ring
      _ < 2 ^ (i + (rest.length + 1)) := hroom
      _ = 2 ^ (i + 1 + rest.length) := by ring

/-! ## The digits of the number of messages -/

/-- The messages of the tree of height `i`: those that follow the trees of larger
heights. -/
def slotBlock (ms : List μ) (i : ℕ) : List μ :=
  (ms.drop (ms.length / 2 ^ (i + 1) * 2 ^ (i + 1))).take (2 ^ i)

/-- What the slot of height `i` holds after some messages. -/
def SlotHolds (leaf : μ → α) (combine : α → α → α) (ms : List μ) (i : ℕ) : Option α → Prop
  | none => ms.length.testBit i = false
  | some root => ms.length.testBit i = true ∧ PerfectRoot leaf combine i (slotBlock ms i) root

theorem div_two_pow_succ (n i : ℕ) :
    n / 2 ^ i = n / 2 ^ (i + 1) * 2 + if n.testBit i then 1 else 0 := by
  rw [pow_succ, ← Nat.div_div_eq_div_mul, Nat.testBit_eq_decide_div_mod_eq]
  rcases Nat.mod_two_eq_zero_or_one (n / 2 ^ i) with hmod | hmod
  · rw [hmod, if_neg (by decide)]
    omega
  · rw [hmod, if_pos (by decide)]
    omega

/-- Where the block of height `i` ends. -/
theorem div_two_pow_mul (n i : ℕ) :
    n / 2 ^ i * 2 ^ i =
      n / 2 ^ (i + 1) * 2 ^ (i + 1) + if n.testBit i then 2 ^ i else 0 := by
  rw [div_two_pow_succ, pow_succ]
  split <;> ring

/-- A tree of height `i` after trees that are all higher changes none of their digits. -/
theorem add_two_pow_div {n i k : ℕ} (hdvd : 2 ^ (i + 1) ∣ n) (hk : i + 1 ≤ k) :
    (n + 2 ^ i) / 2 ^ k = n / 2 ^ k := by
  obtain ⟨q, rfl⟩ := hdvd
  obtain ⟨d, rfl⟩ := Nat.exists_eq_add_of_le hk
  have hlt : 2 ^ i < 2 ^ (i + 1) := Nat.pow_lt_pow_succ (by decide)
  rw [pow_add 2 (i + 1) d, ← Nat.div_div_eq_div_mul, ← Nat.div_div_eq_div_mul,
    Nat.mul_add_div (Nat.two_pow_pos _), Nat.div_eq_of_lt hlt,
    Nat.mul_div_cancel_left _ (Nat.two_pow_pos _), Nat.add_zero]

theorem Commits.two_pow_dvd {i : ℕ} {ms : List μ} {slots : List (Option α)}
    (h : Commits leaf combine i ms slots) : 2 ^ i ∣ ms.length := by
  induction h with
  | nil i => exact Nat.dvd_zero _
  | @empty i _ _ _ ih => exact dvd_trans (Nat.pow_dvd_pow 2 (Nat.le_succ i)) ih
  | @full i _ _ _ _ _ hroot ih =>
    rw [List.length_append, hroot.length_eq]
    exact (Nat.dvd_add_right (dvd_trans (Nat.pow_dvd_pow 2 (Nat.le_succ i)) ih)).mpr dvd_rfl

theorem testBit_congr {m n k : ℕ} (h : m / 2 ^ k = n / 2 ^ k) : m.testBit k = n.testBit k := by
  rw [Nat.testBit_eq_decide_div_mod_eq, Nat.testBit_eq_decide_div_mod_eq, h]

/-- Higher slots are as before. -/
theorem SlotHolds.append {ms block : List μ} {i k : ℕ} {slot : Option α}
    (h : SlotHolds leaf combine ms k slot) (hdvd : 2 ^ (i + 1) ∣ ms.length)
    (hblock : block.length = 2 ^ i) (hk : i + 1 ≤ k) :
    SlotHolds leaf combine (ms ++ block) k slot := by
  have hdiv : (ms ++ block).length / 2 ^ k = ms.length / 2 ^ k := by
    rw [List.length_append, hblock, add_two_pow_div hdvd hk]
  have hbit := testBit_congr hdiv
  cases slot with
  | none => exact hbit.trans h
  | some root =>
    refine ⟨hbit.trans h.1, ?_⟩
    have hnext : (ms ++ block).length / 2 ^ (k + 1) = ms.length / 2 ^ (k + 1) := by
      rw [List.length_append, hblock, add_two_pow_div hdvd (Nat.le_succ_of_le hk)]
    have hend : ms.length / 2 ^ (k + 1) * 2 ^ (k + 1) + 2 ^ k ≤ ms.length := by
      have hmul := div_two_pow_mul ms.length k
      rw [if_pos h.1] at hmul
      rw [← hmul]
      exact Nat.div_mul_le_self _ _
    have hsame : slotBlock (ms ++ block) k = slotBlock ms k := by
      have hstart := le_trans (Nat.le_add_right _ _) hend
      rw [slotBlock, slotBlock, hnext, List.drop_append_of_le_length hstart,
        List.take_append_of_le_length]
      rw [List.length_drop]
      exact Nat.le_sub_of_add_le' hend
    rw [hsame]
    exact h.2

/-- The last messages make up the block of the lowest digit. -/
theorem slotBlock_append {ms block : List μ} {i : ℕ} (hdvd : 2 ^ (i + 1) ∣ ms.length)
    (hblock : block.length = 2 ^ i) :
    (ms ++ block).length.testBit i = true ∧ slotBlock (ms ++ block) i = block := by
  obtain ⟨q, hq⟩ := hdvd
  have hlen : (ms ++ block).length = 2 ^ (i + 1) * q + 2 ^ i := by
    rw [List.length_append, hq, hblock]
  have hdiv : (ms ++ block).length / 2 ^ (i + 1) * 2 ^ (i + 1) = ms.length := by
    rw [List.length_append, hblock, add_two_pow_div ⟨q, hq⟩ (le_refl _)]
    exact Nat.div_mul_cancel ⟨q, hq⟩
  constructor
  · have hhalf : 2 ^ (i + 1) * q + 2 ^ i = 2 ^ i * (2 * q + 1) := by ring
    rw [Nat.testBit_eq_decide_div_mod_eq, hlen, hhalf,
      Nat.mul_div_cancel_left _ (Nat.two_pow_pos i)]
    simp
  · rw [slotBlock, hdiv, List.drop_left, ← hblock, List.take_length]

/-- **The slots are the digits** of the number of messages. -/
theorem Commits.slotHolds {i : ℕ} {ms : List μ} {slots : List (Option α)}
    (h : Commits leaf combine i ms slots) {j : ℕ} {slot : Option α}
    (hslot : slots[j]? = some slot) : SlotHolds leaf combine ms (i + j) slot := by
  induction h generalizing j with
  | nil i => cases hslot
  | @empty i ms rest hrest ih =>
    cases j with
    | zero =>
      obtain rfl := Option.some.inj hslot
      -- the number is a multiple of the next power, so this digit is 0
      obtain ⟨q, hq⟩ := hrest.two_pow_dvd
      have heven : 2 ^ (i + 1) * q = 2 ^ i * (2 * q) := by ring
      show ms.length.testBit i = false
      rw [Nat.testBit_eq_decide_div_mod_eq, hq, heven,
        Nat.mul_div_cancel_left _ (Nat.two_pow_pos i)]
      simp
    | succ j =>
      rw [← Nat.add_assoc, Nat.add_right_comm]
      exact ih hslot
  | @full i ms block rest root hrest hroot ih =>
    cases j with
    | zero =>
      obtain rfl := Option.some.inj hslot
      obtain ⟨hbit, hblock⟩ := slotBlock_append hrest.two_pow_dvd hroot.length_eq
      refine ⟨hbit, ?_⟩
      rw [Nat.add_zero, hblock]
      exact hroot
    | succ j =>
      rw [← Nat.add_assoc, Nat.add_right_comm]
      exact (ih hslot).append hrest.two_pow_dvd hroot.length_eq (Nat.le_add_right _ _)

/-- **The blocks from high to low** are the messages, in order. -/
theorem flatMap_slotBlock (ms : List μ) (k : ℕ) :
    ((List.range k).reverse.flatMap fun i => if ms.length.testBit i then slotBlock ms i else []) =
      ms.drop (ms.length / 2 ^ k * 2 ^ k) := by
  induction k with
  | zero => simp
  | succ k ih =>
    rw [List.range_succ, List.reverse_append, List.reverse_singleton, List.singleton_append,
      List.flatMap_cons, ih, div_two_pow_mul ms.length k]
    by_cases hbit : ms.length.testBit k = true
    · rw [if_pos hbit, if_pos hbit, ← List.drop_drop, slotBlock, List.take_append_drop]
    · rw [if_neg hbit, if_neg hbit, Nat.add_zero, List.nil_append]

end Lpad
