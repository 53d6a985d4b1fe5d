import Lpad.Enclave.Checker

/-!
# The run that `truncate` takes

`completed_list` is keyed by 64-bit numbers, while `truncate` counts with a `Timestamp`
of 32 bits that it reads from the latest op of the history. The counter agrees with the
number it stands for as long as it stays below `2^32`. After that it goes on at 0, so
`truncate` stops at a number that is there, or takes ops of other numbers.
`truncate_cutFrom_iff` says for which lists this makes no difference.
-/

namespace Lpad

theorem truncateLoop_of_none {comp : StdMap Op} {cur : Nat} (h : comp.find cur = none) :
    ∀ fuel, truncateLoop fuel comp cur = ([], comp)
  | 0 => rfl
  | fuel + 1 => by simp [truncateLoop, h]

/-- **The next gap-free run** has been taken out: the ops under `cur, .., cur + j - 1`,
where `cur + j` is the first number that is missing. -/
structure CutFrom (comp : StdMap Op) (cur j : Nat) (cut : List Op × StdMap Op) : Prop where
  stop : comp.find (cur + j) = none
  length : cut.1.length = j
  ops : ∀ i < j, comp.find (cur + i) = cut.1[i]?
  rest : ∀ k, cut.2.find k = if cur ≤ k ∧ k < cur + j then none else comp.find k

theorem CutFrom.empty {comp : StdMap Op} {cur : Nat} (h : comp.find cur = none) :
    CutFrom comp cur 0 ([], comp) where
  stop := h
  length := rfl
  ops := fun i hi => absurd hi (Nat.not_lt_zero i)
  rest := fun k => by
    rw [if_neg]
    omega

/-- One more round of the loop in front. -/
theorem CutFrom.cons {comp : StdMap Op} {cur j : Nat} {op : Op} {cut : List Op × StdMap Op}
    (hop : comp.find cur = some op) (h : CutFrom (StdMap.erase comp cur) (cur + 1) j cut) :
    CutFrom comp cur (j + 1) (op :: cut.1, cut.2) := by
  have hskip : ∀ i, (StdMap.erase comp cur).find (cur + 1 + i) = comp.find (cur + (i + 1)) := by
    intro i
    rw [StdMap.find_erase_ne comp (by omega), Nat.add_right_comm, Nat.add_assoc]
  constructor
  case stop => exact (hskip j).symm.trans h.stop
  case length => simp [h.length]
  case ops =>
    intro i hi
    cases i with
    | zero => exact hop
    | succ i => exact (hskip i).symm.trans (h.ops i (Nat.lt_of_succ_lt_succ hi))
  case rest =>
    intro k
    show cut.2.find k = _
    rw [h.rest k]
    by_cases hk : k = cur
    · subst hk
      rw [StdMap.find_erase_self, ite_self, if_pos (by omega)]
    · rw [StdMap.find_erase_ne comp hk]
      exact if_congr (by omega) rfl rfl

theorem CutFrom.get {comp : StdMap Op} {cur j : Nat} {cut : List Op × StdMap Op}
    (h : CutFrom comp cur j cut) {i : Nat} (hi : i < j) :
    ∃ o, cut.1[i]? = some o ∧ comp.find (cur + i) = some o := by
  have hlt : i < cut.1.length := h.length.symm ▸ hi
  exact ⟨cut.1[i], List.getElem?_eq_getElem hlt,
    (h.ops i hi).trans (List.getElem?_eq_getElem hlt)⟩

/-! ## The 32-bit counter -/

/-- One round of the loop. -/
theorem truncateLoop_of_some {comp : StdMap Op} {cur : Nat} {op : Op} (h : comp.find cur = some op)
    (fuel : Nat) :
    truncateLoop (fuel + 1) comp cur =
      (op :: (truncateLoop fuel (StdMap.erase comp cur) (uint32 (cur + 1))).1,
        (truncateLoop fuel (StdMap.erase comp cur) (uint32 (cur + 1))).2) := by
  simp [truncateLoop, h]

/-- The counter never names a number from `2^32` on. -/
theorem truncateLoop_find_large (fuel : Nat) (comp : StdMap Op) {cur k : Nat}
    (hcur : cur < 2 ^ 32) (hk : 2 ^ 32 ≤ k) :
    (truncateLoop fuel comp cur).2.find k = comp.find k := by
  induction fuel generalizing comp cur with
  | zero => rfl
  | succ fuel ih =>
    cases hf : comp.find cur with
    | none => rw [truncateLoop_of_none hf]
    | some op =>
      have hne : k ≠ cur := by omega
      rw [truncateLoop_of_some hf]
      exact (ih _ (Nat.mod_lt _ (by decide))).trans (StdMap.find_erase_ne comp hne)

/-- The number the counter starts at is not left. -/
theorem truncateLoop_find_start {fuel : Nat} {comp : StdMap Op} (cur : Nat)
    (hfuel : comp.length ≤ fuel) : (truncateLoop fuel comp cur).2.find cur = none := by
  cases hf : comp.find cur with
  | none =>
    rw [truncateLoop_of_none hf]
    exact hf
  | some op =>
    cases fuel with
    | zero =>
      obtain rfl := List.length_eq_zero_iff.mp (Nat.le_zero.mp hfuel)
      rfl
    | succ fuel =>
      rw [truncateLoop_of_some hf]
      by_contra hne
      obtain ⟨op', hop'⟩ := Option.ne_none_iff_exists'.mp hne
      have herased := truncateLoop_find fuel hop'
      rw [StdMap.find_erase_self] at herased
      cases herased

/-- If all numbers from `cur` to `2^32 - 1` are there, the counter comes to 0. -/
theorem truncateLoop_find_zero {fuel : Nat} {comp : StdMap Op} {cur : Nat}
    (hfuel : comp.length ≤ fuel) (hcur : cur < 2 ^ 32)
    (hall : ∀ n, cur ≤ n → n < 2 ^ 32 → comp.find n ≠ none) :
    (truncateLoop fuel comp cur).2.find 0 = none := by
  induction fuel generalizing comp cur with
  | zero =>
    obtain rfl := List.length_eq_zero_iff.mp (Nat.le_zero.mp hfuel)
    rfl
  | succ fuel ih =>
    obtain ⟨op, hop⟩ := Option.ne_none_iff_exists'.mp (hall cur (Nat.le_refl _) hcur)
    have hlen := StdMap.length_erase_lt hop
    rw [truncateLoop_of_some hop]
    by_cases hlast : cur + 1 = 2 ^ 32
    · rw [hlast]
      change (truncateLoop fuel (StdMap.erase comp cur) 0).2.find 0 = none
      exact truncateLoop_find_start 0 (Nat.le_of_lt_succ (hlen.trans_le hfuel))
    · rw [uint32_of_lt (by omega)]
      apply ih (Nat.le_of_lt_succ (hlen.trans_le hfuel)) (by omega)
      intro n hn hlt
      rw [StdMap.find_erase_ne comp (by omega)]
      exact hall n (by omega) hlt

/-- The loop takes the next run if it ends before `2^32`, or ends there and 0 is missing
too. -/
theorem truncateLoop_cutFrom {fuel : Nat} {comp : StdMap Op} {cur : Nat}
    (hfuel : comp.length ≤ fuel) (hcur : cur < 2 ^ 32)
    (hstop : (∃ m, cur ≤ m ∧ m < 2 ^ 32 ∧ comp.find m = none) ∨
      comp.find 0 = none ∧ comp.find (2 ^ 32) = none) :
    ∃ j, CutFrom comp cur j (truncateLoop fuel comp cur) := by
  induction fuel generalizing comp cur with
  | zero =>
    obtain rfl := List.length_eq_zero_iff.mp (Nat.le_zero.mp hfuel)
    exact ⟨0, CutFrom.empty rfl⟩
  | succ fuel ih =>
    cases hf : comp.find cur with
    | none =>
      rw [truncateLoop_of_none hf]
      exact ⟨0, CutFrom.empty hf⟩
    | some op =>
      have hlen := StdMap.length_erase_lt hf
      rw [truncateLoop_of_some hf]
      have hstop' : (∃ m, cur + 1 ≤ m ∧ m < 2 ^ 32 ∧ (StdMap.erase comp cur).find m = none) ∨
          (StdMap.erase comp cur).find 0 = none ∧
            (StdMap.erase comp cur).find (2 ^ 32) = none := by
        rcases hstop with ⟨m, hle, hlt, hm⟩ | ⟨hzero, hnext⟩
        · left
          have hne : m ≠ cur := by
            rintro rfl
            rw [hf] at hm
            cases hm
          exact ⟨m, by omega, hlt, (StdMap.find_erase_ne comp hne).trans hm⟩
        · right
          have hne : cur ≠ 0 := by
            rintro rfl
            rw [hf] at hzero
            cases hzero
          rw [StdMap.find_erase_ne comp hne.symm, StdMap.find_erase_ne comp (by omega)]
          exact ⟨hzero, hnext⟩
      by_cases hlast : cur + 1 = 2 ^ 32
      · -- the last number of all: the counter wraps to 0, which is missing
        rcases hstop' with ⟨m, hle, hlt, -⟩ | ⟨hzero, hnext⟩
        · omega
        · rw [hlast]
          change ∃ j, CutFrom comp cur j (op :: (truncateLoop fuel (StdMap.erase comp cur) 0).1,
            (truncateLoop fuel (StdMap.erase comp cur) 0).2)
          rw [truncateLoop_of_none hzero]
          rw [← hlast] at hnext
          exact ⟨1, (CutFrom.empty hnext).cons hf⟩
      · rw [uint32_of_lt (by omega)]
        obtain ⟨j, hj⟩ := ih (Nat.le_of_lt_succ (hlen.trans_le hfuel)) (by omega) hstop'
        exact ⟨j + 1, hj.cons hf⟩

/-- The run after `latest` does not get past `2^32 - 1`, where the counter of `truncate`
parts from the number it stands for: if it comes so far, or starts behind, neither the
next number nor the one the counter shows is in the list. -/
def FitsTimestamp (comp : StdMap Op) (latest : Nat) : Prop :=
  (∀ n, latest < n → n < 2 ^ 32 → comp.find n ≠ none) →
    comp.find (uint32 (max (latest + 1) (2 ^ 32))) = none ∧
      comp.find (max (latest + 1) (2 ^ 32)) = none

/-- **When `truncate` takes the next run** after the number `latest`, of which the history
has 32 bits. -/
theorem truncate_cutFrom_iff (comp : StdMap Op) {his : HistoryW} {latest : Nat}
    (hts : his.latest.ts = uint32 latest) :
    (∃ j, CutFrom comp (latest + 1) j (truncate comp his)) ↔ FitsTimestamp comp latest := by
  have hcounter : uint32 (his.latest.ts + 1) = uint32 (latest + 1) := by
    rw [hts, uint32, uint32, uint32, Nat.mod_add_mod]
  unfold truncate
  rw [hcounter]
  rcases Nat.lt_or_ge (latest + 1) (2 ^ 32) with hsmall | hlarge
  · -- the counter starts right
    rw [uint32_of_lt hsmall]
    have hwrap : max (latest + 1) (2 ^ 32) = 2 ^ 32 := Nat.max_eq_right (Nat.le_of_lt hsmall)
    unfold FitsTimestamp
    rw [hwrap]
    change _ ↔ (_ → comp.find 0 = none ∧ comp.find (2 ^ 32) = none)
    constructor
    · rintro ⟨j, hcut⟩ hall
      constructor
      · have hzero := truncateLoop_find_zero (Nat.le_refl _) hsmall hall
        rw [hcut.rest, if_neg (by omega)] at hzero
        exact hzero
      · have hkeeps := truncateLoop_find_large comp.length comp hsmall (Nat.le_refl (2 ^ 32))
        rw [hcut.rest] at hkeeps
        have hreach : 2 ^ 32 ≤ latest + 1 + j := by
          by_contra hlt
          exact hall (latest + 1 + j) (by omega) (by omega) hcut.stop
        rcases Nat.lt_or_eq_of_le hreach with hlt | heq
        · rw [if_pos ⟨Nat.le_of_lt hsmall, hlt⟩] at hkeeps
          exact hkeeps.symm
        · rw [heq]
          exact hcut.stop
    · intro hfits
      apply truncateLoop_cutFrom (Nat.le_refl _) hsmall
      by_cases hall : ∀ n, latest < n → n < 2 ^ 32 → comp.find n ≠ none
      · exact Or.inr (hfits hall)
      · push Not at hall
        obtain ⟨m, hle, hlt, hm⟩ := hall
        exact Or.inl ⟨m, hle, hlt, hm⟩
  · -- the counter starts below the number it stands for
    have hwrap : max (latest + 1) (2 ^ 32) = latest + 1 := Nat.max_eq_left hlarge
    have hcur : uint32 (latest + 1) < 2 ^ 32 := Nat.mod_lt _ (by decide)
    unfold FitsTimestamp
    rw [hwrap]
    generalize uint32 (latest + 1) = cur at *
    constructor
    · rintro ⟨j, hcut⟩ -
      constructor
      · have hgone := truncateLoop_find_start cur (Nat.le_refl comp.length)
        rw [hcut.rest, if_neg (by omega)] at hgone
        exact hgone
      · have hkeeps := truncateLoop_find_large comp.length comp hcur hlarge
        rw [hcut.rest] at hkeeps
        rcases Nat.eq_zero_or_pos j with rfl | hj
        · exact hcut.stop
        · rw [if_pos (by omega)] at hkeeps
          exact hkeeps.symm
    · intro hfits
      obtain ⟨hcounter, hnext⟩ := hfits fun n hn hlt => by omega
      rw [truncateLoop_of_none hcounter]
      exact ⟨0, CutFrom.empty hnext⟩

/-- **`truncate` takes exactly the next gap-free run**, after `latest` has been recorded
through `setTs` and `update`, under the condition of `FitsTimestamp` and no other. -/
theorem truncate_takes_next_run_iff (comp : StdMap Op) (his : HistoryW) (op : Op) (latest : Nat) :
    (∃ k, CutFrom comp (latest + 1) k (truncate comp (his.update (op.setTs latest)))) ↔
      FitsTimestamp comp latest :=
  truncate_cutFrom_iff comp rfl

/-- **The run stops at `2^32`**: this number is next and is there, and nothing is taken. -/
theorem truncate_stops_at_wrap :
    ¬ ∃ k, CutFrom [(2 ^ 32, Op.new 1 1)] (2 ^ 32 - 1 + 1) k
      (truncate [(2 ^ 32, Op.new 1 1)]
        (HistoryW.init.update ((Op.new 0 0).setTs (2 ^ 32 - 1)))) := by
  intro htakes
  have hfits := (truncate_cutFrom_iff _ rfl).mp htakes fun n hn hlt => by omega
  have hnext : StdMap.find [(2 ^ 32, Op.new 1 1)] (2 ^ 32) = none := hfits.2
  rw [StdMap.find_cons_self] at hnext
  cases hnext

end Lpad
