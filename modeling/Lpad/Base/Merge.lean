import Mathlib.Data.List.Lex
import Mathlib.Logic.Function.Basic
import Mathlib.Data.List.Perm.Basic
import Mathlib.Order.Lattice

/-!
# Merging numbered channels

`n` channels hold lists; a merge draws heads one at a time until every channel
is empty. `Draws` is that process with its picks made visible, `Interleaving`
forgets them. A merge is `Greedy` for a measure when each pick has a least head.

The last section answers when a merge that is greedy for one order comes out
sorted by another: exactly when, for every element and every other channel, the
first element of that channel which has to come later is also larger in the
order of the picks (`Draws.sorted_iff`).
-/

namespace Lpad

variable {α : Type*} {n : Nat}

/-- Drawing heads until the channels below `n` are exhausted: the channels, the
channel picked each time, the elements in the order they come out. -/
inductive Draws (n : Nat) : (Nat → List α) → List Nat → List α → Prop
  | nil {chans : Nat → List α} (h : ∀ c < n, chans c = []) : Draws n chans [] []
  | cons {chans : Nat → List α} {c : Nat} {x : α} {rest : List α} {picks : List Nat}
      {out : List α} (hc : c < n) (hx : chans c = x :: rest)
      (h : Draws n (Function.update chans c rest) picks out) :
      Draws n chans (c :: picks) (x :: out)

/-- `out` takes every element of every channel below `n` once and keeps the
order inside each channel. -/
def Interleaving (n : Nat) (chans : Nat → List α) (out : List α) : Prop :=
  ∃ picks, Draws n chans picks out

/-! ## What an interleaving contains -/

theorem flatMap_update_head {chans : Nat → List α} {c : Nat} {x : α} {rest : List α}
    (hc : c < n) (hx : chans c = x :: rest) :
    ((List.range n).flatMap chans).Perm
      (x :: (List.range n).flatMap (Function.update chans c rest)) := by
  induction n with
  | zero => omega
  | succ n ih =>
    rw [List.range_succ, List.flatMap_append, List.flatMap_append,
      List.flatMap_singleton, List.flatMap_singleton]
    rcases Nat.lt_succ_iff_lt_or_eq.mp hc with hlt | rfl
    · rw [Function.update_of_ne (by omega : n ≠ c)]
      exact (ih hlt).append_right _
    · -- the updated channel is the last one, so the others are untouched
      have hsame : (List.range c).flatMap (Function.update chans c rest)
          = (List.range c).flatMap chans := by
        apply List.flatMap_congr
        intro d hd
        rw [Function.update_of_ne (by rw [List.mem_range] at hd; omega)]
      rw [hsame, Function.update_self, hx]
      exact List.perm_middle

theorem Draws.perm {chans : Nat → List α} {picks : List Nat} {out : List α}
    (h : Draws n chans picks out) : out.Perm ((List.range n).flatMap chans) := by
  induction h with
  | @nil chans h =>
    have hnil : (List.range n).flatMap chans = [] := by
      rw [List.flatMap_eq_nil_iff]
      intro c hc
      exact h c (List.mem_range.mp hc)
    rw [hnil]
  | cons hc hx _ ih => exact (ih.cons _).trans (flatMap_update_head hc hx).symm

theorem Draws.mem_iff {chans : Nat → List α} {picks : List Nat} {out : List α}
    (h : Draws n chans picks out) {x : α} : x ∈ out ↔ ∃ c < n, x ∈ chans c := by
  rw [h.perm.mem_iff, List.mem_flatMap]
  constructor
  · rintro ⟨c, hc, hx⟩
    exact ⟨c, List.mem_range.mp hc, hx⟩
  · rintro ⟨c, hc, hx⟩
    exact ⟨c, List.mem_range.mpr hc, hx⟩

/-- Draws come from the channels there are. -/
theorem Draws.picks_lt {chans : Nat → List α} {picks : List Nat} {out : List α}
    (h : Draws n chans picks out) : ∀ c ∈ picks, c < n := by
  induction h with
  | nil _ => simp
  | cons hc _ _ ih =>
    intro d hd
    rcases List.mem_cons.mp hd with rfl | hd
    · exact hc
    · exact ih d hd

/-- The picks determine what is drawn. -/
theorem Draws.out_unique {chans : Nat → List α} {picks : List Nat} {out out' : List α}
    (h : Draws n chans picks out) (h' : Draws n chans picks out') : out = out' := by
  induction h generalizing out' with
  | nil _ =>
    cases h' with
    | nil _ => rfl
  | cons _ hx _ ih =>
    cases h' with
    | cons _ hx' hd' =>
      obtain ⟨rfl, rfl⟩ := List.cons.inj (hx.symm.trans hx')
      rw [ih hd']

/-- There is one way to draw from one channel. -/
theorem Draws.eq_of_single {chans : Nat → List α} {picks : List Nat} {out : List α}
    (h : Draws 1 chans picks out) : out = chans 0 := by
  induction h with
  | nil hnil => exact (hnil 0 Nat.one_pos).symm
  | @cons chans c x rest picks out hc hx _ ih =>
    obtain rfl : c = 0 := Nat.lt_one_iff.mp hc
    rw [ih, Function.update_self, hx]

theorem Draws.eq_nil_of_zero {chans : Nat → List α} {picks : List Nat} {out : List α}
    (h : Draws 0 chans picks out) : out = [] := by
  cases h with
  | nil _ => rfl
  | cons hc _ _ => exact absurd hc (Nat.not_lt_zero _)

theorem mem_of_mem_update {chans : Nat → List α} {c d : Nat} {x y : α} {rest : List α}
    (hx : chans c = x :: rest) (h : y ∈ Function.update chans c rest d) : y ∈ chans d := by
  by_cases hd : d = c
  · subst hd
    rw [Function.update_self] at h
    rw [hx]
    exact List.mem_cons_of_mem _ h
  · rwa [Function.update_of_ne hd] at h

/-! ## Greedy merges -/

/-- Every pick of the run has a head whose measure is least among the heads of
the channels below `n` at that moment, and no lower channel ties with it. -/
def Greedy {M : Type*} [LE M] [LT M] (m : α → M) (n : Nat) :
    (Nat → List α) → List Nat → Prop
  | _, [] => True
  | chans, c :: picks =>
    (∀ x rest, chans c = x :: rest →
      ∀ d < n, ∀ y ys, chans d = y :: ys → m x ≤ m y ∧ (d < c → m x < m y)) ∧
    Greedy m n (Function.update chans c (chans c).tail) picks

variable {K M : Type*} [LinearOrder K] [LinearOrder M] {k : α → K} {m : α → M}

/-- The head a greedy merge draws first: least among all heads, and on the lowest
channel among equals. -/
structure LeastHead (m : α → M) (n : Nat) (chans : Nat → List α) (c : Nat) (x : α) :
    Prop where
  channel : c < n
  head : (chans c).head? = some x
  least : ∀ d < n, ∀ y, (chans d).head? = some y → m x ≤ m y ∧ (d < c → m x < m y)

theorem LeastHead.unique {chans : Nat → List α} {c d : Nat} {x y : α}
    (hx : LeastHead m n chans c x) (hy : LeastHead m n chans d y) : c = d ∧ x = y := by
  have hcd : c = d := by
    by_contra hne
    rcases Nat.lt_or_gt_of_ne hne with hlt | hgt
    · -- the tie is broken towards `c`, so `y` was not least
      have hyx := (hy.least c hx.channel x hx.head).2 hlt
      exact absurd (hx.least d hy.channel y hy.head).1 (not_le.mpr hyx)
    · have hxy := (hx.least d hy.channel y hy.head).2 hgt
      exact absurd (hy.least c hx.channel x hx.head).1 (not_le.mpr hxy)
  subst hcd
  exact ⟨rfl, Option.some.inj (hx.head.symm.trans hy.head)⟩

/-! A scan over the channels keeps the least head of those it has seen. -/

theorem LeastHead.first {chans : Nat → List α} {i : Nat} {y : α}
    (hempty : ∀ c < i, chans c = []) (hy : (chans i).head? = some y) :
    LeastHead m (i + 1) chans i y := by
  refine ⟨Nat.lt_succ_self i, hy, ?_⟩
  intro d hd z hz
  rcases Nat.lt_succ_iff_lt_or_eq.mp hd with hlt | rfl
  · rw [hempty d hlt] at hz
    cases hz
  · obtain rfl := Option.some.inj (hy.symm.trans hz)
    exact ⟨le_refl _, fun h => absurd h (lt_irrefl _)⟩

theorem LeastHead.replace {chans : Nat → List α} {i c : Nat} {x y : α}
    (h : LeastHead m i chans c x) (hy : (chans i).head? = some y) (hlt : m y < m x) :
    LeastHead m (i + 1) chans i y := by
  refine ⟨Nat.lt_succ_self i, hy, ?_⟩
  intro d hd z hz
  rcases Nat.lt_succ_iff_lt_or_eq.mp hd with hdi | rfl
  · have hyz := lt_of_lt_of_le hlt (h.least d hdi z hz).1
    exact ⟨le_of_lt hyz, fun _ => hyz⟩
  · obtain rfl := Option.some.inj (hy.symm.trans hz)
    exact ⟨le_refl _, fun h => absurd h (lt_irrefl _)⟩

theorem LeastHead.keep {chans : Nat → List α} {i c : Nat} {x : α} (h : LeastHead m i chans c x)
    (hle : ∀ y, (chans i).head? = some y → m x ≤ m y) : LeastHead m (i + 1) chans c x := by
  refine ⟨Nat.lt_succ_of_lt h.channel, h.head, ?_⟩
  intro d hd z hz
  rcases Nat.lt_succ_iff_lt_or_eq.mp hd with hdi | rfl
  · exact h.least d hdi z hz
  · exact ⟨hle z hz, fun hdc => absurd h.channel (not_lt.mpr (le_of_lt hdc))⟩

theorem Greedy.leastHead {chans : Nat → List α} {c : Nat} {picks : List Nat} {x : α}
    {rest : List α} (hg : Greedy m n chans (c :: picks)) (hc : c < n)
    (hx : chans c = x :: rest) : LeastHead m n chans c x := by
  refine ⟨hc, by rw [hx]; rfl, ?_⟩
  intro d hd y hy
  cases hcd : chans d with
  | nil => rw [hcd] at hy; simp at hy
  | cons z zs =>
    rw [hcd] at hy
    obtain rfl : z = y := Option.some.inj hy
    exact hg.1 x rest hx d hd z zs hcd

theorem LeastHead.greedy {chans : Nat → List α} {c : Nat} {picks : List Nat} {x : α}
    {rest : List α} (h : LeastHead m n chans c x) (hx : chans c = x :: rest)
    (hg : Greedy m n (Function.update chans c rest) picks) : Greedy m n chans (c :: picks) := by
  constructor
  · rintro x' rest' hx' d hd y ys hy
    obtain ⟨rfl, rfl⟩ := List.cons.inj (hx.symm.trans hx')
    apply h.least d hd y
    rw [hy]
    rfl
  · rwa [hx]

/-- Only comparisons between different channels matter to a merge. -/
theorem Greedy.congr {M' : Type*} [LinearOrder M'] {m' : α → M'} {picks : List Nat} :
    ∀ {chans : Nat → List α}, (∀ c ∈ picks, c < n) →
    (∀ c < n, ∀ d < n, c ≠ d → ∀ x ∈ chans c, ∀ y ∈ chans d, (m x < m y ↔ m' x < m' y)) →
    Greedy m n chans picks → Greedy m' n chans picks := by
  induction picks with
  | nil =>
    intro _ _ _ _
    trivial
  | cons c picks ih =>
    intro chans hpicks hsame hg
    have hc := hpicks c List.mem_cons_self
    constructor
    · intro x rest hx d hd y ys hy
      obtain ⟨hle, hlt⟩ := hg.1 x rest hx d hd y ys hy
      have hxc : x ∈ chans c := by rw [hx]; exact List.mem_cons_self
      have hyd : y ∈ chans d := by rw [hy]; exact List.mem_cons_self
      by_cases hcd : c = d
      · -- the channel is compared with itself
        subst hcd
        obtain ⟨rfl, -⟩ := List.cons.inj (hx.symm.trans hy)
        exact ⟨le_rfl, fun h => absurd h (lt_irrefl c)⟩
      · have hback := hsame d hd c hc (Ne.symm hcd) y hyd x hxc
        refine ⟨?_, fun h => (hsame c hc d hd hcd x hxc y hyd).mp (hlt h)⟩
        rw [← not_lt, ← hback, not_lt]
        exact hle
    · refine ih (fun d hd => hpicks d (List.mem_cons_of_mem _ hd)) ?_ hg.2
      have htail : ∀ d, ∀ y ∈ Function.update chans c (chans c).tail d, y ∈ chans d := by
        intro d y hy
        by_cases hdc : d = c
        · subst hdc
          rw [Function.update_self] at hy
          exact List.mem_of_mem_tail hy
        · rwa [Function.update_of_ne hdc] at hy
      intro d hd e he hde x hx y hy
      exact hsame d hd e he hde x (htail d x hx) y (htail e y hy)

/-- **Greedy merges are deterministic.** The induction is on the first run; both
runs draw the one least head. -/
theorem Draws.unique {chans : Nat → List α} {picks picks' : List Nat} {out out' : List α}
    (h : Draws n chans picks out) (hg : Greedy m n chans picks)
    (h' : Draws n chans picks' out') (hg' : Greedy m n chans picks') :
    picks = picks' ∧ out = out' := by
  induction h generalizing picks' out' with
  | nil hnil =>
    cases h' with
    | nil _ => exact ⟨rfl, rfl⟩
    | cons hc hx _ =>
      rw [hnil _ hc] at hx
      cases hx
  | @cons chans c x rest picks out hc hx hd ih =>
    cases h' with
    | nil hnil =>
      rw [hnil c hc] at hx
      cases hx
    | @cons _ c' x' rest' picks' out' hc' hx' hd' =>
      obtain ⟨rfl, rfl⟩ := (hg.leastHead hc hx).unique (hg'.leastHead hc' hx')
      obtain ⟨-, rfl⟩ := List.cons.inj (hx.symm.trans hx')
      have htail := hg.2
      have htail' := hg'.2
      rw [hx] at htail htail'
      obtain ⟨rfl, rfl⟩ := ih htail hd' htail'
      exact ⟨rfl, rfl⟩

/-- For each element and each other channel: the first element there that must
come later in the order `k` is larger for the measure `m` of the picks. -/
def HeadsAgree (k : α → K) (m : α → M) (n : Nat) (chans : Nat → List α) : Prop :=
  ∀ c < n, ∀ x ∈ chans c, ∀ d < n, d ≠ c → ∀ y,
    (chans d).find? (fun y => decide (k x < k y)) = some y → m x < m y

/-- The channels are sorted by `k`, and elements of different channels differ
both for `k` and for the measure `m` of the picks. -/
structure SortedChannels (k : α → K) (m : α → M) (n : Nat) (chans : Nat → List α) :
    Prop where
  sorted : ∀ c < n, (chans c).Pairwise (fun x y => k x < k y)
  apart : ∀ c < n, ∀ d < n, c ≠ d → ∀ x ∈ chans c, ∀ y ∈ chans d, k x ≠ k y ∧ m x ≠ m y

omit [LinearOrder M] in
theorem SortedChannels.tail {chans : Nat → List α} {c : Nat} {x : α} {rest : List α}
    (h : SortedChannels k m n chans) (hx : chans c = x :: rest) :
    SortedChannels k m n (Function.update chans c rest) := by
  constructor
  · intro d hd
    by_cases hdc : d = c
    · subst hdc
      have hs := h.sorted d hd
      rw [hx] at hs
      rw [Function.update_self]
      exact (List.pairwise_cons.mp hs).2
    · rw [Function.update_of_ne hdc]
      exact h.sorted d hd
  · intro d hd e he hde y hy z hz
    exact h.apart d hd e he hde y (mem_of_mem_update hx hy) z (mem_of_mem_update hx hz)

/-- The head that a greedy merge draws next is below everything that stays. -/
def HeadLeast (k : α → K) (n : Nat) (chans : Nat → List α) (x : α) : Prop :=
  ∀ d < n, ∀ y ∈ chans d, k x < k y

theorem headLeast_of_agree {chans : Nat → List α} {c : Nat} {x : α} {rest : List α}
    (hs : SortedChannels k m n chans) (hc : c < n) (hx : chans c = x :: rest)
    (hg : ∀ d < n, ∀ y ys, chans d = y :: ys → m x ≤ m y)
    (ha : HeadsAgree k m n chans) :
    HeadLeast k n (Function.update chans c rest) x := by
  intro d hd y hy
  by_cases hdc : d = c
  · subst hdc
    have hsd := hs.sorted d hd
    rw [hx] at hsd
    rw [Function.update_self] at hy
    exact (List.pairwise_cons.mp hsd).1 y hy
  · rw [Function.update_of_ne hdc] at hy
    obtain ⟨z, zs, hz⟩ := List.exists_cons_of_ne_nil (List.ne_nil_of_mem hy)
    have hzmem : z ∈ chans d := by rw [hz]; exact List.mem_cons_self
    have hzy : k z ≤ k y := by
      have hsd := hs.sorted d hd
      rw [hz] at hsd hy
      rcases List.mem_cons.mp hy with rfl | hmem
      · exact le_rfl
      · exact le_of_lt ((List.pairwise_cons.mp hsd).1 y hmem)
    -- otherwise the head of `d` has `x` as its first later element in `c`
    by_contra hnot
    have hxmem : x ∈ chans c := by rw [hx]; exact List.mem_cons_self
    have hne : k z ≠ k x := (hs.apart d hd c hc hdc z hzmem x hxmem).1
    have hzx : k z < k x := lt_of_le_of_ne (le_trans hzy (not_lt.mp hnot)) hne
    have hfind : (chans c).find? (fun y => decide (k z < k y)) = some x := by
      rw [hx, List.find?_cons_of_pos (by simpa using hzx)]
    have hlt := ha d hd z hzmem c hc (fun e => hdc e.symm) x hfind
    exact absurd (hg d hd z zs hz) (not_le.mpr hlt)

/-- An element above `x` does not look at `x` when it searches its channel. -/
theorem find?_update_head {chans : Nat → List α} {c d : Nat} {x a : α} {rest : List α}
    (hx : chans c = x :: rest) (ha : k x < k a) :
    (Function.update chans c rest d).find? (fun y => decide (k a < k y))
      = (chans d).find? (fun y => decide (k a < k y)) := by
  by_cases hd : d = c
  · subst hd
    rw [Function.update_self, hx,
      List.find?_cons_of_neg (by simpa using le_of_lt ha)]
  · rw [Function.update_of_ne hd]

theorem headsAgree_tail_iff {chans : Nat → List α} {c : Nat} {x : α} {rest : List α}
    (hs : SortedChannels k m n chans) (hc : c < n) (hx : chans c = x :: rest)
    (hg : ∀ d < n, ∀ y ys, chans d = y :: ys → m x ≤ m y) :
    HeadsAgree k m n chans ↔
      HeadLeast k n (Function.update chans c rest) x ∧
      HeadsAgree k m n (Function.update chans c rest) := by
  constructor
  · intro ha
    have hl := headLeast_of_agree hs hc hx hg ha
    refine ⟨hl, ?_⟩
    intro e he a hamem d hd hde y hy
    rw [find?_update_head hx (hl e he a hamem)] at hy
    exact ha e he a (mem_of_mem_update hx hamem) d hd hde y hy
  · rintro ⟨hl, ha⟩ e he a hamem d hd hde y hy
    by_cases hmem : a ∈ Function.update chans c rest e
    · rw [← find?_update_head hx (hl e he a hmem)] at hy
      exact ha e he a hmem d hd hde y hy
    · -- only the drawn head itself has left its channel
      have hec : e = c := by
        by_contra hne
        rw [Function.update_of_ne hne] at hmem
        exact hmem hamem
      subst hec
      rw [Function.update_self] at hmem
      rw [hx] at hamem
      have hax : a = x := (List.mem_cons.mp hamem).resolve_right hmem
      subst hax
      cases hcd : chans d with
      | nil => rw [hcd] at hy; simp at hy
      | cons z zs =>
        have hzd : z ∈ chans d := by rw [hcd]; exact List.mem_cons_self
        have hlt : k a < k z := hl d hd z (by rwa [Function.update_of_ne hde])
        have hae : a ∈ chans e := by rw [hx]; exact List.mem_cons_self
        have hne := (hs.apart e he d hd (Ne.symm hde) a hae z hzd).2
        rw [hcd, List.find?_cons_of_pos (by simpa using hlt)] at hy
        obtain rfl : z = y := Option.some.inj hy
        exact lt_of_le_of_ne (hg d hd z zs hcd) hne

/-- **When a greedy merge is sorted.** A merge of channels sorted by `k` whose
picks are least for `m` comes out sorted by `k` if and only if the heads agree:
the induction is on the draws, and each draw splits both sides the same way. -/
theorem Draws.sorted_iff {chans : Nat → List α} {picks : List Nat} {out : List α}
    (h : Draws n chans picks out) (hg : Greedy m n chans picks)
    (hs : SortedChannels k m n chans) :
    out.Pairwise (fun x y => k x < k y) ↔ HeadsAgree k m n chans := by
  induction h with
  | @nil chans hnil =>
    constructor
    · intro _ c hc x hx
      rw [hnil c hc] at hx
      simp at hx
    · intro _
      exact List.Pairwise.nil
  | @cons chans c x rest picks out hc hx hd ih =>
    obtain ⟨hhead, htail⟩ := hg
    rw [hx] at htail
    rw [List.pairwise_cons, ih htail (hs.tail hx),
      headsAgree_tail_iff hs hc hx fun d hd y ys hy => (hhead x rest hx d hd y ys hy).1]
    have hmem : (∀ y ∈ out, k x < k y) ↔
        HeadLeast k n (Function.update chans c rest) x := by
      constructor
      · intro hall d hdn y hy
        exact hall y (hd.mem_iff.mpr ⟨d, hdn, hy⟩)
      · intro hl y hy
        obtain ⟨d, hdn, hyd⟩ := hd.mem_iff.mp hy
        exact hl d hdn y hyd
    rw [hmem]

end Lpad
