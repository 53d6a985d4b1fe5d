import Lpad.Base.Run
import Mathlib.Order.Antisymmetrization
import Mathlib.Order.Compare

/-!
# Cursors over a list

An iterator is an object with a state and five motions. That it behaves as a cursor over a
list is said by what can be observed: after any motions that are permitted, the entry it
shows is the entry of the list where a cursor would be (`BehavesAs`). A motion gives `none`
when it does not return, so a motion of an iterator that behaves as a cursor returns.

In a list that is strictly ordered the entry at a position is the first one, or the last
one, with some property of its key (`IsFirst`, `IsLast`). These are facts about sets of
keys. They do not mention positions, so they carry over from the parts of a union to the
union.
-/

namespace Lpad

universe u

/-! ## Comparators -/

/-- The comparator compares ranks. -/
def Ranks {K κ : Type*} [LinearOrder κ] (cmp : K → K → Ordering) (rank : K → κ) : Prop :=
  ∀ a b, cmp a b = compare (rank a) (rank b)

section Ranks

variable {K κ : Type*} [LinearOrder κ] {cmp : K → K → Ordering} {rank : K → κ} {a b : K}

theorem Ranks.lt_iff (h : Ranks cmp rank) : cmp a b = .lt ↔ rank a < rank b := by
  rw [h, compare_lt_iff_lt]

theorem Ranks.gt_iff (h : Ranks cmp rank) : cmp a b = .gt ↔ rank b < rank a := by
  rw [h, compare_gt_iff_gt]

theorem Ranks.eq_iff (h : Ranks cmp rank) : cmp a b = .eq ↔ rank a = rank b := by
  rw [h, compare_eq_iff_eq]

theorem Ranks.transCmp (h : Ranks cmp rank) : Std.TransCmp cmp where
  eq_swap := by
    intro a b
    cases hba : cmp b a with
    | lt => exact h.gt_iff.mpr (h.lt_iff.mp hba)
    | eq => exact h.eq_iff.mpr (h.eq_iff.mp hba).symm
    | gt => exact h.lt_iff.mpr (h.gt_iff.mp hba)
  isLE_trans := by
    intro a b c
    simp only [Ordering.isLE_iff_ne_gt, h.gt_iff, not_lt]
    exact le_trans

/-- Every comparator that is a total order compares ranks. -/
theorem exists_ranks {K : Type u} (cmp : K → K → Ordering) [Std.TransCmp cmp] :
    ∃ (κ : Type u) (_ : LinearOrder κ) (rank : K → κ), Ranks cmp rank := by
  classical
  let _ : Preorder K :=
    { le := fun a b => (cmp a b).isLE
      le_refl := fun a => by
        show (cmp a a).isLE
        have hself : cmp a a = .eq := Std.ReflCmp.compare_self
        rw [hself]
        rfl
      le_trans := fun _ _ _ => Std.TransCmp.isLE_trans }
  have hswap : ∀ a b, cmp b a = (cmp a b).swap := fun _ _ => Std.OrientedCmp.eq_swap
  have htotal : @Std.Total K (· ≤ ·) := ⟨fun a b => by
    show (cmp a b).isLE ∨ (cmp b a).isLE
    rw [hswap a b]
    cases cmp a b <;> simp⟩
  refine ⟨Antisymmetrization K (· ≤ ·), inferInstance, toAntisymmetrization (· ≤ ·), ?_⟩
  have hlt : ∀ {a b : K}, cmp a b = .lt →
      toAntisymmetrization (· ≤ ·) a < toAntisymmetrization (· ≤ ·) b := by
    intro a b h
    rw [toAntisymmetrization_lt_toAntisymmetrization_iff, lt_iff_le_not_ge]
    show (cmp a b).isLE ∧ ¬ (cmp b a).isLE
    rw [hswap a b, h]
    simp
  intro a b
  symm
  cases h : cmp a b with
  | lt => exact compare_lt_iff_lt.mpr (hlt h)
  | gt => exact compare_gt_iff_gt.mpr (hlt (Std.OrientedCmp.gt_iff_lt.mp h))
  | eq =>
    rw [compare_eq_iff_eq]
    apply Quotient.sound
    show (cmp a b).isLE ∧ (cmp b a).isLE
    rw [hswap a b, h]
    simp

end Ranks

/-! ## Iterators -/

inductive Motion (K : Type*) where
  | seekToFirst
  | seekToLast
  | seek (target : K)
  | next
  | prev
deriving DecidableEq, Repr

/-- The motions that start from the current entry. They need one. -/
def Motion.relative {K : Type*} : Motion K → Bool
  | .next | .prev => true
  | _ => false

/-- Which way an iterator moved last, where that matters to it. -/
inductive Direction where
  | forward
  | reverse
deriving DecidableEq, Repr

structure Entry (K V : Type*) where
  key : K
  value : V
deriving DecidableEq, Repr

/-- The methods of an iterator. `key` and `value` are for valid states only. -/
structure Iterator (σ K V : Type*) where
  valid : σ → Bool
  key : σ → K
  value : σ → V
  move : Motion K → σ → Option σ

namespace Iterator

variable {σ K V : Type*}

/-- What an iterator shows. -/
def entry (it : Iterator σ K V) (s : σ) : Option (Entry K V) :=
  if it.valid s then some ⟨it.key s, it.value s⟩ else none

theorem entry_eq_none {it : Iterator σ K V} {s : σ} : it.entry s = none ↔ it.valid s = false := by
  rw [entry]
  split <;> simp_all

theorem entry_eq_some {it : Iterator σ K V} {s : σ} {e : Entry K V} :
    it.entry s = some e ↔ it.valid s = true ∧ it.key s = e.key ∧ it.value s = e.value := by
  rw [entry]
  split
  case isTrue h =>
    rw [Option.some_inj]
    constructor
    · rintro rfl
      exact ⟨h, rfl, rfl⟩
    · rintro ⟨-, hkey, hvalue⟩
      rw [hkey, hvalue]
  case isFalse h => simp [h]

def run (it : Iterator σ K V) (s : σ) (ms : List (Motion K)) : Option σ :=
  runs (fun s m => it.move m s) s ms

end Iterator

/-! ## The cursor -/

namespace Cursor

variable {α : Type*}

/-- The entry at a position; a cursor that is not valid has none. -/
def entryAt (l : List α) (p : Option Nat) : Option α := p.bind fun i => l[i]?

@[simp] theorem entryAt_none (l : List α) : entryAt l none = none := rfl

@[simp] theorem entryAt_some (l : List α) (i : Nat) : entryAt l (some i) = l[i]? := rfl

variable {K V : Type*}

/-- One motion of a cursor over `l`; `none` when it is not permitted. -/
def step (cmp : K → K → Ordering) (l : List (Entry K V)) (p : Option Nat) :
    Motion K → Option (Option Nat)
  | .seekToFirst => some (if l.length = 0 then none else some 0)
  | .seekToLast => some (if l.length = 0 then none else some (l.length - 1))
  | .seek target => some (l.findIdx? fun e => cmp e.key target ≠ .lt)
  | .next => p.map fun i => if i + 1 < l.length then some (i + 1) else none
  | .prev => p.map fun i => if i = 0 then none else some (i - 1)

def run (cmp : K → K → Ordering) (l : List (Entry K V)) (p : Option Nat)
    (ms : List (Motion K)) : Option (Option Nat) :=
  runs (step cmp l) p ms

end Cursor

section BehavesAs

variable {σ K V : Type*} {it : Iterator σ K V} {cmp : K → K → Ordering} {l : List (Entry K V)}
  {s : σ} {p : Option Nat}

/-- **The iterator is a cursor.** From `s` it shows what a cursor over `l` shows that starts
at `p`, after any permitted motions. -/
def BehavesAs (it : Iterator σ K V) (cmp : K → K → Ordering) (l : List (Entry K V)) (s : σ)
    (p : Option Nat) : Prop :=
  ∀ ms p', Cursor.run cmp l p ms = some p' →
    ∃ s', it.run s ms = some s' ∧ it.entry s' = Cursor.entryAt l p'

theorem BehavesAs.entry (h : BehavesAs it cmp l s p) : it.entry s = Cursor.entryAt l p := by
  obtain ⟨s', hrun, hentry⟩ := h [] p rfl
  obtain rfl : s = s' := Option.some.inj hrun
  exact hentry

/-- One motion, and it is a cursor again. -/
theorem BehavesAs.move (h : BehavesAs it cmp l s p) {m : Motion K} {p' : Option Nat}
    (hstep : Cursor.step cmp l p m = some p') :
    ∃ s', it.move m s = some s' ∧ BehavesAs it cmp l s' p' := by
  have hcons : ∀ ms, Cursor.run cmp l p (m :: ms) = Cursor.run cmp l p' ms := by
    intro ms
    rw [Cursor.run, Cursor.run, runs, hstep]
    rfl
  obtain ⟨s', hrun, -⟩ := h [m] p' (hcons [])
  rw [Iterator.run, runs, Option.bind_eq_some_iff] at hrun
  obtain ⟨s', hmove, -⟩ := hrun
  refine ⟨s', hmove, ?_⟩
  intro ms q hq
  obtain ⟨t, hrun, hentry⟩ := h (m :: ms) q ((hcons ms).trans hq)
  rw [Iterator.run, runs, hmove] at hrun
  exact ⟨t, hrun, hentry⟩

/-- A relation that every permitted motion keeps is kept by every permitted run. -/
theorem Iterator.run_of_simulation (R : σ → Option Nat → Prop)
    (hstep : ∀ s p m p', R s p → Cursor.step cmp l p m = some p' →
      ∃ s', it.move m s = some s' ∧ R s' p')
    (h : R s p) {ms : List (Motion K)} {p' : Option Nat} (hrun : Cursor.run cmp l p ms = some p') :
    ∃ s', it.run s ms = some s' ∧ R s' p' := by
  induction ms generalizing s p with
  | nil =>
    obtain rfl : p = p' := Option.some.inj hrun
    exact ⟨s, rfl, h⟩
  | cons m ms ih =>
    rw [Cursor.run, runs, Option.bind_eq_some_iff] at hrun
    obtain ⟨q, hq, hrest⟩ := hrun
    obtain ⟨t, hmove, ht⟩ := hstep s p m q h hq
    obtain ⟨s', hrun, hs'⟩ := ih ht hrest
    refine ⟨s', ?_, hs'⟩
    rw [Iterator.run, runs, hmove]
    exact hrun

/-- **The simulation rule.** It is enough to know one motion at a time. -/
theorem BehavesAs.of_simulation (R : σ → Option Nat → Prop)
    (hentry : ∀ s p, R s p → it.entry s = Cursor.entryAt l p)
    (hstep : ∀ s p m p', R s p → Cursor.step cmp l p m = some p' →
      ∃ s', it.move m s = some s' ∧ R s' p')
    (h : R s p) : BehavesAs it cmp l s p := by
  intro ms p' hrun
  obtain ⟨s', hrun', hs'⟩ := Iterator.run_of_simulation R hstep h hrun
  exact ⟨s', hrun', hentry s' p' hs'⟩

/-- An object that another one is a part of, and that only passes on its motions. -/
theorem BehavesAs.embed {τ : Type*} {it' : Iterator τ K V} {f : σ → τ} (h : BehavesAs it cmp l s p)
    (hentry : ∀ s, it'.entry (f s) = it.entry s)
    (hmove : ∀ m s, it'.move m (f s) = (it.move m s).map f) : BehavesAs it' cmp l (f s) p := by
  apply BehavesAs.of_simulation fun t p => ∃ s, t = f s ∧ BehavesAs it cmp l s p
  case hentry =>
    rintro _ p ⟨s, rfl, hs⟩
    rw [hentry, hs.entry]
  case hstep =>
    rintro _ p m p' ⟨s, rfl, hs⟩ hstep
    obtain ⟨s', hs', hcursor⟩ := hs.move hstep
    exact ⟨f s', by rw [hmove, hs']; rfl, s', rfl, hcursor⟩
  case h => exact ⟨s, rfl, h⟩

/-- A list and a position in it: the cursor as an iterator. -/
def listIterator [Inhabited K] [Inhabited V] (cmp : K → K → Ordering) :
    Iterator (List (Entry K V) × Option Nat) K V where
  valid s := (Cursor.entryAt s.1 s.2).isSome
  key s := ((Cursor.entryAt s.1 s.2).map Entry.key).getD default
  value s := ((Cursor.entryAt s.1 s.2).map Entry.value).getD default
  move m s := (Cursor.step cmp s.1 s.2 m).map fun p => (s.1, p)

theorem listIterator_cursor [Inhabited K] [Inhabited V] (cmp : K → K → Ordering)
    (l : List (Entry K V)) (p : Option Nat) : BehavesAs (listIterator cmp) cmp l (l, p) p := by
  apply BehavesAs.of_simulation fun s p => s = (l, p)
  case hentry =>
    rintro _ p rfl
    cases h : Cursor.entryAt l p <;> simp [Iterator.entry, listIterator, h]
  case hstep =>
    rintro _ p m p' rfl hstep
    exact ⟨(l, p'), by simp [listIterator, hstep], rfl⟩
  case h => rfl

end BehavesAs

/-! ## Ordered lists -/

section Order

variable {σ K V κ : Type*} [LinearOrder κ] {rank : K → κ} {l : List (Entry K V)} {P Q : κ → Prop}
  {x y : Option (Entry K V)}

/-- The entry with the least key among those whose key is in `P`. -/
def IsFirst (rank : K → κ) (l : List (Entry K V)) (P : κ → Prop) : Option (Entry K V) → Prop
  | none => ∀ e ∈ l, ¬ P (rank e.key)
  | some e => e ∈ l ∧ P (rank e.key) ∧ ∀ d ∈ l, P (rank d.key) → rank e.key ≤ rank d.key

/-- The entry with the greatest key among those whose key is in `P`: the first one in the
order upside down. -/
def IsLast (rank : K → κ) (l : List (Entry K V)) (P : κ → Prop) : Option (Entry K V) → Prop :=
  IsFirst (fun k => OrderDual.toDual (rank k)) l fun a => P (OrderDual.ofDual a)

/-- Only the keys that are there matter. -/
theorem IsFirst.congr (h : IsFirst rank l P x)
    (hPQ : ∀ e ∈ l, (P (rank e.key) ↔ Q (rank e.key))) : IsFirst rank l Q x := by
  cases x with
  | none => exact fun e he hQ => h e he ((hPQ e he).mpr hQ)
  | some e =>
    obtain ⟨hmem, hP, hleast⟩ := h
    exact ⟨hmem, (hPQ e hmem).mp hP, fun d hd hQ => hleast d hd ((hPQ d hd).mpr hQ)⟩

/-- Where a motion leads, as a fact about keys. -/
def Lands (rank : K → κ) (l : List (Entry K V)) (x y : Option (Entry K V)) : Motion K → Prop
  | .seekToFirst => IsFirst rank l (fun _ => True) y
  | .seekToLast => IsLast rank l (fun _ => True) y
  | .seek target => IsFirst rank l (rank target ≤ ·) y
  | .next => ∃ e, x = some e ∧ IsFirst rank l (rank e.key < ·) y
  | .prev => ∃ e, x = some e ∧ IsLast rank l (· < rank e.key) y

/-- In increasing order. -/
def Increasing (rank : K → κ) (l : List (Entry K V)) : Prop :=
  l.Pairwise fun a b => rank a.key < rank b.key

theorem Increasing.lt (hl : Increasing rank l) {i j : Nat} {a b : Entry K V} (ha : l[i]? = some a)
    (hb : l[j]? = some b) (hij : i < j) : rank a.key < rank b.key := by
  obtain ⟨hi, rfl⟩ := List.getElem?_eq_some_iff.mp ha
  obtain ⟨hj, rfl⟩ := List.getElem?_eq_some_iff.mp hb
  exact List.pairwise_iff_getElem.mp hl i j hi hj hij

theorem Increasing.le (hl : Increasing rank l) {i j : Nat} {a b : Entry K V} (ha : l[i]? = some a)
    (hb : l[j]? = some b) (hij : i ≤ j) : rank a.key ≤ rank b.key := by
  rcases hij.lt_or_eq with hlt | rfl
  · exact (hl.lt ha hb hlt).le
  · exact (congrArg (fun e => rank e.key) (Option.some.inj (ha.symm.trans hb))).le

theorem Increasing.eq_of_rank_eq (hl : Increasing rank l) :
    ∀ a ∈ l, ∀ b ∈ l, rank a.key = rank b.key → a = b := by
  intro a ha b hb h
  obtain ⟨i, hi⟩ := List.mem_iff_getElem?.mp ha
  obtain ⟨j, hj⟩ := List.mem_iff_getElem?.mp hb
  rcases Nat.lt_trichotomy i j with hlt | rfl | hlt
  · exact absurd h (hl.lt hi hj hlt).ne
  · exact Option.some.inj (hi.symm.trans hj)
  · exact absurd h.symm (hl.lt hj hi hlt).ne

/-- A key is there once, so there is one first entry. -/
theorem IsFirst.unique (hl : ∀ a ∈ l, ∀ b ∈ l, rank a.key = rank b.key → a = b)
    (hx : IsFirst rank l P x) (hy : IsFirst rank l P y) : x = y := by
  cases x with
  | none =>
    cases y with
    | none => rfl
    | some b => exact absurd hy.2.1 (hx b hy.1)
  | some a =>
    cases y with
    | none => exact absurd hx.2.1 (hy a hx.1)
    | some b =>
      have hab := hx.2.2 b hy.1 hy.2.1
      have hba := hy.2.2 a hx.1 hx.2.1
      rw [hl a hx.1 b hy.1 (le_antisymm hab hba)]

/-! First and last by their index. -/

theorem isFirst_getElem? (hl : Increasing rank l) {i : Nat} {e : Entry K V} (he : l[i]? = some e)
    (hP : P (rank e.key)) (hbelow : ∀ j d, l[j]? = some d → j < i → ¬ P (rank d.key)) :
    IsFirst rank l P l[i]? := by
  rw [he]
  refine ⟨List.mem_of_getElem? he, hP, ?_⟩
  intro d hd hPd
  obtain ⟨j, hj⟩ := List.mem_iff_getElem?.mp hd
  exact hl.le he hj (not_lt.mp fun hlt => hbelow j d hj hlt hPd)

theorem isLast_getElem? (hl : Increasing rank l) {i : Nat} {e : Entry K V} (he : l[i]? = some e)
    (hP : P (rank e.key)) (habove : ∀ j d, l[j]? = some d → i < j → ¬ P (rank d.key)) :
    IsLast rank l P l[i]? := by
  rw [he]
  refine ⟨List.mem_of_getElem? he, hP, ?_⟩
  intro d hd hPd
  obtain ⟨j, hj⟩ := List.mem_iff_getElem?.mp hd
  exact hl.le hj he (not_lt.mp fun hlt => habove j d hj hlt hPd)

variable {cmp : K → K → Ordering} {p p' : Option Nat} {m : Motion K}

theorem isFirst_findIdx? (hrank : Ranks cmp rank) (hl : Increasing rank l) (target : K) :
    IsFirst rank l (rank target ≤ ·)
      (Cursor.entryAt l (l.findIdx? fun e => cmp e.key target ≠ .lt)) := by
  have hge : ∀ e : Entry K V,
      decide (cmp e.key target ≠ .lt) = true ↔ rank target ≤ rank e.key := by
    intro e
    rw [decide_eq_true_iff, ne_eq, hrank.lt_iff, not_lt]
  cases hfind : l.findIdx? fun e => decide (cmp e.key target ≠ .lt) with
  | none =>
    intro e he hle
    rw [List.findIdx?_eq_none_iff] at hfind
    exact Bool.false_ne_true ((hfind e he).symm.trans ((hge e).mpr hle))
  | some i =>
    obtain ⟨hi, hP, hbelow⟩ := List.findIdx?_eq_some_iff_getElem.mp hfind
    apply isFirst_getElem? hl (List.getElem?_eq_getElem hi) ((hge _).mp hP)
    intro j d hj hlt hle
    obtain ⟨hjlt, rfl⟩ := List.getElem?_eq_some_iff.mp hj
    exact hbelow j hlt ((hge _).mpr hle)

/-- **A motion of the cursor** in terms of keys. -/
theorem Cursor.step_lands (hrank : Ranks cmp rank) (hl : Increasing rank l)
    (hstep : Cursor.step cmp l p m = some p')
    (hp : m.relative = true → (Cursor.entryAt l p).isSome) :
    Lands rank l (Cursor.entryAt l p) (Cursor.entryAt l p') m := by
  cases m with
  | seekToFirst =>
    obtain rfl := Option.some.inj hstep
    split
    case isTrue hnil =>
      rw [List.eq_nil_of_length_eq_zero hnil]
      exact fun e he => absurd he List.not_mem_nil
    case isFalse hne =>
      have he := List.getElem?_eq_getElem (Nat.pos_of_ne_zero hne)
      exact isFirst_getElem? (P := fun _ => True) hl he trivial
        fun j _ _ hlt => absurd hlt (Nat.not_lt_zero j)
  | seekToLast =>
    obtain rfl := Option.some.inj hstep
    split
    case isTrue hnil =>
      rw [List.eq_nil_of_length_eq_zero hnil]
      exact fun e he => absurd he List.not_mem_nil
    case isFalse hne =>
      have he := List.getElem?_eq_getElem (Nat.sub_one_lt hne)
      apply isLast_getElem? (P := fun _ => True) hl he trivial
      intro j d hj hlt
      obtain ⟨hjlt, -⟩ := List.getElem?_eq_some_iff.mp hj
      omega
  | seek target =>
    obtain rfl := Option.some.inj hstep
    exact isFirst_findIdx? hrank hl target
  | next =>
    obtain ⟨i, rfl, rfl⟩ := Option.map_eq_some_iff.mp hstep
    have hi : i < l.length := by simpa using hp rfl
    have he := List.getElem?_eq_getElem hi
    refine ⟨l[i], he, ?_⟩
    split
    case isTrue hnext =>
      have hd := List.getElem?_eq_getElem hnext
      apply isFirst_getElem? hl hd (hl.lt he hd (Nat.lt_succ_self i))
      intro j d hj hlt
      exact not_lt.mpr (hl.le hj he (Nat.le_of_lt_succ hlt))
    case isFalse hend =>
      intro d hd
      obtain ⟨j, hj⟩ := List.mem_iff_getElem?.mp hd
      obtain ⟨hjlt, -⟩ := List.getElem?_eq_some_iff.mp hj
      exact not_lt.mpr (hl.le hj he (by omega))
  | prev =>
    obtain ⟨i, rfl, rfl⟩ := Option.map_eq_some_iff.mp hstep
    have hi : i < l.length := by simpa using hp rfl
    have he := List.getElem?_eq_getElem hi
    refine ⟨l[i], he, ?_⟩
    split
    case isTrue hzero =>
      intro d hd
      obtain ⟨j, hj⟩ := List.mem_iff_getElem?.mp hd
      exact not_lt.mpr (hl.le he hj (by omega))
    case isFalse hne =>
      have hd := List.getElem?_eq_getElem (lt_of_le_of_lt (Nat.sub_le i 1) hi)
      apply isLast_getElem? (P := (· < rank l[i].key)) hl hd (hl.lt hd he (Nat.sub_one_lt hne))
      intro j d hj hlt
      exact not_lt.mpr (hl.le he hj (by omega))

/-- **A motion of an iterator** that behaves as a cursor, in terms of keys. -/
theorem BehavesAs.lands {it : Iterator σ K V} {s : σ} (h : BehavesAs it cmp l s p)
    (hrank : Ranks cmp rank) (hl : Increasing rank l) (m : Motion K)
    (hm : m.relative = true → it.valid s = true) :
    ∃ s' p', it.move m s = some s' ∧ BehavesAs it cmp l s' p' ∧
      Lands rank l (it.entry s) (it.entry s') m := by
  have hentry : m.relative = true → (Cursor.entryAt l p).isSome := by
    intro hrel
    rw [← h.entry, Iterator.entry, if_pos (hm hrel)]
    rfl
  obtain ⟨p', hstep⟩ : ∃ p', Cursor.step cmp l p m = some p' := by
    cases m with
    | seekToFirst => exact ⟨_, rfl⟩
    | seekToLast => exact ⟨_, rfl⟩
    | seek target => exact ⟨_, rfl⟩
    | next | prev =>
      cases p with
      | none => exact absurd (hentry rfl) Bool.false_ne_true
      | some i => exact ⟨_, rfl⟩
  obtain ⟨s', hmove, hs'⟩ := h.move hstep
  refine ⟨s', p', hmove, hs', ?_⟩
  rw [h.entry, hs'.entry]
  exact Cursor.step_lands hrank hl hstep hentry

theorem Lands.unique (hl : Increasing rank l) {y' : Option (Entry K V)} (h : Lands rank l x y m)
    (h' : Lands rank l x y' m) : y = y' := by
  have hfirst : ∀ {P : κ → Prop}, IsFirst rank l P y → IsFirst rank l P y' → y = y' :=
    IsFirst.unique hl.eq_of_rank_eq
  have hlast : ∀ {P : κ → Prop}, IsLast rank l P y → IsLast rank l P y' → y = y' :=
    IsFirst.unique hl.eq_of_rank_eq
  cases m with
  | seekToFirst => exact hfirst (P := fun _ => True) h h'
  | seekToLast => exact hlast (P := fun _ => True) h h'
  | seek target => exact hfirst h h'
  | next =>
    obtain ⟨e, he, h⟩ := h
    obtain ⟨e', he', h'⟩ := h'
    obtain rfl := Option.some.inj (he.symm.trans he')
    exact hfirst h h'
  | prev =>
    obtain ⟨e, he, h⟩ := h
    obtain ⟨e', he', h'⟩ := h'
    obtain rfl := Option.some.inj (he.symm.trans he')
    exact hlast h h'

/-- A cursor that starts inside the list, or nowhere, stays so. -/
theorem Cursor.step_lt (hstep : Cursor.step cmp l p m = some p')
    (hp : ∀ i, p = some i → i < l.length) : ∀ i, p' = some i → i < l.length := by
  intro i hi
  cases m with
  | seekToFirst =>
    obtain rfl := Option.some.inj hstep
    split at hi
    case isTrue => cases hi
    case isFalse hne =>
      rw [← Option.some.inj hi]
      exact Nat.pos_of_ne_zero hne
  | seekToLast =>
    obtain rfl := Option.some.inj hstep
    split at hi
    case isTrue => cases hi
    case isFalse hne =>
      rw [← Option.some.inj hi]
      exact Nat.sub_one_lt hne
  | seek target =>
    obtain rfl := Option.some.inj hstep
    exact (List.findIdx?_eq_some_iff_getElem.mp hi).1
  | next =>
    obtain ⟨j, rfl, rfl⟩ := Option.map_eq_some_iff.mp hstep
    split at hi
    case isTrue hlt => rwa [← Option.some.inj hi]
    case isFalse => cases hi
  | prev =>
    obtain ⟨j, rfl, rfl⟩ := Option.map_eq_some_iff.mp hstep
    split at hi
    case isTrue => cases hi
    case isFalse =>
      rw [← Option.some.inj hi]
      exact lt_of_le_of_lt (Nat.sub_le j 1) (hp j rfl)

/-- **The rule for ordered lists.** An iterator is a cursor when each of its motions leads to
the right key. -/
theorem BehavesAs.of_lands {it : Iterator σ K V} (hrank : Ranks cmp rank) (hl : Increasing rank l)
    (Good : σ → Prop)
    (hmove : ∀ s m, Good s → (m.relative = true → it.valid s = true) →
      ∃ s', it.move m s = some s' ∧ Good s' ∧ Lands rank l (it.entry s) (it.entry s') m)
    {s : σ} (hs : Good s) (hnone : it.entry s = none) : BehavesAs it cmp l s none := by
  apply BehavesAs.of_simulation fun s p => Good s ∧ it.entry s = Cursor.entryAt l p ∧
    ∀ i, p = some i → i < l.length
  case hentry => exact fun s p h => h.2.1
  case h => exact ⟨hs, hnone, nofun⟩
  case hstep =>
    rintro s p m p' ⟨hgood, hentry, hp⟩ hstep
    have hsome : m.relative = true → (Cursor.entryAt l p).isSome := by
      intro hrel
      cases p with
      | none => cases m <;> simp_all [Cursor.step, Motion.relative]
      | some i => simpa using hp i rfl
    have hvalid : m.relative = true → it.valid s = true := by
      intro hrel
      have hsome := hsome hrel
      rw [← hentry] at hsome
      obtain ⟨e, he⟩ := Option.isSome_iff_exists.mp hsome
      exact (Iterator.entry_eq_some.mp he).1
    obtain ⟨s', hmove, hgood', hlands⟩ := hmove s m hgood hvalid
    rw [hentry] at hlands
    exact ⟨s', hmove, hgood', hlands.unique hl (Cursor.step_lands hrank hl hstep hsome),
      Cursor.step_lt hstep hp⟩

end Order

end Lpad
