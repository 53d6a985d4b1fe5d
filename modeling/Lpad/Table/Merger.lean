import Lpad.Format.Comparator
import Lpad.Format.Status

/-!
# The merging iterator in both directions

`merger.cpp` and `iterator_wrapper.h`. The children are any objects of class `Iterator`;
their methods are a parameter. An assertion that fails does not return.
-/

namespace Lpad.Table

variable {σ : Type}

/-- An `IteratorWrapper` keeps what `Valid()` and `key()` last answered. -/
structure IteratorWrapper (σ : Type) where
  iter : σ
  valid : Bool
  key : Bytes

namespace IteratorWrapper

variable (it : Iterator σ Bytes Bytes)

/-- `Set` of a new wrapper, which has an empty `key_`. -/
def set (iter : σ) : IteratorWrapper σ :=
  ⟨iter, it.valid iter, if it.valid iter then it.key iter else []⟩

def update (w : IteratorWrapper σ) (iter : σ) : IteratorWrapper σ :=
  ⟨iter, it.valid iter, if it.valid iter then it.key iter else w.key⟩

/-- A motion of `iter_`, and `Update`. -/
def move (m : Motion Bytes) (w : IteratorWrapper σ) : Option (IteratorWrapper σ) :=
  (it.move m w.iter).map (w.update it)

end IteratorWrapper

/-- `current_` is the index of a child. -/
structure MergingIterator (σ : Type) where
  children : Nat → IteratorWrapper σ
  n : Nat
  current : Option Nat
  direction : Direction

section Code

variable (it : Iterator σ Bytes Bytes) (cmp : Bytes → Bytes → Ordering)

/-- What `FindSmallest` and `FindLargest` do with a child. They differ in the order of the
children and in the result of `Compare` that makes a child the new one. -/
def findStep (wanted : Ordering) (children : Nat → IteratorWrapper σ) (found : Option Nat)
    (i : Nat) : Option Nat :=
  if (children i).valid then
    match found with
    | none => some i
    | some s => if cmp (children i).key (children s).key = wanted then some i else some s
  else found

/-- A loop over all children. -/
def forEachChild (n : Nat) (f : Nat → IteratorWrapper σ → Option (IteratorWrapper σ))
    (children : Nat → IteratorWrapper σ) : Option (Nat → IteratorWrapper σ) :=
  (List.range n).foldlM
    (fun children i => (f i (children i)).map (Function.update children i)) children

/-- `Next` in the reverse direction, for a child that is not the current one. -/
def positionAfter (key : Bytes) (child : IteratorWrapper σ) : Option (IteratorWrapper σ) := do
  let child ← child.move it (.seek key)
  if child.valid ∧ cmp key child.key = .eq then child.move it .next else some child

/-- `Prev` in the forward direction, for a child that is not the current one. -/
def positionBefore (key : Bytes) (child : IteratorWrapper σ) : Option (IteratorWrapper σ) := do
  let child ← child.move it (.seek key)
  if child.valid then child.move it .prev else child.move it .seekToLast

namespace MergingIterator

def new (children : Nat → σ) (n : Nat) : MergingIterator σ :=
  ⟨fun i => .set it (children i), n, none, .forward⟩

def findSmallest (mi : MergingIterator σ) : MergingIterator σ :=
  { mi with current := (List.range mi.n).foldl (findStep cmp .lt mi.children) none }

def findLargest (mi : MergingIterator σ) : MergingIterator σ :=
  { mi with current := (List.range mi.n).reverse.foldl (findStep cmp .gt mi.children) none }

def seekToFirst (mi : MergingIterator σ) : Option (MergingIterator σ) := do
  let children ← forEachChild mi.n (fun _ => IteratorWrapper.move it .seekToFirst) mi.children
  return { findSmallest cmp { mi with children } with direction := .forward }

def seekToLast (mi : MergingIterator σ) : Option (MergingIterator σ) := do
  let children ← forEachChild mi.n (fun _ => IteratorWrapper.move it .seekToLast) mi.children
  return { findLargest cmp { mi with children } with direction := .reverse }

def seek (target : Bytes) (mi : MergingIterator σ) : Option (MergingIterator σ) := do
  let children ← forEachChild mi.n (fun _ => IteratorWrapper.move it (.seek target)) mi.children
  return { findSmallest cmp { mi with children } with direction := .forward }

/-- All children but the current one are positioned after `key()`. -/
def ensureAfter (mi : MergingIterator σ) (c : Nat) : Option (Nat → IteratorWrapper σ) :=
  if mi.direction ≠ .forward then
    forEachChild mi.n (fun i child => if i ≠ c then
      positionAfter it cmp (mi.children c).key child else some child) mi.children
  else some mi.children

def next (mi : MergingIterator σ) : Option (MergingIterator σ) := do
  let c ← mi.current
  let children ← ensureAfter it cmp mi c
  let child ← (children c).move it .next
  return findSmallest cmp
    { mi with children := Function.update children c child, direction := .forward }

/-- All children but the current one are positioned before `key()`. -/
def ensureBefore (mi : MergingIterator σ) (c : Nat) : Option (Nat → IteratorWrapper σ) :=
  if mi.direction ≠ .reverse then
    forEachChild mi.n (fun i child => if i ≠ c then
      positionBefore it (mi.children c).key child else some child) mi.children
  else some mi.children

def prev (mi : MergingIterator σ) : Option (MergingIterator σ) := do
  let c ← mi.current
  let children ← ensureBefore it mi c
  let child ← (children c).move it .prev
  return findLargest cmp
    { mi with children := Function.update children c child, direction := .reverse }

/-- The loop of `status`: the last status that was read. -/
def statusLoop (status : σ → Status) (children : Nat → IteratorWrapper σ) :
    List Nat → Status → Status
  | [], st => st
  | i :: is, _ =>
    let st := status (children i).iter
    if st.isOk then statusLoop status children is st else st

def status (status : σ → Status) (mi : MergingIterator σ) : Status :=
  statusLoop status mi.children (List.range mi.n) .ok

end MergingIterator

/-- The class `MergingIterator` over children of another class. -/
def mergingIterator : Iterator (MergingIterator σ) Bytes Bytes where
  valid mi := mi.current.isSome
  key mi := (mi.current.map fun c => (mi.children c).key).getD []
  value mi := (mi.current.map fun c => it.value (mi.children c).iter).getD []
  move
    | .seekToFirst => MergingIterator.seekToFirst it cmp
    | .seekToLast => MergingIterator.seekToLast it cmp
    | .seek target => MergingIterator.seek it cmp target
    | .next => MergingIterator.next it cmp
    | .prev => MergingIterator.prev it cmp

/-! ## `NewMergingIterator` -/

/-- The three kinds of objects that it returns; the first is an `EmptyIterator`. -/
inductive Merged (σ : Type) where
  | empty
  | single (iter : σ)
  | merging (mi : MergingIterator σ)

def newMergingIterator (children : Nat → σ) (n : Nat) : Merged σ :=
  if n = 0 then .empty
  else if n = 1 then .single (children 0)
  else .merging (.new it children n)

def mergedIterator : Iterator (Merged σ) Bytes Bytes where
  valid
    | .empty => false
    | .single iter => it.valid iter
    | .merging mi => (mergingIterator it cmp).valid mi
  key
    | .empty => []
    | .single iter => it.key iter
    | .merging mi => (mergingIterator it cmp).key mi
  value
    | .empty => []
    | .single iter => it.value iter
    | .merging mi => (mergingIterator it cmp).value mi
  move m
    | .empty => if m.relative then none else some .empty
    | .single iter => (it.move m iter).map .single
    | .merging mi => ((mergingIterator it cmp).move m mi).map .merging

def Merged.status (status : σ → Status) : Merged σ → Status
  | .empty => .ok
  | .single iter => status iter
  | .merging mi => mi.status status

end Code

/-! ## The loops -/

theorem forEachChild_spec {n : Nat} {f : Nat → IteratorWrapper σ → Option (IteratorWrapper σ)}
    {children : Nat → IteratorWrapper σ} {Q : Nat → IteratorWrapper σ → Prop}
    (h : ∀ i < n, ∃ w, f i (children i) = some w ∧ Q i w) :
    ∃ children', forEachChild n f children = some children' ∧ ∀ i < n, Q i (children' i) := by
  -- the children that the loop has not reached are as before
  suffices hloop : ∃ children', forEachChild n f children = some children' ∧
      (∀ i < n, Q i (children' i)) ∧ ∀ i, n ≤ i → children' i = children i by
    obtain ⟨children', hrun, hdone, -⟩ := hloop
    exact ⟨children', hrun, hdone⟩
  induction n with
  | zero => exact ⟨children, rfl, fun i hi => absurd hi (Nat.not_lt_zero i), fun _ _ => rfl⟩
  | succ n ih =>
    obtain ⟨children', hrun, hdone, hrest⟩ := ih fun i hi => h i (Nat.lt_succ_of_lt hi)
    obtain ⟨w, hw, hQ⟩ := h n (Nat.lt_succ_self n)
    refine ⟨Function.update children' n w, ?_, ?_, ?_⟩
    · rw [forEachChild, List.range_succ, List.foldlM_append, ← forEachChild, hrun]
      simp [hrest n (le_refl n), hw]
    · intro i hi
      rcases Nat.lt_succ_iff_lt_or_eq.mp hi with hlt | rfl
      · rw [Function.update_of_ne hlt.ne]
        exact hdone i hlt
      · rwa [Function.update_self]
    · intro i hi
      rw [Function.update_of_ne (Nat.ne_of_gt hi)]
      exact hrest i (Nat.le_of_succ_le hi)

section Found

variable {κ : Type*} [LinearOrder κ] {rank : Bytes → κ} {children : Nat → IteratorWrapper σ}
  {order : List Nat} {found : Option Nat} {j : Nat}

/-- What a search over the children has found: a least key, and the first child among those
that have it. -/
def Found (rank : Bytes → κ) (children : Nat → IteratorWrapper σ) (order : List Nat) :
    Option Nat → Prop
  | none => ∀ i ∈ order, (children i).valid = false
  | some c => (children c).valid = true ∧ ∃ before after, order = before ++ c :: after ∧
      (∀ i ∈ before, (children i).valid = true → rank (children c).key < rank (children i).key) ∧
      ∀ i ∈ after, (children i).valid = true → rank (children c).key ≤ rank (children i).key

theorem Found.least {c : Nat} (h : Found rank children order (some c)) :
    c ∈ order ∧ (children c).valid = true ∧ ∀ i ∈ order, (children i).valid = true →
      rank (children c).key ≤ rank (children i).key := by
  obtain ⟨hvalid, before, after, rfl, hbefore, hafter⟩ := h
  refine ⟨List.mem_append_right _ List.mem_cons_self, hvalid, ?_⟩
  intro i hi hv
  rcases List.mem_append.mp hi with hi | hi
  · exact (hbefore i hi hv).le
  · rcases List.mem_cons.mp hi with rfl | hi
    · exact le_rfl
    · exact hafter i hi hv

/-- The next child is not valid or not better. -/
theorem Found.keep (h : Found rank children order found)
    (hj : (children j).valid = true →
      ∃ c, found = some c ∧ rank (children c).key ≤ rank (children j).key) :
    Found rank children (order ++ [j]) found := by
  cases found with
  | none =>
    intro i hi
    rcases List.mem_append.mp hi with hi | hi
    · exact h i hi
    · rw [List.mem_singleton.mp hi, Bool.eq_false_iff]
      rintro hvalid
      obtain ⟨c, hc, -⟩ := hj hvalid
      cases hc
  | some c =>
    obtain ⟨hvalid, before, after, rfl, hbefore, hafter⟩ := h
    refine ⟨hvalid, before, after ++ [j], by simp, hbefore, ?_⟩
    intro i hi hv
    rcases List.mem_append.mp hi with hi | hi
    · exact hafter i hi hv
    · obtain rfl := List.mem_singleton.mp hi
      obtain ⟨d, hd, hle⟩ := hj hv
      obtain rfl := Option.some.inj hd
      exact hle

/-- The next child is the new one. -/
theorem Found.take (h : Found rank children order found) (hj : (children j).valid = true)
    (hless : ∀ c, found = some c → rank (children j).key < rank (children c).key) :
    Found rank children (order ++ [j]) (some j) := by
  refine ⟨hj, order, [], rfl, ?_, fun i hi => absurd hi List.not_mem_nil⟩
  intro i hi hvalid
  cases found with
  | none => exact absurd hvalid (by rw [h i hi]; decide)
  | some c => exact (hless c rfl).trans_le (h.least.2.2 i hi hvalid)

/-- `FindSmallest` finds a least key. In the order upside down it is `FindLargest`. -/
theorem foldl_findStep {cmp : Bytes → Bytes → Ordering} {wanted : Ordering}
    (hwanted : ∀ a b, cmp a b = wanted ↔ rank a < rank b) (children : Nat → IteratorWrapper σ)
    (order : List Nat) :
    Found rank children order (order.foldl (findStep cmp wanted children) none) := by
  induction order using List.reverseRecOn with
  | nil => exact fun i hi => absurd hi List.not_mem_nil
  | append_singleton order j ih =>
    rw [List.foldl_append, List.foldl_cons, List.foldl_nil]
    generalize order.foldl (findStep cmp wanted children) none = found at ih ⊢
    unfold findStep
    split
    case isFalse hinvalid => exact ih.keep fun hvalid => absurd hvalid hinvalid
    case isTrue hvalid =>
      cases found with
      | none => exact ih.take hvalid fun c hc => absurd hc (by simp)
      | some s =>
        dsimp only
        split
        case isTrue hless =>
          apply ih.take hvalid
          intro c hc
          obtain rfl := Option.some.inj hc
          exact (hwanted _ _).mp hless
        case isFalse hnot =>
          rw [hwanted, not_lt] at hnot
          exact ih.keep fun _ => ⟨s, rfl, hnot⟩

end Found

/-- **`status`** is OK exactly when that of every child is. -/
theorem MergingIterator.status_isOk (status : σ → Status) (mi : MergingIterator σ) :
    (mi.status status).isOk = true ↔
      ∀ i < mi.n, (status (mi.children i).iter).isOk = true := by
  have hloop : ∀ (order : List Nat) (st : Status), st.isOk = true →
      ((statusLoop status mi.children order st).isOk = true ↔
        ∀ i ∈ order, (status (mi.children i).iter).isOk = true) := by
    intro order
    induction order with
    | nil =>
      intro st hst
      simp [statusLoop, hst]
    | cons i is ih =>
      intro st _
      rw [statusLoop, List.forall_mem_cons]
      split
      case isTrue hok =>
        rw [ih _ hok]
        exact ⟨fun h => ⟨hok, h⟩, fun h => h.2⟩
      case isFalse hbad =>
        exact ⟨fun h => absurd h hbad, fun h => absurd h.1 hbad⟩
  rw [MergingIterator.status, hloop _ _ rfl]
  simp only [List.mem_range]

end Lpad.Table
