import Lpad.DB.SkipListOrdered
import Mathlib.Data.List.Sort

/-!
# Levels and searches of the skip list

The nodes in the order of their keys give the keys of every level (`Ordered.levels`). A search
ends at the first entry of the lowest one that is not below the key.
-/

namespace Lpad.SkipList

variable {K : Type} {cmp : K → K → Ordering} {κ : Type*} [LinearOrder κ] {rank : K → κ}
  {l : SkipList K}

/-! ## Levels -/

/-- The nodes in order. -/
theorem Ordered.exists_order (h : Ordered rank l) :
    ∃ order : List Nat, order.Perm (List.range l.nodes.length) ∧
      order.Pairwise fun i j => l.nodeRank rank i < l.nodeRank rank j := by
  let le := fun i j : Nat => l.nodeRank rank i ≤ l.nodeRank rank j
  have htotal : Std.Total le := ⟨fun i j => le_total _ _⟩
  have htrans : IsTrans Nat le := ⟨fun i j k => le_trans⟩
  have hperm := List.perm_insertionSort le (List.range l.nodes.length)
  refine ⟨(List.range l.nodes.length).insertionSort le, hperm, ?_⟩
  have hsorted := List.pairwise_insertionSort le (List.range l.nodes.length)
  have hnodup : ((List.range l.nodes.length).insertionSort le).Nodup :=
    hperm.nodup_iff.mpr List.nodup_range
  apply (hsorted.and hnodup).imp_of_mem
  rintro i j hi hj ⟨hle, hne⟩
  rw [hperm.mem_iff, List.mem_range] at hi hj
  exact lt_of_le_of_ne hle fun heq =>
    hne (h.linked.distinct i j (h.bottom i hi) (h.bottom j hj) heq)

/-- The keys of some nodes. -/
def keysOf (l : SkipList K) (is : List Nat) : List K :=
  is.filterMap fun i => l.nodes[i]?.map SkipNode.key

theorem filterMap_range_getElem? {α β : Type*} (f : α → β) (xs : List α) :
    ((List.range xs.length).filterMap fun i => xs[i]?.map f) = xs.map f := by
  induction xs using List.reverseRecOn with
  | nil => rfl
  | append_singleton xs x ih =>
    have hfront : ((List.range xs.length).filterMap fun i => (xs ++ [x])[i]?.map f) =
        (List.range xs.length).filterMap fun i => xs[i]?.map f := by
      apply List.filterMap_congr
      intro i hi
      rw [List.getElem?_append_left (List.mem_range.mp hi)]
    rw [List.length_append, List.length_singleton, List.range_succ, List.filterMap_append, hfront,
      ih, List.map_append]
    simp

theorem follow_of_walk {ℓ fuel : Nat} {n : Option Nat} {is : List Nat}
    (h : Skip.Walk l.next ℓ n is) (hfuel : is.length ≤ fuel) :
    l.follow ℓ fuel n = some (l.keysOf is) := by
  induction is generalizing n fuel with
  | nil =>
    cases n with
    | none => cases fuel <;> rfl
    | some i => exact absurd h id
  | cons j is ih =>
    cases n with
    | none => exact absurd h id
    | some i =>
      obtain ⟨rfl, n, hn, hwalk⟩ := h
      obtain ⟨fuel, rfl⟩ : ∃ f, fuel = f + 1 := Nat.exists_eq_add_one.mpr (by
        rw [List.length_cons] at hfuel
        omega)
      obtain ⟨node, hnode, -⟩ := OnLevel.getElem? (List.getElem?_eq_some_iff.mp hn).1
      have hnext : node.next[ℓ]? = some n := by
        rw [next, links] at hn
        simpa only [hnode] using hn
      unfold follow
      simp only [hnode, hnext, ih hwalk (Nat.le_of_succ_le_succ hfuel), Option.map_some, keysOf,
        List.filterMap_cons]

/-- **The levels.** -/
theorem Ordered.levels (h : Ordered rank l) :
    ∃ levels : Nat → List K, (∀ ℓ < kMaxHeight, l.levelKeys ℓ = some (levels ℓ)) ∧
      (∀ ℓ, (levels (ℓ + 1)).Sublist (levels ℓ)) ∧
      (levels 0).Perm (l.nodes.map SkipNode.key) ∧
      (levels 0).Pairwise fun a b => rank a < rank b := by
  obtain ⟨order, hperm, hsorted⟩ := h.exists_order
  have hmem : ∀ i, l.OnLevel 0 i ↔ i ∈ order := by
    intro i
    rw [hperm.mem_iff, List.mem_range]
    exact ⟨OnLevel.lt_length, h.bottom i⟩
  refine ⟨fun ℓ => l.keysOf (order.filter (l.OnLevel ℓ ·)), ?_, ?_, ?_, ?_⟩
  · intro ℓ hℓ
    obtain ⟨n, hn, hwalk⟩ := h.linked.walk hℓ hsorted hmem
    rw [levelKeys, hn, Option.bind_some]
    apply follow_of_walk hwalk
    have hlen := hperm.length_eq
    rw [List.length_range] at hlen
    exact hlen ▸ List.length_filter_le _ _
  · intro ℓ
    apply List.Sublist.filterMap
    apply List.monotone_filter_right
    intro i hi
    exact decide_eq_true (h.linked.lower ℓ i (of_decide_eq_true hi))
  · have hall : order.filter (l.OnLevel 0 ·) = order :=
      List.filter_eq_self.mpr fun i hi => decide_eq_true ((hmem i).mpr hi)
    dsimp only
    rw [hall, ← filterMap_range_getElem?]
    exact hperm.filterMap _
  · dsimp only
    rw [keysOf, List.pairwise_filterMap]
    apply (hsorted.sublist List.filter_sublist).imp
    intro i j hij a ha b hb
    obtain ⟨m, hm, rfl⟩ := Option.map_eq_some_iff.mp ha
    obtain ⟨n, hn, rfl⟩ := Option.map_eq_some_iff.mp hb
    rwa [nodeRank_of_getElem? hm, nodeRank_of_getElem? hn, WithBot.coe_lt_coe] at hij

/-! ## The iterator -/

section Cursor

variable [Inhabited K]

/-- What the iterator shows on a node. -/
def entryOf (k : K) : Entry K Unit := ⟨k, ()⟩

theorem iterator_entry_none : (l.iterator cmp).entry none = none := rfl

theorem iterator_entry {i : Nat} {n : SkipNode K} (hn : l.nodes[i]? = some n) :
    (l.iterator cmp).entry (some i) = some (entryOf n.key) := by
  rw [Iterator.entry_eq_some]
  refine ⟨rfl, ?_, rfl⟩
  show l.iteratorKey (some i) = n.key
  rw [iteratorKey, Option.bind_some, hn]

variable {entries : List (Entry K Unit)}

/-- The entries are the keys of the nodes. -/
def Lists (l : SkipList K) (entries : List (Entry K Unit)) : Prop :=
  ∀ e, e ∈ entries ↔ ∃ i n, l.OnLevel 0 i ∧ l.nodes[i]? = some n ∧ e = entryOf n.key

omit [Inhabited K] in
theorem Ordered.lists (h : Ordered rank l) {ks : List K}
    (hperm : ks.Perm (l.nodes.map SkipNode.key)) : l.Lists (ks.map entryOf) := by
  intro e
  rw [List.mem_map]
  constructor
  · rintro ⟨k, hk, rfl⟩
    obtain ⟨n, hmem, rfl⟩ := List.mem_map.mp (hperm.mem_iff.mp hk)
    obtain ⟨i, hi⟩ := List.mem_iff_getElem?.mp hmem
    exact ⟨i, n, h.bottom i (List.getElem?_eq_some_iff.mp hi).1, hi, rfl⟩
  · rintro ⟨i, n, -, hn, rfl⟩
    exact ⟨n.key, hperm.mem_iff.mpr (List.mem_map_of_mem (List.mem_of_getElem? hn)), rfl⟩

theorem isFirst_of_firstOf (hlists : l.Lists entries) {P : κ → Prop} {Q : WithBot κ → Prop}
    (hPQ : ∀ a : κ, P a ↔ Q a) {n : Option Nat}
    (h : Skip.FirstOf (l.nodeRank rank) (fun i => l.OnLevel 0 i ∧ Q (l.nodeRank rank i)) n) :
    IsFirst rank entries P ((l.iterator cmp).entry n) := by
  cases n with
  | none =>
    rw [iterator_entry_none]
    intro e he hP
    obtain ⟨i, n, hi, hn, rfl⟩ := (hlists e).mp he
    refine h i ⟨hi, ?_⟩
    rw [nodeRank_of_getElem? hn]
    exact (hPQ _).mp hP
  | some i =>
    obtain ⟨⟨hi, hQ⟩, hle⟩ := h
    obtain ⟨n, hn, -⟩ := hi.getElem?
    rw [nodeRank_of_getElem? hn] at hQ hle
    rw [iterator_entry hn]
    refine ⟨(hlists _).mpr ⟨i, n, hi, hn, rfl⟩, (hPQ _).mpr hQ, ?_⟩
    intro e he hP
    obtain ⟨j, m, hj, hm, rfl⟩ := (hlists e).mp he
    have hrank := hle j ⟨hj, by rw [nodeRank_of_getElem? hm]; exact (hPQ _).mp hP⟩
    rwa [nodeRank_of_getElem? hm, WithBot.coe_le_coe] at hrank

theorem findGreaterOrEqual_spec (hrank : Ranks cmp rank) (h : Ordered rank l)
    (hlists : l.Lists entries) (key : K) :
    ∃ n prev, l.findGreaterOrEqual cmp key = some (n, prev) ∧ (∀ i, n = some i → l.OnLevel 0 i) ∧
      IsFirst rank entries (rank key ≤ ·) ((l.iterator cmp).entry n) := by
  obtain ⟨x, n, prev, hsearch, -, hfirst, -⟩ := search_spec h
    (P := (· < (rank key : WithBot κ))) (fun _ _ hab hb => lt_of_le_of_lt hab hb)
    (fun i hi => keyIsAfterNode_iff hrank key i hi)
  refine ⟨n, prev, ?_, ?_, isFirst_of_firstOf (Q := fun a => ¬ a < (rank key : WithBot κ)) hlists
    ?_ hfirst⟩
  · rw [findGreaterOrEqual, hsearch]
    rfl
  · rintro i rfl
    exact hfirst.1.1
  · intro a
    rw [not_lt, WithBot.coe_le_coe]

end Cursor

end Lpad.SkipList
