import Mathlib.Data.List.Basic

/-!
# `std::map` with unsigned keys

A finite map as a list of key/value pairs, with the three operations of
`std::map` a program usually needs. `insert` is the one of the standard: it does
nothing when the key is present. Everything is stated through `find`.
-/

namespace Lpad

/-- A finite map. No key is ever stored twice by the operations below. -/
abbrev StdMap (α : Type*) : Type _ := List (Nat × α)

namespace StdMap

variable {α : Type*}

/-- `find(k)`; `none` is `end()`. -/
def find : StdMap α → Nat → Option α
  | [], _ => none
  | (k', v) :: m, k => if k' = k then some v else find m k

/-- `insert(value_type(k, v))`: an existing entry stays as it is. -/
def insert (m : StdMap α) (k : Nat) (v : α) : StdMap α :=
  if (m.find k).isSome then m else (k, v) :: m

/-- `erase(k)` -/
def erase (m : StdMap α) (k : Nat) : StdMap α := m.filter fun e => decide (e.1 ≠ k)

@[simp] theorem find_nil (k : Nat) : find ([] : StdMap α) k = none := rfl

theorem find_cons_self (m : StdMap α) (k : Nat) (v : α) :
    find ((k, v) :: m) k = some v := by
  simp [find]

theorem find_cons_ne {k k' : Nat} (h : k' ≠ k) (m : StdMap α) (v : α) :
    find ((k', v) :: m) k = find m k := by
  simp [find, h]

theorem find_insert_self {m : StdMap α} {k : Nat} (h : m.find k = none) (v : α) :
    (m.insert k v).find k = some v := by
  rw [insert, h]
  exact find_cons_self m k v

theorem find_insert_ne {m : StdMap α} {k k' : Nat} (h : k' ≠ k) (v : α) :
    (m.insert k v).find k' = m.find k' := by
  unfold insert
  split
  · rfl
  · exact find_cons_ne (Ne.symm h) m v

/-- What a lookup after an insertion can return. -/
theorem find_insert_cases {m : StdMap α} {k k' : Nat} {v v' : α}
    (h : (m.insert k v).find k' = some v') :
    m.find k' = some v' ∨ k' = k ∧ v' = v := by
  by_cases hk : k' = k
  · subst hk
    cases hf : m.find k' with
    | some w =>
      rw [insert, hf] at h
      left
      rw [← hf]
      exact h
    | none =>
      rw [find_insert_self hf] at h
      exact Or.inr ⟨rfl, (Option.some.inj h).symm⟩
  · rw [find_insert_ne hk] at h
    exact Or.inl h

theorem find_append : ∀ (m m' : StdMap α) (k : Nat),
    find (m ++ m') k = (m.find k).or (m'.find k)
  | [], _, _ => rfl
  | (j, v) :: m, m', k => by
    by_cases hj : j = k
    · simp [find, hj]
    · simp [find, hj, find_append m m' k]

theorem find_insert (m : StdMap α) (k k' : Nat) (v : α) :
    (m.insert k v).find k' = (m.find k').or (find [(k, v)] k') := by
  by_cases hk : k' = k
  · subst hk
    cases hf : m.find k' with
    | some w =>
      rw [insert, hf]
      exact hf
    | none =>
      rw [find_insert_self hf, find_cons_self]
      rfl
  · rw [find_insert_ne hk, find_cons_ne (Ne.symm hk), find_nil, Option.or_none]

theorem find_eq_none_iff : ∀ {m : StdMap α} {k : Nat}, m.find k = none ↔ k ∉ m.map Prod.fst
  | [], _ => by simp
  | (j, v) :: m, k => by
    by_cases hj : j = k
    · simp [find, hj]
    · simp [find, hj, find_eq_none_iff, Ne.symm hj]

theorem length_insert_le (m : StdMap α) (k : Nat) (v : α) :
    (m.insert k v).length ≤ m.length + 1 := by
  unfold insert
  split
  · exact Nat.le_succ _
  · exact Nat.le_refl _

theorem find_erase_self : ∀ (m : StdMap α) (k : Nat), (m.erase k).find k = none
  | [], _ => rfl
  | (k', v) :: m, k => by
    by_cases hk : k' = k
    · have := find_erase_self m k
      simpa [erase, hk] using this
    · have := find_erase_self m k
      simpa [erase, hk, find] using this

theorem find_erase_ne : ∀ (m : StdMap α) {k k' : Nat}, k' ≠ k →
    (m.erase k).find k' = m.find k'
  | [], _, _, _ => rfl
  | (j, v) :: m, k, k', h => by
    have ih := find_erase_ne m h
    by_cases hj : j = k
    · subst hj
      rw [find_cons_ne (Ne.symm h), ← ih]
      simp [erase]
    · have hcons : StdMap.erase ((j, v) :: m) k = (j, v) :: StdMap.erase m k := by
        simp [erase, hj]
      rw [hcons]
      simp only [find, ih]

theorem find_erase_some {m : StdMap α} {k k' : Nat} {v : α}
    (h : (m.erase k).find k' = some v) : m.find k' = some v ∧ k' ≠ k := by
  by_cases hk : k' = k
  · subst hk
    rw [find_erase_self] at h
    simp at h
  · rw [find_erase_ne m hk] at h
    exact ⟨h, hk⟩

theorem mem_of_find : ∀ {m : StdMap α} {k : Nat} {v : α}, m.find k = some v → (k, v) ∈ m
  | [], _, _, h => by simp at h
  | (k', w) :: m, k, v, h => by
    by_cases hk : k' = k
    · subst hk
      rw [find_cons_self] at h
      rw [Option.some.inj h]
      exact List.mem_cons_self
    · rw [find_cons_ne hk] at h
      exact List.mem_cons_of_mem _ (mem_of_find h)

/-- Erasing a present key makes the map smaller. -/
theorem length_erase_lt {m : StdMap α} {k : Nat} {v : α} (h : m.find k = some v) :
    (m.erase k).length < m.length := by
  apply List.length_filter_lt_length_iff_exists.mpr
  exact ⟨(k, v), mem_of_find h, by simp⟩

theorem eq_nil_of_find : ∀ {m : StdMap α}, (∀ k, m.find k = none) → m = []
  | [], _ => rfl
  | (k, v) :: m, h => by
    have := h k
    rw [find_cons_self] at this
    simp at this

end StdMap

end Lpad
