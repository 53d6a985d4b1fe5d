import Mathlib.Data.List.Nodup
import Mathlib.Data.List.Perm.Basic

/-!
# Reference counts

Objects sit on a list, each with a count of the references to it. An object leaves
the list when its last reference is dropped. `Counts` ties the list to the references
that are out: as long as every reference is dropped at most once, an object is on the
list exactly while somebody holds it.
-/

namespace Lpad

variable {α : Type*}

/-- An object on the list. -/
structure Cell (α : Type*) where
  id : Nat
  value : α
  refs : Nat

/-- A reference: the object, and the value its holder expects to find there. -/
structure Handle (α : Type*) where
  id : Nat
  value : α

/-- One more reference to an object. -/
def addRef (id : Nat) (cells : List (Cell α)) : List (Cell α) :=
  cells.map fun c => if c.id = id then { c with refs := c.refs + 1 } else c

def Cell.drop (id : Nat) (c : Cell α) : Option (Cell α) :=
  if c.id = id then
    if c.refs - 1 = 0 then none else some { c with refs := c.refs - 1 }
  else some c

/-- One reference less; without references the object goes. -/
def dropRef (id : Nat) (cells : List (Cell α)) : List (Cell α) :=
  cells.filterMap (Cell.drop id)

/-- A new object, with one reference to it. -/
def addCell (id : Nat) (value : α) (cells : List (Cell α)) : List (Cell α) :=
  cells ++ [⟨id, value, 1⟩]

/-! ## The operations, cell by cell -/

theorem addRef_ids (id : Nat) (cells : List (Cell α)) :
    (addRef id cells).map Cell.id = cells.map Cell.id := by
  rw [addRef, List.map_map]
  apply List.map_congr_left
  intro c _
  dsimp only [Function.comp_apply]
  split <;> rfl

/-- What is left of a cell keeps its identity and its value. -/
theorem Cell.drop_eq_some {id : Nat} {c c' : Cell α} (h : c.drop id = some c') :
    c'.id = c.id ∧ c'.value = c.value ∧
      ((c.id = id ∧ c'.refs + 1 = c.refs ∧ 0 < c'.refs) ∨ (c.id ≠ id ∧ c'.refs = c.refs)) := by
  unfold Cell.drop at h
  split at h
  · case isTrue hid =>
      split at h
      · contradiction
      · case isFalse hrefs =>
          cases h
          refine ⟨rfl, rfl, Or.inl ⟨hid, ?_, Nat.pos_of_ne_zero hrefs⟩⟩
          exact Nat.sub_add_cancel (Nat.one_le_iff_ne_zero.mpr fun h0 => hrefs (by rw [h0]))
  · case isFalse hid =>
      cases h
      exact ⟨rfl, rfl, Or.inr ⟨hid, rfl⟩⟩

theorem mem_dropRef {id : Nat} {cells : List (Cell α)} {c' : Cell α} (h : c' ∈ dropRef id cells) :
    ∃ c ∈ cells, c.drop id = some c' :=
  List.mem_filterMap.mp h

theorem dropRef_ids_sublist (id : Nat) (cells : List (Cell α)) :
    ((dropRef id cells).map Cell.id).Sublist (cells.map Cell.id) := by
  induction cells with
  | nil => exact List.Sublist.refl _
  | cons c cells ih =>
    cases h : c.drop id with
    | none =>
      rw [dropRef, List.filterMap_cons_none h, List.map_cons]
      exact ih.cons _
    | some c' =>
      rw [dropRef, List.filterMap_cons_some h, List.map_cons, List.map_cons,
        (Cell.drop_eq_some h).1]
      exact ih.cons_cons _

/-- Dropping a reference brings no object in. -/
theorem id_of_mem_dropRef {id : Nat} {cells : List (Cell α)} {c : Cell α}
    (h : c ∈ dropRef id cells) : ∃ c' ∈ cells, c'.id = c.id := by
  obtain ⟨c', hc', hdrop⟩ := mem_dropRef h
  exact ⟨c', hc', (Cell.drop_eq_some hdrop).1.symm⟩

/-! ## Counts -/

/-- The references that are out, `handles`, and the list agree. -/
structure Counts (handles : List (Handle α)) (cells : List (Cell α)) : Prop where
  nodup : (cells.map Cell.id).Nodup
  refs : ∀ c ∈ cells, c.refs = (handles.map Handle.id).count c.id
  live : ∀ c ∈ cells, 0 < c.refs
  held : ∀ h ∈ handles, ∃ c ∈ cells, c.id = h.id ∧ c.value = h.value

namespace Counts

variable {handles handles' : List (Handle α)} {cells : List (Cell α)} {h : Handle α}

theorem single (id : Nat) (value : α) : Counts [⟨id, value⟩] [⟨id, value, 1⟩] where
  nodup := List.nodup_singleton _
  refs := by simp
  live := by simp
  held := by simp

theorem perm (counts : Counts handles cells) (hperm : handles.Perm handles') :
    Counts handles' cells where
  nodup := counts.nodup
  refs := fun c hc => by
    rw [counts.refs c hc, (hperm.map Handle.id).count_eq]
  live := counts.live
  held := fun h' hh' => counts.held h' (hperm.mem_iff.mpr hh')

/-- Who holds an object may pass a reference on. -/
theorem addRef (counts : Counts handles cells) (hh : h ∈ handles) :
    Counts (h :: handles) (Lpad.addRef h.id cells) where
  nodup := by
    rw [addRef_ids]
    exact counts.nodup
  refs := by
    intro c' hc'
    obtain ⟨c, hc, rfl⟩ := List.mem_map.mp hc'
    rw [List.map_cons]
    split
    · case isTrue hid =>
        rw [hid, List.count_cons_self, ← hid, counts.refs c hc]
    · case isFalse hid =>
        rw [List.count_cons_of_ne (Ne.symm hid)]
        exact counts.refs c hc
  live := by
    intro c' hc'
    obtain ⟨c, hc, rfl⟩ := List.mem_map.mp hc'
    split
    · exact Nat.succ_pos _
    · exact counts.live c hc
  held := by
    intro h' hh'
    have hold : h' ∈ handles := by
      rcases List.mem_cons.mp hh' with rfl | hh'
      · exact hh
      · exact hh'
    obtain ⟨c, hc, hid, hvalue⟩ := counts.held h' hold
    refine ⟨_, List.mem_map_of_mem hc, ?_⟩
    split
    · exact ⟨hid, hvalue⟩
    · exact ⟨hid, hvalue⟩

/-- A reference that is dropped leaves the other references valid. -/
theorem dropRef (counts : Counts (h :: handles) cells) :
    Counts handles (Lpad.dropRef h.id cells) where
  nodup := counts.nodup.sublist (dropRef_ids_sublist _ _)
  refs := by
    intro c' hc'
    obtain ⟨c, hc, hdrop⟩ := mem_dropRef hc'
    obtain ⟨hid, -, hrefs⟩ := Cell.drop_eq_some hdrop
    have hcount := counts.refs c hc
    rw [List.map_cons] at hcount
    rcases hrefs with ⟨heq, hsucc, -⟩ | ⟨hne, hsame⟩
    · rw [heq, List.count_cons_self, ← heq] at hcount
      rw [hid]
      exact Nat.add_right_cancel (hsucc.trans hcount)
    · rw [List.count_cons_of_ne (Ne.symm hne)] at hcount
      rw [hid, hsame]
      exact hcount
  live := by
    intro c' hc'
    obtain ⟨c, hc, hdrop⟩ := mem_dropRef hc'
    rcases (Cell.drop_eq_some hdrop).2.2 with ⟨-, -, hpos⟩ | ⟨-, hsame⟩
    · exact hpos
    · rw [hsame]
      exact counts.live c hc
  held := by
    intro h' hh'
    obtain ⟨c, hc, hid, hvalue⟩ := counts.held h' (List.mem_cons_of_mem _ hh')
    by_cases heq : c.id = h.id
    · -- the other reference keeps the count above one
      have hcount := counts.refs c hc
      rw [List.map_cons, heq, List.count_cons_self, ← heq, hid] at hcount
      have hpos : 0 < (handles.map Handle.id).count h'.id :=
        List.count_pos_iff.mpr (List.mem_map_of_mem hh')
      refine ⟨{ c with refs := c.refs - 1 }, List.mem_filterMap.mpr ⟨c, hc, ?_⟩, hid, hvalue⟩
      have hleft : c.refs - 1 ≠ 0 := by
        rw [hcount, Nat.add_sub_cancel]
        exact Nat.ne_of_gt hpos
      rw [Cell.drop, if_pos heq, if_neg hleft]
    · refine ⟨c, List.mem_filterMap.mpr ⟨c, hc, ?_⟩, hid, hvalue⟩
      rw [Cell.drop, if_neg heq]

theorem addCell (counts : Counts handles cells) {id : Nat} (value : α)
    (hfresh : ∀ c ∈ cells, c.id ≠ id) :
    Counts (⟨id, value⟩ :: handles) (Lpad.addCell id value cells) where
  nodup := by
    rw [Lpad.addCell, List.map_append]
    refine List.nodup_append.mpr ⟨counts.nodup, List.nodup_singleton _, ?_⟩
    intro i hi j hj
    obtain ⟨c, hc, rfl⟩ := List.mem_map.mp hi
    rw [List.mem_singleton.mp hj]
    exact hfresh c hc
  refs := by
    intro c hc
    rcases List.mem_append.mp hc with hc | hc
    · rw [List.map_cons, List.count_cons_of_ne (Ne.symm (hfresh c hc))]
      exact counts.refs c hc
    · have hnew : (handles.map Handle.id).count id = 0 := by
        apply List.count_eq_zero_of_not_mem
        intro hmem
        obtain ⟨h', hh', rfl⟩ := List.mem_map.mp hmem
        obtain ⟨c', hc', hid, -⟩ := counts.held h' hh'
        exact hfresh c' hc' hid
      rw [List.mem_singleton.mp hc, List.map_cons, List.count_cons_self, hnew]
  live := by
    intro c hc
    rcases List.mem_append.mp hc with hc | hc
    · exact counts.live c hc
    · rw [List.mem_singleton.mp hc]
      exact Nat.one_pos
  held := by
    intro h' hh'
    rcases List.mem_cons.mp hh' with rfl | hh'
    · exact ⟨_, List.mem_append_right _ List.mem_cons_self, rfl, rfl⟩
    · obtain ⟨c, hc, hsame⟩ := counts.held h' hh'
      exact ⟨c, List.mem_append_left _ hc, hsame⟩

/-- **Nothing stays on the list without a reference.** -/
theorem exists_handle (counts : Counts handles cells) {c : Cell α} (hc : c ∈ cells) :
    ∃ h ∈ handles, h.id = c.id ∧ h.value = c.value := by
  have hpos := counts.live c hc
  rw [counts.refs c hc] at hpos
  obtain ⟨h, hh, hid⟩ := List.mem_map.mp (List.count_pos_iff.mp hpos)
  obtain ⟨c', hc', hid', hvalue⟩ := counts.held h hh
  have hsame : c' = c := List.inj_on_of_nodup_map counts.nodup hc' hc (hid'.trans hid)
  exact ⟨h, hh, hid, by rw [← hvalue, hsame]⟩

end Counts

end Lpad
