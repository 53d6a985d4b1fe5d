import Mathlib.Data.List.Basic

/-!
# Segments laid end to end

A list of segments, and the string that they make. The segment `i` starts at `segmentOffset i`,
and the offset behind the last one is the length of the string.
-/

namespace Lpad

variable {α : Type*} {segments more : List (List α)} {i j : Nat} {s : List α}

def segmentOffset (segments : List (List α)) (i : Nat) : Nat := (segments.take i).flatten.length

@[simp] theorem segmentOffset_zero (segments : List (List α)) : segmentOffset segments 0 = 0 := rfl

theorem segmentOffset_length (segments : List (List α)) :
    segmentOffset segments segments.length = segments.flatten.length := by
  rw [segmentOffset, List.take_length]

theorem segmentOffset_succ (h : segments[i]? = some s) :
    segmentOffset segments (i + 1) = segmentOffset segments i + s.length := by
  rw [segmentOffset, List.take_add_one, h, Option.toList_some, List.flatten_append,
    List.length_append, List.flatten_singleton, segmentOffset]

/-- More segments behind do not move the ones in front. -/
theorem segmentOffset_append (h : i ≤ segments.length) :
    segmentOffset (segments ++ more) i = segmentOffset segments i := by
  rw [segmentOffset, segmentOffset, List.take_append_of_le_length h]

/-- The string from a segment on. -/
theorem drop_segmentOffset (h : segments[i]? = some s) :
    segments.flatten.drop (segmentOffset segments i) = s ++ (segments.drop (i + 1)).flatten := by
  obtain ⟨hi, rfl⟩ := List.getElem?_eq_some_iff.mp h
  have hsplit : segments.flatten = (segments.take i).flatten ++ (segments.drop i).flatten := by
    rw [← List.flatten_append, List.take_append_drop]
  rw [hsplit, segmentOffset, List.drop_left, List.drop_eq_getElem_cons hi, List.flatten_cons]

theorem segmentOffset_le (hij : i ≤ j) : segmentOffset segments i ≤ segmentOffset segments j := by
  obtain ⟨k, rfl⟩ := Nat.exists_eq_add_of_le hij
  rw [segmentOffset, segmentOffset, List.take_add, List.flatten_append, List.length_append]
  exact Nat.le_add_right _ _

/-- Segments with something in them start one after the other. -/
theorem segmentOffset_lt (hne : ∀ s ∈ segments, s ≠ []) (hij : i < j) (hj : j ≤ segments.length) :
    segmentOffset segments i < segmentOffset segments j := by
  have hi : i < segments.length := Nat.lt_of_lt_of_le hij hj
  have hpos : 0 < segments[i].length := List.length_pos_of_ne_nil (hne _ (List.getElem_mem hi))
  calc segmentOffset segments i < segmentOffset segments i + segments[i].length :=
        Nat.lt_add_of_pos_right hpos
    _ = segmentOffset segments (i + 1) := (segmentOffset_succ (List.getElem?_eq_getElem hi)).symm
    _ ≤ segmentOffset segments j := segmentOffset_le hij

/-- When all segments have one size. -/
theorem segmentOffset_of_length {n : Nat} (h : ∀ s ∈ segments, s.length = n)
    (hi : i ≤ segments.length) : segmentOffset segments i = i * n := by
  induction i with
  | zero => rw [segmentOffset_zero, Nat.zero_mul]
  | succ i ih =>
    have hlt : i < segments.length := hi
    rw [segmentOffset_succ (List.getElem?_eq_getElem hlt), ih (Nat.le_of_lt hlt),
      h _ (List.getElem_mem hlt), Nat.succ_mul]

end Lpad
