import Lpad.Enclave.Checker

/-!
# The history never runs ahead

Whatever ids and numbers clients use, the number of the latest merged write is at
most the number of writes merged, and every write merged or waiting in
`completed_list` has been posted.
-/

namespace Lpad

/-- Erasing takes entries away and adds none. -/
theorem truncateLoop_length : ∀ (fuel : Nat) (comp : StdMap Op) (cur : Nat),
    (truncateLoop fuel comp cur).1.length + (truncateLoop fuel comp cur).2.length ≤ comp.length
  | 0, comp, cur => by simp [truncateLoop]
  | fuel + 1, comp, cur => by
    unfold truncateLoop
    cases hf : comp.find cur with
    | none => simp
    | some op =>
      have hlt := StdMap.length_erase_lt hf
      have ih := truncateLoop_length fuel (StdMap.erase comp cur) (uint32 (cur + 1))
      simp only [List.length_cons]
      omega

theorem uint32_le (n : Nat) : uint32 n ≤ n := Nat.mod_le _ _

/-- The last op of a gap-free run that starts at most at `m + 1`. -/
theorem NextRun.last_le : ∀ {acl : List Op} {comp : StdMap Op} {cur m : Nat},
    NextRun comp cur acl → (∀ k op, comp.find k = some op → op.ts = uint32 k) → cur ≤ m + 1 →
    ∀ op ∈ acl.getLast?, op.ts ≤ m + acl.length
  | [], _, _, _, _, _, _, op, hop => by simp at hop
  | [o], comp, cur, m, h, hts, hcur, op, hop => by
    have : op = o := by simpa using hop.symm
    rw [this, hts cur o h.1, List.length_singleton]
    exact (uint32_le cur).trans hcur
  | o :: o' :: acl, comp, cur, m, h, hts, hcur, op, hop => by
    have hts' : Stamped (StdMap.erase comp cur) := Stamped.erase hts cur
    have hcur' : uint32 (cur + 1) ≤ (m + 1) + 1 :=
      (uint32_le _).trans (Nat.add_le_add_right hcur 1)
    have ih := NextRun.last_le h.2 hts' hcur' op (by simpa using hop)
    simp only [List.length_cons] at ih ⊢
    omega

/-- **What is merged or completed has been posted**, and the history has merged at
least as many writes as its latest number says. -/
structure Counted (s : Sys) : Prop where
  stamped : ∀ k op, s.enc.completedList.find k = some op → op.ts = uint32 k
  latest : s.enc.history.latest.ts ≤ s.merged.length
  posted : s.merged.length + s.enc.completedList.length ≤ s.posted.length

theorem Counted.init : Counted Sys.init where
  stamped := fun k op h => by simp [Sys.init, Checker.init] at h
  latest := Nat.le_refl 0
  posted := Nat.le_refl 0

theorem Counted.post {s : Sys} (h : Counted s) (t id seq time : Nat) (op : Op) :
    Counted (s.post t id seq time op) := by
  have hfiled : Stamped (s.enc.filed (op.posted seq time) seq) :=
    Stamped.filed h.stamped op seq time
  have hrun := truncate_nextRun (s.enc.filed (op.posted seq time) seq) s.enc.history
  have hlen := truncateLoop_length (s.enc.filed (op.posted seq time) seq).length
    (s.enc.filed (op.posted seq time) seq) (uint32 (s.enc.history.latest.ts + 1))
  have hins := StdMap.length_insert_le s.enc.completedList seq (op.posted seq time)
  have hmerges : (s.sectionOf op seq time).merges.length ≤
      (truncate (s.enc.filed (op.posted seq time) seq) s.enc.history).1.length := by
    unfold Section.merges
    split
    · rw [List.length_map]
      exact Nat.le_refl _
    · exact Nat.zero_le _
  constructor
  case stamped =>
    intro k o ho
    have ho : (s.enc.postputSection id seq (op.posted seq time)).completedList.find k = some o :=
      ho
    rw [Checker.postputSection_completedList] at ho
    exact hfiled k o (truncateLoop_find _ ho)
  case latest =>
    show (s.enc.postputSection id seq (op.posted seq time)).history.latest.ts ≤
      (s.merged ++ (s.sectionOf op seq time).merges).length
    rw [List.length_append]
    cases hmerge : tryMerge s.enc.history (s.sectionOf op seq time).acl with
    | none =>
      have hhis : (s.enc.postputSection id seq (op.posted seq time)).history = s.enc.history :=
        Checker.postputSection_history_none hmerge
      rw [hhis]
      exact h.latest.trans (Nat.le_add_right _ _)
    | some his =>
      have hhis : (s.enc.postputSection id seq (op.posted seq time)).history = his :=
        Checker.postputSection_history hmerge
      rw [hhis, tryMerge_latest hmerge]
      have hok : (s.sectionOf op seq time).ok = true := Option.isSome_iff_exists.mpr ⟨_, hmerge⟩
      have hmerged : (s.sectionOf op seq time).merges.length =
          (s.sectionOf op seq time).acl.length := by
        rw [Section.merges, if_pos hok, List.length_map]
      rw [hmerged]
      cases hlast : (s.sectionOf op seq time).acl.getLast? with
      | none => exact h.latest.trans (Nat.le_add_right _ _)
      | some o =>
        refine NextRun.last_le hrun hfiled ?_ o hlast
        exact (uint32_le _).trans (Nat.add_le_add_right h.latest 1)
  case posted =>
    show (s.merged ++ (s.sectionOf op seq time).merges).length +
      (s.enc.postputSection id seq (op.posted seq time)).completedList.length ≤
        (s.posted ++ [(seq, op.posted seq time)]).length
    rw [Checker.postputSection_completedList, List.length_append, List.length_append,
      List.length_singleton]
    have := h.posted
    unfold truncate at hmerges ⊢
    unfold Checker.filed at *
    omega

theorem Counted.step {s s' : Sys} {a : Act} (h : Counted s) (hstep : s.step a = some s') :
    Counted s' := by
  rcases (Sys.step_stepped hstep).2 with _ | _ | _ | _ | _ | @⟨t, id, seq, time, op, -, -, -⟩
  case post => exact h.post t id seq time op
  all_goals exact ⟨h.stamped, h.latest, h.posted⟩

/-- The latest number is at most the number of writes posted. -/
theorem Counted.latest_le_posted {s : Sys} (h : Counted s) :
    s.enc.history.latest.ts ≤ s.posted.length := by
  have := h.latest
  have := h.posted
  omega

end Lpad
