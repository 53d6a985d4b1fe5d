import Lpad.Enclave.Checker
import Mathlib.Data.List.Nodup
import Mathlib.Data.List.Range
import Mathlib.Data.List.Perm.Subperm

/-!
# Operation ids

Clients that pass to `enclave_postput` only ids that `enclave_preput` has given
them, each once. Every id drawn is then in exactly one place: held by a call of
`enclave_preput`, handed back to the client, held by a call of `enclave_postput`,
or posted. `pending_list` holds the ids of the second and the third kind.
-/

namespace Lpad

/-- Where an id is. -/
inductive IdStage where
  | undrawn
  | drawnBy (t : Nat)
  | handedBack
  | postedBy (t : Nat)
  | done
deriving DecidableEq

/-- Every id drawn is in one place, `stage` says which. -/
structure Owned (s : Sys) (n : Nat) (stage : Nat → IdStage) : Prop where
  gId : s.enc.gId = n
  undrawn : ∀ id, stage id = .undrawn ↔ id = 0 ∨ n < id
  drawn : ∀ t time id, s.threads t = .preputIdent time id → stage id = .drawnBy t
  handed : ∀ id ∈ s.returned, stage id = .handedBack
  nodup : s.returned.Nodup
  posting : ∀ t id seq time, s.threads t = .postputTimed id seq time → stage id = .postedBy t
  pending : ∀ id, s.enc.pendingList.find id = none ↔
    stage id ≠ .handedBack ∧ ∀ t, stage id ≠ .postedBy t
  named : ∀ id op, s.enc.pendingList.find id = some op → op.id = id
  done : ∀ p ∈ s.posted, stage p.2.id = .done
  distinct : (s.posted.map fun p => p.2.id).Nodup

/-- Moving one id leaves the ids that were elsewhere where they were. -/
theorem stage_keep {stage : Nat → IdStage} {id i : Nat} {old st : IdStage} (new : IdStage)
    (hid : stage id = old) (hi : stage i = st) (hne : st ≠ old) :
    Function.update stage id new i = st := by
  rw [Function.update_of_ne _ _ _]
  · exact hi
  · rintro rfl
    exact hne (hi.symm.trans hid)

/-- Moving an id that has been drawn. -/
theorem stage_undrawn {stage : Nat → IdStage} {n id : Nat} {new : IdStage}
    (h : ∀ i, stage i = .undrawn ↔ i = 0 ∨ n < i) (hid : stage id ≠ .undrawn)
    (hnew : new ≠ .undrawn) (i : Nat) :
    Function.update stage id new i = .undrawn ↔ i = 0 ∨ n < i := by
  by_cases hi : i = id
  · subst hi
    rw [Function.update_self, ← h]
    exact iff_of_false hnew hid
  · rw [Function.update_of_ne hi, h]

theorem Owned.init : Owned Sys.init 0 fun _ => .undrawn where
  gId := rfl
  undrawn := fun id => by simp; omega
  drawn := fun t time id h => by simp [Sys.init] at h
  handed := by simp [Sys.init]
  nodup := List.nodup_nil
  posting := fun t id seq time h => by simp [Sys.init] at h
  pending := fun id => by simp [Sys.init, Checker.init]
  named := fun id op h => by simp [Sys.init, Checker.init] at h
  done := by simp [Sys.init]
  distinct := List.nodup_nil

namespace Owned

variable {s : Sys} {n : Nat} {stage : Nat → IdStage}

theorem preputTime (h : Owned s n stage) (t : Nat) :
    Owned ({ s with enc := s.enc.getTime }.setThread t (.preputTimed s.enc.getTime.gTimer))
      n stage where
  gId := h.gId
  undrawn := h.undrawn
  drawn := by
    intro t' time id ht
    rcases update_thread_cases ht with ⟨-, h'⟩ | ⟨-, h'⟩
    · simp at h'
    · exact h.drawn t' time id h'
  handed := h.handed
  nodup := h.nodup
  posting := by
    intro t' id seq time ht
    rcases update_thread_cases ht with ⟨-, h'⟩ | ⟨-, h'⟩
    · simp at h'
    · exact h.posting t' id seq time h'
  pending := h.pending
  named := h.named
  done := h.done
  distinct := h.distinct

/-- The id drawn is `n + 1`, which nobody has. -/
theorem preputId (h : Owned s n stage) {t time : Nat} (hn : n + 1 < 2 ^ 32) :
    Owned ({ s with enc := s.enc.allocId }.setThread t (.preputIdent time s.enc.allocId.gId))
      (n + 1) (Function.update stage (n + 1) (.drawnBy t)) := by
  have hid : s.enc.allocId.gId = n + 1 := by
    rw [Checker.allocId, h.gId]
    exact uint32_of_lt hn
  have hfresh : stage (n + 1) = .undrawn := (h.undrawn (n + 1)).mpr (Or.inr (Nat.lt_succ_self n))
  constructor
  case gId => exact hid
  case undrawn =>
    intro id
    by_cases hn1 : id = n + 1
    · subst hn1
      simp
    · rw [Function.update_of_ne hn1, h.undrawn]
      omega
  case drawn =>
    intro t' time' id ht
    rcases update_thread_cases ht with ⟨rfl, h'⟩ | ⟨-, h'⟩
    · rw [hid] at h'
      cases h'
      exact Function.update_self _ _ _
    · exact stage_keep _ hfresh (h.drawn t' time' id h') (by simp)
  case handed => exact fun id hmem => stage_keep _ hfresh (h.handed id hmem) (by simp)
  case nodup => exact h.nodup
  case posting =>
    intro t' id seq time' ht
    rcases update_thread_cases ht with ⟨-, h'⟩ | ⟨-, h'⟩
    · simp at h'
    · exact stage_keep _ hfresh (h.posting t' id seq time' h') (by simp)
  case pending =>
    intro id
    refine (h.pending id).trans ?_
    by_cases hn1 : id = n + 1
    · subst hn1
      simp [hfresh]
    · rw [Function.update_of_ne hn1]
  case named => exact h.named
  case done => exact fun p hp => stage_keep _ hfresh (h.done p hp) (by simp)
  case distinct => exact h.distinct

/-- The id goes from the call to the client, and the op into `pending_list`. -/
theorem preputLock (h : Owned s n stage) {t time id : Nat}
    (hident : s.threads t = .preputIdent time id) :
    Owned ({ s with
        enc := s.enc.preputSection id time
        returned := id :: s.returned }.setThread t .idle)
      n (Function.update stage id .handedBack) := by
  have hst : stage id = .drawnBy t := h.drawn t time id hident
  have hmiss : s.enc.pendingList.find id = none := (h.pending id).mpr (by simp [hst])
  constructor
  case gId => exact h.gId
  case undrawn => exact stage_undrawn h.undrawn (by simp [hst]) (by simp)
  case drawn =>
    intro t' time' i ht
    rcases update_thread_cases ht with ⟨-, h'⟩ | ⟨hne, h'⟩
    · simp at h'
    · exact stage_keep _ hst (h.drawn t' time' i h') (by simpa using hne)
  case handed =>
    intro i hi
    rcases List.mem_cons.mp hi with rfl | hi
    · exact Function.update_self _ _ _
    · exact stage_keep _ hst (h.handed i hi) (by simp)
  case nodup =>
    refine List.nodup_cons.mpr ⟨fun hmem => ?_, h.nodup⟩
    have := h.handed id hmem
    simp [hst] at this
  case posting =>
    intro t' i seq time' ht
    rcases update_thread_cases ht with ⟨-, h'⟩ | ⟨-, h'⟩
    · simp at h'
    · exact stage_keep _ hst (h.posting t' i seq time' h') (by simp)
  case pending =>
    intro i
    show (s.enc.pendingList.insert id (Op.new id time)).find i = none ↔ _
    by_cases hi : i = id
    · subst hi
      rw [StdMap.find_insert_self hmiss, Function.update_self]
      simp
    · rw [StdMap.find_insert_ne hi, Function.update_of_ne hi]
      exact h.pending i
  case named =>
    intro i op hop
    rcases StdMap.find_insert_cases hop with hop | ⟨rfl, rfl⟩
    · exact h.named i op hop
    · rfl
  case done => exact fun p hp => stage_keep _ hst (h.done p hp) (by simp)
  case distinct => exact h.distinct

/-- The id goes from the client to the call. -/
theorem postputTime (h : Owned s n stage) {t id seq : Nat} (hid : id ∈ s.returned) :
    Owned ({ s with
        enc := s.enc.getTime
        returned := s.returned.erase id }.setThread t
          (.postputTimed id seq s.enc.getTime.gTimer))
      n (Function.update stage id (.postedBy t)) := by
  have hst : stage id = .handedBack := h.handed id hid
  constructor
  case gId => exact h.gId
  case undrawn => exact stage_undrawn h.undrawn (by simp [hst]) (by simp)
  case drawn =>
    intro t' time' i ht
    rcases update_thread_cases ht with ⟨-, h'⟩ | ⟨-, h'⟩
    · simp at h'
    · exact stage_keep _ hst (h.drawn t' time' i h') (by simp)
  case handed =>
    intro i hi
    obtain ⟨hne, hmem⟩ := (h.nodup.mem_erase_iff).mp hi
    rw [Function.update_of_ne hne]
    exact h.handed i hmem
  case nodup => exact h.nodup.erase id
  case posting =>
    intro t' i seq' time' ht
    rcases update_thread_cases ht with ⟨rfl, h'⟩ | ⟨-, h'⟩
    · cases h'
      exact Function.update_self _ _ _
    · exact stage_keep _ hst (h.posting t' i seq' time' h') (by simp)
  case pending =>
    intro i
    refine (h.pending i).trans ?_
    by_cases hi : i = id
    · subst hi
      simp [hst]
    · rw [Function.update_of_ne hi]
  case named => exact h.named
  case done => exact fun p hp => stage_keep _ hst (h.done p hp) (by simp)
  case distinct => exact h.distinct

/-- The op of a call of `enclave_postput` is in `pending_list`. -/
theorem found (h : Owned s n stage) {t id seq time : Nat}
    (htimed : s.threads t = .postputTimed id seq time) :
    s.enc.pendingList.find id ≠ none := by
  intro hnone
  exact ((h.pending id).mp hnone).2 t (h.posting t id seq time htimed)

/-- The op leaves `pending_list` and its id is used up. -/
theorem post (h : Owned s n stage) {t id seq time : Nat} {op : Op}
    (htimed : s.threads t = .postputTimed id seq time)
    (hfound : s.enc.pendingList.find id = some op) :
    Owned (s.post t id seq time op) n (Function.update stage id .done) := by
  have hst : stage id = .postedBy t := h.posting t id seq time htimed
  have hopid : (op.posted seq time).id = id := h.named id op hfound
  constructor
  case gId =>
    rw [← h.gId]
    exact Checker.postputSection_gId ..
  case undrawn => exact stage_undrawn h.undrawn (by simp [hst]) (by simp)
  case drawn =>
    intro t' time' i ht
    rcases update_thread_cases ht with ⟨-, h'⟩ | ⟨-, h'⟩
    · simp at h'
    · exact stage_keep _ hst (h.drawn t' time' i h') (by simp)
  case handed => exact fun i hi => stage_keep _ hst (h.handed i hi) (by simp)
  case nodup => exact h.nodup
  case posting =>
    intro t' i seq' time' ht
    rcases update_thread_cases ht with ⟨-, h'⟩ | ⟨hne, h'⟩
    · simp at h'
    · exact stage_keep _ hst (h.posting t' i seq' time' h') (by simpa using hne)
  case pending =>
    intro i
    show (s.enc.postputSection id seq (op.posted seq time)).pendingList.find i = none ↔ _
    rw [Checker.postputSection_pendingList]
    by_cases hi : i = id
    · subst hi
      simp [StdMap.find_erase_self]
    · rw [StdMap.find_erase_ne _ hi, Function.update_of_ne hi]
      exact h.pending i
  case named =>
    intro i op' hop
    have hop : (s.enc.postputSection id seq (op.posted seq time)).pendingList.find i = some op' :=
      hop
    rw [Checker.postputSection_pendingList] at hop
    exact h.named i op' (StdMap.find_erase_some hop).1
  case done =>
    intro p hp
    rcases List.mem_append.mp hp with hp | hp
    · exact stage_keep _ hst (h.done p hp) (by simp)
    · rw [List.mem_singleton.mp hp, hopid]
      exact Function.update_self _ _ _
  case distinct =>
    show ((s.posted ++ [(seq, op.posted seq time)]).map fun p => p.2.id).Nodup
    rw [List.map_append, List.map_singleton, hopid]
    refine List.nodup_append_comm.mp (List.nodup_cons.mpr ⟨fun hmem => ?_, h.distinct⟩)
    obtain ⟨p, hp, hpid⟩ := List.mem_map.mp hmem
    have := h.done p hp
    rw [hpid, hst] at this
    simp at this

theorem posted_ids_subset (h : Owned s n stage) :
    (s.posted.map fun p => p.2.id) ⊆ List.range' 1 n := by
  intro id hid
  obtain ⟨p, hp, rfl⟩ := List.mem_map.mp hid
  have hdrawn := mt (h.undrawn p.2.id).mpr (by simp [h.done p hp])
  rw [List.mem_range'_1]
  omega

/-- When all ids drawn have been posted, nothing is pending. -/
theorem pending_empty (h : Owned s n stage) (hall : n ≤ s.posted.length) :
    s.enc.pendingList = [] := by
  -- `n` different ids among `1..n` are all of them
  have hperm : (s.posted.map fun p => p.2.id).Perm (List.range' 1 n) :=
    (h.distinct.subperm h.posted_ids_subset).perm_of_length_le (by simpa using hall)
  refine StdMap.eq_nil_of_find fun id => (h.pending id).mpr ?_
  by_cases hid : stage id = .undrawn
  · simp [hid]
  · have hmem : id ∈ List.range' 1 n := by
      have := mt (h.undrawn id).mpr hid
      rw [List.mem_range'_1]
      omega
    obtain ⟨p, hp, rfl⟩ := List.mem_map.mp (hperm.mem_iff.mpr hmem)
    simp [h.done p hp]

end Owned

/-! ## Runs -/

/-- The number of ids drawn. -/
def idsDrawn (acts : List Act) : Nat :=
  acts.countP fun a => match a with
    | .preputId _ => true
    | _ => false

theorem idsDrawn_append (acts : List Act) (a : Act) :
    idsDrawn (acts ++ [a]) = idsDrawn acts + idsDrawn [a] := List.countP_append

/-- Ids stay in one place in every step of clients that keep to their own. -/
theorem Owned.step {s s' : Sys} {n : Nat} {stage : Nat → IdStage} {a : Act} (h : Owned s n stage)
    (hids : n + idsDrawn [a] < 2 ^ 32) (hstep : s.ownStep a = some s') :
    ∃ stage', Owned s' (n + idsDrawn [a]) stage' := by
  cases (Sys.step_stepped (Sys.ownStep_step hstep)).2 with
  | preputTime => exact ⟨stage, h.preputTime _⟩
  | preputId => exact ⟨_, h.preputId hids⟩
  | preputLock hident => exact ⟨_, h.preputLock hident⟩
  | postputTime => exact ⟨_, h.postputTime (Sys.ownStep_returned hstep)⟩
  | dangle htimed _ hmiss => exact absurd hmiss (h.found htimed)
  | post htimed _ hfound => exact ⟨_, h.post htimed hfound⟩

theorem runs_owned {acts : List Act} {s : Sys} (hrun : runs Sys.ownStep Sys.init acts = some s)
    (hids : idsDrawn acts < 2 ^ 32) : ∃ stage, Owned s (idsDrawn acts) stage := by
  refine runs_induction (P := fun acts s => idsDrawn acts < 2 ^ 32 →
    ∃ stage, Owned s (idsDrawn acts) stage) (fun _ => ⟨_, Owned.init⟩) ?_ acts s hrun hids
  intro acts u a t _ ih hstep hids
  rw [idsDrawn_append] at hids ⊢
  obtain ⟨stage, howned⟩ := ih (Nat.lt_of_le_of_lt (Nat.le_add_right _ _) hids)
  exact howned.step hids hstep

end Lpad
