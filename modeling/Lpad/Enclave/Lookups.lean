import Lpad.Enclave.Host
import Lpad.Enclave.CheckerIds

/-!
# Lookups of the checker

Both post calls dereference `pending_list.find(id)`, and `nmt` dereferences
`rh_list.find(tr)`, without a test for `end()`. Here the host keeps to its own
ids: every operation is ended by its own post call, once.

An id is then where it was last moved to (`Tracked`), and the op of a post call is
in `pending_list` as long as `g_id` hands out no id that is still in use. Nothing
ever enters `rh_list`, so `nmt` misses whenever it gets to `findRH`.
-/

namespace Lpad

/-- Every id in use is in one place, `stage` says which. -/
structure Host.Tracked (s : Host) (stage : Nat → IdStage) : Prop where
  drawn : ∀ t id, (s.calls t).draws = some id → stage id = .drawnBy t
  handed : ∀ p ∈ s.returned, stage p.2 = .handedBack
  nodup : (s.returned.map Prod.snd).Nodup
  posting : ∀ t id, (s.calls t).posts = some id → stage id = .postedBy t
  pending : ∀ id, s.enc.pendingList.find id = none ↔
    stage id ≠ .handedBack ∧ ∀ t, stage id ≠ .postedBy t
  rhList : s.rhList = []

/-- `allocId` hands out an id that is not in use: not pending, and not held by a
call on its way into `pending_list`. -/
def Host.Fresh (s : Host) (m : HostMove) : Prop :=
  ∀ t, m = .preId t → s.enc.pendingList.find s.enc.allocId.gId = none ∧
    ∀ t', (s.calls t').draws ≠ some s.enc.allocId.gId

/-- The read returns a write that is newer than the history was when the read
started: `tw`, as far as `Timestamp` holds it, is above `tr`. -/
def Host.Beyond (s : Host) (m : HostMove) : Prop :=
  ∀ t id tw pf op, m = .postLock t → s.calls t = .postget id tw pf →
    s.enc.gMutex = false → s.enc.pendingList.find id = some op → op.ts < uint32 tw

theorem Host.Tracked.init : Host.init.Tracked fun _ => .undrawn where
  drawn := fun t id h => by simp [Host.init, HostCall.draws] at h
  handed := by simp [Host.init]
  nodup := List.nodup_nil
  posting := fun t id h => by simp [Host.init, HostCall.posts] at h
  pending := fun id => by simp [Host.init, Checker.init]
  rhList := rfl

namespace Host.Tracked

variable {s : Host} {stage : Nat → IdStage}

/-- Thread `t` goes on with at most the id `id`, which no other thread has. -/
theorem calls_moved (h : s.Tracked stage) (t : Nat) {id : Nat} (new : IdStage) (call : HostCall)
    (hother : ∀ t' ≠ t, (s.calls t').draws ≠ some id ∧ (s.calls t').posts ≠ some id)
    (hdraws : ∀ i, call.draws = some i → i = id ∧ new = .drawnBy t)
    (hposts : ∀ i, call.posts = some i → i = id ∧ new = .postedBy t) :
    (∀ t' i, (Function.update s.calls t call t').draws = some i →
      Function.update stage id new i = .drawnBy t') ∧
    (∀ t' i, (Function.update s.calls t call t').posts = some i →
      Function.update stage id new i = .postedBy t') := by
  constructor
  · intro t' i ht
    by_cases htt : t' = t
    · subst htt
      rw [Function.update_self] at ht
      obtain ⟨rfl, hnew⟩ := hdraws i ht
      rw [Function.update_self, hnew]
    · rw [Function.update_of_ne htt] at ht
      rw [Function.update_of_ne _]
      · exact h.drawn t' i ht
      · rintro rfl
        exact (hother t' htt).1 ht
  · intro t' i ht
    by_cases htt : t' = t
    · subst htt
      rw [Function.update_self] at ht
      obtain ⟨rfl, hnew⟩ := hposts i ht
      rw [Function.update_self, hnew]
    · rw [Function.update_of_ne htt] at ht
      rw [Function.update_of_ne _]
      · exact h.posting t' i ht
      · rintro rfl
        exact (hother t' htt).2 ht

/-- An id in use is with no other thread than the one it is with. -/
theorem not_with_other (h : s.Tracked stage) {t id : Nat}
    (hid : stage id = .drawnBy t ∨ stage id = .handedBack ∨ stage id = .postedBy t) :
    ∀ t' ≠ t, (s.calls t').draws ≠ some id ∧ (s.calls t').posts ≠ some id := by
  intro t' ht
  refine ⟨fun hdraws => ?_, fun hposts => ?_⟩
  · have := h.drawn t' id hdraws
    simp only [this, IdStage.drawnBy.injEq, reduceCtorEq, or_false] at hid
    exact ht hid
  · have := h.posting t' id hposts
    simp only [this, IdStage.postedBy.injEq, reduceCtorEq, false_or] at hid
    exact ht hid

/-- A step of a call that has no id yet. -/
theorem preTime (h : s.Tracked stage) (t : Nat) (kind : Kind) :
    ({ s with enc := s.enc.getTime }.setCall t (.preTimed kind s.enc.getTime.gTimer)).Tracked
      stage where
  drawn := by
    intro t' id ht
    by_cases htt : t' = t
    · subst htt
      simp [Host.setCall, HostCall.draws] at ht
    · simp only [Host.setCall, Function.update_of_ne htt] at ht
      exact h.drawn t' id ht
  handed := h.handed
  nodup := h.nodup
  posting := by
    intro t' id ht
    by_cases htt : t' = t
    · subst htt
      simp [Host.setCall, HostCall.posts] at ht
    · simp only [Host.setCall, Function.update_of_ne htt] at ht
      exact h.posting t' id ht
  pending := h.pending
  rhList := h.rhList

/-- The id drawn goes to the call, from wherever it was last. -/
theorem preId (h : s.Tracked stage) {t time : Nat} {kind : Kind} (hfresh : s.Fresh (.preId t)) :
    ({ s with enc := s.enc.allocId }.setCall t (.preIdent kind time s.enc.allocId.gId)).Tracked
      (Function.update stage s.enc.allocId.gId (.drawnBy t)) := by
  obtain ⟨hmiss, hdrawn⟩ := hfresh t rfl
  obtain ⟨hhanded, hposted⟩ := (h.pending _).mp hmiss
  have hother : ∀ t' ≠ t, (s.calls t').draws ≠ some s.enc.allocId.gId ∧
      (s.calls t').posts ≠ some s.enc.allocId.gId :=
    fun t' _ => ⟨hdrawn t', fun hposts => hposted t' (h.posting t' _ hposts)⟩
  have hcalls := h.calls_moved t (.drawnBy t) (.preIdent kind time s.enc.allocId.gId) hother
    (fun i hi => ⟨(Option.some.inj hi).symm, rfl⟩) (fun i hi => by simp [HostCall.posts] at hi)
  constructor
  case drawn => exact hcalls.1
  case handed =>
    intro p hp
    rw [Function.update_of_ne _]
    · exact h.handed p hp
    · intro he
      exact hhanded (he ▸ h.handed p hp)
  case nodup => exact h.nodup
  case posting => exact hcalls.2
  case pending =>
    intro i
    refine (h.pending i).trans ?_
    by_cases hi : i = s.enc.allocId.gId
    · subst hi
      simp [hhanded, hposted]
    · rw [Function.update_of_ne hi]
  case rhList => exact h.rhList

theorem find_preSection (c : Checker) (kind : Kind) (id time : Nat)
    (hmiss : c.pendingList.find id = none) (i : Nat) :
    (c.preSection kind id time).pendingList.find i = none ↔
      i ≠ id ∧ c.pendingList.find i = none := by
  have hinsert : ∀ op : Op, (c.pendingList.insert id op).find i = none ↔
      i ≠ id ∧ c.pendingList.find i = none := by
    intro op
    by_cases hi : i = id
    · subst hi
      rw [StdMap.find_insert_self hmiss]
      simp
    · rw [StdMap.find_insert_ne hi]
      simp [hi]
  cases kind with
  | put => exact hinsert _
  | get => exact hinsert _

/-- The id goes from the call to the host, and the op into `pending_list`. -/
theorem preLock (h : s.Tracked stage) {t time id : Nat} {kind : Kind}
    (hident : s.calls t = .preIdent kind time id) :
    ({ s with
        enc := s.enc.preSection kind id time
        returned := (kind, id) :: s.returned }.setCall t .idle).Tracked
      (Function.update stage id .handedBack) := by
  have hst : stage id = .drawnBy t := h.drawn t id (by rw [hident]; rfl)
  have hmiss : s.enc.pendingList.find id = none := (h.pending id).mpr (by simp [hst])
  have hcalls := h.calls_moved t .handedBack .idle (h.not_with_other (Or.inl hst))
    (fun i hi => by simp [HostCall.draws] at hi) (fun i hi => by simp [HostCall.posts] at hi)
  constructor
  case drawn => exact hcalls.1
  case handed =>
    intro p hp
    rcases List.mem_cons.mp hp with rfl | hp
    · exact Function.update_self _ _ _
    · exact stage_keep _ hst (h.handed p hp) (by simp)
  case nodup =>
    refine List.nodup_cons.mpr ⟨fun hmem => ?_, h.nodup⟩
    obtain ⟨p, hp, hpid⟩ := List.mem_map.mp hmem
    have := h.handed p hp
    rw [hpid, hst] at this
    simp at this
  case posting => exact hcalls.2
  case pending =>
    intro i
    refine (find_preSection s.enc kind id time hmiss i).trans ?_
    by_cases hi : i = id
    · subst hi
      simp
    · rw [Function.update_of_ne hi, h.pending]
      simp [hi]
  case rhList => exact h.rhList

/-- The id goes from the host to a post call. -/
theorem postTime (h : s.Tracked stage) {t id : Nat} {kind : Kind}
    (hid : (kind, id) ∈ s.returned) {call : HostCall} (hdraws : call.draws = none)
    (hposts : call.posts = some id) :
    ({ s with
        enc := s.enc.getTime
        returned := s.returned.erase (kind, id) }.setCall t call).Tracked
      (Function.update stage id (.postedBy t)) := by
  have hst : stage id = .handedBack := h.handed _ hid
  have hcalls := h.calls_moved t (.postedBy t) call (h.not_with_other (Or.inr (Or.inl hst)))
    (fun i hi => by simp [hdraws] at hi)
    (fun i hi => ⟨Option.some.inj (hi.symm.trans hposts), rfl⟩)
  have hsublist : ((s.returned.erase (kind, id)).map Prod.snd).Sublist (s.returned.map Prod.snd) :=
    List.erase_sublist.map Prod.snd
  have hnodup : s.returned.Nodup := h.nodup.of_map
  constructor
  case drawn => exact hcalls.1
  case handed =>
    intro p hp
    obtain ⟨hne, hmem⟩ := hnodup.mem_erase_iff.mp hp
    rw [Function.update_of_ne _]
    · exact h.handed p hmem
    · intro he
      exact hne (List.inj_on_of_nodup_map h.nodup hmem hid he)
  case nodup => exact h.nodup.sublist hsublist
  case posting => exact hcalls.2
  case pending =>
    intro i
    refine (h.pending i).trans ?_
    by_cases hi : i = id
    · subst hi
      simp [hst]
    · rw [Function.update_of_ne hi]
  case rhList => exact h.rhList

/-- The op of a post call is in `pending_list`. -/
theorem found (h : s.Tracked stage) {t id : Nat} (hposts : (s.calls t).posts = some id) :
    s.enc.pendingList.find id ≠ none := by
  intro hnone
  exact ((h.pending id).mp hnone).2 t (h.posting t id hposts)

/-- The op leaves `pending_list` and its id is used up. -/
theorem post (h : s.Tracked stage) (t id : Nat) (hposts : (s.calls t).posts = some id) {s' : Host}
    {call : HostCall} (hcalls' : s'.calls = Function.update s.calls t call)
    (hnone : call.draws = none ∧ call.posts = none)
    (hpending : s'.enc.pendingList = s.enc.pendingList.erase id)
    (hreturned : s'.returned = s.returned) (hrh : s'.rhList = s.rhList) :
    s'.Tracked (Function.update stage id .done) := by
  have hst : stage id = .postedBy t := h.posting t id hposts
  have hcalls := h.calls_moved t .done call (h.not_with_other (Or.inr (Or.inr hst)))
    (fun i hi => by simp [hnone.1] at hi) (fun i hi => by simp [hnone.2] at hi)
  rw [← hcalls'] at hcalls
  constructor
  case drawn => exact hcalls.1
  case handed =>
    rw [hreturned]
    exact fun p hp => stage_keep _ hst (h.handed p hp) (by simp)
  case nodup =>
    rw [hreturned]
    exact h.nodup
  case posting => exact hcalls.2
  case pending =>
    intro i
    rw [hpending]
    by_cases hi : i = id
    · subst hi
      simp [StdMap.find_erase_self]
    · rw [StdMap.find_erase_ne _ hi, Function.update_of_ne hi]
      exact h.pending i
  case rhList => exact hrh.trans h.rhList

/-- **One step keeps track of the ids**, and finds the op it looks up. -/
theorem step (h : s.Tracked stage) {m : HostMove} {s' : Host} (hfresh : s.Fresh m)
    (hstep : s.ownStep m = some s') : (∃ stage', s'.Tracked stage') ∧ s'.dangling = false := by
  obtain ⟨hd, hstepped⟩ := Host.step_stepped (Host.ownStep_step hstep)
  cases hstepped with
  | preTime => exact ⟨⟨_, h.preTime _ _⟩, hd⟩
  | preId => exact ⟨⟨_, h.preId hfresh⟩, hd⟩
  | preLock ident => exact ⟨⟨_, h.preLock ident⟩, hd⟩
  | postputTime => exact ⟨⟨_, h.postTime (Host.ownStep_put_returned hstep) rfl rfl⟩, hd⟩
  | postgetTime => exact ⟨⟨_, h.postTime (Host.ownStep_get_returned hstep) rfl rfl⟩, hd⟩
  | dangle posts free missing => exact absurd missing (h.found posts)
  | @postput t id seq time op timed =>
    refine ⟨⟨_, h.post t id (by rw [timed]; rfl) rfl ⟨rfl, rfl⟩ ?_ rfl rfl⟩, hd⟩
    exact Checker.postputSection_pendingList ..
  | @postget t id tw pf op timed =>
    refine ⟨⟨_, h.post t id (by rw [timed]; rfl) rfl ?_ rfl rfl rfl⟩, hd⟩
    split
    · exact ⟨rfl, rfl⟩
    · exact ⟨rfl, rfl⟩

end Host.Tracked

/-! ## All lookups of a run -/

/-- With an empty `rh_list`, `nmt` misses exactly when it gets to `findRH`. -/
theorem nmt_missed (tw tr : Nat) (pf : List Int) : (nmt tw tr [] pf).1 = false ↔ tr < tw := by
  unfold nmt
  split
  · simpa
  · simp_all

/-- A step misses in `rh_list` exactly when it ends a read that is not beyond the
history. -/
theorem Host.missed_step {s s' : Host} {m : HostMove} (hrh : s.rhList = [])
    (hmissed : s.missed = false) (hstep : s.step m = some s') :
    s'.missed = false ↔ s.Beyond m := by
  have hno : ∀ {t}, (∀ id tw pf, s.calls t ≠ .postget id tw pf) → s.Beyond (.postLock t) := by
    intro t hcall t' id tw pf op hm hpost
    cases hm
    exact absurd hpost (hcall id tw pf)
  obtain ⟨-, hstepped⟩ := Host.step_stepped hstep
  cases hstepped with
  | preTime => exact iff_of_true hmissed (by rintro t id tw pf op ⟨⟩)
  | preId => exact iff_of_true hmissed (by rintro t id tw pf op ⟨⟩)
  | preLock => exact iff_of_true hmissed (by rintro t id tw pf op ⟨⟩)
  | postputTime => exact iff_of_true hmissed (by rintro t id tw pf op ⟨⟩)
  | postgetTime => exact iff_of_true hmissed (by rintro t id tw pf op ⟨⟩)
  | @dangle t id posts free missing =>
    refine iff_of_true hmissed ?_
    intro t' id' tw pf op hm hcall _ hfound
    cases hm
    rw [hcall] at posts
    cases posts
    rw [missing] at hfound
    simp at hfound
  | postput timed => exact iff_of_true hmissed (hno (by simp [timed]))
  | @postget t id tw pf op timed free found =>
    have hanswer : (s.postget t id tw pf op).missed = (nmt (uint32 tw) op.ts [] pf).1 := by
      simp [Host.postget, hmissed, hrh]
    rw [hanswer, nmt_missed]
    constructor
    · intro hlt t' id' tw' pf' op' hm hcall _ hfound
      cases hm
      rw [timed] at hcall
      cases hcall
      rw [found] at hfound
      cases hfound
      exact hlt
    · intro hbeyond
      exact hbeyond t id tw pf op rfl timed free found

theorem Host.tracked {moves : List HostMove} {s : Host}
    (hfresh : RunMeets Host.ownStep Host.Fresh Host.init moves)
    (h : runs Host.ownStep Host.init moves = some s) : ∃ stage, s.Tracked stage :=
  hfresh.invariant (P := fun s => ∃ stage, s.Tracked stage)
    (fun _ _ _ ⟨_, hs⟩ hf hstep => (hs.step hf hstep).1) ⟨_, Host.Tracked.init⟩ h

/-- **No dangling lookup, exactly for reads beyond the history.** Over every run of
a host that keeps to its own ids, any number of threads, in which `allocId` hands
out no id that is in use: every lookup of the run finds its element if and only if
every `enclave_postget` carries the number of a write that is newer than the
history was at its `enclave_preget`. -/
theorem lookups_succeed_iff (moves : List HostMove)
    (hfresh : RunMeets Host.ownStep Host.Fresh Host.init moves) :
    (∀ done rest s, moves = done ++ rest → runs Host.ownStep Host.init done = some s →
      s.dangling = false ∧ s.missed = false) ↔
    RunMeets Host.ownStep Host.Beyond Host.init moves := by
  constructor
  · intro h
    refine runMeets_iff.mpr fun done m rest s hsplit hs => ?_
    intro t id tw pf op hm hcall hfree hfound
    subst hm
    have hbefore := h done (.postLock t :: rest) s hsplit hs
    have hstep : s.ownStep (.postLock t) = some (s.postget t id tw pf op) :=
      (Host.Stepped.postget hcall hfree hfound).step hbefore.1
    have hafter := h (done ++ [.postLock t]) rest _ (by rw [hsplit, List.append_assoc]; rfl)
      (runs_snoc.mpr ⟨s, hs, hstep⟩)
    obtain ⟨stage, htracked⟩ := Host.tracked (hsplit ▸ hfresh).of_append hs
    have hbeyond := (Host.missed_step htracked.rhList hbefore.2 (Host.ownStep_step hstep)).mp
    exact hbeyond hafter.2 t id tw pf op rfl hcall hfree hfound
  · rintro hbeyond done rest s rfl hs
    have h := (hfresh.of_append.and hbeyond.of_append).invariant
      (P := fun s => (∃ stage, s.Tracked stage) ∧ s.dangling = false ∧ s.missed = false) ?_ ?_ hs
    · exact h.2
    · rintro s m s' ⟨⟨stage, htracked⟩, -, hmissed⟩ ⟨hfresh, hbeyond⟩ hstep
      obtain ⟨htracked', hd⟩ := htracked.step hfresh hstep
      have hmissed' := Host.missed_step htracked.rhList hmissed (Host.ownStep_step hstep)
      exact ⟨htracked', hd, hmissed'.mpr hbeyond⟩
    · exact ⟨⟨_, Host.Tracked.init⟩, rfl, rfl⟩

/-- A read of an empty history that returns write 1. -/
def earlyRead : List HostMove :=
  [.preTime 0 .get, .preId 0, .preLock 0, .postgetTime 0 1 1 [], .postLock 0]

theorem lookups_succeed_iff_earlyRead :
    RunMeets Host.ownStep Host.Fresh Host.init earlyRead ∧
      ((∀ done rest s, earlyRead = done ++ rest → runs Host.ownStep Host.init done = some s →
        s.dangling = false ∧ s.missed = false) ↔
      RunMeets Host.ownStep Host.Beyond Host.init earlyRead) := by
  have hfresh : RunMeets Host.ownStep Host.Fresh Host.init earlyRead := by
    refine ⟨by rintro t ⟨⟩, ⟨?_, by rintro t ⟨⟩, by rintro t ⟨⟩, by rintro t ⟨⟩, trivial⟩⟩
    rintro t -
    refine ⟨rfl, fun t' => ?_⟩
    by_cases ht : t' = 0
    · subst ht
      exact Option.some_ne_none _ ∘ Eq.symm
    · simp [Host.setCall, Host.init, Function.update_of_ne ht, HostCall.draws]
  exact ⟨hfresh, lookups_succeed_iff earlyRead hfresh⟩

/-- A write is merged as number 1; a read then starts and returns that write. -/
def settledRead : List HostMove :=
  [.preTime 0 .put, .preId 0, .preLock 0, .postputTime 0 1 1, .postLock 0,
   .preTime 0 .get, .preId 0, .preLock 0, .postgetTime 0 2 1 [], .postLock 0]

/-- The read is ended by its own call with its own id, and `findRH(1)` dereferences
the `end()` of the empty `rh_list`. -/
theorem settledRead_misses :
    ∃ s, runs Host.ownStep Host.init settledRead = some s ∧
      s.enc.history.latest.ts = 1 ∧ s.rhList.find 1 = none ∧ s.missed = true :=
  ⟨_, rfl, by decide, by decide, by decide⟩

end Lpad
