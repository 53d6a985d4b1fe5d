import Lpad.Enclave.Host

/-!
# `g_mutex` and the completed writes

`enclave_postput` reads its end time before it takes `g_mutex`. When another write
starts and is merged in between, `try_merge` refuses the run that `truncate` has
already erased from `completed_list`, and the function returns without unlocking.

Between two sections `completed_list` has nothing under the number after the
latest merged one (`Settled`), so the run a section cuts out starts with the op
that the section files, or is empty. A section therefore goes wrong in one way
only: the op it files is the next one, and ended before the latest merged write
started.
-/

namespace Lpad

/-- The number `truncate` starts from. -/
def Checker.nextTs (c : Checker) : Nat := uint32 (c.history.latest.ts + 1)

/-! ## What `truncate` leaves -/

/-- Nothing falls out of `comp` but the ops of `acl`. -/
theorem truncateLoop_kept : ∀ {fuel : Nat} {comp : StdMap Op} {cur n : Nat} {op : Op},
    comp.find n = some op →
    (truncateLoop fuel comp cur).2.find n = some op ∨ op ∈ (truncateLoop fuel comp cur).1
  | 0, _, _, _, _, h => Or.inl h
  | fuel + 1, comp, cur, n, op, h => by
    unfold truncateLoop
    cases hf : comp.find cur with
    | none => exact Or.inl h
    | some op' =>
      by_cases hn : n = cur
      · subst hn
        have : op = op' := Option.some.inj (h.symm.trans hf)
        exact Or.inr (this ▸ List.mem_cons_self)
      · rcases truncateLoop_kept ((StdMap.find_erase_ne comp hn).trans h) with h | h
        · exact Or.inl h
        · exact Or.inr (List.mem_cons_of_mem _ h)

/-- The number the loop starts from is gone. -/
theorem truncateLoop_start {fuel : Nat} {comp : StdMap Op} {cur : Nat} (h : comp.length ≤ fuel) :
    (truncateLoop fuel comp cur).2.find cur = none := by
  cases hf : comp.find cur with
  | none =>
    by_contra hne
    obtain ⟨op, hop⟩ := Option.ne_none_iff_exists'.mp hne
    simp [truncateLoop_find _ hop] at hf
  | some op =>
    cases fuel with
    | zero =>
      have := StdMap.length_erase_lt hf
      omega
    | succ fuel =>
      unfold truncateLoop
      rw [hf]
      by_contra hne
      obtain ⟨op', hop'⟩ := Option.ne_none_iff_exists'.mp hne
      exact (StdMap.find_erase_some (truncateLoop_find _ hop')).2 rfl

/-- The number after the last op of the run is missing. -/
theorem truncateLoop_end : ∀ {fuel : Nat} {comp : StdMap Op} (latest : Op),
    comp.length ≤ fuel → Stamped comp →
    (truncateLoop fuel comp (uint32 (latest.ts + 1))).2.find
      (uint32 (((truncateLoop fuel comp (uint32 (latest.ts + 1))).1.getLast?.getD latest).ts + 1))
        = none
  | 0, comp, latest, h, _ => by
    have : comp = [] := List.length_eq_zero_iff.mp (Nat.le_zero.mp h)
    rw [this]
    rfl
  | fuel + 1, comp, latest, h, hstamped => by
    cases hf : comp.find (uint32 (latest.ts + 1)) with
    | none =>
      unfold truncateLoop
      rw [hf]
      exact hf
    | some op =>
      have hlen := StdMap.length_erase_lt hf
      have hts : op.ts = uint32 (latest.ts + 1) := by
        rw [hstamped _ op hf]
        exact Nat.mod_mod _ _
      have hrest : (StdMap.erase comp (uint32 (latest.ts + 1))).length ≤ fuel := by omega
      have ih := truncateLoop_end op hrest (hstamped.erase _)
      unfold truncateLoop
      rw [hf]
      simpa [← hts, List.getLast?_cons] using ih

/-! ## Between two sections -/

/-- What holds between two sections, whatever the host does. -/
structure Host.Settled (s : Host) : Prop where
  inside : ∀ t, s.calls t = .verifying → s.enc.gMutex = true
  next : s.enc.completedList.find s.enc.nextTs = none
  stamped : Stamped s.enc.completedList

theorem Host.Settled.init : Host.init.Settled where
  inside := fun t h => by simp [Host.init] at h
  next := rfl
  stamped := fun n op h => by simp [Host.init, Checker.init] at h

/-- A step outside the sections of the post calls. -/
theorem Host.Settled.keep {s s' : Host} (h : s.Settled) {t : Nat} (call : HostCall)
    (hcall : call ≠ .verifying) (hcalls : s'.calls = Function.update s.calls t call)
    (hmutex : s'.enc.gMutex = s.enc.gMutex) (hhistory : s'.enc.history = s.enc.history)
    (hcompleted : s'.enc.completedList = s.enc.completedList) : s'.Settled where
  inside := by
    intro t' ht
    rw [hcalls] at ht
    rcases update_thread_cases ht with ⟨-, h'⟩ | ⟨-, h'⟩
    · exact absurd h' hcall
    · rw [hmutex]
      exact h.inside t' h'
  next := by
    rw [hcompleted, Checker.nextTs, hhistory]
    exact h.next
  stamped := by
    rw [hcompleted]
    exact h.stamped

/-- With `g_mutex` free nobody is inside a section. -/
theorem Host.Settled.not_verifying {s : Host} (h : s.Settled) (hfree : s.enc.gMutex = false)
    (t : Nat) : s.calls t ≠ .verifying := by
  intro ht
  have := h.inside t ht
  rw [hfree] at this
  simp at this

/-- After a section of `enclave_postput` the next number is missing: the run from
it on has been cut out, and merged or lost. -/
theorem Checker.postputSection_next {c : Checker} (hstamped : Stamped c.completedList)
    (id seq time : Nat) (op : Op) :
    (c.postputSection id seq (op.posted seq time)).completedList.find
      (c.postputSection id seq (op.posted seq time)).nextTs = none := by
  rw [Checker.postputSection_completedList, Checker.nextTs]
  cases hmerge : tryMerge c.history (truncate (c.filed (op.posted seq time) seq) c.history).1 with
  | none =>
    rw [Checker.postputSection_history_none hmerge]
    exact truncateLoop_start (Nat.le_refl _)
  | some his =>
    rw [Checker.postputSection_history hmerge, tryMerge_latest hmerge]
    exact truncateLoop_end _ (Nat.le_refl _) (hstamped.filed op seq time)

theorem Host.Settled.step {s s' : Host} {m : HostMove} (h : s.Settled)
    (hstep : s.step m = some s') : s'.Settled := by
  obtain ⟨-, hstepped⟩ := Host.step_stepped hstep
  cases hstepped with
  | preTime => exact h.keep _ (by simp) rfl rfl rfl rfl
  | preId => exact h.keep _ (by simp) rfl rfl rfl rfl
  | @preLock t time id kind ident free =>
    cases kind with
    | put => exact h.keep .idle (by simp) rfl rfl rfl rfl
    | get => exact h.keep .idle (by simp) rfl rfl rfl rfl
  | postputTime => exact h.keep _ (by simp) rfl rfl rfl rfl
  | postgetTime => exact h.keep _ (by simp) rfl rfl rfl rfl
  | dangle => exact ⟨h.inside, h.next, h.stamped⟩
  | @postput t id seq time op timed free found =>
    constructor
    case inside =>
      intro t' ht
      rcases update_thread_cases ht with ⟨-, h'⟩ | ⟨-, h'⟩
      · simp at h'
      · exact absurd h' (h.not_verifying free t')
    case next => exact Checker.postputSection_next h.stamped id seq time op
    case stamped =>
      intro n op' hop
      change (s.enc.postputSection id seq (op.posted seq time)).completedList.find n = _ at hop
      rw [Checker.postputSection_completedList] at hop
      exact h.stamped.filed op seq time n op' (truncateLoop_find _ hop)
  | @postget t id tw pf op timed free found =>
    refine ⟨?_, h.next, h.stamped⟩
    intro t' ht
    rcases update_thread_cases ht with ⟨-, h'⟩ | ⟨-, h'⟩
    · split at h'
      · rename_i hnone
        simp [Host.postget, Checker.postgetSection, hnone]
      · simp at h'
    · exact absurd h' (h.not_verifying free t')

theorem Host.settled {moves : List HostMove} {s : Host}
    (h : runs Host.step Host.init moves = some s) : s.Settled :=
  runs_invariant (fun _ _ _ hs hstep => hs.step hstep) Host.Settled.init h

/-! ## Lock discipline -/

/-- `g_mutex` is held only by a call that has not returned, and the ops that have
entered `completed_list` are still there or have become part of the history. -/
structure Host.Accounted (s : Host) : Prop where
  released : s.enc.gMutex = true → ∃ t, s.calls t = .verifying
  kept : ∀ p ∈ s.filed, s.enc.completedList.find p.1 = some p.2 ∨ p.2 ∈ s.merged

/-- **The sections of `enclave_postput` that end well**: a write whose number is
the next one has read its end time after the latest merged write started. -/
def Host.Prompt (s : Host) (m : HostMove) : Prop :=
  ∀ t id seq time op, m = .postLock t → s.calls t = .postput id seq time →
    s.dangling = false → s.enc.gMutex = false → s.enc.pendingList.find id = some op →
    seq = s.enc.nextTs → s.enc.history.latest.start ≤ time

/-- The run a section cuts out starts with the op the section files. -/
theorem Host.Settled.acl_head {s : Host} (h : s.Settled) (op : Op) (seq : Nat) :
    (truncate (s.enc.filed op seq) s.enc.history).1.head? =
      if seq = s.enc.nextTs then some op else none := by
  have hrun := truncate_nextRun (s.enc.filed op seq) s.enc.history
  have hfind : (s.enc.filed op seq).find s.enc.nextTs =
      if seq = s.enc.nextTs then some op else none := by
    split
    · rename_i hseq
      rw [Checker.filed, ← hseq]
      refine StdMap.find_insert_self ?_ op
      rw [hseq]
      exact h.next
    · rename_i hseq
      rw [Checker.filed, StdMap.find_insert_ne (Ne.symm hseq)]
      exact h.next
  rw [← hfind]
  cases hacl : (truncate (s.enc.filed op seq) s.enc.history).1 with
  | nil =>
    rw [hacl] at hrun
    exact hrun.symm
  | cons first rest =>
    rw [hacl] at hrun
    exact hrun.1.symm

/-- **`try_merge` in a section**, by the number and the end time of its op. -/
theorem Host.Settled.merges_iff {s : Host} (h : s.Settled) (op : Op) (seq time : Nat) :
    (tryMerge s.enc.history
        (truncate (s.enc.filed (op.posted seq time) seq) s.enc.history).1).isSome ↔
      (seq = s.enc.nextTs → s.enc.history.latest.start ≤ time) := by
  rw [tryMerge_isSome_iff, h.acl_head]
  by_cases hseq : seq = s.enc.nextTs
  · simp [hseq, Op.posted, Op.setTs, Op.setEnd]
  · simp [hseq]

/-- What was filed before a section is still filed or in the run cut out. -/
theorem Checker.postputSection_kept (c : Checker) (id seq : Nat) (op : Op) {n : Nat} {op' : Op}
    (h : (c.filed op seq).find n = some op') :
    (c.postputSection id seq op).completedList.find n = some op' ∨
      op' ∈ (truncate (c.filed op seq) c.history).1 := by
  rw [Checker.postputSection_completedList]
  exact truncateLoop_kept h

theorem Checker.filed_find_old (c : Checker) {op op' : Op} {seq n : Nat}
    (h : c.completedList.find n = some op') : (c.filed op seq).find n = some op' := by
  unfold Checker.filed StdMap.insert
  split
  · exact h
  · rename_i hmiss
    rw [StdMap.find_cons_ne _, h]
    rintro rfl
    simp [h] at hmiss

/-- A section that merges its run loses nothing and unlocks. -/
theorem Host.Accounted.postput {s : Host} (h : s.Accounted) (hfree : s.enc.gMutex = false)
    {t id seq time : Nat} {op : Op}
    (hmerges : (tryMerge s.enc.history
      (truncate (s.enc.filed (op.posted seq time) seq) s.enc.history).1).isSome) :
    (s.postput t id seq time op).Accounted where
  released := by
    obtain ⟨his, hhis⟩ := Option.isSome_iff_exists.mp hmerges
    show (s.enc.postputSection id seq (op.posted seq time)).gMutex = true → _
    rw [Checker.postputSection_gMutex hhis, hfree]
    simp
  kept := by
    have hmerged : (s.postput t id seq time op).merged =
        s.merged ++ (truncate (s.enc.filed (op.posted seq time) seq) s.enc.history).1 := by
      simp [Host.postput, hmerges]
    have hkeep : ∀ n op', (s.enc.filed (op.posted seq time) seq).find n = some op' →
        (s.postput t id seq time op).enc.completedList.find n = some op' ∨
          op' ∈ (s.postput t id seq time op).merged := by
      intro n op' hop
      rcases s.enc.postputSection_kept id seq _ hop with hop | hop
      · exact Or.inl hop
      · rw [hmerged]
        exact Or.inr (List.mem_append_right _ hop)
    have hold : ∀ p ∈ s.filed, (s.postput t id seq time op).enc.completedList.find p.1 = some p.2 ∨
        p.2 ∈ (s.postput t id seq time op).merged := by
      intro p hp
      rcases h.kept p hp with hp | hp
      · exact hkeep p.1 p.2 (s.enc.filed_find_old hp)
      · rw [hmerged]
        exact Or.inr (List.mem_append_left _ hp)
    intro p hp
    simp only [Host.postput] at hp
    split at hp
    · rename_i hmiss
      rcases List.mem_cons.mp hp with rfl | hp
      · exact hkeep _ _ (StdMap.find_insert_self (Option.isNone_iff_eq_none.mp hmiss) _)
      · exact hold p hp
    · exact hold p hp

/-- A section whose run is refused keeps `g_mutex` with nobody inside. -/
theorem Host.Settled.not_accounted {s : Host} (h : s.Settled) (hfree : s.enc.gMutex = false)
    (t id : Nat) {seq time : Nat} {op : Op}
    (hrefused : ¬ (tryMerge s.enc.history
      (truncate (s.enc.filed (op.posted seq time) seq) s.enc.history).1).isSome) :
    ¬ (s.postput t id seq time op).Accounted := by
  intro hacc
  have hnone := Option.not_isSome_iff_eq_none.mp hrefused
  have hheld : (s.postput t id seq time op).enc.gMutex = true := by
    simp [Host.postput, Checker.postputSection, hnone]
  obtain ⟨t', ht'⟩ := hacc.released hheld
  rcases update_thread_cases ht' with ⟨-, h'⟩ | ⟨-, h'⟩
  · simp at h'
  · exact h.not_verifying hfree t' h'

/-- A step that leaves the completed writes and the lock alone. -/
theorem Host.Accounted.keep {s s' : Host} (h : s.Accounted) {t : Nat} {call : HostCall}
    (hidle : s.calls t ≠ .verifying) (hcalls : s'.calls = Function.update s.calls t call)
    (hmutex : s'.enc.gMutex = s.enc.gMutex)
    (hcompleted : s'.enc.completedList = s.enc.completedList) (hfiled : s'.filed = s.filed)
    (hmerged : s'.merged = s.merged) : s'.Accounted where
  released := by
    rw [hmutex]
    intro hheld
    obtain ⟨t', ht'⟩ := h.released hheld
    refine ⟨t', ?_⟩
    rw [hcalls, Function.update_of_ne _]
    · exact ht'
    · rintro rfl
      exact hidle ht'
  kept := by
    rw [hfiled, hcompleted, hmerged]
    exact h.kept

theorem Host.Accounted.step {s s' : Host} {m : HostMove} (h : s.Accounted) (hsettled : s.Settled)
    (hprompt : s.Prompt m) (hstep : s.step m = some s') : s'.Accounted := by
  obtain ⟨hd, hstepped⟩ := Host.step_stepped hstep
  cases hstepped with
  | preTime idle => exact h.keep (by simp [idle]) rfl rfl rfl rfl rfl
  | preId timed => exact h.keep (by simp [timed]) rfl rfl rfl rfl rfl
  | @preLock t time id kind ident free =>
    cases kind with
    | put => exact h.keep (t := t) (by simp [ident]) rfl rfl rfl rfl rfl
    | get => exact h.keep (t := t) (by simp [ident]) rfl rfl rfl rfl rfl
  | postputTime idle => exact h.keep (by simp [idle]) rfl rfl rfl rfl rfl
  | postgetTime idle => exact h.keep (by simp [idle]) rfl rfl rfl rfl rfl
  | dangle => exact ⟨h.released, h.kept⟩
  | @postput t id seq time op timed free found =>
    refine h.postput free ?_
    rw [hsettled.merges_iff]
    exact hprompt t id seq time op rfl timed hd free found
  | @postget t id tw pf op timed free found =>
    refine ⟨fun hheld => ⟨t, ?_⟩, h.kept⟩
    -- the answer is not `true`, and `nmt` never returns `false`
    have hanswer : (nmt (uint32 tw) op.ts s.rhList pf).2 ≠ some true := by
      simpa [Host.postget, Checker.postgetSection] using hheld
    have hnone : (nmt (uint32 tw) op.ts s.rhList pf).2 = none := by
      cases hn : (nmt (uint32 tw) op.ts s.rhList pf).2 with
      | none => rfl
      | some b =>
        cases b with
        | true => exact absurd hn hanswer
        | false => exact absurd hn (nmt_ne_false _ _ _ _)
    simp [Host.postget, hnone]

/-- **Lock discipline of the checker.** For every sequence of steps of any number
of threads of the host, with whatever arguments: in every state on the way
`g_mutex` is held only by a call that has not returned and no completed write is
lost, if and only if every section of `enclave_postput` finds its write prompt. -/
theorem lock_discipline_iff (moves : List HostMove) :
    (∀ done rest s, moves = done ++ rest → runs Host.step Host.init done = some s →
      s.Accounted) ↔ RunMeets Host.step Host.Prompt Host.init moves := by
  constructor
  · intro h
    refine runMeets_iff.mpr fun done m rest s hsplit hs => ?_
    intro t id seq time op hm hcall hd hfree hfound
    subst hm
    have hsettled := Host.settled hs
    by_contra hlate
    have hstep : s.step (.postLock t) = some (s.postput t id seq time op) :=
      (Host.Stepped.postput hcall hfree hfound).step hd
    have hrefused := mt (hsettled.merges_iff op seq time).mp hlate
    refine hsettled.not_accounted hfree t id hrefused ?_
    exact h (done ++ [.postLock t]) rest _ (by rw [hsplit, List.append_assoc]; rfl)
      (runs_snoc.mpr ⟨s, hs, hstep⟩)
  · rintro hmeets done rest s rfl hs
    have h := hmeets.of_append.invariant (P := fun s => s.Settled ∧ s.Accounted)
      (fun s m s' h hprompt hstep => ⟨h.1.step hstep, h.2.step h.1 hprompt hstep⟩)
      ⟨Host.Settled.init, by simp [Host.init, Checker.init], by simp [Host.init]⟩ hs
    exact h.2

/-- `b` starts and reads its end time; `a` starts, ends and is merged as number 1;
then `b` takes `g_mutex` as number 2. -/
def overtakenPost : List HostMove :=
  [.preTime 0 .put, .preId 0, .preLock 0, .postputTime 0 1 2,
   .preTime 1 .put, .preId 1, .preLock 1, .postputTime 1 2 1, .postLock 1,
   .postLock 0]

/-- All calls have returned, `g_mutex` is held, and the op of `b` is neither in
`completed_list` nor part of the history. -/
theorem overtakenPost_deadlocks :
    ∃ s, runs Host.step Host.init overtakenPost = some s ∧
      (∀ t, s.calls t = .idle) ∧ s.dangling = false ∧ s.enc.gMutex = true ∧
      (2, { id := 1, start := 1, end_ := 2, ts := 2 }) ∈ s.filed ∧
      s.enc.completedList = [] ∧
      s.merged = [{ id := 2, start := 3, end_ := 4, ts := 1 }] ∧
      s.enc.history.latest = { id := 2, start := 3, end_ := 4, ts := 1 } := by
  refine ⟨_, rfl, ?_, by decide, by decide, by decide, by decide, by decide, by decide⟩
  intro t
  -- thread 0 and thread 1 are the only ones that have moved
  by_cases h0 : t = 0
  · subst h0
    rfl
  · by_cases h1 : t = 1
    · subst h1
      rfl
    · simp [Host.postput, Host.setCall, Host.init, Function.update_of_ne, h0, h1]

end Lpad
