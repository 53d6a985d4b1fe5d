import Lpad.DB.WriteLink

/-!
# Database and enclave agree on single entries, and only on them

With single entries the enclave merges everything. With any larger batch it
cannot: the database counts more numbers than there are calls, and the enclave
cannot merge more writes than have been posted.
-/

namespace Lpad

/-- Callers with at least one entry each, and no more entries than callers. -/
theorem single_of_entryCount_le : ∀ {ws : List Writer}, (∀ w ∈ ws, 1 ≤ w.ops.length) →
    entryCount ws ≤ ws.length → ∀ w ∈ ws, w.ops.length = 1
  | [], _, _, w, hw => by simp at hw
  | w :: ws, hpos, hle, w', hw' => by
    have hpos' : ∀ v ∈ ws, 1 ≤ v.ops.length := fun v hv => hpos v (List.mem_cons_of_mem _ hv)
    have hmin : ∀ vs : List Writer, (∀ v ∈ vs, 1 ≤ v.ops.length) → vs.length ≤ entryCount vs := by
      intro vs hvs
      induction vs with
      | nil => exact Nat.zero_le _
      | cons v vs ih =>
        have := ih fun x hx => hvs x (List.mem_cons_of_mem _ hx)
        have := hvs v List.mem_cons_self
        rw [entryCount_cons, List.length_cons]
        omega
    have hrest := hmin ws hpos'
    have hw := hpos w List.mem_cons_self
    rw [entryCount_cons, List.length_cons] at hle
    rcases List.mem_cons.mp hw' with rfl | hw'
    · omega
    · exact single_of_entryCount_le hpos' (by omega) w' hw'

namespace Linked

variable {jobs : Nat → Job} {acts : List Move} {s : World} {tr : List Act} {stamp : Nat → Nat}

/-- Every number up to the last one has been given to a call. -/
theorem replied_of_le (h : Linked acts s tr stamp) {n : Nat} (hpos : 1 ≤ n)
    (hle : n ≤ s.queue.db.lastSequence) : ∃ t, s.Replied t n := by
  have hmem : some n ∈ (List.range' 1 s.queue.db.lastSequence).map some := by
    refine List.mem_map_of_mem (List.mem_range'_1.mpr ⟨hpos, ?_⟩)
    omega
  rw [← h.numbers.mem_iff, List.mem_map] at hmem
  obtain ⟨r, hr, hseq⟩ := hmem
  exact ⟨r.writer.owner, r, hr, rfl, hseq⟩

/-- When all calls have completed, every number given has been posted. -/
theorem posted_of_replied (h : Linked acts s tr stamp) (hsound : Sound jobs acts s)
    (hdone : ∀ t, s.phase t = .before ∨ s.phase t = .finished) {t n : Nat}
    (hr : s.Replied t n) : n ∈ s.enc.posted.map Prod.fst := by
  obtain ⟨r, hmem, rfl, hseq⟩ := hr
  have hcaller : r.writer.owner ∈ s.queue.replies.map fun r => r.writer.owner :=
    List.mem_map.mpr ⟨r, hmem, rfl⟩
  have hfinished : s.phase r.writer.owner = .finished := by
    refine (hdone _).resolve_left fun hbefore => ?_
    have := hsound.served.called _ (List.mem_append_left _ hcaller)
    simp [hbefore, Phase.Called] at this
  have hagent := h.agents r.writer.owner
  simp only [AgentOk, hfinished] at hagent
  obtain ⟨-, n', ⟨r', hmem', howner, hseq'⟩, hposted⟩ := hagent
  -- a call is answered once
  have hnodup := hsound.served.distinct.of_append_left
  have hrr : r' = r := List.inj_on_of_nodup_map hnodup hmem' hmem howner
  subst hrr
  cases hseq.symm.trans hseq'
  exact hposted

end Linked

/-- **Agreement.** In every run of fewer than `2^31` calls with non-empty batches,
once all calls have completed, the history of the enclave stands at the last
sequence number of the database with nothing left in `completed_list` if and only
if the batch of every call has exactly one entry. -/
theorem enclave_agrees_iff_single (jobs : Nat → Job) (hjobs : ∀ t, (jobs t).batch.ops ≠ [])
    (acts : List Move) (s : World) (hrun : runs (World.step jobs) World.init acts = some s)
    (hsmall : (callsOf Move.started acts).length < 2 ^ 31)
    (hdone : ∀ t, s.phase t = .before ∨ s.phase t = .finished) :
    (s.enc.enc.history.latest.ts = s.queue.db.lastSequence ∧ s.enc.enc.completedList = []) ↔
      ∀ t ∈ callsOf Move.started acts, (jobs t).batch.ops.length = 1 := by
  have hsound := runs_sound hrun hsmall
  have hfinished : ∀ t, t ∈ callsOf Move.started acts → s.phase t = .finished := by
    intro t ht
    exact (hdone t).resolve_left ((hsound.starts.mem t).mp ht)
  constructor
  · rintro ⟨hlatest, -⟩ t ht
    -- the history has merged no more writes than there were calls
    have hmerged : s.queue.db.lastSequence ≤ (callsOf Move.started acts).length := by
      rw [← hlatest]
      refine hsound.counted.latest_le_posted.trans (hsound.posted.trans ?_)
      exact hsound.posts.length_le hsound.starts fun t ht hbefore => by simp [hbefore] at ht
    have hanswered : ∀ t ∈ callsOf Move.started acts,
        t ∈ s.queue.replies.map fun r => r.writer.owner := fun t ht =>
      hsound.served.answered t (by simp [hfinished t ht, Phase.Answered])
    have hcalls : (callsOf Move.started acts).length ≤ s.queue.replies.length := by
      simpa using (hsound.starts.nodup.subperm hanswered).length_le
    have hops : ∀ r ∈ s.queue.replies, r.writer.ops = (jobs r.writer.owner).batch.ops :=
      fun r hr => congrArg Writer.ops (hsound.served.replies r hr)
    have hpos : ∀ w ∈ s.queue.replies.map Reply.writer, 1 ≤ w.ops.length := by
      intro w hw
      obtain ⟨r, hr, rfl⟩ := List.mem_map.mp hw
      rw [hops r hr]
      exact List.length_pos_iff.mpr (hjobs _)
    have hsingle := single_of_entryCount_le hpos (by
      rw [← hsound.served.total, List.length_map]
      exact hmerged.trans hcalls)
    obtain ⟨r, hr, rfl⟩ := List.mem_map.mp (hanswered t ht)
    rw [← hops r hr]
    exact hsingle r.writer (List.mem_map_of_mem hr)
  · intro hone
    have hone' : ∀ t, s.phase t ≠ .before → (jobs t).batch.ops.length = 1 :=
      fun t ht => hone t ((hsound.starts.mem t).mpr ht)
    obtain ⟨tr, stamp, hlinked⟩ := runs_linked hrun hsmall hone'
    obtain ⟨-, hflying, ⟨m, hfiled⟩, -⟩ := hlinked.good hsound hsmall
    have hposted : (s.enc.posted.map Prod.fst).Perm
        (List.range' 1 s.queue.db.lastSequence) := by
      refine (List.perm_ext_iff_of_nodup hflying.nodup List.nodup_range').mpr fun n => ?_
      rw [List.mem_range'_1]
      constructor
      · intro hn
        obtain ⟨t, -, hr⟩ := hlinked.seqs n (hflying.posted hn)
        have := hlinked.replied_range hr
        omega
      · intro hn
        obtain ⟨t, hr⟩ := hlinked.replied_of_le hn.1 (by omega)
        exact hlinked.posted_of_replied hsound hdone hr
    obtain ⟨hm, hcompleted⟩ := hfiled.complete hposted
    exact ⟨hfiled.latest.trans hm, hcompleted⟩

/-- A call with one entry. -/
def onePut : Job where
  batch := Batch.empty.put [97] [1] (by simp [BatchOp.Fits]) Batch.length_empty_lt
  sync := false

/-- A call with two entries in one batch. -/
def pairPut : Job where
  batch := (Batch.empty.put [97] [1] (by simp [BatchOp.Fits]) Batch.length_empty_lt).put [98] [2]
    (by simp [BatchOp.Fits]) (by decide)
  sync := false

/-- Two calls that are served as one group; the second one posts first. -/
def oneGroup : List Move :=
  [.start 0, .ident 0, .enter 0, .call 0, .start 1, .ident 1, .enter 1, .call 1, .lead, .commit,
   .ret 1, .finish 1, .post 1, .ret 0, .finish 0, .post 0]

theorem enclave_agrees_iff_single_oneGroup :
    ∃ s, runs (World.step fun _ => onePut) World.init oneGroup = some s ∧
      s.enc.enc.history.latest.ts = s.queue.db.lastSequence ∧
      s.enc.enc.completedList = [] := by
  have hsome : (runs (World.step fun _ => onePut) World.init oneGroup).isSome = true := by
    decide +kernel
  obtain ⟨s, hs⟩ := Option.isSome_iff_exists.mp hsome
  have hsound := runs_sound hs (by decide)
  have hdone : ∀ t, s.phase t = .before ∨ s.phase t = .finished := by
    intro t
    by_cases ht : t ∈ callsOf Move.posted oneGroup
    · exact Or.inr ((hsound.posts.mem t).mp ht)
    · refine Or.inl (not_not.mp (mt (hsound.starts.mem t).mpr fun hstart => ht ?_))
      have hsame : (callsOf Move.started oneGroup).Perm (callsOf Move.posted oneGroup) := by decide
      exact hsame.mem_iff.mp hstart
  exact ⟨s, hs, (enclave_agrees_iff_single (fun _ => onePut) (fun _ => by decide) oneGroup s hs
    (by decide) hdone).mpr fun _ _ => rfl⟩

/-- One call with two entries, from start to end. -/
def onePair : List Move :=
  [.start 0, .ident 0, .enter 0, .call 0, .lead, .commit, .ret 0, .finish 0, .post 0]

/-- The database has used the numbers 1 and 2, the call has posted 2, and the
enclave waits for 1. -/
theorem enclave_waits_for_pair :
    ∃ s, runs (World.step fun _ => pairPut) World.init onePair = some s ∧
      s.phase 0 = .finished ∧ s.queue.db.lastSequence = 2 ∧
      s.enc.enc.history.latest.ts = 0 ∧
      s.enc.enc.completedList = [(2, { id := 1, start := 1, end_ := 2, ts := 2 })] := by
  have hrun : (runs (World.step fun _ => pairPut) World.init onePair).map
      (fun s => (s.phase 0, s.queue.db.lastSequence, s.enc.enc.history.latest.ts,
        s.enc.enc.completedList)) =
      some (.finished, 2, 0, [(2, { id := 1, start := 1, end_ := 2, ts := 2 })]) := by
    decide +kernel
  obtain ⟨s, hs, hvals⟩ := Option.map_eq_some_iff.mp hrun
  simp only [Prod.mk.injEq] at hvals
  exact ⟨s, hs, hvals⟩

end Lpad
