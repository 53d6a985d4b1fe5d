import Lpad.Enclave.CheckerClock

/-!
# Progress of the write history

Clients that use each id once and post each of the numbers `1..n` once, in an
order that real time allows. With fewer than `2^31` writes the invariants of ids, numbers and
history hold along every run, so that no section fails and the history keeps up with the numbers
posted. With `2^31` writes the clock wraps, and a client that writes alone is refused.
-/

namespace Lpad

/-! ## Runs -/

/-- The numbers are different and positive, and neither they nor the ids drawn
come near 32 bits. -/
structure Supplied (acts : List Act) : Prop where
  nodup : (seqsOf acts).Nodup
  pos : ∀ k ∈ seqsOf acts, 0 < k
  small : ∀ k ∈ seqsOf acts, k < 2 ^ 31
  ids : idsDrawn acts < 2 ^ 32

theorem Supplied.init {acts rest : List Act} (h : Supplied (acts ++ rest)) : Supplied acts := by
  obtain ⟨hnodup, hpos, hsmall, hids⟩ := h
  rw [seqsOf, List.filterMap_append] at hnodup hpos hsmall
  rw [idsDrawn, List.countP_append] at hids
  exact ⟨hnodup.of_append_left, fun k hk => hpos k (List.mem_append_left _ hk),
    fun k hk => hsmall k (List.mem_append_left _ hk),
    Nat.lt_of_le_of_lt (Nat.le_add_right _ _) hids⟩

/-- **The invariant of a run** whose actions so far are `acts`. -/
structure Good (acts : List Act) (s : Sys) : Prop where
  owned : ∃ stage, Owned s (idsDrawn acts) stage
  flying : Flying s (seqsOf acts)
  filed : ∃ m, Filed s m
  dangling : s.dangling = false

theorem Good.init : Good [] Sys.init where
  owned := ⟨_, Owned.init⟩
  flying := Flying.init
  filed := ⟨0, Filed.init⟩
  dangling := rfl

/-- The invariant is kept by every step of clients that keep to their own ids. -/
theorem Good.step {acts : List Act} {s s' : Sys} {a : Act} (h : Good acts s)
    (hsup : Supplied (acts ++ [a])) (hreal : Consistent s'.posted)
    (hstep : s.ownStep a = some s') : Good (acts ++ [a]) s' := by
  obtain ⟨⟨stage, howned⟩, hflying, ⟨m, hfiled⟩, hdangling⟩ := h
  have hids := hsup.ids
  have hnodup := hsup.nodup
  rw [idsDrawn_append] at hids
  rw [seqsOf_append] at hnodup
  have howned' := howned.step hids hstep
  rw [← idsDrawn_append] at howned'
  rcases (Sys.step_stepped (Sys.ownStep_step hstep)).2 with
    @⟨t, hidle⟩ | @⟨t, time, htimed⟩ | @⟨t, time, id, hident, hfree⟩ | @⟨t, id, seq, hidle⟩ |
    @⟨t, id, seq, time, htimed, hfree, hmiss⟩ | @⟨t, id, seq, time, op, htimed, hfree, hfound⟩
  case preputTime =>
    refine ⟨howned', ?_, ⟨m, hfiled.frame rfl rfl rfl rfl rfl rfl⟩, hdangling⟩
    rw [seqsOf_append]
    exact (List.append_nil _).symm ▸ hflying.preput (by simp) rfl rfl
  case preputId =>
    refine ⟨howned', ?_, ⟨m, hfiled.frame rfl rfl rfl rfl rfl rfl⟩, hdangling⟩
    rw [seqsOf_append]
    exact (List.append_nil _).symm ▸ hflying.preput (by simp) rfl rfl
  case preputLock =>
    refine ⟨howned', ?_, ⟨m, hfiled.frame rfl rfl rfl rfl rfl rfl⟩, hdangling⟩
    rw [seqsOf_append]
    exact (List.append_nil _).symm ▸ hflying.preput (by simp) rfl rfl
  case postputTime =>
    refine ⟨howned', ?_, ⟨m, hfiled.frame rfl rfl rfl rfl rfl rfl⟩, hdangling⟩
    rw [seqsOf_append]
    exact hflying.postputTime fun hmem =>
      List.disjoint_of_nodup_append hnodup hmem (List.mem_singleton_self seq)
  case dangle => exact absurd hmiss (howned.found htimed)
  case post =>
    obtain ⟨hused, hnew⟩ := hflying.flying t id seq time htimed
    have hused' : ∀ k ∈ seqsOf acts, k ∈ seqsOf (acts ++ [.postputLock t]) := by
      intro k hk
      rw [seqsOf_append]
      exact List.mem_append_left _ hk
    -- no number is as large as `2^31`
    have hmissing : 2 ^ 31 ∉ (s.posted ++ [(seq, op.posted seq time)]).map Prod.fst := by
      rw [List.map_append]
      intro hmem
      rcases List.mem_append.mp hmem with hmem | hmem
      · exact Nat.lt_irrefl _ (hsup.small _ (hused' _ (hflying.posted hmem)))
      · exact Nat.lt_irrefl _
          (hsup.small _ (hused' _ (List.mem_singleton.mp hmem ▸ hused)))
    refine ⟨howned', ?_, hfiled.post (hsup.pos seq (hused' seq hused)) hnew (by decide) (by decide)
      hmissing hreal, hdangling⟩
    rw [seqsOf_append]
    exact (List.append_nil _).symm ▸ hflying.post htimed

theorem runs_good {acts : List Act} {s : Sys} (hrun : runs Sys.ownStep Sys.init acts = some s)
    (hsup : Supplied acts) (hreal : Consistent s.posted) : Good acts s := by
  refine runs_induction (P := fun acts s => Supplied acts → Consistent s.posted → Good acts s)
    (fun _ _ => Good.init) ?_ acts s hrun hsup hreal
  intro acts u a t _ ih hstep hsup hreal
  have hsub := (Sys.step_stepped (Sys.ownStep_step hstep)).2.posted_subset
  exact (ih hsup.init (hreal.mono hsub)).step hsup hreal hstep

/-- `completed_list` has exactly what is posted above `m`. -/
theorem Good.completed_iff {acts : List Act} {s : Sys} {m : Nat} (h : Good acts s)
    (hsup : Supplied acts) (hfiled : Filed s m) (k : Nat) (op : Op) :
    s.enc.completedList.find k = some op ↔ (k, op) ∈ s.posted ∧ m < k :=
  hfiled.completed_iff h.flying.nodup
    (fun k hk => (hsup.small k (h.flying.posted hk)).trans (by decide)) k op

theorem runs_posted_subset {s s' : Sys} {acts : List Act}
    (hrun : runs Sys.ownStep s acts = some s') : s.posted ⊆ s'.posted := by
  refine runs_invariant (P := fun u => s.posted ⊆ u.posted) ?_ (List.Subset.refl _) hrun
  intro u a t hu hstep
  exact List.Subset.trans hu (Sys.step_stepped (Sys.ownStep_step hstep)).2.posted_subset

/-- Once the numbers `1..n` are all posted, the history is complete. -/
theorem Filed.complete {s : Sys} {m n : Nat} (h : Filed s m)
    (hposted : (s.posted.map Prod.fst).Perm (List.range' 1 n)) :
    m = n ∧ s.enc.completedList = [] := by
  have hmem : ∀ k, k ∈ s.posted.map Prod.fst ↔ 1 ≤ k ∧ k < 1 + n := by
    intro k
    rw [hposted.mem_iff, List.mem_range'_1]
  have hm : m = n := by
    have hgap := mt (hmem (m + 1)).mpr h.reaches.gap
    rcases Nat.eq_zero_or_pos m with rfl | hpos
    · omega
    · have := (hmem m).mp (h.reaches.upTo m hpos (Nat.le_refl m))
      omega
  refine ⟨hm, StdMap.eq_nil_of_find fun k => ?_⟩
  by_contra hne
  obtain ⟨o, ho⟩ := Option.ne_none_iff_exists'.mp hne
  obtain ⟨hin, hlt⟩ := h.above k o ho
  have := (hmem k).mp (List.mem_map.mpr ⟨_, hin, rfl⟩)
  omega

/-- **Progress without false alarms.** Take any run of clients that use each id
once and post the numbers `1..n`, each once and none against real time, and any
point of it. No section so far has failed or looked up a missing id, and
`g_mutex` is free; the history stands at the largest `m` such that `1..m` are
posted, and `completed_list` holds what is posted above. When all `n` are posted,
the history stands at `n` and both lists are empty. The clock is read twice per write, so `n` is
below `2^31`. -/
theorem write_history_progress (n : Nat) (hn : n < 2 ^ 31) (acts : List Act) (s : Sys)
    (hrun : runs Sys.ownStep Sys.init acts = some s)
    (hseqs : (seqsOf acts).Perm (List.range' 1 n)) (hcalls : preputsBegun acts = n)
    (hids : idsDrawn acts = n) (hreal : RealTime acts) (sofar rest : List Act)
    (hacts : acts = sofar ++ rest) (s' : Sys)
    (hsofar : runs Sys.ownStep Sys.init sofar = some s') :
    s'.dangling = false ∧ s'.enc.gMutex = false ∧ (∀ c ∈ s'.sections, c.ok = true) ∧
    ∃ m, s'.enc.history.latest.ts = m ∧
      (∀ k, 1 ≤ k → k ≤ m → k ∈ s'.posted.map Prod.fst) ∧
      m + 1 ∉ s'.posted.map Prod.fst ∧
      (∀ k op, s'.enc.completedList.find k = some op ↔ (k, op) ∈ s'.posted ∧ m < k) ∧
      (s'.posted.length = n →
        m = n ∧ s'.enc.pendingList = [] ∧ s'.enc.completedList = []) := by
  have hsmall : idsDrawn acts < 2 ^ 32 := by omega
  have hsup : Supplied acts := by
    refine ⟨hseqs.nodup_iff.mpr List.nodup_range', ?_, ?_, hsmall⟩
    · intro k hk
      exact (List.mem_range'_1.mp (hseqs.mem_iff.mp hk)).1
    · intro k hk
      have := (List.mem_range'_1.mp (hseqs.mem_iff.mp hk)).2
      omega
  have hconsistent : Consistent s.posted := by
    refine runs_consistent hrun hsmall ?_ hreal
    rw [countP_readsClock, hcalls, hseqs.length_eq, List.length_range']
    omega
  subst hacts
  obtain ⟨u, hu, hrest⟩ := runs_of_append hrun
  cases hsofar.symm.trans hu
  have hgood := runs_good hsofar hsup.init (hconsistent.mono (runs_posted_subset hrest))
  obtain ⟨stage, howned⟩ := hgood.owned
  obtain ⟨m, hfiled⟩ := hgood.filed
  refine ⟨hgood.dangling, hfiled.free, hfiled.merges, m, hfiled.latest, hfiled.reaches.upTo,
    hfiled.reaches.gap, hgood.completed_iff hsup.init hfiled, fun hall => ?_⟩
  have hposted : (s'.posted.map Prod.fst).Perm (List.range' 1 n) := by
    refine (hgood.flying.nodup.subperm fun k hk => ?_).perm_of_length_le (by simp [hall])
    refine hseqs.mem_iff.mp ?_
    rw [seqsOf, List.filterMap_append]
    exact List.mem_append_left _ (hgood.flying.posted hk)
  have hdrawn : idsDrawn sofar ≤ n := by
    rw [← hids, idsDrawn, idsDrawn, List.countP_append]
    exact Nat.le_add_right _ _
  obtain ⟨hm, hcompleted⟩ := hfiled.complete hposted
  exact ⟨hm, howned.pending_empty (hdrawn.trans (Nat.le_of_eq hall.symm)), hcompleted⟩

/-- Two writes at the same time; the one that is posted first has number 2. -/
def swapped : List Act :=
  [.preputTime 0, .preputId 0, .preputLock 0, .preputTime 1, .preputId 1, .preputLock 1,
   .postputTime 1 2 2, .postputLock 1, .postputTime 0 1 1, .postputLock 0]

theorem write_history_progress_swapped :
    ∃ s, runs Sys.ownStep Sys.init swapped = some s ∧
      ∃ m, s.enc.history.latest.ts = m ∧
        m = 2 ∧ s.enc.pendingList = [] ∧ s.enc.completedList = [] := by
  have hposted : (runs Sys.ownStep Sys.init swapped).map Sys.posted =
      some [(2, { id := 2, start := 2, end_ := 3, ts := 2 }),
        (1, { id := 1, start := 1, end_ := 4, ts := 1 })] := by decide
  obtain ⟨s, hs, hp⟩ := Option.map_eq_some_iff.mp hposted
  obtain ⟨-, -, -, m, hm, -, -, -, hdone⟩ :=
    write_history_progress 2 (by decide) swapped s hs (by decide) (by decide) (by decide)
      (by decide) swapped [] (List.append_nil _).symm s hs
  exact ⟨s, hs, m, hm, hdone (by rw [hp]; rfl)⟩

/-! ## The clock wraps -/

/-- The two ecalls of write `k` of a client that writes alone. -/
def writeAlone (k : Nat) : List Act :=
  [.preputTime 0, .preputId 0, .preputLock 0, .postputTime 0 k k, .postputLock 0]

/-- One write after the other. -/
def writesAlone (n : Nat) : List Act := (List.range' 1 n).flatMap writeAlone

theorem writesAlone_succ (k : Nat) : writesAlone (k + 1) = writesAlone k ++ writeAlone (k + 1) := by
  rw [writesAlone, writesAlone, List.range'_1_concat, List.flatMap_append, Nat.add_comm 1 k,
    List.flatMap_singleton]

theorem writesAlone_seqsOf (n : Nat) : seqsOf (writesAlone n) = List.range' 1 n := by
  induction n with
  | zero => rfl
  | succ k ih =>
    rw [writesAlone_succ, seqsOf, List.filterMap_append, List.range'_1_concat, ← ih,
      Nat.add_comm 1 k]
    rfl

theorem writesAlone_calls (n : Nat) :
    preputsBegun (writesAlone n) = n ∧ idsDrawn (writesAlone n) = n := by
  induction n with
  | zero => exact ⟨rfl, rfl⟩
  | succ k ih =>
    rw [writesAlone_succ, preputsBegun, idsDrawn, List.countP_append, List.countP_append]
    exact ⟨congrArg Nat.succ ih.1, congrArg Nat.succ ih.2⟩

theorem writesAlone_watch (n : Nat) :
    (watch (writesAlone n)).now = 5 * n ∧ (watch (writesAlone n)).drawn = n ∧
      (watch (writesAlone n)).spans =
        (List.range' 1 n).map fun k => ⟨k, 5 * (k - 1), 5 * (k - 1) + 3⟩ := by
  induction n with
  | zero => exact ⟨rfl, rfl, rfl⟩
  | succ k ih =>
    obtain ⟨hnow, hdrawn, hspans⟩ := ih
    have hw : watch (writesAlone (k + 1)) =
        (writeAlone (k + 1)).foldl Watch.see (watch (writesAlone k)) := by
      rw [writesAlone_succ, watch, List.foldl_append, watch]
    rw [hw, List.range'_1_concat, List.map_append, ← hspans]
    simp [writeAlone, Watch.see, hnow, hdrawn, Nat.add_comm 1 k, Nat.mul_add]

theorem writesAlone_realTime (n : Nat) : RealTime (writesAlone n) := by
  intro a ha b hb hab
  rw [(writesAlone_watch n).2.2] at ha hb
  obtain ⟨i, -, rfl⟩ := List.mem_map.mp ha
  obtain ⟨j, -, rfl⟩ := List.mem_map.mp hb
  dsimp only at hab ⊢
  omega

/-- What is merged after `k` writes of a client that writes alone. -/
def mergedAlone (k : Nat) : HistoryW := ⟨{ id := k, start := 2 * k - 1, end_ := 2 * k, ts := k }⟩

/-- The state between two writes of a client that writes alone. -/
structure Alone (k : Nat) (s : Sys) : Prop where
  enc : s.enc = { Checker.init with gTimer := 2 * k, gId := k, history := mergedAlone k }
  idle : s.threads 0 = .idle
  dangling : s.dangling = false

/-- Write `k + 1` up to its last section. -/
theorem Alone.toSection {k : Nat} {s : Sys} (h : Alone k s) (hk : k < 2 ^ 31) :
    ∃ u, runs Sys.ownStep s
        [.preputTime 0, .preputId 0, .preputLock 0, .postputTime 0 (k + 1) (k + 1)] = some u ∧
      u.threads 0 = .postputTimed (k + 1) (k + 1) (uint32 (2 * (k + 1))) ∧ u.dangling = false ∧
      u.enc =
        { Checker.init with
          pendingList := [(k + 1, Op.new (k + 1) (2 * k + 1))]
          gTimer := uint32 (2 * (k + 1))
          gId := k + 1
          history := mergedAlone k } := by
  obtain ⟨enc, threads, returned, posted, merged, sections, dangling⟩ := s
  obtain ⟨rfl, hidle, rfl⟩ := h
  dsimp only at hidle
  have htime : uint32 (2 * k + 1) = 2 * k + 1 := uint32_of_lt (by omega)
  have hid : uint32 (k + 1) = k + 1 := uint32_of_lt (by omega)
  simp only [runs, Sys.ownStep, Sys.step, Sys.setThread, hidle, Checker.getTime, Checker.allocId,
    Checker.preputSection, Checker.init, htime, hid, Function.update_self, Option.bind_some,
    Bool.false_eq_true, if_false, List.mem_cons, true_or, if_true]
  refine ⟨_, rfl, ?_, rfl, rfl⟩
  simp [Nat.mul_add]

/-- The next number, with nothing else waiting. -/
theorem truncate_next (op : Op) {k : Nat} (hk : uint32 (k + 1) = k + 1) :
    truncate (StdMap.insert [] (k + 1) op) (mergedAlone k) = ([op], []) := by
  show truncateLoop 1 [(k + 1, op)] (uint32 (k + 1)) = _
  rw [hk, truncateLoop, StdMap.find_cons_self]
  simp [truncateLoop, StdMap.erase]

/-- Write `k + 1`: its section is refused when the clock wraps at its end. -/
theorem Alone.write {k : Nat} {s : Sys} (h : Alone k s) (hk : k < 2 ^ 31) :
    ∃ s', runs Sys.ownStep s (writeAlone (k + 1)) = some s' ∧
      (k + 1 < 2 ^ 31 → Alone (k + 1) s') ∧
      (k + 1 = 2 ^ 31 → s'.enc.gMutex = true ∧ s'.enc.history.latest.ts = k ∧
        ∃ c ∈ s'.sections, c.ok = false) := by
  obtain ⟨u, hu, hthread, hdangling, henc⟩ := h.toSection hk
  let op := Op.new (k + 1) (2 * k + 1)
  let time := uint32 (2 * (k + 1))
  have hlock : u.ownStep (.postputLock 0) = some (u.post 0 (k + 1) (k + 1) time op) := by
    simp only [Sys.ownStep, Sys.step, hdangling, hthread, henc, Checker.init, Bool.false_eq_true,
      if_false, StdMap.find_cons_self]
    rfl
  have hcut : truncate (u.enc.filed (op.posted (k + 1) time) (k + 1)) u.enc.history =
      ([op.posted (k + 1) time], []) := by
    rw [henc]
    exact truncate_next _ (uint32_of_lt (by omega))
  refine ⟨_, runs_snoc.mpr ⟨u, hu, hlock⟩, fun hlt => ?_, fun hwrap => ?_⟩
  · have htime : time = 2 * (k + 1) := uint32_of_lt (by omega)
    have hmerge : tryMerge u.enc.history
        (truncate (u.enc.filed (op.posted (k + 1) time) (k + 1)) u.enc.history).1 =
          some (mergedAlone (k + 1)) := by
      rw [hcut, henc]
      refine (if_neg ?_).trans (congrArg (fun o : Op => some (HistoryW.mk o)) ?_)
      · show ¬ time < 2 * k - 1
        omega
      · show (⟨k + 1, 2 * k + 1, time, uint32 (k + 1)⟩ : Op) = _
        rw [htime, uint32_of_lt (show k + 1 < 2 ^ 32 by omega)]
        rfl
    refine ⟨?_, by simp [Sys.post], hdangling⟩
    show u.enc.postputSection (k + 1) (k + 1) (op.posted (k + 1) time) = _
    rw [Checker.postputSection, hmerge, hcut, henc]
    simp [StdMap.erase, Checker.init, show uint32 (2 * (k + 1)) = 2 * (k + 1) from htime]
  · have hmerge : tryMerge u.enc.history
        (truncate (u.enc.filed (op.posted (k + 1) time) (k + 1)) u.enc.history).1 = none := by
      rw [hcut, henc]
      refine if_pos ?_
      show uint32 (2 * (k + 1)) < 2 * k - 1
      rw [hwrap]
      show 0 < 2 * k - 1
      omega
    refine ⟨Checker.postputSection_gMutex_none hmerge, ?_, _,
      List.mem_append_right _ List.mem_cons_self, ?_⟩
    · show (u.enc.postputSection _ _ _).history.latest.ts = k
      rw [Checker.postputSection_history_none hmerge, henc]
      rfl
    · show (tryMerge _ _).isSome = false
      exact congrArg Option.isSome hmerge

/-- **A false alarm.** One client writes `2^31` times, one write after the other, and posts the
numbers in order. In the last `enclave_postput` the clock reads 0, `try_merge` refuses the write
and `g_mutex` stays held. -/
theorem clock_wrap_refused :
    ∃ s, runs Sys.ownStep Sys.init (writesAlone (2 ^ 31)) = some s ∧
      (seqsOf (writesAlone (2 ^ 31))).Perm (List.range' 1 (2 ^ 31)) ∧
      preputsBegun (writesAlone (2 ^ 31)) = 2 ^ 31 ∧ idsDrawn (writesAlone (2 ^ 31)) = 2 ^ 31 ∧
      RealTime (writesAlone (2 ^ 31)) ∧
      s.enc.gMutex = true ∧ s.enc.history.latest.ts = 2 ^ 31 - 1 ∧
      ∃ c ∈ s.sections, c.ok = false := by
  have halone : ∀ k < 2 ^ 31, ∃ s, runs Sys.ownStep Sys.init (writesAlone k) = some s ∧
      Alone k s := by
    intro k
    induction k with
    | zero => exact fun _ => ⟨Sys.init, rfl, rfl, rfl, rfl⟩
    | succ k ih =>
      intro hk
      obtain ⟨s, hs, hk'⟩ := ih (by omega)
      obtain ⟨s', hs', hnext, -⟩ := hk'.write (by omega)
      refine ⟨s', ?_, hnext hk⟩
      rw [writesAlone_succ, runs_append, hs]
      exact hs'
  obtain ⟨s, hs, h⟩ := halone (2 ^ 31 - 1) (by decide)
  obtain ⟨s', hs', -, hlast⟩ := h.write (by decide)
  refine ⟨s', ?_, ?_, (writesAlone_calls _).1, (writesAlone_calls _).2, writesAlone_realTime _,
    hlast rfl⟩
  · have hsucc := writesAlone_succ (2 ^ 31 - 1)
    rw [show 2 ^ 31 - 1 + 1 = 2 ^ 31 from rfl] at hsucc
    rw [hsucc, runs_append, hs]
    exact hs'
  · rw [writesAlone_seqsOf]

end Lpad
