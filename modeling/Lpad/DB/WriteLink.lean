import Lpad.DB.WriteHistory

/-!
# Runs with single entries

When every batch has one entry, a group of `k` calls takes `k` numbers and reports
each of them to one of its calls. The numbers posted are then `1, 2, ...`, each
once, and they agree with real time: the number of a call is fixed when its group
is committed, which is after the call has read its start time and before it reads
its end time. `Linked` carries this along a run, next to the invariants of the
enclave, which it makes applicable.
-/

namespace Lpad

/-- The id a call holds outside the two ecalls. -/
def Phase.holds : Phase → Option Nat
  | .ready id | .waiting id | .returned id _ => some id
  | _ => none

/-- The call has drawn its id. -/
def World.Drawn (s : World) (t : Nat) : Prop :=
  match s.phase t with
  | .before => False
  | .preput => ∃ time id, s.enc.threads t = .preputIdent time id
  | _ => True

/-- **Where a call stands**, in the enclave and in time. `stamp n` is the enclave's
clock when number `n` was committed. -/
def AgentOk (s : World) (stamp : Nat → Nat) (t : Nat) : Prop :=
  match s.phase t with
  | .before => s.enc.threads t = .idle
  | .preput =>
    (∃ time, s.enc.threads t = .preputTimed time ∧ time ≤ s.enc.enc.gTimer) ∨
    ∃ time id, s.enc.threads t = .preputIdent time id ∧ time ≤ s.enc.enc.gTimer
  | .ready id => s.enc.threads t = .idle ∧ id ∈ s.enc.returned
  | .waiting id => s.enc.threads t = .idle ∧ id ∈ s.enc.returned ∧
      ∀ n op, s.Replied t n → s.enc.enc.pendingList.find id = some op → op.start ≤ stamp n
  | .returned id n => s.enc.threads t = .idle ∧ id ∈ s.enc.returned ∧ s.Replied t n ∧
      ∀ op, s.enc.enc.pendingList.find id = some op → op.start ≤ stamp n
  | .postput => ∃ id n time, s.enc.threads t = .postputTimed id n time ∧ s.Replied t n ∧
      stamp n < time ∧ ∀ op, s.enc.enc.pendingList.find id = some op → op.start ≤ stamp n
  | .finished => s.enc.threads t = .idle ∧
      ∃ n, s.Replied t n ∧ n ∈ s.enc.posted.map Prod.fst

/-- A step of another call leaves a call where it stands. -/
theorem AgentOk.frame {s s' : World} {stamp : Nat → Nat} {t : Nat} (h : AgentOk s stamp t)
    (hphase : s'.phase t = s.phase t) (hthread : s'.enc.threads t = s.enc.threads t)
    (htimer : s.enc.enc.gTimer ≤ s'.enc.enc.gTimer)
    (hreturned : ∀ id, (s.phase t).holds = some id → id ∈ s.enc.returned → id ∈ s'.enc.returned)
    (hpending : ∀ id op,
      id ∈ s.enc.returned ∨ (∃ n time, s.enc.threads t = .postputTimed id n time) →
      s'.enc.enc.pendingList.find id = some op → s.enc.enc.pendingList.find id = some op)
    (hreplies : s'.queue.replies = s.queue.replies)
    (hposted : s.enc.posted ⊆ s'.enc.posted) : AgentOk s' stamp t := by
  have hreplied : ∀ n, s'.Replied t n ↔ s.Replied t n := by
    intro n
    unfold World.Replied
    rw [hreplies]
  unfold AgentOk at h ⊢
  rw [hphase, hthread]
  cases hp : s.phase t with
  | before =>
    rw [hp] at h
    exact h
  | preput =>
    rw [hp] at h
    rcases h with ⟨time, hth, hle⟩ | ⟨time, id, hth, hle⟩
    · exact Or.inl ⟨time, hth, hle.trans htimer⟩
    · exact Or.inr ⟨time, id, hth, hle.trans htimer⟩
  | ready id =>
    rw [hp] at h
    exact ⟨h.1, hreturned id (by simp [hp, Phase.holds]) h.2⟩
  | waiting id =>
    rw [hp] at h
    obtain ⟨hidle, hid, hstart⟩ := h
    refine ⟨hidle, hreturned id (by simp [hp, Phase.holds]) hid, fun n op hn hop => ?_⟩
    exact hstart n op ((hreplied n).mp hn)
      (hpending id op (Or.inl hid) hop)
  | returned id n =>
    rw [hp] at h
    obtain ⟨hidle, hid, hn, hstart⟩ := h
    refine ⟨hidle, hreturned id (by simp [hp, Phase.holds]) hid, (hreplied n).mpr hn,
      fun op hop => ?_⟩
    exact hstart op (hpending id op (Or.inl hid) hop)
  | postput =>
    rw [hp] at h
    obtain ⟨id, n, time, hth, hn, hlt, hstart⟩ := h
    refine ⟨id, n, time, hth, (hreplied n).mpr hn, hlt, fun op hop => ?_⟩
    exact hstart op (hpending id op (Or.inr ⟨n, time, hth⟩) hop)
  | finished =>
    rw [hp] at h
    obtain ⟨hidle, n, hn, hmem⟩ := h
    exact ⟨hidle, n, (hreplied n).mpr hn, List.map_subset _ hposted hmem⟩

/-- A call that holds an id holds one that has been handed back. -/
theorem AgentOk.held {s : World} {stamp : Nat → Nat} {t id : Nat} (h : AgentOk s stamp t)
    (hid : (s.phase t).holds = some id) : id ∈ s.enc.returned := by
  unfold AgentOk at h
  cases hp : s.phase t with
  | ready id' =>
    rw [hp] at h hid
    cases hid
    exact h.2
  | waiting id' =>
    rw [hp] at h hid
    cases hid
    exact h.2.1
  | returned id' n =>
    rw [hp] at h hid
    cases hid
    exact h.2.1
  | before => simp [hp, Phase.holds] at hid
  | preput => simp [hp, Phase.holds] at hid
  | postput => simp [hp, Phase.holds] at hid
  | finished => simp [hp, Phase.holds] at hid

/-- **The invariant of runs with single entries.** `tr` are the steps the enclave
has taken so far. -/
structure Linked (acts : List Move) (s : World) (tr : List Act) (stamp : Nat → Nat) : Prop where
  draws : Once (callsOf Move.drew acts) s.Drawn
  ends : Once (callsOf Move.ended acts) fun t => s.phase t = .postput ∨ s.phase t = .finished
  run : runs Sys.ownStep Sys.init tr = some s.enc
  ids : idsDrawn tr = (callsOf Move.drew acts).length
  nodup : (seqsOf tr).Nodup
  seqs : ∀ n ∈ seqsOf tr,
    ∃ t, (s.phase t = .postput ∨ s.phase t = .finished) ∧ s.Replied t n
  numbers : (s.queue.replies.map Reply.seq).Perm
    ((List.range' 1 s.queue.db.lastSequence).map some)
  timer : s.enc.enc.gTimer =
    (callsOf Move.started acts).length + (callsOf Move.ended acts).length
  stamps : ∀ n, stamp n ≤ s.enc.enc.gTimer
  mono : ∀ n n', n ≤ n' → n' ≤ s.queue.db.lastSequence → stamp n ≤ stamp n'
  agents : ∀ t, AgentOk s stamp t
  apart : ∀ t t' id, (s.phase t).holds = some id → (s.phase t').holds = some id → t = t'
  pending : ∀ id op, s.enc.enc.pendingList.find id = some op → op.start ≤ s.enc.enc.gTimer
  posted : ∀ p ∈ s.enc.posted, p.2.start ≤ stamp p.1 ∧ stamp p.1 < p.2.end_ ∧
    p.1 ≤ s.queue.db.lastSequence

theorem Linked.init : Linked [] World.init [] fun _ => 0 where
  draws := Once.nil fun t => by simp [World.init, World.Drawn]
  ends := Once.nil fun t => by simp [World.init]
  run := rfl
  ids := rfl
  nodup := List.nodup_nil
  seqs := by simp [seqsOf]
  numbers := List.Perm.refl _
  timer := rfl
  stamps := fun _ => Nat.le_refl 0
  mono := fun _ _ _ _ => Nat.le_refl 0
  agents := fun t => by simp [AgentOk, World.init, Sys.init]
  apart := fun t t' id h => by simp [World.init, Phase.holds] at h
  pending := fun id op h => by simp [World.init, Sys.init, Checker.init] at h
  posted := by simp [World.init, Sys.init]

namespace Linked

variable {jobs : Nat → Job} {acts : List Move} {s : World} {tr : List Act} {stamp : Nat → Nat}

/-- A number that has been answered is one of `1, ..., LastSequence`. -/
theorem replied_range (h : Linked acts s tr stamp) {t n : Nat} (hn : s.Replied t n) :
    1 ≤ n ∧ n ≤ s.queue.db.lastSequence := by
  obtain ⟨r, hr, -, hseq⟩ := hn
  have hmem : some n ∈ s.queue.replies.map Reply.seq := List.mem_map.mpr ⟨r, hr, hseq⟩
  rw [h.numbers.mem_iff, List.mem_map] at hmem
  obtain ⟨m, hm, hmn⟩ := hmem
  cases hmn
  rw [List.mem_range'_1] at hm
  omega

/-- No two calls are answered with one number. -/
theorem replied_inj (h : Linked acts s tr stamp) {t t' n : Nat} (hn : s.Replied t n)
    (hn' : s.Replied t' n) : t = t' := by
  obtain ⟨r, hr, rfl, hseq⟩ := hn
  obtain ⟨r', hr', rfl, hseq'⟩ := hn'
  have hnodup : (s.queue.replies.map Reply.seq).Nodup :=
    h.numbers.nodup_iff.mpr ((List.nodup_range').map (Option.some_injective _))
  rw [List.inj_on_of_nodup_map hnodup hr hr' (hseq.trans hseq'.symm)]

theorem supplied (h : Linked acts s tr stamp) (hsound : Sound jobs acts s)
    (hsmall : (callsOf Move.started acts).length < 2 ^ 31) : Supplied tr := by
  have hlast : s.queue.db.lastSequence ≤ (callsOf Move.started acts).length := by
    have hlen := h.numbers.length_eq
    have hcallers := hsound.callers_length
    simp only [List.length_map, List.length_range'] at hlen
    simp only [World.callers, List.length_append, List.length_map] at hcallers
    omega
  have hdraws : (callsOf Move.drew acts).length ≤ (callsOf Move.started acts).length := by
    refine h.draws.length_le hsound.starts fun t ht hbefore => ?_
    simp [World.Drawn, hbefore] at ht
  refine ⟨h.nodup, ?_, ?_, ?_⟩
  · intro n hn
    obtain ⟨t, -, ht⟩ := h.seqs n hn
    exact (h.replied_range ht).1
  · intro n hn
    obtain ⟨t, -, ht⟩ := h.seqs n hn
    have := (h.replied_range ht).2
    omega
  · rw [h.ids]
    omega

/-- The numbers agree with real time: each call's number was committed between its
start and its end. -/
theorem consistent (h : Linked acts s tr stamp) : Consistent s.enc.posted := by
  intro a ha b hb hab hend
  obtain ⟨hstart, -, -⟩ := h.posted a ha
  obtain ⟨-, hlt, hle⟩ := h.posted b hb
  have := h.mono a.1 b.1 (Nat.le_of_lt hab) hle
  omega

theorem good (h : Linked acts s tr stamp) (hsound : Sound jobs acts s)
    (hsmall : (callsOf Move.started acts).length < 2 ^ 31) : Good tr s.enc :=
  runs_good h.run (h.supplied hsound hsmall) h.consistent

/-- The clock does not wrap: it ticks twice per call. -/
theorem timer_lt (h : Linked acts s tr stamp) (hsound : Sound jobs acts s)
    (hsmall : (callsOf Move.started acts).length < 2 ^ 31) :
    s.enc.enc.gTimer + 1 < 2 ^ 32 := by
  have hends : (callsOf Move.ended acts).length ≤ (callsOf Move.started acts).length := by
    refine h.ends.length_le hsound.starts fun t ht hbefore => ?_
    simp [hbefore] at ht
  rw [h.timer]
  omega

/-! ### Steps of one call -/

/-- **A step of call `t`**: what has to be shown for `t` and for the totals; all
other calls stay where they stand. -/
theorem of_local (h : Linked acts s tr stamp) {acts' : List Move} {s' : World} {tr' : List Act}
    {t : Nat} (hphase : ∀ t', t' ≠ t → s'.phase t' = s.phase t')
    (hthreads : ∀ t', t' ≠ t → s'.enc.threads t' = s.enc.threads t')
    (hreplies : s'.queue.replies = s.queue.replies)
    (hlast : s'.queue.db.lastSequence = s.queue.db.lastSequence)
    (hgt : s.enc.enc.gTimer ≤ s'.enc.enc.gTimer)
    (hreturned : ∀ t' id, t' ≠ t → (s.phase t').holds = some id →
      id ∈ s.enc.returned → id ∈ s'.enc.returned)
    (hfind : ∀ t' id op, t' ≠ t →
      id ∈ s.enc.returned ∨ (∃ n time, s.enc.threads t' = .postputTimed id n time) →
      s'.enc.enc.pendingList.find id = some op → s.enc.enc.pendingList.find id = some op)
    (hsub : s.enc.posted ⊆ s'.enc.posted)
    (agent : AgentOk s' stamp t)
    (held : ∀ t' id, t' ≠ t → (s'.phase t).holds = some id → (s.phase t').holds ≠ some id)
    (draws : Once (callsOf Move.drew acts') s'.Drawn)
    (ends : Once (callsOf Move.ended acts') fun t => s'.phase t = .postput ∨ s'.phase t = .finished)
    (run : runs Sys.ownStep Sys.init tr' = some s'.enc)
    (ids : idsDrawn tr' = (callsOf Move.drew acts').length)
    (nodup : (seqsOf tr').Nodup)
    (seqs : ∀ n ∈ seqsOf tr',
      ∃ t, (s'.phase t = .postput ∨ s'.phase t = .finished) ∧ s'.Replied t n)
    (timer : s'.enc.enc.gTimer =
      (callsOf Move.started acts').length + (callsOf Move.ended acts').length)
    (pending : ∀ id op, s'.enc.enc.pendingList.find id = some op →
      op.start ≤ s'.enc.enc.gTimer)
    (posted : ∀ p ∈ s'.enc.posted, p.2.start ≤ stamp p.1 ∧ stamp p.1 < p.2.end_ ∧
      p.1 ≤ s.queue.db.lastSequence) : Linked acts' s' tr' stamp := by
  have hagents : ∀ t', AgentOk s' stamp t' := by
    intro t'
    by_cases htt : t' = t
    · exact htt ▸ agent
    · exact (h.agents t').frame (hphase t' htt) (hthreads t' htt) hgt
        (fun id => hreturned t' id htt) (fun id op => hfind t' id op htt) hreplies hsub
  have hapart : ∀ t₁ t₂ id, (s'.phase t₁).holds = some id → (s'.phase t₂).holds = some id →
      t₁ = t₂ := by
    intro t₁ t₂ id h₁ h₂
    by_cases ht₁ : t₁ = t
    · by_cases ht₂ : t₂ = t
      · exact ht₁.trans ht₂.symm
      · rw [hphase t₂ ht₂] at h₂
        exact absurd h₂ (held t₂ id ht₂ (ht₁ ▸ h₁))
    · rw [hphase t₁ ht₁] at h₁
      by_cases ht₂ : t₂ = t
      · exact absurd h₁ (held t₁ id ht₁ (ht₂ ▸ h₂))
      · rw [hphase t₂ ht₂] at h₂
        exact h.apart t₁ t₂ id h₁ h₂
  refine ⟨draws, ends, run, ids, nodup, seqs, ?_, timer, fun n => (h.stamps n).trans hgt, ?_,
    hagents, hapart, pending, ?_⟩
  · rw [hreplies, hlast]
    exact h.numbers
  · rw [hlast]
    exact h.mono
  · rw [hlast]
    exact posted

/-- The property of having drawn an id, after a step of call `t`. -/
theorem draws_of_local (h : Linked acts s tr stamp) {s' : World} {t : Nat}
    (hphase : ∀ t', t' ≠ t → s'.phase t' = s.phase t')
    (hthreads : ∀ t', t' ≠ t → s'.enc.threads t' = s.enc.threads t')
    (hdrawn : s'.Drawn t ↔ s.Drawn t) : Once (callsOf Move.drew acts) s'.Drawn := by
  refine h.draws.congr fun t' => ?_
  by_cases htt : t' = t
  · exact htt ▸ hdrawn
  · unfold World.Drawn
    rw [hphase t' htt, hthreads t' htt]

theorem update_other {α : Type*} {f : Nat → α} {t : Nat} {x : α} :
    ∀ t', t' ≠ t → Function.update f t x t' = f t' :=
  fun _ ht => Function.update_of_ne ht _ _

/-- The numbers supplied so far, after a step in which no call is answered and none
leaves `enclave_postput`. -/
theorem seqs_of_phase (h : Linked acts s tr stamp) {s' : World}
    (hreplies : s'.queue.replies = s.queue.replies)
    (hends : ∀ t, s.phase t = .postput ∨ s.phase t = .finished →
      s'.phase t = .postput ∨ s'.phase t = .finished) :
    ∀ n ∈ seqsOf tr, ∃ t, (s'.phase t = .postput ∨ s'.phase t = .finished) ∧ s'.Replied t n := by
  intro n hn
  obtain ⟨t, ht, hr⟩ := h.seqs n hn
  refine ⟨t, hends t ht, ?_⟩
  unfold World.Replied
  rw [hreplies]
  exact hr

/-- An act of the enclave that supplies no number. -/
theorem seqsOf_silent (tr : List Act) {b : Act} (hb : seqsOf [b] = []) :
    seqsOf (tr ++ [b]) = seqsOf tr := by
  rw [seqsOf_append, hb, List.append_nil]

/-- Calls that are in `enclave_postput` or beyond are not the one that takes an
earlier step. -/
theorem ends_update {t : Nat} {p : Phase}
    (hbefore : ¬ (s.phase t = .postput ∨ s.phase t = .finished)) (t' : Nat)
    (ht' : s.phase t' = .postput ∨ s.phase t' = .finished) :
    Function.update s.phase t p t' = .postput ∨ Function.update s.phase t p t' = .finished := by
  rw [Function.update_of_ne]
  · exact ht'
  · rintro rfl
    exact hbefore ht'

theorem start (h : Linked acts s tr stamp) (hsound : Sound jobs acts s) {t : Nat} {enc : Sys}
    (hsmall : (callsOf Move.started acts).length < 2 ^ 31)
    (hphase : s.phase t = .before) (henc : s.enc.step (.preputTime t) = some enc) :
    ∃ tr', Linked (acts ++ [.start t]) ({ s with enc }.setPhase t .preput) tr' stamp := by
  have htick : uint32 (s.enc.enc.gTimer + 1) = s.enc.enc.gTimer + 1 :=
    uint32_of_lt (h.timer_lt hsound hsmall)
  obtain ⟨-, hst⟩ := Sys.step_stepped henc
  cases hst with
  | preputTime hidle =>
    refine ⟨tr ++ [.preputTime t], ?_⟩
    refine h.of_local (t := t) update_other update_other rfl rfl ?_ (fun _ _ _ _ hid => hid)
      (fun _ _ _ _ _ hop => hop) (fun _ hp => hp) ?_ ?_ ?_ ?_ ?_ ?_ ?_ ?_ ?_ ?_ h.posted
    · show _ ≤ uint32 _
      rw [htick]
      exact Nat.le_succ _
    · show AgentOk _ _ _
      simp only [AgentOk, World.setPhase, Sys.setThread, Function.update_self]
      exact Or.inl ⟨_, rfl, Nat.le_refl _⟩
    · intro t' id _ hholds
      simp [World.setPhase, Phase.holds] at hholds
    · rw [callsOf_other acts rfl]
      refine h.draws_of_local (t := t) update_other update_other ?_
      simp [World.Drawn, World.setPhase, Sys.setThread, hphase]
    · rw [callsOf_other acts rfl]
      exact Once.move (P := fun p => p = .postput ∨ p = .finished) h.ends (by simp [hphase])
    · exact runs_snoc.mpr ⟨_, h.run, henc⟩
    · rw [idsDrawn_append, callsOf_other acts rfl]
      exact h.ids
    · rw [seqsOf_silent tr rfl]
      exact h.nodup
    · rw [seqsOf_silent tr rfl]
      exact h.seqs_of_phase rfl (ends_update (by simp [hphase]))
    · show uint32 _ = _
      rw [htick, h.timer, callsOf_append, callsOf_other acts rfl, List.length_append]
      exact Nat.add_right_comm _ _ _
    · intro id op hop
      show _ ≤ uint32 _
      rw [htick]
      exact (h.pending id op hop).trans (Nat.le_succ _)

theorem ident (h : Linked acts s tr stamp) {t : Nat} {enc : Sys}
    (hphase : s.phase t = .preput) (henc : s.enc.step (.preputId t) = some enc) :
    ∃ tr', Linked (acts ++ [.ident t]) { s with enc } tr' stamp := by
  have hagent := h.agents t
  simp only [AgentOk, hphase] at hagent
  obtain ⟨-, hst⟩ := Sys.step_stepped henc
  cases hst with
  | @preputId _ time htimed =>
    have htime : time ≤ s.enc.enc.gTimer := by
      rcases hagent with ⟨time', hth, hle⟩ | ⟨time', id, hth, -⟩
      · rw [htimed] at hth
        cases hth
        exact hle
      · rw [htimed] at hth
        cases hth
    refine ⟨tr ++ [.preputId t], ?_⟩
    refine h.of_local (t := t) (fun _ _ => rfl) update_other rfl rfl (Nat.le_refl _)
      (fun _ _ _ _ hid => hid) (fun _ _ _ _ _ hop => hop) (fun _ hp => hp)
      ?_ ?_ ?_ ?_ ?_ ?_ ?_ ?_ ?_ h.pending h.posted
    · simp only [AgentOk, hphase, Sys.setThread, Function.update_self]
      exact Or.inr ⟨_, _, rfl, htime⟩
    · intro t' id _ hholds
      simp [hphase, Phase.holds] at hholds
    · rw [callsOf_append]
      refine h.draws.snoc (by simp [World.Drawn, hphase, htimed]) fun t' => ?_
      by_cases htt : t' = t
      · subst htt
        simp [World.Drawn, hphase, Sys.setThread]
      · simp [World.Drawn, Sys.setThread, htt]
    · rw [callsOf_other acts rfl]
      exact h.ends
    · exact runs_snoc.mpr ⟨_, h.run, henc⟩
    · rw [idsDrawn_append, callsOf_append, List.length_append, h.ids]
      rfl
    · rw [seqsOf_silent tr rfl]
      exact h.nodup
    · rw [seqsOf_silent tr rfl]
      exact h.seqs_of_phase rfl fun _ ht => ht
    · rw [callsOf_other acts rfl, callsOf_other acts rfl]
      exact h.timer

theorem enter (h : Linked acts s tr stamp) (hsound : Sound jobs acts s) {t time id : Nat}
    {enc : Sys} (hsmall : (callsOf Move.started acts).length < 2 ^ 31)
    (hphase : s.phase t = .preput) (hthread : s.enc.threads t = .preputIdent time id)
    (henc : s.enc.step (.preputLock t) = some enc) :
    ∃ tr', Linked (acts ++ [.enter t]) ({ s with enc }.setPhase t (.ready id)) tr' stamp := by
  obtain ⟨⟨stage, howned⟩, -, -, -⟩ := h.good hsound hsmall
  have hstage : stage id = .drawnBy t := howned.drawn t time id hthread
  have hagent := h.agents t
  simp only [AgentOk, hphase] at hagent
  have htime : time ≤ s.enc.enc.gTimer := by
    rcases hagent with ⟨time', hth, -⟩ | ⟨time', id', hth, hle⟩
    · rw [hthread] at hth
      cases hth
    · rw [hthread] at hth
      cases hth
      exact hle
  obtain ⟨-, hst⟩ := Sys.step_stepped henc
  cases hst with
  | @preputLock _ time' id' hident hfree =>
    rw [hthread] at hident
    cases hident
    refine ⟨tr ++ [.preputLock t], ?_⟩
    refine h.of_local (t := t) update_other update_other rfl rfl (Nat.le_refl _)
      (fun _ _ _ _ hid => List.mem_cons_of_mem _ hid) ?_ (fun _ hp => hp)
      ?_ ?_ ?_ ?_ ?_ ?_ ?_ ?_ ?_ ?_ h.posted
    · -- the id is new: neither handed back nor on its way to `g_mutex`
      intro t' i op _ hi hop
      rcases StdMap.find_insert_cases hop with hop | ⟨rfl, -⟩
      · exact hop
      · rcases hi with hi | ⟨n, time, hth⟩
        · simp [howned.handed i hi] at hstage
        · simp [howned.posting t' i n time hth] at hstage
    · simp [AgentOk, World.setPhase, Sys.setThread]
    · intro t' i _ hholds hother
      have hi : i = id := by simpa [World.setPhase, Phase.holds] using hholds.symm
      subst hi
      simp [howned.handed i ((h.agents t').held hother)] at hstage
    · rw [callsOf_other acts rfl]
      refine h.draws_of_local (t := t) update_other update_other ?_
      simp [World.Drawn, World.setPhase, hphase, hthread]
    · rw [callsOf_other acts rfl]
      exact Once.move (P := fun p => p = .postput ∨ p = .finished) h.ends (by simp [hphase])
    · exact runs_snoc.mpr ⟨_, h.run, henc⟩
    · rw [idsDrawn_append, callsOf_other acts rfl]
      exact h.ids
    · rw [seqsOf_silent tr rfl]
      exact h.nodup
    · rw [seqsOf_silent tr rfl]
      exact h.seqs_of_phase rfl (ends_update (by simp [hphase]))
    · rw [callsOf_other acts rfl, callsOf_other acts rfl]
      exact h.timer
    · intro i op hop
      rcases StdMap.find_insert_cases hop with hop | ⟨-, rfl⟩
      · exact h.pending i op hop
      · exact htime

/-- A step of call `t` that the enclave does not see. The call keeps its id. -/
theorem outside (h : Linked acts s tr stamp) {a : Move} {t id : Nat} {p : Phase} {s' : World}
    (hquiet : a.started = none ∧ a.drew = none ∧ a.ended = none)
    (hnew : s'.phase = Function.update s.phase t p) (henc : s'.enc = s.enc)
    (hreplies : s'.queue.replies = s.queue.replies)
    (hlast : s'.queue.db.lastSequence = s.queue.db.lastSequence)
    (hold : (s.phase t).holds = some id) (hholds : p.holds = some id)
    (hdrawn : s'.Drawn t ↔ s.Drawn t)
    (hbefore : ¬ (s.phase t = .postput ∨ s.phase t = .finished))
    (hafter : ¬ (p = .postput ∨ p = .finished)) (agent : AgentOk s' stamp t) :
    Linked (acts ++ [a]) s' tr stamp := by
  have hphase : ∀ t', t' ≠ t → s'.phase t' = s.phase t' := by
    rw [hnew]
    exact update_other
  have hthreads : ∀ t', t' ≠ t → s'.enc.threads t' = s.enc.threads t' := fun _ _ => by rw [henc]
  refine h.of_local hphase hthreads hreplies hlast (by rw [henc]) (fun _ _ _ _ hid => henc ▸ hid)
    (fun _ _ _ _ _ hop => henc ▸ hop) (fun _ hp => henc ▸ hp) agent ?_ ?_ ?_ (henc ▸ h.run) ?_
    h.nodup ?_ ?_ (henc ▸ h.pending) (henc ▸ h.posted)
  · intro t' i ht' hself hother
    rw [hnew, Function.update_self, hholds] at hself
    cases hself
    exact ht' (h.apart t' t id hother hold)
  · rw [callsOf_other acts hquiet.2.1]
    exact h.draws_of_local hphase hthreads hdrawn
  · rw [callsOf_other acts hquiet.2.2, hnew]
    exact Once.move (P := fun p => p = .postput ∨ p = .finished) h.ends
      (iff_of_false hafter hbefore)
  · rw [callsOf_other acts hquiet.2.1]
    exact h.ids
  · refine h.seqs_of_phase hreplies ?_
    rw [hnew]
    exact ends_update hbefore
  · rw [callsOf_other acts hquiet.1, callsOf_other acts hquiet.2.2, henc]
    exact h.timer

theorem call (h : Linked acts s tr stamp) (hsound : Sound jobs acts s) {t id : Nat}
    (hphase : s.phase t = .ready id) :
    Linked (acts ++ [.call t])
      ({ s with queue := s.queue.arrive ((jobs t).writer t) }.setPhase t (.waiting id)) tr
      stamp := by
  have hagent := h.agents t
  simp only [AgentOk, hphase] at hagent
  have hholds : (s.phase t).holds = some id := by
    rw [hphase]
    rfl
  refine h.outside ⟨rfl, rfl, rfl⟩ rfl rfl rfl rfl hholds rfl ?_ (by simp [hphase]) (by simp) ?_
  · simp [World.Drawn, World.setPhase, hphase]
  · simp only [AgentOk, World.setPhase, Function.update_self]
    refine ⟨hagent.1, hagent.2, fun n op hn _ => ?_⟩
    -- the call has only just joined the queue
    obtain ⟨r, hr, howner, -⟩ := hn
    have hcalled := hsound.served.called t
      (List.mem_append_left _ (List.mem_map.mpr ⟨r, hr, howner⟩))
    simp [hphase, Phase.Called] at hcalled

theorem ret (h : Linked acts s tr stamp) {t id n : Nat} (hphase : s.phase t = .waiting id)
    (hreplied : s.Replied t n) :
    Linked (acts ++ [.ret t]) (s.setPhase t (.returned id n)) tr stamp := by
  have hagent := h.agents t
  simp only [AgentOk, hphase] at hagent
  have hholds : (s.phase t).holds = some id := by
    rw [hphase]
    rfl
  refine h.outside ⟨rfl, rfl, rfl⟩ rfl rfl rfl rfl hholds rfl ?_ (by simp [hphase]) (by simp) ?_
  · simp [World.Drawn, World.setPhase, hphase]
  · simp only [AgentOk, World.setPhase, Function.update_self]
    exact ⟨hagent.1, hagent.2.1, hreplied, fun op hop => hagent.2.2 n op hreplied hop⟩

theorem finish (h : Linked acts s tr stamp) (hsound : Sound jobs acts s) {t id n : Nat}
    {enc : Sys} (hsmall : (callsOf Move.started acts).length < 2 ^ 31)
    (hphase : s.phase t = .returned id n)
    (henc : s.enc.step (.postputTime t id n) = some enc) :
    ∃ tr', Linked (acts ++ [.finish t]) ({ s with enc }.setPhase t .postput) tr' stamp := by
  have htick : uint32 (s.enc.enc.gTimer + 1) = s.enc.enc.gTimer + 1 :=
    uint32_of_lt (h.timer_lt hsound hsmall)
  have hagent := h.agents t
  simp only [AgentOk, hphase] at hagent
  obtain ⟨-, hid, hreplied, hstart⟩ := hagent
  have hown : s.enc.ownStep (.postputTime t id n) = some enc := by
    rw [← henc]
    simp [Sys.ownStep, hid]
  obtain ⟨-, hst⟩ := Sys.step_stepped henc
  cases hst with
  | postputTime hidle =>
    refine ⟨tr ++ [.postputTime t id n], ?_⟩
    refine h.of_local (t := t) update_other update_other rfl rfl ?_ ?_
      (fun _ _ _ _ _ hop => hop) (fun _ hp => hp) ?_ ?_ ?_ ?_ ?_ ?_ ?_ ?_ ?_ ?_ h.posted
    · show _ ≤ uint32 _
      rw [htick]
      exact Nat.le_succ _
    · intro t' i ht' hholds hi
      refine (List.mem_erase_of_ne ?_).mpr hi
      rintro rfl
      exact ht' (h.apart t' t i hholds (by simp [hphase, Phase.holds]))
    · simp only [AgentOk, World.setPhase, Sys.setThread, Function.update_self]
      refine ⟨id, n, _, rfl, hreplied, ?_, hstart⟩
      show stamp n < uint32 _
      rw [htick]
      exact Nat.lt_succ_of_le (h.stamps n)
    · intro t' i _ hholds
      simp [World.setPhase, Phase.holds] at hholds
    · rw [callsOf_other acts rfl]
      refine h.draws_of_local (t := t) update_other update_other ?_
      simp [World.Drawn, World.setPhase, hphase]
    · rw [callsOf_append]
      exact Once.join (P := fun p => p = .postput ∨ p = .finished) h.ends (by simp [hphase])
        (by simp)
    · exact runs_snoc.mpr ⟨_, h.run, hown⟩
    · rw [idsDrawn_append, callsOf_other acts rfl]
      exact h.ids
    · -- another call with this number would be another call with the same reply
      rw [seqsOf_append]
      refine List.nodup_append_comm.mp (List.nodup_cons.mpr ⟨fun hn => ?_, h.nodup⟩)
      obtain ⟨t', ht', hr⟩ := h.seqs n hn
      rw [h.replied_inj hr hreplied, hphase] at ht'
      simp at ht'
    · rw [seqsOf_append]
      intro m hm
      rcases List.mem_append.mp hm with hm | hm
      · have hnot : ¬ (s.phase t = .postput ∨ s.phase t = .finished) := by simp [hphase]
        refine h.seqs_of_phase ?_ ?_ m hm
        · rfl
        · exact ends_update hnot
      · refine ⟨t, ?_, ?_⟩
        · simp [World.setPhase]
        · rw [List.mem_singleton.mp hm]
          exact hreplied
    · have hended : callsOf Move.ended (acts ++ [.finish t]) = callsOf Move.ended acts ++ [t] :=
        callsOf_append ..
      show uint32 _ = _
      rw [htick, h.timer, hended, callsOf_other acts rfl, List.length_append]
      rfl
    · intro i op hop
      show _ ≤ uint32 _
      rw [htick]
      exact (h.pending i op hop).trans (Nat.le_succ _)

theorem post (h : Linked acts s tr stamp) (hsound : Sound jobs acts s) {t : Nat} {enc : Sys}
    (hsmall : (callsOf Move.started acts).length < 2 ^ 31) (hphase : s.phase t = .postput)
    (henc : s.enc.step (.postputLock t) = some enc) :
    ∃ tr', Linked (acts ++ [.post t]) ({ s with enc }.setPhase t .finished) tr' stamp := by
  obtain ⟨⟨stage, howned⟩, -, -, -⟩ := h.good hsound hsmall
  have hagent := h.agents t
  simp only [AgentOk, hphase] at hagent
  obtain ⟨id, n, time, hthread, hreplied, hlt, hstart⟩ := hagent
  obtain ⟨-, hst⟩ := Sys.step_stepped henc
  cases hst with
  | dangle htimed hfree hmiss => exact absurd hmiss (howned.found htimed)
  | @post _ id' seq time' op htimed hfree hfound =>
    rw [hthread] at htimed
    cases htimed
    refine ⟨tr ++ [.postputLock t], ?_⟩
    refine h.of_local (t := t) update_other update_other rfl rfl ?_ (fun _ _ _ _ hid => hid) ?_
      (List.subset_append_left _ _) ?_ ?_ ?_ ?_ ?_ ?_ ?_ ?_ ?_ ?_ ?_
    · exact (Checker.postputSection_gTimer ..).ge
    · intro t' i o _ _ ho
      have ho : (s.enc.enc.postputSection id n (op.posted n time)).pendingList.find i = some o :=
        ho
      rw [Checker.postputSection_pendingList] at ho
      exact (StdMap.find_erase_some ho).1
    · simp only [AgentOk, World.setPhase, Sys.post, Function.update_self]
      exact ⟨trivial, n, hreplied, by simp⟩
    · intro t' i _ hholds
      simp [World.setPhase, Phase.holds] at hholds
    · rw [callsOf_other acts rfl]
      refine h.draws_of_local (t := t) update_other update_other ?_
      simp [World.Drawn, World.setPhase, hphase]
    · rw [callsOf_other acts rfl]
      exact Once.move (P := fun p => p = .postput ∨ p = .finished) h.ends (by simp [hphase])
    · exact runs_snoc.mpr ⟨_, h.run, henc⟩
    · rw [idsDrawn_append, callsOf_other acts rfl]
      exact h.ids
    · rw [seqsOf_silent tr rfl]
      exact h.nodup
    · rw [seqsOf_silent tr rfl]
      refine h.seqs_of_phase rfl fun t' ht' => ?_
      show Function.update s.phase t .finished t' = .postput ∨
        Function.update s.phase t .finished t' = .finished
      by_cases htt : t' = t
      · subst htt
        exact Or.inr (Function.update_self _ _ _)
      · rw [Function.update_of_ne htt]
        exact ht'
    · rw [callsOf_other acts rfl, callsOf_other acts rfl]
      exact (Checker.postputSection_gTimer ..).trans h.timer
    · intro i o ho
      have ho : (s.enc.enc.postputSection id n (op.posted n time)).pendingList.find i = some o :=
        ho
      rw [Checker.postputSection_pendingList] at ho
      exact (h.pending i o (StdMap.find_erase_some ho).1).trans
        (Checker.postputSection_gTimer ..).ge
    · intro p hp
      rcases List.mem_append.mp hp with hp | hp
      · exact h.posted p hp
      · rw [List.mem_singleton.mp hp]
        exact ⟨hstart op hfound, hlt, (h.replied_range hreplied).2⟩

theorem lead (h : Linked acts s tr stamp) (hsound : Sound jobs acts s) {queue : Queue}
    (hqueue : s.queue.lead .ok = some queue) :
    Linked (acts ++ [.lead]) { s with queue } tr stamp := by
  obtain ⟨leader, b, rest, -, -, rfl⟩ := hsound.served.lead hqueue
  have hother : ∀ which : Move → Option Nat, which .lead = none →
      callsOf which (acts ++ [.lead]) = callsOf which acts := fun _ hw => callsOf_other acts hw
  refine ⟨?_, ?_, h.run, ?_, h.nodup, h.seqs, h.numbers, ?_, h.stamps, h.mono, h.agents, h.apart,
    h.pending, h.posted⟩
  · rw [hother _ rfl]
    exact h.draws
  · rw [hother _ rfl]
    exact h.ends
  · rw [hother _ rfl]
    exact h.ids
  · rw [hother _ rfl, hother _ rfl]
    exact h.timer

/-! ### Committing a group of single entries -/

theorem entryCount_single {ws : List Writer} (h : ∀ w ∈ ws, w.ops.length = 1) :
    entryCount ws = ws.length := by
  induction ws with
  | nil => rfl
  | cons w ws ih =>
    rw [entryCount_cons, ih fun w' hw' => h w' (List.mem_cons_of_mem _ hw'),
      h w List.mem_cons_self, List.length_cons, Nat.add_comm]

/-- The callers of a group have one entry each. -/
theorem group_single (hsound : Sound jobs acts s)
    (hone : ∀ t, s.phase t ≠ .before → (jobs t).batch.ops.length = 1) {leader : Writer}
    {tail : List Writer} {g : Group} (hc : s.queue.Committing leader tail g) :
    (g.ops leader).length = g.followers.length + 1 := by
  have hmembers : ∀ w ∈ g.members leader, w.ops.length = 1 := by
    intro w hw
    have hmem : w ∈ s.queue.writers := hc.writers ▸ List.mem_append_left _ hw
    obtain ⟨id, hphase⟩ := hsound.served.queued w hmem
    have hops : w.ops = (jobs w.owner).batch.ops :=
      congrArg Writer.ops (hsound.served.writers w hmem)
    rw [hops]
    exact hone w.owner (by simp [hphase])
  have hcount := entryCount_single hmembers
  rw [Group.members, List.length_cons, List.length_map] at hcount
  exact hcount

/-- The followers get the numbers after the last one before the group. -/
theorem followers_seq {L : Nat} {fs : List Follower}
    (h : ∀ j f, fs[j]? = some f → f.seq = L + (j + 1)) :
    fs.map Follower.seq = List.range' (L + 1) fs.length := by
  apply List.ext_getElem?
  intro j
  rw [List.getElem?_map]
  by_cases hj : j < fs.length
  · rw [List.getElem?_range' hj, List.getElem?_eq_getElem hj, Option.map_some,
      h j _ (List.getElem?_eq_getElem hj)]
    congr 1
    omega
  · have hj := Nat.le_of_not_lt hj
    rw [List.getElem?_eq_none hj, List.getElem?_eq_none (by simpa using hj)]
    rfl

/-- **A group of `k` single entries reports `k` new numbers**, the leader the last
one and the followers the ones before. -/
theorem group_numbers (hsound : Sound jobs acts s) {leader : Writer} {tail : List Writer}
    {g : Group} (hc : s.queue.Committing leader tail g) :
    ((g.replies leader .ok (s.queue.db.lastSequence + (g.followers.length + 1))).map
      Reply.seq).Perm
        ((List.range' (s.queue.db.lastSequence + 1) (g.followers.length + 1)).map some) := by
  have hsu : ∀ w ∈ g.members leader, w.su = true := by
    intro w hw
    rw [hsound.served.writers w (hc.writers ▸ List.mem_append_left _ hw)]
    rfl
  have hfollowers : (g.followers.map fun f => (f.writer.reply .ok f.seq).seq) =
      (g.followers.map Follower.seq).map some := by
    rw [List.map_map]
    refine List.map_congr_left fun f hf => ?_
    exact Writer.reply_seq.mpr ⟨hsu _ (List.mem_cons_of_mem _ (List.mem_map_of_mem hf)), rfl⟩
  rw [Group.replies, List.map_cons, List.map_map]
  show (_ :: g.followers.map fun f => (f.writer.reply .ok f.seq).seq).Perm _
  rw [hfollowers, followers_seq hc.seq, Writer.reply_seq.mpr ⟨hsu _ List.mem_cons_self, rfl⟩,
    List.range'_1_concat, List.map_append, List.map_singleton]
  have hlast : s.queue.db.lastSequence + (g.followers.length + 1) =
      s.queue.db.lastSequence + 1 + g.followers.length := by omega
  rw [hlast]
  exact (List.perm_append_singleton _ _).symm

/-- A number answered by the commit is a new one. -/
theorem replied_commit (hsound : Sound jobs acts s) {leader : Writer} {tail : List Writer}
    {g : Group} (hc : s.queue.Committing leader tail g)
    (hk : (g.ops leader).length = g.followers.length + 1) {t n : Nat}
    (hn : (s.commitGroup leader tail g).Replied t n) :
    s.Replied t n ∨ s.queue.db.lastSequence < n := by
  obtain ⟨r, hr, howner, hseq⟩ := hn
  rcases List.mem_append.mp hr with hr | hr
  · exact Or.inl ⟨r, hr, howner, hseq⟩
  · right
    rw [hk] at hr
    have hmem : some n ∈ (g.replies leader .ok
        (s.queue.db.lastSequence + (g.followers.length + 1))).map Reply.seq :=
      List.mem_map.mpr ⟨r, hr, hseq⟩
    rw [(group_numbers hsound hc).mem_iff, List.mem_map] at hmem
    obtain ⟨m, hm, hmn⟩ := hmem
    cases hmn
    exact (List.mem_range'_1.mp hm).1

theorem replied_mono {leader : Writer} {tail : List Writer} {g : Group} {t n : Nat}
    (hn : s.Replied t n) : (s.commitGroup leader tail g).Replied t n := by
  obtain ⟨r, hr, howner, hseq⟩ := hn
  exact ⟨r, List.mem_append_left _ hr, howner, hseq⟩

/-- Numbers above `last` get the stamp `now`. -/
def restamp (last now : Nat) (stamp : Nat → Nat) (n : Nat) : Nat :=
  if n ≤ last then stamp n else now

theorem restamp_old {last now n : Nat} (stamp : Nat → Nat) (h : n ≤ last) :
    restamp last now stamp n = stamp n := if_pos h

theorem restamp_new {last now n : Nat} (stamp : Nat → Nat) (h : last < n) :
    restamp last now stamp n = now := if_neg (Nat.not_le.mpr h)

/-- Where a call stands when a group is committed: the calls of the group have been
answered, and started before that. -/
theorem agent_commit (h : Linked acts s tr stamp) (hsound : Sound jobs acts s) {leader : Writer}
    {tail : List Writer} {g : Group} (hc : s.queue.Committing leader tail g)
    (hk : (g.ops leader).length = g.followers.length + 1) (t : Nat) :
    AgentOk (s.commitGroup leader tail g)
      (restamp s.queue.db.lastSequence s.enc.enc.gTimer stamp) t := by
  have hstamp : ∀ {n}, s.Replied t n →
      restamp s.queue.db.lastSequence s.enc.enc.gTimer stamp n = stamp n :=
    fun hn => restamp_old stamp (h.replied_range hn).2
  have hphase : (s.commitGroup leader tail g).phase t = s.phase t := rfl
  have hagent := h.agents t
  unfold AgentOk at hagent ⊢
  rw [hphase]
  cases hp : s.phase t with
  | before =>
    rw [hp] at hagent
    exact hagent
  | preput =>
    rw [hp] at hagent
    exact hagent
  | ready id =>
    rw [hp] at hagent
    exact hagent
  | waiting id =>
    rw [hp] at hagent
    refine ⟨hagent.1, hagent.2.1, fun n op hn hop => ?_⟩
    rcases replied_commit hsound hc hk hn with hn | hn
    · rw [hstamp hn]
      exact hagent.2.2 n op hn hop
    · rw [restamp_new stamp hn]
      exact h.pending id op hop
  | returned id n =>
    rw [hp] at hagent
    obtain ⟨hidle, hid, hn, hstart⟩ := hagent
    refine ⟨hidle, hid, replied_mono hn, fun op hop => ?_⟩
    rw [hstamp hn]
    exact hstart op hop
  | postput =>
    rw [hp] at hagent
    obtain ⟨id, n, time, hth, hn, hlt, hstart⟩ := hagent
    refine ⟨id, n, time, hth, replied_mono hn, ?_, fun op hop => ?_⟩
    · rw [hstamp hn]
      exact hlt
    · rw [hstamp hn]
      exact hstart op hop
  | finished =>
    rw [hp] at hagent
    obtain ⟨hidle, n, hn, hmem⟩ := hagent
    exact ⟨hidle, n, replied_mono hn, hmem⟩

/-- The new numbers are stamped with the clock. -/
theorem commit (h : Linked acts s tr stamp) (hsound : Sound jobs acts s)
    (hone : ∀ t, s.phase t ≠ .before → (jobs t).batch.ops.length = 1) {leader : Writer}
    {tail : List Writer} {g : Group} (hc : s.queue.Committing leader tail g) :
    Linked (acts ++ [.commit]) (s.commitGroup leader tail g) tr
      (restamp s.queue.db.lastSequence s.enc.enc.gTimer stamp) := by
  have hother : ∀ which : Move → Option Nat, which .commit = none →
      callsOf which (acts ++ [.commit]) = callsOf which acts := fun _ hw => callsOf_other acts hw
  have hk := group_single hsound hone hc
  refine ⟨?_, ?_, h.run, ?_, h.nodup, ?_, ?_, ?_, ?_, ?_, h.agent_commit hsound hc hk, h.apart,
    h.pending, ?_⟩
  · rw [hother _ rfl]
    exact h.draws
  · rw [hother _ rfl]
    exact h.ends
  · rw [hother _ rfl]
    exact h.ids
  · intro n hn
    obtain ⟨t, ht, hr⟩ := h.seqs n hn
    exact ⟨t, ht, replied_mono hr⟩
  · show ((s.queue.replies ++ g.replies leader .ok (s.queue.db.lastSequence +
      (g.ops leader).length)).map Reply.seq).Perm ((List.range' 1
        (s.queue.db.lastSequence + (g.ops leader).length)).map some)
    rw [hk, List.map_append, ← List.range'_append_1, List.map_append, Nat.add_comm 1]
    exact h.numbers.append (group_numbers hsound hc)
  · rw [hother _ rfl, hother _ rfl]
    exact h.timer
  · intro n
    unfold restamp
    split
    · exact h.stamps n
    · exact Nat.le_refl _
  · intro n n' hle _
    by_cases hn' : n' ≤ s.queue.db.lastSequence
    · rw [restamp_old stamp (hle.trans hn'), restamp_old stamp hn']
      exact h.mono n n' hle hn'
    · rw [restamp_new stamp (Nat.lt_of_not_le hn'), restamp]
      split
      · exact h.stamps n
      · exact Nat.le_refl _
  · intro p hp
    obtain ⟨hstart, hend, hle⟩ := h.posted p hp
    rw [restamp_old stamp hle]
    exact ⟨hstart, hend, hle.trans (Nat.le_add_right _ _)⟩

/-- The invariant is kept by every step. -/
theorem step (h : Linked acts s tr stamp) (hsound : Sound jobs acts s)
    (hone : ∀ t, s.phase t ≠ .before → (jobs t).batch.ops.length = 1)
    (hsmall : (callsOf Move.started acts).length < 2 ^ 31) {a : Move} {s' : World}
    (hstep : s.step jobs a = some s') : ∃ tr' stamp', Linked (acts ++ [a]) s' tr' stamp' := by
  rcases World.step_stepped hstep with
    @⟨t, enc, hphase, henc⟩ | @⟨t, enc, hphase, henc⟩ | @⟨t, time, id, enc, hphase, hth, henc⟩ |
    @⟨t, id, hphase⟩ | @⟨queue, hqueue⟩ | @⟨queue, hqueue⟩ | @⟨t, id, n, hphase, hreplied⟩ |
    @⟨t, id, n, enc, hphase, henc⟩ | @⟨t, enc, hphase, henc⟩
  case start =>
    obtain ⟨tr', h'⟩ := h.start hsound hsmall hphase henc
    exact ⟨tr', stamp, h'⟩
  case ident =>
    obtain ⟨tr', h'⟩ := h.ident hphase henc
    exact ⟨tr', stamp, h'⟩
  case enter =>
    obtain ⟨tr', h'⟩ := h.enter hsound hsmall hphase hth henc
    exact ⟨tr', stamp, h'⟩
  case call => exact ⟨tr, stamp, h.call hsound hphase⟩
  case lead => exact ⟨tr, stamp, h.lead hsound hqueue⟩
  case commit =>
    obtain ⟨leader, tail, g, hc, hs'⟩ := hsound.commit_step hsmall hqueue
    rw [hs']
    exact ⟨tr, _, h.commit hsound hone hc⟩
  case ret => exact ⟨tr, stamp, h.ret hphase hreplied⟩
  case finish =>
    obtain ⟨tr', h'⟩ := h.finish hsound hsmall hphase henc
    exact ⟨tr', stamp, h'⟩
  case post =>
    obtain ⟨tr', h'⟩ := h.post hsound hsmall hphase henc
    exact ⟨tr', stamp, h'⟩

end Linked

/-- A call that has started stays started. -/
theorem World.started_mono {jobs : Nat → Job} {s s' : World} {a : Move}
    (hstep : s.step jobs a = some s') {t : Nat} (ht : s.phase t ≠ .before) :
    s'.phase t ≠ .before := by
  have hupdate : ∀ {t' : Nat} {p : Phase}, p ≠ .before →
      Function.update s.phase t' p t ≠ .before := by
    intro t' p hp
    by_cases htt : t = t'
    · subst htt
      rw [Function.update_self]
      exact hp
    · rw [Function.update_of_ne htt]
      exact ht
  rcases World.step_stepped hstep with _ | _ | _ | _ | _ | _ | _ | _ | _
  case ident => exact ht
  case lead => exact ht
  case commit => exact ht
  all_goals exact hupdate (by simp)

theorem runs_linked {jobs : Nat → Job} {acts : List Move} {s : World}
    (hrun : runs (World.step jobs) World.init acts = some s)
    (hsmall : (callsOf Move.started acts).length < 2 ^ 31)
    (hone : ∀ t, s.phase t ≠ .before → (jobs t).batch.ops.length = 1) :
    ∃ tr stamp, Linked acts s tr stamp := by
  refine runs_induction (P := fun acts s => (callsOf Move.started acts).length < 2 ^ 31 →
      (∀ t, s.phase t ≠ .before → (jobs t).batch.ops.length = 1) →
      ∃ tr stamp, Linked acts s tr stamp)
    (fun _ _ => ⟨_, _, Linked.init⟩) ?_ acts s hrun hsmall hone
  intro acts u a v hu ih hstep hsmall hone
  have hsmall' := (callsOf_length_le Move.started acts a).trans_lt hsmall
  have hone' : ∀ t, u.phase t ≠ .before → (jobs t).batch.ops.length = 1 :=
    fun t ht => hone t (World.started_mono hstep ht)
  obtain ⟨tr, stamp, h⟩ := ih hsmall' hone'
  exact h.step (runs_sound hu hsmall') hone' hsmall' hstep

end Lpad
