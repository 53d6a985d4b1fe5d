import Lpad.Enclave.CheckerHistory
import Mathlib.Data.List.Count

/-!
# The clock and real time

`start` and `end` of an op are readings of `g_timer`, which is 32 bits wide. Real time is the
order of the steps of the run. A `Watch` writes down at which step each of the two ecalls of a
write began. As long as the clock has been read fewer than `2^32` times, the readings of
posted ops order them as the steps do (`runs_consistent`).
-/

namespace Lpad

/-! ## The steps of a run -/

/-- The numbers passed to `enclave_postput`. -/
def seqsOf : List Act → List Nat :=
  List.filterMap fun a => match a with
    | .postputTime _ _ seq => some seq
    | _ => none

theorem seqsOf_append (acts : List Act) (a : Act) :
    seqsOf (acts ++ [a]) = seqsOf acts ++ seqsOf [a] := List.filterMap_append

/-- The number of calls of `enclave_preput`. -/
def preputsBegun (acts : List Act) : Nat :=
  acts.countP fun a => match a with
    | .preputTime _ => true
    | _ => false

/-- The steps that read the clock. -/
def Act.readsClock : Act → Bool
  | .preputTime _ => true
  | .postputTime _ _ _ => true
  | _ => false

/-- A write: its number, and the steps with which its two ecalls began. -/
structure Span where
  seq : Nat
  start : Nat
  stop : Nat
deriving DecidableEq, Repr

/-- What is written down along a run: how many steps it has taken, when each thread last
began an `enclave_preput`, how many ids are drawn, when the `enclave_preput` that drew an id
began, and the writes. -/
structure Watch where
  now : Nat
  began : Nat → Nat
  drawn : Nat
  started : Nat → Nat
  spans : List Span

def Watch.init : Watch where
  now := 0
  began := fun _ => 0
  drawn := 0
  started := fun _ => 0
  spans := []

def Watch.see (w : Watch) (a : Act) : Watch :=
  match a with
  | .preputTime t => { w with now := w.now + 1, began := Function.update w.began t w.now }
  | .preputId t =>
    { w with
      now := w.now + 1
      drawn := w.drawn + 1
      started := Function.update w.started (w.drawn + 1) (w.began t) }
  | .postputTime _ id seq =>
    { w with now := w.now + 1, spans := w.spans ++ [⟨seq, w.started id, w.now⟩] }
  | .preputLock _ => { w with now := w.now + 1 }
  | .postputLock _ => { w with now := w.now + 1 }

def watch (acts : List Act) : Watch := acts.foldl Watch.see Watch.init

theorem watch_append (acts : List Act) (a : Act) : watch (acts ++ [a]) = (watch acts).see a :=
  List.foldl_concat ..

/-- **The numbers agree with real time**: never `a` before `b` although `b` ended before `a`
started. -/
def RealTime (acts : List Act) : Prop :=
  ∀ a ∈ (watch acts).spans, ∀ b ∈ (watch acts).spans, a.seq < b.seq → ¬ b.stop < a.start

instance (acts : List Act) : Decidable (RealTime acts) :=
  inferInstanceAs (Decidable (∀ a ∈ (watch acts).spans, ∀ b ∈ (watch acts).spans, _))

theorem watch_now (acts : List Act) : (watch acts).now = acts.length := by
  induction acts using List.reverseRecOn with
  | nil => rfl
  | append_singleton acts a ih =>
    rw [watch_append, List.length_append, ← ih]
    cases a <;> rfl

theorem watch_drawn (acts : List Act) : (watch acts).drawn = idsDrawn acts := by
  induction acts using List.reverseRecOn with
  | nil => rfl
  | append_singleton acts a ih =>
    rw [watch_append, idsDrawn_append, ← ih]
    cases a <;> rfl

/-- Each call reads the clock once. -/
theorem countP_readsClock (acts : List Act) :
    acts.countP Act.readsClock = preputsBegun acts + (seqsOf acts).length := by
  induction acts using List.reverseRecOn with
  | nil => rfl
  | append_singleton acts a ih =>
    rw [List.countP_append, ih, preputsBegun, preputsBegun, List.countP_append, seqsOf_append,
      List.length_append, Nat.add_add_add_comm]
    cases a <;> rfl

/-! ## The stamps -/

/-- The stamp a thread holds agrees with the steps of the run: a reading taken in step `p` is
`reads (p + 1)`, the number of readings taken by then. -/
def StampOk (reads : Nat → Nat) (w : Watch) (t : Nat) : Thread → Prop
  | .idle => True
  | .preputTimed time => time = reads (w.began t + 1)
  | .preputIdent time id => time = reads (w.started id + 1)
  | .postputTimed id seq time =>
    ∃ p ∈ w.spans, p.seq = seq ∧ p.start = w.started id ∧ time = reads (p.stop + 1)

/-- The stamps agree with the steps of the run. -/
structure Timed (reads : Nat → Nat) (w : Watch) (s : Sys) : Prop where
  timer : s.enc.gTimer = reads w.now
  threads : ∀ t, StampOk reads w t (s.threads t)
  pending : ∀ id op, s.enc.pendingList.find id = some op → op.start = reads (w.started id + 1)
  posted : ∀ q ∈ s.posted,
    ∃ p ∈ w.spans, p.seq = q.1 ∧ q.2.start = reads (p.start + 1) ∧ q.2.end_ = reads (p.stop + 1)

theorem Timed.init {reads : Nat → Nat} (h0 : reads 0 = 0) : Timed reads Watch.init Sys.init where
  timer := h0.symm
  threads := fun _ => trivial
  pending := fun id op h => by cases h
  posted := fun q hq => by cases hq

theorem Timed.consistent {acts : List Act} {reads : Nat → Nat} {s : Sys}
    (h : Timed reads (watch acts) s) (hmono : Monotone reads) (hreal : RealTime acts) :
    Consistent s.posted := by
  intro a ha b hb hab hend
  obtain ⟨p, hp, hpseq, hstart, -⟩ := h.posted a ha
  obtain ⟨q, hq, hqseq, -, hstop⟩ := h.posted b hb
  have hle := Nat.le_of_not_lt (hreal p hp q hq (by rw [hpseq, hqseq]; exact hab))
  rw [hstart, hstop] at hend
  exact absurd (hmono (Nat.succ_le_succ hle)) (Nat.not_le.mpr hend)

/-- One thread moves. -/
theorem stampOk_update {reads : Nat → Nat} {w w' : Watch} {threads : Nat → Thread} {t : Nat}
    {th : Thread} (h : ∀ t', StampOk reads w t' (threads t')) (hnew : StampOk reads w' t th)
    (hframe : ∀ t', t' ≠ t → StampOk reads w t' (threads t') → StampOk reads w' t' (threads t'))
    (t' : Nat) : StampOk reads w' t' (Function.update threads t th t') := by
  by_cases ht : t' = t
  · subst ht
    rw [Function.update_self]
    exact hnew
  · rw [Function.update_of_ne ht]
    exact hframe t' ht (h t')

theorem Timed.step {reads : Nat → Nat} {w : Watch} {s s' : Sys} {a : Act} {stage : Nat → IdStage}
    (h : Timed reads w s) (howned : Owned s w.drawn stage) (hids : w.drawn + idsDrawn [a] < 2 ^ 32)
    (hreads : reads (w.now + 1) = reads w.now + [a].countP Act.readsClock)
    (hsmall : reads (w.now + 1) < 2 ^ 32) (hstep : s.ownStep a = some s') :
    Timed reads (w.see a) s' := by
  have hclock : a.readsClock = true → s.enc.getTime.gTimer = reads (w.now + 1) := by
    intro ha
    rw [List.countP_singleton, ha] at hreads
    rw [Checker.getTime, h.timer, hreads]
    exact uint32_of_lt (hreads ▸ hsmall)
  rcases (Sys.step_stepped (Sys.ownStep_step hstep)).2 with
    @⟨t, hidle⟩ | @⟨t, time, htimed⟩ | @⟨t, time, id, hident, hfree⟩ | @⟨t, id, seq, hidle⟩ |
    @⟨t, id, seq, time, htimed, hfree, hmiss⟩ | @⟨t, id, seq, time, op, htimed, hfree, hfound⟩
  case preputTime =>
    refine ⟨hclock rfl, stampOk_update h.threads ?_ ?_, h.pending, h.posted⟩
    · show _ = reads (Function.update w.began t w.now t + 1)
      rw [hclock rfl, Function.update_self]
    · intro t' hne (hok : StampOk reads w t' (s.threads t'))
      show StampOk reads _ t' (s.threads t')
      generalize hth : s.threads t' = th at hok ⊢
      cases th with
      | preputTimed time =>
        show _ = reads (Function.update w.began t w.now t' + 1)
        rw [Function.update_of_ne hne]
        exact hok
      | idle => trivial
      | preputIdent time id => exact hok
      | postputTimed id seq time => exact hok
  case preputId =>
    have hid : s.enc.allocId.gId = w.drawn + 1 := by
      rw [Checker.allocId, howned.gId]
      exact uint32_of_lt hids
    have hfresh : stage (w.drawn + 1) = .undrawn :=
      (howned.undrawn _).mpr (Or.inr (Nat.lt_succ_self _))
    -- the ids drawn before keep their starts
    have hkeep : ∀ id, stage id ≠ .undrawn → (w.see (.preputId t)).started id = w.started id := by
      intro id hne
      refine Function.update_of_ne ?_ _ _
      rintro rfl
      exact hne hfresh
    refine ⟨h.timer.trans hreads.symm, stampOk_update h.threads ?_ ?_, ?_, h.posted⟩
    · show time = reads (Function.update w.started (w.drawn + 1) (w.began t) _ + 1)
      rw [hid, Function.update_self]
      have hok := h.threads t
      rw [htimed] at hok
      exact hok
    · intro t' hne (hok : StampOk reads w t' (s.threads t'))
      show StampOk reads _ t' (s.threads t')
      generalize hth : s.threads t' = th at hok ⊢
      cases th with
      | idle => trivial
      | preputTimed time => exact hok
      | preputIdent time id =>
        show _ = reads ((w.see (.preputId t)).started id + 1)
        rw [hkeep id (by simp [howned.drawn t' time id hth])]
        exact hok
      | postputTimed id seq time =>
        show ∃ p ∈ w.spans, p.seq = seq ∧ p.start = (w.see (.preputId t)).started id ∧ _
        rw [hkeep id (by simp [howned.posting t' id seq time hth])]
        exact hok
    · intro id op hop
      change s.enc.pendingList.find id = some op at hop
      rw [hkeep id]
      · exact h.pending id op hop
      · intro hundrawn
        rw [(howned.pending id).mpr (by simp [hundrawn])] at hop
        cases hop
  case preputLock =>
    refine ⟨h.timer.trans hreads.symm, stampOk_update h.threads trivial fun _ _ hok => hok, ?_,
      h.posted⟩
    intro id' op hop
    change (s.enc.pendingList.insert id (Op.new id time)).find id' = some op at hop
    rw [StdMap.find_insert] at hop
    rcases Option.or_eq_some_iff.mp hop with hold | ⟨-, hnew⟩
    · exact h.pending id' op hold
    · cases List.mem_singleton.mp (StdMap.mem_of_find hnew)
      have hok := h.threads t
      rw [hident] at hok
      exact hok
  case postputTime =>
    refine ⟨hclock rfl, stampOk_update h.threads ?_ ?_, h.pending, ?_⟩
    · exact ⟨⟨seq, w.started id, w.now⟩, List.mem_append_right _ List.mem_cons_self, rfl, rfl,
        hclock rfl⟩
    · intro t' hne (hok : StampOk reads w t' (s.threads t'))
      show StampOk reads _ t' (s.threads t')
      generalize hth : s.threads t' = th at hok ⊢
      cases th with
      | idle => trivial
      | preputTimed time => exact hok
      | preputIdent time id => exact hok
      | postputTimed id' seq' time =>
        obtain ⟨p, hp, hspan⟩ := hok
        exact ⟨p, List.mem_append_left _ hp, hspan⟩
    · intro q hq
      obtain ⟨p, hp, hspan⟩ := h.posted q hq
      exact ⟨p, List.mem_append_left _ hp, hspan⟩
  case dangle => exact absurd hmiss (howned.found htimed)
  case post =>
    refine ⟨?_, stampOk_update h.threads trivial fun _ _ hok => hok, ?_, ?_⟩
    · exact (Checker.postputSection_gTimer ..).trans (h.timer.trans hreads.symm)
    · intro id' op' hop
      change (s.enc.postputSection id seq _).pendingList.find id' = some op' at hop
      rw [Checker.postputSection_pendingList] at hop
      exact h.pending id' op' (StdMap.find_erase_some hop).1
    · intro q hq
      rcases List.mem_append.mp hq with hq | hq
      · exact h.posted q hq
      · have hok := h.threads t
        rw [htimed] at hok
        obtain ⟨p, hp, hseq, hstart, hstop⟩ := hok
        rw [List.mem_singleton.mp hq]
        exact ⟨p, hp, hseq, (h.pending id op hfound).trans (by rw [hstart]), hstop⟩

/-- **The stamps tell real time** while the clock does not wrap. -/
theorem runs_consistent {acts : List Act} {s : Sys}
    (hrun : runs Sys.ownStep Sys.init acts = some s) (hids : idsDrawn acts < 2 ^ 32)
    (hclock : acts.countP Act.readsClock < 2 ^ 32) (hreal : RealTime acts) :
    Consistent s.posted := by
  let reads : Nat → Nat := fun p => (acts.take p).countP Act.readsClock
  have hmono : Monotone reads := fun p q hpq =>
    (List.take_sublist_take_left hpq).countP_le
  suffices htimed : Timed reads (watch acts) s from htimed.consistent hmono hreal
  refine runs_induction (P := fun sofar s => ∀ rest, sofar ++ rest = acts →
    Timed reads (watch sofar) s) (fun _ _ => Timed.init rfl) ?_ acts s hrun [] (List.append_nil _)
  intro sofar u a t hu ih hstep rest hrest
  have hids' : idsDrawn (sofar ++ [a]) < 2 ^ 32 := by
    rw [← hrest, idsDrawn, List.countP_append] at hids
    exact Nat.lt_of_le_of_lt (Nat.le_add_right _ _) hids
  rw [idsDrawn_append] at hids'
  obtain ⟨stage, howned⟩ := runs_owned hu (Nat.lt_of_le_of_lt (Nat.le_add_right _ _) hids')
  rw [← watch_drawn] at howned hids'
  have hsofar : acts = sofar ++ a :: rest := by rw [← hrest, List.append_assoc]; rfl
  rw [watch_append]
  refine (ih (a :: rest) hsofar.symm).step howned hids' ?_ ?_ hstep
  · show (acts.take _).countP _ = (acts.take _).countP _ + _
    rw [watch_now, ← hrest, List.take_append_of_le_length (by simp),
      List.take_of_length_le (by simp), List.countP_append, List.append_assoc,
      List.take_left]
  · exact ((List.take_sublist _ _).countP_le).trans_lt hclock

end Lpad
