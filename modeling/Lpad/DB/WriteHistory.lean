import Lpad.DB.GroupCommit
import Lpad.DB.World

/-!
# What holds whatever the batches are

The invariants of the whole system that do not depend on the number of entries:
which calls have come how far, that the queue serves each call once with the job
it was given, that the last sequence number is the number of entries committed,
and that the enclave has at most one op per finished call.
-/

namespace Lpad

/-! ## Which calls have taken a step -/

/-- The calls that took the step that `which` selects, in order. -/
def callsOf (which : Move → Option Nat) (acts : List Move) : List Nat := acts.filterMap which

def Move.started : Move → Option Nat
  | .start t => some t
  | _ => none

def Move.drew : Move → Option Nat
  | .ident t => some t
  | _ => none

def Move.ended : Move → Option Nat
  | .finish t => some t
  | _ => none

def Move.posted : Move → Option Nat
  | .post t => some t
  | _ => none

/-- `l` lists, each once, the calls with property `p`. -/
structure Once (l : List Nat) (p : Nat → Prop) : Prop where
  nodup : l.Nodup
  mem : ∀ t, t ∈ l ↔ p t

namespace Once

variable {l l' : List Nat} {p p' : Nat → Prop}

theorem nil (h : ∀ t, ¬ p t) : Once [] p :=
  ⟨List.nodup_nil, fun t => iff_of_false (List.not_mem_nil) (h t)⟩

theorem congr (h : Once l p) (hp : ∀ t, p' t ↔ p t) : Once l p' :=
  ⟨h.nodup, fun t => (h.mem t).trans (hp t).symm⟩

theorem snoc (h : Once l p) {t : Nat} (hnew : ¬ p t) (hp : ∀ t', p' t' ↔ p t' ∨ t' = t) :
    Once (l ++ [t]) p' := by
  have hmem : t ∉ l := mt (h.mem t).mp hnew
  refine ⟨List.nodup_append_comm.mp (List.nodup_cons.mpr ⟨hmem, h.nodup⟩), fun t' => ?_⟩
  rw [List.mem_append, List.mem_singleton, h.mem, hp]

theorem length_le (h : Once l p) (h' : Once l' p') (himp : ∀ t, p t → p' t) :
    l.length ≤ l'.length := by
  refine (h.nodup.subperm fun t ht => ?_).length_le
  exact (h'.mem t).mpr (himp t ((h.mem t).mp ht))

end Once

theorem callsOf_append (which : Move → Option Nat) (acts : List Move) (a : Move) :
    callsOf which (acts ++ [a]) = callsOf which acts ++ callsOf which [a] := List.filterMap_append

/-! ## The queue and the calls -/

/-- The call is in the queue or has been answered. -/
def Phase.Called : Phase → Prop
  | .waiting _ | .returned _ _ | .postput | .finished => True
  | _ => False

/-- `SUWrite` has returned. -/
def Phase.Answered : Phase → Prop
  | .returned _ _ | .postput | .finished => True
  | _ => False

/-- The callers that have been answered and those in the queue. -/
def World.callers (s : World) : List Nat :=
  s.queue.replies.map (fun r => r.writer.owner) ++ s.queue.writers.map Writer.owner

/-- The queue serves the jobs of the calls. -/
structure Served (jobs : Nat → Job) (s : World) : Prop where
  bg : s.queue.db.bgError = .ok
  writers : ∀ w ∈ s.queue.writers, w = (jobs w.owner).writer w.owner
  replies : ∀ r ∈ s.queue.replies, r.writer = (jobs r.writer.owner).writer r.writer.owner
  numbers : ∀ r ∈ s.queue.replies, ∃ n, r.seq = some n
  distinct : s.callers.Nodup
  called : ∀ t ∈ s.callers, (s.phase t).Called
  queued : ∀ w ∈ s.queue.writers, ∃ id, s.phase w.owner = .waiting id
  answered : ∀ t, (s.phase t).Answered → t ∈ s.queue.replies.map fun r => r.writer.owner
  total : s.queue.db.lastSequence = entryCount (s.queue.replies.map Reply.writer)
  leading : ∀ g, s.queue.leading = some g → ∃ leader b rest more,
    s.queue.writers = leader :: (rest ++ more) ∧ leader.batch = some b ∧
      g = buildBatchGroup leader b rest s.queue.db.lastSequence

theorem Served.init (jobs : Nat → Job) : Served jobs World.init where
  bg := rfl
  writers := by simp [World.init, Queue.init]
  replies := by simp [World.init, Queue.init]
  numbers := by simp [World.init, Queue.init]
  distinct := List.nodup_nil
  called := by simp [World.init, Queue.init, World.callers]
  queued := by simp [World.init, Queue.init]
  answered := by simp [World.init, Phase.Answered]
  total := rfl
  leading := by simp [World.init, Queue.init]

/-- A step that leaves the queue alone and moves one call on, which is not in the
queue. -/
theorem Served.frame {jobs : Nat → Job} {s : World} (h : Served jobs s) {t : Nat} {p : Phase}
    (enc : Sys) (hcalled : (s.phase t).Called → p.Called)
    (hqueued : ∀ id, s.phase t = .waiting id →
      p = .waiting id ∨ t ∈ s.queue.replies.map fun r => r.writer.owner)
    (hanswered : p.Answered → t ∈ s.queue.replies.map fun r => r.writer.owner) :
    Served jobs ({ s with enc }.setPhase t p) where
  bg := h.bg
  writers := h.writers
  replies := h.replies
  numbers := h.numbers
  distinct := h.distinct
  called := by
    intro t' ht'
    show (Function.update s.phase t p t').Called
    by_cases htt : t' = t
    · subst htt
      rw [Function.update_self]
      exact hcalled (h.called t' ht')
    · rw [Function.update_of_ne htt]
      exact h.called t' ht'
  queued := by
    intro w hw
    show ∃ id, Function.update s.phase t p w.owner = .waiting id
    obtain ⟨id, hid⟩ := h.queued w hw
    by_cases htt : w.owner = t
    · subst htt
      rw [Function.update_self]
      rcases hqueued id hid with hp | hmem
      · exact ⟨id, hp⟩
      · -- a call is not both in the queue and answered
        exact absurd (List.mem_map_of_mem hw) (List.disjoint_of_nodup_append h.distinct hmem)
    · rw [Function.update_of_ne htt]
      exact ⟨id, hid⟩
  answered := by
    intro t' ht'
    have ht' : (Function.update s.phase t p t').Answered := ht'
    by_cases htt : t' = t
    · subst htt
      rw [Function.update_self] at ht'
      exact hanswered ht'
    · rw [Function.update_of_ne htt] at ht'
      exact h.answered t' ht'
  total := h.total
  leading := h.leading

theorem Served.call {jobs : Nat → Job} {s : World} (h : Served jobs s) {t id : Nat}
    (hphase : s.phase t = .ready id) :
    Served jobs
      ({ s with queue := s.queue.arrive ((jobs t).writer t) }.setPhase t (.waiting id)) := by
  have hnew : t ∉ s.callers := by
    intro hmem
    have := h.called t hmem
    rw [hphase] at this
    exact this
  have hcallers : World.callers
      ({ s with queue := s.queue.arrive ((jobs t).writer t) }.setPhase t (.waiting id)) =
        s.callers ++ [t] := by
    simp [World.callers, World.setPhase, Queue.arrive, Job.writer]
  constructor
  case bg => exact h.bg
  case writers =>
    intro w hw
    rcases List.mem_append.mp hw with hw | hw
    · exact h.writers w hw
    · rw [List.mem_singleton.mp hw]
      rfl
  case replies => exact h.replies
  case numbers => exact h.numbers
  case distinct =>
    rw [hcallers]
    exact List.nodup_append_comm.mp (List.nodup_cons.mpr ⟨hnew, h.distinct⟩)
  case called =>
    intro t' ht'
    rw [hcallers, List.mem_append, List.mem_singleton] at ht'
    show (Function.update s.phase t (.waiting id) t').Called
    by_cases htt : t' = t
    · subst htt
      rw [Function.update_self]
      trivial
    · rw [Function.update_of_ne htt]
      exact h.called t' (ht'.resolve_right htt)
  case queued =>
    intro w hw
    show ∃ id', Function.update s.phase t (.waiting id) w.owner = .waiting id'
    by_cases htt : w.owner = t
    · subst htt
      exact ⟨id, Function.update_self _ _ _⟩
    · rw [Function.update_of_ne htt]
      rcases List.mem_append.mp hw with hw | hw
      · exact h.queued w hw
      · rw [List.mem_singleton.mp hw] at htt
        exact absurd rfl htt
  case answered =>
    intro t' ht'
    have ht' : (Function.update s.phase t (.waiting id) t').Answered := ht'
    by_cases htt : t' = t
    · subst htt
      rw [Function.update_self] at ht'
      exact ht'.elim
    · rw [Function.update_of_ne htt] at ht'
      exact h.answered t' ht'
  case total => exact h.total
  case leading =>
    intro g hg
    obtain ⟨leader, b, rest, more, hw, hb, hgroup⟩ := h.leading g hg
    refine ⟨leader, b, rest, more ++ [(jobs t).writer t], ?_, hb, hgroup⟩
    show s.queue.writers ++ [(jobs t).writer t] = _
    rw [hw]
    simp

/-- The call in front of the queue has a batch, so it leads a group. -/
theorem Served.lead {jobs : Nat → Job} {s : World} (h : Served jobs s) {queue : Queue}
    (hstep : s.queue.lead .ok = some queue) :
    ∃ leader b rest, s.queue.writers = leader :: rest ∧ leader.batch = some b ∧
      queue = { s.queue with
        leading := some (buildBatchGroup leader b rest s.queue.db.lastSequence) } := by
  cases hleading : s.queue.leading with
  | some g => simp [Queue.lead, hleading] at hstep
  | none =>
    cases hwriters : s.queue.writers with
    | nil => simp [Queue.lead, hleading, hwriters] at hstep
    | cons leader rest =>
      have hw := h.writers leader (by simp [hwriters])
      have hbatch : leader.batch = some (jobs leader.owner).batch := by
        rw [hw]
        rfl
      have hlead := Queue.lead_ok hleading hwriters hbatch h.bg
      rw [hlead] at hstep
      exact ⟨leader, _, rest, rfl, hbatch, (Option.some.inj hstep).symm⟩

theorem Writer.ops_length_lt (w : Writer) : w.ops.length < 2 ^ 31 := by
  unfold Writer.ops
  split
  · decide
  · rename_i b _
    exact b.encodes.small

theorem entryCount_le (ws : List Writer) : entryCount ws ≤ ws.length * 2 ^ 31 := by
  induction ws with
  | nil => exact Nat.zero_le _
  | cons w ws ih =>
    have := w.ops_length_lt
    rw [entryCount_cons, List.length_cons]
    omega

theorem Served.committing {jobs : Nat → Job} {s : World} (h : Served jobs s) {g : Group}
    (hg : s.queue.leading = some g) : ∃ leader tail, s.queue.Committing leader tail g :=
  Queue.Led.committing h.leading hg

/-- The queue after the group has been committed. -/
def World.commitGroup (s : World) (leader : Writer) (tail : List Writer) (g : Group) : World :=
  { s with queue := s.queue.served leader (g.followers.map Follower.writer ++ tail) g }

theorem Queue.Committing.world {s : World} {leader : Writer} {tail : List Writer} {g : Group}
    (h : s.queue.Committing leader tail g)
    (hfit : s.queue.db.lastSequence + 1 + (g.ops leader).length < 2 ^ 64) {queue : Queue}
    (hstep : s.queue.commit ⟨.ok, .ok⟩ = some queue) :
    { s with queue } = s.commitGroup leader tail g := by
  rw [World.commitGroup, h.commit hfit hstep]

theorem World.commitGroup_writers {s : World} {leader : Writer} {tail : List Writer} {g : Group} :
    (s.commitGroup leader tail g).queue.writers = tail :=
  s.queue.served_writers leader tail g

/-- Committing moves the group from the queue to the answered calls. -/
theorem Queue.Committing.callers {s : World} {leader : Writer} {tail : List Writer} {g : Group}
    (h : s.queue.Committing leader tail g) : (s.commitGroup leader tail g).callers = s.callers := by
  have hreplies : ∀ st n, (g.replies leader st n).map (fun r => r.writer.owner) =
      (g.members leader).map Writer.owner := by
    intro st n
    rw [← g.replies_writer leader st n, List.map_map]
    rfl
  unfold World.callers
  rw [World.commitGroup_writers, h.writers]
  show (s.queue.replies ++ g.replies leader .ok _).map _ ++ _ = _
  rw [List.map_append, hreplies, List.map_append, List.append_assoc]

theorem Served.commit {jobs : Nat → Job} {s : World} (h : Served jobs s) {leader : Writer}
    {tail : List Writer} {g : Group} (hc : s.queue.Committing leader tail g) :
    Served jobs (s.commitGroup leader tail g) := by
  have hmembers : ∀ r ∈ g.replies leader .ok
      (s.queue.db.lastSequence + (g.ops leader).length), r.writer ∈ s.queue.writers := by
    intro r hr
    rw [hc.writers, ← g.replies_writer leader .ok
      (s.queue.db.lastSequence + (g.ops leader).length)]
    exact List.mem_append_left _ (List.mem_map_of_mem hr)
  constructor
  case bg => exact h.bg
  case writers =>
    rw [World.commitGroup_writers]
    exact fun w hw => h.writers w (hc.writers ▸ List.mem_append_right _ hw)
  case replies =>
    intro r hr
    rcases List.mem_append.mp hr with hr | hr
    · exact h.replies r hr
    · exact h.writers r.writer (hmembers r hr)
  case numbers =>
    intro r hr
    rcases List.mem_append.mp hr with hr | hr
    · exact h.numbers r hr
    · -- all callers are in `SUWrite`
      have hsu : r.writer.su = true := by
        rw [h.writers r.writer (hmembers r hr)]
        rfl
      rcases List.mem_cons.mp hr with rfl | hr
      · exact ⟨_, Writer.reply_seq.mpr ⟨hsu, rfl⟩⟩
      · obtain ⟨f, -, rfl⟩ := List.mem_map.mp hr
        exact ⟨_, Writer.reply_seq.mpr ⟨hsu, rfl⟩⟩
  case distinct => exact hc.callers.symm ▸ h.distinct
  case called => exact hc.callers.symm ▸ h.called
  case queued =>
    rw [World.commitGroup_writers]
    exact fun w hw => h.queued w (hc.writers ▸ List.mem_append_right _ hw)
  case answered =>
    intro t ht
    show t ∈ (s.queue.replies ++ _).map _
    rw [List.map_append]
    exact List.mem_append_left _ (h.answered t ht)
  case total =>
    show s.queue.db.lastSequence + (g.ops leader).length =
      entryCount ((s.queue.replies ++ _).map Reply.writer)
    rw [List.map_append, Group.replies_writer, entryCount_append, ← h.total]
    rfl
  case leading =>
    intro g' hg'
    cases hg'

/-- The numbers stay far below 64 bits. -/
theorem Served.fits {jobs : Nat → Job} {s : World} (h : Served jobs s) {leader : Writer}
    {tail : List Writer} {g : Group} (hc : s.queue.Committing leader tail g)
    (hsmall : s.callers.length < 2 ^ 31) :
    s.queue.db.lastSequence + 1 + (g.ops leader).length < 2 ^ 64 := by
  have hreplies := entryCount_le (s.queue.replies.map Reply.writer)
  have hgroup := entryCount_le (g.members leader)
  have hlen : s.callers.length =
      s.queue.replies.length + ((g.members leader).length + tail.length) := by
    simp [World.callers, hc.writers]
  have hops : (g.ops leader).length = entryCount (g.members leader) := rfl
  rw [List.length_map] at hreplies
  rw [h.total, hops]
  omega

/-- **What holds in every run of fewer than `2^31` calls**, whatever their batches. -/
structure Sound (jobs : Nat → Job) (acts : List Move) (s : World) : Prop where
  starts : Once (callsOf Move.started acts) fun t => s.phase t ≠ .before
  posts : Once (callsOf Move.posted acts) fun t => s.phase t = .finished
  served : Served jobs s
  counted : Counted s.enc
  posted : s.enc.posted.length ≤ (callsOf Move.posted acts).length

theorem Sound.init (jobs : Nat → Job) : Sound jobs [] World.init where
  starts := Once.nil fun t => by simp [World.init]
  posts := Once.nil fun t => by simp [World.init]
  served := Served.init jobs
  counted := Counted.init
  posted := Nat.le_refl 0

/-- The callers are among the calls that have started. -/
theorem Sound.callers_length {jobs : Nat → Job} {acts : List Move} {s : World}
    (h : Sound jobs acts s) : s.callers.length ≤ (callsOf Move.started acts).length := by
  refine (h.served.distinct.subperm fun t ht => ?_).length_le
  rw [h.starts.mem]
  intro hbefore
  have := h.served.called t ht
  rw [hbefore] at this
  exact this

/-- A commit step commits the group of the call in front. -/
theorem Sound.commit_step {jobs : Nat → Job} {acts : List Move} {s : World}
    (h : Sound jobs acts s) (hsmall : (callsOf Move.started acts).length < 2 ^ 31) {queue : Queue}
    (hqueue : s.queue.commit ⟨.ok, .ok⟩ = some queue) :
    ∃ leader tail g, s.queue.Committing leader tail g ∧
      { s with queue } = s.commitGroup leader tail g := by
  obtain ⟨g, hg⟩ : ∃ g, s.queue.leading = some g := by
    cases hleading : s.queue.leading with
    | none => simp [Queue.commit, hleading] at hqueue
    | some g => exact ⟨g, rfl⟩
  obtain ⟨leader, tail, hc⟩ := h.served.committing hg
  have hfit := h.served.fits hc (h.callers_length.trans_lt hsmall)
  exact ⟨leader, tail, g, hc, hc.world hfit hqueue⟩

/-- A call that moves on keeps a property that its phases agree on. -/
theorem update_phase_iff {phase : Nat → Phase} {P : Phase → Prop} {t : Nat} {p : Phase}
    (hp : P p ↔ P (phase t)) (t' : Nat) : P (Function.update phase t p t') ↔ P (phase t') := by
  by_cases htt : t' = t
  · subst htt
    rw [Function.update_self]
    exact hp
  · rw [Function.update_of_ne htt]

/-- A call moves on within the calls with property `P`, or outside of them. -/
theorem Once.move {l : List Nat} {phase : Nat → Phase} {P : Phase → Prop}
    (h : Once l fun t => P (phase t)) {t : Nat} {p : Phase} (hp : P p ↔ P (phase t)) :
    Once l fun t' => P (Function.update phase t p t') :=
  h.congr (update_phase_iff hp)

/-- A call comes to have property `P`. -/
theorem Once.join {l : List Nat} {phase : Nat → Phase} {P : Phase → Prop}
    (h : Once l fun t => P (phase t)) {t : Nat} {p : Phase} (hold : ¬ P (phase t)) (hp : P p) :
    Once (l ++ [t]) fun t' => P (Function.update phase t p t') := by
  refine h.snoc hold fun t' => ?_
  by_cases htt : t' = t
  · subst htt
    rw [Function.update_self]
    exact iff_of_true hp (Or.inr rfl)
  · rw [Function.update_of_ne htt]
    exact (or_iff_left htt).symm

theorem callsOf_other {which : Move → Option Nat} {a : Move} (acts : List Move)
    (ha : which a = none) : callsOf which (acts ++ [a]) = callsOf which acts := by
  rw [callsOf_append, callsOf, callsOf, List.filterMap_cons_none ha, List.filterMap_nil,
    List.append_nil]

/-- The enclave posts at most one op in a step, and only in a section of
`enclave_postput`. -/
theorem Sys.posted_length_le {s s' : Sys} {a : Act} (h : s.step a = some s') :
    s'.posted.length ≤ s.posted.length + 1 ∧
      ((∀ t, a ≠ .postputLock t) → s'.posted = s.posted) := by
  rcases (Sys.step_stepped h).2 with _ | _ | _ | _ | _ | _
  case post =>
    refine ⟨?_, fun hne => absurd rfl (hne _)⟩
    show (s.posted ++ [_]).length ≤ _
    rw [List.length_append, List.length_singleton]
  all_goals exact ⟨Nat.le_succ _, fun _ => rfl⟩

/-- A move that neither starts nor posts a call. -/
theorem Sound.quiet {jobs : Nat → Job} {acts : List Move} {s s' : World} {a : Move}
    (h : Sound jobs acts s) (hstarted : a.started = none) (hpost : a.posted = none)
    (hbefore : ∀ t, s'.phase t ≠ .before ↔ s.phase t ≠ .before)
    (hfinished : ∀ t, s'.phase t = .finished ↔ s.phase t = .finished) (hserved : Served jobs s')
    (hcounted : Counted s'.enc) (hposted : s'.enc.posted = s.enc.posted) :
    Sound jobs (acts ++ [a]) s' where
  starts := by
    rw [callsOf_other acts hstarted]
    exact h.starts.congr hbefore
  posts := by
    rw [callsOf_other acts hpost]
    exact h.posts.congr hfinished
  served := hserved
  counted := hcounted
  posted := by
    rw [callsOf_other acts hpost, hposted]
    exact h.posted

/-- The same for a move of one call, between its start and its end. -/
theorem Sound.quiet_phase {jobs : Nat → Job} {acts : List Move} {s s' : World} {a : Move} {t : Nat}
    {p : Phase} (h : Sound jobs acts s) (hphase : s'.phase = Function.update s.phase t p)
    (hstarted : a.started = none) (hpost : a.posted = none)
    (hbefore : p ≠ .before ↔ s.phase t ≠ .before)
    (hfinished : p = .finished ↔ s.phase t = .finished)
    (hserved : Served jobs s') (hcounted : Counted s'.enc)
    (hposted : s'.enc.posted = s.enc.posted) : Sound jobs (acts ++ [a]) s' := by
  refine h.quiet hstarted hpost ?_ ?_ hserved hcounted hposted
  · rw [hphase]
    exact update_phase_iff (P := fun p => p ≠ .before) hbefore
  · rw [hphase]
    exact update_phase_iff (P := fun p => p = .finished) hfinished

theorem Sound.step {jobs : Nat → Job} {acts : List Move} {s s' : World} {a : Move}
    (h : Sound jobs acts s) (hsmall : (callsOf Move.started acts).length < 2 ^ 31)
    (hstep : s.step jobs a = some s') : Sound jobs (acts ++ [a]) s' := by
  have hserved := h.served
  -- only `start` and `post` add to the calls that are counted
  rcases World.step_stepped hstep with
    @⟨t, enc, hphase, henc⟩ | @⟨t, enc, hphase, henc⟩ | @⟨t, time, id, enc, hphase, hth, henc⟩ |
    @⟨t, id, hphase⟩ | @⟨queue, hqueue⟩ | @⟨queue, hqueue⟩ | @⟨t, id, n, hphase, hreplied⟩ |
    @⟨t, id, n, enc, hphase, henc⟩ | @⟨t, enc, hphase, henc⟩
  case start =>
    refine ⟨?_, ?_, hserved.frame enc ?_ ?_ ?_, h.counted.step henc, ?_⟩
    · rw [callsOf_append]
      exact Once.join (P := fun p => p ≠ .before) h.starts (by simp [hphase]) (by simp)
    · rw [callsOf_other acts rfl]
      exact Once.move (P := fun p => p = .finished) h.posts (by simp [hphase])
    · simp [hphase, Phase.Called]
    · simp [hphase]
    · simp [Phase.Answered]
    · rw [callsOf_other acts rfl]
      exact ((Sys.posted_length_le henc).2 (by simp)).symm ▸ h.posted
  case ident =>
    exact h.quiet rfl rfl (fun _ => Iff.rfl) (fun _ => Iff.rfl) { hserved with }
      (h.counted.step henc) ((Sys.posted_length_le henc).2 (by simp))
  case enter =>
    refine h.quiet_phase (t := t) rfl rfl rfl ?_ ?_ (hserved.frame enc ?_ ?_ ?_)
      (h.counted.step henc) ((Sys.posted_length_le henc).2 (by simp))
    · simp [hphase]
    · simp [hphase]
    · simp [hphase, Phase.Called]
    · simp [hphase]
    · simp [Phase.Answered]
  case call =>
    refine h.quiet_phase (t := t) rfl rfl rfl ?_ ?_ (hserved.call hphase) h.counted rfl
    · simp [hphase]
    · simp [hphase]
  case lead =>
    obtain ⟨leader, b, rest, hw, hb, rfl⟩ := hserved.lead hqueue
    refine h.quiet rfl rfl (fun _ => Iff.rfl) (fun _ => Iff.rfl) ?_ h.counted rfl
    refine { hserved with leading := ?_ }
    rintro g hg
    cases hg
    exact ⟨leader, b, rest, [], by simpa using hw, hb, rfl⟩
  case commit =>
    obtain ⟨leader, tail, g, hc, hs'⟩ := h.commit_step hsmall hqueue
    rw [hs']
    exact h.quiet rfl rfl (fun _ => Iff.rfl) (fun _ => Iff.rfl) (hserved.commit hc) h.counted rfl
  case ret =>
    have hmem : t ∈ s.queue.replies.map fun r => r.writer.owner := by
      obtain ⟨r, hr, howner, -⟩ := hreplied
      exact List.mem_map.mpr ⟨r, hr, howner⟩
    refine h.quiet_phase (t := t) rfl rfl rfl ?_ ?_ (hserved.frame s.enc ?_ ?_ ?_) h.counted rfl
    · simp [hphase]
    · simp [hphase]
    · simp [Phase.Called]
    · exact fun _ _ => Or.inr hmem
    · exact fun _ => hmem
  case finish =>
    have hmem := hserved.answered t (by simp [hphase, Phase.Answered])
    refine h.quiet_phase (t := t) rfl rfl rfl ?_ ?_ (hserved.frame enc ?_ ?_ ?_)
      (h.counted.step henc) ((Sys.posted_length_le henc).2 (by simp))
    · simp [hphase]
    · simp [hphase]
    · simp [Phase.Called]
    · exact fun _ _ => Or.inr hmem
    · exact fun _ => hmem
  case post =>
    have hmem := hserved.answered t (by simp [hphase, Phase.Answered])
    refine ⟨?_, ?_, hserved.frame enc ?_ ?_ ?_, h.counted.step henc, ?_⟩
    · rw [callsOf_other acts rfl]
      exact Once.move (P := fun p => p ≠ .before) h.starts (by simp [hphase])
    · rw [callsOf_append]
      exact Once.join (P := fun p => p = .finished) h.posts (by simp [hphase]) rfl
    · simp [Phase.Called]
    · exact fun _ _ => Or.inr hmem
    · exact fun _ => hmem
    · rw [callsOf_append, List.length_append]
      exact (Sys.posted_length_le henc).1.trans (Nat.add_le_add_right h.posted 1)

theorem callsOf_length_le (which : Move → Option Nat) (acts : List Move) (a : Move) :
    (callsOf which acts).length ≤ (callsOf which (acts ++ [a])).length := by
  rw [callsOf_append, List.length_append]
  exact Nat.le_add_right _ _

theorem runs_sound {jobs : Nat → Job} {acts : List Move} {s : World}
    (hrun : runs (World.step jobs) World.init acts = some s)
    (hsmall : (callsOf Move.started acts).length < 2 ^ 31) : Sound jobs acts s := by
  refine runs_induction
    (P := fun acts s => (callsOf Move.started acts).length < 2 ^ 31 → Sound jobs acts s)
    (fun _ => Sound.init jobs) ?_ acts s hrun hsmall
  intro acts u a t _ ih hstep hsmall
  have hsmall' := (callsOf_length_le Move.started acts a).trans_lt hsmall
  exact (ih hsmall').step hsmall' hstep

end Lpad
