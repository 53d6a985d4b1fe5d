import Lpad.Base.Run
import Lpad.DB.WriteReports

/-!
# Group commit and one-by-one writing

The queue of writers over time: callers arrive, the one in front builds a group
(`lead`) and commits it (`commit`), and others may arrive at any point. Without I/O
errors the outcome does not depend on how the callers are grouped. It is what writing
the batches one by one in the order of arrival gives (`WriteState.writeAlone`), except
that the log has fewer and longer records.
-/

namespace Lpad

/-! ## Runs of the queue -/

inductive QueueEvent where
  /-- a caller of `Write` or `SUWrite` pushes its `Writer` -/
  | arrive (w : Writer)
  /-- the caller in front comes back from `MakeRoomForWrite` -/
  | lead (room : Status)
  /-- it has logged its group -/
  | commit (io : LogIO)

def Queue.step (q : Queue) : QueueEvent → Option Queue
  | .arrive w => some (q.arrive w)
  | .lead room => q.lead room
  | .commit io => q.commit io

/-- No I/O error. -/
def QueueEvent.Succeeds : QueueEvent → Prop
  | .arrive _ => True
  | .lead room => room = .ok
  | .commit io => io = ⟨.ok, .ok⟩

/-- The callers that arrive, in their order. -/
def arrived (events : List QueueEvent) : List Writer :=
  events.filterMap fun
    | .arrive w => some w
    | _ => none

theorem arrived_append (events : List QueueEvent) (e : QueueEvent) :
    arrived (events ++ [e]) = arrived events ++ arrived [e] := List.filterMap_append

/-! ## One by one -/

/-- A caller writes its batch on its own, without I/O error. -/
def WriteState.writeAlone (db : WriteState) (w : Writer) : WriteState :=
  match w.batch with
  | none => db
  | some b => (db.commit b.rep w.sync ⟨.ok, .ok⟩).1

theorem WriteState.writeAlone_eq {db : WriteState} {w : Writer}
    (hfit : db.lastSequence + w.ops.length ≤ kMaxSequenceNumber) :
    (db.writeAlone w).lastSequence = db.lastSequence + w.ops.length ∧
      (db.writeAlone w).mem = db.mem ++ numbered (db.lastSequence + 1) w.ops := by
  unfold writeAlone
  cases hbatch : w.batch with
  | none =>
    have hops : w.ops = [] := by simp [Writer.ops, hbatch]
    rw [hops]
    exact ⟨rfl, (List.append_nil _).symm⟩
  | some b =>
    have hops : w.ops = b.ops := by simp [Writer.ops, hbatch]
    have hmax : kMaxSequenceNumber < 2 ^ 63 := by decide
    rw [hops] at hfit ⊢
    dsimp only
    rw [commit_ok b.encodes (by omega)]
    exact ⟨rfl, rfl⟩

/-- **Writing one by one** numbers all operations through. -/
theorem WriteState.writeAlone_all : ∀ (ws : List Writer) (db : WriteState),
    db.lastSequence + entryCount ws ≤ kMaxSequenceNumber →
    (ws.foldl writeAlone db).lastSequence = db.lastSequence + entryCount ws ∧
      (ws.foldl writeAlone db).mem =
        db.mem ++ numbered (db.lastSequence + 1) (ws.flatMap Writer.ops)
  | [], db, _ => ⟨rfl, (List.append_nil _).symm⟩
  | w :: ws, db, hfit => by
    rw [entryCount_cons] at hfit ⊢
    obtain ⟨hlast, hmem⟩ := db.writeAlone_eq (w := w) (by omega)
    obtain ⟨hlast', hmem'⟩ := writeAlone_all ws (db.writeAlone w) (by omega)
    rw [List.foldl_cons, hlast', hmem', hlast, hmem, List.flatMap_cons, numbered_append,
      List.append_assoc]
    refine ⟨by omega, ?_⟩
    rw [Nat.add_right_comm]

/-! ## The caller in front -/

theorem groupLoop_sync (firstSync : Bool) (first : WriteBatch) (maxSize sequence : Nat) :
    ∀ (rest : List Writer) (size : Nat) (result : Option WriteBatch) (i : Nat),
      ∀ f ∈ (groupLoop firstSync first maxSize sequence rest size result i).1,
        f.writer.sync = true → firstSync = true
  | [], _, _, _, f, hf, _ => by cases hf
  | w :: rest, size, result, i, f, hf, hsync => by
    have ih := groupLoop_sync firstSync first maxSize sequence rest
    unfold groupLoop at hf
    split at hf
    · cases hf
    · rename_i hjoins
      have hw : w.sync = true → firstSync = true := by
        intro h
        rw [h] at hjoins
        simpa using hjoins
      split at hf
      · rcases List.mem_cons.mp hf with rfl | hf
        · exact hw hsync
        · exact ih _ _ _ f hf hsync
      · split at hf
        · cases hf
        · rcases List.mem_cons.mp hf with rfl | hf
          · exact hw hsync
          · exact ih _ _ _ f hf hsync

/-- The group that is being logged was built from the queue as it was then; callers may
have arrived since. -/
def Queue.Led (q : Queue) : Prop :=
  ∀ g, q.leading = some g → ∃ leader b rest more,
    q.writers = leader :: (rest ++ more) ∧ leader.batch = some b ∧
      g = buildBatchGroup leader b rest q.db.lastSequence

/-- What is known when the call in front commits: its group `g`, and the queue
behind the group. -/
structure Queue.Committing (q : Queue) (leader : Writer) (tail : List Writer) (g : Group) :
    Prop where
  leading : q.leading = some g
  writers : q.writers = g.members leader ++ tail
  encodes : g.updates.Encodes (g.ops leader)
  seq : ∀ j f, g.followers[j]? = some f → f.seq = q.db.lastSequence + (j + 1)
  sync : ∀ f ∈ g.followers, f.writer.sync = true → leader.sync = true

theorem Queue.Led.committing {q : Queue} (h : q.Led) {g : Group} (hg : q.leading = some g) :
    ∃ leader tail, q.Committing leader tail g := by
  obtain ⟨leader, b, rest, more, hw, hb, rfl⟩ := h g hg
  obtain ⟨behind, hbehind⟩ := buildBatchGroup_prefix leader b rest q.db.lastSequence
  refine ⟨leader, behind ++ more, hg, ?_, buildBatchGroup_encodes hb rest _,
    fun j f hf => buildBatchGroup_seq hf, groupLoop_sync _ _ _ _ _ _ _ _⟩
  rw [hw, Group.members, List.cons_append, ← List.append_assoc, hbehind]

theorem Queue.Committing.commit {q q' : Queue} {leader : Writer} {tail : List Writer} {g : Group}
    (h : q.Committing leader tail g)
    (hfit : q.db.lastSequence + 1 + (g.ops leader).length < 2 ^ 64)
    (hstep : q.commit ⟨.ok, .ok⟩ = some q') :
    q' = q.served leader (g.followers.map Follower.writer ++ tail) g := by
  rw [Queue.commit_ok h.leading h.writers h.encodes hfit] at hstep
  exact (Option.some.inj hstep).symm

theorem Queue.served_writers (q : Queue) (leader : Writer) (tail : List Writer) (g : Group) :
    (q.served leader (g.followers.map Follower.writer ++ tail) g).writers = tail := by
  show (g.followers.map Follower.writer ++ tail).drop g.followers.length = tail
  exact List.drop_left' (by simp)

/-- What a successful `lead` does: a caller without a batch leaves, the others build a
group. -/
theorem Queue.lead_cases {q q' : Queue} (hbg : q.db.bgError = .ok)
    (hstep : q.lead .ok = some q') : q.leading = none ∧ ∃ w rest, q.writers = w :: rest ∧
      (w.batch = none ∧ q' = { q with writers := rest, replies := q.replies ++ [⟨w, .ok, none⟩] } ∨
        ∃ b, w.batch = some b ∧
          q' = { q with leading := some (buildBatchGroup w b rest q.db.lastSequence) }) := by
  unfold lead at hstep
  split at hstep
  · rename_i w rest hleading hwriters
    refine ⟨hleading, w, rest, hwriters, ?_⟩
    rw [hbg] at hstep
    cases hbatch : w.batch with
    | none =>
      simp only [hbatch, Status.isOk, if_true] at hstep
      exact Or.inl ⟨rfl, (Option.some.inj hstep).symm⟩
    | some b =>
      simp only [hbatch, Status.isOk, if_true] at hstep
      exact Or.inr ⟨b, rfl, (Option.some.inj hstep).symm⟩
  · cases hstep

/-- The steps keep what is known about the group. -/
theorem Queue.Led.step {q q' : Queue} (h : q.Led) (hbg : q.db.bgError = .ok) {e : QueueEvent}
    (hok : e.Succeeds) (hstep : q.step e = some q') : q'.Led := by
  cases e with
  | arrive w =>
    obtain rfl := Option.some.inj hstep
    intro g hg
    obtain ⟨leader, b, rest, more, hwriters, hb, hgroup⟩ := h g hg
    refine ⟨leader, b, rest, more ++ [w], ?_, hb, hgroup⟩
    show q.writers ++ [w] = _
    rw [hwriters, List.cons_append, List.append_assoc]
  | lead room =>
    obtain rfl : room = .ok := hok
    obtain ⟨hleading, w, rest, hwriters, ⟨-, rfl⟩ | ⟨b, hb, rfl⟩⟩ := Queue.lead_cases hbg hstep
    · intro g hg
      rw [hleading] at hg
      cases hg
    · intro g hg
      obtain rfl := Option.some.inj hg
      refine ⟨w, b, rest, [], ?_, hb, rfl⟩
      rw [List.append_nil]
      exact hwriters
  | commit io =>
    intro g hg
    simp only [Queue.step, Queue.commit] at hstep
    split at hstep
    · obtain rfl := Option.some.inj hstep
      cases hg
    · cases hstep

/-! ## What has been served -/

/-- The entries that replaying the records of a log gives. -/
def logEntries (records : List Bytes) : MemTable :=
  records.foldl (fun mem record => (insertInto (WriteBatch.setContents record) mem).1) []

/-- From `q₀` to `q` the callers in `served` have been popped, in this order: their
operations are in the memtable and in the log, numbered through, and each of them has
got its status. -/
structure Queue.HasServed (q₀ q : Queue) (served : List Writer) : Prop where
  lastSequence : q.db.lastSequence = q₀.db.lastSequence + entryCount served
  mem : q.db.mem =
    q₀.db.mem ++ numbered (q₀.db.lastSequence + 1) (served.flatMap Writer.ops)
  log : ∃ records, q.db.log = q₀.db.log ++ records ∧
    logEntries records = numbered (q₀.db.lastSequence + 1) (served.flatMap Writer.ops)
  bgError : q.db.bgError = .ok
  replies : ∃ new, q.replies = q₀.replies ++ new ∧ new.map Reply.writer = served ∧
    ∀ r ∈ new, r.status = .ok

theorem Queue.HasServed.init {q : Queue} (hbg : q.db.bgError = .ok) : q.HasServed q [] where
  lastSequence := rfl
  mem := (List.append_nil _).symm
  log := ⟨[], (List.append_nil _).symm, rfl⟩
  bgError := hbg
  replies := ⟨[], (List.append_nil _).symm, rfl, fun _ hr => nomatch hr⟩

/-- A caller without a batch is popped alone. -/
theorem Queue.HasServed.leave {q₀ q : Queue} {served : List Writer} (h : q₀.HasServed q served)
    {w : Writer} (hnull : w.batch = none) (rest : List Writer) :
    q₀.HasServed { q with writers := rest, replies := q.replies ++ [⟨w, .ok, none⟩] }
      (served ++ [w]) := by
  have hops : w.ops = [] := by
    unfold Writer.ops
    rw [hnull]
  have hall : (served ++ [w]).flatMap Writer.ops = served.flatMap Writer.ops := by
    rw [List.flatMap_append, List.flatMap_singleton, hops, List.append_nil]
  have hcount : entryCount (served ++ [w]) = entryCount served := congrArg List.length hall
  obtain ⟨new, hnew, hwriters, hstatus⟩ := h.replies
  constructor
  case lastSequence =>
    rw [hcount]
    exact h.lastSequence
  case mem =>
    rw [hall]
    exact h.mem
  case log =>
    rw [hall]
    exact h.log
  case bgError => exact h.bgError
  case replies =>
    refine ⟨new ++ [⟨w, .ok, none⟩], ?_, ?_, ?_⟩
    · show q.replies ++ _ = _
      rw [hnew, List.append_assoc]
    · rw [List.map_append, hwriters]
      rfl
    · intro r hr
      rcases List.mem_append.mp hr with hr | hr
      · exact hstatus r hr
      · rw [List.mem_singleton.mp hr]

/-- A group is popped as a whole. -/
theorem Queue.HasServed.commit {q₀ q : Queue} {served : List Writer} (h : q₀.HasServed q served)
    {leader : Writer} {tail : List Writer} {g : Group} (hc : q.Committing leader tail g)
    (hfit : q.db.lastSequence + (g.ops leader).length ≤ kMaxSequenceNumber) :
    q₀.HasServed (q.served leader (g.followers.map Follower.writer ++ tail) g)
      (served ++ g.members leader) := by
  have hmax : kMaxSequenceNumber < 2 ^ 63 := by decide
  have hall : (served ++ g.members leader).flatMap Writer.ops =
      served.flatMap Writer.ops ++ g.ops leader := List.flatMap_append
  have hnumbered : numbered (q₀.db.lastSequence + 1)
      ((served ++ g.members leader).flatMap Writer.ops) =
      numbered (q₀.db.lastSequence + 1) (served.flatMap Writer.ops) ++
        numbered (q.db.lastSequence + 1) (g.ops leader) := by
    rw [hall, numbered_append, h.lastSequence, Nat.add_right_comm]
    rfl
  constructor
  case lastSequence =>
    show q.db.lastSequence + (g.ops leader).length = _
    rw [h.lastSequence, entryCount_append, Nat.add_assoc]
    rfl
  case mem =>
    show q.db.mem ++ numbered (q.db.lastSequence + 1) (g.ops leader) = _
    rw [hnumbered, h.mem, List.append_assoc]
  case log =>
    obtain ⟨records, hlog, hentries⟩ := h.log
    refine ⟨records ++ [(g.updates.setSequence (q.db.lastSequence + 1)).contents], ?_, ?_⟩
    · show q.db.log ++ _ = _
      rw [hlog, List.append_assoc]
    · rw [hnumbered, ← hentries, logEntries, List.foldl_append, List.foldl_cons, List.foldl_nil,
        insertInto_contents hc.encodes (by omega)]
      rfl
  case bgError => exact h.bgError
  case replies =>
    obtain ⟨new, hnew, hwriters, hstatus⟩ := h.replies
    refine ⟨new ++ g.replies leader .ok (q.db.lastSequence + (g.ops leader).length), ?_, ?_, ?_⟩
    · show q.replies ++ _ = _
      rw [hnew, List.append_assoc]
    · rw [List.map_append, hwriters, g.replies_writer]
    · intro r hr
      rcases List.mem_append.mp hr with hr | hr
      · exact hstatus r hr
      · rcases List.mem_cons.mp hr with rfl | hr
        · rfl
        · obtain ⟨f, -, rfl⟩ := List.mem_map.mp hr
          rfl

/-! ## Along a run -/

/-- The callers so far are those served and those in the queue. -/
structure Queue.Serving (q₀ : Queue) (callers : List Writer) (q : Queue) : Prop where
  led : q.Led
  served : ∃ served, q₀.HasServed q served ∧ callers = served ++ q.writers

theorem Queue.Serving.bgError {q₀ q : Queue} {callers : List Writer}
    (h : q₀.Serving callers q) : q.db.bgError = .ok := by
  obtain ⟨_, hserved, -⟩ := h.served
  exact hserved.bgError

/-- **One step** of the queue. -/
theorem Queue.Serving.step {q₀ q q' : Queue} {callers : List Writer} (h : q₀.Serving callers q)
    {e : QueueEvent} (hok : e.Succeeds) (hstep : q.step e = some q')
    (hfit : q₀.db.lastSequence + entryCount callers ≤ kMaxSequenceNumber) :
    q₀.Serving (callers ++ arrived [e]) q' := by
  refine ⟨h.led.step h.bgError hok hstep, ?_⟩
  obtain ⟨served, hserved, rfl⟩ := h.served
  cases e with
  | arrive w =>
    obtain rfl := Option.some.inj hstep
    refine ⟨served, ⟨hserved.lastSequence, hserved.mem, hserved.log, hserved.bgError,
      hserved.replies⟩, ?_⟩
    rw [List.append_assoc]
    rfl
  | lead room =>
    obtain rfl : room = .ok := hok
    rw [show arrived [.lead .ok] = [] from rfl, List.append_nil]
    obtain ⟨-, w, rest, hwriters, ⟨hnull, rfl⟩ | ⟨b, -, rfl⟩⟩ :=
      Queue.lead_cases hserved.bgError hstep
    · refine ⟨served ++ [w], hserved.leave hnull rest, ?_⟩
      rw [hwriters, List.append_assoc]
      rfl
    · exact ⟨served, ⟨hserved.lastSequence, hserved.mem, hserved.log, hserved.bgError,
        hserved.replies⟩, rfl⟩
  | commit io =>
    obtain rfl : io = ⟨.ok, .ok⟩ := hok
    rw [show arrived [.commit ⟨.ok, .ok⟩] = [] from rfl, List.append_nil]
    cases hg : q.leading with
    | none =>
      simp [Queue.step, Queue.commit, hg] at hstep
    | some g =>
      obtain ⟨leader, tail, hc⟩ := h.led.committing hg
      have hsize : q.db.lastSequence + (g.ops leader).length ≤ kMaxSequenceNumber := by
        refine le_trans ?_ hfit
        rw [hserved.lastSequence, entryCount_append, hc.writers, entryCount_append]
        show _ + _ + entryCount (g.members leader) ≤ _
        omega
      have hmax : kMaxSequenceNumber < 2 ^ 63 := by decide
      obtain rfl := hc.commit (by omega) hstep
      refine ⟨served ++ g.members leader, hserved.commit hc hsize, ?_⟩
      rw [Queue.served_writers, hc.writers, List.append_assoc]

theorem Queue.serving {q q' : Queue} {events : List QueueEvent} (hidle : q.leading = none)
    (hbg : q.db.bgError = .ok) (hok : ∀ e ∈ events, e.Succeeds)
    (hrun : runs Queue.step q events = some q')
    (hfit : q.db.lastSequence + entryCount (q.writers ++ arrived events) ≤ kMaxSequenceNumber) :
    q.Serving (q.writers ++ arrived events) q' := by
  refine runs_induction (P := fun events q' => (∀ e ∈ events, e.Succeeds) →
    q.db.lastSequence + entryCount (q.writers ++ arrived events) ≤ kMaxSequenceNumber →
      q.Serving (q.writers ++ arrived events) q') ?_ ?_ events q' hrun hok hfit
  · intro _ _
    refine ⟨fun g hg => ?_, [], HasServed.init hbg, List.append_nil _⟩
    rw [hidle] at hg
    cases hg
  · intro events u e q' _ ih hstep hok hfit
    rw [arrived_append, ← List.append_assoc] at hfit ⊢
    have hfit' : q.db.lastSequence + entryCount (q.writers ++ arrived events) ≤
        kMaxSequenceNumber := by
      rw [entryCount_append] at hfit
      omega
    have hserving := ih (fun e he => hok e (List.mem_append_left _ he)) hfit'
    exact hserving.step (hok e (List.mem_append_right _ (List.mem_singleton_self e))) hstep hfit'

/-- **Group commit equals one-by-one writing.** Any queue of callers, with any arrivals in
between, processed without I/O error until it is empty. The memtable and the last
sequence number are those of writing the batches one by one. The operations of the
callers in the order of arrival are numbered on from the last sequence number, in the
memtable and in the new records of the log. Every caller is popped once and gets an OK.
And in every state on the way the group that is being committed has a caller with `sync`
only if its leader has. -/
theorem group_commit_eq_one_by_one {q q' : Queue} {events : List QueueEvent}
    (hidle : q.leading = none) (hbg : q.db.bgError = .ok) (hok : ∀ e ∈ events, e.Succeeds)
    (hrun : runs Queue.step q events = some q') (hempty : q'.writers = [])
    (hfit : q.db.lastSequence + entryCount (q.writers ++ arrived events) ≤ kMaxSequenceNumber) :
    let callers := q.writers ++ arrived events
    let ops := callers.flatMap Writer.ops
    q'.db.mem = (callers.foldl WriteState.writeAlone q.db).mem ∧
    q'.db.lastSequence = (callers.foldl WriteState.writeAlone q.db).lastSequence ∧
    q'.db.mem = q.db.mem ++ numbered (q.db.lastSequence + 1) ops ∧
    (∃ records, q'.db.log = q.db.log ++ records ∧
      logEntries records = numbered (q.db.lastSequence + 1) ops) ∧
    q'.db.lastSequence = q.db.lastSequence + ops.length ∧
    (∃ new, q'.replies = q.replies ++ new ∧ new.map Reply.writer = callers ∧
      ∀ r ∈ new, r.status = .ok) ∧
    (∀ done rest u g, events = done ++ rest → runs Queue.step q done = some u →
      u.leading = some g → ∃ leader tail, u.writers = g.members leader ++ tail ∧
        ∀ w ∈ g.members leader, w.sync = true → leader.sync = true) := by
  intro callers ops
  obtain ⟨served, hserved, hcallers⟩ := (Queue.serving hidle hbg hok hrun hfit).served
  rw [hempty, List.append_nil] at hcallers
  obtain ⟨hlast, hmem⟩ := WriteState.writeAlone_all callers q.db hfit
  subst hcallers
  refine ⟨hserved.mem.trans hmem.symm, hserved.lastSequence.trans hlast.symm, hserved.mem,
    hserved.log, hserved.lastSequence, hserved.replies, ?_⟩
  rintro done rest u g rfl hu hg
  have hfit' : q.db.lastSequence + entryCount (q.writers ++ arrived done) ≤
      kMaxSequenceNumber := by
    have hsplit : arrived (done ++ rest) = arrived done ++ arrived rest :=
      List.filterMap_append
    rw [hsplit, ← List.append_assoc, entryCount_append] at hfit
    omega
  have hserving := Queue.serving hidle hbg (fun e he => hok e (List.mem_append_left _ he)) hu hfit'
  obtain ⟨leader, tail, hc⟩ := hserving.led.committing hg
  refine ⟨leader, tail, hc.writers, fun w hw hsync => ?_⟩
  rcases List.mem_cons.mp hw with rfl | hw
  · exact hsync
  · obtain ⟨f, hf, rfl⟩ := List.mem_map.mp hw
    exact hc.sync f hf hsync

/-- Two callers that put one entry each and one between them without a batch are one group.
Another one arrives while the group is being logged. -/
def lateArrival : List QueueEvent :=
  [.arrive (singlePut 0 97 1), .arrive ⟨1, none, false, false⟩, .arrive (singlePut 2 99 3),
    .lead .ok, .arrive { singlePut 3 98 2 with sync := true }, .commit ⟨.ok, .ok⟩, .lead .ok,
    .commit ⟨.ok, .ok⟩]

theorem group_commit_eq_one_by_one_lateArrival :
    ∃ q', runs Queue.step Queue.init lateArrival = some q' ∧ q'.db.log.length = 2 ∧
      q'.db.mem = [⟨1, .kTypeValue, [97], [1]⟩, ⟨2, .kTypeValue, [99], [3]⟩,
        ⟨3, .kTypeValue, [98], [2]⟩] ∧
      q'.db.mem = ((arrived lateArrival).foldl WriteState.writeAlone WriteState.init).mem := by
  have hok : ∀ e ∈ lateArrival, e.Succeeds := by
    simp [lateArrival, QueueEvent.Succeeds]
  have hfit : Queue.init.db.lastSequence + entryCount (Queue.init.writers ++ arrived lateArrival) ≤
      kMaxSequenceNumber := by decide
  exact ⟨_, rfl, by decide, by decide, (group_commit_eq_one_by_one rfl rfl hok rfl rfl hfit).1⟩

end Lpad
