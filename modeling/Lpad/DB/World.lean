import Lpad.DB.WriteReports
import Lpad.Enclave.CheckerCount
import Lpad.Enclave.CheckerProgress

/-!
# Clients, database and enclave together

The way `db_bench.cpp` (`DoWrite`) uses the two: each call of `SUWrite` is preceded
by `enclave_preput` and followed by `enclave_postput` with the number that `SUWrite`
has returned. Any number of calls run at the same time, and everything else about
them is arbitrary: their batches, their sync flags, the order in which they take
their steps and with it the groups that form in the writer queue. There are no I/O
errors, and nothing else writes to the database.

A call is one agent: it calls `SUWrite` once. A client that writes several times is
several calls, one after the other.
-/

namespace Lpad

/-- The arguments of one call of `SUWrite`. -/
structure Job where
  batch : Batch
  sync : Bool

def Job.writer (j : Job) (t : Nat) : Writer := ⟨t, some j.batch, j.sync, true⟩

/-- How far a call has come. -/
inductive Phase where
  | before
  /-- In `enclave_preput`. -/
  | preput
  /-- `enclave_preput` has returned `id`. -/
  | ready (id : Nat)
  /-- In `SUWrite`. -/
  | waiting (id : Nat)
  /-- `SUWrite` has returned with `seq`. -/
  | returned (id seq : Nat)
  /-- In `enclave_postput`. -/
  | postput
  | finished
deriving DecidableEq, Repr

/-- A step of call `t`, or of the call in front of the writer queue. -/
inductive Move where
  | start (t : Nat)
  | ident (t : Nat)
  | enter (t : Nat)
  | call (t : Nat)
  | lead
  | commit
  | ret (t : Nat)
  | finish (t : Nat)
  | post (t : Nat)
deriving DecidableEq, Repr

structure World where
  enc : Sys
  queue : Queue
  phase : Nat → Phase

/-- A new database, and the enclave as it is loaded. -/
def World.init : World := ⟨Sys.init, Queue.init, fun _ => .before⟩

def World.setPhase (s : World) (t : Nat) (p : Phase) : World :=
  { s with phase := Function.update s.phase t p }

/-- One step, `none` when it cannot be taken. -/
def World.step (jobs : Nat → Job) (s : World) : Move → Option World
  | .start t =>
    match s.phase t with
    | .before => (s.enc.step (.preputTime t)).map fun enc => { s with enc }.setPhase t .preput
    | _ => none
  | .ident t =>
    match s.phase t with
    | .preput => (s.enc.step (.preputId t)).map fun enc => { s with enc }
    | _ => none
  | .enter t =>
    match s.phase t, s.enc.threads t with
    | .preput, .preputIdent _ id =>
      (s.enc.step (.preputLock t)).map fun enc => { s with enc }.setPhase t (.ready id)
    | _, _ => none
  | .call t =>
    match s.phase t with
    | .ready id =>
      let queue := s.queue.arrive ((jobs t).writer t)
      some ({ s with queue }.setPhase t (.waiting id))
    | _ => none
  | .lead => (s.queue.lead .ok).map fun queue => { s with queue }
  | .commit => (s.queue.commit ⟨.ok, .ok⟩).map fun queue => { s with queue }
  | .ret t =>
    match s.phase t, s.queue.replies.find? (fun r => decide (r.writer.owner = t)) with
    | .waiting id, some ⟨_, _, some n⟩ => some (s.setPhase t (.returned id n))
    | _, _ => none
  | .finish t =>
    match s.phase t with
    | .returned id n =>
      (s.enc.step (.postputTime t id n)).map fun enc => { s with enc }.setPhase t .postput
    | _ => none
  | .post t =>
    match s.phase t with
    | .postput =>
      (s.enc.step (.postputLock t)).map fun enc => { s with enc }.setPhase t .finished
    | _ => none

/-- The call `t` has been answered with the number `n`. -/
def World.Replied (s : World) (t n : Nat) : Prop :=
  ∃ r ∈ s.queue.replies, r.writer.owner = t ∧ r.seq = some n

/-- **Inversion of a step.** -/
inductive World.Stepped (jobs : Nat → Job) (s : World) : Move → World → Prop where
  | start {t : Nat} {enc : Sys} (phase : s.phase t = .before)
      (step : s.enc.step (.preputTime t) = some enc) :
      Stepped jobs s (.start t) ({ s with enc }.setPhase t .preput)
  | ident {t : Nat} {enc : Sys} (phase : s.phase t = .preput)
      (step : s.enc.step (.preputId t) = some enc) : Stepped jobs s (.ident t) { s with enc }
  | enter {t time id : Nat} {enc : Sys} (phase : s.phase t = .preput)
      (thread : s.enc.threads t = .preputIdent time id)
      (step : s.enc.step (.preputLock t) = some enc) :
      Stepped jobs s (.enter t) ({ s with enc }.setPhase t (.ready id))
  | call {t id : Nat} (phase : s.phase t = .ready id) :
      Stepped jobs s (.call t)
        ({ s with queue := s.queue.arrive ((jobs t).writer t) }.setPhase t (.waiting id))
  | lead {queue : Queue} (step : s.queue.lead .ok = some queue) :
      Stepped jobs s .lead { s with queue }
  | commit {queue : Queue} (step : s.queue.commit ⟨.ok, .ok⟩ = some queue) :
      Stepped jobs s .commit { s with queue }
  | ret {t id n : Nat} (phase : s.phase t = .waiting id) (replied : s.Replied t n) :
      Stepped jobs s (.ret t) (s.setPhase t (.returned id n))
  | finish {t id n : Nat} {enc : Sys} (phase : s.phase t = .returned id n)
      (step : s.enc.step (.postputTime t id n) = some enc) :
      Stepped jobs s (.finish t) ({ s with enc }.setPhase t .postput)
  | post {t : Nat} {enc : Sys} (phase : s.phase t = .postput)
      (step : s.enc.step (.postputLock t) = some enc) :
      Stepped jobs s (.post t) ({ s with enc }.setPhase t .finished)

theorem World.step_stepped {jobs : Nat → Job} {s s' : World} {a : Move}
    (h : s.step jobs a = some s') : s.Stepped jobs a s' := by
  cases a with
  | start t =>
    simp only [World.step] at h
    split at h
    · rename_i hp
      obtain ⟨enc, henc, rfl⟩ := Option.map_eq_some_iff.mp h
      exact .start hp henc
    · simp at h
  | ident t =>
    simp only [World.step] at h
    split at h
    · rename_i hp
      obtain ⟨enc, henc, rfl⟩ := Option.map_eq_some_iff.mp h
      exact .ident hp henc
    · simp at h
  | enter t =>
    simp only [World.step] at h
    split at h
    · rename_i hp hth
      obtain ⟨enc, henc, rfl⟩ := Option.map_eq_some_iff.mp h
      exact .enter hp hth henc
    · simp at h
  | call t =>
    simp only [World.step] at h
    split at h
    · rename_i hp
      cases h
      exact .call hp
    · simp at h
  | lead =>
    obtain ⟨queue, hq, rfl⟩ := Option.map_eq_some_iff.mp h
    exact .lead hq
  | commit =>
    obtain ⟨queue, hq, rfl⟩ := Option.map_eq_some_iff.mp h
    exact .commit hq
  | ret t =>
    simp only [World.step] at h
    split at h
    · rename_i id w st n hp hfind
      cases h
      have howner := List.find?_some hfind
      exact .ret hp ⟨_, List.mem_of_find?_eq_some hfind, of_decide_eq_true howner, rfl⟩
    · simp at h
  | finish t =>
    simp only [World.step] at h
    split at h
    · rename_i hp
      obtain ⟨enc, henc, rfl⟩ := Option.map_eq_some_iff.mp h
      exact .finish hp henc
    · simp at h
  | post t =>
    simp only [World.step] at h
    split at h
    · rename_i hp
      obtain ⟨enc, henc, rfl⟩ := Option.map_eq_some_iff.mp h
      exact .post hp henc
    · simp at h

end Lpad
