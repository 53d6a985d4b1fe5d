import Lpad.Enclave.Checker

/-!
# The checker under an untrusted host

All four ecalls of `Enclave/cc.cpp`: `enclave_preput` and `enclave_postput` around
a write, `enclave_preget` and `enclave_postget` around a read. A read remembers in
`preget` the number the history stands at (`tr`), and `postget` hands the number
of the write that the read returned (`tw`) to `nmt`.

`Host` is any number of threads of the host making these calls in any order and
with any arguments. As in `Sys`, a call is a few atomic steps: reading the clock,
drawing an id, one section under `g_mutex`.
-/

namespace Lpad

/-! ## What `enclave_postget` computes -/

/-- `class RH {}` of `op.h`. -/
structure RH where
deriving DecidableEq, Repr

/-- `setTr(Timestamp tr)`: the number shares the member of `setTs`. -/
def Op.setTr (op : Op) (tr : Nat) : Op := { op with ts := uint32 tr }

/-- The loops of `lpad_verify` from round `i` on; `pf` is what is left of the
array. `none` when the call does not return: the test `i<pf[i]` of the inner loop
is about nothing that a round of it changes. -/
def lpadVerifyLoop : Nat → List Int → Option Bool
  | _, [] => some true
  | i, p :: pf => if (i : Int) < p then none else lpadVerifyLoop (i + 1) pf

/-- `lpad_verify` on the first `pf_index` words of `pf`; `rh` has nothing to read. -/
def lpadVerify (_ : RH) (pf : List Int) : Option Bool := lpadVerifyLoop 0 pf

/-- `nmt`: whether `findRH` dereferences the `end()` of `rh_list`, and the answer. -/
def nmt (tw tr : Nat) (rhList : StdMap RH) (pf : List Int) : Bool × Option Bool :=
  if tr < tw then (false, some true)
  else ((rhList.find tr).isNone, lpadVerify ((rhList.find tr).getD ⟨⟩) pf)

/-- `lpad_verify` has no `return false`. -/
theorem lpadVerify_ne_false (rh : RH) (pf : List Int) : lpadVerify rh pf ≠ some false := by
  have hloop : ∀ (pf : List Int) (i : Nat), lpadVerifyLoop i pf ≠ some false := by
    intro pf
    induction pf with
    | nil => simp [lpadVerifyLoop]
    | cons p pf ih =>
      intro i
      unfold lpadVerifyLoop
      split
      · simp
      · exact ih (i + 1)
  exact hloop pf 0

theorem nmt_ne_false (tw tr : Nat) (rhList : StdMap RH) (pf : List Int) :
    (nmt tw tr rhList pf).2 ≠ some false := by
  unfold nmt
  split
  · simp
  · exact lpadVerify_ne_false ((rhList.find tr).getD ⟨⟩) pf

/-! ## Calls -/

/-- What an operation is. -/
inductive Kind where
  | put
  | get
deriving DecidableEq, Repr

/-- Where a thread of the host stands. -/
inductive HostCall where
  | idle
  /-- In `enclave_preput` or `enclave_preget`, start time taken. -/
  | preTimed (kind : Kind) (time : Nat)
  /-- The same, id drawn, `g_mutex` not yet taken. -/
  | preIdent (kind : Kind) (time id : Nat)
  /-- In `enclave_postput`, end time taken, `g_mutex` not yet taken. -/
  | postput (id seq time : Nat)
  /-- In `enclave_postget`, end time taken (and not used again). -/
  | postget (id tw : Nat) (pf : List Int)
  /-- In `enclave_postget`, inside a `lpad_verify` that does not return. -/
  | verifying
deriving DecidableEq, Repr

/-- One atomic step of thread `t`. -/
inductive HostMove where
  | preTime (t : Nat) (kind : Kind)
  | preId (t : Nat)
  | preLock (t : Nat)
  | postputTime (t id seq : Nat)
  | postgetTime (t id tw : Nat) (pf : List Int)
  | postLock (t : Nat)
deriving DecidableEq, Repr

/-- The enclave with the threads of the host. `rhList` is the private member of
`history`. The last fields only record: the ids handed back and not used yet, the
ops that entered `completed_list` with their keys, the writes merged, whether
`findRH` has dereferenced an `end()` (`RH` is empty, so that nothing is read), and
whether a section has dereferenced the `end()` of `pending_list`, after which
nothing is known. -/
structure Host where
  enc : Checker
  rhList : StdMap RH
  calls : Nat → HostCall
  returned : List (Kind × Nat)
  filed : List (Nat × Op)
  merged : List Op
  missed : Bool
  dangling : Bool

def Host.init : Host where
  enc := Checker.init
  rhList := []
  calls := fun _ => .idle
  returned := []
  filed := []
  merged := []
  missed := false
  dangling := false

def Host.setCall (s : Host) (t : Nat) (call : HostCall) : Host :=
  { s with calls := Function.update s.calls t call }

/-- The `g_mutex` section of `enclave_preget`. -/
def Checker.pregetSection (c : Checker) (id time : Nat) : Checker :=
  { c with
    pendingList := c.pendingList.insert id ((Op.new id time).setTr c.history.latest.ts) }

/-- The `g_mutex` section of `enclave_preput` or `enclave_preget`. -/
def Checker.preSection (c : Checker) (kind : Kind) (id time : Nat) : Checker :=
  match kind with
  | .put => c.preputSection id time
  | .get => c.pregetSection id time

/-- The `g_mutex` section of `enclave_postget` after the lookup of `id`, with the
answer of `nmt`: only `true` leads to the unlock. -/
def Checker.postgetSection (c : Checker) (id : Nat) (answer : Option Bool) : Checker :=
  { c with
    pendingList := c.pendingList.erase id
    gMutex := decide (answer ≠ some true) }

/-- Thread `t` runs the section of `enclave_postput` on the op found under `id`. -/
def Host.postput (s : Host) (t id seq time : Nat) (op : Op) : Host :=
  let op := op.posted seq time
  let acl := (truncate (s.enc.filed op seq) s.enc.history).1
  { s with
    enc := s.enc.postputSection id seq op
    calls := Function.update s.calls t .idle
    filed := if (s.enc.completedList.find seq).isNone then (seq, op) :: s.filed else s.filed
    merged := s.merged ++ if (tryMerge s.enc.history acl).isSome then acl else [] }

/-- Thread `t` runs the section of `enclave_postget` on the op found under `id`;
`op.ts` is its `tr` when `id` comes from `enclave_preget`, and was never set when
it comes from `enclave_preput`. -/
def Host.postget (s : Host) (t id tw : Nat) (pf : List Int) (op : Op) : Host :=
  let answer := nmt (uint32 tw) op.ts s.rhList pf
  { s with
    enc := s.enc.postgetSection id answer.2
    calls := Function.update s.calls t (if answer.2 = none then .verifying else .idle)
    missed := s.missed || answer.1 }

/-- One step; `none` when the step cannot be taken. The sections wait for
`g_mutex`. -/
def Host.step (s : Host) (m : HostMove) : Option Host :=
  if s.dangling then none else
  match m with
  | .preTime t kind =>
    match s.calls t with
    | .idle =>
      let enc := s.enc.getTime
      some ({ s with enc }.setCall t (.preTimed kind enc.gTimer))
    | _ => none
  | .preId t =>
    match s.calls t with
    | .preTimed kind time =>
      let enc := s.enc.allocId
      some ({ s with enc }.setCall t (.preIdent kind time enc.gId))
    | _ => none
  | .preLock t =>
    match s.calls t with
    | .preIdent kind time id =>
      if s.enc.gMutex then none
      else
        let enc := s.enc.preSection kind id time
        some ({ s with enc, returned := (kind, id) :: s.returned }.setCall t .idle)
    | _ => none
  | .postputTime t id seq =>
    match s.calls t with
    | .idle =>
      let enc := s.enc.getTime
      let returned := s.returned.erase (.put, id)
      some ({ s with enc, returned }.setCall t (.postput id seq enc.gTimer))
    | _ => none
  | .postgetTime t id tw pf =>
    match s.calls t with
    | .idle =>
      let enc := s.enc.getTime
      let returned := s.returned.erase (.get, id)
      some ({ s with enc, returned }.setCall t (.postget id tw pf))
    | _ => none
  | .postLock t =>
    if s.enc.gMutex then none
    else
      match s.calls t with
      | .postput id seq time =>
        match s.enc.pendingList.find id with
        | none => some { s with dangling := true }
        | some op => some (s.postput t id seq time op)
      | .postget id tw pf =>
        match s.enc.pendingList.find id with
        | none => some { s with dangling := true }
        | some op => some (s.postget t id tw pf op)
      | _ => none

/-- One step of a host that ends an operation by the right call, with the id that
the operation's first call has returned, and only once. -/
def Host.ownStep (s : Host) (m : HostMove) : Option Host :=
  match m with
  | .postputTime _ id _ => if (.put, id) ∈ s.returned then s.step m else none
  | .postgetTime _ id _ _ => if (.get, id) ∈ s.returned then s.step m else none
  | _ => s.step m

/-! ## What a step can do -/

/-- The id a call of `enclave_preput` or `enclave_preget` has drawn. -/
def HostCall.draws : HostCall → Option Nat
  | .preIdent _ _ id => some id
  | _ => none

/-- The id a call of `enclave_postput` or `enclave_postget` is about to look up. -/
def HostCall.posts : HostCall → Option Nat
  | .postput id _ _ => some id
  | .postget id _ _ => some id
  | _ => none

/-- **Inversion of a step**: its guard and its effect, for each kind of step. -/
inductive Host.Stepped (s : Host) : HostMove → Host → Prop where
  | preTime {t : Nat} {kind : Kind} (idle : s.calls t = .idle) :
      Stepped s (.preTime t kind)
        ({ s with enc := s.enc.getTime }.setCall t (.preTimed kind s.enc.getTime.gTimer))
  | preId {t time : Nat} {kind : Kind} (timed : s.calls t = .preTimed kind time) :
      Stepped s (.preId t)
        ({ s with enc := s.enc.allocId }.setCall t (.preIdent kind time s.enc.allocId.gId))
  | preLock {t time id : Nat} {kind : Kind} (ident : s.calls t = .preIdent kind time id)
      (free : s.enc.gMutex = false) :
      Stepped s (.preLock t)
        ({ s with
            enc := s.enc.preSection kind id time
            returned := (kind, id) :: s.returned }.setCall t .idle)
  | postputTime {t id seq : Nat} (idle : s.calls t = .idle) :
      Stepped s (.postputTime t id seq)
        ({ s with
            enc := s.enc.getTime
            returned := s.returned.erase (.put, id) }.setCall t
              (.postput id seq s.enc.getTime.gTimer))
  | postgetTime {t id tw : Nat} {pf : List Int} (idle : s.calls t = .idle) :
      Stepped s (.postgetTime t id tw pf)
        ({ s with
            enc := s.enc.getTime
            returned := s.returned.erase (.get, id) }.setCall t (.postget id tw pf))
  | dangle {t id : Nat} (posts : (s.calls t).posts = some id) (free : s.enc.gMutex = false)
      (missing : s.enc.pendingList.find id = none) :
      Stepped s (.postLock t) { s with dangling := true }
  | postput {t id seq time : Nat} {op : Op} (timed : s.calls t = .postput id seq time)
      (free : s.enc.gMutex = false) (found : s.enc.pendingList.find id = some op) :
      Stepped s (.postLock t) (s.postput t id seq time op)
  | postget {t id tw : Nat} {pf : List Int} {op : Op} (timed : s.calls t = .postget id tw pf)
      (free : s.enc.gMutex = false) (found : s.enc.pendingList.find id = some op) :
      Stepped s (.postLock t) (s.postget t id tw pf op)

theorem Host.step_stepped {s s' : Host} {m : HostMove} (h : s.step m = some s') :
    s.dangling = false ∧ s.Stepped m s' := by
  unfold Host.step at h
  split at h
  · simp at h
  · rename_i hd
    refine ⟨by simpa using hd, ?_⟩
    cases m with
    | preTime t kind =>
      simp only at h
      split at h
      · rename_i hcall
        cases h
        exact .preTime hcall
      · simp at h
    | preId t =>
      simp only at h
      split at h
      · rename_i kind time hcall
        cases h
        exact .preId hcall
      · simp at h
    | preLock t =>
      simp only at h
      split at h
      · rename_i kind time id hcall
        split at h
        · simp at h
        · rename_i hfree
          cases h
          exact .preLock hcall (by simpa using hfree)
      · simp at h
    | postputTime t id seq =>
      simp only at h
      split at h
      · rename_i hcall
        cases h
        exact .postputTime hcall
      · simp at h
    | postgetTime t id tw pf =>
      simp only at h
      split at h
      · rename_i hcall
        cases h
        exact .postgetTime hcall
      · simp at h
    | postLock t =>
      simp only at h
      split at h
      · simp at h
      · rename_i hfree
        have hfree : s.enc.gMutex = false := by simpa using hfree
        split at h
        · rename_i id seq time hcall
          split at h
          · rename_i hmiss
            cases h
            exact .dangle (by rw [hcall]; rfl) hfree hmiss
          · rename_i op hfound
            cases h
            exact .postput hcall hfree hfound
        · rename_i id tw pf hcall
          split at h
          · rename_i hmiss
            cases h
            exact .dangle (by rw [hcall]; rfl) hfree hmiss
          · rename_i op hfound
            cases h
            exact .postget hcall hfree hfound
        · simp at h

theorem Host.Stepped.step {s s' : Host} {m : HostMove} (hd : s.dangling = false)
    (h : s.Stepped m s') : s.step m = some s' := by
  cases h with
  | preTime idle => simp [Host.step, hd, idle]
  | preId timed => simp [Host.step, hd, timed]
  | preLock ident free => simp [Host.step, hd, ident, free]
  | postputTime idle => simp [Host.step, hd, idle]
  | postgetTime idle => simp [Host.step, hd, idle]
  | @dangle t id posts free missing =>
    cases hcall : s.calls t <;> simp only [hcall, HostCall.posts] at posts <;>
      cases posts <;> simp [Host.step, hd, hcall, free, missing]
  | postput timed free found => simp [Host.step, hd, timed, free, found]
  | postget timed free found => simp [Host.step, hd, timed, free, found]

/-- A host that keeps to its own ids takes ordinary steps. -/
theorem Host.ownStep_step {s s' : Host} {m : HostMove} (h : s.ownStep m = some s') :
    s.step m = some s' := by
  unfold Host.ownStep at h
  split at h
  · split at h
    · exact h
    · simp at h
  · split at h
    · exact h
    · simp at h
  · exact h

theorem Host.ownStep_put_returned {s s' : Host} {t id seq : Nat}
    (h : s.ownStep (.postputTime t id seq) = some s') : (.put, id) ∈ s.returned := by
  simp only [Host.ownStep] at h
  split at h
  · assumption
  · simp at h

theorem Host.ownStep_get_returned {s s' : Host} {t id tw : Nat} {pf : List Int}
    (h : s.ownStep (.postgetTime t id tw pf) = some s') : (.get, id) ∈ s.returned := by
  simp only [Host.ownStep] at h
  split at h
  · assumption
  · simp at h

end Lpad
