import Lpad.Base.Bytes
import Lpad.Base.StdMap
import Lpad.Base.Run
import Mathlib.Logic.Function.Basic

/-!
# The write history kept by the enclave

The put half of `Enclave/cc.cpp` with `Op` and `HistoryW` of `Enclave/op.h`. A
client brackets each write by `enclave_preput`, which hands out an operation id,
and `enclave_postput`, which carries the sequence number the database gave to the
write. Posted writes wait in `completed_list` until the numbers before theirs
have arrived; `truncate` then cuts the next gap-free run out of it, `check` looks
for pairs in real-time disorder and `try_merge` moves the run into `history`.

Each ecall is a few atomic steps: reading the clock, drawing an id (both under
mutexes of their own) and one section under `g_mutex`. `Sys` is any number of
client threads taking these steps in any order.

`Realtime`, `Opid` and `Timestamp` are `unsigned int`, while `completed_list` is
keyed by `unsigned long`.
-/

namespace Lpad

/-! ## Operations and the history -/

/-- `class Op`; `ts` is `ts_att`. -/
structure Op where
  id : Nat
  start : Nat
  end_ : Nat
  ts : Nat
deriving DecidableEq, Repr

/-- `Op(Opid id, Realtime s)`. The other fields stay unset; `enclave_postput`
sets both before anything reads them. -/
def Op.new (id s : Nat) : Op := { id, start := s, end_ := 0, ts := 0 }

def Op.setEnd (op : Op) (time : Nat) : Op := { op with end_ := time }

/-- `setTs(Timestamp ts)`, called with an `unsigned long`. -/
def Op.setTs (op : Op) (seq : Nat) : Op := { op with ts := uint32 seq }

/-- `class HistoryW`: only the latest merged write is kept. -/
structure HistoryW where
  current : Op
deriving DecidableEq, Repr

def HistoryW.init : HistoryW := ⟨{ id := 0, start := 0, end_ := 0, ts := 0 }⟩

def HistoryW.latest (his : HistoryW) : Op := his.current

def HistoryW.update (_ : HistoryW) (op : Op) : HistoryW := ⟨op⟩

/-- The `while` loop of `truncate`. Every round erases an entry, so as many rounds
as there are entries are enough. -/
def truncateLoop : Nat → StdMap Op → Nat → List Op × StdMap Op
  | 0, comp, _ => ([], comp)
  | fuel + 1, comp, cur =>
    match comp.find cur with
    | none => ([], comp)
    | some op =>
      let rest := truncateLoop fuel (StdMap.erase comp cur) (uint32 (cur + 1))
      (op :: rest.1, rest.2)

/-- `truncate`: `acl` and what is left of `comp`. -/
def truncate (comp : StdMap Op) (his : HistoryW) : List Op × StdMap Op :=
  truncateLoop comp.length comp (uint32 (his.latest.ts + 1))

/-- The double loop of `check`: whether `error dected` is printed for some pair. -/
def checkLoop : List Op → Bool
  | [] => false
  | x :: rest => rest.any (fun y => decide (y.end_ ≤ x.start)) || checkLoop rest

/-- Whether `check` takes its error branch. It returns `true` in every case: the
`return false` of that branch is commented out. -/
def check (acl : List Op) : Bool :=
  if acl.length = 1 then false else checkLoop acl

/-- `try_merge`: `none` when it returns `false`. -/
def tryMerge (his : HistoryW) (acl : List Op) : Option HistoryW :=
  match acl with
  | [] => some his
  | first :: _ =>
    if first.end_ < his.latest.start then none else some (acl.foldl HistoryW.update his)

/-! ## The globals and the steps of the two ecalls -/

/-- The globals of `cc.cpp`; `gMutex` says whether `g_mutex` is held. -/
structure Checker where
  pendingList : StdMap Op
  completedList : StdMap Op
  gTimer : Nat
  gId : Nat
  history : HistoryW
  gMutex : Bool
deriving DecidableEq, Repr

def Checker.init : Checker where
  pendingList := []
  completedList := []
  gTimer := 0
  gId := 0
  history := HistoryW.init
  gMutex := false

/-- `getTime`; the value returned is the new `gTimer`. -/
def Checker.getTime (c : Checker) : Checker := { c with gTimer := uint32 (c.gTimer + 1) }

/-- `allocId`; the value returned is the new `gId`. -/
def Checker.allocId (c : Checker) : Checker := { c with gId := uint32 (c.gId + 1) }

/-- The `g_mutex` section of `enclave_preput`. -/
def Checker.preputSection (c : Checker) (id time : Nat) : Checker :=
  { c with pendingList := c.pendingList.insert id (Op.new id time) }

/-- The op that `enclave_postput` files under `seq`. -/
def Op.posted (op : Op) (seq time : Nat) : Op := (op.setEnd time).setTs seq

/-- `completed_list` as `truncate` finds it. -/
def Checker.filed (c : Checker) (op : Op) (seq : Nat) : StdMap Op :=
  c.completedList.insert seq op

/-- The `g_mutex` section of `enclave_postput` after the lookup of `id`: `op` is
the op found, with its end and number set. When `try_merge` fails the function
returns with `g_mutex` held. -/
def Checker.postputSection (c : Checker) (id seq : Nat) (op : Op) : Checker :=
  let acl := truncate (c.filed op seq) c.history
  match tryMerge c.history acl.1 with
  | none =>
    { c with
      pendingList := c.pendingList.erase id
      completedList := acl.2
      gMutex := true }
  | some his =>
    { c with
      pendingList := c.pendingList.erase id
      completedList := acl.2
      history := his }

@[simp] theorem Checker.postputSection_pendingList (c : Checker) (id seq : Nat) (op : Op) :
    (c.postputSection id seq op).pendingList = c.pendingList.erase id := by
  unfold Checker.postputSection
  dsimp only
  split <;> rfl

@[simp] theorem Checker.postputSection_gId (c : Checker) (id seq : Nat) (op : Op) :
    (c.postputSection id seq op).gId = c.gId := by
  unfold Checker.postputSection
  dsimp only
  split <;> rfl

@[simp] theorem Checker.postputSection_gTimer (c : Checker) (id seq : Nat) (op : Op) :
    (c.postputSection id seq op).gTimer = c.gTimer := by
  unfold Checker.postputSection
  dsimp only
  split <;> rfl

@[simp] theorem Checker.postputSection_completedList (c : Checker) (id seq : Nat) (op : Op) :
    (c.postputSection id seq op).completedList = (truncate (c.filed op seq) c.history).2 := by
  unfold Checker.postputSection
  dsimp only
  split <;> rfl

theorem Checker.postputSection_history {c : Checker} {id seq : Nat} {op : Op} {his : HistoryW}
    (h : tryMerge c.history (truncate (c.filed op seq) c.history).1 = some his) :
    (c.postputSection id seq op).history = his := by
  simp [Checker.postputSection, h]

theorem Checker.postputSection_history_none {c : Checker} {id seq : Nat} {op : Op}
    (h : tryMerge c.history (truncate (c.filed op seq) c.history).1 = none) :
    (c.postputSection id seq op).history = c.history := by
  simp [Checker.postputSection, h]

theorem Checker.postputSection_gMutex {c : Checker} {id seq : Nat} {op : Op} {his : HistoryW}
    (h : tryMerge c.history (truncate (c.filed op seq) c.history).1 = some his) :
    (c.postputSection id seq op).gMutex = c.gMutex := by
  simp [Checker.postputSection, h]

theorem Checker.postputSection_gMutex_none {c : Checker} {id seq : Nat} {op : Op}
    (h : tryMerge c.history (truncate (c.filed op seq) c.history).1 = none) :
    (c.postputSection id seq op).gMutex = true := by
  simp [Checker.postputSection, h]

/-! ## Clients -/

/-- Where a client thread stands. -/
inductive Thread where
  | idle
  /-- In `enclave_preput`, start time taken. -/
  | preputTimed (time : Nat)
  /-- In `enclave_preput`, id drawn, `g_mutex` not yet taken. -/
  | preputIdent (time id : Nat)
  /-- In `enclave_postput`, end time taken, `g_mutex` not yet taken. -/
  | postputTimed (id seq time : Nat)
deriving DecidableEq, Repr

/-- One atomic step of thread `t`. `postputTime` starts a call of
`enclave_postput` and carries its arguments. -/
inductive Act where
  | preputTime (t : Nat)
  | preputId (t : Nat)
  | preputLock (t : Nat)
  | postputTime (t id seq : Nat)
  | postputLock (t : Nat)
deriving DecidableEq, Repr

/-- A merged write, with whether `check` took its error branch in the section
that merged it. -/
structure Merged where
  op : Op
  reported : Bool
deriving DecidableEq, Repr

/-- A `g_mutex` section of `enclave_postput`: the globals and the writes merged so
far when it starts, and the op it files. -/
structure Section where
  enc : Checker
  merged : List Merged
  seq : Nat
  op : Op

/-- The run of ops the section takes out of `completed_list`. -/
def Section.acl (c : Section) : List Op := (truncate (c.enc.filed c.op c.seq) c.enc.history).1

/-- Whether `try_merge` succeeds in the section. -/
def Section.ok (c : Section) : Bool := (tryMerge c.enc.history c.acl).isSome

/-- What the section adds to the writes merged. -/
def Section.merges (c : Section) : List Merged :=
  if c.ok then c.acl.map fun op => ⟨op, check c.acl⟩ else []

/-- The enclave with its clients. The last five fields only record: ids handed
back by `enclave_preput` and not used yet, the ops posted with their numbers, the
writes merged, the sections passed, and whether a section has dereferenced the
`end()` of `pending_list`, after which nothing is known. -/
structure Sys where
  enc : Checker
  threads : Nat → Thread
  returned : List Nat
  posted : List (Nat × Op)
  merged : List Merged
  sections : List Section
  dangling : Bool

def Sys.init : Sys where
  enc := Checker.init
  threads := fun _ => Thread.idle
  returned := []
  posted := []
  merged := []
  sections := []
  dangling := false

def Sys.setThread (s : Sys) (t : Nat) (th : Thread) : Sys :=
  { s with threads := Function.update s.threads t th }

/-- The section of `enclave_postput` run in `s` on the op found under `id`. -/
def Sys.sectionOf (s : Sys) (op : Op) (seq time : Nat) : Section where
  enc := s.enc
  merged := s.merged
  seq := seq
  op := op.posted seq time

/-- Thread `t` runs the section of `enclave_postput` on the op found under `id`. -/
def Sys.post (s : Sys) (t id seq time : Nat) (op : Op) : Sys :=
  { s with
    enc := s.enc.postputSection id seq (op.posted seq time)
    threads := Function.update s.threads t Thread.idle
    posted := s.posted ++ [(seq, op.posted seq time)]
    merged := s.merged ++ (s.sectionOf op seq time).merges
    sections := s.sections ++ [s.sectionOf op seq time] }

/-- One step; `none` when the step cannot be taken. The two sections wait for
`g_mutex`. -/
def Sys.step (s : Sys) (a : Act) : Option Sys :=
  if s.dangling then none else
  match a with
  | .preputTime t =>
    match s.threads t with
    | .idle =>
      let enc := s.enc.getTime
      some ({ s with enc }.setThread t (.preputTimed enc.gTimer))
    | _ => none
  | .preputId t =>
    match s.threads t with
    | .preputTimed time =>
      let enc := s.enc.allocId
      some ({ s with enc }.setThread t (.preputIdent time enc.gId))
    | _ => none
  | .preputLock t =>
    match s.threads t with
    | .preputIdent time id =>
      if s.enc.gMutex then none
      else
        let enc := s.enc.preputSection id time
        some ({ s with enc, returned := id :: s.returned }.setThread t .idle)
    | _ => none
  | .postputTime t id seq =>
    match s.threads t with
    | .idle =>
      let enc := s.enc.getTime
      let returned := s.returned.erase id
      some ({ s with enc, returned }.setThread t (.postputTimed id seq enc.gTimer))
    | _ => none
  | .postputLock t =>
    match s.threads t with
    | .postputTimed id seq time =>
      if s.enc.gMutex then none
      else
        match s.enc.pendingList.find id with
        | none => some { s with dangling := true }
        | some op => some (s.post t id seq time op)
    | _ => none

/-- One step of clients that pass to `enclave_postput` an id that
`enclave_preput` has returned, and each only once. -/
def Sys.ownStep (s : Sys) (a : Act) : Option Sys :=
  match a with
  | .postputTime _ id _ => if id ∈ s.returned then s.step a else none
  | _ => s.step a

/-! ## What a step can do -/

/-- **Inversion of a step**: its guard and its effect, for each kind of step. -/
inductive Sys.Stepped (s : Sys) : Act → Sys → Prop where
  | preputTime {t : Nat} (idle : s.threads t = .idle) :
      Stepped s (.preputTime t)
        ({ s with enc := s.enc.getTime }.setThread t (.preputTimed s.enc.getTime.gTimer))
  | preputId {t time : Nat} (timed : s.threads t = .preputTimed time) :
      Stepped s (.preputId t)
        ({ s with enc := s.enc.allocId }.setThread t (.preputIdent time s.enc.allocId.gId))
  | preputLock {t time id : Nat} (ident : s.threads t = .preputIdent time id)
      (free : s.enc.gMutex = false) :
      Stepped s (.preputLock t)
        ({ s with
            enc := s.enc.preputSection id time
            returned := id :: s.returned }.setThread t .idle)
  | postputTime {t id seq : Nat} (idle : s.threads t = .idle) :
      Stepped s (.postputTime t id seq)
        ({ s with
            enc := s.enc.getTime
            returned := s.returned.erase id }.setThread t
              (.postputTimed id seq s.enc.getTime.gTimer))
  | dangle {t id seq time : Nat} (timed : s.threads t = .postputTimed id seq time)
      (free : s.enc.gMutex = false) (missing : s.enc.pendingList.find id = none) :
      Stepped s (.postputLock t) { s with dangling := true }
  | post {t id seq time : Nat} {op : Op} (timed : s.threads t = .postputTimed id seq time)
      (free : s.enc.gMutex = false) (found : s.enc.pendingList.find id = some op) :
      Stepped s (.postputLock t) (s.post t id seq time op)

/-- Posted ops stay posted. -/
theorem Sys.Stepped.posted_subset {s s' : Sys} {a : Act} (h : s.Stepped a s') :
    s.posted ⊆ s'.posted := by
  cases h with
  | post => exact List.subset_append_left _ _
  | preputTime => exact fun _ hp => hp
  | preputId => exact fun _ hp => hp
  | preputLock => exact fun _ hp => hp
  | postputTime => exact fun _ hp => hp
  | dangle => exact fun _ hp => hp

theorem Sys.step_stepped {s s' : Sys} {a : Act} (h : s.step a = some s') :
    s.dangling = false ∧ s.Stepped a s' := by
  unfold Sys.step at h
  split at h
  · simp at h
  · rename_i hd
    refine ⟨by simpa using hd, ?_⟩
    cases a with
    | preputTime t =>
      simp only at h
      split at h
      · rename_i hth
        cases h
        exact .preputTime hth
      · simp at h
    | preputId t =>
      simp only at h
      split at h
      · rename_i time hth
        cases h
        exact .preputId hth
      · simp at h
    | preputLock t =>
      simp only at h
      split at h
      · rename_i time id hth
        split at h
        · simp at h
        · rename_i hfree
          cases h
          exact .preputLock hth (by simpa using hfree)
      · simp at h
    | postputTime t id seq =>
      simp only at h
      split at h
      · rename_i hth
        cases h
        exact .postputTime hth
      · simp at h
    | postputLock t =>
      simp only at h
      split at h
      · rename_i id seq time hth
        split at h
        · simp at h
        · rename_i hfree
          split at h
          · rename_i hmiss
            cases h
            exact .dangle hth (by simpa using hfree) hmiss
          · rename_i op hfound
            cases h
            exact .post hth (by simpa using hfree) hfound
      · simp at h

/-- A client that keeps to its own ids takes ordinary steps. -/
theorem Sys.ownStep_step {s s' : Sys} {a : Act} (h : s.ownStep a = some s') :
    s.step a = some s' := by
  unfold Sys.ownStep at h
  split at h
  · split at h
    · exact h
    · simp at h
  · exact h

theorem Sys.ownStep_returned {s s' : Sys} {t id seq : Nat}
    (h : s.ownStep (.postputTime t id seq) = some s') : id ∈ s.returned := by
  unfold Sys.ownStep at h
  simp only at h
  split at h
  · assumption
  · simp at h

/-! ## Specifications of the three helpers -/

/-- `acl` is the gap-free run of `comp` from number `cur` on: the ops filed under
`cur`, `cur + 1`, ..., up to the first number with none. -/
def NextRun : StdMap Op → Nat → List Op → Prop
  | comp, cur, [] => comp.find cur = none
  | comp, cur, op :: acl =>
    comp.find cur = some op ∧ NextRun (StdMap.erase comp cur) (uint32 (cur + 1)) acl

theorem truncateLoop_nextRun : ∀ {fuel : Nat} {comp : StdMap Op} {cur : Nat},
    comp.length ≤ fuel → NextRun comp cur (truncateLoop fuel comp cur).1
  | 0, comp, cur, h => by
    have : comp = [] := List.length_eq_zero_iff.mp (Nat.le_zero.mp h)
    rw [this]
    rfl
  | fuel + 1, comp, cur, h => by
    unfold truncateLoop
    cases hf : comp.find cur with
    | none => exact hf
    | some op =>
      have hlen := StdMap.length_erase_lt hf
      exact ⟨hf, truncateLoop_nextRun (by omega)⟩

/-- `truncate` terminates with the next gap-free run. -/
theorem truncate_nextRun (comp : StdMap Op) (his : HistoryW) :
    NextRun comp (uint32 (his.latest.ts + 1)) (truncate comp his).1 :=
  truncateLoop_nextRun (Nat.le_refl _)

/-- What `truncate` leaves in `comp` was there before. -/
theorem truncateLoop_find : ∀ (fuel : Nat) {comp : StdMap Op} {cur k : Nat} {op : Op},
    (truncateLoop fuel comp cur).2.find k = some op → comp.find k = some op
  | 0, _, _, _, _, h => h
  | fuel + 1, comp, cur, k, op, h => by
    unfold truncateLoop at h
    cases hf : comp.find cur with
    | none => simpa [hf] using h
    | some o =>
      rw [hf] at h
      exact (StdMap.find_erase_some (truncateLoop_find fuel h)).1

/-- The ops of a map carry their keys, as far as `Timestamp` holds them. -/
def Stamped (comp : StdMap Op) : Prop := ∀ n op, comp.find n = some op → op.ts = uint32 n

theorem Stamped.erase {comp : StdMap Op} (h : Stamped comp) (k : Nat) :
    Stamped (StdMap.erase comp k) :=
  fun n op hop => h n op (StdMap.find_erase_some hop).1

theorem Stamped.filed {c : Checker} (h : Stamped c.completedList) (op : Op) (seq time : Nat) :
    Stamped (c.filed (op.posted seq time) seq) := by
  intro n op' hop
  rcases StdMap.find_insert_cases hop with hop | ⟨rfl, rfl⟩
  · exact h n op' hop
  · rfl

/-- `check` stays silent exactly when no op of the run ended before, or when, one
that comes earlier in it started. -/
theorem check_eq_false_iff (acl : List Op) :
    check acl = false ↔ acl.Pairwise fun x y => x.start < y.end_ := by
  have hloop : ∀ l : List Op,
      checkLoop l = false ↔ l.Pairwise fun x y => x.start < y.end_ := by
    intro l
    induction l with
    | nil => simp [checkLoop]
    | cons x rest ih => simp [checkLoop, ih, List.pairwise_cons]
  unfold check
  split
  · rename_i hone
    obtain ⟨x, rfl⟩ := List.length_eq_one_iff.mp hone
    simp
  · exact hloop acl

theorem tryMerge_isSome_iff (his : HistoryW) (acl : List Op) :
    (tryMerge his acl).isSome ↔ ∀ first ∈ acl.head?, his.latest.start ≤ first.end_ := by
  unfold tryMerge
  cases acl with
  | nil => simp
  | cons first rest =>
    by_cases h : first.end_ < his.latest.start
    · simp [h]
    · simp [h, Nat.le_of_not_lt h]

/-- `try_merge` leaves the last op of the run as the latest. -/
theorem tryMerge_eq_some {his : HistoryW} {acl : List Op}
    (h : ∀ first ∈ acl.head?, his.latest.start ≤ first.end_) :
    tryMerge his acl = some ⟨acl.getLast?.getD his.latest⟩ := by
  have hfold : ∀ (l : List Op) (his : HistoryW),
      l.foldl HistoryW.update his = ⟨l.getLast?.getD his.latest⟩ := by
    intro l
    induction l with
    | nil => exact fun _ => rfl
    | cons op l ih =>
      intro his
      rw [List.foldl_cons, ih, List.getLast?_cons]
      rfl
  unfold tryMerge
  cases acl with
  | nil => rfl
  | cons first rest =>
    have hfirst := h first rfl
    rw [← hfold]
    simp [Nat.not_lt.mpr hfirst]

theorem tryMerge_latest {his his' : HistoryW} {acl : List Op} (h : tryMerge his acl = some his') :
    his'.latest = acl.getLast?.getD his.latest := by
  have hmerges := (tryMerge_isSome_iff his acl).mp (Option.isSome_iff_exists.mpr ⟨his', h⟩)
  rw [tryMerge_eq_some hmerges] at h
  cases h
  rfl

end Lpad
