import Lpad.DB.Database

/-!
# Errors while a database is opened

`DBImpl::Recover` replays the logs in the order of their numbers. Each call of
`RecoverLogFile` overwrites the status of the one before, and the loop goes on after a
failure. So only the last log decides whether the open fails. If an earlier one has
failed and the last one has not, `DB::Open` records a new log number and deletes the log
that was not replayed.

The loop is modelled over an arbitrary `RecoverLogFile`; `replayLogs`, which a reopened
database runs, is the case of the real one.
-/

namespace Lpad

/-! ## The loop over the logs -/

/-- One call of `RecoverLogFile`: what it makes of the variables of `Recover`. -/
abbrev LogCall : Type := LogFile → Replay → Replay

/-- `DBImpl::RecoverLogFile` on the files of a database. -/
def Options.recoverLog (options : Options) (io : OpenIO) : LogCall := fun l r =>
  recoverLogFile options io.build (io.logFile l.number) (l.records.take (io.survive l.number)) r

/-- One round of the loop: the call, and `MarkFileNumberUsed`. -/
def LogCall.round (call : LogCall) (r : Replay) (l : LogFile) : Replay :=
  { call l r with versions := (call l r).versions.markFileNumberUsed l.number }

/-- The variables of `Recover` before the loop. -/
def Replay.start (vs : VersionSet) : Replay := ⟨.ok, none, VersionEdit.clear, vs, [], 0⟩

/-- What the calls return, one after the other. -/
def LogCall.statuses (call : LogCall) : List LogFile → Replay → List Status
  | [], _ => []
  | l :: logs, r => (call l r).status :: call.statuses logs (call.round r l)

/-- `DBImpl::Recover` from the point where the version set has been recovered. -/
def Database.recover (db : Database) (call : LogCall) (vs : VersionSet) : Replay :=
  (db.logsToReplay vs).foldl call.round (Replay.start vs)

/-- The statuses of the calls that `Recover` makes. -/
def Database.logStatuses (db : Database) (call : LogCall) (vs : VersionSet) : List Status :=
  call.statuses (db.logsToReplay vs) (Replay.start vs)

/-- `DB::Open`: its status, and the database with its files. If it fails, the files stay,
with the tables that have been built, and perhaps with a new log that is still empty. -/
def Database.openWith (db : Database) (call : LogCall) (io : OpenIO) : Status × Database :=
  match VersionSet.recover db.manifest with
  | .error s => (s, db)
  | .ok vs =>
    let r := db.recover call vs
    if !r.status.isOk then (r.status, db.store r.tables)
    else if !io.newLog.isOk then (io.newLog, db.store r.tables)
    else if !io.manifest.isOk then
      (io.manifest, { db.store r.tables with
        logs := db.logs ++ [⟨r.versions.nextFileNumber, []⟩] })
    else (.ok, db.install io r)

theorem VersionSet.recover_error {manifest : List VersionEdit} {s : Status}
    (h : VersionSet.recover manifest = .error s) : s ≠ .ok := by
  rintro rfl
  unfold VersionSet.recover at h
  split at h
  · cases h
  · cases h
  · cases h
  · cases h

/-- `reopen` is an open that succeeds. -/
theorem Database.reopen_eq (options : Options) (db : Database) (io : OpenIO) :
    db.reopen options io =
      if (db.openWith (options.recoverLog io) io).1.isOk
        then some (db.openWith (options.recoverLog io) io).2 else none := by
  have hreplay : ∀ vs, db.replayLogs options io vs = db.recover (options.recoverLog io) vs :=
    fun _ => rfl
  have hok : Status.ok.isOk = true := rfl
  unfold reopen openWith
  cases hrecover : VersionSet.recover db.manifest with
  | error s =>
    have hs := VersionSet.recover_error hrecover
    rw [Ne, ← Status.isOk_iff] at hs
    dsimp only
    rw [if_neg hs]
  | ok vs =>
    dsimp only
    rw [hreplay]
    by_cases hr : (db.recover (options.recoverLog io) vs).status.isOk = true
    · by_cases hlog : io.newLog.isOk = true
      · by_cases hmanifest : io.manifest.isOk = true
        · simp [hr, hlog, hmanifest, hok]
        · simp [hr, hlog, hmanifest]
      · simp [hr, hlog]
    · simp [hr]

/-! ## The last log decides -/

/-- The loop ends with the status of the last call. -/
theorem LogCall.foldl_round_status (call : LogCall) (logs : List LogFile) (r : Replay) :
    (logs.foldl call.round r).status = (call.statuses logs r).getLast?.getD r.status := by
  induction logs generalizing r with
  | nil => rfl
  | cons l logs ih =>
    rw [List.foldl_cons, ih, statuses, List.getLast?_cons]
    rfl

theorem Database.recover_status (db : Database) (call : LogCall) (vs : VersionSet) :
    (db.recover call vs).status = (db.logStatuses call vs).getLast?.getD .ok :=
  call.foldl_round_status _ _

/-- All calls succeed, or the last one fails. -/
def LastDecides (statuses : List Status) : Prop :=
  (∀ s ∈ statuses, s = .ok) ∨ ∃ s, statuses.getLast? = some s ∧ s ≠ .ok

/-- A failed call fails `Recover` and the open, which leaves the manifest, with its log
number, and the logs as they are. -/
def Database.FailureFailsOpen (db : Database) (call : LogCall) (io : OpenIO) (vs : VersionSet) :
    Prop :=
  (∃ s ∈ db.logStatuses call vs, s ≠ .ok) →
    (db.recover call vs).status ≠ .ok ∧ (db.openWith call io).1 ≠ .ok ∧
      (db.openWith call io).2.manifest = db.manifest ∧ (db.openWith call io).2.logs = db.logs

/-- An open whose `Recover` fails. -/
theorem Database.openWith_of_failed {db : Database} {call : LogCall} {vs : VersionSet}
    (hvs : VersionSet.recover db.manifest = .ok vs) (hfails : (db.recover call vs).status ≠ .ok)
    (io : OpenIO) :
    db.openWith call io =
      ((db.recover call vs).status, db.store (db.recover call vs).tables) := by
  rw [Ne, ← Status.isOk_iff, Bool.not_eq_true] at hfails
  unfold openWith
  rw [hvs]
  dsimp only
  rw [hfails]
  rfl

/-- **A failed log fails the open exactly if the last log decides so**: whatever the calls
of `RecoverLogFile` do. -/
theorem open_fails_iff (db : Database) (call : LogCall) (io : OpenIO) {vs : VersionSet}
    (hvs : VersionSet.recover db.manifest = .ok vs) :
    db.FailureFailsOpen call io vs ↔ LastDecides (db.logStatuses call vs) := by
  have hstatus := db.recover_status call vs
  constructor
  · intro h
    by_cases hall : ∀ s ∈ db.logStatuses call vs, s = .ok
    · exact Or.inl hall
    · push Not at hall
      have hfails := (h hall).1
      rw [hstatus] at hfails
      cases hlast : (db.logStatuses call vs).getLast? with
      | none =>
        rw [hlast] at hfails
        exact absurd rfl hfails
      | some s =>
        rw [hlast] at hfails
        exact Or.inr ⟨s, hlast, hfails⟩
  · rintro (hall | ⟨s, hlast, hs⟩) ⟨s', hs', hne⟩
    · exact absurd (hall s' hs') hne
    · have hfails : (db.recover call vs).status ≠ .ok := by
        rw [hstatus, hlast]
        exact hs
      rw [Database.openWith_of_failed hvs hfails io]
      exact ⟨hfails, hfails, rfl, rfl⟩

/-! ## A log that is lost -/

/-- Options with `paranoid_checks`. -/
def paranoid : Options := ⟨100, true, List.length⟩

/-- The logs 3 and 5, with one batch each. -/
def twoLogs : Database :=
  { Database.created with
    logs :=
      [⟨3, [((WriteBatch.clear.put [97] [1]).setSequence 1).contents]⟩,
        ⟨5, [((WriteBatch.clear.put [98] [2]).setSequence 2).contents]⟩] }

/-- The table of log 3 cannot be written; log 5 can be opened as `log5` says. -/
def twoLogsEnv (log5 : Status) : OpenIO :=
  { OpenIO.working with
    logFile := fun n => if n = 5 then log5 else .ok
    survive := fun _ => 1
    build := fun n => if n = 3 then ⟨.ioError "no space left on device", 0⟩ else ⟨.ok, 1⟩ }

/-- If log 5 fails too, the open fails and keeps both. -/
theorem open_fails_iff_bothFail :
    ∃ vs, VersionSet.recover twoLogs.manifest = .ok vs ∧
      twoLogs.FailureFailsOpen (paranoid.recoverLog (twoLogsEnv (.ioError "log5")))
        (twoLogsEnv (.ioError "log5")) vs := by
  refine ⟨_, rfl, ?_⟩
  refine (open_fails_iff twoLogs _ _ rfl).mpr (Or.inr ⟨.ioError "log5", ?_, ?_⟩)
  · decide +kernel
  · decide

/-- **The replay of log 3 fails and the open succeeds**: log 3 is gone, and no table that
was built has its batch. -/
theorem failedLog_deleted :
    ∃ vs, VersionSet.recover twoLogs.manifest = .ok vs ∧
      twoLogs.logStatuses (paranoid.recoverLog (twoLogsEnv .ok)) vs =
        [.ioError "no space left on device", .ok] ∧
      (twoLogs.recover (paranoid.recoverLog (twoLogsEnv .ok)) vs).status = .ok ∧
      (twoLogs.openWith (paranoid.recoverLog (twoLogsEnv .ok)) (twoLogsEnv .ok)).1 = .ok ∧
      (twoLogs.openWith (paranoid.recoverLog (twoLogsEnv .ok)) (twoLogsEnv .ok)).2.logs =
        [⟨6, []⟩] ∧
      ∀ t ∈ (twoLogs.recover (paranoid.recoverLog (twoLogsEnv .ok)) vs).tables,
        ∀ x ∈ t.2, extractUserKey x.key ≠ [97] := by
  refine ⟨_, rfl, ?_, ?_, ?_, ?_, ?_⟩
  · decide +kernel
  · decide +kernel
  · decide +kernel
  · decide +kernel
  · decide +kernel

end Lpad
