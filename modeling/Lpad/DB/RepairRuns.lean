import Lpad.DB.AgeOrder
import Lpad.DB.RepairReads

/-!
# Repairs of a directory that a run has left

A directory of sound tables can be repaired, but the age order of the tables is lost. That order
puts the tables of a level below those of the levels above, whatever their numbers, and a repair
goes by the numbers alone.
-/

namespace Lpad

/-! ## Lookups after the repair -/

/-- **A repair keeps the newest entry of a user key visible exactly if**, of the tables that
have an entry of it, the one with the highest number has the newest. Tables made of logs
have the highest numbers. -/
theorem repair_tells_iff {io : RepairIO} {disk : Disk} (hio : io.Readable) (hdisk : disk.Sound) :
    ∃ repaired, repairDB io disk = .ok repaired ∧ ∀ (options : Options) (opening : OpenIO),
      opening.newLog = .ok → opening.manifest = .ok →
        ∃ db, repaired.reopen options opening = some db ∧
          ∀ tableStatus : Nat → Status, (∀ n, tableStatus n = .ok) →
            ∀ (key : Bytes) (out : GetOutput),
              (db.suGet tableStatus none key out).Tells (disk.sources io).flatten key
                kMaxSequenceNumber ↔ NewestFirst (disk.sources io) key := by
  obtain ⟨repaired, hrepair, hopen⟩ := repairDB_flat hio hdisk
  refine ⟨repaired, hrepair, ?_⟩
  intro options opening hlog hmanifest
  obtain ⟨db, hdb, numbers, hflat, hsources⟩ := hopen options opening hlog hmanifest
  refine ⟨db, hdb, ?_⟩
  intro tableStatus hstatus key out
  rw [← hsources]
  exact hflat.tells_iff hstatus key out

/-! ## A compaction brings back an old value -/

def userKeyA : Bytes := List.replicate 16 97

def userKeyX : Bytes := List.replicate 16 120

/-- The tables that the compaction of this run reads: an old value of `k` on level 3, and
values of `a` and `x` on level 2. -/
def staleFiles : Files :=
  Files.working fun f =>
    ⟨if f.number = 5 then [valueEntry userKeyK 1 [1]]
      else [valueEntry userKeyA 2 [], valueEntry userKeyX 3 []], .ok⟩

/-- A value for `k` is flushed to level 2 and moves on to level 3. Values for `a` and `x` go
to level 2, and a new value for `k` goes to level 1, in table 9. Then level 2 is compacted:
table 10 has the values of `a` and `x`, and between them the old value of `k`. -/
def staleRun : List Event :=
  writeAndFlush (WriteBatch.clear.put userKeyK [1]) ++ [.seek 2 0, .background ⟨.ok, true⟩] ++
    writeAndFlush ((WriteBatch.clear.put userKeyA []).put userKeyX []) ++
    writeAndFlush (WriteBatch.clear.put userKeyK [2]) ++
    [.seek 2 0, .background ⟨.ok, true⟩, .finish staleFiles false ⟨.ok, true⟩]

/-- What the directory holds after this run. -/
def staleTables : List (List Record) :=
  [[valueEntry userKeyA 2 [], valueEntry userKeyK 1 [1], valueEntry userKeyX 3 []],
    [valueEntry userKeyK 4 [2]]]

theorem RepairIO.working_readable : RepairIO.working.Readable :=
  ⟨rfl, fun _ => rfl, fun _ => rfl, rfl⟩

theorem staleRun_disk :
    ∃ db, runs (Database.step defaultOptions) (Database.init defaultOptions) staleRun = some db ∧
      db.disk.Sound ∧ db.disk.sources RepairIO.working = staleTables := by
  have heval : ((runs (Database.step defaultOptions) (Database.init defaultOptions) staleRun).map
      fun db => (decide db.disk.Sound, db.disk.sources RepairIO.working)) =
        some (true, staleTables) := by
    decide +kernel
  obtain ⟨db, hdb, hdisk⟩ := Option.map_eq_some_iff.mp heval
  obtain ⟨hsound, hsources⟩ := Prod.mk.inj hdisk
  exact ⟨db, hdb, of_decide_eq_true hsound, hsources⟩

/-- Of the user key `a` only table 10 has an entry, and a lookup finds it. -/
theorem repair_tells_iff_stale :
    ∃ db, runs (Database.step defaultOptions) (Database.init defaultOptions) staleRun = some db ∧
      ∃ repaired, repairDB RepairIO.working db.disk = .ok repaired ∧
        ∃ db', repaired.reopen defaultOptions OpenIO.working = some db' ∧
          (db'.suGet (fun _ => .ok) none userKeyA ⟨[], 0⟩).Tells staleTables.flatten userKeyA
            kMaxSequenceNumber := by
  obtain ⟨db, hdb, hsound, hsources⟩ := staleRun_disk
  obtain ⟨repaired, hrepair, hopen⟩ := repair_tells_iff RepairIO.working_readable hsound
  obtain ⟨db', hdb', htells⟩ := hopen defaultOptions OpenIO.working rfl rfl
  refine ⟨db, hdb, repaired, hrepair, db', hdb', ?_⟩
  have hiff := htells (fun _ => .ok) (fun _ => rfl) userKeyA ⟨[], 0⟩
  rw [hsources] at hiff
  refine hiff.mpr ?_
  intro entries hentries
  have hfirst : staleTables.find? (hasEntry userKeyA) =
      some [valueEntry userKeyA 2 [], valueEntry userKeyK 1 [1], valueEntry userKeyX 3 []] := by
    decide +kernel
  obtain rfl := Option.some.inj (hfirst.symm.trans hentries)
  refine ⟨valueEntry userKeyA 2 [], ⟨?_, ?_, ?_, ?_⟩, Or.inl ⟨?_, ?_, ?_, ?_⟩⟩
  all_goals decide +kernel

/-- **The old value of `k` is back.** Before the repair a lookup finds the value of table 9,
with sequence number 4. After it, all tables are at level 0, and table 10 is asked first. -/
theorem repair_stale :
    ∃ db, runs (Database.step defaultOptions) (Database.init defaultOptions) staleRun = some db ∧
      (db.suGet (fun _ => .ok) none userKeyK ⟨[], 0⟩).out = ⟨[2], 4⟩ ∧
      ∃ repaired, repairDB RepairIO.working db.disk = .ok repaired ∧
        ∃ db', repaired.reopen defaultOptions OpenIO.working = some db' ∧
          (db'.suGet (fun _ => .ok) none userKeyK ⟨[], 0⟩).status = .ok ∧
          (db'.suGet (fun _ => .ok) none userKeyK ⟨[], 0⟩).out = ⟨[1], 1⟩ ∧
          ¬ (db'.suGet (fun _ => .ok) none userKeyK ⟨[], 0⟩).Tells
            (db.disk.sources RepairIO.working).flatten userKeyK kMaxSequenceNumber := by
  have heval : ((runs (Database.step defaultOptions) (Database.init defaultOptions) staleRun).bind
      fun db => (repairDB RepairIO.working db.disk).toOption.bind fun repaired =>
        (repaired.reopen defaultOptions OpenIO.working).map fun db' =>
          ((db.suGet (fun _ => .ok) none userKeyK ⟨[], 0⟩).out,
            (db'.suGet (fun _ => .ok) none userKeyK ⟨[], 0⟩).status,
            (db'.suGet (fun _ => .ok) none userKeyK ⟨[], 0⟩).out,
            db.disk.sources RepairIO.working)) =
      some (⟨[2], 4⟩, .ok, ⟨[1], 1⟩, staleTables) := by
    decide +kernel
  obtain ⟨db, hdb, heval⟩ := Option.bind_eq_some_iff.mp heval
  obtain ⟨repaired, hrepair, heval⟩ := Option.bind_eq_some_iff.mp heval
  obtain ⟨db', hdb', heval⟩ := Option.map_eq_some_iff.mp heval
  simp only [Prod.mk.injEq] at heval
  obtain ⟨hbefore, hstatus, hout, hsources⟩ := heval
  refine ⟨db, hdb, hbefore, repaired, ?_, db', hdb', hstatus, hout, ?_⟩
  · cases hresult : repairDB RepairIO.working db.disk with
    | error s =>
      rw [hresult] at hrepair
      cases hrepair
    | ok d =>
      rw [hresult] at hrepair
      exact congrArg Except.ok (Option.some.inj hrepair)
  · rw [hsources]
    rintro (⟨r, hr, -, -, hr'⟩ | ⟨-, -, -, hs⟩ | ⟨-, hs⟩)
    · -- the new value is in the directory
      have hnew : (valueEntry userKeyK 4 [2]).trailer ≤ r.trailer := by
        refine hr.newest _ ?_ ?_ ?_
        all_goals decide +kernel
      have hsequence : (1 : Nat) = r.sequence := congrArg GetOutput.tw (hout.symm.trans hr')
      have htrailer : (valueEntry userKeyK 4 [2]).trailer = 1025 := by decide +kernel
      rw [htrailer] at hnew
      unfold Record.sequence keySequence at hsequence
      unfold Record.trailer at hnew
      omega
    · rw [hstatus] at hs
      cases hs
    · rw [hstatus] at hs
      cases hs

end Lpad
