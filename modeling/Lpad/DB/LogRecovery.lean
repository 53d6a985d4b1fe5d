import Lpad.DB.Recovery
import Lpad.Log.RoundTrip

/-!
# Recovery of a log that was cut off

`RecoverLogFile` on the bytes of a log. The batches were written with consecutive sequence
numbers, and a crash may have left any part of the file. The tables that recovery builds
hold the entries of the batches that are complete in the file, and no others.
-/

namespace Lpad

/-! ## The log as bytes -/

/-- What `RecoverLogFile` does with a record of the reader or with a report to `LogReporter`,
whose status is `NULL` without `paranoid_checks`. -/
def recoverEvent (options : Options) (io : Nat → TableIO) (r : Replay) : LogEvent → Replay
  | .record data => recoverLoop options io [data] r
  | .drop d =>
    { r with status := if options.paranoidChecks ∧ r.status.isOk then d.reason else r.status }

/-- `DBImpl::RecoverLogFile` with the log reader; `file` is the outcome of opening the log
and `contents` are its bytes. -/
def recoverLogBytes (crc : Bytes → BitVec 32) (options : Options) (io : Nat → TableIO)
    (file : Status) (contents : Bytes) (r : Replay) : Replay :=
  if !file.isOk then { r with status := options.maybeIgnoreError file }
  else
    let r := (readLog crc contents).foldl (recoverEvent options io)
      { r with status := .ok, mem := none }
    match r.mem with
    | some mem => if r.status.isOk then r.writeTable io mem else { r with mem := none }
    | none => r

/-- The loop takes the records one by one. After an error it leaves the rest alone. -/
theorem recoverLoop_cons (options : Options) (io : Nat → TableIO) (record : Bytes)
    (rest : List Bytes) (r : Replay) :
    recoverLoop options io (record :: rest) r =
      recoverLoop options io rest (recoverLoop options io [record] r) := by
  have hstop : ∀ {r : Replay}, ¬ r.status.isOk = true → ∀ records,
      recoverLoop options io records r = r := by
    intro r hr records
    cases records with
    | nil => rfl
    | cons =>
      rw [recoverLoop]
      exact if_pos (by simpa using hr)
  rw [recoverLoop, recoverLoop]
  by_cases hok : r.status.isOk = true
  · simp only [hok, Bool.not_true, Bool.false_eq_true, if_false]
    split
    · rfl
    · split
      · rename_i hstatus
        exact (hstop (by simpa using hstatus) rest).symm
      · split
        · split
          · rfl
          · rename_i htable
            exact (hstop htable rest).symm
        · rfl
  · simp only [hok, Bool.not_false, if_true]
    exact (hstop hok rest).symm

theorem foldl_recoverEvent (options : Options) (io : Nat → TableIO) (records : List Bytes)
    (r : Replay) :
    (records.map LogEvent.record).foldl (recoverEvent options io) r =
      recoverLoop options io records r := by
  induction records generalizing r with
  | nil => rfl
  | cons record rest ih =>
    rw [List.map_cons, List.foldl_cons, ih, recoverLoop_cons]
    rfl

/-- A log in which the reader finds nothing to report is recovered from its records. -/
theorem recoverLogBytes_eq {crc : Bytes → BitVec 32} {contents : Bytes} {records : List Bytes}
    (h : readLog crc contents = records.map .record) (options : Options) (io : Nat → TableIO)
    (file : Status) (r : Replay) :
    recoverLogBytes crc options io file contents r =
      recoverLogFile options io file records r := by
  rw [recoverLogBytes, h, foldl_recoverEvent]
  rfl

/-! ## What has been recovered -/

/-- A table's record as an entry: the parsed key and the value. -/
def Record.parsed (r : Record) : Option (ParsedInternalKey × Bytes) :=
  (parseInternalKey r.key).map (·, r.value)

/-- The same for a memtable's entry. -/
def MemEntry.parsed (e : MemEntry) : ParsedInternalKey × Bytes :=
  (⟨e.userKey, e.sequence, e.type⟩, e.value)

theorem MemEntry.parsed_record {e : MemEntry} (h : e.sequence ≤ kMaxSequenceNumber) :
    e.record.parsed = some e.parsed := by
  rw [Record.parsed, MemEntry.record, parseInternalKey_appendInternalKey h]
  rfl

/-- From `r₀` to `r` the tables `added` were built, and the edit has them as files of
level 0. -/
structure Replay.Adds (r₀ r : Replay) (added : List (Nat × List Record)) : Prop where
  tables : r.tables = r₀.tables ++ added
  files : ∃ metas : List FileMetaData, metas.map FileMetaData.number = added.map Prod.fst ∧
    r.edit.newFiles = r₀.edit.newFiles ++ metas.map ((0, ·))

/-- From `r₀` to `r` these entries were recovered. They are in tables, or still in the
memtable. -/
structure Replay.Recovered (r₀ r : Replay) (entries : List MemEntry) : Prop where
  status : r.status = .ok
  entries : ∃ added, r₀.Adds r added ∧
    (added.flatMap Prod.snd ++ (r.mem.getD []).map MemEntry.record).Perm
      (entries.map MemEntry.record)

/-- The environment builds every table it is asked for. -/
def TablesSucceed (io : Nat → TableIO) : Prop :=
  ∀ number, (io number).status = .ok ∧ 0 < (io number).fileSize

namespace Replay

variable {options : Options} {io : Nat → TableIO} {r₀ r : Replay} {entries : List MemEntry}

theorem recovered_start (r : Replay) : r.Recovered { r with status := .ok, mem := none } [] where
  status := rfl
  entries := ⟨[], ⟨(List.append_nil _).symm, [], rfl, (List.append_nil _).symm⟩, List.Perm.refl _⟩

/-- What `WriteLevel0Table` adds to a replay. -/
theorem writeTable_adds (hio : TablesSucceed io) (r : Replay) (mem : MemTable) :
    (r.writeTable io mem).status = .ok ∧
      ∃ added, r.Adds (r.writeTable io mem) added ∧ added.flatMap Prod.snd = mem.records := by
  obtain ⟨hstatus, hsize⟩ := hio r.versions.nextFileNumber
  unfold writeTable writeLevel0Table
  cases hrecords : mem.records with
  | nil =>
    exact ⟨rfl, [], ⟨rfl, [], rfl, (List.append_nil _).symm⟩, rfl⟩
  | cons first rest =>
    have hok : (io r.versions.nextFileNumber).status.isOk = true := Status.isOk_iff.mpr hstatus
    dsimp only
    rw [if_pos ⟨hok, hsize⟩]
    exact ⟨hstatus, [(r.versions.nextFileNumber, first :: rest)],
      ⟨rfl, [⟨r.versions.nextFileNumber, (io r.versions.nextFileNumber).fileSize, first.key,
        (rest.getLastD first).key⟩], rfl, rfl⟩, List.append_nil _⟩

theorem Adds.trans {r₁ r₂ r₃ : Replay} {added added' : List (Nat × List Record)}
    (h : r₁.Adds r₂ added) (h' : r₂.Adds r₃ added') : r₁.Adds r₃ (added ++ added') := by
  obtain ⟨metas, hnumbers, hfiles⟩ := h.files
  obtain ⟨metas', hnumbers', hfiles'⟩ := h'.files
  refine ⟨by rw [h'.tables, h.tables, List.append_assoc], metas ++ metas', ?_, ?_⟩
  · rw [List.map_append, List.map_append, hnumbers, hnumbers']
  · rw [hfiles', hfiles, List.map_append, List.append_assoc]

/-- The memtable becomes a table. -/
theorem Recovered.writeTable (h : r₀.Recovered r entries) (hio : TablesSucceed io)
    {mem : MemTable} (hmem : r.mem = some mem) : r₀.Recovered (r.writeTable io mem) entries := by
  obtain ⟨added, hadds, hperm⟩ := h.entries
  obtain ⟨hstatus, added', hadds', hrecords⟩ := writeTable_adds hio r mem
  refine ⟨hstatus, added ++ added', hadds.trans hadds', ?_⟩
  rw [hmem] at hperm
  have hsorted : mem.records.Perm (mem.map MemEntry.record) := List.perm_insertionSort _ _
  rw [List.flatMap_append, hrecords]
  refine List.Perm.trans ?_ hperm
  rw [List.append_assoc]
  exact (hsorted.append_right _).append_left _ |>.trans (by
    show (added.flatMap Prod.snd ++ (mem.map MemEntry.record ++ [])).Perm _
    rw [List.append_nil]
    exact List.Perm.refl _)

/-- A batch goes to the memtable. -/
theorem Recovered.inserted (h : r₀.Recovered r entries) (more : List MemEntry) (lastSeq : Nat) :
    r₀.Recovered (r.inserted (r.mem.getD [] ++ more) lastSeq) (entries ++ more) := by
  obtain ⟨added, hadds, hperm⟩ := h.entries
  refine ⟨h.status, added, ⟨hadds.tables, hadds.files⟩, ?_⟩
  show (added.flatMap Prod.snd ++ (r.mem.getD [] ++ more).map MemEntry.record).Perm _
  rw [List.map_append, List.map_append, ← List.append_assoc]
  exact hperm.append_right _

end Replay

/-! ## The loop -/

/-- Batches with the operations they hold, numbered without gaps from `sequence` on. -/
def Consecutive : (sequence : Nat) → List (WriteBatch × List BatchOp) → Prop
  | _, [] => True
  | sequence, (b, ops) :: rest =>
    b.Encodes ops ∧ b.sequence = sequence ∧ Consecutive (sequence + ops.length) rest

/-- The operations of a list of batches. -/
def loggedOps (log : List (WriteBatch × List BatchOp)) : List BatchOp := log.flatMap Prod.snd

/-- The bytes of the batches, as `AddRecord` gets them. -/
def loggedContents (log : List (WriteBatch × List BatchOp)) : List Bytes :=
  log.map fun x => x.1.contents

/-- The greatest number after a list of batches, from `old` before it. -/
def maxAfter (old sequence : Nat) (log : List (WriteBatch × List BatchOp)) : Nat :=
  if log = [] then old else max old (sequence + (loggedOps log).length - 1)

/-- The last number of a batch, in 64 bits. -/
theorem lastSequence_eq {sequence count : Nat} (hpos : 0 < sequence + count)
    (hmax : sequence + count ≤ kMaxSequenceNumber + 1) :
    uint64 (sequence + count + (2 ^ 64 - 1)) = sequence + count - 1 := by
  have hsum : sequence + count + (2 ^ 64 - 1) = sequence + count - 1 + 2 ^ 64 := by omega
  have hsmall : sequence + count - 1 < 2 ^ 64 := by
    unfold kMaxSequenceNumber at hmax
    omega
  rw [uint64, hsum, Nat.add_mod_right, Nat.mod_eq_of_lt hsmall]

/-- **One batch.** -/
theorem recoverLoop_batch (options : Options) {io : Nat → TableIO} {r₀ r : Replay}
    {entries : List MemEntry} (h : r₀.Recovered r entries) (hio : TablesSucceed io)
    {b : WriteBatch} {ops : List BatchOp} (hb : b.Encodes ops)
    (hpos : 0 < b.sequence + ops.length)
    (hmax : b.sequence + ops.length ≤ kMaxSequenceNumber + 1) :
    r₀.Recovered (recoverLoop options io [b.contents] r) (entries ++ numbered b.sequence ops) ∧
      (recoverLoop options io [b.contents] r).maxSequence =
        max r.maxSequence (b.sequence + ops.length - 1) := by
  have hlong : ¬ b.contents.length < 12 := Nat.not_lt.mpr hb.header
  have hset : WriteBatch.setContents b.contents = b := rfl
  have hmaximum : (r.inserted (r.mem.getD [] ++ numbered b.sequence ops)
      (b.sequence + ops.length - 1)).maxSequence =
        max r.maxSequence (b.sequence + ops.length - 1) := by
    show (if _ > _ then _ else _) = _
    split <;> omega
  have hinserted := h.inserted (numbered b.sequence ops) (b.sequence + ops.length - 1)
  rw [recoverLoop, h.status, if_neg (by decide), if_neg hlong, hset]
  dsimp only
  rw [insertInto_encodes hb]
  dsimp only
  rw [if_neg (by rw [Options.maybeIgnoreError]; simp [Status.isOk]), hb.count,
    lastSequence_eq hpos hmax]
  by_cases hfull : options.approximateMemoryUsage (r.mem.getD [] ++ numbered b.sequence ops) >
      options.writeBufferSize
  · have hwritten := hinserted.writeTable hio rfl
    rw [if_pos hfull, if_pos (Status.isOk_iff.mpr hwritten.status)]
    exact ⟨hwritten, hmaximum⟩
  · rw [if_neg hfull]
    exact ⟨hinserted, hmaximum⟩

/-- **All batches of a log.** -/
theorem recoverLoop_consecutive (options : Options) {io : Nat → TableIO} {r₀ r : Replay}
    {entries : List MemEntry} {sequence : Nat} {log : List (WriteBatch × List BatchOp)}
    (h : r₀.Recovered r entries) (hio : TablesSucceed io) (hlog : Consecutive sequence log)
    (hpos : ∀ x ∈ log, 0 < x.1.sequence + x.2.length)
    (hmax : sequence + (loggedOps log).length ≤ kMaxSequenceNumber + 1) :
    r₀.Recovered (recoverLoop options io (loggedContents log) r)
        (entries ++ numbered sequence (loggedOps log)) ∧
      (recoverLoop options io (loggedContents log) r).maxSequence =
        maxAfter r.maxSequence sequence log := by
  induction log generalizing r entries sequence with
  | nil =>
    have hnone : entries ++ numbered sequence (loggedOps []) = entries := List.append_nil _
    rw [hnone]
    exact ⟨h, rfl⟩
  | cons x rest ih =>
    obtain ⟨b, ops⟩ := x
    obtain ⟨hb, rfl, hrest⟩ := hlog
    have hops : loggedOps ((b, ops) :: rest) = ops ++ loggedOps rest := rfl
    rw [hops, List.length_append] at hmax
    obtain ⟨hone, hmaxOne⟩ := recoverLoop_batch options h hio hb
      (hpos _ List.mem_cons_self) (by omega)
    obtain ⟨hall, hmaxAll⟩ := ih hone hrest
      (fun x hx => hpos x (List.mem_cons_of_mem _ hx)) (by omega)
    have hcontents : loggedContents ((b, ops) :: rest) = b.contents :: loggedContents rest := rfl
    rw [hcontents, recoverLoop_cons, hops, numbered_append, ← List.append_assoc]
    refine ⟨hall, ?_⟩
    rw [hmaxAll, hmaxOne, maxAfter, maxAfter, if_neg (List.cons_ne_nil _ _), hops,
      List.length_append]
    -- after the last batch there is no further number to take the maximum with
    by_cases hnil : rest = []
    · rw [if_pos hnil, hnil]
      rfl
    · rw [if_neg hnil]
      omega

/-! ## The whole function -/

theorem Consecutive.take {sequence : Nat} {log : List (WriteBatch × List BatchOp)}
    (h : Consecutive sequence log) (k : Nat) : Consecutive sequence (log.take k) := by
  induction log generalizing sequence k with
  | nil =>
    rw [List.take_nil]
    exact h
  | cons x rest ih =>
    cases k with
    | zero => trivial
    | succ k => exact ⟨h.1, h.2.1, ih h.2.2 k⟩

theorem loggedOps_take_length (log : List (WriteBatch × List BatchOp)) (k : Nat) :
    (loggedOps (log.take k)).length ≤ (loggedOps log).length := by
  have hsplit : loggedOps log = loggedOps (log.take k) ++ loggedOps (log.drop k) := by
    rw [loggedOps, loggedOps, loggedOps, ← List.flatMap_append, List.take_append_drop]
  rw [hsplit, List.length_append]
  exact Nat.le_add_right _ _

/-- `RecoverLogFile` on consecutive batches: at the end all entries are in tables. -/
theorem recoverLogFile_consecutive (options : Options) {io : Nat → TableIO}
    (hio : TablesSucceed io) (r : Replay) {sequence : Nat}
    {log : List (WriteBatch × List BatchOp)} (hlog : Consecutive sequence log)
    (hpos : ∀ x ∈ log, 0 < x.1.sequence + x.2.length)
    (hmax : sequence + (loggedOps log).length ≤ kMaxSequenceNumber + 1) :
    ∃ r' added, recoverLogFile options io .ok (loggedContents log) r = r' ∧ r'.status = .ok ∧
      r'.maxSequence = maxAfter r.maxSequence sequence log ∧ r.Adds r' added ∧
      (added.flatMap Prod.snd).Perm ((numbered sequence (loggedOps log)).map MemEntry.record) := by
  obtain ⟨hall, hmaximum⟩ := recoverLoop_consecutive options (Replay.recovered_start r) hio hlog
    hpos hmax
  rw [List.nil_append] at hall
  rw [recoverLogFile, if_neg (by decide)]
  dsimp only
  generalize recoverLoop options io (loggedContents log) { r with status := .ok, mem := none } = q
    at hall hmaximum
  -- the memtable that is left at the end of the log is written too
  cases hmem : q.mem with
  | none =>
    obtain ⟨added, hadds, hperm⟩ := hall.entries
    rw [hmem] at hperm
    refine ⟨q, added, rfl, hall.status, hmaximum, hadds, ?_⟩
    rwa [Option.getD_none, List.map_nil, List.append_nil] at hperm
  | some mem =>
    have hwritten := hall.writeTable hio hmem
    obtain ⟨added, hadds, hperm⟩ := hwritten.entries
    refine ⟨q.writeTable io mem, added, if_pos (Status.isOk_iff.mpr hall.status),
      hwritten.status, hmaximum, hadds, ?_⟩
    exact (List.append_nil (added.flatMap Prod.snd)) ▸ hperm

/-- **Crash recovery loses no complete write.** A log of consecutive batches is cut off
anywhere. Recovery succeeds; the tables it adds hold the entries of the batches that end
before the cut, each once; and the greatest sequence number takes these batches into
account. An empty batch is not numbered 0, since it has no last number then; the writers
number from the one after the last in use. -/
theorem recoverLogBytes_truncated (crc : Bytes → BitVec 32) (options : Options)
    {io : Nat → TableIO} (hio : TablesSucceed io) (r : Replay) {sequence : Nat}
    {log : List (WriteBatch × List BatchOp)} (hlog : Consecutive sequence log)
    (hpos : ∀ x ∈ log, 0 < x.1.sequence + x.2.length)
    (hmax : sequence + (loggedOps log).length ≤ kMaxSequenceNumber + 1)
    (m : Nat) :
    ∃ k ≤ log.length,
      (∀ i < log.length, i < k ↔
        (LogWriter.new.addRecords crc (loggedContents (log.take (i + 1)))).file.length ≤ m) ∧
      ∃ r' added,
        recoverLogBytes crc options io .ok
          ((LogWriter.new.addRecords crc (loggedContents log)).file.take m) r = r' ∧
        r'.status = .ok ∧ r'.maxSequence = maxAfter r.maxSequence sequence (log.take k) ∧
        r.Adds r' added ∧
        ((added.flatMap Prod.snd).map Record.parsed).Perm
          ((numbered sequence (loggedOps (log.take k))).map fun e => some e.parsed) := by
  obtain ⟨k, hk, hread, hends⟩ := readLog_truncated crc (loggedContents log) m
  have hlength : (loggedContents log).length = log.length := List.length_map _
  have htake : ∀ n, (loggedContents log).take n = loggedContents (log.take n) :=
    fun n => List.map_take.symm
  rw [htake] at hread
  have hmax' : sequence + (loggedOps (log.take k)).length ≤ kMaxSequenceNumber + 1 :=
    (Nat.add_le_add_left (loggedOps_take_length log k) _).trans hmax
  obtain ⟨r', added, hrecover, hstatus, hmaximum, hadds, hperm⟩ :=
    recoverLogFile_consecutive options hio r (hlog.take k)
      (fun x hx => hpos x (List.mem_of_mem_take hx)) hmax'
  refine ⟨k, hlength ▸ hk, ?_, r', added, ?_, hstatus, hmaximum, hadds, ?_⟩
  · intro i hi
    rw [hends i (hlength ▸ hi), htake]
  · rw [recoverLogBytes_eq hread]
    exact hrecover
  · refine (hperm.map Record.parsed).trans (List.Perm.of_eq ?_)
    rw [List.map_map]
    apply List.map_congr_left
    intro e he
    have hbound := (numbered_bounds _ _ e he).2
    exact MemEntry.parsed_record (by omega)

/-- A log of two batches, one with a `Put` and a `Delete` and an empty one. -/
def twoBatches : List (WriteBatch × List BatchOp) :=
  [(((WriteBatch.clear.put [1] [2]).delete [1]).setSequence 7, [.put [1] [2], .delete [1]]),
    (WriteBatch.clear.setSequence 9, [])]

theorem twoBatches_consecutive : Consecutive 7 twoBatches := by
  refine ⟨?_, by decide +kernel, WriteBatch.Encodes.clear.setSequence 9, by decide +kernel, trivial⟩
  have hput : (BatchOp.put [1] [2]).Fits := ⟨by decide, by decide⟩
  have hdelete : (BatchOp.delete [1]).Fits := show _ < _ by decide
  exact ((WriteBatch.Encodes.clear.put hput (by decide)).delete hdelete (by decide)).setSequence 7

theorem recoverLogBytes_twoBatches :
    TablesSucceed (fun _ => ⟨.ok, 1⟩) ∧ Consecutive 7 twoBatches ∧
      ∃ r', recoverLogBytes (fun _ => 0) ⟨0, true, fun _ => 0⟩ (fun _ => ⟨.ok, 1⟩) .ok
          ((LogWriter.new.addRecords (fun _ => 0) (loggedContents twoBatches)).file.take 30)
          ⟨.ok, none, .clear, .init, [], 3⟩ = r' ∧ r'.status = .ok := by
  have hio : TablesSucceed (fun _ => ⟨.ok, 1⟩) := fun _ => ⟨rfl, Nat.zero_lt_one⟩
  obtain ⟨k, -, -, r', added, hrecover, hstatus, -⟩ :=
    recoverLogBytes_truncated (fun _ => 0) ⟨0, true, fun _ => 0⟩ hio
      ⟨.ok, none, .clear, .init, [], 3⟩ twoBatches_consecutive (by decide +kernel)
      (by decide +kernel) 30
  exact ⟨hio, twoBatches_consecutive, r', hrecover, hstatus⟩

end Lpad
