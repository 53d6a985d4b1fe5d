import Lpad.DB.WriteBatch
import Mathlib.Data.List.Basic

/-!
# The writer queue and group commit

`DBImpl::Write`, `DBImpl::SUWrite` and `DBImpl::BuildBatchGroup`. Callers queue up
in `writers_`. The one in front builds a group out of its own batch and those of
the callers behind it, logs the group as one record, inserts it into the memtable,
advances the last sequence number by the number of entries and wakes the callers
it has served. `SUWrite` differs from `Write` in that it also hands a sequence
number back: the leader of the group the last number of the group, a follower the
number that `BuildBatchGroup` left in its `Writer`.

The mutex is released while the group is logged, so a group is built in one step
(`lead`) and committed in a later one (`commit`); callers may arrive in between.
-/

namespace Lpad

/-- A batch as clients build it, with the operations it holds. -/
structure Batch where
  rep : WriteBatch
  ops : List BatchOp
  encodes : rep.Encodes ops

namespace Batch

def empty : Batch := ⟨WriteBatch.clear, [], WriteBatch.Encodes.clear⟩

theorem length_empty_lt : empty.ops.length + 1 < 2 ^ 31 := by decide

/-- `WriteBatch::Put` -/
def put (b : Batch) (key value : Bytes) (hfits : (BatchOp.put key value).Fits)
    (hsmall : b.ops.length + 1 < 2 ^ 31) : Batch :=
  ⟨b.rep.put key value, b.ops ++ [.put key value], b.encodes.put hfits hsmall⟩

/-- `WriteBatch::Delete` -/
def delete (b : Batch) (key : Bytes) (hfits : (BatchOp.delete key).Fits)
    (hsmall : b.ops.length + 1 < 2 ^ 31) : Batch :=
  ⟨b.rep.delete key, b.ops ++ [.delete key], b.encodes.delete hfits hsmall⟩

end Batch

/-- `DBImpl::Writer`, and whether the caller is in `SUWrite` or in `Write`. The
caller's number `owner` stands for the address of the object. -/
structure Writer where
  owner : Nat
  batch : Option Batch
  sync : Bool
  su : Bool

/-- The operations of a caller, none for a `NULL` batch. -/
def Writer.ops (w : Writer) : List BatchOp :=
  match w.batch with
  | none => []
  | some b => b.ops

/-! ## `BuildBatchGroup` -/

/-- A caller that joins the group, with the `seq` left in its `Writer`. -/
structure Follower where
  writer : Writer
  seq : Nat

/-- The loop of `BuildBatchGroup` over the callers behind `first`: the callers that
join, and the temporary batch once it is in use (`none`: `result == first->batch`). -/
def groupLoop (firstSync : Bool) (first : WriteBatch) (maxSize sequence : Nat) :
    List Writer → (size : Nat) → (result : Option WriteBatch) → (i : Nat) →
      List Follower × Option WriteBatch
  | [], _, result, _ => ([], result)
  | w :: rest, size, result, i =>
    -- a sync write does not join a group led by a non-sync write
    if w.sync && !firstSync then ([], result)
    else
      match w.batch with
      | none =>
        let r := groupLoop firstSync first maxSize sequence rest size result (i + 1)
        (⟨w, sequence + i⟩ :: r.1, r.2)
      | some b =>
        if maxSize < size + b.rep.byteSize then ([], result)
        else
          let tmp := result.getD (WriteBatch.clear.append first)
          let r := groupLoop firstSync first maxSize sequence rest (size + b.rep.byteSize)
            (some (tmp.append b.rep)) (i + 1)
          (⟨w, sequence + i⟩ :: r.1, r.2)

/-- What `BuildBatchGroup` returns and leaves in the queue. -/
structure Group where
  updates : WriteBatch
  followers : List Follower

/-- The limit on the bytes of a group, lower when the first batch is small. -/
def maxGroupSize (size : Nat) : Nat :=
  if size ≤ 128 * 2 ^ 10 then size + 128 * 2 ^ 10 else 2 ^ 20

/-- `BuildBatchGroup` on a queue whose first caller is `first` with batch `b`. -/
def buildBatchGroup (first : Writer) (b : Batch) (rest : List Writer) (sequence : Nat) : Group :=
  let size := b.rep.byteSize
  let r := groupLoop first.sync b.rep (maxGroupSize size) sequence rest size none 1
  ⟨r.2.getD b.rep, r.1⟩

/-! ## Committing a group -/

/-- The part of the database that writing changes. `mem` lists all entries ever
added to the memtable that was current at the time. -/
structure WriteState where
  lastSequence : Nat
  log : List Bytes
  mem : MemTable
  bgError : Status

def WriteState.init : WriteState := ⟨0, [], [], .ok⟩

/-- `RecordBackgroundError`: the first error stays. -/
def WriteState.recordBackgroundError (db : WriteState) (s : Status) : WriteState :=
  if db.bgError.isOk then { db with bgError := s } else db

/-- How `AddRecord` and `Sync` end. -/
structure LogIO where
  addRecord : Status
  sync : Status

/-- From `SetSequence` to `SetLastSequence`: the new state and the status. The last
sequence number advances whether or not the group reached the log. -/
def WriteState.commit (db : WriteState) (updates : WriteBatch) (sync : Bool) (io : LogIO) :
    WriteState × Status :=
  let batch := updates.setSequence (db.lastSequence + 1)
  let last := uint64 (db.lastSequence + batch.count)
  if !io.addRecord.isOk then ({ db with lastSequence := last }, io.addRecord)
  else
    let db := { db with log := db.log ++ [batch.contents] }
    if sync && !io.sync.isOk then
      ({ db.recordBackgroundError io.sync with lastSequence := last }, io.sync)
    else
      let r := insertInto batch db.mem
      ({ db with mem := r.1, lastSequence := last }, r.2)

/-- What a caller gets: the status, and for `SUWrite` the number in `*seq`. -/
structure Reply where
  writer : Writer
  status : Status
  seq : Option Nat

def Writer.reply (w : Writer) (status : Status) (n : Nat) : Reply :=
  ⟨w, status, if w.su then some n else none⟩

/-- The replies of a group: the leader reports the last number of the group, a
follower the number `BuildBatchGroup` gave it. -/
def Group.replies (g : Group) (leader : Writer) (status : Status) (last : Nat) : List Reply :=
  leader.reply status last :: g.followers.map fun f => f.writer.reply status f.seq

/-! ## The queue over time -/

/-- `writers_` with the database. `leading` is the group that the caller in front
has built and is logging; `replies` records the calls that have returned. -/
structure Queue where
  db : WriteState
  writers : List Writer
  leading : Option Group
  replies : List Reply

def Queue.init : Queue := ⟨WriteState.init, [], none, []⟩

/-- A caller pushes its `Writer`. -/
def Queue.arrive (q : Queue) (w : Writer) : Queue := { q with writers := q.writers ++ [w] }

/-- The caller in front comes back from `MakeRoomForWrite`, which ended with `room`
unless there is a background error. It builds its group; a caller with a `NULL`
batch or without room leaves at once. -/
def Queue.lead (q : Queue) (room : Status) : Option Queue :=
  match q.leading, q.writers with
  | none, w :: rest =>
    let status := if q.db.bgError.isOk then room else q.db.bgError
    match w.batch with
    | some b =>
      if status.isOk then
        some { q with leading := some (buildBatchGroup w b rest q.db.lastSequence) }
      else some { q with writers := rest, replies := q.replies ++ [⟨w, status, none⟩] }
    | none => some { q with writers := rest, replies := q.replies ++ [⟨w, status, none⟩] }
  | _, _ => none

/-- The caller in front commits its group and leaves with it. -/
def Queue.commit (q : Queue) (io : LogIO) : Option Queue :=
  match q.leading, q.writers with
  | some g, w :: rest =>
    let r := q.db.commit g.updates w.sync io
    some { db := r.1
           writers := rest.drop g.followers.length
           leading := none
           replies := q.replies ++ g.replies w r.2 r.1.lastSequence }
  | _, _ => none

/-! ## What a group is made of -/

/-- The callers of a group, its leader first. -/
def Group.members (g : Group) (leader : Writer) : List Writer :=
  leader :: g.followers.map Follower.writer

/-- The callers that join are the next ones of the queue, in its order. -/
theorem groupLoop_followers (firstSync : Bool) (first : WriteBatch) (maxSize sequence : Nat) :
    ∀ (rest : List Writer) (size : Nat) (result : Option WriteBatch) (i : Nat),
      (groupLoop firstSync first maxSize sequence rest size result i).1.map Follower.writer <+:
        rest
  | [], _, _, _ => List.prefix_refl _
  | w :: rest, size, result, i => by
    unfold groupLoop
    split
    · exact List.nil_prefix
    · split
      · exact (List.cons_prefix_cons).mpr
          ⟨rfl, groupLoop_followers firstSync first maxSize sequence rest _ _ _⟩
      · split
        · exact List.nil_prefix
        · exact (List.cons_prefix_cons).mpr
            ⟨rfl, groupLoop_followers firstSync first maxSize sequence rest _ _ _⟩

/-- The numbers they get are counted on by one, whatever their batches are. -/
theorem groupLoop_seq (firstSync : Bool) (first : WriteBatch) (maxSize sequence : Nat) :
    ∀ (rest : List Writer) (size : Nat) (result : Option WriteBatch) (i j : Nat) (f : Follower),
      (groupLoop firstSync first maxSize sequence rest size result i).1[j]? = some f →
        f.seq = sequence + (i + j)
  | [], _, _, _, j, f, h => by simp [groupLoop] at h
  | w :: rest, size, result, i, j, f, h => by
    have ih := groupLoop_seq firstSync first maxSize sequence rest
    have hcons : ∀ fs : List Follower, (∀ k g, fs[k]? = some g → g.seq = sequence + (i + 1 + k)) →
        (⟨w, sequence + i⟩ :: fs : List Follower)[j]? = some f → f.seq = sequence + (i + j) := by
      intro fs hfs hj
      cases j with
      | zero =>
        cases hj
        rfl
      | succ j =>
        rw [hfs j f hj, Nat.add_assoc i, Nat.add_comm 1]
    unfold groupLoop at h
    split at h
    · simp at h
    · split at h
      · exact hcons _ (fun k g => ih size result (i + 1) k g) h
      · split at h
        · simp at h
        · exact hcons _ (fun k g => ih _ _ (i + 1) k g) h

/-- **The batch of a group** holds the operations of its callers in order. `ops` are
the operations collected so far; `size` counts their bytes, which keeps the entries
far below the limit of the count. -/
theorem groupLoop_encodes (firstSync : Bool) (first : WriteBatch) {maxSize : Nat}
    (sequence : Nat) (hmax : maxSize < 2 ^ 31) :
    ∀ (rest : List Writer) (size : Nat) (result : Option WriteBatch) (i : Nat)
      (ops : List BatchOp), ops.length ≤ size → (result.getD first).Encodes ops →
      (result = none → first.Encodes ops) →
      ((groupLoop firstSync first maxSize sequence rest size result i).2.getD first).Encodes
        (ops ++ (groupLoop firstSync first maxSize sequence rest size result i).1.flatMap
          fun f => f.writer.ops)
  | [], size, result, i, ops, _, henc, _ => by simpa [groupLoop] using henc
  | w :: rest, size, result, i, ops, hsize, henc, hfirst => by
    unfold groupLoop
    split
    · simpa using henc
    · split
      · rename_i hnull
        have hops : w.ops = [] := by simp [Writer.ops, hnull]
        have ih := groupLoop_encodes firstSync first sequence hmax rest size result (i + 1) ops
          hsize henc hfirst
        simpa [hops] using ih
      · rename_i b hbatch
        split
        · simpa using henc
        · rename_i hfits
          have hops : w.ops = b.ops := by simp [Writer.ops, hbatch]
          have hb := b.encodes.length_le_byteSize
          have htmp : (result.getD (WriteBatch.clear.append first)).Encodes ops := by
            cases result with
            | none => exact WriteBatch.Encodes.clear.append (hfirst rfl) (by simp; omega)
            | some r => exact henc
          have hnext := htmp.append b.encodes (by omega)
          have ih := groupLoop_encodes firstSync first sequence hmax rest
            (size + b.rep.byteSize)
            (some ((result.getD (WriteBatch.clear.append first)).append b.rep)) (i + 1)
            (ops ++ b.ops) (by rw [List.length_append]; omega) hnext (by simp)
          simpa [hops, List.append_assoc] using ih

/-- The operations of a group. -/
def Group.ops (g : Group) (leader : Writer) : List BatchOp :=
  (g.members leader).flatMap Writer.ops

theorem buildBatchGroup_encodes {first : Writer} {b : Batch} (hb : first.batch = some b)
    (rest : List Writer) (sequence : Nat) :
    (buildBatchGroup first b rest sequence).updates.Encodes
      ((buildBatchGroup first b rest sequence).ops first) := by
  have hops : first.ops = b.ops := by simp [Writer.ops, hb]
  have hsize := b.encodes.length_le_byteSize
  have hmax : maxGroupSize b.rep.byteSize < 2 ^ 31 := by
    unfold maxGroupSize
    split <;> omega
  have h := groupLoop_encodes first.sync b.rep sequence hmax rest b.rep.byteSize none 1 b.ops
    (by omega) b.encodes (fun _ => b.encodes)
  rw [Group.ops, Group.members, List.flatMap_cons, hops, List.flatMap_map]
  exact h

theorem buildBatchGroup_prefix (first : Writer) (b : Batch) (rest : List Writer)
    (sequence : Nat) :
    (buildBatchGroup first b rest sequence).followers.map Follower.writer <+: rest :=
  groupLoop_followers ..

theorem buildBatchGroup_seq {first : Writer} {b : Batch} {rest : List Writer} {sequence : Nat}
    {j : Nat} {f : Follower}
    (h : (buildBatchGroup first b rest sequence).followers[j]? = some f) :
    f.seq = sequence + (j + 1) := by
  rw [groupLoop_seq _ _ _ _ _ _ _ _ _ _ h, Nat.add_comm 1]

/-- A commit uses up the numbers of its operations. Either it inserts all of them or it
fails before. -/
theorem WriteState.commit_cases (db : WriteState) {updates : WriteBatch} {ops : List BatchOp}
    (h : updates.Encodes ops) (hseq : db.lastSequence + ops.length ≤ kMaxSequenceNumber)
    (sync : Bool) (io : LogIO) :
    (db.commit updates sync io).1.lastSequence = db.lastSequence + ops.length ∧
      ((db.commit updates sync io).1.mem = db.mem ∨
        (db.commit updates sync io).1.mem = db.mem ++ numbered (db.lastSequence + 1) ops) := by
  unfold kMaxSequenceNumber at hseq
  have henc := h.setSequence (db.lastSequence + 1)
  have hfirst : (updates.setSequence (db.lastSequence + 1)).sequence = db.lastSequence + 1 :=
    updates.sequence_setSequence (by omega)
  have hlast : uint64 (db.lastSequence + (updates.setSequence (db.lastSequence + 1)).count) =
      db.lastSequence + ops.length := by
    rw [henc.count]
    exact uint64_of_lt (by omega)
  unfold commit
  dsimp only
  rw [hlast]
  split
  · exact ⟨rfl, Or.inl rfl⟩
  · split
    · refine ⟨rfl, Or.inl ?_⟩
      unfold WriteState.recordBackgroundError
      split <;> rfl
    · refine ⟨rfl, Or.inr ?_⟩
      rw [insertInto_encodes henc, hfirst]

/-- **Committing a group without I/O error**: the operations go to the log and to
the memtable numbered from the next sequence number on. -/
theorem WriteState.commit_ok {db : WriteState} {updates : WriteBatch} {ops : List BatchOp}
    (h : updates.Encodes ops) (hseq : db.lastSequence + 1 + ops.length < 2 ^ 64) (sync : Bool) :
    db.commit updates sync ⟨.ok, .ok⟩ =
      ({ db with
          lastSequence := db.lastSequence + ops.length
          log := db.log ++ [(updates.setSequence (db.lastSequence + 1)).contents]
          mem := db.mem ++ numbered (db.lastSequence + 1) ops }, .ok) := by
  have henc := h.setSequence (db.lastSequence + 1)
  have hfirst : (updates.setSequence (db.lastSequence + 1)).sequence = db.lastSequence + 1 :=
    updates.sequence_setSequence (by omega)
  have hlast : uint64 (db.lastSequence + ops.length) = db.lastSequence + ops.length :=
    uint64_of_lt (by omega)
  simp only [WriteState.commit, Status.isOk, insertInto_encodes henc, henc.count, hfirst, hlast]
  simp

/-- Replaying the record of a group gives the same entries again. -/
theorem insertInto_contents {updates : WriteBatch} {ops : List BatchOp} (h : updates.Encodes ops)
    {seq : Nat} (hseq : seq < 2 ^ 64) (mem : MemTable) :
    insertInto (WriteBatch.setContents (updates.setSequence seq).contents) mem =
      (mem ++ numbered seq ops, .ok) := by
  have hrec := insertInto_encodes (h.setSequence seq) mem
  rwa [updates.sequence_setSequence hseq] at hrec

end Lpad
