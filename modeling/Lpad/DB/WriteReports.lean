import Lpad.DB.WriteQueue

/-!
# The sequence numbers that `SUWrite` reports

The entries of a group are numbered through in the order of its callers, each
batch taking as many numbers as it has entries. The numbers reported are computed
in another way: the leader reports the last number of the group, the follower in
place `i` the number `i` after the last one before the group. The two agree only
for very few groups.
-/

namespace Lpad

/-- The part of the entries of a group that belongs to the caller `w`, with
`before` the callers in front of it in the group. -/
def ownEntries (entries : List MemEntry) (before : List Writer) (w : Writer) : List MemEntry :=
  (entries.drop (before.flatMap Writer.ops).length).take w.ops.length

/-- Each caller's part of a group holds the caller's own operations. -/
theorem ownEntries_numbered (sequence : Nat) (before after : List Writer) (w : Writer) :
    ownEntries (numbered sequence ((before ++ w :: after).flatMap Writer.ops)) before w =
      numbered (sequence + (before.flatMap Writer.ops).length) w.ops := by
  rw [List.flatMap_append, List.flatMap_cons, numbered_append, numbered_append, ownEntries,
    List.drop_left' (numbered_length _ _), List.take_left' (numbered_length _ _)]

/-- Every `SUWrite` caller with entries of its own reports the number of the last
of them. -/
def ReportsOwn (entries : List MemEntry) (replies : List Reply) : Prop :=
  ∀ (i : Nat) (r : Reply) (n : Nat), replies[i]? = some r → r.seq = some n → r.writer.ops ≠ [] →
    ((ownEntries entries ((replies.map Reply.writer).take i) r.writer).getLast?).map
      MemEntry.sequence = some n

/-- The number of entries of some callers. -/
def entryCount (ws : List Writer) : Nat := (ws.flatMap Writer.ops).length

/-- **The groups that report correctly.** A leader in `SUWrite` is alone in having
entries, and a follower in `SUWrite` that has entries and stands in place `i` of the
group is preceded by so many entries that it ends with the `i`-th. -/
structure Aligned (first : Writer) (rest : List Writer) : Prop where
  leader : first.su = true → first.ops ≠ [] → ∀ w ∈ rest, w.ops = []
  follower : ∀ (i : Nat) (w : Writer), rest[i]? = some w → w.su = true → w.ops ≠ [] →
    entryCount ((first :: rest).take (i + 2)) = i + 1

theorem entryCount_cons (w : Writer) (ws : List Writer) :
    entryCount (w :: ws) = w.ops.length + entryCount ws := by
  rw [entryCount, List.flatMap_cons, List.length_append]
  rfl

theorem entryCount_append (ws ws' : List Writer) :
    entryCount (ws ++ ws') = entryCount ws + entryCount ws' := by
  rw [entryCount, List.flatMap_append, List.length_append]
  rfl

theorem entryCount_eq_zero_iff {ws : List Writer} : entryCount ws = 0 ↔ ∀ w ∈ ws, w.ops = [] := by
  rw [entryCount, List.length_eq_zero_iff, List.flatMap_eq_nil_iff]

/-- The last number of a caller's own entries. -/
theorem ownEntries_last {sequence i : Nat} {members : List Writer} {w : Writer}
    (hw : members[i]? = some w) (hops : w.ops ≠ []) :
    ((ownEntries (numbered (sequence + 1) (members.flatMap Writer.ops)) (members.take i)
      w).getLast?).map MemEntry.sequence = some (sequence + entryCount (members.take (i + 1))) := by
  obtain ⟨hi, hget⟩ := List.getElem?_eq_some_iff.mp hw
  have hsplit : members = members.take i ++ w :: members.drop (i + 1) := by
    rw [← hget, List.getElem_cons_drop, List.take_append_drop]
  have hown := ownEntries_numbered (sequence + 1) (members.take i) (members.drop (i + 1)) w
  rw [← hsplit] at hown
  obtain ⟨e, he, hseq⟩ := numbered_getLast hops (sequence + 1 +
    ((members.take i).flatMap Writer.ops).length)
  have hcount : entryCount (members.take (i + 1)) =
      ((members.take i).flatMap Writer.ops).length + w.ops.length := by
    rw [List.take_add_one, hw, entryCount, List.flatMap_append]
    simp
  rw [hown, he, hcount]
  simp only [Option.map_some, Option.some.injEq]
  omega

theorem Group.replies_writer (g : Group) (leader : Writer) (status : Status) (last : Nat) :
    (g.replies leader status last).map Reply.writer = g.members leader := by
  simp [Group.replies, Group.members, Writer.reply, Function.comp_def]

theorem Writer.reply_seq {w : Writer} {status : Status} {m n : Nat} :
    (w.reply status m).seq = some n ↔ w.su = true ∧ m = n := by
  unfold Writer.reply
  split <;> simp [*]

/-- **Which groups report correctly.** `sequence` is the last number before the
group. -/
theorem Group.reportsOwn_iff (g : Group) (leader : Writer) (status : Status) {sequence : Nat}
    (hseq : ∀ j f, g.followers[j]? = some f → f.seq = sequence + (j + 1)) :
    ReportsOwn (numbered (sequence + 1) (g.ops leader))
        (g.replies leader status (sequence + (g.ops leader).length)) ↔
      Aligned leader (g.followers.map Follower.writer) := by
  have hown : ∀ i w, (g.members leader)[i]? = some w → w.ops ≠ [] →
      ((ownEntries (numbered (sequence + 1) (g.ops leader)) ((g.members leader).take i)
        w).getLast?).map MemEntry.sequence =
          some (sequence + entryCount ((g.members leader).take (i + 1))) :=
    fun i w hw hops => ownEntries_last hw hops
  have htotal : (g.ops leader).length =
      leader.ops.length + entryCount (g.followers.map Follower.writer) := entryCount_cons _ _
  have hone : entryCount [leader] = leader.ops.length := by simp [entryCount]
  constructor
  · intro h
    constructor
    case leader =>
      intro hsu hops
      have h0 := h 0 _ _ rfl (Writer.reply_seq.mpr ⟨hsu, rfl⟩) hops
      rw [Group.replies_writer] at h0
      have heq := Option.some.inj ((hown 0 leader rfl hops).symm.trans h0)
      rw [htotal] at heq
      refine entryCount_eq_zero_iff.mp ?_
      have : entryCount ((g.members leader).take (0 + 1)) = leader.ops.length := hone
      omega
    case follower =>
      intro i w hw hsu hops
      obtain ⟨f, hf, rfl⟩ := List.getElem?_map .. ▸ hw |> Option.map_eq_some_iff.mp
      have hi := h (i + 1) (f.writer.reply status f.seq) f.seq
        (by simp [Group.replies, hf]) (Writer.reply_seq.mpr ⟨hsu, rfl⟩) hops
      rw [Group.replies_writer] at hi
      have heq := Option.some.inj ((hown (i + 1) f.writer hw hops).symm.trans hi)
      rw [hseq i f hf] at heq
      exact Nat.add_left_cancel heq
  · intro h i r n hr hn hops
    rw [Group.replies_writer]
    cases i with
    | zero =>
      cases hr
      obtain ⟨hsu, rfl⟩ := Writer.reply_seq.mp hn
      refine (hown 0 leader rfl hops).trans (congrArg some ?_)
      have hzero := entryCount_eq_zero_iff.mpr (h.leader hsu hops)
      have : entryCount ((g.members leader).take (0 + 1)) = leader.ops.length := hone
      omega
    | succ i =>
      rw [Group.replies, List.getElem?_cons_succ, List.getElem?_map,
        Option.map_eq_some_iff] at hr
      obtain ⟨f, hf, rfl⟩ := hr
      obtain ⟨hsu, rfl⟩ := Writer.reply_seq.mp hn
      have hw : (g.followers.map Follower.writer)[i]? = some f.writer := by simp [hf]
      refine (hown (i + 1) f.writer hw hops).trans (congrArg some ?_)
      rw [hseq i f hf]
      exact congrArg _ (h.follower i f.writer hw hsu hops)

/-- Callers that arrive while a group is being logged. -/
theorem Queue.arrivals (ws : List Writer) : ∀ q : Queue,
    ws.foldl Queue.arrive q = { q with writers := q.writers ++ ws } := by
  induction ws with
  | nil => intro q; simp
  | cons w ws ih =>
    intro q
    rw [List.foldl_cons, ih]
    simp [Queue.arrive]

/-- The queue after `leader` has committed the group `g` without I/O error. -/
def Queue.served (q : Queue) (leader : Writer) (rest : List Writer) (g : Group) : Queue where
  db := { q.db with
    lastSequence := q.db.lastSequence + (g.ops leader).length
    log := q.db.log ++ [(g.updates.setSequence (q.db.lastSequence + 1)).contents]
    mem := q.db.mem ++ numbered (q.db.lastSequence + 1) (g.ops leader) }
  writers := rest.drop g.followers.length
  leading := none
  replies := q.replies ++ g.replies leader .ok (q.db.lastSequence + (g.ops leader).length)

theorem Queue.lead_ok {q : Queue} {leader : Writer} {b : Batch} {rest : List Writer}
    (hidle : q.leading = none) (hwriters : q.writers = leader :: rest)
    (hbatch : leader.batch = some b) (hbg : q.db.bgError = .ok) :
    q.lead .ok = some { q with
      leading := some (buildBatchGroup leader b rest q.db.lastSequence) } := by
  simp [Queue.lead, hidle, hwriters, hbatch, hbg, Status.isOk]

theorem Queue.commit_ok {q : Queue} {leader : Writer} {rest : List Writer} {g : Group}
    (hleading : q.leading = some g) (hwriters : q.writers = leader :: rest)
    (henc : g.updates.Encodes (g.ops leader))
    (hfit : q.db.lastSequence + 1 + (g.ops leader).length < 2 ^ 64) :
    q.commit ⟨.ok, .ok⟩ = some (q.served leader rest g) := by
  simp [Queue.commit, hleading, hwriters, WriteState.commit_ok henc hfit, Queue.served]

/-- **What `SUWrite` reports.** Take any queue of callers whose first one has a
batch, let it lead a group, let other callers arrive, and let it commit without
I/O error. The entries of the group are then in the memtable and, on replay, in
the log, each caller's operations in one piece; all callers of the group get an
OK; and the `SUWrite` callers among them report the numbers of their own last
entries if and only if the group is aligned. -/
theorem suWrite_reports_own_iff (q : Queue) (leader : Writer) (b : Batch) (rest : List Writer)
    (hidle : q.leading = none) (hwriters : q.writers = leader :: rest)
    (hbatch : leader.batch = some b) (hbg : q.db.bgError = .ok) (arrivals : List Writer)
    (g : Group) (hg : g = buildBatchGroup leader b rest q.db.lastSequence)
    (hfit : q.db.lastSequence + (g.ops leader).length ≤ kMaxSequenceNumber) :
    ∃ (q' : Queue) (entries : List MemEntry) (record : Bytes),
      ((q.lead .ok).bind fun q1 => (arrivals.foldl Queue.arrive q1).commit ⟨.ok, .ok⟩) = some q' ∧
      q'.db.mem = q.db.mem ++ entries ∧
      q'.db.log = q.db.log ++ [record] ∧
      insertInto (WriteBatch.setContents record) [] = (entries, .ok) ∧
      q'.replies = q.replies ++ g.replies leader .ok q'.db.lastSequence ∧
      (∀ before w after, leader :: g.followers.map Follower.writer = before ++ w :: after →
        ownEntries entries before w =
          numbered (q.db.lastSequence + 1 + entryCount before) w.ops) ∧
      (ReportsOwn entries (g.replies leader .ok q'.db.lastSequence) ↔
        Aligned leader (g.followers.map Follower.writer)) := by
  have hfit64 : q.db.lastSequence + 1 + (g.ops leader).length < 2 ^ 64 := by
    have : kMaxSequenceNumber < 2 ^ 63 := by decide
    omega
  have henc : g.updates.Encodes (g.ops leader) := hg ▸ buildBatchGroup_encodes hbatch rest _
  refine ⟨Queue.served { q with
      leading := some g
      writers := q.writers ++ arrivals } leader (rest ++ arrivals) g,
    numbered (q.db.lastSequence + 1) (g.ops leader),
    (g.updates.setSequence (q.db.lastSequence + 1)).contents, ?_, rfl, rfl, ?_, rfl, ?_, ?_⟩
  · rw [Queue.lead_ok hidle hwriters hbatch hbg, Option.bind_some, Queue.arrivals, ← hg]
    exact Queue.commit_ok rfl (by simp [hwriters]) henc hfit64
  · exact insertInto_contents henc (by omega) []
  · intro before w after hsplit
    rw [Group.ops, Group.members, hsplit]
    exact ownEntries_numbered _ before after w
  · exact g.reportsOwn_iff leader .ok fun j f hf => buildBatchGroup_seq (hg ▸ hf)

/-- A caller of `SUWrite` with the single entry `key`, `value`. -/
def singlePut (owner : Nat) (key value : Byte) : Writer where
  owner := owner
  batch := some (Batch.empty.put [key] [value] (by simp [BatchOp.Fits]) Batch.length_empty_lt)
  sync := false
  su := true

/-- Two such callers in an empty database. -/
def twoPuts : Queue :=
  (Queue.init.arrive (singlePut 0 97 1)).arrive (singlePut 1 98 2)

theorem suWrite_reports_own_iff_twoPuts :
    ∃ (b : Batch) (g : Group) (q' : Queue) (entries : List MemEntry),
      g = buildBatchGroup (singlePut 0 97 1) b [singlePut 1 98 2] 0 ∧
      ((twoPuts.lead .ok).bind fun q1 => q1.commit ⟨.ok, .ok⟩) = some q' ∧
      (ReportsOwn entries (g.replies (singlePut 0 97 1) .ok q'.db.lastSequence) ↔
        Aligned (singlePut 0 97 1) (g.followers.map Follower.writer)) := by
  obtain ⟨q', entries, -, hq', -, -, -, -, -, hiff⟩ :=
    suWrite_reports_own_iff twoPuts (singlePut 0 97 1) _ [singlePut 1 98 2] rfl rfl rfl rfl []
      _ rfl (by decide)
  exact ⟨_, _, q', entries, rfl, hq', hiff⟩

/-- The two are served as one group. The first caller's entry has number 1 and the
second one's has number 2, but the first reports 2 and the second 1. -/
theorem suWrite_reports_crossed :
    ∃ q', ((twoPuts.lead .ok).bind fun q1 => q1.commit ⟨.ok, .ok⟩) = some q' ∧
      q'.db.mem = [⟨1, .kTypeValue, [97], [1]⟩, ⟨2, .kTypeValue, [98], [2]⟩] ∧
      q'.replies.map (fun r => (r.writer.owner, r.status, r.seq)) =
        [(0, .ok, some 2), (1, .ok, some 1)] :=
  ⟨_, rfl, by decide, by decide⟩

end Lpad
