import Lpad.DB.DropIndependence

/-!
# Which records survive the merge buffers

A record travels through a slot of 32 key bytes and 100 value bytes, while its sizes
travel beside it in full. A record that fits comes out of `TableBuilder::Add` as it
went into the channel, whatever the buffers held before and whatever else they hold.
One that does not fit is cut at the end of the slot, and the slice that `do_flush_1c`
makes of it goes on into the bytes of the next slot.

`compaction_preserves_record_iff` says that this is exact: for each record that does
not fit there is a run in which what reaches the table is another record. The run is
always of one kind. A compaction of two records leaves a chosen byte in the second
slot of the output buffer, and the next compaction has only the record in question.
-/

namespace Lpad

/-! ## From the draws to the tables -/

/-- How many of the first `i` calls of `SU_flush_data` have reached
`TableBuilder::Add`. -/
def addIndex (outcomes : List Outcome) (i : Nat) : Nat :=
  (outcomes.take i).countP fun o => decide (o.fate = .added)

/-- The record of an `added` call is found in the tables at the place that its
predecessors leave for it. -/
theorem addedRecords_getElem? {outcomes : List Outcome} {i : Nat} {o : Outcome}
    (h : outcomes[i]? = some o) (hfate : o.fate = .added) :
    (addedRecords outcomes)[addIndex outcomes i]? = some o.record := by
  obtain ⟨hi, rfl⟩ := List.getElem?_eq_some_iff.mp h
  have hfilter : (outcomes.filter fun o => decide (o.fate = .added)) =
      ((outcomes.take i).filter fun o => decide (o.fate = .added)) ++
        outcomes[i] :: (outcomes.drop (i + 1)).filter fun o => decide (o.fate = .added) := by
    conv_lhs => rw [← List.take_append_drop i outcomes, List.drop_eq_getElem_cons hi]
    rw [List.filter_append, List.filter_cons_of_pos (by simpa using hfate)]
  have hlen : ((outcomes.take i).filter fun o => decide (o.fate = .added)).length =
      addIndex outcomes i := by
    rw [addIndex, List.countP_eq_length_filter]
  rw [addedRecords, List.getElem?_map, hfilter, List.getElem?_append_right (by rw [hlen]), hlen,
    Nat.sub_self]
  rfl

/-- The `i`-th call of `SU_flush_data` gets the record drawn `i`-th, as far as it fits
its slot. -/
theorem outcome_preserved {job : CompactionJob} {g : Globals} {w : Merge}
    {out : List Record} (hitems : List.Forall₂ Preserved out w.flushed.flatten) {i : Nat}
    {r : Record} {o : Outcome} (hr : out[i]? = some r)
    (ho : (job.conclude g w).outcomes[i]? = some o) : Preserved r o.record := by
  have hrec : w.flushed.flatten[i]? = some o.record := by
    have h := congrArg (Option.map Outcome.record) ho
    rw [← List.getElem?_map, CompactionJob.conclude_outcomes, CompactionJob.flushes,
      CompactionState.flushAll_records] at h
    exact h
  obtain ⟨hi, rfl⟩ := List.getElem?_eq_some_iff.mp hr
  obtain ⟨hi', heq⟩ := List.getElem?_eq_some_iff.mp hrec
  have hget := hitems.get hi hi'
  rw [List.get_eq_getElem, List.get_eq_getElem] at hget
  rwa [heq] at hget

/-! ## A compaction of one record -/

/-- The merge of a single record, step by step: it is loaded into slot 0 of channel 0,
copied to slot 0 of the output buffer, and flushed. Behind the copy the output buffer
is as it was. -/
theorem onecEnclCompact_single {arg : GArg} (hclean : arg.Clean) {iter : Nat → List Record}
    {r : Record} (hiter : iter 0 = [r]) (fuel : Nat) :
    (onecEnclCompact (fuel + 2) 1 arg iter).map Merge.flushed = some [[
      ⟨readBytes (writeBytes arg.out.key 0
          (readBytes (writeBytes (arg.chan 0).keyData 0 (r.key.take 32)) 0 32)) 0 r.key.length,
        readBytes (writeBytes arg.out.value 0
          (readBytes (writeBytes (arg.chan 0).valueData 0 (r.value.take 100)) 0 100))
          0 r.value.length⟩]] := by
  have hindex := hclean.index 0
  have hout := hclean.out
  simp [onecEnclCompact, Merge.onecReadKV, Channel.readKV, Channel.reload, Channel.reloadLoop,
    Channel.loadSlot, Channel.setIndex, Merge.setChannel, bufferSize, Merge.compactLoop,
    Merge.onecFindSmallest, Merge.findStep, Merge.fetch, Merge.onecWriteKV, OutBuffer.put,
    Merge.flush, OutBuffer.slices, List.range_succ, hindex, hout, hiter]

/-- A slice that is longer than its slot shows the byte behind the slot. -/
theorem readBytes_behind (mem : Nat → Byte) (bs : Bytes) {len : Nat} (h : bs.length < len) :
    (readBytes (writeBytes mem 0 bs) 0 len)[bs.length]? = some (mem bs.length) := by
  rw [readBytes, List.getElem?_map, List.getElem?_range h]
  simp [writeBytes]

/-- A record that does not fit its slot picks up a byte of the next one. -/
theorem onecEnclCompact_single_ne {arg : GArg} (hclean : arg.Clean)
    {iter : Nat → List Record} {r : Record} (hiter : iter 0 = [r])
    (hlong : (∃ b, r.key[32]? = some b ∧ arg.out.key 32 ≠ b) ∨
      ∃ b, r.value[100]? = some b ∧ arg.out.value 100 ≠ b) (fuel : Nat) :
    ∃ w item, onecEnclCompact (fuel + 2) 1 arg iter = some w ∧ w.flushed.flatten = [item] ∧
      item.key.length = r.key.length ∧ item ≠ r := by
  obtain ⟨w, hw, hflushed⟩ := Option.map_eq_some_iff.mp (onecEnclCompact_single hclean hiter fuel)
  refine ⟨w, _, hw, by rw [hflushed]; rfl, by simp, ?_⟩
  rintro heq
  rcases hlong with ⟨b, hb, hne⟩ | ⟨b, hb, hne⟩
  · have hlen := (List.getElem?_eq_some_iff.mp hb).1
    have hbyte := readBytes_behind arg.out.key
      (readBytes (writeBytes (arg.chan 0).keyData 0 (r.key.take 32)) 0 32)
      (by simpa : _ < r.key.length)
    have hkey := congrArg Record.key heq
    dsimp only at hkey
    rw [hkey, readBytes_length, hb] at hbyte
    exact hne (Option.some.inj hbyte).symm
  · have hlen := (List.getElem?_eq_some_iff.mp hb).1
    have hbyte := readBytes_behind arg.out.value
      (readBytes (writeBytes (arg.chan 0).valueData 0 (r.value.take 100)) 0 100)
      (by simpa : _ < r.value.length)
    have hvalue := congrArg Record.value heq
    dsimp only at hvalue
    rw [hvalue, readBytes_length, hb] at hbyte
    exact hne (Option.some.inj hbyte).symm

/-! ## The run that spoils a record -/

/-- A compaction of two records. The second one, with `y` as the first byte of its key
and `z` as its value, goes through slot 1 of the output buffer and stays there. -/
def staleJob (y z : Byte) : CompactionJob :=
  let first := appendInternalKey ⟨List.replicate 16 0, 3, .kTypeValue⟩
  let second := appendInternalKey ⟨List.replicate 16 y, 4, .kTypeValue⟩
  manualJob
    { VersionSet.init with
      current := ⟨fun level => if level = 0 then [⟨7, 4096, first, second⟩] else [], none⟩
      lastSequence := 4 }
    0 fun _ => ⟨[⟨first, [0]⟩, ⟨second, [z]⟩], .ok⟩

/-- The bytes it leaves behind, and the state of the drop rule. -/
theorem runJobs_stale : ∀ y ∈ [(1 : Byte), 2], ∀ z ∈ [(1 : Byte), 2],
    ((runJobs 3 Globals.init [staleJob y z]).map fun g =>
      (g.arg.out.key 32, g.arg.out.value 100, g.drop.lastSequenceForKey)) = some (y, z, 4) := by
  decide +kernel

/-- A deeper table whose range has every user key of at most `n` bytes. -/
def coverTable (n : Nat) : FileMetaData where
  number := 8
  fileSize := 4096
  smallest := appendInternalKey ⟨[], 1, .kTypeValue⟩
  largest := appendInternalKey ⟨List.replicate n 255, 1, .kTypeValue⟩

/-- A level-0 table with the record `r`, above a table that keeps even a deletion from
being dropped. -/
def probeVersion (r : Record) : Version where
  files := fun level =>
    if level = 0 then [⟨9, 4096, r.key, r.key⟩] else
      if level = 2 then [coverTable r.key.length] else []
  fileToCompact := none

/-- The compaction of that table to level 1. -/
def probeJob (r : Record) : CompactionJob where
  compaction :=
    { Compaction.new 0 (probeVersion r) ((probeVersion r).files 0) with
      grandparents := (probeVersion r).files 2 }
  smallestSnapshot := 0
  files := Files.working fun _ => ⟨[r], .ok⟩
  shuttingDown := false
  versions := { VersionSet.init with current := probeVersion r }
  manifest := .ok

theorem probeJob_isBaseLevelForKey {r : Record} {userKey : Bytes}
    (h : userKey.length ≤ r.key.length) :
    ((probeJob r).compaction.isBaseLevelForKey userKey).1 = false := by
  have hlimit : (sliceCompare userKey (coverTable r.key.length).limitKey == .gt) = false := by
    have hle := le_replicate_max r.key.length h
    have hkey : (coverTable r.key.length).limitKey = List.replicate r.key.length 255 :=
      extractUserKey_appendInternalKey _
    rw [hkey]
    simpa [sliceCompare_gt_iff] using hle
  have hstart : ¬ sliceCompare userKey (coverTable r.key.length).startKey = .lt := by
    have hkey : (coverTable r.key.length).startKey = [] := extractUserKey_appendInternalKey _
    rw [hkey, sliceCompare_lt_iff]
    simp
  have hlevels : (probeJob r).compaction.deeperLevels = [2, 3, 4, 5, 6] := rfl
  have hfiles : (probeJob r).compaction.inputVersion.files 2 = [coverTable r.key.length] := rfl
  have hseek : seekLevel [coverTable r.key.length] userKey ((probeJob r).compaction.levelPtrs 2)
      = 0 := by
    show 0 + (List.takeWhile _ [coverTable r.key.length]).length = 0
    rw [List.takeWhile_cons_of_neg (by rw [hlimit]; simp)]
    rfl
  unfold Compaction.isBaseLevelForKey
  dsimp only
  rw [hlevels, baseLevelLoop, hfiles, hseek]
  simp [hstart]

/-- The probe is not dropped, unless the compaction before hides it. -/
theorem probeJob_kept {r : Record} {key : Bytes} (h : key.length ≤ r.key.length) :
    (dropRule DropState.init (probeJob r).compaction 0 key).1 = false := by
  unfold dropRule
  cases hp : parseInternalKey key with
  | none => rfl
  | some ikey =>
    have henter : DropState.init.enter ikey.userKey =
        ⟨ikey.userKey, true, kMaxSequenceNumber⟩ := by
      apply DropState.enter_of_other
      rintro ⟨hhas, -⟩
      cases hhas
    have huser : ikey.userKey.length ≤ r.key.length := by
      rw [(parseInternalKey_eq_some hp).1, extractUserKey, List.length_take]
      omega
    have hmax : ¬ kMaxSequenceNumber ≤ 0 := by decide
    dsimp only
    rw [henter, if_neg hmax]
    split
    · exact probeJob_isBaseLevelForKey huser
    · rfl

/-- The one record that the merge delivers is added to the output table. -/
theorem probeJob_added {r item : Record} {g : Globals} {w : Merge} (hidle : g.Idle)
    (hlast : 0 < g.drop.lastSequenceForKey) (hlen : item.key.length = r.key.length)
    (hflushed : w.flushed.flatten = [item]) :
    ∃ status, ((probeJob r).conclude g w).outcomes = [⟨item, status, .added⟩] := by
  rw [CompactionJob.conclude_outcomes, CompactionJob.flushes, hflushed]
  obtain ⟨q, -, -, heq⟩ := (CompactionState.new (probeJob r).compaction 0).suFlushData_eq
    (probeJob r).files g.drop item
  have hkept : ¬ (dropRule g.drop (probeJob r).compaction 0 item.key).1 = true := by
    rw [dropRule_iff hidle.bounded, probeJob_kept (by rw [hlen])]
    rintro (⟨-, -, -, -, hle⟩ | h)
    · omega
    · cases h
  rw [if_pos (CompactionState.stopBefore_first rfl)] at heq
  have hdrop : ¬ (dropRule g.drop (CompactionState.new (probeJob r).compaction 0).compaction
      (CompactionState.new (probeJob r).compaction 0).smallestSnapshot item.key).1 = true := hkept
  rw [if_neg hdrop] at heq
  dsimp only at heq
  have hadded : ((CompactionState.new (probeJob r).compaction 0).suFlushData
      (probeJob r).files g.drop item).fate = .added := by
    rw [heq]
    exact ((Files.working_works _).writeRecord _ _).2
  refine ⟨((CompactionState.new (probeJob r).compaction 0).suFlushData
    (probeJob r).files g.drop item).status, ?_⟩
  show [Outcome.mk item _ ((CompactionState.new (probeJob r).compaction 0).suFlushData
    (probeJob r).files g.drop item).fate] = _
  rw [hadded]
  rfl

/-! ## The records that survive -/

/-- What the buffers ask of a compaction whatever its records are: at most ten channels,
each sorted as a table is. -/
structure CompactionJob.Regular (job : CompactionJob) : Prop where
  ways : job.nWays ≤ 10
  sorted : ∀ c < job.nWays,
    (job.iter c).Pairwise fun a b => internalKeyCompare a.key b.key = .lt

/-- Whatever was compacted before it and whatever is compacted along with it: when the
record is drawn from its channel and added to a table, what is added is the record. -/
def SurvivesCompaction (r : Record) : Prop :=
  ∀ (history : List CompactionJob) (job : CompactionJob) (fuel : Nat),
    (∀ j ∈ history ++ [job], j.Regular ∧ j.recordCount < fuel) →
    ∃ g work, runJobs fuel Globals.init history = some g ∧
      doCompactionWork fuel g job = some work ∧
      ∀ out i, Draws job.nWays job.iter work.merge.nexts out → out[i]? = some r →
        (work.outcomes[i]?).map Outcome.fate = some .added →
        work.compact.added[addIndex work.outcomes i]? = some r

theorem survivesCompaction_of_fits {r : Record} (hkey : r.key.length ≤ 32)
    (hvalue : r.value.length ≤ 100) : SurvivesCompaction r := by
  intro history job fuel hjobs
  obtain ⟨g, hrun, hidle⟩ := runJobs_spec history Globals.init_idle fun j hj =>
    (hjobs j (List.mem_append_left _ hj)).2
  obtain ⟨w, out, hwork, hdraws, hitems, -, -⟩ := doCompactionWork_spec hidle.clean
    (hjobs job (List.mem_append_right _ (List.mem_singleton_self job))).2
  refine ⟨g, _, hrun, hwork, fun out' i hdraws' hi hfate => ?_⟩
  rw [CompactionJob.conclude_merge] at hdraws'
  obtain rfl := hdraws.out_unique hdraws'
  obtain ⟨o, ho, hadded⟩ := Option.map_eq_some_iff.mp hfate
  have heq := (outcome_preserved hitems hi ho).eq hkey hvalue
  rw [CompactionJob.conclude_added, addedRecords_getElem? ho hadded, heq]

theorem staleJob_regular : ∀ y ∈ [(1 : Byte), 2], ∀ z ∈ [(1 : Byte), 2],
    (staleJob y z).nWays = 1 ∧ (staleJob y z).recordCount = 2 ∧
      ((staleJob y z).iter 0).Pairwise fun a b => internalKeyCompare a.key b.key = .lt := by
  decide +kernel

/-- The bytes `y` and `z` that an earlier compaction leaves behind spoil a record that
has other bytes in these places. -/
theorem not_survivesCompaction {r : Record} {y z : Byte} (hy : y ∈ [(1 : Byte), 2])
    (hz : z ∈ [(1 : Byte), 2])
    (hlong : (∃ b, r.key[32]? = some b ∧ y ≠ b) ∨ ∃ b, r.value[100]? = some b ∧ z ≠ b) :
    ¬ SurvivesCompaction r := by
  intro h
  have hiter : (probeJob r).iter 0 = [r] := rfl
  have hjobs : ∀ j ∈ [staleJob y z] ++ [probeJob r], j.Regular ∧ j.recordCount < 3 := by
    intro j hj
    rcases List.mem_cons.mp hj with rfl | hj
    · obtain ⟨hways, hcount, hsorted⟩ := staleJob_regular y hy z hz
      refine ⟨⟨by rw [hways]; decide, fun c hc => ?_⟩, by rw [hcount]; decide⟩
      obtain rfl : c = 0 := by omega
      exact hsorted
    · obtain rfl := List.mem_singleton.mp hj
      have hways : (probeJob r).nWays = 1 := rfl
      have hcount : (probeJob r).recordCount = 1 := rfl
      refine ⟨⟨by rw [hways]; decide, fun c hc => ?_⟩, by rw [hcount]; decide⟩
      obtain rfl : c = 0 := by omega
      rw [hiter]
      exact List.pairwise_singleton _ _
  obtain ⟨g, work, hrun, hwork, hall⟩ := h [staleJob y z] (probeJob r) 3 hjobs
  -- the globals between the two compactions
  obtain ⟨g', hrun', hidle⟩ := runJobs_spec [staleJob y z] Globals.init_idle fun j hj =>
    (hjobs j (List.mem_append_left _ hj)).2
  obtain rfl : g = g' := Option.some.inj (hrun.symm.trans hrun')
  have hstale := runJobs_stale y hy z hz
  rw [hrun] at hstale
  simp only [Option.map_some, Option.some.injEq, Prod.mk.injEq] at hstale
  obtain ⟨hkey, hvalue, hlast⟩ := hstale
  -- the second compaction
  obtain ⟨w, item, hmerge, hflushed, hlen, hne⟩ := onecEnclCompact_single_ne hidle.clean hiter
    (by rwa [hkey, hvalue]) 1
  obtain ⟨w', out, hwork', hdraws, -, -, -⟩ := doCompactionWork_spec hidle.clean
    (hjobs (probeJob r) (by simp)).2
  obtain rfl : work = (probeJob r).conclude g w' :=
    Option.some.inj (hwork.symm.trans hwork')
  obtain rfl : w' = w := by
    have hconclude : doCompactionWork 3 g (probeJob r) = some ((probeJob r).conclude g w) := by
      rw [doCompactionWork]
      exact congrArg (Option.map _) hmerge
    have hsame := congrArg Work.merge (Option.some.inj (hwork.symm.trans hconclude))
    rwa [CompactionJob.conclude_merge, CompactionJob.conclude_merge] at hsame
  obtain rfl : out = [r] := List.perm_singleton.mp hdraws.perm
  obtain ⟨status, houtcomes⟩ := probeJob_added hidle (by rw [hlast]; decide) hlen hflushed
  have hsurvives := hall [r] 0 (by rwa [CompactionJob.conclude_merge]) rfl
    (by rw [houtcomes]; rfl)
  rw [CompactionJob.conclude_added, houtcomes] at hsurvives
  exact hne (Option.some.inj hsurvives)

/-- A byte other than the given one. -/
def otherByte (b : Byte) : Byte := if b = 1 then 2 else 1

theorem otherByte_spec (b : Byte) : otherByte b ∈ [(1 : Byte), 2] ∧ otherByte b ≠ b := by
  unfold otherByte
  split
  · rename_i h
    subst h
    decide
  · rename_i h
    exact ⟨by decide, fun heq => h heq.symm⟩

/-- **Which records reach the tables byte for byte**: those whose internal key has at
most 32 bytes and whose value has at most 100. -/
theorem compaction_preserves_record_iff (r : Record) :
    SurvivesCompaction r ↔ r.key.length ≤ 32 ∧ r.value.length ≤ 100 := by
  refine ⟨fun h => ⟨?_, ?_⟩, fun ⟨hkey, hvalue⟩ => survivesCompaction_of_fits hkey hvalue⟩
  · by_contra hlong
    have hb : r.key[32]? = some r.key[32] := List.getElem?_eq_getElem (by omega)
    obtain ⟨hy, hne⟩ := otherByte_spec r.key[32]
    exact not_survivesCompaction hy List.mem_cons_self (Or.inl ⟨_, hb, hne⟩) h
  · by_contra hlong
    have hb : r.value[100]? = some r.value[100] := List.getElem?_eq_getElem (by omega)
    obtain ⟨hz, hne⟩ := otherByte_spec r.value[100]
    exact not_survivesCompaction List.mem_cons_self hz (Or.inr ⟨_, hb, hne⟩) h

/-- One put of a 101-byte value, the last byte of it 7. -/
def longRecord : Record where
  key := appendInternalKey ⟨List.replicate 16 107, 1, .kTypeValue⟩
  value := List.replicate 100 5 ++ [7]

/-- In the very first compaction the byte behind the slot is still 0, and the table gets
0 in place of 7. -/
theorem long_value_truncated :
    (probeJob longRecord).Regular ∧ ∃ work,
      doCompactionWork 2 Globals.init (probeJob longRecord) = some work ∧
      work.outcomes.map Outcome.fate = [.added] ∧
      work.compact.added = [⟨longRecord.key, List.replicate 100 5 ++ [0]⟩] := by
  have hrun : ((doCompactionWork 2 Globals.init (probeJob longRecord)).map fun work =>
      (work.outcomes.map Outcome.fate, work.compact.added)) =
      some ([.added], [⟨longRecord.key, List.replicate 100 5 ++ [0]⟩]) := by decide +kernel
  obtain ⟨work, hwork, hres⟩ := Option.map_eq_some_iff.mp hrun
  have hres := Prod.mk.inj hres
  exact ⟨⟨by decide, by decide⟩, work, hwork, hres.1, hres.2⟩

end Lpad
