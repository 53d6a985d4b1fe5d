import Lpad.DB.GetSpec

/-!
# The sequence number a lookup reports

`DBImpl::SUGet` writes the sequence number of the entry it answered from to `*tw`, which
the host passes on to the enclave. `MemTable::SUGet` does so for both types of entries,
`SaveValue` only for values. So a deletion in a table leaves `*tw` as it was.
-/

namespace Lpad

variable {db : Database} {k : LookupKey} {r : Record}

/-- Two newest entries have the same internal key. -/
theorem NewestAt.key_eq {records : List Record} {u : Bytes} {s : Nat} {x y : Record}
    (hx : NewestAt records u s x) (hy : NewestAt records u s y) (hxwf : WellFormed x.key)
    (hywf : WellFormed y.key) : x.key = y.key := by
  have huser : x.userKey = y.userKey := hx.userKey.trans hy.userKey.symm
  have htrailer : x.trailer = y.trailer := le_antisymm
    (hy.newest x hx.mem hx.userKey hx.seen) (hx.newest y hy.mem hy.userKey hy.seen)
  apply keyRank_injective hxwf.length hywf.length
  unfold Record.userKey Record.trailer at *
  rw [keyRank, keyRank, huser, htrailer]

theorem Database.Stacked.entries_wellFormed (h : db.Stacked) :
    ∀ x ∈ db.entries, WellFormed x.key := by
  intro x hx
  rcases List.mem_append.mp hx with hx | hx
  · exact h.keys.mem x hx
  · rcases List.mem_append.mp hx with hx | hx
    · exact h.keys.imm x hx
    · obtain ⟨level, hlevel, hx⟩ := List.mem_flatMap.mp hx
      obtain ⟨f, hf, hx⟩ := Database.mem_entriesAt.mp hx
      exact (h.tables level (List.mem_range.mp hlevel) f hf).wellFormed x hx

/-- Where an entry comes from, if it is not older than one of the memtable. -/
theorem Database.Stacked.mem_of_le (h : db.Stacked) {x r : Record} (hx : x ∈ db.mem.records)
    (hr : r ∈ db.entries) (huser : x.userKey = r.userKey) (hle : x.sequence ≤ r.sequence) :
    r ∈ db.mem.records := by
  rcases List.mem_append.mp hr with hr | hr
  · exact hr
  · rcases List.mem_append.mp hr with hr | hr
    · exact absurd (h.mem_imm x hx r hr huser) (not_lt.mpr hle)
    · obtain ⟨level, hlevel, hr⟩ := List.mem_flatMap.mp hr
      exact absurd (h.mem_tables level (List.mem_range.mp hlevel) x hx r hr huser) (not_lt.mpr hle)

/-- The same for the immutable memtable. -/
theorem Database.Stacked.memory_of_le (h : db.Stacked) {x r : Record} (hx : x ∈ db.immRecords)
    (hr : r ∈ db.entries) (huser : x.userKey = r.userKey) (hle : x.sequence ≤ r.sequence) :
    r ∈ db.mem.records ∨ r ∈ db.immRecords := by
  rcases List.mem_append.mp hr with hr | hr
  · exact Or.inl hr
  · rcases List.mem_append.mp hr with hr | hr
    · exact Or.inr hr
    · obtain ⟨level, hlevel, hr⟩ := List.mem_flatMap.mp hr
      exact absurd (h.imm_tables level (List.mem_range.mp hlevel) x hx r hr huser) (not_lt.mpr hle)

/-- What the lookup makes of `*tw`: the first layer with an entry writes its number, unless
it is a table and the entry a deletion. -/
theorem Database.Stacked.suGet_tw (h : db.Stacked) {tableStatus : Nat → Status}
    (hstatus : ∀ n, tableStatus n = .ok) (snapshot : Option Nat) (key : Bytes) (out : GetOutput)
    (hk : k = ⟨key, db.snapshotNumber snapshot⟩) {r : Record}
    (hlook : (lookup db.mem.records k).or ((lookup db.immRecords k).or
      ((List.range kNumLevels).findSome? (db.lookupLevel k))) = some r) :
    (db.suGet tableStatus snapshot key out).out.tw =
      if r.type = some .kTypeDeletion ∧ lookup db.mem.records k = none ∧
        lookup db.immRecords k = none then out.tw else r.sequence := by
  unfold Database.suGet
  dsimp only
  rw [← hk]
  cases hmem : lookup db.mem.records k with
  | some x =>
    rw [hmem] at hlook
    obtain rfl := Option.some.inj hlook
    obtain ⟨s, out', hget, -, htw⟩ := MemTable.suGet_of_some h.keys.mem hmem out
    rw [hget, if_neg (by simp)]
    exact htw
  | none =>
    rw [hmem] at hlook
    rw [MemTable.suGet_of_none hmem]
    dsimp only
    cases himm : lookup db.immRecords k with
    | some x =>
      rw [himm] at hlook
      obtain rfl := Option.some.inj hlook
      obtain ⟨s, out', hget, -, htw⟩ := immGet_of_some h.keys.imm himm out
      rw [hget, if_neg (by simp)]
      exact htw
    | none =>
      rw [himm] at hlook
      rw [immGet_of_none himm]
      have htables := h.keys.version_answered hstatus k out
      rw [show (List.range kNumLevels).findSome? (db.lookupLevel k) = some r from hlook]
        at htables
      rcases htables with ⟨htype, -, hout⟩ | ⟨htype, -, hout⟩
      · rw [if_neg (by simp [htype])]
        exact congrArg GetOutput.tw hout
      · rw [if_pos ⟨htype, rfl, rfl⟩]
        exact congrArg GetOutput.tw hout

/-- A layer that holds a newest entry is not passed by. -/
theorem NewestAt.lookup_ne_none {layer records : List Record}
    (hr : NewestAt records k.userKey k.sequence r) (hmem : r ∈ layer)
    (hreads : ReadsAt { x | x ∈ layer } k (lookup layer k)) : lookup layer k ≠ none := by
  intro hnone
  rw [hnone] at hreads
  exact absurd (Record.sequence_le_iff.mp hr.seen) (not_le.mpr (hreads r hmem hr.userKey))

/-- The layers in memory are passed by exactly if the newest entry is in neither of them. -/
theorem Database.Stacked.passed_iff (h : db.Stacked) (hlargest : db.LargestStored)
    (hk : k.sequence ≤ kMaxSequenceNumber) (hr : NewestAt db.entries k.userKey k.sequence r) :
    lookup db.mem.records k = none ∧ lookup db.immRecords k = none ↔
      r ∉ db.mem.records ∧ r ∉ db.immRecords := by
  have hreads := h.reads hlargest hk
  have hle : ∀ {x : Record}, ReadsAt { x | x ∈ db.entries } k (some x) →
      x.userKey = r.userKey ∧ x.sequence ≤ r.sequence := by
    intro x hx
    have hnewest := newestAt_iff.mpr hx
    have hkey := hnewest.key_eq hr (h.entries_wellFormed x hnewest.mem)
      (h.entries_wellFormed r hr.mem)
    unfold Record.userKey Record.sequence
    rw [hkey]
    exact ⟨rfl, le_refl _⟩
  constructor
  · rintro ⟨hmem, himm⟩
    exact ⟨fun hin => hr.lookup_ne_none hin (h.reads_mem hk) hmem,
      fun hin => hr.lookup_ne_none hin (h.reads_imm hk) himm⟩
  · rintro ⟨hmem, himm⟩
    have hmemNone : lookup db.mem.records k = none := by
      by_contra hsome
      obtain ⟨x, hx⟩ := Option.ne_none_iff_exists'.mp hsome
      rw [hx, Option.some_or] at hreads
      obtain ⟨huser, hseq⟩ := hle hreads
      exact hmem (h.mem_of_le (lookup_eq_some hx).2.2 hr.mem huser hseq)
    refine ⟨hmemNone, ?_⟩
    by_contra hsome
    obtain ⟨x, hx⟩ := Option.ne_none_iff_exists'.mp hsome
    rw [hmemNone, hx, Option.none_or, Option.some_or] at hreads
    obtain ⟨huser, hseq⟩ := hle hreads
    exact (h.memory_of_le (lookup_eq_some hx).2.2 hr.mem huser hseq).elim hmem himm

/-- **`SUGet` reports the write it answered from exactly if** this is not a deletion in a
table. -/
theorem suGet_reports_iff {db : Database} (hstacked : db.Stacked) (hlargest : db.LargestStored)
    {tableStatus : Nat → Status} (hstatus : ∀ n, tableStatus n = .ok) (snapshot : Option Nat)
    (hsnapshot : db.snapshotNumber snapshot ≤ kMaxSequenceNumber) {key : Bytes} {r : Record}
    (hr : NewestAt db.entries key (db.snapshotNumber snapshot) r) :
    (∀ out, (db.suGet tableStatus snapshot key out).out.tw = r.sequence) ↔
      r.type = some .kTypeValue ∨ r ∈ db.mem.records ∨ r ∈ db.immRecords := by
  obtain ⟨k, hk⟩ : ∃ k : LookupKey, k = ⟨key, db.snapshotNumber snapshot⟩ := ⟨_, rfl⟩
  have hkseq : k.sequence ≤ kMaxSequenceNumber := hk ▸ hsnapshot
  have hrk : NewestAt db.entries k.userKey k.sequence r := hk ▸ hr
  have hreads := hstacked.reads hlargest hkseq
  cases hlook : (lookup db.mem.records k).or ((lookup db.immRecords k).or
      ((List.range kNumLevels).findSome? (db.lookupLevel k))) with
  | none =>
    rw [hlook] at hreads
    exact absurd (Record.sequence_le_iff.mp hrk.seen)
      (not_le.mpr (hreads r hrk.mem hrk.userKey))
  | some x =>
    rw [hlook] at hreads
    have hx := newestAt_iff.mpr hreads
    have hkey : x.key = r.key := hx.key_eq hrk (hstacked.entries_wellFormed x hx.mem)
      (hstacked.entries_wellFormed r hr.mem)
    have htype : x.type = r.type := by rw [Record.type, hkey, ← Record.type]
    have hseq : x.sequence = r.sequence := by rw [Record.sequence, hkey, ← Record.sequence]
    have hpassed := hstacked.passed_iff hlargest hkseq hrk
    have htw := fun out => hstacked.suGet_tw hstatus snapshot key out hk hlook
    simp only [htw, htype, hseq, hpassed]
    rcases Record.type_cases (hstacked.entries_wellFormed r hr.mem) with ⟨-, hr⟩ | ⟨-, hr⟩
    · simp [hr]
    · by_cases hin : r ∈ db.mem.records ∨ r ∈ db.immRecords
      · have hnot : ¬ (r ∉ db.mem.records ∧ r ∉ db.immRecords) := by tauto
        simp [hr, hin, hnot]
      · -- the number that was there before the call stays
        have hnot : r ∉ db.mem.records ∧ r ∉ db.immRecords := by tauto
        simp only [hr, hnot, not_false_eq_true, and_self, if_true, or_false, reduceCtorEq,
          iff_false, not_forall, Option.some.injEq]
        exact ⟨⟨[], r.sequence + 1⟩, Nat.succ_ne_self _⟩

/-- The value number 3 is reported, whatever was behind `tw` before. -/
theorem suGet_reports_boundary :
    NewestAt (boundaryDb [valueEntry [117] 3 [30]]).entries [117] 5 (valueEntry [117] 3 [30]) ∧
      ∀ out, ((boundaryDb [valueEntry [117] 3 [30]]).suGet (fun _ => .ok) none [117] out).out.tw =
        3 := by
  obtain ⟨hstacked, hlargest⟩ := boundaryDb_stored
  have hnewest : NewestAt (boundaryDb [valueEntry [117] 3 [30]]).entries [117] 5
      (valueEntry [117] 3 [30]) :=
    ⟨by decide +kernel, by decide +kernel, by decide +kernel, by decide +kernel⟩
  exact ⟨hnewest, (suGet_reports_iff hstacked hlargest (fun _ => rfl) none (by decide) hnewest).mpr
    (Or.inl (by decide +kernel))⟩

/-- The deletion number 3 of the user key `u`. -/
def tombstone : Record := MemEntry.record ⟨3, .kTypeDeletion, [117], []⟩

/-- A database with this deletion in a table of level 0. -/
def deletedDb : Database :=
  { Database.created with
    versions :=
      { VersionSet.init with
        current :=
          { files := fun level => if level = 0 then [⟨4, 1, tombstone.key, tombstone.key⟩] else []
            fileToCompact := none }
        lastSequence := 5 }
    tables := fun n => if n = 4 then [tombstone] else [] }

/-- **A deletion in a table** is answered with `NotFound`, and the 7 that was behind `tw`
stays. -/
theorem deletedDb_unreported :
    deletedDb.Stacked ∧ deletedDb.LargestStored ∧ NewestAt deletedDb.entries [117] 5 tombstone ∧
      tombstone.sequence = 3 ∧
      (deletedDb.suGet (fun _ => .ok) none [117] ⟨[], 7⟩).status = .notFound "" ∧
      (deletedDb.suGet (fun _ => .ok) none [117] ⟨[], 7⟩).out.tw = 7 := by
  refine ⟨?_, ?_, ?_, by decide +kernel, by decide +kernel, by decide +kernel⟩
  · exact ⟨by decide +kernel, by decide +kernel, by decide +kernel, by decide +kernel,
      by decide +kernel, by decide +kernel, by decide +kernel, by decide +kernel⟩
  · unfold Database.LargestStored
    decide +kernel
  · exact ⟨by decide +kernel, by decide +kernel, by decide +kernel, by decide +kernel⟩

end Lpad
