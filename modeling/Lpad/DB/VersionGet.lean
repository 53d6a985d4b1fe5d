import Lpad.DB.Get

/-!
# `Version::Get`

`Version::Get` and `Version::SUGet` search the same files in the same order. In
`Version::Get` the saver is one local variable for the whole search, which nothing
initialises. Its `state` is set before each file is read, and read once more after the
search. Its `seq` is never set, but `SaveValue` writes the sequence number of a value
through it.
-/

namespace Lpad

/-- What an enumerator is in memory. -/
def SaverState.code : SaverState → Nat
  | .kNotFound => 0
  | .kFound => 1
  | .kDeleted => 2
  | .kCorrupt => 3

/-- The fields of the local `Saver` that are read before they are set: the word in
`state` and the address in `seq`. -/
structure Saver where
  state : Nat
  seq : Nat
deriving Repr

/-- The word in `state` is taken for the end of a search. -/
def Saver.Ended (saver : Saver) : Prop :=
  saver.state = SaverState.kFound.code ∨ saver.state = SaverState.kDeleted.code ∨
    saver.state = SaverState.kCorrupt.code

instance (saver : Saver) : Decidable saver.Ended :=
  inferInstanceAs (Decidable (_ ∨ _ ∨ _))

/-- From the label `ret` on. -/
def Saver.finalStatus (saver : Saver) (s : Status) : Status :=
  if saver.Ended then s else .notFound ""

/-- What `Version::Get` does: its status, the variables of the search, and the addresses
that `SaveValue` has written a sequence number to. In `out` of the search, `tw` stands for
the word at the address in `seq`. -/
structure GetOutcome where
  status : Status
  search : Search
  seqWrites : List Nat

/-- The loop of `Version::Get` over the files of all levels; `s` is the status of the file
read last. -/
def getFiles (cache : TableCache) (k : LookupKey) :
    List (Nat × FileMetaData) → Status → Saver → Search → GetOutcome
  | [], s, saver, st => ⟨saver.finalStatus s, st, []⟩
  | (level, f) :: rest, _, saver, st =>
    let st := st.next level f
    let s := cache.status f.number
    if s.isOk then
      let (state, out) := internalGet (cache.records f.number) k st.out
      let saver := { saver with state := state.code }
      let st := { st with out := out }
      match state with
      | .kNotFound => getFiles cache k rest s saver st
      | .kFound => ⟨saver.finalStatus s, st, [saver.seq]⟩
      | .kDeleted => ⟨saver.finalStatus (.notFound ""), st, []⟩
      | .kCorrupt =>
        ⟨saver.finalStatus
          (.corruption (statusMessage "corrupted key for " (Bytes.text k.userKey))), st, []⟩
    else ⟨s, st, []⟩

/-- The files of all levels, in the order of the search. -/
def Version.searchOrder (v : Version) (k : LookupKey) : List (Nat × FileMetaData) :=
  (List.range kNumLevels).flatMap fun level => (v.filesToSearch k level).map (level, ·)

/-- `Version::Get`. The local `Saver` begins with arbitrary contents. -/
def Version.get (v : Version) (cache : TableCache) (k : LookupKey) (saver : Saver)
    (out : GetOutput) : GetOutcome :=
  getFiles cache k (v.searchOrder k) .ok saver ⟨none, none, out⟩

/-! ## Agreement -/

/-- `Version::Get` agrees with `Version::SUGet` in the status and the value. Its caller
supplies no location for a sequence number, so none may be written. -/
structure Version.GetAgrees (v : Version) (cache : TableCache) (k : LookupKey) (saver : Saver)
    (out : GetOutput) : Prop where
  status : (v.get cache k saver out).status = (v.suGet cache k out).1
  value : (v.get cache k saver out).search.out.value = (v.suGet cache k out).2.out.value
  seqWrites : (v.get cache k saver out).seqWrites = []

/-- The entry where a lookup in the table ends is a value of the user key. -/
def HasValue (table : List Record) (k : LookupKey) : Prop :=
  ∃ r p, seek table k.internalKey = some r ∧ parseInternalKey r.key = some p ∧
    p.userKey = k.userKey ∧ p.type = .kTypeValue

/-- It is an entry of another user key, if there is one at all. -/
def HasNothing (table : List Record) (k : LookupKey) : Prop :=
  ∀ r, seek table k.internalKey = some r →
    ∃ p, parseInternalKey r.key = some p ∧ p.userKey ≠ k.userKey

/-- The first file that has anything is readable, as are those before it, and has a
value. -/
def ValueFirst (cache : TableCache) (k : LookupKey) : List (Nat × FileMetaData) → Prop
  | [] => False
  | (_, f) :: rest =>
    (cache.status f.number).isOk ∧ (HasValue (cache.records f.number) k ∨
      HasNothing (cache.records f.number) k ∧ ValueFirst cache k rest)

/-- The state that a read leaves says which of the two it was. -/
theorem internalGet_state (table : List Record) (k : LookupKey) (out : GetOutput) :
    ((internalGet table k out).1 = .kFound ↔ HasValue table k) ∧
      ((internalGet table k out).1 = .kNotFound ↔ HasNothing table k) := by
  unfold internalGet HasValue HasNothing saveValue
  cases hseek : seek table k.internalKey with
  | none => simp
  | some r =>
    cases hparse : parseInternalKey r.key with
    | none => simp [hparse]
    | some p =>
      by_cases huser : p.userKey = k.userKey
      · cases htype : p.type <;> simp [hparse, huser, htype]
      · simp [hparse, huser]

/-- From a state that is not taken for an end, the two loops do the same, except that one
of them writes through `seq`. -/
structure SameSearch (outcome : GetOutcome) (result : Status × Search) (found : Prop)
    (seq : Nat) : Prop where
  status : outcome.status = result.1
  search : outcome.search = result.2
  written : found → outcome.seqWrites = [seq]
  unwritten : ¬ found → outcome.seqWrites = []

theorem getFiles_sameSearch (cache : TableCache) (k : LookupKey)
    (files : List (Nat × FileMetaData)) (s : Status) {saver : Saver}
    (hsaver : files = [] → ¬ saver.Ended) (st : Search) :
    SameSearch (getFiles cache k files s saver st) (searchFiles cache k files st)
      (ValueFirst cache k files) saver.seq := by
  induction files generalizing s saver st with
  | nil => exact ⟨if_neg (hsaver rfl), rfl, False.elim, fun _ => rfl⟩
  | cons p rest ih =>
    obtain ⟨level, f⟩ := p
    have hstate := internalGet_state (cache.records f.number) k (st.next level f).out
    unfold getFiles searchFiles ValueFirst
    dsimp only
    by_cases hok : (cache.status f.number).isOk = true
    · rw [if_pos hok, if_pos hok]
      rw [← hstate.1, ← hstate.2]
      cases hget : internalGet (cache.records f.number) k (st.next level f).out with
      | mk state out =>
        cases state with
        | kNotFound =>
          -- the state is set, so it does not matter any more what it was
          have hended : ¬ ({ saver with state := SaverState.kNotFound.code } : Saver).Ended := by
            simp [Saver.Ended, SaverState.code]
          have hrest := ih (cache.status f.number) (fun _ => hended)
            { st.next level f with out := out }
          refine ⟨hrest.status, hrest.search, ?_, ?_⟩
          · simpa [hok] using hrest.written
          · simpa [hok] using hrest.unwritten
        | kFound => exact ⟨rfl, rfl, fun _ => rfl, by simp [hok]⟩
        | kDeleted => exact ⟨rfl, rfl, by simp, fun _ => rfl⟩
        | kCorrupt => exact ⟨rfl, rfl, by simp, fun _ => rfl⟩
    · rw [if_neg hok, if_neg hok]
      exact ⟨rfl, rfl, fun h => absurd h.1 hok, fun _ => rfl⟩

/-- **`Version::Get` agrees with `Version::SUGet` exactly if** the search does not end at a
value, and either reads a file or begins with a word in `state` that is not taken for an
end. -/
theorem get_agrees_iff (v : Version) (cache : TableCache) (k : LookupKey) (saver : Saver)
    (out : GetOutput) :
    v.GetAgrees cache k saver out ↔
      ¬ ValueFirst cache k (v.searchOrder k) ∧ (v.searchOrder k = [] → ¬ saver.Ended) := by
  by_cases hsaver : v.searchOrder k = [] → ¬ saver.Ended
  · have hsame := getFiles_sameSearch cache k (v.searchOrder k) .ok hsaver ⟨none, none, out⟩
    constructor
    · intro h
      refine ⟨fun hfound => ?_, hsaver⟩
      have hwrites := (hsame.written hfound).symm.trans h.seqWrites
      cases hwrites
    · rintro ⟨hfound, -⟩
      exact ⟨hsame.status, congrArg (fun st => st.out.value) hsame.search,
        hsame.unwritten hfound⟩
  · refine iff_of_false (fun h => ?_) fun h => hsaver h.2
    -- nothing is read: the status is that of the declaration, which is `OK`
    obtain ⟨hnil, hended⟩ := Classical.not_imp.mp hsaver
    have hstatus := h.status
    unfold Version.get Version.suGet at hstatus
    rw [← Version.searchOrder, hnil] at hstatus
    simp [getFiles, searchFiles, Saver.finalStatus, not_not.mp hended] at hstatus

/-- The value number 3 of the user key `u`. -/
def storedValue : Record := MemEntry.record ⟨3, .kTypeValue, [117], [30]⟩

/-- A version with this value in a table of level 0. -/
def storedVersion : Version where
  files := fun level => if level = 0 then [⟨4, 1, storedValue.key, storedValue.key⟩] else []
  fileToCompact := none

def storedCache : TableCache := ⟨fun n => if n = 4 then [storedValue] else [], fun _ => .ok⟩

/-- **Both ways to disagree.** Without a file to read, a 1 in `state` makes the lookup
return `OK`. And a value is found, but its number is written to the address 4096 that
happened to be in `seq`. -/
theorem get_disagrees :
    (VersionSet.init.current.get storedCache ⟨[117], 5⟩ ⟨1, 4096⟩ ⟨[], 0⟩).status = .ok ∧
      (VersionSet.init.current.suGet storedCache ⟨[117], 5⟩ ⟨[], 0⟩).1 = .notFound "" ∧
      (storedVersion.get storedCache ⟨[117], 5⟩ ⟨0, 4096⟩ ⟨[], 0⟩).search.out.value = [30] ∧
      (storedVersion.get storedCache ⟨[117], 5⟩ ⟨0, 4096⟩ ⟨[], 0⟩).seqWrites = [4096] := by
  decide +kernel

end Lpad
