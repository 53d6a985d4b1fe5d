import Lpad.DB.Database
import Lpad.DB.VersionQueries

/-!
# Lookups

`DBImpl::SUGet` asks the memtable, the immutable memtable and the tables of the current
version, in this order, for the newest entry of a user key that a snapshot sees. Each of
them is asked in the same way: seek to the first internal key at or after the user key
with the snapshot's sequence number, and look at the entry there.

Of a table only its entries are modelled. The index block, the data blocks and the
filter of a table make the seek fast; an entry of the user key that is looked up is
found through them exactly if it is the first at or after the target. The arguments `pf`
and `pf_index`, which count the cost of a proof for the enclave, are left out.

`suGet` searches a level with plain indices. `suGetIn` has the 32-bit indices of `FindFile`,
with which a search may not end, and agrees with it up to `2 ^ 31` files on a level.
-/

namespace Lpad

/-! ## Seeks -/

structure LookupKey where
  userKey : Bytes
  sequence : Nat

/-- `LookupKey::internal_key`; `kValueTypeForSeek` is `kTypeValue`. -/
def LookupKey.internalKey (k : LookupKey) : Bytes :=
  appendInternalKey ⟨k.userKey, k.sequence, .kTypeValue⟩

/-- What a lookup writes for its caller: the strings and numbers behind `value` and
`tw`. -/
structure GetOutput where
  value : Bytes
  tw : Nat
deriving DecidableEq, Repr

/-- `Seek`: the first entry at or after the target. -/
def seek (records : List Record) (target : Bytes) : Option Record :=
  records.find? fun r => internalKeyCompare r.key target ≠ .lt

/-- `MemTable::SUGet`: the return value, `*s`, and the output. -/
def MemTable.suGet (mem : MemTable) (k : LookupKey) (s : Status) (out : GetOutput) :
    Bool × Status × GetOutput :=
  match seek mem.records k.internalKey with
  | none => (false, s, out)
  | some r =>
    if sliceCompare (extractUserKey r.key) k.userKey = .eq then
      let tag := trailer r.key
      match tag % 256 with
      | 1 => (true, s, ⟨r.value, tag / 256⟩)
      | 0 => (true, .notFound "", { out with tw := tag / 256 })
      | _ => (false, s, { out with tw := tag / 256 })
    else (false, s, out)

/-! ## Tables -/

inductive SaverState where
  | kNotFound
  | kFound
  | kDeleted
  | kCorrupt
deriving DecidableEq, Repr

/-- `SaveValue`, on a saver in the state `kNotFound`. -/
def saveValue (userKey : Bytes) (r : Record) (out : GetOutput) : SaverState × GetOutput :=
  match parseInternalKey r.key with
  | none => (.kCorrupt, out)
  | some p =>
    if sliceCompare p.userKey userKey = .eq then
      if p.type = .kTypeValue then (.kFound, ⟨r.value, p.sequence⟩) else (.kDeleted, out)
    else (.kNotFound, out)

/-- `Table::InternalGet` with `SaveValue`. -/
def internalGet (table : List Record) (k : LookupKey) (out : GetOutput) :
    SaverState × GetOutput :=
  match seek table k.internalKey with
  | none => (.kNotFound, out)
  | some r => saveValue k.userKey r out

/-- The files of a level that `Version::SUGet` reads, in this order. On level 0 these are
all whose range has the user key, the newest first; on other levels the file at the index
`FindFile` gives, unless it begins after the user key. -/
def Version.filesToSearch (v : Version) (k : LookupKey) (level : Nat) : List FileMetaData :=
  if level = 0 then
    ((v.files 0).filter fun f => decide (sliceCompare k.userKey f.startKey ≠ .lt ∧
      sliceCompare k.userKey f.limitKey ≠ .gt)).insertionSort fun f g => f.number ≥ g.number
  else
    match (v.files level)[findFile (v.files level) k.internalKey]? with
    | none => []
    | some f => if sliceCompare k.userKey f.startKey = .lt then [] else [f]

/-- The tables as `TableCache::SUGet` sees them: the entries of each file, and the status
of reading it. -/
structure TableCache where
  records : Nat → List Record
  status : Nat → Status

/-- The variables of the search: the file to charge for a seek (`stats`) and the file
read last, both with their levels, and the output. -/
structure Search where
  seekFile : Option (Nat × FileMetaData)
  lastFileRead : Option (Nat × FileMetaData)
  out : GetOutput

/-- From the second file on, the first is charged. -/
def Search.next (st : Search) (level : Nat) (f : FileMetaData) : Search :=
  { st with
    seekFile := if st.lastFileRead.isSome ∧ st.seekFile = none then st.lastFileRead
      else st.seekFile
    lastFileRead := some (level, f) }

/-- The message of a status with two parts. -/
def statusMessage (msg msg2 : String) : String :=
  if msg2.isEmpty then msg else msg ++ ": " ++ msg2

/-- The bytes of a slice as text. -/
def Bytes.text (b : Bytes) : String := String.ofList (b.map fun c => Char.ofNat c.toNat)

/-- The loop of `Version::SUGet` over the files of all levels. A file that has nothing
lets the search go on; every other outcome ends it. -/
def searchFiles (cache : TableCache) (k : LookupKey) :
    List (Nat × FileMetaData) → Search → Status × Search
  | [], st => (.notFound "", st)
  | (level, f) :: rest, st =>
    let st := st.next level f
    let s := cache.status f.number
    if s.isOk then
      match internalGet (cache.records f.number) k st.out with
      | (.kNotFound, out) => searchFiles cache k rest { st with out := out }
      | (.kFound, out) => (s, { st with out := out })
      | (.kDeleted, out) => (.notFound "", { st with out := out })
      | (.kCorrupt, out) =>
        (.corruption (statusMessage "corrupted key for " (Bytes.text k.userKey)),
          { st with out := out })
    else (s, st)

/-- `Version::SUGet` -/
def Version.suGet (v : Version) (cache : TableCache) (k : LookupKey) (out : GetOutput) :
    Status × Search :=
  searchFiles cache k
    ((List.range kNumLevels).flatMap fun level => (v.filesToSearch k level).map (level, ·))
    ⟨none, none, out⟩

/-- `filesToSearch` with the 32-bit search, which gets `rounds` rounds. -/
def Version.filesToSearchIn (v : Version) (rounds : Nat) (k : LookupKey) (level : Nat) :
    Option (List FileMetaData) :=
  if level = 0 then some (v.filesToSearch k 0)
  else
    (findFileBy sliceCompare rounds (v.files level) k.internalKey).map fun index =>
      match (v.files level)[index]? with
      | none => []
      | some f => if sliceCompare k.userKey f.startKey = .lt then [] else [f]

/-- `searchFiles` over the files of one level; `next` is what follows when they have nothing. -/
def searchFilesThen (cache : TableCache) (k : LookupKey)
    (next : Search → Option (Status × Search)) :
    List (Nat × FileMetaData) → Search → Option (Status × Search)
  | [], st => next st
  | (level, f) :: rest, st =>
    let st := st.next level f
    let s := cache.status f.number
    if s.isOk then
      match internalGet (cache.records f.number) k st.out with
      | (.kNotFound, out) => searchFilesThen cache k next rest { st with out := out }
      | (.kFound, out) => some (s, { st with out := out })
      | (.kDeleted, out) => some (.notFound "", { st with out := out })
      | (.kCorrupt, out) =>
        some (.corruption (statusMessage "corrupted key for " (Bytes.text k.userKey)),
          { st with out := out })
    else some (s, st)

/-- The loop of `Version::SUGet` over the levels: a level is looked up when the search comes
to it. -/
def Version.searchLevels (v : Version) (rounds : Nat) (cache : TableCache) (k : LookupKey) :
    List Nat → Search → Option (Status × Search)
  | [], st => some (.notFound "", st)
  | level :: levels, st =>
    (v.filesToSearchIn rounds k level).bind fun files =>
      searchFilesThen cache k (v.searchLevels rounds cache k levels) (files.map (level, ·)) st

/-- `Version::SUGet` with the 32-bit search; `none` when a search has not ended. -/
def Version.suGetIn (v : Version) (rounds : Nat) (cache : TableCache) (k : LookupKey)
    (out : GetOutput) : Option (Status × Search) :=
  v.searchLevels rounds cache k (List.range kNumLevels) ⟨none, none, out⟩

/-! ## The database -/

/-- What `DBImpl::SUGet` returns: its status, the output, the last sequence number, and,
if it came to the tables, the file to charge. -/
structure GetResult where
  status : Status
  out : GetOutput
  seq : Nat
  stats : Option (Option (Nat × FileMetaData))

/-- The sequence number a read looks at. -/
def Database.snapshotNumber (db : Database) (snapshot : Option Nat) : Nat :=
  snapshot.getD db.versions.lastSequence

/-- The immutable memtable, if there is one. -/
def Database.immGet (db : Database) (k : LookupKey) (s : Status) (out : GetOutput) :
    Bool × Status × GetOutput :=
  match db.imm with
  | none => (false, s, out)
  | some imm => imm.suGet k s out

/-- `DBImpl::SUGet`. Reading the table with number `n` ends with the status
`tableStatus n`. -/
def Database.suGet (db : Database) (tableStatus : Nat → Status) (snapshot : Option Nat)
    (key : Bytes) (out : GetOutput) : GetResult :=
  let k : LookupKey := ⟨key, db.snapshotNumber snapshot⟩
  let seq := db.versions.lastSequence
  match db.mem.suGet k .ok out with
  | (true, s, out) => ⟨s, out, seq, none⟩
  | (false, s, out) =>
    match db.immGet k s out with
    | (true, s, out) => ⟨s, out, seq, none⟩
    | (false, _, out) =>
      let (s, st) := db.versions.current.suGet ⟨db.tables, tableStatus⟩ k out
      ⟨s, st.out, seq, some st.seekFile⟩

/-- `DBImpl::SUGet` with the 32-bit search of `FindFile`; `none` when it does not return within
`rounds` rounds of it. -/
def Database.suGetIn (db : Database) (rounds : Nat) (tableStatus : Nat → Status)
    (snapshot : Option Nat) (key : Bytes) (out : GetOutput) : Option GetResult :=
  let k : LookupKey := ⟨key, db.snapshotNumber snapshot⟩
  let seq := db.versions.lastSequence
  match db.mem.suGet k .ok out with
  | (true, s, out) => some ⟨s, out, seq, none⟩
  | (false, s, out) =>
    match db.immGet k s out with
    | (true, s, out) => some ⟨s, out, seq, none⟩
    | (false, _, out) =>
      (db.versions.current.suGetIn rounds ⟨db.tables, tableStatus⟩ k out).map
        fun (s, st) => ⟨s, st.out, seq, some st.seekFile⟩

/-! ## Up to `2 ^ 31` files on a level -/

/-- No level has more files than the 32-bit search can tell apart. -/
def Version.FewFiles (v : Version) : Prop :=
  ∀ level < kNumLevels, (v.files level).length ≤ 2 ^ 31

theorem Version.filesToSearchIn_eq {v : Version} (h : v.FewFiles) {rounds : Nat}
    (hrounds : 2 ^ 31 < rounds) (k : LookupKey) {level : Nat} (hlevel : level < kNumLevels) :
    v.filesToSearchIn rounds k level = some (v.filesToSearch k level) := by
  unfold filesToSearchIn
  split
  · rename_i hzero
    rw [hzero]
  · rename_i hne
    rw [findFileBy_sliceCompare (h level hlevel) ((h level hlevel).trans_lt hrounds),
      filesToSearch, if_neg hne]
    rfl

theorem searchFilesThen_eq (cache : TableCache) (k : LookupKey)
    (rest : List (Nat × FileMetaData)) : ∀ (files : List (Nat × FileMetaData)) (st : Search),
    searchFilesThen cache k (fun st => some (searchFiles cache k rest st)) files st =
      some (searchFiles cache k (files ++ rest) st)
  | [], _ => rfl
  | (level, f) :: files, st => by
    rw [List.cons_append, searchFilesThen, searchFiles]
    split
    · split
      · exact searchFilesThen_eq cache k rest files _
      · rfl
      · rfl
      · rfl
    · rfl

theorem Version.searchLevels_eq {v : Version} (h : v.FewFiles) {rounds : Nat}
    (hrounds : 2 ^ 31 < rounds) (cache : TableCache) (k : LookupKey) :
    ∀ (levels : List Nat), (∀ level ∈ levels, level < kNumLevels) →
      v.searchLevels rounds cache k levels = fun st => some (searchFiles cache k
        (levels.flatMap fun level => (v.filesToSearch k level).map (level, ·)) st)
  | [], _ => rfl
  | level :: levels, hlevels => by
    have hrest := searchLevels_eq h hrounds cache k levels
      fun l hl => hlevels l (List.mem_cons_of_mem _ hl)
    funext st
    rw [searchLevels, filesToSearchIn_eq h hrounds k (hlevels level List.mem_cons_self),
      Option.bind_some, hrest, searchFilesThen_eq, List.flatMap_cons]

/-- **The 32-bit search makes no difference** up to `2 ^ 31` files. -/
theorem Database.suGetIn_eq {db : Database} (h : db.versions.current.FewFiles) {rounds : Nat}
    (hrounds : 2 ^ 31 < rounds) (tableStatus : Nat → Status) (snapshot : Option Nat)
    (key : Bytes) (out : GetOutput) :
    db.suGetIn rounds tableStatus snapshot key out =
      some (db.suGet tableStatus snapshot key out) := by
  have hlevels : ∀ level ∈ List.range kNumLevels, level < kNumLevels :=
    fun level hl => List.mem_range.mp hl
  unfold suGetIn suGet
  dsimp only
  split
  · rfl
  · split
    · rfl
    · rw [Version.suGetIn, Version.searchLevels_eq h hrounds _ _ _ hlevels]
      rfl

end Lpad
