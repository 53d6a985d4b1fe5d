import Lpad.DB.VersionSet
import Lpad.Format.Coding
import Mathlib.Data.List.Sort

/-!
# Edits in the manifest

`VersionEdit::EncodeTo` and `DecodeFrom`. An edit is written as a sequence of items, each a
tag and what belongs to it. The deleted files are a `std::set` and are written in its
order, so what is read back is the same set but need not be the same list.
-/

namespace Lpad

/-- One item of an edit. -/
inductive EditItem where
  | comparator (name : Bytes)
  | logNumber (number : Nat)
  | prevLogNumber (number : Nat)
  | nextFileNumber (number : Nat)
  | lastSequence (sequence : Nat)
  | compactPointer (level : Nat) (key : Bytes)
  | deletedFile (level number : Nat)
  | newFile (level : Nat) (f : FileMetaData)

namespace EditItem

/-- `enum Tag`; 8 was used before. -/
def tag : EditItem → Nat
  | .comparator _ => 1
  | .logNumber _ => 2
  | .nextFileNumber _ => 3
  | .lastSequence _ => 4
  | .compactPointer _ _ => 5
  | .deletedFile _ _ => 6
  | .newFile _ _ => 7
  | .prevLogNumber _ => 9

theorem tag_lt (item : EditItem) : item.tag < 2 ^ 32 := by
  cases item <;> simp [tag]

/-- What follows the tag. -/
def body : EditItem → Bytes
  | .comparator name => putLengthPrefixedSlice name
  | .logNumber number => encodeVarint64 number
  | .prevLogNumber number => encodeVarint64 number
  | .nextFileNumber number => encodeVarint64 number
  | .lastSequence sequence => encodeVarint64 sequence
  | .compactPointer level key => encodeVarint32 level ++ putLengthPrefixedSlice key
  | .deletedFile level number => encodeVarint32 level ++ encodeVarint64 number
  | .newFile level f =>
    encodeVarint32 level ++ (encodeVarint64 f.number ++ (encodeVarint64 f.fileSize ++
      (putLengthPrefixedSlice f.smallest ++ putLengthPrefixedSlice f.largest)))

def encode (item : EditItem) : Bytes := encodeVarint32 item.tag ++ item.body

/-- Numbers have 64 bits, levels exist, and slices are short enough for their lengths. -/
def Fits : EditItem → Prop
  | .comparator name => name.length < 2 ^ 32
  | .logNumber number => number < 2 ^ 64
  | .prevLogNumber number => number < 2 ^ 64
  | .nextFileNumber number => number < 2 ^ 64
  | .lastSequence sequence => sequence < 2 ^ 64
  | .compactPointer level key => level < kNumLevels ∧ key.length < 2 ^ 32
  | .deletedFile level number => level < kNumLevels ∧ number < 2 ^ 64
  | .newFile level f => level < kNumLevels ∧ f.number < 2 ^ 64 ∧ f.fileSize < 2 ^ 64 ∧
      f.smallest.length < 2 ^ 32 ∧ f.largest.length < 2 ^ 32

instance : DecidablePred Fits
  | .comparator name => inferInstanceAs (Decidable (name.length < 2 ^ 32))
  | .logNumber number => inferInstanceAs (Decidable (number < 2 ^ 64))
  | .prevLogNumber number => inferInstanceAs (Decidable (number < 2 ^ 64))
  | .nextFileNumber number => inferInstanceAs (Decidable (number < 2 ^ 64))
  | .lastSequence sequence => inferInstanceAs (Decidable (sequence < 2 ^ 64))
  | .compactPointer level key =>
    inferInstanceAs (Decidable (level < kNumLevels ∧ key.length < 2 ^ 32))
  | .deletedFile level number =>
    inferInstanceAs (Decidable (level < kNumLevels ∧ number < 2 ^ 64))
  | .newFile level f => inferInstanceAs (Decidable (level < kNumLevels ∧ f.number < 2 ^ 64 ∧
      f.fileSize < 2 ^ 64 ∧ f.smallest.length < 2 ^ 32 ∧ f.largest.length < 2 ^ 32))

end EditItem

/-- A `VersionEdit` with its comparator name. -/
structure ManifestRecord where
  comparator : Option Bytes
  edit : VersionEdit

/-- The order of `std::set<std::pair<int, uint64_t>>`. -/
def pairLe (a b : Nat × Nat) : Prop := a.1 < b.1 ∨ a.1 = b.1 ∧ a.2 ≤ b.2

instance : DecidableRel pairLe := fun a b =>
  inferInstanceAs (Decidable (a.1 < b.1 ∨ a.1 = b.1 ∧ a.2 ≤ b.2))

namespace ManifestRecord

/-- The items in the order of `EncodeTo`. -/
def items (r : ManifestRecord) : List EditItem :=
  (r.comparator.map EditItem.comparator).toList ++
    (r.edit.logNumber.map EditItem.logNumber).toList ++
    (r.edit.prevLogNumber.map EditItem.prevLogNumber).toList ++
    (r.edit.nextFileNumber.map EditItem.nextFileNumber).toList ++
    (r.edit.lastSequence.map EditItem.lastSequence).toList ++
    r.edit.compactPointers.map (fun p => EditItem.compactPointer p.1 p.2) ++
    (r.edit.deletedFiles.insertionSort pairLe).map (fun d => EditItem.deletedFile d.1 d.2) ++
    r.edit.newFiles.map (fun n => EditItem.newFile n.1 n.2)

/-- `VersionEdit::EncodeTo` -/
def encodeTo (r : ManifestRecord) : Bytes := r.items.flatMap EditItem.encode

/-- What `DecodeFrom` does with an item. -/
def add (r : ManifestRecord) : EditItem → ManifestRecord
  | .comparator name => { r with comparator := some name }
  | .logNumber number => { r with edit := { r.edit with logNumber := some number } }
  | .prevLogNumber number => { r with edit := { r.edit with prevLogNumber := some number } }
  | .nextFileNumber number => { r with edit := { r.edit with nextFileNumber := some number } }
  | .lastSequence sequence => { r with edit := { r.edit with lastSequence := some sequence } }
  | .compactPointer level key => { r with edit := r.edit.setCompactPointer level key }
  | .deletedFile level number => { r with edit := r.edit.deleteFile level number }
  | .newFile level f => { r with edit := r.edit.addFile level f }

end ManifestRecord

/-! ## Decoding -/

/-- `GetLevel` -/
def getLevel (input : Bytes) : Option (Nat × Bytes) :=
  (getVarint32 input).bind fun (v, input) => if v < kNumLevels then some (v, input) else none

/-- A part of an item that is missing ends the decoding with a message. -/
def itemOr (msg : String) : Option (EditItem × Bytes) → Except String (EditItem × Bytes)
  | some x => .ok x
  | none => .error msg

/-- The `switch` of `DecodeFrom`: the item and the input after it. -/
def decodeItem (tag : Nat) (input : Bytes) : Except String (EditItem × Bytes) :=
  match tag with
  | 1 => itemOr "comparator name" do
      let (name, input) ← getLengthPrefixedSlice input
      pure (.comparator name, input)
  | 2 => itemOr "log number" do
      let (number, input) ← getVarint64 input
      pure (.logNumber number, input)
  | 9 => itemOr "previous log number" do
      let (number, input) ← getVarint64 input
      pure (.prevLogNumber number, input)
  | 3 => itemOr "next file number" do
      let (number, input) ← getVarint64 input
      pure (.nextFileNumber number, input)
  | 4 => itemOr "last sequence number" do
      let (sequence, input) ← getVarint64 input
      pure (.lastSequence sequence, input)
  | 5 => itemOr "compaction pointer" do
      let (level, input) ← getLevel input
      let (key, input) ← getLengthPrefixedSlice input
      pure (.compactPointer level key, input)
  | 6 => itemOr "deleted file" do
      let (level, input) ← getLevel input
      let (number, input) ← getVarint64 input
      pure (.deletedFile level number, input)
  | 7 => itemOr "new-file entry" do
      let (level, input) ← getLevel input
      let (number, input) ← getVarint64 input
      let (fileSize, input) ← getVarint64 input
      let (smallest, input) ← getLengthPrefixedSlice input
      let (largest, input) ← getLengthPrefixedSlice input
      pure (.newFile level ⟨number, fileSize, smallest, largest⟩, input)
  | _ => .error "unknown tag"

/-- The `while` loop of `DecodeFrom`. Every round takes a byte at least. -/
def decodeLoop : (fuel : Nat) → (input : Bytes) → ManifestRecord → Except Status ManifestRecord
  | 0, _, r => .ok r
  | fuel + 1, input, r =>
    match getVarint32 input with
    | none => if input = [] then .ok r else .error (.corruption "VersionEdit: invalid tag")
    | some (tag, input) =>
      match decodeItem tag input with
      | .error msg => .error (.corruption ("VersionEdit: " ++ msg))
      | .ok (item, input) => decodeLoop fuel input (r.add item)

/-- `VersionEdit::DecodeFrom` into a new edit. -/
def decodeFrom (src : Bytes) : Except Status ManifestRecord :=
  decodeLoop (src.length + 1) src ⟨none, VersionEdit.clear⟩

/-! ## Round trip -/

theorem getLevel_encode {level : Nat} (h : level < kNumLevels) (rest : Bytes) :
    getLevel (encodeVarint32 level ++ rest) = some (level, rest) := by
  have hsmall : level < 2 ^ 32 := h.trans (by decide)
  rw [getLevel, getVarint32_encode hsmall]
  exact if_pos h

/-- **An item is read back.** -/
theorem decodeItem_body {item : EditItem} (h : item.Fits) (rest : Bytes) :
    decodeItem item.tag (item.body ++ rest) = .ok (item, rest) := by
  cases item with
  | comparator name =>
    simp only [EditItem.tag, EditItem.body, decodeItem, getLengthPrefixedSlice_put h]
    rfl
  | logNumber number =>
    simp only [EditItem.tag, EditItem.body, decodeItem, getVarint64_encode h]
    rfl
  | prevLogNumber number =>
    simp only [EditItem.tag, EditItem.body, decodeItem, getVarint64_encode h]
    rfl
  | nextFileNumber number =>
    simp only [EditItem.tag, EditItem.body, decodeItem, getVarint64_encode h]
    rfl
  | lastSequence sequence =>
    simp only [EditItem.tag, EditItem.body, decodeItem, getVarint64_encode h]
    rfl
  | compactPointer level key =>
    obtain ⟨hlevel, hkey⟩ := h
    simp only [EditItem.tag, EditItem.body, decodeItem, List.append_assoc,
      getLevel_encode hlevel, Option.bind_eq_bind, Option.bind_some,
      getLengthPrefixedSlice_put hkey]
    rfl
  | deletedFile level number =>
    obtain ⟨hlevel, hnumber⟩ := h
    simp only [EditItem.tag, EditItem.body, decodeItem, List.append_assoc,
      getLevel_encode hlevel, Option.bind_eq_bind, Option.bind_some, getVarint64_encode hnumber]
    rfl
  | newFile level f =>
    obtain ⟨hlevel, hnumber, hsize, hsmallest, hlargest⟩ := h
    simp only [EditItem.tag, EditItem.body, decodeItem, List.append_assoc,
      getLevel_encode hlevel, Option.bind_eq_bind, Option.bind_some, getVarint64_encode hnumber,
      getVarint64_encode hsize, getLengthPrefixedSlice_put hsmallest,
      getLengthPrefixedSlice_put hlargest]
    rfl

theorem decodeLoop_items {items : List EditItem} (h : ∀ item ∈ items, item.Fits) {fuel : Nat}
    (hfuel : items.length < fuel) (r : ManifestRecord) :
    decodeLoop fuel (items.flatMap EditItem.encode) r =
      .ok (items.foldl ManifestRecord.add r) := by
  induction items generalizing fuel r with
  | nil =>
    cases fuel with
    | zero => rfl
    | succ fuel => rfl
  | cons item items ih =>
    cases fuel with
    | zero => exact absurd hfuel (Nat.not_lt_zero _)
    | succ fuel =>
      rw [List.flatMap_cons, EditItem.encode, List.append_assoc, decodeLoop,
        getVarint32_encode item.tag_lt]
      dsimp only
      rw [decodeItem_body (h item List.mem_cons_self)]
      exact ih (fun x hx => h x (List.mem_cons_of_mem _ hx)) (Nat.lt_of_succ_lt_succ hfuel) _

theorem items_length_le (items : List EditItem) :
    items.length ≤ (items.flatMap EditItem.encode).length := by
  induction items with
  | nil => exact Nat.le_refl _
  | cons item items ih =>
    have hpos := encodeVarint32_length_pos item.tag
    rw [List.flatMap_cons, List.length_append, EditItem.encode, List.length_append,
      List.length_cons]
    omega

namespace ManifestRecord

/-! ### What the items add up to -/

theorem foldl_add_compactPointers (pointers : List (Nat × Bytes)) (r : ManifestRecord) :
    (pointers.map fun p => EditItem.compactPointer p.1 p.2).foldl add r =
      { r with edit := { r.edit with compactPointers := r.edit.compactPointers ++ pointers } } := by
  induction pointers generalizing r with
  | nil => rw [List.append_nil]; rfl
  | cons p pointers ih =>
    rw [List.map_cons, List.foldl_cons, ih]
    simp [add, VersionEdit.setCompactPointer]

theorem foldl_add_newFiles (files : List (Nat × FileMetaData)) (r : ManifestRecord) :
    (files.map fun n => EditItem.newFile n.1 n.2).foldl add r =
      { r with edit := { r.edit with newFiles := r.edit.newFiles ++ files } } := by
  induction files generalizing r with
  | nil => rw [List.append_nil]; rfl
  | cons n files ih =>
    rw [List.map_cons, List.foldl_cons, ih]
    simp [add, VersionEdit.addFile]

/-- The deleted files come back as a set. -/
theorem foldl_add_deletedFiles (deleted : List (Nat × Nat)) (r : ManifestRecord) :
    ∃ deleted', (∀ d, d ∈ deleted' ↔ d ∈ r.edit.deletedFiles ∨ d ∈ deleted) ∧
      (deleted.map fun d => EditItem.deletedFile d.1 d.2).foldl add r =
        { r with edit := { r.edit with deletedFiles := deleted' } } := by
  induction deleted generalizing r with
  | nil => exact ⟨r.edit.deletedFiles, fun d => by simp, rfl⟩
  | cons d deleted ih =>
    obtain ⟨deleted', hmem, hfold⟩ := ih (r.add (.deletedFile d.1 d.2))
    refine ⟨deleted', fun x => ?_, hfold⟩
    rw [hmem]
    show x ∈ r.edit.deletedFiles.insert d ∨ x ∈ deleted ↔ _
    rw [List.mem_insert_iff, List.mem_cons]
    tauto

/-- Every item of the record fits. -/
def Fits (r : ManifestRecord) : Prop := ∀ item ∈ r.items, item.Fits

instance : DecidablePred Fits := fun r =>
  inferInstanceAs (Decidable (∀ item ∈ r.items, item.Fits))

/-- **A record of the manifest is read back**, its deleted files as a set. -/
theorem decodeFrom_encodeTo {r : ManifestRecord} (h : r.Fits) :
    ∃ deleted, (∀ d, d ∈ deleted ↔ d ∈ r.edit.deletedFiles) ∧
      decodeFrom r.encodeTo = .ok ⟨r.comparator, { r.edit with deletedFiles := deleted }⟩ := by
  -- a byte per item at least, so the fuel of `decodeFrom` is enough
  have hloop := decodeLoop_items h (Nat.lt_succ_of_le (items_length_le r.items))
    ⟨none, VersionEdit.clear⟩
  obtain ⟨comparator, ⟨log, prev, next, last, pointers, deleted, files⟩⟩ := r
  obtain ⟨deleted', hmem, hdeleted⟩ := foldl_add_deletedFiles (deleted.insertionSort pairLe)
    ⟨comparator, ⟨log, prev, next, last, pointers, [], []⟩⟩
  refine ⟨deleted', fun d => ?_, ?_⟩
  · rw [hmem, (List.perm_insertionSort _ deleted).mem_iff]
    simp
  · refine hloop.trans (congrArg Except.ok ?_)
    have hhead : ((comparator.map EditItem.comparator).toList ++
        (log.map EditItem.logNumber).toList ++ (prev.map EditItem.prevLogNumber).toList ++
        (next.map EditItem.nextFileNumber).toList ++
        (last.map EditItem.lastSequence).toList).foldl add ⟨none, VersionEdit.clear⟩ =
          ⟨comparator, ⟨log, prev, next, last, [], [], []⟩⟩ := by
      cases comparator <;> cases log <;> cases prev <;> cases next <;> cases last <;> rfl
    rw [items, List.foldl_append, List.foldl_append, List.foldl_append, hhead,
      foldl_add_compactPointers]
    dsimp only
    rw [List.nil_append, hdeleted, foldl_add_newFiles]
    rfl

end ManifestRecord

/-! ## Any input -/

theorem getLevel_length {level : Nat} {input rest : Bytes}
    (h : getLevel input = some (level, rest)) : rest.length < input.length := by
  obtain ⟨⟨v, tail⟩, hv, hlevel⟩ := Option.bind_eq_some_iff.mp h
  dsimp only at hlevel
  split at hlevel
  · cases hlevel
    exact getVarint32_length hv
  · cases hlevel

theorem itemOr_ok {msg : String} {res : Option (EditItem × Bytes)} {x : EditItem × Bytes}
    (h : itemOr msg res = .ok x) : res = some x := by
  cases res with
  | none => cases h
  | some y =>
    cases h
    rfl

/-- The body of an item ends before the end of the input, or with it. -/
theorem decodeItem_length {tag : Nat} {input rest : Bytes} {item : EditItem}
    (h : decodeItem tag input = .ok (item, rest)) : rest.length ≤ input.length := by
  unfold decodeItem at h
  split at h
  case h_9 => cases h
  all_goals
    have hsome := itemOr_ok h
    simp only [Option.bind_eq_bind, Option.bind_eq_some_iff, Option.pure_def, Option.some.injEq,
      Prod.mk.injEq, Prod.exists] at hsome
  case h_1 =>
    obtain ⟨name, tail, hname, -, rfl⟩ := hsome
    exact Nat.le_of_lt (getLengthPrefixedSlice_length hname)
  case h_6 =>
    obtain ⟨level, tail₁, hlevel, key, tail, hkey, -, rfl⟩ := hsome
    exact Nat.le_of_lt ((getLengthPrefixedSlice_length hkey).trans (getLevel_length hlevel))
  case h_7 =>
    obtain ⟨level, tail₁, hlevel, number, tail, hnumber, -, rfl⟩ := hsome
    exact Nat.le_of_lt ((getVarint64_length hnumber).trans (getLevel_length hlevel))
  case h_8 =>
    obtain ⟨level, tail₁, hlevel, number, tail₂, hnumber, fileSize, tail₃, hsize, smallest, tail₄,
      hsmallest, largest, tail, hlargest, -, rfl⟩ := hsome
    have hfile := (getVarint64_length hsize).trans
      ((getVarint64_length hnumber).trans (getLevel_length hlevel))
    exact Nat.le_of_lt ((getLengthPrefixedSlice_length hlargest).trans
      ((getLengthPrefixedSlice_length hsmallest).trans hfile))
  all_goals
    obtain ⟨number, tail, hnumber, -, rfl⟩ := hsome
    exact Nat.le_of_lt (getVarint64_length hnumber)

/-- The loop of `DecodeFrom` with the input that it leaves. It is `none` if the loop has
not ended after so many rounds. -/
def decodeRounds :
    (fuel : Nat) → (input : Bytes) → ManifestRecord →
      Option (Except Status (ManifestRecord × Bytes))
  | 0, _, _ => none
  | fuel + 1, input, r =>
    match getVarint32 input with
    | none =>
      if input = [] then some (.ok (r, input))
      else some (.error (.corruption "VersionEdit: invalid tag"))
    | some (tag, input) =>
      match decodeItem tag input with
      | .error msg => some (.error (.corruption ("VersionEdit: " ++ msg)))
      | .ok (item, input) => decodeRounds fuel input (r.add item)

/-- **The loop ends** on every input, and when it ends well nothing is left. -/
theorem decodeRounds_spec {fuel : Nat} {input : Bytes} (h : input.length < fuel)
    (r : ManifestRecord) :
    ∃ res, decodeRounds fuel input r = some res ∧
      decodeLoop fuel input r = res.map Prod.fst ∧ ∀ x, res = .ok x → x.2 = [] := by
  induction fuel generalizing input r with
  | zero => exact absurd h (Nat.not_lt_zero _)
  | succ fuel ih =>
    unfold decodeRounds decodeLoop
    cases htag : getVarint32 input with
    | none =>
      dsimp only
      by_cases hempty : input = []
      · rw [if_pos hempty, if_pos hempty]
        refine ⟨_, rfl, rfl, ?_⟩
        rintro x ⟨⟩
        exact hempty
      · rw [if_neg hempty, if_neg hempty]
        refine ⟨_, rfl, rfl, ?_⟩
        rintro x ⟨⟩
    | some t =>
      obtain ⟨tag, tail⟩ := t
      have hshorter := getVarint32_length htag
      dsimp only
      cases hitem : decodeItem tag tail with
      | error msg =>
        refine ⟨_, rfl, rfl, ?_⟩
        rintro x ⟨⟩
      | ok x =>
        obtain ⟨item, rest⟩ := x
        have hrest := decodeItem_length hitem
        exact ih (by omega) (r.add item)

/-- What an edit has, its deleted files as a set. -/
structure ManifestRecord.Same (r r' : ManifestRecord) : Prop where
  comparator : r'.comparator = r.comparator
  logNumber : r'.edit.logNumber = r.edit.logNumber
  prevLogNumber : r'.edit.prevLogNumber = r.edit.prevLogNumber
  nextFileNumber : r'.edit.nextFileNumber = r.edit.nextFileNumber
  lastSequence : r'.edit.lastSequence = r.edit.lastSequence
  compactPointers : r'.edit.compactPointers = r.edit.compactPointers
  deletedFiles : ∀ d, d ∈ r'.edit.deletedFiles ↔ d ∈ r.edit.deletedFiles
  newFiles : r'.edit.newFiles = r.edit.newFiles

/-- **Edits are read back, and any other input is handled.** `DecodeFrom` on the bytes of
`EncodeTo` gives the edit that was written. On every byte string its loop ends, and when it
returns `OK` the whole input has been consumed. -/
theorem decodeFrom_roundTrip {r : ManifestRecord} (hfits : r.Fits) (src : Bytes) :
    (∃ r', decodeFrom r.encodeTo = .ok r' ∧ r.Same r') ∧
      ∃ res, decodeRounds (src.length + 1) src ⟨none, VersionEdit.clear⟩ = some res ∧
        decodeFrom src = res.map Prod.fst ∧ ∀ x, res = .ok x → x.2 = [] := by
  refine ⟨?_, decodeRounds_spec (Nat.lt_succ_self _) _⟩
  obtain ⟨deleted, hmem, hdecode⟩ := ManifestRecord.decodeFrom_encodeTo hfits
  exact ⟨_, hdecode, rfl, rfl, rfl, rfl, rfl, rfl, hmem, rfl⟩

/-- A compaction's edit: two files go and one comes. -/
def compactionRecord : ManifestRecord :=
  ⟨none, { VersionEdit.clear with
    logNumber := some 3
    compactPointers := [(1, [7, 1, 0, 0, 0, 0, 0, 0, 0])]
    deletedFiles := [(2, 300), (1, 5)]
    newFiles := [(2, ⟨2 ^ 40, 100, [7, 1, 0, 0, 0, 0, 0, 0, 0], [9, 1, 0, 0, 0, 0, 0, 0, 0]⟩)] }⟩

theorem decodeFrom_roundTrip_compaction :
    compactionRecord.Fits ∧
      ∃ r', decodeFrom compactionRecord.encodeTo = .ok r' ∧ compactionRecord.Same r' := by
  have hfits : compactionRecord.Fits := by decide +kernel
  exact ⟨hfits, (decodeFrom_roundTrip hfits []).1⟩

end Lpad
