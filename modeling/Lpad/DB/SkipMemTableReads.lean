import Lpad.Base.Run
import Lpad.DB.GetSpec
import Lpad.DB.SkipMemTable
import Mathlib.Data.List.MinMax
import Mathlib.Data.List.Pairwise

/-!
# A memtable finds the newest entry

The buffers that `Add` makes are the length-prefixed internal key and value, as long as their
sizes have 32 bits. The order of the skip list is then that of the internal keys, and a seek
to a lookup key ends at the newest entry of the user key that the snapshot sees, if there is
one.
-/

namespace Lpad

/-- The sizes of an entry have 32 bits, its sequence number 56. -/
def MemEntry.Fits (e : MemEntry) : Prop :=
  e.userKey.length + 8 < 2 ^ 32 ∧ e.value.length < 2 ^ 32 ∧ e.sequence ≤ kMaxSequenceNumber

instance (e : MemEntry) : Decidable e.Fits := by
  unfold MemEntry.Fits
  infer_instance

namespace MemTable

/-! ## Buffers -/

theorem varintLength_eq (rounds : Nat) : ∀ v : Nat,
    (varintBytes rounds v).length = varintLength rounds v := by
  induction rounds with
  | zero => exact fun _ => rfl
  | succ rounds ih =>
    intro v
    unfold varintBytes varintLength
    rw [show (2 : Nat) ^ 7 = 128 from rfl]
    by_cases h : v < 128
    · rw [if_pos h, if_neg (not_le.mpr h), List.length_singleton]
    · rw [if_neg h, if_pos (not_lt.mp h), List.length_cons, ih]

/-- Rounds that are not needed do not matter. -/
theorem varintLength_of_lt (rounds more : Nat) : ∀ v : Nat, v < 2 ^ (7 * (rounds + 1)) →
    varintLength (rounds + more) v = varintLength rounds v := by
  induction rounds with
  | zero =>
    intro v hv
    cases more with
    | zero => rfl
    | succ more =>
      unfold varintLength
      exact if_neg (not_le.mpr hv)
  | succ rounds ih =>
    intro v hv
    have hshift : v >>> 7 < 2 ^ (7 * (rounds + 1)) := by
      rw [Nat.shiftRight_eq_div_pow]
      apply Nat.div_lt_of_lt_mul
      rwa [← Nat.pow_add, Nat.add_comm 7]
    rw [Nat.succ_add, varintLength, varintLength, ih _ hshift]

theorem length_encodeVarint32 {v : Nat} (h : v < 2 ^ 32) :
    (encodeVarint32 v).length = varintLength 9 v := by
  rw [encodeVarint32_eq, varintLength_eq]
  exact (varintLength_of_lt 4 5 v (h.trans_le (Nat.pow_le_pow_right Nat.two_pos (by decide)))).symm

theorem getLengthPrefixedSlice_encode {v : Nat} {slice : Bytes} (h : v < 2 ^ 32)
    (hlen : v ≤ slice.length) :
    getLengthPrefixedSlice (encodeVarint32 v ++ slice) = some (slice.take v, slice.drop v) := by
  rw [getLengthPrefixedSlice, getVarint32_encode h]
  exact if_pos hlen

/-- The tag of an entry. -/
theorem tag_eq {e : MemEntry} (h : e.sequence ≤ kMaxSequenceNumber) :
    uint64 (e.sequence <<< 8) ||| e.type.code = packSequenceAndType e.sequence e.type := by
  have hcode := e.type.code_lt
  unfold kMaxSequenceNumber at h
  have hshift : e.sequence <<< 8 = e.sequence * 256 := Nat.shiftLeft_eq e.sequence 8
  rw [uint64_of_lt (by omega), ← Nat.shiftLeft_add_eq_or_of_lt (hcode.trans (by decide)), hshift,
    packSequenceAndType]

theorem encodeEntry_eq {e : MemEntry} (hkey : e.userKey.length + 8 < 2 ^ 32)
    (hseq : e.sequence ≤ kMaxSequenceNumber) :
    encodeEntry e = encodeVarint32 (e.userKey.length + 8) ++ (e.record.key ++
      (encodeVarint32 (uint32 e.value.length) ++ e.value)) := by
  rw [encodeEntry, uint32_of_lt hkey, tag_eq hseq, List.append_assoc]
  rfl

theorem length_recordKey (e : MemEntry) : e.record.key.length = e.userKey.length + 8 := by
  rw [MemEntry.record, appendInternalKey, List.length_append, leBytes_length]

theorem sliceAt_encodeEntry {e : MemEntry} (hkey : e.userKey.length + 8 < 2 ^ 32)
    (hseq : e.sequence ≤ kMaxSequenceNumber) : sliceAt (encodeEntry e) = e.record.key := by
  have hlen := length_recordKey e
  rw [encodeEntry_eq hkey hseq, sliceAt, getLengthPrefixedSlice_encode hkey (by
    rw [List.length_append]
    omega)]
  exact List.take_left' hlen

theorem sliceAt_memtableKey {k : LookupKey} (hkey : k.userKey.length + 8 < 2 ^ 32) :
    sliceAt k.memtableKey = k.internalKey := by
  have hlen : k.internalKey.length = k.userKey.length + 8 := by
    rw [LookupKey.internalKey, appendInternalKey, List.length_append, leBytes_length]
  rw [LookupKey.memtableKey, uint32_of_lt hkey, sliceAt,
    getLengthPrefixedSlice_encode hkey hlen.ge]
  exact List.take_of_length_le hlen.le

/-- The assertion of `Add`. -/
theorem length_encodeEntry {e : MemEntry} (h : e.Fits) : (encodeEntry e).length = encodedLen e := by
  obtain ⟨hkey, hvalue, hseq⟩ := h
  rw [encodeEntry_eq hkey hseq, encodedLen, uint32_of_lt hvalue]
  simp only [List.length_append, length_encodeVarint32 hkey, length_encodeVarint32 hvalue,
    length_recordKey]
  omega

/-! ## What is read -/

/-- The answer for the entry that was found. -/
def answer (e : Option MemEntry) (s : Status) (out : GetOutput) : Bool × Status × GetOutput :=
  match e with
  | none => (false, s, out)
  | some e =>
    match e.type with
    | .kTypeValue => (true, s, ⟨e.value, e.sequence⟩)
    | .kTypeDeletion => (true, .notFound "", { out with tw := e.sequence })

/-- A value is cut to the 32 bits of its size. -/
def cutValue (e : MemEntry) : MemEntry := { e with value := e.value.take (uint32 e.value.length) }

theorem cutValue_of_lt {e : MemEntry} (h : e.value.length < 2 ^ 32) : cutValue e = e := by
  rw [cutValue, uint32_of_lt h, List.take_length]

variable {ucmp : Bytes → Bytes → Ordering}

theorem readEntry_encodeEntry {e : MemEntry} (hkey : e.userKey.length + 8 < 2 ^ 32)
    (hseq : e.sequence ≤ kMaxSequenceNumber) (k : LookupKey) (s : Status) (out : GetOutput) :
    Table.readEntry ucmp (encodeEntry e) k s out =
      some (if ucmp e.userKey k.userKey = .eq then answer (some (cutValue e)) s out
        else (false, s, out)) := by
  have hlen := length_recordKey e
  have hpack : packSequenceAndType e.sequence e.type < 2 ^ 64 := by
    have hcode := e.type.code_lt
    unfold packSequenceAndType
    unfold kMaxSequenceNumber at hseq
    omega
  have huser : uint32 (e.userKey.length + 8 + (2 ^ 32 - 8)) = e.userKey.length := by
    rw [uint32]
    omega
  have hrecord : e.record.key =
      e.userKey ++ encodeFixed64 (packSequenceAndType e.sequence e.type) := rfl
  have hvalue : getLengthPrefixedSlice ((e.record.key ++
      (encodeVarint32 (uint32 e.value.length) ++ e.value)).drop (e.userKey.length + 8)) =
        some (e.value.take (uint32 e.value.length), e.value.drop (uint32 e.value.length)) := by
    rw [List.drop_left' hlen]
    exact getLengthPrefixedSlice_encode (Nat.mod_lt _ (by decide)) (Nat.mod_le _ _)
  unfold Table.readEntry
  rw [encodeEntry_eq hkey hseq, getVarint32_encode hkey]
  dsimp only
  rw [hvalue, huser, Nat.add_sub_cancel, hrecord, List.append_assoc, List.take_left,
    List.drop_left, decodeFixed64_encode hpack]
  by_cases heq : ucmp e.userKey k.userKey = .eq
  · rw [if_pos heq, if_pos heq]
    have hshift : packSequenceAndType e.sequence e.type >>> 8 = e.sequence := by
      have hcode := e.type.code_lt
      rw [Nat.shiftRight_eq_div_pow, packSequenceAndType]
      omega
    have hand : packSequenceAndType e.sequence e.type &&& 255 = e.type.code := by
      have hcode := e.type.code_lt
      rw [Nat.and_two_pow_sub_one_eq_mod _ 8, packSequenceAndType]
      omega
    rw [hshift, hand]
    cases htype : e.type with
    | kTypeValue => simp [ValueType.code, answer, cutValue, htype]
    | kTypeDeletion => simp [ValueType.code, answer, cutValue, htype]
  · rw [if_neg heq, if_neg heq]

/-! ## Runs of `Add` -/

/-- A new memtable, and calls of `Add` with the heights that are drawn. -/
def addAll (ucmp : Bytes → Bytes → Ordering) (adds : List (MemEntry × Nat)) : Option Table :=
  runs (fun t a => Table.add ucmp t a.1 a.2) SkipList.new adds

section Order

variable {κ : Type*} [LinearOrder κ] {urank : Bytes → κ}

/-- The rank of a buffer. -/
def bufferRank (urank : Bytes → κ) (data : Bytes) : κ ×ₗ Natᵒᵈ := internalRank urank (sliceAt data)

theorem ranks_keyComparator (h : Ranks ucmp urank) :
    Ranks (keyComparator ucmp) (bufferRank urank) :=
  fun a b => h.internalKey (sliceAt a) (sliceAt b)

omit [LinearOrder κ] in
theorem bufferRank_encodeEntry {e : MemEntry} (h : e.Fits) :
    bufferRank urank (encodeEntry e) =
      toLex (urank e.userKey, OrderDual.toDual (packSequenceAndType e.sequence e.type)) := by
  rw [bufferRank, sliceAt_encodeEntry h.1 h.2.2, internalRank, MemEntry.record,
    extractUserKey_appendInternalKey, trailer_eq_pack h.2.2]

omit [LinearOrder κ] in
theorem bufferRank_memtableKey {k : LookupKey} (hkey : k.userKey.length + 8 < 2 ^ 32)
    (hseq : k.sequence ≤ kMaxSequenceNumber) : bufferRank urank k.memtableKey =
      toLex (urank k.userKey, OrderDual.toDual (packSequenceAndType k.sequence .kTypeValue)) := by
  rw [bufferRank, sliceAt_memtableKey hkey, internalRank, LookupKey.internalKey,
    extractUserKey_appendInternalKey, trailer_eq_pack hseq]

/-- A larger number is packed to a larger one. -/
theorem packSequenceAndType_lt {s s' : Nat} (h : s < s') (t t' : ValueType) :
    packSequenceAndType s t < packSequenceAndType s' t' := by
  have hcode := t.code_lt
  unfold packSequenceAndType
  omega

/-- Up to the lookup key are the entries that the snapshot sees. -/
theorem pack_le_lookup_iff {s s' : Nat} {t : ValueType} :
    packSequenceAndType s' t ≤ packSequenceAndType s .kTypeValue ↔ s' ≤ s := by
  have hcode := t.code_lt
  unfold packSequenceAndType
  rw [show ValueType.kTypeValue.code = 1 from rfl]
  omega

omit [LinearOrder κ] in
/-- Entries with different user keys or numbers have different ranks. -/
theorem bufferRank_ne (hinj : ∀ u v, urank u = urank v → u = v) {a b : MemEntry} (ha : a.Fits)
    (hb : b.Fits) (hne : (a.userKey, a.sequence) ≠ (b.userKey, b.sequence)) :
    bufferRank urank (encodeEntry a) ≠ bufferRank urank (encodeEntry b) := by
  rw [bufferRank_encodeEntry ha, bufferRank_encodeEntry hb]
  intro heq
  obtain ⟨hkey, hpack⟩ := Prod.mk.inj (toLex_inj.mp heq)
  apply hne
  rcases Nat.lt_trichotomy a.sequence b.sequence with hlt | hseq | hlt
  · exact absurd (OrderDual.toDual_inj.mp hpack) (packSequenceAndType_lt hlt _ _).ne
  · rw [hinj _ _ hkey, hseq]
  · exact absurd (OrderDual.toDual_inj.mp hpack) (packSequenceAndType_lt hlt _ _).ne'

/-- The table that the calls have built. -/
structure Built (urank : Bytes → κ) (entries : List MemEntry) (t : Table) : Prop where
  ordered : SkipList.Ordered (bufferRank urank) t
  keys : t.nodes.map SkipNode.key = entries.map encodeEntry

/-- Different entries for the order. -/
def Distinct (entries : List MemEntry) : Prop :=
  entries.Pairwise fun a b => (a.userKey, a.sequence) ≠ (b.userKey, b.sequence)

/-- One call of `Add`. -/
theorem Built.add (hrank : Ranks ucmp urank) (hinj : ∀ u v, urank u = urank v → u = v)
    {entries : List MemEntry} {t : Table} (h : Built urank entries t)
    (hfits : ∀ a ∈ entries, a.Fits) {e : MemEntry} (he : e.Fits)
    (hnew : ∀ a ∈ entries, (a.userKey, a.sequence) ≠ (e.userKey, e.sequence)) {height : Nat}
    (hpos : 0 < height) (hheight : height ≤ kMaxHeight) :
    ∃ t', Table.add ucmp t e height = some t' ∧ Built urank (entries ++ [e]) t' := by
  have hother : ∀ n ∈ t.nodes, bufferRank urank n.key ≠ bufferRank urank (encodeEntry e) := by
    intro n hn
    have hmem : n.key ∈ entries.map encodeEntry := h.keys ▸ List.mem_map_of_mem hn
    obtain ⟨a, ha, hkey⟩ := List.mem_map.mp hmem
    rw [← hkey]
    exact bufferRank_ne hinj (hfits a ha) he (hnew a ha)
  obtain ⟨t', hinsert, hordered, hkeys⟩ :=
    SkipList.insert_spec (ranks_keyComparator hrank) h.ordered hpos hheight hother
  refine ⟨t', ?_, hordered, ?_⟩
  · rw [Table.add, if_pos (length_encodeEntry he)]
    exact hinsert
  · rw [hkeys, h.keys, List.map_append]
    rfl

/-- **Every run of `Add`** ends, and builds an ordered skip list of the entries. -/
theorem addAll_built (hrank : Ranks ucmp urank) (hinj : ∀ u v, urank u = urank v → u = v)
    (adds : List (MemEntry × Nat)) (hdistinct : Distinct (adds.map Prod.fst))
    (hheight : ∀ a ∈ adds, 1 ≤ a.2 ∧ a.2 ≤ kMaxHeight) (hfits : ∀ a ∈ adds, a.1.Fits) :
    ∃ t, addAll ucmp adds = some t ∧ Built urank (adds.map Prod.fst) t := by
  induction adds using List.reverseRecOn with
  | nil => exact ⟨_, rfl, SkipList.ordered_new _, rfl⟩
  | append_singleton adds a ih =>
    rw [List.map_append, Distinct, List.pairwise_append] at hdistinct
    obtain ⟨hold, -, hnew⟩ := hdistinct
    obtain ⟨t, hrun, hbuilt⟩ := ih hold (fun b hb => hheight b (List.mem_append_left _ hb))
      fun b hb => hfits b (List.mem_append_left _ hb)
    have ha : a ∈ adds ++ [a] := List.mem_append_right _ (List.mem_singleton_self a)
    obtain ⟨t', hadd, hbuilt'⟩ := hbuilt.add hrank hinj (e := a.1) (by
        intro e he
        obtain ⟨b, hb, rfl⟩ := List.mem_map.mp he
        exact hfits b (List.mem_append_left _ hb))
      (hfits a ha) (fun e he => hnew e he a.1 (List.mem_singleton_self a.1)) (hheight a ha).1
      (hheight a ha).2
    refine ⟨t', runs_snoc.mpr ⟨t, hrun, hadd⟩, ?_⟩
    rw [List.map_append]
    exact hbuilt'

/-! ## Reads -/

/-- The newest entry of a user key that a snapshot sees. -/
def newest (entries : List MemEntry) (userKey : Bytes) (sequence : Nat) : Option MemEntry :=
  (entries.filter fun e => e.userKey = userKey ∧ e.sequence ≤ sequence).argmax MemEntry.sequence

/-- `SUGet` reads the first entry from the lookup key on. -/
theorem suGet_eq (hrank : Ranks ucmp urank) {t : Table}
    (h : SkipList.Ordered (bufferRank urank) t) (k : LookupKey) (s : Status) (out : GetOutput) :
    (∃ key ∈ t.nodes.map SkipNode.key, t.suGet ucmp k s out = Table.readEntry ucmp key k s out ∧
      bufferRank urank k.memtableKey ≤ bufferRank urank key ∧
      ∀ key' ∈ t.nodes.map SkipNode.key, bufferRank urank k.memtableKey ≤ bufferRank urank key' →
        bufferRank urank key ≤ bufferRank urank key') ∨
    (t.suGet ucmp k s out = some (false, s, out) ∧
      ∀ key ∈ t.nodes.map SkipNode.key,
        ¬ bufferRank urank k.memtableKey ≤ bufferRank urank key) := by
  obtain ⟨n, prev, hfind, -, hfirst⟩ := SkipList.findGreaterOrEqual_spec
    (ranks_keyComparator hrank) h (h.lists (List.Perm.refl _)) k.memtableKey
  have hmove : (t.iterator (keyComparator ucmp)).move (.seek k.memtableKey) none = some n := by
    show (t.findGreaterOrEqual _ _).map _ = _
    rw [hfind]
    rfl
  unfold Table.suGet
  dsimp only
  rw [hmove]
  dsimp only
  cases hentry : (t.iterator (keyComparator ucmp)).entry n with
  | none =>
    right
    rw [Iterator.entry_eq_none.mp hentry, if_neg (by decide)]
    refine ⟨rfl, ?_⟩
    rw [hentry] at hfirst
    exact fun key hkey => hfirst (SkipList.entryOf key) (List.mem_map_of_mem hkey)
  | some e =>
    left
    obtain ⟨hvalid, hkey, -⟩ := Iterator.entry_eq_some.mp hentry
    rw [hentry] at hfirst
    obtain ⟨hmem, hle, hleast⟩ := hfirst
    obtain ⟨key, hin, rfl⟩ := List.mem_map.mp hmem
    rw [hvalid, if_pos rfl, hkey]
    exact ⟨key, hin, rfl, hle, fun key' hkey' =>
      hleast (SkipList.entryOf key') (List.mem_map_of_mem hkey')⟩

/-- The entries from a lookup key on. -/
theorem lookup_le_iff {k : LookupKey} (hkey : k.userKey.length + 8 < 2 ^ 32)
    (hseq : k.sequence ≤ kMaxSequenceNumber) {e : MemEntry} (he : e.Fits) :
    bufferRank urank k.memtableKey ≤ bufferRank urank (encodeEntry e) ↔
      urank k.userKey < urank e.userKey ∨
        urank k.userKey = urank e.userKey ∧ e.sequence ≤ k.sequence := by
  rw [bufferRank_memtableKey hkey hseq, bufferRank_encodeEntry he, Prod.Lex.toLex_le_toLex,
    OrderDual.toDual_le_toDual, pack_le_lookup_iff]

/-- Two entries. -/
theorem entry_le_iff {a b : MemEntry} (ha : a.Fits) (hb : b.Fits) :
    bufferRank urank (encodeEntry a) ≤ bufferRank urank (encodeEntry b) ↔
      urank a.userKey < urank b.userKey ∨ urank a.userKey = urank b.userKey ∧
        packSequenceAndType b.sequence b.type ≤ packSequenceAndType a.sequence a.type := by
  rw [bufferRank_encodeEntry ha, bufferRank_encodeEntry hb, Prod.Lex.toLex_le_toLex,
    OrderDual.toDual_le_toDual]

theorem newest_eq_none {entries : List MemEntry} {u : Bytes} {s : Nat}
    (h : ∀ e ∈ entries, e.userKey = u → ¬ e.sequence ≤ s) : newest entries u s = none := by
  rw [newest, List.argmax_eq_none, List.filter_eq_nil_iff]
  intro e he
  rw [decide_eq_true_iff]
  exact fun hmatch => h e he hmatch.1 hmatch.2

theorem newest_eq_some {entries : List MemEntry} (hdistinct : Distinct entries) {e : MemEntry}
    {s : Nat} (he : e ∈ entries) (hseq : e.sequence ≤ s)
    (hmax : ∀ a ∈ entries, a.userKey = e.userKey → a.sequence ≤ s → a.sequence ≤ e.sequence) :
    newest entries e.userKey s = some e := by
  have hmem : ∀ {a}, a ∈ entries.filter (fun a => a.userKey = e.userKey ∧ a.sequence ≤ s) ↔
      a ∈ entries ∧ a.userKey = e.userKey ∧ a.sequence ≤ s := by
    intro a
    rw [List.mem_filter, decide_eq_true_iff]
  rw [newest]
  cases hnew : (entries.filter fun a => a.userKey = e.userKey ∧ a.sequence ≤ s).argmax
      MemEntry.sequence with
  | none =>
    rw [List.argmax_eq_none] at hnew
    exact absurd (hmem.mpr ⟨he, rfl, hseq⟩) (hnew ▸ List.not_mem_nil)
  | some a =>
    obtain ⟨hin, hle, -⟩ := List.mem_argmax_iff.mp (Option.mem_def.mpr hnew)
    obtain ⟨ha, hkey, hseen⟩ := hmem.mp hin
    have hsame : a.sequence = e.sequence :=
      le_antisymm (hmax a ha hkey hseen) (hle e (hmem.mpr ⟨he, rfl, hseq⟩))
    congr 1
    by_contra hne
    have hsymm : Std.Symm fun a b : MemEntry =>
        (a.userKey, a.sequence) ≠ (b.userKey, b.sequence) := ⟨fun _ _ => Ne.symm⟩
    exact List.Pairwise.forall hdistinct ha he hne (by rw [hkey, hsame])

/-- **`SUGet` answers with the newest entry.** -/
theorem Built.suGet (hrank : Ranks ucmp urank) (hinj : ∀ u v, urank u = urank v → u = v)
    {entries : List MemEntry} {t : Table} (h : Built urank entries t)
    (hdistinct : Distinct entries) (hfits : ∀ e ∈ entries, e.Fits) {k : LookupKey}
    (hkey : k.userKey.length + 8 < 2 ^ 32) (hseq : k.sequence ≤ kMaxSequenceNumber) (s : Status)
    (out : GetOutput) :
    t.suGet ucmp k s out = some (answer (newest entries k.userKey k.sequence) s out) := by
  have hmem : ∀ {e}, e ∈ entries → encodeEntry e ∈ t.nodes.map SkipNode.key := fun he =>
    h.keys ▸ List.mem_map_of_mem he
  rcases suGet_eq hrank h.ordered k s out with ⟨buffer, hbuffer, hget, hle, hleast⟩ | ⟨hget, hnone⟩
  · rw [h.keys] at hbuffer
    obtain ⟨e, he, rfl⟩ := List.mem_map.mp hbuffer
    have hfe := hfits e he
    rw [hget, readEntry_encodeEntry hfe.1 hfe.2.2, cutValue_of_lt hfe.2.1]
    rw [lookup_le_iff hkey hseq hfe] at hle
    by_cases huser : e.userKey = k.userKey
    · -- the entry is of the user key: no newer one is in front of the lookup key
      have hseen : e.sequence ≤ k.sequence := by
        rcases hle with hlt | ⟨-, hseen⟩
        · exact absurd (congrArg urank huser) hlt.ne'
        · exact hseen
      rw [if_pos (hrank.eq_iff.mpr (congrArg urank huser)), ← huser,
        newest_eq_some hdistinct he hseen]
      intro a ha hakey haseen
      have hrest := hleast (encodeEntry a) (hmem ha) ((lookup_le_iff hkey hseq (hfits a ha)).mpr
        (Or.inr ⟨congrArg urank (hakey.trans huser).symm, haseen⟩))
      rcases (entry_le_iff hfe (hfits a ha)).mp hrest with hlt | ⟨-, hpack⟩
      · exact absurd (congrArg urank hakey) hlt.ne'
      · exact not_lt.mp fun hlt => absurd hpack (not_le.mpr (packSequenceAndType_lt hlt _ _))
    · -- an entry of the user key would be in front of it
      rw [if_neg fun heq => huser (hinj _ _ (hrank.eq_iff.mp heq)), newest_eq_none]
      · rfl
      · intro a ha hakey haseen
        have hrest := hleast (encodeEntry a) (hmem ha) ((lookup_le_iff hkey hseq (hfits a ha)).mpr
          (Or.inr ⟨congrArg urank hakey.symm, haseen⟩))
        have hto : urank e.userKey ≤ urank k.userKey := by
          rw [← hakey]
          rcases (entry_le_iff hfe (hfits a ha)).mp hrest with hlt | ⟨heq, -⟩
          · exact hlt.le
          · exact heq.le
        have hfrom : urank k.userKey ≤ urank e.userKey := by
          rcases hle with hlt | ⟨heq, -⟩
          · exact hlt.le
          · exact heq.le
        exact huser (hinj _ _ (le_antisymm hto hfrom))
  · rw [hget, newest_eq_none]
    · rfl
    · intro a ha hakey haseen
      exact hnone (encodeEntry a) (hmem ha) ((lookup_le_iff hkey hseq (hfits a ha)).mpr
        (Or.inr ⟨congrArg urank hakey.symm, haseen⟩))

end Order

/-! ## The memtable as a list -/

/-- **The memtable of any run of `Add`.** -/
theorem addAll_reads (ucmp : Bytes → Bytes → Ordering) [Std.TransCmp ucmp]
    [Std.LawfulEqCmp ucmp] (adds : List (MemEntry × Nat))
    (hdistinct : Distinct (adds.map Prod.fst)) (hheight : ∀ a ∈ adds, 1 ≤ a.2 ∧ a.2 ≤ kMaxHeight)
    (hfits : ∀ a ∈ adds, a.1.Fits) {k : LookupKey} (hkey : k.userKey.length + 8 < 2 ^ 32)
    (hseq : k.sequence ≤ kMaxSequenceNumber) (s : Status) (out : GetOutput) :
    ∃ t, addAll ucmp adds = some t ∧
      (∃ levels : Nat → List Bytes, (∀ ℓ < kMaxHeight, t.levelKeys ℓ = some (levels ℓ)) ∧
        (∀ ℓ, (levels (ℓ + 1)).Sublist (levels ℓ)) ∧
        (levels 0).Perm (adds.map fun a => encodeEntry a.1) ∧
        ∀ ℓ, (levels ℓ).Pairwise fun a b => keyComparator ucmp a b = .lt) ∧
      t.suGet ucmp k s out =
        some (answer (newest (adds.map Prod.fst) k.userKey k.sequence) s out) := by
  obtain ⟨κ, _, urank, hrank⟩ := exists_ranks ucmp
  have hinj : ∀ u v, urank u = urank v → u = v := fun u v h =>
    Std.LawfulEqCmp.eq_of_compare (hrank.eq_iff.mpr h)
  obtain ⟨t, hrun, hbuilt⟩ := addAll_built hrank hinj adds hdistinct hheight hfits
  refine ⟨t, hrun, ?_, ?_⟩
  · obtain ⟨levels, hlevels, hsub, hperm, hsorted⟩ := hbuilt.ordered.levels
    refine ⟨levels, hlevels, hsub, ?_, ?_⟩
    · rw [hbuilt.keys, List.map_map] at hperm
      exact hperm
    · intro ℓ
      have hbelow : (levels ℓ).Sublist (levels 0) := by
        induction ℓ with
        | zero => exact List.Sublist.refl _
        | succ ℓ ih => exact (hsub ℓ).trans ih
      exact (hsorted.sublist hbelow).imp (ranks_keyComparator hrank).lt_iff.mpr
  · apply hbuilt.suGet hrank hinj hdistinct _ hkey hseq
    intro e he
    obtain ⟨a, ha, rfl⟩ := List.mem_map.mp he
    exact hfits a ha

/-- An overwrite, a deletion of it and another key. -/
def threeAdds : List (MemEntry × Nat) :=
  [(⟨3, .kTypeValue, [1], [13]⟩, 2), (⟨5, .kTypeDeletion, [1], []⟩, 1),
   (⟨4, .kTypeValue, [2], [24]⟩, 12)]

theorem addAll_reads_threeAdds :
    newest (threeAdds.map Prod.fst) [1] 4 = some ⟨3, .kTypeValue, [1], [13]⟩ ∧
      ∃ t, addAll sliceCompare threeAdds = some t ∧
        t.suGet sliceCompare ⟨[1], 4⟩ .ok ⟨[], 0⟩ = some (true, .ok, ⟨[13], 3⟩) := by
  have hnewest : newest (threeAdds.map Prod.fst) [1] 4 = some ⟨3, .kTypeValue, [1], [13]⟩ := by
    decide +kernel
  refine ⟨hnewest, ?_⟩
  obtain ⟨t, hrun, -, hget⟩ := addAll_reads sliceCompare threeAdds
    (by unfold Distinct; decide +kernel) (by decide) (by decide) (k := ⟨[1], 4⟩) (by decide)
    (by decide) .ok ⟨[], 0⟩
  rw [hnewest] at hget
  exact ⟨t, hrun, hget⟩

/-! ## Entries that do not fit -/

/-- A memtable with this entry alone does not answer with it, or answers with it when it should
not. -/
def Misread (e : MemEntry) (k : LookupKey) : Prop :=
  ∃ t, addAll sliceCompare [(e, 1)] = some t ∧ t.suGet sliceCompare k .ok ⟨[], 0⟩ ≠
    some (answer (newest [e] k.userKey k.sequence) .ok ⟨[], 0⟩)

theorem length_encodeEntry_eq (e : MemEntry) : (encodeEntry e).length =
    (encodeVarint32 (uint32 (e.userKey.length + 8))).length + (e.userKey.length + 8) +
      (encodeVarint32 (uint32 e.value.length)).length + e.value.length := by
  simp only [encodeEntry, encodeFixed64, List.length_append, leBytes_length]
  omega

theorem suGet_one {e : MemEntry} (hlen : (encodeEntry e).length = encodedLen e) (k : LookupKey) :
    ∃ t, addAll sliceCompare [(e, 1)] = some t ∧
      (keyComparator sliceCompare (encodeEntry e) k.memtableKey ≠ .lt ∧
        t.suGet sliceCompare k .ok ⟨[], 0⟩ =
          Table.readEntry sliceCompare (encodeEntry e) k .ok ⟨[], 0⟩ ∨
      keyComparator sliceCompare (encodeEntry e) k.memtableKey = .lt ∧
        t.suGet sliceCompare k .ok ⟨[], 0⟩ = some (false, .ok, ⟨[], 0⟩)) := by
  have hcmp := ranks_keyComparator ranks_sliceCompare
  obtain ⟨t, hinsert, hordered, hkeys⟩ : ∃ t,
      SkipList.new.insert (keyComparator sliceCompare) (encodeEntry e) 1 = some t ∧
        SkipList.Ordered (bufferRank id) t ∧ t.nodes.map SkipNode.key = [] ++ [encodeEntry e] :=
    SkipList.insert_spec hcmp (SkipList.ordered_new _) Nat.one_pos (by decide) nofun
  refine ⟨t, ?_, ?_⟩
  · simp only [addAll, runs, Table.add, if_pos hlen, hinsert, Option.bind_some]
  · have hmem : ∀ key, key ∈ t.nodes.map SkipNode.key ↔ key = encodeEntry e := by
      intro key
      rw [hkeys]
      exact List.mem_singleton
    rw [hcmp.lt_iff, Ne, hcmp.lt_iff, not_lt]
    rcases suGet_eq ranks_sliceCompare hordered k .ok ⟨[], 0⟩ with
      ⟨key, hkey, hget, hle, -⟩ | ⟨hget, hnone⟩
    · rw [(hmem key).mp hkey] at hget hle
      exact Or.inl ⟨hle, hget⟩
    · exact Or.inr ⟨not_le.mp (hnone _ ((hmem _).mpr rfl)), hget⟩

theorem distinct_singleton (e : MemEntry) : Distinct [e] := List.pairwise_singleton _ e

theorem newest_singleton {e : MemEntry} {s : Nat} (h : e.sequence ≤ s) :
    newest [e] e.userKey s = some e := by
  apply newest_eq_some (distinct_singleton e) (List.mem_singleton_self e) h
  intro a ha _ _
  rw [List.mem_singleton.mp ha]

/-- The size of the value is cut to 32 bits, and the assertion of `Add` does not see it: the
full size takes five bytes too. -/
theorem misread_longValue {value : Bytes} (hvalue : value.length = 2 ^ 32 + 2 ^ 28) :
    Misread ⟨1, .kTypeValue, [], value⟩ ⟨[], 1⟩ := by
  obtain ⟨e, he⟩ : ∃ e : MemEntry, e = ⟨1, .kTypeValue, [], value⟩ := ⟨_, rfl⟩
  have huser : e.userKey = [] := by rw [he]
  have hkey : e.userKey.length + 8 < 2 ^ 32 := by rw [huser]; decide
  have hone : e.sequence = 1 := by rw [he]
  have hseq : e.sequence ≤ kMaxSequenceNumber := by rw [hone]; decide
  have hlength : e.value.length = 2 ^ 32 + 2 ^ 28 := by rw [he]; exact hvalue
  have hlen : (encodeEntry e).length = encodedLen e := by
    rw [length_encodeEntry_eq, encodedLen, hlength, huser]
    decide +kernel
  have hcmp : keyComparator sliceCompare (encodeEntry e) (LookupKey.memtableKey ⟨[], 1⟩) ≠
      .lt := by
    have hrecord : e.record.key = appendInternalKey ⟨[], 1, .kTypeValue⟩ := by rw [he]; rfl
    rw [keyComparator, sliceAt_encodeEntry hkey hseq, sliceAt_memtableKey (by decide), hrecord]
    decide +kernel
  obtain ⟨t, hrun, ⟨-, hget⟩ | ⟨hlt, -⟩⟩ := suGet_one hlen ⟨[], 1⟩
  · rw [← he]
    refine ⟨t, hrun, ?_⟩
    have heq : sliceCompare [] [] = .eq := rfl
    have hnewest : newest [e] [] 1 = some e := by
      rw [← huser]
      exact newest_singleton hone.le
    have htype : e.type = .kTypeValue := by rw [he]
    rw [hget, readEntry_encodeEntry hkey hseq, huser, if_pos heq, hnewest]
    simp only [answer, cutValue, htype, ne_eq, Option.some_inj, Prod.mk.injEq, true_and,
      GetOutput.mk.injEq, and_true]
    intro hsame
    have hlengths := congrArg List.length hsame
    rw [List.length_take, hlength] at hlengths
    exact absurd hlengths (by decide)
  · exact absurd hlt hcmp

/-- The user key of the entry is cut, and compared with the one that is looked up. -/
theorem misread_longKey {userKey : Bytes} (hkey : userKey.length = 2 ^ 32 + 2 ^ 28 - 8) :
    Misread ⟨1, .kTypeValue, userKey, []⟩ ⟨userKey, 1⟩ := by
  obtain ⟨e, he⟩ : ∃ e : MemEntry, e = ⟨1, .kTypeValue, userKey, []⟩ := ⟨_, rfl⟩
  have huser : e.userKey = userKey := by rw [he]
  have hvalue : e.value = [] := by rw [he]
  have hlen : (encodeEntry e).length = encodedLen e := by
    rw [length_encodeEntry_eq, encodedLen, huser, hkey, hvalue]
    decide +kernel
  have hread : Table.readEntry sliceCompare (encodeEntry e) ⟨userKey, 1⟩ .ok ⟨[], 0⟩ =
      some (false, .ok, ⟨[], 0⟩) := by
    have hsize : uint32 (e.userKey.length + 8) = 2 ^ 28 := by
      rw [huser, hkey]
      decide
    unfold Table.readEntry
    rw [encodeEntry, hsize, List.append_assoc, getVarint32_encode (by decide)]
    dsimp only
    apply if_neg
    rw [sliceCompare_eq_iff]
    intro heq
    have hshort := congrArg List.length heq
    rw [List.length_take, hkey] at hshort
    have hbound : uint32 (2 ^ 28 + (2 ^ 32 - 8)) < 2 ^ 32 + 2 ^ 28 - 8 := by decide
    omega
  obtain ⟨t, hrun, hget⟩ := suGet_one hlen ⟨userKey, 1⟩
  rw [← he]
  refine ⟨t, hrun, ?_⟩
  have hfalse : t.suGet sliceCompare ⟨userKey, 1⟩ .ok ⟨[], 0⟩ = some (false, .ok, ⟨[], 0⟩) := by
    rcases hget with ⟨-, hget⟩ | ⟨-, hget⟩
    · exact hget.trans hread
    · exact hget
  have hone : e.sequence = 1 := by rw [he]
  have htype : e.type = .kTypeValue := by rw [he]
  have hnewest : newest [e] userKey 1 = some e := by
    rw [← huser]
    exact newest_singleton hone.le
  rw [hfalse, hnewest]
  simp [answer, htype]

/-- The top of the sequence number is shifted out of the tag. -/
theorem misread_largeSequence : Misread ⟨2 ^ 56, .kTypeValue, [1], []⟩ ⟨[1], 0⟩ := by
  have hlen : (encodeEntry ⟨2 ^ 56, .kTypeValue, [1], []⟩).length =
      encodedLen ⟨2 ^ 56, .kTypeValue, [1], []⟩ := by decide +kernel
  have hcmp : keyComparator sliceCompare (encodeEntry ⟨2 ^ 56, .kTypeValue, [1], []⟩)
      (LookupKey.memtableKey ⟨[1], 0⟩) ≠ .lt := by decide +kernel
  obtain ⟨t, hrun, ⟨-, hget⟩ | ⟨hlt, -⟩⟩ := suGet_one hlen ⟨[1], 0⟩
  · refine ⟨t, hrun, ?_⟩
    rw [hget]
    decide +kernel
  · exact absurd hlt hcmp

/-- An entry whose sizes or sequence number do not fit is not read back as it was added. -/
theorem suGet_misreads :
    Misread ⟨1, .kTypeValue, [], List.replicate (2 ^ 32 + 2 ^ 28) 0⟩ ⟨[], 1⟩ ∧
      Misread ⟨1, .kTypeValue, List.replicate (2 ^ 32 + 2 ^ 28 - 8) 0, []⟩
        ⟨List.replicate (2 ^ 32 + 2 ^ 28 - 8) 0, 1⟩ ∧
      Misread ⟨2 ^ 56, .kTypeValue, [1], []⟩ ⟨[1], 0⟩ :=
  ⟨misread_longValue List.length_replicate, misread_longKey List.length_replicate,
    misread_largeSequence⟩

end MemTable

end Lpad
