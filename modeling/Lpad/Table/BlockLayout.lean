import Lpad.Format.Comparator
import Lpad.Table.Block

/-!
# The iterator over a well-formed block

`Layout` is what the iterator needs to know of the contents of a block: where each entry is and
what decoding it there gives, and which entries are restart points. Over such contents every
motion of `Block::Iter` ends where a cursor would be.

Between motions `restart_index_` is the last restart point before the current entry, or one at
it (`At`). `ParseNextKey` keeps this, and `Prev` needs it.
-/

namespace Lpad.Table

/-- The contents of a block with these entries. -/
structure Layout (entries : List Slices) where
  data : Bytes
  /-- where an entry starts; the last one is the end of the entries -/
  offset : Nat → Nat
  /-- the bytes of a key that are left out -/
  share : Nat → Nat
  numRestarts : Nat
  /-- the entry at a restart point -/
  point : Nat → Nat
  offset_zero : offset 0 = 0
  offset_lt : ∀ i j, i < j → j ≤ entries.length → offset i < offset j
  offset_small : offset entries.length < 2 ^ 32
  offset_le : offset entries.length ≤ data.length
  decode : ∀ i e, entries[i]? = some e → ∃ region,
    decodeEntry ((data.take (offset entries.length)).drop (offset i)) =
      some (share i, e.key.length - share i, e.value.length, region) ∧
    region.length + (offset (i + 1) - e.value.length - (e.key.length - share i)) =
      offset entries.length ∧
    (e.key.length - share i) + e.value.length ≤ offset (i + 1) ∧
    (data.drop (offset (i + 1) - e.value.length - (e.key.length - share i))).take
      (e.key.length - share i) = e.key.drop (share i) ∧
    (data.drop (offset (i + 1) - e.value.length)).take e.value.length = e.value
  share_prev : ∀ i d e, entries[i]? = some d → entries[i + 1]? = some e →
    share (i + 1) ≤ d.key.length ∧ d.key.take (share (i + 1)) = e.key.take (share (i + 1))
  num_pos : 0 < numRestarts
  num_small : numRestarts < 2 ^ 31
  point_zero : point 0 = 0
  point_lt : ∀ i j, i < j → j < numRestarts → point i < point j
  point_in : ∀ j < numRestarts, 0 < j → point j < entries.length
  restart : ∀ j < numRestarts, decodeFixed32 (data.drop (offset entries.length + j * 4)) =
    offset (point j)
  share_point : ∀ j < numRestarts, share (point j) = 0

namespace Layout

variable {entries : List Slices} (L : Layout entries) {it it' : Iter} {i j : Nat}

/-- The iterator is over these contents, and has met no corruption. -/
structure Of (it : Iter) : Prop where
  data : it.data = L.data
  restarts : it.restarts = L.offset entries.length
  numRestarts : it.numRestarts = L.numRestarts
  status : it.status = .ok

/-- The iterator shows the entry `i`. -/
structure At (it : Iter) (i : Nat) : Prop where
  of : L.Of it
  current : it.current = L.offset i
  entry : ∃ e, entries[i]? = some e ∧ it.key = e.key ∧ it.value = e.value
  valueEnd : it.valueStart + it.valueSize = L.offset (i + 1)
  index_lt : it.restartIndex < L.numRestarts
  index_le : L.point it.restartIndex ≤ i
  index_ge : ∀ j < L.numRestarts, it.restartIndex < j → i ≤ L.point j

/-- `ParseNextKey` will come to the entry `i`. -/
structure Ready (it : Iter) (i : Nat) : Prop where
  of : L.Of it
  le : i ≤ entries.length
  next : it.nextEntryOffset = L.offset i
  key : ∀ e, entries[i]? = some e →
    L.share i ≤ it.key.length ∧ it.key.take (L.share i) = e.key.take (L.share i)
  index_lt : it.restartIndex < L.numRestarts
  index_le : L.point it.restartIndex ≤ i

variable {L}

/-! ## Offsets -/

theorem offset_le_of_le (hij : i ≤ j) (hj : j ≤ entries.length) : L.offset i ≤ L.offset j := by
  rcases hij.lt_or_eq with hlt | rfl
  · exact (L.offset_lt i j hlt hj).le
  · exact le_rfl

theorem offset_lt_iff (hi : i ≤ entries.length) (hj : j ≤ entries.length) :
    L.offset i < L.offset j ↔ i < j := by
  constructor
  · intro h
    by_contra hle
    exact absurd h (not_lt.mpr (offset_le_of_le (not_lt.mp hle) hi))
  · exact fun h => L.offset_lt i j h hj

theorem offset_u32 (hi : i ≤ entries.length) : uint32 (L.offset i) = L.offset i :=
  uint32_of_lt ((offset_le_of_le hi le_rfl).trans_lt L.offset_small)

theorem le_offset (hi : i ≤ entries.length) : i ≤ L.offset i := by
  induction i with
  | zero => exact Nat.zero_le _
  | succ i ih =>
    have hlt := L.offset_lt i (i + 1) (Nat.lt_succ_self i) hi
    have hle := ih (Nat.le_of_succ_le hi)
    exact Nat.succ_le_of_lt (hle.trans_lt hlt)

theorem point_le (hj : j < L.numRestarts) : L.point j ≤ entries.length := by
  rcases Nat.eq_zero_or_pos j with rfl | hpos
  · rw [L.point_zero]
    exact Nat.zero_le _
  · exact (L.point_in j hj hpos).le

theorem Of.getRestartPoint (h : L.Of it) (hj : j < L.numRestarts) :
    it.getRestartPoint j = L.offset (L.point j) := by
  rw [Iter.getRestartPoint, h.data, h.restarts, L.restart j hj]

theorem Of.region (h : L.Of it) (offset : Nat) :
    it.region offset = (L.data.take (L.offset entries.length)).drop offset := by
  rw [Iter.region, h.data, h.restarts]

/-- The iterator on an entry is valid. -/
theorem At.valid (h : L.At it i) : it.valid = true ∧ i < entries.length := by
  obtain ⟨e, he, -⟩ := h.entry
  have hi := (List.getElem?_eq_some_iff.mp he).1
  refine ⟨?_, hi⟩
  rw [Iter.valid, h.current, h.of.restarts, decide_eq_true_iff]
  exact L.offset_lt i _ hi le_rfl

theorem At.nextEntryOffset (h : L.At it i) : it.nextEntryOffset = L.offset (i + 1) := by
  rw [Iter.nextEntryOffset, h.valueEnd]
  exact offset_u32 h.valid.2

theorem At.ready (h : L.At it i) : L.Ready it (i + 1) where
  of := h.of
  le := h.valid.2
  next := h.nextEntryOffset
  key := by
    intro e he
    obtain ⟨d, hd, hkey, -⟩ := h.entry
    rw [hkey]
    exact L.share_prev i d e hd he
  index_lt := h.index_lt
  index_le := h.index_le.trans (Nat.le_succ i)

theorem Of.ready_restart (h : L.Of it) (hj : j < L.numRestarts) :
    L.Ready (it.seekToRestartPoint j) (L.point j) where
  of := ⟨h.data, h.restarts, h.numRestarts, h.status⟩
  le := point_le hj
  next := by
    show uint32 (it.getRestartPoint j + 0) = _
    rw [h.getRestartPoint hj, Nat.add_zero, offset_u32 (point_le hj)]
  key := by
    intro e _
    rw [L.share_point j hj]
    exact ⟨Nat.zero_le _, rfl⟩
  index_lt := hj
  index_le := le_rfl

/-! ## One entry -/

/-- The restart points that `ParseNextKey` passes. -/
theorem skipRestarts_spec (h : L.Of it) (hcurrent : it.current = L.offset i)
    (hi : i ≤ entries.length) {rounds index : Nat} (hindex : index < L.numRestarts)
    (hle : L.point index ≤ i) (hrounds : L.numRestarts ≤ index + rounds) :
    it.skipRestarts rounds index < L.numRestarts ∧ L.point (it.skipRestarts rounds index) ≤ i ∧
      ∀ j < L.numRestarts, it.skipRestarts rounds index < j → i ≤ L.point j := by
  induction rounds generalizing index with
  | zero => omega
  | succ rounds ih =>
    unfold Iter.skipRestarts
    rw [h.numRestarts, hcurrent]
    by_cases hmore : index + 1 < L.numRestarts
    · have hlt := offset_lt_iff (L := L) (point_le hmore) hi
      rw [h.getRestartPoint hmore]
      by_cases hpass : L.point (index + 1) < i
      · rw [if_pos ⟨hmore, hlt.mpr hpass⟩]
        exact ih hmore hpass.le (by omega)
      · rw [if_neg fun h => hpass (hlt.mp h.2)]
        refine ⟨hindex, hle, ?_⟩
        intro j hj hlt
        rcases (Nat.succ_le_of_lt hlt).lt_or_eq with hnext | rfl
        · exact (not_lt.mp hpass).trans (L.point_lt _ j hnext hj).le
        · exact not_lt.mp hpass
    · rw [if_neg fun h => hmore h.1]
      refine ⟨hindex, hle, ?_⟩
      intro j hj hlt
      omega

theorem parseNextKey_ended (h : it.nextEntryOffset ≥ it.restarts) :
    it.parseNextKey = (false, { it with current := it.nextEntryOffset }.ended) := by
  unfold Iter.parseNextKey
  exact if_pos h

theorem parseNextKey_entry {shared nonShared valueLength : Nat} {region : Bytes}
    (h : it.nextEntryOffset < it.restarts)
    (hdecode : decodeEntry (it.region it.nextEntryOffset) =
      some (shared, nonShared, valueLength, region)) (hkey : shared ≤ it.key.length) :
    it.parseNextKey = (true,
      { it with current := it.nextEntryOffset }.setEntry shared nonShared valueLength region) := by
  have hdecode' : decodeEntry ({ it with current := it.nextEntryOffset }.region
      it.nextEntryOffset) = some (shared, nonShared, valueLength, region) := hdecode
  unfold Iter.parseNextKey
  dsimp only
  rw [if_neg (not_le.mpr h), hdecode']
  dsimp only
  rw [if_neg (not_lt.mpr hkey)]

/-- The entry that `ParseNextKey` sets. -/
theorem Ready.setEntry (h : L.Ready it i) {e : Slices} (he : entries[i]? = some e) {region : Bytes}
    (hplace : L.offset entries.length - region.length =
      L.offset (i + 1) - e.value.length - (e.key.length - L.share i))
    (hfits : (e.key.length - L.share i) + e.value.length ≤ L.offset (i + 1))
    (hdelta : (L.data.drop (L.offset (i + 1) - e.value.length - (e.key.length - L.share i))).take
      (e.key.length - L.share i) = e.key.drop (L.share i))
    (hvalue : (L.data.drop (L.offset (i + 1) - e.value.length)).take e.value.length = e.value) :
    L.At ({ it with current := it.nextEntryOffset }.setEntry (L.share i)
      (e.key.length - L.share i) e.value.length region) i := by
  obtain ⟨hdata, hrestarts, hnum, hstatus⟩ := h.of
  have hstart : it.restarts - region.length + (e.key.length - L.share i) =
      L.offset (i + 1) - e.value.length := by
    rw [hrestarts, hplace]
    omega
  have hof : L.Of { it with
      current := it.nextEntryOffset
      key := it.key.take (L.share i) ++
        it.slice (it.restarts - region.length) (e.key.length - L.share i)
      valueStart := it.restarts - region.length + (e.key.length - L.share i)
      valueSize := e.value.length
      reads := (it.restarts - region.length + (e.key.length - L.share i), e.value.length) ::
        (it.restarts - region.length, e.key.length - L.share i) :: it.reads } :=
    ⟨hdata, hrestarts, hnum, hstatus⟩
  obtain ⟨hlt, hle, hge⟩ := skipRestarts_spec hof h.next h.le h.index_lt h.index_le
    (Nat.le_trans hnum.ge (Nat.le_add_left _ _))
  refine ⟨⟨hdata, hrestarts, hnum, hstatus⟩, h.next, ⟨e, he, ?_, ?_⟩, ?_, hlt, hle, hge⟩
  · show it.key.take (L.share i) ++ (it.data.drop _).take _ = e.key
    rw [(h.key e he).2, hdata, hrestarts, hplace, hdelta, List.take_append_drop]
  · show (it.data.drop (it.restarts - region.length + (e.key.length - L.share i))).take
      e.value.length = e.value
    rw [hdata, hstart, hvalue]
  · show it.restarts - region.length + (e.key.length - L.share i) + e.value.length = _
    rw [hstart]
    omega

/-- **`ParseNextKey`** comes to the next entry, or to the end. -/
theorem Ready.parseNextKey (h : L.Ready it i) :
    (i < entries.length ∧ ∃ it', it.parseNextKey = (true, it') ∧ L.At it' i) ∨
    (i = entries.length ∧
      ∃ it', it.parseNextKey = (false, it') ∧ L.Of it' ∧ it'.valid = false) := by
  obtain ⟨hdata, hrestarts, hnum, hstatus⟩ := h.of
  rcases h.le.lt_or_eq with hi | rfl
  · left
    have he := List.getElem?_eq_getElem hi
    obtain ⟨region, hdecode, hplace, hfits, hdelta, hvalue⟩ := L.decode i entries[i] he
    have hlt : it.nextEntryOffset < it.restarts := by
      rw [h.next, hrestarts]
      exact L.offset_lt i _ hi le_rfl
    rw [← h.of.region, ← h.next] at hdecode
    refine ⟨hi, _, parseNextKey_entry hlt hdecode (h.key _ he).1, ?_⟩
    exact h.setEntry he (by omega) hfits hdelta hvalue
  · right
    refine ⟨rfl, _, parseNextKey_ended (by rw [h.next, hrestarts]), ?_, ?_⟩
    · exact ⟨hdata, hrestarts, hnum, hstatus⟩
    · exact decide_eq_false (lt_irrefl _)

/-! ## Motions -/

/-- Where the iterator is, as a cursor. -/
def Shows (L : Layout entries) (it : Iter) : Option Nat → Prop
  | none => L.Of it ∧ it.valid = false
  | some i => L.At it i

theorem Shows.of {p : Option Nat} (h : L.Shows it p) : L.Of it := by
  cases p with
  | none => exact h.1
  | some i => exact At.of h

theorem Shows.entry {cmp : Bytes → Bytes → Ordering} {p : Option Nat} (h : L.Shows it p) :
    (blockIterator cmp).entry it = Cursor.entryAt entries p := by
  cases p with
  | none => exact Iterator.entry_eq_none.mpr h.2
  | some i =>
    obtain ⟨e, he, hkey, hvalue⟩ := At.entry h
    rw [Cursor.entryAt_some, he, Iterator.entry_eq_some]
    exact ⟨(At.valid h).1, hkey, hvalue⟩

/-- One entry further, as a cursor. -/
theorem Ready.shows (h : L.Ready it i) :
    L.Shows it.parseNextKey.2 (if i < entries.length then some i else none) := by
  rcases h.parseNextKey with ⟨hi, it', hparse, hat⟩ | ⟨rfl, it', hparse, hof, hvalid⟩
  · rw [hparse, if_pos hi]
    exact hat
  · rw [hparse, if_neg (lt_irrefl _)]
    exact ⟨hof, hvalid⟩

/-- The loop of `Prev` and `SeekToLast` ends at the last entry before a place. -/
theorem Ready.parseUntil {m : Nat} (hm : m ≤ entries.length) {fuel : Nat} (h : L.Ready it i)
    (him : i < m) (hfuel : m < i + fuel) :
    ∃ it', Iter.parseUntil (L.offset m) fuel it = some it' ∧ L.At it' (m - 1) := by
  induction fuel generalizing it i with
  | zero => omega
  | succ fuel ih =>
    rcases h.parseNextKey with ⟨hi, it', hparse, hat⟩ | ⟨rfl, -⟩
    · unfold Iter.parseUntil
      rw [hparse]
      dsimp only
      have hlt := offset_lt_iff (L := L) (i := i + 1) hi hm
      rw [hat.nextEntryOffset]
      by_cases hmore : i + 1 < m
      · rw [if_pos ⟨rfl, hlt.mpr hmore⟩]
        exact ih hat.ready hmore (by omega)
      · rw [if_neg fun h => hmore (hlt.mp h.2)]
        have hlast : m - 1 = i := by omega
        exact ⟨it', rfl, hlast ▸ hat⟩
    · omega

theorem Of.seekToFirst (h : L.Of it) :
    ∃ it', it.seekToFirst = some it' ∧
      L.Shows it' (if entries.length = 0 then none else some 0) := by
  have hready := h.ready_restart L.num_pos
  rw [L.point_zero] at hready
  refine ⟨_, rfl, ?_⟩
  have hshows := hready.shows
  rcases Nat.eq_zero_or_pos entries.length with hzero | hpos
  · rw [if_neg (by omega)] at hshows
    rw [if_pos hzero]
    exact hshows
  · rw [if_pos hpos] at hshows
    rw [if_neg hpos.ne']
    exact hshows

theorem entries_le_data : entries.length ≤ L.data.length :=
  (le_offset le_rfl).trans L.offset_le

theorem Of.seekToLast (h : L.Of it) :
    ∃ it', it.seekToLast = some it' ∧
      L.Shows it' (if entries.length = 0 then none else some (entries.length - 1)) := by
  have hnum := L.num_pos
  have hready := h.ready_restart (j := L.numRestarts - 1) (by omega)
  have hlen := L.entries_le_data
  unfold Iter.seekToLast
  rw [h.restarts, h.data, h.numRestarts]
  by_cases hzero : entries.length = 0
  · -- an empty block has one restart point, at its end
    have hpoint : L.point (L.numRestarts - 1) = entries.length :=
      le_antisymm hready.le (by omega)
    rcases hready.parseNextKey with ⟨hlt, -⟩ | ⟨-, it', hparse, hof, hvalid⟩
    · exact absurd hlt (by omega)
    · refine ⟨it', ?_, ?_⟩
      · unfold Iter.parseUntil
        rw [hparse]
        exact if_neg fun h => Bool.false_ne_true h.1
      · rw [if_pos hzero]
        exact ⟨hof, hvalid⟩
  · have hlt : L.point (L.numRestarts - 1) < entries.length := by
      rcases Nat.eq_zero_or_pos (L.numRestarts - 1) with heq | hpos
      · rw [heq, L.point_zero]
        omega
      · exact L.point_in _ (by omega) hpos
    obtain ⟨it', hrun, hat⟩ := hready.parseUntil le_rfl hlt
      (show entries.length < L.point (L.numRestarts - 1) + (L.data.length + 1) by omega)
    refine ⟨it', hrun, ?_⟩
    rw [if_neg hzero]
    exact hat

theorem At.next (h : L.At it i) :
    ∃ it', it.next = some it' ∧
      L.Shows it' (if i + 1 < entries.length then some (i + 1) else none) := by
  refine ⟨it.parseNextKey.2, ?_, h.ready.shows⟩
  rw [Iter.next, if_pos h.valid.1]

/-- The loop of `Prev` over the restart points. -/
theorem Of.restartBefore (h : L.Of it) (hi : i ≤ entries.length) {index : Nat}
    (hindex : index < L.numRestarts) :
    (it.restartBefore (L.offset i) index = none ∧ i = 0) ∨
    ∃ j < L.numRestarts, it.restartBefore (L.offset i) index = some j ∧ L.point j < i := by
  induction index with
  | zero =>
    unfold Iter.restartBefore
    rw [h.getRestartPoint hindex, L.point_zero]
    rcases Nat.eq_zero_or_pos i with rfl | hpos
    · exact Or.inl ⟨if_pos le_rfl, rfl⟩
    · have hlt := L.offset_lt 0 i hpos hi
      refine Or.inr ⟨0, hindex, if_neg (not_le.mpr hlt), ?_⟩
      rw [L.point_zero]
      exact hpos
  | succ index ih =>
    unfold Iter.restartBefore
    rw [h.getRestartPoint hindex]
    by_cases hge : L.offset (L.point (index + 1)) ≥ L.offset i
    · rw [if_pos hge]
      exact ih (Nat.lt_of_succ_lt hindex)
    · rw [if_neg hge]
      exact Or.inr ⟨index + 1, hindex, rfl,
        (offset_lt_iff (point_le hindex) hi).mp (not_le.mp hge)⟩

theorem At.prev (h : L.At it i) :
    ∃ it', it.prev = some it' ∧ L.Shows it' (if i = 0 then none else some (i - 1)) := by
  have hi := h.valid.2
  have hlen := L.entries_le_data
  unfold Iter.prev
  rw [if_pos h.valid.1, h.current]
  rcases h.of.restartBefore hi.le h.index_lt with ⟨hnone, rfl⟩ | ⟨j, hj, hsome, hlt⟩
  · rw [hnone, if_pos rfl]
    refine ⟨it.ended, rfl, ⟨h.of.data, h.of.restarts, h.of.numRestarts, h.of.status⟩, ?_⟩
    exact decide_eq_false (lt_irrefl _)
  · rw [hsome, if_neg (by omega)]
    dsimp only
    rw [h.of.data]
    exact (h.of.ready_restart hj).parseUntil hi.le hlt (by omega)

/-! ## Seek -/

section Seek

variable {cmp : Bytes → Bytes → Ordering} {target : Bytes}

/-- The linear search ends at the first entry that is not below the target, if those in front
of it are. -/
theorem Ready.searchKeys {fuel : Nat} (h : L.Ready it i)
    (hbelow : ∀ j e, j < i → entries[j]? = some e → cmp e.key target = .lt)
    (hfuel : entries.length < i + fuel) :
    ∃ it', Iter.searchKeys cmp target fuel it = some it' ∧
      L.Shows it' (entries.findIdx? fun e => cmp e.key target ≠ .lt) := by
  induction fuel generalizing it i with
  | zero =>
    have hle := h.le
    omega
  | succ fuel ih =>
    unfold Iter.searchKeys
    rcases h.parseNextKey with ⟨hi, it', hparse, hat⟩ | ⟨rfl, it', hparse, hof, hvalid⟩
    · rw [hparse]
      dsimp only
      obtain ⟨e, he, hkey, -⟩ := hat.entry
      rw [hkey]
      by_cases hlt : cmp e.key target = .lt
      · rw [if_pos ⟨rfl, hlt⟩]
        refine ih hat.ready ?_ (by omega)
        intro j d hj hd
        rcases Nat.lt_succ_iff_lt_or_eq.mp hj with hj | rfl
        · exact hbelow j d hj hd
        · rwa [Option.some.inj (hd.symm.trans he)]
      · rw [if_neg fun h => hlt h.2]
        refine ⟨it', rfl, ?_⟩
        have hfind : (entries.findIdx? fun e => cmp e.key target ≠ .lt) = some i := by
          rw [List.findIdx?_eq_some_iff_getElem]
          have hget := (List.getElem?_eq_some_iff.mp he).2
          refine ⟨hi, by rw [hget]; exact decide_eq_true hlt, ?_⟩
          intro j hj
          have hbelow := hbelow j entries[j] hj (List.getElem?_eq_getElem _)
          simp [hbelow]
        rw [hfind]
        exact hat
    · rw [hparse]
      dsimp only
      rw [if_neg fun h => Bool.false_ne_true h.1]
      refine ⟨it', rfl, ?_⟩
      have hfind : (entries.findIdx? fun e => cmp e.key target ≠ .lt) = none := by
        rw [List.findIdx?_eq_none_iff]
        intro e he
        obtain ⟨j, hj⟩ := List.mem_iff_getElem?.mp he
        have hbelow := hbelow j e (List.getElem?_eq_some_iff.mp hj).1 hj
        simp [hbelow]
      rw [hfind]
      exact ⟨hof, hvalid⟩

/-- The keys in front of a restart point are below the target. -/
def PointBelow (L : Layout entries) (cmp : Bytes → Bytes → Ordering) (target : Bytes) (j : Nat) :
    Prop :=
  j = 0 ∨ ∃ e, entries[L.point j]? = some e ∧ cmp e.key target = .lt

/-- The key at a restart point, as the binary search reads it. -/
theorem Of.decode_point (h : L.Of it) (hj : j < L.numRestarts) {e : Slices}
    (he : entries[L.point j]? = some e) :
    ∃ region valueLength, decodeEntry (it.region (it.getRestartPoint j)) =
        some (0, e.key.length, valueLength, region) ∧
      it.slice (it.restarts - region.length) e.key.length = e.key := by
  obtain ⟨region, hdecode, hplace, -, hdelta, -⟩ := L.decode (L.point j) e he
  rw [L.share_point j hj] at hdecode hplace hdelta
  rw [h.getRestartPoint hj, h.region]
  refine ⟨region, e.value.length, hdecode, ?_⟩
  have hp : L.offset entries.length - region.length =
      L.offset (L.point j + 1) - e.value.length - e.key.length := by
    rw [Nat.sub_zero] at hplace
    omega
  rw [Iter.slice, h.restarts, h.data, hp]
  exact hdelta

/-- **The binary search** ends at a restart point whose key is below the target, or at the
first one. -/
theorem Of.searchRestarts {fuel left right : Nat} (h : L.Of it) (hle : left ≤ right)
    (hright : right < L.numRestarts) (hbelow : L.PointBelow cmp target left)
    (hfuel : right < left + fuel) :
    ∃ left' it', Iter.searchRestarts cmp target fuel left right it = some (some left', it') ∧
      L.Of it' ∧ left' < L.numRestarts ∧ L.PointBelow cmp target left' := by
  induction fuel generalizing it left right with
  | zero => omega
  | succ fuel ih =>
    have hsmall := L.num_small
    unfold Iter.searchRestarts
    by_cases hlt : left < right
    · rw [if_pos hlt]
      have hmid : uint32 (left + right + 1) / 2 = (left + right + 1) / 2 := by
        rw [uint32_of_lt (by omega)]
      dsimp only
      rw [hmid]
      have hj : (left + right + 1) / 2 < L.numRestarts := by omega
      have hpos : 0 < (left + right + 1) / 2 := by omega
      have hin := L.point_in _ hj hpos
      obtain ⟨region, valueLength, hdecode, hslice⟩ :=
        h.decode_point hj (List.getElem?_eq_getElem hin)
      rw [hdecode]
      dsimp only
      rw [if_neg fun h => h rfl]
      have hof : L.Of { it with reads := (it.restarts - region.length,
          entries[L.point ((left + right + 1) / 2)].key.length) :: it.reads } :=
        ⟨h.data, h.restarts, h.numRestarts, h.status⟩
      have hslice' : Iter.slice { it with reads := (it.restarts - region.length,
          entries[L.point ((left + right + 1) / 2)].key.length) :: it.reads }
            (it.restarts - region.length)
            entries[L.point ((left + right + 1) / 2)].key.length =
          entries[L.point ((left + right + 1) / 2)].key := hslice
      rw [hslice']
      by_cases hcmp : cmp entries[L.point ((left + right + 1) / 2)].key target = .lt
      · rw [if_pos hcmp]
        exact ih hof (by omega) hright (Or.inr ⟨_, List.getElem?_eq_getElem hin, hcmp⟩)
          (by omega)
      · rw [if_neg hcmp]
        have hdec : uint32 ((left + right + 1) / 2 + (2 ^ 32 - 1)) =
            (left + right + 1) / 2 - 1 := by
          rw [uint32]
          omega
        rw [hdec]
        exact ih hof (by omega) (by omega) hbelow (by omega)
    · rw [if_neg hlt]
      exact ⟨left, it, rfl, h, hle.trans_lt hright, hbelow⟩

theorem Of.seek [Std.TransCmp cmp]
    (hsorted : entries.Pairwise fun a b => cmp a.key b.key = .lt) (h : L.Of it) (target : Bytes) :
    ∃ it', it.seek cmp target = some it' ∧
      L.Shows it' (entries.findIdx? fun e => cmp e.key target ≠ .lt) := by
  have hnum := L.num_pos
  have hlen := L.entries_le_data
  have hstart : L.PointBelow cmp target 0 := Or.inl rfl
  obtain ⟨left, it', hsearch, hof, hleft, hbelow⟩ := h.searchRestarts
    (Nat.zero_le (L.numRestarts - 1)) (by omega) hstart
    (show L.numRestarts - 1 < 0 + L.numRestarts by omega)
  unfold Iter.seek
  rw [h.numRestarts, hsearch]
  dsimp only
  rw [hof.data]
  refine (hof.ready_restart hleft).searchKeys ?_ (by omega)
  intro j e hj he
  rcases hbelow with rfl | ⟨d, hd, hlt⟩
  · rw [L.point_zero] at hj
    exact absurd hj (Nat.not_lt_zero j)
  · obtain ⟨hin, rfl⟩ := List.getElem?_eq_some_iff.mp hd
    obtain ⟨hjn, rfl⟩ := List.getElem?_eq_some_iff.mp he
    exact Std.TransCmp.lt_trans (List.pairwise_iff_getElem.mp hsorted j _ hjn hin hj) hlt

end Seek

/-- **One motion** of the iterator is one of the cursor. -/
theorem Shows.move {cmp : Bytes → Bytes → Ordering} [Std.TransCmp cmp]
    (hsorted : entries.Pairwise fun a b => cmp a.key b.key = .lt) (p : Option Nat)
    (m : Motion Bytes) (p' : Option Nat) (h : L.Shows it p)
    (hstep : Cursor.step cmp entries p m = some p') :
    ∃ it', (blockIterator cmp).move m it = some it' ∧ L.Shows it' p' := by
  cases m with
  | seekToFirst =>
    obtain rfl := Option.some.inj hstep
    exact h.of.seekToFirst
  | seekToLast =>
    obtain rfl := Option.some.inj hstep
    exact h.of.seekToLast
  | seek target =>
    obtain rfl := Option.some.inj hstep
    exact h.of.seek hsorted target
  | next =>
    obtain ⟨i, rfl, rfl⟩ := Option.map_eq_some_iff.mp hstep
    exact At.next h
  | prev =>
    obtain ⟨i, rfl, rfl⟩ := Option.map_eq_some_iff.mp hstep
    exact At.prev h

end Layout

end Lpad.Table
