import Lpad.Table.BlockLayout

/-!
# Blocks with any contents

What `Block::Iter` reads of a block that nobody has checked. The entries it can come to start at
a restart point or where another such entry ends (`EntryStart`). `DecodeEntry` compares the sum
of two lengths as a 32-bit number, so an entry can name more bytes than there are; where no sum
is that large, and there are not too many restart points for the binary search (`Fits`), every
motion returns and reads nothing behind the entries.
-/

namespace Lpad.Table

/-! ## Entries -/

/-- The three numbers in front of an entry, and the bytes behind them. -/
def entryHeader (region : Bytes) : Option (Nat × Nat × Nat × Bytes) :=
  (getVarint32 region).bind fun (shared, region) =>
    (getVarint32 region).bind fun (nonShared, region) =>
      (getVarint32 region).bind fun (valueLength, region) =>
        some (shared, nonShared, valueLength, region)

section Decode

variable {region rest : Bytes} {shared nonShared valueLength : Nat}

theorem entryHeader_length (h : entryHeader region = some (shared, nonShared, valueLength, rest)) :
    rest.length < region.length := by
  obtain ⟨⟨s, region₁⟩, h₁, h⟩ := Option.bind_eq_some_iff.mp h
  obtain ⟨⟨n, region₂⟩, h₂, h⟩ := Option.bind_eq_some_iff.mp h
  obtain ⟨⟨v, region₃⟩, h₃, h⟩ := Option.bind_eq_some_iff.mp h
  cases h
  exact ((getVarint32_length h₃).trans (getVarint32_length h₂)).trans (getVarint32_length h₁)

/-- What `DecodeEntry` accepts. -/
theorem decodeEntry_eq_some
    (h : decodeEntry region = some (shared, nonShared, valueLength, rest)) :
    entryHeader region = some (shared, nonShared, valueLength, rest) ∧
      uint32 (nonShared + valueLength) ≤ uint32 rest.length := by
  have hthree : 3 ≤ region.length := by
    match region, h with
    | _ :: _ :: _ :: rest, _ => exact Nat.le_add_left 3 rest.length
  rw [decodeEntry_eq hthree] at h
  obtain ⟨⟨s, region₁⟩, h₁, h⟩ := Option.bind_eq_some_iff.mp h
  obtain ⟨⟨n, region₂⟩, h₂, h⟩ := Option.bind_eq_some_iff.mp h
  obtain ⟨⟨v, region₃⟩, h₃, h⟩ := Option.bind_eq_some_iff.mp h
  dsimp only [decodeEntry.check] at h
  split at h
  case isTrue => cases h
  case isFalse hle =>
    cases h
    refine ⟨?_, not_lt.mp hle⟩
    simp only [entryHeader, h₁, Option.bind_some, h₂, h₃]

/-- **The check of `DecodeEntry`** is that the entry is there, for lengths with a 32-bit sum and
for no others. -/
theorem decodeEntry_inside_iff
    (h : decodeEntry region = some (shared, nonShared, valueLength, rest))
    (hsize : region.length < 2 ^ 32) :
    nonShared + valueLength ≤ rest.length ↔ nonShared + valueLength < 2 ^ 32 := by
  obtain ⟨hheader, hle⟩ := decodeEntry_eq_some h
  have hrest := (entryHeader_length hheader).trans hsize
  rw [uint32_of_lt hrest] at hle
  constructor
  · exact fun hin => hin.trans_lt hrest
  · intro hsum
    rw [uint32_of_lt hsum] at hle
    exact hle

end Decode

/-! ## The entries of a block -/

namespace Block

variable (b : Block)

/-- The bytes before the restart array. -/
def entryArea : Bytes := b.data.take b.restartOffset

def restartPoint (j : Nat) : Nat := decodeFixed32 (b.data.drop (b.restartOffset + j * 4))

/-- Where the entries start that an iterator can come to. -/
inductive EntryStart : Nat → Prop where
  | restart {j : Nat} (hj : j < b.numRestarts) : EntryStart (b.restartPoint j)
  | next {offset shared nonShared valueLength : Nat} {rest : Bytes} (h : EntryStart offset)
      (hheader : entryHeader (b.entryArea.drop offset) =
        some (shared, nonShared, valueLength, rest)) :
      EntryStart (b.restartOffset - rest.length + nonShared + valueLength)

/-- The 32-bit sums of the reader do not wrap: the lengths of an entry, and two indices of
restart points. The size 0 marks an error. -/
structure Fits : Prop where
  lengths : ∀ (offset shared nonShared valueLength : Nat) (rest : Bytes), b.EntryStart offset →
    entryHeader (b.entryArea.drop offset) = some (shared, nonShared, valueLength, rest) →
      nonShared + valueLength < 2 ^ 32
  restarts : b.size = 0 ∨ b.numRestarts ≤ 2 ^ 31

/-- What the constructor checks, and that the sums do not wrap. -/
structure Sound : Prop where
  fits : b.Fits
  size_ne : b.size ≠ 0
  small : b.restartOffset < 2 ^ 32
  array : b.restartOffset + (b.numRestarts + 1) * 4 ≤ b.data.length
  pos : 0 < b.numRestarts
  few : b.numRestarts ≤ 2 ^ 31

end Block

/-! ## What every motion keeps -/

/-- The iterator is over this block and has read nothing behind the entries. -/
structure Within (b : Block) (it : Iter) : Prop where
  data : it.data = b.data
  restarts : it.restarts = b.restartOffset
  numRestarts : it.numRestarts = b.numRestarts
  reads : ∀ r ∈ it.reads, r.1 + r.2 ≤ b.restartOffset
  status : it.status = .ok ∨ it.status = .corruption "bad entry in block"

/-- `ParseNextKey` will come to an entry, or to the end. -/
structure Before (b : Block) (it : Iter) : Prop where
  within : Within b it
  next : b.EntryStart it.nextEntryOffset
  index : it.restartIndex < b.numRestarts

/-- The iterator between motions. -/
structure Contained (b : Block) (it : Iter) : Prop where
  within : Within b it
  before : it.valid = true → Before b it
  value : it.valid = true → (it.valueStart, it.valueSize) ∈ it.reads

section Motions

variable {b : Block} {it : Iter}

theorem Contained.of_not_valid (h : Within b it) (hvalid : it.valid = false) : Contained b it where
  within := h
  before := fun hv => absurd hv (by rw [hvalid]; exact Bool.false_ne_true)
  value := fun hv => absurd hv (by rw [hvalid]; exact Bool.false_ne_true)

theorem Within.ended (h : Within b it) : Contained b it.ended :=
  .of_not_valid ⟨h.data, h.restarts, h.numRestarts, h.reads, h.status⟩
    (decide_eq_false (lt_irrefl _))

theorem Within.corruptionError (h : Within b it) : Contained b it.corruptionError :=
  .of_not_valid ⟨h.data, h.restarts, h.numRestarts, h.reads, Or.inr rfl⟩
    (decide_eq_false (lt_irrefl _))

theorem Within.region (h : Within b it) (offset : Nat) :
    it.region offset = b.entryArea.drop offset := by
  rw [Iter.region, h.data, h.restarts, Block.entryArea]

theorem Within.getRestartPoint (h : Within b it) (j : Nat) :
    it.getRestartPoint j = b.restartPoint j := by
  rw [Iter.getRestartPoint, h.data, h.restarts, Block.restartPoint]

theorem Within.before_restart (h : Within b it) {j : Nat} (hj : j < b.numRestarts) :
    Before b (it.seekToRestartPoint j) where
  within := ⟨h.data, h.restarts, h.numRestarts, h.reads, h.status⟩
  next := by
    have hpoint : (it.seekToRestartPoint j).nextEntryOffset = b.restartPoint j := by
      show uint32 (it.getRestartPoint j + 0) = _
      rw [h.getRestartPoint, Nat.add_zero, Block.restartPoint, uint32_of_lt (decodeFixed32_lt _)]
    rw [hpoint]
    exact .restart hj
  index := hj

/-! ## One entry -/

/-- An entry that an iterator can come to lies before the restart array. -/
theorem Block.Sound.decode (hb : b.Sound) {offset shared nonShared valueLength : Nat} {rest : Bytes}
    (hstart : b.EntryStart offset)
    (hdecode : decodeEntry (b.entryArea.drop offset) =
      some (shared, nonShared, valueLength, rest)) :
    let p := b.restartOffset - rest.length
    offset < p ∧ p + nonShared + valueLength ≤ b.restartOffset ∧
      b.EntryStart (p + nonShared + valueLength) := by
  obtain ⟨hheader, -⟩ := decodeEntry_eq_some hdecode
  have hsum := hb.fits.lengths _ _ _ _ _ hstart hheader
  have hlength := entryHeader_length hheader
  have harea : (b.entryArea.drop offset).length ≤ b.restartOffset - offset := by
    rw [List.length_drop, Block.entryArea, List.length_take]
    exact Nat.sub_le_sub_right (Nat.min_le_left _ _) _
  have hinside := (decodeEntry_inside_iff hdecode
    ((harea.trans (Nat.sub_le _ _)).trans_lt hb.small)).mpr hsum
  refine ⟨?_, ?_, hstart.next hheader⟩
  · omega
  · omega

/-- The loop over the restart points stays among them. -/
theorem skipRestarts_lt (it : Iter) {rounds index : Nat} (h : index < it.numRestarts) :
    it.skipRestarts rounds index < it.numRestarts := by
  induction rounds generalizing index with
  | zero => exact h
  | succ rounds ih =>
    unfold Iter.skipRestarts
    split
    case isTrue hmore => exact ih hmore.1
    case isFalse => exact h

theorem Before.setEntry (hb : b.Sound) (h : Before b it) {shared nonShared valueLength : Nat}
    {rest : Bytes}
    (hdecode : decodeEntry (it.region it.nextEntryOffset) =
      some (shared, nonShared, valueLength, rest)) :
    let it' := { it with current := it.nextEntryOffset }.setEntry shared nonShared valueLength rest
    Contained b it' ∧ Before b it' ∧ it.nextEntryOffset < it'.nextEntryOffset := by
  obtain ⟨hdata, hrestarts, hnum, hreads, hstatus⟩ := h.within
  rw [h.within.region] at hdecode
  obtain ⟨hp, hend, hstart⟩ := hb.decode h.next hdecode
  intro it'
  have hwithin : Within b it' := by
    refine ⟨hdata, hrestarts, hnum, ?_, hstatus⟩
    intro r hr
    have hr' : r = (it.restarts - rest.length + nonShared, valueLength) ∨
        r = (it.restarts - rest.length, nonShared) ∨ r ∈ it.reads := by
      rwa [← List.mem_cons, ← List.mem_cons]
    rcases hr' with rfl | rfl | hr
    · rw [hrestarts]
      exact hend
    · rw [hrestarts]
      exact (Nat.le_add_right _ _).trans hend
    · exact hreads r hr
  have hnext : it'.nextEntryOffset = b.restartOffset - rest.length + nonShared + valueLength := by
    show uint32 (it.restarts - rest.length + nonShared + valueLength) = _
    rw [hrestarts, uint32_of_lt (hend.trans_lt hb.small)]
  have hbefore : Before b it' := by
    refine ⟨hwithin, hnext ▸ hstart, ?_⟩
    rw [← hwithin.numRestarts]
    exact skipRestarts_lt _ (hnum ▸ h.index)
  refine ⟨⟨hwithin, fun _ => hbefore, fun _ => List.mem_cons_self⟩, hbefore, ?_⟩
  rw [hnext]
  omega

theorem parseNextKey_corruption (h : it.nextEntryOffset < it.restarts)
    (hbad : ∀ shared nonShared valueLength rest, decodeEntry (it.region it.nextEntryOffset) =
      some (shared, nonShared, valueLength, rest) → it.key.length < shared) :
    it.parseNextKey = (false, { it with current := it.nextEntryOffset }.corruptionError) := by
  unfold Iter.parseNextKey
  dsimp only
  rw [if_neg (not_le.mpr h)]
  cases hdecode : decodeEntry (it.region it.nextEntryOffset) with
  | none =>
    have hdecode' : decodeEntry ({ it with current := it.nextEntryOffset }.region
        it.nextEntryOffset) = none := hdecode
    rw [hdecode']
  | some entry =>
    obtain ⟨shared, nonShared, valueLength, rest⟩ := entry
    have hdecode' : decodeEntry ({ it with current := it.nextEntryOffset }.region
        it.nextEntryOffset) = some (shared, nonShared, valueLength, rest) := hdecode
    rw [hdecode']
    dsimp only
    rw [if_pos (hbad _ _ _ _ hdecode)]

/-- **`ParseNextKey`** ends, or comes to an entry further on. -/
theorem Before.parseNextKey (hb : b.Sound) (h : Before b it) :
    (∃ it', it.parseNextKey = (false, it') ∧ Contained b it') ∨
    ∃ it', it.parseNextKey = (true, it') ∧ Contained b it' ∧ Before b it' ∧
      it.nextEntryOffset < b.restartOffset ∧ it.nextEntryOffset < it'.nextEntryOffset := by
  have hwithin : Within b { it with current := it.nextEntryOffset } :=
    ⟨h.within.data, h.within.restarts, h.within.numRestarts, h.within.reads, h.within.status⟩
  by_cases hlt : it.nextEntryOffset < it.restarts
  · by_cases hgood : ∃ shared nonShared valueLength rest,
        decodeEntry (it.region it.nextEntryOffset) = some (shared, nonShared, valueLength, rest) ∧
          shared ≤ it.key.length
    · right
      obtain ⟨shared, nonShared, valueLength, rest, hdecode, hkey⟩ := hgood
      obtain ⟨hcontained, hbefore, hfurther⟩ := h.setEntry hb hdecode
      exact ⟨_, Layout.parseNextKey_entry hlt hdecode hkey, hcontained, hbefore,
        h.within.restarts ▸ hlt, hfurther⟩
    · left
      refine ⟨_, parseNextKey_corruption hlt ?_, hwithin.corruptionError⟩
      intro shared nonShared valueLength rest hdecode
      by_contra hkey
      exact hgood ⟨shared, nonShared, valueLength, rest, hdecode, not_lt.mp hkey⟩
  · left
    exact ⟨_, Layout.parseNextKey_ended (not_lt.mp hlt), hwithin.ended⟩

/-! ## Motions -/

/-- The loops over `ParseNextKey`, for any test of the entry that it came to. -/
def Iter.parseWhile (test : Iter → Prop) [DecidablePred test] : (fuel : Nat) → Iter → Option Iter
  | 0, _ => none
  | fuel + 1, it =>
    let (more, it) := it.parseNextKey
    if more ∧ test it then parseWhile test fuel it else some it

theorem parseUntil_eq (bound fuel : Nat) (it : Iter) :
    Iter.parseUntil bound fuel it = it.parseWhile (fun it => it.nextEntryOffset < bound) fuel := by
  induction fuel generalizing it with
  | zero => rfl
  | succ fuel ih =>
    unfold Iter.parseUntil Iter.parseWhile
    simp only [ih]

theorem searchKeys_eq (cmp : Bytes → Bytes → Ordering) (target : Bytes) (fuel : Nat) (it : Iter) :
    Iter.searchKeys cmp target fuel it =
      it.parseWhile (fun it => cmp it.key target = .lt) fuel := by
  induction fuel generalizing it with
  | zero => rfl
  | succ fuel ih =>
    unfold Iter.searchKeys Iter.parseWhile
    simp only [ih]

/-- The loops end, since every round comes to a later entry. -/
theorem Before.parseWhile (hb : b.Sound) (test : Iter → Prop) [DecidablePred test]
    (h : Before b it) {fuel : Nat} (hpos : 0 < fuel)
    (hfuel : b.restartOffset < it.nextEntryOffset + fuel) :
    ∃ it', it.parseWhile test fuel = some it' ∧ Contained b it' := by
  induction fuel generalizing it with
  | zero => exact absurd hpos (lt_irrefl 0)
  | succ fuel ih =>
    unfold Iter.parseWhile
    rcases h.parseNextKey hb with ⟨it', hparse, hcontained⟩ |
      ⟨it', hparse, hcontained, hbefore, hlt, hfurther⟩
    · refine ⟨it', ?_, hcontained⟩
      rw [hparse]
      exact if_neg fun h => Bool.false_ne_true h.1
    · rw [hparse]
      dsimp only
      by_cases htest : test it'
      · rw [if_pos ⟨rfl, htest⟩]
        exact ih hbefore (by omega) (by omega)
      · rw [if_neg fun h => htest h.2]
        exact ⟨it', rfl, hcontained⟩

/-- A loop from a restart point on. -/
theorem Within.parseWhile_restart (hb : b.Sound) (test : Iter → Prop) [DecidablePred test]
    (h : Within b it) {j : Nat} (hj : j < b.numRestarts) :
    ∃ it', (it.seekToRestartPoint j).parseWhile test (it.data.length + 1) = some it' ∧
      Contained b it' := by
  apply (h.before_restart hj).parseWhile hb test (Nat.succ_pos _)
  have harray := hb.array
  rw [h.data]
  omega

theorem restartBefore_le {original : Nat} {index j : Nat}
    (h : it.restartBefore original index = some j) : j ≤ index := by
  induction index with
  | zero =>
    unfold Iter.restartBefore at h
    split at h
    · cases h
    · cases h
      exact le_rfl
  | succ index ih =>
    unfold Iter.restartBefore at h
    split at h
    · exact (ih h).trans (Nat.le_succ index)
    · cases h
      exact le_rfl

theorem Contained.prev (hb : b.Sound) (h : Contained b it) (hvalid : it.valid = true) :
    ∃ it', it.prev = some it' ∧ Contained b it' := by
  unfold Iter.prev
  rw [if_pos hvalid]
  cases hindex : it.restartBefore it.current it.restartIndex with
  | none => exact ⟨it.ended, rfl, h.within.ended⟩
  | some j =>
    have hj := (restartBefore_le hindex).trans_lt (h.before hvalid).index
    dsimp only
    rw [parseUntil_eq]
    exact h.within.parseWhile_restart hb _ hj

theorem Within.seekToFirst (hb : b.Sound) (h : Within b it) :
    ∃ it', it.seekToFirst = some it' ∧ Contained b it' := by
  rcases (h.before_restart hb.pos).parseNextKey hb with ⟨it', hparse, hcontained⟩ |
    ⟨it', hparse, hcontained, -⟩
  · exact ⟨it', by rw [Iter.seekToFirst, hparse], hcontained⟩
  · exact ⟨it', by rw [Iter.seekToFirst, hparse], hcontained⟩

theorem Within.seekToLast (hb : b.Sound) (h : Within b it) :
    ∃ it', it.seekToLast = some it' ∧ Contained b it' := by
  have hlast : b.numRestarts - 1 < b.numRestarts := Nat.sub_lt hb.pos Nat.one_pos
  rw [Iter.seekToLast, parseUntil_eq, h.numRestarts]
  exact h.parseWhile_restart hb _ hlast

/-- The middle of two restart points, and the one before it. -/
theorem mid_spec {left right : Nat} (hlt : left < right) (hright : right < 2 ^ 31) :
    left < uint32 (left + right + 1) / 2 ∧ uint32 (left + right + 1) / 2 ≤ right ∧
      uint32 (uint32 (left + right + 1) / 2 + (2 ^ 32 - 1)) + 1 =
        uint32 (left + right + 1) / 2 := by
  rw [uint32_of_lt (show left + right + 1 < 2 ^ 32 by omega), uint32]
  omega

/-- **The binary search** ends among the restart points, or with a corruption. -/
theorem Within.searchRestarts (hb : b.Sound) (cmp : Bytes → Bytes → Ordering) (target : Bytes)
    {fuel left right : Nat} (h : Within b it) (hle : left ≤ right) (hright : right < b.numRestarts)
    (hfuel : right < left + fuel) :
    (∃ it', Iter.searchRestarts cmp target fuel left right it = some (none, it') ∧
      Contained b it') ∨
    ∃ left' it', Iter.searchRestarts cmp target fuel left right it = some (some left', it') ∧
      Within b it' ∧ left' < b.numRestarts := by
  induction fuel generalizing it left right with
  | zero => omega
  | succ fuel ih =>
    unfold Iter.searchRestarts
    by_cases hlt : left < right
    · rw [if_pos hlt]
      obtain ⟨hleft, hmid, hdec⟩ := mid_spec hlt (hright.trans_le hb.few)
      generalize uint32 (left + right + 1) / 2 = mid at hleft hmid hdec
      dsimp only
      cases hdecode : decodeEntry (it.region (it.getRestartPoint mid)) with
      | none => exact Or.inl ⟨_, rfl, h.corruptionError⟩
      | some entry =>
        obtain ⟨shared, nonShared, valueLength, rest⟩ := entry
        dsimp only
        by_cases hshared : shared = 0
        · rw [if_neg (not_not.mpr hshared)]
          rw [h.region, h.getRestartPoint] at hdecode
          obtain ⟨-, hend, -⟩ := hb.decode (.restart (hmid.trans_lt hright)) hdecode
          have hwithin : Within b { it with
              reads := (it.restarts - rest.length, nonShared) :: it.reads } := by
            refine ⟨h.data, h.restarts, h.numRestarts, ?_, h.status⟩
            intro r hr
            rcases List.mem_cons.mp hr with rfl | hr
            · rw [h.restarts]
              exact (Nat.le_add_right _ _).trans hend
            · exact h.reads r hr
          split
          · exact ih hwithin hmid hright (by omega)
          · exact ih hwithin (by omega) (by omega) (by omega)
        · rw [if_pos hshared]
          exact Or.inl ⟨_, rfl, h.corruptionError⟩
    · rw [if_neg hlt]
      exact Or.inr ⟨left, it, rfl, h, hle.trans_lt hright⟩

theorem Within.seek (hb : b.Sound) (cmp : Bytes → Bytes → Ordering) (target : Bytes)
    (h : Within b it) : ∃ it', it.seek cmp target = some it' ∧ Contained b it' := by
  have hpos := hb.pos
  unfold Iter.seek
  rw [h.numRestarts]
  rcases h.searchRestarts hb cmp target (Nat.zero_le (b.numRestarts - 1))
      (Nat.sub_lt hpos Nat.one_pos) (show b.numRestarts - 1 < 0 + b.numRestarts by omega) with
    ⟨it', hsearch, hcontained⟩ | ⟨left, it', hsearch, hwithin, hleft⟩
  · rw [hsearch]
    exact ⟨it', rfl, hcontained⟩
  · rw [hsearch]
    dsimp only
    rw [searchKeys_eq]
    exact hwithin.parseWhile_restart hb _ hleft

/-- **One motion** returns, and keeps to the entries. -/
theorem Contained.move (hb : b.Sound) (cmp : Bytes → Bytes → Ordering) (h : Contained b it)
    (m : Motion Bytes) (hm : m.relative = true → it.valid = true) :
    ∃ it', (blockIterator cmp).move m it = some it' ∧ Contained b it' := by
  cases m with
  | seekToFirst => exact h.within.seekToFirst hb
  | seekToLast => exact h.within.seekToLast hb
  | seek target => exact h.within.seek hb cmp target
  | prev => exact h.prev hb (hm rfl)
  | next =>
    have hvalid := hm rfl
    rcases (h.before hvalid).parseNextKey hb with ⟨it', hparse, hcontained⟩ |
      ⟨it', hparse, hcontained, -⟩
    · refine ⟨it', ?_, hcontained⟩
      show it.next = some it'
      rw [Iter.next, if_pos hvalid, hparse]
    · refine ⟨it', ?_, hcontained⟩
      show it.next = some it'
      rw [Iter.next, if_pos hvalid, hparse]

end Motions

/-! ## Runs -/

/-- What the constructor has checked, unless it marks an error. -/
theorem Block.new_of_size {contents : Bytes} (h : (Block.new contents).size ≠ 0) :
    let n := (Block.new contents).numRestarts
    Block.new contents =
      ⟨contents, contents.length, uint32 (contents.length - uint32 (1 + n) * 4)⟩ ∧
      n * 4 + 4 ≤ contents.length := by
  have hnew : ∀ b, Block.new contents = b → b.size ≠ 0 →
      b = ⟨contents, contents.length, uint32 (contents.length - uint32 (1 + b.numRestarts) * 4)⟩ ∧
        b.numRestarts * 4 + 4 ≤ contents.length := by
    intro b hb hsize
    unfold Block.new at hb
    dsimp only at hb
    split at hb
    case isTrue =>
      subst hb
      exact absurd rfl hsize
    case isFalse hfour =>
      split at hb
      case isTrue =>
        subst hb
        exact absurd rfl hsize
      case isFalse hnum =>
        subst hb
        refine ⟨rfl, ?_⟩
        have hnum' : Block.numRestarts ⟨contents, contents.length, 0⟩ ≤ (contents.length - 4) / 4 :=
          not_lt.mp hnum
        show Block.numRestarts ⟨contents, contents.length, 0⟩ * 4 + 4 ≤ contents.length
        omega
  exact hnew _ rfl h

/-- The iterator of a new block. -/
theorem Block.contained_new {contents : Bytes} {it : Iter} (hfits : (Block.new contents).Fits)
    (hnew : (Block.new contents).newIterator = .iter it) :
    (Block.new contents).Sound ∧ Contained (Block.new contents) it := by
  rw [newIterator] at hnew
  split at hnew
  case isTrue => cases hnew
  case isFalse hsize =>
    split at hnew
    case isTrue => cases hnew
    case isFalse hpos =>
      cases hnew
      have hfew : (Block.new contents).numRestarts ≤ 2 ^ 31 := by
        rcases hfits.restarts with hzero | hfew
        · exact absurd (hzero ▸ Nat.zero_lt_succ 3) hsize
        · exact hfew
      have hne : (Block.new contents).size ≠ 0 := fun hzero => hsize (hzero ▸ Nat.zero_lt_succ 3)
      obtain ⟨hb, harray⟩ := Block.new_of_size hne
      generalize Block.new contents = b at hfits hfew hpos hne hb harray ⊢
      have hdata : b.data = contents := congrArg Block.data hb
      have hoffset := congrArg Block.restartOffset hb
      dsimp only at hoffset
      rw [uint32_of_lt (show 1 + b.numRestarts < 2 ^ 32 by omega), uint32] at hoffset
      refine ⟨⟨hfits, hne, ?_, ?_, Nat.pos_of_ne_zero hpos, hfew⟩, ?_⟩
      · omega
      · rw [hdata]
        omega
      · have hreads : ∀ r ∈ ([] : List (Nat × Nat)), r.1 + r.2 ≤ b.restartOffset := by simp
        exact .of_not_valid ⟨rfl, rfl, rfl, hreads, Or.inl rfl⟩ (decide_eq_false (lt_irrefl _))

/-- The iterators of `NewIterator`, between motions. -/
def Block.NewIterator.Contained (b : Block) : Block.NewIterator → Prop
  | .error status => status = .corruption "bad block contents"
  | .empty => True
  | .iter it => b.Sound ∧ Table.Contained b it


section Runs

variable {contents : Bytes} (cmp : Bytes → Bytes → Ordering)

theorem Block.NewIterator.contained_new (hfits : (Block.new contents).Fits) :
    (Block.new contents).newIterator.Contained (Block.new contents) := by
  cases hnew : (Block.new contents).newIterator with
  | error status =>
    rw [Block.newIterator] at hnew
    split at hnew
    · cases hnew
      rfl
    · split at hnew <;> cases hnew
  | empty => trivial
  | iter it =>
    exact Block.contained_new hfits hnew

theorem Block.NewIterator.Contained.move {b : Block} {it : Block.NewIterator} (h : it.Contained b)
    (m : Motion Bytes) (hm : m.relative = true → (newBlockIterator cmp).valid it = true) :
    ∃ it', (newBlockIterator cmp).move m it = some it' ∧ it'.Contained b := by
  cases it with
  | error status =>
    refine ⟨.error status, if_neg ?_, h⟩
    exact fun hrel => Bool.false_ne_true (hm hrel)
  | empty =>
    refine ⟨.empty, if_neg ?_, h⟩
    exact fun hrel => Bool.false_ne_true (hm hrel)
  | iter it =>
    obtain ⟨it', hmove, hcontained⟩ := h.2.move h.1 cmp m hm
    refine ⟨.iter it', ?_, h.1, hcontained⟩
    show ((blockIterator cmp).move m it).map Block.NewIterator.iter = _
    rw [hmove, Option.map_some]

/-- A motion that is not permitted fails. -/
theorem newBlockIterator_relative {it it' : Block.NewIterator} {m : Motion Bytes}
    (hmove : (newBlockIterator cmp).move m it = some it') (hrel : m.relative = true) :
    (newBlockIterator cmp).valid it = true := by
  cases it with
  | iter it =>
    obtain ⟨it', hmove, -⟩ := Option.map_eq_some_iff.mp hmove
    cases m with
    | next => exact (Option.ite_none_right_eq_some.mp hmove).1
    | prev => exact (Option.ite_none_right_eq_some.mp hmove).1
    | _ => cases hrel
  | error status => exact absurd hrel (Option.ite_none_left_eq_some.mp hmove).1
  | empty => exact absurd hrel (Option.ite_none_left_eq_some.mp hmove).1

theorem Block.NewIterator.contained_run (hfits : (Block.new contents).Fits)
    {ms : List (Motion Bytes)} {it : Block.NewIterator}
    (hrun : (newBlockIterator cmp).run (Block.new contents).newIterator ms = some it) :
    it.Contained (Block.new contents) := by
  apply runs_invariant (P := fun it : Block.NewIterator => it.Contained (Block.new contents)) _
    (Block.NewIterator.contained_new hfits) hrun
  intro it m it' h hmove
  obtain ⟨it₁, hmove₁, h₁⟩ := h.move cmp m (newBlockIterator_relative cmp hmove)
  rw [hmove] at hmove₁
  exact Option.some.inj hmove₁ ▸ h₁

/-- **Any block contents.** Wherever a run of motions has come to, every permitted motion
returns, what has been read as the delta of a key or a value lies before the restart array, the
value shown is one of these slices, and the status is a corruption or none. -/
theorem run_contained (hfits : (Block.new contents).Fits) {ms : List (Motion Bytes)}
    {it : Block.NewIterator}
    (hrun : (newBlockIterator cmp).run (Block.new contents).newIterator ms = some it) :
    (∀ m : Motion Bytes, (m.relative = true → (newBlockIterator cmp).valid it = true) →
      ∃ it', (newBlockIterator cmp).move m it = some it') ∧
    (∀ r ∈ it.reads,
      r.1 + r.2 + ((Block.new contents).numRestarts + 1) * 4 ≤ contents.length) ∧
    ((newBlockIterator cmp).valid it = true →
      ∃ r ∈ it.reads, (newBlockIterator cmp).value it = (contents.drop r.1).take r.2) ∧
    (it.status = .ok ∨ ∃ msg, it.status = .corruption msg) := by
  have hcontained := Block.NewIterator.contained_run cmp hfits hrun
  refine ⟨?_, ?_⟩
  · intro m hm
    obtain ⟨it', hmove, -⟩ := hcontained.move cmp m hm
    exact ⟨it', hmove⟩
  · cases it with
    | error status => exact ⟨nofun, nofun, Or.inr ⟨_, hcontained⟩⟩
    | empty => exact ⟨nofun, nofun, Or.inl rfl⟩
    | iter it =>
      obtain ⟨hsound, hit⟩ := hcontained
      have hne : (Block.new contents).size ≠ 0 := hsound.size_ne
      have hdata : (Block.new contents).data = contents :=
        congrArg Block.data (Block.new_of_size hne).1
      have harray := hsound.array
      rw [hdata] at harray
      refine ⟨?_, ?_, ?_⟩
      · intro r hr
        exact (Nat.add_le_add_right (hit.within.reads r hr) _).trans harray
      · intro hvalid
        refine ⟨_, hit.value hvalid, ?_⟩
        show (it.data.drop it.valueStart).take it.valueSize = _
        rw [hit.within.data, hdata]
      · exact hit.within.status.imp_right fun h => ⟨_, h⟩

end Runs

/-- An entry whose value has more bytes than there are. -/
def longValue : Bytes := [0, 1, 9, 97, 98] ++ encodeFixed32 0 ++ encodeFixed32 1

theorem fits_longValue : (Block.new longValue).Fits where
  lengths := by
    have hstart : ∀ offset, (Block.new longValue).EntryStart offset → offset = 0 ∨ offset = 13 := by
      intro offset h
      induction h with
      | restart hj =>
        have hone : (Block.new longValue).numRestarts = 1 := by decide +kernel
        rw [hone] at hj
        obtain rfl := Nat.lt_one_iff.mp hj
        exact Or.inl (by decide +kernel)
      | next h hheader ih =>
        rcases ih with rfl | rfl
        · have hfirst : entryHeader ((Block.new longValue).entryArea.drop 0) =
              some (0, 1, 9, [97, 98]) := by decide +kernel
          rw [hfirst] at hheader
          cases hheader
          exact Or.inr (by decide +kernel)
        · have hnone : entryHeader ((Block.new longValue).entryArea.drop 13) = none := by
            decide +kernel
          rw [hnone] at hheader
          cases hheader
    intro offset shared nonShared valueLength rest h hheader
    rcases hstart offset h with rfl | rfl
    · have hfirst : entryHeader ((Block.new longValue).entryArea.drop 0) =
          some (0, 1, 9, [97, 98]) := by decide +kernel
      rw [hfirst] at hheader
      cases hheader
      decide
    · have hnone : entryHeader ((Block.new longValue).entryArea.drop 13) = none := by
        decide +kernel
      rw [hnone] at hheader
      cases hheader
  restarts := Or.inr (by decide +kernel)

theorem run_contained_longValue :
    ∃ it, (newBlockIterator sliceCompare).run (Block.new longValue).newIterator
        [.seekToFirst, .seek [97], .seekToLast] = some it ∧
      (∀ m : Motion Bytes, (m.relative = true → (newBlockIterator sliceCompare).valid it = true) →
        ∃ it', (newBlockIterator sliceCompare).move m it = some it') ∧
      (∀ r ∈ it.reads,
        r.1 + r.2 + ((Block.new longValue).numRestarts + 1) * 4 ≤ longValue.length) ∧
      ((newBlockIterator sliceCompare).valid it = true →
        ∃ r ∈ it.reads,
          (newBlockIterator sliceCompare).value it = (longValue.drop r.1).take r.2) ∧
      (it.status = .ok ∨ ∃ msg, it.status = .corruption msg) := by
  have hreturns : ((newBlockIterator sliceCompare).run (Block.new longValue).newIterator
      [.seekToFirst, .seek [97], .seekToLast]).isSome = true := by decide +kernel
  obtain ⟨it, hrun⟩ := Option.isSome_iff_exists.mp hreturns
  exact ⟨it, hrun, run_contained sliceCompare fits_longValue hrun⟩

/-! ## Sums that wrap -/

/-- An entry with a key of one byte and a value of `2 ^ 32 - 1` bytes; there is one byte. -/
def wrappedLengths : Bytes :=
  [0, 1, 255, 255, 255, 255, 15, 97] ++ encodeFixed32 0 ++ encodeFixed32 1

/-- A block with one entry, whose key is one byte, and with many restart points, all at it. -/
def manyRestarts (zeros : Bytes) : Bytes :=
  [0, 1, 0, 1] ++ zeros ++ encodeFixed32 (2 ^ 31 + 1)

section ManyRestarts

variable {zeros : Bytes} {n : Nat} (hzeros : zeros = List.replicate n 0) (hn : n = 2 ^ 33 + 4)
include hzeros hn

theorem newIterator_manyRestarts :
    (Block.new (manyRestarts zeros)).newIterator =
      .iter (.new (manyRestarts zeros) 4 (2 ^ 31 + 1)) := by
  have hlength : (manyRestarts zeros).length = 2 ^ 33 + 12 := by
    rw [manyRestarts, List.length_append, List.length_append, hzeros, List.length_replicate, hn]
    rfl
  have hnum : ∀ offset,
      Block.numRestarts ⟨manyRestarts zeros, 2 ^ 33 + 12, offset⟩ = 2 ^ 31 + 1 := by
    intro offset
    have hfront : ([0, 1, 0, 1] ++ zeros).length = 2 ^ 33 + 12 - 4 := by
      rw [List.length_append, hzeros, List.length_replicate, hn]
      rfl
    rw [Block.numRestarts]
    dsimp only
    rw [manyRestarts, List.drop_left' hfront]
    decide +kernel
  have hnew : Block.new (manyRestarts zeros) = ⟨manyRestarts zeros, 2 ^ 33 + 12, 4⟩ := by
    unfold Block.new
    dsimp only
    rw [hlength, hnum, if_neg (by decide), if_neg (by decide)]
    rfl
  rw [hnew, Block.newIterator, hnum]
  rfl

theorem restartPoint_manyRestarts {it : Iter} (hdata : it.data = manyRestarts zeros)
    (hrestarts : it.restarts = 4) {j : Nat} (hj : j < 2 ^ 31) : it.getRestartPoint j = 0 := by
  have hsplit : zeros = List.replicate (j * 4) 0 ++ (List.replicate 4 0 ++
      List.replicate (n - j * 4 - 4) 0) := by
    rw [hzeros, List.replicate_append_replicate, List.replicate_append_replicate]
    congr 1
    omega
  have hdrop : (manyRestarts zeros).drop (4 + j * 4) = List.replicate 4 0 ++
      (List.replicate (n - j * 4 - 4) 0 ++ encodeFixed32 (2 ^ 31 + 1)) := by
    have hfour : (manyRestarts zeros).drop 4 = zeros ++ encodeFixed32 (2 ^ 31 + 1) := rfl
    rw [← List.drop_drop, hfour, hsplit, List.append_assoc, List.drop_left' List.length_replicate,
      List.append_assoc]
  rw [Iter.getRestartPoint, hdata, hrestarts, hdrop, decodeFixed32,
    List.take_left' List.length_replicate]
  rfl

/-- The sum of the two indices wraps when they meet, and so the search starts again. -/
theorem searchRestarts_manyRestarts {right : Nat} (hright : right = 2 ^ 31) (fuel : Nat) {it : Iter}
    (hdata : it.data = manyRestarts zeros) (hrestarts : it.restarts = 4) {left : Nat}
    (hleft : left < right) : Iter.searchRestarts sliceCompare [2] fuel left right it = none := by
  induction fuel generalizing left it with
  | zero => rfl
  | succ fuel ih =>
    have hmid : uint32 (left + right + 1) / 2 < right := by
      rw [uint32]
      omega
    have hregion : it.region 0 = [0, 1, 0, 1] := by
      rw [Iter.region, hdata, hrestarts]
      rfl
    have hslice : it.slice 3 1 = [1] := by
      rw [Iter.slice, hdata]
      rfl
    have hdecode : decodeEntry [0, 1, 0, 1] = some (0, 1, 0, [1]) := by decide
    unfold Iter.searchRestarts
    rw [if_pos hleft]
    generalize uint32 (left + right + 1) / 2 = mid at hmid
    dsimp only
    rw [restartPoint_manyRestarts hzeros hn hdata hrestarts (hright ▸ hmid), hregion, hdecode]
    dsimp only
    rw [if_neg (not_not.mpr rfl)]
    have hlt : sliceCompare (Iter.slice
        { it with reads := (it.restarts - [(1 : UInt8)].length, 1) :: it.reads }
          (it.restarts - [(1 : UInt8)].length) 1) [2] = .lt := by
      rw [hrestarts]
      show sliceCompare (it.slice 3 1) [2] = .lt
      rw [hslice]
      decide
    rw [if_pos hlt]
    apply ih _ _ hmid
    · exact hdata
    · exact hrestarts

end ManyRestarts

/-- A value behind the end of the block, and a search that does not return. -/
theorem block_overruns :
    (∃ it, (newBlockIterator sliceCompare).run (Block.new wrappedLengths).newIterator
        [.seekToFirst] = some it ∧ (newBlockIterator sliceCompare).valid it = true ∧
      (8, 2 ^ 32 - 1) ∈ it.reads ∧ wrappedLengths.length = 16) ∧
    ∃ contents it, (Block.new contents).newIterator = .iter it ∧
      ∀ fuel, Iter.searchRestarts sliceCompare [2] fuel 0 (it.numRestarts - 1) it = none := by
  constructor
  · have hreturns : (((newBlockIterator sliceCompare).run (Block.new wrappedLengths).newIterator
        [.seekToFirst]).map fun it => ((newBlockIterator sliceCompare).valid it, it.reads)) =
          some (true, [(8, 2 ^ 32 - 1), (7, 1)]) := by decide +kernel
    obtain ⟨it, hrun, hit⟩ := Option.map_eq_some_iff.mp hreturns
    obtain ⟨hvalid, hreads⟩ := Prod.mk.inj hit
    exact ⟨it, hrun, hvalid, hreads ▸ List.mem_cons_self, by decide⟩
  · obtain ⟨n, hn⟩ : ∃ n, n = 2 ^ 33 + 4 := ⟨_, rfl⟩
    refine ⟨manyRestarts (List.replicate n 0), _, newIterator_manyRestarts rfl hn, ?_⟩
    intro fuel
    obtain ⟨right, hright⟩ : ∃ right, right = 2 ^ 31 := ⟨_, rfl⟩
    have hnum : (Iter.new (manyRestarts (List.replicate n 0)) 4 (2 ^ 31 + 1)).numRestarts - 1 =
        right := by
      rw [hright]
      exact Nat.add_sub_cancel (2 ^ 31) 1
    rw [hnum]
    exact searchRestarts_manyRestarts rfl hn hright fuel rfl rfl (by omega)

end Lpad.Table
