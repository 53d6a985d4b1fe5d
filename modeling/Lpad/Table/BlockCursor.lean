import Lpad.Base.Segments
import Lpad.Table.BlockBuilder
import Lpad.Table.BlockLayout
import Mathlib.Data.List.Chain
import Mathlib.Data.List.GetD

/-!
# A block reads back what was written

What `BlockBuilder` has written after some calls of `Add` (`Holds`) is the layout of a block
with these entries, and so the iterator over it is a cursor.
-/

namespace Lpad.Table

/-! ## One entry -/

namespace BlockBuilder

theorem three_le_length_encodeEntry (shared : Nat) (key value : Bytes) :
    3 ≤ (encodeEntry shared key value).length := by
  have h₀ := encodeVarint32_length_pos (uint32 shared)
  have h₁ := encodeVarint32_length_pos (uint32 (key.length - shared))
  have h₂ := encodeVarint32_length_pos (uint32 value.length)
  simp only [encodeEntry, List.length_append]
  omega

theorem length_le_encodeEntry (shared : Nat) (key value : Bytes) :
    key.length - shared + value.length ≤ (encodeEntry shared key value).length := by
  simp only [encodeEntry, List.length_append, List.length_drop]
  omega

/-- **Decoding an entry** that is followed by less than `2 ^ 32` bytes. -/
theorem decodeEntry_encodeEntry {shared : Nat} {key value : Bytes} (rest : Bytes)
    (hshared : shared < 2 ^ 32)
    (hsize : (encodeEntry shared key value ++ rest).length < 2 ^ 32) :
    decodeEntry (encodeEntry shared key value ++ rest) =
      some (shared, key.length - shared, value.length, key.drop shared ++ (value ++ rest)) := by
  have hthree := three_le_length_encodeEntry shared key value
  have hlength := length_le_encodeEntry shared key value
  rw [List.length_append] at hsize
  have hregion : (key.drop shared ++ (value ++ rest)).length =
      key.length - shared + (value.length + rest.length) := by
    simp only [List.length_append, List.length_drop]
  rw [decodeEntry_eq (by rw [List.length_append]; omega), encodeEntry, uint32_of_lt hshared,
    uint32_of_lt (by omega), uint32_of_lt (by omega)]
  simp only [List.append_assoc]
  rw [getVarint32_encode hshared, Option.bind_some, getVarint32_encode (by omega),
    Option.bind_some, getVarint32_encode (by omega), Option.bind_some, decodeEntry.check]
  apply if_neg
  rw [hregion, uint32_of_lt (by omega), uint32_of_lt (by omega)]
  omega

/-! ## What the builder has written -/

/-- Entries, each with the number of bytes of its key that are left out. -/
abbrev Coded : Type := List (Slices × Nat)

/-- The bytes of the entries. -/
def codes (coded : Coded) : List Bytes := coded.map fun c => encodeEntry c.2 c.1.key c.1.value

/-- The bytes that are left out are those of the key before. -/
def Follows (c d : Slices × Nat) : Prop :=
  d.2 ≤ c.1.key.length ∧ c.1.key.take d.2 = d.1.key.take d.2

structure Holds (blockRestartInterval : Nat) (coded : Coded) (points : List Nat)
    (b : BlockBuilder) : Prop where
  buffer : b.buffer = (codes coded).flatten
  restarts : b.restarts = points.map fun p => uint32 (segmentOffset (codes coded) p)
  finished : b.finished = false
  counter : b.counter ≤ blockRestartInterval
  counter_zero : coded = [] → b.counter = 0
  lastKey : b.lastKey = (coded.getLast?.map fun c => c.1.key).getD []
  key_le : ∀ c ∈ coded, c.1.key.length ≤ b.buffer.length
  share_le : ∀ c ∈ coded, c.2 ≤ c.1.key.length
  follows : coded.IsChain Follows
  points_zero : points[0]? = some 0
  points_lt : points.Pairwise (· < ·)
  points_in : ∀ p ∈ points, p = 0 ∨ p < coded.length
  share_point : ∀ p ∈ points, ∀ c, coded[p]? = some c → c.2 = 0

theorem holds_new (interval : Nat) : Holds interval [] [0] new where
  buffer := rfl
  restarts := rfl
  finished := rfl
  counter := Nat.zero_le _
  counter_zero := fun _ => rfl
  lastKey := rfl
  key_le := nofun
  share_le := nofun
  follows := .nil
  points_zero := rfl
  points_lt := List.pairwise_singleton _ _
  points_in := fun _ hp => Or.inl (List.mem_singleton.mp hp)
  share_point := nofun

section Holds

variable {interval : Nat} {coded : Coded} {points : List Nat} {b : BlockBuilder} {e : Slices}
  {s : Nat}

theorem codes_append (coded : Coded) (e : Slices) (s : Nat) :
    codes (coded ++ [(e, s)]) = codes coded ++ [encodeEntry s e.key e.value] := by
  rw [codes, List.map_append]
  rfl

/-- The restart points after one more entry. -/
structure MorePoints (coded : Coded) (points points' : List Nat) (s : Nat) : Prop where
  zero : points'[0]? = some 0
  lt : points'.Pairwise (· < ·)
  mem : ∀ p ∈ points', p ∈ points ∨ p = coded.length ∧ s = 0

/-- A new entry, at a restart point or not. -/
theorem Holds.append (h : Holds interval coded points b) (hlast : s ≤ b.lastKey.length)
    (hkey : s ≤ e.key.length) (hshare : b.lastKey.take s = e.key.take s) {points' : List Nat}
    (hpoints : MorePoints coded points points' s) {counter : Nat}
    (hcounter : counter + 1 ≤ interval) :
    Holds interval (coded ++ [(e, s)]) points'
      { b with
        buffer := b.buffer ++ encodeEntry s e.key e.value
        restarts := points'.map fun p => uint32 (segmentOffset (codes (coded ++ [(e, s)])) p)
        counter := counter + 1
        lastKey := b.lastKey.take s ++ e.key.drop s } := by
  have hbuffer : (codes (coded ++ [(e, s)])).flatten = b.buffer ++ encodeEntry s e.key e.value := by
    rw [codes_append, List.flatten_append, List.flatten_singleton, h.buffer]
  have hnew : b.lastKey.take s ++ e.key.drop s = e.key := by
    rw [hshare, List.take_append_drop]
  have hlength := length_le_encodeEntry s e.key e.value
  have hlastLe : b.lastKey.length ≤ b.buffer.length := by
    rw [h.lastKey]
    cases hc : coded.getLast? with
    | none => exact Nat.zero_le _
    | some c => exact h.key_le c (List.mem_of_getLast? hc)
  constructor
  case buffer => exact hbuffer.symm
  case restarts => rfl
  case finished => exact h.finished
  case counter => exact hcounter
  case counter_zero => simp
  case lastKey => simp [hnew]
  case key_le =>
    intro c hc
    rw [List.length_append]
    rcases List.mem_append.mp hc with hc | hc
    · exact (h.key_le c hc).trans (Nat.le_add_right _ _)
    · rw [List.mem_singleton.mp hc]
      show e.key.length ≤ _
      omega
  case share_le =>
    intro c hc
    rcases List.mem_append.mp hc with hc | hc
    · exact h.share_le c hc
    · rw [List.mem_singleton.mp hc]
      exact hkey
  case follows =>
    rw [List.isChain_append]
    refine ⟨h.follows, .singleton _, ?_⟩
    intro c hc d hd
    obtain rfl : (e, s) = d := Option.some.inj hd
    have hc' : b.lastKey = c.1.key := by rw [h.lastKey, Option.mem_def.mp hc]; rfl
    rw [hc'] at hlast hshare
    exact ⟨hlast, hshare⟩
  case points_zero => exact hpoints.zero
  case points_lt => exact hpoints.lt
  case points_in =>
    intro p hp
    rw [List.length_append, List.length_singleton]
    rcases hpoints.mem p hp with hp | ⟨rfl, -⟩
    · exact (h.points_in p hp).imp_right Nat.lt_succ_of_lt
    · exact Or.inr (Nat.lt_succ_self _)
  case share_point =>
    intro p hp c hc
    rcases hpoints.mem p hp with hp | ⟨rfl, hs⟩
    · rcases h.points_in p hp with rfl | hlt
      · -- the first entry shares nothing with the empty key
        cases coded with
        | nil =>
          have hs : s ≤ 0 := by
            rw [h.lastKey] at hlast
            exact hlast
          rw [← Option.some.inj hc]
          exact Nat.le_zero.mp hs
        | cons d coded => exact h.share_point 0 hp c hc
      · rw [List.getElem?_append_left hlt] at hc
        exact h.share_point p hp c hc
    · rw [List.getElem?_append_right le_rfl, Nat.sub_self] at hc
      rw [← Option.some.inj hc]
      exact hs

/-- One call of `Add`. -/
theorem Holds.add (cmp : Bytes → Bytes → Ordering) (h : Holds interval coded points b)
    (hinterval : 1 ≤ interval) (hgt : coded = [] ∨ cmp e.key b.lastKey = .gt) :
    ∃ b' s points', b.add cmp interval e.key e.value = some b' ∧
      Holds interval (coded ++ [(e, s)]) points' b' := by
  have hassert : b.finished = false ∧ b.counter ≤ interval ∧
      (b.buffer = [] ∨ cmp e.key b.lastKey = .gt) := by
    refine ⟨h.finished, h.counter, hgt.imp_left ?_⟩
    rintro rfl
    exact h.buffer
  -- the offsets of the restart points so far do not move
  have hsame : ∀ s, (points.map fun p => uint32 (segmentOffset (codes (coded ++ [(e, s)])) p)) =
      b.restarts := by
    intro s
    rw [h.restarts]
    apply List.map_congr_left
    intro p hp
    have hle : p ≤ (codes coded).length := by
      rw [codes, List.length_map]
      rcases h.points_in p hp with rfl | hlt
      · exact Nat.zero_le _
      · exact hlt.le
    rw [codes_append, segmentOffset_append hle]
  by_cases hcounter : b.counter < interval
  · obtain ⟨hlast, hkey, hshare⟩ := sharedLength_spec b.lastKey e.key
    have hpoints : MorePoints coded points points (sharedLength b.lastKey e.key) :=
      ⟨h.points_zero, h.points_lt, fun _ hp => Or.inl hp⟩
    refine ⟨_, sharedLength b.lastKey e.key, points, ?_,
      h.append hlast hkey hshare hpoints hcounter⟩
    rw [BlockBuilder.add, if_pos hassert, restart, if_pos hcounter, hsame]
  · have hne : coded ≠ [] := by
      rintro rfl
      have hzero := h.counter_zero rfl
      omega
    have hlt : ∀ p ∈ points, p < coded.length := by
      intro p hp
      rcases h.points_in p hp with rfl | hlt
      · exact List.length_pos_of_ne_nil hne
      · exact hlt
    have hpoints : MorePoints coded points (points ++ [coded.length]) 0 := by
      constructor
      case zero =>
        have hpos := (List.getElem?_eq_some_iff.mp h.points_zero).1
        rw [List.getElem?_append_left hpos]
        exact h.points_zero
      case lt =>
        rw [List.pairwise_append]
        refine ⟨h.points_lt, List.pairwise_singleton _ _, ?_⟩
        intro p hp q hq
        rw [List.mem_singleton.mp hq]
        exact hlt p hp
      case mem =>
        intro p hp
        rcases List.mem_append.mp hp with hp | hp
        · exact Or.inl hp
        · exact Or.inr ⟨List.mem_singleton.mp hp, rfl⟩
    have hend : segmentOffset (codes (coded ++ [(e, 0)])) coded.length = b.buffer.length := by
      have hlen : coded.length = (codes coded).length := (List.length_map _).symm
      rw [codes_append, hlen, segmentOffset_append le_rfl, segmentOffset_length, h.buffer]
    refine ⟨_, 0, points ++ [coded.length], ?_, h.append (Nat.zero_le _) (Nat.zero_le _) rfl hpoints
      hinterval⟩
    rw [BlockBuilder.add, if_pos hassert, restart, if_neg hcounter, List.map_append, hsame,
      List.map_singleton, hend]

/-- **Every run of `Add`** with keys in order. -/
theorem addAll_holds {cmp : Bytes → Bytes → Ordering} [Std.TransCmp cmp] (hinterval : 1 ≤ interval)
    {entries : List Slices} (hsorted : entries.Pairwise fun a b => cmp a.key b.key = .lt) :
    ∃ b coded points, addAll cmp interval entries = some b ∧ coded.map Prod.fst = entries ∧
      Holds interval coded points b := by
  induction entries using List.reverseRecOn with
  | nil => exact ⟨new, [], [0], rfl, rfl, holds_new interval⟩
  | append_singleton entries e ih =>
    rw [List.pairwise_append] at hsorted
    obtain ⟨hold, -, hlt⟩ := hsorted
    obtain ⟨b, coded, points, hrun, hentries, hholds⟩ := ih hold
    have hgt : coded = [] ∨ cmp e.key b.lastKey = .gt := by
      cases hc : coded.getLast? with
      | none => exact Or.inl (List.getLast?_eq_none_iff.mp hc)
      | some c =>
        right
        have hmem : c.1 ∈ entries := hentries ▸ List.mem_map_of_mem (List.mem_of_getLast? hc)
        rw [hholds.lastKey, hc]
        exact Std.OrientedCmp.gt_iff_lt.mpr (hlt c.1 hmem e (List.mem_singleton_self e))
    obtain ⟨b', s, points', hadd, hholds'⟩ := hholds.add cmp hinterval hgt
    refine ⟨b', coded ++ [(e, s)], points', runs_snoc.mpr ⟨b, hrun, hadd⟩, ?_, hholds'⟩
    rw [List.map_append, hentries]
    rfl

/-! ## The finished block -/

theorem codes_getElem? {i : Nat} {c : Slices × Nat} (hc : coded[i]? = some c) :
    (codes coded)[i]? = some (encodeEntry c.2 c.1.key c.1.value) := by
  rw [codes, List.getElem?_map, hc]
  rfl

theorem length_codes (coded : Coded) : (codes coded).length = (coded.map Prod.fst).length := by
  rw [codes, List.length_map, List.length_map]

/-- The end of the entries. -/
theorem Holds.offset_end (h : Holds interval coded points b) :
    segmentOffset (codes coded) (coded.map Prod.fst).length = b.buffer.length := by
  rw [← length_codes, segmentOffset_length, h.buffer]

theorem codes_offset_lt {i j : Nat} (hij : i < j) (hj : j ≤ (coded.map Prod.fst).length) :
    segmentOffset (codes coded) i < segmentOffset (codes coded) j := by
  apply segmentOffset_lt _ hij (length_codes coded ▸ hj)
  intro s hs
  obtain ⟨c, -, rfl⟩ := List.mem_map.mp hs
  have hthree := three_le_length_encodeEntry c.2 c.1.key c.1.value
  exact List.ne_nil_of_length_pos (by omega)

theorem length_finish (b : BlockBuilder) :
    b.finish.buffer.length = b.buffer.length + b.restarts.length * 4 + 4 := by
  rw [finish, List.length_append, List.length_append, length_flatMap_encodeFixed32, encodeFixed32,
    leBytes_length]

/-- Two slices that follow each other. -/
theorem take_drop_pair {data header key value rest : Bytes} {a : Nat}
    (h : data.drop a = header ++ (key ++ (value ++ rest))) :
    (data.drop (a + header.length)).take key.length = key ∧
      (data.drop (a + header.length + key.length)).take value.length = value := by
  have hkey : data.drop (a + header.length) = key ++ (value ++ rest) := by
    rw [← List.drop_drop, h, List.drop_left]
  refine ⟨by rw [hkey, List.take_left], ?_⟩
  rw [← List.drop_drop, hkey, List.drop_left, List.take_left]

/-- What decoding an entry of the block gives. -/
theorem Holds.decode (h : Holds interval coded points b) (hsize : b.buffer.length < 2 ^ 32)
    (tail : Bytes) {i : Nat} {c : Slices × Nat} (hc : coded[i]? = some c) : ∃ region,
    let next := segmentOffset (codes coded) (i + 1)
    decodeEntry (b.buffer.drop (segmentOffset (codes coded) i)) =
      some (c.2, c.1.key.length - c.2, c.1.value.length, region) ∧
    region.length + (next - c.1.value.length - (c.1.key.length - c.2)) = b.buffer.length ∧
    (c.1.key.length - c.2) + c.1.value.length ≤ next ∧
    ((b.buffer ++ tail).drop (next - c.1.value.length - (c.1.key.length - c.2))).take
      (c.1.key.length - c.2) = c.1.key.drop c.2 ∧
    ((b.buffer ++ tail).drop (next - c.1.value.length)).take c.1.value.length = c.1.value := by
  obtain ⟨⟨key, value⟩, s⟩ := c
  have hmem := List.mem_of_getElem? hc
  have hshare : s ≤ key.length := h.share_le _ hmem
  have hkey : key.length ≤ b.buffer.length := h.key_le _ hmem
  have hcode := codes_getElem? hc
  have hdrop := drop_segmentOffset hcode
  rw [← h.buffer] at hdrop
  dsimp only at hdrop hcode ⊢
  generalize hrest : ((codes coded).drop (i + 1)).flatten = rest at hdrop
  have hle : (encodeEntry s key value ++ rest).length ≤ b.buffer.length := by
    rw [← hdrop, List.length_drop]
    exact Nat.sub_le _ _
  have hoffset : segmentOffset (codes coded) i + (encodeEntry s key value ++ rest).length =
      b.buffer.length := by
    have hin : segmentOffset (codes coded) i ≤ b.buffer.length := by
      rw [h.buffer, ← segmentOffset_length]
      exact segmentOffset_le (List.getElem?_eq_some_iff.mp hcode).1.le
    rw [← hdrop, List.length_drop]
    omega
  rw [segmentOffset_succ hcode, hdrop,
    decodeEntry_encodeEntry rest (by omega) (hle.trans_lt hsize)]
  obtain ⟨header, hheader⟩ : ∃ header, encodeEntry s key value = header ++ (key.drop s ++ value) :=
    ⟨_, rfl⟩
  have hfrom : (b.buffer ++ tail).drop (segmentOffset (codes coded) i) =
      header ++ (key.drop s ++ (value ++ (rest ++ tail))) := by
    rw [List.drop_append_of_le_length (by omega), hdrop, hheader]
    simp only [List.append_assoc]
  obtain ⟨hslice, hvalue⟩ := take_drop_pair hfrom
  rw [List.length_drop] at hslice hvalue
  rw [hheader] at hoffset ⊢
  simp only [List.length_append, List.length_drop] at hoffset ⊢
  refine ⟨_, rfl, ?_, by omega, ?_, ?_⟩
  · simp only [List.length_append, List.length_drop]
    omega
  · rw [← hslice]
    congr 2
    omega
  · rw [← hvalue]
    congr 2
    omega

/-- The restart array. -/
theorem Holds.restart_point (h : Holds interval coded points b) (hsize : b.buffer.length < 2 ^ 32)
    {j : Nat} (hj : j < points.length) :
    decodeFixed32 (b.finish.buffer.drop (b.buffer.length + j * 4)) =
      segmentOffset (codes coded) (points.getD j 0) := by
  obtain ⟨p, hp⟩ : ∃ p, points[j]? = some p := ⟨_, List.getElem?_eq_getElem hj⟩
  have hsmall : segmentOffset (codes coded) p < 2 ^ 32 := by
    have hle : p ≤ (codes coded).length := by
      rw [codes, List.length_map]
      rcases h.points_in p (List.mem_of_getElem? hp) with rfl | hlt
      · exact Nat.zero_le _
      · exact hlt.le
    refine (segmentOffset_le hle).trans_lt ?_
    rw [segmentOffset_length, ← h.buffer]
    exact hsize
  have hword : b.restarts[j]? = some (segmentOffset (codes coded) p) := by
    rw [h.restarts, List.getElem?_map, hp, Option.map_some, uint32_of_lt hsmall]
  have harray : b.finish.buffer.drop b.buffer.length =
      b.restarts.flatMap encodeFixed32 ++ encodeFixed32 (uint32 b.restarts.length) := by
    rw [finish, List.append_assoc, List.drop_left]
  rw [decodeFixed32_array harray hword hsmall, List.getD_eq_getElem?_getD, hp, Option.getD_some]

/-- **The finished block** has the layout of its entries. -/
def Holds.layout (h : Holds interval coded points b) (hsize : b.finish.buffer.length < 2 ^ 32) :
    Layout (coded.map Prod.fst) where
  data := b.finish.buffer
  offset := segmentOffset (codes coded)
  share i := (coded[i]?.map Prod.snd).getD 0
  numRestarts := points.length
  point j := points.getD j 0
  offset_zero := rfl
  offset_lt := fun _ _ hij hj => codes_offset_lt hij hj
  offset_small := by
    rw [h.offset_end]
    rw [length_finish] at hsize
    omega
  offset_le := by
    rw [h.offset_end, length_finish]
    omega
  decode := by
    intro i e he
    rw [List.getElem?_map] at he
    obtain ⟨c, hc, rfl⟩ := Option.map_eq_some_iff.mp he
    rw [length_finish] at hsize
    have hdecode := h.decode (by omega)
      (b.restarts.flatMap encodeFixed32 ++ encodeFixed32 (uint32 b.restarts.length)) hc
    rw [← List.append_assoc] at hdecode
    have hbuffer : b.finish.buffer.take b.buffer.length = b.buffer := by
      rw [finish, List.append_assoc, List.take_left]
    rw [h.offset_end, hbuffer, hc]
    exact hdecode
  share_prev := by
    intro i d e hd he
    rw [List.getElem?_map] at hd he
    obtain ⟨c, hc, rfl⟩ := Option.map_eq_some_iff.mp hd
    obtain ⟨c', hc', rfl⟩ := Option.map_eq_some_iff.mp he
    obtain ⟨hi, rfl⟩ := List.getElem?_eq_some_iff.mp hc
    obtain ⟨hi', rfl⟩ := List.getElem?_eq_some_iff.mp hc'
    rw [hc']
    exact List.isChain_iff_getElem.mp h.follows i hi'
  num_pos := (List.getElem?_eq_some_iff.mp h.points_zero).1
  num_small := by
    rw [length_finish, h.restarts, List.length_map] at hsize
    omega
  point_zero := by rw [List.getD_eq_getElem?_getD, h.points_zero, Option.getD_some]
  point_lt := by
    intro i j hij hj
    rw [List.getD_eq_getElem points 0 (hij.trans hj), List.getD_eq_getElem points 0 hj]
    exact List.pairwise_iff_getElem.mp h.points_lt i j (hij.trans hj) hj hij
  point_in := by
    intro j hj hpos
    have hzero := List.pairwise_iff_getElem.mp h.points_lt 0 j (hpos.trans hj) hj hpos
    rw [List.getD_eq_getElem points 0 hj, List.length_map]
    rcases h.points_in _ (List.getElem_mem hj) with heq | hlt
    · omega
    · exact hlt
  restart := by
    intro j hj
    rw [h.offset_end]
    rw [length_finish] at hsize
    exact h.restart_point (by omega) hj
  share_point := by
    intro j hj
    rw [List.getD_eq_getElem points 0 hj]
    cases hc : coded[points[j]]? with
    | none => rfl
    | some c => exact h.share_point _ (List.getElem_mem hj) c hc

/-- The iterator over the finished block. -/
theorem Holds.newIterator (h : Holds interval coded points b)
    (hsize : b.finish.buffer.length < 2 ^ 32) :
    (Block.new b.finish.buffer).newIterator =
      .iter (.new b.finish.buffer b.buffer.length points.length) := by
  have hlength := length_finish b
  have hrestarts : b.restarts.length = points.length := by rw [h.restarts, List.length_map]
  have hpos := (List.getElem?_eq_some_iff.mp h.points_zero).1
  rw [hrestarts] at hlength
  have hnum : ∀ restartOffset,
      Block.numRestarts ⟨b.finish.buffer, b.finish.buffer.length, restartOffset⟩ =
        points.length := by
    intro restartOffset
    have hfour : (encodeFixed32 points.length).length = 4 := leBytes_length 4 _
    have hdrop : b.finish.buffer.drop (b.finish.buffer.length - 4) =
        encodeFixed32 points.length := by
      rw [finish, hrestarts, uint32_of_lt (by omega), List.length_append, hfour, Nat.add_sub_cancel,
        List.drop_left]
    have hdecode := decodeFixed32_encode (show points.length < 2 ^ 32 by omega) []
    rw [List.append_nil] at hdecode
    rw [Block.numRestarts, hdrop, hdecode]
  have hnew : Block.new b.finish.buffer =
      ⟨b.finish.buffer, b.finish.buffer.length, b.buffer.length⟩ := by
    unfold Block.new
    dsimp only
    rw [hnum, if_neg (by omega), if_neg (by omega),
      uint32_of_lt (show 1 + points.length < 2 ^ 32 by omega), uint32_of_lt (by omega)]
    congr 1
    omega
  rw [hnew, Block.newIterator, hnum, if_neg (by show ¬ b.finish.buffer.length < 4; omega),
    if_neg (by omega)]

/-- The layout of a block that the builder has written, and its new iterator. -/
theorem build_layout {cmp : Bytes → Bytes → Ordering} [Std.TransCmp cmp] (hinterval : 1 ≤ interval)
    {entries : List Slices} (hsorted : entries.Pairwise fun a b => cmp a.key b.key = .lt) :
    ∃ contents, build cmp interval entries = some contents ∧
      (contents.length < 2 ^ 32 → ∃ (L : Layout entries) (it : Iter),
        (Block.new contents).newIterator = .iter it ∧ L.Shows it none) := by
  obtain ⟨b, coded, points, hrun, rfl, hholds⟩ := addAll_holds hinterval hsorted
  refine ⟨b.finish.buffer, ?_, ?_⟩
  · rw [build, hrun, Option.map_some]
  · intro hsize
    refine ⟨hholds.layout hsize, _, hholds.newIterator hsize, ?_, decide_eq_false (lt_irrefl _)⟩
    exact ⟨rfl, hholds.offset_end.symm, rfl, rfl⟩

end Holds

/-- **Reading a block that was written.** The iterator is a cursor over the entries under every
run of permitted motions, and stays without an error. -/
theorem build_cursor {cmp : Bytes → Bytes → Ordering} [Std.TransCmp cmp] {interval : Nat}
    (hinterval : 1 ≤ interval) {entries : List Slices}
    (hsorted : entries.Pairwise fun a b => cmp a.key b.key = .lt)
    (hsize : ∀ contents, build cmp interval entries = some contents → contents.length < 2 ^ 32) :
    ∃ contents it, build cmp interval entries = some contents ∧
      (Block.new contents).newIterator = .iter it ∧
      ∀ (ms : List (Motion Bytes)) (p : Option Nat), Cursor.run cmp entries none ms = some p →
        ∃ it', (blockIterator cmp).run it ms = some it' ∧
          (blockIterator cmp).entry it' = Cursor.entryAt entries p ∧ it'.status = .ok := by
  obtain ⟨contents, hbuild, hlayout⟩ := build_layout hinterval hsorted
  obtain ⟨L, it, hnew, hshows⟩ := hlayout (hsize contents hbuild)
  refine ⟨contents, it, hbuild, hnew, ?_⟩
  intro ms p hrun
  obtain ⟨it', hrun', hshows'⟩ := Iterator.run_of_simulation L.Shows
    (fun _ p m p' h => h.move hsorted p m p') hshows hrun
  exact ⟨it', hrun', hshows'.entry, hshows'.of.status⟩

/-- Keys with a common start, and a restart point at every other one. -/
def threeKeys : List Slices := [⟨[1, 1], [10]⟩, ⟨[1, 2], [20]⟩, ⟨[1, 2, 3], []⟩]

theorem build_cursor_threeKeys :
    ∃ contents it, build sliceCompare 2 threeKeys = some contents ∧
      (Block.new contents).newIterator = .iter it ∧
      ∀ (ms : List (Motion Bytes)) (p : Option Nat),
        Cursor.run sliceCompare threeKeys none ms = some p →
        ∃ it', (blockIterator sliceCompare).run it ms = some it' ∧
          (blockIterator sliceCompare).entry it' = Cursor.entryAt threeKeys p ∧
          it'.status = .ok := by
  apply build_cursor (by decide) (by decide)
  intro contents hbuild
  have hlength : (build sliceCompare 2 threeKeys).map List.length = some 29 := by decide +kernel
  rw [hbuild] at hlength
  have hcontents : contents.length = 29 := Option.some.inj hlength
  rw [hcontents]
  decide

end BlockBuilder

end Lpad.Table
