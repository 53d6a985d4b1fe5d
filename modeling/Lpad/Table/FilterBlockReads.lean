import Lpad.Base.Segments
import Lpad.Table.FilterBlock
import Mathlib.Data.List.Flatten
import Mathlib.Data.List.GetD

/-!
# A filter block finds the keys that were added

The filter for a range of 2 KB is made of the keys of all data blocks that start there (`keysIn`),
whether one call of `StartBlock` or many fell into it. `Holds` is what the builder has written
between calls: the filters of the ranges that are over, and the keys of the current one.
-/

namespace Lpad.Table

namespace FilterBlockBuilder

/-- The keys of the data blocks that start in a range. -/
def keysIn (blocks : List (Nat × List Bytes)) (index : Nat) : List Bytes :=
  (blocks.filter fun block => block.1 / kFilterBase = index).flatMap Prod.snd

section KeysIn

variable {blocks : List (Nat × List Bytes)} {block : Nat × List Bytes} {index : Nat}

theorem keysIn_append_self :
    keysIn (blocks ++ [block]) (block.1 / kFilterBase) =
      keysIn blocks (block.1 / kFilterBase) ++ block.2 := by
  have hself : [block].filter (fun b => b.1 / kFilterBase = block.1 / kFilterBase) = [block] := by
    simp
  rw [keysIn, List.filter_append, hself, List.flatMap_append, List.flatMap_singleton, keysIn]

theorem keysIn_append_ne (h : block.1 / kFilterBase ≠ index) :
    keysIn (blocks ++ [block]) index = keysIn blocks index := by
  have hnone : [block].filter (fun b => b.1 / kFilterBase = index) = [] := by simp [h]
  rw [keysIn, List.filter_append, hnone, List.append_nil, keysIn]

theorem keysIn_eq_nil (h : ∀ block ∈ blocks, block.1 / kFilterBase ≠ index) :
    keysIn blocks index = [] := by
  rw [keysIn, List.filter_eq_nil_iff.mpr, List.flatMap_nil]
  intro block hblock
  rw [decide_eq_true_iff]
  exact h block hblock

theorem mem_keysIn {key : Bytes} (hblock : block ∈ blocks) (hkey : key ∈ block.2) :
    key ∈ keysIn blocks (block.1 / kFilterBase) := by
  rw [keysIn, List.mem_flatMap]
  exact ⟨block, List.mem_filter.mpr ⟨hblock, decide_eq_true rfl⟩, hkey⟩

theorem keysIn_isPrefix (blocks more : List (Nat × List Bytes)) (index : Nat) :
    keysIn blocks index <+: keysIn (blocks ++ more) index := by
  rw [keysIn, keysIn, List.filter_append, List.flatMap_append]
  exact List.prefix_append _ _

end KeysIn

/-! ## The keys that wait for a filter -/

/-- `keys_` and `start_` are these keys, laid end to end. -/
structure Pending (b : FilterBlockBuilder) (keys : List Bytes) : Prop where
  flat : b.keys = keys.flatten
  start : b.start = (List.range keys.length).map (segmentOffset keys)

section Pending

variable {b : FilterBlockBuilder} {keys : List Bytes}

theorem Pending.addKey (h : Pending b keys) (key : Bytes) :
    Pending (b.addKey key) (keys ++ [key]) where
  flat := by
    rw [FilterBlockBuilder.addKey, h.flat, List.flatten_append, List.flatten_singleton]
  start := by
    rw [List.length_append, List.length_singleton, List.range_succ, List.map_append,
      List.map_singleton, segmentOffset_append le_rfl, segmentOffset_length, ← h.flat]
    have hsame : (List.range keys.length).map (segmentOffset (keys ++ [key])) = b.start := by
      rw [h.start]
      apply List.map_congr_left
      intro i hi
      exact segmentOffset_append (List.mem_range.mp hi).le
    rw [hsame]
    rfl

theorem Pending.addKeys (h : Pending b keys) (more : List Bytes) :
    Pending (more.foldl FilterBlockBuilder.addKey b) (keys ++ more) ∧
      (more.foldl FilterBlockBuilder.addKey b).result = b.result ∧
      (more.foldl FilterBlockBuilder.addKey b).filterOffsets = b.filterOffsets := by
  induction more generalizing b keys with
  | nil =>
    rw [List.append_nil]
    exact ⟨h, rfl, rfl⟩
  | cons key more ih =>
    obtain ⟨hpending, hresult, hoffsets⟩ := ih (h.addKey key)
    rw [List.append_assoc, List.singleton_append] at hpending
    exact ⟨hpending, hresult, hoffsets⟩

/-- `GenerateFilter` takes the keys apart again. -/
theorem Pending.tmpKeys (h : Pending b keys) : b.tmpKeys = keys := by
  have hlength : b.start.length = keys.length := by rw [h.start, List.length_map, List.length_range]
  have hstart : ∀ i ≤ keys.length,
      (b.start ++ [b.keys.length]).getD i 0 = segmentOffset keys i := by
    intro i hi
    rw [List.getD_eq_getElem?_getD]
    rcases hi.lt_or_eq with hlt | rfl
    · rw [List.getElem?_append_left (hlength.symm ▸ hlt), h.start, List.getElem?_map,
        List.getElem?_range hlt]
      rfl
    · rw [List.getElem?_append_right hlength.le, hlength, Nat.sub_self, segmentOffset_length,
        ← h.flat]
      rfl
  apply List.ext_getElem?
  intro i
  unfold FilterBlockBuilder.tmpKeys
  dsimp only
  rw [hlength, List.getElem?_map]
  by_cases hi : i < keys.length
  · have hkey := List.getElem?_eq_getElem hi
    rw [List.getElem?_range hi, Option.map_some, hstart i hi.le, hstart (i + 1) hi,
      segmentOffset_succ hkey, Nat.add_sub_cancel_left, h.flat, drop_segmentOffset hkey,
      List.take_left, hkey]
  · rw [List.getElem?_eq_none (by rw [List.length_range]; exact not_lt.mp hi),
      List.getElem?_eq_none (not_lt.mp hi)]
    rfl

end Pending

/-! ## What the builder has written -/

/-- The filter of some keys. -/
def IsFilter (policy : FilterPolicy) (keys : List Bytes) (filter : Bytes) : Prop :=
  if keys = [] then filter = [] else createFilter policy keys = some filter

structure Holds (policy : FilterPolicy) (blocks : List (Nat × List Bytes))
    (filters : List Bytes) (b : FilterBlockBuilder) : Prop where
  pending : Pending b (keysIn blocks filters.length)
  result : b.result = filters.flatten
  offsets : b.filterOffsets =
    (List.range filters.length).map fun i => uint32 (segmentOffset filters i)
  each : ∀ i filter, filters[i]? = some filter → IsFilter policy (keysIn blocks i) filter
  index_le : ∀ block ∈ blocks, block.1 / kFilterBase ≤ filters.length

theorem holds_new (policy : FilterPolicy) : Holds policy [] [] new where
  pending := ⟨rfl, rfl⟩
  result := rfl
  offsets := rfl
  each := nofun
  index_le := nofun

section Holds

variable {policy : FilterPolicy} {blocks : List (Nat × List Bytes)} {filters : List Bytes}
  {b : FilterBlockBuilder}

/-- One filter, for the keys of the current range. The next range is empty. -/
theorem Holds.generateFilter (h : Holds policy blocks filters b)
    (hcreate : ∃ filter, createFilter policy (keysIn blocks filters.length) = some filter) :
    ∃ filter b', b.generateFilter policy = some b' ∧
      Holds policy blocks (filters ++ [filter]) b' := by
  have hnext : keysIn blocks (filters.length + 1) = [] := by
    apply keysIn_eq_nil
    intro block hblock
    exact (Nat.lt_succ_of_le (h.index_le block hblock)).ne
  have hoffsets : ∀ filter, b.filterOffsets ++ [uint32 b.result.length] =
      (List.range (filters ++ [filter]).length).map fun i =>
        uint32 (segmentOffset (filters ++ [filter]) i) := by
    intro filter
    rw [List.length_append, List.length_singleton, List.range_succ, List.map_append,
      List.map_singleton, segmentOffset_append le_rfl, segmentOffset_length, h.result, h.offsets]
    congr 1
    apply List.map_congr_left
    intro i hi
    rw [segmentOffset_append (List.mem_range.mp hi).le]
  have hfilters : ∀ filter, IsFilter policy (keysIn blocks filters.length) filter →
      ∀ i s, (filters ++ [filter])[i]? = some s → IsFilter policy (keysIn blocks i) s := by
    intro filter hfilter i s hs
    rcases lt_trichotomy i filters.length with hlt | rfl | hgt
    · rw [List.getElem?_append_left hlt] at hs
      exact h.each i s hs
    · rw [List.getElem?_append_right le_rfl, Nat.sub_self] at hs
      exact Option.some.inj hs ▸ hfilter
    · have hlength : (filters ++ [filter]).length ≤ i := by
        rw [List.length_append, List.length_singleton]
        exact hgt
      rw [List.getElem?_eq_none hlength] at hs
      cases hs
  have hindex : ∀ filter, ∀ block ∈ blocks,
      block.1 / kFilterBase ≤ (filters ++ [filter]).length := by
    intro filter block hblock
    rw [List.length_append, List.length_singleton]
    exact (h.index_le block hblock).trans (Nat.le_succ _)
  have hstart : b.start.length = (keysIn blocks filters.length).length := by
    rw [h.pending.start, List.length_map, List.length_range]
  unfold FilterBlockBuilder.generateFilter
  dsimp only
  by_cases hempty : keysIn blocks filters.length = []
  · rw [hempty, List.length_nil] at hstart
    rw [if_pos hstart]
    refine ⟨[], _, rfl, ?_, ?_, hoffsets [], hfilters [] ?_, hindex []⟩
    · have hpending := h.pending
      rw [hempty] at hpending
      rw [List.length_append, List.length_singleton, hnext]
      exact ⟨hpending.flat, hpending.start⟩
    · rw [List.flatten_append, List.flatten_singleton, List.append_nil]
      exact h.result
    · rw [IsFilter, if_pos hempty]
  · obtain ⟨filter, hfilter⟩ := hcreate
    rw [if_neg (by rw [hstart]; exact fun h => hempty (List.length_eq_zero_iff.mp h)),
      h.pending.tmpKeys, hfilter]
    refine ⟨filter, _, rfl, ?_, ?_, hoffsets filter, hfilters filter ?_, hindex filter⟩
    · rw [List.length_append, List.length_singleton, hnext]
      exact ⟨rfl, rfl⟩
    · rw [List.flatten_append, List.flatten_singleton, ← h.result]
    · rw [IsFilter, if_neg hempty]
      exact hfilter

/-- The loop of `StartBlock`. -/
theorem Holds.generateFilters (missing : Nat) (h : Holds policy blocks filters b)
    (hcreate : ∀ index, ∃ filter, createFilter policy (keysIn blocks index) = some filter) :
    ∃ more b', b.generateFilters policy missing = some b' ∧ more.length = missing ∧
      Holds policy blocks (filters ++ more) b' := by
  induction missing generalizing filters b with
  | zero =>
    refine ⟨[], b, rfl, rfl, ?_⟩
    rw [List.append_nil]
    exact h
  | succ missing ih =>
    obtain ⟨filter, b₁, hgenerate, h₁⟩ := h.generateFilter (hcreate _)
    obtain ⟨more, b', hrest, hlength, h'⟩ := ih h₁
    refine ⟨filter :: more, b', ?_, congrArg Nat.succ hlength, ?_⟩
    · rw [FilterBlockBuilder.generateFilters, hgenerate]
      exact hrest
    · rw [List.append_assoc, List.singleton_append] at h'
      exact h'

/-- **One data block**: `StartBlock` and the calls of `AddKey`. -/
theorem Holds.addBlock (h : Holds policy blocks filters b)
    (hcreate : ∀ index, ∃ filter, createFilter policy (keysIn blocks index) = some filter)
    {block : Nat × List Bytes} (hindex : filters.length ≤ block.1 / kFilterBase) :
    ∃ filters' b', b.addBlock policy block = some b' ∧ filters'.length = block.1 / kFilterBase ∧
      Holds policy (blocks ++ [block]) filters' b' := by
  have hoffsets : b.filterOffsets.length = filters.length := by
    rw [h.offsets, List.length_map, List.length_range]
  obtain ⟨more, b₁, hgenerate, hmore, h₁⟩ :=
    h.generateFilters (block.1 / kFilterBase - filters.length) hcreate
  have hlength : (filters ++ more).length = block.1 / kFilterBase := by
    rw [List.length_append, hmore, Nat.add_sub_cancel' hindex]
  obtain ⟨hpending, hresult, hsame⟩ := h₁.pending.addKeys block.2
  refine ⟨filters ++ more, block.2.foldl FilterBlockBuilder.addKey b₁, ?_, hlength, ?_⟩
  · rw [FilterBlockBuilder.addBlock, startBlock, hoffsets, if_pos hindex, hgenerate,
      Option.map_some]
  · constructor
    case pending =>
      rw [hlength, keysIn_append_self, ← hlength]
      exact hpending
    case result => exact hresult.trans h₁.result
    case offsets => exact hsame.trans h₁.offsets
    case each =>
      intro i filter hfilter
      have hi := (List.getElem?_eq_some_iff.mp hfilter).1
      rw [keysIn_append_ne (hlength ▸ hi).ne']
      exact h₁.each i filter hfilter
    case index_le =>
      intro block' hblock'
      rcases List.mem_append.mp hblock' with hold | hnew
      · exact h₁.index_le block' hold
      · rw [List.mem_singleton.mp hnew, hlength]

end Holds

/-- Every prefix of the keys of a range has a filter. -/
def Creates (policy : FilterPolicy) (blocks : List (Nat × List Bytes)) : Prop :=
  ∀ index keys, keys <+: keysIn blocks index → ∃ filter, createFilter policy keys = some filter

section Run

variable {policy : FilterPolicy} {blocks : List (Nat × List Bytes)}

/-- **Every run of calls** with offsets in order. -/
theorem addBlocks_holds (hcreates : Creates policy blocks)
    (hsorted : blocks.Pairwise fun a b => a.1 ≤ b.1) :
    ∃ filters b, addBlocks policy blocks = some b ∧
      (∀ block, blocks.getLast? = some block → filters.length = block.1 / kFilterBase) ∧
      (blocks = [] → filters = []) ∧ Holds policy blocks filters b := by
  induction blocks using List.reverseRecOn with
  | nil => exact ⟨[], new, rfl, nofun, fun _ => rfl, holds_new policy⟩
  | append_singleton blocks block ih =>
    rw [List.pairwise_append] at hsorted
    obtain ⟨hold, -, hle⟩ := hsorted
    have hbefore : Creates policy blocks := fun index keys hkeys =>
      hcreates index keys (hkeys.trans (keysIn_isPrefix blocks [block] index))
    obtain ⟨filters, b, hrun, hlast, hnil, hholds⟩ := ih hbefore hold
    have hindex : filters.length ≤ block.1 / kFilterBase := by
      cases hc : blocks.getLast? with
      | none =>
        rw [hnil (List.getLast?_eq_none_iff.mp hc)]
        exact Nat.zero_le _
      | some block' =>
        rw [hlast block' hc]
        exact Nat.div_le_div_right
          (hle block' (List.mem_of_getLast? hc) block (List.mem_singleton_self block))
    obtain ⟨filters', b', hadd, hlength, hholds'⟩ := hholds.addBlock
      (fun index => hbefore index _ List.prefix_rfl) hindex
    refine ⟨filters', b', runs_snoc.mpr ⟨b, hrun, hadd⟩, ?_, ?_, hholds'⟩
    · intro last hc
      rw [List.getLast?_append, List.getLast?_singleton, Option.some_or] at hc
      rw [← Option.some.inj hc, hlength]
    · intro hnil
      exact absurd hnil (List.append_ne_nil_of_right_ne_nil _ (List.cons_ne_nil _ _))

/-- The contents that `Finish` returns. -/
def contentsOf (filters : List Bytes) : Bytes :=
  filters.flatten ++
    ((List.range (filters.length + 1)).map fun i => uint32 (segmentOffset filters i)).flatMap
      encodeFixed32 ++ [UInt8.ofNat kFilterBaseLg]

theorem Holds.contents {filters : List Bytes} {b : FilterBlockBuilder}
    (h : Holds policy blocks filters b) :
    b.result ++ b.filterOffsets.flatMap encodeFixed32 ++ encodeFixed32 (uint32 b.result.length) ++
      [UInt8.ofNat kFilterBaseLg] = contentsOf filters := by
  rw [contentsOf, List.range_succ, List.map_append, List.map_singleton, segmentOffset_length,
    List.flatMap_append, List.flatMap_singleton, ← h.offsets, ← h.result]
  simp only [List.append_assoc]

/-- The filters of the ranges that are over. -/
theorem Holds.filter {filters : List Bytes} {b : FilterBlockBuilder}
    (h : Holds policy blocks filters b) {index : Nat} (hkeys : keysIn blocks index ≠ [])
    (hindex : index ≠ filters.length) :
    ∃ filter, filters[index]? = some filter ∧
      createFilter policy (keysIn blocks index) = some filter := by
  have hle : index ≤ filters.length := by
    by_contra hgt
    apply hkeys
    apply keysIn_eq_nil
    rintro block hblock rfl
    exact hgt (h.index_le block hblock)
  have hget := List.getElem?_eq_getElem (lt_of_le_of_ne hle hindex)
  have hfilter := h.each index _ hget
  rw [IsFilter, if_neg hkeys] at hfilter
  exact ⟨_, hget, hfilter⟩

/-- **The finished filter block** has a filter for every range with keys. -/
theorem build_filters (hcreates : Creates policy blocks)
    (hsorted : blocks.Pairwise fun a b => a.1 ≤ b.1) :
    ∃ filters, build policy blocks = some (contentsOf filters) ∧
      ∀ index, keysIn blocks index ≠ [] → ∃ filter, filters[index]? = some filter ∧
        createFilter policy (keysIn blocks index) = some filter := by
  obtain ⟨filters, b, hrun, -, -, hholds⟩ := addBlocks_holds hcreates hsorted
  have hbuild : build policy blocks = b.finish policy := by
    rw [build, hrun, Option.bind_some]
  have hstart : b.start = [] ↔ keysIn blocks filters.length = [] := by
    rw [hholds.pending.start, List.map_eq_nil_iff, List.range_eq_nil, List.length_eq_zero_iff]
  rw [hbuild]
  unfold finish
  by_cases hempty : keysIn blocks filters.length = []
  · rw [if_pos (hstart.mpr hempty)]
    refine ⟨filters, congrArg some hholds.contents, ?_⟩
    intro index hkeys
    exact hholds.filter hkeys fun heq => hkeys (heq ▸ hempty)
  · rw [if_neg fun h => hempty (hstart.mp h)]
    obtain ⟨filter, b', hgenerate, hholds'⟩ := hholds.generateFilter
      (hcreates _ _ List.prefix_rfl)
    rw [hgenerate]
    refine ⟨filters ++ [filter], congrArg some hholds'.contents, ?_⟩
    intro index hkeys
    apply hholds'.filter hkeys
    rintro rfl
    apply hkeys
    apply keysIn_eq_nil
    intro block hblock
    rw [List.length_append, List.length_singleton]
    exact (Nat.lt_succ_of_le (hholds.index_le block hblock)).ne

end Run

end FilterBlockBuilder

/-! ## Reading -/

namespace FilterBlockReader

open FilterBlockBuilder

variable {policy : FilterPolicy} {filters : List Bytes}

theorem length_contentsOf (filters : List Bytes) :
    (contentsOf filters).length = filters.flatten.length + (filters.length + 1) * 4 + 1 := by
  rw [contentsOf, List.length_append, List.length_append, length_flatMap_encodeFixed32,
    List.length_map, List.length_range, List.length_singleton]

/-- The words of the offset array. The last one is where the array starts. -/
theorem decode_contentsOf (hsize : (contentsOf filters).length < 2 ^ 32) {j : Nat}
    (hj : j ≤ filters.length) :
    decodeFixed32 ((contentsOf filters).drop (filters.flatten.length + j * 4)) =
      segmentOffset filters j := by
  have hsmall : segmentOffset filters j < 2 ^ 32 := by
    refine (segmentOffset_le hj).trans_lt ?_
    rw [segmentOffset_length]
    rw [length_contentsOf] at hsize
    omega
  have harray : (contentsOf filters).drop filters.flatten.length =
      ((List.range (filters.length + 1)).map fun i => uint32 (segmentOffset filters i)).flatMap
        encodeFixed32 ++ [UInt8.ofNat kFilterBaseLg] := by
    rw [contentsOf, List.append_assoc, List.drop_left]
  apply decodeFixed32_array harray _ hsmall
  rw [List.getElem?_map, List.getElem?_range (Nat.lt_succ_of_le hj), Option.map_some,
    uint32_of_lt hsmall]

theorem new_contentsOf (hsize : (contentsOf filters).length < 2 ^ 32) :
    new policy (contentsOf filters) =
      ⟨policy, contentsOf filters, filters.flatten.length, filters.length, kFilterBaseLg⟩ := by
  have hlength := length_contentsOf filters
  have hlast : (contentsOf filters).getD ((contentsOf filters).length - 1) 0 =
      UInt8.ofNat kFilterBaseLg := by
    rw [List.getD_eq_getElem?_getD, contentsOf, List.length_append, List.length_singleton,
      Nat.add_sub_cancel, List.getElem?_append_right le_rfl, Nat.sub_self]
    rfl
  have hword : decodeFixed32 ((contentsOf filters).drop ((contentsOf filters).length - 5)) =
      filters.flatten.length := by
    have hplace : (contentsOf filters).length - 5 =
        filters.flatten.length + filters.length * 4 := by
      omega
    rw [hplace, decode_contentsOf hsize le_rfl, segmentOffset_length]
  unfold new
  dsimp only
  rw [hlast, hword, if_neg (by omega), if_neg (by omega), hlength]
  congr 1
  omega

/-- **Reading a filter block**: the filter of the range is asked. -/
theorem keyMayMatch_contentsOf (hsize : (contentsOf filters).length < 2 ^ 32) {blockOffset : Nat}
    {filter : Bytes} (hfilter : filters[blockOffset / kFilterBase]? = some filter) (key : Bytes) :
    (new policy (contentsOf filters)).keyMayMatch blockOffset key =
      policy.keyMayMatch key filter := by
  have hindex := (List.getElem?_eq_some_iff.mp hfilter).1
  have hshift : blockOffset >>> kFilterBaseLg = blockOffset / kFilterBase :=
    Nat.shiftRight_eq_div_pow _ _
  have hstart := decode_contentsOf hsize hindex.le
  have hlimit := decode_contentsOf hsize (show blockOffset / kFilterBase + 1 ≤ _ from hindex)
  rw [Nat.succ_mul, ← Nat.add_assoc] at hlimit
  have hle := segmentOffset_succ hfilter
  have hend : segmentOffset filters (blockOffset / kFilterBase + 1) ≤ filters.flatten.length := by
    rw [← segmentOffset_length]
    exact segmentOffset_le (Nat.succ_le_of_lt hindex)
  have hslice : ((contentsOf filters).drop (segmentOffset filters (blockOffset / kFilterBase))).take
      filter.length = filter := by
    rw [contentsOf, List.append_assoc, List.drop_append_of_le_length (by omega),
      drop_segmentOffset hfilter, List.append_assoc, List.take_left]
  rw [new_contentsOf hsize]
  unfold keyMayMatch
  dsimp only
  rw [hshift, if_pos hindex, hstart, hlimit, if_pos ⟨by omega, hend⟩, hle,
    Nat.add_sub_cancel_left, hslice]

end FilterBlockReader

/-! ## No false negatives -/

namespace FilterBlockBuilder

variable {blocks : List (Nat × List Bytes)}

/-- `num_keys` fits an `int`. -/
theorem createFilter_of_lt (policy : FilterPolicy) {keys : List Bytes} (h : keys.length < 2 ^ 31) :
    createFilter policy keys = policy.createFilter keys := by
  have hmod : keys.length % 2 ^ 32 = keys.length := Nat.mod_eq_of_lt (h.trans (by decide))
  rw [createFilter, hmod, if_pos h, List.take_length]

theorem creates_of_lt {policy : FilterPolicy}
    (hfew : ∀ index, (keysIn blocks index).length < 2 ^ 31)
    (hcreate : ∀ index keys, keys <+: keysIn blocks index →
      ∃ filter, policy.createFilter keys = some filter) : Creates policy blocks := by
  intro index keys hkeys
  rw [createFilter_of_lt policy (hkeys.length_le.trans_lt (hfew index))]
  exact hcreate index keys hkeys

/-- A policy that matches some keys with the filter of their range. -/
theorem build_matches {policy : FilterPolicy}
    (hfew : ∀ index, (keysIn blocks index).length < 2 ^ 31)
    (hsorted : blocks.Pairwise fun a b => a.1 ≤ b.1)
    (hcreate : ∀ index keys, keys <+: keysIn blocks index →
      ∃ filter, policy.createFilter keys = some filter) :
    ∃ contents, build policy blocks = some contents ∧
      (contents.length < 2 ^ 32 → ∀ block ∈ blocks, block.2 ≠ [] → ∃ filter,
        policy.createFilter (keysIn blocks (block.1 / kFilterBase)) = some filter ∧
        ∀ key, (FilterBlockReader.new policy contents).keyMayMatch block.1 key =
          policy.keyMayMatch key filter) := by
  obtain ⟨filters, hbuild, hfilters⟩ := build_filters (creates_of_lt hfew hcreate) hsorted
  refine ⟨_, hbuild, ?_⟩
  intro hsize block hblock hkeys
  obtain ⟨key, hkey⟩ := List.exists_mem_of_ne_nil _ hkeys
  obtain ⟨filter, hget, hfilter⟩ :=
    hfilters _ (List.ne_nil_of_mem (mem_keysIn hblock hkey))
  rw [createFilter_of_lt policy (hfew _)] at hfilter
  exact ⟨filter, hfilter, FilterBlockReader.keyMayMatch_contentsOf hsize hget⟩

/-- **Filter blocks have no false negatives**, with `BloomFilterPolicy` or through
`InternalFilterPolicy`. -/
theorem bloom_build_matches {bitsPerKey : Nat} {policy : FilterPolicy}
    (hpolicy : policy = (BloomFilterPolicy.new bitsPerKey).policy ∨
      policy = internalFilterPolicy (BloomFilterPolicy.new bitsPerKey).policy ∧
        ∀ block ∈ blocks, ∀ key ∈ block.2, 8 ≤ key.length)
    (hsorted : blocks.Pairwise fun a b => a.1 ≤ b.1)
    (hfew : ∀ index, (keysIn blocks index).length < 2 ^ 31)
    (hsize : ∀ contents, build policy blocks = some contents → contents.length < 2 ^ 32) :
    ∃ contents, build policy blocks = some contents ∧
      ∀ block ∈ blocks, ∀ key ∈ block.2,
        (FilterBlockReader.new policy contents).keyMayMatch block.1 key = some true := by
  have hbloom := BloomFilterPolicy.noFalseNegatives bitsPerKey
  -- the filter of every prefix of the keys of a range matches these keys
  have hmatches : ∀ index keys, keys <+: keysIn blocks index →
      ∃ filter, policy.createFilter keys = some filter ∧
        ∀ key ∈ keys, policy.keyMayMatch key filter = some true := by
    intro index keys hkeys
    have hlength := hkeys.length_le.trans_lt (hfew index)
    rcases hpolicy with rfl | ⟨rfl, hlong⟩
    · exact hbloom keys hlength
    · have hlong' : ∀ key ∈ keys, 8 ≤ key.length := by
        intro key hkey
        obtain ⟨block, hblock, hmem⟩ := List.mem_flatMap.mp (hkeys.subset hkey)
        exact hlong block (List.mem_filter.mp hblock).1 key hmem
      obtain ⟨filter, hfilter, hmatch⟩ := internalFilterPolicy_matches hbloom hlength hlong'
      exact ⟨filter, hfilter, fun key hkey => hmatch key hkey key (hlong' key hkey) rfl⟩
  obtain ⟨contents, hbuild, hreads⟩ := build_matches hfew hsorted fun index keys hkeys =>
    (hmatches index keys hkeys).imp fun _ h => h.1
  refine ⟨contents, hbuild, ?_⟩
  intro block hblock key hkey
  obtain ⟨filter, hfilter, hread⟩ :=
    hreads (hsize contents hbuild) block hblock (List.ne_nil_of_mem hkey)
  obtain ⟨filter', hfilter', hmatch⟩ :=
    hmatches (block.1 / kFilterBase) _ List.prefix_rfl
  rw [hfilter] at hfilter'
  rw [hread, Option.some.inj hfilter']
  exact hmatch key (mem_keysIn hblock hkey)

/-- Two data blocks in one range of the file, an empty range, and another one. -/
def threeBlocks : List (Nat × List Bytes) :=
  [(0, [[1], [2]]), (2000, [[3]]), (9000, [[4], [5]])]

theorem bloom_build_matches_threeBlocks :
    ∃ contents, build (BloomFilterPolicy.new 10).policy threeBlocks = some contents ∧
      ∀ block ∈ threeBlocks, ∀ key ∈ block.2,
        (FilterBlockReader.new (BloomFilterPolicy.new 10).policy contents).keyMayMatch block.1 key =
          some true := by
  apply bloom_build_matches (Or.inl rfl) (by decide)
  · intro index
    have hle : (keysIn threeBlocks index).length ≤ (threeBlocks.flatMap Prod.snd).length :=
      (List.filter_sublist.flatMap Prod.snd).length_le
    exact hle.trans_lt (by decide)
  · intro contents hbuild
    have hlength : (build (BloomFilterPolicy.new 10).policy threeBlocks).map List.length =
        some 43 := by decide +kernel
    rw [hbuild] at hlength
    have hcontents : contents.length = 43 := Option.some.inj hlength
    rw [hcontents]
    decide

/-! ## Too many keys -/

section OneBlock

variable {policy : FilterPolicy} {keys : List Bytes}

theorem keysIn_singleton (keys : List Bytes) : keysIn [(0, keys)] 0 = keys := by
  have hself : [((0 : Nat), keys)].filter (fun block => block.1 / kFilterBase = 0) =
      [(0, keys)] := by
    simp [kFilterBase]
  rw [keysIn, hself, List.flatMap_singleton]

/-- The builder after one data block at the start of the file. -/
theorem addBlocks_singleton (keys : List Bytes)
    (hempty : ∃ filter, policy.createFilter [] = some filter) :
    ∃ b, addBlocks policy [(0, keys)] = some b ∧ Holds policy [(0, keys)] [] b := by
  have hcreate : ∀ index, ∃ filter, createFilter policy (keysIn [] index) = some filter := by
    intro index
    show ∃ filter, createFilter policy [] = some filter
    rw [createFilter_of_lt policy (by decide)]
    exact hempty
  obtain ⟨filters, b, hadd, hlength, hholds⟩ :=
    (holds_new policy).addBlock hcreate (show 0 ≤ (0, keys).1 / kFilterBase from Nat.zero_le _)
  obtain rfl := List.length_eq_zero_iff.mp (hlength.trans (Nat.zero_div _))
  refine ⟨b, ?_, hholds⟩
  rw [addBlocks, runs, hadd]
  rfl

theorem build_singleton (hempty : ∃ filter, policy.createFilter [] = some filter)
    (hkeys : keys ≠ []) :
    build policy [(0, keys)] =
      (createFilter policy keys).map fun filter => contentsOf [filter] := by
  obtain ⟨b, hrun, hholds⟩ := addBlocks_singleton keys hempty
  have hpending : Pending b keys := by
    have h := hholds.pending
    rwa [List.length_nil, keysIn_singleton] at h
  have hstart : b.start ≠ [] := by
    rw [hpending.start]
    exact fun h =>
      hkeys (List.length_eq_zero_iff.mp (List.range_eq_nil.mp (List.map_eq_nil_iff.mp h)))
  rw [build, hrun, Option.bind_some, finish, if_neg hstart]
  cases hcreate : createFilter policy keys with
  | none =>
    have hnone : b.generateFilter policy = none := by
      rw [generateFilter, if_neg (fun h => hstart (List.length_eq_zero_iff.mp h)),
        hpending.tmpKeys, hcreate]
    rw [hnone]
    rfl
  | some filter =>
    obtain ⟨filter', b', hgenerate, hholds'⟩ := hholds.generateFilter
      (by rw [List.length_nil, keysIn_singleton]; exact ⟨filter, hcreate⟩)
    have hfilter : IsFilter policy (keysIn [(0, keys)] 0) filter' := hholds'.each 0 filter' rfl
    rw [keysIn_singleton, IsFilter, if_neg hkeys, hcreate] at hfilter
    rw [hgenerate, Option.some.inj hfilter]
    exact congrArg some hholds'.contents

end OneBlock

/-- With `2 ^ 32` keys in a range the filter is made of none of them, and with `2 ^ 31` there is
no filter. -/
theorem bloom_build_misses :
    (∃ keys contents, keys.length = 2 ^ 32 ∧ [1] ∈ keys ∧
      build (BloomFilterPolicy.new 10).policy [(0, keys)] = some contents ∧
      contents.length < 2 ^ 32 ∧
      (FilterBlockReader.new (BloomFilterPolicy.new 10).policy contents).keyMayMatch 0 [1] =
        some false) ∧
    ∃ keys, keys.length = 2 ^ 31 ∧ build (BloomFilterPolicy.new 10).policy [(0, keys)] = none := by
  have hempty : ∃ filter, (BloomFilterPolicy.new 10).policy.createFilter [] = some filter :=
    ⟨_, rfl⟩
  have hmany : ∀ n : Nat, n ≠ 0 → ∃ keys : List Bytes, keys.length = n ∧ [1] ∈ keys := by
    intro n hn
    exact ⟨List.replicate n [1], List.length_replicate, List.mem_replicate.mpr ⟨hn, rfl⟩⟩
  constructor
  · obtain ⟨keys, hlength, hmem⟩ := hmany (2 ^ 32) (by decide)
    have hnone : createFilter (BloomFilterPolicy.new 10).policy keys =
        (BloomFilterPolicy.new 10).policy.createFilter [] := by
      rw [createFilter, hlength]
      rfl
    have hbuild := build_singleton hempty (List.ne_nil_of_mem hmem)
    rw [hnone] at hbuild
    refine ⟨keys, _, hlength, hmem, hbuild, by decide +kernel, ?_⟩
    rw [FilterBlockReader.keyMayMatch_contentsOf (by decide +kernel) (by rfl)]
    decide +kernel
  · obtain ⟨keys, hlength, hmem⟩ := hmany (2 ^ 31) (by decide)
    have hnone : createFilter (BloomFilterPolicy.new 10).policy keys = none := by
      rw [createFilter, hlength]
      rfl
    refine ⟨keys, hlength, ?_⟩
    rw [build_singleton hempty (List.ne_nil_of_mem hmem), hnone]
    rfl

end FilterBlockBuilder

end Lpad.Table
