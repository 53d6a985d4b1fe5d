import Lpad.Enclave.MergeSpec
import Lpad.Format.InternalKey

/-!
# In which order the enclave merge emits

The channels of a compaction are sorted by `InternalKeyComparator`, while
`onec_compare` orders the heads by `memcmp` over the 24 key bytes. The two agree
on different user keys, since the user key is a prefix. On one user key they read
the same eight bytes in opposite ways: the comparator decodes a little-endian
number and puts the larger first, `memcmp` starts at the low byte (the value
type) and puts the smaller first.

`onecEnclCompact_sorted_iff` says exactly which inputs still come out in the
comparator's order. An overwritten key spread over two channels is usually not
among them (`onecEnclCompact_newest_last`).
-/

namespace Lpad

/-- The inputs of an enclave compaction over 16-byte user keys. -/
structure SortedInputs (n : Nat) (chans : Nat → List Record) : Prop where
  ways : n ≤ 10
  keyLength : ∀ c < n, ∀ r ∈ chans c, r.key.length = 24
  sorted : ∀ c < n, (chans c).Pairwise fun a b => internalKeyCompare a.key b.key = .lt
  distinct : ∀ c < n, ∀ d < n, c ≠ d → ∀ a ∈ chans c, ∀ b ∈ chans d, a.key ≠ b.key

/-- Strictly increasing under `InternalKeyComparator`. -/
def InOrder (items : List Record) : Prop :=
  items.Pairwise fun a b => internalKeyCompare a.key b.key = .lt

instance (items : List Record) : Decidable (InOrder items) := by
  unfold InOrder
  infer_instance

/-- For every record and every other channel: if the first record there that the
comparator puts later has the same user key, then `memcmp` puts it later too. -/
def TrailersAgree (n : Nat) (chans : Nat → List Record) : Prop :=
  ∀ c < n, ∀ a ∈ chans c, ∀ d < n, d ≠ c → ∀ b,
    (chans d).find? (fun b => decide (internalKeyCompare a.key b.key = .lt)) = some b →
    extractUserKey b.key = extractUserKey a.key → memcmp a.key b.key = .lt

instance {o : Option Record} {P : Record → Prop} [∀ b, Decidable (P b)] :
    Decidable (∀ b, o = some b → P b) :=
  match o with
  | none => isTrue fun _ h => nomatch h
  | some b => decidable_of_iff (P b) ⟨fun h _ heq => Option.some.inj heq ▸ h, fun h => h b rfl⟩

set_option synthInstance.maxSize 1000 in
instance (n : Nat) (chans : Nat → List Record) : Decidable (TrailersAgree n chans) := by
  unfold TrailersAgree
  infer_instance

/-! ## Keys of 24 bytes -/

theorem extractUserKey_length {key : Bytes} (h : key.length = 24) :
    (extractUserKey key).length = 16 := by
  rw [extractUserKey, List.length_take]
  omega

/-- The user key is a prefix of the internal key, so `memcmp` agrees with the
comparator when the user keys differ. -/
theorem memcmp_of_userKey_lt {a b : Bytes} (ha : a.length = 24) (hb : b.length = 24)
    (h : extractUserKey a < extractUserKey b) : memcmp a b = .lt := by
  have hlen : (extractUserKey a).length = (extractUserKey b).length := by
    rw [extractUserKey_length ha, extractUserKey_length hb]
  rw [extractUserKey_append_trailer a, extractUserKey_append_trailer b,
    memcmp_append _ _ hlen, (memcmp_lt_iff hlen).mpr h]
  rfl

theorem prefix24_eq {r : Record} (h : r.key.length = 24) : r.prefix24 = r.key :=
  List.take_of_length_le (by omega)

/-- Records by the rank of their key. -/
def Record.rank (r : Record) : KeyRank := keyRank r.key

theorem inOrder_iff {items : List Record} :
    InOrder items ↔ items.Pairwise fun a b => a.rank < b.rank := by
  rw [InOrder]
  simp only [internalKeyCompare_lt_iff, Record.rank]

theorem SortedInputs.sortedChannels {n : Nat} {chans : Nat → List Record}
    (h : SortedInputs n chans) : SortedChannels Record.rank Record.prefix24 n chans := by
  constructor
  · intro c hc
    exact inOrder_iff.mp (h.sorted c hc)
  · intro c hc d hd hcd a ha b hb
    have hla := h.keyLength c hc a ha
    have hlb := h.keyLength d hd b hb
    have hne := h.distinct c hc d hd hcd a ha b hb
    refine ⟨fun he => hne (keyRank_injective (by omega) (by omega) he), ?_⟩
    rwa [prefix24_eq hla, prefix24_eq hlb]

theorem SortedInputs.headsAgree_iff {n : Nat} {chans : Nat → List Record}
    (h : SortedInputs n chans) :
    HeadsAgree Record.rank Record.prefix24 n chans ↔ TrailersAgree n chans := by
  have hpred : ∀ a : Record, (fun b : Record => decide (a.rank < b.rank))
      = fun b => decide (internalKeyCompare a.key b.key = .lt) := by
    intro a
    funext b
    rw [decide_eq_decide, internalKeyCompare_lt_iff]
    rfl
  -- on the records of the channels the measure of the picks is the key itself
  have hmeasure : ∀ c < n, ∀ a ∈ chans c, ∀ d < n, ∀ b ∈ chans d,
      (a.prefix24 < b.prefix24 ↔ memcmp a.key b.key = .lt) := by
    intro c hc a ha d hd b hb
    have hla := h.keyLength c hc a ha
    have hlb := h.keyLength d hd b hb
    rw [prefix24_eq hla, prefix24_eq hlb, memcmp_lt_iff (by omega)]
  constructor
  · intro hagree c hc a ha d hd hdc b hb _
    rw [← hpred] at hb
    exact (hmeasure c hc a ha d hd b (List.mem_of_find?_eq_some hb)).mp
      (hagree c hc a ha d hd hdc b hb)
  · intro hagree c hc a ha d hd hdc b hb
    rw [hpred] at hb
    have hmem := List.mem_of_find?_eq_some hb
    rw [hmeasure c hc a ha d hd b hmem]
    have hlt := List.find?_some hb
    rw [decide_eq_true_eq, internalKeyCompare_lt_iff, keyRank_lt_iff] at hlt
    rcases hlt with huser | ⟨huser, -⟩
    · exact memcmp_of_userKey_lt (h.keyLength c hc a ha) (h.keyLength d hd b hmem) huser
    · exact hagree c hc a ha d hd hdc b hb huser.symm

/-- **When the flushed sequence is in the comparator's order.** For every clean
`g_arg_t` and every sorted inputs with 16-byte user keys the compaction returns,
and what it flushes increases strictly under `InternalKeyComparator` if and only
if the trailers agree. -/
theorem onecEnclCompact_sorted_iff {n : Nat} {chans : Nat → List Record}
    (h : SortedInputs n chans) {arg : GArg} (hclean : arg.Clean) {fuel : Nat}
    (hfuel : ((List.range n).flatMap chans).length < fuel) :
    ∃ w, onecEnclCompact fuel n arg chans = some w ∧
      (InOrder w.flushed.flatten ↔ TrailersAgree n chans) := by
  obtain ⟨w, out, hrun, hdraws, hitems, -, hgreedy⟩ := onecEnclCompact_spec hclean hfuel
  have hcomp : Comparable n chans :=
    LongKeys.comparable fun c hc r hr => (h.keyLength c hc r hr).ge
  have hslot : ∀ c < n, ∀ r ∈ chans c, r.key.length ≤ 32 :=
    fun c hc r hr => (h.keyLength c hc r hr).trans_le (by decide)
  refine ⟨w, hrun, ?_⟩
  rw [inOrder_iff, ← h.headsAgree_iff, ← hdraws.sorted_iff (hgreedy hcomp) h.sortedChannels]
  have hranks : w.flushed.flatten.map Record.rank = out.map Record.rank := by
    have hsame := congrArg (List.map keyRank) (keys_of_preserved hdraws hslot hitems)
    rwa [List.map_map, List.map_map] at hsame
  rw [← List.pairwise_map (f := Record.rank) (R := (· < ·)), hranks, List.pairwise_map]

/-! ## An overwritten key in two channels -/

/-- One 16-byte user key written twice: the newer entry, sequence 2, in channel 0
and the older one, sequence 1, in channel 1. -/
def overwritten : Nat → List Record
  | 0 => [⟨appendInternalKey ⟨List.replicate 16 107, 2, .kTypeValue⟩, [20]⟩]
  | 1 => [⟨appendInternalKey ⟨List.replicate 16 107, 1, .kTypeValue⟩, [10]⟩]
  | _ => []

theorem overwritten_sortedInputs : SortedInputs 2 overwritten := by
  refine ⟨by decide, by decide, by decide, ?_⟩
  intro c hc d hd
  rcases (by omega : c = 0 ∨ c = 1) with rfl | rfl <;>
    rcases (by omega : d = 0 ∨ d = 1) with rfl | rfl <;> decide

theorem onecEnclCompact_sorted_iff_overwritten :
    ∃ w, onecEnclCompact 3 2 GArg.init overwritten = some w ∧
      (InOrder w.flushed.flatten ↔ TrailersAgree 2 overwritten) :=
  onecEnclCompact_sorted_iff overwritten_sortedInputs GArg.init_clean (by decide)

/-- `memcmp` prefers the smaller sequence number, so the older entry is flushed
first. -/
theorem onecEnclCompact_newest_last :
    SortedInputs 2 overwritten ∧ GArg.init.Clean ∧
    ∃ w, onecEnclCompact 3 2 GArg.init overwritten = some w ∧ ¬ InOrder w.flushed.flatten := by
  refine ⟨overwritten_sortedInputs, GArg.init_clean, ?_⟩
  have hsome : ((onecEnclCompact 3 2 GArg.init overwritten).map fun w => w.flushed.flatten)
      = some (overwritten 1 ++ overwritten 0) := by decide +kernel
  obtain ⟨w, hw, hflat⟩ := Option.map_eq_some_iff.mp hsome
  refine ⟨w, hw, ?_⟩
  rw [hflat]
  decide

end Lpad
