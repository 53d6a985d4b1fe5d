import Lpad.Base.Merge
import Lpad.Enclave.ChannelSpec
import Mathlib.Data.List.Forall2

/-!
# The enclave merge delivers every record once

The loop of `onec_EnclCompact` is simulated by draws from the pending lists of
the channels (`Draws` of `Base.Merge`): each round of the loop draws one head,
and the loop ends exactly when every channel is empty. On the output side
`Merge.Emitted` ties the flushed batches and the slots still in the output buffer
to the records drawn so far.

`onecEnclCompact_spec` collects what one call does from a clean `g_arg_t`,
whatever bytes an earlier compaction left in it: it terminates, its output is an
interleaving of the channels in which every record that fits its slot is
byte-for-byte the input record, and `g_arg_t` is clean again.
-/

namespace Lpad

/-! ## The output buffer -/

/-- A flushed record against the record it stands for: equal wherever the slot is
long enough. -/
structure Preserved (r item : Record) : Prop where
  key : r.key.length ≤ 32 → item.key = r.key
  value : r.value.length ≤ 100 → item.value = r.value

theorem Preserved.eq {r item : Record} (h : Preserved r item) (hkey : r.key.length ≤ 32)
    (hvalue : r.value.length ≤ 100) : item = r := by
  cases item
  cases r
  rw [Record.mk.injEq]
  exact ⟨h.key hkey, h.value hvalue⟩

theorem Carries.preserved {keyData : Nat → Byte} {keySizes : Nat → Nat}
    {valueData : Nat → Byte} {valueSizes : Nat → Nat} {slot : Nat} {r : Record}
    (h : Carries keyData keySizes valueData valueSizes slot r) :
    Preserved r ⟨readBytes keyData (slot * 32) (keySizes slot),
      readBytes valueData (slot * 100) (valueSizes slot)⟩ := by
  constructor
  · intro hk
    have hb := h.keyBytes
    rw [Nat.min_eq_right hk, List.take_of_length_le hk] at hb
    show readBytes keyData (slot * 32) (keySizes slot) = r.key
    rw [h.keySize, hb]
  · intro hv
    have hb := h.valueBytes
    rw [Nat.min_eq_right hv, List.take_of_length_le hv] at hb
    show readBytes valueData (slot * 100) (valueSizes slot) = r.value
    rw [h.valueSize, hb]

def OutBuffer.Carries (out : OutBuffer) (slot : Nat) (r : Record) : Prop :=
  Lpad.Carries out.key out.keySizes out.value out.valueSizes slot r

/-- The filled slots of the output buffer carry `cur`, in order. -/
structure OutBuffer.Buffers (out : OutBuffer) (cur : List Record) : Prop where
  count : out.index = cur.length
  room : cur.length ≤ bufferSize
  slots : ∀ k r, cur[k]? = some r → out.Carries k r

theorem OutBuffer.Buffers.slices {out : OutBuffer} {cur : List Record}
    (h : out.Buffers cur) : List.Forall₂ Preserved cur out.slices := by
  rw [List.forall₂_iff_get]
  refine ⟨by simp [OutBuffer.slices, h.count], ?_⟩
  intro i hi hi'
  have hc := h.slots i cur[i] (List.getElem?_eq_getElem hi)
  simpa [OutBuffer.slices] using Carries.preserved hc

/-- The copy of one slot: the new output slot carries the same record, the older
ones are untouched. -/
theorem OutBuffer.Buffers.put {out : OutBuffer} {cur : List Record} {ch : Channel}
    {r : Record} (h : out.Buffers cur) (hroom : cur.length < bufferSize)
    (hr : ch.Carries ch.inIndex.toNat r) : (out.put ch).Buffers (cur ++ [r]) := by
  refine ⟨by simp [OutBuffer.put, h.count], by rw [List.length_append]; exact hroom, ?_⟩
  intro k r' hk
  rcases Nat.lt_or_ge k cur.length with hlt | hge
  · -- an older slot
    rw [List.getElem?_append_left hlt] at hk
    have hc := h.slots k r' hk
    have hne : k ≠ out.index := by rw [h.count]; omega
    refine ⟨?_, ?_, ?_, ?_⟩
    · rw [← hc.keySize]
      exact Function.update_of_ne hne _ _
    · rw [← hc.keyBytes]
      exact readBytes_writeBytes_apart (slots_apart hne (by omega) (by simp))
    · rw [← hc.valueSize]
      exact Function.update_of_ne hne _ _
    · rw [← hc.valueBytes]
      exact readBytes_writeBytes_apart (slots_apart hne (by omega) (by simp))
  · -- the slot just written
    have hkey : k = out.index := by
      have hlen := (List.getElem?_eq_some_iff.mp hk).1
      rw [List.length_append, List.length_singleton] at hlen
      rw [h.count]
      omega
    subst hkey
    obtain rfl : r = r' := by
      rw [h.count, List.getElem?_append_right (le_refl _)] at hk
      simpa using hk
    have hkw := readBytes_writeBytes out.key (out.index * 32)
      (readBytes ch.keyData (ch.inIndex.toNat * 32) 32)
    have hvw := readBytes_writeBytes out.value (out.index * 100)
      (readBytes ch.valueData (ch.inIndex.toNat * 100) 100)
    rw [readBytes_length] at hkw hvw
    refine ⟨?_, ?_, ?_, ?_⟩
    · rw [← hr.keySize]
      exact Function.update_self _ _ _
    · rw [← hr.keyBytes]
      have ht := congrArg (List.take (min 32 r.key.length)) hkw
      rwa [readBytes_take, readBytes_take, Nat.min_eq_left (by omega)] at ht
    · rw [← hr.valueSize]
      exact Function.update_self _ _ _
    · rw [← hr.valueBytes]
      have ht := congrArg (List.take (min 100 r.value.length)) hvw
      rwa [readBytes_take, readBytes_take, Nat.min_eq_left (by omega)] at ht

/-- The records written so far: those in flushed batches, then those buffered. -/
def Merge.Emitted (w : Merge) (written : List Record) : Prop :=
  ∃ done cur, written = done ++ cur ∧
    List.Forall₂ Preserved done w.flushed.flatten ∧ w.arg.out.Buffers cur

theorem Merge.Emitted.flush {w : Merge} {written : List Record} (h : w.Emitted written) :
    List.Forall₂ Preserved written w.flush.flushed.flatten := by
  obtain ⟨done, cur, rfl, hdone, hcur⟩ := h
  have hflat : w.flush.flushed.flatten = w.flushed.flatten ++ w.arg.out.slices := by
    simp [Merge.flush]
  rw [hflat]
  exact List.rel_append hdone hcur.slices

theorem OutBuffer.buffers_nil {out : OutBuffer} (h : out.index = 0) : out.Buffers [] :=
  ⟨h, Nat.zero_le _, by simp⟩

theorem Merge.Emitted.onecWriteKV {w : Merge} {written : List Record} {c : Nat} {r : Record}
    (h : w.Emitted written)
    (hr : (w.arg.chan c).Carries (w.arg.chan c).inIndex.toNat r) :
    (w.onecWriteKV c).Emitted (written ++ [r]) := by
  by_cases hfull : w.arg.out.index = bufferSize
  · -- the buffer wraps: everything so far is flushed, the record starts a new one
    refine ⟨written, [r], rfl, ?_, ?_⟩
    · simpa [Merge.onecWriteKV, hfull] using h.flush
    · have hnil : w.flush.arg.out.Buffers [] := OutBuffer.buffers_nil rfl
      have hr' : (w.flush.arg.chan c).Carries (w.flush.arg.chan c).inIndex.toNat r := hr
      simpa [Merge.onecWriteKV, hfull] using hnil.put (by decide) hr'
  · obtain ⟨done, cur, rfl, hdone, hcur⟩ := h
    have hroom : cur.length < bufferSize := by
      have := hcur.room
      rw [hcur.count] at hfull
      omega
    refine ⟨done, cur ++ [r], by simp, ?_, ?_⟩
    · simpa [Merge.onecWriteKV, hfull] using hdone
    · simpa [Merge.onecWriteKV, hfull] using hcur.put hroom hr

/-! ## The channels -/

/-- Every channel below `n` still has the records `chans` lists for it. -/
def Merge.Pending (w : Merge) (n : Nat) (chans : Nat → List Record) : Prop :=
  ∀ c < n, (w.arg.chan c).Holds (w.iter c) (chans c)

/-- Reading channels leaves the output and the channels from `n` on alone. -/
structure Merge.SameOutput (n : Nat) (w w' : Merge) : Prop where
  out : w'.arg.out = w.arg.out
  flushed : w'.flushed = w.flushed
  nexts : w'.nexts = w.nexts
  beyond : ∀ c, n ≤ c → w'.arg.chan c = w.arg.chan c

theorem Merge.SameOutput.refl (n : Nat) (w : Merge) : SameOutput n w w :=
  ⟨rfl, rfl, rfl, fun _ _ => rfl⟩

theorem Merge.SameOutput.trans {n : Nat} {w₁ w₂ w₃ : Merge} (h : SameOutput n w₁ w₂)
    (h' : SameOutput n w₂ w₃) : SameOutput n w₁ w₃ :=
  ⟨h'.out.trans h.out, h'.flushed.trans h.flushed, h'.nexts.trans h.nexts,
    fun c hc => (h'.beyond c hc).trans (h.beyond c hc)⟩

theorem Merge.SameOutput.emitted {n : Nat} {w w' : Merge} {written : List Record}
    (h : SameOutput n w w') (he : w.Emitted written) : w'.Emitted written := by
  rw [Emitted, h.out, h.flushed]
  exact he

theorem Merge.sameOutput_setChannel {n c : Nat} (hc : c < n) (w : Merge) (ch : Channel)
    (rest : List Record) : SameOutput n w (w.setChannel c ch rest) :=
  ⟨rfl, rfl, rfl, fun d hd => Function.update_of_ne (by omega : d ≠ c) _ _⟩

theorem Merge.Pending.setChannel {w : Merge} {n c : Nat} {chans : Nat → List Record}
    {ch : Channel} {rest pend : List Record} (h : w.Pending n chans)
    (hch : ch.Holds rest pend) :
    (w.setChannel c ch rest).Pending n (Function.update chans c pend) := by
  intro d hd
  by_cases hdc : d = c
  · subst hdc
    simpa [Merge.setChannel] using hch
  · simpa [Merge.setChannel, hdc] using h d hd

theorem Merge.onecReadKV_eq {w : Merge} {c : Nat} {ok : Bool} {ch : Channel}
    {rest : List Record}
    (h : (w.arg.chan c).readKV (w.iter c) = (ok, ch, rest)) :
    w.onecReadKV c = (ok, w.setChannel c ch rest) := by
  rw [onecReadKV, h]

/-- Reading a channel whose cursor is not on a record: it ends on the next record
or, when the channel is empty, at `-1`; nothing else changes. -/
theorem Merge.onecReadKV_refresh {w : Merge} {n c : Nat} {chans : Nat → List Record}
    (h : w.Pending n chans) (hc : c < n) (hr : ¬ (w.arg.chan c).Ready) :
    ∃ w', w.onecReadKV c = (decide (chans c ≠ []), w') ∧ w'.Pending n chans ∧
      SameOutput n w w' ∧ (∀ d, d ≠ c → w'.arg.chan d = w.arg.chan d) ∧
      (chans c ≠ [] → (w'.arg.chan c).Ready) ∧
      (chans c = [] → (w'.arg.chan c).inIndex = -1) := by
  obtain ⟨ch, rest, heq, hholds, hready, hempty⟩ := (h c hc).readKV_refresh hr
  have hself : (w.setChannel c ch rest).arg.chan c = ch := Function.update_self _ _ _
  refine ⟨w.setChannel c ch rest, onecReadKV_eq heq, ?_, sameOutput_setChannel hc w ch rest,
    fun d hd => Function.update_of_ne hd _ _, ?_, ?_⟩
  · have hp := h.setChannel (c := c) hholds
    rwa [Function.update_eq_self] at hp
  · rwa [hself]
  · rwa [hself]

/-! ## The scan for the smallest head -/

theorem Channel.cursorKey_length (ch : Channel) : ch.cursorKey.length = 24 :=
  readBytes_length _ _ _

theorem Merge.onecCompare_lt_iff {w : Merge} {i s : Nat} :
    w.onecCompare i s = .lt ↔ (w.arg.chan i).cursorKey < (w.arg.chan s).cursorKey :=
  memcmp_lt_iff (by rw [Channel.cursorKey_length, Channel.cursorKey_length])

/-- Channel `s` has the least 24 key bytes under its cursor among the non-empty
channels below `i`, and no lower channel ties with it. -/
def Merge.Least (w : Merge) (chans : Nat → List Record) (i s : Nat) : Prop :=
  ∀ c < i, chans c ≠ [] →
    (w.arg.chan s).cursorKey ≤ (w.arg.chan c).cursorKey ∧
      (c < s → (w.arg.chan s).cursorKey < (w.arg.chan c).cursorKey)

/-- After `i` rounds of the loop of `onec_findSmallest`. -/
structure Merge.Scanned (w : Merge) (n i : Nat) (chans : Nat → List Record)
    (smallest : Option Nat) : Prop where
  pending : w.Pending n chans
  ready : ∀ c < i, chans c ≠ [] → (w.arg.chan c).Ready
  empty : ∀ c < i, chans c = [] → (w.arg.chan c).inIndex = -1
  isNone : smallest = none → ∀ c < i, chans c = []
  isSome : ∀ s, smallest = some s → s < i ∧ chans s ≠ [] ∧ w.Least chans i s

/-- The head of a round: the channel is ready or empty afterwards. -/
theorem Merge.fetch_spec {w : Merge} {n c : Nat} {chans : Nat → List Record}
    (h : w.Pending n chans) (hc : c < n) :
    ∃ w', w.fetch c = (decide (chans c ≠ []), w') ∧ w'.Pending n chans ∧
      SameOutput n w w' ∧ (∀ d, d ≠ c → w'.arg.chan d = w.arg.chan d) ∧
      (chans c ≠ [] → (w'.arg.chan c).Ready) ∧
      (chans c = [] → (w'.arg.chan c).inIndex = -1) := by
  by_cases hr : (w.arg.chan c).Ready
  · obtain ⟨r, rest, hcons, -⟩ := (h c hc).cursor hr
    have hne : chans c ≠ [] := by rw [hcons]; simp
    refine ⟨w, ?_, h, SameOutput.refl n w, fun _ _ => rfl, fun _ => hr, fun e => absurd e hne⟩
    rw [fetch, if_neg (not_or.mpr hr), decide_eq_true hne]
  · have hcond := hr
    rw [Channel.Ready, not_and_or, not_not, not_not] at hcond
    rw [fetch, if_pos hcond]
    exact onecReadKV_refresh h hc hr

theorem Merge.Scanned.step {w : Merge} {n i : Nat} {chans : Nat → List Record}
    {smallest : Option Nat} (h : w.Scanned n i chans smallest) (hi : i < n) :
    ∃ smallest' w', Merge.findStep (smallest, w) i = (smallest', w') ∧
      w'.Scanned n (i + 1) chans smallest' ∧ SameOutput n w w' := by
  obtain ⟨w', hfetch, hpend, hsame, hframe, hready, hempty⟩ := fetch_spec h.pending hi
  -- what the earlier channels looked like is not disturbed by channel `i`
  have hreadyAll : ∀ c < i + 1, chans c ≠ [] → (w'.arg.chan c).Ready := by
    intro c hc hne
    rcases Nat.lt_succ_iff_lt_or_eq.mp hc with hlt | rfl
    · rw [hframe c (by omega)]
      exact h.ready c hlt hne
    · exact hready hne
  have hemptyAll : ∀ c < i + 1, chans c = [] → (w'.arg.chan c).inIndex = -1 := by
    intro c hc hnil
    rcases Nat.lt_succ_iff_lt_or_eq.mp hc with hlt | rfl
    · rw [hframe c (by omega)]
      exact h.empty c hlt hnil
    · exact hempty hnil
  have hleast : ∀ s, smallest = some s → w'.Least chans i s := by
    intro s hs c hc hne
    obtain ⟨hsi, -, hl⟩ := h.isSome s hs
    rw [hframe s (by omega), hframe c (by omega)]
    exact hl c hc hne
  by_cases hne : chans i ≠ []
  · have hfetch' : w.fetch i = (true, w') := by rw [hfetch, decide_eq_true hne]
    cases hsm : smallest with
    | none =>
      refine ⟨some i, w', by rw [findStep, hfetch'], ?_, hsame⟩
      refine ⟨hpend, hreadyAll, hemptyAll, by simp, ?_⟩
      intro s hs
      obtain rfl : i = s := Option.some.inj hs
      refine ⟨Nat.lt_succ_self i, hne, ?_⟩
      intro c hc hcne
      rcases Nat.lt_succ_iff_lt_or_eq.mp hc with hlt | rfl
      · exact absurd (h.isNone hsm c hlt) hcne
      · exact ⟨le_rfl, fun hlt => absurd hlt (Nat.lt_irrefl _)⟩
    | some s =>
      obtain ⟨hsi, hsne, -⟩ := h.isSome s hsm
      by_cases hlt : w'.onecCompare i s = .lt
      · -- the new head is strictly smaller than every head before it
        refine ⟨some i, w', ?_, ?_, hsame⟩
        · simp only [findStep, hfetch', if_pos hlt]
        · refine ⟨hpend, hreadyAll, hemptyAll, by simp, ?_⟩
          intro s' hs'
          obtain rfl : i = s' := Option.some.inj hs'
          refine ⟨Nat.lt_succ_self i, hne, ?_⟩
          intro c hc hcne
          rcases Nat.lt_succ_iff_lt_or_eq.mp hc with hci | rfl
          · have hbelow := lt_of_lt_of_le (onecCompare_lt_iff.mp hlt)
              (hleast s hsm c hci hcne).1
            exact ⟨le_of_lt hbelow, fun _ => hbelow⟩
          · exact ⟨le_rfl, fun hcc => absurd hcc (Nat.lt_irrefl _)⟩
      · refine ⟨some s, w', ?_, ?_, hsame⟩
        · simp only [findStep, hfetch', if_neg hlt]
        · refine ⟨hpend, hreadyAll, hemptyAll, by simp, ?_⟩
          intro s' hs'
          obtain rfl : s = s' := Option.some.inj hs'
          refine ⟨by omega, hsne, ?_⟩
          intro c hc hcne
          rcases Nat.lt_succ_iff_lt_or_eq.mp hc with hci | rfl
          · exact hleast s hsm c hci hcne
          · rw [onecCompare_lt_iff, not_lt] at hlt
            exact ⟨hlt, fun hcs => absurd hcs (by omega)⟩
  · -- an exhausted channel is skipped
    have hfetch' : w.fetch i = (false, w') := by rw [hfetch, decide_eq_false hne]
    rw [not_not] at hne
    refine ⟨smallest, w', by rw [findStep, hfetch'], ?_, hsame⟩
    refine ⟨hpend, hreadyAll, hemptyAll, ?_, ?_⟩
    · intro hs c hc
      rcases Nat.lt_succ_iff_lt_or_eq.mp hc with hlt | rfl
      · exact h.isNone hs c hlt
      · exact hne
    · intro s hs
      obtain ⟨hsi, hsne, -⟩ := h.isSome s hs
      refine ⟨by omega, hsne, ?_⟩
      intro c hc hcne
      rcases Nat.lt_succ_iff_lt_or_eq.mp hc with hlt | rfl
      · exact hleast s hs c hlt hcne
      · exact absurd hne hcne

/-- **`onec_findSmallest`** over `n` channels, from any state of the cursors. -/
theorem Merge.onecFindSmallest_spec {w : Merge} {n : Nat} {chans : Nat → List Record}
    (h : w.Pending n chans) :
    ∃ smallest w', w.onecFindSmallest n = (smallest, w') ∧
      w'.Scanned n n chans smallest ∧ SameOutput n w w' := by
  suffices hrun : ∀ i ≤ n, ∃ smallest w',
      (List.range i).foldl Merge.findStep (none, w) = (smallest, w') ∧
      w'.Scanned n i chans smallest ∧ SameOutput n w w' from hrun n (le_refl n)
  intro i
  induction i with
  | zero =>
    intro _
    exact ⟨none, w, rfl, ⟨h, by omega, by omega, by omega, by simp⟩, SameOutput.refl n w⟩
  | succ i ih =>
    intro hi
    obtain ⟨smallest, w', heq, hscan, hsame⟩ := ih (by omega)
    obtain ⟨smallest', w'', hstep, hscan', hsame'⟩ := hscan.step (by omega : i < n)
    refine ⟨smallest', w'', ?_, hscan', hsame.trans hsame'⟩
    rw [List.range_succ, List.foldl_append, heq]
    exact hstep

/-! ## The main loop -/

/-- The 24 bytes the merge compares: a prefix of the key, once the key is that long. -/
def Record.prefix24 (r : Record) : Bytes := r.key.take 24

theorem Carries.prefix24 {keyData : Nat → Byte} {keySizes : Nat → Nat}
    {valueData : Nat → Byte} {valueSizes : Nat → Nat} {slot : Nat} {r : Record}
    (h : Carries keyData keySizes valueData valueSizes slot r) (hlong : 24 ≤ r.key.length) :
    readBytes keyData (slot * 32) 24 = r.prefix24 := by
  have hb := congrArg (List.take 24) h.keyBytes
  rw [readBytes_take, List.take_take, Nat.min_eq_left (by omega : 24 ≤ 32),
    Nat.min_eq_left (by omega)] at hb
  exact hb

theorem Channel.Carries.cursorKey {ch : Channel} {r : Record}
    (h : ch.Carries ch.inIndex.toNat r) (hlong : 24 ≤ r.key.length) :
    ch.cursorKey = r.prefix24 := Lpad.Carries.prefix24 h hlong

/-- All keys of the channels below `n` have at least the 24 bytes compared. -/
def LongKeys (n : Nat) (chans : Nat → List Record) : Prop :=
  ∀ c < n, ∀ r ∈ chans c, 24 ≤ r.key.length

/-- A comparison of 24 bytes compares the keys, whatever an earlier record left behind them in
their slots: both keys have as many bytes, or they differ before the shorter one ends. -/
def ComparesKeys (a b : Bytes) : Prop :=
  24 ≤ a.length ∧ 24 ≤ b.length ∨
    ∃ m ≤ 24, m ≤ a.length ∧ m ≤ b.length ∧ a.take m ≠ b.take m

/-- The channels that a merge by the first 24 bytes comes to. -/
inductive MergesTo (n : Nat) : (Nat → List Record) → (Nat → List Record) → Prop
  | refl (chans : Nat → List Record) : MergesTo n chans chans
  | step {chans last : Nat → List Record} {c : Nat} {r : Record} {rest : List Record}
      (least : LeastHead Record.prefix24 n chans c r) (cons : chans c = r :: rest)
      (h : MergesTo n (Function.update chans c rest) last) : MergesTo n chans last

/-- **The merge compares keys only**: this holds of any two channels' heads it comes to. -/
def Comparable (n : Nat) (chans : Nat → List Record) : Prop :=
  ∀ last, MergesTo n chans last → ∀ c < n, ∀ d < n, c ≠ d →
    ∀ a ∈ (last c).head?, ∀ b ∈ (last d).head?, ComparesKeys a.key b.key

theorem Comparable.tail {n c : Nat} {chans : Nat → List Record} {r : Record}
    {rest : List Record} (h : Comparable n chans) (hleast : LeastHead Record.prefix24 n chans c r)
    (hc : chans c = r :: rest) : Comparable n (Function.update chans c rest) :=
  fun last hlast => h last (.step hleast hc hlast)

/-- It is enough that it holds of any two records of different channels. -/
theorem comparable_of_records {n : Nat} {chans : Nat → List Record}
    (h : ∀ c < n, ∀ d < n, c ≠ d → ∀ a ∈ chans c, ∀ b ∈ chans d, ComparesKeys a.key b.key) :
    Comparable n chans := by
  intro last hlast
  induction hlast with
  | refl chans =>
    exact fun c hc d hd hcd a ha b hb =>
      h c hc d hd hcd a (List.mem_of_mem_head? ha) b (List.mem_of_mem_head? hb)
  | step _ hcons _ ih =>
    exact ih fun c hc d hd hcd a ha b hb =>
      h c hc d hd hcd a (mem_of_mem_update hcons ha) b (mem_of_mem_update hcons hb)

theorem LongKeys.comparable {n : Nat} {chans : Nat → List Record} (h : LongKeys n chans) :
    Comparable n chans :=
  comparable_of_records fun c hc d hd _ a ha b hb => Or.inl ⟨h c hc a ha, h d hd b hb⟩

/-- The key shows at the start of the bytes under the cursor. -/
theorem Channel.Carries.take_cursorKey {ch : Channel} {r : Record} {m : Nat}
    (h : ch.Carries ch.inIndex.toNat r) (hm : m ≤ 24) (hkey : m ≤ r.key.length) :
    ch.cursorKey.take m = r.key.take m := by
  have hb := congrArg (List.take m) h.keyBytes
  rw [readBytes_take, List.take_take, Nat.min_eq_left (by omega : m ≤ 32),
    Nat.min_eq_left (by omega)] at hb
  rw [Channel.cursorKey, readBytes_take, Nat.min_eq_left hm, hb]

/-- The record in front of a channel lies under its cursor once a scan is complete. -/
theorem Merge.Scanned.carries_head {w : Merge} {n s d : Nat} {chans : Nat → List Record}
    {y : Record} {ys : List Record} (h : w.Scanned n n chans (some s)) (hd : d < n)
    (hy : chans d = y :: ys) : (w.arg.chan d).Carries (w.arg.chan d).inIndex.toNat y := by
  have hne : chans d ≠ [] := by rw [hy]; simp
  obtain ⟨r, rest, hcons, hcar⟩ := (h.pending d hd).cursor (h.ready d hd hne)
  obtain rfl : y = r := (List.cons.inj (hy.symm.trans hcons)).1
  exact hcar

/-- The head found by a completed scan is least for `prefix24`. -/
theorem Merge.Scanned.least_prefix {w : Merge} {n s : Nat} {chans : Nat → List Record}
    (h : w.Scanned n n chans (some s)) (hcomp : Comparable n chans) :
    ∀ x rest, chans s = x :: rest → ∀ d < n, ∀ y ys, chans d = y :: ys →
      x.prefix24 ≤ y.prefix24 ∧ (d < s → x.prefix24 < y.prefix24) := by
  obtain ⟨hs, hsne, hleast⟩ := h.isSome s rfl
  intro x rest hx d hd y ys hy
  have hxmem : x ∈ chans s := by rw [hx]; exact List.mem_cons_self
  have hymem : y ∈ chans d := by rw [hy]; exact List.mem_cons_self
  have hcx := h.carries_head hs hx
  have hcy := h.carries_head hd hy
  by_cases hds : d = s
  · subst hds
    obtain rfl := (List.cons.inj (hx.symm.trans hy)).1
    exact ⟨le_rfl, fun hlt => absurd hlt (lt_irrefl d)⟩
  have hl := hleast d hd (List.ne_nil_of_mem hymem)
  rcases hcomp chans (.refl chans) s hs d hd (Ne.symm hds) x (by rw [hx]; rfl) y (by rw [hy]; rfl)
    with ⟨hlx, hly⟩ | ⟨m, hm, hmx, hmy, hne⟩
  · rwa [hcx.cursorKey hlx, hcy.cursorKey hly] at hl
  · -- what a slot holds behind a short key does not matter: the keys differ before
    have hlt : x.prefix24.take m < y.prefix24.take m := by
      have hle := take_le_take m hl.1
      rw [hcx.take_cursorKey hm hmx, hcy.take_cursorKey hm hmy] at hle
      rw [Record.prefix24, Record.prefix24, List.take_take, List.take_take, Nat.min_eq_left hm]
      exact lt_of_le_of_ne hle hne
    exact ⟨le_of_lt (lt_of_take_lt_take m hlt), fun _ => lt_of_take_lt_take m hlt⟩

/-- The same, as the merge library has it. -/
theorem Merge.Scanned.leastHead {w : Merge} {n s : Nat} {chans : Nat → List Record} {x : Record}
    {rest : List Record} (h : w.Scanned n n chans (some s)) (hcomp : Comparable n chans)
    (hx : chans s = x :: rest) : LeastHead Record.prefix24 n chans s x := by
  refine ⟨(h.isSome s rfl).1, by rw [hx]; rfl, fun d hd y hy => ?_⟩
  obtain ⟨ys, hys⟩ := List.head?_eq_some_iff.mp hy
  exact h.least_prefix hcomp x rest hx d hd y ys hys

/-- What is left of a run of the loop, started with `written` already out. -/
structure Merge.Finished (n : Nat) (chans : Nat → List Record) (written : List Record)
    (w w' : Merge) (picks : List Nat) (out : List Record) : Prop where
  draws : Draws n chans picks out
  nexts : w'.nexts = w.nexts ++ picks
  emitted : w'.Emitted (written ++ out)
  closed : ∀ c < n, (w'.arg.chan c).inIndex = -1
  beyond : ∀ c, n ≤ c → w'.arg.chan c = w.arg.chan c
  greedy : Comparable n chans → Greedy Record.prefix24 n chans picks

/-- One round: the scan finds a head, it is written, and the cursor of its channel
steps on. `onec_readKV` returns `1` here, so `count` keeps its value. -/
theorem Merge.round_spec {w : Merge} {n s : Nat} {chans : Nat → List Record}
    {written : List Record} (h : w.Scanned n n chans (some s)) (he : w.Emitted written) :
    ∃ r rest w', chans s = r :: rest ∧ (w.onecWriteKV s).onecReadKV s = (true, w') ∧
      w'.Pending n (Function.update chans s rest) ∧ w'.Emitted (written ++ [r]) ∧
      w'.nexts = w.nexts ++ [s] ∧ ∀ c, n ≤ c → w'.arg.chan c = w.arg.chan c := by
  obtain ⟨hs, hsne, -⟩ := h.isSome s rfl
  have hready := h.ready s hs hsne
  obtain ⟨r, rest, hcons, hcar⟩ := (h.pending s hs).cursor hready
  have hchan : (w.onecWriteKV s).arg.chan = w.arg.chan := by
    unfold onecWriteKV
    split <;> rfl
  have hiter : (w.onecWriteKV s).iter = w.iter := by
    unfold onecWriteKV
    split <;> rfl
  have hnexts : (w.onecWriteKV s).nexts = w.nexts ++ [s] := by
    unfold onecWriteKV
    split <;> rfl
  have hpend : (w.onecWriteKV s).Pending n chans := by
    intro c hc
    rw [hchan, hiter]
    exact h.pending c hc
  have hholds := hpend s hs
  rw [hcons] at hholds
  obtain ⟨ch, hread, hholds'⟩ := hholds.readKV_next (by rwa [hchan])
  have hsame := sameOutput_setChannel hs (w.onecWriteKV s) ch ((w.onecWriteKV s).iter s)
  refine ⟨r, rest, _, hcons, onecReadKV_eq hread, hpend.setChannel hholds',
    hsame.emitted (he.onecWriteKV hcar), hsame.nexts.trans hnexts, ?_⟩
  intro c hc
  rw [hsame.beyond c hc, hchan]

/-- **The loop of `onec_EnclCompact`.** The induction is on the fuel; a round
takes one record away, so any fuel above the number of pending records is
enough, and the loop can only end in a scan that finds every channel empty. -/
theorem Merge.compactLoop_spec {n : Nat} : ∀ (fuel : Nat) (chans : Nat → List Record)
    (w : Merge) (written : List Record), w.Pending n chans → w.Emitted written →
    ((List.range n).flatMap chans).length < fuel →
    ∃ w' picks out, Merge.compactLoop n fuel n w = some w' ∧
      Finished n chans written w w' picks out
  | 0, _, _, _, _, _, hfuel => absurd hfuel (Nat.not_lt_zero _)
  | fuel + 1, chans, w, written, hp, he, hfuel => by
    by_cases hn : n > 0
    · obtain ⟨smallest, w₁, hfind, hscan, hsame⟩ := onecFindSmallest_spec hp
      have he₁ := hsame.emitted he
      cases smallest with
      | none =>
        have hall := hscan.isNone rfl
        refine ⟨w₁, [], [], by rw [compactLoop, if_pos hn, hfind], ?_⟩
        exact
          { draws := .nil hall
            nexts := by rw [hsame.nexts, List.append_nil]
            emitted := by rwa [List.append_nil]
            closed := fun c hc => hscan.empty c hc (hall c hc)
            beyond := hsame.beyond
            greedy := fun _ => trivial }
      | some s =>
        obtain ⟨hs, -, -⟩ := hscan.isSome s rfl
        obtain ⟨r, rest, w₂, hcons, hround, hp₂, he₂, hnexts, hbeyond⟩ :=
          round_spec hscan he₁
        have hlen := (flatMap_update_head hs hcons).length_eq
        rw [List.length_cons] at hlen
        obtain ⟨w', picks, out, hloop, hfin⟩ := compactLoop_spec fuel
          (Function.update chans s rest) w₂ (written ++ [r]) hp₂ he₂ (by omega)
        refine ⟨w', s :: picks, r :: out, ?_, ?_⟩
        · rw [compactLoop, if_pos hn, hfind]
          simp only [hround]
          exact hloop
        · exact
            { draws := .cons hs hcons hfin.draws
              nexts := by rw [hfin.nexts, hnexts, hsame.nexts, List.append_assoc]; rfl
              emitted := by
                have h := hfin.emitted
                rwa [List.append_assoc] at h
              closed := hfin.closed
              beyond := fun c hc => by
                rw [hfin.beyond c hc, hbeyond c hc, hsame.beyond c hc]
              greedy := fun hcomp => by
                have hleast := hscan.leastHead hcomp hcons
                exact hleast.greedy hcons (hfin.greedy (hcomp.tail hleast hcons)) }
    · -- no channel at all: `count` is 0 from the start
      have hzero : n = 0 := by omega
      subst hzero
      refine ⟨w, [], [], by rw [compactLoop, if_neg hn], ?_⟩
      exact
        { draws := .nil (by omega)
          nexts := (List.append_nil _).symm
          emitted := by rwa [List.append_nil]
          closed := by omega
          beyond := fun _ _ => rfl
          greedy := fun _ => trivial }

/-! ## One call -/

/-- The state of `my_arg` between compactions: no channel is loaded and the output
buffer is empty. The bytes in the buffers are arbitrary. -/
structure GArg.Clean (arg : GArg) : Prop where
  index : ∀ c, (arg.chan c).inIndex = -1
  out : arg.out.index = 0

theorem GArg.init_clean : GArg.init.Clean := ⟨fun _ => rfl, rfl⟩

/-- The first reads of all channels, `for (i = 0; i < file_count; i++) onec_readKV(i)`. -/
theorem Merge.firstReads_spec {w : Merge} {n : Nat} {chans : Nat → List Record}
    (h : w.Pending n chans) (hidx : ∀ c, (w.arg.chan c).inIndex = -1) :
    ∃ w', (List.range n).foldl (fun w i => (w.onecReadKV i).2) w = w' ∧
      w'.Pending n chans ∧ SameOutput n w w' := by
  suffices hrun : ∀ i ≤ n, ∃ w',
      (List.range i).foldl (fun w i => (w.onecReadKV i).2) w = w' ∧ w'.Pending n chans ∧
      SameOutput n w w' ∧ ∀ c, i ≤ c → (w'.arg.chan c).inIndex = -1 by
    obtain ⟨w', heq, hp, hs, -⟩ := hrun n (le_refl n)
    exact ⟨w', heq, hp, hs⟩
  intro i
  induction i with
  | zero =>
    intro _
    exact ⟨w, rfl, h, SameOutput.refl n w, fun c _ => hidx c⟩
  | succ i ih =>
    intro hi
    obtain ⟨w', heq, hp, hs, hrest⟩ := ih (by omega)
    have hnot : ¬ (w'.arg.chan i).Ready := fun hr => hr.1 (hrest i (le_refl i))
    obtain ⟨w'', hread, hp', hs', hframe, -, -⟩ := onecReadKV_refresh hp (by omega) hnot
    refine ⟨w'', ?_, hp', hs.trans hs', ?_⟩
    · rw [List.range_succ, List.foldl_append, heq]
      simp [hread]
    · intro c hc
      rw [hframe c (by omega)]
      exact hrest c (by omega)

/-- From a clean `g_arg_t` the first reads and the loop run to their end. -/
theorem onecEnclCompact_finishes {arg : GArg} (hclean : arg.Clean) {n fuel : Nat}
    {chans : Nat → List Record} (hfuel : ((List.range n).flatMap chans).length < fuel) :
    ∃ w₁ w' picks out, onecEnclCompact fuel n arg chans = some w'.flush ∧
      Merge.SameOutput n ⟨arg, chans, [], []⟩ w₁ ∧ Merge.Finished n chans [] w₁ w' picks out := by
  have hp : (Merge.mk arg chans [] []).Pending n chans :=
    fun c _ => .unloaded (hclean.index c)
  obtain ⟨w₁, hfirst, hp₁, hsame⟩ := Merge.firstReads_spec hp hclean.index
  have he : (Merge.mk arg chans [] []).Emitted [] :=
    ⟨[], [], rfl, List.Forall₂.nil, OutBuffer.buffers_nil hclean.out⟩
  obtain ⟨w', picks, out, hloop, hfin⟩ :=
    Merge.compactLoop_spec fuel chans w₁ [] hp₁ (hsame.emitted he) hfuel
  refine ⟨w₁, w', picks, out, ?_, hsame, hfin⟩
  rw [onecEnclCompact, hfirst, hloop]
  rfl

/-- **One enclave compaction.** From a clean `g_arg_t`, with any leftover bytes,
and with fuel for the records there are. -/
theorem onecEnclCompact_spec {arg : GArg} (hclean : arg.Clean) {n fuel : Nat}
    {chans : Nat → List Record} (hfuel : ((List.range n).flatMap chans).length < fuel) :
    ∃ w out, onecEnclCompact fuel n arg chans = some w ∧ Draws n chans w.nexts out ∧
      List.Forall₂ Preserved out w.flushed.flatten ∧ w.arg.Clean ∧
      (Comparable n chans → Greedy Record.prefix24 n chans w.nexts) := by
  obtain ⟨w₁, w', picks, out, hrun, hsame, hfin⟩ := onecEnclCompact_finishes hclean hfuel
  have hnexts : w'.flush.nexts = picks := by
    show w'.nexts = picks
    rw [hfin.nexts, hsame.nexts, List.nil_append]
  refine ⟨w'.flush, out, hrun, ?_, ?_, ⟨?_, rfl⟩, ?_⟩
  · rw [hnexts]
    exact hfin.draws
  · have h := hfin.emitted.flush
    rwa [List.nil_append] at h
  · intro c
    show (w'.arg.chan c).inIndex = -1
    rcases Nat.lt_or_ge c n with hlt | hge
    · exact hfin.closed c hlt
    · rw [hfin.beyond c hge, hsame.beyond c hge]
      exact hclean.index c
  · rw [hnexts]
    exact hfin.greedy

/-- The rows from `n` on are never written. -/
theorem onecEnclCompact_beyond {arg : GArg} (hclean : arg.Clean) {n fuel : Nat}
    {chans : Nat → List Record} (hfuel : ((List.range n).flatMap chans).length < fuel)
    {w : Merge} (hrun : onecEnclCompact fuel n arg chans = some w) {c : Nat} (hc : n ≤ c) :
    w.arg.chan c = arg.chan c := by
  obtain ⟨w₁, w', picks, out, hrun', hsame, hfin⟩ := onecEnclCompact_finishes hclean hfuel
  rw [← Option.some.inj (hrun'.symm.trans hrun)]
  exact (hfin.beyond c hc).trans (hsame.beyond c hc)

/-! ## Sequences of calls -/

/-- A compaction the buffers are made for: at most ten channels, and every key and
value fits its slot. -/
structure Call.Fits (call : Call) : Prop where
  ways : call.fileCount ≤ 10
  key : ∀ c < call.fileCount, ∀ r ∈ call.iter c, r.key.length ≤ 32
  value : ∀ c < call.fileCount, ∀ r ∈ call.iter c, r.value.length ≤ 100

/-- The records of all channels of a call. -/
def Call.records (call : Call) : List Record := (List.range call.fileCount).flatMap call.iter

theorem forall₂_preserved_eq {n : Nat} {chans : Nat → List Record} {picks : List Nat}
    {out items : List Record} (hd : Draws n chans picks out)
    (hkey : ∀ c < n, ∀ r ∈ chans c, r.key.length ≤ 32)
    (hvalue : ∀ c < n, ∀ r ∈ chans c, r.value.length ≤ 100)
    (h : List.Forall₂ Preserved out items) : items = out := by
  have hfit : ∀ r ∈ out, r.key.length ≤ 32 ∧ r.value.length ≤ 100 := by
    intro r hr
    obtain ⟨c, hc, hmem⟩ := hd.mem_iff.mp hr
    exact ⟨hkey c hc r hmem, hvalue c hc r hmem⟩
  clear hd
  induction h with
  | nil => rfl
  | @cons r item out items hp _ ih =>
    obtain ⟨hk, hv⟩ := hfit r List.mem_cons_self
    rw [hp.eq hk hv, ih fun r hr => hfit r (List.mem_cons_of_mem _ hr)]

/-- Keys that fit their slots come out as they went in. -/
theorem keys_of_preserved {n : Nat} {chans : Nat → List Record} {picks : List Nat}
    {out items : List Record} (hd : Draws n chans picks out)
    (hkey : ∀ c < n, ∀ r ∈ chans c, r.key.length ≤ 32)
    (h : List.Forall₂ Preserved out items) : items.map Record.key = out.map Record.key := by
  have hfit : ∀ r ∈ out, r.key.length ≤ 32 := by
    intro r hr
    obtain ⟨c, hc, hmem⟩ := hd.mem_iff.mp hr
    exact hkey c hc r hmem
  clear hd
  induction h with
  | nil => rfl
  | @cons r item out items hp _ ih =>
    rw [List.map_cons, List.map_cons, ih fun r hr => hfit r (List.mem_cons_of_mem _ hr),
      hp.key (hfit r List.mem_cons_self)]

/-- From a clean `my_arg`, every call of a sequence of compactions returns. -/
theorem runCalls_spec {fuel : Nat} : ∀ (calls : List Call) {arg : GArg}, arg.Clean →
    (∀ call ∈ calls, call.Fits) → (∀ call ∈ calls, call.records.length < fuel) →
    ∃ ws, runCalls fuel arg calls = some ws ∧
      List.Forall₂ (fun call w =>
        Interleaving call.fileCount call.iter w.flushed.flatten ∧ w.arg.Clean) calls ws
  | [], _, _, _, _ => ⟨[], rfl, .nil⟩
  | call :: calls, arg, hclean, hfits, hfuel => by
    obtain ⟨w, out, hrun, hdraws, hitems, hclean', -⟩ :=
      onecEnclCompact_spec hclean (hfuel call List.mem_cons_self)
    have hfit := hfits call List.mem_cons_self
    have heq := forall₂_preserved_eq hdraws hfit.key hfit.value hitems
    obtain ⟨ws, hrest, hall⟩ := runCalls_spec calls hclean'
      (fun c hc => hfits c (List.mem_cons_of_mem _ hc))
      (fun c hc => hfuel c (List.mem_cons_of_mem _ hc))
    refine ⟨w :: ws, ?_, .cons ⟨⟨w.nexts, ?_⟩, hclean'⟩ hall⟩
    · rw [runCalls, hrun, Option.bind_some, hrest, Option.map_some]
    · rwa [heq]

/-- **Every record is flushed exactly once.** Any sequence of compactions on the
initial `my_arg`: each call returns, what it flushes is an interleaving of the
record lists of its channels, and it leaves all used cursors at `-1` and the
output buffer empty. -/
theorem onecEnclCompact_interleaves (calls : List Call) (hfits : ∀ call ∈ calls, call.Fits)
    (fuel : Nat) (hfuel : ∀ call ∈ calls, call.records.length < fuel) :
    ∃ ws, runCalls fuel GArg.init calls = some ws ∧
      List.Forall₂ (fun call w =>
        Interleaving call.fileCount call.iter w.flushed.flatten ∧
        (∀ c < call.fileCount, (w.arg.chan c).inIndex = -1) ∧ w.arg.out.index = 0) calls ws := by
  obtain ⟨ws, hrun, hall⟩ := runCalls_spec calls GArg.init_clean hfits hfuel
  refine ⟨ws, hrun, hall.imp ?_⟩
  rintro call w ⟨hinter, hclean⟩
  exact ⟨hinter, fun c _ => hclean.index c, hclean.out⟩

/-- Two calls with two channels each, whose records alternate. -/
def sampleCalls : List Call :=
  [⟨2, fun c => if c = 0 then [⟨List.replicate 24 1, [10]⟩, ⟨List.replicate 24 3, [30]⟩]
      else [⟨List.replicate 24 2, [20]⟩, ⟨List.replicate 24 4, []⟩]⟩,
    ⟨2, fun c => if c = 0 then [⟨List.replicate 24 6, [60]⟩] else [⟨List.replicate 24 5, [50]⟩]⟩]

theorem onecEnclCompact_interleaves_sample :
    ∃ ws, runCalls 5 GArg.init sampleCalls = some ws ∧
      List.Forall₂ (fun call w => Interleaving call.fileCount call.iter w.flushed.flatten ∧
        (∀ c < call.fileCount, (w.arg.chan c).inIndex = -1) ∧ w.arg.out.index = 0)
        sampleCalls ws ∧
      ws.map (fun w => w.flushed.flatten.map Record.value) =
        [[[10], [20], [30], []], [[50], [60]]] := by
  have hfits : ∀ call ∈ sampleCalls, call.Fits := by
    intro call hcall
    simp only [sampleCalls, List.mem_cons, List.not_mem_nil, or_false] at hcall
    rcases hcall with rfl | rfl <;> exact ⟨by decide, by decide, by decide⟩
  have heval : (runCalls 5 GArg.init sampleCalls).map
      (List.map fun w => w.flushed.flatten.map Record.value) =
        some [[[10], [20], [30], []], [[50], [60]]] := by
    decide +kernel
  obtain ⟨ws, hrun, hall⟩ := onecEnclCompact_interleaves sampleCalls hfits 5 (by decide)
  rw [hrun] at heval
  exact ⟨ws, hrun, hall, Option.some.inj heval⟩

end Lpad
