import Lpad.Enclave.MergeSpec
import Lpad.Enclave.Merkle
import Mathlib.Data.Finset.Card

/-!
# The enclave merge with an extra copy

`Enclave/merge_sort_eextrac.cpp` and its two ocalls (`do_reload_eextrac`,
`do_flush_eextrac` of `db_impl.cpp`). This merge has no buffers. It keeps one record of
each channel in the enclave, with a flag that says whether there is one, and gives each
record to the host as soon as it is picked. On the way it inserts the key into the hash
tree of the channel and into that of the output.

The one-copy merge of `MergeSort` finds out that a channel is empty when it reads the
channel again, here the flag is up to date at all times. Both draw the least head of the
channels each time, so the records come out the same (`eextracEnclCompact_eq_onec`).
-/

namespace Lpad

/-- The variables of one channel: `ee_key_sizes`, `ee_value_sizes`, `ee_key_data`,
`ee_value_data` and `valid`. -/
structure EeChannel where
  keySize : Nat
  valueSize : Nat
  keyData : Nat → Byte
  valueData : Nat → Byte
  valid : Bool

/-- `do_reload_eextrac` behind `ocall_eextrac_nextKey`: the new variables of the channel,
and what the iterator has left. The buffers of an ocall are zero before the host writes to
them, and come back whole: 32 bytes for the key and 100 for the value. -/
def reloadEextrac : List Record → EeChannel × List Record
  | [] => (⟨0, 0, fun _ => 0, fun _ => 0, false⟩, [])
  | r :: rest =>
    (⟨r.key.length, r.value.length, writeBytes (fun _ => 0) 0 (r.key.take 32),
      writeBytes (fun _ => 0) 0 (r.value.take 100), true⟩, rest)

/-- The 24 key bytes that `eextrac_compare` looks at. -/
def EeChannel.compared (ch : EeChannel) : Bytes := readBytes ch.keyData 0 24

/-- `message` and `message_len` of a channel. -/
def EeChannel.message (ch : EeChannel) : Bytes := readBytes ch.keyData 0 ch.keySize

/-- A running compaction: the channels, what the iterators `g_list` have left, the records
passed to `ocall_eextrac_flush` so far, and the hash trees. -/
structure EeMerge where
  chan : Nat → EeChannel
  iter : Nat → List Record
  flushed : List Record
  mhtTrees : Nat → MhtTree
  outTree : MhtTree

def EeMerge.eextracReadKV (w : EeMerge) (channel : Nat) : Bool × EeMerge :=
  match reloadEextrac (w.iter channel) with
  | (ch, rest) =>
    (ch.valid,
      { w with
        chan := Function.update w.chan channel ch
        iter := Function.update w.iter channel rest })

def EeMerge.eextracWriteKV (w : EeMerge) (channel : Nat) : EeMerge :=
  let ch := w.chan channel
  { w with
    flushed := w.flushed ++
      [⟨readBytes ch.keyData 0 ch.keySize, readBytes ch.valueData 0 ch.valueSize⟩] }

def EeMerge.eextracCompare (w : EeMerge) (i s : Nat) : Ordering :=
  memcmp (w.chan i).compared (w.chan s).compared

/-- One iteration of the loop of `eextrac_findSmallest`; `none` is `smallest == -1`. -/
def EeMerge.findStep (w : EeMerge) (smallest : Option Nat) (i : Nat) : Option Nat :=
  if (w.chan i).valid then
    match smallest with
    | none => some i
    | some s => if w.eextracCompare i s = .lt then some i else some s
  else smallest

def EeMerge.eextracFindSmallest (w : EeMerge) (nWays : Nat) : Option Nat :=
  (List.range nWays).foldl w.findStep none

/-- The two calls of `insert`. -/
def EeMerge.insertMessage (hash : Bytes → Digest) (w : EeMerge) (next : Nat) : EeMerge :=
  let message := (w.chan next).message
  { w with
    mhtTrees := Function.update w.mhtTrees next ((w.mhtTrees next).insert hash message)
    outTree := w.outTree.insert hash message }

/-- The `while (count > 0)` loop of `eextrac_EnclCompact`; `none` means that the fuel ran
out. -/
def EeMerge.compactLoop (hash : Bytes → Digest) (fileCount : Nat) :
    Nat → Nat → EeMerge → Option EeMerge
  | 0, _, _ => none
  | fuel + 1, count, w =>
    if count > 0 then
      match w.eextracFindSmallest fileCount with
      | none => some w
      | some next =>
        match ((w.insertMessage hash next).eextracWriteKV next).eextracReadKV next with
        | (true, w) => EeMerge.compactLoop hash fileCount fuel count w
        | (false, w) => EeMerge.compactLoop hash fileCount fuel (count - 1) w
    else some w

/-- `eextrac_EnclCompact(file_count)` on the iterators of one compaction. The channels are
globals with arbitrary contents. -/
def eextracEnclCompact (hash : Bytes → Digest) (fuel fileCount : Nat) (chan : Nat → EeChannel)
    (iter : Nat → List Record) : Option EeMerge :=
  let w := (List.range fileCount).foldl (fun w i => (w.eextracReadKV i).2)
    ⟨chan, iter, [], fun _ => MhtTree.null, MhtTree.null⟩
  EeMerge.compactLoop hash fileCount fuel fileCount w

/-! ## One channel -/

/-- The variables of the channel are those of the record, as far as the buffers reach. -/
def EeChannel.Shows (ch : EeChannel) (r : Record) : Prop :=
  Carries ch.keyData (fun _ => ch.keySize) ch.valueData (fun _ => ch.valueSize) 0 r

/-- The channel and its iterator still have these records to deliver. -/
def EeChannel.Holds (ch : EeChannel) (iter : List Record) : List Record → Prop
  | [] => ch.valid = false ∧ iter = []
  | r :: rest => ch.valid = true ∧ ch.Shows r ∧ iter = rest

theorem reloadEextrac_holds (iter : List Record) :
    (reloadEextrac iter).1.Holds (reloadEextrac iter).2 iter := by
  cases iter with
  | nil => exact ⟨rfl, rfl⟩
  | cons r rest =>
    refine ⟨rfl, ⟨rfl, ?_, rfl, ?_⟩, rfl⟩
    · have hb := readBytes_writeBytes (fun _ => 0) 0 (r.key.take 32)
      rwa [List.length_take] at hb
    · have hb := readBytes_writeBytes (fun _ => 0) 0 (r.value.take 100)
      rwa [List.length_take] at hb

theorem EeChannel.Holds.valid_eq {ch : EeChannel} {iter pend : List Record}
    (h : ch.Holds iter pend) : ch.valid = decide (pend ≠ []) := by
  cases pend with
  | nil => exact h.1
  | cons r rest => simpa using h.1

theorem EeChannel.Holds.iter_eq {ch : EeChannel} {iter pend : List Record}
    (h : ch.Holds iter pend) : iter = pend.tail := by
  cases pend with
  | nil => exact h.2
  | cons r rest => exact h.2.2

/-! ## All channels -/

/-- The records fit the buffers, and the keys have the 24 bytes that are compared. -/
structure SlotSized (n : Nat) (chans : Nat → List Record) : Prop where
  long : LongKeys n chans
  key : ∀ c < n, ∀ r ∈ chans c, r.key.length ≤ 32
  value : ∀ c < n, ∀ r ∈ chans c, r.value.length ≤ 100

theorem SlotSized.tail {n c : Nat} {chans : Nat → List Record} {r : Record} {rest : List Record}
    (h : SlotSized n chans) (hc : chans c = r :: rest) :
    SlotSized n (Function.update chans c rest) :=
  ⟨fun d hd x hx => h.long d hd x (mem_of_mem_update hc hx),
    fun d hd x hx => h.key d hd x (mem_of_mem_update hc hx),
    fun d hd x hx => h.value d hd x (mem_of_mem_update hc hx)⟩

/-- Every channel below `n` still has the records that `chans` lists for it. -/
def EeMerge.Pending (w : EeMerge) (n : Nat) (chans : Nat → List Record) : Prop :=
  ∀ c < n, (w.chan c).Holds (w.iter c) (chans c)

variable {w : EeMerge} {n : Nat} {chans : Nat → List Record}

/-- A channel is read again once its record has been written. -/
theorem EeMerge.Pending.readKV (h : w.Pending n chans) {c : Nat} (hc : c < n) :
    (w.eextracReadKV c).2.Pending n (Function.update chans c (chans c).tail) := by
  intro d hd
  by_cases hdc : d = c
  · subst hdc
    have hload := reloadEextrac_holds (w.iter d)
    rw [(h d hd).iter_eq] at hload
    simpa [eextracReadKV, (h d hd).iter_eq] using hload
  · simpa [eextracReadKV, hdc] using h d hd

theorem EeMerge.Pending.readKV_fst (h : w.Pending n chans) {c : Nat} (hc : c < n) :
    (w.eextracReadKV c).1 = decide ((chans c).tail ≠ []) := by
  rw [← (h c hc).iter_eq]
  exact (reloadEextrac_holds (w.iter c)).valid_eq

/-- **`eextrac_findSmallest`** gives the channel of the least head, if there is one. -/
theorem EeMerge.eextracFindSmallest_spec (h : w.Pending n chans) (hlong : LongKeys n chans) :
    (w.eextracFindSmallest n = none ∧ ∀ c < n, chans c = []) ∨
      ∃ s x, w.eextracFindSmallest n = some s ∧ LeastHead Record.prefix24 n chans s x := by
  suffices hrun : ∀ i ≤ n, ((List.range i).foldl w.findStep none = none ∧ ∀ c < i, chans c = []) ∨
      ∃ s x, (List.range i).foldl w.findStep none = some s ∧
        LeastHead Record.prefix24 i chans s x from hrun n (le_refl n)
  have hcompared : ∀ c < n, ∀ x, (chans c).head? = some x → (w.chan c).compared = x.prefix24 := by
    intro c hc x hx
    have hholds := h c hc
    obtain ⟨rest, hrest⟩ := List.head?_eq_some_iff.mp hx
    rw [hrest] at hholds
    apply Carries.prefix24 hholds.2.1
    exact hlong c hc x (hrest ▸ List.mem_cons_self)
  intro i
  induction i with
  | zero => exact fun _ => Or.inl ⟨rfl, fun c hc => absurd hc (Nat.not_lt_zero c)⟩
  | succ i ih =>
    intro hi
    have hvalid := (h i hi).valid_eq
    rw [List.range_succ, List.foldl_append, List.foldl_cons, List.foldl_nil]
    cases hpend : chans i with
    | nil =>
      -- the flag is off, so the channel is skipped
      have hskip : ∀ smallest, w.findStep smallest i = smallest := by
        intro smallest
        unfold findStep
        rw [hvalid, hpend, if_neg (by simp)]
      rw [hskip]
      rcases ih (Nat.le_of_succ_le hi) with ⟨hnone, hall⟩ | ⟨s, x, hs, hleast⟩
      · refine Or.inl ⟨hnone, fun c hc => ?_⟩
        rcases Nat.lt_succ_iff_lt_or_eq.mp hc with hlt | rfl
        · exact hall c hlt
        · exact hpend
      · refine Or.inr ⟨s, x, hs, hleast.keep fun y hy => ?_⟩
        rw [hpend] at hy
        cases hy
    | cons y rest =>
      have hy : (chans i).head? = some y := by rw [hpend]; rfl
      have htrue : (w.chan i).valid = true := by rw [hvalid, hpend]; rfl
      rcases ih (Nat.le_of_succ_le hi) with ⟨hnone, hall⟩ | ⟨s, x, hs, hleast⟩
      · rw [hnone, findStep, if_pos htrue]
        exact Or.inr ⟨i, y, rfl, LeastHead.first hall hy⟩
      · rw [hs, findStep, if_pos htrue]
        have hlt : w.eextracCompare i s = .lt ↔ y.prefix24 < x.prefix24 := by
          rw [eextracCompare, memcmp_lt_iff (by simp [EeChannel.compared]),
            hcompared i hi y hy, hcompared s (by have := hleast.channel; omega) x hleast.head]
        split
        · rename_i hcmp
          exact Or.inr ⟨i, y, rfl, hleast.replace hy (hlt.mp hcmp)⟩
        · rename_i hcmp
          rw [hlt, not_lt] at hcmp
          refine Or.inr ⟨s, x, rfl, hleast.keep fun z hz => ?_⟩
          obtain rfl := Option.some.inj (hy.symm.trans hz)
          exact hcmp

/-! ## The main loop -/

/-- The channels that are not empty yet. -/
def openChannels (n : Nat) (chans : Nat → List Record) : Finset Nat :=
  (Finset.range n).filter fun c => chans c ≠ []

theorem mem_openChannels {c : Nat} : c ∈ openChannels n chans ↔ c < n ∧ chans c ≠ [] := by
  rw [openChannels, Finset.mem_filter, Finset.mem_range]

/-- Drawing the last record of a channel closes it. -/
theorem openChannels_update_nil {c : Nat} :
    openChannels n (Function.update chans c []) = (openChannels n chans).erase c := by
  ext d
  rw [Finset.mem_erase, mem_openChannels, mem_openChannels]
  by_cases hdc : d = c
  · subst hdc
    simp
  · simp [hdc]

theorem openChannels_update_cons {c : Nat} {r : Record} {rest : List Record} (hc : chans c ≠ []) :
    openChannels n (Function.update chans c (r :: rest)) = openChannels n chans := by
  ext d
  rw [mem_openChannels, mem_openChannels]
  by_cases hdc : d = c
  · subst hdc
    simp [hc]
  · simp [hdc]

/-- What is left of a run of the loop: the records that come out, with the picks, and what
they do to the trees. -/
structure EeMerge.Finished (hash : Bytes → Digest) (n : Nat) (chans : Nat → List Record)
    (w w' : EeMerge) (picks : List Nat) (out : List Record) : Prop where
  draws : Draws n chans picks out
  greedy : Greedy Record.prefix24 n chans picks
  flushed : w'.flushed = w.flushed ++ out
  outTree : w'.outTree = (out.map Record.key).foldl (MhtTree.insert hash) w.outTree
  mhtTrees : ∀ c < n, w'.mhtTrees c =
    ((chans c).map Record.key).foldl (MhtTree.insert hash) (w.mhtTrees c)

theorem EeMerge.finished_nil {hash : Bytes → Digest} (hall : ∀ c < n, chans c = []) :
    Finished hash n chans w w [] [] where
  draws := .nil hall
  greedy := trivial
  flushed := (List.append_nil _).symm
  outTree := rfl
  mhtTrees := by
    intro c hc
    rw [hall c hc]
    rfl

/-- One round: the record of the picked channel is flushed as it was, its key goes into
both trees, and the channel is read again. -/
structure EeMerge.Round (hash : Bytes → Digest) (w w' : EeMerge) (s : Nat) (r : Record) : Prop where
  flushed : w'.flushed = w.flushed ++ [r]
  outTree : w'.outTree = w.outTree.insert hash r.key
  mhtTrees : w'.mhtTrees = Function.update w.mhtTrees s ((w.mhtTrees s).insert hash r.key)

theorem EeMerge.round_spec (hash : Bytes → Digest) (h : w.Pending n chans)
    (hsized : SlotSized n chans) {s : Nat} (hs : s < n) {r : Record} {rest : List Record}
    (hr : chans s = r :: rest) :
    ∃ w', ((w.insertMessage hash s).eextracWriteKV s).eextracReadKV s =
        (decide (rest ≠ []), w') ∧
      w'.Pending n (Function.update chans s rest) ∧ Round hash w w' s r := by
  have hmem : r ∈ chans s := hr ▸ List.mem_cons_self
  have hshows : (w.chan s).Shows r := by
    have hholds := h s hs
    rw [hr] at hholds
    exact hholds.2.1
  have hrecord : (⟨(w.chan s).message,
      readBytes (w.chan s).valueData 0 (w.chan s).valueSize⟩ : Record) = r :=
    (Carries.preserved hshows).eq (hsized.key s hs r hmem) (hsized.value s hs r hmem)
  have hmessage : (w.chan s).message = r.key := congrArg Record.key hrecord
  have hpend : ((w.insertMessage hash s).eextracWriteKV s).Pending n chans := h
  have htail : (chans s).tail = rest := by rw [hr]; rfl
  have hfst := hpend.readKV_fst hs
  have hsnd := hpend.readKV hs
  rw [htail] at hfst hsnd
  refine ⟨_, Prod.ext hfst rfl, hsnd, ?_⟩
  refine ⟨congrArg (fun x => w.flushed ++ [x]) hrecord, ?_, ?_⟩
  · exact congrArg (w.outTree.insert hash) hmessage
  · exact congrArg (fun m => Function.update w.mhtTrees s ((w.mhtTrees s).insert hash m)) hmessage

/-- The first draw, then the rest of the run. -/
theorem EeMerge.Finished.cons {hash : Bytes → Digest} {w₁ w₂ : EeMerge} {s : Nat} {r : Record}
    {rest : List Record} {picks : List Nat} {out : List Record}
    (hleast : LeastHead Record.prefix24 n chans s r) (hr : chans s = r :: rest)
    (hround : Round hash w w₁ s r)
    (h : Finished hash n (Function.update chans s rest) w₁ w₂ picks out) :
    Finished hash n chans w w₂ (s :: picks) (r :: out) where
  draws := .cons hleast.channel hr h.draws
  greedy := hleast.greedy hr h.greedy
  flushed := by rw [h.flushed, hround.flushed, List.append_assoc, List.singleton_append]
  outTree := by rw [h.outTree, hround.outTree, List.map_cons, List.foldl_cons]
  mhtTrees := by
    intro c hc
    rw [h.mhtTrees c hc, hround.mhtTrees]
    by_cases hcs : c = s
    · subst hcs
      rw [Function.update_self, Function.update_self, hr, List.map_cons, List.foldl_cons]
    · rw [Function.update_of_ne hcs, Function.update_of_ne hcs]

/-- **The loop of `eextrac_EnclCompact`.** `count` is never below the number of open
channels, so that the loop goes on until all are empty. It may be above it, by the
channels that were empty from the start; then the last scan ends the loop. -/
theorem EeMerge.compactLoop_spec (hash : Bytes → Digest) {fuel count : Nat}
    (hp : w.Pending n chans) (hsized : SlotSized n chans)
    (hcount : (openChannels n chans).card ≤ count)
    (hfuel : ((List.range n).flatMap chans).length < fuel) :
    ∃ w' picks out, EeMerge.compactLoop hash n fuel count w = some w' ∧
      Finished hash n chans w w' picks out := by
  induction fuel generalizing count chans w with
  | zero => exact absurd hfuel (Nat.not_lt_zero _)
  | succ fuel ih =>
    unfold EeMerge.compactLoop
    by_cases hpos : count > 0
    · rw [if_pos hpos]
      rcases eextracFindSmallest_spec hp hsized.long with ⟨hnone, hall⟩ | ⟨s, r, hsome, hleast⟩
      · rw [hnone]
        exact ⟨w, [], [], rfl, finished_nil hall⟩
      · obtain ⟨rest, hr⟩ := List.head?_eq_some_iff.mp hleast.head
        obtain ⟨w₁, hround, hp₁, hdone⟩ := round_spec hash hp hsized hleast.channel hr
        have hlen := (flatMap_update_head hleast.channel hr).length_eq
        rw [List.length_cons] at hlen
        have hne : chans s ≠ [] := hr ▸ List.cons_ne_nil _ _
        have hfinish : ∀ count', (openChannels n (Function.update chans s rest)).card ≤ count' →
            ∃ w' picks out, EeMerge.compactLoop hash n fuel count' w₁ = some w' ∧
              Finished hash n chans w w' picks out := by
          intro count' hcount'
          obtain ⟨w', picks, out, hloop, hfin⟩ :=
            ih hp₁ (hsized.tail hr) hcount' (by omega)
          exact ⟨w', s :: picks, r :: out, hloop, hfin.cons hleast hr hdone⟩
        rw [hsome]
        dsimp only
        rw [hround]
        cases rest with
        | nil =>
          apply hfinish
          rw [openChannels_update_nil,
            Finset.card_erase_of_mem (mem_openChannels.mpr ⟨hleast.channel, hne⟩)]
          exact Nat.sub_le_sub_right hcount 1
        | cons y rest =>
          apply hfinish
          rwa [openChannels_update_cons hne]
    · rw [if_neg hpos]
      have hzero : openChannels n chans = ∅ := by
        rw [← Finset.card_eq_zero]
        omega
      refine ⟨w, [], [], rfl, finished_nil fun c hc => ?_⟩
      by_contra hne
      have hin := mem_openChannels.mpr ⟨hc, hne⟩
      rw [hzero] at hin
      exact absurd hin (Finset.notMem_empty c)

/-! ## One call -/

/-- The first reads of all channels. -/
theorem EeMerge.firstReads_spec (hiter : ∀ c < n, w.iter c = chans c) :
    ∃ w', (List.range n).foldl (fun w i => (w.eextracReadKV i).2) w = w' ∧ w'.Pending n chans ∧
      w'.flushed = w.flushed ∧ w'.mhtTrees = w.mhtTrees ∧ w'.outTree = w.outTree := by
  suffices hrun : ∀ i ≤ n, ∃ w', (List.range i).foldl (fun w i => (w.eextracReadKV i).2) w = w' ∧
      w'.Pending i chans ∧ (∀ c, i ≤ c → w'.iter c = w.iter c) ∧
      w'.flushed = w.flushed ∧ w'.mhtTrees = w.mhtTrees ∧ w'.outTree = w.outTree by
    obtain ⟨w', heq, hp, -, hrest⟩ := hrun n (le_refl n)
    exact ⟨w', heq, hp, hrest⟩
  intro i
  induction i with
  | zero =>
    intro _
    exact ⟨w, rfl, fun c hc => absurd hc (Nat.not_lt_zero c), fun _ _ => rfl, rfl, rfl, rfl⟩
  | succ i ih =>
    intro hi
    obtain ⟨w', heq, hp, hlater, hflushed, htrees, hout⟩ := ih (Nat.le_of_succ_le hi)
    refine ⟨(w'.eextracReadKV i).2, ?_, ?_, ?_, hflushed, htrees, hout⟩
    · rw [List.range_succ, List.foldl_append, heq]
      rfl
    · intro c hc
      rcases Nat.lt_succ_iff_lt_or_eq.mp hc with hlt | rfl
      · have hne : c ≠ i := Nat.ne_of_lt hlt
        simpa [eextracReadKV, hne] using hp c hlt
      · have hload := reloadEextrac_holds (w'.iter c)
        have hsame : w'.iter c = chans c := (hlater c (le_refl c)).trans (hiter c hi)
        rw [hsame] at hload
        simpa [eextracReadKV, hsame] using hload
    · intro c hc
      have hne : c ≠ i := by omega
      simpa [eextracReadKV, hne] using hlater c (Nat.le_of_succ_le hc)

/-- **One compaction with an extra copy**: it returns, what it flushes is the greedy merge
of the channels, and the trees are over the keys of the channels and of the output. -/
theorem eextracEnclCompact_spec (hash : Bytes → Digest) (chan : Nat → EeChannel) {fuel : Nat}
    (hsized : SlotSized n chans) (hfuel : ((List.range n).flatMap chans).length < fuel) :
    ∃ v picks, eextracEnclCompact hash fuel n chan chans = some v ∧
      Draws n chans picks v.flushed ∧ Greedy Record.prefix24 n chans picks ∧
      v.outTree = MhtTree.insertAll hash (v.flushed.map Record.key) ∧
      ∀ c < n, v.mhtTrees c = MhtTree.insertAll hash ((chans c).map Record.key) := by
  obtain ⟨w, hfirst, hp, hflushed, htrees, hout⟩ :=
    EeMerge.firstReads_spec (w := ⟨chan, chans, [], fun _ => MhtTree.null, MhtTree.null⟩)
      (fun c (_ : c < n) => rfl)
  have hopen : (openChannels n chans).card ≤ n := by
    have hcard := Finset.card_filter_le (Finset.range n) fun c => chans c ≠ []
    rwa [Finset.card_range] at hcard
  obtain ⟨v, picks, out, hrun, hfin⟩ := EeMerge.compactLoop_spec hash hp hsized hopen hfuel
  have hall : v.flushed = out := by rw [hfin.flushed, hflushed, List.nil_append]
  refine ⟨v, picks, ?_, hall ▸ hfin.draws, hfin.greedy, ?_, ?_⟩
  · rw [eextracEnclCompact, hfirst]
    exact hrun
  · rw [hfin.outTree, hout, hall]
    rfl
  · intro c hc
    rw [hfin.mhtTrees c hc, htrees]
    rfl

/-- **Both merges agree.** On the same channels, with records that fit the buffers, they
return, they deliver the same records in the same order, and each record is the least head
at its time. -/
theorem eextracEnclCompact_eq_onec (hash : Bytes → Digest) (chan : Nat → EeChannel) {arg : GArg}
    (hclean : arg.Clean) {n fuel : Nat} {chans : Nat → List Record} (hsized : SlotSized n chans)
    (hfuel : ((List.range n).flatMap chans).length < fuel) :
    ∃ v w picks, eextracEnclCompact hash fuel n chan chans = some v ∧
      onecEnclCompact fuel n arg chans = some w ∧ v.flushed = w.flushed.flatten ∧
      Draws n chans picks v.flushed ∧ Greedy Record.prefix24 n chans picks := by
  obtain ⟨v, picks, hrun, hdraws, hgreedy, -⟩ := eextracEnclCompact_spec hash chan hsized hfuel
  obtain ⟨w, out, honec, hdraws', hitems, -, hgreedy'⟩ := onecEnclCompact_spec hclean hfuel
  have hout : w.flushed.flatten = out :=
    forall₂_preserved_eq hdraws' hsized.key hsized.value hitems
  have hsame := (hdraws.unique hgreedy hdraws' (hgreedy' hsized.long.comparable)).2
  exact ⟨v, w, picks, hrun, honec, hsame.trans hout.symm, hdraws, hgreedy⟩

/-- Three channels: a tie between the first and the last, and an empty one. -/
def tiedChannels : Nat → List Record
  | 0 => [⟨List.replicate 24 7, [1]⟩, ⟨List.replicate 24 8, []⟩]
  | 2 => [⟨List.replicate 24 7 ++ [5], [2]⟩]
  | _ => []

theorem eextracEnclCompact_eq_onec_tied :
    ∃ v w picks, eextracEnclCompact firstBytes 4 3 (fun _ => (reloadEextrac []).1) tiedChannels =
        some v ∧
      onecEnclCompact 4 3 GArg.init tiedChannels = some w ∧ v.flushed = w.flushed.flatten ∧
      Draws 3 tiedChannels picks v.flushed ∧ Greedy Record.prefix24 3 tiedChannels picks :=
  eextracEnclCompact_eq_onec firstBytes _ GArg.init_clean
    ⟨by unfold LongKeys; decide, by decide, by decide⟩ (by decide)

end Lpad
