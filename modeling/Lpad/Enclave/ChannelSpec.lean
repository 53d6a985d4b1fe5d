import Lpad.Enclave.MergeSort

/-!
# What one channel delivers

`Channel.Holds ch iter pend` says that a channel, together with the iterator
behind it, still has the records `pend` to deliver: either nothing is loaded and
they all sit in the iterator, or they are the slots from the cursor on followed
by the iterator. The two sentinels and the end condition of `onec_readKV` all
come out of this one relation:

- `Holds.readKV_next` — under a valid cursor the call steps over one record and
  returns `1`, also when it steps past the last one;
- `Holds.readKV_refresh` — without one it returns whether anything is left, and
  leaves a valid cursor in the first case and `-1` in the second.
-/

namespace Lpad

/-! ## Reading back what was written -/

@[simp] theorem readBytes_length (mem : Nat → Byte) (start len : Nat) :
    (readBytes mem start len).length = len := by
  simp [readBytes]

theorem readBytes_take (mem : Nat → Byte) (start len k : Nat) :
    (readBytes mem start len).take k = readBytes mem start (min k len) := by
  rw [readBytes, readBytes, ← List.map_take, List.take_range]

theorem readBytes_congr {mem mem' : Nat → Byte} {start start' len : Nat}
    (h : ∀ i < len, mem (start + i) = mem' (start' + i)) :
    readBytes mem start len = readBytes mem' start' len := by
  apply List.map_congr_left
  intro i hi
  exact h i (List.mem_range.mp hi)

theorem readBytes_writeBytes (mem : Nat → Byte) (start : Nat) (bs : Bytes) :
    readBytes (writeBytes mem start bs) start bs.length = bs := by
  apply List.ext_getElem (by simp)
  intro i hi hi'
  simp [readBytes, writeBytes, hi']

/-- A write leaves a block alone that lies wholly before or wholly after it. -/
theorem readBytes_writeBytes_apart {mem : Nat → Byte} {start len at' : Nat} {bs : Bytes}
    (h : start + len ≤ at' ∨ at' + bs.length ≤ start) :
    readBytes (writeBytes mem at' bs) start len = readBytes mem start len := by
  apply readBytes_congr
  intro i hi
  have hout : ¬ (at' ≤ start + i ∧ start + i < at' + bs.length) := by omega
  simp [writeBytes, hout]

/-! ## Slots -/

/-- Slot `slot` of a pair of byte arrays carries `r`: the sizes are those of `r`,
and the bytes are those of `r` as far as the slot reaches. -/
structure Carries (keyData : Nat → Byte) (keySizes : Nat → Nat) (valueData : Nat → Byte)
    (valueSizes : Nat → Nat) (slot : Nat) (r : Record) : Prop where
  keySize : keySizes slot = r.key.length
  keyBytes : readBytes keyData (slot * 32) (min 32 r.key.length) = r.key.take 32
  valueSize : valueSizes slot = r.value.length
  valueBytes : readBytes valueData (slot * 100) (min 100 r.value.length) = r.value.take 100

/-- Two slots of `w` bytes do not meet. -/
theorem slots_apart {w i j a b : Nat} (h : i ≠ j) (ha : a ≤ w) (hb : b ≤ w) :
    i * w + a ≤ j * w ∨ j * w + b ≤ i * w := by
  rcases Nat.lt_or_gt_of_ne h with hlt | hlt
  · left
    have := Nat.mul_le_mul_right w (Nat.succ_le_of_lt hlt)
    rw [Nat.succ_mul] at this
    omega
  · right
    have := Nat.mul_le_mul_right w (Nat.succ_le_of_lt hlt)
    rw [Nat.succ_mul] at this
    omega

def Channel.Carries (ch : Channel) (slot : Nat) (r : Record) : Prop :=
  Lpad.Carries ch.keyData ch.keySizes ch.valueData ch.valueSizes slot r

theorem Channel.loadSlot_carries (ch : Channel) (index : Nat) (r : Record) :
    (ch.loadSlot index r).Carries index r := by
  refine ⟨by simp [loadSlot], ?_, by simp [loadSlot], ?_⟩
  · have h := readBytes_writeBytes ch.keyData (index * 32) (r.key.take 32)
    rwa [List.length_take] at h
  · have h := readBytes_writeBytes ch.valueData (index * 100) (r.value.take 100)
    rwa [List.length_take] at h

theorem Channel.loadSlot_frame {ch : Channel} {index slot : Nat} {r r' : Record}
    (hne : slot ≠ index) (h : ch.Carries slot r') :
    (ch.loadSlot index r).Carries slot r' := by
  refine ⟨?_, ?_, ?_, ?_⟩
  · rw [← h.keySize]
    exact Function.update_of_ne hne _ _
  · rw [← h.keyBytes]
    exact readBytes_writeBytes_apart (slots_apart hne (by omega) (List.length_take_le _ _))
  · rw [← h.valueSize]
    exact Function.update_of_ne hne _ _
  · rw [← h.valueBytes]
    exact readBytes_writeBytes_apart (slots_apart hne (by omega) (List.length_take_le _ _))

/-! ## Refilling a buffer -/

/-- The refill loop from `index` on: it takes as many records as slots are left,
puts them in order, and touches no slot before `index`. -/
theorem Channel.reloadLoop_spec : ∀ (iter : List Record) (ch : Channel) (index : Nat),
    index ≤ bufferSize →
    ∃ ch', ch.reloadLoop iter index =
        (ch', iter.drop (bufferSize - index), index + (iter.take (bufferSize - index)).length) ∧
      ch'.inIndex = ch.inIndex ∧
      (∀ slot < index, ∀ r, ch.Carries slot r → ch'.Carries slot r) ∧
      (∀ i r, (iter.take (bufferSize - index))[i]? = some r → ch'.Carries (index + i) r)
  | [], ch, index, _ => ⟨ch, by simp [reloadLoop], rfl, fun _ _ _ h => h, by simp⟩
  | r :: rest, ch, index, hle => by
    by_cases hlt : index < bufferSize
    · obtain ⟨ch', heq, hidx, hold, hnew⟩ :=
        reloadLoop_spec rest (ch.loadSlot index r) (index + 1) hlt
      have hsub : bufferSize - index = bufferSize - (index + 1) + 1 := by omega
      refine ⟨ch', ?_, hidx, ?_, ?_⟩
      · rw [reloadLoop, if_pos hlt, heq, hsub]
        simp only [List.drop_succ_cons, List.take_succ_cons, List.length_cons]
        rw [Nat.add_assoc, Nat.add_comm 1]
      · intro slot hslot r' hr'
        exact hold slot (by omega) r' (loadSlot_frame (by omega) hr')
      · intro i r' hi
        rw [hsub, List.take_succ_cons] at hi
        cases i with
        | zero =>
          obtain rfl : r = r' := by simpa using hi
          exact hold index (by omega) r (loadSlot_carries ch index r)
        | succ i =>
          have := hnew i r' (by simpa using hi)
          rwa [Nat.add_assoc, Nat.add_comm 1] at this
    · have hfull : bufferSize - index = 0 := by omega
      refine ⟨ch, ?_, rfl, fun _ _ _ h => h, ?_⟩
      · rw [reloadLoop, if_neg hlt, hfull]
        rfl
      · rw [hfull]
        simp

/-- `do_reload_1c`: the buffer now carries the next records, at most 1024. -/
theorem Channel.reload_spec (ch : Channel) (iter : List Record) :
    ∃ ch', ch.reload iter = (ch', iter.drop bufferSize) ∧
      ch'.inIndex = ch.inIndex ∧ ch'.dataCount = (iter.take bufferSize).length ∧
      ∀ i r, (iter.take bufferSize)[i]? = some r → ch'.Carries i r := by
  obtain ⟨ch', heq, hidx, -, hnew⟩ := reloadLoop_spec iter ch 0 (Nat.zero_le _)
  refine ⟨{ ch' with dataCount := (iter.take bufferSize).length }, ?_, hidx, rfl, ?_⟩
  · rw [reload, heq]
    simp
  · intro i r hi
    have := hnew i r hi
    rwa [Nat.zero_add] at this

/-! ## Pending records -/

/-- What the channel has still to deliver. -/
inductive Channel.Holds (ch : Channel) (iter : List Record) : List Record → Prop
  | unloaded (h : ch.inIndex = -1) : ch.Holds iter iter
  | loaded (i : Nat) (buf : List Record) (hi : ch.inIndex = i) (hle : i ≤ buf.length)
      (hcount : ch.dataCount = buf.length) (hmax : buf.length ≤ bufferSize)
      (hlast : buf.length < bufferSize → iter = [])
      (hslots : ∀ k r, buf[k]? = some r → ch.Carries k r) :
      ch.Holds iter (buf.drop i ++ iter)

/-- The cursor is on a loaded slot: neither unloaded nor past the last record. -/
def Channel.Ready (ch : Channel) : Prop := ch.inIndex ≠ -1 ∧ ch.inIndex ≠ ch.dataCount

/-- A ready cursor that is at most one past the data is on the data. -/
theorem Channel.Ready.lt_length {ch : Channel} {i count : Nat} (hr : ch.Ready)
    (hi : ch.inIndex = i) (hcount : ch.dataCount = count) (hle : i ≤ count) : i < count := by
  have hne := hr.2
  rw [hi, hcount] at hne
  omega

/-- A ready channel has its next record in the slot under the cursor. -/
theorem Channel.Holds.cursor {ch : Channel} {iter pend : List Record}
    (h : ch.Holds iter pend) (hr : ch.Ready) :
    ∃ r rest, pend = r :: rest ∧ ch.Carries ch.inIndex.toNat r := by
  cases h with
  | unloaded h => exact absurd h hr.1
  | loaded i buf hi hle hcount hmax hlast hslots =>
    have hlt : i < buf.length := hr.lt_length hi hcount hle
    refine ⟨buf[i], buf.drop (i + 1) ++ iter, ?_, ?_⟩
    · rw [List.drop_eq_getElem_cons hlt, List.cons_append]
    · rw [hi]
      exact hslots i _ (List.getElem?_eq_getElem hlt)

/-- **Reading under a valid cursor** steps over one record and returns `1`. It
does so even on the last record: the cursor is then one past the data. -/
theorem Channel.Holds.readKV_next {ch : Channel} {iter : List Record} {r : Record}
    {rest : List Record} (h : ch.Holds iter (r :: rest)) (hr : ch.Ready) :
    ∃ ch', ch.readKV iter = (true, ch', iter) ∧ ch'.Holds iter rest := by
  generalize hp : r :: rest = pend at h
  cases h with
  | unloaded h => exact absurd h hr.1
  | loaded i buf hi hle hcount hmax hlast hslots =>
    have hlt : i < buf.length := hr.lt_length hi hcount hle
    have hsentinel : ¬ (ch.inIndex = bufferSize ∨ ch.inIndex = -1) := by omega
    have hrest : rest = buf.drop (i + 1) ++ iter := by
      rw [List.drop_eq_getElem_cons hlt, List.cons_append] at hp
      exact (List.cons.inj hp).2
    refine ⟨ch.setIndex (ch.inIndex + 1), ?_, ?_⟩
    · rw [readKV, if_neg hsentinel, if_neg hr.2]
    · rw [hrest]
      exact .loaded (i + 1) buf (by simp [setIndex, hi]) hlt hcount hmax hlast hslots

/-- **Reading without a valid cursor** returns whether the channel has a record
left; the cursor is then on it, and `-1` otherwise. -/
theorem Channel.Holds.readKV_refresh {ch : Channel} {iter pend : List Record}
    (h : ch.Holds iter pend) (hr : ¬ ch.Ready) :
    ∃ ch' iter', ch.readKV iter = (decide (pend ≠ []), ch', iter') ∧
      ch'.Holds iter' pend ∧
      (pend ≠ [] → ch'.Ready) ∧ (pend = [] → ch'.inIndex = -1) := by
  -- the refill path, from an unloaded and from a used-up buffer alike
  have refill : ∀ l : List Record, (ch.inIndex = bufferSize ∨ ch.inIndex = -1) →
      ∃ ch' iter', ch.readKV l = (decide (l ≠ []), ch', iter') ∧ ch'.Holds iter' l ∧
        (l ≠ [] → ch'.Ready) ∧ (l = [] → ch'.inIndex = -1) := by
    intro l hs
    obtain ⟨ch', heq, -, hcount, hslots⟩ := ch.reload_spec l
    cases l with
    | nil =>
      refine ⟨ch'.setIndex (-1), [], ?_, .unloaded rfl, by simp, fun _ => rfl⟩
      rw [readKV, if_pos hs, heq]
      simp [hcount]
    | cons r rest =>
      have hne : ch'.dataCount ≠ 0 := by
        rw [hcount]
        simp [bufferSize]
      refine ⟨ch'.setIndex 0, (r :: rest).drop bufferSize, ?_, ?_, ?_, by simp⟩
      · rw [readKV, if_pos hs, heq]
        simp [hne]
      · have hlast : ((r :: rest).take bufferSize).length < bufferSize →
            (r :: rest).drop bufferSize = [] := by
          intro hlt
          rw [List.length_take] at hlt
          rw [List.drop_eq_nil_iff]
          omega
        have hload : (ch'.setIndex 0).Holds ((r :: rest).drop bufferSize)
            (((r :: rest).take bufferSize).drop 0 ++ (r :: rest).drop bufferSize) :=
          .loaded 0 _ rfl (Nat.zero_le _) hcount (List.length_take_le _ _) hlast hslots
        rwa [List.drop_zero, List.take_append_drop] at hload
      · intro _
        refine ⟨by simp [setIndex], ?_⟩
        simp only [setIndex]
        omega
  cases h with
  | unloaded h => exact refill iter (Or.inr h)
  | loaded i buf hi hle hcount hmax hlast hslots =>
    -- not ready means that the cursor is past the last record of the buffer
    have hend : i = buf.length := by
      by_contra hne
      apply hr
      constructor
      · rw [hi]; omega
      · rw [hi, hcount]; omega
    subst hend
    rw [List.drop_length, List.nil_append]
    by_cases hfull : buf.length = bufferSize
    · exact refill iter (Or.inl (by rw [hi, hfull]))
    · have hnil : iter = [] := hlast (by omega)
      subst hnil
      have hsentinel : ¬ (ch.inIndex = bufferSize ∨ ch.inIndex = -1) := by omega
      refine ⟨ch.setIndex (-1), [], ?_, .unloaded rfl, by simp, fun _ => rfl⟩
      rw [readKV, if_neg hsentinel, if_pos (by rw [hi, hcount])]
      simp

end Lpad
