import Lpad.Format.Coding
import Lpad.Format.InternalKey
import Lpad.Format.Status

/-!
# Write batches

`write_batch.cpp`. A batch is one byte string: an 8-byte sequence number, a 4-byte
count and the records. This string is what goes to the log, and `InsertInto`
decodes it again to fill the memtable, the first record under the sequence number
of the header and each further one under the next number.

`WriteBatch.Encodes b ops` says that `b` holds the operations `ops`. The operations
on batches keep it, and `insertInto_encodes` says what such a batch puts into the
memtable.
-/

namespace Lpad

/-- `WriteBatch::rep_` -/
structure WriteBatch where
  rep : Bytes
deriving DecidableEq, Repr

/-- The header is an 8-byte sequence number followed by a 4-byte count. -/
def kHeader : Nat := 12

/-- Overwriting bytes in place. -/
def overwrite (rep : Bytes) (pos : Nat) (bs : Bytes) : Bytes :=
  rep.take pos ++ bs ++ rep.drop (pos + bs.length)

namespace WriteBatch

/-- The batch after `Clear`. -/
def clear : WriteBatch := ⟨List.replicate kHeader 0⟩

/-- `WriteBatchInternal::Count`. The code's result is an `int`; see `Encodes.small`. -/
def count (b : WriteBatch) : Nat := decodeFixed32 (b.rep.drop 8)

def setCount (b : WriteBatch) (n : Nat) : WriteBatch := ⟨overwrite b.rep 8 (encodeFixed32 n)⟩

/-- `WriteBatchInternal::Sequence` -/
def sequence (b : WriteBatch) : Nat := decodeFixed64 b.rep

def setSequence (b : WriteBatch) (seq : Nat) : WriteBatch :=
  ⟨overwrite b.rep 0 (encodeFixed64 seq)⟩

/-- `WriteBatchInternal::Contents` -/
def contents (b : WriteBatch) : Bytes := b.rep

/-- `WriteBatchInternal::ByteSize` -/
def byteSize (b : WriteBatch) : Nat := b.rep.length

/-- `WriteBatchInternal::SetContents` on any batch. -/
def setContents (contents : Bytes) : WriteBatch := ⟨contents⟩

def put (b : WriteBatch) (key value : Bytes) : WriteBatch :=
  ⟨(b.setCount (b.count + 1)).rep ++
    1 :: (putLengthPrefixedSlice key ++ putLengthPrefixedSlice value)⟩

def delete (b : WriteBatch) (key : Bytes) : WriteBatch :=
  ⟨(b.setCount (b.count + 1)).rep ++ 0 :: putLengthPrefixedSlice key⟩

/-- `WriteBatchInternal::Append` -/
def append (dst src : WriteBatch) : WriteBatch :=
  ⟨(dst.setCount (dst.count + src.count)).rep ++ src.rep.drop kHeader⟩

end WriteBatch

/-! ## `Iterate` and `InsertInto` -/

section Iterate

variable {σ : Type*} (put : σ → Bytes → Bytes → σ) (delete : σ → Bytes → σ)

/-- The `while` loop of `WriteBatch::Iterate` over a handler with state `σ`: the
state, and the number of records found or the error. Every round consumes a byte,
so as many rounds as there are bytes are enough. -/
def iterateLoop : Nat → Bytes → Nat → σ → σ × Except Status Nat
  | 0, _, found, s => (s, .ok found)
  | _ + 1, [], found, s => (s, .ok found)
  | fuel + 1, tag :: input, found, s =>
    if tag = 1 then
      match getLengthPrefixedSlice input with
      | none => (s, .error (.corruption "bad WriteBatch Put"))
      | some (key, input) =>
        match getLengthPrefixedSlice input with
        | none => (s, .error (.corruption "bad WriteBatch Put"))
        | some (value, input) => iterateLoop fuel input (found + 1) (put s key value)
    else if tag = 0 then
      match getLengthPrefixedSlice input with
      | none => (s, .error (.corruption "bad WriteBatch Delete"))
      | some (key, input) => iterateLoop fuel input (found + 1) (delete s key)
    else (s, .error (.corruption "unknown WriteBatch tag"))

/-- `WriteBatch::Iterate` -/
def WriteBatch.iterate (b : WriteBatch) (s : σ) : σ × Status :=
  if b.rep.length < kHeader then (s, .corruption "malformed WriteBatch (too small)")
  else
    match iterateLoop put delete b.rep.length (b.rep.drop kHeader) 0 s with
    | (s, .error e) => (s, e)
    | (s, .ok found) =>
      if found ≠ b.count then (s, .corruption "WriteBatch has wrong count") else (s, .ok)

end Iterate

/-- The arguments of one call of `MemTable::Add`. -/
structure MemEntry where
  sequence : Nat
  type : ValueType
  userKey : Bytes
  value : Bytes
deriving DecidableEq, Repr

/-- A memtable, by the entries added to it in order. -/
abbrev MemTable : Type := List MemEntry

/-- `MemTableInserter`: the next sequence number and the memtable. -/
structure MemTableInserter where
  sequence : Nat
  mem : MemTable

def MemTableInserter.put (h : MemTableInserter) (key value : Bytes) : MemTableInserter :=
  ⟨h.sequence + 1, h.mem ++ [⟨h.sequence, .kTypeValue, key, value⟩]⟩

def MemTableInserter.delete (h : MemTableInserter) (key : Bytes) : MemTableInserter :=
  ⟨h.sequence + 1, h.mem ++ [⟨h.sequence, .kTypeDeletion, key, []⟩]⟩

/-- `WriteBatchInternal::InsertInto` -/
def insertInto (b : WriteBatch) (mem : MemTable) : MemTable × Status :=
  let r := b.iterate MemTableInserter.put MemTableInserter.delete ⟨b.sequence, mem⟩
  (r.1.mem, r.2)

/-! ## The operations a batch holds -/

/-- One call of `Put` or `Delete`. -/
inductive BatchOp where
  | put (key value : Bytes)
  | delete (key : Bytes)
deriving DecidableEq, Repr

namespace BatchOp

/-- The record of an operation. -/
def encode : BatchOp → Bytes
  | .put key value => 1 :: (putLengthPrefixedSlice key ++ putLengthPrefixedSlice value)
  | .delete key => 0 :: putLengthPrefixedSlice key

/-- The slices are short enough for their 32-bit lengths. -/
def Fits : BatchOp → Prop
  | .put key value => key.length < 2 ^ 32 ∧ value.length < 2 ^ 32
  | .delete key => key.length < 2 ^ 32

/-- The memtable entry of an operation under a sequence number. -/
def entry (sequence : Nat) : BatchOp → MemEntry
  | .put key value => ⟨sequence, .kTypeValue, key, value⟩
  | .delete key => ⟨sequence, .kTypeDeletion, key, []⟩

theorem encode_length (op : BatchOp) : 2 ≤ op.encode.length := by
  cases op with
  | put key value =>
    have := encodeVarint32_length_pos (uint32 key.length)
    simp only [encode, putLengthPrefixedSlice, List.length_cons, List.length_append]
    omega
  | delete key =>
    have := encodeVarint32_length_pos (uint32 key.length)
    simp only [encode, putLengthPrefixedSlice, List.length_cons, List.length_append]
    omega

end BatchOp

/-- Operations as memtable entries, numbered from `sequence` on. -/
def numbered : (sequence : Nat) → List BatchOp → List MemEntry
  | _, [] => []
  | sequence, op :: ops => op.entry sequence :: numbered (sequence + 1) ops

theorem numbered_append (ops ops' : List BatchOp) : ∀ sequence : Nat,
    numbered sequence (ops ++ ops') =
      numbered sequence ops ++ numbered (sequence + ops.length) ops' := by
  induction ops with
  | nil => intro sequence; simp [numbered]
  | cons op ops ih =>
    intro sequence
    simp [numbered, ih, Nat.add_assoc, Nat.add_comm 1]

@[simp] theorem numbered_length (ops : List BatchOp) : ∀ sequence : Nat,
    (numbered sequence ops).length = ops.length := by
  induction ops with
  | nil => exact fun _ => rfl
  | cons op ops ih => intro sequence; simp [numbered, ih]

/-- The last of the entries has the last number. -/
theorem numbered_getLast {ops : List BatchOp} (h : ops ≠ []) (sequence : Nat) :
    ∃ e, (numbered sequence ops).getLast? = some e ∧ e.sequence + 1 = sequence + ops.length := by
  obtain ⟨ops, op, rfl⟩ := List.eq_nil_or_concat ops |>.resolve_left h
  refine ⟨op.entry (sequence + ops.length), ?_, ?_⟩
  · rw [List.concat_eq_append, numbered_append]
    simp [numbered]
  · cases op with
    | _ => simp [BatchOp.entry, Nat.add_assoc]

theorem numbered_bounds : ∀ (ops : List BatchOp) (sequence : Nat), ∀ e ∈ numbered sequence ops,
    sequence ≤ e.sequence ∧ e.sequence < sequence + ops.length
  | [], _, e, he => by cases he
  | op :: ops, sequence, e, he => by
    have hop : (op.entry sequence).sequence = sequence := by
      cases op <;> rfl
    rcases List.mem_cons.mp he with rfl | he
    · rw [hop, List.length_cons]
      omega
    · have := numbered_bounds ops (sequence + 1) e he
      rw [List.length_cons]
      omega

theorem numbered_increasing : ∀ (ops : List BatchOp) (sequence : Nat),
    (numbered sequence ops).Pairwise fun e e' => e.sequence < e'.sequence
  | [], _ => List.Pairwise.nil
  | op :: ops, sequence => by
    have hop : (op.entry sequence).sequence = sequence := by
      cases op <;> rfl
    refine List.pairwise_cons.mpr ⟨?_, numbered_increasing ops (sequence + 1)⟩
    intro e he
    rw [hop]
    exact (numbered_bounds ops (sequence + 1) e he).1

/-- **`b` holds the operations `ops`.** -/
structure WriteBatch.Encodes (b : WriteBatch) (ops : List BatchOp) : Prop where
  header : kHeader ≤ b.rep.length
  records : b.rep.drop kHeader = ops.flatMap BatchOp.encode
  count : b.count = ops.length
  fits : ∀ op ∈ ops, op.Fits
  small : ops.length < 2 ^ 31

/-! ### Overwriting the header -/

theorem overwrite_length {rep bs : Bytes} {pos : Nat} (h : pos + bs.length ≤ rep.length) :
    (overwrite rep pos bs).length = rep.length := by
  simp only [overwrite, List.length_append, List.length_take, List.length_drop]
  omega

theorem drop_overwrite {rep bs : Bytes} {pos n : Nat} (h : pos + bs.length ≤ rep.length)
    (hn : pos + bs.length ≤ n) : (overwrite rep pos bs).drop n = rep.drop n := by
  have hlen : (rep.take pos ++ bs).length = pos + bs.length := by
    simp only [List.length_append, List.length_take]
    omega
  obtain ⟨k, rfl⟩ := Nat.exists_eq_add_of_le hn
  rw [overwrite, ← hlen, ← List.drop_drop, ← List.drop_drop, List.drop_left]

theorem drop_overwrite_self {rep bs : Bytes} {pos : Nat} (h : pos ≤ rep.length) :
    (overwrite rep pos bs).drop pos = bs ++ rep.drop (pos + bs.length) := by
  rw [overwrite, List.append_assoc, List.drop_left' (List.length_take_of_le h)]

namespace WriteBatch

theorem setCount_length {b : WriteBatch} (h : kHeader ≤ b.rep.length) (n : Nat) :
    (b.setCount n).rep.length = b.rep.length :=
  overwrite_length (by simpa [encodeFixed32, kHeader] using h)

theorem drop_setCount {b : WriteBatch} (h : kHeader ≤ b.rep.length) (n : Nat) :
    (b.setCount n).rep.drop kHeader = b.rep.drop kHeader :=
  drop_overwrite (by simpa [encodeFixed32, kHeader] using h) (by simp [encodeFixed32, kHeader])

/-- The count is what was set, also when records have been added behind it. -/
theorem count_setCount_append {b : WriteBatch} (h : kHeader ≤ b.rep.length) {n : Nat}
    (hn : n < 2 ^ 32) (more : Bytes) : count ⟨(b.setCount n).rep ++ more⟩ = n := by
  have h8 : 8 ≤ b.rep.length := (show 8 ≤ kHeader by decide).trans h
  have hlen : 8 ≤ (b.setCount n).rep.length := by
    rw [setCount_length h]
    exact h8
  show decodeFixed32 (((b.setCount n).rep ++ more).drop 8) = n
  rw [List.drop_append_of_le_length hlen, setCount, drop_overwrite_self h8, List.append_assoc]
  exact decodeFixed32_encode hn _

theorem setSequence_length {b : WriteBatch} (h : kHeader ≤ b.rep.length) (seq : Nat) :
    (b.setSequence seq).rep.length = b.rep.length := by
  refine overwrite_length ?_
  rw [encodeFixed64, leBytes_length]
  exact (show 0 + 8 ≤ kHeader by decide).trans h

theorem drop_setSequence {b : WriteBatch} (h : kHeader ≤ b.rep.length) (seq : Nat) {n : Nat}
    (hn : 8 ≤ n) : (b.setSequence seq).rep.drop n = b.rep.drop n := by
  refine drop_overwrite ?_ (by simpa [encodeFixed64] using hn)
  rw [encodeFixed64, leBytes_length]
  exact (show 0 + 8 ≤ kHeader by decide).trans h

theorem sequence_setSequence (b : WriteBatch) {seq : Nat} (h : seq < 2 ^ 64) :
    (b.setSequence seq).sequence = seq := by
  show decodeFixed64 (overwrite b.rep 0 (encodeFixed64 seq)) = seq
  rw [overwrite, List.take_zero, List.nil_append]
  exact decodeFixed64_encode h _

@[simp] theorem count_setSequence {b : WriteBatch} (h : kHeader ≤ b.rep.length) (seq : Nat) :
    (b.setSequence seq).count = b.count := by
  show decodeFixed32 ((b.setSequence seq).rep.drop 8) = _
  rw [drop_setSequence h seq (Nat.le_refl 8)]
  rfl

end WriteBatch

/-! ### The operations on batches keep `Encodes` -/

namespace WriteBatch.Encodes

variable {b src : WriteBatch} {ops ops' : List BatchOp}

theorem clear : WriteBatch.clear.Encodes [] where
  header := Nat.le_refl _
  records := rfl
  count := rfl
  fits := by simp
  small := by decide

/-- Adding records behind the batch and their number to the count. -/
theorem extend (h : b.Encodes ops) (hfits : ∀ op ∈ ops', op.Fits)
    (hsmall : ops.length + ops'.length < 2 ^ 31) :
    Encodes ⟨(b.setCount (b.count + ops'.length)).rep ++ ops'.flatMap BatchOp.encode⟩
      (ops ++ ops') where
  header := by
    show kHeader ≤ ((b.setCount (b.count + ops'.length)).rep ++ _).length
    rw [List.length_append, setCount_length h.header]
    exact h.header.trans (Nat.le_add_right _ _)
  records := by
    show ((b.setCount (b.count + ops'.length)).rep ++ _).drop kHeader = _
    rw [List.drop_append_of_le_length (by rw [setCount_length h.header]; exact h.header),
      drop_setCount h.header, h.records, List.flatMap_append]
  count := by
    rw [List.length_append, ← h.count]
    refine count_setCount_append h.header ?_ _
    rw [h.count]
    omega
  fits := by
    intro op hop
    rcases List.mem_append.mp hop with hop | hop
    · exact h.fits op hop
    · exact hfits op hop
  small := by
    rw [List.length_append]
    exact hsmall

theorem put (h : b.Encodes ops) {key value : Bytes} (hfits : (BatchOp.put key value).Fits)
    (hsmall : ops.length + 1 < 2 ^ 31) :
    (b.put key value).Encodes (ops ++ [.put key value]) := by
  have hmem : ∀ op ∈ [BatchOp.put key value], op.Fits := by simpa using hfits
  have hext := h.extend hmem hsmall
  rwa [List.flatMap_singleton] at hext

theorem delete (h : b.Encodes ops) {key : Bytes} (hfits : (BatchOp.delete key).Fits)
    (hsmall : ops.length + 1 < 2 ^ 31) :
    (b.delete key).Encodes (ops ++ [.delete key]) := by
  have hmem : ∀ op ∈ [BatchOp.delete key], op.Fits := by simpa using hfits
  have hext := h.extend hmem hsmall
  rwa [List.flatMap_singleton] at hext

theorem append (h : b.Encodes ops) (hsrc : src.Encodes ops')
    (hsmall : ops.length + ops'.length < 2 ^ 31) : (b.append src).Encodes (ops ++ ops') := by
  have hext := h.extend hsrc.fits hsmall
  rwa [← hsrc.count, ← hsrc.records] at hext

theorem setSequence (h : b.Encodes ops) (seq : Nat) : (b.setSequence seq).Encodes ops where
  header := by
    rw [setSequence_length h.header]
    exact h.header
  records := by
    rw [drop_setSequence h.header seq (by decide)]
    exact h.records
  count := by
    rw [count_setSequence h.header]
    exact h.count
  fits := h.fits
  small := h.small

/-- A record takes two bytes at least. -/
theorem length_le_byteSize (h : b.Encodes ops) : 2 * ops.length + kHeader ≤ b.byteSize := by
  have hrec : ∀ l : List BatchOp, 2 * l.length ≤ (l.flatMap BatchOp.encode).length := by
    intro l
    induction l with
    | nil => simp
    | cons op l ih =>
      have := op.encode_length
      simp only [List.flatMap_cons, List.length_append, List.length_cons]
      omega
  have hlen := congrArg List.length h.records
  rw [List.length_drop] at hlen
  have := hrec ops
  have := h.header
  unfold byteSize
  omega

end WriteBatch.Encodes

/-! ### What `Iterate` sees -/

/-- What the handler does with the operations, in order. -/
def handle {σ : Type*} (put : σ → Bytes → Bytes → σ) (delete : σ → Bytes → σ) :
    σ → List BatchOp → σ :=
  List.foldl fun s op => match op with
    | .put key value => put s key value
    | .delete key => delete s key

theorem iterateLoop_encode {σ : Type*} (put : σ → Bytes → Bytes → σ) (delete : σ → Bytes → σ) :
    ∀ (ops : List BatchOp) (fuel found : Nat) (s : σ), (∀ op ∈ ops, op.Fits) →
      ops.length ≤ fuel →
      iterateLoop put delete fuel (ops.flatMap BatchOp.encode) found s =
        (handle put delete s ops, .ok (found + ops.length))
  | [], fuel, found, s, _, _ => by cases fuel <;> rfl
  | op :: ops, 0, found, s, _, hfuel => by simp at hfuel
  | op :: ops, fuel + 1, found, s, hfits, hfuel => by
    have hop := hfits op List.mem_cons_self
    have ih := fun s' => iterateLoop_encode put delete ops fuel (found + 1) s'
      (fun o ho => hfits o (List.mem_cons_of_mem _ ho)) (Nat.le_of_succ_le_succ hfuel)
    have hfound : found + 1 + ops.length = found + (op :: ops).length := by
      rw [List.length_cons]
      omega
    rw [List.flatMap_cons]
    cases op with
    | put key value =>
      obtain ⟨hkey, hvalue⟩ := hop
      rw [BatchOp.encode, List.cons_append, List.append_assoc, iterateLoop, if_pos rfl,
        getLengthPrefixedSlice_put hkey]
      dsimp only
      rw [getLengthPrefixedSlice_put hvalue]
      dsimp only
      rw [ih, hfound]
      rfl
    | delete key =>
      rw [BatchOp.encode, List.cons_append, iterateLoop, if_neg (by decide), if_pos rfl,
        getLengthPrefixedSlice_put hop]
      dsimp only
      rw [ih, hfound]
      rfl

theorem WriteBatch.iterate_encodes {σ : Type*} (put : σ → Bytes → Bytes → σ)
    (delete : σ → Bytes → σ) {b : WriteBatch} {ops : List BatchOp} (h : b.Encodes ops) (s : σ) :
    b.iterate put delete s = (handle put delete s ops, .ok) := by
  have hfuel : ops.length ≤ b.rep.length := by
    have := h.length_le_byteSize
    unfold byteSize at this
    omega
  rw [iterate, if_neg (Nat.not_lt.mpr h.header), h.records,
    iterateLoop_encode put delete ops _ 0 s h.fits hfuel]
  simp [h.count]

theorem handle_inserter (ops : List BatchOp) : ∀ (sequence : Nat) (mem : MemTable),
    handle MemTableInserter.put MemTableInserter.delete ⟨sequence, mem⟩ ops =
      ⟨sequence + ops.length, mem ++ numbered sequence ops⟩ := by
  induction ops with
  | nil => intro sequence mem; simp [handle, numbered]
  | cons op ops ih =>
    intro sequence mem
    have hstep : handle MemTableInserter.put MemTableInserter.delete ⟨sequence, mem⟩ (op :: ops) =
        handle MemTableInserter.put MemTableInserter.delete
          ⟨sequence + 1, mem ++ [op.entry sequence]⟩ ops := by
      cases op <;> rfl
    rw [hstep, ih]
    simp [numbered, Nat.add_assoc, Nat.add_comm 1]

/-- **What a batch puts into the memtable**: its operations, numbered from the
sequence number of its header on. -/
theorem insertInto_encodes {b : WriteBatch} {ops : List BatchOp} (h : b.Encodes ops)
    (mem : MemTable) : insertInto b mem = (mem ++ numbered b.sequence ops, .ok) := by
  rw [insertInto, b.iterate_encodes _ _ h, handle_inserter]

end Lpad
