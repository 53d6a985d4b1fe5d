import Lpad.Base.Bytes
import Lpad.Base.Frontier
import Mathlib.Data.List.Induction

/-!
# The Merkle accumulator of the enclave

The merge keeps a hash tree over the keys of each channel and one over its output. A tree
is an array of 100 pointers, one for each height. `insert` hashes a message and carries the
digest through the slots that are in use. `build_merkle` of the front writer is the same
function with another hash, so the hash is a parameter.
-/

namespace Lpad

/-- What a hash function writes: 20 bytes. -/
structure Digest where
  bytes : Bytes
  length_eq : bytes.length = 20
deriving DecidableEq

/-- The array `tree`; a slot is `none` where the pointer is `NULL`. -/
structure MhtTree where
  slots : List (Option Digest)
  length_eq : slots.length = 100

/-- All pointers are `NULL`. -/
def MhtTree.null : MhtTree := ⟨List.replicate 100 none, List.length_replicate⟩

def MhtTree.slot (tree : MhtTree) (i : Nat) : Option Digest := tree.slots.getD i none

/-- The hash of the 40 bytes `m`: the digest in the slot, then the carry. -/
def hashNode (hash : Bytes → Digest) (left carry : Digest) : Digest :=
  hash (left.bytes ++ carry.bytes)

/-- `insert`. The loop stops at the first slot that is `NULL`; the slots before it are
freed. -/
def MhtTree.insert (hash : Bytes → Digest) (tree : MhtTree) (message : Bytes) : MhtTree where
  slots := carryInto (hashNode hash) (hash message) tree.slots
  length_eq := (length_carryInto _ _).trans tree.length_eq

/-- The tree after `insert` for each of the messages. -/
def MhtTree.insertAll (hash : Bytes → Digest) (messages : List Bytes) : MhtTree :=
  messages.foldl (MhtTree.insert hash) MhtTree.null

variable {hash : Bytes → Digest}

/-- A digest commits to the messages of a perfect tree. -/
abbrev RootOf (hash : Bytes → Digest) (i : Nat) (messages : List Bytes) (root : Digest) : Prop :=
  PerfectRoot hash (hashNode hash) i messages root

/-- The slots of the tree commit to the messages. -/
def MhtTree.CommitsTo (hash : Bytes → Digest) (tree : MhtTree) (messages : List Bytes) : Prop :=
  Commits hash (hashNode hash) 0 messages tree.slots

theorem MhtTree.CommitsTo.insert {tree : MhtTree} {messages : List Bytes}
    (h : tree.CommitsTo hash messages) (message : Bytes)
    (hroom : messages.length + 1 < 2 ^ 100) :
    (tree.insert hash message).CommitsTo hash (messages ++ [message]) := by
  apply Commits.carryInto h (PerfectRoot.leaf message)
  rw [tree.length_eq]
  exact hroom

/-- **Every run of inserts** commits to all its messages, as long as they fit. -/
theorem MhtTree.commitsTo_insertAll (hash : Bytes → Digest) (messages : List Bytes)
    (hfits : messages.length < 2 ^ 100) :
    (MhtTree.insertAll hash messages).CommitsTo hash messages := by
  induction messages using List.reverseRecOn with
  | nil => exact Commits.replicate 100 0
  | append_singleton messages message ih =>
    rw [List.length_append, List.length_singleton] at hfits
    rw [insertAll, List.foldl_append, ← insertAll]
    exact (ih (Nat.lt_of_succ_lt hfits)).insert message hfits

/-- **A binary counter.** The slots in use are the digits of the number of messages, each
has the root over the messages that follow those of the higher slots, and from high to low
they cover every message once. -/
structure MhtTree.Counts (hash : Bytes → Digest) (tree : MhtTree) (messages : List Bytes) :
    Prop where
  occupied : ∀ i < 100, (tree.slot i).isSome = messages.length.testBit i
  digest : ∀ i < 100, ∀ root, tree.slot i = some root → RootOf hash i (slotBlock messages i) root
  covers : ((List.range 100).reverse.flatMap fun i =>
    if (tree.slot i).isSome then slotBlock messages i else []) = messages

theorem MhtTree.CommitsTo.slotHolds {tree : MhtTree} {messages : List Bytes}
    (h : tree.CommitsTo hash messages) {i : Nat} (hi : i < 100) :
    SlotHolds hash (hashNode hash) messages i (tree.slot i) := by
  have hlt : i < tree.slots.length := tree.length_eq ▸ hi
  have hslot : tree.slots[i]? = some (tree.slot i) := by
    rw [slot, List.getD_eq_getElem?_getD, List.getElem?_eq_getElem hlt, Option.getD_some]
  have hholds := Commits.slotHolds h hslot
  rwa [Nat.zero_add] at hholds

/-- **The accumulator is a binary counter** after any sequence of inserts. -/
theorem insertAll_counts (hash : Bytes → Digest) (messages : List Bytes)
    (hfits : messages.length < 2 ^ 100) :
    (MhtTree.insertAll hash messages).Counts hash messages := by
  have hcommits := MhtTree.commitsTo_insertAll hash messages hfits
  have hoccupied : ∀ i < 100,
      ((MhtTree.insertAll hash messages).slot i).isSome = messages.length.testBit i := by
    intro i hi
    have hholds := hcommits.slotHolds hi
    cases hslot : (MhtTree.insertAll hash messages).slot i with
    | none =>
      rw [hslot] at hholds
      exact hholds.symm
    | some root =>
      rw [hslot] at hholds
      exact hholds.1.symm
  constructor
  case occupied => exact hoccupied
  case digest =>
    intro i hi root hslot
    have hholds := hcommits.slotHolds hi
    rw [hslot] at hholds
    exact hholds.2
  case covers =>
    have hblocks := flatMap_slotBlock messages 100
    rw [Nat.div_eq_of_lt hfits, Nat.zero_mul, List.drop_zero] at hblocks
    refine Eq.trans ?_ hblocks
    apply List.flatMap_congr
    intro i hi
    rw [hoccupied i (List.mem_range.mp (List.mem_reverse.mp hi))]

/-- The first 20 bytes of a message, filled up with zeros. -/
def firstBytes (message : Bytes) : Digest := ⟨(message ++ List.replicate 20 0).take 20, by simp⟩

/-- Three messages: a tree over two of them and a leaf. -/
theorem insertAll_counts_three :
    (MhtTree.insertAll firstBytes [[1], [2], [3]]).Counts firstBytes [[1], [2], [3]] :=
  insertAll_counts firstBytes [[1], [2], [3]] (by decide)

end Lpad
