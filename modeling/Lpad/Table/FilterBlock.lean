import Lpad.Base.Run
import Lpad.Table.Bloom

/-!
# Filter blocks

`filter_block.cpp`. There is one filter for every 2 KB of the file, made of the keys in the data
blocks that start there; it may be empty. `none` says that an assertion failed, or that
`CreateFilter` was called with a negative number of keys: the number of keys is passed as an
`int`.
-/

namespace Lpad.Table

/-- `kFilterBaseLg` -/
def kFilterBaseLg : Nat := 11

/-- `kFilterBase` -/
def kFilterBase : Nat := 2 ^ kFilterBaseLg

/-! ## Writing -/

/-- The members of `FilterBlockBuilder`, apart from the policy. `tmp_keys_` is empty between
calls. -/
structure FilterBlockBuilder where
  keys : Bytes
  start : List Nat
  result : Bytes
  filterOffsets : List Nat
deriving DecidableEq, Repr

namespace FilterBlockBuilder

def new : FilterBlockBuilder := ⟨[], [], [], []⟩

def addKey (b : FilterBlockBuilder) (key : Bytes) : FilterBlockBuilder :=
  { b with
    start := b.start ++ [b.keys.length]
    keys := b.keys ++ key }

/-- The slices of `keys_`, made in `GenerateFilter`. -/
def tmpKeys (b : FilterBlockBuilder) : List Bytes :=
  let start := b.start ++ [b.keys.length]
  (List.range b.start.length).map fun i =>
    (b.keys.drop (start.getD i 0)).take (start.getD (i + 1) 0 - start.getD i 0)

variable (policy : FilterPolicy)

/-- `policy_->CreateFilter(keys, num_keys, ..)`, with `num_keys` converted to an `int`. -/
def createFilter (keys : List Bytes) : Option Bytes :=
  let n := keys.length % 2 ^ 32
  if n < 2 ^ 31 then policy.createFilter (keys.take n) else none

/-- `GenerateFilter` -/
def generateFilter (b : FilterBlockBuilder) : Option FilterBlockBuilder :=
  let filterOffsets := b.filterOffsets ++ [uint32 b.result.length]
  if b.start.length = 0 then some { b with filterOffsets }
  else
    match createFilter policy b.tmpKeys with
    | none => none
    | some filter => some ⟨[], [], b.result ++ filter, filterOffsets⟩

/-- The loop of `StartBlock`: as many filters as are missing. -/
def generateFilters : (missing : Nat) → FilterBlockBuilder → Option FilterBlockBuilder
  | 0, b => some b
  | missing + 1, b =>
    match b.generateFilter policy with
    | none => none
    | some b => generateFilters missing b

def startBlock (b : FilterBlockBuilder) (blockOffset : Nat) : Option FilterBlockBuilder :=
  let filterIndex := blockOffset / kFilterBase
  if filterIndex ≥ b.filterOffsets.length then
    b.generateFilters policy (filterIndex - b.filterOffsets.length)
  else none

def finish (b : FilterBlockBuilder) : Option Bytes :=
  match if b.start = [] then some b else b.generateFilter policy with
  | none => none
  | some b =>
    some (b.result ++ b.filterOffsets.flatMap encodeFixed32 ++
      encodeFixed32 (uint32 b.result.length) ++ [UInt8.ofNat kFilterBaseLg])

/-- `StartBlock`, and `AddKey` for each key of the data block. -/
def addBlock (b : FilterBlockBuilder) (block : Nat × List Bytes) : Option FilterBlockBuilder :=
  (b.startBlock policy block.1).map fun b => block.2.foldl addKey b

/-- The calls `(StartBlock AddKey*)*` on a new builder. -/
def addBlocks (blocks : List (Nat × List Bytes)) : Option FilterBlockBuilder :=
  runs (addBlock policy) new blocks

/-- The filter block of some data blocks. -/
def build (blocks : List (Nat × List Bytes)) : Option Bytes :=
  (addBlocks policy blocks).bind fun b => b.finish policy

end FilterBlockBuilder

/-! ## Reading -/

/-- The members of `FilterBlockReader`; `offset` is `offset_ - data_`. -/
structure FilterBlockReader where
  policy : FilterPolicy
  data : Bytes
  offset : Nat
  num : Nat
  baseLg : Nat

namespace FilterBlockReader

/-- The constructor. With `num_` 0 nothing is read. -/
def new (policy : FilterPolicy) (contents : Bytes) : FilterBlockReader :=
  let n := contents.length
  if n < 5 then ⟨policy, [], 0, 0, 0⟩
  else
    let baseLg := (contents.getD (n - 1) 0).toNat
    let lastWord := decodeFixed32 (contents.drop (n - 5))
    if lastWord > n - 5 then ⟨policy, [], 0, 0, baseLg⟩
    else ⟨policy, contents, lastWord, (n - 5 - lastWord) / 4, baseLg⟩

def keyMayMatch (r : FilterBlockReader) (blockOffset : Nat) (key : Bytes) : Option Bool :=
  let index := blockOffset >>> r.baseLg
  if index < r.num then
    let start := decodeFixed32 (r.data.drop (r.offset + index * 4))
    let limit := decodeFixed32 (r.data.drop (r.offset + index * 4 + 4))
    if start ≤ limit ∧ limit ≤ r.offset then
      r.policy.keyMayMatch key ((r.data.drop start).take (limit - start))
    else if start = limit then some false
    else some true
  else some true

end FilterBlockReader

end Lpad.Table
