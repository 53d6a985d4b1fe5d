import Lpad.Base.Cursor
import Lpad.Base.SkipLinks
import Mathlib.Order.WithBot

/-!
# The skip list

`skiplist.h`, for any type of keys and any comparator. Nodes are numbered in the order in which
they are allocated; they are never freed. `Insert` gets the height that `RandomHeight` draws
as an argument. The barriers of the atomic pointers are left out: there is one writer, and a
read is between two insertions.

A search gives `none` if it reads a link that a node does not have or does not end, and
`Insert` also if an assertion fails.
-/

namespace Lpad

def kMaxHeight : Nat := 12

/-- `SkipList::Node`: `next_` has as many links as the node is high. -/
structure SkipNode (K : Type) where
  key : K
  next : List (Option Nat)
deriving DecidableEq, Repr

/-- The members of `SkipList`. Of `head_` only the links are read. -/
structure SkipList (K : Type) where
  head : List (Option Nat)
  nodes : List (SkipNode K)
  maxHeight : Nat
deriving DecidableEq, Repr

namespace SkipList

variable {K : Type}

section Code

variable (cmp : K → K → Ordering) (l : SkipList K)

def new : SkipList K := ⟨List.replicate kMaxHeight none, [], 1⟩

/-- `next_` -/
def links : Place Nat → List (Option Nat)
  | .head => l.head
  | .node i =>
    match l.nodes[i]? with
    | none => []
    | some n => n.next

/-- `Node::Next` -/
def next (x : Place Nat) (level : Nat) : Option (Option Nat) := (l.links x)[level]?

/-- `Node::SetNext` -/
def setNext (x : Place Nat) (level : Nat) (link : Option Nat) : Option (SkipList K) :=
  if level < (l.links x).length then
    match x with
    | .head => some { l with head := l.head.set level link }
    | .node i =>
      some { l with nodes := l.nodes.modify i fun n => { n with next := n.next.set level link } }
  else none

/-- `KeyIsAfterNode`, for a node that is not `NULL`. -/
def keyIsAfterNode (key : K) (n : Nat) : Bool :=
  match l.nodes[n]? with
  | none => false
  | some node => cmp node.key key = .lt

/-- The loop of the three searches: go on along a level while `advance` says so, then go down.
The place where it ends, the link there, and `prev`. -/
def descend (advance : Nat → Bool) : (fuel : Nat) → (x : Place Nat) → (level : Nat) →
    (prev : Nat → Option (Place Nat)) →
    Option (Place Nat × Option Nat × (Nat → Option (Place Nat)))
  | 0, _, _, _ => none
  | fuel + 1, x, level, prev =>
    match l.next x level with
    | none => none
    | some next =>
      match next.filter advance with
      | some n => descend advance fuel (.node n) level prev
      | none =>
        let prev := Function.update prev level (some x)
        match level with
        | 0 => some (x, next, prev)
        | level + 1 => descend advance fuel x level prev

/-- From the head, on the highest level. Each round passes a node or goes down. -/
def search (advance : Nat → Bool) :
    Option (Place Nat × Option Nat × (Nat → Option (Place Nat))) :=
  l.descend advance (l.nodes.length + l.maxHeight) .head (l.maxHeight - 1) fun _ => none

def findGreaterOrEqual (key : K) : Option (Option Nat × (Nat → Option (Place Nat))) :=
  (l.search (l.keyIsAfterNode cmp key)).map fun (_, next, prev) => (next, prev)

/-- `FindLessThan`; the loop goes on over the same nodes as that of `FindGreaterOrEqual`. -/
def findLessThan (key : K) : Option (Place Nat) :=
  (l.search (l.keyIsAfterNode cmp key)).map fun (x, _, _) => x

def findLast : Option (Place Nat) := (l.search fun _ => true).map fun (x, _, _) => x

/-- The round of the loop of `Insert` for one level. -/
def linkLevel (prev : Nat → Option (Place Nat)) (x : Nat) (i : Nat) : Option (SkipList K) :=
  match prev i with
  | none => none
  | some p =>
    match l.next p i with
    | none => none
    | some next =>
      match l.setNext (.node x) i next with
      | none => none
      | some l => l.setNext p i (some x)

/-- The loop of `Insert`, for the levels from `i` on. -/
def linkLevels (prev : Nat → Option (Place Nat)) (x : Nat) :
    (rounds : Nat) → (i : Nat) → SkipList K → Option (SkipList K)
  | 0, _, l => some l
  | rounds + 1, i, l =>
    match l.linkLevel prev x i with
    | none => none
    | some l => linkLevels prev x rounds (i + 1) l

/-- `Equal(key, x->key)` -/
def equalTo (key : K) (x : Nat) : Bool :=
  match l.nodes[x]? with
  | none => false
  | some node => cmp key node.key = .eq

def insert (key : K) (height : Nat) : Option (SkipList K) :=
  match l.findGreaterOrEqual cmp key with
  | none => none
  | some (x, prev) =>
    if x.any (l.equalTo cmp key) then none
    else
      let prev := fun i => if l.maxHeight ≤ i ∧ i < height then some .head else prev i
      let maxHeight := if height > l.maxHeight then height else l.maxHeight
      let nodes := l.nodes ++ [⟨key, List.replicate height none⟩]
      linkLevels prev l.nodes.length height 0 { l with nodes, maxHeight }

/-- The keys on a level, in the order of its links. -/
def follow (level : Nat) : (fuel : Nat) → Option Nat → Option (List K)
  | _, none => some []
  | 0, some _ => none
  | fuel + 1, some i =>
    match l.nodes[i]? with
    | none => none
    | some node =>
      match node.next[level]? with
      | none => none
      | some next => (follow level fuel next).map (node.key :: ·)

def levelKeys (level : Nat) : Option (List K) :=
  (l.next .head level).bind (l.follow level l.nodes.length)

/-! `SkipList::Iterator`: the state is `node_`. -/

/-- A node that was found, where the head stands for `NULL`. -/
def toNode : Place Nat → Option Nat
  | .head => none
  | .node i => some i

def iteratorKey [Inhabited K] (node : Option Nat) : K :=
  match node.bind fun i => l.nodes[i]? with
  | none => default
  | some n => n.key

def iteratorPrev (node : Option Nat) : Option (Option Nat) :=
  match node.bind fun i => l.nodes[i]? with
  | none => none
  | some n => (l.findLessThan cmp n.key).map toNode

def iterator [Inhabited K] : Iterator (Option Nat) K Unit where
  valid node := node.isSome
  key node := l.iteratorKey node
  value _ := ()
  move
    | .seekToFirst, _ => l.next .head 0
    | .seekToLast, _ => l.findLast.map toNode
    | .seek target, _ => (l.findGreaterOrEqual cmp target).map fun (next, _) => next
    | .next, node => node.bind fun i => l.next (.node i) 0
    | .prev, node => l.iteratorPrev cmp node

end Code

end SkipList

end Lpad
