import Mathlib.Algebra.Order.Ring.Nat
import Micron.Lib.PivotRow

/-!
# The leaves of `maps/b_map.hpp`

A leaf is a primary node with an overflow chain for keys that share a hash.
Each node carries its index, by which the leaf list links the nodes in the
order an iteration visits them.  The pool keeps the next index, the leaf list,
`total_size_` and the slab that all nodes lie in.  Of the slab it counts the
slots: which slot a node has is never read, but a slab without a free slot moves,
and a reference into it is then one into memory given back.  The `V *` results
are left out.
-/

set_option autoImplicit false

namespace Micron.BTree

open Function

structure Entry (K V : Type) where
  hash : Nat
  key : K
  value : V

/-- A `pending_op`; `OP_ERASE` carries no value. -/
structure PendingOp (K V : Type) where
  hash : Nat
  key : K
  value : Option V

structure LeafNode (K V : Type) where
  idx : Nat
  entries : List (Entry K V)

structure Leaf (K V : Type) where
  primary : LeafNode K V
  overflow : List (LeafNode K V)

/-- `__slab` with the length of its free list.  `more` says how many slots
`Alloc::grow` adds behind the first, `moves` tells its blocks apart, and `stale`
is set when a node is read in a block that has been given back. -/
structure Slab where
  capacity : Nat
  length : Nat
  freed : Nat
  more : Nat → Nat
  moves : Nat
  stale : Bool

/-- `alloc_slot`. -/
def Slab.alloc (slab : Slab) : Slab :=
  if 0 < slab.freed then { slab with freed := slab.freed - 1 }
  else if slab.length < slab.capacity then { slab with length := slab.length + 1 }
  else
    { slab with
      capacity := slab.capacity + (slab.more slab.capacity + 1)
      length := slab.length + 1
      moves := slab.moves + 1 }

def Slab.free (slab : Slab) (count : Nat) : Slab := { slab with freed := slab.freed + count }

structure Pool where
  next : Nat
  leafList : List Nat
  total : Nat
  slab : Slab

/-- A read of a node through a reference that was taken when the slab had moved
`block` times. -/
def Pool.readAt (pool : Pool) (block : Nat) : Pool :=
  { pool with slab := { pool.slab with stale := pool.slab.stale || pool.slab.moves != block } }

/-- What applying an operation to a subtree gives back: the subtree, the right
half with its pivot if it split, `*out_inserted` and the pool. -/
structure Applied (α : Type) where
  tree : α
  split : Option (Nat × α)
  inserted : Bool
  pool : Pool

def insertAfter (anchor new : Nat) : List Nat → List Nat
  | [] => [new]
  | idx :: rest => if idx = anchor then idx :: new :: rest else idx :: insertAfter anchor new rest

/-- `alloc_leaf` and `leaf_list_insert_after`. -/
def Pool.addAfter (pool : Pool) (anchor : Nat) : Pool :=
  { pool with
    next := pool.next + 1
    leafList := insertAfter anchor pool.next pool.leafList
    slab := pool.slab.alloc }

/-- `alloc_leaf` and `leaf_list_push_front`. -/
def Pool.addFront (pool : Pool) : Pool :=
  { pool with
    next := pool.next + 1
    leafList := pool.next :: pool.leafList
    slab := pool.slab.alloc }

/-- `alloc_internal` for the right half of a node or for a new root, where there is one. -/
def Pool.allocFor {β : Type} (pool : Pool) : Option β → Pool
  | none => pool
  | some _ => { pool with slab := pool.slab.alloc }

section Model
variable {K V : Type} [DecidableEq K]

def Entry.isFor (h : Nat) (k : K) (e : Entry K V) : Bool := e.hash == h && decide (e.key = k)

def PendingOp.isFor (h : Nat) (k : K) (op : PendingOp K V) : Bool :=
  op.hash == h && decide (op.key = k)

def Leaf.nodes (leaf : Leaf K V) : List (LeafNode K V) := leaf.primary :: leaf.overflow

def LeafNode.has (h : Nat) (k : K) (node : LeafNode K V) : Bool := node.entries.any (Entry.isFor h k)

/-- `leaf_find_slot` with the value in the slot. -/
def LeafNode.find (h : Nat) (k : K) (node : LeafNode K V) : Option V :=
  (node.entries.find? (Entry.isFor h k)).map Entry.value

/-- The walk along the overflow chain in `find_impl`. -/
def Leaf.find (leaf : Leaf K V) (h : Nat) (k : K) : Option V :=
  leaf.nodes.findSome? (LeafNode.find h k)

def changeFirst (h : Nat) (k : K) (change : List (Entry K V) → List (Entry K V)) :
    List (LeafNode K V) → List (LeafNode K V)
  | [] => []
  | node :: rest =>
    if node.has h k then { node with entries := change node.entries } :: rest
    else node :: changeFirst h k change rest

def Leaf.changeFirst (h : Nat) (k : K) (change : List (Entry K V) → List (Entry K V))
    (leaf : Leaf K V) : Leaf K V :=
  if leaf.primary.has h k then
    { leaf with primary := { leaf.primary with entries := change leaf.primary.entries } }
  else { leaf with overflow := BTree.changeFirst h k change leaf.overflow }

def overwriteEntry (h : Nat) (k : K) (v : V) : List (Entry K V) → List (Entry K V)
  | [] => []
  | e :: rest => if e.isFor h k then { e with value := v } :: rest else e :: overwriteEntry h k v rest

def Leaf.has (h : Nat) (k : K) (leaf : Leaf K V) : Bool := leaf.nodes.any (LeafNode.has h k)

omit [DecidableEq K] in
/-- `leaf_insert_pos` and the shifts: the entry goes behind all that have at
most its hash. -/
def insertEntry (e : Entry K V) (entries : List (Entry K V)) : List (Entry K V) :=
  entries.takeWhile (fun x => decide (x.hash ≤ e.hash)) ++
    e :: entries.dropWhile (fun x => decide (x.hash ≤ e.hash))

omit [DecidableEq K] in
def LeafNode.insert (e : Entry K V) (node : LeafNode K V) : LeafNode K V :=
  { node with entries := insertEntry e node.entries }

omit [DecidableEq K] in
def LeafNode.hashes (node : LeafNode K V) : List Nat := node.entries.map Entry.hash

omit [DecidableEq K] in
def LeafNode.singleClass (node : LeafNode K V) : Bool :=
  match node.entries.head?, node.entries.getLast? with
  | some first, some last => first.hash == last.hash
  | _, _ => false

/-- `while ( mid < n && hashes[mid - 1] == hashes[mid] ) ++mid`, in `fuel` rounds. -/
def advance (hashes : List Nat) : Nat → Nat → Nat
  | 0, mid => mid
  | fuel + 1, mid =>
    if mid < hashes.length ∧ hashes.getD (mid - 1) 0 = hashes.getD mid 0 then
      advance hashes fuel (mid + 1)
    else mid

/-- `while ( mid > 0 && hashes[mid - 1] == hashes[mid] ) --mid`. -/
def retreat (hashes : List Nat) : Nat → Nat
  | 0 => 0
  | mid + 1 => if hashes.getD mid 0 = hashes.getD (mid + 1) 0 then retreat hashes mid else mid + 1

/-- The cut of `split_leaf_mixed`: the middle, moved off a run of equal hashes. -/
def splitPoint (leafFanout : Nat) (hashes : List Nat) : Nat :=
  let up := advance hashes hashes.length (leafFanout / 2)
  if hashes.length ≤ up then retreat hashes (leafFanout / 2) else up

section Split
variable (leafFanout : Nat)

omit [DecidableEq K] in
/-- `split_leaf_mixed`: the chain stays with the left node. -/
def splitLeafMixed (leaf : Leaf K V) (pool : Pool) : Leaf K V × Nat × Leaf K V × Pool :=
  let entries := leaf.primary.entries
  let mid := splitPoint leafFanout leaf.primary.hashes
  let left : Leaf K V := { leaf with primary := { leaf.primary with entries := entries.take mid } }
  let right : Leaf K V := ⟨⟨pool.next, entries.drop mid⟩, []⟩
  (left, (leaf.primary.hashes.drop mid).headD 0, right, pool.addAfter leaf.primary.idx)

omit [DecidableEq K] in
/-- `asymmetric_split_leaf` of a full leaf of one hash class. -/
def asymmetricSplitLeaf (leaf : Leaf K V) (e : Entry K V) (pool : Pool) :
    Leaf K V × Nat × Leaf K V × Pool :=
  let leafHash := leaf.primary.hashes.headD 0
  if leafHash < e.hash then
    let tail := (leaf.nodes.getLast?.map LeafNode.idx).getD leaf.primary.idx
    (leaf, e.hash, ⟨⟨pool.next, [e]⟩, []⟩, pool.addAfter tail)
  else
    (⟨⟨leaf.primary.idx, [e]⟩, []⟩, leafHash,
      ⟨⟨pool.next, leaf.primary.entries⟩, leaf.overflow⟩, pool.addAfter leaf.primary.idx)

omit [DecidableEq K] in
/-- The chain walk of `chain_insert_same_hash` behind a full primary node: the
first node with space, or a new node at the tail. -/
def chainInsert (e : Entry K V) (pool : Pool) (tail : Nat) :
    List (LeafNode K V) → List (LeafNode K V) × Pool
  | [] => ([⟨pool.next, [e]⟩], pool.addAfter tail)
  | node :: rest =>
    if node.entries.length < leafFanout then (node.insert e :: rest, pool)
    else
      let chained := chainInsert e pool node.idx rest
      (node :: chained.1, chained.2)

omit [DecidableEq K] in
/-- The part of `descend_apply` that inserts a key no node of the leaf holds. -/
def insertNewKey (leaf : Leaf K V) (e : Entry K V) (pool : Pool) : Applied (Leaf K V) :=
  if leaf.primary.entries.length < leafFanout then
    ⟨{ leaf with primary := leaf.primary.insert e }, none, true, pool⟩
  else if leaf.primary.singleClass then
    if e.hash = leaf.primary.hashes.headD 0 then
      let chained := chainInsert leafFanout e pool leaf.primary.idx leaf.overflow
      ⟨{ leaf with overflow := chained.1 }, none, true, chained.2⟩
    else
      let halves := asymmetricSplitLeaf leaf e pool
      ⟨halves.1, some (halves.2.1, halves.2.2.1), true, halves.2.2.2⟩
  else
    let halves := splitLeafMixed leafFanout leaf pool
    let left := halves.1
    let med := halves.2.1
    let right := halves.2.2.1
    if e.hash < med then
      ⟨{ left with primary := left.primary.insert e }, some (med, right), true, halves.2.2.2⟩
    else
      ⟨left, some (med, { right with primary := right.primary.insert e }), true, halves.2.2.2⟩

def leafApply (leaf : Leaf K V) (op : PendingOp K V) (pool : Pool) : Applied (Leaf K V) :=
  match op.value with
  | none =>
    if leaf.has op.hash op.key then
      ⟨leaf.changeFirst op.hash op.key (List.eraseP (Entry.isFor op.hash op.key)), none, true, pool⟩
    else ⟨leaf, none, false, pool⟩
  | some v =>
    if leaf.has op.hash op.key then
      ⟨leaf.changeFirst op.hash op.key (overwriteEntry op.hash op.key v), none, false, pool⟩
    else insertNewKey leafFanout leaf ⟨op.hash, op.key, v⟩ pool

end Split

end Model

/-!
## The buffered B-tree map of `maps/b_map.hpp`

Every bucket is a tree whose leaves all lie at one depth, so a tree is indexed
by its height.  An inner node parks operations in a buffer and pushes them down
when the buffer is full; a child that splits hands its parent a pivot and a
right half.  Hashes are natural numbers below `2 ^ 64`.  Allocation is taken to
succeed.
-/

open Micron.Lib

structure Fanouts where
  leaf : Nat
  inner : Nat
  buffer : Nat

def pickLeafFanout (kvBytes : Nat) : Nat :=
  if kvBytes ≤ 24 then 32 else if kvBytes ≤ 64 then 16 else 8

def pickInternalFanout (_kvBytes : Nat) : Nat := 16

def pickBufSize (fanout : Nat) : Nat := if fanout ≤ 8 then 2 else if fanout ≤ 16 then 4 else 8

/-- The fanouts of `btree_map<K, V, Alloc, FanoutOverride>`; zero is automatic. -/
def pickFanouts (kvBytes fanoutOverride : Nat) : Fanouts :=
  let inner := if 0 < fanoutOverride then fanoutOverride else pickInternalFanout kvBytes
  { leaf := if 0 < fanoutOverride then fanoutOverride else pickLeafFanout kvBytes
    inner := inner
    buffer := pickBufSize inner }

structure Inner (K V α : Type) where
  row : Row α
  buffer : List (PendingOp K V)

def Tree (K V : Type) : Nat → Type
  | 0 => Leaf K V
  | height + 1 => Inner K V (Tree K V height)

def routeGt (fanout : Nat) (pivots : List Nat) (h : Nat) : Nat :=
  if fanout ≤ 8 then scanGt pivots h else bsearchGt pivots h

section InnerNodes
variable {K V α : Type} [DecidableEq K] (fo : Fanouts)

/-- The loop for a pending operation on the same key: the buffer with its value
replaced, and the operation it replaced. -/
def mergePending (op : PendingOp K V) :
    List (PendingOp K V) → Option (List (PendingOp K V) × PendingOp K V)
  | [] => none
  | old :: rest =>
    if old.isFor op.hash op.key then some ({ old with value := op.value } :: rest, old)
    else (mergePending op rest).map fun merged => (old :: merged.1, merged.2)

/-- `buffer_probe`, then the child the hash is routed to. -/
def Inner.find (look : α → Nat → K → Option V) (node : Inner K V α) (h : Nat) (k : K) : Option V :=
  match (node.buffer.filter (PendingOp.isFor h k)).getLast? with
  | some op => op.value
  | none => look (node.row.child (routeGt fo.inner node.row.pivots h)) h k

variable (apply : α → PendingOp K V → Pool → Applied α)

omit [DecidableEq K] in
/-- Applies an operation to the child its hash is routed to and takes in the
child's split. -/
def applyInRow (row : Row α) (op : PendingOp K V) (pool : Pool) : Row α × Bool × Pool :=
  let ci := routeGt fo.inner row.pivots op.hash
  let applied := apply (row.child ci) op pool
  (row.splice ci applied.tree applied.split, applied.inserted, applied.pool)

omit [DecidableEq K] in
/-- The correction of `total_size_` for a drained operation that changed nothing. -/
def correctTotal (op : PendingOp K V) (inserted : Bool) (total : Nat) : Nat :=
  if inserted then total
  else
    match op.value with
    | some _ => total - 1
    | none => total + 1

omit [DecidableEq K] in
def drainLoop : List (PendingOp K V) → Row α → Pool → Row α × Pool
  | [], row, pool => (row, pool)
  | op :: rest, row, pool =>
    let applied := applyInRow fo apply row op pool
    let pool := applied.2.2
    drainLoop rest applied.1 { pool with total := correctTotal op applied.2.1 pool.total }

structure Drained (α : Type) where
  row : Row α
  split : Option (Nat × Row α)
  pool : Pool

omit [DecidableEq K] in
def drainInternalBuffer (node : Inner K V α) (pool : Pool) : Drained α :=
  match node.buffer with
  | [] => ⟨node.row, none, pool⟩
  | ops =>
    let drained := drainLoop fo apply ops node.row pool
    let settled := drained.1.settle (fo.inner - 1)
    ⟨settled.1, settled.2, drained.2.allocFor settled.2⟩

def Drained.target (drained : Drained α) (h : Nat) : Row α :=
  match drained.split with
  | some (p, right) => if p ≤ h then right else drained.row
  | none => drained.row

/-- The right half of a row as a node with an empty buffer. -/
def emptiedHalf (half : Nat × Row α) : Nat × Inner K V α := (half.1, ⟨half.2, []⟩)

omit [DecidableEq K] in
/-- `descend_apply` behind the drain that makes room. -/
def applyDrained (drained : Drained α) (op : PendingOp K V) : Applied (Inner K V α) :=
  let applied := applyInRow fo apply (drained.target op.hash) op drained.pool
  match drained.split with
  | some (p, right) =>
    if p ≤ op.hash then
      ⟨⟨drained.row, []⟩, some (p, ⟨applied.1, []⟩), applied.2.1, applied.2.2⟩
    else ⟨⟨applied.1, []⟩, some (p, ⟨right, []⟩), applied.2.1, applied.2.2⟩
  | none =>
    let settled := applied.1.settle (fo.inner - 1)
    ⟨⟨settled.1, []⟩, settled.2.map emptiedHalf, applied.2.1, applied.2.2.allocFor settled.2⟩

/-- The path of `descend_apply` through an inner node. -/
def innerApply (node : Inner K V α) (op : PendingOp K V) (pool : Pool) :
    Applied (Inner K V α) :=
  match mergePending op node.buffer with
  | some (buffer, old) =>
    ⟨{ node with buffer := buffer }, none, old.value.isSome != op.value.isSome, pool⟩
  | none =>
    if node.buffer.length < fo.buffer then
      ⟨{ node with buffer := node.buffer ++ [op] }, none, true, pool⟩
    else applyDrained fo apply (drainInternalBuffer fo apply node pool) op

omit [DecidableEq K] in
def splitInternal (node : Inner K V α) (pool : Pool) : Drained α :=
  let drained := drainInternalBuffer fo apply node pool
  match drained.split with
  | some _ => drained
  | none =>
    if drained.row.tail.length < 2 then drained
    else
      let halves := drained.row.splitAt (drained.row.tail.length / 2)
      ⟨halves.1, halves.2, drained.pool.allocFor halves.2⟩

end InnerNodes

section Trees
variable {K V : Type} [DecidableEq K] (fo : Fanouts)

/-- `find_impl` from a node on. -/
def Tree.find : (height : Nat) → Tree K V height → Nat → K → Option V
  | 0 => Leaf.find
  | height + 1 => Inner.find fo (Tree.find height)

def descendApply : (height : Nat) → Tree K V height → PendingOp K V → Pool →
    Applied (Tree K V height)
  | 0 => leafApply fo.leaf
  | height + 1 => innerApply fo (descendApply height)

omit [DecidableEq K] in
/-- The leaf nodes of a tree, overflow chains included. -/
def Tree.leaves : (height : Nat) → Tree K V height → List (LeafNode K V)
  | 0 => Leaf.nodes
  | height + 1 => fun node => rowItems (Tree.leaves height) node.row

structure Root (K V : Type) where
  height : Nat
  tree : Tree K V height

omit [DecidableEq K] in
def Root.of (height : Nat) (tree : Tree K V height) : Option (Nat × Tree K V height) → Root K V
  | none => ⟨height, tree⟩
  | some (p, right) => ⟨height + 1, ⟨⟨tree, [(p, right)]⟩, []⟩⟩

def ensureRootCapacity : Root K V → Pool → Root K V × Pool
  | ⟨0, tree⟩, pool =>
    let leaf : Leaf K V := tree
    if leaf.primary.entries.length < fo.leaf then (⟨0, leaf⟩, pool)
    else if leaf.primary.singleClass then (⟨0, leaf⟩, pool)
    else
      let halves := splitLeafMixed fo.leaf leaf pool
      let split := some (halves.2.1, halves.2.2.1)
      (Root.of 0 halves.1 split, halves.2.2.2.allocFor split)
  | ⟨height + 1, tree⟩, pool =>
    let node : Inner K V (Tree K V height) := tree
    if node.row.tail.length < fo.inner - 1 then (⟨height + 1, node⟩, pool)
    else
      let halves := splitInternal fo (descendApply fo height) node pool
      (Root.of (height + 1) ⟨halves.row, []⟩ (halves.split.map emptiedHalf),
        halves.pool.allocFor halves.split)

/-- `ensure_root_capacity`, `descend_apply` and the new root, as `insert_impl` and
`erase_impl` do them. -/
def rootApply (root : Root K V) (op : PendingOp K V) (pool : Pool) : Root K V × Bool × Pool :=
  let ready := ensureRootCapacity fo root pool
  let applied := descendApply fo ready.1.height ready.1.tree op ready.2
  (Root.of ready.1.height applied.tree applied.split, applied.inserted,
    applied.pool.allocFor applied.split)

/-- The loop of `drain_recursive` over the children of a node.  The reference to the
node is taken in front of the loop, when the slab has moved `block` times. -/
def drainRow {α : Type} (drain : α → Pool → α × List (LeafNode K V) × Pool) (block : Nat) :
    α → List (Nat × α) → Pool → Row α × List (LeafNode K V) × Pool
  | c, [], pool =>
    let drained := drain c pool
    (⟨drained.1, []⟩, drained.2.1, drained.2.2)
  | c, (p, c') :: rest, pool =>
    let first := drain c pool
    let later := drainRow drain block c' rest (first.2.2.readAt block)
    (⟨first.1, (p, later.1.head) :: later.1.tail⟩, first.2.1 ++ later.2.1, later.2.2)

def drainChildren {α : Type} (drain : α → Pool → α × List (LeafNode K V) × Pool) (row : Row α)
    (pool : Pool) : Row α × List (LeafNode K V) × Pool :=
  drainRow drain pool.slab.moves row.head row.tail pool

omit [DecidableEq K] in
/-- The nodes that `free_internals_recursive` frees. -/
def Tree.inners : (height : Nat) → Tree K V height → Nat
  | 0, _ => 0
  | height + 1, tree =>
    let node : Inner K V (Tree K V height) := tree
    (node.row.children.map (Tree.inners height)).sum + 1

/-- `drain_recursive`.  When a drain splits its node, the right half is drained,
its inner nodes are freed and its leaves stay in the leaf list only: they are
the second component.  The right half is a fresh node without parked
operations, so draining it is draining its children. -/
def drainRecursive : (height : Nat) → Tree K V height → Pool →
    Tree K V height × List (LeafNode K V) × Pool
  | 0, tree, pool => (tree, [], pool)
  | height + 1, tree, pool =>
    let node : Inner K V (Tree K V height) := tree
    let drained := drainInternalBuffer fo (descendApply fo height) node pool
    let left := drainChildren (drainRecursive height) drained.row drained.pool
    match drained.split with
    | none => (⟨left.1, []⟩, left.2.1, left.2.2)
    | some (_, half) =>
      let right := drainChildren (drainRecursive height) half left.2.2
      let freed := Tree.inners (height + 1) (⟨right.1, []⟩ : Inner K V (Tree K V height))
      (⟨left.1, []⟩, left.2.1 ++ (right.2.1 ++ rowItems (Tree.leaves height) right.1),
        { right.2.2 with slab := right.2.2.slab.free freed })

end Trees

/-! ## The map -/

structure BTreeMap (K V : Type) where
  buckets : Nat → Option (Root K V)
  nBuckets : Nat
  detached : List (LeafNode K V)
  pool : Pool

section Maps
variable {K V : Type} [DecidableEq K] (fo : Fanouts)

omit [DecidableEq K] in
/-- A constructed map, whose slab has room for `capacity` nodes. -/
def BTreeMap.empty (nBuckets capacity : Nat) (more : Nat → Nat) : BTreeMap K V :=
  ⟨fun _ => none, nBuckets, [], ⟨0, [], 0, ⟨capacity, 0, 0, more, 0, false⟩⟩⟩

omit [DecidableEq K] in
def BTreeMap.bucketOf (m : BTreeMap K V) (h : Nat) : Nat := h &&& (m.nBuckets - 1)

omit [DecidableEq K] in
def BTreeMap.size (m : BTreeMap K V) : Nat := m.pool.total

def BTreeMap.find (m : BTreeMap K V) (h : Nat) (k : K) : Option V :=
  match m.buckets (m.bucketOf h) with
  | none => none
  | some root => Tree.find fo root.height root.tree h k

/-- `insert_impl` after `maybe_rehash`. -/
def BTreeMap.place (m : BTreeMap K V) (h : Nat) (k : K) (v : V) : BTreeMap K V × Bool :=
  match m.buckets (m.bucketOf h) with
  | none =>
    let root : Root K V := ⟨0, (⟨⟨m.pool.next, [⟨h, k, v⟩]⟩, []⟩ : Leaf K V)⟩
    ({ m with
        buckets := update m.buckets (m.bucketOf h) (some root)
        pool := { m.pool.addFront with total := m.pool.total + 1 } }, true)
  | some root =>
    let applied := rootApply fo root ⟨h, k, some v⟩ m.pool
    let pool := applied.2.2
    ({ m with
        buckets := update m.buckets (m.bucketOf h) (some applied.1)
        pool := { pool with total := if applied.2.1 then pool.total + 1 else pool.total } },
      applied.2.1)

def BTreeMap.eraseImpl (m : BTreeMap K V) (h : Nat) (k : K) : BTreeMap K V × Bool :=
  match m.buckets (m.bucketOf h) with
  | none => (m, false)
  | some root =>
    let applied := rootApply fo root ⟨h, k, none⟩ m.pool
    let pool := applied.2.2
    ({ m with
        buckets := update m.buckets (m.bucketOf h) (some applied.1)
        pool := { pool with total := if applied.2.1 then pool.total - 1 else pool.total } },
      applied.2.1)

/-- One round of the bucket loops of `flush_all` and `rehash`. -/
def BTreeMap.flushBucket (m : BTreeMap K V) (b : Nat) : BTreeMap K V :=
  match m.buckets b with
  | none => m
  | some root =>
    let drained := drainRecursive fo root.height root.tree m.pool
    { m with
      buckets := update m.buckets b (some ⟨root.height, drained.1⟩)
      detached := m.detached ++ drained.2.1
      pool := drained.2.2 }

def BTreeMap.flushAll (m : BTreeMap K V) : BTreeMap K V :=
  (List.range m.nBuckets).foldl (BTreeMap.flushBucket fo) m

omit [DecidableEq K] in
def rootLeaves : Option (Root K V) → List (LeafNode K V)
  | none => []
  | some root => Tree.leaves root.height root.tree

omit [DecidableEq K] in
/-- Every leaf node there is: those of the buckets and the detached ones. -/
def BTreeMap.allLeaves (m : BTreeMap K V) : List (LeafNode K V) :=
  ((List.range m.nBuckets).flatMap fun b => rootLeaves (m.buckets b)) ++ m.detached

omit [DecidableEq K] in
def BTreeMap.leafWalk (m : BTreeMap K V) : List (LeafNode K V) :=
  m.pool.leafList.filterMap fun idx => m.allLeaves.find? fun node => node.idx == idx

omit [DecidableEq K] in
def BTreeMap.visited (m : BTreeMap K V) : List (Entry K V) := m.leafWalk.flatMap LeafNode.entries

omit [DecidableEq K] in
def rootInners : Option (Root K V) → Nat
  | none => 0
  | some root => Tree.inners root.height root.tree

omit [DecidableEq K] in
/-- The map `rehash` fills: no trees, an empty leaf list, and the inner nodes freed. -/
def BTreeMap.cleared (m : BTreeMap K V) (nBuckets : Nat) : BTreeMap K V :=
  let freed := ((List.range m.nBuckets).map fun b => rootInners (m.buckets b)).sum
  ⟨fun _ => none, nBuckets, [], ⟨m.pool.next, [], 0, m.pool.slab.free freed⟩⟩

omit [DecidableEq K] in
def BTreeMap.freeSlot (m : BTreeMap K V) : BTreeMap K V :=
  { m with pool := { m.pool with slab := m.pool.slab.free 1 } }

def placeAll (m : BTreeMap K V) (entries : List (Entry K V)) : BTreeMap K V :=
  entries.foldl (fun m e => (m.place fo e.hash e.key e.value).1) m

/-- The loop of `rehash` over the old leaf list: a node is freed before its entries
are inserted. -/
def refill (m : BTreeMap K V) (nodes : List (LeafNode K V)) : BTreeMap K V :=
  nodes.foldl (fun m node => placeAll fo m.freeSlot node.entries) m

def BTreeMap.rehash (m : BTreeMap K V) (nBuckets : Nat) : BTreeMap K V :=
  let flushed := m.flushAll fo
  refill fo (flushed.cleared nBuckets) flushed.leafWalk

omit [DecidableEq K] in
def BTreeMap.overloaded (m : BTreeMap K V) : Bool :=
  decide (m.nBuckets * fo.leaf * 7 ≤ m.pool.total * 8)

def BTreeMap.maybeRehash (m : BTreeMap K V) : BTreeMap K V :=
  if m.overloaded fo then m.rehash fo (m.nBuckets * 2) else m

def BTreeMap.insertImpl (m : BTreeMap K V) (h : Nat) (k : K) (v : V) : BTreeMap K V × Bool :=
  (m.maybeRehash fo).place fo h k v

end Maps

/-- `insert` and `erase` on keys; on keys with their hashes, `insert_hash` and
`erase_hash`. -/
inductive BTreeOp (κ V : Type) where
  | insert (key : κ) (value : V)
  | erase (key : κ)

/-- The hash that `insert` and `erase` compute of their key. -/
def BTreeOp.withHash {K V : Type} (hash : K → UInt64) : BTreeOp K V → BTreeOp (UInt64 × K) V
  | .insert key value => .insert (hash key, key) value
  | .erase key => .erase (hash key, key)

/-- An operation, or the flush that `begin()`, `for_each` and `flush_all` start with. -/
inductive BTreeCall (κ V : Type) where
  | op (op : BTreeOp κ V)
  | flush

section Runs
variable {K V : Type} [DecidableEq K] (fo : Fanouts)

/-- The map after an operation and its `*out_inserted`, which `erase` returns. -/
def BTreeMap.apply (m : BTreeMap K V) : BTreeOp (UInt64 × K) V → BTreeMap K V × Bool
  | .insert key value => m.insertImpl fo key.1.toNat key.2 value
  | .erase key => m.eraseImpl fo key.1.toNat key.2

def BTreeMap.run (m : BTreeMap K V) (ops : List (BTreeOp (UInt64 × K) V)) : BTreeMap K V :=
  ops.foldl (fun m op => (m.apply fo op).1) m

def BTreeMap.call (m : BTreeMap K V) : BTreeCall (UInt64 × K) V → BTreeMap K V
  | .op op => (m.apply fo op).1
  | .flush => m.flushAll fo

def BTreeMap.runCalls (m : BTreeMap K V) (calls : List (BTreeCall (UInt64 × K) V)) :
    BTreeMap K V :=
  calls.foldl (BTreeMap.call fo) m

end Runs

end Micron.BTree
