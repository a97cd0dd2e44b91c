import Micron.BTree.Model

/-!
# The arrays that a call of `maps/b_map.hpp` fills

A leaf and an inner node have room for a fixed number of entries and pivots, and
two steps of a descent work in wider local arrays: `drain_internal_buffer` and
`internal_insert_pivot_or_split`.  A call is followed through its drains, splits
and rehashes, and every array it fills is listed with the number of slots used.
-/

set_option autoImplicit false

namespace Micron.BTree

open Micron.Lib

variable {K V α : Type}

/-- An array of pivots, with one child more, or of entries, and how far it is
filled.  `half` is a call of `internal_insert_pivot` on a half of a drained
node, with the pivots the half has before. -/
inductive ArrayUse where
  | scanned (entries : Nat)
  | leaf (entries : Nat)
  | node (pivots : Nat)
  | drained (pivots : Nat)
  | inserted (pivots : Nat)
  | half (pivots : Nat)
  deriving DecidableEq

/-- The slot is there, and `nkeys` can count to it.  `hash_scan_eq` answers with
the bits of a `u32`. -/
def ArrayUse.Inside (fo : Fanouts) : ArrayUse → Prop
  | .scanned entries => entries ≤ 32
  | .leaf entries => entries ≤ fo.leaf ∧ entries < 2 ^ 8
  | .node pivots => pivots ≤ fo.inner - 1 ∧ pivots < 2 ^ 8
  | .drained pivots => pivots ≤ fo.inner - 1 + fo.buffer
  | .inserted pivots => pivots ≤ fo.inner
  | .half pivots => pivots + 1 ≤ fo.inner - 1 ∧ pivots + 1 < 2 ^ 8

def nodeUses (nodes : List (LeafNode K V)) : List ArrayUse :=
  nodes.map fun node => .leaf node.entries.length

def leafUses [DecidableEq K] (leafFanout : Nat) (leaf : Leaf K V) (op : PendingOp K V)
    (pool : Pool) : List ArrayUse :=
  let applied := leafApply leafFanout leaf op pool
  leaf.nodes.map (fun node => .scanned node.entries.length) ++
    nodeUses (outItems Leaf.nodes applied.tree applied.split)

def rowUses (row : Row α) (split : Option (Nat × Row α)) : List ArrayUse :=
  .node row.tail.length :: (split.map fun half => .node half.2.tail.length).toList

section Inner
variable (fo : Fanouts) (apply : α → PendingOp K V → Pool → Applied α)
  (uses : α → PendingOp K V → Pool → List ArrayUse)

def childUses (row : Row α) (op : PendingOp K V) (pool : Pool) : List ArrayUse :=
  uses (row.child (routeGt fo.inner row.pivots op.hash)) op pool

def drainLoopUses : List (PendingOp K V) → Row α → Pool → List ArrayUse
  | [], _, _ => []
  | op :: rest, row, pool =>
    let applied := applyInRow fo apply row op pool
    childUses fo uses row op pool ++
      drainLoopUses rest applied.1
        { applied.2.2 with total := correctTotal op applied.2.1 applied.2.2.total }

def drainUses (node : Inner K V α) (pool : Pool) : List ArrayUse :=
  match node.buffer with
  | [] => []
  | ops =>
    let after := drainInternalBuffer fo apply node pool
    drainLoopUses fo apply uses ops node.row pool ++
      (.drained (drainLoop fo apply ops node.row pool).1.tail.length ::
        rowUses after.row after.split)

/-- The insert of a child's split into a half of a drained node. -/
def halfUses (row : Row α) (op : PendingOp K V) (pool : Pool) : List ArrayUse :=
  let applied := apply (row.child (routeGt fo.inner row.pivots op.hash)) op pool
  childUses fo uses row op pool ++
    if applied.split.isSome then [.half row.tail.length] else []

/-- The insert of a child's split by `internal_insert_pivot_or_split`. -/
def insertUses (row : Row α) (op : PendingOp K V) (pool : Pool) : List ArrayUse :=
  let applied := apply (row.child (routeGt fo.inner row.pivots op.hash)) op pool
  let inserted := (applyInRow fo apply row op pool).1
  let settled := inserted.settle (fo.inner - 1)
  childUses fo uses row op pool ++
    if applied.split.isSome then
      .inserted inserted.tail.length :: rowUses settled.1 settled.2
    else []

def drainedUses (drained : Drained α) (op : PendingOp K V) : List ArrayUse :=
  match drained.split with
  | some _ => halfUses fo apply uses (drained.target op.hash) op drained.pool
  | none => insertUses fo apply uses drained.row op drained.pool

def innerUses [DecidableEq K] (node : Inner K V α) (op : PendingOp K V) (pool : Pool) :
    List ArrayUse :=
  match mergePending op node.buffer with
  | some _ => []
  | none =>
    if node.buffer.length < fo.buffer then []
    else
      drainUses fo apply uses node pool ++
        drainedUses fo apply uses (drainInternalBuffer fo apply node pool) op

def splitInternalUses (node : Inner K V α) (pool : Pool) : List ArrayUse :=
  let after := splitInternal fo apply node pool
  drainUses fo apply uses node pool ++ rowUses after.row after.split

end Inner

section Trees
variable [DecidableEq K] (fo : Fanouts)

def descendUses : (height : Nat) → Tree K V height → PendingOp K V → Pool → List ArrayUse
  | 0 => leafUses fo.leaf
  | height + 1 => innerUses fo (descendApply fo height) (descendUses height)

def rootOfUses (splits : Bool) : List ArrayUse := if splits then [.node 1] else []

def readyUses : Root K V → Pool → List ArrayUse
  | ⟨0, tree⟩, pool =>
    let leaf : Leaf K V := tree
    if leaf.primary.entries.length < fo.leaf then []
    else if leaf.primary.singleClass then []
    else
      let halves := splitLeafMixed fo.leaf leaf pool
      nodeUses (halves.1.nodes ++ halves.2.2.1.nodes) ++ rootOfUses true
  | ⟨height + 1, tree⟩, pool =>
    let node : Inner K V (Tree K V height) := tree
    if node.row.tail.length < fo.inner - 1 then []
    else
      splitInternalUses fo (descendApply fo height) (descendUses fo height) node pool ++
        rootOfUses (splitInternal fo (descendApply fo height) node pool).split.isSome

def rootUses (root : Root K V) (op : PendingOp K V) (pool : Pool) : List ArrayUse :=
  let ready := ensureRootCapacity fo root pool
  let applied := descendApply fo ready.1.height ready.1.tree op ready.2
  readyUses fo root pool ++
    (descendUses fo ready.1.height ready.1.tree op ready.2 ++ rootOfUses applied.split.isSome)

omit [DecidableEq K] in
def drainRowUses (drain : α → Pool → α × List (LeafNode K V) × Pool)
    (uses : α → Pool → List ArrayUse) (block : Nat) :
    α → List (Nat × α) → Pool → List ArrayUse
  | c, [], pool => uses c pool
  | c, (_, c') :: rest, pool =>
    uses c pool ++ drainRowUses drain uses block c' rest ((drain c pool).2.2.readAt block)

omit [DecidableEq K] in
def drainChildrenUses (drain : α → Pool → α × List (LeafNode K V) × Pool)
    (uses : α → Pool → List ArrayUse) (row : Row α) (pool : Pool) : List ArrayUse :=
  drainRowUses drain uses pool.slab.moves row.head row.tail pool

def drainRecursiveUses : (height : Nat) → Tree K V height → Pool → List ArrayUse
  | 0, _, _ => []
  | height + 1, tree, pool =>
    let node : Inner K V (Tree K V height) := tree
    let drained := drainInternalBuffer fo (descendApply fo height) node pool
    let left := drainChildren (drainRecursive fo height) drained.row drained.pool
    drainUses fo (descendApply fo height) (descendUses fo height) node pool ++
      (drainChildrenUses (drainRecursive fo height) (drainRecursiveUses height) drained.row
          drained.pool ++
        match drained.split with
        | none => []
        | some (_, half) =>
          drainChildrenUses (drainRecursive fo height) (drainRecursiveUses height) half left.2.2)

end Trees

section Calls
variable [DecidableEq K] (fo : Fanouts)

def flushBucketsUses : List Nat → BTreeMap K V → List ArrayUse
  | [], _ => []
  | b :: rest, m =>
    (match m.buckets b with
      | none => []
      | some root => drainRecursiveUses fo root.height root.tree m.pool) ++
      flushBucketsUses rest (m.flushBucket fo b)

/-- A call's work on the tree of its bucket; the first key of a bucket gets a new
leaf. -/
def opUses (m : BTreeMap K V) (op : PendingOp K V) : List ArrayUse :=
  match m.buckets (m.bucketOf op.hash) with
  | none => if op.value.isSome then [.leaf 1] else []
  | some root => rootUses fo root op m.pool

def placesUses : List (Entry K V) → BTreeMap K V → List ArrayUse
  | [], _ => []
  | e :: rest, m =>
    opUses fo m ⟨e.hash, e.key, some e.value⟩ ++
      placesUses rest (m.place fo e.hash e.key e.value).1

def refillUses : List (LeafNode K V) → BTreeMap K V → List ArrayUse
  | [], _ => []
  | node :: rest, m =>
    placesUses fo node.entries m.freeSlot ++
      refillUses rest (placeAll fo m.freeSlot node.entries)

def rehashUses (m : BTreeMap K V) (nBuckets : Nat) : List ArrayUse :=
  let flushed := m.flushAll fo
  flushBucketsUses fo (List.range m.nBuckets) m ++
    refillUses fo flushed.leafWalk (flushed.cleared nBuckets)

def callUses (m : BTreeMap K V) : BTreeOp (UInt64 × K) V → List ArrayUse
  | .insert key value =>
    (if m.overloaded fo then rehashUses fo m (m.nBuckets * 2) else []) ++
      opUses fo (m.maybeRehash fo) ⟨key.1.toNat, key.2, some value⟩
  | .erase key => opUses fo m ⟨key.1.toNat, key.2, none⟩

def runUses : BTreeMap K V → List (BTreeOp (UInt64 × K) V) → List ArrayUse
  | _, [] => []
  | m, op :: rest => callUses fo m op ++ runUses (m.apply fo op).1 rest

end Calls

end Micron.BTree
