import Micron.Lib.BitmapArray

/-!
# The hash array mapped trie of `pmap`

`maps/pmap.hpp` is a persistent hash map: a 32-way trie over five hash bits a
level, whose internal nodes keep their children in a row compressed by a
bitmap.  A leaf holds one entry inline and the others in a chain, and is split
once it has grown past a threshold and its hashes part at its level.  Reference
counts only decide which nodes are shared and are left out.
-/

set_option autoImplicit false

namespace Micron.Pmap

open Micron.Lib List

def naturalDepth : Nat := 12

def maxDepth : Nat := 24

def splitThreshold : UInt32 := 8

def mixHash (h : UInt64) : UInt64 :=
  let h := h ^^^ (h >>> 30)
  let h := h * 0xbf58476d1ce4e5b9
  let h := h ^^^ (h >>> 27)
  let h := h * 0x94d049bb133111eb
  h ^^^ (h >>> 31)

def idxAt (h : UInt64) (depth : Nat) : Nat :=
  if depth < naturalDepth then
    ((h >>> UInt64.ofNat (depth * 5)).toUInt32 &&& 31).toNat
  else
    ((mixHash h >>> UInt64.ofNat ((depth - naturalDepth) * 5)).toUInt32 &&& 31).toNat

def has (bitmap : BitVec 32) (logicalIdx : Nat) : Bool :=
  ((bitmap >>> logicalIdx) &&& 1#32) != 0#32

def physIdx (bitmap : BitVec 32) (logicalIdx : Nat) : Nat :=
  popcount (bitmap &&& ((1#32 <<< logicalIdx) - 1#32))

structure Entry (K V : Type) where
  h : UInt64
  key : K
  value : V
  deriving DecidableEq

/-- A tagged pointer: null, a leaf with its first entry inline and its overflow
chain, or an internal node with its compressed children. -/
inductive Node (K V : Type) where
  | null
  | leaf (overflowLen : UInt32) (first : Entry K V) (overflow : List (Entry K V))
  | internal (bitmap : BitVec 32) (children : List (Node K V))

variable {K V : Type}

def internalReplace (bitmap : BitVec 32) (children : List (Node K V)) (logicalIdx : Nat)
    (newChild : Node K V) : Node K V :=
  .internal bitmap (children.set (physIdx bitmap logicalIdx) newChild)

def internalInsert (bitmap : BitVec 32) (children : List (Node K V)) (logicalIdx : Nat)
    (newChild : Node K V) : Node K V :=
  let nbm := bitmap ||| (1#32 <<< logicalIdx)
  let phys := physIdx nbm logicalIdx
  .internal nbm (children.take phys ++ newChild :: children.drop phys)

/-- Null when no child is left. -/
def internalRemove (bitmap : BitVec 32) (children : List (Node K V)) (logicalIdx : Nat) :
    Node K V :=
  let nbm := bitmap &&& ~~~(1#32 <<< logicalIdx)
  if nbm = 0#32 then .null
  else
    let phys := physIdx bitmap logicalIdx
    .internal nbm (children.take phys ++ children.drop (phys + 1))

section Keys
variable [DecidableEq K]

def Entry.is (e : Entry K V) (h : UInt64) (k : K) : Bool := e.h == h && e.key == k

def chainHas (c : List (Entry K V)) (h : UInt64) (k : K) : Bool := c.any fun e => e.is h k

def chainFind (c : List (Entry K V)) (h : UInt64) (k : K) : Option V :=
  (c.find? fun e => e.is h k).map Entry.value

def chainCopyWithReplace (h : UInt64) (k : K) (v : V) : List (Entry K V) → List (Entry K V)
  | [] => []
  | e :: rest => if e.is h k then ⟨h, k, v⟩ :: rest else e :: chainCopyWithReplace h k v rest

def chainCopyWithErase (h : UInt64) (k : K) : List (Entry K V) → List (Entry K V)
  | [] => []
  | e :: rest => if e.is h k then rest else e :: chainCopyWithErase h k rest

end Keys

def leafWouldDiverge (first : Entry K V) (overflow : List (Entry K V)) (newH : UInt64)
    (depth : Nat) : Bool :=
  let refIdx := idxAt first.h depth
  idxAt newH depth != refIdx || overflow.any fun c => idxAt c.h depth != refIdx

/-- The code takes a child that is not null for a leaf; while a leaf is split
it is one. -/
def childAbsorb : Node K V → Entry K V → Node K V
  | .null, e => .leaf 0 e []
  | .leaf overflowLen first overflow, e => .leaf (overflowLen + 1) first (e :: overflow)
  | .internal bitmap children, _ => .internal bitmap children

def splitBitmap (entries : List (Entry K V)) (depth : Nat) : BitVec 32 :=
  entries.foldl (fun bm e => bm ||| (1#32 <<< idxAt e.h depth)) 0#32

/-- `place`: the entry goes to the child of its index. -/
def splitPlace (bm : BitVec 32) (depth : Nat) (cs : List (Node K V)) (e : Entry K V) :
    List (Node K V) :=
  cs.modify (physIdx bm (idxAt e.h depth)) fun child => childAbsorb child e

def splitLeafWithExtra (first : Entry K V) (overflow : List (Entry K V)) (extra : Entry K V)
    (depth : Nat) : Node K V :=
  let bm := splitBitmap (first :: extra :: overflow) depth
  let cs := List.replicate (popcount bm) Node.null
  .internal bm ((first :: (overflow ++ [extra])).foldl (splitPlace bm depth) cs)

section Keys
variable [DecidableEq K]

/-- The new node, and whether the key was there before. -/
def insertInto (h : UInt64) (k : K) (v : V) (depth : Nat) : Node K V → Node K V × Bool
  | .null => (.leaf 0 ⟨h, k, v⟩ [], false)
  | .leaf overflowLen first overflow =>
    if first.is h k then (.leaf overflowLen ⟨h, k, v⟩ overflow, true)
    else if chainHas overflow h k then
      (.leaf overflowLen first (chainCopyWithReplace h k v overflow), true)
    else if 1 + overflowLen + 1 > splitThreshold ∧ depth < maxDepth ∧
        leafWouldDiverge first overflow h depth then
      (splitLeafWithExtra first overflow ⟨h, k, v⟩ depth, false)
    else (.leaf (overflowLen + 1) first (⟨h, k, v⟩ :: overflow), false)
  | .internal bitmap children =>
    let idx := idxAt h depth
    if has bitmap idx then
      match found : children[physIdx bitmap idx]? with
      | none => (.internal bitmap children, false)
      | some oldChild =>
        let newChild := insertInto h k v (depth + 1) oldChild
        (internalReplace bitmap children idx newChild.1, newChild.2)
    else (internalInsert bitmap children idx (.leaf 0 ⟨h, k, v⟩ []), false)
termination_by n => sizeOf n
decreasing_by
  have smaller := sizeOf_lt_of_mem (mem_of_getElem? found)
  simp only [Node.internal.sizeOf_spec]
  omega

def findIn (h : UInt64) (k : K) (depth : Nat) : Node K V → Option V
  | .null => none
  | .leaf _ first overflow =>
    if first.is h k then some first.value else chainFind overflow h k
  | .internal bitmap children =>
    let idx := idxAt h depth
    if has bitmap idx then
      match found : children[physIdx bitmap idx]? with
      | none => none
      | some child => findIn h k (depth + 1) child
    else none
termination_by n => sizeOf n
decreasing_by
  have smaller := sizeOf_lt_of_mem (mem_of_getElem? found)
  simp only [Node.internal.sizeOf_spec]
  omega

/-- The node in its place, and whether the key was there. -/
def eraseFrom (h : UInt64) (k : K) (depth : Nat) : Node K V → Node K V × Bool
  | .null => (.null, false)
  | .leaf overflowLen first overflow =>
    if first.is h k then
      match overflow with
      | [] => (.null, true)
      | e :: rest => (.leaf (overflowLen - 1) e rest, true)
    else if chainHas overflow h k then
      (.leaf (overflowLen - 1) first (chainCopyWithErase h k overflow), true)
    else (.leaf overflowLen first overflow, false)
  | .internal bitmap children =>
    let idx := idxAt h depth
    if has bitmap idx then
      match _found : children[physIdx bitmap idx]? with
      | none => (.internal bitmap children, false)
      | some oldChild =>
        match eraseFrom h k (depth + 1) oldChild with
        | (_, false) => (.internal bitmap children, false)
        | (.null, true) => (internalRemove bitmap children idx, true)
        | (newChild, true) => (internalReplace bitmap children idx newChild, true)
    else (.internal bitmap children, false)
termination_by n => sizeOf n
decreasing_by
  have smaller := sizeOf_lt_of_mem (mem_of_getElem? _found)
  simp only [Node.internal.sizeOf_spec]
  omega

end Keys

def walk : Node K V → List (Entry K V)
  | .null => []
  | .leaf _ first overflow => first :: overflow
  | .internal _ children => children.flatMap fun child => walk child

structure PMap (K V : Type) where
  root : Node K V
  length : Nat

namespace PMap

def empty : PMap K V := ⟨.null, 0⟩

variable [DecidableEq K] (hash : K → UInt64)

def insert (m : PMap K V) (k : K) (v : V) : PMap K V :=
  let nr := insertInto (hash k) k v 0 m.root
  ⟨nr.1, if nr.2 then m.length else m.length + 1⟩

def erase (m : PMap K V) (k : K) : PMap K V :=
  let nr := eraseFrom (hash k) k 0 m.root
  ⟨nr.1, if nr.2 then m.length - 1 else m.length⟩

def find (m : PMap K V) (k : K) : Option V := findIn (hash k) k 0 m.root

def size (m : PMap K V) : Nat := m.length

def forEach (m : PMap K V) : List (K × V) := (walk m.root).map fun e => (e.key, e.value)

end PMap

end Micron.Pmap
