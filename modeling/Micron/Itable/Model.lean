import Mathlib.Data.List.Basic
import Micron.Lib.MsbOrder

/-!
# The patricia trie of `immutable_table`

`maps/itable.hpp` is a persistent map from an integral key type.  A branch
names the bit on which its two children differ, bit 0 being the most
significant one, and signed keys have their sign bit flipped so that the order
of the bits is the order of the numbers.  Reference counts only decide which
nodes are shared and are left out.
-/

set_option autoImplicit false

namespace Micron.Itable

open List

/-- The key types `micron::integral` admits and `make_unsigned` is defined
for. -/
structure KeyType where
  bits : Nat
  signed : Bool
  bits_mem : bits ∈ [8, 16, 32, 64, 128]

namespace KeyType

variable (T : KeyType)

theorem bits_pos : 0 < T.bits := by
  have size := T.bits_mem
  simp only [mem_cons, not_mem_nil, or_false] at size
  omega

theorem bits_le : T.bits ≤ 128 := by
  have size := T.bits_mem
  simp only [mem_cons, not_mem_nil, or_false] at size
  omega

abbrev Key : Type := BitVec T.bits

def number (k : T.Key) : Int := if T.signed then k.toInt else k.toNat

def toOrd (k : T.Key) : BitVec T.bits :=
  if T.signed then k ^^^ (1#T.bits <<< (T.bits - 1)) else k

def bitAt (k : BitVec T.bits) (pos : Nat) : Nat :=
  ((k >>> (T.bits - 1 - pos)) &&& 1#T.bits).toNat

end KeyType

/-- `__builtin_clz` on a word of `width` bits.  It is undefined at 0: `undef`
stands for what comes out. -/
def builtinClz (undef width v : Nat) : Nat := if v = 0 then undef else width - 1 - v.log2

section Keys
variable (T : KeyType) (undef : Nat)

/-- The leading zeros of `v`, in `u32` arithmetic.  A 128-bit word is cast to
64 bits first. -/
def clzImpl (v : BitVec T.bits) : Nat :=
  if T.bits ≤ 32 then
    (builtinClz undef 32 v.toNat + 2 ^ 32 - (32 - T.bits)) % 2 ^ 32
  else
    (builtinClz undef 64 (v.toNat % 2 ^ 64) + 2 ^ 32 - (2 ^ 32 + 64 - T.bits) % 2 ^ 32) % 2 ^ 32

def diffPos (a b : BitVec T.bits) : Nat :=
  let diff := a ^^^ b
  if diff = 0#T.bits then T.bits else clzImpl T undef diff

end Keys

inductive Trie (T : KeyType) (V : Type) where
  | leaf (key : T.Key) (value : V)
  | branch (bitPos : Nat) (child0 child1 : Trie T V)
  deriving DecidableEq

namespace Trie

variable {T : KeyType} {V : Type}

def findLeaf (ord : BitVec T.bits) : Trie T V → T.Key × V
  | leaf key value => (key, value)
  | branch bitPos c0 c1 => if T.bitAt ord bitPos = 0 then c0.findLeaf ord else c1.findLeaf ord

def replaceImpl (ord : BitVec T.bits) (key : T.Key) (val : V) : Trie T V → Trie T V
  | leaf _ _ => leaf key val
  | branch bitPos c0 c1 =>
    if T.bitAt ord bitPos = 0 then branch bitPos (c0.replaceImpl ord key val) c1
    else branch bitPos c0 (c1.replaceImpl ord key val)

def spliceAbove (ord : BitVec T.bits) (key : T.Key) (val : V) (dpos : Nat) (node : Trie T V) :
    Trie T V :=
  if T.bitAt ord dpos = 0 then branch dpos (leaf key val) node
  else branch dpos node (leaf key val)

def spliceImpl (ord : BitVec T.bits) (key : T.Key) (val : V) (dpos : Nat) :
    Trie T V → Trie T V
  | leaf key' value' => spliceAbove ord key val dpos (leaf key' value')
  | branch bitPos c0 c1 =>
    if bitPos > dpos then spliceAbove ord key val dpos (branch bitPos c0 c1)
    else if T.bitAt ord bitPos = 0 then branch bitPos (c0.spliceImpl ord key val dpos) c1
    else branch bitPos c0 (c1.spliceImpl ord key val dpos)

/-- What takes the place of the node (`none` for the null pointer), and whether
the key was there. -/
def eraseImpl (ord : BitVec T.bits) (key : T.Key) : Trie T V → Option (Trie T V) × Bool
  | leaf key' _ => if key' = key then (none, true) else (none, false)
  | branch bitPos c0 c1 =>
    if T.bitAt ord bitPos = 0 then
      match c0.eraseImpl ord key with
      | (_, false) => (none, false)
      | (none, true) => (some c1, true)
      | (some newChild, true) => (some (branch bitPos newChild c1), true)
    else
      match c1.eraseImpl ord key with
      | (_, false) => (none, false)
      | (none, true) => (some c0, true)
      | (some newChild, true) => (some (branch bitPos c0 newChild), true)

def size : Trie T V → Nat
  | leaf _ _ => 1
  | branch _ c0 c1 => c0.size + c1.size + 1

def second : Trie T V → Trie T V
  | leaf key value => leaf key value
  | branch _ _ c1 => c1

/-- The bindings still to come: the current node, and the second child of each
branch on the stack. -/
def walkWork (node : Trie T V) (stack : List (Trie T V)) : Nat :=
  2 * node.size + (stack.map fun b => 2 * b.second.size + 1).sum

/-- The loop of `for_each` with a stack of `cap` entries; `none` is a write past
its end. -/
def forEachLoop (cap : Nat) : Trie T V → List (Trie T V) → Option (List (T.Key × V))
  | branch bitPos c0 c1, stack =>
    if stack.length < cap then forEachLoop cap c0 (branch bitPos c0 c1 :: stack) else none
  | leaf key value, [] => some [(key, value)]
  | leaf key value, b :: stack => (forEachLoop cap b.second stack).map ((key, value) :: ·)
termination_by node stack => walkWork node stack
decreasing_by
  all_goals
    simp only [walkWork, size, second, map_cons, sum_cons]
    omega

/-- `const_iterator`: the branches on the stack and the leaf it stands on. -/
structure Iter (T : KeyType) (V : Type) where
  stack : List (Trie T V)
  current : Option (T.Key × V)

/-- `__descend_left` with a stack of `cap` entries. -/
def descendLeft (cap : Nat) : Trie T V → List (Trie T V) → Option (Iter T V)
  | leaf key value, stack => some ⟨stack, some (key, value)⟩
  | branch bitPos c0 c1, stack =>
    if stack.length < cap then descendLeft cap c0 (branch bitPos c0 c1 :: stack) else none

def Iter.next (cap : Nat) (it : Iter T V) : Option (Iter T V) :=
  match it.stack with
  | [] => some ⟨[], none⟩
  | b :: stack => descendLeft cap b.second stack

/-- The bindings a loop from `it` to `end()` meets, in at most `fuel` rounds. -/
def Iter.collect (cap : Nat) : Nat → Iter T V → Option (List (T.Key × V))
  | 0, it => if it.current.isNone then some [] else none
  | fuel + 1, it =>
    match it.current with
    | none => some []
    | some e => (it.next cap).bind fun it' => (it'.collect cap fuel).map (e :: ·)

end Trie

structure Table (T : KeyType) (V : Type) where
  root : Option (Trie T V)
  length : Nat

namespace Table

variable {T : KeyType} {V : Type}

def empty : Table T V := ⟨none, 0⟩

def insert (undef : Nat) (t : Table T V) (key : T.Key) (val : V) : Table T V :=
  match t.root with
  | none => ⟨some (.leaf key val), 1⟩
  | some root =>
    let ord := T.toOrd key
    let existing := root.findLeaf ord
    if existing.1 = key then ⟨some (root.replaceImpl ord key val), t.length⟩
    else
      let dpos := diffPos T undef ord (T.toOrd existing.1)
      ⟨some (root.spliceImpl ord key val dpos), t.length + 1⟩

def erase (t : Table T V) (key : T.Key) : Table T V :=
  match t.root with
  | none => t
  | some root =>
    match root.eraseImpl (T.toOrd key) key with
    | (_, false) => t
    | (none, true) => ⟨none, 0⟩
    | (some nr, true) => ⟨some nr, t.length - 1⟩

def find (t : Table T V) (key : T.Key) : Option V :=
  match t.root with
  | none => none
  | some root =>
    let l := root.findLeaf (T.toOrd key)
    if l.1 = key then some l.2 else none

def size (t : Table T V) : Nat := t.length

def forEach (t : Table T V) : Option (List (T.Key × V)) :=
  match t.root with
  | none => some []
  | some root => root.forEachLoop T.bits []

def begin (t : Table T V) : Option (Trie.Iter T V) :=
  match t.root with
  | none => some ⟨[], none⟩
  | some root => root.descendLeft T.bits []

/-- A loop over the table with its iterator, of at most `fuel` rounds. -/
def iterate (fuel : Nat) (t : Table T V) : Option (List (T.Key × V)) :=
  t.begin.bind fun it => it.collect T.bits fuel

end Table

end Micron.Itable
