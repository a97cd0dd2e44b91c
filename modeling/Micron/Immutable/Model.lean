import Micron.Lib.SortedRow

/-!
# The left-leaning red-black tree of `immutable_map`

`maps/immutable.hpp` keeps its bindings in a left-leaning red-black tree of
shared, reference-counted nodes.  This module models the trees as values: an
operation takes the tree a root pointer reaches and returns the tree the new
root pointer reaches, so the nodes that the code clones and those that it
changes in place look the same here.
-/

set_option autoImplicit false

namespace Micron.Immutable

open List

inductive Node (K V : Type) where
  | null
  | node (red : Bool) (left : Node K V) (key : K) (value : V) (right : Node K V)
  deriving DecidableEq

namespace Node

variable {K V : Type}

def isNull : Node K V → Bool
  | null => true
  | node .. => false

def isRed : Node K V → Bool
  | null => false
  | node red _ _ _ _ => red

def left : Node K V → Node K V
  | null => null
  | node _ left _ _ _ => left

def right : Node K V → Node K V
  | null => null
  | node _ _ _ _ right => right

def setLeft : Node K V → Node K V → Node K V
  | null, _ => null
  | node red _ key value right, left => node red left key value right

def setRight : Node K V → Node K V → Node K V
  | null, _ => null
  | node red left key value _, right => node red left key value right

def setRed : Node K V → Bool → Node K V
  | null, _ => null
  | node _ left key value right, red => node red left key value right

def toggle : Node K V → Node K V
  | null => null
  | node red left key value right => node (!red) left key value right

/-- The key and the value of `source` written over those of the node. -/
def copyEntry : Node K V → Node K V → Node K V
  | node red left _ _ right, node _ _ key value _ => node red left key value right
  | h, _ => h

section Fields
variable (red : Bool) (l : Node K V) (key : K) (value : V) (r : Node K V)

@[simp] theorem isNull_node : (node red l key value r).isNull = false := rfl
@[simp] theorem isRed_node : (node red l key value r).isRed = red := rfl
@[simp] theorem left_node : (node red l key value r).left = l := rfl
@[simp] theorem right_node : (node red l key value r).right = r := rfl
@[simp] theorem isNull_null : (null : Node K V).isNull = true := rfl
@[simp] theorem isRed_null : (null : Node K V).isRed = false := rfl
@[simp] theorem left_null : (null : Node K V).left = null := rfl

end Fields

theorem eq_null_of_isNull {h : Node K V} (empty : h.isNull = true) : h = null := by
  cases h with
  | null => rfl
  | node => cases empty

def size : Node K V → Nat
  | null => 0
  | node _ left _ _ right => left.size + right.size + 1

def toList : Node K V → List (K × V)
  | null => []
  | node _ left key value right => left.toList ++ (key, value) :: right.toList

-- The code reads the child without a null test; every caller has seen it red
-- or has tested it.
def rotateLeft : Node K V → Node K V
  | node red a key value (node _ b keyX valueX c) =>
    node red (node true a key value b) keyX valueX c
  | h => h

def rotateRight : Node K V → Node K V
  | node red (node _ a keyX valueX b) key value c =>
    node red a keyX valueX (node true b key value c)
  | h => h

def flipColors : Node K V → Node K V
  | null => null
  | node red left key value right => node (!red) left.toggle key value right.toggle

def fixup (h : Node K V) : Node K V :=
  let h := if h.right.isRed && !h.left.isRed then h.rotateLeft else h
  let h := if h.left.isRed && !h.left.isNull && h.left.left.isRed then h.rotateRight else h
  if h.left.isRed && h.right.isRed then h.flipColors else h

def moveRedLeft (h : Node K V) : Node K V :=
  let h := h.flipColors
  if !h.right.isNull && h.right.left.isRed then
    (h.setRight h.right.rotateRight).rotateLeft.flipColors
  else h

def moveRedRight (h : Node K V) : Node K V :=
  let h := h.flipColors
  if !h.left.isNull && h.left.left.isRed then h.rotateRight.flipColors else h

/-- What `__erase_min_impl` and `__erase_impl` do before they go left. -/
def beforeLeft (h : Node K V) : Node K V :=
  if !h.left.isRed && !h.left.isNull && !h.left.left.isRed then h.moveRedLeft else h

def beforeRight (h : Node K V) : Node K V :=
  if !h.right.isRed && !h.right.isNull && !h.right.left.isRed then h.moveRedRight else h

section Ordered
variable [LinearOrder K]

def keyLess : Node K V → K → Bool
  | null, _ => false
  | node _ _ key _ _, k => decide (key < k)

end Ordered

@[simp] theorem toList_toggle (h : Node K V) : h.toggle.toList = h.toList := by
  cases h <;> rfl

@[simp] theorem toList_setRed (h : Node K V) (red : Bool) : (h.setRed red).toList = h.toList := by
  cases h <;> rfl

@[simp] theorem toList_rotateLeft (h : Node K V) : h.rotateLeft.toList = h.toList := by
  unfold rotateLeft
  split
  · simp [toList]
  · rfl

@[simp] theorem toList_rotateRight (h : Node K V) : h.rotateRight.toList = h.toList := by
  unfold rotateRight
  split
  · simp [toList]
  · rfl

@[simp] theorem toList_flipColors (h : Node K V) : h.flipColors.toList = h.toList := by
  cases h with
  | null => rfl
  | node red left key value right => simp [flipColors, toList]

@[simp] theorem toList_fixup (h : Node K V) : h.fixup.toList = h.toList := by
  unfold fixup
  simp only
  split <;> split <;> split <;> simp

theorem toList_setRight (h right : Node K V) (same : right.toList = h.right.toList) :
    (h.setRight right).toList = h.toList := by
  cases h with
  | null => rfl
  | node red left key value old => simp [setRight, toList, same, Node.right]

@[simp] theorem toList_moveRedLeft (h : Node K V) : h.moveRedLeft.toList = h.toList := by
  unfold moveRedLeft
  simp only
  split
  · rw [toList_flipColors, toList_rotateLeft, toList_setRight _ _ (toList_rotateRight _),
      toList_flipColors]
  · exact toList_flipColors h

@[simp] theorem toList_moveRedRight (h : Node K V) : h.moveRedRight.toList = h.toList := by
  unfold moveRedRight
  simp only
  split <;> simp

@[simp] theorem toList_beforeLeft (h : Node K V) : h.beforeLeft.toList = h.toList := by
  unfold beforeLeft
  split <;> simp

@[simp] theorem toList_beforeRight (h : Node K V) : h.beforeRight.toList = h.toList := by
  unfold beforeRight
  split <;> simp

theorem size_eq_length (h : Node K V) : h.size = h.toList.length := by
  induction h with
  | null => rfl
  | node red left key value right leftIH rightIH =>
    simp only [size, toList, length_append, length_cons, leftIH, rightIH]
    omega

theorem size_left_lt {h : Node K V} (there : 0 < h.size) : h.left.size < h.size := by
  cases h with
  | null => exact there
  | node red left key value right =>
    simp only [Node.left, size]
    omega

theorem size_right_lt {h : Node K V} (there : 0 < h.size) : h.right.size < h.size := by
  cases h with
  | null => exact there
  | node red left key value right =>
    simp only [Node.right, size]
    omega

theorem size_beforeLeft (h : Node K V) : h.beforeLeft.size = h.size := by
  rw [size_eq_length, toList_beforeLeft, ← size_eq_length]

theorem size_beforeRight (h : Node K V) : h.beforeRight.size = h.size := by
  rw [size_eq_length, toList_beforeRight, ← size_eq_length]

theorem size_rotateRight (h : Node K V) : h.rotateRight.size = h.size := by
  rw [size_eq_length, toList_rotateRight, ← size_eq_length]

theorem size_pos (red : Bool) (left : Node K V) (key : K) (value : V) (right : Node K V) :
    0 < (node red left key value right).size := Nat.succ_pos _

/-- What `__erase_impl` does first when it does not go left. -/
def rotateRedLeft (h : Node K V) : Node K V := if h.left.isRed then h.rotateRight else h

theorem size_rotateRedLeft (h : Node K V) : h.rotateRedLeft.size = h.size := by
  unfold rotateRedLeft
  split
  · exact size_rotateRight h
  · rfl

@[simp] theorem toList_rotateRedLeft (h : Node K V) : h.rotateRedLeft.toList = h.toList := by
  unfold rotateRedLeft
  split <;> simp

/-! ## Erasing the least key -/

def findMin : Node K V → Node K V
  | null => null
  | node red null key value right => node red null key value right
  | node _ (node red left key value right) _ _ _ => findMin (node red left key value right)

def eraseMinImpl : Node K V → Node K V
  | null => null
  | node red left key value right =>
    if left.isNull then null
    else
      let n := (node red left key value right).beforeLeft
      fixup (n.setLeft (eraseMinImpl n.left))
termination_by h => h.size
decreasing_by
  have same := size_beforeLeft (node red left key value right)
  have there := size_pos red left key value right
  rw [← same] at there ⊢
  exact size_left_lt there

section Ordered
variable [LinearOrder K]

def insertImpl (k : K) (v : V) : Node K V → Node K V × Bool
  | null => (node true null k v null, true)
  | node red left key value right =>
    if k < key then
      let nl := insertImpl k v left
      (fixup (node red nl.1 key value right), nl.2)
    else if key < k then
      let nr := insertImpl k v right
      (fixup (node red left key value nr.1), nr.2)
    else (fixup (node red left key v right), false)

/-- As `insertImpl`, with the value built from `args` where a node is made. -/
def emplaceImpl {A : Type} (build : A → V) (k : K) (args : A) : Node K V → Node K V × Bool
  | null => (node true null k (build args) null, true)
  | node red left key value right =>
    if k < key then
      let nl := emplaceImpl build k args left
      (fixup (node red nl.1 key value right), nl.2)
    else if key < k then
      let nr := emplaceImpl build k args right
      (fixup (node red left key value nr.1), nr.2)
    else (fixup (node red left key (build args) right), false)

def eraseImpl (k : K) : Node K V → Node K V × Bool
  | null => (null, false)
  | node red left key value right =>
    let h := node red left key value right
    if k < key then
      if left.isNull then (h, false)
      else
        let n := h.beforeLeft
        let erased := eraseImpl k n.left
        (fixup (n.setLeft erased.1), erased.2)
    else
      let n := h.rotateRedLeft
      -- `equal` is read here, before `__move_red_right` may put another node
      -- in the place of `n`.
      let equal := !n.keyLess k
      if equal && n.right.isNull then (null, true)
      else if n.right.isNull then (fixup n, false)
      else
        let n' := n.beforeRight
        if equal then
          (fixup ((n'.copyEntry n'.right.findMin).setRight (eraseMinImpl n'.right)), true)
        else
          let erased := eraseImpl k n'.right
          (fixup (n'.setRight erased.1), erased.2)
termination_by h => h.size
decreasing_by
  · have same := size_beforeLeft (node red left key value right)
    have there := size_pos red left key value right
    rw [← same] at there ⊢
    exact size_left_lt there
  · have turned := size_rotateRedLeft (node red left key value right)
    have same := size_beforeRight (node red left key value right).rotateRedLeft
    have there := size_pos red left key value right
    rw [← turned, ← same] at there
    rw [← turned, ← same]
    exact size_right_lt there

def findImpl (k : K) : Node K V → Option V
  | null => none
  | node _ left key value right =>
    if k < key then findImpl k left
    else if key < k then findImpl k right
    else some value

end Ordered

def ensureBlackRoot (root : Node K V) : Node K V :=
  if root.isRed then root.setRed false else root

/-- The nodes still to be visited: `cur`, and on the stack each node with its
right subtree. -/
def forEachWork (cur : Node K V) (stack : List (Node K V)) : Nat :=
  2 * cur.size + (stack.map fun h => 2 * h.right.size + 1).sum

def forEachLoop : Node K V → List (Node K V) → List (K × V)
  | node red left key value right, stack =>
    forEachLoop left (node red left key value right :: stack)
  | null, node _ _ key value right :: stack => (key, value) :: forEachLoop right stack
  | null, null :: stack => forEachLoop null stack
  | null, [] => []
termination_by cur stack => forEachWork cur stack
decreasing_by
  all_goals
    simp only [forEachWork, size, Node.right, map_cons, sum_cons]
    omega

end Node

structure ImmutableMap (K V : Type) where
  root : Node K V
  length : Nat
  deriving DecidableEq

namespace ImmutableMap

variable {K V : Type}

def empty : ImmutableMap K V := ⟨.null, 0⟩

variable [LinearOrder K]

def insert (m : ImmutableMap K V) (k : K) (v : V) : ImmutableMap K V :=
  let nr := m.root.insertImpl k v
  ⟨nr.1.ensureBlackRoot, if nr.2 then m.length + 1 else m.length⟩

def emplace {A : Type} (build : A → V) (m : ImmutableMap K V) (k : K) (args : A) :
    ImmutableMap K V :=
  let nr := m.root.emplaceImpl build k args
  ⟨nr.1.ensureBlackRoot, if nr.2 then m.length + 1 else m.length⟩

def erase (m : ImmutableMap K V) (k : K) : ImmutableMap K V :=
  if m.root.isNull then empty
  else
    let nr := m.root.eraseImpl k
    ⟨nr.1.ensureBlackRoot, if nr.2 then m.length - 1 else m.length⟩

def find (m : ImmutableMap K V) (k : K) : Option V := m.root.findImpl k

def size (m : ImmutableMap K V) : Nat := m.length

def forEach (m : ImmutableMap K V) : List (K × V) := m.root.forEachLoop []

end ImmutableMap

end Micron.Immutable
