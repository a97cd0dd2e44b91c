import Mathlib.Algebra.Order.Ring.Nat
import Mathlib.Data.List.Nodup

/-!
# The adaptive radix tree `art`

`trees/art.hpp` is a hash map kept as a radix tree over the eight bytes of a
key's hash.  An inner node has one of four layouts, for 4, 16, 48 and 256
children, and grows from one to the next; a leaf heads a chain of entries with
one hash.  The arrays of a layout are modelled by their live part: of `__n4`
and `__n16` the first `num_children` keys and children as one row, of `__n48`
the first `num_children` children, the others being null.
-/

set_option autoImplicit false

namespace Micron.Art

open List

inductive Inner (α : Type) where
  | n4 (row : List (UInt8 × α))
  | n16 (row : List (UInt8 × α))
  | n48 (idx : List Nat) (children : List α)
  | n256 (numChildren : Nat) (children : List (Option α))

section Row
variable {α : Type}

def rowFind (row : List (UInt8 × α)) (b : UInt8) : Option α :=
  (row.find? fun e => e.1 == b).map Prod.snd

/-- The write through the slot that `__find_child_slot` returns. -/
def rowSet (b : UInt8) (child : α) : List (UInt8 × α) → List (UInt8 × α)
  | [] => []
  | e :: rest => if e.1 == b then (e.1, child) :: rest else e :: rowSet b child rest

def rowRemove (row : List (UInt8 × α)) (b : UInt8) : List (UInt8 × α) :=
  row.eraseP fun e => e.1 == b

end Row

namespace Inner

variable {α : Type}

def findChild (n : Inner α) (b : UInt8) : Option α :=
  match n with
  | n4 row => rowFind row b
  | n16 row => rowFind row b
  | n48 idx children =>
    match idx.getD b.toNat 0 with
    | 0 => none
    | ix + 1 => children[ix]?
  | n256 _ children => children.getD b.toNat none

def setChild (n : Inner α) (b : UInt8) (child : α) : Inner α :=
  match n with
  | n4 row => n4 (rowSet b child row)
  | n16 row => n16 (rowSet b child row)
  | n48 idx children => n48 idx (children.set (idx.getD b.toNat 0 - 1) child)
  | n256 numChildren children => n256 numChildren (children.set b.toNat (some child))

def growIdx (row : List (UInt8 × α)) : List Nat :=
  row.zipIdx.foldl (fun idx e => idx.set e.1.1.toNat (e.2 + 1)) (List.replicate 256 0)

def grow : Inner α → Inner α
  | n4 row => n16 row
  | n16 row => n48 (growIdx row) (row.map Prod.snd)
  | n48 idx children =>
    n256 children.length (idx.map fun ix => if ix ≠ 0 then children[ix - 1]? else none)
  | n256 numChildren children => n256 numChildren children

def room : Inner α → Nat
  | n4 _ => 3
  | n16 _ => 2
  | n48 _ _ => 1
  | n256 _ _ => 0

def addChild (n : Inner α) (b : UInt8) (child : α) : Inner α :=
  match n with
  | n4 row =>
    if row.length = 4 then addChild (grow (n4 row)) b child else n4 (row ++ [(b, child)])
  | n16 row =>
    if row.length = 16 then addChild (grow (n16 row)) b child else n16 (row ++ [(b, child)])
  | n48 idx children =>
    if children.length = 48 then addChild (grow (n48 idx children)) b child
    else n48 (idx.set b.toNat (children.length + 1)) (children ++ [child])
  | n256 numChildren children =>
    n256 (if (children.getD b.toNat none).isNone then numChildren + 1 else numChildren)
      (children.set b.toNat (some child))
termination_by n.room
decreasing_by all_goals simp [room, grow]

/-- Only an emptied 4-way node is freed. -/
def removeChild (n : Inner α) (b : UInt8) : Option (Inner α) :=
  match n with
  | n4 row =>
    if row.any fun e => e.1 == b then
      let row' := rowRemove row b
      if row'.length = 0 then none else some (n4 row')
    else some (n4 row)
  | n16 row => some (n16 (rowRemove row b))
  | n48 idx children =>
    match idx.getD b.toNat 0 with
    | 0 => some (n48 idx children)
    | slot + 1 =>
      let last := children.length - 1
      if slot ≠ last then
        let moved := match children[last]? with
          | some child => children.set slot child
          | none => children
        some (n48 ((idx.replace (last + 1) (slot + 1)).set b.toNat 0) (moved.take last))
      else some (n48 (idx.set b.toNat 0) (children.take last))
  | n256 numChildren children =>
    if (children.getD b.toNat none).isSome then
      some (n256 (numChildren - 1) (children.set b.toNat none))
    else some (n256 numChildren children)

def childAt (n : Inner α) (i : Nat) : Option α :=
  match n with
  | n4 row => if i < row.length then row[i]?.map Prod.snd else none
  | n16 row => if i < row.length then row[i]?.map Prod.snd else none
  | n48 _ children => if i < 48 then children[i]? else none
  | n256 _ children => if i < 256 then children.getD i none else none

def slotCount : Inner α → Nat
  | n4 row => row.length
  | n16 row => row.length
  | n48 _ _ => 48
  | n256 _ _ => 256

def children (n : Inner α) : List α := (List.range n.slotCount).filterMap n.childAt

end Inner

structure Leaf (K V : Type) where
  hash : UInt64
  key : K
  value : V

inductive Node (K V : Type) where
  | leaf (head : Leaf K V) (next : List (Leaf K V))
  | inner (n : Inner (Node K V))

theorem Inner.sizeOf_childAt_lt {α : Type} [SizeOf α] {n : Inner α} {i : Nat} {c : α}
    (found : n.childAt i = some c) : sizeOf c < sizeOf n := by
  have row : ∀ {r : List (UInt8 × α)} {e : UInt8 × α}, r[i]? = some e → sizeOf e.2 < sizeOf r := by
    intro r e here
    have smaller := sizeOf_lt_of_mem (mem_of_getElem? here)
    have part : sizeOf e = 1 + sizeOf e.1 + sizeOf e.2 := rfl
    omega
  cases n with
  | n4 r =>
    simp only [childAt, Option.ite_none_right_eq_some, Option.map_eq_some_iff] at found
    obtain ⟨_, e, here, rfl⟩ := found
    have smaller := row here
    simp only [n4.sizeOf_spec]
    omega
  | n16 r =>
    simp only [childAt, Option.ite_none_right_eq_some, Option.map_eq_some_iff] at found
    obtain ⟨_, e, here, rfl⟩ := found
    have smaller := row here
    simp only [n16.sizeOf_spec]
    omega
  | n48 idx cs =>
    simp only [childAt, Option.ite_none_right_eq_some] at found
    have smaller := sizeOf_lt_of_mem (mem_of_getElem? found.2)
    simp only [n48.sizeOf_spec]
    omega
  | n256 num cs =>
    simp only [childAt, Option.ite_none_right_eq_some, getD_eq_getElem?_getD] at found
    cases here : cs[i]? with
    | none => simp [here] at found
    | some o =>
      simp only [here, Option.getD_some] at found
      have smaller := sizeOf_lt_of_mem (mem_of_getElem? here)
      rw [found.2] at smaller
      simp only [Option.some.sizeOf_spec] at smaller
      simp only [n256.sizeOf_spec]
      omega

theorem Inner.sizeOf_lt_of_mem_children {α : Type} [SizeOf α] {n : Inner α} {c : α}
    (member : c ∈ n.children) : sizeOf c < sizeOf n := by
  obtain ⟨i, _, found⟩ := mem_filterMap.mp member
  exact sizeOf_childAt_lt found

theorem Inner.sizeOf_findChild_lt {α : Type} [SizeOf α] {n : Inner α} {b : UInt8} {c : α}
    (found : n.findChild b = some c) : sizeOf c < sizeOf n := by
  have row : ∀ {r : List (UInt8 × α)}, rowFind r b = some c → sizeOf c < sizeOf r := by
    intro r here
    obtain ⟨e, hit, rfl⟩ := Option.map_eq_some_iff.mp here
    have smaller := sizeOf_lt_of_mem (mem_of_find?_eq_some hit)
    have part : sizeOf e = 1 + sizeOf e.1 + sizeOf e.2 := rfl
    omega
  cases n with
  | n4 r =>
    have smaller := row found
    simp only [n4.sizeOf_spec]
    omega
  | n16 r =>
    have smaller := row found
    simp only [n16.sizeOf_spec]
    omega
  | n48 idx cs =>
    simp only [findChild] at found
    split at found
    · cases found
    · have smaller := sizeOf_lt_of_mem (mem_of_getElem? found)
      simp only [n48.sizeOf_spec]
      omega
  | n256 num cs =>
    rw [findChild, getD_eq_getElem?_getD] at found
    cases here : cs[b.toNat]? with
    | none => simp [here] at found
    | some o =>
      rw [here, Option.getD_some] at found
      have smaller := sizeOf_lt_of_mem (mem_of_getElem? here)
      rw [found, Option.some.sizeOf_spec] at smaller
      simp only [n256.sizeOf_spec]
      omega

variable {K V : Type}

def hashBytes : Nat := 8

def byteAt (h : UInt64) (depth : Nat) : UInt8 :=
  if depth ≥ hashBytes then 0 else (h >>> UInt64.ofNat (8 * depth)).toUInt8

def splitNode (lf : Leaf K V) (next : List (Leaf K V)) (new : Leaf K V) (depth : Nat) : Node K V :=
  .inner (((Inner.n4 []).addChild (byteAt lf.hash depth) (.leaf lf next)).addChild
    (byteAt new.hash depth) (.leaf new []))

def splitDescend (lf : Leaf K V) (next : List (Leaf K V)) (new : Leaf K V) (depth : Nat) :
    Node K V :=
  if depth ≥ hashBytes then .leaf lf (next ++ [new])
  else if byteAt lf.hash depth ≠ byteAt new.hash depth then splitNode lf next new depth
  else
    .inner ((Inner.n4 []).addChild (byteAt lf.hash depth) (splitDescend lf next new (depth + 1)))
termination_by hashBytes - depth

section Keys
variable [DecidableEq K]

def Leaf.is (lf : Leaf K V) (h : UInt64) (k : K) : Bool := lf.hash == h && lf.key == k

/-- The loop over a chain of the hash inserted: its new links, and whether one
was added. -/
def chainPut (new : Leaf K V) : List (Leaf K V) → List (Leaf K V) × Bool
  | [] => ([new], true)
  | cur :: next =>
    if cur.key = new.key then (⟨cur.hash, cur.key, new.value⟩ :: next, false)
    else
      let r := chainPut new next
      (cur :: r.1, r.2)

def insert (new : Leaf K V) (depth : Nat) : Node K V → Node K V × Bool
  | .leaf lf next =>
    if lf.hash = new.hash then
      match chainPut new (lf :: next) with
      | ([], inserted) => (.leaf lf next, inserted)
      | (lf' :: next', inserted) => (.leaf lf' next', inserted)
    else if depth ≥ hashBytes then (.leaf lf (next ++ [new]), true)
    else if byteAt lf.hash depth = byteAt new.hash depth then
      (.inner ((Inner.n4 []).addChild (byteAt lf.hash depth)
        (splitDescend lf next new (depth + 1))), true)
    else (splitNode lf next new depth, true)
  | .inner n =>
    let b := byteAt new.hash depth
    match found : n.findChild b with
    | some child =>
      let r := insert new (depth + 1) child
      (.inner (n.setChild b r.1), r.2)
    | none => (.inner (n.addChild b (.leaf new [])), true)
termination_by n => sizeOf n
decreasing_by
  have smaller := Inner.sizeOf_findChild_lt found
  simp only [Node.inner.sizeOf_spec]
  omega

/-- The node in its place, and whether the key was there. -/
def erase (h : UInt64) (k : K) (depth : Nat) : Node K V → Option (Node K V) × Bool
  | .leaf head next =>
    if head.is h k then
      match next with
      | [] => (none, true)
      | lf :: rest => (some (.leaf lf rest), true)
    else if next.any fun lf => lf.is h k then
      (some (.leaf head (next.eraseP fun lf => lf.is h k)), true)
    else (some (.leaf head next), false)
  | .inner n =>
    let b := byteAt h depth
    match _found : n.findChild b with
    | none => (some (.inner n), false)
    | some child =>
      match erase h k (depth + 1) child with
      | (_, false) => (some (.inner n), false)
      | (none, true) => ((n.removeChild b).map Node.inner, true)
      | (some child', true) => (some (.inner (n.setChild b child')), true)
termination_by n => sizeOf n
decreasing_by
  have smaller := Inner.sizeOf_findChild_lt _found
  simp only [Node.inner.sizeOf_spec]
  omega

def findLeaf (h : UInt64) (k : K) (depth : Nat) : Node K V → Option (Leaf K V)
  | .leaf head next => (head :: next).find? fun lf => lf.is h k
  | .inner n =>
    match found : n.findChild (byteAt h depth) with
    | none => none
    | some child => findLeaf h k (depth + 1) child
termination_by n => sizeOf n
decreasing_by
  have smaller := Inner.sizeOf_findChild_lt found
  simp only [Node.inner.sizeOf_spec]
  omega

end Keys

/-- The entries in the order `__walk` visits them. -/
def walk : Node K V → List (Leaf K V)
  | .leaf head next => head :: next
  | .inner n => n.children.attach.flatMap fun child => walk child.1
termination_by n => sizeOf n
decreasing_by
  have smaller := Inner.sizeOf_lt_of_mem_children child.2
  simp only [Node.inner.sizeOf_spec]
  omega

/-! ## The iterator -/

structure Frame (K V : Type) where
  n : Inner (Node K V)
  i : Nat

/-- The frames `__st[__top]`, …, `__st[0]` and the chain from `__lf` on; no link
is left at the end. -/
structure Iter (K V : Type) where
  st : List (Frame K V)
  lf : List (Leaf K V)

def stackSize : Nat := hashBytes + 2

def Frame.stepTop (f : Frame K V) : Option (Node K V) × Frame K V :=
  if f.i < f.n.slotCount then
    match f.n.childAt f.i with
    | some c => (some c, ⟨f.n, f.i + 1⟩)
    | none => stepTop ⟨f.n, f.i + 1⟩
  else (none, f)
termination_by f.n.slotCount - f.i

/-- A bound on the rounds that `__descend` and `__unwind` need below a node. -/
def Node.work : Node K V → Nat
  | .leaf _ _ => 1
  | .inner n => 2 + (n.children.attach.map fun child => 1 + Node.work child.1).sum
termination_by n => sizeOf n
decreasing_by
  have smaller := Inner.sizeOf_lt_of_mem_children child.2
  simp only [Node.inner.sizeOf_spec]
  omega

def Frame.rest (f : Frame K V) : List (Node K V) :=
  (List.range' f.i (f.n.slotCount - f.i)).filterMap f.n.childAt

def Frame.work (f : Frame K V) : Nat := 1 + (f.rest.map fun child => 1 + child.work).sum

theorem Node.work_inner (n : Inner (Node K V)) :
    (Node.inner n).work = 2 + (n.children.map fun child => 1 + child.work).sum := by
  rw [Node.work, attach_map_val (f := fun child => 1 + Node.work child)]

theorem Frame.rest_start (n : Inner (Node K V)) : (Frame.mk n 0).rest = n.children := by
  rw [rest, Inner.children, range_eq_range', Nat.sub_zero]

theorem Frame.rest_step {n : Inner (Node K V)} {i : Nat} (inside : i < n.slotCount) :
    (Frame.mk n i).rest = (n.childAt i).toList ++ (Frame.mk n (i + 1)).rest := by
  have split : n.slotCount - i = (n.slotCount - (i + 1)) + 1 := by omega
  rw [rest, split, range'_succ, filterMap_cons]
  cases n.childAt i <;> rfl

/-- What `__step_top` takes off the children to visit. -/
theorem Frame.stepTop_rest (f : Frame K V) : f.rest = f.stepTop.1.toList ++ f.stepTop.2.rest := by
  fun_induction Frame.stepTop f with
  | case1 f inside c found =>
    rw [Frame.rest_step inside, found]
  | case2 f inside missing ih =>
    rw [Frame.rest_step inside, missing]
    exact ih
  | case3 f outside => rfl

mutual

/-- `none` is a write past the end of `__st`. -/
def descend (st : List (Frame K V)) (n : Node K V) : Option (Iter K V) :=
  match n with
  | .leaf head next => some ⟨st, head :: next⟩
  | .inner m =>
    if st.length < stackSize then
      match _stepped : (Frame.mk m 0).stepTop with
      | (some c, f) => descend (f :: st) c
      | (none, f) => unwind (f :: st)
    else none
termination_by n.work + (st.map Frame.work).sum
decreasing_by
  · have rest := Frame.stepTop_rest (Frame.mk m 0)
    rw [_stepped, Frame.rest_start] at rest
    rw [Node.work_inner, rest]
    simp [Frame.work]
    omega
  · have rest := Frame.stepTop_rest (Frame.mk m 0)
    rw [_stepped, Frame.rest_start] at rest
    rw [Node.work_inner, rest]
    simp [Frame.work]

def unwind (st : List (Frame K V)) : Option (Iter K V) :=
  match st with
  | [] => some ⟨[], []⟩
  | f :: below =>
    match _stepped : f.stepTop with
    | (some c, f') => descend (f' :: below) c
    | (none, _) => unwind below
termination_by (st.map Frame.work).sum
decreasing_by
  · have rest := Frame.stepTop_rest f
    rw [_stepped] at rest
    simp only [map_cons, sum_cons, Frame.work, rest, Option.toList_some,
      singleton_append]
    omega
  · simp only [map_cons, sum_cons, Frame.work]
    omega

end

namespace Iter

def next (it : Iter K V) : Option (Iter K V) :=
  match it.lf with
  | _ :: lf :: rest => some ⟨it.st, lf :: rest⟩
  | _ => unwind it.st

/-- The bindings a loop from `it` to `end()` meets, in at most `fuel` rounds. -/
def collect : Nat → Iter K V → Option (List (K × V))
  | 0, it => if it.lf.isEmpty then some [] else none
  | fuel + 1, it =>
    match it.lf with
    | [] => some []
    | lf :: _ => it.next.bind fun it' => (collect fuel it').map ((lf.key, lf.value) :: ·)

end Iter

structure ArtMap (K V : Type) where
  root : Option (Node K V)
  size : Nat

namespace ArtMap

def empty : ArtMap K V := ⟨none, 0⟩

def forEach (m : ArtMap K V) : List (K × V) :=
  match m.root with
  | none => []
  | some root => (walk root).map fun lf => (lf.key, lf.value)

def begin (m : ArtMap K V) : Option (Iter K V) :=
  match m.root with
  | none => some ⟨[], []⟩
  | some root => descend [] root

/-- A loop over the map with its iterator, of at most `fuel` rounds. -/
def iterate (fuel : Nat) (m : ArtMap K V) : Option (List (K × V)) :=
  m.begin.bind fun it => it.collect fuel

variable [DecidableEq K] (hash : K → UInt64)

def insert (m : ArtMap K V) (k : K) (v : V) : ArtMap K V :=
  match m.root with
  | none => ⟨some (.leaf ⟨hash k, k, v⟩ []), m.size + 1⟩
  | some root =>
    let r := Art.insert ⟨hash k, k, v⟩ 0 root
    ⟨some r.1, if r.2 then m.size + 1 else m.size⟩

def erase (m : ArtMap K V) (k : K) : ArtMap K V :=
  match m.root with
  | none => m
  | some root =>
    let r := Art.erase (hash k) k 0 root
    ⟨r.1, if r.2 then m.size - 1 else m.size⟩

def find (m : ArtMap K V) (k : K) : Option V :=
  match m.root with
  | none => none
  | some root => (findLeaf (hash k) k 0 root).map Leaf.value

end ArtMap

end Micron.Art
