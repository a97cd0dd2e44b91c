import Mathlib.Algebra.Order.Ring.Nat
import Micron.Lib.Store
import Micron.Lib.Ring

/-!
# The heap `fibonacci_heap`

`heap/fibonacci_heap.hpp` is a priority queue whose largest value comes first.
Its trees hang in circular doubly linked lists: the roots in one, the children of
every node in another.  The nodes are records of a store, so that a step which
would follow a null or freed pointer gives `none`, and so does a loop that runs
longer than its number of rounds.  `new` is the address that the allocator
returns.  `a > b` is `lt b a`.
-/

set_option autoImplicit false

namespace Micron.Fibonacci

open Micron.Lib List

variable {T : Type}

structure Node (T : Type) where
  value : T
  parent : Option Nat
  child : Option Nat
  left : Nat
  right : Nat
  degree : Nat
  mark : Bool

namespace Node

/-- The node that the constructor makes at the address `self`. -/
def make (self : Nat) (value : T) : Node T := ⟨value, none, none, self, self, 0, false⟩

def setParent (p : Option Nat) (n : Node T) : Node T :=
  ⟨n.value, p, n.child, n.left, n.right, n.degree, n.mark⟩

def setChild (p : Option Nat) (n : Node T) : Node T :=
  ⟨n.value, n.parent, p, n.left, n.right, n.degree, n.mark⟩

def setLeft (a : Nat) (n : Node T) : Node T :=
  ⟨n.value, n.parent, n.child, a, n.right, n.degree, n.mark⟩

def setRight (a : Nat) (n : Node T) : Node T :=
  ⟨n.value, n.parent, n.child, n.left, a, n.degree, n.mark⟩

def incDegree (n : Node T) : Node T :=
  ⟨n.value, n.parent, n.child, n.left, n.right, (n.degree + 1) % 2 ^ 64, n.mark⟩

def clearMark (n : Node T) : Node T :=
  ⟨n.value, n.parent, n.child, n.left, n.right, n.degree, false⟩

end Node

structure FibonacciHeap (T : Type) where
  minRoot : Option Nat
  totalNodes : Nat
  nodes : Store (Node T)

/-- `y->left->right = y->right; y->right->left = y->left;` -/
def unlink (m : Store (Node T)) (y : Nat) : Option (Store (Node T)) := do
  let n ← m y
  let m ← m.write n.left (Node.setRight n.right)
  let n ← m y
  m.write n.right (Node.setLeft n.left)

/-- `n->left = r; n->right = r->right; r->right->left = n; r->right = n;` -/
def splice (m : Store (Node T)) (r n : Nat) : Option (Store (Node T)) := do
  let m ← m.write n (Node.setLeft r)
  let c ← m r
  let m ← m.write n (Node.setRight c.right)
  let c ← m r
  let m ← m.write c.right (Node.setLeft n)
  m.write r (Node.setRight n)

/-- The branch of `link` that puts `y` before the first child `c`. -/
def spliceBefore (m : Store (Node T)) (c y : Nat) : Option (Store (Node T)) := do
  let m ← m.write y (Node.setRight c)
  let n ← m c
  let m ← m.write y (Node.setLeft n.left)
  let n ← m c
  let m ← m.write n.left (Node.setRight y)
  m.write c (Node.setLeft y)

/-- The branches of `link`: `y` becomes a child of `x`. -/
def hang (m : Store (Node T)) (y x : Nat) : Option (Store (Node T)) := do
  let n ← m x
  match n.child with
  | none => m.write x (Node.setChild (some y))
  | some c => spliceBefore m c y

def link (m : Store (Node T)) (y x : Nat) : Option (Store (Node T)) := do
  let m ← unlink m y
  let m ← m.write y (Node.setParent (some x))
  let m ← m.write y (Node.setLeft y)
  let m ← m.write y (Node.setRight y)
  let m ← hang m y x
  let m ← m.write x Node.incDegree
  m.write y Node.clearMark

def maxDegree : Nat := 64

def countRoots (m : Store (Node T)) (start : Nat) : Nat → Nat → Nat → Option Nat
  | 0, _, _ => none
  | fuel + 1, r, nroots => do
      let n ← m r
      if n.right = start then some (nroots + 1) else countRoots m start fuel n.right (nroots + 1)

/-- What the loops of `consolidate` change: the table and the nodes. -/
structure Work (T : Type) where
  table : Nat → Option Nat
  nodes : Store (Node T)

/-- The loop that links the root `x` of degree `d` while the table has a root of
its degree. -/
def linkEqual (lt : T → T → Bool) (s : Work T) (x d : Nat) : Option (Work T × Nat × Nat) :=
  if d < maxDegree then
    match s.table d with
    | none => some (s, x, d)
    | some y => do
        let vx ← s.nodes.read x Node.value
        let vy ← s.nodes.read y Node.value
        let (x, y) := if lt vx vy then (y, x) else (x, y)
        let m ← link s.nodes y x
        linkEqual lt ⟨Function.update s.table d none, m⟩ x (d + 1)
  else some (s, x, d)
termination_by maxDegree - d

/-- The loop over the roots, `rounds` of them from `w` on. -/
def collect (lt : T → T → Bool) : Nat → Work T → Nat → Option (Work T)
  | 0, s, _ => some s
  | rounds + 1, s, w => do
      let n ← s.nodes w
      let next := n.right
      let (s, x, d) ← linkEqual lt s w n.degree
      let d := if maxDegree ≤ d then maxDegree - 1 else d
      collect lt rounds ⟨Function.update s.table d (some x), s.nodes⟩ next

/-- One round of the loop that makes a ring of the table. -/
def place (lt : T → T → Bool) (table : Nat → Option Nat)
    (s : Option Nat × Store (Node T)) (i : Nat) : Option (Option Nat × Store (Node T)) :=
  match table i with
  | none => some s
  | some a =>
    match s.1 with
    | none => do
        let m ← s.2.write a (Node.setRight a)
        let m ← m.write a (Node.setLeft a)
        some (some a, m)
    | some r => do
        let m ← splice s.2 r a
        let va ← m.read a Node.value
        let vr ← m.read r Node.value
        some (some (if lt vr va then a else r), m)

def consolidate (lt : T → T → Bool) (fuel : Nat) (minRoot : Option Nat) (m : Store (Node T)) :
    Option (Option Nat × Store (Node T)) :=
  match minRoot with
  | none => some (none, m)
  | some r => do
      let nroots ← countRoots m r fuel r 0
      let s ← collect lt nroots ⟨fun _ => none, m⟩ r
      (List.range maxDegree).foldlM (place lt s.table) (none, s.nodes)

/-- The loop of `pop` over the children of `z`, from `c` on. -/
def releaseChildren (z : Nat) : Nat → Store (Node T) → Nat → Option (Store (Node T))
  | 0, _, _ => none
  | fuel + 1, m, c => do
      let n ← m c
      let next := n.right
      let m ← splice m z c
      let m ← m.write c (Node.setParent none)
      let child ← m.read z Node.child
      if child = some next then some m else releaseChildren z fuel m next

/-- The part of `pop` that makes the children of `z` roots. -/
def release (fuel z : Nat) (m : Store (Node T)) : Option (Store (Node T)) := do
  let child ← m.read z Node.child
  match child with
  | none => some m
  | some c => releaseChildren z fuel m c

/-- The part of `pop` that finds the new `min_root`. -/
def renew (lt : T → T → Bool) (fuel z : Nat) (m : Store (Node T)) :
    Option (Option Nat × Store (Node T)) := do
  let right ← m.read z Node.right
  if z = right then some (none, m) else consolidate lt fuel (some right) m

namespace FibonacciHeap

def empty : FibonacciHeap T := ⟨none, 0, fun _ => none⟩

def insert (lt : T → T → Bool) (h : FibonacciHeap T) (new : Nat) (value : T) :
    Option (FibonacciHeap T) := do
  let m := h.nodes.alloc new (Node.make new value)
  match h.minRoot with
  | none => some ⟨some new, (h.totalNodes + 1) % 2 ^ 64, m⟩
  | some r => do
      let m ← splice m r new
      let vn ← m.read new Node.value
      let vr ← m.read r Node.value
      some ⟨some (if lt vr vn then new else r), (h.totalNodes + 1) % 2 ^ 64, m⟩

def max (h : FibonacciHeap T) : Option (Except String T) :=
  match h.minRoot with
  | none => some (.error "fibonacci_heap::max() empty")
  | some r => do
      let value ← h.nodes.read r Node.value
      some (.ok value)

/-- Rounds for the loops: a ring has no more members than the heap has nodes. -/
def pop (lt : T → T → Bool) (h : FibonacciHeap T) : Option (Except String T × FibonacciHeap T) :=
  match h.minRoot with
  | none => some (.error "fibonacci_heap::pop() empty", h)
  | some z => do
      let m ← release h.totalNodes z h.nodes
      let m ← unlink m z
      let (minRoot, m) ← renew lt h.totalNodes z m
      let value ← m.read z Node.value
      some (.ok value, ⟨minRoot, (h.totalNodes + 2 ^ 64 - 1) % 2 ^ 64, m.free z⟩)

end FibonacciHeap

end Micron.Fibonacci

/-!
## Rings of nodes

The neighbours of a node are fields of it.  Taking a node out of its ring and
putting one in change the neighbours of the ring's members and nothing else.
-/

namespace Micron.Fibonacci

open Micron.Lib

variable {T : Type} {m m' m'' : Store (Node T)}

def NodeRing (m : Store (Node T)) (l : List Nat) : Prop :=
  Ring (fun a => m.read a Node.right) (fun a => m.read a Node.left) l

theorem NodeRing.rotate {front back : List Nat} (ring : NodeRing m (front ++ back)) :
    NodeRing m (back ++ front) :=
  Ring.rotate ring

theorem NodeRing.congr {l : List Nat} (ring : NodeRing m l)
    (rights : ∀ a ∈ l, m'.read a Node.right = m.read a Node.right)
    (lefts : ∀ a ∈ l, m'.read a Node.left = m.read a Node.left) : NodeRing m' l :=
  Ring.congr ring rights lefts

theorem NodeRing.frame {l : List Nat} (ring : NodeRing m l) (kept : ∀ a ∈ l, m' a = m a) :
    NodeRing m' l := by
  refine ring.congr ?_ ?_ <;>
  · intro a member
    rw [Store.read, Store.read, kept a member]

/-- What a node holds besides its neighbours and its mark. -/
def Node.body (n : Node T) : T × Option Nat × Option Nat × Nat :=
  (n.value, n.parent, n.child, n.degree)

structure Relinked (l : List Nat) (m m' : Store (Node T)) : Prop where
  body : ∀ a, m'.read a Node.body = m.read a Node.body
  outside : ∀ a, a ∉ l → m' a = m a

namespace Relinked

variable {l l' : List Nat}

theorem refl (m : Store (Node T)) : Relinked l m m := ⟨fun _ => rfl, fun _ _ => rfl⟩

theorem trans (first : Relinked l m m') (second : Relinked l m' m'') : Relinked l m m'' :=
  ⟨fun a => (second.body a).trans (first.body a),
    fun a away => (second.outside a away).trans (first.outside a away)⟩

theorem mono (sub : ∀ a ∈ l, a ∈ l') (change : Relinked l m m') : Relinked l' m m' :=
  ⟨change.body, fun a away => change.outside a fun inside => away (sub a inside)⟩

theorem set (m : Store (Node T)) {a : Nat} {f : Node T → Node T} (inside : a ∈ l)
    (kept : ∀ n, Node.body (f n) = Node.body n) : Relinked l m (m.set a f) :=
  ⟨fun b => Store.read_set_other m a b kept,
    fun b away => Store.set_of_ne m (fun same => away (by rwa [same])) f⟩

theorem read {β : Type} (change : Relinked l m m') (field : Node T → β)
    (part : T × Option Nat × Option Nat × Nat → β) (same : ∀ n, part (Node.body n) = field n)
    (a : Nat) : m'.read a field = m.read a field := by
  have bodies := congrArg (Option.map part) (change.body a)
  have comp : part ∘ Node.body = field := funext same
  simpa [Store.read, Option.map_map, comp] using bodies

theorem value (change : Relinked l m m') (a : Nat) : m'.read a Node.value = m.read a Node.value :=
  change.read Node.value (fun b => b.1) (fun _ => rfl) a

theorem parent (change : Relinked l m m') (a : Nat) :
    m'.read a Node.parent = m.read a Node.parent :=
  change.read Node.parent (fun b => b.2.1) (fun _ => rfl) a

theorem child (change : Relinked l m m') (a : Nat) : m'.read a Node.child = m.read a Node.child :=
  change.read Node.child (fun b => b.2.2.1) (fun _ => rfl) a

theorem degree (change : Relinked l m m') (a : Nat) :
    m'.read a Node.degree = m.read a Node.degree :=
  change.read Node.degree (fun b => b.2.2.2) (fun _ => rfl) a

theorem isSome (change : Relinked l m m') (a : Nat) : (m' a).isSome = (m a).isSome := by
  have bodies := congrArg Option.isSome (change.body a)
  simpa [Store.read] using bodies

end Relinked

theorem body_setLeft (a : Nat) (n : Node T) : (n.setLeft a).body = n.body := rfl

theorem body_setRight (a : Nat) (n : Node T) : (n.setRight a).body = n.body := rfl

@[simp] theorem right_setLeft (m : Store (Node T)) (a b c : Nat) :
    (m.set a (Node.setLeft c)).read b Node.right = m.read b Node.right :=
  Store.read_set_other m a b (fun _ => rfl)

@[simp] theorem left_setRight (m : Store (Node T)) (a b c : Nat) :
    (m.set a (Node.setRight c)).read b Node.left = m.read b Node.left :=
  Store.read_set_other m a b (fun _ => rfl)

theorem NodeRing.unlink {y : Nat} {l : List Nat} (ring : NodeRing m (y :: l))
    (nodup : (y :: l).Nodup) :
    ∃ m', unlink m y = some m' ∧ NodeRing m' l ∧ Relinked (y :: l) m m' ∧
      m'.read y Node.right = m.read y Node.right := by
  obtain ⟨p, memP, n, memN, leftY, rightP, rightY, leftN⟩ := Ring.links ring List.mem_cons_self
  obtain ⟨cy, foundY, rfl⟩ := Store.exists_of_read leftY
  have rightCy : cy.right = n := by
    rw [Store.read_eq foundY, Option.some.injEq] at rightY
    exact rightY
  subst rightCy
  obtain ⟨cp, foundP, rightCp⟩ := Store.exists_of_read rightP
  obtain ⟨cn, foundN, leftCn⟩ := Store.exists_of_read leftN
  have same : ∃ cy', (m.set cy.left (Node.setRight cy.right)) y = some cy' ∧
      cy'.left = cy.left ∧ cy'.right = cy.right := by
    by_cases self : y = cy.left
    · rw [← self, Store.set_self foundY]
      exact ⟨_, rfl, self.symm, rfl⟩
    · rw [Store.set_of_ne m self]
      exact ⟨cy, foundY, rfl, rfl⟩
  obtain ⟨cy', foundY', left', right'⟩ := same
  have liveN : ((m.set cy.left (Node.setRight cy.right)) cy.right).isSome := by
    rw [Store.isSome_set, foundN]
    rfl
  obtain ⟨cn', foundN'⟩ := Option.isSome_iff_exists.mp liveN
  refine ⟨(m.set cy.left (Node.setRight cy.right)).set cy.right (Node.setLeft cy.left), ?_, ?_,
    (Relinked.set m memP (body_setRight _)).trans (Relinked.set _ memN (body_setLeft _)), ?_⟩
  · simp only [Fibonacci.unlink, foundY, Store.write_eq foundP, foundY', left', right',
      Store.write_eq foundN', Option.bind_eq_bind, Option.bind_some]
  · refine Ring.unlink ring nodup leftY rightY ?_ ?_ ?_ ?_
    · intro _
      rw [right_setLeft]
      exact Store.read_set_self (by rw [foundP]; rfl) (fun _ => rfl)
    · intro _
      exact Store.read_set_self liveN (fun _ => rfl)
    · intro c _ other
      rw [right_setLeft, Store.read_set_of_ne _ other]
    · intro c _ other
      rw [Store.read_set_of_ne _ other, left_setRight]
  · rw [right_setLeft]
    by_cases self : y = cy.left
    · rw [← self, rightY]
      exact Store.read_set_self (by rw [foundY]; rfl) (fun _ => rfl)
    · rw [Store.read_set_of_ne _ self]

theorem NodeRing.splice {r y : Nat} {l : List Nat} (ring : NodeRing m (r :: l))
    (nodup : (r :: l).Nodup) (fresh : y ∉ r :: l) (live : (m y).isSome) :
    ∃ m', splice m r y = some m' ∧ NodeRing m' (r :: y :: l) ∧ Relinked (r :: y :: l) m m' := by
  obtain ⟨p, memP, n, memN, leftR, rightP, rightR, leftN⟩ := Ring.links ring List.mem_cons_self
  obtain ⟨cy, foundY⟩ := Option.isSome_iff_exists.mp live
  obtain ⟨cr, foundR, rfl⟩ := Store.exists_of_read rightR
  have notR : r ≠ y := fun same => fresh (same ▸ List.mem_cons_self)
  have notN : cr.right ≠ y := fun same => fresh (same ▸ memN)
  let m₁ := m.set y (Node.setLeft r)
  let m₂ := m₁.set y (Node.setRight cr.right)
  let m₃ := m₂.set cr.right (Node.setLeft y)
  have foundR₁ : m₁ r = some cr := by
    exact (Store.set_of_ne _ notR _).trans foundR
  have foundR₂ : m₂ r = some cr := by
    exact (Store.set_of_ne _ notR _).trans foundR₁
  have foundY₁ : m₁ y = some (cy.setLeft r) := Store.set_self foundY _
  obtain ⟨cn, foundN, leftCn⟩ := Store.exists_of_read leftN
  have foundN₂ : m₂ cr.right = some cn := by
    exact (Store.set_of_ne _ notN _).trans ((Store.set_of_ne _ notN _).trans foundN)
  have liveR : (m₃ r).isSome := by
    rw [Store.isSome_set, foundR₂]
    rfl
  obtain ⟨cr', foundR₃⟩ := Option.isSome_iff_exists.mp liveR
  have inside : ∀ a ∈ r :: l, a ∈ r :: y :: l := by
    intro a member
    rcases List.mem_cons.mp member with rfl | tail
    · exact List.mem_cons_self
    · exact List.mem_cons_of_mem _ (List.mem_cons_of_mem _ tail)
  have memY : y ∈ r :: y :: l := List.mem_cons_of_mem _ List.mem_cons_self
  refine ⟨m₃.set r (Node.setRight y), ?_, ?_, ?_⟩
  · simp only [Fibonacci.splice, Store.write_eq foundY, Option.bind_eq_bind, Option.bind_some]
    show (m₁ r).bind _ = _
    simp only [foundR₁, Option.bind_some]
    rw [Store.write_eq foundY₁, Option.bind_some]
    show (m₂ r).bind _ = _
    rw [foundR₂, Option.bind_some, Store.write_eq foundN₂, Option.bind_some]
    exact Store.write_eq foundR₃ _
  · refine Ring.insert ring nodup rightR fresh ?_ ?_ ?_ ?_ ?_ ?_
    · exact Store.read_set_self liveR (fun _ => rfl)
    · rw [left_setRight, Store.read_set_of_ne _ (Ne.symm notN),
        left_setRight]
      exact Store.read_set_self live (fun _ => rfl)
    · rw [Store.read_set_of_ne _ (Ne.symm notR), right_setLeft]
      exact Store.read_set_self (by rw [foundY₁]; rfl) (fun _ => rfl)
    · rw [left_setRight]
      exact Store.read_set_self (by rw [foundN₂]; rfl) (fun _ => rfl)
    · intro c member
      have notHead : c ≠ r := by
        rintro rfl
        exact (List.nodup_cons.mp nodup).1 member
      have notY : c ≠ y := by
        rintro rfl
        exact fresh (List.mem_cons_of_mem _ member)
      rw [Store.read_set_of_ne _ notHead, right_setLeft,
        Store.read_set_of_ne _ notY, Store.read_set_of_ne _ notY]
    · intro c member notN'
      have notY : c ≠ y := by
        rintro rfl
        exact fresh member
      rw [left_setRight, Store.read_set_of_ne _ notN',
        Store.read_set_of_ne _ notY, Store.read_set_of_ne _ notY]
  · refine Relinked.trans ?_ (Relinked.set _ List.mem_cons_self (body_setRight _))
    refine Relinked.trans ?_ (Relinked.set _ (inside _ memN) (body_setLeft _))
    exact (Relinked.set _ memY (body_setLeft _)).trans (Relinked.set _ memY (body_setRight _))

/-- The new member comes last, to the left of the first one. -/
theorem NodeRing.spliceBefore {c y : Nat} {l : List Nat} (ring : NodeRing m (c :: l))
    (nodup : (c :: l).Nodup) (fresh : y ∉ c :: l) (live : (m y).isSome) :
    ∃ m', spliceBefore m c y = some m' ∧ NodeRing m' (c :: l ++ [y]) ∧
      Relinked (c :: l ++ [y]) m m' := by
  obtain ⟨p, memP, n, memN, leftC, rightP, rightC, leftN⟩ := Ring.links ring List.mem_cons_self
  obtain ⟨cy, foundY⟩ := Option.isSome_iff_exists.mp live
  obtain ⟨cc, foundC, rfl⟩ := Store.exists_of_read leftC
  have notC : c ≠ y := fun same => fresh (same ▸ List.mem_cons_self)
  have notP : cc.left ≠ y := fun same => fresh (same ▸ memP)
  let m₁ := m.set y (Node.setRight c)
  let m₂ := m₁.set y (Node.setLeft cc.left)
  let m₃ := m₂.set cc.left (Node.setRight y)
  have foundC₁ : m₁ c = some cc := by
    exact (Store.set_of_ne _ notC _).trans foundC
  have foundC₂ : m₂ c = some cc := by
    exact (Store.set_of_ne _ notC _).trans foundC₁
  have foundY₁ : m₁ y = some (cy.setRight c) := Store.set_self foundY _
  obtain ⟨cp, foundP, rightCp⟩ := Store.exists_of_read rightP
  have foundP₂ : m₂ cc.left = some cp := by
    exact (Store.set_of_ne _ notP _).trans ((Store.set_of_ne _ notP _).trans foundP)
  have liveC : (m₃ c).isSome := by
    rw [Store.isSome_set, foundC₂]
    rfl
  obtain ⟨cc', foundC₃⟩ := Option.isSome_iff_exists.mp liveC
  have inside : ∀ a ∈ c :: l, a ∈ c :: l ++ [y] := fun a member => List.mem_append_left _ member
  have memY : y ∈ c :: l ++ [y] := List.mem_append_right _ (List.mem_singleton.mpr rfl)
  refine ⟨m₃.set c (Node.setLeft y), ?_, ?_, ?_⟩
  · simp only [Fibonacci.spliceBefore, Store.write_eq foundY, Option.bind_eq_bind,
      Option.bind_some]
    show (m₁ c).bind _ = _
    simp only [foundC₁, Option.bind_some]
    rw [Store.write_eq foundY₁, Option.bind_some]
    show (m₂ c).bind _ = _
    rw [foundC₂, Option.bind_some, Store.write_eq foundP₂, Option.bind_some]
    exact Store.write_eq foundC₃ _
  · -- the ring read from the last member on
    obtain ⟨init, last, split⟩ : ∃ init last, c :: l = init ++ [last] :=
      ⟨_, _, (List.dropLast_append_getLast (List.cons_ne_nil c l)).symm⟩
    have turned : NodeRing m (last :: init) := by
      rw [split] at ring
      exact ring.rotate
    have perm : ∀ a, a ∈ last :: init ↔ a ∈ c :: l := by
      intro a
      rw [split, List.mem_append, List.mem_singleton, List.mem_cons]
      tauto
    have nodup' : (last :: init).Nodup := by
      rw [split] at nodup
      exact (List.nodup_append_comm.mp nodup)
    have isLast : cc.left = last := by
      obtain ⟨q, memQ, k, memK, leftL, rightQ, rightL, leftK⟩ :=
        Ring.links turned List.mem_cons_self
      have first : k = c := by
        cases init with
        | nil =>
          cases split
          have := (turned : Arc _ _ _ _ _).1
          exact Option.some.inj (rightL.symm.trans this)
        | cons b init =>
          cases split
          have := (turned : Arc _ _ _ _ _).1
          exact Option.some.inj (rightL.symm.trans this)
      subst first
      exact Option.some.inj (leftC.symm.trans leftK)
    rw [isLast] at rightP
    have whole : NodeRing (m₃.set c (Node.setLeft y)) (last :: y :: init) := by
      refine Ring.insert turned nodup' rightP (fun inside => fresh ((perm y).mp inside))
        ?_ ?_ ?_ ?_ ?_ ?_
      · rw [right_setLeft, ← isLast]
        exact Store.read_set_self (by rw [foundP₂]; rfl) (fun _ => rfl)
      · rw [Store.read_set_of_ne _ (Ne.symm notC), left_setRight,
          ← isLast]
        exact Store.read_set_self (by rw [foundY₁]; rfl) (fun _ => rfl)
      · rw [right_setLeft, Store.read_set_of_ne _ (Ne.symm notP),
          right_setLeft]
        exact Store.read_set_self live (fun _ => rfl)
      · exact Store.read_set_self liveC (fun _ => rfl)
      · intro a member
        have notLast : a ≠ cc.left := by
          rw [isLast]
          rintro rfl
          exact (List.nodup_cons.mp nodup').1 member
        have notY : a ≠ y := by
          rintro rfl
          exact fresh ((perm a).mp (List.mem_cons_of_mem _ member))
        rw [right_setLeft, Store.read_set_of_ne _ notLast,
          Store.read_set_of_ne _ notY, Store.read_set_of_ne _ notY]
      · intro a member notC'
        have notY : a ≠ y := by
          rintro rfl
          exact fresh ((perm a).mp member)
        rw [Store.read_set_of_ne _ notC', left_setRight,
          Store.read_set_of_ne _ notY, Store.read_set_of_ne _ notY]
    have ordered : NodeRing (m₃.set c (Node.setLeft y)) ([last, y] ++ init) := whole
    rw [split, List.append_assoc]
    exact ordered.rotate
  · refine Relinked.trans ?_ (Relinked.set _ (inside _ List.mem_cons_self) (body_setLeft _))
    refine Relinked.trans ?_ (Relinked.set _ (inside _ memP) (body_setRight _))
    exact (Relinked.set _ memY (body_setRight _)).trans (Relinked.set _ memY (body_setLeft _))

end Micron.Fibonacci
