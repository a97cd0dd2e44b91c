import Micron.Immutable.Erase

/-!
# The iterator of the immutable map

`const_iterator` keeps the nodes it has to come back to in an array of 64 entries and
writes to it without a test.  A left-leaning red-black tree needs at most two entries for
each black node of a path, so the array is long enough below `2 ^ 33 - 1` bindings.
-/

set_option autoImplicit false

namespace Micron.Immutable

open Micron.Lib List

namespace Node

variable {K V : Type}

def maxDepth : Nat := 64

/-- `__push_left`, which is `none` where it would write behind the array. -/
def pushLeft : Node K V → List (Node K V) → Option (List (Node K V))
  | null, stack => some stack
  | node red left key value right, stack =>
    if stack.length < maxDepth then pushLeft left (node red left key value right :: stack)
    else none

/-- `operator++`, which has nothing to pop at the end. -/
def next : List (Node K V) → Option (List (Node K V))
  | [] => none
  | n :: stack => n.right.pushLeft stack

def deref : List (Node K V) → Option (K × V)
  | node _ _ key value _ :: _ => some (key, value)
  | _ => none

def depth : Node K V → Nat
  | null => 0
  | node _ left _ _ right => max (left.depth + 1) right.depth

theorem Balanced.depth_le {c : Bool} {n : Nat} {h : Node K V} (balanced : Balanced c n h) :
    h.depth ≤ 2 * n + c.toNat := by
  induction balanced with
  | null => exact le_refl 0
  | red _ _ leftIH rightIH =>
    simp only [depth, Bool.toNat_false, Bool.toNat_true] at *
    omega
  | @black c _ _ _ _ _ _ _ leftIH rightIH =>
    have color := c.toNat_le
    simp only [depth, Bool.toNat_false] at *
    omega

theorem Balanced.size_ge {c : Bool} {n : Nat} {h : Node K V} (balanced : Balanced c n h) :
    2 ^ n ≤ h.size + 1 := by
  induction balanced with
  | null => exact le_refl 1
  | red _ _ leftIH rightIH =>
    rw [size]
    omega
  | black _ _ leftIH rightIH =>
    rw [size, pow_succ]
    omega

/-- Each entry is a node whose right subtree fits above those under it. -/
def Roomy : List (Node K V) → Prop
  | [] => True
  | n :: stack => n.isNull = false ∧ stack.length < maxDepth ∧
    stack.length + n.right.depth ≤ maxDepth ∧ Roomy stack

/-- What a walk that stands on the top of the stack still shows. -/
def ahead : List (Node K V) → List (K × V)
  | node _ _ key value right :: stack => (key, value) :: right.toList ++ ahead stack
  | null :: stack => ahead stack
  | [] => []

theorem pushLeft_spec (h : Node K V) {stack : List (Node K V)} (roomy : Roomy stack)
    (fits : stack.length + h.depth ≤ maxDepth) :
    ∃ stack', h.pushLeft stack = some stack' ∧ Roomy stack' ∧
      ahead stack' = h.toList ++ ahead stack := by
  induction h generalizing stack with
  | null => exact ⟨stack, rfl, roomy, rfl⟩
  | node red left key value right leftIH _ =>
    rw [depth] at fits
    have below : stack.length < maxDepth := by omega
    have pushed : Roomy (node red left key value right :: stack) :=
      ⟨rfl, below, by rw [right_node]; omega, roomy⟩
    obtain ⟨stack', found, roomy', shown⟩ :=
      leftIH pushed (by rw [length_cons]; omega)
    refine ⟨stack', ?_, roomy', ?_⟩
    · rw [pushLeft, if_pos below]
      exact found
    · rw [shown, ahead, toList, append_assoc]

theorem next_spec {stack : List (Node K V)} (roomy : Roomy stack) {e : K × V}
    {rest : List (K × V)} (more : ahead stack = e :: rest) :
    ∃ stack', next stack = some stack' ∧ Roomy stack' ∧ ahead stack' = rest := by
  cases stack with
  | nil => cases more
  | cons n stack =>
    obtain ⟨there, below, fits, roomy'⟩ := roomy
    cases n with
    | null => cases there
    | node red left key value right =>
      obtain ⟨stack', found, roomy'', shown⟩ := right.pushLeft_spec roomy' fits
      refine ⟨stack', found, roomy'', ?_⟩
      rw [shown]
      exact (List.cons.inj more).2

theorem Roomy.ahead_eq_nil_iff {stack : List (Node K V)} (roomy : Roomy stack) :
    ahead stack = [] ↔ stack = [] := by
  cases stack with
  | nil => exact iff_of_true rfl rfl
  | cons n stack =>
    cases n with
    | null => cases roomy.1
    | node => simp [ahead]

theorem Roomy.length_le {stack : List (Node K V)} (roomy : Roomy stack) :
    stack.length ≤ maxDepth := by
  cases stack with
  | nil => exact Nat.zero_le _
  | cons n stack => exact roomy.2.1

theorem Roomy.deref_eq {stack : List (Node K V)} (roomy : Roomy stack) :
    deref stack = (ahead stack).head? := by
  cases stack with
  | nil => rfl
  | cons n stack =>
    cases n with
    | null => cases roomy.1
    | node => rfl

end Node

variable {K V : Type} [LinearOrder K]

def ImmutableMap.advance (m : ImmutableMap K V) (k : Nat) : Option (List (Node K V)) :=
  (fun it => it.bind Node.next)^[k] (m.root.pushLeft [])

theorem MapInv.depth_le {m : ImmutableMap K V} {M : K → Option V} (inv : MapInv m M)
    (small : m.size + 1 < 2 ^ 33) : m.root.depth ≤ Node.maxDepth := by
  obtain ⟨n, balanced⟩ := inv.balanced
  have size : 2 ^ n ≤ m.size + 1 := by
    rw [ImmutableMap.size, inv.counted, ← Node.size_eq_length]
    exact balanced.size_ge
  have few : n < 33 := (Nat.pow_lt_pow_iff_right (by decide : 1 < 2)).mp (by omega)
  have depth := balanced.depth_le
  rw [Bool.toNat_false] at depth
  rw [Node.maxDepth]
  omega

theorem MapInv.advance {m : ImmutableMap K V} {M : K → Option V} (inv : MapInv m M)
    (small : m.size + 1 < 2 ^ 33) {k : Nat} (inside : k ≤ m.size) :
    ∃ it, m.advance k = some it ∧ Node.Roomy it ∧ Node.ahead it = m.forEach.drop k := by
  induction k with
  | zero =>
    obtain ⟨it, found, roomy, shown⟩ := @Node.pushLeft_spec _ _ m.root [] trivial
      (by rw [length_nil, zero_add]; exact inv.depth_le small)
    refine ⟨it, found, roomy, ?_⟩
    rw [shown, forEach_eq]
    exact append_nil _
  | succ k ih =>
    obtain ⟨it, found, roomy, shown⟩ := ih (Nat.le_of_succ_le inside)
    have more : k < m.forEach.length := by
      rw [forEach_eq, ← inv.counted]
      exact inside
    rw [drop_eq_getElem_cons more] at shown
    obtain ⟨it', found', roomy', shown'⟩ := Node.next_spec roomy shown
    refine ⟨it', ?_, roomy', shown'⟩
    rw [ImmutableMap.advance, Function.iterate_succ_apply', ← ImmutableMap.advance, found]
    exact found'

/-- In every run whose erasures are safe, the iterator shows the bindings in order and
ends behind the last one, and none of its steps writes outside its array. -/
theorem iterator_walks_in_order (calls : List (MapOp K V))
    (safe : (ImmutableMap.empty : ImmutableMap K V).runSafe calls = true) {m : ImmutableMap K V}
    (reached : ImmutableMap.empty.run calls = m) (small : m.size + 1 < 2 ^ 33) {k : Nat}
    (inside : k ≤ m.size) :
    ∃ it, m.advance k = some it ∧ it.length ≤ Node.maxDepth ∧
      Node.deref it = m.forEach[k]? ∧ (it = [] ↔ k = m.size) := by
  have inv := mapInv_empty.run calls safe
  rw [reached] at inv
  obtain ⟨it, found, roomy, shown⟩ := inv.advance small inside
  have count : m.forEach.length = m.size := by
    rw [forEach_eq]
    exact inv.counted.symm
  refine ⟨it, found, roomy.length_le, by rw [roomy.deref_eq, shown, head?_drop], ?_⟩
  rw [← roomy.ahead_eq_nil_iff, shown, drop_eq_nil_iff, count]
  omega

theorem iterator_walks_in_order_four :
    ∃ it, ((ImmutableMap.empty : ImmutableMap Nat Nat).run leftHeavyCalls).advance 2 = some it ∧
      Node.deref it = some (3, 30) := by
  obtain ⟨it, found, _, deref, _⟩ := iterator_walks_in_order (k := 2) leftHeavyCalls
    (by decide +kernel) rfl (by decide +kernel) (by decide +kernel)
  exact ⟨it, found, deref.trans (by decide +kernel)⟩

end Micron.Immutable
