import Micron.Immutable.Model

/-!
# Insertion into `immutable_map`

`Balanced` is the left-leaning red-black shape: a tree of 2-nodes and 3-nodes
in which a red node is always the left child of a black one.  One insertion
breaks it at most at the root of the subtree it returns, by a red left child of
a red node, and `__fixup` one level up repairs that.
-/

set_option autoImplicit false

namespace Micron.Immutable

open Micron.Lib List

namespace Node

variable {K V : Type}

/-- `Balanced red n t`: `t` is left-leaning red-black, its root has colour `red`
and each of its paths has `n` black nodes. -/
inductive Balanced : Bool → Nat → Node K V → Prop
  | null : Balanced false 0 null
  | red {n : Nat} {left right : Node K V} {key : K} {value : V}
      (leftBalanced : Balanced false n left) (rightBalanced : Balanced false n right) :
      Balanced true n (node true left key value right)
  | black {c : Bool} {n : Nat} {left right : Node K V} {key : K} {value : V}
      (leftBalanced : Balanced c n left) (rightBalanced : Balanced false n right) :
      Balanced false (n + 1) (node false left key value right)

theorem Balanced.isRed_eq {c : Bool} {n : Nat} {h : Node K V} (balanced : Balanced c n h) :
    h.isRed = c := by
  cases balanced <;> rfl

def NoRedRightChild : Node K V → Prop
  | null => True
  | node _ left _ _ right =>
    right.isRed = false ∧ left.NoRedRightChild ∧ right.NoRedRightChild

def NoTwoRedLeftLinks : Node K V → Prop
  | null => True
  | node _ left _ _ right =>
    (left.isRed && left.left.isRed) = false ∧ left.NoTwoRedLeftLinks ∧
      right.NoTwoRedLeftLinks

/-- Every path from the node down to a null has `n` black nodes. -/
def BlackHeight : Node K V → Nat → Prop
  | null, n => n = 0
  | node red left _ _ right, n =>
    ∃ m, n = (if red then m else m + 1) ∧ left.BlackHeight m ∧ right.BlackHeight m

theorem Balanced.noRedRightChild {c : Bool} {n : Nat} {h : Node K V} (balanced : Balanced c n h) :
    h.NoRedRightChild := by
  induction balanced with
  | null => trivial
  | red _ rightBalanced leftIH rightIH => exact ⟨rightBalanced.isRed_eq, leftIH, rightIH⟩
  | black _ rightBalanced leftIH rightIH => exact ⟨rightBalanced.isRed_eq, leftIH, rightIH⟩

theorem Balanced.left_left_black {c : Bool} {n : Nat} {h : Node K V} (balanced : Balanced c n h) :
    (h.isRed && h.left.isRed) = false := by
  cases balanced with
  | null => rfl
  | red leftBalanced _ => exact leftBalanced.isRed_eq
  | black _ _ => rfl

theorem Balanced.noTwoRedLeftLinks {c : Bool} {n : Nat} {h : Node K V}
    (balanced : Balanced c n h) : h.NoTwoRedLeftLinks := by
  induction balanced with
  | null => trivial
  | red leftBalanced _ leftIH rightIH => exact ⟨leftBalanced.left_left_black, leftIH, rightIH⟩
  | black leftBalanced _ leftIH rightIH => exact ⟨leftBalanced.left_left_black, leftIH, rightIH⟩

theorem Balanced.blackHeight {c : Bool} {n : Nat} {h : Node K V} (balanced : Balanced c n h) :
    h.BlackHeight n := by
  induction balanced with
  | null => rfl
  | red _ _ leftIH rightIH => exact ⟨_, rfl, leftIH, rightIH⟩
  | black _ _ leftIH rightIH => exact ⟨_, rfl, leftIH, rightIH⟩

/-- A subtree as an insertion returns it to a red parent: balanced, but for a
left child of the root that may be red too. -/
def RedHot (n : Nat) (h : Node K V) : Prop :=
  ∃ c left key value right, h = node true left key value right ∧
    Balanced c n left ∧ Balanced false n right

theorem Balanced.redHot {n : Nat} {h : Node K V} (balanced : Balanced true n h) :
    RedHot n h := by
  cases balanced with
  | red leftBalanced rightBalanced => exact ⟨_, _, _, _, _, rfl, leftBalanced, rightBalanced⟩

theorem fixup_of_right_black {red : Bool} {left right : Node K V} (key : K) (value : V)
    (rightBlack : right.isRed = false) (leftBlack : (left.isRed && left.left.isRed) = false) :
    fixup (node red left key value right) = node red left key value right := by
  cases leftRed : left.isRed with
  | false => simp [fixup, rightBlack, leftRed]
  | true =>
    rw [leftRed, Bool.true_and] at leftBlack
    simp [fixup, rightBlack, leftBlack]

theorem fixup_rotateLeft {red : Bool} {left b c : Node K V} (key : K) (value : V) (keyX : K)
    (valueX : V) (leftBlack : left.isRed = false) (cBlack : c.isRed = false) :
    fixup (node red left key value (node true b keyX valueX c)) =
      node red (node true left key value b) keyX valueX c := by
  simp [fixup, leftBlack, cBlack, rotateLeft]

theorem fixup_rotateRight {red : Bool} {a b c right : Node K V} (key : K) (value : V) (keyX : K)
    (valueX : V) (keyY : K) (valueY : V) (rightBlack : right.isRed = false) :
    fixup (node red (node true (node true a keyY valueY b) keyX valueX c) key value right) =
      node (!red) (node false a keyY valueY b) keyX valueX (node false c key value right) := by
  simp [fixup, rightBlack, rotateRight, flipColors, toggle]

theorem fixup_flipColors {red : Bool} {a b c d : Node K V} (key : K) (value : V) (keyX : K)
    (valueX : V) (keyY : K) (valueY : V) (aBlack : a.isRed = false) :
    fixup (node red (node true a keyX valueX b) key value (node true c keyY valueY d)) =
      node (!red) (node false a keyX valueX b) key value (node false c keyY valueY d) := by
  simp [fixup, aBlack, flipColors, toggle]

theorem Balanced.fixup_eq {c : Bool} {n : Nat} {h : Node K V} (balanced : Balanced c n h) :
    h.fixup = h := by
  cases balanced with
  | null => rfl
  | red leftBalanced rightBalanced =>
    exact fixup_of_right_black _ _ rightBalanced.isRed_eq leftBalanced.left_left_black
  | black leftBalanced rightBalanced =>
    exact fixup_of_right_black _ _ rightBalanced.isRed_eq leftBalanced.left_left_black

theorem Balanced.fixup {c : Bool} {n : Nat} {h : Node K V} (balanced : Balanced c n h) :
    Balanced c n h.fixup := by
  rw [balanced.fixup_eq]
  exact balanced

/-- A black node whose left subtree came back with two red links is turned and
recoloured. -/
theorem RedHot.fixup_black {n : Nat} {left right : Node K V} (key : K) (value : V)
    (hot : RedHot n left) (rightBalanced : Balanced false n right) :
    ∃ c, Balanced c (n + 1) (Node.fixup (node false left key value right)) := by
  obtain ⟨c, a, keyX, valueX, b, rfl, aBalanced, bBalanced⟩ := hot
  cases aBalanced with
  | null => exact ⟨_, (Balanced.black (.red .null bBalanced) rightBalanced).fixup⟩
  | black a₁ a₂ =>
    exact ⟨_, (Balanced.black (.red (.black a₁ a₂) bBalanced) rightBalanced).fixup⟩
  | red a₁ a₂ =>
    rw [fixup_rotateRight _ _ _ _ _ _ rightBalanced.isRed_eq]
    exact ⟨_, .red (.black a₁ a₂) (.black bBalanced rightBalanced)⟩

/-- A black node with a black left child whose right subtree came back red. -/
theorem Balanced.fixup_black_right {c : Bool} {n : Nat} {left right : Node K V} (key : K)
    (value : V) (leftBalanced : Balanced false n left) (rightBalanced : Balanced c n right) :
    Balanced false (n + 1) (Node.fixup (node false left key value right)) := by
  cases rightBalanced with
  | null => exact (Balanced.black leftBalanced .null).fixup
  | black r₁ r₂ => exact (Balanced.black leftBalanced (.black r₁ r₂)).fixup
  | red r₁ r₂ =>
    rw [fixup_rotateLeft _ _ _ _ leftBalanced.isRed_eq r₂.isRed_eq]
    exact .black (.red leftBalanced r₁) r₂

/-- A black node with a red left child whose right subtree came back red. -/
theorem Balanced.fixup_red_black_right {c : Bool} {n : Nat} {left right : Node K V} (key : K)
    (value : V) (leftBalanced : Balanced true n left) (rightBalanced : Balanced c n right) :
    ∃ c', Balanced c' (n + 1) (Node.fixup (node false left key value right)) := by
  cases rightBalanced with
  | null => exact ⟨_, (Balanced.black leftBalanced .null).fixup⟩
  | black r₁ r₂ => exact ⟨_, (Balanced.black leftBalanced (.black r₁ r₂)).fixup⟩
  | red r₁ r₂ =>
    cases leftBalanced with
    | red l₁ l₂ =>
      rw [fixup_flipColors _ _ _ _ _ _ l₁.isRed_eq]
      exact ⟨_, .red (.black l₁ l₂) (.black r₁ r₂)⟩

theorem Balanced.fixup_red_left {c : Bool} {n : Nat} {left right : Node K V} (key : K) (value : V)
    (leftBalanced : Balanced c n left) (rightBalanced : Balanced false n right) :
    RedHot n (Node.fixup (node true left key value right)) := by
  rw [fixup_of_right_black _ _ rightBalanced.isRed_eq leftBalanced.left_left_black]
  exact ⟨_, _, _, _, _, rfl, leftBalanced, rightBalanced⟩

theorem Balanced.fixup_red_right {c : Bool} {n : Nat} {left right : Node K V} (key : K) (value : V)
    (leftBalanced : Balanced false n left) (rightBalanced : Balanced c n right) :
    RedHot n (Node.fixup (node true left key value right)) := by
  cases rightBalanced with
  | null => exact (Balanced.red leftBalanced .null).fixup.redHot
  | black r₁ r₂ => exact (Balanced.red leftBalanced (.black r₁ r₂)).fixup.redHot
  | red r₁ r₂ =>
    rw [fixup_rotateLeft _ _ _ _ leftBalanced.isRed_eq r₂.isRed_eq]
    exact ⟨_, _, _, _, _, rfl, .red leftBalanced r₁, r₂⟩

theorem Balanced.ensureBlackRoot {c : Bool} {n : Nat} {h : Node K V} (balanced : Balanced c n h) :
    ∃ m, Balanced false m h.ensureBlackRoot := by
  cases balanced with
  | null => exact ⟨0, .null⟩
  | red leftBalanced rightBalanced => exact ⟨_, .black leftBalanced rightBalanced⟩
  | black leftBalanced rightBalanced => exact ⟨_, .black leftBalanced rightBalanced⟩

@[simp] theorem toList_ensureBlackRoot (h : Node K V) : h.ensureBlackRoot.toList = h.toList := by
  unfold Node.ensureBlackRoot
  split <;> simp

section Ordered
variable [LinearOrder K]

/-- Below a black parent the result is balanced, below a red one it may have
two red links at its root. -/
theorem Balanced.insertImpl {c : Bool} {n : Nat} {h : Node K V} (balanced : Balanced c n h)
    (k : K) (v : V) :
    (c = false → ∃ c', Balanced c' n (h.insertImpl k v).1) ∧
      (c = true → RedHot n (h.insertImpl k v).1) := by
  induction balanced with
  | null =>
    exact ⟨fun _ => ⟨true, .red .null .null⟩, fun impossible => absurd impossible (by decide)⟩
  | @red n left right key value leftBalanced rightBalanced leftIH rightIH =>
    refine ⟨fun impossible => absurd impossible (by decide), fun _ => ?_⟩
    simp only [Node.insertImpl]
    split
    · obtain ⟨c', inserted⟩ := leftIH.1 rfl
      exact inserted.fixup_red_left key value rightBalanced
    · split
      · obtain ⟨c', inserted⟩ := rightIH.1 rfl
        exact leftBalanced.fixup_red_right key value inserted
      · exact leftBalanced.fixup_red_left key v rightBalanced
  | @black c n left right key value leftBalanced rightBalanced leftIH rightIH =>
    refine ⟨fun _ => ?_, fun impossible => absurd impossible (by decide)⟩
    simp only [Node.insertImpl]
    split
    · cases c with
      | false =>
        obtain ⟨c', inserted⟩ := leftIH.1 rfl
        exact ⟨_, (Balanced.black inserted rightBalanced).fixup⟩
      | true => exact (leftIH.2 rfl).fixup_black key value rightBalanced
    · split
      · obtain ⟨c', inserted⟩ := rightIH.1 rfl
        cases c with
        | false => exact ⟨_, leftBalanced.fixup_black_right key value inserted⟩
        | true => exact leftBalanced.fixup_red_black_right key value inserted
      · exact ⟨_, (Balanced.black leftBalanced rightBalanced).fixup⟩

/-! ## The content -/

/-- The walk of a search tree meets its keys in increasing order. -/
def Ordered (h : Node K V) : Prop := SortedKeys (· < ·) h.toList

theorem Ordered.split {red : Bool} {left right : Node K V} {key : K} {value : V}
    (ordered : Ordered (node red left key value right)) :
    left.Ordered ∧ right.Ordered ∧ (∀ e ∈ left.toList, e.1 < key) ∧
      (∀ e ∈ right.toList, key < e.1) ∧
      ∀ a ∈ left.toList, ∀ b ∈ right.toList, a.1 < b.1 := by
  obtain ⟨leftSorted, rest, across⟩ := pairwise_append.mp ordered
  obtain ⟨above, rightSorted⟩ := pairwise_cons.mp rest
  exact ⟨leftSorted, rightSorted, fun e member => across e member _ mem_cons_self,
    above, fun a memberA b memberB => across a memberA b (mem_cons_of_mem _ memberB)⟩

theorem findImpl_eq {h : Node K V} (ordered : h.Ordered) (k : K) :
    h.findImpl k = rowGet (· < ·) h.toList k := by
  induction h with
  | null => rfl
  | node red left key value right leftIH rightIH =>
    obtain ⟨leftOrdered, rightOrdered, below, _⟩ := ordered.split
    rw [findImpl, toList, rowGet_pivot k below, leftIH leftOrdered, rightIH rightOrdered]

theorem insertImpl_toList {h : Node K V} (ordered : h.Ordered) (k : K) (v : V) :
    (h.insertImpl k v).1.toList = rowPut (· < ·) k v h.toList ∧
      (h.insertImpl k v).2 = (rowGet (· < ·) h.toList k).isNone := by
  induction h with
  | null => exact ⟨rfl, rfl⟩
  | node red left key value right leftIH rightIH =>
    obtain ⟨leftOrdered, rightOrdered, below, _⟩ := ordered.split
    rw [insertImpl, toList, rowPut_pivot k below, rowGet_pivot k below]
    split
    · obtain ⟨content, flag⟩ := leftIH leftOrdered
      exact ⟨by rw [toList_fixup, toList, content], flag⟩
    · split
      · obtain ⟨content, flag⟩ := rightIH rightOrdered
        exact ⟨by rw [toList_fixup, toList, content], flag⟩
      · exact ⟨by rw [toList_fixup, toList], rfl⟩

theorem emplaceImpl_eq {A : Type} (build : A → V) (k : K) (args : A) (h : Node K V) :
    h.emplaceImpl build k args = h.insertImpl k (build args) := by
  induction h with
  | null => rfl
  | node red left key value right leftIH rightIH =>
    simp only [emplaceImpl, insertImpl, leftIH, rightIH]

omit [LinearOrder K] in
theorem forEachLoop_eq (cur : Node K V) (stack : List (Node K V)) :
    cur.forEachLoop stack = cur.toList ++
      stack.flatMap fun h => match h with
        | null => []
        | node _ _ key value right => (key, value) :: right.toList := by
  fun_induction forEachLoop cur stack with
  | case1 stack red left key value right ih => simp [ih, toList]
  | case2 red left key value right stack ih => simp [ih, toList]
  | case3 stack ih => simpa [toList] using ih
  | case4 => rfl

end Ordered

end Node

variable {K V : Type} [LinearOrder K]

/-- The map holds exactly `M`, in a left-leaning red-black search tree. -/
structure MapInv (m : ImmutableMap K V) (M : K → Option V) : Prop where
  balanced : ∃ n, Node.Balanced false n m.root
  ordered : m.root.Ordered
  content : rowGet (· < ·) m.root.toList = M
  counted : m.length = m.root.toList.length

variable {m : ImmutableMap K V} {M : K → Option V}

theorem mapInv_empty : MapInv (ImmutableMap.empty : ImmutableMap K V) (fun _ => none) where
  balanced := ⟨0, .null⟩
  ordered := List.Pairwise.nil
  content := rfl
  counted := rfl

theorem MapInv.find_eq (inv : MapInv m M) (k : K) : m.find k = M k := by
  rw [ImmutableMap.find, Node.findImpl_eq inv.ordered, inv.content]

theorem MapInv.size_eq (inv : MapInv m M) : m.size = keyCount M := by
  rw [ImmutableMap.size, inv.counted, SortedKeys.length_eq inv.ordered, inv.content]

omit [LinearOrder K] in
theorem forEach_eq (m : ImmutableMap K V) : m.forEach = m.root.toList := by
  rw [ImmutableMap.forEach, Node.forEachLoop_eq]
  simp

theorem MapInv.insert (inv : MapInv m M) (k : K) (v : V) :
    MapInv (m.insert k v) (Function.update M k (some v)) := by
  obtain ⟨n, balanced⟩ := inv.balanced
  obtain ⟨content, flag⟩ := Node.insertImpl_toList inv.ordered k v
  constructor
  · obtain ⟨c, inserted⟩ := (balanced.insertImpl k v).1 rfl
    exact inserted.ensureBlackRoot
  · rw [Node.Ordered, ImmutableMap.insert, Node.toList_ensureBlackRoot, content]
    exact SortedKeys.rowPut inv.ordered k v
  · rw [ImmutableMap.insert, Node.toList_ensureBlackRoot, content,
      rowGet_rowPut inv.ordered, inv.content]
  · rw [ImmutableMap.insert, Node.toList_ensureBlackRoot, content, rowPut, length_place, flag,
      rowGet, Option.isNone_map]
    cases seek (keyBelow (· < ·) k) (keyAbove (· < ·) k) m.root.toList with
    | none => simp [inv.counted]
    | some e => simp [inv.counted]

theorem emplace_eq {A : Type} (build : A → V) (m : ImmutableMap K V) (k : K) (args : A) :
    m.emplace build k args = m.insert k (build args) := by
  simp only [ImmutableMap.emplace, ImmutableMap.insert, Node.emplaceImpl_eq]

/-- A call of `insert`, or of `emplace` with the arguments of a constructor. -/
inductive InsertCall (K V A : Type) where
  | insert (key : K) (value : V)
  | emplace (key : K) (args : A)

namespace InsertCall

variable {A : Type}

def key : InsertCall K V A → K
  | insert key _ => key
  | emplace key _ => key

def value (build : A → V) : InsertCall K V A → V
  | insert _ value => value
  | emplace _ args => build args

def apply (build : A → V) (m : ImmutableMap K V) : InsertCall K V A → ImmutableMap K V
  | insert key value => m.insert key value
  | emplace key args => m.emplace build key args

omit [LinearOrder K] in
def toOp (build : A → V) (call : InsertCall K V A) : MapOp K V :=
  .insert call.key (call.value build)

theorem apply_eq (build : A → V) (m : ImmutableMap K V) (call : InsertCall K V A) :
    call.apply build m = m.insert call.key (call.value build) := by
  cases call with
  | insert key value => rfl
  | emplace key args => exact emplace_eq build m key args

end InsertCall

def insertRun {A : Type} (build : A → V) (m : ImmutableMap K V)
    (calls : List (InsertCall K V A)) : ImmutableMap K V :=
  calls.foldl (fun m call => call.apply build m) m

theorem MapInv.insertRun {A : Type} (build : A → V) (calls : List (InsertCall K V A))
    (inv : MapInv m M) :
    MapInv (insertRun build m calls) fun key =>
      (calls.map (InsertCall.toOp build)).foldl (MapOp.overwrite key) (M key) := by
  induction calls generalizing m M with
  | nil => exact inv
  | cons call rest ih =>
    have step := inv.insert call.key (call.value build)
    rw [← overwrite_insert, ← InsertCall.apply_eq] at step
    exact ih step

theorem overwrite_isSome_iff {A : Type} (build : A → V) (calls : List (InsertCall K V A))
    (key : K) (current : Option V) :
    ((calls.map (InsertCall.toOp build)).foldl (MapOp.overwrite key) current).isSome ↔
      current.isSome ∨ key ∈ calls.map InsertCall.key := by
  induction calls generalizing current with
  | nil => simp
  | cons call rest ih =>
    rw [map_cons, foldl_cons, ih, map_cons, mem_cons]
    by_cases same : call.key = key
    · simp [InsertCall.toOp, MapOp.overwrite, same]
    · simp [InsertCall.toOp, MapOp.overwrite, same, Ne.symm same]

/-- Every run of `insert` and `emplace` from the empty map: the tree is a
left-leaning red-black search tree with a black root, it binds each key to the
last value inserted for it, and `size` counts the distinct keys. -/
theorem insert_run_builds_left_leaning_tree {A : Type} (build : A → V)
    (calls : List (InsertCall K V A)) :
    ∃ m, m = insertRun build .empty calls ∧
      m.root.toList.Pairwise (fun a b => a.1 < b.1) ∧ m.forEach = m.root.toList ∧
      m.root.isRed = false ∧ m.root.NoRedRightChild ∧ m.root.NoTwoRedLeftLinks ∧
      (∃ n, m.root.BlackHeight n) ∧
      (∀ k, m.find k = overwriteRun (calls.map (InsertCall.toOp build)) k) ∧
      (∀ k v, (k, v) ∈ m.forEach ↔ overwriteRun (calls.map (InsertCall.toOp build)) k = some v) ∧
      m.size = (calls.map InsertCall.key).toFinset.card := by
  have inv : MapInv (insertRun build .empty calls)
      (overwriteRun (calls.map (InsertCall.toOp build))) :=
    mapInv_empty.insertRun build calls
  obtain ⟨n, balanced⟩ := inv.balanced
  refine ⟨_, rfl, inv.ordered, forEach_eq _, balanced.isRed_eq, balanced.noRedRightChild,
    balanced.noTwoRedLeftLinks, ⟨n, balanced.blackHeight⟩, inv.find_eq, ?_, ?_⟩
  · intro k v
    rw [forEach_eq, ← rowGet_eq_some_iff inv.ordered, inv.content]
  · rw [inv.size_eq, keyCount, ← Set.ncard_coe_finset]
    simp [overwriteRun, overwrite_isSome_iff]

end Micron.Immutable
