import Micron.Immutable.Insert

/-!
# Erasure from `immutable_map`

On its way down an erasure keeps the node it stands on inside a 3-node or a
4-node.  `Ready` is that condition, `After` what the recursion gives back.  The
comparison with the key is made before `__move_red_right`, which may borrow
from the left and put another node on top; `borrows` recognises the nodes at
which this happens, and `eraseSafe` says that the node of the key is not one of
them.
-/

set_option autoImplicit false

namespace Micron.Immutable

open Micron.Lib List Function

namespace Node

variable {K V : Type}

section Toggle
variable (h : Node K V)

@[simp] theorem left_toggle : h.toggle.left = h.left := by cases h <;> rfl

@[simp] theorem right_toggle : h.toggle.right = h.right := by cases h <;> rfl

@[simp] theorem isNull_toggle : h.toggle.isNull = h.isNull := by cases h <;> rfl

@[simp] theorem toggle_toggle : h.toggle.toggle = h := by
  cases h with
  | null => rfl
  | node red l key value r => simp [toggle]

theorem setLeft_toggle (l : Node K V) : h.toggle.setLeft l = (h.setLeft l).toggle := by
  cases h <;> rfl

theorem setRight_toggle (r : Node K V) : h.toggle.setRight r = (h.setRight r).toggle := by
  cases h <;> rfl

theorem copyEntry_toggle (source : Node K V) :
    h.toggle.copyEntry source = (h.copyEntry source).toggle := by
  cases h <;> cases source <;> rfl

theorem rotateLeft_toggle : h.toggle.rotateLeft = h.rotateLeft.toggle := by
  cases h with
  | null => rfl
  | node red l key value r => cases r <;> rfl

theorem rotateRight_toggle : h.toggle.rotateRight = h.rotateRight.toggle := by
  cases h with
  | null => rfl
  | node red l key value r => cases l <;> rfl

theorem flipColors_toggle : h.toggle.flipColors = h.flipColors.toggle := by
  cases h <;> rfl

theorem ite_toggle (b : Bool) (g : Node K V) :
    (if b then h.toggle else g.toggle) = (if b then h else g).toggle := by
  cases b <;> rfl

theorem fixup_toggle : h.toggle.fixup = h.fixup.toggle := by
  simp only [fixup, left_toggle, right_toggle, rotateLeft_toggle, ite_toggle, rotateRight_toggle,
    flipColors_toggle]

theorem moveRedLeft_toggle : h.toggle.moveRedLeft = h.moveRedLeft.toggle := by
  simp only [moveRedLeft, right_toggle, rotateLeft_toggle, ite_toggle,
    setRight_toggle, flipColors_toggle]

theorem moveRedRight_toggle : h.toggle.moveRedRight = h.moveRedRight.toggle := by
  simp only [moveRedRight, left_toggle, rotateRight_toggle, ite_toggle, flipColors_toggle]

theorem beforeLeft_toggle : h.toggle.beforeLeft = h.beforeLeft.toggle := by
  simp only [beforeLeft, left_toggle, moveRedLeft_toggle, ite_toggle]

theorem beforeRight_toggle : h.toggle.beforeRight = h.beforeRight.toggle := by
  simp only [beforeRight, right_toggle, moveRedRight_toggle, ite_toggle]

theorem rotateRedLeft_toggle : h.toggle.rotateRedLeft = h.rotateRedLeft.toggle := by
  simp only [rotateRedLeft, left_toggle, rotateRight_toggle, ite_toggle]

variable [LinearOrder K]

theorem keyLess_toggle (k : K) : h.toggle.keyLess k = h.keyLess k := by cases h <;> rfl

/-- The colour of the root only decides the colour of the new root. -/
theorem eraseImpl_toggle (k : K) :
    eraseImpl k h.toggle = ((eraseImpl k h).1.toggle, (eraseImpl k h).2) := by
  cases h with
  | null => simp [toggle, eraseImpl]
  | node red l key value r =>
    have top : (node (!red) l key value r) = (node red l key value r).toggle := rfl
    rw [toggle, eraseImpl, eraseImpl, top]
    simp only [beforeLeft_toggle, left_toggle, setLeft_toggle, fixup_toggle,
      rotateRedLeft_toggle, keyLess_toggle, right_toggle, beforeRight_toggle, copyEntry_toggle,
      setRight_toggle]
    split
    · split <;> rfl
    · split
      · rfl
      · split
        · rfl
        · split <;> rfl

end Toggle

/-- A red node, or a black node with a red left child. -/
structure Ready (c : Bool) (n : Nat) (h : Node K V) : Prop where
  balanced : Balanced c n h
  wide : c = true ∨ h.left.isRed = true

/-- What is left of a subtree of colour `c`: as high as before, and black if it
was black. -/
def After (c : Bool) (n : Nat) (h : Node K V) : Prop :=
  ∃ c', Balanced c' n h ∧ (c = false → c' = false)

theorem Balanced.after {n : Nat} {h : Node K V} (c : Bool) (balanced : Balanced false n h) :
    After c n h := ⟨false, balanced, fun _ => rfl⟩

/-- What `beforeLeft` makes of a node it may leave to the left: nothing, a
4-node by recolouring, or a 3-node with a key of the right neighbour. -/
inductive LeftOpened (l : Node K V) (key : K) (value : V) (r : Node K V) : Node K V → Prop
  | same (red : Bool) : LeftOpened l key value r (node red l key value r)
  | merged : LeftOpened l key value r (node false l.toggle key value r.toggle)
  | borrowed (a b c : Node K V) (keyR : K) (valueR : V) (keyY : K) (valueY : V)
      (shape : r = node false (node true a keyY valueY b) keyR valueR c) :
      LeftOpened l key value r
        (node true (node false l.toggle key value a) keyY valueY (node false b keyR valueR c))

/-- The left child is ready, and whatever is left of it gives a node of the
height before. -/
theorem Ready.beforeLeft {c : Bool} {n : Nat} {l r : Node K V} {key : K} {value : V}
    (ready : Ready c n (node c l key value r)) (there : l.isNull = false) :
    ∃ gc gl gk gv gr, (node c l key value r).beforeLeft = node gc gl gk gv gr ∧
      LeftOpened l key value r (node gc gl gk gv gr) ∧ ∃ c₁ n₁, Ready c₁ n₁ gl ∧
        ∀ l', After c₁ n₁ l' → After c n (fixup (node gc l' gk gv gr)) := by
  obtain ⟨balanced, wide⟩ := ready
  cases balanced with
  | @black cl n _ _ _ _ leftBalanced rightBalanced =>
    -- a black 3-node: the left child is red
    have leftRed : l.isRed = true := wide.resolve_left (by decide)
    have red : cl = true := leftBalanced.isRed_eq.symm.trans leftRed
    subst red
    refine ⟨false, l, key, value, r, by simp [Node.beforeLeft, leftRed], .same _,
      true, n, ⟨leftBalanced, .inl rfl⟩, ?_⟩
    rintro l' ⟨c', balanced', _⟩
    exact (Balanced.black balanced' rightBalanced).fixup.after false
  | @red n _ _ _ _ leftBalanced rightBalanced =>
    cases leftBalanced with
    | null => cases there
    | @black cl n l₁ l₂ keyL valueL l₁Balanced l₂Balanced =>
      cases cl with
      | true =>
        -- the left child is a 3-node
        have l₁Red := l₁Balanced.isRed_eq
        refine ⟨true, _, key, value, r, by simp [Node.beforeLeft, l₁Red], .same _,
          false, n + 1, ⟨.black l₁Balanced l₂Balanced, .inr l₁Red⟩, ?_⟩
        rintro l' ⟨c', balanced', black⟩
        cases black rfl
        exact ⟨true, (Balanced.red balanced' rightBalanced).fixup, fun no => by cases no⟩
      | false =>
        have l₁Black := l₁Balanced.isRed_eq
        cases rightBalanced with
        | @black cr _ r₁ r₂ keyR valueR r₁Balanced r₂Balanced =>
          cases cr with
          | false =>
            have r₁Black := r₁Balanced.isRed_eq
            refine ⟨false, node true l₁ keyL valueL l₂, key, value,
              node true r₁ keyR valueR r₂,
              by simp [Node.beforeLeft, moveRedLeft, flipColors, toggle, l₁Black,
                r₁Black],
              .merged, true, n, ⟨.red l₁Balanced l₂Balanced, .inl rfl⟩, ?_⟩
            rintro l' ⟨c', balanced', _⟩
            cases c' with
            | false =>
              exact ((balanced'.fixup_black_right key value
                (.red r₁Balanced r₂Balanced))).after true
            | true =>
              obtain ⟨c'', fixed⟩ := balanced'.fixup_red_black_right key value
                (.red r₁Balanced r₂Balanced)
              exact ⟨c'', fixed, fun no => by cases no⟩
          | true =>
            cases r₁Balanced with
            | @red _ a b keyY valueY aBalanced bBalanced =>
              refine ⟨true, node false (node true l₁ keyL valueL l₂) key value a, keyY,
                valueY, node false b keyR valueR r₂,
                by simp [Node.beforeLeft, moveRedLeft, flipColors, toggle, l₁Black,
                  setRight, rotateRight, rotateLeft],
                .borrowed a b r₂ keyR valueR keyY valueY rfl, false, n + 1,
                ⟨.black (.red l₁Balanced l₂Balanced) aBalanced, .inr rfl⟩, ?_⟩
              rintro l' ⟨c', balanced', black⟩
              cases black rfl
              exact ⟨true, (Balanced.red balanced'
                (.black bBalanced r₂Balanced)).fixup, fun no => by cases no⟩

theorem findMin_spec {h : Node K V} (there : h.isNull = false) :
    ∃ red key value r rest, h.findMin = node red null key value r ∧
      h.toList = (key, value) :: rest := by
  fun_induction findMin h with
  | case1 => cases there
  | case2 red key value r => exact ⟨red, key, value, r, r.toList, rfl, rfl⟩
  | case3 red key value r _ l keyL valueL rL ih =>
    obtain ⟨red', key', value', r', rest, least, row⟩ := ih rfl
    rw [toList, row]
    exact ⟨red', key', value', r', _, least, rfl⟩

theorem eraseMinImpl_sublist : ∀ (size : Nat) (h : Node K V), h.size ≤ size →
    (eraseMinImpl h).toList.Sublist h.toList := by
  intro size
  induction size with
  | zero =>
    intro h small
    cases h with
    | null => simp [eraseMinImpl]
    | node => simp [Node.size] at small
  | succ size ih =>
    intro h small
    cases h with
    | null => simp [eraseMinImpl]
    | node red l key value r =>
      rw [eraseMinImpl]
      split
      · exact nil_sublist _
      · have content := toList_beforeLeft (node red l key value r)
        have there := size_pos red l key value r
        have height := size_beforeLeft (node red l key value r)
        cases opened : (node red l key value r).beforeLeft with
        | null =>
          rw [opened, Node.size] at height
          omega
        | node gc gl gk gv gr =>
          rw [opened] at content height
          simp only [left_node, setLeft, toList_fixup]
          rw [← content]
          exact (ih gl (by simp only [Node.size] at height small; omega)).append_right _

theorem Ready.isNull_eq {c : Bool} {n : Nat} {h : Node K V} (ready : Ready c n h) :
    h.isNull = false := by
  obtain ⟨balanced, wide⟩ := ready
  cases balanced with
  | null => simp at wide
  | red => rfl
  | black => rfl

/-- The least binding of a ready subtree goes, the other bindings and the
height stay. -/
theorem Ready.eraseMinImpl : ∀ (size : Nat) {c : Bool} {n : Nat} {h : Node K V},
    h.size ≤ size → Ready c n h →
      After c n h.eraseMinImpl ∧ h.eraseMinImpl.toList = h.toList.tail := by
  intro size
  induction size with
  | zero =>
    intro c n h small ready
    have there := ready.isNull_eq
    cases h with
    | null => cases there
    | node => simp [Node.size] at small
  | succ size ih =>
    intro c n h small ready
    cases h with
    | null => exact absurd ready.isNull_eq (by simp)
    | node red l key value r =>
      have colour : c = red := ready.balanced.isRed_eq.symm
      subst colour
      rw [Node.eraseMinImpl]
      cases empty : l.isNull with
      | true =>
        cases eq_null_of_isNull empty
        obtain ⟨balanced, wide⟩ := ready
        cases balanced with
        | black => simp at wide
        | red leftBalanced rightBalanced =>
          cases leftBalanced
          cases rightBalanced
          exact ⟨Balanced.null.after true, rfl⟩
      | false =>
        obtain ⟨gc, gl, gk, gv, gr, opened, _, c₁, n₁, readyLeft, rebuild⟩ :=
          ready.beforeLeft empty
        have content := toList_beforeLeft (node c l key value r)
        have height := size_beforeLeft (node c l key value r)
        rw [opened] at content height
        obtain ⟨after, row⟩ := ih (by simp only [Node.size] at height small; omega) readyLeft
        simp only [Bool.false_eq_true, if_false, opened, left_node, setLeft, toList_fixup]
        refine ⟨rebuild _ after, ?_⟩
        obtain ⟨_, _, _, _, rest, _, first⟩ := findMin_spec readyLeft.isNull_eq
        rw [← content, toList, toList, row, first]
        rfl

/-! ## Going right -/

/-- What `beforeRight` makes of a red node: nothing, a 4-node by recolouring, or
a node below the greatest key of the left neighbour. -/
inductive RightOpened (l : Node K V) (key : K) (value : V) (r : Node K V) : Node K V → Prop
  | same (wide : r.left.isRed = true) : RightOpened l key value r (node true l key value r)
  | merged (narrow : r.left.isRed = false) (leftNarrow : l.left.isRed = false) :
      RightOpened l key value r (node false l.toggle key value r.toggle)
  | borrowed (a b : Node K V) (keyL : K) (valueL : V) (shape : l = node false a keyL valueL b)
      (narrow : r.left.isRed = false) (leftWide : a.isRed = true) :
      RightOpened l key value r
        (node true a.toggle keyL valueL (node false b key value r.toggle))

theorem beforeRight_opened {n : Nat} {l r : Node K V} {key : K} {value : V}
    (leftBalanced : Balanced false n l) (rightBalanced : Balanced false n r)
    (there : r.isNull = false) :
    RightOpened l key value r (node true l key value r).beforeRight := by
  cases rightBalanced with
  | null => cases there
  | @black cr n r₁ r₂ keyR valueR r₁Balanced r₂Balanced =>
    have r₁Colour := r₁Balanced.isRed_eq
    cases cr with
    | true =>
      have same : (node true l key value (node false r₁ keyR valueR r₂)).beforeRight =
          node true l key value (node false r₁ keyR valueR r₂) := by
        simp [beforeRight, r₁Colour]
      rw [same]
      exact .same r₁Colour
    | false =>
      cases leftBalanced with
      | @black cl _ l₁ l₂ keyL valueL l₁Balanced l₂Balanced =>
        have l₁Colour := l₁Balanced.isRed_eq
        cases cl with
        | false =>
          have merged : (node true (node false l₁ keyL valueL l₂) key value
              (node false r₁ keyR valueR r₂)).beforeRight =
              node false (node false l₁ keyL valueL l₂).toggle key value
                (node false r₁ keyR valueR r₂).toggle := by
            simp [beforeRight, moveRedRight, flipColors, toggle, r₁Colour, l₁Colour]
          rw [merged]
          exact .merged r₁Colour l₁Colour
        | true =>
          have borrowed : (node true (node false l₁ keyL valueL l₂) key value
              (node false r₁ keyR valueR r₂)).beforeRight =
              node true l₁.toggle keyL valueL (node false l₂ key value
                (node false r₁ keyR valueR r₂).toggle) := by
            simp [beforeRight, moveRedRight, flipColors, toggle, rotateRight, r₁Colour,
              l₁Colour]
          rw [borrowed]
          exact .borrowed l₁ l₂ keyL valueL rfl r₁Colour l₁Colour

/-- A black 2-node becomes red when two 2-nodes are merged. -/
theorem Balanced.toggle_narrow {n : Nat} {h : Node K V} (balanced : Balanced false n h)
    (there : h.isNull = false) (narrow : h.left.isRed = false) :
    ∃ m, n = m + 1 ∧ Balanced true m h.toggle := by
  cases balanced with
  | null => cases there
  | @black c m _ _ _ _ leftBalanced rightBalanced =>
    have black : c = false := leftBalanced.isRed_eq.symm.trans narrow
    subst black
    exact ⟨m, rfl, .red leftBalanced rightBalanced⟩

theorem isNull_of_balanced {n : Nat} {h : Node K V} (balanced : Balanced false (n + 1) h) :
    h.isNull = false := by
  cases balanced
  rfl

/-- A black node with a red left child takes any remainder of its right
child. -/
theorem After.fixup_merged {n : Nat} {l r' : Node K V} (key : K) (value : V)
    (leftBalanced : Balanced true n l) (after : After true n r') :
    After true (n + 1) (fixup (node false l key value r')) := by
  obtain ⟨c', balanced', _⟩ := after
  obtain ⟨c'', fixed⟩ := leftBalanced.fixup_red_black_right key value balanced'
  exact ⟨c'', fixed, fun no => by cases no⟩

theorem After.fixup_red {n : Nat} {l r' : Node K V} (key : K) (value : V)
    (leftBalanced : Balanced false n l) (after : After false n r') :
    After true n (fixup (node true l key value r')) := by
  obtain ⟨c', balanced', black⟩ := after
  cases black rfl
  exact ⟨true, (Balanced.red leftBalanced balanced').fixup, fun no => by cases no⟩

theorem After.fixup_black {n : Nat} {l r' : Node K V} (key : K) (value : V)
    (leftBalanced : Balanced false n l) (after : After true n r') :
    After false (n + 1) (fixup (node false l key value r')) := by
  obtain ⟨c', balanced', _⟩ := after
  exact (leftBalanced.fixup_black_right key value balanced').after false

@[simp] theorem size_toggle (h : Node K V) : h.toggle.size = h.size := by
  cases h <;> rfl

theorem rotateRedLeft_of_black {red : Bool} {l r : Node K V} (key : K) (value : V)
    (leftBlack : l.isRed = false) :
    (node red l key value r).rotateRedLeft = node red l key value r := by
  simp [rotateRedLeft, leftBlack]

section Ordered
variable [LinearOrder K]

def atKey (k : K) : Node K V → Node K V
  | null => null
  | node red left key value right =>
    if k < key then atKey k left
    else if key < k then atKey k right
    else node red left key value right

/-- The right child is a 2-node and the child to the left of the key is a
3-node, so that `__move_red_right` borrows. -/
def borrows (h : Node K V) : Bool :=
  let neighbour := if h.left.isRed then h.left.right else h.left
  !h.right.isNull && !h.right.left.isRed && neighbour.left.isRed

/-- `__move_red_right` does not borrow at the node of `k`. -/
def eraseSafe (h : Node K V) (k : K) : Bool := !(h.atKey k).borrows

omit [LinearOrder K] in
theorem borrows_toggle (h : Node K V) : h.toggle.borrows = h.borrows := by
  simp only [borrows, left_toggle, right_toggle]

theorem eraseSafe_toggle (h : Node K V) (k : K) : h.toggle.eraseSafe k = h.eraseSafe k := by
  cases h with
  | null => rfl
  | node red l key value r =>
    simp only [eraseSafe, toggle, atKey]
    split
    · rfl
    · split
      · rfl
      · exact congrArg (fun b => !b) (borrows_toggle (node red l key value r))

theorem eraseSafe_less {red : Bool} {l r : Node K V} {key : K} {value : V} {k : K}
    (less : k < key) : (node red l key value r).eraseSafe k = l.eraseSafe k := by
  simp only [eraseSafe, atKey, less, if_true]

theorem eraseSafe_greater {red : Bool} {l r : Node K V} {key : K} {value : V} {k : K}
    (greater : key < k) : (node red l key value r).eraseSafe k = r.eraseSafe k := by
  simp only [eraseSafe, atKey, not_lt_of_gt greater, greater, if_false, if_true]

/-- What an erasure of `k` makes of a row: if it is safe, the binding of `k`
goes; if not, another key is lost. -/
structure Outcome (k : K) (safe : Bool) (row row' : List (K × V)) (erased : Bool) : Prop where
  precise : safe = true →
    row' = rowCut (· < ·) k row ∧ erased = (rowGet (· < ·) row k).isSome
  lost : safe = false → ∃ e ∈ row, e.1 ≠ k ∧ ∀ e' ∈ row', e'.1 ≠ e.1

theorem Outcome.exact_iff {k : K} {row row' : List (K × V)} {erased : Bool} :
    Outcome k true row row' erased ↔
      row' = rowCut (· < ·) k row ∧ erased = (rowGet (· < ·) row k).isSome := by
  constructor
  · intro outcome
    exact outcome.precise rfl
  · intro content
    exact ⟨fun _ => content, fun unsafely => by cases unsafely⟩

theorem Outcome.left {k pivot : K} {safe erased : Bool} {front front' back : List (K × V)}
    {value : V} (outcome : Outcome k safe front front' erased)
    (sorted : SortedKeys (· < ·) (front ++ (pivot, value) :: back)) (less : k < pivot) :
    Outcome k safe (front ++ (pivot, value) :: back) (front' ++ (pivot, value) :: back)
      erased := by
  obtain ⟨_, _, across⟩ := pairwise_append.mp sorted
  have before : ∀ e ∈ front, e.1 < pivot := fun e member => across e member _ mem_cons_self
  constructor
  · intro safely
    obtain ⟨content, flag⟩ := outcome.precise safely
    rw [rowCut_pivot k before, rowGet_pivot k before, if_pos less, if_pos less, content]
    exact ⟨rfl, flag⟩
  · intro unsafely
    obtain ⟨e, member, other, gone⟩ := outcome.lost unsafely
    refine ⟨e, mem_append_left _ member, other, ?_⟩
    intro e' member'
    rcases mem_append.mp member' with inFront | inBack
    · exact gone e' inFront
    · exact ne_of_gt (across e member e' inBack)

theorem Outcome.right {k pivot : K} {safe erased : Bool} {front back back' : List (K × V)}
    {value : V} (outcome : Outcome k safe back back' erased)
    (sorted : SortedKeys (· < ·) (front ++ (pivot, value) :: back)) (greater : pivot < k) :
    Outcome k safe (front ++ (pivot, value) :: back) (front ++ (pivot, value) :: back')
      erased := by
  obtain ⟨_, rest, across⟩ := pairwise_append.mp sorted
  have before : ∀ e ∈ front, e.1 < pivot := fun e member => across e member _ mem_cons_self
  constructor
  · intro safely
    obtain ⟨content, flag⟩ := outcome.precise safely
    rw [rowCut_pivot k before, rowGet_pivot k before, if_neg (not_lt_of_gt greater),
      if_neg (not_lt_of_gt greater), if_pos greater, if_pos greater, content]
    exact ⟨rfl, flag⟩
  · intro unsafely
    obtain ⟨e, member, other, gone⟩ := outcome.lost unsafely
    refine ⟨e, mem_append_right _ (mem_cons_of_mem _ member), other, ?_⟩
    intro e' member'
    rcases mem_append.mp member' with inFront | inBack
    · exact ne_of_lt (across e' inFront e (mem_cons_of_mem _ member))
    · rcases mem_cons.mp inBack with rfl | inBack'
      · exact ne_of_lt ((pairwise_cons.mp rest).1 e member)
      · exact gone e' inBack'

section Branches
variable {red gc : Bool} {l r gl gr : Node K V} {key gk k : K} {value gv : V}

theorem eraseImpl_less (less : k < key) (there : l.isNull = false)
    (opened : (node red l key value r).beforeLeft = node gc gl gk gv gr) :
    eraseImpl k (node red l key value r) =
      (fixup (node gc (eraseImpl k gl).1 gk gv gr), (eraseImpl k gl).2) := by
  rw [eraseImpl, if_pos less, if_neg (by simp [there]), opened]
  rfl

theorem eraseImpl_greater (notLess : ¬k < key)
    (greater : (node red l key value r).rotateRedLeft.keyLess k = true)
    (there : (node red l key value r).rotateRedLeft.right.isNull = false)
    (opened : (node red l key value r).rotateRedLeft.beforeRight = node gc gl gk gv gr) :
    eraseImpl k (node red l key value r) =
      (fixup (node gc gl gk gv (eraseImpl k gr).1), (eraseImpl k gr).2) := by
  rw [eraseImpl, if_neg notLess]
  simp only [greater, there, opened]
  rfl

theorem eraseImpl_equal {mc : Bool} {mk : K} {mv : V} {mr : Node K V} (notLess : ¬k < key)
    (equal : (node red l key value r).rotateRedLeft.keyLess k = false)
    (there : (node red l key value r).rotateRedLeft.right.isNull = false)
    (opened : (node red l key value r).rotateRedLeft.beforeRight = node gc gl gk gv gr)
    (least : gr.findMin = node mc null mk mv mr) :
    eraseImpl k (node red l key value r) =
      (fixup (node gc gl mk mv gr.eraseMinImpl), true) := by
  rw [eraseImpl, if_neg notLess]
  simp only [equal, there, opened, right_node, least]
  rfl

end Branches

/-! ## The recursion -/

/-- What `__erase_impl` does to a subtree of colour `c` and height `n`. -/
structure Erased (k : K) (c : Bool) (n : Nat) (h : Node K V) : Prop where
  after : h.eraseSafe k = true → After c n (eraseImpl k h).1
  outcome : Outcome k (h.eraseSafe k) h.toList (eraseImpl k h).1.toList (eraseImpl k h).2

section Step
variable {k key : K} {value : V} {l r : Node K V} {n : Nat}

theorem Ready.erased_absent_left {c : Bool} (ready : Ready c n (node c null key value r))
    (less : k < key) : Erased k c n (node c null key value r) := by
  have same : eraseImpl k (node c null key value r) = (node c null key value r, false) := by
    rw [eraseImpl, if_pos less]
    rfl
  have safe : (node c null key value r).eraseSafe k = true := by
    rw [eraseSafe_less less]
    rfl
  constructor
  · intro _
    rw [same]
    exact ⟨c, ready.balanced, id⟩
  · have before : ∀ e ∈ (null : Node K V).toList, e.1 < key := by simp [toList]
    rw [same, safe, Outcome.exact_iff, toList, rowCut_pivot k before, rowGet_pivot k before,
      if_pos less, if_pos less]
    exact ⟨rfl, rfl⟩

theorem LeftOpened.less {c gc : Bool} {gl gr : Node K V} {gk : K} {gv : V}
    (opened : LeftOpened l key value r (node gc gl gk gv gr))
    (ordered : (node c l key value r).Ordered) (less : k < key) :
    k < gk ∧ gl.eraseSafe k = (node c l key value r).eraseSafe k := by
  rw [eraseSafe_less less]
  cases opened with
  | same => exact ⟨less, rfl⟩
  | merged => exact ⟨less, eraseSafe_toggle l k⟩
  | borrowed a b _ keyR valueR keyY valueY shape =>
    obtain ⟨_, _, _, above, _⟩ := ordered.split
    have later : key < gk := above (gk, gv) (by rw [shape]; simp [toList])
    exact ⟨lt_trans less later, by rw [eraseSafe_less less, eraseSafe_toggle]⟩

theorem Ready.erased_left {c : Bool} (ready : Ready c n (node c l key value r))
    (ordered : (node c l key value r).Ordered) (less : k < key) (there : l.isNull = false)
    (ih : ∀ {c' : Bool} {n' : Nat} {h : Node K V}, h.size < (node c l key value r).size →
      h.Ordered → Ready c' n' h → Erased k c' n' h) :
    Erased k c n (node c l key value r) := by
  obtain ⟨gc, gl, gk, gv, gr, opened, shape, c₁, n₁, readyLeft, rebuild⟩ := ready.beforeLeft there
  obtain ⟨less', safe⟩ := shape.less ordered less
  have content := toList_beforeLeft (node c l key value r)
  have height := size_beforeLeft (node c l key value r)
  rw [opened] at content height
  rw [Ordered, ← content] at ordered
  obtain ⟨after, outcome⟩ := ih (by rw [← height]; exact size_left_lt (size_pos ..))
    (Ordered.split ordered).1 readyLeft
  rw [safe] at after outcome
  constructor
  · intro safely
    rw [eraseImpl_less less there opened]
    exact rebuild _ (after safely)
  · rw [eraseImpl_less less there opened, toList_fixup, ← content]
    exact outcome.left ordered less'

/-- A black 3-node: its red left child is turned up and the search goes on in
the node itself, now red. -/
theorem Balanced.erased_three (leftBalanced : Balanced true n l)
    (rightBalanced : Balanced false n r) (ordered : (node false l key value r).Ordered)
    (notLess : ¬k < key)
    (ih : ∀ {c' : Bool} {n' : Nat} {h : Node K V}, h.size < (node false l key value r).size →
      h.Ordered → Ready c' n' h → Erased k c' n' h) :
    Erased k false (n + 1) (node false l key value r) := by
  cases leftBalanced with
  | @red _ a b keyL valueL aBalanced bBalanced =>
    have turned : (node false (node true a keyL valueL b) key value r).rotateRedLeft =
        node false a keyL valueL (node true b key value r) := rfl
    obtain ⟨_, _, below, _⟩ := ordered.split
    have lessKey : keyL < k :=
      lt_of_lt_of_le (below (keyL, valueL) (by simp [toList])) (not_lt.mp notLess)
    have content := toList_rotateRedLeft (node false (node true a keyL valueL b) key value r)
    have height := size_rotateRedLeft (node false (node true a keyL valueL b) key value r)
    rw [Ordered, ← content] at ordered
    have branch : eraseImpl k (node false (node true a keyL valueL b) key value r) = _ :=
      eraseImpl_greater notLess (by rw [turned]; exact decide_eq_true lessKey)
        (by rw [turned]; rfl) (by rw [turned]; rfl)
    have safe : (node true b key value r).eraseSafe k =
        (node false (node true a keyL valueL b) key value r).eraseSafe k := by
      have bBlack := bBalanced.isRed_eq
      simp only [eraseSafe, atKey, notLess, if_false]
      split
      · rfl
      · simp [borrows, bBlack]
    obtain ⟨after, outcome⟩ := ih (by rw [← height]; exact size_right_lt (size_pos ..))
      (Ordered.split ordered).2.1 ⟨.red bBalanced rightBalanced, .inl rfl⟩
    rw [safe] at after outcome
    constructor
    · intro safely
      rw [branch]
      exact (after safely).fixup_black keyL valueL aBalanced
    · rw [branch, toList_fixup, ← content]
      exact outcome.right ordered lessKey

/-- A red node without children is the key or its place. -/
theorem erased_red_last (notLess : ¬k < key) :
    Erased k true 0 (node true null key value null) := by
  have safe : (node true null key value null).eraseSafe k = true := by
    simp only [eraseSafe, atKey]
    split
    · rfl
    · split <;> rfl
  have before : ∀ e ∈ (null : Node K V).toList, e.1 < key := by simp [toList]
  have row : (node true null key value null).toList = null.toList ++ (key, value) :: [] := rfl
  by_cases greater : key < k
  · have branch : eraseImpl k (node true null key value null) =
        (node true null key value null, false) := by
      rw [eraseImpl, if_neg notLess]
      simp [rotateRedLeft, keyLess, greater, fixup]
    constructor
    · intro _
      rw [branch]
      exact ⟨true, .red .null .null, id⟩
    · rw [branch, safe, row, Outcome.exact_iff, rowCut_pivot k before, rowGet_pivot k before,
        if_neg notLess, if_neg notLess, if_pos greater, if_pos greater]
      exact ⟨rfl, rfl⟩
  · have branch : eraseImpl k (node true null key value null) = (null, true) := by
      rw [eraseImpl, if_neg notLess]
      simp [rotateRedLeft, keyLess, greater]
    constructor
    · intro _
      rw [branch]
      exact Balanced.null.after true
    · rw [branch, safe, row, Outcome.exact_iff, rowCut_pivot k before, rowGet_pivot k before,
        if_neg notLess, if_neg notLess, if_neg greater, if_neg greater]
      exact ⟨rfl, rfl⟩

theorem Balanced.erased_red_greater (leftBalanced : Balanced false n l)
    (rightBalanced : Balanced false n r) (ordered : (node true l key value r).Ordered)
    (greater : key < k) (there : r.isNull = false)
    (ih : ∀ {c' : Bool} {n' : Nat} {h : Node K V}, h.size < (node true l key value r).size →
      h.Ordered → Ready c' n' h → Erased k c' n' h) :
    Erased k true n (node true l key value r) := by
  have unturned : (node true l key value r).rotateRedLeft = node true l key value r :=
    rotateRedLeft_of_black key value leftBalanced.isRed_eq
  have safe : (node true l key value r).eraseSafe k = r.eraseSafe k := eraseSafe_greater greater
  have rightOrdered := ordered.split.2.1
  have smaller : r.size < (node true l key value r).size := size_right_lt (size_pos ..)
  have branch : ∀ {gc : Bool} {gl gr : Node K V} {gk : K} {gv : V},
      (node true l key value r).beforeRight = node gc gl gk gv gr →
      eraseImpl k (node true l key value r) =
        (Node.fixup (node gc gl gk gv (eraseImpl k gr).1), (eraseImpl k gr).2) := by
    intro gc gl gr gk gv opened
    exact eraseImpl_greater (not_lt_of_gt greater)
      (by rw [unturned]; exact decide_eq_true greater)
      (by rw [unturned]; exact there) (by rw [unturned]; exact opened)
  have shape := @beforeRight_opened K V n l r key value leftBalanced rightBalanced there
  generalize opened : (node true l key value r).beforeRight = g at shape
  cases shape with
  | same wide =>
    obtain ⟨after, outcome⟩ := ih smaller rightOrdered ⟨rightBalanced, .inr wide⟩
    rw [← safe] at after outcome
    constructor
    · intro safely
      rw [branch opened]
      exact (after safely).fixup_red key value leftBalanced
    · rw [branch opened, toList_fixup]
      exact outcome.right ordered greater
  | merged narrow leftNarrow =>
    obtain ⟨m, rfl, rightRed⟩ := rightBalanced.toggle_narrow there narrow
    obtain ⟨m', same, leftRed⟩ :=
      leftBalanced.toggle_narrow (isNull_of_balanced leftBalanced) leftNarrow
    cases same
    obtain ⟨after, outcome⟩ := ih (by rw [size_toggle]; exact smaller)
      (by rw [Ordered, toList_toggle]; exact rightOrdered) ⟨rightRed, .inl rfl⟩
    rw [eraseSafe_toggle, ← safe] at after outcome
    rw [toList_toggle] at outcome
    constructor
    · intro safely
      rw [branch opened]
      exact (after safely).fixup_merged key value leftRed
    · rw [branch opened, toList_fixup]
      simp only [toList, toList_toggle]
      exact outcome.right ordered greater
  | borrowed a b keyL valueL shape narrow leftWide =>
    subst shape
    obtain ⟨m, rfl, rightRed⟩ := rightBalanced.toggle_narrow there narrow
    cases leftBalanced with
    | @black ca _ _ _ _ _ aBalanced bBalanced =>
      have red : ca = true := aBalanced.isRed_eq.symm.trans leftWide
      subst red
      obtain ⟨after, outcome⟩ := ih (by rw [size_toggle]; exact smaller)
        (by rw [Ordered, toList_toggle]; exact rightOrdered) ⟨rightRed, .inl rfl⟩
      rw [eraseSafe_toggle, ← safe] at after outcome
      rw [toList_toggle] at outcome
      -- the old node is now the right child, and its own right child is red
      have rightIsRed := rightRed.isRed_eq
      have inner : eraseImpl k (node false b key value r.toggle) =
          (Node.fixup (node false b key value (eraseImpl k r.toggle).1),
            (eraseImpl k r.toggle).2) := by
        have unturned' : (node false b key value r.toggle).rotateRedLeft =
            node false b key value r.toggle :=
          rotateRedLeft_of_black key value bBalanced.isRed_eq
        exact eraseImpl_greater (not_lt_of_gt greater)
          (by rw [unturned']; exact decide_eq_true greater)
          (by rw [unturned']; simpa using there)
          (by rw [unturned']; simp [beforeRight, rightIsRed])
      constructor
      · intro safely
        rw [branch opened, inner]
        have innerAfter := (after safely).fixup_black key value bBalanced
        cases aBalanced with
        | red a₁ a₂ => exact innerAfter.fixup_red keyL valueL (.black a₁ a₂)
      · rw [branch opened, inner, toList_fixup]
        have whole := outcome.right ordered greater
        simpa [toList] using whole

omit [LinearOrder K] in
/-- The least entry of the right subtree moves up, and the rest of the subtree
stays. -/
theorem Ready.successor {c : Bool} {h : Node K V} (ready : Ready c n h) :
    After c n h.eraseMinImpl ∧ ∃ mc mk mv mr, h.findMin = node mc null mk mv mr ∧
      (mk, mv) :: h.eraseMinImpl.toList = h.toList := by
  obtain ⟨after, row⟩ := Ready.eraseMinImpl h.size (le_refl _) ready
  obtain ⟨mc, mk, mv, mr, rest, least, first⟩ := findMin_spec ready.isNull_eq
  refine ⟨after, mc, mk, mv, mr, least, ?_⟩
  rw [row, first, tail_cons]

theorem Balanced.erased_red_equal (leftBalanced : Balanced false n l)
    (rightBalanced : Balanced false n r) (ordered : (node true l k value r).Ordered)
    (there : r.isNull = false) : Erased k true n (node true l k value r) := by
  have leftBlack := leftBalanced.isRed_eq
  have unturned : (node true l k value r).rotateRedLeft = node true l k value r :=
    rotateRedLeft_of_black k value leftBlack
  have safe : (node true l k value r).eraseSafe k = !(!r.left.isRed && l.left.isRed) := by
    simp [eraseSafe, atKey, borrows, there, leftBlack]
  obtain ⟨_, _, below, _, across⟩ := ordered.split
  have branch : ∀ {gc : Bool} {gl gr : Node K V} {gk : K} {gv : V} {mc : Bool} {mk : K} {mv : V}
      {mr : Node K V}, (node true l k value r).beforeRight = node gc gl gk gv gr →
      gr.findMin = node mc Node.null mk mv mr →
      eraseImpl k (node true l k value r) =
        (Node.fixup (node gc gl mk mv gr.eraseMinImpl), true) := by
    intro gc gl gr gk gv mc mk mv mr opened least
    exact eraseImpl_equal (lt_irrefl k) (by rw [unturned]; exact decide_eq_false (lt_irrefl k))
      (by rw [unturned]; exact there) (by rw [unturned]; exact opened) least
  have removed : rowCut (· < ·) k (node true l k value r).toList = l.toList ++ r.toList := by
    rw [toList, rowCut_pivot k below, if_neg (lt_irrefl k), if_neg (lt_irrefl k)]
  have found : (rowGet (· < ·) (node true l k value r).toList k).isSome = true := by
    rw [toList, rowGet_pivot k below, if_neg (lt_irrefl k), if_neg (lt_irrefl k)]
    rfl
  have shape := @beforeRight_opened K V n l r k value leftBalanced rightBalanced there
  generalize opened : (node true l k value r).beforeRight = g at shape
  cases shape with
  | same wide =>
    obtain ⟨after, mc, mk, mv, mr, least, row⟩ :=
      Ready.successor ⟨rightBalanced, .inr wide⟩
    rw [wide] at safe
    constructor
    · intro _
      rw [branch opened least]
      exact after.fixup_red mk mv leftBalanced
    · rw [branch opened least, safe, toList_fixup]
      apply Outcome.exact_iff.mpr
      rw [removed, found, toList, row]
      exact ⟨rfl, rfl⟩
  | merged narrow leftNarrow =>
    obtain ⟨m, rfl, rightRed⟩ := rightBalanced.toggle_narrow there narrow
    obtain ⟨m', same, leftRed⟩ :=
      leftBalanced.toggle_narrow (isNull_of_balanced leftBalanced) leftNarrow
    cases same
    obtain ⟨after, mc, mk, mv, mr, least, row⟩ := Ready.successor ⟨rightRed, .inl rfl⟩
    rw [narrow, leftNarrow] at safe
    constructor
    · intro _
      rw [branch opened least]
      exact after.fixup_merged mk mv leftRed
    · rw [branch opened least, safe, toList_fixup]
      apply Outcome.exact_iff.mpr
      rw [removed, found]
      simp only [toList, row, toList_toggle]
      exact ⟨trivial, trivial⟩
  | borrowed a b keyL valueL shape narrow leftWide =>
    subst shape
    rw [narrow, left_node, leftWide] at safe
    have unsafely : (node true (node false a keyL valueL b) k value r).eraseSafe k = false := safe
    constructor
    · intro safely
      rw [unsafely] at safely
      cases safely
    · -- the key of the old left child is overwritten by a later key
      obtain ⟨mc, mk, mv, mr, rest, least, first⟩ :=
        @findMin_spec K V (node false b k value r.toggle) rfl
      have later : ∀ e ∈ (node false b k value r.toggle).toList, keyL < e.1 := by
        obtain ⟨_, _, _, afterL, _⟩ := ordered.split.1.split
        have beforeK : keyL < k := below (keyL, valueL) (by simp [toList])
        intro e member
        simp only [toList, toList_toggle, mem_append, mem_cons] at member
        rcases member with inB | rfl | inR
        · exact afterL e inB
        · exact beforeK
        · exact across (keyL, valueL) (by simp [toList]) e inR
      rw [branch opened least, unsafely, toList_fixup]
      constructor
      · intro safely
        cases safely
      · intro _
        refine ⟨(keyL, valueL), by simp [toList], ne_of_lt (below (keyL, valueL) (by simp [toList])),
          ?_⟩
        intro e' member'
        simp only [toList, toList_toggle, mem_append, mem_cons] at member'
        rcases member' with inA | rfl | inRest
        · exact ne_of_lt ((Ordered.split ordered.split.1).2.2.1 e' inA)
        · exact ne_of_gt (later (mk, mv) (by rw [first]; exact mem_cons_self))
        · have kept := eraseMinImpl_sublist (node false b k value r.toggle).size _ (le_refl _)
          exact ne_of_gt (later e' (kept.mem inRest))

end Step

theorem Ready.erased (k : K) : ∀ (size : Nat) {c : Bool} {n : Nat} {h : Node K V},
    h.size ≤ size → h.Ordered → Ready c n h → Erased k c n h := by
  intro size
  induction size with
  | zero =>
    intro c n h small _ ready
    have there := ready.isNull_eq
    cases h with
    | null => cases there
    | node => simp [Node.size] at small
  | succ size ih =>
    intro c n h small ordered ready
    cases h with
    | null => exact absurd ready.isNull_eq (by simp)
    | node red l key value r =>
      have colour : c = red := ready.balanced.isRed_eq.symm
      subst colour
      have smaller : ∀ {c' : Bool} {n' : Nat} {h : Node K V},
          h.size < (node c l key value r).size → h.Ordered → Ready c' n' h →
            Erased k c' n' h := by
        intro c' n' h less
        exact ih (by omega)
      by_cases less : k < key
      · cases empty : l.isNull with
        | true =>
          cases eq_null_of_isNull empty
          exact ready.erased_absent_left less
        | false => exact ready.erased_left ordered less empty smaller
      · obtain ⟨balanced, wide⟩ := ready
        cases balanced with
        | @black cl n _ _ _ _ leftBalanced rightBalanced =>
          have leftRed : l.isRed = true := wide.resolve_left (by decide)
          have red : cl = true := leftBalanced.isRed_eq.symm.trans leftRed
          subst red
          exact leftBalanced.erased_three rightBalanced ordered less smaller
        | @red n _ _ _ _ leftBalanced rightBalanced =>
          cases empty : r.isNull with
          | true =>
            cases eq_null_of_isNull empty
            cases rightBalanced
            cases leftBalanced
            exact erased_red_last less
          | false =>
            by_cases greater : key < k
            · exact leftBalanced.erased_red_greater rightBalanced ordered greater empty
                smaller
            · cases le_antisymm (not_lt.mp less) (not_lt.mp greater)
              exact leftBalanced.erased_red_equal rightBalanced ordered empty

/-! ## The root -/

omit [LinearOrder K] in
theorem Balanced.ensureBlackRoot_toggle {c : Bool} {n : Nat} {h : Node K V}
    (balanced : Balanced c n h) : ∃ m, Balanced false m h.toggle.ensureBlackRoot := by
  cases balanced with
  | null => exact ⟨0, .null⟩
  | red leftBalanced rightBalanced => exact ⟨_, .black leftBalanced rightBalanced⟩
  | black leftBalanced rightBalanced => exact ⟨_, .black leftBalanced rightBalanced⟩

/-- At the root, which is black: a 3-node is ready, and a 2-node behaves as the
red node of the same content. -/
theorem Balanced.erased_root {n : Nat} {h : Node K V} (balanced : Balanced false n h)
    (ordered : h.Ordered) (there : h.isNull = false) (k : K) :
    (h.eraseSafe k = true → ∃ m, Balanced false m (eraseImpl k h).1.ensureBlackRoot) ∧
      Outcome k (h.eraseSafe k) h.toList (eraseImpl k h).1.toList (eraseImpl k h).2 := by
  cases narrow : h.left.isRed with
  | true =>
    obtain ⟨after, outcome⟩ :=
      Ready.erased k h.size (le_refl _) ordered ⟨balanced, .inr narrow⟩
    refine ⟨fun safely => ?_, outcome⟩
    obtain ⟨c', balanced', _⟩ := after safely
    exact balanced'.ensureBlackRoot
  | false =>
    obtain ⟨m, rfl, red⟩ := balanced.toggle_narrow there narrow
    obtain ⟨after, outcome⟩ := Ready.erased k h.toggle.size (le_refl _)
      (by rw [Ordered, toList_toggle]; exact ordered) ⟨red, .inl rfl⟩
    rw [eraseSafe_toggle, eraseImpl_toggle] at after outcome
    rw [toList_toggle, toList_toggle] at outcome
    refine ⟨fun safely => ?_, outcome⟩
    obtain ⟨c', balanced', _⟩ := after safely
    have back := balanced'.ensureBlackRoot_toggle
    rwa [toggle_toggle] at back

end Ordered

end Node

variable {K V : Type} [LinearOrder K] {m : ImmutableMap K V} {M : K → Option V}

/-- `m.erase(k)` does not borrow at the node of `k`. -/
def ImmutableMap.eraseSafe (m : ImmutableMap K V) (k : K) : Bool := m.root.eraseSafe k

theorem MapInv.mem_forEach (inv : MapInv m M) (j : K) (v : V) :
    (j, v) ∈ m.forEach ↔ M j = some v := by
  rw [forEach_eq, ← rowGet_eq_some_iff inv.ordered, inv.content]

theorem MapInv.erase (inv : MapInv m M) {k : K} (safe : m.eraseSafe k = true) :
    MapInv (m.erase k) (update M k none) := by
  rw [ImmutableMap.erase]
  cases empty : m.root.isNull with
  | true =>
    have unbound : M = fun _ => none := by
      rw [← inv.content, Node.eq_null_of_isNull empty]
      rfl
    have same : update M k none = fun _ => none := by
      rw [unbound]
      exact update_eq_self k _
    rw [if_pos rfl, same]
    exact mapInv_empty
  | false =>
    obtain ⟨n, balanced⟩ := inv.balanced
    obtain ⟨keeps, outcome⟩ := balanced.erased_root inv.ordered empty k
    obtain ⟨content, flag⟩ := outcome.precise safe
    rw [if_neg (by decide)]
    constructor
    · exact keeps safe
    · rw [Node.Ordered, Node.toList_ensureBlackRoot, content]
      exact SortedKeys.rowCut inv.ordered k
    · rw [Node.toList_ensureBlackRoot, content, rowGet_rowCut inv.ordered, inv.content]
    · simp only [Node.toList_ensureBlackRoot, content, rowCut, length_cut, flag, rowGet,
        Option.isSome_map, inv.counted]

/-- The erasure of `k` removes the binding of `k` and nothing else. -/
structure ErasesExactly (m : ImmutableMap K V) (k : K) : Prop where
  bindings : ∀ j v, (j, v) ∈ (m.erase k).forEach ↔ j ≠ k ∧ (j, v) ∈ m.forEach
  lookups : ∀ j, (m.erase k).find j = if j = k then none else m.find j
  counted : (m.erase k).size = if (m.find k).isSome then m.size - 1 else m.size
  increasing : (m.erase k).forEach.Pairwise fun a b => a.1 < b.1

theorem MapInv.erasesExactly (inv : MapInv m M) {k : K} (safe : m.eraseSafe k = true) :
    ErasesExactly m k := by
  have erased := inv.erase safe
  constructor
  · intro j v
    rw [erased.mem_forEach, inv.mem_forEach]
    by_cases same : j = k
    · simp [same]
    · simp [same]
  · intro j
    rw [erased.find_eq, inv.find_eq, update_apply]
  · rw [erased.size_eq, inv.size_eq, inv.find_eq, keyCount_update_none]
  · rw [forEach_eq]
    exact erased.ordered

theorem MapInv.eraseSafe_of_exact (inv : MapInv m M) {k : K} (exactly : ErasesExactly m k) :
    m.eraseSafe k = true := by
  cases safe : m.eraseSafe k with
  | true => rfl
  | false =>
    have there : m.root.isNull = false := by
      cases empty : m.root.isNull with
      | false => rfl
      | true =>
        rw [ImmutableMap.eraseSafe, Node.eq_null_of_isNull empty] at safe
        cases safe
    obtain ⟨n, balanced⟩ := inv.balanced
    obtain ⟨_, outcome⟩ := balanced.erased_root inv.ordered there k
    obtain ⟨e, member, other, gone⟩ := outcome.lost safe
    have kept := (exactly.bindings e.1 e.2).mpr ⟨other, by rw [forEach_eq]; exact member⟩
    rw [forEach_eq, ImmutableMap.erase, there, if_neg (by decide),
      Node.toList_ensureBlackRoot] at kept
    exact absurd rfl (gone _ kept)

namespace ImmutableMap

def call (m : ImmutableMap K V) : MapOp K V → ImmutableMap K V
  | .insert k v => m.insert k v
  | .erase k => m.erase k
  | .clear => empty

def run (m : ImmutableMap K V) (calls : List (MapOp K V)) : ImmutableMap K V :=
  calls.foldl call m

/-- Every `erase` of the run is safe on the version it is called on. -/
def runSafe (m : ImmutableMap K V) : List (MapOp K V) → Bool
  | [] => true
  | .insert k v :: rest => (m.insert k v).runSafe rest
  | .erase k :: rest => m.eraseSafe k && (m.erase k).runSafe rest
  | .clear :: rest => empty.runSafe rest

end ImmutableMap

theorem MapInv.run (calls : List (MapOp K V)) (inv : MapInv m M)
    (safe : m.runSafe calls = true) :
    MapInv (m.run calls) fun key => calls.foldl (MapOp.overwrite key) (M key) := by
  induction calls generalizing m M with
  | nil => exact inv
  | cons op rest ih =>
    cases op with
    | insert k v =>
      have step := inv.insert k v
      rw [← overwrite_insert] at step
      exact ih step safe
    | erase k =>
      rw [ImmutableMap.runSafe, Bool.and_eq_true] at safe
      have step := inv.erase safe.1
      rw [← overwrite_erase] at step
      exact ih step safe.2
    | clear => exact ih mapInv_empty safe

/-- In every run whose erasures are safe, an erasure of `k` from the version
reached removes exactly `k` if and only if it is safe as well. -/
theorem erase_removes_exactly_iff_safe (calls : List (MapOp K V))
    (safe : (ImmutableMap.empty : ImmutableMap K V).runSafe calls = true) (k : K) :
    ErasesExactly ((ImmutableMap.empty : ImmutableMap K V).run calls) k ↔
      ((ImmutableMap.empty : ImmutableMap K V).run calls).eraseSafe k = true := by
  have inv := mapInv_empty.run calls safe
  exact ⟨inv.eraseSafe_of_exact, inv.erasesExactly⟩

/-- A 3-node with the keys 1 and 2 to the left of the root 3, the 2-node 4 to
its right. -/
def leftHeavyCalls : List (MapOp Nat Nat) :=
  [.insert 4 40, .insert 3 30, .insert 2 20, .insert 1 10]

theorem erase_removes_exactly_iff_safe_after_erase :
    (ImmutableMap.empty : ImmutableMap Nat Nat).runSafe (leftHeavyCalls ++ [.erase 1]) = true ∧
      ErasesExactly ((ImmutableMap.empty : ImmutableMap Nat Nat).run
        (leftHeavyCalls ++ [.erase 1])) 3 := by
  have safe : (ImmutableMap.empty : ImmutableMap Nat Nat).runSafe
      (leftHeavyCalls ++ [.erase 1]) = true := by decide +kernel
  exact ⟨safe, (erase_removes_exactly_iff_safe _ safe 3).mpr (by decide +kernel)⟩

/-- The erasure of 3 loses 2 and 4 and keeps 3. -/
theorem erase_loses_left_neighbour :
    ¬ErasesExactly ((ImmutableMap.empty : ImmutableMap Nat Nat).run leftHeavyCalls) 3 := by
  intro exactly
  have before : ((ImmutableMap.empty : ImmutableMap Nat Nat).run leftHeavyCalls).forEach =
      [(1, 10), (2, 20), (3, 30), (4, 40)] := by decide +kernel
  have result : (((ImmutableMap.empty : ImmutableMap Nat Nat).run leftHeavyCalls).erase 3).forEach =
      [(1, 10), (3, 30)] := by decide +kernel
  have kept := (exactly.bindings 2 20).mpr ⟨by decide, by rw [before]; decide⟩
  rw [result] at kept
  exact absurd kept (by decide)

end Micron.Immutable
