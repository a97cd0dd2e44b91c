import Mathlib.Data.List.Basic

/-!
# Rows of children separated by pivots

An inner node of a search tree is a row `c₀ p₁ c₁ ... pₙ cₙ`: the child `cᵢ`
serves the keys from its left pivot up to its right one.  The library routes a
key to its child, replaces a child by one or two, and cuts a row in two.  All
of it is over an arbitrary kind of child with an invariant `P lo hi c`, a
lookup `look c h` and collected items `items c`.
-/

set_option autoImplicit false

namespace Micron.Lib

open List Nat Option

variable {α β γ : Type}

structure Row (α : Type) where
  head : α
  tail : List (Nat × α)

namespace Row

def pivots (row : Row α) : List Nat := row.tail.map Prod.fst

def children (row : Row α) : List α := row.head :: row.tail.map Prod.snd

end Row

/-- The number of leading pivots that are at most `h`. -/
def scanGt : List Nat → Nat → Nat
  | [], _ => 0
  | p :: ps, h => if p ≤ h then scanGt ps h + 1 else 0

/-- The binary search for the first pivot above `h`, in `fuel` halvings. -/
def bsearchLoop (ps : List Nat) (h : Nat) : Nat → Nat → Nat → Nat
  | 0, lo, _ => lo
  | fuel + 1, lo, hi =>
    if lo < hi then
      let mid := lo + (hi - lo) / 2
      if ps.getD mid 0 ≤ h then bsearchLoop ps h fuel (mid + 1) hi
      else bsearchLoop ps h fuel lo mid
    else lo

def bsearchGt (ps : List Nat) (h : Nat) : Nat := bsearchLoop ps h ps.length 0 ps.length

theorem scanGt_eq : ∀ {ps : List Nat} {h i : Nat}, i ≤ ps.length →
    (∀ j, j < i → ps.getD j 0 ≤ h) → (i < ps.length → h < ps.getD i 0) → scanGt ps h = i := by
  intro ps
  induction ps with
  | nil =>
    intro h i within _ _
    exact (le_zero.mp within).symm
  | cons p ps ih =>
    intro h i within below above
    rw [scanGt]
    cases i with
    | zero =>
      have first := above (succ_pos _)
      rw [getD_cons_zero] at first
      rw [if_neg (by omega)]
    | succ i =>
      have first := below 0 (succ_pos _)
      rw [getD_cons_zero] at first
      rw [if_pos first, ih (le_of_succ_le_succ within)]
      · intro j small
        have step := below (j + 1) (by omega)
        rwa [getD_cons_succ] at step
      · intro inside
        have step := above (by simp only [length_cons]; omega)
        rwa [getD_cons_succ] at step

/-- In sorted pivots the binary search finds what the scan finds. -/
theorem bsearchLoop_eq {ps : List Nat} {h : Nat}
    (sorted : ∀ i j, i ≤ j → j < ps.length → ps.getD i 0 ≤ ps.getD j 0) :
    ∀ (fuel lo hi : Nat), lo ≤ hi → hi ≤ ps.length → hi - lo ≤ fuel →
      (∀ j, j < lo → ps.getD j 0 ≤ h) → (∀ j, hi ≤ j → j < ps.length → h < ps.getD j 0) →
      bsearchLoop ps h fuel lo hi = scanGt ps h := by
  intro fuel
  induction fuel with
  | zero =>
    intro lo hi order within enough below above
    have met : lo = hi := by omega
    subst met
    exact (scanGt_eq within below fun inside => above lo (Nat.le_refl _) inside).symm
  | succ fuel ih =>
    intro lo hi order within enough below above
    rw [bsearchLoop]
    by_cases more : lo < hi
    · rw [if_pos more]
      have middle : lo ≤ lo + (hi - lo) / 2 ∧ lo + (hi - lo) / 2 < hi := by omega
      generalize lo + (hi - lo) / 2 = mid at middle
      by_cases left : ps.getD mid 0 ≤ h
      · rw [if_pos left]
        refine ih (mid + 1) hi (by omega) within (by omega) ?_ above
        intro j small
        exact Nat.le_trans (sorted j mid (by omega) (by omega)) left
      · rw [if_neg left]
        refine ih lo mid (by omega) (by omega) (by omega) below ?_
        intro j large inside
        have step := sorted mid j large inside
        omega
    · rw [if_neg more]
      have met : lo = hi := by omega
      subst met
      exact (scanGt_eq within below fun inside => above lo (Nat.le_refl _) inside).symm

theorem bsearchGt_eq_scanGt {ps : List Nat} {h : Nat}
    (sorted : ∀ i j, i ≤ j → j < ps.length → ps.getD i 0 ≤ ps.getD j 0) :
    bsearchGt ps h = scanGt ps h := by
  apply bsearchLoop_eq sorted
  · exact zero_le _
  · exact Nat.le_refl _
  · omega
  · intro j small
    omega
  · intro j large inside
    omega

def childAt : α → List (Nat × α) → Nat → α
  | c, _, 0 => c
  | c, [], _ + 1 => c
  | _, (_, c) :: rest, i + 1 => childAt c rest i

/-- Puts `left` in the place of child `i`, and the new pivot with its right
child after it. -/
def spliceAt : α → List (Nat × α) → Nat → α → Option (Nat × α) → Row α
  | _, tail, 0, left, split => ⟨left, split.toList ++ tail⟩
  | c, [], _ + 1, _, _ => ⟨c, []⟩
  | c, (p, c') :: rest, i + 1, left, split =>
    let row := spliceAt c' rest i left split
    ⟨c, (p, row.head) :: row.tail⟩

namespace Row

def child (row : Row α) (i : Nat) : α := childAt row.head row.tail i

def splice (row : Row α) (i : Nat) (left : α) (split : Option (Nat × α)) : Row α :=
  spliceAt row.head row.tail i left split

/-- Cuts the row at pivot `mid`, which is promoted. -/
def splitAt (row : Row α) (mid : Nat) : Row α × Option (Nat × Row α) :=
  match row.tail.drop mid with
  | [] => (row, none)
  | (p, c) :: rest => (⟨row.head, row.tail.take mid⟩, some (p, ⟨c, rest⟩))

/-- Keeps a row of at most `limit` pivots and cuts a longer one in the middle. -/
def settle (limit : Nat) (row : Row α) : Row α × Option (Nat × Row α) :=
  if row.tail.length ≤ limit then (row, none) else row.splitAt (row.tail.length / 2)

end Row

/-- Each child satisfies `P` between the pivots around it. -/
def RowWF (P : Nat → Nat → α → Prop) : Nat → Nat → α → List (Nat × α) → Prop
  | lo, hi, c, [] => P lo hi c
  | lo, hi, c, (p, c') :: rest => lo ≤ p ∧ p ≤ hi ∧ P lo p c ∧ RowWF P p hi c' rest

def RowP (P : Nat → Nat → α → Prop) (lo hi : Nat) (row : Row α) : Prop :=
  RowWF P lo hi row.head row.tail

def OutWF (P : Nat → Nat → α → Prop) (lo hi : Nat) (left : α) : Option (Nat × α) → Prop
  | none => P lo hi left
  | some (p, right) => lo ≤ p ∧ p ≤ hi ∧ P lo p left ∧ P p hi right

def outLook (look : α → Nat → β) (left : α) : Option (Nat × α) → Nat → β
  | none, h => look left h
  | some (p, right), h => if p ≤ h then look right h else look left h

def outItems (items : α → List γ) (left : α) : Option (Nat × α) → List γ
  | none => items left
  | some (_, right) => items left ++ items right

/-- The lookup of the child that `h` is routed to. -/
def rowLook (look : α → Nat → β) (row : Row α) (h : Nat) : β :=
  look (row.child (scanGt row.pivots h)) h

def rowItems (items : α → List γ) (row : Row α) : List γ := row.children.flatMap items

section Lemmas
variable {P : Nat → Nat → α → Prop} {look : α → Nat → β} {items : α → List γ}

theorem rowLook_cons (c c' : α) (p : Nat) (rest : List (Nat × α)) (h : Nat) :
    rowLook look ⟨c, (p, c') :: rest⟩ h =
      if p ≤ h then rowLook look ⟨c', rest⟩ h else look c h := by
  unfold rowLook Row.child Row.pivots
  simp only [map_cons, scanGt]
  split
  · rfl
  · rfl

theorem RowWF.mem_bounds : ∀ {tail : List (Nat × α)} {lo hi : Nat} {c : α},
    RowWF P lo hi c tail → ∀ p, p ∈ tail.map Prod.fst → lo ≤ p ∧ p ≤ hi := by
  intro tail
  induction tail with
  | nil =>
    intro lo hi c _ p member
    cases member
  | cons first rest ih =>
    intro lo hi c wf p member
    obtain ⟨order, top, _, later⟩ := wf
    rcases mem_cons.mp member with rfl | inRest
    · exact ⟨order, top⟩
    · have bounds := ih later p inRest
      exact ⟨Nat.le_trans order bounds.1, bounds.2⟩

theorem RowWF.sorted : ∀ {tail : List (Nat × α)} {lo hi : Nat} {c : α},
    RowWF P lo hi c tail → ∀ i j, i ≤ j → j < (tail.map Prod.fst).length →
      (tail.map Prod.fst).getD i 0 ≤ (tail.map Prod.fst).getD j 0 := by
  intro tail
  induction tail with
  | nil =>
    intro lo hi c _ i j _ inside
    cases inside
  | cons first rest ih =>
    intro lo hi c wf i j order inside
    obtain ⟨_, _, _, later⟩ := wf
    rw [map_cons] at inside ⊢
    rw [length_cons] at inside
    cases j with
    | zero =>
      cases le_zero.mp order
      exact Nat.le_refl _
    | succ j =>
      rw [getD_cons_succ]
      cases i with
      | zero =>
        rw [getD_cons_zero]
        have small : j < (rest.map Prod.fst).length := by omega
        rw [getD_eq_getElem?_getD, getElem?_eq_getElem small, getD_some]
        exact (later.mem_bounds _ (getElem_mem small)).1
      | succ i =>
        exact ih later i j (by omega) (by omega)

/-- The child that `h` is routed to, its bounds, and what replacing it by a
child whose lookups have changed by `E` does to the row. -/
theorem RowWF.splice : ∀ {tail : List (Nat × α)} {lo hi : Nat} {c : α} {h : Nat},
    RowWF P lo hi c tail → lo ≤ h → h < hi →
    ∃ a b, lo ≤ a ∧ a ≤ h ∧ h < b ∧ b ≤ hi ∧
      P a b (childAt c tail (scanGt (tail.map Prod.fst) h)) ∧
      ∀ (left : α) (split : Option (Nat × α)), OutWF P a b left split →
        RowWF P lo hi (spliceAt c tail (scanGt (tail.map Prod.fst) h) left split).head
          (spliceAt c tail (scanGt (tail.map Prod.fst) h) left split).tail ∧
        ∀ E : Nat → β → β,
          (∀ g, a ≤ g → g < b → outLook look left split g =
            E g (look (childAt c tail (scanGt (tail.map Prod.fst) h)) g)) →
          (∀ g x, (g < a ∨ b ≤ g) → E g x = x) →
          ∀ g, lo ≤ g → g < hi →
            rowLook look (spliceAt c tail (scanGt (tail.map Prod.fst) h) left split) g =
              E g (rowLook look ⟨c, tail⟩ g) := by
  intro tail
  induction tail with
  | nil =>
    intro lo hi c h wf low high
    refine ⟨lo, hi, Nat.le_refl _, low, high, Nat.le_refl _, wf, ?_⟩
    intro left split out
    simp only [map_nil, scanGt, spliceAt, childAt, append_nil]
    cases split with
    | none =>
      refine ⟨out, ?_⟩
      intro E effect _ g above below
      exact effect g above below
    | some entry =>
      obtain ⟨order, top, wfLeft, wfRight⟩ := out
      refine ⟨⟨order, top, wfLeft, wfRight⟩, ?_⟩
      intro E effect _ g above below
      rw [toList_some, rowLook_cons]
      exact effect g above below
  | cons first rest ih =>
    intro lo hi c h wf low high
    obtain ⟨p, c'⟩ := first
    obtain ⟨order, top, here, later⟩ := wf
    rw [map_cons, scanGt]
    by_cases right : p ≤ h
    · rw [if_pos right]
      obtain ⟨a, b, lowA, aH, hB, bHigh, wfChild, replace⟩ := ih later right high
      refine ⟨a, b, Nat.le_trans order lowA, aH, hB, bHigh, wfChild, ?_⟩
      intro left split out
      obtain ⟨wfRow, looks⟩ := replace left split out
      refine ⟨⟨order, top, here, wfRow⟩, ?_⟩
      intro E effect outside g above below
      simp only [spliceAt]
      rw [rowLook_cons, rowLook_cons]
      by_cases side : p ≤ g
      · rw [if_pos side, if_pos side]
        exact looks E effect outside g side below
      · rw [if_neg side, if_neg side]
        exact (outside g _ (.inl (by omega))).symm
    · rw [if_neg right]
      refine ⟨lo, p, Nat.le_refl _, low, by omega, top, here, ?_⟩
      intro left split out
      simp only [spliceAt, childAt]
      cases split with
      | none =>
        refine ⟨⟨order, top, out, later⟩, ?_⟩
        intro E effect outside g above below
        rw [toList_none, nil_append, rowLook_cons, rowLook_cons]
        by_cases side : p ≤ g
        · rw [if_pos side, if_pos side]
          exact (outside g _ (.inr side)).symm
        · rw [if_neg side, if_neg side]
          exact effect g above (by omega)
      | some entry =>
        obtain ⟨q, new⟩ := entry
        obtain ⟨orderQ, topQ, wfLeft, wfNew⟩ := out
        refine ⟨⟨orderQ, Nat.le_trans topQ top, wfLeft, topQ, top, wfNew, later⟩, ?_⟩
        intro E effect outside g above below
        simp only [toList_some, cons_append, nil_append]
        rw [rowLook_cons, rowLook_cons, rowLook_cons]
        by_cases side : p ≤ g
        · rw [if_pos (by omega : q ≤ g), if_pos side, if_pos side]
          exact (outside g _ (.inr side)).symm
        · have effectG := effect g above (by omega)
          rw [if_neg side, if_neg side]
          exact effectG

theorem spliceAt_items : ∀ {tail : List (Nat × α)} {c : α} {i : Nat}, i ≤ tail.length →
    ∃ before after, rowItems items ⟨c, tail⟩ = before ++ items (childAt c tail i) ++ after ∧
      ∀ (left : α) (split : Option (Nat × α)),
        rowItems items (spliceAt c tail i left split) =
          before ++ outItems items left split ++ after := by
  intro tail
  induction tail with
  | nil =>
    intro c i within
    cases i with
    | zero =>
      refine ⟨[], [], ?_, ?_⟩
      · simp [rowItems, Row.children, childAt]
      · intro left split
        cases split <;> simp [rowItems, Row.children, spliceAt, outItems]
    | succ i => cases within
  | cons first rest ih =>
    intro c i within
    obtain ⟨p, c'⟩ := first
    cases i with
    | zero =>
      refine ⟨[], (c' :: rest.map Prod.snd).flatMap items, ?_, ?_⟩
      · simp [rowItems, Row.children, childAt]
      · intro left split
        cases split <;> simp [rowItems, Row.children, spliceAt, outItems]
    | succ i =>
      obtain ⟨before, after, whole, replaced⟩ := ih (c := c') (le_of_succ_le_succ within)
      refine ⟨items c ++ before, after, ?_, ?_⟩
      · have step : rowItems items ⟨c, (p, c') :: rest⟩ =
            items c ++ rowItems items ⟨c', rest⟩ := by
          simp [rowItems, Row.children]
        rw [step, whole, childAt]
        simp
      · intro left split
        have step : rowItems items (spliceAt c ((p, c') :: rest) (i + 1) left split) =
            items c ++ rowItems items (spliceAt c' rest i left split) := by
          simp [rowItems, Row.children, spliceAt]
        rw [step, replaced]
        simp

theorem scanGt_le (ps : List Nat) (h : Nat) : scanGt ps h ≤ ps.length := by
  induction ps with
  | nil => exact Nat.le_refl _
  | cons p ps ih =>
    rw [scanGt, length_cons]
    split
    · omega
    · omega

/-- Both halves of a cut row, and where they are looked up. -/
theorem RowWF.cut : ∀ {mid : Nat} {tail : List (Nat × α)} {lo hi p : Nat} {c c' : α}
    {rest : List (Nat × α)}, RowWF P lo hi c tail → tail.drop mid = (p, c') :: rest →
    lo ≤ p ∧ p ≤ hi ∧ RowWF P lo p c (tail.take mid) ∧ RowWF P p hi c' rest ∧
      ∀ h, rowLook look ⟨c, tail⟩ h =
        if p ≤ h then rowLook look ⟨c', rest⟩ h else rowLook look ⟨c, tail.take mid⟩ h := by
  intro mid
  induction mid with
  | zero =>
    intro tail lo hi p c c' rest wf dropped
    subst dropped
    obtain ⟨order, top, here, later⟩ := wf
    exact ⟨order, top, here, later, fun h => rowLook_cons c c' p rest h⟩
  | succ mid ih =>
    intro tail lo hi p c c' rest wf dropped
    cases tail with
    | nil => cases dropped
    | cons first tail =>
      obtain ⟨q, d⟩ := first
      obtain ⟨order, top, here, later⟩ := wf
      obtain ⟨orderP, topP, left, right, looks⟩ := ih later dropped
      rw [take_succ_cons]
      refine ⟨Nat.le_trans order orderP, topP, ⟨order, orderP, here, left⟩, right, ?_⟩
      intro h
      rw [rowLook_cons, rowLook_cons, looks]
      by_cases side : p ≤ h
      · rw [if_pos side, if_pos (by omega : q ≤ h)]
        simp only [if_pos side]
      · simp only [if_neg side]

theorem splitAt_spec {lo hi : Nat} {row : Row α} (wf : RowP P lo hi row) (mid : Nat) :
    OutWF (RowP P) lo hi (row.splitAt mid).1 (row.splitAt mid).2 ∧
      (∀ h, outLook (rowLook look) (row.splitAt mid).1 (row.splitAt mid).2 h =
        rowLook look row h) ∧
      outItems (rowItems items) (row.splitAt mid).1 (row.splitAt mid).2 = rowItems items row := by
  unfold Row.splitAt
  cases dropped : row.tail.drop mid with
  | nil => exact ⟨wf, fun h => rfl, rfl⟩
  | cons first rest =>
    obtain ⟨p, c⟩ := first
    obtain ⟨order, top, left, right, looks⟩ := @RowWF.cut α β P look _ _ _ _ _ _ _ _ wf dropped
    refine ⟨⟨order, top, left, right⟩, ?_, ?_⟩
    · intro h
      exact (looks h).symm
    · have parts : row.tail.map Prod.snd =
          (row.tail.take mid).map Prod.snd ++ c :: rest.map Prod.snd := by
        rw [← map_cons (f := Prod.snd) (a := (p, c)), ← map_append, ← dropped,
          take_append_drop]
      simp only [outItems, rowItems, Row.children]
      rw [parts, ← flatMap_append, cons_append]

theorem settle_spec {lo hi : Nat} {row : Row α} (wf : RowP P lo hi row) (limit : Nat) :
    OutWF (RowP P) lo hi (row.settle limit).1 (row.settle limit).2 ∧
      (∀ h, outLook (rowLook look) (row.settle limit).1 (row.settle limit).2 h =
        rowLook look row h) ∧
      outItems (rowItems items) (row.settle limit).1 (row.settle limit).2 = rowItems items row := by
  unfold Row.settle
  split
  · exact ⟨wf, fun h => rfl, rfl⟩
  · exact splitAt_spec wf _

end Lemmas

/-! ## Sizes and strict order -/

section Sizes
variable {P : Nat → Nat → α → Prop}

theorem spliceAt_length : ∀ {tail : List (Nat × α)} {c : α} {i : Nat}, i ≤ tail.length →
    ∀ (left : α) (split : Option (Nat × α)),
      (spliceAt c tail i left split).tail.length = tail.length + split.toList.length := by
  intro tail
  induction tail with
  | nil =>
    intro c i within left split
    cases le_zero.mp within
    simp [spliceAt]
  | cons first rest ih =>
    intro c i within left split
    cases i with
    | zero =>
      rw [spliceAt, length_append]
      omega
    | succ i =>
      rw [spliceAt, length_cons, length_cons, ih (le_of_succ_le_succ within)]
      omega

/-- The sizes of the two halves of a row that is cut. -/
theorem splitAt_sizes {row left : Row α} {split : Option (Nat × Row α)} {mid : Nat}
    (cut : row.splitAt mid = (left, split)) (inside : mid < row.tail.length) :
    ∃ p right, split = some (p, right) ∧ left.tail.length = mid ∧
      right.tail.length = row.tail.length - mid - 1 := by
  unfold Row.splitAt at cut
  have size := length_drop (i := mid) (l := row.tail)
  cases dropped : row.tail.drop mid with
  | nil =>
    rw [dropped, length_nil] at size
    omega
  | cons first rest =>
    obtain ⟨p, c⟩ := first
    rw [dropped] at cut size
    obtain ⟨rfl, rfl⟩ := Prod.mk.inj cut
    refine ⟨p, ⟨c, rest⟩, rfl, ?_, ?_⟩
    · rw [length_take]
      omega
    · rw [length_cons] at size
      change rest.length = _
      omega

/-- A row that is not longer than twice the limit settles within it. -/
theorem settle_sizes {row : Row α} {limit : Nat} (bound : row.tail.length ≤ 2 * limit + 1) :
    (row.settle limit).1.tail.length ≤ limit ∧
      ∀ half, (row.settle limit).2 = some half →
        (row.settle limit).1.tail.length = row.tail.length / 2 ∧
          half.2.tail.length = row.tail.length - row.tail.length / 2 - 1 ∧
          half.2.tail.length ≤ limit := by
  unfold Row.settle
  by_cases short : row.tail.length ≤ limit
  · rw [if_pos short]
    refine ⟨short, ?_⟩
    intro half none
    cases none
  · rw [if_neg short]
    obtain ⟨p, right, split, left, size⟩ := splitAt_sizes
      (Prod.eta (row.splitAt (row.tail.length / 2))).symm (by omega)
    refine ⟨by omega, ?_⟩
    intro half isHalf
    rw [split] at isHalf
    cases isHalf
    exact ⟨left, size, by rw [size]; omega⟩

/-- Between bounds that are apart the pivots ascend strictly. -/
theorem RowWF.strict (apart : ∀ lo hi c, P lo hi c → lo < hi) : ∀ {tail : List (Nat × α)}
    {lo hi : Nat} {c : α}, RowWF P lo hi c tail →
    lo < hi ∧ (∀ p, p ∈ tail.map Prod.fst → lo < p) ∧ (tail.map Prod.fst).Pairwise (· < ·) := by
  intro tail
  induction tail with
  | nil =>
    intro lo hi c wf
    refine ⟨apart lo hi c wf, ?_, List.Pairwise.nil⟩
    intro p member
    cases member
  | cons first rest ih =>
    intro lo hi c wf
    obtain ⟨_, _, here, later⟩ := wf
    have step := apart _ _ _ here
    obtain ⟨top, above, sorted⟩ := ih later
    refine ⟨Nat.lt_trans step top, ?_, pairwise_cons.mpr ⟨above, sorted⟩⟩
    intro p member
    rcases mem_cons.mp member with rfl | inRest
    · exact step
    · exact Nat.lt_trans step (above p inRest)

/-- The last child may serve more keys. -/
theorem RowWF.widen (widen : ∀ lo hi hi' c, hi ≤ hi' → P lo hi c → P lo hi' c) :
    ∀ {tail : List (Nat × α)} {lo hi hi' : Nat} {c : α}, hi ≤ hi' → RowWF P lo hi c tail →
      RowWF P lo hi' c tail := by
  intro tail
  induction tail with
  | nil =>
    intro lo hi hi' c wider wf
    exact widen lo hi hi' c wider wf
  | cons first rest ih =>
    intro lo hi hi' c wider wf
    obtain ⟨order, top, here, later⟩ := wf
    exact ⟨order, Nat.le_trans top wider, here, ih wider later⟩

end Sizes

end Micron.Lib
