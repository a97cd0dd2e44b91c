import Mathlib.Data.Set.Card
import Micron.Lib.Loop
import Micron.Lib.WeakOrder

/-!
# Comparison sorts

The sorts of `micron::sort` on an array of `n` elements and a comparison `lt`.  The array is
its memory: a function on indices, of which the cells from zero up to `n` belong to it.
An array has far fewer elements than there are indices, so that none of them overflows.
-/

set_option autoImplicit false

namespace Micron.Sort

open Micron.Lib List Function

variable {α : Type} (lt : α → α → Bool)

/-- Moves greater elements up by `gap` until `key` fits in.  Gaps are positive. -/
def shift (gap : Int) (key : α) (j : Int) (a : Int → α) : Int → α :=
  if 0 < gap ∧ j ≥ gap ∧ lt key (a (j - gap)) then
    shift gap key (j - gap) (update a j (a (j - gap)))
  else update a j key
termination_by j.toNat
decreasing_by omega

def gapPass (gap n : Int) (a : Int → α) : Int → α :=
  forRange gap n (fun i a => shift lt gap (a i) i a) a

/-- `__insertion` from zero: its loops are those of a pass with gap one. -/
def insertion (n : Int) (a : Int → α) : Int → α := gapPass lt 1 n a

def ciura : List Int := [1, 4, 10, 23, 57, 132, 301, 701, 1750]

def growGaps (n : Int) : Nat → Int → List Int
  | 0, _ => []
  | rounds + 1, last =>
    if last < n then (last * 9 / 4) :: growGaps n rounds (last * 9 / 4) else []

/-- At most 96 gaps. -/
def gaps (n : Int) : List Int := ciura ++ growGaps n 87 1750

/-- The last gap comes first. -/
def shell (n : Int) (a : Int → α) : Int → α :=
  if n < 2 then a
  else (gaps n).foldr (fun gap a => if gap ≥ n then a else gapPass lt gap n a) a

def least (n i : Int) (a : Int → α) : Int :=
  forRange (i + 1) n (fun j m => if lt (a j) (a m) then j else m) i

def selection (n : Int) (a : Int → α) : Int → α :=
  forRange 0 (n - 1)
    (fun i a => if least lt n i a ≠ i then swapAt a i (least lt n i a) else a) a

/-- The child that `__sift_down` exchanges with, or the root itself. -/
def greatest (a : Int → α) (root n : Nat) : Nat :=
  let left := 2 * root + 1
  let first := if lt (a root) (a left) then left else root
  if left + 1 < n ∧ lt (a first) (a (left + 1 : Nat)) then left + 1 else first

theorem greatest_cases (a : Int → α) {root n : Nat} (inside : 2 * root + 1 < n) :
    greatest lt a root n = root ∨ root < greatest lt a root n ∧ greatest lt a root n < n := by
  unfold greatest
  dsimp only
  generalize hold : (if lt (a root) (a (2 * root + 1 : Nat)) then 2 * root + 1 else root) = first
  split
  next right => exact .inr ⟨by omega, right.1⟩
  next =>
    split at hold
    next => exact .inr ⟨by omega, by omega⟩
    next => exact .inl hold.symm

def siftDown (a : Int → α) (root n : Nat) : Int → α :=
  if 2 * root + 1 ≥ n then a
  else if greatest lt a root n = root then a
  else siftDown (swapAt a root (greatest lt a root n)) (greatest lt a root n) n
termination_by n - root
decreasing_by
  rename_i inside moves
  have below := (greatest_cases lt a (Nat.lt_of_not_le inside)).resolve_left moves
  omega

def makeHeap (n : Nat) (a : Int → α) : Int → α :=
  if n < 2 then a else (List.range (n / 2)).foldr (fun i a => siftDown lt a i n) a

def sortHeap : Nat → (Int → α) → Int → α
  | n + 2, a => sortHeap (n + 1) (siftDown lt (swapAt a 0 (n + 1 : Nat)) 0 (n + 1))
  | _, a => a

def heap (n : Nat) (a : Int → α) : Int → α := sortHeap lt n (makeHeap lt n a)

/-- The median of three becomes the pivot at the high end. -/
def qMed3ToHigh (lo hi : Int) (a : Int → α) : Int → α :=
  let mid := lo + (hi - lo) / 2
  let a := if lt (a mid) (a lo) then swapAt a mid lo else a
  let a := if lt (a hi) (a lo) then swapAt a hi lo else a
  let a := if lt (a hi) (a mid) then swapAt a hi mid else a
  swapAt a mid hi

/-- One round of the scan of `__q_partition`: `i` is the last place below the pivot. -/
def qScan (pivot : α) (j : Int) (s : Int × (Int → α)) : Int × (Int → α) :=
  if lt (s.2 j) pivot then
    (s.1 + 1, if s.1 + 1 ≠ j then swapAt s.2 (s.1 + 1) j else s.2)
  else s

def qPartition (lo hi : Int) (a : Int → α) : Int × (Int → α) :=
  let s := forRange lo hi (qScan lt (a hi)) (lo - 1, a)
  (s.1 + 1, if s.1 + 1 ≠ hi then swapAt s.2 (s.1 + 1) hi else s.2)

theorem qPartition_bounds {lo hi : Int} (less : lo < hi) (a : Int → α) :
    lo ≤ (qPartition lt lo hi a).1 ∧ (qPartition lt lo hi a).1 ≤ hi := by
  have scan := forRange_inv (f := qScan lt (a hi)) (s := (lo - 1, a))
    (fun j s => lo - 1 ≤ s.1 ∧ s.1 < j) (le_of_lt less) ⟨le_refl _, (by omega : lo - 1 < lo)⟩ (by
      intro j s low high holds
      unfold qScan
      split
      · exact ⟨by omega, by simp only; omega⟩
      · exact ⟨holds.1, by omega⟩)
  unfold qPartition
  dsimp only
  omega

def qSplit (lo hi : Int) (a : Int → α) : Int × (Int → α) :=
  qPartition lt lo hi (if hi - lo ≥ 2 then qMed3ToHigh lt lo hi a else a)

theorem qSplit_bounds {lo hi : Int} (less : lo < hi) (a : Int → α) :
    lo ≤ (qSplit lt lo hi a).1 ∧ (qSplit lt lo hi a).1 ≤ hi := qPartition_bounds lt less _

/-- `__quick`: the shorter part by a call, the longer one by the loop. -/
def quickRange (lo hi : Int) (a : Int → α) : Int → α :=
  if lo < hi then
    let p := (qSplit lt lo hi a).1
    let b := (qSplit lt lo hi a).2
    if p - lo < hi - p then
      quickRange (p + 1) hi (if lo < p - 1 then quickRange lo (p - 1) b else b)
    else quickRange lo (p - 1) (if p + 1 < hi then quickRange (p + 1) hi b else b)
  else a
termination_by (hi - lo).toNat
decreasing_by
  all_goals
    have bounds := qSplit_bounds lt ‹lo < hi› a
    omega

def quick (n : Int) (a : Int → α) : Int → α := if n > 1 then quickRange lt 0 (n - 1) a else a

/-- The sift of `__heap_range`: the cells from `lo` on are the heap. -/
def sift (lo : Int) (root cnt : Nat) (a : Int → α) : Int → α :=
  if 2 * root + 1 ≥ cnt then a
  else
    let left := 2 * root + 1
    let child :=
      if left + 1 < cnt ∧ lt (a (lo + left)) (a (lo + (left + 1 : Nat))) then left + 1 else left
    if lt (a (lo + root)) (a (lo + child)) then sift lo child cnt (swapAt a (lo + root) (lo + child))
    else a
termination_by cnt - root
decreasing_by
  split <;> omega

def drainRange (lo : Int) : Nat → (Int → α) → Int → α
  | cnt + 2, a => drainRange lo (cnt + 1) (sift lt lo 0 (cnt + 1) (swapAt a lo (lo + (cnt + 1 : Nat))))
  | _, a => a

def heapRange (lo hi : Int) (a : Int → α) : Int → α :=
  let n := (hi - lo + 1).toNat
  drainRange lt lo n ((List.range (n / 2)).foldr (fun start a => sift lt lo start n a) a)

def introsort : Nat → Int → Int → (Int → α) → Int → α
  | 0, lo, hi, a => if hi - lo > 24 then heapRange lt lo hi a else a
  | depth + 1, lo, hi, a =>
    if hi - lo > 24 then
      let p := (qSplit lt lo hi a).1
      let b := (qSplit lt lo hi a).2
      if p - lo < hi - p then
        introsort depth (p + 1) hi (if lo < p - 1 then introsort depth lo (p - 1) b else b)
      else introsort depth lo (p - 1) (if p + 1 < hi then introsort depth (p + 1) hi b else b)
    else a

/-- `for ( t = n; t > 1; t >>= 1 ) depth += 2`. -/
def depthOf (t : Nat) : Nat := if t > 1 then depthOf (t / 2) + 2 else 0
termination_by t

/-- `sort`: short ranges are left to an insertion sort of the whole array. -/
def sort (n : Nat) (a : Int → α) : Int → α :=
  if n < 2 then a else insertion lt n (introsort lt (depthOf n) 0 (n - 1) a)

/-- The three loops of `__merge_into`, which write from `k` on. -/
def mergeLoop (L R : Int → α) (n1 n2 i j k : Int) (a : Int → α) : Int → α :=
  if i < n1 ∧ j < n2 then
    if lt (R j) (L i) then mergeLoop L R n1 n2 i (j + 1) (k + 1) (update a k (R j))
    else mergeLoop L R n1 n2 (i + 1) j (k + 1) (update a k (L i))
  else if i < n1 then mergeLoop L R n1 n2 (i + 1) j (k + 1) (update a k (L i))
  else if j < n2 then mergeLoop L R n1 n2 i (j + 1) (k + 1) (update a k (R j))
  else a
termination_by ((n1 - i).toNat + (n2 - j).toNat)
decreasing_by all_goals omega

/-- `__merge_into`: both runs are copied out first. -/
def mergeInto (left mid right : Int) (a : Int → α) : Int → α :=
  mergeLoop lt (fun i => a (left + i)) (fun j => a (mid + 1 + j)) (mid - left + 1) (right - mid)
    0 0 left a

def mergeSortWith (left right : Int) (a : Int → α) : Int → α :=
  if left ≥ right then a
  else
    let mid := left + (right - left) / 2
    mergeInto lt left mid right (mergeSortWith (mid + 1) right (mergeSortWith left mid a))
termination_by (right - left).toNat
decreasing_by all_goals omega

def merge (n : Int) (a : Int → α) : Int → α := if n > 1 then mergeSortWith lt 0 (n - 1) a else a

/-- The inner loop for one width.  Widths are positive. -/
def mergeRuns (n width i : Int) (a : Int → α) : Int → α :=
  if 0 < width ∧ i < n then
    let mid := i + width - 1
    let right := if i + 2 * width - 1 ≥ n then n - 1 else i + 2 * width - 1
    mergeRuns n width (i + 2 * width)
      (if mid ≥ n then a else if mid ≥ right then a else mergeInto lt i mid right a)
  else a
termination_by (n - i).toNat
decreasing_by omega

def mergeWidths (n width : Int) (a : Int → α) : Int → α :=
  if 0 < width ∧ width < n then mergeWidths n (2 * width) (mergeRuns lt n width 0 a) else a
termination_by (n - width).toNat
decreasing_by omega

def mergeBottomUp (n : Int) (a : Int → α) : Int → α := if n < 2 then a else mergeWidths lt n 1 a

/-! ## Comb sort -/

def shrink (gap : Int) : Int :=
  let gap := gap * 10 / 13
  let gap := if gap = 9 ∨ gap = 10 then 11 else gap
  if gap < 1 then 1 else gap

def combPass (gap n : Int) (a : Int → α) : Bool × (Int → α) :=
  forRange 0 (n - gap)
    (fun i s => if lt (s.2 (i + gap)) (s.2 i) then (true, swapAt s.2 i (i + gap)) else s) (false, a)

/-- `while ( gap > 1 || swapped )`, for a number of rounds. -/
def combLoop (n : Int) : Nat → Int → Bool → (Int → α) → Option (Int → α)
  | 0, _, _, _ => none
  | rounds + 1, gap, swapped, a =>
    if gap > 1 ∨ swapped then
      combLoop n rounds (shrink gap) (combPass lt (shrink gap) n a).1 (combPass lt (shrink gap) n a).2
    else some a

def comb (rounds : Nat) (n : Int) (a : Int → α) : Option (Int → α) :=
  if n < 2 then some a else combLoop lt n rounds n true a

def exchange (k j : Nat) (i : Int) (a : Int → α) : Int → α :=
  let l : Int := (i.toNat ^^^ j : Nat)
  if l > i then
    if (if i.toNat &&& k = 0 then lt (a l) (a i) else lt (a i) (a l)) then swapAt a i l else a
  else a

def halvings (n k j : Nat) (a : Int → α) : Int → α :=
  if j > 0 then halvings n k (j / 2) (forRange 0 n (exchange lt k j) a) else a
termination_by j

def doublings (n k : Nat) (a : Int → α) : Int → α :=
  if 0 < k ∧ k ≤ n then doublings n (2 * k) (halvings lt n k (k / 2) a) else a
termination_by n + 1 - k

/-- Lengths that are no power of two go to insertion sort. -/
def bitonic (n : Nat) (a : Int → α) : Int → α :=
  if n < 2 then a else if n &&& (n - 1) ≠ 0 then insertion lt n a else doublings lt n 2 a

inductive Algorithm where
  | sort
  | quick
  | merge
  | mergeBottomUp
  | heap
  | shell
  | comb
  | selection
  | insertion
  | bitonic

/-- The array after a sort; comb sort may need many rounds. -/
def Algorithm.run (rounds n : Nat) (a : Int → α) : Algorithm → Option (Int → α)
  | .sort => some (Micron.Sort.sort lt n a)
  | .quick => some (Micron.Sort.quick lt n a)
  | .merge => some (Micron.Sort.merge lt n a)
  | .mergeBottomUp => some (Micron.Sort.mergeBottomUp lt n a)
  | .heap => some (Micron.Sort.heap lt n a)
  | .shell => some (Micron.Sort.shell lt n a)
  | .comb => Micron.Sort.comb lt rounds n a
  | .selection => some (Micron.Sort.selection lt n a)
  | .insertion => some (Micron.Sort.insertion lt n a)
  | .bitonic => some (Micron.Sort.bitonic lt n a)

end Micron.Sort

/-!
## Insertion, shell and selection sort

A pass of shell sort rearranges the array, and the one with gap one sorts it.
-/

namespace Micron.Sort

open Micron.Lib

variable {α : Type} {lt : α → α → Bool} {a b : Int → α}

def Ordered (lt : α → α → Bool) (lo hi : Int) (a : Int → α) : Prop :=
  ∀ i j, lo ≤ i → i < j → j < hi → lt (a j) (a i) = false

structure Sorts (lt : α → α → Bool) (n : Int) (a b : Int → α) : Prop where
  rearranged : Rearranged 0 n a b
  ordered : Ordered lt 0 n b

theorem Ordered.of_short {lo hi : Int} (short : hi ≤ lo + 1) : Ordered lt lo hi a := by
  intro i j low less high
  omega

section Weak
variable [IsStrictWeakOrder α (Lesser lt)]

theorem ordered_of_adjacent {lo hi : Int}
    (adjacent : ∀ i, lo ≤ i → i + 1 < hi → lt (a (i + 1)) (a i) = false) : Ordered lt lo hi a := by
  have chain : ∀ d : Nat, ∀ i, lo ≤ i → i + 1 + d < hi → lt (a (i + 1 + d)) (a i) = false := by
    intro d
    induction d with
    | zero =>
      intro i low high
      rw [Int.natCast_zero, add_zero] at high ⊢
      exact adjacent i low high
    | succ d ih =>
      intro i low high
      have last : i + 1 + ((d + 1 : Nat) : Int) = i + 1 + d + 1 := by omega
      rw [last] at high ⊢
      exact comp_trans_false (adjacent (i + 1 + d) (by omega) high) (ih i low (by omega))
  intro i j low less high
  have split : j = i + 1 + ((j - i - 1).toNat : Int) := by omega
  rw [split]
  exact chain _ i low (by omega)

end Weak

theorem shift_rearranged (lt : α → α → Bool) {gap j n : Int} (key : α) (low : 0 ≤ j) (high : j < n) :
    Rearranged 0 n (Function.update a j key) (shift lt gap key j a) := by
  induction j, a using shift.induct lt gap key with
  | case1 j a more ih =>
    rw [shift, if_pos more]
    have moved : Function.update (Function.update a j (a (j - gap))) (j - gap) key =
        swapAt (Function.update a j key) (j - gap) j := by
      have apart : j - gap ≠ j := by omega
      rw [swapAt, Function.update_self, Function.update_of_ne apart]
      rw [Function.update_comm apart, Function.update_idem, Function.update_comm apart.symm]
    have swapped : Rearranged 0 n (Function.update a j key)
        (swapAt (Function.update a j key) (j - gap) j) :=
      Rearranged.swap (by omega) (by omega) low high
    rw [← moved] at swapped
    exact swapped.trans (ih (by omega) (by omega))
  | case2 j a last =>
    rw [shift, if_neg last]
    exact Rearranged.refl _ _ _

theorem gapPass_rearranged (lt : α → α → Bool) {gap n : Int} (positive : 0 ≤ gap) (le : gap ≤ n)
    (a : Int → α) : Rearranged 0 n a (gapPass lt gap n a) := by
  refine forRange_inv (fun _ b => Rearranged 0 n a b) le (Rearranged.refl _ _ _) ?_
  intro i b low high moved
  have step := @shift_rearranged _ b lt gap i n (b i) (by omega) high
  rw [Function.update_eq_self] at step
  exact moved.trans step

section Weak
variable [IsStrictWeakOrder α (Lesser lt)]

/-- With gap one the key goes to its place among ordered elements. -/
theorem shift_ordered {key : α} {i j : Int} (low : 0 ≤ j) (high : j ≤ i)
    (others : ∀ x y, 0 ≤ x → x < y → y ≤ i → x ≠ j → y ≠ j → lt (a y) (a x) = false)
    (greater : ∀ y, j < y → y ≤ i → lt key (a y) = true) :
    Ordered lt 0 (i + 1) (shift lt 1 key j a) := by
  induction j, a using shift.induct lt 1 key with
  | case1 j a more ih =>
    rw [shift, if_pos more]
    have moved : ∀ x, x ≠ j → Function.update a j (a (j - 1)) x = a x :=
      fun x other => Function.update_of_ne other _ _
    refine ih (by omega) (by omega) ?_ ?_
    · intro x y lowX less highY notX notY
      by_cases atX : x = j
      · subst atX
        rw [Function.update_self, moved y (by omega)]
        exact others (x - 1) y (by omega) (by omega) highY (by omega) (by omega)
      · rw [moved x atX]
        by_cases atY : y = j
        · subst atY
          rw [Function.update_self]
          exact others x (y - 1) lowX (by omega) (by omega) atX (by omega)
        · rw [moved y atY]
          exact others x y lowX less highY atX atY
    · intro y above highY
      by_cases atY : y = j
      · subst atY
        rw [Function.update_self]
        exact more.2.2
      · rw [moved y atY]
        exact greater y (by omega) highY
  | case2 j a last =>
    rw [shift, if_neg last]
    intro x y lowX less highY
    by_cases atX : x = j
    · subst atX
      rw [Function.update_self, Function.update_of_ne (by omega)]
      exact comp_asymm (greater y less (by omega))
    · rw [Function.update_of_ne atX]
      by_cases atY : y = j
      · subst atY
        rw [Function.update_self]
        have stop : lt key (a (y - 1)) = false := by
          by_contra more
          exact last ⟨by omega, by omega, by simpa using more⟩
        by_cases next : x = y - 1
        · rw [next]
          exact stop
        · exact comp_trans_false stop
            (others x (y - 1) lowX (by omega) (by omega) atX (by omega))
      · rw [Function.update_of_ne atY]
        exact others x y lowX less (by omega) atX atY

theorem gapPass_one {n : Int} (le : 1 ≤ n) (a : Int → α) : Sorts lt n a (gapPass lt 1 n a) := by
  refine ⟨gapPass_rearranged lt (by omega) le a, ?_⟩
  refine forRange_inv (fun i b => Ordered lt 0 i b) le (Ordered.of_short (by omega)) ?_
  intro i b low high ordered
  refine shift_ordered (by omega) (le_refl i) ?_ ?_
  · intro x y lowX less highY notX notY
    exact ordered x y lowX less (by omega)
  · intro y above highY
    omega

theorem insertion_sorts {n : Int} (low : 0 ≤ n) (a : Int → α) : Sorts lt n a (insertion lt n a) := by
  rcases Int.lt_or_le 0 n with some | none
  · exact gapPass_one some a
  · rw [insertion, gapPass, forRange_empty (by omega)]
    exact ⟨Rearranged.refl _ _ _, Ordered.of_short (by omega)⟩

omit [IsStrictWeakOrder α (Lesser lt)] in
theorem growGaps_pos {n : Int} {rounds : Nat} {last : Int} (positive : 1 ≤ last) :
    ∀ gap ∈ growGaps n rounds last, 1 ≤ gap := by
  induction rounds generalizing last with
  | zero =>
    intro gap member
    exact nomatch member
  | succ rounds ih =>
    intro gap member
    rw [growGaps] at member
    split at member
    · rcases List.mem_cons.mp member with rfl | later
      · omega
      · exact ih (by omega) gap later
    · exact nomatch member

theorem shell_sorts {n : Int} (low : 0 ≤ n) (a : Int → α) : Sorts lt n a (shell lt n a) := by
  rw [shell]
  split
  next short => exact ⟨Rearranged.refl _ _ _, Ordered.of_short (by omega)⟩
  next long =>
    -- the gaps before the last one rearrange the array
    have passes : ∀ gs : List Int, (∀ gap ∈ gs, 1 ≤ gap) → Rearranged 0 n a
        (gs.foldr (fun gap a => if gap ≥ n then a else gapPass lt gap n a) a) := by
      intro gs
      induction gs with
      | nil =>
        intro _
        exact Rearranged.refl _ _ _
      | cons gap gs ih =>
        intro positive
        have before := ih fun gap member => positive gap (List.mem_cons_of_mem _ member)
        have one := positive gap List.mem_cons_self
        rw [List.foldr_cons]
        split
        · exact before
        · exact before.trans (gapPass_rearranged lt (by omega) (by omega) _)
    have rest : gaps n = 1 :: (ciura.tail ++ growGaps n 87 1750) := rfl
    rw [rest, List.foldr_cons, if_neg (by omega)]
    have base : ∀ gap ∈ ciura.tail, 1 ≤ gap := by decide
    have before := passes (ciura.tail ++ growGaps n 87 1750) (by
      intro gap member
      rcases List.mem_append.mp member with first | grown
      · exact base gap first
      · exact growGaps_pos (by decide) gap grown)
    have final := @gapPass_one _ lt _ n (by omega)
      ((ciura.tail ++ growGaps n 87 1750).foldr
        (fun gap a => if gap ≥ n then a else gapPass lt gap n a) a)
    exact ⟨before.trans final.rearranged, final.ordered⟩

theorem least_spec {n i : Int} (less : i < n) (a : Int → α) :
    i ≤ least lt n i a ∧ least lt n i a < n ∧
      ∀ j, i ≤ j → j < n → lt (a j) (a (least lt n i a)) = false := by
  refine forRange_inv (f := fun j m => if lt (a j) (a m) then j else m)
    (fun k m => i ≤ m ∧ m < n ∧ ∀ j, i ≤ j → j < k → lt (a j) (a m) = false) (by omega)
    ⟨le_refl i, less, ?_⟩ ?_
  · intro j low high
    rw [show j = i by omega]
    exact comp_irrefl _
  · intro k m low high holds
    obtain ⟨lowM, highM, smallest⟩ := holds
    split
    next smaller =>
      refine ⟨by omega, high, ?_⟩
      intro j lowJ highJ
      by_cases last : j = k
      · rw [last]
        exact comp_irrefl _
      · exact comp_trans_false (smallest j lowJ (by omega)) (comp_asymm smaller)
    next notSmaller =>
      refine ⟨lowM, highM, ?_⟩
      intro j lowJ highJ
      by_cases last : j = k
      · rw [last]
        exact Bool.eq_false_iff.mpr notSmaller
      · exact smallest j lowJ (by omega)

theorem selection_sorts {n : Int} (low : 0 ≤ n) (a : Int → α) :
    Sorts lt n a (selection lt n a) := by
  rcases Int.lt_or_le 0 n with some | none
  · have loop := forRange_inv
      (f := fun i a => if least lt n i a ≠ i then swapAt a i (least lt n i a) else a) (s := a)
      (fun i b => Rearranged 0 n a b ∧
        ∀ x y, 0 ≤ x → x < i → x < y → y < n → lt (b y) (b x) = false) (by omega : 0 ≤ n - 1)
      ⟨Rearranged.refl _ _ _, fun x y lowX highX => by omega⟩ (by
        intro i b lowI highI holds
        obtain ⟨moved, ordered⟩ := holds
        obtain ⟨lowM, highM, smallest⟩ := @least_spec _ lt _ n i (by omega) b
        have swapped : (if least lt n i b ≠ i then swapAt b i (least lt n i b) else b) =
            swapAt b i (least lt n i b) := by
          split
          next => rfl
          next same =>
            rw [not_not.mp same, swapAt_eq, Equiv.swap_self]
            rfl
        simp only [swapped]
        generalize least lt n i b = m at lowM highM smallest
        have step : Rearranged i n b (swapAt b i m) :=
          Rearranged.swap (le_refl i) (by omega) lowM highM
        refine ⟨moved.trans (step.widen lowI (by omega) (le_refl n)), ?_⟩
        intro x y lowX highX less highY
        by_cases last : x = i
        · subst last
          rw [swapAt_left]
          exact step.all (P := fun v => lt v (b m) = false) smallest y (by omega) highY
        · rw [step.outside x (by omega)]
          by_cases inside : y < i
          · rw [step.outside y (by omega)]
            exact ordered x y lowX (by omega) less highY
          · exact step.all (P := fun v => lt v (b x) = false)
              (fun j lowJ highJ => ordered x j lowX (by omega) (by omega) highJ) y (by omega) highY)
    exact ⟨loop.1, fun x y lowX less highY => loop.2 x y lowX (by omega) less highY⟩
  · rw [selection, forRange_empty (by omega)]
    exact ⟨Rearranged.refl _ _ _, Ordered.of_short (by omega)⟩

end Weak

end Micron.Sort
