import Micron.Lib.Loop
import Micron.Lib.WeakOrder

/-!
# Stable sorts

A stable sort of a list by a strict weak order puts the list in order, and of each class of
tied entries it keeps the order.  There is one list like that.  Sorting by a second order
after a first one sorts by both, and two orders have the same stable sort of a list
exactly where they agree on its entries as far as the list has them in that order.

A counting pass counts the entries with each digit, sums the counts up, so that each digit
knows where its entries end, and then writes the entries backwards from there.  What is
written is the stable sort by the digit.
-/

set_option autoImplicit false

namespace Micron.Lib

open List Function Bool Int

variable {α : Type} {lt lt' : α → α → Bool} {l l' l'' : List α}

def tied (lt : α → α → Bool) (v x : α) : Bool := !lt v x && !lt x v

structure StableSort (lt : α → α → Bool) (l l' : List α) : Prop where
  ordered : l'.Pairwise fun x y => lt y x = false
  kept : ∀ v, l'.filter (tied lt v) = l.filter (tied lt v)

theorem tied_iff {v x : α} : tied lt v x = true ↔ lt v x = false ∧ lt x v = false := by
  rw [tied, and_eq_true, not_eq_true', not_eq_true']

/-- Two entries stand one way or the other. -/
theorem pair_sublist {x y : α} (apart : x ≠ y) (first : x ∈ l) (second : y ∈ l) :
    [x, y].Sublist l ∨ [y, x].Sublist l := by
  obtain ⟨before, after, rfl⟩ := append_of_mem first
  rcases mem_append.mp second with front | back
  · exact .inr ((singleton_sublist.mpr front).append (singleton_sublist.mpr mem_cons_self))
  · rcases mem_cons.mp back with same | behind
    · exact absurd same.symm apart
    · exact .inl
        (sublist_append_of_sublist_right ((singleton_sublist.mpr behind).cons_cons x))

section Weak
variable [IsStrictWeakOrder α (Lesser lt)]

theorem tied_self (v : α) : tied lt v v = true := tied_iff.mpr ⟨comp_irrefl v, comp_irrefl v⟩

/-- Tied entries have the same class. -/
theorem tied_congr {v w : α} (same : tied lt v w = true) : tied lt v = tied lt w := by
  obtain ⟨first, second⟩ := tied_iff.mp same
  funext x
  rw [Bool.eq_iff_iff, tied_iff, tied_iff]
  refine ⟨?_, ?_⟩
  · rintro ⟨third, fourth⟩
    exact ⟨comp_trans_false second third, comp_trans_false fourth first⟩
  · rintro ⟨third, fourth⟩
    exact ⟨comp_trans_false first third, comp_trans_false fourth second⟩

theorem StableSort.perm (stable : StableSort lt l l') : l'.Perm l := by
  classical
  rw [perm_iff_count]
  intro x
  have same := congrArg (List.count x) (stable.kept x)
  rw [count_filter (tied_self x), count_filter (tied_self x)] at same
  exact same

theorem StableSort.mem_iff (stable : StableSort lt l l') {x : α} : x ∈ l' ↔ x ∈ l :=
  stable.perm.mem_iff

/-- A lesser entry stands in front. -/
theorem sublist_of_lt {x y : α} (ordered : l.Pairwise fun x y => lt y x = false) (first : x ∈ l)
    (second : y ∈ l) (less : lt x y = true) : [x, y].Sublist l := by
  have apart : x ≠ y := by
    rintro rfl
    exact false_ne_true ((comp_irrefl x).symm.trans less)
  rcases pair_sublist apart first second with forward | backward
  · exact forward
  · have wrong := pairwise_iff_forall_sublist.mp ordered backward
    rw [less] at wrong
    cases wrong

/-- Tied entries stand as they did. -/
theorem StableSort.sublist_iff (stable : StableSort lt l l') {x y : α} (same : tied lt x y = true) :
    [x, y].Sublist l' ↔ [x, y].Sublist l := by
  have pair : [x, y].filter (tied lt x) = [x, y] := by
    rw [filter_eq_self]
    intro z member
    rcases mem_cons.mp member with rfl | member
    · exact tied_self z
    · rw [mem_singleton.mp member]
      exact same
  refine ⟨?_, ?_⟩
  · intro sub
    have inside := sub.filter (tied lt x)
    rw [pair, stable.kept x] at inside
    exact inside.trans filter_sublist
  · intro sub
    have inside := sub.filter (tied lt x)
    rw [pair, ← stable.kept x] at inside
    exact inside.trans filter_sublist

/-- A list in order is determined by its classes. -/
theorem ordered_unique (ordered : l.Pairwise fun x y => lt y x = false)
    (ordered' : l'.Pairwise fun x y => lt y x = false)
    (same : ∀ v, l.filter (tied lt v) = l'.filter (tied lt v)) : l = l' := by
  induction l generalizing l' with
  | nil =>
    cases l' with
    | nil => rfl
    | cons x rest =>
      have head := same x
      rw [filter_cons_of_pos (tied_self x)] at head
      cases head
  | cons x rest ih =>
    cases l' with
    | nil =>
      have head := same x
      rw [filter_cons_of_pos (tied_self x)] at head
      cases head
    | cons y rest' =>
      have notLess : ∀ {l l' : List α} {u v : α}, (u :: l).Pairwise (fun x y => lt y x = false) →
          (u :: l).filter (tied lt v) = (v :: l').filter (tied lt v) → lt v u = false := by
        intro l l' u v ordered same
        rw [filter_cons_of_pos (tied_self v)] at same
        have member : v ∈ (u :: l).filter (tied lt v) := same ▸ mem_cons_self
        rcases mem_cons.mp (mem_filter.mp member).1 with rfl | behind
        · exact comp_irrefl v
        · exact (pairwise_cons.mp ordered).1 v behind
      have first := notLess ordered (same y)
      have second := notLess ordered' (same x).symm
      have heads := same x
      rw [filter_cons_of_pos (tied_self x),
        filter_cons_of_pos (tied_iff.mpr ⟨second, first⟩)] at heads
      obtain ⟨rfl, _⟩ := cons_eq_cons.mp heads
      congr 1
      refine ih (pairwise_cons.mp ordered).2 (pairwise_cons.mp ordered').2 ?_
      intro v
      have both := same v
      rw [filter_cons, filter_cons] at both
      split at both
      next => exact (cons_eq_cons.mp both).2
      next => exact both

theorem StableSort.unique (first : StableSort lt l l') (second : StableSort lt l l'') : l' = l'' :=
  ordered_unique first.ordered second.ordered fun v => (first.kept v).trans (second.kept v).symm

end Weak

section Two
variable [IsStrictWeakOrder α (Lesser lt)] [IsStrictWeakOrder α (Lesser lt')]

/-- The stable sort by one order is that by another exactly if they agree on the list. -/
theorem StableSort.iff_agree (stable : StableSort lt l l') :
    StableSort lt' l l' ↔ l.Pairwise fun x y => lt' y x = lt y x := by
  have trichotomy : ∀ {x y : α}, lt y x = false → lt x y = true ∨ tied lt x y = true := by
    intro x y notGreater
    cases less : lt x y with
    | true => exact .inl rfl
    | false => exact .inr (tied_iff.mpr ⟨less, notGreater⟩)
  refine ⟨?_, ?_⟩
  · intro second
    refine pairwise_of_forall_sublist ?_
    intro x y sub
    have members := sub.subset
    have memX : x ∈ l' := stable.mem_iff.mpr (members mem_cons_self)
    have memY : y ∈ l' := stable.mem_iff.mpr (members (mem_cons_of_mem _ mem_cons_self))
    cases less : lt y x with
    | true =>
      by_contra notGreater
      rw [not_eq_true] at notGreater
      have back := pairwise_iff_forall_sublist.mp second.ordered
        (sublist_of_lt stable.ordered memY memX less)
      have still := (second.sublist_iff (tied_iff.mpr ⟨back, notGreater⟩)).mpr sub
      have wrong := pairwise_iff_forall_sublist.mp stable.ordered still
      rw [less] at wrong
      cases wrong
    | false =>
      have still : [x, y].Sublist l' := by
        rcases trichotomy less with before | same
        · exact sublist_of_lt stable.ordered memX memY before
        · exact (stable.sublist_iff same).mpr sub
      exact pairwise_iff_forall_sublist.mp second.ordered still
  · intro agree
    have agrees : ∀ {x y : α}, [x, y].Sublist l → lt' y x = lt y x :=
      fun sub => pairwise_iff_forall_sublist.mp agree sub
    refine ⟨?_, ?_⟩
    · refine pairwise_of_forall_sublist ?_
      intro x y sub
      have notGreater := pairwise_iff_forall_sublist.mp stable.ordered sub
      rcases trichotomy notGreater with before | same
      · have members := sub.subset
        have memX : x ∈ l := stable.mem_iff.mp (members mem_cons_self)
        have memY : y ∈ l := stable.mem_iff.mp (members (mem_cons_of_mem _ mem_cons_self))
        have apart : x ≠ y := by
          rintro rfl
          exact false_ne_true ((comp_irrefl x).symm.trans before)
        rcases pair_sublist apart memX memY with forward | backward
        · rw [agrees forward]
          exact notGreater
        · have greater := agrees backward
          rw [before] at greater
          exact comp_asymm greater
      · rw [agrees ((stable.sublist_iff same).mp sub)]
        exact notGreater
    · intro v
      refine @ordered_unique _ lt _ _ _ (stable.ordered.filter _) ?_ ?_
      · refine pairwise_of_forall_sublist ?_
        intro x y sub
        have members := sub.subset
        have memX := tied_congr (mem_filter.mp (members mem_cons_self)).2
        have memY := (mem_filter.mp (members (mem_cons_of_mem _ mem_cons_self))).2
        rw [← agrees (sub.trans filter_sublist)]
        rw [memX] at memY
        exact (tied_iff.mp memY).2
      · intro w
        rw [filter_comm, stable.kept w, filter_comm]

end Two

def byKey (d : α → Nat) (x y : α) : Bool := decide (d x < d y)

instance (d : α → Nat) : IsStrictWeakOrder α (Lesser (byKey d)) where
  irrefl x less := lt_irrefl (d x) (of_decide_eq_true less)
  trans _ _ _ less less' :=
    decide_eq_true (lt_trans (of_decide_eq_true less) (of_decide_eq_true less'))
  incomp_trans x y z equal equal' := by
    simp only [Lesser, byKey, decide_eq_true_eq] at equal equal' ⊢
    omega

theorem tied_byKey (d : α → Nat) (v x : α) : tied (byKey d) v x = decide (d x = d v) := by
  rw [Bool.eq_iff_iff, tied_iff, byKey, byKey, decide_eq_false_iff_not, decide_eq_false_iff_not,
    decide_eq_true_iff]
  omega

/-- A stable sort by the high digit, of a stable sort by the low one. -/
theorem StableSort.digits {low high : α → Nat} {B : Nat} (small : ∀ x, low x < B)
    (first : StableSort (byKey low) l l') (second : StableSort (byKey high) l' l'') :
    StableSort (byKey fun x => B * high x + low x) l l'' := by
  constructor
  · refine pairwise_of_forall_sublist ?_
    intro x y sub
    have highs := pairwise_iff_forall_sublist.mp second.ordered sub
    have smallX := small x
    rw [byKey, decide_eq_false_iff_not] at highs ⊢
    rcases lt_or_ge (high x) (high y) with less | more
    · have whole : B * (high x + 1) ≤ B * high y := Nat.mul_le_mul_left B less
      rw [Nat.mul_add, Nat.mul_one] at whole
      omega
    · have same : high y = high x := by omega
      have before := (second.sublist_iff (by rw [tied_byKey, decide_eq_true same])).mp sub
      have lows := pairwise_iff_forall_sublist.mp first.ordered before
      rw [byKey, decide_eq_false_iff_not] at lows
      rw [same]
      omega
  · intro v
    have both : (tied (byKey fun x => B * high x + low x) v : α → Bool) =
        fun x => tied (byKey low) v x && tied (byKey high) v x := by
      funext x
      have smallX := small x
      have smallV := small v
      rw [tied_byKey, tied_byKey, tied_byKey, Bool.eq_iff_iff, Bool.and_eq_true, decide_eq_true_iff,
        decide_eq_true_iff, decide_eq_true_iff]
      refine ⟨?_, fun equal => by rw [equal.1, equal.2]⟩
      intro equal
      have lows := congrArg (· % B) equal
      simp only [Nat.mul_add_mod, Nat.mod_eq_of_lt smallX, Nat.mod_eq_of_lt smallV] at lows
      refine ⟨lows, Nat.eq_of_mul_eq_mul_left (by omega : 0 < B) ?_⟩
      omega
    rw [both, ← filter_filter, ← filter_filter, second.kept v, filter_comm,
      first.kept v, filter_comm]

def classes (d : α → Nat) (l : List α) (v : Nat) : List α :=
  (List.range v).flatMap fun u => l.filter fun x => decide (d x = u)

theorem classes_succ (d : α → Nat) (l : List α) (v : Nat) :
    classes d l (v + 1) = classes d l v ++ l.filter fun x => decide (d x = v) := by
  rw [classes, range_succ, flatMap_append, flatMap_singleton, classes]

theorem classes_perm (d : α → Nat) (l : List α) (v : Nat) :
    (classes d l v).Perm (l.filter fun x => decide (d x < v)) := by
  induction v with
  | zero => simp [classes]
  | succ v ih =>
    rw [classes_succ]
    refine (ih.append_right _).trans ?_
    have parts := filter_append_perm (fun x => decide (d x < v))
      (l.filter fun x => decide (d x < v + 1))
    rw [filter_filter, filter_filter] at parts
    refine List.Perm.trans (List.Perm.of_eq ?_) parts
    congr 1
    · refine filter_congr ?_
      intro x _
      rw [Bool.eq_iff_iff, Bool.and_eq_true, decide_eq_true_iff, decide_eq_true_iff]
      omega
    · refine filter_congr ?_
      intro x _
      rw [Bool.eq_iff_iff, Bool.and_eq_true, Bool.not_eq_true', decide_eq_true_iff,
        decide_eq_false_iff_not, decide_eq_true_iff]
      omega

theorem classes_whole {d : α → Nat} {v : Nat} (small : ∀ x ∈ l, d x < v) : (classes d l v).Perm l := by
  have all : (l.filter fun x => decide (d x < v)) = l :=
    filter_eq_self.mpr fun x member => decide_eq_true (small x member)
  exact (classes_perm d l v).trans (List.Perm.of_eq all)

theorem classes_stable {d : α → Nat} {v : Nat} (small : ∀ x ∈ l, d x < v) :
    StableSort (byKey d) l (classes d l v) := by
  constructor
  · rw [classes, pairwise_flatMap]
    have exact : ∀ {u x}, x ∈ (l.filter fun x => decide (d x = u)) → d x = u :=
      fun member => of_decide_eq_true (mem_filter.mp member).2
    refine ⟨?_, ?_⟩
    · intro u _
      refine pairwise_of_forall_mem_list ?_
      intro x memX y memY
      rw [byKey, exact memX, exact memY]
      exact decide_eq_false (lt_irrefl u)
    · refine pairwise_lt_range.imp ?_
      intro u w less x memX y memY
      rw [byKey, exact memX, exact memY]
      exact decide_eq_false (by omega)
  · intro w
    have value : (tied (byKey d) w) = fun x => decide (d x = d w) := funext (tied_byKey d w)
    rw [value]
    have nothing : ∀ v, v ≠ d w → (l.filter fun x => decide (d x = d w) && decide (d x = v)) = [] := by
      intro v apart
      rw [filter_eq_nil_iff]
      intro x _
      rw [Bool.and_eq_true, decide_eq_true_iff, decide_eq_true_iff]
      omega
    have upTo : ∀ v, (classes d l v).filter (fun x => decide (d x = d w)) =
        if d w < v then l.filter (fun x => decide (d x = d w)) else [] := by
      intro v
      induction v with
      | zero => simp [classes]
      | succ v ih =>
        rw [classes_succ, filter_append, ih, filter_filter]
        rcases lt_trichotomy (d w) v with less | same | more
        · rw [if_pos less, if_pos (by omega), nothing v (by omega), append_nil]
        · rw [if_neg (by omega), if_pos (by omega), ← same, nil_append]
          simp only [Bool.and_self]
        · rw [if_neg (by omega), if_neg (by omega), nothing v (by omega), append_nil]
    rw [upTo v]
    split
    next => rfl
    next large =>
      symm
      rw [filter_eq_nil_iff]
      intro x member
      have := small x member
      rw [decide_eq_true_iff]
      omega

/-! ## Ranges of cells -/

section Cells
variable {a b c : Int → α} {lo hi lo' hi' : Int}

/-- A range of cells in another order, but for the tied entries. -/
structure Stably (lt : α → α → Bool) (lo hi : Int) (a b : Int → α) : Prop
    extends Rearranged lo hi a b where
  kept : ∀ v, (cells lo hi b).filter (tied lt v) = (cells lo hi a).filter (tied lt v)

theorem Stably.refl (lt : α → α → Bool) (lo hi : Int) (a : Int → α) : Stably lt lo hi a a :=
  ⟨Rearranged.refl lo hi a, fun _ => rfl⟩

theorem Stably.trans (first : Stably lt lo hi a b) (second : Stably lt lo hi b c) : Stably lt lo hi a c :=
  ⟨first.toRearranged.trans second.toRearranged, fun v => (second.kept v).trans (first.kept v)⟩

theorem Stably.widen (moved : Stably lt lo hi a b) (low : lo' ≤ lo) (le : lo ≤ hi) (high : hi ≤ hi') :
    Stably lt lo' hi' a b := by
  refine ⟨moved.toRearranged.widen low le high, ?_⟩
  intro v
  have parts : ∀ d : Int → α, cells lo' hi' d = cells lo' lo d ++ (cells lo hi d ++ cells hi hi' d) := by
    intro d
    have first : cells lo' hi' d = cells lo' lo d ++ cells lo hi' d := cells_append low (by omega)
    have second : cells lo hi' d = cells lo hi d ++ cells hi hi' d := cells_append le high
    rw [first, second]
  have front : cells lo' lo b = cells lo' lo a :=
    cells_congr fun i _ below => moved.outside i (.inl below)
  have back : cells hi hi' b = cells hi hi' a :=
    cells_congr fun i above _ => moved.outside i (.inr above)
  rw [parts b, parts a, front, back]
  simp only [filter_append, moved.kept v]

/-- Neighbours of which neither is tied to the other may change places. -/
theorem Stably.swap_next {j : Int} [IsStrictWeakOrder α (Lesser lt)] (less : lt (a (j + 1)) (a j) = true) :
    Stably lt j (j + 2) a (swapAt a j (j + 1)) := by
  refine ⟨Rearranged.swap (by omega) (by omega) (by omega) (by omega), ?_⟩
  intro v
  have pair : ∀ d : Int → α, cells j (j + 2) d = [d j, d (j + 1)] := by
    intro d
    rw [cells_cons (by omega), cells_cons (by omega), cells_empty (by omega)]
  rw [pair, pair, swapAt_left, swapAt_right]
  cases first : tied lt v (a j) with
  | false => simp only [filter_cons, first, false_eq_true, if_false]
  | true =>
    have second : tied lt v (a (j + 1)) = false := by
      rw [tied_congr first, tied, less, Bool.not_true, Bool.and_false]
    simp only [filter_cons, second, false_eq_true, if_false]

/-- A merge takes tied entries from the first list first. -/
theorem filter_merge [IsStrictWeakOrder α (Lesser lt)] {xs ys : List α}
    (first : xs.Pairwise fun x y => lt y x = false) (v : α) :
    (List.merge xs ys fun x y => !lt y x).filter (tied lt v) =
      xs.filter (tied lt v) ++ ys.filter (tied lt v) := by
  induction xs generalizing ys with
  | nil => rw [nil_merge, filter_nil, nil_append]
  | cons x xs ih =>
    induction ys with
    | nil => rw [merge_right, filter_nil, append_nil]
    | cons y ys ih' =>
      rw [cons_merge_cons]
      split
      next =>
        have rest := @ih (y :: ys) (pairwise_cons.mp first).2
        by_cases same : tied lt v x = true
        · rw [filter_cons_of_pos same, rest, filter_cons_of_pos same, cons_append]
        · rw [filter_cons_of_neg same, rest, filter_cons_of_neg same]
      next notLess =>
        have less : lt y x = true := by simpa using notLess
        rw [filter_cons, ih']
        split
        next same =>
          -- Every entry that is left of the first list is greater than `y`.
          have none : (x :: xs).filter (tied lt v) = [] := by
            rw [filter_eq_nil_iff]
            intro z member
            have greater : lt y z = true := by
              rcases mem_cons.mp member with rfl | behind
              · exact less
              · by_contra notBefore
                rw [not_eq_true] at notBefore
                have wrong := comp_trans_false notBefore ((pairwise_cons.mp first).1 z behind)
                rw [less] at wrong
                cases wrong
            rw [tied_congr same, tied, greater]
            exact false_ne_true
          rw [none, nil_append, nil_append, filter_cons_of_pos same]
        next other =>
          rw [filter_cons_of_neg (l := ys) other]

end Cells

section Pass
variable {d : α → Nat} {a b : Int → α}

def tally (d : α → Nat) (n : Int) (a : Int → α) : Nat → Nat :=
  forRange 0 n (fun i c => update c (d (a i)) (c (d (a i)) + 1)) fun _ => 0

def accumulate (R : Int) (c : Nat → Nat) : Nat → Nat :=
  forRange 1 R (fun i c => update c i.toNat (c i.toNat + c (i.toNat - 1))) c

/-- Writes the first entries backwards. -/
def scatter (d : α → Nat) (a : Int → α) : Nat → (Nat → Nat) → (Int → α) → Int → α
  | 0, _, out => out
  | k + 1, c, out =>
    scatter d a k (update c (d (a k)) (c (d (a k)) - 1))
      (update out (c (d (a k)) - 1 : Nat) (a k))

/-- The entries of one class among the first ones, or from some place on. -/
def ofDigit (d : α → Nat) (lo hi : Int) (a : Int → α) (v : Nat) : List α :=
  (cells lo hi a).filter fun x => decide (d x = v)

theorem cells_snoc {lo hi : Int} (le : lo ≤ hi) : cells lo (hi + 1) a = cells lo hi a ++ [a hi] := by
  have parts : cells lo (hi + 1) a = cells lo hi a ++ cells hi (hi + 1) a :=
    cells_append le (by omega)
  rw [parts, cells_cons (by omega : hi < hi + 1), cells_empty (Int.le_refl _)]

theorem ofDigit_snoc (d : α → Nat) {lo hi : Int} (le : lo ≤ hi) (v : Nat) :
    ofDigit d lo (hi + 1) a v = ofDigit d lo hi a v ++ if d (a hi) = v then [a hi] else [] := by
  rw [ofDigit, cells_snoc le, filter_append, ofDigit]
  by_cases same : d (a hi) = v
  · rw [if_pos same, filter_cons_of_pos (by simpa using same), filter_nil]
  · rw [if_neg same, filter_cons_of_neg (by simpa using same), filter_nil]

theorem ofDigit_cons (d : α → Nat) {lo hi : Int} (less : lo < hi) (v : Nat) :
    ofDigit d lo hi a v = (if d (a lo) = v then [a lo] else []) ++ ofDigit d (lo + 1) hi a v := by
  rw [ofDigit, cells_cons less, ofDigit]
  by_cases same : d (a lo) = v
  · rw [if_pos same, filter_cons_of_pos (by simpa using same), singleton_append]
  · rw [if_neg same, filter_cons_of_neg (by simpa using same), nil_append]

theorem tally_eq (n : Nat) (v : Nat) : tally d n a v = (ofDigit d 0 n a v).length := by
  refine forRange_inv (fun i (c : Nat → Nat) => c v = (ofDigit d 0 i a v).length)
    (f := fun i c => update c (d (a i)) (c (d (a i)) + 1)) (natCast_nonneg n) ?_ ?_
  · rw [ofDigit, cells_empty (Int.le_refl _)]
    rfl
  · intro i c low _ counted
    rw [ofDigit_snoc d low, length_append, ← counted]
    by_cases same : d (a i) = v
    · rw [if_pos same, ← same, update_self]
      rfl
    · rw [if_neg same, update_of_ne (Ne.symm same)]
      rfl

def start (d : α → Nat) (n : Int) (a : Int → α) (v : Nat) : Nat := (classes d (cells 0 n a) v).length

theorem start_succ (d : α → Nat) (n : Int) (a : Int → α) (v : Nat) :
    start d n a (v + 1) = start d n a v + (ofDigit d 0 n a v).length := by
  rw [start, classes_succ, length_append, start, ofDigit]

theorem start_mono (d : α → Nat) (n : Int) (a : Int → α) {v w : Nat} (le : v ≤ w) :
    start d n a v ≤ start d n a w := by
  induction le with
  | refl => exact le_refl _
  | step _ ih => exact ih.trans (by rw [start_succ]; omega)

theorem accumulate_eq {R : Nat} (positive : 0 < R) (n : Nat) {v : Nat} (small : v < R) :
    accumulate R (tally d n a) v = start d n a (v + 1) := by
  suffices run : ∀ v : Nat, accumulate R (tally d n a) v =
      if (v : Int) < R then start d n a (v + 1) else (ofDigit d 0 n a v).length by
    rw [run v, if_pos (by omega)]
  refine forRange_inv (f := fun i c => update c i.toNat (c i.toNat + c (i.toNat - 1)))
    (fun i (c : Nat → Nat) => ∀ v : Nat, c v =
      if (v : Int) < i then start d n a (v + 1) else (ofDigit d 0 n a v).length) (by omega) ?_ ?_
  · intro v
    rw [tally_eq]
    by_cases zero : v = 0
    · rw [if_pos (by omega), zero, start_succ]
      have nothing : start d n a 0 = 0 := by simp [start, classes]
      rw [nothing, Nat.zero_add]
    · rw [if_neg (by omega)]
  · intro i c low high sums w
    by_cases here : w = i.toNat
    · rw [if_pos (by omega), here, update_self, sums, sums, if_neg (by omega), if_pos (by omega),
        show i.toNat - 1 + 1 = i.toNat by omega, start_succ]
      omega
    · rw [update_of_ne here, sums w]
      by_cases before : (w : Int) < i
      · rw [if_pos before, if_pos (by omega)]
      · rw [if_neg before, if_neg (by omega)]

/-- What has been written when `k` entries are left. -/
structure Scattered (d : α → Nat) (n R : Nat) (a : Int → α) (k : Nat) (c : Nat → Nat) (out : Int → α) :
    Prop where
  ends : ∀ v < R, c v + (ofDigit d k n a v).length = start d n a (v + 1)
  written : ∀ v < R, cells (c v) (start d n a (v + 1)) out = ofDigit d k n a v

theorem scatter_spec {n R : Nat} (small : ∀ i : Nat, i < n → d (a i) < R) {k : Nat} (le : k ≤ n)
    {c : Nat → Nat} {out : Int → α} (scattered : Scattered d n R a k c out) :
    ∀ v < R, cells (start d n a v) (start d n a (v + 1)) (scatter d a k c out) = ofDigit d 0 n a v := by
  induction k generalizing c out with
  | zero =>
    intro v inside
    have ends := scattered.ends v inside
    have written := scattered.written v inside
    rw [start_succ] at ends
    rw [show c v = start d n a v by simpa using ends] at written
    exact written
  | succ k ih =>
    refine ih (by omega) ?_
    have inside := small k (by omega)
    have total : ∀ v, (ofDigit d 0 n a v).length =
        (ofDigit d 0 k a v).length + (ofDigit d k n a v).length := by
      intro v
      have parts : cells 0 n a = cells 0 k a ++ cells k n a := cells_append (by omega) (by omega)
      rw [ofDigit, parts, filter_append, length_append, ofDigit, ofDigit]
    have first : ∀ v, ofDigit d k n a v =
        (if d (a k) = v then [a k] else []) ++ ofDigit d (k + 1 : Nat) n a v := by
      intro v
      rw [ofDigit_cons d (by omega), Int.natCast_add, Int.natCast_one]
    have room : ∀ v, v < R → start d n a v ≤ c v - (if d (a k) = v then 1 else 0) ∧
        (d (a k) = v → 0 < c v) ∧ c v ≤ start d n a (v + 1) := by
      intro v less
      have ends := scattered.ends v less
      have whole := total v
      rw [start_succ] at ends ⊢
      rw [first v, length_append] at whole
      split at whole
      next same =>
        rw [length_singleton] at whole
        rw [if_pos same]
        omega
      next other =>
        rw [if_neg other]
        exact ⟨by omega, fun same => absurd same other, by omega⟩
    constructor
    · intro v less
      have ends := scattered.ends v less
      rw [first v, length_append]
      by_cases same : d (a k) = v
      · rw [if_pos same, length_singleton, same, update_self]
        have := (room v less).2.1 same
        omega
      · rw [if_neg same, length_nil, update_of_ne (Ne.symm same)]
        omega
    · intro v less
      have written := scattered.written v less
      rw [first v]
      by_cases same : d (a k) = v
      · rw [if_pos same, same, update_self]
        obtain ⟨_, positive, below⟩ := room v less
        rw [cells_cons (by omega), update_self, singleton_append,
          show ((c v - 1 : Nat) : Int) + 1 = c v by omega, ← written]
        congr 1
        refine cells_congr ?_
        intro i low _
        exact update_of_ne (by omega) _ _
      · rw [if_neg same, update_of_ne (Ne.symm same), nil_append, ← written]
        refine cells_congr ?_
        intro i low high
        refine update_of_ne ?_ _ _
        have here := room v less
        have there := room (d (a k)) inside
        rw [if_pos rfl] at there
        rcases lt_or_gt_of_ne same with before | behind
        · have := start_mono d n a (show d (a k) + 1 ≤ v by omega)
          omega
        · have := start_mono d n a (show v + 1 ≤ d (a k) by omega)
          omega

/-- A whole pass leaves the classes one behind the other. -/
theorem counting_pass {n R : Nat} (positive : 0 < R) (small : ∀ i : Nat, i < n → d (a i) < R)
    (out : Int → α) :
    cells 0 n (scatter d a n (accumulate R (tally d n a)) out) = classes d (cells 0 n a) R := by
  have whole : start d n a R = n := by
    have perm := classes_whole (l := cells 0 n a) (d := d) (v := R) ?_
    · rw [start, perm.length_eq, length_cells]
      omega
    · intro x member
      obtain ⟨i, low, high, rfl⟩ := mem_cells.mp member
      obtain ⟨k, rfl⟩ := eq_ofNat_of_zero_le low
      exact small k (by omega)
  have nothing : ∀ v, ofDigit d n n a v = [] := by
    intro v
    rw [ofDigit, cells_empty (Int.le_refl _), filter_nil]
  have begun : Scattered d n R a n (accumulate R (tally d n a)) out := by
    constructor
    · intro v less
      rw [nothing, length_nil, Nat.add_zero, accumulate_eq positive n less]
    · intro v less
      rw [nothing, accumulate_eq positive n less, cells_empty (Int.le_refl _)]
  have done := scatter_spec small (le_refl n) begun
  have upTo : ∀ v, v ≤ R → cells 0 (start d n a v) (scatter d a n (accumulate R (tally d n a)) out) =
      classes d (cells 0 n a) v := by
    intro v
    induction v with
    | zero =>
      intro _
      rw [cells_empty]
      · simp [classes]
      · simp [start, classes]
    | succ v ih =>
      intro le
      have mono : start d n a v ≤ start d n a (v + 1) := start_mono d n a (Nat.le_succ v)
      have parts : cells 0 (start d n a (v + 1)) (scatter d a n (accumulate R (tally d n a)) out) =
          cells 0 (start d n a v) (scatter d a n (accumulate R (tally d n a)) out) ++
            cells (start d n a v) (start d n a (v + 1))
              (scatter d a n (accumulate R (tally d n a)) out) :=
        cells_append (by omega) (by omega)
      rw [parts, ih (by omega), done v (by omega), classes_succ, ofDigit]
  have last := upTo R (le_refl R)
  rw [whole] at last
  exact last

end Pass

end Micron.Lib
