import Mathlib.Order.Lattice
import Mathlib.Data.List.Perm.Basic

/-!
# The `k` smallest of what has been seen

A search keeps the `k` smallest items it has met in a row sorted by their keys.  A
new item moves in from the back past the larger ones, and the last item of a row
that is too long is dropped.  Items that are not smaller than the last of a full
row may be passed over.
-/

set_option autoImplicit false

namespace Micron.Lib

open List

variable {α F : Type} [LinearOrder F] (key : α → F)

/-- In a row with the back first, the item moves past those with a larger key. -/
def sinkIn (x : α) : List α → List α
  | [] => [x]
  | y :: rest => if key x < key y then y :: sinkIn x rest else x :: y :: rest

def insertBack (x : α) (row : List α) : List α := (sinkIn key x row.reverse).reverse

def sortBack (items : List α) : List α := items.foldl (fun row x => insertBack key x row) []

def SortedBy (row : List α) : Prop := row.Pairwise fun a b => key a ≤ key b

section Insert
variable {key}

theorem sinkIn_perm (x : α) (row : List α) : (sinkIn key x row).Perm (x :: row) := by
  induction row with
  | nil => exact List.Perm.refl _
  | cons y rest ih =>
    rw [sinkIn]
    split
    · exact (ih.cons y).trans (List.Perm.swap x y rest)
    · exact List.Perm.refl _

theorem insertBack_perm (x : α) (row : List α) : (insertBack key x row).Perm (x :: row) := by
  apply (reverse_perm _).trans
  apply (sinkIn_perm x row.reverse).trans
  exact (reverse_perm row).cons x

theorem sinkIn_sorted (x : α) {row : List α} (sorted : row.Pairwise fun a b => key b ≤ key a) :
    (sinkIn key x row).Pairwise fun a b => key b ≤ key a := by
  induction row with
  | nil => exact pairwise_singleton _ _
  | cons y rest ih =>
    obtain ⟨above, sortedRest⟩ := pairwise_cons.mp sorted
    rw [sinkIn]
    split
    · rename_i smaller
      refine pairwise_cons.mpr ⟨?_, ih sortedRest⟩
      intro z member
      rcases mem_cons.mp ((sinkIn_perm x rest).mem_iff.mp member) with rfl | old
      · exact le_of_lt smaller
      · exact above z old
    · rename_i notSmaller
      refine pairwise_cons.mpr ⟨?_, sorted⟩
      have first : key y ≤ key x := not_lt.mp notSmaller
      intro z member
      rcases mem_cons.mp member with rfl | old
      · exact first
      · exact le_trans (above z old) first

theorem insertBack_sorted (x : α) {row : List α} (sorted : SortedBy key row) :
    SortedBy key (insertBack key x row) := by
  apply pairwise_reverse.mpr
  exact sinkIn_sorted x (pairwise_reverse.mpr sorted)

theorem sortBack_from (items : List α) : ∀ row : List α, SortedBy key row →
    SortedBy key (items.foldl (fun row x => insertBack key x row) row) ∧
      (items.foldl (fun row x => insertBack key x row) row).Perm (row ++ items) := by
  induction items with
  | nil =>
    intro row sorted
    refine ⟨sorted, ?_⟩
    rw [append_nil]
    exact List.Perm.refl _
  | cons x rest ih =>
    intro row sorted
    obtain ⟨sortedAll, perm⟩ := ih (insertBack key x row) (insertBack_sorted x sorted)
    refine ⟨sortedAll, perm.trans ?_⟩
    apply ((insertBack_perm x row).append_right rest).trans
    exact perm_middle.symm

theorem sortBack_sorted (items : List α) : SortedBy key (sortBack key items) :=
  (sortBack_from items [] List.Pairwise.nil).1

theorem sortBack_perm (items : List α) : (sortBack key items).Perm items :=
  (sortBack_from items [] List.Pairwise.nil).2

end Insert

/-- A full row whose last item is not larger than the key takes nothing of it. -/
def fullBelow (k : Nat) (best : List α) (bound : F) : Bool :=
  decide (k ≤ best.length) &&
    match best.getLast? with
    | some last => decide (key last ≤ bound)
    | none => false

def offer (k : Nat) (best : List α) (x : α) : List α :=
  if fullBelow key k best (key x) then best
  else
    let row := insertBack key x best
    if k < row.length then row.dropLast else row

/-- Visits groups of items in turn, each with a bound that none of its keys is below,
until a bound is not below the last of a full row. -/
def visitUntil {γ : Type} (k : Nat) (visit : γ → List α → List α) :
    List (F × γ) → List α → List α
  | [], best => best
  | (bound, group) :: rest, best =>
    if fullBelow key k best bound then best else visitUntil k visit rest (visit group best)

structure Smallest (k : Nat) (seen best : List α) : Prop where
  sorted : SortedBy key best
  count : best.length = min k seen.length
  least : ∃ rest, (best ++ rest).Perm seen ∧ ∀ x, x ∈ best → ∀ y, y ∈ rest → key x ≤ key y

section Smallest
variable {key} {k : Nat} {seen seen' best : List α}

theorem smallest_nil (k : Nat) : Smallest key k [] [] :=
  ⟨List.Pairwise.nil, (Nat.min_zero k).symm, [], List.Perm.refl _, fun _ none => nomatch none⟩

theorem Smallest.perm (smallest : Smallest key k seen best) (same : seen.Perm seen') :
    Smallest key k seen' best := by
  obtain ⟨rest, whole, below⟩ := smallest.least
  refine ⟨smallest.sorted, ?_, rest, whole.trans same, below⟩
  rw [smallest.count, same.length_eq]

theorem SortedBy.le_last {row : List α} (sorted : SortedBy key row) {last : α}
    (isLast : row.getLast? = some last) : ∀ x, x ∈ row → key x ≤ key last := by
  have split : row.dropLast ++ [last] = row := dropLast_append_getLast? last isLast
  intro x member
  rw [← split] at member
  have ordered : SortedBy key (row.dropLast ++ [last]) := by
    rw [split]
    exact sorted
  rcases mem_append.mp member with earlier | isX
  · exact (pairwise_append.mp ordered).2.2 x earlier last mem_cons_self
  · rw [mem_singleton.mp isX]

/-- What is not smaller than the last of a full row may be passed over. -/
theorem Smallest.skip (smallest : Smallest key k seen best) {bound : F} {more : List α}
    (full : fullBelow key k best bound = true) (above : ∀ y, y ∈ more → bound ≤ key y) :
    Smallest key k (seen ++ more) best := by
  obtain ⟨rest, whole, below⟩ := smallest.least
  unfold fullBelow at full
  rw [Bool.and_eq_true, decide_eq_true_eq] at full
  obtain ⟨long, low⟩ := full
  have count := smallest.count
  refine ⟨smallest.sorted, ?_, rest ++ more, ?_, ?_⟩
  · rw [length_append]
    omega
  · rw [← append_assoc]
    exact whole.append_right more
  · intro x inBest y member
    rcases mem_append.mp member with old | new
    · exact below x inBest y old
    · split at low
      · rename_i last isLast
        have low := of_decide_eq_true low
        exact le_trans (smallest.sorted.le_last isLast x inBest) (le_trans low (above y new))
      · cases low

/-- Of a row that is one too long the last item is dropped. -/
theorem Smallest.offer (positive : 0 < k) (smallest : Smallest key k seen best) (x : α) :
    Smallest key k (seen ++ [x]) (offer key k best x) := by
  unfold Lib.offer
  cases full : fullBelow key k best (key x) with
  | true =>
    apply smallest.skip full
    intro y member
    rw [mem_singleton.mp member]
  | false =>
    simp only [Bool.false_eq_true, if_false]
    obtain ⟨rest, whole, below⟩ := smallest.least
    have count := smallest.count
    have size := whole.length_eq
    rw [length_append] at size
    have perm : (insertBack key x best).Perm (x :: best) := insertBack_perm x best
    have length := perm.length_eq
    rw [length_cons] at length
    have sorted := insertBack_sorted x smallest.sorted
    have regroup : (x :: best ++ rest).Perm (seen ++ [x]) :=
      (whole.cons x).trans (perm_append_singleton x seen).symm
    by_cases long : k < (insertBack key x best).length
    · rw [if_pos long]
      -- the item is smaller than the last of a full row
      obtain ⟨last, isLast⟩ : ∃ last, best.getLast? = some last := by
        cases atLast : best.getLast? with
        | none =>
          have empty := congrArg List.length (getLast?_eq_none_iff.mp atLast)
          rw [length_nil] at empty
          omega
        | some last => exact ⟨last, rfl⟩
      have smaller : key x < key last := by
        unfold fullBelow at full
        rw [isLast] at full
        simp only [Bool.and_eq_false_iff, decide_eq_false_iff_not] at full
        rcases full with short | less
        · omega
        · exact not_le.mp less
      have inLast : last ∈ best := mem_of_getLast? isLast
      obtain ⟨top, isTop⟩ : ∃ top, (insertBack key x best).getLast? = some top := by
        cases atTop : (insertBack key x best).getLast? with
        | none =>
          rw [getLast?_eq_none_iff.mp atTop, length_nil] at length
          omega
        | some top => exact ⟨top, rfl⟩
      have split : (insertBack key x best).dropLast ++ [top] = insertBack key x best :=
        dropLast_append_getLast? top isTop
      refine ⟨?_, ?_, top :: rest, ?_, ?_⟩
      · exact List.Pairwise.sublist (dropLast_sublist _) sorted
      · rw [length_dropLast, length_append, length_singleton]
        omega
      · rw [← singleton_append, ← append_assoc, split]
        exact (perm.append_right rest).trans regroup
      · intro a member b inRest
        have inRow : a ∈ insertBack key x best := (dropLast_sublist _).subset member
        rcases mem_cons.mp inRest with rfl | old
        · exact sorted.le_last isTop a inRow
        · rcases mem_cons.mp (perm.mem_iff.mp inRow) with rfl | inBest
          · exact le_trans (le_of_lt smaller) (below last inLast b old)
          · exact below a inBest b old
    · rw [if_neg long]
      have none : rest = [] := by
        apply length_eq_zero_iff.mp
        omega
      subst none
      refine ⟨sorted, ?_, [], ?_, fun _ _ _ nothing => nomatch nothing⟩
      · rw [length_append, length_singleton]
        omega
      · rw [append_nil]
        rw [append_nil] at regroup
        exact perm.trans regroup

theorem Smallest.offers (positive : 0 < k) : ∀ (items seen best : List α),
    Smallest key k seen best →
    Smallest key k (seen ++ items) (items.foldl (Lib.offer key k) best) := by
  intro items
  induction items with
  | nil =>
    intro seen best smallest
    rw [append_nil]
    exact smallest
  | cons x rest ih =>
    intro seen best smallest
    have later := ih (seen ++ [x]) _ (smallest.offer positive x)
    rw [append_assoc] at later
    exact later

/-- Groups in the order of their bounds may be cut off at the first bound that is
not below the last of a full row. -/
theorem Smallest.visitUntil {γ : Type} {visit : γ → List α → List α} (items : γ → List α) :
    ∀ (groups : List (F × γ)) (seen best : List α), SortedBy Prod.fst groups →
      (∀ group, group ∈ groups → ∀ x, x ∈ items group.2 → group.1 ≤ key x) →
      (∀ group, group ∈ groups → ∀ seen best, Smallest key k seen best →
        Smallest key k (seen ++ items group.2) (visit group.2 best)) →
      Smallest key k seen best →
      Smallest key k (seen ++ groups.flatMap fun group => items group.2)
        (Lib.visitUntil key k visit groups best) := by
  intro groups
  induction groups with
  | nil =>
    intro seen best _ _ _ smallest
    rw [flatMap_nil, append_nil]
    exact smallest
  | cons group rest ih =>
    intro seen best sorted bounded sound smallest
    obtain ⟨bound, items'⟩ := group
    obtain ⟨first, sortedRest⟩ := pairwise_cons.mp sorted
    rw [Lib.visitUntil]
    cases full : fullBelow key k best bound with
    | true =>
      apply smallest.skip full
      intro y member
      obtain ⟨group, inGroups, inGroup⟩ := mem_flatMap.mp member
      have above := bounded group inGroups y inGroup
      rcases mem_cons.mp inGroups with rfl | later
      · exact above
      · exact le_trans (first group later) above
    | false =>
      have visited := sound _ mem_cons_self seen best smallest
      rw [flatMap_cons, ← append_assoc]
      apply ih _ _ sortedRest _ _ visited
      · intro group later
        exact bounded group (mem_cons_of_mem _ later)
      · intro group later
        exact sound group (mem_cons_of_mem _ later)

end Smallest

end Micron.Lib
