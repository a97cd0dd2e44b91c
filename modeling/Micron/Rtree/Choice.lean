import Mathlib.Data.List.Perm.Basic
import Mathlib.Data.List.Induction
import Micron.Rtree.Model

/-!
# Boxes and choices of the R*-tree

What the rest of the proofs needs of the boxes is how `contains`, `extend` and
`intersects` fit together, and of the choices of kids, splits and entries to
reinsert that they pick an existing kid and permute the entries.
-/

set_option autoImplicit false

namespace Micron.Rtree

open List

variable {F V : Type} [Coord F] {D : Nat}

namespace Box

variable {a b c q : Box F D}

theorem isEmpty_eq_false_iff : b.isEmpty = false ↔ ∀ i, b.minCorner i ≤ b.maxCorner i := by
  simp [isEmpty]

theorem contains_iff : a.contains b = true ↔
    (b.isEmpty = false → ∀ i, a.minCorner i ≤ b.minCorner i ∧ b.maxCorner i ≤ a.maxCorner i) := by
  cases nothing : b.isEmpty <;> simp [contains, nothing]

theorem intersects_iff : a.intersects b = true ↔
    a.isEmpty = false ∧ b.isEmpty = false ∧
      ∀ i, a.minCorner i ≤ b.maxCorner i ∧ b.minCorner i ≤ a.maxCorner i := by
  simp [intersects, and_assoc]

theorem contains_refl (b : Box F D) : b.contains b = true :=
  contains_iff.mpr fun _ _ => ⟨le_refl _, le_refl _⟩

theorem isEmpty_of_contains (inside : a.contains b = true) (some : b.isEmpty = false) :
    a.isEmpty = false := by
  rw [isEmpty_eq_false_iff] at some ⊢
  intro i
  obtain ⟨low, high⟩ := contains_iff.mp inside (isEmpty_eq_false_iff.mpr some) i
  exact le_trans low (le_trans (some i) high)

theorem contains_trans (outer : a.contains b = true) (inner : b.contains c = true) :
    a.contains c = true := by
  rw [contains_iff]
  intro some i
  obtain ⟨low, high⟩ := contains_iff.mp inner some i
  obtain ⟨low', high'⟩ := contains_iff.mp outer (isEmpty_of_contains inner some) i
  exact ⟨le_trans low' low, le_trans high high'⟩

/-- The query reaches whatever contains a box it intersects. -/
theorem intersects_of_contains (inside : a.contains b = true) (hit : b.intersects q = true) :
    a.intersects q = true := by
  obtain ⟨some, someQ, meet⟩ := intersects_iff.mp hit
  refine intersects_iff.mpr ⟨isEmpty_of_contains inside some, someQ, ?_⟩
  intro i
  obtain ⟨low, high⟩ := contains_iff.mp inside some i
  exact ⟨le_trans low (meet i).1, le_trans (meet i).2 high⟩

theorem contains_of_isEmpty (nothing : b.isEmpty = true) : a.contains b = true := by
  rw [contains_iff, nothing]
  intro impossible
  cases impossible

theorem isEmpty_empty : (empty : Box F D).isEmpty = true ∨ D = 0 := by
  cases D with
  | zero => exact .inr rfl
  | succ D =>
    left
    rw [isEmpty, any_eq_true]
    exact ⟨0, mem_finRange 0, decide_eq_true Coord.negOne_lt_one⟩

theorem contains_empty (a : Box F D) : a.contains empty = true := by
  rcases isEmpty_empty (F := F) (D := D) with nothing | rfl
  · exact contains_of_isEmpty nothing
  · exact contains_iff.mpr fun _ i => i.elim0

theorem contains_extend_left (b c : Box F D) : (b.extend c).contains b = true := by
  unfold extend
  split
  · exact contains_refl b
  · split
    · rename_i nothing
      exact contains_of_isEmpty nothing
    · rw [contains_iff]
      intro _ i
      refine ⟨?_, ?_⟩
      · simp only
        split
        · rename_i less
          exact le_of_lt less
        · exact le_refl _
      · simp only
        split
        · rename_i greater
          exact le_of_lt greater
        · exact le_refl _

theorem contains_extend_right (b c : Box F D) : (b.extend c).contains c = true := by
  unfold extend
  split
  · rename_i nothing
    exact contains_of_isEmpty nothing
  · split
    · exact contains_refl c
    · rw [contains_iff]
      intro _ i
      refine ⟨?_, ?_⟩
      · simp only
        split
        · exact le_refl _
        · rename_i notLess
          exact le_of_not_gt notLess
      · simp only
        split
        · exact le_refl _
        · rename_i notGreater
          exact le_of_not_gt notGreater

theorem contains_extend (left : a.contains b = true) (right : a.contains c = true) :
    a.contains (b.extend c) = true := by
  unfold extend
  split
  · exact left
  · rename_i someC
    split
    · exact right
    · rename_i someB
      rw [contains_iff]
      intro _ i
      obtain ⟨lowB, highB⟩ := contains_iff.mp left (Bool.eq_false_iff.mpr someB) i
      obtain ⟨lowC, highC⟩ := contains_iff.mp right (Bool.eq_false_iff.mpr someC) i
      refine ⟨?_, ?_⟩
      · simp only
        split
        · exact lowC
        · exact lowB
      · simp only
        split
        · exact highC
        · exact highB

theorem foldl_extend_contains (boxes : List (Box F D)) :
    (boxes.foldl extend a).contains a = true ∧
      ∀ b ∈ boxes, (boxes.foldl extend a).contains b = true := by
  induction boxes generalizing a with
  | nil => exact ⟨contains_refl a, nofun⟩
  | cons first rest ih =>
    obtain ⟨start, others⟩ := ih (a := a.extend first)
    refine ⟨contains_trans start (contains_extend_left a first), ?_⟩
    intro b member
    rcases mem_cons.mp member with rfl | later
    · exact contains_trans start (contains_extend_right a b)
    · exact others b later

theorem contains_foldl_extend {m : Box F D} (boxes : List (Box F D)) (start : m.contains a = true)
    (each : ∀ b ∈ boxes, m.contains b = true) : m.contains (boxes.foldl extend a) = true := by
  induction boxes generalizing a with
  | nil => exact start
  | cons first rest ih =>
    exact ih (contains_extend start (each first mem_cons_self))
      fun b member => each b (mem_cons_of_mem _ member)

end Box

def Covers (m : Box F D) (n : Node F D V) : Prop := ∀ b ∈ n.mbrs, m.contains b = true

theorem covers_subtreeMbr (n : Node F D V) : Covers (subtreeMbr n) n :=
  (Box.foldl_extend_contains n.mbrs).2

theorem Covers.contains_subtreeMbr {m : Box F D} {n : Node F D V} (covers : Covers m n) :
    m.contains (subtreeMbr n) = true :=
  Box.contains_foldl_extend n.mbrs (Box.contains_empty m) covers

theorem Covers.trans {m m' : Box F D} {n : Node F D V} (outer : m.contains m' = true)
    (covers : Covers m' n) : Covers m n :=
  fun b member => Box.contains_trans outer (covers b member)

/-- A running choice of a best position stays among the positions seen. -/
theorem foldl_best_mem {S : Type} (index : S → Nat) (step : Option S → Nat → Option S)
    (pick : ∀ best i, step best i = best ∨ ∃ s, step best i = some s ∧ index s = i)
    (positions : List Nat) :
    ∀ s, positions.foldl step none = some s → index s ∈ positions := by
  have general : ∀ (rest seen : List Nat) (best : Option S),
      (∀ s, best = some s → index s ∈ seen) →
        ∀ s, rest.foldl step best = some s → index s ∈ seen ++ rest := by
    intro rest
    induction rest with
    | nil =>
      intro seen best known s found
      rw [append_nil]
      exact known s found
    | cons i rest ih =>
      intro seen best known s found
      have shape : seen ++ i :: rest = (seen ++ [i]) ++ rest := by simp
      rw [shape]
      refine ih (seen ++ [i]) (step best i) ?_ s found
      intro s' after
      rcases pick best i with same | ⟨chosen, made, here⟩
      · rw [same] at after
        exact mem_append_left _ (known s' after)
      · rw [made] at after
        cases after
        rw [here]
        exact mem_append_right _ mem_cons_self
  intro s found
  exact general positions [] none nofun s found

theorem leafKidStep_pick (boxes : List (Box F D)) (b : Box F D) (best : Option (BestKid F)) (i : Nat) :
    leafKidStep boxes b best i = best ∨
      ∃ s, leafKidStep boxes b best i = some s ∧ s.index = i := by
  unfold leafKidStep
  cases best with
  | none => exact .inr ⟨_, rfl, rfl⟩
  | some k =>
    simp only
    split
    · exact .inr ⟨_, rfl, rfl⟩
    · exact .inl rfl

theorem innerKidStep_pick (boxes : List (Box F D)) (b : Box F D) (best : Option (BestKid F))
    (i : Nat) :
    innerKidStep boxes b best i = best ∨
      ∃ s, innerKidStep boxes b best i = some s ∧ s.index = i := by
  unfold innerKidStep
  cases best with
  | none => exact .inr ⟨_, rfl, rfl⟩
  | some k =>
    simp only
    split
    · exact .inr ⟨_, rfl, rfl⟩
    · exact .inl rfl

theorem chooseSubtree_lt {kids : List (Box F D × Node F D V)} (some_kid : 1 ≤ kids.length)
    (b : Box F D) : chooseSubtree kids b < kids.length := by
  have inside : ∀ step : Option (BestKid F) → Nat → Option (BestKid F),
      (∀ best i, step best i = best ∨ ∃ s, step best i = some s ∧ s.index = i) →
        ∀ k, (List.range kids.length).foldl step none = some k → k.index < kids.length := by
    intro step pick k found
    exact mem_range.mp (foldl_best_mem BestKid.index step pick _ k found)
  unfold chooseSubtree
  split
  · dsimp only
    split
    · rename_i k found
      exact inside _ (leafKidStep_pick _ b) k found
    · exact some_kid
  · dsimp only
    split
    · rename_i k found
      exact inside _ (innerKidStep_pick _ b) k found
    · exact some_kid

/-! ## The chosen split -/

theorem sortStep_perm (key : Nat → F) (sorted : List Nat) (cur : Nat) :
    (sortStep key sorted cur).Perm (cur :: sorted) := by
  have halves : (sorted.reverse.dropWhile fun j => decide (key j > key cur)).reverse ++
      (sorted.reverse.takeWhile fun j => decide (key j > key cur)).reverse = sorted := by
    rw [← reverse_append, takeWhile_append_dropWhile, reverse_reverse]
  refine perm_middle.trans ?_
  rw [halves]

theorem sortBy_perm (key : Nat → F) (idx : List Nat) : (sortBy key idx).Perm idx := by
  have general : ∀ (idx sorted : List Nat),
      (idx.foldl (sortStep key) sorted).Perm (sorted ++ idx) := by
    intro idx
    induction idx with
    | nil =>
      intro sorted
      rw [append_nil]
      exact List.Perm.refl _
    | cons i idx ih =>
      intro sorted
      refine (ih _).trans (((sortStep_perm key sorted i).append_right idx).trans ?_)
      exact perm_middle.symm
  exact general idx []

theorem reorder_range {α : Type} (es : List α) : reorder es (List.range es.length) = es := by
  induction es using List.reverseRecOn with
  | nil => rfl
  | append_singleton rest e ih =>
    have front : (List.range rest.length).filterMap (fun i => (rest ++ [e])[i]?) = rest := by
      refine Eq.trans (filterMap_congr ?_) ih
      intro i member
      exact getElem?_append_left (mem_range.mp member)
    rw [reorder, length_append, length_singleton, range_succ,
      filterMap_append, front]
    simp

theorem reorder_perm {α : Type} {es : List α} {perm : List Nat}
    (whole : perm.Perm (List.range es.length)) : (reorder es perm).Perm es := by
  refine (whole.filterMap _).trans ?_
  exact List.Perm.of_eq (reorder_range es)

structure Distributes (least n : Nat) (c : SplitChoice F) : Prop where
  perm : c.perm.Perm (List.range n)
  enough : least ≤ c.k
  room : c.k + least ≤ n

theorem splitStep_isSome (boxes : List (Box F D)) (idx : List Nat) (best : Option (SplitChoice F))
    (k : Nat) : (splitStep boxes idx best k).isSome = true := by
  unfold splitStep
  cases best with
  | none => rfl
  | some c =>
    simp only
    split <;> rfl

theorem foldl_splitStep {least n : Nat} {boxes : List (Box F D)} {idx : List Nat}
    (whole : idx.Perm (List.range n)) (points : List Nat)
    (each : ∀ k ∈ points, least ≤ k ∧ k + least ≤ n) (best : Option (SplitChoice F))
    (known : ∀ c, best = some c → Distributes least n c) :
    ∀ c, points.foldl (splitStep boxes idx) best = some c → Distributes least n c := by
  induction points generalizing best with
  | nil => exact known
  | cons k points ih =>
    apply ih
    · exact fun k' member => each k' (mem_cons_of_mem _ member)
    · intro c made
      obtain ⟨enough, room⟩ := each k mem_cons_self
      unfold splitStep at made
      cases best with
      | none =>
        cases made
        exact ⟨whole, enough, room⟩
      | some old =>
        simp only at made
        split at made
        · cases made
          exact ⟨whole, enough, room⟩
        · exact known c made

theorem foldl_isSome {S α : Type} (step : Option S → α → Option S)
    (always : ∀ best x, (step best x).isSome = true) {xs : List α} (nonempty : xs ≠ [])
    (best : Option S) : (xs.foldl step best).isSome = true := by
  rcases eq_nil_or_concat xs with rfl | ⟨front, last, rfl⟩
  · exact absurd rfl nonempty
  · rw [concat_eq_append, foldl_append]
    exact always _ _

theorem bestAxis_isSome (someAxis : 0 < D) (least n : Nat) (boxes : List (Box F D)) :
    (bestAxis least n boxes).isSome = true := by
  apply foldl_isSome
  · intro best axis
    cases best with
    | none => rfl
    | some a =>
      simp only
      split <;> rfl
  · exact ne_nil_of_mem (mem_finRange ⟨0, someAxis⟩)

theorem chooseSplit_spec (someAxis : 0 < D) {least n : Nat} (room : 2 * least ≤ n)
    (boxes : List (Box F D)) : ∃ c, chooseSplit least n boxes = some c ∧ Distributes least n c := by
  obtain ⟨axis, found⟩ := Option.isSome_iff_exists.mp (bestAxis_isSome someAxis least n boxes)
  have points : ∀ k ∈ splitPoints least n, least ≤ k ∧ k + least ≤ n := by
    intro k member
    obtain ⟨low, high⟩ := mem_range'_1.mp member
    omega
  have nonempty : splitPoints least n ≠ [] := by
    apply ne_nil_of_mem (a := least)
    exact mem_range'_1.mpr ⟨le_refl _, by omega⟩
  have sorted : ∀ mode, (sortIdx boxes n axis.1 mode).Perm (List.range n) :=
    fun mode => sortBy_perm _ _
  simp only [chooseSplit, found, Option.bind_some, foldl_cons, foldl_nil]
  have made := foldl_isSome (splitStep boxes (sortIdx boxes n axis.1 true))
    (splitStep_isSome boxes _) nonempty
    ((splitPoints least n).foldl (splitStep boxes (sortIdx boxes n axis.1 false)) none)
  obtain ⟨c, result⟩ := Option.isSome_iff_exists.mp made
  refine ⟨c, result, ?_⟩
  refine foldl_splitStep (sorted true) _ points _ ?_ c result
  exact foldl_splitStep (sorted false) _ points none nofun

end Micron.Rtree
