import Mathlib.Data.List.Perm.Basic
import Mathlib.Data.List.Range
import Mathlib.Data.List.Nodup
import Mathlib.Logic.Equiv.Basic

/-!
# Counting loops over the cells of an array

`forRange` is the loop `for ( j = lo; j < hi; ++j )` with the invariant rule for it.  The memory
of an array is a function on indices; `Rearranged` says that a range of its cells holds
what it held before in some order, and the cells outside are as they were.
-/

set_option autoImplicit false

namespace Micron.Lib

open List Function

section Loops
variable {σ : Type}

def forFrom (body : Int → σ → σ) : Nat → Int → σ → σ
  | 0, _, s => s
  | rounds + 1, j, s => forFrom body rounds (j + 1) (body j s)

def forRange (lo hi : Int) (body : Int → σ → σ) (s : σ) : σ := forFrom body (hi - lo).toNat lo s

theorem forFrom_inv {body : Int → σ → σ} (P : Int → σ → Prop) {rounds : Nat} {lo : Int} {s : σ}
    (start : P lo s) (step : ∀ j s, lo ≤ j → j < lo + rounds → P j s → P (j + 1) (body j s)) :
    P (lo + rounds) (forFrom body rounds lo s) := by
  induction rounds generalizing lo s with
  | zero =>
    rw [Int.natCast_zero, Int.add_zero]
    exact start
  | succ rounds ih =>
    have rest := ih (step lo s (Int.le_refl _) (by omega) start)
      (fun j s low high holds => step j s (by omega) (by omega) holds)
    have total : lo + 1 + (rounds : Int) = lo + ((rounds + 1 : Nat) : Int) := by omega
    rw [total] at rest
    exact rest

/-- What holds at the start and is kept by each round holds at the end. -/
theorem forRange_inv {f : Int → σ → σ} (P : Int → σ → Prop) {lo hi : Int} {s : σ} (le : lo ≤ hi)
    (start : P lo s) (step : ∀ j s, lo ≤ j → j < hi → P j s → P (j + 1) (f j s)) :
    P hi (forRange lo hi f s) := by
  have total : lo + ((hi - lo).toNat : Int) = hi := by omega
  have rest : P (lo + ((hi - lo).toNat : Int)) (forFrom f (hi - lo).toNat lo s) :=
    forFrom_inv P start fun j s low high holds => step j s low (by omega) holds
  rw [total] at rest
  exact rest

theorem forRange_empty {body : Int → σ → σ} {lo hi : Int} {s : σ} (none : hi ≤ lo) :
    forRange lo hi body s = s := by
  have zero : (hi - lo).toNat = 0 := by omega
  rw [forRange, zero, forFrom]

/-- A map of the states that every round respects. -/
theorem forRange_hom {τ : Type} {body : Int → σ → σ} {body' : Int → τ → τ} (f : σ → τ)
    (step : ∀ j s, f (body j s) = body' j (f s)) (lo hi : Int) (s : σ) :
    f (forRange lo hi body s) = forRange lo hi body' (f s) := by
  unfold forRange
  generalize (hi - lo).toNat = rounds
  induction rounds generalizing lo s with
  | zero => rfl
  | succ rounds ih =>
    rw [forFrom, forFrom, ih, step]

/-- The same for the rounds of a list, of which each may fail. -/
theorem foldlM_range_inv {f : σ → Nat → Option σ} (P : Nat → σ → Prop) {n : Nat} {s s' : σ}
    (start : P 0 s) (step : ∀ k s s', k < n → P k s → f s k = some s' → P (k + 1) s')
    (run : (List.range n).foldlM f s = some s') : P n s' := by
  induction n generalizing s' with
  | zero =>
    cases run
    exact start
  | succ n ih =>
    rw [range_succ, foldlM_append] at run
    obtain ⟨mid, first, last⟩ := Option.bind_eq_some_iff.mp run
    obtain ⟨after, stepped, done⟩ := Option.bind_eq_some_iff.mp last
    cases done
    exact step n mid s' (Nat.lt_succ_self n)
      (ih (fun k s s' below => step k s s' (Nat.lt_succ_of_lt below)) first) stepped

end Loops

section Cells
variable {α : Type} {a b c : Int → α} {lo mid hi lo' hi' i j : Int}

def cells (lo hi : Int) (a : Int → α) : List α :=
  (List.range (hi - lo).toNat).map fun k => a (lo + (k : Nat))

theorem length_cells (lo hi : Int) (a : Int → α) : (cells lo hi a).length = (hi - lo).toNat := by
  rw [cells, length_map, length_range]

theorem cells_empty (none : hi ≤ lo) : cells lo hi a = [] := by
  rw [← length_eq_zero_iff, length_cells]
  omega

theorem mem_cells {v : α} : v ∈ cells lo hi a ↔ ∃ i, lo ≤ i ∧ i < hi ∧ a i = v := by
  rw [cells, mem_map]
  refine ⟨?_, ?_⟩
  · rintro ⟨k, inside, equal⟩
    rw [mem_range] at inside
    exact ⟨lo + k, by omega, by omega, equal⟩
  · rintro ⟨i, low, high, equal⟩
    refine ⟨(i - lo).toNat, ?_, ?_⟩
    · rw [mem_range]
      omega
    · rw [show lo + ((i - lo).toNat : Int) = i by omega]
      exact equal

theorem cells_congr (same : ∀ i, lo ≤ i → i < hi → a i = b i) : cells lo hi a = cells lo hi b := by
  refine map_congr_left ?_
  intro k inside
  rw [mem_range] at inside
  exact same _ (by omega) (by omega)

theorem cells_append (low : lo ≤ mid) (high : mid ≤ hi) :
    cells lo hi a = cells lo mid a ++ cells mid hi a := by
  have total : (hi - lo).toNat = (mid - lo).toNat + (hi - mid).toNat := by omega
  rw [cells, total, range_add, map_append, map_map, cells, cells]
  congr 1
  refine map_congr_left ?_
  intro k _
  rw [Function.comp_apply]
  congr 1
  omega

theorem cells_cons (low : lo < hi) : cells lo hi a = a lo :: cells (lo + 1) hi a := by
  have parts : cells lo hi a = cells lo (lo + 1) a ++ cells (lo + 1) hi a :=
    cells_append (by omega) (by omega)
  rw [parts]
  have single : cells lo (lo + 1) a = [a lo] := by
    rw [cells, show (lo + 1 - lo).toNat = 1 by omega]
    simp
  rw [single, singleton_append]

/-- A range of cells in another order, and the others as they were. -/
structure Rearranged (lo hi : Int) (a b : Int → α) : Prop where
  outside : ∀ i, i < lo ∨ hi ≤ i → b i = a i
  perm : (cells lo hi b).Perm (cells lo hi a)

theorem Rearranged.refl (lo hi : Int) (a : Int → α) : Rearranged lo hi a a :=
  ⟨fun _ _ => rfl, List.Perm.refl _⟩

theorem Rearranged.trans (first : Rearranged lo hi a b) (second : Rearranged lo hi b c) :
    Rearranged lo hi a c :=
  ⟨fun i out => (second.outside i out).trans (first.outside i out), second.perm.trans first.perm⟩

theorem Rearranged.widen (moved : Rearranged lo hi a b) (low : lo' ≤ lo) (le : lo ≤ hi)
    (high : hi ≤ hi') : Rearranged lo' hi' a b := by
  refine ⟨fun i out => moved.outside i (by omega), ?_⟩
  rw [cells_append (a := b) low (Int.le_trans le high), cells_append (a := b) le high,
    cells_append (a := a) low (Int.le_trans le high), cells_append (a := a) le high]
  have front : cells lo' lo b = cells lo' lo a :=
    cells_congr fun i _ below => moved.outside i (.inl below)
  have back : cells hi hi' b = cells hi hi' a :=
    cells_congr fun i above _ => moved.outside i (.inr above)
  rw [front, back]
  exact List.Perm.append_left _ (moved.perm.append_right _)

/-- What all cells of the range satisfy they still satisfy. -/
theorem Rearranged.all (moved : Rearranged lo hi a b) {P : α → Prop}
    (holds : ∀ i, lo ≤ i → i < hi → P (a i)) (i : Int) (low : lo ≤ i) (high : i < hi) : P (b i) := by
  have member : b i ∈ cells lo hi a := moved.perm.mem_iff.mp (mem_cells.mpr ⟨i, low, high, rfl⟩)
  obtain ⟨k, low', high', equal⟩ := mem_cells.mp member
  rw [← equal]
  exact holds k low' high'

theorem Rearranged.of_equiv (e : Equiv.Perm Int) (fixed : ∀ i, i < lo ∨ hi ≤ i → e i = i) :
    Rearranged lo hi a (a ∘ e) := by
  refine ⟨fun i out => congrArg a (fixed i out), ?_⟩
  have inside : ∀ i, lo ≤ i ∧ i < hi ↔ lo ≤ e i ∧ e i < hi := by
    intro i
    refine ⟨?_, ?_⟩
    · intro bounds
      by_contra out
      have := e.injective (fixed (e i) (by omega))
      omega
    · intro bounds
      by_contra out
      have := fixed i (by omega)
      omega
  have index : ∀ f : Int → α, cells lo hi f = (cells lo hi id).map f := by
    intro f
    rw [cells, cells, map_map]
    rfl
  have nodup : (cells lo hi (id : Int → Int)).Nodup := by
    refine List.Nodup.map ?_ nodup_range
    intro x y equal
    simp only [id_eq] at equal
    omega
  rw [index (a ∘ e), index a, ← map_map]
  refine List.Perm.map a ?_
  refine (perm_ext_iff_of_nodup (nodup.map e.injective) nodup).mpr ?_
  intro i
  rw [mem_map]
  refine ⟨?_, ?_⟩
  · rintro ⟨k, member, rfl⟩
    obtain ⟨k', low, high, rfl⟩ := mem_cells.mp member
    exact mem_cells.mpr ⟨e k', ((inside k').mp ⟨low, high⟩).1, ((inside k').mp ⟨low, high⟩).2, rfl⟩
  · intro member
    obtain ⟨k, low, high, equal⟩ := mem_cells.mp member
    have back := e.apply_symm_apply i
    refine ⟨e.symm i, mem_cells.mpr ⟨e.symm i, ?_, ?_, rfl⟩, back⟩
    · exact ((inside (e.symm i)).mpr (by rw [back, ← equal]; exact ⟨low, high⟩)).1
    · exact ((inside (e.symm i)).mpr (by rw [back, ← equal]; exact ⟨low, high⟩)).2

def swapAt (a : Int → α) (i j : Int) : Int → α :=
  update (update a i (a j)) j (a i)

theorem swapAt_eq (a : Int → α) (i j : Int) : swapAt a i j = a ∘ Equiv.swap i j := by
  funext x
  rw [swapAt, Function.comp_apply]
  by_cases right : x = j
  · rw [right, update_self, Equiv.swap_apply_right]
  · rw [update_of_ne right]
    by_cases left : x = i
    · rw [left, update_self, Equiv.swap_apply_left]
    · rw [update_of_ne left, Equiv.swap_apply_of_ne_of_ne left right]

theorem swapAt_left (a : Int → α) (i j : Int) : swapAt a i j i = a j := by
  rw [swapAt_eq, Function.comp_apply, Equiv.swap_apply_left]

theorem swapAt_right (a : Int → α) (i j : Int) : swapAt a i j j = a i := by
  rw [swapAt_eq, Function.comp_apply, Equiv.swap_apply_right]

theorem swapAt_of_ne {x : Int} (left : x ≠ i) (right : x ≠ j) : swapAt a i j x = a x := by
  rw [swapAt_eq, Function.comp_apply, Equiv.swap_apply_of_ne_of_ne left right]

theorem swapAt_same (same : a i = a j) : swapAt a i j = a := by
  rw [swapAt, ← same, update_eq_self, same, update_eq_self]

theorem Rearranged.swap (low : lo ≤ i) (high : i < hi) (low' : lo ≤ j) (high' : j < hi) :
    Rearranged lo hi a (swapAt a i j) := by
  rw [swapAt_eq]
  refine Rearranged.of_equiv _ ?_
  intro x out
  exact Equiv.swap_apply_of_ne_of_ne (by omega) (by omega)

end Cells

end Micron.Lib
