import Mathlib.Data.Set.Card

/-!
# Slot tables and the finite maps they hold

An open-addressing table is a function from slot numbers to optional
bindings, of which only the slots below a bound count.  `Holds cell n M` says
that the first `n` slots hold exactly the bindings of the finite map `M`, each
key in one slot.  The lemmas say what the elementary writes do to `M`: filling
a free slot, overwriting a value, freeing a slot, and moving a binding to a
free slot.
-/

set_option autoImplicit false

namespace Micron.Lib

open Function Option Finset

variable {K V : Type}

/-- The first `n` slots hold exactly the bindings of `M`, each in one slot. -/
structure Holds (cell : Nat → Option (K × V)) (n : Nat) (M : K → Option V) : Prop where
  sound : ∀ i k v, i < n → cell i = some (k, v) → M k = some v
  complete : ∀ k v, M k = some v → ∃ i, i < n ∧ cell i = some (k, v)
  single : ∀ i j k v w, i < n → j < n →
    cell i = some (k, v) → cell j = some (k, w) → i = j

def load (cell : Nat → Option (K × V)) (n : Nat) : Nat :=
  ((Finset.range n).filter fun i => (cell i).isSome).card

noncomputable def keyCount (M : K → Option V) : Nat := {k | (M k).isSome}.ncard

theorem Holds.congr {cell cell' : Nat → Option (K × V)} {n : Nat} {M : K → Option V}
    (held : Holds cell n M) (same : ∀ i, i < n → cell' i = cell i) : Holds cell' n M := by
  refine ⟨?_, ?_, ?_⟩
  · intro i k v below at_i
    exact held.sound i k v below (by rw [← same i below]; exact at_i)
  · intro k v bound
    obtain ⟨i, below, at_i⟩ := held.complete k v bound
    exact ⟨i, below, by rw [same i below]; exact at_i⟩
  · intro i j k v w belowI belowJ at_i at_j
    rw [same i belowI] at at_i
    rw [same j belowJ] at at_j
    exact held.single i j k v w belowI belowJ at_i at_j

theorem Holds.eq_none {cell : Nat → Option (K × V)} {n : Nat} {M : K → Option V}
    (held : Holds cell n M) (k : K) (absent : ∀ i v, i < n → cell i ≠ some (k, v)) :
    M k = none := by
  cases bound : M k with
  | none => rfl
  | some v =>
    obtain ⟨i, below, at_i⟩ := held.complete k v bound
    exact absurd at_i (absent i v below)

/-- Two maps held by one table are equal. -/
theorem Holds.unique {cell : Nat → Option (K × V)} {n : Nat} {M N : K → Option V}
    (heldM : Holds cell n M) (heldN : Holds cell n N) : M = N := by
  funext k
  cases bound : M k with
  | none =>
    symm
    apply heldN.eq_none k
    intro i v below at_i
    rw [heldM.sound i k v below at_i] at bound
    exact some_ne_none _ bound
  | some v =>
    obtain ⟨i, below, at_i⟩ := heldM.complete k v bound
    exact (heldN.sound i k v below at_i).symm

theorem holds_empty {cell : Nat → Option (K × V)} {n : Nat}
    (free : ∀ i, i < n → cell i = none) : Holds cell n (fun _ => none) := by
  refine ⟨?_, ?_, ?_⟩
  · intro i k v below at_i
    rw [free i below] at at_i
    cases at_i
  · intro k v bound
    cases bound
  · intro i j k v w below _ at_i _
    rw [free i below] at at_i
    cases at_i

/-- A free slot more. -/
theorem Holds.succ_free {cell : Nat → Option (K × V)} {n : Nat} {M : K → Option V}
    (held : Holds cell n M) (free : cell n = none) : Holds cell (n + 1) M := by
  have inside : ∀ i k v, i < n + 1 → cell i = some (k, v) → i < n := by
    intro i k v below at_i
    rcases Nat.lt_succ_iff_lt_or_eq.mp below with earlier | last
    · exact earlier
    · rw [last, free] at at_i
      cases at_i
  refine ⟨?_, ?_, ?_⟩
  · intro i k v below at_i
    exact held.sound i k v (inside i k v below at_i) at_i
  · intro k v bound
    obtain ⟨i, below, at_i⟩ := held.complete k v bound
    exact ⟨i, Nat.lt_succ_of_lt below, at_i⟩
  · intro i j k v w belowI belowJ at_i at_j
    exact held.single i j k v w (inside i k v belowI at_i) (inside j k w belowJ at_j) at_i at_j

/-- A slot more, with a key of its own. -/
theorem Holds.succ_taken [DecidableEq K] {cell : Nat → Option (K × V)} {n : Nat}
    {M : K → Option V} (held : Holds cell n M) {k : K} {v : V} (at_n : cell n = some (k, v))
    (fresh : ∀ i w, i < n → cell i ≠ some (k, w)) :
    Holds cell (n + 1) (update M k (some v)) := by
  have split : ∀ i, i < n + 1 → i < n ∨ i = n := fun i => Nat.lt_succ_iff_lt_or_eq.mp
  refine ⟨?_, ?_, ?_⟩
  · intro i k' v' below at_i
    rcases split i below with earlier | rfl
    · have distinct : k' ≠ k := fun same => fresh i v' earlier (by rw [at_i, same])
      rw [update_of_ne distinct]
      exact held.sound i k' v' earlier at_i
    · rw [at_n, Option.some.injEq, Prod.mk.injEq] at at_i
      obtain ⟨rfl, rfl⟩ := at_i
      exact update_self ..
  · intro k' v' bound
    by_cases same : k' = k
    · subst same
      rw [update_self, Option.some.injEq] at bound
      subst bound
      exact ⟨n, Nat.lt_succ_self n, at_n⟩
    · rw [update_of_ne same] at bound
      obtain ⟨i, below, at_i⟩ := held.complete k' v' bound
      exact ⟨i, Nat.lt_succ_of_lt below, at_i⟩
  · intro i j k' v' w' belowI belowJ at_i at_j
    rcases split i belowI with earlierI | rfl <;> rcases split j belowJ with earlierJ | rfl
    · exact held.single i j k' v' w' earlierI earlierJ at_i at_j
    · rw [at_n, Option.some.injEq, Prod.mk.injEq] at at_j
      exact absurd at_i (by rw [← at_j.1]; exact fresh i v' earlierI)
    · rw [at_n, Option.some.injEq, Prod.mk.injEq] at at_i
      exact absurd at_j (by rw [← at_i.1]; exact fresh j w' earlierJ)
    · rfl

section Writes
variable [DecidableEq K] {cell : Nat → Option (K × V)} {n : Nat} {M : K → Option V}

/-- Filling a free slot with an unbound key binds that key. -/
theorem Holds.insert (held : Holds cell n M) {i : Nat} {k : K} (v : V) (below : i < n)
    (free : cell i = none) (unbound : M k = none) :
    Holds (update cell i (some (k, v))) n (update M k (some v)) := by
  have other : ∀ j w, j < n → cell j ≠ some (k, w) := by
    intro j w belowJ at_j
    rw [held.sound j k w belowJ at_j] at unbound
    cases unbound
  refine ⟨?_, ?_, ?_⟩
  · intro j k' v' belowJ at_j
    by_cases atI : j = i
    · subst atI
      rw [update_self, Option.some.injEq, Prod.mk.injEq] at at_j
      obtain ⟨rfl, rfl⟩ := at_j
      exact update_self ..
    · rw [update_of_ne atI] at at_j
      have distinct : k' ≠ k := fun same => other j v' belowJ (by rw [at_j, same])
      rw [update_of_ne distinct]
      exact held.sound j k' v' belowJ at_j
  · intro k' v' bound
    by_cases same : k' = k
    · subst same
      rw [update_self, Option.some.injEq] at bound
      subst bound
      exact ⟨i, below, update_self ..⟩
    · rw [update_of_ne same] at bound
      obtain ⟨j, belowJ, at_j⟩ := held.complete k' v' bound
      refine ⟨j, belowJ, ?_⟩
      rw [update_of_ne]
      · exact at_j
      · rintro rfl
        rw [free] at at_j
        cases at_j
  · intro a b k' v' w' belowA belowB at_a at_b
    by_cases aI : a = i <;> by_cases bI : b = i
    · rw [aI, bI]
    · subst aI
      rw [update_self, Option.some.injEq, Prod.mk.injEq] at at_a
      rw [update_of_ne bI, ← at_a.1] at at_b
      exact absurd at_b (other b w' belowB)
    · subst bI
      rw [update_self, Option.some.injEq, Prod.mk.injEq] at at_b
      rw [update_of_ne aI, ← at_b.1] at at_a
      exact absurd at_a (other a v' belowA)
    · rw [update_of_ne aI] at at_a
      rw [update_of_ne bI] at at_b
      exact held.single a b k' v' w' belowA belowB at_a at_b

/-- Freeing the slot of a key unbinds it. -/
theorem Holds.erase (held : Holds cell n M) {i : Nat} {k : K} {v : V} (below : i < n)
    (at_i : cell i = some (k, v)) :
    Holds (update cell i none) n (update M k none) := by
  refine ⟨?_, ?_, ?_⟩
  · intro j k' v' belowJ at_j
    by_cases atI : j = i
    · subst atI
      rw [update_self] at at_j
      cases at_j
    · rw [update_of_ne atI] at at_j
      have distinct : k' ≠ k := by
        rintro rfl
        exact atI (held.single j i k' v' v belowJ below at_j at_i)
      rw [update_of_ne distinct]
      exact held.sound j k' v' belowJ at_j
  · intro k' v' bound
    by_cases same : k' = k
    · subst same
      rw [update_self] at bound
      cases bound
    · rw [update_of_ne same] at bound
      obtain ⟨j, belowJ, at_j⟩ := held.complete k' v' bound
      refine ⟨j, belowJ, ?_⟩
      rw [update_of_ne]
      · exact at_j
      · rintro rfl
        rw [at_i, Option.some.injEq, Prod.mk.injEq] at at_j
        exact same at_j.1.symm
  · intro a b k' v' w' belowA belowB at_a at_b
    have aI : a ≠ i := by
      rintro rfl
      rw [update_self] at at_a
      cases at_a
    have bI : b ≠ i := by
      rintro rfl
      rw [update_self] at at_b
      cases at_b
    rw [update_of_ne aI] at at_a
    rw [update_of_ne bI] at at_b
    exact held.single a b k' v' w' belowA belowB at_a at_b

/-- Replacing the binding of one slot by a binding of a key bound nowhere else. -/
theorem Holds.replace (held : Holds cell n M) {i : Nat} {k k' : K} {v : V} (v' : V)
    (below : i < n) (at_i : cell i = some (k, v)) (unbound : k' = k ∨ M k' = none) :
    Holds (update cell i (some (k', v'))) n
      (update (update M k none) k' (some v')) := by
  have freed := held.erase below at_i
  have unbound' : update M k none k' = none := by
    by_cases same : k' = k
    · rw [same, update_self]
    · rw [update_of_ne same]
      exact unbound.resolve_left same
  have filled := freed.insert v' below (update_self ..) unbound'
  rwa [update_idem] at filled

/-- Overwriting the value of a bound key. -/
theorem Holds.assign (held : Holds cell n M) {i : Nat} {k : K} {v : V} (v' : V)
    (below : i < n) (at_i : cell i = some (k, v)) :
    Holds (update cell i (some (k, v'))) n (update M k (some v')) := by
  have replaced := held.replace v' below at_i (.inl rfl)
  rwa [update_idem] at replaced

/-- Moving a binding into a free slot changes nothing. -/
theorem Holds.move (held : Holds cell n M) {i j : Nat} {k : K} {v : V} (belowI : i < n)
    (belowJ : j < n) (free : cell i = none) (at_j : cell j = some (k, v)) :
    Holds (update (update cell i (some (k, v))) j none) n M := by
  have distinct : i ≠ j := by
    rintro rfl
    rw [free] at at_j
    cases at_j
  have freed := held.erase belowJ at_j
  have filled := freed.insert v belowI
    (by rw [update_of_ne distinct]; exact free) (update_self ..)
  have unchanged : update M k (some v) = M :=
    update_eq_self_iff.mpr (held.sound j k v belowJ at_j).symm
  rwa [update_idem, ← update_comm distinct, unchanged] at filled

end Writes

section Load
variable {cell : Nat → Option (K × V)} {n : Nat}

/-- The occupied slots other than `i`. -/
private theorem filter_update (i : Nat) (x : Option (K × V)) :
    ((Finset.range n).filter fun j => (update cell i x j).isSome).erase i =
      ((Finset.range n).filter fun j => (cell j).isSome).erase i := by
  ext j
  simp only [mem_erase, mem_filter]
  constructor
  · rintro ⟨distinct, rest⟩
    rw [update_of_ne distinct] at rest
    exact ⟨distinct, rest⟩
  · rintro ⟨distinct, rest⟩
    rw [update_of_ne distinct]
    exact ⟨distinct, rest⟩

theorem load_congr {cell' : Nat → Option (K × V)}
    (same : ∀ i, i < n → (cell' i).isSome = (cell i).isSome) : load cell' n = load cell n := by
  unfold load
  congr 1
  apply filter_congr
  intro i member
  rw [same i (mem_range.mp member)]

theorem load_update_fill {i : Nat} (e : K × V) (below : i < n) (free : cell i = none) :
    load (update cell i (some e)) n = load cell n + 1 := by
  have here : i ∈ (Finset.range n).filter
      fun j => (update cell i (some e) j).isSome := by
    simp [below]
  have gone : i ∉ (Finset.range n).filter fun j => (cell j).isSome := by
    simp [free]
  unfold load
  rw [← card_erase_add_one here, filter_update, erase_eq_of_notMem gone]

theorem load_update_free {i : Nat} (below : i < n) (taken : (cell i).isSome) :
    load (update cell i none) n + 1 = load cell n := by
  have here : i ∈ (Finset.range n).filter fun j => (cell j).isSome := by
    simp [below, taken]
  have gone : i ∉ (Finset.range n).filter
      fun j => (update cell i (none : Option (K × V)) j).isSome := by
    simp
  unfold load
  rw [← card_erase_add_one here, ← filter_update i none,
    erase_eq_of_notMem gone]

theorem load_update_taken {i : Nat} (e : K × V) (taken : (cell i).isSome) :
    load (update cell i (some e)) n = load cell n := by
  apply load_congr
  intro j _
  by_cases atI : j = i
  · subst atI
    simp [taken]
  · rw [update_of_ne atI]

theorem load_mono {i : Nat} (within : i ≤ n) : load cell i ≤ load cell n := by
  apply card_le_card
  apply filter_subset_filter
  exact range_subset_range.mpr within

/-- A table that is not full has a free slot. -/
theorem exists_free_of_load_lt (room : load cell n < n) : ∃ i, i < n ∧ cell i = none := by
  by_contra full
  push Not at full
  apply ne_of_lt room
  unfold load
  rw [filter_true_of_mem, card_range]
  intro i member
  exact isSome_iff_ne_none.mpr (full i (mem_range.mp member))

theorem load_eq_zero (free : ∀ i, i < n → cell i = none) : load cell n = 0 := by
  unfold load
  rw [card_eq_zero, filter_eq_empty_iff]
  intro i member
  rw [free i (mem_range.mp member)]
  simp

/-- The table holds as many occupied slots as its map binds keys. -/
theorem Holds.keyCount_eq {M : K → Option V} (held : Holds cell n M) :
    keyCount M = load cell n := by
  let keyAt : Nat → Option K := fun i => (cell i).map Prod.fst
  let taken := (Finset.range n).filter fun i => (cell i).isSome
  have injective : Set.InjOn keyAt (taken : Set Nat) := by
    intro i memberI j memberJ same
    simp only [taken, coe_filter, mem_range, Set.mem_ofPred_eq,
      isSome_iff_exists, Prod.exists] at memberI memberJ
    obtain ⟨belowI, k, v, at_i⟩ := memberI
    obtain ⟨belowJ, k', v', at_j⟩ := memberJ
    simp only [keyAt, at_i, at_j, map_some, Option.some.injEq] at same
    subst same
    exact held.single i j k v v' belowI belowJ at_i at_j
  have image : keyAt '' (taken : Set Nat) = some '' {k | (M k).isSome} := by
    ext key
    simp only [Set.mem_image, taken, coe_filter, mem_range, Set.mem_ofPred_eq,
      isSome_iff_exists, Prod.exists]
    constructor
    · rintro ⟨i, ⟨below, k, v, at_i⟩, rfl⟩
      exact ⟨k, ⟨v, held.sound i k v below at_i⟩, by simp [keyAt, at_i]⟩
    · rintro ⟨k, ⟨v, bound⟩, rfl⟩
      obtain ⟨i, below, at_i⟩ := held.complete k v bound
      exact ⟨i, ⟨below, k, v, at_i⟩, by simp [keyAt, at_i]⟩
  unfold keyCount load
  rw [← Set.ncard_image_of_injective _ (some_injective K), ← image,
    injective.ncard_image, Set.ncard_coe_finset]

end Load

end Micron.Lib
