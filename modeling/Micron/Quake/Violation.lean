import Mathlib.Data.Nat.Find
import Micron.Lib.Lanes

/-!
# The balance test of the quake heap in `simd/reduce.hpp`

`first_quake_violation` looks for the first level that holds too many nodes for the level below
it.  The vector form multiplies eight levels at a time modulo `2 ^ 32` and compares the products
as signed numbers; what is left goes through the scalar loop, which is exact.
-/

set_option autoImplicit false

namespace Micron.Quake

open Micron.Lib Nat

section Model
variable (nc : Nat → BitVec 32) (an ad : BitVec 32)

/-- The comparison of the scalar loop, on products of 64 bits. -/
def exceeds (i : Nat) : Bool := decide (an.toNat * (nc i).toNat < ad.toNat * (nc (i + 1)).toNat)

def laneExceeds (i : Nat) : Bool := (an * nc i).slt (ad * nc (i + 1))

/-- The scalar loop with `remaining` levels left from `i` on. -/
def scalarFrom (H : Nat) : Nat → Nat → Nat
  | 0, _ => H
  | remaining + 1, i => if exceeds nc an ad i then i else scalarFrom H remaining (i + 1)

/-- The mask of `_mm256_movemask_epi8`, four bits for each of the eight lanes. -/
def laneMask (i : Nat) : BitVec 32 := moveMask (fun byte => laneExceeds nc an ad (i + byte / 4)) 32

/-- The vector loop: the index that it returns, or where it leaves off. -/
def vectorFrom (lim : Nat) : Nat → Nat → Nat ⊕ Nat
  | 0, i => .inr i
  | fuel + 1, i =>
    if i + 8 ≤ lim then
      let m := laneMask nc an ad i
      if m ≠ 0 then .inl (i + ctz m / 4) else vectorFrom lim fuel (i + 8)
    else .inr i

def firstQuakeViolation (H : Nat) : Nat := if H < 2 then H else scalarFrom nc an ad H (H - 1) 0

/-- `first_quake_violation` as compiled with AVX2. -/
def firstQuakeViolationAvx2 (H : Nat) : Nat :=
  if H < 2 then H
  else
    match vectorFrom nc an ad (H - 1) (H - 1) 0 with
    | .inl i => i
    | .inr i => scalarFrom nc an ad H (H - 1 - i) i

end Model

variable {nc : Nat → BitVec 32} {an ad : BitVec 32} {H : Nat}

/-- `r` is the first index from `i` below `stop` that passes `test`, or `other`. -/
structure FirstFrom (test : Nat → Bool) (i stop other r : Nat) : Prop where
  passes : r < stop → test r = true
  earlier : ∀ j, i ≤ j → j < stop → j < r → test j = false
  within : i ≤ r
  missed : stop ≤ r → r = other

variable (nc an ad H) in
/-- The scalar loop gives the first level out of balance. -/
theorem scalarFrom_first : ∀ remaining i, i + remaining ≤ H →
    FirstFrom (exceeds nc an ad) i (i + remaining) H (scalarFrom nc an ad H remaining i) := by
  intro remaining
  induction remaining with
  | zero =>
    intro i inside
    exact ⟨fun below => absurd below (by rw [scalarFrom]; omega), fun j _ _ _ => by omega,
      inside, fun _ => rfl⟩
  | succ remaining ih =>
    intro i inside
    rw [scalarFrom]
    split
    next above => exact ⟨fun _ => above, fun j _ _ _ => by omega, le_refl i, fun _ => by omega⟩
    next under =>
      have rest := ih (i + 1) (by omega)
      rw [add_right_comm] at rest
      refine ⟨rest.passes, fun j from_i below before => ?_, by have := rest.within; omega,
        rest.missed⟩
      by_cases same : j = i
      · rw [same]
        exact Bool.eq_false_iff.mpr under
      · exact rest.earlier j (by omega) below before

theorem laneMask_eq_zero_iff (i : Nat) :
    laneMask nc an ad i = 0#32 ↔ ∀ j < 8, laneExceeds nc an ad (i + j) = false := by
  rw [laneMask, moveMask_eq_zero_iff _ (le_refl 32)]
  refine ⟨fun none j inside => ?_, fun none byte inside => none (byte / 4) (by omega)⟩
  have bit := none (4 * j) (by omega)
  rwa [Nat.mul_div_cancel_left j (by decide)] at bit

/-- A quarter of the zeros below the lowest bit is the first lane that compares true. -/
theorem ctz_laneMask {i : Nat} (some_bit : laneMask nc an ad i ≠ 0#32) :
    laneExceeds nc an ad (i + ctz (laneMask nc an ad i) / 4) = true ∧
      ctz (laneMask nc an ad i) / 4 < 8 ∧
      ∀ j < ctz (laneMask nc an ad i) / 4, laneExceeds nc an ad (i + j) = false := by
  have exists_lane : ∃ j, j < 8 ∧ laneExceeds nc an ad (i + j) = true := by
    by_contra absent
    refine some_bit ((laneMask_eq_zero_iff i).mpr fun j inside => ?_)
    exact Bool.eq_false_iff.mpr fun above => absent ⟨j, inside, above⟩
  obtain ⟨inside, above⟩ := Nat.find_spec exists_lane
  have earlier : ∀ j < Nat.find exists_lane, laneExceeds nc an ad (i + j) = false := by
    intro j less
    exact Bool.eq_false_iff.mpr fun above =>
      Nat.find_min exists_lane less ⟨by omega, above⟩
  have zeros : ctz (laneMask nc an ad i) = 4 * Nat.find exists_lane := by
    refine ctz_moveMask (le_refl 32) (by omega) ?_ fun byte less => earlier _ (by omega)
    rw [Nat.mul_div_cancel_left _ (by decide)]
    exact above
  rw [zeros, Nat.mul_div_cancel_left _ (by decide)]
  exact ⟨above, inside, earlier⟩

variable (nc an ad) in
/-- The vector loop gives the first lane that compares true below the last multiple of eight. -/
theorem vectorFrom_first (lim : Nat) : ∀ fuel i, lim < i + 8 * (fuel + 1) →
    (∃ r, vectorFrom nc an ad lim fuel i = .inl r ∧ r < i + 8 * ((lim - i) / 8) ∧
      FirstFrom (laneExceeds nc an ad) i (i + 8 * ((lim - i) / 8)) r r) ∨
    (vectorFrom nc an ad lim fuel i = .inr (i + 8 * ((lim - i) / 8)) ∧
      ∀ j, i ≤ j → j < i + 8 * ((lim - i) / 8) → laneExceeds nc an ad j = false) := by
  intro fuel
  induction fuel with
  | zero =>
    intro i enough
    have none_left : 8 * ((lim - i) / 8) = 0 := by omega
    rw [none_left]
    exact .inr ⟨rfl, fun j _ _ => by omega⟩
  | succ fuel ih =>
    intro i enough
    rw [vectorFrom]
    by_cases room : i + 8 ≤ lim
    · rw [if_pos room]
      dsimp only
      by_cases zero : laneMask nc an ad i = 0
      · rw [if_neg (not_not_intro zero)]
        have clear := (laneMask_eq_zero_iff i).mp zero
        have next : i + 8 + 8 * ((lim - (i + 8)) / 8) = i + 8 * ((lim - i) / 8) := by omega
        have lanes : ∀ j, i ≤ j → j < i + 8 → laneExceeds nc an ad j = false := by
          intro j from_i below
          have lane := clear (j - i) (by omega)
          rwa [Nat.add_sub_cancel' from_i] at lane
        have rest := ih (i + 8) (by omega)
        rw [next] at rest
        obtain ⟨r, result, below, first⟩ | ⟨result, none⟩ := rest
        · refine .inl ⟨r, result, below, first.passes, fun j from_i inside before => ?_,
            by have := first.within; omega, fun _ => rfl⟩
          by_cases early : j < i + 8
          · exact lanes j from_i early
          · exact first.earlier j (by omega) inside before
        · refine .inr ⟨result, fun j from_i inside => ?_⟩
          by_cases early : j < i + 8
          · exact lanes j from_i early
          · exact none j (by omega) inside
      · rw [if_pos zero]
        obtain ⟨above, inside, earlier⟩ := ctz_laneMask zero
        refine .inl ⟨_, rfl, by omega, fun _ => above, fun j from_i _ before => ?_,
          Nat.le_add_right .., fun _ => rfl⟩
        have lane := earlier (j - i) (by omega)
        rwa [Nat.add_sub_cancel' from_i] at lane
    · rw [if_neg room]
      have none_left : 8 * ((lim - i) / 8) = 0 := by omega
      rw [none_left]
      exact .inr ⟨rfl, fun j _ _ => by omega⟩

def signed32 (x : Nat) : Int := Int.bmod x (2 ^ 32)

theorem toInt_product {w : Nat} (x y : BitVec w) :
    (x * y).toInt = Int.bmod (x.toNat * y.toNat : Nat) (2 ^ w) := by
  rw [BitVec.toInt_eq_toNat_bmod, BitVec.toNat_mul, Int.natCast_mod, Int.emod_bmod]

theorem laneExceeds_eq (i : Nat) : laneExceeds nc an ad i =
    decide (signed32 (an.toNat * (nc i).toNat) < signed32 (ad.toNat * (nc (i + 1)).toNat)) := by
  have product : ∀ x y : BitVec 32, (x * y).toInt = signed32 (x.toNat * y.toNat) :=
    fun x y => toInt_product x y
  rw [laneExceeds, BitVec.slt_eq_decide, product, product]

/-- The products at level `i` compare as signed numbers of 32 bits as they do exactly. -/
def ComparesExactly (nc : Nat → BitVec 32) (an ad : BitVec 32) (i : Nat) : Prop :=
  signed32 (an.toNat * (nc i).toNat) < signed32 (ad.toNat * (nc (i + 1)).toNat) ↔
    an.toNat * (nc i).toNat < ad.toNat * (nc (i + 1)).toNat

theorem comparesExactly_iff (i : Nat) :
    ComparesExactly nc an ad i ↔ laneExceeds nc an ad i = exceeds nc an ad i := by
  rw [laneExceeds_eq, exceeds, decide_eq_decide]
  rfl

theorem comparesExactly_of_small {i : Nat} (small : an.toNat * (nc i).toNat < 2 ^ 31)
    (small_next : ad.toNat * (nc (i + 1)).toNat < 2 ^ 31) : ComparesExactly nc an ad i := by
  have exact_value : ∀ x : Nat, x < 2 ^ 31 → signed32 x = x := fun x small =>
    Int.bmod_eq_of_le_mul_two (by omega) (by omega)
  rw [ComparesExactly, exact_value _ small, exact_value _ small_next]
  exact Int.ofNat_lt

/-- The scalar form gives the first level out of balance, or the number of levels. -/
theorem firstQuakeViolation_first (enough : 2 ≤ H) :
    FirstFrom (exceeds nc an ad) 0 (H - 1) H (firstQuakeViolation nc an ad H) := by
  have first := scalarFrom_first nc an ad H (H - 1) 0 (by omega)
  rw [firstQuakeViolation, if_neg (by omega)]
  rwa [zero_add] at first

/-- The comparison that the vector form makes at level `i`. -/
def seen (nc : Nat → BitVec 32) (an ad : BitVec 32) (H i : Nat) : Bool :=
  if i < 8 * ((H - 1) / 8) then laneExceeds nc an ad i else exceeds nc an ad i

/-- The vector form gives the first level that it sees out of balance, or the number of levels. -/
theorem firstQuakeViolationAvx2_first (enough : 2 ≤ H) :
    FirstFrom (seen nc an ad H) 0 (H - 1) H (firstQuakeViolationAvx2 nc an ad H) := by
  have lanes := vectorFrom_first nc an ad (H - 1) (H - 1) 0
    (by omega)
  rw [Nat.zero_add, Nat.sub_zero] at lanes
  have within_lanes : ∀ j < 8 * ((H - 1) / 8), seen nc an ad H j = laneExceeds nc an ad j :=
    fun j inside => if_pos inside
  rw [firstQuakeViolationAvx2, if_neg (by omega)]
  obtain ⟨r, result, below, first⟩ | ⟨result, none⟩ := lanes
  · rw [result]
    dsimp only
    refine ⟨fun _ => ?_, fun j _ _ before => ?_, zero_le _, fun past => by omega⟩
    · rw [within_lanes r below]
      exact first.passes below
    · rw [within_lanes j (by omega)]
      exact first.earlier j (zero_le j) (by omega) before
  · rw [result]
    have tail := scalarFrom_first nc an ad H
      (H - 1 - 8 * ((H - 1) / 8)) (8 * ((H - 1) / 8)) (by omega)
    rw [Nat.add_sub_cancel' (by omega : 8 * ((H - 1) / 8) ≤ H - 1)] at tail
    have past_lanes : ∀ j, 8 * ((H - 1) / 8) ≤ j → seen nc an ad H j = exceeds nc an ad j :=
      fun j past => if_neg (not_lt.mpr past)
    refine ⟨fun below => ?_, fun j _ below before => ?_, zero_le _, tail.missed⟩
    · rw [past_lanes _ tail.within]
      exact tail.passes below
    · by_cases inside : j < 8 * ((H - 1) / 8)
      · rw [within_lanes j inside]
        exact none j (zero_le j) inside
      · rw [past_lanes j (not_lt.mp inside)]
        exact tail.earlier j (not_lt.mp inside) below before

section Compare
variable {test test' : Nat → Bool} {stop other r r' : Nat}

theorem FirstFrom.unique (first : FirstFrom test 0 stop other r)
    (first' : FirstFrom test 0 stop other r') : r = r' := by
  have order : ∀ {x y : Nat}, FirstFrom test 0 stop other x → FirstFrom test 0 stop other y →
      x < stop → x < y → False := by
    intro x y at_x at_y below less
    have unset := at_y.earlier x (zero_le x) below less
    rw [at_x.passes below] at unset
    cases unset
  by_cases below : r < stop
  · rcases lt_trichotomy r r' with less | same | more
    · exact (order first first' below less).elim
    · exact same
    · exact (order first' first (by omega) more).elim
  · by_cases below' : r' < stop
    · exact (order first' first below' (by omega)).elim
    · rw [first.missed (by omega), first'.missed (by omega)]

/-- The first indices of two tests are the same if and only if the tests agree at every index
below which the second one passes nothing. -/
theorem FirstFrom.eq_iff (first : FirstFrom test 0 stop other r)
    (first' : FirstFrom test' 0 stop other r') :
    r = r' ↔ ∀ i < stop, (∀ j < i, test' j = false) → test i = test' i := by
  constructor
  · intro same i inside below
    subst same
    have not_before : ¬r < i := by
      intro less
      have unset := below r less
      rw [first'.passes (by omega)] at unset
      cases unset
    by_cases here : r = i
    · subst here
      rw [first.passes inside, first'.passes inside]
    · rw [first.earlier i (zero_le i) inside (by omega),
        first'.earlier i (zero_le i) inside (by omega)]
  · intro agree
    have clear : ∀ j, j < stop → j < r → test' j = false := by
      intro j
      induction j using Nat.strong_induction_on with
      | _ j ih =>
        intro below before
        rw [← agree j below fun k less => ih k less (by omega) (by omega)]
        exact first.earlier j (zero_le j) below before
    have same_test : FirstFrom test' 0 stop other r := by
      refine ⟨fun below => ?_, fun j _ => clear j, zero_le r, first.missed⟩
      rw [← agree r below fun j less => clear j (by omega) less]
      exact first.passes below
    exact same_test.unique first'

end Compare

/-- The vector and the scalar form give the same index if and only if the products compare as
signed numbers of 32 bits as they do exactly, at every level that the vector loop looks at and
below which no level is out of balance. -/
theorem quake_forms_agree_iff (nc : Nat → BitVec 32) (an ad : BitVec 32) (H : Nat) :
    firstQuakeViolationAvx2 nc an ad H = firstQuakeViolation nc an ad H ↔
      ∀ i < 8 * ((H - 1) / 8),
        (∀ j < i, ad.toNat * (nc (j + 1)).toNat ≤ an.toNat * (nc j).toNat) →
          ComparesExactly nc an ad i := by
  have balanced : ∀ j, ad.toNat * (nc (j + 1)).toNat ≤ an.toNat * (nc j).toNat ↔
      exceeds nc an ad j = false := by
    intro j
    rw [exceeds, decide_eq_false_iff_not, not_lt]
  simp only [balanced, comparesExactly_iff]
  by_cases enough : 2 ≤ H
  · rw [(firstQuakeViolationAvx2_first enough).eq_iff (firstQuakeViolation_first enough)]
    constructor
    · intro agree i inside below
      rw [← agree i (by omega) below, seen, if_pos inside]
    · intro agree i inside below
      rw [seen]
      split
      next lane => exact agree i lane below
      next tail => rfl
  · have short : H < 2 := by omega
    rw [firstQuakeViolationAvx2, firstQuakeViolation, if_pos short, if_pos short]
    exact ⟨fun _ i inside => by omega, fun _ => rfl⟩

/-- A level of `2 ^ 30` nodes under one of a single node. -/
def wideLevel (i : Nat) : BitVec 32 := if i = 0 then 0x40000000#32 else if i = 1 then 1#32 else 0#32

/-- With nine levels and three quarters, the vector form sees the lowest level out of balance. -/
theorem quake_forms_differ :
    firstQuakeViolationAvx2 wideLevel 3#32 4#32 9 = 0 ∧
      firstQuakeViolation wideLevel 3#32 4#32 9 = 9 := by
  decide +kernel

end Micron.Quake
