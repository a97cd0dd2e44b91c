import Mathlib.RingTheory.Coprime.Lemmas
import Micron.Arb.Limb
import Micron.Lib.Reciprocal

/-!
# Reciprocals and quotient digits

The reciprocals of `math/arbint/div.hpp`, the two divisions that take a quotient digit
from one of them, and the exact divisions of `math/arbint/mul_toom.hpp` and
`math/arbint/mul_toom4.hpp`.  A vector is a list with the least significant limb first.
-/

set_option autoImplicit false

namespace Micron.Arb

open Micron.Lib.Words List Nat
open Micron.Lib.Reciprocal

variable {w : Nat}

def join (hi lo : BitVec w) : Nat := hi.toNat * radix w + lo.toNat

def invertLimb (d : BitVec w) : BitVec w := BitVec.ofNat w (join (~~~d) (BitVec.allOnes w) / d.toNat)

/-- The reciprocal of the upper limb and what it leaves, with the lower limb added. -/
def adjusted (d1 d0 : BitVec w) : BitVec w × BitVec w :=
  let v := invertLimb d1
  let p := d1 * v + d0
  if p < d0 then
    let v := v - 1#w
    let mask := 0#w - bit (decide (d1 ≤ p))
    let p := p - d1
    (v + mask, p - (mask &&& d1))
  else (v, p)

def invertPi1 (d1 d0 : BitVec w) : BitVec w :=
  let r := adjusted d1 d0
  let t := mulWide d0 r.1
  let p := r.2 + t.2
  if p < t.2 then
    let v := r.1 - 1#w
    if d1 ≤ p ∧ (d1 < p ∨ d0 ≤ t.1) then v - 1#w else v
  else r.1

def divrem2by1 (nh nl d dinv : BitVec w) : BitVec w × BitVec w :=
  let p := mulWide nh dinv
  let q := add2 p.2 p.1 (nh + 1#w) nl
  let rr := nl - q.1 * d
  let mask := 0#w - bit (decide (q.2 < rr))
  let qh := q.1 + mask
  let rr := rr + (mask &&& d)
  if d ≤ rr then (qh + 1#w, rr - d) else (qh, rr)

/-- The quotient and the two limbs of the remainder, the upper one first. -/
def divrem3by2 (n2 n1 n0 d1 d0 dinv : BitVec w) : BitVec w × BitVec w × BitVec w :=
  let p := mulWide n2 dinv
  let q := add2 p.2 p.1 n2 n1
  let s1 := n1 - d1 * q.1
  let s := sub2 s1 n0 d1 d0
  let t := mulWide d0 q.1
  let s := sub2 s.1 s.2 t.2 t.1
  let qh := q.1 + 1#w
  let mask := 0#w - bit (decide (q.2 ≤ s.1))
  let qh := qh + mask
  let s := add2 s.1 s.2 (mask &&& d1) (mask &&& d0)
  if d1 ≤ s.1 ∧ (d1 < s.1 ∨ d0 ≤ s.2) then
    let r := sub2 s.1 s.2 d1 d0
    (qh + 1#w, r.1, r.2)
  else (qh, s.1, s.2)

def inv3 (w : Nat) : BitVec w := if w = 64 then 0xAAAAAAAAAAAAAAAB#w else 0xAAAAAAAB#w

def thirdMax (w : Nat) : BitVec w := BitVec.ofNat w ((2 ^ w - 1) / 3)

def divexactBy3From : BitVec w → List (BitVec w) → List (BitVec w)
  | _, [] => []
  | c, u :: up =>
    let l := subb u c 0#w
    let q := l.1 * inv3 w
    q :: divexactBy3From (l.2 + bit (decide (thirdMax w < q)) + bit (decide (thirdMax w * 2#w < q))) up

def divexactBy3 (up : List (BitVec w)) : List (BitVec w) := divexactBy3From 0#w up

def binvOdd (d : BitVec w) : BitVec w :=
  (List.range 6).foldl (fun x _ => x * (2#w - d * x)) d

def divexact1OddFrom (d dinv : BitVec w) : BitVec w → List (BitVec w) → List (BitVec w)
  | _, [] => []
  | cy, u :: up =>
    let s := subb u cy 0#w
    let q := s.1 * dinv
    q :: divexact1OddFrom d dinv ((mulWide q d).2 + s.2) up

def divexact1Odd (up : List (BitVec w)) (d dinv : BitVec w) : List (BitVec w) :=
  divexact1OddFrom d dinv 0#w up

theorem invertLimb_spec {d : BitVec w} (normal : radix w ≤ 2 * d.toNat) :
    IsInverse (radix w) ((radix w : Int) ^ 2) d.toNat (invertLimb d).toNat := by
  have bound := toNat_lt d
  have positive := radix_pos w
  have some_ : 0 < d.toNat := by omega
  have isN : join (~~~d) (BitVec.allOnes w) + radix w * d.toNat + 1 = radix w * radix w := by
    have ones : (BitVec.allOnes w).toNat + 1 = radix w := by
      rw [BitVec.toNat_allOnes]
      exact Nat.sub_add_cancel positive
    have complement := toNat_not_add d
    rw [join]
    calc _ = (~~~d).toNat * radix w + radix w * d.toNat + ((BitVec.allOnes w).toNat + 1) := by ring
      _ = radix w * ((~~~d).toNat + d.toNat + 1) := by rw [ones]; ring
      _ = _ := by rw [complement]
  have quotient := div_add_mod (join (~~~d) (BitVec.allOnes w)) d.toNat
  have rest := mod_lt (join (~~~d) (BitVec.allOnes w)) some_
  have small : join (~~~d) (BitVec.allOnes w) / d.toNat < radix w := by
    rw [div_lt_iff_lt_mul some_]
    have double : radix w * radix w ≤ radix w * (2 * d.toNat) := mul_le_mul_left _ normal
    rw [mul_left_comm] at double
    omega
  rw [invertLimb, toNat_ofNat_of_lt small]
  generalize join (~~~d) (BitVec.allOnes w) / d.toNat = v at quotient small ⊢
  generalize join (~~~d) (BitVec.allOnes w) % d.toNat = r at quotient rest
  have whole : (radix w + v) * d.toNat + (r + 1) = radix w * radix w := by
    rw [← isN, ← quotient]
    ring
  have cast : ((radix w : Int) + v) * d.toNat + (r + 1) = (radix w : Int) ^ 2 := by
    rw [pow_two]
    exact_mod_cast whole
  constructor
  · omega
  · omega

/-- A quotient and a remainder that are limbs. -/
theorem digit_of_isLimb {n d : Nat} {q r : BitVec w} {a b : Int} (isQ : IsLimb q a) (isR : IsLimb r b)
    (whole : (n : Int) = a * d + b) (lowQ : 0 ≤ a) (highQ : a < radix w) (lowR : 0 ≤ b) (highR : b < d)
    (below : (d : Int) ≤ radix w) : n = q.toNat * d + r.toNat ∧ r.toNat < d := by
  have eqQ := isQ.eq lowQ highQ
  have eqR := isR.eq lowR (lt_of_lt_of_le highR below)
  rw [← eqQ, ← eqR] at whole
  rw [← eqR] at highR
  exact ⟨by exact_mod_cast whole, by exact_mod_cast highR⟩

theorem divrem2by1_spec (some_ : 0 < w) {nh nl d dinv : BitVec w} (normal : radix w ≤ 2 * d.toNat)
    (inverse : IsInverse (radix w) ((radix w : Int) ^ 2) d.toNat dinv.toNat) (less : nh.toNat < d.toNat) :
    nh.toNat * radix w + nl.toNat =
        (divrem2by1 nh nl d dinv).1.toNat * d.toNat + (divrem2by1 nh nl d dinv).2.toNat ∧
      (divrem2by1 nh nl d dinv).2.toNat < d.toNat := by
  have below := toNat_lt d
  have smallL := toNat_lt nl
  have smallV := toNat_lt dinv
  have product := mulWide_spec nh dinv
  have repP : Rep 2 [(mulWide nh dinv).1, (mulWide nh dinv).2] (nh.toNat * dinv.toNat) :=
    Rep.of_eq rfl (by rw [val_two, product]; push_cast; rfl)
  have repQ := rep_add2 some_ repP (rep_two nl ((IsLimb.self nh).add (isLimb_one some_)))
  rw [divrem2by1]
  generalize add2 (mulWide nh dinv).2 (mulWide nh dinv).1 (nh + 1#w) nl = q at repQ ⊢
  clear repP product
  -- the candidate's quotient and its lower limb
  obtain ⟨B, isB⟩ : ∃ B : Int, (radix w : Int) = B := ⟨_, rfl⟩
  have base : 0 < B := by rw [← isB]; exact_mod_cast radix_pos w
  obtain ⟨q1, q0, candidate, lowQ0, highQ0⟩ : ∃ q1 q0 : Int,
      q1 * B + q0 = (B + dinv.toNat) * nh.toNat + nl.toNat ∧ 0 ≤ q0 ∧ q0 < B :=
    ⟨_, _, Int.ediv_mul_add_emod _ B, Int.emod_nonneg _ (ne_of_gt base), Int.emod_lt_of_pos _ base⟩
  rw [isB] at inverse
  have sizes : (0 : Int) < d.toNat ∧ (d.toNat : Int) < B ∧ B ≤ 2 * d.toNat ∧ (nh.toNat : Int) < d.toNat ∧
      (nl.toNat : Int) < B := by omega
  obtain ⟨divisor, highD, normalD, highU1, highU0⟩ := sizes
  obtain ⟨isQ0, isQ1⟩ := halves_of_rep (x := q0) (y := q1 + 1)
    (repQ.congr (by rw [isB]; linear_combination -candidate)) lowQ0 (by rw [isB]; exact highQ0)
  have lows := low_one inverse divisor highD (Int.natCast_nonneg _) (Int.natCast_nonneg _) candidate lowQ0 highQ0
  have highs := high_one inverse divisor highD (Int.natCast_nonneg _) highU1 highU0 candidate
  have isR : IsLimb (nl - q.1 * d) (nh.toNat * B + nl.toNat - (q1 + 1) * d.toNat) := by
    refine (((IsLimb.self nl).sub (isQ1.mul (IsLimb.self d))).shift nh.toNat).congr ?_
    rw [isB]
    ring
  have numerator : nh.toNat * B + nl.toNat < d.toNat * B := by
    have le : ((nh.toNat : Int) + 1) * B ≤ d.toNat * B := mul_le_mul_of_nonneg_right (by omega) (le_of_lt base)
    linarith
  have isN : ((nh.toNat * radix w + nl.toNat : Nat) : Int) = nh.toNat * B + nl.toNat := by
    push_cast
    rw [isB]
  generalize isRest : (nh.toNat : Int) * B + nl.toNat - (q1 + 1) * d.toNat = r at lows highs isR
  generalize nl - q.1 * d = rr at isR ⊢
  have numeratorLow : 0 ≤ (nh.toNat : Int) * B + nl.toNat := by positivity
  have range := fun x : Int => digit_range (x := x) divisor numeratorLow numerator
  rcases lt_or_ge r 0 with negative | positive
  · have eqR : (rr.toNat : Int) = r + B := by
      have moved := (isR.shift 1).congr (b := r + B) (by rw [isB]; ring)
      exact moved.eq (by linarith) (by rw [isB]; linarith)
    have passes : q.2 < rr := by rw [BitVec.lt_def]; omega
    rw [decide_eq_true passes, mask_true, BitVec.allOnes_and]
    have isSum := isR.add (IsLimb.self d)
    have eqSum := isSum.eq (by linarith) (by rw [isB]; linarith)
    have inside : ¬ d ≤ rr + d := by rw [BitVec.le_def]; omega
    rw [if_neg inside]
    obtain ⟨lowX, highX⟩ := range q1 (by linarith) (by linarith)
    exact digit_of_isLimb ((isLimb_add_allOnes isQ1).congr (by ring)) isSum (by rw [isN]; linarith) lowX
      (by rw [isB]; exact highX) (by linarith) (by linarith) (by rw [isB]; linarith)
  · have highR : r < B := by
      by_contra large
      exact highs ⟨by linarith, by linarith⟩
    have eqR := isR.eq positive (by rw [isB]; exact highR)
    by_cases passes : q.2 < rr
    · have passed : q0 < r := by rw [BitVec.lt_def] at passes; omega
      have room : r < B - d.toNat := by
        by_contra large
        exact highs ⟨by linarith, by linarith⟩
      rw [decide_eq_true passes, mask_true, BitVec.allOnes_and]
      have isSum := isR.add (IsLimb.self d)
      have eqSum := isSum.eq (by linarith) (by rw [isB]; linarith)
      have outside : d ≤ rr + d := by rw [BitVec.le_def]; omega
      rw [if_pos outside]
      obtain ⟨lowX, highX⟩ := range (q1 + 1) (by linarith) (by linarith)
      exact digit_of_isLimb (((isLimb_add_allOnes isQ1).add (isLimb_one some_)).congr (by ring))
        ((isSum.sub (IsLimb.self d)).congr (b := r) (by ring)) (by rw [isN]; linarith) lowX
        (by rw [isB]; exact highX) positive (by linarith) (by rw [isB]; linarith)
    · rw [decide_eq_false passes, mask_false, BitVec.zero_and, BitVec.add_zero, BitVec.add_zero]
      by_cases outside : d ≤ rr
      · have more : (d.toNat : Int) ≤ r := by rw [BitVec.le_def] at outside; omega
        rw [if_pos outside]
        obtain ⟨lowX, highX⟩ := range (q1 + 2) (by linarith) (by linarith)
        exact digit_of_isLimb ((isQ1.add (isLimb_one some_)).congr (b := q1 + 2) (by ring))
          (isR.sub (IsLimb.self d)) (by rw [isN]; linarith) lowX (by rw [isB]; exact highX) (by linarith)
          (by linarith) (by rw [isB]; linarith)
      · have fewer : r < d.toNat := by rw [BitVec.le_def] at outside; omega
        rw [if_neg outside]
        obtain ⟨lowX, highX⟩ := range (q1 + 1) (by linarith) (by linarith)
        exact digit_of_isLimb isQ1 isR (by rw [isN]; linarith) lowX (by rw [isB]; exact highX) positive
          fewer (by rw [isB]; linarith)

/-! ## Two limbs -/

/-- A quotient of a limb and a remainder of two. -/
theorem digit_of_rep {n d : Nat} {q r1 r0 : BitVec w} {a b : Int} (isQ : IsLimb q a) (repR : Rep 2 [r0, r1] b)
    (whole : (n : Int) = a * d + b) (lowQ : 0 ≤ a) (highQ : a < radix w) (lowR : 0 ≤ b) (highR : b < d)
    (below : (d : Int) ≤ (radix w : Int) ^ 2) :
    n = q.toNat * d + val [r0, r1] ∧ val [r0, r1] < d := by
  have eqQ := isQ.eq lowQ highQ
  have eqR := repR.eq lowR (lt_of_lt_of_le highR below)
  rw [← eqQ, ← eqR] at whole
  rw [← eqR] at highR
  exact ⟨by exact_mod_cast whole, by exact_mod_cast highR⟩

/-- The comparison of two double limbs by their halves. -/
theorem pair_le_iff (a1 a0 b1 b0 : BitVec w) :
    (a1 ≤ b1 ∧ (a1 < b1 ∨ a0 ≤ b0)) ↔ val [a0, a1] ≤ val [b0, b1] := by
  have smallA := toNat_lt a0
  have smallB := toNat_lt b0
  rw [val_two, val_two, BitVec.le_def, BitVec.lt_def, BitVec.le_def]
  rcases lt_trichotomy a1.toNat b1.toNat with less | same | more
  · have scaled : radix w * (a1.toNat + 1) ≤ radix w * b1.toNat := mul_le_mul_left _ less
    rw [mul_add, mul_one] at scaled
    exact ⟨fun _ => by omega, fun _ => ⟨le_of_lt less, .inl less⟩⟩
  · rw [same]
    omega
  · have scaled : radix w * (b1.toNat + 1) ≤ radix w * a1.toNat := mul_le_mul_left _ more
    rw [mul_add, mul_one] at scaled
    exact ⟨fun wrong => by omega, fun wrong => by omega⟩

/-- A double limb reaches a limb's place when its upper half reaches the limb. -/
theorem high_le_iff (q r1 r0 : BitVec w) : q ≤ r1 ↔ radix w * q.toNat ≤ val [r0, r1] := by
  have small := toNat_lt r0
  rw [val_two, BitVec.le_def]
  constructor
  · intro le
    have scaled : radix w * q.toNat ≤ radix w * r1.toNat := mul_le_mul_left _ le
    omega
  · intro le
    by_contra more
    have scaled : radix w * (r1.toNat + 1) ≤ radix w * q.toNat := mul_le_mul_left _ (by omega)
    rw [mul_add, mul_one] at scaled
    omega

theorem divrem3by2_spec (some_ : 0 < w) {n2 n1 n0 d1 d0 dinv : BitVec w} (normal : radix w ≤ 2 * d1.toNat)
    (inverse : IsInverse (radix w) ((radix w : Int) ^ 3) (val [d0, d1] : Nat) dinv.toNat)
    (less : val [n1, n2] < val [d0, d1]) :
    val [n0, n1, n2] = (divrem3by2 n2 n1 n0 d1 d0 dinv).1.toNat * val [d0, d1] +
        val [(divrem3by2 n2 n1 n0 d1 d0 dinv).2.2, (divrem3by2 n2 n1 n0 d1 d0 dinv).2.1] ∧
      val [(divrem3by2 n2 n1 n0 d1 d0 dinv).2.2, (divrem3by2 n2 n1 n0 d1 d0 dinv).2.1] < val [d0, d1] := by
  have product := mulWide_spec n2 dinv
  have repP : Rep 2 [(mulWide n2 dinv).1, (mulWide n2 dinv).2] (n2.toNat * dinv.toNat) :=
    Rep.of_eq rfl (by rw [val_two, product]; push_cast; rfl)
  have repQ := rep_add2 some_ repP (rep_two n1 (IsLimb.self n2))
  rw [divrem3by2]
  generalize add2 (mulWide n2 dinv).2 (mulWide n2 dinv).1 n2 n1 = q at repQ ⊢
  clear repP product
  obtain ⟨B, isB⟩ : ∃ B : Int, (radix w : Int) = B := ⟨_, rfl⟩
  have base : 0 < B := by rw [← isB]; exact_mod_cast radix_pos w
  rw [isB] at inverse
  have isD : ((val [d0, d1] : Nat) : Int) = d1.toNat * B + d0.toNat := by
    rw [val_two]
    push_cast
    rw [isB]
    ring
  have isN : ((val [n0, n1, n2] : Nat) : Int) = n2.toNat * B ^ 2 + n1.toNat * B + n0.toNat := by
    rw [val_cons, val_two]
    push_cast
    rw [isB]
    ring
  have upper : (n2.toNat : Int) * B + n1.toNat < (val [d0, d1] : Nat) := by
    have cast : (val [n1, n2] : Int) < (val [d0, d1] : Nat) := by exact_mod_cast less
    rw [val_two n2 n1] at cast
    push_cast at cast
    rw [isB] at cast
    linarith
  have sizes : (d1.toNat : Int) < B ∧ (0 : Int) < d1.toNat ∧ (d0.toNat : Int) < B ∧ B ≤ 2 * d1.toNat ∧
      (n1.toNat : Int) < B ∧ (n0.toNat : Int) < B := by
    have := toNat_lt d1
    have := toNat_lt d0
    have := toNat_lt n1
    have := toNat_lt n0
    omega
  obtain ⟨highD1, lowD1, highD0, normalD, highN1, highN0⟩ := sizes
  have nonneg : ∀ x : BitVec w, (0 : Int) ≤ x.toNat := fun x => Int.natCast_nonneg _
  have repD : Rep 2 [d0, d1] (val [d0, d1] : Nat) := Rep.self [d0, d1]
  have compare : ∀ r1 r0 : BitVec w, (d1 ≤ r1 ∧ (d1 < r1 ∨ d0 ≤ r0)) ↔ val [d0, d1] ≤ val [r0, r1] :=
    fun r1 r0 => pair_le_iff d1 d0 r1 r0
  generalize val [d0, d1] = d at inverse isD upper repD compare ⊢
  obtain ⟨_, divisor, below⟩ := divisor_two isD (nonneg d0) highD0 lowD1 highD1
  have normal2 : B ^ 2 ≤ 2 * d := by
    have le : B * B ≤ 2 * d1.toNat * B := mul_le_mul_of_nonneg_right normalD (le_of_lt base)
    have := nonneg d0
    linarith
  -- the candidate's quotient and its lower limb
  obtain ⟨q1, q0, candidate, lowQ0, highQ0⟩ : ∃ q1 q0 : Int,
      q1 * B + q0 = (B + dinv.toNat) * n2.toNat + n1.toNat ∧ 0 ≤ q0 ∧ q0 < B :=
    ⟨_, _, Int.ediv_mul_add_emod _ B, Int.emod_nonneg _ (ne_of_gt base), Int.emod_lt_of_pos _ base⟩
  obtain ⟨isQ0, isQ1⟩ := halves_of_rep (x := q0) (y := q1)
    (repQ.congr (by rw [isB]; linear_combination -candidate)) lowQ0 (by rw [isB]; exact highQ0)
  have lows := low_two inverse isD (nonneg d0) highD0 lowD1 highD1 (nonneg n2) (nonneg n1) (nonneg n0) candidate
    lowQ0 highQ0
  have highs := high_two inverse isD (nonneg d0) highD0 lowD1 highD1 (nonneg n2) (nonneg n1) highN1 highN0
    upper candidate
  have few := candidate_two inverse (nonneg n1) upper base (nonneg dinv)
  have lowX : 0 ≤ q1 := by
    have positive : 0 ≤ (B + dinv.toNat) * n2.toNat + n1.toNat := by
      have := nonneg dinv
      positivity
    by_contra negative
    have le : (q1 + 1) * B ≤ 0 := mul_nonpos_of_nonpos_of_nonneg (by omega) (le_of_lt base)
    linarith
  have highX : q1 < B := by
    by_contra large
    have le : B * B ≤ q1 * B := mul_le_mul_of_nonneg_right (by omega) (le_of_lt base)
    linarith
  have eqQ1 := isQ1.eq lowX (by rw [isB]; exact highX)
  have repT : Rep 2 [(mulWide d0 q.1).1, (mulWide d0 q.1).2] (d0.toNat * q1) :=
    Rep.of_eq rfl (by rw [val_two, mulWide_spec]; push_cast; rw [eqQ1])
  have repS := rep_sub2 some_ (rep_sub2 some_
    (rep_two n0 ((IsLimb.self n1).sub ((IsLimb.self d1).mul isQ1))) repD) repT
  have repR : Rep 2 _ (n2.toNat * B ^ 2 + n1.toNat * B + n0.toNat - (q1 + 1) * d) :=
    (repS.shift n2.toNat).congr (by rw [isB, isD]; ring)
  generalize sub2 (sub2 (n1 - d1 * q.1) n0 d1 d0).1 (sub2 (n1 - d1 * q.1) n0 d1 d0).2 (mulWide d0 q.1).2
    (mulWide d0 q.1).1 = s at repR ⊢
  clear repS repT repQ
  have isSum := isQ1.add (isLimb_one some_)
  have numerator : (n2.toNat : Int) * B ^ 2 + n1.toNat * B + n0.toNat < d * B := by
    have le : ((n2.toNat : Int) * B + n1.toNat + 1) * B ≤ d * B :=
      mul_le_mul_of_nonneg_right (by omega) (le_of_lt base)
    linarith
  have numeratorLow : 0 ≤ (n2.toNat : Int) * B ^ 2 + n1.toNat * B + n0.toNat := by positivity
  have range := fun x : Int => digit_range (x := x) divisor numeratorLow numerator
  generalize isRest : (n2.toNat : Int) * B ^ 2 + n1.toNat * B + n0.toNat - (q1 + 1) * d = r at lows highs repR
  have power : (radix w : Int) ^ 2 = B ^ 2 := by rw [isB]
  have passes : q.2 ≤ s.1 ↔ B * q0 ≤ val [s.2, s.1] := by
    rw [high_le_iff q.2 s.1 s.2, ← isQ0, ← isB]
    exact_mod_cast Iff.rfl
  rcases lt_or_ge r 0 with negative | positive
  · have eqS : (val [s.2, s.1] : Int) = r + B ^ 2 :=
      ((repR.shift 1).congr (y := r + B ^ 2) (by rw [power]; ring)).eq (by linarith) (by rw [power]; linarith)
    rw [decide_eq_true (passes.mpr (by rw [eqS]; linarith)), mask_true, BitVec.allOnes_and, BitVec.allOnes_and]
    have repSum := rep_add2 some_ repR repD
    generalize add2 s.1 s.2 d1 d0 = t at repSum ⊢
    have eqSum := repSum.eq (by linarith) (by rw [power]; linarith)
    rw [if_neg (by rw [compare]; omega)]
    obtain ⟨lowY, highY⟩ := range q1 (by linarith) (by linarith)
    exact digit_of_rep ((isLimb_add_allOnes isSum).congr (by ring)) repSum (by rw [isN]; linarith) lowY
      (by rw [isB]; exact highY) (by linarith) (by linarith) (by rw [power]; linarith)
  · have highR : r < B ^ 2 := by
      by_contra large
      have le : q0 * B ≤ B * B := mul_le_mul_of_nonneg_right (le_of_lt highQ0) (le_of_lt base)
      exact highs ⟨by linarith, by linarith⟩
    have eqS := repR.eq positive (by rw [power]; exact highR)
    by_cases beyond : q.2 ≤ s.1
    · have passed : q0 * B ≤ r := by
        have := passes.mp beyond
        rw [eqS] at this
        linarith
      have room : r < B ^ 2 - d := by
        by_contra large
        exact highs ⟨by linarith, passed⟩
      rw [decide_eq_true beyond, mask_true, BitVec.allOnes_and, BitVec.allOnes_and]
      have repSum := rep_add2 some_ repR repD
      generalize add2 s.1 s.2 d1 d0 = t at repSum ⊢
      have eqSum := repSum.eq (by linarith) (by rw [power]; linarith)
      rw [if_pos (by rw [compare]; omega)]
      obtain ⟨lowY, highY⟩ := range (q1 + 1) (by linarith) (by linarith)
      exact digit_of_rep (((isLimb_add_allOnes isSum).add (isLimb_one some_)).congr (by ring))
        ((rep_sub2 some_ repSum repD).congr (y := r) (by ring)) (by rw [isN]; linarith) lowY
        (by rw [isB]; exact highY) positive (by linarith) (by rw [power]; linarith)
    · rw [decide_eq_false beyond, mask_false, BitVec.zero_and, BitVec.zero_and, BitVec.add_zero]
      have repSum := rep_add2 some_ repR (rep_two 0#w (IsLimb.self 0#w))
      rw [zero_toNat, cast_zero, mul_zero, add_zero, add_zero] at repSum
      generalize add2 s.1 s.2 0#w 0#w = t at repSum ⊢
      have eqSum := repSum.eq positive (by rw [power]; exact highR)
      by_cases outside : d1 ≤ t.1 ∧ (d1 < t.1 ∨ d0 ≤ t.2)
      · have more : (d : Int) ≤ r := by rw [compare] at outside; omega
        rw [if_pos outside]
        obtain ⟨lowY, highY⟩ := range (q1 + 2) (by linarith) (by linarith)
        exact digit_of_rep ((isSum.add (isLimb_one some_)).congr (b := q1 + 2) (by ring))
          (rep_sub2 some_ repSum repD) (by rw [isN]; linarith) lowY (by rw [isB]; exact highY) (by linarith)
          (by linarith) (by rw [power]; linarith)
      · have fewer : r < d := by rw [compare] at outside; omega
        rw [if_neg outside]
        obtain ⟨lowY, highY⟩ := range (q1 + 1) (by linarith) (by linarith)
        exact digit_of_rep isSum repSum (by rw [isN]; linarith) lowY (by rw [isB]; exact highY) positive
          fewer (by rw [power]; linarith)

theorem inverse_of_isLimb {x : BitVec w} {v : Int} {d1 d0 : BitVec w} (normal : radix w ≤ 2 * d1.toNat)
    (isV : IsLimb x v) (inverse : IsInverse (radix w) ((radix w : Int) ^ 3) (val [d0, d1] : Nat) v) :
    IsInverse (radix w) ((radix w : Int) ^ 3) (val [d0, d1] : Nat) x.toNat := by
  have positive := radix_pos w
  have below := toNat_lt d1
  have smallD := toNat_lt d0
  have base : (0 : Int) < radix w := by exact_mod_cast positive
  have isD : ((val [d0, d1] : Nat) : Int) = d1.toNat * radix w + d0.toNat := by
    rw [val_two]
    push_cast
    ring
  have product : (radix w : Int) * radix w ≤ 2 * d1.toNat * radix w :=
    mul_le_mul_of_nonneg_right (by exact_mod_cast normal) (le_of_lt base)
  have most : (d1.toNat : Int) * radix w ≤ (radix w - 1) * radix w :=
    mul_le_mul_of_nonneg_right (by omega) (le_of_lt base)
  have lowD : (0 : Int) ≤ d0.toNat := Int.natCast_nonneg _
  have highD : (d0.toNat : Int) < radix w := by exact_mod_cast smallD
  have squares : (0 : Int) < radix w * radix w := mul_pos base base
  rw [isV.eq (inverse.low (by rw [isD]; linarith) ?_) (inverse.high (by rw [isD]; linarith) ?_)]
  · exact inverse
  · calc (radix w : Int) * (val [d0, d1] : Nat) < radix w * (radix w * radix w) := by
          refine mul_lt_mul_of_pos_left ?_ base
          rw [isD]
          linarith
      _ = (radix w : Int) ^ 3 := by ring
  · calc (radix w : Int) ^ 3 = radix w * (radix w * radix w) := by ring
      _ ≤ radix w * (2 * (val [d0, d1] : Nat)) := by
          refine mul_le_mul_of_nonneg_left ?_ (le_of_lt base)
          rw [isD]
          linarith
      _ = 2 * radix w * (val [d0, d1] : Nat) := by ring

/-- The reciprocal of the upper limb after the lower one is added to what it leaves: `p` is
what the product with the upper limb is above the last multiple of the radix. -/
theorem adjusted_spec (some_ : 0 < w) {d1 d0 : BitVec w} (normal : radix w ≤ 2 * d1.toNat) :
    0 ≤ ((adjusted d1 d0).1.toNat : Int) ∧
      ((radix w : Int) + (adjusted d1 d0).1.toNat) * d1.toNat + d0.toNat =
        (radix w : Int) ^ 2 - radix w + (adjusted d1 d0).2.toNat ∧
      (radix w : Int) ≤ (adjusted d1 d0).2.toNat + d1.toNat := by
  have inverse := invertLimb_spec normal
  have below := toNat_lt d1
  have smallD := toNat_lt d0
  have smallV := toNat_lt (invertLimb d1)
  unfold adjusted
  dsimp only
  generalize invertLimb d1 = v at inverse smallV ⊢
  obtain ⟨B, isB⟩ : ∃ B : Int, (radix w : Int) = B := ⟨_, rfl⟩
  rw [isB] at inverse ⊢
  obtain ⟨least, most⟩ := inverse
  obtain ⟨k, isK⟩ : ∃ k, (B + v.toNat) * d1.toNat = B ^ 2 - k := ⟨B ^ 2 - (B + v.toNat) * d1.toNat, by ring⟩
  have sizes : (d1.toNat : Int) < B ∧ (d0.toNat : Int) < B ∧ (v.toNat : Int) < B ∧ B ≤ 2 * d1.toNat ∧
      0 < k ∧ k ≤ d1.toNat ∧ 0 < B := by
    refine ⟨by omega, by omega, by omega, by omega, by linarith, by linarith, ?_⟩
    rw [← isB]
    exact_mod_cast radix_pos w
  obtain ⟨highD1, highD0, highV, normalD, lowK, highK, base⟩ := sizes
  have isP : IsLimb (d1 * v + d0) (d0.toNat - k) := by
    refine (((IsLimb.self d1).mul (IsLimb.self v)).add (IsLimb.self d0)).shift (d1.toNat - B) |>.congr ?_
    rw [isB]
    linear_combination isK
  generalize d1 * v + d0 = p at isP ⊢
  rcases lt_or_ge (d0.toNat : Int) k with less | more
  · have eqP : (p.toNat : Int) = B + d0.toNat - k :=
      ((isP.shift 1).congr (b := B + d0.toNat - k) (by rw [isB]; ring)).eq (by omega) (by rw [isB]; omega)
    have stays : ¬ p < d0 := by rw [BitVec.lt_def]; omega
    rw [if_neg stays]
    refine ⟨Int.natCast_nonneg _, ?_, ?_⟩
    · dsimp only
      rw [eqP, isK]
      ring
    · dsimp only
      omega
  · have eqP : (p.toNat : Int) = d0.toNat - k := isP.eq (by omega) (by rw [isB]; omega)
    have passes : p < d0 := by rw [BitVec.lt_def]; omega
    rw [if_pos passes]
    have isV : IsLimb (v - 1#w) (v.toNat - 1) := (IsLimb.self v).sub (isLimb_one some_)
    have isRest : IsLimb (p - d1) (d0.toNat - k - d1.toNat) := isP.sub (IsLimb.self d1)
    have product : (v.toNat : Int) * d1.toNat = B * (B - d1.toNat) - k := by linear_combination isK
    dsimp only
    by_cases again : d1 ≤ p
    · have reached : (d1.toNat : Int) ≤ d0.toNat - k := by rw [BitVec.le_def] at again; omega
      rw [decide_eq_true again, mask_true, BitVec.allOnes_and]
      have isLast := (isRest.sub (IsLimb.self d1)).shift 1
      have eqV : ((v - 1#w + BitVec.allOnes w).toNat : Int) = v.toNat - 2 := by
        refine ((isLimb_add_allOnes isV).congr (b := v.toNat - 2) (by ring)).eq ?_ (by rw [isB]; omega)
        -- the reciprocal is large where the upper limb is small
        by_contra small
        have few : (v.toNat : Int) * d1.toNat ≤ 1 * d1.toNat :=
          mul_le_mul_of_nonneg_right (by omega) (by omega)
        have room : B * (k + 1) ≤ B * (B - d1.toNat) := mul_le_mul_of_nonneg_left (by omega) (le_of_lt base)
        have scaled : 0 ≤ (B - 1) * k := mul_nonneg (by omega) (le_of_lt lowK)
        linarith
      have eqLast : ((p - d1 - d1).toNat : Int) = d0.toNat - k - d1.toNat - d1.toNat + B :=
        (isLast.congr (by rw [isB]; ring)).eq (by omega) (by rw [isB]; omega)
      rw [eqV, eqLast]
      refine ⟨by rw [← eqV]; exact Int.natCast_nonneg _, by linear_combination isK, by omega⟩
    · have below' : (d0.toNat : Int) - k < d1.toNat := by rw [BitVec.le_def] at again; omega
      rw [decide_eq_false again, mask_false, BitVec.zero_and, BitVec.add_zero, BitVec.sub_zero]
      have eqV : ((v - 1#w).toNat : Int) = v.toNat - 1 := by
        refine isV.eq ?_ (by rw [isB]; omega)
        by_contra small
        have zero : (v.toNat : Int) = 0 := by omega
        rw [zero, zero_mul] at product
        have room : B * 1 ≤ B * (B - d1.toNat) := mul_le_mul_of_nonneg_left (by omega) (le_of_lt base)
        linarith
      have eqLast : ((p - d1).toNat : Int) = d0.toNat - k - d1.toNat + B :=
        ((isRest.shift 1).congr (by rw [isB]; ring)).eq (by omega) (by rw [isB]; omega)
      rw [eqV, eqLast]
      refine ⟨by rw [← eqV]; exact Int.natCast_nonneg _, by linear_combination isK, by omega⟩

theorem invertPi1_spec (some_ : 0 < w) {d1 d0 : BitVec w} (normal : radix w ≤ 2 * d1.toNat) :
    IsInverse (radix w) ((radix w : Int) ^ 3) (val [d0, d1] : Nat) (invertPi1 d1 d0).toNat := by
  obtain ⟨lowV, value, near⟩ := @adjusted_spec _ some_ d1 d0 normal
  have product := mulWide_spec d0 (adjusted d1 d0).1
  have smallP := toNat_lt (adjusted d1 d0).2
  unfold invertPi1
  dsimp only
  generalize adjusted d1 d0 = r at lowV value near product smallP ⊢
  have isV := IsLimb.self r.1
  have compare : ∀ p : BitVec w, (d1 ≤ p ∧ (d1 < p ∨ d0 ≤ (mulWide d0 r.1).1)) ↔
      val [d0, d1] ≤ val [(mulWide d0 r.1).1, p] := fun p => pair_le_iff d1 d0 p _
  have smallT := toNat_lt (mulWide d0 r.1).2
  have smallL := toNat_lt (mulWide d0 r.1).1
  generalize mulWide d0 r.1 = t at product compare smallT smallL ⊢
  have double : radix w * radix w ≤ 2 * val [d0, d1] := by
    have le : radix w * radix w ≤ radix w * (2 * d1.toNat) := mul_le_mul_left _ normal
    rw [val_two]
    linarith
  have isD : ((val [d0, d1] : Nat) : Int) = d0.toNat + radix w * d1.toNat := by
    rw [val_two]
    push_cast
    rfl
  have isProduct : (t.1.toNat : Int) + radix w * t.2.toNat = d0.toNat * r.1.toNat := by
    exact_mod_cast product
  have whole : ((radix w : Int) + r.1.toNat) * (val [d0, d1] : Nat) =
      (radix w : Int) ^ 3 - (radix w : Int) ^ 2 + (r.2.toNat + t.2.toNat) * radix w + t.1.toNat := by
    rw [isD]
    linear_combination (radix w : Int) * value - isProduct
  have base : (0 : Int) < radix w := by exact_mod_cast radix_pos w
  have lowT : (0 : Int) ≤ t.1.toNat := Int.natCast_nonneg _
  have highT : (t.1.toNat : Int) < radix w := by exact_mod_cast smallL
  have lowD0 : (0 : Int) ≤ d0.toNat := Int.natCast_nonneg _
  rcases lt_or_ge (r.2.toNat + t.2.toNat) (radix w) with fits | carries
  · have eqP : (r.2 + t.2).toNat = r.2.toNat + t.2.toNat := by
      rw [BitVec.toNat_add]
      exact mod_eq_of_lt fits
    have stays : ¬ r.2 + t.2 < t.2 := by rw [BitVec.lt_def]; omega
    rw [if_neg stays]
    have least : (radix w : Int) * radix w ≤ (r.2.toNat + d1.toNat) * radix w :=
      mul_le_mul_of_nonneg_right near (le_of_lt base)
    have most : ((r.2.toNat : Int) + t.2.toNat) * radix w ≤ (radix w - 1) * radix w :=
      mul_le_mul_of_nonneg_right (by omega) (le_of_lt base)
    have rest : (0 : Int) ≤ t.2.toNat * radix w := mul_nonneg (Int.natCast_nonneg _) (le_of_lt base)
    constructor
    · rw [whole, isD]
      linarith
    · rw [whole]
      linarith
  · have eqP : (r.2 + t.2).toNat + radix w = r.2.toNat + t.2.toNat := by
      rw [BitVec.toNat_add]
      change (r.2.toNat + t.2.toNat) % radix w + radix w = _
      rw [mod_eq_sub_mod carries, mod_eq_of_lt (by omega)]
      omega
    have passes : r.2 + t.2 < t.2 := by rw [BitVec.lt_def]; omega
    rw [if_pos passes]
    have isPair : ((val [t.1, r.2 + t.2] : Nat) : Int) =
        (r.2.toNat + t.2.toNat) * radix w - (radix w : Int) ^ 2 + t.1.toNat := by
      have cast : ((r.2 + t.2).toNat : Int) + radix w = r.2.toNat + t.2.toNat := by exact_mod_cast eqP
      rw [val_two]
      push_cast
      linear_combination (radix w : Int) * cast
    have smallPair : val [t.1, r.2 + t.2] < radix w * radix w := by
      have room : radix w * ((r.2 + t.2).toNat + 1) ≤ radix w * radix w :=
        mul_le_mul_left _ (toNat_lt _)
      rw [mul_add, mul_one] at room
      rw [val_two]
      omega
    have lowPair : (0 : Int) ≤ (val [t.1, r.2 + t.2] : Nat) := Int.natCast_nonneg _
    have isOne := isLimb_one some_
    by_cases again : d1 ≤ r.2 + t.2 ∧ (d1 < r.2 + t.2 ∨ d0 ≤ t.1)
    · rw [if_pos again]
      have reached : (val [d0, d1] : Int) ≤ (val [t.1, r.2 + t.2] : Nat) := by
        exact_mod_cast (compare _).mp again
      have room : ((val [t.1, r.2 + t.2] : Nat) : Int) < 2 * (val [d0, d1] : Nat) := by
        exact_mod_cast lt_of_lt_of_le smallPair double
      refine inverse_of_isLimb normal (((isV.sub isOne).sub isOne)) ⟨?_, ?_⟩
      · linarith
      · linarith
    · rw [if_neg again]
      have fewer : ((val [t.1, r.2 + t.2] : Nat) : Int) < (val [d0, d1] : Nat) := by
        have := (not_congr (compare _)).mp again
        exact_mod_cast Nat.lt_of_not_le this
      refine inverse_of_isLimb normal (isV.sub isOne) ⟨?_, ?_⟩
      · linarith
      · linarith

/-! ## Exact divisions -/

def IsWidth (w : Nat) : Prop := w = 32 ∨ w = 64

theorem IsWidth.some (isWidth : IsWidth w) : 0 < w := by rcases isWidth with rfl | rfl <;> decide

theorem IsWidth.radix_large (isWidth : IsWidth w) : 2 ^ 32 ≤ radix w := by
  rcases isWidth with rfl | rfl <;> decide

theorem toNat_thirdMax (isWidth : IsWidth w) : 3 * (thirdMax w).toNat + 1 = radix w := by
  rcases isWidth with rfl | rfl <;> decide

theorem inv3_spec (isWidth : IsWidth w) : 3 * (inv3 w).toNat % radix w = 1 := by
  rcases isWidth with rfl | rfl <;> decide

/-- A quotient limb by an inverse of the divisor up to the radix. -/
theorem quotient_limb (l : BitVec w) {d dinv : BitVec w} (inverse : d.toNat * dinv.toNat % radix w = 1) :
    (l * dinv).toNat * d.toNat % radix w = l.toNat := by
  have small := toNat_lt l
  have product : (l * dinv).toNat = l.toNat * dinv.toNat % radix w := BitVec.toNat_mul ..
  rw [product, mod_mul_mod, mul_assoc, mul_comm dinv.toNat, ← mul_mod_mod, inverse,
    mul_one, mod_eq_of_lt small]

/-- The carry of a quotient limb is what three times the limb leaves above the radix. -/
theorem carry3_toNat (isWidth : IsWidth w) (q : BitVec w) {b : BitVec w} (small : b.toNat ≤ 1) :
    (b + bit (decide (thirdMax w < q)) + bit (decide (thirdMax w * 2#w < q))).toNat =
      b.toNat + q.toNat * 3 / radix w := by
  have third := toNat_thirdMax isWidth
  have large := isWidth.radix_large
  have smallQ := toNat_lt q
  have two : (2#w).toNat = 2 := toNat_ofNat_of_lt (by omega)
  have twoThirds : (thirdMax w * 2#w).toNat = (thirdMax w).toNat * 2 := by
    rw [BitVec.toNat_mul, two]
    exact Nat.mod_eq_of_lt (by change _ < radix w; omega)
  rw [BitVec.toNat_add, BitVec.toNat_add, toNat_bit isWidth.some, toNat_bit isWidth.some]
  change ((b.toNat + _) % radix w + _) % radix w = _
  rw [Nat.mod_add_mod]
  simp only [BitVec.lt_def, twoThirds]
  rcases lt_or_ge (thirdMax w).toNat q.toNat with one | none_
  · rcases lt_or_ge ((thirdMax w).toNat * 2) q.toNat with both | once
    · have quotient : q.toNat * 3 / radix w = 2 := by
        rw [Nat.div_eq_iff (by omega)]
        omega
      rw [quotient, decide_eq_true one, decide_eq_true both, Bool.toNat_true,
        Nat.mod_eq_of_lt (by omega)]
    · have quotient : q.toNat * 3 / radix w = 1 := by
        rw [Nat.div_eq_iff (by omega)]
        omega
      rw [quotient, decide_eq_true one, decide_eq_false (by omega), Bool.toNat_true, Bool.toNat_false,
        Nat.mod_eq_of_lt (by omega)]
  · have quotient : q.toNat * 3 / radix w = 0 := Nat.div_eq_of_lt (by omega)
    rw [quotient, decide_eq_false (by omega), decide_eq_false (by omega), Bool.toNat_false,
      Nat.mod_eq_of_lt (by omega)]

theorem divexactBy3From_spec (isWidth : IsWidth w) : ∀ (up : List (BitVec w)) (c : BitVec w),
    (divexactBy3From c up).length = up.length ∧
      ∃ rest, val (divexactBy3From c up) * 3 + c.toNat = val up + radix w ^ up.length * rest := by
  intro up
  induction up with
  | nil => exact fun c => ⟨rfl, c.toNat, by simp [divexactBy3From]⟩
  | cons u up ih =>
    intro c
    obtain ⟨first, small⟩ := subb_spec isWidth.some u c zero_toNat_le
    rw [zero_toNat, add_zero] at first
    have three : (3#w).toNat = 3 := toNat_ofNat_of_lt (by have := isWidth.radix_large; omega)
    have limb : ((subb u c 0#w).1 * inv3 w).toNat * 3 % radix w = (subb u c 0#w).1.toNat := by
      have inverse : (3#w).toNat * (inv3 w).toNat % radix w = 1 := by rw [three]; exact inv3_spec isWidth
      have eq := quotient_limb (subb u c 0#w).1 inverse
      rwa [three] at eq
    obtain ⟨length, rest, value⟩ := ih ((subb u c 0#w).2 +
      bit (decide (thirdMax w < (subb u c 0#w).1 * inv3 w)) +
        bit (decide (thirdMax w * 2#w < (subb u c 0#w).1 * inv3 w)))
    rw [divexactBy3From]
    generalize divexactBy3From _ up = res at length value ⊢
    generalize (subb u c 0#w).1 * inv3 w = q at limb value ⊢
    rw [carry3_toNat isWidth q small] at value
    refine ⟨congrArg Nat.succ length, rest, ?_⟩
    have parts := mod_add_div (q.toNat * 3) (radix w)
    rw [limb] at parts
    have scaled := congrArg (radix w * ·) value
    simp only [mul_add] at scaled
    rw [val_cons, val_cons, length_cons, pow_succ]
    linarith

/-- Division by an odd number of a vector is determined up to the power of the radix. -/
theorem rep_of_mul {m : Nat} {a q : List (BitVec w)} {x : Int} {d rest : Nat} (odd : d % 2 = 1)
    (repA : Rep m a (d * x)) (length : q.length = m)
    (value : val q * d = val a + radix w ^ m * rest) : Rep m q x := by
  refine ⟨length, ?_⟩
  have coprime : IsCoprime ((radix w : Int) ^ m) (d : Int) := by
    have two : IsCoprime (2 : Int) (d : Int) := by
      refine ⟨-(d / 2 : Nat), 1, ?_⟩
      have := div_add_mod d 2
      push_cast
      omega
    rw [radix, cast_pow]
    exact (two.pow_left).pow_left
  have cast : (val q : Int) * d = val a + (radix w : Int) ^ m * rest := by exact_mod_cast value
  obtain ⟨c, isC⟩ := Int.modEq_iff_dvd.mp repA.2
  refine Int.modEq_iff_dvd.mpr (coprime.dvd_of_dvd_mul_right (Dvd.intro (c - rest) ?_))
  rw [mul_sub, ← isC]
  linarith

theorem divexact1OddFrom_spec (some_ : 0 < w) {d dinv : BitVec w}
    (inverse : d.toNat * dinv.toNat % radix w = 1) (some_d : 0 < d.toNat) :
    ∀ (up : List (BitVec w)) (cy : BitVec w), (divexact1OddFrom d dinv cy up).length = up.length ∧
      ∃ rest, val (divexact1OddFrom d dinv cy up) * d.toNat + cy.toNat =
        val up + radix w ^ up.length * rest := by
  intro up
  induction up with
  | nil => exact fun cy => ⟨rfl, cy.toNat, by simp [divexact1OddFrom]⟩
  | cons u up ih =>
    intro cy
    obtain ⟨first, borrow⟩ := subb_spec some_ u cy zero_toNat_le
    rw [zero_toNat, add_zero] at first
    have limb := quotient_limb (subb u cy 0#w).1 inverse
    have product := mulWide_spec ((subb u cy 0#w).1 * dinv) d
    obtain ⟨length, rest, value⟩ :=
      ih ((mulWide ((subb u cy 0#w).1 * dinv) d).2 + (subb u cy 0#w).2)
    rw [divexact1OddFrom]
    generalize divexact1OddFrom d dinv _ up = res at length value ⊢
    generalize (subb u cy 0#w).1 * dinv = q at limb product value ⊢
    have smallQ := toNat_lt q
    -- the lower half of the product is the limb, and the upper one is below the divisor
    have low : (mulWide q d).1.toNat = (subb u cy 0#w).1.toNat := by
      rw [← limb, ← product, add_mul_mod_self_left, mod_eq_of_lt (toNat_lt _)]
    have high : (mulWide q d).2.toNat < d.toNat := by
      have less : radix w * (mulWide q d).2.toNat < radix w * d.toNat := by
        have below : q.toNat * d.toNat < radix w * d.toNat := mul_lt_mul_of_pos_right smallQ some_d
        omega
      exact Nat.lt_of_mul_lt_mul_left less
    have carry : ((mulWide q d).2 + (subb u cy 0#w).2).toNat =
        (mulWide q d).2.toNat + (subb u cy 0#w).2.toNat := by
      rw [BitVec.toNat_add]
      exact mod_eq_of_lt (by change _ < radix w; have := toNat_lt d; omega)
    rw [carry] at value
    rw [low] at product
    refine ⟨congrArg Nat.succ length, rest, ?_⟩
    have scaled := congrArg (radix w * ·) value
    simp only [mul_add] at scaled
    rw [val_cons, val_cons, length_cons, pow_succ]
    linarith

/-- A step of Newton's doubles the bits of an inverse up to a power of two. -/
theorem binvOdd_steps {d : BitVec w} (odd : d.toNat % 2 = 1) (n : Nat) :
    ∃ z : Int, IsLimb ((List.range n).foldl (fun x _ => x * (2#w - d * x)) d) z ∧
      (2 : Int) ^ (3 * 2 ^ n) ∣ 1 - d.toNat * z := by
  induction n with
  | zero =>
    refine ⟨d.toNat, IsLimb.self d, ?_⟩
    obtain ⟨m, isM⟩ : ∃ m : Int, (d.toNat : Int) = 2 * m + 1 := ⟨d.toNat / 2, by omega⟩
    obtain ⟨c, isC⟩ := Int.even_mul_succ_self m
    refine ⟨-c, ?_⟩
    rw [isM]
    linear_combination (-4) * isC
  | succ n ih =>
    obtain ⟨z, isZ, c, isC⟩ := ih
    rw [range_succ, foldl_append]
    refine ⟨z * (2 - d.toNat * z), ?_, c * c, ?_⟩
    · exact isZ.mul ((IsLimb.ofNat 2).sub ((IsLimb.self d).mul isZ))
    · calc 1 - (d.toNat : Int) * (z * (2 - d.toNat * z)) = (1 - d.toNat * z) * (1 - d.toNat * z) := by ring
        _ = 2 ^ (3 * 2 ^ (n + 1)) * (c * c) := by
          have twice : 3 * 2 ^ (n + 1) = 3 * 2 ^ n + 3 * 2 ^ n := by ring
          rw [isC, twice, pow_add]
          ring

theorem binvOdd_spec (isWidth : IsWidth w) {d : BitVec w} (odd : d.toNat % 2 = 1) :
    d.toNat * (binvOdd d).toNat % radix w = 1 := by
  obtain ⟨z, isZ, divides⟩ := binvOdd_steps odd 6
  have enough : w ≤ 3 * 2 ^ 6 := by rcases isWidth with rfl | rfl <;> decide
  have one : (radix w : Int) ∣ 1 - d.toNat * z := by
    refine Dvd.dvd.trans ?_ divides
    rw [radix, cast_pow]
    exact pow_dvd_pow _ enough
  have large := isWidth.radix_large
  have same : (d.toNat : Int) * (binvOdd d).toNat ≡ 1 [ZMOD radix w] :=
    (isZ.mul_left _).trans (Int.modEq_iff_dvd.mpr one)
  have nat : d.toNat * (binvOdd d).toNat ≡ 1 [MOD radix w] := by
    refine Int.natCast_modEq_iff.mp ?_
    push_cast
    exact same
  rw [nat, mod_eq_of_lt (by omega)]

theorem top_bit {d : BitVec w} (some_ : 0 < w) (top : d.msb = true) : radix w ≤ 2 * d.toNat := by
  rw [BitVec.msb_eq_decide, decide_eq_true_eq] at top
  have double : radix w = 2 * 2 ^ (w - 1) := by
    rw [radix, ← pow_succ']
    congr 1
    omega
  omega

theorem digit_eq {n d q r : Nat} (whole : n = q * d + r) (less : r < d) : q = n / d ∧ r = n % d := by
  have some_ : 0 < d := by omega
  rw [whole]
  refine ⟨?_, ?_⟩
  · rw [mul_comm, mul_add_div some_, div_eq_of_lt less, add_zero]
  · rw [mul_comm, mul_add_mod, mod_eq_of_lt less]

/-- The reciprocal as a quotient. -/
theorem quotient_of_inverse {B P d v : Nat} (some_ : 0 < d)
    (inverse : IsInverse B P d v) : v = (P - 1) / d - B := by
  obtain ⟨least, most⟩ := inverse
  have low : P ≤ (B + v) * d + d := by
    have cast : (P : Int) ≤ (B + v) * d + d := by linarith
    exact_mod_cast cast
  have high : (B + v) * d < P := by exact_mod_cast most
  have quotient : (P - 1) / d = B + v := by
    rw [Nat.div_eq_iff some_]
    omega
  rw [quotient, Nat.add_sub_cancel_left]

structure KernelsExact (w : Nat) : Prop where
  invert_pi1 : ∀ d1 d0 : BitVec w, d1.msb = true →
    (invertPi1 d1 d0).toNat = ((2 ^ w) ^ 3 - 1) / (d1.toNat * 2 ^ w + d0.toNat) - 2 ^ w
  divrem_2by1 : ∀ nh nl d : BitVec w, d.msb = true → nh < d →
    (divrem2by1 nh nl d (invertLimb d)).1.toNat = (nh.toNat * 2 ^ w + nl.toNat) / d.toNat ∧
      (divrem2by1 nh nl d (invertLimb d)).2.toNat = (nh.toNat * 2 ^ w + nl.toNat) % d.toNat
  divrem_3by2 : ∀ n2 n1 n0 d1 d0 : BitVec w, d1.msb = true →
    n2.toNat * 2 ^ w + n1.toNat < d1.toNat * 2 ^ w + d0.toNat →
    let n := (n2.toNat * 2 ^ w + n1.toNat) * 2 ^ w + n0.toNat
    let d := d1.toNat * 2 ^ w + d0.toNat
    let r := divrem3by2 n2 n1 n0 d1 d0 (invertPi1 d1 d0)
    r.1.toNat = n / d ∧ r.2.1.toNat * 2 ^ w + r.2.2.toNat = n % d
  divexact_by3 : ∀ (up : List (BitVec w)) (x : Nat), val up ≡ 3 * x [MOD (2 ^ w) ^ up.length] →
    (divexactBy3 up).length = up.length ∧ val (divexactBy3 up) = x % (2 ^ w) ^ up.length
  divexact_1_odd : ∀ (up : List (BitVec w)) (d : BitVec w) (x : Nat), d.toNat % 2 = 1 →
    val up ≡ d.toNat * x [MOD (2 ^ w) ^ up.length] →
    (divexact1Odd up d (binvOdd d)).length = up.length ∧
      val (divexact1Odd up d (binvOdd d)) = x % (2 ^ w) ^ up.length

theorem Rep.eq_mod {m : Nat} {a : List (BitVec w)} {x : Nat} (rep : Rep m a x) :
    val a = x % (2 ^ w) ^ m := by
  have same : val a ≡ x [MOD (2 ^ w) ^ m] := by
    refine Int.natCast_modEq_iff.mp ?_
    have eq := rep.2
    rw [radix] at eq
    exact_mod_cast eq
  have small : val a < (2 ^ w) ^ m := by
    rw [← rep.1]
    exact val_lt a
  rw [← mod_eq_of_lt small]
  exact same

theorem rep_of_modEq {a : List (BitVec w)} {d x : Nat} (same : val a ≡ d * x [MOD (2 ^ w) ^ a.length]) :
    Rep a.length a (d * (x : Int)) := by
  refine ⟨rfl, ?_⟩
  rw [radix]
  exact_mod_cast Int.natCast_modEq_iff.mpr same

/-- The division kernels are exact at both widths of a limb. -/
theorem kernels_exact (isWidth : IsWidth w) : KernelsExact w where
  invert_pi1 := by
    intro d1 d0 top
    have normal := top_bit isWidth.some top
    have inverse := @invertPi1_spec _ isWidth.some d1 d0 normal
    have isD : d1.toNat * 2 ^ w + d0.toNat = val [d0, d1] := by
      rw [val_two, mul_comm, add_comm]
      rfl
    have positive := radix_pos w
    have some_ : 0 < val [d0, d1] := by
      have product : 0 < radix w * d1.toNat := mul_pos positive (by omega)
      rw [val_two]
      omega
    rw [isD]
    exact quotient_of_inverse some_ (by rw [← cast_pow] at inverse; exact inverse)
  divrem_2by1 := by
    intro nh nl d top less
    obtain ⟨whole, rest⟩ := @divrem2by1_spec _ isWidth.some _ nl _ _ (top_bit isWidth.some top)
      (invertLimb_spec (top_bit isWidth.some top)) (BitVec.lt_def.mp less)
    exact digit_eq whole rest
  divrem_3by2 := by
    intro n2 n1 n0 d1 d0 top less
    have normal := top_bit isWidth.some top
    have upper : val [n1, n2] < val [d0, d1] := by
      rw [val_two, val_two, radix]
      linarith
    obtain ⟨whole, rest⟩ := @divrem3by2_spec _ isWidth.some _ _ n0 _ _ _ normal
      (invertPi1_spec isWidth.some normal) upper
    have isD : d1.toNat * 2 ^ w + d0.toNat = val [d0, d1] := by
      rw [val_two, mul_comm, add_comm]
      rfl
    have isN : (n2.toNat * 2 ^ w + n1.toNat) * 2 ^ w + n0.toNat = val [n0, n1, n2] := by
      rw [val_cons, val_two, radix]
      ring
    dsimp only
    rw [isD, isN]
    obtain ⟨quotient, remainder⟩ := digit_eq whole rest
    refine ⟨quotient, ?_⟩
    rw [← remainder, val_two, mul_comm, add_comm]
    rfl
  divexact_by3 := by
    intro up x same
    obtain ⟨length, rest, value⟩ := divexactBy3From_spec isWidth up 0#w
    rw [zero_toNat, add_zero] at value
    exact ⟨length, Rep.eq_mod (rep_of_mul (d := 3) rfl (rep_of_modEq same) length value)⟩
  divexact_1_odd := by
    intro up d x odd same
    obtain ⟨length, rest, value⟩ :=
      divexact1OddFrom_spec isWidth.some (binvOdd_spec isWidth odd) (by omega) up 0#w
    rw [zero_toNat, add_zero] at value
    exact ⟨length, Rep.eq_mod (rep_of_mul odd (rep_of_modEq same) length value)⟩

theorem kernels_exact_64 : KernelsExact 64 := kernels_exact (.inr rfl)

end Micron.Arb
