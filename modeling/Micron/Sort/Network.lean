import Micron.Sort.Bitonic

/-!
# The vectorised bitonic network

`micron::simd::bitonic_sort_pow2` exchanges whole vectors where the distance of a round is
at least a vector, and single cells otherwise.  Either way a round settles every pair once,
from the values that the pair had in front of the round.
-/

set_option autoImplicit false

namespace Micron.Sort

open Micron.Lib Nat Bool Int

/-- An integral key type: its sign, and its size in bytes. -/
structure KeyType where
  signed : Bool
  size : Nat
  power : size.isPowerOfTwo

abbrev KeyType.Key (K : KeyType) : Type := BitVec (8 * K.size)

def KeyType.less (K : KeyType) (x y : K.Key) : Bool := if K.signed then x.slt y else x.ult y

inductive Target where
  | avx2
  | arm64
  | arm32
  | other

def netHasSimd (K : KeyType) : Target → Bool
  | .avx2 => decide (K.size ≤ 4)
  | .arm64 => decide (K.size ≤ 4)
  | .arm32 => decide (K.size ≤ 4)
  | .other => false

def netLanes (K : KeyType) : Target → Nat
  | .avx2 => 32 / K.size
  | .arm64 => 16 / K.size
  | .arm32 => 16 / K.size
  | .other => 1

section Vectors
variable {α : Type}

def loadLanes (a : Int → α) (place : Int) (lane : Nat) : α := a (place + lane)

def storeLanes (W : Nat) (place : Int) (v : Nat → α) (a : Int → α) (x : Int) : α :=
  if place ≤ x ∧ x < place + W then v (x - place).toNat else a x

/-- Both vectors are loaded in front of the first store. -/
def blockCmpswap (lt : α → α → Bool) (W : Nat) (lo hi : Int) (asc : Bool) (a : Int → α) : Int → α :=
  let A := loadLanes a lo
  let B := loadLanes a hi
  let mn := fun lane => if lt (A lane) (B lane) then A lane else B lane
  let mx := fun lane => if lt (A lane) (B lane) then B lane else A lane
  storeLanes W hi (if asc then mx else mn) (storeLanes W lo (if asc then mn else mx) a)

def scalarStage (lt : α → α → Bool) (n j k : Nat) (a : Int → α) : Int → α :=
  forRange 0 n
    (fun i a =>
      let l : Int := (i.toNat ^^^ j : Nat)
      if l > i then
        let asc := decide (i.toNat &&& k = 0)
        if (asc && lt (a l) (a i)) || (!asc && lt (a i) (a l)) then swapAt a i l else a
      else a) a

/-- The high side of a pair is handled from its low side. -/
def blockStage (lt : α → α → Bool) (W n j k i : Nat) (a : Int → α) : Int → α :=
  if 0 < W ∧ i < n then
    blockStage lt W n j k (i + W)
      (if i &&& j ≠ 0 then a else blockCmpswap lt W i (i + j) (decide (i &&& k = 0)) a)
  else a
termination_by n - i

def netStage (lt : α → α → Bool) (simd : Bool) (W n j k : Nat) (a : Int → α) : Int → α :=
  if simd ∧ j ≥ W then blockStage lt W n j k 0 a else scalarStage lt n j k a

def netHalvings (lt : α → α → Bool) (simd : Bool) (W n k j : Nat) (a : Int → α) : Int → α :=
  if j > 0 then netHalvings lt simd W n k (j / 2) (netStage lt simd W n j k a) else a
termination_by j

def netDoublings (lt : α → α → Bool) (simd : Bool) (W n k : Nat) (a : Int → α) : Int → α :=
  if 0 < k ∧ k ≤ n then netDoublings lt simd W n (2 * k) (netHalvings lt simd W n k (k / 2) a) else a
termination_by n + 1 - k

end Vectors

def bitonicSortPow2 (K : KeyType) (target : Target) (n : Nat) (a : Int → K.Key) : Int → K.Key :=
  if n < 2 then a else netDoublings K.less (netHasSimd K target) (netLanes K target) n 2 a

def bitonicDefault (K : KeyType) (target : Target) (n : Nat) (a : Int → K.Key) : Int → K.Key :=
  if netHasSimd K target ∧ n ≥ 2 ∧ n &&& (n - 1) = 0 then bitonicSortPow2 K target n a
  else bitonic K.less n a

section Rounds
variable {α : Type} {lt : α → α → Bool} {n j k : Nat} {a b c : Int → α}

def settled (lt : α → α → Bool) (k j : Nat) (a : Int → α) (x : Nat) : α :=
  let low := min x (x ^^^ j)
  let high := max x (x ^^^ j)
  if (if low &&& k = 0 then lt (a high) (a low) else lt (a low) (a high)) then a (x ^^^ j : Nat) else a x

/-- The pairs that begin in front of `i` are settled, and nothing else has changed. -/
structure Swept (lt : α → α → Bool) (n k j : Nat) (a : Int → α) (i : Nat) (b : Int → α) : Prop where
  pairs : ∀ x : Nat, x < n → b x = if min x (x ^^^ j) < i then settled lt k j a x else a x
  outside : ∀ z : Int, z < 0 ∨ (n : Int) ≤ z → b z = a z

theorem Swept.start : Swept lt n k j a 0 a :=
  ⟨fun x _ => by rw [if_neg (not_lt_zero _)], fun _ _ => rfl⟩

theorem Swept.unique {i i' : Nat} (first : Swept lt n k j a i b) (second : Swept lt n k j a i' c)
    (le : n ≤ i) (le' : n ≤ i') : b = c := by
  funext z
  by_cases away : z < 0 ∨ (n : Int) ≤ z
  · rw [first.outside z away, second.outside z away]
  · obtain ⟨x, rfl⟩ := eq_ofNat_of_zero_le (by omega : 0 ≤ z)
    have inside : x < n := by omega
    rw [first.pairs x inside, second.pairs x inside, if_pos (by omega), if_pos (by omega)]

theorem settled_low {x : Nat} (forward : x < x ^^^ j) :
    settled lt k j a x =
      if (if x &&& k = 0 then lt (a (x ^^^ j : Nat)) (a x) else lt (a x) (a (x ^^^ j : Nat))) then
        a (x ^^^ j : Nat) else a x := by
  dsimp only [settled]
  rw [min_eq_left (by omega), max_eq_right (by omega)]

theorem settled_high {x : Nat} (forward : x < x ^^^ j) :
    settled lt k j a (x ^^^ j) =
      if (if x &&& k = 0 then lt (a (x ^^^ j : Nat)) (a x) else lt (a x) (a (x ^^^ j : Nat))) then
        a x else a (x ^^^ j : Nat) := by
  dsimp only [settled]
  rw [xor_xor_cancel_right, min_eq_right (by omega), max_eq_left (by omega)]

/-- The first cell of a pair is one of its two cells. -/
theorem low_cases (x j : Nat) :
    (min x (x ^^^ j) = x ∧ x ≤ x ^^^ j) ∨ (min x (x ^^^ j) = x ^^^ j ∧ x ^^^ j < x) := by
  omega

theorem exchange_swept {i : Nat} (inside : i < n) (partner_inside : i ^^^ j < n) (apart : j ≠ 0)
    (swept : Swept lt n k j a i b) : Swept lt n k j a (i + 1) (exchange lt k j i b) := by
  have distinct : i ^^^ j ≠ i := by
    intro same
    have zero : i ^^^ (i ^^^ j) = 0 := by rw [same, Nat.xor_self]
    rw [xor_xor_cancel_left] at zero
    exact apart zero
  have cell := swept.pairs i inside
  have cell' := swept.pairs (i ^^^ j) partner_inside
  rw [xor_xor_cancel_right] at cell'
  unfold exchange
  rw [toNat_natCast]
  by_cases forward : i < i ^^^ j
  · rw [if_neg (by omega)] at cell cell'
    rw [if_pos (by omega), cell, cell']
    have value : ∀ x : Nat, (if (if i &&& k = 0 then lt (a (i ^^^ j : Nat)) (a i)
          else lt (a i) (a (i ^^^ j : Nat))) then swapAt b i (i ^^^ j : Nat) else b) x =
        if x = i then settled lt k j a i
        else if x = i ^^^ j then settled lt k j a (i ^^^ j) else b x := by
      intro x
      rw [settled_low forward, settled_high forward]
      generalize (if i &&& k = 0 then lt (a (i ^^^ j : Nat)) (a i) else lt (a i) (a (i ^^^ j : Nat))) = out
      cases out with
      | true =>
        simp only [if_true]
        split
        next here => rw [here, swapAt_left, cell']
        next =>
          split
          next here => rw [here, swapAt_right, cell]
          next => rw [swapAt_of_ne (by omega) (by omega)]
      | false =>
        simp only [false_eq_true, if_false]
        split
        next here => rw [here, cell]
        next =>
          split
          next here => rw [here, cell']
          next => rfl
    constructor
    · intro x small
      rw [value x]
      by_cases here : x = i
      · rw [if_pos here, here, if_pos (by omega)]
      · rw [if_neg here]
        by_cases there : x = i ^^^ j
        · rw [if_pos there, there, xor_xor_cancel_right, if_pos (by omega)]
        · have notPartner : x ^^^ j ≠ i := by
            rintro rfl
            exact there (xor_xor_cancel_right x j).symm
          rw [if_neg there, swept.pairs x small]
          by_cases before : min x (x ^^^ j) < i
          · rw [if_pos before, if_pos (by omega)]
          · rw [if_neg before, if_neg (by omega)]
    · intro z away
      rw [← swept.outside z away]
      generalize (if i &&& k = 0 then lt (a (i ^^^ j : Nat)) (a i) else lt (a i) (a (i ^^^ j : Nat))) = out
      cases out with
      | true => exact swapAt_of_ne (by omega) (by omega)
      | false => rfl
  · rw [if_neg (by omega)]
    constructor
    · intro x small
      have other : min x (x ^^^ j) ≠ i := by
        intro here
        rcases low_cases x j with ⟨same, le⟩ | ⟨same, less⟩
        · rw [same] at here
          rw [here] at le
          omega
        · rw [same] at here
          rw [← here, xor_xor_cancel_right] at forward
          omega
      rw [swept.pairs x small]
      by_cases before : min x (x ^^^ j) < i
      · rw [if_pos before, if_pos (by omega)]
      · rw [if_neg before, if_neg (by omega)]
    · exact swept.outside

theorem round_swept {m t : Nat} (small : t < m) (k : Nat) (a : Int → α) :
    Swept lt (2 ^ m) k (2 ^ t) a (2 ^ m) (forRange 0 (2 ^ m : Nat) (exchange lt k (2 ^ t)) a) := by
  have run := forRange_inv (f := exchange lt k (2 ^ t)) (s := a)
    (fun i b => Swept lt (2 ^ m) k (2 ^ t) a i.toNat b) (natCast_nonneg (2 ^ m))
    Swept.start ?_
  · rw [toNat_natCast] at run
    exact run
  · intro i b low high swept
    obtain ⟨x, rfl⟩ := eq_ofNat_of_zero_le low
    have inside : x < 2 ^ m := by omega
    have step := exchange_swept inside
      (Nat.xor_lt_two_pow inside (Nat.pow_lt_pow_right (by decide) small))
      (ne_of_gt (Nat.two_pow_pos t)) swept
    exact step

theorem scalarStage_eq (n j k : Nat) (a : Int → α) :
    scalarStage lt n j k a = forRange 0 n (exchange lt k j) a := by
  rw [scalarStage]
  congr 1
  funext i a
  dsimp only [exchange]
  by_cases up : i.toNat &&& k = 0
  · simp only [up, decide_true, Bool.true_and, Bool.not_true, Bool.false_and, Bool.or_false, if_true]
  · simp only [up, decide_false, Bool.false_and, Bool.not_false, Bool.true_and, Bool.false_or, if_false]

/-! ## Rounds of vectors -/

theorem partner_up {t x : Nat} (clear : x &&& 2 ^ t = 0) : x ^^^ 2 ^ t = x + 2 ^ t := by
  have direction := ascending_block (q := x / 2 ^ t) (le_refl t) (Nat.mod_lt x (Nat.two_pow_pos t))
  rw [Nat.div_add_mod, Nat.sub_self, ascending, decide_eq_true clear, Nat.testBit_zero] at direction
  have even : x / 2 ^ t = 2 * (x / 2 ^ t / 2) := by
    have notOdd := of_decide_eq_false ((not_eq_true' _).mp direction.symm)
    omega
  have whole := Nat.div_add_mod x (2 ^ t)
  rw [even, ← mul_assoc, ← pow_succ] at whole
  have pair := partner (q := x / 2 ^ t / 2) (Nat.mod_lt x (Nat.two_pow_pos t))
  rw [whole] at pair
  rw [pair, ← add_assoc, add_right_comm, whole]

theorem partner_down {t x : Nat} (set : x &&& 2 ^ t ≠ 0) : x ^^^ 2 ^ t < x := by
  have direction := ascending_block (q := x / 2 ^ t) (le_refl t) (Nat.mod_lt x (Nat.two_pow_pos t))
  rw [Nat.div_add_mod, Nat.sub_self, ascending, decide_eq_false set, Nat.testBit_zero] at direction
  have odd : x / 2 ^ t = 2 * (x / 2 ^ t / 2) + 1 := by
    have isOdd := of_decide_eq_true ((not_eq_false' _).mp direction.symm)
    omega
  have whole := Nat.div_add_mod x (2 ^ t)
  rw [odd, mul_add, ← mul_assoc, ← pow_succ, mul_one, add_assoc] at whole
  have pair := partner (q := x / 2 ^ t / 2) (Nat.mod_lt x (Nat.two_pow_pos t))
  rw [whole] at pair
  have back := congrArg (· ^^^ 2 ^ t) pair
  rw [Nat.xor_xor_cancel_right] at back
  rw [← back]
  exact Nat.lt_of_lt_of_eq (Nat.add_lt_add_left (by omega) _) whole

/-- The direction is that of the vector's first cell. -/
theorem direction_first {w s q r : Nat} (le : w ≤ s) (small : r < 2 ^ w) :
    (2 ^ w * q + r) &&& 2 ^ s = 0 ↔ (2 ^ w * q) &&& 2 ^ s = 0 := by
  have cell := ascending_block (q := q) le small
  have first := ascending_block (q := q) le (Nat.two_pow_pos w)
  exact decide_eq_decide.mp (cell.trans first.symm)

theorem low_forward (x j : Nat) : min x (x ^^^ j) ≤ min x (x ^^^ j) ^^^ j := by
  rcases low_cases x j with ⟨same, le⟩ | ⟨same, less⟩
  · rw [same]
    exact le
  · rw [same, xor_xor_cancel_right]
    omega

theorem Swept.skip {i i' : Nat} (swept : Swept lt n k j a i b) (le : i ≤ i')
    (without : ∀ x, i ≤ min x (x ^^^ j) → i' ≤ min x (x ^^^ j)) : Swept lt n k j a i' b := by
  constructor
  · intro x small
    rw [swept.pairs x small]
    by_cases before : min x (x ^^^ j) < i
    · rw [if_pos before, if_pos (by omega)]
    · have beyond := without x (by omega)
      rw [if_neg before, if_neg (by omega)]
  · exact swept.outside

section Total
variable (asymm : ∀ x y, lt x y = true → lt y x = false)
  (total : ∀ x y, lt x y = false → lt y x = false → x = y)
include asymm total

/-- Keys of which neither is less are one key, so either comparison orders a pair. -/
theorem pair_flip (x y : α) :
    (if lt x y = true then (x, y) else (y, x)) = if lt y x = true then (y, x) else (x, y) := by
  cases less : lt x y with
  | true => simp only [asymm _ _ less, if_true, false_eq_true, if_false]
  | false =>
    cases greater : lt y x with
    | true => rfl
    | false => rw [total _ _ less greater]

/-- On a linear order the lesser key is the one that the exchange leaves below. -/
theorem vector_low (up : Prop) [Decidable up] (x y : Nat → α) (lane : Nat) :
    (if decide up = true then fun lane => if lt (x lane) (y lane) then x lane else y lane
      else fun lane => if lt (x lane) (y lane) then y lane else x lane) lane =
    if (if up then lt (y lane) (x lane) else lt (x lane) (y lane)) then y lane else x lane := by
  by_cases rising : up
  · have flipped := congrArg Prod.fst (pair_flip asymm total (x lane) (y lane))
    simp only [apply_ite Prod.fst] at flipped
    simp only [rising, decide_true, if_true]
    exact flipped
  · simp only [rising, decide_false, false_eq_true, if_false]

theorem vector_high (up : Prop) [Decidable up] (x y : Nat → α) (lane : Nat) :
    (if decide up = true then fun lane => if lt (x lane) (y lane) then y lane else x lane
      else fun lane => if lt (x lane) (y lane) then x lane else y lane) lane =
    if (if up then lt (y lane) (x lane) else lt (x lane) (y lane)) then x lane else y lane := by
  by_cases rising : up
  · have flipped := congrArg Prod.snd (pair_flip asymm total (x lane) (y lane))
    simp only [apply_ite Prod.snd] at flipped
    simp only [rising, decide_true, if_true]
    exact flipped
  · simp only [rising, decide_false, false_eq_true, if_false]

/-- Of keys in a linear order the least and the greatest are what the exchange leaves. -/
theorem block_swept {m s t w q : Nat} (inside : 2 ^ w * q + 2 ^ t + 2 ^ w ≤ 2 ^ m) (le : w ≤ t) (less : t < s)
    (clear : (2 ^ w * q) &&& 2 ^ t = 0) (swept : Swept lt (2 ^ m) (2 ^ s) (2 ^ t) a (2 ^ w * q) b) :
    Swept lt (2 ^ m) (2 ^ s) (2 ^ t) a (2 ^ w * q + 2 ^ w)
      (blockCmpswap lt (2 ^ w) (2 ^ w * q : Nat) ((2 ^ w * q : Nat) + (2 ^ t : Nat))
        (decide ((2 ^ w * q) &&& 2 ^ s = 0)) b) := by
  have wide : 2 ^ w ≤ 2 ^ t := Nat.pow_le_pow_right (by decide) le
  have positive := Nat.two_pow_pos w
  have partners : ∀ r, r < 2 ^ w → (2 ^ w * q + r) ^^^ 2 ^ t = 2 ^ w * q + r + 2 ^ t :=
    fun r small => partner_up ((direction_first le small).mpr clear)
  have lows : ∀ r, r < 2 ^ w → b (2 ^ w * q + r : Nat) = a (2 ^ w * q + r : Nat) := by
    intro r small
    rw [swept.pairs _ (by omega), partners r small, if_neg (by omega)]
  have highs : ∀ r, r < 2 ^ w → b (2 ^ w * q + r + 2 ^ t : Nat) = a (2 ^ w * q + r + 2 ^ t : Nat) := by
    intro r small
    rw [swept.pairs _ (by omega), ← partners r small, Nat.xor_xor_cancel_right, partners r small,
      if_neg (by omega)]
  have direction : ∀ r, r < 2 ^ w → ((2 ^ w * q + r) &&& 2 ^ s = 0 ↔ (2 ^ w * q) &&& 2 ^ s = 0) :=
    fun r small => direction_first (by omega) small
  generalize 2 ^ w * q = i at *
  generalize 2 ^ w = W at *
  generalize 2 ^ t = j at *
  generalize 2 ^ s = k at *
  generalize 2 ^ m = n at *
  have lows' : ∀ r, r < W → loadLanes b i r = a (i + r : Nat) := by
    intro r small
    rw [← lows r small, natCast_add, loadLanes]
  have highs' : ∀ r, r < W → loadLanes b ((i : Nat) + (j : Nat)) r = a ((i + r) ^^^ j : Nat) := by
    intro r small
    rw [partners r small, ← highs r small, loadLanes]
    congr 1
    omega
  have value : ∀ x : Int, blockCmpswap lt W (i : Nat) ((i : Nat) + (j : Nat))
      (decide (i &&& k = 0)) b x =
      if (i : Int) + (j : Nat) ≤ x ∧ x < (i : Int) + (j : Nat) + (W : Nat) then
        settled lt k j a x.toNat
      else if (i : Int) ≤ x ∧ x < (i : Int) + (W : Nat) then settled lt k j a x.toNat
      else b x := by
    intro x
    unfold blockCmpswap
    dsimp only [storeLanes]
    split
    next upper =>
      obtain ⟨r, rfl⟩ : ∃ r : Nat, x = (i : Int) + (j : Nat) + (r : Nat) := ⟨(x - i - j).toNat, by omega⟩
      have small : r < W := by omega
      rw [add_sub_cancel_left, toNat_natCast]
      rw [show ((i : Int) + (j : Nat) + (r : Nat)).toNat = (i + r) ^^^ j by rw [partners r small]; omega,
        settled_high (by rw [partners r small]; omega), vector_high asymm total]
      rw [lows' r small, highs' r small]
      simp only [direction r small]
    next =>
      split
      next lower =>
        obtain ⟨r, rfl⟩ : ∃ r : Nat, x = (i : Int) + (r : Nat) := ⟨(x - i).toNat, by omega⟩
        have small : r < W := by omega
        rw [add_sub_cancel_left, toNat_natCast]
        rw [show ((i : Int) + (r : Nat)).toNat = i + r by omega,
          settled_low (by rw [partners r small]; omega), vector_low asymm total]
        rw [lows' r small, highs' r small]
        simp only [direction r small]
      next => rfl
  constructor
  · intro x small
    rw [value x]
    split
    next upper =>
      obtain ⟨r, rfl⟩ : ∃ r, x = i + r + j := ⟨x - i - j, by omega⟩
      rw [if_pos, toNat_natCast]
      rw [← partners r (by omega), Nat.xor_xor_cancel_right, partners r (by omega)]
      omega
    next notUpper =>
      split
      next lower =>
        rw [if_pos, toNat_natCast]
        omega
      next notLower =>
        have other : ¬(i ≤ min x (x ^^^ j) ∧ min x (x ^^^ j) < i + W) := by
          rintro ⟨low, high⟩
          rcases low_cases x j with ⟨same, _⟩ | ⟨same, _⟩
          · omega
          · rw [same] at low high
            have back := partners ((x ^^^ j) - i) (by omega)
            rw [show i + ((x ^^^ j) - i) = x ^^^ j by omega, Nat.xor_xor_cancel_right] at back
            omega
        rw [swept.pairs x small]
        by_cases before : min x (x ^^^ j) < i
        · rw [if_pos before, if_pos (by omega)]
        · rw [if_neg before, if_neg (by omega)]
  · intro z away
    rw [← swept.outside z away, value z, if_neg (by omega), if_neg (by omega)]

theorem blockStage_swept {m s t w : Nat} (le : w ≤ t) (less : t < s) (small : t < m) (a : Int → α) :
    Swept lt (2 ^ m) (2 ^ s) (2 ^ t) a (2 ^ m) (blockStage lt (2 ^ w) (2 ^ m) (2 ^ t) (2 ^ s) 0 a) := by
  have cut : 2 ^ m = 2 ^ w * 2 ^ (m - w) := by rw [← pow_add, Nat.add_sub_cancel' (by omega)]
  have cut' : 2 ^ t = 2 ^ w * 2 ^ (t - w) := by rw [← pow_add, Nat.add_sub_cancel' le]
  have positive := Nat.two_pow_pos w
  have run : ∀ rest q (b : Int → α), q + rest = 2 ^ (m - w) →
      Swept lt (2 ^ m) (2 ^ s) (2 ^ t) a (2 ^ w * q) b →
      Swept lt (2 ^ m) (2 ^ s) (2 ^ t) a (2 ^ m)
        (blockStage lt (2 ^ w) (2 ^ m) (2 ^ t) (2 ^ s) (2 ^ w * q) b) := by
    intro rest
    induction rest with
    | zero =>
      intro q b all swept
      rw [add_zero] at all
      rw [all, ← cut] at swept ⊢
      rw [blockStage, if_neg (by omega)]
      exact swept
    | succ rest ih =>
      intro q b all swept
      have inside : 2 ^ w * q + 2 ^ w ≤ 2 ^ m := by
        rw [cut, ← Nat.mul_succ]
        exact Nat.mul_le_mul_left _ (by omega)
      have next : 2 ^ w * (q + 1) = 2 ^ w * q + 2 ^ w := Nat.mul_succ _ _
      rw [blockStage, if_pos ⟨positive, by omega⟩, ← next]
      refine ih (q + 1) _ (by omega) ?_
      split
      next set =>
        refine swept.skip (by omega) ?_
        intro x beyond
        by_contra within
        have bit : min x (x ^^^ 2 ^ t) &&& 2 ^ t ≠ 0 := by
          rw [show min x (x ^^^ 2 ^ t) = 2 ^ w * q + (min x (x ^^^ 2 ^ t) - 2 ^ w * q) by omega]
          exact fun clear => set ((direction_first le (by omega)).mp clear)
        have forward := low_forward x (2 ^ t)
        have backward := partner_down bit
        omega
      next clear =>
        rw [Decidable.not_not] at clear
        refine block_swept asymm total ?_ le less clear swept
        have high : 2 ^ w * q + 2 ^ t < 2 ^ m := by
          rw [← partner_up clear]
          exact Nat.xor_lt_two_pow (by omega) (Nat.pow_lt_pow_right (by decide) small)
        rw [cut, cut', ← mul_add] at high ⊢
        exact Nat.mul_le_mul_left _ (Nat.lt_of_mul_lt_mul_left high)
  exact run (2 ^ (m - w)) 0 a (zero_add _) Swept.start

theorem netStage_eq {m s t : Nat} (less : t < s) (small : t < m) (simd : Bool) {W : Nat}
    (lanes : simd = true → W.isPowerOfTwo) (a : Int → α) :
    netStage lt simd W (2 ^ m) (2 ^ t) (2 ^ s) a = forRange 0 (2 ^ m : Nat) (exchange lt (2 ^ s) (2 ^ t)) a := by
  rw [netStage]
  split
  next vectors =>
    obtain ⟨w, rfl⟩ := lanes vectors.1
    have le : w ≤ t := (Nat.pow_le_pow_iff_right (by decide)).mp vectors.2
    exact (blockStage_swept asymm total le less small a).unique (round_swept small (2 ^ s) a)
      (le_refl _) (le_refl _)
  next => exact scalarStage_eq _ _ _ a

theorem netHalvings_eq {m s t : Nat} (le : t ≤ s) (small : t ≤ m) (simd : Bool) {W : Nat}
    (lanes : simd = true → W.isPowerOfTwo) (a : Int → α) :
    netHalvings lt simd W (2 ^ m) (2 ^ s) (2 ^ t / 2) a = halvings lt (2 ^ m) (2 ^ s) (2 ^ t / 2) a := by
  induction t generalizing a with
  | zero => rw [netHalvings, halvings, if_neg (by decide), if_neg (by decide)]
  | succ t ih =>
    rw [pow_succ, Nat.mul_div_cancel _ (by decide), netHalvings, halvings,
      if_pos (Nat.two_pow_pos t), if_pos (Nat.two_pow_pos t),
      netStage_eq asymm total (by omega) (by omega) simd lanes, ih (by omega) (by omega)]

theorem netDoublings_eq {m : Nat} (s : Nat) (simd : Bool) {W : Nat}
    (lanes : simd = true → W.isPowerOfTwo) (a : Int → α) :
    netDoublings lt simd W (2 ^ m) (2 ^ s) a = doublings lt (2 ^ m) (2 ^ s) a := by
  induction measured : m + 1 - s generalizing s a with
  | zero =>
    have beyond : 2 ^ m < 2 ^ s := Nat.pow_lt_pow_right (by decide) (by omega)
    rw [netDoublings, doublings, if_neg (by omega), if_neg (by omega)]
  | succ rest ih =>
    have inside : 2 ^ s ≤ 2 ^ m := Nat.pow_le_pow_right (by decide) (by omega)
    rw [netDoublings, doublings, if_pos ⟨Nat.two_pow_pos s, inside⟩,
      if_pos ⟨Nat.two_pow_pos s, inside⟩, ← pow_succ', ih (s + 1) _ (by omega),
      netHalvings_eq asymm total (le_refl s) (by omega) simd lanes]

end Total

end Rounds

/-! ## Integer keys -/

theorem KeyType.less_asymm (K : KeyType) (x y : K.Key) (less : K.less x y = true) :
    K.less y x = false := by
  unfold KeyType.less at less ⊢
  split at less
  next signed =>
    rw [if_pos signed]
    rw [BitVec.slt_iff_toInt_lt] at less
    exact decide_eq_false (by omega)
  next unsigned =>
    rw [if_neg unsigned]
    rw [BitVec.ult_iff_lt, BitVec.lt_def] at less
    exact decide_eq_false (by omega)

theorem KeyType.less_total (K : KeyType) (x y : K.Key) (notLess : K.less x y = false)
    (notGreater : K.less y x = false) : x = y := by
  unfold KeyType.less at notLess notGreater
  split at notLess
  next signed =>
    rw [if_pos signed] at notGreater
    rw [BitVec.slt_eq_decide, decide_eq_false_iff_not] at notLess notGreater
    exact BitVec.eq_of_toInt_eq (by omega)
  next unsigned =>
    rw [if_neg unsigned] at notGreater
    rw [BitVec.ult_eq_decide, decide_eq_false_iff_not] at notLess notGreater
    exact BitVec.eq_of_toNat_eq (by omega)

instance (K : KeyType) : IsStrictWeakOrder K.Key (Lesser K.less) where
  irrefl x less := by
    rw [Lesser, K.less_asymm x x less] at less
    cases less
  trans x y z less less' := by
    unfold Lesser KeyType.less at *
    split at less
    next signed =>
      rw [if_pos signed, BitVec.slt_iff_toInt_lt] at *
      omega
    next unsigned =>
      rw [if_neg unsigned, BitVec.ult_iff_lt, BitVec.lt_def] at *
      omega
  incomp_trans x y z equal equal' := by
    have same := K.less_total x y (eq_false_iff.mpr equal.1) (eq_false_iff.mpr equal.2)
    rw [same]
    exact equal'

theorem lanes_power (K : KeyType) (target : Target) (simd : netHasSimd K target = true) :
    (netLanes K target).isPowerOfTwo := by
  have quotient : ∀ e, K.size ≤ 4 → 2 ≤ e → (2 ^ e / K.size).isPowerOfTwo := by
    intro e small le
    obtain ⟨f, size⟩ := K.power
    rw [size] at small ⊢
    have bound : f ≤ 2 := (Nat.pow_le_pow_iff_right (by decide : 1 < 2)).mp small
    exact ⟨e - f, Nat.pow_div (by omega) (by decide)⟩
  cases target with
  | avx2 => exact quotient 5 (of_decide_eq_true simd) (by decide)
  | arm64 => exact quotient 4 (of_decide_eq_true simd) (by decide)
  | arm32 => exact quotient 4 (of_decide_eq_true simd) (by decide)
  | other => exact ⟨0, rfl⟩

/-- The network is the scalar sort, for every key type and every length that is a power of two. -/
theorem network_is_scalar (K : KeyType) (target : Target) (m : Nat) (a : Int → K.Key) :
    bitonicSortPow2 K target (2 ^ m) a = bitonic K.less (2 ^ m) a ∧
      Sorts K.less (2 ^ m : Nat) a (bitonicSortPow2 K target (2 ^ m) a) := by
  have same : bitonicSortPow2 K target (2 ^ m) a = bitonic K.less (2 ^ m) a := by
    have power : 2 ^ m &&& (2 ^ m - 1) = 0 :=
      (Nat.and_sub_one_eq_zero_iff_isPowerOfTwo (Nat.ne_of_gt (Nat.two_pow_pos m))).mpr ⟨m, rfl⟩
    rw [bitonicSortPow2, bitonic]
    split
    next => rfl
    next =>
      rw [if_neg (Decidable.not_not.mpr power), ← Nat.pow_one 2]
      rw [netDoublings_eq K.less_asymm K.less_total 1 _ (lanes_power K target)]
  rw [same]
  exact ⟨rfl, bitonic_sorts (2 ^ m) a⟩

/-- So is the sort with the default comparison, for every length. -/
theorem bitonicDefault_eq (K : KeyType) (target : Target) (n : Nat) (a : Int → K.Key) :
    bitonicDefault K target n a = bitonic K.less n a := by
  rw [bitonicDefault]
  split
  next vectors =>
    obtain ⟨m, rfl⟩ := (Nat.and_sub_one_eq_zero_iff_isPowerOfTwo (by omega)).mp vectors.2.2
    rw [bitonicSortPow2, bitonic, if_neg (by omega), if_neg (by omega),
      if_neg (Decidable.not_not.mpr vectors.2.2), ← Nat.pow_one 2]
    rw [netDoublings_eq K.less_asymm K.less_total 1 _ (lanes_power K target)]
  next => rfl

end Micron.Sort
