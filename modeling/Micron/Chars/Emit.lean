import Micron.Lib.Numeral

/-!
# Writing integers

Digits are written from the back into a scratch buffer, `*--end = c`, so that what is
written is a list that grows at the front.  Words are numbers below `2 ^ 64`.
-/

set_option autoImplicit false

namespace Micron.Chars

open Micron.Lib List Nat

def decimalChar (d : Nat) : Char := Char.ofNat (48 + d)

def digitPair (r : Nat) : Char × Char := (decimalChar (r / 10), decimalChar (r % 10))

def digits (upper : Bool) : List Char :=
  if upper then "0123456789ABCDEFGHIJKLMNOPQRSTUVWXYZ".toList
  else "0123456789abcdefghijklmnopqrstuvwxyz".toList

def digitChar (upper : Bool) (d : Nat) : Char := (digits upper).getD d '?'

/-- Exactly eight digits of a number below ten to the eighth. -/
def emit8Backward (out : List Char) (v : Nat) : List Char :=
  let hi4 := v / 10000
  let lo4 := v - hi4 * 10000
  let d0 := lo4 / 100
  let d1 := lo4 - d0 * 100
  let d2 := hi4 / 100
  let d3 := hi4 - d2 * 100
  (digitPair d2).1 :: (digitPair d2).2 :: (digitPair d3).1 :: (digitPair d3).2 ::
    (digitPair d0).1 :: (digitPair d0).2 :: (digitPair d1).1 :: (digitPair d1).2 :: out

def emitPairs (out : List Char) (v : Nat) : List Char :=
  if v ≥ 100 then emitPairs ((digitPair (v % 100)).1 :: (digitPair (v % 100)).2 :: out) (v / 100)
  else if v ≥ 10 then (digitPair v).1 :: (digitPair v).2 :: out
  else decimalChar v :: out
termination_by v

def emitBlockBackward (out : List Char) (v : Nat) : List Char :=
  if v = 0 then '0' :: out else emitPairs out v

def fastDiv1e8 (x : Nat) : Nat := x / 100000000

def fastMod1e8 (x q : Nat) : Nat := (x - q * 100000000) % 2 ^ 32

def uintToBufBackward (out : List Char) (val : Nat) : List Char :=
  if val = 0 then '0' :: out
  else if val < 100000000 then emitBlockBackward out (val % 2 ^ 32)
  else if val < 10000000000000000 then
    let q := fastDiv1e8 val
    let lo := fastMod1e8 val q
    emitBlockBackward (emit8Backward out lo) (q % 2 ^ 32)
  else
    let q1 := fastDiv1e8 val
    let lo := fastMod1e8 val q1
    let q2 := fastDiv1e8 q1
    let mid := fastMod1e8 q1 q2
    emitBlockBackward (emit8Backward (emit8Backward out lo) mid) (q2 % 2 ^ 32)

/-- `while ( val > 0 ) { *--end = table[val & mask]; val >>= shift; }` for a positive shift. -/
def shiftLoop (table : Nat → Char) (shift : Nat) (out : List Char) (val : Nat) : List Char :=
  if 0 < shift ∧ val > 0 then
    shiftLoop table shift (table (val &&& (2 ^ shift - 1)) :: out) (val >>> shift)
  else out
termination_by val
decreasing_by
  rw [shiftRight_eq_div_pow]
  exact Nat.div_lt_self (by omega) (Nat.one_lt_two_pow (by omega))

/-- `while ( val > 0 ) { *--end = table[val % base]; val /= base; }` for a base above one. -/
def divLoop (table : Nat → Char) (base : Nat) (out : List Char) (val : Nat) : List Char :=
  if 1 < base ∧ val > 0 then divLoop table base (table (val % base) :: out) (val / base) else out
termination_by val
decreasing_by exact div_lt_self (by omega) (by omega)

def uintToBufBaseBackward (out : List Char) (val base : Nat) (upper : Bool) : List Char :=
  let base := if base < 2 ∨ base > 36 then 10 else base
  if val = 0 then '0' :: out
  else if base = 16 then shiftLoop (digitChar upper) 4 out val
  else if base = 8 then shiftLoop decimalChar 3 out val
  else if base = 2 then shiftLoop decimalChar 1 out val
  else if base = 4 then shiftLoop (digitChar upper) 2 out val
  else if base = 32 then shiftLoop (digitChar upper) 5 out val
  else divLoop (digitChar upper) base out val

/-- Four limbs of 32 bits, the least significant one first. -/
def limbs (hi lo : Nat) : List UInt32 :=
  [UInt32.ofNat lo, UInt32.ofNat (lo >>> 32), UInt32.ofNat hi, UInt32.ofNat (hi >>> 32)]

/-- The quotient in place of the limbs, and the remainder. -/
def div128Small (l : List UInt32) (d : Nat) : List UInt32 × Nat :=
  l.foldr
    (fun limb s =>
      let cur := s.2 <<< 32 ||| limb.toNat
      (UInt32.ofNat (cur / d) :: s.1, cur % d))
    ([], 0)

def nz128 (l : List UInt32) : Bool := l.any (· != 0)

def limbsValue (l : List UInt32) : Nat := l.foldr (fun limb v => limb.toNat + 2 ^ 32 * v) 0

theorem div128Small_spec (l : List UInt32) {d : Nat} (positive : 0 < d) :
    limbsValue (div128Small l d).1 * d + (div128Small l d).2 = limbsValue l ∧
      (div128Small l d).2 < d := by
  induction l with
  | nil => exact ⟨zero_mul d, positive⟩
  | cons limb rest ih =>
    obtain ⟨division, small⟩ := ih
    rw [div128Small, foldr_cons, ← div128Small]
    generalize div128Small rest d = s at division small ⊢
    have low := limb.toNat_lt
    have joined : s.2 <<< 32 ||| limb.toNat = s.2 * 2 ^ 32 + limb.toNat := by
      rw [← Nat.shiftLeft_add_eq_or_of_lt low, Nat.shiftLeft_eq]
    have quotient : (s.2 * 2 ^ 32 + limb.toNat) / d < 2 ^ 32 := by
      refine Nat.div_lt_of_lt_mul ?_
      omega
    have parts := Nat.div_add_mod (s.2 * 2 ^ 32 + limb.toNat) d
    refine ⟨?_, ?_⟩
    · rw [joined]
      simp only [limbsValue, foldr_cons] at division ⊢
      rw [UInt32.toNat_ofNat_of_lt' quotient, ← division, add_mul, mul_assoc, mul_add,
        mul_comm _ d]
      omega
    · rw [joined]
      exact Nat.mod_lt _ positive

theorem nz128_iff (l : List UInt32) : nz128 l = true ↔ limbsValue l ≠ 0 := by
  induction l with
  | nil => simp [nz128, limbsValue]
  | cons limb rest ih =>
    have low : (limb != 0) = true ↔ limb.toNat ≠ 0 := by
      rw [bne_iff_ne, ne_eq, ne_eq, ← UInt32.toNat_inj]
      rfl
    have value : limbsValue (limb :: rest) = limb.toNat + 2 ^ 32 * limbsValue rest := rfl
    rw [nz128, any_cons, ← nz128, Bool.or_eq_true, ih, low, value]
    omega

theorem limbsValue_div_lt {l : List UInt32} {d : Nat} (large : 1 < d) (more : nz128 l = true) :
    limbsValue (div128Small l d).1 < limbsValue l := by
  obtain ⟨division, _⟩ := div128Small_spec l (by omega : 0 < d)
  have positive := (nz128_iff l).mp more
  have twice := mul_le_mul_left (limbsValue (div128Small l d).1) large
  omega

/-- The loop of a base that is no power of two, for a base above one. -/
def divLoop128 (table : Nat → Char) (base : Nat) (out : List Char) (l : List UInt32) : List Char :=
  if 1 < base ∧ nz128 l then
    divLoop128 table base (table (div128Small l base).2 :: out) (div128Small l base).1
  else out
termination_by limbsValue l
decreasing_by exact limbsValue_div_lt (by omega) (by tauto)

/-- `for ( k = 0; k < count; ++k )` of an inner chunk. -/
def emitPadded : Nat → List Char → Nat → List Char
  | 0, out, _ => out
  | k + 1, out, r => emitPadded k (decimalChar (r % 10) :: out) (r / 10)

def emitLeading (out : List Char) (r : Nat) : List Char :=
  if r / 10 ≠ 0 then emitLeading (decimalChar (r % 10) :: out) (r / 10)
  else decimalChar (r % 10) :: out
termination_by r

def chunkLoop (out : List Char) (l : List UInt32) : List Char :=
  if nz128 l then
    let l' := (div128Small l 1000000000).1
    let r := (div128Small l 1000000000).2
    chunkLoop (if nz128 l' then emitPadded 9 out r else emitLeading out r) l'
  else out
termination_by limbsValue l
decreasing_by exact limbsValue_div_lt (by omega) (by assumption)

def uint128ToBufBackward (out : List Char) (hi lo : Nat) : List Char :=
  if hi = 0 then uintToBufBackward out lo else chunkLoop out (limbs hi lo)

/-- The loop of a base that is a power of two, over both words. -/
def shiftLoop128 (table : Nat → Char) (sh : Nat) (out : List Char) (h o : Nat) : List Char :=
  if 0 < sh ∧ (h ≠ 0 ∨ o ≠ 0) then
    shiftLoop128 table sh (table (o &&& (2 ^ sh - 1)) :: out) (h >>> sh)
      (o >>> sh ||| (h <<< (64 - sh)) % 2 ^ 64)
  else out
termination_by (h, o)
decreasing_by
  have half : ∀ x : Nat, x ≠ 0 → x >>> sh < x := by
    intro x more
    rw [shiftRight_eq_div_pow]
    exact Nat.div_lt_self (by omega) (Nat.one_lt_two_pow (by omega))
  by_cases high : h = 0
  · subst high
    have low := half o (by omega)
    rw [zero_shiftRight, zero_shiftLeft, zero_mod, or_zero]
    exact Prod.Lex.right 0 low
  · exact Prod.Lex.left _ _ (half h high)

/-- The shift for a base, zero where it is no power of two. -/
def shiftOf (base : Nat) : Nat :=
  if base = 2 then 1 else if base = 4 then 2 else if base = 8 then 3 else if base = 16 then 4
  else if base = 32 then 5 else 0

def uint128ToBufBaseBackward (out : List Char) (hi lo base : Nat) (upper : Bool) : List Char :=
  if base = 10 then uint128ToBufBackward out hi lo
  else if hi = 0 then uintToBufBaseBackward out lo base upper
  else
    let base := if base < 2 ∨ base > 36 then 10 else base
    if shiftOf base ≠ 0 then shiftLoop128 (digitChar upper) (shiftOf base) out hi lo
    else divLoop128 (digitChar upper) base out (limbs hi lo)

def figures (base v : Nat) : List Nat := if v = 0 then [0] else numeral base v

def spell (upper : Bool) (base v : Nat) : List Char := (figures base v).map (digitChar upper)

theorem figures_of_lt {base v : Nat} (large : 1 < base) (small : v < base) : figures base v = [v] := by
  rw [figures]
  split
  next zero => rw [zero]
  next more =>
    rw [numeral_of_pos large (by omega), div_eq_of_lt small, numeral_zero, mod_eq_of_lt small,
      nil_append]

theorem figures_step {base v : Nat} (large : 1 < base) (more : base ≤ v) :
    figures base v = figures base (v / base) ++ [v % base] := by
  have above : 0 < v / base := div_pos more (by omega)
  rw [figures, if_neg (by omega), figures, if_neg (by omega), numeral_of_pos large (by omega)]

theorem figures_split {base v : Nat} (large : 1 < base) (k : Nat) (more : 0 < v / base ^ k) :
    figures base v = figures base (v / base ^ k) ++ row base k v := by
  have positive : v ≠ 0 := by
    rintro rfl
    simp at more
  rw [figures, if_neg positive, figures, if_neg (by omega), numeral_split large k more]

theorem digits_upper : digits true =
    ['0', '1', '2', '3', '4', '5', '6', '7', '8', '9', 'A', 'B', 'C', 'D', 'E', 'F', 'G', 'H', 'I', 'J',
      'K', 'L', 'M', 'N', 'O', 'P', 'Q', 'R', 'S', 'T', 'U', 'V', 'W', 'X', 'Y', 'Z'] :=
  (if_pos rfl).trans String.toList_ofList

theorem digits_lower : digits false =
    ['0', '1', '2', '3', '4', '5', '6', '7', '8', '9', 'a', 'b', 'c', 'd', 'e', 'f', 'g', 'h', 'i', 'j',
      'k', 'l', 'm', 'n', 'o', 'p', 'q', 'r', 's', 't', 'u', 'v', 'w', 'x', 'y', 'z'] :=
  (if_neg Bool.false_ne_true).trans String.toList_ofList

theorem digitChar_eq (upper : Bool) {d : Nat} (small : d < 36) :
    digitChar upper d = Char.ofNat (if d < 10 then 48 + d else if upper then 55 + d else 87 + d) := by
  revert d
  cases upper with
  | false =>
    simp only [digitChar, digits_lower]
    decide +kernel
  | true =>
    simp only [digitChar, digits_upper]
    decide +kernel

theorem digitChar_zero (upper : Bool) : digitChar upper 0 = '0' := digitChar_eq upper (by decide)

theorem decimalChar_eq {d : Nat} (small : d < 10) (upper : Bool) : decimalChar d = digitChar upper d := by
  rw [digitChar_eq upper (by omega), if_pos small, decimalChar]

theorem map_decimalChar {ds : List Nat} (small : ∀ d ∈ ds, d < 10) (upper : Bool) :
    ds.map decimalChar = ds.map (digitChar upper) :=
  map_congr_left fun d member => decimalChar_eq (small d member) upper

theorem figures_lt {base v : Nat} (large : 1 < base) : ∀ d ∈ figures base v, d < base := by
  rw [figures]
  split
  · simp
    omega
  · exact numeral_lt large v

theorem map_decimal_figures (upper : Bool) (v : Nat) :
    (figures 10 v).map decimalChar = spell upper 10 v :=
  map_decimalChar (figures_lt (by decide)) upper

/-! ## One word -/

theorem emit8Backward_eq (out : List Char) {v : Nat} (small : v < 100000000) :
    emit8Backward out v = (row 10 8 v).map decimalChar ++ out := by
  have same : ∀ {x y : Nat} {l l' : List Char}, x = y → l = l' →
      decimalChar x :: l = decimalChar y :: l' := by
    rintro x _ l _ rfl rfl
    rfl
  refine same ?_ (same ?_ (same ?_ (same ?_ (same ?_ (same ?_ (same ?_ (same ?_ rfl)))))))
  all_goals omega

theorem emitPairs_eq (out : List Char) (v : Nat) :
    emitPairs out v = (figures 10 v).map decimalChar ++ out := by
  induction v using Nat.strong_induction_on generalizing out with
  | _ v ih =>
    rw [emitPairs]
    split
    next more =>
      have two : row 10 2 v = [v % 100 / 10, v % 100 % 10] := by
        simp only [row, nil_append, cons_append, List.cons.injEq, and_true]
        omega
      rw [ih _ (by omega), figures_split (v := v) (by decide) 2 (by omega), two, map_append,
        append_assoc]
      rfl
    next =>
      split
      next =>
        rw [figures_step (by decide) (by omega), figures_of_lt (by decide) (by omega)]
        rfl
      next =>
        rw [figures_of_lt (by decide) (by omega)]
        rfl

theorem emitBlockBackward_eq (out : List Char) (v : Nat) :
    emitBlockBackward out v = (figures 10 v).map decimalChar ++ out := by
  rw [emitBlockBackward]
  split
  next zero =>
    rw [zero]
    rfl
  next => exact emitPairs_eq out v

theorem uintToBufBackward_eq (out : List Char) {val : Nat} (word : val < 2 ^ 64) :
    uintToBufBackward out val = (figures 10 val).map decimalChar ++ out := by
  have chunk : ∀ (v : Nat) (out : List Char), v < 2 ^ 64 →
      emit8Backward out (fastMod1e8 v (fastDiv1e8 v)) = (row 10 8 v).map decimalChar ++ out := by
    intro v out word
    have low : fastMod1e8 v (fastDiv1e8 v) = v % 10 ^ 8 := by
      unfold fastMod1e8 fastDiv1e8
      omega
    have small : v % 10 ^ 8 < 100000000 := mod_lt _ (by decide)
    rw [low, emit8Backward_eq out small, row_mod]
  rw [uintToBufBackward]
  split
  next zero =>
    rw [zero]
    rfl
  next =>
    split
    next => rw [emitBlockBackward_eq, mod_eq_of_lt (by omega)]
    next =>
      dsimp only
      have small : fastDiv1e8 val < 2 ^ 64 := by
        unfold fastDiv1e8
        omega
      split
      next =>
        rw [chunk val out word, emitBlockBackward_eq, figures_split (v := val) (by decide) 8 (by omega),
          map_append, append_assoc]
        unfold fastDiv1e8
        rw [mod_eq_of_lt (by omega)]
        rfl
      next =>
        rw [chunk val out word, chunk _ _ small, emitBlockBackward_eq,
          figures_split (v := val) (by decide) 8 (by omega), map_append, append_assoc]
        unfold fastDiv1e8
        rw [figures_split (v := val / 10 ^ 8) (by decide) 8 (by omega), map_append,
          append_assoc, mod_eq_of_lt (by omega)]
        rfl

theorem divLoop_eq (table : Nat → Char) {base : Nat} (large : 1 < base) (out : List Char) (val : Nat) :
    divLoop table base out val = (numeral base val).map table ++ out := by
  induction val using Nat.strong_induction_on generalizing out with
  | _ val ih =>
    rw [divLoop]
    split
    next more =>
      rw [ih _ (div_lt_self more.2 large), numeral_of_pos large more.2, map_append,
        append_assoc]
      rfl
    next none =>
      rw [show val = 0 by omega, numeral_zero]
      rfl

theorem shiftLoop_eq (table : Nat → Char) {shift : Nat} (positive : 0 < shift) (out : List Char)
    (val : Nat) : shiftLoop table shift out val = (numeral (2 ^ shift) val).map table ++ out := by
  have large : 1 < 2 ^ shift := Nat.one_lt_two_pow (by omega)
  induction val using Nat.strong_induction_on generalizing out with
  | _ val ih =>
    rw [shiftLoop, shiftRight_eq_div_pow, and_two_pow_sub_one_eq_mod]
    split
    next more =>
      rw [ih _ (div_lt_self more.2 large), numeral_of_pos large more.2, map_append,
        append_assoc]
      rfl
    next none =>
      rw [show val = 0 by omega, numeral_zero]
      rfl

theorem uintToBufBaseBackward_eq (out : List Char) (val : Nat) {base : Nat} (low : 2 ≤ base)
    (high : base ≤ 36) (upper : Bool) :
    uintToBufBaseBackward out val base upper = spell upper base val ++ out := by
  have inside : ¬(base < 2 ∨ base > 36) := by omega
  simp only [uintToBufBaseBackward, if_neg inside]
  by_cases zero : val = 0
  · rw [if_pos zero, zero, spell, figures, if_pos rfl, map_singleton, digitChar_zero]
    rfl
  · have spelled : spell upper base val = (numeral base val).map (digitChar upper) := by
      rw [spell, figures, if_neg zero]
    have decimal : base ≤ 10 → (numeral base val).map decimalChar =
        (numeral base val).map (digitChar upper) := by
      intro few
      refine map_decimalChar (fun d member => ?_) upper
      exact lt_of_lt_of_le (numeral_lt low val d member) few
    rw [if_neg zero, spelled]
    split
    next sixteen => rw [shiftLoop_eq _ (by decide), show base = 2 ^ 4 from sixteen]
    next =>
      split
      next eight => rw [shiftLoop_eq _ (by decide), ← decimal (by omega), show base = 2 ^ 3 from eight]
      next =>
        split
        next two => rw [shiftLoop_eq _ (by decide), ← decimal (by omega), show base = 2 ^ 1 from two]
        next =>
          split
          next four => rw [shiftLoop_eq _ (by decide), show base = 2 ^ 2 from four]
          next =>
            split
            next most => rw [shiftLoop_eq _ (by decide), show base = 2 ^ 5 from most]
            next => rw [divLoop_eq _ low]

theorem div128Small_eq (l : List UInt32) {d : Nat} (positive : 0 < d) :
    limbsValue (div128Small l d).1 = limbsValue l / d ∧
      (div128Small l d).2 = limbsValue l % d := by
  obtain ⟨division, small⟩ := div128Small_spec l positive
  have unique := (Nat.div_mod_unique (c := (div128Small l d).2) (d := limbsValue (div128Small l d).1)
    (a := limbsValue l) positive).mpr ⟨by rw [mul_comm]; omega, small⟩
  exact ⟨unique.1.symm, unique.2.symm⟩

theorem divLoop128_eq (table : Nat → Char) {base : Nat} (large : 1 < base) (out : List Char)
    (l : List UInt32) :
    divLoop128 table base out l = (numeral base (limbsValue l)).map table ++ out := by
  induction measured : limbsValue l using Nat.strong_induction_on generalizing out l with
  | _ v ih =>
    subst measured
    obtain ⟨quotient, remainder⟩ := div128Small_eq l (by omega : 0 < base)
    rw [divLoop128]
    split
    next more =>
      have positive := (nz128_iff l).mp more.2
      rw [ih _ (limbsValue_div_lt large more.2) _ _ rfl, quotient, remainder,
        numeral_of_pos (x := limbsValue l) large (by omega), map_append, append_assoc]
      rfl
    next none =>
      have zero : limbsValue l = 0 := by
        by_contra more
        exact none ⟨large, (nz128_iff l).mpr more⟩
      rw [zero, numeral_zero]
      rfl

theorem emitPadded_eq (k : Nat) (out : List Char) (r : Nat) :
    emitPadded k out r = (row 10 k r).map decimalChar ++ out := by
  induction k generalizing out r with
  | zero => rfl
  | succ k ih =>
    rw [emitPadded, ih, row, map_append, append_assoc]
    rfl

theorem emitLeading_eq (out : List Char) (r : Nat) :
    emitLeading out r = (figures 10 r).map decimalChar ++ out := by
  induction r using Nat.strong_induction_on generalizing out with
  | _ r ih =>
    rw [emitLeading]
    split
    next more =>
      rw [ih _ (by omega), figures_step (v := r) (by decide) (by omega), map_append,
        append_assoc]
      rfl
    next last =>
      rw [figures_of_lt (by decide) (by omega), mod_eq_of_lt (by omega)]
      rfl

theorem chunkLoop_eq (out : List Char) (l : List UInt32) :
    chunkLoop out l = (numeral 10 (limbsValue l)).map decimalChar ++ out := by
  induction measured : limbsValue l using Nat.strong_induction_on generalizing out l with
  | _ v ih =>
    subst measured
    obtain ⟨quotient, remainder⟩ := div128Small_eq l (by decide : 0 < 1000000000)
    rw [chunkLoop]
    split
    next more =>
      have positive := (nz128_iff l).mp more
      rw [ih _ (limbsValue_div_lt (by decide) more) _ _ rfl]
      have inner := nz128_iff (div128Small l 1000000000).1
      rw [quotient] at inner ⊢
      rw [remainder]
      split
      next further =>
        have front := inner.mp further
        rw [emitPadded_eq, numeral_split (x := limbsValue l) (by decide) 9 (by omega), map_append,
          append_assoc, ← row_mod 10 9 (limbsValue l)]
        rfl
      next leading =>
        have front : limbsValue l / 1000000000 = 0 := by
          by_contra further
          exact leading (inner.mpr further)
        rw [emitLeading_eq, front, numeral_zero, mod_eq_of_lt (by omega), figures,
          if_neg positive]
        rfl
    next none =>
      have zero : limbsValue l = 0 := by
        by_contra more
        exact none ((nz128_iff l).mpr more)
      rw [zero, numeral_zero]
      rfl

theorem limbsValue_limbs {hi lo : Nat} (high : hi < 2 ^ 64) (low : lo < 2 ^ 64) :
    limbsValue (limbs hi lo) = hi * 2 ^ 64 + lo := by
  simp only [limbs, limbsValue, foldr_cons, foldr_nil, UInt32.toNat_ofNat',
    shiftRight_eq_div_pow]
  omega

theorem shiftRight_words {sh h o : Nat} (le : sh ≤ 64) (low : o < 2 ^ 64) :
    (h >>> sh) * 2 ^ 64 + (o >>> sh ||| (h <<< (64 - sh)) % 2 ^ 64) = (h * 2 ^ 64 + o) / 2 ^ sh ∧
      (o >>> sh ||| (h <<< (64 - sh)) % 2 ^ 64) < 2 ^ 64 := by
  have whole : 2 ^ 64 = 2 ^ sh * 2 ^ (64 - sh) := by
    rw [← pow_add, Nat.add_sub_cancel' le]
  have positive : 0 < 2 ^ sh := Nat.two_pow_pos sh
  have small : o / 2 ^ sh < 2 ^ (64 - sh) := Nat.div_lt_of_lt_mul (whole ▸ low)
  have remainder : h % 2 ^ sh < 2 ^ sh := mod_lt h positive
  have joined : o >>> sh ||| (h <<< (64 - sh)) % 2 ^ 64 =
      2 ^ (64 - sh) * (h % 2 ^ sh) + o / 2 ^ sh := by
    rw [Nat.shiftRight_eq_div_pow, Nat.shiftLeft_eq, whole, Nat.mul_mod_mul_right, Nat.or_comm,
      mul_comm, ← two_pow_add_eq_or_of_lt small]
  rw [joined, shiftRight_eq_div_pow, whole]
  generalize 2 ^ (64 - sh) = Q at small ⊢
  generalize 2 ^ sh = P at positive small remainder ⊢
  refine ⟨?_, ?_⟩
  · have parts := div_add_mod h P
    calc
      h / P * (P * Q) + (Q * (h % P) + o / P) = Q * (P * (h / P) + h % P) + o / P := by ring
      _ = Q * h + o / P := by rw [parts]
      _ = (P * (Q * h) + o) / P := by rw [mul_add_div positive]
      _ = (h * (P * Q) + o) / P := by ring_nf
  · have next := mul_le_mul_left Q (succ_le_of_lt remainder)
    rw [mul_succ, mul_comm Q P] at next
    omega

theorem shiftLoop128_eq (table : Nat → Char) {sh : Nat} (positive : 0 < sh) (le : sh ≤ 64)
    (out : List Char) {h o : Nat} (low : o < 2 ^ 64) :
    shiftLoop128 table sh out h o = (numeral (2 ^ sh) (h * 2 ^ 64 + o)).map table ++ out := by
  have large : 1 < 2 ^ sh := Nat.one_lt_two_pow (by omega)
  induction measured : h * 2 ^ 64 + o using Nat.strong_induction_on generalizing out h o with
  | _ v ih =>
    subst measured
    obtain ⟨shifted, low'⟩ := shiftRight_words (h := h) le low
    rw [shiftLoop128]
    split
    next more =>
      have some : 0 < h * 2 ^ 64 + o := by omega
      have last : o &&& (2 ^ sh - 1) = (h * 2 ^ 64 + o) % 2 ^ sh := by
        have whole : 2 ^ sh ∣ h * 2 ^ 64 := Dvd.dvd.mul_left (pow_dvd_pow 2 le) h
        rw [and_two_pow_sub_one_eq_mod, add_mod, mod_eq_zero_of_dvd whole, zero_add,
          mod_mod]
      have rest := ih _ (div_lt_self some large)
        (table (o &&& (2 ^ sh - 1)) :: out) low' shifted
      rw [rest, last, numeral_of_pos (x := h * 2 ^ 64 + o) large some, map_append,
        append_assoc]
      rfl
    next none =>
      have zero : h = 0 ∧ o = 0 := by
        rw [not_and, not_or, not_not, not_not] at none
        exact none positive
      rw [zero.1, zero.2, zero_mul, numeral_zero]
      rfl

theorem uint128ToBufBaseBackward_eq (out : List Char) {hi lo base : Nat} (high : hi < 2 ^ 64)
    (low : lo < 2 ^ 64) (least : 2 ≤ base) (most : base ≤ 36) (upper : Bool) :
    uint128ToBufBaseBackward out hi lo base upper = spell upper base (hi * 2 ^ 64 + lo) ++ out := by
  have inside : ¬(base < 2 ∨ base > 36) := by omega
  have wide : hi ≠ 0 → spell upper base (hi * 2 ^ 64 + lo) =
      (numeral base (hi * 2 ^ 64 + lo)).map (digitChar upper) := by
    intro more
    rw [spell, figures, if_neg (by omega)]
  simp only [uint128ToBufBaseBackward, if_neg inside]
  split
  next ten =>
    rw [ten, uint128ToBufBackward, ← map_decimal_figures]
    split
    next zero => rw [uintToBufBackward_eq out low, zero, zero_mul, zero_add]
    next more => rw [chunkLoop_eq, limbsValue_limbs high low, figures, if_neg (by omega)]
  next =>
    split
    next zero => rw [uintToBufBaseBackward_eq out lo least most, zero, zero_mul, zero_add]
    next more =>
      rw [wide more]
      split
      next power =>
        have isPower : base = 2 ^ shiftOf base ∧ shiftOf base ≤ 64 := by
          unfold shiftOf at power ⊢
          split_ifs at power ⊢ <;> omega
        rw [shiftLoop128_eq _ (by omega) isPower.2 out low, ← isPower.1]
      next => rw [divLoop128_eq _ (by omega), limbsValue_limbs high low]

end Micron.Chars
