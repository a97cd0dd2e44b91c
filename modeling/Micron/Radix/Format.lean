import Micron.Radix.Parse

/-!
# Formatting and round trips

`to_string` splits a large number at powers of the base that it squares in the
number's own width.  When all powers it divides by fit the width, the text is the
one of `to_chars`.  A power that has lost its high bits is less than the power of
the base that the split stands for, so that the text is that of a larger number.
-/

set_option autoImplicit false

namespace Micron.Radix

open Micron.Lib List Nat Option

/-- The buffer with the last `width` digits of `y` at `out`. -/
def filled (base : Nat) (upper : Bool) (buf : List Char) (out width y : Nat) : List Char :=
  buf.take out ++ (row base width y).map (tab upper) ++ buf.drop (out + width)

section Padded
variable {base : Nat} {upper : Bool} {buf : List Char} {out width x y : Nat}

theorem length_filled (inside : out + width ≤ buf.length) :
    (filled base upper buf out width y).length = buf.length := by
  simp only [filled, length_append, length_take, length_map, length_row,
    length_drop]
  omega

theorem take_filled (inside : out + width ≤ buf.length) :
    (filled base upper buf out width y).take (out + width) =
      buf.take out ++ (row base width y).map (tab upper) := by
  rw [filled, take_append_of_le_length]
  · rw [take_of_length_le]
    simp only [length_append, length_take, length_map, length_row]
    omega
  · simp only [length_append, length_take, length_map, length_row]
    omega

theorem drop_filled (inside : out + width ≤ buf.length) (more : Nat) :
    (filled base upper buf out width y).drop (out + width + more) =
      buf.drop (out + width + more) := by
  have length : (buf.take out ++ (row base width y).map (tab upper)).length = out + width := by
    simp only [length_append, length_take, length_map, length_row]
    omega
  rw [filled, ← length, drop_length_add_append, drop_drop]

theorem filled_filled {left right yh yl : Nat} (inside : out + (left + right) ≤ buf.length)
    (small : yl < base ^ right) :
    filled base upper (filled base upper buf out left yh) (out + left) right yl =
      filled base upper buf out (left + right) (yh * base ^ right + yl) := by
  have positive : 0 < base ^ right := lt_of_le_of_lt (zero_le _) small
  have front : (yh * base ^ right + yl) / base ^ right = yh := by
    rw [mul_comm, mul_add_div positive, div_eq_of_lt small, add_zero]
  have back : row base right (yh * base ^ right + yl) = row base right yl := by
    rw [← row_mod, mul_comm, mul_add_mod, mod_eq_of_lt small]
  rw [filled, take_filled (by omega), drop_filled (by omega), filled, row_append, front, back,
    map_append]
  simp [add_assoc]

theorem emitPaddedBasecase_eq (low : 2 ≤ base) (high : base ≤ 36) (small : x < base ^ width)
    (inside : out + width ≤ buf.length) :
    emitPaddedBasecase buf out width x base upper = some (filled base upper buf out width x) := by
  have short := length_numeral_le low small
  have text := emitDigits_eq low high x upper
  have length : (emitDigits x base upper).length = (numeral base x).length := by
    rw [text, length_map]
  have fits : (emitDigits x base upper).length ≤ out + width ∧ out + width ≤ buf.length := by
    omega
  simp only [emitPaddedBasecase, if_pos fits, Option.some.injEq]
  rw [length]
  obtain ⟨z, isZ⟩ : ∃ z, width - (numeral base x).length = z := ⟨_, rfl⟩
  have first : out + width - (numeral base x).length = out + z := by omega
  have zeros : out + z - out = z := by omega
  have written : writeAt buf (out + z) (emitDigits x base upper) =
      buf.take (out + z) ++ (numeral base x).map (tab upper) ++ buf.drop (out + width) := by
    rw [writeAt, length, text]
    congr 2
    omega
  have front : (buf.take (out + z)).length = out + z := by
    rw [length_take]
    omega
  rw [first, zeros, written, writeAt, length_replicate, filled, row_eq low small, isZ,
    map_append, map_replicate, tab_zero]
  have taken : (buf.take (out + z) ++ (numeral base x).map (tab upper) ++
      buf.drop (out + width)).take out = buf.take out := by
    rw [append_assoc, take_append_of_le_length (by omega), take_take]
    congr 1
    omega
  have dropped : (buf.take (out + z) ++ (numeral base x).map (tab upper) ++
      buf.drop (out + width)).drop (out + z) =
        (numeral base x).map (tab upper) ++ buf.drop (out + width) := by
    rw [append_assoc, drop_append_of_le_length (by omega),
      drop_of_length_le (by omega), nil_append]
  rw [taken, dropped]
  simp

variable {th : Thresholds} {bits : Nat}

theorem emitPadded_exact (low : 2 ≤ base) (high : base ≤ 36) {level : Nat}
    (powers : ∀ k ≤ level, k ≠ 0 → towerAt bits base k = base ^ digitsAt base k)
    (small : x < base ^ width) (inside : out + width ≤ buf.length) :
    emitPadded th bits base upper level buf out width x =
      some (filled base upper buf out width x) := by
  induction level generalizing buf out width x with
  | zero => exact emitPaddedBasecase_eq low high small inside
  | succ level ih =>
    have powers' : ∀ k ≤ level, k ≠ 0 → towerAt bits base k = base ^ digitsAt base k :=
      fun k below => powers k (Nat.le_succ_of_le below)
    rw [emitPadded]
    split
    · exact emitPaddedBasecase_eq low high small inside
    · dsimp only
      split
      · exact ih powers' small inside
      · rename_i wide
        obtain ⟨lowCount, isLow⟩ : ∃ l, digitsAt base (level + 1) = l := ⟨_, rfl⟩
        rw [powers (level + 1) (Nat.le_refl _) (Nat.succ_ne_zero level), isLow]
        have positive : 0 < base ^ lowCount := Nat.pow_pos (Nat.le_trans (by decide) low)
        have sum : width - lowCount + lowCount = width := by omega
        have quotient : x / base ^ lowCount < base ^ (width - lowCount) := by
          rw [Nat.div_lt_iff_lt_mul positive, ← Nat.pow_add, sum]
          exact small
        have remainder : x % base ^ lowCount < base ^ lowCount := Nat.mod_lt _ positive
        rw [if_neg (Nat.ne_of_gt positive), ih powers' quotient (by omega), bind_eq_bind,
          bind_some, ih powers' remainder (by rw [length_filled (by omega)]; omega),
          filled_filled (by omega) remainder, sum, Nat.div_add_mod']

/-- Whatever the powers are, the text is that of a number which is not less. -/
theorem emitPadded_ge (low : 2 ≤ base) (high : base ≤ 36) (bounded : bits ≠ 0) {level : Nat}
    {buf' : List Char} (counted : Counted base level) (below : x < 2 ^ bits)
    (small : x < base ^ ((largestPower base).per * 2 ^ (level + 1)))
    (inside : out + (largestPower base).per * 2 ^ (level + 1) ≤ buf.length)
    (result : emitPadded th bits base upper level buf out
      ((largestPower base).per * 2 ^ (level + 1)) x = some buf') :
    ∃ y, x ≤ y ∧ y < base ^ ((largestPower base).per * 2 ^ (level + 1)) ∧
      buf' = filled base upper buf out ((largestPower base).per * 2 ^ (level + 1)) y ∧
      (level ≠ 0 → th.getStrDc ≤ size x → towerAt bits base level ≤ x →
        2 ^ bits ≤ base ^ ((largestPower base).per * 2 ^ level) → x < y) := by
  induction level generalizing buf buf' out x with
  | zero =>
    rw [emitPadded, emitPaddedBasecase_eq low high small inside, Option.some.injEq] at result
    exact ⟨x, le_refl x, small, result.symm, fun positive => absurd rfl positive⟩
  | succ level ih =>
    have per := per_pos low high
    obtain ⟨lowCount, isLow⟩ : ∃ l, (largestPower base).per * 2 ^ (level + 1) = l := ⟨_, rfl⟩
    have double : (largestPower base).per * 2 ^ (level + 1 + 1) = lowCount + lowCount := by
      rw [pow_succ, ← mul_assoc, isLow, mul_two]
    have count : digitsAt base (level + 1) = lowCount := by
      rw [counted (level + 1) (le_refl _), isLow]
    have positiveCount : 0 < lowCount := by
      rw [← isLow]
      exact Nat.mul_pos per (Nat.two_pow_pos _)
    rw [double] at small inside result ⊢
    rw [emitPadded] at result
    split at result
    · rename_i short
      rw [emitPaddedBasecase_eq low high small inside, Option.some.injEq] at result
      exact ⟨x, le_refl x, small, result.symm, fun _ large => absurd short (by omega)⟩
    · dsimp only at result
      rw [count, if_neg (by omega), towerAt_eq low high, isLow] at result
      split at result
      · cases result
      · rename_i notZero
        have power : keep bits (base ^ lowCount) ≤ base ^ lowCount := keep_le _ _
        have exactPower : base ^ lowCount < 2 ^ bits → keep bits (base ^ lowCount) = base ^ lowCount :=
          fun fits => keep_of_fits fun _ => fits
        have lost := keep_lt bounded (base ^ lowCount)
        have tower : towerAt bits base (level + 1) = keep bits (base ^ lowCount) := by
          rw [towerAt_eq low high, isLow]
        rw [tower]
        generalize keep bits (base ^ lowCount) = divisor at result notZero power exactPower lost ⊢
        have positive := pos_of_ne_zero notZero
        have quotientBelow : x / divisor < 2 ^ bits :=
          lt_of_le_of_lt (div_le_self _ _) below
        have remainderBelow : x % divisor < 2 ^ bits :=
          lt_of_le_of_lt (mod_le _ _) below
        have remainder : x % divisor < base ^ lowCount :=
          lt_of_lt_of_le (mod_lt _ positive) power
        have quotient : x / divisor < base ^ lowCount := by
          by_cases fits : base ^ lowCount < 2 ^ bits
          · rw [div_lt_iff_lt_mul positive, exactPower fits, ← pow_add]
            exact small
          · exact lt_of_lt_of_le quotientBelow (not_lt.mp fits)
        obtain ⟨buf₁, first, second⟩ := bind_eq_some_iff.mp result
        have width : lowCount + lowCount - lowCount = lowCount := by omega
        rw [width] at first second
        rw [← isLow] at quotient remainder first second
        have below' := counted.mono (le_succ level)
        have room : out + (largestPower base).per * 2 ^ (level + 1) ≤ buf.length := by
          omega
        obtain ⟨yh, leH, smallH, isFirst, -⟩ := ih below' quotientBelow quotient room first
        subst isFirst
        have room' : out + (largestPower base).per * 2 ^ (level + 1) +
            (largestPower base).per * 2 ^ (level + 1) ≤
              (filled base upper buf out ((largestPower base).per * 2 ^ (level + 1)) yh).length := by
          rw [length_filled room, isLow]
          omega
        obtain ⟨yl, leL, smallL, isSecond, -⟩ := ih below' remainderBelow remainder room' second
        subst isSecond
        rw [isLow] at smallH smallL ⊢
        have split := div_add_mod' x divisor
        have scaled : x / divisor * divisor ≤ yh * base ^ lowCount := Nat.mul_le_mul leH power
        refine ⟨yh * base ^ lowCount + yl, by omega, ?_, ?_, ?_⟩
        · rw [pow_add]
          calc yh * base ^ lowCount + yl < yh * base ^ lowCount + base ^ lowCount := by omega
            _ = (yh + 1) * base ^ lowCount := by rw [add_mul, one_mul]
            _ ≤ base ^ lowCount * base ^ lowCount := mul_le_mul_right _ smallH
        · exact filled_filled inside smallL
        · intro _ _ reached wrapped
          -- the divisor has lost bits, and the quotient is not zero
          have one : 0 < yh := lt_of_lt_of_le (div_pos reached positive) leH
          have strict : x / divisor * divisor < yh * base ^ lowCount :=
            lt_of_le_of_lt (mul_le_mul_right _ leH)
              (mul_lt_mul_of_pos_left (lt_of_lt_of_le lost wrapped) one)
          omega

end Padded

/-! ## Leading zeros -/

/-- A text without the zeros in front, but with its last character. -/
def stripped : List Char → List Char
  | [] => []
  | [c] => [c]
  | c :: d :: text => if c = '0' then stripped (d :: text) else c :: d :: text

theorem stripped_replicate (z : Nat) {text : List Char} (nonempty : text ≠ []) :
    stripped (List.replicate z '0' ++ text) = stripped text := by
  induction z with
  | zero => rfl
  | succ z ih =>
    rw [replicate_succ, cons_append]
    cases rest : List.replicate z '0' ++ text with
    | nil => exact absurd (append_eq_nil_iff.mp rest).2 nonempty
    | cons d tail =>
      rw [rest] at ih
      rw [stripped, if_pos rfl, ih]

theorem stripped_of_head {text : List Char} (first : text.head? ≠ some '0') :
    stripped text = text := by
  match text, first with
  | [], _ => rfl
  | [_], _ => rfl
  | c :: d :: rest, first =>
    have other : c ≠ '0' := fun same => first (by rw [same]; rfl)
    rw [stripped, if_neg other]

theorem drop_countLead {buf : List Char} {width : Nat} (inside : width ≤ buf.length)
    (fuel lead : Nat) (start : lead < width) (enough : width ≤ fuel + lead + 1) :
    (buf.take width).drop (countLead buf width fuel lead) = stripped ((buf.take width).drop lead) := by
  induction fuel generalizing lead with
  | zero =>
    have one : ((buf.take width).drop lead).length = 1 := by
      rw [length_drop, length_take]
      omega
    obtain ⟨c, single⟩ := length_eq_one_iff.mp one
    rw [countLead, single]
    rfl
  | succ fuel ih =>
    have length : (buf.take width).length = width := by
      rw [length_take]
      omega
    have here : (buf.take width).drop lead =
        (buf.take width)[lead] :: (buf.take width).drop (lead + 1) :=
      drop_eq_getElem_cons (by omega)
    have same : (buf.take width)[lead] = buf[lead] := getElem_take
    rw [countLead]
    by_cases more : lead + 1 < width
    · have next : (buf.take width).drop (lead + 1) ≠ [] := by
        intro none
        have zero := congrArg List.length none
        rw [length_drop, length, length_nil] at zero
        omega
      obtain ⟨d, rest, split⟩ := exists_cons_of_ne_nil next
      by_cases zero : buf[lead] = '0'
      · rw [if_pos ⟨more, by rw [getElem?_eq_getElem (by omega), zero]⟩,
          ih (lead + 1) more (by omega), here, split, stripped, same, if_pos zero]
      · have stop : ¬(lead + 1 < width ∧ buf[lead]? = some '0') := by
          rw [getElem?_eq_getElem (by omega), Option.some.injEq]
          exact fun both => zero both.2
        rw [if_neg stop, here, split, stripped, same, if_neg zero]
    · have stop : ¬(lead + 1 < width ∧ buf[lead]? = some '0') := fun both => more both.1
      have last : (buf.take width).drop (lead + 1) = [] := by
        rw [drop_eq_nil_iff, length]
        omega
      rw [if_neg stop, here, last]
      rfl

theorem stripped_row {base : Nat} (low : 2 ≤ base) (high : base ≤ 36) (upper : Bool) {width y : Nat}
    (positive : 0 < width) (small : y < base ^ width) :
    stripped ((row base width y).map (tab upper)) = textOf base upper y := by
  rw [row_eq low small, map_append, map_replicate, tab_zero, textOf]
  split
  · rename_i zero
    rw [zero, numeral_zero, map_nil, append_nil, length_nil, Nat.sub_zero]
    obtain ⟨z, rfl⟩ := exists_eq_succ_of_ne_zero (ne_of_gt positive)
    rw [replicate_succ', stripped_replicate z (cons_ne_nil _ _)]
    rfl
  · rename_i more
    have text := textOf_ne_nil low upper y
    rw [textOf, if_neg more] at text
    rw [stripped_replicate _ text, stripped_of_head]
    intro zero
    rw [head?_map, map_eq_some_iff] at zero
    obtain ⟨d, first, same⟩ := zero
    have digit := numeral_lt low y d (mem_of_mem_head? first)
    exact head_numeral_ne_zero first (eq_zero_of_tab (lt_of_lt_of_le digit high) same)

theorem strip_filled {base : Nat} (low : 2 ≤ base) (high : base ≤ 36) (upper : Bool)
    {buf : List Char} {width y : Nat} (positive : 0 < width) (inside : width ≤ buf.length)
    (small : y < base ^ width) :
    ((filled base upper buf 0 width y).take width).drop
        (countLead (filled base upper buf 0 width y) width width 0) = textOf base upper y := by
  have room : 0 + width ≤ buf.length := by omega
  have length : (filled base upper buf 0 width y).length = buf.length := length_filled room
  have taken : (filled base upper buf 0 width y).take (0 + width) = _ := take_filled room
  rw [zero_add, take_zero, nil_append] at taken
  rw [drop_countLead (by omega) width 0 positive (by omega), drop_zero, taken,
    stripped_row low high upper positive small]

theorem digitsAt_eq {base : Nat} (low : 2 ≤ base) (high : base ≤ 36) (k : Nat) :
    digitsAt base k = (largestPower base).per * 2 ^ k % 2 ^ 64 := by
  induction k with
  | zero =>
    have per := per_lt low high
    rw [digitsAt, pow_zero, mul_one]
    omega
  | succ k ih => rw [digitsAt, ih, mod_mul_mod, mul_assoc, ← pow_succ]

theorem counted_of_lt {base : Nat} (low : 2 ≤ base) (high : base ≤ 36) {top : Nat}
    (small : (largestPower base).per * 2 ^ top < 2 ^ 64) : Counted base top := by
  intro k below
  rw [digitsAt_eq low high, mod_eq_of_lt]
  refine lt_of_le_of_lt (mul_le_mul_left _ ?_) small
  exact Nat.pow_le_pow_right (by decide) below

structure IsTop (bits base a top : Nat) : Prop where
  reached : ∀ k < top, towerAt bits base k ≤ a
  bound : top ≤ maxTower - 1
  stopped : top = maxTower - 1 ∨ a < towerAt bits base top

theorem formatTop_isTop (bits base a fuel top : Nat) (reached : ∀ k < top, towerAt bits base k ≤ a)
    (sum : fuel + top = maxTower - 1) : IsTop bits base a (formatTop bits base a fuel top) := by
  induction fuel generalizing top with
  | zero => exact ⟨reached, by rw [formatTop]; omega, .inl (by rw [formatTop]; omega)⟩
  | succ fuel ih =>
    rw [formatTop]
    split
    · rename_i more
      refine ih (top + 1) ?_ (by omega)
      intro k below
      rcases Nat.lt_succ_iff_lt_or_eq.mp below with less | rfl
      · exact reached k less
      · exact more
    · rename_i stop
      exact ⟨reached, by omega, .inr (Nat.not_le.mp stop)⟩

theorem IsTop.unique {bits base a top top' : Nat} (isTop : IsTop bits base a top)
    (isTop' : IsTop bits base a top') : top = top' := by
  rcases lt_trichotomy top top' with less | same | greater
  · have passed := isTop'.reached top less
    have bound := isTop'.bound
    rcases isTop.stopped with last | stopped <;> omega
  · exact same
  · have passed := isTop.reached top' greater
    have bound := isTop.bound
    rcases isTop'.stopped with last | stopped <;> omega

/-- The numbers of digits of the largest powers of the bases in one word. -/
def perValues : List Nat := [63, 40, 31, 27, 24, 22, 21, 20, 19, 18, 17, 16, 15, 14, 13, 12]

theorem per_mem : ∀ base ∈ List.range 37, 2 ≤ base → (largestPower base).per ∈ perValues := by
  decide +kernel

theorem nowrap_facts : ∀ per ∈ perValues, ∀ top ∈ List.range' 54 10,
    per * 2 ^ top % 2 ^ 64 ≠ 0 → ¬ per * 2 ^ top % 2 ^ 64 < 2 ^ 60 ∨ per * 2 ^ top < 2 ^ 60 := by
  decide +kernel

theorem nowrap {base : Nat} (low : 2 ≤ base) (high : base ≤ 36) {top : Nat} (last : top < 64)
    (some_ : (largestPower base).per * 2 ^ top % 2 ^ 64 ≠ 0)
    (small : (largestPower base).per * 2 ^ top % 2 ^ 64 < 2 ^ 60) :
    (largestPower base).per * 2 ^ top < 2 ^ 60 := by
  by_cases early : top < 54
  · have power : 2 ^ top ≤ 2 ^ 53 := Nat.pow_le_pow_right (by decide) (Nat.le_of_lt_succ early)
    have product : (largestPower base).per * 2 ^ top ≤ 64 * 2 ^ 53 :=
      Nat.mul_le_mul (le_of_lt (per_lt low high)) power
    omega
  · have late : top ∈ List.range' 54 10 := mem_range'_1.mpr ⟨by omega, by omega⟩
    have known := nowrap_facts _ (per_mem base (mem_bases high) low) top late some_
    exact known.resolve_left (not_not_intro small)

/-- The input makes `to_string` divide by a power of the base that does not fit the
width: the powers that are squared before one exceeds the value, or before the
tower is full, and their number of digits, which the buffer has room for. -/
def Overflows (th : Thresholds) (bits a base : Nat) : Prop :=
  th.getStrDc ≤ size a ∧ isPow2Base base = false ∧ bits ≠ 0 ∧
    ∃ top, 2 ≤ top ∧ top ≤ 63 ∧
      (∀ k < top, base ^ ((largestPower base).per * 2 ^ k) % 2 ^ bits ≤ a) ∧
      (top = 63 ∨ a < base ^ ((largestPower base).per * 2 ^ top) % 2 ^ bits) ∧
      2 ^ bits ≤ base ^ ((largestPower base).per * 2 ^ (top - 1)) ∧
      (largestPower base).per * 2 ^ top % 2 ^ 64 + 1 ≤ bitLength a + 3

section Strings
variable {th : Thresholds} {bits a base : Nat} {upper : Bool}

/-- The widest level has no room to split, so that the next one is taken. -/
theorem emitPadded_top {level : Nat} {buf : List Char} (large : th.getStrDc ≤ size a) :
    emitPadded th bits base upper (level + 1) buf 0 (digitsAt base (level + 1)) a =
      emitPadded th bits base upper level buf 0 (digitsAt base (level + 1)) a := by
  rw [emitPadded, if_neg (not_lt.mpr large)]
  rw [if_pos (le_refl _)]

theorem emitPadded_top_exact (low : 2 ≤ base) (high : base ≤ 36) {top : Nat} {buf : List Char}
    (large : th.getStrDc ≤ size a)
    (powers : ∀ k < top, k ≠ 0 → towerAt bits base k = base ^ digitsAt base k)
    (small : a < base ^ digitsAt base top) (inside : digitsAt base top ≤ buf.length) :
    emitPadded th bits base upper top buf 0 (digitsAt base top) a =
      some (filled base upper buf 0 (digitsAt base top) a) := by
  cases top with
  | zero => exact emitPaddedBasecase_eq low high small (by omega)
  | succ level =>
    rw [emitPadded_top large]
    exact emitPadded_exact low high (fun k below => powers k (lt_succ_of_le below)) small
      (by omega)

/-- The powers that are divided by, when they fit the width. -/
theorem powers_fit (low : 2 ≤ base) (high : base ≤ 36) {top : Nat}
    (room : bitLength a + 3 < 2 ^ 60) (isTop : IsTop bits base a top)
    (fits : 2 ≤ top → bits = 0 ∨ base ^ ((largestPower base).per * 2 ^ (top - 1)) < 2 ^ bits) :
    Counted base top ∧ a < base ^ digitsAt base top ∧
      ∀ k < top, k ≠ 0 → towerAt bits base k = base ^ digitsAt base k := by
  have per := per_lt low high
  have perPos := per_pos low high
  -- the tower stops below its last entry, at a power above the value
  have finish : top ≠ 63 → (largestPower base).per * 2 ^ top < 2 ^ 64 →
      Counted base top ∧ a < base ^ digitsAt base top := by
    intro notFull small
    have counted := counted_of_lt low high small
    refine ⟨counted, ?_⟩
    have stopped := isTop.stopped.resolve_left notFull
    rw [towerAt_eq low high] at stopped
    rw [counted top (le_refl top)]
    exact lt_of_lt_of_le stopped (keep_le _ _)
  by_cases few : top < 2
  · have small : (largestPower base).per * 2 ^ top < 2 ^ 64 := by
      have power : 2 ^ top ≤ 2 ^ 1 := Nat.pow_le_pow_right (by decide) (Nat.le_of_lt_succ few)
      have product : (largestPower base).per * 2 ^ top ≤ 64 * 2 ^ 1 :=
        Nat.mul_le_mul (le_of_lt per) power
      omega
    obtain ⟨counted, below⟩ := finish (by omega) small
    refine ⟨counted, below, ?_⟩
    intro k less positive
    omega
  · have fits' : ∀ k < top, bits ≠ 0 → base ^ ((largestPower base).per * 2 ^ k) < 2 ^ bits := by
      intro k less bounded
      refine lt_of_le_of_lt ?_ ((fits (by omega)).resolve_left bounded)
      refine Nat.pow_le_pow_right (le_trans (by decide) low) (Nat.mul_le_mul_left _ ?_)
      exact Nat.pow_le_pow_right (by decide) (by omega)
    have tower : ∀ k < top, towerAt bits base k = base ^ ((largestPower base).per * 2 ^ k) := by
      intro k less
      rw [towerAt_eq low high, keep_of_fits (fits' k less)]
    have reached := isTop.reached (top - 1) (by omega)
    rw [tower (top - 1) (by omega)] at reached
    have exponent : (largestPower base).per * 2 ^ (top - 1) < bitLength a := by
      rw [bitLength, lt_size]
      exact le_trans (Nat.pow_le_pow_left low _) reached
    have double : (largestPower base).per * 2 ^ top =
        (largestPower base).per * 2 ^ (top - 1) * 2 := by
      rw [Nat.mul_assoc, ← Nat.pow_succ, Nat.succ_eq_add_one, Nat.sub_add_cancel (by omega)]
    have notFull : top ≠ 63 := by
      rintro rfl
      omega
    obtain ⟨counted, below⟩ := finish notFull (by omega)
    refine ⟨counted, below, ?_⟩
    intro k less _
    rw [tower k less, counted k (le_of_lt less)]

/-- The text of `to_string` when no power that it divides by loses bits. -/
theorem toString_eq (low : 2 ≤ base) (high : base ≤ 36) (room : bitLength a + 3 < 2 ^ 60)
    (fits : ¬Overflows th bits a base) :
    toString th bits a base upper = some (textOf base upper a) := by
  have plain : toChars (bitLength a + 3 - 1) a base upper = some (textOf base upper a) :=
    toChars_eq low high (by omega) (by omega) upper
  rw [toString]
  dsimp only
  split
  · exact plain
  · rename_i large
    rw [not_or, not_or, not_lt] at large
    have isTop := formatTop_isTop bits base a (maxTower - 1) 0 (fun k below => nomatch below) rfl
    generalize formatTop bits base a (maxTower - 1) 0 = top at isTop ⊢
    split
    · exact plain
    · rename_i wide
      have fits' : 2 ≤ top →
          bits = 0 ∨ base ^ ((largestPower base).per * 2 ^ (top - 1)) < 2 ^ bits := by
        intro many
        by_contra lost
        rw [not_or, not_lt] at lost
        have tower : ∀ k, towerAt bits base k =
            base ^ ((largestPower base).per * 2 ^ k) % 2 ^ bits := by
          intro k
          rw [towerAt_eq low high, keep, if_neg lost.1]
        refine fits ⟨large.1, Bool.eq_false_iff.mpr large.2.1, lost.1, top, many, isTop.bound, ?_, ?_,
          lost.2, ?_⟩
        · intro k less
          rw [← tower]
          exact isTop.reached k less
        · rw [← tower]
          exact isTop.stopped
        · rw [← digitsAt_eq low high]
          omega
      obtain ⟨counted, below, powers⟩ := powers_fit low high room isTop fits'
      have positive : 0 < digitsAt base top := by
        rw [counted top (le_refl top)]
        exact Nat.mul_pos (per_pos low high) (Nat.two_pow_pos top)
      have inside : digitsAt base top ≤
          (List.replicate (bitLength a + 3) (Char.ofNat 0)).length := by
        rw [length_replicate]
        omega
      rw [emitPadded_top_exact low high large.1 powers below inside]
      simp only [bind_eq_bind, bind_some]
      rw [strip_filled low high upper positive inside below]

/-- A text made with a power that lost bits is another one. -/
theorem toString_ne (low : 2 ≤ base) (high : base ≤ 36) (fits : bits ≠ 0 → a < 2 ^ bits)
    (room : bitLength a + 3 < 2 ^ 60) (overflows : Overflows th bits a base) :
    toString th bits a base upper ≠ some (textOf base upper a) := by
  obtain ⟨large, notPow, bounded, top, many, bound, reached, stopped, lost, wide⟩ := overflows
  have tower : ∀ k, towerAt bits base k =
      base ^ ((largestPower base).per * 2 ^ k) % 2 ^ bits := by
    intro k
    rw [towerAt_eq low high, keep, if_neg bounded]
  have isTop : IsTop bits base a top := by
    refine ⟨?_, bound, ?_⟩
    · intro k less
      rw [tower]
      exact reached k less
    · rw [tower]
      exact stopped
  have same : formatTop bits base a (maxTower - 1) 0 = top :=
    (formatTop_isTop bits base a (maxTower - 1) 0 (fun k below => by cases below) rfl).unique isTop
  have notPlain : ¬(size a < th.getStrDc ∨ isPow2Base base = true ∨ base < 2 ∨ 36 < base) := by
    rw [notPow]
    simp only [Bool.false_eq_true, false_or]
    omega
  rw [← digitsAt_eq low high] at wide
  rw [toString]
  rw [if_neg notPlain, same, if_neg (by omega)]
  intro result
  obtain ⟨buf, emitted, text⟩ := bind_eq_some_iff.mp result
  rw [Option.some.injEq] at text
  by_cases empty : digitsAt base top = 0
  · -- the number of digits has overflowed to zero
    rw [empty, take_zero, drop_nil] at text
    exact textOf_ne_nil low upper a text.symm
  · have notWrapped : (largestPower base).per * 2 ^ top < 2 ^ 60 := by
      rw [digitsAt_eq low high] at empty wide
      exact nowrap low high (by omega) empty (by omega)
    have counted := counted_of_lt low high (lt_trans notWrapped (by decide))
    obtain ⟨level, rfl⟩ := exists_eq_succ_of_ne_zero (show top ≠ 0 by omega)
    rw [emitPadded_top large] at emitted
    have count := counted (level + 1) (le_refl _)
    rw [count] at emitted text wide empty
    have small : a < base ^ ((largestPower base).per * 2 ^ (level + 1)) := by
      refine lt_of_lt_of_le (fits bounded) (le_trans lost ?_)
      refine Nat.pow_le_pow_right (le_trans (by decide) low) (Nat.mul_le_mul_left _ ?_)
      exact Nat.pow_le_pow_right (by decide) (Nat.le_succ level)
    have inside : 0 + (largestPower base).per * 2 ^ (level + 1) ≤
        (List.replicate (bitLength a + 3) (Char.ofNat 0)).length := by
      rw [length_replicate]
      omega
    obtain ⟨y, _, smallY, isFilled, strict⟩ := emitPadded_ge low high bounded
      (counted.mono (le_succ level)) (fits bounded) small inside emitted
    have greater := strict (by omega) large (isTop.reached level (lt_succ_self level)) lost
    rw [isFilled, strip_filled low high upper (pos_of_ne_zero empty) (by omega) smallY] at text
    exact ne_of_gt greater (textOf_injective low high upper y text)

end Strings

end Micron.Radix
