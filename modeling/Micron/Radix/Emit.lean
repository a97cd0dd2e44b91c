import Micron.Lib.Numeral
import Micron.Radix.Model

/-!
# The digits that are written

`emit_digits` writes the numeral of a number, by slices of bits when the base is a
power of two and by chunks of one limb otherwise.
-/

set_option autoImplicit false

namespace Micron.Radix

open Micron.Lib List Nat

theorem largestPower_facts : ∀ base ∈ List.range 37, 2 ≤ base →
    (largestPower base).big = base ^ (largestPower base).per ∧ 0 < (largestPower base).per ∧
      (largestPower base).per < 64 ∧ base ^ (largestPower base).per < 2 ^ 64 := by
  decide +kernel

theorem mem_bases {base : Nat} (high : base ≤ 36) : base ∈ List.range 37 :=
  mem_range.mpr (lt_succ_of_le high)

section Bases
variable {base : Nat} (low : 2 ≤ base) (high : base ≤ 36)
include low high

theorem big_eq : (largestPower base).big = base ^ (largestPower base).per :=
  (largestPower_facts base (mem_bases high) low).1

theorem per_pos : 0 < (largestPower base).per :=
  (largestPower_facts base (mem_bases high) low).2.1

theorem per_lt : (largestPower base).per < 64 :=
  (largestPower_facts base (mem_bases high) low).2.2.1

theorem big_lt : base ^ (largestPower base).per < 2 ^ 64 :=
  (largestPower_facts base (mem_bases high) low).2.2.2

end Bases

theorem size_pos_iff (x : Nat) : 0 < size x ↔ 0 < x := by
  have length : 0 < bitLength x ↔ 0 < x := size_pos
  rw [← length, size]
  omega

theorem size_eq_zero_iff (x : Nat) : size x = 0 ↔ x = 0 := by
  have positive := size_pos_iff x
  omega

theorem lt_of_size (x : Nat) : x < 2 ^ (64 * size x) := by
  refine lt_of_lt_of_le (Nat.lt_size_self x) (Nat.pow_le_pow_right (by decide) ?_)
  rw [size, bitLength]
  omega

theorem testBit_limb (x i j : Nat) :
    (limb x i).testBit j = (decide (j < 64) && x.testBit (64 * i + j)) := by
  rw [limb, testBit_mod_two_pow, testBit_div_two_pow, add_comm]

theorem bitSlice_eq (x k pos : Nat) (small : k ≤ 64) :
    bitSlice x (size x) (2 ^ k) k pos = x / 2 ^ pos % 2 ^ k := by
  apply eq_of_testBit_eq
  intro j
  rw [bitSlice, and_two_pow_sub_one_eq_mod, testBit_mod_two_pow, testBit_mod_two_pow,
    testBit_div_two_pow, add_comm j pos]
  by_cases inside : j < k
  · simp only [inside, decide_true, Bool.true_and]
    have bit : (limb x (pos / 64) >>> (pos % 64)).testBit j =
        (decide (pos % 64 + j < 64) && x.testBit (pos + j)) := by
      rw [testBit_shiftRight, testBit_limb]
      have same : 64 * (pos / 64) + (pos % 64 + j) = pos + j := by omega
      rw [same]
    split
    · have next : ((limb x (pos / 64 + 1) <<< (64 - pos % 64)) % 2 ^ 64).testBit j =
          (decide (64 ≤ pos % 64 + j) && x.testBit (pos + j)) := by
        rw [testBit_mod_two_pow, testBit_shiftLeft, testBit_limb]
        by_cases crossing : 64 ≤ pos % 64 + j
        · have same : 64 * (pos / 64 + 1) + (j - (64 - pos % 64)) = pos + j := by omega
          have first : j < 64 := by omega
          have second : 64 - pos % 64 ≤ j := by omega
          have third : j - (64 - pos % 64) < 64 := by omega
          simp [same, first, second, third, crossing]
        · have first : ¬64 - pos % 64 ≤ j := by omega
          simp [first, crossing]
      rw [testBit_or, bit, next]
      by_cases crossing : 64 ≤ pos % 64 + j
      · have notBelow : ¬pos % 64 + j < 64 := by omega
        simp [crossing, notBelow]
      · have below : pos % 64 + j < 64 := by omega
        simp [below, crossing]
    · rename_i single
      rw [bit]
      by_cases below : pos % 64 + j < 64
      · simp [below]
      · -- the bit lies above the last limb
        have above : x.testBit (pos + j) = false := by
          refine testBit_lt_two_pow (lt_of_lt_of_le (lt_of_size x) ?_)
          exact Nat.pow_le_pow_right (by decide) (by omega)
        rw [above, Bool.and_false]
  · simp [inside]

theorem emitBits_eq (upper : Bool) {x k : Nat} (positive : 0 < k) (small : k ≤ 64) (fuel pos : Nat)
    (text : List Char) (enough : bitLength x ≤ fuel + pos) :
    emitBits x (size x) (2 ^ k) k (bitLength x) upper fuel pos text =
      (numeral (2 ^ k) (x / 2 ^ pos)).map (tab upper) ++ text := by
  have large : 1 < 2 ^ k := Nat.one_lt_two_pow (ne_of_gt positive)
  induction fuel generalizing pos text with
  | zero =>
    have done : x / 2 ^ pos = 0 := by
      rw [Nat.div_eq_zero_iff]
      refine .inr (size_le.mp ?_)
      rw [zero_add] at enough
      exact enough
    simp [emitBits, done]
  | succ fuel ih =>
    rw [emitBits]
    split
    · rename_i inside
      have more : 0 < x / 2 ^ pos := Nat.div_pos (Nat.lt_size.mp inside) (Nat.two_pow_pos pos)
      rw [ih (pos + k) _ (by omega), bitSlice_eq x k pos small, pow_add,
        ← Nat.div_div_eq_div_mul, numeral_of_pos large more]
      simp
    · rename_i outside
      have done : x / 2 ^ pos = 0 := by
        rw [Nat.div_eq_zero_iff]
        exact .inr (size_le.mp (not_lt.mp outside))
      simp [done]

section Chunks
variable {base : Nat} (upper : Bool)

theorem emitChunk_eq (base k v : Nat) (text : List Char) :
    emitChunk base upper k v text = (row base k v).map (tab upper) ++ text := by
  induction k generalizing v text with
  | zero => simp [emitChunk, row]
  | succ k ih => simp [emitChunk, row, ih]

theorem emitFirst_eq (large : 1 < base) {v fuel : Nat} (positive : 0 < v) (small : v < 2 ^ fuel)
    (text : List Char) :
    emitFirst base upper fuel v text = (numeral base v).map (tab upper) ++ text := by
  induction fuel generalizing v text with
  | zero => omega
  | succ fuel ih =>
    rw [emitFirst, numeral_of_pos large positive]
    split
    · rename_i more
      have half : v / base < 2 ^ fuel := by
        refine lt_of_le_of_lt (div_le_div_left large (by decide)) ?_
        rw [div_lt_iff_lt_mul (by decide), ← pow_succ]
        exact small
      rw [ih (pos_of_ne_zero more) half]
      simp
    · rename_i done
      rw [ne_eq, not_not] at done
      simp [done]

theorem emitChunks_eq (low : 2 ≤ base) (high : base ≤ 36) {x fuel : Nat} (small : x < 2 ^ fuel)
    (text : List Char) :
    emitChunks base (largestPower base) upper fuel x text =
      (numeral base x).map (tab upper) ++ text := by
  have large : 1 < base := low
  have big : 2 ≤ (largestPower base).big := by
    rw [big_eq low high]
    exact le_trans low (Nat.le_self_pow (ne_of_gt (per_pos low high)) base)
  induction fuel generalizing x text with
  | zero =>
    have zero : x = 0 := by simpa using small
    simp [emitChunks, zero]
  | succ fuel ih =>
    rw [emitChunks]
    split
    · rename_i more
      rw [size_pos_iff] at more
      have half : x / (largestPower base).big < 2 ^ fuel := by
        refine lt_of_le_of_lt (Nat.div_le_div_left big (by decide)) ?_
        rw [Nat.div_lt_iff_lt_mul (by decide), ← pow_succ]
        exact small
      simp only [size_eq_zero_iff]
      split
      · rename_i last
        have below : x < (largestPower base).big :=
          (Nat.div_eq_zero_iff.mp last).resolve_left (by omega)
        rw [ih half, last, Nat.mod_eq_of_lt below, emitFirst_eq upper large more]
        · simp
        · rw [big_eq low high] at below
          exact lt_trans below (big_lt low high)
      · rename_i rest
        rw [ih half, emitChunk_eq, big_eq low high, row_mod]
        rw [big_eq low high] at rest
        rw [numeral_split large (largestPower base).per (Nat.pos_of_ne_zero rest)]
        simp
    · rename_i done
      have zero : x = 0 := by
        have positive := size_pos_iff x
        omega
      simp [zero]

end Chunks

theorem digitBits_facts : ∀ base ∈ List.range 37, isPow2Base base = true →
    base = 2 ^ digitBits 32 base ∧ 0 < digitBits 32 base ∧ digitBits 32 base ≤ 64 := by
  decide +kernel

theorem emitDigits_eq {base : Nat} (low : 2 ≤ base) (high : base ≤ 36) (x : Nat) (upper : Bool) :
    emitDigits x base upper = (numeral base x).map (tab upper) := by
  rw [emitDigits]
  split
  · rename_i power
    obtain ⟨same, positive, small⟩ := digitBits_facts base (mem_bases high) power
    have slices := emitBits_eq upper (x := x) positive small (bitLength x) 0 [] (by omega)
    rw [← same] at slices
    rw [slices]
    simp
  · rw [emitChunks_eq upper low high (show x < 2 ^ bitLength x from lt_size_self x)]
    simp

def textOf (base : Nat) (upper : Bool) (a : Nat) : List Char :=
  if a = 0 then ['0'] else (numeral base a).map (tab upper)

theorem toChars_eq {base cap a : Nat} (low : 2 ≤ base) (high : base ≤ 36) (room : bitLength a ≤ cap)
    (positive : 0 < cap) (upper : Bool) : toChars cap a base upper = some (textOf base upper a) := by
  have valid : ¬(base < 2 ∨ 36 < base ∨ cap = 0) := by omega
  rw [toChars, if_neg valid, textOf]
  split
  · rfl
  · have fits : ((numeral base a).map (tab upper)).length ≤ bitLength a := by
      rw [length_map]
      exact length_numeral_le_size low a
    rw [if_neg (not_lt.mpr room), emitDigits_eq low high]
    simp only [if_pos fits]

theorem digitsUpper_eq : digitsUpper =
    ['0', '1', '2', '3', '4', '5', '6', '7', '8', '9', 'A', 'B', 'C', 'D', 'E', 'F', 'G', 'H', 'I', 'J',
      'K', 'L', 'M', 'N', 'O', 'P', 'Q', 'R', 'S', 'T', 'U', 'V', 'W', 'X', 'Y', 'Z'] :=
  String.toList_ofList

theorem digitsLower_eq : digitsLower =
    ['0', '1', '2', '3', '4', '5', '6', '7', '8', '9', 'a', 'b', 'c', 'd', 'e', 'f', 'g', 'h', 'i', 'j',
      'k', 'l', 'm', 'n', 'o', 'p', 'q', 'r', 's', 't', 'u', 'v', 'w', 'x', 'y', 'z'] :=
  String.toList_ofList

theorem tab_facts : ∀ upper : Bool, ∀ d ∈ List.range 36, digitValue (tab upper d) = d ∧
    (tab upper d = '0' → d = 0) := by
  simp only [tab, digitsUpper_eq, digitsLower_eq]
  decide +kernel

theorem digitValue_tab (upper : Bool) {d : Nat} (small : d < 36) : digitValue (tab upper d) = d :=
  (tab_facts upper d (mem_range.mpr small)).1

theorem tab_zero (upper : Bool) : tab upper 0 = '0' := by
  cases upper with
  | false => rw [tab, digitsLower_eq]; rfl
  | true => rw [tab, digitsUpper_eq]; rfl

theorem eq_zero_of_tab {upper : Bool} {d : Nat} (small : d < 36) (zero : tab upper d = '0') :
    d = 0 :=
  (tab_facts upper d (mem_range.mpr small)).2 zero

section Text
variable {base : Nat} (low : 2 ≤ base) (high : base ≤ 36) (upper : Bool) (a : Nat)
include low high

omit low in
theorem map_digitValue {digits : List Nat} (all : ∀ d ∈ digits, d < base) :
    (digits.map (tab upper)).map digitValue = digits := by
  rw [map_map]
  refine (map_congr_left ?_).trans (map_id digits)
  intro d member
  exact digitValue_tab upper (lt_of_lt_of_le (all d member) high)

theorem horner_textOf : horner base ((textOf base upper a).map digitValue) = a := by
  rw [textOf]
  split
  · rename_i zero
    rw [zero]
    simp [horner]
    decide
  · rw [map_digitValue high upper (numeral_lt low a), horner_numeral low]

theorem textOf_digits : ∀ c ∈ textOf base upper a, digitValue c < base := by
  intro c member
  rw [textOf] at member
  split at member
  · rw [mem_singleton.mp member]
    exact lt_of_lt_of_le (by decide) low
  · obtain ⟨d, inside, rfl⟩ := mem_map.mp member
    have small := numeral_lt low a d inside
    rw [digitValue_tab upper (lt_of_lt_of_le small high)]
    exact small

theorem textOf_injective {a' : Nat} (same : textOf base upper a = textOf base upper a') : a = a' := by
  have values := congrArg (fun text => horner base (List.map digitValue text)) same
  simpa only [horner_textOf low high] using values

omit high in
theorem textOf_ne_nil : textOf base upper a ≠ [] := by
  rw [textOf]
  split
  · exact cons_ne_nil _ _
  · rename_i positive
    rw [numeral_of_pos low (pos_of_ne_zero positive)]
    simp

theorem head_textOf (zero : (textOf base upper a).head? = some '0') :
    textOf base upper a = ['0'] := by
  rw [textOf] at zero ⊢
  split
  · rfl
  · rename_i positive
    rw [if_neg positive, head?_map, Option.map_eq_some_iff] at zero
    obtain ⟨d, first, same⟩ := zero
    have small := numeral_lt low a d (mem_of_mem_head? first)
    exact absurd (eq_zero_of_tab (lt_of_lt_of_le small high) same) (head_numeral_ne_zero first)

end Text

end Micron.Radix
