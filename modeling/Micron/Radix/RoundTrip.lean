import Micron.Radix.Format

/-!
# Round trips

What `to_string` writes is read back as the same number, and is the text of
`to_chars`, unless the tower of powers overflows the width.  `arbint` never builds
the tower.  A number lies in memory, so that its length and the buffers for its
digits stay below `2 ^ 60`.
-/

set_option autoImplicit false

namespace Micron.Radix

open Micron.Lib List Nat

variable {th : Thresholds} {bits a base : Nat} {upper : Bool}

/-- The text comes back as the number, has no needless zero in front and is the one
of `to_chars`. -/
def RoundTrips (th : Thresholds) (bits a base : Nat) (upper : Bool) : Prop :=
  ∃ text, toString th bits a base upper = some text ∧ fromChars th bits base text = some a ∧
    (text.head? = some '0' → text = ['0']) ∧
    ∀ cap, bitLength a ≤ cap → 0 < cap → toChars cap a base upper = some text

/-- The same for a signed number; the digits may stand behind a sign. -/
def RoundTripsInt (th : Thresholds) (bits : Nat) (a : Arbint) (base : Nat) (upper : Bool) : Prop :=
  ∃ text, toStringInt a base upper = some text ∧
    (∃ b, fromCharsInt th bits base text = some b ∧ b.value = a.value) ∧
    (text.head? = some '0' → text = ['0']) ∧
    (∀ digits, text = '-' :: digits → digits.head? = some '0' → digits = ['0']) ∧
    ∀ cap, bitLength a.mag + 2 ≤ cap → toCharsInt cap a base upper = some text

theorem length_textOf_le (low : 2 ≤ base) (upper : Bool) (a : Nat) :
    (textOf base upper a).length ≤ bitLength a + 1 := by
  rw [textOf]
  split
  · simp
  · rw [length_map]
    exact le_succ_of_le (length_numeral_le_size low a)

theorem fromChars_textOf (th : Thresholds) (low : 2 ≤ base) (high : base ≤ 36)
    (fits : bits ≠ 0 → a < 2 ^ bits) (room : bitLength a + 3 < 2 ^ 60) (upper : Bool) :
    fromChars th bits base (textOf base upper a) = some a := by
  have length := length_textOf_le low upper a
  rw [fromChars_eq th low high bits (textOf_digits low high upper a) (textOf_ne_nil low upper a)
    (by omega), valueOf, horner_textOf low high, keep_of_fits fits]

theorem roundTrips_iff (low : 2 ≤ base) (high : base ≤ 36) (fits : bits ≠ 0 → a < 2 ^ bits)
    (room : bitLength a + 3 < 2 ^ 60) :
    RoundTrips th bits a base upper ↔ ¬Overflows th bits a base := by
  constructor
  · rintro ⟨text, written, _, _, plain⟩ overflows
    have same := plain (bitLength a + 1) (le_succ _) (succ_pos _)
    rw [toChars_eq low high (le_succ _) (succ_pos _) upper, Option.some.injEq] at same
    rw [← same] at written
    exact toString_ne low high fits room overflows written
  · intro exact
    refine ⟨textOf base upper a, toString_eq low high room exact,
      fromChars_textOf th low high fits room upper, head_textOf low high upper a, ?_⟩
    intro cap enough positive
    exact toChars_eq low high enough positive upper

theorem sign_not_digit {c : Char} (high : base ≤ 36) (digit : digitValue c < base) :
    c ≠ '-' ∧ c ≠ '+' := by
  have minus : digitValue '-' = 0xFFFFFFFF := by decide
  have plus : digitValue '+' = 0xFFFFFFFF := by decide
  refine ⟨?_, ?_⟩ <;>
  · rintro rfl
    omega

theorem roundTripsInt (th : Thresholds) (low : 2 ≤ base) (high : base ≤ 36)
    (fits : bits ≠ 0 → a < 2 ^ bits) (room : bitLength a + 3 < 2 ^ 60) (negative upper : Bool) :
    RoundTripsInt th bits ⟨a, negative⟩ base upper := by
  have read := fromChars_textOf th low high fits room upper
  have zeros := head_textOf low high upper a
  obtain ⟨c, rest, split⟩ := exists_cons_of_ne_nil (textOf_ne_nil low upper a)
  have digit : digitValue c < base := by
    refine textOf_digits low high upper a c ?_
    rw [split]
    exact mem_cons_self
  obtain ⟨notMinus, notPlus⟩ := sign_not_digit high digit
  cases negative with
  | false =>
    have chars : ∀ cap, bitLength a + 2 ≤ cap →
        toCharsInt cap ⟨a, false⟩ base upper = some (textOf base upper a) := by
      intro cap enough
      have plain : toChars cap a base upper = some (textOf base upper a) :=
        toChars_eq low high (by omega) (by omega) upper
      rw [toCharsInt, if_pos rfl]
      exact plain
    refine ⟨textOf base upper a, chars _ (le_refl _), ⟨⟨a, false⟩, ?_, rfl⟩, zeros, ?_, chars⟩
    · rw [split] at read ⊢
      simp only [fromCharsInt, notMinus, notPlus, or_self, if_false, read, Option.bind_eq_bind,
        Option.bind_some]
    · intro digits same
      rw [split, List.cons.injEq] at same
      exact absurd same.1 notMinus
  | true =>
    have chars : ∀ cap, bitLength a + 2 ≤ cap →
        toCharsInt cap ⟨a, true⟩ base upper = some ('-' :: textOf base upper a) := by
      intro cap enough
      have plain : toChars (cap - 1) a base upper = some (textOf base upper a) :=
        toChars_eq low high (by omega) (by omega) upper
      have some : cap ≠ 0 := by omega
      simp only [toCharsInt, Bool.true_eq_false, if_false, some, plain, Option.bind_eq_bind,
        Option.bind_some, textOf_ne_nil low upper a]
    refine ⟨'-' :: textOf base upper a, chars _ (le_refl _),
      ⟨⟨a, decide (a ≠ 0)⟩, ?_, ?_⟩, ?_, ?_, chars⟩
    · simp only [fromCharsInt, true_or, if_true, textOf_ne_nil low upper a, if_false, read,
        Option.bind_eq_bind, Option.bind_some, decide_true, Bool.true_and]
    · by_cases zero : a = 0
      · simp [Arbint.value, zero]
      · simp [Arbint.value, zero]
    · intro first
      rw [head?_cons, Option.some.injEq] at first
      exact absurd first (by decide)
    · intro digits same
      rw [List.cons.injEq] at same
      rw [← same.2]
      exact zeros

theorem bitLength_ones (bits : Nat) : bitLength (2 ^ bits - 1) = bits := by
  have positive := Nat.two_pow_pos bits
  refine le_antisymm (Nat.size_le.mpr (by omega)) ?_
  cases bits with
  | zero => exact Nat.zero_le _
  | succ bits =>
    refine Nat.lt_size.mpr ?_
    have half := Nat.two_pow_pos bits
    rw [pow_succ]
    omega

/-- Radix conversion round-trips exactly when the tower does not overflow. -/
theorem radix_round_trips_iff (th : Thresholds) (bits a base : Nat) (upper : Bool)
    (low : 2 ≤ base) (high : base ≤ 36) (fits : bits ≠ 0 → a < 2 ^ bits)
    (room : bitLength a + 3 < 2 ^ 60) :
    (RoundTrips th bits a base upper ↔ ¬Overflows th bits a base) ∧
      ∀ negative, RoundTripsInt th bits ⟨a, negative⟩ base upper :=
  ⟨roundTrips_iff low high fits room,
    fun negative => roundTripsInt th low high fits room negative upper⟩

/-- A number of 1024 limbs and 19729 digits, which is split both ways. -/
theorem radix_round_trips_iff_large :
    128 ≤ size (2 ^ 65536 - 1) ∧ RoundTrips ⟨128, 10000⟩ 0 (2 ^ 65536 - 1) 10 false ∧
      RoundTripsInt ⟨128, 10000⟩ 0 ⟨2 ^ 65536 - 1, true⟩ 10 false := by
  have length := bitLength_ones 65536
  have both := radix_round_trips_iff ⟨128, 10000⟩ 0 (2 ^ 65536 - 1) 10 false (by decide) (by decide)
    (fun bounded => absurd rfl bounded) (by rw [length]; decide)
  refine ⟨by rw [size, length]; decide, both.1.mpr ?_, both.2 true⟩
  rintro ⟨_, _, bounded, _⟩
  exact bounded rfl

/-- The greatest number of a width in the base three: all entries of the tower are at
most it, and the count of digits overflows to zero. -/
theorem overflows_ones {bits : Nat} (large : 8192 ≤ bits) (small : bits < 2 ^ 60) :
    Overflows ⟨128, 10000⟩ bits (2 ^ bits - 1) 3 := by
  have length := bitLength_ones bits
  have per : (largestPower 3).per = 40 := by decide +kernel
  refine ⟨?_, by decide, by omega, 63, by decide, by decide, ?_, .inl rfl, ?_, ?_⟩
  · show 128 ≤ size (2 ^ bits - 1)
    rw [size, length]
    omega
  · intro k _
    exact Nat.le_sub_one_of_lt (Nat.mod_lt _ (Nat.two_pow_pos bits))
  · refine le_trans (Nat.pow_le_pow_right (by decide) ?_) (Nat.pow_le_pow_left (by decide) _)
    rw [per]
    omega
  · have wrapped : 40 * 2 ^ 63 % 2 ^ 64 = 0 := by decide
    rw [per, wrapped]
    omega

theorem ones_not_roundTrips {bits : Nat} (large : 8192 ≤ bits) (small : bits + 3 < 2 ^ 60) :
    ¬RoundTrips ⟨128, 10000⟩ bits (2 ^ bits - 1) 3 false := by
  have room : bitLength (2 ^ bits - 1) + 3 < 2 ^ 60 := by
    rw [bitLength_ones]
    exact small
  have fits : 2 ^ bits - 1 < 2 ^ bits := Nat.sub_lt (Nat.two_pow_pos _) Nat.one_pos
  rw [roundTrips_iff (by decide) (by decide) (fun _ => fits) room, not_not]
  exact overflows_ones large (by omega)

/-- A number of 8192 bits. -/
theorem radix_round_trip_fails :
    bitLength (2 ^ 8192 - 1) + 3 < 2 ^ 60 ∧ ¬RoundTrips ⟨128, 10000⟩ 8192 (2 ^ 8192 - 1) 3 false := by
  refine ⟨?_, ones_not_roundTrips (le_refl _) (by decide)⟩
  rw [bitLength_ones]
  decide

end Micron.Radix
