import Micron.Chars.Parse

/-!
# Which texts are read

A reader accepts a sign and digits whose value is in range.
-/

set_option autoImplicit false

namespace Micron.Chars

open Micron.Lib List Nat Option Int

/-- The digits of a text, none where a character is no digit of the base. -/
def values (base : Nat) : List Char → Option (List Nat)
  | [] => some []
  | c :: rest =>
    match digitVal c base, values base rest with
    | some d, some ds => some (d :: ds)
    | _, _ => none

def extend (base : Nat) (acc : Nat) (ds : List Nat) : Nat :=
  ds.foldl (fun acc d => acc * base + d) acc

theorem extend_zero (base : Nat) (ds : List Nat) : extend base 0 ds = horner base ds := rfl

theorem le_extend {base : Nat} (positive : 0 < base) (acc : Nat) (ds : List Nat) :
    acc ≤ extend base acc ds := by
  induction ds generalizing acc with
  | nil => exact le_refl acc
  | cons d ds ih =>
    have next := ih (acc * base + d)
    have more : acc ≤ acc * base := Nat.le_mul_of_pos_right acc positive
    rw [extend, foldl_cons, ← extend]
    omega

theorem digitVal_lt {c : Char} {base d : Nat} (digit : digitVal c base = some d) : d < base := by
  exact of_decide_eq_true (filter_eq_some_iff.mp digit).2

theorem digitVal_minus (base : Nat) : digitVal '-' base = none := rfl

theorem digitVal_plus (base : Nat) : digitVal '+' base = none := rfl

theorem digitVal_digitChar (upper : Bool) {d base : Nat} (small : d < base) (most : base ≤ 36) :
    digitVal (digitChar upper d) base = some d := by
  have table : ∀ upper : Bool, ∀ d < 36, digitVal
      (Char.ofNat (if d < 10 then 48 + d else if upper then 55 + d else 87 + d)) 36 = some d := by
    decide +kernel
  have known := table upper d (by omega)
  rw [← digitChar_eq upper (by omega)] at known
  rw [digitVal, filter_eq_some_iff] at known ⊢
  exact ⟨known.1, decide_eq_true small⟩

theorem values_map (upper : Bool) {base : Nat} (most : base ≤ 36) {ds : List Nat}
    (small : ∀ d ∈ ds, d < base) : values base (ds.map (digitChar upper)) = some ds := by
  induction ds with
  | nil => rfl
  | cons d ds ih =>
    rw [map_cons, values, digitVal_digitChar upper (small d mem_cons_self) most,
      ih fun e member => small e (mem_cons_of_mem _ member)]

/-- With an exact test for results above `top` the loop reads what is not above it. -/
theorem readDigits_eq {base wrap top : Nat} {exceeds : Nat → Nat → Bool} (positive : 0 < base)
    (fits : top < wrap)
    (exact : ∀ acc d, acc ≤ top → d < base → (exceeds acc d = true ↔ top < acc * base + d))
    (text : List Char) {acc : Nat} (le : acc ≤ top) :
    readDigits base wrap exceeds acc text =
      ((values base text).map (extend base acc)).filter (· ≤ top) := by
  induction text generalizing acc with
  | nil =>
    rw [readDigits, values, map_some, extend, foldl_nil, filter_some,
      if_pos (decide_eq_true le)]
  | cons c rest ih =>
    rw [readDigits, values]
    cases digit : digitVal c base with
    | none => rfl
    | some d =>
      have test := exact acc d le (digitVal_lt digit)
      dsimp only
      split
      next above =>
        have beyond := test.mp above
        cases values base rest with
        | none => rfl
        | some ds =>
          have more := le_extend positive (acc * base + d) ds
          rw [map_some, extend, foldl_cons, ← extend, filter_some,
            if_neg (by rw [decide_eq_true_eq]; omega)]
      next inside =>
        have within : acc * base + d ≤ top := Nat.le_of_not_lt (mt test.mpr inside)
        rw [mod_eq_of_lt (by omega), ih within]
        cases values base rest with
        | none => rfl
        | some ds => rfl

theorem exceeds_iff {base lim acc d : Nat} (positive : 0 < base) :
    (d > lim ∨ acc > (lim - d) / base) ↔ lim < acc * base + d := by
  by_cases large : d > lim
  · exact ⟨fun _ => by omega, fun _ => .inl large⟩
  · have quotient := div_lt_iff_lt_mul positive (x := lim - d) (y := acc)
    refine ⟨?_, ?_⟩
    · intro either
      omega
    · intro above
      exact .inr (quotient.mpr (by omega))

/-- The test that compares with the quotient and then with the remainder. -/
theorem exceeds_parts_iff {base d : Nat} (umax acc : Nat) (small : d < base) :
    (acc > umax / base ∨ (acc = umax / base ∧ d > umax % base)) ↔ umax < acc * base + d := by
  have positive : 0 < base := by omega
  have parts := div_add_mod umax base
  have remainder := mod_lt umax positive
  generalize umax / base = q at parts ⊢
  generalize umax % base = r at parts remainder ⊢
  rcases lt_trichotomy acc q with less | same | more
  · have next := mul_le_mul_left base (succ_le_of_lt less)
    rw [mul_succ, mul_comm base acc] at next
    exact ⟨fun _ => by omega, fun _ => by omega⟩
  · rw [same, mul_comm q base]
    exact ⟨fun _ => by omega, fun _ => by omega⟩
  · have next := mul_le_mul_left base (succ_le_of_lt more)
    rw [mul_succ, mul_comm base acc] at next
    exact ⟨fun _ => by omega, fun _ => by omega⟩

def Digit (base : Nat) (c : Char) (d : Nat) : Prop := d < base ∧ ∃ upper, c = digitChar upper d

def Spells (base : Nat) (text : List Char) (n : Nat) : Prop :=
  text ≠ [] ∧ ∃ ds, List.Forall₂ (Digit base) text ds ∧ n = horner base ds

/-- An optional sign, a minus only for signed types, and digits. -/
inductive Denotes (signed : Bool) (base : Nat) : List Char → Int → Prop
  | bare {text : List Char} {n : Nat} (digits : Spells base text n) : Denotes signed base text n
  | plus {text : List Char} {n : Nat} (digits : Spells base text n) :
      Denotes signed base ('+' :: text) n
  | minus {text : List Char} {n : Nat} (isSigned : signed = true) (digits : Spells base text n) :
      Denotes signed base ('-' :: text) (-n)

theorem digitVal_iff {base d : Nat} (most : base ≤ 36) (c : Char) :
    digitVal c base = some d ↔ Digit base c d := by
  refine ⟨fun digit => ⟨digitVal_lt digit, ?_⟩, ?_⟩
  · have table : ∀ n < 123, ∀ d ∈ digitVal (Char.ofNat n) 36,
        ∃ upper : Bool, Char.ofNat n =
          Char.ofNat (if d < 10 then 48 + d else if upper then 55 + d else 87 + d) := by
      decide +kernel
    have wide : digitVal c 36 = some d := by
      have small := digitVal_lt digit
      rw [digitVal, filter_eq_some_iff] at digit ⊢
      exact ⟨digit.1, decide_eq_true (by omega)⟩
    have low : c.toNat < 123 := by
      by_contra high
      have upTo : ∀ top : Char, top.toNat < 123 → ¬c ≤ top := by
        intro top small le
        have : c.toNat ≤ top.toNat := le
        omega
      rw [digitVal, if_neg fun range => upTo '9' (by decide) range.2,
        if_neg fun range => upTo 'z' (by decide) range.2,
        if_neg fun range => upTo 'Z' (by decide) range.2] at wide
      exact absurd wide (by simp)
    have known := table c.toNat low d
    rw [Char.ofNat_toNat] at known
    obtain ⟨upper, spelled⟩ := known wide
    exact ⟨upper, spelled.trans (digitChar_eq upper (digitVal_lt wide)).symm⟩
  · rintro ⟨small, upper, rfl⟩
    exact digitVal_digitChar upper small most

theorem values_iff {base : Nat} (most : base ≤ 36) (text : List Char) (ds : List Nat) :
    values base text = some ds ↔ List.Forall₂ (Digit base) text ds := by
  induction text generalizing ds with
  | nil =>
    rw [values, List.forall₂_nil_left_iff, some_inj]
    exact eq_comm
  | cons c rest ih =>
    rw [values, List.forall₂_cons_left_iff]
    refine ⟨?_, ?_⟩
    · intro found
      split at found
      next d tail digit digits =>
        cases found
        exact ⟨d, tail, (digitVal_iff most c).mp digit, (ih tail).mp digits, rfl⟩
      next => exact absurd found (by simp)
    · rintro ⟨d, tail, digit, digits, rfl⟩
      rw [(digitVal_iff most c).mpr digit, (ih tail).mpr digits]

theorem spells_iff {base : Nat} (most : base ≤ 36) (text : List Char) (n : Nat) :
    Spells base text n ↔ text ≠ [] ∧ (values base text).map (extend base 0) = some n := by
  refine and_congr_right fun _ => ?_
  rw [map_eq_some_iff]
  refine exists_congr fun ds => ?_
  rw [values_iff most, extend_zero, eq_comm]

theorem Spells.takeSign {base : Nat} (most : base ≤ 36) {text : List Char} {n : Nat}
    (digits : Spells base text n) : takeSign text = (false, text) := by
  obtain ⟨_, found⟩ := (spells_iff most text n).mp digits
  unfold Chars.takeSign
  split
  next rest => exact absurd found (by rw [values, digitVal_minus]; simp)
  next rest => exact absurd found (by rw [values, digitVal_plus]; simp)
  next => rfl

theorem denotes_iff {signed : Bool} {base : Nat} (most : base ≤ 36) (text : List Char) (v : Int) :
    Denotes signed base text v ↔ ((takeSign text).1 = true → signed = true) ∧
      ∃ n, Spells base (takeSign text).2 n ∧ v = if (takeSign text).1 then -(n : Int) else n := by
  refine ⟨?_, ?_⟩
  · intro denotes
    cases denotes with
    | bare digits =>
      rw [digits.takeSign most]
      exact ⟨nofun, _, digits, rfl⟩
    | plus digits => exact ⟨nofun, _, digits, rfl⟩
    | minus isSigned digits => exact ⟨fun _ => isSigned, _, digits, rfl⟩
  · rintro ⟨isSigned, n, digits, rfl⟩
    revert isSigned digits
    unfold takeSign
    split
    next rest => exact fun isSigned digits => Denotes.minus (isSigned rfl) digits
    next rest => exact fun _ digits => Denotes.plus digits
    next => exact fun _ digits => Denotes.bare digits

inductive Width
  | w8 | w16 | w32 | w64 | w128
  deriving DecidableEq, Repr

def Width.bits : Width → Nat
  | .w8 => 8
  | .w16 => 16
  | .w32 => 32
  | .w64 => 64
  | .w128 => 128

structure IntType where
  width : Width
  signed : Bool
  deriving DecidableEq, Repr

def Within (bits : Nat) (signed : Bool) (v : Int) : Prop :=
  if signed then -2 ^ (bits - 1) ≤ v ∧ v < 2 ^ (bits - 1) else 0 ≤ v ∧ v < 2 ^ bits

def IntType.InRange (t : IntType) (v : Int) : Prop := Within t.width.bits t.signed v

def IntType.toChars (t : IntType) (cap : Nat) (v : Int) (base : Nat) (upper : Bool) :
    Option (List Char) :=
  if t.width = .w128 then toChars128 t.signed cap v base upper
  else Chars.toChars t.width.bits t.signed cap v base upper

def IntType.fromChars (t : IntType) (text : List Char) (base : Nat) : Option Int :=
  if t.width = .w128 then
    if t.signed then fromCharsI128 text base else (fromCharsU128 text base).map fun n : Nat => (n : Int)
  else Chars.fromChars t.width.bits t.signed text base

/-! ## Reading -/

theorem limit_eq {bits : Nat} (positive : 0 < bits) (signed neg : Bool) :
    limit bits signed neg =
      if signed then if neg then 2 ^ (bits - 1) else 2 ^ (bits - 1) - 1 else 2 ^ bits - 1 := by
  have half : (2 ^ bits - 1) >>> 1 = 2 ^ (bits - 1) - 1 := by
    have double : 2 ^ bits = 2 * 2 ^ (bits - 1) := by
      rw [← Nat.pow_succ', Nat.succ_eq_add_one, Nat.sub_add_cancel positive]
    omega
  have some := Nat.two_pow_pos (bits - 1)
  rw [limit, half, Nat.sub_add_cancel some]

/-- A magnitude within the limit is a value in range. -/
theorem le_limit_iff {bits : Nat} (positive : 0 < bits) {signed neg : Bool}
    (isSigned : neg = true → signed = true) (n : Nat) :
    n ≤ limit bits signed neg ↔ Within bits signed (if neg then -(n : Int) else n) := by
  have some := Nat.two_pow_pos (bits - 1)
  have some' := Nat.two_pow_pos bits
  have cast : ((2 ^ (bits - 1) : Nat) : Int) = 2 ^ (bits - 1) := by norm_cast
  have cast' : ((2 ^ bits : Nat) : Int) = 2 ^ bits := by norm_cast
  rw [limit_eq positive, Within, ← cast, ← cast']
  cases signed <;> cases neg
  · simp only [Bool.false_eq_true, if_false]
    omega
  · exact absurd (isSigned rfl) (by decide)
  · simp only [Bool.false_eq_true, if_false, if_true]
    omega
  · simp only [if_true]
    omega

theorem bmod_of_within {bits : Nat} (positive : 0 < bits) {v : Int} (range : Within bits true v) :
    v.bmod (2 ^ bits) = v := by
  obtain ⟨least, most⟩ := range
  have double : 2 ^ bits = 2 * 2 ^ (bits - 1) := by
    rw [← Nat.pow_succ', Nat.succ_eq_add_one, Nat.sub_add_cancel positive]
  have cast : ((2 ^ (bits - 1) : Nat) : Int) = 2 ^ (bits - 1) := by norm_cast
  apply bmod_eq_of_le <;> rw [double] <;> omega

theorem mod_of_within {bits : Nat} {v : Int} (range : Within bits false v) : v % 2 ^ bits = v :=
  emod_eq_of_lt range.1 range.2

theorem readDigits_iff {base wrap top : Nat} {exceeds : Nat → Nat → Bool} (least : 2 ≤ base)
    (most : base ≤ 36) (fits : top < wrap)
    (exact : ∀ acc d, acc ≤ top → d < base → (exceeds acc d = true ↔ top < acc * base + d))
    (text : List Char) (n : Nat) :
    (text ≠ [] ∧ readDigits base wrap exceeds 0 text = some n) ↔ Spells base text n ∧ n ≤ top := by
  rw [readDigits_eq (by omega) fits exact text (zero_le top), spells_iff most,
    filter_eq_some_iff, decide_eq_true_iff, and_assoc]

theorem takeSign_fst (text : List Char) : (takeSign text).1 = true ↔ text.head? = some '-' := by
  unfold takeSign
  split
  next => exact ⟨fun _ => rfl, fun _ => rfl⟩
  next => exact ⟨nofun, nofun⟩
  next other _ =>
    refine ⟨nofun, fun head => ?_⟩
    obtain ⟨rest, rfl⟩ := head?_eq_some_iff.mp head
    exact absurd rfl (other rest)

theorem takeSign_nil : takeSign [] = (false, []) := rfl

theorem limit_lt {bits : Nat} (positive : 0 < bits) (signed neg : Bool) :
    limit bits signed neg < 2 ^ bits := by
  have some := Nat.two_pow_pos (bits - 1)
  have double : 2 ^ bits = 2 * 2 ^ (bits - 1) := by
    rw [← Nat.pow_succ', Nat.succ_eq_add_one, Nat.sub_add_cancel positive]
  rw [limit_eq positive]
  split_ifs <;> omega

theorem converted {bits : Nat} (positive : 0 < bits) {signed neg : Bool}
    (isSigned : neg = true → signed = true) {n : Nat}
    (range : Within bits signed (if neg then -(n : Int) else n)) :
    (if signed then (if neg then 0 - (n : Int) else n).bmod (2 ^ bits) else (n : Int) % 2 ^ bits) =
      if neg then -(n : Int) else n := by
  rw [zero_sub]
  cases signed with
  | true => exact bmod_of_within positive range
  | false =>
    cases neg with
    | true => exact absurd (isSigned rfl) (by decide)
    | false => exact mod_of_within range

theorem fromChars_iff {bits base : Nat} (positive : 0 < bits) (word : bits ≤ 64) (least : 2 ≤ base)
    (most : base ≤ 36) (signed : Bool) (text : List Char) (v : Int) :
    fromChars bits signed text base = some v ↔ Denotes signed base text v ∧ Within bits signed v := by
  have minus := takeSign_fst text
  have outside : ¬(base < 2 ∨ base > 36) := by omega
  rw [denotes_iff most, fromChars]
  by_cases empty : text = []
  · rw [if_pos (.inl empty), empty, takeSign_nil]
    exact ⟨nofun, fun ⟨⟨_, _, digits, _⟩, _⟩ => absurd rfl digits.1⟩
  rw [if_neg (by tauto)]
  by_cases rejected : text.head? = some '-' ∧ signed = false
  · rw [if_pos rejected]
    refine ⟨nofun, fun ⟨⟨isSigned, _⟩, _⟩ => ?_⟩
    rw [isSigned (minus.mpr rejected.1)] at rejected
    exact absurd rejected.2 (by decide)
  have isSigned : (takeSign text).1 = true → signed = true := by
    intro neg
    by_contra unsigned
    exact rejected ⟨minus.mp neg, Bool.eq_false_iff.mpr unsigned⟩
  rw [if_neg rejected]
  generalize takeSign text = s at isSigned ⊢
  obtain ⟨neg, rest⟩ := s
  have fits : limit bits signed neg < 2 ^ 64 :=
    lt_of_lt_of_le (limit_lt positive signed neg) (Nat.pow_le_pow_right (by decide) word)
  have reads := readDigits_iff least most fits
    (fun acc d _ _ => decide_eq_true_iff.trans (exceeds_iff (by omega : 0 < base))) rest
  by_cases none : rest = []
  · rw [if_pos none, none]
    exact ⟨nofun, fun ⟨⟨_, _, digits, _⟩, _⟩ => absurd rfl digits.1⟩
  rw [if_neg none, map_eq_some_iff]
  refine ⟨?_, ?_⟩
  · rintro ⟨n, read, rfl⟩
    obtain ⟨digits, le⟩ := (reads n).mp ⟨none, read⟩
    have range := (le_limit_iff positive isSigned n).mp le
    rw [converted positive isSigned range]
    exact ⟨⟨isSigned, n, digits, rfl⟩, range⟩
  · rintro ⟨⟨_, n, digits, rfl⟩, range⟩
    have le := (le_limit_iff positive isSigned n).mpr range
    exact ⟨n, ((reads n).mpr ⟨digits, le⟩).2, converted positive isSigned range⟩

theorem takeSign_cases (text : List Char) :
    (∃ rest, text = '-' :: rest) ∨ (∃ rest, text = '+' :: rest) ∨
      (text.head? ≠ some '-' ∧ text.head? ≠ some '+' ∧ takeSign text = (false, text)) := by
  by_cases minus : text.head? = some '-'
  · exact .inl (head?_eq_some_iff.mp minus)
  by_cases plus : text.head? = some '+'
  · exact .inr (.inl (head?_eq_some_iff.mp plus))
  refine .inr (.inr ⟨minus, plus, ?_⟩)
  unfold takeSign
  split
  next => exact absurd rfl minus
  next => exact absurd rfl plus
  next => rfl

theorem fromCharsU128_eq_some {base : Nat} (least : 2 ≤ base) (most : base ≤ 36) (text : List Char)
    (n : Nat) :
    fromCharsU128 text base = some n ↔
      Spells base (if text.head? = some '+' then text.tail else text) n ∧ n ≤ 2 ^ 128 - 1 := by
  have outside : ¬(base < 2 ∨ base > 36) := by omega
  have last : 2 ^ 128 - 1 - (2 ^ 128 - 1) / base * base = (2 ^ 128 - 1) % base := by
    have parts := div_add_mod' (2 ^ 128 - 1) base
    omega
  have reads := readDigits_iff least most (by decide : 2 ^ 128 - 1 < 2 ^ 128)
    (fun acc d _ small => decide_eq_true_iff.trans (exceeds_parts_iff _ acc small))
    (if text.head? = some '+' then text.tail else text) n
  rw [fromCharsU128]
  by_cases empty : text = []
  · rw [if_pos (.inl empty), empty]
    exact ⟨nofun, fun ⟨digits, _⟩ => absurd rfl digits.1⟩
  rw [if_neg (by tauto), ← reads]
  dsimp only
  rw [last]
  by_cases none : (if text.head? = some '+' then text.tail else text) = []
  · rw [if_pos none]
    exact ⟨nofun, fun ⟨more, _⟩ => absurd none more⟩
  · rw [if_neg none]
    exact ⟨fun read => ⟨none, read⟩, And.right⟩

theorem fromCharsU128_iff {base : Nat} (least : 2 ≤ base) (most : base ≤ 36) (text : List Char)
    (n : Nat) :
    fromCharsU128 text base = some n ↔ Denotes false base text n ∧ Within 128 false n := by
  have range : n ≤ 2 ^ 128 - 1 ↔ Within 128 false n := by
    unfold Within
    simp only [Bool.false_eq_true, if_false]
    omega
  rw [fromCharsU128_eq_some least most, range, denotes_iff most]
  refine and_congr_left fun _ => ?_
  have unsigned : ∀ s : List Char, Spells base s n ↔
      ((false = true → false = true) ∧
        ∃ k, Spells base s k ∧ (n : Int) = if false = true then -(k : Int) else k) := by
    intro s
    refine ⟨fun digits => ⟨id, n, digits, rfl⟩, ?_⟩
    rintro ⟨_, k, digits, same⟩
    rw [natCast_inj.mp same]
    exact digits
  rcases takeSign_cases text with ⟨rest, rfl⟩ | ⟨rest, rfl⟩ | ⟨_, plus, bare⟩
  · refine ⟨fun digits => ?_, fun ⟨isSigned, _⟩ => absurd (isSigned rfl) (by decide)⟩
    exact absurd (digits.takeSign most) (by simp [takeSign])
  · exact unsigned rest
  · rw [if_neg plus, bare]
    exact unsigned text

theorem fromCharsI128_iff {base : Nat} (least : 2 ≤ base) (most : base ≤ 36) (text : List Char)
    (v : Int) :
    fromCharsI128 text base = some v ↔ Denotes true base text v ∧ Within 128 true v := by
  have outside : ¬(base < 2 ∨ base > 36) := by omega
  rw [denotes_iff most, fromCharsI128]
  by_cases empty : text = []
  · rw [if_pos (.inl empty), empty, takeSign_nil]
    exact ⟨nofun, fun ⟨⟨_, _, digits, _⟩, _⟩ => absurd rfl digits.1⟩
  rw [if_neg (by tauto)]
  generalize takeSign text = s
  obtain ⟨neg, rest⟩ := s
  by_cases none : rest = []
  · rw [if_pos none, none]
    exact ⟨nofun, fun ⟨⟨_, _, digits, _⟩, _⟩ => absurd rfl digits.1⟩
  rw [if_neg none]
  by_cases another : rest.head? = some '+' ∨ rest.head? = some '-'
  · rw [if_pos another]
    refine ⟨nofun, fun ⟨⟨_, n, digits, _⟩, _⟩ => ?_⟩
    have bare := digits.takeSign most
    rcases another with head | head <;> obtain ⟨after, rfl⟩ := head?_eq_some_iff.mp head
    · simp [takeSign] at bare
    · simp [takeSign] at bare
  rw [if_neg another]
  have reads := fromCharsU128_eq_some least most rest
  rw [if_neg (by tauto)] at reads
  have limits : ∀ n : Nat, n ≤ (if neg then 2 ^ 127 else 2 ^ 127 - 1) ↔
      Within 128 true (if neg then -(n : Int) else n) := by
    intro n
    rw [← le_limit_iff (by decide) (fun _ => rfl), limit_eq (by decide), if_pos rfl]
  have value : ∀ n : Nat, Within 128 true (if neg then -(n : Int) else n) →
      (if neg then 0 - (n : Int) else n).bmod (2 ^ 128) = if neg then -(n : Int) else n := by
    intro n range
    rw [zero_sub]
    exact bmod_of_within (by decide) range
  have tested : ∀ n : Nat, (if neg then n > 2 ^ 127 else n > 2 ^ 127 - 1) ↔
      ¬n ≤ (if neg then 2 ^ 127 else 2 ^ 127 - 1) := by
    intro n
    cases neg <;> simp
  refine ⟨?_, ?_⟩
  · intro read
    split at read
    next => exact absurd read (by simp)
    next n found =>
      obtain ⟨digits, _⟩ := (reads n).mp found
      by_cases small : n ≤ (if neg then 2 ^ 127 else 2 ^ 127 - 1)
      · have range := (limits n).mp small
        rw [if_neg (mt (tested n).mp (not_not.mpr small)), value n range, some_inj] at read
        subst read
        exact ⟨⟨fun _ => rfl, n, digits, rfl⟩, range⟩
      · rw [if_pos ((tested n).mpr small)] at read
        exact absurd read (by simp)
  · rintro ⟨⟨_, n, digits, rfl⟩, range⟩
    have le := (limits n).mpr range
    have below : (if neg then 2 ^ 127 else 2 ^ 127 - 1) ≤ 2 ^ 128 - 1 := by
      cases neg <;> decide
    rw [(reads n).mpr ⟨digits, le_trans le below⟩]
    dsimp only
    rw [if_neg (mt (tested n).mp (not_not.mpr le)), value n range]

theorem IntType.fromChars_iff (t : IntType) {base : Nat} (least : 2 ≤ base) (most : base ≤ 36)
    (text : List Char) (v : Int) :
    t.fromChars text base = some v ↔ Denotes t.signed base text v ∧ t.InRange v := by
  obtain ⟨width, signed⟩ := t
  rw [IntType.fromChars, IntType.InRange]
  split
  next wide =>
    subst wide
    cases signed with
    | true => exact fromCharsI128_iff least most text v
    | false =>
      rw [if_neg (by decide), map_eq_some_iff]
      refine ⟨?_, ?_⟩
      · rintro ⟨n, read, rfl⟩
        exact (fromCharsU128_iff least most text n).mp read
      · rintro ⟨denotes, range⟩
        obtain ⟨n, rfl⟩ := eq_ofNat_of_zero_le range.1
        exact ⟨n, (fromCharsU128_iff least most text n).mpr ⟨denotes, range⟩, rfl⟩
  next narrow =>
    have bits : 0 < width.bits ∧ width.bits ≤ 64 := by
      cases width <;> first | decide | exact absurd rfl narrow
    exact Chars.fromChars_iff bits.1 bits.2 least most signed text v

end Micron.Chars
