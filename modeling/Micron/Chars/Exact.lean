import Micron.Chars.Read

/-!
# Integer texts are exact

What a writer writes is read back, and the decimal readers agree on every text that they
accept.
-/

set_option autoImplicit false

namespace Micron.Chars

open Micron.Lib List Option Int

def render (upper : Bool) (base : Nat) (v : Int) : List Char :=
  if v < 0 then '-' :: spell upper base v.natAbs else spell upper base v.natAbs

theorem magnitude_eq {bits : Nat} (positive : 0 < bits) {signed : Bool} {v : Int}
    (range : Within bits signed v) : magnitude bits (signed && decide (v < 0)) v = v.natAbs := by
  have double : (2 : Int) ^ bits = 2 * 2 ^ (bits - 1) := by
    rw [← pow_succ', Nat.sub_add_cancel positive]
  cases signed with
  | false =>
    rw [Bool.false_and, magnitude, if_neg (by decide), mod_of_within range]
    have := range.1
    omega
  | true =>
    obtain ⟨least, most⟩ := range
    rw [Bool.true_and, magnitude]
    by_cases neg : v < 0
    · rw [if_pos (decide_eq_true neg), sub_emod_emod, zero_sub,
        emod_eq_of_lt (by omega) (by omega)]
      omega
    · rw [if_neg (by rwa [decide_eq_true_eq]), emod_eq_of_lt (by omega) (by omega)]
      omega

theorem natAbs_lt_of_within {bits : Nat} (positive : 0 < bits) {signed : Bool} {v : Int}
    (range : Within bits signed v) : v.natAbs < 2 ^ bits := by
  have double : (2 : Int) ^ bits = 2 * 2 ^ (bits - 1) := by
    rw [← pow_succ', Nat.sub_add_cancel positive]
  have cast : ((2 ^ bits : Nat) : Int) = 2 ^ bits := by norm_cast
  have small : (v.natAbs : Int) < 2 ^ bits := by
    cases signed with
    | false =>
      have := range.1
      have := range.2
      omega
    | true =>
      have := range.1
      have := range.2
      omega
  omega

theorem neg_of_within {bits : Nat} {signed : Bool} {v : Int} (range : Within bits signed v) :
    (signed && decide (v < 0)) = decide (v < 0) := by
  cases signed with
  | true => rfl
  | false => rw [Bool.false_and, decide_eq_false (not_lt.mpr range.1)]

theorem putSigned_spell (cap : Nat) (upper : Bool) (base : Nat) (v : Int) :
    putSigned cap (decide (v < 0)) (spell upper base v.natAbs) =
      if cap < (render upper base v).length then none else some (render upper base v) := by
  rw [putSigned, render]
  by_cases neg : v < 0
  · simp only [neg, decide_true, if_true, length_cons]
  · simp only [neg, decide_false, if_false, Bool.false_eq_true, add_zero]

theorem IntType.toChars_eq (t : IntType) {base : Nat} (least : 2 ≤ base) (most : base ≤ 36)
    (cap : Nat) {v : Int} (range : t.InRange v) (upper : Bool) :
    t.toChars cap v base upper =
      if cap < (render upper base v).length then none else some (render upper base v) := by
  have outside : ¬(base < 2 ∨ base > 36) := by omega
  obtain ⟨width, signed⟩ := t
  have positive : 0 < width.bits := by cases width <;> decide
  have small := natAbs_lt_of_within positive range
  have mag := magnitude_eq positive range
  rw [IntType.toChars]
  rw [← putSigned_spell]
  split
  next wide =>
    subst wide
    have high : v.natAbs >>> 64 < 2 ^ 64 := by
      rw [Nat.shiftRight_eq_div_pow]
      exact Nat.div_lt_of_lt_mul small
    have whole : v.natAbs >>> 64 * 2 ^ 64 + v.natAbs % 2 ^ 64 = v.natAbs := by
      rw [Nat.shiftRight_eq_div_pow]
      exact Nat.div_add_mod' _ _
    rw [toChars128, if_neg outside]
    dsimp only
    rw [show (128 : Nat) = Width.w128.bits from rfl, mag, neg_of_within range,
      uint128ToBufBaseBackward_eq [] high (Nat.mod_lt _ (by decide)) least most, whole,
      append_nil]
  next narrow =>
    have word : width.bits ≤ 64 := by
      cases width <;> first | decide | exact absurd rfl narrow
    have fits : v.natAbs < 2 ^ 64 :=
      lt_of_lt_of_le small (Nat.pow_le_pow_right (by decide) word)
    rw [Chars.toChars, if_neg outside]
    dsimp only
    rw [mag, neg_of_within range]
    split
    next ten => rw [uintToBufBackward_eq [] fits, append_nil, map_decimal_figures upper, ten]
    next => rw [uintToBufBaseBackward_eq [] _ least most, append_nil]

theorem length_spell_le (upper : Bool) {base bits n : Nat} (least : 2 ≤ base) (positive : 0 < bits)
    (small : n < 2 ^ bits) : (spell upper base n).length ≤ bits := by
  rw [spell, length_map, figures]
  split
  · exact positive
  · exact length_numeral_le (by omega)
      (lt_of_lt_of_le small (Nat.pow_le_pow_left least bits))

/-- The scratch buffers of 72 and 136 characters hold every text. -/
theorem IntType.length_toChars_le (t : IntType) {base : Nat} (least : 2 ≤ base) (most : base ≤ 36)
    {cap : Nat} {v : Int} (range : t.InRange v) {upper : Bool} {text : List Char}
    (written : t.toChars cap v base upper = some text) :
    text.length ≤ if t.width = .w128 then 136 else 72 := by
  have positive : 0 < t.width.bits := by cases t.width <;> decide
  have digits := length_spell_le upper least positive (natAbs_lt_of_within positive range)
  have bits : t.width.bits + 1 ≤ if t.width = .w128 then 136 else 72 := by
    cases t.width <;> decide
  rw [t.toChars_eq least most cap range] at written
  split at written
  next => exact absurd written nofun
  next =>
    rw [← some_inj.mp written, render]
    split
    · rw [length_cons]
      omega
    · omega

theorem length_toChars_le_int8 : ['-', '8', '0'].length ≤ 72 :=
  IntType.length_toChars_le ⟨.w8, true⟩ (by decide) (by decide)
    (by unfold IntType.InRange Within; decide)
    (show IntType.toChars ⟨.w8, true⟩ 3 (-128) 16 true = some ['-', '8', '0'] by decide +kernel)

theorem spells_spell (upper : Bool) {base : Nat} (least : 2 ≤ base) (most : base ≤ 36) (n : Nat) :
    Spells base (spell upper base n) n := by
  have some : figures base n ≠ [] := by
    rw [figures]
    split
    next => exact cons_ne_nil 0 []
    next more =>
      rw [numeral_of_pos (by omega) (by omega)]
      exact append_ne_nil_of_right_ne_nil _ (cons_ne_nil _ _)
  refine ⟨fun none => some (map_eq_nil_iff.mp none), figures base n, ?_, ?_⟩
  · exact (values_iff most _ _).mp (values_map upper most (figures_lt (by omega)))
  · rw [figures]
    split
    next zero =>
      rw [zero, horner, foldl_cons, zero_mul, foldl_nil]
    next => exact (horner_numeral (by omega) n).symm

theorem denotes_render {signed : Bool} {bits : Nat} (upper : Bool) {base : Nat} (least : 2 ≤ base)
    (most : base ≤ 36) {v : Int} (range : Within bits signed v) :
    Denotes signed base (render upper base v) v := by
  have digits := spells_spell upper least most v.natAbs
  rw [render]
  by_cases neg : v < 0
  · have isSigned : signed = true := by
      have := neg_of_within range
      rw [decide_eq_true neg] at this
      exact (Bool.and_eq_true_iff.mp this).1
    have denotes := Denotes.minus isSigned digits
    rwa [if_pos neg, show -(v.natAbs : Int) = v by omega] at *
  · have denotes : Denotes signed base _ _ := Denotes.bare digits
    rw [if_neg neg]
    rwa [show (v.natAbs : Int) = v by omega] at denotes

theorem spell_of_head (upper : Bool) {base : Nat} (least : 2 ≤ base) (most : base ≤ 36) {n : Nat}
    (first : (spell upper base n).head? = some '0') : n = 0 := by
  by_contra more
  rw [spell, figures, if_neg more, head?_map, map_eq_some_iff] at first
  obtain ⟨d, head, zero⟩ := first
  have small := numeral_lt (by omega : 1 < base) n d (mem_of_head? head)
  have table : ∀ upper : Bool, ∀ d < 36,
      Char.ofNat (if d < 10 then 48 + d else if upper then 55 + d else 87 + d) = '0' → d = 0 := by
    decide +kernel
  rw [digitChar_eq upper (by omega)] at zero
  exact head_numeral_ne_zero head (table upper d (by omega) zero)

theorem render_of_head (upper : Bool) {base : Nat} (least : 2 ≤ base) (most : base ≤ 36) {v : Int}
    (first : (takeSign (render upper base v)).2.head? = some '0') : v = 0 := by
  have bare := (spells_spell upper least most v.natAbs).takeSign most
  rw [render] at first
  by_cases neg : v < 0
  · rw [if_pos neg] at first
    have := spell_of_head upper least most first
    omega
  · rw [if_neg neg, bare] at first
    have := spell_of_head upper least most first
    omega

theorem digitVal_ten (c : Char) :
    digitVal c 10 = if isDigit c then some (c.toNat - '0'.toNat) else none := by
  rw [digitVal]
  by_cases digit : '0' ≤ c ∧ c ≤ '9'
  · have isDig : isDigit c = true := by rw [isDigit, Bool.and_eq_true, decide_eq_true_eq, decide_eq_true_eq]; exact digit
    have le : c.toNat ≤ 57 := digit.2
    rw [if_pos digit, if_pos isDig, filter_some, if_pos]
    exact decide_eq_true (show c.toNat - 48 < 10 by omega)
  · have isDig : ¬isDigit c = true := by rw [isDigit, Bool.and_eq_true, decide_eq_true_eq, decide_eq_true_eq]; exact digit
    rw [if_neg digit, if_neg isDig]
    have letter : ∀ x : Nat, (some (x + 10)).filter (· < 10) = none := by
      intro x
      rw [filter_some, if_neg (by simp)]
    split
    next => exact letter _
    next =>
      split
      next => exact letter _
      next => rfl

theorem isDigit_small {c : Char} (digit : isDigit c = true) : c.toNat - '0'.toNat < 10 := by
  have value := digitVal_ten c
  rw [if_pos digit] at value
  exact digitVal_lt value

def stepTo (top n d : Nat) : Option Nat := if n * 10 + d ≤ top then some (n * 10 + d) else none

theorem uintStep_eq (n : Nat) {d : Nat} (small : d < 10) : uintStep n d = stepTo (2 ^ 64 - 1) n d := by
  have test := exceeds_parts_iff (2 ^ 64 - 1) n small
  rw [uintStep, stepTo]
  by_cases above : 2 ^ 64 - 1 < n * 10 + d
  · rw [if_pos (test.mpr above), if_neg (by omega)]
  · rw [if_neg (mt test.mp above), if_pos (by omega)]

theorem intStep_eq (n : Nat) {d : Nat} (small : d < 10) :
    intStep (-(n : Int)) d = (stepTo (2 ^ 63) n d).map fun m : Nat => -(m : Int) := by
  have parts : (-2 ^ 63 : Int).tdiv 10 = -922337203685477580 ∧ (-2 ^ 63 : Int).tmod 10 = -8 := by decide
  rw [intStep, stepTo]
  by_cases above : n * 10 + d ≤ 2 ^ 63
  · rw [if_neg (by omega), if_pos above, map_some, some_inj]
    omega
  · rw [if_pos (by omega), if_neg above]
    rfl

theorem tryLoop_map {σ τ : Type} {step : σ → Nat → Option σ} {step' : τ → Nat → Option τ}
    (f : σ → τ) (agree : ∀ s d, d < 10 → step' (f s) d = (step s d).map f) (text : List Char)
    (any : Bool) (s : σ) : tryLoop step' any (f s) text = (tryLoop step any s text).map f := by
  induction text generalizing any s with
  | nil =>
    cases any <;> rfl
  | cons c rest ih =>
    rw [tryLoop, tryLoop]
    split
    next digit =>
      rw [agree s _ (isDigit_small digit)]
      cases step s (c.toNat - '0'.toNat) with
      | none => rfl
      | some s' => exact ih true s'
    next =>
      split
      next => rfl
      next => rfl

/-- What the stricter parser accepts, the other one reads. -/
theorem stringLoop_of_tryLoop {σ : Type} {step : σ → Nat → Option σ} {text : List Char} {any : Bool}
    {s r : σ} (accepted : tryLoop step any s text = some r) : stringLoop step s text = some r := by
  induction text generalizing any s with
  | nil =>
    rw [tryLoop] at accepted
    split at accepted
    next => exact accepted
    next => exact absurd accepted nofun
  | cons c rest ih =>
    rw [tryLoop] at accepted
    rw [stringLoop]
    by_cases digit : isDigit c = true
    · rw [if_pos digit] at accepted ⊢
      cases next : step s (c.toNat - '0'.toNat) with
      | none =>
        rw [next] at accepted
        exact absurd accepted nofun
      | some s' =>
        rw [next] at accepted
        exact ih accepted
    · rw [if_neg digit] at accepted ⊢
      split at accepted
      next => exact accepted
      next => exact absurd accepted nofun

theorem tryLoop_stepTo_mono {top top' : Nat} (le : top ≤ top') {text : List Char} {any : Bool}
    {n r : Nat} (accepted : tryLoop (stepTo top) any n text = some r) :
    tryLoop (stepTo top') any n text = some r := by
  induction text generalizing any n with
  | nil => exact accepted
  | cons c rest ih =>
    rw [tryLoop] at accepted ⊢
    split at accepted
    next digit =>
      rw [if_pos digit]
      rw [stepTo] at accepted ⊢
      split at accepted
      next none => exact absurd accepted nofun
      next n' step =>
        split at step
        next small =>
          rw [if_pos (by omega)]
          cases step
          exact ih accepted
        next => exact absurd step nofun
    next digit =>
      rw [if_neg digit]
      exact accepted

theorem tryLoop_values {top : Nat} {text : List Char} {ds : List Nat} (digits : values 10 text = some ds)
    {any : Bool} (started : any = true ∨ text ≠ []) {n : Nat} (range : extend 10 n ds ≤ top) :
    tryLoop (stepTo top) any n text = some (extend 10 n ds) := by
  induction text generalizing any n ds with
  | nil =>
    cases digits
    rw [tryLoop, if_pos (started.resolve_right (not_not.mpr rfl))]
    rfl
  | cons c rest ih =>
    rw [values] at digits
    split at digits
    next d tail first others =>
      cases digits
      rw [digitVal_ten] at first
      split at first
      next digit =>
        cases first
        have more := le_extend (by decide : 0 < 10) (n * 10 + (c.toNat - '0'.toNat)) tail
        rw [extend, foldl_cons, ← extend] at range ⊢
        rw [tryLoop, if_pos digit, stepTo, if_pos (by omega)]
        exact ih others (.inl rfl) range
      next => cases first
    next => cases digits

theorem tryLoop_spells {top : Nat} {text : List Char} {n : Nat} (digits : Spells 10 text n)
    (range : n ≤ top) : tryLoop (stepTo top) false 0 text = some n := by
  obtain ⟨some, value⟩ := (spells_iff (by decide) text n).mp digits
  obtain ⟨ds, found, rfl⟩ := map_eq_some_iff.mp value
  exact tryLoop_values found (.inr some) range

theorem tryLoop_uintStep (text : List Char) :
    tryLoop uintStep false 0 text = tryLoop (stepTo (2 ^ 64 - 1)) false 0 text := by
  have agree : ∀ n d, d < 10 → uintStep (id n) d = (stepTo (2 ^ 64 - 1) n d).map id := by
    intro n d small
    rw [Option.map_id_fun, id, id, uintStep_eq n small]
  have same := tryLoop_map id agree text false 0
  rwa [Option.map_id_fun, id] at same

theorem tryLoop_intStep (text : List Char) :
    tryLoop intStep false 0 text =
      (tryLoop (stepTo (2 ^ 63)) false 0 text).map fun n : Nat => -(n : Int) :=
  tryLoop_map (fun n : Nat => -(n : Int)) (fun n _ small => intStep_eq n small) text false 0

theorem Spells.untrimmed {text : List Char} {n : Nat} (digits : Spells 10 text n) :
    text.dropWhile (· == ' ') = text := by
  obtain ⟨some, ds, all, _⟩ := digits
  cases all with
  | nil => exact absurd rfl some
  | @cons c _ rest ds' first others =>
    have blank : c ≠ ' ' := by
      rintro rfl
      have value := (digitVal_iff (by decide) ' ').mpr first
      exact absurd value (by rw [show digitVal ' ' 10 = none from rfl]; exact nofun)
    rw [dropWhile_cons_of_neg]
    rwa [beq_iff_eq]

theorem Denotes.untrimmed {signed : Bool} {text : List Char} {v : Int}
    (denotes : Denotes signed 10 text v) : text.dropWhile (· == ' ') = text := by
  cases denotes with
  | bare digits => exact digits.untrimmed
  | plus digits => rfl
  | minus isSigned digits => rfl

def behindPlus (text : List Char) : List Char :=
  let trimmed := text.dropWhile (· == ' ')
  if trimmed.head? = some '+' then trimmed.tail else trimmed

theorem tryParseUint64_eq_some (text : List Char) (n : Nat) :
    tryParseUint64 text = some n ↔ (behindPlus text ≠ [] ∧ (behindPlus text).head? ≠ some '-') ∧
      tryLoop (stepTo (2 ^ 64 - 1)) false 0 (behindPlus text) = some n := by
  have unfolded : tryParseUint64 text =
      if behindPlus text = [] ∨ (behindPlus text).head? = some '-' then none
      else tryLoop uintStep false 0 (behindPlus text) := rfl
  rw [unfolded, tryLoop_uintStep, ← not_or]
  split
  next refused => exact ⟨nofun, fun accepted => absurd refused accepted.1⟩
  next accepted => exact ⟨fun read => ⟨accepted, read⟩, And.right⟩

theorem tryParseInt64_eq_some (text : List Char) (v : Int) :
    tryParseInt64 text = some v ↔ (takeSign (text.dropWhile (· == ' '))).2 ≠ [] ∧
      ∃ n, tryLoop (stepTo (2 ^ 63)) false 0 (takeSign (text.dropWhile (· == ' '))).2 = some n ∧
        ((takeSign (text.dropWhile (· == ' '))).1 = false → n ≠ 2 ^ 63) ∧
        v = if (takeSign (text.dropWhile (· == ' '))).1 then -(n : Int) else n := by
  rw [tryParseInt64]
  generalize takeSign (text.dropWhile (· == ' ')) = s
  obtain ⟨neg, rest⟩ := s
  rw [tryLoop_intStep]
  split
  next empty => exact ⟨nofun, fun accepted => absurd empty accepted.1⟩
  next more =>
    cases found : tryLoop (stepTo (2 ^ 63)) false 0 rest with
    | none => exact ⟨nofun, fun ⟨_, _, read, _⟩ => absurd read nofun⟩
    | some n =>
      rw [map_some]
      dsimp only
      have top : -(n : Int) = -2 ^ 63 ↔ n = 2 ^ 63 := by omega
      cases neg with
      | true =>
        rw [if_pos rfl, some_inj]
        refine ⟨fun value => ⟨more, n, rfl, nofun, value.symm⟩, ?_⟩
        rintro ⟨_, m, read, _, rfl⟩
        rw [some_inj.mp read]
        rfl
      | false =>
        rw [if_neg Bool.false_ne_true, neg_neg]
        split
        next last =>
          refine ⟨nofun, ?_⟩
          rintro ⟨_, m, read, other, _⟩
          exact absurd ((some_inj.mp read).symm.trans (top.mp last)) (other rfl)
        next other =>
          rw [some_inj]
          refine ⟨fun value => ⟨more, n, rfl, fun _ => mt top.mpr other, value.symm⟩, ?_⟩
          rintro ⟨_, m, read, _, rfl⟩
          rw [some_inj.mp read]
          rfl

theorem tryParseUint64_of_denotes {text : List Char} {v : Int} (denotes : Denotes false 10 text v)
    (range : Within 64 false v) : (tryParseUint64 text).map (fun n : Nat => (n : Int)) = some v := by
  have core : ∀ n : Nat, Spells 10 (behindPlus text) n → Within 64 false n →
      tryParseUint64 text = some n := by
    intro n digits range
    have minus : (behindPlus text).head? ≠ some '-' := by
      intro head
      have bare := (takeSign_fst _).mpr head
      rw [digits.takeSign (by decide)] at bare
      cases bare
    have small : n ≤ 2 ^ 64 - 1 := by
      have := range.2
      omega
    exact (tryParseUint64_eq_some text n).mpr ⟨⟨digits.1, minus⟩, tryLoop_spells digits small⟩
  have start := denotes.untrimmed
  cases denotes with
  | @bare _ n digits =>
    have same : behindPlus text = text := by
      rcases takeSign_cases text with ⟨rest, rfl⟩ | ⟨rest, rfl⟩ | ⟨_, plus, _⟩
      · rfl
      · exact absurd (digits.takeSign (by decide)) (by simp [takeSign])
      · rw [behindPlus, start, if_neg plus]
    rw [core n (same.symm ▸ digits) range]
    rfl
  | @plus rest n digits =>
    rw [core n digits range]
    rfl
  | minus isSigned _ => exact absurd isSigned (by decide)

theorem tryParseInt64_of_denotes {text : List Char} {v : Int} (denotes : Denotes true 10 text v)
    (range : Within 64 true v) : tryParseInt64 text = some v := by
  obtain ⟨_, n, digits, value⟩ := (denotes_iff (by decide) text v).mp denotes
  obtain ⟨least, most⟩ := range
  have small : n ≤ 2 ^ 63 := by
    split_ifs at value <;> omega
  rw [tryParseInt64_eq_some, denotes.untrimmed]
  refine ⟨digits.1, n, tryLoop_spells digits small, fun positive => ?_, value⟩
  rw [positive, if_neg (by decide)] at value
  omega

theorem stringToUint64_of_tryParse {text : List Char} {n : Nat}
    (accepted : tryParseUint64 text = some n) : stringToUint64 text = n := by
  obtain ⟨_, read⟩ := (tryParseUint64_eq_some text n).mp accepted
  rw [← tryLoop_uintStep] at read
  have unfolded : stringToUint64 text =
      (stringLoop uintStep 0 (behindPlus text)).getD (2 ^ 64 - 1) := rfl
  rw [unfolded, stringLoop_of_tryLoop read, getD_some]

theorem stringToInt64_of_tryParse {text : List Char} {v : Int}
    (accepted : tryParseInt64 text = some v) : stringToInt64 text = v := by
  obtain ⟨_, n, read, other, rfl⟩ := (tryParseInt64_eq_some text v).mp accepted
  rw [stringToInt64]
  generalize takeSign (text.dropWhile (· == ' ')) = s at read other ⊢
  obtain ⟨neg, rest⟩ := s
  have signed := tryLoop_intStep rest
  rw [read, map_some] at signed
  rw [stringLoop_of_tryLoop signed]
  dsimp only
  cases neg with
  | true => rfl
  | false =>
    have := other rfl
    rw [if_neg (by decide), if_neg (by omega), if_neg (by decide), neg_neg]

theorem tryParse_agree {text : List Char} {n : Nat} {v : Int}
    (unsigned : tryParseUint64 text = some n) (signed : tryParseInt64 text = some v) : v = n := by
  obtain ⟨⟨_, minus⟩, read⟩ := (tryParseUint64_eq_some text n).mp unsigned
  obtain ⟨_, m, read', _, value⟩ := (tryParseInt64_eq_some text v).mp signed
  have wider := tryLoop_stepTo_mono (by decide : 2 ^ 63 ≤ 2 ^ 64 - 1) read'
  rw [behindPlus] at read minus
  generalize text.dropWhile (· == ' ') = trimmed at read minus wider value
  rcases takeSign_cases trimmed with ⟨rest, rfl⟩ | ⟨rest, rfl⟩ | ⟨_, plus, bare⟩
  · exact absurd rfl minus
  · have same := some_inj.mp (read.symm.trans wider)
    rw [value, same]
    rfl
  · rw [if_neg plus] at read
    rw [bare] at wider value
    have same := some_inj.mp (read.symm.trans wider)
    rw [value, same]
    rfl

/-! ## Both directions -/

def int64 : IntType := ⟨.w64, true⟩

def uint64 : IntType := ⟨.w64, false⟩

theorem integer_texts_are_exact (t : IntType) {base : Nat} (least : 2 ≤ base) (most : base ≤ 36) :
    (∀ (v : Int) (upper : Bool), t.InRange v →
      ∃ text, (∀ cap, text.length ≤ cap → t.toChars cap v base upper = some text) ∧
        t.fromChars text base = some v ∧
        ((takeSign text).2.head? = some '0' → v = 0 ∧ text = ['0'])) ∧
    (∀ (text : List Char) (v : Int),
      t.fromChars text base = some v ↔ Denotes t.signed base text v ∧ t.InRange v) ∧
    (∀ (text : List Char) (v : Int), int64.fromChars text 10 = some v → tryParseInt64 text = some v) ∧
    (∀ (text : List Char) (v : Int), uint64.fromChars text 10 = some v →
      ∃ n : Nat, v = n ∧ tryParseUint64 text = some n) ∧
    (∀ (text : List Char) (v : Int), tryParseInt64 text = some v → stringToInt64 text = v) ∧
    (∀ (text : List Char) (n : Nat), tryParseUint64 text = some n → stringToUint64 text = n) ∧
    (∀ (text : List Char) (n : Nat) (v : Int), tryParseUint64 text = some n →
      tryParseInt64 text = some v → v = n) := by
  refine ⟨?_, t.fromChars_iff least most, ?_, ?_, fun _ _ => stringToInt64_of_tryParse,
    fun _ _ => stringToUint64_of_tryParse, fun _ _ _ => tryParse_agree⟩
  · intro v upper range
    refine ⟨render upper base v, fun cap enough => ?_, ?_, fun first => ?_⟩
    · rw [t.toChars_eq least most cap range, if_neg (Nat.not_lt.mpr enough)]
    · exact (t.fromChars_iff least most _ v).mpr ⟨denotes_render upper least most range, range⟩
    · have zero := render_of_head upper least most first
      subst zero
      exact ⟨rfl, congrArg (fun digit => [digit]) (digitChar_zero upper)⟩
  · intro text v read
    obtain ⟨denotes, range⟩ := (int64.fromChars_iff (by decide) (by decide) text v).mp read
    exact tryParseInt64_of_denotes denotes range
  · intro text v read
    obtain ⟨denotes, range⟩ := (uint64.fromChars_iff (by decide) (by decide) text v).mp read
    obtain ⟨n, found, value⟩ := map_eq_some_iff.mp (tryParseUint64_of_denotes denotes range)
    exact ⟨n, value.symm, found⟩

/-- Minus 255 times `2 ^ 64`. -/
theorem integer_texts_are_exact_int128_hex :
    ∃ text, (∀ cap, text.length ≤ cap →
        IntType.toChars ⟨.w128, true⟩ cap (-4703919738795935662080) 16 true = some text) ∧
      IntType.fromChars ⟨.w128, true⟩ text 16 = some (-4703919738795935662080) ∧
      ((takeSign text).2.head? = some '0' → (-4703919738795935662080 : Int) = 0 ∧ text = ['0']) :=
  (integer_texts_are_exact ⟨.w128, true⟩ (by decide) (by decide)).1 (-4703919738795935662080) true
    ⟨by decide, by decide⟩

end Micron.Chars
