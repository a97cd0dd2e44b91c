import Micron.Format.Model

/-!
# What the engine writes

The parser of specs and the scanner read the texts of specs and fields back, and every
formatter writes the beginning of its argument's text.
-/

set_option autoImplicit false

namespace Micron.Format

open Micron.Lib Micron.Chars List Option

def Front.alignChar : Front → Char
  | .bare => '\x00'
  | .align a => a.char
  | .fill _ _ a => a.char

def Spec.fmt (s : Spec) : FmtSpec where
  fill := s.fillChar
  align := s.front.alignChar
  width := s.width.value
  prec :=
    match s.prec with
    | none => 6
    | some ds => ds.text.foldl specAccum 0
  hasPrec := s.prec.isSome
  type := s.type.getD '\x00'
  alt := s.alt

theorem isDigit_eq_decimalChar {c : Char} (digit : isDigit c = true) :
    ∃ d < 10, c = decimalChar d := by
  have bounds : '0' ≤ c ∧ c ≤ '9' := by
    rw [isDigit, Bool.and_eq_true, decide_eq_true_eq, decide_eq_true_eq] at digit
    exact digit
  have least : 48 ≤ c.toNat := bounds.1
  have most : c.toNat ≤ 57 := bounds.2
  refine ⟨c.toNat - 48, by omega, ?_⟩
  rw [decimalChar, Nat.add_sub_cancel' least, Char.ofNat_toNat]

/-- A digit is a character of none of these other kinds. -/
theorem not_isDigit {c : Char} (other : ∀ d < 10, c ≠ decimalChar d) : isDigit c = false := by
  rw [Bool.eq_false_iff]
  intro digit
  obtain ⟨d, small, same⟩ := isDigit_eq_decimalChar digit
  exact other d small same

theorem letter_not_isDigit {c : Char} (letter : c.isAlpha = true) : isDigit c = false := by
  refine not_isDigit fun d small same => ?_
  have table : ∀ d < 10, (decimalChar d).isAlpha = false := by decide
  rw [same, table d small] at letter
  exact absurd letter (by decide)

theorem letter_ne {c d : Char} (letter : c.isAlpha = true) (other : d.isAlpha = false) : c ≠ d := by
  rintro rfl
  rw [other] at letter
  exact absurd letter (by decide)

theorem Digits.ne_of_mem {ds : Digits} {c other : Char} (member : c ∈ ds.text)
    (apart : isDigit other = false) : c ≠ other := by
  rintro rfl
  have digit := all_eq_true.mp ds.all_isDigit c member
  rw [apart] at digit
  exact absurd digit (by decide)

/-- The characters behind the alignment are none that the parser takes for an alignment, and
none that closes the field. -/
theorem Spec.mem_tail {s : Spec} {c other : Char} (notAlpha : other.isAlpha = false)
    (notDigit : isDigit other = false) (notHash : other ≠ '#') (notPoint : other ≠ '.')
    (member : c ∈ s.tail) : c ≠ other := by
  rw [Spec.tail, mem_append, mem_append, mem_append] at member
  rcases member with hash | width | prec | type
  · split at hash
    next =>
      rw [mem_singleton.mp hash]
      exact notHash.symm
    next => exact absurd hash not_mem_nil
  · exact Digits.ne_of_mem width notDigit
  · cases present : s.prec with
    | none =>
      rw [present] at prec
      exact absurd prec not_mem_nil
    | some ds =>
      rw [present] at prec
      rcases mem_cons.mp prec with point | digits
      · rw [point]
        exact notPoint.symm
      · exact Digits.ne_of_mem digits notDigit
  · exact letter_ne (s.letter c (mem_toList.mp type)) notAlpha

theorem Align.isAlign_char (a : Align) : isAlign a.char = true := by cases a <;> rfl

theorem parseAlign_text (front : Front) {tail : List Char} (plain : ∀ c ∈ tail, isAlign c = false) :
    parseAlign {} (front.text ++ tail) =
      ({ fill := (match front with
          | .fill c _ _ => c
          | _ => ' '), align := front.alignChar }, tail) := by
  cases front with
  | bare =>
    rw [Front.text, nil_append]
    unfold parseAlign
    split
    next c a rest =>
      rw [plain a (mem_cons_of_mem c mem_cons_self), plain c mem_cons_self]
      rfl
    next c =>
      rw [plain c mem_cons_self]
      rfl
    next => rfl
  | align a =>
    rw [Front.text, singleton_append]
    cases tail with
    | nil =>
      rw [parseAlign, if_pos a.isAlign_char]
      rfl
    | cons c rest =>
      rw [parseAlign, if_neg (by rw [plain c mem_cons_self]; decide), if_pos a.isAlign_char]
      rfl
  | fill c inside a =>
    rw [Front.text, cons_append, singleton_append, parseAlign, if_pos a.isAlign_char]
    rfl

theorem Spec.tail_not_isAlign (s : Spec) : ∀ c ∈ s.tail, isAlign c = false := by
  intro c member
  have left : c ≠ '<' := Spec.mem_tail (by decide) (by decide) (by decide) (by decide) member
  have right : c ≠ '>' := Spec.mem_tail (by decide) (by decide) (by decide) (by decide) member
  have center : c ≠ '^' := Spec.mem_tail (by decide) (by decide) (by decide) (by decide) member
  rw [isAlign, decide_eq_false left, decide_eq_false right, decide_eq_false center]
  rfl

/-- The first character behind an optional row of digits. -/
theorem head_digits {ds : Digits} {rest : List Char} {c : Char}
    (first : c ∈ (ds.text ++ rest).head?) : isDigit c = true ∨ c ∈ rest.head? := by
  cases text : ds.text with
  | nil =>
    rw [text, nil_append] at first
    exact .inr first
  | cons d tail =>
    rw [text, cons_append, head?_cons, mem_some_iff] at first
    subst first
    exact .inl (all_eq_true.mp ds.all_isDigit d (by rw [text]; exact mem_cons_self))

theorem head_prec {prec : Option Digits} {rest : List Char} {c : Char}
    (first : c ∈ (precText prec ++ rest).head?) : c = '.' ∨ c ∈ rest.head? := by
  cases prec with
  | none => exact .inr first
  | some ds => exact .inl (mem_some_iff.mp first).symm

theorem parseAlt_text (s : FmtSpec) (off : s.alt = false) (alt : Bool) {rest : List Char}
    (stop : ∀ c ∈ rest.head?, c ≠ '#') :
    parseAlt s ((if alt then ['#'] else []) ++ rest) = ({ s with alt := alt }, rest) := by
  cases alt with
  | true => rfl
  | false =>
    rw [if_neg (by decide), nil_append]
    unfold parseAlt
    split
    next => exact absurd rfl (stop '#' rfl)
    next => rw [← off]

theorem parseWidth_text (s : FmtSpec) (start : s.width = 0) {ds : Digits} (bounded : ds.value ≤ 2 ^ 24)
    {rest : List Char} (stop : ∀ c ∈ rest.head?, isDigit c = false) :
    parseWidth s (ds.text ++ rest) = ({ s with width := ds.value }, rest) := by
  have small : ds.text.foldl specAccum 0 = ds.value :=
    (foldl_specAccum ds).resolve_right fun above => Nat.not_lt.mpr bounded above.2
  rw [parseWidth, accumDigits_text ds stop, start, small]

theorem parsePrec_text (s : FmtSpec) (prec : Option Digits) {rest : List Char}
    (stop : ∀ c ∈ rest.head?, c.isAlpha = true) :
    parsePrec s (precText prec ++ rest) =
      (match prec with
        | none => s
        | some ds => { s with prec := ds.text.foldl specAccum 0, hasPrec := true }, rest) := by
  cases prec with
  | none =>
    rw [precText, nil_append]
    unfold parsePrec
    split
    next => exact absurd (stop '.' rfl) (by decide)
    next => rfl
  | some ds =>
    rw [precText, cons_append, parsePrec,
      accumDigits_text ds fun c first => letter_not_isDigit (stop c first)]

theorem parseSpec_text (s : Spec) : parseSpec s.text = s.fmt := by
  have letters : ∀ c ∈ s.type.toList.head?, c.isAlpha = true := by
    intro c first
    exact s.letter c (mem_toList.mp (mem_of_head? first))
  have behindWidth : ∀ c ∈ (precText s.prec ++ s.type.toList).head?, isDigit c = false := by
    intro c first
    rcases head_prec first with rfl | first
    · rfl
    · exact letter_not_isDigit (letters c first)
  have behindHash : ∀ c ∈ (s.width.text ++ (precText s.prec ++ s.type.toList)).head?, c ≠ '#' := by
    rintro c first rfl
    rcases head_digits first with digit | first
    · exact absurd digit (by decide)
    · rcases head_prec first with point | first
      · exact absurd point (by decide)
      · exact absurd (letters '#' first) (by decide)
  rw [parseSpec, Spec.text, parseAlign_text s.front s.tail_not_isAlign]
  rw [Spec.tail, parseAlt_text _ rfl s.alt behindHash]
  rw [parseWidth_text _ rfl s.bounded behindWidth]
  rw [parsePrec_text _ s.prec letters]
  unfold Spec.fmt Spec.fillChar
  cases s.prec <;> cases s.type <;> rfl

theorem Spec.fillChar_ne_zero (s : Spec) : s.fillChar ≠ '\x00' := by
  unfold Spec.fillChar
  split
  next c inside a _ => exact inside.2
  next => decide

theorem Spec.type_ne_zero {s : Spec} {c : Char} (given : s.type = some c) : c ≠ '\x00' :=
  letter_ne (s.letter c given) (by decide)

/-- The alignment that is read, or else the one by default, is the side of the text. -/
theorem Spec.side_char (s : Spec) :
    (if s.fmt.align = '\x00' then
      if s.fmt.type = 's' ∨ s.fmt.type = '\x00' then '<' else '>'
      else s.fmt.align) = s.side.char := by
  have given : ∀ a : Align, a.char ≠ '\x00' := by
    intro a
    cases a <;> decide
  unfold Spec.fmt Spec.side
  cases s.front with
  | bare =>
    have same : (s.type.getD '\x00' = 's' ∨ s.type.getD '\x00' = '\x00') ↔
        (s.type = none ∨ s.type = some 's') := by
      cases type : s.type with
      | none => simp
      | some c => simp [Spec.type_ne_zero type]
    rw [Front.alignChar, if_pos rfl]
    simp only [same]
    split <;> rfl
  | align a => rw [Front.alignChar, if_neg (given a)]
  | fill c inside a => rw [Front.alignChar, if_neg (given a)]

theorem applyPadding_fmt (s : Spec) (content : List Char) :
    applyPadding content s.fmt = s.padded content := by
  have width : s.fmt.width = s.width.value := rfl
  have fill : s.fmt.fill = s.fillChar := rfl
  rw [applyPadding, Spec.padded, s.side_char, fill, if_neg s.fillChar_ne_zero, width]
  split
  next wide =>
    rw [show s.width.value - content.length = 0 by omega]
    cases s.side <;> simp
  next => cases s.side <;> rfl

/-! ## Formatters -/

/-- What the buffer of an argument keeps of its text. -/
def Arg.cut : Arg → List Char → List Char
  | .int _ _ _, text => text
  | .str _, text => text.take bufSize
  | .null, text => text

theorem presentation_cases (type : Char) :
    (2 ≤ (presentation type).1 ∧ (presentation type).1 ≤ 36) ∧
      ((type = 'x' ∨ type = 'X' ∨ type = 'o' ∨ type = 'b') ↔ (presentation type).1 ≠ 10) := by
  unfold presentation
  split_ifs <;> simp_all

theorem length_altMark_le (alt : Bool) (base : Nat) (upper : Bool) :
    (altMark alt base upper).length ≤ 2 := by
  unfold altMark
  split_ifs <;> simp

theorem altMark_ten (alt : Bool) (upper : Bool) : altMark alt 10 upper = [] := by
  cases alt <;> rfl

theorem fmtUintToBuf_eq {size val base : Nat} (word : val < 2 ^ 64) (least : 2 ≤ base)
    (most : base ≤ 36) (enough : 64 ≤ size) (upper : Bool) :
    fmtUintToBuf size val base upper = spell upper base val := by
  have digits : (if base = 10 then uintToBufBackward [] val
      else uintToBufBaseBackward [] val base upper) = spell upper base val := by
    split
    next ten => rw [uintToBufBackward_eq [] word, append_nil, map_decimal_figures upper, ten]
    next => rw [uintToBufBaseBackward_eq [] _ least most, append_nil]
  rw [fmtUintToBuf, digits]
  exact take_of_length_le
    (le_trans (length_spell_le upper least (by decide) word) enough)

theorem fmtIntToBuf_eq {size base : Nat} {val : Int} (word : val.natAbs < 2 ^ 64) (least : 2 ≤ base)
    (most : base ≤ 36) (enough : 65 ≤ size) (upper : Bool) :
    fmtIntToBuf size val base upper =
      if base = 10 then render upper 10 val else spell upper base (val % 2 ^ 64).toNat := by
  have low : (val % 2 ^ 64).toNat < 2 ^ 64 := by omega
  rw [fmtIntToBuf, render]
  by_cases ten : base = 10
  · subst ten
    by_cases neg : val < 0
    · rw [if_pos ⟨neg, rfl⟩, if_neg (by omega), if_pos rfl, if_pos neg,
        show ((-(val + 1)).toNat + 1) % 2 ^ 64 = val.natAbs by omega,
        fmtUintToBuf_eq word least most (by omega)]
    · have same : (val % 2 ^ 64).toNat = val.natAbs := by omega
      rw [if_neg fun both => neg both.1, if_pos rfl, if_neg neg, same, fmtUintToBuf_eq word least most (by omega)]
  · rw [if_neg fun both => ten both.2, if_neg ten, fmtUintToBuf_eq low least most (by omega)]

theorem render_natCast (upper : Bool) (base val : Nat) :
    render upper base (val : Int) = spell upper base val := by
  rw [render, if_neg (Int.not_lt.mpr (Int.natCast_nonneg val)), Int.natAbs_natCast]

theorem fmtU128ToBuf_eq (s : Spec) {size val : Nat} (words : val < 2 ^ 128) (enough : 130 ≤ size) :
    fmtU128ToBuf size val s.fmt =
      altMark s.alt s.base.1 s.base.2 ++ spell s.base.2 s.base.1 val := by
  obtain ⟨⟨least, most⟩, _⟩ := presentation_cases s.fmt.type
  have same : presentation s.fmt.type = s.base := rfl
  have alt : s.fmt.alt = s.alt := rfl
  rw [same] at least most
  have mark := length_altMark_le s.alt s.base.1 s.base.2
  have digits := length_spell_le s.base.2 least (by decide) words
  have range : IntType.InRange ⟨.w128, false⟩ (val : Int) :=
    ⟨Int.natCast_nonneg val, by exact_mod_cast words⟩
  have written := IntType.toChars_eq ⟨.w128, false⟩ least most
    (size - (altMark s.alt s.base.1 s.base.2).length) range s.base.2
  rw [IntType.toChars, if_pos rfl, render_natCast] at written
  rw [fmtU128ToBuf, same, alt, written, if_neg (by omega)]

theorem writeStr_fmt (s : Spec) {size : Nat} (bound : size ≤ 2 ^ 24) (text : List Char) :
    writeStr size text s.fmt = ((Arg.str text).text s).take size := by
  have capped : ∀ n, (if n > size then size else n) = min n size := by
    intro n
    split <;> omega
  rw [writeStr, Arg.text, capped]
  unfold Spec.fmt
  cases s.prec with
  | none =>
    rw [if_neg (by simp), min_comm, ← take_take, take_length]
  | some ds =>
    dsimp only
    rw [take_take, take_eq_take_iff]
    have agree := foldl_specAccum ds
    unfold Saturates at agree
    by_cases less : ds.text.foldl specAccum 0 < text.length
    · rw [if_pos ⟨rfl, less⟩]
      omega
    · rw [if_neg fun both => less both.2]
      omega

theorem writeI128_fmt (s : Spec) {size : Nat} (enough : 131 ≤ size) {v : Int}
    (range : Within 128 true v) :
    writeI128 size v s.fmt =
      if s.base.1 = 10 then render s.base.2 10 v
      else altMark s.alt s.base.1 s.base.2 ++ spell s.base.2 s.base.1 (v % 2 ^ 128).toNat := by
  obtain ⟨_, letters⟩ := presentation_cases s.fmt.type
  have words : (v % 2 ^ 128).toNat < 2 ^ 128 := by omega
  have small := natAbs_lt_of_within (by decide) range
  have mag := magnitude_eq (by decide) range
  rw [Bool.true_and] at mag
  rw [writeI128]
  by_cases ten : s.base.1 = 10
  · have digits : ∀ {m}, 130 ≤ m → fmtU128ToBuf m v.natAbs s.fmt = spell s.base.2 10 v.natAbs := by
      intro m enough
      rw [fmtU128ToBuf_eq s small enough, ten, altMark_ten, nil_append]
    rw [if_neg fun given => letters.mp given ten, if_pos ten, render]
    by_cases neg : v < 0
    · rw [decide_eq_true neg] at mag
      rw [if_pos neg, if_neg (by omega), mag, digits (by omega), if_pos neg, if_neg]
      exact (spells_spell s.base.2 (by decide) (by decide) v.natAbs).1
    · rw [decide_eq_false neg] at mag
      rw [if_neg neg, mag, digits (by omega), if_neg neg]
  · rw [if_pos (letters.mpr ten), if_neg ten, fmtU128ToBuf_eq s words (by omega)]

theorem writeInt_fmt (s : Spec) {size : Nat} (enough : 67 ≤ size) {signed : Bool} {v : Int}
    (word : v.natAbs < 2 ^ 64) (nonneg : signed = false → 0 ≤ v) :
    writeInt size signed v s.fmt =
      if s.base.1 = 10 then render s.base.2 10 v
      else altMark s.alt s.base.1 s.base.2 ++ spell s.base.2 s.base.1 (v % 2 ^ 64).toNat := by
  obtain ⟨⟨least, most⟩, _⟩ := presentation_cases s.fmt.type
  have mark := length_altMark_le s.alt s.base.1 s.base.2
  have same : presentation s.fmt.type = s.base := rfl
  have alt : s.fmt.alt = s.alt := rfl
  rw [same] at least most
  rw [writeInt, same, alt]
  have digits : (if signed then fmtIntToBuf (size - (altMark s.alt s.base.1 s.base.2).length) v s.base.1 s.base.2
      else fmtUintToBuf (size - (altMark s.alt s.base.1 s.base.2).length) v.toNat s.base.1 s.base.2) =
      if s.base.1 = 10 then render s.base.2 10 v else spell s.base.2 s.base.1 (v % 2 ^ 64).toNat := by
    cases signed with
    | true => exact fmtIntToBuf_eq word least most (by omega) s.base.2
    | false =>
      have positive := nonneg rfl
      rw [if_neg (by decide), fmtUintToBuf_eq (by omega) least most (by omega)]
      split
      next ten =>
        rw [ten, render, if_neg (by omega)]
        congr 1
        omega
      next =>
        congr 1
        omega
  rw [digits]
  split
  next ten => rw [ten, altMark_ten, nil_append]
  next => rfl

/-- A formatter writes what its buffer keeps of the text. -/
theorem write_text (s : Spec) (a : Arg) : a.write s.fmt = a.cut (a.text s) := by
  cases a with
  | null => rfl
  | str text => exact writeStr_fmt s (by decide) text
  | int t v range =>
    obtain ⟨width, signed⟩ := t
    rw [Arg.write, Arg.cut, Arg.text]
    by_cases wide : width = Width.w128
    · subst wide
      cases signed with
      | true =>
        rw [if_pos rfl, if_pos rfl, writeI128_fmt s (by decide) range]
        rfl
      | false =>
        have least : 0 ≤ v := range.1
        have most : v < 2 ^ 128 := range.2
        have words : v % 2 ^ 128 = v := Int.emod_eq_of_lt least most
        rw [if_pos rfl, if_neg (by decide), fmtU128ToBuf_eq s (by omega) (by decide), if_pos rfl,
          words, render, if_neg (Int.not_lt.mpr least)]
        split
        next ten =>
          have same : v.toNat = v.natAbs := by omega
          rw [ten, altMark_ten, nil_append, same]
        next => rfl
    · have positive : 0 < width.bits := by cases width <;> decide
      have word : width.bits ≤ 64 := by
        cases width <;> first | decide | exact absurd rfl wide
      have small : v.natAbs < 2 ^ 64 :=
        lt_of_lt_of_le (natAbs_lt_of_within positive range)
          (Nat.pow_le_pow_right (by decide) word)
      have nonneg : signed = false → 0 ≤ v := by
        rintro rfl
        exact range.1
      rw [if_neg wide, if_neg wide, writeInt_fmt s (by decide) small nonneg]

theorem formatOne_eq (specText : List Char) (index : Nat) (args : List Arg) :
    formatOne specText index args =
      match args[index]? with
      | none => []
      | some a => applyPadding (a.write (parseSpec specText)) (parseSpec specText) := by
  induction args generalizing index with
  | nil => cases index <;> rfl
  | cons a args ih =>
    cases index with
    | zero => rfl
    | succ index => rw [formatOne, ih, getElem?_cons_succ]

/-- What the engine writes for an index: the index is a word, and the text is cut. -/
def written (args : List Arg) (i : Nat) (s : Spec) : List Char :=
  match args[i % 2 ^ 64]? with
  | none => []
  | some a => s.padded (a.cut (a.text s))

def Field.head (f : Field) : List Char :=
  match f.index with
  | none => []
  | some ds => ds.text

def Field.specText (f : Field) : List Char :=
  match f.spec with
  | none => []
  | some s => s.text

theorem parseSpec_specText (f : Field) : parseSpec f.specText = f.toSpec.fmt := by
  unfold Field.specText Field.toSpec
  cases f.spec with
  | none => rfl
  | some s => exact parseSpec_text s

theorem formatOne_field (f : Field) (i : Nat) (args : List Arg) :
    formatOne f.specText (i % 2 ^ 64) args = written args i f.toSpec := by
  rw [formatOne_eq, written, parseSpec_specText]
  cases args[i % 2 ^ 64]? with
  | none => rfl
  | some a => exact (applyPadding_fmt f.toSpec _).trans (congrArg f.toSpec.padded (write_text f.toSpec a))

theorem Field.mem_head {f : Field} {c other : Char} (member : c ∈ f.head)
    (apart : isDigit other = false) : c ≠ other := by
  unfold Field.head at member
  split at member
  next => exact absurd member not_mem_nil
  next ds _ => exact Digits.ne_of_mem member apart

theorem Field.body_eq (f : Field) :
    f.body = f.head ++ if f.spec = none then [] else ':' :: f.specText := by
  unfold Field.body Field.head Field.specText
  cases f.spec <;> rfl

theorem Front.mem_text {front : Front} {c : Char} (member : c ∈ front.text) : c ≠ '}' := by
  have closed : ∀ a : Align, a.char ≠ '}' := by
    intro a
    cases a <;> decide
  cases front with
  | bare => exact absurd member not_mem_nil
  | align a =>
    rw [mem_singleton.mp member]
    exact closed a
  | fill d inside a =>
    rcases mem_cons.mp member with same | rest
    · rw [same]
      exact inside.1
    · rw [mem_singleton.mp rest]
      exact closed a

theorem Field.mem_body {f : Field} {c : Char} (member : c ∈ f.body) : c ≠ '}' := by
  rw [Field.body_eq, mem_append] at member
  rcases member with head | spec
  · exact Field.mem_head head (by decide)
  · split at spec
    next => exact absurd spec not_mem_nil
    next =>
      rcases mem_cons.mp spec with colon | text
      · rw [colon]
        decide
      · unfold Field.specText at text
        split at text
        next => exact absurd text not_mem_nil
        next s _ =>
          rcases mem_append.mp text with front | tail
          · exact Front.mem_text front
          · exact Spec.mem_tail (by decide) (by decide) (by decide) (by decide) tail

theorem splitField_body (f : Field) : splitField f.body = (f.head, f.specText) := by
  have before : ∀ c ∈ f.head, decide (c ≠ ':') = true :=
    fun c member => decide_eq_true (Field.mem_head member (by decide))
  rw [splitField, Field.body_eq, takeWhile_append_of_pos before,
    dropWhile_append_of_pos before]
  unfold Field.specText
  cases f.spec with
  | none => simp
  | some s => simp

theorem explicitIndex_head (f : Field) (next : Nat) :
    (explicitIndex f.head).getD (next % 2 ^ 64) = f.selected next % 2 ^ 64 := by
  have numbered := f.numbered
  unfold Field.head Field.selected
  cases index : f.index with
  | none => rfl
  | some ds =>
    rw [explicitIndex_text ds (numbered ds index)]
    rfl

theorem Field.head_body (f : Field) (rest : List Char) :
    (f.body ++ '}' :: rest).head? ≠ some '{' := by
  intro first
  rw [Field.body_eq] at first
  cases start : f.head with
  | nil =>
    rw [start, nil_append] at first
    split at first
    next => exact absurd (some_inj.mp first) (by decide)
    next => exact absurd (some_inj.mp first) (by decide)
  | cons c tail =>
    rw [start] at first
    have member : c ∈ f.head := by
      rw [start]
      exact mem_cons_self
    exact Field.mem_head member (by decide) (some_inj.mp first)

/-- The scanner goes through a template piece by piece. -/
theorem formatFrom_textOf (args : List Arg) (pieces : List Piece) (next : Nat)
    (parted : Parted pieces) :
    formatFrom args (next % 2 ^ 64) (textOf pieces) = (segments (written args) next pieces).flatten := by
  induction pieces generalizing next with
  | nil => rw [textOf, flatMap_nil, formatFrom, segments, flatten_nil]
  | cons p rest ih =>
    obtain ⟨apart, parted⟩ := parted
    rw [textOf, flatMap_cons, ← textOf]
    cases p with
    | char c plain =>
      rw [Piece.text, singleton_append, formatFrom, if_neg plain.1,
        if_neg fun both => plain.2.1 both.1, ih next parted]
      rfl
    | opening =>
      rw [Piece.text, cons_append, singleton_append, formatFrom, if_pos rfl,
        head?_cons, if_pos rfl, tail_cons, ih next parted]
      rfl
    | closing =>
      rw [Piece.text, cons_append, singleton_append, formatFrom, if_neg (by decide),
        if_pos ⟨rfl, rfl⟩, tail_cons, ih next parted]
      rfl
    | stray =>
      rw [Piece.text, singleton_append, formatFrom, if_neg (by decide),
        if_neg fun both => apart rfl both.2, ih next parted]
      rfl
    | field f =>
      have inside : ∀ c ∈ f.body, decide (c ≠ '}') = true :=
        fun c member => decide_eq_true (Field.mem_body member)
      have first : (f.body ++ '}' :: textOf rest).head? ≠ some '{' := f.head_body _
      rw [Piece.text, cons_append, cons_append, append_assoc,
        singleton_append, formatFrom, if_pos rfl, if_neg first, takeWhile_append_of_pos inside,
        dropWhile_append_of_pos inside, takeWhile_cons_of_neg (by simp),
        dropWhile_cons_of_neg (by simp), if_neg (cons_ne_nil _ _), append_nil,
        splitField_body]
      dsimp only
      rw [explicitIndex_head, Nat.mod_add_mod, formatOne_field, tail_cons, ih _ parted]
      rfl

end Micron.Format
