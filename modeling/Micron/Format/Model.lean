import Micron.Chars.Exact

/-!
# Formatting

A template is the text of a C string, so that no character of it is zero.  Every
formatter writes into a buffer of a fixed size; what it writes is the beginning of a text.
-/

set_option autoImplicit false

namespace Micron.Format

open Micron.Chars List

structure FmtSpec where
  fill : Char := ' '
  align : Char := '\x00'
  width : Nat := 0
  prec : Nat := 6
  hasPrec : Bool := false
  type : Char := '\x00'
  alt : Bool := false
  deriving DecidableEq, Repr

def fmtSpecMax : Nat := 1 <<< 24

def specAccum (acc : Nat) (digit : Char) : Nat :=
  if acc > fmtSpecMax then acc else (acc * 10 + (digit.toNat - '0'.toNat)) % 2 ^ 32

/-- The loop over the digits of a width or precision, with what follows them. -/
def accumDigits (acc : Nat) : List Char → Nat × List Char
  | [] => (acc, [])
  | c :: rest => if isDigit c then accumDigits (specAccum acc c) rest else (acc, c :: rest)

def isAlign (c : Char) : Bool := c = '<' || c = '>' || c = '^'

def parseAlign (s : FmtSpec) : List Char → FmtSpec × List Char
  | c :: a :: rest =>
    if isAlign a then ({ s with fill := c, align := a }, rest)
    else if isAlign c then ({ s with align := c }, a :: rest)
    else (s, c :: a :: rest)
  | [c] => if isAlign c then ({ s with align := c }, []) else (s, [c])
  | [] => (s, [])

def parseAlt (s : FmtSpec) : List Char → FmtSpec × List Char
  | '#' :: rest => ({ s with alt := true }, rest)
  | rest => (s, rest)

def parseWidth (s : FmtSpec) (text : List Char) : FmtSpec × List Char :=
  let w := accumDigits s.width text
  ({ s with width := w.1 }, w.2)

def parsePrec (s : FmtSpec) : List Char → FmtSpec × List Char
  | '.' :: rest =>
    let w := accumDigits 0 rest
    ({ s with prec := w.1, hasPrec := true }, w.2)
  | rest => (s, rest)

def parseType (s : FmtSpec) : List Char → FmtSpec
  | c :: _ => { s with type := c }
  | [] => s

def parseSpec (text : List Char) : FmtSpec :=
  let a := parseAlign {} text
  let h := parseAlt a.1 a.2
  let w := parseWidth h.1 h.2
  let p := parsePrec w.1 w.2
  parseType p.1 p.2

def applyPadding (content : List Char) (spec : FmtSpec) : List Char :=
  if spec.width = 0 ∨ content.length ≥ spec.width then content
  else
    let padTotal := spec.width - content.length
    let fill := if spec.fill = '\x00' then ' ' else spec.fill
    let align :=
      if spec.align = '\x00' then
        if spec.type = 's' ∨ spec.type = '\x00' then '<' else '>'
      else spec.align
    if align = '>' then List.replicate padTotal fill ++ content
    else if align = '<' then content ++ List.replicate padTotal fill
    else
      let left := padTotal / 2
      let right := padTotal - left
      List.replicate left fill ++ content ++ List.replicate right fill

/-- An integer of a type, a string, or a null pointer to characters. -/
inductive Arg
  | int (t : IntType) (v : Int) (range : t.InRange v)
  | str (s : List Char)
  | null

def bufSize : Nat := 72

def wideBufSize : Nat := 160

/-- The base of a type of presentation, and whether digits are in upper case. -/
def presentation (type : Char) : Nat × Bool :=
  if type = 'x' then (16, false)
  else if type = 'X' then (16, true)
  else if type = 'o' then (8, false)
  else if type = 'b' then (2, false)
  else (10, false)

/-- What the alternative form puts before the digits. -/
def altMark (alt : Bool) (base : Nat) (upper : Bool) : List Char :=
  if alt then
    if base = 16 then ['0', if upper then 'X' else 'x']
    else if base = 8 then ['0']
    else if base = 2 then ['0', 'b']
    else []
  else []

def fmtUintToBuf (size val base : Nat) (upper : Bool) : List Char :=
  (if base = 10 then uintToBufBackward [] val else uintToBufBaseBackward [] val base upper).take size

def fmtIntToBuf (size : Nat) (val : Int) (base : Nat) (upper : Bool) : List Char :=
  if val < 0 ∧ base = 10 then
    if size = 0 then []
    else '-' :: fmtUintToBuf (size - 1) (((-(val + 1)).toNat + 1) % 2 ^ 64) base upper
  else fmtUintToBuf size (val % 2 ^ 64).toNat base upper

/-- `formatter` of the integers of at most 64 bits; those of fewer bits are converted first. -/
def writeInt (size : Nat) (signed : Bool) (val : Int) (spec : FmtSpec) : List Char :=
  let base := (presentation spec.type).1
  let upper := (presentation spec.type).2
  let mark := altMark spec.alt base upper
  mark ++
    (if signed then fmtIntToBuf (size - mark.length) val base upper
      else fmtUintToBuf (size - mark.length) val.toNat base upper)

/-- `fmt_u128_to_buf`; nothing where the digits do not fit. -/
def fmtU128ToBuf (size val : Nat) (spec : FmtSpec) : List Char :=
  let base := (presentation spec.type).1
  let upper := (presentation spec.type).2
  let mark := altMark spec.alt base upper
  match toChars128 false (size - mark.length) val base upper with
  | none => []
  | some digits => mark ++ digits

def writeI128 (size : Nat) (val : Int) (spec : FmtSpec) : List Char :=
  if spec.type = 'x' ∨ spec.type = 'X' ∨ spec.type = 'o' ∨ spec.type = 'b' then
    fmtU128ToBuf size (val % 2 ^ 128).toNat spec
  else if val < 0 then
    if size = 0 then []
    else
      let n := fmtU128ToBuf (size - 1) (magnitude 128 true val) spec
      if n = [] then [] else '-' :: n
  else
    fmtU128ToBuf size (magnitude 128 false val) spec

def nullText : List Char := ['(', 'n', 'u', 'l', 'l', ')']

def writeStr (size : Nat) (s : List Char) (spec : FmtSpec) : List Char :=
  let len := s.length
  let len := if spec.hasPrec ∧ spec.prec < len then spec.prec else len
  let len := if len > size then size else len
  s.take len

/-- `formatter<U>::write` into the buffer that is there for the type. -/
def Arg.write (spec : FmtSpec) : Arg → List Char
  | .int t v _ =>
    if t.width = .w128 then
      if t.signed then writeI128 wideBufSize v spec else fmtU128ToBuf wideBufSize v.toNat spec
    else writeInt bufSize t.signed v spec
  | .str s => writeStr bufSize s spec
  | .null => if bufSize < 6 then [] else nullText

def formatOne (specText : List Char) : Nat → List Arg → List Char
  | _, [] => []
  | index + 1, _ :: rest => formatOne specText index rest
  | 0, val :: _ => applyPadding (val.write (parseSpec specText)) (parseSpec specText)

/-- The index that is written before the colon of a field. -/
def explicitIndex (head : List Char) : Option Nat :=
  if head ≠ [] ∧ head.all isDigit then
    some (head.foldl (fun index c => (index * 10 + (c.toNat - '0'.toNat)) % 2 ^ 64) 0)
  else none

/-- The text of a field up to its brace: what stands before the colon, and the spec. -/
def splitField (body : List Char) : List Char × List Char :=
  (body.takeWhile (· ≠ ':'), (body.dropWhile (· ≠ ':')).tail)

def formatFrom (args : List Arg) (autoIndex : Nat) : List Char → List Char
  | [] => []
  | c :: rest =>
    if c = '{' then
      if rest.head? = some '{' then '{' :: formatFrom args autoIndex rest.tail
      else if rest.dropWhile (· ≠ '}') = [] then []
      else
        let field := splitField (rest.takeWhile (· ≠ '}'))
        let index := (explicitIndex field.1).getD autoIndex
        formatOne field.2 index args ++
          formatFrom args ((index + 1) % 2 ^ 64) (rest.dropWhile (· ≠ '}')).tail
    else if c = '}' ∧ rest.head? = some '}' then '}' :: formatFrom args autoIndex rest.tail
    else c :: formatFrom args autoIndex rest
termination_by text => text.length
decreasing_by
  · have := length_tail (l := rest)
    simp only [length_cons]
    omega
  · have := (dropWhile_sublist (l := rest) (· ≠ '}')).length_le
    have := length_tail (l := rest.dropWhile (· ≠ '}'))
    simp only [length_cons]
    omega
  · have := length_tail (l := rest)
    simp only [length_cons]
    omega
  · exact Nat.lt_succ_self _

def format (fmt : List Char) (args : List Arg) : List Char := formatFrom args 0 fmt

/-!
## Templates and what they stand for

The pieces of a template carry what keeps its text unambiguous, and a rendering says which
characters a template and its arguments stand for.
-/

open Micron.Lib Micron.Chars

structure Digits where
  figures : List Nat
  small : ∀ d ∈ figures, d < 10

def Digits.text (ds : Digits) : List Char := ds.figures.map decimalChar

def Digits.value (ds : Digits) : Nat := horner 10 ds.figures

inductive Align
  | left
  | right
  | center
  deriving DecidableEq, Repr

def Align.char : Align → Char
  | .left => '<'
  | .right => '>'
  | .center => '^'

inductive Front
  | bare
  | align (a : Align)
  | fill (c : Char) (inside : c ≠ '}' ∧ c ≠ '\x00') (a : Align)

/-- `[[fill]align]['#'][width]['.' precision][type]`. -/
structure Spec where
  front : Front
  alt : Bool
  width : Digits
  prec : Option Digits
  type : Option Char
  bounded : width.value ≤ 2 ^ 24
  letter : ∀ c ∈ type, c.isAlpha = true

/-- `[index][':' spec]`. -/
structure Field where
  index : Option Digits
  spec : Option Spec
  numbered : ∀ ds ∈ index, ds.figures ≠ []

/-- The pieces of a template: a character that is no brace, two braces that stand for one, a
closing brace by itself, a field. -/
inductive Piece
  | char (c : Char) (plain : c ≠ '{' ∧ c ≠ '}' ∧ c ≠ '\x00')
  | opening
  | closing
  | stray
  | field (f : Field)

def Front.text : Front → List Char
  | .bare => []
  | .align a => [a.char]
  | .fill c _ a => [c, a.char]

def precText : Option Digits → List Char
  | none => []
  | some ds => '.' :: ds.text

def Spec.tail (s : Spec) : List Char :=
  (if s.alt then ['#'] else []) ++ (s.width.text ++ (precText s.prec ++ s.type.toList))

def Spec.text (s : Spec) : List Char := s.front.text ++ s.tail

def Field.body (f : Field) : List Char :=
  (match f.index with
    | none => []
    | some ds => ds.text) ++
    match f.spec with
    | none => []
    | some s => ':' :: s.text

def Piece.text : Piece → List Char
  | .char c _ => [c]
  | .opening => ['{', '{']
  | .closing => ['}', '}']
  | .stray => ['}']
  | .field f => '{' :: f.body ++ ['}']

def textOf (pieces : List Piece) : List Char := pieces.flatMap Piece.text

/-- Nothing behind a stray brace makes a pair of it. -/
def Parted : List Piece → Prop
  | [] => True
  | p :: rest => (p = .stray → (textOf rest).head? ≠ some '}') ∧ Parted rest

def Spec.plain : Spec where
  front := .bare
  alt := false
  width := ⟨[], nofun⟩
  prec := none
  type := none
  bounded := by decide
  letter := nofun

def Field.toSpec (f : Field) : Spec := f.spec.getD Spec.plain

def Spec.fillChar (s : Spec) : Char :=
  match s.front with
  | .fill c _ _ => c
  | _ => ' '

/-- The side of the text: to the left where neither an alignment nor a type of numbers is
given. -/
def Spec.side (s : Spec) : Align :=
  match s.front with
  | .align a => a
  | .fill _ _ a => a
  | .bare => if s.type = none ∨ s.type = some 's' then .left else .right

/-- The base of the digits, and whether they are in upper case. -/
def Spec.base (s : Spec) : Nat × Bool := presentation (s.type.getD '\x00')

/-- The text of an argument, a string cut to an explicit precision. -/
def Arg.text (s : Spec) : Arg → List Char
  | .int t v _ =>
    if s.base.1 = 10 then render s.base.2 10 v
    else
      altMark s.alt s.base.1 s.base.2 ++
        spell s.base.2 s.base.1 (v % 2 ^ (if t.width = Width.w128 then 128 else 64)).toNat
  | .str text =>
    match s.prec with
    | none => text
    | some ds => text.take ds.value
  | .null => nullText

def Spec.padded (s : Spec) (content : List Char) : List Char :=
  let pad := s.width.value - content.length
  match s.side with
  | .left => content ++ List.replicate pad s.fillChar
  | .right => List.replicate pad s.fillChar ++ content
  | .center =>
    List.replicate (pad / 2) s.fillChar ++ content ++ List.replicate (pad - pad / 2) s.fillChar

theorem Spec.length_padded (s : Spec) (content : List Char) :
    (s.padded content).length = max s.width.value content.length := by
  rw [Spec.padded]
  split <;> simp only [length_append, length_replicate] <;> omega

def shown (args : List Arg) (i : Nat) (s : Spec) : List Char :=
  match args[i]? with
  | none => []
  | some a => s.padded (a.text s)

/-- The index a field selects: its own, else the one after the index selected before. -/
def Field.selected (f : Field) (next : Nat) : Nat :=
  match f.index with
  | none => next
  | some ds => ds.value

/-- The texts of the pieces in order, by what fields show. -/
def segments (show' : Nat → Spec → List Char) (next : Nat) : List Piece → List (List Char)
  | [] => []
  | .char c _ :: rest => [c] :: segments show' next rest
  | .opening :: rest => ['{'] :: segments show' next rest
  | .closing :: rest => ['}'] :: segments show' next rest
  | .stray :: rest => ['}'] :: segments show' next rest
  | .field f :: rest =>
    show' (f.selected next) f.toSpec :: segments show' (f.selected next + 1) rest

def rendering (pieces : List Piece) (args : List Arg) : List Char :=
  (segments (shown args) 0 pieces).flatten

theorem isDigit_decimalChar {d : Nat} (small : d < 10) : isDigit (decimalChar d) = true := by
  have table : ∀ d < 10, isDigit (decimalChar d) = true := by decide
  exact table d small

theorem decimalChar_value {d : Nat} (small : d < 10) :
    (decimalChar d).toNat - '0'.toNat = d := by
  have table : ∀ d < 10, (decimalChar d).toNat - '0'.toNat = d := by decide
  exact table d small

theorem Digits.all_isDigit (ds : Digits) : ds.text.all isDigit = true := by
  rw [all_eq_true]
  intro c member
  obtain ⟨d, inside, rfl⟩ := mem_map.mp member
  exact isDigit_decimalChar (ds.small d inside)

/-- A reader of digits that goes on from an accumulator. -/
theorem foldl_digits {σ : Type} (step : σ → Nat → σ) (ds : Digits) (s : σ) :
    ds.text.foldl (fun acc c => step acc (c.toNat - '0'.toNat)) s = ds.figures.foldl step s := by
  obtain ⟨figures, small⟩ := ds
  unfold Digits.text
  induction figures generalizing s with
  | nil => rfl
  | cons d rest ih =>
    rw [map_cons, foldl_cons, foldl_cons,
      decimalChar_value (small d mem_cons_self)]
    exact ih _ fun e member => small e (mem_cons_of_mem d member)

/-- A word that counts digits is the number modulo the word. -/
theorem foldl_mod (m : Nat) (figures : List Nat) (acc : Nat) :
    figures.foldl (fun index d => (index * 10 + d) % m) (acc % m) =
      (figures.foldl (fun index d => index * 10 + d) acc) % m := by
  induction figures generalizing acc with
  | nil => rfl
  | cons d rest ih =>
    have step : (acc % m * 10 + d) % m = (acc * 10 + d) % m :=
      Nat.ModEq.add_right d (Nat.ModEq.mul_right 10 (Nat.mod_modEq acc m))
    rw [foldl_cons, foldl_cons, step, ih]

theorem explicitIndex_text (ds : Digits) (some : ds.figures ≠ []) :
    explicitIndex ds.text = .some (ds.value % 2 ^ 64) := by
  have nonempty : ds.text ≠ [] := fun none => some (map_eq_nil_iff.mp none)
  rw [explicitIndex, if_pos ⟨nonempty, ds.all_isDigit⟩,
    foldl_digits (fun index d => (index * 10 + d) % 2 ^ 64)]
  exact congrArg Option.some (foldl_mod (2 ^ 64) ds.figures 0)

/-- Where a number and its saturating accumulator agree. -/
def Saturates (acc value : Nat) : Prop := acc = value ∨ (2 ^ 24 < acc ∧ 2 ^ 24 < value)

theorem specAccum_saturates {acc value d : Nat} (small : d < 10) (agree : Saturates acc value) :
    Saturates (specAccum acc (decimalChar d)) (value * 10 + d) := by
  rw [specAccum, decimalChar_value small]
  have top : fmtSpecMax = 2 ^ 24 := rfl
  unfold Saturates at agree ⊢
  split
  next above => exact .inr ⟨above, by omega⟩
  next below =>
    omega

theorem accumDigits_text (ds : Digits) {rest : List Char}
    (stop : ∀ c ∈ rest.head?, isDigit c = false) (acc : Nat) :
    accumDigits acc (ds.text ++ rest) = (ds.text.foldl specAccum acc, rest) := by
  have digits := all_eq_true.mp ds.all_isDigit
  generalize ds.text = text at digits ⊢
  induction text generalizing acc with
  | nil =>
    cases rest with
    | nil => rfl
    | cons c rest =>
      rw [nil_append, accumDigits, if_neg (by rw [stop c rfl]; decide)]
      rfl
  | cons c text ih =>
    rw [cons_append, accumDigits, if_pos (digits c mem_cons_self)]
    exact ih _ fun d member => digits d (mem_cons_of_mem c member)

theorem foldl_specAccum (ds : Digits) : Saturates (ds.text.foldl specAccum 0) ds.value := by
  have run : ∀ (figures : List Nat) (acc value : Nat), (∀ d ∈ figures, d < 10) →
      Saturates acc value →
      Saturates ((figures.map decimalChar).foldl specAccum acc) (extend 10 value figures) := by
    intro figures
    induction figures with
    | nil => exact fun _ _ _ agree => agree
    | cons d figures ih =>
      intro acc value small agree
      exact ih _ _ (fun e member => small e (mem_cons_of_mem d member))
        (specAccum_saturates (small d mem_cons_self) agree)
  exact run ds.figures 0 0 ds.small (.inl rfl)

end Micron.Format
