import Micron.Chars.Emit

/-!
# Integers to text and back

The types of 8 to 64 bits share one pair of functions, those of 128 bits have their own.
A writer that answers zero is `none` here, as is a reader that answers false.
-/

set_option autoImplicit false

namespace Micron.Chars

open Micron.Lib

/-- The magnitude in the unsigned type of `bits` bits. -/
def magnitude (bits : Nat) (neg : Bool) (v : Int) : Nat :=
  if neg then ((0 - v % 2 ^ bits) % 2 ^ bits).toNat else (v % 2 ^ bits).toNat

def putSigned (cap : Nat) (neg : Bool) (text : List Char) : Option (List Char) :=
  if cap < text.length + (if neg then 1 else 0) then none
  else some (if neg then '-' :: text else text)

def toChars (bits : Nat) (signed : Bool) (cap : Nat) (v : Int) (base : Nat) (upper : Bool) :
    Option (List Char) :=
  if base < 2 ∨ base > 36 then none
  else
    let neg := signed && decide (v < 0)
    let mag := magnitude bits neg v
    putSigned cap neg
      (if base = 10 then uintToBufBackward [] mag else uintToBufBaseBackward [] mag base upper)

def toChars128 (signed : Bool) (cap : Nat) (v : Int) (base : Nat) (upper : Bool) :
    Option (List Char) :=
  if base < 2 ∨ base > 36 then none
  else
    let neg := signed && decide (v < 0)
    let mag := magnitude 128 neg v
    putSigned cap neg (uint128ToBufBaseBackward [] (mag >>> 64) (mag % 2 ^ 64) base upper)

/-- `digit_val`, negative where there is none. -/
def digitVal (c : Char) (base : Nat) : Option Nat :=
  let v :=
    if '0' ≤ c ∧ c ≤ '9' then some (c.toNat - '0'.toNat)
    else if 'a' ≤ c ∧ c ≤ 'z' then some (c.toNat - 'a'.toNat + 10)
    else if 'A' ≤ c ∧ c ≤ 'Z' then some (c.toNat - 'A'.toNat + 10)
    else none
  v.filter (· < base)

/-- The loop over the digits, in words below `wrap` and with a test for results out of range. -/
def readDigits (base wrap : Nat) (exceeds : Nat → Nat → Bool) : Nat → List Char → Option Nat
  | acc, [] => some acc
  | acc, c :: rest =>
    match digitVal c base with
    | none => none
    | some du =>
      if exceeds acc du then none
      else readDigits base wrap exceeds ((acc * base + du) % wrap) rest

/-- A sign in front: whether it is a minus, and what follows. -/
def takeSign : List Char → Bool × List Char
  | '-' :: rest => (true, rest)
  | '+' :: rest => (false, rest)
  | text => (false, text)

def limit (bits : Nat) (signed neg : Bool) : Nat :=
  let umax := 2 ^ bits - 1
  if signed then if neg then (umax >>> 1) + 1 else umax >>> 1 else umax

def fromChars (bits : Nat) (signed : Bool) (text : List Char) (base : Nat) : Option Int :=
  if text = [] ∨ base < 2 ∨ base > 36 then none
  else if text.head? = some '-' ∧ signed = false then none
  else
    let neg := (takeSign text).1
    let rest := (takeSign text).2
    if rest = [] then none
    else
      let lim := limit bits signed neg
      (readDigits base (2 ^ 64) (fun acc du => decide (du > lim ∨ acc > (lim - du) / base)) 0 rest).map
        fun acc : Nat =>
          if signed then (if neg then 0 - (acc : Int) else acc).bmod (2 ^ bits)
          else (acc : Int) % 2 ^ bits

def fromCharsU128 (text : List Char) (base : Nat) : Option Nat :=
  if text = [] ∨ base < 2 ∨ base > 36 then none
  else
    let rest := if text.head? = some '+' then text.tail else text
    if rest = [] then none
    else
      let umax := 2 ^ 128 - 1
      let lim := umax / base
      let limr := umax - lim * base
      readDigits base (2 ^ 128) (fun acc du => decide (acc > lim ∨ (acc = lim ∧ du > limr))) 0 rest

def fromCharsI128 (text : List Char) (base : Nat) : Option Int :=
  if text = [] ∨ base < 2 ∨ base > 36 then none
  else
    let neg := (takeSign text).1
    let rest := (takeSign text).2
    if rest = [] then none
    else if rest.head? = some '+' ∨ rest.head? = some '-' then none
    else
      match fromCharsU128 rest base with
      | none => none
      | some mag =>
        let posMax := 2 ^ 127 - 1
        let negMax := 2 ^ 127
        if (if neg then mag > negMax else mag > posMax) then none
        else some ((if neg then 0 - (mag : Int) else mag).bmod (2 ^ 128))

def isDigit (c : Char) : Bool := '0' ≤ c && c ≤ '9'

/-- The loop of `try_parse_int64` and `try_parse_uint64`, by what one more digit makes of the
accumulator: nothing where it overflows. -/
def tryLoop {σ : Type} (step : σ → Nat → Option σ) : Bool → σ → List Char → Option σ
  | any, acc, [] => if any then some acc else none
  | any, acc, c :: rest =>
    if isDigit c then
      match step acc (c.toNat - '0'.toNat) with
      | none => none
      | some acc' => tryLoop step true acc' rest
    else if any ∧ (c :: rest).dropWhile (· == ' ') = [] then some acc
    else none

def stringLoop {σ : Type} (step : σ → Nat → Option σ) : σ → List Char → Option σ
  | acc, [] => some acc
  | acc, c :: rest =>
    if isDigit c then
      match step acc (c.toNat - '0'.toNat) with
      | none => none
      | some acc' => stringLoop step acc' rest
    else some acc

def uintStep (acc d : Nat) : Option Nat :=
  let mx := 2 ^ 64 - 1
  if acc > mx / 10 ∨ (acc = mx / 10 ∧ d > mx % 10) then none else some (acc * 10 + d)

def intStep (acc : Int) (d : Nat) : Option Int :=
  let lim : Int := -2 ^ 63
  if acc < lim.tdiv 10 ∨ (acc = lim.tdiv 10 ∧ (d : Int) > -lim.tmod 10) then none
  else some (acc * 10 - d)

def tryParseUint64 (text : List Char) : Option Nat :=
  let trimmed := text.dropWhile (· == ' ')
  let rest := if trimmed.head? = some '+' then trimmed.tail else trimmed
  if rest = [] ∨ rest.head? = some '-' then none else tryLoop uintStep false 0 rest

def tryParseInt64 (text : List Char) : Option Int :=
  let trimmed := text.dropWhile (· == ' ')
  let neg := (takeSign trimmed).1
  let rest := (takeSign trimmed).2
  if rest = [] then none
  else
    match tryLoop intStep false 0 rest with
    | none => none
    | some acc => if neg then some acc else if acc = -2 ^ 63 then none else some (-acc)

def stringToUint64 (text : List Char) : Nat :=
  let trimmed := text.dropWhile (· == ' ')
  let rest := if trimmed.head? = some '+' then trimmed.tail else trimmed
  (stringLoop uintStep 0 rest).getD (2 ^ 64 - 1)

def stringToInt64 (text : List Char) : Int :=
  let trimmed := text.dropWhile (· == ' ')
  let neg := (takeSign trimmed).1
  let rest := (takeSign trimmed).2
  match stringLoop intStep 0 rest with
  | none => if neg then -2 ^ 63 else 2 ^ 63 - 1
  | some acc => if neg then acc else if acc = -2 ^ 63 then 2 ^ 63 - 1 else -acc

end Micron.Chars
