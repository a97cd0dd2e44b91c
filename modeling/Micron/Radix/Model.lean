import Mathlib.Algebra.Order.Ring.Nat
import Mathlib.Data.Nat.Size

/-!
# Radix conversion of big integers

`math/arbint/convert.hpp` writes an `arbuint` or `arbint` in a base from 2 to 36 and
reads it back, on a target with 64-bit words.  A number stands for the limbs that
hold it, and `keep` is what a store of a fixed width keeps of it; the width 0 is the
unbounded store.  The arithmetic of `arbuint` is the one of numbers, followed by
`keep`.  Text is a list of characters.  `none` is a thrown exception or a write
outside of the buffer.
-/

set_option autoImplicit false

namespace Micron.Radix

def bitLength (x : Nat) : Nat := x.size

def size (x : Nat) : Nat := (bitLength x + 63) / 64

def limb (x i : Nat) : Nat := x / 2 ^ (64 * i) % 2 ^ 64

/-- What `finish` leaves of a number in a store of the width `bits`. -/
def keep (bits x : Nat) : Nat := if bits = 0 then x else x % 2 ^ bits

/-- `mpn::threshold::get_str_dc` and `set_str_dc`. -/
structure Thresholds where
  getStrDc : Nat
  setStrDc : Nat

def digitsLower : List Char := "0123456789abcdefghijklmnopqrstuvwxyz".toList

def digitsUpper : List Char := "0123456789ABCDEFGHIJKLMNOPQRSTUVWXYZ".toList

def tab (upper : Bool) (d : Nat) : Char := (if upper then digitsUpper else digitsLower).getD d '0'

structure BasePow where
  big : Nat
  per : Nat

def largestPowerFrom (base : Nat) : Nat → Nat → Nat → BasePow
  | 0, big, per => ⟨big, per⟩
  | fuel + 1, big, per =>
    if big ≤ (2 ^ 64 - 1) / base then largestPowerFrom base fuel (big * base) (per + 1)
    else ⟨big, per⟩

def largestPower (base : Nat) : BasePow := largestPowerFrom base 64 base 1

def digitValue (c : Char) : Nat :=
  if '0' ≤ c ∧ c ≤ '9' then c.toNat - '0'.toNat
  else if 'a' ≤ c ∧ c ≤ 'z' then c.toNat - 'a'.toNat + 10
  else if 'A' ≤ c ∧ c ≤ 'Z' then c.toNat - 'A'.toNat + 10
  else 0xFFFFFFFF

def maxTower : Nat := 64

def isPow2Base (base : Nat) : Bool := decide (2 ≤ base ∧ base &&& (base - 1) = 0)

/-! ## Writing digits

A list of characters stands for the text in front of `end`; a character is written
in front of it. -/

def digitBits : Nat → Nat → Nat
  | 0, _ => 0
  | fuel + 1, b => if 1 < b then digitBits fuel (b >>> 1) + 1 else 0

/-- The digit whose lowest bit is the bit `pos` of `x`, which has `n` limbs. -/
def bitSlice (x n base bits pos : Nat) : Nat :=
  let i := pos / 64
  let off := pos % 64
  let v := limb x i >>> off
  let v := if 64 < off + bits ∧ i + 1 < n then v ||| (limb x (i + 1) <<< (64 - off)) % 2 ^ 64 else v
  v &&& (base - 1)

def emitBits (x n base bits total : Nat) (upper : Bool) : Nat → Nat → List Char → List Char
  | 0, _, text => text
  | fuel + 1, pos, text =>
    if pos < total then
      emitBits x n base bits total upper fuel (pos + bits)
        (tab upper (bitSlice x n base bits pos) :: text)
    else text

/-- The digits of the first chunk: as many as it has. -/
def emitFirst (base : Nat) (upper : Bool) : Nat → Nat → List Char → List Char
  | 0, _, text => text
  | fuel + 1, v, text =>
    let text := tab upper (v % base) :: text
    if v / base ≠ 0 then emitFirst base upper fuel (v / base) text else text

/-- The digits of a later chunk: always `per`. -/
def emitChunk (base : Nat) (upper : Bool) : Nat → Nat → List Char → List Char
  | 0, _, text => text
  | k + 1, v, text => emitChunk base upper k (v / base) (tab upper (v % base) :: text)

def emitChunks (base : Nat) (bp : BasePow) (upper : Bool) : Nat → Nat → List Char → List Char
  | 0, _, text => text
  | fuel + 1, x, text =>
    if 0 < size x then
      let rem := x % bp.big
      let x := x / bp.big
      let text := if size x = 0 then emitFirst base upper 64 rem text
        else emitChunk base upper bp.per rem text
      emitChunks base bp upper fuel x text
    else text

def emitDigits (x base : Nat) (upper : Bool) : List Char :=
  if isPow2Base base then
    emitBits x (size x) base (digitBits 32 base) (bitLength x) upper (bitLength x) 0 []
  else emitChunks base (largestPower base) upper (bitLength x) x []

/-- The text in the buffer; it is empty when the call returns 0. -/
def toChars (cap a base : Nat) (upper : Bool) : Option (List Char) :=
  if base < 2 ∨ 36 < base ∨ cap = 0 then some []
  else if a = 0 then some ['0']
  else if cap < bitLength a then some []
  else
    let text := emitDigits a base upper
    if text.length ≤ bitLength a then some text else none

def readChunk (base : Nat) : List Char → Nat → Option Nat
  | [], chunk => some chunk
  | c :: text, chunk =>
    let d := digitValue c
    if base ≤ d then none else readChunk base text ((chunk * base + d) % 2 ^ 64)

def mulAdd1 (bits out mul add : Nat) : Nat := keep bits (out * mul + add)

def readChunks (bits base : Nat) (bp : BasePow) : Nat → Nat → List Char → Option Nat
  | 0, out, _ => some out
  | fuel + 1, out, text =>
    if text = [] then some out
    else do
      let chunk ← readChunk base (text.take bp.per) 0
      readChunks bits base bp fuel (mulAdd1 bits out bp.big chunk) (text.drop bp.per)

def readHead (bits base head : Nat) (text : List Char) : Option Nat :=
  if head ≠ 0 then do
    let chunk ← readChunk base (text.take head) 0
    some (mulAdd1 bits 0 1 chunk)
  else some 0

def fromCharsBasecase (bits base : Nat) (text : List Char) : Option Nat :=
  if base < 2 ∨ 36 < base ∨ text = [] then none
  else do
    let bp := largestPower base
    let head := text.length % bp.per
    let out ← readHead bits base head text
    readChunks bits base bp text.length out (text.drop head)

/-- The entries of the tower: `digits` doubles and the power is squared. -/
def digitsAt (base : Nat) : Nat → Nat
  | 0 => (largestPower base).per
  | k + 1 => digitsAt base k * 2 % 2 ^ 64

def towerAt (bits base : Nat) : Nat → Nat
  | 0 => keep bits (largestPower base).big
  | k + 1 => keep bits (towerAt bits base k * towerAt bits base k)

def dropLevel (base n : Nat) : Nat → Nat
  | 0 => 0
  | level + 1 => if n ≤ digitsAt base (level + 1) then dropLevel base n level else level + 1

def parseDc (th : Thresholds) (bits base : Nat) : Nat → List Char → Nat → Option Nat
  | 0, _, _ => none
  | fuel + 1, text, level =>
    let n := text.length
    if level = 0 ∨ n ≤ digitsAt base 0 ∨ n < th.setStrDc then fromCharsBasecase bits base text
    else
      let lv := dropLevel base n level
      if lv = 0 ∧ n ≤ digitsAt base 0 then fromCharsBasecase bits base text
      else do
        let low := digitsAt base lv
        let hi ← parseDc th bits base fuel (text.take (n - low)) lv
        let lo ← parseDc th bits base fuel (text.drop (n - low)) lv
        some (keep bits (keep bits (hi * towerAt bits base lv) + lo))

def parseTop (base n : Nat) : Nat → Nat → Nat
  | 0, top => top
  | fuel + 1, top =>
    if digitsAt base top * 2 % 2 ^ 64 < n then parseTop base n fuel (top + 1) else top

def fromChars (th : Thresholds) (bits base : Nat) (text : List Char) : Option Nat :=
  if base < 2 ∨ 36 < base ∨ text = [] then none
  else if text.length < th.setStrDc ∨ isPow2Base base = true then fromCharsBasecase bits base text
  else if text.any (fun c => decide (base ≤ digitValue c)) then none
  else
    parseDc th bits base text.length text (parseTop base text.length (maxTower - 1) 0)

/-- The buffer with a text written at `pos`; the text lies inside. -/
def writeAt (buf : List Char) (pos : Nat) (text : List Char) : List Char :=
  buf.take pos ++ text ++ buf.drop (pos + text.length)

def emitPaddedBasecase (buf : List Char) (out width x base : Nat) (upper : Bool) :
    Option (List Char) :=
  let text := emitDigits x base upper
  if text.length ≤ out + width ∧ out + width ≤ buf.length then
    let first := out + width - text.length
    let buf := writeAt buf first text
    some (writeAt buf out (List.replicate (first - out) '0'))
  else none

/-- `divmod` throws when the power is zero. -/
def emitPadded (th : Thresholds) (bits base : Nat) (upper : Bool) :
    Nat → List Char → Nat → Nat → Nat → Option (List Char)
  | 0, buf, out, width, x => emitPaddedBasecase buf out width x base upper
  | level + 1, buf, out, width, x =>
    if size x < th.getStrDc then emitPaddedBasecase buf out width x base upper
    else
      let low := digitsAt base (level + 1)
      if width ≤ low then emitPadded th bits base upper level buf out width x
      else
        let power := towerAt bits base (level + 1)
        if power = 0 then none
        else do
          let buf ← emitPadded th bits base upper level buf out (width - low) (x / power)
          emitPadded th bits base upper level buf (out + (width - low)) low (x % power)

/-- The tower is squared until a power exceeds the value. -/
def formatTop (bits base a : Nat) : Nat → Nat → Nat
  | 0, top => top
  | fuel + 1, top =>
    if towerAt bits base top ≤ a then formatTop bits base a fuel (top + 1) else top

/-- The zeros in front, but not the last character. -/
def countLead (buf : List Char) (width : Nat) : Nat → Nat → Nat
  | 0, lead => lead
  | fuel + 1, lead =>
    if lead + 1 < width ∧ buf[lead]? = some '0' then countLead buf width fuel (lead + 1) else lead

def toString (th : Thresholds) (bits a base : Nat) (upper : Bool) : Option (List Char) :=
  let cap := bitLength a + 3
  if size a < th.getStrDc ∨ isPow2Base base = true ∨ base < 2 ∨ 36 < base then
    toChars (cap - 1) a base upper
  else
    let top := formatTop bits base a (maxTower - 1) 0
    let width := digitsAt base top
    if cap < width + 1 then toChars (cap - 1) a base upper
    else do
      let buf ← emitPadded th bits base upper top (List.replicate cap (Char.ofNat 0)) 0 width a
      let lead := countLead buf width width 0
      some ((buf.take width).drop lead)

structure Arbint where
  mag : Nat
  negative : Bool

def Arbint.value (a : Arbint) : Int := if a.negative then -(a.mag : Int) else a.mag

def toCharsInt (cap : Nat) (a : Arbint) (base : Nat) (upper : Bool) : Option (List Char) :=
  if a.negative = false then toChars cap a.mag base upper
  else if cap = 0 then some []
  else do
    let text ← toChars (cap - 1) a.mag base upper
    some (if text = [] then [] else '-' :: text)

def toStringInt (a : Arbint) (base : Nat) (upper : Bool) : Option (List Char) :=
  toCharsInt (bitLength a.mag + 3 - 1) a base upper

def fromCharsInt (th : Thresholds) (bits base : Nat) (text : List Char) : Option Arbint :=
  match text with
  | [] => none
  | c :: rest =>
    if c = '-' ∨ c = '+' then
      if rest = [] then none
      else do
        let mag ← fromChars th bits base rest
        some ⟨mag, decide (c = '-') && decide (mag ≠ 0)⟩
    else do
      let mag ← fromChars th bits base text
      some ⟨mag, false⟩

end Micron.Radix
