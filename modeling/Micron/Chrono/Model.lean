import Micron.Lib.Numeral

/-!
# Timestamps

The calendar, the writers that put a civil time in a buffer and the parsers that read
one.  A parser is given the rest of its input and hands on what it left of it.
-/

set_option autoImplicit false

namespace Micron.Chrono

open List

def floorDiv (a b : Int) : Int :=
  if a.tmod b ≠ 0 ∧ ((a < 0 ∧ ¬ b < 0) ∨ (¬ a < 0 ∧ b < 0)) then a.tdiv b - 1 else a.tdiv b

def floorMod (a b : Int) : Int := a - floorDiv a b * b

def isLeap (y : Int) : Bool :=
  y.tmod 4 = 0 && y.tmod 100 ≠ 0 || y.tmod 400 = 0

def monthDays : List Nat := [0, 31, 28, 31, 30, 31, 30, 31, 31, 30, 31, 30, 31]

def daysInMonth (y : Int) (m : Nat) : Nat :=
  if m = 2 then if isLeap y then 29 else 28
  else if 1 ≤ m ∧ m ≤ 12 then monthDays.getD m 0 else 0

def daysFromCivil (year : Int) (m d : Nat) : Int :=
  let y := if m ≤ 2 then year - 1 else year
  let era := floorDiv y 400
  let yoe := y - era * 400
  let doy := ((153 * ((m : Int) + if 2 < m then -3 else 9) + 2).tdiv 5) + d - 1
  let doe := yoe * 365 + yoe.tdiv 4 - yoe.tdiv 100 + doy
  era * 146097 + doe - 719468

def civilValid (y : Int) (m d : Nat) : Prop := 1 ≤ m ∧ m ≤ 12 ∧ 1 ≤ d ∧ d ≤ daysInMonth y m

def weekdayFromDays (z : Int) : Nat := (floorMod (z + 4) 7).toNat

def weekdayOf (y : Int) (m d : Nat) : Nat := weekdayFromDays (daysFromCivil y m d)

def monthAbbr : List String :=
  ["???", "Jan", "Feb", "Mar", "Apr", "May", "Jun", "Jul", "Aug", "Sep", "Oct", "Nov", "Dec"]

def weekdayAbbr : List String := ["Sun", "Mon", "Tue", "Wed", "Thu", "Fri", "Sat"]

structure Civil where
  y : Int := 1970
  mo : Nat := 1
  d : Nat := 1
  h : Nat := 0
  mi : Nat := 0
  s : Nat := 0
  ns : Nat := 0
  off : Int := 0
  deriving DecidableEq

def Civil.valid (c : Civil) : Prop :=
  civilValid c.y c.mo c.d ∧ c.h < 24 ∧ c.mi < 60 ∧ c.s < 61 ∧ c.ns < 1000000000

inductive OffsetStyle where
  | none
  | zOrColon
  | colon
  | compact
  | zOrCompact
  deriving DecidableEq

inductive DateSep where
  | isoT
  | space
  | none
  deriving DecidableEq

/-- The characters stored so far; `n` also counts those that did not fit. -/
structure Wbuf where
  p : List Char
  cap : Nat
  n : Nat

namespace Wbuf

def new (cap : Nat) : Wbuf := ⟨[], cap, 0⟩

def put (w : Wbuf) (ch : Char) : Wbuf :=
  { w with p := if w.n < w.cap then w.p ++ [ch] else w.p, n := w.n + 1 }

def putCstr (w : Wbuf) (s : String) : Wbuf := s.toList.foldl put w

/-- The digits of a number, the last one first; one digit for zero. -/
def digitLoop (v : Nat) (tmp : List Char) : List Char :=
  if v / 10 = 0 then tmp ++ [Char.ofNat (48 + v % 10)]
  else digitLoop (v / 10) (tmp ++ [Char.ofNat (48 + v % 10)])
termination_by v
decreasing_by omega

def putU (w : Wbuf) (v width : Nat) (fill : Char) : Wbuf :=
  let tmp := digitLoop v []
  let w := (List.replicate (width - tmp.length) fill).foldl put w
  tmp.reverse.foldl put w

def putI (w : Wbuf) (v : Int) (width : Nat) (fill : Char) : Wbuf :=
  if v < 0 then (w.put '-').putU (-(v + 1)).toNat.succ width fill
  else w.putU v.toNat width fill

end Wbuf

def putYear (w : Wbuf) (y : Int) : Wbuf :=
  if 0 ≤ y ∧ y ≤ 9999 then w.putU y.toNat 4 '0'
  else
    let mag := if y < 0 then -y else y
    (w.put (if y < 0 then '-' else '+')).putU mag.toNat 4 '0'

def putSubsec (w : Wbuf) (ns digits : Nat) : Wbuf :=
  if digits = 0 then w
  else
    let digits := if digits > 9 then 9 else digits
    let scale := 10 ^ (9 - digits)
    (w.put '.').putU (ns / scale) digits '0'

def putOffset (w : Wbuf) (off : Int) (os : OffsetStyle) : Wbuf :=
  if os = .none then w
  else if off = 0 ∧ (os = .zOrColon ∨ os = .zOrCompact) then w.put 'Z'
  else
    let mag := (if off < 0 then -off else off).toNat
    let w := (w.put (if off < 0 then '-' else '+')).putU (mag / 3600) 2 '0'
    let w := if os = .zOrColon ∨ os = .colon then w.put ':' else w
    w.putU (mag % 3600 / 60) 2 '0'

def iso8601 (cap : Nat) (c : Civil) (subsecDigits : Nat) (sep : DateSep) (os : OffsetStyle) : Wbuf :=
  let w := putYear (Wbuf.new cap) c.y
  let w := ((w.put '-').putU c.mo 2 '0')
  let w := ((w.put '-').putU c.d 2 '0')
  let w := ((w.put (if sep = .space then ' ' else 'T')).putU c.h 2 '0')
  let w := ((w.put ':').putU c.mi 2 '0')
  let w := ((w.put ':').putU c.s 2 '0')
  putOffset (putSubsec w c.ns subsecDigits) c.off os

def rfc2822 (cap : Nat) (c : Civil) (gmtLiteral : Bool) : Wbuf :=
  let wd := weekdayOf c.y c.mo c.d
  let w := (Wbuf.new cap).putCstr (weekdayAbbr.getD (if wd < 7 then wd else 0) "")
  let w := (((w.put ',').put ' ').putU c.d 2 '0').put ' '
  let w := (w.putCstr (monthAbbr.getD (if c.mo ≤ 12 then c.mo else 0) "")).put ' '
  let w := (w.putI c.y 4 '0').put ' '
  let w := (w.putU c.h 2 '0').put ':'
  let w := (w.putU c.mi 2 '0').put ':'
  let w := (w.putU c.s 2 '0').put ' '
  if gmtLiteral then w.putCstr "GMT" else putOffset w c.off .compact

/-- What a caller reads back: the buffer up to the length that the writer returned, which
is zero for a text that did not fit. -/
def Wbuf.written (w : Wbuf) : List Char := w.p.take (if w.n ≤ w.cap then w.n else 0)

def writeIso8601 (cap : Nat) (c : Civil) (subsecDigits : Nat) (sep : DateSep) (os : OffsetStyle) :
    List Char := (iso8601 cap c subsecDigits sep os).written

def writeRfc3339 (cap : Nat) (c : Civil) (subsecDigits : Nat) : List Char :=
  writeIso8601 cap c subsecDigits .isoT .zOrColon

def writeIsoFull (cap : Nat) (c : Civil) (subsecDigits : Nat) : List Char :=
  writeIso8601 cap c subsecDigits .space .compact

def writeRfc2822 (cap : Nat) (c : Civil) : List Char := (rfc2822 cap c false).written

def rfc3339Size (c : Civil) (subsecDigits : Nat) : Nat := (iso8601 0 c subsecDigits .isoT .zOrColon).n

def isoFullSize (c : Civil) (subsecDigits : Nat) : Nat := (iso8601 0 c subsecDigits .space .compact).n

def rfc2822Size (c : Civil) : Nat := (rfc2822 0 c false).n

inductive ParseErr where
  | empty
  | malformed
  | badYear
  | badMonth
  | badDay
  | badHour
  | badMinute
  | badSecond
  | badOffset
  | badWeekday
  | trailing
  | overflow
  | noOffset
  deriving DecidableEq

def ParseErr.text : ParseErr → String
  | .empty => "empty input"
  | .malformed => "malformed"
  | .badYear => "bad year"
  | .badMonth => "bad month"
  | .badDay => "bad day"
  | .badHour => "bad hour"
  | .badMinute => "bad minute"
  | .badSecond => "bad second"
  | .badOffset => "bad utc offset"
  | .badWeekday => "bad weekday"
  | .trailing => "trailing characters"
  | .overflow => "overflow"
  | .noOffset => "missing utc offset"

structure CivilResult where
  c : Civil := {}
  err : Option ParseErr := none
  hasOffset : Bool := false
  deriving DecidableEq

def CivilResult.fail (r : CivilResult) (err : ParseErr) : CivilResult := { r with err := some err }

def isDigit (c : Char) : Bool := '0' ≤ c && c ≤ '9'

def digitValue (c : Char) : Nat := c.toNat - 48

def fixedLoop : Nat → Nat → List Char → Option (Nat × List Char)
  | 0, out, s => some (out, s)
  | _ + 1, _, [] => none
  | k + 1, out, c :: rest => if isDigit c then fixedLoop k (out * 10 + digitValue c) rest else none

def fixedDigits (s : List Char) (count : Nat) : Option (Nat × List Char) :=
  if s.length < count then none else fixedLoop count 0 s

/-- The value of the digits, how many they are, and what follows. -/
def someLoop (max : Nat) : Nat → Nat → List Char → Nat × Nat × List Char
  | out, taken, [] => (out, taken, [])
  | out, taken, c :: rest =>
    if taken < max ∧ isDigit c then someLoop max (out * 10 + digitValue c) (taken + 1) rest
    else (out, taken, c :: rest)

def someDigits (s : List Char) (max : Nat) : Option (Nat × Nat × List Char) :=
  let found := someLoop max 0 0 s
  if found.2.1 = 0 then none else some found

def lower (c : Char) : Char := if 'A' ≤ c && c ≤ 'Z' then Char.ofNat (c.toNat + 32) else c

def ieq (s : List Char) (lit : String) : Bool :=
  lit.length ≤ s.length && (s.take lit.length).map lower == lit.toList.map lower

def expect (ch : Char) : List Char → Option (List Char)
  | [] => none
  | c :: rest => if c = ch then some rest else none

/-- The digits of a year: four, or with a sign from four on. -/
def yearDigits (expanded neg : Bool) (s : List Char) : Option (Int × List Char) :=
  match someDigits s (if expanded then 9 else 4) with
  | none => none
  | some (v, taken, s) =>
    if expanded = false ∧ taken ≠ 4 then none
    else if expanded = true ∧ taken < 4 then none
    else if v > 2000000000 then none
    else some (if neg then -(v : Int) else v, s)

def year (s : List Char) : Option (Int × List Char) :=
  match s with
  | c :: rest =>
    if c = '+' ∨ c = '-' then yearDigits true (c = '-') rest else yearDigits false false s
  | [] => yearDigits false false []

/-- The minutes of an offset, with a colon or without, or left out. -/
def offsetMinutes (s : List Char) : Option (Nat × List Char) :=
  match s with
  | c :: rest =>
    if c = ':' then fixedDigits rest 2
    else if isDigit c then fixedDigits s 2
    else some (0, s)
  | [] => some (0, [])

def offset (s : List Char) : Option (Int × List Char) :=
  match s with
  | [] => none
  | c :: rest =>
    if c = 'Z' ∨ c = 'z' then some (0, rest)
    else if c ≠ '+' ∧ c ≠ '-' then none
    else
      match fixedDigits rest 2 with
      | none => none
      | some (hh, s) =>
        match offsetMinutes s with
        | none => none
        | some (mm, s) =>
          if hh > 23 ∨ mm > 59 then none
          else
            let mag : Int := hh * 3600 + mm * 60
            some (if c = '-' then -mag else mag, s)

/-- The end of `parse_iso8601`: an offset and nothing behind it. -/
def isoOffset (r : CivilResult) (s : List Char) : CivilResult :=
  match s with
  | [] => r
  | _ :: _ =>
    match offset s with
    | none => r.fail .badOffset
    | some (off, s) =>
      let r := { r with c := { r.c with off := off }, hasOffset := true }
      match s with
      | [] => r
      | _ :: _ => r.fail .trailing

def isoFraction (r : CivilResult) (s : List Char) : CivilResult :=
  match s with
  | c :: rest =>
    if c = '.' ∨ c = ',' then
      match someDigits rest 9 with
      | none => r.fail .malformed
      | some (frac, taken, s) =>
        let frac := frac * 10 ^ (9 - taken)
        isoOffset { r with c := { r.c with ns := frac } } (s.dropWhile isDigit)
    else isoOffset r s
  | [] => isoOffset r s

def seconds (s : List Char) : Option (Nat × List Char) :=
  match s with
  | c :: rest => if c = ':' then fixedDigits rest 2 else some (0, s)
  | [] => some (0, [])

def isoTime (r : CivilResult) (s : List Char) : CivilResult :=
  match fixedDigits s 2 with
  | none => r.fail .badHour
  | some (h, s) =>
  match expect ':' s with
  | none => r.fail .malformed
  | some s =>
  match fixedDigits s 2 with
  | none => r.fail .badMinute
  | some (mi, s) =>
  match seconds s with
  | none => r.fail .badSecond
  | some (sec, s) =>
    if h > 23 then r.fail .badHour
    else if mi > 59 then r.fail .badMinute
    else if sec > 60 then r.fail .badSecond
    else isoFraction { r with c := { r.c with h := h, mi := mi, s := sec } } s

def parseIso8601 (s : List Char) : CivilResult :=
  let r : CivilResult := {}
  if s = [] then r.fail .empty else
  match year s with
  | none => r.fail .badYear
  | some (y, s) =>
  match expect '-' s with
  | none => r.fail .malformed
  | some s =>
  match fixedDigits s 2 with
  | none => r.fail .badMonth
  | some (mo, s) =>
  match expect '-' s with
  | none => r.fail .malformed
  | some s =>
  match fixedDigits s 2 with
  | none => r.fail .badDay
  | some (d, s) =>
    if mo < 1 ∨ mo > 12 then r.fail .badMonth
    else if d < 1 ∨ d > daysInMonth y mo then r.fail .badDay
    else
      let r := { r with c := { r.c with y := y, mo := mo, d := d } }
      match s with
      | [] => r
      | c :: rest =>
        if c ≠ 'T' ∧ c ≠ 't' ∧ c ≠ ' ' then r.fail .malformed else isoTime r rest

def parseRfc3339 (s : List Char) : CivilResult :=
  let r := parseIso8601 s
  if r.err.isSome then r
  else if r.hasOffset = false then r.fail .noOffset
  else r

def skipSpaces (s : List Char) : List Char := s.dropWhile (· = ' ')

/-- The name of the day with its comma, which may be left out. -/
def rfcWeekday (s : List Char) : Option (List Char) :=
  match s with
  | c :: _ =>
    if 4 ≤ s.length ∧ isDigit c = false then
      if weekdayAbbr.any (ieq s) then
        match s.drop 3 with
        | ',' :: rest => some (skipSpaces rest)
        | rest => some (skipSpaces rest)
      else none
    else some s
  | [] => some s

def rfcMonth (s : List Char) : Nat :=
  match (List.range' 1 12).find? (fun k => ieq s (monthAbbr.getD k "")) with
  | some k => k
  | none => 0

/-- The zone, as a name or as an offset, and whether there was one. -/
def rfcZone (s : List Char) : Option (Int × Bool × List Char) :=
  match s with
  | [] => some (0, false, [])
  | _ :: _ =>
    if ieq s "GMT" || ieq s "UTC" then some (0, true, s.drop 3)
    else if ieq s "UT" then some (0, true, s.drop 2)
    else
      match offset s with
      | none => none
      | some (off, s) => some (off, true, s)

def rfcTime (r : CivilResult) (y : Int) (mo d : Nat) (s : List Char) : CivilResult :=
  match fixedDigits s 2 with
  | none => r.fail .badHour
  | some (h, s) =>
  match expect ':' s with
  | none => r.fail .malformed
  | some s =>
  match fixedDigits s 2 with
  | none => r.fail .badMinute
  | some (mi, s) =>
  match seconds s with
  | none => r.fail .badSecond
  | some (sec, s) =>
  match rfcZone (skipSpaces s) with
  | none => r.fail .badOffset
  | some (off, hasOffset, s) =>
    let r := { r with hasOffset := hasOffset }
    if s.dropWhile (fun c => c = ' ' ∨ c = '\r' ∨ c = '\n') ≠ [] then r.fail .trailing
    else if d < 1 ∨ d > daysInMonth y mo then r.fail .badDay
    else if h > 23 then r.fail .badHour
    else if mi > 59 then r.fail .badMinute
    else if sec > 60 then r.fail .badSecond
    else { r with c := { r.c with y := y, mo := mo, d := d, h := h, mi := mi, s := sec, off := off } }

def parseRfc2822 (s : List Char) : CivilResult :=
  let r : CivilResult := {}
  if s = [] then r.fail .empty else
  match rfcWeekday s with
  | none => r.fail .badWeekday
  | some s =>
  match someDigits s 2 with
  | none => r.fail .badDay
  | some (dv, _, s) =>
    let s := skipSpaces s
    let mo := rfcMonth s
    if mo = 0 then r.fail .badMonth
    else
      match someDigits (skipSpaces (s.drop 3)) 4 with
      | none => r.fail .badYear
      | some (yv, taken, s) =>
        let yv := if taken = 2 then yv + (if yv < 50 then 2000 else 1900) else yv
        rfcTime r yv mo dv (skipSpaces s)

/-!
## What the writers write and the digit parsers read

Each writer puts one text into its buffer, character by character.  A number in such a
text is a row of digits, which the parsers read back to the number.
-/

open Micron.Lib

def digitChar (d : Nat) : Char := Char.ofNat (48 + d)

def figures (v : Nat) : List Nat := if v = 0 then [0] else numeral 10 v

def numberText (v width : Nat) : List Char :=
  List.replicate (width - (figures v).length) '0' ++ (figures v).map digitChar

theorem foldl_put (w : Wbuf) (text : List Char) :
    text.foldl Wbuf.put w = ⟨w.p ++ text.take (w.cap - w.n), w.cap, w.n + text.length⟩ := by
  induction text generalizing w with
  | nil => simp
  | cons c rest ih =>
    rw [foldl_cons, ih]
    by_cases room : w.n < w.cap
    · obtain ⟨k, left⟩ : ∃ k, w.cap - w.n = k + 1 := ⟨w.cap - w.n - 1, by omega⟩
      have next : w.cap - (w.n + 1) = k := by omega
      simp [Wbuf.put, room, left, next, add_assoc, add_comm 1]
    · have none : w.cap - w.n = 0 := by omega
      have next : w.cap - (w.n + 1) = 0 := by omega
      simp [Wbuf.put, room, none, next, add_assoc, add_comm 1]

theorem digitLoop_eq (v : Nat) (tmp : List Char) :
    Wbuf.digitLoop v tmp = tmp ++ ((figures v).map digitChar).reverse := by
  induction v using Nat.strongRecOn generalizing tmp with
  | _ v ih =>
    rw [Wbuf.digitLoop]
    split
    · rename_i single
      have own : figures v = [v % 10] := by
        unfold figures
        split
        · rename_i zero
          rw [zero]
        · rw [numeral_of_pos (by decide) (by omega), single]
          rfl
      rw [own]
      rfl
    · rename_i more
      have own : figures v = figures (v / 10) ++ [v % 10] := by
        unfold figures
        rw [if_neg more, if_neg (by omega), numeral_of_pos (by decide) (by omega)]
      rw [ih (v / 10) (by omega), own]
      simp [digitChar]

theorem putU_eq (w : Wbuf) (v width : Nat) :
    w.putU v width '0' = (numberText v width).foldl Wbuf.put w := by
  unfold Wbuf.putU numberText
  rw [digitLoop_eq]
  simp [foldl_append]

theorem numberText_of_lt {v width : Nat} (positive : 0 < width) (small : v < 10 ^ width) :
    numberText v width = (row 10 width v).map digitChar := by
  unfold numberText figures
  rw [row_eq (by decide) small]
  split
  · rename_i zero
    obtain ⟨k, rfl⟩ : ∃ k, width = k + 1 := ⟨width - 1, by omega⟩
    rw [zero, numeral_zero]
    simp [replicate_succ', digitChar]
  · simp [digitChar]

theorem numberText_of_le {v width : Nat} (large : 10 ^ width ≤ v) :
    numberText v width = (numeral 10 v).map digitChar := by
  have positive : 0 < v := lt_of_lt_of_le (Nat.pos_of_ne_zero (by simp)) large
  have long : width < (numeral 10 v).length := by
    rw [numeral, length_reverse]
    exact (Nat.lt_digits_length_iff (by decide) v).mpr large
  unfold numberText figures
  rw [if_neg (by omega), Nat.sub_eq_zero_of_le (by omega)]
  rfl

theorem digit_facts : ∀ d < 10, isDigit (digitChar d) = true ∧ digitValue (digitChar d) = d ∧
    digitChar d ≠ '+' ∧ digitChar d ≠ '-' ∧ digitChar d ≠ ' ' ∧ digitChar d ≠ ':' := by
  decide +kernel

theorem fixedLoop_append {ds : List Nat} (all : ∀ d ∈ ds, d < 10) (out : Nat) (rest : List Char) :
    fixedLoop ds.length out (ds.map digitChar ++ rest) =
      some (ds.foldl (fun acc d => acc * 10 + d) out, rest) := by
  induction ds generalizing out with
  | nil => rfl
  | cons d ds ih =>
    obtain ⟨isOne, value, _⟩ := digit_facts d (all d mem_cons_self)
    have tail := ih (fun e inside => all e (mem_cons_of_mem d inside)) (out * 10 + d)
    simp only [length_cons, map_cons, cons_append, fixedLoop, isOne, if_true, value,
      foldl_cons]
    exact tail

theorem fixedDigits_number {v width : Nat} (positive : 0 < width) (small : v < 10 ^ width)
    (rest : List Char) : fixedDigits (numberText v width ++ rest) width = some (v, rest) := by
  have read := fixedLoop_append (row_lt (by decide) width v) 0 rest
  rw [length_row] at read
  rw [numberText_of_lt positive small, fixedDigits, if_neg (by simp), read]
  have value : horner 10 (row 10 width v) = v := by rw [horner_row, Nat.mod_eq_of_lt small]
  rw [show (row 10 width v).foldl (fun acc d => acc * 10 + d) 0 = v from value]

theorem someLoop_append {ds : List Nat} (all : ∀ d ∈ ds, d < 10) (max out taken : Nat)
    (room : taken + ds.length ≤ max) (rest : List Char) :
    someLoop max out taken (ds.map digitChar ++ rest) =
      someLoop max (ds.foldl (fun acc d => acc * 10 + d) out) (taken + ds.length) rest := by
  induction ds generalizing out taken with
  | nil => rfl
  | cons d ds ih =>
    obtain ⟨isOne, value, _⟩ := digit_facts d (all d mem_cons_self)
    rw [length_cons] at room
    have tail := ih (fun e inside => all e (mem_cons_of_mem d inside)) (out * 10 + d) (taken + 1)
      (by omega)
    simp only [map_cons, cons_append, someLoop, isOne, and_true, value]
    rw [if_pos (by omega), tail, foldl_cons, length_cons]
    congr 1
    omega

def Stops (max taken : Nat) : List Char → Prop
  | [] => True
  | c :: _ => isDigit c = false ∨ max ≤ taken

theorem someLoop_stops {max out taken : Nat} {rest : List Char} (stops : Stops max taken rest) :
    someLoop max out taken rest = (out, taken, rest) := by
  cases rest with
  | nil => rfl
  | cons c rest =>
    rw [someLoop, if_neg]
    intro more
    rcases stops with other | full
    · rw [other] at more
      exact nomatch more.2
    · omega

/-- Digits are read back as the number they stand for. -/
theorem someDigits_append {ds : List Nat} (all : ∀ d ∈ ds, d < 10) {max : Nat} (some_ : ds ≠ [])
    (room : ds.length ≤ max) {rest : List Char} (stops : Stops max ds.length rest) :
    someDigits (ds.map digitChar ++ rest) max = some (horner 10 ds, ds.length, rest) := by
  have read : someLoop max 0 0 (ds.map digitChar ++ rest) = (horner 10 ds, ds.length, rest) := by
    rw [someLoop_append all max 0 0 (by omega), zero_add, someLoop_stops stops]
    rfl
  have length : ds.length ≠ 0 := by simpa using some_
  simp only [someDigits, read, length, if_false]

theorem someDigits_number {v width max : Nat} (positive : 0 < width) (small : v < 10 ^ width)
    (room : width ≤ max) {rest : List Char} (stops : Stops max width rest) :
    someDigits (numberText v width ++ rest) max = some (v, width, rest) := by
  have read : someDigits ((row 10 width v).map digitChar ++ rest) max =
      some (horner 10 (row 10 width v), (row 10 width v).length, rest) :=
    someDigits_append (row_lt (by decide) width v)
      (ne_nil_of_length_pos (by simpa using positive)) (by simpa using room)
      (by simpa using stops)
  rw [numberText_of_lt positive small, read, horner_row, Nat.mod_eq_of_lt small, length_row]

end Micron.Chrono
