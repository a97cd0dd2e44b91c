import Mathlib.Data.List.Find
import Micron.Chrono.Model

/-!
# Reading back what was written

A timestamp is a year, fields of fixed width and an offset.  The parser reads at most
nine digits of a year with a sign, so that a year of ten digits is written and not read.
-/

set_option autoImplicit false

namespace Micron.Chrono

open Micron.Lib List Nat

def yearText (y : Int) : List Char :=
  if 0 ≤ y ∧ y ≤ 9999 then numberText y.toNat 4
  else (if y < 0 then '-' else '+') :: numberText (if y < 0 then -y else y).toNat 4

def magnitude (off : Int) : Nat := (if off < 0 then -off else off).toNat

def signText (off : Int) : Char := if off < 0 then '-' else '+'

def offsetText (off : Int) (colon : List Char) : List Char :=
  signText off :: (numberText (magnitude off / 3600) 2 ++
    (colon ++ numberText (magnitude off % 3600 / 60) 2))

/-- The offset of a style; the two that the timestamps use. -/
def styleText (off : Int) : OffsetStyle → List Char
  | .none => []
  | .zOrColon => if off = 0 then ['Z'] else offsetText off [':']
  | .colon => offsetText off [':']
  | .compact => offsetText off []
  | .zOrCompact => if off = 0 then ['Z'] else offsetText off []

def isoText (c : Civil) (sep : DateSep) (os : OffsetStyle) : List Char :=
  yearText c.y ++ ('-' :: (numberText c.mo 2 ++ ('-' :: (numberText c.d 2 ++
    ((if sep = .space then ' ' else 'T') :: (numberText c.h 2 ++ (':' :: (numberText c.mi 2 ++
      (':' :: (numberText c.s 2 ++ ('.' :: (numberText c.ns 9 ++ styleText c.off os))))))))))))

theorem putYear_eq (w : Wbuf) (y : Int) : putYear w y = (yearText y).foldl Wbuf.put w := by
  unfold putYear yearText
  split
  · exact putU_eq w _ 4
  · rw [putU_eq]
    rfl

theorem putOffset_eq (w : Wbuf) (off : Int) (os : OffsetStyle) :
    putOffset w off os = (styleText off os).foldl Wbuf.put w := by
  cases os with
  | none => rfl
  | zOrColon =>
    by_cases zero : off = 0
    · simp [putOffset, styleText, zero]
    · simp [putOffset, styleText, zero, offsetText, putU_eq, foldl_append, signText, magnitude]
  | colon => simp [putOffset, styleText, offsetText, putU_eq, foldl_append, signText, magnitude]
  | compact => simp [putOffset, styleText, offsetText, putU_eq, foldl_append, signText, magnitude]
  | zOrCompact =>
    by_cases zero : off = 0
    · simp [putOffset, styleText, zero]
    · simp [putOffset, styleText, zero, offsetText, putU_eq, foldl_append, signText, magnitude]

theorem iso8601_eq (cap : Nat) (c : Civil) (sep : DateSep) (os : OffsetStyle) :
    iso8601 cap c 9 sep os = (isoText c sep os).foldl Wbuf.put (Wbuf.new cap) := by
  simp [iso8601, isoText, putYear_eq, putOffset_eq, putSubsec, putU_eq, foldl_append]

theorem written_eq {w : Wbuf} {cap : Nat} {text : List Char}
    (wrote : w = text.foldl Wbuf.put (Wbuf.new cap)) (fits : text.length ≤ cap) :
    w.written = text := by
  rw [wrote, foldl_put]
  simp [Wbuf.written, Wbuf.new, fits, take_take]

theorem size_eq {w : Wbuf} {text : List Char} (wrote : w = text.foldl Wbuf.put (Wbuf.new 0)) :
    w.n = text.length := by
  rw [wrote, foldl_put]
  simp [Wbuf.new]

theorem numberText_head (v : Nat) {width : Nat} (positive : 0 < width) :
    ∃ d rest, d < 10 ∧ numberText v width = digitChar d :: rest := by
  by_cases small : v < 10 ^ width
  · rw [numberText_of_lt positive small]
    cases digits : row 10 width v with
    | nil =>
      have := length_row 10 width v
      rw [digits] at this
      exact absurd this.symm (ne_of_gt positive)
    | cons d rest => exact ⟨d, rest.map digitChar, row_lt (by decide) width v d (by simp [digits]), rfl⟩
  · have large : 10 ^ width ≤ v := by omega
    rw [numberText_of_le large]
    cases digits : numeral 10 v with
    | nil =>
      have value := horner_numeral (b := 10) (by decide) v
      rw [digits] at value
      have : 0 < 10 ^ width := pos_of_ne_zero (by simp)
      change 0 = v at value
      omega
    | cons d rest => exact ⟨d, rest.map digitChar, numeral_lt (by decide) v d (by simp [digits]), rfl⟩

theorem year_plain {y : Int} (low : 0 ≤ y) (high : y ≤ 9999) (rest : List Char) :
    year (yearText y ++ rest) = some (y, rest) := by
  have read : someDigits (numberText y.toNat 4 ++ rest) 4 = some (y.toNat, 4, rest) := by
    refine someDigits_number (by decide) (by omega) (le_refl _) ?_
    cases rest with
    | nil => trivial
    | cons c rest => exact .inr (le_refl _)
  have digits : yearDigits false false (numberText y.toNat 4 ++ rest) = some (y, rest) := by
    have small : ¬ y.toNat > 2000000000 := by omega
    simp [yearDigits, read, small, Int.toNat_of_nonneg low]
  obtain ⟨d, more, isSmall, head⟩ := numberText_head y.toNat (by decide : 0 < 4)
  obtain ⟨_, _, noPlus, noMinus, _⟩ := digit_facts d isSmall
  rw [yearText, if_pos ⟨low, high⟩]
  rw [head] at digits ⊢
  simp only [year, cons_append, noPlus, noMinus, or_self, if_false]
  exact digits

theorem numberText_long {v : Nat} (small : v < 10 ^ 9) :
    ∃ ds : List Nat, (∀ d ∈ ds, d < 10) ∧ 4 ≤ ds.length ∧ ds.length ≤ 9 ∧ horner 10 ds = v ∧
      numberText v 4 = ds.map digitChar := by
  by_cases few : v < 10 ^ 4
  · refine ⟨row 10 4 v, row_lt (by decide) 4 v, ?_, ?_, ?_, numberText_of_lt (by decide) few⟩
    · rw [length_row]
    · rw [length_row]
      decide
    · rw [horner_row, mod_eq_of_lt few]
  · have many : 10 ^ 4 ≤ v := by omega
    refine ⟨numeral 10 v, numeral_lt (by decide) v, ?_, length_numeral_le (by decide) small,
      horner_numeral (by decide) v, numberText_of_le many⟩
    rw [numeral, length_reverse]
    exact le_of_lt ((lt_digits_length_iff (by decide) v).mpr many)

theorem year_signed {y : Int} (signed : ¬ (0 ≤ y ∧ y ≤ 9999)) (low : -10 ^ 9 < y) (high : y < 10 ^ 9)
    (rest : List Char) : year (yearText y ++ '-' :: rest) = some (y, '-' :: rest) := by
  obtain ⟨ds, all, many, few, value, text⟩ :=
    numberText_long (v := (if y < 0 then -y else y).toNat) (by omega)
  have read : someDigits (ds.map digitChar ++ '-' :: rest) 9 =
      some (horner 10 ds, ds.length, '-' :: rest) :=
    someDigits_append all (by rintro rfl; exact absurd many (by decide)) few (.inl (by decide))
  have small : ¬ horner 10 ds > 2000000000 := by omega
  have digits : ∀ neg : Bool, yearDigits true neg (ds.map digitChar ++ '-' :: rest) =
      some (if neg then -(horner 10 ds : Int) else horner 10 ds, '-' :: rest) := by
    intro neg
    simp [yearDigits, read, small, not_lt.mpr many]
  rw [yearText, if_neg signed, text]
  by_cases negative : y < 0
  · rw [if_pos negative] at value ⊢
    simp only [year, cons_append, or_true, if_true, decide_true, digits]
    congr
    omega
  · rw [if_neg negative] at value ⊢
    simp only [year, cons_append, true_or, if_true, digits]
    rw [value, if_neg (by decide)]
    congr
    omega

theorem year_text {y : Int} (low : -10 ^ 9 < y) (high : y < 10 ^ 9) (rest : List Char) :
    year (yearText y ++ '-' :: rest) = some (y, '-' :: rest) := by
  by_cases plain : 0 ≤ y ∧ y ≤ 9999
  · exact year_plain plain.1 plain.2 ('-' :: rest)
  · exact year_signed plain low high rest

/-- Of a year of ten digits the last is left, where a dash has to be. -/
theorem year_long {y : Int} (far : ¬ (-10 ^ 9 < y ∧ y < 10 ^ 9)) (low : -2 ^ 31 ≤ y) (high : y < 2 ^ 31)
    (rest : List Char) :
    ∃ z d more, d < 10 ∧ year (yearText y ++ rest) = some (z, digitChar d :: more) := by
  have signed : ¬ (0 ≤ y ∧ y ≤ 9999) := by omega
  generalize value : (if y < 0 then -y else y).toNat = v
  have text : numberText v 4 = (numeral 10 (v / 10)).map digitChar ++ [digitChar (v % 10)] := by
    rw [numberText_of_le (by omega), numeral_of_pos (by decide) (by omega), map_append]
    rfl
  have length : (numeral 10 (v / 10)).length = 9 := by
    refine le_antisymm (length_numeral_le (by decide) (by omega)) ?_
    rw [numeral, length_reverse]
    exact (lt_digits_length_iff (k := 8) (by decide) (v / 10)).mpr (by omega)
  have read : someDigits ((numeral 10 (v / 10)).map digitChar ++ digitChar (v % 10) :: rest) 9 =
      some (v / 10, 9, digitChar (v % 10) :: rest) := by
    have stops : Stops 9 (numeral 10 (v / 10)).length (digitChar (v % 10) :: rest) :=
      .inr (le_of_eq length.symm)
    rw [someDigits_append (numeral_lt (by decide) _) (ne_nil_of_length_pos (by omega))
      (le_of_eq length) stops, horner_numeral (by decide), length]
  have small : ¬ v / 10 > 2000000000 := by omega
  have digits : ∀ neg : Bool,
      yearDigits true neg ((numeral 10 (v / 10)).map digitChar ++ digitChar (v % 10) :: rest) =
        some (if neg then -((v / 10 : Nat) : Int) else (v / 10 : Nat), digitChar (v % 10) :: rest) := by
    intro neg
    simp [yearDigits, read, small]
  rw [yearText, if_neg signed, value, text]
  by_cases negative : y < 0
  · refine ⟨-((v / 10 : Nat) : Int), v % 10, rest, mod_lt _ (by decide), ?_⟩
    rw [if_pos negative]
    simp only [year, cons_append, append_assoc, nil_append, or_true, if_true, digits,
      decide_true]
  · refine ⟨(v / 10 : Nat), v % 10, rest, mod_lt _ (by decide), ?_⟩
    rw [if_neg negative]
    simp only [year, cons_append, append_assoc, nil_append, true_or, if_true, digits]
    rfl

theorem offset_text {off : Int} (minutes : 60 ∣ off) (low : -86400 < off) (high : off < 86400)
    {colon : List Char} (style : colon = [] ∨ colon = [':']) :
    offset (offsetText off colon) = some (off, []) := by
  have hours : magnitude off / 3600 < 10 ^ 2 := by
    unfold magnitude
    omega
  have mins : magnitude off % 3600 / 60 < 10 ^ 2 := by omega
  have readHours : ∀ rest, fixedDigits (numberText (magnitude off / 3600) 2 ++ rest) 2 =
      some (magnitude off / 3600, rest) := fixedDigits_number (by decide) hours
  have readMinutes : offsetMinutes (colon ++ numberText (magnitude off % 3600 / 60) 2) =
      some (magnitude off % 3600 / 60, []) := by
    have read := fixedDigits_number (by decide) mins []
    rw [append_nil] at read
    rcases style with rfl | rfl
    · obtain ⟨d, more, isSmall, head⟩ :=
        numberText_head (magnitude off % 3600 / 60) two_pos
      obtain ⟨isOne, _, _, _, _, noColon⟩ := digit_facts d isSmall
      rw [nil_append]
      rw [head] at read ⊢
      simp only [offsetMinutes, noColon, if_false, isOne, if_true]
      exact read
    · exact read
  have inRange : ¬ (magnitude off / 3600 > 23 ∨ magnitude off % 3600 / 60 > 59) := by
    unfold magnitude
    omega
  have total : magnitude off / 3600 * 3600 + magnitude off % 3600 / 60 * 60 = magnitude off := by
    have whole : 60 ∣ magnitude off := by
      unfold magnitude
      omega
    omega
  unfold offsetText signText
  by_cases negative : off < 0
  · rw [if_pos negative]
    simp [offset, readHours, readMinutes, inRange]
    unfold magnitude at total ⊢
    omega
  · rw [if_neg negative]
    simp [offset, readHours, readMinutes, inRange]
    unfold magnitude at total ⊢
    omega

theorem styleText_cases (off : Int) {os : OffsetStyle} (used : os = .zOrColon ∨ os = .compact) :
    off = 0 ∧ styleText off os = ['Z'] ∨
      ∃ colon, (colon = [] ∨ colon = [':']) ∧ styleText off os = offsetText off colon := by
  rcases used with rfl | rfl
  · by_cases zero : off = 0
    · exact .inl ⟨zero, if_pos zero⟩
    · exact .inr ⟨[':'], .inr rfl, if_neg zero⟩
  · exact .inr ⟨[], .inl rfl, rfl⟩

theorem offset_style {off : Int} (minutes : 60 ∣ off) (low : -86400 < off) (high : off < 86400)
    {os : OffsetStyle} (used : os = .zOrColon ∨ os = .compact) :
    offset (styleText off os) = some (off, []) ∧
      ∃ c rest, isDigit c = false ∧ styleText off os = c :: rest := by
  rcases styleText_cases off used with ⟨zero, text⟩ | ⟨colon, style, text⟩
  · rw [text, zero]
    exact ⟨rfl, 'Z', [], rfl, rfl⟩
  · rw [text]
    refine ⟨offset_text minutes low high style, signText off, _, ?_, rfl⟩
    unfold signText
    split
    · rfl
    · rfl

/-! ## Whole timestamps -/

/-- What is asked of a civil time: a 32-bit year, and an offset of whole minutes. -/
structure Writable (c : Civil) : Prop where
  valid : c.valid
  yearLow : -2 ^ 31 ≤ c.y
  yearHigh : c.y < 2 ^ 31
  minutes : 60 ∣ c.off
  offLow : -86400 < c.off
  offHigh : c.off < 86400

theorem daysInMonth_le (y : Int) (m : Nat) : daysInMonth y m ≤ 31 := by
  have table : ∀ k ≤ 12, monthDays.getD k 0 ≤ 31 := by decide
  unfold daysInMonth
  split
  · split <;> decide
  · split
    · rename_i inside
      exact table m inside.2
    · exact zero_le _

theorem isoOffset_text {c : Civil} (writable : Writable c) {os : OffsetStyle}
    (used : os = .zOrColon ∨ os = .compact) (r : CivilResult) :
    isoOffset r (styleText c.off os) = { r with c := { r.c with off := c.off }, hasOffset := true } := by
  obtain ⟨read, ch, rest, _, text⟩ :=
    offset_style writable.minutes writable.offLow writable.offHigh used
  rw [text] at read ⊢
  simp only [isoOffset, read]

theorem isoFraction_text {c : Civil} (writable : Writable c) {os : OffsetStyle}
    (used : os = .zOrColon ∨ os = .compact) (r : CivilResult) :
    isoFraction r ('.' :: (numberText c.ns 9 ++ styleText c.off os)) =
      { r with c := { r.c with ns := c.ns, off := c.off }, hasOffset := true } := by
  obtain ⟨_, ch, rest, noDigit, text⟩ :=
    offset_style writable.minutes writable.offLow writable.offHigh used
  have small : c.ns < 10 ^ 9 := writable.valid.2.2.2.2
  have stops : Stops 9 9 (styleText c.off os) := by
    rw [text]
    exact .inl noDigit
  have read := someDigits_number (by decide) small (Nat.le_refl 9) stops
  have nothing : (styleText c.off os).dropWhile isDigit = styleText c.off os := by
    rw [text, dropWhile_cons_of_neg (by rw [noDigit]; decide)]
  have rest := isoOffset_text writable used { r with c := { r.c with ns := c.ns } }
  simp only [isoFraction, true_or, if_true, read, nothing, Nat.sub_self, Nat.pow_zero, Nat.mul_one]
  exact rest

theorem isoTime_text {c : Civil} (writable : Writable c) {os : OffsetStyle}
    (used : os = .zOrColon ∨ os = .compact) (r : CivilResult) :
    isoTime r (numberText c.h 2 ++ (':' :: (numberText c.mi 2 ++ (':' :: (numberText c.s 2 ++
      ('.' :: (numberText c.ns 9 ++ styleText c.off os))))))) =
      { r with c := { r.c with h := c.h, mi := c.mi, s := c.s, ns := c.ns, off := c.off },
               hasOffset := true } := by
  obtain ⟨_, hour, minute, second, _⟩ := writable.valid
  have readField : ∀ v < 61, ∀ rest, fixedDigits (numberText v 2 ++ rest) 2 = some (v, rest) :=
    fun v small => fixedDigits_number (by decide) (by omega)
  have inHour : ¬ c.h > 23 := by omega
  have inMinute : ¬ c.mi > 59 := by omega
  have inSecond : ¬ c.s > 60 := by omega
  simp only [isoTime, readField c.h (by omega), readField c.mi (by omega), readField c.s (by omega),
    expect, seconds, if_true, inHour, inMinute, inSecond, if_false]
  exact isoFraction_text writable used _

theorem parseIso8601_text {c : Civil} (writable : Writable c) (low : -10 ^ 9 < c.y)
    (high : c.y < 10 ^ 9) (sep : DateSep) {os : OffsetStyle} (used : os = .zOrColon ∨ os = .compact) :
    parseIso8601 (isoText c sep os) = ⟨c, none, true⟩ := by
  obtain ⟨⟨monthLow, monthHigh, dayLow, dayHigh⟩, _⟩ := writable.valid
  have inDay : c.d < 10 ^ 2 := by
    have := daysInMonth_le c.y c.mo
    omega
  have readField : ∀ v < 10 ^ 2, ∀ rest, fixedDigits (numberText v 2 ++ rest) 2 = some (v, rest) :=
    fun v small => fixedDigits_number (by decide) small
  have filled : isoText c sep os ≠ [] := by simp [isoText]
  have okMonth : ¬ (c.mo < 1 ∨ c.mo > 12) := by omega
  have okDay : ¬ (c.d < 1 ∨ c.d > daysInMonth c.y c.mo) := by omega
  have okSep : ¬ ((if sep = .space then ' ' else 'T') ≠ 'T' ∧
      (if sep = .space then ' ' else 'T') ≠ 't' ∧ (if sep = .space then ' ' else 'T') ≠ ' ') := by
    split
    · decide
    · decide
  rw [parseIso8601, if_neg filled, isoText]
  simp only [year_text low high, expect, if_true, readField c.mo (by omega), readField c.d inDay,
    okMonth, okDay, okSep, if_false]
  exact isoTime_text writable used _

/-- The two writers of full timestamps are read back. -/
theorem parseRfc3339_written {c : Civil} (writable : Writable c) (low : -10 ^ 9 < c.y)
    (high : c.y < 10 ^ 9) {cap : Nat} {sep : DateSep} {os : OffsetStyle}
    (used : os = .zOrColon ∨ os = .compact) (fits : (iso8601 0 c 9 sep os).n ≤ cap) :
    parseRfc3339 (writeIso8601 cap c 9 sep os) = ⟨c, none, true⟩ := by
  rw [size_eq (iso8601_eq 0 c sep os)] at fits
  rw [writeIso8601, written_eq (iso8601_eq cap c sep os) fits, parseRfc3339,
    parseIso8601_text writable low high sep used]
  rfl

theorem parseIso8601_long {c : Civil} (writable : Writable c) (far : ¬ (-10 ^ 9 < c.y ∧ c.y < 10 ^ 9))
    (sep : DateSep) (os : OffsetStyle) :
    parseIso8601 (isoText c sep os) = { err := some .malformed } := by
  have filled : isoText c sep os ≠ [] := by simp [isoText]
  obtain ⟨tail, text⟩ : ∃ tail, isoText c sep os = yearText c.y ++ tail := ⟨_, rfl⟩
  obtain ⟨z, d, more, small, read⟩ := year_long far writable.yearLow writable.yearHigh tail
  obtain ⟨_, _, _, noDash, _⟩ := digit_facts d small
  rw [parseIso8601, if_neg filled, text]
  simp only [read, expect, noDash, if_false]
  rfl

def rfcText (c : Civil) (day month : String) : List Char :=
  day.toList ++ (',' :: ' ' :: (numberText c.d 2 ++ (' ' :: (month.toList ++ (' ' ::
    (numberText c.y.toNat 4 ++ (' ' :: (numberText c.h 2 ++ (':' :: (numberText c.mi 2 ++
      (':' :: (numberText c.s 2 ++ (' ' :: offsetText c.off [])))))))))))))

theorem rfc2822_eq (cap : Nat) (c : Civil) (low : 0 ≤ c.y) :
    rfc2822 cap c false =
      (rfcText c (weekdayAbbr.getD (if weekdayOf c.y c.mo c.d < 7 then weekdayOf c.y c.mo c.d else 0) "")
        (monthAbbr.getD (if c.mo ≤ 12 then c.mo else 0) "")).foldl Wbuf.put (Wbuf.new cap) := by
  simp [rfc2822, rfcText, putU_eq, putOffset_eq, styleText, Wbuf.putI, Int.not_lt.mpr low,
    Wbuf.putCstr, foldl_append]

theorem ieq_append {lit : String} {word : List Char} (short : lit.length ≤ word.length)
    (rest : List Char) : ieq (word ++ rest) lit = ieq word lit := by
  have longer : lit.length ≤ (word ++ rest).length := by
    rw [length_append]
    omega
  unfold ieq
  rw [take_append_of_le_length short, decide_eq_true short, decide_eq_true longer]

theorem abbr_facts : (∀ k ≤ 12, (monthAbbr.getD k "").length = 3 ∧
      ((monthAbbr.getD k "").toList.all fun c => c ≠ ' ') = true) ∧
    (∀ k < 7, (weekdayAbbr.getD k "").length = 3 ∧
      weekdayAbbr.any (ieq (weekdayAbbr.getD k "").toList) = true ∧
      ((weekdayAbbr.getD k "").toList.all fun c => !isDigit c) = true) ∧
    (∀ lit ∈ weekdayAbbr, lit.length = 3) ∧
    ∀ k ≤ 12, 1 ≤ k → rfcMonth (monthAbbr.getD k "").toList = k := by
  decide +kernel

theorem rfcWeekday_text {k : Nat} (small : k < 7) (rest : List Char) :
    rfcWeekday ((weekdayAbbr.getD k "").toList ++ (',' :: ' ' :: rest)) = some (skipSpaces rest) := by
  obtain ⟨length, found, noDigit⟩ := abbr_facts.2.1 k small
  generalize (weekdayAbbr.getD k "") = day at length found noDigit ⊢
  have any : weekdayAbbr.any (ieq (day.toList ++ (',' :: ' ' :: rest))) = true := by
    obtain ⟨lit, inside, same⟩ := any_eq_true.mp found
    refine any_eq_true.mpr ⟨lit, inside, ?_⟩
    rw [ieq_append, same]
    rw [abbr_facts.2.2.1 lit inside, String.length_toList, length]
  have after : (day.toList ++ (',' :: ' ' :: rest)).drop 3 = ',' :: ' ' :: rest :=
    drop_left' (by rw [String.length_toList, length])
  have long : 4 ≤ (day.toList ++ (',' :: ' ' :: rest)).length := by
    rw [length_append, String.length_toList, length, length_cons]
    omega
  cases letters : day.toList with
  | nil =>
    rw [← String.length_toList, letters] at length
    exact nomatch length
  | cons a more =>
    have notDigit : isDigit a = false := by
      rw [letters, all_cons] at noDigit
      simpa using (Bool.and_eq_true_iff.mp noDigit).1
    rw [letters] at any after long
    rw [cons_append] at any after long ⊢
    simp only [rfcWeekday, long, notDigit, and_self, if_true, any, after]
    rfl

theorem rfcMonth_text {k : Nat} (low : 1 ≤ k) (high : k ≤ 12) (rest : List Char) :
    rfcMonth ((monthAbbr.getD k "").toList ++ rest) = k ∧
      ((monthAbbr.getD k "").toList ++ rest).drop 3 = rest := by
  have length := (abbr_facts.1 k high).1
  have named := abbr_facts.2.2.2 k high low
  refine ⟨?_, drop_left' (by rw [String.length_toList, length])⟩
  refine Eq.trans ?_ named
  have same : ∀ j ∈ List.range' 1 12, ieq ((monthAbbr.getD k "").toList ++ rest) (monthAbbr.getD j "") =
      ieq (monthAbbr.getD k "").toList (monthAbbr.getD j "") := by
    intro j inside
    refine ieq_append ?_ rest
    have bound := mem_range'_1.mp inside
    rw [(abbr_facts.1 j (by omega)).1, String.length_toList, length]
  unfold rfcMonth
  rw [find?_congr same]

theorem skipSpaces_month {k : Nat} (high : k ≤ 12) (rest : List Char) :
    skipSpaces (' ' :: ((monthAbbr.getD k "").toList ++ rest)) = (monthAbbr.getD k "").toList ++ rest := by
  obtain ⟨length, noSpace⟩ := abbr_facts.1 k high
  generalize (monthAbbr.getD k "") = month at length noSpace ⊢
  cases letters : month.toList with
  | nil =>
    rw [← String.length_toList, letters] at length
    exact nomatch length
  | cons a more =>
    have notSpace : a ≠ ' ' := by
      rw [letters, all_cons] at noSpace
      simpa using (Bool.and_eq_true_iff.mp noSpace).1
    simp [skipSpaces, notSpace]

theorem rfcZone_text {c : Civil} (writable : Writable c) :
    rfcZone (skipSpaces (' ' :: offsetText c.off [])) = some (c.off, true, []) := by
  have read := offset_text writable.minutes writable.offLow writable.offHigh (.inl rfl)
  have sign : signText c.off = '-' ∨ signText c.off = '+' := by
    unfold signText
    split
    · exact .inl rfl
    · exact .inr rfl
  obtain ⟨rest, text⟩ : ∃ rest, offsetText c.off [] = signText c.off :: rest := ⟨_, rfl⟩
  have skipped : skipSpaces (' ' :: offsetText c.off []) = offsetText c.off [] := by
    rw [text]
    rcases sign with sign | sign <;> rw [sign] <;> rfl
  have noName : ∀ lit ∈ ["GMT", "UTC", "UT"], ieq (offsetText c.off []) lit = false := by
    intro lit inside
    have letters : ieq (signText c.off :: rest) lit = false := by
      unfold ieq
      rw [Bool.and_eq_false_iff]
      right
      simp only [mem_cons, not_mem_nil, or_false] at inside
      rcases sign with sign | sign <;> rw [sign] <;> rcases inside with rfl | rfl | rfl <;> rfl
    rw [text, letters]
  rw [skipped]
  rw [text] at read noName ⊢
  simp only [rfcZone, noName "GMT" (by simp), noName "UTC" (by simp), noName "UT" (by simp),
    Bool.or_self, Bool.false_eq_true, if_false, read]

theorem rfcTime_text {c : Civil} (writable : Writable c) (r : CivilResult) :
    rfcTime r c.y c.mo c.d (numberText c.h 2 ++ (':' :: (numberText c.mi 2 ++ (':' ::
      (numberText c.s 2 ++ (' ' :: offsetText c.off [])))))) =
      { r with c := { r.c with y := c.y, mo := c.mo, d := c.d, h := c.h, mi := c.mi, s := c.s,
                               off := c.off },
               hasOffset := true } := by
  obtain ⟨⟨_, _, dayLow, dayHigh⟩, hour, minute, second, _⟩ := writable.valid
  have readField : ∀ v < 61, ∀ rest, fixedDigits (numberText v 2 ++ rest) 2 = some (v, rest) :=
    fun v small => fixedDigits_number (by decide) (by omega)
  have okDay : ¬ (c.d < 1 ∨ c.d > daysInMonth c.y c.mo) := by omega
  have inHour : ¬ c.h > 23 := by omega
  have inMinute : ¬ c.mi > 59 := by omega
  have inSecond : ¬ c.s > 60 := by omega
  simp only [rfcTime, readField c.h (by omega), readField c.mi (by omega), readField c.s (by omega),
    expect, seconds, if_true, rfcZone_text writable, okDay, inHour, inMinute, inSecond, if_false,
    dropWhile_nil, ne_eq, not_true_eq_false]

theorem skipSpaces_number {v width : Nat} (positive : 0 < width) (rest : List Char) :
    skipSpaces (' ' :: (numberText v width ++ rest)) = numberText v width ++ rest ∧
      skipSpaces (numberText v width ++ rest) = numberText v width ++ rest := by
  obtain ⟨d, more, small, text⟩ := numberText_head v positive
  obtain ⟨_, _, _, _, noSpace, _⟩ := digit_facts d small
  rw [text]
  simp [skipSpaces, noSpace]

theorem parseRfc2822_text {c : Civil} (writable : Writable c) (low : 0 ≤ c.y) (high : c.y ≤ 9999)
    (whole : c.ns = 0) {k : Nat} (small : k < 7) :
    parseRfc2822 (rfcText c (weekdayAbbr.getD k "") (monthAbbr.getD c.mo "")) = ⟨c, none, true⟩ := by
  obtain ⟨⟨monthLow, monthHigh, dayLow, dayHigh⟩, _⟩ := writable.valid
  have inDay : c.d < 10 ^ 2 := by
    have := daysInMonth_le c.y c.mo
    omega
  have filled : rfcText c (weekdayAbbr.getD k "") (monthAbbr.getD c.mo "") ≠ [] := by
    simp [rfcText]
  have readDay : ∀ rest, someDigits (numberText c.d 2 ++ (' ' :: rest)) 2 =
      some (c.d, 2, ' ' :: rest) :=
    fun rest => someDigits_number (by decide) inDay (le_refl 2) (.inl rfl)
  have readYear : ∀ rest, someDigits (numberText c.y.toNat 4 ++ (' ' :: rest)) 4 =
      some (c.y.toNat, 4, ' ' :: rest) :=
    fun rest => someDigits_number (by decide) (by omega) (le_refl 4) (.inl rfl)
  have spaces : ∀ rest, skipSpaces (' ' :: ((monthAbbr.getD c.mo "").toList ++ rest)) =
      (monthAbbr.getD c.mo "").toList ++ rest := skipSpaces_month monthHigh
  have dayStart : ∀ rest, skipSpaces (numberText c.d 2 ++ rest) = numberText c.d 2 ++ rest :=
    fun rest => (skipSpaces_number (by decide) rest).2
  have yearStart : ∀ rest, skipSpaces (' ' :: (numberText c.y.toNat 4 ++ rest)) =
      numberText c.y.toNat 4 ++ rest := fun rest => (skipSpaces_number (by decide) rest).1
  have hourStart : ∀ rest, skipSpaces (' ' :: (numberText c.h 2 ++ rest)) = numberText c.h 2 ++ rest :=
    fun rest => (skipSpaces_number (by decide) rest).1
  have someMonth : ¬ c.mo = 0 := by omega
  have nonneg : ((c.y.toNat : Nat) : Int) = c.y := Int.toNat_of_nonneg low
  have fourDigits : ¬ 4 = 2 := by decide
  rw [parseRfc2822, if_neg filled, rfcText]
  simp only [rfcWeekday_text small, dayStart, readDay, spaces, (rfcMonth_text monthLow monthHigh _).1,
    someMonth, if_false, (rfcMonth_text monthLow monthHigh _).2, yearStart, readYear, fourDigits,
    hourStart, nonneg, rfcTime_text writable]
  rw [← whole]

theorem parseRfc2822_written {c : Civil} (writable : Writable c) (low : 0 ≤ c.y) (high : c.y ≤ 9999)
    (whole : c.ns = 0) {cap : Nat} (fits : rfc2822Size c ≤ cap) :
    parseRfc2822 (writeRfc2822 cap c) = ⟨c, none, true⟩ := by
  have inYear : c.mo ≤ 12 := writable.valid.1.2.1
  rw [rfc2822Size, size_eq (rfc2822_eq 0 c low)] at fits
  rw [writeRfc2822, written_eq (rfc2822_eq cap c low) fits, if_pos inYear]
  refine parseRfc2822_text writable low high whole ?_
  split
  · assumption
  · decide

/-- What is written in a buffer that is large enough is read back as it was. -/
structure Survives (c : Civil) : Prop where
  rfc3339 : ∀ cap, rfc3339Size c 9 ≤ cap → parseRfc3339 (writeRfc3339 cap c 9) = ⟨c, none, true⟩
  isoFull : ∀ cap, isoFullSize c 9 ≤ cap → parseRfc3339 (writeIsoFull cap c 9) = ⟨c, none, true⟩
  rfc2822 : 0 ≤ c.y → c.y ≤ 9999 → c.ns = 0 → ∀ cap, rfc2822Size c ≤ cap →
    parseRfc2822 (writeRfc2822 cap c) = ⟨c, none, true⟩

theorem not_survives {c : Civil} (writable : Writable c) (far : ¬ (-10 ^ 9 < c.y ∧ c.y < 10 ^ 9)) :
    ¬ Survives c := by
  intro survives
  have read := survives.rfc3339 _ (le_refl _)
  have fits : (isoText c .isoT .zOrColon).length ≤ rfc3339Size c 9 :=
    le_of_eq (size_eq (iso8601_eq 0 c .isoT .zOrColon)).symm
  rw [writeRfc3339, writeIso8601, written_eq (iso8601_eq _ c .isoT .zOrColon) fits, parseRfc3339,
    parseIso8601_long writable far] at read
  exact nomatch read

/-- Timestamps survive writing and reading just when the year has nine digits at most. -/
theorem timestamps_survive_iff (c : Civil) (writable : Writable c) :
    Survives c ↔ -10 ^ 9 < c.y ∧ c.y < 10 ^ 9 := by
  constructor
  · intro survives
    by_contra far
    exact not_survives writable far survives
  · intro near
    refine ⟨?_, ?_, ?_⟩
    · exact fun cap fits => parseRfc3339_written writable near.1 near.2 (.inl rfl) fits
    · exact fun cap fits => parseRfc3339_written writable near.1 near.2 (.inr rfl) fits
    · exact fun low high whole cap fits => parseRfc2822_written writable low high whole fits

/-- A leap second before our era, half an hour west. -/
def leapSecond : Civil :=
  { y := -44, mo := 2, d := 29, h := 23, mi := 59, s := 60, ns := 7, off := -1800 }

theorem leapSecond_writable : Writable leapSecond where
  valid := ⟨⟨by decide, by decide, by decide, by decide⟩, by decide, by decide, by decide, by decide⟩
  yearLow := by decide
  yearHigh := by decide
  minutes := by decide
  offLow := by decide
  offHigh := by decide

theorem timestamps_survive_iff_leapSecond :
    (leapSecond.off = -1800 ∧ leapSecond.s = 60) ∧ Survives leapSecond :=
  ⟨by decide, (timestamps_survive_iff leapSecond leapSecond_writable).mpr (by decide)⟩

def farYear : Civil := { y := 10 ^ 9 }

theorem timestamps_lost : ¬ ∀ c, Writable c → Survives c := by
  intro all
  have writable : Writable farYear := by
    refine ⟨⟨⟨?_, ?_, ?_, ?_⟩, ?_, ?_, ?_, ?_⟩, ?_, ?_, ?_, ?_, ?_⟩ <;> decide
  exact not_survives writable (by decide) (all farYear writable)

end Micron.Chrono
