import Micron.Chrono.Model

/-!
# The calendar

Days are counted in eras of 400 years that start in March.  Within an era each year, and
within a year each month, starts at a day that is a rounded multiple, and the conversions
invert these.
-/

set_option autoImplicit false

namespace Micron.Chrono

open Int

def toI32 (x : Int) : Int := (x + 2 ^ 31) % 2 ^ 32 - 2 ^ 31

structure CivilDate where
  y : Int
  m : Nat
  d : Nat
  deriving DecidableEq

def civilFromDays (z : Int) : CivilDate :=
  let z := z + 719468
  let era := floorDiv z 146097
  let doe := z - era * 146097
  let yoe := (doe - doe.tdiv 1460 + doe.tdiv 36524 - doe.tdiv 146096).tdiv 365
  let y := yoe + era * 400
  let doy := doe - (365 * yoe + yoe.tdiv 4 - yoe.tdiv 100)
  let mp := (5 * doy + 2).tdiv 153
  let d := (doy - (153 * mp + 2).tdiv 5 + 1).toNat
  let m := (if mp < 10 then mp + 3 else mp - 9).toNat
  ⟨toI32 (y + if m ≤ 2 then 1 else 0), m, d⟩

structure IsoWeek where
  year : Int
  week : Nat
  weekday : Nat
  deriving DecidableEq

def isoWeekDate (y : Int) (m d : Nat) : IsoWeek :=
  let z := daysFromCivil y m d
  let wd := (floorMod (z + 3) 7).toNat + 1
  let thursday := z + (4 - wd)
  let tc := civilFromDays thursday
  let jan1 := daysFromCivil tc.y 1 1
  ⟨tc.y, (((thursday - jan1).tdiv 7 + 1) % 2 ^ 32).toNat, wd⟩

def Is32 (y : Int) : Prop := -2 ^ 31 ≤ y ∧ y < 2 ^ 31

structure CivilDate.Valid (c : CivilDate) : Prop where
  year : Is32 c.y
  month : 1 ≤ c.m ∧ c.m ≤ 12
  day : 1 ≤ c.d ∧ c.d ≤ daysInMonth c.y c.m

def CivilDate.days (c : CivilDate) : Int := daysFromCivil c.y c.m c.d

def CivilDate.Before (c c' : CivilDate) : Prop :=
  c.y < c'.y ∨ c.y = c'.y ∧ (c.m < c'.m ∨ c.m = c'.m ∧ c.d < c'.d)

def CivilDate.next (c : CivilDate) : CivilDate :=
  if c.d < daysInMonth c.y c.m then { c with d := c.d + 1 }
  else if c.m < 12 then ⟨c.y, c.m + 1, 1⟩
  else ⟨c.y + 1, 1, 1⟩

def firstDay : Int := daysFromCivil (-2 ^ 31) 1 1

def lastDay : Int := daysFromCivil (2 ^ 31 - 1) 12 31

/-- The Monday of the week of a year that has the fourth of January. -/
def firstMonday (year : Int) : Int :=
  daysFromCivil year 1 4 - (daysFromCivil year 1 4 + 3) % 7

/-- The day `z` in weeks from Monday on, of the years of which week 1 has the fourth of
January. -/
def IsoWeek.Names (w : IsoWeek) (z : Int) : Prop :=
  1 ≤ w.weekday ∧ w.weekday ≤ 7 ∧ 1 ≤ w.week ∧
    z = firstMonday w.year + 7 * (w.week - 1) + (w.weekday - 1) ∧ z < firstMonday (w.year + 1)

def IsoWeek.Before (w w' : IsoWeek) : Prop :=
  w.year < w'.year ∨ w.year = w'.year ∧
    (w.week < w'.week ∨ w.week = w'.week ∧ w.weekday < w'.weekday)

theorem floorDiv_eq (a : Int) {b : Int} (positive : 0 < b) : floorDiv a b = a / b := by
  unfold floorDiv
  rw [tdiv_eq_ediv]
  have sign : b.sign = 1 := sign_eq_one_of_pos positive
  have divides : a.tmod b = 0 ↔ b ∣ a := (dvd_iff_tmod_eq_zero).symm
  by_cases some_ : 0 ≤ a
  · rw [if_neg, if_pos (.inl some_), add_zero]
    rintro ⟨_, wrong | wrong⟩
    · omega
    · omega
  · by_cases whole : b ∣ a
    · rw [if_neg fun wrong => wrong.1 (divides.mpr whole), if_pos (.inr whole), add_zero]
    · rw [if_pos ⟨fun zero => whole (divides.mp zero), .inl ⟨by omega, by omega⟩⟩, if_neg, sign]
      · omega
      · rintro (wrong | wrong)
        · exact some_ wrong
        · exact whole wrong

theorem floorMod_eq (a : Int) {b : Int} (positive : 0 < b) : floorMod a b = a % b := by
  rw [floorMod, floorDiv_eq a positive, emod_def, mul_comm]

theorem isLeap_iff (y : Int) :
    isLeap y = true ↔ y % 4 = 0 ∧ y % 100 ≠ 0 ∨ y % 400 = 0 := by
  have zero : ∀ n : Int, y.tmod n = 0 ↔ y % n = 0 := fun n => by
    rw [← dvd_iff_tmod_eq_zero, dvd_iff_emod_eq_zero]
  simp only [isLeap, Bool.or_eq_true, Bool.and_eq_true, decide_eq_true_eq, ne_eq, zero]

/-- The year in which the last March lies, and the months since then. -/
def marchYear (y : Int) (m : Nat) : Int := if m ≤ 2 then y - 1 else y

def marchMonth (m : Nat) : Int := if 2 < m then (m : Int) - 3 else m + 9

/-- The days of an era in front of one of its years, and of a year in front of a month. -/
def yearStart (q : Int) : Int := 365 * q + q / 4 - q / 100

def monthStart (mp : Int) : Int := (153 * mp + 2) / 5

theorem daysFromCivil_eq (y : Int) {m d : Nat} (month : 1 ≤ m) : daysFromCivil y m d =
    marchYear y m / 400 * 146097 + yearStart (marchYear y m % 400) +
      (monthStart (marchMonth m) + d - 1) - 719468 := by
  have rest := emod_nonneg (marchYear y m) (by decide : (400 : Int) ≠ 0)
  have split : marchYear y m - marchYear y m / 400 * 400 = marchYear y m % 400 := by omega
  have mp : (153 * ((m : Int) + if 2 < m then -3 else 9) + 2) = 153 * marchMonth m + 2 ∧
      0 ≤ marchMonth m := by
    unfold marchMonth
    split <;> omega
  unfold daysFromCivil
  dsimp only
  rw [floorDiv_eq _ (by decide : (0 : Int) < 400), show (if m ≤ 2 then y - 1 else y) = marchYear y m from rfl,
    split, mp.1, tdiv_eq_ediv_of_nonneg rest, tdiv_eq_ediv_of_nonneg rest,
    tdiv_eq_ediv_of_nonneg (by omega)]
  unfold yearStart monthStart
  omega

theorem year_of_era {q r D : Int} (low : 0 ≤ q) (high : q < 400) (some_ : 0 ≤ r)
    (fits : r ≤ 364 ∨ r = 365 ∧ (q + 1) % 4 = 0 ∧ ((q + 1) % 100 ≠ 0 ∨ (q + 1) % 400 = 0))
    (isD : D = yearStart q + r) :
    (D - D / 1460 + D / 36524 - D / 146096) / 365 = q ∧ 0 ≤ D ∧ D < 146097 := by
  -- centuries, groups of four years and years
  obtain ⟨a, b, c, isQ, lowA, highA, lowB, highB, lowC, highC⟩ : ∃ a b c : Int,
      q = 100 * a + 4 * b + c ∧ 0 ≤ a ∧ a < 4 ∧ 0 ≤ b ∧ b < 25 ∧ 0 ≤ c ∧ c < 4 :=
    ⟨q / 100, q % 100 / 4, q % 4, by omega, by omega, by omega, by omega, by omega, by omega, by omega⟩
  have quarter : q / 4 = 25 * a + b := by omega
  have century : q / 100 = a := by omega
  have leap : r ≤ 364 ∨ r = 365 ∧ c = 3 ∧ (b ≠ 24 ∨ a = 3) := by
    rcases fits with short | ⟨isR, four, century' | whole⟩
    · exact .inl short
    · exact .inr ⟨isR, by omega, .inl (by omega)⟩
    · exact .inr ⟨isR, by omega, .inr (by omega)⟩
  rw [yearStart, quarter, century] at isD
  clear fits quarter century high low
  have below : 1461 * b + 365 * c + r < 36524 ∨ 1461 * b + 365 * c + r = 36524 ∧ a = 3 := by omega
  have centuries : D / 36524 - D / 146096 = a := by omega
  generalize isLate : (if 1460 ≤ 24 * a + b + 365 * c + r then 1 else 0 : Int) = late
  have fours : D / 1460 = 25 * a + b + late := by
    rw [← isLate]
    split <;> omega
  have sum : D - D / 1460 + D / 36524 - D / 146096 = 365 * q + (r - late) := by omega
  refine ⟨?_, by omega, by omega⟩
  rw [sum]
  clear sum fours centuries
  rw [← isLate]
  split <;> omega

theorem month_of_year {mp e : Int} (some_ : 0 ≤ e)
    (inside : monthStart mp + e < monthStart (mp + 1)) :
    (5 * (monthStart mp + e) + 2) / 153 = mp := by
  unfold monthStart at *
  omega

theorem civilFromDays_eq {Y mp e : Int} (low : 0 ≤ mp) (high : mp < 12) (some_ : 0 ≤ e)
    (inside : monthStart mp + e < monthStart (mp + 1))
    (fits : monthStart mp + e ≤ 364 ∨ monthStart mp + e = 365 ∧ (Y + 1) % 4 = 0 ∧
      ((Y + 1) % 100 ≠ 0 ∨ (Y + 1) % 400 = 0)) :
    civilFromDays (Y / 400 * 146097 + yearStart (Y % 400) + (monthStart mp + e) - 719468) =
      ⟨toI32 (if mp < 10 then Y else Y + 1), (if mp < 10 then mp + 3 else mp - 9).toNat,
        (e + 1).toNat⟩ := by
  have start : 0 ≤ monthStart mp := by
    unfold monthStart
    omega
  obtain ⟨isYear, someD, largeD⟩ := year_of_era (q := Y % 400) (r := monthStart mp + e)
    (by omega) (by omega) (by omega) (by omega) rfl
  generalize isD : yearStart (Y % 400) + (monthStart mp + e) = D at isYear someD largeD
  have era : (Y / 400 * 146097 + yearStart (Y % 400) + (monthStart mp + e) - 719468 + 719468) / 146097 =
      Y / 400 := by omega
  have doe : Y / 400 * 146097 + yearStart (Y % 400) + (monthStart mp + e) - 719468 + 719468 -
      Y / 400 * 146097 = D := by omega
  have quotient : (D - D.tdiv 1460 + D.tdiv 36524 - D.tdiv 146096).tdiv 365 = Y % 400 := by
    rw [tdiv_eq_ediv_of_nonneg someD, tdiv_eq_ediv_of_nonneg someD,
      tdiv_eq_ediv_of_nonneg someD, tdiv_eq_ediv_of_nonneg (by omega), isYear]
  have doy : D - (365 * (Y % 400) + (Y % 400).tdiv 4 - (Y % 400).tdiv 100) = monthStart mp + e := by
    rw [tdiv_eq_ediv_of_nonneg (by omega), tdiv_eq_ediv_of_nonneg (by omega), ← isD, yearStart]
    omega
  have isMonth : (5 * (monthStart mp + e) + 2).tdiv 153 = mp := by
    rw [tdiv_eq_ediv_of_nonneg (by omega)]
    exact month_of_year some_ inside
  have day : monthStart mp + e - (153 * mp + 2).tdiv 5 + 1 = e + 1 := by
    rw [tdiv_eq_ediv_of_nonneg (by omega), monthStart]
    omega
  unfold civilFromDays
  simp only [floorDiv_eq _ (by decide : (0 : Int) < 146097), era, doe, quotient, doy, isMonth, day]
  congr 2
  split <;> split <;> omega

/-- A month is as long as the days up to the next one, but for February, which ends the
year. -/
theorem daysInMonth_eq (y : Int) {m : Nat} (month : 1 ≤ m ∧ m ≤ 12) :
    (m ≠ 2 → (daysInMonth y m : Int) = monthStart (marchMonth m + 1) - monthStart (marchMonth m)) ∧
      (m = 2 → (daysInMonth y m : Int) = if isLeap y then 29 else 28) := by
  refine ⟨fun other => ?_, fun february => ?_⟩
  · have table : ∀ k : Nat, k < 13 → 1 ≤ k → k ≠ 2 → ((monthDays.getD k 0 : Nat) : Int) =
        monthStart (marchMonth k + 1) - monthStart (marchMonth k) := by decide
    rw [daysInMonth, if_neg other, if_pos month]
    exact table m (by omega) month.1 other
  · rw [daysInMonth, if_pos february]
    split <;> rfl

theorem inside_year {y : Int} {m d : Nat} (month : 1 ≤ m ∧ m ≤ 12)
    (day : 1 ≤ d ∧ d ≤ daysInMonth y m) :
    0 ≤ marchMonth m ∧ marchMonth m < 12 ∧
      monthStart (marchMonth m) + (d - 1 : Int) < monthStart (marchMonth m + 1) ∧
      (monthStart (marchMonth m) + (d - 1 : Int) ≤ 364 ∨
        monthStart (marchMonth m) + (d - 1 : Int) = 365 ∧ (marchYear y m + 1) % 4 = 0 ∧
          ((marchYear y m + 1) % 100 ≠ 0 ∨ (marchYear y m + 1) % 400 = 0)) := by
  obtain ⟨others, february⟩ := daysInMonth_eq y month
  have range : 0 ≤ marchMonth m ∧ marchMonth m < 12 := by
    unfold marchMonth
    split <;> omega
  refine ⟨range.1, range.2, ?_⟩
  by_cases isFebruary : m = 2
  · have length := february isFebruary
    have leap := isLeap_iff y
    rw [isFebruary] at day length ⊢
    have starts : monthStart (marchMonth 2) = 337 ∧ monthStart (marchMonth 2 + 1) = 367 := by decide
    rw [starts.1, starts.2, show marchYear y 2 = y - 1 from rfl, sub_add_cancel]
    split at length
    · rename_i isLeap_
      have := leap.mp isLeap_
      omega
    · omega
  · have length := others isFebruary
    have ends : monthStart (marchMonth m + 1) ≤ 337 := by
      unfold monthStart marchMonth
      split <;> omega
    omega

/-! ## There and back -/

theorem toI32_of_is32 {y : Int} (small : Is32 y) : toI32 y = y := by
  unfold toI32
  unfold Is32 at small
  omega

/-- A date of any year is found again, in the 32 bits of a year. -/
theorem civilFromDays_days {y : Int} {m d : Nat} (month : 1 ≤ m ∧ m ≤ 12)
    (day : 1 ≤ d ∧ d ≤ daysInMonth y m) : civilFromDays (daysFromCivil y m d) = ⟨toI32 y, m, d⟩ := by
  obtain ⟨low, high, inside, fits⟩ := inside_year month day
  rw [daysFromCivil_eq y month.1, show ∀ s : Int, s + d - 1 = s + (d - 1) from fun s => by omega,
    civilFromDays_eq low high (by omega) inside fits]
  have year : (if marchMonth m < 10 then marchYear y m else marchYear y m + 1) = y := by
    unfold marchMonth marchYear
    split <;> split <;> omega
  have isMonth : (if marchMonth m < 10 then marchMonth m + 3 else marchMonth m - 9).toNat = m := by
    unfold marchMonth
    split <;> split <;> omega
  rw [year, isMonth, show (d - 1 + 1 : Int).toNat = d by omega]

def marchStart (Y : Int) : Int := 365 * Y + Y / 4 - Y / 100 + Y / 400

theorem daysFromCivil_start (y : Int) {m d : Nat} (month : 1 ≤ m) : daysFromCivil y m d =
    marchStart (marchYear y m) + (monthStart (marchMonth m) + (d - 1 : Int)) - 719468 := by
  rw [daysFromCivil_eq y month, marchStart, yearStart]
  omega

theorem marchStart_succ (y : Int) :
    marchStart y - marchStart (y - 1) = if isLeap y then 366 else 365 := by
  have leap := isLeap_iff y
  unfold marchStart
  split
  · rename_i isLeap_
    have := leap.mp isLeap_
    omega
  · rename_i notLeap
    have : ¬ (y % 4 = 0 ∧ y % 100 ≠ 0 ∨ y % 400 = 0) := fun wrong => notLeap (leap.mpr wrong)
    omega

/-- Dates of any years are as many days apart as they are in order. -/
theorem days_lt {y y' : Int} {m d m' d' : Nat} (month : 1 ≤ m ∧ m ≤ 12)
    (day : 1 ≤ d ∧ d ≤ daysInMonth y m) (month' : 1 ≤ m' ∧ m' ≤ 12) (day' : 1 ≤ d')
    (before : y < y' ∨ y = y' ∧ (m < m' ∨ m = m' ∧ d < d')) :
    daysFromCivil y m d < daysFromCivil y' m' d' := by
  obtain ⟨low, _, inside, fits⟩ := inside_year month day
  rw [daysFromCivil_start y month.1, daysFromCivil_start y' month'.1]
  have start : 0 ≤ monthStart (marchMonth m') := by
    unfold monthStart marchMonth
    split <;> omega
  have order : marchYear y m < marchYear y' m' ∨ marchYear y m = marchYear y' m' ∧
      (marchMonth m < marchMonth m' ∨ marchMonth m = marchMonth m' ∧ d < d') := by
    unfold marchYear marchMonth
    split <;> split <;> omega
  generalize marchYear y m = Y at order fits ⊢
  generalize marchYear y' m' = Y' at order ⊢
  generalize marchMonth m = mp at order fits inside low ⊢
  generalize marchMonth m' = mp' at order start ⊢
  rcases order with year | ⟨rfl, inYear | ⟨rfl, inMonth⟩⟩
  · unfold marchStart
    by_cases next : Y' = Y + 1
    · omega
    · omega
  · have := (by unfold monthStart; omega : monthStart (mp + 1) ≤ monthStart mp')
    omega
  · omega

theorem CivilDate.days_next {c : CivilDate} (month : 1 ≤ c.m ∧ c.m ≤ 12)
    (day : 1 ≤ c.d ∧ c.d ≤ daysInMonth c.y c.m) :
    c.next.days = c.days + 1 ∧ (1 ≤ c.next.m ∧ c.next.m ≤ 12) ∧
      (1 ≤ c.next.d ∧ c.next.d ≤ daysInMonth c.next.y c.next.m) := by
  obtain ⟨y, m, d⟩ := c
  dsimp only at month day
  have some_ : ∀ (y : Int) (m : Nat), 1 ≤ m ∧ m ≤ 12 → 1 ≤ daysInMonth y m := by
    intro y m month
    obtain ⟨others, february⟩ := daysInMonth_eq y month
    by_cases isFebruary : m = 2
    · have := february isFebruary
      split at this <;> omega
    · have := others isFebruary
      unfold monthStart at this
      omega
  unfold next days
  dsimp only
  split
  · rename_i more
    refine ⟨?_, month, Nat.le_add_left 1 d, more⟩
    change daysFromCivil y m (d + 1) = _
    rw [daysFromCivil_start y month.1, daysFromCivil_start y month.1]
    omega
  · obtain rfl : d = daysInMonth y m := by omega
    obtain ⟨others, february⟩ := daysInMonth_eq y month
    split
    · rename_i notLast
      refine ⟨?_, by dsimp only; omega, le_refl 1, some_ y (m + 1) (by omega)⟩
      dsimp only
      rw [daysFromCivil_start y (by omega), daysFromCivil_start y month.1]
      by_cases isFebruary : m = 2
      · have length := february isFebruary
        have year := marchStart_succ y
        subst isFebruary
        rw [show marchYear y (2 + 1) = y from rfl, show marchYear y 2 = y - 1 from rfl, length,
          show monthStart (marchMonth (2 + 1)) = 0 from rfl, show monthStart (marchMonth 2) = 337 from rfl]
        split at year
        · rename_i leap
          rw [if_pos leap]
          omega
        · rename_i leap
          rw [if_neg leap]
          omega
      · have length := others isFebruary
        have same : marchYear y (m + 1) = marchYear y m ∧ marchMonth (m + 1) = marchMonth m + 1 := by
          unfold marchYear marchMonth
          split <;> split <;> omega
        rw [same.1, same.2, length]
        omega
    · obtain rfl : m = 12 := by omega
      refine ⟨?_, by dsimp only; omega, le_refl 1, some_ (y + 1) 1 (by decide)⟩
      dsimp only
      rw [daysFromCivil_start _ (le_refl 1), daysFromCivil_start y (by decide),
        others (by decide), show marchYear (y + 1) 1 = y + 1 - 1 from rfl, Int.add_sub_cancel,
        show marchYear y 12 = y from rfl, show monthStart (marchMonth 1) = 306 from rfl,
        show monthStart (marchMonth 12) = 275 from rfl, show monthStart (marchMonth 12 + 1) = 306 from rfl]
      omega

theorem exists_date (z : Int) : ∃ (y : Int) (m d : Nat), (1 ≤ m ∧ m ≤ 12) ∧
    (1 ≤ d ∧ d ≤ daysInMonth y m) ∧ daysFromCivil y m d = z := by
  have from_ : ∀ (k : Int) (n : Nat), ∃ c : CivilDate, (1 ≤ c.m ∧ c.m ≤ 12) ∧
      (1 ≤ c.d ∧ c.d ≤ daysInMonth c.y c.m) ∧ c.days = -719162 + 146097 * k + n := by
    intro k n
    induction n with
    | zero =>
      refine ⟨⟨400 * k + 1, 1, 1⟩, ⟨le_refl 1, Nat.le_add_left 1 11⟩,
        ⟨le_refl 1, Nat.le_add_left 1 30⟩, ?_⟩
      change daysFromCivil (400 * k + 1) 1 1 = _
      rw [daysFromCivil_start _ (le_refl 1),
        show marchYear (400 * k + 1) 1 = 400 * k + 1 - 1 from rfl,
        show monthStart (marchMonth 1) = 306 from rfl, marchStart]
      omega
    | succ n ih =>
      obtain ⟨c, month, day, isN⟩ := ih
      obtain ⟨more, month', day'⟩ := CivilDate.days_next month day
      exact ⟨c.next, month', day', by rw [more, isN]; omega⟩
  obtain ⟨c, month, day, isZ⟩ := from_ ((z + 719162) / 146097) ((z + 719162) % 146097).toNat
  refine ⟨c.y, c.m, c.d, month, day, ?_⟩
  rw [← CivilDate.days, isZ]
  omega

theorem civilFromDays_valid {z : Int} (low : firstDay ≤ z) (high : z ≤ lastDay) :
    (civilFromDays z).Valid ∧ (civilFromDays z).days = z := by
  obtain ⟨y, m, d, month, day, rfl⟩ := exists_date z
  have small : Is32 y := by
    refine ⟨?_, ?_⟩
    · refine not_lt.mp fun early => ?_
      exact absurd (days_lt month day (by decide) (le_refl 1) (.inl early)) (not_lt.mpr low)
    · refine not_le.mp fun late => ?_
      have later : lastDay < daysFromCivil y m d :=
        days_lt (by decide) (by decide) month day.1 (.inl (by omega))
      exact absurd later (not_lt.mpr high)
  rw [civilFromDays_days month day, toI32_of_is32 small]
  exact ⟨⟨small, month, day⟩, rfl⟩

theorem CivilDate.Valid.days_lt {c c' : CivilDate} (valid : c.Valid) (valid' : c'.Valid)
    (before : c.Before c') : c.days < c'.days :=
  Chrono.days_lt valid.month valid.day valid'.month valid'.day.1 before

/-- The last two days, of which the Thursday lies in a year that has more than 32 bits. -/
def LastWeek (c : CivilDate) : Prop := c.y = 2 ^ 31 - 1 ∧ c.m = 12 ∧ 30 ≤ c.d

instance (c : CivilDate) : Decidable (LastWeek c) := inferInstanceAs (Decidable (_ ∧ _))

theorem CivilDate.Valid.range {c : CivilDate} (valid : c.Valid) :
    firstDay ≤ c.days ∧ c.days ≤ lastDay ∧ (LastWeek c ↔ lastDay - 1 ≤ c.days) := by
  obtain ⟨y, m, d⟩ := c
  obtain ⟨⟨low, high⟩, month, day⟩ := valid
  dsimp only at low high month day
  have large : d ≤ 31 := by
    refine le_trans day.2 ?_
    have table : ∀ m < 13, monthDays.getD m 0 ≤ 31 := by decide
    unfold daysInMonth
    split
    · split <;> omega
    · exact table m (by omega)
  have first : firstDay ≤ daysFromCivil y m d := by
    by_cases same : y = -2 ^ 31 ∧ m = 1 ∧ d = 1
    · rw [same.1, same.2.1, same.2.2]
      exact le_refl _
    · exact le_of_lt (Chrono.days_lt (by decide) (by decide) month day.1 (by omega))
  have last : y = 2 ^ 31 - 1 → m = 12 → daysFromCivil y m d = lastDay - 31 + d := by
    rintro rfl rfl
    rw [daysFromCivil_start _ (by decide), lastDay, daysFromCivil_start _ (by decide)]
    omega
  have before : ¬ (y = 2 ^ 31 - 1 ∧ m = 12) → daysFromCivil y m d < lastDay - 30 := by
    intro other
    have : daysFromCivil y m d < daysFromCivil (2 ^ 31 - 1) 12 1 :=
      Chrono.days_lt month day (by decide) (le_refl 1) (by omega)
    exact this
  unfold LastWeek days
  dsimp only
  by_cases isLast : y = 2 ^ 31 - 1 ∧ m = 12
  · have := last isLast.1 isLast.2
    omega
  · have := before isLast
    omega

theorem fourth_of_january (y : Int) : daysFromCivil y 1 4 = daysFromCivil y 1 1 + 3 := by
  rw [daysFromCivil_start y (le_refl 1), daysFromCivil_start y (le_refl 1)]
  omega

theorem names_of_thursday {z thursday : Int} (isThursday : thursday = z + 3 - (z + 3) % 7) {year : Int}
    (low : daysFromCivil year 1 1 ≤ thursday) (high : thursday < daysFromCivil (year + 1) 1 1) :
    IsoWeek.Names ⟨year, (((thursday - daysFromCivil year 1 1).tdiv 7 + 1) % 2 ^ 32).toNat,
      ((z + 3) % 7).toNat + 1⟩ z := by
  have length : daysFromCivil (year + 1) 1 1 ≤ daysFromCivil year 1 1 + 366 := by
    rw [daysFromCivil_start _ (le_refl 1), daysFromCivil_start _ (le_refl 1),
      show marchYear (year + 1) 1 = year + 1 - 1 from rfl, Int.add_sub_cancel,
      show marchYear year 1 = year - 1 from rfl]
    have := marchStart_succ year
    split at this <;> omega
  unfold IsoWeek.Names firstMonday
  dsimp only
  rw [fourth_of_january, fourth_of_january, tdiv_eq_ediv_of_nonneg (by omega)]
  generalize daysFromCivil year 1 1 = j at *
  generalize daysFromCivil (year + 1) 1 1 = j' at *
  refine ⟨by omega, by omega, by omega, by omega, by omega⟩

theorem firstMonday_mono {y y' : Int} (le : y ≤ y') : firstMonday y ≤ firstMonday y' := by
  unfold firstMonday
  rw [fourth_of_january, fourth_of_january, daysFromCivil_start _ (le_refl 1),
    daysFromCivil_start _ (le_refl 1), show marchYear y 1 = y - 1 from rfl,
    show marchYear y' 1 = y' - 1 from rfl]
  have days : y = y' ∨ marchStart (y - 1) + 7 ≤ marchStart (y' - 1) := by
    unfold marchStart
    omega
  rcases days with rfl | apart
  · exact le_refl _
  · omega

theorem isoWeekDate_eq (c : CivilDate) : isoWeekDate c.y c.m c.d =
    ⟨(civilFromDays (c.days + 3 - (c.days + 3) % 7)).y,
      (((c.days + 3 - (c.days + 3) % 7 -
        daysFromCivil (civilFromDays (c.days + 3 - (c.days + 3) % 7)).y 1 1).tdiv 7 + 1) % 2 ^ 32).toNat,
      ((c.days + 3) % 7).toNat + 1⟩ := by
  have thursday : c.days + (4 - (((c.days + 3) % 7).toNat + 1 : Nat) : Int) =
      c.days + 3 - (c.days + 3) % 7 := by omega
  unfold isoWeekDate
  dsimp only
  rw [floorMod_eq _ (by decide : (0 : Int) < 7), ← CivilDate.days, thursday]

/-- The week of a date is that of the standard, but for the last two days. -/
theorem isoWeekDate_names {c : CivilDate} (valid : c.Valid) :
    (isoWeekDate c.y c.m c.d).Names c.days ↔ ¬ LastWeek c := by
  obtain ⟨low, high, isLast⟩ := valid.range
  have first : firstDay = -784353015833 := by decide
  have last : lastDay = 784351576776 := by decide
  constructor
  · rintro names ⟨year, month, late⟩
    obtain ⟨y, m, d⟩ := c
    dsimp only at year month late names
    subst year month
    have twoDays : d = 30 ∨ d = 31 := by
      have := valid.day.2
      have length : daysInMonth (2 ^ 31 - 1) 12 = 31 := by decide
      dsimp only at this
      omega
    -- the year of the Thursday goes around
    rcases twoDays with rfl | rfl
    · obtain ⟨_, _, _, _, inYear⟩ := names
      exact absurd inYear (by decide)
    · obtain ⟨_, _, _, _, inYear⟩ := names
      exact absurd inYear (by decide)
  · intro notLast
    have early : ¬ lastDay - 1 ≤ c.days := fun late => notLast (isLast.mpr late)
    rw [isoWeekDate_eq]
    generalize isThursday : c.days + 3 - (c.days + 3) % 7 = thursday
    obtain ⟨valid', isDay⟩ := civilFromDays_valid (z := thursday) (by omega) (by omega)
    generalize civilFromDays thursday = t at valid' isDay
    refine names_of_thursday isThursday.symm ?_ ?_
    · rw [← isDay]
      by_cases newYear : t.m = 1 ∧ t.d = 1
      · rw [CivilDate.days, newYear.1, newYear.2]
      · have later := valid'.day.1
        have month := valid'.month
        exact le_of_lt (Chrono.days_lt (by decide) ⟨le_refl 1, Nat.le_add_left 1 30⟩ month later
          (.inr ⟨rfl, by omega⟩))
    · rw [← isDay]
      exact Chrono.days_lt valid'.month valid'.day (by decide) (le_refl 1) (.inl (Int.lt_succ _))

/-- Weeks of the standard come in the order of their days. -/
theorem IsoWeek.Names.before {w w' : IsoWeek} {z z' : Int} (names : w.Names z) (names' : w'.Names z')
    (less : z < z') : w.Before w' := by
  obtain ⟨some_, most, week, isZ, inYear⟩ := names
  obtain ⟨some', most', week', isZ', inYear'⟩ := names'
  have years : w.year ≤ w'.year := by
    refine not_lt.mp fun later => ?_
    have mondays : firstMonday (w'.year + 1) ≤ firstMonday w.year := firstMonday_mono (by omega)
    omega
  unfold IsoWeek.Before
  by_cases same : w.year = w'.year
  · rw [same] at isZ
    omega
  · omega

/-- The conversions are inverse to each other and keep the order of the dates; the weeks
are those of the standard, but for the last two days of the years of 32 bits. -/
theorem calendar_exact (c : CivilDate) (valid : c.Valid) :
    civilFromDays c.days = c ∧
      (∀ z, firstDay ≤ z → z ≤ lastDay → (civilFromDays z).Valid ∧ (civilFromDays z).days = z) ∧
      c.next.days = c.days + 1 ∧
      (∀ c' : CivilDate, c'.Valid → c.Before c' → c.days < c'.days) ∧
      ((isoWeekDate c.y c.m c.d).Names c.days ↔ ¬ LastWeek c) ∧
      ∀ c' : CivilDate, c'.Valid → ¬ LastWeek c → ¬ LastWeek c' → c.Before c' →
        (isoWeekDate c.y c.m c.d).Before (isoWeekDate c'.y c'.m c'.d) := by
  refine ⟨?_, fun z low high => civilFromDays_valid low high,
    (CivilDate.days_next valid.month valid.day).1,
    fun c' valid' before => valid.days_lt valid' before,
    isoWeekDate_names valid, fun c' valid' early early' before => ?_⟩
  · rw [CivilDate.days, civilFromDays_days valid.month valid.day, toI32_of_is32 valid.year]
  · exact ((isoWeekDate_names valid).mpr early).before ((isoWeekDate_names valid').mpr early')
      (valid.days_lt valid' before)

def leapDay : CivilDate := ⟨2000, 2, 29⟩

theorem leapDay_valid : leapDay.Valid :=
  ⟨⟨by decide, by decide⟩, by decide, by decide⟩

theorem calendar_exact_leapDay :
    civilFromDays leapDay.days = leapDay ∧ leapDay.next = ⟨2000, 3, 1⟩ ∧
      leapDay.next.days = leapDay.days + 1 ∧
      (isoWeekDate leapDay.y leapDay.m leapDay.d).Names leapDay.days := by
  obtain ⟨back, _, next, _, week, _⟩ := calendar_exact leapDay leapDay_valid
  exact ⟨back, by decide, next, week.mpr (by decide)⟩

/-- The Thursday after the last Monday lies in a year that does not fit. -/
theorem iso_week_wraps :
    (CivilDate.mk (2 ^ 31 - 1) 12 30).Valid ∧
      isoWeekDate (2 ^ 31 - 1) 12 30 = ⟨-2 ^ 31, 762356696, 1⟩ ∧
      ¬ (isoWeekDate (2 ^ 31 - 1) 12 30).Names (CivilDate.mk (2 ^ 31 - 1) 12 30).days := by
  refine ⟨⟨⟨by decide, by decide⟩, by decide, by decide⟩, by decide, ?_⟩
  rintro ⟨_, _, _, _, inYear⟩
  exact absurd inYear (by decide)

end Micron.Chrono
