import Mathlib.Data.List.Basic
import Mathlib.Algebra.Order.Ring.Nat
import Micron.Lib.Borders

/-!
# Substring searches with skip tables

A search ends with what it returns, or at the first read behind the text, or where a length does
not fit the `int` it is put into.  Its loops take fuel; nothing is returned when that is out.
-/

set_option autoImplicit false

namespace Micron.Search

open List Function Nat

inductive Outcome (α : Type) where
  | returned (value : α)
  | outside
  | narrowed

/-- The characters of a pattern, which is never read elsewhere. -/
def chars (pattern : List UInt8) (i : Nat) : UInt8 := pattern.getD i 0

/-- The loop over the characters from the last one down: how many are left at the first that
differs, none when the text ends before it. -/
def compareBack (p : Nat → UInt8) (text : List UInt8) (s : Nat) : Nat → Option Nat
  | 0 => some 0
  | j + 1 =>
    match text[s + j]? with
    | none => none
    | some c => if p j = c then compareBack p text s j else some (j + 1)

def skips (p : Nat → UInt8) (m : Nat) : UInt8 → Nat :=
  (List.range (m - 1)).foldl (fun shift i => update shift (p i) ((m - 1 - i) % 2 ^ 16))
    (fun _ => m % 2 ^ 16)

/-- What is added to the iterator after a window that differs. -/
def skipAt (text pattern : List UInt8) (it : Nat) : Nat :=
  skips (chars pattern) pattern.length (text.getD (it + pattern.length - 1) 0)

def fastFindLoop (text pattern : List UInt8) : Nat → Nat → Option (Outcome (Option Nat))
  | 0, _ => none
  | fuel + 1, it =>
    if it = text.length - pattern.length + 1 then some (.returned none)
    else
      match compareBack (chars pattern) text it pattern.length with
      | none => some .outside
      | some 0 => some (.returned (some it))
      | some (_ + 1) => fastFindLoop text pattern fuel (it + skipAt text pattern it)

/-- `fast_find`; no position is the end, or the null pointer of the raw form. -/
def fastFind (fuel : Nat) (data fnd : List UInt8) : Option (Outcome (Option Nat)) :=
  if fnd.length = 0 ∨ data.length < fnd.length then some (.returned none)
  else fastFindLoop data fnd fuel 0

def buildBadChar (p : Nat → UInt8) (m : Nat) : UInt8 → Int :=
  (List.range m).foldl (fun bad i => update bad (p i) (i : Int)) (fun _ => -1)

/-- The inner loop of the first phase, along the borders of the suffix at `i`. -/
def extendLoop (p : Nat → UInt8) (m i : Nat) (border : Nat → Nat) :
    Nat → Nat → (Nat → Nat) → Option (Nat × (Nat → Nat))
  | 0, _, _ => none
  | fuel + 1, j, shift =>
    if j ≤ m ∧ p (i - 1) ≠ p (j - 1) then
      extendLoop p m i border fuel (border j)
        (if shift j = m then update shift j (j - i) else shift)
    else some (j, shift)

def borderLoop (p : Nat → UInt8) (m fuel : Nat) :
    Nat → Nat → (Nat → Nat) → (Nat → Nat) → Option ((Nat → Nat) × (Nat → Nat))
  | 0, _, border, shift => some (border, shift)
  | i + 1, j, border, shift => do
      let found ← extendLoop p m (i + 1) border fuel j shift
      borderLoop p m fuel i (found.1 - 1) (update border i (found.1 - 1)) found.2

def fillStep (m : Nat) (border : Nat → Nat) (st : Nat × (Nat → Nat)) (i : Nat) :
    Nat × (Nat → Nat) :=
  (if i = st.1 then border st.1 else st.1,
    if st.2 i = m then update st.2 i st.1 else st.2)

def buildGoodSuffix (p : Nat → UInt8) (m fuel : Nat) : Option (Nat → Nat) := do
  let tables ← borderLoop p m fuel m (m + 1) (update (fun _ => 0) m (m + 1)) (fun _ => m)
  some ((List.range (m + 1)).foldl (fillStep m tables.1) (tables.1 0, tables.2)).2

/-- The loop over the windows; the difference of the lengths is unsigned. -/
def searchLoop (text pattern : List UInt8) (bad : UInt8 → Int) (good : Nat → Nat) :
    Nat → Nat → List Nat → Option (Outcome (List Nat))
  | 0, _, _ => none
  | fuel + 1, s, result =>
    if s ≤ (text.length + 2 ^ 64 - pattern.length) % 2 ^ 64 then
      match compareBack (chars pattern) text s pattern.length with
      | none => some .outside
      | some 0 => searchLoop text pattern bad good fuel (s + good 0) (result ++ [s])
      | some (j + 1) =>
        searchLoop text pattern bad good fuel
          (s + (max 1 (max ((j : Int) - bad (text.getD (s + j) 0)) (good (j + 1)))).toNat)
          result
    else some (.returned result)

/-- `boyer_moore_search`.  The tables are built with `int j = m + 1`. -/
def boyerMooreSearch (fuel : Nat) (text pattern : List UInt8) : Option (Outcome (List Nat)) :=
  if pattern.length = 0 then some (.returned [])
  else if 2 ^ 31 ≤ pattern.length + 1 then some .narrowed
  else do
    let good ← buildGoodSuffix (chars pattern) pattern.length fuel
    searchLoop text pattern (buildBadChar (chars pattern) pattern.length) good fuel 0 []

structure OccursAt (text pattern : List UInt8) (s : Nat) : Prop where
  inside : s + pattern.length ≤ text.length
  same : ∀ k, k < pattern.length → text[s + k]? = some (chars pattern k)

instance (text pattern : List UInt8) (s : Nat) : Decidable (OccursAt text pattern s) :=
  decidable_of_iff (s + pattern.length ≤ text.length ∧
      ∀ k, k < pattern.length → text[s + k]? = some (chars pattern k))
    ⟨fun both => ⟨both.1, both.2⟩, fun occurs => ⟨occurs.inside, occurs.same⟩⟩

/-- The naive search for the first one. -/
def firstOccurrence (text pattern : List UInt8) : Option Nat :=
  (List.range (text.length + 1 - pattern.length)).find? fun s => decide (OccursAt text pattern s)

def occurrences (text pattern : List UInt8) : List Nat :=
  (List.range (text.length + 1 - pattern.length)).filter fun s =>
    decide (OccursAt text pattern s)

variable {text pattern : List UInt8} {s d : Nat}

theorem OccursAt.lt (occurs : OccursAt text pattern s) :
    s < text.length + 1 - pattern.length := by
  have inside := occurs.inside
  omega

theorem compareBack_outside {p : Nat → UInt8} {j : Nat} (short : text.length < s + j)
    (some : 0 < j) (behind : text.length ≤ s + (j - 1)) : compareBack p text s j = none := by
  obtain ⟨i, rfl⟩ : ∃ i, j = i + 1 := ⟨j - 1, by omega⟩
  rw [compareBack, getElem?_eq_none (by omega)]

/-- Inside the text the comparison stops at the last place where the window differs. -/
theorem compareBack_spec {p : Nat → UInt8} : ∀ {j : Nat}, s + j ≤ text.length →
    ∃ i, compareBack p text s j = some i ∧ i ≤ j ∧
      (∀ k, i ≤ k → k < j → text[s + k]? = some (p k)) ∧
      (0 < i → text[s + (i - 1)]? ≠ some (p (i - 1))) := by
  intro j
  induction j with
  | zero => exact fun _ => ⟨0, rfl, le_refl 0, fun k _ lt => absurd lt (not_lt_zero k),
      fun lt => absurd lt (lt_irrefl 0)⟩
  | succ j ih =>
    intro inside
    have read : text[s + j]? = some text[s + j] := getElem?_eq_getElem (by omega)
    rw [compareBack, read]
    by_cases same : p j = text[s + j]
    · obtain ⟨i, eq, le, equal, differs⟩ := ih (by omega)
      refine ⟨i, by simp only [same, if_true]; exact eq, le_succ_of_le le, ?_, differs⟩
      intro k low high
      by_cases last : k = j
      · rw [last, read, same]
      · exact equal k low (by omega)
    · refine ⟨j + 1, by simp only [same, if_false], le_refl _, fun k low high => by omega,
        fun _ => ?_⟩
      rw [Nat.add_sub_cancel, read]
      exact fun eq => same (Option.some.inj eq).symm

theorem compareBack_zero (inside : s + pattern.length ≤ text.length) :
    compareBack (chars pattern) text s pattern.length = some 0 ↔ OccursAt text pattern s := by
  obtain ⟨i, eq, le, equal, differs⟩ := @compareBack_spec text s (chars pattern) _ inside
  rw [eq]
  constructor
  · intro zero
    obtain rfl := Option.some.inj zero
    exact ⟨inside, fun k lt => equal k (zero_le k) lt⟩
  · intro occurs
    by_contra nonzero
    have pos : 0 < i := pos_of_ne_zero fun zero => nonzero (by rw [zero])
    exact differs pos (occurs.same (i - 1) (by omega))

/-- The windows the skips lead through, up to an occurrence or to the end exactly. -/
inductive Leads (text pattern : List UInt8) : Nat → Prop
  | ends : Leads text pattern (text.length - pattern.length + 1)
  | occurs {it : Nat} : OccursAt text pattern it → Leads text pattern it
  | skip {it : Nat} : it + pattern.length ≤ text.length →
      Leads text pattern (it + skipAt text pattern it) → Leads text pattern it

/-- The skip of a character is its distance from the last place, cut to sixteen bits. -/
theorem skips_spec (p : Nat → UInt8) {m : Nat} (pos : 0 < m) (c : UInt8) :
    ∃ distance, skips p m c = distance % 2 ^ 16 ∧ 0 < distance ∧ distance ≤ m ∧
      ∀ i, i < m - 1 → p i = c → distance ≤ m - 1 - i := by
  have table : ∀ n, n ≤ m - 1 → ∀ shift : UInt8 → Nat,
      shift = (List.range n).foldl
        (fun shift i => update shift (p i) ((m - 1 - i) % 2 ^ 16)) (fun _ => m % 2 ^ 16) →
      ∃ distance, shift c = distance % 2 ^ 16 ∧ 0 < distance ∧ distance ≤ m ∧
        ∀ i, i < n → p i = c → distance ≤ m - 1 - i := by
    intro n
    induction n with
    | zero =>
      rintro _ shift rfl
      exact ⟨m, rfl, pos, le_refl m, fun i lt => absurd lt (not_lt_zero i)⟩
    | succ n ih =>
      rintro few shift rfl
      obtain ⟨distance, eq, positive, le, all⟩ := ih (by omega) _ rfl
      rw [range_succ, foldl_append, foldl_cons, foldl_nil]
      by_cases last : c = p n
      · rw [last, update_self]
        exact ⟨m - 1 - n, rfl, by omega, by omega, fun i lt _ => by omega⟩
      · rw [update_of_ne last]
        refine ⟨distance, eq, positive, le, fun i lt same => all i ?_ same⟩
        by_contra far
        have here : i = n := by omega
        exact last (by rw [← same, here])
  exact table (m - 1) (le_refl _) _ rfl

/-- No skip goes over an occurrence. -/
theorem skipAt_le {it : Nat} (nonempty : 0 < pattern.length) (later : it < s)
    (occurs : OccursAt text pattern s) : it + skipAt text pattern it ≤ s := by
  obtain ⟨distance, cut, _, whole, each⟩ := skips_spec (chars pattern) nonempty
    (text.getD (it + pattern.length - 1) 0)
  by_cases near : s < it + pattern.length
  · have place : s + (it + pattern.length - 1 - s) = it + pattern.length - 1 := by omega
    have same := occurs.same (it + pattern.length - 1 - s) (by omega)
    rw [place] at same
    have close := each (it + pattern.length - 1 - s) (by omega) (by
      rw [getD_eq_getElem?_getD, same]
      rfl)
    rw [skipAt, cut]
    omega
  · rw [skipAt, cut]
    omega

theorem firstOccurrence_of_first (occurs : OccursAt text pattern s)
    (first : ∀ q, q < s → ¬ OccursAt text pattern q) : firstOccurrence text pattern = some s := by
  rw [firstOccurrence, find?_range_eq_some]
  refine ⟨decide_eq_true occurs, mem_range.mpr occurs.lt, fun q lt => ?_⟩
  exact (Bool.not_eq_true' _).mpr (decide_eq_false (first q lt))

theorem firstOccurrence_of_none (never : ∀ q, ¬ OccursAt text pattern q) :
    firstOccurrence text pattern = none := by
  rw [firstOccurrence, find?_eq_none]
  intro q _ found
  exact never q (of_decide_eq_true found)

theorem fastFindLoop_of_leads (nonempty : 0 < pattern.length)
    (fits : pattern.length ≤ text.length) {it : Nat} (leads : Leads text pattern it)
    (before : ∀ q, q < it → ¬ OccursAt text pattern q) :
    ∃ fuel, fastFindLoop text pattern fuel it = some (.returned (firstOccurrence text pattern)) := by
  induction leads with
  | ends =>
    refine ⟨1, ?_⟩
    rw [fastFindLoop, if_pos rfl, firstOccurrence_of_none]
    intro q occurs
    have inside := occurs.inside
    exact before q (by omega) occurs
  | occurs found =>
    refine ⟨1, ?_⟩
    have inside := found.inside
    rw [fastFindLoop, if_neg (by omega), (compareBack_zero inside).mpr found,
      firstOccurrence_of_first found before]
  | @skip it inside leads ih =>
    by_cases found : OccursAt text pattern it
    · refine ⟨1, ?_⟩
      rw [fastFindLoop, if_neg (by omega), (compareBack_zero inside).mpr found,
        firstOccurrence_of_first found before]
    · obtain ⟨fuel, same⟩ := ih fun q lt occurs => by
        by_cases passed : q < it
        · exact before q passed occurs
        · by_cases here : q = it
          · exact found (here ▸ occurs)
          · have le := skipAt_le nonempty (show it < q by omega) occurs
            omega
      refine ⟨fuel + 1, ?_⟩
      obtain ⟨i, eq, _⟩ := @compareBack_spec text it (chars pattern) _ inside
      rw [fastFindLoop, if_neg (by omega), eq]
      cases i with
      | zero => exact absurd ((compareBack_zero inside).mp eq) found
      | succ i => exact same

theorem leads_of_returned (nonempty : 0 < pattern.length) {result : Option Nat} :
    ∀ (fuel it : Nat), fastFindLoop text pattern fuel it = some (.returned result) →
      Leads text pattern it := by
  intro fuel
  induction fuel with
  | zero =>
    intro it returned
    cases returned
  | succ fuel ih =>
    intro it returned
    rw [fastFindLoop] at returned
    split at returned
    · rename_i last
      rw [last]
      exact Leads.ends
    · by_cases inside : it + pattern.length ≤ text.length
      · obtain ⟨i, eq, _⟩ := @compareBack_spec text it (chars pattern) _ inside
        rw [eq] at returned
        cases i with
        | zero => exact Leads.occurs ((compareBack_zero inside).mp eq)
        | succ i => exact Leads.skip inside (ih _ returned)
      · rw [compareBack_outside (by omega) nonempty (by omega)] at returned
        cases returned

theorem fastFind_iff (nonempty : pattern ≠ []) :
    (∃ fuel, fastFind fuel text pattern = some (.returned (firstOccurrence text pattern))) ↔
      text.length < pattern.length ∨ Leads text pattern 0 := by
  have pos := length_pos_of_ne_nil nonempty
  by_cases long : text.length < pattern.length
  · refine iff_of_true ⟨0, ?_⟩ (.inl long)
    rw [fastFind, if_pos (.inr long), firstOccurrence_of_none]
    intro q occurs
    have inside := occurs.inside
    omega
  · have searched : ∀ fuel, fastFind fuel text pattern = fastFindLoop text pattern fuel 0 :=
      fun fuel => if_neg (by omega)
    constructor
    · rintro ⟨fuel, same⟩
      rw [searched] at same
      exact .inr (leads_of_returned pos fuel 0 same)
    · rintro (wrong | leads)
      · exact absurd wrong long
      · obtain ⟨fuel, same⟩ := fastFindLoop_of_leads pos (by omega) leads
          fun q lt => absurd lt (not_lt_zero q)
        exact ⟨fuel, (searched fuel).trans same⟩

/-- The end is missed only where the pattern does not occur or a skip is cut to nothing. -/
theorem leads_of_occurs (small : pattern.length < 2 ^ 16) (nonempty : 0 < pattern.length)
    (occurs : OccursAt text pattern s) : Leads text pattern 0 := by
  have reaches : ∀ (left it : Nat), it + left = s → Leads text pattern it := by
    intro left
    induction left using Nat.strongRecOn with
    | _ left ih =>
      intro it place
      by_cases here : left = 0
      · have eq : it = s := by omega
        rw [eq]
        exact Leads.occurs occurs
      · have inside := occurs.inside
        have le := skipAt_le nonempty (show it < s by omega) occurs
        have moved : 0 < skipAt text pattern it := by
          obtain ⟨distance, cut, positive, whole, _⟩ := skips_spec (chars pattern) nonempty
            (text.getD (it + pattern.length - 1) 0)
          rw [skipAt, cut, mod_eq_of_lt (by omega)]
          exact positive
        exact Leads.skip (by omega)
          (ih (left - skipAt text pattern it) (by omega) _ (by omega))
  exact reaches s 0 (zero_add s)

end Micron.Search
