import Micron.Lib.BitmapArray

/-!
# The sheet index of a tier

The ranges of the sheets of a tier stand in an array in the order of their addresses, with
one bit for each in a row of words that says whether it has space.  A sheet that comes or
goes shifts both.
-/

set_option autoImplicit false

namespace Micron.Arena

open Micron.Lib Function

def i32 (x : Nat) : Int := ((x : Int) + 2 ^ 31) % 2 ^ 32 - 2 ^ 31

abbrev Words := Nat → BitVec 64

def maskGet (words : Words) (pos : Nat) : Bool := (words (pos / 64)).getLsbD (pos % 64)

def maskSet (words : Words) (pos : Nat) : Words :=
  update words (pos / 64) (words (pos / 64) ||| (1#64 <<< (pos % 64)))

def maskClear (words : Words) (pos : Nat) : Words :=
  update words (pos / 64) (words (pos / 64) &&& ~~~(1#64 <<< (pos % 64)))

def lowMask (bit : Nat) : BitVec 64 := (1#64 <<< bit) - 1#64

/-- The loop of `__mask_insert` over the words above, with the number of words that are
left. -/
def carryUp : Nat → Nat → BitVec 64 → Words → Words
  | 0, _, _, words => words
  | left + 1, i, c, words =>
    let nc := (words i >>> 63) &&& 1#64
    carryUp left (i + 1) nc (update words i ((words i <<< 1) ||| c))

def maskInsert (detailWords : Nat) (words : Words) (pos : Nat) (value : Bool) : Words :=
  let word := pos / 64
  let bit := pos % 64
  let w := words word
  let carry := (w >>> 63) &&& 1#64
  let lo := w &&& if bit = 0 then 0#64 else lowMask bit
  let hi := (w <<< 1) &&& if bit = 63 then 0#64 else ~~~lowMask (bit + 1)
  let words := update words word (lo ||| hi ||| ((if value then 1#64 else 0#64) <<< bit))
  carryUp (detailWords - (word + 1)) (word + 1) carry words

def carryIn (detailWords : Nat) (words : Words) (i : Nat) : BitVec 64 :=
  if i + 1 < detailWords then words (i + 1) &&& 1#64 else 0#64

/-- The loop of `__mask_remove` over the words above. -/
def carryDown (detailWords : Nat) : Nat → Nat → Words → Words
  | 0, _, words => words
  | left + 1, i, words =>
    carryDown detailWords left (i + 1)
      (update words i ((words i >>> 1) ||| (carryIn detailWords words i <<< 63)))

def maskRemove (detailWords : Nat) (words : Words) (pos : Nat) : Words :=
  let word := pos / 64
  let bit := pos % 64
  let w := words word
  let lo := w &&& if bit = 0 then 0#64 else lowMask bit
  let hi := (w >>> 1) &&& if bit = 0 then lowMask 63 else lowMask 63 &&& ~~~lowMask bit
  let carry := carryIn detailWords words word
  carryDown detailWords (detailWords - (word + 1)) (word + 1)
    (update words word (lo ||| hi ||| (carry <<< 63)))

structure Range where
  lo : Nat
  hi : Nat
  nd : Nat
  deriving DecidableEq

structure Tier where
  idx : Nat → Range
  count : Nat
  spaceMask : Words
  lastHit : Nat

section

variable (maxSheets : Nat)

def noHit : Nat := maxSheets

def detailWords : Nat := (maxSheets + 63) % 2 ^ 32 / 64

def Tier.init : Tier := ⟨fun _ => ⟨0, 0, 0⟩, 0, fun _ => 0#64, noHit maxSheets⟩

/-- The loop that looks for the place of a sheet, with the entries that are left. -/
def placeLoop (idx : Nat → Range) (lo : Nat) : Nat → Nat → Nat
  | 0, pos => pos
  | left + 1, pos => if (idx pos).lo < lo then placeLoop idx lo left (pos + 1) else pos

/-- The loop that makes room, from entry `i` on down. -/
def shiftRight (pos : Nat) : Nat → (Nat → Range) → Nat → Range
  | 0, idx => idx
  | i + 1, idx =>
    if pos < i + 1 then shiftRight pos i (update idx (i + 1) (idx i)) else idx

/-- The loop that closes the gap, with the entries that are left. -/
def shiftLeft : Nat → Nat → (Nat → Range) → Nat → Range
  | 0, _, idx => idx
  | left + 1, i, idx => shiftLeft left (i + 1) (update idx i (idx (i + 1)))

namespace Tier

def registerSheet (t : Tier) (sheet : Range) : Tier × Nat :=
  if maxSheets ≤ t.count then (t, maxSheets)
  else
    let pos := placeLoop t.idx sheet.lo t.count 0
    let lastHit :=
      if t.lastHit ≠ noHit maxSheets ∧ pos ≤ t.lastHit ∧ t.lastHit + 1 < maxSheets then
        t.lastHit + 1
      else t.lastHit
    (⟨update (shiftRight pos t.count t.idx) pos sheet, t.count + 1,
      maskInsert (detailWords maxSheets) t.spaceMask pos true, lastHit⟩, pos)

def unregister (t : Tier) (pos : Nat) : Tier :=
  if t.count ≤ pos then t
  else
    let lastHit :=
      if t.lastHit ≠ noHit maxSheets then
        if pos = t.lastHit then noHit maxSheets
        else if pos < t.lastHit then t.lastHit - 1 else t.lastHit
      else t.lastHit
    ⟨shiftLeft (t.count - (pos + 1)) pos t.idx, t.count - 1,
      maskRemove (detailWords maxSheets) t.spaceMask pos, lastHit⟩

def findLoop (idx : Nat → Range) (addr : Nat) (lo hi : Int) : Int :=
  if lo ≤ hi then
    let mid := lo + (hi - lo) / 2
    if addr < (idx mid.toNat).lo then findLoop idx addr lo (mid - 1)
    else if (idx mid.toNat).hi ≤ addr then findLoop idx addr (mid + 1) hi
    else mid
  else -1
termination_by (hi + 1 - lo).toNat
decreasing_by all_goals omega

def findRange (t : Tier) (addr : Nat) : Int := findLoop t.idx addr 0 (i32 t.count - 1)

def markExhausted (t : Tier) (pos : Nat) : Tier := { t with spaceMask := maskClear t.spaceMask pos }

def markAvailable (t : Tier) (pos : Nat) : Tier := { t with spaceMask := maskSet t.spaceMask pos }

end Tier

end

theorem getLsbD_lowMask {bit : Nat} (small : bit < 64) (r : Nat) :
    (lowMask bit).getLsbD r = decide (r < bit) := by
  have positive := Nat.two_pow_pos bit
  have below : 2 ^ bit < 2 ^ 64 := Nat.pow_lt_pow_right (by decide) small
  have value : (lowMask bit).toNat = 2 ^ bit - 1 := by
    unfold lowMask
    rw [BitVec.toNat_sub, BitVec.toNat_shiftLeft, Nat.shiftLeft_eq]
    simp only [BitVec.toNat_ofNat, Nat.reducePow, Nat.reduceMod, one_mul]
    omega
  rw [BitVec.getLsbD, value, Nat.testBit_two_pow_sub_one]

theorem getLsbD_top (w : BitVec 64) (r : Nat) :
    ((w >>> 63) &&& 1#64).getLsbD r = (decide (r = 0) && w.getLsbD 63) := by
  by_cases zero : r = 0
  · simp [zero]
  · simp [zero]

theorem getLsbD_bottom (w : BitVec 64) (r : Nat) :
    (w &&& 1#64).getLsbD r = (decide (r = 0) && w.getLsbD 0) := by
  by_cases zero : r = 0
  · simp [zero]
  · simp [zero]

theorem maskGet_maskSet (words : Words) (pos j : Nat) :
    maskGet (maskSet words pos) j = (maskGet words j || decide (j = pos)) := by
  unfold maskGet maskSet
  by_cases same : j / 64 = pos / 64
  · rw [same, update_self, getLsbD_or_bit _ (Nat.mod_lt _ (by decide))]
    congr 2
    exact propext ⟨fun bit => by omega, fun eq => by rw [eq]⟩
  · rw [update_of_ne same, decide_eq_false (fun eq => same (by rw [eq])), Bool.or_false]

theorem maskGet_maskClear (words : Words) (pos j : Nat) :
    maskGet (maskClear words pos) j = (maskGet words j && !decide (j = pos)) := by
  unfold maskGet maskClear
  by_cases same : j / 64 = pos / 64
  · rw [same, update_self, getLsbD_clear_bit _ (Nat.mod_lt _ (by decide))]
    congr 3
    exact propext ⟨fun bit => by omega, fun eq => by rw [eq]⟩
  · rw [update_of_ne same, decide_eq_false (fun eq => same (by rw [eq])), Bool.not_false,
      Bool.and_true]

theorem carryUp_apply : ∀ (left i : Nat) (c : BitVec 64) (words : Words) (q : Nat),
    carryUp left i c words q =
      if i ≤ q ∧ q < i + left then
        (words q <<< 1) ||| if q = i then c else (words (q - 1) >>> 63) &&& 1#64
      else words q := by
  intro left
  induction left with
  | zero =>
    intro i c words q
    rw [if_neg (by omega)]
    rfl
  | succ left ih =>
    intro i c words q
    rw [carryUp, ih]
    by_cases first : q = i
    · rw [if_neg (by omega), if_pos (by omega), if_pos first, first, update_self]
    · rw [update_of_ne first]
      by_cases inside : i ≤ q ∧ q < i + (left + 1)
      · rw [if_pos (by omega), if_pos inside, if_neg first]
        by_cases second : q = i + 1
        · rw [if_pos second, second, Nat.add_sub_cancel]
        · rw [if_neg second, update_of_ne (by omega)]
      · rw [if_neg (by omega), if_neg inside]

theorem carryDown_apply (detailWords : Nat) : ∀ (left i : Nat) (words : Words) (q : Nat),
    carryDown detailWords left i words q =
      if i ≤ q ∧ q < i + left then (words q >>> 1) ||| (carryIn detailWords words q <<< 63)
      else words q := by
  intro left
  induction left with
  | zero =>
    intro i words q
    rw [if_neg (by omega)]
    rfl
  | succ left ih =>
    intro i words q
    rw [carryDown, ih]
    by_cases first : q = i
    · rw [if_neg (by omega), if_pos (by omega), first, update_self]
    · rw [update_of_ne first]
      have above : i < q → carryIn detailWords (update words i
          ((words i >>> 1) ||| (carryIn detailWords words i <<< 63))) q =
            carryIn detailWords words q := by
        intro less
        unfold carryIn
        rw [update_of_ne (by omega)]
      by_cases inside : i ≤ q ∧ q < i + (left + 1)
      · rw [if_pos (by omega), if_pos inside, above (by omega)]
      · rw [if_neg (by omega), if_neg inside]

/-- A bit comes in, and the bits from its place on go up by one. -/
theorem maskGet_maskInsert {detailWords : Nat} (words : Words) {pos : Nat} (value : Bool) {j : Nat}
    (inside : j < 64 * detailWords) :
    maskGet (maskInsert detailWords words pos value) j =
      if j < pos then maskGet words j else if j = pos then value else maskGet words (j - 1) := by
  have small : pos % 64 < 64 := Nat.mod_lt _ (by decide)
  have bitSmall : j % 64 < 64 := Nat.mod_lt _ (by decide)
  unfold maskGet maskInsert
  rw [carryUp_apply]
  rcases lt_trichotomy (j / 64) (pos / 64) with less | same | more
  · rw [if_neg (by omega), update_of_ne (by omega), if_pos (by omega)]
  · -- the word of the new bit
    rw [if_neg (by omega), same, update_self]
    have low : (if pos % 64 = 0 then 0#64 else lowMask (pos % 64)).getLsbD (j % 64) =
        decide (j % 64 < pos % 64) := by
      split
      · rw [BitVec.getLsbD_zero, decide_eq_false (by omega)]
      · exact getLsbD_lowMask small _
    have high : (if pos % 64 = 63 then 0#64 else ~~~lowMask (pos % 64 + 1)).getLsbD (j % 64) =
        decide (pos % 64 < j % 64) := by
      split
      · rw [BitVec.getLsbD_zero, decide_eq_false (by omega)]
      · rw [BitVec.getLsbD_not, getLsbD_lowMask (by omega), decide_eq_true bitSmall, Bool.true_and,
          ← decide_not]
        exact decide_eq_decide.mpr (by omega)
    have own : ((if value then 1#64 else 0#64) <<< (pos % 64)).getLsbD (j % 64) =
        (decide (j % 64 = pos % 64) && value) := by
      cases value with
      | true => rw [if_pos rfl, getLsbD_one_shiftLeft small, Bool.and_true]
      | false =>
        rw [if_neg (by decide), BitVec.zero_shiftLeft, BitVec.getLsbD_zero, Bool.and_false]
    rw [BitVec.getLsbD_or, BitVec.getLsbD_or, BitVec.getLsbD_and, BitVec.getLsbD_and, low, high, own,
      BitVec.getLsbD_shiftLeft]
    rcases lt_trichotomy (j % 64) (pos % 64) with below | here | above
    · rw [if_pos (by omega)]
      simp [below, lt_asymm below, ne_of_lt below]
    · rw [if_neg (by omega), if_pos (by omega), here]
      simp
    · have word : (j - 1) / 64 = pos / 64 ∧ (j - 1) % 64 = j % 64 - 1 := by omega
      rw [if_neg (by omega), if_neg (by omega), word.1, word.2]
      have notFirst : ¬ j % 64 < 1 := by omega
      simp [above, lt_asymm above, ne_of_gt above, bitSmall, notFirst]
  · -- a word above, which takes the top bit of the one below it
    generalize (words (pos / 64) &&& _ ||| _ ||| _ : BitVec 64) = w
    rw [if_pos (by omega), update_of_ne (by omega), if_neg (by omega : ¬ j < pos),
      if_neg (by omega : ¬ j = pos)]
    have carry : (if j / 64 = pos / 64 + 1 then (words (pos / 64) >>> 63) &&& 1#64
        else (update words (pos / 64) w (j / 64 - 1) >>> 63) &&& 1#64) =
        (words (j / 64 - 1) >>> 63) &&& 1#64 := by
      split
      · rename_i next
        rw [next, Nat.add_sub_cancel]
      · rw [update_of_ne (by omega)]
    rw [carry, BitVec.getLsbD_or, getLsbD_top, BitVec.getLsbD_shiftLeft]
    by_cases first : j % 64 = 0
    · have word : (j - 1) / 64 = j / 64 - 1 ∧ (j - 1) % 64 = 63 := by omega
      rw [word.1, word.2, first]
      simp
    · have word : (j - 1) / 64 = j / 64 ∧ (j - 1) % 64 = j % 64 - 1 := by omega
      rw [word.1, word.2]
      have notFirst : ¬ j % 64 < 1 := by omega
      simp [first, bitSmall, notFirst]

/-- A bit goes, and the bits behind it come down by one. -/
theorem maskGet_maskRemove {detailWords : Nat} (words : Words) {pos : Nat} {j : Nat}
    (inside : j < 64 * detailWords) :
    maskGet (maskRemove detailWords words pos) j =
      if j < pos then maskGet words j
      else decide (j + 1 < 64 * detailWords) && maskGet words (j + 1) := by
  have small : pos % 64 < 64 := Nat.mod_lt _ (by decide)
  have bitSmall : j % 64 < 64 := Nat.mod_lt _ (by decide)
  unfold maskGet maskRemove
  rw [carryDown_apply]
  -- the bit behind the last one of a word
  have next : ∀ q, q = j / 64 → (carryIn detailWords words q <<< 63).getLsbD (j % 64) =
      (decide (j % 64 = 63) && (decide (j + 1 < 64 * detailWords) && (words (q + 1)).getLsbD 0)) := by
    rintro q rfl
    rw [BitVec.getLsbD_shiftLeft]
    unfold carryIn
    by_cases last : j % 64 = 63
    · have room : j + 1 < 64 * detailWords ↔ j / 64 + 1 < detailWords := by omega
      rw [last]
      split
      · rename_i more
        rw [getLsbD_bottom, decide_eq_true (room.mpr more)]
        simp
      · rename_i more
        rw [decide_eq_false (fun less => more (room.mp less))]
        simp
    · have : j % 64 < 63 := by omega
      simp [last, this]
  have behind : j % 64 = 63 → (j + 1) / 64 = j / 64 + 1 ∧ (j + 1) % 64 = 0 := by omega
  have within : j % 64 ≠ 63 → (j + 1) / 64 = j / 64 ∧ (j + 1) % 64 = j % 64 + 1 := by omega
  rcases Nat.lt_trichotomy (j / 64) (pos / 64) with less | same | more
  · rw [if_neg (by omega), update_of_ne (by omega), if_pos (by omega)]
  · -- the word of the bit that goes
    rw [if_neg (by omega), same, update_self]
    have low : (if pos % 64 = 0 then 0#64 else lowMask (pos % 64)).getLsbD (j % 64) =
        decide (j % 64 < pos % 64) := by
      split
      · rw [BitVec.getLsbD_zero, decide_eq_false (by omega)]
      · exact getLsbD_lowMask small _
    have high : (if pos % 64 = 0 then lowMask 63 else lowMask 63 &&& ~~~lowMask (pos % 64)).getLsbD
        (j % 64) = (decide (j % 64 < 63) && decide (pos % 64 ≤ j % 64)) := by
      split
      · rw [getLsbD_lowMask (by decide), decide_eq_true (by omega : pos % 64 ≤ j % 64), Bool.and_true]
      · rw [BitVec.getLsbD_and, BitVec.getLsbD_not, getLsbD_lowMask (by decide), getLsbD_lowMask small,
          decide_eq_true bitSmall, Bool.true_and, ← decide_not]
        exact congrArg _ (decide_eq_decide.mpr (by omega))
    rw [BitVec.getLsbD_or, BitVec.getLsbD_or, BitVec.getLsbD_and, BitVec.getLsbD_and, low, high,
      next _ same.symm, BitVec.getLsbD_ushiftRight]
    by_cases below : j < pos
    · have bits : j % 64 < pos % 64 := by omega
      rw [if_pos below]
      simp [bits, Nat.not_le.mpr bits, Nat.ne_of_lt (by omega : j % 64 < 63)]
    · have bits : ¬ j % 64 < pos % 64 := by omega
      rw [if_neg below]
      by_cases last : j % 64 = 63
      · rw [(behind last).1, (behind last).2, same]
        simp [last, show ¬ 63 < pos % 64 by omega]
      · have room : j + 1 < 64 * detailWords := by omega
        have early : j % 64 < 63 := by omega
        rw [(within last).1, (within last).2, same, Nat.add_comm 1 (j % 64)]
        simp [bits, last, room, early, Nat.le_of_not_lt bits]
  · generalize (words (pos / 64) &&& _ ||| _ ||| _ : BitVec 64) = w
    rw [if_pos (by omega), if_neg (by omega : ¬ j < pos)]
    have above : carryIn detailWords (update words (pos / 64) w) (j / 64) =
        carryIn detailWords words (j / 64) := by
      unfold carryIn
      rw [update_of_ne (by omega)]
    rw [above, update_of_ne (by omega), BitVec.getLsbD_or, next _ rfl,
      BitVec.getLsbD_ushiftRight]
    by_cases last : j % 64 = 63
    · rw [(behind last).1, (behind last).2, last]
      simp
    · have room : j + 1 < 64 * detailWords := by omega
      rw [(within last).1, (within last).2, Nat.add_comm 1 (j % 64)]
      simp [last, room]

/-! ## Entries -/

theorem placeLoop_spec (idx : Nat → Range) (lo : Nat) : ∀ (left pos : Nat),
    pos ≤ placeLoop idx lo left pos ∧ placeLoop idx lo left pos ≤ pos + left ∧
      (∀ j, pos ≤ j → j < placeLoop idx lo left pos → (idx j).lo < lo) ∧
      (placeLoop idx lo left pos < pos + left → lo ≤ (idx (placeLoop idx lo left pos)).lo) := by
  intro left
  induction left with
  | zero =>
    intro pos
    exact ⟨le_refl _, le_refl _, fun j le less => absurd less (Nat.not_lt.mpr le),
      fun wrong => absurd wrong (lt_irrefl _)⟩
  | succ left ih =>
    intro pos
    rw [placeLoop]
    split
    · rename_i below
      obtain ⟨low, high, all, stop⟩ := ih (pos + 1)
      refine ⟨by omega, by omega, fun j le less => ?_, fun less => stop (by omega)⟩
      rcases eq_or_lt_of_le le with rfl | more
      · exact below
      · exact all j more less
    · rename_i notBelow
      exact ⟨le_refl _, Nat.le_add_right _ _, fun j le less => absurd less (Nat.not_lt.mpr le),
        fun _ => Nat.not_lt.mp notBelow⟩

theorem shiftRight_apply (pos : Nat) : ∀ (i : Nat) (idx : Nat → Range) (j : Nat),
    shiftRight pos i idx j = if pos < j ∧ j ≤ i then idx (j - 1) else idx j := by
  intro i
  induction i with
  | zero =>
    intro idx j
    rw [if_neg (by omega)]
    rfl
  | succ i ih =>
    intro idx j
    rw [shiftRight]
    split
    · rw [ih]
      by_cases last : j = i + 1
      · rw [if_neg (by omega), if_pos (by omega), last, update_self, Nat.add_sub_cancel]
      · rw [update_of_ne last]
        by_cases inside : pos < j ∧ j ≤ i
        · rw [if_pos inside, if_pos (by omega), update_of_ne (by omega)]
        · rw [if_neg inside, if_neg (by omega)]
    · rw [if_neg (by omega)]

theorem shiftLeft_apply : ∀ (left i : Nat) (idx : Nat → Range) (j : Nat),
    shiftLeft left i idx j = if i ≤ j ∧ j < i + left then idx (j + 1) else idx j := by
  intro left
  induction left with
  | zero =>
    intro i idx j
    rw [if_neg (by omega)]
    rfl
  | succ left ih =>
    intro i idx j
    rw [shiftLeft, ih]
    by_cases first : j = i
    · rw [if_neg (by omega), if_pos (by omega), first, update_self]
    · by_cases inside : i ≤ j ∧ j < i + (left + 1)
      · rw [if_pos (by omega), if_pos inside, update_of_ne (by omega)]
      · rw [if_neg (by omega), if_neg inside, update_of_ne first]

def Range.Holds (r : Range) (addr : Nat) : Prop := r.lo ≤ addr ∧ addr < r.hi

/-- A tier with what the index is to tell of it: the sheets that it has, those of them that
were last registered or marked available, and the sheet of the last hit. -/
structure State where
  tier : Tier
  live : Range → Prop
  available : Range → Bool
  hit : Option Range

namespace State

variable (maxSheets : Nat)

def init : State := ⟨Tier.init maxSheets, fun _ => False, fun _ => false, none⟩

/-- The sheet is one that can be registered beside those that are there. -/
structure Fits (s : State) (sheet : Range) : Prop where
  proper : sheet.lo < sheet.hi
  small : sheet.hi < 2 ^ 64
  disjoint : ∀ r, s.live r → sheet.hi ≤ r.lo ∨ r.hi ≤ sheet.lo

def register (s : State) (sheet : Range) : State :=
  { s with
    tier := (s.tier.registerSheet maxSheets sheet).1
    live := fun r => s.live r ∨ (s.tier.count < maxSheets ∧ r = sheet)
    available := update s.available sheet true }

def unregister (s : State) (pos : Nat) : State :=
  { s with
    tier := s.tier.unregister maxSheets pos
    live := fun r => s.live r ∧ ¬ (pos < s.tier.count ∧ r = s.tier.idx pos)
    hit := if pos < s.tier.count ∧ s.hit = some (s.tier.idx pos) then none else s.hit }

inductive Step : State → State → Prop where
  | register (s : State) (sheet : Range) : s.Fits sheet → Step s (s.register maxSheets sheet)
  | unregister (s : State) (pos : Nat) : Step s (s.unregister maxSheets pos)
  | exhausted (s : State) (pos : Nat) : pos < s.tier.count →
      Step s { s with
        tier := s.tier.markExhausted pos
        available := update s.available (s.tier.idx pos) false }
  | available (s : State) (pos : Nat) : pos < s.tier.count →
      Step s { s with
        tier := s.tier.markAvailable pos
        available := update s.available (s.tier.idx pos) true }
  | hit (s : State) (pos : Nat) : pos < s.tier.count →
      Step s { s with
        tier := { s.tier with lastHit := pos }
        hit := some (s.tier.idx pos) }

def Reachable : State → Prop := Relation.ReflTransGen (Step maxSheets) (init maxSheets)

structure Consistent (s : State) : Prop where
  sheets : ∀ r, s.live r ↔ ∃ i, i < s.tier.count ∧ s.tier.idx i = r
  sorted : ∀ i j, i < j → j < s.tier.count → (s.tier.idx i).lo < (s.tier.idx j).lo
  bits : ∀ j, j < 64 * detailWords maxSheets → maskGet s.tier.spaceMask j =
    (decide (j < s.tier.count) && s.available (s.tier.idx j))
  lastHit : s.tier.lastHit ≠ noHit maxSheets →
    s.tier.lastHit < s.tier.count ∧ s.hit = some (s.tier.idx s.tier.lastHit)
  found : ∀ addr pos, pos < s.tier.count → (s.tier.idx pos).Holds addr →
    s.tier.findRange addr = pos
  missed : ∀ addr, (∀ r, s.live r → ¬ r.Holds addr) → s.tier.findRange addr = -1

/-- What every step keeps, however many sheets there are. -/
structure Index (s : State) : Prop where
  bound : s.tier.count ≤ maxSheets
  proper : ∀ i, i < s.tier.count → (s.tier.idx i).lo < (s.tier.idx i).hi
  apart : ∀ i j, i < j → j < s.tier.count → (s.tier.idx i).hi ≤ (s.tier.idx j).lo
  sheets : ∀ r, s.live r ↔ ∃ i, i < s.tier.count ∧ s.tier.idx i = r
  bits : ∀ j, j < 64 * detailWords maxSheets → maskGet s.tier.spaceMask j =
    (decide (j < s.tier.count) && s.available (s.tier.idx j))
  lastHit : s.tier.lastHit ≠ noHit maxSheets →
    s.tier.lastHit < s.tier.count ∧ s.hit = some (s.tier.idx s.tier.lastHit)

variable {maxSheets : Nat} {s : State}

theorem Index.lo_lt (index : Index maxSheets s) {i j : Nat} (less : i < j)
    (inside : j < s.tier.count) : (s.tier.idx i).lo < (s.tier.idx j).lo :=
  lt_of_lt_of_le (index.proper i (lt_trans less inside)) (index.apart i j less inside)

/-- Two entries are not the same sheet. -/
theorem Index.injective (index : Index maxSheets s) {i j : Nat} (insideI : i < s.tier.count)
    (insideJ : j < s.tier.count) (same : s.tier.idx i = s.tier.idx j) : i = j := by
  rcases lt_trichotomy i j with less | eq | more
  · have := index.lo_lt less insideJ
    rw [same] at this
    exact absurd this (lt_irrefl _)
  · exact eq
  · have := index.lo_lt more insideI
    rw [same] at this
    exact absurd this (lt_irrefl _)

/-- Either the words have a bit for every sheet, or there are none. -/
theorem le_detailWords {j : Nat} (small : maxSheets < 2 ^ 32)
    (inside : j < 64 * detailWords maxSheets) : maxSheets ≤ 64 * detailWords maxSheets := by
  unfold detailWords at *
  omega

theorem Index.init : Index maxSheets (init maxSheets) where
  bound := Nat.zero_le _
  proper i inside := absurd inside (Nat.not_lt_zero _)
  apart i j less inside := absurd inside (Nat.not_lt_zero _)
  sheets r := ⟨fun wrong => wrong.elim, fun ⟨_, inside, _⟩ => absurd inside (Nat.not_lt_zero _)⟩
  bits j inside := by
    change (0#64).getLsbD (j % 64) = (decide (j < 0) && false)
    rw [BitVec.getLsbD_zero, Bool.and_false]
  lastHit set := absurd rfl set

theorem register_idx (t : Tier) (sheet : Range) (room : t.count < maxSheets) (j : Nat) :
    (t.registerSheet maxSheets sheet).1.idx j =
      if j = placeLoop t.idx sheet.lo t.count 0 then sheet
      else if placeLoop t.idx sheet.lo t.count 0 < j ∧ j ≤ t.count then t.idx (j - 1)
      else t.idx j := by
  rw [Tier.registerSheet, if_neg (Nat.not_le.mpr room)]
  dsimp only
  rw [update_apply, shiftRight_apply]

/-- The place of a sheet is between those below it and those above it. -/
theorem Index.place (index : Index maxSheets s) {sheet : Range} (fits : s.Fits sheet) :
    placeLoop s.tier.idx sheet.lo s.tier.count 0 ≤ s.tier.count ∧
      (∀ j, j < placeLoop s.tier.idx sheet.lo s.tier.count 0 → (s.tier.idx j).hi ≤ sheet.lo) ∧
      ∀ j, placeLoop s.tier.idx sheet.lo s.tier.count 0 ≤ j → j < s.tier.count →
        sheet.hi ≤ (s.tier.idx j).lo := by
  obtain ⟨_, high, below, stop⟩ := placeLoop_spec s.tier.idx sheet.lo s.tier.count 0
  generalize placeLoop s.tier.idx sheet.lo s.tier.count 0 = pos at *
  have proper := fits.proper
  have disjoint : ∀ j, j < s.tier.count →
      sheet.hi ≤ (s.tier.idx j).lo ∨ (s.tier.idx j).hi ≤ sheet.lo := fun j inside =>
    fits.disjoint _ ((index.sheets _).mpr ⟨j, inside, rfl⟩)
  refine ⟨by omega, fun j less => ?_, fun j le inside => ?_⟩
  · have := below j (Nat.zero_le _) less
    have := disjoint j (by omega)
    omega
  · have first := stop (by omega)
    have mine := index.proper j inside
    have := disjoint j inside
    rcases eq_or_lt_of_le le with rfl | less
    · omega
    · have := index.lo_lt less inside
      omega

theorem Index.register (index : Index maxSheets s) (small : maxSheets < 2 ^ 32) {sheet : Range}
    (fits : s.Fits sheet) : Index maxSheets (s.register maxSheets sheet) := by
  obtain ⟨high, below, above⟩ := index.place fits
  have proper := fits.proper
  have other : ∀ j, j < s.tier.count → s.tier.idx j ≠ sheet := by
    rintro j inside rfl
    have := fits.disjoint _ ((index.sheets _).mpr ⟨j, inside, rfl⟩)
    omega
  by_cases room : s.tier.count < maxSheets
  · have idx := register_idx s.tier sheet room
    have count : (s.register maxSheets sheet).tier.count = s.tier.count + 1 := by
      unfold State.register Tier.registerSheet
      rw [if_neg (Nat.not_le.mpr room)]
    have mask : (s.register maxSheets sheet).tier.spaceMask =
        maskInsert (detailWords maxSheets) s.tier.spaceMask
          (placeLoop s.tier.idx sheet.lo s.tier.count 0) true := by
      unfold State.register Tier.registerSheet
      rw [if_neg (Nat.not_le.mpr room)]
    have last : (s.register maxSheets sheet).tier.lastHit =
        if s.tier.lastHit ≠ noHit maxSheets ∧
          placeLoop s.tier.idx sheet.lo s.tier.count 0 ≤ s.tier.lastHit ∧
          s.tier.lastHit + 1 < maxSheets then s.tier.lastHit + 1 else s.tier.lastHit := by
      unfold State.register Tier.registerSheet
      rw [if_neg (Nat.not_le.mpr room)]
    generalize placeLoop s.tier.idx sheet.lo s.tier.count 0 = pos at *
    change ∀ j, (s.register maxSheets sheet).tier.idx j = _ at idx
    refine ⟨by omega, fun i inside => ?_, fun i j less inside => ?_, fun r => ⟨?_, ?_⟩,
      fun j inside => ?_, fun set => ?_⟩
    · rw [idx]
      split
      · exact proper
      · split
        · exact index.proper _ (by omega)
        · exact index.proper _ (by omega)
    · rw [idx, idx]
      rcases lt_trichotomy j pos with early | rfl | late
      · rw [if_neg (by omega), if_neg (by omega), if_neg (by omega), if_neg (by omega)]
        exact index.apart i j less (by omega)
      · rw [if_neg (by omega), if_neg (by omega), if_pos rfl]
        exact below i less
      · rw [if_neg (by omega : ¬ j = pos), if_pos (by omega : pos < j ∧ j ≤ s.tier.count)]
        split
        · exact above (j - 1) (by omega) (by omega)
        · split
          · exact index.apart (i - 1) (j - 1) (by omega) (by omega)
          · exact index.apart i (j - 1) (by omega) (by omega)
    · rintro (old | ⟨_, rfl⟩)
      · obtain ⟨i, inside, rfl⟩ := (index.sheets r).mp old
        by_cases early : i < pos
        · exact ⟨i, by omega, by rw [idx, if_neg (by omega), if_neg (by omega)]⟩
        · exact ⟨i + 1, by omega, by
            rw [idx, if_neg (by omega), if_pos (by omega), Nat.add_sub_cancel]⟩
      · exact ⟨pos, by omega, by rw [idx, if_pos rfl]⟩
    · rintro ⟨i, inside, rfl⟩
      rw [idx]
      split
      · exact .inr ⟨room, rfl⟩
      · split
        · exact .inl ((index.sheets _).mpr ⟨i - 1, by omega, rfl⟩)
        · exact .inl ((index.sheets _).mpr ⟨i, by omega, rfl⟩)
    · change _ = (_ && update s.available sheet true _)
      rw [mask, maskGet_maskInsert _ _ inside, count, idx]
      rcases lt_trichotomy j pos with early | rfl | late
      · rw [if_pos early, if_neg (by omega), if_neg (by omega), index.bits j inside,
          update_of_ne (other j (by omega)), decide_eq_true (by omega),
          decide_eq_true (by omega)]
      · rw [if_neg (by omega), if_pos rfl, if_pos rfl, update_self,
          decide_eq_true (by omega)]
        rfl
      · rw [if_neg (by omega), if_neg (by omega), if_neg (by omega), index.bits (j - 1) (by omega)]
        by_cases there : j ≤ s.tier.count
        · rw [if_pos ⟨late, there⟩, update_of_ne (other (j - 1) (by omega)),
            decide_eq_true (by omega), decide_eq_true (by omega)]
        · rw [decide_eq_false (by omega), decide_eq_false (by omega), Bool.false_and,
            Bool.false_and]
    · change _ ∧ s.hit = _
      rw [last] at set ⊢
      have old : s.tier.lastHit ≠ noHit maxSheets := by
        intro none
        rw [if_neg (fun both => both.1 none)] at set
        exact set none
      obtain ⟨inside, hit⟩ := index.lastHit old
      by_cases moved : pos ≤ s.tier.lastHit
      · rw [if_pos ⟨old, moved, by omega⟩, idx, if_neg (by omega), if_pos (by omega),
          Nat.add_sub_cancel]
        exact ⟨by omega, hit⟩
      · rw [if_neg (fun both => moved both.2.1), idx, if_neg (by omega), if_neg (by omega)]
        exact ⟨by omega, hit⟩
  · -- the tier is full and does not change
    have same : (s.register maxSheets sheet).tier = s.tier := by
      unfold State.register Tier.registerSheet
      rw [if_pos (Nat.not_lt.mp room)]
    refine ⟨same ▸ index.bound, same ▸ index.proper, same ▸ index.apart, fun r => ?_,
      fun j inside => ?_, same ▸ index.lastHit⟩
    · rw [same, ← index.sheets r]
      exact ⟨fun new => new.elim id fun wrong => absurd wrong.1 room, fun old => .inl old⟩
    · rw [same, index.bits j inside]
      by_cases there : j < s.tier.count
      · exact congrArg _ (update_of_ne (other j there) _ _).symm
      · rw [decide_eq_false there, Bool.false_and, Bool.false_and]

/-! ### A sheet goes -/

theorem Index.unregister (index : Index maxSheets s) (small : maxSheets < 2 ^ 32) (pos : Nat) :
    Index maxSheets (s.unregister maxSheets pos) := by
  by_cases there : pos < s.tier.count
  · have shape : s.tier.unregister maxSheets pos =
        ⟨shiftLeft (s.tier.count - (pos + 1)) pos s.tier.idx, s.tier.count - 1,
          maskRemove (detailWords maxSheets) s.tier.spaceMask pos,
          if s.tier.lastHit ≠ noHit maxSheets then
            if pos = s.tier.lastHit then noHit maxSheets
            else if pos < s.tier.lastHit then s.tier.lastHit - 1 else s.tier.lastHit
          else s.tier.lastHit⟩ := by
      rw [Tier.unregister, if_neg (Nat.not_le.mpr there)]
    have idx : ∀ j, j < s.tier.count - 1 → (s.unregister maxSheets pos).tier.idx j =
        s.tier.idx (if pos ≤ j then j + 1 else j) := by
      intro j inside
      unfold State.unregister
      dsimp only
      refine (congrFun (congrArg Tier.idx shape) j).trans ?_
      dsimp only
      rw [shiftLeft_apply]
      by_cases late : pos ≤ j
      · rw [if_pos ⟨late, by omega⟩, if_pos late]
      · rw [if_neg (fun both => late both.1), if_neg late]
    have count : (s.unregister maxSheets pos).tier.count = s.tier.count - 1 :=
      congrArg Tier.count shape
    have mask : (s.unregister maxSheets pos).tier.spaceMask =
        maskRemove (detailWords maxSheets) s.tier.spaceMask pos := congrArg Tier.spaceMask shape
    have last : (s.unregister maxSheets pos).tier.lastHit =
        if s.tier.lastHit ≠ noHit maxSheets then
          if pos = s.tier.lastHit then noHit maxSheets
          else if pos < s.tier.lastHit then s.tier.lastHit - 1 else s.tier.lastHit
        else s.tier.lastHit := congrArg Tier.lastHit shape
    have bound := index.bound
    refine ⟨by omega, fun i inside => ?_, fun i j less inside => ?_, fun r => ⟨?_, ?_⟩,
      fun j inside => ?_, fun set => ?_⟩
    · rw [idx i (by omega)]
      exact index.proper _ (by split <;> omega)
    · rw [idx i (by omega), idx j (by omega)]
      exact index.apart _ _ (by split <;> split <;> omega) (by split <;> omega)
    · rintro ⟨old, stays⟩
      obtain ⟨i, inside, rfl⟩ := (index.sheets r).mp old
      have moved : i ≠ pos := fun eq => stays ⟨there, by rw [eq]⟩
      by_cases early : i < pos
      · exact ⟨i, by omega, by rw [idx i (by omega), if_neg (by omega)]⟩
      · exact ⟨i - 1, by omega, by
          rw [idx (i - 1) (by omega), if_pos (by omega), Nat.sub_add_cancel (by omega)]⟩
    · rintro ⟨i, inside, rfl⟩
      rw [count] at inside
      have old : (if pos ≤ i then i + 1 else i) < s.tier.count := by split <;> omega
      rw [idx i inside]
      refine ⟨(index.sheets _).mpr ⟨_, old, rfl⟩, fun ⟨_, same⟩ => ?_⟩
      have := index.injective old there same
      split at this <;> omega
    · change _ = (_ && s.available _)
      have all := le_detailWords small inside
      rw [mask, maskGet_maskRemove _ inside, count]
      by_cases left : j < s.tier.count - 1
      · rw [idx j left, decide_eq_true left]
        by_cases early : j < pos
        · rw [if_pos early, if_neg (by omega), index.bits j inside, decide_eq_true (by omega)]
        · rw [if_neg early, if_pos (by omega), index.bits (j + 1) (by omega),
            decide_eq_true (by omega : j + 1 < 64 * detailWords maxSheets),
            decide_eq_true (by omega), Bool.true_and]
      · rw [decide_eq_false left, Bool.false_and, if_neg (by omega)]
        by_cases more : j + 1 < 64 * detailWords maxSheets
        · rw [index.bits (j + 1) more, decide_eq_false (by omega : ¬ j + 1 < s.tier.count),
            Bool.false_and, Bool.and_false]
        · rw [decide_eq_false more, Bool.false_and]
    · rw [last] at set ⊢
      have old : s.tier.lastHit ≠ noHit maxSheets := by
        intro none
        rw [if_neg (fun some => some none)] at set
        exact set none
      rw [if_pos old] at set ⊢
      obtain ⟨inside, hit⟩ := index.lastHit old
      have other : pos ≠ s.tier.lastHit := by
        intro same
        rw [if_pos same] at set
        exact set rfl
      have kept : (s.unregister maxSheets pos).hit = s.hit := by
        refine if_neg fun both => other ?_
        rw [hit] at both
        exact (index.injective inside there (Option.some.inj both.2)).symm
      rw [if_neg other, kept, hit, count]
      by_cases less : pos < s.tier.lastHit
      · rw [if_pos less, idx _ (by omega), if_pos (by omega), Nat.sub_add_cancel (by omega)]
        exact ⟨by omega, rfl⟩
      · rw [if_neg less, idx _ (by omega), if_neg (by omega)]
        exact ⟨by omega, rfl⟩
  · have same : s.unregister maxSheets pos = s := by
      unfold State.unregister Tier.unregister
      rw [if_pos (Nat.not_lt.mp there), if_neg (fun both => there both.1)]
      simp only [there, false_and, not_false_eq_true, and_true]
    rw [same]
    exact index

theorem Index.bits_update (index : Index maxSheets s) {pos : Nat} (there : pos < s.tier.count)
    (value : Bool) {j : Nat} (inside : j < s.tier.count) :
    update s.available (s.tier.idx pos) value (s.tier.idx j) =
      if j = pos then value else s.available (s.tier.idx j) := by
  by_cases same : j = pos
  · rw [if_pos same, same, update_self]
  · rw [if_neg same, update_of_ne fun eq => same (index.injective inside there eq)]

theorem Index.step (index : Index maxSheets s) (small : maxSheets < 2 ^ 32) {s' : State}
    (step : Step maxSheets s s') : Index maxSheets s' := by
  cases step with
  | register sheet fits => exact index.register small fits
  | unregister pos => exact index.unregister small pos
  | exhausted pos there =>
    refine ⟨index.bound, index.proper, index.apart, index.sheets, fun j inside => ?_,
      index.lastHit⟩
    change maskGet (maskClear s.tier.spaceMask pos) j =
      (decide (j < s.tier.count) && update s.available (s.tier.idx pos) false (s.tier.idx j))
    rw [maskGet_maskClear, index.bits j inside]
    by_cases live : j < s.tier.count
    · rw [index.bits_update there false live, decide_eq_true live, Bool.true_and, Bool.true_and]
      by_cases same : j = pos
      · rw [if_pos same, decide_eq_true same, Bool.not_true, Bool.and_false]
      · rw [if_neg same, decide_eq_false same, Bool.not_false, Bool.and_true]
    · rw [decide_eq_false live, Bool.false_and, Bool.false_and, Bool.false_and]
  | available pos there =>
    refine ⟨index.bound, index.proper, index.apart, index.sheets, fun j inside => ?_,
      index.lastHit⟩
    change maskGet (maskSet s.tier.spaceMask pos) j =
      (decide (j < s.tier.count) && update s.available (s.tier.idx pos) true (s.tier.idx j))
    rw [maskGet_maskSet, index.bits j inside]
    by_cases live : j < s.tier.count
    · rw [index.bits_update there true live, decide_eq_true live, Bool.true_and, Bool.true_and]
      by_cases same : j = pos
      · rw [if_pos same, decide_eq_true same, Bool.or_true]
      · rw [if_neg same, decide_eq_false same, Bool.or_false]
    · rw [decide_eq_false live, Bool.false_and, Bool.false_and,
        decide_eq_false (by omega : ¬ j = pos)]
      rfl
  | hit pos there =>
    exact ⟨index.bound, index.proper, index.apart, index.sheets, index.bits,
      fun _ => ⟨there, rfl⟩⟩

theorem Reachable.index (small : maxSheets < 2 ^ 32) (reachable : Reachable maxSheets s) :
    Index maxSheets s := by
  induction reachable with
  | refl => exact Index.init
  | tail _ step ih => exact ih.step small step

/-- While the sheets outside of the bounds do not hold the address, the search ends at the one
that does. -/
theorem Index.findLoop (index : Index maxSheets s) (addr : Nat) (lo hi : Int) (low : 0 ≤ lo)
    (high : hi < s.tier.count)
    (below : ∀ i : Nat, (i : Int) < lo → i < s.tier.count → (s.tier.idx i).hi ≤ addr)
    (above : ∀ i : Nat, hi < (i : Int) → i < s.tier.count → addr < (s.tier.idx i).lo) :
    (∃ pos : Nat, Tier.findLoop s.tier.idx addr lo hi = pos ∧ pos < s.tier.count ∧
        (s.tier.idx pos).Holds addr) ∨
      (Tier.findLoop s.tier.idx addr lo hi = -1 ∧
        ∀ i, i < s.tier.count → ¬ (s.tier.idx i).Holds addr) := by
  rw [Tier.findLoop]
  by_cases more : lo ≤ hi
  · rw [if_pos more]
    dsimp only
    obtain ⟨mid, middle⟩ := Int.eq_ofNat_of_zero_le (by omega : 0 ≤ lo + (hi - lo) / 2)
    rw [middle, Int.toNat_natCast]
    split
    · rename_i less
      refine Index.findLoop index addr lo (mid - 1) low (by omega) below fun i later inside => ?_
      rcases eq_or_lt_of_le (by omega : mid ≤ i) with rfl | behind
      · exact less
      · exact lt_trans less (index.lo_lt behind inside)
    · split
      · rename_i past
        refine Index.findLoop index addr (mid + 1) hi (by omega) high (fun i under inside => ?_) above
        rcases eq_or_lt_of_le (by omega : i ≤ mid) with rfl | earlier
        · exact past
        · have := index.apart i mid earlier (by omega)
          omega
      · exact .inl ⟨mid, rfl, by omega, by unfold Range.Holds; omega⟩
  · rw [if_neg more]
    refine .inr ⟨rfl, fun i inside holds => ?_⟩
    unfold Range.Holds at holds
    by_cases under : (i : Int) < lo
    · have := below i under inside
      omega
    · have := above i (by omega) inside
      omega
termination_by (hi + 1 - lo).toNat
decreasing_by all_goals omega

theorem i32_of_small {x : Nat} (small : x < 2 ^ 31) : i32 x = x := by
  unfold i32
  omega

theorem Index.consistent (index : Index maxSheets s) (small : s.tier.count < 2 ^ 31) :
    Consistent maxSheets s := by
  have search : ∀ addr, _ := fun addr => index.findLoop addr 0 (i32 s.tier.count - 1) (by decide)
    (by rw [i32_of_small small]; omega) (fun i less => by omega)
    (fun i less inside => by rw [i32_of_small small] at less; omega)
  refine ⟨index.sheets, fun i j less inside => index.lo_lt less inside, index.bits, index.lastHit,
    fun addr pos there holds => ?_, fun addr none => ?_⟩
  · rcases search addr with ⟨pos', found, there', holds'⟩ | ⟨_, missed⟩
    · refine found.trans (congrArg _ ?_)
      unfold Range.Holds at holds holds'
      rcases lt_trichotomy pos' pos with less | same | more
      · have := index.apart pos' pos less there
        omega
      · exact same
      · have := index.apart pos pos' more there'
        omega
    · exact absurd holds (missed pos there)
  · rcases search addr with ⟨pos, _, there, holds⟩ | ⟨missed, _⟩
    · exact absurd holds (none _ ((index.sheets _).mpr ⟨pos, there, rfl⟩))
    · exact missed

/-- With as many sheets the last position is negative, and no sheet is found. -/
theorem Index.not_consistent (index : Index maxSheets s) (small : maxSheets < 2 ^ 32)
    (many : 2 ^ 31 ≤ s.tier.count) : ¬ Consistent maxSheets s := by
  intro consistent
  have bound := index.bound
  have proper := index.proper 0 (by omega)
  have negative : ¬ 0 ≤ i32 s.tier.count - 1 := by
    unfold i32
    omega
  have found := consistent.found _ 0 (by omega) ⟨le_refl _, proper⟩
  rw [Tier.findRange, Tier.findLoop, if_neg negative] at found
  exact absurd found (by decide)

/-! ### A tier with many sheets -/

/-- The sheets lie side by side, the next one above the others. -/
theorem exists_count {n : Nat} (room : n ≤ maxSheets) (small : maxSheets < 2 ^ 32) :
    ∃ s, Reachable maxSheets s ∧ s.tier.count = n ∧ ∀ r, s.live r → r.hi ≤ 16 * n := by
  induction n with
  | zero => exact ⟨State.init maxSheets, .refl, rfl, fun r wrong => wrong.elim⟩
  | succ n ih =>
    obtain ⟨s, reachable, count, below⟩ := ih (by omega)
    have fits : s.Fits ⟨16 * n, 16 * n + 16, n⟩ :=
      ⟨by dsimp only; omega, by dsimp only; omega, fun r live => .inr (below r live)⟩
    refine ⟨_, reachable.tail (.register s _ fits), ?_, fun r live => ?_⟩
    · unfold State.register Tier.registerSheet
      rw [if_neg (by omega), ← count]
    · rcases live with old | ⟨_, rfl⟩
      · have := below r old
        omega
      · dsimp only
        omega

/-- The index is right in every state if and only if the number of sheets fits the signed
position of the search. -/
theorem index_consistent (maxSheets : Nat) (small : maxSheets < 2 ^ 32) :
    (∀ s, Reachable maxSheets s → Consistent maxSheets s) ↔ maxSheets < 2 ^ 31 := by
  constructor
  · intro all
    refine Nat.lt_of_not_le fun many => ?_
    obtain ⟨s, reachable, count, _⟩ := exists_count many small
    exact (reachable.index small).not_consistent small (by omega) (all s reachable)
  · intro few s reachable
    have index := reachable.index small
    exact index.consistent (Nat.lt_of_le_of_lt index.bound few)

/-- Two sheets below the first one, and the one in the middle taken out. -/
theorem index_consistent_tier :
    Consistent 130 (((((State.init 130).register 130 ⟨8192, 12288, 1⟩).register 130
      ⟨0, 4096, 2⟩).register 130 ⟨4096, 8192, 3⟩).unregister 130 1) := by
  refine (index_consistent 130 (by decide)).mpr (by decide) _ ?_
  have first : (State.init 130).Fits ⟨8192, 12288, 1⟩ :=
    ⟨by decide, by decide, fun _ wrong => wrong.elim⟩
  have second : ((State.init 130).register 130 ⟨8192, 12288, 1⟩).Fits ⟨0, 4096, 2⟩ := by
    refine ⟨by decide, by decide, fun r live => ?_⟩
    rcases live with wrong | ⟨_, rfl⟩
    · exact wrong.elim
    · exact .inl (by decide)
  have third : (((State.init 130).register 130 ⟨8192, 12288, 1⟩).register 130
      ⟨0, 4096, 2⟩).Fits ⟨4096, 8192, 3⟩ := by
    refine ⟨by decide, by decide, fun r live => ?_⟩
    rcases live with (wrong | ⟨_, rfl⟩) | ⟨_, rfl⟩
    · exact wrong.elim
    · exact .inl (by decide)
    · exact .inr (by decide)
  exact (((Relation.ReflTransGen.single (.register _ _ first)).tail
    (.register _ _ second)).tail (.register _ _ third)).tail (.unregister _ 1)

/-- A tier for more sheets than a signed position can count. -/
theorem index_loses_sheets :
    ¬ ∀ s, Reachable (2 ^ 31 + 1) s → Consistent (2 ^ 31 + 1) s := by
  intro all
  obtain ⟨s, reachable, count, _⟩ :=
    @exists_count (2 ^ 31 + 1) (2 ^ 31 + 1) (le_refl _) (by decide)
  exact (reachable.index (by decide)).not_consistent (by decide) (by omega) (all s reachable)

end State

end Micron.Arena
