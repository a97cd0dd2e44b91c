import Micron.Radix.Emit

/-!
# The number that is read

Reading keeps of the number that the digits stand for what the width holds, below
the threshold and above it.
-/

set_option autoImplicit false

namespace Micron.Radix

open Micron.Lib List Nat

theorem keep_le (bits x : Nat) : keep bits x ≤ x := by
  rw [keep]
  split
  · exact le_refl x
  · exact mod_le _ _

theorem keep_mul_add (bits x y z : Nat) :
    keep bits (keep bits x * y + z) = keep bits (x * y + z) := by
  unfold keep
  split
  · rfl
  · rw [add_mod, mod_mul_mod, ← add_mod]

theorem keep_mul (bits x y : Nat) : keep bits (x * keep bits y) = keep bits (x * y) := by
  unfold keep
  split
  · rfl
  · rw [mul_mod_mod]

theorem keep_add (bits x y : Nat) : keep bits (keep bits x + keep bits y) = keep bits (x + y) := by
  unfold keep
  split
  · rfl
  · rw [← add_mod]

theorem keep_of_fits {bits x : Nat} (fits : bits ≠ 0 → x < 2 ^ bits) : keep bits x = x := by
  rw [keep]
  split
  · rfl
  · rename_i bounded
    exact mod_eq_of_lt (fits bounded)

theorem keep_lt {bits : Nat} (bounded : bits ≠ 0) (x : Nat) : keep bits x < 2 ^ bits := by
  rw [keep, if_neg bounded]
  exact Nat.mod_lt _ (Nat.two_pow_pos bits)

theorem towerAt_eq {base : Nat} (low : 2 ≤ base) (high : base ≤ 36) (bits k : Nat) :
    towerAt bits base k = keep bits (base ^ ((largestPower base).per * 2 ^ k)) := by
  induction k with
  | zero => rw [towerAt, big_eq low high, pow_zero, mul_one]
  | succ k ih =>
    rw [towerAt, ih]
    have first := keep_mul_add bits (base ^ ((largestPower base).per * 2 ^ k))
      (keep bits (base ^ ((largestPower base).per * 2 ^ k))) 0
    rw [add_zero, add_zero] at first
    rw [first, keep_mul, ← pow_add, pow_succ, ← mul_assoc, mul_two]

def valueOf (base : Nat) (text : List Char) : Nat := horner base (text.map digitValue)

theorem valueOf_append (base : Nat) (front back : List Char) :
    valueOf base (front ++ back) = valueOf base front * base ^ back.length + valueOf base back := by
  rw [valueOf, map_append, horner_append, length_map, valueOf, valueOf]

def Digital (base : Nat) (text : List Char) : Prop := ∀ c ∈ text, digitValue c < base

theorem valueOf_lt {base : Nat} {text : List Char} (digital : Digital base text) :
    valueOf base text < base ^ text.length := by
  have bound : horner base (text.map digitValue) < base ^ (text.map digitValue).length := by
    refine horner_lt ?_
    intro d member
    obtain ⟨c, inside, rfl⟩ := mem_map.mp member
    exact digital c inside
  rw [length_map] at bound
  exact bound

section Reading
variable {base : Nat} {text : List Char}

theorem Digital.take (digital : Digital base text) (n : Nat) : Digital base (text.take n) :=
  fun c member => digital c (mem_of_mem_take member)

theorem Digital.drop (digital : Digital base text) (n : Nat) : Digital base (text.drop n) :=
  fun c member => digital c (mem_of_mem_drop member)

theorem readChunk_eq (digital : Digital base text) {chunk : Nat}
    (small : chunk * base ^ text.length + valueOf base text < 2 ^ 64) :
    readChunk base text chunk = some (chunk * base ^ text.length + valueOf base text) := by
  induction text generalizing chunk with
  | nil => simp [readChunk, valueOf, horner]
  | cons c text ih =>
    have head : digitValue c < base := digital c mem_cons_self
    have tail : Digital base text := fun d member => digital d (mem_cons_of_mem _ member)
    have single : valueOf base [c] = digitValue c := by simp [valueOf, horner]
    have split := valueOf_append base [c] text
    rw [single, singleton_append] at split
    have same : chunk * base ^ (c :: text).length + valueOf base (c :: text) =
        (chunk * base + digitValue c) * base ^ text.length + valueOf base text := by
      rw [split, length_cons, pow_succ']
      ring
    rw [same] at small ⊢
    have positive : 0 < base ^ text.length := Nat.pow_pos (Nat.lt_of_le_of_lt (Nat.zero_le _) head)
    have limbSized : chunk * base + digitValue c < 2 ^ 64 := by
      refine lt_of_le_of_lt ?_ small
      exact le_trans (Nat.le_mul_of_pos_right _ positive) (Nat.le_add_right _ _)
    rw [readChunk]
    simp only [if_neg (not_le.mpr head), mod_eq_of_lt limbSized]
    exact ih tail small

theorem readChunk_of_short (low : 2 ≤ base) (high : base ≤ 36) (digital : Digital base text)
    (short : text.length ≤ (largestPower base).per) :
    readChunk base text 0 = some (valueOf base text) := by
  have small : 0 * base ^ text.length + valueOf base text < 2 ^ 64 := by
    rw [zero_mul, zero_add]
    refine lt_trans (valueOf_lt digital) (lt_of_le_of_lt ?_ (big_lt low high))
    exact Nat.pow_le_pow_right (le_trans (by decide) low) short
  rw [readChunk_eq digital small, zero_mul, zero_add]

theorem readChunks_eq (low : 2 ≤ base) (high : base ≤ 36) (bits : Nat) {m o fuel : Nat}
    (digital : Digital base text) (whole : text.length = m * (largestPower base).per)
    (enough : m ≤ fuel) :
    readChunks bits base (largestPower base) fuel (keep bits o) text =
      some (keep bits (o * base ^ text.length + valueOf base text)) := by
  have per := per_pos low high
  induction m generalizing text o fuel with
  | zero =>
    have none : text = [] := length_eq_zero_iff.mp (by rw [whole, zero_mul])
    subst none
    cases fuel <;> simp [readChunks, valueOf, horner]
  | succ m ih =>
    cases fuel with
    | zero => omega
    | succ fuel =>
      rw [succ_mul] at whole
      have some : text ≠ [] := by
        rintro rfl
        rw [length_nil] at whole
        omega
      have length : (text.take (largestPower base).per).length = (largestPower base).per := by
        rw [length_take]
        omega
      have chunk := readChunk_of_short low high (digital.take (largestPower base).per)
        (le_of_eq length)
      have rest : (text.drop (largestPower base).per).length = m * (largestPower base).per := by
        rw [length_drop]
        omega
      have split := valueOf_append base (text.take (largestPower base).per)
        (text.drop (largestPower base).per)
      rw [take_append_drop] at split
      rw [readChunks, if_neg some]
      simp only [chunk, Option.bind_eq_bind, Option.bind_some, mulAdd1, keep_mul_add]
      rw [ih (digital.drop _) rest (le_of_succ_le_succ enough), big_eq low high, rest, split,
        rest, whole, pow_add]
      ring

theorem fromCharsBasecase_eq (low : 2 ≤ base) (high : base ≤ 36) (bits : Nat)
    (digital : Digital base text) (nonempty : text ≠ []) :
    fromCharsBasecase bits base text = some (keep bits (valueOf base text)) := by
  have valid : ¬(base < 2 ∨ 36 < base ∨ text = []) := by
    simp only [nonempty, or_false]
    omega
  have per := per_pos low high
  obtain ⟨head, isHead⟩ : ∃ head, text.length % (largestPower base).per = head := ⟨_, rfl⟩
  have headLt : head < (largestPower base).per := isHead ▸ mod_lt _ per
  have rest : (text.drop head).length =
      text.length / (largestPower base).per * (largestPower base).per := by
    have split := div_add_mod text.length (largestPower base).per
    rw [length_drop, mul_comm]
    omega
  have start : readHead bits base head text = some (keep bits (valueOf base (text.take head))) := by
    rw [readHead]
    split
    · have short : (text.take head).length ≤ (largestPower base).per := by
        rw [length_take]
        omega
      rw [readChunk_of_short low high (digital.take head) short]
      simp [mulAdd1]
    · rename_i zero
      rw [ne_eq, not_not] at zero
      have nothing : keep bits 0 = 0 := le_zero.mp (keep_le bits 0)
      simp [zero, valueOf, horner, nothing]
  have split := valueOf_append base (text.take head) (text.drop head)
  rw [take_append_drop] at split
  rw [fromCharsBasecase, if_neg valid]
  simp only [isHead, start, Option.bind_eq_bind, Option.bind_some]
  rw [readChunks_eq low high bits (digital.drop head) rest (div_le_self _ _), split]

/-- The digit counts of the tower up to a level have not overflowed. -/
def Counted (base t : Nat) : Prop := ∀ k ≤ t, digitsAt base k = (largestPower base).per * 2 ^ k

theorem Counted.mono {t t' : Nat} (counted : Counted base t) (le : t' ≤ t) : Counted base t' :=
  fun k below => counted k (le_trans below le)

theorem Counted.zero (base : Nat) : Counted base 0 := by
  intro k below
  rw [le_zero.mp below, digitsAt, pow_zero, mul_one]

theorem Counted.succ {t : Nat} (counted : Counted base t)
    (small : (largestPower base).per * 2 ^ (t + 1) < 2 ^ 64) : Counted base (t + 1) := by
  intro k below
  rcases lt_or_eq_of_le below with less | rfl
  · exact counted k (le_of_lt_succ less)
  · rw [digitsAt, counted t (le_refl t), mul_assoc, ← pow_succ, mod_eq_of_lt small]

theorem dropLevel_spec (base n level : Nat) :
    dropLevel base n level ≤ level ∧
      (dropLevel base n level ≠ 0 → digitsAt base (dropLevel base n level) < n) := by
  induction level with
  | zero => exact ⟨le_refl 0, fun positive => absurd rfl positive⟩
  | succ level ih =>
    rw [dropLevel]
    split
    · exact ⟨le_succ_of_le ih.1, ih.2⟩
    · rename_i inside
      exact ⟨le_refl _, fun _ => not_le.mp inside⟩

theorem parseDc_eq (th : Thresholds) (low : 2 ≤ base) (high : base ≤ 36) (bits : Nat)
    {level fuel : Nat} (counted : Counted base level) (digital : Digital base text)
    (nonempty : text ≠ []) (enough : text.length ≤ fuel) :
    parseDc th bits base fuel text level = some (keep bits (valueOf base text)) := by
  induction fuel generalizing text level with
  | zero => exact absurd (length_eq_zero_iff.mp (le_zero.mp enough)) nonempty
  | succ fuel ih =>
    have plain := fromCharsBasecase_eq low high bits digital nonempty
    rw [parseDc]
    split
    · exact plain
    · rename_i notSmall
      obtain ⟨lvLe, lvInside⟩ := dropLevel_spec base text.length level
      dsimp only
      split
      · exact plain
      · have inside : digitsAt base (dropLevel base text.length level) < text.length := by
          by_cases zero : dropLevel base text.length level = 0
          · rw [zero]
            omega
          · exact lvInside zero
        have count := counted _ lvLe
        have positive : 0 < digitsAt base (dropLevel base text.length level) := by
          rw [count]
          exact Nat.mul_pos (per_pos low high) (Nat.two_pow_pos _)
        obtain ⟨lowCount, isLow⟩ : ∃ l, digitsAt base (dropLevel base text.length level) = l :=
          ⟨_, rfl⟩
        rw [isLow] at inside count positive
        have back : (text.drop (text.length - lowCount)).length = lowCount := by
          rw [length_drop]
          omega
        have front : (text.take (text.length - lowCount)).length = text.length - lowCount := by
          rw [length_take]
          omega
        have hi := ih (counted.mono lvLe) (digital.take (text.length - lowCount))
          (by
            intro none
            rw [none, length_nil] at front
            omega) (by omega)
        have lo := ih (counted.mono lvLe) (digital.drop (text.length - lowCount))
          (by
            intro none
            rw [none, length_nil] at back
            omega) (by omega)
        have split := valueOf_append base (text.take (text.length - lowCount))
          (text.drop (text.length - lowCount))
        rw [take_append_drop, back] at split
        simp only [isLow, hi, lo, Option.bind_eq_bind, Option.bind_some]
        rw [towerAt_eq low high, ← count, keep_add]
        rw [split, keep_mul_add, mul_comm, keep_mul_add, mul_comm]

theorem parseTop_counted {n : Nat} (small : n < 2 ^ 60)
    (fuel : Nat) {top : Nat} (counted : Counted base top)
    (bound : (largestPower base).per * 2 ^ top < 2 ^ 63) :
    Counted base (parseTop base n fuel top) := by
  induction fuel generalizing top with
  | zero => exact counted
  | succ fuel ih =>
    rw [parseTop]
    split
    · rename_i more
      have double : (largestPower base).per * 2 ^ (top + 1) < 2 ^ 64 := by
        rw [pow_succ, ← mul_assoc]
        omega
      rw [counted top (le_refl top), mul_assoc, ← pow_succ,
        mod_eq_of_lt double] at more
      exact ih (counted.succ double) (by omega)
    · exact counted

theorem fromChars_eq (th : Thresholds) (low : 2 ≤ base) (high : base ≤ 36) (bits : Nat)
    (digital : Digital base text) (nonempty : text ≠ []) (small : text.length < 2 ^ 60) :
    fromChars th bits base text = some (keep bits (valueOf base text)) := by
  have valid : ¬(base < 2 ∨ 36 < base ∨ text = []) := by
    simp only [nonempty, or_false]
    omega
  rw [fromChars, if_neg valid]
  split
  · exact fromCharsBasecase_eq low high bits digital nonempty
  · have wellFormed : text.any (fun c => decide (base ≤ digitValue c)) = false := by
      rw [any_eq_false]
      intro c member
      simpa using digital c member
    rw [wellFormed]
    refine parseDc_eq th low high bits ?_ digital nonempty (le_refl _)
    refine parseTop_counted small _ (Counted.zero base) ?_
    have per := per_lt low high
    omega

end Reading

end Micron.Radix
