import Mathlib.Data.Nat.Bitwise
import Micron.Sort.Model

/-!
# Bitonic sort

Thresholds reduce the network to arrays of truth values.  There a block is bitonic where
its ones, or its zeros, are an interval, and a round of exchanges leaves two bitonic halves
of which one is constant.
-/

set_option autoImplicit false

namespace Micron.Sort

open Micron.Lib Function Nat Bool Int

section Sequences
variable {len h : Nat} {f g : Nat → Bool}

def Bitonic (len : Nat) (f : Nat → Bool) : Prop :=
  ∃ c p q, ∀ x < len, f x = (decide (p ≤ x ∧ x < q) ^^ c)

def Directed (up : Bool) (len : Nat) (f : Nat → Bool) : Prop :=
  ∃ p ≤ len, ∀ x < len, f x = (decide (p ≤ x) == up)

theorem Bitonic.congr (bitonic : Bitonic len f) (same : ∀ x < len, g x = f x) : Bitonic len g := by
  obtain ⟨c, p, q, shape⟩ := bitonic
  exact ⟨c, p, q, fun x inside => (same x inside).trans (shape x inside)⟩

theorem Bitonic.not (bitonic : Bitonic len f) : Bitonic len fun x => !f x := by
  obtain ⟨c, p, q, shape⟩ := bitonic
  refine ⟨!c, p, q, ?_⟩
  intro x inside
  dsimp only
  rw [shape x inside, xor_not]

theorem Directed.congr {up : Bool} (directed : Directed up len f) (same : ∀ x < len, g x = f x) :
    Directed up len g := by
  obtain ⟨p, le, shape⟩ := directed
  exact ⟨p, le, fun x inside => (same x inside).trans (shape x inside)⟩

theorem Directed.single (up : Bool) (f : Nat → Bool) : Directed up 1 f := by
  by_cases equal : f 0 = up
  · refine ⟨0, by omega, ?_⟩
    intro x inside
    rw [lt_one_iff.mp inside, equal]
    simp
  · refine ⟨1, by omega, ?_⟩
    intro x inside
    rw [lt_one_iff.mp inside]
    cases up <;> simpa using equal

theorem Bitonic.of_directed {up : Bool} (first : Directed up h f)
    (second : Directed (!up) h fun x => f (h + x)) : Bitonic (2 * h) f := by
  obtain ⟨p, le, shape⟩ := first
  obtain ⟨q, le', shape'⟩ := second
  refine ⟨!up, p, h + q, ?_⟩
  intro x inside
  by_cases low : x < h
  · rw [shape x low]
    have short : x < h + q := by omega
    cases up <;> simp [short]
  · have value : f (h + (x - h)) = (decide (q ≤ x - h) == !up) := shape' (x - h) (by omega)
    rw [show h + (x - h) = x by omega] at value
    have long : p ≤ x := by omega
    rw [value]
    by_cases front : x < h + q
    · have notLater : ¬q ≤ x - h := by omega
      cases up <;> simp [front, long, notLater]
    · have later : q ≤ x - h := by omega
      cases up <;> simp [front, later]

/-- The smaller and the greater values of both halves where the ones are an interval. -/
theorem interval_halves (p q : Nat) (shape : ∀ x < 2 * h, f x = decide (p ≤ x ∧ x < q)) :
    Bitonic h (fun x => f x && f (h + x)) ∧ Bitonic h (fun x => f x || f (h + x)) ∧
      ((∀ x < h, (f x && f (h + x)) = false) ∨ ∀ x < h, (f x || f (h + x)) = true) := by
  have low : ∀ x < h, f x = decide (p ≤ x ∧ x < q) := fun x inside => shape x (by omega)
  have high : ∀ x < h, f (h + x) = decide (p ≤ h + x ∧ h + x < q) :=
    fun x inside => shape (h + x) (by omega)
  refine ⟨⟨false, p, q - h, ?_⟩, ?_, ?_⟩
  · intro x inside
    dsimp only
    rw [low x inside, high x inside, Bool.xor_false, ← Bool.decide_and]
    exact decide_eq_decide.mpr (by omega)
  · have either : ∀ c p' q', (∀ x < h, ((p ≤ x ∧ x < q) ∨ (p ≤ h + x ∧ h + x < q)) ↔
        ((p' ≤ x ∧ x < q') ↔ c = false)) → Bitonic h fun x => f x || f (h + x) := by
      intro c p' q' same
      refine ⟨c, p', q', ?_⟩
      intro x inside
      dsimp only
      rw [low x inside, high x inside, ← Bool.decide_or, Bool.eq_iff_iff, decide_eq_true_eq,
        same x inside]
      cases c with
      | false => simp
      | true => simp [Decidable.imp_iff_not_or]
    by_cases back : h ≤ p
    · exact either false (p - h) (q - h) fun x inside => by simp only [iff_true]; omega
    · by_cases front : q ≤ h
      · exact either false p q fun x inside => by simp only [iff_true]; omega
      · by_cases gap : q - h < p
        · exact either true (q - h) p fun x inside => by
            simp only [true_eq_false, iff_false]
            omega
        · exact either false 0 h fun x inside => by simp only [iff_true]; omega
  · by_cases whole : p < h ∧ h < q ∧ p ≤ q - h
    · refine .inr ?_
      intro x inside
      rw [low x inside, high x inside, ← decide_or]
      exact decide_eq_true (by omega)
    · refine .inl ?_
      intro x inside
      rw [low x inside, high x inside, ← decide_and]
      exact decide_eq_false (by omega)

/-- The smaller values of both halves and the greater ones. -/
theorem Bitonic.halves (bitonic : Bitonic (2 * h) f) :
    Bitonic h (fun x => f x && f (h + x)) ∧ Bitonic h (fun x => f x || f (h + x)) ∧
      ((∀ x < h, (f x && f (h + x)) = false) ∨ ∀ x < h, (f x || f (h + x)) = true) := by
  obtain ⟨c, p, q, shape⟩ := bitonic
  cases c with
  | false => exact interval_halves p q fun x inside => by rw [shape x inside, Bool.xor_false]
  | true =>
    obtain ⟨lower, upper, constant⟩ := interval_halves (f := fun x => !f x) (h := h) p q (by
      intro x inside
      rw [shape x inside, Bool.xor_true, Bool.not_not])
    refine ⟨upper.not.congr ?_, lower.not.congr ?_, ?_⟩
    · intro x _
      rw [Bool.not_or, Bool.not_not, Bool.not_not]
    · intro x _
      rw [Bool.not_and, Bool.not_not, Bool.not_not]
    · rcases constant with none | all
      · refine .inr fun x inside => ?_
        have value := none x inside
        rw [← Bool.not_or, Bool.not_eq_false'] at value
        exact value
      · refine .inl fun x inside => ?_
        have value := all x inside
        rw [← Bool.not_and, Bool.not_eq_true'] at value
        exact value

/-- Both halves in order, and one of them all before or all after. -/
theorem Directed.join {up : Bool} (first : Directed up h f)
    (second : Directed up h fun x => f (h + x))
    (constant : (∀ x < h, f x = !up) ∨ ∀ x < h, f (h + x) = up) : Directed up (2 * h) f := by
  obtain ⟨p, le, shape⟩ := first
  obtain ⟨q, le', shape'⟩ := second
  have behind : ∀ x, ¬x < h → x < 2 * h → f x = (decide (q ≤ x - h) == up) := by
    intro x high inside
    have value : f (h + (x - h)) = (decide (q ≤ x - h) == up) := shape' (x - h) (by omega)
    rwa [show h + (x - h) = x by omega] at value
  rcases constant with before | after
  · refine ⟨h + q, by omega, ?_⟩
    intro x inside
    by_cases low : x < h
    · have notLater : ¬h + q ≤ x := by omega
      rw [before x low, decide_eq_false notLater]
      cases up <;> rfl
    · rw [behind x low inside]
      congr 1
      exact decide_eq_decide.mpr (by omega)
  · refine ⟨p, by omega, ?_⟩
    intro x inside
    by_cases low : x < h
    · exact shape x low
    · have value := after (x - h) (by omega)
      rw [show h + (x - h) = x by omega] at value
      rw [value, decide_eq_true (by omega)]
      cases up <;> rfl

end Sequences

section Truth
variable {n k j : Nat} {a : Int → Bool}

def below (x y : Bool) : Bool := !x && y

/-- What a round leaves in the lower cell of a pair, and in the upper one. -/
def lesser (up x y : Bool) : Bool := if up then x && y else x || y

def ascending (k i : Nat) : Bool := decide (i &&& k = 0)

theorem exchange_low {x : Nat} (forward : x < x ^^^ j) (a : Int → Bool) :
    exchange below k j x a =
      update (update a x (lesser (ascending k x) (a x) (a (x ^^^ j : Nat))))
        (x ^^^ j : Nat) (lesser (!ascending k x) (a x) (a (x ^^^ j : Nat))) := by
  unfold exchange
  rw [toNat_natCast, if_pos (by omega)]
  have settle : ∀ out : Bool, (if out then swapAt a x (x ^^^ j : Nat) else a) =
      update (update a x (if out then a (x ^^^ j : Nat) else a x))
        (x ^^^ j : Nat) (if out then a x else a (x ^^^ j : Nat)) := by
    intro out
    cases out with
    | false =>
      simp only [false_eq_true, if_false]
      rw [update_eq_self, update_eq_self]
    | true => rfl
  rw [settle]
  generalize a (x ^^^ j : Nat) = upper
  generalize held : a x = lower
  congr 1
  · congr 1
    by_cases up : x &&& k = 0
    · rw [if_pos up, ascending, decide_eq_true up]
      cases lower <;> cases upper <;> rfl
    · rw [if_neg up, ascending, decide_eq_false up]
      cases lower <;> cases upper <;> rfl
  · by_cases up : x &&& k = 0
    · rw [if_pos up, ascending, decide_eq_true up]
      cases lower <;> cases upper <;> rfl
    · rw [if_neg up, ascending, decide_eq_false up]
      cases lower <;> cases upper <;> rfl

theorem exchange_high {x : Nat} (backward : x ^^^ j ≤ x) (a : Int → Bool) :
    exchange below k j x a = a := by
  unfold exchange
  rw [toNat_natCast, if_neg (by omega)]

/-- A round puts every pair in order, all of them disjoint. -/
theorem round_pair {x : Nat} (forward : x < x ^^^ j) (inside : x < n) :
    forRange 0 n (exchange below k j) a x = lesser (ascending k x) (a x) (a (x ^^^ j : Nat)) ∧
      forRange 0 n (exchange below k j) a (x ^^^ j : Nat) =
        lesser (!ascending k x) (a x) (a (x ^^^ j : Nat)) := by
  have back : ∀ y, (y ^^^ j) ^^^ j = y := fun y => xor_xor_cancel_right y j
  -- Up to `i` only the pairs that begin in front of it are in order.
  have run : ∀ y : Nat, y < y ^^^ j → y < n →
      ((y : Int) < n → forRange 0 n (exchange below k j) a y =
          lesser (ascending k y) (a y) (a (y ^^^ j : Nat)) ∧
        forRange 0 n (exchange below k j) a (y ^^^ j : Nat) =
          lesser (!ascending k y) (a y) (a (y ^^^ j : Nat))) ∧
      (¬(y : Int) < n → forRange 0 n (exchange below k j) a y = a y ∧
        forRange 0 n (exchange below k j) a (y ^^^ j : Nat) = a (y ^^^ j : Nat)) := by
    refine forRange_inv (fun (i : Int) (b : Int → Bool) => ∀ y : Nat, y < y ^^^ j → y < n →
      ((y : Int) < i → b y = lesser (ascending k y) (a y) (a (y ^^^ j : Nat)) ∧
        b (y ^^^ j : Nat) = lesser (!ascending k y) (a y) (a (y ^^^ j : Nat))) ∧
      (¬(y : Int) < i → b y = a y ∧ b (y ^^^ j : Nat) = a (y ^^^ j : Nat)))
      (by omega : (0 : Int) ≤ n) ?_ ?_
    · intro y _ _
      exact ⟨fun impossible => by omega, fun _ => ⟨rfl, rfl⟩⟩
    · intro i b low high holds y less inside'
      obtain ⟨m, rfl⟩ := eq_ofNat_of_zero_le low
      by_cases first : m < m ^^^ j
      · rw [exchange_low first]
        obtain ⟨done, still⟩ := holds y less inside'
        by_cases here : y = m
        · subst here
          obtain ⟨same, same'⟩ := still (by omega)
          refine ⟨fun _ => ?_, fun impossible => by omega⟩
          rw [update_self, update_of_ne (by omega), update_self, same, same']
          exact ⟨rfl, rfl⟩
        · have apart : ∀ z : Nat, z ≠ m → z ≠ m ^^^ j → ∀ u v, update
              (update b (m : Int) u) (m ^^^ j : Nat) v z = b z := by
            intro z notM notL u v
            rw [update_of_ne (by omega), update_of_ne (by omega)]
          have notUpper : y ≠ m ^^^ j := by
            rintro rfl
            rw [back] at less
            omega
          have notPartner : y ^^^ j ≠ m := by
            intro equal
            rw [← equal, back] at notUpper
            exact notUpper rfl
          have notBoth : y ^^^ j ≠ m ^^^ j := by
            intro equal
            have := congrArg (· ^^^ j) equal
            simp only [back] at this
            exact here this
          rw [apart y here notUpper, apart _ notPartner notBoth]
          exact ⟨fun less' => done (by omega), fun more => still (by omega)⟩
      · rw [exchange_high (by omega)]
        obtain ⟨done, still⟩ := holds y less inside'
        have here : y ≠ m := by
          rintro rfl
          exact first less
        exact ⟨fun less' => done (by omega), fun more => still (by omega)⟩
  exact (run x forward inside).1 (by omega)

/-! ## Blocks -/

/-- The aligned block of number `q` among those of `2 ^ t` cells. -/
def block (t q : Nat) (a : Int → Bool) (x : Nat) : Bool := a ((2 ^ t * q + x : Nat) : Int)

theorem block_low (t q : Nat) (a : Int → Bool) (x : Nat) : block t (2 * q) a x = block (t + 1) q a x := by
  rw [block, block, ← mul_assoc, ← pow_succ]

theorem block_high (t q : Nat) (a : Int → Bool) (x : Nat) :
    block t (2 * q + 1) a x = block (t + 1) q a (2 ^ t + x) := by
  rw [block, block, mul_add, ← mul_assoc, ← pow_succ, mul_one, add_assoc]

theorem partner {t q x : Nat} (inside : x < 2 ^ t) :
    (2 ^ (t + 1) * q + x) ^^^ 2 ^ t = 2 ^ (t + 1) * q + (2 ^ t + x) := by
  refine eq_of_testBit_eq ?_
  intro i
  rw [testBit_xor, testBit_two_pow_mul_add q (by omega), testBit_two_pow_mul_add q (by omega),
    testBit_two_pow]
  rcases lt_trichotomy i t with less | same | more
  · rw [if_pos (by omega), if_pos (by omega), testBit_two_pow_add_gt less,
      decide_eq_false (by omega), Bool.xor_false]
  · rw [if_pos (by omega), if_pos (by omega), same, testBit_two_pow_add_eq, decide_eq_true rfl,
      Bool.xor_true]
  · rw [if_neg (by omega), if_neg (by omega), decide_eq_false (by omega), Bool.xor_false]

theorem ascending_block {s t q x : Nat} (le : t ≤ s) (inside : x < 2 ^ t) :
    ascending (2 ^ s) (2 ^ t * q + x) = !q.testBit (s - t) := by
  have bit : (2 ^ t * q + x).testBit s = q.testBit (s - t) := by
    rw [testBit_two_pow_mul_add q inside, if_neg (by omega)]
  rw [ascending, ← bit]
  cases set : (2 ^ t * q + x).testBit s with
  | false =>
    refine decide_eq_true (eq_of_testBit_eq ?_)
    intro i
    rw [testBit_and, testBit_two_pow, zero_testBit]
    by_cases here : s = i
    · rw [← here, set, Bool.false_and]
    · rw [decide_eq_false here, Bool.and_false]
  | true =>
    refine decide_eq_false ?_
    intro zero
    have masked := congrArg (fun v => v.testBit s) zero
    simp [set] at masked

/-- A round with the distance of half a block, in a direction that is the block's. -/
theorem round_block {s t q : Nat} (le : t + 1 ≤ s) (inside : 2 ^ (t + 1) * (q + 1) ≤ n) {x : Nat}
    (small : x < 2 ^ t) :
    block t (2 * q) (forRange 0 n (exchange below (2 ^ s) (2 ^ t)) a) x =
        lesser (!q.testBit (s - (t + 1))) (block (t + 1) q a x) (block (t + 1) q a (2 ^ t + x)) ∧
      block t (2 * q + 1) (forRange 0 n (exchange below (2 ^ s) (2 ^ t)) a) x =
        lesser (q.testBit (s - (t + 1))) (block (t + 1) q a x) (block (t + 1) q a (2 ^ t + x)) := by
  rw [mul_add, mul_one] at inside
  have pair := round_pair (n := n) (k := 2 ^ s) (j := 2 ^ t) (a := a) (x := 2 ^ (t + 1) * q + x)
    (by rw [partner small]; omega) (by omega)
  rw [partner small, ascending_block le (by omega), Bool.not_not] at pair
  rw [block_low, block_high]
  exact pair

theorem halvings_step {s t : Nat} (a : Int → Bool) :
    halvings below n (2 ^ s) (2 ^ (t + 1) / 2) a =
      halvings below n (2 ^ s) (2 ^ t / 2) (forRange 0 n (exchange below (2 ^ s) (2 ^ t)) a) := by
  rw [pow_succ, Nat.mul_div_cancel _ (by decide), halvings, if_pos (Nat.two_pow_pos t)]

theorem halves_inside {t q : Nat} (inside : 2 ^ (t + 1) * (q + 1) ≤ n) :
    2 ^ t * (2 * q + 1) ≤ n ∧ 2 ^ t * (2 * q + 1 + 1) ≤ n := by
  have both : 2 ^ t * (2 * q + 1 + 1) = 2 ^ (t + 1) * (q + 1) := by
    rw [pow_succ, mul_assoc]
    congr 1
  have less : 2 ^ t * (2 * q + 1) ≤ 2 ^ t * (2 * q + 1 + 1) := mul_le_mul_left _ (by omega)
  omega

theorem lesser_self (up v : Bool) : lesser up v v = v := by
  cases up <;> cases v <;> rfl

theorem halvings_constant {s t q : Nat} (le : t ≤ s) (inside : 2 ^ t * (q + 1) ≤ n) {v : Bool}
    (constant : ∀ x < 2 ^ t, block t q a x = v) :
    ∀ x < 2 ^ t, block t q (halvings below n (2 ^ s) (2 ^ t / 2) a) x = v := by
  induction t generalizing q a with
  | zero =>
    rw [halvings, if_neg (by decide)]
    exact constant
  | succ t ih =>
    obtain ⟨lowInside, highInside⟩ := halves_inside inside
    have pair : ∀ x < 2 ^ t,
        block t (2 * q) (forRange 0 n (exchange below (2 ^ s) (2 ^ t)) a) x = v ∧
          block t (2 * q + 1) (forRange 0 n (exchange below (2 ^ s) (2 ^ t)) a) x = v := by
      intro x small
      obtain ⟨first, second⟩ := round_block (a := a) le inside small
      rw [constant x (by omega), constant (2 ^ t + x) (by omega), lesser_self] at first second
      exact ⟨first, second⟩
    rw [halvings_step]
    intro x small
    by_cases low : x < 2 ^ t
    · rw [← block_low]
      exact ih (by omega) lowInside (fun y small => (pair y small).1) x low
    · have rest := ih (by omega) highInside (fun y small => (pair y small).2) (x - 2 ^ t) (by omega)
      rwa [block_high, show 2 ^ t + (x - 2 ^ t) = x by omega] at rest

theorem halvings_directed {s t q : Nat} (le : t ≤ s) (inside : 2 ^ t * (q + 1) ≤ n)
    (bitonic : Bitonic (2 ^ t) (block t q a)) :
    Directed (!q.testBit (s - t)) (2 ^ t)
      (block t q (halvings below n (2 ^ s) (2 ^ t / 2) a)) := by
  induction t generalizing q a with
  | zero => exact Directed.single _ _
  | succ t ih =>
    obtain ⟨lowInside, highInside⟩ := halves_inside inside
    have double : 2 ^ (t + 1) = 2 * 2 ^ t := pow_succ'
    rw [double] at bitonic
    obtain ⟨lower, upper, constant⟩ := bitonic.halves
    rw [halvings_step]
    have pair := fun x small => round_block (a := a) (x := x) le inside small
    generalize forRange 0 n (exchange below (2 ^ s) (2 ^ t)) a = b at pair ⊢
    have up : (2 * q).testBit (s - t) = q.testBit (s - (t + 1)) ∧
        (2 * q + 1).testBit (s - t) = q.testBit (s - (t + 1)) := by
      rw [show s - t = s - (t + 1) + 1 by omega, testBit_succ, testBit_succ]
      refine ⟨?_, ?_⟩ <;> congr 1 <;> omega
    generalize q.testBit (s - (t + 1)) = down at pair up ⊢
    -- Whatever the direction, both halves are bitonic and one of them is constant.
    have halves : Bitonic (2 ^ t) (block t (2 * q) b) ∧ Bitonic (2 ^ t) (block t (2 * q + 1) b) ∧
        ((∀ x < 2 ^ t, block t (2 * q) b x = down) ∨
          ∀ x < 2 ^ t, block t (2 * q + 1) b x = !down) := by
      cases down with
      | false =>
        refine ⟨lower.congr fun x small => (pair x small).1,
          upper.congr fun x small => (pair x small).2, ?_⟩
        rcases constant with none | all
        · exact .inl fun x small => (pair x small).1.trans (none x small)
        · exact .inr fun x small => (pair x small).2.trans (all x small)
      | true =>
        refine ⟨upper.congr fun x small => (pair x small).1,
          lower.congr fun x small => (pair x small).2, ?_⟩
        rcases constant with none | all
        · exact .inr fun x small => (pair x small).2.trans (none x small)
        · exact .inl fun x small => (pair x small).1.trans (all x small)
    obtain ⟨first, second, constant⟩ := halves
    have sorted := ih (by omega) lowInside first
    have sorted' := ih (by omega) highInside second
    rw [up.1] at sorted
    rw [up.2] at sorted'
    rw [double]
    refine Directed.join (sorted.congr ?_) (sorted'.congr ?_) ?_
    · intro x _
      exact (block_low _ _ _ _).symm
    · intro x _
      exact (block_high _ _ _ _).symm
    · rcases constant with before | after
      · refine .inl fun x small => ?_
        rw [← block_low, Bool.not_not]
        exact halvings_constant (by omega) lowInside before x small
      · refine .inr fun x small => ?_
        rw [← block_high]
        exact halvings_constant (by omega) highInside after x small

/-- After stage `s` the blocks are in order, every other one downwards. -/
theorem doublings_directed {m : Nat} (s : Nat) (le : s ≤ m)
    (blocks : ∀ q, 2 ^ s * (q + 1) ≤ 2 ^ m → Directed (!q.testBit 0) (2 ^ s) (block s q a)) :
    Directed true (2 ^ m) (block m 0 (doublings below (2 ^ m) (2 ^ (s + 1)) a)) := by
  induction measured : m - s generalizing s a with
  | zero =>
    have last : s = m := by omega
    subst last
    rw [doublings, if_neg (by omega)]
    exact blocks 0 (by omega)
  | succ rest ih =>
    have inside : 2 ^ (s + 1) ≤ 2 ^ m := Nat.pow_le_pow_right (by decide) (by omega)
    rw [doublings, if_pos ⟨Nat.two_pow_pos _, inside⟩, ← pow_succ']
    refine ih (s + 1) (by omega) ?_ (by omega)
    intro q inside'
    obtain ⟨lowInside, highInside⟩ := halves_inside inside'
    have first := blocks (2 * q) lowInside
    have second := blocks (2 * q + 1) highInside
    have bitonic : Bitonic (2 ^ (s + 1)) (block (s + 1) q a) := by
      have even : (2 * q).testBit 0 = false := by simp
      have odd : (2 * q + 1).testBit 0 = true := by simp
      rw [even] at first
      rw [odd] at second
      rw [pow_succ']
      refine Bitonic.of_directed (first.congr ?_) (second.congr ?_)
      · intro x _
        exact (block_low _ _ _ _).symm
      · intro x _
        exact (block_high _ _ _ _).symm
    have directed := halvings_directed (le_refl (s + 1)) inside' bitonic
    rw [Nat.sub_self] at directed
    exact directed

end Truth

section Thresholds
variable {α : Type} {lt : α → α → Bool} {n k j : Nat}

def Upward (lt : α → α → Bool) (p : α → Bool) : Prop :=
  ∀ x y, lt y x = false → p x = true → p y = true

theorem exchange_comp [IsStrictWeakOrder α (Lesser lt)] {p : α → Bool} (upward : Upward lt p)
    (i : Int) (a : Int → α) : p ∘ exchange lt k j i a = exchange below k j i (p ∘ a) := by
  -- Where a threshold does not tell two cells apart, it is the same to exchange them or not.
  have single : ∀ x y l : Int, x = i ∧ y = l ∨ x = l ∧ y = i →
      (p ∘ if lt (a x) (a y) then swapAt a i l else a) =
        if below ((p ∘ a) x) ((p ∘ a) y) then swapAt (p ∘ a) i l else p ∘ a := by
    intro x y l places
    cases less : lt (a x) (a y) with
    | false =>
      have monotone := upward (a y) (a x) less
      rw [below, Function.comp_apply, Function.comp_apply]
      cases first : p (a x) <;> cases second : p (a y) <;> simp_all
    | true =>
      have monotone := upward (a x) (a y) (comp_asymm less)
      have swapped : p ∘ swapAt a i l = swapAt (p ∘ a) i l := by
        rw [swapAt_eq, swapAt_eq, Function.comp_assoc]
      rw [if_pos rfl, swapped]
      split
      next => rfl
      next equal =>
        refine swapAt_same ?_
        rw [below, Function.comp_apply, Function.comp_apply] at equal
        have same : p (a x) = p (a y) := by
          cases first : p (a x) <;> cases second : p (a y) <;> simp_all
        rcases places with ⟨rfl, rfl⟩ | ⟨rfl, rfl⟩
        · exact same
        · exact same.symm
  unfold exchange
  dsimp only
  split
  next =>
    by_cases up : i.toNat &&& k = 0
    · rw [if_pos up, if_pos up]
      exact single _ _ _ (.inr ⟨rfl, rfl⟩)
    · rw [if_neg up, if_neg up]
      exact single _ _ _ (.inl ⟨rfl, rfl⟩)
  next => rfl

theorem doublings_comp [IsStrictWeakOrder α (Lesser lt)] {p : α → Bool} (upward : Upward lt p)
    (k : Nat) (a : Int → α) : p ∘ doublings lt n k a = doublings below n k (p ∘ a) := by
  have inner : ∀ k j (a : Int → α), p ∘ halvings lt n k j a = halvings below n k j (p ∘ a) := by
    intro k j a
    induction j, a using halvings.induct lt n k with
    | case1 j a more ih =>
      rw [halvings, if_pos more, ih, halvings.eq_1 below n k j (p ∘ a), if_pos more]
      congr 1
      exact forRange_hom (p ∘ ·) (fun i a => exchange_comp upward i a) 0 n a
    | case2 j a done => rw [halvings, if_neg done, halvings.eq_1 below, if_neg done]
  induction k, a using doublings.induct lt n with
  | case1 k a more ih => rw [doublings, if_pos more, ih, doublings.eq_1 below n k (p ∘ a), if_pos more, inner]
  | case2 k a done => rw [doublings, if_neg done, doublings.eq_1 below, if_neg done]

/-! ## The whole sort -/

theorem exchange_rearranged {m t : Nat} (small : t < m) {i : Int} (low : 0 ≤ i) (high : i < (2 ^ m : Nat))
    (a : Int → α) : Rearranged 0 (2 ^ m : Nat) a (exchange lt k (2 ^ t) i a) := by
  obtain ⟨x, rfl⟩ := eq_ofNat_of_zero_le low
  have inside : x ^^^ 2 ^ t < 2 ^ m :=
    Nat.xor_lt_two_pow (by omega) (Nat.pow_lt_pow_right (by decide) small)
  have swapped : Rearranged 0 (2 ^ m : Nat) a (swapAt a x (x ^^^ 2 ^ t : Nat)) :=
    Rearranged.swap (by omega) high (by omega) (by omega)
  unfold exchange
  dsimp only
  rw [toNat_natCast]
  generalize (if x &&& k = 0 then lt (a (x ^^^ 2 ^ t : Nat)) (a x)
    else lt (a x) (a (x ^^^ 2 ^ t : Nat))) = out
  split
  next =>
    split
    next => exact swapped
    next => exact Rearranged.refl _ _ _
  next => exact Rearranged.refl _ _ _

theorem doublings_rearranged (lt : α → α → Bool) {m : Nat} (s : Nat) (a : Int → α) :
    Rearranged 0 (2 ^ m : Nat) a (doublings lt (2 ^ m) (2 ^ (s + 1)) a) := by
  have inner : ∀ k t (a : Int → α), t ≤ m →
      Rearranged 0 (2 ^ m : Nat) a (halvings lt (2 ^ m) k (2 ^ t / 2) a) := by
    intro k t
    induction t with
    | zero =>
      intro a _
      rw [halvings, if_neg (by decide)]
      exact Rearranged.refl _ _ _
    | succ t ih =>
      intro a le
      rw [pow_succ, Nat.mul_div_cancel _ (by decide), halvings, if_pos (Nat.two_pow_pos t)]
      refine Rearranged.trans ?_ (ih _ (by omega))
      refine forRange_inv (fun _ b => Rearranged 0 (2 ^ m : Nat) a b) (natCast_nonneg _)
        (Rearranged.refl _ _ _) ?_
      intro i b low high moved
      exact moved.trans (exchange_rearranged (by omega) low high b)
  induction measured : m - s generalizing s a with
  | zero =>
    have beyond : 2 ^ m < 2 ^ (s + 1) := Nat.pow_lt_pow_right (by decide) (by omega)
    rw [doublings, if_neg (by omega)]
    exact Rearranged.refl _ _ _
  | succ rest ih =>
    have inside : 2 ^ (s + 1) ≤ 2 ^ m := Nat.pow_le_pow_right (by decide) (by omega)
    rw [doublings, if_pos ⟨Nat.two_pow_pos _, inside⟩, ← pow_succ']
    exact (inner _ (s + 1) a (by omega)).trans (ih (s + 1) _ (by omega))

variable [IsStrictWeakOrder α (Lesser lt)]

/-- A pair out of order would be one for the threshold between its values. -/
theorem doublings_ordered (m : Nat) (a : Int → α) :
    Ordered lt 0 (2 ^ m : Nat) (doublings lt (2 ^ m) 2 a) := by
  intro i j low less high
  by_contra greater
  rw [not_eq_false] at greater
  have upward : Upward lt fun x => !lt x (doublings lt (2 ^ m) 2 a i) := by
    intro x y notLess beyond
    rw [not_eq_true'] at beyond ⊢
    exact comp_trans_false notLess beyond
  have sorted := doublings_directed (m := m) (a := (fun x => !lt x (doublings lt (2 ^ m) 2 a i)) ∘ a) 0
    (zero_le m) (fun q _ => Directed.single _ _)
  rw [zero_add, pow_one, ← doublings_comp upward] at sorted
  obtain ⟨p, _, shape⟩ := sorted
  have value : ∀ x : Int, 0 ≤ x → x < (2 ^ m : Nat) →
      lt (doublings lt (2 ^ m) 2 a x) (doublings lt (2 ^ m) 2 a i) = decide (x < p) := by
    intro x low high
    have at_x := shape x.toNat (by omega)
    rw [block, mul_zero, zero_add, show ((x.toNat : Nat) : Int) = x by omega,
      Function.comp_apply, beq_true] at at_x
    rw [← not_not (lt _ _), at_x, ← decide_not]
    exact decide_eq_decide.mpr (by omega)
  have before := value j (by omega) high
  have self := value i low (by omega)
  rw [greater] at before
  rw [@comp_irrefl _ lt] at self
  have first := of_decide_eq_true before.symm
  have second := of_decide_eq_false self.symm
  omega

theorem bitonic_sorts (n : Nat) (a : Int → α) : Sorts lt n a (bitonic lt n a) := by
  rw [bitonic]
  split
  next => exact ⟨Rearranged.refl _ _ _, Ordered.of_short (by omega)⟩
  next long =>
    split
    next => exact insertion_sorts (by omega) a
    next power =>
      obtain ⟨m, rfl⟩ := (and_sub_one_eq_zero_iff_isPowerOfTwo (by omega)).mp
        (Decidable.not_not.mp power)
      exact ⟨doublings_rearranged lt 0 a, doublings_ordered m a⟩

end Thresholds

end Micron.Sort
