import Mathlib.Data.Nat.Size
import Micron.Lib.StableSort
import Micron.Sort.Network

/-!
# Radix and counting sort

Keys are taken as their distance from the least one, in a word of 64 bits, and the distance
of the greatest key decides how many passes of radix sort there are, and whether counting
sort falls back to it.  Keys of 128 bits count as integral as well.
-/

set_option autoImplicit false

namespace Micron.Sort

open Micron.Lib List Function Nat Option

def KeyType.value (K : KeyType) (x : K.Key) : Int := if K.signed then x.toInt else x.toNat

def KeyType.umax (K : KeyType) (x : K.Key) : Nat := (K.value x % 2 ^ 64).toNat

def wordSub (x y : Nat) : Nat := (x + (2 ^ 64 - y)) % 2 ^ 64

section Passes
variable {α : Type} (K : KeyType) (key : α → K.Key)

def extremes (n : Nat) (a : Int → α) : K.Key × K.Key :=
  forRange 1 n
    (fun i s =>
      (if K.less (key (a i)) s.1 then key (a i) else s.1,
        if K.less s.2 (key (a i)) then key (a i) else s.2)) (key (a 0), key (a 0))

def biasMin (n : Nat) (a : Int → α) : Nat := K.umax (extremes K key n a).1

def span (n : Nat) (a : Int → α) : Nat := wordSub (K.umax (extremes K key n a).2) (biasMin K key n a)

def offset (bias : Nat) (e : α) : Nat := wordSub (K.umax (key e)) bias

def digit (bias shift : Nat) (e : α) : Nat := (offset K key bias e >>> shift) &&& 0xFF

def copyBack (n : Nat) (src dst : Int → α) (x : Int) : α := if 0 ≤ x ∧ x < n then src x else dst x

def radixPass (n bias shift : Nat) (s : (Int → α) × (Int → α)) : (Int → α) × (Int → α) :=
  let d := digit K key bias shift
  let carr := scatter d s.1 n (accumulate 256 (tally d n s.1)) s.2
  (copyBack n carr s.1, carr)

def radixPasses (n bias span shift : Nat) (s : (Int → α) × (Int → α)) : (Int → α) × (Int → α) :=
  if shift < 64 then
    if span >>> shift = 0 then s else radixPasses n bias span (shift + 8) (radixPass K key n bias shift s)
  else s
termination_by 64 - shift

def radix (n : Nat) (a : Int → α) : Int → α :=
  if n < 2 then a else (radixPasses K key n (biasMin K key n a) (span K key n a) 0 (a, a)).1

/-- The counts of `range` buckets; there is nothing behind them to count in. -/
def countInto (range n : Nat) (d : α → Nat) (a : Int → α) : Option (Nat → Nat) :=
  forRange 0 n
    (fun i counts => counts.bind fun c =>
      if d (a i) < range then some (update c (d (a i)) (c (d (a i)) + 1)) else none)
    (some fun _ => 0)

def wide (n span : Nat) : Prop := span = 2 ^ 64 - 1 ∨ span > 4 * n % 2 ^ 64 ∨ span ≥ 2 ^ 27

instance (n span : Nat) : Decidable (wide n span) :=
  inferInstanceAs (Decidable (_ ∨ _ ∨ _))

/-- `__counting_impl`; `none` where it writes behind its buckets. -/
def counting (n : Nat) (a : Int → α) : Option (Int → α) :=
  if n < 2 then some a
  else if wide n (span K key n a) then some (radix K key n a)
  else
    let d := offset K key (biasMin K key n a)
    let range := span K key n a + 1
    (countInto range n d a).map fun c => copyBack n (scatter d a n (accumulate range c) a) a

end Passes

/-- What a stable sort of `n` elements does to the memory. -/
structure SortsStably {α : Type} (lt : α → α → Bool) (n : Int) (a b : Int → α) : Prop where
  outside : ∀ i, i < 0 ∨ n ≤ i → b i = a i
  stable : StableSort lt (cells 0 n a) (cells 0 n b)

section Runs
variable {α : Type} {K : KeyType} {key : α → K.Key} {n : Nat} {a b c : Int → α}

theorem wordSub_lt (x y : Nat) : wordSub x y < 2 ^ 64 := mod_lt _ (by decide)

theorem cells_copyBack (n : Nat) (src dst : Int → α) :
    cells 0 n (copyBack n src dst) = cells 0 n src := by
  refine cells_congr ?_
  intro i low high
  exact if_pos ⟨low, high⟩

theorem copyBack_outside (src dst : Int → α) (i : Int) (out : i < 0 ∨ (n : Int) ≤ i) :
    copyBack n src dst i = dst i := if_neg (by omega)

theorem StableSort.tied_all {lt : α → α → Bool} {l : List α} (none : ∀ x ∈ l, ∀ y ∈ l, lt x y = false) :
    StableSort lt l l :=
  ⟨pairwise_of_forall_mem_list fun x memX y memY => none y memY x memX, fun _ => rfl⟩

theorem SortsStably.short {lt : α → α → Bool} [IsStrictWeakOrder α (Lesser lt)] (short : n < 2) :
    SortsStably lt n a a := by
  refine ⟨fun _ _ => rfl, StableSort.tied_all ?_⟩
  intro x memX y memY
  obtain ⟨i, _, _, rfl⟩ := mem_cells.mp memX
  obtain ⟨j, _, _, rfl⟩ := mem_cells.mp memY
  rw [show i = j by omega]
  exact comp_irrefl _

/-- A pass adds eight bits to what the array is sorted by. -/
theorem radixPass_step {bias shift : Nat} {s : (Int → α) × (Int → α)}
    (sorted : SortsStably (byKey fun e => offset K key bias e % 2 ^ shift) n a s.1) :
    SortsStably (byKey fun e => offset K key bias e % 2 ^ (shift + 8)) n a
      (radixPass K key n bias shift s).1 := by
  constructor
  · intro i out
    rw [← sorted.outside i out]
    exact copyBack_outside _ _ i out
  · have pass := classes_stable (l := cells 0 n s.1) (d := digit K key bias shift) (v := 256) ?_
    · rw [← counting_pass (by decide) (fun i _ => lt_succ_of_le and_le_right) s.2] at pass
      dsimp only [radixPass]
      rw [cells_copyBack]
      have both := StableSort.digits (B := 2 ^ shift) (fun e => Nat.mod_lt _ (Nat.two_pow_pos shift))
        sorted.stable pass
      have value : (fun e => 2 ^ shift * digit K key bias shift e + offset K key bias e % 2 ^ shift) =
          fun e => offset K key bias e % 2 ^ (shift + 8) := by
        funext e
        have mask : digit K key bias shift e = offset K key bias e / 2 ^ shift % 2 ^ 8 := by
          rw [digit, shiftRight_eq_div_pow]
          exact and_two_pow_sub_one_eq_mod _ 8
        rw [mask, pow_add, mod_mul, add_comm]
      rw [value] at both
      exact both
    · intro x _
      exact lt_succ_of_le and_le_right

def passCount (span : Nat) : Nat := (span.size + 7) / 8

theorem radixPasses_spec {bias span p : Nat} (word : span < 2 ^ 64) (le : p ≤ passCount span)
    {s : (Int → α) × (Int → α)}
    (sorted : SortsStably (byKey fun e => offset K key bias e % 2 ^ (8 * p)) n a s.1) :
    SortsStably (byKey fun e => offset K key bias e % 2 ^ (8 * passCount span)) n a
      (radixPasses K key n bias span (8 * p) s).1 := by
  have size : span.size ≤ 64 := size_le.mpr word
  induction rest : passCount span - p generalizing p s with
  | zero =>
    have last : p = passCount span := by omega
    have small : span.size ≤ 8 * p := by
      rw [last]
      unfold passCount
      omega
    have done : span >>> (8 * p) = 0 := by
      rw [shiftRight_eq_div_pow]
      exact div_eq_of_lt (size_le.mp small)
    rw [radixPasses, if_pos done, ite_self]
    exact last ▸ sorted
  | succ rest ih =>
    have large : ¬span.size ≤ 8 * p := by
      unfold passCount at *
      omega
    have more : ¬span >>> (8 * p) = 0 := by
      intro zero
      rw [Nat.shiftRight_eq_div_pow, Nat.div_eq_zero_iff] at zero
      refine large (Nat.size_le.mpr (zero.resolve_left (ne_of_gt (Nat.two_pow_pos _))))
    rw [radixPasses, if_pos (by omega), if_neg more]
    exact ih (p := p + 1) (by omega) (radixPass_step sorted) (by omega)

def compared (K : KeyType) (key : α → K.Key) (n : Nat) (a : Int → α) (e : α) : Nat :=
  offset K key (biasMin K key n a) e % 2 ^ (8 * passCount (span K key n a))

theorem radix_spec (K : KeyType) (key : α → K.Key) (n : Nat) (a : Int → α) :
    SortsStably (byKey (compared K key n a)) n a (radix K key n a) := by
  rw [radix]
  split
  next short => exact SortsStably.short short
  next =>
    refine radixPasses_spec (p := 0) (wordSub_lt _ _) (zero_le _) ?_
    refine ⟨fun _ _ => rfl, StableSort.tied_all ?_⟩
    intro x _ y _
    rw [byKey, mul_zero, pow_zero, mod_one, mod_one]
    rfl

/-- Counting succeeds exactly if no element is behind the last bucket. -/
theorem countInto_spec (range n : Nat) (d : α → Nat) (a : Int → α) :
    ((∀ i : Nat, i < n → d (a i) < range) → countInto range n d a = some (tally d n a)) ∧
      ((∃ i : Nat, i < n ∧ range ≤ d (a i)) → countInto range n d a = none) := by
  have counts : tally d n a = fun v => (ofDigit d 0 n a v).length := funext (tally_eq n)
  rw [counts]
  suffices run : ((∀ i : Nat, (i : Int) < n → d (a i) < range) →
        countInto range n d a = some fun v => (ofDigit d 0 n a v).length) ∧
      ((∃ i : Nat, (i : Int) < n ∧ range ≤ d (a i)) → countInto range n d a = none) by
    simpa only [cast_lt] using run
  refine forRange_inv (fun i (c : Option (Nat → Nat)) =>
      ((∀ k : Nat, (k : Int) < i → d (a k) < range) →
        c = some fun v => (ofDigit d 0 i a v).length) ∧
      ((∃ k : Nat, (k : Int) < i ∧ range ≤ d (a k)) → c = none))
    (f := fun i counts => counts.bind fun c =>
      if d (a i) < range then some (update c (d (a i)) (c (d (a i)) + 1)) else none)
    (Int.natCast_nonneg n) ?_ ?_
  · refine ⟨fun _ => congrArg some (funext fun v => ?_), ?_⟩
    · rw [ofDigit, cells_empty (le_refl _)]
      rfl
    · rintro ⟨k, less, _⟩
      omega
  · intro i c low _ counted
    obtain ⟨k, rfl⟩ := Int.eq_ofNat_of_zero_le low
    refine ⟨?_, ?_⟩
    · intro all
      rw [counted.1 fun j less => all j (by omega), bind_some, if_pos (all k (by omega))]
      refine congrArg some (funext fun v => ?_)
      rw [ofDigit_snoc d low, length_append]
      by_cases same : d (a k) = v
      · rw [if_pos same, ← same, update_self]
        rfl
      · rw [if_neg same, update_of_ne (Ne.symm same)]
        rfl
    · rintro ⟨j, less, beyond⟩
      by_cases before : ∃ j : Nat, (j : Int) < k ∧ range ≤ d (a j)
      · rw [counted.2 before, bind_none]
      · have here : j = k := by
          by_contra other
          exact before ⟨j, by omega, beyond⟩
        rw [here] at beyond
        rw [counted.1 fun j less => Nat.lt_of_not_le fun beyond => before ⟨j, less, beyond⟩,
          bind_some, if_neg (not_lt.mpr beyond)]

/-! ## By the keys -/

def KeyType.lessBy (K : KeyType) (key : α → K.Key) (x y : α) : Bool := K.less (key x) (key y)

instance (K : KeyType) (key : α → K.Key) : IsStrictWeakOrder α (Lesser (K.lessBy key)) where
  irrefl x := Std.Irrefl.irrefl (r := Lesser K.less) (key x)
  trans x y z := IsTrans.trans (r := Lesser K.less) (key x) (key y) (key z)
  incomp_trans x y z := @IsStrictWeakOrder.incomp_trans _ (Lesser K.less) _ (key x) (key y) (key z)

/-- No two elements compare otherwise by what radix sort compares than by their keys. -/
def RadixAgrees (K : KeyType) (key : α → K.Key) (n : Nat) (a : Int → α) : Prop :=
  ∀ i j : Nat, i < j → j < n →
    (K.less (key (a j)) (key (a i)) = true ↔ compared K key n a (a j) < compared K key n a (a i))

/-- And no element counts in a bucket behind the last. -/
def CountingAgrees (K : KeyType) (key : α → K.Key) (n : Nat) (a : Int → α) : Prop :=
  RadixAgrees K key n a ∧
    (wide n (span K key n a) ∨
      ∀ i : Nat, i < n → offset K key (biasMin K key n a) (a i) ≤ span K key n a)

theorem pairwise_cells {R : α → α → Prop} :
    (cells 0 n a).Pairwise R ↔ ∀ i j : Nat, i < j → j < n → R (a i) (a j) := by
  rw [cells, pairwise_map, pairwise_iff_getElem]
  simp only [getElem_range, length_range, zero_add]
  refine ⟨fun pairs i j less inside => pairs i j (by omega) (by omega) less,
    fun pairs i j _ inside less => pairs i j less (by omega)⟩

theorem sorts_iff {d : α → Nat} (sorts : SortsStably (byKey d) n a b) :
    SortsStably (K.lessBy key) n a b ↔ ∀ i j : Nat, i < j → j < n →
      (K.less (key (a j)) (key (a i)) = true ↔ d (a j) < d (a i)) := by
  have agree : StableSort (K.lessBy key) _ _ ↔ _ := sorts.stable.iff_agree
  rw [pairwise_cells] at agree
  refine ⟨fun other => ?_, fun same => ⟨sorts.outside, agree.mpr ?_⟩⟩
  · intro i j less inside
    have equal := agree.mp other.stable i j less inside
    rw [KeyType.lessBy, byKey] at equal
    rw [equal, decide_eq_true_iff]
  · intro i j less inside
    rw [KeyType.lessBy, byKey, Bool.eq_iff_iff, decide_eq_true_iff]
    exact same i j less inside

theorem radix_iff : SortsStably (K.lessBy key) n a (radix K key n a) ↔ RadixAgrees K key n a :=
  sorts_iff (radix_spec K key n a)

theorem compared_eq {e : α} (le : offset K key (biasMin K key n a) e ≤ span K key n a) :
    compared K key n a e = offset K key (biasMin K key n a) e := by
  refine mod_eq_of_lt (lt_of_le_of_lt le (size_le.mp ?_))
  unfold passCount
  omega

theorem short_agrees (short : n < 2) : CountingAgrees K key n a := by
  refine ⟨fun i j less inside => by omega, .inr ?_⟩
  intro i inside
  have same : extremes K key n a = (key (a 0), key (a 0)) := forRange_empty (by omega)
  rw [show i = 0 by omega, span, biasMin, same]
  exact le_refl _

theorem counting_iff :
    (∃ b, counting K key n a = some b ∧ SortsStably (K.lessBy key) n a b) ↔ CountingAgrees K key n a := by
  rw [counting]
  split
  next short =>
    exact ⟨fun _ => short_agrees short, fun _ => ⟨a, rfl, SortsStably.short short⟩⟩
  next =>
    split
    next far =>
      simp only [Option.some.injEq, exists_eq_left', radix_iff, CountingAgrees, far, true_or, and_true]
    next near =>
      dsimp only
      by_cases all : ∀ i : Nat, i < n → offset K key (biasMin K key n a) (a i) ≤ span K key n a
      · have pass := classes_stable (l := cells 0 n a) (d := offset K key (biasMin K key n a))
          (v := span K key n a + 1) ?_
        · rw [← counting_pass (succ_pos _) (fun i inside => lt_succ_of_le (all i inside)) a] at pass
          rw [(countInto_spec _ n _ a).1 fun i inside => lt_succ_of_le (all i inside),
            map_some]
          simp only [Option.some.injEq, exists_eq_left']
          have sorted : SortsStably (byKey (offset K key (biasMin K key n a))) n a
              (copyBack n (scatter (offset K key (biasMin K key n a)) a n
                (accumulate (span K key n a + 1 : Nat) (tally (offset K key (biasMin K key n a)) n a)) a)
                a) := by
            refine ⟨copyBack_outside _ _, ?_⟩
            rw [cells_copyBack]
            exact pass
          rw [sorts_iff sorted, CountingAgrees, RadixAgrees]
          refine ⟨fun agrees => ⟨?_, .inr all⟩, fun agrees => ?_⟩
          · intro i j less inside
            rw [compared_eq (all i (by omega)), compared_eq (all j inside)]
            exact agrees i j less inside
          · intro i j less inside
            have pair := agrees.1 i j less inside
            rw [compared_eq (all i (by omega)), compared_eq (all j inside)] at pair
            exact pair
        · intro x member
          obtain ⟨i, low, high, rfl⟩ := mem_cells.mp member
          obtain ⟨k, rfl⟩ := Int.eq_ofNat_of_zero_le low
          exact lt_succ_of_le (all k (by omega))
      · have beyond : ∃ i : Nat, i < n ∧ span K key n a + 1 ≤ offset K key (biasMin K key n a) (a i) := by
          by_contra none
          exact all fun i inside => Nat.le_of_not_lt fun more => none ⟨i, inside, more⟩
        rw [(countInto_spec _ n _ a).2 beyond, map_none]
        refine ⟨?_, fun agrees => ?_⟩
        · rintro ⟨b, wrong, _⟩
          cases wrong
        · exact absurd (agrees.2.resolve_left near) all

theorem less_iff_value (x y : K.Key) : K.less x y = true ↔ K.value x < K.value y := by
  unfold KeyType.less KeyType.value
  split
  next => exact BitVec.slt_iff_toInt_lt
  next =>
    rw [BitVec.ult_iff_lt, BitVec.lt_def]
    omega

/-- The loop finds keys of the array that none of it is less than, or greater. -/
theorem extremes_spec (positive : 0 < n) :
    (∀ i : Nat, i < n → K.value (extremes K key n a).1 ≤ K.value (key (a i)) ∧
        K.value (key (a i)) ≤ K.value (extremes K key n a).2) ∧
      (∃ i : Nat, i < n ∧ (extremes K key n a).1 = key (a i)) ∧
      ∃ i : Nat, i < n ∧ (extremes K key n a).2 = key (a i) := by
  suffices run : (∀ i : Nat, (i : Int) < n → K.value (extremes K key n a).1 ≤ K.value (key (a i)) ∧
        K.value (key (a i)) ≤ K.value (extremes K key n a).2) ∧
      (∃ i : Nat, (i : Int) < n ∧ (extremes K key n a).1 = key (a i)) ∧
      ∃ i : Nat, (i : Int) < n ∧ (extremes K key n a).2 = key (a i) by
    simpa only [cast_lt] using run
  refine forRange_inv (fun j (s : K.Key × K.Key) =>
      (∀ i : Nat, (i : Int) < j → K.value s.1 ≤ K.value (key (a i)) ∧ K.value (key (a i)) ≤ K.value s.2) ∧
      (∃ i : Nat, (i : Int) < j ∧ s.1 = key (a i)) ∧ ∃ i : Nat, (i : Int) < j ∧ s.2 = key (a i))
    (by omega) ?_ ?_
  · refine ⟨?_, ⟨0, by omega, rfl⟩, ⟨0, by omega, rfl⟩⟩
    intro i less
    rw [show i = 0 by omega]
    exact ⟨le_refl _, le_refl _⟩
  · intro j s low high holds
    obtain ⟨bounds, ⟨first, before, least⟩, ⟨second, before', greatest⟩⟩ := holds
    obtain ⟨k, rfl⟩ := Int.eq_ofNat_of_zero_le (by omega : 0 ≤ j)
    refine ⟨?_, ?_, ?_⟩
    · intro i less
      dsimp only
      have here : (i : Int) < k ∨ i = k := by omega
      have lower : K.value (if K.less (key (a k)) s.1 then key (a k) else s.1) ≤ K.value s.1 ∧
          K.value (if K.less (key (a k)) s.1 then key (a k) else s.1) ≤ K.value (key (a k)) := by
        split
        next less =>
          rw [less_iff_value] at less
          omega
        next notLess =>
          rw [less_iff_value] at notLess
          omega
      have upper : K.value s.2 ≤ K.value (if K.less s.2 (key (a k)) then key (a k) else s.2) ∧
          K.value (key (a k)) ≤ K.value (if K.less s.2 (key (a k)) then key (a k) else s.2) := by
        split
        next less =>
          rw [less_iff_value] at less
          omega
        next notLess =>
          rw [less_iff_value] at notLess
          omega
      rcases here with front | rfl
      · have old := bounds i front
        omega
      · exact ⟨lower.2, upper.2⟩
    · dsimp only
      split
      next => exact ⟨k, by omega, rfl⟩
      next => exact ⟨first, by omega, least⟩
    · dsimp only
      split
      next => exact ⟨k, by omega, rfl⟩
      next => exact ⟨second, by omega, greatest⟩

/-- The difference of two words is that of the keys, where the latter is a word. -/
theorem wordSub_umax {x y : K.Key} (le : K.value y ≤ K.value x) (near : K.value x - K.value y < 2 ^ 64) :
    wordSub (K.umax x) (K.umax y) = (K.value x - K.value y).toNat := by
  unfold wordSub KeyType.umax
  omega

/-- Keys within a word of each other are told apart as they are. -/
theorem agree_of_near (near : ∀ i j : Nat, i < n → j < n →
    K.value (key (a i)) - K.value (key (a j)) < 2 ^ 64) :
    RadixAgrees K key n a ∧ CountingAgrees K key n a := by
  rcases Nat.eq_zero_or_pos n with rfl | positive
  · exact ⟨(short_agrees (by decide)).1, short_agrees (by decide)⟩
  obtain ⟨bounds, ⟨first, inside, least⟩, ⟨second, inside', greatest⟩⟩ :=
    @extremes_spec _ K key n a positive
  have distance : ∀ i : Nat, i < n → offset K key (biasMin K key n a) (a i) =
      (K.value (key (a i)) - K.value (extremes K key n a).1).toNat := by
    intro i small
    refine wordSub_umax (bounds i small).1 ?_
    rw [least]
    exact near i first small inside
  have whole : span K key n a =
      (K.value (extremes K key n a).2 - K.value (extremes K key n a).1).toNat := by
    refine wordSub_umax (le_trans (bounds first inside).1 (bounds first inside).2) ?_
    rw [least, greatest]
    exact near second first inside' inside
  have within : ∀ i : Nat, i < n → offset K key (biasMin K key n a) (a i) ≤ span K key n a := by
    intro i small
    have both := bounds i small
    rw [distance i small, whole]
    omega
  have agrees : RadixAgrees K key n a := by
    intro i j less small
    have low' := bounds j small
    rw [compared_eq (within i (by omega)), compared_eq (within j small), distance i (by omega),
      distance j small, less_iff_value]
    omega
  exact ⟨agrees, agrees, .inr within⟩

theorem near_of_words (small : K.size ≤ 8) (x y : K.Key) : K.value x - K.value y < 2 ^ 64 := by
  have wide : 2 ^ (8 * K.size) ≤ 2 ^ 64 := Nat.pow_le_pow_right (by decide) (by omega)
  have wide' : (2 : Int) ^ (8 * K.size) ≤ 2 ^ 64 := by exact_mod_cast wide
  unfold KeyType.value
  split
  next =>
    have first := BitVec.two_mul_toInt_lt (x := x)
    have second := BitVec.le_two_mul_toInt (x := y)
    omega
  next =>
    omega

end Runs

end Micron.Sort
