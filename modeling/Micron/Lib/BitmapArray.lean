import Mathlib.Data.Nat.Count
import Mathlib.Data.Nat.Bitwise

/-!
# Arrays compressed by a bitmap

A sparse array of `w` slots keeps a bitmap of the slots in use and a dense row
of their items: the item of slot `i` stands at the number of slots in use
before `i`.  `slot` reads the sparse array off the pair, and the lemmas say what
replacing, inserting and removing an item of the row does to it.
-/

set_option autoImplicit false

namespace Micron.Lib

open List Nat

variable {α : Type} {w : Nat}

def popcount (b : BitVec w) : Nat := Nat.count (fun j => b.getLsbD j = true) w

def rank (b : BitVec w) (i : Nat) : Nat := Nat.count (fun j => b.getLsbD j = true) i

def slot (b : BitVec w) (items : List α) (i : Nat) : Option α :=
  if b.getLsbD i then items[rank b i]? else none

theorem getLsbD_one_shiftLeft {i : Nat} (inside : i < w) (j : Nat) :
    (1#w <<< i).getLsbD j = decide (j = i) := by
  rw [BitVec.getLsbD_shiftLeft, BitVec.getLsbD_one]
  by_cases same : j = i
  · subst same
    simp [inside]
    omega
  · by_cases below : j < i
    · simp [below, same]
    · have later : j - i ≠ 0 := by omega
      simp [same, later]

theorem getLsbD_or_bit (b : BitVec w) {i : Nat} (inside : i < w) (j : Nat) :
    (b ||| (1#w <<< i)).getLsbD j = (b.getLsbD j || decide (j = i)) := by
  rw [BitVec.getLsbD_or, getLsbD_one_shiftLeft inside]

theorem getLsbD_clear_bit (b : BitVec w) {i : Nat} (inside : i < w) (j : Nat) :
    (b &&& ~~~(1#w <<< i)).getLsbD j = (b.getLsbD j && !decide (j = i)) := by
  rw [BitVec.getLsbD_and, BitVec.getLsbD_not, getLsbD_one_shiftLeft inside]
  by_cases low : j < w
  · simp [low]
  · simp [BitVec.getLsbD_of_ge b j (by omega)]

theorem count_congr {p q : Nat → Prop} [DecidablePred p] [DecidablePred q] {n : Nat}
    (same : ∀ k, k < n → (p k ↔ q k)) : Nat.count p n = Nat.count q n :=
  le_antisymm (count_mono_left fun k below => (same k below).mp)
    (count_mono_left fun k below => (same k below).mpr)

theorem count_below (p : Nat → Bool) (i : Nat) {n : Nat} (enough : i ≤ n) :
    Nat.count (fun j => (p j && decide (j < i)) = true) n = Nat.count (fun j => p j = true) i := by
  induction n, enough using le_induction with
  | base =>
    apply count_congr
    intro k below
    simp [below]
  | succ n enough ih =>
    rw [count_succ, ih]
    simp [enough]

/-- Masking off the bits from `i` on leaves those counted by `rank`. -/
theorem popcount_and_mask (b : BitVec w) {i : Nat} (inside : i < w) :
    popcount (b &&& ((1#w <<< i) - 1#w)) = rank b i := by
  have positive : 0 < w := by omega
  have power : (1#w <<< i).toNat = 2 ^ i := by
    rw [BitVec.toNat_shiftLeft, BitVec.toNat_ofNat,
      Nat.mod_eq_of_lt (Nat.one_lt_two_pow positive.ne'), Nat.shiftLeft_eq, one_mul]
    exact Nat.mod_eq_of_lt (Nat.pow_lt_pow_right (by decide) inside)
  have mask : ((1#w <<< i) - 1#w).toNat = 2 ^ i - 1 := by
    have least : 0 < 2 ^ i := Nat.two_pow_pos i
    rw [BitVec.toNat_sub, power, BitVec.toNat_ofNat,
      Nat.mod_eq_of_lt (Nat.one_lt_two_pow positive.ne')]
    have turn : 2 ^ w - 1 + 2 ^ i = (2 ^ i - 1) + 2 ^ w := by omega
    rw [turn, add_mod_right, mod_eq_of_lt (by omega)]
  have bits : ∀ j, (b &&& ((1#w <<< i) - 1#w)).getLsbD j = (b.getLsbD j && decide (j < i)) := by
    intro j
    rw [BitVec.getLsbD_and, ← BitVec.testBit_toNat ((1#w <<< i) - 1#w), mask,
      testBit_two_pow_sub_one]
  unfold popcount rank
  simp only [bits]
  exact count_below (fun j => b.getLsbD j) i (le_of_lt inside)

theorem rank_lt {b : BitVec w} {i j : Nat} (inUse : b.getLsbD i = true) (less : i < j) :
    rank b i < rank b j := count_strict_mono inUse less

theorem rank_lt_popcount {b : BitVec w} {i : Nat} (inUse : b.getLsbD i = true) :
    rank b i < popcount b := rank_lt inUse (BitVec.lt_of_getLsbD inUse)

/-- Every position of the row is the rank of a slot in use. -/
theorem exists_rank_eq {b : BitVec w} {n p : Nat} (below : p < rank b n) :
    ∃ i, i < n ∧ b.getLsbD i = true ∧ rank b i = p := by
  induction n with
  | zero => simp [rank] at below
  | succ n ih =>
    rw [rank, count_succ] at below
    by_cases earlier : p < rank b n
    · obtain ⟨i, less, inUse, same⟩ := ih earlier
      exact ⟨i, lt_succ_of_lt less, inUse, same⟩
    · have equal : rank b n = Nat.count (fun j => b.getLsbD j = true) n := rfl
      split at below
      · rename_i inUse
        exact ⟨n, lt_succ_self n, inUse, by omega⟩
      · omega

/-- Setting a bit moves the slots after it up by one. -/
theorem rank_or_bit {b : BitVec w} {i j : Nat} (inside : i < w) (free : b.getLsbD i = false) :
    rank (b ||| (1#w <<< i)) j = if i < j then rank b j + 1 else rank b j := by
  induction j with
  | zero => simp [rank]
  | succ j ih =>
    have step : ∀ c : BitVec w, rank c (j + 1) = rank c j + if c.getLsbD j = true then 1 else 0 :=
      fun c => count_succ _ j
    rw [step, step, ih, getLsbD_or_bit b inside]
    rcases lt_trichotomy i j with less | same | greater
    · have other : j ≠ i := by omega
      simp [less, lt_succ_of_lt less, other]
      omega
    · subst same
      simp [free]
    · have other : j ≠ i := by omega
      have notLess : ¬i < j := by omega
      have notLess' : ¬i < j + 1 := by omega
      simp [notLess, notLess', other]

/-- Clearing a bit moves the slots after it down by one. -/
theorem rank_clear_bit {b : BitVec w} {i j : Nat} (inside : i < w) (inUse : b.getLsbD i = true) :
    rank (b &&& ~~~(1#w <<< i)) j = if i < j then rank b j - 1 else rank b j := by
  induction j with
  | zero => simp [rank]
  | succ j ih =>
    have step : ∀ c : BitVec w, rank c (j + 1) = rank c j + if c.getLsbD j = true then 1 else 0 :=
      fun c => count_succ _ j
    rw [step, step, ih, getLsbD_clear_bit b inside]
    rcases lt_trichotomy i j with less | same | greater
    · have other : j ≠ i := by omega
      have counted : 0 < rank b j := lt_of_le_of_lt (zero_le _) (rank_lt inUse less)
      simp [less, lt_succ_of_lt less, other]
      omega
    · subst same
      simp [inUse]
    · have other : j ≠ i := by omega
      have notLess : ¬i < j := by omega
      have notLess' : ¬i < j + 1 := by omega
      simp [notLess, notLess', other]

section Slots
variable {b : BitVec w} {items : List α} {i : Nat}

theorem slot_of_free (free : b.getLsbD i = false) : slot b items i = none := by
  simp [slot, free]

theorem slot_of_inUse (full : items.length = popcount b) (inUse : b.getLsbD i = true) :
    ∃ x, slot b items i = some x ∧ x ∈ items := by
  have inside : rank b i < items.length := by
    rw [full]
    exact rank_lt_popcount inUse
  exact ⟨items[rank b i], by simp [slot, inUse, inside], getElem_mem inside⟩

theorem inUse_of_slot {x : α} (found : slot b items i = some x) : b.getLsbD i = true := by
  unfold slot at found
  split at found
  · assumption
  · cases found

theorem mem_iff_slot (full : items.length = popcount b) {x : α} :
    x ∈ items ↔ ∃ i, slot b items i = some x := by
  constructor
  · intro member
    obtain ⟨p, inside, same⟩ := getElem_of_mem member
    rw [full] at inside
    obtain ⟨i, _, inUse, here⟩ := exists_rank_eq inside
    refine ⟨i, ?_⟩
    rw [slot, if_pos inUse, here, ← same]
    simp
  · rintro ⟨i, found⟩
    rw [slot, if_pos (inUse_of_slot found)] at found
    exact mem_of_getElem? found

/-- Writing over the item of a slot in use. -/
theorem slot_set (full : items.length = popcount b) (inUse : b.getLsbD i = true) (x : α)
    (j : Nat) : slot b (items.set (rank b i) x) j = if j = i then some x else slot b items j := by
  have inside : rank b i < items.length := by
    rw [full]
    exact rank_lt_popcount inUse
  by_cases same : j = i
  · subst same
    simp [slot, inUse, inside]
  · rw [if_neg same]
    unfold slot
    split
    · rename_i inUseJ
      have distinct : rank b i ≠ rank b j :=
        fun equal => same (count_injective inUse inUseJ equal).symm
      rw [getElem?_set_ne distinct]
    · rfl

theorem popcount_or_bit (inside : i < w) (free : b.getLsbD i = false) :
    popcount (b ||| (1#w <<< i)) = popcount b + 1 := by
  have whole := @rank_or_bit w b i w inside free
  rwa [if_pos inside] at whole

theorem popcount_clear_bit (inside : i < w) (inUse : b.getLsbD i = true) :
    popcount (b &&& ~~~(1#w <<< i)) = popcount b - 1 := by
  have whole := @rank_clear_bit w b i w inside inUse
  rwa [if_pos inside] at whole

/-- An item more, for a slot that was free. -/
theorem slot_insert (full : items.length = popcount b) (inside : i < w)
    (free : b.getLsbD i = false) (x : α) (j : Nat) :
    slot (b ||| (1#w <<< i)) (items.take (rank b i) ++ x :: items.drop (rank b i)) j =
      if j = i then some x else slot b items j := by
  have room : rank b i ≤ items.length := by
    rw [full]
    exact count_monotone _ (le_of_lt inside)
  have front : (items.take (rank b i)).length = rank b i := by
    rw [length_take, min_eq_left room]
  by_cases same : j = i
  · subst same
    have here : rank (b ||| (1#w <<< j)) j = rank b j := by
      rw [rank_or_bit inside free, if_neg (lt_irrefl j)]
    rw [slot, getLsbD_or_bit b inside, here, if_pos (by simp), if_pos rfl,
      getElem?_append_right (by rw [front]), front, Nat.sub_self]
    rfl
  · rw [if_neg same]
    unfold slot
    rw [getLsbD_or_bit b inside, decide_eq_false same, Bool.or_false, rank_or_bit inside free]
    split
    · rename_i inUseJ
      rcases lt_or_gt_of_ne same with less | greater
      · have earlier : rank b j < rank b i := rank_lt inUseJ less
        rw [if_neg (by omega), getElem?_append_left (by rw [front]; exact earlier),
          getElem?_take_of_lt earlier]
      · have later : rank b i ≤ rank b j := count_monotone _ (le_of_lt greater)
        rw [if_pos greater, getElem?_append_right (by rw [front]; omega), front]
        have shift : rank b j + 1 - rank b i = (rank b j - rank b i) + 1 := by omega
        rw [shift, getElem?_cons_succ, getElem?_drop]
        congr 1
        omega
    · rfl

/-- An item less. -/
theorem slot_remove (full : items.length = popcount b) (inside : i < w)
    (inUse : b.getLsbD i = true) (j : Nat) :
    slot (b &&& ~~~(1#w <<< i)) (items.take (rank b i) ++ items.drop (rank b i + 1)) j =
      if j = i then none else slot b items j := by
  have room : rank b i < items.length := by
    rw [full]
    exact rank_lt_popcount inUse
  have front : (items.take (rank b i)).length = rank b i := by
    rw [length_take, min_eq_left (le_of_lt room)]
  by_cases same : j = i
  · subst same
    rw [slot, getLsbD_clear_bit b inside]
    simp
  · rw [if_neg same]
    unfold slot
    rw [getLsbD_clear_bit b inside, decide_eq_false same, Bool.not_false, Bool.and_true,
      rank_clear_bit inside inUse]
    split
    · rename_i inUseJ
      rcases lt_or_gt_of_ne same with less | greater
      · have earlier : rank b j < rank b i := rank_lt inUseJ less
        rw [if_neg (by omega), getElem?_append_left (by rw [front]; exact earlier),
          getElem?_take_of_lt earlier]
      · have later : rank b i < rank b j := rank_lt inUse greater
        rw [if_pos greater, getElem?_append_right (by rw [front]; omega), front,
          getElem?_drop]
        congr 1
        omega
    · rfl

end Slots

end Micron.Lib
