import Micron.Lib.Chain
import Micron.Tlsf.Model

/-!
# The bitmaps and the rows of free blocks

The bit of a class is set when its row is not empty, and the bit of a level when one of its
classes is set.  A block is put into its row, and taken out of it.
-/

set_option autoImplicit false

namespace Micron.Tlsf

open Micron.Lib Function

structure Marked (fl : BitVec 32) (sl : Nat → BitVec 32) (heads : Nat → Option Nat) : Prop where
  row : ∀ c : Nat × Nat, c.1 < flMax → c.2 < slCount →
    (sl c.1).getLsbD c.2 = (heads (idx c)).isSome
  rowHigh : ∀ f < flMax, ∀ k, slCount ≤ k → (sl f).getLsbD k = false
  level : ∀ f < flMax, fl.getLsbD f = decide (sl f ≠ 0#32)
  levelHigh : ∀ f, flMax ≤ f → fl.getLsbD f = false

namespace Marked

variable {fl : BitVec 32} {sl : Nat → BitVec 32} {heads : Nat → Option Nat} {c : Nat × Nat}

theorem empty : Marked 0#32 (fun _ => 0#32) (fun _ => none) where
  row _ _ _ := BitVec.getLsbD_zero
  rowHigh _ _ _ _ := BitVec.getLsbD_zero
  level _ _ := by simp
  levelHigh _ _ := BitVec.getLsbD_zero

theorem heads_other (small : c.2 < slCount) (p : Option Nat) {c' : Nat × Nat} (small' : c'.2 < slCount)
    (differ : c' ≠ c) : update heads (idx c) p (idx c') = heads (idx c') :=
  update_of_ne (fun same => differ (idx_inj small' small same)) _ _

theorem set (marked : Marked fl sl heads) (levels : c.1 < flMax) (small : c.2 < slCount) (x : Nat) :
    Marked (fl ||| (1#32 <<< c.1)) (update sl c.1 (sl c.1 ||| (1#32 <<< c.2)))
      (update heads (idx c) (some x)) := by
  have below : c.1 < 32 := lt_trans levels (by decide)
  have below' : c.2 < 32 := lt_trans small (by decide)
  refine ⟨?_, ?_, ?_, ?_⟩
  · intro c' levels' small'
    by_cases same : c' = c
    · rw [same, update_self, update_self, BitVec.getLsbD_or,
        getLsbD_one_shift below']
      simp
    · rw [heads_other small _ small' same, ← marked.row c' levels' small']
      by_cases sameLevel : c'.1 = c.1
      · have differ : c'.2 ≠ c.2 := fun equal => same (Prod.ext sameLevel equal)
        rw [sameLevel, update_self, BitVec.getLsbD_or, getLsbD_one_shift below']
        simp [differ]
      · rw [update_of_ne sameLevel]
  · intro f levelsF k high
    by_cases same : f = c.1
    · have differ : k ≠ c.2 := by omega
      rw [same, update_self, BitVec.getLsbD_or, getLsbD_one_shift below',
        marked.rowHigh c.1 levels k high]
      simp [differ]
    · rw [update_of_ne same]
      exact marked.rowHigh f levelsF k high
  · intro f levelsF
    rw [BitVec.getLsbD_or, getLsbD_one_shift below]
    by_cases same : f = c.1
    · have some_ : sl c.1 ||| (1#32 <<< c.2) ≠ 0#32 := by
        intro zero
        have bit := congrArg (fun m => BitVec.getLsbD m c.2) zero
        simp only [BitVec.getLsbD_or, getLsbD_one_shift below', BitVec.getLsbD_zero] at bit
        simp at bit
      rw [same, update_self]
      simp [some_]
    · rw [update_of_ne same, marked.level f levelsF]
      simp [same]
  · intro f high
    have differ : f ≠ c.1 := by omega
    rw [BitVec.getLsbD_or, getLsbD_one_shift below, marked.levelHigh f high]
    simp [differ]

/-- The first block of a row goes, and another is the first. -/
theorem head (marked : Marked fl sl heads) (levels : c.1 < flMax) (small : c.2 < slCount)
    (was : (heads (idx c)).isSome = true) (x : Nat) :
    Marked fl sl (update heads (idx c) (some x)) := by
  refine ⟨?_, marked.rowHigh, marked.level, marked.levelHigh⟩
  intro c' levels' small'
  by_cases same : c' = c
  · rw [same, update_self, marked.row c levels small, was]
    rfl
  · rw [heads_other small _ small' same]
    exact marked.row c' levels' small'

theorem clear (marked : Marked fl sl heads) (levels : c.1 < flMax) (small : c.2 < slCount)
    {row : BitVec 32} (isRow : sl c.1 &&& ~~~(1#32 <<< c.2) = row) :
    Marked (if row = 0#32 then fl &&& ~~~(1#32 <<< c.1) else fl) (update sl c.1 row)
      (update heads (idx c) none) := by
  have below : c.1 < 32 := lt_trans levels (by decide)
  have below' : c.2 < 32 := lt_trans small (by decide)
  have bits : ∀ k, row.getLsbD k = ((sl c.1).getLsbD k && !decide (k = c.2)) := by
    intro k
    rw [← isRow, BitVec.getLsbD_and, BitVec.getLsbD_not, getLsbD_one_shift below']
    by_cases word : k < 32
    · simp [word]
    · have out : (sl c.1).getLsbD k = false := BitVec.getLsbD_of_ge _ _ (by omega)
      simp [out]
  have levelBits : ∀ k, (if row = 0#32 then fl &&& ~~~(1#32 <<< c.1) else fl).getLsbD k =
      (fl.getLsbD k && !(decide (k = c.1) && decide (row = 0#32))) := by
    intro k
    by_cases zero : row = 0#32
    · rw [if_pos zero, BitVec.getLsbD_and, BitVec.getLsbD_not, getLsbD_one_shift below]
      by_cases word : k < 32
      · simp [word, zero]
      · have out : fl.getLsbD k = false := BitVec.getLsbD_of_ge _ _ (by omega)
        simp [out]
    · rw [if_neg zero]
      simp [zero]
  refine ⟨?_, ?_, ?_, ?_⟩
  · intro c' levels' small'
    by_cases same : c' = c
    · rw [same, update_self, update_self, bits]
      simp
    · rw [heads_other small _ small' same, ← marked.row c' levels' small']
      by_cases sameLevel : c'.1 = c.1
      · have differ : c'.2 ≠ c.2 := fun equal => same (Prod.ext sameLevel equal)
        rw [sameLevel, update_self, bits]
        simp [differ]
      · rw [update_of_ne sameLevel]
  · intro f levelsF k high
    by_cases same : f = c.1
    · rw [same, update_self, bits, marked.rowHigh c.1 levels k high, Bool.false_and]
    · rw [update_of_ne same]
      exact marked.rowHigh f levelsF k high
  · intro f levelsF
    rw [levelBits, marked.level f levelsF]
    by_cases same : f = c.1
    · rw [same, update_self]
      by_cases zero : row = 0#32
      · simp [zero]
      · have some_ : sl c.1 ≠ 0#32 := by
          intro none_
          refine zero ?_
          rw [← isRow, none_]
          exact BitVec.zero_and
        simp [zero, some_]
    · rw [update_of_ne same]
      simp [same]
  · intro f high
    rw [levelBits, marked.levelHigh f high, Bool.false_and]

/-- A class that is found has a row, and its sizes are no smaller. -/
theorem findClass_spec {s : State} (marked : Marked s.flBitmap s.slBitmap s.heads)
    (levels : c.1 < flMax) {c' : Nat × Nat} (found : findClass s c = some c') :
    Below c c' ∧ c'.1 < flMax ∧ c'.2 < slCount ∧ (s.heads (idx c')).isSome = true := by
  -- a bit of a row stands for a class
  have ofBit : ∀ f < flMax, ∀ k, (s.slBitmap f).getLsbD k = true →
      k < slCount ∧ (s.heads (idx (f, k))).isSome = true := by
    intro f levelsF k bit
    have small : k < slCount := by
      by_contra large
      rw [marked.rowHigh f levelsF k (Nat.le_of_not_lt large)] at bit
      exact nomatch bit
    exact ⟨small, by rw [← marked.row (f, k) levelsF small]; exact bit⟩
  simp only [findClass] at found
  split at found
  · next =>
      split at found
      · exact nomatch found
      · next some_ =>
          obtain rfl := Option.some.inj found
          have bit := ctz_spec some_
          generalize ctz (s.flBitmap &&& BitVec.allOnes 32 <<< (c.1 + 1)) = f at bit
          rw [BitVec.getLsbD_and, getLsbD_allOnes_shift, Bool.and_eq_true, Bool.and_eq_true,
            decide_eq_true_eq, decide_eq_true_eq] at bit
          obtain ⟨isLevel, _, above⟩ := bit
          have levelsF : f < flMax := by
            by_contra large
            rw [marked.levelHigh f (Nat.le_of_not_lt large)] at isLevel
            exact nomatch isLevel
          rw [marked.level f levelsF, decide_eq_true_eq] at isLevel
          obtain ⟨small, has⟩ := ofBit f levelsF _ (ctz_spec isLevel)
          exact ⟨.inl above, levelsF, small, has⟩
  · next some_ =>
      obtain rfl := Option.some.inj found
      have bit := ctz_spec some_
      generalize ctz (s.slBitmap c.1 &&& BitVec.allOnes 32 <<< c.2) = k at bit
      rw [BitVec.getLsbD_and, getLsbD_allOnes_shift, Bool.and_eq_true, Bool.and_eq_true,
        decide_eq_true_eq, decide_eq_true_eq] at bit
      obtain ⟨isRow, _, above⟩ := bit
      obtain ⟨small, has⟩ := ofBit c.1 levels k isRow
      exact ⟨.inr ⟨rfl, above⟩, levels, small, has⟩

end Marked

def nexts (mem : Nat → Hdr) : Nat → Option Nat := fun a => (mem a).nextFree

def prevs (mem : Nat → Hdr) : Nat → Option Nat := fun a => (mem a).prevFree

def classOf (s : State) (b : Nat) : Nat × Nat := mappingInsert (s.mem b).bsize

/-- What taking a block out of its row and putting it there leaves alone. -/
structure SameFrame (s s' : State) : Prop where
  hasBase : s'.hasBase = s.hasBase
  total : s'.total = s.total
  flCount : s'.flCount = s.flCount
  allocatedBytes : s'.allocatedBytes = s.allocatedBytes

theorem flRemove_frame (s : State) (b : Nat) : SameFrame s (flRemove s b) := by
  unfold flRemove
  cases (s.mem b).prevFree <;> cases (s.mem b).nextFree <;> dsimp only <;> split <;>
    exact ⟨rfl, rfl, rfl, rfl⟩

theorem flRemove_mem (s : State) (b a : Nat) :
    (flRemove s b).mem a = { s.mem a with
      nextFree := bypassNext (nexts s.mem) (prevs s.mem) b a
      prevFree := bypassPrev (nexts s.mem) (prevs s.mem) b a } := by
  have linked : ∀ prev next, (s.mem b).prevFree = prev → (s.mem b).nextFree = next →
      (flRemove s b).mem = (next.elim (prev.elim s fun p => setNextFree s p next) fun n =>
        setPrevFree (prev.elim s fun p => setNextFree s p next) n prev).mem := by
    intro prev next isPrev isNext
    unfold flRemove
    rw [isPrev, isNext]
    cases prev <;> cases next <;> dsimp only <;> split <;> rfl
  rw [linked _ _ rfl rfl]
  unfold bypassNext bypassPrev nexts prevs
  cases prev : (s.mem b).prevFree with
  | none =>
    cases next : (s.mem b).nextFree with
    | none => simp
    | some n =>
      by_cases same : a = n
      · simp [setPrevFree, setHdr, same]
      · simp [setPrevFree, setHdr, same, Ne.symm same]
  | some p =>
    cases next : (s.mem b).nextFree with
    | none =>
      by_cases same : a = p
      · simp [setNextFree, setHdr, same]
      · simp [setNextFree, setHdr, same, Ne.symm same]
    | some n =>
      by_cases same : a = n
      · by_cases same' : n = p
        · simp [setPrevFree, setNextFree, setHdr, same, same']
        · simp [setPrevFree, setNextFree, setHdr, same, same', Ne.symm same']
      · by_cases same' : a = p
        · subst same'
          simp [setPrevFree, setNextFree, setHdr, same, Ne.symm same]
        · simp [setPrevFree, setNextFree, setHdr, same, same', Ne.symm same', Ne.symm same]

theorem flRemove_heads (s : State) (b : Nat) :
    (flRemove s b).heads = if (s.mem b).prevFree = none then
      update s.heads (idx (classOf s b)) (s.mem b).nextFree else s.heads := by
  unfold flRemove classOf
  cases (s.mem b).prevFree <;> cases (s.mem b).nextFree <;> dsimp only <;> split <;> rfl

theorem flRemove_marked {s : State} {b : Nat} (marked : Marked s.flBitmap s.slBitmap s.heads)
    (levels : (classOf s b).1 < flMax) (small : (classOf s b).2 < slCount)
    (was : (s.heads (idx (classOf s b))).isSome = true) :
    Marked (flRemove s b).flBitmap (flRemove s b).slBitmap (flRemove s b).heads := by
  have marks : ∃ s', (flRemove s b = if s'.heads (idx (classOf s b)) = none then
      unmarkClass s' (classOf s b) else s') ∧ s'.flBitmap = s.flBitmap ∧ s'.slBitmap = s.slBitmap := by
    unfold flRemove classOf
    generalize mappingInsert (s.mem b).bsize = c
    cases (s.mem b).prevFree <;> cases (s.mem b).nextFree <;> exact ⟨_, rfl, rfl, rfl⟩
  obtain ⟨s', isResult, sameFl, sameSl⟩ := marks
  have sameHeads : (flRemove s b).heads = s'.heads := by
    rw [isResult]
    split <;> rfl
  have filled : s.heads (idx (classOf s b)) ≠ none := by
    intro empty
    rw [empty] at was
    exact nomatch was
  have heads := flRemove_heads s b
  rw [sameHeads] at heads ⊢
  rw [isResult, heads]
  by_cases first : (s.mem b).prevFree = none
  · rw [if_pos first, update_self]
    cases (s.mem b).nextFree with
    | none =>
      unfold unmarkClass
      rw [sameFl, sameSl]
      exact marked.clear levels small rfl
    | some n =>
      rw [if_neg nofun, sameFl, sameSl]
      exact marked.head levels small was n
  · rw [if_neg first, if_neg filled, sameFl, sameSl]
    exact marked

theorem flInsert_frame (s : State) (b : Nat) : SameFrame s (flInsert s b) := by
  unfold flInsert
  generalize mappingInsert (s.mem b).bsize = c
  dsimp only
  cases s.heads (idx c) <;> refine ⟨?_, ?_, ?_, ?_⟩ <;>
    simp only [markClass, setFlags, setHead, setPrevFree, setNextFree, setHdr]

theorem flInsert_heads (s : State) (b : Nat) :
    (flInsert s b).heads = update s.heads (idx (classOf s b)) (some b) := by
  unfold flInsert classOf
  generalize mappingInsert (s.mem b).bsize = c
  dsimp only
  cases s.heads (idx c) <;> rfl

theorem flInsert_marked {s : State} {b : Nat} (marked : Marked s.flBitmap s.slBitmap s.heads)
    (levels : (classOf s b).1 < flMax) (small : (classOf s b).2 < slCount) :
    Marked (flInsert s b).flBitmap (flInsert s b).slBitmap (flInsert s b).heads := by
  have marks : (flInsert s b).flBitmap = (markClass s (classOf s b)).flBitmap ∧
      (flInsert s b).slBitmap = (markClass s (classOf s b)).slBitmap := by
    unfold flInsert classOf
    generalize mappingInsert (s.mem b).bsize = c
    dsimp only
    cases s.heads (idx c) <;>
      simp only [markClass, setFlags, setHead, setPrevFree, setNextFree, setHdr, and_self]
  rw [marks.1, marks.2, flInsert_heads]
  exact marked.set levels small b

theorem flInsert_mem (s : State) (b a : Nat) :
    (flInsert s b).mem a = { s.mem a with
      flags := if a = b then blockFree else (s.mem a).flags
      nextFree := if a = b then s.heads (idx (classOf s b)) else (s.mem a).nextFree
      prevFree := if s.heads (idx (classOf s b)) = some a then some b
        else if a = b then none else (s.mem a).prevFree } := by
  unfold flInsert classOf
  generalize mappingInsert (s.mem b).bsize = c
  dsimp only
  cases s.heads (idx c) with
  | none =>
    by_cases same : a = b
    · simp [markClass, setFlags, setHead, setPrevFree, setNextFree, setHdr, same]
    · simp [markClass, setFlags, setHead, setPrevFree, setNextFree, setHdr, same]
  | some h =>
    by_cases same : a = b
    · by_cases same' : b = h
      · simp [markClass, setFlags, setHead, setPrevFree, setNextFree, setHdr, same, same']
      · simp [markClass, setFlags, setHead, setPrevFree, setNextFree, setHdr, same, same', Ne.symm same']
    · by_cases same' : a = h
      · subst same'
        simp [markClass, setFlags, setHead, setPrevFree, setNextFree, setHdr, same]
      · simp [markClass, setFlags, setHead, setPrevFree, setNextFree, setHdr, same, same', Ne.symm same']

end Micron.Tlsf
