import Micron.Lib.Lanes
import Micron.Regex.Prefilter

/-!
# The two loops of `truffle_find_first`

The loop over single bytes and the loop over blocks of 32.  A block looks every byte up
in both tables: a shuffle gives zero where bit 7 of the index is set, and that bit is
flipped for the second table, so one of the two answers is always zero.
-/

set_option autoImplicit false

namespace Micron.Regex.Truffle

open Micron.Lib List Nat Bool

abbrev Register := Nat → BitVec 8

def broadcast (table : Nat → Nat) : Register := fun i => BitVec.ofNat 8 (table (i % 16))

def loadu (p : List UInt8) (at_ : Nat) : Register := fun i => (p.getD (at_ + i) 0).toBitVec

def set1 (b : BitVec 8) : Register := fun _ => b

def orI256 (a b : Register) : Register := fun i => a i ||| b i

def andI256 (a b : Register) : Register := fun i => a i &&& b i

def xorI256 (a b : Register) : Register := fun i => a i ^^^ b i

/-- Sixteen bytes are looked up in their own half, by the low four bits of the index. -/
def shuffleI8 (a mask : Register) : Register := fun i =>
  if (mask i).getLsbD 7 then 0#8 else a (i / 16 * 16 + (mask i &&& 0x0f#8).toNat)

/-- Two neighbours are shifted as one number. -/
def shrI16 (a : Register) (n : Nat) : Register := fun i =>
  let pair : BitVec 16 := a (i / 2 * 2 + 1) ++ a (i / 2 * 2)
  if i % 2 = 0 then (pair >>> n).extractLsb' 0 8 else (pair >>> n).extractLsb' 8 8

def cmpeqI8 (a b : Register) : Nat → Bool := fun i => a i == b i

def pow2 (i : Nat) : Nat := [1, 2, 4, 8, 16, 32, 64, 128, 1, 2, 4, 8, 16, 32, 64, 128].getD i 0

/-- What is left of a block when the bytes outside the set are cleared. -/
def res (t : TruffleMasks) (v : Register) : Register :=
  let s1 := shuffleI8 (broadcast t.loClear) v
  let s2 := shuffleI8 (broadcast t.loSet) (xorI256 v (set1 0x80#8))
  let clo := orI256 s1 s2
  let hi3 := andI256 (shrI16 v 4) (set1 0x07#8)
  let bv := shuffleI8 (broadcast pow2) hi3
  andI256 clo bv

def inclass (t : TruffleMasks) (v : Register) : BitVec 32 :=
  ~~~(moveMask (cmpeqI8 (res t v) (set1 0#8)) 32)

def scalar (t : TruffleMasks) : List UInt8 → Nat → Nat
  | [], i => i
  | c :: rest, i => if t.hits c then i else scalar t rest (i + 1)

/-- The loop over blocks, at `i`, and the loop over single bytes after it. -/
def vector (t : TruffleMasks) (p : List UInt8) : Nat → Nat → Nat
  | 0, i => scalar t (p.drop i) i
  | turns + 1, i =>
    if i + 32 ≤ p.length then
      let found := inclass t (loadu p i)
      if found ≠ 0#32 then i + ctz found else vector t p turns (i + 32)
    else scalar t (p.drop i) i

def findFirst (t : TruffleMasks) (p : List UInt8) : Nat := scalar t p 0

def findFirstAvx2 (t : TruffleMasks) (p : List UInt8) : Nat := vector t p p.length 0

theorem lowNibble (v : BitVec 8) : (v &&& 0x0f#8).toNat = v.toNat % 16 := by
  exact and_two_pow_sub_one_eq_mod v.toNat 4

theorem shuffle_broadcast (table : Nat → Nat) (mask : Register) (i : Nat) :
    shuffleI8 (broadcast table) mask i =
      if (mask i).getLsbD 7 then 0#8 else BitVec.ofNat 8 (table ((mask i).toNat % 16)) := by
  unfold shuffleI8 broadcast
  rw [lowNibble]
  have row : (i / 16 * 16 + (mask i).toNat % 16) % 16 = (mask i).toNat % 16 := by omega
  simp only [row]

/-- What leaks in from the neighbour is above the three bits. -/
theorem shrI16_masked (v : Register) (i : Nat) :
    andI256 (shrI16 v 4) (set1 0x07#8) i = (v i >>> 4) &&& 0x07#8 := by
  unfold andI256 shrI16 set1
  split
  next low =>
    have own : i / 2 * 2 = i := by omega
    rw [own]
    refine BitVec.eq_of_getLsbD_eq fun k inside => ?_
    have seven : (0x07#8).getLsbD k = decide (k < 3) := by
      have all : ∀ j < 8, (0x07#8).getLsbD j = decide (j < 3) := by decide
      exact all k inside
    rw [BitVec.getLsbD_and, BitVec.getLsbD_and, seven, BitVec.getLsbD_extractLsb',
      BitVec.getLsbD_ushiftRight, BitVec.getLsbD_ushiftRight, BitVec.getLsbD_append]
    by_cases three : k < 3
    · have lower : 4 + k < 8 := by omega
      simp [inside, lower]
    · simp [three]
  next high =>
    have own : i / 2 * 2 + 1 = i := by omega
    rw [own]
    refine BitVec.eq_of_getLsbD_eq fun k inside => ?_
    rw [BitVec.getLsbD_and, BitVec.getLsbD_and, BitVec.getLsbD_extractLsb',
      BitVec.getLsbD_ushiftRight, BitVec.getLsbD_ushiftRight, BitVec.getLsbD_append]
    have upper : ¬4 + (8 + k) < 8 := by omega
    have place : 4 + (8 + k) - 8 = 4 + k := by omega
    simp [inside, upper, place]

theorem pow2_eq : ∀ k < 8, pow2 k = 2 ^ k := by decide

theorem place_eq : ∀ v : BitVec 8,
    ((v >>> 4) &&& 0x07#8).getLsbD 7 = false ∧ ((v >>> 4) &&& 0x07#8).toNat = v.toNat / 16 % 8 := by
  decide +kernel

theorem flip_eq : ∀ v : BitVec 8,
    (v ^^^ 0x80#8).getLsbD 7 = !v.getLsbD 7 ∧ (v ^^^ 0x80#8).toNat % 16 = v.toNat % 16 ∧
      (v.getLsbD 7 = true ↔ v.toNat / 128 % 2 = 1) := by
  decide +kernel

/-- A byte is cleared if its bit is not in the table of its half. -/
theorem res_eq_zero_iff (t : TruffleMasks) (v : Register) (i : Nat) :
    res t v i = 0#8 ↔ t.bit (v i).toNat = false := by
  obtain ⟨noLeak, place⟩ := place_eq (v i)
  obtain ⟨flipped, row, half⟩ := flip_eq (v i)
  have small : (v i).toNat / 16 % 8 < 8 := mod_lt _ (by decide)
  have single : shuffleI8 (broadcast pow2) (andI256 (shrI16 v 4) (set1 0x07#8)) i =
      BitVec.twoPow 8 ((v i).toNat / 16 % 8) := by
    rw [shuffle_broadcast, shrI16_masked, noLeak, place, if_neg Bool.false_ne_true,
      mod_eq_of_lt (by omega : (v i).toNat / 16 % 8 < 16), pow2_eq _ small]
    refine BitVec.eq_of_toNat_eq ?_
    rw [BitVec.toNat_ofNat, BitVec.toNat_twoPow]
  have looked : orI256 (shuffleI8 (broadcast t.loClear) v)
      (shuffleI8 (broadcast t.loSet) (xorI256 v (set1 0x80#8))) i =
        BitVec.ofNat 8 (if (v i).toNat / 128 % 2 = 1 then t.loSet ((v i).toNat % 16)
          else t.loClear ((v i).toNat % 16)) := by
    unfold orI256
    rw [shuffle_broadcast, shuffle_broadcast]
    have flippedAt : xorI256 v (set1 0x80#8) i = v i ^^^ 0x80#8 := rfl
    rw [flippedAt, flipped, row]
    by_cases top : (v i).getLsbD 7 = true
    · rw [if_pos (half.mp top), top]
      simp
    · have clear : (v i).getLsbD 7 = false := Bool.eq_false_iff.mpr top
      rw [if_neg (fun one => top (half.mpr one)), clear]
      simp
  have cleared : res t v i =
      BitVec.ofNat 8 (if (v i).toNat / 128 % 2 = 1 then t.loSet ((v i).toNat % 16)
        else t.loClear ((v i).toNat % 16)) &&& BitVec.twoPow 8 ((v i).toNat / 16 % 8) := by
    rw [← looked, ← single]
    rfl
  rw [cleared, BitVec.and_twoPow, BitVec.getLsbD_ofNat, decide_eq_true small, Bool.true_and]
  have nonzero : BitVec.twoPow 8 ((v i).toNat / 16 % 8) ≠ 0#8 := by
    have all : ∀ k < 8, BitVec.twoPow 8 k ≠ 0#8 := by decide
    exact all _ small
  unfold TruffleMasks.bit
  split <;> simp [*]

/-- The lanes that compare equal to zero are the bytes outside the set. -/
theorem cmpeq_res (cls : Charreach) (p : List UInt8) {i j : Nat} (inside : i + j < p.length) :
    cmpeqI8 (res (truffleBuild cls) (loadu p i)) (set1 0#8) j = !cls.test p[i + j] := by
  have byte : (loadu p i j).toNat = p[i + j].toNat := by
    unfold loadu
    rw [getD_eq_getElem?_getD, getElem?_eq_getElem inside]
    rfl
  have zero := res_eq_zero_iff (truffleBuild cls) (loadu p i) j
  rw [byte, TruffleMasks.bit_build cls (UInt8.toNat_lt p[i + j]), UInt8.ofNat_toNat] at zero
  unfold cmpeqI8 set1
  rw [Bool.eq_iff_iff, beq_iff_eq, zero, Bool.not_eq_true']

/-- The least offset from `i` on of a byte of the set, or the number of bytes. -/
structure First (cls : Charreach) (p : List UInt8) (i r : Nat) : Prop where
  inside : r ≤ p.length
  earlier : ∀ j (before : j < r), i ≤ j → cls.test (p[j]) = false
  member : ∀ found : r < p.length, cls.test p[r] = true

theorem First.unique {cls : Charreach} {p : List UInt8} {i r r' : Nat} (one : First cls p i r)
    (other : First cls p i r') (from_ : i ≤ r) (from' : i ≤ r') : r = r' := by
  rcases lt_trichotomy r r' with less | same | more
  · have member := one.member (lt_of_lt_of_le less other.inside)
    rw [other.earlier r less from_] at member
    exact absurd member false_ne_true
  · exact same
  · have member := other.member (lt_of_lt_of_le more one.inside)
    rw [one.earlier r' more from'] at member
    exact absurd member false_ne_true

/-- Bytes outside the set are passed. -/
theorem First.skip {cls : Charreach} {p : List UInt8} {i k r : Nat} (rest : First cls p k r)
    (passed : ∀ j (inside : j < p.length), i ≤ j → j < k → cls.test p[j] = false) :
    First cls p i r := by
  refine ⟨rest.inside, fun j before later => ?_, rest.member⟩
  rcases lt_or_ge j k with behind | ahead
  · exact passed j (lt_of_lt_of_le before rest.inside) later behind
  · exact rest.earlier j before ahead

theorem scalar_first (cls : Charreach) (p : List UInt8) (i : Nat) (inside : i ≤ p.length) :
    First cls p i (scalar (truffleBuild cls) (p.drop i) i) ∧
      i ≤ scalar (truffleBuild cls) (p.drop i) i := by
  generalize shape : p.drop i = rest
  induction rest generalizing i with
  | nil =>
    have done : i = p.length := Nat.le_antisymm inside (drop_eq_nil_iff.mp shape)
    rw [scalar]
    refine ⟨⟨inside, fun j before later => absurd later (by omega), fun found => ?_⟩, le_refl i⟩
    omega
  | cons c rest ih =>
    have less : i < p.length := by
      refine Nat.lt_of_not_le fun done => ?_
      rw [drop_eq_nil_of_le done] at shape
      exact cons_ne_nil c rest shape.symm
    rw [drop_eq_getElem_cons less] at shape
    injection shape with here tail
    rw [scalar, TruffleMasks.hits_build, ← here]
    split
    next member =>
      exact ⟨⟨inside, fun j before later => absurd later (by omega), fun _ => member⟩, le_refl i⟩
    next other =>
      obtain ⟨first, later⟩ := ih (i + 1) less tail
      refine ⟨first.skip fun j _ from_ before => ?_, by omega⟩
      have same : j = i := by omega
      subst same
      exact eq_false_iff.mpr other

theorem vector_first (cls : Charreach) (p : List UInt8) (turns i : Nat) (inside : i ≤ p.length) :
    First cls p i (vector (truffleBuild cls) p turns i) ∧
      i ≤ vector (truffleBuild cls) p turns i := by
  induction turns generalizing i with
  | zero => exact scalar_first cls p i inside
  | succ turns ih =>
    rw [vector]
    split
    next block =>
      have lanes : ∀ j (here : i + j < p.length), cmpeqI8 (res (truffleBuild cls) (loadu p i))
          (set1 0#8) j = !cls.test p[i + j] := fun j here => cmpeq_res cls p here
      by_cases any : ∃ j : Nat, j < 32 ∧
          cmpeqI8 (res (truffleBuild cls) (loadu p i)) (set1 0#8) j = false
      · obtain ⟨small, member⟩ := Nat.find_spec any
        have earlier : ∀ j < Nat.find any,
            cmpeqI8 (res (truffleBuild cls) (loadu p i)) (set1 0#8) j = true := by
          intro j before
          have other := Nat.find_min any before
          exact eq_true_of_not_eq_false fun wrong => other ⟨by omega, wrong⟩
        have place : ctz (inclass (truffleBuild cls) (loadu p i)) = Nat.find any :=
          ctz_not_moveMask (le_refl 32) small member earlier
        have found : inclass (truffleBuild cls) (loadu p i) ≠ 0#32 := by
          intro zero
          have none : ctz 0#32 = 32 := by decide
          rw [zero, none] at place
          omega
        rw [if_pos found, place]
        refine ⟨⟨by omega, fun j before from_ => ?_, fun _ => ?_⟩, Nat.le_add_right _ _⟩
        · have clear := earlier (j - i) (by omega)
          rw [lanes _ (by omega)] at clear
          have same : i + (j - i) = j := by omega
          simp only [same, not_eq_true'] at clear
          exact clear
        · rw [lanes _ (by omega)] at member
          simpa using member
      · have all : ∀ j < 32,
            cmpeqI8 (res (truffleBuild cls) (loadu p i)) (set1 0#8) j = true := by
          intro j lane
          exact eq_true_of_not_eq_false fun wrong => any ⟨j, lane, wrong⟩
        have none : inclass (truffleBuild cls) (loadu p i) = 0#32 := by
          unfold inclass
          refine BitVec.eq_of_getLsbD_eq fun k lane => ?_
          rw [BitVec.getLsbD_not, getLsbD_moveMask _ (le_refl 32), all k lane, decide_eq_true lane,
            BitVec.getLsbD_zero]
          rfl
        rw [if_neg (not_not.mpr none)]
        obtain ⟨first, later⟩ := ih (i + 32) block
        refine ⟨first.skip fun j _ from_ before => ?_, by omega⟩
        have clear := all (j - i) (by omega)
        rw [lanes _ (by omega)] at clear
        have same : i + (j - i) = j := by omega
        simp only [same, not_eq_true'] at clear
        exact clear
    next tail => exact scalar_first cls p i inside

/-- Both loops return the least offset of a byte of the set, or the number of bytes, and
so the same. -/
theorem find_first_exact (cls : Charreach) (p : List UInt8) :
    findFirstAvx2 (truffleBuild cls) p = findFirst (truffleBuild cls) p ∧
      findFirst (truffleBuild cls) p ≤ p.length ∧
      (∀ j (inside : j < p.length), j < findFirst (truffleBuild cls) p → cls.test p[j] = false) ∧
      ∀ found : findFirst (truffleBuild cls) p < p.length,
        cls.test p[findFirst (truffleBuild cls) p] = true := by
  have bytes := scalar_first cls p 0 (zero_le _)
  have blocks := vector_first cls p p.length 0 (zero_le _)
  exact ⟨blocks.1.unique bytes.1 (zero_le _) (zero_le _), bytes.1.inside,
    fun j _ before => bytes.1.earlier j before (zero_le _), bytes.1.member⟩

end Micron.Regex.Truffle
