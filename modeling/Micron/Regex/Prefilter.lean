import Mathlib.Algebra.BigOperators.Fin
import Micron.Regex.Search

/-!
# Byte sets and scanning for them

The operations on the four words of a byte set, and the two scans for the first byte
of a set: for a single byte, and through two tables of sixteen entries, indexed with
the low half of a byte, whose bits stand for the three bits above it.
-/

set_option autoImplicit false

namespace Micron.Regex

open List Nat

namespace Charreach

theorem toNat_ofNat_mod {k : Nat} (small : k < 64) : (UInt64.ofNat k).toNat % 64 = k := by
  rw [UInt64.toNat_ofNat']
  omega

theorem bit_eq (w : UInt64) {k : Nat} (small : k < 64) :
    ((w >>> UInt64.ofNat k) &&& 1 != 0) = w.toNat.testBit k := by
  rw [Bool.eq_iff_iff, bne_iff_ne, ne_eq, ← UInt64.toNat_inj, UInt64.toNat_and,
    UInt64.toNat_shiftRight, toNat_ofNat_mod small, Nat.testBit]
  simp

theorem toNat_one_shiftLeft {k : Nat} (small : k < 64) :
    ((1 : UInt64) <<< UInt64.ofNat k).toNat = 2 ^ k := by
  rw [UInt64.toNat_shiftLeft, toNat_ofNat_mod small, UInt64.toNat_one, one_shiftLeft]
  exact Nat.mod_eq_of_lt (Nat.pow_lt_pow_right (by decide) small)

theorem word_eq (c : UInt8) : c.toNat >>> 6 = c.toNat / 64 := shiftRight_eq_div_pow c.toNat 6

theorem place_eq (c : UInt8) : c.toNat &&& 63 = c.toNat % 64 :=
  and_two_pow_sub_one_eq_mod c.toNat 6

theorem test_eq (r : Charreach) (c : UInt8) :
    r.test c = (r.w (Fin.ofNat 4 (c.toNat / 64))).toNat.testBit (c.toNat % 64) := by
  rw [test, place_eq, word_eq, bit_eq _ (mod_lt _ (by decide))]

@[simp] theorem test_empty (c : UInt8) : empty.test c = false := by
  rw [test_eq]
  simp [empty]

theorem eq_of_word_of_place {c d : UInt8} (word : Fin.ofNat 4 (c.toNat / 64) = Fin.ofNat 4 (d.toNat / 64))
    (place : c.toNat % 64 = d.toNat % 64) : c = d := by
  have small := c.toNat_lt
  have small' := d.toNat_lt
  rw [Fin.ext_iff, Fin.val_ofNat, Fin.val_ofNat] at word
  exact UInt8.toNat_inj.mp (by omega)

theorem test_set (r : Charreach) (c d : UInt8) :
    (r.set c).test d = (decide (d = c) || r.test d) := by
  have small : c.toNat % 64 < 64 := mod_lt _ (by decide)
  rw [test_eq, test_eq, set, word_eq, place_eq]
  dsimp only
  by_cases word : Fin.ofNat 4 (d.toNat / 64) = Fin.ofNat 4 (c.toNat / 64)
  · rw [if_pos word, UInt64.toNat_or, toNat_one_shiftLeft small, testBit_or,
      testBit_two_pow, Bool.or_comm]
    congr 1
    rw [decide_eq_decide]
    exact ⟨fun place => eq_of_word_of_place word place.symm, fun same => by rw [same]⟩
  · rw [if_neg word, decide_eq_false, Bool.false_or]
    rintro rfl
    exact word rfl

theorem test_foldl_set (l : List UInt8) (r : Charreach) (c : UInt8) :
    (l.foldl set r).test c = (decide (c ∈ l) || r.test c) := by
  induction l generalizing r with
  | nil => rfl
  | cons d l ih =>
    rw [foldl_cons, ih, test_set]
    simp only [mem_cons, Bool.decide_or]
    rw [Bool.or_left_comm, Bool.or_assoc]

end Charreach

/-- The offset of a byte in what is left of the input. -/
def memchr (b : UInt8) (rest : List UInt8) : Option Nat := rest.findIdx? (· == b)

structure TruffleMasks where
  loClear : Nat → Nat
  loSet : Nat → Nat

def TruffleMasks.add (t : TruffleMasks) (c : Nat) : TruffleMasks :=
  let bit := 1 <<< ((c >>> 4) &&& 7)
  if c &&& 0x80 ≠ 0 then
    { t with loSet := fun i => if i = c &&& 0x0f then t.loSet i ||| bit else t.loSet i }
  else
    { t with loClear := fun i => if i = c &&& 0x0f then t.loClear i ||| bit else t.loClear i }

def truffleBuild (cls : Charreach) : TruffleMasks :=
  (List.range 256).foldl (fun t c => if cls.test (UInt8.ofNat c) then t.add c else t)
    ⟨fun _ => 0, fun _ => 0⟩

def TruffleMasks.hits (t : TruffleMasks) (c : UInt8) : Bool :=
  let tbl := if c.toNat &&& 0x80 ≠ 0 then t.loSet (c.toNat &&& 0x0f) else t.loClear (c.toNat &&& 0x0f)
  (tbl >>> ((c.toNat >>> 4) &&& 7)) &&& 1 != 0

/-- The offset of the first byte of the set, or the number of bytes. -/
def truffleFindFirst (t : TruffleMasks) (rest : List UInt8) : Nat := rest.findIdx t.hits

namespace TruffleMasks

def bit (t : TruffleMasks) (c : Nat) : Bool :=
  (if c / 128 % 2 = 1 then t.loSet (c % 16) else t.loClear (c % 16)).testBit (c / 16 % 8)

theorem parts : ∀ c < 256,
    c &&& 0x0f = c % 16 ∧ (c >>> 4) &&& 7 = c / 16 % 8 ∧ (c &&& 0x80 ≠ 0 ↔ c / 128 % 2 = 1) := by
  decide +kernel

theorem bit_add (t : TruffleMasks) {c d : Nat} (smallC : c < 256) (smallD : d < 256) :
    (t.add d).bit c = (decide (c = d) || t.bit c) := by
  obtain ⟨low, place, half⟩ := parts d smallD
  have same : c / 128 % 2 = d / 128 % 2 → c % 16 = d % 16 → (d / 16 % 8 = c / 16 % 8 ↔ c = d) := by
    omega
  unfold add
  rw [low, place, one_shiftLeft]
  simp only [half]
  by_cases highD : d / 128 % 2 = 1
  · rw [if_pos highD]
    unfold bit
    by_cases highC : c / 128 % 2 = 1
    · rw [if_pos highC, if_pos highC]
      by_cases row : c % 16 = d % 16
      · simp only [row, if_true, testBit_or, testBit_two_pow,
          same (highC.trans highD.symm) row]
        rw [Bool.or_comm]
      · dsimp only
        rw [if_neg row, decide_eq_false (fun h => row (by rw [h])), Bool.false_or]
    · rw [if_neg highC, if_neg highC, decide_eq_false (fun h => highC (by rw [h]; exact highD)),
        Bool.false_or]
  · rw [if_neg highD]
    unfold bit
    by_cases highC : c / 128 % 2 = 1
    · rw [if_pos highC, if_pos highC, decide_eq_false (fun h => highD (by rw [← h]; exact highC)),
        Bool.false_or]
    · rw [if_neg highC, if_neg highC]
      by_cases row : c % 16 = d % 16
      · simp only [row, if_true, testBit_or, testBit_two_pow, same (by omega) row]
        rw [Bool.or_comm]
      · dsimp only
        rw [if_neg row, decide_eq_false (fun h => row (by rw [h])), Bool.false_or]

theorem bit_build (cls : Charreach) {c : Nat} (small : c < 256) :
    (truffleBuild cls).bit c = cls.test (UInt8.ofNat c) := by
  have all (l : List Nat) (t : TruffleMasks) (inside : ∀ d ∈ l, d < 256) :
      (l.foldl (fun t c => if cls.test (UInt8.ofNat c) then t.add c else t) t).bit c =
        (t.bit c || (decide (c ∈ l) && cls.test (UInt8.ofNat c))) := by
    induction l generalizing t with
    | nil => simp
    | cons d rest ih =>
      rw [foldl_cons, ih _ fun x later => inside x (mem_cons_of_mem d later)]
      have smallD := inside d mem_cons_self
      by_cases here : cls.test (UInt8.ofNat d) = true
      · rw [if_pos here, bit_add t small smallD]
        by_cases same : c = d
        · subst same
          simp [here]
        · simp [same]
      · rw [if_neg here]
        by_cases same : c = d
        · subst same
          simp [here]
        · simp [same]
  unfold truffleBuild
  rw [all _ _ fun d inside => mem_range.mp inside]
  simp [bit, small]

theorem hits_build (cls : Charreach) (c : UInt8) : (truffleBuild cls).hits c = cls.test c := by
  obtain ⟨low, place, half⟩ := parts c.toNat c.toNat_lt
  have hits (t : TruffleMasks) : t.hits c = t.bit c.toNat := by
    unfold hits bit
    simp only [low, place, half]
    rw [Nat.testBit, Nat.and_comm]
  rw [hits, bit_build cls c.toNat_lt, UInt8.ofNat_toNat]

end TruffleMasks

end Micron.Regex
