import Micron.Lib.Exact
import Mathlib.Data.BitVec
import Mathlib.Tactic.Ring

/-!
# The Adler checksum

Every addition is checked: a path returns nothing as soon as a word or a lane of it would not
hold its result.  The numbers it returns are then those of the definition.
-/

set_option autoImplicit false

namespace Micron.Adler

open Micron.Exact List Option

def divisor : Nat := 65521

def nmax : Nat := 5552

/-- The definition, with nothing reduced: the sum of the bytes and the sum of these sums. -/
def sums (p : List Nat) (s : Nat × Nat) : Nat × Nat :=
  p.foldl (fun s b => (s.1 + b, s.2 + (s.1 + b))) s

def reduced (s : Nat × Nat) : Nat × Nat := (s.1 % divisor, s.2 % divisor)

def pack (s : Nat × Nat) : BitVec 32 := (BitVec.ofNat 32 s.2 <<< 16) ||| BitVec.ofNat 32 s.1

def start (init : BitVec 32) : Nat × Nat :=
  ((init &&& 0xFFFF#32).toNat, ((init >>> 16) &&& 0xFFFF#32).toNat)

def checksum (init : BitVec 32) (p : List Nat) : BitVec 32 :=
  if p = [] then init else pack (reduced (sums p (start init)))

/-- The loop over the blocks of at most `nmax` bytes, all four paths having the same one. -/
def blocks (body : List Nat → Nat × Nat → Option (Nat × Nat)) (p : List Nat) (s : Nat × Nat) :
    Option (Nat × Nat) :=
  if p = [] then some s
  else do
    let t ← body (p.take nmax) s
    blocks body (p.drop nmax) (reduced t)
termination_by p.length
decreasing_by
  rename_i more
  have len := length_pos_of_ne_nil more
  rw [length_drop, nmax]
  omega

def onBlocks (body : List Nat → Nat × Nat → Option (Nat × Nat)) (p : List UInt8)
    (init : BitVec 32) : Option (BitVec 32) := do
  let s ← blocks body (p.map UInt8.toNat) (start init)
  some (pack s)

/-- The bytes that a wider loop leaves, in words of `bits` bits. -/
def bytewise (bits : Nat) : List Nat → Nat × Nat → Option (Nat × Nat)
  | [], s => some s
  | b :: p, s => do
      let s1 ← fit bits (s.1 + b)
      let s2 ← fit bits (s.2 + s1)
      bytewise bits p (s1, s2)

/-- The loop up to `end4`, where fewer than four bytes are left, and the one after it. -/
def scalarBlock : List Nat → Nat × Nat → Option (Nat × Nat)
  | b0 :: b1 :: b2 :: b3 :: p, s => do
      let s2 ← fit 32 (s.2 + (4 * s.1 + 4 * b0 + 3 * b1 + 2 * b2 + b3))
      let s1 ← fit 32 (s.1 + (b0 + b1 + b2 + b3))
      scalarBlock p (s1, s2)
  | p, s => bytewise 32 p s

def adler32Scalar (p : List UInt8) (init : BitVec 32) : Option (BitVec 32) :=
  onBlocks scalarBlock p init

structure Accumulators where
  vs1 : List Nat
  vps : List Nat
  vdot : List Nat

/-- The loop over the `kb` registers of a block, of `width` bytes each. -/
def registers (width : Nat) (step : List Nat → Accumulators → Option Accumulators) :
    Nat → List Nat → Accumulators → Option Accumulators
  | 0, _, acc => some acc
  | kb + 1, p, acc => do
      let acc ← step (p.take width) acc
      registers width step kb (p.drop width) acc

/-- The sums over the registers of a block.  The parts of a sum that fits fit as well, so the sum
alone is checked. -/
def registerSums (width kb : Nat) (zero : Accumulators)
    (step : List Nat → Accumulators → Option Accumulators)
    (across : Accumulators → Option (Nat × Nat × Nat)) (block : List Nat) (s : Nat × Nat) :
    Option (Nat × Nat) :=
  if kb = 0 then some s
  else do
    let acc ← registers width step kb block zero
    let (h_s1, h_ps, h_dot) ← across acc
    let s2w ← fit 64 (s.2 + (width * kb * s.1 + width * h_ps + h_dot))
    let s1w ← fit 64 (s.1 + h_s1)
    some (s1w, s2w)

def vectorBlock (width : Nat) (zero : Accumulators)
    (step : List Nat → Accumulators → Option Accumulators)
    (across : Accumulators → Option (Nat × Nat × Nat)) (block : List Nat) (s : Nat × Nat) :
    Option (Nat × Nat) := do
  let kb := block.length / width
  let s ← registerSums width kb zero step across block s
  let s ← bytewise 64 (block.drop (width * kb)) s
  let s1 ← fit 32 s.1
  let s2 ← fit 32 s.2
  some (s1, s2)

def sadU8 (a b : List Nat) : Option (List Nat) :=
  fits 16 (pairs (pairs (pairs (List.zipWith (fun x y => (x - y) + (y - x)) a b))))

/-- `madd_u8s8`, whose lanes saturate beyond fifteen bits; no weight is negative. -/
def maddU8S8 (a b : List Nat) : Option (List Nat) := fits 15 (pairs (List.zipWith (· * ·) a b))

def maddI16 (a b : List Nat) : Option (List Nat) := fits 31 (pairs (List.zipWith (· * ·) a b))

def shuffleI32 (imm : Nat) (v : List Nat) : List Nat :=
  (List.range 4).map fun i => v.getD (imm / 4 ^ i % 4) 0

def acrossI64 (v : List Nat) : Option Nat := fit 64 (v.getD 0 0 + v.getD 1 0)

def acrossI32 (v : List Nat) : Option Nat := do
  let sh ← add 31 v (shuffleI32 0x4E v)
  let sh ← add 31 sh (shuffleI32 0xB1 sh)
  some (sh.getD 0 0)

def wtab16 : List Nat := [16, 15, 14, 13, 12, 11, 10, 9, 8, 7, 6, 5, 4, 3, 2, 1]

def wtab32 : List Nat :=
  [32, 31, 30, 29, 28, 27, 26, 25, 24, 23, 22, 21, 20, 19, 18, 17,
    16, 15, 14, 13, 12, 11, 10, 9, 8, 7, 6, 5, 4, 3, 2, 1]

/-- The body of the loop over registers, the same on both kinds of x86 registers. -/
def maddStep (w : List Nat) (v : List Nat) (acc : Accumulators) : Option Accumulators := do
  let vps ← add 64 acc.vps acc.vs1
  let sad ← sadU8 v (List.replicate w.length 0)
  let vs1 ← add 64 acc.vs1 sad
  let products ← maddU8S8 v w
  let dots ← maddI16 products (List.replicate (w.length / 2) 1)
  let vdot ← add 31 acc.vdot dots
  some ⟨vs1, vps, vdot⟩

def ssse3Across (acc : Accumulators) : Option (Nat × Nat × Nat) := do
  let h_s1 ← acrossI64 acc.vs1
  let h_ps ← acrossI64 acc.vps
  let h_dot ← acrossI32 acc.vdot
  some (h_s1, h_ps, h_dot)

def adler32Ssse3 (p : List UInt8) (init : BitVec 32) : Option (BitVec 32) :=
  onBlocks (vectorBlock 16 ⟨[0, 0], [0, 0], [0, 0, 0, 0]⟩ (maddStep wtab16) ssse3Across) p init

def avx2Across (acc : Accumulators) : Option (Nat × Nat × Nat) := do
  let vs1s ← add 64 (acc.vs1.take 2) (acc.vs1.drop 2)
  let vpss ← add 64 (acc.vps.take 2) (acc.vps.drop 2)
  let h_s1 ← acrossI64 vs1s
  let h_ps ← acrossI64 vpss
  let sh ← add 31 (acc.vdot.take 4) (acc.vdot.drop 4)
  let h_dot ← acrossI32 sh
  some (h_s1, h_ps, h_dot)

def adler32Avx2 (p : List UInt8) (init : BitVec 32) : Option (BitVec 32) :=
  onBlocks (vectorBlock 32 ⟨[0, 0, 0, 0], [0, 0, 0, 0], [0, 0, 0, 0, 0, 0, 0, 0]⟩
    (maddStep wtab32) avx2Across) p init

def pairwiseAddAcc (acc v : List Nat) : Option (List Nat) := add 32 acc (pairs v)

def neonStep (v : List Nat) (acc : Accumulators) : Option Accumulators := do
  let vps ← add 32 acc.vps acc.vs1
  let long ← fits 16 (pairs v)
  let vs1 ← pairwiseAddAcc acc.vs1 long
  let lows ← fits 16 (List.zipWith (· * ·) (v.take 8) (wtab16.take 8))
  let vdot ← pairwiseAddAcc acc.vdot lows
  let highs ← fits 16 (List.zipWith (· * ·) (v.drop 8) (wtab16.drop 8))
  let vdot ← pairwiseAddAcc vdot highs
  some ⟨vs1, vps, vdot⟩

def acrossU32 (v : List Nat) : Option Nat :=
  fit 64 (v.getD 0 0 + v.getD 1 0 + v.getD 2 0 + v.getD 3 0)

def neonAcross (acc : Accumulators) : Option (Nat × Nat × Nat) := do
  let h_s1 ← acrossU32 acc.vs1
  let h_ps ← acrossU32 acc.vps
  let h_dot ← acrossU32 acc.vdot
  some (h_s1, h_ps, h_dot)

def adler32Neon (p : List UInt8) (init : BitVec 32) : Option (BitVec 32) :=
  onBlocks (vectorBlock 16 ⟨[0, 0, 0, 0], [0, 0, 0, 0], [0, 0, 0, 0]⟩ neonStep neonAcross) p init

inductive Target where
  | avx2
  | ssse3
  | neon
  | none

def adler32 (target : Target) (init : BitVec 32) (buf : List UInt8) : Option (BitVec 32) :=
  if 64 ≤ buf.length then
    match target with
    | .avx2 => adler32Avx2 buf init
    | .ssse3 => adler32Ssse3 buf init
    | .neon => adler32Neon buf init
    | .none => adler32Scalar buf init
  else adler32Scalar buf init

/-- The bytes weighted by their places from the end. -/
def weighted : List Nat → Nat
  | [] => 0
  | b :: p => (p.length + 1) * b + weighted p

theorem sums_append (p q : List Nat) (s : Nat × Nat) : sums (p ++ q) s = sums q (sums p s) :=
  foldl_append

theorem sums_eq : ∀ (p : List Nat) (s : Nat × Nat),
    sums p s = (s.1 + p.sum, s.2 + (p.length * s.1 + weighted p)) := by
  intro p
  induction p with
  | nil =>
    intro s
    rw [length_nil, zero_mul]
    rfl
  | cons b p ih =>
    intro s
    rw [sums, foldl_cons, ← sums, ih]
    refine Prod.ext ?_ ?_
    · show s.1 + b + p.sum = s.1 + (b :: p).sum
      rw [sum_cons, add_assoc]
    · show s.2 + (s.1 + b) + (p.length * (s.1 + b) + weighted p) = _
      rw [weighted, length_cons]
      ring

theorem weighted_append : ∀ (p q : List Nat),
    weighted (p ++ q) = weighted p + q.length * p.sum + weighted q := by
  intro p q
  induction p with
  | nil => rw [nil_append, weighted, sum_nil, Nat.mul_zero, Nat.zero_add]
  | cons b p ih =>
    rw [cons_append, weighted, ih, weighted, sum_cons, length_append]
    ring

theorem sum_le {p : List Nat} (byte : ∀ b ∈ p, b < 256) : p.sum ≤ 255 * p.length := by
  have le := sum_le_card_nsmul p 255 fun b mem => Nat.le_of_lt_succ (byte b mem)
  rw [mul_comm]
  exact le

theorem weighted_le : ∀ {p : List Nat}, (∀ b ∈ p, b < 256) →
    2 * weighted p ≤ 255 * (p.length * (p.length + 1)) := by
  intro p
  induction p with
  | nil =>
    intro _
    exact le_refl _
  | cons b p ih =>
    intro byte
    have small : b ≤ 255 := Nat.le_of_lt_succ (byte b mem_cons_self)
    have rest := ih fun b mem => byte b (mem_cons_of_mem _ mem)
    have first := Nat.mul_le_mul_left (p.length + 1) small
    calc 2 * ((p.length + 1) * b + weighted p)
        = 2 * ((p.length + 1) * b) + 2 * weighted p := mul_add _ _ _
      _ ≤ 2 * ((p.length + 1) * 255) + 255 * (p.length * (p.length + 1)) :=
          add_le_add (Nat.mul_le_mul_left 2 first) rest
      _ = 255 * ((p.length + 1) * (p.length + 1 + 1)) := by ring

structure Block (p : List Nat) (s : Nat × Nat) : Prop where
  byte : ∀ b ∈ p, b < 256
  short : p.length ≤ nmax
  first : s.1 < 2 ^ 16
  second : s.2 < 2 ^ 16

/-- The worst block leaves less than two hundred thousand below `2 ^ 32`. -/
theorem Block.small {p : List Nat} {s : Nat × Nat} (blk : Block p s) :
    (sums p s).1 < 2 ^ 32 ∧ (sums p s).2 < 2 ^ 32 := by
  have short := blk.short
  have first := blk.first
  have second := blk.second
  have sum := sum_le blk.byte
  have weight := weighted_le blk.byte
  have square : p.length * (p.length + 1) ≤ nmax * (nmax + 1) :=
    Nat.mul_le_mul short (Nat.succ_le_succ short)
  have scaled := Nat.mul_le_mul short (Nat.le_of_lt_succ first)
  rw [sums_eq]
  simp only [nmax] at short square scaled
  constructor
  · show s.1 + p.sum < 2 ^ 32
    omega
  · show s.2 + (p.length * s.1 + weighted p) < 2 ^ 32
    omega

theorem sums_mono (p : List Nat) (s : Nat × Nat) :
    s.1 ≤ (sums p s).1 ∧ s.2 ≤ (sums p s).2 := by
  rw [sums_eq]
  exact ⟨Nat.le_add_right _ _, Nat.le_add_right _ _⟩

theorem bytewise_exact {bits : Nat} : ∀ (p : List Nat) (s : Nat × Nat),
    (sums p s).1 < 2 ^ bits → (sums p s).2 < 2 ^ bits → bytewise bits p s = some (sums p s) := by
  intro p
  induction p with
  | nil =>
    intro s _ _
    rfl
  | cons b p ih =>
    intro s first second
    have mono := sums_mono p (s.1 + b, s.2 + (s.1 + b))
    rw [bytewise, fit_of_lt (lt_of_le_of_lt mono.1 first), bind_eq_bind,
      bind_some, fit_of_lt (lt_of_le_of_lt mono.2 second), bind_some]
    exact ih _ first second

theorem sums_four (b0 b1 b2 b3 : Nat) (p : List Nat) (s : Nat × Nat) :
    sums (b0 :: b1 :: b2 :: b3 :: p) s =
      sums p (s.1 + (b0 + b1 + b2 + b3), s.2 + (4 * s.1 + 4 * b0 + 3 * b1 + 2 * b2 + b3)) := by
  refine congrArg (sums p) (Prod.ext ?_ ?_)
  · show s.1 + b0 + b1 + b2 + b3 = _
    omega
  · show s.2 + (s.1 + b0) + (s.1 + b0 + b1) + (s.1 + b0 + b1 + b2) + (s.1 + b0 + b1 + b2 + b3) = _
    omega

theorem scalarBlock_exact (p : List Nat) (s : Nat × Nat)
    (small : (sums p s).1 < 2 ^ 32 ∧ (sums p s).2 < 2 ^ 32) :
    scalarBlock p s = some (sums p s) := by
  induction p, s using scalarBlock.induct with
  | case1 b0 b1 b2 b3 p s ih =>
    rw [sums_four] at small ⊢
    have mono := sums_mono p
      (s.1 + (b0 + b1 + b2 + b3), s.2 + (4 * s.1 + 4 * b0 + 3 * b1 + 2 * b2 + b3))
    rw [scalarBlock, fit_of_lt (lt_of_le_of_lt mono.2 small.2), bind_eq_bind,
      bind_some, fit_of_lt (lt_of_le_of_lt mono.1 small.1), bind_some]
    exact ih _ _ small
  | case2 p s few =>
    rw [scalarBlock]
    · exact bytewise_exact p s small.1 small.2
    · exact few

/-! ## The vector paths -/

def countdown : Nat → List Nat
  | 0 => []
  | n + 1 => (n + 1) :: countdown n

theorem dot_countdown : ∀ (v : List Nat),
    (List.zipWith (· * ·) v (countdown v.length)).sum = weighted v := by
  intro v
  induction v with
  | nil => rfl
  | cons b v ih =>
    rw [length_cons, countdown, zipWith_cons_cons, sum_cons, ih, weighted,
      mul_comm b]

theorem countdown_length : ∀ (n : Nat), (countdown n).length = n
  | 0 => rfl
  | n + 1 => congrArg Nat.succ (countdown_length n)

theorem countdown_le : ∀ {n w : Nat}, w ∈ countdown n → w ≤ n
  | n + 1, w, mem => by
    rcases mem_cons.mp mem with rfl | mem
    · exact le_refl _
    · exact Nat.le_succ_of_le (countdown_le mem)

theorem mem_zipWith_mul : ∀ {v w : List Nat} {a b x : Nat}, (∀ y ∈ v, y ≤ a) →
    (∀ y ∈ w, y ≤ b) → x ∈ List.zipWith (· * ·) v w → x ≤ a * b := by
  intro v
  induction v with
  | nil =>
    intro w a b x _ _ mem
    cases mem
  | cons y v ih =>
    intro w a b x left right mem
    cases w with
    | nil => cases mem
    | cons z w =>
      rcases mem_cons.mp mem with rfl | mem
      · exact Nat.mul_le_mul (left y mem_cons_self) (right z mem_cons_self)
      · exact ih (fun u found => left u (mem_cons_of_mem _ found))
          (fun u found => right u (mem_cons_of_mem _ found)) mem

theorem differences_zero : ∀ (v : List Nat),
    List.zipWith (fun x y => (x - y) + (y - x)) v (List.replicate v.length 0) = v := by
  intro v
  induction v with
  | nil => rfl
  | cons b v ih =>
    rw [length_cons, replicate_succ, zipWith_cons_cons, ih, Nat.sub_zero,
      Nat.zero_sub, add_zero]

theorem products_one : ∀ (v : List Nat),
    List.zipWith (· * ·) v (List.replicate v.length 1) = v := by
  intro v
  induction v with
  | nil => rfl
  | cons b v ih =>
    rw [length_cons, replicate_succ, zipWith_cons_cons, ih, mul_one]

structure Shaped (wide narrow : Nat) (acc : Accumulators) : Prop where
  vs1 : acc.vs1.length = wide
  vps : acc.vps.length = wide
  vdot : acc.vdot.length = narrow

/-- What the body of the loop over registers does to the sums of the lanes. -/
def Advances (width wide narrow : Nat)
    (step : List Nat → Accumulators → Option Accumulators) : Prop :=
  ∀ (v : List Nat) (acc : Accumulators), v.length = width → (∀ b ∈ v, b < 256) →
    Shaped wide narrow acc → acc.vps.sum + acc.vs1.sum < 2 ^ 32 →
    acc.vs1.sum + v.sum < 2 ^ 32 → acc.vdot.sum + weighted v < 2 ^ 29 →
    ∃ acc', step v acc = some acc' ∧ Shaped wide narrow acc' ∧
      acc'.vps.sum = acc.vps.sum + acc.vs1.sum ∧ acc'.vs1.sum = acc.vs1.sum + v.sum ∧
      acc'.vdot.sum = acc.vdot.sum + weighted v

def Gathers (wide narrow : Nat) (across : Accumulators → Option (Nat × Nat × Nat)) : Prop :=
  ∀ acc, Shaped wide narrow acc → acc.vs1.sum < 2 ^ 32 → acc.vps.sum < 2 ^ 32 →
    acc.vdot.sum < 2 ^ 29 → across acc = some (acc.vs1.sum, acc.vps.sum, acc.vdot.sum)

/-- Three rounds of pairs. -/
theorem sadU8_spec {v : List Nat} {n : Nat} (len : v.length = 8 * n)
    (byte : ∀ b ∈ v, b < 256) :
    ∃ c, sadU8 v (List.replicate v.length 0) = some c ∧ c.length = n ∧ c.sum = v.sum := by
  have one : v.length = 2 * (4 * n) := by omega
  have two := pairs_length v one
  have three := pairs_length (pairs v) (show (pairs v).length = 2 * (2 * n) by omega)
  refine ⟨pairs (pairs (pairs v)), ?_, pairs_length _ three, ?_⟩
  · rw [sadU8, differences_zero]
    have lane := pairs_le _ (pairs_le _ (pairs_le v fun b mem => Nat.le_of_lt_succ (byte b mem)))
    exact fits_of_le lane (by decide)
  · rw [pairs_sum _ three, pairs_sum _ (show (pairs v).length = 2 * (2 * n) by omega),
      pairs_sum v one]

theorem maddU8S8_spec {v : List Nat} {n : Nat} (len : v.length = 8 * n) (few : n ≤ 4)
    (byte : ∀ b ∈ v, b < 256) :
    ∃ c, maddU8S8 v (countdown v.length) = some c ∧ c.length = 4 * n ∧ c.sum = weighted v := by
  have products : (List.zipWith (· * ·) v (countdown v.length)).length = 2 * (4 * n) := by
    rw [length_zipWith, countdown_length, Nat.min_self]
    omega
  refine ⟨_, fits_of_le (pairs_le _ fun x mem => mem_zipWith_mul
    (fun b found => Nat.le_of_lt_succ (byte b found))
    (fun w found => le_trans (countdown_le found) (show v.length ≤ 32 by omega)) mem)
    (by decide), pairs_length _ products, ?_⟩
  rw [pairs_sum _ products, dot_countdown]

theorem maddI16_spec {v : List Nat} {n : Nat} (len : v.length = 2 * n)
    (small : v.sum < 2 ^ 29) :
    ∃ c, maddI16 v (List.replicate v.length 1) = some c ∧ c.length = n ∧ c.sum = v.sum := by
  have sum := pairs_sum v len
  refine ⟨pairs v, ?_, pairs_length v len, sum⟩
  rw [maddI16, products_one]
  exact fits_of_sum (by omega)

theorem maddStep_advances {n : Nat} (few : n ≤ 4) :
    Advances (8 * n) n (2 * n) (maddStep (countdown (8 * n))) := by
  intro v acc len byte shaped room_ps room_s1 room_dot
  obtain ⟨vps, eq_ps, len_ps, sum_ps⟩ :=
    @add_spec 64 _ _ (shaped.vps.trans shaped.vs1.symm) (lt_trans room_ps (by decide))
  obtain ⟨sad, eq_sad, len_sad, sum_sad⟩ := sadU8_spec len byte
  obtain ⟨vs1, eq_s1, len_s1, sum_s1⟩ :=
    @add_spec 64 _ _ (shaped.vs1.trans len_sad.symm)
      (lt_trans (show acc.vs1.sum + sad.sum < 2 ^ 32 by omega) (by decide))
  obtain ⟨products, eq_products, len_products, sum_products⟩ := maddU8S8_spec len few byte
  obtain ⟨dots, eq_dots, len_dots, sum_dots⟩ :=
    maddI16_spec (show products.length = 2 * (2 * n) by omega) (by omega)
  obtain ⟨vdot, eq_dot, len_dot, sum_dot⟩ :=
    @add_spec 31 _ _ (shaped.vdot.trans len_dots.symm) (by omega)
  refine ⟨⟨vs1, vps, vdot⟩, ?_, ⟨len_s1.trans shaped.vs1, len_ps.trans shaped.vps,
    len_dot.trans shaped.vdot⟩, sum_ps, by rw [sum_s1, sum_sad], by
      rw [sum_dot, sum_dots, sum_products]⟩
  have half : 8 * n / 2 = products.length := by omega
  rw [maddStep, eq_ps, countdown_length, half, ← len]
  simp only [bind_eq_bind, bind_some, eq_sad, eq_s1, eq_products, eq_dots, eq_dot]

theorem neonStep_advances : Advances 16 4 4 neonStep := by
  intro v acc len byte shaped room_ps room_s1 room_dot
  have room_byte := fun b mem => Nat.le_of_lt_succ (byte b mem)
  obtain ⟨vps, eq_ps, len_ps, sum_ps⟩ :=
    @add_spec 32 _ _ (shaped.vps.trans shaped.vs1.symm) room_ps
  have long : (pairs v).length = 2 * 4 := pairs_length v len
  have sum_long := (pairs_sum _ long).trans (pairs_sum v (show v.length = 2 * 8 from len))
  obtain ⟨vs1, eq_s1, len_s1, sum_s1⟩ :=
    @add_spec 32 _ _ (shaped.vs1.trans (pairs_length _ long).symm) (by omega)
  have weight : ∀ y ∈ wtab16, y ≤ 16 := by decide
  -- the products of the two halves of the register add up to those of the whole
  have halves := sum_take_add_sum_drop (List.zipWith (· * ·) v wtab16) 8
  have whole := dot_countdown v
  rw [len, show countdown 16 = wtab16 from rfl] at whole
  rw [take_zipWith, drop_zipWith, whole] at halves
  have lows : (List.zipWith (· * ·) (v.take 8) (wtab16.take 8)).length = 2 * 4 := by
    rw [length_zipWith, length_take, len]
    rfl
  have highs : (List.zipWith (· * ·) (v.drop 8) (wtab16.drop 8)).length = 2 * 4 := by
    rw [length_zipWith, length_drop, len]
    rfl
  have sum_lows := pairs_sum _ lows
  have sum_highs := pairs_sum _ highs
  obtain ⟨mid, eq_mid, len_mid, sum_mid⟩ :=
    @add_spec 32 _ _ (shaped.vdot.trans (pairs_length _ lows).symm) (by omega)
  obtain ⟨vdot, eq_dot, len_dot, sum_dot⟩ :=
    @add_spec 32 _ _ ((len_mid.trans shaped.vdot).trans (pairs_length _ highs).symm)
      (by omega)
  refine ⟨⟨vs1, vps, vdot⟩, ?_, ⟨len_s1.trans shaped.vs1, len_ps.trans shaped.vps,
    (len_dot.trans len_mid).trans shaped.vdot⟩, sum_ps, by rw [sum_s1, sum_long], by
      show vdot.sum = _
      omega⟩
  rw [neonStep, eq_ps]
  simp only [bind_eq_bind, bind_some, pairwiseAddAcc]
  rw [fits_of_le (pairs_le v room_byte) (by decide), bind_some, eq_s1, bind_some,
    fits_of_le (fun x mem => mem_zipWith_mul
      (fun b found => room_byte b (mem_of_mem_take found))
      (fun w found => weight w (mem_of_mem_take found)) mem) (by decide), bind_some,
    eq_mid, bind_some,
    fits_of_le (fun x mem => mem_zipWith_mul
      (fun b found => room_byte b (mem_of_mem_drop found))
      (fun w found => weight w (mem_of_mem_drop found)) mem) (by decide), bind_some,
    eq_dot, bind_some]

theorem acrossI64_spec : ∀ {v : List Nat}, v.length = 2 → v.sum < 2 ^ 32 →
    acrossI64 v = some v.sum
  | [a, b], _, small => by
    exact fit_of_lt (lt_trans small (by decide))

theorem acrossU32_spec : ∀ {v : List Nat}, v.length = 4 → v.sum < 2 ^ 32 →
    acrossU32 v = some v.sum
  | [a, b, c, d], _, small => by
    have sum : [a, b, c, d].sum = a + b + c + d := by simp [add_assoc]
    rw [sum] at small ⊢
    exact fit_of_lt (lt_trans small (by decide))

/-- Two shuffles leave the sum of all four lanes in each of them. -/
theorem acrossI32_spec : ∀ {v : List Nat}, v.length = 4 → v.sum < 2 ^ 29 →
    acrossI32 v = some v.sum
  | [a, b, c, d], _, small => by
    have sum : [a, b, c, d].sum = a + b + c + d := by simp [add_assoc]
    have once : add 31 [a, b, c, d] [c, d, a, b] = some [a + c, b + d, c + a, d + b] :=
      fits_of_sum (by
        simp only [zipWith_cons_cons, zipWith_nil_left, sum_cons, sum_nil]
        omega)
    have twice : add 31 [a + c, b + d, c + a, d + b] [b + d, a + c, d + b, c + a] =
        some [a + c + (b + d), b + d + (a + c), c + a + (d + b), d + b + (c + a)] :=
      fits_of_sum (by
        simp only [zipWith_cons_cons, zipWith_nil_left, sum_cons, sum_nil]
        omega)
    rw [acrossI32, show shuffleI32 0x4E [a, b, c, d] = [c, d, a, b] from rfl, once,
      bind_eq_bind, bind_some,
      show shuffleI32 0xB1 [a + c, b + d, c + a, d + b] = [b + d, a + c, d + b, c + a] from rfl,
      twice, bind_some, sum]
    refine congrArg some ?_
    show a + c + (b + d) = a + b + c + d
    omega

theorem ssse3Across_gathers : Gathers 2 4 ssse3Across := by
  intro acc shaped small_s1 small_ps small_dot
  rw [ssse3Across, acrossI64_spec shaped.vs1 small_s1, bind_eq_bind, bind_some,
    acrossI64_spec shaped.vps small_ps, bind_some,
    acrossI32_spec shaped.vdot small_dot, bind_some]

/-- The low half of a register added to the high half. -/
theorem add_halves {bits n : Nat} {v : List Nat} (len : v.length = n + n)
    (small : v.sum < 2 ^ bits) :
    ∃ c, add bits (v.take n) (v.drop n) = some c ∧ c.length = n ∧ c.sum = v.sum := by
  have low : (v.take n).length = n := by
    rw [length_take, len]
    omega
  have high : (v.drop n).length = n := by
    rw [length_drop, len]
    omega
  have halves := sum_take_add_sum_drop v n
  obtain ⟨c, eq, same, sum⟩ := @add_spec bits _ _ (low.trans high.symm) (by omega)
  exact ⟨c, eq, same.trans low, sum.trans halves⟩

theorem avx2Across_gathers : Gathers 4 8 avx2Across := by
  intro acc shaped small_s1 small_ps small_dot
  obtain ⟨vs1s, eq_s1, len_s1, sum_s1⟩ :=
    @add_halves 64 2 _ shaped.vs1 (lt_trans small_s1 (by decide))
  obtain ⟨vpss, eq_ps, len_ps, sum_ps⟩ :=
    @add_halves 64 2 _ shaped.vps (lt_trans small_ps (by decide))
  obtain ⟨sh, eq_sh, len_sh, sum_sh⟩ :=
    @add_halves 31 4 _ shaped.vdot (lt_trans small_dot (by decide))
  simp only [avx2Across, bind_eq_bind]
  rw [eq_s1, bind_some, eq_ps, bind_some, acrossI64_spec len_s1 (by omega),
    bind_some, acrossI64_spec len_ps (by omega), bind_some, eq_sh, bind_some, acrossI32_spec len_sh (by omega),
    bind_some, sum_s1, sum_ps, sum_sh]

theorem neonAcross_gathers : Gathers 4 4 neonAcross := by
  intro acc shaped small_s1 small_ps small_dot
  rw [neonAcross, acrossU32_spec shaped.vs1 small_s1, bind_eq_bind, bind_some,
    acrossU32_spec shaped.vps small_ps, bind_some,
    acrossU32_spec shaped.vdot (lt_trans small_dot (by decide)), bind_some]

/-- The most that one register adds to `vdot`. -/
def dotLimit (width : Nat) : Nat := 255 * (width * (width + 1))

/-- Over `kb` registers `q`, the three accumulators together hold the weighted sum of `q`. -/
theorem registers_exact {width wide narrow : Nat}
    {step : List Nat → Accumulators → Option Accumulators} (pos : 0 < width)
    (advances : Advances width wide narrow step) :
    ∀ (kb : Nat) (q : List Nat) (acc : Accumulators) (rest : List Nat), q.length = width * kb →
      (∀ b ∈ q, b < 256) → Shaped wide narrow acc → acc.vs1.sum + q.sum < 2 ^ 32 →
      width * acc.vps.sum + acc.vdot.sum + width * kb * acc.vs1.sum + weighted q < 2 ^ 32 →
      2 * acc.vdot.sum + kb * dotLimit width < 2 ^ 30 →
      ∃ acc', registers width step kb (q ++ rest) acc = some acc' ∧ Shaped wide narrow acc' ∧
        acc'.vs1.sum = acc.vs1.sum + q.sum ∧
        width * acc'.vps.sum + acc'.vdot.sum =
          width * acc.vps.sum + acc.vdot.sum + width * kb * acc.vs1.sum + weighted q ∧
        2 * acc'.vdot.sum ≤ 2 * acc.vdot.sum + kb * dotLimit width := by
  intro kb
  induction kb with
  | zero =>
    intro q acc rest len _ shaped _ _ _
    have empty : q = [] := eq_nil_of_length_eq_zero len
    subst empty
    exact ⟨acc, rfl, shaped, rfl, by
      rw [weighted, Nat.mul_zero, Nat.zero_mul, Nat.add_zero], by omega⟩
  | succ kb ih =>
    intro q acc rest len byte shaped room_s1 room_s2 room_dot
    obtain ⟨v, q, rfl, len_v⟩ : ∃ v u, q = v ++ u ∧ v.length = width :=
      ⟨q.take width, q.drop width, (take_append_drop _ _).symm, by
        rw [length_take, len, Nat.mul_succ]
        omega⟩
    have len_q : q.length = width * kb := by
      rw [length_append, Nat.mul_succ] at len
      omega
    have byte_v := fun b mem => byte b (mem_append_left q mem)
    have byte_q := fun b mem => byte b (mem_append_right v mem)
    have dot := weighted_le byte_v
    rw [len_v, ← dotLimit] at dot
    rw [weighted_append, len_q] at room_s2 ⊢
    rw [sum_append] at room_s1 ⊢
    rw [Nat.succ_mul kb] at room_dot ⊢
    -- the weights of this register's bytes, with one register fewer to come
    have split : width * acc.vps.sum + acc.vdot.sum + width * (kb + 1) * acc.vs1.sum +
        (weighted v + width * kb * v.sum + weighted q) =
        width * (acc.vps.sum + acc.vs1.sum) + (acc.vdot.sum + weighted v) +
          width * kb * (acc.vs1.sum + v.sum) + weighted q := by ring
    rw [split] at room_s2 ⊢
    have room_ps := Nat.le_mul_of_pos_left (acc.vps.sum + acc.vs1.sum) pos
    obtain ⟨mid, eq_mid, shaped_mid, ps, s1, vdot⟩ :=
      advances v acc len_v byte_v shaped (by omega) (by omega) (by omega)
    obtain ⟨acc', eq, shaped', first, second, third⟩ := ih q mid rest len_q byte_q shaped_mid
      (by omega) (by rw [ps, s1, vdot]; exact room_s2) (by omega)
    refine ⟨acc', ?_, shaped', by omega, by rw [second, ps, s1, vdot], by omega⟩
    rw [registers, append_assoc, take_left' len_v, eq_mid, bind_eq_bind,
      bind_some, drop_left' len_v]
    exact eq

theorem vectorBlock_exact {width wide narrow : Nat} {zero : Accumulators}
    {step : List Nat → Accumulators → Option Accumulators}
    {across : Accumulators → Option (Nat × Nat × Nat)} (pos : 0 < width) (few : width ≤ 32)
    (advances : Advances width wide narrow step) (gathers : Gathers wide narrow across)
    (shaped : Shaped wide narrow zero)
    (clear : zero.vs1.sum = 0 ∧ zero.vps.sum = 0 ∧ zero.vdot.sum = 0)
    {p : List Nat} {s : Nat × Nat} (blk : Block p s) :
    vectorBlock width zero step across p s = some (sums p s) := by
  have small := blk.small
  obtain ⟨q, rest, rfl, len⟩ : ∃ q u, p = q ++ u ∧ q.length = width * (p.length / width) :=
    ⟨p.take (width * (p.length / width)), p.drop (width * (p.length / width)),
      (take_append_drop _ _).symm, by
        rw [length_take]
        exact min_eq_left (Nat.mul_div_le _ _)⟩
  generalize kbs : (q ++ rest).length / width = kb at len
  rw [sums_append] at small
  have mono := sums_mono rest (sums q s)
  have first : s.1 + q.sum < 2 ^ 32 := by
    have le := lt_of_le_of_lt mono.1 small.1
    rwa [sums_eq] at le
  have second : s.2 + (width * kb * s.1 + weighted q) < 2 ^ 32 := by
    have le := lt_of_le_of_lt mono.2 small.2
    rwa [sums_eq, len] at le
  have tail := @bytewise_exact 64 rest (sums q s) (lt_trans small.1 (by decide))
    (lt_trans small.2 (by decide))
  have wide : registerSums width kb zero step across (q ++ rest) s = some (sums q s) := by
    rw [registerSums]
    split
    · rename_i none
      rw [none, mul_zero] at len
      rw [eq_nil_of_length_eq_zero len]
      rfl
    · have room : kb * dotLimit width < 2 ^ 30 := by
        have bytes : width * kb ≤ nmax := by
          have short := blk.short
          rw [length_append] at short
          omega
        calc kb * dotLimit width = 255 * (width * kb * (width + 1)) := by
              rw [dotLimit]
              ring
          _ ≤ 255 * (nmax * 33) :=
              Nat.mul_le_mul_left _ (Nat.mul_le_mul bytes (Nat.succ_le_succ few))
          _ < 2 ^ 30 := by decide
      obtain ⟨acc, eq, shaped', s1, s2, dot⟩ := registers_exact pos advances kb q zero rest len
        (fun b mem => blk.byte b (mem_append_left _ mem)) shaped (by omega)
        (by rw [clear.1, clear.2.1, clear.2.2]; omega) (by omega)
      rw [clear.1, clear.2.1, clear.2.2, mul_zero, mul_zero] at s2
      have room_ps := Nat.le_mul_of_pos_left acc.vps.sum pos
      have s1' : acc.vs1.sum = q.sum := by omega
      have s2' : width * kb * s.1 + width * acc.vps.sum + acc.vdot.sum =
          width * kb * s.1 + weighted q := by omega
      simp only [bind_eq_bind]
      rw [eq, bind_some, gathers acc shaped' (by omega) (by omega) (by omega),
        bind_some]
      rw [s2', s1', fit_of_lt (lt_trans second (by decide)), bind_some,
        fit_of_lt (lt_trans first (by decide)), bind_some, sums_eq, len]
  simp only [vectorBlock, kbs, bind_eq_bind]
  rw [wide, bind_some, ← len, drop_left, tail, bind_some,
    fit_of_lt small.1, bind_some, fit_of_lt small.2, bind_some, sums_append]

/-! ## The whole string -/

theorem sums_congr : ∀ (p : List Nat) {s t : Nat × Nat}, reduced s = reduced t →
    reduced (sums p s) = reduced (sums p t) := by
  intro p
  induction p with
  | nil =>
    intro s t same
    exact same
  | cons b p ih =>
    intro s t same
    obtain ⟨first, second⟩ := Prod.mk.inj same
    refine ih (Prod.ext ?_ ?_)
    · exact Nat.ModEq.add_right b first
    · exact Nat.ModEq.add second (Nat.ModEq.add_right b first)

theorem reduced_reduced (s : Nat × Nat) : reduced (reduced s) = reduced s :=
  Prod.ext (Nat.mod_mod _ _) (Nat.mod_mod _ _)

theorem blocks_exact {body : List Nat → Nat × Nat → Option (Nat × Nat)}
    (exact : ∀ {p : List Nat} {s : Nat × Nat}, Block p s → body p s = some (sums p s)) :
    ∀ (p : List Nat) (s : Nat × Nat), (∀ b ∈ p, b < 256) → s.1 < 2 ^ 16 → s.2 < 2 ^ 16 →
      blocks body p s = some (if p = [] then s else reduced (sums p s)) := by
  intro p s
  induction p, s using blocks.induct with
  | case1 s =>
    intro _ _ _
    rw [blocks, if_pos rfl, if_pos rfl]
  | case2 p s more ih =>
    intro byte first second
    have here : Block (p.take nmax) s :=
      ⟨fun b mem => byte b (mem_of_mem_take mem), length_take_le _ _, first, second⟩
    have below : ∀ n : Nat, n % divisor < 2 ^ 16 := fun n =>
      lt_trans (Nat.mod_lt _ (by decide)) (by decide)
    rw [blocks, if_neg more, exact here, bind_eq_bind, bind_some,
      ih _ (fun b mem => byte b (mem_of_mem_drop mem)) (below _) (below _), if_neg more]
    refine congrArg some ?_
    have joined : sums p s = sums (p.drop nmax) (sums (p.take nmax) s) := by
      rw [← sums_append, take_append_drop]
    rw [joined]
    split
    · rename_i last
      rw [last]
      rfl
    · exact sums_congr _ (reduced_reduced _)

theorem pack_start (init : BitVec 32) : pack (start init) = init := by
  rw [pack, start, BitVec.ofNat_toNat, BitVec.ofNat_toNat, BitVec.setWidth_eq, BitVec.setWidth_eq]
  have mask : ∀ i, (0xFFFF#32).getLsbD i = decide (i < 16) := by
    intro i
    rw [BitVec.getLsbD_ofNat, show 0xFFFF = 2 ^ 16 - 1 from rfl, Nat.testBit_two_pow_sub_one]
    by_cases low : i < 16
    · simp [low, lt_trans low (show 16 < 32 by decide)]
    · simp [low]
  refine BitVec.eq_of_getLsbD_eq fun i lt => ?_
  rw [BitVec.getLsbD_or, BitVec.getLsbD_shiftLeft, BitVec.getLsbD_and, BitVec.getLsbD_and,
    BitVec.getLsbD_ushiftRight, mask, mask]
  by_cases low : i < 16
  · simp [low]
  · have back : 16 + (i - 16) = i := by omega
    have high : i - 16 < 16 := by omega
    simp [low, back, high, lt]

theorem start_lt (init : BitVec 32) : (start init).1 < 2 ^ 16 ∧ (start init).2 < 2 ^ 16 := by
  have mask : ∀ x : BitVec 32, (x &&& 0xFFFF#32).toNat < 2 ^ 16 := fun x => by
    exact Nat.and_lt_two_pow _ (by decide)
  exact ⟨mask _, mask _⟩

theorem onBlocks_exact {body : List Nat → Nat × Nat → Option (Nat × Nat)}
    (exact : ∀ {p : List Nat} {s : Nat × Nat}, Block p s → body p s = some (sums p s))
    (p : List UInt8) (init : BitVec 32) :
    onBlocks body p init = some (checksum init (p.map UInt8.toNat)) := by
  have byte : ∀ b ∈ p.map UInt8.toNat, b < 256 := fun b mem => by
    obtain ⟨u, _, rfl⟩ := mem_map.mp mem
    exact u.toNat_lt
  rw [onBlocks, blocks_exact exact _ _ byte (start_lt init).1 (start_lt init).2,
    bind_eq_bind, bind_some, checksum]
  split
  · rw [pack_start]
  · rfl

theorem scalar_exact (p : List UInt8) (init : BitVec 32) :
    adler32Scalar p init = some (checksum init (p.map UInt8.toNat)) :=
  onBlocks_exact (fun {p s} blk => scalarBlock_exact p s blk.small) p init

theorem ssse3_exact (p : List UInt8) (init : BitVec 32) :
    adler32Ssse3 p init = some (checksum init (p.map UInt8.toNat)) :=
  onBlocks_exact (vectorBlock_exact (by decide) (by decide)
    (@maddStep_advances 2 (by decide)) ssse3Across_gathers ⟨rfl, rfl, rfl⟩ ⟨rfl, rfl, rfl⟩) p init

theorem avx2_exact (p : List UInt8) (init : BitVec 32) :
    adler32Avx2 p init = some (checksum init (p.map UInt8.toNat)) :=
  onBlocks_exact (vectorBlock_exact (by decide) (by decide)
    (@maddStep_advances 4 (by decide)) avx2Across_gathers ⟨rfl, rfl, rfl⟩ ⟨rfl, rfl, rfl⟩) p init

theorem neon_exact (p : List UInt8) (init : BitVec 32) :
    adler32Neon p init = some (checksum init (p.map UInt8.toNat)) :=
  onBlocks_exact (vectorBlock_exact (by decide) (by decide)
    neonStep_advances neonAcross_gathers ⟨rfl, rfl, rfl⟩ ⟨rfl, rfl, rfl⟩) p init

/-- No path lets a word or a lane overflow, and every one returns the checksum of the
definition. -/
theorem every_path_exact (init : BitVec 32) (p : List UInt8) :
    adler32Scalar p init = some (checksum init (p.map UInt8.toNat)) ∧
      adler32Ssse3 p init = some (checksum init (p.map UInt8.toNat)) ∧
      adler32Avx2 p init = some (checksum init (p.map UInt8.toNat)) ∧
      adler32Neon p init = some (checksum init (p.map UInt8.toNat)) ∧
      ∀ target, adler32 target init p = some (checksum init (p.map UInt8.toNat)) := by
  refine ⟨scalar_exact p init, ssse3_exact p init, avx2_exact p init, neon_exact p init, ?_⟩
  intro target
  unfold adler32
  split
  · cases target with
    | avx2 => exact avx2_exact p init
    | ssse3 => exact ssse3_exact p init
    | neon => exact neon_exact p init
    | none => exact scalar_exact p init
  · exact scalar_exact p init

end Micron.Adler
