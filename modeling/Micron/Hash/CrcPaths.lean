import Micron.Hash.Crc32

/-!
# The paths of a checksum

Every kernel leaves the register of the division bit by bit, so a string may be checked in
pieces, each piece by any of them.
-/

set_option autoImplicit false

namespace Micron.Crc

open Micron.Carryless List

section Ring

variable {A : Type} [CommRing A] {y : A}

theorem poly_power (two : (2 : A) = 0) (inverse : unit y * y = 1) {n : Nat} {k : BitVec 64}
    (same : ((reflShift 0xEDB88320#32)^[n] 1#32).toNat = k.toNat) :
    poly y k = unit y ^ n := by
  have one : poly y 1#32 = 1 := val_one y
  have steps := poly_iterate (poly_reflShift two (by decide) inverse) n 1#32
  rw [poly, same, one, mul_one] at steps
  exact steps

theorem poly_mults (two : (2 : A) = 0) (inverse : unit y * y = 1) (acc : BitVec 128) :
    poly y (fold mults acc) = unit y ^ 128 * poly y acc := by
  have power : unit y ^ 64 * y ^ 64 = 1 := by rw [← mul_pow, inverse, one_pow]
  refine poly_fold two (poly_power two inverse (by decide +kernel)) ?_ acc
  rw [@poly_power A _ y two inverse 64 mults.hi (by decide +kernel)]
  linear_combination -(unit y ^ 64) * power

theorem poly_mults4 (two : (2 : A) = 0) (inverse : unit y * y = 1) (acc : BitVec 128) :
    poly y (fold mults4 acc) = (unit y ^ 128) ^ 4 * poly y acc := by
  have power : unit y ^ 64 * y ^ 64 = 1 := by rw [← mul_pow, inverse, one_pow]
  rw [← pow_mul]
  refine poly_fold two (poly_power two inverse (by decide +kernel)) ?_ acc
  rw [@poly_power A _ y two inverse 448 mults4.hi (by decide +kernel)]
  linear_combination -(unit y ^ 448) * power

theorem first_advances (two : (2 : A) = 0) (inverse : unit y * y = 1) (init : BitVec 32)
    {p : List (BitVec 8)} (enough : 16 ≤ p.length) :
    p.foldl (reflNext (unit y) y) (poly y (init ^^^ 0xFFFFFFFF#32)) =
      (p.drop 16).foldl (reflNext (unit y) y) (unit y ^ 128 * poly y (firstChunk init p)) := by
  have len : (p.take 16).length = 16 := by
    rw [length_take]
    omega
  rw [firstChunk, poly_xor two y (load p), poly_extend y _ (by decide), poly_load,
    take_drop_foldl _ 16, foldl_reflNext inverse (p.take 16), len, add_comm (val y _)]

/-- What both kernels do with a folded accumulator. -/
theorem poly_finished (two : (2 : A) = 0) (inverse : unit y * y = 1)
    (zero : poly y barrett.hi = 0) (rest : List (BitVec 8)) (acc : BitVec 128) :
    poly y (crc32ReflSlice8 rest (barrettReduce acc)) =
      rest.foldl (reflNext (unit y) y) (unit y ^ 128 * poly y acc) := by
  rw [poly_crc32ReflSlice8 two inverse, poly_barrettReduce two inverse zero
    (poly_power two inverse (by decide +kernel))]

end Ring

theorem crc32ReflSlice8_eq (p : List (BitVec 8)) (r : BitVec 32) :
    crc32ReflSlice8 p r = divide 0xEDB88320#32 p r := by
  obtain ⟨A, ring, y, two, inverse, _, apart⟩ := exists_refl
  refine apart _ _ ?_
  rw [poly_crc32ReflSlice8 two inverse, poly_divide two (by decide) inverse]
  rfl

theorem crc32ReflBytewise_eq (p : List (BitVec 8)) (r : BitVec 32) :
    crc32ReflBytewise p r = divide 0xEDB88320#32 p r := by
  obtain ⟨A, ring, y, two, inverse, _, apart⟩ := exists_refl
  refine apart _ _ ?_
  rw [crc32ReflBytewise, crc32GzipReflLut, poly_reflBytewise two (by decide) inverse,
    poly_divide two (by decide) inverse]

theorem crc32ReflClmul_eq (init : BitVec 32) {p : List (BitVec 8)} (enough : 16 ≤ p.length) :
    crc32ReflClmul init p =
      divide 0xEDB88320#32 p (init ^^^ 0xFFFFFFFF#32) ^^^ 0xFFFFFFFF#32 := by
  obtain ⟨A, ring, y, two, inverse, zero, apart⟩ := exists_refl
  have folds := poly_mults two inverse
  refine congrArg (fun r => r ^^^ 0xFFFFFFFF#32) (apart _ _ ?_)
  rw [poly_divide two (by decide) inverse, poly_finished two inverse zero]
  refine Eq.trans ?_ (first_advances two inverse init enough).symm
  have chunks : ∀ n : Nat, 16 * (n / 16) ≤ n := fun n => Nat.mul_div_le n 16
  split
  · rename_i many
    have left' : ((p.drop 16).drop 48).length = (p.drop 16).length - 48 := length_drop
    obtain ⟨room, _, same⟩ := fourLoop_run two (refl_advances inverse) (poly_mults4 two inverse)
      (((p.drop 16).length - 48) / 16) ((p.drop 16).drop 48)
      ⟨firstChunk init p, load (p.drop 16), load ((p.drop 16).drop 16),
        load ((p.drop 16).drop 32)⟩ (by rw [left']; exact chunks _)
    generalize fourLoop mults4 load (((p.drop 16).length - 48) / 16) ((p.drop 16).drop 48) _ = l
      at room same ⊢
    obtain ⟨_, same'⟩ := chunkLoop_run two (refl_advances inverse) folds l.1 l.2.1
      (l.2.2.a3 ^^^ fold mults (l.2.2.a2 ^^^ fold mults (l.2.2.a1 ^^^ fold mults l.2.2.a0))) room
    refine same'.trans ?_
    have total : poly y (l.2.2.a3 ^^^ fold mults (l.2.2.a2 ^^^ fold mults (l.2.2.a1 ^^^
        fold mults l.2.2.a0))) = l.2.2.total y (unit y ^ 128) := by
      simp only [poly_xor two, folds, Four.total]
      ring
    rw [total, same, refl_advances inverse _ (p.drop 16) (by omega),
      refl_advances inverse _ ((p.drop 16).drop 16) (by rw [length_drop]; omega),
      refl_advances inverse _ (((p.drop 16).drop 16).drop 16)
        (by rw [length_drop, length_drop]; omega)]
    simp only [drop_drop]
    refine congrArg (fun t => (p.drop 64).foldl (reflNext (unit y) y) (unit y ^ 128 * t)) ?_
    rw [Four.total]
    ring
  · exact (chunkLoop_run two (refl_advances inverse) folds _ (p.drop 16) (firstChunk init p)
      (chunks _)).2

theorem crc32ReflClmulNeon_eq (init : BitVec 32) {p : List (BitVec 8)} (enough : 16 ≤ p.length) :
    crc32ReflClmulNeon init p =
      divide 0xEDB88320#32 p (init ^^^ 0xFFFFFFFF#32) ^^^ 0xFFFFFFFF#32 := by
  obtain ⟨A, ring, y, two, inverse, zero, apart⟩ := exists_refl
  have room : 16 * ((p.length - 16) / 16) ≤ (p.drop 16).length := by
    rw [length_drop]
    exact Nat.mul_div_le _ _
  refine congrArg (fun r => r ^^^ 0xFFFFFFFF#32) (apart _ _ ?_)
  rw [poly_divide two (by decide) inverse, poly_finished two inverse zero]
  exact (chunkLoop_run two (refl_advances inverse) (poly_mults two inverse) _ (p.drop 16)
    (firstChunk init p) room).2.trans (first_advances two inverse init enough).symm

theorem crc32GzipRefl_eq (target : Target) (init : BitVec 32) (buf : List (BitVec 8)) :
    crc32GzipRefl target init buf =
      divide 0xEDB88320#32 buf (init ^^^ 0xFFFFFFFF#32) ^^^ 0xFFFFFFFF#32 := by
  unfold crc32GzipRefl
  split
  · rename_i enough
    cases target with
    | scalar =>
      rw [crc32ReflSlice8_eq]
    | x86 => exact crc32ReflClmul_eq init enough
    | neon => exact crc32ReflClmulNeon_eq init enough
  · rw [crc32ReflSlice8_eq]

theorem crc64Norm_eq (P : BitVec 64) (target : Target) (init : BitVec 64)
    (buf : List (BitVec 8)) :
    crc64Norm P (normLut P) target init buf = normBytewise (normLut P) buf init := by
  unfold crc64Norm
  split
  · rename_i enough
    have chunk : 16 ≤ buf.length := le_trans (by decide) enough
    cases target with
    | scalar => rfl
    | x86 => exact crc64NormClmul_eq P init chunk
    | neon => exact crc64NormClmul_eq P init chunk
  · rfl

theorem crc64Norm_append (P : BitVec 64) (t1 t2 t3 : Target) (init : BitVec 64)
    (a b : List (BitVec 8)) :
    crc64Norm P (normLut P) t2 (crc64Norm P (normLut P) t1 init a) b =
      crc64Norm P (normLut P) t3 init (a ++ b) := by
  rw [crc64Norm_eq, crc64Norm_eq, crc64Norm_eq, normBytewise, normBytewise, normBytewise,
    foldl_append]

theorem crc32GzipRefl_append (t1 t2 t3 : Target) (init : BitVec 32) (a b : List (BitVec 8)) :
    crc32GzipRefl t2 (crc32GzipRefl t1 init a) b = crc32GzipRefl t3 init (a ++ b) := by
  rw [crc32GzipRefl_eq, crc32GzipRefl_eq, crc32GzipRefl_eq, BitVec.xor_assoc, BitVec.xor_self,
    BitVec.xor_zero, divide, divide, divide, foldl_append]

/-- All kernels of the checksum of thirty-two bits divide bit by bit, the folding one of
sixty-four bits is the loop over the table, and strings may be checked in pieces. -/
theorem paths_agree :
    (∀ (p : List (BitVec 8)) (r : BitVec 32),
      crc32ReflSlice8 p r = divide 0xEDB88320#32 p r ∧
        crc32ReflBytewise p r = divide 0xEDB88320#32 p r) ∧
    (∀ (init : BitVec 32) (p : List (BitVec 8)), 16 ≤ p.length →
      crc32ReflClmul init p =
          crc32ReflBytewise p (init ^^^ 0xFFFFFFFF#32) ^^^ 0xFFFFFFFF#32 ∧
        crc32ReflClmulNeon init p =
          crc32ReflBytewise p (init ^^^ 0xFFFFFFFF#32) ^^^ 0xFFFFFFFF#32) ∧
    (∀ (P init : BitVec 64) (p : List (BitVec 8)), 16 ≤ p.length →
      crc64NormClmul P init p (normLut P) = normBytewise (normLut P) p init) ∧
    (∀ (t1 t2 t3 : Target) (init : BitVec 32) (a b : List (BitVec 8)),
      crc32GzipRefl t2 (crc32GzipRefl t1 init a) b = crc32GzipRefl t3 init (a ++ b)) ∧
    ∀ crc ∈ [crc64EcmaNorm, crc64IsoNorm, crc64JonesNorm, crc64RocksoftNorm],
      ∀ (t1 t2 t3 : Target) (init : BitVec 64) (a b : List (BitVec 8)),
        crc t2 (crc t1 init a) b = crc t3 init (a ++ b) := by
  refine ⟨fun p r => ⟨crc32ReflSlice8_eq p r, crc32ReflBytewise_eq p r⟩, ?_,
    fun P init p => crc64NormClmul_eq P init, crc32GzipRefl_append, ?_⟩
  · intro init p enough
    rw [crc32ReflBytewise_eq]
    exact ⟨crc32ReflClmul_eq init enough, crc32ReflClmulNeon_eq init enough⟩
  · intro crc mem
    simp only [mem_cons, not_mem_nil, or_false] at mem
    rcases mem with rfl | rfl | rfl | rfl
    · exact crc64Norm_append 0x42F0E1EBA9EA3693#64
    · exact crc64Norm_append 0x1B#64
    · exact crc64Norm_append 0x95AC9329AC4BC9B5#64
    · exact crc64Norm_append 0x6B2B957C8AF67BE0#64

/-- Enough bytes for the loop over four chunks and the one over single chunks. -/
def manyBytes : List (BitVec 8) := (List.range 255).map fun i => BitVec.ofNat 8 (i + 1)

theorem paths_agree_many :
    crc32ReflClmul 0#32 manyBytes =
        crc32ReflBytewise manyBytes (0#32 ^^^ 0xFFFFFFFF#32) ^^^ 0xFFFFFFFF#32 ∧
      crc64EcmaNorm .x86 (crc64EcmaNorm .scalar 0#64 manyBytes) manyBytes =
        crc64EcmaNorm .neon 0#64 (manyBytes ++ manyBytes) :=
  ⟨(paths_agree.2.1 0#32 manyBytes (by simp [manyBytes])).1,
    paths_agree.2.2.2.2 crc64EcmaNorm mem_cons_self .scalar .x86 .neon 0#64 manyBytes manyBytes⟩

end Micron.Crc
