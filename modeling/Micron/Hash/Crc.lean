import Micron.Lib.Carryless

/-!
# Cyclic redundancy checks

The tables are functions of the byte that indexes them, a buffer is the list of its bytes, and
what is left of the list stands for the moving pointer.  A register of sixteen bytes has the
first byte of its load in the lowest place.
-/

set_option autoImplicit false

namespace Micron.Crc

open Micron.Carryless (clmul)

/-- One bit of a table entry with the highest bit first. -/
def normShift (poly crc : BitVec 64) : BitVec 64 :=
  if crc &&& 0x8000000000000000#64 ≠ 0#64 then (crc <<< 1) ^^^ poly else crc <<< 1

def normLut (poly : BitVec 64) (i : BitVec 8) : BitVec 64 :=
  (normShift poly)^[8] (i.setWidth 64 <<< 56)

/-- One bit of a table entry with the lowest bit first. -/
def reflShift {w : Nat} (poly crc : BitVec w) : BitVec w :=
  if crc &&& 1#w ≠ 0#w then (crc >>> 1) ^^^ poly else crc >>> 1

def reflLut {w : Nat} (poly : BitVec w) (i : BitVec 8) : BitVec w :=
  (reflShift poly)^[8] (i.setWidth w)

def crc32GzipReflLut : BitVec 8 → BitVec 32 := reflLut 0xEDB88320#32

def crc32GzipReflSlice8Lut : Nat → BitVec 8 → BitVec 32
  | 0, i => crc32GzipReflLut i
  | k + 1, i =>
    (crc32GzipReflSlice8Lut k i >>> 8) ^^^
      crc32GzipReflLut ((crc32GzipReflSlice8Lut k i).setWidth 8)

def crc64EcmaNormLut : BitVec 8 → BitVec 64 := normLut 0x42F0E1EBA9EA3693#64

def crc64EcmaReflLut : BitVec 8 → BitVec 64 := reflLut 0xC96C5795D7870F42#64

def crc64IsoNormLut : BitVec 8 → BitVec 64 := normLut 0x000000000000001B#64

def crc64IsoReflLut : BitVec 8 → BitVec 64 := reflLut 0xD800000000000000#64

def crc64JonesNormLut : BitVec 8 → BitVec 64 := normLut 0x95AC9329AC4BC9B5#64

def crc64JonesReflLut : BitVec 8 → BitVec 64 := reflLut 0xAD93D23594C935A9#64

def crc64RocksoftNormLut : BitVec 8 → BitVec 64 := normLut 0x6B2B957C8AF67BE0#64

def crc64RocksoftReflLut : BitVec 8 → BitVec 64 := reflLut 0x07D5B24186574BDB#64

def normByte (lut : BitVec 8 → BitVec 64) (crc : BitVec 64) (b : BitVec 8) : BitVec 64 :=
  (crc <<< 8) ^^^ lut (((crc >>> 56) ^^^ b.setWidth 64).setWidth 8)

def normBytewise (lut : BitVec 8 → BitVec 64) (p : List (BitVec 8)) (crc : BitVec 64) :
    BitVec 64 :=
  p.foldl (normByte lut) crc

def reflByte {w : Nat} (lut : BitVec 8 → BitVec w) (r : BitVec w) (b : BitVec 8) : BitVec w :=
  (r >>> 8) ^^^ lut ((r ^^^ b.setWidth w).setWidth 8)

def reflBytewise {w : Nat} (lut : BitVec 8 → BitVec w) (p : List (BitVec 8)) (r : BitVec w) :
    BitVec w :=
  p.foldl (reflByte lut) r

def crc32ReflBytewise (p : List (BitVec 8)) (r : BitVec 32) : BitVec 32 :=
  reflBytewise crc32GzipReflLut p r

def load32 (b0 b1 b2 b3 : BitVec 8) : BitVec 32 :=
  b0.setWidth 32 ^^^ (b1.setWidth 32 <<< 8) ^^^ (b2.setWidth 32 <<< 16) ^^^
    (b3.setWidth 32 <<< 24)

/-- One turn of the loop over eight bytes, the first four of them in `a` with the register. -/
def slice8 (a b : BitVec 32) : BitVec 32 :=
  crc32GzipReflSlice8Lut 7 (a.setWidth 8) ^^^ crc32GzipReflSlice8Lut 6 ((a >>> 8).setWidth 8) ^^^
    crc32GzipReflSlice8Lut 5 ((a >>> 16).setWidth 8) ^^^
    crc32GzipReflSlice8Lut 4 ((a >>> 24).setWidth 8) ^^^
    crc32GzipReflSlice8Lut 3 (b.setWidth 8) ^^^ crc32GzipReflSlice8Lut 2 ((b >>> 8).setWidth 8) ^^^
    crc32GzipReflSlice8Lut 1 ((b >>> 16).setWidth 8) ^^^
    crc32GzipReflSlice8Lut 0 ((b >>> 24).setWidth 8)

def crc32ReflSlice8 : List (BitVec 8) → BitVec 32 → BitVec 32
  | b0 :: b1 :: b2 :: b3 :: b4 :: b5 :: b6 :: b7 :: p, r =>
    crc32ReflSlice8 p (slice8 (load32 b0 b1 b2 b3 ^^^ r) (load32 b4 b5 b6 b7))
  | p, r => reflBytewise crc32GzipReflLut p r

def number (p : List (BitVec 8)) : Nat := p.foldr (fun b n => n * 2 ^ 8 + b.toNat) 0

def load (p : List (BitVec 8)) : BitVec 128 := BitVec.ofNat 128 (number (p.take 16))

/-- `__ld_be`, a load with the bytes of the register reversed. -/
def ldBe (p : List (BitVec 8)) : BitVec 128 := load (p.take 16).reverse

/-- The first `n` bytes of a register, as they are stored. -/
def bytes {w : Nat} : Nat → BitVec w → List (BitVec 8)
  | 0, _ => []
  | n + 1, v => v.setWidth 8 :: bytes n (v >>> 8)

structure Multiplier where
  lo : BitVec 64
  hi : BitVec 64

def low (v : BitVec 128) : BitVec 64 := v.setWidth 64

def high (v : BitVec 128) : BitVec 64 := (v >>> 64).setWidth 64

def fold (k : Multiplier) (acc : BitVec 128) : BitVec 128 :=
  clmul (high acc) k.hi ^^^ clmul (low acc) k.lo

structure Four where
  a0 : BitVec 128
  a1 : BitVec 128
  a2 : BitVec 128
  a3 : BitVec 128

/-- The loop over four chunks at a time, with the number of whole chunks left. -/
def fourLoop (k : Multiplier) (ld : List (BitVec 8) → BitVec 128) :
    Nat → List (BitVec 8) → Four → Nat × List (BitVec 8) × Four
  | nc + 4, p, a =>
    fourLoop k ld nc (p.drop 64)
      ⟨fold k a.a0 ^^^ ld p, fold k a.a1 ^^^ ld (p.drop 16), fold k a.a2 ^^^ ld (p.drop 32),
        fold k a.a3 ^^^ ld (p.drop 48)⟩
  | nc, p, a => (nc, p, a)

def chunkLoop (k : Multiplier) (ld : List (BitVec 8) → BitVec 128) :
    Nat → List (BitVec 8) → BitVec 128 → List (BitVec 8) × BitVec 128
  | 0, p, acc => (p, acc)
  | nc + 1, p, acc => chunkLoop k ld nc (p.drop 16) (fold k acc ^^^ ld p)

def xpowMod (n : Nat) (poly : BitVec 64) : BitVec 64 :=
  (fun r : BitVec 64 => (r <<< 1) ^^^ (if r >>> 63 ≠ 0#64 then poly else 0#64))^[n] 1#64

def kconst (poly : BitVec 64) (n : Nat) : Multiplier :=
  ⟨xpowMod n poly, xpowMod (n + 64) poly⟩

/-- The first chunk with the initial value in its first eight bytes. -/
def headOf (init : BitVec 64) (p : List (BitVec 8)) : List (BitVec 8) :=
  List.zipWith (· ^^^ ·) (p.take 16) ((bytes 8 init).reverse ++ List.replicate 8 0#8)

/-- It reads sixteen bytes at least; its callers have sixty-four. -/
def crc64NormClmul (poly init : BitVec 64) (buf : List (BitVec 8)) (lut : BitVec 8 → BitVec 64) :
    BitVec 64 :=
  let nc := buf.length / 16
  let head := headOf init buf
  let folded :=
    if 8 ≤ nc then
      let l := fourLoop (kconst poly 512) ldBe (nc - 4) (buf.drop 64)
        ⟨ldBe head, ldBe (buf.drop 16), ldBe (buf.drop 32), ldBe (buf.drop 48)⟩
      chunkLoop (kconst poly 128) ldBe l.1 l.2.1
        ((fold (kconst poly 384) l.2.2.a0 ^^^ fold (kconst poly 256) l.2.2.a1) ^^^
          (fold (kconst poly 128) l.2.2.a2 ^^^ l.2.2.a3))
    else chunkLoop (kconst poly 128) ldBe (nc - 1) (buf.drop 16) (ldBe head)
  let crc := normBytewise lut (bytes 16 folded.2).reverse 0#64
  normBytewise lut (folded.1.take (buf.length % 16)) crc

def mults : Multiplier := ⟨0xae689191#64, 0xccaa009e#64⟩

def mults4 : Multiplier := ⟨0x8f352d95#64, 0x1d9513d7#64⟩

def barrett : Multiplier := ⟨0xb4e5b025f7011641#64, 0x1db710641#64⟩

/-- From the folded register to the one of the checksum. -/
def barrettReduce (x0 : BitVec 128) : BitVec 32 :=
  let x0 := clmul (low x0) mults.hi ^^^ (x0 >>> 64)
  let x1 := clmul (low x0) barrett.lo
  let x1 := clmul (low x1) barrett.hi
  ((x0 ^^^ x1) >>> 64).setWidth 32

def firstChunk (init : BitVec 32) (p : List (BitVec 8)) : BitVec 128 :=
  load p ^^^ (init ^^^ 0xFFFFFFFF#32).setWidth 128

/-- The loops go by the length left; `nc` is the number of whole chunks in it. -/
def crc32ReflClmul (init : BitVec 32) (p : List (BitVec 8)) : BitVec 32 :=
  let x0 := firstChunk init p
  let p := p.drop 16
  let folded :=
    if 48 ≤ p.length then
      let l := fourLoop mults4 load ((p.length - 48) / 16) (p.drop 48)
        ⟨x0, load p, load (p.drop 16), load (p.drop 32)⟩
      let x0 := l.2.2.a1 ^^^ fold mults l.2.2.a0
      let x0 := l.2.2.a2 ^^^ fold mults x0
      let x0 := l.2.2.a3 ^^^ fold mults x0
      chunkLoop mults load l.1 l.2.1 x0
    else chunkLoop mults load (p.length / 16) p x0
  crc32ReflSlice8 folded.1 (barrettReduce folded.2) ^^^ 0xFFFFFFFF#32

/-- The kernel of the other architecture, without the four accumulators. -/
def crc32ReflClmulNeon (init : BitVec 32) (p : List (BitVec 8)) : BitVec 32 :=
  let folded := chunkLoop mults load ((p.length - 16) / 16) (p.drop 16) (firstChunk init p)
  crc32ReflSlice8 folded.1 (barrettReduce folded.2) ^^^ 0xFFFFFFFF#32

/-- What a build has for the products without carries. -/
inductive Target where
  | scalar
  | x86
  | neon

def crc32GzipRefl (target : Target) (init : BitVec 32) (buf : List (BitVec 8)) : BitVec 32 :=
  if 16 ≤ buf.length then
    match target with
    | .scalar => crc32ReflSlice8 buf (init ^^^ 0xFFFFFFFF#32) ^^^ 0xFFFFFFFF#32
    | .x86 => crc32ReflClmul init buf
    | .neon => crc32ReflClmulNeon init buf
  else crc32ReflSlice8 buf (init ^^^ 0xFFFFFFFF#32) ^^^ 0xFFFFFFFF#32

def crc64Norm (poly : BitVec 64) (lut : BitVec 8 → BitVec 64) (target : Target)
    (init : BitVec 64) (buf : List (BitVec 8)) : BitVec 64 :=
  if 64 ≤ buf.length then
    match target with
    | .scalar => normBytewise lut buf init
    | .x86 => crc64NormClmul poly init buf lut
    | .neon => crc64NormClmul poly init buf lut
  else normBytewise lut buf init

def crc64EcmaNorm := crc64Norm 0x42F0E1EBA9EA3693#64 crc64EcmaNormLut

def crc64IsoNorm := crc64Norm 0x1B#64 crc64IsoNormLut

def crc64JonesNorm := crc64Norm 0x95AC9329AC4BC9B5#64 crc64JonesNormLut

def crc64RocksoftNorm := crc64Norm 0x6B2B957C8AF67BE0#64 crc64RocksoftNormLut

def crc64EcmaRefl (init : BitVec 64) (buf : List (BitVec 8)) : BitVec 64 :=
  reflBytewise crc64EcmaReflLut buf init

def crc64IsoRefl (init : BitVec 64) (buf : List (BitVec 8)) : BitVec 64 :=
  reflBytewise crc64IsoReflLut buf init

def crc64JonesRefl (init : BitVec 64) (buf : List (BitVec 8)) : BitVec 64 :=
  reflBytewise crc64JonesReflLut buf init

def crc64RocksoftRefl (init : BitVec 64) (buf : List (BitVec 8)) : BitVec 64 :=
  reflBytewise crc64RocksoftReflLut buf init

end Micron.Crc
