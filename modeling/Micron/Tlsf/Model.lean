import Mathlib.Algebra.Order.Ring.Nat
import Mathlib.Data.Nat.Log

/-!
# The two-level segregated fit allocator

Blocks are given by their offsets from the start sentinel.  Each has a header at its
start; a heap of headers holds them, and what a user has written where no block starts.
A pointer to a user is one header behind the start of its block.  The ring of temporal
blocks is left out.
-/

set_option autoImplicit false

namespace Micron.Tlsf

open Function Nat

def usize (x : Nat) : Nat := x % 2 ^ 64

def u32 (x : Nat) : Nat := x % 2 ^ 32

def hdrOffset : Nat := 32

def blockAlign : Nat := 32

def minBlock : Nat := 64

def slLog2 : Nat := 4

def slCount : Nat := 16

def flShift : Nat := 6

def flMax : Nat := 26

def blockFree : Nat := 0

def blockAlloc : Nat := 1

structure Hdr where
  bsize : Nat
  flags : Nat
  prevPhys : Option Nat
  nextFree : Option Nat
  prevFree : Option Nat
  deriving DecidableEq

structure State where
  hasBase : Bool
  total : Nat
  flCount : Nat
  allocatedBytes : Nat
  flBitmap : BitVec 32
  slBitmap : Nat → BitVec 32
  heads : Nat → Option Nat
  mem : Nat → Hdr

def alignUp (v a : Nat) : Nat := usize (v + a - 1) / a * a

def fls64 (v : Nat) : Nat := v.log2

def idx (c : Nat × Nat) : Nat := c.1 * slCount + c.2

/-- The class of a size.  Below `minBlock` the levels of the code are negative, here they are 0:
no block is so small, and no request that has not wrapped. -/
def mappingInsert (size : Nat) : Nat × Nat :=
  let fl := fls64 size
  (fl - flShift, size / 2 ^ (fl - slLog2) % slCount)

/-- The same for the least size that has a class of no smaller ones. -/
def mappingSearch (size : Nat) : Nat × Nat :=
  let shift := fls64 size - slLog2
  mappingInsert (usize (size + (2 ^ shift - 1)))

def ctz (m : BitVec 32) : Nat := ((List.range 32).find? m.getLsbD).getD 32

def setHdr (s : State) (a : Nat) (h : Hdr) : State := { s with mem := update s.mem a h }

def setPrevPhys (s : State) (a : Nat) (p : Option Nat) : State :=
  setHdr s a { s.mem a with prevPhys := p }

def setBsize (s : State) (a n : Nat) : State := setHdr s a { s.mem a with bsize := n }

def setFlags (s : State) (a flags : Nat) : State := setHdr s a { s.mem a with flags := flags }

def setNextFree (s : State) (a : Nat) (p : Option Nat) : State :=
  setHdr s a { s.mem a with nextFree := p }

def setPrevFree (s : State) (a : Nat) (p : Option Nat) : State :=
  setHdr s a { s.mem a with prevFree := p }

def setHead (s : State) (i : Nat) (p : Option Nat) : State :=
  { s with heads := update s.heads i p }

def nextPhys (s : State) (a : Nat) : Nat := a + (s.mem a).bsize

def markClass (s : State) (c : Nat × Nat) : State :=
  { s with
    flBitmap := s.flBitmap ||| (1#32 <<< c.1)
    slBitmap := update s.slBitmap c.1 (s.slBitmap c.1 ||| (1#32 <<< c.2)) }

def unmarkClass (s : State) (c : Nat × Nat) : State :=
  let sl := s.slBitmap c.1 &&& ~~~(1#32 <<< c.2)
  { s with
    slBitmap := update s.slBitmap c.1 sl
    flBitmap := if sl = 0#32 then s.flBitmap &&& ~~~(1#32 <<< c.1) else s.flBitmap }

def flInsert (s : State) (block : Nat) : State :=
  let c := mappingInsert (s.mem block).bsize
  let head := s.heads (idx c)
  let s := setPrevFree (setNextFree s block head) block none
  let s := match head with
    | some h => setPrevFree s h (some block)
    | none => s
  markClass (setFlags (setHead s (idx c) (some block)) block blockFree) c

def flRemove (s : State) (block : Nat) : State :=
  let c := mappingInsert (s.mem block).bsize
  let next := (s.mem block).nextFree
  let prev := (s.mem block).prevFree
  let s := match prev with
    | some p => setNextFree s p next
    | none => setHead s (idx c) next
  let s := match next with
    | some n => setPrevFree s n prev
    | none => s
  if s.heads (idx c) = none then unmarkClass s c else s

def findClass (s : State) (c : Nat × Nat) : Option (Nat × Nat) :=
  let slMap := s.slBitmap c.1 &&& (BitVec.allOnes 32 <<< c.2)
  if slMap = 0#32 then
    let flMap := s.flBitmap &&& (BitVec.allOnes 32 <<< (c.1 + 1))
    if flMap = 0#32 then none else some (ctz flMap, ctz (s.slBitmap (ctz flMap)))
  else some (c.1, ctz slMap)

def findFree (s : State) (needed : Nat) : State × Option Nat :=
  let c := mappingSearch needed
  if s.flCount ≤ c.1 then (s, none)
  else
    match findClass s c with
    | none => (s, none)
    | some c =>
      match s.heads (idx c) with
      | none => (s, none)
      | some block => (flRemove s block, some block)

/-- What a block has over becomes a block, at an address that has not wrapped. -/
def trySplit (s : State) (block needed : Nat) : State :=
  let remain := usize (2 ^ 64 + (s.mem block).bsize - needed)
  if remain < minBlock then s
  else
    let s := setBsize s block (u32 needed)
    let rem := block + needed
    let s := setHdr s rem
      { s.mem rem with bsize := u32 remain, flags := blockFree, prevPhys := some block }
    flInsert (setPrevPhys s (nextPhys s rem) (some rem)) rem

def mergeForward (s : State) (block : Nat) : State :=
  let next := nextPhys s block
  if (s.mem next).flags = blockFree then
    let s := flRemove s next
    let s := setBsize s block (u32 ((s.mem block).bsize + (s.mem next).bsize))
    setPrevPhys s (nextPhys s block) (some block)
  else s

/-- A block is joined to the free one in front of it; the block that it is then part of. -/
def mergeBackward (s : State) (block : Nat) : State × Nat :=
  match (s.mem block).prevPhys with
  | none => (s, block)
  | some prev =>
    if (s.mem prev).flags = blockFree then
      let s := flRemove s prev
      let s := setBsize s prev (u32 ((s.mem prev).bsize + (s.mem block).bsize))
      (setPrevPhys s (nextPhys s prev) (some prev), prev)
    else (s, block)

def coalesceAndFree (s : State) (block : Nat) : State :=
  let r := mergeBackward (mergeForward s block) block
  flInsert r.1 r.2

def adjustedBlockSize (n : Nat) : Nat :=
  let needed := alignUp (usize (n + hdrOffset)) blockAlign
  if needed < minBlock then minBlock else needed

def wanted (n : Nat) : Nat :=
  let n := usize (n + 32)
  adjustedBlockSize (if n = 0 then 1 else n)

def allocate (s : State) (n : Nat) : State × Option (Nat × Nat) :=
  if s.hasBase = false then (s, none)
  else
    match findFree s (wanted n) with
    | (s, none) => (s, none)
    | (s, some block) =>
      let s := setFlags (trySplit s block (wanted n)) block blockAlloc
      ({ s with allocatedBytes := s.allocatedBytes + (s.mem block).bsize },
        some (block + hdrOffset, (s.mem block).bsize - hdrOffset))

inductive RetFlag where
  | failure
  | invalid
  | ok
  deriving DecidableEq

def deallocate (s : State) (ptr : Nat) : State × RetFlag :=
  if s.hasBase = false then (s, .failure)
  else
    let block := ptr - hdrOffset
    let bsz := (s.mem block).bsize
    if (s.mem block).flags = blockFree then (s, .invalid)
    else (coalesceAndFree { s with allocatedBytes := s.allocatedBytes - bsz } block, .ok)

def State.none : State where
  hasBase := false
  total := 0
  flCount := 0
  allocatedBytes := 0
  flBitmap := 0
  slBitmap _ := 0
  heads _ := .none
  mem _ := ⟨0, 0, .none, .none, .none⟩

/-- The end of `__impl_init_memory`, for the bytes between the sentinels. -/
def State.ofTotal (total : Nat) : State :=
  let levels := fls64 total - flShift + 1
  let levels := if levels > flMax then flMax else levels
  let s : State := { State.none with
    hasBase := true, total := total, flCount := if levels < 1 then 1 else levels }
  let s := setHdr s 0 ⟨blockAlign, blockAlloc, .none, .none, .none⟩
  let s := setHdr s (blockAlign + total) ⟨blockAlign, blockAlloc, some blockAlign, .none, .none⟩
  let s := setHdr s blockAlign
    { s.mem blockAlign with bsize := u32 total, flags := blockFree, prevPhys := some 0 }
  flInsert s blockAlign

def State.init (ptr len : Nat) : State :=
  let adjust := (ptr + 31) / 32 * 32 - ptr
  if len ≤ adjust then State.none
  else
    let usable := (len - adjust) / blockAlign * blockAlign
    if usable < 2 * blockAlign + minBlock then State.none
    else if usable - 2 * blockAlign > 0xFFFFFFFF then State.none
    else State.ofTotal (usable - 2 * blockAlign)

/-!
## Classes of sizes

A class has the sizes from its floor up to the floor of the next one.  The class that is
searched for a size has a floor that is not below it.
-/

def floor (c : Nat × Nat) : Nat := (slCount + c.2) * 2 ^ (c.1 + 2)

def Below (c c' : Nat × Nat) : Prop := c.1 < c'.1 ∨ c.1 = c'.1 ∧ c.2 ≤ c'.2

theorem floor_le_of_below {c c' : Nat × Nat} (below : Below c c') (small : c.2 < slCount) :
    floor c ≤ floor c' := by
  unfold floor
  rcases below with less | ⟨same, le⟩
  · have bound : (slCount + c.2) * 2 ^ (c.1 + 2) ≤ slCount * 2 ^ (c.1 + 1 + 2) := by
      have double : slCount + c.2 ≤ slCount * 2 := by
        omega
      calc (slCount + c.2) * 2 ^ (c.1 + 2) ≤ slCount * 2 * 2 ^ (c.1 + 2) := mul_le_mul_right _ double
        _ = slCount * 2 ^ (c.1 + 1 + 2) := by
          rw [mul_assoc, mul_comm 2, ← pow_succ]
    refine le_trans bound (Nat.mul_le_mul (Nat.le_add_right _ _) ?_)
    exact Nat.pow_le_pow_right (by decide) (by omega)
  · rw [same]
    exact Nat.mul_le_mul_right _ (Nat.add_le_add_left le _)

theorem mappingInsert_spec {n : Nat} (large : 64 ≤ n) :
    (mappingInsert n).2 < slCount ∧ (mappingInsert n).1 + 6 = n.log2 ∧
      n / 2 ^ ((mappingInsert n).1 + 2) = slCount + (mappingInsert n).2 := by
  have positive : n ≠ 0 := by omega
  have level : 6 ≤ n.log2 := (Nat.le_log2 positive).mpr large
  have low : 2 ^ n.log2 ≤ n := Nat.log2_self_le positive
  have high : n < 2 ^ (n.log2 + 1) := Nat.lt_log2_self
  have shift : n.log2 - 6 + 2 = n.log2 - 4 := by omega
  have split : n.log2 = 4 + (n.log2 - 4) := by omega
  have lower : 16 ≤ n / 2 ^ (n.log2 - 4) := by
    rw [Nat.le_div_iff_mul_le (Nat.two_pow_pos _)]
    calc 16 * 2 ^ (n.log2 - 4) = 2 ^ (4 + (n.log2 - 4)) := by rw [Nat.pow_add]
      _ = 2 ^ n.log2 := by rw [← split]
      _ ≤ n := low
  have upper : n / 2 ^ (n.log2 - 4) < 32 := by
    rw [Nat.div_lt_iff_lt_mul (Nat.two_pow_pos _)]
    calc n < 2 ^ (n.log2 + 1) := high
      _ = 2 ^ (5 + (n.log2 - 4)) := by rw [show n.log2 + 1 = 5 + (n.log2 - 4) by omega]
      _ = 32 * 2 ^ (n.log2 - 4) := by rw [Nat.pow_add]
  unfold mappingInsert fls64 flShift slLog2
  refine ⟨Nat.mod_lt _ (by decide), Nat.sub_add_cancel level, ?_⟩
  dsimp only
  rw [shift]
  unfold slCount
  omega

theorem floor_mappingInsert {n : Nat} (large : 64 ≤ n) : floor (mappingInsert n) ≤ n := by
  obtain ⟨_, _, value⟩ := mappingInsert_spec large
  rw [floor, ← value]
  exact div_mul_le_self _ _

/-- A block of a class that is searched is large enough. -/
theorem le_floor_mappingSearch {n : Nat} (large : 64 ≤ n) (word : n + (2 ^ (n.log2 - 4) - 1) < 2 ^ 64) :
    n ≤ floor (mappingSearch n) ∧ (mappingSearch n).2 < slCount := by
  have positive : n ≠ 0 := by omega
  have whole : usize (n + (2 ^ (fls64 n - slLog2) - 1)) = n + (2 ^ (n.log2 - 4) - 1) :=
    mod_eq_of_lt word
  unfold mappingSearch
  dsimp only
  rw [whole]
  generalize isM : n + (2 ^ (n.log2 - 4) - 1) = m at word whole
  have largeM : 64 ≤ m := by omega
  obtain ⟨small, level, value⟩ := mappingInsert_spec largeM
  refine ⟨?_, small⟩
  rw [floor, ← value]
  have positiveM : m ≠ 0 := by omega
  have levels : n.log2 ≤ m.log2 :=
    (le_log2 positiveM).mpr (le_trans (Nat.log2_self_le positive) (by omega))
  rcases eq_or_lt_of_le levels with same | more
  · -- the sum is rounded down to a multiple of what was added
    have shift : (mappingInsert m).1 + 2 = n.log2 - 4 := by omega
    rw [shift]
    have parts := div_add_mod m (2 ^ (n.log2 - 4))
    rw [mul_comm] at parts
    omega
  · have high : n < 2 ^ (n.log2 + 1) := lt_log2_self
    have top : 2 ^ (n.log2 + 1) ≤ 2 ^ m.log2 := Nat.pow_le_pow_right (by decide) more
    have floorM : 2 ^ m.log2 ≤ m / 2 ^ ((mappingInsert m).1 + 2) * 2 ^ ((mappingInsert m).1 + 2) := by
      rw [value, ← level, show (mappingInsert m).1 + 6 = 4 + ((mappingInsert m).1 + 2) by omega,
        pow_add]
      exact mul_le_mul_right _ (by unfold slCount; omega)
    omega

/-- Sizes of less than four gigabytes have one of the levels. -/
theorem mappingInsert_level {n : Nat} (large : 64 ≤ n) (small : n < 2 ^ 32) :
    (mappingInsert n).1 < flMax := by
  have positive : n ≠ 0 := by omega
  obtain ⟨_, level, _⟩ := mappingInsert_spec large
  have below : n.log2 < 32 := (Nat.log2_lt positive).mpr small
  unfold flMax
  omega

theorem idx_inj {c c' : Nat × Nat} (small : c.2 < slCount) (small' : c'.2 < slCount)
    (same : idx c = idx c') : c = c' := by
  unfold idx slCount at *
  exact Prod.ext (by omega) (by omega)

theorem ctz_spec {m : BitVec 32} (some_ : m ≠ 0#32) : m.getLsbD (ctz m) = true := by
  unfold ctz
  cases found : (List.range 32).find? m.getLsbD with
  | some i => exact List.find?_some found
  | none =>
    exfalso
    refine some_ (BitVec.eq_of_getLsbD_eq fun i small => ?_)
    have := List.find?_eq_none.mp found i (List.mem_range.mpr small)
    simpa using this

theorem getLsbD_allOnes_shift (k i : Nat) :
    (BitVec.allOnes 32 <<< k).getLsbD i = (decide (i < 32) && decide (k ≤ i)) := by
  rw [BitVec.getLsbD_shiftLeft, BitVec.getLsbD_allOnes]
  by_cases small : i < 32
  · by_cases le : k ≤ i
    · have : i - k < 32 := by omega
      simp [small, le, this]
    · simp [small, le]
  · simp [small]

theorem getLsbD_one_shift {k i : Nat} (small : k < 32) :
    (1#32 <<< k).getLsbD i = decide (i = k) := by
  by_cases same : i = k
  · simp [same, small]
  · rcases lt_or_ge i k with less | more
    · simp [same, less]
    · have : i - k ≠ 0 := by omega
      simp [same, this]

end Micron.Tlsf
