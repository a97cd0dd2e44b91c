import Mathlib.Algebra.BigOperators.Group.List.Basic
import Micron.Lib.Chain
import Micron.Lib.Dyadic
import Micron.Lib.Holding

/-!
# The buddy allocator

Blocks are given by their offsets from the base.  A heap of words holds the link of
each block on a free list, at its start, and the header of each live block, at its end;
the words of a live block in front of its header belong to the user.  The ring and the
cache of temporal blocks are left out, and so is the cold cache, which has room for no
block.
-/

set_option autoImplicit false

namespace Micron.Buddy

open Function Nat

def usize (x : Nat) : Nat := x % 2 ^ 64

def hdrOffset : Nat := 32

/-- The parameters of the template, `Min = 2 ^ log2Min` and `Mx`. -/
structure Config where
  log2Min : Nat
  mx : Nat
  large : hdrOffset ≤ 2 ^ log2Min
  signed : log2Min < 63
  someOrders : 0 < mx
  fits : mx ≤ 64

def Config.min (cfg : Config) : Nat := 2 ^ cfg.log2Min

/-- The pointer to the next free block, the order and flags of a block, or what a user
wrote. -/
inductive Word where
  | link (next : Option Nat)
  | header (order flags : Nat)
  | user (value : Nat)

def Word.next : Word → Option Nat
  | .link next => next
  | .header _ _ | .user _ => none

def tagFree : Nat := 0x80

def tagNone : Nat := 0xFF

def blockFree : Nat := 0

def blockAlloc : Nat := 1

structure State where
  hasBase : Bool
  total : Nat
  maxOrder : Nat
  allocatedBytes : Nat
  freeMask : BitVec 64
  blockTags : Nat → Nat
  freeLists : Nat → Option Nat
  mem : Nat → Word

section

variable (cfg : Config)

def log2Tbl : List Nat :=
  [0, 0, 1, 2, 2, 3, 3, 3, 3, 4, 4, 4, 4, 4, 4, 4, 4, 5, 5, 5, 5, 5, 5, 5, 5, 5, 5, 5, 5, 5, 5, 5, 5,
    6, 6, 6, 6, 6, 6, 6, 6, 6, 6, 6, 6, 6, 6, 6, 6, 6, 6, 6, 6, 6, 6, 6, 6, 6, 6, 6, 6, 6, 6, 6, 6, 6]

/-- `ceil_log2_u64`; behind the table `64 - clz(v - 1)`. -/
def ceilLog2 (v : Nat) : Nat := if v ≤ 64 then log2Tbl.getD v 0 else (v - 1).log2 + 1

def orderForSize (n : Nat) : Nat :=
  let units := usize (n + cfg.min - 1) / 2 ^ cfg.log2Min
  if units ≤ 1 then 0 else ceilLog2 units

def orderSize (o : Nat) : Nat := usize (cfg.min * 2 ^ o)

def tagIndexOf (off : Nat) : Nat := off / 2 ^ cfg.log2Min

def setTag (s : State) (off tag : Nat) : State :=
  { s with blockTags := update s.blockTags (tagIndexOf cfg off) tag }

def tagSetFree (s : State) (off o : Nat) : State := setTag cfg s off ((o ||| tagFree) % 256)

def tagSetAlloc (s : State) (off o : Nat) : State := setTag cfg s off (o % 256)

def tagIsFreeAtOff (s : State) (off o : Nat) : Bool :=
  s.blockTags (tagIndexOf cfg off) = (o ||| tagFree) % 256

def maskSet (s : State) (o : Nat) : State := { s with freeMask := s.freeMask ||| (1#64 <<< o) }

def maskClearIfEmpty (s : State) (o : Nat) : State :=
  let bit := 1#64 <<< o
  let keep := if (s.freeLists o).isSome then BitVec.allOnes 64 else 0#64
  { s with freeMask := (s.freeMask &&& ~~~bit) ||| (s.freeMask &&& bit &&& keep) }

def ctz (m : BitVec 64) : Nat := ((List.range 64).find? m.getLsbD).getD 64

def findFreeOrder (s : State) (o : Nat) : Nat :=
  let m := s.freeMask >>> o
  if m = 0#64 then s.maxOrder else o + ctz m

def hdrOf (off o : Nat) : Nat := off + orderSize cfg o - hdrOffset

def linkValid (s : State) (next : Option Nat) : Bool :=
  match next with
  | none => true
  | some b => b < s.total && b % cfg.min = 0

/-- The link of a block, or no block where it is not a good one. -/
def goodNext (s : State) (off : Nat) : Option Nat :=
  let next := (s.mem off).next
  if linkValid cfg s next then next else none

def setWord (s : State) (off : Nat) (w : Word) : State :=
  { s with mem := update s.mem off w }

def setHead (s : State) (o : Nat) (head : Option Nat) : State :=
  { s with freeLists := update s.freeLists o head }

/-- The loop of `freelist_remove`, for a list of at most as many blocks as its first
argument. -/
def removeLoop (s : State) (buddy o : Nat) : Nat → Option Nat → Option Nat → State
  | 0, _, _ => s
  | _ + 1, _, none => s
  | fuel + 1, prev, some cur =>
    let nx := goodNext cfg s cur
    if cur = buddy then
      match prev with
      | some p => maskClearIfEmpty (setWord s p (.link nx)) o
      | none => maskClearIfEmpty (setHead s o nx) o
    else removeLoop s buddy o fuel (some cur) nx

def freelistRemove (s : State) (buddy o : Nat) : State :=
  removeLoop cfg s buddy o (s.total + 1) none (s.freeLists o)

def freelistPush (s : State) (off o : Nat) : State :=
  tagSetFree cfg (maskSet (setHead (setWord s off (.link (s.freeLists o))) o (some off)) o) off o

/-- The head of a list, which is not empty, is taken off. -/
def freelistPop (s : State) (off o : Nat) : State :=
  maskClearIfEmpty (setHead s o (goodNext cfg s off)) o

/-- The loop of `__merge_and_free`, with the orders that are left above. -/
def mergeLoop (s : State) (off o : Nat) : Nat → State
  | 0 => freelistPush cfg s off o
  | above + 1 =>
    let buddyOff := off ^^^ orderSize cfg o
    if tagIsFreeAtOff cfg s buddyOff o then
      let s := setTag cfg (freelistRemove cfg s buddyOff o) buddyOff tagNone
      mergeLoop s (if buddyOff < off then buddyOff else off) (o + 1) above
    else freelistPush cfg s off o

def mergeAndFree (s : State) (off o : Nat) : State := mergeLoop cfg s off o (s.maxOrder - 1 - o)

/-- The blocks right of the one at hand are given to their lists, from order `i - 1` on
down to `o`. -/
def splitLoop (s : State) (blk o : Nat) : Nat → State
  | 0 => s
  | i + 1 => if o ≤ i then splitLoop (freelistPush cfg s (blk + orderSize cfg i) i) blk o i else s

/-- The block is marked as allocated and returned with its size. -/
def finishAlloc (s : State) (blk o : Nat) : State × Option (Nat × Nat) :=
  let s := tagSetAlloc cfg (setWord s (hdrOf cfg blk o) (.header o blockAlloc)) blk o
  ({ s with allocatedBytes := s.allocatedBytes + orderSize cfg o },
    some (blk, orderSize cfg o - hdrOffset))

def allocate (s : State) (n : Nat) : State × Option (Nat × Nat) :=
  let n := usize (n + hdrOffset)
  let n := if n = 0 then 1 else n
  if s.hasBase = false then (s, none)
  else
    let needed := usize (n + cfg.min - 1) / cfg.min * cfg.min
    let o := orderForSize cfg needed
    if s.maxOrder ≤ o then (s, none)
    else
      let i := findFreeOrder s o
      if s.maxOrder ≤ i then (s, none)
      else
        match s.freeLists i with
        | none => (s, none)
        | some blk => finishAlloc cfg (splitLoop cfg (freelistPop cfg s blk i) blk o i) blk o

def allocateExact (s : State) (n : Nat) : State × Option (Nat × Nat) :=
  if s.hasBase = false then (s, none)
  else if n < cfg.min then (s, none)
  else if n &&& (n - 1) ≠ 0 then (s, none)
  else
    let o := orderForSize cfg n
    if s.maxOrder ≤ o then (s, none)
    else
      match s.freeLists o with
      | none => (s, none)
      | some blk => finishAlloc cfg (freelistPop cfg s blk o) blk o

inductive RetFlag where
  | invalid
  | ok
  deriving DecidableEq

def isAllocated (s : State) (off : Nat) : Bool :=
  if s.hasBase = false ∨ s.total ≤ off then false
  else if off % cfg.min ≠ 0 then false
  else
    let tag := s.blockTags (tagIndexOf cfg off)
    tag &&& tagFree = 0 && tag < s.maxOrder % 256

def deallocate (s : State) (off : Nat) : State × RetFlag :=
  if isAllocated cfg s off = false then (s, .invalid)
  else
    let hdr := hdrOf cfg off (s.blockTags (tagIndexOf cfg off) % tagFree)
    match s.mem hdr with
    | .header o flags =>
      if s.maxOrder ≤ o then (s, .invalid)
      else if flags = blockFree then (s, .invalid)
      else
        let s := { s with allocatedBytes := s.allocatedBytes - orderSize cfg o }
        (mergeAndFree cfg (setWord s hdr (.header o blockFree)) off o, .ok)
    | .link _ | .user _ => (s, .invalid)

/-- The orders of which a block fits, from a block of the size `blk` on. -/
def orderLoop (total : Nat) : Nat → Nat → Nat → Nat
  | 0, m, _ => m
  | fuel + 1, m, blk =>
    if blk ≤ total then
      if (2 ^ 64 - 1) / 2 < blk then m + 1 else orderLoop total fuel (m + 1) (blk * 2)
    else m

def State.none : State where
  hasBase := false
  total := 0
  maxOrder := 0
  allocatedBytes := 0
  freeMask := 0
  blockTags _ := tagNone
  freeLists _ := .none
  mem _ := .user 0

/-- The end of `__impl_init_memory`, for the bytes that are left for blocks. -/
def State.ofTotal (total : Nat) : State :=
  if total < cfg.min then State.none
  else
    let maxOrder := orderLoop total cfg.mx 0 cfg.min
    let s : State := { State.none with hasBase := true, total := total, maxOrder := maxOrder }
    tagSetFree cfg (maskSet (setWord (setHead s (maxOrder - 1) (some 0)) 0 (.link .none))
      (maxOrder - 1)) 0 (maxOrder - 1)

/-- A region of `len` bytes at `ptr`, with its tags in a buffer of their own or in front
of the blocks. -/
def State.init (ptr len : Nat) (extTags : Bool) : State :=
  let adjust := (ptr + 7) / 8 * 8 - ptr
  if len ≤ adjust then State.none
  else
    let usable := len - adjust
    if extTags then State.ofTotal cfg (usable / cfg.min * cfg.min)
    else
      let approxTags := (usable + cfg.min) / (cfg.min + 1)
      let tagArea := (approxTags + cfg.min - 1) / cfg.min * cfg.min
      if usable ≤ tagArea then State.none
      else State.ofTotal cfg ((usable - tagArea) / cfg.min * cfg.min)

end

/-!
## The blocks behind the tags, the lists and the mask

At any time the region is tiled by blocks that are free, live, or in the hand of the
operation that is running.  The lists, the mask, the tags and the headers say the same
about them.  A tag that is no longer the start of a block may stay, but never one that
says free.
-/

open Micron.Lib

variable {cfg : Config}

def exps (cfg : Config) (blocks : Blocks) : Nat → Option Nat :=
  fun a => (blocks a).map fun b => cfg.log2Min + b.1

def blockSize (cfg : Config) (o : Nat) : Nat := 2 ^ (cfg.log2Min + o)

def topExp (cfg : Config) (s : State) : Nat := cfg.log2Min + (s.maxOrder - 1)

def links (s : State) : Nat → Option Nat := fun a => (s.mem a).next

structure Shape (cfg : Config) (s : State) (blocks : Blocks) (lists : Nat → List Nat)
    (live : List (Nat × Nat)) : Prop where
  base : s.hasBase = true
  orders : 0 < s.maxOrder
  few : s.maxOrder ≤ 64
  room : 2 ^ topExp cfg s ≤ s.total
  word : s.total < 2 ^ 64
  tiling : Tiling (topExp cfg s) (exps cfg blocks)
  listed : ∀ o a, a ∈ lists o ↔ blocks a = some (o, .free)
  nodup : ∀ o, (lists o).Nodup
  lived : ∀ a o, (a, o) ∈ live ↔ blocks a = some (o, .live)
  liveNodup : live.Nodup
  noBuddies : ∀ a o, blocks a = some (o, .free) → o + 1 < s.maxOrder →
    blocks (buddy a (cfg.log2Min + o)) ≠ some (o, .free)

/-- What is stored about the blocks; `stale` is the start of a block in hand whose tag
still says free. -/
structure Stored (cfg : Config) (s : State) (blocks : Blocks) (lists : Nat → List Nat)
    (live : List (Nat × Nat)) (stale : Option Nat) : Prop where
  chain : ∀ o, Chain (links s) (s.freeLists o) (lists o)
  mask : ∀ o < 64, s.freeMask.getLsbD o = (s.freeLists o).isSome
  header : ∀ a o, blocks a = some (o, .live) → s.mem (hdrOf cfg a o) = .header o blockAlloc
  freeTag : ∀ a o, blocks a = some (o, .free) → s.blockTags (tagIndexOf cfg a) = o + 128
  liveTag : ∀ a o, blocks a = some (o, .live) → s.blockTags (tagIndexOf cfg a) = o
  tagFree : ∀ a o, o < 64 → cfg.min ∣ a → s.blockTags (tagIndexOf cfg a) = o + 128 →
    blocks a = some (o, .free) ∨ stale = some a
  used : s.allocatedBytes = (live.map fun b => blockSize cfg b.2).sum

theorem tag_or {o : Nat} (small : o < 64) : (o ||| Buddy.tagFree) % 256 = o + 128 := by
  have table : ∀ k < 64, (k ||| Buddy.tagFree) % 256 = k + 128 := by decide
  exact table o small

theorem getLsbD_maskSet (s : State) {o j : Nat} (small : o < 64) :
    (maskSet s o).freeMask.getLsbD j = (s.freeMask.getLsbD j || decide (j = o)) := by
  simp only [maskSet, BitVec.getLsbD_or, BitVec.getLsbD_shiftLeft, BitVec.getLsbD_one]
  by_cases same : j = o
  · simp [same, small]
  · rcases lt_or_ge j o with less | more
    · simp [same, less]
    · have : j - o ≠ 0 := by omega
      simp [same, this]

theorem getLsbD_maskClearIfEmpty (s : State) {o j : Nat} (small : o < 64) (smallJ : j < 64) :
    (maskClearIfEmpty s o).freeMask.getLsbD j =
      if j = o then s.freeMask.getLsbD j && (s.freeLists o).isSome else s.freeMask.getLsbD j := by
  have bit : (1#64 <<< o).getLsbD j = decide (j = o) := by
    have := getLsbD_maskSet { s with freeMask := 0#64 } small (j := j)
    simpa [maskSet] using this
  simp only [maskClearIfEmpty, BitVec.getLsbD_or, BitVec.getLsbD_and, BitVec.getLsbD_not, bit, smallJ,
    decide_true, Bool.true_and]
  by_cases same : j = o
  · cases (s.freeLists o).isSome with
    | false => simp [same]
    | true =>
      simp only [same, decide_true, Bool.not_true, Bool.and_false, Bool.and_true, Bool.false_or,
        if_true, BitVec.getLsbD_allOnes, small]
  · simp [same]

theorem exps_eq_some {blocks : Blocks} {a o : Nat} {role : Role} (isA : blocks a = some (o, role)) :
    exps cfg blocks a = some (cfg.log2Min + o) := by
  rw [exps, isA]
  rfl

theorem exps_update (blocks : Blocks) (a : Nat) (b : Option (Nat × Role)) :
    exps cfg (update blocks a b) =
      update (exps cfg blocks) a (b.map fun b => cfg.log2Min + b.1) := by
  funext c
  by_cases same : c = a
  · rw [same, exps, update_self, update_self]
  · rw [exps, update_of_ne same, update_of_ne same, exps]

variable {s : State} {blocks : Blocks} {lists : Nat → List Nat} {live : List (Nat × Nat)}

namespace Shape

theorem order_lt (shape : Shape cfg s blocks lists live) {a o : Nat} {role : Role}
    (isA : blocks a = some (o, role)) : o < s.maxOrder := by
  have le := shape.tiling.exp_le (exps_eq_some isA)
  have positive := shape.orders
  unfold topExp at le
  omega

theorem orderSize_eq (shape : Shape cfg s blocks lists live) {o : Nat} (inside : o < s.maxOrder) :
    orderSize cfg o = blockSize cfg o := by
  have le : blockSize cfg o ≤ 2 ^ topExp cfg s := by
    refine Nat.pow_le_pow_right (by decide) ?_
    unfold topExp
    omega
  have room := shape.room
  have word := shape.word
  rw [orderSize, usize, Config.min, ← pow_add]
  exact Nat.mod_eq_of_lt (by unfold blockSize at le; omega)

theorem aligned (shape : Shape cfg s blocks lists live) {a o : Nat} {role : Role}
    (isA : blocks a = some (o, role)) : cfg.min ∣ a :=
  dvd_trans (pow_dvd_pow 2 (le_add_right _ o)) (shape.tiling.aligned (exps_eq_some isA))

theorem lt_total (shape : Shape cfg s blocks lists live) {a o : Nat} {role : Role}
    (isA : blocks a = some (o, role)) : a < s.total := by
  have inside := shape.tiling.inside (exps_eq_some isA)
  have positive := Nat.two_pow_pos (cfg.log2Min + o)
  have room := shape.room
  omega

theorem eq_of_mem (shape : Shape cfg s blocks lists live) {a b o o' u : Nat} {role role' : Role}
    (isA : blocks a = some (o, role)) (isB : blocks b = some (o', role')) (lowA : a ≤ u)
    (highA : u < a + blockSize cfg o) (lowB : b ≤ u) (highB : u < b + blockSize cfg o') : a = b :=
  shape.tiling.eq_of_mem (exps_eq_some isA) (exps_eq_some isB) lowA highA lowB highB

end Shape

theorem hdrOffset_le (cfg : Config) (o : Nat) : hdrOffset ≤ blockSize cfg o :=
  le_trans cfg.large (Nat.pow_le_pow_right (by decide) (Nat.le_add_right _ o))

theorem Shape.hdr_mem (shape : Shape cfg s blocks lists live) {a o : Nat} {role : Role}
    (isA : blocks a = some (o, role)) :
    a ≤ hdrOf cfg a o ∧ hdrOf cfg a o < a + blockSize cfg o := by
  have le := hdrOffset_le cfg o
  have positive : 0 < hdrOffset := by decide
  rw [hdrOf, shape.orderSize_eq (shape.order_lt isA)]
  omega

theorem blockSize_pos (cfg : Config) (o : Nat) : 0 < blockSize cfg o := Nat.two_pow_pos _

theorem tagIndexOf_ne {a b : Nat} (alignedA : cfg.min ∣ a) (alignedB : cfg.min ∣ b) (differ : a ≠ b) :
    tagIndexOf cfg a ≠ tagIndexOf cfg b := by
  intro same
  obtain ⟨p, rfl⟩ := alignedA
  obtain ⟨q, rfl⟩ := alignedB
  unfold tagIndexOf Config.min at same
  rw [Nat.mul_div_cancel_left _ (Nat.two_pow_pos _), Nat.mul_div_cancel_left _ (Nat.two_pow_pos _)] at same
  exact differ (by rw [same])

end Micron.Buddy
