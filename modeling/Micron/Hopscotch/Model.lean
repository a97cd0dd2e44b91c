import Micron.Lib.Doubling
import Micron.Lib.SlotTable
import Micron.Lib.Cyclic

/-!
# The hopscotch map of `maps/hopscotch.hpp`

The map stores 64-bit hashes, not keys; the hash zero marks a free slot.  The
template parameter `MH` stays a parameter: an entry lies in one of the
`MH + 1` slots that start at its home slot.  Storage is an `fvector`, of which
the allocator decides how much capacity a request gets.
-/

set_option autoImplicit false

namespace Micron.Hopscotch

open Micron.Lib List Function Nat

/-- The capacity an `fvector` has after a request for `n` elements, or `none`
where the allocation throws.  No machine holds `2 ^ 60` elements. -/
structure Storage where
  capacity : Nat → Option Nat
  serves : ∀ n c, capacity n = some c → n ≤ c ∧ c < 2 ^ 60

/-- The exceptions.  `depth` is not one of the source's: it marks a model run
whose recursion bound was too small. -/
inductive HopError where
  | invalidHash
  | notInitialized
  | resizeFailed
  | allocation
  | depth
  deriving DecidableEq, Repr

structure HopscotchNode (V : Type) where
  key : UInt64
  value : V

structure HopscotchMap (V : Type) where
  entries : Nat → HopscotchNode V
  entriesSize : Nat
  entriesMaxSize : Nat
  length : Nat
  bmask : Nat

def roundPow2 (n : Nat) : Nat := if n < 2 then 2 else roundLoop n 64 1

def mix (h : UInt64) : UInt64 :=
  let h := h ^^^ (h >>> 30)
  let h := h * 0xbf58476d1ce4e5b9
  let h := h ^^^ (h >>> 27)
  let h := h * 0x94d049bb133111eb
  h ^^^ (h >>> 31)

def minSize : Nat := 64
def maxDisplacement : Nat := 256
def searchLimit : Nat := 512
def maxResizeAttempts : Nat := 4

section Model
variable {V : Type}

def HopscotchMap.home (m : HopscotchMap V) (hsh : UInt64) : Nat := (mix hsh).toNat &&& m.bmask

def distance (size target slot : Nat) : Nat :=
  if target ≤ slot then slot - target else size - target + slot

/-- `for ( i = 0; i <= MH; ++i )` over the slots from `home`. -/
def HopscotchMap.windowFind (MH : Nat) (m : HopscotchMap V) (home : Nat) (p : UInt64 → Bool) :
    Option Nat :=
  ((List.range (MH + 1)).map fun i => (home + i) &&& m.bmask).find?
    fun probe => p (m.entries probe).key

section Writes
variable [Inhabited V]

def clearedNode : HopscotchNode V := ⟨0, default⟩

/-- `entries[empty] = move(entries[check]); entries[check].clear()`. -/
def HopscotchMap.moveInto (m : HopscotchMap V) (empty check : Nat) : HopscotchMap V :=
  { m with
    entries :=
      update (update m.entries empty (m.entries check)) check clearedNode }

/-- The slot that round `i` of the inner loop of `find_closer_slot` looks at. -/
def checkPos (m : HopscotchMap V) (currentEmpty i : Nat) : Nat :=
  (currentEmpty + (m.bmask + 1) - i - 1) &&& m.bmask

/-- The slot holds an entry whose window reaches `currentEmpty`. -/
def movable (MH : Nat) (m : HopscotchMap V) (currentEmpty i : Nat) : Bool :=
  let key := (m.entries (checkPos m currentEmpty i)).key
  key != 0 && decide (distance (m.bmask + 1) (m.home key) currentEmpty ≤ MH)

/-- The displacement loop: each attempt moves an entry into the empty slot and
goes on from the slot it left. -/
def HopscotchMap.hop (MH : Nat) (target : Nat) :
    Nat → HopscotchMap V → Nat → HopscotchMap V × Option Nat
  | 0, m, _ => (m, none)
  | attempts + 1, m, currentEmpty =>
    match (List.range MH).find? (movable MH m currentEmpty) with
    | none => (m, none)
    | some i =>
      let check := checkPos m currentEmpty i
      let moved := m.moveInto currentEmpty check
      if distance (m.bmask + 1) target check ≤ MH then (moved, some check)
      else moved.hop MH target attempts check

def HopscotchMap.findCloserSlot (MH : Nat) (m : HopscotchMap V) (target emptySlot : Nat) :
    HopscotchMap V × Option Nat :=
  if m.bmask = 0 then (m, none)
  else if distance (m.bmask + 1) target emptySlot ≤ MH then (m, some emptySlot)
  else m.hop MH target maxDisplacement emptySlot

/-- `entries[slot] = Nd{ hsh, value }; ++length`. -/
def HopscotchMap.put (m : HopscotchMap V) (slot : Nat) (hsh : UInt64) (value : V) :
    HopscotchMap V :=
  { m with entries := update m.entries slot ⟨hsh, value⟩, length := m.length + 1 }

/-- The part of `insert_unhash` and `insert_asis` after the scan for the hash:
the first free slot of the window, or a free slot further on that can be
brought closer. -/
def HopscotchMap.placeNear (MH : Nat) (m : HopscotchMap V) (hsh : UInt64) (value : V) :
    HopscotchMap V × Bool :=
  let home := m.home hsh
  match m.windowFind MH home (· == 0) with
  | some probe => (m.put probe hsh value, true)
  | none =>
    let emptySlot := (home + MH + 1) &&& m.bmask
    match ((List.range searchLimit).map fun i => (emptySlot + i) &&& m.bmask).find?
        fun check => (m.entries check).key == 0 with
    | none => (m, false)
    | some check =>
      match m.findCloserSlot MH home check with
      | (m, some slot) => (m.put slot hsh value, true)
      | (m, none) => (m, false)

def HopscotchMap.insertUnhash (MH : Nat) (m : HopscotchMap V) (hsh : UInt64) (value : V) :
    HopscotchMap V × Bool :=
  if hsh = 0 then (m, false)
  else if m.bmask = 0 then (m, false)
  else
    match m.windowFind MH (m.home hsh) (· == hsh) with
    | some _ => (m, true)
    | none => m.placeNear MH hsh value

/-- The loop over the old entries in `resize`; `none` is `success = false`. -/
def refill (MH : Nat) (old : HopscotchMap V) : List Nat → HopscotchMap V → Option (HopscotchMap V)
  | [], m => some m
  | i :: rest, m =>
    if (old.entries i).key = 0 then refill MH old rest m
    else
      match m.insertUnhash MH (old.entries i).key (old.entries i).value with
      | (m, true) => refill MH old rest m
      | (_, false) => none

def blank (size maxSize : Nat) : HopscotchMap V where
  entries := fun _ => clearedNode
  entriesSize := size
  entriesMaxSize := maxSize
  length := 0
  bmask := size - 1

/-- `entries.resize(new_size)` and the second resize to the rounded capacity. -/
def allocate (storage : Storage) (newSize : Nat) : Except HopError (HopscotchMap V) :=
  match storage.capacity newSize with
  | none => .error .allocation
  | some maxSize =>
    let target := roundPow2 maxSize
    if newSize < target then
      match storage.capacity target with
      | none => .error .allocation
      | some maxSize => .ok (blank target maxSize)
    else .ok (blank newSize maxSize)

def resizeLoop (MH : Nat) (storage : Storage) (old : HopscotchMap V) :
    Nat → Nat → Except HopError (HopscotchMap V)
  | 0, _ => .error .resizeFailed
  | attempts + 1, newSize =>
    match allocate storage newSize with
    | .error e => .error e
    | .ok fresh =>
      match refill MH old (List.range old.entriesSize) fresh with
      | some m => .ok m
      | none => resizeLoop MH storage old attempts (fresh.entriesSize * 2)

def HopscotchMap.resize (MH : Nat) (storage : Storage) (m : HopscotchMap V) :
    Except HopError (HopscotchMap V) :=
  let newSize := roundPow2 (m.entriesSize * 2)
  resizeLoop MH storage m maxResizeAttempts (if newSize < minSize then minSize else newSize)

/-- `if ( length >= ( __bmask + 1u ) * 3 / 4 ) resize()`. -/
def HopscotchMap.relieve (MH : Nat) (storage : Storage) (m : HopscotchMap V) :
    Except HopError (HopscotchMap V) :=
  if (m.bmask + 1) * 3 / 4 ≤ m.length then m.resize MH storage else .ok m

/-- `insert_asis` with the value its result points to.  It calls itself after a
resize; the depth is bounded. -/
def HopscotchMap.insertFuel (MH : Nat) (storage : Storage) (hsh : UInt64) (value : V) :
    Nat → HopscotchMap V → Except HopError (HopscotchMap V × V)
  | 0, _ => .error .depth
  | depth + 1, m =>
    if hsh = 0 then .error .invalidHash
    else if m.entriesMaxSize = 0 then .error .notInitialized
    else
      match m.relieve MH storage with
      | .error e => .error e
      | .ok m =>
        match m.windowFind MH (m.home hsh) (· == hsh) with
        | some probe => .ok (m, (m.entries probe).value)
        | none =>
          match m.placeNear MH hsh value with
          | (m, true) => .ok (m, value)
          | (m, false) =>
            match m.resize MH storage with
            | .error e => .error e
            | .ok m => m.insertFuel MH storage hsh value depth

/-- Sizes double from call to call, so sixty-four calls are enough. -/
def HopscotchMap.insertAsis (MH : Nat) (storage : Storage) (m : HopscotchMap V) (hsh : UInt64)
    (value : V) : Except HopError (HopscotchMap V × V) :=
  m.insertFuel MH storage hsh value 64

def HopscotchMap.insert {K : Type} (MH : Nat) (hash : K → UInt64) (storage : Storage)
    (m : HopscotchMap V) (k : K) (value : V) : Except HopError (HopscotchMap V × V) :=
  m.insertAsis MH storage (hash k) value

end Writes

/-! ## The unrolled probe of `find` and `erase` -/

/-- The set bits of `hits` in the group at offset `i`. -/
def HopscotchMap.groupHits (m : HopscotchMap V) (hsh : UInt64) (home i : Nat) : List Nat :=
  [0, 1, 2, 3].filter fun b => (m.entries ((home + i + b) &&& m.bmask)).key == hsh

/-- The groups of four: `__builtin_ctz(hits)` is the head of the set bits. -/
def HopscotchMap.probeGroups (m : HopscotchMap V) (hsh : UInt64) (home : Nat) :
    List Nat → Option Nat
  | [] => none
  | i :: rest =>
    match m.groupHits hsh home i with
    | b :: _ => some ((home + i + b) &&& m.bmask)
    | [] => probeGroups m hsh home rest

def HopscotchMap.locate (MH : Nat) (m : HopscotchMap V) (hsh : UInt64) : Option Nat :=
  if hsh = 0 then none
  else if m.bmask = 0 then none
  else
    let home := m.home hsh
    let slots := MH + 1
    let head := slots - slots % 4
    match m.probeGroups hsh home ((List.range (head / 4)).map fun g => 4 * g) with
    | some probe => some probe
    | none =>
      ((List.range (slots - head)).map fun i => (home + (head + i)) &&& m.bmask).find?
        fun probe => (m.entries probe).key == hsh

def HopscotchMap.find {K : Type} (MH : Nat) (hash : K → UInt64) (m : HopscotchMap V) (k : K) :
    Option V :=
  (m.locate MH (hash k)).map fun probe => (m.entries probe).value

variable [Inhabited V]

def HopscotchMap.erase {K : Type} (MH : Nat) (hash : K → UInt64) (m : HopscotchMap V) (k : K) :
    HopscotchMap V × Bool :=
  match m.locate MH (hash k) with
  | some probe =>
    ({ m with
        entries := update m.entries probe clearedNode
        length := m.length - 1 }, true)
  | none => (m, false)

def HopscotchMap.clear (m : HopscotchMap V) : HopscotchMap V :=
  if m.bmask = 0 then m
  else
    { m with
      entries := fun i => if i < m.bmask + 1 then clearedNode else m.entries i
      length := 0 }

/-- `hopscotch_map(n)` with `sizeof(Nd) = nodeBytes`. -/
def construct (storage : Storage) (nodeBytes n : Nat) : Except HopError (HopscotchMap V) :=
  let initialSize := n / nodeBytes
  allocate storage (roundPow2 (if initialSize < minSize then minSize else initialSize))

end Model

inductive HopOp (K V : Type) where
  | insert (k : K) (value : V)
  | insertAsis (hsh : UInt64) (value : V)
  | erase (k : K)
  | clear

section Runs
variable {K V : Type} [Inhabited V]

def HopscotchMap.call (MH : Nat) (hash : K → UInt64) (storage : Storage) (m : HopscotchMap V) :
    HopOp K V → Except HopError (HopscotchMap V)
  | .insert k value => (m.insert MH hash storage k value).map Prod.fst
  | .insertAsis hsh value => (m.insertAsis MH storage hsh value).map Prod.fst
  | .erase k => .ok (m.erase MH hash k).1
  | .clear => .ok m.clear

def HopscotchMap.run (MH : Nat) (hash : K → UInt64) :
    HopscotchMap V → List (Storage × HopOp K V) → Except HopError (HopscotchMap V)
  | m, [] => .ok m
  | m, (storage, op) :: rest =>
    match m.call MH hash storage op with
    | .error e => .error e
    | .ok m => m.run MH hash rest

end Runs

/-!
## The neighbourhood invariant

`HopInv MH m M` says that the table holds the finite map `M` over hashes, that
every stored hash lies in its window, and that `length` counts the stored
hashes.  Displacement moves an entry inside its own window and changes nothing
of `M`, whether or not it reaches the target.
-/

variable {V : Type}

def cell (m : HopscotchMap V) (i : Nat) : Option (UInt64 × V) :=
  if (m.entries i).key = 0 then none else some ((m.entries i).key, (m.entries i).value)

structure HopInv (MH : Nat) (m : HopscotchMap V) (M : UInt64 → Option V) : Prop where
  power : ∃ e, 1 ≤ e ∧ e ≤ 60 ∧ m.bmask + 1 = 2 ^ e
  sized : m.entriesSize = m.bmask + 1
  initialized : 0 < m.entriesMaxSize
  near : ∀ i, i < m.bmask + 1 → (m.entries i).key ≠ 0 →
    ∃ j, j ≤ MH ∧ (m.home (m.entries i).key + j) % (m.bmask + 1) = i
  held : Holds (cell m) (m.bmask + 1) M
  counted : m.length = load (cell m) (m.bmask + 1)

section Cells
variable {m : HopscotchMap V}

theorem cell_eq_some_iff {i : Nat} {k : UInt64} {v : V} : cell m i = some (k, v) ↔
    k ≠ 0 ∧ (m.entries i).key = k ∧ (m.entries i).value = v := by
  unfold cell
  split
  · rename_i free
    simp only [free]
    constructor
    · intro impossible
      cases impossible
    · intro stored
      exact absurd stored.2.1.symm stored.1
  · rename_i taken
    simp only [Option.some.injEq, Prod.mk.injEq]
    constructor
    · intro stored
      exact ⟨stored.1 ▸ taken, stored⟩
    · intro stored
      exact stored.2

theorem cell_eq_none_iff {i : Nat} : cell m i = none ↔ (m.entries i).key = 0 := by
  unfold cell
  split <;> simp [*]

theorem cell_put {slot : Nat} {hsh : UInt64} (value : V) (nonzero : hsh ≠ 0) :
    cell (m.put slot hsh value) = update (cell m) slot (some (hsh, value)) := by
  funext i
  by_cases same : i = slot
  · subst same
    simp [cell, HopscotchMap.put, nonzero]
  · simp [cell, HopscotchMap.put, update_of_ne same]

theorem cell_moveInto [Inhabited V] {empty check : Nat} (apart : empty ≠ check) :
    cell (m.moveInto empty check) =
      update (update (cell m) empty (cell m check)) check none := by
  funext i
  by_cases atCheck : i = check
  · subst atCheck
    simp [cell, HopscotchMap.moveInto, clearedNode]
  · by_cases atEmpty : i = empty
    · subst atEmpty
      simp [cell, HopscotchMap.moveInto, update_of_ne apart]
    · simp [cell, HopscotchMap.moveInto, update_of_ne atCheck,
        update_of_ne atEmpty]

end Cells

theorem distance_reaches {size target slot : Nat} (belowTarget : target < size)
    (below : slot < size) : (target + distance size target slot) % size = slot := by
  unfold distance
  split
  · rename_i order
    rw [Nat.add_sub_cancel' order, Nat.mod_eq_of_lt below]
  · have total : target + (size - target + slot) = slot + size := by omega
    rw [total, add_mod_right, mod_eq_of_lt below]

section Window
variable {MH : Nat} {m : HopscotchMap V} {M : UInt64 → Option V}

theorem HopInv.masked (inv : HopInv MH m M) (x : Nat) : x &&& m.bmask = x % (m.bmask + 1) := by
  obtain ⟨e, _, _, power⟩ := inv.power
  have mask : m.bmask = 2 ^ e - 1 := by omega
  rw [power, mask, and_mask_eq_mod]

theorem HopInv.home_lt (inv : HopInv MH m M) (hsh : UInt64) : m.home hsh < m.bmask + 1 := by
  rw [HopscotchMap.home, inv.masked]
  exact mod_lt _ (succ_pos _)

theorem HopInv.bmask_ne_zero (inv : HopInv MH m M) : m.bmask ≠ 0 := by
  obtain ⟨e, big, _, power⟩ := inv.power
  have two := two_le_two_pow big
  omega

theorem HopInv.windowFind_some (inv : HopInv MH m M) {home probe : Nat} {p : UInt64 → Bool}
    (found : m.windowFind MH home p = some probe) :
    p (m.entries probe).key = true ∧ probe < m.bmask + 1 ∧
      ∃ j, j ≤ MH ∧ (home + j) % (m.bmask + 1) = probe := by
  have accepted := find?_some found
  obtain ⟨j, inWindow, eq⟩ := mem_map.mp (mem_of_find?_eq_some found)
  rw [inv.masked] at eq
  refine ⟨accepted, ?_, j, Nat.lt_succ_iff.mp (mem_range.mp inWindow), eq⟩
  rw [← eq]
  exact mod_lt _ (succ_pos _)

theorem HopInv.windowFind_none (inv : HopInv MH m M) {home : Nat} {p : UInt64 → Bool}
    (missed : m.windowFind MH home p = none) {j : Nat} (inWindow : j ≤ MH) :
    p (m.entries ((home + j) % (m.bmask + 1))).key = false := by
  rw [← inv.masked]
  apply Bool.eq_false_iff.mpr
  apply find?_eq_none.mp missed
  exact mem_map.mpr ⟨j, mem_range.mpr (lt_succ_of_le inWindow), rfl⟩

/-- A hash that no slot of its window holds is not stored. -/
theorem HopInv.unbound_of_window (inv : HopInv MH m M) {hsh : UInt64}
    (absent : ∀ j, j ≤ MH → (m.entries ((m.home hsh + j) % (m.bmask + 1))).key ≠ hsh) :
    M hsh = none := by
  apply inv.held.eq_none
  intro i v below at_i
  obtain ⟨nonzero, key, _⟩ := cell_eq_some_iff.mp at_i
  obtain ⟨j, inWindow, reaches⟩ := inv.near i below (by rw [key]; exact nonzero)
  rw [key] at reaches
  apply absent j inWindow
  rw [reaches, key]

theorem HopInv.windowFind_hash (inv : HopInv MH m M) {hsh : UInt64} (nonzero : hsh ≠ 0) :
    (∃ probe v, m.windowFind MH (m.home hsh) (· == hsh) = some probe ∧
        (m.entries probe).value = v ∧ M hsh = some v) ∨
      (m.windowFind MH (m.home hsh) (· == hsh) = none ∧ M hsh = none) := by
  cases found : m.windowFind MH (m.home hsh) (· == hsh) with
  | some probe =>
    obtain ⟨same, below, _⟩ := inv.windowFind_some found
    rw [beq_iff_eq] at same
    refine .inl ⟨probe, _, rfl, rfl, ?_⟩
    exact inv.held.sound probe hsh _ below (cell_eq_some_iff.mpr ⟨nonzero, same, rfl⟩)
  | none =>
    refine .inr ⟨rfl, inv.unbound_of_window ?_⟩
    intro j inWindow
    have missed := inv.windowFind_none found inWindow
    simpa using missed

end Window

section Writes
variable {MH : Nat} {m : HopscotchMap V} {M : UInt64 → Option V}

theorem HopInv.put (inv : HopInv MH m M) {slot : Nat} {hsh : UInt64} (value : V)
    (nonzero : hsh ≠ 0) (unbound : M hsh = none) (below : slot < m.bmask + 1)
    (free : (m.entries slot).key = 0)
    (window : ∃ j, j ≤ MH ∧ (m.home hsh + j) % (m.bmask + 1) = slot) :
    HopInv MH (m.put slot hsh value) (update M hsh (some value)) := by
  have freeCell : cell m slot = none := cell_eq_none_iff.mpr free
  refine ⟨inv.power, inv.sized, inv.initialized, ?_, ?_, ?_⟩
  · intro i belowI taken
    by_cases same : i = slot
    · subst same
      simpa [HopscotchMap.put, HopscotchMap.home] using window
    · simp only [HopscotchMap.put, update_of_ne same] at taken ⊢
      exact inv.near i belowI taken
  · rw [cell_put value nonzero]
    exact inv.held.insert value below freeCell unbound
  · rw [cell_put value nonzero]
    have filled := load_update_fill (hsh, value) below freeCell
    simp only [HopscotchMap.put]
    rw [filled, inv.counted]

variable [Inhabited V]

theorem HopInv.moveInto (inv : HopInv MH m M) {empty check : Nat} (belowEmpty : empty < m.bmask + 1)
    (belowCheck : check < m.bmask + 1) (free : (m.entries empty).key = 0)
    (taken : (m.entries check).key ≠ 0)
    (reaches : distance (m.bmask + 1) (m.home (m.entries check).key) empty ≤ MH) :
    HopInv MH (m.moveInto empty check) M := by
  have apart : empty ≠ check := by
    intro same
    rw [same] at free
    exact taken free
  have freeCell : cell m empty = none := cell_eq_none_iff.mpr free
  have at_check : cell m check = some ((m.entries check).key, (m.entries check).value) :=
    cell_eq_some_iff.mpr ⟨taken, rfl, rfl⟩
  have cells := cell_moveInto (m := m) apart
  rw [at_check] at cells
  refine ⟨inv.power, inv.sized, inv.initialized, ?_, ?_, ?_⟩
  · intro i below takenI
    by_cases atCheck : i = check
    · subst atCheck
      simp [HopscotchMap.moveInto, clearedNode] at takenI
    · by_cases atEmpty : i = empty
      · subst atEmpty
        refine ⟨_, reaches, ?_⟩
        simp only [HopscotchMap.moveInto, update_of_ne atCheck, update_self]
        exact distance_reaches (inv.home_lt _) belowEmpty
      · simp only [HopscotchMap.moveInto, update_of_ne atCheck,
          update_of_ne atEmpty] at takenI ⊢
        exact inv.near i below takenI
  · rw [cells]
    exact inv.held.move belowEmpty belowCheck freeCell at_check
  · rw [cells]
    have filled := load_update_fill ((m.entries check).key, (m.entries check).value) belowEmpty
      freeCell
    have stays : (update (cell m) empty
        (some ((m.entries check).key, (m.entries check).value)) check).isSome := by
      rw [update_of_ne apart.symm, at_check]
      rfl
    have freed := load_update_free belowCheck stays
    have counted := inv.counted
    simp only [HopscotchMap.moveInto]
    omega

omit [Inhabited V] in
theorem HopInv.checkPos_lt (inv : HopInv MH m M) (currentEmpty i : Nat) :
    checkPos m currentEmpty i < m.bmask + 1 := by
  rw [checkPos, inv.masked]
  exact mod_lt _ (succ_pos _)

/-- The displacement loop keeps the map and, when it succeeds, leaves a free
slot near the target. -/
theorem HopInv.hop (target : Nat) : ∀ (attempts : Nat) {m : HopscotchMap V} (_ : HopInv MH m M)
    {empty : Nat}, empty < m.bmask + 1 → (m.entries empty).key = 0 →
    HopInv MH (m.hop MH target attempts empty).1 M ∧
      (m.hop MH target attempts empty).1.bmask = m.bmask ∧
      ∀ slot, (m.hop MH target attempts empty).2 = some slot →
        slot < m.bmask + 1 ∧ ((m.hop MH target attempts empty).1.entries slot).key = 0 ∧
          distance (m.bmask + 1) target slot ≤ MH := by
  intro attempts
  induction attempts with
  | zero =>
    intro m inv empty below free
    refine ⟨inv, rfl, ?_⟩
    intro slot found
    cases found
  | succ attempts ih =>
    intro m inv empty below free
    rw [HopscotchMap.hop]
    cases found : (List.range MH).find? (movable MH m empty) with
    | none =>
      refine ⟨inv, rfl, ?_⟩
      intro slot impossible
      cases impossible
    | some i =>
      have moves := find?_some found
      simp only [movable, Bool.and_eq_true, bne_iff_ne, decide_eq_true_eq] at moves
      have belowCheck := inv.checkPos_lt empty i
      have moved := inv.moveInto below belowCheck free moves.1 moves.2
      have freed : ((m.moveInto empty (checkPos m empty i)).entries
          (checkPos m empty i)).key = 0 := by
        simp [HopscotchMap.moveInto, clearedNode]
      simp only
      by_cases close : distance (m.bmask + 1) target (checkPos m empty i) ≤ MH
      · rw [if_pos close]
        refine ⟨moved, rfl, ?_⟩
        intro slot same
        cases same
        exact ⟨belowCheck, freed, close⟩
      · rw [if_neg close]
        exact ih moved belowCheck freed

theorem HopInv.findCloserSlot (inv : HopInv MH m M) (target : Nat) {empty : Nat}
    (below : empty < m.bmask + 1) (free : (m.entries empty).key = 0) :
    HopInv MH (m.findCloserSlot MH target empty).1 M ∧
      (m.findCloserSlot MH target empty).1.bmask = m.bmask ∧
      ∀ slot, (m.findCloserSlot MH target empty).2 = some slot →
        slot < m.bmask + 1 ∧ ((m.findCloserSlot MH target empty).1.entries slot).key = 0 ∧
          distance (m.bmask + 1) target slot ≤ MH := by
  unfold HopscotchMap.findCloserSlot
  rw [if_neg inv.bmask_ne_zero]
  split
  · rename_i close
    refine ⟨inv, rfl, ?_⟩
    intro slot same
    cases same
    exact ⟨below, free, close⟩
  · exact HopInv.hop target maxDisplacement inv below free

/-- A hash that is not stored is placed, or the table keeps its map. -/
theorem HopInv.placeNear (inv : HopInv MH m M) {hsh : UInt64} (value : V) (nonzero : hsh ≠ 0)
    (unbound : M hsh = none) :
    (m.placeNear MH hsh value).1.bmask = m.bmask ∧
      (((m.placeNear MH hsh value).2 = true ∧
          HopInv MH (m.placeNear MH hsh value).1 (update M hsh (some value))) ∨
        ((m.placeNear MH hsh value).2 = false ∧ HopInv MH (m.placeNear MH hsh value).1 M)) := by
  unfold HopscotchMap.placeNear
  simp only
  cases window : m.windowFind MH (m.home hsh) (· == 0) with
  | some probe =>
    obtain ⟨free, below, reaches⟩ := inv.windowFind_some window
    rw [beq_iff_eq] at free
    exact ⟨rfl, .inl ⟨rfl, inv.put value nonzero unbound below free reaches⟩⟩
  | none =>
    cases found : ((List.range searchLimit).map fun i =>
        ((m.home hsh + MH + 1) &&& m.bmask) + i &&& m.bmask).find?
        fun check => (m.entries check).key == 0 with
    | none => exact ⟨rfl, .inr ⟨rfl, inv⟩⟩
    | some check =>
      have free := find?_some found
      rw [beq_iff_eq] at free
      have below : check < m.bmask + 1 := by
        obtain ⟨i, _, eq⟩ := mem_map.mp (mem_of_find?_eq_some found)
        rw [← eq, inv.masked]
        exact mod_lt _ (succ_pos _)
      obtain ⟨inv', mask', closer⟩ := inv.findCloserSlot (m.home hsh) below free
      simp only
      generalize m.findCloserSlot MH (m.home hsh) check = result at inv' mask' closer
      obtain ⟨m', slot⟩ := result
      cases slot with
      | none => exact ⟨mask', .inr ⟨rfl, inv'⟩⟩
      | some slot =>
        obtain ⟨belowSlot, freeSlot, close⟩ := closer slot rfl
        simp only at inv' mask' freeSlot
        have sameHome : m'.home hsh = m.home hsh := by
          simp only [HopscotchMap.home, mask']
        refine ⟨mask', .inl ⟨rfl, ?_⟩⟩
        refine inv'.put value nonzero unbound (by rw [mask']; exact belowSlot) freeSlot
          ⟨_, close, ?_⟩
        rw [sameHome, mask']
        exact distance_reaches (inv.home_lt hsh) belowSlot

end Writes

end Micron.Hopscotch
