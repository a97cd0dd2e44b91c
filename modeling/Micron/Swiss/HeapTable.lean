import Mathlib.Order.Interval.Finset.Nat
import Mathlib.Data.Nat.Count
import Mathlib.Data.List.Find
import Micron.Lib.Doubling
import Micron.Swiss.Table
import Micron.Lib.Cyclic

/-!
# The heap Swiss map of `maps/heap_swiss.hpp`

The table has a power-of-two number of slots and sixteen control bytes more,
which mirror the first sixteen so that a group comparison may run past the
end.  Storage comes from an allocator that may refuse a request; `__rehash`
then restores the old table and throws.  It gives the old block back last, and
throws with the new table in place where the allocator does not take a block of
no bytes.  `__growth_left` is a `usize` and is decremented modulo `2 ^ 64`.
-/

set_option autoImplicit false

namespace Micron.Swiss

open Micron.Lib List Function

/-- What `new u8[]` and `Alloc::create` answer during one call, and whether
`Alloc::destroy` takes a block of `n` slots back without a throw: the default
allocator throws at a block of no bytes.  A request for `n` slots takes more than
`n` bytes, and no machine grants `2 ^ 60` of them. -/
structure Allocator where
  grants : Nat → Bool
  addressable : ∀ n, grants n = true → n < 2 ^ 60
  releases : Nat → Bool
  takesBack : ∀ n, 0 < n → releases n = true

/-- `alive` says that `__ctrl` and `__entries` are not null. -/
structure HeapSwissMap (K V : Type) where
  alive : Bool
  ctrl : Nat → Nat
  entries : Nat → SwissEntry K V
  nSlots : Nat
  capMask : Nat
  size : Nat
  growthLeft : Nat

def roundPow2 (n : Nat) : Nat := if n ≤ 16 then 16 else roundLoop n 64 1

section Model
variable {K V : Type}

def growthBudget (nSlots : Nat) : Nat := nSlots * 7 % wordSize / 8

def allocStorage [Inhabited K] [Inhabited V] (a : Allocator) (nSlots : Nat) :
    Option (HeapSwissMap K V) :=
  if a.grants nSlots then
    some
      { alive := true
        ctrl := fun _ => emptyByte
        entries := fun _ => ⟨default, default⟩
        nSlots := nSlots
        capMask := (nSlots + (wordSize - 1)) % wordSize
        size := 0
        growthLeft := growthBudget nSlots }
  else none

/-- `heap_swiss_map(n)`; the default constructor asks for sixteen slots. -/
def construct [Inhabited K] [Inhabited V] (a : Allocator) (n : Nat) :
    Option (HeapSwissMap K V) :=
  allocStorage a (roundPow2 n)

def mirrorCtrl (ctrl : Nat → Nat) (nSlots probe v : Nat) : Nat → Nat :=
  let written := update ctrl probe v
  if probe < groupWidth then update written (nSlots + probe) v else written

section Probe
variable (m : HeapSwissMap K V)

def HeapSwissMap.freeFrom (start : Nat) : List Nat → Option Nat
  | [] => none
  | i :: rest =>
    let g := (start + i) &&& m.capMask
    match matchEmptyOrDeleted m.ctrl g with
    | lowest :: _ => some ((g + lowest) &&& m.capMask)
    | [] => freeFrom start rest

def HeapSwissMap.store (probe tag : Nat) (key : K) (value : V) : HeapSwissMap K V :=
  { m with
    entries := update m.entries probe ⟨key, value⟩
    ctrl := mirrorCtrl m.ctrl m.nSlots probe tag
    size := m.size + 1
    growthLeft := (m.growthLeft + (wordSize - 1)) % wordSize }

def HeapSwissMap.probeInsert (key : K) (value : V) (tag start : Nat) :
    HeapSwissMap K V × Option V :=
  match m.freeFrom start (groupOffsets m.nSlots) with
  | some probe => (m.store probe tag key value, some value)
  | none => (m, none)

/-- The probe loop of `__probe_find` and `erase`. -/
def HeapSwissMap.locateFrom [DecidableEq K] (tag : Nat) (key : K) (start : Nat) :
    List Nat → Option Nat
  | [] => none
  | i :: rest =>
    let g := (start + i) &&& m.capMask
    match (matchByte m.ctrl tag g).find?
        fun j => decide ((m.entries ((g + j) &&& m.capMask)).key = key) with
    | some j => some ((g + j) &&& m.capMask)
    | none => if matchEmpty m.ctrl g = [] then locateFrom tag key start rest else none

def HeapSwissMap.locate [DecidableEq K] (hash : K → UInt64) (key : K) : Option Nat :=
  m.locateFrom (h2 (hash key)) key (h1 (hash key) &&& m.capMask) (groupOffsets m.nSlots)

def HeapSwissMap.find [DecidableEq K] (hash : K → UInt64) (key : K) : Option V :=
  (m.locate hash key).map fun slot => (m.entries slot).value

end Probe

section Operations
variable (hash : K → UInt64) (a : Allocator) (m : HeapSwissMap K V)

def reinsert (old table : HeapSwissMap K V) (i : Nat) : HeapSwissMap K V :=
  if occupiedByte (old.ctrl i) then
    let kh := hash (old.entries i).key
    (table.probeInsert (old.entries i).key (old.entries i).value (h2 kh)
      (h1 kh &&& table.capMask)).1
  else table

/-- `Alloc::destroy` of the entries, if there are any, returns. -/
def HeapSwissMap.freesEntries : Bool := !m.alive || a.releases m.nSlots

variable [Inhabited K] [Inhabited V]

/-- The table that `__rehash` leaves, and whether it returns: the old one if the
allocation is refused, the new one if the old block is not taken back. -/
def HeapSwissMap.rehash (newSlots : Nat) : HeapSwissMap K V × Bool :=
  match allocStorage a newSlots with
  | none => (m, false)
  | some fresh => ((List.range m.nSlots).foldl (reinsert hash m) fresh, m.freesEntries a)

/-- `if ( __growth_left == 0 ) __rehash(__n_slots * 2)`. -/
def HeapSwissMap.makeRoom : HeapSwissMap K V × Bool :=
  if m.growthLeft = 0 then m.rehash hash a (m.nSlots * 2 % wordSize) else (m, true)

variable [DecidableEq K]

/-- The common tail of the three inserts for a key that is not stored. -/
def HeapSwissMap.insertNew (key : K) (value : V) :
    HeapSwissMap K V × Option (Bool × Option V) :=
  let stored := m.probeInsert key value (h2 (hash key)) (h1 (hash key) &&& m.capMask)
  (stored.1, some (true, stored.2))

def HeapSwissMap.insert (key : K) (value : V) : HeapSwissMap K V × Option (Bool × Option V) :=
  match m.makeRoom hash a with
  | (m, false) => (m, none)
  | (m, true) =>
    match m.find hash key with
    | some ex => (m, some (false, some ex))
    | none => m.insertNew hash key value

def HeapSwissMap.emplace (key : K) (value : V) : HeapSwissMap K V × Option (Bool × Option V) :=
  m.insert hash a key value

def HeapSwissMap.insertOrAssign (key : K) (value : V) :
    HeapSwissMap K V × Option (Bool × Option V) :=
  match m.makeRoom hash a with
  | (m, false) => (m, none)
  | (m, true) =>
    match m.locate hash key with
    | some slot =>
      ({ m with entries := update m.entries slot ⟨(m.entries slot).key, value⟩ },
        some (false, some value))
    | none => m.insertNew hash key value

omit [Inhabited K] [Inhabited V] in
def HeapSwissMap.erase (key : K) : HeapSwissMap K V × Bool :=
  match m.locate hash key with
  | some probe =>
    ({ m with ctrl := mirrorCtrl m.ctrl m.nSlots probe deletedByte, size := m.size - 1 }, true)
  | none => (m, false)

omit [DecidableEq K] in
/-- `false` is the throw. -/
def HeapSwissMap.reserve (n : Nat) : HeapSwissMap K V × Bool :=
  if m.nSlots < roundPow2 n then m.rehash hash a (roundPow2 n) else (m, true)

end Operations

def HeapSwissMap.clear (m : HeapSwissMap K V) : HeapSwissMap K V :=
  { m with ctrl := fun _ => emptyByte, size := 0, growthLeft := growthBudget m.nSlots }

end Model

inductive HeapOp (K V : Type) where
  | insert (key : K) (value : V)
  | insertOrAssign (key : K) (value : V)
  | emplace (key : K) (value : V)
  | erase (key : K)
  | reserve (n : Nat)
  | clear

/-- One call with the pair it reports, or `none` when it throws.  `erase`
reports its flag; `reserve` and `clear` return nothing. -/
def HeapSwissMap.call {K V : Type} [DecidableEq K] [Inhabited K] [Inhabited V]
    (hash : K → UInt64) (a : Allocator) (m : HeapSwissMap K V) :
    HeapOp K V → HeapSwissMap K V × Option (Bool × Option V)
  | .insert key value => m.insert hash a key value
  | .insertOrAssign key value => m.insertOrAssign hash a key value
  | .emplace key value => m.emplace hash a key value
  | .erase key => ((m.erase hash key).1, some ((m.erase hash key).2, none))
  | .reserve n =>
    ((m.reserve hash a n).1, if (m.reserve hash a n).2 then some (true, none) else none)
  | .clear => (m.clear, some (true, none))

/-- The slots that a call asks the allocator for, if it asks. -/
def HeapSwissMap.request {K V : Type} (m : HeapSwissMap K V) : HeapOp K V → Option Nat
  | .insert _ _ | .insertOrAssign _ _ | .emplace _ _ =>
    if m.growthLeft = 0 then some (m.nSlots * 2 % wordSize) else none
  | .reserve n => if m.nSlots < roundPow2 n then some (roundPow2 n) else none
  | .erase _ | .clear => none

def Allocator.serves (a : Allocator) : Option Nat → Bool
  | none => true
  | some n => a.grants n

end Micron.Swiss

/-!
## The probe plan and the invariant of the heap Swiss map

The mirror bytes let a group comparison that runs past the end read the bytes
of the wrapped slots, so lookups and inserts walk the plan `heapPlan`, which
comes to every slot.  `HeapInv` adds to the table invariant the mirror and the
budget: used bytes and `__growth_left` together stay within seven eighths of
the slots.
-/

namespace Micron.Swiss

open Micron.Lib

variable {K V : Type}

def heapGroup (n start i : Nat) : List Nat :=
  (List.range 16).map fun j => (start + i + j) % n

def heapPlan (n start : Nat) : List (List Nat) := (groupOffsets n).map (heapGroup n start)

theorem mem_heapPlan_lt {n start slot : Nat} (positive : 0 < n)
    (member : slot ∈ (heapPlan n start).flatten) : slot < n := by
  simp only [heapPlan, heapGroup, List.mem_flatten, List.mem_map] at member
  obtain ⟨group, ⟨i, _, rfl⟩, inGroup⟩ := member
  obtain ⟨j, _, rfl⟩ := List.mem_map.mp inGroup
  exact Nat.mod_lt _ positive

theorem mem_heapPlan {n start slot : Nat} (belowStart : start < n) (below : slot < n) :
    slot ∈ (heapPlan n start).flatten := by
  obtain ⟨d, belowD, rfl⟩ := exists_offset belowStart below
  simp only [heapPlan, heapGroup, groupOffsets, List.mem_flatten, List.mem_map]
  refine ⟨_, ⟨16 * (d / 16), ⟨d / 16, ?_, rfl⟩, rfl⟩, ?_⟩
  · rw [List.mem_range]
    omega
  · rw [List.mem_map]
    refine ⟨d % 16, List.mem_range.mpr (Nat.mod_lt _ (by decide)), ?_⟩
    rw [add_assoc, Nat.div_add_mod]

/-- A byte of a group is the byte of its wrapped slot. -/
theorem group_byte {ctrl : Nat → Nat} {n g j : Nat} (mirrored : ∀ i, i < 16 → ctrl (n + i) = ctrl i)
    (wide : 16 ≤ n) (below : g < n) (small : j < 16) : ctrl (g + j) = ctrl ((g + j) % n) := by
  by_cases inside : g + j < n
  · rw [Nat.mod_eq_of_lt inside]
  · have wrapped : (g + j) % n = g + j - n := by
      rw [Nat.mod_eq_sub_mod (by omega), Nat.mod_eq_of_lt (by omega)]
    rw [wrapped, ← mirrored (g + j - n) (by omega), Nat.add_sub_cancel' (by omega)]

section Loops
variable {m : HeapSwissMap K V} {n : Nat}

theorem find?_group (p q : Nat → Bool) (start i : Nat)
    (masked : ∀ x, x &&& m.capMask = x % n)
    (mirrored : ∀ i, i < 16 → m.ctrl (n + i) = m.ctrl i) (wide : 16 ≤ n) :
    ((matchBits m.ctrl p ((start + i) &&& m.capMask)).find?
      fun j => q (((start + i) &&& m.capMask) + j &&& m.capMask)).map
        (fun j => ((start + i) &&& m.capMask) + j &&& m.capMask) =
    (heapGroup n start i).find? fun slot => p (m.ctrl slot) && q slot := by
  rw [matchBits_find?, heapGroup, List.find?_map]
  have slots : ∀ j, (((start + i) &&& m.capMask) + j) &&& m.capMask = (start + i + j) % n := by
    intro j
    rw [masked, masked, Nat.mod_add_mod]
  have sameTest : (List.range 16).find? (fun j => p (m.ctrl (((start + i) &&& m.capMask) + j)) &&
      q (((start + i) &&& m.capMask) + j &&& m.capMask)) =
      (List.range 16).find? ((fun slot => p (m.ctrl slot) && q slot) ∘
        fun j => (start + i + j) % n) := by
    apply List.find?_congr
    intro j member
    have byte : m.ctrl ((start + i) % n + j) = m.ctrl ((start + i + j) % n) := by
      rw [group_byte mirrored wide (Nat.mod_lt _ (by omega)) (List.mem_range.mp member),
        Nat.mod_add_mod]
    simp only [Function.comp_apply, slots]
    rw [masked, byte]
  congr 1
  funext j
  exact slots j

theorem any_group (p : Nat → Bool) (start i : Nat) (masked : ∀ x, x &&& m.capMask = x % n)
    (mirrored : ∀ i, i < 16 → m.ctrl (n + i) = m.ctrl i) (wide : 16 ≤ n) :
    (matchBits m.ctrl p ((start + i) &&& m.capMask) ≠ []) ↔
      ((heapGroup n start i).any fun slot => p (m.ctrl slot)) = true := by
  rw [matchBits_any, heapGroup, List.any_map, List.any_eq_true, List.any_eq_true]
  apply exists_congr
  intro j
  apply and_congr_right
  intro member
  rw [masked, group_byte mirrored wide (Nat.mod_lt _ (by omega)) (List.mem_range.mp member),
    Nat.mod_add_mod]
  rfl

theorem heap_locateFrom_eq_search [DecidableEq K] (masked : ∀ x, x &&& m.capMask = x % n)
    (mirrored : ∀ i, i < 16 → m.ctrl (n + i) = m.ctrl i) (wide : 16 ≤ n) (tag : Nat) (key : K)
    (start : Nat) : ∀ offsets : List Nat, m.locateFrom tag key start offsets =
      search (hits m.ctrl m.entries tag key) (isEmptySlot m.ctrl)
        (offsets.map (heapGroup n start)) := by
  intro offsets
  induction offsets with
  | nil => rfl
  | cons i rest ih =>
    have group := find?_group (· == tag) (fun slot => decide ((m.entries slot).key = key))
      start i masked mirrored wide
    have anyEmpty := any_group (· == emptyByte) start i masked mirrored wide
    rw [HeapSwissMap.locateFrom, List.map_cons, search]
    change _ = match (heapGroup n start i).find? (fun slot => m.ctrl slot == tag &&
      decide ((m.entries slot).key = key)) with
      | some slot => some slot
      | none => if (heapGroup n start i).any (fun slot => m.ctrl slot == emptyByte) then none
        else search _ _ _
    rw [← group, ← ih]
    simp only [matchByte, matchEmpty]
    split
    · rename_i j found
      rw [found]
      rfl
    · rename_i missed
      rw [missed]
      by_cases used : matchBits m.ctrl (· == emptyByte) ((start + i) &&& m.capMask) = []
      · have noneEmpty := (not_congr anyEmpty).mp (not_not_intro used)
        simp only [used, if_true, noneEmpty, Option.map_none]
        rfl
      · simp only [used, if_false, anyEmpty.mp used, Option.map_none]
        rfl

theorem heap_freeFrom_eq_find? (masked : ∀ x, x &&& m.capMask = x % n)
    (mirrored : ∀ i, i < 16 → m.ctrl (n + i) = m.ctrl i) (wide : 16 ≤ n) (start : Nat) :
    ∀ offsets : List Nat, m.freeFrom start offsets =
      (offsets.map (heapGroup n start)).flatten.find? (isFreeSlot m.ctrl) := by
  intro offsets
  induction offsets with
  | nil => rfl
  | cons i rest ih =>
    have group := find?_group (fun c => c == emptyByte || c == deletedByte) (fun _ => true)
      start i masked mirrored wide
    simp only [Bool.and_true] at group
    rw [HeapSwissMap.freeFrom, List.map_cons, List.flatten_cons, List.find?_append, ← ih]
    change _ = ((heapGroup n start i).find? fun slot =>
      m.ctrl slot == emptyByte || m.ctrl slot == deletedByte).or _
    rw [← group, matchEmptyOrDeleted]
    cases matchBits m.ctrl (fun c => c == emptyByte || c == deletedByte)
        ((start + i) &&& m.capMask) with
    | nil => rfl
    | cons lowest bits => rfl

end Loops

section Mirror
variable {ctrl : Nat → Nat} {n probe v : Nat}

theorem mirrorCtrl_below {i : Nat} (below : i < n) :
    mirrorCtrl ctrl n probe v i = Function.update ctrl probe v i := by
  simp only [mirrorCtrl]
  split
  · rw [Function.update_of_ne (by omega)]
  · rfl

theorem mirrorCtrl_mirrored (mirrored : ∀ i, i < 16 → ctrl (n + i) = ctrl i) (wide : 16 ≤ n)
    (below : probe < n) (i : Nat) (small : i < 16) :
    mirrorCtrl ctrl n probe v (n + i) = mirrorCtrl ctrl n probe v i := by
  have inside : i < n := by omega
  rw [mirrorCtrl_below inside]
  simp only [mirrorCtrl]
  by_cases same : i = probe
  · subst same
    rw [if_pos (show i < groupWidth from small), Function.update_self, Function.update_self]
  · rw [Function.update_of_ne same, ← mirrored i small]
    split
    · rw [Function.update_of_ne (by omega), Function.update_of_ne (by omega)]
    · rw [Function.update_of_ne (by omega)]

end Mirror

def usedBytes (ctrl : Nat → Nat) (n : Nat) : Nat := Nat.count (fun i => ctrl i ≠ emptyByte) n

section Used
variable {ctrl : Nat → Nat} {n : Nat}

theorem usedBytes_le_of_subset {ctrl' : Nat → Nat}
    (fewer : ∀ i, i < n → ctrl' i ≠ emptyByte → ctrl i ≠ emptyByte) :
    usedBytes ctrl' n ≤ usedBytes ctrl n := by
  unfold usedBytes
  rw [Nat.count_eq_card_filter_range, Nat.count_eq_card_filter_range]
  apply Finset.card_le_card
  intro i member
  rw [Finset.mem_filter, Finset.mem_range] at member ⊢
  exact ⟨member.1, fewer i member.1 member.2⟩

theorem usedBytes_write_le {ctrl' : Nat → Nat} {probe : Nat}
    (same : ∀ i, i < n → i ≠ probe → ctrl' i = ctrl i) :
    usedBytes ctrl' n ≤ usedBytes ctrl n + 1 := by
  unfold usedBytes
  rw [Nat.count_eq_card_filter_range, Nat.count_eq_card_filter_range]
  refine le_trans (Finset.card_le_card ?_) (Finset.card_insert_le probe _)
  intro i member
  rw [Finset.mem_filter, Finset.mem_range] at member
  rw [Finset.mem_insert, Finset.mem_filter, Finset.mem_range]
  by_cases atProbe : i = probe
  · exact .inl atProbe
  · refine .inr ⟨member.1, ?_⟩
    rw [← same i member.1 atProbe]
    exact member.2

theorem usedBytes_of_vacant (vacant : ∀ i, ctrl i = emptyByte) : usedBytes ctrl n = 0 := by
  unfold usedBytes
  rw [Nat.count_eq_card_filter_range, Finset.card_eq_zero, Finset.filter_eq_empty_iff]
  intro i _ used
  exact used (vacant i)

theorem exists_empty_of_usedBytes_lt (room : usedBytes ctrl n < n) :
    ∃ i, i < n ∧ ctrl i = emptyByte := by
  by_contra full
  push Not at full
  apply ne_of_lt room
  unfold usedBytes
  rw [Nat.count_eq_card_filter_range, Finset.filter_true_of_mem, Finset.card_range]
  intro i member
  exact full i (Finset.mem_range.mp member)

theorem load_le_usedBytes (entries : Nat → SwissEntry K V) :
    load (cell ctrl entries) n ≤ usedBytes ctrl n := by
  unfold load usedBytes
  rw [Nat.count_eq_card_filter_range]
  apply Finset.card_le_card
  intro i member
  rw [Finset.mem_filter] at member ⊢
  refine ⟨member.1, ?_⟩
  intro never
  have taken := member.2
  rw [cell_isSome, never] at taken
  cases taken

end Used

/-! ## The invariant -/

structure SlotCount (n : Nat) : Prop where
  power : ∃ e, 4 ≤ e ∧ n = 2 ^ e
  small : n < 2 ^ 60

theorem SlotCount.sixteen {n : Nat} (count : SlotCount n) : 16 ≤ n ∧ n % 16 = 0 := by
  obtain ⟨e, big, rfl⟩ := count.power
  obtain ⟨d, rfl⟩ := Nat.exists_eq_add_of_le big
  rw [pow_add]
  have positive : 0 < 2 ^ d := Nat.two_pow_pos d
  omega

theorem SlotCount.positive {n : Nat} (count : SlotCount n) : 0 < n := by
  have := count.sixteen
  omega

theorem slotMask_eq {n : Nat} (positive : 0 < n) (small : n < 2 ^ 60) :
    (n + (wordSize - 1)) % wordSize = n - 1 := by
  rw [wordSize]
  omega

theorem SlotCount.growthBudget_eq {n : Nat} (count : SlotCount n) :
    growthBudget n = n * 7 / 8 := by
  have small := count.small
  rw [growthBudget, wordSize, Nat.mod_eq_of_lt (by omega)]

def keyPlan (n : Nat) (hash : K → UInt64) (k : K) : List (List Nat) :=
  heapPlan n (h1 (hash k) % n)

structure HeapInv (hash : K → UInt64) (m : HeapSwissMap K V) (M : K → Option V) : Prop where
  slots : SlotCount m.nSlots
  mask : m.capMask = m.nSlots - 1
  mirrored : ∀ i, i < 16 → m.ctrl (m.nSlots + i) = m.ctrl i
  table : TableInv m.nSlots (keyPlan m.nSlots hash) hash m.ctrl m.entries M
  budget : usedBytes m.ctrl m.nSlots + m.growthLeft ≤ m.nSlots * 7 / 8
  counted : m.size = load (cell m.ctrl m.entries) m.nSlots

section Inv
variable {hash : K → UInt64} {m : HeapSwissMap K V} {M : K → Option V}

theorem HeapInv.masked (inv : HeapInv hash m M) (x : Nat) :
    x &&& m.capMask = x % m.nSlots := by
  obtain ⟨e, _, power⟩ := inv.slots.power
  rw [inv.mask, power, and_mask_eq_mod]

theorem HeapInv.size_eq (inv : HeapInv hash m M) : m.size = keyCount M := by
  rw [inv.counted, inv.table.held.keyCount_eq]

theorem HeapInv.exists_empty (inv : HeapInv hash m M) :
    ∃ i, i < m.nSlots ∧ m.ctrl i = emptyByte := by
  apply exists_empty_of_usedBytes_lt
  have budget := inv.budget
  have sixteen := inv.slots.sixteen
  omega

theorem heapInv_of_vacant (count : SlotCount m.nSlots) (mask : m.capMask = m.nSlots - 1)
    (vacant : ∀ i, m.ctrl i = emptyByte) (none_stored : m.size = 0)
    (full : m.growthLeft = growthBudget m.nSlots) : HeapInv hash m (fun _ => none) := by
  refine ⟨count, mask, ?_, ?_, ?_, ?_⟩
  · intro i _
    rw [vacant, vacant]
  · exact tableInv_of_vacant (fun _ _ => mem_heapPlan_lt count.positive) vacant
  · rw [usedBytes_of_vacant vacant, full, count.growthBudget_eq, zero_add]
  · rw [none_stored, load_eq_zero fun i _ => cell_of_vacant vacant i]

variable [DecidableEq K]

theorem HeapInv.locate_eq (inv : HeapInv hash m M) (key : K) : m.locate hash key =
    search (hits m.ctrl m.entries (h2 (hash key)) key) (isEmptySlot m.ctrl)
      (keyPlan m.nSlots hash key) := by
  rw [HeapSwissMap.locate, inv.masked]
  exact heap_locateFrom_eq_search inv.masked inv.mirrored inv.slots.sixteen.1 ..

theorem HeapInv.locate_iff (inv : HeapInv hash m M) (key : K) (slot : Nat) :
    m.locate hash key = some slot ↔
      slot < m.nSlots ∧ ∃ v, cell m.ctrl m.entries slot = some (key, v) := by
  rw [inv.locate_eq]
  exact inv.table.search_iff key slot

theorem HeapInv.locate_none (inv : HeapInv hash m M) (key : K) :
    m.locate hash key = none ↔ M key = none := by
  rw [inv.locate_eq]
  exact inv.table.search_none key

theorem HeapInv.find_eq (inv : HeapInv hash m M) (key : K) : m.find hash key = M key := by
  rw [HeapSwissMap.find, inv.locate_eq]
  exact inv.table.lookup_eq key

omit [DecidableEq K] in
theorem HeapInv.exists_free (inv : HeapInv hash m M) (key : K) :
    ∃ probe, m.freeFrom (h1 (hash key) &&& m.capMask) (groupOffsets m.nSlots) = some probe ∧
      (keyPlan m.nSlots hash key).flatten.find? (isFreeSlot m.ctrl) = some probe := by
  have walked : m.freeFrom (h1 (hash key) &&& m.capMask) (groupOffsets m.nSlots) =
      (keyPlan m.nSlots hash key).flatten.find? (isFreeSlot m.ctrl) := by
    rw [inv.masked]
    exact heap_freeFrom_eq_find? inv.masked inv.mirrored inv.slots.sixteen.1 ..
  obtain ⟨i, below, never⟩ := inv.exists_empty
  have member : i ∈ (keyPlan m.nSlots hash key).flatten :=
    mem_heapPlan (Nat.mod_lt _ inv.slots.positive) below
  cases found : (keyPlan m.nSlots hash key).flatten.find? (isFreeSlot m.ctrl) with
  | some probe => exact ⟨probe, walked.trans found, rfl⟩
  | none =>
    have taken := List.find?_eq_none.mp found i member
    simp [isFreeSlot, never] at taken

/-- A new key takes a free slot and one unit of the growth budget. -/
theorem HeapInv.probeInsert (inv : HeapInv hash m M) {key : K} (value : V)
    (unbound : M key = none) (room : 0 < m.growthLeft) :
    ∃ m', m.probeInsert key value (h2 (hash key)) (h1 (hash key) &&& m.capMask) =
        (m', some value) ∧
      HeapInv hash m' (Function.update M key (some value)) ∧ m'.nSlots = m.nSlots ∧
      m'.growthLeft + 1 = m.growthLeft ∧ m'.size = m.size + 1 := by
  obtain ⟨probe, walked, found⟩ := inv.exists_free key
  have below := inv.table.planned key probe (List.mem_of_find?_eq_some found)
  have freeCell : cell m.ctrl m.entries probe = none := cell_of_free (List.find?_some found)
  have budget := inv.budget
  have small := inv.slots.small
  have wide := inv.slots.sixteen.1
  have lower : (m.growthLeft + (wordSize - 1)) % wordSize + 1 = m.growthLeft := by
    rw [wordSize]
    omega
  have written : ∀ i, i < m.nSlots → mirrorCtrl m.ctrl m.nSlots probe (h2 (hash key)) i =
      Function.update m.ctrl probe (h2 (hash key)) i := fun i => mirrorCtrl_below
  refine ⟨m.store probe (h2 (hash key)) key value, ?_, ?_, rfl, lower, rfl⟩
  · rw [HeapSwissMap.probeInsert, walked]
  refine ⟨inv.slots, inv.mask, ?_, ?_, ?_, ?_⟩
  · exact mirrorCtrl_mirrored inv.mirrored wide below
  · exact (inv.table.store value unbound found).congr written
  · have used : usedBytes (mirrorCtrl m.ctrl m.nSlots probe (h2 (hash key))) m.nSlots ≤
        usedBytes m.ctrl m.nSlots + 1 := by
      apply usedBytes_write_le
      intro i belowI apart
      rw [written i belowI, Function.update_of_ne apart]
    simp only [HeapSwissMap.store]
    omega
  · have sameLoad : load (cell (mirrorCtrl m.ctrl m.nSlots probe (h2 (hash key)))
        (Function.update m.entries probe ⟨key, value⟩)) m.nSlots =
        load (Function.update (cell m.ctrl m.entries) probe (some (key, value))) m.nSlots := by
      rw [← cell_store]
      apply load_congr
      intro i belowI
      rw [cell_isSome, cell_isSome, written i belowI]
    simp only [HeapSwissMap.store]
    rw [sameLoad, load_update_fill _ below freeCell, inv.counted]

theorem HeapInv.assign (inv : HeapInv hash m M) {key : K} {slot : Nat} {old : V} (value : V)
    (below : slot < m.nSlots) (at_slot : cell m.ctrl m.entries slot = some (key, old)) :
    HeapInv hash
      { m with entries := Function.update m.entries slot ⟨(m.entries slot).key, value⟩ }
      (Function.update M key (some value)) := by
  refine ⟨inv.slots, inv.mask, inv.mirrored, inv.table.assign value below at_slot,
    inv.budget, ?_⟩
  rw [cell_assign value at_slot, load_update_taken _ (by rw [at_slot]; rfl)]
  exact inv.counted

theorem HeapInv.delete (inv : HeapInv hash m M) {key : K} {slot : Nat} {v : V}
    (below : slot < m.nSlots) (at_slot : cell m.ctrl m.entries slot = some (key, v)) :
    HeapInv hash
      { m with ctrl := mirrorCtrl m.ctrl m.nSlots slot deletedByte, size := m.size - 1 }
      (Function.update M key none) := by
  have written : ∀ i, i < m.nSlots → mirrorCtrl m.ctrl m.nSlots slot deletedByte i =
      Function.update m.ctrl slot deletedByte i := fun i => mirrorCtrl_below
  have taken : m.ctrl slot ≠ emptyByte := by
    intro never
    have occupied := (cell_eq_some_iff.mp at_slot).1
    rw [never] at occupied
    cases occupied
  refine ⟨inv.slots, inv.mask, ?_, (inv.table.delete below at_slot).congr written, ?_, ?_⟩
  · exact mirrorCtrl_mirrored inv.mirrored inv.slots.sixteen.1 below
  · refine le_trans (Nat.add_le_add_right ?_ _) inv.budget
    apply usedBytes_le_of_subset
    intro i belowI used
    simp only [written i belowI] at used
    by_cases same : i = slot
    · rw [same]
      exact taken
    · rwa [Function.update_of_ne same] at used
  · have freed := load_update_free below
      (show (cell m.ctrl m.entries slot).isSome by rw [at_slot]; rfl)
    have counted := inv.counted
    have sameLoad : load (cell (mirrorCtrl m.ctrl m.nSlots slot deletedByte) m.entries)
        m.nSlots = load (Function.update (cell m.ctrl m.entries) slot none) m.nSlots := by
      rw [← cell_delete]
      apply load_congr
      intro i belowI
      rw [cell_isSome, cell_isSome, written i belowI]
    simp only [sameLoad]
    omega

end Inv

end Micron.Swiss
