import Micron.Swiss.HeapRefinement

/-!
# Copies of the heap Swiss map

The copy constructor and the copy assignment leave out `DELETED` control
bytes: what was a tombstone in the source is `EMPTY` in the copy, where it
ends the lookups that had to go past it.  The copy agrees with its source,
now and after all later calls, exactly when no stored key lies behind a
tombstone on its own probe path.
-/

set_option autoImplicit false

namespace Micron.Swiss

open Micron.Lib List Function Option

variable {K V : Type}

def copySlot (o table : HeapSwissMap K V) (i : Nat) : HeapSwissMap K V :=
  if occupiedByte (o.ctrl i) then
    { table with
      entries := update table.entries i (o.entries i)
      ctrl := mirrorCtrl table.ctrl table.nSlots i (o.ctrl i) }
  else table

def copyInto (o fresh : HeapSwissMap K V) : HeapSwissMap K V :=
  { (List.range o.nSlots).foldl (copySlot o) fresh with
    size := o.size
    growthLeft := o.growthLeft }

section Copies
variable [Inhabited K] [Inhabited V]

/-- `heap_swiss_map(const heap_swiss_map &o)`; `none` is the throw of a refused
allocation. -/
def copyConstruct (a : Allocator) (o : HeapSwissMap K V) : Option (HeapSwissMap K V) :=
  (allocStorage a o.nSlots).map (copyInto o)

/-- `operator=(const heap_swiss_map &o)`; `aliased` is `this == &o`.  `__free_storage`
must not throw: a block that is not taken back ends the program. -/
def copyAssign (a : Allocator) (aliased : Bool) (self o : HeapSwissMap K V) :
    Option (HeapSwissMap K V) :=
  if aliased then some self
  else if self.freesEntries a then (allocStorage a o.nSlots).map (copyInto o)
  else none

end Copies

/-- The copied control byte: tombstones are left out. -/
def copiedByte (c : Nat) : Nat := if occupiedByte c then c else emptyByte

structure Copied (o c : HeapSwissMap K V) : Prop where
  nSlots : c.nSlots = o.nSlots
  capMask : c.capMask = o.nSlots - 1
  size : c.size = o.size
  growthLeft : c.growthLeft = o.growthLeft
  mirrored : ∀ i, i < 16 → c.ctrl (o.nSlots + i) = c.ctrl i
  ctrl : ∀ i, i < o.nSlots → c.ctrl i = copiedByte (o.ctrl i)
  entries : ∀ i, i < o.nSlots → occupiedByte (o.ctrl i) = true → c.entries i = o.entries i

section Loop
variable {o fresh : HeapSwissMap K V}

theorem copySlot_loop (wide : 16 ≤ o.nSlots) (slots : fresh.nSlots = o.nSlots)
    (vacant : ∀ j, fresh.ctrl j = emptyByte) : ∀ i, i ≤ o.nSlots →
    let table := (List.range i).foldl (copySlot o) fresh
    table.nSlots = o.nSlots ∧ table.capMask = fresh.capMask ∧
      (∀ j, j < 16 → table.ctrl (o.nSlots + j) = table.ctrl j) ∧
      (∀ j, j < i → table.ctrl j = copiedByte (o.ctrl j)) ∧
      (∀ j, i ≤ j → j < o.nSlots → table.ctrl j = emptyByte) ∧
      (∀ j, j < i → occupiedByte (o.ctrl j) = true → table.entries j = o.entries j) := by
  intro i
  induction i with
  | zero =>
    intro _
    simp [slots, vacant]
  | succ i ih =>
    intro within
    obtain ⟨slotsI, maskI, mirroredI, doneI, restI, entriesI⟩ := ih (by omega)
    simp only [range_succ, foldl_append, foldl_cons, foldl_nil]
    generalize (List.range i).foldl (copySlot o) fresh = table at *
    cases taken : occupiedByte (o.ctrl i) with
    | false =>
      have skipped : copySlot o table i = table := by
        simp [copySlot, taken]
      rw [skipped]
      refine ⟨slotsI, maskI, mirroredI, ?_, ?_, ?_⟩
      · intro j below
        rcases Nat.lt_succ_iff_lt_or_eq.mp below with earlier | rfl
        · exact doneI j earlier
        · rw [restI j (le_refl _) (by omega)]
          simp [copiedByte, taken]
      · intro j above below
        exact restI j (by omega) below
      · intro j below takenJ
        rcases Nat.lt_succ_iff_lt_or_eq.mp below with earlier | rfl
        · exact entriesI j earlier takenJ
        · rw [taken] at takenJ
          cases takenJ
    | true =>
      have copied : copySlot o table i =
          { table with
            entries := update table.entries i (o.entries i)
            ctrl := mirrorCtrl table.ctrl table.nSlots i (o.ctrl i) } := by
        simp [copySlot, taken]
      rw [copied]
      simp only [slotsI]
      refine ⟨trivial, maskI, ?_, ?_, ?_, ?_⟩
      · exact mirrorCtrl_mirrored mirroredI wide (by omega)
      · intro j below
        rw [mirrorCtrl_below (by omega)]
        rcases Nat.lt_succ_iff_lt_or_eq.mp below with earlier | rfl
        · rw [update_of_ne (by omega)]
          exact doneI j earlier
        · rw [update_self]
          simp [copiedByte, taken]
      · intro j above below
        rw [mirrorCtrl_below below, update_of_ne (by omega)]
        exact restI j (by omega) below
      · intro j below takenJ
        rcases Nat.lt_succ_iff_lt_or_eq.mp below with earlier | rfl
        · rw [update_of_ne (by omega)]
          exact entriesI j earlier takenJ
        · rw [update_self]

theorem copied_copyInto [Inhabited K] [Inhabited V] {a : Allocator} {c : HeapSwissMap K V}
    (wide : 16 ≤ o.nSlots) (copied : (allocStorage a o.nSlots).map (copyInto o) = some c) :
    Copied o c := by
  obtain ⟨fresh, granted, rfl⟩ := map_eq_some_iff.mp copied
  have blank : fresh.nSlots = o.nSlots ∧ fresh.capMask = o.nSlots - 1 ∧
      ∀ i, fresh.ctrl i = emptyByte := by
    unfold allocStorage at granted
    split at granted
    next grants =>
      cases granted
      exact ⟨rfl, slotMask_eq (by omega) (a.addressable _ grants), fun _ => rfl⟩
    next refuses => cases granted
  obtain ⟨slots, mask, mirrored, done, _, entries⟩ :=
    copySlot_loop wide blank.1 blank.2.2 o.nSlots (le_refl _)
  exact ⟨slots, mask.trans blank.2.1, rfl, rfl, mirrored, done, entries⟩

end Loop

/-- No stored key lies in a group of its probe path after one with a `DELETED`
byte. -/
def NoKeyBehindTombstone (hash : K → UInt64) (m : HeapSwissMap K V) : Prop :=
  ∀ i, i < m.nSlots → occupiedByte (m.ctrl i) = true →
    Reach (fun slot => m.ctrl slot == deletedByte) (keyPlan m.nSlots hash (m.entries i).key) i

/-- The copy answers like its source, now and after every run of later calls. -/
def Agrees [DecidableEq K] [Inhabited K] [Inhabited V] (hash : K → UInt64)
    (m c : HeapSwissMap K V) : Prop :=
  (∀ k, c.find hash k = m.find hash k) ∧
    ∀ later : List (Allocator × HeapOp K V), (c.run hash later).2 = (m.run hash later).2 ∧
      (c.run hash later).1.size = (m.run hash later).1.size ∧
      ∀ k, (c.run hash later).1.find hash k = (m.run hash later).1.find hash k

section Agreement
variable {hash : K → UInt64} {m c : HeapSwissMap K V} {M : K → Option V}

theorem occupiedByte_copiedByte (b : Nat) : occupiedByte (copiedByte b) = occupiedByte b := by
  unfold copiedByte
  cases taken : occupiedByte b with
  | true => simp [taken]
  | false => rfl

theorem Copied.cell_eq (copied : Copied m c) {i : Nat} (below : i < m.nSlots) :
    cell c.ctrl c.entries i = cell m.ctrl m.entries i := by
  unfold cell
  rw [copied.ctrl i below, occupiedByte_copiedByte]
  cases taken : occupiedByte (m.ctrl i) with
  | true => simp [copied.entries i below taken]
  | false => rfl

theorem Copied.isEmptySlot_eq (copied : Copied m c) {i : Nat} (below : i < m.nSlots) :
    isEmptySlot c.ctrl i = isFreeSlot m.ctrl i := by
  rw [isFreeSlot_eq]
  simp only [isEmptySlot, copied.ctrl i below, copiedByte]
  cases taken : occupiedByte (m.ctrl i) with
  | false => rfl
  | true =>
    simp only [occupiedByte, Bool.and_eq_true, bne_iff_ne] at taken
    simp [taken.1]

theorem Copied.heapInv (copied : Copied m c) (inv : HeapInv hash m M)
    (clean : NoKeyBehindTombstone hash m) : HeapInv hash c M := by
  have planned := inv.table.planned
  have bytes : ∀ i, i < m.nSlots → occupiedByte (c.ctrl i) = occupiedByte (m.ctrl i) := by
    intro i below
    rw [copied.ctrl i below, occupiedByte_copiedByte]
  constructor
  · rw [copied.nSlots]
    exact inv.slots
  · rw [copied.capMask, copied.nSlots]
  · rw [copied.nSlots]
    exact copied.mirrored
  · rw [copied.nSlots]
    refine ⟨planned, ?_, ?_, inv.table.held.congr fun i below => copied.cell_eq below⟩
    · intro i below taken
      rw [bytes i below] at taken
      rw [copied.entries i below taken, copied.ctrl i below, copiedByte, if_pos taken]
      exact inv.table.tagged i below taken
    · intro i below taken
      rw [bytes i below] at taken
      rw [copied.entries i below taken]
      have path := (inv.table.reached i below taken).or (clean i below taken)
      apply Reach.congr _ path
      intro slot member
      rw [copied.isEmptySlot_eq (planned _ slot member)]
      rfl
  · rw [copied.nSlots, copied.growthLeft]
    refine le_trans (Nat.add_le_add_right ?_ _) inv.budget
    apply usedBytes_le_of_subset
    intro i below used never
    apply used
    rw [copied.ctrl i below, copiedByte, never]
    rfl
  · rw [copied.size, copied.nSlots, inv.counted]
    apply load_congr
    intro i below
    rw [copied.cell_eq below]

variable [DecidableEq K] [Inhabited K] [Inhabited V]

theorem Represents.agrees {view : HeapView K V} (source : Represents hash m view)
    (copy : Represents hash c view) : Agrees hash m c := by
  refine ⟨fun k => by rw [source.inv.find_eq, copy.inv.find_eq], ?_⟩
  intro later
  induction later generalizing m c view with
  | nil =>
    refine ⟨rfl, ?_, ?_⟩
    · exact copy.inv.size_eq.trans source.inv.size_eq.symm
    · intro k
      exact (copy.inv.find_eq k).trans (source.inv.find_eq k).symm
  | cons call rest ih =>
    obtain ⟨a, op⟩ := call
    obtain ⟨reply, source'⟩ := source.call (a := a) op
    obtain ⟨copyReply, copy'⟩ := copy.call (a := a) op
    obtain ⟨replies, sizes, lookups⟩ := ih source' copy'
    simp only [HeapSwissMap.run]
    exact ⟨by rw [reply, copyReply, replies], sizes, lookups⟩

/-- A copy that finds every key finds each of them before a tombstone. -/
theorem Copied.clean_of_agrees (copied : Copied m c) (inv : HeapInv hash m M)
    (agrees : Agrees hash m c) : NoKeyBehindTombstone hash m := by
  intro i below taken
  obtain ⟨e, _, power⟩ := inv.slots.power
  have masked : ∀ x, x &&& c.capMask = x % m.nSlots := by
    intro x
    rw [copied.capMask, power, and_mask_eq_mod]
  have at_i : cell m.ctrl m.entries i = some ((m.entries i).key, (m.entries i).value) :=
    cell_eq_some_iff.mpr ⟨taken, rfl, rfl⟩
  have located : c.locate hash (m.entries i).key =
      search (hits c.ctrl c.entries (h2 (hash (m.entries i).key)) (m.entries i).key)
        (isEmptySlot c.ctrl) (keyPlan m.nSlots hash (m.entries i).key) := by
    rw [HeapSwissMap.locate, masked, copied.nSlots]
    exact heap_locateFrom_eq_search masked copied.mirrored inv.slots.sixteen.1 ..
  have lookup := agrees.1 (m.entries i).key
  rw [inv.find_eq, inv.table.held.sound i _ _ below at_i, HeapSwissMap.find,
    map_eq_some_iff] at lookup
  obtain ⟨slot, found, _⟩ := lookup
  rw [located] at found
  obtain ⟨hit, member⟩ := search_sound _ slot found
  have belowSlot := inv.table.planned _ slot member
  -- the slot found in the copy is the slot of the key in the source
  have same : slot = i := by
    simp only [hits, Bool.and_eq_true, beq_iff_eq, decide_eq_true_eq] at hit
    have takenSlot : occupiedByte (c.ctrl slot) = true := by
      rw [hit.1]
      exact occupiedByte_h2 _
    have at_slot : cell c.ctrl c.entries slot =
        some ((m.entries i).key, (c.entries slot).value) :=
      cell_eq_some_iff.mpr ⟨takenSlot, hit.2, rfl⟩
    rw [copied.cell_eq belowSlot] at at_slot
    exact inv.table.held.single slot i _ _ _ belowSlot below at_slot at_i
  have path := reach_of_search found
  rw [same] at path
  have free : Reach (isFreeSlot m.ctrl) (keyPlan m.nSlots hash (m.entries i).key) i := by
    apply Reach.congr _ path
    intro x memberX
    exact (copied.isEmptySlot_eq (inv.table.planned _ x memberX)).symm
  apply Reach.mono _ free
  intro x tombstone
  simp [isFreeSlot, tombstone]

theorem Copied.agrees_iff (copied : Copied m c) (inv : HeapInv hash m M) :
    Agrees hash m c ↔ NoKeyBehindTombstone hash m := by
  constructor
  · exact copied.clean_of_agrees inv
  · intro clean
    have source : Represents hash m ⟨M, m.nSlots, m.growthLeft⟩ := ⟨inv, rfl, rfl⟩
    have copy : Represents hash c ⟨M, m.nSlots, m.growthLeft⟩ :=
      ⟨copied.heapInv inv clean, copied.nSlots, copied.growthLeft⟩
    exact source.agrees copy

end Agreement

/-- For every reachable map, the copy that either copy operation makes agrees
with it if and only if no stored key lies behind a tombstone on its probe path.
Assigning a map to itself keeps it. -/
theorem heap_swiss_copy_agrees_iff [DecidableEq K] [Inhabited K] [Inhabited V]
    (hash : K → UInt64) (a : Allocator) (n : Nat) (initial : HeapSwissMap K V)
    (constructed : construct a n = some initial) (calls : List (Allocator × HeapOp K V))
    (copier : Allocator) :
    let m := (initial.run hash calls).1
    (∀ c, copyConstruct copier m = some c → (Agrees hash m c ↔ NoKeyBehindTombstone hash m)) ∧
      (∀ self c, copyAssign copier false self m = some c →
        (Agrees hash m c ↔ NoKeyBehindTombstone hash m)) ∧
      (∀ c, copyAssign copier true m m = some c → Agrees hash m c) := by
  intro m
  obtain ⟨view, _, represents⟩ := (represents_construct hash constructed).run calls
  have wide := represents.inv.slots.sixteen.1
  refine ⟨?_, ?_, ?_⟩
  · intro c copied
    exact (copied_copyInto wide copied).agrees_iff represents.inv
  · intro self c copied
    rw [copyAssign, if_neg Bool.false_ne_true] at copied
    split at copied
    · exact (copied_copyInto wide copied).agrees_iff represents.inv
    · cases copied
  · intro c copied
    cases copied
    exact represents.agrees represents

/-- Seventeen keys with one hash fill a group and one slot more; the first key
is erased. -/
def tombstoneCalls : List (Allocator × HeapOp Nat Nat) :=
  (List.range 17).map (fun k => (roomyAllocator, .insert k k)) ++ [(roomyAllocator, .erase 0)]

def tombstoneStart : HeapSwissMap Nat Nat := (construct roomyAllocator 32).get rfl

def tombstoneMap : HeapSwissMap Nat Nat := (tombstoneStart.run (fun _ => 0) tombstoneCalls).1

theorem tombstoneStart_constructed : construct roomyAllocator 32 = some tombstoneStart :=
  (some_get _).symm

theorem tombstoneMap_copied : (copyConstruct roomyAllocator tombstoneMap).isSome = true := by
  decide +kernel

theorem tombstoneMap_finds : tombstoneMap.find (fun _ => 0) 16 = some 16 := by
  decide +kernel

theorem tombstoneMap_copy_misses :
    ((copyConstruct roomyAllocator tombstoneMap).get tombstoneMap_copied).find (fun _ => 0) 16 =
      none := by
  decide +kernel

theorem heap_swiss_copy_agrees_iff_tombstone :
    ∃ initial c : HeapSwissMap Nat Nat, construct roomyAllocator 32 = some initial ∧
      copyConstruct roomyAllocator (initial.run (fun _ => 0) tombstoneCalls).1 = some c ∧
      (Agrees (fun _ => 0) (initial.run (fun _ => 0) tombstoneCalls).1 c ↔
        NoKeyBehindTombstone (fun _ => 0) (initial.run (fun _ => 0) tombstoneCalls).1) := by
  refine ⟨tombstoneStart, _, tombstoneStart_constructed,
    (some_get tombstoneMap_copied).symm, ?_⟩
  exact (heap_swiss_copy_agrees_iff (fun _ => 0) roomyAllocator 32 _ tombstoneStart_constructed
    tombstoneCalls roomyAllocator).1 _ (some_get tombstoneMap_copied).symm

/-- The copy of that map has lost the seventeenth key, which its source finds. -/
theorem heap_swiss_copy_loses_key :
    ∃ initial c : HeapSwissMap Nat Nat, construct roomyAllocator 32 = some initial ∧
      copyConstruct roomyAllocator (initial.run (fun _ => 0) tombstoneCalls).1 = some c ∧
      (initial.run (fun _ => 0) tombstoneCalls).1.find (fun _ => 0) 16 = some 16 ∧
      c.find (fun _ => 0) 16 = none ∧
      ¬ Agrees (fun _ => 0) (initial.run (fun _ => 0) tombstoneCalls).1 c := by
  refine ⟨tombstoneStart, _, tombstoneStart_constructed,
    (some_get tombstoneMap_copied).symm, tombstoneMap_finds, tombstoneMap_copy_misses, ?_⟩
  intro agrees
  have lookup := agrees.1 16
  rw [tombstoneMap_copy_misses] at lookup
  exact absurd (lookup.trans tombstoneMap_finds) nofun

end Micron.Swiss
