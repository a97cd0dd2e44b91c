import Micron.Swiss.HeapRefinement

/-!
# Maps that were moved from

A move leaves its source with no slots and no growth left.  Doubling no slots gives no slots, so
an insert into such a map rehashes to no slots and finds no place for the key.  The next one
rehashes again, and now gives a block of no bytes back, at which the default allocator throws.
-/

set_option autoImplicit false

namespace Micron.Swiss

open Micron.Lib

section Model
variable {K V : Type} [Inhabited K] [Inhabited V]

/-- What a move leaves behind; the storage pointers are null. -/
def released : HeapSwissMap K V where
  alive := false
  ctrl := fun _ => emptyByte
  entries := fun _ => ⟨default, default⟩
  nSlots := 0
  capMask := 0
  size := 0
  growthLeft := 0

/-- `heap_swiss_map(heap_swiss_map &&o)`: the new map and what `o` becomes. -/
def moveConstruct (o : HeapSwissMap K V) : HeapSwissMap K V × HeapSwissMap K V := (o, released)

/-- `operator=(heap_swiss_map &&o)` of another map; a block of the old table that is not
taken back ends the program in `__free_storage`. -/
def moveAssign (a : Allocator) (self o : HeapSwissMap K V) :
    Option (HeapSwissMap K V × HeapSwissMap K V) :=
  if self.freesEntries a then some (o, released) else none

def freshMap (a : Allocator) : Option (HeapSwissMap K V) := allocStorage a 16

variable [DecidableEq K]

/-- `operator[]` with the value that its reference denotes, or `none` when it throws. -/
def HeapSwissMap.subscript (hash : K → UInt64) (a : Allocator) (m : HeapSwissMap K V) (key : K) :
    HeapSwissMap K V × Option V :=
  match m.find hash key with
  | some value => (m, some value)
  | none =>
    let made := m.insert hash a key default
    (made.1, made.2.bind fun reply => reply.2)

end Model

inductive MapCall (K V : Type) where
  | insert (key : K) (value : V)
  | emplace (key : K) (value : V)
  | subscript (key : K)
  | find (key : K)
  | erase (key : K)

/-- What a call gives back; a null pointer is `none`. -/
inductive MapAnswer (V : Type) where
  | threw
  | placed (isNew : Bool) (at_ : Option V)
  | value (v : V)
  | found (at_ : Option V)
  | erased (was : Bool)
  deriving DecidableEq

def MapCall.stores {K V : Type} : MapCall K V → Bool
  | .insert _ _ | .emplace _ _ | .subscript _ => true
  | .find _ | .erase _ => false

section Runs
variable {K V : Type} [DecidableEq K] [Inhabited K] [Inhabited V]

def placement : Option (Bool × Option V) → MapAnswer V
  | none => .threw
  | some (isNew, at_) => .placed isNew at_

def HeapSwissMap.answer (hash : K → UInt64) (a : Allocator) (m : HeapSwissMap K V) :
    MapCall K V → HeapSwissMap K V × MapAnswer V
  | .insert key value =>
    let made := m.insert hash a key value
    (made.1, placement made.2)
  | .emplace key value =>
    let made := m.emplace hash a key value
    (made.1, placement made.2)
  | .subscript key =>
    let made := m.subscript hash a key
    (made.1, match made.2 with
      | none => .threw
      | some v => .value v)
  | .find key => (m, .found (m.find hash key))
  | .erase key => ((m.erase hash key).1, .erased (m.erase hash key).2)

def HeapSwissMap.answers (hash : K → UInt64) :
    HeapSwissMap K V → List (Allocator × MapCall K V) → List (MapAnswer V)
  | _, [] => []
  | m, (a, call) :: rest =>
    let answered := m.answer hash a call
    answered.2 :: answered.1.answers hash rest

/-- A map without slots, as a move leaves it and as every later call does. -/
structure Slotless (m : HeapSwissMap K V) : Prop where
  nSlots : m.nSlots = 0
  growthLeft : m.growthLeft = 0

omit [DecidableEq K] in
theorem slotless_released : Slotless (released : HeapSwissMap K V) := ⟨rfl, rfl⟩

variable {m : HeapSwissMap K V}

omit [Inhabited K] [Inhabited V] in
theorem Slotless.locate_eq (slotless : Slotless m) (hash : K → UInt64) (key : K) :
    m.locate hash key = none := by
  rw [HeapSwissMap.locate, slotless.nSlots]
  rfl

omit [Inhabited K] [Inhabited V] in
theorem Slotless.find_eq (slotless : Slotless m) (hash : K → UInt64) (key : K) :
    m.find hash key = none := by
  rw [HeapSwissMap.find, slotless.locate_eq]
  rfl

omit [Inhabited K] [Inhabited V] in
theorem Slotless.erase_eq (slotless : Slotless m) (hash : K → UInt64) (key : K) :
    m.erase hash key = (m, false) := by
  rw [HeapSwissMap.erase, slotless.locate_eq]

omit [DecidableEq K] in
/-- Making room leaves a map without slots, whether it throws or not. -/
theorem Slotless.makeRoom (slotless : Slotless m) (hash : K → UInt64) (a : Allocator) :
    Slotless (m.makeRoom hash a).1 := by
  rw [HeapSwissMap.makeRoom, if_pos slotless.growthLeft, HeapSwissMap.rehash, slotless.nSlots]
  split
  · exact slotless
  · rename_i fresh granted
    rw [allocStorage] at granted
    split at granted
    · cases granted
      exact ⟨rfl, rfl⟩
    · cases granted

/-- An insert throws or reports a new key at no place. -/
theorem Slotless.insert (slotless : Slotless m) (hash : K → UInt64) (a : Allocator) (key : K)
    (value : V) : Slotless (m.insert hash a key value).1 ∧
      ((m.insert hash a key value).2 = none ∨
        (m.insert hash a key value).2 = some (true, none)) := by
  have ready := slotless.makeRoom hash a
  rw [HeapSwissMap.insert]
  generalize m.makeRoom hash a = made at ready
  obtain ⟨grown, _ | _⟩ := made
  · exact ⟨ready, .inl rfl⟩
  · have empty : Slotless grown := ready
    have unplaced : grown.insertNew hash key value = (grown, some (true, none)) := by
      rw [HeapSwissMap.insertNew, HeapSwissMap.probeInsert, empty.nSlots]
      rfl
    dsimp only
    rw [empty.find_eq]
    rw [unplaced]
    exact ⟨empty, .inr rfl⟩

theorem Slotless.subscript (slotless : Slotless m) (hash : K → UInt64) (a : Allocator) (key : K) :
    (m.subscript hash a key).2 = none := by
  rw [HeapSwissMap.subscript, slotless.find_eq]
  obtain ⟨_, threw | unplaced⟩ := slotless.insert hash a key default
  · dsimp only
    rw [threw]
    rfl
  · dsimp only
    rw [unplaced]
    rfl

variable {hash : K → UInt64} {fresh : HeapSwissMap K V}

/-- A map that holds nothing and has room stores a key in a slot. -/
theorem insert_of_room (empty : HeapInv hash fresh fun _ => none) (room : 0 < fresh.growthLeft)
    (a : Allocator) (key : K) (value : V) :
    (fresh.insert hash a key value).2 = some (true, some value) := by
  obtain ⟨stored, placed, _⟩ := empty.probeInsert value rfl room
  rw [HeapSwissMap.insert, HeapSwissMap.makeRoom, if_neg room.ne']
  dsimp only
  rw [empty.find_eq]
  rw [HeapSwissMap.insertNew, placed]

theorem subscript_of_room (empty : HeapInv hash fresh fun _ => none) (room : 0 < fresh.growthLeft)
    (a : Allocator) (key : K) : (fresh.subscript hash a key).2 = some default := by
  rw [HeapSwissMap.subscript, empty.find_eq]
  dsimp only
  rw [insert_of_room empty room]
  rfl

omit [Inhabited K] [Inhabited V] in
theorem erase_of_nothing (empty : HeapInv hash fresh fun _ => none) (key : K) :
    fresh.erase hash key = (fresh, false) := by
  have absent : fresh.locate hash key = none := by
    have looked := empty.find_eq key
    rwa [HeapSwissMap.find, Option.map_eq_none_iff] at looked
  rw [HeapSwissMap.erase, absent]

/-- The two maps answer alike exactly a call that stores nothing. -/
theorem answer_eq_iff (slotless : Slotless m) (empty : HeapInv hash fresh fun _ => none)
    (room : 0 < fresh.growthLeft) (a : Allocator) (call : MapCall K V) :
    (m.answer hash a call).2 = (fresh.answer hash a call).2 ↔ call.stores = false := by
  have differs : ∀ key value, placement (m.insert hash a key value).2 ≠
      placement (fresh.insert hash a key value).2 := by
    intro key value same
    rw [insert_of_room empty room] at same
    obtain ⟨_, threw | unplaced⟩ := slotless.insert hash a key value
    · rw [threw] at same
      cases same
    · rw [unplaced] at same
      cases same
  cases call with
  | insert key value => exact ⟨fun same => absurd same (differs key value), fun bad => by cases bad⟩
  | emplace key value => exact ⟨fun same => absurd same (differs key value), fun bad => by cases bad⟩
  | subscript key =>
    refine ⟨fun same => ?_, fun bad => by cases bad⟩
    rw [HeapSwissMap.answer, HeapSwissMap.answer] at same
    rw [slotless.subscript, subscript_of_room empty room] at same
    cases same
  | find key =>
    rw [HeapSwissMap.answer, HeapSwissMap.answer, slotless.find_eq, empty.find_eq]
    exact ⟨fun _ => rfl, fun _ => rfl⟩
  | erase key =>
    rw [HeapSwissMap.answer, HeapSwissMap.answer, slotless.erase_eq, erase_of_nothing empty]
    exact ⟨fun _ => rfl, fun _ => rfl⟩

/-- A call that stores nothing leaves both maps as they are. -/
theorem answer_of_not_stores (a : Allocator) {call : MapCall K V} (reads : call.stores = false)
    (unerased : ∀ key, m.erase hash key = (m, false)) : (m.answer hash a call).1 = m := by
  cases call with
  | insert key value => cases reads
  | emplace key value => cases reads
  | subscript key => cases reads
  | find key => rfl
  | erase key => rw [HeapSwissMap.answer, unerased]

theorem answers_eq_iff (slotless : Slotless m) (empty : HeapInv hash fresh fun _ => none)
    (room : 0 < fresh.growthLeft) (calls : List (Allocator × MapCall K V)) :
    m.answers hash calls = fresh.answers hash calls ↔
      ∀ call ∈ calls, call.2.stores = false := by
  induction calls with
  | nil => simp [HeapSwissMap.answers]
  | cons made rest ih =>
    obtain ⟨a, call⟩ := made
    rw [HeapSwissMap.answers, HeapSwissMap.answers, List.cons.injEq, List.forall_mem_cons,
      answer_eq_iff slotless empty room]
    refine and_congr_right fun reads => ?_
    rw [answer_of_not_stores a reads (slotless.erase_eq hash),
      answer_of_not_stores a reads (erase_of_nothing empty), ih]

omit [DecidableEq K] in
theorem freshMap_empty (hash : K → UInt64) {a : Allocator} (made : freshMap a = some fresh) :
    HeapInv hash fresh (fun _ => none) ∧ 0 < fresh.growthLeft := by
  obtain ⟨empty, _, _, full⟩ := heapInv_allocStorage hash ⟨4, le_refl 4, rfl⟩ made
  exact ⟨empty, by omega⟩

end Runs

/-- A map that was moved from answers a sequence of calls as a new map does if and only if no
call of the sequence may have to store a key. -/
theorem moved_from_answers_iff {K V : Type} [DecidableEq K] [Inhabited K] [Inhabited V]
    (hash : K → UInt64) (self o fresh : HeapSwissMap K V) (a mover : Allocator)
    (made : freshMap a = some fresh) (calls : List (Allocator × MapCall K V)) :
    ((moveConstruct o).2.answers hash calls = fresh.answers hash calls ↔
      ∀ call ∈ calls, call.2.stores = false) ∧
    ∀ moved, moveAssign mover self o = some moved →
      (moved.2.answers hash calls = fresh.answers hash calls ↔
        ∀ call ∈ calls, call.2.stores = false) := by
  obtain ⟨empty, room⟩ := freshMap_empty hash made
  refine ⟨answers_eq_iff slotless_released empty room calls, ?_⟩
  intro moved assigned
  unfold moveAssign at assigned
  split at assigned
  · cases assigned
    exact answers_eq_iff slotless_released empty room calls
  · cases assigned

theorem moved_from_answers_reading :
    ∃ fresh moved : HeapSwissMap Nat Nat, freshMap roomyAllocator = some fresh ∧
      moveAssign roomyAllocator fresh fresh = some (fresh, moved) ∧
      moved.answers (fun _ => 13) [(roomyAllocator, .find 1), (roomyAllocator, .erase 1)] =
        fresh.answers (fun _ => 13) [(roomyAllocator, .find 1), (roomyAllocator, .erase 1)] := by
  obtain ⟨fresh, made⟩ : ∃ m : HeapSwissMap Nat Nat, freshMap roomyAllocator = some m :=
    ⟨_, rfl⟩
  have moved : moveAssign roomyAllocator fresh fresh = some (fresh, released) := by
    cases made
    rfl
  exact ⟨fresh, released, made, moved, ((moved_from_answers_iff (fun _ => 13) fresh fresh fresh
    roomyAllocator roomyAllocator made _).2 _ moved).mpr (by decide)⟩

/-- The first insert after a move reports a new key at a null pointer, the second one throws. -/
theorem moved_from_insert_reports_null :
    ∃ fresh : HeapSwissMap Nat Nat, freshMap roomyAllocator = some fresh ∧
      (moveConstruct fresh).2.answers (fun _ => 13)
          [(roomyAllocator, .insert 1 2), (roomyAllocator, .insert 1 2)] =
        [.placed true none, .threw] ∧
      fresh.answers (fun _ => 13)
          [(roomyAllocator, .insert 1 2), (roomyAllocator, .insert 1 2)] =
        [.placed true (some 2), .placed false (some 2)] :=
  ⟨_, rfl, by decide +kernel, by decide +kernel⟩

end Micron.Swiss
