import Micron.Swiss.HeapTable

/-!
# The heap Swiss map is a finite map

`HeapView` is what a caller can tell of a table: its bindings, the number of
slots and the growth left.  Its calls are the abstract machine, and
`Represents.call` says that a table and its view answer every call alike.
-/

set_option autoImplicit false

namespace Micron.Swiss

open Micron.Lib List Function

variable {K V : Type}

theorem roundPow2_power (n : Nat) : ∃ e, 4 ≤ e ∧ roundPow2 n = 2 ^ e := by
  unfold roundPow2
  split
  · exact ⟨4, le_refl _, rfl⟩
  · rename_i large
    obtain ⟨b, eq, enough⟩ := roundLoop_spec n 64 0 rfl (by decide)
    refine ⟨b, ?_, eq⟩
    rcases enough with covers | saturated
    · by_contra small
      have bounded : 2 ^ b ≤ 2 ^ 3 := Nat.pow_le_pow_right (by decide) (by omega)
      omega
    · omega

theorem SlotCount.double {n : Nat} (count : SlotCount n) : ∃ e, 4 ≤ e ∧ n * 2 = 2 ^ e := by
  obtain ⟨e, big, rfl⟩ := count.power
  exact ⟨e + 1, by omega, (pow_succ ..).symm⟩

theorem SlotCount.double_mod {n : Nat} (count : SlotCount n) : n * 2 % wordSize = n * 2 := by
  have small := count.small
  rw [wordSize, Nat.mod_eq_of_lt (by omega)]

theorem SlotCount.budget_lt {n n' : Nat} (count : SlotCount n') (more : n < n') :
    n * 7 / 8 < n' * 7 / 8 := by
  have sixteen := count.sixteen
  omega

structure HeapView (K V : Type) where
  bindings : K → Option V
  nSlots : Nat
  growthLeft : Nat

structure Represents (hash : K → UInt64) (m : HeapSwissMap K V) (view : HeapView K V) :
    Prop where
  inv : HeapInv hash m view.bindings
  sameSlots : m.nSlots = view.nSlots
  sameGrowth : m.growthLeft = view.growthLeft

section Machine
variable (a : Allocator) (view : HeapView K V)

noncomputable def HeapView.grown (n : Nat) : HeapView K V :=
  ⟨view.bindings, n, n * 7 / 8 - keyCount view.bindings⟩

noncomputable def HeapView.rehash (n : Nat) : Option (HeapView K V) :=
  if a.grants n then some (view.grown n) else none

noncomputable def HeapView.makeRoom : Option (HeapView K V) :=
  if view.growthLeft = 0 then view.rehash a (view.nSlots * 2) else some view

variable [DecidableEq K]

def HeapView.put (key : K) (value : V) : HeapView K V :=
  ⟨update view.bindings key (some value), view.nSlots, view.growthLeft - 1⟩

noncomputable def HeapView.insert (key : K) (value : V) :
    HeapView K V × Option (Bool × Option V) :=
  match view.makeRoom a with
  | none => (view, none)
  | some view =>
    match view.bindings key with
    | some ex => (view, some (false, some ex))
    | none => (view.put key value, some (true, some value))

noncomputable def HeapView.insertOrAssign (key : K) (value : V) :
    HeapView K V × Option (Bool × Option V) :=
  match view.makeRoom a with
  | none => (view, none)
  | some view =>
    match view.bindings key with
    | some _ =>
      ({ view with bindings := update view.bindings key (some value) },
        some (false, some value))
    | none => (view.put key value, some (true, some value))

omit [DecidableEq K] in
noncomputable def HeapView.reserve (n : Nat) : HeapView K V × Option (Bool × Option V) :=
  if view.nSlots < roundPow2 n then
    match view.rehash a (roundPow2 n) with
    | none => (view, none)
    | some grown => (grown, some (true, none))
  else (view, some (true, none))

noncomputable def HeapView.call : HeapOp K V → HeapView K V × Option (Bool × Option V)
  | .insert key value => view.insert a key value
  | .insertOrAssign key value => view.insertOrAssign a key value
  | .emplace key value => view.insert a key value
  | .erase key =>
    ({ view with bindings := update view.bindings key none },
      some ((view.bindings key).isSome, none))
  | .reserve n => view.reserve a n
  | .clear => (⟨fun _ => none, view.nSlots, view.nSlots * 7 / 8⟩, some (true, none))

end Machine

section Rehash
variable {hash : K → UInt64} {m : HeapSwissMap K V} {M : K → Option V} {a : Allocator}
variable [Inhabited K] [Inhabited V]

theorem heapInv_allocStorage (hash : K → UInt64) {n : Nat} (power : ∃ e, 4 ≤ e ∧ n = 2 ^ e)
    {fresh : HeapSwissMap K V} (granted : allocStorage a n = some fresh) :
    HeapInv hash fresh (fun _ => none) ∧ fresh.nSlots = n ∧ fresh.size = 0 ∧
      fresh.growthLeft = n * 7 / 8 := by
  unfold allocStorage at granted
  split at granted
  · rename_i grants
    cases granted
    have count : SlotCount n := ⟨power, a.addressable n grants⟩
    exact ⟨heapInv_of_vacant count (slotMask_eq count.positive count.small) (fun _ => rfl) rfl rfl, rfl, rfl, count.growthBudget_eq⟩
  · cases granted

variable [DecidableEq K]

omit [Inhabited K] [Inhabited V] in
/-- The loop over the old table, after `i` slots: the new table holds what the
first `i` slots of the old one hold. -/
theorem HeapInv.reinsert_loop (inv : HeapInv hash m M) {n : Nat} {fresh : HeapSwissMap K V}
    (empty : HeapInv hash fresh (fun _ => none)) (slots : fresh.nSlots = n)
    (none_stored : fresh.size = 0) (full : fresh.growthLeft = n * 7 / 8)
    (more : m.nSlots < n) : ∀ i, i ≤ m.nSlots →
    ∃ Mi, HeapInv hash ((List.range i).foldl (reinsert hash m) fresh) Mi ∧
      ((List.range i).foldl (reinsert hash m) fresh).nSlots = n ∧
      ((List.range i).foldl (reinsert hash m) fresh).growthLeft +
        ((List.range i).foldl (reinsert hash m) fresh).size = n * 7 / 8 ∧
      Holds (cell m.ctrl m.entries) i Mi := by
  have larger : m.nSlots * 7 / 8 < n * 7 / 8 := by
    rw [← slots]
    exact empty.slots.budget_lt (by omega)
  intro i
  induction i with
  | zero =>
    intro _
    refine ⟨fun _ => none, empty, slots, ?_, holds_empty ?_⟩
    · simp only [range_zero, foldl_nil]
      omega
    · intro j below
      omega
  | succ i ih =>
    intro within
    obtain ⟨Mi, invI, slotsI, sumI, heldI⟩ := ih (by omega)
    rw [range_succ, foldl_append, foldl_cons, foldl_nil]
    generalize (List.range i).foldl (reinsert hash m) fresh = table at invI slotsI sumI
    cases taken : occupiedByte (m.ctrl i) with
    | false =>
      have skipped : reinsert hash m table i = table := by
        simp [reinsert, taken]
      have freeCell : cell m.ctrl m.entries i = none := by
        simp [cell, taken]
      rw [skipped]
      exact ⟨Mi, invI, slotsI, sumI, heldI.succ_free freeCell⟩
    | true =>
      have at_i : cell m.ctrl m.entries i =
          some ((m.entries i).key, (m.entries i).value) := by
        simp [cell, taken]
      have fresh_key : ∀ j w, j < i →
          cell m.ctrl m.entries j ≠ some ((m.entries i).key, w) := by
        intro j w earlier at_j
        have same := inv.table.held.single j i _ w _ (by omega) (by omega) at_j at_i
        omega
      have unbound : Mi (m.entries i).key = none :=
        heldI.eq_none _ fun j w earlier => fresh_key j w earlier
      -- the new table has not yet spent what the old one could hold
      have room : 0 < table.growthLeft := by
        have sizeI : table.size = load (cell m.ctrl m.entries) i := by
          rw [invI.size_eq, heldI.keyCount_eq]
        have part : load (cell m.ctrl m.entries) i ≤ load (cell m.ctrl m.entries) m.nSlots :=
          load_mono (by omega)
        have used : load (cell m.ctrl m.entries) m.nSlots ≤ usedBytes m.ctrl m.nSlots :=
          load_le_usedBytes m.entries
        have budget := inv.budget
        omega
      obtain ⟨table', eq, inv', slots', growth', size'⟩ :=
        invI.probeInsert (m.entries i).value unbound room
      have stored : reinsert hash m table i = table' := by
        simp [reinsert, taken, eq]
      rw [stored]
      exact ⟨_, inv', by omega, by omega, heldI.succ_taken at_i fresh_key⟩

omit [Inhabited K] [Inhabited V] [DecidableEq K] in
/-- The block of a table in use has bytes, so it is taken back. -/
theorem HeapInv.freesEntries (inv : HeapInv hash m M) (a : Allocator) :
    m.freesEntries a = true := by
  rw [HeapSwissMap.freesEntries, a.takesBack m.nSlots inv.slots.positive]
  exact Bool.or_true _

theorem Represents.rehash {view : HeapView K V} (represents : Represents hash m view) {n : Nat}
    (power : ∃ e, 4 ≤ e ∧ n = 2 ^ e) (more : m.nSlots < n) :
    (m.rehash hash a n = (m, false) ∧ view.rehash a n = none) ∨
      ∃ m', m.rehash hash a n = (m', true) ∧ view.rehash a n = some (view.grown n) ∧
        Represents hash m' (view.grown n) ∧ 0 < m'.growthLeft := by
  obtain ⟨inv, _, _⟩ := represents
  cases grants : a.grants n with
  | false =>
    refine .inl ⟨?_, ?_⟩
    · simp [HeapSwissMap.rehash, allocStorage, grants]
    · simp [HeapView.rehash, grants]
  | true =>
    obtain ⟨fresh, granted⟩ : ∃ fresh, (allocStorage a n : Option (HeapSwissMap K V)) =
        some fresh := by simp [allocStorage, grants]
    obtain ⟨empty, slots, none_stored, full⟩ := heapInv_allocStorage hash power granted
    obtain ⟨M', inv', slots', sum', held'⟩ :=
      inv.reinsert_loop empty slots none_stored full more m.nSlots (le_refl _)
    have same : M' = view.bindings := held'.unique inv.table.held
    subst same
    have larger : m.nSlots * 7 / 8 < n * 7 / 8 := by
      rw [← slots]
      exact empty.slots.budget_lt (by omega)
    have stored : keyCount view.bindings ≤ m.nSlots * 7 / 8 := by
      have used : load (cell m.ctrl m.entries) m.nSlots ≤ usedBytes m.ctrl m.nSlots :=
        load_le_usedBytes m.entries
      have budget := inv.budget
      rw [inv.table.held.keyCount_eq]
      omega
    have size' := inv'.size_eq
    refine .inr ⟨_, ?_, ?_, ⟨inv', slots', ?_⟩, ?_⟩
    · rw [HeapSwissMap.rehash, granted, inv.freesEntries a]
    · simp [HeapView.rehash, grants]
    · simp only [HeapView.grown]
      omega
    · omega

theorem Represents.makeRoom {view : HeapView K V} (represents : Represents hash m view) :
    (m.makeRoom hash a = (m, false) ∧ view.makeRoom a = none) ∨
      ∃ m' view', m.makeRoom hash a = (m', true) ∧ view.makeRoom a = some view' ∧
        Represents hash m' view' ∧ 0 < m'.growthLeft := by
  unfold HeapSwissMap.makeRoom HeapView.makeRoom
  rw [← represents.sameGrowth, ← represents.sameSlots]
  have count := represents.inv.slots
  by_cases spent : m.growthLeft = 0
  · rw [if_pos spent, if_pos spent, count.double_mod]
    have positive := count.positive
    rcases represents.rehash (a := a) count.double (by omega) with
      ⟨refused, refusedView⟩ | ⟨m', grown, grownView, represents', room⟩
    · exact .inl ⟨refused, refusedView⟩
    · exact .inr ⟨m', _, grown, grownView, represents', room⟩
  · rw [if_neg spent, if_neg spent]
    exact .inr ⟨m, view, rfl, rfl, represents, by omega⟩

end Rehash

/-! ## Calls -/

section Calls
variable {hash : K → UInt64} {m : HeapSwissMap K V} {view : HeapView K V} {a : Allocator}
variable [DecidableEq K]

theorem Represents.insertNew (represents : Represents hash m view) {key : K} (value : V)
    (unbound : view.bindings key = none) (room : 0 < m.growthLeft) :
    (m.insertNew hash key value).2 = some (true, some value) ∧
      Represents hash (m.insertNew hash key value).1 (view.put key value) := by
  obtain ⟨m', eq, inv', slots', growth', _⟩ := represents.inv.probeInsert value unbound room
  have sameSlots := represents.sameSlots
  have sameGrowth := represents.sameGrowth
  simp only [HeapSwissMap.insertNew, eq]
  refine ⟨trivial, inv', ?_, ?_⟩
  · rw [slots', sameSlots]
    rfl
  · simp only [HeapView.put]
    omega

variable [Inhabited K] [Inhabited V]

theorem Represents.insert (represents : Represents hash m view) (key : K) (value : V) :
    (m.insert hash a key value).2 = (view.insert a key value).2 ∧
      Represents hash (m.insert hash a key value).1 (view.insert a key value).1 := by
  unfold HeapSwissMap.insert HeapView.insert
  rcases represents.makeRoom (a := a) with ⟨refused, refusedView⟩ |
    ⟨m', view', grown, grownView, represents', room⟩
  · rw [refused, refusedView]
    exact ⟨rfl, represents⟩
  · rw [grown, grownView]
    simp only
    rw [represents'.inv.find_eq]
    cases bound : view'.bindings key with
    | some ex => exact ⟨rfl, represents'⟩
    | none => exact represents'.insertNew value bound room

theorem Represents.insertOrAssign (represents : Represents hash m view) (key : K) (value : V) :
    (m.insertOrAssign hash a key value).2 = (view.insertOrAssign a key value).2 ∧
      Represents hash (m.insertOrAssign hash a key value).1
        (view.insertOrAssign a key value).1 := by
  unfold HeapSwissMap.insertOrAssign HeapView.insertOrAssign
  rcases represents.makeRoom (a := a) with ⟨refused, refusedView⟩ |
    ⟨m', view', grown, grownView, represents', room⟩
  · rw [refused, refusedView]
    exact ⟨rfl, represents⟩
  · rw [grown, grownView]
    simp only
    have inv' := represents'.inv
    cases found : m'.locate hash key with
    | some slot =>
      obtain ⟨below, old, at_slot⟩ := (inv'.locate_iff key slot).mp found
      rw [inv'.table.held.sound slot key old below at_slot]
      exact ⟨rfl, inv'.assign value below at_slot, represents'.sameSlots,
        represents'.sameGrowth⟩
    | none =>
      have unbound := (inv'.locate_none key).mp found
      rw [unbound]
      exact represents'.insertNew value unbound room

omit [Inhabited K] [Inhabited V] in
theorem Represents.erase (represents : Represents hash m view) (key : K) :
    (m.erase hash key).2 = (view.bindings key).isSome ∧
      Represents hash (m.erase hash key).1
        { view with bindings := update view.bindings key none } := by
  have inv := represents.inv
  unfold HeapSwissMap.erase
  cases found : m.locate hash key with
  | some slot =>
    obtain ⟨below, v, at_slot⟩ := (inv.locate_iff key slot).mp found
    rw [inv.table.held.sound slot key v below at_slot]
    exact ⟨rfl, inv.delete below at_slot, represents.sameSlots, represents.sameGrowth⟩
  | none =>
    have unbound := (inv.locate_none key).mp found
    rw [unbound, update_eq_self_iff.mpr unbound.symm]
    exact ⟨rfl, represents⟩

theorem Represents.reserve (represents : Represents hash m view) (n : Nat) :
    (if (m.reserve hash a n).2 then some (true, none) else none) = (view.reserve a n).2 ∧
      Represents hash (m.reserve hash a n).1 (view.reserve a n).1 := by
  unfold HeapSwissMap.reserve HeapView.reserve
  rw [← represents.sameSlots]
  by_cases short : m.nSlots < roundPow2 n
  · rw [if_pos short, if_pos short]
    rcases represents.rehash (a := a) (roundPow2_power n) short with
      ⟨refused, refusedView⟩ | ⟨m', grown, grownView, represents', _⟩
    · rw [refused, refusedView]
      exact ⟨rfl, represents⟩
    · rw [grown, grownView]
      exact ⟨rfl, represents'⟩
  · rw [if_neg short, if_neg short]
    exact ⟨rfl, represents⟩

theorem Represents.call (represents : Represents hash m view) (op : HeapOp K V) :
    (m.call hash a op).2 = (view.call a op).2 ∧
      Represents hash (m.call hash a op).1 (view.call a op).1 := by
  cases op with
  | insert key value => exact represents.insert key value
  | emplace key value => exact represents.insert key value
  | insertOrAssign key value => exact represents.insertOrAssign key value
  | erase key =>
    obtain ⟨flag, represents'⟩ := represents.erase key
    exact ⟨by simp only [HeapSwissMap.call, HeapView.call, flag], represents'⟩
  | reserve n => exact represents.reserve n
  | clear =>
    have inv := represents.inv
    refine ⟨rfl, ?_, represents.sameSlots, ?_⟩
    · exact heapInv_of_vacant inv.slots inv.mask (fun _ => rfl) rfl rfl
    · simp only [HeapSwissMap.call, HeapSwissMap.clear, HeapView.call]
      rw [inv.slots.growthBudget_eq, represents.sameSlots]

end Calls

/-- The finite-map reading of a call that returns: the map after it and what it
reports. -/
def HeapOp.apply [DecidableEq K] (M : K → Option V) :
    HeapOp K V → (K → Option V) × Bool × Option V
  | .insert key value | .emplace key value =>
    match M key with
    | some ex => (M, false, some ex)
    | none => (update M key (some value), true, some value)
  | .insertOrAssign key value =>
    (update M key (some value), (M key).isNone, some value)
  | .erase key => (update M key none, (M key).isSome, none)
  | .reserve _ => (M, true, none)
  | .clear => (fun _ => none, true, none)

/-- A run of calls against a finite map.  A call throws exactly if the table in front
of it asks for storage that is refused, and then changes nothing. -/
inductive MapRun [DecidableEq K] [Inhabited K] [Inhabited V] (hash : K → UInt64) :
    HeapSwissMap K V → (K → Option V) → List (Allocator × HeapOp K V) →
    List (Option (Bool × Option V)) → (K → Option V) → Prop where
  | nil (m : HeapSwissMap K V) (M : K → Option V) : MapRun hash m M [] [] M
  | threw {m : HeapSwissMap K V} {M M' : K → Option V} {a : Allocator} {op : HeapOp K V}
      {calls : List (Allocator × HeapOp K V)} {replies : List (Option (Bool × Option V))} :
      a.serves (m.request op) = false → MapRun hash m M calls replies M' →
      MapRun hash m M ((a, op) :: calls) (none :: replies) M'
  | returned {m : HeapSwissMap K V} {M M' : K → Option V} {a : Allocator} {op : HeapOp K V}
      {calls : List (Allocator × HeapOp K V)} {replies : List (Option (Bool × Option V))} :
      a.serves (m.request op) = true →
      MapRun hash (m.call hash a op).1 (op.apply M).1 calls replies M' →
      MapRun hash m M ((a, op) :: calls) (some (op.apply M).2 :: replies) M'

def HeapSwissMap.run [DecidableEq K] [Inhabited K] [Inhabited V] (hash : K → UInt64) :
    HeapSwissMap K V → List (Allocator × HeapOp K V) →
    HeapSwissMap K V × List (Option (Bool × Option V))
  | m, [] => (m, [])
  | m, (a, op) :: rest =>
    let called := m.call hash a op
    let later := called.1.run hash rest
    (later.1, called.2 :: later.2)

section Runs
variable {hash : K → UInt64} {m : HeapSwissMap K V} {view : HeapView K V}
variable [DecidableEq K]

def HeapView.roomRequest (view : HeapView K V) : Option Nat :=
  if view.growthLeft = 0 then some (view.nSlots * 2) else none

/-- The request of a call, as the view tells it. -/
def HeapView.request (view : HeapView K V) : HeapOp K V → Option Nat
  | .insert _ _ | .insertOrAssign _ _ | .emplace _ _ => view.roomRequest
  | .reserve n => if view.nSlots < roundPow2 n then some (roundPow2 n) else none
  | .erase _ | .clear => none

omit [DecidableEq K] in
theorem Represents.request (represents : Represents hash m view) (op : HeapOp K V) :
    m.request op = view.request op := by
  have double := represents.inv.slots.double_mod
  rw [represents.sameSlots] at double
  cases op <;>
    simp only [HeapSwissMap.request, HeapView.request, HeapView.roomRequest, double,
      represents.sameSlots, represents.sameGrowth]

section Refused
variable {a : Allocator}

omit [DecidableEq K] in
theorem HeapView.makeRoom_refused (refused : a.serves view.roomRequest = false) :
    view.makeRoom a = none := by
  unfold HeapView.roomRequest at refused
  unfold HeapView.makeRoom HeapView.rehash
  split at refused
  · rename_i spent
    have grants : a.grants (view.nSlots * 2) = false := refused
    simp [spent, grants]
  · cases refused

theorem HeapView.call_refused {op : HeapOp K V} (refused : a.serves (view.request op) = false) :
    view.call a op = (view, none) := by
  cases op with
  | insert key value =>
    rw [HeapView.call, HeapView.insert, HeapView.makeRoom_refused refused]
  | emplace key value =>
    rw [HeapView.call, HeapView.insert, HeapView.makeRoom_refused refused]
  | insertOrAssign key value =>
    rw [HeapView.call, HeapView.insertOrAssign, HeapView.makeRoom_refused refused]
  | erase key => cases refused
  | clear => cases refused
  | reserve n =>
    change a.serves (if view.nSlots < roundPow2 n then some (roundPow2 n) else none) = false at refused
    rw [HeapView.call, HeapView.reserve]
    split at refused
    · rename_i short
      have grants : a.grants (roundPow2 n) = false := refused
      simp [short, HeapView.rehash, grants]
    · cases refused

end Refused

section Granted
variable {a : Allocator}

omit [DecidableEq K] in
theorem HeapView.makeRoom_granted (granted : a.serves view.roomRequest = true) :
    ∃ view', view.makeRoom a = some view' ∧ view'.bindings = view.bindings := by
  unfold HeapView.roomRequest at granted
  unfold HeapView.makeRoom HeapView.rehash
  split at granted
  · rename_i spent
    have grants : a.grants (view.nSlots * 2) = true := granted
    rw [if_pos spent, if_pos grants]
    exact ⟨_, rfl, rfl⟩
  · rename_i room
    rw [if_neg room]
    exact ⟨view, rfl, rfl⟩

theorem HeapView.insert_granted (granted : a.serves view.roomRequest = true) (key : K) (value : V) :
    (view.insert a key value).2 = some ((HeapOp.insert key value).apply view.bindings).2 ∧
      (view.insert a key value).1.bindings =
        ((HeapOp.insert key value).apply view.bindings).1 := by
  obtain ⟨view', room, same⟩ := HeapView.makeRoom_granted granted
  rw [HeapView.insert, room, HeapOp.apply, ← same]
  cases bound : view'.bindings key <;> simp [bound, HeapView.put]

theorem HeapView.insertOrAssign_granted (granted : a.serves view.roomRequest = true) (key : K)
    (value : V) :
    (view.insertOrAssign a key value).2 =
        some ((HeapOp.insertOrAssign key value).apply view.bindings).2 ∧
      (view.insertOrAssign a key value).1.bindings =
        ((HeapOp.insertOrAssign key value).apply view.bindings).1 := by
  obtain ⟨view', room, same⟩ := HeapView.makeRoom_granted granted
  rw [HeapView.insertOrAssign, room, HeapOp.apply, ← same]
  cases bound : view'.bindings key <;> simp [bound, HeapView.put]

/-- A call of the view whose request is granted is a finite-map call. -/
theorem HeapView.call_granted {op : HeapOp K V} (granted : a.serves (view.request op) = true) :
    (view.call a op).2 = some (op.apply view.bindings).2 ∧
      (view.call a op).1.bindings = (op.apply view.bindings).1 := by
  cases op with
  | insert key value => exact HeapView.insert_granted granted key value
  | emplace key value => exact HeapView.insert_granted granted key value
  | insertOrAssign key value => exact HeapView.insertOrAssign_granted granted key value
  | erase key => exact ⟨rfl, rfl⟩
  | clear => exact ⟨rfl, rfl⟩
  | reserve n =>
    change a.serves (if view.nSlots < roundPow2 n then some (roundPow2 n) else none) = true at granted
    rw [HeapView.call, HeapView.reserve]
    split at granted
    · rename_i short
      have grants : a.grants (roundPow2 n) = true := granted
      rw [if_pos short, HeapView.rehash, if_pos grants]
      exact ⟨rfl, rfl⟩
    · rename_i enough
      rw [if_neg enough]
      exact ⟨rfl, rfl⟩

end Granted

variable [Inhabited K] [Inhabited V]

omit [DecidableEq K] in
theorem HeapInv.rehash_threw {M : K → Option V} (inv : HeapInv hash m M) (a : Allocator) (n : Nat)
    (threw : (m.rehash hash a n).2 = false) : (m.rehash hash a n).1 = m := by
  unfold HeapSwissMap.rehash at threw ⊢
  split at threw
  · rfl
  · rw [inv.freesEntries a] at threw
    cases threw

omit [DecidableEq K] in
theorem HeapInv.makeRoom_threw {M : K → Option V} (inv : HeapInv hash m M) (a : Allocator)
    (threw : (m.makeRoom hash a).2 = false) : (m.makeRoom hash a).1 = m := by
  unfold HeapSwissMap.makeRoom at threw ⊢
  by_cases spent : m.growthLeft = 0
  · rw [if_pos spent] at threw ⊢
    exact inv.rehash_threw a _ threw
  · rw [if_neg spent] at threw
    cases threw

theorem HeapInv.insert_threw {M : K → Option V} (inv : HeapInv hash m M) (a : Allocator) (key : K)
    (value : V) (threw : (m.insert hash a key value).2 = none) :
    (m.insert hash a key value).1 = m := by
  have kept := inv.makeRoom_threw a
  rw [HeapSwissMap.insert] at threw ⊢
  rcases made : m.makeRoom hash a with ⟨m', _ | _⟩
  · rw [made] at kept
    exact kept rfl
  · rw [made] at threw
    dsimp only at threw
    split at threw <;> cases threw

theorem HeapInv.insertOrAssign_threw {M : K → Option V} (inv : HeapInv hash m M) (a : Allocator)
    (key : K) (value : V) (threw : (m.insertOrAssign hash a key value).2 = none) :
    (m.insertOrAssign hash a key value).1 = m := by
  have kept := inv.makeRoom_threw a
  rw [HeapSwissMap.insertOrAssign] at threw ⊢
  rcases made : m.makeRoom hash a with ⟨m', _ | _⟩
  · rw [made] at kept
    exact kept rfl
  · rw [made] at threw
    dsimp only at threw
    split at threw <;> cases threw

/-- A call that throws leaves the table as it was. -/
theorem HeapInv.call_threw {M : K → Option V} (inv : HeapInv hash m M) (a : Allocator)
    {op : HeapOp K V} (threw : (m.call hash a op).2 = none) : (m.call hash a op).1 = m := by
  cases op with
  | insert key value => exact inv.insert_threw a key value threw
  | emplace key value => exact inv.insert_threw a key value threw
  | insertOrAssign key value => exact inv.insertOrAssign_threw a key value threw
  | erase key => cases threw
  | clear => cases threw
  | reserve n =>
    have refused : (m.reserve hash a n).2 = false := by
      cases returned : (m.reserve hash a n).2 with
      | false => rfl
      | true =>
        rw [HeapSwissMap.call, returned] at threw
        cases threw
    rw [HeapSwissMap.call]
    unfold HeapSwissMap.reserve at refused ⊢
    split at refused
    · rename_i short
      rw [if_pos short]
      exact inv.rehash_threw a _ refused
    · cases refused

theorem Represents.run (represents : Represents hash m view)
    (calls : List (Allocator × HeapOp K V)) :
    ∃ view', MapRun hash m view.bindings calls (m.run hash calls).2 view'.bindings ∧
      Represents hash (m.run hash calls).1 view' := by
  induction calls generalizing m view with
  | nil => exact ⟨view, .nil m _, represents⟩
  | cons call rest ih =>
    obtain ⟨a, op⟩ := call
    obtain ⟨reply, represents'⟩ := represents.call (a := a) op
    obtain ⟨view', later, final⟩ := ih represents'
    refine ⟨view', ?_, final⟩
    have asks := represents.request op
    rw [HeapSwissMap.run]
    cases served : a.serves (view.request op) with
    | false =>
      have threw := HeapView.call_refused served
      rw [threw] at later reply
      rw [represents.inv.call_threw a reply] at later ⊢
      rw [reply]
      exact .threw (by rw [asks, served]) later
    | true =>
      obtain ⟨returned, bindings⟩ := HeapView.call_granted served
      rw [bindings] at later
      rw [reply, returned]
      exact .returned (by rw [asks, served]) later

omit [DecidableEq K] in
theorem represents_construct (hash : K → UInt64) {a : Allocator} {n : Nat}
    {m : HeapSwissMap K V} (constructed : construct a n = some m) :
    Represents hash m ⟨fun _ => none, m.nSlots, m.growthLeft⟩ :=
  ⟨(heapInv_allocStorage hash (roundPow2_power n) constructed).1, rfl, rfl⟩

end Runs

/-- Every run from a constructed map is a run of a finite map, in which a call throws
exactly if it asks for storage that is refused, and keeps the table's books: the mirror
bytes equal the first sixteen, used bytes and growth left stay within seven eighths of the
slots, and some byte is `EMPTY`.  The growth left is counted modulo `2 ^ 64`, so a decrement
at zero would break the bound. -/
theorem heap_swiss_map_refines_finite_map [DecidableEq K] [Inhabited K] [Inhabited V]
    (hash : K → UInt64) (a : Allocator) (n : Nat) (m : HeapSwissMap K V)
    (constructed : construct a n = some m) (calls : List (Allocator × HeapOp K V)) :
    let final := (m.run hash calls).1
    ∃ M, MapRun hash m (fun _ => none) calls (m.run hash calls).2 M ∧
      (∀ k, final.find hash k = M k) ∧ final.size = keyCount M ∧
      (∀ i, i < 16 → final.ctrl (final.nSlots + i) = final.ctrl i) ∧
      usedBytes final.ctrl final.nSlots + final.growthLeft ≤ final.nSlots * 7 / 8 ∧
      (∃ i, i < final.nSlots ∧ final.ctrl i = emptyByte) ∧
      final.nSlots < 2 ^ 60 := by
  obtain ⟨view, ran, represents⟩ := (represents_construct hash constructed).run calls
  have inv := represents.inv
  exact ⟨view.bindings, ran, inv.find_eq, inv.size_eq, inv.mirrored, inv.budget,
    inv.exists_empty, inv.slots.small⟩

/-- An allocator that refuses only what no machine has, and takes back what has
bytes, as the default one does. -/
def roomyAllocator : Allocator where
  grants n := decide (n < 2 ^ 60)
  addressable _ granted := of_decide_eq_true granted
  releases n := decide (0 < n)
  takesBack _ bytes := decide_eq_true bytes

/-- Fifteen keys with one hash, of which the fifteenth makes the table grow, an
erase and an overwrite. -/
theorem heap_swiss_map_refines_finite_map_growing :
    let calls : List (Allocator × HeapOp Nat Nat) :=
      (List.range 15).map (fun k => (roomyAllocator, .insert k (10 * k))) ++
        [(roomyAllocator, .erase 3), (roomyAllocator, .insertOrAssign 7 1)]
    ∃ m, construct roomyAllocator 0 = some m ∧
      ∃ M, MapRun (fun _ => 13) m (fun _ => none) calls (m.run (fun _ => 13) calls).2 M ∧
        (m.run (fun _ => 13) calls).1.nSlots = 32 ∧ M 3 = none ∧ M 7 = some 1 ∧
        M 14 = some 140 := by
  intro calls
  obtain ⟨m, constructed⟩ : ∃ m : HeapSwissMap Nat Nat, construct roomyAllocator 0 = some m :=
    ⟨_, rfl⟩
  obtain ⟨M, ran, lookups, _⟩ :=
    heap_swiss_map_refines_finite_map (fun _ => 13) roomyAllocator 0 m constructed calls
  refine ⟨m, constructed, M, ran, ?_⟩
  rw [← lookups 3, ← lookups 7, ← lookups 14]
  cases constructed
  decide +kernel

end Micron.Swiss
