import Micron.Swiss.Table

/-!
# The stack Swiss map of `maps/swiss.hpp`

`N` slots and a probe window of `NH` slots are template parameters and stay
parameters here.  Every operation walks the offsets `0, 16, ...` below `NH`.
A group that does not wrap is compared sixteen bytes at a time, also past the
window; a group that wraps is walked byte by byte inside the window.
-/

set_option autoImplicit false

namespace Micron.Swiss

open List Function

structure StackSwissMap (K V : Type) where
  ctrl : Nat → Nat
  entries : Nat → SwissEntry K V
  size : Nat

section Model
variable {K V : Type}

def StackSwissMap.empty [Inhabited K] [Inhabited V] : StackSwissMap K V where
  ctrl := fun _ => emptyByte
  entries := fun _ => ⟨default, default⟩
  size := 0

def bIndex (N : Nat) (h : UInt64) : Nat := h1 h % N

/-- `for ( usize j = 0; j < 16 && i + j < NH; ++j )`. -/
def scalarOffsets (NH i : Nat) : List Nat := List.range (min 16 (NH - i))

inductive Examined where
  | found (slot : Nat)
  | stop
  | next

section Probe
variable [DecidableEq K] (N NH : Nat) (m : StackSwissMap K V)

def StackSwissMap.examineGroup (tag : Nat) (key : K) (groupStart : Nat) : Examined :=
  match (matchByte m.ctrl tag groupStart).find?
      fun j => decide ((m.entries (groupStart + j)).key = key) with
  | some j => .found (groupStart + j)
  | none => if matchEmpty m.ctrl groupStart = [] then .next else .stop

def StackSwissMap.examineScalar (tag : Nat) (key : K) (start i : Nat) : List Nat → Examined
  | [] => .next
  | j :: rest =>
    let probe := (start + i + j) % N
    if m.ctrl probe == tag && decide ((m.entries probe).key = key) then .found probe
    else if m.ctrl probe == emptyByte then .stop
    else examineScalar tag key start i rest

/-- The probe loop that `find`, `erase` and the first pass of `insert_or_assign`
share. -/
def StackSwissMap.locateFrom (tag : Nat) (key : K) (start : Nat) : List Nat → Option Nat
  | [] => none
  | i :: rest =>
    let groupStart := (start + i) % N
    let examined :=
      if groupStart + 16 ≤ N then m.examineGroup tag key groupStart
      else m.examineScalar N tag key start i (scalarOffsets NH i)
    match examined with
    | .found slot => some slot
    | .stop => none
    | .next => locateFrom tag key start rest

def StackSwissMap.locate (hash : K → UInt64) (key : K) : Option Nat :=
  m.locateFrom N NH (h2 (hash key)) key (bIndex N (hash key)) (groupOffsets NH)

def StackSwissMap.freeFrom (m : StackSwissMap K V) (start : Nat) : List Nat → Option Nat
  | [] => none
  | i :: rest =>
    let groupStart := (start + i) % N
    if groupStart + 16 ≤ N then
      match matchEmptyOrDeleted m.ctrl groupStart with
      | lowest :: _ => some (groupStart + lowest)
      | [] => m.freeFrom start rest
    else
      match (scalarOffsets NH i).find? fun j =>
          m.ctrl ((start + i + j) % N) == emptyByte ||
            m.ctrl ((start + i + j) % N) == deletedByte with
      | some j => some ((start + i + j) % N)
      | none => m.freeFrom start rest

end Probe

section Operations
variable [DecidableEq K] (N NH : Nat) (hash : K → UInt64) (m : StackSwissMap K V)

def StackSwissMap.find (key : K) : Option V :=
  (m.locate N NH hash key).map fun slot => (m.entries slot).value

/-- Control byte, entry and size of a newly stored key. -/
def StackSwissMap.store (m : StackSwissMap K V) (probe tag : Nat) (key : K) (value : V) :
    StackSwissMap K V where
  ctrl := update m.ctrl probe tag
  entries := update m.entries probe ⟨key, value⟩
  size := m.size + 1

/-- The tail of `__insert_impl`, `insert_or_assign` and `emplace`: the capacity
check and the pass for a free slot. -/
def StackSwissMap.placeNew (key : K) (value : V) : StackSwissMap K V × Bool × Option V :=
  if N ≤ m.size then (m, false, none)
  else
    match m.freeFrom N NH (bIndex N (hash key)) (groupOffsets NH) with
    | none => (m, false, none)
    | some probe => (m.store probe (h2 (hash key)) key value, true, some value)

/-- `insert` and `emplace`: `{false, existing}` on a stored key. -/
def StackSwissMap.insert (key : K) (value : V) : StackSwissMap K V × Bool × Option V :=
  match m.find N NH hash key with
  | some existing => (m, false, some existing)
  | none => m.placeNew N NH hash key value

def StackSwissMap.emplace (key : K) (value : V) : StackSwissMap K V × Bool × Option V :=
  m.insert N NH hash key value

def StackSwissMap.insertOrAssign (key : K) (value : V) : StackSwissMap K V × Bool × Option V :=
  match m.locate N NH hash key with
  | some probe =>
    ({ m with entries := update m.entries probe ⟨(m.entries probe).key, value⟩ },
      false, some value)
  | none => m.placeNew N NH hash key value

def StackSwissMap.erase (key : K) : StackSwissMap K V × Bool :=
  match m.locate N NH hash key with
  | some probe =>
    ({ m with ctrl := update m.ctrl probe deletedByte, size := m.size - 1 }, true)
  | none => (m, false)

def StackSwissMap.clear (m : StackSwissMap K V) : StackSwissMap K V :=
  { m with ctrl := fun _ => emptyByte, size := 0 }

end Operations

inductive SwissOp (K V : Type) where
  | insert (key : K) (value : V)
  | insertOrAssign (key : K) (value : V)
  | emplace (key : K) (value : V)
  | erase (key : K)
  | clear

/-- One call with the pair it reports; `erase` reports its flag. -/
def StackSwissMap.call [DecidableEq K] (N NH : Nat) (hash : K → UInt64) (m : StackSwissMap K V) :
    SwissOp K V → StackSwissMap K V × Bool × Option V
  | .insert key value => m.insert N NH hash key value
  | .insertOrAssign key value => m.insertOrAssign N NH hash key value
  | .emplace key value => m.emplace N NH hash key value
  | .erase key => ((m.erase N NH hash key).1, (m.erase N NH hash key).2, none)
  | .clear => (m.clear, true, none)

end Model

/-!
## The stack Swiss map is a finite map

Lookups and the pass for a free slot walk one probe plan, so an entry written
at the first free slot of the plan is reached by every later lookup: no write
but `clear` makes a slot empty again.  `SpecStep` is the finite-map reading of
a call together with what the call reports.
-/

open Micron.Lib

variable {K V : Type}

def groupPlan (N NH start i : Nat) : List (List Nat) :=
  if (start + i) % N + 16 ≤ N then [(List.range 16).map fun j => (start + i) % N + j]
  else ((scalarOffsets NH i).map fun j => (start + i + j) % N).map fun slot => [slot]

def probePlan (N NH start : Nat) : List (List Nat) :=
  (groupOffsets NH).flatMap (groupPlan N NH start)

theorem mem_probePlan_lt {N NH start slot : Nat} (positive : 0 < N)
    (member : slot ∈ (probePlan N NH start).flatten) : slot < N := by
  simp only [probePlan, groupPlan, mem_flatten, mem_flatMap] at member
  obtain ⟨group, ⟨i, _, inPlan⟩, inGroup⟩ := member
  split at inPlan
  · rename_i inside
    simp only [mem_singleton] at inPlan
    subst inPlan
    simp only [mem_map, mem_range] at inGroup
    omega
  · simp only [mem_map] at inPlan
    obtain ⟨slot', ⟨j, _, rfl⟩, rfl⟩ := inPlan
    simp only [mem_singleton] at inGroup
    subst inGroup
    exact Nat.mod_lt _ positive

section Plan
variable (N NH : Nat) (m : StackSwissMap K V)

theorem examineScalar_eq [DecidableEq K] (tag : Nat) (key : K) (start i : Nat) :
    ∀ js : List Nat, m.examineScalar N tag key start i js =
      match (js.map fun j => (start + i + j) % N).find?
          (fun slot => hits m.ctrl m.entries tag key slot || isEmptySlot m.ctrl slot) with
      | some slot => if hits m.ctrl m.entries tag key slot then .found slot else .stop
      | none => .next := by
  intro js
  induction js with
  | nil => rfl
  | cons j rest ih =>
    rw [StackSwissMap.examineScalar, map_cons]
    cases hit : hits m.ctrl m.entries tag key ((start + i + j) % N) with
    | true =>
      have hit' := hit
      rw [hits] at hit'
      simp [hit, hit']
    | false =>
      have hit' := hit
      rw [hits] at hit'
      cases never : isEmptySlot m.ctrl ((start + i + j) % N) with
      | true =>
        have never' := never
        rw [isEmptySlot] at never'
        simp [hit, hit', never, never']
      | false =>
        have never' := never
        rw [isEmptySlot] at never'
        simp only [hit', never', Bool.false_eq_true, if_false, ih]
        rw [find?_cons_of_neg (by rw [hit, never]; simp)]

theorem locateFrom_eq_search [DecidableEq K] (tag : Nat) (key : K) (start : Nat) :
    ∀ offsets : List Nat, m.locateFrom N NH tag key start offsets =
      search (hits m.ctrl m.entries tag key) (isEmptySlot m.ctrl) (offsets.flatMap (groupPlan N NH start)) := by
  intro offsets
  induction offsets with
  | nil => rfl
  | cons i rest ih =>
    rw [StackSwissMap.locateFrom, flatMap_cons, groupPlan]
    by_cases inside : (start + i) % N + 16 ≤ N
    · simp only [if_pos inside]
      rw [singleton_append, search, find?_map, StackSwissMap.examineGroup,
        matchByte, matchBits_find?]
      have sameHit : (hits m.ctrl m.entries tag key ∘ fun j => (start + i) % N + j) =
          fun j => m.ctrl ((start + i) % N + j) == tag &&
            decide ((m.entries ((start + i) % N + j)).key = key) := rfl
      rw [sameHit]
      cases (List.range 16).find? fun j => m.ctrl ((start + i) % N + j) == tag &&
          decide ((m.entries ((start + i) % N + j)).key = key) with
      | some j => rfl
      | none =>
        have anyEq : (((List.range 16).map fun j => (start + i) % N + j).any (isEmptySlot m.ctrl)) =
            (List.range 16).any fun j => m.ctrl ((start + i) % N + j) == emptyByte := by
          rfl
        simp only [Option.map_none, anyEq]
        by_cases never : matchEmpty m.ctrl ((start + i) % N) = []
        · have used : ((List.range 16).any
              fun j => m.ctrl ((start + i) % N + j) == emptyByte) = false := by
            rw [← Bool.not_eq_true]
            exact fun some => matchBits_any.mpr some never
          rw [if_pos never, used]
          exact ih
        · rw [if_neg never, matchBits_any.mp never]
          rfl
    · simp only [if_neg inside]
      rw [search_singles, examineScalar_eq]
      cases ((scalarOffsets NH i).map fun j => (start + i + j) % N).find?
          fun slot => hits m.ctrl m.entries tag key slot || isEmptySlot m.ctrl slot with
      | none => exact ih
      | some slot =>
        simp only
        cases hits m.ctrl m.entries tag key slot <;> rfl

theorem freeFrom_eq_find? (start : Nat) : ∀ offsets : List Nat,
    m.freeFrom N NH start offsets =
      (offsets.flatMap (groupPlan N NH start)).flatten.find? (isFreeSlot m.ctrl) := by
  intro offsets
  induction offsets with
  | nil => rfl
  | cons i rest ih =>
    rw [StackSwissMap.freeFrom, flatMap_cons, flatten_append, find?_append,
      groupPlan]
    by_cases inside : (start + i) % N + 16 ≤ N
    · simp only [if_pos inside]
      rw [flatten_cons, flatten_nil, append_nil, find?_map]
      have head := matchBits_head? m.ctrl (fun c => c == emptyByte || c == deletedByte)
        ((start + i) % N)
      have sameFree : (isFreeSlot m.ctrl ∘ fun j => (start + i) % N + j) =
          fun j => m.ctrl ((start + i) % N + j) == emptyByte ||
            m.ctrl ((start + i) % N + j) == deletedByte := rfl
      rw [sameFree, ← head]
      rw [← matchEmptyOrDeleted]
      cases matchEmptyOrDeleted m.ctrl ((start + i) % N) with
      | nil => exact ih
      | cons lowest bits => rfl
    · simp only [if_neg inside]
      rw [← flatMap_def, flatMap_singleton', find?_map]
      have sameFree : (isFreeSlot m.ctrl ∘ fun j => (start + i + j) % N) =
          fun j => m.ctrl ((start + i + j) % N) == emptyByte ||
            m.ctrl ((start + i + j) % N) == deletedByte := rfl
      rw [sameFree]
      cases (scalarOffsets NH i).find? fun j => m.ctrl ((start + i + j) % N) == emptyByte ||
          m.ctrl ((start + i + j) % N) == deletedByte with
      | none => exact ih
      | some j => rfl

end Plan

/-- A new key has no place: all `N` slots are taken, or no slot of its probe window
is free. -/
def StackSwissMap.Refuses (N NH : Nat) (hash : K → UInt64) (m : StackSwissMap K V) (key : K) :
    Prop :=
  N ≤ m.size ∨ ∀ slot ∈ (probePlan N NH (bIndex N (hash key))).flatten, isFreeSlot m.ctrl slot = false

structure StackInv (N NH : Nat) (hash : K → UInt64) (m : StackSwissMap K V)
    (M : K → Option V) : Prop where
  table : TableInv N (fun k => probePlan N NH (bIndex N (hash k))) hash m.ctrl m.entries M
  counted : m.size = load (cell m.ctrl m.entries) N

section Inv
variable {N NH : Nat} {hash : K → UInt64} {m : StackSwissMap K V} {M : K → Option V}

theorem stackInv_of_empty (positive : 0 < N) (vacant : ∀ i, m.ctrl i = emptyByte)
    (none_stored : m.size = 0) : StackInv N NH hash m (fun _ => none) := by
  refine ⟨tableInv_of_vacant (fun _ _ => mem_probePlan_lt positive) vacant, ?_⟩
  rw [none_stored, load_eq_zero fun i _ => cell_of_vacant vacant i]

variable [DecidableEq K]

theorem locate_eq_search (key : K) : m.locate N NH hash key =
    search (hits m.ctrl m.entries (h2 (hash key)) key) (isEmptySlot m.ctrl)
      (probePlan N NH (bIndex N (hash key))) :=
  locateFrom_eq_search ..

theorem StackInv.locate_iff (inv : StackInv N NH hash m M) (key : K) (slot : Nat) :
    m.locate N NH hash key = some slot ↔
      slot < N ∧ ∃ v, cell m.ctrl m.entries slot = some (key, v) := by
  rw [locate_eq_search]
  exact inv.table.search_iff key slot

theorem StackInv.locate_none (inv : StackInv N NH hash m M) (key : K) :
    m.locate N NH hash key = none ↔ M key = none := by
  rw [locate_eq_search]
  exact inv.table.search_none key

theorem StackInv.find_eq (inv : StackInv N NH hash m M) (key : K) :
    m.find N NH hash key = M key := by
  rw [StackSwissMap.find, locate_eq_search]
  exact inv.table.lookup_eq key

theorem StackInv.store (inv : StackInv N NH hash m M) {key : K} {probe : Nat}
    (value : V) (unbound : M key = none)
    (found : m.freeFrom N NH (bIndex N (hash key)) (groupOffsets NH) = some probe) :
    StackInv N NH hash (m.store probe (h2 (hash key)) key value)
      (update M key (some value)) := by
  rw [freeFrom_eq_find?] at found
  have free := find?_some found
  have below := inv.table.planned key probe (mem_of_find?_eq_some found)
  refine ⟨inv.table.store value unbound found, ?_⟩
  simp only [StackSwissMap.store]
  rw [cell_store, load_update_fill _ below (cell_of_free free), ← inv.counted]

/-- The capacity check and the second pass: stored, or refused unchanged. -/
theorem StackInv.placeNew (inv : StackInv N NH hash m M) {key : K} (value : V)
    (unbound : M key = none) :
    (m.Refuses N NH hash key ∧ m.placeNew N NH hash key value = (m, false, none)) ∨
      ¬ m.Refuses N NH hash key ∧
        ∃ m', m.placeNew N NH hash key value = (m', true, some value) ∧
          StackInv N NH hash m' (update M key (some value)) := by
  unfold StackSwissMap.placeNew
  by_cases full : N ≤ m.size
  · rw [if_pos full]
    exact .inl ⟨.inl full, rfl⟩
  · rw [if_neg full]
    cases found : m.freeFrom N NH (bIndex N (hash key)) (groupOffsets NH) with
    | none =>
      refine .inl ⟨.inr ?_, rfl⟩
      rw [freeFrom_eq_find?] at found
      intro slot inPlan
      exact Bool.eq_false_iff.mpr (find?_eq_none.mp found slot inPlan)
    | some probe =>
      refine .inr ⟨?_, _, rfl, inv.store value unbound found⟩
      rw [freeFrom_eq_find?] at found
      rintro (noRoom | noneFree)
      · exact full noRoom
      · have free := find?_some found
        rw [noneFree probe (mem_of_find?_eq_some found)] at free
        cases free

theorem StackInv.assign (inv : StackInv N NH hash m M) {key : K} {slot : Nat} {old : V} (value : V)
    (below : slot < N) (at_slot : cell m.ctrl m.entries slot = some (key, old)) :
    StackInv N NH hash
      { m with entries := update m.entries slot ⟨(m.entries slot).key, value⟩ }
      (update M key (some value)) := by
  refine ⟨inv.table.assign value below at_slot, ?_⟩
  rw [cell_assign value at_slot, load_update_taken _ (by rw [at_slot]; rfl)]
  exact inv.counted

theorem StackInv.delete (inv : StackInv N NH hash m M) {key : K} {slot : Nat} {v : V}
    (below : slot < N) (at_slot : cell m.ctrl m.entries slot = some (key, v)) :
    StackInv N NH hash
      { m with ctrl := update m.ctrl slot deletedByte, size := m.size - 1 }
      (update M key none) := by
  have freed := load_update_free below
    (show (cell m.ctrl m.entries slot).isSome by rw [at_slot]; rfl)
  have counted := inv.counted
  refine ⟨inv.table.delete below at_slot, ?_⟩
  simp only [cell_delete]
  omega

end Inv

/-! ## Calls as finite-map steps -/

/-- What a call reports on a finite map and what it makes of the map.  A new key is
stored, or refused where the table has no place for it; a refusal reports
`{false, null}` and changes nothing. -/
inductive SpecStep [DecidableEq K] (refuses : K → Prop) (M : K → Option V) :
    SwissOp K V → Bool × Option V → (K → Option V) → Prop where
  | insertPresent (k : K) (v w : V) : M k = some w →
      SpecStep refuses M (.insert k v) (false, some w) M
  | insertNew (k : K) (v : V) : M k = none → ¬ refuses k →
      SpecStep refuses M (.insert k v) (true, some v) (update M k (some v))
  | insertRefused (k : K) (v : V) : M k = none → refuses k →
      SpecStep refuses M (.insert k v) (false, none) M
  | emplacePresent (k : K) (v w : V) : M k = some w →
      SpecStep refuses M (.emplace k v) (false, some w) M
  | emplaceNew (k : K) (v : V) : M k = none → ¬ refuses k →
      SpecStep refuses M (.emplace k v) (true, some v) (update M k (some v))
  | emplaceRefused (k : K) (v : V) : M k = none → refuses k →
      SpecStep refuses M (.emplace k v) (false, none) M
  | assignPresent (k : K) (v w : V) : M k = some w →
      SpecStep refuses M (.insertOrAssign k v) (false, some v) (update M k (some v))
  | assignNew (k : K) (v : V) : M k = none → ¬ refuses k →
      SpecStep refuses M (.insertOrAssign k v) (true, some v) (update M k (some v))
  | assignRefused (k : K) (v : V) : M k = none → refuses k →
      SpecStep refuses M (.insertOrAssign k v) (false, none) M
  | erase (k : K) :
      SpecStep refuses M (.erase k) ((M k).isSome, none) (update M k none)
  | clear : SpecStep refuses M .clear (true, none) (fun _ => none)

/-- Apart from `erase`, only a call that changed nothing reports `{false, null}`. -/
theorem SpecStep.of_refused [DecidableEq K] {refuses : K → Prop} {M M' : K → Option V}
    {op : SwissOp K V} {report : Bool × Option V} (step : SpecStep refuses M op report M')
    (refused : report = (false, none)) (notErase : ∀ k, op ≠ .erase k) : M' = M := by
  cases step with
  | insertRefused => rfl
  | emplaceRefused => rfl
  | assignRefused => rfl
  | insertPresent => rfl
  | emplacePresent => rfl
  | insertNew => cases refused
  | emplaceNew => cases refused
  | assignNew => cases refused
  | assignPresent => cases refused
  | erase key => exact absurd rfl (notErase key)
  | clear => cases refused

/-- A run of calls with their reports against a finite map; the table in front of a
call says which keys it has no place for. -/
inductive SpecRun [DecidableEq K] (N NH : Nat) (hash : K → UInt64) :
    StackSwissMap K V → (K → Option V) → List (SwissOp K V) → List (Bool × Option V) →
    (K → Option V) → Prop where
  | nil (m : StackSwissMap K V) (M : K → Option V) : SpecRun N NH hash m M [] [] M
  | cons {m : StackSwissMap K V} {M M' M'' : K → Option V} {op : SwissOp K V}
      {ops : List (SwissOp K V)} {report : Bool × Option V} {reports : List (Bool × Option V)} :
      SpecStep (m.Refuses N NH hash) M op report M' →
      SpecRun N NH hash (m.call N NH hash op).1 M' ops reports M'' →
      SpecRun N NH hash m M (op :: ops) (report :: reports) M''

def StackSwissMap.run [DecidableEq K] (N NH : Nat) (hash : K → UInt64) :
    StackSwissMap K V → List (SwissOp K V) → StackSwissMap K V × List (Bool × Option V)
  | m, [] => (m, [])
  | m, op :: rest =>
    let called := m.call N NH hash op
    let later := called.1.run N NH hash rest
    (later.1, called.2 :: later.2)

section Runs
variable [DecidableEq K] {N NH : Nat} {hash : K → UInt64} {m : StackSwissMap K V}
  {M : K → Option V}

theorem StackInv.insert_step (inv : StackInv N NH hash m M) (key : K) (value : V) :
    (∃ w, M key = some w ∧ m.insert N NH hash key value = (m, false, some w)) ∨
      (M key = none ∧ m.Refuses N NH hash key ∧
        m.insert N NH hash key value = (m, false, none)) ∨
      (M key = none ∧ ¬ m.Refuses N NH hash key ∧
        ∃ m', m.insert N NH hash key value = (m', true, some value) ∧
          StackInv N NH hash m' (update M key (some value))) := by
  unfold StackSwissMap.insert
  rw [inv.find_eq]
  cases bound : M key with
  | some w => exact .inl ⟨w, rfl, rfl⟩
  | none =>
    rcases inv.placeNew value bound with ⟨full, refused⟩ | ⟨placed, m', stored, inv'⟩
    · exact .inr (.inl ⟨rfl, full, refused⟩)
    · exact .inr (.inr ⟨rfl, placed, m', stored, inv'⟩)

theorem StackInv.call (inv : StackInv N NH hash m M) (positive : 0 < N) (op : SwissOp K V) :
    ∃ M', SpecStep (m.Refuses N NH hash) M op (m.call N NH hash op).2 M' ∧
      StackInv N NH hash (m.call N NH hash op).1 M' := by
  cases op with
  | insert key value =>
    rw [StackSwissMap.call]
    rcases inv.insert_step key value with ⟨w, bound, eq⟩ | ⟨unbound, full, eq⟩ |
      ⟨unbound, placed, m', eq, inv'⟩
    · rw [eq]
      exact ⟨M, .insertPresent key value w bound, inv⟩
    · rw [eq]
      exact ⟨M, .insertRefused key value unbound full, inv⟩
    · rw [eq]
      exact ⟨_, .insertNew key value unbound placed, inv'⟩
  | emplace key value =>
    rw [StackSwissMap.call, StackSwissMap.emplace]
    rcases inv.insert_step key value with ⟨w, bound, eq⟩ | ⟨unbound, full, eq⟩ |
      ⟨unbound, placed, m', eq, inv'⟩
    · rw [eq]
      exact ⟨M, .emplacePresent key value w bound, inv⟩
    · rw [eq]
      exact ⟨M, .emplaceRefused key value unbound full, inv⟩
    · rw [eq]
      exact ⟨_, .emplaceNew key value unbound placed, inv'⟩
  | insertOrAssign key value =>
    rw [StackSwissMap.call, StackSwissMap.insertOrAssign]
    cases found : m.locate N NH hash key with
    | some slot =>
      obtain ⟨below, old, at_slot⟩ := (inv.locate_iff key slot).mp found
      have bound := inv.table.held.sound slot key old below at_slot
      exact ⟨_, .assignPresent key value old bound, inv.assign value below at_slot⟩
    | none =>
      have unbound := (inv.locate_none key).mp found
      rcases inv.placeNew value unbound with ⟨full, refused⟩ | ⟨placed, m', stored, inv'⟩
      · simp only [refused]
        exact ⟨M, .assignRefused key value unbound full, inv⟩
      · simp only [stored]
        exact ⟨_, .assignNew key value unbound placed, inv'⟩
  | erase key =>
    rw [StackSwissMap.call, StackSwissMap.erase]
    cases found : m.locate N NH hash key with
    | some slot =>
      obtain ⟨below, v, at_slot⟩ := (inv.locate_iff key slot).mp found
      have step : SpecStep (m.Refuses N NH hash) M (.erase key) ((M key).isSome, none)
          (update M key none) := .erase key
      rw [inv.table.held.sound slot key v below at_slot] at step
      exact ⟨_, step, inv.delete below at_slot⟩
    | none =>
      have unbound := (inv.locate_none key).mp found
      have step : SpecStep (m.Refuses N NH hash) M (.erase key) ((M key).isSome, none)
          (update M key none) := .erase key
      rw [unbound, update_eq_self_iff.mpr unbound.symm] at step
      exact ⟨M, step, inv⟩
  | clear =>
    exact ⟨_, .clear, stackInv_of_empty positive (fun _ => rfl) rfl⟩

theorem StackInv.run (inv : StackInv N NH hash m M) (positive : 0 < N)
    (ops : List (SwissOp K V)) :
    ∃ M', SpecRun N NH hash m M ops (m.run N NH hash ops).2 M' ∧
      StackInv N NH hash (m.run N NH hash ops).1 M' := by
  induction ops generalizing m M with
  | nil => exact ⟨M, .nil m M, inv⟩
  | cons op rest ih =>
    obtain ⟨M', step, inv'⟩ := inv.call positive op
    obtain ⟨M'', later, inv''⟩ := ih inv'
    exact ⟨M'', .cons step later, inv''⟩

end Runs

/-- Every run of the five operations is a run of a finite map, where a new key is
refused exactly if it has no place: lookups read the map, no key sits in two slots, the size
counts the findable keys, and a call that reports `{false, null}` leaves every lookup as it
was. -/
theorem stack_swiss_map_refines_finite_map [DecidableEq K] [Inhabited K] [Inhabited V]
    (N NH : Nat) (hash : K → UInt64) (sixteen : 16 ≤ N) (multiple : N % 16 = 0)
    (_window : NH ≤ N) (ops : List (SwissOp K V)) :
    ∃ M, SpecRun N NH hash StackSwissMap.empty (fun _ => none) ops
        ((StackSwissMap.empty : StackSwissMap K V).run N NH hash ops).2 M ∧
      let m := ((StackSwissMap.empty : StackSwissMap K V).run N NH hash ops).1
      (∀ k, m.find N NH hash k = M k) ∧
      (∀ i j, i < N → j < N → occupiedByte (m.ctrl i) = true → occupiedByte (m.ctrl j) = true →
        (m.entries i).key = (m.entries j).key → i = j) ∧
      m.size = keyCount (fun k => m.find N NH hash k) ∧
      ∀ op, (m.call N NH hash op).2 = (false, none) → (∀ k, op ≠ .erase k) →
        ∀ k, (m.call N NH hash op).1.find N NH hash k = m.find N NH hash k := by
  have positive : 0 < N := by omega
  have initial : StackInv N NH hash (StackSwissMap.empty : StackSwissMap K V) (fun _ => none) :=
    stackInv_of_empty positive (fun _ => rfl) rfl
  obtain ⟨M, ran, inv⟩ := initial.run positive ops
  have lookups := inv.find_eq
  refine ⟨M, ran, lookups, ?_, ?_, ?_⟩
  · intro i j belowI belowJ takenI takenJ same
    exact inv.table.held.single i j _ _ _ belowI belowJ
      (cell_eq_some_iff.mpr ⟨takenI, same, rfl⟩) (cell_eq_some_iff.mpr ⟨takenJ, rfl, rfl⟩)
  · rw [inv.counted, ← inv.table.held.keyCount_eq]
    congr 1
    funext k
    exact (lookups k).symm
  · intro op refused notErase k
    obtain ⟨M', step, inv'⟩ := inv.call positive op
    rw [inv'.find_eq, lookups, step.of_refused refused notErase]

/-- Three keys with one home slot near the end of the table, a window of twenty
slots, an overwrite and an erase. -/
theorem stack_swiss_map_refines_finite_map_wrapping : ∃ M,
    SpecRun 32 20 (fun _ => 28) StackSwissMap.empty (fun _ => none)
      [.insert 1 10, .insert 2 20, .insert 2 21, .erase 1, .insertOrAssign 3 30]
      ((StackSwissMap.empty : StackSwissMap Nat Nat).run 32 20 (fun _ => 28)
        [.insert 1 10, .insert 2 20, .insert 2 21, .erase 1, .insertOrAssign 3 30]).2 M ∧
    M 2 = some 20 := by
  obtain ⟨M, ran, lookups, _⟩ := stack_swiss_map_refines_finite_map 32 20
    (fun _ : Nat => 28) (by decide) (by decide) (by decide)
    [.insert 1 10, .insert 2 20, .insert 2 21, .erase 1, .insertOrAssign 3 30]
  refine ⟨M, ran, ?_⟩
  rw [← lookups 2]
  decide

end Micron.Swiss
