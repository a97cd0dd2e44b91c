import Mathlib.Data.Nat.Bitwise
import Micron.Lib.GroupProbe
import Micron.Lib.SlotTable

/-!
# Swiss-table control bytes

The byte constants, hash split and 16-byte group masks that `swiss.hpp` and
`heap_swiss.hpp` share.  A `__mask` is modelled by the ascending list of its
set bits: `any` is non-emptiness, `lowest` the head and `clear_lowest` the
tail.
-/

set_option autoImplicit false

namespace Micron.Swiss

open Function

def emptyByte : Nat := 0xFF
def deletedByte : Nat := 0xFE
def sentinel : Nat := 0x80
def groupWidth : Nat := 16

structure SwissEntry (K V : Type) where
  key : K
  value : V

/-- The 7-bit tag of a hash, kept off the two reserved bytes. -/
def h2 (h : UInt64) : Nat :=
  let v := (h.toNat >>> 40) &&& 0x7F
  let c := v ||| sentinel
  if deletedByte ≤ c then c - 2 else c

def h1 (h : UInt64) : Nat := h.toNat

def occupiedByte (c : Nat) : Bool := c != emptyByte && c != deletedByte

def matchBits (ctrl : Nat → Nat) (p : Nat → Bool) (ind : Nat) : List Nat :=
  (List.range groupWidth).filter fun i => p (ctrl (ind + i))

def matchByte (ctrl : Nat → Nat) (b ind : Nat) : List Nat := matchBits ctrl (· == b) ind

def matchEmpty (ctrl : Nat → Nat) (ind : Nat) : List Nat := matchBits ctrl (· == emptyByte) ind

def matchEmptyOrDeleted (ctrl : Nat → Nat) (ind : Nat) : List Nat :=
  matchBits ctrl (fun c => c == emptyByte || c == deletedByte) ind

/-- The offsets `0, 16, ...` below the length of a walk. -/
def groupOffsets (n : Nat) : List Nat :=
  (List.range ((n + 15) / 16)).map fun g => 16 * g

theorem h2_lt (h : UInt64) : h2 h < deletedByte := by
  have low : (h.toNat >>> 40) &&& 0x7F < 2 ^ 8 :=
    lt_of_le_of_lt Nat.and_le_right (by decide)
  have tag : ((h.toNat >>> 40) &&& 0x7F) ||| sentinel < 2 ^ 8 :=
    Nat.or_lt_two_pow low (by decide)
  simp only [h2]
  split
  · rw [deletedByte]
    omega
  · omega

theorem occupiedByte_h2 (h : UInt64) : occupiedByte (h2 h) = true := by
  have below := h2_lt h
  simp only [occupiedByte, emptyByte, deletedByte, Bool.and_eq_true, bne_iff_ne] at below ⊢
  omega

theorem matchBits_any {ctrl : Nat → Nat} {p : Nat → Bool} {ind : Nat} :
    (matchBits ctrl p ind ≠ []) ↔
      ((List.range 16).any fun j => p (ctrl (ind + j))) = true := by
  simp [matchBits, groupWidth]

theorem matchBits_find? (ctrl : Nat → Nat) (p q : Nat → Bool) (ind : Nat) :
    (matchBits ctrl p ind).find? q =
      (List.range 16).find? fun j => p (ctrl (ind + j)) && q j := by
  simp [matchBits, groupWidth, List.find?_filter]

theorem matchBits_head? (ctrl : Nat → Nat) (p : Nat → Bool) (ind : Nat) :
    (matchBits ctrl p ind).head? = (List.range 16).find? fun j => p (ctrl (ind + j)) := by
  rw [matchBits, List.head?_filter]
  rfl

/-!
## Tables of control bytes and entries

The two Swiss maps differ in the groups they probe and share the rest: a byte
that is neither `EMPTY` nor `DELETED` is the tag of the entry in its slot, and
a lookup of a stored key comes to its slot before it meets a group with an
`EMPTY` byte.  `TableInv` says so for an arbitrary probe plan.
-/

open Micron.Lib

variable {K V : Type}

section Slots
variable (ctrl : Nat → Nat) (entries : Nat → SwissEntry K V)

def isEmptySlot (slot : Nat) : Bool := ctrl slot == emptyByte

def isFreeSlot (slot : Nat) : Bool := ctrl slot == emptyByte || ctrl slot == deletedByte

def hits [DecidableEq K] (tag : Nat) (key : K) (slot : Nat) : Bool :=
  ctrl slot == tag && decide ((entries slot).key = key)

def cell (i : Nat) : Option (K × V) :=
  if occupiedByte (ctrl i) then some ((entries i).key, (entries i).value) else none

end Slots

/-- The slots below `n` hold `M`, tagged and within reach of their lookups. -/
structure TableInv (n : Nat) (plan : K → List (List Nat)) (hash : K → UInt64)
    (ctrl : Nat → Nat) (entries : Nat → SwissEntry K V) (M : K → Option V) : Prop where
  planned : ∀ k slot, slot ∈ (plan k).flatten → slot < n
  tagged : ∀ i, i < n → occupiedByte (ctrl i) = true → ctrl i = h2 (hash (entries i).key)
  reached : ∀ i, i < n → occupiedByte (ctrl i) = true →
    Reach (isEmptySlot ctrl) (plan (entries i).key) i
  held : Holds (cell ctrl entries) n M

section Inv
variable {n : Nat} {plan : K → List (List Nat)} {hash : K → UInt64} {ctrl : Nat → Nat}
  {entries : Nat → SwissEntry K V} {M : K → Option V}

theorem cell_eq_some_iff {i : Nat} {k : K} {v : V} : cell ctrl entries i = some (k, v) ↔
    occupiedByte (ctrl i) = true ∧ (entries i).key = k ∧ (entries i).value = v := by
  unfold cell
  split
  · rename_i taken
    simp [taken]
  · rename_i free
    simp [free]

theorem cell_isSome (i : Nat) : (cell ctrl entries i).isSome = occupiedByte (ctrl i) := by
  unfold cell
  cases occupiedByte (ctrl i) <;> rfl

theorem isFreeSlot_eq (i : Nat) : isFreeSlot ctrl i = !occupiedByte (ctrl i) := by
  simp only [isFreeSlot, occupiedByte, bne]
  cases ctrl i == emptyByte <;> cases ctrl i == deletedByte <;> rfl

theorem cell_of_free {i : Nat} (free : isFreeSlot ctrl i = true) :
    cell ctrl entries i = none := by
  rw [isFreeSlot_eq, Bool.not_eq_true'] at free
  simp [cell, free]

theorem isFreeSlot_of_isEmptySlot {i : Nat} (never : isEmptySlot ctrl i = true) :
    isFreeSlot ctrl i = true := by
  simp only [isEmptySlot] at never
  simp [isFreeSlot, never]

/-- The tag of a new entry leaves its slot neither empty nor free. -/
theorem cell_store (probe : Nat) (h : UInt64) (key : K) (value : V) :
    cell (update ctrl probe (h2 h)) (update entries probe ⟨key, value⟩) =
      update (cell ctrl entries) probe (some (key, value)) := by
  funext i
  by_cases same : i = probe
  · subst same
    simp [cell, occupiedByte_h2]
  · simp [cell, update_of_ne same]

theorem cell_assign {slot : Nat} {key : K} {old : V} (value : V)
    (at_slot : cell ctrl entries slot = some (key, old)) :
    cell ctrl (update entries slot ⟨(entries slot).key, value⟩) =
      update (cell ctrl entries) slot (some (key, value)) := by
  obtain ⟨taken, same, _⟩ := cell_eq_some_iff.mp at_slot
  funext i
  by_cases atSlot : i = slot
  · subst atSlot
    simp [cell, taken, same]
  · simp [cell, update_of_ne atSlot]

theorem cell_delete (slot : Nat) : cell (update ctrl slot deletedByte) entries =
    update (cell ctrl entries) slot none := by
  funext i
  by_cases atSlot : i = slot
  · subst atSlot
    simp [cell, occupiedByte]
  · simp [cell, update_of_ne atSlot]

section Lookup
variable [DecidableEq K]

theorem TableInv.cell_of_hits (inv : TableInv n plan hash ctrl entries M) {key : K} {x : Nat}
    (member : x ∈ (plan key).flatten) (hit : hits ctrl entries (h2 (hash key)) key x = true) :
    x < n ∧ ∃ v, cell ctrl entries x = some (key, v) := by
  simp only [hits, Bool.and_eq_true, beq_iff_eq, decide_eq_true_eq] at hit
  obtain ⟨tag, same⟩ := hit
  have taken : occupiedByte (ctrl x) = true := by
    rw [tag]
    exact occupiedByte_h2 _
  exact ⟨inv.planned key x member, _, cell_eq_some_iff.mpr ⟨taken, same, rfl⟩⟩

/-- The probe loop finds the slot of a bound key, and nothing for others. -/
theorem TableInv.search_iff (inv : TableInv n plan hash ctrl entries M) (key : K) (slot : Nat) :
    search (hits ctrl entries (h2 (hash key)) key) (isEmptySlot ctrl) (plan key) = some slot ↔
      slot < n ∧ ∃ v, cell ctrl entries slot = some (key, v) := by
  constructor
  · intro found
    obtain ⟨hit, member⟩ := search_sound _ slot found
    exact inv.cell_of_hits member hit
  · intro stored
    obtain ⟨below, v, at_slot⟩ := stored
    obtain ⟨taken, same, _⟩ := cell_eq_some_iff.mp at_slot
    have tag := inv.tagged slot below taken
    have reached := inv.reached slot below taken
    rw [same] at tag reached
    have hit : hits ctrl entries (h2 (hash key)) key slot = true := by
      simp [hits, tag, same]
    apply search_complete hit _ reached
    intro x member hitX
    obtain ⟨belowX, w, at_x⟩ := inv.cell_of_hits member hitX
    exact inv.held.single x slot key w v belowX below at_x at_slot

theorem TableInv.search_none (inv : TableInv n plan hash ctrl entries M) (key : K) :
    search (hits ctrl entries (h2 (hash key)) key) (isEmptySlot ctrl) (plan key) = none ↔
      M key = none := by
  constructor
  · intro missed
    apply inv.held.eq_none
    intro i v below at_i
    rw [(inv.search_iff key i).mpr ⟨below, v, at_i⟩] at missed
    cases missed
  · intro unbound
    cases found : search (hits ctrl entries (h2 (hash key)) key) (isEmptySlot ctrl) (plan key) with
    | none => rfl
    | some slot =>
      obtain ⟨below, v, at_slot⟩ := (inv.search_iff key slot).mp found
      rw [inv.held.sound slot key v below at_slot] at unbound
      cases unbound

theorem TableInv.lookup_eq (inv : TableInv n plan hash ctrl entries M) (key : K) :
    (search (hits ctrl entries (h2 (hash key)) key) (isEmptySlot ctrl) (plan key)).map
      (fun slot => (entries slot).value) = M key := by
  cases found : search (hits ctrl entries (h2 (hash key)) key) (isEmptySlot ctrl) (plan key) with
  | none => exact ((inv.search_none key).mp found).symm
  | some slot =>
    obtain ⟨below, v, at_slot⟩ := (inv.search_iff key slot).mp found
    rw [inv.held.sound slot key v below at_slot, Option.map_some,
      (cell_eq_some_iff.mp at_slot).2.2]

end Lookup

theorem TableInv.congr {ctrl' : Nat → Nat} (inv : TableInv n plan hash ctrl entries M)
    (same : ∀ i, i < n → ctrl' i = ctrl i) : TableInv n plan hash ctrl' entries M := by
  refine ⟨inv.planned, ?_, ?_, ?_⟩
  · intro i below taken
    rw [same i below] at taken ⊢
    exact inv.tagged i below taken
  · intro i below taken
    rw [same i below] at taken
    apply Reach.congr _ (inv.reached i below taken)
    intro x member
    simp only [isEmptySlot, same x (inv.planned _ x member)]
  · apply inv.held.congr
    intro i below
    simp only [cell, same i below]

section Writes
variable [DecidableEq K]

/-- A new key goes to the first free slot of its plan. -/
theorem TableInv.store (inv : TableInv n plan hash ctrl entries M) {key : K} {probe : Nat}
    (value : V) (unbound : M key = none)
    (found : (plan key).flatten.find? (isFreeSlot ctrl) = some probe) :
    TableInv n plan hash (update ctrl probe (h2 (hash key)))
      (update entries probe ⟨key, value⟩) (update M key (some value)) := by
  have free := List.find?_some found
  have reached : Reach (isEmptySlot ctrl) (plan key) probe :=
    reach_first (fun _ => isFreeSlot_of_isEmptySlot) found
  have below := inv.planned key probe reached.mem
  have freeCell : cell ctrl entries probe = none := cell_of_free free
  have fewer : ∀ x, isEmptySlot (update ctrl probe (h2 (hash key))) x = true →
      isEmptySlot ctrl x = true := by
    intro x never
    by_cases same : x = probe
    · subst same
      simp only [isEmptySlot, update_self, beq_iff_eq] at never
      have tagged := occupiedByte_h2 (hash key)
      rw [never] at tagged
      cases tagged
    · simpa [isEmptySlot, update_of_ne same] using never
  refine ⟨inv.planned, ?_, ?_, ?_⟩
  · intro i belowI taken
    by_cases same : i = probe
    · subst same
      simp
    · simp only [update_of_ne same] at taken ⊢
      exact inv.tagged i belowI taken
  · intro i belowI taken
    apply Reach.mono fewer
    by_cases same : i = probe
    · subst same
      simpa using reached
    · simp only [update_of_ne same] at taken ⊢
      exact inv.reached i belowI taken
  · rw [cell_store]
    exact inv.held.insert value below freeCell unbound

theorem TableInv.assign (inv : TableInv n plan hash ctrl entries M) {key : K} {slot : Nat}
    {old : V} (value : V) (below : slot < n)
    (at_slot : cell ctrl entries slot = some (key, old)) :
    TableInv n plan hash ctrl (update entries slot ⟨(entries slot).key, value⟩)
      (update M key (some value)) := by
  have keyKept : ∀ i, (update entries slot ⟨(entries slot).key, value⟩ i).key =
      (entries i).key := by
    intro i
    by_cases atSlot : i = slot
    · subst atSlot
      rw [update_self]
    · rw [update_of_ne atSlot]
  refine ⟨inv.planned, ?_, ?_, ?_⟩
  · intro i belowI takenI
    rw [keyKept]
    exact inv.tagged i belowI takenI
  · intro i belowI takenI
    rw [keyKept]
    exact inv.reached i belowI takenI
  · rw [cell_assign value at_slot]
    exact inv.held.assign value below at_slot

/-- A tombstone keeps every lookup going past its slot. -/
theorem TableInv.delete (inv : TableInv n plan hash ctrl entries M) {key : K} {slot : Nat} {v : V}
    (below : slot < n) (at_slot : cell ctrl entries slot = some (key, v)) :
    TableInv n plan hash (update ctrl slot deletedByte) entries
      (update M key none) := by
  have other : ∀ i, occupiedByte (update ctrl slot deletedByte i) = true → i ≠ slot := by
    intro i takenI same
    rw [same, update_self] at takenI
    cases takenI
  refine ⟨inv.planned, ?_, ?_, ?_⟩
  · intro i belowI takenI
    have apart := other i takenI
    simp only [update_of_ne apart] at takenI ⊢
    exact inv.tagged i belowI takenI
  · intro i belowI takenI
    have apart := other i takenI
    simp only [update_of_ne apart] at takenI
    refine Reach.mono ?_ (inv.reached i belowI takenI)
    intro x never
    simp only [isEmptySlot, beq_iff_eq] at never ⊢
    by_cases atSlot : x = slot
    · subst atSlot
      rw [update_self] at never
      cases never
    · rwa [update_of_ne atSlot] at never
  · rw [cell_delete]
    exact inv.held.erase below at_slot

end Writes

theorem cell_of_vacant (vacant : ∀ i, ctrl i = emptyByte) (i : Nat) :
    cell ctrl entries i = none := by
  simp [cell, vacant i, occupiedByte]

theorem tableInv_of_vacant (planned : ∀ k slot, slot ∈ (plan k).flatten → slot < n)
    (vacant : ∀ i, ctrl i = emptyByte) : TableInv n plan hash ctrl entries (fun _ => none) := by
  have free : ∀ i, occupiedByte (ctrl i) = false := by
    intro i
    rw [vacant i]
    rfl
  refine ⟨planned, ?_, ?_, holds_empty fun i _ => cell_of_vacant vacant i⟩
  · intro i _ taken
    rw [free i] at taken
    cases taken
  · intro i _ taken
    rw [free i] at taken
    cases taken

end Inv

end Micron.Swiss
