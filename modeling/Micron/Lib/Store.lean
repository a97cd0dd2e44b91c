import Mathlib.Logic.Function.Basic

/-!
# Records at addresses

A store maps addresses to records.  A read or a write at an address without a
record fails.  `set` is the store after a write that succeeds, and the lemmas say
what one field reads after it.
-/

set_option autoImplicit false

namespace Micron.Lib

open Option

def Store (R : Type) : Type := Nat → Option R

namespace Store

variable {R β : Type}

def read (m : Store R) (a : Nat) (field : R → β) : Option β := (m a).map field

def set (m : Store R) (a : Nat) (f : R → R) : Store R :=
  fun b => if b = a then (m b).map f else m b

def write (m : Store R) (a : Nat) (f : R → R) : Option (Store R) :=
  (m a).map fun _ => m.set a f

def alloc (m : Store R) (a : Nat) (r : R) : Store R := fun b => if b = a then some r else m b

def free (m : Store R) (a : Nat) : Store R := fun b => if b = a then none else m b

theorem alloc_self (m : Store R) (a : Nat) (r : R) : m.alloc a r a = some r := if_pos rfl

theorem alloc_of_ne (m : Store R) {a b : Nat} (other : b ≠ a) (r : R) : m.alloc a r b = m b :=
  if_neg other

theorem free_self (m : Store R) (a : Nat) : m.free a a = none := if_pos rfl

theorem free_of_ne (m : Store R) {a b : Nat} (other : b ≠ a) : m.free a b = m b := if_neg other

theorem exists_of_read {m : Store R} {a : Nat} {field : R → β} {v : β}
    (reads : m.read a field = some v) : ∃ r, m a = some r ∧ field r = v :=
  map_eq_some_iff.mp reads

theorem read_eq {m : Store R} {a : Nat} {r : R} (found : m a = some r) (field : R → β) :
    m.read a field = some (field r) := by
  rw [read, found, map_some]

theorem write_eq {m : Store R} {a : Nat} {r : R} (found : m a = some r) (f : R → R) :
    m.write a f = some (m.set a f) := by
  rw [write, found, map_some]

theorem set_self {m : Store R} {a : Nat} {r : R} (found : m a = some r) (f : R → R) :
    m.set a f a = some (f r) := by
  rw [set, if_pos rfl, found, map_some]

theorem set_of_ne (m : Store R) {a b : Nat} (other : b ≠ a) (f : R → R) : m.set a f b = m b :=
  if_neg other

@[simp] theorem isSome_set (m : Store R) (a b : Nat) (f : R → R) :
    (m.set a f b).isSome = (m b).isSome := by
  unfold set
  split
  · rw [isSome_map]
  · rfl

theorem read_set (m : Store R) (a b : Nat) (f : R → R) (field : R → β) :
    (m.set a f).read b field = if b = a then m.read b (field ∘ f) else m.read b field := by
  unfold read set
  split
  · rw [map_map]
  · rfl

/-- A field that the write leaves alone. -/
theorem read_set_other (m : Store R) (a b : Nat) {f : R → R} {field : R → β}
    (kept : ∀ r, field (f r) = field r) : (m.set a f).read b field = m.read b field := by
  rw [read_set]
  split
  · unfold read
    congr 1
    exact funext kept
  · rfl

theorem read_set_of_ne (m : Store R) {a b : Nat} (other : b ≠ a) (f : R → R) (field : R → β) :
    (m.set a f).read b field = m.read b field := by
  rw [read_set, if_neg other]

/-- A field that the write gives a value. -/
theorem read_set_self {m : Store R} {a : Nat} {f : R → R} {field : R → β} {v : β}
    (live : (m a).isSome) (given : ∀ r, field (f r) = v) : (m.set a f).read a field = some v := by
  obtain ⟨r, found⟩ := isSome_iff_exists.mp live
  rw [read, set_self found, map_some, given]

end Store

end Micron.Lib
