import Mathlib.Data.List.Perm.Basic
import Mathlib.Data.List.Nodup

/-!
# Extents that do not overlap

A list of extents of a line, each with a start and a size.  Lists are kept up to the
order of their members: an extent is cut in two, dropped, or added behind all others.
-/

set_option autoImplicit false

namespace Micron.Lib

open List Function

structure Extent where
  start : Nat
  size : Nat
  deriving DecidableEq

def Extent.stop (x : Extent) : Nat := x.start + x.size

def Extent.Apart (x y : Extent) : Prop := x.stop ≤ y.start ∨ y.stop ≤ x.start

theorem Extent.Apart.symm {x y : Extent} (apart : x.Apart y) : y.Apart x := Or.symm apart

def AllApart (l : List Extent) : Prop := l.Pairwise Extent.Apart

variable {l l' : List Extent} {x : Extent} {a b : Nat}

theorem AllApart.perm (apart : AllApart l) (same : l.Perm l') : AllApart l' :=
  (same.pairwise_iff fun sep => sep.symm).mp apart

theorem allApart_cons : AllApart (x :: l) ↔ (∀ y ∈ l, x.Apart y) ∧ AllApart l := pairwise_cons

/-- Two parts of an extent in its place. -/
theorem AllApart.cut (apart : AllApart (⟨a, b⟩ :: l)) {c : Nat} (le : c ≤ b) :
    AllApart (⟨a, c⟩ :: ⟨a + c, b - c⟩ :: l) := by
  rw [allApart_cons] at apart
  rw [allApart_cons, allApart_cons]
  refine ⟨fun y member => ?_, fun y member => ?_, apart.2⟩
  · rcases mem_cons.mp member with rfl | inside
    · exact .inl (Nat.le_refl _)
    · rcases apart.1 y inside with before | after
      · simp only [Extent.stop] at before
        exact .inl (by simp only [Extent.stop]; omega)
      · exact .inr after
  · rcases apart.1 y member with before | after
    · simp only [Extent.stop] at before
      exact .inl (by simp only [Extent.stop]; omega)
    · exact .inr (Nat.le_trans after (Nat.le_add_right a c))

theorem AllApart.behind (apart : AllApart l) (below : ∀ y ∈ l, y.stop ≤ a) (b : Nat) :
    AllApart (⟨a, b⟩ :: l) :=
  allApart_cons.mpr ⟨fun y member => .inr (below y member), apart⟩

/-- The block of a pointer is struck from the chunks and from the blocks behind them. -/
theorem eraseP_perm {β : Type} [BEq β] [LawfulBEq β] {f : β → Nat × Nat} {l : List (Nat × Nat)}
    {m : List β} (perm : l.Perm (m.map f)) {ptr : Nat} (there : ∃ b ∈ l, b.1 = ptr) :
    ∃ x ∈ m, (f x).1 = ptr ∧ (l.eraseP fun b => b.1 = ptr).Perm ((m.erase x).map f) := by
  obtain ⟨b, inside, isPtr⟩ := there
  obtain ⟨c, front, back, _, isC, split, rest⟩ :=
    exists_of_eraseP (p := fun b => b.1 = ptr) inside (decide_eq_true isPtr)
  have cut : l.Perm (c :: l.eraseP fun b => b.1 = ptr) := by
    rw [rest, split]
    exact perm_middle
  obtain ⟨x, isOwn, rfl⟩ := mem_map.mp (perm.mem_iff.mp (cut.mem_iff.mpr mem_cons_self))
  refine ⟨x, isOwn, of_decide_eq_true isC, ?_⟩
  exact (cut.symm.trans (perm.trans ((perm_cons_erase isOwn).map f))).cons_inv

end Micron.Lib

/-!
## Blocks and who has them

A map of blocks by their starts, each with its extent and with whether it is free, live,
or in the hand of the operation that is running; and lists over which the free ones are
spread, each on the one list of its class.
-/

namespace Micron.Lib

inductive Role where
  | free
  | live
  | hand
  deriving DecidableEq

abbrev Blocks := Nat → Option (Nat × Role)

variable {blocks : Blocks}

theorem update_iff (a n b k : Nat) (role r : Role) :
    Function.update blocks a (some (n, role)) b = some (k, r) ↔
      b = a ∧ k = n ∧ r = role ∨ b ≠ a ∧ blocks b = some (k, r) := by
  by_cases same : b = a
  · rw [same, Function.update_self]
    simp [eq_comm]
  · rw [Function.update_of_ne same]
    simp [same]

/-- Only the block at `x` is in hand. -/
def OnlyHand (blocks : Blocks) (x : Nat) : Prop := ∀ a n, blocks a = some (n, .hand) → a = x

theorem OnlyHand.settle {x n : Nat} {role : Role} (only : OnlyHand blocks x) (role_ : role ≠ .hand) :
    ∀ a k, Function.update blocks x (some (n, role)) a ≠ some (k, .hand) := by
  intro a k isA
  rcases (update_iff _ _ _ _ _ _).mp isA with ⟨_, _, wrong⟩ | ⟨other, old⟩
  · exact role_ wrong.symm
  · exact other (only a k old)

/-- A block that is taken in hand where none was. -/
theorem OnlyHand.take {x n : Nat} (none_ : ∀ a k, blocks a ≠ some (k, .hand)) :
    OnlyHand (Function.update blocks x (some (n, .hand))) x := by
  intro a k isA
  rcases (update_iff _ _ _ _ _ _).mp isA with ⟨here, _⟩ | ⟨_, old⟩
  · exact here
  · exact absurd old (none_ a k)

section Change

variable {x n : Nat} {role role' r : Role}

/-- A role that a block neither had nor gets. -/
theorem role_same (isX : blocks x = some (n, role)) (notOld : r ≠ role) (notNew : r ≠ role') (a k : Nat) :
    Function.update blocks x (some (n, role')) a = some (k, r) ↔ blocks a = some (k, r) := by
  rw [update_iff]
  constructor
  · rintro (⟨_, _, wrong⟩ | ⟨_, old⟩)
    · exact absurd wrong notNew
    · exact old
  · intro isA
    refine .inr ⟨?_, isA⟩
    rintro rfl
    rw [isX] at isA
    exact notOld (congrArg Prod.snd (Option.some.inj isA)).symm

/-- A change of role is no change of place. -/
theorem role_some (isX : blocks x = some (n, role)) {a k : Nat} {r : Role}
    (isA : Function.update blocks x (some (n, role')) a = some (k, r)) : ∃ r', blocks a = some (k, r') := by
  rcases (update_iff _ _ _ _ _ _).mp isA with ⟨rfl, rfl, _⟩ | ⟨_, old⟩
  · exact ⟨role, isX⟩
  · exact ⟨r, old⟩

/-- The role that a block loses. -/
theorem role_lost (notNew : r ≠ role') (a k : Nat) :
    Function.update blocks x (some (n, role')) a = some (k, r) ↔ blocks a = some (k, r) ∧ a ≠ x := by
  rw [update_iff]
  constructor
  · rintro (⟨_, _, wrong⟩ | ⟨other, old⟩)
    · exact absurd wrong notNew
    · exact ⟨old, other⟩
  · exact fun isA => .inr ⟨isA.2, isA.1⟩

/-- The role that a block gets. -/
theorem role_new (isX : blocks x = some (n, role)) (notOld : r ≠ role) (a k : Nat) :
    Function.update blocks x (some (n, r)) a = some (k, r) ↔
      blocks a = some (k, r) ∨ a = x ∧ k = n := by
  rw [update_iff]
  constructor
  · rintro (⟨rfl, rfl, _⟩ | ⟨_, old⟩)
    · exact .inr ⟨rfl, rfl⟩
    · exact .inl old
  · rintro (old | ⟨rfl, rfl⟩)
    · refine .inr ⟨?_, old⟩
      rintro rfl
      rw [isX] at old
      exact notOld (congrArg Prod.snd (Option.some.inj old)).symm
    · exact .inl ⟨rfl, rfl, rfl⟩

end Change

section Lists

variable {lists : Nat → List Nat} {on on' : Nat → Nat → Prop}

/-- What is on a list, without repetition. -/
def Shelved (lists : Nat → List Nat) (on : Nat → Nat → Prop) : Prop :=
  (∀ i a, a ∈ lists i ↔ on a i) ∧ ∀ i, (lists i).Nodup

theorem Shelved.remove (shelved : Shelved lists on) (unique : ∀ a i j, on a i → on a j → i = j)
    {i x : Nat} (front : List Nat) {back : List Nat} (isX : lists i = front ++ x :: back)
    (now : ∀ a j, on' a j ↔ on a j ∧ a ≠ x) :
    Shelved (Function.update lists i (front ++ back)) on' := by
  have nodup : (x :: (front ++ back)).Nodup := by
    rw [← List.perm_middle.nodup_iff, ← isX]
    exact shelved.2 i
  refine ⟨?_, ?_⟩
  · intro j a
    rw [now, ← shelved.1 j a]
    by_cases same : j = i
    · rw [same, Function.update_self, isX, List.perm_middle.mem_iff, List.mem_cons]
      constructor
      · intro inside
        exact ⟨.inr inside, fun equal => (List.nodup_cons.mp nodup).1 (equal ▸ inside)⟩
      · intro inside
        exact inside.1.resolve_left inside.2
    · rw [Function.update_of_ne same]
      constructor
      · intro inside
        refine ⟨inside, ?_⟩
        rintro rfl
        have here : on a i := (shelved.1 i a).mp (by rw [isX]; simp)
        exact same (unique a j i ((shelved.1 j a).mp inside) here)
      · exact fun inside => inside.1
  · intro j
    by_cases same : j = i
    · rw [same, Function.update_self]
      exact (List.nodup_cons.mp nodup).2
    · rw [Function.update_of_ne same]
      exact shelved.2 j

theorem Shelved.add (shelved : Shelved lists on) {i x : Nat} (new : ∀ j, ¬ on x j)
    (now : ∀ a j, on' a j ↔ on a j ∨ a = x ∧ j = i) :
    Shelved (Function.update lists i (x :: lists i)) on' := by
  refine ⟨?_, ?_⟩
  · intro j a
    rw [now, ← shelved.1 j a]
    by_cases same : j = i
    · rw [same, Function.update_self, List.mem_cons, or_comm]
      simp
    · rw [Function.update_of_ne same]
      simp [same]
  · intro j
    by_cases same : j = i
    · rw [same, Function.update_self]
      exact List.nodup_cons.mpr ⟨fun inside => new i ((shelved.1 i x).mp inside), shelved.2 i⟩
    · rw [Function.update_of_ne same]
      exact shelved.2 j

end Lists

end Micron.Lib
