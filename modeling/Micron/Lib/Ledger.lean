import Mathlib.Algebra.Order.Ring.Nat
import Mathlib.Order.Interval.Finset.Nat
import Micron.Lib.Holding

/-!
# Ledgers of chunks

An allocator hands out chunks.  A chunk that is given up as a tombstone is in use no
more, and is still taken until it is freed.  What the counters of an allocator say is
compared with a ledger of its chunks over whole runs.
-/

set_option autoImplicit false

namespace Micron.Lib

open List

/-- Extents that do not overlap have room in the range they lie in. -/
theorem AllApart.sum_le {l : List Extent} (apart : AllApart l) (lo hi : Nat)
    (inside : ∀ x ∈ l, lo ≤ x.start ∧ x.stop ≤ hi) : (l.map Extent.size).sum ≤ hi - lo := by
  have cells : ∃ s : Finset Nat, s ⊆ Finset.Ico lo hi ∧ s.card = (l.map Extent.size).sum ∧
      ∀ u ∈ s, ∃ x ∈ l, x.start ≤ u ∧ u < x.stop := by
    induction l with
    | nil => exact ⟨∅, Finset.empty_subset _, rfl, fun u wrong => absurd wrong (Finset.notMem_empty u)⟩
    | cons x l ih =>
      obtain ⟨first, rest⟩ := allApart_cons.mp apart
      obtain ⟨s, within, size, found⟩ := ih rest fun y member => inside y (mem_cons_of_mem x member)
      obtain ⟨low, high⟩ := inside x mem_cons_self
      have disjoint : Disjoint (Finset.Ico x.start x.stop) s := by
        rw [Finset.disjoint_left]
        intro u own other
        obtain ⟨y, member, lowY, highY⟩ := found u other
        obtain ⟨lowX, highX⟩ := Finset.mem_Ico.mp own
        rcases first y member with before | after
        · omega
        · omega
      refine ⟨Finset.Ico x.start x.stop ∪ s, ?_, ?_, ?_⟩
      · exact Finset.union_subset (Finset.Ico_subset_Ico low high) within
      · rw [Finset.card_union_of_disjoint disjoint, Nat.card_Ico, size, map_cons, sum_cons,
          Extent.stop, Nat.add_sub_cancel_left]
      · intro u member
        rcases Finset.mem_union.mp member with own | other
        · exact ⟨x, mem_cons_self, Finset.mem_Ico.mp own⟩
        · obtain ⟨y, isY, bounds⟩ := found u other
          exact ⟨y, mem_cons_of_mem x isY, bounds⟩
  obtain ⟨s, within, size, _⟩ := cells
  rw [← size, ← Nat.card_Ico]
  exact Finset.card_le_card within

/-- The chunks in use and the tombstones, by their starts and lengths. -/
structure Ledger where
  live : List (Nat × Nat)
  dead : List (Nat × Nat)

/-- Two lists of chunks stand for the same blocks after one is struck from both. -/
theorem erase_perm {β : Type} [BEq β] [LawfulBEq β] {f : β → Nat × Nat} {l : List (Nat × Nat)} {m : List β}
    (perm : l.Perm (m.map f)) {x : β} (member : x ∈ m) : (l.erase (f x)).Perm ((m.erase x).map f) := by
  have inside : f x ∈ l := perm.mem_iff.mpr (mem_map_of_mem member)
  refine List.Perm.cons_inv (a := f x) ?_
  exact (perm_cons_erase inside).symm.trans (perm.trans ((perm_cons_erase member).map f))

namespace Ledger

def gain (l : Ledger) (chunk : Option (Nat × Nat)) : Ledger := { l with live := chunk.toList ++ l.live }

def kill (l : Ledger) (ptr : Nat) : Ledger :=
  match l.live.find? (·.1 = ptr) with
  | some b => ⟨l.live.erase b, b :: l.dead⟩
  | none => l

def drop (l : Ledger) (ptr : Nat) : Ledger :=
  match l.live.find? (·.1 = ptr) with
  | some b => { l with live := l.live.erase b }
  | none =>
    match l.dead.find? (·.1 = ptr) with
    | some b => { l with dead := l.dead.erase b }
    | none => l

variable {l : Ledger} {ptr : Nat}

theorem find_live (isLive : ∃ b ∈ l.live, b.1 = ptr) :
    ∃ b ∈ l.live, b.1 = ptr ∧ l.kill ptr = ⟨l.live.erase b, b :: l.dead⟩ ∧
      l.drop ptr = { l with live := l.live.erase b } := by
  obtain ⟨c, member, start⟩ := isLive
  obtain ⟨b, found⟩ := Option.isSome_iff_exists.mp
    (find?_isSome.mpr ⟨c, member, decide_eq_true start⟩ : (l.live.find? (·.1 = ptr)).isSome = true)
  have atPtr : decide (b.1 = ptr) = true := find?_some (p := fun b : Nat × Nat => decide (b.1 = ptr)) found
  refine ⟨b, mem_of_find?_eq_some found, of_decide_eq_true atPtr, ?_, ?_⟩
  · rw [kill, found]
  · rw [drop, found]

theorem find_none (notLive : ¬ ∃ b ∈ l.live, b.1 = ptr) :
    l.kill ptr = l ∧ ((¬ ∃ b ∈ l.dead, b.1 = ptr) → l.drop ptr = l) := by
  have absent : ∀ {m : List (Nat × Nat)}, (¬ ∃ b ∈ m, b.1 = ptr) → m.find? (·.1 = ptr) = none :=
    fun none_ => find?_eq_none.mpr fun b member start => none_ ⟨b, member, of_decide_eq_true start⟩
  refine ⟨?_, fun notDead => ?_⟩
  · rw [kill, absent notLive]
  · rw [drop, absent notLive]
    rw [absent notDead]

def bytes (header : Nat) (chunks : List (Nat × Nat)) : Nat := (chunks.map fun b => b.2 + header).sum

structure Backed {β : Type} (chunk : β → Nat × Nat) (l : Ledger) (own dead : List β) : Prop where
  live : l.live.Perm (own.map chunk)
  dead : l.dead.Perm (dead.map chunk)

section

variable {β : Type} {chunk : β → Nat × Nat} {own dead : List β}

theorem Backed.bytes (backed : l.Backed chunk own dead) (header : Nat) (size : β → Nat)
    (sizes : ∀ x ∈ own ++ dead, (chunk x).2 + header = size x) :
    Ledger.bytes header l.live = (own.map size).sum ∧
      Ledger.bytes header l.dead = (dead.map size).sum := by
  have sums : ∀ {chunks : List (Nat × Nat)} {blocks : List β}, chunks.Perm (blocks.map chunk) →
      (∀ x ∈ blocks, x ∈ own ++ dead) → Ledger.bytes header chunks = (blocks.map size).sum := by
    intro chunks blocks perm inside
    rw [Ledger.bytes, (perm.map _).sum_eq, map_map]
    exact congrArg List.sum (map_congr_left fun x member => sizes x (inside x member))
  exact ⟨sums backed.live fun x => mem_append_left dead,
    sums backed.dead fun x => mem_append_right own⟩

theorem Backed.gain (backed : l.Backed chunk own dead) (x : β) :
    (l.gain (some (chunk x))).Backed chunk (x :: own) dead := ⟨backed.live.cons _, backed.dead⟩

theorem Backed.find [BEq β] [LawfulBEq β] (backed : l.Backed chunk own dead) (isLive : ∃ b ∈ l.live, b.1 = ptr) :
    ∃ x ∈ own, (chunk x).1 = ptr ∧ (l.drop ptr).Backed chunk (own.erase x) dead ∧
      (l.kill ptr).Backed chunk (own.erase x) (x :: dead) := by
  obtain ⟨b, member, start, killed, dropped⟩ := find_live isLive
  obtain ⟨x, inside, rfl⟩ := mem_map.mp (backed.live.mem_iff.mp member)
  have erased := erase_perm backed.live inside
  refine ⟨x, inside, start, ?_, ?_⟩
  · rw [dropped]
    exact ⟨erased, backed.dead⟩
  · rw [killed]
    exact ⟨erased, backed.dead.cons _⟩

end

end Ledger

/-- An allocator with its counters.  `serves` holds of the requests whose search stays within
the lists, `passes` and `refuses` of the pointers that its checks turn away. -/
structure Allocator (σ ω : Type) where
  header : Nat
  allocate : σ → Nat → σ × Option (Nat × Nat)
  tombstone : σ → Nat → σ
  deallocate : σ → Nat → σ
  write : σ → Nat → ω → σ
  used : σ → Nat
  tombstoned : σ → Nat
  available : σ → Nat
  total : σ → Nat
  serves : σ → Nat → Prop
  passes : σ → Nat → Prop
  refuses : σ → Nat → Prop

inductive Request (ω : Type) where
  | allocate (n : Nat)
  | tombstone (ptr : Nat)
  | deallocate (ptr : Nat)
  | write (u : Nat) (w : ω)

namespace Allocator

variable {σ ω : Type}

def step (a : Allocator σ ω) (y : σ × Ledger) : Request ω → σ × Ledger
  | .allocate n => ((a.allocate y.1 n).1, y.2.gain (a.allocate y.1 n).2)
  | .tombstone ptr => (a.tombstone y.1 ptr, y.2.kill ptr)
  | .deallocate ptr => (a.deallocate y.1 ptr, y.2.drop ptr)
  | .write u w => (a.write y.1 u w, y.2)

/-- No tombstone is freed, a pointer to no chunk is turned away, and users write to what they
have. -/
def Meets (a : Allocator σ ω) (y : σ × Ledger) : Request ω → Prop
  | .allocate n => a.serves y.1 n
  | .tombstone ptr => (∃ b ∈ y.2.live ++ y.2.dead, b.1 = ptr) ∨ a.passes y.1 ptr
  | .deallocate ptr =>
    (∃ b ∈ y.2.live, b.1 = ptr) ∨ (¬ ∃ b ∈ y.2.dead, b.1 = ptr) ∧ a.refuses y.1 ptr
  | .write u _ => ∃ b ∈ y.2.live, b.1 ≤ u ∧ u < b.1 + b.2

inductive Reached (a : Allocator σ ω) (first : σ) : σ × Ledger → Prop where
  | init : Reached a first (first, ⟨[], []⟩)
  | step {y : σ × Ledger} (c : Request ω) (before : Reached a first y) (met : a.Meets y c) :
      Reached a first (a.step y c)

theorem Reached.invariant {a : Allocator σ ω} {first : σ} {y : σ × Ledger} (reached : a.Reached first y)
    {holds : σ × Ledger → Prop} (start : holds (first, ⟨[], []⟩))
    (kept : ∀ y c, holds y → a.Meets y c → holds (a.step y c)) : holds y := by
  induction reached with
  | init => exact start
  | step c before met ih => exact kept _ c ih met

/-- The counters say what is in use and what is a tombstone, and none is below zero. -/
structure Balanced (a : Allocator σ ω) (y : σ × Ledger) : Prop where
  used : a.used y.1 = Ledger.bytes a.header y.2.live
  tombstoned : a.tombstoned y.1 = Ledger.bytes a.header y.2.dead
  room : a.used y.1 + a.tombstoned y.1 ≤ a.total y.1
  available : a.available y.1 = a.total y.1 - a.used y.1

end Allocator

end Micron.Lib
