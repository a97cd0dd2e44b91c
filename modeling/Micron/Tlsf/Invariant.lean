import Mathlib.Algebra.BigOperators.Group.List.Basic
import Micron.Lib.Cover
import Micron.Lib.Holding
import Micron.Tlsf.Marks

/-!
# The blocks behind the headers

At any time the pool is covered by blocks that are free, live, or in the hand of the
operation that is running.  The headers, the rows and the bitmaps say the same about them.
-/

set_option autoImplicit false

namespace Micron.Tlsf

open Micron.Lib List Function

def sizes (blocks : Blocks) : Nat → Option Nat := fun a => (blocks a).map Prod.fst

def stop (total : Nat) : Nat := blockAlign + total

def OnRow (blocks : Blocks) (a i : Nat) : Prop :=
  ∃ n, blocks a = some (n, .free) ∧ idx (mappingInsert n) = i

structure Shape (total : Nat) (blocks : Blocks) (lists : Nat → List Nat) (live : List (Nat × Nat))
    (hands : List Nat) : Prop where
  room : minBlock ≤ total
  word : total < 2 ^ 32
  cover : Cover blockAlign (stop total) (sizes blocks)
  large : ∀ {a n role}, blocks a = some (n, role) → minBlock ≤ n
  listed : Shelved lists (OnRow blocks)
  lived : ∀ a n, (a, n) ∈ live ↔ blocks a = some (n, .live)
  liveNodup : live.Nodup
  held : ∀ a n, blocks a = some (n, .hand) → a ∈ hands
  calm : ∀ a n m, blocks a = some (n, .free) → blocks (a + n) ≠ some (m, .free)

structure Stored (s : State) (blocks : Blocks) (lists : Nat → List Nat) (live : List (Nat × Nat)) :
    Prop where
  base : s.hasBase = true
  levels : s.flCount ≤ flMax
  bsize : ∀ a n role, blocks a = some (n, role) → (s.mem a).bsize = n
  freeFlags : ∀ a n, blocks a = some (n, .free) → (s.mem a).flags = blockFree
  liveFlags : ∀ a n, blocks a = some (n, .live) → (s.mem a).flags = blockAlloc
  prev : ∀ a n role, blocks a = some (n, role) → (s.mem (a + n)).prevPhys = some a
  firstPrev : (s.mem blockAlign).prevPhys = some 0
  start : (s.mem 0).bsize = blockAlign ∧ (s.mem 0).flags = blockAlloc
  last : (s.mem (stop s.total)).flags = blockAlloc
  rows : ∀ i, TwoWay (nexts s.mem) (prevs s.mem) none (s.heads i) (lists i)
  marked : Marked s.flBitmap s.slBitmap s.heads
  used : s.allocatedBytes = (live.map Prod.snd).sum

/-- An operation that has the blocks of `hands`. -/
def Busy (s : State) (blocks : Blocks) (lists : Nat → List Nat) (live : List (Nat × Nat))
    (hands : List Nat) : Prop :=
  Shape s.total blocks lists live hands ∧ Stored s blocks lists live

variable {s : State} {blocks : Blocks} {lists : Nat → List Nat} {live : List (Nat × Nat)}
  {hands : List Nat} {total : Nat}

theorem sizes_eq_some {a n : Nat} {role : Role} (isA : blocks a = some (n, role)) :
    sizes blocks a = some n := by
  rw [sizes, isA]
  rfl

theorem exists_of_sizes {a n : Nat} (isA : sizes blocks a = some n) :
    ∃ role, blocks a = some (n, role) := by
  unfold sizes at isA
  cases block : blocks a with
  | none =>
    rw [block] at isA
    exact nomatch isA
  | some b =>
    rw [block] at isA
    obtain rfl := Option.some.inj isA
    exact ⟨b.2, rfl⟩

theorem sizes_update (a : Nat) (b : Option (Nat × Role)) :
    sizes (update blocks a b) = update (sizes blocks) a (b.map Prod.fst) := by
  funext c
  by_cases same : c = a
  · rw [same, sizes, update_self, update_self]
  · rw [sizes, update_of_ne same, update_of_ne same, sizes]

theorem OnRow.unique (a i j : Nat) (isI : OnRow blocks a i) (isJ : OnRow blocks a j) : i = j := by
  obtain ⟨n, isA, rfl⟩ := isI
  obtain ⟨m, isA', rfl⟩ := isJ
  rw [isA] at isA'
  rw [(Prod.mk.inj (Option.some.inj isA')).1]

namespace Shape

/-- The role of one block is another; no block is moved. -/
theorem cover_role (shape : Shape total blocks lists live hands) {a n : Nat} {role role' : Role}
    (isA : blocks a = some (n, role)) :
    Cover blockAlign (stop total) (sizes (update blocks a (some (n, role')))) := by
  have same : sizes (update blocks a (some (n, role'))) = sizes blocks := by
    rw [sizes_update]
    exact update_eq_self_iff.mpr (sizes_eq_some isA).symm
  rw [same]
  exact shape.cover

theorem large_role (shape : Shape total blocks lists live hands) {a n : Nat} {role role' : Role}
    (isA : blocks a = some (n, role)) {b k : Nat} {r : Role}
    (isB : update blocks a (some (n, role')) b = some (k, r)) : minBlock ≤ k := by
  rcases (update_iff _ _ _ _ _ _).mp isB with ⟨_, rfl, _⟩ | ⟨_, old⟩
  · exact shape.large isA
  · exact shape.large old

theorem small (shape : Shape total blocks lists live hands) {a n : Nat} {role : Role}
    (isA : blocks a = some (n, role)) : n < 2 ^ 32 := by
  have inside := shape.cover.inside (sizes_eq_some isA)
  have word := shape.word
  unfold stop at inside
  omega

/-- The class of a block is one of those that there are. -/
theorem class_lt (shape : Shape total blocks lists live hands) {a n : Nat} {role : Role}
    (isA : blocks a = some (n, role)) :
    (mappingInsert n).1 < flMax ∧ (mappingInsert n).2 < slCount :=
  ⟨mappingInsert_level (shape.large isA) (shape.small isA), (mappingInsert_spec (shape.large isA)).1⟩

theorem eq_of_end (shape : Shape total blocks lists live hands) {a b n m : Nat} {role role' : Role}
    (isA : blocks a = some (n, role)) (isB : blocks b = some (m, role')) (same : a + n = b + m) :
    a = b := by
  have positive := shape.cover.positive (sizes_eq_some isA)
  have positive' := shape.cover.positive (sizes_eq_some isB)
  exact shape.cover.eq_of_mem (u := a + n - 1) (sizes_eq_some isA) (sizes_eq_some isB) (by omega) (by omega)
    (by omega) (by omega)

/-- A block is behind the first sentinel and before the last. -/
theorem between (shape : Shape total blocks lists live hands) {a n : Nat} {role : Role}
    (isA : blocks a = some (n, role)) : a ≠ 0 ∧ a ≠ stop total ∧ a + n ≠ blockAlign := by
  have inside := shape.cover.inside (sizes_eq_some isA)
  have positive := shape.cover.positive (sizes_eq_some isA)
  have : 0 < blockAlign := by decide
  omega

end Shape

end Micron.Tlsf

/-!
## What an operation does with the blocks in its hand

A free block is taken from its row and put there, two that are neighbours are joined, one
is cut in two, and one goes to a user or comes back.
-/

namespace Micron.Tlsf

open Micron.Lib

variable {s : State} {blocks : Blocks} {lists : Nat → List Nat} {live : List (Nat × Nat)}
  {hands : List Nat} {x n : Nat}

theorem onRow_lost {role : Role} (notFree : role ≠ .free) (a i : Nat) :
    OnRow (Function.update blocks x (some (n, role))) a i ↔ OnRow blocks a i ∧ a ≠ x := by
  constructor
  · rintro ⟨k, isA, row⟩
    obtain ⟨old, other⟩ := (role_lost (Ne.symm notFree) a k).mp isA
    exact ⟨⟨k, old, row⟩, other⟩
  · rintro ⟨⟨k, isA, row⟩, other⟩
    exact ⟨k, (role_lost (Ne.symm notFree) a k).mpr ⟨isA, other⟩, row⟩

theorem onRow_new {role : Role} (isX : blocks x = some (n, role)) (notFree : .free ≠ role) (a i : Nat) :
    OnRow (Function.update blocks x (some (n, .free))) a i ↔
      OnRow blocks a i ∨ a = x ∧ i = idx (mappingInsert n) := by
  constructor
  · rintro ⟨k, isA, row⟩
    rcases (role_new isX notFree a k).mp isA with old | ⟨here, size⟩
    · exact .inl ⟨k, old, row⟩
    · exact .inr ⟨here, by rw [← row, size]⟩
  · rintro (⟨k, isA, row⟩ | ⟨here, row⟩)
    · exact ⟨k, (role_new isX notFree a k).mpr (.inl isA), row⟩
    · exact ⟨n, (role_new isX notFree a n).mpr (.inr ⟨here, rfl⟩), row.symm⟩

theorem take_spec (busy : Busy s blocks lists live hands) (isX : blocks x = some (n, .free)) :
    ∃ lists', Busy (flRemove s x) (Function.update blocks x (some (n, .hand))) lists' live
      (x :: hands) := by
  obtain ⟨shape, stored⟩ := busy
  have frame := flRemove_frame s x
  have liveNow : ∀ a k, Function.update blocks x (some (n, .hand)) a = some (k, Role.live) ↔
      blocks a = some (k, .live) := role_same isX (by decide) (by decide)
  have freeNow : ∀ a k, Function.update blocks x (some (n, .hand)) a = some (k, Role.free) ↔
      blocks a = some (k, .free) ∧ a ≠ x := role_lost (by decide)
  have someNow : ∀ a k r, Function.update blocks x (some (n, .hand)) a = some (k, r) →
      ∃ r', blocks a = some (k, r') := fun _ _ _ => role_some isX
  have isClass : classOf s x = mappingInsert n := by rw [classOf, stored.bsize x n .free isX]
  obtain ⟨levels, small⟩ := shape.class_lt isX
  generalize isRow : idx (mappingInsert n) = i
  have inside : x ∈ lists i := (shape.listed.1 i x).mpr ⟨n, isX, isRow⟩
  obtain ⟨front, back, isList⟩ := List.append_of_mem inside
  have row := stored.rows i
  have nodup := shape.listed.2 i
  rw [isList] at row nodup
  have nextX : nexts s.mem x = back.head? := row.next_eq
  have prevX : prevs s.mem x = front.getLast? := row.prev_eq.trans (Option.or_none)
  have headsNow : (flRemove s x).heads =
      if front = [] then Function.update s.heads i (nexts s.mem x) else s.heads := by
    rw [flRemove_heads, isClass, isRow]
    have first : (s.mem x).prevFree = none ↔ front = [] := by
      rw [show (s.mem x).prevFree = front.getLast? from prevX]
      exact List.getLast?_eq_none_iff
    simp only [first]
    rfl
  have was : (s.heads (idx (classOf s x))).isSome = true := by
    rw [isClass, isRow, row.head_eq]
    cases front <;> rfl
  have nextNow : nexts (flRemove s x).mem = bypassNext (nexts s.mem) (prevs s.mem) x :=
    funext fun a => congrArg Hdr.nextFree (flRemove_mem s x a)
  have prevNow : prevs (flRemove s x).mem = bypassPrev (nexts s.mem) (prevs s.mem) x :=
    funext fun a => congrArg Hdr.prevFree (flRemove_mem s x a)
  have sameSize : ∀ a, ((flRemove s x).mem a).bsize = (s.mem a).bsize :=
    fun a => by rw [flRemove_mem]
  have sameFlags : ∀ a, ((flRemove s x).mem a).flags = (s.mem a).flags :=
    fun a => by rw [flRemove_mem]
  have samePrev : ∀ a, ((flRemove s x).mem a).prevPhys = (s.mem a).prevPhys :=
    fun a => by rw [flRemove_mem]
  refine ⟨Function.update lists i (front ++ back), ⟨?_, ?_⟩⟩
  · rw [frame.total]
    refine ⟨shape.room, shape.word, shape.cover_role isX, shape.large_role isX,
      shape.listed.remove OnRow.unique front isList (onRow_lost (by decide)),
      fun a k => (shape.lived a k).trans (liveNow a k).symm, shape.liveNodup, ?_, ?_⟩
    · intro a k isA
      rcases (update_iff _ _ _ _ _ _).mp isA with ⟨rfl, _⟩ | ⟨_, old⟩
      · exact List.mem_cons_self
      · exact List.mem_cons_of_mem x (shape.held a k old)
    · intro a k m isA isB
      exact shape.calm a k m ((freeNow a k).mp isA).1 ((freeNow _ m).mp isB).1
  · refine ⟨frame.hasBase.trans stored.base, frame.flCount ▸ stored.levels, ?_, ?_, ?_, ?_, ?_, ?_, ?_, ?_,
      flRemove_marked stored.marked (isClass ▸ levels) (isClass ▸ small) was,
      frame.allocatedBytes.trans stored.used⟩
    · intro a k r isA
      obtain ⟨r', old⟩ := someNow a k r isA
      exact (sameSize a).trans (stored.bsize a k r' old)
    · exact fun a k isA => (sameFlags a).trans (stored.freeFlags a k ((freeNow a k).mp isA).1)
    · exact fun a k isA => (sameFlags a).trans (stored.liveFlags a k ((liveNow a k).mp isA))
    · intro a k r isA
      obtain ⟨r', old⟩ := someNow a k r isA
      exact (samePrev _).trans (stored.prev a k r' old)
    · exact (samePrev _).trans stored.firstPrev
    · exact ⟨(sameSize 0).trans stored.start.1, (sameFlags 0).trans stored.start.2⟩
    · rw [frame.total]
      exact (sameFlags _).trans stored.last
    · intro j
      rw [nextNow, prevNow, headsNow]
      by_cases same : j = i
      · rw [same, Function.update_self]
        have out := row.bypass nodup (fun b wrong => nomatch wrong)
        by_cases first : front = []
        · rw [if_pos first] at out ⊢
          rwa [Function.update_self]
        · rwa [if_neg first] at out ⊢
      · rw [Function.update_of_ne same]
        have otherHead : (if front = [] then Function.update s.heads i (nexts s.mem x) else s.heads) j =
            s.heads j := by
          split
          · exact Function.update_of_ne same _ _
          · rfl
        have apart : ∀ b ∈ lists j, b ∉ lists i := by
          intro b inJ inI
          exact same (OnRow.unique b j i ((shape.listed.1 j b).mp inJ) ((shape.listed.1 i b).mp inI))
        rw [otherHead]
        refine (stored.rows j).congr fun b inJ => ⟨if_neg ?_, if_neg ?_⟩
        · intro isPrev
          rw [prevX] at isPrev
          refine apart b inJ ?_
          rw [isList]
          exact List.mem_append_left _ (List.mem_of_getLast? isPrev)
        · intro isNext
          rw [nextX] at isNext
          refine apart b inJ ?_
          rw [isList]
          exact List.mem_append_right _ (List.mem_cons_of_mem x (List.mem_of_mem_head? isNext))

/-- A block in hand that has no free neighbour is put into its row. -/
theorem put_spec (busy : Busy s blocks lists live (x :: hands)) (isX : blocks x = some (n, .hand))
    (behind : ∀ m, blocks (x + n) ≠ some (m, .free))
    (before : ∀ p m, blocks p = some (m, .free) → p + m ≠ x) :
    ∃ lists', Busy (flInsert s x) (Function.update blocks x (some (n, .free))) lists' live hands := by
  obtain ⟨shape, stored⟩ := busy
  have frame := flInsert_frame s x
  have liveNow : ∀ a k, Function.update blocks x (some (n, .free)) a = some (k, Role.live) ↔
      blocks a = some (k, .live) := role_same isX (by decide) (by decide)
  have freeNow : ∀ a k, Function.update blocks x (some (n, .free)) a = some (k, Role.free) ↔
      blocks a = some (k, .free) ∨ a = x ∧ k = n := role_new isX (by decide)
  have someNow : ∀ a k r, Function.update blocks x (some (n, .free)) a = some (k, r) →
      ∃ r', blocks a = some (k, r') := fun _ _ _ => role_some isX
  have isClass : classOf s x = mappingInsert n := by rw [classOf, stored.bsize x n .hand isX]
  obtain ⟨levels, small⟩ := shape.class_lt isX
  generalize isRow : idx (mappingInsert n) = i
  have new : ∀ j, ¬ OnRow blocks x j := by
    rintro j ⟨k, wrong, _⟩
    rw [isX] at wrong
    exact nomatch wrong
  have notX : ∀ j, ∀ b ∈ lists j, b ≠ x := by
    rintro j b inside rfl
    exact new j ((shape.listed.1 j b).mp inside)
  have headsNow : (flInsert s x).heads = Function.update s.heads i (some x) := by
    rw [flInsert_heads, isClass, isRow]
  have mem := flInsert_mem s x
  rw [isClass, isRow] at mem
  have sameSize : ∀ a, ((flInsert s x).mem a).bsize = (s.mem a).bsize :=
    fun a => by rw [mem]
  have samePrev : ∀ a, ((flInsert s x).mem a).prevPhys = (s.mem a).prevPhys :=
    fun a => by rw [mem]
  have flagsNow : ∀ a, ((flInsert s x).mem a).flags = if a = x then blockFree else (s.mem a).flags :=
    fun a => congrArg Hdr.flags (mem a)
  have nextNow : ∀ a, nexts (flInsert s x).mem a = if a = x then s.heads i else nexts s.mem a :=
    fun a => congrArg Hdr.nextFree (mem a)
  have prevNow : ∀ a, prevs (flInsert s x).mem a =
      if s.heads i = some a then some x else if a = x then none else prevs s.mem a :=
    fun a => congrArg Hdr.prevFree (mem a)
  have between := shape.between isX
  refine ⟨Function.update lists i (x :: lists i), ⟨?_, ?_⟩⟩
  · rw [frame.total]
    refine ⟨shape.room, shape.word, shape.cover_role isX, shape.large_role isX,
      shape.listed.add new ?_,
      fun a k => (shape.lived a k).trans (liveNow a k).symm, shape.liveNodup, ?_, ?_⟩
    · rw [← isRow]
      exact onRow_new isX (by decide)
    · intro a k isA
      rcases (update_iff _ _ _ _ _ _).mp isA with ⟨_, _, wrong⟩ | ⟨other, old⟩
      · exact nomatch wrong
      · exact (List.mem_cons.mp (shape.held a k old)).resolve_left other
    · intro a k m isA isB
      rcases (freeNow a k).mp isA with old | ⟨rfl, rfl⟩
      · rcases (freeNow _ m).mp isB with oldB | ⟨here, _⟩
        · exact shape.calm a k m old oldB
        · exact before a k old here
      · rcases (freeNow _ m).mp isB with oldB | ⟨here, _⟩
        · exact behind m oldB
        · have := shape.large isX
          unfold minBlock at this
          omega
  · refine ⟨frame.hasBase.trans stored.base, frame.flCount ▸ stored.levels, ?_, ?_, ?_, ?_, ?_, ?_, ?_, ?_,
      flInsert_marked stored.marked (isClass ▸ levels) (isClass ▸ small),
      frame.allocatedBytes.trans stored.used⟩
    · intro a k r isA
      obtain ⟨r', old⟩ := someNow a k r isA
      exact (sameSize a).trans (stored.bsize a k r' old)
    · intro a k isA
      rw [flagsNow]
      rcases (freeNow a k).mp isA with old | ⟨here, _⟩
      · rw [stored.freeFlags a k old, ite_self]
      · exact if_pos here
    · intro a k isA
      have old := (liveNow a k).mp isA
      rw [flagsNow, if_neg]
      · exact stored.liveFlags a k old
      · rintro rfl
        rw [isX] at old
        exact nomatch old
    · intro a k r isA
      obtain ⟨r', old⟩ := someNow a k r isA
      exact (samePrev _).trans (stored.prev a k r' old)
    · exact (samePrev _).trans stored.firstPrev
    · refine ⟨(sameSize 0).trans stored.start.1, ?_⟩
      rw [flagsNow, if_neg (Ne.symm between.1)]
      exact stored.start.2
    · rw [frame.total, flagsNow, if_neg (Ne.symm between.2.1)]
      exact stored.last
    · intro j
      rw [headsNow]
      by_cases same : j = i
      · rw [same, Function.update_self, Function.update_self]
        have row := stored.rows i
        have notHead : s.heads i ≠ some x := by
          intro isHead
          rw [row.head_eq] at isHead
          exact notX i x (List.mem_of_mem_head? isHead) rfl
        refine row.push ?_ ?_ ?_ ?_ ?_
        · rw [nextNow, if_pos rfl]
        · rw [prevNow, if_neg notHead, if_pos rfl]
        · intro b inside
          rw [nextNow, if_neg (notX i b inside)]
        · intro b isHead
          rw [prevNow, if_pos isHead]
        · intro b inside
          rw [prevNow, if_neg, if_neg (notX i b (List.mem_of_mem_tail inside))]
          intro isHead
          rw [row.head_eq] at isHead
          have nodup := shape.listed.2 i
          obtain ⟨first, rest⟩ : ∃ rest, lists i = b :: rest := by
            cases whole : lists i with
            | nil => rw [whole] at inside; exact nomatch inside
            | cons c rest =>
              rw [whole] at isHead
              exact ⟨rest, by rw [Option.some.inj isHead]⟩
          rw [rest] at nodup inside
          exact (List.nodup_cons.mp nodup).1 inside
      · rw [Function.update_of_ne same, Function.update_of_ne same]
        refine (stored.rows j).congr fun b inside => ⟨?_, ?_⟩
        · rw [nextNow, if_neg (notX j b inside)]
        · rw [prevNow, if_neg, if_neg (notX j b inside)]
          intro isHead
          rw [(stored.rows i).head_eq] at isHead
          exact same (OnRow.unique b j i ((shape.listed.1 j b).mp inside)
            ((shape.listed.1 i b).mp (List.mem_of_mem_head? isHead)))

end Micron.Tlsf
