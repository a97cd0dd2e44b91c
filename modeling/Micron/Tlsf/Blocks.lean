import Micron.Tlsf.Invariant

/-!
# Cutting and joining

A block in hand is cut in two, two that are neighbours are joined, and a block goes from
the hand to a user or comes back.
-/

set_option autoImplicit false

namespace Micron.Tlsf

open Micron.Lib List Function

variable {s : State} {blocks blocks' : Blocks} {lists : Nat → List Nat} {live : List (Nat × Nat)}
  {hands hands' : List Nat} {total x n m : Nat}

/-- Neither the free blocks nor the live ones are others. -/
def SameOut (blocks blocks' : Blocks) : Prop :=
  ∀ a k r, r ≠ .hand → (blocks' a = some (k, r) ↔ blocks a = some (k, r))

theorem Shape.redo (shape : Shape total blocks lists live hands)
    (cover : Cover blockAlign (stop total) (sizes blocks'))
    (large : ∀ {a k r}, blocks' a = some (k, r) → minBlock ≤ k) (same : SameOut blocks blocks')
    (held : ∀ a k, blocks' a = some (k, .hand) → a ∈ hands') :
    Shape total blocks' lists live hands' := by
  have freeNow : ∀ a k, blocks' a = some (k, .free) ↔ blocks a = some (k, .free) :=
    fun a k => same a k .free (by decide)
  refine ⟨shape.room, shape.word, cover, large, ⟨?_, shape.listed.2⟩, ?_, shape.liveNodup, held, ?_⟩
  · intro i a
    rw [shape.listed.1 i a]
    unfold OnRow
    simp only [freeNow]
  · exact fun a k => (shape.lived a k).trans (same a k .live (by decide)).symm
  · intro a k j isA isB
    exact shape.calm a k j ((freeNow a k).mp isA) ((freeNow _ j).mp isB)

/-- Headers of another kind of block are written; the rows are as they were. -/
theorem rows_of_mem {mem : Nat → Hdr} (rows : ∀ i, TwoWay (nexts s.mem) (prevs s.mem) none (s.heads i) (lists i))
    (sameNext : ∀ a, (mem a).nextFree = (s.mem a).nextFree)
    (samePrev : ∀ a, (mem a).prevFree = (s.mem a).prevFree) (i : Nat) :
    TwoWay (nexts mem) (prevs mem) none (s.heads i) (lists i) :=
  (rows i).congr fun a _ => ⟨sameNext a, samePrev a⟩

def cutAt (s : State) (x n m : Nat) : State :=
  let s := setBsize s x n
  let s := setHdr s (x + n) { s.mem (x + n) with bsize := m, flags := blockFree, prevPhys := some x }
  setPrevPhys s (nextPhys s (x + n)) (some (x + n))

theorem cutAt_mem (s : State) (x : Nat) {n m : Nat} (someN : 0 < n) (someM : 0 < m) (b : Nat) :
    (cutAt s x n m).mem b = { s.mem b with
      bsize := if b = x + n then m else if b = x then n else (s.mem b).bsize
      flags := if b = x + n then blockFree else (s.mem b).flags
      prevPhys := if b = x + n + m then some (x + n) else if b = x + n then some x
        else (s.mem b).prevPhys } := by
  unfold cutAt
  generalize isY : x + n = y
  generalize isZ : y + m = z
  have differ : x ≠ y := by omega
  have differ' : y ≠ z := by omega
  have differ'' : x ≠ z := by omega
  simp only [setPrevPhys, setBsize, setHdr, nextPhys, update_self, isZ]
  by_cases atEnd : b = z
  · simp [atEnd, Ne.symm differ', Ne.symm differ'']
  · by_cases atRest : b = y
    · simp [atRest, differ', Ne.symm differ]
    · by_cases atStart : b = x
      · simp [atStart, differ, differ'']
      · simp [atEnd, atRest, atStart]

theorem cut_spec (busy : Busy s blocks lists live hands) (isX : blocks x = some (n + m, .hand))
    (largeN : minBlock ≤ n) (largeM : minBlock ≤ m) :
    Busy (cutAt s x n m) (update (update blocks x (some (n, .hand))) (x + n)
      (some (m, .hand))) lists live ((x + n) :: hands) := by
  obtain ⟨shape, stored⟩ := busy
  have someN : 0 < n := lt_of_lt_of_le (by decide) largeN
  have someM : 0 < m := lt_of_lt_of_le (by decide) largeM
  have inside := shape.cover.inside (sizes_eq_some isX)
  have insideX : ∀ {a k r}, blocks a = some (k, r) → a ≠ x → a ≠ x + n ∧ a + k ≠ x + n := by
    intro a k r isA other
    rcases lt_or_gt_of_ne other with less | more
    · have := shape.cover.apart (sizes_eq_some isA) (sizes_eq_some isX) less
      omega
    · have := shape.cover.apart (sizes_eq_some isX) (sizes_eq_some isA) more
      omega
  have now : ∀ {a k r}, update (update blocks x (some (n, .hand))) (x + n)
      (some (m, .hand)) a = some (k, r) → a = x + n ∧ k = m ∧ r = .hand ∨
        a = x ∧ k = n ∧ r = .hand ∨ a ≠ x ∧ a ≠ x + n ∧ blocks a = some (k, r) := by
    intro a k r isA
    rcases (update_iff _ _ _ _ _ _).mp isA with here | ⟨other, old⟩
    · exact .inl here
    · rcases (update_iff _ _ _ _ _ _).mp old with here | ⟨other', old'⟩
      · exact .inr (.inl here)
      · exact .inr (.inr ⟨other', other, old'⟩)
  have sameOut : SameOut blocks (update (update blocks x (some (n, .hand))) (x + n)
      (some (m, .hand))) := by
    intro a k r role
    constructor
    · intro isA
      rcases now isA with ⟨_, _, wrong⟩ | ⟨_, _, wrong⟩ | ⟨_, _, old⟩
      · exact absurd wrong role
      · exact absurd wrong role
      · exact old
    · intro isA
      have other : a ≠ x := by
        rintro rfl
        rw [isX] at isA
        exact role (Prod.mk.inj (Option.some.inj isA)).2.symm
      exact (update_iff _ _ _ _ _ _).mpr (.inr ⟨(insideX isA other).1,
        (update_iff _ _ _ _ _ _).mpr (.inr ⟨other, isA⟩)⟩)
  have cover : Cover blockAlign (stop s.total) (sizes (update (update blocks x
      (some (n, .hand))) (x + n) (some (m, .hand)))) := by
    rw [sizes_update, sizes_update]
    exact shape.cover.cut (sizes_eq_some isX) someN someM
  have mem := cutAt_mem s x someN someM
  generalize update (update blocks x (some (n, .hand))) (x + n) (some (m, .hand)) =
    blocks' at now sameOut cover
  have isOut : ∀ {a k r}, r ≠ .hand → blocks' a = some (k, r) → a ≠ x ∧ a ≠ x + n ∧
      blocks a = some (k, r) := by
    intro a k r role isA
    rcases now isA with ⟨_, _, wrong⟩ | ⟨_, _, wrong⟩ | out
    · exact absurd wrong role
    · exact absurd wrong role
    · exact out
  have flags : ∀ a, a ≠ x + n → ((cutAt s x n m).mem a).flags = (s.mem a).flags := by
    intro a other
    rw [mem]
    exact if_neg other
  have align : 0 < blockAlign := by decide
  refine ⟨shape.redo cover ?_ sameOut ?_, ⟨stored.base, stored.levels, ?_, ?_, ?_, ?_, ?_, ?_, ?_, ?_,
    stored.marked, stored.used⟩⟩
  · intro a k r isA
    rcases now isA with ⟨_, rfl, _⟩ | ⟨_, rfl, _⟩ | ⟨_, _, old⟩
    · exact largeM
    · exact largeN
    · exact shape.large old
  · intro a k isA
    rcases now isA with ⟨rfl, _⟩ | ⟨rfl, _⟩ | ⟨_, _, old⟩
    · exact mem_cons_self
    · exact mem_cons_of_mem _ (shape.held a _ isX)
    · exact mem_cons_of_mem _ (shape.held a k old)
  · intro a k r isA
    rw [mem]
    rcases now isA with ⟨rfl, rfl, _⟩ | ⟨rfl, rfl, _⟩ | ⟨other, other', old⟩
    · exact if_pos rfl
    · exact (if_neg (by omega)).trans (if_pos rfl)
    · exact ((if_neg other').trans (if_neg other)).trans (stored.bsize a k r old)
  · intro a k isA
    obtain ⟨_, other, old⟩ := isOut (by decide) isA
    exact (flags a other).trans (stored.freeFlags a k old)
  · intro a k isA
    obtain ⟨_, other, old⟩ := isOut (by decide) isA
    exact (flags a other).trans (stored.liveFlags a k old)
  · intro a k r isA
    rw [mem]
    rcases now isA with ⟨rfl, rfl, _⟩ | ⟨rfl, rfl, _⟩ | ⟨other, _, old⟩
    · exact if_pos rfl
    · exact (if_neg (by omega)).trans (if_pos rfl)
    · have notEnd : a + k ≠ x + n + m := by
        intro same
        exact other (shape.eq_of_end old isX (by omega))
      exact ((if_neg notEnd).trans (if_neg (insideX old other).2)).trans (stored.prev a k r old)
  · rw [mem]
    exact ((if_neg (by omega)).trans (if_neg (by omega))).trans stored.firstPrev
  · rw [mem]
    refine ⟨((if_neg (by omega)).trans (if_neg (by omega))).trans stored.start.1, ?_⟩
    exact (if_neg (by omega)).trans stored.start.2
  · exact (flags _ (by change stop s.total ≠ _; omega)).trans stored.last
  · exact rows_of_mem (s := s) stored.rows (fun a => by rw [mem]) (fun a => by rw [mem])

def joinAt (s : State) (a n m : Nat) : State :=
  let s := setBsize s a (n + m)
  setPrevPhys s (nextPhys s a) (some a)

theorem joinAt_mem (s : State) (x : Nat) {n : Nat} (someN : 0 < n) (m b : Nat) :
    (joinAt s x n m).mem b = { s.mem b with
      bsize := if b = x then n + m else (s.mem b).bsize
      prevPhys := if b = x + (n + m) then some x else (s.mem b).prevPhys } := by
  unfold joinAt
  generalize isSize : n + m = k
  generalize isZ : x + k = z
  have differ : x ≠ z := by omega
  simp only [setPrevPhys, setBsize, setHdr, nextPhys, update_self, isZ]
  by_cases atEnd : b = z
  · simp [atEnd, Ne.symm differ]
  · by_cases atStart : b = x
    · simp [atStart, differ]
    · simp [atEnd, atStart]

theorem join_spec (busy : Busy s blocks lists live hands) (isX : blocks x = some (n, .hand))
    (isY : blocks (x + n) = some (m, .hand)) (mine : x ∈ hands')
    (rest : ∀ a ∈ hands, a ≠ x → a ≠ x + n → a ∈ hands') :
    Busy (joinAt s x n m) (update (update blocks (x + n) none) x
      (some (n + m, .hand))) lists live hands' := by
  obtain ⟨shape, stored⟩ := busy
  have largeN := shape.large isX
  have someN := shape.cover.positive (sizes_eq_some isX)
  have inside := shape.cover.inside (sizes_eq_some isX)
  have now : ∀ {a k r}, update (update blocks (x + n) none) x
      (some (n + m, .hand)) a = some (k, r) → a = x ∧ k = n + m ∧ r = .hand ∨
        a ≠ x ∧ a ≠ x + n ∧ blocks a = some (k, r) := by
    intro a k r isA
    rcases (update_iff _ _ _ _ _ _).mp isA with here | ⟨other, old⟩
    · exact .inl here
    · by_cases gone : a = x + n
      · rw [gone, update_self] at old
        exact nomatch old
      · rw [update_of_ne gone] at old
        exact .inr ⟨other, gone, old⟩
  have sameOut : SameOut blocks (update (update blocks (x + n) none) x
      (some (n + m, .hand))) := by
    intro a k r role
    constructor
    · intro isA
      rcases now isA with ⟨_, _, wrong⟩ | ⟨_, _, old⟩
      · exact absurd wrong role
      · exact old
    · intro isA
      have notHand : ∀ {b j}, blocks b = some (j, .hand) → a ≠ b := by
        rintro b j isB rfl
        rw [isB] at isA
        exact role (Prod.mk.inj (Option.some.inj isA)).2.symm
      refine (update_iff _ _ _ _ _ _).mpr (.inr ⟨notHand isX, ?_⟩)
      rw [update_of_ne (notHand isY)]
      exact isA
  have cover : Cover blockAlign (stop s.total) (sizes (update (update blocks (x + n)
      none) x (some (n + m, .hand)))) := by
    rw [sizes_update, sizes_update]
    exact shape.cover.join (sizes_eq_some isX) (sizes_eq_some isY)
  have mem := joinAt_mem s x someN m
  generalize update (update blocks (x + n) none) x (some (n + m, .hand)) =
    blocks' at now sameOut cover
  have flags : ∀ a, ((joinAt s x n m).mem a).flags = (s.mem a).flags := by
    intro a
    rw [mem]
  have align : 0 < blockAlign := by decide
  refine ⟨shape.redo cover ?_ sameOut ?_, ⟨stored.base, stored.levels, ?_, ?_, ?_, ?_, ?_, ?_, ?_, ?_,
    stored.marked, stored.used⟩⟩
  · intro a k r isA
    rcases now isA with ⟨_, rfl, _⟩ | ⟨_, _, old⟩
    · exact le_trans largeN (Nat.le_add_right _ _)
    · exact shape.large old
  · intro a k isA
    rcases now isA with ⟨rfl, _⟩ | ⟨other, other', old⟩
    · exact mine
    · exact rest a (shape.held a k old) other other'
  · intro a k r isA
    rw [mem]
    rcases now isA with ⟨rfl, rfl, _⟩ | ⟨other, _, old⟩
    · exact if_pos rfl
    · exact (if_neg other).trans (stored.bsize a k r old)
  · intro a k isA
    exact (flags a).trans (stored.freeFlags a k ((sameOut a k .free (by decide)).mp isA))
  · intro a k isA
    exact (flags a).trans (stored.liveFlags a k ((sameOut a k .live (by decide)).mp isA))
  · intro a k r isA
    rw [mem]
    rcases now isA with ⟨rfl, rfl, _⟩ | ⟨_, other, old⟩
    · exact if_pos rfl
    · have notEnd : a + k ≠ x + (n + m) := by
        intro same
        exact other (shape.eq_of_end old isY (by omega))
      exact (if_neg notEnd).trans (stored.prev a k r old)
  · rw [mem]
    exact (if_neg (by omega)).trans stored.firstPrev
  · refine ⟨?_, (flags 0).trans stored.start.2⟩
    rw [mem]
    exact (if_neg (by omega)).trans stored.start.1
  · exact (flags _).trans stored.last
  · exact rows_of_mem (s := s) stored.rows (fun a => by rw [mem]) (fun a => by rw [mem])

/-! ## Between the hand and a user -/

theorem onRow_same {role role' : Role} (isX : blocks x = some (n, role)) (notOld : .free ≠ role)
    (notNew : .free ≠ role') (listed : Shelved lists (OnRow blocks)) :
    Shelved lists (OnRow (update blocks x (some (n, role')))) := by
  refine ⟨?_, listed.2⟩
  intro i a
  rw [listed.1 i a]
  unfold OnRow
  simp only [role_same isX notOld notNew]

theorem give_spec (busy : Busy s blocks lists live (x :: hands)) (isX : blocks x = some (n, .hand)) :
    Busy { setFlags s x blockAlloc with allocatedBytes := s.allocatedBytes + n }
      (update blocks x (some (n, .live))) lists ((x, n) :: live) hands := by
  obtain ⟨shape, stored⟩ := busy
  have between := shape.between isX
  have freeNow : ∀ a k, update blocks x (some (n, .live)) a = some (k, Role.free) ↔
      blocks a = some (k, .free) := role_same isX (by decide) (by decide)
  have liveNow : ∀ a k, update blocks x (some (n, .live)) a = some (k, Role.live) ↔
      blocks a = some (k, .live) ∨ a = x ∧ k = n := role_new isX (by decide)
  have someNow : ∀ a k r, update blocks x (some (n, .live)) a = some (k, r) →
      ∃ r', blocks a = some (k, r') := fun _ _ _ => role_some isX
  have notLive : (x, n) ∉ live := by
    intro inside
    have wrong := (shape.lived x n).mp inside
    rw [isX] at wrong
    cases wrong
  have mem : ∀ a, (setFlags s x blockAlloc).mem a =
      { s.mem a with flags := if a = x then blockAlloc else (s.mem a).flags } := by
    intro a
    by_cases same : a = x
    · subst same
      simp [setFlags, setHdr]
    · simp [setFlags, setHdr, same]
  generalize isS : setFlags s x blockAlloc = s' at mem
  have rest : s'.hasBase = s.hasBase ∧ s'.flCount = s.flCount ∧ s'.total = s.total ∧
      s'.heads = s.heads ∧ s'.flBitmap = s.flBitmap ∧ s'.slBitmap = s.slBitmap := by
    rw [← isS]
    exact ⟨rfl, rfl, rfl, rfl, rfl, rfl⟩
  obtain ⟨base, levels, total, heads, fl, sl⟩ := rest
  have flags : ∀ a, a ≠ x → (s'.mem a).flags = (s.mem a).flags := by
    intro a other
    rw [mem]
    exact if_neg other
  refine ⟨⟨?_, ?_, ?_, shape.large_role isX, onRow_same isX (by decide) (by decide) shape.listed, ?_,
    nodup_cons.mpr ⟨notLive, shape.liveNodup⟩, ?_, ?_⟩,
    ⟨base.trans stored.base, levels ▸ stored.levels, ?_, ?_, ?_, ?_, ?_, ?_, ?_, ?_, ?_, ?_⟩⟩
  · exact total ▸ shape.room
  · exact total ▸ shape.word
  · exact total ▸ shape.cover_role isX
  · intro a k
    rw [liveNow, mem_cons, shape.lived, Prod.mk.injEq, or_comm]
  · intro a k isA
    rcases (update_iff _ _ _ _ _ _).mp isA with ⟨_, _, wrong⟩ | ⟨other, old⟩
    · cases wrong
    · exact (mem_cons.mp (shape.held a k old)).resolve_left other
  · intro a k j isA isB
    exact shape.calm a k j ((freeNow a k).mp isA) ((freeNow _ j).mp isB)
  · intro a k r isA
    obtain ⟨r', old⟩ := someNow a k r isA
    rw [mem]
    exact stored.bsize a k r' old
  · intro a k isA
    have old := (freeNow a k).mp isA
    refine (flags a ?_).trans (stored.freeFlags a k old)
    rintro rfl
    rw [isX] at old
    cases old
  · intro a k isA
    rcases (liveNow a k).mp isA with old | ⟨rfl, _⟩
    · rw [mem, stored.liveFlags a k old, ite_self]
    · rw [mem]
      exact if_pos rfl
  · intro a k r isA
    obtain ⟨r', old⟩ := someNow a k r isA
    rw [mem]
    exact stored.prev a k r' old
  · change (s'.mem blockAlign).prevPhys = some 0
    rw [mem]
    exact stored.firstPrev
  · change (s'.mem 0).bsize = blockAlign ∧ (s'.mem 0).flags = blockAlloc
    refine ⟨?_, (flags 0 (Ne.symm between.1)).trans stored.start.2⟩
    rw [mem]
    exact stored.start.1
  · change (s'.mem (stop s'.total)).flags = blockAlloc
    rw [total]
    exact (flags _ (Ne.symm between.2.1)).trans stored.last
  · intro i
    rw [heads]
    exact rows_of_mem (s := s) stored.rows (fun a => by rw [mem]) (fun a => by rw [mem]) i
  · change Marked s'.flBitmap s'.slBitmap s'.heads
    rw [heads, fl, sl]
    exact stored.marked
  · change s.allocatedBytes + n = _
    rw [map_cons, sum_cons, stored.used, add_comm]

theorem claim_spec (busy : Busy s blocks lists live hands) (isX : blocks x = some (n, .live)) :
    Busy { s with allocatedBytes := s.allocatedBytes - n }
      (update blocks x (some (n, .hand))) lists (live.erase (x, n)) (x :: hands) := by
  obtain ⟨shape, stored⟩ := busy
  have freeNow : ∀ a k, update blocks x (some (n, .hand)) a = some (k, Role.free) ↔
      blocks a = some (k, .free) := role_same isX (by decide) (by decide)
  have liveNow : ∀ a k, update blocks x (some (n, .hand)) a = some (k, Role.live) ↔
      blocks a = some (k, .live) ∧ a ≠ x := role_lost (by decide)
  have someNow : ∀ a k r, update blocks x (some (n, .hand)) a = some (k, r) →
      ∃ r', blocks a = some (k, r') := fun _ _ _ => role_some isX
  have isLive : (x, n) ∈ live := (shape.lived x n).mpr isX
  refine ⟨⟨shape.room, shape.word, shape.cover_role isX, shape.large_role isX,
    onRow_same isX (by decide) (by decide) shape.listed, ?_, shape.liveNodup.erase _, ?_, ?_⟩,
    ⟨stored.base, stored.levels, ?_, ?_, ?_, ?_, stored.firstPrev, stored.start, stored.last, stored.rows,
      stored.marked, ?_⟩⟩
  · intro a k
    rw [liveNow, shape.liveNodup.mem_erase_iff, shape.lived, and_comm]
    refine and_congr_right fun isA => not_congr ⟨fun same => (Prod.mk.inj same).1, ?_⟩
    rintro rfl
    rw [isX] at isA
    exact Prod.ext rfl (Prod.mk.inj (Option.some.inj isA)).1.symm
  · intro a k isA
    rcases (update_iff _ _ _ _ _ _).mp isA with ⟨rfl, _⟩ | ⟨_, old⟩
    · exact mem_cons_self
    · exact mem_cons_of_mem x (shape.held a k old)
  · intro a k j isA isB
    exact shape.calm a k j ((freeNow a k).mp isA) ((freeNow _ j).mp isB)
  · intro a k r isA
    obtain ⟨r', old⟩ := someNow a k r isA
    exact stored.bsize a k r' old
  · exact fun a k isA => stored.freeFlags a k ((freeNow a k).mp isA)
  · exact fun a k isA => stored.liveFlags a k ((liveNow a k).mp isA).1
  · intro a k r isA
    obtain ⟨r', old⟩ := someNow a k r isA
    exact stored.prev a k r' old
  · change s.allocatedBytes - n = _
    have sum := ((perm_cons_erase isLive).map Prod.snd).sum_eq
    rw [stored.used, sum]
    exact Nat.add_sub_cancel_left _ _

end Micron.Tlsf
