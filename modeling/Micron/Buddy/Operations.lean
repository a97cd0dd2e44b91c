import Micron.Buddy.Merge

/-!
# The operations

Each operation on a state whose blocks are all free or live leaves one.
-/

set_option autoImplicit false

namespace Micron.Buddy

open Micron.Lib List Function Nat

variable {cfg : Config} {s : State} {blocks : Blocks} {lists : Nat → List Nat}
  {live : List (Nat × Nat)} {stale : Option Nat}

theorem setWord_frame (shape : Shape cfg s blocks lists live) (stored : Stored cfg s blocks lists live stale)
    {x u o : Nat} {role : Role} (isX : blocks x = some (o, role)) (notFree : role ≠ .free)
    (low : x ≤ u) (high : u < x + blockSize cfg o) (w : Word) :
    (∀ k, Chain (links (setWord s u w)) (s.freeLists k) (lists k)) ∧
      ∀ a k, blocks a = some (k, .live) → a ≠ x →
        (setWord s u w).mem (hdrOf cfg a k) = .header k blockAlloc := by
  refine ⟨?_, ?_⟩
  · intro k
    refine (stored.chain k).congr fun a inside => ?_
    have isA := (shape.listed k a).mp inside
    have differ : a ≠ u := by
      rintro rfl
      have equal := shape.eq_of_mem isA isX (le_refl a)
        (Nat.lt_add_of_pos_right (blockSize_pos cfg k)) low high
      rw [equal, isX] at isA
      exact notFree (congrArg Prod.snd (Option.some.inj isA))
    change (update s.mem u w a).next = (s.mem a).next
    rw [update_of_ne differ]
  · intro a k isA other
    have differ : hdrOf cfg a k ≠ u := by
      intro same
      have inside := shape.hdr_mem isA
      rw [same] at inside
      exact other (shape.eq_of_mem isA isX inside.1 inside.2 low high)
    change update s.mem u w (hdrOf cfg a k) = _
    rw [update_of_ne differ]
    exact stored.header a k isA

theorem finishAlloc_spec (shape : Shape cfg s blocks lists live) {blk o : Nat}
    (stored : Stored cfg s blocks lists live (some blk)) (isBlk : blocks blk = some (o, .hand)) :
    ∃ blocks', Shape cfg (finishAlloc cfg s blk o).1 blocks' lists ((blk, o) :: live) ∧
      Stored cfg (finishAlloc cfg s blk o).1 blocks' lists ((blk, o) :: live) none ∧
      blocks' = update blocks blk (some (o, .live)) := by
  have below := shape.order_lt isBlk
  have few := shape.few
  have size := shape.orderSize_eq below
  have hdr := shape.hdr_mem isBlk
  obtain ⟨chains, headers⟩ := setWord_frame shape stored isBlk (by decide) hdr.1 hdr.2
    (.header o blockAlloc)
  have freeNow : ∀ a k, update blocks blk (some (o, .live)) a = some (k, Role.free) ↔
      blocks a = some (k, .free) := role_same isBlk (by decide) (by decide)
  have liveNow : ∀ a k, update blocks blk (some (o, .live)) a = some (k, Role.live) ↔
      blocks a = some (k, .live) ∨ a = blk ∧ k = o := role_new isBlk (by decide)
  have ownTag : (finishAlloc cfg s blk o).1.blockTags (tagIndexOf cfg blk) = o := by
    change update s.blockTags (tagIndexOf cfg blk) (o % 256) _ = o
    rw [update_self]
    omega
  have otherTag : ∀ a, cfg.min ∣ a → a ≠ blk →
      (finishAlloc cfg s blk o).1.blockTags (tagIndexOf cfg a) = s.blockTags (tagIndexOf cfg a) := by
    intro a aligned differ
    exact update_of_ne (tagIndexOf_ne aligned (shape.aligned isBlk) differ) _ _
  refine ⟨_, ⟨shape.base, shape.orders, shape.few, shape.room, shape.word, shape.tiling_role isBlk, ?_,
    shape.nodup, ?_, ?_, ?_⟩, ⟨chains, stored.mask, ?_, ?_, ?_, ?_, ?_⟩, rfl⟩
  · exact fun k a => (shape.listed k a).trans (freeNow a k).symm
  · intro a k
    rw [liveNow, mem_cons, Prod.mk.injEq, shape.lived, or_comm]
  · refine nodup_cons.mpr ⟨?_, shape.liveNodup⟩
    intro inside
    rw [shape.lived, isBlk] at inside
    exact nomatch inside
  · intro a k isA more isBuddy
    exact shape.noBuddies a k ((freeNow a k).mp isA) more ((freeNow _ k).mp isBuddy)
  · intro a k isA
    rcases (liveNow a k).mp isA with old | ⟨rfl, rfl⟩
    · refine headers a k old ?_
      rintro rfl
      rw [isBlk] at old
      exact nomatch old
    · exact update_self ..
  · intro a k isA
    have old := (freeNow a k).mp isA
    rw [otherTag a (shape.aligned old)]
    · exact stored.freeTag a k old
    · rintro rfl
      rw [isBlk] at old
      exact nomatch old
  · intro a k isA
    rcases (liveNow a k).mp isA with old | ⟨rfl, rfl⟩
    · rw [otherTag a (shape.aligned old)]
      · exact stored.liveTag a k old
      · rintro rfl
        rw [isBlk] at old
        exact nomatch old
    · exact ownTag
  · intro a k small aligned tag
    by_cases same : a = blk
    · rw [same, ownTag] at tag
      omega
    · rw [otherTag a aligned same] at tag
      rcases stored.tagFree a k small aligned tag with old | old
      · exact .inl ((freeNow a k).mpr old)
      · exact absurd (Option.some.inj old).symm same
  · change s.allocatedBytes + orderSize cfg o = _
    rw [map_cons, sum_cons, size, stored.used, add_comm]

theorem startFree_spec (shape : Shape cfg s blocks lists live)
    (stored : Stored cfg s blocks lists live none) {blk o : Nat} (isBlk : blocks blk = some (o, .live))
    {s' : State}
    (isS : s' = setWord { s with allocatedBytes := s.allocatedBytes - orderSize cfg o }
      (hdrOf cfg blk o) (.header o blockFree)) :
    Shape cfg s' (update blocks blk (some (o, .hand))) lists (live.erase (blk, o)) ∧
      Stored cfg s' (update blocks blk (some (o, .hand))) lists (live.erase (blk, o)) none := by
  subst isS
  have below := shape.order_lt isBlk
  have size := shape.orderSize_eq below
  have hdr := shape.hdr_mem isBlk
  obtain ⟨chains, headers⟩ := setWord_frame shape stored isBlk (by decide) hdr.1 hdr.2
    (.header o blockFree)
  have isLive : (blk, o) ∈ live := (shape.lived blk o).mpr isBlk
  have freeNow : ∀ a k, update blocks blk (some (o, .hand)) a = some (k, Role.free) ↔
      blocks a = some (k, .free) := role_same isBlk (by decide) (by decide)
  have liveNow : ∀ a k, update blocks blk (some (o, .hand)) a = some (k, Role.live) ↔
      blocks a = some (k, .live) ∧ a ≠ blk := role_lost (by decide)
  refine ⟨⟨shape.base, shape.orders, shape.few, shape.room, shape.word, shape.tiling_role isBlk, ?_,
    shape.nodup, ?_, shape.liveNodup.erase _, ?_⟩, ⟨chains, stored.mask, ?_, ?_, ?_, ?_, ?_⟩⟩
  · exact fun k a => (shape.listed k a).trans (freeNow a k).symm
  · intro a k
    rw [liveNow, shape.liveNodup.mem_erase_iff, shape.lived, and_comm]
    refine and_congr_right fun isA => not_congr ?_
    constructor
    · exact fun same => (Prod.mk.inj same).1
    · rintro rfl
      rw [isBlk] at isA
      rw [(Prod.mk.inj (Option.some.inj isA)).1]
  · intro a k isA more isBuddy
    exact shape.noBuddies a k ((freeNow a k).mp isA) more ((freeNow _ k).mp isBuddy)
  · intro a k isA
    obtain ⟨old, differ⟩ := (liveNow a k).mp isA
    exact headers a k old differ
  · exact fun a k isA => stored.freeTag a k ((freeNow a k).mp isA)
  · exact fun a k isA => stored.liveTag a k ((liveNow a k).mp isA).1
  · intro a k small aligned tag
    rcases stored.tagFree a k small aligned tag with old | wrong
    · exact .inl ((freeNow a k).mpr old)
    · exact nomatch wrong
  · change s.allocatedBytes - orderSize cfg o = _
    have sum := ((perm_cons_erase isLive).map fun b => blockSize cfg b.2).sum_eq
    rw [map_cons, sum_cons] at sum
    rw [stored.used, sum, size, Nat.add_sub_cancel_left]

def Settled (cfg : Config) (s : State) (live : List (Nat × Nat)) : Prop :=
  ∃ blocks lists, Shape cfg s blocks lists live ∧ Stored cfg s blocks lists live none ∧
    ∀ a o, blocks a ≠ some (o, .hand)

/-- The block in hand is halved down to an order and handed out. -/
theorem splitLoop_spec {blk o : Nat} : ∀ (i : Nat) {s : State} {blocks : Blocks}
    {lists : Nat → List Nat}, Shape cfg s blocks lists live →
    Stored cfg s blocks lists live (some blk) → blocks blk = some (i, .hand) → OnlyHand blocks blk →
    o ≤ i → Settled cfg (finishAlloc cfg (splitLoop cfg s blk o i) blk o).1 ((blk, o) :: live) := by
  intro i
  induction i with
  | zero =>
    intro s blocks lists shape stored isBlk only le
    obtain rfl : o = 0 := by omega
    obtain ⟨blocks', shape', stored', isNew⟩ := finishAlloc_spec shape stored isBlk
    exact ⟨blocks', lists, shape', stored', isNew ▸ only.settle (by decide)⟩
  | succ i ih =>
    intro s blocks lists shape stored isBlk only le
    rw [splitLoop]
    split
    · obtain ⟨right, blocks', isRight, isHand, only', shape', stored'⟩ :=
        split_spec shape stored isBlk only
      rw [← isRight]
      exact ih shape' stored' isHand only' (by assumption)
    · obtain rfl : o = i + 1 := by omega
      obtain ⟨blocks', shape', stored', isNew⟩ := finishAlloc_spec shape stored isBlk
      exact ⟨blocks', lists, shape', stored', isNew ▸ only.settle (by decide)⟩

/-- The block in hand is joined with its buddies, as long as they are free, and put on a
list. -/
theorem mergeLoop_spec : ∀ (above : Nat) {off o : Nat} {s : State} {blocks : Blocks}
    {lists : Nat → List Nat}, Shape cfg s blocks lists live →
    Stored cfg s blocks lists live none → blocks off = some (o, .hand) → OnlyHand blocks off →
    above = s.maxOrder - 1 - o → Settled cfg (mergeLoop cfg s off o above) live := by
  intro above
  induction above with
  | zero =>
    intro off o s blocks lists shape stored isOff only top
    obtain ⟨shape', stored'⟩ := push_spec shape stored isOff (fun more => by omega)
    exact ⟨_, _, shape', stored', only.settle (by decide)⟩
  | succ above ih =>
    intro off o s blocks lists shape stored isOff only left
    have below := shape.order_lt isOff
    have few := shape.few
    have isBuddy : off ^^^ orderSize cfg o = buddy off (cfg.log2Min + o) := by
      rw [shape.orderSize_eq below]
      rfl
    have inside : cfg.min ∣ buddy off (cfg.log2Min + o) := by
      obtain ⟨low, even, _, halves⟩ := buddy_order (shape.tiling.aligned (exps_eq_some isOff))
      have small : cfg.min ∣ 2 ^ (cfg.log2Min + o) := pow_dvd_pow 2 (le_add_right _ o)
      have lowSmall : cfg.min ∣ low :=
        dvd_trans (pow_dvd_pow 2 (le_add_right _ (o + 1))) even
      rcases halves with ⟨_, isHigh⟩ | ⟨_, isLow⟩
      · rw [isHigh]
        exact Nat.dvd_add lowSmall small
      · rw [isLow]
        exact lowSmall
    rw [mergeLoop]
    rw [isBuddy]
    split
    · rename_i tag
      rw [tagIsFreeAtOff, tag_or (by omega), decide_eq_true_eq] at tag
      have isFree : blocks (buddy off (cfg.log2Min + o)) = some (o, .free) := by
        rcases stored.tagFree _ o (by omega) inside tag with found | wrong
        · exact found
        · exact nomatch wrong
      obtain ⟨blocks', lists', isHand, only', orders, shape', stored'⟩ :=
        absorb_spec shape stored isOff isFree rfl only
      exact ih shape' stored' isHand only' (by omega)
    · rename_i tag
      obtain ⟨shape', stored'⟩ := push_spec shape stored isOff (fun _ isFree => by
        refine tag ?_
        rw [tagIsFreeAtOff, tag_or (by omega), decide_eq_true_eq]
        exact stored.freeTag _ o isFree)
      exact ⟨_, _, shape', stored', only.settle (by decide)⟩

/-! ## The calls -/

theorem ctz_spec {m : BitVec 64} (some_ : m ≠ 0#64) : m.getLsbD (ctz m) = true ∧ ctz m < 64 := by
  unfold ctz
  cases found : (List.range 64).find? m.getLsbD with
  | some i =>
    exact ⟨find?_some found, mem_range.mp (mem_of_find?_eq_some found)⟩
  | none =>
    exfalso
    refine some_ (BitVec.eq_of_getLsbD_eq fun i small => ?_)
    have := find?_eq_none.mp found i (mem_range.mpr small)
    simpa using this

/-- The order that is found has a free block, unless there is none. -/
theorem findFreeOrder_spec (stored : Stored cfg s blocks lists live stale) (few : s.maxOrder ≤ 64)
    {o : Nat} (found : findFreeOrder s o < s.maxOrder) :
    o ≤ findFreeOrder s o ∧ (s.freeLists (findFreeOrder s o)).isSome = true := by
  unfold findFreeOrder at found ⊢
  dsimp only at found ⊢
  split at found
  · exact absurd found (lt_irrefl _)
  · rename_i some_
    rw [if_neg some_]
    have bit := (ctz_spec some_).1
    rw [BitVec.getLsbD_ushiftRight] at bit
    refine ⟨le_add_right _ _, ?_⟩
    rw [← stored.mask _ (by omega)]
    exact bit

/-- A block of an order is taken from a list that has one and handed out. -/
theorem take_settled (settled : Settled cfg s live) {i o blk : Nat} (head : s.freeLists i = some blk)
    (le : o ≤ i) :
    Settled cfg (finishAlloc cfg (splitLoop cfg (freelistPop cfg s blk i) blk o i) blk o).1
        ((blk, o) :: live) := by
  obtain ⟨blocks, lists, shape, stored, none_⟩ := settled
  obtain ⟨rest, isList, isBlk⟩ := head_block shape stored head
  obtain ⟨shape', stored'⟩ := pop_spec shape stored isList isBlk
  exact splitLoop_spec i shape' stored' (update_self ..) (OnlyHand.take none_) le

/-- What a call that hands out a block does: nothing, or one more live block. -/
def Hands (cfg : Config) (s : State) (live : List (Nat × Nat)) (result : State × Option (Nat × Nat)) :
    Prop :=
  result = (s, none) ∨ ∃ blk o, result.2 = some (blk, orderSize cfg o - hdrOffset) ∧
    Settled cfg result.1 ((blk, o) :: live)

theorem allocate_hands (settled : Settled cfg s live) (n : Nat) :
    Hands cfg s live (allocate cfg s n) := by
  unfold allocate
  dsimp only
  generalize orderForSize cfg _ = o
  split
  · exact .inl rfl
  · split
    · exact .inl rfl
    · split
      · exact .inl rfl
      · rename_i inside
        obtain ⟨blocks, lists, shape, stored, none_⟩ := settled
        obtain ⟨le, _⟩ := findFreeOrder_spec stored shape.few (Nat.lt_of_not_le inside)
        split
        · exact .inl rfl
        · rename_i blk head
          exact .inr ⟨blk, _, rfl, take_settled ⟨blocks, lists, shape, stored, none_⟩ head le⟩

theorem splitLoop_self (s : State) (blk o : Nat) : splitLoop cfg s blk o o = s := by
  cases o with
  | zero => rfl
  | succ o => rw [splitLoop, if_neg (by omega)]

theorem allocateExact_hands (settled : Settled cfg s live) (n : Nat) :
    Hands cfg s live (allocateExact cfg s n) := by
  unfold allocateExact
  dsimp only
  split
  · exact .inl rfl
  · split
    · exact .inl rfl
    · split
      · exact .inl rfl
      · split
        · exact .inl rfl
        · split
          · exact .inl rfl
          · rename_i blk head
            have taken := take_settled settled head (le_refl _)
            rw [splitLoop_self] at taken
            exact .inr ⟨blk, _, rfl, taken⟩

theorem isAllocated_of_mem (settled : Settled cfg s live) {blk o : Nat} (isLive : (blk, o) ∈ live) :
    isAllocated cfg s blk = true := by
  obtain ⟨blocks, lists, shape, stored, none_⟩ := settled
  have isBlk := (shape.lived blk o).mp isLive
  have below := shape.order_lt isBlk
  have few := shape.few
  have tag := stored.liveTag blk o isBlk
  have aligned : blk % cfg.min = 0 := mod_eq_zero_of_dvd (shape.aligned isBlk)
  have notFree : o &&& Buddy.tagFree = 0 := by
    have table : ∀ k < 64, k &&& Buddy.tagFree = 0 := by decide
    exact table o (by omega)
  have inside := shape.lt_total isBlk
  have order : o < s.maxOrder % 256 := by omega
  simp [isAllocated, shape.base, not_le.mpr inside, aligned, tag, notFree, order]

/-- A live block loses its mark and is joined with its buddies. -/
theorem deallocate_eq (settled : Settled cfg s live) {blk o : Nat} (isLive : (blk, o) ∈ live) :
    deallocate cfg s blk =
      (mergeAndFree cfg (setWord { s with allocatedBytes := s.allocatedBytes - orderSize cfg o }
        (hdrOf cfg blk o) (.header o blockFree)) blk o, .ok) := by
  have admitted := isAllocated_of_mem settled isLive
  obtain ⟨blocks, lists, shape, stored, none_⟩ := settled
  have isBlk := (shape.lived blk o).mp isLive
  have below := shape.order_lt isBlk
  have few := shape.few
  have own : o % Buddy.tagFree = o := mod_eq_of_lt (by change o < 128; omega)
  have inside : ¬ s.maxOrder ≤ o := not_le.mpr below
  unfold deallocate
  simp only [admitted, Bool.true_eq_false, if_false, stored.liveTag blk o isBlk, own,
    stored.header blk o isBlk, inside, blockAlloc, blockFree, one_ne_zero]

theorem deallocate_settled (settled : Settled cfg s live) {blk o : Nat} (isLive : (blk, o) ∈ live) :
    Settled cfg (deallocate cfg s blk).1 (live.erase (blk, o)) ∧ (deallocate cfg s blk).2 = .ok := by
  rw [deallocate_eq settled isLive]
  obtain ⟨blocks, lists, shape, stored, none_⟩ := settled
  have isBlk := (shape.lived blk o).mp isLive
  refine ⟨?_, rfl⟩
  obtain ⟨shape', stored'⟩ := startFree_spec shape stored isBlk rfl
  exact mergeLoop_spec _ shape' stored' (update_self ..) (OnlyHand.take none_) rfl

/-- A user writes to the words of a live block in front of its header. -/
theorem write_settled (settled : Settled cfg s live) {blk o u : Nat} (isLive : (blk, o) ∈ live)
    (low : blk ≤ u) (high : u < blk + (orderSize cfg o - hdrOffset)) (w : Word) :
    Settled cfg (setWord s u w) live := by
  obtain ⟨blocks, lists, shape, stored, none_⟩ := settled
  have isBlk := (shape.lived blk o).mp isLive
  have size := shape.orderSize_eq (shape.order_lt isBlk)
  obtain ⟨chains, headers⟩ := setWord_frame shape stored isBlk (by decide) low (by omega) w
  refine ⟨blocks, lists, ⟨shape.base, shape.orders, shape.few, shape.room, shape.word, shape.tiling,
    shape.listed, shape.nodup, shape.lived, shape.liveNodup, shape.noBuddies⟩,
    ⟨chains, stored.mask, ?_, stored.freeTag, stored.liveTag, stored.tagFree, stored.used⟩, none_⟩
  intro a k isA
  by_cases same : a = blk
  · have isA' := isA
    rw [same, isBlk] at isA'
    obtain rfl : o = k := congrArg Prod.fst (Option.some.inj isA')
    change update s.mem u w (hdrOf cfg a o) = _
    rw [update_of_ne, stored.header a o isA]
    rw [same, hdrOf, size]
    omega
  · exact headers a k isA same

end Micron.Buddy
