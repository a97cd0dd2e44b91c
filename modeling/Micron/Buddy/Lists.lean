import Micron.Buddy.Model

/-!
# The free lists and the block in hand

A block comes into hand from the head of its list; the upper half of one in hand, or the
whole of it, goes to the head of a list.
-/

set_option autoImplicit false

namespace Micron.Buddy

open Micron.Lib Function

variable {cfg : Config} {s s' : State} {blocks blocks' : Blocks} {lists : Nat → List Nat}
  {live : List (Nat × Nat)} {stale : Option Nat}

/-- The role of one block is another; no block is moved. -/
theorem Shape.tiling_role (shape : Shape cfg s blocks lists live) {a o : Nat} {role role' : Role}
    (isA : blocks a = some (o, role)) :
    Tiling (topExp cfg s) (exps cfg (update blocks a (some (o, role')))) := by
  have same : exps cfg (update blocks a (some (o, role'))) = exps cfg blocks := by
    rw [exps_update]
    exact update_eq_self_iff.mpr (exps_eq_some isA).symm
  rw [same]
  exact shape.tiling

def Listed (lists : Nat → List Nat) (blocks : Blocks) : Prop :=
  Shelved lists fun a o => blocks a = some (o, .free)

theorem Listed.remove (listed : Listed lists blocks) {i x : Nat} (front : List Nat) {back : List Nat}
    (isX : lists i = front ++ x :: back)
    (now : ∀ a o, blocks' a = some (o, .free) ↔ blocks a = some (o, .free) ∧ a ≠ x) :
    Listed (update lists i (front ++ back)) blocks' := by
  refine Shelved.remove listed ?_ front isX now
  intro a i j isI isJ
  rw [isI] at isJ
  exact congrArg Prod.fst (Option.some.inj isJ)

theorem Shape.toListed (shape : Shape cfg s blocks lists live) : Listed lists blocks :=
  ⟨shape.listed, shape.nodup⟩

theorem mask_pop (mask : ∀ o < 64, s.freeMask.getLsbD o = (s.freeLists o).isSome) {i : Nat}
    (small : i < 64) (was : (s.freeLists i).isSome = true) (head : Option Nat) (o : Nat) (below : o < 64) :
    (maskClearIfEmpty (setHead s i head) i).freeMask.getLsbD o =
      (update s.freeLists i head o).isSome := by
  rw [getLsbD_maskClearIfEmpty _ small below]
  by_cases same : o = i
  · rw [if_pos same, same]
    change (s.freeMask.getLsbD i && (update s.freeLists i head i).isSome) = _
    rw [mask i small, was, Bool.true_and]
  · rw [if_neg same, update_of_ne same]
    exact mask o below

theorem mask_push (mask : ∀ o < 64, s.freeMask.getLsbD o = (s.freeLists o).isSome) {i : Nat}
    (small : i < 64) (x : Nat) (o : Nat) (below : o < 64) :
    (maskSet s i).freeMask.getLsbD o = (update s.freeLists i (some x) o).isSome := by
  rw [getLsbD_maskSet s small, mask o below]
  by_cases same : o = i
  · rw [same, update_self]
    simp
  · rw [update_of_ne same]
    simp [same]

theorem goodNext_eq (shape : Shape cfg s blocks lists live) (stored : Stored cfg s blocks lists live stale)
    {o a : Nat} (front : List Nat) {back : List Nat} (isList : lists o = front ++ a :: back) :
    goodNext cfg s a = back.head? := by
  have chain := stored.chain o
  rw [isList] at chain
  have next : (s.mem a).next = back.head? := chain.next_eq
  have valid : linkValid cfg s back.head? = true := by
    cases back with
    | nil => rfl
    | cons b rest =>
      have isB := (shape.listed o b).mp (by rw [isList]; simp)
      have aligned := Nat.mod_eq_zero_of_dvd (shape.aligned isB)
      have below := shape.lt_total isB
      simp [linkValid, below, aligned]
  unfold goodNext
  simp only [next, valid, if_true]

theorem head_block (shape : Shape cfg s blocks lists live) (stored : Stored cfg s blocks lists live stale)
    {i blk : Nat} (head : s.freeLists i = some blk) :
    ∃ rest, lists i = blk :: rest ∧ blocks blk = some (i, .free) := by
  have chain := stored.chain i
  rw [head] at chain
  cases isList : lists i with
  | nil =>
    rw [isList] at chain
    exact nomatch chain
  | cons first rest =>
    rw [isList] at chain
    obtain rfl : blk = first := Option.some.inj chain.1
    exact ⟨rest, rfl, (shape.listed i blk).mp (by rw [isList]; simp)⟩

theorem pop_spec (shape : Shape cfg s blocks lists live) (stored : Stored cfg s blocks lists live none)
    {i blk : Nat} {rest : List Nat} (isList : lists i = blk :: rest)
    (isBlk : blocks blk = some (i, .free)) :
    Shape cfg (freelistPop cfg s blk i) (update blocks blk (some (i, .hand)))
        (update lists i rest) live ∧
      Stored cfg (freelistPop cfg s blk i) (update blocks blk (some (i, .hand)))
        (update lists i rest) live (some blk) := by
  have below := shape.order_lt isBlk
  have few := shape.few
  have next : goodNext cfg s blk = rest.head? := goodNext_eq shape stored [] isList
  have freeNow : ∀ a o, update blocks blk (some (i, .hand)) a = some (o, Role.free) ↔
      blocks a = some (o, .free) ∧ a ≠ blk := role_lost (by decide)
  have liveNow : ∀ a o, update blocks blk (some (i, .hand)) a = some (o, Role.live) ↔
      blocks a = some (o, .live) := role_same isBlk (by decide) (by decide)
  have listed := shape.toListed.remove [] isList freeNow
  have chainI := stored.chain i
  rw [isList] at chainI
  have was : (s.freeLists i).isSome = true := by rw [chainI.1]; rfl
  refine ⟨⟨shape.base, shape.orders, shape.few, shape.room, shape.word, shape.tiling_role isBlk,
    listed.1, listed.2, fun a o => (shape.lived a o).trans (liveNow a o).symm, shape.liveNodup, ?_⟩,
    ⟨?_, ?_, ?_, ?_, ?_, ?_, stored.used⟩⟩
  · intro a o isA more isBuddy
    exact shape.noBuddies a o ((freeNow a o).mp isA).1 more ((freeNow _ o).mp isBuddy).1
  · intro o
    change Chain (links s) (update s.freeLists i (goodNext cfg s blk) o) _
    by_cases same : o = i
    · rw [same, update_self, update_self, next]
      have tail := chainI.2
      rwa [tail.head_eq] at tail
    · rw [update_of_ne same, update_of_ne same]
      exact stored.chain o
  · exact mask_pop stored.mask (by omega) was _
  · exact fun a o isA => stored.header a o ((liveNow a o).mp isA)
  · exact fun a o isA => stored.freeTag a o ((freeNow a o).mp isA).1
  · exact fun a o isA => stored.liveTag a o ((liveNow a o).mp isA)
  · intro a o small aligned tag
    rcases stored.tagFree a o small aligned tag with isA | wrong
    · by_cases same : a = blk
      · exact .inr (by rw [same])
      · exact .inl ((freeNow a o).mpr ⟨isA, same⟩)
    · exact nomatch wrong

/-- A block that is put on a list, in the tiling it then belongs to. -/
theorem push_stored (stored : Stored cfg s blocks lists live stale) {x i : Nat}
    (new : ∀ o, blocks x ≠ some (o, .free)) (isX : blocks' x = some (i, .free))
    (shape : Shape cfg (freelistPush cfg s x i) blocks' (update lists i (x :: lists i)) live)
    (listed : ∀ o a, a ∈ lists o → blocks a = some (o, .free))
    (freeNow : ∀ a o, blocks' a = some (o, .free) ↔ blocks a = some (o, .free) ∨ a = x ∧ o = i)
    (liveNow : ∀ a o, blocks' a = some (o, .live) ↔ blocks a = some (o, .live)) :
    Stored cfg (freelistPush cfg s x i) blocks' (update lists i (x :: lists i)) live stale := by
  have below := shape.order_lt isX
  have few := shape.few
  have small : i < 64 := lt_of_lt_of_le below few
  have tags : (freelistPush cfg s x i).blockTags =
      update s.blockTags (tagIndexOf cfg x) (i + 128) := by
    simp [freelistPush, tagSetFree, setTag, tag_or small, maskSet, setHead, setWord]
  have otherTag : ∀ a, cfg.min ∣ a → a ≠ x →
      (freelistPush cfg s x i).blockTags (tagIndexOf cfg a) = s.blockTags (tagIndexOf cfg a) := by
    intro a aligned differ
    rw [tags, update_of_ne (tagIndexOf_ne aligned (shape.aligned isX) differ)]
  have ownTag : (freelistPush cfg s x i).blockTags (tagIndexOf cfg x) = i + 128 := by
    rw [tags, update_self]
  have mem : (freelistPush cfg s x i).mem = update s.mem x (.link (s.freeLists i)) := rfl
  have otherLink : ∀ a, a ≠ x → links (freelistPush cfg s x i) a = links s a := by
    intro a differ
    rw [links, mem, update_of_ne differ, links]
  have notX : ∀ o a, a ∈ lists o → a ≠ x := by
    rintro o a inside rfl
    exact new o (listed o a inside)
  refine ⟨?_, ?_, ?_, ?_, ?_, ?_, stored.used⟩
  · intro o
    change Chain _ (update s.freeLists i (some x) o) _
    by_cases same : o = i
    · rw [same, update_self, update_self]
      refine ⟨rfl, ?_⟩
      have ownLink : links (freelistPush cfg s x i) x = s.freeLists i := by
        rw [links, mem, update_self]
        rfl
      rw [ownLink]
      exact (stored.chain i).congr fun a inside => otherLink a (notX i a inside)
    · rw [update_of_ne same, update_of_ne same]
      exact (stored.chain o).congr fun a inside => otherLink a (notX o a inside)
  · exact mask_push stored.mask small x
  · intro a o isA
    have old := stored.header a o ((liveNow a o).mp isA)
    rw [mem, update_of_ne]
    · exact old
    · intro same
      have inside := shape.hdr_mem isA
      rw [same] at inside
      have equal := shape.eq_of_mem isA isX inside.1 inside.2 (le_refl x)
        (Nat.lt_add_of_pos_right (blockSize_pos cfg i))
      rw [equal, isX] at isA
      cases isA
  · intro a o isA
    rcases (freeNow a o).mp isA with old | ⟨rfl, rfl⟩
    · rw [otherTag a (shape.aligned isA) (fun same => new o (same ▸ old))]
      exact stored.freeTag a o old
    · exact ownTag
  · intro a o isA
    rw [otherTag a (shape.aligned isA)]
    · exact stored.liveTag a o ((liveNow a o).mp isA)
    · rintro rfl
      rw [isX] at isA
      cases isA
  · intro a o smallO aligned tag
    by_cases same : a = x
    · rw [same, ownTag] at tag
      refine .inl ?_
      rw [same, isX, show i = o by omega]
    · rw [otherTag a aligned same] at tag
      rcases stored.tagFree a o smallO aligned tag with old | old
      · exact .inl ((freeNow a o).mpr (.inl old))
      · exact .inr old

theorem push_spec (shape : Shape cfg s blocks lists live) (stored : Stored cfg s blocks lists live none)
    {x i : Nat} (isX : blocks x = some (i, .hand))
    (alone : i + 1 < s.maxOrder → blocks (buddy x (cfg.log2Min + i)) ≠ some (i, .free)) :
    Shape cfg (freelistPush cfg s x i) (update blocks x (some (i, .free)))
        (update lists i (x :: lists i)) live ∧
      Stored cfg (freelistPush cfg s x i) (update blocks x (some (i, .free)))
        (update lists i (x :: lists i)) live none := by
  have new : ∀ o, blocks x ≠ some (o, .free) := by
    intro o isFree
    rw [isX] at isFree
    exact nomatch isFree
  have freeNow : ∀ a o, update blocks x (some (i, .free)) a = some (o, Role.free) ↔
      blocks a = some (o, .free) ∨ a = x ∧ o = i := role_new isX (by decide)
  have liveNow : ∀ a o, update blocks x (some (i, .free)) a = some (o, Role.live) ↔
      blocks a = some (o, .live) := role_same isX (by decide) (by decide)
  have listed := Shelved.add shape.toListed new freeNow
  have shape' : Shape cfg (freelistPush cfg s x i) (update blocks x (some (i, .free)))
      (update lists i (x :: lists i)) live := by
    refine ⟨shape.base, shape.orders, shape.few, shape.room, shape.word, shape.tiling_role isX,
      listed.1, listed.2, fun a o => (shape.lived a o).trans (liveNow a o).symm, shape.liveNodup, ?_⟩
    intro a o isA more isBuddy
    rcases (freeNow a o).mp isA with old | ⟨rfl, rfl⟩
    · rcases (freeNow _ o).mp isBuddy with oldBuddy | ⟨same, rfl⟩
      · exact shape.noBuddies a o old more oldBuddy
      · refine alone more ?_
        rw [← same, buddy_buddy]
        exact old
    · rcases (freeNow _ o).mp isBuddy with oldBuddy | ⟨same, _⟩
      · exact alone more oldBuddy
      · exact buddy_ne _ _ same
  exact ⟨shape', push_stored stored new (update_self ..) shape'
    (fun o a inside => (shape.listed o a).mp inside) freeNow liveNow⟩

/-- The upper half of the block in hand is put on its list. -/
theorem split_spec (shape : Shape cfg s blocks lists live)
    {blk i : Nat} (stored : Stored cfg s blocks lists live (some blk))
    (isBlk : blocks blk = some (i + 1, .hand)) (only : OnlyHand blocks blk) :
    ∃ right blocks', right = blk + orderSize cfg i ∧ blocks' blk = some (i, .hand) ∧
      OnlyHand blocks' blk ∧
      Shape cfg (freelistPush cfg s right i) blocks' (update lists i (right :: lists i)) live ∧
      Stored cfg (freelistPush cfg s right i) blocks' (update lists i (right :: lists i)) live
        (some blk) := by
  have below := shape.order_lt isBlk
  have size : orderSize cfg i = blockSize cfg i := shape.orderSize_eq (by omega)
  have expBlk : exps cfg blocks blk = some (cfg.log2Min + i + 1) := exps_eq_some isBlk
  have positive := blockSize_pos cfg i
  have double : blockSize cfg (i + 1) = blockSize cfg i + blockSize cfg i := by
    unfold blockSize
    rw [← add_assoc, pow_succ, Nat.mul_two]
  generalize isRight : blk + blockSize cfg i = right
  have inBlk : ∀ {b o : Nat} {role : Role}, blocks b = some (o, role) → b = right → False := by
    intro b o role isB same
    have equal := shape.eq_of_mem isB isBlk (le_refl b)
      (Nat.lt_add_of_pos_right (blockSize_pos cfg o)) (by omega) (by omega)
    omega
  have differ : blk ≠ right := by omega
  have new : ∀ o, blocks right ≠ some (o, .free) := fun o isFree => inBlk isFree rfl
  have now : ∀ a o r, update (update blocks blk (some (i, .hand))) right
      (some (i, .free)) a = some (o, r) ↔ a = right ∧ o = i ∧ r = .free ∨
        a = blk ∧ o = i ∧ r = .hand ∨ a ≠ blk ∧ blocks a = some (o, r) := by
    intro a o r
    rw [update_iff, update_iff]
    constructor
    · rintro (first | ⟨_, rest⟩)
      · exact .inl first
      · exact .inr rest
    · rintro (first | ⟨rfl, rest⟩ | ⟨other, old⟩)
      · exact .inl first
      · exact .inr ⟨differ, .inl ⟨rfl, rest⟩⟩
      · exact .inr ⟨fun same => inBlk old same, .inr ⟨other, old⟩⟩
  generalize changed : update (update blocks blk (some (i, .hand))) right
    (some (i, .free)) = blocks' at now
  have freeNow : ∀ a o, blocks' a = some (o, .free) ↔
      blocks a = some (o, .free) ∨ a = right ∧ o = i := by
    intro a o
    rw [now]
    constructor
    · rintro (⟨rfl, rfl, _⟩ | ⟨_, _, wrong⟩ | ⟨_, old⟩)
      · exact .inr ⟨rfl, rfl⟩
      · cases wrong
      · exact .inl old
    · rintro (old | ⟨rfl, rfl⟩)
      · refine .inr (.inr ⟨?_, old⟩)
        rintro rfl
        rw [isBlk] at old
        cases old
      · exact .inl ⟨rfl, rfl, rfl⟩
  have liveNow : ∀ a o, blocks' a = some (o, .live) ↔ blocks a = some (o, .live) := by
    intro a o
    rw [now]
    constructor
    · rintro (⟨_, _, wrong⟩ | ⟨_, _, wrong⟩ | ⟨_, old⟩)
      · cases wrong
      · cases wrong
      · exact old
    · intro old
      refine .inr (.inr ⟨?_, old⟩)
      rintro rfl
      rw [isBlk] at old
      cases old
  have isHand : blocks' blk = some (i, .hand) := (now blk i .hand).mpr (.inr (.inl ⟨rfl, rfl, rfl⟩))
  have isFree : blocks' right = some (i, .free) := (freeNow right i).mpr (.inr ⟨rfl, rfl⟩)
  have listed := Shelved.add shape.toListed new freeNow
  have tiling : Tiling (topExp cfg s) (exps cfg blocks') := by
    rw [← changed, exps_update, exps_update, ← isRight]
    exact shape.tiling.split expBlk
  -- the buddy of the upper half is the lower one, which stays in hand
  have buddyRight : buddy right (cfg.log2Min + i) = blk := by
    rw [← isRight]
    exact buddy_high (shape.tiling.aligned expBlk)
  have shape' : Shape cfg (freelistPush cfg s right i) blocks'
      (update lists i (right :: lists i)) live := by
    refine ⟨shape.base, shape.orders, shape.few, shape.room, shape.word, tiling,
      listed.1, listed.2, fun a o => (shape.lived a o).trans (liveNow a o).symm, shape.liveNodup, ?_⟩
    intro a o isA more isBuddy
    rcases (freeNow a o).mp isA with old | ⟨rfl, rfl⟩
    · rcases (freeNow _ o).mp isBuddy with oldBuddy | ⟨same, rfl⟩
      · exact shape.noBuddies a o old more oldBuddy
      · rw [← same, buddy_buddy] at buddyRight
        rw [buddyRight, isBlk] at old
        cases old
    · rw [buddyRight, isHand] at isBuddy
      cases isBuddy
  have onlyNow : OnlyHand blocks' blk := by
    intro a o isA
    rcases (now a o .hand).mp isA with ⟨_, _, wrong⟩ | ⟨here, _⟩ | ⟨_, old⟩
    · cases wrong
    · exact here
    · exact only a o old
  refine ⟨right, blocks', by rw [size, isRight], isHand, onlyNow, shape', ?_⟩
  exact push_stored stored new isFree shape' (fun o a inside => (shape.listed o a).mp inside) freeNow
    liveNow

end Micron.Buddy
