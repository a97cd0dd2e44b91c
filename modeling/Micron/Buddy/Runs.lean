import Micron.Buddy.Operations

/-!
# Runs

A run starts with the constructor and goes on with calls and with writes of the users to
what they were given.  In each state of a run the memory is partitioned.
-/

set_option autoImplicit false

namespace Micron.Buddy

open Micron.Lib List Function Nat

theorem orderLoop_spec {total unit : Nat} : ∀ (fuel m blk : Nat), blk = unit * 2 ^ m →
    (m = 0 ∨ unit * 2 ^ (m - 1) ≤ total) →
    m ≤ orderLoop total fuel m blk ∧ orderLoop total fuel m blk ≤ m + fuel ∧
      (orderLoop total fuel m blk = 0 ∨ unit * 2 ^ (orderLoop total fuel m blk - 1) ≤ total) ∧
      (0 < fuel → blk ≤ total → 0 < orderLoop total fuel m blk) := by
  intro fuel
  induction fuel with
  | zero =>
    intro m blk _ fits
    exact ⟨le_refl _, le_refl _, fits, fun wrong => absurd wrong (lt_irrefl 0)⟩
  | succ fuel ih =>
    intro m blk isBlk fits
    rw [orderLoop]
    split
    · rename_i inside
      have next : unit * 2 ^ (m + 1 - 1) ≤ total := by
        rw [Nat.add_sub_cancel, ← isBlk]
        exact inside
      split
      · exact ⟨le_succ m, by omega, .inr next, fun _ _ => succ_pos m⟩
      · have double : blk * 2 = unit * 2 ^ (m + 1) := by
          rw [isBlk, pow_succ, mul_assoc]
        obtain ⟨low, high, room, _⟩ := ih (m + 1) (blk * 2) double (.inr next)
        exact ⟨by omega, by omega, room, fun _ _ => by omega⟩
    · rename_i outside
      exact ⟨le_refl _, by omega, fits, fun _ inside => absurd inside outside⟩

def noBlocks : Blocks := fun _ => none

theorem ofTotal_settled (cfg : Config) {total : Nat} (word : total < 2 ^ 64) (room : cfg.min ≤ total) :
    Settled cfg (State.ofTotal cfg total) [] := by
  have start : cfg.min = cfg.min * 2 ^ 0 := by rw [pow_zero, mul_one]
  obtain ⟨_, most, fits, some_⟩ :=
    @orderLoop_spec total cfg.min cfg.mx 0 cfg.min start (.inl rfl)
  have positive := some_ cfg.someOrders room
  unfold State.ofTotal
  rw [if_neg (not_lt.mpr room)]
  dsimp only
  generalize orderLoop total cfg.mx 0 cfg.min = n at most fits positive
  have few : n ≤ 64 := by
    have := cfg.fits
    omega
  have large : 2 ^ (cfg.log2Min + (n - 1)) ≤ total := by
    rw [pow_add]
    exact fits.resolve_left (ne_of_gt positive)
  -- before its one block is pushed, it is in hand
  generalize isS : ({ State.none with hasBase := true, total := total, maxOrder := n } : State) = s₀
  have orders : s₀.maxOrder = n := by rw [← isS]
  have only : ∀ a o r, update noBlocks 0 (some (n - 1, Role.hand)) a = some (o, r) →
      a = 0 ∧ o = n - 1 ∧ r = .hand := by
    intro a o r isA
    rcases (update_iff 0 (n - 1) a o .hand r).mp isA with found | ⟨_, wrong⟩
    · exact found
    · exact nomatch wrong
  have shape : Shape cfg s₀ (update noBlocks 0 (some (n - 1, .hand))) (fun _ => []) [] := by
    refine ⟨by rw [← isS], orders ▸ positive, orders ▸ few, ?_, ?_, ?_, ?_, fun _ => nodup_nil, ?_,
      nodup_nil, ?_⟩
    · rw [topExp, orders, ← isS]
      exact large
    · rw [← isS]
      exact word
    · rw [topExp, orders, exps_update]
      exact Tiling.whole _
    · intro o a
      refine ⟨nofun, fun isA => ?_⟩
      exact nomatch (only a o .free isA).2.2
    · intro a o
      refine ⟨nofun, fun isA => ?_⟩
      exact nomatch (only a o .live isA).2.2
    · intro a o isA
      exact nomatch (only a o .free isA).2.2
  have stored : Stored cfg s₀ (update noBlocks 0 (some (n - 1, .hand))) (fun _ => []) []
      none := by
    refine ⟨?_, ?_, ?_, ?_, ?_, ?_, ?_⟩
    · intro o
      rw [← isS]
      rfl
    · intro o _
      rw [← isS]
      exact BitVec.getLsbD_zero
    · intro a o isA
      exact nomatch (only a o .live isA).2.2
    · intro a o isA
      exact nomatch (only a o .free isA).2.2
    · intro a o isA
      exact nomatch (only a o .live isA).2.2
    · intro a o small _ tag
      rw [← isS] at tag
      change 255 = o + 128 at tag
      omega
    · rw [← isS]
      rfl
  obtain ⟨shape', stored'⟩ := push_spec shape stored (update_self ..) (fun more => by
    omega)
  have noHead : s₀.freeLists (n - 1) = none := by rw [← isS]; rfl
  have same : tagSetFree cfg (maskSet (setWord (setHead s₀ (n - 1) (some 0)) 0 (.link none)) (n - 1)) 0
      (n - 1) = freelistPush cfg s₀ 0 (n - 1) := by
    rw [freelistPush, noHead]
    rfl
  rw [same]
  exact ⟨_, _, shape', stored', OnlyHand.settle (fun a o isA => (only a o .hand isA).1) (by decide)⟩

theorem none_or_settled (cfg : Config) (ptr : Nat) {len : Nat} (word : len < 2 ^ 64) (extTags : Bool) :
    State.init cfg ptr len extTags = State.none ∨
      (State.init cfg ptr len extTags).hasBase = true ∧
        Settled cfg (State.init cfg ptr len extTags) [] := by
  have whole : ∀ total, total ≤ len → State.ofTotal cfg total = State.none ∨
      (State.ofTotal cfg total).hasBase = true ∧ Settled cfg (State.ofTotal cfg total) [] := by
    intro total fits
    by_cases room : total < cfg.min
    · exact .inl (if_pos room)
    · have settled := ofTotal_settled cfg (by omega) (Nat.le_of_not_lt room)
      have settled' := settled
      obtain ⟨blocks, lists, shape, _⟩ := settled'
      exact .inr ⟨shape.base, settled⟩
  unfold State.init
  dsimp only
  split
  · exact .inl rfl
  · split
    · refine whole _ (Nat.le_trans (Nat.div_mul_le_self _ _) (Nat.sub_le _ _))
    · split
      · exact .inl rfl
      · refine whole _ (Nat.le_trans (Nat.div_mul_le_self _ _) ?_)
        omega

/-- An allocator and what it has handed out: pointers with their lengths. -/
structure Sys where
  state : State
  live : List (Nat × Nat)

inductive Call where
  | allocate (n : Nat)
  | allocateExact (n : Nat)
  | deallocate (off : Nat)
  | write (u : Nat) (w : Word)

def hand (live : List (Nat × Nat)) (result : State × Option (Nat × Nat)) : Sys :=
  ⟨result.1, match result.2 with | some b => b :: live | none => live⟩

def Sys.step (cfg : Config) (y : Sys) : Call → Sys
  | .allocate n => hand y.live (Buddy.allocate cfg y.state n)
  | .allocateExact n => hand y.live (Buddy.allocateExact cfg y.state n)
  | .deallocate off => ⟨(Buddy.deallocate cfg y.state off).1, y.live.eraseP fun b => b.1 = off⟩
  | .write u w => ⟨setWord y.state u w, y.live⟩

/-- Only live blocks are freed, and users write to their own memory. -/
def Call.Valid (y : Sys) : Call → Prop
  | .allocate _ | .allocateExact _ => True
  | .deallocate off => ∃ b ∈ y.live, b.1 = off
  | .write u _ => ∃ b ∈ y.live, b.1 ≤ u ∧ u < b.1 + b.2

inductive Reachable (cfg : Config) (first : State) : Sys → Prop where
  | init : Reachable cfg first ⟨first, []⟩
  | step {y : Sys} (c : Call) (before : Reachable cfg first y) (valid : c.Valid y) :
      Reachable cfg first (y.step cfg c)

variable {cfg : Config}

def handed (cfg : Config) (b : Nat × Nat) : Nat × Nat := (b.1, orderSize cfg b.2 - hdrOffset)

def Kept (cfg : Config) (y : Sys) : Prop :=
  ∃ own, Settled cfg y.state own ∧ y.live.Perm (own.map (handed cfg))

theorem hand_kept {y : Sys} {result : State × Option (Nat × Nat)} (kept : Kept cfg y)
    (hands : ∀ own, Settled cfg y.state own → Hands cfg y.state own result) :
    Kept cfg (hand y.live result) := by
  obtain ⟨own, settled, perm⟩ := kept
  rcases hands own settled with same | ⟨blk, o, isBlk, settled'⟩
  · rw [same]
    exact ⟨own, settled, perm⟩
  · refine ⟨(blk, o) :: own, settled', ?_⟩
    unfold hand
    rw [isBlk]
    exact perm.cons _

theorem deallocate_kept {y : Sys} (kept : Kept cfg y) {off : Nat}
    (valid : Call.Valid y (.deallocate off)) : Kept cfg (y.step cfg (.deallocate off)) := by
  obtain ⟨own, settled, perm⟩ := kept
  obtain ⟨⟨a, o⟩, isOwn, rfl, rest⟩ := eraseP_perm perm valid
  exact ⟨own.erase (a, o), (deallocate_settled settled isOwn).1, rest⟩

theorem step_kept {y : Sys} (kept : Kept cfg y) (c : Call) (valid : c.Valid y) :
    Kept cfg (y.step cfg c) := by
  cases c with
  | allocate n => exact hand_kept kept fun own settled => allocate_hands settled n
  | allocateExact n => exact hand_kept kept fun own settled => allocateExact_hands settled n
  | deallocate off => exact deallocate_kept kept valid
  | write u w =>
    obtain ⟨own, settled, perm⟩ := kept
    obtain ⟨b, inside, low, high⟩ := valid
    obtain ⟨⟨a, o⟩, isOwn, rfl⟩ := mem_map.mp (perm.mem_iff.mp inside)
    exact ⟨own, write_settled settled isOwn low high w, perm⟩

/-- The live blocks, with their headers, and the free ones. -/
def extents (cfg : Config) (s : State) (live : List (Nat × Nat)) (lists : Nat → List Nat) :
    List Extent :=
  (live.map fun b => ⟨b.1, b.2 + hdrOffset⟩) ++
    (List.range s.maxOrder).flatMap fun o => (lists o).map fun a => ⟨a, cfg.min * 2 ^ o⟩

structure Partitioned (cfg : Config) (s : State) (live : List (Nat × Nat)) (lists : Nat → List Nat) :
    Prop where
  chains : ∀ o < s.maxOrder, Chain (links s) (s.freeLists o) (lists o)
  apart : AllApart (extents cfg s live lists)
  covered : ∀ u < cfg.min * 2 ^ (s.maxOrder - 1), ∃ x ∈ extents cfg s live lists,
    x.start ≤ u ∧ u < x.stop
  inside : ∀ x ∈ extents cfg s live lists, x.stop ≤ cfg.min * 2 ^ (s.maxOrder - 1)
  aligned : ∀ x ∈ extents cfg s live lists, ∃ o < s.maxOrder, x.size = cfg.min * 2 ^ o ∧
    cfg.min * 2 ^ o ∣ x.start
  mask : ∀ o < 64, s.freeMask.getLsbD o = (s.freeLists o).isSome
  buddies : ∀ o, o + 1 < s.maxOrder → ∀ a ∈ lists o, a ^^^ (cfg.min * 2 ^ o) ∉ lists o
  used : s.allocatedBytes = (live.map fun b => b.2 + hdrOffset).sum
  empty : live = [] → ∀ o < s.maxOrder, lists o = if o = s.maxOrder - 1 then [0] else []

theorem blockSize_eq (cfg : Config) (o : Nat) : blockSize cfg o = cfg.min * 2 ^ o := pow_add ..

section

variable {s : State} {blocks : Blocks} {lists : Nat → List Nat} {own : List (Nat × Nat)}

def ownExtents (cfg : Config) (s : State) (own : List (Nat × Nat)) (lists : Nat → List Nat) :
    List Extent :=
  (own.map fun b => ⟨b.1, blockSize cfg b.2⟩) ++
    (List.range s.maxOrder).flatMap fun o => (lists o).map fun a => ⟨a, blockSize cfg o⟩

theorem mem_ownExtents (shape : Shape cfg s blocks lists own) (x : Extent) :
    x ∈ ownExtents cfg s own lists ↔ ∃ o role, blocks x.start = some (o, role) ∧ role ≠ .hand ∧
      x.size = blockSize cfg o := by
  unfold ownExtents
  rw [mem_append, mem_map, mem_flatMap]
  constructor
  · rintro (⟨⟨a, o⟩, isOwn, rfl⟩ | ⟨o, _, inside⟩)
    · exact ⟨o, .live, (shape.lived a o).mp isOwn, by decide, rfl⟩
    · obtain ⟨a, isFree, rfl⟩ := mem_map.mp inside
      exact ⟨o, .free, (shape.listed o a).mp isFree, by decide, rfl⟩
  · rintro ⟨o, role, isA, notHand, size⟩
    cases role with
    | live => exact .inl ⟨(x.start, o), (shape.lived _ o).mpr isA, by rw [← size]⟩
    | free =>
      exact .inr ⟨o, mem_range.mpr (shape.order_lt isA),
        mem_map.mpr ⟨x.start, (shape.listed o _).mpr isA, by rw [← size]⟩⟩
    | hand => exact absurd rfl notHand

theorem ownExtents_nodup (shape : Shape cfg s blocks lists own) :
    (ownExtents cfg s own lists).Nodup := by
  unfold ownExtents
  rw [nodup_append]
  refine ⟨?_, ?_, ?_⟩
  · refine List.Nodup.map_on ?_ shape.liveNodup
    intro b inB c inC same
    obtain ⟨start, _⟩ := Extent.mk.inj same
    have isB := (shape.lived b.1 b.2).mp inB
    have isC := (shape.lived c.1 c.2).mp inC
    rw [start, isC] at isB
    exact Prod.ext start (congrArg Prod.fst (Option.some.inj isB)).symm
  · rw [nodup_flatMap]
    refine ⟨?_, ?_⟩
    · intro o _
      refine (shape.nodup o).map ?_
      intro a b same
      exact (Extent.mk.inj same).1
    · refine nodup_range.imp ?_
      intro o o' differ x inside inside'
      obtain ⟨a, isFree, rfl⟩ := mem_map.mp inside
      obtain ⟨b, isFree', same⟩ := mem_map.mp inside'
      obtain ⟨start, _⟩ := Extent.mk.inj same
      have isA := (shape.listed o a).mp isFree
      have isB := (shape.listed o' b).mp isFree'
      rw [start, isA] at isB
      exact differ (congrArg Prod.fst (Option.some.inj isB))
  · intro x inside y inside' same
    obtain ⟨b, isOwn, rfl⟩ := mem_map.mp inside
    obtain ⟨o, _, inside'⟩ := mem_flatMap.mp inside'
    obtain ⟨a, isFree, rfl⟩ := mem_map.mp inside'
    obtain ⟨start, _⟩ := Extent.mk.inj same
    have isA := (shape.listed o a).mp isFree
    have isB := (shape.lived b.1 b.2).mp isOwn
    rw [start, isA] at isB
    exact nomatch isB

theorem ownExtents_apart (shape : Shape cfg s blocks lists own) :
    AllApart (ownExtents cfg s own lists) := by
  refine (ownExtents_nodup shape).pairwise_of_forall_ne ?_
  intro x inX y inY differ
  obtain ⟨o, role, isX, _, sizeX⟩ := (mem_ownExtents shape x).mp inX
  obtain ⟨o', role', isY, _, sizeY⟩ := (mem_ownExtents shape y).mp inY
  unfold Extent.Apart Extent.stop
  rw [sizeX, sizeY]
  rcases lt_trichotomy x.start y.start with less | same | more
  · exact .inl (shape.tiling.apart (exps_eq_some isX) (exps_eq_some isY) less)
  · rw [same, isY] at isX
    exact absurd (by cases x; cases y; simp_all) differ
  · exact .inr (shape.tiling.apart (exps_eq_some isY) (exps_eq_some isX) more)

/-- Where nothing is live, one block of the top order is left. -/
theorem lists_of_empty (shape : Shape cfg s blocks lists [])
    (none_ : ∀ a o, blocks a ≠ some (o, .hand)) (o : Nat) :
    lists o = if o = s.maxOrder - 1 then [0] else [] := by
  have allFree : ∀ a k role, blocks a = some (k, role) → role = .free := by
    intro a k role isA
    cases role with
    | free => rfl
    | live => exact nomatch (shape.lived a k).mpr isA
    | hand => exact absurd isA (none_ a k)
  have fromExp : ∀ {a k : Nat}, exps cfg blocks a = some k →
      ∃ n, k = cfg.log2Min + n ∧ blocks a = some (n, .free) := by
    intro a k isA
    unfold exps at isA
    cases block : blocks a with
    | none =>
      rw [block] at isA
      exact nomatch isA
    | some b =>
      obtain ⟨n, role⟩ := b
      obtain rfl := allFree a n role block
      rw [block] at isA
      exact ⟨n, (Option.some.inj isA).symm, rfl⟩
  have whole : exps cfg blocks 0 = some (topExp cfg s) := by
    refine shape.tiling.whole_of_no_buddies ?_
    intro a k isA below isBuddy
    obtain ⟨n, rfl, free⟩ := fromExp isA
    obtain ⟨n', same, freeB⟩ := fromExp isBuddy
    obtain rfl : n = n' := by omega
    refine shape.noBuddies a n free ?_ freeB
    unfold topExp at below
    omega
  obtain ⟨n, top, isZero⟩ := fromExp whole
  have isTop : n = s.maxOrder - 1 := by
    unfold topExp at top
    omega
  have start : ∀ a ∈ lists o, a = 0 := by
    intro a inside
    exact shape.tiling.eq_of_exp_top whole (exps_eq_some ((shape.listed o a).mp inside))
  by_cases same : o = s.maxOrder - 1
  · rw [if_pos same]
    have inside : 0 ∈ lists o := by
      rw [shape.listed, isZero, same, isTop]
    refine perm_singleton.mp ?_
    refine (perm_ext_iff_of_nodup (shape.nodup o) (nodup_singleton 0)).mpr ?_
    intro a
    rw [mem_singleton]
    exact ⟨start a, fun zero => zero ▸ inside⟩
  · rw [if_neg same, eq_nil_iff_forall_not_mem]
    intro a inside
    have isA := (shape.listed o a).mp inside
    rw [start a inside, isZero] at isA
    exact same ((congrArg Prod.fst (Option.some.inj isA)).symm.trans isTop)

theorem settled_partitioned {live : List (Nat × Nat)} (settled : Settled cfg s own)
    (perm : live.Perm (own.map (handed cfg))) : ∃ lists, Partitioned cfg s live lists := by
  obtain ⟨blocks, lists, shape, stored, none_⟩ := settled
  have size : ∀ b ∈ own, orderSize cfg b.2 - hdrOffset + hdrOffset = blockSize cfg b.2 := by
    intro b inside
    rw [shape.orderSize_eq (shape.order_lt ((shape.lived b.1 b.2).mp inside))]
    exact Nat.sub_add_cancel (hdrOffset_le cfg b.2)
  have liveExtents : (live.map fun b : Nat × Nat => (⟨b.1, b.2 + hdrOffset⟩ : Extent)).Perm
      (own.map fun b => ⟨b.1, blockSize cfg b.2⟩) := by
    refine (perm.map _).trans ?_
    rw [map_map]
    refine List.Perm.of_eq (map_congr_left fun b inside => ?_)
    exact congrArg (Extent.mk b.1) (size b inside)
  have same : (ownExtents cfg s own lists).Perm (extents cfg s live lists) := by
    unfold ownExtents extents
    simp only [blockSize_eq] at liveExtents ⊢
    exact liveExtents.symm.append_right _
  have top : 2 ^ topExp cfg s = cfg.min * 2 ^ (s.maxOrder - 1) := pow_add ..
  refine ⟨lists, fun o _ => stored.chain o, (ownExtents_apart shape).perm same, ?_, ?_, ?_, stored.mask, ?_,
    ?_, ?_⟩
  · intro u below
    rw [← top] at below
    obtain ⟨a, k, isA, low, high⟩ := shape.tiling.covered u below
    unfold exps at isA
    cases block : blocks a with
    | none =>
      rw [block] at isA
      exact nomatch isA
    | some b =>
      obtain ⟨o, role⟩ := b
      rw [block] at isA
      obtain rfl := Option.some.inj isA
      refine ⟨⟨a, blockSize cfg o⟩, same.mem_iff.mp ((mem_ownExtents shape _).mpr ?_), low, high⟩
      refine ⟨o, role, block, ?_, rfl⟩
      rintro rfl
      exact none_ a o block
  · intro x inside
    obtain ⟨o, role, isX, _, isSize⟩ := (mem_ownExtents shape x).mp (same.mem_iff.mpr inside)
    rw [Extent.stop, isSize, ← top]
    exact shape.tiling.inside (exps_eq_some isX)
  · intro x inside
    obtain ⟨o, role, isX, _, isSize⟩ := (mem_ownExtents shape x).mp (same.mem_iff.mpr inside)
    refine ⟨o, shape.order_lt isX, by rw [isSize, blockSize_eq], ?_⟩
    rw [← blockSize_eq]
    exact shape.tiling.aligned (exps_eq_some isX)
  · intro o more a inside isBuddy
    rw [← blockSize_eq] at isBuddy
    exact shape.noBuddies a o ((shape.listed o a).mp inside) more ((shape.listed o _).mp isBuddy)
  · have sums := (liveExtents.map Extent.size).sum_eq
    rw [map_map, map_map] at sums
    rw [stored.used]
    exact sums.symm
  · intro noLive o _
    have noOwn : own = [] := by
      rw [noLive] at perm
      exact map_eq_nil_iff.mp perm.nil_eq.symm
    subst noOwn
    exact lists_of_empty shape none_ o

end

/-! ## Every run -/

theorem none_step (cfg : Config) (c : Call) (valid : c.Valid ⟨State.none, []⟩) :
    Sys.step cfg ⟨State.none, []⟩ c = ⟨State.none, []⟩ := by
  cases c with
  | allocate n => rfl
  | allocateExact n => rfl
  | deallocate off =>
    obtain ⟨b, inside, _⟩ := valid
    exact absurd inside not_mem_nil
  | write u w =>
    obtain ⟨b, inside, _⟩ := valid
    exact absurd inside not_mem_nil

/-- A region that is too small hands out nothing; any other stays partitioned. -/
theorem buddy_keeps_memory_partitioned (cfg : Config) (ptr len : Nat) (word : len < 2 ^ 64)
    (extTags : Bool) (y : Sys) (reached : Reachable cfg (State.init cfg ptr len extTags) y) :
    ((State.init cfg ptr len extTags).hasBase = false → y = ⟨State.none, []⟩) ∧
      ((State.init cfg ptr len extTags).hasBase = true →
        ∃ lists, Partitioned cfg y.state y.live lists) := by
  rcases none_or_settled cfg ptr word extTags with isNone | ⟨hasBase, settled⟩
  · rw [isNone] at reached ⊢
    refine ⟨fun _ => ?_, nofun⟩
    induction reached with
    | init => rfl
    | step c before valid ih =>
      rw [ih] at valid ⊢
      exact none_step cfg c valid
  · refine ⟨fun wrong => absurd (wrong.symm.trans hasBase) (by decide), fun _ => ?_⟩
    have kept : Kept cfg y := by
      induction reached with
      | init => exact ⟨[], settled, List.Perm.nil⟩
      | step c before valid ih => exact step_kept ih c valid
    obtain ⟨own, settled', perm⟩ := kept
    exact settled_partitioned settled' perm

def config64 : Config where
  log2Min := 6
  mx := 64
  large := by decide
  signed := by decide
  someOrders := by decide
  fits := by decide

def threeCalls : Sys :=
  ((Sys.step config64 ⟨State.init config64 0 1024 true, []⟩ (.allocate 10)).step config64
    (.allocate 100)).step config64 (.deallocate 0)

theorem buddy_keeps_memory_partitioned_threeCalls :
    threeCalls.live = [(256, 224)] ∧ threeCalls.state.freeLists 2 = some 0 ∧
      ∃ lists, Partitioned config64 threeCalls.state threeCalls.live lists := by
  refine ⟨by decide +kernel, by decide +kernel, ?_⟩
  refine (buddy_keeps_memory_partitioned config64 0 1024 (by decide) true threeCalls ?_).2
    (by decide +kernel)
  refine .step _ (.step _ (.step _ .init trivial) trivial) ?_
  exact ⟨(0, 32), by decide +kernel, rfl⟩

end Micron.Buddy
