import Micron.Buddy.Runs

/-!
# What the buddy allocator refuses

Since buddies are merged as soon as both are free, a request is refused only where no run
of its order is left between the live blocks, wherever these lie.
-/

set_option autoImplicit false

namespace Micron.Buddy

open Micron.Lib List

variable {cfg : Config} {s : State} {blocks : Blocks} {lists : Nat → List Nat}
  {own live : List (Nat × Nat)}

def orderOf (cfg : Config) (n : Nat) : Nat :=
  let n := usize (n + hdrOffset)
  let n := if n = 0 then 1 else n
  orderForSize cfg (usize (n + cfg.min - 1) / cfg.min * cfg.min)

theorem findFreeOrder_none (shape : Shape cfg s blocks lists own)
    (stored : Stored cfg s blocks lists own none) {o : Nat}
    (empty : s.maxOrder ≤ findFreeOrder s o) {a k : Nat} (le : o ≤ k) :
    blocks a ≠ some (k, .free) := by
  intro isA
  have inside := shape.order_lt isA
  have few := shape.few
  have bit : s.freeMask.getLsbD k = true := by
    rw [stored.mask k (by omega), (stored.chain k).head_eq]
    exact isSome_head?.mpr (ne_nil_of_mem ((shape.listed k a).mpr isA))
  unfold findFreeOrder at empty
  dsimp only at empty
  split at empty
  · rename_i zero
    have clear := congrArg (fun m : BitVec 64 => m.getLsbD (k - o)) zero
    simp only [BitVec.getLsbD_ushiftRight, BitVec.getLsbD_zero, Nat.add_sub_cancel' le,
      bit] at clear
    cases clear
  · rename_i some_
    have set := (ctz_spec some_).1
    rw [BitVec.getLsbD_ushiftRight] at set
    rw [stored.mask _ (BitVec.lt_of_getLsbD set)] at set
    obtain ⟨blk, head⟩ := Option.isSome_iff_exists.mp set
    obtain ⟨_, _, isBlk⟩ := head_block shape stored head
    have := shape.order_lt isBlk
    omega

theorem allocate_none_iff (shape : Shape cfg s blocks lists own)
    (stored : Stored cfg s blocks lists own none) (n : Nat) :
    (allocate cfg s n).2 = none ↔ ∀ a o, orderOf cfg n ≤ o → blocks a ≠ some (o, .free) := by
  unfold allocate
  dsimp only
  rw [if_neg (by rw [shape.base]; decide), ← orderOf]
  constructor
  · intro refused a o le isA
    have inside := shape.order_lt isA
    rw [if_neg (by omega)] at refused
    split at refused
    · rename_i empty
      exact findFreeOrder_none shape stored empty le isA
    · rename_i found
      split at refused
      · rename_i head
        have some_ := (findFreeOrder_spec stored shape.few (Nat.lt_of_not_le found)).2
        rw [head] at some_
        cases some_
      · cases refused
  · intro noBlock
    split
    · rfl
    · split
      · rfl
      · rename_i found
        split
        · rfl
        · rename_i blk head
          obtain ⟨_, _, isBlk⟩ := head_block shape stored head
          have le := (findFreeOrder_spec stored shape.few (Nat.lt_of_not_le found)).1
          exact absurd isBlk (noBlock blk _ le)

/-- No live block, with its header, reaches into the `n` bytes at `a`. -/
def Unused (live : List (Nat × Nat)) (a n : Nat) : Prop :=
  ∀ b ∈ live, a + n ≤ b.1 ∨ b.1 + b.2 + hdrOffset ≤ a

theorem unused_iff (shape : Shape cfg s blocks lists own)
    (perm : live.Perm (own.map (handed cfg))) (a n : Nat) :
    Unused live a n ↔
      ∀ b o, blocks b = some (o, .live) → a + n ≤ b ∨ b + blockSize cfg o ≤ a := by
  have size : ∀ b o, blocks b = some (o, .live) →
      b + (orderSize cfg o - hdrOffset) + hdrOffset = b + blockSize cfg o := by
    intro b o isB
    rw [shape.orderSize_eq (shape.order_lt isB), add_assoc,
      Nat.sub_add_cancel (hdrOffset_le cfg o)]
  constructor
  · intro unused b o isB
    have apart := unused _ (perm.mem_iff.mpr (mem_map.mpr
      ⟨(b, o), (shape.lived b o).mpr isB, rfl⟩))
    rwa [handed, size b o isB] at apart
  · intro apart b inside
    obtain ⟨⟨c, o⟩, isOwn, rfl⟩ := mem_map.mp (perm.mem_iff.mp inside)
    have isC := (shape.lived c o).mp isOwn
    rw [handed, size c o isC]
    exact apart c o isC

theorem refused_iff (settled : Settled cfg s own) (perm : live.Perm (own.map (handed cfg)))
    (n : Nat) :
    (allocate cfg s n).2 = none ↔ ∀ a, blockSize cfg (orderOf cfg n) ∣ a →
      a + blockSize cfg (orderOf cfg n) ≤ 2 ^ topExp cfg s →
      ¬ Unused live a (blockSize cfg (orderOf cfg n)) := by
  obtain ⟨blocks, lists, shape, stored, none_⟩ := settled
  rw [allocate_none_iff shape stored]
  constructor
  · intro noBlock a aligned inside unused
    rw [unused_iff shape perm] at unused
    have found : ∃ b j, exps cfg blocks b = some j ∧ (∃ o, blocks b = some (o, .free)) ∧
        cfg.log2Min + orderOf cfg n ≤ j := by
      refine shape.tiling.run_in_block ?_ aligned inside ?_
      · rintro b j isB below ⟨o, isFree⟩ isBuddy ⟨o', isFree'⟩
        rw [exps_eq_some isFree] at isB
        obtain rfl := Option.some.inj isB
        rw [exps_eq_some isFree'] at isBuddy
        obtain rfl : o' = o := Nat.add_left_cancel (Option.some.inj isBuddy)
        refine shape.noBuddies b o' isFree ?_ isFree'
        unfold topExp at below
        omega
      · intro b j isB low high
        obtain ⟨⟨o, role⟩, isO, rfl⟩ := Option.map_eq_some_iff.mp isB
        cases role with
        | free => exact ⟨o, isO⟩
        | hand => exact absurd isO (none_ b o)
        | live =>
          have apart := unused b o isO
          unfold blockSize at apart
          dsimp only at high
          omega
    obtain ⟨b, j, isB, ⟨o, isFree⟩, le⟩ := found
    rw [exps_eq_some isFree] at isB
    obtain rfl := Option.some.inj isB
    exact noBlock b o (Nat.add_le_add_iff_left.mp le) isFree
  · intro full a o le isA
    have expA := @exps_eq_some cfg _ _ _ _ isA
    have fits : blockSize cfg (orderOf cfg n) ∣ 2 ^ (cfg.log2Min + o) :=
      Nat.pow_dvd_pow 2 (Nat.add_le_add_left le _)
    have short := Nat.le_of_dvd (Nat.two_pow_pos _) fits
    have inside := shape.tiling.inside expA
    refine full a (dvd_trans fits (shape.tiling.aligned expA)) (by omega)
      ((unused_iff shape perm _ _).mpr ?_)
    intro b o' isB
    rcases lt_trichotomy a b with less | same | more
    · have apart := shape.tiling.apart expA (exps_eq_some isB) less
      exact .inl (by omega)
    · rw [same, isB] at isA
      cases isA
    · exact .inr (shape.tiling.apart (exps_eq_some isB) expA more)

/-- Whatever was allocated, freed and written before, a request is refused if and only if
every aligned run of its order reaches into a live block. -/
theorem allocate_refuses_iff_full (cfg : Config) (ptr len : Nat) (word : len < 2 ^ 64)
    (extTags : Bool) (hasBase : (State.init cfg ptr len extTags).hasBase = true) (y : Sys)
    (reached : Reachable cfg (State.init cfg ptr len extTags) y) (n : Nat) :
    (allocate cfg y.state n).2 = none ↔ ∀ a, blockSize cfg (orderOf cfg n) ∣ a →
      a + blockSize cfg (orderOf cfg n) ≤ cfg.min * 2 ^ (y.state.maxOrder - 1) →
      ¬ Unused y.live a (blockSize cfg (orderOf cfg n)) := by
  rcases none_or_settled cfg ptr word extTags with isNone | ⟨_, settled⟩
  · rw [isNone] at hasBase
    cases hasBase
  · have kept : Kept cfg y := by
      induction reached with
      | init => exact ⟨[], settled, List.Perm.nil⟩
      | step c before valid ih => exact step_kept ih c valid
    obtain ⟨own, settled', perm⟩ := kept
    rw [Config.min, ← pow_add]
    exact refused_iff settled' perm n

theorem allocate_refuses_iff_full_threeCalls :
    (allocate config64 threeCalls.state 500).2 = none := by
  refine (allocate_refuses_iff_full config64 0 1024 (by decide) true (by decide +kernel) threeCalls
    ?_ 500).mpr ?_
  · refine .step _ (.step _ (.step _ .init trivial) trivial) ?_
    exact ⟨(0, 32), by decide +kernel, rfl⟩
  · intro a _ inside unused
    have size : blockSize config64 (orderOf config64 500) = 1024 := by decide +kernel
    have region : config64.min * 2 ^ (threeCalls.state.maxOrder - 1) = 1024 := by decide +kernel
    have apart := unused (256, 224) (by decide +kernel)
    omega

end Micron.Buddy
