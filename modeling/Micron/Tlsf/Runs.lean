import Micron.Tlsf.Operations

/-!
# Runs

A run starts with the constructor and goes on with calls and with writes of the users to
what they were given.  In each state of a run the memory is partitioned.
-/

set_option autoImplicit false

namespace Micron.Tlsf

open Micron.Lib List

structure Sys where
  state : State
  live : List (Nat × Nat)

inductive Call where
  | allocate (n : Nat)
  | deallocate (ptr : Nat)
  | write (u : Nat) (h : Hdr)

def Sys.step (y : Sys) : Call → Sys
  | .allocate n =>
    let r := Tlsf.allocate y.state n
    ⟨r.1, match r.2 with
      | some b => b :: y.live
      | none => y.live⟩
  | .deallocate ptr =>
    ⟨(Tlsf.deallocate y.state ptr).1, y.live.eraseP fun b => b.1 = ptr⟩
  | .write u h => ⟨setHdr y.state u h, y.live⟩

/-- What is asked for is small enough for the words, only what is live is freed, and a user
writes only to what it was given. -/
def Call.Valid (y : Sys) : Call → Prop
  | .allocate n => NoWrap n
  | .deallocate ptr => ∃ b ∈ y.live, b.1 = ptr
  | .write u _ => ∃ b ∈ y.live, b.1 ≤ u ∧ u < b.1 + b.2

inductive Reachable (first : State) : Sys → Prop where
  | init : Reachable first ⟨first, []⟩
  | step {y : Sys} (c : Call) (before : Reachable first y) (valid : c.Valid y) :
      Reachable first (y.step c)

def handed (b : Nat × Nat) : Nat × Nat := (b.1 + hdrOffset, b.2 - hdrOffset)

def Kept (y : Sys) : Prop := ∃ own, Settled y.state own ∧ y.live.Perm (own.map handed)

theorem allocate_kept {y : Sys} (kept : Kept y) {n : Nat} (noWrap : NoWrap n) :
    Kept (y.step (.allocate n)) := by
  obtain ⟨own, settled, perm⟩ := kept
  rcases allocate_hands settled noWrap with same | ⟨x, k, isBlock, _, settled'⟩
  · simp only [Sys.step, same]
    exact ⟨own, settled, perm⟩
  · refine ⟨(x, k) :: own, settled', ?_⟩
    simp only [Sys.step, isBlock]
    exact perm.cons _

theorem deallocate_kept {y : Sys} (kept : Kept y) {ptr : Nat}
    (valid : Call.Valid y (.deallocate ptr)) : Kept (y.step (.deallocate ptr)) := by
  obtain ⟨own, settled, perm⟩ := kept
  obtain ⟨⟨a, n⟩, isOwn, rfl, rest⟩ := eraseP_perm perm valid
  exact ⟨own.erase (a, n), (deallocate_settled settled isOwn).1, rest⟩

theorem step_kept {y : Sys} (kept : Kept y) (c : Call) (valid : c.Valid y) : Kept (y.step c) := by
  cases c with
  | allocate n => exact allocate_kept kept valid
  | deallocate ptr => exact deallocate_kept kept valid
  | write u h =>
    obtain ⟨own, settled, perm⟩ := kept
    obtain ⟨b, inside, low, high⟩ := valid
    obtain ⟨⟨a, n⟩, isOwn, rfl⟩ := mem_map.mp (perm.mem_iff.mp inside)
    have some_ : 0 < hdrOffset := by decide
    unfold handed at low high
    exact ⟨own, write_settled settled isOwn (by omega) (by omega) h, perm⟩

/-- The blocks from the first sentinel to the last, the rows of the free ones, and those
of the users. -/
structure Partitioned (s : State) (live : List (Nat × Nat)) (chain : List Nat)
    (lists : Nat → List Nat) : Prop where
  tiles : (0 :: (chain ++ [blockAlign + s.total])).IsChain
    fun a b => nextPhys s a = b ∧ (s.mem b).prevPhys = some a
  start : (s.mem 0).bsize = blockAlign
  large : ∀ a ∈ chain, minBlock ≤ (s.mem a).bsize
  flags : ∀ a ∈ chain, (s.mem a).flags = blockFree ∨ (s.mem a).flags = blockAlloc
  calm : (0 :: (chain ++ [blockAlign + s.total])).IsChain
    fun a b => (s.mem a).flags ≠ blockFree ∨ (s.mem b).flags ≠ blockFree
  rows : ∀ i, TwoWay (nexts s.mem) (prevs s.mem) none (s.heads i) (lists i) ∧ (lists i).Nodup
  listed : ∀ i a, a ∈ lists i ↔
    a ∈ chain ∧ (s.mem a).flags = blockFree ∧ idx (mappingInsert (s.mem a).bsize) = i
  rowMarks : ∀ f < flMax, ∀ k, (s.slBitmap f).getLsbD k = true ↔ k < slCount ∧ lists (idx (f, k)) ≠ []
  levelMarks : ∀ f, s.flBitmap.getLsbD f = true ↔ f < flMax ∧ ∃ k < slCount, lists (idx (f, k)) ≠ []
  lived : ∀ b, b ∈ live ↔
    ∃ a ∈ chain, (s.mem a).flags = blockAlloc ∧ b = (a + hdrOffset, (s.mem a).bsize - hdrOffset)
  liveNodup : live.Nodup
  used : s.allocatedBytes = (live.map fun b => b.2 + hdrOffset).sum
  empty : live = [] → chain = [blockAlign] ∧ (s.mem blockAlign).flags = blockFree ∧
    (s.mem blockAlign).bsize = s.total

section

variable {s : State} {blocks : Blocks} {lists : Nat → List Nat} {own : List (Nat × Nat)}

theorem single_of_empty (busy : Busy s blocks lists [] []) {a n : Nat} {role : Role}
    (isA : blocks a = some (n, role)) : role = .free ∧ a = blockAlign ∧ n = s.total := by
  have allFree : ∀ {b k r}, blocks b = some (k, r) → r = .free := by
    intro b k r isB
    cases r with
    | free => rfl
    | live => exact nomatch (busy.1.lived b k).mpr isB
    | hand => exact nomatch busy.1.held b k isB
  obtain rfl := allFree isA
  have first : a = blockAlign := by
    by_contra other
    obtain ⟨b, m, isSize, atA⟩ := busy.1.cover.before (sizes_eq_some isA) other
    obtain ⟨r, isB⟩ := exists_of_sizes isSize
    obtain rfl := allFree isB
    exact busy.1.calm b m n isB (atA ▸ isA)
  have last : a + n = stop s.total := by
    by_contra other
    obtain ⟨m, isSize⟩ := busy.1.cover.next (sizes_eq_some isA) other
    obtain ⟨r, isB⟩ := exists_of_sizes isSize
    obtain rfl := allFree isB
    exact busy.1.calm a n m isA isB
  refine ⟨rfl, first, ?_⟩
  unfold stop at last
  omega

theorem row_ne_nil (busy : Busy s blocks lists own []) (i : Nat) :
    (s.heads i).isSome = true ↔ lists i ≠ [] := by
  rw [(busy.2.rows i).head_eq]
  cases lists i <;> simp

theorem settled_partitioned {live : List (Nat × Nat)} (settled : Settled s own)
    (perm : live.Perm (own.map handed)) : ∃ chain lists, Partitioned s live chain lists := by
  obtain ⟨blocks, lists, busy⟩ := settled
  have shape := busy.1
  have stored := busy.2
  obtain ⟨chain, path, head, members⟩ := shape.cover.path (Nat.le_add_right _ _)
  have block : ∀ {a}, a ∈ chain ↔ ∃ n role, blocks a = some (n, role) ∧ role ≠ .hand := by
    intro a
    rw [members]
    constructor
    · rintro ⟨n, isSize⟩
      obtain ⟨role, isA⟩ := exists_of_sizes isSize
      refine ⟨n, role, isA, ?_⟩
      rintro rfl
      exact nomatch shape.held a n isA
    · rintro ⟨n, role, isA, _⟩
      exact ⟨n, sizes_eq_some isA⟩
  have large : ∀ {a n role}, blocks a = some (n, role) → hdrOffset ≤ n :=
    fun isA => le_trans (by decide) (shape.large isA)
  -- the flags of a block say which role it has
  have isFree : ∀ {a n role}, blocks a = some (n, role) → role ≠ .hand →
      ((s.mem a).flags = blockFree ↔ role = .free) ∧ ((s.mem a).flags = blockAlloc ↔ role = .live) := by
    intro a n role isA notHand
    cases role with
    | free =>
      rw [stored.freeFlags a n isA]
      decide
    | live =>
      rw [stored.liveFlags a n isA]
      decide
    | hand => exact absurd rfl notHand
  have lived : ∀ b, b ∈ live ↔ ∃ a ∈ chain, (s.mem a).flags = blockAlloc ∧
      b = (a + hdrOffset, (s.mem a).bsize - hdrOffset) := by
    intro b
    rw [perm.mem_iff, mem_map]
    constructor
    · rintro ⟨⟨a, n⟩, isOwn, rfl⟩
      have isA := (shape.lived a n).mp isOwn
      refine ⟨a, block.mpr ⟨n, .live, isA, by decide⟩, stored.liveFlags a n isA, ?_⟩
      rw [stored.bsize a n .live isA]
      rfl
    · rintro ⟨a, inside, flags, rfl⟩
      obtain ⟨n, role, isA, notHand⟩ := block.mp inside
      obtain rfl := ((isFree isA notHand).2).mp flags
      refine ⟨(a, n), (shape.lived a n).mpr isA, ?_⟩
      rw [stored.bsize a n .live isA]
      rfl
  have listed : ∀ i a, a ∈ lists i ↔ a ∈ chain ∧ (s.mem a).flags = blockFree ∧
      idx (mappingInsert (s.mem a).bsize) = i := by
    intro i a
    rw [shape.listed.1 i a]
    constructor
    · rintro ⟨n, isA, row⟩
      refine ⟨block.mpr ⟨n, .free, isA, by decide⟩, stored.freeFlags a n isA, ?_⟩
      rw [stored.bsize a n .free isA]
      exact row
    · rintro ⟨inside, flags, row⟩
      obtain ⟨n, role, isA, notHand⟩ := block.mp inside
      obtain rfl := ((isFree isA notHand).1).mp flags
      rw [stored.bsize a n .free isA] at row
      exact ⟨n, isA, row⟩
  have marks : ∀ f < flMax, ∀ k, (s.slBitmap f).getLsbD k = true ↔
      k < slCount ∧ lists (idx (f, k)) ≠ [] := by
    intro f levels k
    by_cases small : k < slCount
    · rw [stored.marked.row (f, k) levels small, row_ne_nil busy]
      exact (and_iff_right small).symm
    · rw [stored.marked.rowHigh f levels k (Nat.le_of_not_lt small)]
      exact ⟨nofun, fun wrong => absurd wrong.1 small⟩
  refine ⟨chain, lists, ⟨?_, stored.start.1, ?_, ?_, ?_, fun i => ⟨stored.rows i, shape.listed.2 i⟩, listed,
    marks, ?_, lived, ?_, ?_, ?_⟩⟩
  · refine List.IsChain.cons ?_ ?_
    · refine path.imp ?_
      rintro a b ⟨n, isSize, atB⟩
      obtain ⟨role, isA⟩ := exists_of_sizes isSize
      rw [nextPhys, stored.bsize a n role isA]
      exact ⟨atB, atB ▸ stored.prev a n role isA⟩
    · intro b isHead
      obtain rfl := Option.some.inj (head.symm.trans isHead)
      rw [nextPhys, stored.start.1, zero_add]
      exact ⟨rfl, stored.firstPrev⟩
  · intro a inside
    obtain ⟨n, role, isA, _⟩ := block.mp inside
    rw [stored.bsize a n role isA]
    exact shape.large isA
  · intro a inside
    obtain ⟨n, role, isA, notHand⟩ := block.mp inside
    obtain ⟨free, alloc⟩ := isFree isA notHand
    cases role with
    | free => exact .inl (free.mpr rfl)
    | live => exact .inr (alloc.mpr rfl)
    | hand => exact absurd rfl notHand
  · refine List.IsChain.cons ?_ fun b _ => .inl (by rw [stored.start.2]; decide)
    refine path.imp ?_
    rintro a b ⟨n, isSize, atB⟩
    rw [← not_and_or]
    rintro ⟨flagsA, flagsB⟩
    obtain ⟨role, isA⟩ := exists_of_sizes isSize
    have notHand : ∀ {c k r}, blocks c = some (k, r) → r ≠ .hand := by
      rintro c k r isC rfl
      exact nomatch shape.held c k isC
    obtain rfl := ((isFree isA (notHand isA)).1).mp flagsA
    by_cases last : a + n = stop s.total
    · rw [← atB, last, stored.last] at flagsB
      exact absurd flagsB (by decide)
    · obtain ⟨m, isSize'⟩ := shape.cover.next (sizes_eq_some isA) last
      obtain ⟨role', isB⟩ := exists_of_sizes isSize'
      obtain rfl := ((isFree isB (notHand isB)).1).mp (atB ▸ flagsB)
      exact shape.calm a n m isA isB
  · intro f
    by_cases levels : f < flMax
    · rw [stored.marked.level f levels, decide_eq_true_eq, and_iff_right levels]
      constructor
      · intro some_
        obtain ⟨small, has⟩ := (marks f levels _).mp (ctz_spec some_)
        exact ⟨_, small, has⟩
      · rintro ⟨k, small, has⟩ zero
        have bit := (marks f levels k).mpr ⟨small, has⟩
        rw [zero, BitVec.getLsbD_zero] at bit
        exact nomatch bit
    · rw [stored.marked.levelHigh f (Nat.le_of_not_lt levels)]
      exact ⟨nofun, fun wrong => absurd wrong.1 levels⟩
  · rw [perm.nodup_iff]
    refine List.Nodup.map_on ?_ shape.liveNodup
    rintro ⟨a, n⟩ inA ⟨b, m⟩ inB same
    have isA := (shape.lived a n).mp inA
    have isB := (shape.lived b m).mp inB
    obtain rfl : a = b := Nat.add_right_cancel (Prod.mk.inj same).1
    rw [isA] at isB
    exact Prod.ext rfl (Prod.mk.inj (Option.some.inj isB)).1
  · rw [stored.used, (perm.map _).sum_eq, map_map]
    refine congrArg List.sum (map_congr_left fun b inside => ?_)
    exact (Nat.sub_add_cancel (large ((shape.lived b.1 b.2).mp inside))).symm
  · intro noLive
    rw [noLive] at perm
    obtain rfl : own = [] := map_eq_nil_iff.mp perm.nil_eq.symm
    have room := shape.room
    have some_ : 0 < minBlock := by decide
    have single : ∀ b ∈ chain, b = blockAlign ∧ (s.mem b).flags = blockFree ∧ (s.mem b).bsize = s.total := by
      intro b inside
      obtain ⟨n, role, isB, _⟩ := block.mp inside
      obtain ⟨rfl, first, rfl⟩ := single_of_empty busy isB
      exact ⟨first, stored.freeFlags b _ isB, stored.bsize b _ .free isB⟩
    have only : chain = [blockAlign] := by
      cases chain with
      | nil =>
        have atEnd : stop s.total = blockAlign := Option.some.inj head
        unfold stop at atEnd
        omega
      | cons a rest =>
        obtain rfl : a = blockAlign := Option.some.inj head
        cases rest with
        | nil => rfl
        | cons b rest =>
          obtain ⟨n, isSize, atB⟩ := (isChain_cons_cons.mp path).1
          have positive := shape.cover.positive isSize
          have same := (single b (by simp)).1
          omega
    exact ⟨only, (single blockAlign (by rw [only]; simp)).2⟩

end

/-! ## Every run -/

def usable (ptr len : Nat) : Nat := (len - ((ptr + 31) / 32 * 32 - ptr)) / blockAlign * blockAlign

/-- The region has room for a block between two sentinels, and is of four gigabytes at most. -/
def Fits (ptr len : Nat) : Prop :=
  2 * blockAlign + minBlock ≤ usable ptr len ∧ usable ptr len - 2 * blockAlign < 2 ^ 32

theorem init_settled {ptr len : Nat} (fits : Fits ptr len) : Settled (State.init ptr len) [] := by
  obtain ⟨large, small⟩ := fits
  have some_ : 0 < minBlock := by decide
  have notShort : ¬ len ≤ (ptr + 31) / 32 * 32 - ptr := by
    intro short
    rw [usable, Nat.sub_eq_zero_of_le short, Nat.zero_div] at large
    omega
  unfold usable at large small
  unfold State.init
  rw [if_neg notShort]
  generalize (len - ((ptr + 31) / 32 * 32 - ptr)) / blockAlign * blockAlign = bytes at large small ⊢
  rw [if_neg (by omega), if_neg (by omega)]
  exact ofTotal_settled (by omega) small

theorem init_none {ptr len : Nat} (fits : ¬ Fits ptr len) : State.init ptr len = State.none := by
  unfold Fits usable at fits
  unfold State.init
  dsimp only
  generalize (len - ((ptr + 31) / 32 * 32 - ptr)) / blockAlign * blockAlign = bytes at fits ⊢
  split
  · rfl
  · split
    · rfl
    · split
      · rfl
      · exact absurd ⟨by omega, by omega⟩ fits

theorem none_step (c : Call) (valid : c.Valid ⟨State.none, []⟩) :
    Sys.step ⟨State.none, []⟩ c = ⟨State.none, []⟩ := by
  cases c with
  | allocate n => rfl
  | deallocate ptr =>
    obtain ⟨b, inside, _⟩ := valid
    exact absurd inside not_mem_nil
  | write u h =>
    obtain ⟨b, inside, _⟩ := valid
    exact absurd inside not_mem_nil

/-- A pool stays partitioned and hands out blocks that are large enough; a region that does
not fit hands out nothing. -/
theorem tlsf_keeps_memory_partitioned (ptr len : Nat) (y : Sys)
    (reached : Reachable (State.init ptr len) y) :
    (Fits ptr len → (∃ chain lists, Partitioned y.state y.live chain lists) ∧
      ∀ n p k, NoWrap n → (allocate y.state n).2 = some (p, k) → n ≤ k) ∧
    (¬ Fits ptr len → y = ⟨State.none, []⟩) := by
  refine ⟨fun fits => ?_, fun fits => ?_⟩
  · have kept : Kept y := by
      induction reached with
      | init => exact ⟨[], init_settled fits, List.Perm.nil⟩
      | step c before valid ih => exact step_kept ih c valid
    obtain ⟨own, settled, perm⟩ := kept
    refine ⟨settled_partitioned settled perm, ?_⟩
    intro n p k noWrap isBlock
    rcases allocate_hands settled noWrap with none_ | ⟨x, size, isBlock', enough, _⟩
    · rw [none_] at isBlock
      exact nomatch isBlock
    · rw [isBlock'] at isBlock
      obtain ⟨_, rfl⟩ := Prod.mk.inj (Option.some.inj isBlock)
      omega
  · rw [init_none fits] at reached
    induction reached with
    | init => rfl
    | step c before valid ih =>
      rw [ih] at valid ⊢
      exact none_step c valid

def threeCalls : Sys :=
  ((Sys.step ⟨State.init 0 1024, []⟩ (.allocate 10)).step (.allocate 100)).step (.deallocate 64)

theorem tlsf_keeps_memory_partitioned_threeCalls :
    threeCalls.live = [(160, 160)] ∧ threeCalls.state.allocatedBytes = 192 ∧
      ∃ chain lists, Partitioned threeCalls.state threeCalls.live chain lists := by
  refine ⟨by decide +kernel, by decide +kernel, ?_⟩
  refine ((tlsf_keeps_memory_partitioned 0 1024 threeCalls ?_).1 ⟨by decide, by decide⟩).1
  refine .step _ (.step _ (.step _ .init ?_) ?_) ?_
  · exact (by decide : NoWrap 10)
  · exact (by decide : NoWrap 100)
  · exact ⟨(64, 64), by decide +kernel, rfl⟩

end Micron.Tlsf
