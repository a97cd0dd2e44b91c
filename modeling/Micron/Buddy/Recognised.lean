import Micron.Buddy.Runs

/-!
# Which pointers are taken for live blocks

The tag of a block is written when the block is handed out, pushed on a list or taken in
by the buddy on its left.  A freed block that joins a free buddy on its left is none of
these: its tag goes on saying that it is allocated.
-/

set_option autoImplicit false

namespace Micron.Buddy

open Micron.Lib List Function

variable {cfg : Config}

def isAllocatedAt (cfg : Config) (s : State) (base p : Nat) : Bool :=
  if p = 0 ∨ base = 0 ∨ p < base then false else isAllocated cfg s (p - base)

def deallocateAt (cfg : Config) (s : State) (base p : Nat) : State × RetFlag :=
  if isAllocatedAt cfg s base p = false then (s, .invalid) else deallocate cfg s (p - base)

/-- A block at `off`, joined with its free buddies on the right as far as it is the lower
half, has a free buddy on the left. -/
def LeftBuddyFree (cfg : Config) (s : State) (off o : Nat) : Prop :=
  ∃ k < s.maxOrder - 1, o ≤ k ∧ off ^^^ orderSize cfg k < off ∧
    tagIsFreeAtOff cfg s (off ^^^ orderSize cfg k) k = true ∧
    ∀ j < k, o ≤ j → ¬ off ^^^ orderSize cfg j < off ∧
      tagIsFreeAtOff cfg s (off ^^^ orderSize cfg j) j = true

instance (cfg : Config) (s : State) (off o : Nat) : Decidable (LeftBuddyFree cfg s off o) :=
  inferInstanceAs (Decidable (∃ k < s.maxOrder - 1, _))

theorem tag_or_ge (o : Nat) : 128 ≤ (o ||| Buddy.tagFree) % 256 := by
  rw [show 256 = 2 ^ 8 from rfl, Nat.or_mod_two_pow]
  exact Nat.right_le_or

theorem tag_push {s : State} {off o i : Nat}
    (low : (freelistPush cfg s off o).blockTags i < 128) :
    s.blockTags i < 128 ∧ i ≠ tagIndexOf cfg off := by
  have large := tag_or_ge o
  change update s.blockTags (tagIndexOf cfg off) ((o ||| Buddy.tagFree) % 256) i < 128 at low
  by_cases same : i = tagIndexOf cfg off
  · rw [same, update_self] at low
    omega
  · rw [update_of_ne same] at low
    exact ⟨low, same⟩

theorem removeLoop_frame (b o fuel : Nat) (s : State) (prev cur : Option Nat) :
    (removeLoop cfg s b o fuel prev cur).blockTags = s.blockTags ∧
      (removeLoop cfg s b o fuel prev cur).maxOrder = s.maxOrder := by
  induction fuel generalizing prev cur with
  | zero => exact ⟨rfl, rfl⟩
  | succ fuel ih =>
    cases cur with
    | none => exact ⟨rfl, rfl⟩
    | some cur =>
      unfold removeLoop
      split
      · cases prev with
        | none => exact ⟨rfl, rfl⟩
        | some p => exact ⟨rfl, rfl⟩
      · exact ih _ _

theorem tag_splitLoop {blk o j : Nat} : ∀ (i : Nat) {s : State},
    (splitLoop cfg s blk o i).blockTags j < 128 → s.blockTags j < 128 := by
  intro i
  induction i with
  | zero => exact fun low => low
  | succ i ih =>
    intro s low
    rw [splitLoop] at low
    split at low
    · exact (tag_push (ih low)).1
    · exact low

theorem tag_taken {s : State} {blk o i j : Nat}
    (low : (finishAlloc cfg (splitLoop cfg (freelistPop cfg s blk i) blk o i) blk o).1.blockTags j <
      128) : s.blockTags j < 128 ∨ j = tagIndexOf cfg blk := by
  generalize isS : splitLoop cfg (freelistPop cfg s blk i) blk o i = s' at low
  change update s'.blockTags (tagIndexOf cfg blk) (o % 256) j < 128 at low
  by_cases same : j = tagIndexOf cfg blk
  · exact .inr same
  · rw [update_of_ne same, ← isS] at low
    exact .inl (tag_splitLoop (s := freelistPop cfg s blk i) i low)

/-- Without a free buddy on the left the block stays where it is, and its tag is
overwritten. -/
theorem tag_mergeLoop {off i : Nat} : ∀ (above : Nat) {o : Nat} {s : State}, s.maxOrder ≤ 64 →
    above = s.maxOrder - 1 - o → ¬ LeftBuddyFree cfg s off o →
    (mergeLoop cfg s off o above).blockTags i < 128 →
    s.blockTags i < 128 ∧ i ≠ tagIndexOf cfg off := by
  intro above
  induction above with
  | zero =>
    intro o s _ _ _ low
    exact tag_push low
  | succ above ih =>
    intro o s few left noLeft low
    rw [mergeLoop] at low
    split at low
    · rename_i isFree
      generalize isB : off ^^^ orderSize cfg o = b at low isFree
      have right : ¬ b < off := fun less =>
        noLeft ⟨o, by omega, le_refl o, isB ▸ less, isB ▸ isFree, fun j high le => by omega⟩
      rw [if_neg right] at low
      obtain ⟨tags, orders⟩ :=
        @removeLoop_frame cfg b o (s.total + 1) s none (s.freeLists o)
      have kept : (setTag cfg (freelistRemove cfg s b o) b tagNone).maxOrder = s.maxOrder := orders
      have written : (setTag cfg (freelistRemove cfg s b o) b tagNone).blockTags =
          update s.blockTags (tagIndexOf cfg b) tagNone :=
        congrArg (fun t : Nat → Nat => update t (tagIndexOf cfg b) tagNone) tags
      -- a tag that says free now did so before
      have back : ∀ a k, k < 64 →
          tagIsFreeAtOff cfg (setTag cfg (freelistRemove cfg s b o) b tagNone) a k = true →
          tagIsFreeAtOff cfg s a k = true := by
        intro a k small tag
        rw [tagIsFreeAtOff, decide_eq_true_eq, written, tag_or small] at tag
        rw [tagIsFreeAtOff, decide_eq_true_eq, tag_or small]
        by_cases same : tagIndexOf cfg a = tagIndexOf cfg b
        · rw [same, update_self, tagNone] at tag
          omega
        · rwa [update_of_ne same] at tag
      have noLeft' : ¬ LeftBuddyFree cfg (setTag cfg (freelistRemove cfg s b o) b tagNone) off
          (o + 1) := by
        rintro ⟨k, inside, le, less, tag, between⟩
        rw [kept] at inside
        refine noLeft ⟨k, inside, by omega, less, back _ k (by omega) tag, ?_⟩
        intro j high low'
        rcases eq_or_lt_of_le low' with rfl | more
        · exact ⟨isB ▸ right, isB ▸ isFree⟩
        · exact ⟨(between j high more).1, back _ j (by omega) (between j high more).2⟩
      obtain ⟨low', differ⟩ := ih (kept ▸ few) (by rw [kept]; omega) noLeft' low
      rw [written] at low'
      refine ⟨?_, differ⟩
      by_cases same : i = tagIndexOf cfg b
      · rw [same, update_self, tagNone] at low'
        omega
      · rwa [update_of_ne same] at low'
    · exact tag_push low

/-- Users write to their own memory; a pointer that is freed may be any. -/
def Call.Allowed (y : Sys) : Call → Prop
  | .allocate _ | .allocateExact _ | .deallocate _ => True
  | .write u w => Call.Valid y (.write u w)

/-- No live block is freed that has a free buddy on its left. -/
def Call.KeepsRight (cfg : Config) (y : Sys) : Call → Prop
  | .allocate _ | .allocateExact _ | .write _ _ => True
  | .deallocate off => (∃ b ∈ y.live, b.1 = off) →
      ¬ LeftBuddyFree cfg y.state off (y.state.blockTags (tagIndexOf cfg off))

inductive ReachableRight (cfg : Config) (first : State) : Sys → Prop where
  | init : ReachableRight cfg first ⟨first, []⟩
  | step {y : Sys} (c : Call) (before : ReachableRight cfg first y) (allowed : c.Allowed y)
      (right : c.KeepsRight cfg y) : ReachableRight cfg first (y.step cfg c)

/-- The pointers that are taken for live blocks are the live blocks. -/
def Recognised (cfg : Config) (base : Nat) (y : Sys) : Prop :=
  ∀ p, (isAllocatedAt cfg y.state base p = true ↔ ∃ b ∈ y.live, base + b.1 = p) ∧
    ((∀ b ∈ y.live, base + b.1 ≠ p) → deallocateAt cfg y.state base p = (y.state, .invalid))

/-- Every tag that says allocated is the tag of a live block. -/
def TagsLive (cfg : Config) (y : Sys) : Prop :=
  ∀ i, y.state.blockTags i < 128 → ∃ b ∈ y.live, tagIndexOf cfg b.1 = i

theorem live_isAllocated {y : Sys} (kept : Kept cfg y) {b : Nat × Nat} (isLive : b ∈ y.live) :
    isAllocated cfg y.state b.1 = true := by
  obtain ⟨own, settled, perm⟩ := kept
  obtain ⟨⟨a, o⟩, isOwn, rfl⟩ := mem_map.mp (perm.mem_iff.mp isLive)
  exact isAllocated_of_mem settled isOwn

theorem isAllocated_iff {y : Sys} (kept : Kept cfg y) (tags : TagsLive cfg y) (off : Nat) :
    isAllocated cfg y.state off = true ↔ ∃ b ∈ y.live, b.1 = off := by
  constructor
  · intro admitted
    obtain ⟨own, ⟨blocks, lists, shape, stored, _⟩, perm⟩ := kept
    have few := shape.few
    unfold isAllocated at admitted
    split at admitted
    · exact nomatch admitted
    · split at admitted
      · exact nomatch admitted
      · rename_i aligned
        simp only [Bool.and_eq_true, decide_eq_true_eq] at admitted
        obtain ⟨b, isLive, index⟩ := tags (tagIndexOf cfg off) (by omega)
        obtain ⟨⟨a, o⟩, isOwn, rfl⟩ := mem_map.mp (perm.mem_iff.mp isLive)
        have isA := (shape.lived a o).mp isOwn
        refine ⟨_, isLive, ?_⟩
        refine Decidable.byContradiction fun differ => ?_
        exact tagIndexOf_ne (shape.aligned isA)
          (Nat.dvd_of_mod_eq_zero (Decidable.of_not_not aligned)) differ index
  · rintro ⟨b, isLive, rfl⟩
    exact live_isAllocated kept isLive

theorem recognised_of_tagsLive {y : Sys} (kept : Kept cfg y) (tags : TagsLive cfg y) {base : Nat}
    (nonnull : 0 < base) : Recognised cfg base y := by
  intro p
  have exact_ : isAllocatedAt cfg y.state base p = true ↔ ∃ b ∈ y.live, base + b.1 = p := by
    unfold isAllocatedAt
    split
    · refine ⟨nofun, ?_⟩
      rintro ⟨b, _, rfl⟩
      omega
    · rename_i inside
      rw [isAllocated_iff kept tags]
      refine exists_congr fun b => and_congr_right fun _ => ?_
      omega
  refine ⟨exact_, fun notLive => if_pos ?_⟩
  rw [Bool.eq_false_iff]
  intro admitted
  obtain ⟨b, isLive, same⟩ := exact_.mp admitted
  exact notLive b isLive same

/-- Nothing, or a block that is taken from a list and cut. -/
def Took (cfg : Config) (s : State) (result : State × Option (Nat × Nat)) : Prop :=
  result = (s, none) ∨ ∃ i o blk, result =
    finishAlloc cfg (splitLoop cfg (freelistPop cfg s blk i) blk o i) blk o

theorem allocate_took (s : State) (n : Nat) : Took cfg s (allocate cfg s n) := by
  unfold allocate
  dsimp only
  generalize orderForSize cfg _ = o
  split
  · exact .inl rfl
  · split
    · exact .inl rfl
    · split
      · exact .inl rfl
      · split
        · exact .inl rfl
        · exact .inr ⟨_, _, _, rfl⟩

theorem allocateExact_took (s : State) (n : Nat) : Took cfg s (allocateExact cfg s n) := by
  unfold allocateExact
  dsimp only
  generalize orderForSize cfg n = o
  split
  · exact .inl rfl
  · split
    · exact .inl rfl
    · split
      · exact .inl rfl
      · split
        · exact .inl rfl
        · split
          · exact .inl rfl
          · rename_i blk _
            refine .inr ⟨o, o, blk, ?_⟩
            rw [splitLoop_self]

theorem hand_tagsLive {y : Sys} (tags : TagsLive cfg y) {result : State × Option (Nat × Nat)}
    (took : Took cfg y.state result) : TagsLive cfg (hand y.live result) := by
  intro i low
  rcases took with rfl | ⟨k, o, blk, rfl⟩
  · exact tags i low
  · rcases tag_taken low with before | rfl
    · obtain ⟨b, isLive, index⟩ := tags i before
      exact ⟨b, mem_cons_of_mem _ isLive, index⟩
    · exact ⟨_, mem_cons_self, rfl⟩

theorem deallocate_tagsLive {y : Sys} (kept : Kept cfg y) (tags : TagsLive cfg y) {off : Nat}
    (isLive : ∃ b ∈ y.live, b.1 = off) (right : Call.KeepsRight cfg y (.deallocate off)) :
    TagsLive cfg (y.step cfg (.deallocate off)) := by
  have noLeft := right isLive
  obtain ⟨own, settled, perm⟩ := kept
  obtain ⟨b, inside, rfl⟩ := isLive
  obtain ⟨⟨a, o⟩, isOwn, rfl⟩ := mem_map.mp (perm.mem_iff.mp inside)
  obtain ⟨blocks, lists, shape, stored, none_⟩ := id settled
  rw [show (handed cfg (a, o)).1 = a from rfl] at noLeft ⊢
  rw [stored.liveTag a o ((shape.lived a o).mp isOwn)] at noLeft
  intro i low
  change (deallocate cfg y.state a).1.blockTags i < 128 at low
  rw [deallocate_eq settled isOwn] at low
  generalize isS : setWord { y.state with allocatedBytes := _ } _ _ = s at low
  have few : s.maxOrder ≤ 64 := isS ▸ shape.few
  have noLeft' : ¬ LeftBuddyFree cfg s a o := isS ▸ noLeft
  obtain ⟨before, differ⟩ := tag_mergeLoop _ few rfl noLeft' low
  rw [← isS] at before
  obtain ⟨c, isLive, index⟩ := tags i before
  refine ⟨c, ?_, index⟩
  refine (mem_eraseP_of_neg ?_).mpr isLive
  intro same
  exact differ (index ▸ congrArg (tagIndexOf cfg) (of_decide_eq_true same))

theorem step_recognised {y : Sys} (kept : Kept cfg y) (tags : TagsLive cfg y) (c : Call)
    (allowed : c.Allowed y) (right : c.KeepsRight cfg y) :
    Kept cfg (y.step cfg c) ∧ TagsLive cfg (y.step cfg c) := by
  cases c with
  | allocate n => exact ⟨step_kept kept _ trivial, hand_tagsLive tags (allocate_took _ n)⟩
  | allocateExact n => exact ⟨step_kept kept _ trivial, hand_tagsLive tags (allocateExact_took _ n)⟩
  | write u w => exact ⟨step_kept kept _ allowed, tags⟩
  | deallocate off =>
    by_cases isLive : ∃ b ∈ y.live, b.1 = off
    · exact ⟨step_kept kept _ isLive, deallocate_tagsLive kept tags isLive right⟩
    · -- the pointer is none of the live ones, and nothing changes
      have refused : isAllocated cfg y.state off = false := by
        rw [Bool.eq_false_iff]
        exact fun admitted => isLive ((isAllocated_iff kept tags off).mp admitted)
      have same : y.step cfg (.deallocate off) = y := by
        have state : deallocate cfg y.state off = (y.state, .invalid) := if_pos refused
        have live : (y.live.eraseP fun b => b.1 = off) = y.live :=
          eraseP_of_forall_not fun b inside eq => isLive ⟨b, inside, of_decide_eq_true eq⟩
        rw [Sys.step, state, live]
      rw [same]
      exact ⟨kept, tags⟩

theorem none_step_any (c : Call) (allowed : c.Allowed ⟨State.none, []⟩) :
    Sys.step cfg ⟨State.none, []⟩ c = ⟨State.none, []⟩ := by
  cases c with
  | allocate n => rfl
  | allocateExact n => rfl
  | deallocate off => rfl
  | write u w => exact none_step cfg _ allowed

theorem init_tagsLive (cfg : Config) (ptr : Nat) {len : Nat} (extTags : Bool) :
    TagsLive cfg ⟨State.init cfg ptr len extTags, []⟩ := by
  have none_ : ∀ i, ¬ State.none.blockTags i < 128 := fun _ => by
    rw [show State.none.blockTags _ = 255 from rfl]
    decide
  have whole : ∀ total i, ¬ (State.ofTotal cfg total).blockTags i < 128 := by
    intro total i low
    unfold State.ofTotal at low
    split at low
    · exact none_ i low
    · refine none_ i (@tag_push cfg State.none 0
        (orderLoop total cfg.mx 0 cfg.min - 1) _ ?_).1
      exact low
  intro i low
  exfalso
  unfold State.init at low
  dsimp only at low
  split at low
  · exact none_ i low
  · split at low
    · exact whole _ i low
    · split at low
      · exact none_ i low
      · exact whole _ i low

/-- As long as no block is freed that has a free buddy on its left, exactly the live blocks
are recognised. -/
theorem live_blocks_recognised (cfg : Config) (ptr len : Nat) (word : len < 2 ^ 64) (extTags : Bool)
    (base : Nat) (nonnull : 0 < base) (y : Sys)
    (reached : ReachableRight cfg (State.init cfg ptr len extTags) y) : Recognised cfg base y := by
  rcases none_or_settled cfg ptr word extTags with isNone | ⟨_, settled⟩
  · have still : y = ⟨State.none, []⟩ := by
      rw [isNone] at reached
      induction reached with
      | init => rfl
      | step c before allowed right ih =>
        rw [ih] at allowed ⊢
        exact none_step_any c allowed
    subst still
    intro p
    have refused : isAllocatedAt cfg State.none base p = false := by
      unfold isAllocatedAt
      split <;> rfl
    refine ⟨?_, fun _ => if_pos refused⟩
    rw [refused]
    simp
  · have both : Kept cfg y ∧ TagsLive cfg y := by
      induction reached with
      | init => exact ⟨⟨[], settled, List.Perm.nil⟩, init_tagsLive cfg ptr extTags⟩
      | step c before allowed right ih => exact step_recognised ih.1 ih.2 c allowed right
    exact recognised_of_tagsLive both.1 both.2 nonnull

/-- Two blocks next to each other, on an allocator of 16 units. -/
def pair : Sys :=
  (Sys.step config64 ⟨State.init config64 0 1024 true, []⟩ (.allocate 10)).step config64
    (.allocate 10)

/-- The upper block is freed before the lower one. -/
theorem live_blocks_recognised_pair :
    Recognised config64 4096 ((pair.step config64 (.deallocate 64)).step config64 (.deallocate 0)) := by
  refine live_blocks_recognised config64 0 1024 (by decide) true 4096 (by decide) _ ?_
  refine .step _ (.step _ (.step _ (.step _ .init trivial trivial) trivial trivial) trivial ?_)
    trivial ?_
  · exact fun _ => (by decide +kernel : ¬ LeftBuddyFree config64 pair.state 64 _)
  · exact fun _ => (by decide +kernel :
      ¬ LeftBuddyFree config64 (pair.step config64 (.deallocate 64)).state 0 _)

def pairFreed : Sys := (pair.step config64 (.deallocate 0)).step config64 (.deallocate 64)

/-- The upper block is still taken for a live one, and can be freed again once the pair is
handed out as one block. -/
theorem freed_block_taken_for_live :
    Reachable config64 (State.init config64 0 1024 true) pairFreed ∧
      ¬ Recognised config64 4096 pairFreed ∧
      (pairFreed.step config64 (.allocate 90)).live = [(0, 96)] ∧
      (deallocateAt config64 (pairFreed.step config64 (.allocate 90)).state 4096 (4096 + 64)).2 =
        .ok := by
  refine ⟨?_, ?_, by decide +kernel, by decide +kernel⟩
  · refine .step _ (.step _ (.step _ (.step _ .init trivial) trivial) ?_) ?_
    · exact ⟨(0, 32), by decide +kernel, rfl⟩
    · exact ⟨(64, 32), by decide +kernel, rfl⟩
  · intro recognised
    have admitted : isAllocatedAt config64 pairFreed.state 4096 (4096 + 64) = true := by
      decide +kernel
    obtain ⟨b, isLive, _⟩ := (recognised (4096 + 64)).1.mp admitted
    exact absurd isLive not_mem_nil

end Micron.Buddy
