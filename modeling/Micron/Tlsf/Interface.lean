import Micron.Tlsf.Runs

/-!
# The whole interface

The list with its ring of temporal blocks and its tombstones, over the heap of headers.
Counters are words, and go around below zero.  A reallocation is a call that allocates,
writes of what is copied, and a call that frees.

A free that is repeated is told by the flags that the first one left in the header.
-/

set_option autoImplicit false

namespace Micron.Tlsf

open List Function Nat

def blockTombstone : Nat := 2

def blockTemporal : Nat := 4

def temporalRing : Nat := 2

structure Pool where
  heap : State
  tombstonedBytes : Nat
  temporalActive : Nat → Nat → Option Nat
  temporalRotor : Nat → Nat

namespace Pool

def minus (a b : Nat) : Nat := usize (2 ^ 64 + a - b)

def chunk (s : State) (block : Nat) : Nat × Nat :=
  (block + hdrOffset, minus (s.mem block).bsize hdrOffset)

def serve (s : State) (block needed flags : Nat) : State :=
  let s := setFlags (trySplit s block needed) block flags
  { s with allocatedBytes := usize (s.allocatedBytes + (s.mem block).bsize) }

def allocate (p : Pool) (n : Nat) : Pool × Option (Nat × Nat) :=
  if p.heap.hasBase = false then (p, none)
  else
    match findFree p.heap (wanted n) with
    | (_, none) => (p, none)
    | (s, some block) =>
      let s := serve s block (wanted n) blockAlloc
      ({ p with heap := s }, some (chunk s block))

/-- The slot of the ring of a class that is asked next, or the one behind it. -/
def remembered (p : Pool) (i : Nat) : Option (Nat × Nat) :=
  let r := p.temporalRotor i
  match p.temporalActive i r with
  | some block => some (r, block)
  | none =>
    let next := (r + 1) % temporalRing
    (p.temporalActive i next).map fun block => (next, block)

def setActive (p : Pool) (i r : Nat) (block : Option Nat) : Pool :=
  { p with temporalActive :=
      update p.temporalActive i (update (p.temporalActive i) r block) }

def turnTo (p : Pool) (i r : Nat) : Pool :=
  { p with temporalRotor := update p.temporalRotor i ((r + 1) % temporalRing) }

def temporalAllocate (p : Pool) (n : Nat) : Pool × Option (Nat × Nat) :=
  if p.heap.hasBase = false then (p, none)
  else
    let c := mappingSearch (wanted n)
    let hit := if c.1 < p.heap.flCount then remembered p (idx c) else none
    match hit with
    | some (r, block) => (turnTo p (idx c) r, some (chunk p.heap block))
    | none =>
      match findFree p.heap (wanted n) with
      | (_, none) => (p, none)
      | (s, some block) =>
        let s := serve s block (wanted n) (blockAlloc ||| blockTemporal)
        let r := p.temporalRotor (idx c)
        let p := { p with heap := s }
        (if c.1 < s.flCount then turnTo (setActive p (idx c) r (some block)) (idx c) r else p,
          some (chunk s block))

def allocateExact (p : Pool) (n : Nat) : Pool × Option (Nat × Nat) :=
  if p.heap.hasBase = false ∨ n < minBlock ∨ n &&& (n - 1) ≠ 0 then (p, none)
  else
    let c := mappingInsert n
    if p.heap.flCount ≤ c.1 then (p, none)
    else
      match p.heap.heads (idx c) with
      | none => (p, none)
      | some block =>
        let s := setFlags (flRemove p.heap block) block blockAlloc
        let s := { s with allocatedBytes := usize (s.allocatedBytes + (s.mem block).bsize) }
        ({ p with heap := s }, some (chunk s block))

inductive Flag where
  | failure
  | invalid
  | tombstoned
  | ok
  deriving DecidableEq

def tombstone (p : Pool) (ptr : Nat) : Pool × Flag :=
  let block := ptr - hdrOffset
  if (p.heap.mem block).flags &&& blockAlloc = 0 then (p, .invalid)
  else
    let bsz := (p.heap.mem block).bsize
    let s := setFlags p.heap block blockTombstone
    ({ p with
        heap := { s with allocatedBytes := minus s.allocatedBytes bsz }
        tombstonedBytes := usize (p.tombstonedBytes + bsz) }, .tombstoned)

/-- A block leaves the rings: of the slots that have it, the first. -/
def forget (p : Pool) (block : Nat) : Pool :=
  let slots := (List.range (flMax * slCount)).flatMap fun i => (List.range temporalRing).map (i, ·)
  match slots.find? fun x => p.temporalActive x.1 x.2 = some block with
  | some x => setActive p x.1 x.2 none
  | none => p

def deallocate (p : Pool) (ptr : Nat) : Pool × Flag :=
  if ptr = 0 ∨ p.heap.hasBase = false then (p, .failure)
  else
    let block := ptr - hdrOffset
    let bsz := (p.heap.mem block).bsize
    let flags := (p.heap.mem block).flags
    if flags = blockFree then (p, .invalid)
    else
      let s := { p.heap with allocatedBytes := minus p.heap.allocatedBytes bsz }
      let p := { p with
        heap := s
        tombstonedBytes :=
          if flags &&& blockTombstone ≠ 0 then minus p.tombstonedBytes bsz else p.tombstonedBytes }
      let p := if flags &&& blockTemporal ≠ 0 then forget p block else p
      ({ p with heap := coalesceAndFree p.heap block }, .ok)

def isAllocated (p : Pool) (ptr : Nat) : Bool :=
  if ptr = 0 ∨ p.heap.hasBase = false then false
  else
    let block := ptr - hdrOffset
    if block < blockAlign ∨ blockAlign + p.heap.total ≤ block then false
    else (p.heap.mem block).flags ≠ blockFree

def init (ptr len : Nat) : Pool where
  heap := State.init ptr len
  tombstonedBytes := 0
  temporalActive _ _ := none
  temporalRotor _ := 0

end Pool

def FreeStays (s t : State) : Prop :=
  t.hasBase = s.hasBase ∧ ∀ x, (s.mem x).flags = blockFree → (t.mem x).flags = blockFree

theorem FreeStays.trans {s t u : State} (first : FreeStays s t) (second : FreeStays t u) :
    FreeStays s u := ⟨second.1.trans first.1, fun x free => second.2 x (first.2 x free)⟩

def Same {α : Type} (part : Hdr → α) (s t : State) : Prop :=
  t.hasBase = s.hasBase ∧ ∀ x, part (t.mem x) = part (s.mem x)

section

variable {α : Type} {part : Hdr → α} {s t u : State}

theorem Same.refl : Same part s s := ⟨rfl, fun _ => rfl⟩

theorem Same.trans (first : Same part s t) (second : Same part t u) : Same part s u :=
  ⟨second.1.trans first.1, fun x => (second.2 x).trans (first.2 x)⟩

theorem Same.stays (same : Same Hdr.flags s t) : FreeStays s t :=
  ⟨same.1, fun x free => (same.2 x).trans free⟩

theorem setHdr_same (s : State) (a : Nat) {h : Hdr} (same : part h = part (s.mem a)) :
    Same part s (setHdr s a h) := by
  refine ⟨rfl, fun x => ?_⟩
  change part (update s.mem a h x) = _
  by_cases here : x = a
  · rw [here, update_self, same]
  · rw [update_of_ne here]

/-- A block leaves its row: only links of rows change. -/
theorem flRemove_same (nexts : ∀ h p, part { h with nextFree := p } = part h)
    (prevs : ∀ h p, part { h with prevFree := p } = part h) (s : State) (block : Nat) :
    Same part s (flRemove s block) := by
  have unlink : ∀ (t : State) (prev next : Option Nat) (i : Nat), Same part t
      (match prev with
        | some p => setNextFree t p next
        | none => setHead t i next) := by
    intro t prev next i
    cases prev with
    | none => exact ⟨rfl, fun _ => rfl⟩
    | some p => exact setHdr_same t p (nexts _ _)
  have relink : ∀ (t : State) (prev next : Option Nat), Same part t
      (match next with
        | some n => setPrevFree t n prev
        | none => t) := by
    intro t prev next
    cases next with
    | none => exact ⟨rfl, fun _ => rfl⟩
    | some n => exact setHdr_same t n (prevs _ _)
  have unmark : ∀ (t : State) (c : Nat × Nat), Same part t
      (if t.heads (idx c) = none then unmarkClass t c else t) := by
    intro t c
    split
    · exact ⟨rfl, fun _ => rfl⟩
    · exact .refl
  exact (unlink s _ _ _).trans ((relink _ _ _).trans (unmark _ _))

end

theorem setPrevPhys_flags (s : State) (a : Nat) (p : Option Nat) :
    Same Hdr.flags s (setPrevPhys s a p) := setHdr_same s a rfl

theorem setBsize_flags (s : State) (a n : Nat) : Same Hdr.flags s (setBsize s a n) := setHdr_same s a rfl

theorem flRemove_flags (s : State) (block : Nat) : Same Hdr.flags s (flRemove s block) :=
  flRemove_same (fun _ _ => rfl) (fun _ _ => rfl) s block

theorem flInsert_flags (s : State) (block : Nat) :
    FreeStays s (flInsert s block) ∧ ((flInsert s block).mem block).flags = blockFree := by
  have linked : ∀ (t : State) (head : Option Nat), Same Hdr.flags t
      (match head with
        | some h => setPrevFree t h (some block)
        | none => t) := by
    intro t head
    cases head with
    | none => exact ⟨rfl, fun _ => rfl⟩
    | some h => exact setHdr_same t h rfl
  have marked : ∀ (t : State) (i : Nat) (c : Nat × Nat),
      FreeStays t (markClass (setFlags (setHead t i (some block)) block blockFree) c) ∧
        ((markClass (setFlags (setHead t i (some block)) block blockFree) c).mem block).flags =
          blockFree := by
    intro t i c
    change (t.hasBase = t.hasBase ∧
      ∀ x, _ → (update t.mem block { t.mem block with flags := blockFree } x).flags = _) ∧
      (update t.mem block { t.mem block with flags := blockFree } block).flags = _
    refine ⟨⟨rfl, fun x free => ?_⟩, by rw [update_self]⟩
    by_cases here : x = block
    · rw [here, update_self]
    · rw [update_of_ne here]
      exact free
  have unlinked : ∀ head, Same Hdr.flags s (setPrevFree (setNextFree s block head) block none) := by
    intro head
    have next : Same Hdr.flags s (setNextFree s block head) := setHdr_same s block rfl
    exact next.trans (setHdr_same _ block rfl)
  have before := (unlinked (s.heads (idx (mappingInsert (s.mem block).bsize)))).trans
    (linked _ (s.heads (idx (mappingInsert (s.mem block).bsize))))
  exact ⟨before.stays.trans (marked _ _ _).1, (marked _ _ _).2⟩

theorem trySplit_flags (s : State) (block needed : Nat) : FreeStays s (trySplit s block needed) := by
  have made : ∀ (t : State) (rem : Nat) (h : Hdr), h.flags = blockFree → FreeStays t (setHdr t rem h) := by
    intro t rem h isFree
    refine ⟨rfl, fun x free => ?_⟩
    change (update t.mem rem h x).flags = _
    by_cases here : x = rem
    · rw [here, update_self, isFree]
    · rw [update_of_ne here]
      exact free
  unfold trySplit
  dsimp only
  split
  · exact ⟨rfl, fun _ free => free⟩
  · exact (setBsize_flags s block _).stays.trans ((made _ _ _ rfl).trans
      ((setPrevPhys_flags _ _ _).stays.trans (flInsert_flags _ _).1))

theorem findFree_flags (s : State) (needed : Nat) : Same Hdr.flags s (findFree s needed).1 := by
  unfold findFree
  dsimp only
  split
  · exact .refl
  · split
    · exact .refl
    · split
      · exact .refl
      · exact flRemove_flags s _

/-- Only the mark of the block itself may stop saying free. -/
theorem serve_flags (s : State) (block needed flags : Nat) :
    (Pool.serve s block needed flags).hasBase = s.hasBase ∧ ∀ x, x ≠ block →
      (s.mem x).flags = blockFree → ((Pool.serve s block needed flags).mem x).flags = blockFree := by
  obtain ⟨base, stays⟩ := trySplit_flags s block needed
  refine ⟨base, fun x other free => ?_⟩
  change (update (trySplit s block needed).mem block _ x).flags = _
  rw [update_of_ne other]
  exact stays x free

/-! ## What a free does to the flags -/

/-- The block in front of a block is marked as free. -/
def LeftFree (s : State) (block : Nat) : Prop :=
  ∃ prev ∈ (s.mem block).prevPhys, (s.mem prev).flags = blockFree

instance (s : State) (block : Nat) : Decidable (LeftFree s block) :=
  inferInstanceAs (Decidable (∃ prev ∈ (s.mem block).prevPhys, _))

theorem mergeForward_frame (s : State) (block : Nat) :
    Same Hdr.flags s (mergeForward s block) ∧
      (((mergeForward s block).mem block).prevPhys = (s.mem block).prevPhys ∨
        ((mergeForward s block).mem block).prevPhys = some block) := by
  unfold mergeForward
  dsimp only
  split
  · generalize nextPhys s block = next
    have sized : ∀ {α : Type} {part : Hdr → α}, (∀ h p, part { h with nextFree := p } = part h) →
        (∀ h p, part { h with prevFree := p } = part h) →
        (∀ h n, part { h with bsize := n } = part h) → Same part s (setBsize (flRemove s next) block
          (u32 (((flRemove s next).mem block).bsize + ((flRemove s next).mem next).bsize))) :=
      fun nexts prevs bsizes => (flRemove_same nexts prevs s next).trans (setHdr_same _ block (bsizes _ _))
    have flags := @sized _ Hdr.flags (fun _ _ => rfl) (fun _ _ => rfl) fun _ _ => rfl
    have prev := @sized _ Hdr.prevPhys (fun _ _ => rfl) (fun _ _ => rfl) fun _ _ => rfl
    generalize setBsize (flRemove s next) block _ = t at flags prev
    refine ⟨flags.trans (setPrevPhys_flags t _ _), ?_⟩
    change (update t.mem (nextPhys t block) { t.mem (nextPhys t block) with
      prevPhys := some block } block).prevPhys = _ ∨ _
    by_cases here : block = nextPhys t block
    · refine .inr ?_
      change (update t.mem (nextPhys t block) _ block).prevPhys = _
      rw [← here, update_self]
    · refine .inl ?_
      rw [update_of_ne here]
      exact prev.2 block
  · exact ⟨.refl, .inl rfl⟩

theorem mergeBackward_flags (s : State) (block : Nat) :
    Same Hdr.flags s (mergeBackward s block).1 ∧ (¬ LeftFree s block → (mergeBackward s block).2 = block) := by
  unfold mergeBackward LeftFree
  split
  · exact ⟨.refl, fun _ => rfl⟩
  · rename_i prev isPrev
    split
    · rename_i free
      refine ⟨(flRemove_flags s prev).trans ((setBsize_flags _ _ _).trans (setPrevPhys_flags _ _ _)), ?_⟩
      exact fun noLeft => absurd ⟨prev, isPrev, free⟩ noLeft
    · exact ⟨.refl, fun _ => rfl⟩

/-- A block with no free one in front of it is marked as free, and so stays what was. -/
theorem coalesceAndFree_flags (s : State) (block : Nat) :
    FreeStays s (coalesceAndFree s block) ∧
      ((s.mem block).flags ≠ blockFree → ¬ LeftFree s block →
        ((coalesceAndFree s block).mem block).flags = blockFree) := by
  obtain ⟨forward, prev⟩ := mergeForward_frame s block
  obtain ⟨backward, still⟩ := mergeBackward_flags (mergeForward s block) block
  obtain ⟨stays, marked⟩ := flInsert_flags (mergeBackward (mergeForward s block) block).1
    (mergeBackward (mergeForward s block) block).2
  refine ⟨(forward.trans backward).stays.trans stays, fun busy noLeft => ?_⟩
  have noLeft' : ¬ LeftFree (mergeForward s block) block := by
    rintro ⟨left, isLeft, free⟩
    rw [forward.2 left] at free
    rcases prev with same | own
    · exact noLeft ⟨left, same ▸ isLeft, free⟩
    · rw [own] at isLeft
      exact busy (Option.some.inj isLeft ▸ free)
  have here := still noLeft'
  unfold coalesceAndFree
  dsimp only
  rw [here] at marked ⊢
  exact marked

/-- A pool, what it has handed out, and what was given back and not handed out again. -/
structure Session where
  pool : Pool
  live : List (Nat × Nat)
  freed : List Nat

inductive Request where
  | allocate (n : Nat)
  | temporalAllocate (n : Nat)
  | allocateExact (n : Nat)
  | tombstone (ptr : Nat)
  | deallocate (ptr : Nat)
  | write (u : Nat) (h : Hdr)

def Session.hand (y : Session) (result : Pool × Option (Nat × Nat)) : Session :=
  match result.2 with
  | none => ⟨result.1, y.live, y.freed⟩
  | some b => ⟨result.1, b :: y.live, y.freed.filter (· ≠ b.1)⟩

def Session.step (y : Session) : Request → Session
  | .allocate n => y.hand (y.pool.allocate n)
  | .temporalAllocate n => y.hand (y.pool.temporalAllocate n)
  | .allocateExact n => y.hand (y.pool.allocateExact n)
  | .tombstone ptr => ⟨(y.pool.tombstone ptr).1, y.live, y.freed⟩
  | .deallocate ptr =>
    ⟨(y.pool.deallocate ptr).1, y.live.filter (·.1 ≠ ptr),
      if ∃ b ∈ y.live, b.1 = ptr then ptr :: y.freed else y.freed⟩
  | .write u h => ⟨{ y.pool with heap := setHdr y.pool.heap u h }, y.live, y.freed⟩

/-- What is freed is live or was freed before, and a user writes only to what it was given. -/
def Request.Allowed (y : Session) : Request → Prop
  | .allocate _ | .temporalAllocate _ | .allocateExact _ | .tombstone _ => True
  | .deallocate ptr => (∃ b ∈ y.live, b.1 = ptr) ∨ ptr ∈ y.freed
  | .write u _ => ∃ b ∈ y.live, b.1 ≤ u ∧ u < b.1 + b.2

/-- The size that is searched for does not wrap around to one that has a class. -/
def Searches (s : State) (n : Nat) : Prop :=
  wanted n + (2 ^ (fls64 (wanted n) - slLog2) - 1) < 2 ^ 64 ∨ s.flCount ≤ (mappingSearch (wanted n)).1

/-- No size wraps, no block is freed behind a free one, and no user writes other flags where
the header of a freed block is. -/
def Request.Spares (y : Session) : Request → Prop
  | .allocate n | .temporalAllocate n => Searches y.pool.heap n
  | .allocateExact _ | .tombstone _ => True
  | .deallocate ptr => (∃ b ∈ y.live, b.1 = ptr) → ¬ LeftFree y.pool.heap (ptr - hdrOffset)
  | .write u h => u + hdrOffset ∈ y.freed → h.flags = blockFree

/-- The states of runs whose steps all meet a condition. -/
inductive Session.Reached (meets : Session → Request → Prop) (first : Pool) : Session → Prop where
  | init : Reached meets first ⟨first, [], []⟩
  | step {y : Session} (c : Request) (before : Reached meets first y) (met : meets y c) :
      Reached meets first (y.step c)

/-- A repeated free is told from a first one. -/
def Session.Rejects (y : Session) : Prop :=
  ∀ ptr ∈ y.freed, y.pool.isAllocated ptr = false ∧ y.pool.deallocate ptr = (y.pool, .invalid)

structure Session.Marked (y : Session) : Prop where
  base : y.pool.heap.hasBase = false → y.live = [] ∧ y.freed = []
  live : ∀ b ∈ y.live, hdrOffset ≤ b.1
  freed : ∀ ptr ∈ y.freed, hdrOffset ≤ ptr ∧ (y.pool.heap.mem (ptr - hdrOffset)).flags = blockFree

theorem Session.Marked.rejects {y : Session} (marked : y.Marked) : y.Rejects := by
  intro ptr inside
  obtain ⟨large, free⟩ := marked.freed ptr inside
  have base : ¬ (ptr = 0 ∨ y.pool.heap.hasBase = false) := by
    rintro (rfl | none_)
    · exact absurd large (by decide)
    · rw [(marked.base none_).2] at inside
      exact absurd inside not_mem_nil
  refine ⟨?_, ?_⟩
  · unfold Pool.isAllocated
    dsimp only
    rw [if_neg base, free]
    split
    · rfl
    · exact decide_eq_false fun wrong => wrong rfl
  · unfold Pool.deallocate
    rw [if_neg base, if_pos free]

/-- What a call that hands out a block does to the marks. -/
def HandsOut (s : State) (result : Pool × Option (Nat × Nat)) : Prop :=
  result.1.heap.hasBase = s.hasBase ∧
    match result.2 with
    | none => FreeStays s result.1.heap
    | some b => s.hasBase = true ∧ hdrOffset ≤ b.1 ∧ ∀ x, x + hdrOffset ≠ b.1 →
        (s.mem x).flags = blockFree → (result.1.heap.mem x).flags = blockFree

theorem hand_marked {y : Session} (marked : y.Marked) {result : Pool × Option (Nat × Nat)}
    (out : HandsOut y.pool.heap result) : (y.hand result).Marked := by
  obtain ⟨p, r⟩ := result
  obtain ⟨base, out⟩ := out
  cases r with
  | none =>
    refine ⟨fun none_ => marked.base (base ▸ none_), marked.live, fun ptr inside => ?_⟩
    obtain ⟨large, free⟩ := marked.freed ptr inside
    exact ⟨large, out.2 _ free⟩
  | some b =>
    obtain ⟨some_, start, stays⟩ := out
    refine ⟨fun none_ => ?_, ?_, fun ptr inside => ?_⟩
    · exact absurd (some_.symm.trans (base.symm.trans none_)) (by decide)
    · intro c inside
      rcases mem_cons.mp inside with rfl | old
      · exact start
      · exact marked.live c old
    · obtain ⟨old, other⟩ := mem_filter.mp inside
      obtain ⟨large, free⟩ := marked.freed ptr old
      refine ⟨large, stays _ ?_ free⟩
      rw [Nat.sub_add_cancel large]
      exact of_decide_eq_true other

theorem allocate_handsOut (p : Pool) (n : Nat) : HandsOut p.heap (p.allocate n) := by
  unfold Pool.allocate
  split
  · exact ⟨rfl, rfl, fun _ free => free⟩
  · rename_i some_
    split
    · exact ⟨rfl, rfl, fun _ free => free⟩
    · rename_i s block found
      have removed := findFree_flags p.heap (wanted n)
      rw [found] at removed
      obtain ⟨base, stays⟩ := serve_flags s block (wanted n) blockAlloc
      refine ⟨base.trans removed.1, eq_true_of_ne_false some_, le_add_left _ _, ?_⟩
      intro x other free
      exact stays x (fun same => other (same ▸ rfl)) ((removed.2 x).trans free)

theorem temporalAllocate_handsOut (p : Pool) (n : Nat) : HandsOut p.heap (p.temporalAllocate n) := by
  unfold Pool.temporalAllocate
  split
  · exact ⟨rfl, rfl, fun _ free => free⟩
  · rename_i some_
    dsimp only
    split
    · exact ⟨rfl, eq_true_of_ne_false some_, le_add_left _ _, fun _ _ free => free⟩
    · split
      · exact ⟨rfl, rfl, fun _ free => free⟩
      · rename_i s block found
        have removed := findFree_flags p.heap (wanted n)
        rw [found] at removed
        obtain ⟨base, stays⟩ := serve_flags s block (wanted n) (blockAlloc ||| blockTemporal)
        refine ⟨?_, eq_true_of_ne_false some_, le_add_left _ _, ?_⟩
        · split
          · exact base.trans removed.1
          · exact base.trans removed.1
        · intro x other free
          have stayed := stays x (fun same => other (same ▸ rfl)) ((removed.2 x).trans free)
          split
          · exact stayed
          · exact stayed

theorem allocateExact_handsOut (p : Pool) (n : Nat) : HandsOut p.heap (p.allocateExact n) := by
  unfold Pool.allocateExact
  split
  · exact ⟨rfl, rfl, fun _ free => free⟩
  · rename_i some_
    dsimp only
    split
    · exact ⟨rfl, rfl, fun _ free => free⟩
    · split
      · exact ⟨rfl, rfl, fun _ free => free⟩
      · rename_i block _
        have removed := flRemove_flags p.heap block
        refine ⟨removed.1, eq_true_of_ne_false fun none_ => some_ (.inl none_), le_add_left _ _, ?_⟩
        intro x other free
        change (update (flRemove p.heap block).mem block _ x).flags = _
        have differ : x ≠ block := by
          rintro rfl
          exact other rfl
        rw [update_of_ne differ]
        exact (removed.2 x).trans free

theorem tombstone_stays (p : Pool) (ptr : Nat) : FreeStays p.heap (p.tombstone ptr).1.heap := by
  unfold Pool.tombstone
  dsimp only
  split
  · exact ⟨rfl, fun _ free => free⟩
  · rename_i busy
    refine ⟨rfl, fun x free => ?_⟩
    change (update p.heap.mem (ptr - hdrOffset) _ x).flags = _
    by_cases here : x = ptr - hdrOffset
    · rw [here] at free
      rw [free] at busy
      exact absurd rfl busy
    · rw [update_of_ne here]
      exact free

theorem forget_heap (p : Pool) (block : Nat) : (p.forget block).heap = p.heap := by
  unfold Pool.forget
  dsimp only
  split
  · rfl
  · rfl

theorem deallocate_stays (p : Pool) (ptr : Nat) :
    FreeStays p.heap (p.deallocate ptr).1.heap ∧
      (ptr ≠ 0 → p.heap.hasBase = true → ¬ LeftFree p.heap (ptr - hdrOffset) →
        ((p.deallocate ptr).1.heap.mem (ptr - hdrOffset)).flags = blockFree) := by
  unfold Pool.deallocate
  dsimp only
  split
  · rename_i wrong
    refine ⟨⟨rfl, fun _ free => free⟩, fun some_ base => ?_⟩
    rcases wrong with zero | none_
    · exact absurd zero some_
    · exact absurd (base.symm.trans none_) (by decide)
  · split
    · rename_i free
      exact ⟨⟨rfl, fun _ free => free⟩, fun _ _ _ => free⟩
    · rename_i busy
      obtain ⟨stays, marked⟩ := coalesceAndFree_flags
        { p.heap with allocatedBytes := Pool.minus p.heap.allocatedBytes (p.heap.mem (ptr - hdrOffset)).bsize }
        (ptr - hdrOffset)
      split
      · rw [forget_heap]
        exact ⟨stays, fun _ _ => marked busy⟩
      · exact ⟨stays, fun _ _ => marked busy⟩

theorem step_marked {y : Session} (marked : y.Marked) (c : Request) (allowed : c.Allowed y)
    (spares : c.Spares y) : (y.step c).Marked := by
  cases c with
  | allocate n => exact hand_marked marked (allocate_handsOut _ n)
  | temporalAllocate n => exact hand_marked marked (temporalAllocate_handsOut _ n)
  | allocateExact n => exact hand_marked marked (allocateExact_handsOut _ n)
  | tombstone ptr =>
    obtain ⟨base, stays⟩ := tombstone_stays y.pool ptr
    refine ⟨fun none_ => marked.base (base ▸ none_), marked.live, fun ptr inside => ?_⟩
    obtain ⟨large, free⟩ := marked.freed ptr inside
    exact ⟨large, stays _ free⟩
  | deallocate ptr =>
    obtain ⟨⟨base, stays⟩, own⟩ := deallocate_stays y.pool ptr
    refine ⟨fun none_ => ?_, fun b inside => ?_, fun q inside => ?_⟩
    · obtain ⟨noLive, noFreed⟩ := marked.base (base ▸ none_)
      simp [Session.step, noLive, noFreed]
    · exact marked.live b (mem_filter.mp inside).1
    · have kept : ∀ q ∈ y.freed, hdrOffset ≤ q ∧
          ((y.pool.deallocate ptr).1.heap.mem (q - hdrOffset)).flags = blockFree := by
        intro q inside
        obtain ⟨large, free⟩ := marked.freed q inside
        exact ⟨large, stays _ free⟩
      unfold Session.step at inside
      dsimp only at inside
      split at inside
      · rename_i isLive
        rcases mem_cons.mp inside with rfl | old
        · have noLeft := spares isLive
          obtain ⟨b, isIn, rfl⟩ := isLive
          have large := marked.live b isIn
          have some_ : y.pool.heap.hasBase = true := by
            refine eq_true_of_ne_false fun none_ => ?_
            rw [(marked.base none_).1] at isIn
            exact absurd isIn not_mem_nil
          have positive : 0 < hdrOffset := by decide
          exact ⟨large, own (by omega) some_ noLeft⟩
        · exact kept q old
      · exact kept q inside
  | write u h =>
    refine ⟨marked.base, marked.live, fun ptr inside => ?_⟩
    obtain ⟨large, free⟩ := marked.freed ptr inside
    refine ⟨large, ?_⟩
    change (update y.pool.heap.mem u h (ptr - hdrOffset)).flags = _
    by_cases here : ptr - hdrOffset = u
    · subst here
      rw [update_self]
      refine spares ?_
      rw [Nat.sub_add_cancel large]
      exact inside
    · rw [update_of_ne here, free]

/-- As long as no size wraps, no block is freed behind a free one and the flags of freed
blocks are not written over, every repeated free is rejected. -/
theorem repeated_free_rejected (ptr len : Nat) (y : Session)
    (reached : Session.Reached (fun y c => c.Allowed y ∧ c.Spares y) (Pool.init ptr len) y) :
    y.Rejects := by
  have marked : y.Marked := by
    induction reached with
    | init =>
      exact ⟨fun _ => ⟨rfl, rfl⟩, nofun, nofun⟩
    | step c before met ih => exact step_marked ih c met.1 met.2
  exact marked.rejects

/-- Two blocks next to each other, and a third one behind them. -/
def neighbours : Session :=
  (((Session.mk (Pool.init 0 1024) [] []).step (.allocate 10)).step (.allocate 10)).step
    (.temporalAllocate 100)

/-- The block on the right is freed first, then the one on the left, then the first again. -/
theorem repeated_free_rejected_neighbours :
    (((neighbours.step (.deallocate 160)).step (.deallocate 64)).step (.deallocate 160)).freed =
        [64, 160] ∧
      (((neighbours.step (.deallocate 160)).step (.deallocate 64)).step (.deallocate 160)).Rejects := by
  refine ⟨by decide +kernel, repeated_free_rejected 0 1024 _ ?_⟩
  refine .step _ (.step _ (.step _ (.step _ (.step _ (.step _ .init ⟨trivial, .inl (by decide)⟩)
    ⟨trivial, .inl (by decide)⟩) ⟨trivial, .inl (by decide)⟩) ⟨?_, ?_⟩) ⟨?_, ?_⟩) ⟨?_, ?_⟩
  · exact (by decide +kernel : (∃ b ∈ neighbours.live, b.1 = 160) ∨ 160 ∈ neighbours.freed)
  · exact fun _ => (by decide +kernel : ¬ LeftFree neighbours.pool.heap 128)
  · exact .inl (by decide +kernel : ∃ b ∈ (neighbours.step (.deallocate 160)).live, b.1 = 64)
  · exact fun _ => (by decide +kernel : ¬ LeftFree (neighbours.step (.deallocate 160)).pool.heap 32)
  · exact .inr (by decide +kernel :
      160 ∈ ((neighbours.step (.deallocate 160)).step (.deallocate 64)).freed)
  · exact fun isLive => absurd isLive (by decide +kernel :
      ¬ ∃ b ∈ ((neighbours.step (.deallocate 160)).step (.deallocate 64)).live, b.1 = 160)

/-- The block on the left is freed first: the one on the right is then taken for a live one,
and freed once more. -/
theorem repeated_free_accepted :
    Session.Reached (fun y c => c.Allowed y) (Pool.init 0 1024)
        ((neighbours.step (.deallocate 64)).step (.deallocate 160)) ∧
      ((neighbours.step (.deallocate 64)).step (.deallocate 160)).freed = [160, 64] ∧
      ((neighbours.step (.deallocate 64)).step (.deallocate 160)).pool.isAllocated 160 = true ∧
      (((neighbours.step (.deallocate 64)).step (.deallocate 160)).pool.deallocate 160).2 = .ok ∧
      ¬ ((neighbours.step (.deallocate 64)).step (.deallocate 160)).Rejects := by
  have admitted : ((neighbours.step (.deallocate 64)).step (.deallocate 160)).pool.isAllocated 160 =
      true := by decide +kernel
  refine ⟨?_, by decide +kernel, admitted, by decide +kernel, fun rejects => ?_⟩
  · refine .step _ (.step _ (.step _ (.step _ (.step _ .init trivial) trivial) trivial) ?_) ?_
    · exact .inl (by decide +kernel : ∃ b ∈ neighbours.live, b.1 = 64)
    · exact .inl (by decide +kernel : ∃ b ∈ (neighbours.step (.deallocate 64)).live, b.1 = 160)
  · have refused := (rejects 160 (by decide +kernel)).1
    exact absurd (admitted.symm.trans refused) (by decide)

end Micron.Tlsf
