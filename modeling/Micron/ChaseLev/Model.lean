import Mathlib.Tactic.Linarith
import Micron.Lib.Counter

/-!
# Work-stealing deques

`chase_lev` and `chase_lev_grow`: the owner pushes and pops at the bottom, thieves take from the
top by a compare-exchange.  The owner lowers the bottom before it looks at the top, and
races the thieves for the last item.  The growing deque copies its items to a segment of
twice the size when it is full, and keeps the old segments.

Each atomic access is one step, also the two on either side of a fence.  What a call does
between two of them goes with the access before.
-/

set_option autoImplicit false

namespace Micron.ChaseLev

open Micron.Lib List Function

inductive Deque where
  | fixed (N : Nat)
  | grow (N : Nat)

def sdiff (a b : Nat) : Int := ((wordSub a b : Nat) : Int).bmod (2 ^ 64)

def signed (a : Nat) : Int := (a : Int).bmod (2 ^ 64)

/-- `while ( (1ULL << s) < n ) ++s`, for a number of rounds. -/
def log2Loop (n : Nat) : Nat → Nat → Nat
  | 0, s => s
  | rounds + 1, s => if 2 ^ s < n then log2Loop n rounds (s + 1) else s

def log2Pow2 (n : Nat) : Nat := log2Loop n 63 0

structure Segment (α : Type) where
  cap : Nat
  mask : Nat
  slots : Nat → α

section Model
variable {α : Type}

def Segment.get (seg : Segment α) (i : Nat) : α := seg.slots (i &&& seg.mask)

def Segment.set (seg : Segment α) (i : Nat) (x : α) : Segment α :=
  { seg with slots := update seg.slots (i &&& seg.mask) x }

/-- `__make_seg`: the slots hold defaults. -/
def makeSeg (empty : α) (shift : Nat) : Segment α where
  cap := 2 ^ shift
  mask := wordSub (2 ^ shift) 1
  slots _ := empty

def Deque.first (empty : α) : Deque → Segment α
  | .fixed N => { cap := nextPow2 N, mask := wordSub (nextPow2 N) 1, slots := fun _ => empty }
  | .grow N => makeSeg empty (log2Pow2 (nextPow2 N))

/-- `operator new` returns storage for that many slots: never for half the address space. -/
def Allocates (cap : Nat) : Prop := cap < 2 ^ 63

instance (cap : Nat) : Decidable (Allocates cap) := inferInstanceAs (Decidable (_ < _))

/-- Where the owner is in `push_bottom` or `pop_bottom`. -/
inductive Owner (α : Type) where
  | idle
  | pushLoad (x : α)
  | pushBase (x : α) (b : Nat)
  | pushFull (x : α) (b g : Nat)
  | growLoad (x : α) (b t : Nat)
  | copy (x : α) (b g i : Nat)
  | pushStore (x : α) (b g : Nat)
  | pushBottom (x : α) (b : Nat)
  | popLoad
  | popBase (b : Nat)
  | popLower (b g : Nat)
  | popTop (b g : Nat)
  | popRead (b g : Nat)
  | popLast (b g : Nat)
  | popClaim (b : Nat) (x : α)
  | popRestore (b : Nat)

/-- Where a thief is in `try_steal`; `since` is how often the top had moved when it was
read. -/
inductive Thief (α : Type) where
  | idle
  | loadTop
  | loadBottom (t since : Nat)
  | loadBase (t since : Nat)
  | loadSlot (t g since : Nat)
  | claim (t : Nat) (x : α) (since : Nat)

/-- What a call did when it returned, with the item. -/
inductive Event (α : Type) where
  | pushed (x : α)
  | popped (x : α)
  | stolen (x : α)
  deriving DecidableEq

/-- A deque with its threads, and what happened so far: how often the top has moved and how
often it had when the owner last copied it, the events, and how many items were there
each time that a push returned false. -/
structure State (α : Type) where
  segs : Nat → Segment α
  base : Nat
  bottom : Nat
  top : Nat
  topCache : Nat
  owner : Owner α
  thieves : Nat → Thief α
  moved : Nat
  cacheMoved : Nat
  log : List (Event α)
  refused : List Int

def State.init (deque : Deque) (empty : α) : State α where
  segs _ := deque.first empty
  base := 0
  bottom := 0
  top := 0
  topCache := 0
  owner := .idle
  thieves _ := .idle
  moved := 0
  cacheMoved := 0
  log := []
  refused := []

def State.seg (s : State α) : Segment α := s.segs s.base

def State.setSeg (s : State α) (g : Nat) (seg : Segment α) : State α :=
  { s with segs := update s.segs g seg }

/-- The check of `push_bottom` against the copy of the top. -/
def pushCheck (s : State α) (x : α) (b g : Nat) : Owner α :=
  if sdiff b s.topCache > signed (s.segs g).mask then .pushFull x b g else .pushStore x b g

def stepOwner (deque : Deque) (empty : α) (s : State α) : State α :=
  match s.owner with
  | .idle => s
  | .pushLoad x =>
    match deque with
    | .fixed _ => { s with owner := pushCheck s x s.bottom s.base }
    | .grow _ => { s with owner := .pushBase x s.bottom }
  | .pushBase x b => { s with owner := pushCheck s x b s.base }
  | .pushFull x b g =>
    let s' := { s with topCache := s.top, cacheMoved := s.moved }
    if sdiff b s.top ≤ signed (s.segs g).mask then { s' with owner := .pushStore x b g }
    else
      match deque with
      | .fixed _ =>
        { s' with owner := .idle, refused := s.refused ++ [sdiff s.bottom s.top] }
      | .grow _ => { s' with owner := .growLoad x b s.top }
  | .growLoad x b t =>
    let cap := s.seg.cap * 2
    -- where there is no storage the process ends
    if Allocates cap then
      { s.setSeg (s.base + 1) (makeSeg empty (log2Pow2 cap)) with owner := .copy x b s.base t }
    else s
  | .copy x b g i =>
    -- loading a slot and storing it is one step, as no one else writes to a segment
    if sdiff b i > 0 then
      { s.setSeg (g + 1) ((s.segs (g + 1)).set i ((s.segs g).get i)) with
        owner := .copy x b g (word (i + 1)) }
    else { s with base := g + 1, owner := .pushStore x b (g + 1) }
  | .pushStore x b g =>
    { s.setSeg g ((s.segs g).set b x) with owner := .pushBottom x b }
  | .pushBottom x b =>
    { s with bottom := word (b + 1), owner := .idle, log := s.log ++ [.pushed x] }
  | .popLoad =>
    let b := wordSub s.bottom 1
    match deque with
    | .fixed _ => { s with owner := .popLower b s.base }
    | .grow _ => { s with owner := .popBase b }
  | .popBase b => { s with owner := .popLower b s.base }
  | .popLower b g => { s with bottom := b, owner := .popTop b g }
  | .popTop b g =>
    if sdiff b s.top > 0 then { s with owner := .popRead b g }
    else if s.top = b then { s with owner := .popLast b g }
    else { s with owner := .popRestore b }
  | .popRead b g => { s with owner := .idle, log := s.log ++ [.popped ((s.segs g).get b)] }
  | .popLast b g => { s with owner := .popClaim b ((s.segs g).get b) }
  | .popClaim b x =>
    if s.top = b then
      { s with
        top := word (b + 1), moved := s.moved + 1, owner := .popRestore b
        log := s.log ++ [.popped x] }
    else { s with owner := .popRestore b }
  | .popRestore b => { s with bottom := word (b + 1), owner := .idle }

def State.go (s : State α) (i : Nat) (thief : Thief α) : State α :=
  { s with thieves := update s.thieves i thief }

/-- The next step of thief `i`.  A weak compare-exchange may fail for no reason. -/
def stepThief (deque : Deque) (s : State α) (i : Nat) (spurious : Bool) : State α :=
  match s.thieves i with
  | .idle => s
  | .loadTop => s.go i (.loadBottom s.top s.moved)
  | .loadBottom t since =>
    if sdiff s.bottom t ≤ 0 then s.go i .idle
    else
      match deque with
      | .fixed _ => s.go i (.loadSlot t s.base since)
      | .grow _ => s.go i (.loadBase t since)
  | .loadBase t since => s.go i (.loadSlot t s.base since)
  | .loadSlot t g since => s.go i (.claim t ((s.segs g).get t) since)
  | .claim t x _ =>
    if s.top = t ∧ spurious = false then
      { s.go i .idle with
        top := word (t + 1), moved := s.moved + 1, log := s.log ++ [.stolen x] }
    else s.go i .idle

/-- The owner or a thief makes a call, or a party takes its next step. -/
inductive Action (α : Type) where
  | push (x : α)
  | pop
  | steal (i : Nat)
  | owner
  | thief (i : Nat) (spurious : Bool)

def step (deque : Deque) (empty : α) (s : State α) : Action α → State α
  | .push x => { s with owner := .pushLoad x }
  | .pop => { s with owner := .popLoad }
  | .steal i => s.go i .loadTop
  | .owner => stepOwner deque empty s
  | .thief i spurious => stepThief deque s i spurious

def Action.Allowed (s : State α) : Action α → Prop
  | .push _ | .pop => s.owner = .idle
  | .steal i => s.thieves i = .idle
  | .owner | .thief _ _ => True

/-- A thief makes its compare-exchange before the top has gone round since it read it. -/
def Action.Timely (s : State α) : Action α → Prop
  | .thief i _ => match s.thieves i with
      | .claim _ _ since => s.moved < since + 2 ^ 64
      | _ => True
  | _ => True

instance Action.decideTimely (s : State α) : (a : Action α) → Decidable (a.Timely s)
  | .thief i _ =>
    match phase : s.thieves i with
    | .claim _ _ since =>
      decidable_of_iff (s.moved < since + 2 ^ 64) (by simp only [Timely, phase])
    | .idle | .loadTop | .loadBottom _ _ | .loadBase _ _ | .loadSlot _ _ _ =>
      .isTrue (by simp only [Timely, phase])
  | .push _ | .pop | .steal _ | .owner => .isTrue trivial

inductive Reached (deque : Deque) (empty : α) : State α → Prop where
  | init : Reached deque empty (State.init deque empty)
  | step {s : State α} (before : Reached deque empty s) (a : Action α) (allowed : a.Allowed s) :
      Reached deque empty (step deque empty s a)

/-- The states of the runs in which each steal is timely. -/
inductive ReachedTimely (deque : Deque) (empty : α) : State α → Prop where
  | init : ReachedTimely deque empty (State.init deque empty)
  | step {s : State α} (before : ReachedTimely deque empty s) (a : Action α)
      (allowed : a.Allowed s) (timely : a.Timely s) :
      ReachedTimely deque empty (step deque empty s a)

end Model

/-! ## What a deque is for -/

section Meaning
variable {α : Type}

/-- A history and the items it leaves from top to bottom: the owner takes the last, a thief
the first. -/
inductive Replays : List (Event α) → List α → Prop where
  | nil : Replays [] []
  | pushed {log : List (Event α)} {contents : List α} (before : Replays log contents) (x : α) :
      Replays (log ++ [.pushed x]) (contents ++ [x])
  | popped {log : List (Event α)} {contents : List α} {x : α}
      (before : Replays log (contents ++ [x])) : Replays (log ++ [.popped x]) contents
  | stolen {log : List (Event α)} {contents : List α} {x : α}
      (before : Replays log (x :: contents)) : Replays (log ++ [.stolen x]) contents

def Event.pushed? : Event α → Option α
  | .pushed x => some x
  | .popped _ | .stolen _ => none

def Event.returned? : Event α → Option α
  | .pushed _ => none
  | .popped x | .stolen x => some x

/-- The items that were pushed are those that were returned and those that are left, each
as often. -/
theorem Replays.perm {log : List (Event α)} {contents : List α} (replays : Replays log contents) :
    (log.filterMap Event.pushed?).Perm (log.filterMap Event.returned? ++ contents) := by
  induction replays with
  | nil => exact List.Perm.refl _
  | pushed before x ih =>
    simp only [filterMap_append, filterMap_cons, filterMap_nil, Event.pushed?,
      Event.returned?, append_nil]
    rw [← append_assoc]
    exact ih.append_right [x]
  | popped before ih =>
    simp only [filterMap_append, filterMap_cons, filterMap_nil, Event.pushed?,
      Event.returned?, append_nil, append_assoc]
    exact ih.trans (List.Perm.append_left _ perm_append_comm)
  | stolen before ih =>
    simp only [filterMap_append, filterMap_cons, filterMap_nil, Event.pushed?,
      Event.returned?, append_nil, append_assoc]
    exact ih

end Meaning

/-!
## Between top and bottom

The items of the deque are those of its history, in the slots from the top on.  A thief
that has looked at the bottom knows that there is an item for as long as the top does not move.
-/

theorem bmod_of_near {z : Int} {x : Nat} (near : -2 ^ 63 ≤ z) (near' : z < 2 ^ 63)
    (same : (2 ^ 64 : Int) ∣ x - z) : (x : Int).bmod (2 ^ 64) = z := by
  obtain ⟨q, equal⟩ := same
  have split : (x : Int) = z + (2 ^ 64 : Nat) * q := by
    push_cast
    linarith
  rw [split, Int.add_mul_bmod_self_left]
  exact Int.bmod_eq_of_le_mul_two (by push_cast; linarith) (by push_cast; linarith)

theorem sdiff_word {a b : Nat} (near : b ≤ a + 2 ^ 63) (near' : a < b + 2 ^ 63) :
    sdiff (word a) (word b) = (a : Int) - b := by
  refine bmod_of_near (by omega) (by omega) ?_
  unfold wordSub word
  omega

/-- The owner's bottom less one, which may lie before the first position. -/
theorem sdiff_lower {a b : Nat} (le : b ≤ a) (near : a < b + 2 ^ 63) :
    sdiff (wordSub (word a) 1) (word b) = (a : Int) - 1 - b := by
  refine bmod_of_near (by omega) (by omega) ?_
  unfold wordSub word
  omega

theorem word_eq_lower {a b : Nat} (le : b ≤ a) (near : a < b + 2 ^ 63) :
    word b = wordSub (word a) 1 ↔ a = b + 1 := by
  unfold wordSub word
  omega

theorem lower_succ (a : Nat) : wordSub (word (a + 1)) 1 = word a := by
  unfold wordSub word
  omega

theorem word_lower_succ (a : Nat) : word (wordSub (word a) 1 + 1) = word a := by
  unfold wordSub word
  omega

variable {α : Type}

/-- Positions less than the capacity apart have slots of their own. -/
structure SegOk (seg : Segment α) : Prop where
  cap : seg.cap ≤ 2 ^ 62
  power : seg.cap = 0 ∨ ∃ k, seg.cap = 2 ^ k
  mask : signed seg.mask = (seg.cap : Int) - 1
  apart : ∀ x y, x < y → y < x + seg.cap → word x &&& seg.mask ≠ word y &&& seg.mask

theorem segOk_of_pow {seg : Segment α} {k : Nat} (bound : k ≤ 62) (cap : seg.cap = 2 ^ k)
    (mask : seg.mask = wordSub (2 ^ k) 1) : SegOk seg := by
  have top : 2 ^ k ≤ 2 ^ 62 := Nat.pow_le_pow_right (by decide) bound
  have positive := Nat.two_pow_pos k
  refine ⟨le_trans (le_of_eq cap) top, .inr ⟨k, cap⟩, ?_, ?_⟩
  · have value : signed (2 ^ k - 1) = ((2 ^ k : Nat) : Int) - 1 :=
      bmod_of_near (by omega) (by omega) (by omega)
    rw [mask, cap, wordSub_of_le positive (by omega), value]
  · intro x y less near same
    rw [mask, and_wordSub_one (by omega), and_wordSub_one (by omega)] at same
    rw [cap] at near
    have := mod_inj (by omega) near same
    omega

theorem SegOk.of_zero {seg : Segment α} (cap : seg.cap = 0) (mask : seg.mask = wordSub 0 1) :
    SegOk seg := by
  refine ⟨by omega, .inl cap, ?_, ?_⟩
  · rw [mask, cap]
    decide
  · intro x y less near
    omega

theorem SegOk.set {seg : Segment α} (ok : SegOk seg) (i : Nat) (x : α) : SegOk (seg.set i x) :=
  ⟨ok.cap, ok.power, ok.mask, ok.apart⟩

theorem Segment.get_set_self (seg : Segment α) (i : Nat) (x : α) : (seg.set i x).get i = x :=
  update_self ..

theorem SegOk.get_set_of_lt {seg : Segment α} (ok : SegOk seg) {p q : Nat} (less : p < q)
    (near : q < p + seg.cap) (x : α) : (seg.set (word q) x).get (word p) = seg.get (word p) :=
  update_of_ne (ok.apart p q less near) ..

def Owner.lowered : Owner α → Bool
  | .popTop _ _ | .popRead _ _ | .popLast _ _ | .popClaim _ _ | .popRestore _ => true
  | _ => false

def Owner.growing : Owner α → Bool
  | .growLoad _ _ _ | .copy _ _ _ _ => true
  | _ => false

/-- How many items at the bottom thieves cannot get any more. -/
def Owner.reserved : Owner α → Nat
  | .popRead _ _ => 1
  | _ => 0

def State.after (s : State α) (contents : List α) : Nat := s.moved + contents.length

def OwnerOk (s : State α) (contents : List α) : Owner α → Prop
  | .idle | .pushLoad _ | .popLoad => True
  | .pushBase _ b => b = word (s.after contents)
  | .pushFull _ b g => b = word (s.after contents) ∧ g = s.base
  | .growLoad _ b t => b = word (s.after contents) ∧ t = word s.cacheMoved
  | .copy _ b g i =>
    b = word (s.after contents) ∧ g = s.base ∧ SegOk (s.segs (g + 1)) ∧
      s.after contents < s.cacheMoved + (s.segs (g + 1)).cap ∧
      ∃ p, i = word p ∧ s.cacheMoved ≤ p ∧ p ≤ s.after contents ∧
        ∀ j v, s.moved + j < p → contents[j]? = some v →
          (s.segs (g + 1)).get (word (s.moved + j)) = v
  | .pushStore _ b g =>
    b = word (s.after contents) ∧ g = s.base ∧ s.after contents < s.cacheMoved + s.seg.cap
  | .pushBottom x b =>
    b = word (s.after contents) ∧ s.after contents < s.cacheMoved + s.seg.cap ∧
      s.seg.get (word (s.after contents)) = x
  | .popBase b => b = wordSub (word (s.after contents)) 1
  | .popLower b g => b = wordSub (word (s.after contents)) 1 ∧ g = s.base
  | .popTop b g => b = wordSub (word (s.after contents)) 1 ∧ g = s.base
  | .popRead b g => b = wordSub (word (s.after contents)) 1 ∧ g = s.base ∧ contents ≠ []
  | .popLast b g =>
    b = wordSub (word (s.after contents)) 1 ∧ g = s.base ∧ contents.length ≤ 1
  | .popClaim b x =>
    b = wordSub (word (s.after contents)) 1 ∧ contents.length ≤ 1 ∧ ∀ y ∈ contents, x = y
  | .popRestore b => b = wordSub (word (s.after contents)) 1

/-- What a thief has found out, for as long as the top does not move. -/
def ThiefOk (s : State α) (contents : List α) : Thief α → Prop
  | .idle | .loadTop => True
  | .loadBottom t since => t = word since ∧ since ≤ s.moved
  | .loadBase t since =>
    t = word since ∧ since ≤ s.moved ∧ (s.moved = since → s.owner.reserved < contents.length)
  | .loadSlot t g since =>
    t = word since ∧ since ≤ s.moved ∧ (s.moved = since → s.owner.reserved < contents.length ∧
      g ≤ s.base ∧ contents.head? = some ((s.segs g).get t))
  | .claim t x since =>
    t = word since ∧ since ≤ s.moved ∧ (s.moved = since → s.owner.reserved < contents.length ∧
      contents.head? = some x)

structure Inv (s : State α) (contents : List α) : Prop where
  top : s.top = word s.moved
  bottom : s.owner.lowered = false → s.bottom = word (s.after contents)
  lowBottom : s.owner.lowered = true → s.bottom = wordSub (word (s.after contents)) 1
  topCache : s.topCache = word s.cacheMoved
  cacheMoved : s.cacheMoved ≤ s.moved
  room : s.after contents ≤ s.cacheMoved + s.seg.cap
  replays : Replays s.log contents
  seg : SegOk s.seg
  held : ∀ j v, contents[j]? = some v → s.seg.get (word (s.moved + j)) = v
  owner : OwnerOk s contents s.owner
  thieves : ∀ i, ThiefOk s contents (s.thieves i)

end Micron.ChaseLev
