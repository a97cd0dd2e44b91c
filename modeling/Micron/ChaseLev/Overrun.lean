import Micron.ChaseLev.Runs

/-!
# A top that has gone round

A thief that stops between reading the top and its compare-exchange cannot tell that the
top has gone round in between: it then returns an item that was stolen long before.
-/

set_option autoImplicit false

namespace Micron.ChaseLev

open Micron.Lib List Function

variable {s : State Nat} {n x : Nat}

abbrev ReachedOne (s : State Nat) : Prop := Reached (.fixed 1) 0 s

structure SameOwner (s s' : State Nat) : Prop where
  segs : s'.segs = s.segs
  base : s'.base = s.base
  bottom : s'.bottom = s.bottom
  owner : s'.owner = s.owner

theorem push_one (reached : ReachedOne s) (idle : s.owner = .idle)
    (free : sdiff s.bottom s.top ≤ signed (s.segs s.base).mask) (x : Nat) :
    ∃ s', ReachedOne s' ∧ s'.bottom = word (s.bottom + 1) ∧ s'.top = s.top ∧ s'.moved = s.moved ∧
      s'.thieves = s.thieves ∧ s'.owner = .idle ∧ s'.seg.mask = s.seg.mask ∧
      s'.seg.get s.bottom = x ∧ s'.log = s.log ++ [.pushed x] := by
  have called := reached.step (.push x) (by simp only [Action.Allowed, idle])
  have loaded : ReachedOne { s with owner := pushCheck s x s.bottom s.base } :=
    called.step .owner trivial
  have ready : ∃ c m, ReachedOne { s with
      topCache := c, cacheMoved := m, owner := .pushStore x s.bottom s.base } := by
    unfold pushCheck at loaded
    split at loaded
    next =>
      have found := loaded.step .owner trivial
      simp only [step, stepOwner] at found
      rw [if_pos free] at found
      exact ⟨_, _, found⟩
    next => exact ⟨_, _, loaded⟩
  obtain ⟨c, m, ready⟩ := ready
  have stored := ready.step .owner trivial
  have published := stored.step .owner trivial
  have new : update s.segs s.base (s.seg.set s.bottom x) s.base = s.seg.set s.bottom x :=
    update_self ..
  exact ⟨_, published, rfl, rfl, rfl, rfl, rfl, (congrArg Segment.mask new).trans rfl,
    (congrArg (fun seg => seg.get s.bottom) new).trans (Segment.get_set_self _ _ _), rfl⟩

theorem go_thieves (s : State Nat) (i : Nat) (thief : Thief Nat) : (s.go i thief).thieves i = thief :=
  update_self ..

theorem go_of_ne (s : State Nat) {i j : Nat} (thief : Thief Nat) (other : j ≠ i) :
    (s.go i thief).thieves j = s.thieves j :=
  update_of_ne other ..

theorem go_go (s : State Nat) (i : Nat) (before after : Thief Nat) :
    (s.go i before).go i after = s.go i after := by
  simp only [State.go, update_idem]

theorem look_one (reached : ReachedOne s) {i : Nat} (idle : s.thieves i = .idle)
    (more : ¬ sdiff s.bottom s.top ≤ 0) :
    ∃ s', ReachedOne s' ∧ SameOwner s s' ∧ s'.top = s.top ∧ s'.moved = s.moved ∧ s'.log = s.log ∧
      s'.thieves i = .claim s.top (s.seg.get s.top) s.moved ∧
      ∀ j, j ≠ i → s'.thieves j = s.thieves j := by
  have called : ReachedOne (s.go i .loadTop) :=
    reached.step (.steal i) (by simp only [Action.Allowed, idle])
  have loaded := called.step (.thief i false) trivial
  have looked := loaded.step (.thief i false) trivial
  simp only [step, stepThief, go_thieves, go_go] at looked
  have bottom : (s.go i (.loadBottom (s.go i .loadTop).top (s.go i .loadTop).moved)).bottom =
    s.bottom := rfl
  have top : (s.go i .loadTop).top = s.top := rfl
  rw [bottom, top, if_neg more] at looked
  have read := looked.step (.thief i false) trivial
  simp only [step, stepThief, go_thieves, go_go] at read
  exact ⟨_, read, ⟨rfl, rfl, rfl, rfl⟩, rfl, rfl, rfl, go_thieves _ _ _,
    fun j other => go_of_ne _ _ other⟩

/-- The compare-exchange of a thief finds the word it expects. -/
theorem claim_one {i t since : Nat} (reached : ReachedOne s)
    (claims : s.thieves i = .claim t x since) (found : s.top = t) :
    ∃ s', ReachedOne s' ∧ SameOwner s s' ∧ s'.top = word (t + 1) ∧
      s'.log = s.log ++ [.stolen x] ∧ s'.thieves i = .idle ∧
      ∀ j, j ≠ i → s'.thieves j = s.thieves j := by
  have next := reached.step (.thief i false) trivial
  simp only [step, stepThief, claims] at next
  rw [if_pos ⟨found, trivial⟩] at next
  exact ⟨_, next, ⟨rfl, rfl, rfl, rfl⟩, rfl, rfl, go_thieves _ _ _, fun j other => go_of_ne _ _ other⟩

/-- Item 5 was stolen by thief 0 and the deque is empty after the top has moved `n` times,
while thief 1 waits with what it read at the start. -/
structure Cycled (n : Nat) (s : State Nat) : Prop where
  reached : ReachedOne s
  top : s.top = word n
  bottom : s.bottom = word n
  mask : s.seg.mask = 0
  owner : s.owner = .idle
  worker : s.thieves 0 = .idle
  stalled : s.thieves 1 = .claim 0 5 0
  pushed : (s.log.filterMap Event.pushed?).count 5 = 1
  returned : 1 ≤ (s.log.filterMap Event.returned?).count 5

theorem sdiff_self (n : Nat) : sdiff (word n) (word n) ≤ signed 0 := by
  rw [sdiff_word (by omega) (by omega), sub_self]
  decide

theorem sdiff_succ (n : Nat) : ¬ sdiff (word (word n + 1)) (word n) ≤ 0 := by
  rw [word_word_add, sdiff_word (by omega) (by omega)]
  omega

theorem cycled_one : ∃ s, Cycled 1 s := by
  obtain ⟨s₁, reached₁, bottom₁, top₁, moved₁, thieves₁, owner₁, mask₁, slot₁, log₁⟩ :=
    push_one (Reached.init : ReachedOne _) rfl (sdiff_self 0) 5
  have more : ¬ sdiff s₁.bottom s₁.top ≤ 0 := by
    rw [bottom₁, top₁]
    exact sdiff_succ 0
  obtain ⟨s₂, reached₂, same₂, top₂, moved₂, log₂, claims₂, others₂⟩ :=
    look_one (i := 1) reached₁ (congrFun thieves₁ 1) more
  have worker : s₂.thieves 0 = .idle := by
    rw [others₂ 0 (by decide), thieves₁]
    rfl
  obtain ⟨s₃, reached₃, same₃, top₃, moved₃, log₃, claims₃, others₃⟩ :=
    look_one (i := 0) reached₂ worker (by rw [same₂.bottom, top₂]; exact more)
  obtain ⟨s₄, reached₄, same₄, top₄, log₄, idle₄, others₄⟩ :=
    claim_one reached₃ claims₃ top₃
  have zero : s₁.top = 0 := top₁
  have seg₂ : s₂.seg = s₁.seg := by rw [State.seg, same₂.segs, same₂.base]; rfl
  have seg₄ : s₄.seg = s₁.seg := by
    rw [State.seg, same₄.segs, same₄.base, same₃.segs, same₃.base]
    exact seg₂
  have five : s₁.seg.get 0 = 5 := slot₁
  have log : s₄.log = [.pushed 5, .stolen 5] := by
    rw [log₄, log₃, log₂, log₁, seg₂, top₂, zero, five]
    rfl
  refine ⟨s₄, reached₄, ?_, ?_, ?_, ?_, idle₄, ?_, ?_, ?_⟩
  · rw [top₄, top₂, zero]
  · rw [same₄.bottom, same₃.bottom, same₂.bottom, bottom₁]
    rfl
  · rw [seg₄, mask₁]
    rfl
  · rw [same₄.owner, same₃.owner, same₂.owner, owner₁]
  · rw [others₄ 1 (by decide), others₃ 1 (by decide), claims₂, zero, five, moved₁]
    rfl
  · rw [log]
    decide
  · rw [log]
    decide

theorem Cycled.next (cycled : Cycled n s) : ∃ s', Cycled (n + 1) s' := by
  obtain ⟨s₁, reached₁, bottom₁, top₁, _, thieves₁, owner₁, mask₁, _, log₁⟩ :=
    push_one cycled.reached cycled.owner
      (by rw [cycled.bottom, cycled.top, show (s.segs s.base).mask = 0 from cycled.mask]; exact sdiff_self n) 6
  have more : ¬ sdiff s₁.bottom s₁.top ≤ 0 := by
    rw [bottom₁, top₁, cycled.bottom, cycled.top]
    exact sdiff_succ n
  have worker : s₁.thieves 0 = .idle := by
    rw [thieves₁]
    exact cycled.worker
  obtain ⟨s₂, reached₂, same₂, top₂, _, log₂, claims₂, others₂⟩ := look_one reached₁ worker more
  obtain ⟨s₃, reached₃, same₃, top₃, log₃, idle₃, others₃⟩ := claim_one reached₂ claims₂ top₂
  have seg : s₃.seg = s₁.seg := by
    rw [State.seg, same₃.segs, same₃.base, same₂.segs, same₂.base]
    rfl
  have pushes : s₃.log.filterMap Event.pushed? = s.log.filterMap Event.pushed? ++ [6] := by
    rw [log₃, log₂, log₁, filterMap_append, filterMap_append, append_assoc]
    rfl
  have returns : ∃ x, s₃.log.filterMap Event.returned? = s.log.filterMap Event.returned? ++ [x] := by
    rw [log₃, log₂, log₁, filterMap_append, filterMap_append, append_assoc]
    exact ⟨_, rfl⟩
  obtain ⟨x, returns⟩ := returns
  refine ⟨s₃, reached₃, ?_, ?_, ?_, ?_, idle₃, ?_, ?_, ?_⟩
  · rw [top₃, top₁, cycled.top, word_word_add]
  · rw [same₃.bottom, same₂.bottom, bottom₁, cycled.bottom, word_word_add]
  · rw [seg, mask₁]
    exact cycled.mask
  · rw [same₃.owner, same₂.owner, owner₁]
  · rw [others₃ 1 (by decide), others₂ 1 (by decide), thieves₁]
    exact cycled.stalled
  · rw [pushes, count_append, cycled.pushed]
    rfl
  · rw [returns, count_append]
    exact Nat.le_add_right_of_le cycled.returned

theorem cycled (n : Nat) : ∃ s, Cycled (n + 1) s := by
  induction n with
  | zero => exact cycled_one
  | succ n ih =>
    obtain ⟨s, done⟩ := ih
    exact done.next

/-- Once the top has gone round, the waiting thief returns an item that was stolen before. -/
theorem stale_steal_returns_twice :
    ¬ ∀ (deque : Deque) (_ : deque.Built 0) (s : State Nat), Reached deque 0 s →
      ∃ contents, Delivers s contents := by
  intro claim
  obtain ⟨s, done⟩ := cycled (2 ^ 64 - 1)
  have round : s.top = 0 := by
    rw [done.top]
    decide
  obtain ⟨s', reached, _, _, log, _, _⟩ := claim_one done.reached done.stalled round
  obtain ⟨contents, delivers⟩ := claim (.fixed 1) ⟨by decide, by decide⟩ s' reached
  have counts := delivers.once.count_eq 5
  have pushes : s'.log.filterMap Event.pushed? = s.log.filterMap Event.pushed? := by
    rw [log, filterMap_append]
    exact append_nil _
  have returns : s'.log.filterMap Event.returned? = s.log.filterMap Event.returned? ++ [5] := by
    rw [log, filterMap_append]
    rfl
  have twice : ([5] : List Nat).count 5 = 1 := rfl
  have once := done.returned
  rw [pushes, returns, done.pushed, count_append, count_append, twice] at counts
  omega

end Micron.ChaseLev
