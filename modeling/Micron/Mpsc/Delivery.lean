import Micron.Mpsc.Overflow

/-!
# Delivery

Every step keeps the invariant as long as the ring has two cells or more and its
counters have not come round, and with it each block that was pushed is released once.
A ring of one cell cannot tell a filled cell from one that is free for the next ticket.
-/

set_option autoImplicit false

namespace Micron.Mpsc

open Micron.Lib List Nat

variable {N : Nat} {s : State} {listed detached : List Nat}

theorem stepProducer_inv (inv : Inv N s listed detached) (two : 2 ≤ N)
    (small : s.tickets.length + N < 2 ^ 63) (i : Nat) (spurious : Bool) :
    ∃ listed', Inv N (stepProducer N s i spurious) listed' detached := by
  have tail := inv.ring.counted
  have ok := inv.producers i
  unfold stepProducer
  cases phase : s.producers i with
  | idle => exact ⟨listed, inv⟩
  | loadTail item =>
    refine ⟨listed, inv.go i ?_ (le_refl _)⟩
    rw [phase]
    rfl
  | loadSeq item t =>
    rw [phase] at ok
    dsimp only
    refine ⟨listed, ?_⟩
    split
    · rename_i same
      refine inv.go i (by rw [phase]; rfl) ⟨ok, ?_⟩
      intro isTail
      rw [← isTail] at same ⊢
      exact inv.ring.free_of_seq two (by omega) same
    · split
      · exact inv.go i (by rw [phase]; rfl) trivial
      · exact inv.go i (by rw [phase]; rfl) trivial
  | claim item t =>
    dsimp only
    split
    · rename_i success
      exact ⟨listed, inv.claim phase success.1 (by omega)⟩
    · exact ⟨listed, inv.go i (by rw [phase]; rfl) trivial⟩
  | fill item t => exact ⟨listed, inv.fill phase⟩
  | publish item t =>
    rw [phase] at ok
    have below := ok.2.1
    exact ⟨listed, inv.publish phase (by omega)⟩
  | loadOvf item => exact ⟨listed, inv.loadOvf phase⟩
  | link item head =>
    have written := inv.setNext phase
    have phase' : (s.setNode item.1 { s.nodes item.1 with next := head }).producers i =
      .link item head := phase
    dsimp only
    split
    · rename_i success
      refine ⟨_, written.link phase' ?_⟩
      change (Function.update s.nodes item.1 _ item.1).next = s.ovf
      rw [Function.update_self, success.1]
    · refine ⟨listed, written.go i ?_ ?_⟩
      · rw [phase']
        rfl
      · have kept := written.producers i
        rw [phase'] at kept
        exact kept

theorem stepOwner_inv (inv : Inv N s listed detached) (two : 2 ≤ N)
    (small : s.tickets.length + N < 2 ^ 63) :
    ∃ listed' detached', Inv N (stepOwner N s) listed' detached' := by
  have tail := inv.ring.counted
  have le := inv.ring.le
  have ok := inv.owner
  cases phase : s.owner with
  | idle =>
    unfold stepOwner
    rw [phase] at ok ⊢
    exact ⟨listed, detached, inv.own rfl ok⟩
  | poll =>
    unfold stepOwner
    rw [phase] at ok ⊢
    dsimp only
    refine ⟨listed, detached, ?_⟩
    split
    · rename_i same
      rw [usize_of_lt (by omega)] at same
      exact inv.own rfl ⟨ok, inv.ring.head_lt_of_seq two (by omega) same⟩
    · exact inv.own rfl ok
  | take =>
    unfold stepOwner
    rw [phase] at ok ⊢
    exact ⟨listed, detached, inv.own rfl ⟨ok.1, ok.2.1, ok.2.2, rfl⟩⟩
  | retire item => exact ⟨listed, detached, inv.retire phase (by omega)⟩
  | checkOvf =>
    unfold stepOwner
    rw [phase] at ok ⊢
    refine ⟨listed, detached, inv.own rfl ?_⟩
    split
    · exact ok
    · exact ok
  | swapOvf =>
    unfold stepOwner
    rw [phase]
    exact ⟨[], listed, inv.swapOvf phase⟩
  | walk nd =>
    cases nd with
    | none =>
      unfold stepOwner
      rw [phase] at ok ⊢
      refine ⟨listed, detached, inv.own rfl ?_⟩
      cases detached with
      | nil => rfl
      | cons first rest => exact ok.elim
    | some nd =>
      obtain ⟨rest, after⟩ := inv.walk phase
      exact ⟨listed, rest, after⟩

theorem step_inv (inv : Inv N s listed detached) (two : 2 ≤ N)
    (small : s.tickets.length + N < 2 ^ 63) (a : Action) (allowed : a.Allowed s) :
    ∃ listed' detached', Inv N (step N s a) listed' detached' := by
  cases a with
  | push i item => exact ⟨listed, detached, inv.push allowed.1 allowed.2⟩
  | producer i spurious =>
    obtain ⟨listed', after⟩ := stepProducer_inv inv two small i spurious
    exact ⟨listed', detached, after⟩
  | owner => exact stepOwner_inv inv two small
  | write p nd => exact ⟨listed, detached, inv.write allowed nd⟩

theorem step_tickets_le (N : Nat) (s : State) (a : Action) :
    (step N s a).tickets.length ≤ s.tickets.length + 1 := by
  have same : ∀ s' : State, s'.tickets = s.tickets → s'.tickets.length ≤ s.tickets.length + 1 := by
    intro s' equal
    rw [equal]
    exact le_succ _
  cases a with
  | push i item => exact same _ rfl
  | write p nd => exact same _ rfl
  | producer i spurious =>
    change (stepProducer N s i spurious).tickets.length ≤ _
    unfold stepProducer
    cases s.producers i with
    | idle | loadTail _ | fill _ _ | publish _ _ | loadOvf _ => exact same _ rfl
    | loadSeq item t =>
      dsimp only
      split
      · exact same _ rfl
      · split
        · exact same _ rfl
        · exact same _ rfl
    | claim item t =>
      dsimp only
      split
      · exact le_of_eq (length_append ..)
      · exact same _ rfl
    | link item head =>
      dsimp only
      split
      · exact same _ rfl
      · exact same _ rfl
  | owner =>
    change (stepOwner N s).tickets.length ≤ _
    unfold stepOwner
    cases s.owner with
    | idle | take | retire _ | checkOvf | swapOvf => exact same _ rfl
    | poll =>
      dsimp only
      split
      · exact same _ rfl
      · exact same _ rfl
    | walk nd =>
      cases nd with
      | none => exact same _ rfl
      | some nd => exact same _ rfl

theorem reached_small (two : 2 ≤ N) (reached : Reached N s) : s.tickets.length < 2 ^ 63 := by
  cases reached with
  | init => decide
  | @step before _ small a allowed =>
    have := step_tickets_le N before a
    omega

theorem init_inv (N : Nat) : Inv N State.init [] [] where
  ring := by
    refine ⟨rfl, le_refl _, zero_le _, rfl, ?_, ?_⟩
    · intro t _ high
      exact absurd high (not_lt_zero t)
    · intro t _ high
      exact mod_eq_of_lt (by simpa [State.init] using high)
  producers i := trivial
  owner := rfl
  linked := trivial
  nodup := nodup_nil
  places := by
    refine ⟨?_, ?_, fun key value known => nomatch known⟩
    · intro place item at_
      cases place with
      | producer i => exact nomatch at_
      | ring t => exact absurd at_.2.1 (not_lt_zero t)
      | list => exact absurd at_.1 not_mem_nil
    · intro place place' item item' at_
      cases place with
      | producer i => exact nomatch at_
      | ring t => exact absurd at_.2.1 (not_lt_zero t)
      | list => exact absurd at_.1 not_mem_nil
  counted item := rfl

theorem reached_inv (two : 2 ≤ N) (reached : Reached N s) :
    ∃ listed detached, Inv N s listed detached := by
  induction reached with
  | init => exact ⟨[], [], init_inv N⟩
  | step before small a allowed ih =>
    obtain ⟨listed, detached, inv⟩ := ih
    exact step_inv inv two small a allowed

/-- An item is in the ring: its ticket is not drained and its cell is published. -/
def InRing (N : Nat) (s : State) (item : Item) : Prop :=
  ∃ t, s.fromRing.length ≤ t ∧ s.tickets[t]? = some item ∧
    (s.cells (t % N)).seq = usize (t + 1) ∧ (s.cells (t % N)).payload = item

inductive OnList (nodes : Nat → OvfNode) : Option Nat → Nat → Prop where
  | here (p : Nat) : OnList nodes (some p) p
  | next {p q : Nat} (rest : OnList nodes (nodes p).next q) : OnList nodes (some p) q

/-- An item is in the overflow list, or in the part of it that a drain has detached. -/
def InOvf (s : State) (item : Item) : Prop :=
  (s.nodes item.1).sz = item.2 ∧
    (OnList s.nodes s.ovf item.1 ∨ ∃ nd, s.owner = .walk nd ∧ OnList s.nodes nd item.1)

/-- Every item is released at most as often as it was pushed, one that is not released
and no longer with a producer is in the ring or in the list, and the ring delivers in the
order of the tickets. -/
structure Delivered (N : Nat) (s : State) : Prop where
  once : ∀ item, s.released.count item ≤ s.pushed.count item
  kept : ∀ item, s.released.count item < s.pushed.count item →
    (∀ i, (s.producers i).item? ≠ some item) → InRing N s item ∨ InOvf s item
  order : s.fromRing <+: s.tickets

theorem Linked.onList {nodes : Nat → OvfNode} {p : Option Nat} {l : List Nat} {q : Nat}
    (linked : Linked nodes p l) (inside : q ∈ l) : OnList nodes p q := by
  induction l generalizing p with
  | nil => exact absurd inside not_mem_nil
  | cons first rest ih =>
    cases p with
    | none => exact linked.elim
    | some p =>
      obtain ⟨rfl, more⟩ := linked
      rcases mem_cons.mp inside with rfl | inside
      · exact .here q
      · exact .next (ih more inside)

theorem Inv.onDetached (inv : Inv N s listed detached) {q : Nat} (inside : q ∈ detached) :
    ∃ nd, s.owner = .walk nd ∧ OnList s.nodes nd q := by
  have ok := inv.owner
  cases phase : s.owner with
  | idle | poll | checkOvf | swapOvf =>
    rw [phase] at ok
    rw [show detached = [] from ok] at inside
    exact absurd inside not_mem_nil
  | take | retire _ =>
    rw [phase] at ok
    rw [ok.1] at inside
    exact absurd inside not_mem_nil
  | walk nd =>
    rw [phase] at ok
    exact ⟨nd, rfl, Linked.onList ok inside⟩

theorem Inv.delivered (inv : Inv N s listed detached) (small : s.tickets.length < 2 ^ 63) :
    Delivered N s where
  once item := by
    rw [inv.counted item]
    exact le_add_right _ _
  kept := by
    intro item notReleased noProducer
    have isPending : s.pending item.1 = some item.2 := by
      by_contra gone
      rw [inv.counted item, if_neg gone] at notReleased
      omega
    obtain ⟨place, at_⟩ := inv.places.found item.1 item.2 isPending
    cases place with
    | producer i => exact absurd at_ (noProducer i)
    | ring t =>
      obtain ⟨low, high, ticket, mark⟩ := at_
      have drained : s.fromRing.length ≤ s.head := by
        rw [inv.ring.order]
        exact length_take_le _ _
      have tail := inv.ring.counted
      refine .inl ⟨t, by omega, ticket, ?_, ?_⟩
      · rw [mark, usize_of_lt (by omega)]
      · rcases inv.ring.used t low high with empty | ⟨_, payload⟩
        · omega
        · rw [ticket] at payload
          exact (Option.some.inj payload).symm
    | list =>
      obtain ⟨inside, size⟩ := at_
      refine .inr ⟨size, ?_⟩
      rcases mem_append.mp inside with inside | inside
      · exact .inl (inv.linked.onList inside)
      · exact .inr (inv.onDetached inside)
  order := by
    rw [inv.ring.order]
    exact take_prefix _ _

/-- In a ring of two cells or more, as long as its counters have not come round, for every
interleaving of the producers and the owner. -/
theorem remote_frees_delivered_once (N : Nat) (two : 2 ≤ N) (s : State) (reached : Reached N s) :
    Delivered N s := by
  obtain ⟨listed, detached, inv⟩ := reached_inv two reached
  exact inv.delivered (reached_small two reached)

/-- Two producers fill the ring while the owner looks at it, a third goes to the overflow list,
and after the drain a block of the first is pushed once more. -/
def pushAndDrain : List Action :=
  .push 0 (1, 10) :: .push 1 (2, 20) :: [0, 1, 0, 1, 1, 0, 0, 0, 0].map (.producer · false) ++
    .owner :: .owner :: [1, 0, 1, 0].map (.producer · false) ++
    .push 2 (3, 30) :: List.replicate 4 (.producer 2 false) ++ List.replicate 14 .owner ++
    .push 0 (1, 11) :: List.replicate 5 (.producer 0 false) ++ List.replicate 4 .owner

theorem remote_frees_delivered_once_pushAndDrain :
    (run 2 .init pushAndDrain).released = [(3, 30), (2, 20), (1, 10), (1, 11)] ∧
      Delivered 2 (run 2 .init pushAndDrain) :=
  ⟨by decide +kernel,
    remote_frees_delivered_once 2 (by decide) _ (reached_run .init (by decide +kernel))⟩

def twoPushes : List Action :=
  [.push 0 (1, 10), .producer 0 false, .producer 0 false, .producer 0 false, .producer 0 false,
    .producer 0 false, .push 0 (2, 20), .producer 0 false, .producer 0 false, .producer 0 false,
    .producer 0 false, .producer 0 false]

/-- With one cell the second push overwrites the first, which is lost. -/
theorem remote_frees_lost :
    ¬ ∀ k s, Reached (2 ^ k) s → Delivered (2 ^ k) s := by
  intro all
  have reached : Reached (2 ^ 0) (run 1 .init twoPushes) := reached_run .init (by decide +kernel)
  have delivered := all 0 _ reached
  have lost : (run 1 .init twoPushes).released.count (1, 10) <
      (run 1 .init twoPushes).pushed.count (1, 10) := by decide +kernel
  have noProducer : ∀ i, ((run 1 .init twoPushes).producers i).item? ≠ some (1, 10) := by
    intro i
    cases i with
    | zero => decide +kernel
    | succ i => exact nofun
  rcases delivered.kept (1, 10) lost noProducer with ⟨t, _, ticket, mark, _⟩ | ⟨_, list | ⟨nd, walk, _⟩⟩
  · have tickets : (run 1 .init twoPushes).tickets = [(1, 10), (2, 20)] := by decide +kernel
    have first : t = 0 := by
      rcases t with _ | _ | t
      · rfl
      · exact absurd ticket (by decide)
      · exact nomatch ticket
    rw [first] at mark
    exact absurd mark (by decide)
  · have ovf : (run 1 .init twoPushes).ovf = none := by decide +kernel
    exact nomatch list
  · exact nomatch walk

end Micron.Mpsc
