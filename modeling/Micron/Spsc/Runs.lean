import Micron.Spsc.Model

/-!
# Runs of a ring
-/

set_option autoImplicit false

namespace Micron.Spsc

open Micron.Lib List Nat

variable {α : Type} {queue : Queue} {N cap : Nat} {s : State α}

theorem inv_init (queue : Queue) (cap : Nat) (raw : Nat → α) : Inv queue cap (State.init raw) where
  window := ⟨prefix_refl _, zero_le _, fun _ _ _ here => (nomatch here), fun _ _ _ => rfl⟩
  tail := rfl
  head := rfl
  cachedHead := rfl
  cachedTail := rfl
  seenHead := le_refl _
  space := zero_le _
  retired := le_refl _
  seenTail := le_refl _
  ahead _ := le_refl _
  received := rfl
  producer := trivial
  consumer := trivial
  peeked _ _ member := nomatch member

structure Sized (N cap : Nat) : Prop where
  same : capacity N = cap
  large : cap ≤ 2 ^ 63
  mask : ∀ x i, index N (word x + i) = (x + i) % cap

theorem sized {N : Nat} (pos : 1 ≤ N) (small : N ≤ 2 ^ 63) : Sized N (capacity N) := by
  obtain ⟨k, bound, power, _⟩ := nextPow2_spec pos small
  have large : 2 ^ k ≤ 2 ^ 63 := Nat.pow_le_pow_right (by decide) bound
  refine ⟨rfl, (show nextPow2 N ≤ 2 ^ 63 from power ▸ large), ?_⟩
  intro x i
  rw [index, capacity, power, word_word_add, and_wordSub_one bound]

theorem inv_stepProducer (sized : Sized N cap) (inv : Inv queue cap s) :
    Inv queue cap (stepProducer N s) := by
  have ok := inv.producer
  unfold stepProducer
  split
  next => exact inv
  next item phase =>
    have view := inv.room_eq sized.large sized.same inv.tail
    rw [view]
    split
    next =>
      exact inv.goProducer (p := .loadHead _ _) ⟨trivial, inv.tail⟩
        (by simp only [State.written, phase])
    next free => exact inv.goProducer (copyOk_one inv.tail free) (by simp [State.written, phase])
  next items phase =>
    rw [phase] at ok
    have view := inv.room_eq sized.large sized.same inv.tail
    simp only [view]
    split
    · exact inv.goProducer (p := .loadHead _ _) ⟨ok, inv.tail⟩
        (by simp only [State.written, phase])
    · exact inv.goProducer (copyOk_batch inv inv.tail items) (by simp [State.written, phase])
  next item t phase =>
    rw [phase] at ok
    have fresh := inv.refreshHead phase
    have view := fresh.room_eq sized.large sized.same ok.2
    rw [view]
    split
    next full =>
      refine fresh.goProducer (p := .returned 1 0) ⟨zero_le _, fun _ => ?_⟩
        (by simp only [State.written, phase])
      exact le_antisymm fresh.space (Nat.le_of_sub_eq_zero full)
    next free => exact fresh.goProducer (copyOk_one ok.2 free) (by simp [State.written, phase])
  next items t phase =>
    rw [phase] at ok
    have fresh := inv.refreshHead phase
    have view := fresh.room_eq sized.large sized.same ok.2
    rw [view]
    exact fresh.goProducer (copyOk_batch fresh ok.2 items) (by simp [State.written, phase])
  next items asked t i phase =>
    split
    next item here => exact inv.write sized.mask phase here
    next last => exact inv.storeTail phase last
  next asked count phase => exact inv.goProducer trivial (by simp only [State.written, phase])

/-- The difference of the words is the number of values that wait. -/
theorem Inv.waiting (inv : Inv queue cap s) (large : cap ≤ 2 ^ 63) :
    wordSub s.tail (word s.retired) = s.accepted.length - s.retired := by
  have seen := inv.seenHead
  have space := inv.space
  have retired := inv.retired
  rw [inv.tail, wordSub_word (by omega) (by omega)]

theorem Inv.waitingSeen (inv : Inv .spsc cap s) (large : cap ≤ 2 ^ 63) :
    wordSub s.cachedTail s.head = s.seenTail - s.retired := by
  have seen := inv.seenHead
  have space := inv.space
  have ahead := inv.ahead rfl
  have seenTail := inv.seenTail
  rw [inv.cachedTail, inv.head, wordSub_word (by omega) (by omega)]

theorem shorten_le (avail count : Nat) : shorten avail count ≤ avail := by
  unfold shorten
  split <;> omega

theorem Inv.startCopy (inv : Inv queue cap s) {h count k : Nat} (cursor : h = word s.retired)
    (idle : s.consumer.progress = 0) (le : count ≤ k)
    (accepted : s.retired + k ≤ s.accepted.length)
    (seen : queue = .spsc → s.retired + k ≤ s.seenTail) :
    Inv queue cap { s with consumer := .copy count h 0 } := by
  refine inv.goConsumer ⟨cursor, zero_le _, by omega, ?_⟩ idle.symm
  intro spsc
  have := seen spsc
  omega

theorem Inv.lt_of_ne (inv : Inv queue cap s) (other : word s.retired ≠ s.tail) :
    s.retired < s.accepted.length := by
  refine lt_of_le_of_ne inv.retired ?_
  intro same
  exact other (by rw [inv.tail, same])

theorem inv_stepConsumer (sized : Sized N cap) (inv : Inv queue cap s) (left : α) :
    Inv queue cap (stepConsumer queue N s left) := by
  have ok := inv.consumer
  have retired := inv.retired
  have large := sized.large
  unfold stepConsumer
  split
  next => exact inv
  next phase =>
    have idle : s.consumer.progress = 0 := by rw [phase]; rfl
    cases queue with
    | spsc =>
      have seenTail := inv.seenTail
      have view := inv.waitingSeen large
      simp only [view]
      split
      · exact inv.goConsumer ⟨trivial, inv.head⟩ idle.symm
      · exact inv.startCopy (k := s.seenTail - s.retired) inv.head idle (by omega) (by omega)
          (fun _ => by omega)
    | disruptor => exact inv.goConsumer ⟨trivial, inv.head⟩ idle.symm
  next count phase =>
    have idle : s.consumer.progress = 0 := by rw [phase]; rfl
    rw [phase] at ok
    cases queue with
    | spsc =>
      have ahead := inv.ahead rfl
      have seenTail := inv.seenTail
      have view := inv.waitingSeen large
      simp only [view]
      split
      · exact inv.goConsumer ⟨ok, inv.head⟩ idle.symm
      · exact inv.startCopy inv.head idle (shorten_le _ _) (by omega) (fun _ => by omega)
    | disruptor => exact inv.goConsumer ⟨ok, inv.head⟩ idle.symm
  next phase =>
    have idle : s.consumer.progress = 0 := by rw [phase]; rfl
    exact inv.goConsumer ⟨trivial, inv.head⟩ idle.symm
  next h phase =>
    have idle : s.consumer.progress = 0 := by rw [phase]; rfl
    rw [phase] at ok
    cases queue with
    | spsc =>
      have fresh := inv.refreshTail phase
      have view := inv.waiting large
      simp only [ok.2, view]
      split
      · exact fresh.goConsumer trivial idle.symm
      · exact fresh.startCopy (k := s.accepted.length - s.retired) rfl idle (by omega)
          (by simp only; omega) (fun _ => by simp only; omega)
    | disruptor =>
      simp only [ok.2]
      split
      next => exact inv.goConsumer trivial idle.symm
      next other =>
        have less := inv.lt_of_ne other
        exact inv.startCopy (k := 1) rfl idle (le_refl _) less (fun spsc => nomatch spsc)
  next count h phase =>
    have idle : s.consumer.progress = 0 := by rw [phase]; rfl
    rw [phase] at ok
    have view := inv.waiting large
    simp only [ok.2, view]
    cases queue with
    | spsc =>
      have fresh := inv.refreshTail phase
      exact fresh.startCopy rfl idle (shorten_le _ _) (by simp only; omega)
        (fun _ => by simp only; omega)
    | disruptor =>
      exact inv.startCopy rfl idle (shorten_le _ _) (by omega) (fun spsc => nomatch spsc)
  next h phase =>
    have idle : s.consumer.progress = 0 := by rw [phase]; rfl
    rw [phase] at ok
    simp only [ok.2]
    split
    next => exact inv.goConsumer trivial idle.symm
    next other => exact inv.goConsumer ⟨rfl, inv.lt_of_ne other⟩ idle.symm
  next count h i phase =>
    split
    next more => exact inv.read sized.mask phase more left
    next last => exact inv.storeHead phase last
  next h phase => exact inv.look sized.mask phase

theorem inv_step (sized : Sized N cap) (inv : Inv queue cap s) (a : Action α)
    (allowed : a.Allowed s) : Inv queue cap (step queue N s a) := by
  cases a with
  | offer call =>
    refine inv.goProducer (p := .loadTail call) allowed.2 ?_
    simp only [State.written, allowed.1]
  | take call =>
    refine inv.goConsumer (c := .loadHead call) allowed.2 ?_
    rw [allowed.1]
    rfl
  | producer => exact inv_stepProducer sized inv
  | consumer left => exact inv_stepConsumer sized inv left

theorem inv_reached {raw : Nat → α} (sized : Sized N cap) (reached : Reached queue N raw s) :
    Inv queue cap s := by
  induction reached with
  | init => exact inv_init queue cap raw
  | step _ a allowed ih => exact inv_step sized ih a allowed

theorem Inv.inOrder (inv : Inv queue cap s) : s.received <+: s.accepted := by
  have bound : s.received.length ≤ s.accepted.length := by
    have received := inv.received
    have retired := inv.retired
    have ok := inv.consumer
    cases phase : s.consumer with
    | copy count h i =>
      rw [phase] at received ok
      obtain ⟨_, low, high, _⟩ := ok
      change s.received.length = s.retired + i at received
      omega
    | idle | loadHead take | loadTail take h | look h =>
      rw [phase] at received
      exact received ▸ retired
  exact prefix_of_prefix_length_le inv.window.taken (prefix_append _ _) bound

/-- The values taken out are the first that were accepted, in order, and the others are in
their slots.  A slot is written when its value was taken out and read when it has one,
`peek` returns the value that is next, and a call is shortened when the ring was full by
the producer's last view of the consumer's cursor. -/
theorem lossless_fifo (queue : Queue) (pos : 1 ≤ N) (small : N ≤ 2 ^ 63) (raw : Nat → α)
    (reached : Reached queue N raw s) :
    s.received <+: s.accepted ∧
    (∀ p v, s.received.length ≤ p → s.accepted[p]? = some v →
      s.slots (p % capacity N) = ⟨v, true⟩) ∧
    (∀ items asked t i item, s.producer = .copy items asked t i → items[i]? = some item →
      (s.slots (index N (t + i))).unread = false) ∧
    (∀ count h i, s.consumer = .copy count h i → i < count →
      (s.slots (index N (h + i))).unread = true) ∧
    (∀ h, s.consumer = .look h → (s.slots (index N h)).unread = true) ∧
    (∀ k v, (k, v) ∈ s.peeked → s.accepted[k]? = some v) ∧
    (∀ asked count, s.producer = .returned asked count →
      count ≤ asked ∧ (count < asked → s.accepted.length = s.seenHead + capacity N)) := by
  have size := sized pos small
  have inv := inv_reached size reached
  refine ⟨inv.inOrder, ?_, ?_, ?_, ?_, inv.peeked, ?_⟩
  · intro p v low here
    refine inv.window.held p v low ?_
    rw [State.written, List.getElem?_append_left (List.getElem?_eq_some_iff.mp here).1]
    exact here
  · intro items asked t i item phase here
    obtain ⟨position, space⟩ := inv.position size.mask phase here
    rw [position]
    exact inv.window.free _ (le_refl _) space
  · intro count h i phase more
    obtain ⟨position, filled⟩ := inv.positionRead size.mask phase more
    obtain ⟨v, _, holds⟩ := inv.front filled
    rw [position, holds]
  · intro h phase
    obtain ⟨position, filled⟩ := inv.positionLook size.mask phase
    obtain ⟨v, _, holds⟩ := inv.front filled
    rw [position, holds]
  · intro asked count phase
    have ok := inv.producer
    rw [phase] at ok
    exact ok

/-- A value goes through a ring of one slot, and the next is refused before. -/
def roundTrip : List (Action Nat) :=
  [.offer (.one 7), .producer, .producer, .producer, .producer,
    .offer (.one 8), .producer, .producer,
    .take .pop, .consumer 0, .consumer 0, .consumer 0, .consumer 0]

theorem lossless_fifo_roundTrip :
    ∃ s : State Nat, Reached .spsc 1 (fun _ => 0) s ∧
      (s.accepted, s.received) = ([7], [7]) ∧ s.received <+: s.accepted ∧
      s.producer = .returned 1 0 ∧ s.accepted.length = s.seenHead + capacity 1 := by
  have reached : Reached .spsc 1 (fun _ => 0)
      (roundTrip.foldl (step .spsc 1) (State.init (fun _ => 0))) := by
    simp only [roundTrip, foldl_cons, foldl_nil]
    iterate 4 refine .step ?_ (.consumer 0) trivial
    refine .step ?_ (.take .pop) ⟨rfl, trivial⟩
    iterate 2 refine .step ?_ .producer trivial
    refine .step ?_ (.offer (.one 8)) ⟨rfl, trivial⟩
    iterate 4 refine .step ?_ .producer trivial
    exact .step .init (.offer (.one 7)) ⟨rfl, trivial⟩
  have fifo := lossless_fifo .spsc (by decide) (by decide) (fun _ => 0) reached
  exact ⟨_, reached, rfl, fifo.1, rfl, (fifo.2.2.2.2.2.2 1 0 rfl).2 (by decide)⟩

end Micron.Spsc
