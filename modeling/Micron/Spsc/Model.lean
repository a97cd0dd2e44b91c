import Mathlib.Data.List.Infix
import Micron.Lib.Counter

/-!
# Single-producer single-consumer rings

`spsc_queue` and `disruptor`: a ring of slots, a cursor of the producer and a cursor of
the consumer, both free running, and a copy of the consumer's cursor that the producer
looks at first.  The consumer of `spsc_queue` keeps such a copy too, the one of
`disruptor` reads the producer's cursor on each call.

Each atomic access and each copy of an element is one step.  What a call does between
two of them goes with the access before.  The slots are there: the size of the storage,
`capacity * sizeof(T)`, has not wrapped.
-/

set_option autoImplicit false

namespace Micron.Spsc

open Micron.Lib List Function

inductive Queue where
  | spsc
  | disruptor
  deriving DecidableEq

/-- A slot, and whether its value was written and not taken out since. -/
structure Slot (α : Type) where
  value : α
  unread : Bool

/-- What the producer is called with: `push`, `emplace` and `publish` take one item,
`push_batch` and `try_publish_batch` an array. -/
inductive Offer (α : Type) where
  | one (item : α)
  | batch (items : List α)

/-- What the consumer is called with: `pop` or `consume`, `pop_batch` or
`try_consume_batch`, and `peek`. -/
inductive Take where
  | pop
  | popBatch (count : Nat)
  | peek

inductive Producer (α : Type) where
  | idle
  | loadTail (offer : Offer α)
  | loadHead (offer : Offer α) (t : Nat)
  | copy (items : List α) (asked t i : Nat)
  | returned (asked count : Nat)

inductive Consumer where
  | idle
  | loadHead (take : Take)
  | loadTail (take : Take) (h : Nat)
  | copy (count h i : Nat)
  | look (h : Nat)

/-- A ring with its two parties, and what happened so far: the values accepted, the values
taken out, how many slots the consumer gave back, how many it had given back when the
producer last read its cursor, how many values were accepted when the consumer last
stored its copy of the producer's cursor, and what `peek` returned, with the number of
values taken out before. -/
structure State (α : Type) where
  slots : Nat → Slot α
  head : Nat
  tail : Nat
  cachedHead : Nat
  cachedTail : Nat
  producer : Producer α
  consumer : Consumer
  accepted : List α
  received : List α
  retired : Nat
  seenHead : Nat
  seenTail : Nat
  peeked : List (Nat × α)

section Steps
variable {α : Type}

/-- The storage is not initialised. -/
def State.init (raw : Nat → α) : State α where
  slots i := ⟨raw i, false⟩
  head := 0
  tail := 0
  cachedHead := 0
  cachedTail := 0
  producer := .idle
  consumer := .idle
  accepted := []
  received := []
  retired := 0
  seenHead := 0
  seenTail := 0
  peeked := []

def State.setSlot (s : State α) (k : Nat) (slot : Slot α) : State α :=
  { s with slots := update s.slots k slot }

def capacity (N : Nat) : Nat := nextPow2 N

def index (N x : Nat) : Nat := word x &&& wordSub (capacity N) 1

def room (N t cached : Nat) : Nat := wordSub (capacity N) (wordSub t cached)

def shorten (avail count : Nat) : Nat := if avail < count then avail else count

def stepProducer (N : Nat) (s : State α) : State α :=
  match s.producer with
  | .idle => s
  | .loadTail (.one item) =>
    if room N s.tail s.cachedHead = 0 then { s with producer := .loadHead (.one item) s.tail }
    else { s with producer := .copy [item] 1 s.tail 0 }
  | .loadTail (.batch items) =>
    let avail := room N s.tail s.cachedHead
    if avail < items.length then { s with producer := .loadHead (.batch items) s.tail }
    else
      { s with
        producer := .copy (items.take (shorten avail items.length)) items.length s.tail 0 }
  | .loadHead (.one item) t =>
    let s' := { s with cachedHead := s.head, seenHead := s.retired }
    if room N t s.head = 0 then { s' with producer := .returned 1 0 }
    else { s' with producer := .copy [item] 1 t 0 }
  | .loadHead (.batch items) t =>
    let avail := room N t s.head
    { s with
      cachedHead := s.head, seenHead := s.retired
      producer := .copy (items.take (shorten avail items.length)) items.length t 0 }
  | .copy items asked t i =>
    match items[i]? with
    | some item =>
      { s.setSlot (index N (t + i)) ⟨item, true⟩ with producer := .copy items asked t (i + 1) }
    | none =>
      { s with
        tail := word (t + items.length), accepted := s.accepted ++ items
        producer := .returned asked items.length }
  | .returned _ _ => { s with producer := .idle }

/-- The next step of the consumer.  A slot that was taken out is left with what the
type of the elements makes of it: the value itself, a default or nothing. -/
def stepConsumer (queue : Queue) (N : Nat) (s : State α) (left : α) : State α :=
  match s.consumer with
  | .idle => s
  | .loadHead .pop =>
    match queue with
    | .spsc =>
      if wordSub s.cachedTail s.head = 0 then { s with consumer := .loadTail .pop s.head }
      else { s with consumer := .copy 1 s.head 0 }
    | .disruptor => { s with consumer := .loadTail .pop s.head }
  | .loadHead (.popBatch count) =>
    match queue with
    | .spsc =>
      let avail := wordSub s.cachedTail s.head
      if avail < count then { s with consumer := .loadTail (.popBatch count) s.head }
      else { s with consumer := .copy (shorten avail count) s.head 0 }
    | .disruptor => { s with consumer := .loadTail (.popBatch count) s.head }
  | .loadHead .peek => { s with consumer := .loadTail .peek s.head }
  | .loadTail .pop h =>
    match queue with
    | .spsc =>
      let s' := { s with cachedTail := s.tail, seenTail := s.accepted.length }
      if wordSub s.tail h = 0 then { s' with consumer := .idle }
      else { s' with consumer := .copy 1 h 0 }
    | .disruptor =>
      if h = s.tail then { s with consumer := .idle } else { s with consumer := .copy 1 h 0 }
  | .loadTail (.popBatch count) h =>
    let consumer := .copy (shorten (wordSub s.tail h) count) h 0
    match queue with
    | .spsc =>
      { s with cachedTail := s.tail, seenTail := s.accepted.length, consumer := consumer }
    | .disruptor => { s with consumer := consumer }
  | .loadTail .peek h =>
    if h = s.tail then { s with consumer := .idle } else { s with consumer := .look h }
  | .copy count h i =>
    if i < count then
      let slot := index N (h + i)
      { s.setSlot slot ⟨left, false⟩ with
        received := s.received ++ [(s.slots slot).value], consumer := .copy count h (i + 1) }
    else
      { s with head := word (h + count), retired := s.retired + count, consumer := .idle }
  | .look h =>
    { s with
      peeked := s.peeked ++ [(s.received.length, (s.slots (index N h)).value)]
      consumer := .idle }

inductive Action (α : Type) where
  | offer (call : Offer α)
  | take (call : Take)
  | producer
  | consumer (left : α)

def step (queue : Queue) (N : Nat) (s : State α) : Action α → State α
  | .offer call => { s with producer := .loadTail call }
  | .take call => { s with consumer := .loadHead call }
  | .producer => stepProducer N s
  | .consumer left => stepConsumer queue N s left

/-- Counts are words. -/
def Offer.Fits : Offer α → Prop
  | .one _ => True
  | .batch items => items.length < 2 ^ 64

def Take.Fits : Take → Prop
  | .popBatch count => count < 2 ^ 64
  | .pop | .peek => True

def Action.Allowed (s : State α) : Action α → Prop
  | .offer call => s.producer = .idle ∧ call.Fits
  | .take call => s.consumer = .idle ∧ call.Fits
  | .producer | .consumer _ => True

/-- The states of the runs that start with an empty ring. -/
inductive Reached (queue : Queue) (N : Nat) (raw : Nat → α) : State α → Prop where
  | init : Reached queue N raw (State.init raw)
  | step {s : State α} (before : Reached queue N raw s) (a : Action α) (allowed : a.Allowed s) :
      Reached queue N raw (step queue N s a)

end Steps

/-!
## The window of a ring

The ring holds the values that were written and not taken out, each in the slot of its
position, and every other slot is free.  The cursors are the residues of the positions,
and what a party remembers of the other's cursor is behind it.
-/

variable {α : Type}

/-- The values from the first that was not taken out to the last that was written are in
their slots. -/
structure Window (cap : Nat) (slots : Nat → Slot α) (received written : List α) : Prop where
  taken : received <+: written
  room : written.length ≤ received.length + cap
  held : ∀ p v, received.length ≤ p → written[p]? = some v → slots (p % cap) = ⟨v, true⟩
  free : ∀ p, written.length ≤ p → p < received.length + cap → (slots (p % cap)).unread = false

section Window
variable {cap : Nat} {slots : Nat → Slot α} {received written : List α}

theorem Window.write (window : Window cap slots received written)
    (space : written.length < received.length + cap) (item : α) :
    Window cap (update slots (written.length % cap) ⟨item, true⟩) received
      (written ++ [item]) where
  taken := window.taken.trans (prefix_append _ _)
  room := by
    rw [length_append, length_singleton]
    exact space
  held p v low here := by
    rcases lt_trichotomy p written.length with before | last | after
    · rw [getElem?_append_left before] at here
      have other : p % cap ≠ written.length % cap := by
        intro same
        have := mod_inj (by omega) (by omega) same
        omega
      rw [update_of_ne other]
      exact window.held p v low here
    · subst last
      rw [getElem?_concat_length] at here
      rw [update_self, Option.some.inj here]
    · have outside : (written ++ [item])[p]? = none := by
        rw [getElem?_eq_none_iff, length_append, length_singleton]
        omega
      rw [outside] at here
      exact nomatch here
  free p low high := by
    rw [length_append, length_singleton] at low
    have behind := window.taken.length_le
    have other : p % cap ≠ written.length % cap := by
      intro same
      have := mod_inj (by omega) (by omega) same
      omega
    rw [update_of_ne other]
    exact window.free p (by omega) high

theorem Window.next (window : Window cap slots received written)
    (filled : received.length < written.length) :
    ∃ v, written[received.length]? = some v ∧ slots (received.length % cap) = ⟨v, true⟩ ∧
      received ++ [v] <+: written := by
  obtain ⟨rest, rfl⟩ := window.taken
  cases rest with
  | nil => simp at filled
  | cons v rest =>
    have here : (received ++ v :: rest)[received.length]? = some v := by simp
    refine ⟨v, here, window.held _ v (le_refl _) here, rest, ?_⟩
    rw [append_assoc, singleton_append]

theorem Window.read (window : Window cap slots received written)
    (filled : received.length < written.length) (left : α) :
    Window cap (update slots (received.length % cap) ⟨left, false⟩)
      (received ++ [(slots (received.length % cap)).value]) written := by
  obtain ⟨v, _, holds, taken⟩ := window.next filled
  rw [holds]
  have room := window.room
  have separate : ∀ p, received.length < p → p < received.length + cap →
      p % cap ≠ received.length % cap := by
    intro p low high same
    have := mod_inj (by omega) (by omega) same
    omega
  refine ⟨taken, ?_, ?_, ?_⟩
  · rw [length_append, length_singleton]
    omega
  · intro p v low here
    rw [length_append, length_singleton] at low
    have inside := (List.getElem?_eq_some_iff.mp here).1
    rw [update_of_ne (separate p (by omega) (by omega))]
    exact window.held p v (by omega) here
  · intro p low high
    rw [length_append, length_singleton] at high
    rcases eq_or_lt_of_le (Nat.le_of_lt_succ (Nat.lt_of_lt_of_eq high
      (by omega : received.length + 1 + cap = received.length + cap + 1))) with last | before
    · rw [last, Nat.add_mod_right, update_self]
    · rw [update_of_ne (separate p (by omega) before)]
      exact window.free p low before

end Window

/-- The values that are in slots or were: the accepted ones and those of a call under
way. -/
def State.written (s : State α) : List α :=
  s.accepted ++ match s.producer with
    | .copy items _ _ i => items.take i
    | _ => []

/-- How many values the consumer has copied in a call under way. -/
def Consumer.progress : Consumer → Nat
  | .copy _ _ i => i
  | _ => 0

/-- A call that was shortened left no free slot that the producer knew of. -/
def ProducerOk (cap : Nat) (s : State α) : Producer α → Prop
  | .idle => True
  | .loadTail offer => offer.Fits
  | .loadHead offer t => offer.Fits ∧ t = word s.accepted.length
  | .copy items asked t i =>
    t = word s.accepted.length ∧ i ≤ items.length ∧ items.length ≤ asked ∧
      s.accepted.length + items.length ≤ s.seenHead + cap ∧
      (items.length < asked → s.accepted.length + items.length = s.seenHead + cap)
  | .returned asked count =>
    count ≤ asked ∧ (count < asked → s.accepted.length = s.seenHead + cap)

def ConsumerOk (queue : Queue) (s : State α) : Consumer → Prop
  | .idle => True
  | .loadHead take => take.Fits
  | .loadTail take h => take.Fits ∧ h = word s.retired
  | .copy count h i =>
    h = word s.retired ∧ i ≤ count ∧ s.retired + count ≤ s.accepted.length ∧
      (queue = .spsc → s.retired + count ≤ s.seenTail)
  | .look h => h = word s.retired ∧ s.retired < s.accepted.length

structure Inv (queue : Queue) (cap : Nat) (s : State α) : Prop where
  window : Window cap s.slots s.received s.written
  tail : s.tail = word s.accepted.length
  head : s.head = word s.retired
  cachedHead : s.cachedHead = word s.seenHead
  cachedTail : s.cachedTail = word s.seenTail
  seenHead : s.seenHead ≤ s.retired
  space : s.accepted.length ≤ s.seenHead + cap
  retired : s.retired ≤ s.accepted.length
  seenTail : s.seenTail ≤ s.accepted.length
  ahead : queue = .spsc → s.retired ≤ s.seenTail
  received : s.received.length = s.retired + s.consumer.progress
  producer : ProducerOk cap s s.producer
  consumer : ConsumerOk queue s s.consumer
  peeked : ∀ k v, (k, v) ∈ s.peeked → s.accepted[k]? = some v

section Producer
variable {queue : Queue} {N cap : Nat} {s : State α}

theorem Inv.goProducer (inv : Inv queue cap s) {p : Producer α} (ok : ProducerOk cap s p)
    (same : State.written { s with producer := p } = s.written) :
    Inv queue cap { s with producer := p } :=
  { inv with window := same ▸ inv.window, producer := ok }

theorem Inv.refreshHead (inv : Inv queue cap s) {offer : Offer α} {t : Nat}
    (phase : s.producer = .loadHead offer t) :
    Inv queue cap { s with cachedHead := s.head, seenHead := s.retired } := by
  refine { inv with
    cachedHead := inv.head, seenHead := le_refl _
    space := le_trans inv.space (Nat.add_le_add_right inv.seenHead _), producer := ?_ }
  have ok := inv.producer
  rw [phase] at ok ⊢
  exact ok

/-- The difference of the words is the number of slots that are free for all the
producer knows. -/
theorem Inv.room_eq (inv : Inv queue cap s) (large : cap ≤ 2 ^ 63) (same : capacity N = cap)
    {t : Nat} (cursor : t = word s.accepted.length) :
    room N t s.cachedHead = s.seenHead + cap - s.accepted.length := by
  have seen := inv.seenHead
  have space := inv.space
  have retired := inv.retired
  rw [cursor, room, same, inv.cachedHead, wordSub_word (by omega) (by omega),
    wordSub_of_le (by omega) (by omega)]
  omega

theorem copyOk_one {item : α} {t : Nat} (cursor : t = word s.accepted.length)
    (room : s.seenHead + cap - s.accepted.length ≠ 0) :
    ProducerOk cap s (.copy [item] 1 t 0) := by
  have free : s.accepted.length + 1 ≤ s.seenHead + cap := by omega
  exact ⟨cursor, Nat.zero_le _, le_refl _, free, fun short => absurd short (lt_irrefl _)⟩

theorem copyOk_batch (inv : Inv queue cap s) {t : Nat} (cursor : t = word s.accepted.length)
    (items : List α) :
    ProducerOk cap s (.copy
      (items.take (shorten (s.seenHead + cap - s.accepted.length) items.length)) items.length
      t 0) := by
  have space := inv.space
  unfold shorten
  refine ⟨cursor, Nat.zero_le _, ?_, ?_, ?_⟩
  all_goals
    rw [length_take]
    split <;> omega

theorem Inv.position (inv : Inv queue cap s) (mask : ∀ x i, index N (word x + i) = (x + i) % cap)
    {items : List α} {item : α} {asked t i : Nat} (phase : s.producer = .copy items asked t i)
    (here : items[i]? = some item) :
    index N (t + i) = s.written.length % cap ∧ s.written.length < s.received.length + cap := by
  have ok := inv.producer
  rw [phase] at ok
  obtain ⟨cursor, _, _, fits, _⟩ := ok
  have inside := (List.getElem?_eq_some_iff.mp here).1
  have written : s.written.length = s.accepted.length + i := by
    simp only [State.written, phase, List.length_append, List.length_take]
    omega
  have received := inv.received
  have seen := inv.seenHead
  refine ⟨?_, by omega⟩
  rw [written, cursor]
  exact mask _ _

theorem Inv.write (inv : Inv queue cap s) (mask : ∀ x i, index N (word x + i) = (x + i) % cap) {items : List α}
    {item : α} {asked t i : Nat} (phase : s.producer = .copy items asked t i)
    (here : items[i]? = some item) :
    Inv queue cap { s.setSlot (index N (t + i)) ⟨item, true⟩ with
      producer := .copy items asked t (i + 1) } := by
  obtain ⟨position, space⟩ := inv.position mask phase here
  have ok := inv.producer
  rw [phase] at ok
  obtain ⟨cursor, low, short, fits, full⟩ := ok
  have inside := (List.getElem?_eq_some_iff.mp here).1
  have grown : State.written { s.setSlot (index N (t + i)) ⟨item, true⟩ with
      producer := .copy items asked t (i + 1) } = s.written ++ [item] := by
    simp only [State.written, phase, State.setSlot, List.take_add_one, here, Option.toList_some,
      List.append_assoc]
  refine { inv with window := ?_, producer := ⟨cursor, inside, short, fits, full⟩ }
  rw [grown]
  rw [position]
  exact inv.window.write space item

theorem Inv.storeTail (inv : Inv queue cap s) {items : List α} {asked t i : Nat}
    (phase : s.producer = .copy items asked t i) (last : items[i]? = none) :
    Inv queue cap { s with
      tail := word (t + items.length), accepted := s.accepted ++ items
      producer := .returned asked items.length } := by
  have ok := inv.producer
  rw [phase] at ok
  obtain ⟨cursor, low, short, fits, full⟩ := ok
  have all : i = items.length := by
    have := getElem?_eq_none_iff.mp last
    omega
  have written : s.written = s.accepted ++ items := by
    simp only [State.written, phase, all, take_length]
  have longer : s.accepted.length ≤ (s.accepted ++ items).length := by simp
  refine {
    window := ?_
    tail := ?_
    head := inv.head
    cachedHead := inv.cachedHead
    cachedTail := inv.cachedTail
    seenHead := inv.seenHead
    space := ?_
    retired := le_trans inv.retired longer
    seenTail := le_trans inv.seenTail longer
    ahead := inv.ahead
    received := inv.received
    producer := ⟨short, ?_⟩
    consumer := ?_
    peeked := ?_ }
  · have window := inv.window
    rw [written] at window
    simpa [State.written] using window
  · rw [cursor, word_word_add, length_append]
  · rw [length_append]
    exact fits
  · rw [length_append]
    exact full
  · have ok := inv.consumer
    cases consumer : s.consumer with
    | idle => trivial
    | loadHead take => rwa [consumer] at ok
    | loadTail take h => rwa [consumer] at ok
    | copy count h i =>
      rw [consumer] at ok
      exact ⟨ok.1, ok.2.1, le_trans ok.2.2.1 longer, ok.2.2.2⟩
    | look h =>
      rw [consumer] at ok
      exact ⟨ok.1, lt_of_lt_of_le ok.2 longer⟩
  · intro k v member
    have here := inv.peeked k v member
    rw [List.getElem?_append_left (List.getElem?_eq_some_iff.mp here).1]
    exact here

end Producer

/-! ## Steps of the consumer -/

section Consumer
variable {queue : Queue} {N cap : Nat} {s : State α}

theorem Inv.goConsumer (inv : Inv queue cap s) {c : Consumer} (ok : ConsumerOk queue s c)
    (same : c.progress = s.consumer.progress) : Inv queue cap { s with consumer := c } :=
  { inv with received := same ▸ inv.received, consumer := ok }

/-- The consumer of `spsc_queue` reads the producer's cursor. -/
theorem Inv.refreshTail (inv : Inv queue cap s) {take : Take} {h : Nat}
    (phase : s.consumer = .loadTail take h) :
    Inv queue cap { s with cachedTail := s.tail, seenTail := s.accepted.length } := by
  refine { inv with
    cachedTail := inv.tail, seenTail := le_refl _, ahead := fun _ => inv.retired
    consumer := ?_ }
  have ok := inv.consumer
  rw [phase] at ok ⊢
  exact ok

theorem Inv.front (inv : Inv queue cap s) (filled : s.received.length < s.accepted.length) :
    ∃ v, s.accepted[s.received.length]? = some v ∧
      s.slots (s.received.length % cap) = ⟨v, true⟩ := by
  have longer : s.accepted.length ≤ s.written.length := by simp [State.written]
  obtain ⟨v, here, holds, _⟩ := inv.window.next (by omega)
  refine ⟨v, ?_, holds⟩
  rw [State.written, getElem?_append_left filled] at here
  exact here

/-- Copying out reads the position after the last that was taken out. -/
theorem Inv.positionRead (inv : Inv queue cap s)
    (mask : ∀ x i, index N (word x + i) = (x + i) % cap) {count h i : Nat}
    (phase : s.consumer = .copy count h i) (more : i < count) :
    index N (h + i) = s.received.length % cap ∧ s.received.length < s.accepted.length := by
  have received := inv.received
  have ok := inv.consumer
  rw [phase] at ok received
  obtain ⟨cursor, low, bound, seen⟩ := ok
  change s.received.length = s.retired + i at received
  refine ⟨?_, by omega⟩
  rw [cursor, received]
  exact mask _ _

theorem Inv.positionLook (inv : Inv queue cap s)
    (mask : ∀ x i, index N (word x + i) = (x + i) % cap) {h : Nat}
    (phase : s.consumer = .look h) :
    index N h = s.received.length % cap ∧ s.received.length < s.accepted.length := by
  have received := inv.received
  have ok := inv.consumer
  rw [phase] at ok received
  refine ⟨?_, received ▸ ok.2⟩
  rw [ok.1, received]
  exact mask _ 0

theorem Inv.read (inv : Inv queue cap s) (mask : ∀ x i, index N (word x + i) = (x + i) % cap) {count h i : Nat}
    (phase : s.consumer = .copy count h i) (more : i < count) (left : α) :
    Inv queue cap { s.setSlot (index N (h + i)) ⟨left, false⟩ with
      received := s.received ++ [(s.slots (index N (h + i))).value]
      consumer := .copy count h (i + 1) } := by
  obtain ⟨position, filled⟩ := inv.positionRead mask phase more
  have received := inv.received
  have ok := inv.consumer
  rw [phase] at ok received
  obtain ⟨cursor, low, bound, seen⟩ := ok
  have longer : s.accepted.length ≤ s.written.length := by simp [State.written]
  refine { inv with window := ?_, received := ?_, consumer := ⟨cursor, more, bound, seen⟩ }
  · rw [position]
    exact inv.window.read (by omega) left
  · change (s.received ++ [_]).length = s.retired + (i + 1)
    rw [length_append, length_singleton, received]
    rfl

theorem Inv.storeHead (inv : Inv queue cap s) {count h i : Nat}
    (phase : s.consumer = .copy count h i) (last : ¬ i < count) :
    Inv queue cap { s with
      head := word (h + count), retired := s.retired + count, consumer := .idle } := by
  have received := inv.received
  have ok := inv.consumer
  rw [phase] at ok received
  obtain ⟨cursor, low, bound, seen⟩ := ok
  have all : i = count := by omega
  refine { inv with
    head := ?_
    seenHead := le_trans inv.seenHead (Nat.le_add_right _ _)
    retired := bound
    ahead := seen
    received := ?_
    consumer := trivial }
  · rw [cursor, word_word_add]
  · rw [received, all]
    rfl

theorem Inv.look (inv : Inv queue cap s) (mask : ∀ x i, index N (word x + i) = (x + i) % cap) {h : Nat}
    (phase : s.consumer = .look h) :
    Inv queue cap { s with
      peeked := s.peeked ++ [(s.received.length, (s.slots (index N h)).value)]
      consumer := .idle } := by
  obtain ⟨position, filled⟩ := inv.positionLook mask phase
  obtain ⟨v, here, holds⟩ := inv.front filled
  have received := inv.received
  rw [phase] at received
  refine { inv with received := received, consumer := trivial, peeked := ?_ }
  intro k w member
  rcases mem_append.mp member with old | new
  · exact inv.peeked k w old
  · cases mem_singleton.mp new
    rw [position, holds, here]

end Consumer

end Micron.Spsc
