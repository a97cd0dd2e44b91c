import Mathlib.Data.List.Nodup
import Micron.Lib.Counter

/-!
# Multi-producer multi-consumer rings

`static_mpmc` and `crossbeam`: a ring of cells with a sequence number each, and two
counters that hand out the tickets of the producers and of the consumers.  A call reads
its counter, looks at the cell of the ticket, claims the ticket by a compare-exchange on
the counter, moves the value and then stores the sequence number that passes the cell on.

Each atomic access is one step, and so is each move of a value.  Counters, tickets and
sequence numbers are words.
-/

set_option autoImplicit false

namespace Micron.Mpmc

open Micron.Lib

inductive Queue where
  | staticMpmc (N : Nat)
  | crossbeam (N : Nat)

/-- The `requires` clause, for a size that is a word. -/
def Queue.Admits : Queue → Prop
  | .staticMpmc N => N < 2 ^ 64 ∧ 0 < N ∧ N &&& (N - 1) = 0
  | .crossbeam N => N < 2 ^ 64 ∧ 0 < N

instance : (queue : Queue) → Decidable queue.Admits
  | .staticMpmc _ => inferInstanceAs (Decidable (_ ∧ _ ∧ _))
  | .crossbeam _ => inferInstanceAs (Decidable (_ ∧ _))

def Queue.capacity : Queue → Nat
  | .staticMpmc N => N
  | .crossbeam N => nextPow2 N

def Queue.index (queue : Queue) (pos : Nat) : Nat := pos &&& wordSub queue.capacity 1

/-- `dif`: one queue subtracts words and reads the result as signed, the other subtracts
signed numbers. -/
def Queue.diff : Queue → Nat → Nat → Int
  | .staticMpmc _, seq, pos => ((wordSub seq pos : Nat) : Int).bmod (2 ^ 64)
  | .crossbeam _, seq, pos => (seq : Int).bmod (2 ^ 64) - (pos : Int).bmod (2 ^ 64)

/-- A cell with its sequence number, which ticket it serves, and whether its value was
written and not taken out since. -/
structure Cell (α : Type) where
  seq : Nat
  payload : α
  ticket : Nat
  unread : Bool

/-- Where a thread is in `push` or `pop`.  `pos` is the word that the call works with,
`since` how many tickets of its side were taken when it was read, and `ticket` the one the
call has claimed. -/
inductive Thread (α : Type) where
  | idle
  | loadTail (item : α)
  | loadSeqPush (item : α) (pos since : Nat)
  | claimPush (item : α) (pos since : Nat)
  | fill (item : α) (pos ticket : Nat)
  | publish (item : α) (pos ticket : Nat)
  | loadHead
  | loadSeqPop (pos since : Nat)
  | claimPop (pos since : Nat)
  | take (pos ticket : Nat)
  | reopen (pos ticket : Nat)

/-- A ring with its threads, and what happened so far: the values in the order of the
tickets of the pushes, how many tickets the pops took, the tickets of the pushes that
returned true, and the tickets of the pops with the values they moved out. -/
structure State (α : Type) where
  cells : Nat → Cell α
  tail : Nat
  head : Nat
  threads : Nat → Thread α
  tickets : List α
  taken : Nat
  returned : List Nat
  received : List (Nat × α)

section Steps
variable {α : Type}

def State.init (raw : Nat → α) : State α where
  cells i := ⟨i, raw i, i, false⟩
  tail := 0
  head := 0
  threads _ := .idle
  tickets := []
  taken := 0
  returned := []
  received := []

def State.go (s : State α) (i : Nat) (thread : Thread α) : State α :=
  { s with threads := Function.update s.threads i thread }

def State.setCell (s : State α) (k : Nat) (cell : Cell α) : State α :=
  { s with cells := Function.update s.cells k cell }

/-- Where a push goes on after its compare-exchange failed: in `static_mpmc` with the value
that the compare-exchange found. -/
def retryPush (queue : Queue) (s : State α) (item : α) : Thread α :=
  match queue with
  | .staticMpmc _ => .loadSeqPush item s.tail s.tickets.length
  | .crossbeam _ => .loadTail item

def retryPop (queue : Queue) (s : State α) : Thread α :=
  match queue with
  | .staticMpmc _ => .loadSeqPop s.head s.taken
  | .crossbeam _ => .loadHead

/-- The next step of thread `i`.  A weak compare-exchange may fail for no reason, and a value
that is moved out leaves its storage as the type of the elements has it. -/
def stepThread (queue : Queue) (s : State α) (i : Nat) (spurious : Bool) (left : α) : State α :=
  match s.threads i with
  | .idle => s
  | .loadTail item => s.go i (.loadSeqPush item s.tail s.tickets.length)
  | .loadSeqPush item pos since =>
    let dif := queue.diff (s.cells (queue.index pos)).seq pos
    if dif = 0 then s.go i (.claimPush item pos since)
    else if dif < 0 then s.go i .idle
    else s.go i (.loadTail item)
  | .claimPush item pos _ =>
    if s.tail = pos ∧ spurious = false then
      { s.go i (.fill item pos s.tickets.length) with
        tail := word (pos + 1), tickets := s.tickets ++ [item] }
    else s.go i (retryPush queue s item)
  | .fill item pos ticket =>
    let k := queue.index pos
    (s.setCell k { s.cells k with payload := item, unread := true }).go i
      (.publish item pos ticket)
  | .publish _ pos ticket =>
    let k := queue.index pos
    { (s.setCell k { s.cells k with seq := word (pos + 1) }).go i .idle with
      returned := s.returned ++ [ticket] }
  | .loadHead => s.go i (.loadSeqPop s.head s.taken)
  | .loadSeqPop pos since =>
    let dif := queue.diff (s.cells (queue.index pos)).seq (word (pos + 1))
    if dif = 0 then s.go i (.claimPop pos since)
    else if dif < 0 then s.go i .idle
    else s.go i .loadHead
  | .claimPop pos _ =>
    if s.head = pos ∧ spurious = false then
      { s.go i (.take pos s.taken) with head := word (pos + 1), taken := s.taken + 1 }
    else s.go i (retryPop queue s)
  | .take pos ticket =>
    let k := queue.index pos
    { (s.setCell k { s.cells k with payload := left, unread := false }).go i
        (.reopen pos ticket) with
      received := s.received ++ [(ticket, (s.cells k).payload)] }
  | .reopen pos ticket =>
    let k := queue.index pos
    (s.setCell k { s.cells k with
      seq := word (pos + queue.capacity), ticket := ticket + queue.capacity }).go i .idle

/-- A thread calls `push` or `pop`, or takes its next step. -/
inductive Action (α : Type) where
  | push (i : Nat) (item : α)
  | pop (i : Nat)
  | thread (i : Nat) (spurious : Bool) (left : α)

def step (queue : Queue) (s : State α) : Action α → State α
  | .push i item => s.go i (.loadTail item)
  | .pop i => s.go i .loadHead
  | .thread i spurious left => stepThread queue s i spurious left

def Action.Allowed (s : State α) : Action α → Prop
  | .push i _ | .pop i => s.threads i = .idle
  | .thread _ _ _ => True

/-- A compare-exchange comes before its counter has gone round since the call read it. -/
def Action.Timely (s : State α) : Action α → Prop
  | .thread i _ _ =>
    match s.threads i with
    | .claimPush _ _ since => s.tickets.length < since + 2 ^ 64
    | .claimPop _ since => s.taken < since + 2 ^ 64
    | _ => True
  | _ => True

instance Action.decideTimely (s : State α) : (a : Action α) → Decidable (a.Timely s)
  | .thread i _ _ =>
    match threads : s.threads i with
    | .claimPush _ _ since =>
      decidable_of_iff (s.tickets.length < since + 2 ^ 64) (by simp only [Timely, threads])
    | .claimPop _ since =>
      decidable_of_iff (s.taken < since + 2 ^ 64) (by simp only [Timely, threads])
    | .idle | .loadTail _ | .loadSeqPush _ _ _ | .fill _ _ _ | .publish _ _ _ | .loadHead
    | .loadSeqPop _ _ | .take _ _ | .reopen _ _ =>
      .isTrue (by simp only [Timely, threads])
  | .push _ _ | .pop _ => .isTrue trivial

inductive Reached (queue : Queue) (raw : Nat → α) : State α → Prop where
  | init : Reached queue raw (State.init raw)
  | step {s : State α} (before : Reached queue raw s) (a : Action α) (allowed : a.Allowed s) :
      Reached queue raw (step queue s a)

/-- The states of the runs in which each compare-exchange is timely. -/
inductive ReachedTimely (queue : Queue) (raw : Nat → α) : State α → Prop where
  | init : ReachedTimely queue raw (State.init raw)
  | step {s : State α} (before : ReachedTimely queue raw s) (a : Action α) (allowed : a.Allowed s)
      (timely : a.Timely s) : ReachedTimely queue raw (step queue s a)

end Steps

/-!
## Cells and tickets

A cell serves one ticket at a time.  Its sequence number is the ticket while the cell waits for
the value and one more once the value is there; the next ticket of the cell is a lap
later.  A thread that has claimed a ticket is the only one that may touch the cell.
-/

variable {α : Type}

/-- A cell of a ring that has handed out the tickets of `tickets` to pushes and the first
`taken` to pops. -/
structure CellOk (cap : Nat) (tickets : List α) (taken c : Nat) (cell : Cell α) : Prop where
  home : cell.ticket % cap = c
  ahead : tickets.length ≤ cell.ticket + cap
  behind : cell.ticket < taken + cap
  free : tickets.length ≤ cell.ticket → cell.seq = word cell.ticket ∧ cell.unread = false
  used : cell.ticket < tickets.length →
    (cell.seq = word cell.ticket ∧ taken ≤ cell.ticket) ∨ cell.seq = word (cell.ticket + 1)
  full : taken ≤ cell.ticket → cell.ticket < tickets.length →
    cell.seq = word (cell.ticket + 1) →
    cell.unread = true ∧ tickets[cell.ticket]? = some cell.payload

/-- The ticket that a thread has claimed and not finished with. -/
def Thread.owns : Thread α → Option Nat
  | .fill _ _ ticket | .publish _ _ ticket | .take _ ticket | .reopen _ ticket => some ticket
  | _ => none

/-- What a thread has found out or done.  What it found out about the next ticket holds
while no ticket is taken. -/
def ThreadOk (cap : Nat) (s : State α) : Thread α → Prop
  | .idle | .loadTail _ | .loadHead => True
  | .loadSeqPush _ pos since => pos = word since ∧ since ≤ s.tickets.length
  | .claimPush _ pos since =>
    pos = word since ∧ since ≤ s.tickets.length ∧
      (s.tickets.length = since → (s.cells (since % cap)).ticket = since)
  | .fill item pos t =>
    pos = word t ∧ t < s.tickets.length ∧ s.tickets[t]? = some item ∧
      (s.cells (t % cap)).ticket = t ∧ (s.cells (t % cap)).seq = word t ∧
      (s.cells (t % cap)).unread = false
  | .publish item pos t =>
    pos = word t ∧ t < s.tickets.length ∧ s.tickets[t]? = some item ∧
      (s.cells (t % cap)).ticket = t ∧ (s.cells (t % cap)).seq = word t ∧
      (s.cells (t % cap)).unread = true ∧ (s.cells (t % cap)).payload = item
  | .loadSeqPop pos since => pos = word since ∧ since ≤ s.taken
  | .claimPop pos since =>
    pos = word since ∧ since ≤ s.taken ∧
      (s.taken = since → since < s.tickets.length ∧ (s.cells (since % cap)).ticket = since ∧
        (s.cells (since % cap)).seq = word (since + 1))
  | .take pos t =>
    pos = word t ∧ t < s.taken ∧ (s.cells (t % cap)).ticket = t ∧
      (s.cells (t % cap)).seq = word (t + 1) ∧ (s.cells (t % cap)).unread = true ∧
      s.tickets[t]? = some (s.cells (t % cap)).payload ∧ t ∉ s.received.map Prod.fst
  | .reopen pos t =>
    pos = word t ∧ t < s.taken ∧ (s.cells (t % cap)).ticket = t ∧
      (s.cells (t % cap)).seq = word (t + 1) ∧ (s.cells (t % cap)).unread = false

structure Inv (cap : Nat) (s : State α) : Prop where
  tail : s.tail = word s.tickets.length
  head : s.head = word s.taken
  le : s.taken ≤ s.tickets.length
  cells : ∀ c, c < cap → CellOk cap s.tickets s.taken c (s.cells c)
  threads : ∀ i, ThreadOk cap s (s.threads i)
  alone : ∀ i j t, (s.threads i).owns = some t → (s.threads j).owns = some t → i = j
  received : ∀ t v, (t, v) ∈ s.received → t < s.taken ∧ s.tickets[t]? = some v
  once : (s.received.map Prod.fst).Nodup
  returned : ∀ t ∈ s.returned, t ∈ s.received.map Prod.fst ∨
    (s.cells (t % cap)).ticket = t ∧ (s.cells (t % cap)).seq = word (t + 1) ∧
      (s.cells (t % cap)).unread = true ∧ s.tickets[t]? = some (s.cells (t % cap)).payload

/-- The capacity of a queue that the claim is about. -/
structure Sized (queue : Queue) (cap : Nat) : Prop where
  same : queue.capacity = cap
  two : 2 ≤ cap
  large : cap ≤ 2 ^ 63
  index : ∀ x, queue.index (word x) = x % cap

theorem Sized.pos {queue : Queue} {cap : Nat} (sized : Sized queue cap) : 0 < cap :=
  lt_of_lt_of_le (by decide) sized.two

theorem sized {queue : Queue} (admits : queue.Admits) (two : 2 ≤ queue.capacity) :
    Sized queue queue.capacity := by
  have power : ∃ k, k ≤ 63 ∧ queue.capacity = 2 ^ k := by
    cases queue with
    | staticMpmc N =>
      obtain ⟨small, positive, single⟩ := admits
      obtain ⟨k, rfl⟩ := (Nat.and_sub_one_eq_zero_iff_isPowerOfTwo (by omega)).mp single
      have : k < 64 := (Nat.pow_lt_pow_iff_right (by decide)).mp small
      exact ⟨k, by omega, rfl⟩
    | crossbeam N =>
      obtain ⟨k, bound, power, _⟩ := nextPow2_eq admits.2 admits.1
      rcases eq_or_lt_of_le bound with top | below
      · subst top
        rw [Queue.capacity, power] at two
        exact absurd two (by decide)
      · refine ⟨k, by omega, ?_⟩
        rw [Queue.capacity, power]
        exact word_of_lt (Nat.pow_lt_pow_right (by decide) below)
  obtain ⟨k, bound, power⟩ := power
  refine ⟨rfl, two, ?_, ?_⟩
  · rw [power]
    exact Nat.pow_le_pow_right (by decide) bound
  · intro x
    rw [Queue.index, power, and_wordSub_one bound]

section Cell
variable {cap taken c : Nat} {tickets : List α} {cell : Cell α}

/-- With two cells or more no ticket of the lap before leaves the number of the next
ticket. -/
theorem CellOk.free_of_seq (ok : CellOk cap tickets taken c cell) (two : 2 ≤ cap)
    (large : cap ≤ 2 ^ 63) (le : taken ≤ tickets.length) (here : c = tickets.length % cap)
    (seq : cell.seq = word tickets.length) : cell.ticket = tickets.length := by
  have behind := ok.behind
  have ahead := ok.ahead
  rcases lt_or_ge cell.ticket tickets.length with used | free
  · rcases ok.used used with ⟨waits, _⟩ | filled
    · rw [waits] at seq
      exact word_inj (by omega) (by omega) seq
    · rw [filled] at seq
      have next := word_inj (by omega) (by omega) seq
      have lap : cell.ticket + cap = tickets.length := by
        refine le_antisymm ?_ ahead
        have same : cell.ticket % cap = tickets.length % cap := ok.home.trans here
        have := mod_inj (by omega) (by omega) same
        omega
      omega
  · exact mod_inj (by omega) (by omega) (ok.home.trans here)

theorem CellOk.full_of_seq (ok : CellOk cap tickets taken c cell) (two : 2 ≤ cap)
    (large : cap ≤ 2 ^ 63) (le : taken ≤ tickets.length) (here : c = taken % cap)
    (seq : cell.seq = word (taken + 1)) : cell.ticket = taken ∧ taken < tickets.length := by
  have behind := ok.behind
  have ahead := ok.ahead
  have ticket : cell.ticket ≤ taken := by
    by_contra more
    have := mod_inj (by omega) (by omega) (ok.home.trans here)
    omega
  rcases lt_or_ge cell.ticket tickets.length with used | free
  · rcases ok.used used with ⟨waits, _⟩ | filled
    · rw [waits] at seq
      omega
    · rw [filled] at seq
      have := word_inj (by omega) (by omega) seq
      omega
  · rw [(ok.free free).1] at seq
    have := word_inj (by omega) (by omega) seq
    omega

end Cell

end Micron.Mpmc
