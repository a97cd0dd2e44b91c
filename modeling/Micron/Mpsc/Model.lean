import Mathlib.Algebra.Order.Ring.Nat
import Micron.Lib.Whereabouts

/-!
# Remote frees

A bounded ring that many producers push blocks into and one owner drains, and a list
for the blocks that found the ring full, linked through the blocks themselves.  A
producer takes a ticket, fills the cell of the ticket and then publishes it through
the sequence number of the cell.

Each atomic access is one step of the party that makes it; a plain access to a cell
is a step of its own, one to memory that nobody else can reach goes with the atomic
access next to it.  Counters are words.
-/

set_option autoImplicit false

namespace Micron.Mpsc

open Function

def usize (x : Nat) : Nat := x % 2 ^ 64

/-- `static_cast<long long>(a) - static_cast<long long>(b)`. -/
def signedDiff (a b : Nat) : Int := (a : Int).bmod (2 ^ 64) - (b : Int).bmod (2 ^ 64)

abbrev Item := Nat × Nat

structure Cell where
  seq : Nat
  payload : Item

structure OvfNode where
  next : Option Nat
  sz : Nat

inductive Producer where
  | idle
  | loadTail (item : Item)
  | loadSeq (item : Item) (tail : Nat)
  | claim (item : Item) (tail : Nat)
  | fill (item : Item) (tail : Nat)
  | publish (item : Item) (tail : Nat)
  | loadOvf (item : Item)
  | link (item : Item) (head : Option Nat)
  deriving DecidableEq

def Producer.item? : Producer → Option Item
  | .idle => none
  | .loadTail item | .loadSeq item _ | .claim item _ | .fill item _ | .publish item _
  | .loadOvf item | .link item _ => some item

inductive Owner where
  | idle
  | poll
  | take
  | retire (item : Item)
  | checkOvf
  | swapOvf
  | walk (nd : Option Nat)

/-- The queue and its parties, and what happened so far: the items in the order of
their tickets, all pushes, all releases and those of the ring, and the size of each
block that was pushed and is not released. -/
structure State where
  cells : Nat → Cell
  tail : Nat
  head : Nat
  ovf : Option Nat
  nodes : Nat → OvfNode
  producers : Nat → Producer
  owner : Owner
  tickets : List Item
  pushed : List Item
  released : List Item
  fromRing : List Item
  pending : Nat → Option Nat

def State.init : State where
  cells i := ⟨i, (0, 0)⟩
  tail := 0
  head := 0
  ovf := none
  nodes _ := ⟨none, 0⟩
  producers _ := .idle
  owner := .idle
  tickets := []
  pushed := []
  released := []
  fromRing := []
  pending _ := none

namespace State

def go (s : State) (i : Nat) (p : Producer) : State :=
  { s with producers := update s.producers i p }

def setCell (s : State) (k : Nat) (c : Cell) : State :=
  { s with cells := update s.cells k c }

def setNode (s : State) (p : Nat) (nd : OvfNode) : State :=
  { s with nodes := update s.nodes p nd }

/-- The owner hands a block to the release function. -/
def release (s : State) (item : Item) : State :=
  { s with released := s.released ++ [item], pending := update s.pending item.1 none }

end State

/-- The next step of producer `i`.  A weak compare-exchange may fail for no reason. -/
def stepProducer (N : Nat) (s : State) (i : Nat) (spurious : Bool) : State :=
  match s.producers i with
  | .idle => s
  | .loadTail item => s.go i (.loadSeq item s.tail)
  | .loadSeq item tail =>
    let diff := signedDiff (s.cells (tail % N)).seq tail
    if diff = 0 then s.go i (.claim item tail)
    else if diff < 0 then s.go i (.loadOvf item)
    else s.go i (.loadTail item)
  | .claim item tail =>
    if s.tail = tail ∧ spurious = false then
      { s.go i (.fill item tail) with tail := usize (tail + 1), tickets := s.tickets ++ [item] }
    else s.go i (.loadTail item)
  | .fill item tail =>
    (s.setCell (tail % N) { s.cells (tail % N) with payload := item }).go i (.publish item tail)
  | .publish _ tail =>
    (s.setCell (tail % N) { s.cells (tail % N) with seq := usize (tail + 1) }).go i .idle
  | .loadOvf item =>
    (s.setNode item.1 { s.nodes item.1 with sz := item.2 }).go i (.link item s.ovf)
  | .link item head =>
    let s' := s.setNode item.1 { s.nodes item.1 with next := head }
    if s.ovf = head ∧ spurious = false then { s'.go i .idle with ovf := some item.1 }
    else s'.go i (.link item s.ovf)

/-- The next step of the owner.  A block is released in the step that gives its cell back:
what the owner does between the two is to release it, and no producer sees that. -/
def stepOwner (N : Nat) (s : State) : State :=
  match s.owner with
  | .idle => { s with owner := .poll }
  | .poll =>
    if signedDiff (s.cells (s.head % N)).seq (usize (s.head + 1)) = 0 then { s with owner := .take }
    else { s with owner := .checkOvf }
  | .take => { s with owner := .retire (s.cells (s.head % N)).payload }
  | .retire item =>
    let s' := s.setCell (s.head % N) { s.cells (s.head % N) with seq := usize (s.head + N) }
    { s'.release item with
      head := usize (s.head + 1), fromRing := s.fromRing ++ [item], owner := .poll }
  | .checkOvf => { s with owner := if s.ovf.isSome then .swapOvf else .idle }
  | .swapOvf => { s with owner := .walk s.ovf, ovf := none }
  | .walk none => { s with owner := .idle }
  | .walk (some nd) =>
    { s.release (nd, (s.nodes nd).sz) with owner := .walk (s.nodes nd).next }

/-- A producer starts to push a block, a party takes its next step, or a block that is
not pushed is written to by whoever holds it. -/
inductive Action where
  | push (i : Nat) (item : Item)
  | producer (i : Nat) (spurious : Bool)
  | owner
  | write (p : Nat) (nd : OvfNode)

def step (N : Nat) (s : State) : Action → State
  | .push i item =>
    { s.go i (.loadTail item) with
      pushed := s.pushed ++ [item], pending := update s.pending item.1 (some item.2) }
  | .producer i spurious => stepProducer N s i spurious
  | .owner => stepOwner N s
  | .write p nd => s.setNode p nd

/-- A producer pushes one block at a time, and a block is pushed by one that holds it:
not before it was released from an earlier push. -/
def Action.Allowed (s : State) : Action → Prop
  | .push i item => s.producers i = .idle ∧ s.pending item.1 = none
  | .producer _ _ | .owner => True
  | .write p _ => s.pending p = none

instance (s : State) : (a : Action) → Decidable (a.Allowed s)
  | .push _ _ => inferInstanceAs (Decidable (_ ∧ _))
  | .producer _ _ => inferInstanceAs (Decidable True)
  | .owner => inferInstanceAs (Decidable True)
  | .write _ _ => inferInstanceAs (Decidable (_ = _))

/-- The states of the runs in which the counters do not come round. -/
inductive Reached (N : Nat) : State → Prop where
  | init : Reached N State.init
  | step {s : State} (before : Reached N s) (small : s.tickets.length + N < 2 ^ 63) (a : Action)
      (allowed : a.Allowed s) : Reached N (step N s a)

def run (N : Nat) (s : State) : List Action → State
  | [] => s
  | a :: rest => run N (step N s a) rest

/-- Each action of a run is allowed where it is taken. -/
def Runs (N : Nat) (s : State) : List Action → Prop
  | [] => True
  | a :: rest => (s.tickets.length + N < 2 ^ 63 ∧ a.Allowed s) ∧ Runs N (step N s a) rest

instance Runs.decide (N : Nat) (s : State) : (actions : List Action) → Decidable (Runs N s actions)
  | [] => inferInstanceAs (Decidable True)
  | a :: rest =>
    have := Runs.decide N (step N s a) rest
    inferInstanceAs (Decidable (_ ∧ _))

theorem reached_run {N : Nat} {s : State} {actions : List Action} (reached : Reached N s)
    (runs : Runs N s actions) : Reached N (run N s actions) := by
  induction actions generalizing s with
  | nil => exact reached
  | cons a rest ih =>
    obtain ⟨⟨small, allowed⟩, more⟩ := runs
    exact ih (.step reached small a allowed) more

/-!
## What holds between steps

The cells of the tickets from `head` up to `head + N` are all different, so that the
sequence number of each says who may touch it: the ticket itself while it is to be
filled, one more once it is filled.  Each block that was pushed and is not released
is in one place: with its producer, in the ring under a ticket, or in the overflow
list, which includes the part that the owner has detached.
-/

open Micron.Lib

def Linked (nodes : Nat → OvfNode) : Option Nat → List Nat → Prop
  | none, [] => True
  | some p, q :: rest => p = q ∧ Linked nodes (nodes p).next rest
  | none, _ :: _ => False
  | some _, [] => False

theorem Linked.congr {nodes nodes' : Nat → OvfNode} {p : Option Nat} {l : List Nat}
    (linked : Linked nodes p l) (same : ∀ q ∈ l, nodes' q = nodes q) : Linked nodes' p l := by
  induction l generalizing p with
  | nil =>
    cases p with
    | none => trivial
    | some p => exact linked
  | cons q rest ih =>
    cases p with
    | none => exact linked
    | some p =>
      obtain ⟨rfl, more⟩ := linked
      refine ⟨rfl, ?_⟩
      rw [same p List.mem_cons_self]
      exact ih more fun r inside => same r (List.mem_cons_of_mem p inside)

/-- The cell of a ticket is filled and not yet drained. -/
def Filled (N : Nat) (s : State) (t : Nat) (item : Item) : Prop :=
  s.head ≤ t ∧ t < s.tail ∧ s.tickets[t]? = some item ∧ (s.cells (t % N)).seq = t + 1

inductive Place where
  | producer (i : Nat)
  | ring (t : Nat)
  | list

/-- Which place has a block, where `blocks` are those of the overflow list. -/
def At (N : Nat) (s : State) (blocks : List Nat) : Place → Item → Prop
  | .producer i, item => (s.producers i).item? = some item
  | .ring t, item => Filled N s t item
  | .list, item => item.1 ∈ blocks ∧ (s.nodes item.1).sz = item.2

def ProducerOk (N : Nat) (s : State) : Producer → Prop
  | .idle | .loadTail _ | .loadOvf _ => True
  | .loadSeq _ t => t ≤ s.tail
  | .claim _ t => t ≤ s.tail ∧ (s.tail = t → t < s.head + N)
  | .fill item t =>
    s.head ≤ t ∧ t < s.tail ∧ s.tickets[t]? = some item ∧ (s.cells (t % N)).seq = t
  | .publish item t =>
    s.head ≤ t ∧ t < s.tail ∧ s.tickets[t]? = some item ∧ (s.cells (t % N)).seq = t ∧
      (s.cells (t % N)).payload = item
  | .link item _ => (s.nodes item.1).sz = item.2

/-- What the owner has found out or done; `detached` is what it has still to release. -/
def OwnerOk (N : Nat) (s : State) (detached : List Nat) : Owner → Prop
  | .idle | .poll | .checkOvf | .swapOvf => detached = []
  | .take => detached = [] ∧ s.head < s.tail ∧ (s.cells (s.head % N)).seq = s.head + 1
  | .retire item =>
    detached = [] ∧ s.head < s.tail ∧ (s.cells (s.head % N)).seq = s.head + 1 ∧
      (s.cells (s.head % N)).payload = item
  | .walk nd => Linked s.nodes nd detached

/-- The ring, with counters that have not come round. -/
structure RingOk (N : Nat) (cells : Nat → Cell) (tail head : Nat) (tickets fromRing : List Item) :
    Prop where
  counted : tail = tickets.length
  le : head ≤ tail
  room : tail ≤ head + N
  order : fromRing = tickets.take head
  used : ∀ t, head ≤ t → t < tail → (cells (t % N)).seq = t ∨
    (cells (t % N)).seq = t + 1 ∧ tickets[t]? = some (cells (t % N)).payload
  free : ∀ t, tail ≤ t → t < head + N → (cells (t % N)).seq = t

structure Inv (N : Nat) (s : State) (listed detached : List Nat) : Prop where
  ring : RingOk N s.cells s.tail s.head s.tickets s.fromRing
  producers : ∀ i, ProducerOk N s (s.producers i)
  owner : OwnerOk N s detached s.owner
  linked : Linked s.nodes s.ovf listed
  nodup : (listed ++ detached).Nodup
  places : Whereabouts (At N s (listed ++ detached)) s.pending
  counted : ∀ item : Item, s.pushed.count item =
    s.released.count item + if s.pending item.1 = some item.2 then 1 else 0

/-- Tickets less than a lap apart have different cells. -/
theorem eq_of_mod_eq {N a t t' : Nat} (low : a ≤ t) (high : t < a + N) (low' : a ≤ t')
    (high' : t' < a + N) (same : t % N = t' % N) : t = t' := by
  have split := Nat.div_add_mod t N
  have split' := Nat.div_add_mod t' N
  rcases lt_trichotomy (t / N) (t' / N) with less | equal | less
  · have lap : N * (t / N + 1) ≤ N * (t' / N) := Nat.mul_le_mul_left N less
    rw [mul_add] at lap
    omega
  · rw [equal] at split
    omega
  · have lap : N * (t' / N + 1) ≤ N * (t / N) := Nat.mul_le_mul_left N less
    rw [mul_add] at lap
    omega

end Micron.Mpsc
