import Micron.Mpmc.Model

/-!
# One thread on a ring

`static_mpmc` and `crossbeam` in the hands of one caller.  A call is the whole loop of
`push` or `pop`: as nobody else writes, the counter that a turn reads again is the one it
had.  A weak compare-exchange may still fail for no reason, any number of times.

Whether a ring is full or empty shows in the sign of the difference between a sequence
number and a counter alone.  With one cell "written" and "free for the next lap" are the
same number; with two cells or more they differ, and the ring is a queue of its capacity.
-/

set_option autoImplicit false

namespace Micron.Mpmc

open Micron.Lib List Function

structure Storage (α : Type) where
  seqs : Nat → Nat
  memory : Nat → α
  tail : Nat
  head : Nat

section Calls
variable {α : Type}

def Storage.init (raw : Nat → α) : Storage α where
  seqs i := i
  memory := raw
  tail := 0
  head := 0

/-- The loop of `push`, for as many turns as are left.  `fails` is how often the
compare-exchange fails before it takes the ticket. -/
def Storage.push (queue : Queue) (s : Storage α) (item : α) : Nat → Nat → Option (Bool × Storage α)
  | 0, _ => none
  | turns + 1, fails =>
    let idx := queue.index s.tail
    let dif := queue.diff (s.seqs idx) s.tail
    if dif = 0 then
      match fails with
      | 0 => some (true, { s with
          tail := word (s.tail + 1)
          memory := update s.memory idx item
          seqs := update s.seqs idx (word (s.tail + 1)) })
      | fails + 1 => s.push queue item turns fails
    else if dif < 0 then some (false, s)
    else s.push queue item turns fails

/-- The loop of `pop`.  A value that is moved out leaves `left` in its storage. -/
def Storage.pop (queue : Queue) (s : Storage α) (left : α) :
    Nat → Nat → Option (Option α × Storage α)
  | 0, _ => none
  | turns + 1, fails =>
    let idx := queue.index s.head
    let dif := queue.diff (s.seqs idx) (word (s.head + 1))
    if dif = 0 then
      match fails with
      | 0 => some (some (s.memory idx), { s with
          head := word (s.head + 1)
          memory := update s.memory idx left
          seqs := update s.seqs idx (word (s.head + queue.capacity)) })
      | fails + 1 => s.pop queue left turns fails
    else if dif < 0 then some (none, s)
    else s.pop queue left turns fails

inductive Call (α : Type) where
  | push (item : α) (fails : Nat)
  | pop (left : α) (fails : Nat)

/-- What a call returns; a `pop` that returns false moves nothing out. -/
inductive Answer (α : Type) where
  | pushed (done : Bool)
  | popped (out : Option α)
  deriving DecidableEq

def Storage.call (queue : Queue) (turns : Nat) (s : Storage α) :
    Call α → Option (Answer α × Storage α)
  | .push item fails => (s.push queue item turns fails).map fun r => (.pushed r.1, r.2)
  | .pop left fails => (s.pop queue left turns fails).map fun r => (.popped r.1, r.2)

def Storage.calls (queue : Queue) (turns : Nat) :
    List (Call α) → Storage α → Option (List (Answer α))
  | [], _ => some []
  | call :: rest, s =>
    match s.call queue turns call with
    | none => none
    | some (answer, next) => (next.calls queue turns rest).map (answer :: ·)

/-- A first-in first-out queue of `cap` values. -/
def fifoCall (cap : Nat) (stored : List α) : Call α → Answer α × List α
  | .push item _ =>
    if stored.length = cap then (.pushed false, stored) else (.pushed true, stored ++ [item])
  | .pop _ _ =>
    match stored with
    | [] => (.popped none, [])
    | first :: others => (.popped (some first), others)

def fifoCalls (cap : Nat) : List (Call α) → List α → List (Answer α)
  | [], _ => []
  | call :: rest, stored =>
    (fifoCall cap stored call).1 :: fifoCalls cap rest (fifoCall cap stored call).2

/-- The subtraction of the sequence number and the position does not overflow.  Where it is
one of unsigned words it cannot. -/
def Queue.Exact : Queue → Nat → Nat → Prop
  | .staticMpmc _, _, _ => True
  | .crossbeam _, seq, pos =>
    -(2 ^ 63) ≤ (seq : Int).bmod (2 ^ 64) - (pos : Int).bmod (2 ^ 64) ∧
      (seq : Int).bmod (2 ^ 64) - (pos : Int).bmod (2 ^ 64) < 2 ^ 63

instance : (queue : Queue) → (seq pos : Nat) → Decidable (queue.Exact seq pos)
  | .staticMpmc _, _, _ => inferInstanceAs (Decidable True)
  | .crossbeam _, _, _ => inferInstanceAs (Decidable (_ ∧ _))

/-- The difference that a call forms first is exact. -/
def Storage.Exact (queue : Queue) (s : Storage α) : Call α → Prop
  | .push _ _ => queue.Exact (s.seqs (queue.index s.tail)) s.tail
  | .pop _ _ => queue.Exact (s.seqs (queue.index s.head)) (word (s.head + 1))

def Storage.ExactCalls (queue : Queue) : List (Call α) → Storage α → Prop
  | [], _ => True
  | call :: rest, s =>
    s.Exact queue call ∧
      ∀ turns answer next, s.call queue turns call = some (answer, next) →
        next.ExactCalls queue rest

/-- A word read as signed is the same number but for laps. -/
theorem bmod_facts (x : Int) :
    x.bmod (2 ^ 64) % 18446744073709551616 = x % 18446744073709551616 ∧
      -9223372036854775808 ≤ x.bmod (2 ^ 64) ∧ x.bmod (2 ^ 64) < 9223372036854775808 := by
  have low := Int.le_bmod (x := x) (m := 2 ^ 64) (by decide)
  have high := Int.bmod_lt (x := x) (m := 2 ^ 64) (by decide)
  have same : x.bmod (2 ^ 64) % ((2 ^ 64 : Nat) : Int) = x % ((2 ^ 64 : Nat) : Int) :=
    Int.bmod_emod
  generalize x.bmod (2 ^ 64) = signed at *
  omega

theorem Queue.diff_word (queue : Queue) {a b : Nat} (exact : queue.Exact (word a) (word b))
    (near : b ≤ a + 2 ^ 63) (near' : a < b + 2 ^ 63) :
    queue.diff (word a) (word b) = (a : Int) - b := by
  have first : ((word a : Nat) : Int) = (a : Int) % 18446744073709551616 := by
    rw [word]
    omega
  have second : ((word b : Nat) : Int) = (b : Int) % 18446744073709551616 := by
    rw [word]
    omega
  cases queue with
  | staticMpmc N =>
    have sub : ((wordSub (word a) (word b) : Nat) : Int) % 18446744073709551616 =
        ((a : Int) - b) % 18446744073709551616 := by
      rw [wordSub, word]
      omega
    have facts := bmod_facts (wordSub (word a) (word b) : Nat)
    dsimp only [Queue.diff]
    generalize Int.bmod _ _ = signed at *
    omega
  | crossbeam N =>
    have facts := bmod_facts (word a : Nat)
    have facts' := bmod_facts (word b : Nat)
    obtain ⟨low, high⟩ := exact
    dsimp only [Queue.diff] at low high ⊢
    generalize Int.bmod ((word a : Nat) : Int) _ = signed at *
    generalize Int.bmod ((word b : Nat) : Int) _ = signed' at *
    omega

/-- The ring stores `stored`, the first of which has ticket `first`. -/
structure Stores (cap first : Nat) (stored : List α) (s : Storage α) : Prop where
  tail : s.tail = word (first + stored.length)
  head : s.head = word first
  room : stored.length ≤ cap
  written : ∀ k, k < stored.length → s.seqs ((first + k) % cap) = word (first + k + 1) ∧
    stored[k]? = some (s.memory ((first + k) % cap))
  free : ∀ k, stored.length ≤ k → k < cap → s.seqs ((first + k) % cap) = word (first + k)

theorem stores_init {queue : Queue} {cap : Nat} (sized : Sized queue cap) (raw : Nat → α) :
    Stores cap 0 [] (Storage.init raw) where
  tail := rfl
  head := rfl
  room := Nat.zero_le _
  written k below := absurd below (Nat.not_lt_zero k)
  free k _ below := by
    have large := sized.large
    rw [Nat.zero_add, Nat.mod_eq_of_lt below, word_of_lt (by omega)]
    rfl

section Steps
variable {queue : Queue} {cap first : Nat} {stored : List α} {s : Storage α}

theorem apart_cell (first : Nat) {cap i j : Nat} (below : i < cap) (below' : j < cap)
    (differ : i ≠ j) : (first + i) % cap ≠ (first + j) % cap := by
  intro same
  have := mod_inj (by omega) (by omega) same
  omega

theorem Stores.push_diff (holds : Stores cap first stored s) (sized : Sized queue cap)
    (exact : queue.Exact (s.seqs (queue.index s.tail)) s.tail) :
    queue.diff (s.seqs (queue.index s.tail)) s.tail =
      if stored.length = cap then 1 - (cap : Int) else 0 := by
  have two := sized.two
  have large := sized.large
  rw [holds.tail, sized.index] at exact ⊢
  split
  · next full =>
    have cell := (holds.written 0 (by omega)).1
    rw [full, Nat.add_mod_right] at exact ⊢
    rw [add_zero] at cell
    rw [cell] at exact ⊢
    rw [queue.diff_word exact (by omega) (by omega)]
    omega
  · next room =>
    have cell := holds.free stored.length (le_refl _)
      (lt_of_le_of_ne holds.room room)
    rw [cell] at exact ⊢
    rw [queue.diff_word exact (by omega) (by omega), sub_self]

theorem Stores.pop_diff (holds : Stores cap first stored s) (sized : Sized queue cap)
    (exact : queue.Exact (s.seqs (queue.index s.head)) (word (s.head + 1))) :
    queue.diff (s.seqs (queue.index s.head)) (word (s.head + 1)) =
      if stored = [] then -1 else 0 := by
  have two := sized.two
  rw [holds.head, sized.index, word_word_add] at exact ⊢
  split
  · next empty =>
    have cell := holds.free 0 (by rw [empty]; exact le_refl 0) (by omega)
    rw [add_zero] at cell
    rw [cell] at exact ⊢
    rw [queue.diff_word exact (by omega) (by omega)]
    omega
  · next some =>
    have cell := (holds.written 0 (length_pos_iff.mpr some)).1
    rw [add_zero] at cell
    rw [cell] at exact ⊢
    rw [queue.diff_word exact (by omega) (by omega), sub_self]

/-- The value goes into the free cell of the next ticket. -/
theorem Stores.pushed (holds : Stores cap first stored s) (sized : Sized queue cap)
    (room : stored.length < cap) (item : α) :
    Stores cap first (stored ++ [item])
      { s with
        tail := word (s.tail + 1)
        memory := update s.memory (queue.index s.tail) item
        seqs := update s.seqs (queue.index s.tail) (word (s.tail + 1)) } := by
  have longer : (stored ++ [item]).length = stored.length + 1 := by simp
  rw [holds.tail, sized.index, word_word_add]
  refine ⟨by rw [longer]; rfl, holds.head, by rw [longer]; exact room, ?_, ?_⟩
  · intro k below
    rw [longer] at below
    dsimp only
    rcases eq_or_lt_of_le (Nat.le_of_lt_succ below) with last | before
    · rw [last, update_self, update_self, getElem?_append_right
        (Nat.le_refl _), Nat.sub_self]
      exact ⟨rfl, rfl⟩
    · have other := apart_cell first (lt_trans before room) room (ne_of_lt before)
      rw [update_of_ne other, update_of_ne other,
        getElem?_append_left before]
      exact holds.written k before
  · intro k after below
    dsimp only
    rw [update_of_ne (apart_cell first below room (by omega))]
    exact holds.free k (by omega) below

/-- The oldest value is taken out, and its cell waits for the ticket a lap later. -/
theorem Stores.popped {value : α} (holds : Stores cap first (value :: stored) s)
    (sized : Sized queue cap) (left : α) :
    s.memory (queue.index s.head) = value ∧
    Stores cap (first + 1) stored
      { s with
        head := word (s.head + 1)
        memory := update s.memory (queue.index s.head) left
        seqs := update s.seqs (queue.index s.head)
          (word (s.head + queue.capacity)) } := by
  have longer : (value :: stored).length = stored.length + 1 := rfl
  have room := holds.room
  have pos := sized.pos
  have front : first % cap = (first + 0) % cap := rfl
  have shift : ∀ k, first + 1 + k = first + (k + 1) := by omega
  rw [holds.head, sized.index, word_word_add, word_word_add, sized.same]
  refine ⟨?_, ?_, rfl, by omega, ?_, ?_⟩
  · have here := (holds.written 0 (by omega)).2
    exact (Option.some.inj here).symm
  · rw [holds.tail, longer, shift]
  · intro k below
    dsimp only
    rw [shift, front, update_of_ne (apart_cell first (by omega) pos (by omega)),
      update_of_ne (apart_cell first (by omega) pos (by omega))]
    exact holds.written (k + 1) (by omega)
  · intro k after below
    dsimp only
    rw [shift]
    rcases eq_or_lt_of_le (Nat.succ_le_of_lt below) with lap | before
    · rw [show k + 1 = cap from lap, Nat.add_mod_right, update_self]
    · rw [front, update_of_ne (apart_cell first before pos (by omega))]
      exact holds.free (k + 1) (by rw [longer]; omega) before

/-! ## Every call returns -/

theorem Storage.push_taken {item : α} {s : Storage α}
    (free : queue.diff (s.seqs (queue.index s.tail)) s.tail = 0) (fails extra : Nat) :
    s.push queue item (fails + 1 + extra) fails = some (true, { s with
      tail := word (s.tail + 1)
      memory := update s.memory (queue.index s.tail) item
      seqs := update s.seqs (queue.index s.tail) (word (s.tail + 1)) }) := by
  induction fails with
  | zero =>
    rw [zero_add, add_comm, Storage.push]
    exact if_pos free
  | succ fails ih =>
    rw [show fails + 1 + 1 + extra = fails + 1 + extra + 1 by omega, Storage.push]
    exact (if_pos free).trans ih

theorem Storage.pop_taken {left : α} {s : Storage α}
    (full : queue.diff (s.seqs (queue.index s.head)) (word (s.head + 1)) = 0)
    (fails extra : Nat) :
    s.pop queue left (fails + 1 + extra) fails =
      some (some (s.memory (queue.index s.head)), { s with
        head := word (s.head + 1)
        memory := update s.memory (queue.index s.head) left
        seqs := update s.seqs (queue.index s.head)
          (word (s.head + queue.capacity)) }) := by
  induction fails with
  | zero =>
    rw [zero_add, add_comm, Storage.pop]
    exact if_pos full
  | succ fails ih =>
    rw [show fails + 1 + 1 + extra = fails + 1 + extra + 1 by omega, Storage.pop]
    exact (if_pos full).trans ih

theorem Storage.push_refused {item : α} {s : Storage α}
    (full : queue.diff (s.seqs (queue.index s.tail)) s.tail < 0) (turns fails : Nat) :
    s.push queue item (turns + 1) fails = some (false, s) := by
  unfold Storage.push
  rw [if_neg (ne_of_lt full), if_pos full]

theorem Storage.pop_refused {left : α} {s : Storage α}
    (empty : queue.diff (s.seqs (queue.index s.head)) (word (s.head + 1)) < 0)
    (turns fails : Nat) : s.pop queue left (turns + 1) fails = some (none, s) := by
  unfold Storage.pop
  rw [if_neg (ne_of_lt empty), if_pos empty]

def Call.turns : Call α → Nat
  | .push _ fails | .pop _ fails => fails + 1

/-- A call answers as the queue does, and its values are those of the queue after it. -/
theorem Stores.call (holds : Stores cap first stored s) (sized : Sized queue cap)
    (call : Call α) (exact : s.Exact queue call) :
    ∃ first' next, Stores cap first' (fifoCall cap stored call).2 next ∧
      ∀ extra, s.call queue (call.turns + extra) call =
        some ((fifoCall cap stored call).1, next) := by
  cases call with
  | push item fails =>
    have diff := holds.push_diff sized exact
    by_cases full : stored.length = cap
    · rw [if_pos full] at diff
      have two := sized.two
      refine ⟨first, s, ?_, ?_⟩
      · rw [fifoCall, if_pos full]
        exact holds
      · intro extra
        rw [fifoCall, if_pos full, Storage.call, Call.turns,
          show fails + 1 + extra = fails + extra + 1 by omega,
          Storage.push_refused (by omega)]
        rfl
    · rw [if_neg full] at diff
      have room := lt_of_le_of_ne holds.room full
      have after := holds.pushed sized room item
      rw [fifoCall, if_neg full]
      refine ⟨first, _, after, ?_⟩
      intro extra
      rw [Storage.call, Call.turns, Storage.push_taken diff fails extra]
      rfl
  | pop left fails =>
    have diff := holds.pop_diff sized exact
    cases stored with
    | nil =>
      refine ⟨first, s, holds, ?_⟩
      intro extra
      rw [Storage.call, Call.turns, show fails + 1 + extra = fails + extra + 1 by omega,
        Storage.pop_refused (by rw [diff, if_pos rfl]; decide)]
      rfl
    | cons value others =>
      obtain ⟨out, after⟩ := holds.popped sized left
      refine ⟨first + 1, _, after, ?_⟩
      intro extra
      rw [Storage.call, Call.turns, Storage.pop_taken diff fails extra, out]
      rfl

theorem Stores.calls (sized : Sized queue cap) :
    ∀ (calls : List (Call α)) {first : Nat} {stored : List α} {s : Storage α},
      Stores cap first stored s → s.ExactCalls queue calls →
      ∃ least, ∀ turns, least ≤ turns →
        s.calls queue turns calls = some (fifoCalls cap calls stored)
  | [], _, _, _, _, _ => ⟨0, fun _ _ => rfl⟩
  | call :: rest, first, stored, s, holds, exact => by
    obtain ⟨first', next, after, answers⟩ := holds.call sized call exact.1
    obtain ⟨least, runs⟩ := Stores.calls sized rest after
      (exact.2 (call.turns + 0) _ next (answers 0))
    refine ⟨call.turns + least, ?_⟩
    intro turns enough
    obtain ⟨extra, rfl⟩ := Nat.exists_eq_add_of_le enough
    have returned := answers (least + extra)
    rw [← add_assoc] at returned
    rw [Storage.calls, returned]
    dsimp only
    rw [runs _ (by omega)]
    rfl

end Steps

end Calls

section OneCell
variable {α : Type} {queue : Queue}

theorem index_one (one : queue.capacity = 1) (pos : Nat) : queue.index pos = 0 := by
  rw [Queue.index, one, show wordSub 1 1 = 0 by decide, Nat.and_zero]

theorem Queue.diff_one (queue : Queue) : queue.diff 1 1 = 0 := by
  cases queue <;> dsimp only [Queue.diff] <;> decide

theorem Queue.diff_zero (queue : Queue) : queue.diff 0 0 = 0 := by
  cases queue <;> dsimp only [Queue.diff] <;> decide

/-- A second value is written over the first: its tag is the number of the next ticket. -/
theorem push_one (one : queue.capacity = 1) (s : Storage α) (tail : s.tail = 0 ∨ s.tail = 1)
    (seq : s.seqs 0 = s.tail) (item : α) (turns : Nat) :
    queue.Exact (s.seqs (queue.index s.tail)) s.tail ∧
      s.call queue (turns + 1) (.push item 0) = some (.pushed true,
        { s with
          tail := s.tail + 1
          memory := update s.memory 0 item
          seqs := update s.seqs 0 (s.tail + 1) }) := by
  have next : word (s.tail + 1) = s.tail + 1 := word_of_lt (by omega)
  have free : queue.diff (s.seqs (queue.index s.tail)) s.tail = 0 := by
    rw [index_one one, seq]
    rcases tail with zero | one
    · rw [zero, queue.diff_zero]
    · rw [one, queue.diff_one]
  refine ⟨?_, ?_⟩
  · rw [index_one one, seq]
    cases queue with
    | staticMpmc N => trivial
    | crossbeam N => rw [Queue.Exact, sub_self]; decide
  · rw [Storage.call, add_comm, show 1 + turns = 0 + 1 + turns by omega,
      Storage.push_taken free 0 turns, index_one one, next]
    rfl

theorem Storage.pop_spins {left : α} {s : Storage α}
    (ahead : 0 < queue.diff (s.seqs (queue.index s.head)) (word (s.head + 1))) (turns fails : Nat) :
    s.pop queue left turns fails = none := by
  induction turns with
  | zero => rfl
  | succ turns ih =>
    unfold Storage.pop
    rw [if_neg (ne_of_gt ahead), if_neg (Int.not_lt.mpr (le_of_lt ahead))]
    exact ih

end OneCell

theorem exactCalls_staticMpmc {α : Type} (N : Nat) :
    ∀ (calls : List (Call α)) (s : Storage α), s.ExactCalls (.staticMpmc N) calls
  | [], _ => trivial
  | .push _ _ :: rest, _ => ⟨trivial, fun _ _ next _ => exactCalls_staticMpmc N rest next⟩
  | .pop _ _ :: rest, _ => ⟨trivial, fun _ _ next _ => exactCalls_staticMpmc N rest next⟩

/-- A ring is a queue of exactly its capacity in every run of calls whose differences are
exact, if it has two cells or more.  With one cell a second push is not refused. -/
theorem bounded_exactly {α : Type} (queue : Queue) (admits : queue.Admits) (raw : Nat → α) :
    (2 ≤ queue.capacity →
      ∀ calls : List (Call α), (Storage.init raw).ExactCalls queue calls →
        ∃ least, ∀ turns, least ≤ turns →
          (Storage.init raw).calls queue turns calls =
            some (fifoCalls queue.capacity calls [])) ∧
    (queue.capacity = 1 →
      ∃ calls : List (Call α), (Storage.init raw).ExactCalls queue calls ∧
        ∀ turns, (Storage.init raw).calls queue turns calls ≠
          some (fifoCalls queue.capacity calls [])) := by
  refine ⟨?_, ?_⟩
  · intro two calls exact
    exact Stores.calls (sized admits two) calls (stores_init (sized admits two) raw) exact
  · intro one
    have first := push_one one (Storage.init raw) (.inl rfl) rfl (raw 0)
    have second := push_one one
      ⟨update (fun i => i) 0 1, update raw 0 (raw 0), 1, 0⟩ (.inr rfl) rfl (raw 0)
    refine ⟨[.push (raw 0) 0, .push (raw 0) 0], ⟨(first 0).1, ?_⟩, ?_⟩
    · intro turns answer next returned
      cases turns with
      | zero => exact nomatch returned
      | succ turns =>
        rw [(first turns).2] at returned
        obtain ⟨-, rfl⟩ := Prod.mk.inj (Option.some.inj returned)
        exact ⟨(second 0).1, fun _ _ _ _ => trivial⟩
    · intro turns same
      cases turns with
      | zero => exact nomatch same
      | succ turns =>
        rw [Storage.calls, (first turns).2] at same
        have again := (second turns).2
        simp only [Storage.init, zero_add] at same
        rw [Storage.calls, again] at same
        rw [one] at same
        exact absurd same (by simp [Storage.calls, fifoCalls, fifoCall])

theorem bounded_exactly_two :
    ∃ least, ∀ turns, least ≤ turns →
      (Storage.init fun _ => 0).calls (.staticMpmc 2) turns
          [.push 5 1, .push 6 0, .push 7 0, .pop 0 2, .pop 0 0, .pop 0 0] =
        some [.pushed true, .pushed true, .pushed false, .popped (some 5), .popped (some 6),
          .popped none] :=
  (bounded_exactly (.staticMpmc 2) (by decide) (fun _ => 0)).1 (by decide) _
    (exactCalls_staticMpmc 2 _ _)

/-- With one cell two pushes go through, and the pop after them never returns. -/
theorem one_cell_stores_two :
    (Queue.staticMpmc 1).Admits ∧ (Queue.staticMpmc 1).capacity = 1 ∧
      (Storage.init fun _ => 0).calls (.staticMpmc 1) 1 [.push 5 0, .push 6 0] =
        some [.pushed true, .pushed true] ∧
      fifoCalls 1 [.push 5 0, .push 6 0] [] = [.pushed true, .pushed false] ∧
      ∀ turns, (Storage.init fun _ => 0).calls (.staticMpmc 1) turns
        [.push 5 0, .push 6 0, .pop 0 0] = none := by
  refine ⟨by decide, rfl, by decide, rfl, ?_⟩
  intro turns
  cases turns with
  | zero => rfl
  | succ turns =>
    rw [Storage.calls, (push_one rfl _ (.inl rfl) rfl 5 turns).2]
    dsimp only
    rw [Storage.calls, (push_one rfl _ (.inr rfl) rfl 6 turns).2]
    dsimp only
    rw [Storage.calls, Storage.call, Storage.pop_spins (by decide)]
    rfl

end Micron.Mpmc
