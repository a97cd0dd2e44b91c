import Micron.Mpmc.Steps

/-!
# Runs of a ring
-/

set_option autoImplicit false

namespace Micron.Mpmc

open Micron.Lib List Function Nat Int

variable {α : Type} {queue : Queue} {cap : Nat} {s : State α}

/-- Both ways of subtracting give zero for equal words only. -/
theorem eq_of_diff (queue : Queue) {x y : Nat} (boundX : x < 2 ^ 64) (boundY : y < 2 ^ 64)
    (zero : queue.diff x y = 0) : x = y := by
  cases queue with
  | staticMpmc N =>
    have dvd : ((2 ^ 64 : Nat) : Int) ∣ ((wordSub x y : Nat) : Int) := dvd_of_bmod_eq_zero zero
    have small : wordSub x y < 2 ^ 64 := word_lt _
    have none := eq_zero_of_dvd_of_lt (natCast_dvd_natCast.mp dvd) small
    unfold wordSub word at none
    omega
  | crossbeam N =>
    have same : (x : Int).bmod (2 ^ 64) = (y : Int).bmod (2 ^ 64) := sub_eq_zero.mp zero
    have modular := bmod_eq_bmod_iff_bmod_sub_eq_zero.mp same
    have dvd : ((2 ^ 64 : Nat) : Int) ∣ (x : Int) - y := dvd_of_bmod_eq_zero modular
    omega

theorem CellOk.seq_word {taken c : Nat} {tickets : List α} {cell : Cell α}
    (ok : CellOk cap tickets taken c cell) : cell.seq = word cell.seq := by
  have reduced : ∀ x, word x = word (word x) := by
    intro x
    exact (word_of_lt (word_lt x)).symm
  rcases lt_or_ge cell.ticket tickets.length with used | free
  · rcases ok.used used with ⟨waits, _⟩ | filled
    · rw [waits]
      exact reduced _
    · rw [filled]
      exact reduced _
  · rw [(ok.free free).1]
    exact reduced _

theorem Inv.seq_of_diff (inv : Inv cap s) (sized : Sized queue cap) {pos a since : Nat}
    (loaded : pos = word since)
    (zero : queue.diff (s.cells (queue.index pos)).seq (word a) = 0) :
    (s.cells (since % cap)).seq = word a := by
  have ok := inv.cells (since % cap) (mod_lt _ sized.pos)
  rw [loaded, sized.index, ok.seq_word] at zero
  rw [ok.seq_word]
  exact eq_of_diff queue (word_lt _) (word_lt _) zero

theorem inv_init (sized : Sized queue cap) (raw : Nat → α) : Inv cap (State.init raw) where
  tail := rfl
  head := rfl
  le := le_refl _
  cells c bound := by
    have large := sized.large
    refine ⟨mod_eq_of_lt bound, zero_le _, by simpa [State.init] using bound, ?_,
      fun used => (nomatch used), fun _ used => (nomatch used)⟩
    intro _
    exact ⟨(word_of_lt (by change c < 2 ^ 64; omega)).symm, rfl⟩
  threads _ := trivial
  alone _ _ _ owns := nomatch owns
  received _ _ member := nomatch member
  once := nodup_nil
  returned _ member := nomatch member

theorem index_eq (sized : Sized queue cap) {pos t : Nat} (loaded : pos = word t) :
    queue.index pos = t % cap := by
  rw [loaded, sized.index]

theorem Inv.fill (inv : Inv cap s) (sized : Sized queue cap) {i : Nat} {item : α} {pos t : Nat}
    (thread : s.threads i = .fill item pos t) :
    Inv cap ((s.setCell (queue.index pos)
      { s.cells (queue.index pos) with payload := item, unread := true }).go i
        (.publish item pos t)) := by
  have ok := inv.threads i
  rw [thread] at ok
  obtain ⟨loaded, low, here, ticket, seq, unread⟩ := ok
  have cell := inv.cells (t % cap) (mod_lt _ sized.pos)
  rw [index_eq sized loaded]
  refine inv.setCell (i := i) (t := t) (r := s.received) (q := s.returned)
    (by rw [thread]; rfl) ?_ (.inr rfl) ?_ ?_ (fun _ member => member) inv.once
    (fun _ member => .inl member) ?_
  · refine ⟨cell.home, cell.ahead, cell.behind, ?_, cell.used, ?_⟩
    · intro free
      change s.tickets.length ≤ (s.cells (t % cap)).ticket at free
      omega
    · intro _ _ full
      rw [ticket, seq] at full
      exact absurd full (word_ne_succ _)
  · simp only [ThreadOk, State.setCell, State.go, update_self]
    exact ⟨loaded, low, here, ticket, seq, trivial, trivial⟩
  · intro t' v member
    exact .inl member
  · intro member
    rcases inv.returned t member with gone | ⟨_, full, _⟩
    · exact .inl gone
    · exact absurd (seq.symm.trans full) (word_ne_succ _)

theorem Inv.publish (inv : Inv cap s) (sized : Sized queue cap) {i : Nat} {item : α} {pos t : Nat}
    (thread : s.threads i = .publish item pos t) :
    Inv cap { (s.setCell (queue.index pos)
      { s.cells (queue.index pos) with seq := word (pos + 1) }).go i .idle with
        returned := s.returned ++ [t] } := by
  have ok := inv.threads i
  rw [thread] at ok
  obtain ⟨loaded, low, here, ticket, seq, unread, payload⟩ := ok
  have cell := inv.cells (t % cap) (mod_lt _ sized.pos)
  have next : word (pos + 1) = word (t + 1) := by rw [loaded, word_word_add]
  rw [index_eq sized loaded, next]
  refine inv.setCell (i := i) (t := t) (r := s.received)
    (by rw [thread]; rfl) ?_ (.inl rfl) trivial ?_ (fun _ member => member) inv.once ?_ ?_
  · refine ⟨cell.home, cell.ahead, cell.behind, ?_, ?_, ?_⟩
    · intro free
      change s.tickets.length ≤ (s.cells (t % cap)).ticket at free
      omega
    · intro _
      refine .inr ?_
      rw [ticket]
    · intro _ _ _
      refine ⟨unread, ?_⟩
      rw [ticket, payload]
      exact here
  · intro t' v member
    exact .inl member
  · intro t' member
    rcases mem_append.mp member with before | last
    · exact .inl before
    · exact .inr (mem_singleton.mp last)
  · intro _
    refine .inr ⟨ticket, rfl, unread, ?_⟩
    rw [payload]
    exact here

theorem Inv.take (inv : Inv cap s) (sized : Sized queue cap) {i pos t : Nat}
    (thread : s.threads i = .take pos t) (left : α) :
    Inv cap { (s.setCell (queue.index pos)
      { s.cells (queue.index pos) with payload := left, unread := false }).go i
        (.reopen pos t) with
      received := s.received ++ [(t, (s.cells (queue.index pos)).payload)] } := by
  have ok := inv.threads i
  rw [thread] at ok
  obtain ⟨loaded, low, ticket, seq, unread, here, fresh⟩ := ok
  have cell := inv.cells (t % cap) (mod_lt _ sized.pos)
  have le := inv.le
  have names : ∀ v, (s.received ++ [(t, v)]).map Prod.fst = s.received.map Prod.fst ++ [t] := by
    intro v
    rw [map_append]
    rfl
  rw [index_eq sized loaded]
  refine inv.setCell (i := i) (t := t) (q := s.returned)
    (by rw [thread]; rfl) ?_ (.inr rfl) ?_ ?_ ?_ ?_ (fun _ member => .inl member) ?_
  · refine ⟨cell.home, cell.ahead, cell.behind, ?_, cell.used, ?_⟩
    · intro free
      change s.tickets.length ≤ (s.cells (t % cap)).ticket at free
      omega
    · intro waiting
      change s.taken ≤ (s.cells (t % cap)).ticket at waiting
      omega
  · simp only [ThreadOk, State.setCell, State.go, update_self]
    exact ⟨loaded, low, ticket, seq, trivial⟩
  · intro t' v member
    rcases mem_append.mp member with before | last
    · exact .inl before
    · cases mem_singleton.mp last
      exact .inr ⟨rfl, low, here⟩
  · intro t' member
    rw [names]
    exact mem_append_left _ member
  · rw [names]
    rw [← concat_eq_append]
    exact inv.once.concat fresh
  · intro _
    rw [names]
    exact .inl (mem_append_right _ mem_cons_self)

theorem Inv.reopen (inv : Inv cap s) (sized : Sized queue cap) {i pos t : Nat}
    (thread : s.threads i = .reopen pos t) :
    Inv cap ((s.setCell (queue.index pos) { s.cells (queue.index pos) with
      seq := word (pos + queue.capacity), ticket := t + queue.capacity }).go i .idle) := by
  have ok := inv.threads i
  rw [thread] at ok
  obtain ⟨loaded, low, ticket, seq, unread⟩ := ok
  have cell := inv.cells (t % cap) (mod_lt _ sized.pos)
  have ahead := cell.ahead
  have next : word (pos + cap) = word (t + cap) := by rw [loaded, word_word_add]
  rw [index_eq sized loaded, sized.same, next]
  refine inv.setCell (i := i) (t := t) (r := s.received) (q := s.returned)
    (by rw [thread]; rfl) ?_ (.inl rfl) trivial ?_ (fun _ member => member) inv.once
    (fun _ member => .inl member) ?_
  · refine ⟨add_mod_right _ _, ?_, ?_, fun _ => ⟨rfl, unread⟩, ?_, ?_⟩
    · change s.tickets.length ≤ t + cap + cap
      omega
    · change t + cap < s.taken + cap
      omega
    · intro used
      change t + cap < s.tickets.length at used
      omega
    · intro _ used
      change t + cap < s.tickets.length at used
      omega
  · intro t' v member
    exact .inl member
  · intro member
    rcases inv.returned t member with gone | ⟨_, _, still, _⟩
    · exact .inl gone
    · rw [unread] at still
      exact nomatch still

theorem retryPushOk (inv : Inv cap s) (queue : Queue) (item : α) :
    ThreadOk cap s (retryPush queue s item) ∧ (retryPush queue s item).owns = none := by
  cases queue with
  | staticMpmc N => exact ⟨⟨inv.tail, le_refl _⟩, rfl⟩
  | crossbeam N => exact ⟨trivial, rfl⟩

theorem retryPopOk (inv : Inv cap s) (queue : Queue) :
    ThreadOk cap s (retryPop queue s) ∧ (retryPop queue s).owns = none := by
  cases queue with
  | staticMpmc N => exact ⟨⟨inv.head, le_refl _⟩, rfl⟩
  | crossbeam N => exact ⟨trivial, rfl⟩

theorem inv_stepThread (sized : Sized queue cap) (inv : Inv cap s) (i : Nat) (spurious : Bool)
    (left : α) (timely : (Action.thread i spurious left).Timely s) :
    Inv cap (stepThread queue s i spurious left) := by
  have ok := inv.threads i
  unfold stepThread
  split
  next => exact inv
  next item thread => exact inv.go i (k := .loadSeqPush _ _ _) ⟨inv.tail, le_refl _⟩ rfl
  next item pos since thread =>
    rw [thread] at ok
    obtain ⟨loaded, le⟩ := ok
    simp only
    split
    next zero =>
      refine inv.go i (k := .claimPush _ _ _) ⟨loaded, le, ?_⟩ rfl
      intro same
      rw [loaded, ← same] at zero
      have seq := inv.seq_of_diff sized rfl zero
      have cell := inv.cells (s.tickets.length % cap) (mod_lt _ sized.pos)
      rw [← same]
      exact cell.free_of_seq sized.two sized.large inv.le rfl seq
    next =>
      split
      · exact inv.go i trivial rfl
      · exact inv.go i (k := .loadTail item) trivial rfl
  next item pos since thread =>
    split
    next found =>
      simp only [Action.Timely, thread] at timely
      exact inv.claimPush sized.two thread found.1 timely
    next =>
      obtain ⟨ok, none⟩ := retryPushOk inv queue item
      exact inv.go i ok none
  next item pos t thread => exact inv.fill sized thread
  next item pos t thread => exact inv.publish sized thread
  next thread => exact inv.go i (k := .loadSeqPop _ _) ⟨inv.head, le_refl _⟩ rfl
  next pos since thread =>
    rw [thread] at ok
    obtain ⟨loaded, le⟩ := ok
    simp only
    split
    next zero =>
      refine inv.go i (k := .claimPop _ _) ⟨loaded, le, ?_⟩ rfl
      intro same
      rw [loaded, ← same, word_word_add] at zero
      have seq := inv.seq_of_diff sized rfl zero
      have cell := inv.cells (s.taken % cap) (mod_lt _ sized.pos)
      rw [← same]
      obtain ⟨serves, low⟩ := cell.full_of_seq sized.two sized.large inv.le rfl seq
      exact ⟨low, serves, seq⟩
    next =>
      split
      · exact inv.go i trivial rfl
      · exact inv.go i (k := .loadHead) trivial rfl
  next pos since thread =>
    split
    next found =>
      simp only [Action.Timely, thread] at timely
      exact inv.claimPop sized.pos thread found.1 timely
    next =>
      obtain ⟨ok, none⟩ := retryPopOk inv queue
      exact inv.go i ok none
  next pos t thread => exact inv.take sized thread left
  next pos t thread => exact inv.reopen sized thread

theorem inv_step (sized : Sized queue cap) (inv : Inv cap s) (a : Action α) (timely : a.Timely s) :
    Inv cap (step queue s a) := by
  cases a with
  | push i item => exact inv.go i (k := .loadTail item) trivial rfl
  | pop i => exact inv.go i (k := .loadHead) trivial rfl
  | thread i spurious left => exact inv_stepThread sized inv i spurious left timely

theorem inv_reached {raw : Nat → α} (sized : Sized queue cap) (reached : ReachedTimely queue raw s) :
    Inv cap s := by
  induction reached with
  | init => exact inv_init sized raw
  | step _ a _ timely ih => exact inv_step sized ih a timely

/-- What a ring delivers: a ticket of the pops gives the value of the same ticket of the
pushes, at most one pop gets it, a push that returned has its value in the cell until a
pop moves it out, and a cell is written when no value waits in it. -/
structure Delivers (queue : Queue) (s : State α) : Prop where
  order : ∀ k v, (k, v) ∈ s.received → s.tickets[k]? = some v
  once : (s.received.map Prod.fst).Nodup
  claimed : ∀ i pos k, s.threads i = .take pos k →
    s.tickets[k]? = some (s.cells (queue.index pos)).payload
  held : ∀ k ∈ s.returned, k ∉ s.received.map Prod.fst →
    (s.cells (k % queue.capacity)).seq = word (k + 1) ∧
      s.tickets[k]? = some (s.cells (k % queue.capacity)).payload
  unread : ∀ i item pos k, s.threads i = .fill item pos k →
    (s.cells (queue.index pos)).unread = false

/-- Two producers race for the first ticket, and the one that loses takes the next while a
consumer is under way. -/
def handOver : List (Action Nat) :=
  .push 0 7 :: .push 1 8 :: [0, 1, 0, 1, 1, 0].map (.thread · false 0) ++
    .pop 2 :: [1, 2, 1, 0, 2, 0, 2, 0, 2, 0, 2, 0].map (.thread · false 0) ++
    .pop 2 :: [2, 2, 2, 2].map (.thread · false 0)

end Micron.Mpmc

/-!
## A counter that has gone round

A thread that stops between reading a counter and its compare-exchange cannot tell that
the counter has gone round in between: it then claims a ticket whose cell holds a value.
-/

namespace Micron.Mpmc

open Micron.Lib

section Calls
variable {α : Type} {queue : Queue} {raw : Nat → α} {s : State α} {i pos since t : Nat} {item : α}

theorem State.go_threads (s : State α) (i : Nat) (thread : Thread α) :
    (s.go i thread).threads i = thread := Function.update_self ..

theorem State.go_of_ne (s : State α) {i j : Nat} (thread : Thread α) (other : j ≠ i) :
    (s.go i thread).threads j = s.threads j := Function.update_of_ne other ..

theorem State.go_go (s : State α) (i : Nat) (before after : Thread α) :
    (s.go i before).go i after = s.go i after := by
  simp only [State.go, Function.update_idem]

theorem State.go_cells (s : State α) (i : Nat) (thread : Thread α) :
    (s.go i thread).cells = s.cells := rfl

theorem Reached.thread (reached : Reached queue raw s) (i : Nat) (left : α) :
    Reached queue raw (stepThread queue s i false left) :=
  reached.step (.thread i false left) trivial

theorem Reached.loadTail (reached : Reached queue raw (s.go i (.loadTail item))) :
    Reached queue raw (s.go i (.loadSeqPush item s.tail s.tickets.length)) := by
  have next := reached.thread i item
  rw [stepThread, State.go_threads] at next
  simp only [State.go_go] at next
  exact next

theorem Reached.loadSeqPush (reached : Reached queue raw (s.go i (.loadSeqPush item pos since)))
    (free : queue.diff (s.cells (queue.index pos)).seq pos = 0) :
    Reached queue raw (s.go i (.claimPush item pos since)) := by
  have next := reached.thread i item
  rw [stepThread, State.go_threads] at next
  dsimp only at next
  rw [State.go_cells, if_pos free, State.go_go] at next
  exact next

theorem Reached.claimPush (reached : Reached queue raw (s.go i (.claimPush item pos since)))
    (found : s.tail = pos) :
    Reached queue raw (State.go { s with tail := word (pos + 1), tickets := s.tickets ++ [item] } i
      (.fill item pos s.tickets.length)) := by
  have next := reached.thread i item
  rw [stepThread, State.go_threads] at next
  dsimp only at next
  rw [if_pos ⟨found, rfl⟩, State.go_go] at next
  exact next

theorem Reached.fill (reached : Reached queue raw (s.go i (.fill item pos t))) :
    Reached queue raw ((s.setCell (queue.index pos)
      { s.cells (queue.index pos) with payload := item, unread := true }).go i
        (.publish item pos t)) := by
  have next := reached.thread i item
  rw [stepThread, State.go_threads] at next
  simpa only [State.setCell, State.go, Function.update_idem] using next

theorem Reached.publish (reached : Reached queue raw (s.go i (.publish item pos t))) :
    Reached queue raw (State.go { s.setCell (queue.index pos)
      { s.cells (queue.index pos) with seq := word (pos + 1) } with
        returned := s.returned ++ [t] } i .idle) := by
  have next := reached.thread i item
  rw [stepThread, State.go_threads] at next
  simpa only [State.setCell, State.go, Function.update_idem] using next

theorem Reached.loadHead (reached : Reached queue raw (s.go i .loadHead)) (left : α) :
    Reached queue raw (s.go i (.loadSeqPop s.head s.taken)) := by
  have next := reached.thread i left
  rw [stepThread, State.go_threads] at next
  simp only [State.go_go] at next
  exact next

theorem Reached.loadSeqPop (reached : Reached queue raw (s.go i (.loadSeqPop pos since))) (left : α)
    (full : queue.diff (s.cells (queue.index pos)).seq (word (pos + 1)) = 0) :
    Reached queue raw (s.go i (.claimPop pos since)) := by
  have next := reached.thread i left
  rw [stepThread, State.go_threads] at next
  dsimp only at next
  rw [State.go_cells, if_pos full, State.go_go] at next
  exact next

theorem Reached.claimPop (reached : Reached queue raw (s.go i (.claimPop pos since))) (left : α)
    (found : s.head = pos) :
    Reached queue raw (State.go { s with head := word (pos + 1), taken := s.taken + 1 } i
      (.take pos s.taken)) := by
  have next := reached.thread i left
  rw [stepThread, State.go_threads] at next
  dsimp only at next
  rw [if_pos ⟨found, rfl⟩, State.go_go] at next
  exact next

theorem Reached.take (reached : Reached queue raw (s.go i (.take pos t))) (left : α) :
    Reached queue raw (State.go { s.setCell (queue.index pos)
      { s.cells (queue.index pos) with payload := left, unread := false } with
        received := s.received ++ [(t, (s.cells (queue.index pos)).payload)] } i
          (.reopen pos t)) := by
  have next := reached.thread i left
  rw [stepThread, State.go_threads] at next
  simpa only [State.setCell, State.go, Function.update_idem] using next

theorem Reached.reopen (reached : Reached queue raw (s.go i (.reopen pos t))) (left : α) :
    Reached queue raw ((s.setCell (queue.index pos) { s.cells (queue.index pos) with
      seq := word (pos + queue.capacity), ticket := t + queue.capacity }).go i .idle) := by
  have next := reached.thread i left
  rw [stepThread, State.go_threads] at next
  simpa only [State.setCell, State.go, Function.update_idem] using next

end Calls

section Cycles

variable {s : State Nat} {n : Nat}

abbrev ReachedTwo (s : State Nat) : Prop := Reached (.staticMpmc 2) (fun _ => 0) s

theorem index_two (n : Nat) : (Queue.staticMpmc 2).index (word n) = n % 2 :=
  and_wordSub_one (k := 1) (by decide) n

theorem diff_self (n : Nat) : (Queue.staticMpmc 2).diff (word n) (word n) = 0 := by
  have none : wordSub (word n) (word n) = 0 := by
    rw [wordSub_word (Nat.le_refl _) (by omega), Nat.sub_self]
  dsimp only [Queue.diff]
  rw [none, Nat.cast_zero, Int.zero_bmod]

theorem push_two (reached : ReachedTwo s) (idle : s.threads 0 = .idle) (tail : s.tail = word n)
    (seq : (s.cells (n % 2)).seq = word n) :
    ∃ s', ReachedTwo s' ∧ s'.tail = word (n + 1) ∧ s'.head = s.head ∧ s'.threads 0 = .idle ∧
      s'.threads 1 = s.threads 1 ∧ (∀ c, c ≠ n % 2 → s'.cells c = s.cells c) ∧
      (s'.cells (n % 2)).seq = word (n + 1) ∧ (s'.cells (n % 2)).unread = true := by
  have loaded := Reached.loadTail (reached.step (.push 0 0) idle)
  rw [tail] at loaded
  have looked := loaded.loadSeqPush (by rw [index_two, seq, diff_self])
  have filled := (looked.claimPush tail).fill
  have published := filled.publish
  rw [index_two, word_word_add] at published
  refine ⟨_, published, rfl, rfl, ?_, ?_, ?_, ?_, ?_⟩
  · exact State.go_threads _ 0 _
  · exact State.go_of_ne _ _ (by decide)
  · intro c other
    simp only [State.go, State.setCell, Function.update_of_ne other]
  · simp only [State.go, State.setCell, Function.update_self]
  · simp only [State.go, State.setCell, Function.update_self]

theorem pop_two (reached : ReachedTwo s) (idle : s.threads 0 = .idle) (head : s.head = word n)
    (seq : (s.cells (n % 2)).seq = word (n + 1)) :
    ∃ s', ReachedTwo s' ∧ s'.head = word (n + 1) ∧ s'.tail = s.tail ∧ s'.threads 0 = .idle ∧
      s'.threads 1 = s.threads 1 ∧ (∀ c, c ≠ n % 2 → s'.cells c = s.cells c) ∧
      (s'.cells (n % 2)).seq = word (n + 2) := by
  have loaded := Reached.loadHead (reached.step (.pop 0) idle) 0
  rw [head] at loaded
  have looked := loaded.loadSeqPop 0 (by rw [index_two, seq, word_word_add, diff_self])
  have taken := (looked.claimPop 0 head).take 0
  have reopened := taken.reopen 0
  rw [index_two, word_word_add] at reopened
  rw [word_word_add] at reopened
  refine ⟨_, reopened, rfl, rfl, ?_, ?_, ?_, ?_⟩
  · exact State.go_threads _ 0 _
  · exact State.go_of_ne _ _ (by decide)
  · intro c other
    simp only [State.go, State.setCell, Function.update_of_ne other]
  · simp only [State.go, State.setCell, Function.update_self]
    rfl

/-- The ring is empty after `n` values, while thread 1 waits with the counter it read at
the start. -/
structure Cycled (n : Nat) (s : State Nat) : Prop where
  reached : ReachedTwo s
  tail : s.tail = word n
  head : s.head = word n
  even : (s.cells (n % 2)).seq = word n
  odd : (s.cells ((n + 1) % 2)).seq = word (n + 1)
  worker : s.threads 0 = .idle
  stalled : s.threads 1 = .claimPush 7 0 0

theorem cycled_zero : ∃ s, Cycled 0 s := by
  have loaded := Reached.loadTail ((Reached.init : ReachedTwo _).step (.push 1 7) rfl)
  have looked := loaded.loadSeqPush (diff_self 0)
  refine ⟨_, looked, rfl, rfl, rfl, rfl, ?_, ?_⟩
  · exact State.go_of_ne _ _ (by decide)
  · exact State.go_threads _ 1 _

theorem other_cell (n : Nat) : (n + 1) % 2 ≠ n % 2 := by omega

theorem Cycled.next (cycled : Cycled n s) : ∃ s', Cycled (n + 1) s' := by
  obtain ⟨s₁, reached₁, tail₁, head₁, worker₁, stalled₁, others₁, seq₁, _⟩ :=
    push_two cycled.reached cycled.worker cycled.tail cycled.even
  obtain ⟨s₂, reached₂, head₂, tail₂, worker₂, stalled₂, others₂, seq₂⟩ :=
    pop_two reached₁ worker₁ (head₁.trans cycled.head) seq₁
  refine ⟨s₂, reached₂, tail₂.trans tail₁, head₂, ?_, ?_, worker₂, ?_⟩
  · rw [others₂ _ (other_cell n), others₁ _ (other_cell n)]
    exact cycled.odd
  · rw [Nat.add_mod_right n 2]
    exact seq₂
  · rw [stalled₂, stalled₁]
    exact cycled.stalled

theorem cycled (n : Nat) : ∃ s, Cycled n s := by
  induction n with
  | zero => exact cycled_zero
  | succ n ih =>
    obtain ⟨s, done⟩ := ih
    exact done.next

end Cycles

end Micron.Mpmc
