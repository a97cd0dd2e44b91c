import Micron.Mpmc.Model

/-!
# Steps on the ring

One lemma for the steps that only change where a thread is, one for each claim, and one
for the steps of a thread on the cell of its ticket.
-/

set_option autoImplicit false

namespace Micron.Mpmc

open Micron.Lib List Function Nat

variable {α : Type} {queue : Queue} {cap : Nat} {s : State α}

theorem alone_update {threads : Nat → Thread α} {i : Nat} {thread : Thread α}
    (alone : ∀ i j t, (threads i).owns = some t → (threads j).owns = some t → i = j)
    (new : ∀ j t, thread.owns = some t → (threads j).owns = some t → i = j) (j k t : Nat)
    (owns : (update threads i thread j).owns = some t)
    (owns' : (update threads i thread k).owns = some t) : j = k := by
  by_cases first : j = i
  · subst first
    rw [update_self] at owns
    by_cases second : k = j
    · exact second.symm
    · rw [update_of_ne second] at owns'
      exact new k t owns owns'
  · rw [update_of_ne first] at owns
    by_cases second : k = i
    · subst second
      rw [update_self] at owns'
      exact (new j t owns' owns).symm
    · rw [update_of_ne second] at owns'
      exact alone j k t owns owns'

theorem threads_update {S : State α} {i : Nat} {thread : Thread α} (ok : ThreadOk cap S thread)
    (others : ∀ j, j ≠ i → ThreadOk cap S (s.threads j)) (j : Nat) :
    ThreadOk cap S (update s.threads i thread j) := by
  by_cases same : j = i
  · rw [same, update_self]
    exact ok
  · rw [update_of_ne same]
    exact others j same

theorem Inv.go (inv : Inv cap s) (i : Nat) {k : Thread α} (ok : ThreadOk cap s k)
    (none : k.owns = none) : Inv cap (s.go i k) := by
  refine { inv with threads := ?_, alone := ?_ }
  · exact threads_update (S := s.go i k) ok (fun j _ => inv.threads j)
  · refine alone_update inv.alone ?_
    intro j t owns
    rw [none] at owns
    exact nomatch owns

theorem kept_ticket {tickets : List α} {t : Nat} {v : α} (item : α) (here : tickets[t]? = some v) :
    (tickets ++ [item])[t]? = some v := by
  rw [List.getElem?_append_left (List.getElem?_eq_some_iff.mp here).1]
  exact here

/-- What a thread knows survives a claim of another on the side of the pushes. -/
theorem ThreadOk.pushed {thread : Thread α} (ok : ThreadOk cap s thread) (item : α) (tail : Nat)
    (threads : Nat → Thread α) :
    ThreadOk cap { s with tail := tail, tickets := s.tickets ++ [item], threads := threads }
      thread := by
  have longer : (s.tickets ++ [item]).length = s.tickets.length + 1 := by simp
  cases thread with
  | idle | loadTail item' | loadHead | loadSeqPop pos since | reopen pos t => exact ok
  | loadSeqPush item' pos since => exact ⟨ok.1, longer ▸ le_succ_of_le ok.2⟩
  | claimPush item' pos since =>
    refine ⟨ok.1, longer ▸ le_succ_of_le ok.2.1, ?_⟩
    intro same
    have := ok.2.1
    simp only [longer] at same
    omega
  | fill item' pos t =>
    obtain ⟨word, low, here, cell⟩ := ok
    exact ⟨word, longer ▸ lt_succ_of_lt low, kept_ticket item here, cell⟩
  | publish item' pos t =>
    obtain ⟨word, low, here, cell⟩ := ok
    exact ⟨word, longer ▸ lt_succ_of_lt low, kept_ticket item here, cell⟩
  | claimPop pos since =>
    refine ⟨ok.1, ok.2.1, ?_⟩
    intro same
    obtain ⟨low, cell⟩ := ok.2.2 same
    exact ⟨longer ▸ lt_succ_of_lt low, cell⟩
  | take pos t =>
    obtain ⟨word, low, ticket, seq, unread, here, fresh⟩ := ok
    exact ⟨word, low, ticket, seq, unread, kept_ticket item here, fresh⟩

theorem ThreadOk.popped {thread : Thread α} (ok : ThreadOk cap s thread) (head : Nat)
    (threads : Nat → Thread α) :
    ThreadOk cap { s with head := head, taken := s.taken + 1, threads := threads } thread := by
  cases thread with
  | idle | loadTail item | loadHead | loadSeqPush item pos since | claimPush item pos since
  | fill item pos t | publish item pos t => exact ok
  | loadSeqPop pos since => exact ⟨ok.1, le_succ_of_le ok.2⟩
  | claimPop pos since =>
    refine ⟨ok.1, le_succ_of_le ok.2.1, ?_⟩
    intro same
    have := ok.2.1
    simp only at same
    omega
  | take pos t => exact ⟨ok.1, lt_succ_of_lt ok.2.1, ok.2.2⟩
  | reopen pos t => exact ⟨ok.1, lt_succ_of_lt ok.2.1, ok.2.2⟩

theorem CellOk.pushed {taken c : Nat} {tickets : List α} {cell : Cell α}
    (ok : CellOk cap tickets taken c cell) (le : taken ≤ tickets.length) (two : 2 ≤ cap)
    (next : c = tickets.length % cap → cell.ticket = tickets.length) (item : α) :
    CellOk cap (tickets ++ [item]) taken c cell := by
  have longer : (tickets ++ [item]).length = tickets.length + 1 := by simp
  have ahead := ok.ahead
  refine ⟨ok.home, ?_, ok.behind, ?_, ?_, ?_⟩
  · rw [longer]
    by_contra lap
    have equal : tickets.length = cell.ticket + cap := by omega
    have := next (by rw [equal, add_mod_right, ok.home])
    omega
  · intro free
    exact ok.free (by omega)
  · intro used
    rcases lt_or_ge cell.ticket tickets.length with before | last
    · exact ok.used before
    · exact .inl ⟨(ok.free last).1, by omega⟩
  · intro waiting used seq
    rcases lt_or_ge cell.ticket tickets.length with before | last
    · obtain ⟨unread, here⟩ := ok.full waiting before seq
      rw [getElem?_append_left before]
      exact ⟨unread, here⟩
    · rw [(ok.free last).1] at seq
      have := word_inj (by omega) (by omega) seq
      omega

theorem CellOk.popped {taken c : Nat} {tickets : List α} {cell : Cell α}
    (ok : CellOk cap tickets taken c cell)
    (next : cell.ticket = taken → cell.seq = word (taken + 1)) :
    CellOk cap tickets (taken + 1) c cell := by
  have behind := ok.behind
  refine ⟨ok.home, ok.ahead, by omega, ok.free, ?_, ?_⟩
  · intro used
    rcases ok.used used with ⟨waits, le⟩ | filled
    · rcases eq_or_lt_of_le le with same | less
      · have seq := next same.symm
        rw [same] at seq
        exact .inr seq
      · exact .inl ⟨waits, less⟩
    · exact .inr filled
  · intro waiting
    exact ok.full (by omega)

/-- The cell of a claimed ticket serves it, and shows it as full only to the pop that has
claimed it. -/
theorem Inv.owned (inv : Inv cap s) {i t : Nat} (owns : (s.threads i).owns = some t) :
    t < s.tickets.length ∧ (s.cells (t % cap)).ticket = t ∧
      ((s.cells (t % cap)).seq = word (t + 1) → t < s.taken) := by
  have ok := inv.threads i
  have le := inv.le
  cases thread : s.threads i with
  | fill item pos t' =>
    rw [thread] at owns ok
    cases owns
    obtain ⟨_, low, _, ticket, seq, _⟩ := ok
    exact ⟨low, ticket, fun full => absurd (seq.symm.trans full) (word_ne_succ _)⟩
  | publish item pos t' =>
    rw [thread] at owns ok
    cases owns
    obtain ⟨_, low, _, ticket, seq, _⟩ := ok
    exact ⟨low, ticket, fun full => absurd (seq.symm.trans full) (word_ne_succ _)⟩
  | take pos t' =>
    rw [thread] at owns ok
    cases owns
    exact ⟨lt_of_lt_of_le ok.2.1 le, ok.2.2.1, fun _ => ok.2.1⟩
  | reopen pos t' =>
    rw [thread] at owns ok
    cases owns
    exact ⟨lt_of_lt_of_le ok.2.1 le, ok.2.2.1, fun _ => ok.2.1⟩
  | idle | loadTail item | loadSeqPush item pos since | claimPush item pos since | loadHead
  | loadSeqPop pos since | claimPop pos since =>
    rw [thread] at owns
    exact nomatch owns

/-- A push takes the next ticket, whose cell is free. -/
theorem Inv.claimPush (inv : Inv cap s) (two : 2 ≤ cap) {i : Nat} {item : α} {pos since : Nat}
    (thread : s.threads i = .claimPush item pos since) (found : s.tail = pos)
    (timely : s.tickets.length < since + 2 ^ 64) :
    Inv cap { s.go i (.fill item pos s.tickets.length) with
      tail := word (pos + 1), tickets := s.tickets ++ [item] } := by
  have ok := inv.threads i
  rw [thread] at ok
  obtain ⟨loaded, since_le, free⟩ := ok
  have same : s.tickets.length = since := by
    refine word_inj timely (by omega) ?_
    rw [← inv.tail, found, loaded]
  have ticket := free same
  rw [← same] at ticket
  have positive : 0 < cap := by omega
  have cell := inv.cells (s.tickets.length % cap) (mod_lt _ positive)
  obtain ⟨seq, unread⟩ := cell.free (le_of_eq ticket.symm)
  have le := inv.le
  refine ⟨?_, inv.head, ?_, ?_, ?_, ?_, ?_, inv.once, ?_⟩
  · rw [loaded, ← same, word_word_add, length_append, length_singleton]
  · rw [length_append, length_singleton]
    exact le_succ_of_le le
  · intro c low
    refine (inv.cells c low).pushed le two ?_ item
    intro here
    rw [here]
    exact ticket
  · refine threads_update ⟨?_, ?_, ?_, ticket, ?_, unread⟩ (fun j _ => (inv.threads j).pushed item _ _)
    · rw [loaded, same]
    · rw [length_append, length_singleton]
      exact lt_succ_self _
    · exact getElem?_concat_length
    · rw [ticket] at seq
      exact seq
  · refine alone_update inv.alone ?_
    intro j t owns owns'
    cases owns
    exact absurd (inv.owned owns').1 (lt_irrefl _)
  · intro t v member
    obtain ⟨low, here⟩ := inv.received t v member
    exact ⟨low, kept_ticket item here⟩
  · intro t member
    rcases inv.returned t member with gone | ⟨ticket, seq, unread, here⟩
    · exact .inl gone
    · exact .inr ⟨ticket, seq, unread, kept_ticket item here⟩

theorem Inv.claimPop (inv : Inv cap s) (positive : 0 < cap) {i : Nat} {pos since : Nat}
    (thread : s.threads i = .claimPop pos since) (found : s.head = pos)
    (timely : s.taken < since + 2 ^ 64) :
    Inv cap { s.go i (.take pos s.taken) with head := word (pos + 1), taken := s.taken + 1 } := by
  have ok := inv.threads i
  rw [thread] at ok
  obtain ⟨loaded, since_le, front⟩ := ok
  have same : s.taken = since := by
    refine word_inj timely (by omega) ?_
    rw [← inv.head, found, loaded]
  obtain ⟨low, ticket, seq⟩ := front same
  rw [← same] at low ticket seq
  have cell := inv.cells (s.taken % cap) (mod_lt _ positive)
  obtain ⟨unread, here⟩ := cell.full (le_of_eq ticket.symm) (by omega) (by rw [ticket]; exact seq)
  rw [ticket] at here
  refine ⟨inv.tail, ?_, low, ?_, ?_, ?_, ?_, inv.once, inv.returned⟩
  · rw [loaded, ← same, word_word_add]
  · intro c bound
    refine (inv.cells c bound).popped ?_
    intro front
    have home := (inv.cells c bound).home
    rw [front] at home
    rw [← home]
    exact seq
  · refine threads_update ⟨?_, lt_succ_self _, ticket, seq, unread, here, ?_⟩
      (fun j _ => (inv.threads j).popped _ _)
    · rw [loaded, same]
    · intro gone
      obtain ⟨⟨t, v⟩, member, rfl⟩ := mem_map.mp gone
      exact absurd (inv.received _ v member).1 (lt_irrefl _)
  · refine alone_update inv.alone ?_
    intro j t owns owns'
    cases owns
    exact absurd ((inv.owned owns').2.2 seq) (lt_irrefl _)
  · intro t v member
    obtain ⟨low, here⟩ := inv.received t v member
    exact ⟨lt_succ_of_lt low, here⟩

/-! ## Steps on the cell of a ticket -/

/-- What a thread knows survives a change to the cell of a ticket that it has not claimed. -/
theorem ThreadOk.other {s' : State α} {t : Nat} {thread : Thread α} (ok : ThreadOk cap s thread)
    (notOwner : thread.owns ≠ some t) (old : (s.cells (t % cap)).ticket = t)
    (low : t < s.tickets.length)
    (notFront : (s.cells (t % cap)).seq = word (t + 1) → t < s.taken)
    (tickets : s'.tickets = s.tickets) (taken : s'.taken = s.taken)
    (cells : ∀ c, c ≠ t % cap → s'.cells c = s.cells c)
    (received : ∀ t', t' ≠ t → t' ∈ s'.received.map Prod.fst → t' ∈ s.received.map Prod.fst) :
    ThreadOk cap s' thread := by
  -- a cell that serves another ticket is another cell
  have other : ∀ t', t' ≠ t → (s.cells (t' % cap)).ticket = t' →
      s'.cells (t' % cap) = s.cells (t' % cap) := by
    intro t' differ serves
    refine cells _ ?_
    intro same
    rw [same, old] at serves
    exact differ serves.symm
  cases thread with
  | idle | loadTail item | loadHead => trivial
  | loadSeqPush item pos since => exact ⟨ok.1, tickets ▸ ok.2⟩
  | loadSeqPop pos since => exact ⟨ok.1, taken ▸ ok.2⟩
  | claimPush item pos since =>
    obtain ⟨loaded, le, free⟩ := ok
    refine ⟨loaded, tickets ▸ le, ?_⟩
    intro same
    rw [tickets] at same
    have serves := free same
    rw [other since (by omega) serves]
    exact serves
  | claimPop pos since =>
    obtain ⟨loaded, le, front⟩ := ok
    refine ⟨loaded, taken ▸ le, ?_⟩
    intro same
    rw [taken] at same
    obtain ⟨below, serves, seq⟩ := front same
    have differ : since ≠ t := by
      intro equal
      rw [equal] at seq same
      omega
    rw [other since differ serves, tickets]
    exact ⟨below, serves, seq⟩
  | fill item pos t' =>
    have serves := ok.2.2.2.1
    have differ : t' ≠ t := fun equal => notOwner (by rw [equal]; rfl)
    simp only [ThreadOk, tickets, other t' differ serves]
    exact ok
  | publish item pos t' =>
    have serves := ok.2.2.2.1
    have differ : t' ≠ t := fun equal => notOwner (by rw [equal]; rfl)
    simp only [ThreadOk, tickets, other t' differ serves]
    exact ok
  | take pos t' =>
    obtain ⟨loaded, below, serves, seq, unread, here, fresh⟩ := ok
    have differ : t' ≠ t := fun equal => notOwner (by rw [equal]; rfl)
    simp only [ThreadOk, tickets, taken, other t' differ serves]
    exact ⟨loaded, below, serves, seq, unread, here, fun gone => fresh (received t' differ gone)⟩
  | reopen pos t' =>
    have serves := ok.2.2.1
    have differ : t' ≠ t := fun equal => notOwner (by rw [equal]; rfl)
    simp only [ThreadOk, taken, other t' differ serves]
    exact ok

/-- A thread writes to the cell of its ticket and goes on. -/
theorem Inv.setCell (inv : Inv cap s) {i t : Nat} (owns : (s.threads i).owns = some t)
    {cell : Cell α} {thread : Thread α} {r : List (Nat × α)} {q : List Nat}
    (okCell : CellOk cap s.tickets s.taken (t % cap) cell)
    (keeps : thread.owns = none ∨ thread.owns = some t)
    (ok : ThreadOk cap
      { (s.setCell (t % cap) cell).go i thread with received := r, returned := q }
      thread)
    (okReceived : ∀ t' v, (t', v) ∈ r → (t', v) ∈ s.received ∨
      t' = t ∧ t < s.taken ∧ s.tickets[t]? = some v)
    (more : ∀ t', t' ∈ s.received.map Prod.fst → t' ∈ r.map Prod.fst)
    (once : (r.map Prod.fst).Nodup)
    (okReturned : ∀ t' ∈ q, t' ∈ s.returned ∨ t' = t)
    (same : t ∈ q → t ∈ r.map Prod.fst ∨ cell.ticket = t ∧
      cell.seq = word (t + 1) ∧ cell.unread = true ∧ s.tickets[t]? = some cell.payload) :
    Inv cap { (s.setCell (t % cap) cell).go i thread with
      received := r, returned := q } := by
  obtain ⟨low, old, notFront⟩ := inv.owned owns
  refine ⟨inv.tail, inv.head, inv.le, ?_, ?_, ?_, ?_, once, ?_⟩
  · intro c bound
    change CellOk cap s.tickets s.taken c (update s.cells (t % cap) cell c)
    by_cases equal : c = t % cap
    · rw [equal, update_self]
      exact okCell
    · rw [update_of_ne equal]
      exact inv.cells c bound
  · refine threads_update ok ?_
    intro j differ
    refine (inv.threads j).other ?_ old low notFront rfl rfl ?_ ?_
    · intro owns'
      exact differ (inv.alone j i t owns' owns)
    · intro c other
      exact update_of_ne other _ _
    · intro t' other member
      obtain ⟨⟨t'', v⟩, inside, rfl⟩ := mem_map.mp member
      rcases okReceived _ v inside with before | ⟨equal, _⟩
      · exact mem_map_of_mem before
      · exact absurd equal other
  · refine alone_update inv.alone ?_
    intro j t' new owns'
    rcases keeps with none | keeps
    · rw [none] at new
      exact nomatch new
    · rw [keeps] at new
      cases new
      exact inv.alone i j t owns owns'
  · intro t' v member
    rcases okReceived t' v member with before | ⟨rfl, below, here⟩
    · exact inv.received t' v before
    · exact ⟨below, here⟩
  · intro t' member
    by_cases equal : t' = t
    · subst equal
      change _ ∨ (update s.cells (t' % cap) cell (t' % cap)).ticket = t' ∧
        (update s.cells (t' % cap) cell (t' % cap)).seq = word (t' + 1) ∧
        (update s.cells (t' % cap) cell (t' % cap)).unread = true ∧
        s.tickets[t']? = some (update s.cells (t' % cap) cell (t' % cap)).payload
      rw [update_self]
      exact same member
    · rcases inv.returned t' ((okReturned t' member).resolve_right equal) with gone | held
      · exact .inl (more t' gone)
      · refine .inr ?_
        have other : t' % cap ≠ t % cap := by
          intro both
          have serves := held.1
          rw [both, old] at serves
          exact equal serves.symm
        simp only [State.setCell, State.go, update_of_ne other]
        exact held

end Micron.Mpmc
