import Micron.Mpsc.Model

/-!
# Steps on the ring

One lemma for each step that writes to the ring, and one for those that only change the
phase of a party.
-/

set_option autoImplicit false

namespace Micron.Mpsc

open Micron.Lib List Function

theorem usize_of_lt {x : Nat} (small : x < 2 ^ 63) : usize x = x := by
  unfold usize
  omega

theorem signedDiff_of_lt {a b : Nat} (smallA : a < 2 ^ 63) (smallB : b < 2 ^ 63) :
    signedDiff a b = (a : Int) - b := by
  unfold signedDiff
  rw [Int.bmod_eq_of_le_mul_two (x := a) (by omega) (by omega),
    Int.bmod_eq_of_le_mul_two (x := b) (by omega) (by omega)]

variable {N : Nat} {s : State} {listed detached : List Nat}

/-- What the producers have after one of them went on. -/
theorem item_update_iff (i j : Nat) (p : Producer) (item : Item) :
    (update s.producers i p j).item? = some item ↔
      if j = i then p.item? = some item else (s.producers j).item? = some item := by
  by_cases same : j = i
  · rw [same, update_self, if_pos rfl]
  · rw [update_of_ne same, if_neg same]

theorem item_update_same {i : Nat} {p : Producer} (same : p.item? = (s.producers i).item?)
    (j : Nat) (item : Item) :
    (update s.producers i p j).item? = some item ↔ (s.producers j).item? = some item := by
  rw [item_update_iff]
  by_cases equal : j = i
  · rw [if_pos equal, same, equal]
  · rw [if_neg equal]

theorem Inv.go (inv : Inv N s listed detached) (i : Nat) {p : Producer}
    (same : p.item? = (s.producers i).item?) (ok : ProducerOk N s p) :
    Inv N (s.go i p) listed detached where
  ring := inv.ring
  producers := by
    intro j
    change ProducerOk N s (update s.producers i p j)
    by_cases equal : j = i
    · rw [equal, update_self]
      exact ok
    · rw [update_of_ne equal]
      exact inv.producers j
  owner := inv.owner
  linked := inv.linked
  nodup := inv.nodup
  places := by
    refine inv.places.congr ?_
    intro place item
    cases place with
    | producer j => exact item_update_same same j item
    | ring t => exact Iff.rfl
    | list => exact Iff.rfl
  counted := inv.counted

theorem Inv.own (inv : Inv N s listed detached) {o : Owner} {detached' : List Nat}
    (same : detached' = detached) (ok : OwnerOk N s detached' o) :
    Inv N { s with owner := o } listed detached' := by
  subst same
  exact ⟨inv.ring, inv.producers, ok, inv.linked, inv.nodup, inv.places, inv.counted⟩

section Ring

variable {cells : Nat → Cell} {tail head : Nat} {tickets fromRing : List Item}

theorem RingOk.seq_le (ring : RingOk N cells tail head tickets fromRing) {t : Nat} (low : head ≤ t)
    (high : t < head + N) : (cells (t % N)).seq ≤ head + N := by
  rcases lt_or_ge t tail with inside | outside
  · rcases ring.used t low inside with empty | ⟨filled, _⟩ <;> omega
  · rw [ring.free t outside high]
    omega

/-- The difference of two counters that have not come round is zero for equal ones only. -/
theorem eq_of_signedDiff {a b : Nat} (smallA : a < 2 ^ 63) (smallB : b < 2 ^ 63)
    (zero : signedDiff a b = 0) : a = b := by
  rw [signedDiff_of_lt smallA smallB] at zero
  omega

/-- The sequence number tells a producer that its ticket is free: with two cells or
more no ticket of the lap before can have left that number. -/
theorem RingOk.free_of_seq (ring : RingOk N cells tail head tickets fromRing) (two : 2 ≤ N)
    (small : tail + N < 2 ^ 63) (seq : signedDiff (cells (tail % N)).seq tail = 0) :
    tail < head + N := by
  by_contra full
  have lap : tail = head + N := by
    have := ring.room
    omega
  have cell : tail % N = head % N := by rw [lap, Nat.add_mod_right]
  rw [cell] at seq
  have bound := ring.seq_le (le_refl head) (by omega)
  have equal := eq_of_signedDiff (by omega) (by omega) seq
  rcases ring.used head (le_refl _) (by omega) with empty | ⟨filled, _⟩ <;> omega

/-- The sequence number tells the owner that the next ticket is filled. -/
theorem RingOk.head_lt_of_seq (ring : RingOk N cells tail head tickets fromRing) (two : 2 ≤ N)
    (small : tail + N < 2 ^ 63) (seq : signedDiff (cells (head % N)).seq (head + 1) = 0) :
    head < tail ∧ (cells (head % N)).seq = head + 1 := by
  have le := ring.le
  have bound := ring.seq_le (le_refl head) (by omega)
  have equal := eq_of_signedDiff (by omega) (by omega) seq
  refine ⟨?_, equal⟩
  by_contra empty
  have := ring.free head (by omega) (by omega)
  omega

theorem RingOk.write (ring : RingOk N cells tail head tickets fromRing) {t : Nat} {c : Cell}
    (low : head ≤ t) (high : t < tail)
    (cell : c.seq = t ∨ c.seq = t + 1 ∧ tickets[t]? = some c.payload) :
    RingOk N (update cells (t % N) c) tail head tickets fromRing := by
  have room := ring.room
  refine ⟨ring.counted, ring.le, ring.room, ring.order, ?_, ?_⟩
  · intro k lowK highK
    by_cases same : k % N = t % N
    · have equal := eq_of_mod_eq lowK (by omega) low (by omega) same
      rw [same, update_self, equal]
      exact cell
    · rw [update_of_ne same]
      exact ring.used k lowK highK
  · intro k lowK highK
    rw [update_of_ne]
    · exact ring.free k lowK highK
    · intro same
      have equal := eq_of_mod_eq (by omega) highK low (by omega) same
      omega

/-- The owner gives the next cell to the ticket of the next lap. -/
theorem RingOk.retire (ring : RingOk N cells tail head tickets fromRing) {c : Cell} {item : Item}
    (inside : head < tail) (ticket : tickets[head]? = some item) (cell : c.seq = head + N) :
    RingOk N (update cells (head % N) c) tail (head + 1) tickets (fromRing ++ [item]) := by
  have room := ring.room
  refine ⟨ring.counted, inside, le_trans room (by omega), ?_, ?_, ?_⟩
  · rw [take_add_one, ticket, ring.order]
    rfl
  · intro k low high
    rw [update_of_ne]
    · exact ring.used k (by omega) high
    · intro same
      have equal := eq_of_mod_eq (a := head) (by omega) (by omega) (le_refl _) (by omega) same
      omega
  · intro k low high
    by_cases same : k % N = head % N
    · have lap : k = head + N := by
        refine eq_of_mod_eq (a := head + 1) (by omega) (by omega) (by omega) (by omega) ?_
        rw [same, Nat.add_mod_right]
      rw [same, update_self, cell, lap]
    · rw [update_of_ne same]
      refine ring.free k low ?_
      by_contra far
      have lap : k = head + N := by omega
      exact same (by rw [lap, Nat.add_mod_right])

end Ring

theorem Inv.ticket_owner (inv : Inv N s listed detached) {i j : Nat} {item : Item}
    (mine : (s.producers i).item? = some item) (other : (s.producers j).item? = some item) :
    j = i := by
  have same := inv.places.unique (.producer j) (.producer i) item item other mine rfl
  exact Place.producer.inj same

theorem Inv.ne_of_elsewhere (inv : Inv N s listed detached) {i : Nat} {item other : Item}
    (mine : (s.producers i).item? = some item) (place : Place)
    (at_ : At N s (listed ++ detached) place other) (differ : place ≠ .producer i) :
    other.1 ≠ item.1 :=
  inv.places.ne_of_place_ne place (.producer i) at_ mine differ

/-- What the producers have after one of them got rid of its block. -/
theorem Inv.item_update_idle (inv : Inv N s listed detached) {i : Nat} {item : Item}
    (mine : (s.producers i).item? = some item) (j : Nat) (other : Item) :
    (update s.producers i .idle j).item? = some other ↔
      (s.producers j).item? = some other ∧ other.1 ≠ item.1 := by
  rw [item_update_iff]
  by_cases equal : j = i
  · rw [if_pos equal, equal, mine]
    constructor
    · exact fun absent => nomatch absent
    · intro held
      exact absurd (congrArg Prod.fst (Option.some.inj held.1)).symm held.2
  · rw [if_neg equal]
    constructor
    · intro held
      exact ⟨held, inv.ne_of_elsewhere mine (.producer j) held
        (fun same => equal (Place.producer.inj same))⟩
    · exact fun held => held.1

theorem Inv.claim (inv : Inv N s listed detached) {i t : Nat} {item : Item}
    (phase : s.producers i = .claim item t) (isTail : s.tail = t) (small : t + 1 < 2 ^ 63) :
    Inv N { s.go i (.fill item t) with tail := usize (t + 1), tickets := s.tickets ++ [item] }
      listed detached := by
  have ok := inv.producers i
  rw [phase] at ok
  have below : t < s.head + N := ok.2 isTail
  have length : s.tickets.length = t := by rw [← inv.ring.counted, isTail]
  have kept : ∀ k : Nat, k < s.tail → (s.tickets ++ [item])[k]? = s.tickets[k]? := by
    intro k inside
    exact getElem?_append_left (by omega)
  have new : (s.tickets ++ [item])[t]? = some item := by
    rw [← length, getElem?_concat_length]
  have seq : (s.cells (t % N)).seq = t := inv.ring.free t (by omega) below
  rw [usize_of_lt small]
  have head : s.head ≤ t := isTail ▸ inv.ring.le
  refine ⟨⟨?_, ?_, ?_, ?_, ?_, ?_⟩, ?_, ?_, inv.linked, inv.nodup, ?_, inv.counted⟩
  · simp only [length_append, length_singleton, length]
  · exact Nat.le_succ_of_le head
  · exact below
  · change s.fromRing = (s.tickets ++ [item]).take s.head
    rw [take_append_of_le_length (by omega)]
    exact inv.ring.order
  · intro k low high
    change k < t + 1 at high
    by_cases last : k = t
    · exact .inl (last ▸ seq)
    · change _ ∨ _ ∧ (s.tickets ++ [item])[k]? = _
      rw [kept k (by omega)]
      exact inv.ring.used k low (by omega)
  · intro k low high
    exact inv.ring.free k (by change t + 1 ≤ k at low; omega) high
  · intro j
    change ProducerOk N _ (update s.producers i (.fill item t) j)
    by_cases equal : j = i
    · rw [equal, update_self]
      exact ⟨head, Nat.lt_succ_self t, new, seq⟩
    · rw [update_of_ne equal]
      have old := inv.producers j
      generalize s.producers j = p at old ⊢
      cases p with
      | idle | loadTail _ | loadOvf _ | link _ _ => exact old
      | loadSeq _ k =>
        change k ≤ t + 1
        change k ≤ s.tail at old
        omega
      | claim _ k =>
        obtain ⟨low, _⟩ := old
        exact ⟨by change k ≤ t + 1; omega, fun equal => by change t + 1 = k at equal; omega⟩
      | fill other k =>
        obtain ⟨low, high, ticket, mark⟩ := old
        exact ⟨low, by change k < t + 1; omega, (kept k high).trans ticket, mark⟩
      | publish other k =>
        obtain ⟨low, high, ticket, mark⟩ := old
        exact ⟨low, by change k < t + 1; omega, (kept k high).trans ticket, mark⟩
  · have old := inv.owner
    change OwnerOk N _ detached s.owner
    generalize s.owner = o at old ⊢
    cases o with
    | idle | poll | checkOvf | swapOvf | walk _ => exact old
    | take | retire _ =>
      refine ⟨old.1, ?_, old.2.2⟩
      change s.head < t + 1
      omega
  · refine inv.places.congr ?_
    intro place other
    cases place with
    | producer j =>
      refine item_update_same ?_ j other
      rw [phase]
      rfl
    | ring k =>
      change (s.head ≤ k ∧ k < t + 1 ∧ (s.tickets ++ [item])[k]? = some other ∧
        (s.cells (k % N)).seq = k + 1) ↔ Filled N s k other
      constructor
      · intro filled
        obtain ⟨low, high, ticket, mark⟩ := filled
        have inside : k < s.tail := by
          rcases lt_or_ge k t with less | more
          · omega
          · have equal : k = t := by omega
            rw [equal, seq] at mark
            omega
        exact ⟨low, inside, (kept k inside).symm.trans ticket, mark⟩
      · intro filled
        obtain ⟨low, high, ticket, mark⟩ := filled
        exact ⟨low, by omega, (kept k high).trans ticket, mark⟩
    | list => exact Iff.rfl

/-- A producer that took a ticket and has not published its cell. -/
structure Holds (N : Nat) (s : State) (i : Nat) (item : Item) (t : Nat) : Prop where
  low : s.head ≤ t
  high : t < s.tail
  ticket : s.tickets[t]? = some item
  seq : (s.cells (t % N)).seq = t
  mine : (s.producers i).item? = some item

theorem Inv.others (inv : Inv N s listed detached) {i t : Nat} {item : Item}
    (holds : Holds N s i item t) (c : Cell) {j : Nat} (differ : j ≠ i) :
    ProducerOk N (s.setCell (t % N) c) (s.producers j) := by
  have room := inv.ring.room
  have high := holds.high
  have apart : ∀ (other : Item) (k : Nat), (s.producers j).item? = some other →
      s.head ≤ k → k < s.tail → s.tickets[k]? = some other → k % N ≠ t % N := by
    intro other k held lowK highK ticket same
    have equal := eq_of_mod_eq lowK (by omega) holds.low (by omega) same
    rw [equal, holds.ticket] at ticket
    rw [← Option.some.inj ticket] at held
    exact differ (inv.ticket_owner holds.mine held)
  have old := inv.producers j
  generalize s.producers j = p at old apart ⊢
  cases p with
  | idle | loadTail _ | loadOvf _ | link _ _ | loadSeq _ _ | claim _ _ => exact old
  | fill other k =>
    obtain ⟨lowK, highK, ticket, mark⟩ := old
    refine ⟨lowK, highK, ticket, ?_⟩
    change (update s.cells (t % N) c (k % N)).seq = k
    rw [update_of_ne (apart other k rfl lowK highK ticket)]
    exact mark
  | publish other k =>
    obtain ⟨lowK, highK, ticket, mark⟩ := old
    refine ⟨lowK, highK, ticket, ?_⟩
    change (update s.cells (t % N) c (k % N)).seq = k ∧
      (update s.cells (t % N) c (k % N)).payload = other
    rw [update_of_ne (apart other k rfl lowK highK ticket)]
    exact mark

theorem Inv.owner_apart (inv : Inv N s listed detached) {i t : Nat} {item : Item}
    (holds : Holds N s i item t) (c : Cell) :
    OwnerOk N (s.setCell (t % N) c) detached s.owner := by
  have room := inv.ring.room
  have high := holds.high
  have apart : s.head < s.tail → (s.cells (s.head % N)).seq = s.head + 1 →
      s.head % N ≠ t % N := by
    intro inside mark same
    have equal := eq_of_mod_eq (le_refl _) (by omega) holds.low (by omega) same
    have := holds.seq
    rw [← equal] at this
    omega
  have old := inv.owner
  generalize s.owner = o at old ⊢
  cases o with
  | idle | poll | checkOvf | swapOvf | walk _ => exact old
  | take =>
    obtain ⟨nothing, inside, mark⟩ := old
    refine ⟨nothing, inside, ?_⟩
    change (update s.cells (t % N) c (s.head % N)).seq = _
    rw [update_of_ne (apart inside mark)]
    exact mark
  | retire other =>
    obtain ⟨nothing, inside, mark, payload⟩ := old
    refine ⟨nothing, inside, ?_⟩
    change (update s.cells (t % N) c (s.head % N)).seq = _ ∧
      (update s.cells (t % N) c (s.head % N)).payload = _
    rw [update_of_ne (apart inside mark)]
    exact ⟨mark, payload⟩

theorem Inv.filled_setCell (inv : Inv N s listed detached) {i t : Nat} {item : Item}
    (holds : Holds N s i item t) (c : Cell) (k : Nat) (other : Item) :
    Filled N (s.setCell (t % N) c) k other ↔
      Filled N s k other ∨ c.seq = t + 1 ∧ k = t ∧ other = item := by
  have room := inv.ring.room
  have high := holds.high
  constructor
  · intro filled
    obtain ⟨lowK, highK, ticket, mark⟩ := filled
    change s.head ≤ k at lowK
    change k < s.tail at highK
    change (update s.cells (t % N) c (k % N)).seq = k + 1 at mark
    by_cases same : k % N = t % N
    · have equal := eq_of_mod_eq lowK (by omega) holds.low (by omega) same
      rw [same, update_self, equal] at mark
      change s.tickets[k]? = some other at ticket
      rw [equal, holds.ticket] at ticket
      exact .inr ⟨mark, equal, (Option.some.inj ticket).symm⟩
    · rw [update_of_ne same] at mark
      exact .inl ⟨lowK, highK, ticket, mark⟩
  · intro filled
    rcases filled with ⟨lowK, highK, ticket, mark⟩ | ⟨mark, rfl, rfl⟩
    · refine ⟨lowK, highK, ticket, ?_⟩
      change (update s.cells (t % N) c (k % N)).seq = k + 1
      rw [update_of_ne]
      · exact mark
      · intro same
        have equal := eq_of_mod_eq lowK (by omega) holds.low (by omega) same
        have := holds.seq
        rw [← equal] at this
        omega
    · refine ⟨holds.low, holds.high, holds.ticket, ?_⟩
      change (update s.cells (k % N) c (k % N)).seq = k + 1
      rw [update_self]
      exact mark

/-- What the producers know after one of them wrote to its cell. -/
theorem Inv.producers_setCell (inv : Inv N s listed detached) {i t : Nat} {item : Item}
    (holds : Holds N s i item t) (c : Cell) {p : Producer}
    (ok : ProducerOk N (s.setCell (t % N) c) p) (j : Nat) :
    ProducerOk N (s.setCell (t % N) c) (update s.producers i p j) := by
  by_cases equal : j = i
  · rw [equal, update_self]
    exact ok
  · rw [update_of_ne equal]
    exact inv.others holds c equal

theorem Inv.fill (inv : Inv N s listed detached) {i t : Nat} {item : Item}
    (phase : s.producers i = .fill item t) :
    Inv N ((s.setCell (t % N) { s.cells (t % N) with payload := item }).go i (.publish item t))
      listed detached := by
  have ok := inv.producers i
  rw [phase] at ok
  obtain ⟨low, high, ticket, seq⟩ := ok
  have holds : Holds N s i item t := ⟨low, high, ticket, seq, by rw [phase]; rfl⟩
  refine ⟨inv.ring.write low high (.inl seq), ?_, inv.owner_apart holds _, inv.linked, inv.nodup, ?_,
    inv.counted⟩
  · refine inv.producers_setCell holds _ ⟨low, high, ticket, ?_⟩
    change (update s.cells (t % N) _ (t % N)).seq = t ∧
      (update s.cells (t % N) _ (t % N)).payload = item
    rw [update_self]
    exact ⟨seq, rfl⟩
  · refine inv.places.congr ?_
    intro place other
    cases place with
    | producer j =>
      refine item_update_same (s := s) ?_ j other
      rw [phase]
      rfl
    | ring k =>
      refine (inv.filled_setCell holds _ k other).trans ?_
      constructor
      · intro filled
        rcases filled with old | ⟨mark, _⟩
        · exact old
        · change (s.cells (t % N)).seq = t + 1 at mark
          omega
      · exact .inl
    | list => exact Iff.rfl

theorem Inv.publish (inv : Inv N s listed detached) {i t : Nat} {item : Item}
    (phase : s.producers i = .publish item t) (small : t + 1 < 2 ^ 63) :
    Inv N ((s.setCell (t % N) { s.cells (t % N) with seq := usize (t + 1) }).go i .idle)
      listed detached := by
  have ok := inv.producers i
  rw [phase] at ok
  obtain ⟨low, high, ticket, seq, payload⟩ := ok
  have holds : Holds N s i item t := ⟨low, high, ticket, seq, by rw [phase]; rfl⟩
  rw [usize_of_lt small]
  refine ⟨inv.ring.write low high (.inr ⟨rfl, by rw [ticket, ← payload]⟩), ?_,
    inv.owner_apart holds _, inv.linked, inv.nodup, ?_, inv.counted⟩
  · exact inv.producers_setCell holds _ trivial
  · refine inv.places.move (.producer i) (.ring t) item holds.mine ?_
    intro place other
    cases place with
    | producer j =>
      refine (inv.item_update_idle holds.mine j other).trans ?_
      exact (or_iff_left (fun wrong => nomatch wrong.1)).symm
    | ring k =>
      refine (inv.filled_setCell holds _ k other).trans ?_
      constructor
      · intro filled
        rcases filled with old | ⟨_, rfl, rfl⟩
        · exact .inl ⟨old, inv.ne_of_elsewhere holds.mine (.ring k) old (fun wrong => nomatch wrong)⟩
        · exact .inr ⟨rfl, rfl⟩
      · intro filled
        rcases filled with ⟨old, _⟩ | ⟨here, rfl⟩
        · exact .inl old
        · exact .inr ⟨rfl, Place.ring.inj here, rfl⟩
    | list =>
      constructor
      · intro inside
        exact .inl ⟨inside, inv.ne_of_elsewhere holds.mine .list inside (fun wrong => nomatch wrong)⟩
      · intro inside
        rcases inside with ⟨inside, _⟩ | ⟨wrong, _⟩
        · exact inside
        · exact nomatch wrong

theorem count_of_same {item other : Item} (same : other.1 = item.1) :
    [item].count other = if some item.2 = some other.2 then 1 else 0 := by
  obtain ⟨key, size⟩ := item
  obtain ⟨_, size'⟩ := other
  subst same
  simp [count_singleton]

theorem count_of_ne {item other : Item} (differ : other.1 ≠ item.1) : [item].count other = 0 :=
  count_eq_zero.mpr fun inside => differ (by rw [mem_singleton.mp inside])

/-- A block that is released was pushed once more often than it was released before. -/
theorem counted_release {item : Item} (isPending : s.pending item.1 = some item.2)
    (counted : ∀ other : Item, s.pushed.count other =
      s.released.count other + if s.pending other.1 = some other.2 then 1 else 0)
    (other : Item) :
    s.pushed.count other = (s.released ++ [item]).count other +
      if update s.pending item.1 none other.1 = some other.2 then 1 else 0 := by
  rw [counted other, count_append]
  by_cases same : other.1 = item.1
  · rw [count_of_same same, same, update_self, isPending]
    simp
  · rw [count_of_ne same, update_of_ne same]
    rfl

theorem Inv.retire (inv : Inv N s listed detached) {item : Item} (phase : s.owner = .retire item)
    (small : s.tail + N < 2 ^ 63) : Inv N (stepOwner N s) listed detached := by
  have ok := inv.owner
  rw [phase] at ok
  obtain ⟨nothing, inside, mark, payload⟩ := ok
  have room := inv.ring.room
  have ticket : s.tickets[s.head]? = some item := by
    rcases inv.ring.used s.head (le_refl _) inside with empty | ⟨_, found⟩
    · omega
    · rw [found, payload]
  have filled : Filled N s s.head item := ⟨le_refl _, inside, ticket, mark⟩
  have isPending := inv.places.valued (.ring s.head) item filled
  have next : usize (s.head + 1) = s.head + 1 := usize_of_lt (by omega)
  have lap : usize (s.head + N) = s.head + N := usize_of_lt (by omega)
  have apart : ∀ k : Nat, s.head < k → k < s.tail → k % N ≠ s.head % N := by
    intro k low high same
    have equal := eq_of_mod_eq (a := s.head) (by omega) (by omega) (le_refl _) (by omega) same
    omega
  have later : ∀ k : Nat, s.head ≤ k → (s.cells (k % N)).seq = k → s.head < k := by
    intro k low markK
    rcases eq_or_lt_of_le low with equal | less
    · rw [← equal] at markK
      omega
    · exact less
  unfold stepOwner
  rw [phase]
  rw [next, lap]
  refine ⟨inv.ring.retire inside ticket rfl, ?_, nothing, inv.linked, inv.nodup, ?_,
    counted_release isPending inv.counted⟩
  · intro j
    have old := inv.producers j
    change ProducerOk N _ (s.producers j)
    generalize s.producers j = p at old ⊢
    cases p with
    | idle | loadTail _ | loadOvf _ | link _ _ | loadSeq _ _ => exact old
    | claim _ k =>
      refine ⟨old.1, fun isTail => ?_⟩
      have := old.2 isTail
      change k < s.head + 1 + N
      omega
    | fill other k =>
      obtain ⟨low, high, ticketK, markK⟩ := old
      have later := later k low markK
      refine ⟨later, high, ticketK, ?_⟩
      change (update s.cells (s.head % N) _ (k % N)).seq = k
      rw [update_of_ne (apart k later high)]
      exact markK
    | publish other k =>
      obtain ⟨low, high, ticketK, markK⟩ := old
      have later := later k low markK.1
      refine ⟨later, high, ticketK, ?_⟩
      change (update s.cells (s.head % N) _ (k % N)).seq = k ∧
        (update s.cells (s.head % N) _ (k % N)).payload = other
      rw [update_of_ne (apart k later high)]
      exact markK
  · refine inv.places.remove item.1 ?_
    intro place other
    have elsewhere : At N s (listed ++ detached) place other → place ≠ .ring s.head →
        other.1 ≠ item.1 :=
      fun at_ differ => inv.places.ne_of_place_ne place (.ring s.head) at_ filled differ
    cases place with
    | producer j =>
      exact ⟨fun held => ⟨held, elsewhere held nofun⟩, fun held => held.1⟩
    | ring k =>
      constructor
      · intro filledK
        obtain ⟨low, high, ticketK, markK⟩ := filledK
        change (update s.cells (s.head % N) _ (k % N)).seq = k + 1 at markK
        rw [update_of_ne (apart k low high)] at markK
        have old : Filled N s k other := ⟨le_of_lt low, high, ticketK, markK⟩
        refine ⟨old, elsewhere old ?_⟩
        intro same
        exact absurd (Place.ring.inj same) (ne_of_gt low)
      · intro filledK
        obtain ⟨⟨low, high, ticketK, markK⟩, differ⟩ := filledK
        have later : s.head < k := by
          rcases eq_or_lt_of_le low with equal | less
          · rw [← equal, ticket] at ticketK
            exact absurd (congrArg Prod.fst (Option.some.inj ticketK)).symm differ
          · exact less
        refine ⟨later, high, ticketK, ?_⟩
        change (update s.cells (s.head % N) _ (k % N)).seq = k + 1
        rw [update_of_ne (apart k later high)]
        exact markK
    | list =>
      exact ⟨fun held => ⟨held, elsewhere held nofun⟩, fun held => held.1⟩

end Micron.Mpsc
