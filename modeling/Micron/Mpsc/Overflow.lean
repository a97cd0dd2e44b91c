import Micron.Mpsc.Ring

/-!
# Steps on the overflow list

The list and the part that the owner detached are made of blocks that no producer has,
so that a producer may write to its own.
-/

set_option autoImplicit false

namespace Micron.Mpsc

open Micron.Lib List Function

variable {N : Nat} {s : State} {listed detached : List Nat}

/-- A block that is in no list may be written to; a producer that is to link it has its
size there. -/
theorem Inv.setNode (inv : Inv N s listed detached) {p : Nat} {nd : OvfNode}
    (outside : p ∉ listed ++ detached)
    (size : ∀ i item head, s.producers i = .link item head → item.1 = p → nd.sz = item.2) :
    Inv N (s.setNode p nd) listed detached := by
  have same : ∀ q ∈ listed ++ detached, (s.setNode p nd).nodes q = s.nodes q := by
    intro q inside
    refine update_of_ne ?_ nd s.nodes
    intro equal
    exact outside (equal ▸ inside)
  refine ⟨inv.ring, ?_, ?_, ?_, inv.nodup, ?_, inv.counted⟩
  · intro j
    have old := inv.producers j
    have sizeJ := size j
    change ProducerOk N _ (s.producers j)
    generalize s.producers j = q at old sizeJ ⊢
    cases q with
    | idle | loadTail _ | loadOvf _ | loadSeq _ _ | claim _ _ | fill _ _ | publish _ _ => exact old
    | link item head =>
      change (update s.nodes p nd item.1).sz = item.2
      by_cases equal : item.1 = p
      · rw [equal, update_self]
        exact sizeJ item head rfl equal
      · rw [update_of_ne equal]
        exact old
  · have old := inv.owner
    change OwnerOk N _ detached s.owner
    generalize s.owner = o at old ⊢
    cases o with
    | idle | poll | checkOvf | swapOvf | take | retire _ => exact old
    | walk q =>
      exact Linked.congr old fun r inside => same r (mem_append_right listed inside)
  · exact inv.linked.congr fun r inside => same r (mem_append_left detached inside)
  · refine inv.places.congr ?_
    intro place item
    cases place with
    | producer j => exact Iff.rfl
    | ring t => exact Iff.rfl
    | list =>
      refine and_congr_right ?_
      intro inside
      rw [same item.1 inside]

theorem Inv.not_mem_of_unknown (inv : Inv N s listed detached) {p : Nat}
    (unknown : s.pending p = none) : p ∉ listed ++ detached := by
  intro inside
  have listedAt : At N s (listed ++ detached) .list (p, (s.nodes p).sz) := ⟨inside, rfl⟩
  exact inv.places.ne_of_unknown unknown listedAt rfl

theorem Inv.not_mem_of_mine (inv : Inv N s listed detached) {i : Nat} {item : Item}
    (mine : (s.producers i).item? = some item) : item.1 ∉ listed ++ detached := by
  intro inside
  have listedAt : At N s (listed ++ detached) .list (item.1, (s.nodes item.1).sz) := ⟨inside, rfl⟩
  exact inv.ne_of_elsewhere mine .list listedAt nofun rfl

/-- Only the producer that has a block can be about to link it. -/
theorem Inv.linker (inv : Inv N s listed detached) {i j : Nat} {item other : Item}
    {head : Option Nat} (mine : (s.producers i).item? = some item)
    (phase : s.producers j = .link other head) (same : other.1 = item.1) : j = i := by
  by_contra differ
  have held : (s.producers j).item? = some other := by rw [phase]; rfl
  exact inv.ne_of_elsewhere mine (.producer j) held (fun equal => differ (Place.producer.inj equal)) same

theorem Inv.write (inv : Inv N s listed detached) {p : Nat} (unknown : s.pending p = none)
    (nd : OvfNode) : Inv N (s.setNode p nd) listed detached := by
  refine inv.setNode (inv.not_mem_of_unknown unknown) ?_
  intro i item head phase same
  have held : At N s (listed ++ detached) (.producer i) item := by
    change (s.producers i).item? = some item
    rw [phase]
    rfl
  exact absurd same (inv.places.ne_of_unknown unknown held)

theorem Inv.loadOvf (inv : Inv N s listed detached) {i : Nat} {item : Item}
    (phase : s.producers i = .loadOvf item) :
    Inv N ((s.setNode item.1 { s.nodes item.1 with sz := item.2 }).go i (.link item s.ovf))
      listed detached := by
  have mine : (s.producers i).item? = some item := by rw [phase]; rfl
  have written : Inv N (s.setNode item.1 { s.nodes item.1 with sz := item.2 }) listed detached := by
    refine inv.setNode (inv.not_mem_of_mine mine) ?_
    intro j other head phaseJ same
    have equal := inv.linker mine phaseJ same
    rw [equal, phase] at phaseJ
    exact nomatch phaseJ
  refine written.go i ?_ ?_
  · change _ = (s.producers i).item?
    rw [mine]
    rfl
  · change (update s.nodes item.1 _ item.1).sz = item.2
    rw [update_self]

theorem Inv.setNext (inv : Inv N s listed detached) {i : Nat} {item : Item} {head : Option Nat}
    (phase : s.producers i = .link item head) :
    Inv N (s.setNode item.1 { s.nodes item.1 with next := head }) listed detached := by
  have mine : (s.producers i).item? = some item := by rw [phase]; rfl
  refine inv.setNode (inv.not_mem_of_mine mine) ?_
  intro j other headJ phaseJ same
  have ok := inv.producers j
  rw [phaseJ] at ok
  rw [← ok, same]

/-- A producer puts its block at the front of the list. -/
theorem Inv.link (inv : Inv N s listed detached) {i : Nat} {item : Item} {head : Option Nat}
    (phase : s.producers i = .link item head) (next : (s.nodes item.1).next = s.ovf) :
    Inv N { s.go i .idle with ovf := some item.1 } (item.1 :: listed) detached := by
  have mine : (s.producers i).item? = some item := by rw [phase]; rfl
  have size : (s.nodes item.1).sz = item.2 := by
    have ok := inv.producers i
    rw [phase] at ok
    exact ok
  refine ⟨inv.ring, ?_, inv.owner, ⟨rfl, ?_⟩, ?_, ?_, inv.counted⟩
  · intro j
    change ProducerOk N s (update s.producers i .idle j)
    by_cases equal : j = i
    · rw [equal, update_self]
      trivial
    · rw [update_of_ne equal]
      exact inv.producers j
  · change Linked s.nodes (s.nodes item.1).next listed
    rw [next]
    exact inv.linked
  · exact nodup_cons.mpr ⟨inv.not_mem_of_mine mine, inv.nodup⟩
  · refine inv.places.move (.producer i) .list item mine ?_
    intro place other
    cases place with
    | producer j =>
      refine (inv.item_update_idle mine j other).trans ?_
      exact (or_iff_left (fun wrong => nomatch wrong.1)).symm
    | ring k =>
      constructor
      · intro filled
        exact .inl ⟨filled, inv.ne_of_elsewhere mine (.ring k) filled (fun wrong => nomatch wrong)⟩
      · intro filled
        rcases filled with ⟨filled, _⟩ | ⟨wrong, _⟩
        · exact filled
        · exact nomatch wrong
    | list =>
      constructor
      · intro inside
        obtain ⟨inside, sizeO⟩ := inside
        change (s.nodes other.1).sz = other.2 at sizeO
        rcases mem_cons.mp inside with equal | inside
        · refine .inr ⟨rfl, Prod.ext equal ?_⟩
          rw [← sizeO, equal, size]
        · exact .inl ⟨⟨inside, sizeO⟩, inv.ne_of_elsewhere mine .list ⟨inside, sizeO⟩
            (fun wrong => nomatch wrong)⟩
      · intro inside
        rcases inside with ⟨⟨inside, sizeO⟩, _⟩ | ⟨_, rfl⟩
        · exact ⟨mem_cons_of_mem _ inside, sizeO⟩
        · exact ⟨mem_cons_self, size⟩

theorem Inv.push (inv : Inv N s listed detached) {i : Nat} {item : Item}
    (phase : s.producers i = .idle) (unknown : s.pending item.1 = none) :
    Inv N (step N s (.push i item)) listed detached := by
  refine ⟨inv.ring, ?_, inv.owner, inv.linked, inv.nodup, ?_, ?_⟩
  · intro j
    change ProducerOk N s (update s.producers i (.loadTail item) j)
    by_cases equal : j = i
    · rw [equal, update_self]
      trivial
    · rw [update_of_ne equal]
      exact inv.producers j
  · refine inv.places.put (.producer i) item ?_
    have fresh : ∀ place other, At N s (listed ++ detached) place other → other.1 ≠ item.1 :=
      fun place other at_ => inv.places.ne_of_unknown unknown at_
    intro place other
    cases place with
    | producer j =>
      refine (item_update_iff (s := s) i j (.loadTail item) other).trans ?_
      by_cases equal : j = i
      · rw [if_pos equal, equal]
        constructor
        · intro held
          exact .inr ⟨rfl, (Option.some.inj held).symm⟩
        · intro held
          rcases held with ⟨held, _⟩ | ⟨_, rfl⟩
          · change (s.producers i).item? = some other at held
            rw [phase] at held
            exact nomatch held
          · rfl
      · rw [if_neg equal]
        constructor
        · exact fun held => .inl ⟨held, fresh (.producer j) other held⟩
        · intro held
          rcases held with ⟨held, _⟩ | ⟨wrong, _⟩
          · exact held
          · exact absurd (Place.producer.inj wrong) equal
    | ring k =>
      constructor
      · exact fun filled => .inl ⟨filled, fresh (.ring k) other filled⟩
      · intro filled
        rcases filled with ⟨filled, _⟩ | ⟨wrong, _⟩
        · exact filled
        · exact nomatch wrong
    | list =>
      constructor
      · exact fun inside => .inl ⟨inside, fresh .list other inside⟩
      · intro inside
        rcases inside with ⟨inside, _⟩ | ⟨wrong, _⟩
        · exact inside
        · exact nomatch wrong
  · intro other
    change (s.pushed ++ [item]).count other = s.released.count other +
      if update s.pending item.1 (some item.2) other.1 = some other.2 then 1 else 0
    rw [count_append, inv.counted other]
    by_cases same : other.1 = item.1
    · rw [count_of_same same, same, update_self, unknown]
      simp
    · rw [count_of_ne same, update_of_ne same]
      rfl

/-! ## The owner -/

theorem Inv.swapOvf (inv : Inv N s listed detached) (phase : s.owner = .swapOvf) :
    Inv N { s with owner := .walk s.ovf, ovf := none } [] listed := by
  have nothing : detached = [] := by
    have ok := inv.owner
    rw [phase] at ok
    exact ok
  subst nothing
  have nodup := inv.nodup
  have places := inv.places
  rw [append_nil] at nodup places
  exact ⟨inv.ring, inv.producers, inv.linked, trivial, nodup, places, inv.counted⟩

/-- The owner releases the first of the blocks that it detached. -/
theorem Inv.walk (inv : Inv N s listed detached) {nd : Nat} (phase : s.owner = .walk (some nd)) :
    ∃ rest, Inv N (stepOwner N s) listed rest := by
  have ok := inv.owner
  rw [phase] at ok
  cases detached with
  | nil => exact ok.elim
  | cons first rest =>
    obtain ⟨rfl, more⟩ := ok
    have order : (nd :: (listed ++ rest)).Perm (listed ++ nd :: rest) := perm_middle.symm
    have nodup := nodup_cons.mp (order.nodup_iff.mpr inv.nodup)
    have here : At N s (listed ++ nd :: rest) .list (nd, (s.nodes nd).sz) :=
      ⟨order.mem_iff.mp mem_cons_self, rfl⟩
    refine ⟨rest, ?_⟩
    unfold stepOwner
    rw [phase]
    refine ⟨inv.ring, inv.producers, more, inv.linked, nodup.2, ?_,
      counted_release (inv.places.valued .list _ here) inv.counted⟩
    refine inv.places.remove nd ?_
    intro place other
    cases place with
    | producer j =>
      constructor
      · intro held
        exact ⟨held, inv.places.ne_of_place_ne (.producer j) .list held here
          nofun⟩
      · exact fun held => held.1
    | ring k =>
      constructor
      · intro filled
        exact ⟨filled, inv.places.ne_of_place_ne (.ring k) .list filled here
          nofun⟩
      · exact fun filled => filled.1
    | list =>
      constructor
      · intro inside
        obtain ⟨inside, size⟩ := inside
        refine ⟨⟨order.mem_iff.mp (mem_cons_of_mem nd inside), size⟩, ?_⟩
        intro same
        exact nodup.1 (same ▸ inside)
      · intro inside
        obtain ⟨⟨inside, size⟩, differ⟩ := inside
        refine ⟨?_, size⟩
        rcases mem_cons.mp (order.mem_iff.mpr inside) with equal | inside
        · exact absurd equal differ
        · exact inside

end Micron.Mpsc
