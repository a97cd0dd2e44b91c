import Micron.Robin.Insert

/-!
# Backward-shift deletion keeps the robin-hood invariant

Removing an entry leaves a hole.  `Hole` is the invariant of the shift loop:
the order of the table holds everywhere except across the hole, where the slot
after it exceeds the slot before it by at most two.  A shift moves the hole one
slot on, and the loop ends where closing the hole needs no shift.  A free slot
elsewhere in the table bounds the number of shifts.
-/

set_option autoImplicit false

namespace Micron.Robin

open Micron.Lib Function Nat

variable {K V : Type} {e : Nat} {hash : K → UInt64} {m : RobinMap K V} {M : K → Option V}

structure Hole (hash : K → UInt64) (e : Nat) (m : RobinMap K V) (M : K → Option V) (i : Nat) :
    Prop where
  layout : Layout hash e m
  held : Holds m.cell (2 ^ e) M
  counted : m.length = load m.cell (2 ^ e)
  below : i < 2 ^ e
  free : m.ctrl i = 0
  ordered : ∀ x, x < 2 ^ e → x ≠ i → m.ctrl ((x + 1) % 2 ^ e) ≤ m.ctrl x + 1
  across : ∀ x, x < 2 ^ e → (x + 1) % 2 ^ e = i → m.ctrl ((i + 1) % 2 ^ e) ≤ m.ctrl x + 2

theorem cell_destroyAt (i : Nat) : (m.destroyAt i).cell = update m.cell i none := by
  funext j
  by_cases same : j = i
  · subst same
    simp [RobinMap.cell, RobinMap.destroyAt]
  · simp [RobinMap.cell, RobinMap.destroyAt, update_of_ne same]

theorem Layout.destroyAt (lay : Layout hash e m) (i : Nat) : Layout hash e (m.destroyAt i) := by
  refine ⟨lay.slots, lay.masked, ?_, ?_, ?_, ?_⟩
  · intro j belowJ
    by_cases same : j = i
    · subst same
      simp [RobinMap.destroyAt]
    · simp only [RobinMap.destroyAt, update_of_ne same]
      exact lay.ctrl_le j belowJ
  · intro j belowJ
    by_cases same : j = i
    · subst same
      simp [RobinMap.destroyAt]
    · simp only [RobinMap.destroyAt, update_of_ne same]
      exact lay.built j belowJ
  · intro j nd belowJ at_j
    by_cases same : j = i
    · subst same
      simp [RobinMap.destroyAt] at at_j
    · simp only [RobinMap.destroyAt, update_of_ne same] at at_j
      exact lay.hashed j nd belowJ at_j
  · intro j nd belowJ at_j
    by_cases same : j = i
    · subst same
      simp [RobinMap.destroyAt] at at_j
    · simp only [RobinMap.destroyAt, update_of_ne same] at at_j ⊢
      exact lay.placed j nd belowJ at_j

theorem Inv.destroyAt [DecidableEq K] (inv : Inv hash e m M) (big : 1 ≤ e) {i : Nat}
    {nd : Node K V} (below : i < 2 ^ e) (at_i : m.node i = some nd) :
    Hole hash e { m.destroyAt i with length := m.length - 1 }
      (update M nd.key none) i := by
  have two := two_le_two_pow big
  have lay := inv.layout.destroyAt i
  have atCell := cell_of_node at_i
  have held := inv.held.erase below atCell
  rw [← cell_destroyAt] at held
  refine ⟨⟨lay.slots, lay.masked, lay.ctrl_le, lay.built, lay.hashed, lay.placed⟩, held, ?_,
    below, ?_, ?_, ?_⟩
  · have freed := load_update_free below (show (m.cell i).isSome by rw [atCell]; rfl)
    have counted := inv.counted
    change m.length - 1 = load (m.destroyAt i).cell (2 ^ e)
    rw [cell_destroyAt]
    omega
  · simp [RobinMap.destroyAt]
  · intro x belowX other
    simp only [RobinMap.destroyAt, update_of_ne other]
    by_cases atNext : (x + 1) % 2 ^ e = i
    · rw [atNext, update_self]
      omega
    · rw [update_of_ne atNext]
      exact inv.ordered x belowX
  · intro x belowX atNext
    have other : x ≠ i := by
      rintro rfl
      exact succ_mod_ne belowX two atNext
    have first := inv.ordered x belowX
    have second := inv.ordered i below
    rw [atNext] at first
    simp only [RobinMap.destroyAt, update_of_ne other,
      update_of_ne (succ_mod_ne below two)]
    omega

/-- One pass of the shift loop: the entry after the hole moves into it. -/
def RobinMap.shiftInto (m : RobinMap K V) (i : Nat) : RobinMap K V :=
  { m with
    ctrl := update (update m.ctrl i (encodeDist (m.storedDist (m.next i) - 1)))
      (m.next i) 0
    node := update (update m.node i (m.node (m.next i))) (m.next i) none }

theorem backwardShift_stop (fuel i : Nat) (stop : m.ctrl (m.next i) ≤ 1) :
    backwardShift fuel m i = m := by
  cases fuel with
  | zero => rfl
  | succ fuel =>
    rw [backwardShift]
    have ends : (!m.occupied (m.next i) || m.storedDist (m.next i) == 0) = true := by
      simp only [RobinMap.occupied, RobinMap.storedDist]
      rcases le_one_iff_eq_zero_or_eq_one.mp stop with zero | one
      · simp [zero]
      · simp [one]
    simp only [ends, if_true]

theorem backwardShift_length (fuel : Nat) :
    ∀ (m : RobinMap K V) (i : Nat), (backwardShift fuel m i).length = m.length := by
  induction fuel with
  | zero =>
    intro m i
    rfl
  | succ fuel ih =>
    intro m i
    rw [backwardShift]
    split
    · rfl
    · exact ih _ _

theorem backwardShift_shift (fuel i : Nat) (more : 1 < m.ctrl (m.next i)) :
    backwardShift (fuel + 1) m i = backwardShift fuel (m.shiftInto i) (m.next i) := by
  rw [backwardShift]
  have goes : (!m.occupied (m.next i) || m.storedDist (m.next i) == 0) = false := by
    simp only [RobinMap.occupied, RobinMap.storedDist, Bool.or_eq_false_iff,
      Bool.not_eq_false', bne_iff_ne, beq_eq_false_iff_ne]
    omega
  simp only [goes, Bool.false_eq_true, if_false]
  rfl

section Shift
variable {i : Nat}

theorem Hole.next_lt (hole : Hole hash e m M i) : m.next i < 2 ^ e := by
  rw [hole.layout.next_eq]
  exact Nat.mod_lt _ (Nat.two_pow_pos e)

theorem Hole.ne_next (hole : Hole hash e m M i) (big : 1 ≤ e) : i ≠ m.next i := by
  rw [hole.layout.next_eq]
  exact (succ_mod_ne hole.below (two_le_two_pow big)).symm

theorem Hole.cell_free (hole : Hole hash e m M i) : m.cell i = none := by
  rw [RobinMap.cell, hole.layout.node_none hole.below hole.free]
  rfl

theorem cell_shiftInto {nd : Node K V} (at_next : m.node (m.next i) = some nd) :
    (m.shiftInto i).cell = update (update m.cell i
      (some (nd.key, nd.value))) (m.next i) none := by
  funext j
  by_cases atNext : j = m.next i
  · subst atNext
    simp [RobinMap.cell, RobinMap.shiftInto]
  · by_cases atI : j = i
    · subst atI
      simp [RobinMap.cell, RobinMap.shiftInto, update_of_ne atNext, at_next]
    · simp [RobinMap.cell, RobinMap.shiftInto, update_of_ne atNext,
        update_of_ne atI]

/-- The slots of the shifted table: the hole is at the next slot, the moved
entry lost one from its distance, and nothing else changed. -/
theorem Hole.shifted_ctrl (hole : Hole hash e m M i) (big : 1 ≤ e)
    (more : 1 < m.ctrl (m.next i)) :
    (m.shiftInto i).ctrl (m.next i) = 0 ∧
      (m.shiftInto i).ctrl i = m.ctrl (m.next i) - 1 ∧
      ∀ j, j ≠ i → j ≠ m.next i → (m.shiftInto i).ctrl j = m.ctrl j := by
  have nextBelow := hole.next_lt
  have distinct := hole.ne_next big
  have byte := hole.layout.ctrl_le (m.next i) nextBelow
  refine ⟨by simp [RobinMap.shiftInto], ?_, ?_⟩
  · simp only [RobinMap.shiftInto, update_of_ne distinct, update_self,
      RobinMap.storedDist]
    rw [encodeDist, if_neg (by omega)]
    omega
  · intro j other otherNext
    simp [RobinMap.shiftInto, update_of_ne other, update_of_ne otherNext]

theorem Hole.layout_shift (hole : Hole hash e m M i) (big : 1 ≤ e)
    (more : 1 < m.ctrl (m.next i)) : Layout hash e (m.shiftInto i) := by
  have nextEq := hole.layout.next_eq i
  have nextBelow := hole.next_lt
  have distinct := hole.ne_next big
  obtain ⟨atNext, atI, elsewhere⟩ := hole.shifted_ctrl big more
  obtain ⟨nd, at_next⟩ := hole.layout.node_of_ctrl nextBelow (by omega)
  have byte := hole.layout.ctrl_le (m.next i) nextBelow
  have nodeNext : (m.shiftInto i).node (m.next i) = none := by simp [RobinMap.shiftInto]
  have nodeI : (m.shiftInto i).node i = some nd := by
    simp [RobinMap.shiftInto, update_of_ne distinct, at_next]
  have nodeElse : ∀ j, j ≠ i → j ≠ m.next i → (m.shiftInto i).node j = m.node j := by
    intro j other otherNext
    simp [RobinMap.shiftInto, update_of_ne other, update_of_ne otherNext]
  refine ⟨hole.layout.slots, hole.layout.masked, ?_, ?_, ?_, ?_⟩
  · intro j belowJ
    by_cases isNext : j = m.next i
    · rw [isNext, atNext]
      omega
    · by_cases isI : j = i
      · rw [isI, atI]
        omega
      · rw [elsewhere j isI isNext]
        exact hole.layout.ctrl_le j belowJ
  · intro j belowJ
    by_cases isNext : j = m.next i
    · rw [isNext, atNext, nodeNext]
      simp
    · by_cases isI : j = i
      · rw [isI, atI, nodeI]
        simp only [Option.isSome_some, iff_true]
        omega
      · rw [elsewhere j isI isNext, nodeElse j isI isNext]
        exact hole.layout.built j belowJ
  · intro j nd' belowJ at_j
    by_cases isNext : j = m.next i
    · rw [isNext, nodeNext] at at_j
      cases at_j
    · by_cases isI : j = i
      · rw [isI, nodeI, Option.some.injEq] at at_j
        rw [← at_j]
        exact hole.layout.hashed _ nd nextBelow at_next
      · rw [nodeElse j isI isNext] at at_j
        exact hole.layout.hashed j nd' belowJ at_j
  · intro j nd' belowJ at_j
    by_cases isNext : j = m.next i
    · rw [isNext, nodeNext] at at_j
      cases at_j
    · by_cases isI : j = i
      · rw [isI, nodeI, Option.some.injEq] at at_j
        rw [isI, atI, ← at_j]
        have slot := hole.layout.placed _ nd nextBelow at_next
        have total : nd.hash.toNat + (m.ctrl (m.next i) - 1) =
            nd.hash.toNat + (m.ctrl (m.next i) - 1 - 1 + 1) := by omega
        rw [total, add_succ_mod] at slot
        have slot := slot.trans nextEq
        exact succ_mod_inj (Nat.mod_lt _ (Nat.two_pow_pos e)) hole.below slot
      · rw [nodeElse j isI isNext] at at_j
        rw [elsewhere j isI isNext]
        exact hole.layout.placed j nd' belowJ at_j

theorem Hole.shift [DecidableEq K] (hole : Hole hash e m M i) (big : 1 ≤ e)
    (more : 1 < m.ctrl (m.next i)) : Hole hash e (m.shiftInto i) M (m.next i) := by
  have nextEq := hole.layout.next_eq i
  have nextBelow := hole.next_lt
  have distinct := hole.ne_next big
  obtain ⟨atNext, atI, elsewhere⟩ := hole.shifted_ctrl big more
  obtain ⟨nd, at_next⟩ := hole.layout.node_of_ctrl nextBelow (by omega)
  have cellNext := cell_of_node at_next
  have held := hole.held.move hole.below nextBelow hole.cell_free cellNext
  rw [← cell_shiftInto at_next] at held
  refine ⟨hole.layout_shift big more, held, ?_, nextBelow, atNext, ?_, ?_⟩
  · have filled := load_update_fill (nd.key, nd.value) hole.below hole.cell_free
    have taken : (update m.cell i (some (nd.key, nd.value)) (m.next i)).isSome := by
      rw [update_of_ne distinct.symm, cellNext]
      rfl
    have freed := load_update_free nextBelow taken
    have counted := hole.counted
    change m.length = load (m.shiftInto i).cell (2 ^ e)
    rw [cell_shiftInto at_next]
    omega
  · intro x belowX other
    by_cases succI : (x + 1) % 2 ^ e = i
    · have notI : x ≠ i := by
        rintro rfl
        exact succ_mod_ne belowX (two_le_two_pow big) succI
      have gap := hole.across x belowX succI
      rw [succI, atI, elsewhere x notI other, nextEq]
      omega
    · by_cases succNext : (x + 1) % 2 ^ e = m.next i
      · rw [succNext, atNext]
        omega
      · have notI : x ≠ i := by
          rintro rfl
          exact succNext nextEq.symm
        rw [elsewhere _ succI succNext, elsewhere x notI other]
        exact hole.ordered x belowX notI
  · intro x belowX succNext
    rw [nextEq] at succNext
    have isI := succ_mod_inj belowX hole.below succNext
    have step := hole.ordered (m.next i) nextBelow distinct.symm
    rw [isI, atI]
    by_cases succI : (m.next i + 1) % 2 ^ e = i
    · rw [succI, atI]
      omega
    · have notNext := succ_mod_ne nextBelow (two_le_two_pow big)
      rw [elsewhere _ succI notNext]
      omega

theorem Hole.close (hole : Hole hash e m M i) (stop : m.ctrl (m.next i) ≤ 1) :
    Inv hash e m M := by
  refine ⟨hole.layout, ?_, hole.held, hole.counted⟩
  intro x belowX
  by_cases isI : x = i
  · rw [isI, ← hole.layout.next_eq]
    omega
  · exact hole.ordered x belowX isI

/-- The loop closes the hole when a free slot lies within its iterations. -/
theorem backwardShift_spec [DecidableEq K] (big : 1 ≤ e) :
    ∀ t fuel (m : RobinMap K V) (i : Nat), Hole hash e m M i → t ≤ fuel → t < 2 ^ e →
      m.ctrl ((i + t) % 2 ^ e) = 0 → 0 < t → Inv hash e (backwardShift fuel m i) M := by
  intro t
  induction t with
  | zero =>
    intro fuel m i _ _ _ _ positive
    omega
  | succ t ih =>
    intro fuel m i hole enough inside free _
    by_cases stop : m.ctrl (m.next i) ≤ 1
    · rw [backwardShift_stop fuel i stop]
      exact hole.close stop
    · cases fuel with
      | zero => omega
      | succ fuel =>
        rw [backwardShift_shift fuel i (by omega)]
        have nextEq := hole.layout.next_eq i
        have notYet : t ≠ 0 := by
          rintro rfl
          rw [zero_add, ← nextEq] at free
          omega
        have slot : (m.next i + t) % 2 ^ e = (i + (t + 1)) % 2 ^ e := by
          rw [nextEq, mod_add_mod]
          congr 1
          omega
        refine ih fuel _ _ (hole.shift big (by omega)) (by omega) (by omega) ?_ (by omega)
        obtain ⟨_, _, elsewhere⟩ := hole.shifted_ctrl big (by omega)
        have base : (i + 0) % 2 ^ e = i := mod_eq_of_lt hole.below
        rw [slot, elsewhere]
        · exact free
        · intro same
          have := offset_inj inside (by omega) (same.trans base.symm)
          omega
        · intro same
          have := offset_inj inside (by omega) (same.trans nextEq)
          omega

end Shift

section Erase
variable [DecidableEq K]

omit [DecidableEq K] in
theorem Inv.exists_free (inv : Inv hash e m M) (room : m.length < 2 ^ e) :
    ∃ i, i < 2 ^ e ∧ m.ctrl i = 0 := by
  rw [inv.counted] at room
  obtain ⟨i, below, free⟩ := exists_free_of_load_lt room
  refine ⟨i, below, ?_⟩
  by_contra taken
  obtain ⟨nd, at_i⟩ := inv.layout.node_of_ctrl below taken
  rw [cell_of_node at_i] at free
  cases free

/-- `erase` answers whether the key was bound and unbinds it. -/
theorem Inv.erase (inv : Inv hash e m M) (big : 1 ≤ e) (room : m.length < 2 ^ e) (key : K) :
    Inv hash e (m.erase hash key).1 (update M key none) ∧
      (m.erase hash key).2 = (M key).isSome ∧ (m.erase hash key).1.length ≤ m.length := by
  have slotIff := scalarProbe_eq_some_iff inv.layout inv.ordered inv.held key
  unfold RobinMap.erase RobinMap.eraseHash
  rw [if_neg (by rw [inv.layout.slots]; exact (Nat.two_pow_pos e).ne')]
  cases found : scalarProbe m (hash key) key 256 (m.home (hash key)) 0 with
  | none =>
    have unbound : M key = none := by
      apply inv.held.eq_none
      intro i v below at_i
      obtain ⟨nd, at_node, same, _⟩ := node_of_cell at_i
      rw [(slotIff i).mpr ⟨below, nd, at_node, same⟩] at found
      cases found
    rw [update_eq_self_iff.mpr unbound.symm, unbound]
    exact ⟨inv, rfl, le_refl _⟩
  | some i =>
    obtain ⟨below, nd, at_i, rfl⟩ := (slotIff i).mp found
    have hole := inv.destroyAt big below at_i
    obtain ⟨f, freeBelow, free⟩ := inv.exists_free room
    obtain ⟨t, inside, reach⟩ := exists_offset below freeBelow
    have distinct : f ≠ i := by
      rintro rfl
      exact inv.layout.ctrl_of_node below at_i free
    have positive : 0 < t := by
      rcases Nat.eq_zero_or_pos t with zero | positive
      · rw [zero, add_zero, Nat.mod_eq_of_lt below] at reach
        exact absurd reach.symm distinct
      · exact positive
    have closed := backwardShift_spec big t m.nSlots _ i hole
      (by rw [inv.layout.slots]; omega) inside
      (by rw [reach]; simp [RobinMap.destroyAt, update_of_ne distinct, free]) positive
    refine ⟨closed, ?_, ?_⟩
    · rw [inv.held.sound i nd.key nd.value below (cell_of_node at_i)]
      rfl
    · rw [backwardShift_length]
      exact Nat.sub_le _ _

end Erase

end Micron.Robin

/-!
## Runs of the robin-hood map

`Valid` adds to the table invariant that the element count is within the load
limit, which leaves a free slot for the shift of a later erase.  Every call
keeps it, thrown or not; a call that returns moves the held map as the
abstract operation does.
-/

namespace Micron.Robin

open Micron.Lib

variable {K V : Type} [DecidableEq K] {e : Nat} {hash : K → UInt64}

structure Valid (hash : K → UInt64) (e : Nat) (m : RobinMap K V) (M : K → Option V) : Prop where
  inv : Inv hash e m M
  loaded : m.length ≤ m.loadLimit

section Valid
variable {m : RobinMap K V} {M : K → Option V}

omit [DecidableEq K] in
theorem loadLimit_lt (lay : Layout hash e m) : m.loadLimit < 2 ^ e := by
  have wrapped : 2 ^ e * 7 % 2 ^ 64 ≤ 2 ^ e * 7 := Nat.mod_le _ _
  have positive := Nat.two_pow_pos e
  rw [RobinMap.loadLimit, lay.slots, loadNum, loadDenom]
  omega

omit [DecidableEq K] in
theorem Valid.room (valid : Valid hash e m M) : m.length < 2 ^ e :=
  lt_of_le_of_lt valid.loaded (loadLimit_lt valid.inv.layout)

omit [DecidableEq K] in
theorem Layout.loadLimit_eq {m' : RobinMap K V} (lay : Layout hash e m) (lay' : Layout hash e m') :
    m'.loadLimit = m.loadLimit := by
  rw [RobinMap.loadLimit, RobinMap.loadLimit, lay.slots, lay'.slots]

theorem insertLoop_length_le :
    ∀ left (m : RobinMap K V) (carried : Node K V) (index plen : Nat) (res : Option Nat),
      (insertLoop left m carried index plen res).map.length ≤ m.length + 1 := by
  intro left
  induction left with
  | zero =>
    intro m carried index plen res
    rw [insertLoop.eq_def]
    simp only
    split
    · exact Nat.le_succ _
    · split
      · exact le_refl _
      · split
        · exact Nat.le_succ _
        · exact Nat.le_succ _
  | succ left ih =>
    intro m carried index plen res
    rw [insertLoop.eq_def]
    simp only
    split
    · exact Nat.le_succ _
    · split
      · exact le_refl _
      · split
        · exact Nat.le_succ _
        · exact ih _ _ _ _ _

omit [DecidableEq K] in
theorem valid_of_free (slots : m.nSlots = 2 ^ e) (masked : m.mask = 2 ^ e - 1)
    (ctrl : m.ctrl = fun _ => 0) (node : m.node = fun _ => none) (length : m.length = 0) :
    Valid hash e m (fun _ => none) := by
  have free : ∀ i, i < 2 ^ e → m.cell i = none := by
    intro i _
    simp [RobinMap.cell, node]
  have lay : Layout hash e m := by
    refine ⟨slots, masked, ?_, ?_, ?_, ?_⟩
    · intro i _
      simp [ctrl]
    · intro i _
      simp [ctrl, node]
    · intro i nd _ at_i
      simp [node] at at_i
    · intro i nd _ at_i
      simp [node] at at_i
  refine ⟨⟨lay, ?_, holds_empty free, ?_⟩, ?_⟩
  · intro i _
    simp [ctrl]
  · rw [length, load_eq_zero free]
  · rw [length]
    exact Nat.zero_le _

omit [DecidableEq K] in
theorem valid_empty (hash : K → UInt64) (e : Nat) :
    Valid hash e (RobinMap.empty K V (2 ^ e)) (fun _ => none) :=
  valid_of_free rfl rfl rfl rfl rfl

omit [DecidableEq K] in
theorem Valid.clear (valid : Valid hash e m M) : Valid hash e m.clear (fun _ => none) :=
  valid_of_free valid.inv.layout.slots valid.inv.layout.masked rfl rfl rfl

theorem Valid.erase (valid : Valid hash e m M) (big : 1 ≤ e) (key : K) :
    Valid hash e (m.erase hash key).1 (Function.update M key none) ∧
      (m.erase hash key).2 = (M key).isSome := by
  obtain ⟨inv, answer, shrinks⟩ := valid.inv.erase big valid.room key
  refine ⟨⟨inv, ?_⟩, answer⟩
  rw [Layout.loadLimit_eq valid.inv.layout inv.layout]
  exact le_trans shrinks valid.loaded

theorem Valid.insert (valid : Valid hash e m M) (big : 1 ≤ e) (key : K) (value : V) :
    ∃ M', Valid hash e (m.insert hash key value).map M' ∧
      ((m.insert hash key value).result.isOk = true →
        M' = Function.update M key (some value)) := by
  have settles := valid.inv.insert big key value
  have grows : (m.insert hash key value).map.length ≤ m.loadLimit := by
    rw [RobinMap.insert]
    split
    · exact valid.loaded
    · rename_i room
      exact le_trans (insertLoop_length_le ..) (by omega)
  cases call : m.insert hash key value with
  | mk m' result =>
    rw [call] at settles grows
    cases result with
    | ok slot =>
      refine ⟨_, ⟨settles, ?_⟩, fun _ => rfl⟩
      rw [Layout.loadLimit_eq valid.inv.layout settles.layout]
      exact grows
    | error err =>
      obtain ⟨⟨M', inv'⟩, _⟩ := settles
      refine ⟨M', ⟨inv', ?_⟩, fun returned => by cases returned⟩
      rw [Layout.loadLimit_eq valid.inv.layout inv'.layout]
      exact grows

/-- One call: a valid table stays, and a returning call moves the held map as
the abstract operation does. -/
theorem Valid.call (valid : Valid hash e m M) (big : 1 ≤ e) (op : MapOp K V) :
    ∃ M', Valid hash e (m.call hash op).map M' ∧
      ((m.call hash op).result.isOk = true →
        M' = fun key => MapOp.overwrite key (M key) op) := by
  cases op with
  | insert key value =>
    obtain ⟨M', valid', bound⟩ := valid.insert big key value
    refine ⟨M', valid', ?_⟩
    intro returned
    rw [bound returned, overwrite_insert]
  | erase key =>
    refine ⟨_, (valid.erase big key).1, ?_⟩
    intro _
    rw [overwrite_erase]
  | clear => exact ⟨_, valid.clear, fun _ => rfl⟩

theorem Reachable.valid (big : 1 ≤ e) (reached : Reachable hash e m) :
    ∃ M, Valid hash e m M := by
  induction reached with
  | init => exact ⟨_, valid_empty hash e⟩
  | call op _ ih =>
    obtain ⟨M, valid⟩ := ih
    obtain ⟨M', valid', _⟩ := valid.call big op
    exact ⟨M', valid'⟩

end Valid

/-- Runs without a throw hold the map of the history. -/
theorem Valid.run (big : 1 ≤ e) : ∀ (ops : List (MapOp K V)) (m m' : RobinMap K V)
    (M : K → Option V), Valid hash e m M → m.run hash ops = some m' →
    Valid hash e m' fun key => ops.foldl (MapOp.overwrite key) (M key) := by
  intro ops
  induction ops with
  | nil =>
    intro m m' M valid ran
    cases ran
    exact valid
  | cons op rest ih =>
    intro m m' M valid ran
    obtain ⟨M', valid', bound⟩ := valid.call big op
    rw [RobinMap.run] at ran
    cases call : m.call hash op with
    | mk next result =>
      rw [call] at ran valid' bound
      cases result with
      | error err => cases ran
      | ok slot =>
        rw [bound rfl] at valid'
        exact ih next m' _ valid' ran

/-- A run of `insert`, `erase` and `clear` on a table of at least sixteen slots,
with the lookup compiled for any vector window. -/
theorem robin_map_refines_finite_map (W e : Nat) (hash : K → UInt64) (sixteen : 4 ≤ e)
    (ops : List (MapOp K V)) (m : RobinMap K V)
    (ran : (RobinMap.empty K V (2 ^ e)).run hash ops = some m) :
    (∀ k, m.find W hash k = overwriteRun ops k) ∧
      m.size = keyCount (overwriteRun ops) ∧
      ∀ k, (m.erase hash k).2 = (m.find W hash k).isSome := by
  have valid : Valid hash e m (overwriteRun ops) :=
    Valid.run (by omega) ops _ m _ (valid_empty hash e) ran
  refine ⟨valid.inv.find_eq W, valid.inv.size_eq, ?_⟩
  intro k
  rw [(valid.erase (by omega) k).2, valid.inv.find_eq W]

/-- Two keys with one home slot, one of them erased again. -/
theorem robin_map_refines_finite_map_collision :
    ∃ m, (RobinMap.empty Nat Nat (2 ^ 4)).run (fun _ => 3)
        [.insert 1 10, .insert 2 20, .erase 1, .insert 2 21] = some m ∧
      m.find 16 (fun _ => 3) 2 = some 21 ∧ m.find 0 (fun _ => 3) 1 = none := by
  let ops : List (MapOp Nat Nat) := [.insert 1 10, .insert 2 20, .erase 1, .insert 2 21]
  have returns : ((RobinMap.empty Nat Nat (2 ^ 4)).run (fun _ => 3) ops).isSome = true := by
    decide
  obtain ⟨m, ran⟩ := Option.isSome_iff_exists.mp returns
  refine ⟨m, ran, ?_, ?_⟩
  · rw [(robin_map_refines_finite_map 16 4 (fun _ => 3) (by decide) ops m ran).1]
    decide
  · rw [(robin_map_refines_finite_map 0 4 (fun _ => 3) (by decide) ops m ran).1]
    decide

end Micron.Robin
