import Micron.Robin.Lookup

/-!
# Insertion keeps the robin-hood invariant

One iteration of the displacement loop does one of five things; each has its
equation.  `Carrying` is the invariant of the loop: the table is a valid one,
and the carried entry is at probe length `plen` of its own path, at a slot
whose predecessor is at least as far from home.  A stored key equal to the
carried one can only be ahead.
-/

set_option autoImplicit false

namespace Micron.Robin

open Micron.Lib Function

variable {K V : Type} {e : Nat} {hash : K → UInt64}

theorem exchange_false (carried resident : Node K V) :
    exchange false carried resident = (carried, resident) := by
  simp [exchange]

theorem exchange_true (carried resident : Node K V) :
    exchange true carried resident = (resident, carried) := by
  have ones : (0 : UInt64) - 1 = -1 := rfl
  have forth : carried.hash ^^^ (carried.hash ^^^ resident.hash) = resident.hash := by
    rw [← UInt64.xor_assoc, UInt64.xor_self, UInt64.zero_xor]
  have back : resident.hash ^^^ (carried.hash ^^^ resident.hash) = carried.hash := by
    rw [UInt64.xor_comm carried.hash, ← UInt64.xor_assoc, UInt64.xor_self, UInt64.zero_xor]
  simp [exchange, ones, forth, back]

theorem encodeDist_eq {d : Nat} (small : d ≤ 253) : encodeDist d = d + 1 := by
  simp only [encodeDist]
  rw [if_neg (by omega)]

section Step
variable [DecidableEq K] {m : RobinMap K V} {carried : Node K V} {index plen : Nat}

theorem insertLoop_saturated (left : Nat) (res : Option Nat) (far : 253 < plen) :
    insertLoop left m carried index plen res = ⟨m, .error .distanceSaturated⟩ := by
  rw [insertLoop.eq_def]
  simp only
  rw [if_pos (show maxStoredDist < plen from far)]

theorem insertLoop_free (left : Nat) (res : Option Nat) (near : plen ≤ 253)
    (free : m.ctrl index = 0) :
    insertLoop left m carried index plen res =
      ⟨{ m.place index carried plen with length := m.length + 1 }, .ok (res.getD index)⟩ := by
  rw [insertLoop.eq_def]
  simp only
  rw [if_neg (show ¬ maxStoredDist < plen by rw [maxStoredDist]; omega),
    if_pos (by simp [RobinMap.occupied, free])]

theorem insertLoop_match (left : Nat) (res : Option Nat) (near : plen ≤ 253)
    (taken : m.ctrl index ≠ 0) (hit : m.matchesAt index carried.hash carried.key = true) :
    insertLoop left m carried index plen res =
      ⟨m.setValue index carried.value, .ok index⟩ := by
  rw [insertLoop.eq_def]
  simp only
  rw [if_neg (show ¬ maxStoredDist < plen by rw [maxStoredDist]; omega),
    if_neg (by simp [RobinMap.occupied, taken]), if_pos hit]

/-- The next iteration, or the probe-limit throw. -/
def insertNext (left : Nat) (m : RobinMap K V) (carried : Node K V) (index plen : Nat)
    (res : Option Nat) : Inserted K V :=
  match left with
  | 0 => ⟨m, .error .probeLimit⟩
  | left + 1 => insertLoop left m carried index plen res

theorem insertLoop_walk (left : Nat) (res : Option Nat) {nd : Node K V} (near : plen ≤ 253)
    (at_index : m.node index = some nd) (far : plen < m.ctrl index)
    (miss : m.matchesAt index carried.hash carried.key = false) :
    insertLoop left m carried index plen res =
      insertNext left m carried (m.next index) (plen + 1) res := by
  have steal : decide (m.storedDist index < plen) = false :=
    decide_eq_false (by rw [RobinMap.storedDist]; omega)
  have sameNode : update m.node index (some nd) = m.node :=
    update_eq_self_iff.mpr at_index.symm
  rw [insertLoop.eq_def]
  simp only
  rw [if_neg (show ¬ maxStoredDist < plen by rw [maxStoredDist]; omega),
    if_neg (by simp only [RobinMap.occupied]; simp; omega), if_neg (by rw [miss]; simp), steal]
  simp only [exchange_false, at_index, Option.getD_some, Bool.false_eq_true, if_false,
    update_eq_self, sameNode, Bool.false_and]
  cases left <;> rfl

/-- A resident closer to its home is displaced and carried on. -/
theorem insertLoop_steal (left : Nat) (res : Option Nat) {nd : Node K V} (near : plen ≤ 253)
    (at_index : m.node index = some nd) (taken : m.ctrl index ≠ 0) (close : m.ctrl index ≤ plen)
    (miss : m.matchesAt index carried.hash carried.key = false) :
    ∃ res', insertLoop left m carried index plen res =
      insertNext left (m.place index carried plen) nd (m.next index) (m.ctrl index) res' := by
  have steal : decide (m.storedDist index < plen) = true :=
    decide_eq_true (by rw [RobinMap.storedDist]; omega)
  have dist : m.storedDist index + 1 = m.ctrl index := by
    simp only [RobinMap.storedDist]
    omega
  refine ⟨if res.isNone then some index else res, ?_⟩
  rw [insertLoop.eq_def]
  simp only
  rw [if_neg (show ¬ maxStoredDist < plen by rw [maxStoredDist]; omega),
    if_neg (by simp [RobinMap.occupied, taken]), if_neg (by rw [miss]; simp), steal]
  simp only [exchange_true, at_index, Option.getD_some, if_true, Bool.true_and, dist]
  cases left <;> rfl

end Step

section Writes
variable {m : RobinMap K V}

theorem cell_place (i : Nat) (nd : Node K V) (d : Nat) :
    (m.place i nd d).cell = update m.cell i (some (nd.key, nd.value)) := by
  funext j
  by_cases same : j = i
  · subst same
    simp [RobinMap.cell, RobinMap.place]
  · simp [RobinMap.cell, RobinMap.place, update_of_ne same]

/-- Writing an entry at its own displacement keeps the layout. -/
theorem Layout.place (lay : Layout hash e m) {i d : Nat} {nd : Node K V} (below : i < 2 ^ e)
    (near : d ≤ 253) (hashed : nd.hash = hash nd.key)
    (atSlot : (nd.hash.toNat + d) % 2 ^ e = i) : Layout hash e (m.place i nd d) := by
  have byte : (m.place i nd d).ctrl = update m.ctrl i (d + 1) := by
    simp [RobinMap.place, encodeDist_eq near]
  refine ⟨lay.slots, lay.masked, ?_, ?_, ?_, ?_⟩
  · intro j belowJ
    rw [byte]
    by_cases same : j = i
    · subst same
      rw [update_self]
      omega
    · rw [update_of_ne same]
      exact lay.ctrl_le j belowJ
  · intro j belowJ
    rw [byte]
    by_cases same : j = i
    · subst same
      simp [RobinMap.place]
    · simp only [RobinMap.place, update_of_ne same]
      exact lay.built j belowJ
  · intro j nd' belowJ at_j
    by_cases same : j = i
    · subst same
      simp only [RobinMap.place, update_self, Option.some.injEq] at at_j
      rw [← at_j]
      exact hashed
    · simp only [RobinMap.place, update_of_ne same] at at_j
      exact lay.hashed j nd' belowJ at_j
  · intro j nd' belowJ at_j
    rw [byte]
    by_cases same : j = i
    · subst same
      simp only [RobinMap.place, update_self, Option.some.injEq] at at_j
      rw [update_self, ← at_j]
      exact atSlot
    · simp only [RobinMap.place, update_of_ne same] at at_j
      rw [update_of_ne same]
      exact lay.placed j nd' belowJ at_j

/-- Raising one control byte keeps the order when the slot before allows it. -/
theorem Ordered.place (ord : Ordered e m) (big : 1 ≤ e) {i d : Nat} (nd : Node K V)
    (near : d ≤ 253) (raised : m.ctrl i ≤ d + 1) (below : i < 2 ^ e)
    (front : ∀ x, x < 2 ^ e → (x + 1) % 2 ^ e = i → d ≤ m.ctrl x) :
    Ordered e (m.place i nd d) := by
  have two := two_le_two_pow big
  intro x belowX
  simp only [RobinMap.place, encodeDist_eq near]
  have old := ord x belowX
  by_cases atNext : (x + 1) % 2 ^ e = i
  · have distinct : x ≠ i := by
      rintro rfl
      exact succ_mod_ne belowX two atNext
    rw [atNext, update_self, update_of_ne distinct]
    have := front x belowX atNext
    omega
  · rw [update_of_ne atNext]
    by_cases atX : x = i
    · subst atX
      rw [update_self]
      omega
    · rw [update_of_ne atX]
      exact old

theorem setValue_node_of_ne {i j : Nat} (v : V) (ne : j ≠ i) :
    (m.setValue i v).node j = m.node j := by
  simp [RobinMap.setValue, update_of_ne ne]

theorem setValue_node_self {i : Nat} {nd : Node K V} (v : V) (at_i : m.node i = some nd) :
    (m.setValue i v).node i = some { nd with value := v } := by
  simp [RobinMap.setValue, at_i]

theorem cell_setValue {i : Nat} {nd : Node K V} (v : V) (at_i : m.node i = some nd) :
    (m.setValue i v).cell = update m.cell i (some (nd.key, v)) := by
  funext j
  by_cases same : j = i
  · subst same
    rw [RobinMap.cell, setValue_node_self v at_i, update_self]
    rfl
  · rw [RobinMap.cell, setValue_node_of_ne v same, update_of_ne same]
    rfl

theorem Layout.setValue (lay : Layout hash e m) {i : Nat} {nd : Node K V} (v : V)
    (at_i : m.node i = some nd) : Layout hash e (m.setValue i v) := by
  have old : ∀ j nd', (m.setValue i v).node j = some nd' →
      ∃ nd'', m.node j = some nd'' ∧ nd'.hash = nd''.hash ∧ nd'.key = nd''.key := by
    intro j nd' at_j
    by_cases same : j = i
    · subst same
      rw [setValue_node_self v at_i, Option.some.injEq] at at_j
      exact ⟨nd, at_i, by rw [← at_j], by rw [← at_j]⟩
    · rw [setValue_node_of_ne v same] at at_j
      exact ⟨nd', at_j, rfl, rfl⟩
  refine ⟨lay.slots, lay.masked, lay.ctrl_le, ?_, ?_, ?_⟩
  · intro j belowJ
    by_cases same : j = i
    · subst same
      rw [setValue_node_self v at_i]
      have := lay.built j belowJ
      rw [at_i] at this
      exact this
    · rw [setValue_node_of_ne v same]
      exact lay.built j belowJ
  · intro j nd' belowJ at_j
    obtain ⟨nd'', at_j', sameHash, sameKey⟩ := old j nd' at_j
    rw [sameHash, sameKey]
    exact lay.hashed j nd'' belowJ at_j'
  · intro j nd' belowJ at_j
    obtain ⟨nd'', at_j', sameHash, _⟩ := old j nd' at_j
    rw [sameHash]
    exact lay.placed j nd'' belowJ at_j'

end Writes

/-! ## The loop invariant -/

/-- The loop carries an entry of the map `M` has with `carried` bound on top. -/
structure Carrying (hash : K → UInt64) (e : Nat) (m : RobinMap K V) (M : K → Option V)
    (carried : Node K V) (index plen : Nat) : Prop where
  inv : Inv hash e m M
  hashed : carried.hash = hash carried.key
  below : index < 2 ^ e
  atSlot : (carried.hash.toNat + plen) % 2 ^ e = index
  front : ∀ x, x < 2 ^ e → (x + 1) % 2 ^ e = index → plen ≤ m.ctrl x
  ahead : ∀ i nd, i < 2 ^ e → m.node i = some nd → nd.key = carried.key → plen < m.ctrl i

section Carrying
variable {m : RobinMap K V} {M : K → Option V} {carried : Node K V} {index plen : Nat}

/-- A slot the carried key would have displaced cannot lie before that key. -/
theorem Carrying.unbound (c : Carrying hash e m M carried index plen)
    (close : m.ctrl index ≤ plen) : M carried.key = none := by
  apply c.inv.held.eq_none
  intro i v belowI at_i
  obtain ⟨nd, at_node, sameKey, _⟩ := node_of_cell at_i
  have later := c.ahead i nd belowI at_node sameKey
  have onPath := ctrl_on_path c.inv.layout c.inv.ordered belowI at_node
    (p := plen) (by omega)
  have sameHash : nd.hash = carried.hash := by
    rw [c.inv.layout.hashed i nd belowI at_node, c.hashed, sameKey]
  rw [sameHash, c.atSlot] at onPath
  omega

variable [DecidableEq K]

theorem Carrying.walk (c : Carrying hash e m M carried index plen) (far : plen < m.ctrl index)
    (miss : m.matchesAt index carried.hash carried.key = false) :
    Carrying hash e m M carried (m.next index) (plen + 1) := by
  have nextEq := c.inv.layout.next_eq index
  refine ⟨c.inv, c.hashed, ?_, ?_, ?_, ?_⟩
  · rw [nextEq]
    exact Nat.mod_lt _ (Nat.two_pow_pos e)
  · rw [nextEq, add_succ_mod, c.atSlot]
  · intro x belowX atNext
    rw [nextEq] at atNext
    rw [succ_mod_inj belowX c.below atNext]
    exact far
  · intro i nd' belowI at_i sameKey
    have later := c.ahead i nd' belowI at_i sameKey
    have notHere : m.ctrl i ≠ plen + 1 := by
      intro atEnd
      have slot := c.inv.layout.placed i nd' belowI at_i
      have sameHash : nd'.hash = carried.hash := by
        rw [c.inv.layout.hashed i nd' belowI at_i, c.hashed, sameKey]
      rw [sameHash, atEnd, Nat.add_sub_cancel, c.atSlot] at slot
      subst slot
      have hit := matchesAt_iff.mpr ⟨nd', at_i, sameHash, sameKey⟩
      rw [hit] at miss
      cases miss
    omega

/-- Displacing a resident: the carried entry takes the slot and the resident is
carried on, ahead of nothing. -/
theorem Carrying.steal (c : Carrying hash e m M carried index plen) (big : 1 ≤ e)
    {nd : Node K V} (near : plen ≤ 253) (at_index : m.node index = some nd)
    (taken : m.ctrl index ≠ 0) (close : m.ctrl index ≤ plen) :
    Carrying hash e (m.place index carried plen)
      (update (update M nd.key none) carried.key (some carried.value))
      nd (m.next index) (m.ctrl index) := by
  have unbound := c.unbound close
  have atCell := cell_of_node at_index
  have bound := c.inv.held.sound index nd.key nd.value c.below atCell
  have distinct : nd.key ≠ carried.key := by
    intro same
    rw [same, unbound] at bound
    cases bound
  have nextEq := c.inv.layout.next_eq index
  have lay := c.inv.layout.place c.below near c.hashed c.atSlot
  have held := c.inv.held.replace carried.value c.below atCell (.inr unbound)
  rw [← cell_place] at held
  have inv' : Inv hash e (m.place index carried plen)
      (update (update M nd.key none) carried.key (some carried.value)) := by
    refine ⟨lay, c.inv.ordered.place big carried near (by omega) c.below c.front, held, ?_⟩
    rw [cell_place, load_update_taken _ (by rw [atCell]; rfl)]
    exact c.inv.counted
  refine ⟨inv', c.inv.layout.hashed index nd c.below at_index, ?_, ?_, ?_, ?_⟩
  · rw [nextEq]
    exact Nat.mod_lt _ (Nat.two_pow_pos e)
  · have slot := c.inv.layout.placed index nd c.below at_index
    have total : nd.hash.toNat + m.ctrl index = nd.hash.toNat + (m.ctrl index - 1 + 1) := by
      omega
    rw [nextEq, total, add_succ_mod, slot]
  · intro x belowX atNext
    rw [nextEq] at atNext
    rw [succ_mod_inj belowX c.below atNext]
    simp only [RobinMap.place, update_self, encodeDist_eq near]
    omega
  · intro i nd' belowI at_i sameKey
    have bound' := inv'.held.sound i nd'.key nd'.value belowI (cell_of_node at_i)
    rw [sameKey, update_of_ne distinct, update_self] at bound'
    cases bound'

theorem Carrying.place (c : Carrying hash e m M carried index plen) (big : 1 ≤ e)
    (near : plen ≤ 253) (free : m.ctrl index = 0) :
    Inv hash e { m.place index carried plen with length := m.length + 1 }
      (update M carried.key (some carried.value)) := by
  have freeCell : m.cell index = none := by
    rw [RobinMap.cell, c.inv.layout.node_none c.below free]
    rfl
  have lay := c.inv.layout.place c.below near c.hashed c.atSlot
  have ord := c.inv.ordered.place big carried near (by omega) c.below c.front
  have held := c.inv.held.insert carried.value c.below freeCell (c.unbound (by omega))
  rw [← cell_place index carried plen] at held
  refine ⟨⟨lay.slots, lay.masked, lay.ctrl_le, lay.built, lay.hashed, lay.placed⟩, ord, held, ?_⟩
  calc m.length + 1 = load m.cell (2 ^ e) + 1 := by rw [c.inv.counted]
    _ = load (m.place index carried plen).cell (2 ^ e) := by
        rw [cell_place, load_update_fill _ c.below freeCell]

theorem Carrying.assign (c : Carrying hash e m M carried index plen)
    (hit : m.matchesAt index carried.hash carried.key = true) :
    Inv hash e (m.setValue index carried.value)
      (update M carried.key (some carried.value)) := by
  obtain ⟨nd, at_index, _, sameKey⟩ := matchesAt_iff.mp hit
  have atCell := cell_of_node at_index
  have held := c.inv.held.assign carried.value c.below atCell
  rw [← cell_setValue carried.value at_index, sameKey] at held
  refine ⟨c.inv.layout.setValue carried.value at_index, c.inv.ordered, held, ?_⟩
  rw [cell_setValue carried.value at_index, load_update_taken _ (by rw [atCell]; rfl)]
  exact c.inv.counted

/-- What a call to bind `carried` leaves: a normal return binds the entry, a throw
leaves a valid table of the same length. -/
def Settles (hash : K → UInt64) (e : Nat) (m : RobinMap K V) (M : K → Option V) (key : K)
    (value : V) : Inserted K V → Prop
  | ⟨m', .ok _⟩ => Inv hash e m' (update M key (some value))
  | ⟨m', .error _⟩ => (∃ M', Inv hash e m' M') ∧ m'.length = m.length

/-- Rebinding the displaced entry restores the map under the new one. -/
theorem Carrying.restored (c : Carrying hash e m M carried index plen) {nd : Node K V}
    (at_index : m.node index = some nd) (close : m.ctrl index ≤ plen) :
    update (update (update M nd.key none)
        carried.key (some carried.value)) nd.key (some nd.value) =
      update M carried.key (some carried.value) := by
  have bound := c.inv.held.sound index nd.key nd.value c.below (cell_of_node at_index)
  have distinct : nd.key ≠ carried.key := by
    intro same
    rw [same, c.unbound close] at bound
    cases bound
  have kept : update M nd.key (some nd.value) = M :=
    update_eq_self_iff.mpr bound.symm
  rw [update_comm distinct.symm, update_idem, kept]

/-- One iteration settles when the iteration after it does. -/
theorem insertLoop_step (big : 1 ≤ e) (left : Nat)
    (next : ∀ (m : RobinMap K V) (M : K → Option V) (carried : Node K V) (index plen : Nat)
      (res : Option Nat), Carrying hash e m M carried index plen →
      Settles hash e m M carried.key carried.value (insertNext left m carried index plen res))
    (res : Option Nat) (c : Carrying hash e m M carried index plen) :
    Settles hash e m M carried.key carried.value
      (insertLoop left m carried index plen res) := by
  by_cases near : plen ≤ 253
  · by_cases free : m.ctrl index = 0
    · rw [insertLoop_free left res near free]
      exact c.place big near free
    · obtain ⟨nd, at_index⟩ := c.inv.layout.node_of_ctrl c.below free
      cases hit : m.matchesAt index carried.hash carried.key with
      | true =>
        rw [insertLoop_match left res near free hit]
        exact c.assign hit
      | false =>
        by_cases far : plen < m.ctrl index
        · rw [insertLoop_walk left res near at_index far hit]
          exact next m M carried _ _ res (c.walk far hit)
        · obtain ⟨res', step⟩ := insertLoop_steal left res near at_index free (by omega) hit
          have later := next _ _ nd _ _ res' (c.steal big near at_index free (by omega))
          rw [step]
          unfold Settles at later ⊢
          rw [c.restored at_index (by omega)] at later
          exact later
  · rw [insertLoop_saturated left res (by omega)]
    exact ⟨⟨M, c.inv⟩, rfl⟩

theorem insertLoop_spec (big : 1 ≤ e) :
    ∀ left (m : RobinMap K V) (M : K → Option V) (carried : Node K V) (index plen : Nat)
      (res : Option Nat), Carrying hash e m M carried index plen →
      Settles hash e m M carried.key carried.value
        (insertLoop left m carried index plen res) := by
  intro left
  induction left with
  | zero =>
    intro m M carried index plen res c
    apply insertLoop_step big 0 _ res c
    intro m M carried index plen res c
    exact ⟨⟨M, c.inv⟩, rfl⟩
  | succ left ih =>
    intro m M carried index plen res c
    exact insertLoop_step big (left + 1) ih res c

end Carrying

section InsertHash
variable [DecidableEq K] {m : RobinMap K V} {M : K → Option V}

omit [DecidableEq K] in
theorem Inv.carrying (inv : Inv hash e m M) (key : K) (value : V) :
    Carrying hash e m M ⟨hash key, key, value⟩ (m.home (hash key)) 0 := by
  refine ⟨inv, rfl, inv.layout.home_lt _, ?_, ?_, ?_⟩
  · rw [inv.layout.home_eq]
    rfl
  · intro x _ _
    exact Nat.zero_le _
  · intro i nd below at_i _
    exact Nat.pos_of_ne_zero (inv.layout.ctrl_of_node below at_i)

theorem Inv.insertHash (inv : Inv hash e m M) (big : 1 ≤ e) (key : K) (value : V) :
    Settles hash e m M key value (m.insertHash (hash key) key value) :=
  insertLoop_spec big maxProbe m M ⟨hash key, key, value⟩ _ 0 none (inv.carrying key value)

theorem Inv.insert (inv : Inv hash e m M) (big : 1 ≤ e) (key : K) (value : V) :
    Settles hash e m M key value (m.insert hash key value) := by
  rw [RobinMap.insert]
  by_cases full : m.loadLimit ≤ m.length
  · rw [if_pos full]
    exact ⟨⟨M, inv⟩, rfl⟩
  · rw [if_neg full]
    exact inv.insertHash big key value

end InsertHash

end Micron.Robin
