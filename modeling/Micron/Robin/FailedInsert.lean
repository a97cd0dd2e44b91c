import Micron.Robin.Refinement

/-!
# What a throwing insert leaves behind

`insert_hash` throws from inside its displacement loop.  As long as every
resident on the path is at least as far from home as the new entry, the loop
only walks and the throw leaves the table as it was.  The first displacement
puts the new entry into the table, and no later iteration takes it out again:
the loop stops before it has gone round, since some slot is free.
-/

set_option autoImplicit false

namespace Micron.Robin

open Micron.Lib Function

variable {K V : Type} [DecidableEq K] {e : Nat} {hash : K → UInt64}

/-- Residents that stay and do not match are walked past, `t` at a time. -/
theorem insertLoop_skip {m : RobinMap K V} (masked : m.mask = 2 ^ e - 1) (carried : Node K V)
    (res : Option Nat) : ∀ t left index plen,
    (∀ a, a < t → plen + a ≤ 253 ∧ plen + a < m.ctrl ((index + a) % 2 ^ e) ∧
      (m.node ((index + a) % 2 ^ e)).isSome = true ∧
      m.matchesAt ((index + a) % 2 ^ e) carried.hash carried.key = false) →
    index < 2 ^ e →
    insertLoop (left + t) m carried index plen res =
      insertLoop left m carried ((index + t) % 2 ^ e) (plen + t) res := by
  intro t
  induction t with
  | zero =>
    intro left index plen _ below
    rw [add_zero, add_zero, add_zero, Nat.mod_eq_of_lt below]
  | succ t ih =>
    intro left index plen walks below
    obtain ⟨near, far, built, miss⟩ := walks 0 (by omega)
    rw [add_zero, add_zero, Nat.mod_eq_of_lt below] at *
    obtain ⟨nd, at_index⟩ := Option.isSome_iff_exists.mp built
    have nextEq : m.next index = (index + 1) % 2 ^ e := by
      rw [RobinMap.next, masked, and_mask_eq_mod]
    have shifted : ∀ a, (m.next index + a) % 2 ^ e = (index + (a + 1)) % 2 ^ e := by
      intro a
      rw [nextEq, Nat.mod_add_mod]
      congr 1
      omega
    rw [← add_assoc, insertLoop_walk (left + t + 1) res near at_index far miss]
    change insertLoop (left + t) m carried (m.next index) (plen + 1) res = _
    rw [ih left (m.next index) (plen + 1), shifted]
    · congr 1
      omega
    · intro a small
      rw [shifted]
      have := walks (a + 1) (by omega)
      rw [show plen + 1 + a = plen + (a + 1) by omega]
      exact this
    · rw [nextEq]
      exact Nat.mod_lt _ (Nat.two_pow_pos e)

/-- A slot outside the stretch up to a free slot keeps its node. -/
theorem insertLoop_untouched (big : 1 ≤ e) : ∀ t left (m : RobinMap K V) (M : K → Option V)
    (carried : Node K V) (index plen : Nat) (res : Option Nat) (s : Nat),
    Carrying hash e m M carried index plen → t < 2 ^ e →
    m.ctrl ((index + t) % 2 ^ e) = 0 → (∀ a, a ≤ t → (index + a) % 2 ^ e ≠ s) →
    (insertLoop left m carried index plen res).map.node s = m.node s := by
  intro t
  induction t with
  | zero =>
    intro left m M carried index plen res s c _ free avoids
    rw [add_zero, Nat.mod_eq_of_lt c.below] at free
    have apart := avoids 0 (le_refl 0)
    rw [add_zero, Nat.mod_eq_of_lt c.below] at apart
    by_cases near : plen ≤ 253
    · rw [insertLoop_free left res near free]
      simp [RobinMap.place, update_of_ne apart.symm]
    · rw [insertLoop_saturated left res (by omega)]
  | succ t ih =>
    intro left m M carried index plen res s c inside free avoids
    have apart := avoids 0 (by omega)
    rw [add_zero, Nat.mod_eq_of_lt c.below] at apart
    have nextEq := c.inv.layout.next_eq index
    have shifted : ∀ a, (m.next index + a) % 2 ^ e = (index + (a + 1)) % 2 ^ e := by
      intro a
      rw [nextEq, Nat.mod_add_mod]
      congr 1
      omega
    have avoids' : ∀ a, a ≤ t → (m.next index + a) % 2 ^ e ≠ s := by
      intro a small
      rw [shifted]
      exact avoids (a + 1) (by omega)
    by_cases near : plen ≤ 253
    · by_cases freeHere : m.ctrl index = 0
      · rw [insertLoop_free left res near freeHere]
        simp [RobinMap.place, update_of_ne apart.symm]
      · obtain ⟨nd, at_index⟩ := c.inv.layout.node_of_ctrl c.below freeHere
        cases hit : m.matchesAt index carried.hash carried.key with
        | true =>
          rw [insertLoop_match left res near freeHere hit]
          exact setValue_node_of_ne _ apart.symm
        | false =>
          by_cases far : plen < m.ctrl index
          · rw [insertLoop_walk left res near at_index far hit]
            cases left with
            | zero => rfl
            | succ left =>
              exact ih left m M carried _ _ res s (c.walk far hit) (by omega)
                (by rw [shifted]; exact free) avoids'
          · obtain ⟨res', step⟩ :=
              insertLoop_steal left res near at_index freeHere (by omega) hit
            have kept : (m.place index carried plen).node s = m.node s := by
              simp [RobinMap.place, update_of_ne apart.symm]
            rw [step, ← kept]
            cases left with
            | zero => rfl
            | succ left =>
              refine ih left _ _ nd _ _ res' s
                (c.steal big near at_index freeHere (by omega)) (by omega) ?_ avoids'
              have away : (index + (t + 1)) % 2 ^ e ≠ index := by
                intro back
                have base : (index + 0) % 2 ^ e = index := Nat.mod_eq_of_lt c.below
                have := offset_inj inside (by omega) (back.trans base.symm)
                omega
              rw [shifted]
              simp only [RobinMap.place, update_of_ne away]
              exact free
    · rw [insertLoop_saturated left res (by omega)]

def RobinMap.probeSlot (m : RobinMap K V) (kh : UInt64) (p : Nat) : Nat :=
  (m.home kh + p) &&& m.mask

omit [DecidableEq K] in
theorem Layout.probeSlot_eq {m : RobinMap K V} (lay : Layout hash e m) (kh : UInt64) (p : Nat) :
    m.probeSlot kh p = (m.home kh + p) % 2 ^ e := by
  rw [RobinMap.probeSlot, lay.masked, and_mask_eq_mod]

section Throw
variable {m m' : RobinMap K V} {M : K → Option V} {key : K} {value : V} {err : RobinError}

/-- A throwing call walks as long as it meets no closer resident. -/
theorem insertHash_walks (inv : Inv hash e m M)
    (threw : m.insertHash (hash key) key value = ⟨m', .error err⟩) :
    ∀ p, p ≤ 254 → (∀ q, q < p → q < m.ctrl (m.probeSlot (hash key) q)) →
      insertLoop (maxProbe - p) m ⟨hash key, key, value⟩ (m.probeSlot (hash key) p) p none =
        ⟨m', .error err⟩ ∧
      Carrying hash e m M ⟨hash key, key, value⟩ (m.probeSlot (hash key) p) p := by
  intro p
  induction p with
  | zero =>
    intro _ _
    have start : m.probeSlot (hash key) 0 = m.home (hash key) := by
      rw [inv.layout.probeSlot_eq]
      exact Nat.mod_eq_of_lt (inv.layout.home_lt _)
    rw [start]
    exact ⟨threw, inv.carrying key value⟩
  | succ p ih =>
    intro short running
    obtain ⟨reached, c⟩ := ih (by omega) (fun q small => running q (by omega))
    have far := running p (by omega)
    have nextEq : m.next (m.probeSlot (hash key) p) = m.probeSlot (hash key) (p + 1) := by
      rw [inv.layout.next_eq, inv.layout.probeSlot_eq, inv.layout.probeSlot_eq, ← add_succ_mod]
    obtain ⟨nd, at_slot⟩ := inv.layout.node_of_ctrl c.below (by omega)
    cases hit : m.matchesAt (m.probeSlot (hash key) p) (hash key) key with
    | true =>
      rw [insertLoop_match _ none (by omega) (by omega) hit] at reached
      cases reached
    | false =>
      have budget : maxProbe - p = (maxProbe - (p + 1)) + 1 := by
        rw [maxProbe]
        omega
      rw [budget, insertLoop_walk _ none (by omega) at_slot far hit, nextEq] at reached
      have c' := c.walk far hit
      rw [nextEq] at c'
      exact ⟨reached, c'⟩

/-- A throw after a displacement leaves the new entry in the table. -/
theorem insertHash_throw_binds (big : 1 ≤ e) (valid : Valid hash e m M)
    (threw : m.insertHash (hash key) key value = ⟨m', .error err⟩) {p : Nat} (short : p ≤ 253)
    (running : ∀ q, q < p → q < m.ctrl (m.probeSlot (hash key) q))
    (close : m.ctrl (m.probeSlot (hash key) p) ≤ p) (W : Nat) :
    m.find W hash key = none ∧ m'.find W hash key = some value := by
  obtain ⟨reached, c⟩ := insertHash_walks valid.inv threw p (by omega) running
  set slot := m.probeSlot (hash key) p with slotDef
  have unbound : M key = none := c.unbound close
  have taken : m.ctrl slot ≠ 0 := by
    intro free
    rw [insertLoop_free _ none short free] at reached
    cases reached
  obtain ⟨nd, at_slot⟩ := valid.inv.layout.node_of_ctrl c.below taken
  have miss : m.matchesAt slot (hash key) key = false := by
    cases hit : m.matchesAt slot (hash key) key with
    | false => rfl
    | true =>
      rw [insertLoop_match _ none short taken hit] at reached
      cases reached
  have budget : maxProbe - p = (maxProbe - (p + 1)) + 1 := by
    rw [maxProbe]
    omega
  obtain ⟨res', step⟩ := @insertLoop_steal K V _ m ⟨hash key, key, value⟩ slot p
    (maxProbe - (p + 1) + 1) none nd short at_slot taken close miss
  rw [budget, step] at reached
  have c' := c.steal big short at_slot taken close
  -- some slot is free, so the rest of the walk never comes back to `slot`
  obtain ⟨f, belowF, free⟩ := valid.inv.exists_free valid.room
  obtain ⟨t, inside, reach⟩ := exists_offset c.below belowF
  have base : (slot + 0) % 2 ^ e = slot := Nat.mod_eq_of_lt c.below
  have later : t ≠ 0 := by
    rintro rfl
    rw [base] at reach
    rw [← reach] at free
    exact taken free
  have nextEq := valid.inv.layout.next_eq slot
  have shifted : ∀ a, (m.next slot + a) % 2 ^ e = (slot + (a + 1)) % 2 ^ e := by
    intro a
    rw [nextEq, Nat.mod_add_mod]
    congr 1
    omega
  have distinct : f ≠ slot := by
    rintro rfl
    exact taken free
  have untouched := insertLoop_untouched big (t - 1) (maxProbe - (p + 1)) _ _ nd _ _ res' slot c'
    (by omega)
    (by rw [shifted, show t - 1 + 1 = t by omega, reach]
        simp [RobinMap.place, update_of_ne distinct, free])
    (by intro a small back
        rw [shifted] at back
        have := offset_inj (by omega) (by omega) (back.trans base.symm)
        omega)
  have settled := insertLoop_spec big (maxProbe - (p + 1)) _ _ nd _ _ res' c'
  change insertLoop (maxProbe - (p + 1)) _ nd _ _ res' = _ at reached
  rw [reached] at untouched settled
  obtain ⟨⟨M', inv'⟩, _⟩ := settled
  have stored : m'.node slot = some ⟨hash key, key, value⟩ := by
    rw [untouched]
    simp [RobinMap.place]
  constructor
  · rw [valid.inv.find_eq W, unbound]
  · rw [inv'.find_eq W]
    exact inv'.held.sound slot key value c.below (cell_of_node stored)

/-- A throw without a displacement leaves the table as it was. -/
theorem insertHash_throw_walked (inv : Inv hash e m M)
    (threw : m.insertHash (hash key) key value = ⟨m', .error err⟩)
    (running : ∀ q, q ≤ 253 → q < m.ctrl (m.probeSlot (hash key) q)) : m' = m := by
  obtain ⟨reached, _⟩ := insertHash_walks inv threw 254 (le_refl _)
    (fun q small => running q (by omega))
  rw [insertLoop_saturated _ none (by omega)] at reached
  cases reached
  rfl

end Throw

/-- A throwing `insert_hash` leaves every lookup and the size as they were exactly
when each of the first 254 slots of the key's path holds an entry at least as
far from its home as the slot is along the path. -/
theorem insert_hash_throw_keeps_lookups_iff (W e : Nat) (hash : K → UInt64) (sixteen : 4 ≤ e)
    (m m' : RobinMap K V) (reached : Reachable hash e m) (key : K) (value : V)
    (err : RobinError) (threw : m.insertHash (hash key) key value = ⟨m', .error err⟩) :
    ((∀ j, m'.find W hash j = m.find W hash j) ∧ m'.size = m.size) ↔
      ∀ p, p ≤ 253 → p < m.ctrl (m.probeSlot (hash key) p) := by
  obtain ⟨M, valid⟩ := reached.valid (by omega)
  constructor
  · rintro ⟨same, _⟩
    by_contra displaced
    push Not at displaced
    have first := Nat.find_spec displaced
    have earlier := fun q => Nat.find_min displaced (m := q)
    obtain ⟨short, close⟩ := first
    obtain ⟨before, after⟩ := insertHash_throw_binds (by omega) valid threw short
      (fun q small => by
        by_contra stops
        exact earlier q small ⟨by omega, by omega⟩) close W
    rw [same key, before] at after
    cases after
  · intro running
    rw [insertHash_throw_walked valid.inv threw running]
    exact ⟨fun _ => rfl, rfl⟩

/-! ## A table in which an insert displaces and throws -/

section Stacked

/-- Keys `0`, `1` and `1000` have home slot 0, all others home slot 1. -/
def stackedHash (k : Nat) : UInt64 := if k < 2 ∨ k = 1000 then 0 else 1

/-- The table of 512 slots after the inserts of keys `0 .. j - 1`. -/
def stacked (j : Nat) : RobinMap Nat Nat where
  ctrl := fun i => if i < j then (if i < 2 then i + 1 else i) else 0
  node := fun i => if i < j then some ⟨stackedHash i, i, i⟩ else none
  nSlots := 512
  mask := 511
  length := j

def stackedNew : Node Nat Nat := ⟨stackedHash 1000, 1000, 7⟩

theorem stacked_home {k : Nat} (small : k ≤ 254) (j : Nat) :
    ∃ h, (stacked j).home (stackedHash k) = h ∧ (k < 2 ∧ h = 0 ∨ 2 ≤ k ∧ h = 1) := by
  have notLast : k ≠ 1000 := by omega
  simp only [RobinMap.home, stackedHash, stacked, notLast, or_false]
  by_cases low : k < 2
  · exact ⟨0, by rw [if_pos low]; decide, .inl ⟨low, rfl⟩⟩
  · exact ⟨1, by rw [if_neg low]; decide, .inr ⟨by omega, rfl⟩⟩

theorem stacked_miss {j i k : Nat} (kh : UInt64) (other : i ≠ k) :
    (stacked j).matchesAt i kh k = false := by
  simp only [RobinMap.matchesAt, stacked]
  split
  · rfl
  · rename_i nd at_i
    split at at_i
    · cases at_i
      simp [other]
    · cases at_i

theorem stacked_insert {j : Nat} (small : j ≤ 254) :
    (stacked j).insertHash (stackedHash j) j j = ⟨stacked (j + 1), .ok j⟩ := by
  obtain ⟨h, homeEq, homes⟩ := stacked_home small j
  have budget : maxProbe = (maxProbe - (j - h)) + (j - h) := by
    rw [maxProbe]
    omega
  have target : (h + (j - h)) % 2 ^ 9 = j := by
    rw [Nat.mod_eq_of_lt] <;> omega
  rw [RobinMap.insertHash, homeEq, budget, insertLoop_skip (e := 9) rfl]
  · rw [target, zero_add, insertLoop_free]
    · simp only [Option.getD_none, Inserted.mk.injEq, and_true]
      rw [RobinMap.place, encodeDist_eq (by omega)]
      simp only [stacked, RobinMap.mk.injEq, and_true]
      constructor
      · funext i
        by_cases same : i = j
        · subst same
          rw [update_self, if_pos (by omega)]
          split_ifs <;> omega
        · rw [update_of_ne same]
          split_ifs <;> omega
      · funext i
        by_cases same : i = j
        · subst same
          rw [update_self, if_pos (by omega)]
        · rw [update_of_ne same]
          by_cases inside : i < j
          · rw [if_pos inside, if_pos (by omega)]
          · rw [if_neg inside, if_neg (by omega)]
    · omega
    · simp [stacked]
  · intro a inside
    have slot : (h + a) % 2 ^ 9 = h + a := Nat.mod_eq_of_lt (by omega)
    have before : h + a < j := by omega
    rw [slot, zero_add]
    refine ⟨by omega, ?_, ?_, stacked_miss _ (ne_of_lt before)⟩
    · simp only [stacked]
      split_ifs <;> omega
    · simp only [stacked]
      rw [if_pos before]
      rfl
  · omega

theorem stacked_reachable : ∀ j, j ≤ 255 → Reachable stackedHash 9 (stacked j) := by
  intro j
  induction j with
  | zero =>
    intro _
    have start : stacked 0 = RobinMap.empty Nat Nat (2 ^ 9) := by
      simp [stacked, RobinMap.empty]
    rw [start]
    exact .init
  | succ j ih =>
    intro small
    have step := Reachable.call (.insert j j) (ih (by omega))
    have room : ¬ (stacked j).loadLimit ≤ (stacked j).length := by
      simp only [RobinMap.loadLimit, stacked, loadNum, loadDenom]
      omega
    rw [RobinMap.call, RobinMap.insert, if_neg room, stacked_insert (by omega)] at step
    exact step

/-- The insert of key 1000 walks two slots, displaces key 2 and carries it to a
distance the table cannot store. -/
theorem stacked_throws : (stacked 255).insertHash (stackedHash 1000) 1000 7 =
    ⟨(stacked 255).place 2 stackedNew 2, .error .distanceSaturated⟩ := by
  have toSlot2 : insertLoop maxProbe (stacked 255) stackedNew 0 0 none =
      insertLoop (509 + 1) (stacked 255) stackedNew 2 2 none := by
    have skipped := insertLoop_skip (e := 9) (m := stacked 255) rfl
      stackedNew none 2 510 0 0
      (by intro a small
          have slot : (0 + a) % 2 ^ 9 = a := by omega
          rw [slot]
          refine ⟨by omega, ?_, ?_, stacked_miss _ (show a ≠ 1000 by omega)⟩
          · simp only [stacked]
            split_ifs <;> omega
          · simp only [stacked]
            rw [if_pos (by omega)]
            rfl) (by omega)
    exact skipped
  have atSlot2 : (stacked 255).node 2 = some ⟨stackedHash 2, 2, 2⟩ := rfl
  have miss : (stacked 255).matchesAt 2 stackedNew.hash stackedNew.key = false :=
    stacked_miss _ (by decide)
  obtain ⟨res', step⟩ := insertLoop_steal (509 + 1) none (by decide : 2 ≤ 253) atSlot2
    (by decide) (by decide) miss
  have onward : insertNext (509 + 1) ((stacked 255).place 2 stackedNew 2)
      ⟨stackedHash 2, 2, 2⟩ 3 2 res' =
      insertLoop 257 ((stacked 255).place 2 stackedNew 2)
        ⟨stackedHash 2, 2, 2⟩ 255 254 res' := by
    have skipped := insertLoop_skip (e := 9)
      (m := (stacked 255).place 2 stackedNew 2) rfl ⟨stackedHash 2, 2, 2⟩ res'
      252 257 3 2
      (by intro a small
          have slot : (3 + a) % 2 ^ 9 = 3 + a := by omega
          have other : 3 + a ≠ 2 := by omega
          rw [slot]
          refine ⟨by omega, ?_, ?_, ?_⟩
          · simp only [RobinMap.place, update_of_ne other, stacked]
            split_ifs <;> omega
          · simp only [RobinMap.place, update_of_ne other, stacked]
            rw [if_pos (by omega)]
            rfl
          · have old := stacked_miss (j := 255) (stackedHash 2) other
            simp only [RobinMap.matchesAt, RobinMap.place, update_of_ne other] at old ⊢
            exact old) (by omega)
    exact skipped
  change insertLoop maxProbe (stacked 255) stackedNew 0 0 none = _
  rw [toSlot2, step]
  change insertNext (509 + 1) _ _ 3 2 res' = _
  rw [onward, insertLoop_saturated _ _ (by omega)]

/-- The throwing insert of key 1000 leaves its entry in the table. -/
theorem insert_hash_throw_changes_lookup :
    ∃ m m' : RobinMap Nat Nat, Reachable stackedHash 9 m ∧
      m.insertHash (stackedHash 1000) 1000 7 = ⟨m', .error .distanceSaturated⟩ ∧
      m.find 32 stackedHash 1000 = none ∧ m'.find 32 stackedHash 1000 = some 7 := by
  have reached := stacked_reachable 255 (le_refl _)
  obtain ⟨M, valid⟩ := reached.valid (by omega)
  obtain ⟨before, after⟩ := insertHash_throw_binds (by omega) valid stacked_throws
    (p := 2) (by omega)
    (by intro q small
        obtain rfl | rfl : q = 0 ∨ q = 1 := by omega
        · decide
        · decide) (by decide) 32
  exact ⟨_, _, reached, stacked_throws, before, after⟩

/-- The same call through the exact condition, which fails at the third slot. -/
theorem insert_hash_throw_keeps_lookups_iff_stacked :
    ¬ ((∀ j, ((stacked 255).place 2 stackedNew 2).find 32 stackedHash j =
        (stacked 255).find 32 stackedHash j) ∧
      ((stacked 255).place 2 stackedNew 2).size = (stacked 255).size) := by
  rw [insert_hash_throw_keeps_lookups_iff 32 9 stackedHash (by decide) (stacked 255) _
    (stacked_reachable 255 (le_refl _)) 1000 7 .distanceSaturated stacked_throws]
  intro running
  exact absurd (running 2 (by decide)) (by decide)

end Stacked

end Micron.Robin
