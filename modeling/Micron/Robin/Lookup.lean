import Micron.Robin.Model
import Micron.Lib.Cyclic
import Micron.Lib.Lanes

/-!
# The robin-hood invariant and what it gives to lookups

`Layout` ties every control byte to the node of its slot: the stored distance
is the real displacement from the home slot.  `Ordered` is the robin-hood
order: a distance exceeds the one of the slot before it by at most one.
Together they make the scalar probe loop stop at an entry or beyond every slot
that could hold it, and make the vector loop compute the same slot.
-/

set_option autoImplicit false

namespace Micron.Robin

open Micron.Lib List Nat Option

variable {K V : Type} {e : Nat} {m : RobinMap K V}

def RobinMap.cell (m : RobinMap K V) (i : Nat) : Option (K × V) :=
  (m.node i).map fun nd => (nd.key, nd.value)

structure Layout (hash : K → UInt64) (e : Nat) (m : RobinMap K V) : Prop where
  slots : m.nSlots = 2 ^ e
  masked : m.mask = 2 ^ e - 1
  ctrl_le : ∀ i, i < 2 ^ e → m.ctrl i ≤ 254
  built : ∀ i, i < 2 ^ e → (m.ctrl i ≠ 0 ↔ (m.node i).isSome)
  hashed : ∀ i nd, i < 2 ^ e → m.node i = some nd → nd.hash = hash nd.key
  placed : ∀ i nd, i < 2 ^ e → m.node i = some nd →
    (nd.hash.toNat + (m.ctrl i - 1)) % 2 ^ e = i

/-- What the probe loops need of a table, whatever its nodes hold. -/
structure Table (e : Nat) (m : RobinMap K V) : Prop where
  slots : m.nSlots = 2 ^ e
  masked : m.mask = 2 ^ e - 1
  ctrl_le : ∀ i, i < 2 ^ e → m.ctrl i ≤ 254

def Ordered (e : Nat) (m : RobinMap K V) : Prop :=
  ∀ i, i < 2 ^ e → m.ctrl ((i + 1) % 2 ^ e) ≤ m.ctrl i + 1

/-- The whole invariant of a map that holds the finite map `M`. -/
structure Inv (hash : K → UInt64) (e : Nat) (m : RobinMap K V) (M : K → Option V) : Prop where
  layout : Layout hash e m
  ordered : Ordered e m
  held : Holds m.cell (2 ^ e) M
  counted : m.length = load m.cell (2 ^ e)

theorem Table.next_eq (table : Table e m) (i : Nat) : m.next i = (i + 1) % 2 ^ e := by
  rw [RobinMap.next, table.masked, and_mask_eq_mod]

theorem Table.next_lt (table : Table e m) (i : Nat) : m.next i < 2 ^ e := by
  rw [table.next_eq]
  exact Nat.mod_lt _ (Nat.two_pow_pos e)

theorem Table.home_eq (table : Table e m) (kh : UInt64) : m.home kh = kh.toNat % 2 ^ e := by
  rw [RobinMap.home, table.masked, and_mask_eq_mod]

theorem Table.home_lt (table : Table e m) (kh : UInt64) : m.home kh < 2 ^ e := by
  rw [table.home_eq]
  exact Nat.mod_lt _ (Nat.two_pow_pos e)

section Layout
variable {hash : K → UInt64}

theorem Layout.table (lay : Layout hash e m) : Table e m := ⟨lay.slots, lay.masked, lay.ctrl_le⟩

theorem Layout.next_eq (lay : Layout hash e m) (i : Nat) : m.next i = (i + 1) % 2 ^ e :=
  lay.table.next_eq i

theorem Layout.home_eq (lay : Layout hash e m) (kh : UInt64) : m.home kh = kh.toNat % 2 ^ e :=
  lay.table.home_eq kh

theorem Layout.home_lt (lay : Layout hash e m) (kh : UInt64) : m.home kh < 2 ^ e :=
  lay.table.home_lt kh

theorem Layout.node_of_ctrl (lay : Layout hash e m) {i : Nat} (below : i < 2 ^ e)
    (taken : m.ctrl i ≠ 0) : ∃ nd, m.node i = some nd :=
  isSome_iff_exists.mp ((lay.built i below).mp taken)

theorem Layout.ctrl_of_node (lay : Layout hash e m) {i : Nat} {nd : Node K V}
    (below : i < 2 ^ e) (at_i : m.node i = some nd) : m.ctrl i ≠ 0 :=
  (lay.built i below).mpr (by rw [at_i]; rfl)

theorem Layout.node_none (lay : Layout hash e m) {i : Nat} (below : i < 2 ^ e)
    (free : m.ctrl i = 0) : m.node i = none := by
  cases at_i : m.node i with
  | none => rfl
  | some nd => exact absurd free (lay.ctrl_of_node below at_i)

theorem cell_of_node {i : Nat} {nd : Node K V} (at_i : m.node i = some nd) :
    m.cell i = some (nd.key, nd.value) := by
  simp [RobinMap.cell, at_i]

theorem node_of_cell {i : Nat} {k : K} {v : V} (at_i : m.cell i = some (k, v)) :
    ∃ nd, m.node i = some nd ∧ nd.key = k ∧ nd.value = v := by
  simp only [RobinMap.cell, map_eq_some_iff, Prod.mk.injEq] at at_i
  obtain ⟨nd, at_node, rfl, rfl⟩ := at_i
  exact ⟨nd, at_node, rfl, rfl⟩

/-- Walking back `t` slots loses at most `t` from a control byte. -/
theorem Ordered.back (ord : Ordered e m) (a : Nat) :
    ∀ t, m.ctrl ((a + t) % 2 ^ e) ≤ m.ctrl (a % 2 ^ e) + t := by
  intro t
  induction t with
  | zero => exact le_refl _
  | succ t ih =>
    have step := ord ((a + t) % 2 ^ e) (Nat.mod_lt _ (Nat.two_pow_pos e))
    rw [← add_succ_mod] at step
    omega

/-- Every slot between the home of an entry and the entry has a control byte
above its probe length. -/
theorem ctrl_on_path (lay : Layout hash e m) (ord : Ordered e m) {i : Nat} {nd : Node K V}
    (below : i < 2 ^ e) (at_i : m.node i = some nd) {p : Nat} (reach : p ≤ m.ctrl i - 1) :
    p < m.ctrl ((nd.hash.toNat + p) % 2 ^ e) := by
  have taken := lay.ctrl_of_node below at_i
  have back := ord.back (nd.hash.toNat + p) (m.ctrl i - 1 - p)
  have total : nd.hash.toNat + p + (m.ctrl i - 1 - p) = nd.hash.toNat + (m.ctrl i - 1) := by
    omega
  rw [total, lay.placed i nd below at_i] at back
  omega

end Layout

section Scalar
variable [DecidableEq K] {hash : K → UInt64}

theorem matchesAt_iff {i : Nat} {kh : UInt64} {key : K} :
    m.matchesAt i kh key = true ↔ ∃ nd, m.node i = some nd ∧ nd.hash = kh ∧ nd.key = key := by
  unfold RobinMap.matchesAt
  cases m.node i with
  | none => simp
  | some nd => simp

theorem matchesAt_hash_iff (lay : Layout hash e m) {i : Nat} {key : K} (below : i < 2 ^ e) :
    m.matchesAt i (hash key) key = true ↔ ∃ nd, m.node i = some nd ∧ nd.key = key := by
  rw [matchesAt_iff]
  constructor
  · rintro ⟨nd, at_i, _, same⟩
    exact ⟨nd, at_i, same⟩
  · rintro ⟨nd, at_i, same⟩
    exact ⟨nd, at_i, by rw [lay.hashed i nd below at_i, same], same⟩

theorem scalarProbe_sound (lay : Layout hash e m) (kh : UInt64) (key : K) :
    ∀ fuel index plen slot, index < 2 ^ e → scalarProbe m kh key fuel index plen = some slot →
      slot < 2 ^ e ∧ m.matchesAt slot kh key = true := by
  intro fuel
  induction fuel with
  | zero =>
    intro index plen slot _ found
    cases found
  | succ fuel ih =>
    intro index plen slot below found
    rw [scalarProbe] at found
    split at found
    · split at found
      · rename_i hit
        cases found
        exact ⟨below, hit⟩
      · refine ih (m.next index) (plen + 1) slot ?_ found
        rw [lay.next_eq]
        exact Nat.mod_lt _ (Nat.two_pow_pos e)
    · cases found

theorem scalarProbe_complete {M : K → Option V} (lay : Layout hash e m) (ord : Ordered e m)
    (held : Holds m.cell (2 ^ e) M) {i : Nat} {nd : Node K V} (below : i < 2 ^ e)
    (at_i : m.node i = some nd) :
    ∀ fuel p, p ≤ m.ctrl i - 1 → m.ctrl i - 1 < p + fuel →
      scalarProbe m nd.hash nd.key fuel ((nd.hash.toNat + p) % 2 ^ e) p = some i := by
  intro fuel
  induction fuel with
  | zero =>
    intro p reach enough
    omega
  | succ fuel ih =>
    intro p reach enough
    have slotBelow : (nd.hash.toNat + p) % 2 ^ e < 2 ^ e := Nat.mod_lt _ (Nat.two_pow_pos e)
    rw [scalarProbe, if_pos (ctrl_on_path lay ord below at_i reach)]
    split
    · rename_i hit
      obtain ⟨nd', at_slot, _, sameKey⟩ := matchesAt_iff.mp hit
      have atCell := cell_of_node at_slot
      rw [sameKey] at atCell
      rw [held.single _ i nd.key nd'.value nd.value slotBelow below atCell (cell_of_node at_i)]
    · rename_i miss
      have notYet : p ≠ m.ctrl i - 1 := by
        intro atEnd
        apply miss
        rw [atEnd, lay.placed i nd below at_i]
        exact matchesAt_iff.mpr ⟨nd, at_i, rfl, rfl⟩
      have moved := ih (p + 1) (by omega) (by omega)
      rwa [lay.next_eq, ← add_succ_mod]

theorem scalarProbe_eq_some_iff {M : K → Option V} (lay : Layout hash e m) (ord : Ordered e m)
    (held : Holds m.cell (2 ^ e) M) (key : K) (i : Nat) :
    scalarProbe m (hash key) key 256 (m.home (hash key)) 0 = some i ↔
      i < 2 ^ e ∧ ∃ nd, m.node i = some nd ∧ nd.key = key := by
  constructor
  · intro found
    obtain ⟨below, hit⟩ := scalarProbe_sound lay _ _ _ _ _ _ (lay.home_lt _) found
    exact ⟨below, (matchesAt_hash_iff lay below).mp hit⟩
  · rintro ⟨below, nd, at_i, rfl⟩
    have reach := scalarProbe_complete lay ord held below at_i 256 0 (zero_le _)
      (by have := lay.ctrl_le i below; omega)
    rw [← lay.hashed i nd below at_i, lay.home_eq]
    exact reach

/-- More iterations than a control byte can ask for change nothing. -/
theorem scalarProbe_fuel (table : Table e m) (kh : UInt64) (key : K) :
    ∀ fuel more index plen, index < 2 ^ e → 255 ≤ fuel + plen →
      scalarProbe m kh key (fuel + more) index plen = scalarProbe m kh key fuel index plen := by
  intro fuel
  induction fuel with
  | zero =>
    intro more index plen below enough
    cases more with
    | zero => rfl
    | succ more =>
      have := table.ctrl_le index below
      rw [zero_add, scalarProbe, scalarProbe, if_neg (by omega)]
  | succ fuel ih =>
    intro more index plen below enough
    rw [add_right_comm, scalarProbe, scalarProbe,
      ih more (m.next index) (plen + 1) (table.next_lt index) (by omega)]

end Scalar

/-! ## The vector loop -/

section Window
variable [DecidableEq K] {hash : K → UInt64}

/-- `w` slots without wrap-around that keep the loop running and do not match. -/
theorem scalarProbe_skip (table : Table e m) (kh : UInt64) (key : K) :
    ∀ w fuel index plen, index < 2 ^ e → index + w ≤ 2 ^ e →
      (∀ i, i < w → plen + i < m.ctrl (index + i)) →
      (∀ i, i < w → m.matchesAt (index + i) kh key = false) →
      scalarProbe m kh key (fuel + w) index plen =
        scalarProbe m kh key fuel ((index + w) % 2 ^ e) (plen + w) := by
  intro w
  induction w with
  | zero =>
    intro fuel index plen below _ _ _
    rw [add_zero, add_zero, mod_eq_of_lt below, add_zero]
  | succ w ih =>
    intro fuel index plen below inside running noMatch
    have here := running 0 (by omega)
    have miss := noMatch 0 (by omega)
    rw [add_zero] at here miss
    rw [← add_assoc, scalarProbe, if_pos (by omega), if_neg (by rw [miss]; simp)]
    rw [table.next_eq]
    by_cases wraps : index + 1 = 2 ^ e
    · have none_left : w = 0 := by omega
      subst none_left
      rfl
    · have nextBelow : index + 1 < 2 ^ e := by omega
      rw [mod_eq_of_lt nextBelow, ih fuel (index + 1) (plen + 1) nextBelow (by omega)
        (fun i small => by have := running (i + 1) (by omega); rw [show index + 1 + i =
          index + (i + 1) by omega]; omega)
        (fun i small => by rw [show index + 1 + i = index + (i + 1) by omega]
                           exact noMatch (i + 1) (by omega))]
      rw [show index + 1 + w = index + (w + 1) by omega,
        show plen + 1 + w = plen + (w + 1) by omega]

omit [DecidableEq K] in
theorem ctrlScan_eq {W index plen : Nat} (short : plen ≤ 253) :
    ctrlScan m W index plen = ((List.range W).find?
      fun i => !decide (min 255 (plen + i) < m.ctrl (index + i))).getD W := by
  simp only [ctrlScan]
  rw [if_pos (by omega)]

omit [DecidableEq K] in
theorem ctrlScan_le {W index plen : Nat} (short : plen ≤ 253) :
    ctrlScan m W index plen ≤ W := by
  rw [ctrlScan_eq short]
  cases found : (List.range W).find?
      fun i => !decide (min 255 (plen + i) < m.ctrl (index + i)) with
  | none => exact le_refl _
  | some i => exact le_of_lt (mem_range.mp (mem_of_find?_eq_some found))

omit [DecidableEq K] in
theorem ctrlScan_running {W index plen : Nat} (short : plen ≤ 253) {i : Nat}
    (small : i < ctrlScan m W index plen) (byte : m.ctrl (index + i) ≤ 254) :
    plen + i < m.ctrl (index + i) := by
  have inside : i < W := lt_of_lt_of_le small (ctrlScan_le short)
  have above : min 255 (plen + i) < m.ctrl (index + i) := by
    by_contra stops
    rw [ctrlScan_eq short] at small
    cases found : (List.range W).find?
        fun i => !decide (min 255 (plen + i) < m.ctrl (index + i)) with
    | none =>
      have := find?_eq_none.mp found i (mem_range.mpr inside)
      simp [stops] at this
    | some first =>
      rw [found, getD_some] at small
      have earlier := (find?_range_eq_some.mp found).2.2 i small
      simp only [Bool.not_not, decide_eq_true_eq] at earlier
      exact stops earlier
  omega

omit [DecidableEq K] in
theorem ctrlScan_stop {W index plen : Nat} (short : plen ≤ 253)
    (early : ctrlScan m W index plen < W) :
    m.ctrl (index + ctrlScan m W index plen) ≤ plen + ctrlScan m W index plen := by
  rw [ctrlScan_eq short] at early ⊢
  cases found : (List.range W).find?
      fun i => !decide (min 255 (plen + i) < m.ctrl (index + i)) with
  | none =>
    rw [found] at early
    exact absurd early (lt_irrefl W)
  | some first =>
    have stops := (find?_range_eq_some.mp found).1
    simp only [Bool.not_eq_true', decide_eq_false_iff_not] at stops
    rw [getD_some]
    omega

theorem find?_range_match {stop : Nat} {p : Nat → Bool} {i : Nat}
    (found : (List.range stop).find? p = some i) :
    i < stop ∧ p i = true ∧ ∀ j, j < i → p j = false := by
  obtain ⟨hit, inside, earlier⟩ := find?_range_eq_some.mp found
  refine ⟨mem_range.mp inside, hit, ?_⟩
  intro j small
  simpa using earlier j small

/-- The vector loop finds the slot the scalar loop finds. -/
theorem windowProbe_eq_scalarProbe (table : Table e m) (W : Nat) (kh : UInt64) (key : K) :
    ∀ fuel index plen, index < 2 ^ e →
      windowProbe m W kh key fuel index plen = scalarProbe m kh key 256 index plen := by
  intro fuel
  induction fuel with
  | zero =>
    intro index plen _
    rfl
  | succ fuel ih =>
    intro index plen below
    rw [windowProbe]
    split
    · rename_i guard
      obtain ⟨short, inside⟩ := guard
      rw [table.slots] at inside
      have short' : plen ≤ 253 := short
      have stopLe : ctrlScan m W index plen ≤ W := ctrlScan_le short'
      have byte : ∀ i, index + i < 2 ^ e → m.ctrl (index + i) ≤ 254 :=
        fun i small => table.ctrl_le (index + i) small
      have running : ∀ i, i < ctrlScan m W index plen → plen + i < m.ctrl (index + i) :=
        fun i small => ctrlScan_running short' small (byte i (by omega))
      have split256 : ∀ w, w ≤ 256 → (256 - w) + w = 256 := by omega
      simp only
      cases found : (List.range (ctrlScan m W index plen)).find?
          fun i => m.matchesAt (index + i) kh key with
      | some i =>
        obtain ⟨small, hit, earlier⟩ := find?_range_match found
        have bounded := running i small
        have byteI := byte i (by omega)
        have skipped := scalarProbe_skip table kh key i (256 - i) index plen below (by omega)
          (fun j less => running j (by omega)) earlier
        rw [split256 i (by omega), mod_eq_of_lt (by omega)] at skipped
        rw [skipped, show 256 - i = (255 - i) + 1 by omega, scalarProbe, if_pos bounded,
          if_pos hit]
      | none =>
        have noMatch : ∀ i, i < ctrlScan m W index plen →
            m.matchesAt (index + i) kh key = false := by
          intro i small
          have := find?_eq_none.mp found i (mem_range.mpr small)
          simpa using this
        simp only
        split
        · rename_i early
          have ends := ctrlScan_stop short' early
          have bounded : ctrlScan m W index plen ≤ 254 := by
            by_contra many
            have := running 254 (by omega)
            have := byte 254 (by omega)
            omega
          have skipped := scalarProbe_skip table kh key _ (256 - ctrlScan m W index plen)
            index plen below (by omega) running noMatch
          rw [split256 _ (by omega), mod_eq_of_lt (by omega)] at skipped
          rw [skipped, show 256 - ctrlScan m W index plen =
            (255 - ctrlScan m W index plen) + 1 by omega, scalarProbe, if_neg (by omega)]
        · rename_i complete
          have whole : ctrlScan m W index plen = W := by omega
          rw [whole] at running noMatch
          have masked : (index + W) &&& m.mask = (index + W) % 2 ^ e := by
            rw [table.masked, and_mask_eq_mod]
          have nextBelow : (index + W) % 2 ^ e < 2 ^ e := Nat.mod_lt _ (Nat.two_pow_pos e)
          rw [masked, ih _ _ nextBelow, ← scalarProbe_fuel table kh key 256 W index plen below
            (by omega)]
          exact (scalarProbe_skip table kh key W 256 index plen below inside running
            noMatch).symm
    · rfl

end Window

section Find
variable [DecidableEq K] {hash : K → UInt64} {M : K → Option V}

theorem probeFind_eq_scalarProbe (table : Table e m) (W : Nat) (kh : UInt64) (key : K) :
    m.probeFind W kh key = scalarProbe m kh key 256 (m.home kh) 0 := by
  unfold RobinMap.probeFind
  rw [if_neg (by rw [table.slots]; exact (Nat.two_pow_pos e).ne')]
  split
  · rfl
  · exact windowProbe_eq_scalarProbe table W kh key 256 _ 0 (table.home_lt kh)

theorem Inv.find_eq (inv : Inv hash e m M) (W : Nat) (key : K) : m.find W hash key = M key := by
  have slotIff := scalarProbe_eq_some_iff inv.layout inv.ordered inv.held key
  unfold RobinMap.find
  rw [probeFind_eq_scalarProbe inv.layout.table]
  cases found : scalarProbe m (hash key) key 256 (m.home (hash key)) 0 with
  | none =>
    symm
    apply inv.held.eq_none
    intro i v below at_i
    obtain ⟨nd, at_node, same, _⟩ := node_of_cell at_i
    rw [(slotIff i).mpr ⟨below, nd, at_node, same⟩] at found
    cases found
  | some i =>
    obtain ⟨below, nd, at_i, rfl⟩ := (slotIff i).mp found
    rw [inv.held.sound i nd.key nd.value below (cell_of_node at_i)]
    simp [RobinMap.valueAt, at_i]

omit [DecidableEq K] in
theorem Inv.size_eq (inv : Inv hash e m M) : m.size = keyCount M := by
  rw [RobinMap.size, inv.counted, inv.held.keyCount_eq]

end Find

end Micron.Robin

/-!
## The vector forms of `probe_find`

The compiled scans compare all lanes at once: a threshold with saturating addition, a signed
comparison after the top bits are flipped, and the lowest bit that is not set in the mask.
-/

namespace Micron.Robin

open Micron.Lib

variable {K V : Type} {e : Nat} {m : RobinMap K V}

def addSatU8 (x y : BitVec 8) : BitVec 8 := if 255 < x.toNat + y.toNat then 255#8 else x + y

/-- One lane of the comparison: the control byte is above the threshold. -/
def laneAbove (byte threshold : BitVec 8) : Bool := (threshold ^^^ 0x80#8).slt (byte ^^^ 0x80#8)

/-- `ctrl_scan_avx2` for 32 lanes, `ctrl_scan_sse2` for 16. -/
def ctrlScanLanes (m : RobinMap K V) (W index plen : Nat) : Nat :=
  let bv : BitVec 8 := if plen ≤ 255 then BitVec.ofNat 8 plen else 255#8
  let lane := fun i =>
    laneAbove (BitVec.ofNat 8 (m.ctrl (index + i))) (addSatU8 bv (BitVec.ofNat 8 i))
  let mask := moveMask lane W
  if mask = moveMask (fun _ => true) W then W else ctz (~~~mask)

/-- The vector loop of `probe_find` with the compiled scan. -/
def lanesProbe [DecidableEq K] (m : RobinMap K V) (W : Nat) (kh : UInt64) (key : K) :
    Nat → Nat → Nat → Option Nat
  | 0, index, plen => scalarProbe m kh key 256 index plen
  | fuel + 1, index, plen =>
    if plen ≤ maxStoredDist ∧ index + W ≤ m.nSlots then
      let stop := ctrlScanLanes m W index plen
      match (List.range stop).find? fun i => m.matchesAt (index + i) kh key with
      | some i => some (index + i)
      | none =>
        if stop < W then none
        else lanesProbe m W kh key fuel ((index + W) &&& m.mask) (plen + W)
    else scalarProbe m kh key 256 index plen

/-- `probe_find` as compiled for a window of `W` lanes. -/
def RobinMap.probeFindLanes [DecidableEq K] (W : Nat) (m : RobinMap K V) (kh : UInt64) (key : K) :
    Option Nat :=
  if m.nSlots = 0 then none else lanesProbe m W kh key 256 (m.home kh) 0

theorem toNat_addSatU8 (x y : BitVec 8) : (addSatU8 x y).toNat = min 255 (x.toNat + y.toNat) := by
  rw [addSatU8]
  split
  next above =>
    rw [BitVec.toNat_ofNat]
    omega
  next within =>
    rw [BitVec.toNat_add]
    omega

theorem laneAbove_iff {byte plen i : Nat} (small : byte ≤ 255) (short : plen ≤ 255) (lanes : i < 256) :
    laneAbove (BitVec.ofNat 8 byte) (addSatU8 (BitVec.ofNat 8 plen) (BitVec.ofNat 8 i)) =
      decide (min 255 (plen + i) < byte) := by
  rw [laneAbove, flip_slt_flip, toNat_addSatU8, BitVec.toNat_ofNat, BitVec.toNat_ofNat,
    BitVec.toNat_ofNat, Nat.mod_eq_of_lt (by omega), Nat.mod_eq_of_lt (by omega),
    Nat.mod_eq_of_lt (by omega)]

/-- The compiled scan is the scan for the first lane at its threshold. -/
theorem ctrlScanLanes_eq {W index plen : Nat} (width : W ≤ 32) (short : plen ≤ 253)
    (bytes : ∀ i < W, m.ctrl (index + i) ≤ 254) :
    ctrlScanLanes m W index plen = ctrlScan m W index plen := by
  have lanes : ∀ i < W, laneAbove (BitVec.ofNat 8 (m.ctrl (index + i)))
      (addSatU8 (BitVec.ofNat 8 plen) (BitVec.ofNat 8 i)) =
      decide (min 255 (plen + i) < m.ctrl (index + i)) := by
    intro i inside
    have := bytes i inside
    exact laneAbove_iff (by omega) (by omega) (by omega)
  rw [ctrlScan_eq short, ctrlScanLanes]
  rw [if_pos (by omega : plen ≤ 255)]
  generalize sameLanes : (fun i => laneAbove (BitVec.ofNat 8 (m.ctrl (index + i)))
    (addSatU8 (BitVec.ofNat 8 plen) (BitVec.ofNat 8 i))) = lane
  have value : ∀ i < W, lane i = decide (min 255 (plen + i) < m.ctrl (index + i)) := by
    rw [← sameLanes]
    exact lanes
  cases found : (List.range W).find?
      fun i => !decide (min 255 (plen + i) < m.ctrl (index + i)) with
  | none =>
    have all : ∀ i < W, lane i = true := by
      intro i inside
      have running := List.find?_eq_none.mp found i (List.mem_range.mpr inside)
      rw [value i inside]
      rwa [Bool.not_eq_true, Bool.not_eq_false'] at running
    have full : moveMask lane W = moveMask (fun _ => true) W := by
      refine BitVec.eq_of_getLsbD_eq fun i _ => ?_
      rw [getLsbD_moveMask lane width, getLsbD_moveMask _ width]
      by_cases inside : i < W
      · rw [all i inside]
      · rw [decide_eq_false inside, Bool.false_and, Bool.false_and]
    rw [if_pos full]
    rfl
  | some first =>
    obtain ⟨stops, inside, earlier⟩ := List.find?_range_eq_some.mp found
    have inside := List.mem_range.mp inside
    have unset : lane first = false := by
      rw [value first inside]
      simpa using stops
    have before : ∀ j < first, lane j = true := by
      intro j less
      rw [value j (by omega)]
      simpa using earlier j less
    have partly : moveMask lane W ≠ moveMask (fun _ => true) W := by
      intro full
      have bit := getLsbD_moveMask lane width first
      rw [full, getLsbD_moveMask _ width, unset, decide_eq_true inside] at bit
      exact absurd bit (by decide)
    rw [if_neg partly, ctz_not_moveMask width inside unset before]
    rfl

theorem lanesProbe_eq [DecidableEq K] (table : Table e m) {W : Nat} (width : W ≤ 32) (kh : UInt64)
    (key : K) (fuel index plen : Nat) :
    lanesProbe m W kh key fuel index plen = windowProbe m W kh key fuel index plen := by
  induction fuel generalizing index plen with
  | zero => rfl
  | succ fuel ih =>
    rw [lanesProbe, windowProbe]
    by_cases guard : plen ≤ maxStoredDist ∧ index + W ≤ m.nSlots
    · have inside := guard.2
      rw [table.slots] at inside
      have scan : ctrlScanLanes m W index plen = ctrlScan m W index plen :=
        ctrlScanLanes_eq width guard.1 fun i small => table.ctrl_le (index + i) (by omega)
      have onwards := ih ((index + W) &&& m.mask) (plen + W)
      rw [if_pos guard, if_pos guard, scan]
      dsimp only
      cases (List.range (ctrlScan m W index plen)).find?
          fun i => m.matchesAt (index + i) kh key with
      | none => simp only [onwards]
      | some found => rfl
    · rw [if_neg guard, if_neg guard]

/-- Whatever a table's nodes hold, the vector forms and the scalar loop find the same slot. -/
theorem vector_lookup_eq_scalar [DecidableEq K] (m : RobinMap K V) (e W : Nat)
    (slots : m.nSlots = 2 ^ e) (masked : m.mask = 2 ^ e - 1)
    (bytes : ∀ i, i < 2 ^ e → m.ctrl i ≤ 254) (width : W = 16 ∨ W = 32) (kh : UInt64) (key : K)
    (steps : Nat) (enough : 255 ≤ steps) :
    m.probeFindLanes W kh key = scalarProbe m kh key steps (m.home kh) 0 := by
  have table : Table e m := ⟨slots, masked, bytes⟩
  have lanes : W ≤ 32 := by omega
  have below := table.home_lt kh
  have settled : ∀ more, scalarProbe m kh key (255 + more) (m.home kh) 0 =
      scalarProbe m kh key 255 (m.home kh) 0 := fun more =>
    scalarProbe_fuel table kh key 255 more (m.home kh) 0 below (by omega)
  have positive : m.nSlots ≠ 0 := by
    rw [slots]
    exact (Nat.two_pow_pos e).ne'
  rw [RobinMap.probeFindLanes, if_neg positive, lanesProbe_eq table lanes,
    windowProbe_eq_scalarProbe table W kh key 256 _ 0 below, settled 1,
    show steps = 255 + (steps - 255) by omega, settled]

/-- Sixty-four slots whose bytes are all 254, of which slot 47 holds the key 9. -/
def crowded : RobinMap Nat Nat where
  ctrl := fun _ => 254
  node := fun i => if i = 47 then some ⟨5, 9, 1⟩ else none
  nSlots := 64
  mask := 63
  length := 64

/-- From home 5 the vector scan passes two windows of sixteen and finds the key in a third. -/
theorem vector_lookup_eq_scalar_crowded :
    crowded.probeFindLanes 16 5 9 = scalarProbe crowded 5 9 255 (crowded.home 5) 0 ∧
      crowded.probeFindLanes 16 5 9 = some 47 := by
  have agree := vector_lookup_eq_scalar crowded 6 16 rfl rfl (fun _ _ => le_refl 254)
    (.inl rfl) 5 9 255 (le_refl 255)
  refine ⟨agree, ?_⟩
  decide +kernel

end Micron.Robin
