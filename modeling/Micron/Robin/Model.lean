import Mathlib.Data.Nat.Bitwise
import Micron.Lib.KeyedRun

/-!
# The robin-hood map of `maps/robin.hpp`

Control bytes, nodes and the element count are explicit state.  The byte array
`ctrl` is a function on slot numbers of which the slots below `nSlots` are
meaningful: `0` marks a free slot and `d + 1` an occupied slot whose entry
sits `d` slots after its home.  `node` is the raw node storage, `none` where no
node is constructed.  A call that throws returns the table as the throw left
it, since `insert_hash` writes before it throws.
-/

set_option autoImplicit false

namespace Micron.Robin

open Micron.Lib Function

structure Node (K V : Type) where
  hash : UInt64
  key : K
  value : V
deriving DecidableEq

structure RobinMap (K V : Type) where
  ctrl : Nat → Nat
  node : Nat → Option (Node K V)
  nSlots : Nat
  mask : Nat
  length : Nat

def loadNum : Nat := 7
def loadDenom : Nat := 8
def maxProbe : Nat := 512
def maxStoredDist : Nat := 253

inductive RobinError where
  | loadFactorLimit
  | distanceSaturated
  | probeLimit
deriving DecidableEq

def RobinError.message : RobinError → String
  | .loadFactorLimit => "robin_map: load factor limit reached; container is fixed-size"
  | .distanceSaturated =>
    "robin_map: stored distance saturated (>253); table needs larger capacity or better hash"
  | .probeLimit => "robin_map: probe limit exceeded (table is full or hash is pathological)"

section Table
variable {K V : Type}

def RobinMap.empty (K V : Type) (n : Nat) : RobinMap K V where
  ctrl := fun _ => 0
  node := fun _ => none
  nSlots := n
  mask := n - 1
  length := 0

def encodeDist (d : Nat) : Nat :=
  let v := d + 1
  if 254 < v then 254 else v

def RobinMap.occupied (m : RobinMap K V) (i : Nat) : Bool := m.ctrl i != 0

def RobinMap.storedDist (m : RobinMap K V) (i : Nat) : Nat := m.ctrl i - 1

def RobinMap.home (m : RobinMap K V) (kh : UInt64) : Nat := kh.toNat &&& m.mask

def RobinMap.next (m : RobinMap K V) (i : Nat) : Nat := (i + 1) &&& m.mask

/-- `node_at(i).hash == kh && node_at(i).key == key`. -/
def RobinMap.matchesAt [DecidableEq K] (m : RobinMap K V) (i : Nat) (kh : UInt64) (key : K) :
    Bool :=
  match m.node i with
  | none => false
  | some nd => nd.hash == kh && decide (nd.key = key)

def RobinMap.valueAt (m : RobinMap K V) (i : Nat) : Option V := (m.node i).map Node.value

/-- A constructed node and its control byte written to slot `i`. -/
def RobinMap.place (m : RobinMap K V) (i : Nat) (nd : Node K V) (dist : Nat) : RobinMap K V :=
  { m with
    ctrl := update m.ctrl i (encodeDist dist)
    node := update m.node i (some nd) }

def RobinMap.destroyAt (m : RobinMap K V) (i : Nat) : RobinMap K V :=
  { m with
    ctrl := update m.ctrl i 0
    node := update m.node i none }

def RobinMap.setValue (m : RobinMap K V) (i : Nat) (value : V) : RobinMap K V :=
  { m with node := update m.node i ((m.node i).map fun nd => { nd with value }) }

/-- The branchless exchange of the carried entry with the resident one: the
hashes through a mask of all ones or all zeros, key and value when `steal`. -/
def exchange (steal : Bool) (carried resident : Node K V) : Node K V × Node K V :=
  let hmask : UInt64 := 0 - (if steal then 1 else 0)
  let dh := (carried.hash ^^^ resident.hash) &&& hmask
  (⟨carried.hash ^^^ dh, if steal then resident.key else carried.key,
      if steal then resident.value else carried.value⟩,
    ⟨resident.hash ^^^ dh, if steal then carried.key else resident.key,
      if steal then carried.value else resident.value⟩)

/-- What a call leaves behind: the table, and a slot or the error thrown. -/
structure Inserted (K V : Type) where
  map : RobinMap K V
  result : Except RobinError Nat

/-- The loop of `insert_hash`.  The first argument is the number of probe steps
left before `total_steps` passes `__max_probe`. -/
def insertLoop [DecidableEq K] :
    Nat → RobinMap K V → Node K V → Nat → Nat → Option Nat → Inserted K V
  | left, m, carried, index, plen, resultIndex =>
    if maxStoredDist < plen then ⟨m, .error .distanceSaturated⟩
    else if !m.occupied index then
      ⟨{ m.place index carried plen with length := m.length + 1 },
        .ok (resultIndex.getD index)⟩
    else if m.matchesAt index carried.hash carried.key then
      ⟨m.setValue index carried.value, .ok index⟩
    else
      let sd := m.storedDist index
      let steal := decide (sd < plen)
      let swapped := exchange steal carried ((m.node index).getD carried)
      let ctrl := if steal then encodeDist plen else m.ctrl index
      let m' := { m with
        ctrl := update m.ctrl index ctrl
        node := update m.node index (some swapped.2) }
      let plen' := if steal then sd else plen
      let resultIndex' := if steal && resultIndex.isNone then some index else resultIndex
      match left with
      | 0 => ⟨m', .error .probeLimit⟩
      | left + 1 => insertLoop left m' swapped.1 (m.next index) (plen' + 1) resultIndex'

def RobinMap.insertHash [DecidableEq K] (m : RobinMap K V) (kh : UInt64) (key : K) (value : V) :
    Inserted K V :=
  insertLoop maxProbe m ⟨kh, key, value⟩ (m.home kh) 0 none

/-- `n_slots_ * __load_num / __load_denom` in 64-bit arithmetic. -/
def RobinMap.loadLimit (m : RobinMap K V) : Nat := m.nSlots * loadNum % 2 ^ 64 / loadDenom

def RobinMap.insert [DecidableEq K] (hash : K → UInt64) (m : RobinMap K V) (key : K) (value : V) :
    Inserted K V :=
  if m.loadLimit ≤ m.length then ⟨m, .error .loadFactorLimit⟩
  else m.insertHash (hash key) key value

/-- The scalar probe loop, shared by `probe_find` and `erase_hash`.  A control
byte is below `256`, so `256` iterations always reach its exit. -/
def scalarProbe [DecidableEq K] (m : RobinMap K V) (kh : UInt64) (key : K) :
    Nat → Nat → Nat → Option Nat
  | 0, _, _ => none
  | fuel + 1, index, plen =>
    if plen < m.ctrl index then
      if m.matchesAt index kh key then some index
      else scalarProbe m kh key fuel (m.next index) (plen + 1)
    else none

/-- `ctrl_scan` over `W` lanes: the first lane whose control byte is not above
the saturated probe length of that lane, `W` when there is none. -/
def ctrlScan (m : RobinMap K V) (W index plen : Nat) : Nat :=
  let bv := if plen ≤ 255 then plen else 255
  ((List.range W).find? fun i => !decide (min 255 (bv + i) < m.ctrl (index + i))).getD W

/-- The vector loop of `probe_find`, then its scalar fallback.  Every iteration
adds `W` to `plen`, which the guard keeps at most `253`. -/
def windowProbe [DecidableEq K] (m : RobinMap K V) (W : Nat) (kh : UInt64) (key : K) :
    Nat → Nat → Nat → Option Nat
  | 0, index, plen => scalarProbe m kh key 256 index plen
  | fuel + 1, index, plen =>
    if plen ≤ maxStoredDist ∧ index + W ≤ m.nSlots then
      let stop := ctrlScan m W index plen
      match (List.range stop).find? fun i => m.matchesAt (index + i) kh key with
      | some i => some (index + i)
      | none =>
        if stop < W then none
        else windowProbe m W kh key fuel ((index + W) &&& m.mask) (plen + W)
    else scalarProbe m kh key 256 index plen

/-- `probe_find` as compiled for a vector window of `W` control bytes (32, 16,
or 0 for the scalar build), giving the slot of the entry. -/
def RobinMap.probeFind [DecidableEq K] (W : Nat) (m : RobinMap K V) (kh : UInt64) (key : K) :
    Option Nat :=
  if m.nSlots = 0 then none
  else if W = 0 then scalarProbe m kh key 256 (m.home kh) 0
  else windowProbe m W kh key 256 (m.home kh) 0

def RobinMap.find [DecidableEq K] (W : Nat) (hash : K → UInt64) (m : RobinMap K V) (key : K) :
    Option V :=
  (m.probeFind W (hash key) key).bind m.valueAt

def RobinMap.size (m : RobinMap K V) : Nat := m.length

/-- The loop of `backward_shift`.  The hole walks forward and meets a free slot
or an entry at its home before it has gone round the table. -/
def backwardShift : Nat → RobinMap K V → Nat → RobinMap K V
  | 0, m, _ => m
  | fuel + 1, m, i =>
    let j := m.next i
    if !m.occupied j || m.storedDist j == 0 then m
    else
      let newDist := m.storedDist j - 1
      let m' := { m with
        ctrl := update (update m.ctrl i (encodeDist newDist)) j 0
        node := update (update m.node i (m.node j)) j none }
      backwardShift fuel m' j

def RobinMap.eraseHash [DecidableEq K] (m : RobinMap K V) (kh : UInt64) (key : K) :
    RobinMap K V × Bool :=
  if m.nSlots = 0 then (m, false)
  else
    match scalarProbe m kh key 256 (m.home kh) 0 with
    | none => (m, false)
    | some index =>
      let m' := { m.destroyAt index with length := m.length - 1 }
      (backwardShift m.nSlots m' index, true)

def RobinMap.erase [DecidableEq K] (hash : K → UInt64) (m : RobinMap K V) (key : K) :
    RobinMap K V × Bool :=
  m.eraseHash (hash key) key

def RobinMap.clear (m : RobinMap K V) : RobinMap K V :=
  { m with ctrl := fun _ => 0, node := fun _ => none, length := 0 }

/-! ## Runs -/

/-- One public call and what it leaves, thrown or not. -/
def RobinMap.call [DecidableEq K] (hash : K → UInt64) (m : RobinMap K V) :
    MapOp K V → Inserted K V
  | .insert key value => m.insert hash key value
  | .erase key => ⟨(m.erase hash key).1, .ok 0⟩
  | .clear => ⟨m.clear, .ok 0⟩

/-- A call sequence in which no call throws. -/
def RobinMap.run [DecidableEq K] (hash : K → UInt64) :
    RobinMap K V → List (MapOp K V) → Option (RobinMap K V)
  | m, [] => some m
  | m, op :: rest =>
    match m.call hash op with
    | ⟨m', .ok _⟩ => m'.run hash rest
    | ⟨_, .error _⟩ => none

/-- The states a map of `2 ^ e` slots reaches, throwing calls included. -/
inductive Reachable [DecidableEq K] (hash : K → UInt64) (e : Nat) : RobinMap K V → Prop where
  | init : Reachable hash e (RobinMap.empty K V (2 ^ e))
  | call {m : RobinMap K V} (op : MapOp K V) :
      Reachable hash e m → Reachable hash e (m.call hash op).map

end Table

end Micron.Robin
