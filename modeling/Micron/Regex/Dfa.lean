import Micron.Regex.Prefilter

/-!
# The automaton of `dfa.hpp` and its three executors

`build_dfa` finds the sets of instructions that a search can wait at, a state for
each, and a table of 256 successors a state.  The executors read the table: one byte
after byte, one past the bytes that leave a state as it is, and one that keeps the
state and its flags in a byte and shuffles it four times before it looks.
-/

set_option autoImplicit false

namespace Micron.Regex

def kDfaMaxStates : Nat := 255

structure Eclosed where
  seen : Nat → Bool
  key : BitVec 256
  accept : Bool
  eol : Bool

def Eclosed.fresh : Eclosed := ⟨fun _ => false, 0, false, false⟩

def dfaEclose (pv : ProgView) (atStart : Bool) : Nat → Nat → Bool → Eclosed → Eclosed
  | 0, _, _, st => st
  | fuel + 1, pc, inEol, st =>
    match pv.code[pc]? with
    | none => st
    | some i =>
      -- a match is not marked, so that both flags can be set
      if i.code = .match_ then
        if inEol then { st with eol := true } else { st with accept := true }
      else if st.seen pc then st
      else
        let st := { st with seen := fun k => if k = pc then true else st.seen k }
        match i.code with
        | .char | .cls | .any => if inEol then st else { st with key := st.key ||| (1#256 <<< pc) }
        | .jmp => dfaEclose pv atStart fuel i.x inEol st
        | .split => dfaEclose pv atStart fuel i.y inEol (dfaEclose pv atStart fuel i.x inEol st)
        | .save => dfaEclose pv atStart fuel (pc + 1) inEol st
        | .bol => if atStart then dfaEclose pv atStart fuel (pc + 1) inEol st else st
        | .eol => dfaEclose pv atStart fuel (pc + 1) true st
        | .match_ => st

/-- Every call but those at a match marks an instruction, so the depth is bounded. -/
def dfaEcloseTop (pv : ProgView) (atStart : Bool) (pc : Nat) (st : Eclosed) : Eclosed :=
  dfaEclose pv atStart (pv.code.length + 2) pc false st

def dfaConsumes (i : Inst) (c : UInt8) (cls : List Charreach) : Bool :=
  match i.code with
  | .char => UInt8.ofNat i.x == c
  | .cls =>
    match cls[i.x]? with
    | some r => r.test c
    | none => false
  | .any => true
  | _ => false

structure DfaState where
  key : BitVec 256
  accept : Bool
  eol : Bool
  deriving DecidableEq

def Eclosed.state (st : Eclosed) : DfaState := ⟨st.key, st.accept, st.eol⟩

def dfaStep (pv : ProgView) (restart : Bool) (s : DfaState) (c : UInt8) : DfaState :=
  let seeded := if restart then dfaEcloseTop pv false 0 .fresh else .fresh
  ((List.range pv.code.length).foldl (fun st pc =>
    match pv.code[pc]? with
    | none => st
    | some i =>
      if s.key.getLsbD pc && dfaConsumes i c pv.cls then dfaEcloseTop pv false (pc + 1) st else st)
    seeded).state

structure Rows where
  states : List DfaState
  table : Nat → Nat

def intern (states : List DfaState) (s : DfaState) : Option (Nat × List DfaState) :=
  match states.findIdx? (· == s) with
  | some i => some (i, states)
  | none => if kDfaMaxStates ≤ states.length then none else some (states.length, states ++ [s])

/-- One successor of state `sid`; there is none when the states run out. -/
def fillCell (pv : ProgView) (restart : Bool) (sid : Nat) (s : DfaState) (rows : Rows) (c : Nat) :
    Option Rows :=
  (intern rows.states (dfaStep pv restart s (UInt8.ofNat c))).map fun found =>
    ⟨found.2, fun k => if k = sid * 256 + c then found.1 % 256 else rows.table k⟩

def fillRow (pv : ProgView) (restart : Bool) (rows : Rows) (sid : Nat) : Option Rows :=
  match rows.states[sid]? with
  | none => some rows
  | some s => (List.range 256).foldlM (fillCell pv restart sid s) rows

/-- The automaton without what the faster executors add. -/
structure DfaTable where
  nstates : Nat
  start : Nat
  table : Nat → Nat
  accept : Nat → Bool
  eolAccept : Nat → Bool

def Rows.dfaTable (rows : Rows) (start : Nat) : DfaTable where
  nstates := rows.states.length
  start := start
  table := rows.table
  accept s := (rows.states[s]?.map DfaState.accept).getD false
  eolAccept s := (rows.states[s]?.map DfaState.eol).getD false

def hasBol (pv : ProgView) : Bool := pv.code.any fun i => i.code == .bol

/-- Nothing can be read and nothing matches but behind a `^`. -/
def startAnchored (pv : ProgView) : Bool :=
  hasBol pv && decide ((dfaEcloseTop pv false 0 .fresh).state = ⟨0, false, false⟩)

def buildTable (pv : ProgView) : Option DfaTable :=
  if pv.code.length = 0 ∨ 256 < pv.code.length then none
  else if hasBol pv && !startAnchored pv then none
  else
    match intern [] (dfaEcloseTop pv true 0 .fresh).state with
    | none => none
    | some (start, states) =>
      ((List.range kDfaMaxStates).foldlM (fillRow pv (!startAnchored pv))
        ⟨states, fun _ => 0⟩).map fun rows => rows.dfaTable start

/-- How the bytes that leave a state are looked for: `accel_type` with its byte or set. -/
inductive Accel where
  | none
  | byte (escape : UInt8)
  | set (escapes : TruffleMasks)

def DfaTable.escapes (t : DfaTable) (s : Nat) : List Nat :=
  (List.range 256).filter fun c => t.table (s * 256 + c) ≠ s % 256

def DfaTable.accel (t : DfaTable) (s : Nat) : Accel :=
  if t.accept s then .none
  else
    match t.escapes s with
    | [] => .none
    | [first] => .byte (UInt8.ofNat first)
    | escapes =>
      if escapes.length ≤ 32 then
        .set (truffleBuild (escapes.foldl (fun r c => r.set (UInt8.ofNat c)) .empty))
      else .none

def kShengAccept : BitVec 8 := 0x10#8
def kShengEol : BitVec 8 := 0x20#8

def DfaTable.sbyte (t : DfaTable) (s : Nat) : BitVec 8 :=
  BitVec.ofNat 8 s ||| (if t.accept s then kShengAccept else 0) |||
    (if t.eolAccept s then kShengEol else 0)

structure Dfa extends DfaTable where
  hasAccel : Bool
  accel : Nat → Accel
  hasSheng : Bool
  masks : UInt8 → Nat → BitVec 8
  startByte : BitVec 8

def Accel.isNone : Accel → Bool
  | .none => true
  | .byte _ | .set _ => false

def DfaTable.finish (shengAvailable : Bool) (t : DfaTable) : Dfa where
  toDfaTable := t
  hasAccel := (List.range t.nstates).any fun s => !(t.accel s).isNone
  accel := t.accel
  hasSheng := shengAvailable && decide (t.nstates ≤ 16)
  masks c s := t.sbyte (if s < t.nstates then t.table (s * 256 + c.toNat) else 0)
  startByte := t.sbyte t.start

def buildDfa (shengAvailable : Bool) (pv : ProgView) : Option Dfa :=
  (buildTable pv).map (DfaTable.finish shengAvailable)

namespace Dfa

def next (d : Dfa) (s : Nat) (c : UInt8) : Nat := d.table (s * 256 + c.toNat)

def tableLoop (d : Dfa) : Nat → List UInt8 → Bool
  | s, [] => d.eolAccept s
  | s, c :: rest =>
    let s := d.next s c
    if d.accept s then true else d.tableLoop s rest

def tableHasMatch (d : Dfa) (input : List UInt8) : Bool :=
  if d.accept d.start then true
  else if input.length = 0 then d.eolAccept d.start
  else d.tableLoop d.start input

/-- The bytes that a state is known to pass over; `none` when it passes over all. -/
def skip (d : Dfa) (s : Nat) (rest : List UInt8) : Option Nat :=
  match d.accel s with
  | .none => some 0
  | .byte escape => memchr escape rest
  | .set escapes =>
    let idx := truffleFindFirst escapes rest
    if rest.length ≤ idx then none else some idx

/-- Every turn reads a byte, so there are no more than the bytes that are left. -/
def accelLoop (d : Dfa) : Nat → Nat → List UInt8 → Bool
  | 0, s, _ => d.eolAccept s
  | fuel + 1, s, rest =>
    if rest.length = 0 then d.eolAccept s
    else
      match d.skip s rest with
      | none => d.eolAccept s
      | some i =>
        match rest.drop i with
        | [] => d.eolAccept s
        | c :: rest =>
          let s := d.next s c
          if d.accept s then true else d.accelLoop fuel s rest

def accelHasMatch (d : Dfa) (input : List UInt8) : Bool :=
  if d.accept d.start then true else d.accelLoop (input.length + 1) d.start input

/-- `shuffle`: a control byte with its top bit set selects zero. -/
def shuffle (m control : Nat → BitVec 8) (lane : Nat) : BitVec 8 :=
  if (control lane).msb then 0 else m ((control lane).toNat % 16)

def shengTail (d : Dfa) : (Nat → BitVec 8) → List UInt8 → Bool
  | cur, [] => cur 0 &&& kShengEol != 0
  | cur, c :: rest =>
    let cur := shuffle (d.masks c) cur
    if cur 0 &&& kShengAccept != 0 then true else d.shengTail cur rest

def shengLoop (d : Dfa) : (Nat → BitVec 8) → List UInt8 → Bool
  | cur, c1 :: c2 :: c3 :: c4 :: rest =>
    let cur1 := shuffle (d.masks c1) cur
    let cur2 := shuffle (d.masks c2) cur1
    let cur3 := shuffle (d.masks c3) cur2
    let cur4 := shuffle (d.masks c4) cur3
    if (cur1 0 ||| cur2 0 ||| cur3 0 ||| cur4 0) &&& kShengAccept != 0 then true
    else d.shengLoop cur4 rest
  | cur, rest => d.shengTail cur rest

def shengHasMatch (d : Dfa) (input : List UInt8) : Bool :=
  if d.startByte &&& kShengAccept != 0 then true
  else if input.length = 0 then d.startByte &&& kShengEol != 0
  else d.shengLoop (fun _ => d.startByte) input

end Dfa

end Micron.Regex
