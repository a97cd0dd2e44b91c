import Mathlib.Algebra.Order.Ring.Nat

/-!
# Regular expressions and their programs

`Node` is the syntax tree a pattern is parsed to, `Inst` the instruction of the
matching machine, and `emitNode` the compiler from the one to the other: it writes
forward jumps as blanks and fills them in once it knows where they lead.
-/

set_option autoImplicit false

namespace Micron.Regex

def kInf : Nat := 0xffffffff

def u32 (x : Nat) : Nat := x % 2 ^ 32

theorem u32_of_lt {x : Nat} (small : x < 2 ^ 32) : u32 x = x := Nat.mod_eq_of_lt small

/-- A set of bytes, a bit for each in four words. -/
structure Charreach where
  w : Fin 4 → UInt64

def Charreach.test (r : Charreach) (c : UInt8) : Bool :=
  (r.w (Fin.ofNat 4 (c.toNat >>> 6)) >>> (UInt64.ofNat (c.toNat &&& 63))) &&& 1 != 0

def Charreach.empty : Charreach := ⟨fun _ => 0⟩

def Charreach.set (r : Charreach) (c : UInt8) : Charreach :=
  ⟨fun j => if j = Fin.ofNat 4 (c.toNat >>> 6) then
    r.w j ||| (1 <<< UInt64.ofNat (c.toNat &&& 63)) else r.w j⟩

/-- A tree of the parser.  The bound `hi` of a repetition is `kInf` when there is
none; groups are numbered from 1 on. -/
inductive Node where
  | empty
  | char (a : UInt8)
  | cls (a : Nat)
  | any
  | concat (a b : Node)
  | alt (a b : Node)
  | star (a : Node)
  | plus (a : Node)
  | quest (a : Node)
  | rep (a : Node) (lo hi : Nat)
  | group (a : Node) (g : Nat)
  | bol
  | eol
  deriving DecidableEq, Repr

/-- What the fields of a tree keep to: bounds and group numbers are words, bounds are
in order, and the slots of a group are not those of the whole match. -/
def Node.Wf : Node → Prop
  | .empty | .char _ | .cls _ | .any | .bol | .eol => True
  | .concat a b | .alt a b => a.Wf ∧ b.Wf
  | .star a | .plus a | .quest a => a.Wf
  | .rep a lo hi => a.Wf ∧ lo ≤ hi ∧ hi ≤ kInf
  | .group a g => a.Wf ∧ 1 ≤ g ∧ 2 * g + 1 < 2 ^ 32

def Node.decideWf : (t : Node) → Decidable t.Wf
  | .empty | .char _ | .cls _ | .any | .bol | .eol => inferInstanceAs (Decidable True)
  | .concat a b | .alt a b => @instDecidableAnd _ _ a.decideWf b.decideWf
  | .star a | .plus a | .quest a => a.decideWf
  | .rep a lo hi => @instDecidableAnd _ _ a.decideWf (inferInstanceAs (Decidable (lo ≤ hi ∧ hi ≤ kInf)))
  | .group a g =>
    @instDecidableAnd _ _ a.decideWf (inferInstanceAs (Decidable (1 ≤ g ∧ 2 * g + 1 < 2 ^ 32)))

instance (t : Node) : Decidable t.Wf := t.decideWf

inductive Op where
  | char
  | cls
  | any
  | match_
  | jmp
  | split
  | save
  | bol
  | eol
  deriving DecidableEq, Repr

structure Inst where
  code : Op
  x : Nat
  y : Nat
  deriving DecidableEq, Repr

structure ProgView where
  code : List Inst
  cls : List Charreach
  ngroups : Nat

/-- The slots of a thread: two for each group and two for the whole match. -/
def ProgView.nslots (pv : ProgView) : Nat := 2 * (pv.ngroups + 1)

/-- The part of the buffer that is written, the size of the buffer, and whether
everything emitted so far has fitted. -/
structure Emitter where
  code : List Inst
  maxi : Nat
  ok : Bool

namespace Emitter

def ni (e : Emitter) : Nat := e.code.length

def emit (e : Emitter) (i : Inst) : Nat × Emitter :=
  if e.maxi ≤ e.ni then
    (if e.maxi = 0 then 0 else u32 (e.maxi - 1), { e with ok := false })
  else
    (u32 e.ni, { e with code := e.code ++ [i] })

def setX (e : Emitter) (k x : Nat) : Emitter :=
  { e with code := e.code.modify k fun i => { i with x := x } }

def setY (e : Emitter) (k y : Nat) : Emitter :=
  { e with code := e.code.modify k fun i => { i with y := y } }

/-- `split body, out; body; jmp split`, for `a*` and for the end of `a{m,}`. -/
def emitStar (body : Emitter → Emitter) (e : Emitter) : Emitter :=
  let (l1, e) := e.emit ⟨.split, 0, 0⟩
  let bs := u32 e.ni
  let e := body e
  let (_, e) := e.emit ⟨.jmp, l1, 0⟩
  (e.setX l1 bs).setY l1 (u32 e.ni)

/-- `split body, out; body`, once for each repetition that may be left out. -/
def emitOptional (body : Emitter → Emitter) (e : Emitter) : Emitter :=
  let (sp, e) := e.emit ⟨.split, 0, 0⟩
  let bs := u32 e.ni
  let e := body e
  (e.setX sp bs).setY sp (u32 e.ni)

def emitTimes (body : Emitter → Emitter) : Nat → Emitter → Emitter
  | 0, e => e
  | k + 1, e => if e.ok then emitTimes body k (body e) else e

def emitNode (t : Node) (e : Emitter) : Emitter :=
  if !e.ok then e
  else
    match t with
    | .empty => e
    | .char a => (e.emit ⟨.char, a.toNat, 0⟩).2
    | .cls a => (e.emit ⟨.cls, a, 0⟩).2
    | .any => (e.emit ⟨.any, 0, 0⟩).2
    | .bol => (e.emit ⟨.bol, 0, 0⟩).2
    | .eol => (e.emit ⟨.eol, 0, 0⟩).2
    | .concat a b => emitNode b (emitNode a e)
    | .alt a b =>
      let (sp, e) := e.emit ⟨.split, 0, 0⟩
      let e := emitNode a e
      let (jm, e) := e.emit ⟨.jmp, 0, 0⟩
      let l2 := u32 e.ni
      let e := emitNode b e
      ((e.setX sp (u32 (sp + 1))).setY sp l2).setX jm (u32 e.ni)
    | .star a => emitStar (emitNode a) e
    | .plus a =>
      let bs := u32 e.ni
      let e := emitNode a e
      let (sp, e) := e.emit ⟨.split, 0, 0⟩
      (e.setX sp bs).setY sp (u32 e.ni)
    | .quest a =>
      let (sp, e) := e.emit ⟨.split, 0, 0⟩
      let e := emitNode a e
      (e.setX sp (u32 (sp + 1))).setY sp (u32 e.ni)
    | .group a g =>
      let (_, e) := e.emit ⟨.save, u32 (2 * g), 0⟩
      let e := emitNode a e
      (e.emit ⟨.save, u32 (2 * g + 1), 0⟩).2
    | .rep a lo hi =>
      let e := emitTimes (emitNode a) lo e
      if hi = kInf then emitStar (emitNode a) e
      else emitTimes (emitOptional (emitNode a)) (hi - lo) e

/-- The program of a whole tree, as `compile_regex` emits it after parsing. -/
def emitProgram (maxi : Nat) (root : Node) : Emitter :=
  let (_, e) := (Emitter.mk [] maxi true).emit ⟨.save, 0, 0⟩
  let e := emitNode root e
  let (_, e) := e.emit ⟨.save, 1, 0⟩
  (e.emit ⟨.match_, 0, 0⟩).2

end Emitter

def compileNode (maxi : Nat) (root : Node) : Option (List Inst) :=
  let e := Emitter.emitProgram maxi root
  if e.ok then some e.code else none

/-!
## The Pike machine

The machine keeps a list of threads for the current offset, with no instruction in
it twice, and builds from it the list for the next one.  `seen` holds for each
instruction the generation it was last added in; the generation is a word and is
raised once for each list.
-/

def i64 (x : Nat) : Int := (x : Int).bmod (2 ^ 64)

structure Thread where
  pc : Nat
  sav : List Int

/-- A list of threads under construction, with the marks of the instructions. -/
structure Closure where
  seen : Nat → Nat
  list : List Thread

def Closure.mark (l : Closure) (pc gen : Nat) : Closure :=
  { l with seen := fun k => if k = pc then gen else l.seen k }

/-- Adds `pc` and all it leads to without reading a byte.  A call that goes on marks
an instruction first, so that calls are nested at most once for each of them. -/
def addthread (pv : ProgView) (n gen sp : Nat) : Nat → Nat → List Int → Closure → Closure
  | 0, _, _, l => l
  | fuel + 1, pc, sav, l =>
    if l.seen pc = gen then l
    else
      let l := l.mark pc gen
      match pv.code[pc]? with
      | none => l
      | some i =>
        match i.code with
        | .jmp => addthread pv n gen sp fuel i.x sav l
        | .split => addthread pv n gen sp fuel i.y sav (addthread pv n gen sp fuel i.x sav l)
        | .save =>
          if i.x < pv.nslots then
            addthread pv n gen sp fuel (pc + 1) (sav.set i.x (i64 sp)) l
          else addthread pv n gen sp fuel (pc + 1) sav l
        | .bol => if sp = 0 then addthread pv n gen sp fuel (pc + 1) sav l else l
        | .eol => if sp = n then addthread pv n gen sp fuel (pc + 1) sav l else l
        | .char | .cls | .any | .match_ =>
          if l.list.length < pv.code.length then { l with list := l.list ++ [⟨pc, sav⟩] }
          else l

/-- The call from outside, with room for every instruction. -/
def addthreadTop (pv : ProgView) (n gen sp pc : Nat) (sav : List Int) (l : Closure) : Closure :=
  addthread pv n gen sp (pv.code.length + 1) pc sav l

structure Best where
  matched : Bool
  mstart : Int
  mend : Int
  mcaps : List Int

structure Vm where
  a : List Thread
  seen : Nat → Nat
  gen : Nat
  best : Best

/-- A byte against an instruction; an offset past the end has no byte. -/
def consumes (cls : List Charreach) (i : Inst) : Option UInt8 → Bool
  | none => false
  | some c =>
    match i.code with
    | .char => c.toNat == i.x
    | .cls =>
      match cls[i.x]? with
      | some r => r.test c
      | none => false
    | .any => true
    | _ => false

/-- A thread at `match` at offset `sp`: an earlier start wins, then a later end. -/
def Best.offer (b : Best) (sav : List Int) (sp : Nat) : Best :=
  let st := sav.headD (-1)
  let en := i64 sp
  if !b.matched || st < b.mstart || (st == b.mstart && b.mend < en) then ⟨true, st, en, sav⟩ else b

def advance (pv : ProgView) (n gen sp : Nat) (c : Option UInt8) (acc : Closure × Best)
    (t : Thread) : Closure × Best :=
  match pv.code[t.pc]? with
  | none => acc
  | some i =>
    if i.code = .match_ then (acc.1, acc.2.offer t.sav sp)
    else if consumes pv.cls i c then
      (addthreadTop pv n gen (sp + 1) (t.pc + 1) t.sav acc.1, acc.2)
    else acc

def work (pv : ProgView) : List Int := List.replicate pv.nslots (-1)

def turn (pv : ProgView) (n : Nat) (anchored : Bool) (sp : Nat) (c : Option UInt8) (m : Vm) : Vm :=
  let gen := u32 (m.gen + 1)
  let (b, best) := m.a.foldl (advance pv n gen sp c) (⟨m.seen, []⟩, m.best)
  let b :=
    if !best.matched && !anchored && sp + 1 ≤ n then
      addthreadTop pv n gen (sp + 1) 0 (work pv) b
    else b
  ⟨b.list, b.seen, gen, best⟩

/-- The loop over the offsets, with the bytes that are left from `sp` on. -/
def loop (pv : ProgView) (n : Nat) (anchored : Bool) : List UInt8 → Nat → Vm → Vm
  | [], sp, m =>
    if m.a.isEmpty && (m.best.matched || anchored) then m else turn pv n anchored sp none m
  | c :: rest, sp, m =>
    if m.a.isEmpty && (m.best.matched || anchored) then m
    else loop pv n anchored rest (sp + 1) (turn pv n anchored sp (some c) m)

/-- `run`, on the marks, the generation and the last match that the machine was left
with. -/
def run (pv : ProgView) (input : List UInt8) (anchored : Bool) (startAt : Nat) (m : Vm) : Vm :=
  let gen := u32 (m.gen + 1)
  let l := addthreadTop pv input.length gen startAt 0 (work pv) ⟨m.seen, []⟩
  loop pv input.length anchored (input.drop startAt) startAt
    ⟨l.list, l.seen, gen, { m.best with matched := false, mcaps := work pv }⟩

def Vm.init : Vm := ⟨[], fun _ => 0, 0, ⟨false, 0, 0, []⟩⟩

end Micron.Regex
