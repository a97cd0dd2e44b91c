import Micron.Regex.Parser

/-!
# Room for a pattern

`regex::build` sizes its tables by the length of the pattern.  A byte of a pattern without
braces makes at most two nodes, one class and two instructions, so the parser and the
emitter do in these tables what they do in any that are larger.
-/

set_option autoImplicit false

namespace Micron.Regex

open List Nat Option Bool

/-- `compile_regex`: the instructions, the classes and the number of groups. -/
def compileRegex (pat : List UInt8) (maxn maxc maxi : Nat) : Option ProgView :=
  match parse pat maxn maxc with
  | none => none
  | some (root, p) =>
    if !p.ok then none
    else
      let e := Emitter.emitProgram maxi root
      if !e.ok then none else some ⟨e.code, p.cls, p.ngroups⟩

def kMaxGroups : Nat := 32

def buildRegex (pat : List UInt8) : Option ProgView :=
  (compileRegex pat (pat.length * 4 + 16) (pat.length + 8) (pat.length * 8 + 32)).filter
    fun pv => pv.ngroups ≤ kMaxGroups

namespace Node

def Flat : Node → Prop
  | .empty | .char _ | .cls _ | .any | .bol | .eol => True
  | .concat a b | .alt a b => a.Flat ∧ b.Flat
  | .star a | .plus a | .quest a | .group a _ => a.Flat
  | .rep .. => False

/-- The instructions of a tree without counted repetitions. -/
def size : Node → Nat
  | .empty => 0
  | .char _ | .cls _ | .any | .bol | .eol => 1
  | .concat a b => a.size + b.size
  | .alt a b => a.size + b.size + 2
  | .star a | .group a _ => a.size + 2
  | .plus a | .quest a => a.size + 1
  | .rep a .. => a.size

end Node

/-- No instruction leads beyond `m`. -/
def LeadsTo (code : List Inst) (m : Nat) : Prop :=
  ∀ i ∈ code, i.code = .split ∨ i.code = .jmp → i.x ≤ m ∧ i.y ≤ m

theorem LeadsTo.mono {code : List Inst} {m m' : Nat} (leads : LeadsTo code m) (le : m ≤ m') :
    LeadsTo code m' :=
  fun i inside jumps => ⟨le_trans (leads i inside jumps).1 le, le_trans (leads i inside jumps).2 le⟩

theorem LeadsTo.modify {code : List Inst} {m : Nat} (leads : LeadsTo code m) (k : Nat) (f : Inst → Inst)
    (same : ∀ i, (f i).code = i.code)
    (kept : ∀ i, i.x ≤ m ∧ i.y ≤ m → (f i).x ≤ m ∧ (f i).y ≤ m) : LeadsTo (code.modify k f) m := by
  intro i inside jumps
  obtain ⟨j, place⟩ := getElem?_of_mem inside
  rw [getElem?_modify] at place
  split at place
  next =>
    obtain ⟨i', there, rfl⟩ := map_eq_some_iff.mp place
    rw [same] at jumps
    exact kept i' (leads i' (mem_of_getElem? there) jumps)
  next =>
    obtain ⟨i', there, rfl⟩ := map_eq_some_iff.mp place
    exact leads i' (mem_of_getElem? there) jumps

namespace Emitter

structure Grown (s : Nat) (e e' : Emitter) : Prop where
  ok : e'.ok = true
  ni : e'.ni = e.ni + s
  maxi : e'.maxi = e.maxi
  leads : LeadsTo e.code e.ni → LeadsTo e'.code e'.ni

variable {s s' : Nat} {e e' e'' : Emitter}

theorem Grown.refl (ok : e.ok = true) : Grown 0 e e := ⟨ok, rfl, rfl, id⟩

theorem Grown.trans (first : Grown s e e') (second : Grown s' e' e'') : Grown (s + s') e e'' :=
  ⟨second.ok, by rw [second.ni, first.ni, add_assoc], second.maxi.trans first.maxi,
    second.leads ∘ first.leads⟩

theorem Grown.setX (grown : Grown s e e') (k : Nat) {x : Nat} (small : x ≤ e'.ni) :
    Grown s e (e'.setX k x) := by
  refine ⟨grown.ok, by rw [setX_ni, grown.ni], grown.maxi, fun leads => ?_⟩
  rw [setX_ni]
  exact (grown.leads leads).modify k _ (fun _ => rfl) fun _ both => ⟨small, both.2⟩

theorem Grown.setY (grown : Grown s e e') (k : Nat) {y : Nat} (small : y ≤ e'.ni) :
    Grown s e (e'.setY k y) := by
  refine ⟨grown.ok, by rw [setY_ni, grown.ni], grown.maxi, fun leads => ?_⟩
  rw [setY_ni]
  exact (grown.leads leads).modify k _ (fun _ => rfl) fun _ both => ⟨both.1, small⟩

theorem u32_le (x : Nat) : u32 x ≤ x := mod_le x _

theorem emit_grown (i : Inst) (ok : e.ok = true) (room : e.ni < e.maxi)
    (small : i.code = .split ∨ i.code = .jmp → i.x ≤ e.ni ∧ i.y ≤ e.ni) :
    Grown 1 e (e.emit i).2 ∧ (e.emit i).1 ≤ e.ni := by
  unfold emit
  rw [if_neg (not_le.mpr room)]
  have longer : Emitter.ni { e with code := e.code ++ [i] } = e.ni + 1 := by simp [ni]
  refine ⟨⟨ok, longer, rfl, fun leads => ?_⟩, u32_le _⟩
  rw [longer]
  intro j inside jumps
  rcases mem_append.mp inside with old | new
  · exact leads.mono (le_succ _) j old jumps
  · rw [mem_singleton.mp new] at jumps ⊢
    exact ⟨le_succ_of_le (small jumps).1, le_succ_of_le (small jumps).2⟩

theorem plain_grown {op : Op} (x y : Nat) (other : op ≠ .split ∧ op ≠ .jmp) (ok : e.ok = true)
    (room : e.ni < e.maxi) : Grown 1 e (e.emit ⟨op, x, y⟩).2 :=
  (emit_grown ⟨op, x, y⟩ ok room fun jumps => jumps.elim (absurd · other.1) (absurd · other.2)).1

theorem plain_leads {op : Op} {m : Nat} (x y : Nat) (other : op ≠ .split ∧ op ≠ .jmp)
    (leads : LeadsTo e.code m) : LeadsTo (e.emit ⟨op, x, y⟩).2.code m := by
  unfold emit
  split
  next => exact leads
  next =>
    intro i inside jumps
    rcases mem_append.mp inside with old | new
    · exact leads i old jumps
    · rw [mem_singleton.mp new] at jumps
      exact jumps.elim (absurd · other.1) (absurd · other.2)

/-- A tree that there is room for is emitted, and leads no further than its own end. -/
theorem emitNode_grown (t : Node) (flat : t.Flat) (ok : e.ok = true) (room : e.ni + t.size ≤ e.maxi) :
    Grown t.size e (emitNode t e) := by
  induction t generalizing e with
  | empty =>
    unfold emitNode
    simp only [ok, Bool.not_true, Bool.false_eq_true, if_false]
    exact .refl ok
  | char a | cls a | any | bol | eol =>
    unfold emitNode
    simp only [ok, Bool.not_true, Bool.false_eq_true, if_false]
    exact plain_grown _ _ (by decide) ok room
  | concat a b iha ihb =>
    unfold emitNode
    simp only [ok, Bool.not_true, Bool.false_eq_true, if_false]
    simp only [Node.size] at room ⊢
    have first := iha flat.1 ok (by omega)
    have second := ihb flat.2 first.ok (by rw [first.ni, first.maxi]; omega)
    exact first.trans second
  | alt a b iha ihb =>
    unfold emitNode
    simp only [ok, Bool.not_true, Bool.false_eq_true, if_false]
    simp only [Node.size] at room ⊢
    obtain ⟨opened, sp⟩ := emit_grown ⟨.split, 0, 0⟩ ok (by omega)
      fun _ => ⟨zero_le _, zero_le _⟩
    have first := opened.trans (iha flat.1 opened.ok (by rw [opened.ni, opened.maxi]; omega))
    obtain ⟨jumped, jm⟩ := emit_grown ⟨.jmp, 0, 0⟩ first.ok (by rw [first.ni, first.maxi]; omega)
      fun _ => ⟨zero_le _, zero_le _⟩
    have middle := first.trans jumped
    have last := ihb flat.2 middle.ok (by rw [middle.ni, middle.maxi]; omega)
    have whole := middle.trans last
    have sum : 1 + a.size + 1 + b.size = a.size + b.size + 2 := by omega
    rw [sum] at whole
    have end_ := whole.ni
    have half := middle.ni
    refine ((whole.setX _ ?_).setY _ ?_).setX _ ?_
    · exact le_trans (u32_le _) (by omega)
    · rw [setX_ni]
      exact le_trans (u32_le _) (by omega)
    · rw [setY_ni, setX_ni]
      exact u32_le _
  | star a ih =>
    unfold emitNode emitStar
    simp only [ok, Bool.not_true, Bool.false_eq_true, if_false]
    simp only [Node.size] at room ⊢
    obtain ⟨opened, l1⟩ := emit_grown ⟨.split, 0, 0⟩ ok (by omega)
      fun _ => ⟨zero_le _, zero_le _⟩
    have body := opened.trans (ih flat opened.ok (by rw [opened.ni, opened.maxi]; omega))
    have inner := body.ni
    obtain ⟨jumped, -⟩ := emit_grown ⟨.jmp, (e.emit ⟨.split, 0, 0⟩).1, 0⟩ body.ok
      (by rw [body.ni, body.maxi]; omega) fun _ => ⟨by dsimp only; omega, zero_le _⟩
    have whole := body.trans jumped
    have sum : 1 + a.size + 1 = a.size + 2 := by omega
    rw [sum] at whole
    have end_ := whole.ni
    have start := opened.ni
    refine (whole.setX _ ?_).setY _ ?_
    · exact le_trans (u32_le _) (by omega)
    · rw [setX_ni]
      exact u32_le _
  | plus a ih =>
    unfold emitNode
    simp only [ok, Bool.not_true, Bool.false_eq_true, if_false]
    simp only [Node.size] at room ⊢
    have body := ih flat ok (by omega)
    obtain ⟨split, -⟩ := emit_grown ⟨.split, 0, 0⟩ body.ok (by rw [body.ni, body.maxi]; omega)
      fun _ => ⟨zero_le _, zero_le _⟩
    have whole := body.trans split
    have end_ := whole.ni
    refine (whole.setX _ ?_).setY _ ?_
    · exact le_trans (u32_le _) (by omega)
    · rw [setX_ni]
      exact u32_le _
  | quest a ih =>
    unfold emitNode
    simp only [ok, Bool.not_true, Bool.false_eq_true, if_false]
    simp only [Node.size] at room ⊢
    obtain ⟨opened, sp⟩ := emit_grown ⟨.split, 0, 0⟩ ok (by omega)
      fun _ => ⟨zero_le _, zero_le _⟩
    have whole := opened.trans (ih flat opened.ok (by rw [opened.ni, opened.maxi]; omega))
    rw [add_comm 1] at whole
    have end_ := whole.ni
    refine (whole.setX _ ?_).setY _ ?_
    · exact le_trans (u32_le _) (by omega)
    · rw [setX_ni]
      exact u32_le _
  | group a g ih =>
    unfold emitNode
    simp only [ok, Bool.not_true, Bool.false_eq_true, if_false]
    simp only [Node.size] at room ⊢
    have opened := @plain_grown _ .save (u32 (2 * g)) 0 (by decide) ok (by omega)
    have body := opened.trans (ih flat opened.ok (by rw [opened.ni, opened.maxi]; omega))
    have whole := body.trans (@plain_grown _ .save (u32 (2 * g + 1)) 0 (by decide) body.ok
      (by rw [body.ni, body.maxi]; omega))
    have sum : 1 + a.size + 1 = a.size + 2 := by omega
    rw [sum] at whole
    exact whole
  | rep a lo hi ih => exact flat.elim

/-- The whole program, with the slots of the match around the tree. -/
theorem emitProgram_grown (t : Node) (flat : t.Flat) (maxi : Nat) (room : t.size + 3 ≤ maxi) :
    (emitProgram maxi t).ok = true ∧ (emitProgram maxi t).ni = t.size + 3 ∧
      LeadsTo (emitProgram maxi t).code (t.size + 2) := by
  have none : Emitter.ni ⟨[], maxi, true⟩ = 0 := rfl
  have opened := @plain_grown ⟨[], maxi, true⟩ .save 0 0 (by decide) rfl
    (by rw [none]; dsimp only; omega)
  have body := opened.trans (emitNode_grown t flat opened.ok (by rw [opened.ni, opened.maxi, none]; dsimp only; omega))
  have closed := body.trans (@plain_grown _ .save 1 0 (by decide) body.ok
    (by rw [body.ni, body.maxi, none]; dsimp only; omega))
  have last := closed.trans (@plain_grown _ .match_ 0 0 (by decide) closed.ok
    (by rw [closed.ni, closed.maxi, none]; dsimp only; omega))
  have start : LeadsTo (Emitter.mk [] maxi true).code (Emitter.mk [] maxi true).ni :=
    fun i inside => nomatch inside
  have inner := closed.leads start
  rw [closed.ni, none] at inner
  have length := last.ni
  refine ⟨last.ok, by rw [emitProgram, length]; omega, ?_⟩
  exact plain_leads 0 0 (by decide) (inner.mono (by omega))

end Emitter

/-! ## The parser -/

def Parser.room (p : Parser) (n c : Nat) : Parser := { p with maxn := n, maxc := c }

/-- Both tables have room for what the rest of the pattern makes, and for `k` more nodes. -/
structure Roomy (n c k : Nat) (p : Parser) : Prop where
  own : p.nn + 2 * p.rest.length + k ≤ p.maxn
  other : p.nn + 2 * p.rest.length + k ≤ n
  ownClasses : p.cls.length + p.rest.length ≤ p.maxc
  otherClasses : p.cls.length + p.rest.length ≤ c
  plain : '{'.toUInt8 ∉ p.rest

section Room
variable {n c k j : Nat} {p q : Parser} {t : Node} {r : Node × Parser}

theorem Roomy.weaken (roomy : Roomy n c k p) (le : j ≤ k) : Roomy n c j p :=
  ⟨by have := roomy.own; omega, by have := roomy.other; omega, roomy.ownClasses, roomy.otherClasses,
    roomy.plain⟩

/-- A byte that is read makes room for two nodes. -/
theorem Roomy.pass {rest : List UInt8} (roomy : Roomy n c k p) (suffix : rest <:+ p.rest)
    (less : rest.length + j ≤ p.rest.length) (g : Nat) (ok : Bool) :
    Roomy n c (k + 2 * j) { p with rest := rest, ngroups := g, ok := ok } :=
  ⟨by have := roomy.own; dsimp only; omega, by have := roomy.other; dsimp only; omega,
    by have := roomy.ownClasses; dsimp only; omega, by have := roomy.otherClasses; dsimp only; omega,
    fun inside => roomy.plain (suffix.subset inside)⟩

theorem Roomy.mk_eq (roomy : Roomy n c (k + 1) p) (t : Node) :
    p.mk t = (t, { p with nn := p.nn + 1 }) ∧
      (p.room n c).mk t = (t, (Parser.room { p with nn := p.nn + 1 } n c)) ∧
      Roomy n c k { p with nn := p.nn + 1 } := by
  have own := roomy.own
  have other := roomy.other
  refine ⟨?_, ?_, ⟨by dsimp only; omega, by dsimp only; omega, roomy.ownClasses, roomy.otherClasses,
    roomy.plain⟩⟩
  · rw [Parser.mk, if_neg (by omega)]
  · rw [Parser.mk, if_neg (by dsimp only [Parser.room]; omega)]
    rfl

/-- What a reader gives: the same with other tables, room for `k` nodes, and if nothing has
failed room for `j` and a tree that is no larger than what was read. -/
structure Reads (n c k j : Nat) (p : Parser) (f : Read) (r : Node × Parser) : Prop where
  twin : f (p.room n c) = some (r.1, r.2.room n c)
  roomy : Roomy n c k r.2
  good : r.2.ok = true → Roomy n c j r.2 ∧ r.1.Flat ∧ r.1.size + 2 * r.2.rest.length ≤ 2 * p.rest.length

theorem className_suffix {rest name after : List UInt8} (found : className rest = some (name, after)) :
    after <:+ rest := by
  unfold className at found
  split at found
  next => exact nomatch found
  next x rest =>
    split at found
    next =>
      have kept := dropWhile_suffix (fun x => decide (x ≠ ':'.toUInt8)) (l := rest)
      split at found
      next d b after' left =>
        split at found
        next =>
          cases found
          rw [left] at kept
          exact ((suffix_cons b after).trans (suffix_cons d (b :: after))).trans
            (kept.trans (suffix_cons x rest))
        next => exact nomatch found
      next => exact nomatch found
    next => exact nomatch found

theorem classByte_suffix {x e : UInt8} {rest after : List UInt8}
    (found : classByte x rest = some (e, after)) : after <:+ rest := by
  unfold classByte at found
  split at found
  next =>
    split at found
    next => exact nomatch found
    next =>
      cases found
      exact suffix_cons _ _
  next =>
    cases found
    exact suffix_refl _

theorem classItem_suffix {x : UInt8} {rest after : List UInt8} {item : ClassItem}
    (found : classItem x rest = some (item, after)) : after <:+ rest := by
  rw [classItem] at found
  split at found
  next name after' named =>
    cases found
    split at named
    next => exact className_suffix named
    next => cases named
  next =>
    obtain ⟨⟨lo, rest'⟩, one, found⟩ := bind_eq_some_iff.mp found
    have first := classByte_suffix one
    dsimp only at found
    split at found
    next d h rest'' =>
      split at found
      next =>
        obtain ⟨⟨hi, after'⟩, two, same⟩ := map_eq_some_iff.mp found
        cases same
        have second := classByte_suffix two
        exact second.trans (((suffix_cons h rest'').trans (suffix_cons d _)).trans first)
      next =>
        cases found
        exact first
    next =>
      cases found
      exact first

theorem classLoop_room (fuel : Nat) (b : Bool) (s : Charreach) (p : Parser) :
    classLoop fuel b s (p.room n c) = (classLoop fuel b s p).map fun r => (r.1, r.2.room n c) := by
  induction fuel generalizing b s p with
  | zero => rfl
  | succ fuel ih =>
    obtain ⟨rest, maxn, nn, cls, maxc, g, ok⟩ := p
    cases ok with
    | false => rfl
    | true =>
      cases rest with
      | nil => rfl
      | cons x rest =>
        simp only [classLoop, Parser.room, Bool.not_true, Bool.false_eq_true, if_false]
        split
        next => rfl
        next =>
          split
          next => rfl
          next item after _ =>
            exact ih false (item.add s).2 ⟨after, maxn, nn, cls, maxc, g, (item.add s).1⟩

theorem classLoop_frame {fuel : Nat} {b : Bool} {s s' : Charreach}
    (ran : classLoop fuel b s p = some (s', q)) :
    ∃ rest ok, q = { p with rest := rest, ok := ok } ∧ rest <:+ p.rest := by
  induction fuel generalizing b s p with
  | zero => exact nomatch ran
  | succ fuel ih =>
    rw [classLoop] at ran
    split at ran
    next =>
      cases ran
      exact ⟨_, _, rfl, suffix_refl _⟩
    next =>
      split at ran
      next =>
        cases ran
        exact ⟨_, false, rfl, suffix_refl _⟩
      next x rest left =>
        have tail : rest <:+ p.rest := by
          rw [left]
          exact suffix_cons x rest
        split at ran
        next =>
          cases ran
          exact ⟨_, _, rfl, tail⟩
        next =>
          split at ran
          next =>
            cases ran
            exact ⟨[], false, rfl, nil_suffix⟩
          next item after found =>
            obtain ⟨rest', ok, isQ, suffix⟩ := ih ran
            exact ⟨rest', ok, isQ, suffix.trans ((classItem_suffix found).trans tail)⟩

theorem Roomy.addClass_eq (own : p.cls.length < p.maxc) (other : p.cls.length < c) (s : Charreach) :
    p.addClass s = (p.cls.length, { p with cls := p.cls ++ [s] }) ∧
      (p.room n c).addClass s =
        (p.cls.length, (Parser.room { p with cls := p.cls ++ [s] } n c)) := by
  constructor
  · rw [Parser.addClass, if_neg (by omega)]
  · rw [Parser.addClass, if_neg (by dsimp only [Parser.room]; omega)]
    rfl

/-- A class behind its bracket. -/
theorem parseClass_reads (roomy : Roomy n c (k + 1) p) (own : p.cls.length + p.rest.length < p.maxc)
    (other : p.cls.length + p.rest.length < c) (ran : parseClass p = some r) :
    parseClass (p.room n c) = some (r.1, r.2.room n c) ∧ Roomy n c k r.2 ∧ r.1.Flat ∧
      r.1.size = 1 ∧ r.2.rest.length ≤ p.rest.length := by
  have start : ∃ rest, (if p.peek = some '^'.toUInt8 then p.skip else p) = { p with rest := rest } ∧
      rest <:+ p.rest ∧ (if p.peek = some '^'.toUInt8 then (p.room n c).skip else p.room n c) =
        Parser.room { p with rest := rest } n c := by
    split
    next => exact ⟨p.rest.tail, rfl, tail_suffix _, rfl⟩
    next => exact ⟨p.rest, rfl, suffix_refl _, rfl⟩
  obtain ⟨rest, isRest, suffix, isRest'⟩ := start
  have peeks : (p.room n c).peek = p.peek := rfl
  simp only [parseClass, peeks] at ran ⊢
  rw [isRest] at ran
  rw [isRest', classLoop_room]
  obtain ⟨⟨s, q⟩, looped, made⟩ := map_eq_some_iff.mp ran
  obtain ⟨rest', ok, isQ, suffix'⟩ := classLoop_frame looped
  have shape : (Parser.room { p with rest := rest } n c).rest = rest := rfl
  rw [shape, looped]
  have whole := suffix'.trans suffix
  have short := whole.length_le
  obtain ⟨mine, theirs⟩ := Roomy.addClass_eq (n := n) (c := c) (p := q)
    (by rw [isQ]; dsimp only; omega) (by rw [isQ]; dsimp only; omega)
    (if p.peek = some '^'.toUInt8 then s.flip else s)
  have roomy' : Roomy n c (k + 1) { q with cls := q.cls ++ [if p.peek = some '^'.toUInt8 then s.flip else s] } := by
    have nodes := roomy.own
    have nodes' := roomy.other
    rw [isQ]
    refine ⟨by dsimp only; omega, by dsimp only; omega, ?_, ?_,
      fun inside => roomy.plain (whole.subset inside)⟩
    · rw [length_append, length_singleton]
      dsimp only
      omega
    · rw [length_append, length_singleton]
      dsimp only
      omega
  obtain ⟨mine', theirs', left⟩ := roomy'.mk_eq (.cls q.cls.length)
  rw [mine] at made
  rw [map_some, map_some]
  rw [theirs]
  rw [mine'] at made
  rw [theirs', ← made]
  refine ⟨rfl, left, trivial, rfl, ?_⟩
  rw [isQ]
  exact short

/-! ### Operators -/

/-- An operator other than a counted one adds a node for the byte that it is. -/
theorem postfixOp_reads {q : Parser} {t' : Node} (roomy : Roomy n c k p)
    (ran : postfixOp t p = some (t', q)) :
    postfixOp t (p.room n c) = some (t', q.room n c) ∧ Roomy n c (k + 1) q ∧ q.ok = p.ok ∧
      (t.Flat → t'.Flat) ∧ t'.size + 2 * q.rest.length ≤ t.size + 2 * p.rest.length := by
  have rests : (p.room n c).rest = p.rest := rfl
  have skips : (p.room n c).skip = p.skip.room n c := rfl
  rcases left : p.rest with _ | ⟨x, rest⟩
  · rw [postfixOp, left] at ran
    cases ran
  have tail : p.rest.tail = rest := by rw [left]; rfl
  have length : p.rest.length = rest.length + 1 := by rw [left]; rfl
  have passed : Roomy n c (k + 2) p.skip :=
    roomy.pass (tail_suffix p.rest) (j := 1) (by rw [tail, length]) p.ngroups p.ok
  rw [← left]
  have made (u : Node) (flat : t.Flat → u.Flat) (size : u.size ≤ t.size + 2)
      (same : p.skip.mk u = (t', q)) (twin : postfixOp t (p.room n c) = some ((p.room n c).skip.mk u)) :
      postfixOp t (p.room n c) = some (t', q.room n c) ∧ Roomy n c (k + 1) q ∧ q.ok = p.ok ∧
        (t.Flat → t'.Flat) ∧ t'.size + 2 * q.rest.length ≤ t.size + 2 * p.rest.length := by
    obtain ⟨mine, theirs, roomy'⟩ := passed.mk_eq u
    rw [mine] at same
    cases same
    rw [skips, theirs] at twin
    refine ⟨twin, roomy', rfl, flat, ?_⟩
    change t'.size + 2 * p.rest.tail.length ≤ _
    rw [tail, length]
    omega
  have here : postfixOp t (p.room n c) = postfixOp t (p.room n c) := rfl
  conv at here =>
    rhs
    rw [postfixOp, rests, left]
  rw [postfixOp, left] at ran
  dsimp only at ran here
  by_cases star : x = '*'.toUInt8
  · rw [if_pos star] at ran here
    exact made (.star t) id (le_refl _) (Option.some.inj ran) here
  rw [if_neg star] at ran here
  by_cases plus : x = '+'.toUInt8
  · rw [if_pos plus] at ran here
    exact made (.plus t) id (le_succ _) (Option.some.inj ran) here
  rw [if_neg plus] at ran here
  by_cases quest : x = '?'.toUInt8
  · rw [if_pos quest] at ran here
    exact made (.quest t) id (le_succ _) (Option.some.inj ran) here
  rw [if_neg quest] at ran here
  split at ran
  next brace =>
    refine absurd ?_ roomy.plain
    rw [left, ← brace.1]
    exact mem_cons_self
  next => cases ran

theorem postfixOp_none (none : postfixOp t p = none) : postfixOp t (p.room n c) = .none := by
  have rests : (p.room n c).rest = p.rest := rfl
  rw [postfixOp, rests]
  rw [postfixOp] at none
  rcases left : p.rest with _ | ⟨x, rest⟩
  · rfl
  rw [left] at none
  dsimp only at none ⊢
  split at none
  next => cases none
  next noStar =>
    rw [if_neg noStar]
    split at none
    next => cases none
    next noPlus =>
      rw [if_neg noPlus]
      split at none
      next => cases none
      next noQuest =>
        rw [if_neg noQuest]
        split at none
        next => cases none
        next other => rw [if_neg other]

theorem pieceLoop_reads {fuel : Nat} (roomy : Roomy n c k p) (ran : pieceLoop fuel t p = some r) :
    pieceLoop fuel t (p.room n c) = some (r.1, r.2.room n c) ∧ Roomy n c k r.2 ∧ r.2.ok = p.ok ∧
      (t.Flat → r.1.Flat) ∧ r.1.size + 2 * r.2.rest.length ≤ t.size + 2 * p.rest.length := by
  induction fuel generalizing t p with
  | zero => exact nomatch ran
  | succ fuel ih =>
    have oks : (p.room n c).ok = p.ok := rfl
    rw [pieceLoop] at ran ⊢
    rw [oks]
    split at ran
    next failed =>
      rw [if_pos failed]
      cases ran
      exact ⟨rfl, roomy, rfl, id, le_refl _⟩
    next going =>
      rw [if_neg going]
      split at ran
      next none =>
        rw [postfixOp_none none]
        cases ran
        exact ⟨rfl, roomy, rfl, id, le_refl _⟩
      next u q found =>
        obtain ⟨twin, roomy', same, flat, size⟩ := postfixOp_reads roomy found
        rw [twin]
        obtain ⟨twin', roomy'', same', flat', size'⟩ := ih (roomy'.weaken (le_succ k)) ran
        exact ⟨twin', roomy'', same'.trans same, flat' ∘ flat, le_trans size' size⟩

variable {alt : Read}

def Inner (n c : Nat) (alt : Read) : Prop :=
  ∀ k p r, Roomy n c (k + 1) p → alt p = some r → Reads n c k k p alt r

/-- A byte that is a node by itself. -/
theorem leaf_reads {f : Read} {u : Node} {rest : List UInt8} (roomy : Roomy n c k p)
    (suffix : rest <:+ p.rest) (less : rest.length < p.rest.length) (flat : u.Flat) (size : u.size ≤ 1)
    (ran : ({ p with rest := rest } : Parser).mk u = r)
    (twin : f (p.room n c) = some ((Parser.room { p with rest := rest } n c).mk u)) :
    Reads n c k (k + 1) p f r := by
  have passed : Roomy n c (k + 2) { p with rest := rest } := roomy.pass suffix (j := 1) less p.ngroups p.ok
  obtain ⟨mine, theirs, roomy'⟩ := passed.mk_eq u
  rw [theirs] at twin
  rw [mine] at ran
  subst ran
  refine ⟨twin, roomy'.weaken (le_succ k), fun _ => ⟨roomy', flat, ?_⟩⟩
  dsimp only
  omega

theorem parseAtom_reads (inner : Inner n c alt) (roomy : Roomy n c k p) (more : p.rest ≠ [])
    (ran : parseAtom alt p = some r) : Reads n c k (k + 1) p (parseAtom alt) r := by
  have rests : (p.room n c).rest = p.rest := rfl
  rcases left : p.rest with _ | ⟨x, rest⟩
  · exact absurd left more
  have suffix : rest <:+ p.rest := by
    rw [left]
    exact suffix_cons x rest
  have length : p.rest.length = rest.length + 1 := by rw [left]; rfl
  have less : rest.length < p.rest.length := by omega
  have here : parseAtom alt (p.room n c) = parseAtom alt (p.room n c) := rfl
  conv at here =>
    rhs
    rw [parseAtom, rests, left]
  rw [parseAtom, left] at ran
  dsimp only at ran here
  by_cases opens : x = '('.toUInt8
  · rw [if_pos opens] at ran here
    obtain ⟨⟨t, q⟩, inside, made⟩ := map_eq_some_iff.mp ran
    have passed : Roomy n c (k + 1 + 1) { p with rest := rest, ngroups := p.ngroups + 1 } :=
      roomy.pass suffix (j := 1) less (p.ngroups + 1) p.ok
    obtain ⟨twin, roomy', good⟩ := inner (k + 1) _ _ passed inside
    have here' : parseAtom alt (p.room n c) = some (((if (q.room n c).peek = some ')'.toUInt8
        then (q.room n c).skip else (q.room n c).fail)).mk (.group t (p.ngroups + 1))) := by
      rw [here]
      change (alt (Parser.room { p with rest := rest, ngroups := p.ngroups + 1 } n c)).map _ = _
      rw [twin]
      rfl
    have peeks : (q.room n c).peek = q.peek := rfl
    rw [peeks] at here'
    by_cases closes : q.peek = some ')'.toUInt8
    · rw [if_pos closes] at made here'
      have shorter : q.rest.tail.length + 1 = q.rest.length := by
        unfold Parser.peek at closes
        cases isRest : q.rest with
        | nil => rw [isRest] at closes; cases closes
        | cons d more => rfl
      have skipped : Roomy n c (k + 1 + 2) q.skip :=
        roomy'.pass (tail_suffix _) (j := 1) (le_of_eq shorter) q.ngroups q.ok
      obtain ⟨mine, theirs, roomy''⟩ := skipped.mk_eq (.group t (p.ngroups + 1))
      rw [mine] at made
      change _ = some ((q.skip.room n c).mk _) at here'
      rw [theirs] at here'
      subst made
      refine ⟨here', roomy''.weaken (by omega), fun ok => ⟨roomy''.weaken (by omega), (good ok).2.1, ?_⟩⟩
      have size := (good ok).2.2
      dsimp only [Node.size, Parser.skip] at size ⊢
      omega
    · rw [if_neg closes] at made here'
      have failed : Roomy n c (k + 1) q.fail :=
        ⟨roomy'.own, roomy'.other, roomy'.ownClasses, roomy'.otherClasses, roomy'.plain⟩
      obtain ⟨mine, theirs, roomy''⟩ := failed.mk_eq (.group t (p.ngroups + 1))
      rw [mine] at made
      change _ = some ((q.fail.room n c).mk _) at here'
      rw [theirs] at here'
      subst made
      exact ⟨here', roomy'', fun ok => by cases ok⟩
  rw [if_neg opens] at ran here
  by_cases bracket : x = '['.toUInt8
  · rw [if_pos bracket] at ran here
    have passed : Roomy n c (k + 2) { p with rest := rest } := roomy.pass suffix (j := 1) less p.ngroups p.ok
    have own := roomy.ownClasses
    have other := roomy.otherClasses
    obtain ⟨twin, roomy', flat, size, shorter⟩ := parseClass_reads passed (r := r)
      (by dsimp only; omega) (by dsimp only; omega) ran
    refine ⟨here.trans twin, roomy'.weaken (le_succ k), fun _ => ⟨roomy', flat, ?_⟩⟩
    dsimp only at shorter
    omega
  rw [if_neg bracket] at ran here
  by_cases dot : x = '.'.toUInt8
  · rw [if_pos dot] at ran here
    exact leaf_reads (u := .any) roomy suffix less trivial (le_refl 1) (Option.some.inj ran) here
  rw [if_neg dot] at ran here
  by_cases hat : x = '^'.toUInt8
  · rw [if_pos hat] at ran here
    exact leaf_reads (u := .bol) roomy suffix less trivial (le_refl 1) (Option.some.inj ran) here
  rw [if_neg hat] at ran here
  by_cases dollar : x = '$'.toUInt8
  · rw [if_pos dollar] at ran here
    exact leaf_reads (u := .eol) roomy suffix less trivial (le_refl 1) (Option.some.inj ran) here
  rw [if_neg dollar] at ran here
  by_cases slash : x = '\\'.toUInt8
  · rw [if_pos slash] at ran here
    cases rest with
    | nil =>
      cases ran
      have passed : Roomy n c k ({ p with rest := [] } : Parser).fail :=
        (roomy.pass suffix (j := 0) (le_of_lt less) p.ngroups false).weaken (le_refl k)
      exact ⟨here, passed, fun ok => by cases ok⟩
    | cons e rest =>
      exact leaf_reads (u := .char e) roomy ((suffix_cons e rest).trans suffix)
        (lt_of_le_of_lt (le_succ _) less) trivial (le_refl 1) (Option.some.inj ran) here
  rw [if_neg slash] at ran here
  exact leaf_reads (u := .char x) roomy suffix less trivial (le_refl 1) (Option.some.inj ran) here

theorem parsePiece_reads (inner : Inner n c alt) (roomy : Roomy n c k p) (more : p.rest ≠ [])
    (ran : parsePiece alt p = some r) : Reads n c k (k + 1) p (parsePiece alt) r := by
  obtain ⟨⟨t, q⟩, first, looped⟩ := bind_eq_some_iff.mp ran
  obtain ⟨twin, roomy', good⟩ := parseAtom_reads inner roomy more first
  obtain ⟨twin', roomy'', same, flat, size⟩ := pieceLoop_reads roomy' looped
  refine ⟨?_, roomy'', fun ok => ?_⟩
  · rw [parsePiece, twin]
    exact twin'
  · rw [same] at ok
    obtain ⟨large, flat', size'⟩ := good ok
    exact ⟨(pieceLoop_reads large looped).2.1, flat flat', le_trans size size'⟩

/-- The room that the node of an empty alternative takes is free again when there is a piece. -/
def spare (k : Nat) (left : Option Node) : Nat := if left.isNone then k + 1 else k

theorem concatDone_reads {left : Option Node} (roomy : Roomy n c (spare k left) p) :
    concatDone (p.room n c) left = ((concatDone p left).1, (concatDone p left).2.room n c) ∧
      Roomy n c k (concatDone p left).2 ∧ (concatDone p left).2.ok = p.ok ∧
      (concatDone p left).2.rest = p.rest ∧ (concatDone p left).1 = left.getD .empty := by
  cases left with
  | none =>
    obtain ⟨mine, theirs, roomy'⟩ := Roomy.mk_eq (k := k) roomy .empty
    rw [concatDone, concatDone, theirs, mine]
    exact ⟨rfl, roomy', rfl, rfl, rfl⟩
  | some t => exact ⟨rfl, roomy, rfl, rfl, rfl⟩

theorem concatLoop_reads (inner : Inner n c alt) {fuel : Nat} {left : Option Node}
    (roomy : Roomy n c (spare k left) p) (flat : (left.getD .empty).Flat)
    (ran : concatLoop alt fuel left p = some r) :
    concatLoop alt fuel left (p.room n c) = some (r.1, r.2.room n c) ∧ Roomy n c k r.2 ∧
      (r.2.ok = true → r.1.Flat ∧
        r.1.size + 2 * r.2.rest.length ≤ (left.getD .empty).size + 2 * p.rest.length) := by
  induction fuel generalizing left p with
  | zero => exact nomatch ran
  | succ fuel ih =>
    have done {p : Parser} (roomy : Roomy n c (spare k left) p)
        (here : concatDone p left = r) :
        some (concatDone (p.room n c) left) = some (r.1, r.2.room n c) ∧ Roomy n c k r.2 ∧
          r.2.ok = p.ok ∧ r.2.rest = p.rest ∧ r.1 = left.getD .empty := by
      obtain ⟨twin, roomy', ok, rest, tree⟩ := concatDone_reads (k := k) roomy
      subst here
      exact ⟨congrArg some twin, roomy', ok, rest, tree⟩
    have oks : (p.room n c).ok = p.ok := rfl
    have peeks : (p.room n c).peek = p.peek := rfl
    rw [concatLoop] at ran ⊢
    rw [oks, peeks]
    split at ran
    next failed =>
      rw [if_pos failed]
      obtain ⟨twin, roomy', ok, rest, tree⟩ := done roomy (Option.some.inj ran)
      refine ⟨twin, roomy', fun _ => ?_⟩
      rw [tree, rest]
      exact ⟨flat, le_refl _⟩
    next going =>
      rw [if_neg going]
      split at ran
      next stops =>
        rw [if_pos stops]
        obtain ⟨twin, roomy', ok, rest, tree⟩ := done roomy (Option.some.inj ran)
        refine ⟨twin, roomy', fun _ => ?_⟩
        rw [tree, rest]
        exact ⟨flat, le_refl _⟩
      next goes =>
        rw [if_neg goes]
        have more : p.rest ≠ [] := by
          intro none
          refine goes (.inl ?_)
          rw [Parser.peek, none]
          rfl
        obtain ⟨⟨piece, q⟩, first, next_⟩ := bind_eq_some_iff.mp ran
        obtain ⟨twin, roomy', good⟩ := parsePiece_reads inner roomy more first
        rw [twin]
        dsimp only [bind_some] at next_ roomy' good ⊢
        have oks' : (q.room n c).ok = q.ok := rfl
        rw [oks']
        split at next_
        next failed =>
          rw [if_pos failed]
          obtain ⟨twin', roomy'', ok, -, -⟩ := done roomy' (Option.some.inj next_)
          refine ⟨twin', roomy'', fun fine => ?_⟩
          rw [ok] at fine
          rw [fine] at failed
          exact absurd failed (by decide)
        next fine =>
          rw [if_neg fine]
          obtain ⟨large, flat', size⟩ := good (by simpa using fine)
          cases left with
          | none =>
            obtain ⟨twin', roomy'', good'⟩ := @ih _ (some piece) (large.weaken (by
              simp only [spare, isNone_none, isNone_some, if_true, false_eq_true,
                if_false]
              omega)) flat' next_
            refine ⟨twin', roomy'', fun ok => ⟨(good' ok).1, le_trans (good' ok).2 ?_⟩⟩
            simp only [getD_some, getD_none, Node.size] at size ⊢
            omega
          | some t =>
            dsimp only at next_ ⊢
            obtain ⟨mine, theirs, roomy''⟩ := Roomy.mk_eq (k := k) large (.concat t piece)
            rw [mine] at next_
            rw [theirs]
            obtain ⟨twin', roomy₃, good'⟩ := @ih _ (some (.concat t piece)) roomy''
              ⟨flat, flat'⟩ next_
            refine ⟨twin', roomy₃, fun ok => ⟨(good' ok).1, le_trans (good' ok).2 ?_⟩⟩
            simp only [getD_some, Node.size] at size ⊢
            omega

theorem parseConcat_reads (inner : Inner n c alt) (roomy : Roomy n c (k + 1) p)
    (ran : parseConcat alt p = some r) : Reads n c k k p (parseConcat alt) r := by
  obtain ⟨twin, roomy', good⟩ := @concatLoop_reads n c k p r alt inner _ none roomy trivial ran
  refine ⟨twin, roomy', fun ok => ⟨roomy', (good ok).1, ?_⟩⟩
  have size := (good ok).2
  simp only [getD_none, Node.size, zero_add] at size
  exact size

theorem altLoop_reads (inner : Inner n c alt) {fuel : Nat} (roomy : Roomy n c k p)
    (ran : altLoop alt fuel t p = some r) :
    altLoop alt fuel t (p.room n c) = some (r.1, r.2.room n c) ∧ Roomy n c k r.2 ∧
      (r.2.ok = true → (p.ok = true → t.Flat) → r.1.Flat ∧
        r.1.size + 2 * r.2.rest.length ≤ t.size + 2 * p.rest.length) := by
  induction fuel generalizing t p with
  | zero => cases ran
  | succ fuel ih =>
    have oks : (p.room n c).ok = p.ok := rfl
    have peeks : (p.room n c).peek = p.peek := rfl
    rw [altLoop] at ran ⊢
    rw [oks, peeks]
    split at ran
    next bar =>
      rw [if_pos bar]
      obtain ⟨⟨right, q⟩, first, next_⟩ := bind_eq_some_iff.mp ran
      have shorter : p.rest.tail.length + 1 = p.rest.length := by
        have here := bar.2
        unfold Parser.peek at here
        cases isRest : p.rest with
        | nil => rw [isRest] at here; cases here
        | cons d more => rfl
      have skipped : Roomy n c (k + 1 + 1) p.skip :=
        roomy.pass (tail_suffix _) (j := 1) (le_of_eq shorter) p.ngroups p.ok
      obtain ⟨twin, roomy', good⟩ := parseConcat_reads inner skipped first
      have skips : (p.room n c).skip = p.skip.room n c := rfl
      rw [skips, twin]
      dsimp only [bind_some] at next_ roomy' good ⊢
      obtain ⟨mine, theirs, roomy''⟩ := Roomy.mk_eq roomy' (.alt t right)
      rw [mine] at next_
      rw [theirs]
      obtain ⟨twin', roomy₃, good'⟩ := ih roomy'' next_
      refine ⟨twin', roomy₃, fun ok flat => ?_⟩
      by_cases fine : q.ok = true
      · obtain ⟨-, flat', size⟩ := good fine
        obtain ⟨flat₃, size₃⟩ := good' ok fun _ => ⟨flat bar.1, flat'⟩
        refine ⟨flat₃, le_trans size₃ ?_⟩
        dsimp only [Node.size, Parser.skip] at size ⊢
        omega
      · -- the loop ends where something has failed
        cases fuel with
        | zero => cases next_
        | succ fuel =>
          rw [altLoop, if_neg fun both => fine both.1] at next_
          cases next_
          exact absurd ok fine
    next ends =>
      rw [if_neg ends]
      cases ran
      exact ⟨rfl, roomy, fun ok flat => ⟨flat ok, le_refl _⟩⟩

theorem parseAlt_reads (depth : Nat) : Inner n c (parseAlt depth) := by
  induction depth with
  | zero => exact fun _ _ _ _ ran => nomatch ran
  | succ depth ih =>
    intro k p r roomy ran
    obtain ⟨⟨left, q⟩, first, looped⟩ := bind_eq_some_iff.mp ran
    obtain ⟨twin, roomy', good⟩ := parseConcat_reads ih roomy first
    dsimp only at twin roomy' good looped
    obtain ⟨twin', roomy'', good'⟩ := altLoop_reads ih roomy' looped
    refine ⟨?_, roomy'', fun ok => ?_⟩
    · rw [parseAlt, twin]
      exact twin'
    · have fine : q.ok = true → left.Flat := fun fine => (good fine).2.1
      obtain ⟨flat, size⟩ := good' ok fine
      refine ⟨roomy'', flat, le_trans size ?_⟩
      by_cases fine' : q.ok = true
      · exact (good fine').2.2
      · rw [altLoop, if_neg fun both => fine' both.1] at looped
        cases looped
        exact absurd ok fine'

end Room

/-! ## The tables of `regex::build` -/

/-- Tables that are at least as large as those of `regex::build`. -/
structure Enough (pat : List UInt8) (maxn maxc : Nat) : Prop where
  nodes : pat.length * 4 + 16 ≤ maxn
  classes : pat.length + 8 ≤ maxc

/-- What `regex::build` has room for.  Larger tables stay as empty beyond its own, and what it
rejects has more than 32 groups or is rejected by the parser with larger tables too. -/
structure HasRoom (pat : List UInt8) : Prop where
  parser : ∀ maxn maxc root p, Enough pat maxn maxc → parse pat maxn maxc = some (root, p) →
    p.nn ≤ pat.length * 4 + 16 ∧ p.cls.length ≤ pat.length + 8
  emitter : ∀ maxn maxc maxi root p, Enough pat maxn maxc → parse pat maxn maxc = some (root, p) →
    p.ok = true → pat.length * 8 + 32 ≤ maxi →
    (Emitter.emitProgram maxi root).ok = true ∧ (Emitter.emitProgram maxi root).ni ≤ pat.length * 8 + 32
  rejects : buildRegex pat = none ↔ ∀ maxn maxc root p, Enough pat maxn maxc →
    parse pat maxn maxc = some (root, p) → p.ok = false ∨ kMaxGroups < p.ngroups
  targets : ∀ pv, buildRegex pat = some pv → ∀ i ∈ pv.code,
    (i.code = .split → i.x < pv.code.length ∧ i.y < pv.code.length) ∧
      (i.code = .jmp → i.x < pv.code.length)

section Build
variable {pat : List UInt8} {maxn maxc : Nat} {root : Node} {p : Parser}

/-- A parse with enough room is the parse with the tables of `regex::build`. -/
theorem parse_room (plain : '{'.toUInt8 ∉ pat) (enough : Enough pat maxn maxc)
    (ran : parse pat maxn maxc = some (root, p)) :
    parse pat (pat.length * 4 + 16) (pat.length + 8) =
        some (root, p.room (pat.length * 4 + 16) (pat.length + 8)) ∧
      p.nn ≤ pat.length * 4 + 16 ∧ p.cls.length ≤ pat.length + 8 ∧
      (p.ok = true → root.Flat ∧ root.size ≤ 2 * pat.length) := by
  obtain ⟨nodes, classes⟩ := enough
  have roomy : Roomy (pat.length * 4 + 16) (pat.length + 8) (0 + 1) (.fresh pat maxn maxc) := by
    refine ⟨?_, ?_, ?_, ?_, plain⟩
    all_goals dsimp only [Parser.fresh, length_nil]
    all_goals omega
  obtain ⟨⟨t, q⟩, read, made⟩ := map_eq_some_iff.mp ran
  obtain ⟨twin, roomy', good⟩ := parseAlt_reads _ 0 _ _ roomy read
  have tables : (Parser.fresh pat maxn maxc).room (pat.length * 4 + 16) (pat.length + 8) =
      .fresh pat (pat.length * 4 + 16) (pat.length + 8) := rfl
  rw [tables] at twin
  dsimp only at twin roomy' good made
  have other := roomy'.other
  have otherClasses := roomy'.otherClasses
  cases made
  have rests : (q.room (pat.length * 4 + 16) (pat.length + 8)).rest = q.rest := rfl
  rw [parse, twin, map_some]
  dsimp only
  rw [rests]
  by_cases ended : q.rest = []
  · rw [if_pos ended, if_pos ended]
    refine ⟨rfl, by omega, by omega, fun ok => ?_⟩
    obtain ⟨-, flat, size⟩ := good ok
    dsimp only [Parser.fresh] at size
    exact ⟨flat, by omega⟩
  · rw [if_neg ended, if_neg ended]
    refine ⟨rfl, ?_, ?_, fun ok => by cases ok⟩
    · dsimp only [Parser.fail]
      omega
    · dsimp only [Parser.fail]
      omega

theorem parse_own (pat : List UInt8) : ∃ root p,
    parse pat (pat.length * 4 + 16) (pat.length + 8) = some (root, p) := by
  obtain ⟨⟨root, p⟩, ran⟩ := isSome_iff_exists.mp
    (parse_returns pat (pat.length * 4 + 16) (pat.length + 8))
  exact ⟨root, p, ran⟩

theorem buildRegex_eq (plain : '{'.toUInt8 ∉ pat)
    (ran : parse pat (pat.length * 4 + 16) (pat.length + 8) = some (root, p)) :
    buildRegex pat = if p.ok = true ∧ p.ngroups ≤ kMaxGroups then
      some ⟨(Emitter.emitProgram (pat.length * 8 + 32) root).code, p.cls, p.ngroups⟩ else none := by
  obtain ⟨-, -, -, fine⟩ := parse_room plain ⟨le_refl _, le_refl _⟩ ran
  unfold buildRegex compileRegex
  rw [ran]
  dsimp only
  by_cases ok : p.ok = true
  · obtain ⟨flat, size⟩ := fine ok
    obtain ⟨emitted, -, -⟩ := Emitter.emitProgram_grown root flat (pat.length * 8 + 32) (by omega)
    rw [ok, emitted]
    simp [Option.filter]
  · rw [eq_false_iff.mpr ok]
    simp

/-- A pattern without braces is never rejected for lack of room. -/
theorem build_has_room (plain : '{'.toUInt8 ∉ pat) : HasRoom pat where
  parser maxn maxc root p enough ran := by
    obtain ⟨-, nodes, classes, -⟩ := parse_room plain enough ran
    exact ⟨nodes, classes⟩
  emitter maxn maxc maxi root p enough ran ok large := by
    obtain ⟨-, -, -, fine⟩ := parse_room plain enough ran
    obtain ⟨flat, size⟩ := fine ok
    obtain ⟨emitted, ni, -⟩ := Emitter.emitProgram_grown root flat maxi (by omega)
    exact ⟨emitted, by omega⟩
  rejects := by
    obtain ⟨root, p, own⟩ := parse_own pat
    rw [buildRegex_eq plain own]
    constructor
    · intro none maxn maxc root' p' enough ran
      obtain ⟨same, -, -, -⟩ := parse_room plain enough ran
      rw [own] at same
      cases same
      by_cases ok : p'.ok = true
      · refine .inr (Nat.lt_of_not_le fun few => ?_)
        rw [if_pos ⟨ok, few⟩] at none
        exact nomatch none
      · exact .inl (eq_false_iff.mpr ok)
    · intro all
      rw [if_neg]
      rintro ⟨ok, few⟩
      rcases all _ _ root p ⟨Nat.le_refl _, Nat.le_refl _⟩ own with wrong | many
      · rw [ok] at wrong
        exact nomatch wrong
      · omega
  targets pv built := by
    obtain ⟨root, p, own⟩ := parse_own pat
    rw [buildRegex_eq plain own] at built
    split at built
    next fine =>
      cases built
      obtain ⟨-, -, -, good⟩ := parse_room plain ⟨Nat.le_refl _, Nat.le_refl _⟩ own
      obtain ⟨flat, size⟩ := good fine.1
      obtain ⟨-, ni, leads⟩ := Emitter.emitProgram_grown root flat (pat.length * 8 + 32) (by omega)
      intro i inside
      have length : (Emitter.emitProgram (pat.length * 8 + 32) root).code.length = root.size + 3 := ni
      rw [length]
      refine ⟨fun split => ?_, fun jmp => ?_⟩
      · have both := leads i inside (.inl split)
        exact ⟨Nat.lt_succ_of_le both.1, Nat.lt_succ_of_le both.2⟩
      · exact Nat.lt_succ_of_le (leads i inside (.inr jmp)).1
    next => exact nomatch built

theorem build_has_room_small : HasRoom [97, 124, 40, 98, 42, 41] := build_has_room (by decide)

end Build

end Micron.Regex
