import Micron.Regex.Prefilter

/-!
# The parser of `ast.hpp`

A recursive descent with one byte of lookahead.  `Read` is what reads an alternation:
the atom takes the reader of what a group holds as an argument, and every level of
groups is one turn of `parseAlt`.  The nodes are held as trees, the tables as lists.
A loop whose turns all read a byte has no more turns than there are bytes.
-/

set_option autoImplicit false

namespace Micron.Regex

open List Nat

namespace Charreach

def setRange (r : Charreach) (lo hi : UInt8) : Charreach :=
  (List.range' lo.toNat (hi.toNat + 1 - lo.toNat)).foldl (fun r c => r.set (UInt8.ofNat c)) r

def flip (r : Charreach) : Charreach := ⟨fun j => ~~~ r.w j⟩

end Charreach

def posixRanges (name : String) : Option (List (Nat × Nat)) :=
  match name with
  | "digit" => some [(48, 57)]
  | "alpha" => some [(65, 90), (97, 122)]
  | "alnum" => some [(48, 57), (65, 90), (97, 122)]
  | "upper" => some [(65, 90)]
  | "lower" => some [(97, 122)]
  | "space" => some [(32, 32), (9, 9), (10, 10), (13, 13), (11, 11), (12, 12)]
  | "blank" => some [(32, 32), (9, 9)]
  | "xdigit" => some [(48, 57), (65, 70), (97, 102)]
  | "cntrl" => some [(0, 31), (127, 127)]
  | "print" => some [(32, 126)]
  | "graph" => some [(33, 126)]
  | "punct" => some [(33, 47), (58, 64), (91, 96), (123, 126)]
  | _ => none

/-- Whether there is such a class, and the set with its bytes. -/
def posixClass (name : List UInt8) (r : Charreach) : Bool × Charreach :=
  match posixRanges (String.ofList (name.map fun c => Char.ofNat c.toNat)) with
  | none => (false, r)
  | some ranges =>
    (true, ranges.foldl (fun r b => r.setRange (UInt8.ofNat b.1) (UInt8.ofNat b.2)) r)

/-- What is left of the pattern, how many nodes there are, the classes and the groups so
far, and whether nothing has failed. -/
structure Parser where
  of ::
  rest : List UInt8
  maxn : Nat
  nn : Nat
  cls : List Charreach
  maxc : Nat
  ngroups : Nat
  ok : Bool

namespace Parser

def peek (p : Parser) : Option UInt8 := p.rest.head?

def skip (p : Parser) : Parser := { p with rest := p.rest.tail }

def fail (p : Parser) : Parser := { p with ok := false }

/-- A new node; the tree of a parse that has failed is not used. -/
def mk (p : Parser) (t : Node) : Node × Parser :=
  if p.maxn ≤ p.nn then (t, p.fail) else (t, { p with nn := p.nn + 1 })

def addClass (p : Parser) (r : Charreach) : Nat × Parser :=
  if p.maxc ≤ p.cls.length then (0, p.fail) else (p.cls.length, { p with cls := p.cls ++ [r] })

end Parser

/-- The name in `[:name:]`, behind its first bracket, and what follows. -/
def className (rest : List UInt8) : Option (List UInt8 × List UInt8) :=
  match rest with
  | [] => none
  | c :: rest =>
    if c = ':'.toUInt8 then
      match rest.dropWhile (· ≠ ':'.toUInt8) with
      | _ :: b :: after =>
        if b = ']'.toUInt8 then some (rest.takeWhile (· ≠ ':'.toUInt8), after) else none
      | _ => none
    else none

def classByte (c : UInt8) (rest : List UInt8) : Option (UInt8 × List UInt8) :=
  if c = '\\'.toUInt8 then
    match rest with
    | [] => none
    | e :: rest => some (e, rest)
  else some (c, rest)

inductive ClassItem where
  | named (name : List UInt8)
  | range (lo hi : UInt8)
  | byte (c : UInt8)

/-- One turn of the loop: what it adds to the set, and what follows. -/
def classItem (c : UInt8) (rest : List UInt8) : Option (ClassItem × List UInt8) :=
  match if c = '['.toUInt8 then className rest else none with
  | some (name, after) => some (.named name, after)
  | none =>
    (classByte c rest).bind fun (lo, rest) =>
      match rest with
      | d :: h :: rest' =>
        if d = '-'.toUInt8 ∧ h ≠ ']'.toUInt8 then
          (classByte h rest').map fun (hi, rest') => (.range lo hi, rest')
        else some (.byte lo, rest)
      | _ => some (.byte lo, rest)

/-- Whether the item is one, and the set with its bytes. -/
def ClassItem.add (r : Charreach) : ClassItem → Bool × Charreach
  | .named name => posixClass name r
  | .range lo hi => if lo ≤ hi then (true, r.setRange lo hi) else (false, r)
  | .byte c => (true, r.set c)

/-- The loop of `parse_class`: the set and what follows its closing bracket. -/
def classLoop : Nat → Bool → Charreach → Parser → Option (Charreach × Parser)
  | 0, _, _, _ => none
  | fuel + 1, first, r, p =>
    if !p.ok then some (r, p)
    else
      match p.rest with
      | [] => some (r, p.fail)
      | c :: rest =>
        if c = ']'.toUInt8 ∧ first = false then some (r, { p with rest := rest })
        else
          match classItem c rest with
          | none => some (r, { p with rest := [] }.fail)
          | some (item, rest) =>
            let (ok, r) := item.add r
            classLoop fuel false r { p with rest := rest, ok := ok }

def parseClass (p : Parser) : Option (Node × Parser) :=
  let negate := p.peek = some '^'.toUInt8
  let p := if negate then p.skip else p
  (classLoop (p.rest.length + 1) true .empty p).map fun (r, p) =>
    let (k, p) := p.addClass (if negate then r.flip else r)
    p.mk (.cls k)

def isDigit (c : UInt8) : Bool := decide ('0'.toUInt8 ≤ c ∧ c ≤ '9'.toUInt8)

def looksLikeInterval (rest : List UInt8) : Bool :=
  (rest.head?.any isDigit) &&
    match rest.dropWhile isDigit with
    | [] => false
    | c :: after =>
      if c = ','.toUInt8 then (after.dropWhile isDigit).head? == some '}'.toUInt8
      else c == '}'.toUInt8

/-- `lo = lo * 10 + (u32)(advance() - '0')` over the digits. -/
def readNumber (digits : List UInt8) : Nat :=
  digits.foldl (fun v c => u32 (v * 10 + (c.toNat - '0'.toNat))) 0

def readUpper (lo : Nat) (p : Parser) : Nat × Parser :=
  if p.peek = some ','.toUInt8 then
    let p := p.skip
    if p.peek = some '}'.toUInt8 then (kInf, p)
    else (readNumber (p.rest.takeWhile isDigit), { p with rest := p.rest.dropWhile isDigit })
  else (lo, p)

/-- Behind the bounds: a brace, and an upper bound that is none or not below the lower. -/
def closeInterval (lo hi : Nat) (p : Parser) : Parser :=
  let p := if p.peek = some '}'.toUInt8 then p.skip else p.fail
  if hi ≠ kInf ∧ hi < lo then p.fail else p

def parseInterval (atom : Node) (p : Parser) : Node × Parser :=
  let p := p.skip
  let lo := readNumber (p.rest.takeWhile isDigit)
  let (hi, p) := readUpper lo { p with rest := p.rest.dropWhile isDigit }
  (closeInterval lo hi p).mk (.rep atom lo hi)

/-- One turn of the loop of `parse_piece`, if there is an operator. -/
def postfixOp (atom : Node) (p : Parser) : Option (Node × Parser) :=
  match p.rest with
  | [] => none
  | c :: rest =>
    if c = '*'.toUInt8 then some (p.skip.mk (.star atom))
    else if c = '+'.toUInt8 then some (p.skip.mk (.plus atom))
    else if c = '?'.toUInt8 then some (p.skip.mk (.quest atom))
    else if c = '{'.toUInt8 ∧ looksLikeInterval rest then some (parseInterval atom p)
    else none

def pieceLoop : Nat → Node → Parser → Option (Node × Parser)
  | 0, _, _ => none
  | fuel + 1, atom, p =>
    if !p.ok then some (atom, p)
    else
      match postfixOp atom p with
      | none => some (atom, p)
      | some (atom, p) => pieceLoop fuel atom p

abbrev Read := Parser → Option (Node × Parser)

section Descent
variable (alt : Read)

def parseAtom (p : Parser) : Option (Node × Parser) :=
  match p.rest with
  | [] => some (p.mk .empty)
  | c :: rest =>
    let q := { p with rest := rest }
    if c = '('.toUInt8 then
      let g := p.ngroups + 1
      (alt { q with ngroups := g }).map fun (inner, q) =>
        (if q.peek = some ')'.toUInt8 then q.skip else q.fail).mk (.group inner g)
    else if c = '['.toUInt8 then parseClass q
    else if c = '.'.toUInt8 then some (q.mk .any)
    else if c = '^'.toUInt8 then some (q.mk .bol)
    else if c = '$'.toUInt8 then some (q.mk .eol)
    else if c = '\\'.toUInt8 then
      match rest with
      | [] => some (.empty, q.fail)
      | e :: rest => some ({ p with rest := rest }.mk (.char e))
    else some (q.mk (.char c))

def parsePiece (p : Parser) : Option (Node × Parser) :=
  (parseAtom alt p).bind fun (atom, p) => pieceLoop (p.rest.length + 1) atom p

/-- What `parse_concat` returns for what it has read. -/
def concatDone (p : Parser) : Option Node → Node × Parser
  | none => p.mk .empty
  | some t => (t, p)

def concatLoop : Nat → Option Node → Parser → Option (Node × Parser)
  | 0, _, _ => none
  | fuel + 1, left, p =>
    if !p.ok then some (concatDone p left)
    else if p.peek = none ∨ p.peek = some '|'.toUInt8 ∨ p.peek = some ')'.toUInt8 then
      some (concatDone p left)
    else
      (parsePiece alt p).bind fun (piece, p) =>
        if !p.ok then some (concatDone p left)
        else
          match left with
          | none => concatLoop fuel (some piece) p
          | some t =>
            let (t, p) := p.mk (.concat t piece)
            concatLoop fuel (some t) p

def parseConcat (p : Parser) : Option (Node × Parser) := concatLoop alt (p.rest.length + 1) none p

def altLoop : Nat → Node → Parser → Option (Node × Parser)
  | 0, _, _ => none
  | fuel + 1, left, p =>
    if p.ok ∧ p.peek = some '|'.toUInt8 then
      (parseConcat alt p.skip).bind fun (right, p) =>
        let (left, p) := p.mk (.alt left right)
        altLoop fuel left p
    else some (left, p)

end Descent

/-- A group is opened by a byte, so groups are no deeper than there are bytes. -/
def parseAlt : Nat → Read
  | 0, _ => none
  | depth + 1, p =>
    (parseConcat (parseAlt depth) p).bind fun (left, p) =>
      altLoop (parseAlt depth) (p.rest.length + 1) left p

def Parser.fresh (pat : List UInt8) (maxn maxc : Nat) : Parser := ⟨pat, maxn, 0, [], maxc, 0, true⟩

/-- The tree, and the state that `compile_regex` asks whether it is `ok`. -/
def parse (pat : List UInt8) (maxn maxc : Nat) : Option (Node × Parser) :=
  (parseAlt (pat.length + 1) (.fresh pat maxn maxc)).map fun (t, p) =>
    (t, if p.rest = [] then p else p.fail)

/-! ## The descent ends -/

@[simp] theorem Parser.mk_rest (p : Parser) (t : Node) : (p.mk t).2.rest = p.rest := by
  rw [mk]
  split <;> rfl

@[simp] theorem Parser.mk_fst (p : Parser) (t : Node) : (p.mk t).1 = t := by
  rw [mk]
  split <;> rfl

@[simp] theorem Parser.addClass_rest (p : Parser) (r : Charreach) : (p.addClass r).2.rest = p.rest := by
  rw [addClass]
  split <;> rfl

/-- The reader returns, with no more left than before. -/
def Returns {α : Type} (p : Parser) (result : Option (α × Parser)) : Prop :=
  ∃ r, result = some r ∧ r.2.rest.length ≤ p.rest.length

theorem length_dropWhile_le {α : Type} (q : α → Bool) (l : List α) :
    (l.dropWhile q).length ≤ l.length :=
  (dropWhile_suffix q).length_le

theorem className_shorter {rest name after : List UInt8} (found : className rest = some (name, after)) :
    after.length < rest.length := by
  unfold className at found
  split at found
  next => exact nomatch found
  next c rest =>
    split at found
    next =>
      have kept := length_dropWhile_le (fun x => decide (x ≠ ':'.toUInt8)) rest
      split at found
      next _ b after' left =>
        rw [left] at kept
        split at found
        next =>
          cases found
          rw [length_cons] at kept ⊢
          rw [length_cons] at kept
          omega
        next => exact nomatch found
      next => exact nomatch found
    next => exact nomatch found

theorem classByte_shorter {c e : UInt8} {rest after : List UInt8}
    (found : classByte c rest = some (e, after)) : after.length ≤ rest.length := by
  unfold classByte at found
  split at found
  next =>
    split at found
    next => exact nomatch found
    next =>
      cases found
      exact le_succ _
  next =>
    cases found
    exact le_refl _

theorem classItem_shorter {c : UInt8} {rest after : List UInt8} {item : ClassItem}
    (found : classItem c rest = some (item, after)) : after.length ≤ rest.length := by
  rw [classItem] at found
  split at found
  next name after' named =>
    cases found
    split at named
    next => exact le_of_lt (className_shorter named)
    next => exact nomatch named
  next =>
    obtain ⟨⟨lo, rest'⟩, one, found⟩ := Option.bind_eq_some_iff.mp found
    have first := classByte_shorter one
    dsimp only at found
    split at found
    next d h rest'' =>
      split at found
      next =>
        obtain ⟨⟨hi, after'⟩, two, same⟩ := Option.map_eq_some_iff.mp found
        cases same
        have second := classByte_shorter two
        dsimp only
        rw [length_cons, length_cons] at first
        omega
      next =>
        cases found
        exact first
    next =>
      cases found
      exact first

theorem classLoop_returns {fuel : Nat} {b : Bool} {r : Charreach} {p : Parser}
    (enough : p.rest.length < fuel) : Returns p (classLoop fuel b r p) := by
  induction fuel generalizing b r p with
  | zero => exact absurd enough (not_lt_zero _)
  | succ fuel ih =>
    rw [classLoop]
    split
    next => exact ⟨_, rfl, le_refl _⟩
    next =>
      split
      next => exact ⟨_, rfl, le_refl _⟩
      next c rest left =>
        rw [left, length_cons] at enough
        have less : rest.length ≤ p.rest.length := by
          rw [left]
          exact le_succ _
        split
        next => exact ⟨_, rfl, less⟩
        next =>
          split
          next => exact ⟨_, rfl, zero_le _⟩
          next item after found =>
            have shorter := classItem_shorter found
            obtain ⟨r', ran, le⟩ := ih (b := false) (r := (item.add r).2)
              (p := { p with rest := after, ok := (item.add r).1 }) (by dsimp only; omega)
            exact ⟨r', ran, by dsimp only at le; omega⟩

theorem parseClass_returns (p : Parser) : Returns p (parseClass p) := by
  have less : (if p.peek = some '^'.toUInt8 then p.skip else p).rest.length ≤ p.rest.length := by
    split
    next => exact le_trans (le_of_eq length_tail) (sub_le _ _)
    next => exact le_refl _
  obtain ⟨r, ran, le⟩ := classLoop_returns (b := true) (r := .empty) (lt_succ_self
    (if p.peek = some '^'.toUInt8 then p.skip else p).rest.length)
  refine ⟨_, by rw [parseClass, ran]; rfl, ?_⟩
  rw [Parser.mk_rest, Parser.addClass_rest]
  exact le_trans le less

@[simp] theorem Parser.skip_shorter (p : Parser) : p.skip.rest.length = p.rest.length - 1 :=
  length_tail

theorem readUpper_le (lo : Nat) (p : Parser) : (readUpper lo p).2.rest.length ≤ p.rest.length := by
  have skipped := p.skip_shorter
  rw [readUpper]
  split
  · dsimp only
    split
    · dsimp only
      omega
    · have digits := length_dropWhile_le isDigit p.skip.rest
      dsimp only
      omega
  · exact le_refl _

theorem closeInterval_le (lo hi : Nat) (p : Parser) :
    (closeInterval lo hi p).rest.length ≤ p.rest.length := by
  have closed : (if p.peek = some '}'.toUInt8 then p.skip else p.fail).rest.length ≤
      p.rest.length := by
    split
    · rw [Parser.skip_shorter]
      exact sub_le _ _
    · exact le_refl _
  rw [closeInterval]
  split
  · exact closed
  · exact closed

theorem parseInterval_le (atom : Node) (p : Parser) :
    (parseInterval atom p).2.rest.length ≤ p.rest.length - 1 := by
  have digits := length_dropWhile_le isDigit p.skip.rest
  rw [Parser.skip_shorter] at digits
  rw [parseInterval]
  rw [Parser.mk_rest]
  exact le_trans (closeInterval_le _ _ _) (le_trans (readUpper_le _ _) digits)

theorem postfixOp_shorter {atom : Node} {p : Parser} {r : Node × Parser}
    (found : postfixOp atom p = some r) : r.2.rest.length < p.rest.length := by
  rw [postfixOp] at found
  split at found
  next => exact nomatch found
  next c rest left =>
    have some : 0 < p.rest.length := by
      rw [left]
      exact succ_pos _
    have skipped : ∀ t : Node, (p.skip.mk t).2.rest.length < p.rest.length := by
      intro t
      rw [Parser.mk_rest, Parser.skip_shorter]
      omega
    split at found
    · cases found
      exact skipped _
    · split at found
      · cases found
        exact skipped _
      · split at found
        · cases found
          exact skipped _
        · split at found
          · cases found
            have le := parseInterval_le atom p
            omega
          · exact nomatch found

theorem pieceLoop_returns {fuel : Nat} {t : Node} {p : Parser} (enough : p.rest.length < fuel) :
    Returns p (pieceLoop fuel t p) := by
  induction fuel generalizing t p with
  | zero => exact absurd enough (not_lt_zero _)
  | succ fuel ih =>
    rw [pieceLoop]
    split
    next => exact ⟨_, rfl, le_refl _⟩
    next =>
      split
      next => exact ⟨_, rfl, le_refl _⟩
      next t' q found =>
        have shorter := postfixOp_shorter found
        obtain ⟨r, ran, le⟩ := ih (t := t') (p := q) (by dsimp only at shorter; omega)
        exact ⟨r, ran, by dsimp only at shorter; omega⟩

section Descent
variable {alt : Read} {depth : Nat}

theorem parseAtom_returns (inner : ∀ p : Parser, p.rest.length < depth → Returns p (alt p))
    {p : Parser} (shallow : p.rest.length ≤ depth) (more : 0 < p.rest.length) :
    ∃ r, parseAtom alt p = some r ∧ r.2.rest.length < p.rest.length := by
  have leaf (q : Parser) (t : Node) (le : q.rest.length < p.rest.length) :
      ∃ r, some (q.mk t) = some r ∧ r.2.rest.length < p.rest.length :=
    ⟨_, rfl, by rwa [Parser.mk_rest]⟩
  rw [parseAtom]
  split
  next none => rw [none] at more; exact absurd more (lt_irrefl _)
  next c rest left =>
    rw [left, length_cons] at shallow leaf
    rw [left, length_cons]
    dsimp only
    split
    · obtain ⟨⟨t, q⟩, ran, le⟩ := inner { p with rest := rest, ngroups := p.ngroups + 1 } shallow
      rw [ran]
      refine leaf _ _ (lt_of_le_of_lt ?_ (lt_succ_of_le le))
      split
      · rw [Parser.skip_shorter]
        exact sub_le _ _
      · exact le_refl _
    · split
      · obtain ⟨r, ran, le⟩ := parseClass_returns { p with rest := rest }
        exact ⟨r, ran, lt_succ_of_le le⟩
      · split
        · exact leaf _ _ (lt_succ_self _)
        · split
          · exact leaf _ _ (lt_succ_self _)
          · split
            · exact leaf _ _ (lt_succ_self _)
            · split
              · split
                · exact ⟨_, rfl, lt_succ_self _⟩
                · exact leaf _ _ (lt_succ_of_lt (lt_succ_self _))
              · exact leaf _ _ (lt_succ_self _)

theorem parsePiece_returns (inner : ∀ p : Parser, p.rest.length < depth → Returns p (alt p))
    {p : Parser} (shallow : p.rest.length ≤ depth) (more : 0 < p.rest.length) :
    ∃ r, parsePiece alt p = some r ∧ r.2.rest.length < p.rest.length := by
  obtain ⟨⟨atom, q⟩, ran, shorter⟩ := parseAtom_returns inner shallow more
  obtain ⟨r, looped, le⟩ := pieceLoop_returns (t := atom) (lt_succ_self q.rest.length)
  exact ⟨r, by rw [parsePiece, ran]; exact looped, lt_of_le_of_lt le shorter⟩

theorem concatDone_rest (p : Parser) (left : Option Node) : (concatDone p left).2.rest = p.rest := by
  cases left with
  | none => exact p.mk_rest .empty
  | some t => rfl

theorem concatLoop_returns (inner : ∀ p : Parser, p.rest.length < depth → Returns p (alt p))
    {fuel : Nat} {o : Option Node} {p : Parser} (shallow : p.rest.length ≤ depth)
    (enough : p.rest.length < fuel) : Returns p (concatLoop alt fuel o p) := by
  induction fuel generalizing o p with
  | zero => exact absurd enough (not_lt_zero _)
  | succ fuel ih =>
    have done (q : Parser) (le : q.rest.length ≤ p.rest.length) :
        Returns p (some (concatDone q o)) := ⟨_, rfl, by rwa [concatDone_rest]⟩
    rw [concatLoop]
    split
    · exact done p (le_refl _)
    · split
      · exact done p (le_refl _)
      next more =>
        have some : 0 < p.rest.length :=
          length_pos_iff.mpr fun none => more (.inl (by rw [Parser.peek, none]; rfl))
        obtain ⟨⟨piece, q⟩, ran, shorter⟩ := parsePiece_returns inner shallow some
        dsimp only at shorter
        have turn (t : Node) (q' : Parser) (same : q'.rest = q.rest) :
            Returns p (concatLoop alt fuel (Option.some t) q') := by
          obtain ⟨r, ran, le⟩ := ih (o := Option.some t) (p := q')
            (by rw [same]; omega) (by rw [same]; omega)
          rw [same] at le
          exact ⟨r, ran, by omega⟩
        rw [ran, Option.bind_some]
        dsimp only
        split
        · exact done q (le_of_lt shorter)
        · split
          · exact turn _ q rfl
          · exact turn _ _ (q.mk_rest _)

theorem altLoop_returns (inner : ∀ p : Parser, p.rest.length < depth → Returns p (alt p))
    {fuel : Nat} {t : Node} {p : Parser} (shallow : p.rest.length ≤ depth)
    (enough : p.rest.length < fuel) : Returns p (altLoop alt fuel t p) := by
  induction fuel generalizing t p with
  | zero => exact absurd enough (not_lt_zero _)
  | succ fuel ih =>
    rw [altLoop]
    split
    next bar =>
      have some : 0 < p.rest.length :=
        length_pos_iff.mpr fun none => by rw [Parser.peek, none] at bar; exact nomatch bar.2
      have skipped := p.skip_shorter
      obtain ⟨⟨right, q⟩, ran, le⟩ := concatLoop_returns (o := none) (p := p.skip) inner
        (by omega) (lt_succ_self _)
      dsimp only at le
      obtain ⟨r, looped, le'⟩ := ih (t := (q.mk (.alt t right)).1)
        (p := (q.mk (.alt t right)).2) (by rw [Parser.mk_rest]; omega)
        (by rw [Parser.mk_rest]; omega)
      rw [Parser.mk_rest] at le'
      exact ⟨r, by rw [parseConcat, ran]; exact looped, by omega⟩
    next => exact ⟨_, rfl, le_refl _⟩

end Descent

theorem parseAlt_returns (depth : Nat) (p : Parser) (shallow : p.rest.length < depth) :
    Returns p (parseAlt depth p) := by
  induction depth generalizing p with
  | zero => exact absurd shallow (not_lt_zero _)
  | succ depth ih =>
    have few : p.rest.length ≤ depth := le_of_lt_succ shallow
    obtain ⟨⟨left, q⟩, first, le⟩ := concatLoop_returns (o := none) ih few (lt_succ_self _)
    obtain ⟨r, looped, le'⟩ := altLoop_returns (t := left) ih (le_trans le few)
      (lt_succ_self _)
    exact ⟨r, by rw [parseAlt, parseConcat, first]; exact looped, le_trans le' le⟩

theorem parse_returns (pat : List UInt8) (maxn maxc : Nat) :
    (parse pat maxn maxc).isSome = true := by
  obtain ⟨r, ran, -⟩ := parseAlt_returns (pat.length + 1) (.fresh pat maxn maxc) (lt_succ_self _)
  rw [parse, ran]
  rfl

end Micron.Regex
