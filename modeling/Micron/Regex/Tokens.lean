import Micron.Regex.Parser

/-!
# What an accepted pattern is made of

`lex` cuts a pattern into tokens without a tree: it only knows whether the byte before
ends an atom, since a brace behind an atom may open an interval.  A pattern that the
parser accepts has tokens, its groups are balanced, and the intervals among the tokens
are, in their order, the repetitions of the tree.
-/

set_option autoImplicit false

namespace Micron.Regex

open List Option

/-- The second half of an interval: `{m}`, `{m,}` and `{m,n}`. -/
inductive Upper where
  | same
  | unbounded
  | digits (n : List UInt8)

inductive Token where
  | opening
  | closing
  | bar
  | interval (m : List UInt8) (n : Upper)
  | other

def classEnd : Nat → Bool → List UInt8 → Option (List UInt8)
  | 0, _, _ => none
  | _ + 1, _, [] => none
  | fuel + 1, first, c :: rest =>
    if c = ']'.toUInt8 ∧ first = false then some rest
    else (classItem c rest).bind fun found => classEnd fuel false found.2

/-- The bounds of an interval behind its opening brace, and what follows it. -/
def lexInterval (rest : List UInt8) : Token × List UInt8 :=
  let m := rest.takeWhile isDigit
  match rest.dropWhile isDigit with
  | [] => (.interval m .same, [])
  | c :: after =>
    if c = ','.toUInt8 then
      let n := after.takeWhile isDigit
      (.interval m (if n = [] then .unbounded else .digits n), (after.dropWhile isDigit).tail)
    else (.interval m .same, after)

/-- The first token, whether it ends an atom, and what follows it. -/
def lexOne (behindAtom : Bool) (c : UInt8) (rest : List UInt8) : Option (Token × Bool × List UInt8) :=
  if c = '\\'.toUInt8 then
    match rest with
    | [] => none
    | _ :: rest => some (.other, true, rest)
  else if c = '['.toUInt8 then
    let rest := if rest.head? = some '^'.toUInt8 then rest.tail else rest
    (classEnd (rest.length + 1) true rest).map fun after => (.other, true, after)
  else if c = '('.toUInt8 then some (.opening, false, rest)
  else if c = ')'.toUInt8 then some (.closing, true, rest)
  else if c = '|'.toUInt8 then some (.bar, false, rest)
  else if c = '{'.toUInt8 ∧ behindAtom = true ∧ looksLikeInterval rest then
    some ((lexInterval rest).1, true, (lexInterval rest).2)
  else some (.other, true, rest)

def lexLoop : Nat → Bool → List UInt8 → Option (List Token)
  | 0, _, _ => none
  | _ + 1, _, [] => some []
  | fuel + 1, behindAtom, c :: rest =>
    (lexOne behindAtom c rest).bind fun (t, behindAtom, rest) =>
      (lexLoop fuel behindAtom rest).map (t :: ·)

/-- The tokens of a pattern, if its classes are closed and nothing is cut off. -/
def lex (pat : List UInt8) : Option (List Token) := lexLoop (pat.length + 1) false pat

/-- No group is closed that is not open, and none is left open. -/
def balanced : Nat → List Token → Bool
  | depth, [] => depth == 0
  | depth, .opening :: ts => balanced (depth + 1) ts
  | 0, .closing :: _ => false
  | depth + 1, .closing :: ts => balanced depth ts
  | depth, .bar :: ts => balanced depth ts
  | depth, .interval _ _ :: ts => balanced depth ts
  | depth, .other :: ts => balanced depth ts

def numeral (digits : List UInt8) : Nat :=
  digits.foldl (fun v c => v * 10 + (c.toNat - '0'.toNat)) 0

/-- The bounds that an interval writes, `none` where there is no upper one. -/
def Token.written : Token → Option (Nat × Option Nat)
  | .interval m .same => some (numeral m, some (numeral m))
  | .interval m .unbounded => some (numeral m, none)
  | .interval m (.digits n) => some (numeral m, some (numeral n))
  | _ => none

def Token.read : Token → Option (Nat × Nat)
  | .interval m .same => some (readNumber m, readNumber m)
  | .interval m .unbounded => some (readNumber m, kInf)
  | .interval m (.digits n) => some (readNumber m, readNumber n)
  | _ => none

/-- The bounds of the repetitions of a tree, in the order of the pattern. -/
def Node.bounds : Node → List (Nat × Nat)
  | .empty | .char _ | .cls _ | .any | .bol | .eol => []
  | .concat a b | .alt a b => a.bounds ++ b.bounds
  | .star a | .plus a | .quest a | .group a _ => a.bounds
  | .rep a lo hi => a.bounds ++ [(lo, hi)]

def meaning (b : Nat × Nat) : Nat × Option Nat := (b.1, if b.2 = kInf then none else some b.2)

def Lexes (behindAtom : Bool) (rest : List UInt8) (ts : List Token) : Prop :=
  ∀ fuel, rest.length < fuel → lexLoop fuel behindAtom rest = some ts

/-- Between two places of the pattern stand these tokens. -/
def Spans (b : Bool) (rest : List UInt8) (toks : List Token) (b' : Bool) (rest' : List UInt8) : Prop :=
  ∀ ts, Lexes b' rest' ts → Lexes b rest (toks ++ ts)

theorem Spans.trans {b b' b'' : Bool} {rest rest' rest'' : List UInt8} {toks toks' : List Token}
    (first : Spans b rest toks b' rest') (second : Spans b' rest' toks' b'' rest'') :
    Spans b rest (toks ++ toks') b'' rest'' := by
  intro ts lexes
  rw [append_assoc]
  exact first _ (second ts lexes)

theorem spans_one {b b' : Bool} {c : UInt8} {rest rest' : List UInt8} {t : Token}
    (one : lexOne b c rest = some (t, b', rest')) (le : rest'.length ≤ rest.length) :
    Spans b (c :: rest) [t] b' rest' := by
  intro ts lexes fuel enough
  cases fuel with
  | zero => exact absurd enough (Nat.not_lt_zero _)
  | succ fuel =>
    rw [length_cons] at enough
    rw [lexLoop, one, bind_some]
    dsimp only
    rw [lexes fuel (by omega)]
    rfl

def Ends (rest : List UInt8) : Prop :=
  rest.head? = none ∨ rest.head? = some '|'.toUInt8 ∨ rest.head? = some ')'.toUInt8

theorem Ends.spans {rest : List UInt8} (ends : Ends rest) (b b' : Bool) : Spans b rest [] b' rest := by
  intro ts lexes fuel enough
  rw [nil_append, ← lexes fuel enough]
  cases fuel with
  | zero => rfl
  | succ fuel =>
    cases rest with
    | nil => rfl
    | cons c rest =>
      have same : lexOne b c rest = lexOne b' c rest := by
        rcases ends with none | bar | closing
        · exact nomatch none
        · cases bar
          rfl
        · cases closing
          rfl
      rw [lexLoop, lexLoop, same]

structure Covers (toks : List Token) (bounds : List (Nat × Nat)) : Prop where
  neutral : ∀ depth ts, balanced depth (toks ++ ts) = balanced depth ts
  bounds : bounds = toks.filterMap Token.read

theorem Covers.append {toks toks' : List Token} {bounds bounds' : List (Nat × Nat)}
    (first : Covers toks bounds) (second : Covers toks' bounds') :
    Covers (toks ++ toks') (bounds ++ bounds') where
  neutral depth ts := by rw [append_assoc, first.neutral, second.neutral]
  bounds := by rw [filterMap_append, first.bounds, second.bounds]

theorem Covers.nil : Covers [] [] := ⟨fun _ _ => rfl, rfl⟩

theorem Covers.other : Covers [.other] [] := ⟨fun depth ts => by cases depth <;> rfl, rfl⟩

theorem Covers.bar : Covers [.bar] [] := ⟨fun depth ts => by cases depth <;> rfl, rfl⟩

theorem Covers.group {toks : List Token} {bounds : List (Nat × Nat)} (inner : Covers toks bounds) :
    Covers (.opening :: (toks ++ [.closing])) bounds where
  neutral depth ts := by
    rw [cons_append, append_assoc, balanced, inner.neutral]
    rfl
  bounds := by rw [filterMap_cons, filterMap_append, ← inner.bounds]; exact (append_nil _).symm

theorem Parser.ok_of_mk {p : Parser} {t : Node} (ok : (p.mk t).2.ok = true) : p.ok = true := by
  rw [mk] at ok
  split at ok
  · cases ok
  · exact ok

theorem Parser.ok_of_addClass {p : Parser} {r : Charreach} (ok : (p.addClass r).2.ok = true) :
    p.ok = true := by
  rw [addClass] at ok
  split at ok
  · cases ok
  · exact ok

/-- The reader has gone from here to there, past tokens with these bounds. -/
def Sees (b : Bool) (p : Parser) (b' : Bool) (q : Parser) (bounds : List (Nat × Nat)) : Prop :=
  p.ok = true ∧ ∃ toks, Spans b p.rest toks b' q.rest ∧ Covers toks bounds

theorem Sees.trans {b b' b'' : Bool} {p q q' : Parser} {bounds bounds' : List (Nat × Nat)}
    (first : Sees b p b' q bounds) (second : Sees b' q b'' q' bounds') :
    Sees b p b'' q' (bounds ++ bounds') := by
  obtain ⟨ok, toks, spans, covers⟩ := first
  obtain ⟨-, toks', spans', covers'⟩ := second
  exact ⟨ok, toks ++ toks', spans.trans spans', covers.append covers'⟩

theorem classLoop_end {fuel : Nat} {first : Bool} {r : Charreach} {p : Parser}
    {result : Charreach × Parser} (ran : classLoop fuel first r p = some result)
    (ok : result.2.ok = true) : p.ok = true ∧ classEnd fuel first p.rest = some result.2.rest := by
  induction fuel generalizing first r p with
  | zero => cases ran
  | succ fuel ih =>
    rw [classLoop] at ran
    split at ran
    next failed =>
      cases ran
      rw [ok] at failed
      cases failed
    next fine =>
      refine ⟨by simpa using fine, ?_⟩
      split at ran
      next =>
        cases ran
        cases ok
      next c rest left =>
        rw [left, classEnd]
        split at ran
        next closes =>
          cases ran
          rw [if_pos closes]
        next inside =>
          rw [if_neg inside]
          split at ran
          next =>
            cases ran
            cases ok
          next item after found =>
            rw [found]
            exact (ih ran).2

theorem parseClass_sees {b : Bool} {p : Parser} {r : Node × Parser} (ran : parseClass p = some r)
    (ok : r.2.ok = true) : p.ok = true ∧ r.1.bounds = [] ∧
      lexOne b '['.toUInt8 p.rest = some (.other, true, r.2.rest) := by
  obtain ⟨⟨set, q⟩, looped, rfl⟩ := map_eq_some_iff.mp ran
  obtain ⟨fine, ends⟩ := classLoop_end looped (Parser.ok_of_addClass (Parser.ok_of_mk ok))
  rw [Parser.mk_fst, Parser.mk_rest, Parser.addClass_rest]
  have body : (if p.peek = some '^'.toUInt8 then p.skip else p).rest =
      if p.rest.head? = some '^'.toUInt8 then p.rest.tail else p.rest := by
    rw [Parser.peek]
    split <;> rfl
  refine ⟨?_, rfl, ?_⟩
  · revert fine
    split <;> exact id
  · dsimp only at ends
    rw [body] at ends
    show ((classEnd _ true _).map fun after => (Token.other, true, after)) = _
    rw [ends]
    rfl

theorem looksLikeInterval_cases {rest : List UInt8} (looks : looksLikeInterval rest = true) :
    (∃ after, rest.dropWhile isDigit = ','.toUInt8 :: after ∧
      (after.dropWhile isDigit).head? = some '}'.toUInt8) ∨
    ∃ after, rest.dropWhile isDigit = '}'.toUInt8 :: after := by
  have looks := (Bool.and_eq_true_iff.mp looks).2
  split at looks
  next => exact nomatch looks
  next c after left =>
    rw [left]
    split at looks
    next comma =>
      rw [comma]
      exact .inl ⟨after, rfl, eq_of_beq looks⟩
    next =>
      rw [eq_of_beq looks]
      exact .inr ⟨after, rfl⟩

/-- Behind the comma: the digits, if there are any, and the closing brace. -/
theorem readUpper_comma {m : Nat} {p : Parser} {after : List UInt8}
    (left : p.rest = ','.toUInt8 :: after) (closes : (after.dropWhile isDigit).head? = some '}'.toUInt8) :
    readUpper m p = (if after.takeWhile isDigit = [] then kInf else readNumber (after.takeWhile isDigit),
      { p with rest := after.dropWhile isDigit }) := by
  have comma : p.peek = some ','.toUInt8 := by
    rw [Parser.peek, left]
    rfl
  have skipped : p.skip = { p with rest := after } := by
    rw [Parser.skip, left]
    rfl
  rw [readUpper, if_pos comma, skipped]
  dsimp only
  rw [show ({ p with rest := after } : Parser).peek = after.head? from rfl]
  cases after with
  | nil => cases closes
  | cons c more =>
    by_cases digit : isDigit c = true
    · have other : (c :: more).head? ≠ some '}'.toUInt8 := by
        intro brace
        cases brace
        exact absurd digit (by decide)
      rw [if_neg other, takeWhile_cons_of_pos digit, if_neg (cons_ne_nil _ _)]
    · rw [dropWhile_cons_of_neg digit] at closes ⊢
      rw [if_pos closes, takeWhile_cons_of_neg digit, if_pos rfl]

theorem readUpper_brace {lo : Nat} {p : Parser} {after : List UInt8}
    (left : p.rest = '}'.toUInt8 :: after) : readUpper lo p = (lo, p) := by
  rw [readUpper, Parser.peek, left]
  exact if_neg (by simp only [head?_cons, Option.some.injEq]; decide)

theorem closeInterval_brace {lo hi : Nat} {p : Parser} (closes : p.rest.head? = some '}'.toUInt8) :
    closeInterval lo hi p = if hi ≠ kInf ∧ hi < lo then p.skip.fail else p.skip := by
  rw [closeInterval, Parser.peek, if_pos closes]

/-- The state behind an interval, and the node for it. -/
theorem parseInterval_eq {t : Node} {p : Parser} {rest : List UInt8}
    (left : p.rest = '{'.toUInt8 :: rest) (looks : looksLikeInterval rest = true) :
    ∃ bounds, (lexInterval rest).1.read = some bounds ∧ parseInterval t p =
      (if bounds.2 ≠ kInf ∧ bounds.2 < bounds.1 then { p with rest := (lexInterval rest).2 }.fail
        else { p with rest := (lexInterval rest).2 }).mk (.rep t bounds.1 bounds.2) := by
  have skipped : p.skip = { p with rest := rest } := by
    rw [Parser.skip, left]
    rfl
  rw [parseInterval, skipped, lexInterval]
  rcases looksLikeInterval_cases looks with ⟨after, comma, closes⟩ | ⟨after, brace⟩
  · rw [readUpper_comma (p := { p with rest := rest.dropWhile isDigit }) comma closes, comma]
    dsimp only
    rw [closeInterval_brace closes, if_pos rfl]
    by_cases none : after.takeWhile isDigit = []
    · rw [if_pos none, if_pos none]
      exact ⟨_, rfl, rfl⟩
    · rw [if_neg none, if_neg none]
      exact ⟨_, rfl, rfl⟩
  · rw [readUpper_brace (p := { p with rest := rest.dropWhile isDigit }) brace, brace]
    exact ⟨_, rfl, rfl⟩

theorem ok_of_guard {c : Prop} [Decidable c] {p : Parser} {t : Node}
    (ok : ((if c then p.fail else p).mk t).2.ok = true) : p.ok = true := by
  have fine := Parser.ok_of_mk ok
  split at fine
  · exact nomatch fine
  · exact fine

def Literal (b : Bool) (rest : List UInt8) : Prop :=
  b = true → ∀ after, rest = '{'.toUInt8 :: after → looksLikeInterval after = false

theorem Covers.interval {rest : List UInt8} {bounds : Nat × Nat}
    (reads : (lexInterval rest).1.read = some bounds) : Covers [(lexInterval rest).1] [bounds] where
  neutral depth ts := by
    rw [lexInterval]
    split
    · cases depth <;> rfl
    · split <;> cases depth <;> rfl
  bounds := by rw [filterMap_cons, reads]; rfl

theorem postfixOp_sees {atom : Node} {p : Parser} {r : Node × Parser}
    (found : postfixOp atom p = some r) (ok : r.2.ok = true) :
    ∃ bounds, r.1.bounds = atom.bounds ++ bounds ∧ Sees true p true r.2 bounds := by
  rw [postfixOp] at found
  split at found
  next => cases found
  next c rest left =>
    have skipped : p.skip.rest = rest := by
      rw [Parser.skip, left]
      rfl
    have operator (t : Node) (same : t.bounds = atom.bounds)
        (one : lexOne true c rest = some (.other, true, rest)) (isR : some (p.skip.mk t) = some r) :
        ∃ bounds, r.1.bounds = atom.bounds ++ bounds ∧ Sees true p true r.2 bounds := by
      cases isR
      have fine : p.ok = true := Parser.ok_of_mk (p := p.skip) ok
      refine ⟨[], by rw [Parser.mk_fst, same, append_nil], fine, [.other], ?_, .other⟩
      rw [left, Parser.mk_rest, skipped]
      exact spans_one one (le_refl _)
    split at found
    next star => exact operator (.star atom) rfl (by rw [star]; rfl) found
    next =>
      split at found
      next plus => exact operator (.plus atom) rfl (by rw [plus]; rfl) found
      next =>
        split at found
        next quest => exact operator (.quest atom) rfl (by rw [quest]; rfl) found
        next =>
          split at found
          next interval =>
            cases found
            obtain ⟨brace, looks⟩ := interval
            rw [brace] at left
            obtain ⟨bounds, reads, isR⟩ := parseInterval_eq (t := atom) left looks
            have le := parseInterval_le atom p
            rw [isR] at ok le ⊢
            have isRest : ∀ q : Parser, ∀ c : Prop, ∀ _ : Decidable c,
                (if c then q.fail else q).rest = q.rest := by
              intro q c _
              split <;> rfl
            rw [Parser.mk_rest, isRest, left] at le
            rw [Parser.mk_fst]
            refine ⟨[bounds], rfl, ok_of_guard (p := { p with rest := (lexInterval rest).2 }) ok, _, ?_,
              .interval reads⟩
            rw [left, Parser.mk_rest, isRest]
            refine spans_one ?_ le
            unfold lexOne
            rw [if_neg (by decide), if_neg (by decide), if_neg (by decide), if_neg (by decide),
              if_neg (by decide), if_pos ⟨rfl, rfl, looks⟩]
          next => cases found

theorem postfixOp_literal {atom : Node} {p : Parser} (none : postfixOp atom p = none) :
    Literal true p.rest := by
  intro _ after left
  cases looks : looksLikeInterval after with
  | false => rfl
  | true =>
    rw [postfixOp, left] at none
    dsimp only at none
    rw [if_neg (by decide), if_neg (by decide), if_neg (by decide), if_pos ⟨rfl, looks⟩] at none
    cases none

theorem pieceLoop_sees {fuel : Nat} {atom : Node} {p : Parser} {r : Node × Parser}
    (ran : pieceLoop fuel atom p = some r) (ok : r.2.ok = true) :
    ∃ bounds, r.1.bounds = atom.bounds ++ bounds ∧ Sees true p true r.2 bounds ∧
      Literal true r.2.rest := by
  induction fuel generalizing atom p with
  | zero => cases ran
  | succ fuel ih =>
    rw [pieceLoop] at ran
    split at ran
    next failed =>
      cases ran
      rw [ok] at failed
      cases failed
    next =>
      split at ran
      next none =>
        cases ran
        refine ⟨[], (append_nil _).symm, ⟨ok, [], fun ts lexes => lexes, .nil⟩, ?_⟩
        exact postfixOp_literal none
      next atom' q found =>
        obtain ⟨bounds', isBounds', more, literal⟩ := ih ran
        obtain ⟨bounds, isBounds, sees⟩ := postfixOp_sees found more.1
        rw [isBounds, append_assoc] at isBounds'
        exact ⟨bounds ++ bounds', isBounds', sees.trans more, literal⟩

section Descent
variable {alt : Read}

def Sound (alt : Read) : Prop :=
  ∀ p r, alt p = some r → r.2.ok = true → Sees false p true r.2 r.1.bounds

theorem parseAtom_sees (sound : Sound alt) {b : Bool} {p : Parser} {r : Node × Parser}
    (literal : Literal b p.rest) (more : ¬ Ends p.rest) (ran : parseAtom alt p = some r)
    (ok : r.2.ok = true) : Sees b p true r.2 r.1.bounds := by
  rw [parseAtom] at ran
  split at ran
  next none => exact absurd (.inl (by rw [none]; rfl)) more
  next c rest left =>
    -- one token, which ends an atom
    have leaf (q : Parser) (t : Node) (isR : some (q.mk t) = some r) (none : t.bounds = [])
        (same : q.ok = p.ok) (one : lexOne b c rest = some (.other, true, q.rest))
        (le : q.rest.length ≤ rest.length) : Sees b p true r.2 r.1.bounds := by
      cases isR
      refine ⟨same ▸ Parser.ok_of_mk ok, [.other], ?_, by rw [Parser.mk_fst, none]; exact .other⟩
      rw [left, Parser.mk_rest]
      exact spans_one one le
    dsimp only at ran
    split at ran
    next isOpening =>
      obtain ⟨⟨inner, q⟩, within, rfl⟩ := map_eq_some_iff.mp ran
      have closing : q.peek = some ')'.toUInt8 := by
        by_contra open_
        rw [if_neg open_] at ok
        cases (Parser.ok_of_mk ok)
      rw [if_pos closing] at ok ⊢
      obtain ⟨fine, toks, spans, covers⟩ := sound _ _ within (Parser.ok_of_mk (p := q.skip) ok)
      rw [Parser.mk_fst]
      refine ⟨fine, _, ?_, covers.group⟩
      rw [Parser.mk_rest]
      obtain ⟨tail, isTail⟩ : ∃ tail, q.rest = ')'.toUInt8 :: tail := by
        cases isRest : q.rest with
        | nil => rw [Parser.peek, isRest] at closing; cases closing
        | cons d tail =>
          rw [Parser.peek, isRest] at closing
          cases closing
          exact ⟨tail, rfl⟩
      have last : Spans true q.rest [.closing] true q.skip.rest := by
        rw [Parser.skip, isTail]
        exact spans_one rfl (le_refl _)
      have first : Spans b p.rest [.opening] false rest := by
        rw [left, isOpening]
        exact spans_one rfl (le_refl _)
      exact first.trans (spans.trans last)
    next notOpening =>
      split at ran
      next isClass =>
        obtain ⟨fine, none, one⟩ := parseClass_sees (b := b) ran ok
        obtain ⟨r', ran', le⟩ := parseClass_returns { p with rest := rest }
        cases ran.symm.trans ran'
        rw [none]
        refine ⟨fine, [.other], ?_, .other⟩
        rw [left, isClass]
        exact spans_one one le
      next notClass =>
        split at ran
        next isAny => exact leaf _ _ ran rfl rfl (by rw [isAny]; rfl) (le_refl _)
        next =>
          split at ran
          next isBol => exact leaf _ _ ran rfl rfl (by rw [isBol]; rfl) (le_refl _)
          next =>
            split at ran
            next isEol => exact leaf _ _ ran rfl rfl (by rw [isEol]; rfl) (le_refl _)
            next =>
              split at ran
              next escape =>
                split at ran
                next =>
                  cases ran
                  cases ok
                next e after => exact leaf _ _ ran rfl rfl (by rw [escape]; rfl) (Nat.le_succ _)
              next notEscape =>
                have notClosing : c ≠ ')'.toUInt8 :=
                  fun closing => more (.inr (.inr (by rw [left, closing]; rfl)))
                have notBar : c ≠ '|'.toUInt8 :=
                  fun bar => more (.inr (.inl (by rw [left, bar]; rfl)))
                have notInterval : ¬ (c = '{'.toUInt8 ∧ b = true ∧ looksLikeInterval rest = true) := by
                  rintro ⟨brace, behind, looks⟩
                  rw [brace] at left
                  exact absurd (literal behind rest left) (by rw [looks]; exact Bool.noConfusion)
                refine leaf _ _ ran rfl rfl ?_ (le_refl _)
                unfold lexOne
                rw [if_neg notEscape, if_neg notClass, if_neg notOpening, if_neg notClosing,
                  if_neg notBar, if_neg notInterval]

theorem parsePiece_sees (sound : Sound alt) {b : Bool} {p : Parser} {r : Node × Parser}
    (literal : Literal b p.rest) (more : ¬ Ends p.rest) (ran : parsePiece alt p = some r)
    (ok : r.2.ok = true) : Sees b p true r.2 r.1.bounds ∧ Literal true r.2.rest := by
  obtain ⟨⟨atom, q⟩, first, looped⟩ := bind_eq_some_iff.mp ran
  obtain ⟨bounds, isBounds, sees, literal'⟩ := pieceLoop_sees looped ok
  rw [isBounds]
  exact ⟨(parseAtom_sees sound literal more first sees.1).trans sees, literal'⟩

theorem concatLoop_sees (sound : Sound alt) {fuel : Nat} {o : Option Node} {p : Parser}
    {r : Node × Parser} (literal : Literal o.isSome p.rest)
    (ran : concatLoop alt fuel o p = some r) (ok : r.2.ok = true) :
    ∃ bounds, r.1.bounds = (o.map Node.bounds).getD [] ++ bounds ∧
      Sees o.isSome p true r.2 bounds ∧ Ends r.2.rest := by
  induction fuel generalizing o p with
  | zero => cases ran
  | succ fuel ih =>
    have isDone : (concatDone p o).2.rest = p.rest := concatDone_rest p o
    have fine (q : Parser) : (concatDone q o).2.ok = true → q.ok = true := by
      cases o with
      | none => exact Parser.ok_of_mk
      | some t => exact id
    have isTree : (concatDone p o).1.bounds = (o.map Node.bounds).getD [] := by
      cases o with
      | none => rw [concatDone, Parser.mk_fst]; rfl
      | some t => rfl
    rw [concatLoop] at ran
    split at ran
    next failed =>
      cases ran
      rw [fine p ok] at failed
      cases failed
    next =>
      split at ran
      next ends =>
        cases ran
        refine ⟨[], by rw [isTree, append_nil], ⟨fine p ok, [], ?_, .nil⟩, ?_⟩
        · rw [isDone]
          exact Ends.spans ends _ _
        · rw [isDone]
          exact ends
      next more =>
        obtain ⟨⟨piece, q⟩, one, ran⟩ := bind_eq_some_iff.mp ran
        dsimp only at ran
        split at ran
        next failed =>
          cases ran
          rw [fine q ok] at failed
          cases failed
        next fine' =>
          have fine' : q.ok = true := by simpa using fine'
          obtain ⟨sees, literal'⟩ := parsePiece_sees sound literal more one fine'
          have next (t : Node) (q' : Parser) (same : q'.rest = q.rest)
              (isT : t.bounds = (o.map Node.bounds).getD [] ++ piece.bounds)
              (ran : concatLoop alt fuel (some t) q' = some r) :
              ∃ bounds, r.1.bounds = (o.map Node.bounds).getD [] ++ bounds ∧
                Sees o.isSome p true r.2 bounds ∧ Ends r.2.rest := by
            obtain ⟨bounds, isBounds, sees', ends⟩ := ih (o := some t) (by rwa [same]) ran
            refine ⟨piece.bounds ++ bounds, ?_, sees.trans ⟨fine', ?_⟩, ends⟩
            · rw [isBounds, map_some, getD_some, isT, append_assoc]
            · rw [← same]
              exact sees'.2
          split at ran
          next => exact next _ _ rfl rfl ran
          next t => exact next _ _ (q.mk_rest _) (by rw [Parser.mk_fst]; rfl) ran

theorem altLoop_sees (sound : Sound alt) {fuel : Nat} {t : Node} {p : Parser} {r : Node × Parser}
    (ran : altLoop alt fuel t p = some r) (ok : r.2.ok = true) :
    p.ok = true ∧ (Ends p.rest →
      ∃ bounds, r.1.bounds = t.bounds ++ bounds ∧ Sees true p true r.2 bounds) := by
  induction fuel generalizing t p with
  | zero => cases ran
  | succ fuel ih =>
    rw [altLoop] at ran
    split at ran
    next bar =>
      obtain ⟨⟨right, q⟩, one, ran⟩ := bind_eq_some_iff.mp ran
      obtain ⟨fine, later⟩ := ih (t := (q.mk (.alt t right)).1) (p := (q.mk (.alt t right)).2) ran
      obtain ⟨bounds, isBounds, sees, ends⟩ :=
        concatLoop_sees (o := none) sound (fun h => by cases h) one (Parser.ok_of_mk fine)
      rw [Parser.mk_rest, Parser.mk_fst] at later
      obtain ⟨bounds', isBounds', sees'⟩ := later ends
      refine ⟨bar.1, fun _ => ⟨right.bounds ++ bounds', ?_, ?_⟩⟩
      · rw [isBounds', Node.bounds, append_assoc]
      · obtain ⟨rest, isRest⟩ : ∃ rest, p.rest = '|'.toUInt8 :: rest := by
          cases left : p.rest with
          | nil => rw [Parser.peek, left] at bar; cases bar.2
          | cons c rest =>
            rw [Parser.peek, left] at bar
            cases bar.2
            exact ⟨rest, rfl⟩
        have passed : Sees true p false p.skip [] := by
          refine ⟨bar.1, [.bar], ?_, .bar⟩
          rw [Parser.skip, isRest]
          exact spans_one rfl (le_refl _)
        rw [isBounds]
        refine passed.trans (sees.trans ⟨Parser.ok_of_mk fine, ?_⟩)
        have more := sees'.2
        rwa [Parser.mk_rest] at more
    next =>
      cases ran
      exact ⟨ok, fun ends => ⟨[], (append_nil _).symm, ok, [], ends.spans _ _, .nil⟩⟩

end Descent

theorem parseAlt_sound (depth : Nat) : Sound (parseAlt depth) := by
  induction depth with
  | zero => exact fun p r ran => nomatch ran
  | succ depth ih =>
    intro p r ran ok
    obtain ⟨⟨left, q⟩, first, looped⟩ := bind_eq_some_iff.mp ran
    obtain ⟨fine, later⟩ := altLoop_sees ih looped ok
    obtain ⟨bounds, isBounds, sees, ends⟩ := concatLoop_sees (o := none) ih nofun first fine
    obtain ⟨bounds', isBounds', sees'⟩ := later ends
    rw [isBounds', isBounds]
    exact sees.trans sees'

/-- A pattern that is accepted is read to its end, and its tokens are those of the tree. -/
theorem parse_covers {pat : List UInt8} {maxn maxc : Nat} {t : Node} {p : Parser}
    (accepted : parse pat maxn maxc = some (t, p)) (ok : p.ok = true) :
    p.rest = [] ∧ ∃ toks, lex pat = some toks ∧ Covers toks t.bounds := by
  obtain ⟨⟨t', q⟩, ran, same⟩ := map_eq_some_iff.mp accepted
  dsimp only at same
  split at same
  next whole =>
    cases same
    obtain ⟨-, toks, spans, covers⟩ := parseAlt_sound _ _ _ ran ok
    refine ⟨whole, toks, ?_, covers⟩
    have none : Lexes true p.rest [] := by
      rw [whole]
      intro fuel enough
      cases fuel with
      | zero => exact absurd enough (Nat.not_lt_zero _)
      | succ fuel => rfl
    have all := spans [] none (pat.length + 1) (Nat.lt_succ_self _)
    rwa [append_nil] at all
  next =>
    cases same
    exact nomatch ok

/-- No more groups are closed than are open, and all of them are. -/
theorem Covers.balanced {toks : List Token} {bounds : List (Nat × Nat)} (covers : Covers toks bounds) :
    balanced 0 toks = true := by
  have whole := covers.neutral 0 []
  rw [append_nil] at whole
  exact whole

/-! ## What the bounds mean -/

theorem readNumber_eq (digits : List UInt8) : readNumber digits = numeral digits % 2 ^ 32 := by
  have run (digits : List UInt8) (v : Nat) :
      digits.foldl (fun v c => u32 (v * 10 + (c.toNat - '0'.toNat))) (v % 2 ^ 32) =
        digits.foldl (fun v c => v * 10 + (c.toNat - '0'.toNat)) v % 2 ^ 32 := by
    induction digits generalizing v with
    | nil => rfl
    | cons c digits ih =>
      rw [foldl_cons, foldl_cons, ← ih, u32]
      congr 1
      omega
  exact run digits 0

/-- The bounds of an interval are words, and the upper one is not taken for none. -/
def Token.InRange : Token → Prop
  | .interval m .same => numeral m < kInf
  | .interval m .unbounded => numeral m < 2 ^ 32
  | .interval m (.digits n) => numeral m < 2 ^ 32 ∧ numeral n < kInf
  | _ => True

instance (t : Token) : Decidable t.InRange :=
  match t with
  | .interval m .same => inferInstanceAs (Decidable (numeral m < kInf))
  | .interval m .unbounded => inferInstanceAs (Decidable (numeral m < 2 ^ 32))
  | .interval m (.digits n) => inferInstanceAs (Decidable (numeral m < 2 ^ 32 ∧ numeral n < kInf))
  | .opening | .closing | .bar | .other => inferInstanceAs (Decidable True)

theorem word_eq_iff {x : Nat} : x % 2 ^ 32 = x ↔ x < 2 ^ 32 :=
  ⟨fun same => same ▸ Nat.mod_lt x (by decide), Nat.mod_eq_of_lt⟩

theorem meaning_some_iff {m n : Nat} :
    meaning (m % 2 ^ 32, n % 2 ^ 32) = (m, some n) ↔ m < 2 ^ 32 ∧ n < kInf := by
  rw [meaning, Prod.mk.injEq, word_eq_iff]
  refine and_congr_right fun _ => ?_
  have words : kInf + 1 = 2 ^ 32 := rfl
  split
  next => exact ⟨nofun, fun small => by omega⟩
  next => rw [Option.some.injEq]; omega

theorem Token.read_means_iff (t : Token) : t.read.map meaning = t.written ↔ t.InRange := by
  cases t with
  | interval m n =>
    cases n with
    | same =>
      rw [read, written, readNumber_eq, map_some, Option.some.injEq, meaning_some_iff]
      exact ⟨And.right, fun small => ⟨lt_trans small (by decide), small⟩⟩
    | unbounded =>
      rw [read, written, readNumber_eq, map_some, Option.some.injEq, meaning, Prod.mk.injEq,
        word_eq_iff, if_pos rfl]
      exact and_iff_left rfl
    | digits n =>
      rw [read, written, readNumber_eq, readNumber_eq, map_some, Option.some.injEq,
        meaning_some_iff]
      rfl
  | opening | closing | bar | other => exact ⟨fun _ => trivial, fun _ => rfl⟩

theorem Token.isSome_read (t : Token) : t.read.isSome = t.written.isSome := by
  cases t with
  | interval m n => cases n <;> rfl
  | opening | closing | bar | other => rfl

theorem reads_mean_iff (toks : List Token) :
    (toks.filterMap Token.read).map meaning = toks.filterMap Token.written ↔ ∀ t ∈ toks, t.InRange := by
  induction toks with
  | nil => exact ⟨fun _ => nofun, fun _ => rfl⟩
  | cons t toks ih =>
    have both := t.isSome_read
    rw [filterMap_cons, filterMap_cons, forall_mem_cons, ← ih, ← t.read_means_iff]
    cases isRead : t.read with
    | none =>
      rw [isRead] at both
      have isWritten : t.written = none := isNone_iff_eq_none.mp
        (isSome_eq_false_iff.mp both.symm)
      rw [isWritten]
      exact ⟨fun same => ⟨rfl, same⟩, And.right⟩
    | some b =>
      rw [isRead] at both
      obtain ⟨w, isWritten⟩ := isSome_iff_exists.mp both.symm
      rw [isWritten, map_cons, List.cons.injEq, map_some, Option.some.injEq]

/-- In a pattern that is accepted, the repetitions have the bounds that are written if and only
if these are in range. -/
theorem interval_bounds_exact_iff (pat : List UInt8) (maxn maxc : Nat) (t : Node) (p : Parser)
    (accepted : parse pat maxn maxc = some (t, p)) (ok : p.ok = true) :
    ∃ toks, lex pat = some toks ∧
      (t.bounds.map meaning = toks.filterMap Token.written ↔ ∀ tok ∈ toks, tok.InRange) := by
  obtain ⟨-, toks, lexed, covers⟩ := parse_covers accepted ok
  refine ⟨toks, lexed, ?_⟩
  rw [covers.bounds]
  exact reads_mean_iff toks

/-- `a{2,3}`. -/
theorem interval_bounds_exact_iff_small :
    ∃ toks, lex [97, 123, 50, 44, 51, 125] = some toks ∧
      ((Node.rep (.char 97) 2 3).bounds.map meaning = toks.filterMap Token.written ↔
        ∀ tok ∈ toks, tok.InRange) :=
  interval_bounds_exact_iff [97, 123, 50, 44, 51, 125] 40 14 _ ⟨[], 40, 2, [], 14, 0, true⟩ rfl rfl

/-- `a{4294967296}` is accepted as `a{0,0}`. -/
theorem interval_bounds_wrap :
    ∃ t p toks, parse [97, 123, 52, 50, 57, 52, 57, 54, 55, 50, 57, 54, 125] 68 21 = some (t, p) ∧
      p.ok = true ∧ lex [97, 123, 52, 50, 57, 52, 57, 54, 55, 50, 57, 54, 125] = some toks ∧
      ¬ t.bounds.map meaning = toks.filterMap Token.written :=
  ⟨.rep (.char 97) 0 0, ⟨[], 68, 2, [], 21, 0, true⟩,
    [.other, .interval [52, 50, 57, 52, 57, 54, 55, 50, 57, 54] .same], rfl, rfl, rfl, by decide⟩

end Micron.Regex
