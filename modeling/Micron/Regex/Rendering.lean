import Micron.Regex.Tokens

/-!
# What is rendered is read back

`Node.render` writes a tree as a pattern: bytes are escaped, and an operand is put in
parentheses where it binds less tight than its place asks for, or everywhere.  A text
is read at the level of an atom, a piece, a concatenation or an alternation; what is
read at one level is read at the looser ones, and parentheses make an atom of all of
them.
-/

set_option autoImplicit false

namespace Micron.Regex

open List Nat Option

def parens (s : List UInt8) : List UInt8 := '('.toUInt8 :: (s ++ [')'.toUInt8])

def escaped (c : UInt8) : List UInt8 := ['\\'.toUInt8, c]

def Charreach.members (r : Charreach) : List UInt8 := ((List.range 256).map UInt8.ofNat).filter r.test

/-- A class lists its bytes; that of no byte is the complement of that of all. -/
def Charreach.render (r : Charreach) : List UInt8 :=
  if r.members = [] then
    '['.toUInt8 :: '^'.toUInt8 :: (((List.range 256).map UInt8.ofNat).flatMap escaped ++ [']'.toUInt8])
  else '['.toUInt8 :: (r.members.flatMap escaped ++ [']'.toUInt8])

def decimal (n : Nat) : List UInt8 := (Nat.toDigits 10 n).map Char.toUInt8

def renderBounds (lo hi : Nat) : List UInt8 :=
  '{'.toUInt8 :: (decimal lo ++
    ','.toUInt8 :: ((if hi = kInf then [] else decimal hi) ++ ['}'.toUInt8]))

/-- How tight what was read at level `own` has to be to stand at level `place`. -/
def wrap (always : Bool) (own place : Nat) (s : List UInt8) : List UInt8 :=
  if own < place ∨ always = true then parens s else s

/-- Levels: 0 for alternations, 1 for concatenations, 2 for pieces, 3 for atoms. -/
def Node.render (cls : List Charreach) (always : Bool) : Node → Nat → List UInt8
  | .empty, _ => parens []
  | .char c, _ => escaped c
  | .cls k, _ => (cls[k]?.getD .empty).render
  | .any, _ => ['.'.toUInt8]
  | .bol, _ => ['^'.toUInt8]
  | .eol, _ => ['$'.toUInt8]
  | .concat a b, place => wrap always 1 place (a.render cls always 1 ++ b.render cls always 2)
  | .alt a b, place =>
    wrap always 0 place (a.render cls always 0 ++ '|'.toUInt8 :: b.render cls always 1)
  | .star a, place => wrap always 2 place (a.render cls always 2 ++ ['*'.toUInt8])
  | .plus a, place => wrap always 2 place (a.render cls always 2 ++ ['+'.toUInt8])
  | .quest a, place => wrap always 2 place (a.render cls always 2 ++ ['?'.toUInt8])
  | .rep a lo hi, place => wrap always 2 place (a.render cls always 2 ++ renderBounds lo hi)
  | .group a _, _ => parens (a.render cls always 0)

/-- The classes of the tree are in the table, and its bounds are bounds. -/
def Node.Printable (cls : List Charreach) : Node → Prop
  | .empty | .char _ | .any | .bol | .eol => True
  | .cls k => k < cls.length
  | .concat a b | .alt a b => a.Printable cls ∧ b.Printable cls
  | .star a | .plus a | .quest a | .group a _ => a.Printable cls
  | .rep a lo hi => a.Printable cls ∧ lo ≤ hi ∧ hi ≤ kInf

theorem Charreach.test_flip (r : Charreach) (c : UInt8) : r.flip.test c = !r.test c := by
  have small : c.toNat % 64 < 64 := mod_lt _ (by decide)
  rw [test_eq, test_eq]
  show (~~~(r.w _).toBitVec).toNat.testBit _ = !(r.w _).toBitVec.toNat.testBit _
  rw [BitVec.testBit_toNat, BitVec.testBit_toNat, BitVec.getLsbD_not, decide_eq_true small,
    Bool.true_and]

theorem mem_bytes (c : UInt8) : c ∈ (List.range 256).map UInt8.ofNat :=
  mem_map.mpr ⟨c.toNat, mem_range.mpr c.toNat_lt, UInt8.ofNat_toNat⟩

theorem Charreach.mem_members {r : Charreach} {c : UInt8} : c ∈ r.members ↔ r.test c = true := by
  rw [members, mem_filter]
  exact and_iff_right (mem_bytes c)

theorem digit_cases {d : Char} (digit : d.isDigit = true) :
    d.toUInt8.toNat = d.toNat ∧ isDigit d.toUInt8 = true := by
  have bounds : '0'.toNat ≤ d.toNat ∧ d.toNat ≤ '9'.toNat := by
    rw [Char.isDigit, Bool.and_eq_true, decide_eq_true_iff, decide_eq_true_iff] at digit
    exact digit
  have small : d.toUInt8.toNat = d.toNat := by
    exact mod_eq_of_lt (lt_of_le_of_lt bounds.2 (by decide))
  refine ⟨small, decide_eq_true ?_⟩
  rw [UInt8.le_iff_toNat_le, UInt8.le_iff_toNat_le, small]
  exact bounds

theorem digits_of_toDigits {n : Nat} {d : Char} (inside : d ∈ Nat.toDigits 10 n) : d.isDigit = true :=
  isDigit_of_mem_toDigits (by decide) (by decide) inside

theorem isDigit_of_mem_decimal {n : Nat} {c : UInt8} (inside : c ∈ decimal n) : isDigit c = true := by
  obtain ⟨d, digit, rfl⟩ := mem_map.mp inside
  exact (digit_cases (digits_of_toDigits digit)).2

theorem numeral_decimal (n : Nat) : numeral (decimal n) = n := by
  have read (l : List Char) (digits : ∀ d ∈ l, d.isDigit = true) (v : Nat) :
      (l.map Char.toUInt8).foldl (fun v c => v * 10 + (c.toNat - '0'.toNat)) v =
        Nat.ofDigitChars 10 l v := by
    induction l generalizing v with
    | nil => rfl
    | cons d l ih =>
      rw [map_cons, foldl_cons, ih fun e later => digits e (mem_cons_of_mem d later),
        (digit_cases (digits d mem_cons_self)).1, ofDigitChars_cons, mul_comm]
  rw [numeral, decimal, read _ fun d inside => digits_of_toDigits inside]
  exact ofDigitChars_toDigits (by decide) (by decide)

theorem decimal_ne_nil (n : Nat) : decimal n ≠ [] := by
  rw [decimal, ne_eq, map_eq_nil_iff]
  exact toDigits_ne_nil

theorem takeWhile_decimal (n : Nat) {c : UInt8} (other : isDigit c = false) (rest : List UInt8) :
    (decimal n ++ c :: rest).takeWhile isDigit = decimal n ∧
      (decimal n ++ c :: rest).dropWhile isDigit = c :: rest := by
  have digits : ∀ d ∈ decimal n, isDigit d = true := fun d inside => isDigit_of_mem_decimal inside
  have stops : ¬ isDigit c = true := by rw [other]; exact Bool.false_ne_true
  rw [takeWhile_append_of_pos digits, dropWhile_append_of_pos digits,
    takeWhile_cons_of_neg stops, dropWhile_cons_of_neg stops, append_nil]
  exact ⟨rfl, rfl⟩

theorem head_decimal (n : Nat) (rest : List UInt8) : (decimal n ++ rest).head?.any isDigit = true := by
  cases digits : decimal n with
  | nil => exact absurd digits (decimal_ne_nil n)
  | cons c more => exact isDigit_of_mem_decimal (digits ▸ mem_cons_self)

/-- A rendered interval is one, and these are its bounds. -/
theorem interval_rendered (lo hi : Nat) (tail : List UInt8) :
    ∃ rest, renderBounds lo hi ++ tail = '{'.toUInt8 :: rest ∧ looksLikeInterval rest = true ∧
      lexInterval rest = (.interval (decimal lo) (if hi = kInf then .unbounded else .digits (decimal hi)),
        tail) := by
  have comma := takeWhile_decimal lo (c := ','.toUInt8) rfl
  by_cases none : hi = kInf
  · refine ⟨decimal lo ++ ','.toUInt8 :: '}'.toUInt8 :: tail, ?_, ?_, ?_⟩
    · rw [renderBounds, if_pos none]
      simp
    · rw [looksLikeInterval, head_decimal, (comma _).2]
      rfl
    · rw [lexInterval, (comma _).1, (comma _).2, if_pos none]
      rfl
  · have brace := takeWhile_decimal hi (c := '}'.toUInt8) rfl tail
    refine ⟨decimal lo ++ ','.toUInt8 :: (decimal hi ++ '}'.toUInt8 :: tail), ?_, ?_, ?_⟩
    · rw [renderBounds, if_neg none]
      simp
    · rw [looksLikeInterval, head_decimal, (comma _).2]
      dsimp only
      rw [if_pos rfl, brace.2]
      rfl
    · rw [lexInterval, (comma _).1, (comma _).2, if_neg none]
      dsimp only
      rw [if_pos rfl, brace.1, brace.2, if_neg (decimal_ne_nil hi)]
      rfl

/-- There is room for two nodes a byte and `k` more, and for a class a byte. -/
structure Slack (k : Nat) (p : Parser) : Prop where
  ok : p.ok = true
  nodes : p.nn + 2 * p.rest.length + k < p.maxn
  classes : p.cls.length + p.rest.length < p.maxc

/-- The reader has read a text as a tree that means what `t` means, and is at `tail`. -/
structure Parsed (cls : List Charreach) (t : Node) (k : Nat) (p : Parser) (tail : List UInt8)
    (t' : Node) (q : Parser) : Prop where
  slack : Slack (k + 1) q
  rest : q.rest = tail
  grows : p.cls <+: q.cls
  same : ∀ tbl, q.cls <+: tbl → ∀ input, Lang tbl input t' = Lang cls input t

section Reading
variable {cls : List Charreach} {t t' : Node} {k j depth : Nat} {p q : Parser} {s tail : List UInt8}

theorem Slack.weaken (slack : Slack k p) (le : j ≤ k) : Slack j p :=
  ⟨slack.ok, by have := slack.nodes; omega, slack.classes⟩

/-- Every byte that is passed gives room for two more nodes. -/
theorem Slack.pass {r : List UInt8} (slack : Slack k p) (less : r.length < p.rest.length) (g : Nat) :
    Slack (k + 2) { p with rest := r, ngroups := g } := by
  obtain ⟨ok, nodes, classes⟩ := slack
  exact ⟨ok, by dsimp only; omega, by dsimp only; omega⟩

theorem Slack.mk_eq (slack : Slack (k + 1) p) (t : Node) :
    p.mk t = (t, { p with nn := p.nn + 1 }) ∧ Slack k { p with nn := p.nn + 1 } := by
  have nodes := slack.nodes
  exact ⟨if_neg (by omega), slack.ok, by dsimp only; omega, slack.classes⟩

theorem parsed_mk {u : Node} {r : List UInt8} (slack : Slack (k + 2) q) (rest : q.rest = r)
    (grows : p.cls <+: q.cls)
    (same : ∀ tbl, q.cls <+: tbl → ∀ input, Lang tbl input u = Lang cls input t) :
    ∃ q', q.mk u = (u, q') ∧ Parsed cls t k p r u q' := by
  obtain ⟨made, slack'⟩ := slack.mk_eq u
  exact ⟨_, made, slack', rest, grows, same⟩

def AtomText (cls : List Charreach) (s : List UInt8) (t : Node) : Prop :=
  ∀ depth p tail k, p.rest = s ++ tail → p.rest.length ≤ depth → Slack k p →
    ∃ t' q, parseAtom (parseAlt depth) p = some (t', q) ∧ Parsed cls t k p tail t' q

def PieceText (cls : List Charreach) (s : List UInt8) (t : Node) : Prop :=
  ∀ depth p tail k, p.rest = s ++ tail → p.rest.length ≤ depth → Slack k p →
    ∃ t' q fuel, q.rest.length < fuel ∧
      parsePiece (parseAlt depth) p = pieceLoop fuel t' q ∧ Parsed cls t k p tail t' q

def Plain (tail : List UInt8) : Prop :=
  ∀ c ∈ tail.head?, c ∉ ['*'.toUInt8, '+'.toUInt8, '?'.toUInt8, '{'.toUInt8]

def Starts (s : List UInt8) : Prop :=
  ∃ c rest, s = c :: rest ∧ c ∉ ['*'.toUInt8, '+'.toUInt8, '?'.toUInt8, '{'.toUInt8] ∧
    c ≠ '|'.toUInt8 ∧ c ≠ ')'.toUInt8

def ConcatText (cls : List Charreach) (s : List UInt8) (t : Node) : Prop :=
  ∀ depth p tail k, p.rest = s ++ tail → p.rest.length ≤ depth → Slack k p → Plain tail →
    ∀ fuel, p.rest.length < fuel → ∃ t' q fuel', q.rest.length < fuel' ∧
      concatLoop (parseAlt depth) fuel none p = concatLoop (parseAlt depth) fuel' (some t') q ∧
        Parsed cls t k p tail t' q

def AltText (cls : List Charreach) (s : List UInt8) (t : Node) : Prop :=
  ∀ depth p tail k, p.rest = s ++ tail → p.rest.length ≤ depth → Slack k p → Ends tail →
    ∃ t' q fuel, q.rest.length < fuel ∧
      parseAlt (depth + 1) p = altLoop (parseAlt depth) fuel t' q ∧ Parsed cls t k p tail t' q

theorem AtomText.piece (atom : AtomText cls s t) : PieceText cls s t := by
  intro depth p tail k here shallow slack
  obtain ⟨t', q, ran, parsed⟩ := atom depth p tail k here shallow slack
  exact ⟨t', q, _, lt_succ_self _, by rw [parsePiece, ran]; rfl, parsed⟩

theorem Plain.stops (plain : Plain p.rest) (t : Node) : postfixOp t p = none := by
  rw [postfixOp]
  split
  next => rfl
  next c rest left =>
    have other := plain c (by rw [left]; rfl)
    simp only [mem_cons, not_mem_nil, or_false, not_or] at other
    rw [if_neg other.1, if_neg other.2.1, if_neg other.2.2.1, if_neg fun brace => other.2.2.2 brace.1]

theorem Starts.plain (starts : Starts s) : Plain (s ++ tail) := by
  obtain ⟨c, rest, rfl, other, -, -⟩ := starts
  intro d first
  cases first
  exact other

theorem Ends.plain (ends : Ends tail) : Plain tail := by
  intro c first
  rcases ends with none | bar | closing
  · rw [none] at first
    exact nomatch first
  · cases bar.symm.trans first
    decide
  · cases closing.symm.trans first
    decide

theorem PieceText.read (piece : PieceText cls s t) (here : p.rest = s ++ tail)
    (shallow : p.rest.length ≤ depth) (slack : Slack k p) (plain : Plain tail) :
    ∃ t' q, parsePiece (parseAlt depth) p = some (t', q) ∧ Parsed cls t k p tail t' q := by
  obtain ⟨t', q, fuel, enough, ran, parsed⟩ := piece depth p tail k here shallow slack
  refine ⟨t', q, ?_, parsed⟩
  rw [ran]
  cases fuel with
  | zero => exact absurd enough (not_lt_zero _)
  | succ fuel =>
    rw [pieceLoop, parsed.slack.ok]
    rw [if_neg (by decide), Plain.stops (by rw [parsed.rest]; exact plain)]

/-- A piece in a concatenation, be it the first or not. -/
theorem concatLoop_piece (piece : PieceText cls s t) (starts : Starts s) (here : p.rest = s ++ tail)
    (shallow : p.rest.length ≤ depth) (slack : Slack k p) (plain : Plain tail) {fuel : Nat}
    (enough : p.rest.length < fuel + 1) (o : Option Node) :
    ∃ t' q, Parsed cls t k p tail t' q ∧ q.rest.length < fuel ∧
      concatLoop (parseAlt depth) (fuel + 1) o p =
        match o with
        | none => concatLoop (parseAlt depth) fuel (some t') q
        | some l =>
          let made := q.mk (.concat l t')
          concatLoop (parseAlt depth) fuel (some made.1) made.2 := by
  obtain ⟨t', q, ran, parsed⟩ := piece.read here shallow slack plain
  obtain ⟨c, rest, isS, other, notBar, notClosing⟩ := starts
  have more : ¬ (p.peek = none ∨ p.peek = some '|'.toUInt8 ∨ p.peek = some ')'.toUInt8) := by
    rw [Parser.peek, here, isS]
    rintro (none | bar | closing)
    · cases none
    · exact notBar (Option.some.inj bar)
    · exact notClosing (Option.some.inj closing)
  refine ⟨t', q, parsed, ?_, ?_⟩
  · rw [here, isS, cons_append, length_cons, length_append] at enough
    rw [parsed.rest]
    omega
  · rw [concatLoop, slack.ok, if_neg (by decide), if_neg more, ran, bind_some]
    have goesOn : ¬ (!q.ok) = true := by
      rw [parsed.slack.ok]
      decide
    cases o with
    | none => exact if_neg goesOn
    | some l => exact if_neg goesOn

theorem PieceText.concat (piece : PieceText cls s t) (starts : Starts s) : ConcatText cls s t := by
  intro depth p tail k here shallow slack plain fuel enough
  cases fuel with
  | zero => exact absurd enough (not_lt_zero _)
  | succ fuel =>
    obtain ⟨t', q, parsed, less, ran⟩ := concatLoop_piece piece starts here shallow slack plain enough none
    exact ⟨t', q, fuel, less, ran, parsed⟩

theorem ConcatText.read (concat : ConcatText cls s t) (here : p.rest = s ++ tail)
    (shallow : p.rest.length ≤ depth) (slack : Slack k p) (ends : Ends tail) :
    ∃ t' q, parseConcat (parseAlt depth) p = some (t', q) ∧ Parsed cls t k p tail t' q := by
  obtain ⟨t', q, fuel, enough, ran, parsed⟩ :=
    concat depth p tail k here shallow slack ends.plain _ (lt_succ_self _)
  refine ⟨t', q, ?_, parsed⟩
  rw [parseConcat, ran]
  cases fuel with
  | zero => exact absurd enough (not_lt_zero _)
  | succ fuel =>
    have stop : q.peek = none ∨ q.peek = some '|'.toUInt8 ∨ q.peek = some ')'.toUInt8 := by
      rw [Parser.peek, parsed.rest]
      exact ends
    rw [concatLoop, parsed.slack.ok, if_neg (by decide), if_pos stop]
    rfl

theorem ConcatText.alt (concat : ConcatText cls s t) : AltText cls s t := by
  intro depth p tail k here shallow slack ends
  obtain ⟨t', q, ran, parsed⟩ := concat.read here shallow slack ends
  exact ⟨t', q, _, lt_succ_self _, by rw [parseAlt, ran]; rfl, parsed⟩

theorem AltText.read (alt : AltText cls s t) (here : p.rest = s ++ tail)
    (shallow : p.rest.length ≤ depth) (slack : Slack k p) (ends : Ends tail)
    (last : tail.head? ≠ some '|'.toUInt8) :
    ∃ t' q, parseAlt (depth + 1) p = some (t', q) ∧ Parsed cls t k p tail t' q := by
  obtain ⟨t', q, fuel, enough, ran, parsed⟩ := alt depth p tail k here shallow slack ends
  refine ⟨t', q, ?_, parsed⟩
  rw [ran]
  cases fuel with
  | zero => exact absurd enough (not_lt_zero _)
  | succ fuel =>
    rw [altLoop, Parser.peek, parsed.rest, if_neg fun bar => last bar.2]

theorem AltText.parens (alt : AltText cls s t) : AtomText cls (parens s) t := by
  intro depth p tail k here shallow slack
  have opened : p.rest = '('.toUInt8 :: (s ++ ')'.toUInt8 :: tail) := by
    rw [here, Regex.parens, cons_append, append_assoc]
    rfl
  cases depth with
  | zero => rw [opened] at shallow; exact absurd shallow (not_succ_le_zero _)
  | succ depth =>
    rw [opened, length_cons, succ_le_succ_iff] at shallow
    have less : (s ++ ')'.toUInt8 :: tail).length < p.rest.length := by
      rw [opened]
      exact lt_succ_self _
    have inner := slack.pass less (p.ngroups + 1)
    obtain ⟨t', q, ran, parsed⟩ := alt.read rfl shallow inner (.inr (.inr rfl))
      (head?_cons.trans_ne (by decide))
    have closing : q.peek = some ')'.toUInt8 := by
      rw [Parser.peek, parsed.rest]
      rfl
    have skipped : q.skip = { q with rest := tail } := by
      rw [Parser.skip, parsed.rest]
      rfl
    obtain ⟨q', made, last⟩ := parsed_mk (u := .group t' (p.ngroups + 1)) (p := p) (k := k) (r := tail)
      ((parsed.slack.pass (r := tail) (by rw [parsed.rest]; exact lt_succ_self _) q.ngroups).weaken
        (by omega)) rfl parsed.grows parsed.same
    refine ⟨_, q', ?_, last⟩
    rw [parseAtom, opened]
    dsimp only
    rw [if_pos rfl, ran, map_some, if_pos closing, skipped, made]

theorem parseAlt_closing {q' : Parser} (d : Nat) (ok : q.ok = true) (closes : q.peek = some ')'.toUInt8)
    (made : q.mk .empty = (.empty, q')) (same : q'.peek = q.peek) :
    parseAlt (d + 1) q = some (.empty, q') := by
  have bar : q'.peek ≠ some '|'.toUInt8 := by
    rw [same, closes]
    decide
  rw [parseAlt, parseConcat, concatLoop, ok, if_neg (by decide), if_pos (.inr (.inr closes)),
    concatDone, made, bind_some]
  dsimp only
  rw [altLoop, if_neg fun both => bar both.2]

/-- Between parentheses, nothing is read as the empty tree. -/
theorem empty_text : AtomText cls (Regex.parens []) .empty := by
  intro depth p tail k here shallow slack
  have opened : p.rest = '('.toUInt8 :: ')'.toUInt8 :: tail := here
  cases depth with
  | zero => rw [opened] at shallow; exact absurd shallow (not_succ_le_zero _)
  | succ depth =>
    have less : (')'.toUInt8 :: tail).length < p.rest.length := by
      rw [opened]
      exact lt_succ_self _
    obtain ⟨made, slack'⟩ := (slack.pass less (p.ngroups + 1)).mk_eq .empty
    obtain ⟨q', made', last⟩ := parsed_mk (u := .group .empty (p.ngroups + 1)) (t := .empty) (p := p)
      (k := k) (r := tail) ((slack'.pass (r := tail) (lt_succ_self _) (p.ngroups + 1)).weaken
        (by omega)) rfl (prefix_refl _) fun tbl _ input => rfl
    refine ⟨_, q', ?_, last⟩
    have ran := parseAlt_closing (q := { p with rest := ')'.toUInt8 :: tail, ngroups := p.ngroups + 1 })
      depth slack.ok rfl made rfl
    rw [parseAtom, opened]
    dsimp only
    rw [if_pos rfl, ran]
    exact congrArg some made'

theorem AtomText.group (atom : AtomText cls s t) (g : Nat) : AtomText cls s (.group t g) := by
  intro depth p tail k here shallow slack
  obtain ⟨t', q, ran, parsed⟩ := atom depth p tail k here shallow slack
  exact ⟨t', q, ran, parsed.slack, parsed.rest, parsed.grows, parsed.same⟩

/-- A sequence of two, of which the second is a piece. -/
theorem ConcatText.concat {a b : Node} {s₁ s₂ : List UInt8} (first : ConcatText cls s₁ a)
    (second : PieceText cls s₂ b) (starts : Starts s₂) :
    ConcatText cls (s₁ ++ s₂) (.concat a b) := by
  intro depth p tail k here shallow slack plain fuel enough
  rw [append_assoc] at here
  obtain ⟨a', q, fuel', enough', ran, parsed⟩ :=
    first depth p (s₂ ++ tail) k here shallow slack starts.plain fuel enough
  have le : q.rest.length ≤ p.rest.length := by
    rw [parsed.rest, here]
    exact (suffix_append s₁ _).length_le
  cases fuel' with
  | zero => exact absurd enough' (not_lt_zero _)
  | succ fuel' =>
    obtain ⟨b', q', parsed', less, ran'⟩ := concatLoop_piece second starts parsed.rest
      (le_trans le shallow) parsed.slack plain enough' (some a')
    obtain ⟨q'', made, last⟩ := parsed_mk (u := .concat a' b') (t := .concat a b) (p := p) (k := k)
      (parsed'.slack.weaken (by omega)) parsed'.rest (parsed.grows.trans parsed'.grows)
      fun tbl grows input => by
        funext s e
        rw [Lang, Lang, parsed.same tbl (parsed'.grows.trans grows), parsed'.same tbl grows]
    dsimp only at ran'
    rw [made] at ran'
    exact ⟨_, q'', fuel', by rw [last.rest, ← parsed'.rest]; exact less, ran.trans ran', last⟩

theorem AltText.alt {a b : Node} {s₁ s₂ : List UInt8} (first : AltText cls s₁ a)
    (second : ConcatText cls s₂ b) : AltText cls (s₁ ++ '|'.toUInt8 :: s₂) (.alt a b) := by
  intro depth p tail k here shallow slack ends
  rw [append_assoc, cons_append] at here
  obtain ⟨a', q, fuel, enough, ran, parsed⟩ :=
    first depth p ('|'.toUInt8 :: (s₂ ++ tail)) k here shallow slack (.inr (.inl rfl))
  have bar : q.ok = true ∧ q.peek = some '|'.toUInt8 := by
    rw [Parser.peek, parsed.rest]
    exact ⟨parsed.slack.ok, rfl⟩
  have skipped : q.skip = { q with rest := s₂ ++ tail } := by
    rw [Parser.skip, parsed.rest]
    rfl
  have less : (s₂ ++ tail).length < q.rest.length := by
    rw [parsed.rest]
    exact lt_succ_self _
  have le : q.rest.length ≤ p.rest.length := by
    rw [parsed.rest, here]
    exact (suffix_append s₁ _).length_le
  cases fuel with
  | zero => exact absurd enough (not_lt_zero _)
  | succ fuel =>
    have shallow' : (s₂ ++ tail).length ≤ depth := by omega
    obtain ⟨b', q', ran', parsed'⟩ :=
      second.read rfl shallow' (parsed.slack.pass less q.ngroups) ends
    obtain ⟨q'', made, last⟩ := parsed_mk (u := .alt a' b') (t := .alt a b) (p := p) (k := k) (r := tail)
      (parsed'.slack.weaken (by omega)) parsed'.rest (parsed.grows.trans parsed'.grows)
      fun tbl grows input => by
        funext s e
        rw [Lang, Lang, parsed.same tbl (parsed'.grows.trans grows), parsed'.same tbl grows]
    have shorter : tail.length ≤ (s₂ ++ tail).length := by
      rw [length_append]
      exact le_add_left _ _
    refine ⟨_, q'', fuel, by rw [last.rest]; omega, ?_, last⟩
    rw [ran, altLoop, if_pos bar, skipped, ran', bind_some]
    dsimp only
    rw [made]

/-- One more operator behind a piece: the state behind it has room for its node. -/
theorem PieceText.turn {a : Node} {s w : List UInt8} {f : Node → Node} (piece : PieceText cls s a)
    (more : w ≠ [])
    (turn : ∀ (u : Node) (q : Parser) (rest : List UInt8), q.rest = w ++ rest →
      postfixOp u q = some ({ q with rest := rest }.mk (f u)))
    (same : ∀ tbl input u, Lang tbl input u = Lang cls input a →
      Lang tbl input (f u) = Lang cls input t) : PieceText cls (s ++ w) t := by
  intro depth p tail k here shallow slack
  rw [append_assoc] at here
  obtain ⟨a', q, fuel, enough, ran, parsed⟩ := piece depth p (w ++ tail) k here shallow slack
  have less : tail.length < q.rest.length := by
    have positive := length_pos_iff.mpr more
    rw [parsed.rest, length_append]
    omega
  cases fuel with
  | zero => exact absurd enough (not_lt_zero _)
  | succ fuel =>
    obtain ⟨q', made, last⟩ := parsed_mk (u := f a') (t := t) (p := p) (k := k) (r := tail)
      ((parsed.slack.pass less q.ngroups).weaken (by omega)) rfl parsed.grows
      fun tbl grows input => same tbl input a' (parsed.same tbl grows input)
    refine ⟨_, q', fuel, by rw [last.rest]; omega, ?_, last⟩
    rw [ran, pieceLoop, parsed.slack.ok, if_neg (by decide), turn a' q tail parsed.rest]
    rw [made]

theorem postfixOp_operator {c : UInt8} {f : Node → Node} {u : Node} {rest : List UInt8}
    (left : q.rest = c :: rest)
    (is : (c = '*'.toUInt8 ∧ f = .star) ∨ (c = '+'.toUInt8 ∧ f = .plus) ∨
      (c = '?'.toUInt8 ∧ f = .quest)) :
    postfixOp u q = some ({ q with rest := rest }.mk (f u)) := by
  have skipped : q.skip = { q with rest := rest } := by
    rw [Parser.skip, left]
    rfl
  rw [postfixOp, left, skipped]
  rcases is with ⟨rfl, rfl⟩ | ⟨rfl, rfl⟩ | ⟨rfl, rfl⟩ <;> rfl

theorem PieceText.interval {a : Node} {lo hi : Nat} (piece : PieceText cls s a) (le : lo ≤ hi)
    (small : hi ≤ kInf) : PieceText cls (s ++ renderBounds lo hi) (.rep a lo hi) := by
  refine piece.turn (f := fun u => .rep u lo hi) (cons_ne_nil _ _) (fun u q rest left => ?_)
    fun tbl input u same => ?_
  · obtain ⟨inside, isText, looks, lexed⟩ := interval_rendered lo hi rest
    rw [isText] at left
    obtain ⟨bounds, reads, parses⟩ := parseInterval_eq (t := u) left looks
    have words : lo % 2 ^ 32 = lo ∧ hi % 2 ^ 32 = hi := by
      rw [kInf] at small
      omega
    have isBounds : bounds = (lo, hi) := by
      rw [lexed] at reads
      by_cases none : hi = kInf
      · rw [if_pos none, Token.read, readNumber_eq, numeral_decimal, words.1, ← none] at reads
        exact (Option.some.inj reads).symm
      · rw [if_neg none, Token.read, readNumber_eq, readNumber_eq, numeral_decimal, numeral_decimal,
          words.1, words.2] at reads
        exact (Option.some.inj reads).symm
    rw [isBounds, lexed, if_neg fun below => by omega] at parses
    rw [postfixOp, left]
    dsimp only
    rw [if_neg (by decide), if_neg (by decide), if_neg (by decide), if_pos ⟨rfl, looks⟩, parses]
  · funext s e
    rw [Lang, Lang, same]

/-! ## Atoms -/

theorem leaf_text {u : Node} (more : s ≠ []) (same : ∀ tbl input, Lang tbl input u = Lang cls input t)
    (reads : ∀ alt p tail, p.rest = s ++ tail →
      parseAtom alt p = some ({ p with rest := tail }.mk u)) : AtomText cls s t := by
  intro depth p tail k here shallow slack
  have less : tail.length < p.rest.length := by
    have positive := length_pos_iff.mpr more
    rw [here, length_append]
    omega
  obtain ⟨q', made, last⟩ := parsed_mk (u := u) (t := t) (p := p) (k := k) (r := tail)
    (slack.pass less p.ngroups) rfl (prefix_refl _) fun tbl _ input => same tbl input
  exact ⟨u, q', by rw [reads _ p tail here, made], last⟩

theorem classItem_escaped {c : UInt8} {rest : List UInt8} (other : rest.head? ≠ some '-'.toUInt8) :
    classItem '\\'.toUInt8 (c :: rest) = some (.byte c, rest) := by
  cases rest with
  | nil => rfl
  | cons d rest =>
    cases rest with
    | nil => rfl
    | cons h rest => exact if_neg fun dash => other (congrArg some dash.1)

theorem classLoop_escaped {l : List UInt8} {b : Bool} {r : Charreach} {fuel : Nat}
    (left : p.rest = l.flatMap escaped ++ ']'.toUInt8 :: tail) (ok : p.ok = true)
    (later : b = true → l ≠ []) (enough : p.rest.length < fuel) :
    classLoop fuel b r p = some (l.foldl Charreach.set r, { p with rest := tail }) := by
  induction l generalizing b r p fuel with
  | nil =>
    have notFirst : b = false := Bool.eq_false_iff.mpr fun first => later first rfl
    cases fuel with
    | zero => exact absurd enough (not_lt_zero _)
    | succ fuel =>
      rw [classLoop, ok, if_neg (by decide), left]
      exact if_pos ⟨rfl, notFirst⟩
  | cons c l ih =>
    have isRest : p.rest = '\\'.toUInt8 :: c :: (l.flatMap escaped ++ ']'.toUInt8 :: tail) := left
    have other : (l.flatMap escaped ++ ']'.toUInt8 :: tail).head? ≠ some '-'.toUInt8 := by
      cases l with
      | nil => exact fun dash => absurd (Option.some.inj dash) (by decide)
      | cons d l => exact fun dash => absurd (Option.some.inj dash) (by decide)
    cases fuel with
    | zero => exact absurd enough (not_lt_zero _)
    | succ fuel =>
      rw [isRest, length_cons, length_cons] at enough
      rw [classLoop, ok, if_neg (by decide), isRest]
      dsimp only
      rw [if_neg fun closes => absurd closes.1 (by decide), classItem_escaped other]
      exact ih rfl rfl (fun h => by cases h) (by dsimp only; omega)

/-- The class that was read is the last of the table. -/
theorem class_made {i : Nat} {r : Charreach} (slack : Slack k p) (less : tail.length < p.rest.length)
    (inside : i < cls.length) (same : ∀ d, r.test d = (cls[i]?.getD .empty).test d) :
    ∃ t' q, (let (k, q) := ({ p with rest := tail } : Parser).addClass r; q.mk (.cls k)) = (t', q) ∧
      Parsed cls (.cls i) k p tail t' q := by
  obtain ⟨ok, nodes, classes⟩ := slack
  let q : Parser := { p with rest := tail, cls := p.cls ++ [r] }
  have added : ({ p with rest := tail } : Parser).addClass r = (p.cls.length, q) :=
    if_neg (by dsimp only; omega)
  have room : Slack (k + 2) q := by
    refine ⟨ok, by dsimp only [q]; omega, ?_⟩
    dsimp only [q]
    rw [length_append, length_singleton]
    omega
  obtain ⟨q', made, last⟩ : ∃ q', q.mk (.cls p.cls.length) = (.cls p.cls.length, q') ∧
      Parsed cls (.cls i) k p tail (.cls p.cls.length) q' :=
    parsed_mk room rfl (prefix_append _ _) fun tbl grows input => by
      have here : tbl[p.cls.length]? = some r := by
        obtain ⟨more, rfl⟩ := grows
        rw [append_assoc, getElem?_append_right (Nat.le_refl _), Nat.sub_self]
        rfl
      have there := getElem?_eq_getElem inside
      simp only [Lang, here, there, mem_def, Option.some.injEq, exists_eq_left', same,
        getD_some]
  exact ⟨_, q', by rw [added]; exact made, last⟩

theorem flatMap_escaped_head {l : List UInt8} (more : l ≠ []) (rest : List UInt8) :
    (l.flatMap escaped ++ rest).head? = some '\\'.toUInt8 := by
  cases l with
  | nil => exact absurd rfl more
  | cons c l => rfl

theorem parseClass_plain (plain : p.peek ≠ some '^'.toUInt8) :
    parseClass p = (classLoop (p.rest.length + 1) true .empty p).map fun (r, p) =>
      let (k, p) := p.addClass r
      p.mk (.cls k) := by
  rw [parseClass]
  simp only [if_neg plain]

theorem parseClass_negated (negated : p.peek = some '^'.toUInt8) :
    parseClass p = (classLoop (p.skip.rest.length + 1) true .empty p.skip).map fun (r, p) =>
      let (k, p) := p.addClass r.flip
      p.mk (.cls k) := by
  rw [parseClass]
  simp only [if_pos negated]

theorem class_text {i : Nat} (inside : i < cls.length) :
    AtomText cls (cls[i]?.getD .empty).render (.cls i) := by
  intro depth p tail k here shallow slack
  have same : ∀ r : Charreach, tail.length < p.rest.length →
      (∀ d, r.test d = (cls[i]?.getD .empty).test d) → ∃ t' q,
        (let (k, q) := ({ p with rest := tail } : Parser).addClass r; q.mk (.cls k)) = (t', q) ∧
          Parsed cls (.cls i) k p tail t' q :=
    fun r less same => class_made slack less inside same
  generalize cls[i]?.getD .empty = set at here same
  have atom (body : List UInt8) (left : p.rest = '['.toUInt8 :: body) :
      parseAtom (parseAlt depth) p = parseClass { p with rest := body } := by
    rw [parseAtom, left]
    rfl
  by_cases none : set.members = []
  · have bytes : (List.range 256).map UInt8.ofNat ≠ [] := ne_nil_of_mem (mem_bytes 0)
    generalize all : (List.range 256).map UInt8.ofNat = l at bytes
    rw [Charreach.render, if_pos none, all] at here
    have body : p.rest = '['.toUInt8 :: '^'.toUInt8 :: (l.flatMap escaped ++ ']'.toUInt8 :: tail) := by
      rw [here]
      simp
    have looped := classLoop_escaped (b := true) (r := .empty) (l := l)
      (p := { p with rest := l.flatMap escaped ++ ']'.toUInt8 :: tail }) rfl slack.ok (fun _ => bytes)
      (lt_succ_self _)
    obtain ⟨t', q, made, parsed⟩ := same (l.foldl Charreach.set .empty).flip
      (by rw [body]; simp; omega) fun d => by
        have out : set.test d = false := by
          rw [Bool.eq_false_iff]
          intro inside
          exact absurd (Charreach.mem_members.mpr inside) (by rw [none]; exact not_mem_nil)
        rw [Charreach.test_flip, Charreach.test_foldl_set, ← all, decide_eq_true (mem_bytes d), out]
        rfl
    refine ⟨t', q, ?_, parsed⟩
    rw [atom _ body, parseClass_negated rfl]
    dsimp only [Parser.skip, tail_cons]
    rw [looped]
    exact congrArg some made
  · rw [Charreach.render, if_neg none] at here
    have body : p.rest = '['.toUInt8 :: (set.members.flatMap escaped ++ ']'.toUInt8 :: tail) := by
      rw [here]
      simp
    have first := flatMap_escaped_head none (']'.toUInt8 :: tail)
    have looped := classLoop_escaped (b := true) (r := .empty) (l := set.members)
      (p := { p with rest := set.members.flatMap escaped ++ ']'.toUInt8 :: tail }) rfl slack.ok
      (fun _ => none) (lt_succ_self _)
    obtain ⟨t', q, made, parsed⟩ := same (set.members.foldl Charreach.set .empty)
      (by rw [body]; simp; omega) fun d => by
        rw [Charreach.test_foldl_set, Charreach.test_empty, Bool.or_false, Bool.eq_iff_iff,
          decide_eq_true_iff]
        exact Charreach.mem_members
    refine ⟨t', q, ?_, parsed⟩
    rw [atom _ body, parseClass_plain (by rw [Parser.peek, first]; decide), looped]
    exact congrArg some made

end Reading

def TextAt (cls : List Charreach) (s : List UInt8) (t : Node) : Nat → Prop
  | 0 => AltText cls s t
  | 1 => ConcatText cls s t
  | 2 => PieceText cls s t
  | _ => AtomText cls s t

section Levels
variable {cls : List Charreach} {s : List UInt8} {t : Node}

theorem TextAt.lower {o place : Nat} (text : TextAt cls s t o) (starts : Starts s) (le : place ≤ o) :
    TextAt cls s t place := by
  have piece (text : TextAt cls s t 2) (le : place ≤ 2) : TextAt cls s t place := by
    match place, le with
    | 2, _ => exact text
    | 1, _ => exact PieceText.concat text starts
    | 0, _ => exact (PieceText.concat text starts).alt
  match o, place, le with
  | 0, 0, _ => exact text
  | 1, 1, _ => exact text
  | 1, 0, _ => exact ConcatText.alt text
  | 2, place, le => exact piece text le
  | _ + 3, 0, _ => exact piece (AtomText.piece text) (by decide)
  | _ + 3, 1, _ => exact piece (AtomText.piece text) (by decide)
  | _ + 3, 2, _ => exact piece (AtomText.piece text) (by decide)
  | _ + 3, _ + 3, _ => exact text

theorem parens_starts (s : List UInt8) : Starts (parens s) := ⟨'('.toUInt8, _, rfl, by decide⟩

theorem Starts.append (starts : Starts s) (rest : List UInt8) : Starts (s ++ rest) := by
  obtain ⟨c, more, rfl, facts⟩ := starts
  exact ⟨c, more ++ rest, rfl, facts⟩

theorem Starts.wrap (starts : Starts s) (always : Bool) (own place : Nat) :
    Starts (wrap always own place s) := by
  rw [Regex.wrap]
  split
  · exact parens_starts s
  · exact starts

theorem TextAt.wrap {o place : Nat} (text : TextAt cls s t o) (starts : Starts s) (always : Bool)
    (le : place ≤ 3) : TextAt cls (wrap always o place s) t place := by
  rw [Regex.wrap]
  split
  next =>
    have atom : TextAt cls (parens s) t 3 := AltText.parens (text.lower starts (zero_le o))
    exact atom.lower (parens_starts s) le
  next fits => exact text.lower starts (by omega)

theorem Node.render_starts (always : Bool) (t : Node) (place : Nat) :
    Starts (t.render cls always place) := by
  induction t generalizing place with
  | empty => exact parens_starts []
  | char c => exact ⟨'\\'.toUInt8, _, rfl, by decide⟩
  | cls k =>
    rw [render, Charreach.render]
    split <;> exact ⟨'['.toUInt8, _, rfl, by decide⟩
  | any => exact ⟨'.'.toUInt8, _, rfl, by decide⟩
  | bol => exact ⟨'^'.toUInt8, _, rfl, by decide⟩
  | eol => exact ⟨'$'.toUInt8, _, rfl, by decide⟩
  | concat a b first second => exact ((first 1).append _).wrap always 1 place
  | alt a b first second => exact ((first 0).append _).wrap always 0 place
  | star a ih => exact ((ih 2).append _).wrap always 2 place
  | plus a ih => exact ((ih 2).append _).wrap always 2 place
  | quest a ih => exact ((ih 2).append _).wrap always 2 place
  | rep a lo hi ih => exact ((ih 2).append _).wrap always 2 place
  | group a g ih => exact parens_starts _

theorem leaf_textAt {place : Nat} (le : place ≤ 3) (starts : Starts s)
    (same : ∀ tbl input, Lang tbl input t = Lang cls input t)
    (reads : ∀ (alt : Read) (p : Parser) (tail : List UInt8), p.rest = s ++ tail →
      parseAtom alt p = some ({ p with rest := tail }.mk t)) : TextAt cls s t place := by
  have more : s ≠ [] := by
    obtain ⟨c, rest, rfl, -⟩ := starts
    exact cons_ne_nil c rest
  exact TextAt.lower (o := 3) (leaf_text more same reads) starts le

theorem operator_textAt {a : Node} {place : Nat} (always : Bool) (le : place ≤ 3) (f : Node → Node) (c : UInt8)
    (text : PieceText cls s a) (starts : Starts s)
    (is : (c = '*'.toUInt8 ∧ f = .star) ∨ (c = '+'.toUInt8 ∧ f = .plus) ∨
      (c = '?'.toUInt8 ∧ f = .quest)) :
    TextAt cls (wrap always 2 place (s ++ [c])) (f a) place := by
  refine TextAt.wrap (o := 2) (PieceText.turn (f := f) (w := [c]) text (cons_ne_nil _ _)
    (fun u q rest left => postfixOp_operator (show q.rest = c :: rest from left) is)
    fun tbl input u same => ?_) (starts.append _) always le
  rcases is with ⟨-, rfl⟩ | ⟨-, rfl⟩ | ⟨-, rfl⟩ <;> funext s e <;> rw [Lang, Lang, same]

theorem Node.render_textAt (always : Bool) (t : Node) (printable : t.Printable cls) (place : Nat)
    (le : place ≤ 3) : TextAt cls (t.render cls always place) t place := by
  induction t generalizing place with
  | empty => exact TextAt.lower (o := 3) empty_text (parens_starts []) le
  | char c =>
    exact leaf_textAt le ⟨'\\'.toUInt8, _, rfl, by decide⟩ (fun _ _ => rfl) fun alt p tail left => by rw [parseAtom, left]; rfl
  | cls k => exact TextAt.lower (o := 3) (class_text printable) (render_starts always (.cls k) 3) le
  | any =>
    exact leaf_textAt le ⟨'.'.toUInt8, _, rfl, by decide⟩ (fun _ _ => rfl)
      fun alt p tail left => by rw [parseAtom, left]; rfl
  | bol =>
    exact leaf_textAt le ⟨'^'.toUInt8, _, rfl, by decide⟩ (fun _ _ => rfl)
      fun alt p tail left => by rw [parseAtom, left]; rfl
  | eol =>
    exact leaf_textAt le ⟨'$'.toUInt8, _, rfl, by decide⟩ (fun _ _ => rfl)
      fun alt p tail left => by rw [parseAtom, left]; rfl
  | concat a b first second =>
    have text : TextAt cls (a.render cls always 1 ++ b.render cls always 2) (.concat a b) 1 :=
      ConcatText.concat (first printable.1 1 (by decide)) (second printable.2 2 (by decide))
        (b.render_starts always 2)
    exact text.wrap ((a.render_starts always 1).append _) always le
  | alt a b first second =>
    have text : TextAt cls (a.render cls always 0 ++ '|'.toUInt8 :: b.render cls always 1) (.alt a b) 0 :=
      AltText.alt (first printable.1 0 (by decide)) (second printable.2 1 (by decide))
    exact text.wrap ((a.render_starts always 0).append _) always le
  | star a ih =>
    exact operator_textAt always le .star _ (ih printable 2 (by decide)) (a.render_starts always 2)
      (.inl ⟨rfl, rfl⟩)
  | plus a ih =>
    exact operator_textAt always le .plus _ (ih printable 2 (by decide)) (a.render_starts always 2)
      (.inr (.inl ⟨rfl, rfl⟩))
  | quest a ih =>
    exact operator_textAt always le .quest _ (ih printable 2 (by decide)) (a.render_starts always 2)
      (.inr (.inr ⟨rfl, rfl⟩))
  | rep a lo hi ih =>
    have text : TextAt cls (a.render cls always 2 ++ renderBounds lo hi) (.rep a lo hi) 2 :=
      PieceText.interval (ih printable.1 2 (by decide)) printable.2.1 printable.2.2
    exact text.wrap ((a.render_starts always 2).append _) always le
  | group a g ih =>
    have atom : TextAt cls (Regex.parens (a.render cls always 0)) (.group a g) 3 :=
      AtomText.group (AltText.parens (ih printable 0 (by decide))) g
    exact atom.lower (parens_starts _) le

end Levels

/-- What is rendered, with parentheses everywhere or only where the levels ask for them, is
accepted as a tree of the same language, as long as 32 bits are enough to number its nodes and
classes; and what is accepted has been read to its end, with its classes closed and its groups
balanced. -/
theorem parse_reads_grammar :
    (∀ (cls : List Charreach) (t : Node) (always : Bool) (maxn maxc : Nat), t.Printable cls →
      4 * (t.render cls always 0).length + 8 ≤ maxn → (t.render cls always 0).length + 4 ≤ maxc →
        4 * (t.render cls always 0).length + 8 ≤ 2 ^ 32 →
        ∃ t' p, parse (t.render cls always 0) maxn maxc = some (t', p) ∧ p.ok = true ∧
          ∀ input s e, Lang p.cls input t' s e ↔ Lang cls input t s e) ∧
      ∀ (pat : List UInt8) (maxn maxc : Nat) (t : Node) (p : Parser),
        parse pat maxn maxc = some (t, p) → p.ok = true →
          p.rest = [] ∧ ∃ toks, lex pat = some toks ∧ balanced 0 toks = true := by
  constructor
  · intro cls t always maxn maxc printable nodes classes _
    have text : AltText cls (t.render cls always 0) t := t.render_textAt always printable 0 (by decide)
    have slack : Slack 0 (.fresh (t.render cls always 0) maxn maxc) :=
      ⟨rfl, by dsimp only [Parser.fresh]; omega, by dsimp only [Parser.fresh, length_nil]; omega⟩
    obtain ⟨t', q, ran, parsed⟩ := text.read (append_nil _).symm (le_refl _) slack
      (.inl rfl) nofun
    refine ⟨t', q, ?_, parsed.slack.ok, fun input s e => ?_⟩
    · change parseAlt ((t.render cls always 0).length + 1) _ = _ at ran
      rw [parse, ran, map_some]
      dsimp only
      rw [if_pos parsed.rest]
    · rw [parsed.same q.cls (prefix_refl _) input]
  · intro pat maxn maxc t p accepted ok
    obtain ⟨whole, toks, lexed, covers⟩ := parse_covers accepted ok
    exact ⟨whole, toks, lexed, covers.balanced⟩

/-- `a|b*` without parentheses, and the empty pattern. -/
theorem parse_reads_grammar_small :
    (∃ t' p, parse ((Node.alt (.char 97) (.star (.char 98))).render [] false 0) 40 20 = some (t', p) ∧
      p.ok = true ∧ ∀ input s e, Lang p.cls input t' s e ↔
        Lang [] input (.alt (.char 97) (.star (.char 98))) s e) ∧
      (Parser.of [] 8 1 [] 4 0 true).rest = [] ∧ ∃ toks, lex [] = some toks ∧ balanced 0 toks = true :=
  ⟨parse_reads_grammar.1 [] (.alt (.char 97) (.star (.char 98))) false 40 20 ⟨trivial, trivial⟩
      (by decide) (by decide) (by decide),
    parse_reads_grammar.2 [] 8 4 .empty _ rfl rfl⟩

end Micron.Regex
