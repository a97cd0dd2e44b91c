import Mathlib.Data.List.DropRight
import Mathlib.Data.List.Infix

/-!
# Stored paths

What `io::path` makes of the texts it is given.  Doubled slashes are replaced from left to
right, and the search goes on behind what was put in: of `k` slashes in a row half are left,
rounded up.  So a text is in normal form afterwards just when no three slashes stand before
another character.
-/

set_option autoImplicit false

namespace Micron.Paths

open List

/-- The loop over the places that a text is looked for at. -/
def firstAt (fnd : List Char) : List Char → Nat → Option Nat
  | [], _ => none
  | c :: s, i => if fnd.isPrefixOf (c :: s) then some i else firstAt fnd s (i + 1)

def findFrom (s : List Char) (start : Nat) (fnd : List Char) : Option Nat :=
  if s.length ≤ start ∨ s.length < fnd.length ∨ s = [] ∨ fnd = [] then none
  else firstAt fnd (s.drop start) start

def find (s fnd : List Char) : Option Nat :=
  if s.length < fnd.length ∨ s = [] ∨ fnd = [] then none else firstAt fnd s 0

/-- The loop of `replace_all`, for a text that is no longer than what it stands for. -/
def replaceLoop (lhs rhs : List Char) : Nat → List Char → Option Nat → List Char
  | 0, s, _ => s
  | _ + 1, s, none => s
  | turns + 1, s, some pos =>
    let s := s.take pos ++ rhs ++ s.drop (pos + lhs.length)
    replaceLoop lhs rhs turns s (findFrom s (pos + rhs.length) lhs)

def replaceAll (s lhs rhs : List Char) : List Char :=
  if lhs = rhs then s else replaceLoop lhs rhs s.length s (find s lhs)

/-- The characters that a `path_t` holds, besides the last one. -/
def room : Nat := 4095

def strip : Nat → List Char → List Char
  | 0, s => s
  | turns + 1, s => if 1 < s.length ∧ s.getLast? = some '/' then strip turns s.dropLast else s

def prune (s : List Char) : List Char :=
  let s := if find s ['/', '/'] ≠ none then replaceAll s ['/', '/'] ['/'] else s
  strip s.length s

def parentOf (p : List Char) : List Char :=
  let s := strip p.length p
  -- up to the last slash
  let upper := s.rdropWhile (· ≠ '/')
  if upper.length = 0 then ['.']
  else if upper.length = 1 then ['/']
  else upper.dropLast

/-- No result where the text does not fit. -/
def join (base rel : List Char) : Option (List Char) :=
  if rel = [] then some base
  else if rel.head? = some '/' then some rel
  else if base = [] then some rel
  else
    let out := if base.getLast? ≠ some '/' then base ++ ['/'] else base
    if out.length + rel.length ≤ room then some (prune (out ++ rel)) else none

/-- A null pointer stands for the working directory. -/
def given (str : Option (List Char)) : List Char := str.getD ['.']

/-- The calls that change a path; the text of `set` may be null, and `down` asks whether
its child is a directory. -/
inductive Op where
  | set (str : Option (List Char))
  | up
  | down (name : List Char) (isDir : Bool)
  | toRoot

/-- A call that throws leaves the path as it was. -/
def step (p : List Char) : Op → List Char
  | .set str => if (given str).length ≤ room then prune (given str) else p
  | .up => parentOf p
  | .down name isDir =>
    if room < name.length then p
    else
      match join p name with
      | none => p
      | some child => if isDir then child else p
  | .toRoot => ['/']

/-- The stored texts of a run, the first one included. -/
def states (p : List Char) : List Op → List (List Char)
  | [] => [p]
  | op :: ops => p :: states (step p op) ops

def flush (cur : List Char) : List (List Char) := if cur = [] then [] else [cur]

/-- The loop of `components`, with the component it is in. -/
def componentsFrom : List Char → List Char → List (List Char)
  | [], cur => flush cur
  | c :: s, cur => if c = '/' then flush cur ++ componentsFrom s [] else componentsFrom s (cur ++ [c])

def components (s : List Char) : List (List Char) := componentsFrom s []

def Absolute (s : List Char) : Prop := s.head? = some '/'

/-- No two slashes in a row, and none at the end but of the root. -/
def Normal (s : List Char) : Prop := ¬['/', '/'] <:+: s ∧ (s.getLast? = some '/' → s = ['/'])

instance (s : List Char) : Decidable (Normal s) := inferInstanceAs (Decidable (_ ∧ _))

/-- Three slashes stand at the end only. -/
def Tame (s : List Char) : Prop := ∀ c, c ≠ '/' → ¬['/', '/', '/', c] <:+: s

/-- What may be joined to a path: a text that is taken as it is has to be normal itself. -/
def TameRel (base rel : List Char) : Prop :=
  rel = [] ∨ if rel.head? = some '/' ∨ base = [] then Normal rel else Tame rel

def Fits (base rel : List Char) : Prop :=
  rel.length ≤ room ∧ (rel = [] ∨ rel.head? = some '/' ∨ base = [] ∨
    (if base.getLast? ≠ some '/' then base.length + 1 else base.length) + rel.length ≤ room)

def Op.Tame (p : List Char) : Op → Prop
  | .set str => (given str).length ≤ room → Paths.Tame (given str)
  | .up | .toRoot => True
  | .down name isDir => isDir = true → Fits p name → TameRel p name

def TameRun (p : List Char) : List Op → Prop
  | [] => True
  | op :: ops => op.Tame p ∧ TameRun (step p op) ops

/-- Two slashes become one, and the next two are looked for behind it. -/
def halve : List Char → List Char
  | [] => []
  | [c] => [c]
  | c :: d :: s => if c = '/' ∧ d = '/' then '/' :: halve s else c :: halve (d :: s)

theorem findFrom_skip (done : List Char) {c d : Char} {s : List Char} (other : ¬(c = '/' ∧ d = '/')) :
    findFrom (done ++ c :: d :: s) done.length ['/', '/'] =
      findFrom ((done ++ [c]) ++ d :: s) (done ++ [c]).length ['/', '/'] := by
  have whole : (done ++ [c]) ++ d :: s = done ++ c :: d :: s := by simp
  have rest : (done ++ c :: d :: s).drop (done.length + 1) = d :: s := by
    rw [← drop_drop, drop_left]
    rfl
  have longer : (done ++ [c]).length = done.length + 1 := by simp
  rw [whole, longer, findFrom, findFrom, rest, drop_left, if_neg (by simp; omega),
    if_neg (by simp; omega), firstAt, if_neg]
  intro starts
  simp only [List.isPrefixOf, Bool.and_eq_true, beq_iff_eq] at starts
  exact other ⟨starts.1.symm, starts.2.1.symm⟩

theorem replaceLoop_none (lhs rhs : List Char) (turns : Nat) (s : List Char) :
    replaceLoop lhs rhs turns s none = s := by
  cases turns <;> rfl

/-- The loop leaves what it has passed, and halves the slashes of the rest. -/
theorem replaceLoop_eq (turns : Nat) (done rest : List Char) (enough : rest.length ≤ turns) :
    replaceLoop ['/', '/'] ['/'] turns (done ++ rest) (findFrom (done ++ rest) done.length ['/', '/']) =
      done ++ halve rest := by
  induction rest using halve.induct generalizing turns done with
  | case1 =>
    rw [findFrom, if_pos (by simp), replaceLoop_none]
    rfl
  | case2 c =>
    have none : findFrom (done ++ [c]) done.length ['/', '/'] = none := by
      rw [findFrom]
      split
      next => rfl
      next => simp [firstAt, List.isPrefixOf]
    rw [none, replaceLoop_none]
    rfl
  | case3 c d s both ih =>
    obtain ⟨rfl, rfl⟩ := both
    have here : findFrom (done ++ '/' :: '/' :: s) done.length ['/', '/'] = some done.length := by
      rw [findFrom, if_neg (by simp; omega), drop_left, firstAt,
        if_pos (by simp [List.isPrefixOf])]
    obtain ⟨turns, rfl⟩ : ∃ more, turns = more + 1 :=
      ⟨turns - 1, by simp only [length_cons] at enough; omega⟩
    have rest : (done ++ '/' :: '/' :: s).drop (done.length + 2) = s := by
      rw [← drop_drop, drop_left]
      rfl
    rw [here, replaceLoop]
    simp only [take_left, length_cons, length_nil, Nat.zero_add, Nat.reduceAdd, rest]
    have shorter := ih turns (done ++ ['/']) (by simp only [length_cons] at enough; omega)
    rw [length_append, length_singleton] at shorter
    rw [shorter, halve, if_pos ⟨rfl, rfl⟩]
    simp
  | case4 c d s other ih =>
    rw [findFrom_skip done other]
    have next_ := ih turns (done ++ [c]) (by simp only [length_cons] at enough ⊢; omega)
    have whole : (done ++ [c]) ++ d :: s = done ++ c :: d :: s := by simp
    rw [whole] at next_ ⊢
    rw [next_, halve, if_neg other]
    simp

theorem find_eq (s : List Char) : find s ['/', '/'] = findFrom s 0 ['/', '/'] := by
  rw [find, findFrom, drop_zero]
  cases s with
  | nil => rfl
  | cons c s => simp

theorem prune_eq (s : List Char) : prune s = strip (halve s).length (halve s) := by
  have whole := replaceLoop_eq s.length [] s (le_refl _)
  rw [nil_append, nil_append, length_nil, ← find_eq] at whole
  have same : (if find s ['/', '/'] ≠ none then replaceAll s ['/', '/'] ['/'] else s) = halve s := by
    split
    next => rw [replaceAll, if_neg (by decide), whole]
    next nothing =>
      rw [not_ne_iff.mp nothing, replaceLoop_none] at whole
      exact whole
  rw [prune, same]

theorem strip_replicate (n k : Nat) (body : List Char) (other : body.getLast? ≠ some '/')
    (enough : k ≤ n) : strip n (body ++ List.replicate k '/') =
      if body = [] then List.replicate (min k 1) '/' else body := by
  induction k generalizing n with
  | zero =>
    rw [replicate_zero, append_nil]
    have stays : strip n body = body := by
      cases n with
      | zero => rfl
      | succ n => rw [strip, if_neg fun both => other both.2]
    rw [stays]
    split
    next none => rw [none]; rfl
    next => rfl
  | succ k ih =>
    obtain ⟨n, rfl⟩ : ∃ more, n = more + 1 := ⟨n - 1, by omega⟩
    have last : (body ++ List.replicate (k + 1) '/').getLast? = some '/' := by
      rw [replicate_succ', ← append_assoc, getLast?_concat]
    have front : (body ++ List.replicate (k + 1) '/').dropLast = body ++ List.replicate k '/' := by
      rw [replicate_succ', ← append_assoc, dropLast_concat]
    rw [strip, last, front]
    by_cases long : 1 < (body ++ List.replicate (k + 1) '/').length
    · rw [if_pos ⟨long, rfl⟩, ih n (by omega)]
      split
      next none =>
        rw [none, nil_append, length_replicate] at long
        congr 1
        omega
      next => rfl
    · rw [if_neg fun both => long both.1]
      rw [length_append, length_replicate] at long
      have none : body = [] := eq_nil_of_length_eq_zero (by omega)
      have zero : k = 0 := by omega
      subst none zero
      rfl

/-- A text is a part that does not end with a slash, and the slashes behind it. -/
theorem exists_body (s : List Char) :
    ∃ body k, s = body ++ List.replicate k '/' ∧ body.getLast? ≠ some '/' := by
  induction s using List.reverseRecOn with
  | nil => exact ⟨[], 0, rfl, nofun⟩
  | append_singleton s c ih =>
    by_cases slash : c = '/'
    · obtain ⟨body, k, rfl, other⟩ := ih
      refine ⟨body, k + 1, ?_, other⟩
      rw [slash, replicate_succ', append_assoc]
    · refine ⟨s ++ [c], 0, by simp, ?_⟩
      rw [getLast?_concat]
      intro same
      exact slash (Option.some.inj same)

@[simp] theorem halve_eq_nil (s : List Char) : halve s = [] ↔ s = [] := by
  cases s using halve.induct with
  | case1 => simp [halve]
  | case2 c => simp [halve]
  | case3 c d s both => simp [halve, both]
  | case4 c d s other => simp [halve, other]

@[simp] theorem head?_halve (s : List Char) : (halve s).head? = s.head? := by
  cases s using halve.induct with
  | case1 => rfl
  | case2 c => rfl
  | case3 c d s both => simp [halve, both]
  | case4 c d s other => simp [halve, other]

theorem getLast?_cons_of_ne_nil {c : Char} {s : List Char} (more : s ≠ []) :
    (c :: s).getLast? = s.getLast? := by
  cases s with
  | nil => exact absurd rfl more
  | cons d s => rw [getLast?_cons_cons]

theorem getLast?_halve (s : List Char) : (halve s).getLast? = s.getLast? := by
  induction s using halve.induct with
  | case1 => rfl
  | case2 c => rfl
  | case3 c d s both ih =>
    obtain ⟨rfl, rfl⟩ := both
    rw [halve, if_pos ⟨rfl, rfl⟩, getLast?_cons_cons]
    by_cases none : s = []
    · rw [none]
      rfl
    · rw [getLast?_cons_of_ne_nil none, getLast?_cons_of_ne_nil (by simpa using none), ih]
  | case4 c d s other ih =>
    rw [halve, if_neg other, getLast?_cons_cons, getLast?_cons_of_ne_nil (by simp), ih]

theorem halve_replicate (k : Nat) :
    ∃ j, halve (List.replicate k '/') = List.replicate j '/' ∧ (j = 0 ↔ k = 0) := by
  induction k using Nat.twoStepInduction with
  | zero => exact ⟨0, rfl, Iff.rfl⟩
  | one => exact ⟨1, rfl, Iff.rfl⟩
  | more k ih _ =>
    obtain ⟨j, halved, -⟩ := ih
    refine ⟨j + 1, ?_, by simp⟩
    rw [replicate_succ, replicate_succ, halve, if_pos ⟨rfl, rfl⟩, halved, replicate_succ]

theorem halve_cons {c : Char} (s : List Char) (other : c ≠ '/') : halve (c :: s) = c :: halve s := by
  cases s with
  | nil => rfl
  | cons d s => rw [halve, if_neg fun both => other both.1]

theorem halve_append (body : List Char) (k : Nat) (other : body.getLast? ≠ some '/') :
    ∃ j, halve (body ++ List.replicate k '/') = halve body ++ List.replicate j '/' ∧ (j = 0 ↔ k = 0) := by
  induction body using halve.induct with
  | case1 => exact halve_replicate k
  | case2 c =>
    obtain ⟨j, halved, zero⟩ := halve_replicate k
    have char : c ≠ '/' := fun same => other (by rw [same]; rfl)
    exact ⟨j, by rw [singleton_append, halve_cons _ char, halved]; rfl, zero⟩
  | case3 c d s both ih =>
    have more : s ≠ [] := by
      rintro rfl
      exact other (by rw [both.2]; rfl)
    rw [getLast?_cons_cons, getLast?_cons_of_ne_nil more] at other
    obtain ⟨j, halved, zero⟩ := ih other
    exact ⟨j, by rw [cons_append, cons_append, halve, if_pos both, halved, halve, if_pos both]; rfl,
      zero⟩
  | case4 c d s same ih =>
    obtain ⟨j, halved, zero⟩ := ih other
    rw [cons_append] at halved
    exact ⟨j, by rw [cons_append, cons_append, halve, if_neg same, halved, halve, if_neg same]; rfl,
      zero⟩

/-- What is stored for a text. -/
theorem prune_body (body : List Char) (k : Nat) (other : body.getLast? ≠ some '/') :
    prune (body ++ List.replicate k '/') =
      if body = [] then List.replicate (min k 1) '/' else halve body := by
  obtain ⟨j, halved, zero⟩ := halve_append body k other
  rw [prune_eq, halved, strip_replicate _ j (halve body) (by rw [getLast?_halve]; exact other)
    (by simp)]
  simp only [halve_eq_nil]
  have same : min j 1 = min k 1 := by omega
  rw [same]

/-! ## Normal form -/

theorem two_infix_halve (s : List Char) : ['/', '/'] <:+: halve s ↔ ['/', '/', '/'] <:+: s := by
  induction s using halve.induct with
  | case1 => simp [halve]
  | case2 c => simp [halve, infix_cons_iff]
  | case3 c d s both ih =>
    obtain ⟨rfl, rfl⟩ := both
    have head : ['/', '/'] <+: '/' :: halve s ↔ s.head? = some '/' := by
      rw [← head?_halve]
      cases halve s <;> simp [eq_comm]
    have head' : ['/', '/', '/'] <+: '/' :: '/' :: s ↔ s.head? = some '/' := by
      cases s <;> simp [eq_comm]
    have inner : ['/', '/', '/'] <+: '/' :: s → s.head? = some '/' := by
      intro starts
      cases s with
      | nil => simp at starts
      | cons e s =>
        simp only [cons_prefix_cons] at starts
        rw [← starts.2.1]
        rfl
    rw [halve, if_pos ⟨rfl, rfl⟩, infix_cons_iff, infix_cons_iff, infix_cons_iff, ih, head,
      head']
    exact ⟨fun either => either.imp_right .inr,
      fun either => either.elim .inl fun rest => rest.imp_left inner⟩
  | case4 c d s other ih =>
    have first : ¬['/', '/'] <+: c :: halve (d :: s) := by
      intro starts
      have head := head?_halve (d :: s)
      cases isRest : halve (d :: s) with
      | nil => simp at isRest
      | cons e rest =>
        rw [isRest] at starts head
        simp only [cons_prefix_cons, head?_cons, Option.some.injEq] at starts head
        exact other ⟨starts.1.symm, by rw [← head, ← starts.2.1]⟩
    have first' : ¬['/', '/', '/'] <+: c :: d :: s := by
      intro starts
      simp only [cons_prefix_cons] at starts
      exact other ⟨starts.1.symm, starts.2.1.symm⟩
    rw [halve, if_neg other, infix_cons_iff, infix_cons_iff, ih]
    simp only [first, first', false_or]

theorem infix_of_append_replicate {x body : List Char} (k : Nat) (other : x.getLast? ≠ some '/')
    (more : x ≠ []) (inside : x <:+: body ++ List.replicate k '/') : x <:+: body := by
  induction k with
  | zero => simpa using inside
  | succ k ih =>
    rw [replicate_succ', ← append_assoc, infix_concat_iff] at inside
    rcases inside with suffix | inner
    · rw [suffix_concat_iff] at suffix
      rcases suffix with none | ⟨y, rfl, -⟩
      · exact absurd none more
      · rw [getLast?_concat] at other
        exact absurd rfl other
    · exact ih inner

/-- Three slashes that are not at the end stand before another character. -/
theorem exists_behind {a b : List Char} (other : b.getLast? ≠ some '/') (more : b ≠ []) :
    ∃ c, c ≠ '/' ∧ ['/', '/', '/', c] <:+: a ++ ['/', '/', '/'] ++ b := by
  induction b generalizing a with
  | nil => exact absurd rfl more
  | cons c r ih =>
    by_cases slash : c = '/'
    · subst slash
      have rest : r ≠ [] := by
        rintro rfl
        exact other rfl
      obtain ⟨d, char, inside⟩ := ih (a := a ++ ['/']) (by
        rwa [getLast?_cons_of_ne_nil rest] at other) rest
      exact ⟨d, char, by simpa using inside⟩
    · exact ⟨c, slash, a, r, by simp⟩

theorem tame_iff {body : List Char} (k : Nat) (other : body.getLast? ≠ some '/') :
    Tame (body ++ List.replicate k '/') ↔ ¬['/', '/', '/'] <:+: body := by
  constructor
  · rintro tame ⟨a, b, rfl⟩
    have more : b ≠ [] := by
      rintro rfl
      refine other ?_
      rw [append_nil, getLast?_append]
      rfl
    rw [getLast?_append_of_ne_nil _ more] at other
    obtain ⟨c, char, inside⟩ := exists_behind (a := a) other more
    exact tame c char (inside.trans (infix_append' [] _ _))
  · intro none c char inside
    have inner := infix_of_append_replicate k (by simpa using char) (cons_ne_nil _ _) inside
    exact none ((show ['/', '/', '/'] <:+: ['/', '/', '/', c] from ⟨[], [c], rfl⟩).trans inner)

/-- What is stored is in normal form just when three slashes stand at the end only. -/
theorem normal_prune_iff (s : List Char) : Normal (prune s) ↔ Tame s := by
  obtain ⟨body, k, rfl, other⟩ := exists_body s
  rw [prune_body body k other, tame_iff k other]
  split
  next none =>
    subst none
    have small : min k 1 = 0 ∨ min k 1 = 1 := by omega
    refine iff_of_true ?_ (by simp)
    rcases small with zero | one
    · rw [zero]
      decide
    · rw [one]
      decide
  next =>
    rw [Normal, two_infix_halve, getLast?_halve]
    exact and_iff_left fun last => absurd last other

theorem componentsFrom_halve (s cur : List Char) : componentsFrom (halve s) cur = componentsFrom s cur := by
  induction s using halve.induct generalizing cur with
  | case1 => rfl
  | case2 c => rfl
  | case3 c d s both ih =>
    obtain ⟨rfl, rfl⟩ := both
    rw [halve, if_pos ⟨rfl, rfl⟩]
    simp [componentsFrom, ih, flush]
  | case4 c d s other ih =>
    rw [halve, if_neg other, componentsFrom]
    conv_rhs => rw [componentsFrom]
    rw [ih, ih]

theorem componentsFrom_replicate (k : Nat) (cur : List Char) :
    componentsFrom (List.replicate k '/') cur = flush cur := by
  induction k generalizing cur with
  | zero => rfl
  | succ k ih => rw [replicate_succ, componentsFrom, if_pos rfl, ih]; simp [flush]

theorem componentsFrom_append_replicate (body cur : List Char) (k : Nat) :
    componentsFrom (body ++ List.replicate k '/') cur = componentsFrom body cur := by
  induction body generalizing cur with
  | nil => exact componentsFrom_replicate k cur
  | cons c s ih => rw [cons_append, componentsFrom, componentsFrom, ih, ih]

theorem components_prune (s : List Char) : components (prune s) = components s := by
  obtain ⟨body, k, rfl, other⟩ := exists_body s
  rw [prune_body body k other, components, components, componentsFrom_append_replicate]
  split
  next none => rw [none, componentsFrom_replicate]; rfl
  next => rw [componentsFrom_halve]

theorem absolute_prune (s : List Char) : Absolute (prune s) ↔ Absolute s := by
  obtain ⟨body, k, rfl, other⟩ := exists_body s
  rw [prune_body body k other, Absolute, Absolute]
  split
  next none =>
    subst none
    cases k with
    | zero => rfl
    | succ k =>
      have one : min (k + 1) 1 = 1 := by omega
      rw [one]
      rfl
  next more =>
    rw [head?_halve]
    cases body with
    | nil => exact absurd rfl more
    | cons c body => rfl

def joined : List (List Char) → List Char
  | [] => []
  | [x] => x
  | x :: y :: rest => x ++ '/' :: joined (y :: rest)

theorem joined_componentsFrom (s cur : List Char) (single : ¬['/', '/'] <:+: s)
    (last : s.getLast? ≠ some '/') (head : cur = [] → s.head? ≠ some '/') :
    joined (componentsFrom s cur) = cur ++ s := by
  induction s generalizing cur with
  | nil =>
    rw [componentsFrom, flush]
    split
    next none => rw [none]; rfl
    next => simp [joined]
  | cons c s ih =>
    have single' : ¬['/', '/'] <:+: s := fun inside => single (infix_cons_iff.mpr (.inr inside))
    have last' : s.getLast? ≠ some '/' := by
      cases s with
      | nil => nofun
      | cons d s => rwa [getLast?_cons_cons] at last
    rw [componentsFrom]
    split
    next slash =>
      subst slash
      have some_ : cur ≠ [] := fun none => head none rfl
      have next_ : s.head? ≠ some '/' := by
        intro here
        cases s with
        | nil => exact nomatch here
        | cons d s =>
          rw [head?_cons, Option.some.injEq] at here
          exact single (by rw [here]; exact infix_cons_iff.mpr (.inl (by simp)))
      have rest := ih [] single' last' fun _ => next_
      rw [nil_append] at rest
      rw [flush, if_neg some_, singleton_append]
      cases isRest : componentsFrom s [] with
      | nil =>
        rw [isRest] at rest
        rw [← rest] at last
        exact absurd rfl last
      | cons x more => rw [joined, ← isRest, rest]
    next other =>
      rw [ih (cur ++ [c]) single' last' (fun none => absurd none (by simp)), append_assoc]
      rfl

/-- A text in normal form is its components, and the slash before them. -/
theorem normal_eq {s : List Char} (normal : Normal s) :
    s = (if s.head? = some '/' then ['/'] else []) ++ joined (components s) := by
  obtain ⟨single, last⟩ := normal
  cases s with
  | nil => rfl
  | cons c t =>
    by_cases slash : c = '/'
    · subst slash
      have parts : components ('/' :: t) = components t := by
        rfl
      have head : ('/' :: t).head? = some '/' := rfl
      rw [if_pos head, parts]
      cases t with
      | nil => rfl
      | cons d t =>
        have last' : (d :: t).getLast? ≠ some '/' := by
          intro here
          exact cons_ne_nil d t (List.cons.inj (last here)).2
        have single' : ¬['/', '/'] <:+: d :: t := fun inside => single (infix_cons_iff.mpr (.inr inside))
        have head : (d :: t).head? ≠ some '/' := by
          intro here
          rw [head?_cons, Option.some.injEq] at here
          exact single (by rw [here]; exact infix_cons_iff.mpr (.inl (by simp)))
        rw [components, joined_componentsFrom _ _ single' last' fun _ => head]
        rfl
    · have head : (c :: t).head? ≠ some '/' := by simpa using slash
      have last' : (c :: t).getLast? ≠ some '/' := by
        intro here
        exact slash (List.cons.inj (last here)).1
      rw [if_neg head, components, joined_componentsFrom _ _ single last' fun _ => head]
      rfl

/-! ## Parents and children -/

theorem strip_normal {p : List Char} (normal : Normal p) (n : Nat) : strip n p = p := by
  cases n with
  | zero => rfl
  | succ n =>
    rw [strip, if_neg]
    rintro ⟨long, last⟩
    rw [normal.2 last] at long
    exact absurd long (by decide)

theorem normal_parentOf {p : List Char} (normal : Normal p) : Normal (parentOf p) := by
  unfold parentOf
  rw [strip_normal normal]
  dsimp only
  split
  next => decide
  next some_ =>
    split
    next => decide
    next more =>
      have more' : p.rdropWhile (· ≠ '/') ≠ [] := fun none => some_ (by rw [none]; rfl)
      have slash : (p.rdropWhile (· ≠ '/')).getLast more' = '/' := by
        simpa using rdropWhile_last_not (fun c => decide (c ≠ '/')) p more'
      have inside : p.rdropWhile (· ≠ '/') <+: p := rdropWhile_prefix _ p
      have whole := dropLast_append_getLast more'
      rw [slash] at whole
      generalize (p.rdropWhile (· ≠ '/')).dropLast = u at whole
      rw [← whole] at more inside
      refine ⟨fun pair => normal.1 (pair.trans (List.IsInfix.trans ⟨[], ['/'], by simp⟩ inside.isInfix)),
        fun last => ?_⟩
      obtain ⟨v, isU⟩ := getLast?_eq_some_iff.mp last
      refine absurd (List.IsInfix.trans ?_ inside.isInfix) normal.1
      exact ⟨v, [], by rw [isU]; simp⟩

/-- Two slashes are in the second part if they are not in the first, and it begins with
another character. -/
theorem infix_of_append {out rel y : List Char} (single : ¬['/', '/'] <:+: out)
    (head : rel.head? ≠ some '/') (inside : '/' :: '/' :: y <:+: out ++ rel) : '/' :: '/' :: y <:+: rel := by
  induction out with
  | nil => exact inside
  | cons a out ih =>
    have single' : ¬['/', '/'] <:+: out := fun pair => single (infix_cons_iff.mpr (.inr pair))
    rw [cons_append, infix_cons_iff] at inside
    rcases inside with first | inner
    · rw [cons_prefix_cons] at first
      obtain ⟨rfl, next_⟩ := first
      cases out with
      | nil =>
        rw [nil_append] at next_
        cases rel with
        | nil => simp at next_
        | cons d rel =>
          rw [cons_prefix_cons] at next_
          exact absurd (by rw [head?_cons, ← next_.1]) head
      | cons b out =>
        rw [cons_append, cons_prefix_cons] at next_
        refine absurd (infix_cons_iff.mpr (.inl ?_)) single
        rw [← next_.1]
        simp
    · exact ih single' inner

theorem tame_append {out rel : List Char} (single : ¬['/', '/'] <:+: out) (head : rel.head? ≠ some '/') :
    Tame (out ++ rel) ↔ Tame rel :=
  ⟨fun tame c char inside => tame c char (inside.trans (suffix_append out rel).isInfix),
    fun tame c char inside => tame c char (infix_of_append single head inside)⟩

/-- What is joined to a path in normal form. -/
theorem normal_join_iff {base rel out : List Char} (normal : Normal base) (isOut : join base rel = some out) :
    Normal out ↔ TameRel base rel := by
  unfold join at isOut
  unfold TameRel
  by_cases none : rel = []
  · rw [if_pos none] at isOut
    cases isOut
    exact iff_of_true normal (.inl none)
  rw [if_neg none] at isOut
  simp only [none, false_or]
  by_cases slash : rel.head? = some '/'
  · rw [if_pos slash] at isOut
    cases isOut
    rw [if_pos (.inl slash)]
  rw [if_neg slash] at isOut
  by_cases empty : base = []
  · rw [if_pos empty] at isOut
    cases isOut
    rw [if_pos (.inr empty)]
  rw [if_neg empty] at isOut
  rw [if_neg fun either => either.elim slash empty]
  dsimp only at isOut
  generalize isFront : (if base.getLast? ≠ some '/' then base ++ ['/'] else base) = front at isOut
  split at isOut
  next =>
    have same := Option.some.inj isOut
    subst same
    subst isFront
    rw [normal_prune_iff]
    refine tame_append ?_ slash
    split
    next other =>
      rw [infix_concat_iff]
      rintro (suffix | inside)
      · obtain ⟨front, isBase⟩ := suffix
        have same : front ++ ['/'] ++ ['/'] = base ++ ['/'] := by rw [← isBase]; simp
        rw [← append_cancel_right same, getLast?_concat] at other
        exact other rfl
      · exact normal.1 inside
    next last =>
      rw [normal.2 (not_not.mp last)]
      decide
  next => exact nomatch isOut

theorem join_isSome_iff (base rel : List Char) (short : rel.length ≤ room) :
    (join base rel).isSome ↔ Fits base rel := by
  unfold join Fits
  simp only [short, true_and]
  by_cases none : rel = []
  · simp [none]
  by_cases slash : rel.head? = some '/'
  · simp [none, slash]
  by_cases empty : base = []
  · simp [none, slash, empty]
  simp only [none, slash, empty, if_false, false_or]
  by_cases last : base.getLast? = some '/'
  · simp [last]
  · simp [last]

theorem step_normal_iff {p : List Char} (normal : Normal p) (op : Op) : Normal (step p op) ↔ op.Tame p := by
  cases op with
  | set str =>
    rw [step, Op.Tame]
    split
    next fits => simp only [fits, true_imp_iff, normal_prune_iff]
    next long => exact iff_of_true normal fun fits => absurd fits long
  | up => exact iff_of_true (normal_parentOf normal) trivial
  | toRoot => exact iff_of_true (show Normal ['/'] by decide) trivial
  | down name isDir =>
    rw [step, Op.Tame]
    split
    next long => exact iff_of_true normal fun _ fits => absurd fits.1 (by omega)
    next short =>
      have fits := join_isSome_iff p name (by omega)
      cases isChild : join p name with
      | none =>
        rw [isChild] at fits
        exact iff_of_true normal fun _ fine => nomatch fits.mpr fine
      | some child =>
        rw [isChild] at fits
        cases isDir with
        | false => exact iff_of_true normal nofun
        | true =>
          dsimp only
          rw [if_pos rfl, normal_join_iff normal isChild]
          exact ⟨fun tame _ _ => tame, fun tame => tame rfl (fits.mp rfl)⟩

theorem states_normal_iff {p : List Char} (normal : Normal p) (ops : List Op) :
    (∀ q ∈ states p ops, Normal q) ↔ TameRun p ops := by
  induction ops generalizing p with
  | nil => exact iff_of_true (fun q inside => by rwa [mem_singleton.mp inside]) trivial
  | cons op ops ih =>
    rw [states, forall_mem_cons, TameRun, ← step_normal_iff normal op]
    constructor
    · rintro ⟨-, rest⟩
      have next_ : Normal (step p op) := by
        refine rest _ ?_
        cases ops <;> simp [states]
      exact ⟨next_, (ih next_).mp rest⟩
    · rintro ⟨next_, tame⟩
      exact ⟨normal, (ih next_).mpr tame⟩

theorem states_mem_first (p : List Char) (ops : List Op) : p ∈ states p ops := by
  cases ops <;> simp [states]

/-- What is promised of the paths of a run that begins with a text, and of a path of the run
with another text joined to it. -/
def KeepsNormal (start : List Char) (ops : List Op) : Prop := ∀ q ∈ states (prune start) ops, Normal q

/-- The stored texts of a run are in normal form just when three slashes stand at the end of
what is given only.  They always have the components of what is given, so two texts in normal
form with the same components are equal, and what is joined is in normal form under the same
condition. -/
theorem stored_normal_iff (start : List Char) (ops : List Op) :
    (KeepsNormal start ops ↔ Tame start ∧ TameRun (prune start) ops) ∧
      (components (prune start) = components start ∧ (Absolute (prune start) ↔ Absolute start)) ∧
      (∀ other, Tame start → Tame other → components start = components other →
        (Absolute start ↔ Absolute other) → prune start = prune other) ∧
      ∀ p ∈ states (prune start) ops, Normal p → ∀ rel out, join p rel = some out →
        (Normal out ↔ TameRel p rel) := by
  refine ⟨⟨fun keeps => ?_, fun tame => ?_⟩, ⟨components_prune start, absolute_prune start⟩, ?_,
    fun p _ normal rel out isOut => normal_join_iff normal isOut⟩
  · have first := keeps _ (states_mem_first (prune start) ops)
    exact ⟨(normal_prune_iff start).mp first, (states_normal_iff first ops).mp keeps⟩
  · exact (states_normal_iff ((normal_prune_iff start).mpr tame.1) ops).mpr tame.2
  · intro other tame tame' same lead
    have mine := normal_eq ((normal_prune_iff start).mpr tame)
    have theirs := normal_eq ((normal_prune_iff other).mpr tame')
    have heads : (prune start).head? = some '/' ↔ (prune other).head? = some '/' :=
      ((absolute_prune start).trans lead).trans (absolute_prune other).symm
    rw [mine, theirs, components_prune, components_prune, same]
    simp only [heads]

/-- Of three slashes two are left. -/
theorem stored_not_normal : ¬∀ start : List Char, start.length ≤ room → KeepsNormal start [] := by
  intro all
  have normal := all ['a', '/', '/', '/', 'b'] (by decide) (prune ['a', '/', '/', '/', 'b']) (by
    exact mem_singleton.mpr rfl)
  exact absurd normal (by decide)

end Micron.Paths
