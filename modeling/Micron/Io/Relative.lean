import Micron.Io.Paths

/-!
# Relative paths

`relative_to` looks for the longest directory that a path and a base have in common as texts
and goes up once for each slash behind it in the base, and once more.  So a base that shares
a directory with the path has to be in normal form.
-/

set_option autoImplicit false

namespace Micron.Paths

open List Nat Option

def nul : Char := Char.ofNat 0

def charAt (s : List Char) (i : Nat) : Char := s.getD i nul

/-- The loop over what the texts have in common: how far it comes, and the place behind the
last slash. -/
def lead : List Char → List Char → Nat → Nat → Nat × Nat
  | a :: p, b :: base, i, common =>
    if a = b then lead p base (i + 1) (if a = '/' then i + 1 else common) else (i, common)
  | _, _, i, common => (i, common)

def commonOf (p base : List Char) : Nat :=
  let (i, common) := lead p base 0 0
  if i = base.length ∧ (charAt p i = '/' ∨ charAt p i = nul) then
    i + if charAt p i = '/' then 1 else 0
  else common

def upOf (base : List Char) (common : Nat) : Nat :=
  (base.drop common).count '/' + if common < base.length then 1 else 0

def put (out : List Char) (c : Char) : Option (List Char) :=
  if out.length + 1 ≤ room then some (out ++ [c]) else none

/-- `operator+=` for `".."`, which asks for room for the terminator too. -/
def putDots (out : List Char) : Option (List Char) :=
  if out.length + 3 ≤ room then some (out ++ ['.', '.']) else none

def putUp : Nat → List Char → Option (List Char)
  | 0, out => some out
  | k + 1, out => ((if out ≠ [] then put out '/' else some out).bind putDots).bind (putUp k)

def putRest : List Char → List Char → Option (List Char)
  | [], out => some out
  | c :: s, out => (put out c).bind (putRest s)

/-- No result where the text does not fit. -/
def relativeTo (p base : List Char) : Option (List Char) :=
  let common := commonOf p base
  (putUp (upOf base common) []).bind fun out =>
    (if common < p.length then
      (if out ≠ [] then put out '/' else some out).bind (putRest (p.drop common))
    else some out).map fun out => if out = [] then ['.'] else out

def resolveStep (cs : List (List Char)) (c : List Char) : List (List Char) :=
  if c = ['.'] then cs else if c = ['.', '.'] then cs.dropLast else cs ++ [c]

/-- The components that a text leads to from a base. -/
def resolve (base rel : List Char) : List (List Char) :=
  (components rel).foldl resolveStep (components base)

/-- Absolute, and without the components that stand for other ones. -/
structure Plain (s : List Char) : Prop where
  absolute : Absolute s
  named : ∀ c ∈ components s, c ≠ ['.'] ∧ c ≠ ['.', '.']
  noNul : nul ∉ s

structure IsPath (p : List Char) : Prop extends Plain p where
  normal : Normal p
  fits : p.length ≤ room

def Inverse (p base : List Char) : Prop :=
  ∃ out, relativeTo p base = some out ∧ resolve base out = components p ∧ ¬Absolute out ∧ out ≠ []

/-- The path is the base or a path in it, as the base is written. -/
def Within (p base : List Char) : Prop :=
  base <+: p ∧ (base.getLast? = some '/' ∨ base = p ∨ base ++ ['/'] <+: p)

/-- The texts begin with the same component and a slash. -/
def SharesFirst (p base : List Char) : Prop :=
  ∃ c, '/' ∉ c ∧ c ≠ [] ∧ '/' :: c ++ ['/'] <+: p ∧ '/' :: c ++ ['/'] <+: base

/-- The longest text up to a slash that both begin with. -/
structure IsDir (p base d : List Char) : Prop where
  inPath : d <+: p
  inBase : d <+: base
  slash : d.getLast? = some '/'
  longest : ∀ e, e <+: p → e <+: base → e.getLast? = some '/' → e.length ≤ d.length

/-- Three characters for each component of the base behind the shared directory, and what is
left of the path, are no more than a path holds. -/
def FitsUp (p base : List Char) : Prop :=
  ∀ d, IsDir p base d → 3 * ((base.drop d.length).count '/' + 1) + (p.length - d.length) ≤ room

theorem componentsFrom_slash (a s cur : List Char) :
    componentsFrom (a ++ '/' :: s) cur = componentsFrom a cur ++ components s := by
  induction a generalizing cur with
  | nil => exact if_pos rfl
  | cons c a ih =>
    rw [cons_append, componentsFrom, componentsFrom]
    split
    next => rw [ih, append_assoc]
    next => exact ih _

theorem components_slash (a s : List Char) : components (a ++ '/' :: s) = components a ++ components s :=
  componentsFrom_slash a s []

/-- The components that are missing between slashes. -/
def empties : List Char → List Char → Nat
  | [], cur => if cur = [] then 1 else 0
  | c :: s, cur => if c = '/' then (if cur = [] then 1 else 0) + empties s [] else empties s (cur ++ [c])

theorem length_componentsFrom (s cur : List Char) :
    (componentsFrom s cur).length + empties s cur = s.count '/' + 1 := by
  induction s generalizing cur with
  | nil =>
    rw [componentsFrom, empties, flush]
    split <;> rfl
  | cons c s ih =>
    rw [componentsFrom, empties]
    split
    next slash =>
      have rest := ih []
      rw [slash, length_append, count_cons_self, flush]
      split
      next =>
        rw [length_nil]
        omega
      next =>
        rw [length_singleton]
        omega
    next other => rw [count_cons_of_ne (by simpa using other), ih]

theorem empties_eq_zero_iff (s cur : List Char) : empties s cur = 0 ↔
    ¬['/', '/'] <:+: s ∧ s.getLast? ≠ some '/' ∧ (cur = [] → s ≠ [] ∧ s.head? ≠ some '/') := by
  induction s generalizing cur with
  | nil =>
    rw [empties]
    by_cases none : cur = []
    · simp [none]
    · simp [none]
  | cons c s ih =>
    rw [empties, infix_cons_iff]
    by_cases slash : c = '/'
    · subst slash
      rw [if_pos rfl, Nat.add_eq_zero_iff, ih]
      have pair : ['/', '/'] <+: '/' :: s ↔ s.head? = some '/' := by
        cases s <;> simp [eq_comm]
      by_cases none : cur = []
      · simp [none]
      · by_cases empty : s = []
        · simp [none, empty]
        · rw [pair, getLast?_cons_of_ne_nil empty]
          simp [none, empty]
          tauto
    · rw [if_neg slash, ih]
      have pair : ¬['/', '/'] <+: c :: s := by
        intro starts
        rw [cons_prefix_cons] at starts
        exact slash starts.1.symm
      by_cases empty : s = []
      · simp [empty, slash]
      · rw [getLast?_cons_of_ne_nil empty]
        simp [slash, pair]

theorem foldl_up (k : Nat) (cs : List (List Char)) :
    (List.replicate k ['.', '.']).foldl resolveStep cs = cs.take (cs.length - k) := by
  induction k generalizing cs with
  | zero => simp
  | succ k ih =>
    rw [replicate_succ, foldl_cons, resolveStep, if_neg (by decide), if_pos rfl, ih,
      length_dropLast, dropLast_eq_take, take_take]
    congr 1
    omega

theorem foldl_named (rel cs : List (List Char)) (named : ∀ c ∈ rel, c ≠ ['.'] ∧ c ≠ ['.', '.']) :
    rel.foldl resolveStep cs = cs ++ rel := by
  induction rel generalizing cs with
  | nil => simp
  | cons c rel ih =>
    obtain ⟨here, rest⟩ := forall_mem_cons.mp named
    rw [foldl_cons, resolveStep, if_neg here.1, if_neg here.2, ih _ rest]
    simp

theorem lead_spec (p base : List Char) (i common : Nat) :
    ∃ d t, d ++ t <+: p ∧ d ++ t <+: base ∧ '/' ∉ t ∧ (lead p base i common).1 = i + (d ++ t).length ∧
      (d = [] ∧ (lead p base i common).2 = common ∨
        d.getLast? = some '/' ∧ (lead p base i common).2 = i + d.length) ∧
      ∀ e, e <+: p → e <+: base → e.length ≤ (d ++ t).length := by
  induction p generalizing base i common with
  | nil =>
    refine ⟨[], [], prefix_rfl, nil_prefix, by simp, rfl, .inl ⟨rfl, rfl⟩, fun e inside _ => ?_⟩
    exact inside.length_le
  | cons a p ih =>
    cases base with
    | nil =>
      refine ⟨[], [], nil_prefix, prefix_rfl, by simp, rfl, .inl ⟨rfl, rfl⟩,
        fun e _ inside => ?_⟩
      exact inside.length_le
    | cons b base =>
      by_cases same : a = b
      · subst same
        obtain ⟨d, t, inPath, inBase, none, far, place, most⟩ :=
          ih base (i + 1) (if a = '/' then i + 1 else common)
        have longest : ∀ e, e <+: a :: p → e <+: a :: base → e.length ≤ (a :: (d ++ t)).length := by
          intro e inside inside'
          cases e with
          | nil => exact zero_le _
          | cons x e =>
            rw [cons_prefix_cons] at inside inside'
            exact succ_le_succ (most e inside.2 inside'.2)
        have inside (u : List Char) (starts : d ++ t <+: u) : a :: (d ++ t) <+: a :: u :=
          (prefix_cons_inj a).mpr starts
        rw [lead, if_pos rfl]
        rcases place with ⟨rfl, isCommon⟩ | ⟨slash, isCommon⟩
        · rw [isCommon]
          by_cases here : a = '/'
          · refine ⟨[a], t, inside p inPath, inside base inBase, none, ?_, .inr ⟨?_, ?_⟩, longest⟩
            · rw [far]
              simp only [nil_append, length_append, length_singleton]
              omega
            · rw [here]
              rfl
            · rw [if_pos here]
              rfl
          · refine ⟨[], a :: t, inside p inPath, inside base inBase, ?_, ?_, .inl ⟨rfl, if_neg here⟩, longest⟩
            · simp only [mem_cons, not_or]
              exact ⟨Ne.symm here, none⟩
            · rw [far]
              simp only [nil_append, length_cons]
              omega
        · refine ⟨a :: d, t, inside p inPath, inside base inBase, none, ?_, .inr ⟨?_, ?_⟩, longest⟩
          · rw [far]
            simp only [cons_append, length_cons]
            omega
          · rw [getLast?_cons_of_ne_nil (by rintro rfl; exact nomatch slash), slash]
          · rw [isCommon]
            simp only [length_cons]
            omega
      · refine ⟨[], [], nil_prefix, nil_prefix, by simp, ?_, .inl ⟨rfl, ?_⟩, fun e inside inside' => ?_⟩
        · rw [lead, if_neg same]
          rfl
        · rw [lead, if_neg same]
        · cases e with
          | nil => exact le_refl _
          | cons x e =>
            rw [cons_prefix_cons] at inside inside'
            exact absurd (inside.1.symm.trans inside'.1) same

/-- The loop finds the shared directory, and stops where the texts differ. -/
theorem lead_dir {p base : List Char} (absolute : Absolute p) (absolute' : Absolute base) :
    ∃ d, IsDir p base d ∧ (lead p base 0 0).2 = d.length ∧
      ∃ n, (lead p base 0 0).1 = n ∧ n ≤ base.length ∧ (n = base.length → base <+: p) ∧
        (base <+: p → n = base.length) := by
  obtain ⟨d, t, inPath, inBase, none, far, place, most⟩ := lead_spec p base 0 0
  have root : 1 ≤ (d ++ t).length := by
    unfold Absolute at absolute absolute'
    cases p with
    | nil => exact nomatch absolute
    | cons a p =>
      cases base with
      | nil => exact nomatch absolute'
      | cons b base =>
        rw [head?_cons, Option.some.injEq] at absolute absolute'
        have one := most ['/'] (by rw [absolute]; simp) (by rw [absolute']; simp)
        exact one
  rw [Nat.zero_add] at far
  have reaches : base <+: p → (d ++ t).length = base.length := fun inside =>
    Nat.le_antisymm inBase.length_le (most base inside prefix_rfl)
  have whole : (d ++ t).length = base.length → base <+: p := by
    intro same
    rw [← inBase.eq_of_length same]
    exact inPath
  rcases place with ⟨rfl, -⟩ | ⟨slash, isCommon⟩
  · exfalso
    rw [nil_append] at inPath root
    cases t with
    | nil => exact absurd root (by decide)
    | cons c t =>
      cases p with
      | nil => simp at inPath
      | cons a p =>
        unfold Absolute at absolute
        rw [cons_prefix_cons] at inPath
        rw [head?_cons, Option.some.injEq] at absolute
        exact none (by rw [inPath.1, absolute]; exact mem_cons_self)
  · rw [Nat.zero_add] at isCommon
    refine ⟨d, ⟨(prefix_append d t).trans inPath, (prefix_append d t).trans inBase, slash, ?_⟩,
      isCommon, _, far, inBase.length_le, whole, reaches⟩
    intro e inside inside' last
    by_contra more
    -- the slash at the end would be in the part without one
    have within : e <+: d ++ t := by
      refine prefix_of_prefix_length_le inside inPath (most e inside inside')
    obtain ⟨u, isE⟩ := prefix_of_prefix_length_le (prefix_append d t) within (by omega)
    rw [← isE] at within more last
    have inner : u <+: t := (prefix_append_right_inj d).mp within
    have some_ : u ≠ [] := by
      rintro rfl
      rw [append_nil] at more
      exact more (Nat.le_refl _)
    rw [getLast?_append_of_ne_nil _ some_] at last
    exact none (inner.subset (mem_of_getLast? last))

/-! ## What is written -/

def dots : Nat → List Char
  | 0 => []
  | k + 1 => '/' :: '.' :: '.' :: dots k

theorem length_dots (k : Nat) : (dots k).length = 3 * k := by
  induction k with
  | zero => rfl
  | succ k ih =>
    rw [dots]
    simp only [length_cons, ih]
    omega

theorem putUp_eq {out : List Char} (some_ : out ≠ []) (k : Nat) :
    putUp k out = if k = 0 ∨ out.length + 3 * k + 1 ≤ room then some (out ++ dots k) else none := by
  induction k generalizing out with
  | zero => simp [putUp, dots]
  | succ k ih =>
    rw [putUp, if_pos some_, put]
    by_cases slash : out.length + 1 ≤ room
    · rw [if_pos slash, bind_some, putDots, length_append, length_singleton]
      by_cases fits : out.length + 1 + 3 ≤ room
      · rw [if_pos fits, bind_some, ih (by simp)]
        have length : (out ++ ['/'] ++ ['.', '.']).length = out.length + 3 := by simp
        have text : out ++ ['/'] ++ ['.', '.'] ++ dots k = out ++ dots (k + 1) := by simp [dots]
        have same : (k = 0 ∨ (out ++ ['/'] ++ ['.', '.']).length + 3 * k + 1 ≤ room) ↔
            (k + 1 = 0 ∨ out.length + 3 * (k + 1) + 1 ≤ room) := by
          omega
        rw [text]
        simp only [same]
      · rw [if_neg fits, if_neg (by omega)]
        rfl
    · rw [if_neg slash, if_neg (by omega)]
      rfl

theorem putUp_nil (k : Nat) : putUp k [] = if 3 * k ≤ room then some (dots k).tail else none := by
  cases k with
  | zero => rfl
  | succ k =>
    rw [putUp, if_neg (fun wrong => wrong rfl), bind_some, putDots, if_pos (by decide), bind_some,
      putUp_eq (by simp)]
    have same : (k = 0 ∨ ([] ++ ['.', '.']).length + 3 * k + 1 ≤ room) ↔ 3 * (k + 1) ≤ room := by
      have three : (3 : Nat) ≤ room := by decide
      simp only [nil_append, length_cons, length_nil]
      omega
    simp only [same]
    rfl

theorem putRest_eq (s out : List Char) :
    putRest s out = if s = [] ∨ out.length + s.length ≤ room then some (out ++ s) else none := by
  induction s generalizing out with
  | nil => simp [putRest]
  | cons c s ih =>
    rw [putRest, put]
    by_cases fits : out.length + 1 ≤ room
    · rw [if_pos fits, bind_some, ih, length_append, length_singleton, length_cons]
      have same : (s = [] ∨ out.length + 1 + s.length ≤ room) ↔
          (c :: s = [] ∨ out.length + (s.length + 1) ≤ room) := by
        refine ⟨fun either => .inr ?_, fun either => .inr ?_⟩
        · rcases either with none | less
          · rw [none]
            exact fits
          · omega
        · rcases either with wrong | less
          · exact absurd wrong (cons_ne_nil c s)
          · omega
      simp only [same, append_assoc]
      rfl
    · rw [if_neg fits, length_cons, if_neg]
      · rfl
      · rintro (wrong | less)
        · exact absurd wrong (cons_ne_nil c s)
        · omega

/-- The text of so many times up and a rest, behind its first slash. -/
def upText (k : Nat) (r : List Char) : List Char := (dots k ++ if r = [] then [] else '/' :: r).tail

def finish (p : List Char) (common : Nat) (out : List Char) : Option (List Char) :=
  (if common < p.length then
    (if out ≠ [] then put out '/' else some out).bind (putRest (p.drop common))
  else some out).map fun out => if out = [] then ['.'] else out

theorem finish_nil {p : List Char} {common : Nat} (inside : common ≤ p.length) (fits : p.length ≤ room) :
    finish p common [] = some (if p.drop common = [] then ['.'] else p.drop common) := by
  have length : (p.drop common).length = p.length - common := length_drop
  unfold finish
  generalize p.drop common = r at length ⊢
  by_cases more : common < p.length
  · have some_ : r ≠ [] := ne_nil_of_length_pos (by omega)
    have fitsR : r = [] ∨ ([] : List Char).length + r.length ≤ room := .inr (by
      rw [length_nil]
      omega)
    rw [if_pos more, if_neg (fun wrong => wrong rfl), bind_some, putRest_eq, if_pos fitsR,
      nil_append]
    rfl
  · have none : r = [] := eq_nil_of_length_eq_zero (by omega)
    rw [if_neg more, none]
    rfl

theorem finish_dots {p : List Char} {common k : Nat} (inside : common ≤ p.length) (up : 3 * (k + 1) ≤ room) :
    finish p common (dots (k + 1)).tail =
      if 3 * (k + 1) + (p.length - common) ≤ room then some (upText (k + 1) (p.drop common)) else none := by
  have length : (p.drop common).length = p.length - common := length_drop
  have tail : (dots (k + 1)).tail ≠ [] := by simp [dots]
  have tailLength : (dots (k + 1)).tail.length = 3 * k + 2 := by
    rw [length_tail, length_dots]
    omega
  unfold finish
  generalize p.drop common = r at length ⊢
  by_cases more : common < p.length
  · have some_ : r ≠ [] := ne_nil_of_length_pos (by omega)
    have text : (dots (k + 1)).tail ++ ['/'] ++ r = upText (k + 1) r := by
      rw [upText, if_neg some_]
      simp [dots]
    have same : (r = [] ∨ ((dots (k + 1)).tail ++ ['/']).length + r.length ≤ room) ↔
        3 * (k + 1) + (p.length - common) ≤ room := by
      rw [length_append, tailLength, length_singleton, length]
      refine ⟨fun either => ?_, fun less => .inr (by omega)⟩
      exact either.elim (fun none => absurd none some_) (fun less => by omega)
    rw [if_pos more, if_pos tail, put, tailLength, if_pos (by omega), bind_some, putRest_eq]
    simp only [same]
    split
    next =>
      have written : upText (k + 1) r ≠ [] := by
        rw [← text]
        simp
      rw [text, map_some, if_neg written]
    next => rfl
  · have none : r = [] := eq_nil_of_length_eq_zero (by omega)
    subst none
    rw [if_neg more, if_pos (by omega), map_some, if_neg tail, upText, if_pos rfl, append_nil]

theorem relativeTo_eq (p base : List Char) :
    relativeTo p base = (putUp (upOf base (commonOf p base)) []).bind (finish p (commonOf p base)) := rfl

theorem components_dots (k : Nat) {s : List Char} (slash : s = [] ∨ s.head? = some '/') :
    components (dots k ++ s) = List.replicate k ['.', '.'] ++ components s := by
  induction k with
  | zero => rfl
  | succ k ih =>
    have start : dots k ++ s = [] ∨ ∃ u, dots k ++ s = '/' :: u := by
      cases k with
      | zero =>
        rcases slash with none | head
        · exact .inl none
        · cases s with
          | nil => exact nomatch head
          | cons c s =>
            rw [head?_cons, Option.some.injEq] at head
            exact .inr ⟨s, by rw [head]; rfl⟩
      | succ k => exact .inr ⟨_, rfl⟩
    have back := components_slash [] ('.' :: '.' :: (dots k ++ s))
    have here : components (dots (k + 1) ++ s) = components ('.' :: '.' :: (dots k ++ s)) := back
    rw [here, replicate_succ, cons_append, ← ih]
    rcases start with none | ⟨u, isU⟩
    · rw [none]
      rfl
    · rw [isU]
      exact (components_slash ['.', '.'] u).trans
        (congrArg (['.', '.'] :: ·) (components_slash [] u).symm)

theorem components_upText (k : Nat) (r : List Char) :
    components (upText k r) = List.replicate k ['.', '.'] ++ components r := by
  have behind (s : List Char) : components (if s = [] then [] else '/' :: s) = components s := by
    split
    next none => rw [none]
    next => exact components_slash [] s
  have whole := components_dots k (s := if r = [] then [] else '/' :: r) (by
    split
    next => exact .inl rfl
    next => exact .inr rfl)
  rw [behind] at whole
  rw [← whole, upText]
  cases k with
  | zero =>
    split
    next => rfl
    next => exact (components_slash [] r).symm
  | succ k =>
    exact (components_slash [] (dots (k + 1) ++ if r = [] then [] else '/' :: r).tail).symm

theorem components_of_not_mem {c : List Char} (single : '/' ∉ c) (cur : List Char) :
    componentsFrom c cur = flush (cur ++ c) := by
  induction c generalizing cur with
  | nil => rw [componentsFrom, append_nil]
  | cons x c ih =>
    simp only [mem_cons, not_or] at single
    rw [componentsFrom, if_neg (Ne.symm single.1), ih single.2, append_assoc]
    rfl

/-- Behind a directory the base has to be without empty components. -/
theorem normal_behind_iff {d t : List Char} (single : ¬['/', '/'] <:+: d ++ ['/']) (some_ : t ≠ []) :
    Normal (d ++ ['/'] ++ t) ↔ empties t [] = 0 := by
  rw [empties_eq_zero_iff]
  have last : (d ++ ['/'] ++ t).getLast? = t.getLast? := getLast?_append_of_ne_nil _ some_
  constructor
  · rintro ⟨pairs, ends⟩
    refine ⟨fun inside => pairs (inside.trans (suffix_append _ t).isInfix), fun slash => ?_, fun _ => ⟨some_, fun head => ?_⟩⟩
    · have length := congrArg List.length (ends (last.trans slash))
      have positive := length_pos_of_ne_nil some_
      simp only [length_append, length_singleton] at length
      omega
    · cases t with
      | nil => exact some_ rfl
      | cons c t =>
        rw [head?_cons, Option.some.injEq] at head
        exact pairs ⟨d, t, by rw [head]; simp⟩
  · rintro ⟨pairs, ends, start⟩
    refine ⟨fun inside => pairs (infix_of_append single (start rfl).2 inside), fun slash => ?_⟩
    exact absurd (last.symm.trans slash) ends

theorem sharesFirst_iff {p base d : List Char} (path : IsPath p) (dir : IsDir p base (d ++ ['/'])) :
    SharesFirst p base ↔ components d ≠ [] := by
  constructor
  · rintro ⟨c, single, some_, inPath, inBase⟩
    have slash : ('/' :: c ++ ['/']).getLast? = some '/' := by rw [getLast?_concat]
    obtain ⟨u, isD⟩ := prefix_of_prefix_length_le inPath dir.inPath (dir.longest _ inPath inBase slash)
    have whole : components (d ++ ['/']) = components d := by
      rw [components_slash]
      exact append_nil _
    have front : components ('/' :: c ++ ['/'] ++ u) = components c ++ components u := by
      have text : '/' :: c ++ ['/'] ++ u = [] ++ '/' :: (c ++ '/' :: u) := by simp
      rw [text, components_slash, components_slash]
      rfl
    rw [← whole, ← isD, front, components, components_of_not_mem single, nil_append, flush, if_neg some_]
    exact cons_ne_nil _ _
  · intro some_
    have inside : d <+: p := (prefix_append d ['/']).trans dir.inPath
    have absolute := path.absolute
    unfold Absolute at absolute
    cases d with
    | nil => exact absurd rfl some_
    | cons a u =>
      obtain ⟨v, isP⟩ := inside
      rw [← isP, cons_append, head?_cons, Option.some.injEq] at absolute
      subst absolute
      have pairs : ¬['/', '/'] <:+: '/' :: u ++ ['/'] :=
        fun pair => path.normal.1 (pair.trans dir.inPath.isInfix)
      have parts := takeWhile_append_dropWhile (p := fun x => decide (x ≠ '/')) (l := u)
      have behind : ∃ w, u ++ ['/'] = u.takeWhile (fun x => decide (x ≠ '/')) ++ '/' :: w := by
        cases isRest : u.dropWhile (fun x => decide (x ≠ '/')) with
        | nil =>
          rw [isRest, append_nil] at parts
          exact ⟨[], by rw [parts]⟩
        | cons x w =>
          have head := head?_dropWhile_not (fun x => decide (x ≠ '/')) u
          rw [isRest, head?_cons] at head
          have slash : x = '/' := by simpa using head
          rw [isRest, slash] at parts
          refine ⟨w ++ ['/'], ?_⟩
          conv_lhs => rw [← parts]
          simp
      obtain ⟨w, isU⟩ := behind
      have starts : '/' :: u.takeWhile (fun x => decide (x ≠ '/')) ++ ['/'] <+: '/' :: u ++ ['/'] := by
        refine ⟨w, ?_⟩
        rw [show '/' :: u ++ ['/'] = '/' :: (u ++ ['/']) from rfl, isU]
        simp
      refine ⟨u.takeWhile (fun x => decide (x ≠ '/')), fun inside => ?_, fun none => ?_,
        starts.trans dir.inPath, starts.trans dir.inBase⟩
      · have other := mem_takeWhile_imp inside
        exact absurd rfl (of_decide_eq_true other)
      · rw [none] at starts
        exact pairs starts.isInfix

theorem not_absolute_behind {a r : List Char} (normal : Normal (a ++ '/' :: r)) : ¬Absolute r := by
  intro absolute
  unfold Absolute at absolute
  cases r with
  | nil => exact nomatch absolute
  | cons c r =>
    rw [head?_cons, Option.some.injEq] at absolute
    exact normal.1 ⟨a, r, by rw [absolute]; simp⟩

/-- A path in the base is what is behind it. -/
theorem inverse_of_within {p base r : List Char} (path : IsPath p) {common : Nat}
    (isCommon : commonOf p base = common) (inside : common ≤ p.length) (rest : p.drop common = r)
    (noUp : upOf base common = 0) (parts : components p = components base ++ components r)
    (relative : ¬Absolute r) : Inverse p base := by
  have text : relativeTo p base = some (if r = [] then ['.'] else r) := by
    rw [relativeTo_eq, isCommon, noUp]
    exact (finish_nil inside path.fits).trans (by rw [rest])
  refine ⟨_, text, ?_⟩
  split
  next none =>
    rw [parts, none]
    refine ⟨?_, (fun wrong => absurd (Option.some.inj wrong) (by decide)), cons_ne_nil _ _⟩
    exact (append_nil _).symm
  next some_ =>
    refine ⟨?_, relative, some_⟩
    rw [resolve, parts, foldl_named]
    intro c inside'
    refine path.named c ?_
    rw [parts]
    exact mem_append_right _ inside'

/-- Where the base ends with a component of the path. -/
theorem inverse_of_end {p base r : List Char} (path : IsPath p) (isP : base ++ r = p)
    (char : charAt p base.length = '/' ∨ charAt p base.length = nul)
    (isCommon : commonOf p base =
      base.length + if charAt p base.length = '/' then 1 else 0) :
    Inverse p base ∧ Within p base := by
  cases r with
  | nil =>
    rw [append_nil] at isP
    have isNul : charAt p base.length = nul := by rw [charAt, isP]; simp
    rw [isNul, if_neg (by decide), Nat.add_zero] at isCommon
    refine ⟨inverse_of_within path isCommon (by rw [isP]) (r := []) (by rw [isP]; simp) ?_ ?_ ?_,
      by rw [isP], .inr (.inl isP)⟩
    · rw [upOf, drop_length, if_neg (lt_irrefl _)]
      rfl
    · rw [isP]
      exact (append_nil _).symm
    · exact nofun
  | cons c r =>
    have isC : charAt p base.length = c := by rw [charAt, ← isP]; simp
    rw [isC] at char isCommon
    have slash : c = '/' := char.resolve_right fun zero =>
      path.noNul (by rw [← isP, zero]; exact mem_append_right _ mem_cons_self)
    rw [if_pos slash] at isCommon
    rw [slash] at isP
    have longer := congrArg List.length isP
    rw [length_append, length_cons] at longer
    refine ⟨inverse_of_within path isCommon (by omega) (r := r) ?_ ?_ ?_ ?_,
      ⟨_, isP⟩, .inr (.inr ⟨r, by rw [← isP]; simp⟩)⟩
    · rw [← isP, ← drop_drop, drop_left]
      rfl
    · rw [upOf, drop_eq_nil_of_le (le_succ _), if_neg (by omega)]
      rfl
    · rw [← isP, components_slash]
    · exact not_absolute_behind (a := base) (by rw [isP]; exact path.normal)

/-- Where the base is the shared directory itself. -/
theorem inverse_of_directory {p base r : List Char} (path : IsPath p) (isP : base ++ r = p)
    (slash : base.getLast? = some '/') (isCommon : commonOf p base = base.length) :
    Inverse p base ∧ Within p base := by
  obtain ⟨d, isBase⟩ := getLast?_eq_some_iff.mp slash
  have text : d ++ '/' :: r = p := by rw [← isP, isBase]; simp
  refine ⟨inverse_of_within path isCommon ?_ (r := r) ?_ ?_ ?_ ?_, ⟨r, isP⟩, .inl slash⟩
  · rw [← isP, length_append]
    exact Nat.le_add_right _ _
  · rw [← isP, drop_left]
  · rw [upOf, drop_length, if_neg (lt_irrefl _)]
    rfl
  · rw [← text, isBase, components_slash, components_slash]
    exact congrArg (· ++ components r) (append_nil _).symm
  · refine not_absolute_behind (a := d) ?_
    rw [text]
    exact path.normal

theorem not_within {p base d t : List Char} (dir : IsDir p base d) (isBase : d ++ t = base)
    (some_ : t ≠ []) (apart : base <+: p →
      ¬(charAt p base.length = '/' ∨ charAt p base.length = nul)) : ¬Within p base := by
  rintro ⟨starts, slash | same | below⟩
  · have short := dir.longest base starts prefix_rfl slash
    rw [← isBase, length_append] at short
    have positive := length_pos_of_ne_nil some_
    omega
  · refine apart starts (.inr ?_)
    rw [charAt, same]
    simp
  · obtain ⟨r, isP⟩ := below
    refine apart starts (.inl ?_)
    rw [charAt, ← isP]
    simp

theorem fitsUp_iff {p base d : List Char} (dir : IsDir p base d) :
    FitsUp p base ↔
      3 * ((base.drop d.length).count '/' + 1) + (p.length - d.length) ≤ room := by
  refine ⟨fun all => all d dir, fun here e dirE => ?_⟩
  have same : e.length = d.length := le_antisymm (dir.longest e dirE.inPath dirE.inBase dirE.slash)
    (dirE.longest d dir.inPath dir.inBase dir.slash)
  rw [same]
  exact here

/-- The steps up lead to the shared directory, unless a component behind it is empty. -/
theorem resolve_upText_iff {p base d r t : List Char}
    (parts : components p = components d ++ components r)
    (parts' : components base = components d ++ components t)
    (named : ∀ c ∈ components r, c ≠ ['.'] ∧ c ≠ ['.', '.']) :
    resolve base (upText (t.count '/' + 1) r) = components p ↔
      empties t [] = 0 ∨ components d = [] := by
  have counts := length_componentsFrom t []
  change (components t).length + _ = _ at counts
  rw [resolve, components_upText, foldl_append, foldl_up, foldl_named _ _ named, parts, parts',
    append_left_inj, length_append]
  have left : (components d).length + (components t).length - (t.count '/' + 1) =
      (components d).length - empties t [] := by omega
  rw [left, take_append_of_le_length (sub_le _ _)]
  refine ⟨fun all => ?_, fun either => ?_⟩
  · have length := congrArg List.length all
    rw [length_take] at length
    rcases Nat.eq_zero_or_pos (empties t []) with zero | positive
    · exact .inl zero
    · exact .inr (eq_nil_of_length_eq_zero (by omega))
  · rcases either with zero | nothing
    · rw [zero, Nat.sub_zero, take_length]
    · rw [nothing]
      exact take_nil

/-- A text with steps up is neither absolute nor empty. -/
theorem inverse_up_iff {p base r : List Char} {k : Nat} {fits : Prop} [Decidable fits]
    (text : relativeTo p base = if fits then some (upText (k + 1) r) else Option.none) :
    Inverse p base ↔ fits ∧ resolve base (upText (k + 1) r) = components p := by
  rw [Inverse, text]
  constructor
  · rintro ⟨out, isOut, back, -⟩
    split at isOut
    next here =>
      cases isOut
      exact ⟨here, back⟩
    next => exact nomatch isOut
  · rintro ⟨here, back⟩
    rw [if_pos here]
    have start : upText (k + 1) r =
        '.' :: '.' :: (dots k ++ if r = [] then [] else '/' :: r) := rfl
    refine ⟨_, rfl, back, ?_, ?_⟩
    · rw [start]
      exact fun wrong => absurd (Option.some.inj wrong) (by decide)
    · rw [start]
      exact cons_ne_nil _ _

/-- A relative path leads back to the path just when the path is in the base, or what is
written fits and the base is in normal form or shares no directory with the path. -/
theorem relative_to_inverse_iff {p base : List Char} (path : IsPath p) (plain : Plain base) :
    Inverse p base ↔
      Within p base ∨ FitsUp p base ∧ (Normal base ∨ ¬SharesFirst p base) := by
  obtain ⟨d', dir, isCommon, n, far, le, whole, reaches⟩ := lead_dir path.absolute plain.absolute
  have unfolded : commonOf p base = if n = base.length ∧ (charAt p n = '/' ∨ charAt p n = nul) then
      n + (if charAt p n = '/' then 1 else 0) else d'.length := by
    rw [commonOf, ← far, ← isCommon]
  by_cases atEnd : n = base.length ∧ (charAt p n = '/' ∨ charAt p n = nul)
  · rw [if_pos atEnd] at unfolded
    obtain ⟨isEnd, char⟩ := atEnd
    obtain ⟨r, isP⟩ := whole isEnd
    rw [isEnd] at char unfolded
    obtain ⟨inverse, within⟩ := inverse_of_end path isP char unfolded
    exact iff_of_true inverse (.inl within)
  rw [if_neg atEnd] at unfolded
  obtain ⟨r, isP⟩ := dir.inPath
  obtain ⟨t, isBase⟩ := dir.inBase
  by_cases none : t = []
  · rw [none, append_nil] at isBase
    subst isBase
    obtain ⟨inverse, within⟩ := inverse_of_directory path isP dir.slash unfolded
    exact iff_of_true inverse (.inl within)
  obtain ⟨d, isD⟩ := getLast?_eq_some_iff.mp dir.slash
  have inside : d'.length ≤ p.length := dir.inPath.length_le
  have rest : p.drop d'.length = r := by rw [← isP, drop_left]
  have rest' : base.drop d'.length = t := by rw [← isBase, drop_left]
  have partsP : components p = components d ++ components r := by
    rw [← isP, isD, append_assoc, singleton_append, components_slash]
  have partsBase : components base = components d ++ components t := by
    rw [← isBase, isD, append_assoc, singleton_append, components_slash]
  have outside : ¬Within p base := not_within dir isBase none fun starts char =>
    atEnd ⟨reaches starts, by rw [reaches starts]; exact char⟩
  have up : upOf base d'.length = t.count '/' + 1 := by
    have positive := length_pos_of_ne_nil none
    rw [upOf, rest', if_pos]
    rw [← isBase, length_append]
    omega
  have text : relativeTo p base = if 3 * (t.count '/' + 1) + (p.length - d'.length) ≤ room then
      some (upText (t.count '/' + 1) r) else Option.none := by
    rw [relativeTo_eq, unfolded, up, putUp_nil]
    split
    next fitsUp =>
      rw [bind_some, finish_dots inside fitsUp, rest]
    next long => rw [if_neg (by omega)]; rfl
  have leads := resolve_upText_iff partsP partsBase fun c inside' =>
    path.named c (by rw [partsP]; exact mem_append_right _ inside')
  have pairs : ¬['/', '/'] <:+: d ++ ['/'] := by
    rw [← isD]
    exact fun pair => path.normal.1 (pair.trans dir.inPath.isInfix)
  have shape : Normal base ↔ empties t [] = 0 := by
    rw [← isBase, isD]
    exact normal_behind_iff pairs none
  have shares := sharesFirst_iff path (isD ▸ dir)
  rw [or_iff_right outside, fitsUp_iff dir, rest', shape, shares, not_not, ← leads]
  exact inverse_up_iff text

theorem relative_to_inverse_iff_siblings : Inverse ['/', 'a', '/', 'b'] ['/', 'a', '/', 'c'] := by
  have path : IsPath ['/', 'a', '/', 'b'] := ⟨⟨rfl, by decide, by decide⟩, by decide, by decide⟩
  have plain : Plain ['/', 'a', '/', 'c'] := ⟨rfl, by decide, by decide⟩
  refine (relative_to_inverse_iff path plain).mpr (.inr ⟨fun d _ => ?_, .inl (by decide)⟩)
  have few := @List.count_le_length _ _ '/' (['/', 'a', '/', 'c'].drop d.length)
  rw [length_drop] at few
  simp only [room, length_cons, length_nil] at few ⊢
  omega

/-- A slash at the end of the base counts as one more component. -/
theorem relative_to_leaves_directory : ¬∀ p base, IsPath p → Plain base → Inverse p base := by
  intro all
  obtain ⟨out, isOut, back, -⟩ := all ['/', 'a', '/', 'b'] ['/', 'a', '/', 'c', '/']
    ⟨⟨rfl, by decide, by decide⟩, by decide, by decide⟩ ⟨rfl, by decide, by decide⟩
  cases isOut
  exact absurd back (by decide)

end Micron.Paths
