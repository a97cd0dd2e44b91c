import Micron.RadixTree.Model

/-!
# One insert into the radix tree

An insert answers the new key and leaves the answer of every other key as it was, with one
exception: a key at whose node a first child for the next character is added is no longer found.
-/

set_option autoImplicit false

namespace Micron.RadixTree

open List

variable {C V : Type} [DecidableEq C]

theorem commonPrefixLength_append (g x y : List C) :
    commonPrefixLength (g ++ x) (g ++ y) = g.length + commonPrefixLength x y := by
  induction g with
  | nil => simp
  | cons c g ih =>
    rw [cons_append, cons_append, commonPrefixLength, if_pos rfl, ih, length_cons]
    omega

theorem commonPrefixLength_nil_left (x : List C) : commonPrefixLength [] x = 0 := rfl

theorem commonPrefixLength_nil_right (x : List C) : commonPrefixLength x [] = 0 := by
  cases x with
  | nil => rfl
  | cons c x => rfl

theorem commonPrefixLength_self_append (f r : List C) :
    commonPrefixLength f (f ++ r) = f.length := by
  have split := commonPrefixLength_append f [] r
  rwa [append_nil, commonPrefixLength_nil_left, Nat.add_zero] at split

/-- A key goes on behind the fragment, ends within it or leaves it. -/
inductive Meets : List C → List C → Prop where
  | behind (f r : List C) : Meets f (f ++ r)
  | within (g : List C) (a : C) (x : List C) : Meets (g ++ a :: x) g
  | apart (g : List C) (a : C) (x : List C) (b : C) (y : List C) (differ : a ≠ b) :
      Meets (g ++ a :: x) (g ++ b :: y)

omit [DecidableEq C] in
theorem Meets.cons {f k : List C} (c : C) (meets : Meets f k) : Meets (c :: f) (c :: k) := by
  cases meets with
  | behind f r => exact .behind (c :: f) r
  | within _ a x => exact .within (c :: k) a x
  | apart g a x b y differ => exact .apart (c :: g) a x b y differ

theorem meets (f k : List C) : Meets f k := by
  induction f generalizing k with
  | nil => exact .behind [] k
  | cons c f ih =>
    cases k with
    | nil => exact .within [] c f
    | cons d k =>
      by_cases same : c = d
      · subst same
        exact (ih k).cons c
      · exact .apart [] c f d k same

section Steps
variable (f : List C) (v v' : V) (leaf : Bool) (children : List (Node C V))

theorem insert_self : (Node.mk f v leaf children).insert f v' = .mk f v' true children := by
  have whole := commonPrefixLength_self_append f []
  rw [append_nil] at whole
  rw [Node.insert, whole, if_pos rfl, if_pos rfl]

theorem insert_behind (b : C) (r : List C) :
    (Node.mk f v leaf children).insert (f ++ b :: r) v' =
      match insertAmong children (b :: r) v' with
      | some descended => .mk f v leaf descended
      | none => .mk f v false (children ++ [Node.fresh (b :: r) v']) := by
  have longer : ¬ f.length = (f ++ b :: r).length := by
    rw [length_append, length_cons]
    omega
  cases placed : insertAmong children (b :: r) v' with
  | none =>
    rw [Node.insert, commonPrefixLength_self_append, if_pos rfl, drop_left, if_neg longer]
    simp only [placed]
  | some descended =>
    rw [Node.insert, commonPrefixLength_self_append, if_pos rfl, drop_left, if_neg longer]
    simp only [placed]

theorem insert_within (a : C) (x : List C) :
    (Node.mk (f ++ a :: x) v leaf children).insert f v' =
      .mk f v' true [.mk (a :: x) v leaf children] := by
  have common : commonPrefixLength (f ++ a :: x) f = f.length := by
    have split := commonPrefixLength_append f (a :: x) []
    rwa [append_nil, commonPrefixLength_nil_right, Nat.add_zero] at split
  rw [Node.insert, common, if_neg (by rw [length_append, length_cons]; omega),
    if_neg (lt_irrefl _), drop_left, take_left]

theorem insert_apart {a b : C} (x y : List C) (differ : a ≠ b) :
    (Node.mk (f ++ a :: x) v leaf children).insert (f ++ b :: y) v' =
      .mk f v false [.mk (a :: x) v leaf children, Node.fresh (b :: y) v'] := by
  have common : commonPrefixLength (f ++ a :: x) (f ++ b :: y) = f.length := by
    rw [commonPrefixLength_append, commonPrefixLength, if_neg differ, Nat.add_zero]
  rw [Node.insert, common, if_neg (by rw [length_append, length_cons]; omega),
    if_pos (by rw [length_append, length_cons]; omega), drop_left, take_left,
    drop_left]

theorem find_self : (Node.mk f v leaf children).find f = if leaf then some v else none := by
  have whole := commonPrefixLength_self_append f []
  rw [append_nil] at whole
  rw [Node.find, whole, if_pos rfl, if_pos rfl]

theorem find_behind (b : C) (r : List C) :
    (Node.mk f v leaf children).find (f ++ b :: r) = findAmong children (b :: r) := by
  rw [Node.find, commonPrefixLength_self_append, if_pos rfl, drop_left,
    if_neg (by rw [length_append, length_cons]; omega)]

theorem find_within (a : C) (x : List C) :
    (Node.mk (f ++ a :: x) v leaf children).find f = none := by
  have common : commonPrefixLength (f ++ a :: x) f = f.length := by
    have split := commonPrefixLength_append f (a :: x) []
    rwa [append_nil, commonPrefixLength_nil_right, Nat.add_zero] at split
  rw [Node.find, common, if_neg (by rw [length_append, length_cons]; omega)]

theorem find_apart {a b : C} (x y : List C) (differ : a ≠ b) :
    (Node.mk (f ++ a :: x) v leaf children).find (f ++ b :: y) = none := by
  have common : commonPrefixLength (f ++ a :: x) (f ++ b :: y) = f.length := by
    rw [commonPrefixLength_append, commonPrefixLength, if_neg differ, Nat.add_zero]
  rw [Node.find, common, if_neg (by rw [length_append, length_cons]; omega)]

end Steps

section Children
variable {c : Node C V} {rest children : List (Node C V)} {k q : List C} {v : V}

theorem findAmong_here (same : c.fragment.head? = k.head?) : findAmong (c :: rest) k = c.find k := by
  rw [findAmong, if_pos same]

theorem findAmong_later (other : c.fragment.head? ≠ k.head?) :
    findAmong (c :: rest) k = findAmong rest k := by
  rw [findAmong, if_neg other]

theorem findAmong_same (w : V) (leaf : Bool) (b : C) (x s : List C) :
    findAmong (.mk (b :: x) w leaf children :: rest) (b :: s) =
      (Node.mk (b :: x) w leaf children).find (b :: s) := findAmong_here rfl

theorem findAmong_differ (w : V) (leaf : Bool) {a b : C} (x s : List C) (differ : a ≠ b) :
    findAmong (.mk (a :: x) w leaf children :: rest) (b :: s) = findAmong rest (b :: s) :=
  findAmong_later fun heads => differ (Option.some.inj heads)

theorem findAmong_absent (absent : ∀ d ∈ children, d.fragment.head? ≠ k.head?) :
    findAmong children k = none := by
  induction children with
  | nil => rfl
  | cons c rest ih =>
    rw [findAmong_later (absent c (mem_cons_self ..))]
    exact ih fun d inside => absent d (mem_cons_of_mem c inside)

theorem findAmong_append_absent (later : List (Node C V))
    (absent : ∀ d ∈ children, d.fragment.head? ≠ k.head?) :
    findAmong (children ++ later) k = findAmong later k := by
  induction children with
  | nil => rfl
  | cons c rest ih =>
    rw [cons_append, findAmong_later (absent c (mem_cons_self ..))]
    exact ih fun d inside => absent d (mem_cons_of_mem c inside)

theorem findAmong_append_other (other : c.fragment.head? ≠ k.head?) :
    findAmong (children ++ [c]) k = findAmong children k := by
  induction children with
  | nil => exact findAmong_later other
  | cons d rest ih =>
    rw [cons_append, findAmong, findAmong, ih]

theorem find_fresh (k q : List C) (v : V) :
    (Node.fresh k v).find q = if q = k then some v else none := by
  rw [Node.fresh]
  cases meets k q with
  | behind k r =>
    cases r with
    | nil => rw [append_nil, find_self, if_pos rfl, if_pos rfl]
    | cons b r =>
      rw [find_behind, if_neg fun same => by simp at same]
      rfl
  | within _ a x => rw [find_within, if_neg fun same => by simp at same]
  | apart g a x b y differ =>
    rw [find_apart _ _ _ _ _ _ differ, if_neg fun same => ?_]
    simp at same
    exact differ same.1.symm

theorem insertAmong_eq_none_iff :
    insertAmong children k v = none ↔ ∀ d ∈ children, d.fragment.head? ≠ k.head? := by
  induction children with
  | nil => simp [insertAmong]
  | cons c rest ih =>
    rw [insertAmong]
    split
    next same => simp [same]
    next other => simp [other, ih]

omit [DecidableEq C] in
theorem Node.Spells.head_eq (spells : c.Spells q) (nonempty : c.fragment ≠ []) (some_char : q ≠ []) :
    c.fragment.head? = q.head? := by
  obtain ⟨f, w, leaf, below⟩ := c
  rw [Node.Spells] at spells
  rw [Node.fragment] at nonempty ⊢
  obtain ⟨r, rfl⟩ | ⟨r, rfl, _⟩ := spells
  · rw [head?_append_of_ne_nil _ some_char]
  · rw [head?_append_of_ne_nil _ nonempty]

omit [DecidableEq C] in
theorem SpellsAmong.exists_head (spells : SpellsAmong children q)
    (formed : WellFormedAmong children) (some_char : q ≠ []) :
    ∃ d ∈ children, d.fragment.head? = q.head? := by
  induction children with
  | nil => exact spells.elim
  | cons c rest ih =>
    rw [SpellsAmong] at spells
    rw [WellFormedAmong] at formed
    rcases spells with here | later
    · exact ⟨c, mem_cons_self .., here.head_eq formed.1 some_char⟩
    · obtain ⟨d, inside, same⟩ := ih later formed.2.2.2
      exact ⟨d, mem_cons_of_mem c inside, same⟩

omit [DecidableEq C] in
theorem spells_head {b : C} (starts : c.fragment.head? = some b) : c.Spells [b] := by
  obtain ⟨f, w, leaf, below⟩ := c
  rw [Node.fragment] at starts
  cases f with
  | nil => cases starts
  | cons d f =>
    cases starts
    rw [Node.Spells]
    exact .inl ⟨f, rfl⟩

omit [DecidableEq C] in
theorem spellsAmong_head {b : C} {d : Node C V} (inside : d ∈ children)
    (starts : d.fragment.head? = some b) : SpellsAmong children [b] := by
  induction children with
  | nil => cases inside
  | cons c rest ih =>
    rw [SpellsAmong]
    rcases mem_cons.mp inside with rfl | later
    · exact .inl (spells_head starts)
    · exact .inr (ih later)

omit [DecidableEq C] in
/-- Behind its fragment a node spells what its children spell. -/
theorem spells_behind (f : List C) (w : V) (leaf : Bool) (b : C) (r : List C) :
    (Node.mk f w leaf children).Spells (f ++ b :: r) ↔ SpellsAmong children (b :: r) := by
  rw [Node.Spells]
  constructor
  · rintro (within | ⟨r', same, below⟩)
    · have short := within.length_le
      rw [length_append, length_cons] at short
      omega
    · rwa [append_cancel_left same]
  · intro below
    exact .inr ⟨b :: r, rfl, below⟩

omit [DecidableEq C] in
theorem spells_within {f : List C} (w : V) (leaf : Bool) (within : q <+: f) :
    (Node.mk f w leaf children).Spells q := by
  rw [Node.Spells]
  exact .inl within

end Children

/-! ## What an insert does to the answers -/

/-- The new key has a character behind `q` that nothing spelled before. -/
def Hides (spells : List C → Prop) (k q : List C) : Prop :=
  ∃ b r, k = q ++ b :: r ∧ ¬spells (q ++ [b])

/-- How the answers after an insert of `k` come from the answers before it. -/
structure Answers (spells : List C → Prop) (before after : List C → Option V) (k : List C) (v : V) :
    Prop where
  stored : after k = some v
  hidden : ∀ q, Hides spells k q → after q = none
  kept : ∀ q, q ≠ k → ¬Hides spells k q → after q = before q

section Node
variable (f : List C) (v v' : V) (leaf : Bool) (children : List (Node C V))

theorem find_split (g : List C) (a : C) (x s : List C) :
    (Node.mk (g ++ a :: x) v leaf children).find (g ++ a :: s) =
      (Node.mk (a :: x) v leaf children).find (a :: s) := by
  rw [Node.find, Node.find, commonPrefixLength_append, length_append, length_append]
  simp only [Nat.add_left_cancel_iff]
  rw [drop_append, Nat.add_sub_cancel_left, drop_of_length_le (by omega), nil_append]

/-- A node that was split answers as before, its own place and what was added apart. -/
theorem find_splitNode (g : List C) (a : C) (x : List C) (w : V) (leaf' : Bool)
    (added : List (Node C V)) (q : List C) (not_here : q ≠ g)
    (not_added : ∀ b s, q = g ++ b :: s → b ≠ a → findAmong added (b :: s) = none) :
    (Node.mk g w leaf' (.mk (a :: x) v leaf children :: added)).find q =
      (Node.mk (g ++ a :: x) v leaf children).find q := by
  cases meets g q with
  | behind g s =>
    cases s with
    | nil => exact absurd (append_nil g) not_here
    | cons b s =>
      rw [find_behind]
      by_cases same : b = a
      · subst same
        rw [findAmong_same, find_split]
      · rw [findAmong_differ _ _ _ _ (Ne.symm same), not_added b s rfl same,
          find_apart _ _ _ _ _ _ (Ne.symm same)]
  | within _ d z =>
    rw [find_within, append_assoc, cons_append, find_within]
  | apart g d z b y differ =>
    rw [find_apart _ _ _ _ _ _ differ, append_assoc, cons_append,
      find_apart _ _ _ _ _ _ differ]

theorem insert_self_answers :
    Answers (Node.mk f v leaf children).Spells (Node.mk f v leaf children).find
      ((Node.mk f v leaf children).insert f v').find f v' := by
  rw [insert_self]
  refine ⟨by rw [find_self, if_pos rfl], ?_, ?_⟩
  · rintro q ⟨b, r, rfl, unspelled⟩
    exact absurd (spells_within v leaf ⟨r, by simp⟩) unspelled
  · intro q other _
    cases meets f q with
    | behind f s =>
      cases s with
      | nil => exact absurd (append_nil f) other
      | cons b s => rw [find_behind, find_behind]
    | within _ a x => rw [find_within, find_within]
    | apart g a x b y differ => rw [find_apart _ _ _ _ _ _ differ, find_apart _ _ _ _ _ _ differ]

theorem insert_within_answers (g : List C) (a : C) (x : List C) :
    Answers (Node.mk (g ++ a :: x) v leaf children).Spells
      (Node.mk (g ++ a :: x) v leaf children).find
      ((Node.mk (g ++ a :: x) v leaf children).insert g v').find g v' := by
  rw [insert_within]
  refine ⟨by rw [find_self, if_pos rfl], ?_, ?_⟩
  · rintro q ⟨b, r, rfl, unspelled⟩
    exact absurd (spells_within v leaf ⟨r ++ a :: x, by simp⟩) unspelled
  · intro q other _
    exact find_splitNode v leaf children g a x v' true [] q other fun b s _ _ => rfl

theorem insert_apart_answers (g : List C) {a b : C} (x y : List C) (differ : a ≠ b) :
    Answers (Node.mk (g ++ a :: x) v leaf children).Spells
      (Node.mk (g ++ a :: x) v leaf children).find
      ((Node.mk (g ++ a :: x) v leaf children).insert (g ++ b :: y) v').find (g ++ b :: y) v' := by
  have others : ∀ q, q ≠ g ++ b :: y →
      ((Node.mk (g ++ a :: x) v leaf children).insert (g ++ b :: y) v').find q =
        (Node.mk (g ++ a :: x) v leaf children).find q := by
    intro q other
    rw [insert_apart _ _ _ _ _ _ _ differ]
    by_cases here : q = g
    · rw [here, find_self, find_within, if_neg Bool.false_ne_true]
    · refine find_splitNode v leaf children g a x v false _ q here fun d s same _ => ?_
      rw [findAmong]
      split
      · rw [find_fresh, if_neg fun whole => other (by rw [same, whole])]
      · rfl
  refine ⟨?_, ?_, fun q other _ => others q other⟩
  · rw [insert_apart _ _ _ _ _ _ _ differ, find_behind,
      findAmong_differ _ _ _ _ differ, Node.fresh, findAmong_same, find_self, if_pos rfl]
  · rintro q ⟨d, r, same, _⟩
    rw [others q fun whole => by simp [← whole] at same]
    cases meets g q with
    | behind g s =>
      cases s with
      | nil => rw [append_nil, find_within]
      | cons e s =>
        have chars : b = e := by simp at same; exact same.1
        rw [find_apart _ _ _ _ _ _ (by rw [← chars]; exact differ)]
    | within _ e z => rw [append_assoc, cons_append, find_within]
    | apart g e z b y differ =>
      rw [append_assoc, cons_append, find_apart _ _ _ _ _ _ differ]

/-- The key goes on behind the fragment and a child starts like it. -/
theorem insert_descended_answers {b : C} {r : List C} {descended : List (Node C V)}
    (below : insertAmong children (b :: r) v' = some descended)
    (answers : Answers (SpellsAmong children) (findAmong children) (findAmong descended)
      (b :: r) v') :
    Answers (Node.mk f v leaf children).Spells (Node.mk f v leaf children).find
      ((Node.mk f v leaf children).insert (f ++ b :: r) v').find (f ++ b :: r) v' := by
  rw [insert_behind, below]
  refine ⟨by rw [find_behind, answers.stored], ?_, ?_⟩
  · rintro q ⟨d, z, same, unspelled⟩
    cases meets f q with
    | behind f s =>
      rw [append_assoc] at same unspelled
      have tails := append_cancel_left same
      have unspelled_below : ¬SpellsAmong children (s ++ [d]) := by
        cases s with
        | nil => exact fun spells => unspelled ((spells_behind f v leaf d []).mpr spells)
        | cons e s => exact fun spells => unspelled ((spells_behind f v leaf e _).mpr spells)
      cases s with
      | nil =>
        obtain ⟨rfl, rfl⟩ := tails
        have absent : insertAmong children (b :: r) v' = none := by
          rw [insertAmong_eq_none_iff]
          exact fun d inside starts => unspelled_below (spellsAmong_head inside starts)
        rw [below] at absent
        cases absent
      | cons e s =>
        rw [find_behind]
        exact answers.hidden _ ⟨d, z, tails, unspelled_below⟩
    | within _ a x => exact find_within ..
    | apart g a x e y differ => exact find_apart _ _ _ _ _ _ differ
  · intro q other shown
    cases meets f q with
    | behind f s =>
      cases s with
      | nil => rw [append_nil, find_self, find_self]
      | cons e s =>
        rw [find_behind, find_behind]
        refine answers.kept _ (fun same => other (by rw [same])) ?_
        rintro ⟨d, z, same, unspelled⟩
        refine shown ⟨d, z, by rw [same, append_assoc], ?_⟩
        rw [append_assoc]
        exact fun spells => unspelled ((spells_behind f v leaf e _).mp spells)
    | within _ a x => rw [find_within, find_within]
    | apart g a x e y differ => rw [find_apart _ _ _ _ _ _ differ, find_apart _ _ _ _ _ _ differ]

/-- The key goes on behind the fragment and becomes a new child; the node stops being a leaf. -/
theorem insert_added_answers {b : C} {r : List C} (formed : WellFormedAmong children)
    (absent : ∀ d ∈ children, d.fragment.head? ≠ some b) :
    Answers (Node.mk f v leaf children).Spells (Node.mk f v leaf children).find
      ((Node.mk f v leaf children).insert (f ++ b :: r) v').find (f ++ b :: r) v' := by
  rw [insert_behind, insertAmong_eq_none_iff.mpr absent]
  have new_child : ∀ s, findAmong (children ++ [Node.fresh (b :: r) v']) (b :: s) =
      if b :: s = b :: r then some v' else none := by
    intro s
    rw [findAmong_append_absent _ absent, Node.fresh, findAmong_same, ← Node.fresh, find_fresh]
  refine ⟨by rw [find_behind, new_child, if_pos rfl], ?_, ?_⟩
  · rintro q ⟨d, z, same, _⟩
    cases meets f q with
    | behind f s =>
      rw [append_assoc] at same
      have tails := append_cancel_left same
      cases s with
      | nil => rw [append_nil, find_self, if_neg Bool.false_ne_true]
      | cons e s =>
        obtain ⟨rfl, rfl⟩ := tails
        rw [find_behind, new_child, if_neg fun whole => by simp at whole]
    | within _ a x => exact find_within ..
    | apart g a x e y differ => exact find_apart _ _ _ _ _ _ differ
  · intro q other shown
    cases meets f q with
    | behind f s =>
      cases s with
      | nil =>
        refine absurd ⟨b, r, by rw [append_nil], ?_⟩ shown
        rw [append_nil, spells_behind]
        intro spells
        obtain ⟨d, inside, starts⟩ := spells.exists_head formed (cons_ne_nil b [])
        exact absent d inside starts
      | cons e s =>
        rw [find_behind, find_behind]
        by_cases same : e = b
        · subst same
          rw [new_child, if_neg fun whole => other (by rw [whole]), findAmong_absent absent]
        · exact findAmong_append_other fun heads => same (Option.some.inj heads).symm
    | within _ a x => rw [find_within, find_within]
    | apart g a x e y differ => rw [find_apart _ _ _ _ _ _ differ, find_apart _ _ _ _ _ _ differ]

end Node

/-- An insert leaves the first character of a child as it is. -/
theorem insert_head {c : Node C V} {k : List C} (v : V) (nonempty : c.fragment ≠ [])
    (same : c.fragment.head? = k.head?) : (c.insert k v).fragment.head? = c.fragment.head? := by
  obtain ⟨f, w, leaf, children⟩ := c
  have first : ∀ (g : List C) (a : C) (x y : List C), (g ++ a :: x).head? = (g ++ y).head? →
      y.head? ≠ some a → g.head? = (g ++ a :: x).head? := by
    intro g a x y heads differ
    cases g with
    | nil => exact absurd heads.symm differ
    | cons d g => rfl
  cases meets f k with
  | behind f r =>
    cases r with
    | nil =>
      rw [append_nil, insert_self]
      rfl
    | cons b r =>
      rw [insert_behind]
      split
      · rfl
      · rfl
  | within _ a x =>
    rw [insert_within]
    exact first k a x [] (by rwa [append_nil]) (fun absurd => by cases absurd)
  | apart g a x b y differ =>
    rw [insert_apart _ _ _ _ _ _ _ differ]
    exact first g a x (b :: y) same fun heads => differ (Option.some.inj heads).symm

section Among
variable {c : Node C V} {rest descended : List (Node C V)} {k : List C} {v : V}

/-- The child that starts like the key answers for the node. -/
theorem here_answers (nonempty : c.fragment ≠ []) (formed : WellFormedAmong rest)
    (distinct : ∀ d ∈ rest, d.fragment.head? ≠ c.fragment.head?)
    (same : c.fragment.head? = k.head?)
    (answers : Answers c.Spells c.find (c.insert k v).find k v) :
    Answers (SpellsAmong (c :: rest)) (findAmong (c :: rest))
      (findAmong (c.insert k v :: rest)) k v := by
  have heads := insert_head v nonempty same
  refine ⟨by rw [findAmong_here (heads.trans same), answers.stored], ?_, ?_⟩
  · rintro q ⟨b, r, rfl, unspelled⟩
    have hidden := answers.hidden q ⟨b, r, rfl, fun spells => unspelled (.inl spells)⟩
    cases q with
    | nil => exact absurd (.inl (spells_head same)) unspelled
    | cons d q => exact (findAmong_here (k := d :: q) (heads.trans same)).trans hidden
  · intro q other shown
    by_cases start : c.fragment.head? = q.head?
    · rw [findAmong_here (heads.trans start), findAmong_here start]
      refine answers.kept q other ?_
      rintro ⟨b, r, rfl, unspelled⟩
      have some_char : q ≠ [] := by
        intro none
        rw [none, head?_nil, head?_eq_none_iff] at start
        exact nonempty start
      refine shown ⟨b, r, rfl, ?_⟩
      rintro (here | later)
      · exact unspelled here
      · obtain ⟨d, inside, starts⟩ := later.exists_head formed (by simp)
        rw [head?_append_of_ne_nil _ some_char, ← start] at starts
        exact distinct d inside starts
    · rw [findAmong_later fun absurd => start (heads.symm.trans absurd), findAmong_later start]

/-- A child that does not start like the key is passed over. -/
theorem later_answers (nonempty : c.fragment ≠ []) (some_char : k ≠ [])
    (other : c.fragment.head? ≠ k.head?)
    (answers : Answers (SpellsAmong rest) (findAmong rest) (findAmong descended) k v) :
    Answers (SpellsAmong (c :: rest)) (findAmong (c :: rest)) (findAmong (c :: descended)) k v := by
  have not_start : ∀ q b r, k = q ++ b :: r → ¬c.Spells (q ++ [b]) := by
    rintro q b r rfl spells
    refine other ((spells.head_eq nonempty (by simp)).trans ?_)
    cases q with
    | nil => rfl
    | cons d q => rfl
  refine ⟨by rw [findAmong_later other, answers.stored], ?_, ?_⟩
  · rintro q ⟨b, r, same, unspelled⟩
    have hidden := answers.hidden q ⟨b, r, same, fun spells => unspelled (.inr spells)⟩
    by_cases start : c.fragment.head? = q.head?
    · subst same
      cases q with
      | nil =>
        rw [head?_nil, head?_eq_none_iff] at start
        exact absurd start nonempty
      | cons d q => exact absurd start other
    · rw [findAmong_later start, hidden]
  · intro q different shown
    by_cases start : c.fragment.head? = q.head?
    · rw [findAmong_here start, findAmong_here start]
    · rw [findAmong_later start, findAmong_later start]
      refine answers.kept q different ?_
      rintro ⟨b, r, same, unspelled⟩
      refine shown ⟨b, r, same, ?_⟩
      exact fun spells => spells.elim (not_start q b r same) unspelled

end Among

mutual

theorem Node.insert_answers (t : Node C V) (formed : t.WellFormed) (k : List C) (v : V) :
    Answers t.Spells t.find (t.insert k v).find k v := by
  obtain ⟨f, w, leaf, children⟩ := t
  rw [Node.WellFormed] at formed
  cases meets f k with
  | behind f r =>
    cases r with
    | nil =>
      rw [append_nil]
      exact insert_self_answers f w v leaf children
    | cons b r =>
      cases below : insertAmong children (b :: r) v with
      | none =>
        exact insert_added_answers f w v leaf children formed
          (insertAmong_eq_none_iff.mp below)
      | some descended =>
        exact insert_descended_answers f w v leaf children below
          (insertAmong_answers children formed (cons_ne_nil b r) below)
  | within _ a x => exact insert_within_answers w v leaf children k a x
  | apart g a x b y differ => exact insert_apart_answers w v leaf children g x y differ

theorem insertAmong_answers (children : List (Node C V)) (formed : WellFormedAmong children)
    {k : List C} {v : V} (some_char : k ≠ []) {descended : List (Node C V)}
    (below : insertAmong children k v = some descended) :
    Answers (SpellsAmong children) (findAmong children) (findAmong descended) k v := by
  cases children with
  | nil => cases below
  | cons c rest =>
    rw [WellFormedAmong] at formed
    obtain ⟨nonempty, formed_c, distinct, formed_rest⟩ := formed
    rw [insertAmong] at below
    split at below
    next same =>
      cases below
      exact here_answers nonempty formed_rest distinct same (Node.insert_answers c formed_c k v)
    next other =>
      obtain ⟨deeper, below_rest, rfl⟩ := Option.map_eq_some_iff.mp below
      exact later_answers nonempty some_char other
        (insertAmong_answers rest formed_rest some_char below_rest)

end

end Micron.RadixTree
