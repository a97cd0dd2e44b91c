import Micron.Strings.RopeRanges

/-!
# Iterators of ropes

An iterator carries the branches whose right children are still to come, a place in a leaf
and an index of its own.  The increments keep the three together.  `end` and `last` set
them apart: the index of `end` is zero, and `last` stands on the first leaf.
-/

set_option autoImplicit false

namespace Micron.Strings

open List

section Model
variable {α : Type}

structure Iterator (α : Type) where
  stack : List (Node α)
  leaf : Option (Node α)
  pos : Nat
  index : Nat

/-- `__push_to_leftmost` from a node that is there. -/
def pushToLeftmost : Node α → List (Node α) → List (Node α) × Node α
  | .leaf len data, stack => (stack, .leaf len data)
  | .branch len left right, stack => pushToLeftmost left (.branch len left right :: stack)

def Iterator.ofRoot (root : Option (Node α)) (start : Nat) : Iterator α :=
  match root with
  | none => ⟨[], none, 0, start⟩
  | some n => ⟨(pushToLeftmost n []).1, some (pushToLeftmost n []).2, 0, start⟩

def Rope.begin (r : Rope α) : Iterator α := .ofRoot r.root 0

def Rope.end_ (_ : Rope α) : Iterator α := ⟨[], none, 0, 0⟩

def Rope.last (r : Rope α) : Iterator α :=
  .ofRoot r.root (if r.length > 0 then r.length - 1 else 0)

def Node.data : Node α → List α
  | .leaf _ data => data
  | .branch _ _ _ => []

def Node.right : Node α → Option (Node α)
  | .leaf _ _ => none
  | .branch _ _ right => some right

def Iterator.deref (it : Iterator α) : Option α := it.leaf.bind fun leaf => leaf.data[it.pos]?

/-- `operator==`; `same` compares the leaves by their addresses. -/
def Iterator.eq (same : Node α → Node α → Bool) (it o : Iterator α) : Bool :=
  match it.leaf, o.leaf with
  | none, none => true
  | some leaf, some leaf' => same leaf leaf' && it.pos == o.pos
  | _, _ => false

/-- `++`, which an iterator past the end must not be given. -/
def Iterator.next (it : Iterator α) : Iterator α :=
  match it.leaf with
  | none => it
  | some leaf =>
    if it.pos + 1 < leaf.length then { it with pos := it.pos + 1, index := it.index + 1 }
    else
      match it.stack with
      | parent :: stack =>
        match parent.right with
        | some n =>
          ⟨(pushToLeftmost n stack).1, some (pushToLeftmost n stack).2, 0, it.index + 1⟩
        | none => ⟨stack, none, 0, it.index + 1⟩
      | [] => ⟨[], none, 0, it.index + 1⟩

def Rope.insertFillAt (r : Rope α) (it : Iterator α) (ch : α) (cnt : Nat) :
    Except String (Rope α) := r.insertFill it.index ch cnt

def Rope.insertAt (r : Rope α) (it : Iterator α) (o : Rope α) : Rope α := r.insert it.index o

def Rope.eraseAt (r : Rope α) (it : Iterator α) (cnt : Nat) : Except String (Rope α) :=
  r.erase it.index cnt

def Rope.substrBetween (r : Rope α) (start stop : Iterator α) : Except String (Rope α) :=
  if stop.index ≤ start.index then .ok .empty
  else r.substr start.index (stop.index - start.index)

def Rope.truncateAt (r : Rope α) (it : Iterator α) : Rope α := r.truncate it.index

/-- What an iterator that denotes position `k` is: it knows its index, reads the character
there, is past the end just at the end, and edits act at its position. -/
structure Rope.Denotes (r : Rope α) (same : Node α → Node α → Bool) (k : Nat) (it : Iterator α) :
    Prop where
  index : it.index = k
  deref : k < r.length → r.at k = .ok it.deref
  past : it.eq same r.end_ = true ↔ k = r.length
  edits : ∀ (ch : α) (cnt : Nat) (o : Rope α),
    r.insertFillAt it ch cnt = r.insertFill k ch cnt ∧ r.insertAt it o = r.insert k o ∧
      r.eraseAt it cnt = r.erase k cnt ∧ r.truncateAt it = r.truncate k

/-- The edits take nothing but the index from an iterator. -/
theorem edits_of_index (r : Rope α) {it : Iterator α} {k : Nat} (index : it.index = k) (ch : α)
    (cnt : Nat) (o : Rope α) :
    r.insertFillAt it ch cnt = r.insertFill k ch cnt ∧ r.insertAt it o = r.insert k o ∧
      r.eraseAt it cnt = r.erase k cnt ∧ r.truncateAt it = r.truncate k := by
  subst index
  exact ⟨rfl, rfl, rfl, rfl⟩

/-- The text under the branches that are still to come. -/
def ahead : List (Node α) → List α
  | [] => []
  | parent :: stack => (parent.right.map Node.chars).getD [] ++ ahead stack

def SoundStack (stack : List (Node α)) : Prop :=
  ∀ parent ∈ stack, ∃ n, parent.right = some n ∧ n.Sound

/-- The three parts of an iterator at position `k` of a text. -/
structure Iterator.At (text : List α) (k : Nat) (it : Iterator α) : Prop where
  index : it.index = k
  past : it.leaf = none → text.length ≤ k
  here : ∀ leaf, it.leaf = some leaf → SoundStack it.stack ∧ leaf.length = leaf.data.length ∧
    it.pos < leaf.length ∧ leaf.data.drop it.pos ++ ahead it.stack = text.drop k

theorem pushToLeftmost_spec : ∀ (n : Node α) (stack : List (Node α)), n.Sound →
    SoundStack stack →
    SoundStack (pushToLeftmost n stack).1 ∧
      (pushToLeftmost n stack).2.length = (pushToLeftmost n stack).2.data.length ∧
      0 < (pushToLeftmost n stack).2.length ∧
      (pushToLeftmost n stack).2.data ++ ahead (pushToLeftmost n stack).1 =
        n.chars ++ ahead stack
  | .leaf len data, stack, sound, others => by
    refine ⟨others, sound.1, ?_, rfl⟩
    rw [sound.1]
    exact length_pos_iff.mpr sound.2
  | .branch len left right, stack, sound, others => by
    rw [pushToLeftmost, Node.chars, append_assoc]
    refine pushToLeftmost_spec left _ sound.2.1 ?_
    intro parent member
    rcases mem_cons.mp member with same | member
    · exact ⟨right, by rw [same]; rfl, sound.2.2⟩
    · exact others parent member

/-- Down the left of a tree an iterator stands at its first character. -/
theorem at_leftmost {n : Node α} {stack : List (Node α)} {text : List α} {k : Nat}
    (sound : n.Sound) (others : SoundStack stack) (rest : n.chars ++ ahead stack = text.drop k) :
    Iterator.At text k ⟨(pushToLeftmost n stack).1, some (pushToLeftmost n stack).2, 0, k⟩ := by
  obtain ⟨stacked, size, pos, spelled⟩ := pushToLeftmost_spec n stack sound others
  refine ⟨rfl, nofun, ?_⟩
  intro leaf same
  cases same
  exact ⟨stacked, size, pos, by rw [drop_zero, spelled, rest]⟩

theorem at_begin {r : Rope α} {text : List α} (spells : r.Spells text) :
    Iterator.At text 0 r.begin := by
  have holds := spells.holds
  unfold Rope.begin Iterator.ofRoot
  cases root : r.root with
  | none =>
    rw [root] at holds
    exact ⟨rfl, fun _ => by rw [show text = [] from holds]; exact le_refl 0,
      nofun⟩
  | some n =>
    rw [root] at holds
    exact at_leftmost holds.1 (fun parent member => absurd member not_mem_nil)
      (by rw [holds.2, ahead, append_nil, drop_zero])

/-- An increment goes one character on, in the leaf or to the leaf after it. -/
theorem Iterator.At.next {text : List α} {k : Nat} {it : Iterator α} (denotes : it.At text k)
    (inside : k < text.length) : it.next.At text (k + 1) := by
  obtain ⟨index, past, here⟩ := denotes
  cases leaf : it.leaf with
  | none => exact absurd (past leaf) (Nat.not_le_of_lt inside)
  | some node =>
    obtain ⟨stacked, size, below, spelled⟩ := here node leaf
    have rest : text.drop (k + 1) = node.data.drop (it.pos + 1) ++ ahead it.stack := by
      have tail := congrArg List.tail spelled
      rw [tail_drop, tail_append_of_ne_nil (by
        rw [ne_eq, drop_eq_nil_iff]
        omega), tail_drop] at tail
      exact tail.symm
    rw [Iterator.next, leaf]
    dsimp only
    by_cases more : it.pos + 1 < node.length
    · rw [if_pos more]
      refine ⟨by rw [index], nofun, ?_⟩
      intro node' same
      cases same
      exact ⟨stacked, size, more, rest.symm⟩
    · rw [if_neg more]
      have none : node.data.drop (it.pos + 1) = [] := drop_eq_nil_of_le (by omega)
      rw [none, nil_append] at rest
      cases stack : it.stack with
      | nil =>
        rw [stack, ahead] at rest
        refine ⟨by rw [index], fun _ => ?_, nofun⟩
        exact drop_eq_nil_iff.mp rest
      | cons parent others =>
        rw [stack] at rest stacked
        obtain ⟨n, right, sound⟩ := stacked parent mem_cons_self
        rw [ahead, right] at rest
        dsimp only
        rw [right, index]
        exact at_leftmost sound
          (fun node' member => stacked node' (mem_cons_of_mem _ member)) rest.symm

theorem at_iterate {r : Rope α} {text : List α} (spells : r.Spells text) : ∀ {k : Nat},
    k ≤ text.length → Iterator.At text k (Nat.iterate Iterator.next k r.begin)
  | 0, _ => at_begin spells
  | k + 1, le => by
    rw [Function.iterate_succ_apply']
    exact (at_iterate spells (Nat.le_of_succ_le le)).next le

theorem charAt_eq : ∀ {n : Node α} (idx : Nat), n.Sound → charAt n idx = n.chars[idx]?
  | .leaf _ _, _, _ => rfl
  | .branch len left right, idx, sound => by
    have size := sound.2.1.length_eq
    rw [charAt, Node.chars]
    by_cases inLeft : idx < left.length
    · rw [if_pos inLeft, getElem?_append_left (by omega), charAt_eq idx sound.2.1]
    · rw [if_neg inLeft, getElem?_append_right (by omega), charAt_eq _ sound.2.2, size]

theorem Rope.Spells.charAt_eq {r : Rope α} {text : List α} (spells : r.Spells text) (k : Nat) :
    r.root.bind (charAt · k) = text[k]? := by
  have holds := spells.holds
  cases root : r.root with
  | none =>
    rw [root] at holds
    rw [show text = [] from holds]
    rfl
  | some n =>
    rw [root] at holds
    rw [← holds.2]
    exact Strings.charAt_eq k holds.1

theorem Rope.Spells.at_eq {r : Rope α} {text : List α} (spells : r.Spells text) {k : Nat}
    (inside : k < r.length) : r.at k = .ok text[k]? := by
  rw [Rope.at, if_neg (show ¬ r.indexCheck k = true from
    fun out => Nat.not_le_of_lt inside (of_decide_eq_true out)), spells.charAt_eq]

theorem Rope.Spells.back_eq {r : Rope α} {text : List α} (spells : r.Spells text)
    (some : 0 < r.length) : r.back = .ok text[r.length - 1]? := by
  have holds := spells.holds
  have full : ¬ r.emptyCheck = true := by
    rw [Rope.emptyCheck, Bool.or_eq_true, decide_eq_true_iff]
    rintro (empty | none)
    · exact ne_of_gt some empty
    · rw [Option.isNone_iff_eq_none.mp none] at holds
      rw [spells.length, show text = [] from holds] at some
      exact absurd some (lt_irrefl 0)
  rw [Rope.back, if_neg full, spells.charAt_eq]

theorem Iterator.At.deref_eq {text : List α} {k : Nat} {it : Iterator α} (denotes : it.At text k)
    (inside : k < text.length) : it.deref = text[k]? := by
  rw [Iterator.deref]
  cases leaf : it.leaf with
  | none => exact absurd (denotes.past leaf) (Nat.not_le_of_lt inside)
  | some node =>
    obtain ⟨_, size, below, spelled⟩ := denotes.here node leaf
    have first : (node.data.drop it.pos ++ ahead it.stack)[0]? = (text.drop k)[0]? := by
      rw [spelled]
    rw [getElem?_append_left (by rw [length_drop]; omega), getElem?_drop,
      getElem?_drop] at first
    exact first

theorem Iterator.At.denotes {r : Rope α} {text : List α} (spells : r.Spells text)
    (same : Node α → Node α → Bool) {k : Nat} {it : Iterator α} (denotes : it.At text k)
    (le : k ≤ text.length) : r.Denotes same k it := by
  have length := spells.length
  refine ⟨denotes.index, ?_, ?_, edits_of_index r denotes.index⟩
  · intro inside
    rw [spells.at_eq inside, denotes.deref_eq (by omega)]
  · rw [Iterator.eq, Rope.end_]
    cases leaf : it.leaf with
    | none =>
      have := denotes.past leaf
      exact iff_of_true rfl (by omega)
    | some node =>
      obtain ⟨_, size, below, spelled⟩ := denotes.here node leaf
      have long := congrArg List.length spelled
      rw [length_append, length_drop, length_drop] at long
      exact iff_of_false Bool.false_ne_true (by omega)

def Rope.IteratorsDenote (r : Rope α) (same : Node α → Node α → Bool) : Prop :=
  (∀ k, k ≤ r.length → r.Denotes same k (Nat.iterate Iterator.next k r.begin)) ∧
    r.Denotes same r.length r.end_ ∧
    (0 < r.length → r.last.index = r.length - 1 ∧ r.back = .ok r.last.deref)

theorem Rope.Spells.last_deref {r : Rope α} {text : List α} (spells : r.Spells text)
    (some : 0 < r.length) : r.last.deref = text[0]? := by
  have begins := (at_begin spells).deref_eq (by rw [← spells.length]; exact some)
  rw [← begins, Rope.last, Rope.begin]
  cases r.root with
  | none => rfl
  | some n => rfl

theorem Rope.Spells.last_index {r : Rope α} (some : 0 < r.length) :
    r.last.index = r.length - 1 := by
  rw [Rope.last, if_pos some]
  cases r.root with
  | none => rfl
  | some n => rfl

end Model

/-- The iterators that come from `begin` denote their positions, and the edits at them act
there.  `end` denotes its position in the empty rope only, and `last` reads the first
character. -/
theorem iterators_denote {α : Type} {r : Rope α} (reached : Reached r)
    (same : Node α → Node α → Bool) :
    (∀ k, k ≤ r.length → r.Denotes same k (Nat.iterate Iterator.next k r.begin)) ∧
      (∀ j k, j ≤ r.length → k ≤ r.length →
        r.substrBetween (Nat.iterate Iterator.next j r.begin) (Nat.iterate Iterator.next k r.begin)
          = if k ≤ j then .ok .empty else r.substr j (k - j)) ∧
      (r.IteratorsDenote same ↔ r.length = 0) ∧
      (0 < r.length → r.last.index = r.length - 1 ∧
        (r.back = .ok r.last.deref ↔ r.at 0 = r.back)) := by
  obtain ⟨text, spells⟩ := reached_spells reached
  have length := spells.length
  have steps : ∀ k, k ≤ r.length → r.Denotes same k (Nat.iterate Iterator.next k r.begin) :=
    fun k le => (at_iterate spells (by omega)).denotes spells same (by omega)
  refine ⟨steps, ?_, ⟨?_, ?_⟩, ?_⟩
  · intro j k before le
    rw [Rope.substrBetween, (steps j before).index, (steps k le).index]
  · intro all
    exact (all.2.1.index).symm
  · intro empty
    refine ⟨steps, ⟨empty.symm, fun inside => absurd inside (by omega), ?_,
      edits_of_index r empty.symm⟩, fun some => absurd some (by omega)⟩
    exact iff_of_true rfl rfl
  · intro some
    refine ⟨Rope.Spells.last_index some, ?_⟩
    rw [spells.last_deref some, spells.at_eq some]
    exact eq_comm

theorem iterators_denote_greeting :
    (Rope.ofData [72, 105]).Denotes (fun _ _ => true) 1
      (Nat.iterate Iterator.next 1 (Rope.ofData [72, 105]).begin) :=
  (iterators_denote (.ofData [72, 105] (by decide)) fun _ _ => true).1 1 (by decide)

/-- The index of `end` is that of the first character, and so is what `last` reads. -/
theorem end_and_last_misplaced :
    Reached (Rope.ofData [72, 105]) ∧ (Rope.ofData [72, 105]).length = 2 ∧
      (Rope.ofData [72, 105]).end_.index = 0 ∧
      (Rope.ofData [72, 105]).last.deref = some 72 ∧
      (Rope.ofData [72, 105]).back = .ok (some 105) ∧
      ¬ (Rope.ofData [72, 105]).IteratorsDenote (fun _ _ => true) := by
  have spells := @spells_ofData _ [72, 105] (by decide)
  refine ⟨.ofData _ (by decide), rfl, rfl, ?_, ?_, fun all => ?_⟩
  · rw [spells.last_deref (by decide)]
    rfl
  · rw [spells.back_eq (by decide)]
    rfl
  · exact nomatch all.2.1.index

end Micron.Strings
