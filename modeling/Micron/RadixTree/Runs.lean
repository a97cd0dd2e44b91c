import Micron.RadixTree.Insert

/-!
# Sequences of inserts

A key is found after a sequence of inserts unless, after its last insert, the first key that
goes on behind it with some character came: that insert takes the leaf flag from its node.
-/

set_option autoImplicit false

namespace Micron.RadixTree

open List

variable {C V : Type} [DecidableEq C]

section Spelling
omit [DecidableEq C]

theorem prefix_append_iff {q f z : List C} :
    q <+: f ++ z ↔ q <+: f ∨ ∃ r, q = f ++ r ∧ r <+: z := by
  constructor
  · intro starts
    rcases le_total q.length f.length with short | long
    · exact .inl (prefix_of_prefix_length_le starts (prefix_append f z) short)
    · obtain ⟨r, rfl⟩ := prefix_of_prefix_length_le (prefix_append f z) starts long
      exact .inr ⟨r, rfl, (prefix_append_right_inj f).mp starts⟩
  · rintro (within | ⟨r, rfl, starts⟩)
    · exact within.trans (prefix_append f z)
    · exact (prefix_append_right_inj f).mpr starts

variable {g h q : List C} {v : V} {leaf : Bool} {children more : List (Node C V)}

theorem spells_split : (Node.mk (g ++ h) v leaf children).Spells q ↔
    q <+: g ∨ ∃ r, q = g ++ r ∧ (Node.mk h v leaf children).Spells r := by
  simp only [Node.Spells, prefix_append_iff]
  constructor
  · rintro ((within | ⟨r, rfl, starts⟩) | ⟨r, rfl, below⟩)
    · exact .inl within
    · exact .inr ⟨r, rfl, .inl starts⟩
    · exact .inr ⟨h ++ r, append_assoc g h r, .inr ⟨r, rfl, below⟩⟩
  · rintro (within | ⟨_, rfl, starts | ⟨r, rfl, below⟩⟩)
    · exact .inl (.inl within)
    · exact .inl (.inr ⟨_, rfl, starts⟩)
    · exact .inr ⟨r, (append_assoc g h r).symm, below⟩

theorem spells_fresh {k : List C} : (Node.fresh k v).Spells q ↔ q <+: k := by
  rw [Node.fresh, Node.Spells]
  simp only [SpellsAmong, and_false, exists_false, or_false]

theorem spellsAmong_append :
    SpellsAmong (children ++ more) q ↔ SpellsAmong children q ∨ SpellsAmong more q := by
  induction children with
  | nil => rw [nil_append, SpellsAmong, false_or]
  | cons c rest ih => rw [cons_append, SpellsAmong, SpellsAmong, ih, or_assoc]

theorem spellsAmong_singleton {c : Node C V} : SpellsAmong [c] q ↔ c.Spells q := by
  rw [SpellsAmong, SpellsAmong, or_false]

/-- What becomes of a node whose children spell a text and its starts besides. -/
theorem spells_of_children {f z : List C} {v' : V} {leaf' : Bool}
    (below : ∀ r, SpellsAmong more r ↔ SpellsAmong children r ∨ r <+: z) :
    (Node.mk f v' leaf' more).Spells q ↔
      (Node.mk f v leaf children).Spells q ∨ q <+: f ++ z := by
  rw [Node.Spells, Node.Spells, prefix_append_iff]
  simp only [below]
  constructor
  · rintro (within | ⟨r, rfl, spelled | starts⟩)
    · exact .inl (.inl within)
    · exact .inl (.inr ⟨r, rfl, spelled⟩)
    · exact .inr (.inr ⟨r, rfl, starts⟩)
  · rintro ((within | ⟨r, rfl, spelled⟩) | within | ⟨r, rfl, starts⟩)
    · exact .inl within
    · exact .inr ⟨r, rfl, .inl spelled⟩
    · exact .inl within
    · exact .inr ⟨r, rfl, .inr starts⟩

end Spelling

mutual

/-- An insert adds the key and its starts to what a node spells. -/
theorem Node.insert_spells (t : Node C V) (k : List C) (v : V) (q : List C) :
    (t.insert k v).Spells q ↔ t.Spells q ∨ q <+: k := by
  obtain ⟨f, w, leaf, children⟩ := t
  cases meets f k with
  | behind f r =>
    cases r with
    | nil =>
      rw [append_nil, insert_self, Node.Spells, Node.Spells]
      exact ⟨.inl, fun spells => spells.elim id .inl⟩
    | cons b r =>
      rw [insert_behind]
      cases below : insertAmong children (b :: r) v with
      | none =>
        refine spells_of_children fun s => ?_
        rw [spellsAmong_append, spellsAmong_singleton, spells_fresh]
      | some descended =>
        exact spells_of_children fun s => insertAmong_spells children below s
  | within _ a x =>
    rw [insert_within, Node.Spells, spells_split]
    simp only [spellsAmong_singleton]
    exact ⟨fun spells => .inl spells, fun spells => spells.elim id .inl⟩
  | apart g a x b y differ =>
    rw [insert_apart _ _ _ _ _ _ _ differ, spells_split, prefix_append_iff, Node.Spells]
    simp only [SpellsAmong, or_false, spells_fresh]
    constructor
    · rintro (within | ⟨r, rfl, here | starts⟩)
      · exact .inl (.inl within)
      · exact .inl (.inr ⟨r, rfl, here⟩)
      · exact .inr (.inr ⟨r, rfl, starts⟩)
    · rintro ((within | ⟨r, rfl, here⟩) | within | ⟨r, rfl, starts⟩)
      · exact .inl within
      · exact .inr ⟨r, rfl, .inl here⟩
      · exact .inl within
      · exact .inr ⟨r, rfl, .inr starts⟩

theorem insertAmong_spells (children : List (Node C V)) {k : List C} {v : V}
    {descended : List (Node C V)} (below : insertAmong children k v = some descended)
    (q : List C) : SpellsAmong descended q ↔ SpellsAmong children q ∨ q <+: k := by
  cases children with
  | nil => cases below
  | cons c rest =>
    rw [insertAmong] at below
    split at below
    next same =>
      cases below
      rw [SpellsAmong, SpellsAmong, Node.insert_spells c k v q, or_right_comm]
    next other =>
      obtain ⟨deeper, below_rest, rfl⟩ := Option.map_eq_some_iff.mp below
      rw [SpellsAmong, SpellsAmong, insertAmong_spells rest below_rest q, or_assoc]

end

omit [DecidableEq C] in
theorem wellFormedAmong_singleton {c : Node C V} (nonempty : c.fragment ≠ [])
    (formed : c.WellFormed) : WellFormedAmong [c] := by
  rw [WellFormedAmong]
  exact ⟨nonempty, formed, fun d inside => absurd inside not_mem_nil, trivial⟩

omit [DecidableEq C] in
theorem wellFormedAmong_append {children : List (Node C V)} {c : Node C V}
    (formed : WellFormedAmong children) (nonempty : c.fragment ≠ []) (formed_c : c.WellFormed)
    (distinct : ∀ d ∈ children, d.fragment.head? ≠ c.fragment.head?) :
    WellFormedAmong (children ++ [c]) := by
  induction children with
  | nil => exact wellFormedAmong_singleton nonempty formed_c
  | cons e rest ih =>
    rw [WellFormedAmong] at formed
    obtain ⟨nonempty_e, formed_e, distinct_e, formed_rest⟩ := formed
    rw [cons_append, WellFormedAmong]
    refine ⟨nonempty_e, formed_e, fun d inside => ?_,
      ih formed_rest fun d inside => distinct d (mem_cons_of_mem e inside)⟩
    rcases mem_append.mp inside with old | new
    · exact distinct_e d old
    · rw [mem_singleton.mp new]
      exact (distinct e (mem_cons_self ..)).symm

/-- The children keep the characters that they start with. -/
theorem insertAmong_heads {children descended : List (Node C V)} {k : List C} {v : V}
    (formed : WellFormedAmong children) (below : insertAmong children k v = some descended) :
    descended.map (fun d => d.fragment.head?) = children.map fun d => d.fragment.head? := by
  induction children generalizing descended with
  | nil => cases below
  | cons c rest ih =>
    rw [insertAmong] at below
    split at below
    next same =>
      cases below
      rw [map_cons, map_cons, insert_head v formed.1 same]
    next other =>
      obtain ⟨deeper, below_rest, rfl⟩ := Option.map_eq_some_iff.mp below
      rw [map_cons, map_cons, ih formed.2.2.2 below_rest]

theorem insert_nonempty {c : Node C V} {k : List C} (v : V) (nonempty : c.fragment ≠ [])
    (same : c.fragment.head? = k.head?) : (c.insert k v).fragment ≠ [] := by
  intro empty
  have heads := insert_head v nonempty same
  rw [empty, head?_nil, eq_comm, head?_eq_none_iff] at heads
  exact nonempty heads

mutual

theorem Node.insert_wellFormed (t : Node C V) (formed : t.WellFormed) (k : List C) (v : V) :
    (t.insert k v).WellFormed := by
  obtain ⟨f, w, leaf, children⟩ := t
  rw [Node.WellFormed] at formed
  cases meets f k with
  | behind f r =>
    cases r with
    | nil =>
      rw [append_nil, insert_self]
      exact formed
    | cons b r =>
      rw [insert_behind]
      cases below : insertAmong children (b :: r) v with
      | none =>
        exact wellFormedAmong_append formed (cons_ne_nil b r) trivial
          (insertAmong_eq_none_iff.mp below)
      | some descended => exact insertAmong_wellFormed children formed below
  | within _ a x =>
    rw [insert_within]
    exact wellFormedAmong_singleton (cons_ne_nil a x) formed
  | apart g a x b y differ =>
    rw [insert_apart _ _ _ _ _ _ _ differ]
    have split : WellFormedAmong [Node.mk (a :: x) w leaf children] :=
      wellFormedAmong_singleton (cons_ne_nil a x) formed
    refine wellFormedAmong_append split (cons_ne_nil b y) trivial fun d inside heads => ?_
    rw [mem_singleton.mp inside] at heads
    exact differ (Option.some.inj heads)

theorem insertAmong_wellFormed (children : List (Node C V)) (formed : WellFormedAmong children)
    {k : List C} {v : V} {descended : List (Node C V)}
    (below : insertAmong children k v = some descended) : WellFormedAmong descended := by
  cases children with
  | nil => cases below
  | cons c rest =>
    rw [WellFormedAmong] at formed
    obtain ⟨nonempty, formed_c, distinct, formed_rest⟩ := formed
    rw [insertAmong] at below
    split at below
    next same =>
      cases below
      refine ⟨insert_nonempty v nonempty same, Node.insert_wellFormed c formed_c k v, ?_,
        formed_rest⟩
      rw [insert_head v nonempty same]
      exact distinct
    next other =>
      obtain ⟨deeper, below_rest, rfl⟩ := Option.map_eq_some_iff.mp below
      refine ⟨nonempty, formed_c, fun d inside heads => ?_,
        insertAmong_wellFormed rest formed_rest below_rest⟩
      have old : c.fragment.head? ∈ rest.map fun d => d.fragment.head? := by
        rw [← insertAmong_heads formed_rest below_rest, ← heads]
        exact mem_map_of_mem inside
      obtain ⟨e, inside_rest, same_head⟩ := mem_map.mp old
      exact distinct e inside_rest same_head

end

/-! ## Runs -/

/-- What a tree spells; an empty one spells nothing. -/
def Spells : Option (Node C V) → List C → Prop
  | none, _ => False
  | some root, q => root.Spells q

theorem spells_insert (root : Option (Node C V)) (k : List C) (v : V) (q : List C) :
    Spells (insert root k v) q ↔ Spells root q ∨ q <+: k := by
  cases root with
  | none =>
    rw [Spells, false_or]
    exact spells_fresh (v := v)
  | some root => exact root.insert_spells k v q

theorem insert_answers (root : Option (Node C V)) (formed : ∀ t ∈ root, t.WellFormed) (k : List C)
    (v : V) : Answers (Spells root) (find root) (find (insert root k v)) k v := by
  cases root with
  | none =>
    have fresh : ∀ q, find (insert none k v) q = if q = k then some v else none :=
      fun q => find_fresh k q v
    refine ⟨by rw [fresh, if_pos rfl], ?_, fun q other _ => by rw [fresh, if_neg other]; rfl⟩
    rintro q ⟨b, r, rfl, _⟩
    rw [fresh, if_neg fun same => by simp at same]
  | some root => exact root.insert_answers (formed root rfl) k v

theorem inserted_append (calls : List (List C × V)) (k : List C) (v : V) :
    inserted (calls ++ [(k, v)]) = insert (inserted calls) k v := by
  rw [inserted, foldl_append]
  rfl

theorem inserted_wellFormed (calls : List (List C × V)) :
    ∀ t ∈ inserted calls, t.WellFormed := by
  induction calls using List.reverseRecOn with
  | nil => exact fun t inside => by cases inside
  | append_singleton calls call ih =>
    obtain ⟨k, v⟩ := call
    rw [inserted_append]
    intro t inside
    cases root : inserted calls with
    | none =>
      rw [root] at inside
      cases inside
      trivial
    | some old =>
      rw [root] at inside
      cases inside
      exact old.insert_wellFormed (ih old root) k v

/-- A tree spells the starts of the keys that were inserted. -/
theorem spells_inserted (calls : List (List C × V)) (q : List C) :
    Spells (inserted calls) q ↔ ∃ key ∈ calls.map Prod.fst, q <+: key := by
  induction calls using List.reverseRecOn with
  | nil => exact ⟨fun none => none.elim, fun ⟨_, inside, _⟩ => by cases inside⟩
  | append_singleton calls call ih =>
    obtain ⟨k, v⟩ := call
    rw [inserted_append, spells_insert, ih, map_append]
    constructor
    · rintro (⟨key, inside, starts⟩ | starts)
      · exact ⟨key, mem_append_left _ inside, starts⟩
      · exact ⟨k, mem_append_right _ (mem_singleton.mpr rfl), starts⟩
    · rintro ⟨key, inside, starts⟩
      rcases mem_append.mp inside with old | new
      · exact .inl ⟨key, old, starts⟩
      · rw [mem_singleton.mp new] at starts
        exact .inr starts

def lastInsert (calls : List (List C × V)) (q : List C) : Option V :=
  (calls.reverse.find? fun call => decide (call.1 = q)).map Prod.snd

theorem lastInsert_append (calls : List (List C × V)) (k : List C) (v : V) (q : List C) :
    lastInsert (calls ++ [(k, v)]) q = if k = q then some v else lastInsert calls q := by
  rw [lastInsert, reverse_append, reverse_singleton, singleton_append,
    find?_cons]
  by_cases same : k = q
  · simp [same]
  · simp [same, lastInsert]

theorem lastInsert_eq_none_iff (calls : List (List C × V)) (q : List C) :
    lastInsert calls q = none ↔ q ∉ calls.map Prod.fst := by
  rw [lastInsert, Option.map_eq_none_iff, find?_eq_none]
  simp only [mem_reverse, decide_eq_true_eq, mem_map, not_exists, not_and]

/-- After the last insert of `q` came the first key that goes on behind it with its next
character. -/
def Buried (calls : List (List C × V)) (q : List C) : Prop :=
  ∃ earlier call later, calls = earlier ++ call :: later ∧ q ∈ earlier.map Prod.fst ∧
    q ∉ later.map Prod.fst ∧
    ∃ b r, call.1 = q ++ b :: r ∧ ∀ key ∈ earlier.map Prod.fst, ¬(q ++ [b]) <+: key

omit [DecidableEq C] in
theorem Buried.mem {calls : List (List C × V)} {q : List C} (buried : Buried calls q) :
    q ∈ calls.map Prod.fst := by
  obtain ⟨earlier, call, later, rfl, inside, _⟩ := buried
  rw [map_append]
  exact mem_append_left _ inside

theorem hides_iff (calls : List (List C × V)) (k q : List C) :
    Hides (Spells (inserted calls)) k q ↔
      ∃ b r, k = q ++ b :: r ∧ ∀ key ∈ calls.map Prod.fst, ¬(q ++ [b]) <+: key := by
  simp only [Hides, spells_inserted, not_exists, not_and]

omit [DecidableEq C] in
/-- The last call buries a key, or an earlier one did and the last one is not its insert. -/
theorem buried_append (calls : List (List C × V)) (k : List C) (v : V) (q : List C) :
    Buried (calls ++ [(k, v)]) q ↔ (Buried calls q ∧ q ≠ k) ∨
      (q ∈ calls.map Prod.fst ∧
        ∃ b r, k = q ++ b :: r ∧ ∀ key ∈ calls.map Prod.fst, ¬(q ++ [b]) <+: key) := by
  constructor
  · rintro ⟨earlier, call, later, split, before, after, extends_q⟩
    rcases eq_nil_or_concat later with rfl | ⟨later, last, rfl⟩
    · obtain ⟨rfl, same⟩ := append_inj' split rfl
      cases same
      exact .inr ⟨before, extends_q⟩
    · rw [concat_eq_append, ← cons_append, ← append_assoc] at split
      obtain ⟨rfl, same⟩ := append_inj' split rfl
      cases same
      rw [concat_eq_append, map_append, mem_append, not_or] at after
      refine .inl ⟨⟨earlier, call, later, rfl, before, after.1, extends_q⟩, ?_⟩
      exact fun same => after.2 (mem_singleton.mpr same)
  · rintro (⟨⟨earlier, call, later, rfl, before, after, extends_q⟩, other⟩ | ⟨inside, extends_q⟩)
    · refine ⟨earlier, call, later ++ [(k, v)], by simp, before, ?_, extends_q⟩
      rw [map_append, mem_append, not_or]
      exact ⟨after, fun same => other (mem_singleton.mp same)⟩
    · exact ⟨calls, (k, v), [], rfl, inside, not_mem_nil, extends_q⟩

theorem find_inserted (calls : List (List C × V)) (q : List C) :
    (Buried calls q → find (inserted calls) q = none) ∧
      (¬Buried calls q → find (inserted calls) q = lastInsert calls q) := by
  induction calls using List.reverseRecOn with
  | nil => exact ⟨fun _ => rfl, fun _ => rfl⟩
  | append_singleton calls call ih =>
    obtain ⟨k, v⟩ := call
    have answers := insert_answers (inserted calls) (inserted_wellFormed calls) k v
    rw [inserted_append, buried_append, lastInsert_append]
    by_cases same : k = q
    · subst same
      rw [if_pos rfl, answers.stored]
      refine ⟨?_, fun _ => rfl⟩
      rintro (⟨_, other⟩ | ⟨_, b, r, longer, _⟩)
      · exact absurd rfl other
      · simp at longer
    · rw [if_neg same, ← hides_iff]
      by_cases hides : Hides (Spells (inserted calls)) k q
      · rw [answers.hidden q hides]
        refine ⟨fun _ => rfl, fun shown => ?_⟩
        rw [not_or, not_and] at shown
        exact ((lastInsert_eq_none_iff calls q).mpr fun inside => shown.2 ⟨inside, hides⟩).symm
      · rw [answers.kept q (Ne.symm same) hides]
        refine ⟨fun buried => ih.1 ?_, fun shown => ih.2 fun buried => ?_⟩
        · exact buried.elim (fun old => old.1) fun new => absurd new.2 hides
        · exact shown (.inl ⟨buried, Ne.symm same⟩)

/-- A text is answered with the value of its last insert if and only if it was not buried. -/
theorem radix_tree_keeps_key_iff (calls : List (List C × V)) (q : List C) :
    find (inserted calls) q = lastInsert calls q ↔ ¬Buried calls q := by
  refine ⟨fun right buried => ?_, (find_inserted calls q).2⟩
  rw [(find_inserted calls q).1 buried] at right
  exact (lastInsert_eq_none_iff calls q).mp right.symm buried.mem

/-- The key "a" is lost when "ab" comes after it. -/
theorem radix_tree_loses_prefix :
    find (inserted [(['a'], 1), (['a', 'b'], 2)]) ['a'] = none ∧
      lastInsert [(['a'], 1), (['a', 'b'], 2)] ['a'] = some 1 := by
  decide +kernel

end Micron.RadixTree
