import Micron.Rtree.Runs

/-!
# The entry that an erasure removes

`erase(b, v)` removes the first stored entry, in the order of `for_each`, that meets the box `b`
and has the value `v`.  It is the entry that the call names if and only if it has the box `b`;
an entry with an empty box meets no box and is never removed.
-/

set_option autoImplicit false

namespace Micron.Rtree

open List Option Bool

variable {F V : Type} [Coord F] {D M h : Nat}

section First
variable [BEq V] (b : Box F D) (v : V)

def firstMatch (t : RTree F D V) : Option (Box F D × V) := t.forEach.find? (matching b v)

theorem eraseLeaf_first {es es' : List (Box F D × V)} (removed : eraseLeaf b v es = some es') :
    ∃ e, es.find? (matching b v) = some e ∧ (es : Multiset (Box F D × V)) = ↑es' + {e} := by
  induction es generalizing es' with
  | nil => cases removed
  | cons e es ih =>
    have step : eraseLeaf b v (e :: es) =
        if matching b v e then some es else (eraseLeaf b v es).map (e :: ·) := rfl
    rw [step] at removed
    rw [find?_cons]
    cases hit : matching b v e with
    | true =>
      rw [if_pos hit] at removed
      cases removed
      refine ⟨e, rfl, ?_⟩
      rw [← Multiset.cons_coe, ← Multiset.singleton_add, add_comm]
    | false =>
      rw [if_neg (eq_false_iff.mp hit)] at removed
      obtain ⟨rest, deeper, rfl⟩ := map_eq_some_iff.mp removed
      obtain ⟨found, first, split⟩ := ih deeper
      refine ⟨found, first, ?_⟩
      rw [← Multiset.cons_coe, split, ← Multiset.cons_coe, Multiset.cons_add]

theorem find_append_missed {α : Type} {p : α → Bool} {xs ys : List α}
    (missed : ∀ x ∈ xs, p x = false) : (xs ++ ys).find? p = ys.find? p := by
  have none : xs.find? p = none := by
    rw [find?_eq_none]
    exact fun x inside => eq_false_iff.mp (missed x inside)
  rw [find?_append, none, none_or]

/-- The loop over the kids removes the first match of the first kid that has one. -/
theorem eraseKids_first {kids kids' : List (Box F D × Node F D V)}
    {orphans : List (Box F D × V)}
    (each : ∀ p ∈ kids, Covers p.1 p.2 ∧ Good M h p.2)
    (search : ∀ p ∈ kids, ∀ n' orphans, eraseRec M b v p.2 = some (n', orphans) →
      ∃ e, (collectData p.2).find? (matching b v) = some e ∧ stored p.2 = stored n' + ↑orphans + {e})
    (removed : eraseKids M b v kids = some (kids', orphans)) :
    ∃ e, (collectKids kids).find? (matching b v) = some e ∧
      stored (.internal kids) = stored (.internal kids') + ↑orphans + {e} := by
  induction kids generalizing kids' with
  | nil => cases removed
  | cons p kids ih =>
    obtain ⟨mbr, kid⟩ := p
    obtain ⟨covers, kidGood⟩ := each (mbr, kid) mem_cons_self
    have goOn : (∀ e ∈ collectData kid, matching b v e = false) →
        (eraseKids M b v kids).map (fun r => ((mbr, kid) :: r.1, r.2)) =
          some (kids', orphans) →
        ∃ e, (collectKids ((mbr, kid) :: kids)).find? (matching b v) = some e ∧
          stored (.internal ((mbr, kid) :: kids)) =
            stored (.internal kids') + ↑orphans + {e} := by
      intro none later
      obtain ⟨⟨rest, orphans'⟩, deeper, same⟩ := map_eq_some_iff.mp later
      cases same
      obtain ⟨e, first, split⟩ := ih (fun p' member => each p' (mem_cons_of_mem _ member))
        (fun p' member => search p' (mem_cons_of_mem _ member)) deeper
      refine ⟨e, ?_, ?_⟩
      · rw [collectKids, find_append_missed none, first]
      · rw [stored_internal, map_cons, sum_cons, ← stored_internal, split,
          stored_internal, stored_internal, map_cons, sum_cons]
        abel
    rw [eraseKids] at removed
    cases hit : mbr.intersects b with
    | false =>
      rw [hit] at removed
      refine goOn (fun e member => ?_) removed
      rw [eq_false_iff]
      intro found
      have reached := Box.intersects_of_contains
        (kidGood.contains_stored covers e member) (and_eq_true_iff.mp found).1
      rw [hit] at reached
      cases reached
    | true =>
      rw [hit] at removed
      cases result : eraseRec M b v kid with
      | none =>
        rw [result] at removed
        obtain ⟨_, none⟩ | ⟨n', orphans', found, _⟩ := eraseRec_spec b v kidGood
        · exact goOn none removed
        · rw [result] at found
          cases found
      | some r =>
        obtain ⟨n', orphans'⟩ := r
        obtain ⟨e, first, split⟩ :=
          search (mbr, kid) mem_cons_self n' orphans' result
        refine ⟨e, ?_, ?_⟩
        · rw [collectKids, find?_append, first]
          rfl
        · rw [result] at removed
          dsimp only at removed
          rw [Bool.not_true, if_neg Bool.false_ne_true] at removed
          rw [stored_internal, map_cons, sum_cons, ← stored_internal]
          rw [split]
          split at removed
          next small =>
            cases removed
            rw [← Multiset.coe_add,
              show (↑(collectData n') : Multiset (Box F D × V)) = stored n' from rfl]
            abel
          next filled =>
            cases removed
            rw [stored_internal, stored_internal, map_cons, sum_cons]
            abel

theorem eraseRec_first {n n' : Node F D V} {orphans : List (Box F D × V)} (good : Good M h n)
    (removed : eraseRec M b v n = some (n', orphans)) :
    ∃ e, (collectData n).find? (matching b v) = some e ∧
      stored n = stored n' + ↑orphans + {e} := by
  induction h generalizing n n' orphans with
  | zero =>
    cases n with
    | internal => cases good
    | leaf es =>
      obtain ⟨es', shorter, same⟩ := map_eq_some_iff.mp removed
      cases same
      obtain ⟨e, first, split⟩ := eraseLeaf_first b v shorter
      refine ⟨e, first, ?_⟩
      rw [stored_leaf, stored_leaf, Multiset.coe_nil, add_zero, split]
  | succ h ih =>
    cases n with
    | leaf => cases good
    | internal kids =>
      obtain ⟨_, each⟩ := good
      obtain ⟨⟨kids', orphans'⟩, below, same⟩ := map_eq_some_iff.mp removed
      cases same
      exact eraseKids_first b v (fun p member => (each p member).2)
        (fun p member n' orphans found => ih (each p member).2.2 found) below

end First

section Reachable
variable {t t' : RTree F D V} {S : Multiset (Box F D × V)} {b : Box F D} {v : V}

def SingleLeaf (M : Nat) (t : RTree F D V) : Prop :=
  ∀ n, t.root = some n → ∃ es, n = .leaf es ∧ es.length ≤ M

theorem SingleLeaf.treeGood (single : SingleLeaf M t) : TreeGood M t ↑t.forEach := by
  refine ⟨fun n root => ?_, rfl⟩
  obtain ⟨es, rfl, bound⟩ := single n root
  exact ⟨0, bound, fun impossible => absurd impossible (lt_irrefl 0)⟩

/-- A fan-out whose counts wrap leaves no place to split a leaf at. -/
theorem splitLeaf_of_wrapped (fits : M < 65536) (wrapped : ¬Fanout M) (room : 0 < cap M)
    (es : List (Box F D × V)) : splitLeaf M es = none := by
  have few : M < 3 := by
    by_contra many
    have last : M = 65535 := by
      by_contra other
      exact wrapped ⟨by omega, by omega⟩
    rw [last] at room
    exact absurd room (by decide)
  have points : splitPoints (minf M) (cap M) = [] := by
    rcases (by omega : M = 0 ∨ M = 1 ∨ M = 2) with rfl | rfl | rfl <;> decide
  rw [splitLeaf, splitEntries, chooseSplit, points]
  cases bestAxis (minf M) (cap M) (es.map Prod.fst) with
  | none => rfl
  | some axis => rfl

/-- With such a fan-out an insert either overruns the leaf or appends to it. -/
theorem insert_of_wrapped (fits : M < 65536) (wrapped : ¬Fanout M) (single : SingleLeaf M t)
    (made : t.insert M b v = some t') : SingleLeaf M t' := by
  obtain ⟨es, root, _⟩ : ∃ es, t.root.getD (.leaf []) = .leaf es ∧ es.length ≤ M := by
    cases root : t.root with
    | none => exact ⟨[], rfl, Nat.zero_le M⟩
    | some n => exact single n root
  rw [RTree.insert, root, RTree.insertFromRoot, bind_some, insertDescend, insertLeaf] at made
  by_cases room : es.length < cap M
  · rw [if_pos room] at made
    by_cases fit : (es ++ [(b, v)]).length ≤ M
    · rw [if_pos fit] at made
      cases made
      intro n root
      cases root
      exact ⟨_, rfl, fit⟩
    · rw [if_neg fit, Bool.not_true, Bool.and_false, if_neg Bool.false_ne_true,
        splitLeaf_of_wrapped fits wrapped (by omega)] at made
      cases made
  · rw [if_neg room] at made
    cases made

variable [BEq V]

theorem erase_of_singleLeaf (single : SingleLeaf M t) {removed : Bool}
    (made : t.erase M b v = some (t', removed)) : SingleLeaf M t' := by
  rw [RTree.erase] at made
  cases root : t.root with
  | none =>
    rw [root] at made
    cases made
    exact single
  | some n =>
    obtain ⟨es, rfl, bound⟩ := single n root
    have below : eraseRec M b v (.leaf es) = (eraseLeaf b v es).map fun es => (.leaf es, []) := by
      rw [eraseRec]
    rw [root] at made
    dsimp only at made
    rw [below] at made
    cases shorter : eraseLeaf b v es with
    | none =>
      rw [shorter] at made
      cases made
      exact fun n root => ⟨es, (Option.some.inj root).symm, bound⟩
    | some es' =>
      rw [shorter] at made
      cases made
      obtain ⟨e, _, split⟩ := eraseLeaf_first b v shorter
      have lengths := congrArg Multiset.card split
      rw [Multiset.card_add, Multiset.coe_card, Multiset.coe_card,
        Multiset.card_singleton] at lengths
      intro n root
      cases es' with
      | nil => cases root
      | cons e es' =>
        cases root
        exact ⟨_, rfl, by omega⟩

/-- Every tree that calls lead to is good, or is a single leaf of a fan-out that wraps. -/
theorem run_good (maxOverride : Nat) (axes : 2 ≤ D) (ops : List (Op F D V))
    (reached : run maxOverride ops = some t) :
    (Fanout (maxFanout maxOverride) ∧ ∃ S, TreeGood (maxFanout maxOverride) t S ∧
      t.size = Multiset.card S) ∨ SingleLeaf (maxFanout maxOverride) t := by
  have fits : maxFanout maxOverride < 65536 := Nat.mod_lt _ (by decide)
  generalize same : maxFanout maxOverride = M at fits
  rw [run, same] at reached
  by_cases fanout : Fanout M
  · have start : TreeGood M (RTree.empty : RTree F D V) 0 := ⟨fun _ root => (by cases root), rfl⟩
    obtain ⟨t', S, result, _, good, counted⟩ :=
      run_spec fanout (lt_of_lt_of_le (by decide) axes) ops start rfl
    rw [reached] at result
    cases result
    exact .inl ⟨fanout, S, good, counted⟩
  · refine .inr ?_
    have start : SingleLeaf M (RTree.empty : RTree F D V) := fun _ root => by cases root
    generalize (RTree.empty : RTree F D V) = t₀ at start reached
    induction ops generalizing t₀ with
    | nil =>
      cases reached
      exact start
    | cons op ops ih =>
      obtain ⟨t₁, step, rest⟩ := bind_eq_some_iff.mp reached
      refine ih t₁ ?_ rest
      cases op with
      | insert b v => exact insert_of_wrapped fits fanout start step
      | erase b v =>
        obtain ⟨⟨t₂, removed⟩, made, same⟩ := map_eq_some_iff.mp step
        cases same
        exact erase_of_singleLeaf start made

/-! ## The named entry -/

/-- What a call of `erase` does, by the entry that it meets first. -/
inductive Outcome (M : Nat) (t : RTree F D V) (b : Box F D) (v : V) : Prop where
  | missed (t' : RTree F D V) (first : firstMatch b v t = none)
      (result : t.erase M b v = some (t', false)) (same : t'.forEach = t.forEach)
  | removed (t' : RTree F D V) (e : Box F D × V) (first : firstMatch b v t = some e)
      (result : t.erase M b v = some (t', true))
      (split : (t.forEach : Multiset (Box F D × V)) = ↑t'.forEach + {e})

omit [Coord F] [BEq V] in
theorem forEach_collapse (n : Node F D V) (size : Nat) (did : Bool) (reins : List (Box F D × V)) :
    ((⟨RTree.collapse n, size, did, reins⟩ : RTree F D V).forEach : Multiset (Box F D × V)) =
      stored n := by
  rw [← collapse_content n, RTree.forEach]
  cases RTree.collapse n with
  | none => rfl
  | some n' => rfl

/-- The outcome, where orphans go back into the tree. -/
theorem outcome_of_returned (good : TreeGood M t S)
    (returned : ∀ n n' orphans, t.root = some n → eraseRec M b v n = some (n', orphans) →
      orphans ≠ [] → ∃ t', RTree.insertOrphans M
        (⟨RTree.collapse n', t.size - 1, true, []⟩ : RTree F D V) orphans = some t' ∧
        (t'.forEach : Multiset (Box F D × V)) = stored n' + ↑orphans) :
    Outcome M t b v := by
  have erased := RTree.erase.eq_def M t b v
  cases root : t.root with
  | none =>
    rw [root] at erased
    refine .missed t ?_ erased rfl
    rw [firstMatch, forEach_none root]
    rfl
  | some n =>
    obtain ⟨h, rootGood, _⟩ := good.root n root
    have whole : t.forEach = collectData n := by
      rw [RTree.forEach, root]
    rw [root] at erased
    dsimp only at erased
    cases result : eraseRec M b v n with
    | none =>
      rw [result] at erased
      refine .missed _ ?_ erased whole.symm
      obtain ⟨_, none⟩ | ⟨n', orphans, found, _⟩ := eraseRec_spec b v rootGood
      · rw [firstMatch, whole, find?_eq_none]
        exact fun e member => eq_false_iff.mp (none e member)
      · rw [result] at found
        cases found
    | some r =>
      obtain ⟨n', orphans⟩ := r
      rw [result] at erased
      dsimp only at erased
      obtain ⟨e, first, split⟩ := eraseRec_first b v rootGood result
      have first_here : firstMatch b v t = some e := by
        rw [firstMatch, whole, first]
      by_cases alone : orphans.isEmpty = true
      · rw [if_pos alone] at erased
        refine .removed _ e first_here erased ?_
        rw [forEach_collapse, whole]
        rwa [isEmpty_iff.mp alone, Multiset.coe_nil, add_zero] at split
      · rw [if_neg alone] at erased
        have some_orphan : orphans ≠ [] := fun none => alone (isEmpty_iff.mpr none)
        obtain ⟨t', back, content⟩ := returned n n' orphans root result some_orphan
        rw [back] at erased
        refine .removed t' e first_here erased ?_
        rw [content, whole]
        exact split

theorem run_outcome (maxOverride : Nat) (axes : 2 ≤ D) (ops : List (Op F D V))
    (reached : run maxOverride ops = some t) (b : Box F D) (v : V) :
    Outcome (maxFanout maxOverride) t b v := by
  rcases run_good maxOverride axes ops reached with ⟨fanout, S, good, _⟩ | single
  · refine outcome_of_returned good fun n n' orphans root result _ => ?_
    obtain ⟨h, rootGood, two⟩ := good.root n root
    obtain ⟨missed, _⟩ | ⟨_, _, found, erased⟩ := eraseRec_spec b v rootGood
    · rw [result] at missed
      cases missed
    · rw [result] at found
      cases found
      have shrunk := erased.shrunk
      have kept := collapse_good fanout erased.good (fun deep => by have count := two deep; omega)
      have start : TreeGood (maxFanout maxOverride)
          (⟨RTree.collapse n', t.size - 1, true, []⟩ : RTree F D V) (stored n') :=
        ⟨kept, forEach_collapse n' _ _ _⟩
      obtain ⟨t', back, good', _⟩ :=
        insertOrphans_spec fanout (lt_of_lt_of_le (by decide) axes) start rfl orphans
      exact ⟨t', back, good'.content⟩
  · refine outcome_of_returned single.treeGood fun n n' orphans root result some_orphan => ?_
    obtain ⟨es, rfl, _⟩ := single n root
    obtain ⟨_, _, same⟩ := map_eq_some_iff.mp result
    cases same
    exact absurd rfl some_orphan

end Reachable

/-- What the name of `erase(b, v)` promises on the tree `t`. -/
def RemovesNamed [BEq V] (M : Nat) (t : RTree F D V) (b : Box F D) (v : V) : Prop :=
  ∃ t' removed, t.erase M b v = some (t', removed) ∧
    ((b, v) ∈ t.forEach → removed = true ∧
      (t.forEach : Multiset (Box F D × V)) = ↑t'.forEach + {(b, v)}) ∧
    ((b, v) ∉ t.forEach → removed = false ∧
      (t'.forEach : Multiset (Box F D × V)) = ↑t.forEach)

/-- In every reachable tree `erase(b, v)` removes the entry that it names, or reports that there
is none, if and only if the first entry in the order of `for_each` that meets `b` and has the
value `v` has the box `b`, or no entry does so and `(b, v)` is not stored. -/
theorem rtree_erase_removes_named_iff [DecidableEq V] (maxOverride : Nat) (axes : 2 ≤ D)
    (ops : List (Op F D V)) (t : RTree F D V) (reached : run maxOverride ops = some t)
    (b : Box F D) (v : V) :
    RemovesNamed (maxFanout maxOverride) t b v ↔
      match t.forEach.find? fun e => e.1.intersects b && e.2 == v with
      | some e => e.1 = b
      | none => (b, v) ∉ t.forEach := by
  rw [show (t.forEach.find? fun e => e.1.intersects b && e.2 == v) = firstMatch b v t from rfl]
  cases run_outcome maxOverride axes ops reached b v with
  | missed t' first result same =>
    rw [first]
    constructor
    · rintro ⟨t₁, removed, result', stored, _⟩ member
      rw [result] at result'
      cases result'
      cases (stored member).1
    · intro absent
      exact ⟨t', false, result, fun member => absurd member absent, fun _ => ⟨rfl, by rw [same]⟩⟩
  | removed t' e first result split =>
    rw [first]
    have value : e.2 = v := by
      have hit := find?_some first
      exact eq_of_beq (and_eq_true_iff.mp hit).2
    have inside : e ∈ t.forEach := mem_of_find?_eq_some first
    constructor
    · rintro ⟨t₁, removed, result', stored, absent⟩
      rw [result] at result'
      cases result'
      by_cases member : (b, v) ∈ t.forEach
      · have named := split.symm.trans (stored member).2
        exact congrArg Prod.fst (Multiset.singleton_inj.mp (add_left_cancel named))
      · cases (absent member).1
    · intro box
      have named : e = (b, v) := Prod.ext box value
      rw [named] at split inside
      exact ⟨t', true, result, fun _ => ⟨rfl, split⟩, fun absent => absurd inside absent⟩

def square (lo hi : ℚ) : Box ℚ 2 := ⟨fun _ => lo, fun _ => hi⟩

/-- Two squares that meet and hold one value, in a single leaf. -/
def twoSquares : RTree ℚ 2 Nat :=
  ⟨some (.leaf [(square 0 4, 7), (square 2 6, 7)]), 2, false, []⟩

theorem run_twoSquares :
    run 0 [.insert (square 0 4) 7, .insert (square 2 6) 7] = some twoSquares := rfl

theorem rtree_erase_removes_named_first : RemovesNamed (maxFanout 0) twoSquares (square 0 4) 7 :=
  (rtree_erase_removes_named_iff 0 (by decide) _ twoSquares run_twoSquares (square 0 4) 7).mpr rfl

/-- `erase` of the second square removes the first. -/
theorem rtree_erase_removes_other :
    run 0 [.insert (square 0 4) 7, .insert (square 2 6) 7] = some twoSquares ∧
      ¬RemovesNamed (maxFanout 0) twoSquares (square 2 6) 7 := by
  refine ⟨run_twoSquares, ?_⟩
  rintro ⟨t', removed, result, stored, _⟩
  cases result
  have kept : (square 0 4, 7) ∈ ([(square 2 6, 7)] : List (Box ℚ 2 × Nat)) ++ [(square 2 6, 7)] := by
    have split := (stored (mem_cons_of_mem _ (mem_singleton.mpr rfl))).2
    have inside : (square 0 4, 7) ∈ (twoSquares.forEach : Multiset (Box ℚ 2 × Nat)) :=
      Multiset.mem_coe.mpr mem_cons_self
    rw [split] at inside
    exact mem_append.mpr (Multiset.mem_add.mp inside)
  have corner : (0 : ℚ) = 2 := by
    have same : (square 0 4, 7) = (square 2 6, 7) := by simpa using kept
    exact congrFun (congrArg (fun e => e.1.minCorner) same) 0
  exact absurd corner (by decide)

end Micron.Rtree
