import Mathlib.Data.Set.Card
import Mathlib.Tactic.Abel
import Micron.Rtree.Choice

/-!
# Insertion into the R*-tree

Every descent keeps the shape of the tree and the covering boxes, and loses no
entry: what leaves a leaf stands in `__reins`, what a split takes away stands in
the new sibling.
-/

set_option autoImplicit false

namespace Micron.Rtree

open List Option

variable {F V : Type} [Coord F] {D : Nat}

/-- The fan-outs whose node counts and array lengths a `u16` holds. -/
structure Fanout (M : Nat) : Prop where
  least : 3 ≤ M
  fits : M < 65535

namespace Fanout

variable {M : Nat}

theorem cap_eq (fanout : Fanout M) : cap M = M + 1 := by
  have fits := fanout.fits
  exact Nat.mod_eq_of_lt (by omega)

theorem minf_eq (fanout : Fanout M) : minf M = if 2 * M / 5 < 2 then 2 else 2 * M / 5 := by
  have fits := fanout.fits
  apply Nat.mod_eq_of_lt
  split <;> omega

theorem two_le_minf (fanout : Fanout M) : 2 ≤ minf M := by
  rw [fanout.minf_eq]
  split <;> omega

theorem minf_room (fanout : Fanout M) : 2 * minf M ≤ M + 1 := by
  have least := fanout.least
  rw [fanout.minf_eq]
  split <;> omega

/-- What a leaf keeps of its entries when it puts some back. -/
theorem keep_bounds (fanout : Fanout M) :
    minf M ≤ u16 (cap M + 65536 - prei M) ∧ u16 (cap M + 65536 - prei M) ≤ M := by
  have least := fanout.least
  have fits := fanout.fits
  have count : prei M = if 3 * M / 10 < 1 then 1 else 3 * M / 10 := by
    apply Nat.mod_eq_of_lt
    split <;> omega
  have bounds : 1 ≤ prei M ∧ 10 * prei M ≤ 3 * M + 1 := by
    rw [count]
    split <;> omega
  have filled : 5 * minf M ≤ 2 * M + 4 := by
    rw [fanout.minf_eq]
    split <;> omega
  have kept : u16 (cap M + 65536 - prei M) = M + 1 - prei M := by
    rw [fanout.cap_eq, u16]
    omega
  omega

end Fanout

/-- All leaves are `h` levels down, no node has more than `M` entries, every kid has
at least `minf M` of them, and every box contains those of its kid. -/
def Good (M : Nat) : Nat → Node F D V → Prop
  | 0, .leaf es => es.length ≤ M
  | h + 1, .internal kids =>
    kids.length ≤ M ∧ ∀ p ∈ kids, minf M ≤ p.2.count ∧ Covers p.1 p.2 ∧ Good M h p.2
  | _, _ => False

def stored (n : Node F D V) : Multiset (Box F D × V) := (collectData n : Multiset (Box F D × V))

omit [Coord F] in
@[simp] theorem stored_leaf (es : List (Box F D × V)) : stored (.leaf es) = ↑es := by
  rw [stored, collectData]

omit [Coord F] in
@[simp] theorem stored_internal (kids : List (Box F D × Node F D V)) :
    stored (.internal kids) = (kids.map fun p => stored p.2).sum := by
  rw [stored, collectData]
  induction kids with
  | nil => rfl
  | cons p kids ih =>
    rw [collectKids, ← Multiset.coe_add, ih, map_cons, sum_cons, stored]

/-- The groups of a split: a permutation of the entries, neither group too small. -/
theorem splitEntries_spec {α : Type} {M : Nat} (fanout : Fanout M) (someAxis : 0 < D)
    {es : List (Box F D × α)} (full : es.length = M + 1) :
    ∃ left right, splitEntries M es = some (left, right) ∧ (left ++ right).Perm es ∧
      minf M ≤ left.length ∧ minf M ≤ right.length := by
  obtain ⟨c, chosen, distributes⟩ := chooseSplit_spec someAxis fanout.minf_room (es.map Prod.fst)
  have whole : (reorder es c.perm).Perm es := by
    apply reorder_perm
    rw [full]
    exact distributes.perm
  refine ⟨(reorder es c.perm).take c.k, (reorder es c.perm).drop c.k, ?_, ?_, ?_, ?_⟩
  · simp only [splitEntries, fanout.cap_eq, chosen, map_some]
  · rw [take_append_drop]
    exact whole
  · rw [length_take, whole.length_eq, full]
    have enough := distributes.enough
    have room := distributes.room
    omega
  · rw [length_drop, whole.length_eq, full]
    have room := distributes.room
    omega

/-- What a descent with the entry `e` makes of the node `n`. -/
structure Inserted (M h : Nat) (e : Box F D × V) (did : Bool) (n : Node F D V)
    (r : Descent F D V) : Prop where
  good : Good M h r.node
  filled : minf M ≤ n.count ∨ r.right.isSome → minf M ≤ r.node.count
  sibling : ∀ right rmbr, r.right = some (right, rmbr) →
    Good M h right ∧ minf M ≤ right.count ∧ Covers rmbr right
  content : stored r.node + (r.right.elim 0 fun p => stored p.1) + ↑r.pushed = stored n + {e}
  inside : ∀ m : Box F D, Covers m n → m.contains e.1 = true →
    Covers m r.node ∧ ∀ right rmbr, r.right = some (right, rmbr) → m.contains rmbr = true
  once : (did = true → r.did = true ∧ r.pushed = []) ∧ (r.pushed ≠ [] → r.did = true)
  grown : 0 < h → r.right = none → n.count ≤ r.node.count

section Leaf
variable {M : Nat} {es : List (Box F D × V)} {b : Box F D} {v : V}

theorem covers_leaf_append {m : Box F D} (covers : Covers m (.leaf es : Node F D V))
    (inside : m.contains b = true) : ∀ e ∈ es ++ [(b, v)], m.contains e.1 = true := by
  intro e member
  rcases mem_append.mp member with old | last
  · exact covers e.1 (mem_map_of_mem old)
  · rw [mem_singleton.mp last]
    exact inside

theorem reinsertLeaf_spec (fanout : Fanout M) (full : es.length = M + 1) :
    ∃ kept out, reinsertLeaf M es = (kept, out) ∧ (kept ++ out).Perm es ∧
      minf M ≤ kept.length ∧ kept.length ≤ M := by
  obtain ⟨enough, small⟩ := fanout.keep_bounds
  have whole : ∀ key : Nat → F, (reorder es (sortBy key (List.range (cap M)))).Perm es := by
    intro key
    apply reorder_perm
    rw [full, fanout.cap_eq]
    exact sortBy_perm key _
  refine ⟨_, _, rfl, ?_, ?_, ?_⟩
  · rw [take_append_drop]
    exact whole _
  · rw [length_take, (whole _).length_eq]
    omega
  · rw [length_take]
    omega

theorem insertLeaf_spec (fanout : Fanout M) (someAxis : 0 < D) (isRoot did : Bool)
    (good : es.length ≤ M) :
    ∃ r, insertLeaf M isRoot did b v es = some r ∧
      Inserted M 0 (b, v) did (.leaf es) r := by
  have added : (↑(es ++ [(b, v)]) : Multiset (Box F D × V)) = ↑es + {(b, v)} := by
    rw [← Multiset.coe_add, Multiset.coe_singleton]
  have length : (es ++ [(b, v)]).length = es.length + 1 := by simp
  unfold insertLeaf
  rw [fanout.cap_eq, if_pos (by omega)]
  by_cases room : (es ++ [(b, v)]).length ≤ M
  · rw [if_pos room]
    refine ⟨_, rfl, room, ?_, nofun, ?_, ?_, ⟨fun same => ⟨same, rfl⟩, fun some => absurd rfl some⟩, ?_⟩
    · rintro (enough | impossible)
      · rw [Node.count] at enough ⊢
        omega
      · cases impossible
    · simp only [stored_leaf, added, elim_none, Multiset.coe_nil, add_zero]
    · intro m covers inside
      refine ⟨?_, nofun⟩
      intro x member
      obtain ⟨e, here, rfl⟩ := mem_map.mp member
      exact covers_leaf_append covers inside e here
    · intro impossible
      exact absurd impossible (lt_irrefl 0)
  · rw [if_neg room]
    have full : (es ++ [(b, v)]).length = M + 1 := by omega
    by_cases again : (!did && !isRoot) = true
    · -- some entries leave the leaf for another round
      rw [if_pos again]
      have notYet : did = false := by
        cases did
        · rfl
        · simp at again
      subst notYet
      obtain ⟨kept, out, result, perm, enough, small⟩ := reinsertLeaf_spec fanout full
      refine ⟨_, rfl, ?_, ?_, nofun, ?_, ?_, ⟨nofun, fun _ => rfl⟩, ?_⟩
      · rw [result]
        exact small
      · intro _
        rw [result]
        exact enough
      · simp only [result, stored_leaf, elim_none, add_zero, Multiset.coe_add]
        rw [← added, Multiset.coe_eq_coe]
        exact perm
      · intro m covers inside
        refine ⟨?_, nofun⟩
        intro x member
        rw [result] at member
        obtain ⟨e, here, rfl⟩ := mem_map.mp member
        exact covers_leaf_append covers inside e
          (perm.subset (mem_append_left _ here))
      · intro impossible
        exact absurd impossible (lt_irrefl 0)
    · rw [if_neg again]
      obtain ⟨left, right, result, perm, leftFilled, rightFilled⟩ :=
        splitEntries_spec fanout someAxis full
      have whole := perm.length_eq
      have two := fanout.two_le_minf
      rw [length_append, full] at whole
      simp only [splitLeaf, result, map_some]
      refine ⟨_, rfl, ?_, ?_, ?_, ?_, ?_, ⟨fun same => ⟨same, rfl⟩, fun some => absurd rfl some⟩, ?_⟩
      · show left.length ≤ M
        omega
      · exact fun _ => leftFilled
      · intro right' rmbr same
        cases same
        refine ⟨?_, rightFilled, covers_subtreeMbr _⟩
        show right.length ≤ M
        omega
      · simp only [stored_leaf, elim_some, Multiset.coe_nil, add_zero, Multiset.coe_add]
        rw [← added, Multiset.coe_eq_coe]
        exact perm
      · intro m covers inside
        have each : ∀ e ∈ left ++ right, m.contains e.1 = true :=
          fun e member => covers_leaf_append covers inside e (perm.subset member)
        refine ⟨?_, ?_⟩
        · intro x member
          obtain ⟨e, here, rfl⟩ := mem_map.mp member
          exact each e (mem_append_left _ here)
        · intro right' rmbr same
          cases same
          apply Covers.contains_subtreeMbr
          intro x member
          obtain ⟨e, here, rfl⟩ := mem_map.mp member
          exact each e (mem_append_right _ here)
      · intro impossible
        exact absurd impossible (lt_irrefl 0)

end Leaf

/-! ## The descent -/

section Internal
variable {M h : Nat} {kids : List (Box F D × Node F D V)} {b : Box F D} {v : V}

theorem inserted_kid (good : Good M (h + 1) (.internal kids)) {front back : List (Box F D × Node F D V)}
    {kid : Box F D × Node F D V} (shape : kids = front ++ kid :: back) {did : Bool}
    {r : Descent F D V} (inserted : Inserted M h (b, v) did kid.2 r) (alone : r.right = none) :
    Inserted M (h + 1) (b, v) did (.internal kids)
      ⟨.internal (front ++ (kid.1.extend b, r.node) :: back), none, r.did, r.pushed⟩ := by
  subst shape
  obtain ⟨bound, each⟩ := good
  obtain ⟨filled, covers, kidGood⟩ := each kid (by simp)
  have content := inserted.content
  rw [alone, elim_none, add_zero] at content
  have length : (front ++ (kid.1.extend b, r.node) :: back).length =
      (front ++ kid :: back).length := by simp
  constructor
  · refine ⟨by rw [length]; exact bound, ?_⟩
    intro p member
    rcases mem_append.mp member with old | later
    · exact each p (mem_append_left _ old)
    · rcases mem_cons.mp later with rfl | old
      · refine ⟨inserted.filled (.inl filled), ?_, inserted.good⟩
        exact (inserted.inside _ (covers.trans (Box.contains_extend_left kid.1 b))
          (Box.contains_extend_right kid.1 b)).1
      · exact each p (mem_append_right _ (mem_cons_of_mem _ old))
  · rintro (enough | impossible)
    · rw [Node.count] at enough ⊢
      omega
    · cases impossible
  · nofun
  · simp only [stored_internal, elim_none, add_zero, map_append, sum_append,
      map_cons, sum_cons]
    rw [add_assoc, add_right_comm, content]
    abel
  · intro m mCovers inside
    refine ⟨?_, nofun⟩
    intro x member
    obtain ⟨p, here, rfl⟩ := mem_map.mp member
    rcases mem_append.mp here with old | later
    · exact mCovers p.1 (mem_map_of_mem (mem_append_left _ old))
    · rcases mem_cons.mp later with rfl | old
      · exact Box.contains_extend (mCovers kid.1 (mem_map_of_mem (by simp))) inside
      · exact mCovers p.1
          (mem_map_of_mem (mem_append_right _ (mem_cons_of_mem _ old)))
  · exact inserted.once
  · intro _ _
    rw [Node.count, Node.count, length]

structure Widened (M h : Nat) (e : Box F D × V) (kids : List (Box F D × Node F D V))
    (r : Descent F D V) (kids' : List (Box F D × Node F D V)) : Prop where
  each : ∀ p ∈ kids', minf M ≤ p.2.count ∧ Covers p.1 p.2 ∧ Good M h p.2
  content : (kids'.map fun p => stored p.2).sum + ↑r.pushed =
    (kids.map fun p => stored p.2).sum + {e}
  inside : ∀ m : Box F D, Covers m (.internal kids) → m.contains e.1 = true →
    ∀ p ∈ kids', m.contains p.1 = true
  length : kids'.length = kids.length + 1

theorem widened_row (good : Good M (h + 1) (.internal kids))
    {front back : List (Box F D × Node F D V)} {kid : Box F D × Node F D V}
    (shape : kids = front ++ kid :: back) {did : Bool} {r : Descent F D V}
    (inserted : Inserted M h (b, v) did kid.2 r) {right : Node F D V} {rmbr : Box F D}
    (sibling : r.right = some (right, rmbr)) :
    Widened M h (b, v) kids r (front ++ (subtreeMbr r.node, r.node) :: back ++ [(rmbr, right)]) := by
  subst shape
  obtain ⟨bound, each⟩ := good
  obtain ⟨filled, covers, kidGood⟩ := each kid (by simp)
  obtain ⟨rightGood, rightFilled, rightCovers⟩ := inserted.sibling right rmbr sibling
  have content := inserted.content
  rw [sibling, elim_some] at content
  have cases : ∀ p ∈ front ++ (subtreeMbr r.node, r.node) :: back ++ [(rmbr, right)],
      p ∈ front ++ kid :: back ∨ p = (subtreeMbr r.node, r.node) ∨ p = (rmbr, right) := by
    intro p member
    simp only [mem_append, mem_cons, not_mem_nil, or_false] at member ⊢
    rcases member with (old | same | old) | same
    · exact .inl (.inl old)
    · exact .inr (.inl same)
    · exact .inl (.inr (.inr old))
    · exact .inr (.inr same)
  constructor
  · intro p member
    rcases cases p member with old | rfl | rfl
    · exact each p old
    · refine ⟨inserted.filled (.inr ?_), covers_subtreeMbr _, inserted.good⟩
      rw [sibling]
      rfl
    · exact ⟨rightFilled, rightCovers, rightGood⟩
  · simp only [map_append, sum_append, map_cons, sum_cons, map_nil,
      sum_nil, add_zero]
    have moved : ∀ A N B R P : Multiset (Box F D × V),
        A + (N + B) + R + P = A + (N + R + P) + B := by
      intro A N B R P
      abel
    rw [moved, content]
    abel
  · intro m mCovers inside p member
    have reached : Covers m kid.2 := covers.trans (mCovers kid.1 (mem_map_of_mem (by simp)))
    obtain ⟨mNode, mRight⟩ := inserted.inside m reached inside
    rcases cases p member with old | rfl | rfl
    · exact mCovers p.1 (mem_map_of_mem old)
    · exact mNode.contains_subtreeMbr
    · exact mRight right rmbr sibling
  · simp only [length_append, length_cons, length_nil, add_assoc]

theorem insertInternal_spec (fanout : Fanout M) (someAxis : 0 < D)
    (good : Good M (h + 1) (.internal kids)) {ci : Nat} {kid : Box F D × Node F D V}
    (found : kids[ci]? = some kid) {did : Bool} {r : Descent F D V}
    (inserted : Inserted M h (b, v) did kid.2 r) :
    ∃ r', insertInternal M b kids ci r = some r' ∧
      Inserted M (h + 1) (b, v) did (.internal kids) r' := by
  obtain ⟨front, back, shape, place⟩ : ∃ front back, kids = front ++ kid :: back ∧
      ci = front.length := by
    obtain ⟨inside, rfl⟩ := List.getElem?_eq_some_iff.mp found
    refine ⟨kids.take ci, kids.drop (ci + 1), ?_, ?_⟩
    · rw [List.getElem_cons_drop, List.take_append_drop]
    · rw [List.length_take, min_eq_left (le_of_lt inside)]
  have replaced : ∀ x : Box F D × Node F D V, kids.set ci x = front ++ x :: back := by
    intro x
    rw [shape, place, List.set_append_right _ _ (Nat.le_refl _), Nat.sub_self, List.set_cons_zero]
  unfold insertInternal
  simp only [found, replaced]
  cases sibling : r.right with
  | none => exact ⟨_, rfl, inserted_kid good shape inserted sibling⟩
  | some pair =>
    obtain ⟨right, rmbr⟩ := pair
    have bound : kids.length ≤ M := good.1
    have row := widened_row good shape inserted sibling
    simp only [fanout.cap_eq, if_pos (Nat.lt_succ_of_le bound)]
    generalize front ++ (subtreeMbr r.node, r.node) :: back ++ [(rmbr, right)] = kids' at row ⊢
    have length := row.length
    by_cases room : kids'.length ≤ M
    · rw [if_pos room]
      refine ⟨_, rfl, ⟨room, row.each⟩, ?_, nofun, ?_, ?_, inserted.once, ?_⟩
      · rintro (enough | impossible)
        · rw [Node.count] at enough ⊢
          omega
        · cases impossible
      · simp only [stored_internal, elim_none, add_zero]
        exact row.content
      · intro m covers inside
        refine ⟨?_, nofun⟩
        intro x member
        obtain ⟨p, here, rfl⟩ := List.mem_map.mp member
        exact row.inside m covers inside p here
      · intro _ _
        rw [Node.count, Node.count]
        omega
    · rw [if_neg room]
      have full : kids'.length = M + 1 := by omega
      obtain ⟨left, right', result, perm, leftFilled, rightFilled⟩ :=
        splitEntries_spec fanout someAxis full
      have whole := perm.length_eq
      have two := fanout.two_le_minf
      rw [List.length_append, full] at whole
      simp only [splitInternal, result, map_some]
      refine ⟨_, rfl, ⟨by omega, ?_⟩, fun _ => leftFilled, ?_, ?_, ?_, inserted.once, nofun⟩
      · exact fun p member => row.each p (perm.subset (List.mem_append_left _ member))
      · intro right'' rmbr' same
        cases same
        refine ⟨⟨by omega, ?_⟩, rightFilled, covers_subtreeMbr _⟩
        exact fun p member => row.each p (perm.subset (List.mem_append_right _ member))
      · simp only [stored_internal, elim_some]
        rw [← row.content, ← List.sum_append, ← List.map_append]
        rw [(perm.map fun p => stored p.2).sum_eq]
      · intro m covers inside
        have within : ∀ p ∈ left ++ right', m.contains p.1 = true :=
          fun p member => row.inside m covers inside p (perm.subset member)
        refine ⟨?_, ?_⟩
        · intro x member
          obtain ⟨p, here, rfl⟩ := List.mem_map.mp member
          exact within p (List.mem_append_left _ here)
        · intro right'' rmbr' same
          cases same
          apply Covers.contains_subtreeMbr
          intro x member
          obtain ⟨p, here, rfl⟩ := List.mem_map.mp member
          exact within p (List.mem_append_right _ here)

theorem insertKid_eq (did : Bool) (ci : Nat) :
    insertKid M b v did kids ci = (kids[ci]?).bind fun p => insertDescend M b v false did p.2 := by
  induction kids generalizing ci with
  | nil => rfl
  | cons p kids ih =>
    cases ci with
    | zero => rfl
    | succ ci => exact ih ci

theorem insertDescend_spec (fanout : Fanout M) (someAxis : 0 < D) (isRoot did : Bool)
    {n : Node F D V} (good : Good M h n) (someKid : 0 < h → 1 ≤ n.count) :
    ∃ r, insertDescend M b v isRoot did n = some r ∧ Inserted M h (b, v) did n r := by
  induction h generalizing n isRoot with
  | zero =>
    match n, good with
    | .leaf es, good => exact insertLeaf_spec fanout someAxis isRoot did good
  | succ h ih =>
    match n, good with
    | .internal kids, good =>
      have inside := chooseSubtree_lt (someKid (Nat.succ_pos h)) b
      obtain ⟨kid, found⟩ : ∃ kid, kids[chooseSubtree kids b]? = some kid :=
        ⟨_, getElem?_eq_getElem inside⟩
      obtain ⟨filled, _, kidGood⟩ := good.2 kid (mem_of_getElem? found)
      have two := fanout.two_le_minf
      obtain ⟨r, down, inserted⟩ := ih false kidGood (fun _ => by omega)
      obtain ⟨r', result, whole⟩ := insertInternal_spec fanout someAxis good found inserted
      refine ⟨r', ?_, whole⟩
      simp only [insertDescend, insertKid_eq, found, bind_some, down, result]

end Internal

end Micron.Rtree
