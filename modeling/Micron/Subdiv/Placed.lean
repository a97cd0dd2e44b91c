import Micron.Lib.Routing
import Micron.Subdiv.Geometry

/-!
# Nodes with their points in place

Every point below a node is in its box, and every point below a child has the
child's octant.  Insertion adds the new point to what is below a node and erasure
takes one away; a query that reaches every box with a wanted point finds the wanted
points, and the nearest are kept in the order of their distances.
-/

set_option autoImplicit false

namespace Micron.Subdiv

open Micron.Lib List Function

variable {F V : Type} [LinearOrder F] [Field F] {D : Nat}

section Leaves
variable {E : Type} {B : Nat}

theorem addLoop_full {entries : List E} (full : ¬entries.length < B) (e : E) (rounds : Nat)
    (overflow : List (List E)) : addLoop B e (rounds + 1) entries overflow =
      (addLoop B e rounds (overflow.headD []) overflow.tail).map fun chain =>
        ⟨entries, chain.entries :: chain.overflow⟩ := by
  cases overflow with
  | nil => rw [addLoop, if_neg full]; rfl
  | cons next later => rw [addLoop, if_neg full]; rfl

theorem addLoop_free {entries : List E} (free : entries.length < B) (e : E) (rounds : Nat)
    (overflow : List (List E)) :
    addLoop B e (rounds + 1) entries overflow = some ⟨entries ++ [e], overflow⟩ := by
  cases overflow with
  | nil => rw [addLoop, if_pos free]
  | cons next later => rw [addLoop, if_pos free]

theorem addLoop_spec (room : 0 < B) (e : E) : ∀ (rounds : Nat) (entries : List E)
    (overflow : List (List E)), overflow.length + 2 ≤ rounds →
    ∃ leaf, addLoop B e rounds entries overflow = some leaf ∧
      leaf.items.Perm (e :: (Leaf.mk entries overflow).items) ∧
      (entries.length < B → leaf.overflow = overflow) := by
  intro rounds
  induction rounds with
  | zero =>
    intro entries overflow enough
    omega
  | succ rounds ih =>
    intro entries overflow enough
    by_cases free : entries.length < B
    · rw [addLoop_free free]
      refine ⟨_, rfl, ?_, fun _ => rfl⟩
      simp only [Leaf.items]
      rw [append_assoc]
      exact perm_middle
    · rw [addLoop_full free]
      cases overflow with
      | nil =>
        -- the new leaf takes the entry
        cases rounds with
        | zero =>
          omega
        | succ rounds =>
          refine ⟨⟨entries, [[e]]⟩, ?_, ?_, fun full => absurd full free⟩
          · rw [headD_nil, addLoop_free room]
            rfl
          · simp only [Leaf.items, flatten_cons, flatten_nil, append_nil]
            exact perm_append_singleton e entries
      | cons next later =>
        obtain ⟨chain, result, more, _⟩ := ih next later (by
          rw [length_cons] at enough
          omega)
        refine ⟨⟨entries, chain.entries :: chain.overflow⟩, ?_, ?_,
          fun full => absurd full free⟩
        · rw [headD_cons, tail_cons, result]
          rfl
        · simp only [Leaf.items, flatten_cons] at more ⊢
          exact (more.append_left entries).trans perm_middle

theorem leafAdd_spec (room : 0 < B) (leaf : Leaf E) (e : E) :
    ∃ leaf', leaf.add B e = some leaf' ∧ leaf'.items.Perm (e :: leaf.items) ∧
      (leaf.entries.length < B → leaf'.overflow = leaf.overflow) :=
  addLoop_spec room e (leaf.overflow.length + 2) leaf.entries leaf.overflow (le_refl _)

/-- Without room for a point in a node the loop goes on for ever. -/
theorem addLoop_endless (e : E) : ∀ (rounds : Nat) (entries : List E) (overflow : List (List E)),
    addLoop 0 e rounds entries overflow = none := by
  intro rounds
  induction rounds with
  | zero =>
    intro entries overflow
    rfl
  | succ rounds ih =>
    intro entries overflow
    rw [addLoop_full (Nat.not_lt_zero _), ih]
    rfl

end Leaves

section EraseLeaf
variable [DecidableEq V]

omit [Field F] in
theorem isEntry_iff {p : Point F D} {v : V} {e : Entry F D V} :
    isEntry p v e = true ↔ e = (p, v) := by
  unfold isEntry
  simp only [Bool.and_eq_true, all_eq_true, decide_eq_true_eq, Prod.ext_iff]
  constructor
  · intro both
    refine ⟨?_, both.2⟩
    funext i
    simpa using both.1 i (mem_finRange i)
  · intro both
    refine ⟨?_, both.2⟩
    intro i _
    rw [both.1]
    simp

omit [Field F] in
theorem any_isEntry_iff {p : Point F D} {v : V} {entries : List (Entry F D V)} :
    entries.any (isEntry p v) = true ↔ (p, v) ∈ entries := by
  rw [any_eq_true]
  constructor
  · intro found
    obtain ⟨e, member, same⟩ := found
    rw [isEntry_iff] at same
    rw [← same]
    exact member
  · intro member
    exact ⟨(p, v), member, isEntry_iff.mpr rfl⟩

omit [Field F] in
theorem eraseP_isEntry {p : Point F D} {v : V} {entries : List (Entry F D V)}
    (member : (p, v) ∈ entries) :
    ((p, v) :: entries.eraseP (isEntry p v)).Perm entries := by
  obtain ⟨e, front, back, _, isFound, whole, erased⟩ :=
    exists_of_eraseP member (isEntry_iff.mpr rfl)
  rw [isEntry_iff.mp isFound] at whole
  rw [erased, whole]
  exact perm_middle.symm

omit [Field F] in
theorem eraseChain_spec (p : Point F D) (v : V) : ∀ nodes : List (List (Entry F D V)),
    ((p, v) ∈ nodes.flatten → ∃ nodes', eraseChain p v nodes = some nodes' ∧
        ((p, v) :: nodes'.flatten).Perm nodes.flatten) ∧
      ((p, v) ∉ nodes.flatten → eraseChain p v nodes = none) := by
  intro nodes
  induction nodes with
  | nil => exact ⟨fun none => (not_mem_nil none).elim, fun _ => rfl⟩
  | cons entries rest ih =>
    obtain ⟨found, missed⟩ := ih
    rw [eraseChain, flatten_cons]
    by_cases here : (p, v) ∈ entries
    · rw [if_pos (any_isEntry_iff.mpr here)]
      refine ⟨fun _ => ⟨_, rfl, ?_⟩, fun absent => ?_⟩
      · rw [flatten_cons, ← cons_append]
        exact (eraseP_isEntry here).append_right _
      · exact absurd (mem_append_left _ here) absent
    · rw [if_neg fun any => here (any_isEntry_iff.mp any)]
      constructor
      · intro member
        obtain ⟨rest', result, less⟩ := found ((mem_append.mp member).resolve_left here)
        refine ⟨entries :: rest', ?_, ?_⟩
        · rw [result]
          rfl
        · rw [flatten_cons]
          exact perm_middle.symm.trans (less.append_left entries)
      · intro absent
        rw [missed fun member => absent (mem_append_right _ member)]
        rfl

omit [Field F] in
theorem leafErase_spec (p : Point F D) (v : V) (leaf : Leaf (Entry F D V)) :
    ((p, v) ∈ leaf.items → ∃ leaf', leaf.erase p v = some leaf' ∧
        ((p, v) :: leaf'.items).Perm leaf.items ∧
        (leaf.overflow = [] → leaf'.overflow = [])) ∧
      ((p, v) ∉ leaf.items → leaf.erase p v = none) := by
  obtain ⟨found, missed⟩ := eraseChain_spec p v leaf.overflow
  unfold Leaf.erase Leaf.items
  by_cases here : (p, v) ∈ leaf.entries
  · rw [if_pos (any_isEntry_iff.mpr here)]
    refine ⟨fun _ => ⟨_, rfl, ?_, id⟩, fun absent => ?_⟩
    · exact (eraseP_isEntry here).append_right _
    · exact absurd (mem_append_left _ here) absent
  · rw [if_neg fun any => here (any_isEntry_iff.mp any)]
    constructor
    · intro member
      have chained := (mem_append.mp member).resolve_left here
      obtain ⟨overflow, result, less⟩ := found chained
      refine ⟨{ leaf with overflow := overflow }, ?_, ?_, ?_⟩
      · rw [result]
        rfl
      · exact perm_middle.symm.trans (less.append_left leaf.entries)
      · intro empty
        rw [empty] at chained
        cases chained
    · intro absent
      rw [missed fun member => absent (mem_append_right _ member)]
      rfl

end EraseLeaf

/-- The children of a node with the box `nb`: each keeps `P` for its own box, and its
points are those of its octant. -/
def KidsPlaced {α : Type} (items : α → List (Entry F D V)) (P : α → Box F D → Prop)
    (nb : Box F D) (kids : Nat → Option α) : Prop :=
  ∀ oc kid, kids oc = some kid → oc < 2 ^ D ∧ P kid (childBox nb oc) ∧
    ∀ e, e ∈ items kid → octant nb e.1 = oc ∧ nb.contains e.1 = true

section Kids
variable {α : Type} {items : α → List (Entry F D V)} {P : α → Box F D → Prop} {nb : Box F D}
  {kids : Nat → Option α} {oc : Nat} {kid kid' : α}

omit [LinearOrder F] [Field F] in
theorem mem_kidItems {e : Entry F D V} :
    e ∈ kidItems D items kids ↔ ∃ oc kid, oc < 2 ^ D ∧ kids oc = some kid ∧ e ∈ items kid := by
  unfold kidItems
  rw [mem_flatMap]
  constructor
  · intro found
    obtain ⟨oc, inRange, member⟩ := found
    cases here : kids oc with
    | none =>
      rw [here] at member
      cases member
    | some kid =>
      rw [here] at member
      exact ⟨oc, kid, mem_range.mp inRange, here, member⟩
  · intro found
    obtain ⟨oc, kid, inRange, here, member⟩ := found
    refine ⟨oc, mem_range.mpr inRange, ?_⟩
    rw [here]
    exact member

omit [LinearOrder F] [Field F] in
theorem kidItems_update (items : α → List (Entry F D V)) (kids : Nat → Option α)
    (inside : oc < 2 ^ D) (kid' : α) : ∃ before after,
      kidItems D items kids = before ++ (kids oc).elim [] items ++ after ∧
        kidItems D items (update kids oc (some kid')) = before ++ items kid' ++ after := by
  obtain ⟨before, after, whole, replaced⟩ := flatMap_update nodup_range
    (mem_range.mpr inside) fun c => (kids c).elim [] items
  have pieces : (fun c => (update kids oc (some kid') c).elim [] items) =
      update (fun c => (kids c).elim [] items) oc (items kid') := by
    funext c
    exact Function.apply_update (fun _ kid => Option.elim kid [] items) kids oc (some kid') c
  refine ⟨before, after, whole, ?_⟩
  unfold kidItems
  rw [pieces, replaced]

theorem KidsPlaced.update (placed : KidsPlaced items P nb kids) (inside : oc < 2 ^ D)
    (shape : P kid' (childBox nb oc))
    (there : ∀ e, e ∈ items kid' → octant nb e.1 = oc ∧ nb.contains e.1 = true) :
    KidsPlaced items P nb (update kids oc (some kid')) := by
  intro c kid found
  by_cases same : c = oc
  · subst same
    rw [update_self] at found
    cases found
    exact ⟨inside, shape, there⟩
  · rw [update_of_ne same] at found
    exact placed c kid found

theorem kidsPlaced_none : KidsPlaced items P nb fun _ => none := by
  intro oc kid found
  cases found

/-- An insertion that keeps `P` and adds the entry. -/
def InsertSound (items : α → List (Entry F D V)) (P : α → Box F D → Prop)
    (insert : α → Box F D → Entry F D V → Option (α × Bool)) : Prop :=
  ∀ kid nb e, P kid nb → nb.contains e.1 = true →
    ∃ kid', insert kid nb e = some (kid', true) ∧ (items kid').Perm (e :: items kid) ∧ P kid' nb

variable {insert : α → Box F D → Entry F D V → Option (α × Bool)} {fresh : α}

theorem insertKid_spec (sound : InsertSound items P insert)
    (empty : items fresh = [] ∧ ∀ nb, P fresh nb) (placed : KidsPlaced items P nb kids)
    {e : Entry F D V} (inside : nb.contains e.1 = true) :
    ∃ kids', insertKid insert fresh nb e kids = some (kids', true) ∧
      (kidItems D items kids').Perm (e :: kidItems D items kids) ∧
      KidsPlaced items P nb kids' := by
  have inOctant := contains_childBox inside
  have old : P ((kids (octant nb e.1)).getD fresh) (childBox nb (octant nb e.1)) ∧
      items ((kids (octant nb e.1)).getD fresh) = (kids (octant nb e.1)).elim [] items ∧
      ∀ x, x ∈ items ((kids (octant nb e.1)).getD fresh) →
        octant nb x.1 = octant nb e.1 ∧ nb.contains x.1 = true := by
    cases here : kids (octant nb e.1) with
    | none =>
      refine ⟨empty.2 _, empty.1, ?_⟩
      intro x member
      rw [Option.getD_none, empty.1] at member
      cases member
    | some kid =>
      obtain ⟨_, shape, there⟩ := placed _ kid here
      exact ⟨shape, rfl, there⟩
  obtain ⟨oldShape, oldItems, oldThere⟩ := old
  obtain ⟨kid', result, more, shape⟩ := sound _ _ e oldShape inOctant
  obtain ⟨before, after, whole, replaced⟩ := kidItems_update items kids
    (octant_lt : octant nb e.1 < 2 ^ D) kid'
  refine ⟨update kids (octant nb e.1) (some kid'), ?_, ?_, ?_⟩
  · unfold insertKid
    simp only
    rw [result]
    rfl
  · rw [replaced, whole, ← oldItems]
    apply ((more.append_left before).append_right after).trans
    rw [append_assoc, append_assoc]
    exact perm_middle
  · apply placed.update octant_lt shape
    intro x member
    rcases mem_cons.mp (more.mem_iff.mp member) with rfl | wasThere
    · exact ⟨rfl, inside⟩
    · exact oldThere x wasThere

theorem reinsert_spec (sound : InsertSound items P insert)
    (empty : items fresh = [] ∧ ∀ nb, P fresh nb) : ∀ (entries : List (Entry F D V))
    (kids : Nat → Option α), KidsPlaced items P nb kids →
    (∀ e, e ∈ entries → nb.contains e.1 = true) →
    ∃ kids', reinsert insert fresh nb entries kids = some kids' ∧
      (kidItems D items kids').Perm (entries ++ kidItems D items kids) ∧
      KidsPlaced items P nb kids' := by
  intro entries
  induction entries with
  | nil =>
    intro kids placed _
    exact ⟨kids, rfl, List.Perm.refl _, placed⟩
  | cons e rest ih =>
    intro kids placed inside
    obtain ⟨kids', result, more, placed'⟩ :=
      insertKid_spec sound empty placed (inside e mem_cons_self)
    obtain ⟨last, results, all, placedLast⟩ := ih kids' placed'
      fun x member => inside x (mem_cons_of_mem _ member)
    refine ⟨last, ?_, ?_, placedLast⟩
    · rw [reinsert, result]
      exact results
    · apply all.trans
      exact (more.append_left rest).trans perm_middle

end Kids

/-! ## Nodes -/

def Placed : (levels : Nat) → Node (Entry F D V) levels → Box F D → Prop
  | 0 => fun (leaf : Leaf (Entry F D V)) nb => ∀ e, e ∈ leaf.items → nb.contains e.1 = true
  | levels + 1 => fun node nb =>
    match node with
    | .inl leaf => leaf.overflow = [] ∧ ∀ e, e ∈ leaf.items → nb.contains e.1 = true
    | .inr kids => KidsPlaced (Node.items D levels) (Placed levels) nb kids

section Nodes
variable {nb : Box F D}

theorem Placed.contains : ∀ (levels : Nat) (node : Node (Entry F D V) levels),
    Placed levels node nb → ∀ e, e ∈ Node.items D levels node → nb.contains e.1 = true := by
  intro levels
  cases levels with
  | zero =>
    intro node placed
    exact placed
  | succ levels =>
    intro node placed e member
    cases node with
    | inl leaf => exact placed.2 e member
    | inr kids =>
      obtain ⟨oc, kid, _, here, inKid⟩ := mem_kidItems.mp member
      exact ((placed oc kid here).2.2 e inKid).2

theorem emptyLeaf_placed : ∀ levels : Nat,
    Node.items D levels (emptyLeaf levels : Node (Entry F D V) levels) = [] ∧
      ∀ nb : Box F D, Placed levels (emptyLeaf levels : Node (Entry F D V) levels) nb := by
  intro levels
  cases levels with
  | zero =>
    refine ⟨rfl, ?_⟩
    intro nb e member
    cases member
  | succ levels =>
    refine ⟨rfl, ?_⟩
    intro nb
    refine ⟨rfl, ?_⟩
    intro e member
    cases member

theorem insertRec_spec {B : Nat} (room : 0 < B) : ∀ levels : Nat,
    InsertSound (Node.items D levels) (Placed levels)
      (insertRec (F := F) (V := V) (D := D) B levels) := by
  intro levels
  induction levels with
  | zero =>
    intro leaf nb e placed inside
    obtain ⟨leaf', result, more, _⟩ := leafAdd_spec room leaf e
    refine ⟨leaf', ?_, more, ?_⟩
    · change (Leaf.add B leaf e).map _ = _
      rw [result]
      rfl
    · intro x member
      rcases mem_cons.mp (more.mem_iff.mp member) with rfl | old
      · exact inside
      · exact placed x old
  | succ levels ih =>
    intro node nb e placed inside
    have empty := emptyLeaf_placed (F := F) (D := D) (V := V) levels
    cases node with
    | inl leaf =>
      obtain ⟨noChain, within⟩ := placed
      rw [insertRec]
      simp only
      by_cases free : leaf.entries.length < B
      · rw [if_pos free]
        obtain ⟨leaf', result, more, keeps⟩ := leafAdd_spec room leaf e
        refine ⟨Sum.inl leaf', ?_, more, (keeps free).trans noChain, ?_⟩
        · rw [result]
          rfl
        · intro x member
          rcases mem_cons.mp (more.mem_iff.mp member) with rfl | old
          · exact inside
          · exact within x old
      · rw [if_neg free]
        have all : leaf.items = leaf.entries := by
          rw [Leaf.items, noChain, flatten_nil, append_nil]
        have start : KidsPlaced (Node.items (E := Entry F D V) D levels) (Placed levels) nb
            fun _ => none := kidsPlaced_none
        obtain ⟨kids, results, moved, placedKids⟩ := reinsert_spec ih empty leaf.entries _
          start (by rw [← all]; exact within)
        obtain ⟨kids', result, more, placed'⟩ := insertKid_spec ih empty placedKids inside
        have none : kidItems D (Node.items (E := Entry F D V) D levels) (fun _ => none) = [] := by
          apply flatMap_eq_nil_iff.mpr
          intro oc _
          rfl
        refine ⟨Sum.inr kids', ?_, ?_, placed'⟩
        · rw [results]
          simp only [Option.bind_some]
          rw [result]
          rfl
        · rw [none, append_nil] at moved
          change (kidItems D _ kids').Perm (e :: leaf.items)
          rw [all]
          exact more.trans (moved.cons e)
    | inr kids =>
      obtain ⟨kids', result, more, placed'⟩ := insertKid_spec ih empty placed inside
      refine ⟨Sum.inr kids', ?_, more, placed'⟩
      rw [insertRec]
      simp only
      rw [result]
      rfl

/-- A bucket without room: an insertion into an empty leaf divides it down to the
maximum depth, and the loop there has no end. -/
theorem insertRec_endless : ∀ (levels : Nat) (nb : Box F D) (e : Entry F D V),
    insertRec 0 levels (emptyLeaf levels) nb e = none := by
  intro levels
  induction levels with
  | zero =>
    intro nb e
    have endless : Leaf.add 0 (⟨[], []⟩ : Leaf (Entry F D V)) e = none :=
      addLoop_endless e _ _ _
    exact congrArg (Option.map fun leaf => (leaf, true)) endless
  | succ levels ih =>
    intro nb e
    change (insertKid (insertRec 0 levels) (emptyLeaf levels) nb e fun _ => none).map _ = none
    rw [insertKid]
    simp only [Option.getD_none, ih, Option.map_none]

theorem eraseRec_leaf [DecidableEq V] (p : Point F D) (v : V) {levels : Nat}
    (leaf : Leaf (Entry F D V)) :
    eraseRec p v (levels + 1) (Sum.inl leaf) nb =
      (leaf.erase p v).map fun leaf => (Sum.inl leaf : Node (Entry F D V) (levels + 1)) := rfl

theorem eraseRec_inner [DecidableEq V] (p : Point F D) (v : V) {levels : Nat}
    (kids : Nat → Option (Node (Entry F D V) levels)) :
    eraseRec p v (levels + 1) (Sum.inr kids) nb = (kids (octant nb p)).bind fun kid =>
      (eraseRec p v levels kid (childBox nb (octant nb p))).map fun kid =>
        (Sum.inr (update kids (octant nb p) (some kid)) :
          Node (Entry F D V) (levels + 1)) := by
  rw [eraseRec]
  simp only
  cases kids (octant nb p) with
  | none => rfl
  | some kid => rfl

theorem eraseRec_spec [DecidableEq V] (p : Point F D) (v : V) : ∀ (levels : Nat)
    (node : Node (Entry F D V) levels) (nb : Box F D), Placed levels node nb →
    ((p, v) ∈ Node.items D levels node → ∃ node', eraseRec p v levels node nb = some node' ∧
        ((p, v) :: Node.items D levels node').Perm (Node.items D levels node) ∧
        Placed levels node' nb) ∧
      ((p, v) ∉ Node.items D levels node → eraseRec p v levels node nb = none) := by
  intro levels
  induction levels with
  | zero =>
    intro leaf nb placed
    obtain ⟨found, missed⟩ := leafErase_spec p v leaf
    refine ⟨?_, missed⟩
    intro member
    obtain ⟨leaf', result, less, _⟩ := found member
    refine ⟨leaf', result, less, ?_⟩
    intro x kept
    exact placed x (less.subset (mem_cons_of_mem _ kept))
  | succ levels ih =>
    intro node nb placed
    cases node with
    | inl leaf =>
      obtain ⟨noChain, within⟩ := placed
      obtain ⟨found, missed⟩ := leafErase_spec p v leaf
      constructor
      · intro member
        obtain ⟨leaf', result, less, keeps⟩ := found member
        refine ⟨Sum.inl leaf', ?_, less, keeps noChain, ?_⟩
        · rw [eraseRec_leaf, result]
          rfl
        · intro x kept
          exact within x (less.subset (mem_cons_of_mem _ kept))
      · intro absent
        rw [eraseRec_leaf, missed absent]
        rfl
    | inr kids =>
      rw [eraseRec_inner]
      cases here : kids (octant nb p) with
      | none =>
        refine ⟨?_, fun _ => rfl⟩
        intro member
        obtain ⟨oc, kid, _, at_oc, inKid⟩ := mem_kidItems.mp member
        have same : octant nb p = oc := ((placed oc kid at_oc).2.2 _ inKid).1
        rw [← same, here] at at_oc
        cases at_oc
      | some kid =>
        obtain ⟨inside, shape, there⟩ := placed _ kid here
        obtain ⟨found, missed⟩ := ih kid (childBox nb (octant nb p)) shape
        constructor
        · intro member
          obtain ⟨oc, kid', _, at_oc, inKid'⟩ := mem_kidItems.mp member
          have same : octant nb p = oc := ((placed oc kid' at_oc).2.2 _ inKid').1
          rw [← same, here] at at_oc
          cases at_oc
          obtain ⟨left, result, less, shapeLeft⟩ := found inKid'
          obtain ⟨before, after, whole, replaced⟩ :=
            kidItems_update (Node.items D levels) kids inside left
          rw [here] at whole
          refine ⟨Sum.inr (update kids (octant nb p) (some left)), ?_, ?_, ?_⟩
          · rw [Option.bind_some, result]
            rfl
          · change ((p, v) :: kidItems D _ _).Perm (kidItems D _ kids)
            rw [replaced, whole, append_assoc, append_assoc]
            apply perm_middle.symm.trans
            exact (less.append_right after).append_left before
          · apply KidsPlaced.update placed inside shapeLeft
            intro x kept
            exact there x (less.subset (mem_cons_of_mem _ kept))
        · intro absent
          rw [Option.bind_some, missed fun member => absent
            (mem_kidItems.mpr ⟨_, kid, inside, here, member⟩)]
          rfl

/-- A query finds the wanted points, in the order of the traversal. -/
theorem walkRec_eq {reach : Box F D → Bool} {wanted : Entry F D V → Bool}
    (reaches : ∀ cb e, cb.contains e.1 = true → wanted e = true → reach cb = true) :
    ∀ (levels : Nat) (node : Node (Entry F D V) levels) (nb : Box F D), Placed levels node nb →
      walkRec reach wanted levels node nb = (Node.items D levels node).filter wanted := by
  intro levels
  induction levels with
  | zero =>
    intro leaf nb _
    rfl
  | succ levels ih =>
    intro node nb placed
    cases node with
    | inl leaf => rfl
    | inr kids =>
      change _ = (kidItems D (Node.items D levels) kids).filter wanted
      rw [walkRec, kidItems, filter_flatMap]
      apply flatMap_congr
      intro oc _
      cases here : kids oc with
      | none => rfl
      | some kid =>
        obtain ⟨_, shape, _⟩ := placed oc kid here
        simp only [Option.elim_some]
        rw [ih kid _ shape]
        cases reached : reach (childBox nb oc) with
        | true => rfl
        | false =>
          symm
          apply filter_eq_nil_iff.mpr
          intro e member isWanted
          have inside := Placed.contains levels kid shape e member
          rw [reaches _ e inside isWanted] at reached
          cases reached

theorem queryRec_eq (q : Box F D) (levels : Nat) (node : Node (Entry F D V) levels)
    (placed : Placed levels node nb) :
    queryRec q levels node nb = (Node.items D levels node).filter fun e => q.contains e.1 := by
  apply walkRec_eq _ levels node nb placed
  intro cb e inside wanted
  exact intersects_of_contains inside wanted

end Nodes

section Distances
variable {F V : Type} [Field F] [LinearOrder F] [IsStrictOrderedRing F] {D : Nat} {nb : Box F D}

theorem radiusRec_eq (c : Point F D) (r2 : F) (levels : Nat) (node : Node (Entry F D V) levels)
    (placed : Placed levels node nb) : radiusRec c r2 levels node nb =
      (Node.items D levels node).filter fun e => decide (dist2 c e.1 ≤ r2) := by
  apply walkRec_eq _ levels node nb placed
  intro cb e inside wanted
  apply decide_eq_true
  exact le_trans (mindist2_le inside) (of_decide_eq_true wanted)

omit [IsStrictOrderedRing F] in
theorem knnLeaf_spec {p : Point F D} {k : Nat} (positive : 0 < k) (leaf : Leaf (Entry F D V))
    {seen best : List (KnnItem F D V)} (smallest : Smallest Prod.fst k seen best) :
    Smallest Prod.fst k (seen ++ leaf.items.map (knnItem p)) (knnLeaf p k leaf best) :=
  smallest.offers positive _ _ _

omit [IsStrictOrderedRing F] in
theorem knnOrder_items {α : Type} (items : α → List (Entry F D V)) (p : Point F D)
    (kids : Nat → Option α) :
    ((knnOrder p nb kids).flatMap fun group => (items group.2.2).map (knnItem p)).Perm
      ((kidItems D items kids).map (knnItem p)) := by
  unfold knnOrder
  apply ((sortBack_perm _).flatMap_right _).trans
  rw [kidItems, map_flatMap, filterMap_eq_flatMap_toList, flatMap_assoc]
  apply List.Perm.of_eq
  apply flatMap_congr
  intro oc _
  cases kids oc with
  | none => rfl
  | some kid => simp

omit [IsStrictOrderedRing F] in
theorem mem_knnOrder {α : Type} {p : Point F D} {kids : Nat → Option α}
    {group : F × (Box F D × α)} (member : group ∈ knnOrder p nb kids) :
    ∃ oc kid, kids oc = some kid ∧
      group = (mindist2 p (childBox nb oc), (childBox nb oc, kid)) := by
  obtain ⟨oc, _, made⟩ := mem_filterMap.mp ((sortBack_perm _).mem_iff.mp member)
  obtain ⟨kid, here, rfl⟩ := Option.map_eq_some_iff.mp made
  exact ⟨oc, kid, here, rfl⟩

/-- The search for the nearest passes no node over that could have one. -/
theorem knnRec_spec (p : Point F D) {k : Nat} (positive : 0 < k) : ∀ (levels : Nat)
    (node : Node (Entry F D V) levels) (nb : Box F D), Placed levels node nb →
    ∀ seen best, Smallest Prod.fst k seen best →
      Smallest Prod.fst k (seen ++ (Node.items D levels node).map (knnItem p))
        (knnRec p k levels node nb best) := by
  intro levels
  induction levels with
  | zero =>
    intro leaf nb _ seen best smallest
    exact knnLeaf_spec positive leaf smallest
  | succ levels ih =>
    intro node nb placed seen best smallest
    cases node with
    | inl leaf => exact knnLeaf_spec positive leaf smallest
    | inr kids =>
      have all : ((knnOrder p nb kids).flatMap fun group =>
          (Node.items D levels group.2.2).map (knnItem p)).Perm
          ((kidItems D (Node.items D levels) kids).map (knnItem p)) := knnOrder_items _ p kids
      refine Smallest.perm ?_ (all.append_left seen)
      refine Smallest.visitUntil
        (fun kid : Box F D × Node (Entry F D V) levels =>
          (Node.items D levels kid.2).map (knnItem p))
        (knnOrder p nb kids) seen best (sortBack_sorted _) ?_ ?_ smallest
      · intro group member x inGroup
        obtain ⟨oc, kid, here, rfl⟩ := mem_knnOrder member
        obtain ⟨e, inKid, rfl⟩ := mem_map.mp inGroup
        exact mindist2_le (Placed.contains levels kid (placed oc kid here).2.1 e inKid)
      · intro group member seen best smallest
        obtain ⟨oc, kid, here, rfl⟩ := mem_knnOrder member
        exact ih kid _ (placed oc kid here).2.1 seen best smallest

end Distances

end Micron.Subdiv
