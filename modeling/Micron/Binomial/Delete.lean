import Micron.Binomial.Extract

/-!
# Deleting a node

`delete_node` swaps the value of a node upwards along the parent pointers until
it is at a root, and takes that root out.  While it climbs, every edge of the
heap is ordered but those from the node with the value to its children.
-/

set_option autoImplicit false

namespace Micron.Binomial

open Micron.Lib BinomialHeap List Nat

variable {T : Type} {comp : T → T → Bool}

theorem itemsIn_eq (c : Chain T) : c.items = (entriesIn c).map fun e => (e.addr, e.value) := by
  induction c with
  | nil => rfl
  | cons a v d p c s ihc ihs => simp [Chain.items, entriesIn, ihc, ihs]

theorem itemsOf_eq (roots : List (Root T)) :
    itemsOf roots = (entriesOf roots).map fun e => (e.addr, e.value) := by
  simp only [itemsOf, entriesOf, map_flatMap]
  refine flatMap_congr fun r _ => ?_
  simp [Root.items, itemsIn_eq]

def Entry.put (node : Nat) (value : T) (e : Entry T) : Entry T :=
  { e with value := if e.addr = node then value else e.value }

theorem entriesIn_writeIn (node : Nat) (value : T) (c : Chain T) :
    entriesIn (writeIn node value c) = (entriesIn c).map (Entry.put node value) := by
  induction c with
  | nil => rfl
  | cons a v d p c s ihc ihs => simp [writeIn, entriesIn, ihc, ihs, Entry.put]

theorem entriesOf_write (h : BinomialHeap T) (node : Nat) (value : T) :
    entriesOf (h.write node value).rootList = (entriesOf h.rootList).map (Entry.put node value) := by
  simp only [entriesOf, write, flatMap_map, map_flatMap]
  refine flatMap_congr fun r _ => ?_
  simp [entriesIn_writeIn, Entry.put]

structure Shape (h : BinomialHeap T) : Prop where
  kids : ∀ r ∈ h.rootList, Kids r.degree r.child
  root : ∀ r ∈ h.rootList, r.parent = none
  parented : ∀ r ∈ h.rootList, Parented r.addr r.child
  increasing : (h.rootList.map Root.degree).Pairwise (· < ·)

theorem kids_writeIn {d node : Nat} {value : T} {c : Chain T} :
    Kids d (writeIn node value c) ↔ Kids d c := by
  induction c generalizing d with
  | nil => exact Iff.rfl
  | cons a v e p c s ihc ihs =>
    cases d with
    | zero => exact Iff.rfl
    | succ d => simp only [writeIn, Kids, ihc, ihs]

theorem parented_writeIn {p node : Nat} {value : T} {c : Chain T} :
    Parented p (writeIn node value c) ↔ Parented p c := by
  induction c generalizing p with
  | nil => exact Iff.rfl
  | cons a v e q c s ihc ihs => simp only [writeIn, Parented, ihc, ihs]

theorem Shape.write {h : BinomialHeap T} (shape : Shape h) (node : Nat) (value : T) :
    Shape (h.write node value) := by
  refine ⟨?_, ?_, ?_, ?_⟩
  · intro r member
    obtain ⟨r₀, inside, rfl⟩ := mem_map.mp member
    exact kids_writeIn.mpr (shape.kids r₀ inside)
  · intro r member
    obtain ⟨r₀, inside, rfl⟩ := mem_map.mp member
    exact shape.root r₀ inside
  · intro r member
    obtain ⟨r₀, inside, rfl⟩ := mem_map.mp member
    exact parented_writeIn.mpr (shape.parented r₀ inside)
  · have degrees : (h.write node value).rootList.map Root.degree = h.rootList.map Root.degree := by
      simp [BinomialHeap.write]
    rw [degrees]
    exact shape.increasing

/-- Distinct addresses, and parents of greater degree. -/
structure Flat (es : List (Entry T)) : Prop where
  nodup : (es.map Entry.addr).Nodup
  up : ∀ e ∈ es, ∀ p, e.parent = some p → ∃ e' ∈ es, e'.addr = p ∧ e.degree < e'.degree

/-- Every edge is ordered but those to the children of `x`. -/
def OrderedBut (comp : T → T → Bool) (x : Nat) (es : List (Entry T)) : Prop :=
  ∀ e ∈ es, ∀ e' ∈ es, e.parent = some e'.addr → e'.addr ≠ x → comp e.value e'.value = false

section FlatLemmas
variable {es : List (Entry T)}

theorem Flat.unique (flat : Flat es) {e e' : Entry T} (member : e ∈ es) (member' : e' ∈ es)
    (same : e.addr = e'.addr) : e = e' := inj_on_of_nodup_map flat.nodup member member' same

theorem Flat.map_put (flat : Flat es) (node : Nat) (value : T) : Flat (es.map (Entry.put node value)) := by
  refine ⟨?_, ?_⟩
  · rw [map_map]
    exact flat.nodup
  · intro e member p parent
    obtain ⟨e₀, inside, rfl⟩ := mem_map.mp member
    obtain ⟨e', inside', here, less⟩ := flat.up e₀ inside p parent
    exact ⟨_, mem_map_of_mem inside', here, less⟩

theorem cell_spec {h : BinomialHeap T} (flat : Flat (entriesOf h.rootList)) {e : Entry T}
    (member : e ∈ entriesOf h.rootList) : h.cell e.addr = some e := by
  rw [cell]
  cases found : (entriesOf h.rootList).find? fun x => x.addr == e.addr with
  | none =>
    have absent := find?_eq_none.mp found e member
    simp at absent
  | some e' =>
    have same : e'.addr = e.addr := by simpa using find?_some found
    rw [flat.unique (mem_of_find?_eq_some found) member same]

end FlatLemmas

section Swap
variable {es : List (Entry T)} {c g : Entry T}

def exchange (c g : Entry T) (e : Entry T) : Entry T :=
  Entry.put g.addr c.value (Entry.put c.addr g.value e)

theorem exchange_child (apart : c.addr ≠ g.addr) : exchange c g c = { c with value := g.value } := by
  simp [exchange, Entry.put, apart]

theorem exchange_parent : exchange c g g = { g with value := c.value } := by
  simp [exchange, Entry.put]

theorem exchange_other {e : Entry T} (notC : e.addr ≠ c.addr) (notG : e.addr ≠ g.addr) :
    exchange c g e = e := by
  simp [exchange, Entry.put, notC, notG]

variable (flat : Flat es) (inC : c ∈ es) (inG : g ∈ es) (edge : c.parent = some g.addr)

include flat inC inG edge

theorem Flat.parent_apart : c.addr ≠ g.addr := by
  obtain ⟨e', inside, here, less⟩ := flat.up c inC g.addr edge
  rw [flat.unique inside inG here] at less
  intro same
  rw [flat.unique inC inG same] at less
  exact lt_irrefl _ less

theorem exchange_values : ((es.map (exchange c g)).map Entry.value).Perm (es.map Entry.value) := by
  have apart := flat.parent_apart inC inG edge
  obtain ⟨s, t, shape⟩ := append_of_mem inC
  have first : es.Perm (c :: (s ++ t)) := shape ▸ perm_middle
  have inRest : g ∈ s ++ t := by
    rcases mem_cons.mp (first.mem_iff.mp inG) with same | inside
    · exact absurd (congrArg Entry.addr same).symm apart
    · exact inside
  obtain ⟨s', t', shape'⟩ := append_of_mem inRest
  have second : es.Perm (c :: g :: (s' ++ t')) :=
    first.trans ((shape' ▸ perm_middle : (s ++ t).Perm (g :: (s' ++ t'))).cons c)
  have nodup := (second.map Entry.addr).nodup_iff.mp flat.nodup
  simp only [map_cons, nodup_cons, mem_cons, not_or, mem_map] at nodup
  have rest : (s' ++ t').map (exchange c g) = s' ++ t' := by
    refine (map_congr_left ?_).trans (map_id _)
    intro e member
    refine exchange_other ?_ ?_
    · exact fun same => nodup.1.2 ⟨e, member, same⟩
    · exact fun same => nodup.2.1 ⟨e, member, same⟩
  refine ((second.map (exchange c g)).map Entry.value).trans ?_
  refine List.Perm.trans ?_ (second.map Entry.value).symm
  simp only [map_cons, rest, exchange_child apart, exchange_parent]
  exact List.Perm.swap _ _ _

variable [IsStrictWeakOrder T (Lesser comp)]

theorem OrderedBut.exchange (but : OrderedBut comp c.addr es)
    (grand : ∀ e ∈ es, e.parent = some c.addr → comp e.value g.value = false) :
    OrderedBut comp g.addr (es.map (exchange c g)) ∧
      ∀ g' ∈ es.map (Binomial.exchange c g), g.parent = some g'.addr →
        ∀ e ∈ es.map (Binomial.exchange c g), e.parent = some g.addr → comp e.value g'.value = false := by
  have apart := flat.parent_apart inC inG edge
  have edgeOrder : comp c.value g.value = false := but c inC g inG edge fun same => apart same.symm
  -- `c` and `g` do not lie above their own parents
  have above : ∀ e ∈ es, ∀ e' ∈ es, e.parent = some e'.addr → e.degree < e'.degree := by
    intro e inside e' inside' parent
    obtain ⟨e₁, inside₁, here, less⟩ := flat.up e inside _ parent
    rwa [flat.unique inside₁ inside' here] at less
  have cBelow := above c inC g inG edge
  constructor
  · intro e member e' member' parent notG
    obtain ⟨e, inside, rfl⟩ := mem_map.mp member
    obtain ⟨e', inside', rfl⟩ := mem_map.mp member'
    have order := above e inside e' inside' parent
    by_cases isC : e'.addr = c.addr
    · have same := flat.unique inside' inC isC
      subst same
      have notC : e.addr ≠ e'.addr := fun same => by
        rw [flat.unique inside inside' same] at order
        exact lt_irrefl _ order
      have notG' : e.addr ≠ g.addr := fun same => by
        rw [flat.unique inside inG same] at order
        omega
      rw [exchange_child apart, exchange_other notC notG']
      exact grand e inside parent
    · rw [exchange_other isC notG]
      by_cases fromC : e.addr = c.addr
      · have same := flat.unique inside inC fromC
        subst same
        exact absurd (Option.some.inj (parent.symm.trans edge)) notG
      · by_cases fromG : e.addr = g.addr
        · have same := flat.unique inside inG fromG
          subst same
          rw [exchange_parent]
          exact comp_trans_false edgeOrder (but e inside e' inside' parent isC)
        · rw [exchange_other fromC fromG]
          exact but e inside e' inside' parent isC
  · intro g' member' parent' e member parent
    obtain ⟨g', inside', rfl⟩ := mem_map.mp member'
    obtain ⟨e, inside, rfl⟩ := mem_map.mp member
    have gBelow := above g inG g' inside' parent'
    have eBelow := above e inside g inG parent
    have notC : g'.addr ≠ c.addr := fun same => by
      rw [flat.unique inside' inC same] at gBelow
      omega
    have notG : g'.addr ≠ g.addr := fun same => by
      rw [flat.unique inside' inG same] at gBelow
      exact lt_irrefl _ gBelow
    have top := but g inG g' inside' parent' notC
    rw [exchange_other notC notG]
    by_cases fromC : e.addr = c.addr
    · rw [flat.unique inside inC fromC, exchange_child apart]
      exact top
    · have fromG : e.addr ≠ g.addr := fun same => by
        rw [flat.unique inside inG same] at eBelow
        exact lt_irrefl _ eBelow
      rw [exchange_other fromC fromG]
      exact comp_trans_false (but e inside g inG parent fun same => apart same.symm) top

end Swap

section Climb
variable [IsStrictWeakOrder T (Lesser comp)] {h : BinomialHeap T}

structure Raised (comp : T → T → Bool) (h h' : BinomialHeap T) (value : T) (top : Entry T) : Prop where
  shape : Shape h'
  flat : Flat (entriesOf h'.rootList)
  but : OrderedBut comp top.addr (entriesOf h'.rootList)
  member : top ∈ entriesOf h'.rootList
  root : top.parent = none
  value : top.value = value
  values : ((entriesOf h'.rootList).map Entry.value).Perm ((entriesOf h.rootList).map Entry.value)
  addrs : (entriesOf h'.rootList).map Entry.addr = (entriesOf h.rootList).map Entry.addr
  pool : h'.pool = h.pool
  count : h'.nodeCount = h.nodeCount

theorem raise_spec {c : Entry T} {bound fuel : Nat} (shape : Shape h)
    (flat : Flat (entriesOf h.rootList)) (inC : c ∈ entriesOf h.rootList)
    (but : OrderedBut comp c.addr (entriesOf h.rootList))
    (grand : ∀ g ∈ entriesOf h.rootList, c.parent = some g.addr →
      ∀ e ∈ entriesOf h.rootList, e.parent = some c.addr → comp e.value g.value = false)
    (degrees : ∀ e ∈ entriesOf h.rootList, e.degree < bound) (rounds : bound ≤ c.degree + fuel) :
    ∃ h' top, h.raise fuel c.addr = some (h', top.addr) ∧ Raised comp h h' c.value top := by
  induction fuel generalizing h c with
  | zero =>
    have low := degrees c inC
    omega
  | succ fuel ih =>
    have cell := cell_spec flat inC
    cases parent : c.parent with
    | none =>
      refine ⟨h, c, ?_, shape, flat, but, inC, parent, rfl, .refl _, rfl, rfl, rfl⟩
      simp only [raise, cell, parent, Option.bind_eq_bind, Option.bind_some]
    | some p =>
      obtain ⟨g, inG, here, less⟩ := flat.up c inC p parent
      subst here
      have cellG := cell_spec flat inG
      let h₁ := (h.write c.addr g.value).write g.addr c.value
      have entries : entriesOf h₁.rootList = (entriesOf h.rootList).map (exchange c g) := by
        rw [entriesOf_write, entriesOf_write, map_map]
        rfl
      have flat₁ : Flat (entriesOf h₁.rootList) := by
        rw [entriesOf_write, entriesOf_write]
        exact (flat.map_put _ _).map_put _ _
      obtain ⟨but₁, grand₁⟩ := but.exchange flat inC inG parent (grand g inG parent)
      have inTop : ({ g with value := c.value } : Entry T) ∈ entriesOf h₁.rootList := by
        rw [entries, ← exchange_parent]
        exact mem_map_of_mem inG
      rw [← entries] at but₁ grand₁
      have degrees₁ : ∀ e ∈ entriesOf h₁.rootList, e.degree < bound := by
        intro e member
        rw [entries] at member
        obtain ⟨e₀, inside, rfl⟩ := mem_map.mp member
        exact degrees e₀ inside
      have more : bound ≤ ({ g with value := c.value } : Entry T).degree + fuel := by
        simp only
        omega
      obtain ⟨h', top, result, raised⟩ :=
        ih ((shape.write _ _).write _ _) flat₁ inTop but₁ grand₁ degrees₁ more
      refine ⟨h', top, ?_, raised.shape, raised.flat, raised.but, raised.member, raised.root,
        raised.value, ?_, ?_, raised.pool, raised.count⟩
      · simp only [raise, cell, parent, swapValues, cellG, Option.bind_eq_bind, Option.bind_some]
        exact result
      · refine raised.values.trans ?_
        rw [entries]
        exact exchange_values flat inC inG parent
      · rw [raised.addrs, entries, map_map]
        rfl

end Climb

/-! ## Between trees and flat lists -/

section Flatten
variable {d D p : Nat} {v : T} {q : Option Nat} {c : Chain T}

theorem Kids.degree_lt (kids : Kids d c) : ∀ e ∈ entriesIn c, e.degree < d := by
  induction c generalizing d with
  | nil => exact fun e member => absurd member not_mem_nil
  | cons a v e p c s ihc ihs =>
    match d, kids with
    | d + 1, ⟨same, kidsC, kidsS⟩ =>
      intro x member
      rcases mem_cons.mp member with rfl | later
      · exact lt_succ_of_le (le_of_eq same)
      · rcases mem_append.mp later with below | beside
        · exact lt_succ_of_lt (ihc kidsC x below)
        · exact lt_succ_of_lt (ihs kidsS x beside)

theorem Parented.parent_ne (parented : Parented p c) : ∀ e ∈ entriesIn c, e.parent ≠ none := by
  induction c generalizing p with
  | nil => exact fun e member => absurd member not_mem_nil
  | cons a w k r c s ihc ihs =>
    intro e member
    rcases mem_cons.mp member with rfl | later
    · rw [parented.1]
      exact Option.some_ne_none _
    · rcases mem_append.mp later with below | beside
      · exact ihc parented.2.1 e below
      · exact ihs parented.2.2 e beside

theorem chain_up (kids : Kids d c) (le : d ≤ D) (parented : Parented p c) (ordered : Ordered comp v c) :
    ∀ e ∈ entriesIn c, ∃ e' ∈ (⟨p, v, D, q⟩ : Entry T) :: entriesIn c,
      e.parent = some e'.addr ∧ e.degree < e'.degree ∧ comp e.value e'.value = false := by
  induction c generalizing d D p v q with
  | nil => exact fun e member => absurd member not_mem_nil
  | cons a w k r c s ihc ihs =>
    match d, kids with
    | d + 1, ⟨same, kidsC, kidsS⟩ =>
      intro x member
      rcases mem_cons.mp member with rfl | later
      · refine ⟨_, mem_cons_self, parented.1, ?_, ordered.1⟩
        simp only
        omega
      · rcases mem_append.mp later with below | beside
        · obtain ⟨e', inside, edge⟩ :=
            ihc (q := r) kidsC (le_of_eq same.symm) parented.2.1 ordered.2.1 x below
          refine ⟨e', mem_cons_of_mem _ ?_, edge⟩
          rcases mem_cons.mp inside with rfl | inside
          · exact mem_cons_self
          · exact mem_cons_of_mem _ (mem_append_left _ inside)
        · obtain ⟨e', inside, edge⟩ :=
            ihs (q := q) kidsS (le_of_succ_le le) parented.2.2 ordered.2.2 x beside
          refine ⟨e', ?_, edge⟩
          rcases mem_cons.mp inside with rfl | inside
          · exact mem_cons_self
          · exact mem_cons_of_mem _ (mem_cons_of_mem _ (mem_append_right _ inside))

theorem ordered_of_flat (parented : Parented p c)
    (edges : ∀ e ∈ entriesIn c, ∀ e' ∈ (⟨p, v, D, q⟩ : Entry T) :: entriesIn c,
      e.parent = some e'.addr → comp e.value e'.value = false) : Ordered comp v c := by
  induction c generalizing p v D q with
  | nil => trivial
  | cons a w k r c s ihc ihs =>
    obtain ⟨here, parentedC, parentedS⟩ := parented
    refine ⟨edges _ mem_cons_self _ mem_cons_self here, ?_, ?_⟩
    · refine ihc (D := k) (q := r) parentedC fun e inside e' inside' => ?_
      refine edges e (mem_cons_of_mem _ (mem_append_left _ inside)) e'
        (mem_cons_of_mem _ ?_)
      rcases mem_cons.mp inside' with rfl | inside'
      · exact mem_cons_self
      · exact mem_cons_of_mem _ (mem_append_left _ inside')
    · refine ihs (D := D) (q := q) parentedS fun e inside e' inside' => ?_
      refine edges e (mem_cons_of_mem _ (mem_append_right _ inside)) e' ?_
      rcases mem_cons.mp inside' with rfl | inside'
      · exact mem_cons_self
      · exact mem_cons_of_mem _ (mem_cons_of_mem _ (mem_append_right _ inside'))

theorem kidsOrdered_of_flat (parented : Parented p c)
    (edges : ∀ e ∈ entriesIn c, ∀ e' ∈ entriesIn c,
      e.parent = some e'.addr → comp e.value e'.value = false) : KidsOrdered comp c := by
  induction c with
  | nil => trivial
  | cons a w k r c s _ ihs =>
    obtain ⟨here, parentedC, parentedS⟩ := parented
    refine ⟨ordered_of_flat (D := k) (q := r) parentedC fun e inside e' inside' => ?_,
      ihs parentedS fun e inside e' inside' => ?_⟩
    · refine edges e (mem_cons_of_mem _ (mem_append_left _ inside)) e' ?_
      rcases mem_cons.mp inside' with rfl | inside'
      · exact mem_cons_self
      · exact mem_cons_of_mem _ (mem_append_left _ inside')
    · exact edges e (mem_cons_of_mem _ (mem_append_right _ inside)) e'
        (mem_cons_of_mem _ (mem_append_right _ inside'))

end Flatten

section Delete
variable {h : BinomialHeap T}

def Root.entry (r : Root T) : Entry T := ⟨r.addr, r.value, r.degree, r.parent⟩

theorem mem_entriesOf {roots : List (Root T)} {e : Entry T} :
    e ∈ entriesOf roots ↔ ∃ r ∈ roots, e ∈ r.entry :: entriesIn r.child := mem_flatMap

theorem entriesOf_split (front back : List (Root T)) (r : Root T) :
    (entriesOf (front ++ r :: back)).Perm
      (entriesOf (front ++ back) ++ r.entry :: entriesIn r.child) := by
  have shape : entriesOf (r :: (front ++ back)) =
      (r.entry :: entriesIn r.child) ++ entriesOf (front ++ back) := rfl
  refine (perm_middle.flatMap_right _).trans ?_
  refine (List.Perm.of_eq shape).trans perm_append_comm

theorem HeapInv.shape (inv : HeapInv comp h) : Shape h where
  kids r member := (inv.forest.good r member).kids
  root r member := (inv.forest.good r member).root
  parented r member := (inv.forest.good r member).parented
  increasing := inv.forest.increasing

theorem HeapInv.edges (inv : HeapInv comp h) :
    ∀ e ∈ entriesOf h.rootList, ∀ p, e.parent = some p → ∃ e' ∈ entriesOf h.rootList,
      e'.addr = p ∧ e.degree < e'.degree ∧ comp e.value e'.value = false := by
  intro e member p parent
  obtain ⟨r, inside, inTree⟩ := mem_entriesOf.mp member
  have good := inv.forest.good r inside
  rcases mem_cons.mp inTree with rfl | below
  · cases good.root.symm.trans parent
  · obtain ⟨e', inside', edge, less, order⟩ := chain_up (q := r.parent) good.kids (le_refl _)
      good.parented good.ordered e below
    refine ⟨e', mem_entriesOf.mpr ⟨r, inside, inside'⟩, ?_, less, order⟩
    exact Option.some.inj (edge.symm.trans parent)

theorem HeapInv.flat (inv : HeapInv comp h) : Flat (entriesOf h.rootList) := by
  refine ⟨?_, ?_⟩
  · have nodup := inv.nodup
    rw [itemsOf_eq, map_map] at nodup
    exact nodup
  · intro e member p parent
    obtain ⟨e', inside, here, less, _⟩ := inv.edges e member p parent
    exact ⟨e', inside, here, less⟩

theorem HeapInv.edge_ordered (inv : HeapInv comp h) {e e' : Entry T}
    (member : e ∈ entriesOf h.rootList) (member' : e' ∈ entriesOf h.rootList)
    (parent : e.parent = some e'.addr) : comp e.value e'.value = false := by
  obtain ⟨e₁, inside, here, _, order⟩ := inv.edges e member _ parent
  rwa [inv.flat.unique inside member' here] at order

theorem HeapInv.degree_lt (inv : HeapInv comp h) :
    ∀ e ∈ entriesOf h.rootList, e.degree < h.nodeCount + 1 := by
  intro e member
  obtain ⟨r, inside, inTree⟩ := mem_entriesOf.mp member
  have kids := (inv.forest.good r inside).kids
  have size := kids.length_items
  have below : e.degree ≤ r.degree := by
    rcases mem_cons.mp inTree with rfl | deeper
    · exact le_refl _
    · exact le_of_lt (kids.degree_lt e deeper)
  have part : r.items.length ≤ (itemsOf h.rootList).length := by
    obtain ⟨front, back, roots⟩ := append_of_mem inside
    rw [roots, itemsOf, flatMap_append, flatMap_cons]
    simp only [length_append]
    omega
  have power := Nat.lt_two_pow_self (n := r.degree)
  rw [← inv.count] at part
  simp only [Root.items, length_cons] at part
  omega

variable [IsStrictWeakOrder T (Lesser comp)]

/-- `delete_node` moves the value to the root `top` and takes that node out. -/
theorem deleteNode_climbs (inv : HeapInv comp h) {c : Entry T}
    (member : c ∈ entriesOf h.rootList) :
    ∃ h₁ top h', h.raise (h.nodeCount + 1) c.addr = some (h₁, top.addr) ∧
      Raised comp h h₁ c.value top ∧ h.deleteNode comp (some c.addr) = some h' ∧
      HeapInv comp h' ∧
      ((top.addr, c.value) :: itemsOf h'.rootList).Perm (itemsOf h₁.rootList) ∧
      h'.pool = top.addr :: h.pool := by
  have flat := inv.flat
  obtain ⟨h₁, top, climbed, raised⟩ := raise_spec inv.shape flat member
    (fun e inE e' inE' parent _ => inv.edge_ordered inE inE' parent)
    (fun g inG parent e inE parentE =>
      comp_trans_false (inv.edge_ordered inE member parentE) (inv.edge_ordered member inG parent))
    inv.degree_lt (le_add_left _ _)
  obtain ⟨r, inRoots, inTree⟩ := mem_entriesOf.mp raised.member
  have isRoot : top = r.entry := by
    rcases mem_cons.mp inTree with same | below
    · exact same
    · exact absurd raised.root ((raised.shape.parented r inRoots).parent_ne top below)
  subst isRoot
  have climbed : h.raise (h.nodeCount + 1) c.addr = some (h₁, r.addr) := climbed
  obtain ⟨front, back, roots⟩ := append_of_mem inRoots
  have perm := entriesOf_split front back r
  rw [← roots] at perm
  have apart := (perm.map Entry.addr).nodup_iff.mp raised.flat.nodup
  rw [map_append, map_cons, nodup_append, nodup_cons] at apart
  obtain ⟨_, ⟨notBelow, _⟩, notOther⟩ := apart
  have inOthers : ∀ x ∈ front ++ back, x ∈ h₁.rootList := by
    intro x inside
    rw [roots]
    rcases mem_append.mp inside with left | right
    · exact mem_append_left _ left
    · exact mem_append_right _ (mem_cons_of_mem _ right)
  have forest : Forest comp (front ++ back) := by
    refine ⟨?_, ?_⟩
    · intro x inside
      have here := inOthers x inside
      refine ⟨raised.shape.kids x here, raised.shape.root x here, raised.shape.parented x here, ?_⟩
      refine ordered_of_flat (D := x.degree) (q := x.parent) (raised.shape.parented x here) ?_
      intro e inE e' inE' parent
      refine raised.but e (mem_entriesOf.mpr ⟨x, here, mem_cons_of_mem _ inE⟩) e'
        (mem_entriesOf.mpr ⟨x, here, inE'⟩) parent ?_
      refine notOther e'.addr (mem_map_of_mem ?_) r.addr mem_cons_self
      exact mem_entriesOf.mpr ⟨x, inside, inE'⟩
    · have increasing := raised.shape.increasing
      rw [roots] at increasing
      refine increasing.sublist (List.Sublist.map _ ?_)
      exact (sublist_cons_self _ _).append_left _
  have kidsOrdered : KidsOrdered comp r.child := by
    refine kidsOrdered_of_flat (raised.shape.parented r inRoots) ?_
    intro e inE e' inE' parent
    refine raised.but e (mem_entriesOf.mpr ⟨r, inRoots, mem_cons_of_mem _ inE⟩) e'
      (mem_entriesOf.mpr ⟨r, inRoots, mem_cons_of_mem _ inE'⟩) parent ?_
    exact fun same => notBelow (mem_map.mpr ⟨e', inE', same⟩)
  have addrs : (itemsOf h₁.rootList).map Prod.fst = (itemsOf h.rootList).map Prod.fst := by
    rw [itemsOf_eq, itemsOf_eq, map_map, map_map]
    exact raised.addrs
  have length : (itemsOf h₁.rootList).length = (itemsOf h.rootList).length := by
    simpa using congrArg List.length addrs
  obtain ⟨h', result, inv', items, pool⟩ :=
    extractMin_removes (h := { h₁ with minNode := some r.addr }) roots rfl forest
      (raised.shape.kids r inRoots) (raised.shape.parented r inRoots) kidsOrdered
      (addrs ▸ inv.nodup) (by rw [raised.count, inv.count, length])
  have value : r.value = c.value := raised.value
  refine ⟨h₁, r.entry, h', climbed, raised, ?_, inv', ?_, ?_⟩
  · simp only [deleteNode, climbed, result, Option.bind_eq_bind, Option.bind_some]
  · exact value ▸ items
  · rw [pool, raised.pool]
    rfl

/-- `delete_node` takes out the value of the node it is given. -/
theorem deleteNode_spec (inv : HeapInv comp h) {c : Entry T} (member : c ∈ entriesOf h.rootList) :
    ∃ h' node, h.deleteNode comp (some c.addr) = some h' ∧ HeapInv comp h' ∧
      (c.value :: (itemsOf h'.rootList).map Prod.snd).Perm ((itemsOf h.rootList).map Prod.snd) ∧
      (node :: (itemsOf h'.rootList).map Prod.fst).Perm ((itemsOf h.rootList).map Prod.fst) ∧
      h'.pool = node :: h.pool := by
  obtain ⟨h₁, top, h', _, raised, result, inv', items, pool⟩ := deleteNode_climbs inv member
  have addrs : (itemsOf h₁.rootList).map Prod.fst = (itemsOf h.rootList).map Prod.fst := by
    rw [itemsOf_eq, itemsOf_eq, map_map, map_map]
    exact raised.addrs
  have values : ((itemsOf h₁.rootList).map Prod.snd).Perm ((itemsOf h.rootList).map Prod.snd) := by
    rw [itemsOf_eq, itemsOf_eq, map_map, map_map]
    exact raised.values
  have first := items.map Prod.fst
  have second := items.map Prod.snd
  exact ⟨h', top.addr, result, inv', second.trans values, addrs ▸ first, pool⟩

end Delete

end Micron.Binomial
