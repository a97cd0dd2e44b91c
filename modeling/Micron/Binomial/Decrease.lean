import Micron.Binomial.Delete

/-!
# Decreasing a key

`decrease_key` writes the new value into the node and swaps it upwards while it is less than the
value of the parent.  Where it is not, the heap only changes at the node; otherwise the node is
left with the value that its parent had.
-/

set_option autoImplicit false

namespace Micron.Binomial

open Micron.Lib List

variable {T : Type} {comp : T → T → Bool}

namespace BinomialHeap

/-- The loop of `decrease_key` from `curr` on: the heap and the node it ends at. -/
def lift (comp : T → T → Bool) (h : BinomialHeap T) : Nat → Nat → Option (BinomialHeap T × Nat)
  | 0, _ => none
  | fuel + 1, curr => do
      let c ← h.cell curr
      match c.parent with
      | none => some (h, curr)
      | some parent =>
        let p ← h.cell parent
        if comp c.value p.value then
          let h ← h.swapValues curr parent
          lift comp h fuel parent
        else some (h, curr)

def decreaseKey (comp : T → T → Bool) (h : BinomialHeap T) (node : Nat) (newValue : T) :
    Option (BinomialHeap T) := do
  let c ← h.cell node
  if comp newValue c.value then
    let (h, curr) ← (h.write node newValue).lift comp (h.nodeCount + 1) node
    match h.minNode with
    | none => some { h with minNode := some curr }
    | some least =>
      let x ← h.cell curr
      let y ← h.cell least
      some (if comp x.value y.value then { h with minNode := some curr } else h)
  else some h

end BinomialHeap

open BinomialHeap

def pointersOf (e : Entry T) : Nat × Nat × Option Nat := (e.addr, e.degree, e.parent)

theorem write_pointers (h : BinomialHeap T) (node : Nat) (value : T) :
    (entriesOf (h.write node value).rootList).map pointersOf =
      (entriesOf h.rootList).map pointersOf := by
  rw [entriesOf_write, map_map]
  rfl

theorem swapValues_pointers {h h' : BinomialHeap T} {a b : Nat}
    (swapped : h.swapValues a b = some h') :
    (entriesOf h'.rootList).map pointersOf = (entriesOf h.rootList).map pointersOf := by
  obtain ⟨x, _, rest⟩ := Option.bind_eq_some_iff.mp swapped
  obtain ⟨y, _, same⟩ := Option.bind_eq_some_iff.mp rest
  cases same
  rw [write_pointers, write_pointers]

theorem raise_pointers {h h' : BinomialHeap T} {fuel curr top : Nat}
    (climbed : h.raise fuel curr = some (h', top)) :
    (entriesOf h'.rootList).map pointersOf = (entriesOf h.rootList).map pointersOf := by
  induction fuel generalizing h curr with
  | zero => cases climbed
  | succ fuel ih =>
    obtain ⟨c, _, rest⟩ := Option.bind_eq_some_iff.mp climbed
    cases parent : c.parent with
    | none =>
      rw [parent] at rest
      cases rest
      rfl
    | some p =>
      rw [parent] at rest
      obtain ⟨h₁, swapped, more⟩ := Option.bind_eq_some_iff.mp rest
      rw [ih more, swapValues_pointers swapped]

/-- A node with the pointers of `e`, in a heap with the pointers of another. -/
theorem mem_of_pointers {es es' : List (Entry T)}
    (same : es'.map pointersOf = es.map pointersOf) {e : Entry T} (member : e ∈ es) :
    ∃ e' ∈ es', pointersOf e' = pointersOf e := by
  have inside : pointersOf e ∈ es'.map pointersOf := by
    rw [same]
    exact mem_map_of_mem member
  obtain ⟨e', member', here⟩ := mem_map.mp inside
  exact ⟨e', member', here⟩

theorem Flat.of_pointers {es es' : List (Entry T)} (flat : Flat es)
    (same : es'.map pointersOf = es.map pointersOf) : Flat es' := by
  refine ⟨?_, fun e member p parent => ?_⟩
  · have addrs : es'.map Entry.addr = es.map Entry.addr := by
      have firsts := congrArg (List.map Prod.fst) same
      rwa [map_map, map_map] at firsts
    rw [addrs]
    exact flat.nodup
  · obtain ⟨e₀, member₀, here⟩ := mem_of_pointers same.symm member
    have parent₀ : e₀.parent = some p := (congrArg (fun x => x.2.2) here).trans parent
    obtain ⟨g, inside, addr, less⟩ := flat.up e₀ member₀ p parent₀
    obtain ⟨g', inside', there⟩ := mem_of_pointers same inside
    have degree : e₀.degree = e.degree := congrArg (fun x => x.2.1) here
    have degree' : g'.degree = g.degree := congrArg (fun x => x.2.1) there
    exact ⟨g', inside', (congrArg (fun x => x.1) there).trans addr, by omega⟩

theorem write_other {h : BinomialHeap T} {e : Entry T} {node : Nat} (value : T)
    (member : e ∈ entriesOf h.rootList) (other : e.addr ≠ node) :
    e ∈ entriesOf (h.write node value).rootList := by
  rw [entriesOf_write]
  refine mem_map.mpr ⟨e, member, ?_⟩
  rw [Entry.put, if_neg other]

theorem write_here {h : BinomialHeap T} {e : Entry T} (value : T)
    (member : e ∈ entriesOf h.rootList) :
    { e with value := value } ∈ entriesOf (h.write e.addr value).rootList := by
  rw [entriesOf_write]
  refine mem_map.mpr ⟨e, member, ?_⟩
  rw [Entry.put, if_pos rfl]

/-- What the loop of `decrease_key` leaves: every node of a smaller degree is as it was. -/
structure Lifted (h h' : BinomialHeap T) (degree top : Nat) : Prop where
  pointers : (entriesOf h'.rootList).map pointersOf =
    (entriesOf h.rootList).map pointersOf
  top : top ∈ (entriesOf h'.rootList).map Entry.addr
  below : ∀ e ∈ entriesOf h.rootList, e.degree < degree → e ∈ entriesOf h'.rootList
  least : h'.minNode = h.minNode

variable (comp) in
theorem lift_spec {h : BinomialHeap T} {c : Entry T} {bound fuel : Nat}
    (flat : Flat (entriesOf h.rootList)) (inC : c ∈ entriesOf h.rootList)
    (degrees : ∀ e ∈ entriesOf h.rootList, e.degree < bound) (rounds : bound ≤ c.degree + fuel) :
    ∃ h' top, h.lift comp fuel c.addr = some (h', top) ∧ Lifted h h' c.degree top := by
  induction fuel generalizing h c with
  | zero =>
    have low := degrees c inC
    omega
  | succ fuel ih =>
    have cell := cell_spec flat inC
    have stays : Lifted h h c.degree c.addr :=
      ⟨rfl, mem_map_of_mem inC, fun e member _ => member, rfl⟩
    cases parent : c.parent with
    | none =>
      refine ⟨h, c.addr, ?_, stays⟩
      simp only [lift, cell, parent, Option.bind_eq_bind, Option.bind_some]
    | some p =>
      obtain ⟨g, inG, here, less⟩ := flat.up c inC p parent
      subst here
      have cellG := cell_spec flat inG
      cases lower : comp c.value g.value with
      | false =>
        refine ⟨h, c.addr, ?_, stays⟩
        simp [lift, cell, parent, cellG, lower]
      | true =>
        have apart := flat.parent_apart inC inG parent
        let h₁ := (h.write c.addr g.value).write g.addr c.value
        have pointers : (entriesOf h₁.rootList).map pointersOf =
            (entriesOf h.rootList).map pointersOf := by
          rw [write_pointers, write_pointers]
        have inTop : ({ g with value := c.value } : Entry T) ∈ entriesOf h₁.rootList :=
          write_here c.value (write_other g.value inG (Ne.symm apart))
        have degrees₁ : ∀ e ∈ entriesOf h₁.rootList, e.degree < bound := by
          intro e member
          obtain ⟨e₀, member₀, same⟩ := mem_of_pointers pointers.symm member
          have degree : e₀.degree = e.degree := congrArg (fun x => x.2.1) same
          exact degree ▸ degrees e₀ member₀
        obtain ⟨h', top, result, lifted⟩ :=
          ih (flat.of_pointers pointers) inTop degrees₁ (by simp only; omega)
        refine ⟨h', top, ?_, lifted.pointers.trans pointers, lifted.top, ?_, lifted.least⟩
        · simp only [lift, cell, parent, cellG, lower, swapValues, Option.bind_eq_bind,
            Option.bind_some, if_true]
          exact result
        · intro e member low
          have notC : e.addr ≠ c.addr := fun same => by
            rw [flat.unique member inC same] at low
            exact lt_irrefl _ low
          have notG : e.addr ≠ g.addr := fun same => by
            rw [flat.unique member inG same] at low
            omega
          exact lifted.below e (write_other c.value (write_other g.value member notC) notG)
            (lt_trans low less)

section Decrease
variable {h : BinomialHeap T} {c : Entry T} {value : T}

/-- The new value needs no swap: the node has no parent or its parent is not greater. -/
def Settled (comp : T → T → Bool) (h : BinomialHeap T) (c : Entry T) (value : T) : Prop :=
  ∀ p ∈ entriesOf h.rootList, c.parent = some p.addr → comp value p.value = false

theorem decreaseKey_refused (inv : HeapInv comp h) (inC : c ∈ entriesOf h.rootList)
    (refused : comp value c.value = false) : h.decreaseKey comp c.addr value = some h := by
  simp [decreaseKey, cell_spec inv.flat inC, refused]

theorem itemsOf_write (node : Nat) (value : T) :
    itemsOf (h.write node value).rootList =
      (itemsOf h.rootList).map fun item => (item.1, if item.1 = node then value else item.2) := by
  rw [itemsOf_eq, itemsOf_eq, entriesOf_write, map_map, map_map]
  rfl

theorem leastAt_of_entry (shape : Shape h) {e : Entry T} (member : e ∈ entriesOf h.rootList)
    (root : e.parent = none) (low : ∀ e' ∈ entriesOf h.rootList, comp e'.value e.value = false) :
    LeastAt comp h.rootList (some e.addr) := by
  obtain ⟨r, inside, inTree⟩ := mem_entriesOf.mp member
  rcases mem_cons.mp inTree with rfl | below
  · refine ⟨r, inside, rfl, fun r' inside' => ?_⟩
    exact low r'.entry (mem_entriesOf.mpr ⟨r', inside', mem_cons_self⟩)
  · exact absurd root ((shape.parented r inside).parent_ne e below)

variable [IsStrictWeakOrder T (Lesser comp)]

theorem HeapInv.least_entry (inv : HeapInv comp h) (inC : c ∈ entriesOf h.rootList) :
    ∃ m ∈ entriesOf h.rootList, h.minNode = some m.addr ∧ m.parent = none ∧
      ∀ e ∈ entriesOf h.rootList, comp e.value m.value = false := by
  have least := inv.least
  cases min : h.minNode with
  | none =>
    rw [min] at least
    have noRoots : h.rootList = [] := least
    rw [noRoots] at inC
    cases inC
  | some node =>
    rw [min] at least
    obtain ⟨r, inside, rfl, low⟩ := least
    refine ⟨r.entry, mem_entriesOf.mpr ⟨r, inside, mem_cons_self⟩, rfl,
      (inv.forest.good r inside).root, fun e member => ?_⟩
    obtain ⟨root, rootIn, inTree⟩ := mem_entriesOf.mp member
    rcases mem_cons.mp inTree with rfl | deeper
    · exact low root rootIn
    · refine comp_trans_false ((inv.forest.good root rootIn).ordered.bound (e.addr, e.value) ?_)
        (low root rootIn)
      rw [itemsIn_eq]
      exact mem_map_of_mem deeper

theorem write_edges (inv : HeapInv comp h) (inC : c ∈ entriesOf h.rootList)
    (lower : comp value c.value = true) (settled : Settled comp h c value) :
    ∀ e ∈ entriesOf (h.write c.addr value).rootList,
      ∀ e' ∈ entriesOf (h.write c.addr value).rootList,
        e.parent = some e'.addr → comp e.value e'.value = false := by
  rw [entriesOf_write]
  intro e member e' member' parent
  obtain ⟨e, inside, rfl⟩ := mem_map.mp member
  obtain ⟨e', inside', rfl⟩ := mem_map.mp member'
  have edge : e.parent = some e'.addr := parent
  have order := inv.edge_ordered inside inside' edge
  have apart := inv.flat.parent_apart inside inside' edge
  rw [Entry.put, Entry.put]
  by_cases fromC : e.addr = c.addr
  · have same := inv.flat.unique inside inC fromC
    subst same
    rw [if_pos rfl, if_neg (Ne.symm apart)]
    exact settled e' inside' edge
  · rw [if_neg fromC]
    by_cases toC : e'.addr = c.addr
    · have same := inv.flat.unique inside' inC toC
      subst same
      rw [if_pos rfl]
      exact comp_trans_false order (comp_asymm lower)
    · rw [if_neg toC]
      exact order

theorem write_forest (inv : HeapInv comp h) (inC : c ∈ entriesOf h.rootList)
    (lower : comp value c.value = true) (settled : Settled comp h c value) :
    Forest comp (h.write c.addr value).rootList := by
  have shape := inv.shape.write c.addr value
  have edges := write_edges inv inC lower settled
  refine ⟨fun r inside => ?_, shape.increasing⟩
  refine ⟨shape.kids r inside, shape.root r inside, shape.parented r inside, ?_⟩
  refine ordered_of_flat (D := r.degree) (q := r.parent) (shape.parented r inside) ?_
  intro e member e' member' parent
  exact edges e (mem_entriesOf.mpr ⟨r, inside, mem_cons_of_mem _ member⟩) e'
    (mem_entriesOf.mpr ⟨r, inside, member'⟩) parent

/-- Where no swap is needed the heap changes at the node only. -/
theorem decreaseKey_settled (inv : HeapInv comp h) (inC : c ∈ entriesOf h.rootList)
    (lower : comp value c.value = true) (settled : Settled comp h c value) :
    ∃ h', h.decreaseKey comp c.addr value = some h' ∧ HeapInv comp h' ∧
      h'.rootList = (h.write c.addr value).rootList ∧ h'.pool = h.pool := by
  have shape := inv.shape.write c.addr value
  have flat₁ : Flat (entriesOf (h.write c.addr value).rootList) :=
    inv.flat.of_pointers (write_pointers h c.addr value)
  have inC₁ := write_here value inC
  have cell₁ := cell_spec flat₁ inC₁
  have lifted : (h.write c.addr value).lift comp (h.nodeCount + 1) c.addr =
      some (h.write c.addr value, c.addr) := by
    cases parent : c.parent with
    | none => simp only [lift, cell₁, parent, Option.bind_eq_bind, Option.bind_some]
    | some p =>
      obtain ⟨g, inG, here, _⟩ := inv.flat.up c inC p parent
      subst here
      have apart := inv.flat.parent_apart inC inG parent
      have cellG := cell_spec flat₁ (write_other value inG (Ne.symm apart))
      simp [lift, cell₁, parent, cellG, settled g inG parent]
  obtain ⟨m, inM, min, root, low⟩ := inv.least_entry inC
  obtain ⟨y, inY, addrY, rootY, valueY⟩ : ∃ y ∈ entriesOf (h.write c.addr value).rootList,
      y.addr = m.addr ∧ y.parent = none ∧
        y.value = if m.addr = c.addr then value else m.value := by
    refine ⟨Entry.put c.addr value m, ?_, rfl, root, rfl⟩
    rw [entriesOf_write]
    exact mem_map_of_mem inM
  have cellY : (h.write c.addr value).cell m.addr = some y := addrY ▸ cell_spec flat₁ inY
  have forest := write_forest inv inC lower settled
  have nodup : ((itemsOf (h.write c.addr value).rootList).map Prod.fst).Nodup := by
    rw [itemsOf_write, map_map]
    exact inv.nodup
  have count : h.nodeCount = (itemsOf (h.write c.addr value).rootList).length := by
    rw [itemsOf_write, length_map, inv.count]
  -- a node that was not written is not less than the old least one
  have bound : ∀ t : T, comp value t = false → (∀ e ∈ entriesOf h.rootList, comp e.value t = false) →
      ∀ e ∈ entriesOf (h.write c.addr value).rootList, comp e.value t = false := by
    intro t here others e member
    rw [entriesOf_write] at member
    obtain ⟨e₀, inside, rfl⟩ := mem_map.mp member
    rw [Entry.put]
    split
    · exact here
    · exact others e₀ inside
  have result : h.decreaseKey comp c.addr value =
      some (if comp value y.value then { h.write c.addr value with minNode := some c.addr }
        else h.write c.addr value) := by
    have min₁ : (h.write c.addr value).minNode = some m.addr := min
    simp only [decreaseKey, cell_spec inv.flat inC, lower, lifted, min₁, cell₁, cellY,
      Option.bind_eq_bind, Option.bind_some, if_true]
  cases less : comp value y.value with
  | true =>
    rw [less, if_pos rfl] at result
    have notC : m.addr ≠ c.addr := by
      intro same
      rw [valueY, if_pos same, (comp_irrefl value : comp value value = false)] at less
      cases less
    rw [valueY, if_neg notC] at less
    have isRoot : c.parent = none := by
      cases parent : c.parent with
      | none => rfl
      | some p =>
        obtain ⟨g, inG, here, _⟩ := inv.flat.up c inC p parent
        subst here
        have notLess := comp_trans_false (settled g inG parent) (low g inG)
        rw [less] at notLess
        cases notLess
    refine ⟨_, result, ⟨forest, nodup, count, ?_⟩, rfl, rfl⟩
    refine leastAt_of_entry (e := { c with value := value }) shape inC₁ isRoot ?_
    exact bound value (comp_irrefl value)
      fun e member => comp_trans_false (low e member) (comp_asymm less)
  | false =>
    rw [less, if_neg Bool.false_ne_true] at result
    refine ⟨_, result, ⟨forest, nodup, count, ?_⟩, rfl, rfl⟩
    have min₁ : (h.write c.addr value).minNode = some y.addr := by
      rw [addrY]
      exact min
    rw [min₁]
    refine leastAt_of_entry shape inY rootY (bound y.value less fun e member => ?_)
    rw [valueY]
    split
    next same =>
      have mIsC := inv.flat.unique inM inC same
      subst mIsC
      exact comp_trans_false (low e member) (comp_asymm lower)
    next other => exact low e member

/-- Where a swap is needed the node is left with the value of its parent. -/
theorem decreaseKey_unsettled (inv : HeapInv comp h) {g : Entry T}
    (inC : c ∈ entriesOf h.rootList) (inG : g ∈ entriesOf h.rootList)
    (parent : c.parent = some g.addr) (lower : comp value c.value = true)
    (less : comp value g.value = true) :
    ∃ h', h.decreaseKey comp c.addr value = some h' ∧
      (c.addr, g.value) ∈ itemsOf h'.rootList := by
  have flat := inv.flat
  have apart := flat.parent_apart inC inG parent
  have below : c.degree < g.degree := by
    obtain ⟨g', inside, here, smaller⟩ := flat.up c inC _ parent
    rwa [flat.unique inside inG here] at smaller
  let h₁ := h.write c.addr value
  let h₂ := (h₁.write c.addr g.value).write g.addr value
  have pointers : (entriesOf h₂.rootList).map pointersOf = (entriesOf h.rootList).map pointersOf := by
    rw [write_pointers, write_pointers, write_pointers]
  have flat₁ : Flat (entriesOf h₁.rootList) := flat.of_pointers (write_pointers h c.addr value)
  have inC₁ : ({ c with value := value } : Entry T) ∈ entriesOf h₁.rootList := write_here value inC
  have inG₁ : g ∈ entriesOf h₁.rootList := write_other value inG (Ne.symm apart)
  have inC₂ : ({ c with value := g.value } : Entry T) ∈ entriesOf h₂.rootList :=
    write_other value (write_here (e := { c with value := value }) g.value inC₁) apart
  have inG₂ : ({ g with value := value } : Entry T) ∈ entriesOf h₂.rootList :=
    write_here value (write_other g.value inG₁ (Ne.symm apart))
  have degrees : ∀ e ∈ entriesOf h₂.rootList, e.degree < h.nodeCount + 1 := by
    intro e member
    obtain ⟨e₀, member₀, same⟩ := mem_of_pointers pointers.symm member
    have degree : e₀.degree = e.degree := congrArg (fun x => x.2.1) same
    exact degree ▸ inv.degree_lt e₀ member₀
  obtain ⟨h', top, climbed, lifted⟩ :=
    lift_spec comp (flat.of_pointers pointers) inG₂ degrees
      (by omega : h.nodeCount + 1 ≤ g.degree + h.nodeCount)
  have kept : ({ c with value := g.value } : Entry T) ∈ entriesOf h'.rootList :=
    lifted.below _ inC₂ below
  have first : (h.write c.addr value).lift comp (h.nodeCount + 1) c.addr = some (h', top) := by
    change h₁.lift comp (h.nodeCount + 1) c.addr = some (h', top)
    simp only [lift, cell_spec flat₁ inC₁, parent, cell_spec flat₁ inG₁, less, swapValues,
      Option.bind_eq_bind, Option.bind_some, if_true]
    exact climbed
  obtain ⟨m, inM, min, _, _⟩ := inv.least_entry inC
  have flat' := flat.of_pointers (lifted.pointers.trans pointers)
  obtain ⟨m', inM', sameM⟩ := mem_of_pointers (lifted.pointers.trans pointers) inM
  have addrM : m'.addr = m.addr := congrArg (fun x => x.1) sameM
  obtain ⟨x, inX, addrX⟩ := mem_map.mp lifted.top
  have cellX : h'.cell top = some x := addrX ▸ cell_spec flat' inX
  have cellM : h'.cell m.addr = some m' := addrM ▸ cell_spec flat' inM'
  have min' : h'.minNode = some m.addr := lifted.least.trans min
  have item : (c.addr, g.value) ∈ itemsOf h'.rootList := by
    rw [itemsOf_eq]
    exact mem_map.mpr ⟨_, kept, rfl⟩
  refine ⟨if comp x.value m'.value then { h' with minNode := some top } else h', ?_, ?_⟩
  · simp only [decreaseKey, cell_spec flat inC, lower, first, min', cellX, cellM,
      Option.bind_eq_bind, Option.bind_some, if_true]
  · split
    · exact item
    · exact item

end Decrease

end Micron.Binomial
