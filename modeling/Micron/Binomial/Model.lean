import Mathlib.Data.Set.Card
import Micron.Lib.WeakOrder

/-!
# The binomial heap

`heap/binomial.hpp` keeps binomial trees in a list of roots.  The nodes of a list
of children are linked by `sibling` and each points to its own children by
`child`; a pointer to such a list is a `Chain`, with null as `nil`.  The list of
roots, which the loops of the heap take apart, is a list of nodes.  The pointers
that do not own what they point to, `parent`, `min_node` and those of the caller,
are addresses.  A step that would follow a null pointer gives `none`.
-/

set_option autoImplicit false

namespace Micron.Binomial

open List

variable {T : Type}

/-- A node with its children and the siblings behind it. -/
inductive Chain (T : Type) where
  | nil
  | cons (addr : Nat) (value : T) (degree : Nat) (parent : Option Nat) (child sibling : Chain T)

structure Root (T : Type) where
  addr : Nat
  value : T
  degree : Nat
  parent : Option Nat
  child : Chain T

def link (y z : Root T) : Root T :=
  ⟨z.addr, z.value, z.degree + 1, z.parent,
    .cons y.addr y.value y.degree (some z.addr) y.child z.child⟩

def mergeRootLists (h₁ h₂ : List (Root T)) : List (Root T) :=
  List.merge h₁ h₂ fun x y => decide (x.degree ≤ y.degree)

/-- The loop of `union_heap` from `curr` on; the second list begins with `next`.
What led to `curr` leads to the front of the result. -/
def unionLoop (comp : T → T → Bool) (curr : Root T) : List (Root T) → List (Root T)
  | [] => [curr]
  | next :: rest =>
    if curr.degree ≠ next.degree ∨ rest.head?.map Root.degree = some curr.degree then
      curr :: unionLoop comp next rest
    else if comp curr.value next.value then unionLoop comp (link next curr) rest
    else unionLoop comp (link curr next) rest

/-- The scan of `update_min` with the least root so far. -/
def leastFrom (comp : T → T → Bool) (least : Root T) : List (Root T) → Root T
  | [] => least
  | r :: rest => leastFrom comp (if comp r.value least.value then r else least) rest

structure BinomialHeap (T : Type) where
  rootList : List (Root T)
  minNode : Option Nat
  nodeCount : Nat
  pool : List Nat

namespace BinomialHeap

def empty : BinomialHeap T := ⟨[], none, 0, []⟩

section Compare
variable (comp : T → T → Bool)

def updateMin (h : BinomialHeap T) : BinomialHeap T :=
  match h.rootList with
  | [] => { h with minNode := none }
  | r :: rest => { h with minNode := some (leastFrom comp r rest).addr }

def unionHeap (h other : BinomialHeap T) : BinomialHeap T × BinomialHeap T :=
  match other.rootList with
  | [] => (h, other)
  | _ :: _ =>
    match mergeRootLists h.rootList other.rootList with
    | [] =>
      ({ h with rootList := [], minNode := none, nodeCount := h.nodeCount + other.nodeCount },
        { other with rootList := [], nodeCount := 0 })
    | curr :: rest =>
      let h := updateMin comp { h with rootList := unionLoop comp curr rest }
      ({ h with nodeCount := h.nodeCount + other.nodeCount },
        { other with rootList := [], nodeCount := 0, minNode := none })

/-- The address of a new node, and the next address that `new` gives. -/
def acquire (h : BinomialHeap T) (fresh : Nat) : Nat × BinomialHeap T × Nat :=
  match h.pool with
  | slot :: pool => (slot, { h with pool := pool }, fresh)
  | [] => (fresh, h, fresh + 1)

def insert (h : BinomialHeap T) (fresh : Nat) (value : T) : Nat × BinomialHeap T × Nat :=
  let (node, h, fresh) := h.acquire fresh
  let temp : BinomialHeap T := ⟨[⟨node, value, 0, none, .nil⟩], some node, 1, []⟩
  (node, (unionHeap comp h temp).1, fresh)

def emplace (h : BinomialHeap T) (fresh : Nat) (value : T) : Nat × BinomialHeap T × Nat :=
  h.insert comp fresh value

/-- The loop that looks for `min_node` among the roots: the node and the list without
it. -/
def unlinkRoot (node : Nat) : List (Root T) → Option (Root T × List (Root T))
  | [] => none
  | curr :: rest =>
    if curr.addr = node then some (curr, rest)
    else (unlinkRoot node rest).map fun found => (found.1, curr :: found.2)

/-- The loop that reverses the children of the least root. -/
def reverseChildren : Chain T → List (Root T) → List (Root T)
  | .nil, reversed => reversed
  | .cons a v d _ c s, reversed => reverseChildren s (⟨a, v, d, none, c⟩ :: reversed)

/-- The value is none for the exception of an empty heap. -/
def extractMin (h : BinomialHeap T) : Option (Option T × BinomialHeap T) :=
  match h.minNode with
  | none => some (none, h)
  | some node => do
      let (root, rest) ← unlinkRoot node h.rootList
      let reversed := reverseChildren root.child []
      let h := { h with rootList := rest, pool := node :: h.pool, nodeCount := h.nodeCount - 1 }
      let h := (unionHeap comp h ⟨reversed, none, 0, []⟩).1
      let h := if reversed.isEmpty then updateMin comp h else h
      some (some root.value, h)

end Compare

/-- What the loops of `delete_node` read and write of a node. -/
structure Entry (T : Type) where
  addr : Nat
  value : T
  degree : Nat
  parent : Option Nat

def entriesIn : Chain T → List (Entry T)
  | .nil => []
  | .cons a v d p c s => ⟨a, v, d, p⟩ :: (entriesIn c ++ entriesIn s)

def entriesOf (roots : List (Root T)) : List (Entry T) :=
  roots.flatMap fun r => ⟨r.addr, r.value, r.degree, r.parent⟩ :: entriesIn r.child

def cell (h : BinomialHeap T) (node : Nat) : Option (Entry T) :=
  (entriesOf h.rootList).find? fun e => e.addr == node

def writeIn (node : Nat) (value : T) : Chain T → Chain T
  | .nil => .nil
  | .cons a v d p c s =>
    .cons a (if a = node then value else v) d p (writeIn node value c) (writeIn node value s)

def write (h : BinomialHeap T) (node : Nat) (value : T) : BinomialHeap T :=
  { h with rootList := h.rootList.map fun r =>
      { r with
        value := if r.addr = node then value else r.value
        child := writeIn node value r.child } }

def swapValues (h : BinomialHeap T) (a b : Nat) : Option (BinomialHeap T) := do
  let x ← h.cell a
  let y ← h.cell b
  some ((h.write a y.value).write b x.value)

/-- The loop of `delete_node` from `curr` on: the heap and the root it ends at. -/
def raise (h : BinomialHeap T) : Nat → Nat → Option (BinomialHeap T × Nat)
  | 0, _ => none
  | fuel + 1, curr => do
      let c ← h.cell curr
      match c.parent with
      | none => some (h, curr)
      | some parent =>
        let h ← h.swapValues curr parent
        h.raise fuel parent

def deleteNode (comp : T → T → Bool) (h : BinomialHeap T) (node : Option Nat) :
    Option (BinomialHeap T) :=
  match node with
  | none => some h
  | some node => do
      let (h, curr) ← h.raise (h.nodeCount + 1) node
      let (_, h) ← extractMin comp { h with minNode := some curr }
      some h

def meld (comp : T → T → Bool) (h other : BinomialHeap T) : BinomialHeap T × BinomialHeap T :=
  unionHeap comp h other

/-- `meld` of a heap with itself.  A list of one root is tied to itself and then dropped
as that of `other`; with a second root, of higher degree, the loop of `merge_root_lists`
does not end. -/
def meldSelf (h : BinomialHeap T) : Option (BinomialHeap T) :=
  match h.rootList with
  | [] => some h
  | [_] => some { h with rootList := [], minNode := none, nodeCount := 0 }
  | _ :: _ :: _ => none

end BinomialHeap

end Micron.Binomial

/-!
## Binomial trees and the union of two heaps

A tree of degree `d` has children of the degrees `d - 1` to `0`.  The loop of
`union_heap` runs over a list sorted by degree in which no degree occurs three
times, and leaves a list in which no degree occurs twice.
-/

namespace Micron.Binomial

open Micron.Lib

variable {T : Type}

def Chain.items : Chain T → List (Nat × T)
  | .nil => []
  | .cons a v _ _ c s => (a, v) :: (c.items ++ s.items)

def Root.items (r : Root T) : List (Nat × T) := (r.addr, r.value) :: r.child.items

def itemsOf (roots : List (Root T)) : List (Nat × T) := roots.flatMap Root.items

def Kids : Nat → Chain T → Prop
  | 0, .nil => True
  | d + 1, .cons _ _ e _ c s => e = d ∧ Kids d c ∧ Kids d s
  | _, _ => False

/-- Every node points to its parent; the nodes of the chain are children of `p`. -/
def Parented (p : Nat) : Chain T → Prop
  | .nil => True
  | .cons a _ _ q c s => q = some p ∧ Parented a c ∧ Parented p s

/-- No node is less than its parent; the nodes of the chain are children of a node
with the value `v`. -/
def Ordered (comp : T → T → Bool) (v : T) : Chain T → Prop
  | .nil => True
  | .cons _ w _ _ c s => comp w v = false ∧ Ordered comp w c ∧ Ordered comp v s

structure GoodRoot (comp : T → T → Bool) (r : Root T) : Prop where
  kids : Kids r.degree r.child
  root : r.parent = none
  parented : Parented r.addr r.child
  ordered : Ordered comp r.value r.child

theorem Kids.length_items {d : Nat} {c : Chain T} (kids : Kids d c) : c.items.length + 1 = 2 ^ d := by
  induction c generalizing d with
  | nil =>
    match d, kids with
    | 0, _ => rfl
  | cons a v e p c s ihc ihs =>
    match d, kids with
    | d + 1, kids =>
      have first := ihc kids.2.1
      have second := ihs kids.2.2
      simp only [Chain.items, List.length_cons, List.length_append, pow_succ]
      omega

section Link
variable {comp : T → T → Bool} {y z : Root T}

theorem link_items_perm : (link y z).items.Perm (y.items ++ z.items) := by
  refine (List.Perm.swap _ _ _).trans (List.Perm.cons _ ?_)
  exact List.perm_middle.symm

theorem GoodRoot.link (goodY : GoodRoot comp y) (goodZ : GoodRoot comp z)
    (same : y.degree = z.degree) (notLess : comp y.value z.value = false) :
    GoodRoot comp (link y z) where
  kids := ⟨same, same ▸ goodY.kids, goodZ.kids⟩
  root := goodZ.root
  parented := ⟨rfl, goodY.parented, goodZ.parented⟩
  ordered := ⟨notLess, goodY.ordered, goodZ.ordered⟩

end Link

section Union
variable {comp : T → T → Bool}

theorem mergeRootLists_perm (h₁ h₂ : List (Root T)) : (mergeRootLists h₁ h₂).Perm (h₁ ++ h₂) :=
  List.merge_perm_append _

structure Paired (roots : List (Root T)) : Prop where
  sorted : (roots.map Root.degree).Pairwise (· ≤ ·)
  twice : ∀ d, (roots.map Root.degree).count d ≤ 2

theorem paired_merge {h₁ h₂ : List (Root T)} (inc₁ : (h₁.map Root.degree).Pairwise (· < ·))
    (inc₂ : (h₂.map Root.degree).Pairwise (· < ·)) : Paired (mergeRootLists h₁ h₂) := by
  constructor
  · rw [List.pairwise_map]
    have weak : ∀ h : List (Root T), (h.map Root.degree).Pairwise (· < ·) →
        h.Pairwise fun x y => decide (x.degree ≤ y.degree) = true := by
      intro h inc
      rw [List.pairwise_map] at inc
      exact inc.imp fun less => decide_eq_true (le_of_lt less)
    have merged : (mergeRootLists h₁ h₂).Pairwise fun x y => decide (x.degree ≤ y.degree) = true :=
      List.pairwise_merge
      (fun a b c => by simpa using fun ab bc => le_trans ab bc)
      (fun a b => by simpa using le_total a.degree b.degree) h₁ h₂ (weak h₁ inc₁) (weak h₂ inc₂)
    exact merged.imp fun le => of_decide_eq_true le
  · intro d
    have once : ∀ h : List (Root T), (h.map Root.degree).Pairwise (· < ·) →
        (h.map Root.degree).count d ≤ 1 :=
      fun h inc => List.nodup_iff_count_le_one.mp (inc.imp fun less => ne_of_lt less) d
    rw [((mergeRootLists_perm h₁ h₂).map Root.degree).count_eq, List.map_append, List.count_append]
    have first := once h₁ inc₁
    have second := once h₂ inc₂
    omega

theorem Paired.tail {r : Root T} {rest : List (Root T)} (paired : Paired (r :: rest)) : Paired rest where
  sorted := (List.pairwise_cons.mp paired.sorted).2
  twice d := by
    have bound := paired.twice d
    rw [List.map_cons, List.count_cons] at bound
    omega

structure Linked (comp : T → T → Bool) (items : List (Nat × T)) (least : Nat)
    (roots : List (Root T)) : Prop where
  good : ∀ r ∈ roots, GoodRoot comp r
  increasing : (roots.map Root.degree).Pairwise (· < ·)
  least : ∀ r ∈ roots, least ≤ r.degree
  items : (itemsOf roots).Perm items

theorem Linked.weaken {items items' : List (Nat × T)} {d e : Nat} {roots : List (Root T)}
    (linked : Linked comp items d roots) (le : e ≤ d) (perm : items.Perm items') :
    Linked comp items' e roots where
  good := linked.good
  increasing := linked.increasing
  least r member := le_trans le (linked.least r member)
  items := linked.items.trans perm

variable [IsStrictWeakOrder T (Lesser comp)]

theorem unionLoop_spec {curr : Root T} {rest : List (Root T)} (good : GoodRoot comp curr)
    (goods : ∀ r ∈ rest, GoodRoot comp r) (paired : Paired rest)
    (behind : ∀ r ∈ rest, curr.degree ≤ r.degree) :
    Linked comp (itemsOf (curr :: rest)) curr.degree (unionLoop comp curr rest) ∧
      (rest.head?.map Root.degree = some curr.degree →
        rest.tail.head?.map Root.degree ≠ some curr.degree →
        ∀ r ∈ unionLoop comp curr rest, curr.degree < r.degree) := by
  induction rest generalizing curr with
  | nil =>
    refine ⟨⟨?_, ?_, ?_, ?_⟩, fun impossible => nomatch impossible⟩
    · intro r member
      exact List.mem_singleton.mp member ▸ good
    · exact List.pairwise_singleton _ _
    · intro r member
      exact le_of_eq (congrArg Root.degree (List.mem_singleton.mp member)).symm
    · exact List.Perm.refl _
  | cons next rest ih =>
    have goodNext := goods next List.mem_cons_self
    have goodsRest : ∀ r ∈ rest, GoodRoot comp r :=
      fun r member => goods r (List.mem_cons_of_mem _ member)
    have nextLe : ∀ r ∈ rest, next.degree ≤ r.degree := by
      intro r member
      exact (List.pairwise_cons.mp paired.sorted).1 _ (List.mem_map_of_mem member)
    have currLe := behind next List.mem_cons_self
    by_cases step : curr.degree ≠ next.degree ∨ rest.head?.map Root.degree = some curr.degree
    · obtain ⟨linked, jump⟩ := ih goodNext goodsRest paired.tail nextLe
      have above : ∀ r ∈ unionLoop comp next rest, curr.degree < r.degree := by
        intro r member
        by_cases same : curr.degree = next.degree
        · have third := step.resolve_left (fun other => other same)
          rw [same] at third ⊢
          refine jump third ?_ r member
          intro fourth
          cases rest with
          | nil => cases third
          | cons r₁ rest =>
            cases rest with
            | nil => cases fourth
            | cons r₂ rest =>
              have bound := paired.twice next.degree
              have first : r₁.degree = next.degree := Option.some.inj third
              have second : r₂.degree = next.degree := Option.some.inj fourth
              simp [first, second] at bound
        · have low := linked.least r member
          omega
      rw [unionLoop, if_pos step]
      refine ⟨⟨?_, ?_, ?_, ?_⟩, ?_⟩
      · exact List.forall_mem_cons.mpr ⟨good, linked.good⟩
      · refine List.pairwise_cons.mpr ⟨?_, linked.increasing⟩
        intro d member
        obtain ⟨r, inside, rfl⟩ := List.mem_map.mp member
        exact above r inside
      · exact List.forall_mem_cons.mpr
          ⟨le_refl _, fun r member => le_of_lt (above r member)⟩
      · exact linked.items.append_left _
      · intro second notThird
        have same : next.degree = curr.degree := Option.some.inj second
        exact absurd step (not_or.mpr ⟨fun other => other same.symm, notThird⟩)
    · obtain ⟨same, notThird⟩ := not_or.mp step
      have same : curr.degree = next.degree := Decidable.not_not.mp same
      have above : ∀ r ∈ rest, curr.degree + 1 ≤ r.degree := by
        cases rest with
        | nil => exact fun r member => absurd member List.not_mem_nil
        | cons r₁ rest =>
          have first : r₁.degree ≠ curr.degree := fun equal => notThird (congrArg some equal)
          have low := nextLe r₁ List.mem_cons_self
          have sorted := (List.pairwise_cons.mp paired.tail.sorted).1
          intro r member
          rcases List.mem_cons.mp member with rfl | later
          · omega
          · have more := sorted _ (List.mem_map_of_mem later)
            omega
      rw [unionLoop, if_neg step]
      cases less : comp curr.value next.value with
      | true =>
        have goodLink := goodNext.link good same.symm (comp_asymm less)
        obtain ⟨linked, _⟩ := ih goodLink goodsRest paired.tail above
        refine ⟨linked.weaken (Nat.le_succ _) ?_, fun _ _ r member => linked.least r member⟩
        refine (link_items_perm.append_right _).trans ?_
        exact (List.perm_append_comm.append_right _).trans (List.append_assoc _ _ _ ▸ .refl _)
      | false =>
        have goodLink := good.link goodNext same less
        have degree : (link curr next).degree = curr.degree + 1 := congrArg (· + 1) same.symm
        obtain ⟨linked, _⟩ := ih goodLink goodsRest paired.tail (degree ▸ above)
        rw [degree] at linked
        refine ⟨linked.weaken (Nat.le_succ _) ?_, fun _ _ r member => linked.least r member⟩
        refine (link_items_perm.append_right _).trans ?_
        exact List.append_assoc _ _ _ ▸ .refl _

end Union

/-! ## Heaps -/

/-- Heap-ordered binomial trees of increasing degrees. -/
structure Forest (comp : T → T → Bool) (roots : List (Root T)) : Prop where
  good : ∀ r ∈ roots, GoodRoot comp r
  increasing : (roots.map Root.degree).Pairwise (· < ·)

def LeastAt (comp : T → T → Bool) (roots : List (Root T)) : Option Nat → Prop
  | none => roots = []
  | some node => ∃ r ∈ roots, r.addr = node ∧ ∀ r' ∈ roots, comp r'.value r.value = false

structure HeapInv (comp : T → T → Bool) (h : BinomialHeap T) : Prop where
  forest : Forest comp h.rootList
  nodup : ((itemsOf h.rootList).map Prod.fst).Nodup
  count : h.nodeCount = (itemsOf h.rootList).length
  least : LeastAt comp h.rootList h.minNode

theorem Forest.nil (comp : T → T → Bool) : Forest comp ([] : List (Root T)) :=
  ⟨fun _ member => absurd member List.not_mem_nil, List.Pairwise.nil⟩

theorem HeapInv.empty (comp : T → T → Bool) : HeapInv comp (BinomialHeap.empty : BinomialHeap T) :=
  ⟨Forest.nil comp, List.nodup_nil, rfl, rfl⟩

section Heaps

theorem leastFrom_spec (comp : T → T → Bool) [IsStrictWeakOrder T (Lesser comp)] (least : Root T) (rest : List (Root T)) :
    leastFrom comp least rest ∈ least :: rest ∧
      ∀ r ∈ least :: rest, comp r.value (leastFrom comp least rest).value = false := by
  induction rest generalizing least with
  | nil =>
    refine ⟨List.mem_cons_self, ?_⟩
    intro r member
    rw [List.mem_singleton.mp member]
    exact comp_irrefl _
  | cons next rest ih =>
    rw [leastFrom]
    cases less : comp next.value least.value with
    | true =>
      obtain ⟨inside, low⟩ := ih next
      refine ⟨List.mem_cons_of_mem _ inside, ?_⟩
      intro r member
      rcases List.mem_cons.mp member with rfl | later
      · exact comp_trans_false (comp_asymm less) (low next List.mem_cons_self)
      · exact low r later
    | false =>
      obtain ⟨inside, low⟩ := ih least
      refine ⟨?_, ?_⟩
      · rcases List.mem_cons.mp inside with same | later
        · exact List.mem_cons.mpr (.inl same)
        · exact List.mem_cons_of_mem _ (List.mem_cons_of_mem _ later)
      · intro r member
        rcases List.mem_cons.mp member with rfl | later
        · exact low r List.mem_cons_self
        · rcases List.mem_cons.mp later with rfl | later
          · exact comp_trans_false less (low least List.mem_cons_self)
          · exact low r (List.mem_cons_of_mem _ later)

theorem updateMin_least (comp : T → T → Bool) [IsStrictWeakOrder T (Lesser comp)]
    (h : BinomialHeap T) :
    LeastAt comp h.rootList (h.updateMin comp).minNode := by
  unfold BinomialHeap.updateMin
  split
  · rename_i none
    exact none
  · rename_i r rest shape
    rw [shape]
    obtain ⟨inside, low⟩ := leastFrom_spec comp r rest
    exact ⟨_, inside, rfl, low⟩

theorem updateMin_eq (comp : T → T → Bool) (h : BinomialHeap T) :
    (h.updateMin comp).rootList = h.rootList ∧ (h.updateMin comp).nodeCount = h.nodeCount ∧
      (h.updateMin comp).pool = h.pool := by
  unfold BinomialHeap.updateMin
  split <;> exact ⟨rfl, rfl, rfl⟩

theorem itemsOf_perm {roots roots' : List (Root T)} (perm : roots.Perm roots') :
    (itemsOf roots).Perm (itemsOf roots') := perm.flatMap_right _

/-- The union of two forests is a forest with all their values. -/
theorem unionHeap_spec {comp : T → T → Bool} [IsStrictWeakOrder T (Lesser comp)]
    (h other : BinomialHeap T) (forest : Forest comp h.rootList)
    (forest' : Forest comp other.rootList) (some_other : other.rootList ≠ []) :
    ∃ h', h.unionHeap comp other = (h', { other with rootList := [], nodeCount := 0, minNode := none }) ∧
      Forest comp h'.rootList ∧ LeastAt comp h'.rootList h'.minNode ∧
      (itemsOf h'.rootList).Perm (itemsOf h.rootList ++ itemsOf other.rootList) ∧
      h'.nodeCount = h.nodeCount + other.nodeCount ∧ h'.pool = h.pool := by
  have perm := mergeRootLists_perm h.rootList other.rootList
  cases merged : mergeRootLists h.rootList other.rootList with
  | nil =>
    rw [merged] at perm
    exact absurd (List.append_eq_nil_iff.mp perm.nil_eq.symm).2 some_other
  | cons curr rest =>
    have paired := paired_merge forest.increasing forest'.increasing
    rw [merged] at paired perm
    have goods : ∀ r ∈ curr :: rest, GoodRoot comp r := by
      intro r member
      rcases List.mem_append.mp (perm.mem_iff.mp member) with inside | inside
      · exact forest.good r inside
      · exact forest'.good r inside
    have behind : ∀ r ∈ rest, curr.degree ≤ r.degree := fun r member =>
      (List.pairwise_cons.mp paired.sorted).1 _ (List.mem_map_of_mem member)
    obtain ⟨linked, _⟩ := unionLoop_spec (goods curr List.mem_cons_self)
      (fun r member => goods r (List.mem_cons_of_mem _ member)) paired.tail behind
    have least := updateMin_least comp { h with rootList := unionLoop comp curr rest }
    obtain ⟨same, count, pool⟩ :=
      updateMin_eq comp { h with rootList := unionLoop comp curr rest }
    refine ⟨{ BinomialHeap.updateMin comp { h with rootList := unionLoop comp curr rest } with
        nodeCount := h.nodeCount + other.nodeCount }, ?_, ?_, ?_, ?_, rfl, pool⟩
    · unfold BinomialHeap.unionHeap
      split
      · rename_i none
        exact absurd none some_other
      · simp only [merged, count]
    · rw [same]
      exact ⟨linked.good, linked.increasing⟩
    · rw [same]
      exact least
    · rw [same]
      refine linked.items.trans ((itemsOf_perm perm).trans ?_)
      rw [itemsOf, List.flatMap_append]
      exact .refl _

end Heaps

end Micron.Binomial
