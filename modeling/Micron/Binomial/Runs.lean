import Mathlib.Data.Nat.BitIndices
import Micron.Binomial.Delete

/-!
# Runs over any number of heaps

The heaps of a program share one memory, so that a node belongs to one of them.
After any calls each heap is a binomial heap.  It has the values of a priority queue
that is given the same calls if and only if no heap with values was melded with
itself: such a meld drops them.
-/

set_option autoImplicit false

namespace Micron.Binomial

open Micron.Lib BinomialHeap List Function

variable {T : Type}

inductive Event (T : Type) where
  | insert (i : Nat) (value : T)
  | extractMin (i : Nat) (result : Option T)
  | delete (i : Nat) (value : T)
  | meld (i j : Nat)
  | nothing

def QueueStep (comp : T → T → Bool) (M : Nat → Multiset T) : Event T → (Nat → Multiset T) → Prop
  | .insert i value, M' => M' = update M i (value ::ₘ M i)
  | .extractMin i none, M' => M i = 0 ∧ M' = M
  | .extractMin i (some value), M' =>
    (∀ x ∈ M i, comp x value = false) ∧ ∃ rest, M i = value ::ₘ rest ∧ M' = update M i rest
  | .delete i value, M' => ∃ rest, M i = value ::ₘ rest ∧ M' = update M i rest
  | .meld i j, M' =>
    M' = if i = j then M else update (update M i (M i + M j)) j 0
  | .nothing, M' => M' = M

inductive Op (T : Type) where
  | insert (i : Nat) (value : T)
  | emplace (i : Nat) (value : T)
  | extractMin (i : Nat)
  | deleteNode (i : Nat) (node : Option Nat)
  | meld (i j : Nat)

/-- `fresh` is the address that `new` gives next. -/
structure World (T : Type) where
  heaps : Nat → BinomialHeap T
  fresh : Nat

namespace World

def empty : World T := ⟨fun _ => BinomialHeap.empty, 0⟩

def set (w : World T) (i : Nat) (h : BinomialHeap T) : World T :=
  ⟨update w.heaps i h, w.fresh⟩

def apply (comp : T → T → Bool) (w : World T) : Op T → Option (World T × Event T)
  | .insert i value =>
    let (_, h, fresh) := (w.heaps i).insert comp w.fresh value
    some (⟨update w.heaps i h, fresh⟩, .insert i value)
  | .emplace i value =>
    let (_, h, fresh) := (w.heaps i).emplace comp w.fresh value
    some (⟨update w.heaps i h, fresh⟩, .insert i value)
  | .extractMin i => do
      let (result, h) ← (w.heaps i).extractMin comp
      some (w.set i h, .extractMin i result)
  | .deleteNode i none => do
      let h ← (w.heaps i).deleteNode comp none
      some (w.set i h, .nothing)
  | .deleteNode i (some node) => do
      let c ← (w.heaps i).cell node
      let h ← (w.heaps i).deleteNode comp (some node)
      some (w.set i h, .delete i c.value)
  | .meld i j =>
    if i = j then do
      let h ← (w.heaps i).meldSelf
      some (w.set i h, .meld i j)
    else
      let (h, other) := (w.heaps i).meld comp (w.heaps j)
      some ((w.set i h).set j other, .meld i j)

/-- The addresses a heap owns, in its trees or in its pool. -/
def owned (w : World T) (i : Nat) : List Nat :=
  (itemsOf (w.heaps i).rootList).map Prod.fst ++ (w.heaps i).pool

end World

/-- The node passed to `delete_node` is one of the heap. -/
def Legal (w : World T) : Op T → Prop
  | .deleteNode i (some node) => node ∈ (itemsOf (w.heaps i).rootList).map Prod.fst
  | _ => True

/-- No heap with values is melded with itself. -/
def Apart (w : World T) : Op T → Prop
  | .meld i j => i = j → (w.heaps i).rootList = []
  | _ => True

/-- A run of calls that return, each of which meets a condition. -/
inductive Run (comp : T → T → Bool) (meets : World T → Op T → Prop) :
    World T → List (Event T) → World T → Prop
  | done (w : World T) : Run comp meets w [] w
  | call {w w₁ w' : World T} {op : Op T} {event : Event T} {events : List (Event T)} :
      Legal w op → meets w op → w.apply comp op = some (w₁, event) →
      Run comp meets w₁ events w' → Run comp meets w (event :: events) w'

theorem Run.weaken {comp : T → T → Bool} {meets meets' : World T → Op T → Prop} {w w' : World T}
    {events : List (Event T)} (run : Run comp meets w events w')
    (weaker : ∀ w op, meets w op → meets' w op) : Run comp meets' w events w' := by
  induction run with
  | done w => exact .done w
  | call legal met step _ ih => exact .call legal (weaker _ _ met) step ih

def QueueRun (comp : T → T → Bool) : (Nat → Multiset T) → List (Event T) → (Nat → Multiset T) → Prop
  | M, [], M' => M' = M
  | M, event :: events, M' => ∃ M₁, QueueStep comp M event M₁ ∧ QueueRun comp M₁ events M'

structure IsQueue (comp : T → T → Bool) (M : Multiset T) (h : BinomialHeap T) : Prop where
  trees : ∀ r ∈ h.rootList, Kids r.degree r.child ∧ Parented r.addr r.child ∧ r.parent = none ∧
    Ordered comp r.value r.child ∧ r.items.length = 2 ^ r.degree
  increasing : (h.rootList.map Root.degree).Pairwise (· < ·)
  count : h.nodeCount = M.card
  least : LeastAt comp h.rootList h.minNode
  values : (↑((itemsOf h.rootList).map Prod.snd) : Multiset T) = M

structure WorldInv (comp : T → T → Bool) (w : World T) : Prop where
  heap : ∀ i, HeapInv comp (w.heaps i)
  nodup : ∀ i, (w.owned i).Nodup
  disjoint : ∀ i j, i ≠ j → ∀ a ∈ w.owned i, a ∉ w.owned j
  bound : ∀ i, ∀ a ∈ w.owned i, a < w.fresh

def contents (w : World T) (i : Nat) : Multiset T := ↑((itemsOf (w.heaps i).rootList).map Prod.snd)

theorem WorldInv.empty (comp : T → T → Bool) : WorldInv comp (World.empty : World T) where
  heap _ := HeapInv.empty comp
  nodup _ := nodup_nil
  disjoint _ _ _ _ member := absurd member not_mem_nil
  bound _ _ member := absurd member not_mem_nil

section Steps
variable {comp : T → T → Bool} {w : World T}

/-- One heap changes; no other heap owns a node of it. -/
theorem WorldInv.set (inv : WorldInv comp w) {i fresh : Nat} {h : BinomialHeap T}
    (heap : HeapInv comp h) (nodup : ((itemsOf h.rootList).map Prod.fst ++ h.pool).Nodup)
    (le : w.fresh ≤ fresh)
    (away : ∀ j, j ≠ i → ∀ a ∈ (itemsOf h.rootList).map Prod.fst ++ h.pool, a ∉ w.owned j)
    (below : ∀ a ∈ (itemsOf h.rootList).map Prod.fst ++ h.pool, a < fresh) :
    WorldInv comp ⟨update w.heaps i h, fresh⟩ := by
  have ownedHere : World.owned ⟨update w.heaps i h, fresh⟩ i =
      (itemsOf h.rootList).map Prod.fst ++ h.pool := by
    simp [World.owned]
  have ownedOther : ∀ j, j ≠ i →
      World.owned ⟨update w.heaps i h, fresh⟩ j = w.owned j := by
    intro j other
    simp [World.owned, update_of_ne other]
  refine ⟨?_, ?_, ?_, ?_⟩
  · intro j
    by_cases same : j = i
    · subst same
      simpa using heap
    · simpa [update_of_ne same] using inv.heap j
  · intro j
    by_cases same : j = i
    · subst same
      rwa [ownedHere]
    · rw [ownedOther j same]
      exact inv.nodup j
  · intro j k apart a member
    by_cases first : j = i
    · subst first
      rw [ownedHere] at member
      rw [ownedOther k (Ne.symm apart)]
      exact away k (Ne.symm apart) a member
    · rw [ownedOther j first] at member
      by_cases second : k = i
      · subst second
        rw [ownedHere]
        exact fun inside => away j first a inside member
      · rw [ownedOther k second]
        exact inv.disjoint j k apart a member
  · intro j a member
    by_cases same : j = i
    · subst same
      rw [ownedHere] at member
      exact below a member
    · rw [ownedOther j same] at member
      exact lt_of_lt_of_le (inv.bound j a member) le

theorem WorldInv.set_perm (inv : WorldInv comp w) {i : Nat} {h : BinomialHeap T}
    (heap : HeapInv comp h) (perm : ((itemsOf h.rootList).map Prod.fst ++ h.pool).Perm (w.owned i)) :
    WorldInv comp (w.set i h) := by
  refine inv.set heap (perm.nodup_iff.mpr (inv.nodup i)) (le_refl _) ?_ ?_
  · intro j other a member
    exact inv.disjoint i j (Ne.symm other) a (perm.mem_iff.mp member)
  · intro a member
    exact inv.bound i a (perm.mem_iff.mp member)

theorem contents_set (i fresh : Nat) (h : BinomialHeap T) :
    contents ⟨update w.heaps i h, fresh⟩ =
      update (contents w) i ↑((itemsOf h.rootList).map Prod.snd) := by
  funext j
  by_cases same : j = i
  · subst same
    simp [contents]
  · simp [contents, update_of_ne same]

variable [IsStrictWeakOrder T (Lesser comp)]

theorem insert_step (inv : WorldInv comp w) (i : Nat) (value : T) :
    ∃ node h fresh, (w.heaps i).insert comp w.fresh value = (node, h, fresh) ∧
      WorldInv comp ⟨update w.heaps i h, fresh⟩ ∧
      contents ⟨update w.heaps i h, fresh⟩ =
        update (contents w) i (value ::ₘ contents w i) := by
  obtain ⟨node, h, fresh, result, ⟨source⟩, perm, heap⟩ := insert_spec (inv.heap i) w.fresh value
  have addrs := perm.map Prod.fst
  have owned := inv.nodup i
  have bound := inv.bound i
  have apart := inv.disjoint i
  simp only [World.owned] at owned bound apart
  refine ⟨node, h, fresh, result, ?_, ?_⟩
  · rcases source with ⟨pool, rfl⟩ | ⟨pool, pool', rfl, rfl⟩
    · -- the node was in the pool
      have whole : ((itemsOf h.rootList).map Prod.fst ++ h.pool).Perm (w.owned i) := by
        rw [World.owned, pool]
        refine (addrs.append_right _).trans ?_
        exact perm_middle.symm
      refine inv.set_perm (heap ?_) whole
      rw [pool] at owned
      exact fun member => (nodup_append.mp owned).2.2 node member node mem_cons_self rfl
    · have new : w.fresh ∉ (itemsOf (w.heaps i).rootList).map Prod.fst := fun member =>
        lt_irrefl _ (bound _ (mem_append_left _ member))
      rw [pool, append_nil] at owned
      refine inv.set (heap new) ?_ (Nat.le_succ _) ?_ ?_
      · rw [pool', append_nil]
        exact addrs.nodup_iff.mpr (nodup_cons.mpr ⟨new, owned⟩)
      · intro j other a member inside
        rw [pool', append_nil] at member
        rcases mem_cons.mp (addrs.mem_iff.mp member) with rfl | old
        · exact lt_irrefl _ (inv.bound j _ inside)
        · exact apart j (Ne.symm other) a (mem_append_left _ old) inside
      · intro a member
        rw [pool', append_nil] at member
        rcases mem_cons.mp (addrs.mem_iff.mp member) with rfl | old
        · exact Nat.lt_succ_self _
        · exact Nat.lt_succ_of_lt (bound a (mem_append_left _ old))
  · rw [contents_set, Multiset.coe_eq_coe.mpr (perm.map Prod.snd)]
    rfl

omit [IsStrictWeakOrder T (Lesser comp)] in
theorem owned_perm {i node : Nat} {h : BinomialHeap T}
    (addrs : (node :: (itemsOf h.rootList).map Prod.fst).Perm
      ((itemsOf (w.heaps i).rootList).map Prod.fst)) (pool : h.pool = node :: (w.heaps i).pool) :
    ((itemsOf h.rootList).map Prod.fst ++ h.pool).Perm (w.owned i) := by
  rw [pool, World.owned]
  exact perm_middle.trans (addrs.append_right _)

theorem meld_step (inv : WorldInv comp w) {i j : Nat} (distinct : i ≠ j) :
    ∃ h other, (w.heaps i).meld comp (w.heaps j) = (h, other) ∧
      WorldInv comp ((w.set i h).set j other) ∧
      contents ((w.set i h).set j other) =
        update (update (contents w) i (contents w i + contents w j)) j 0 := by
  by_cases none : (w.heaps j).rootList = []
  · refine ⟨w.heaps i, w.heaps j, ?_, ?_, ?_⟩
    · simp only [meld, unionHeap, none]
    · have same : (w.set i (w.heaps i)).set j (w.heaps j) = w := by
        simp [World.set]
      rw [same]
      exact inv
    · have same : (w.set i (w.heaps i)).set j (w.heaps j) = w := by
        simp [World.set]
      have zero : contents w j = 0 := by
        simp [contents, none, itemsOf]
      rw [same, zero, add_zero, update_eq_self, ← zero, update_eq_self]
  · obtain ⟨h, union, forest, least, items, count, pool⟩ :=
      unionHeap_spec (w.heaps i) (w.heaps j) (inv.heap i).forest (inv.heap j).forest none
    let other : BinomialHeap T := ⟨[], Option.none, 0, (w.heaps j).pool⟩
    have addrs := items.map Prod.fst
    rw [map_append] at addrs
    have ownedI := inv.nodup i
    have ownedJ := inv.nodup j
    have apart := inv.disjoint i j distinct
    simp only [World.owned, mem_append] at ownedI ownedJ apart
    have swap : (w.set i h).set j other = (w.set j other).set i h := by
      simp only [World.set]
      rw [update_comm distinct]
    have inv₁ : WorldInv comp (w.set j other) := by
      refine inv.set ⟨Forest.nil comp, nodup_nil, rfl, rfl⟩ ?_ (le_refl _) ?_ ?_
      · exact (nodup_append.mp ownedJ).2.1
      · intro k apart' a member
        exact inv.disjoint j k (Ne.symm apart') a (mem_append_right _ member)
      · intro a member
        exact inv.bound j a (mem_append_right _ member)
    have fromOld : ∀ a ∈ (itemsOf h.rootList).map Prod.fst ++ h.pool,
        a ∈ w.owned i ∨ a ∈ (itemsOf (w.heaps j).rootList).map Prod.fst := by
      intro a member
      rw [pool] at member
      rcases mem_append.mp member with inside | inside
      · rcases mem_append.mp (addrs.mem_iff.mp inside) with first | second
        · exact .inl (mem_append_left _ first)
        · exact .inr second
      · exact .inl (mem_append_right _ inside)
    have nodupAddrs : ((itemsOf h.rootList).map Prod.fst).Nodup := by
      rw [addrs.nodup_iff, nodup_append]
      refine ⟨(nodup_append.mp ownedI).1, (nodup_append.mp ownedJ).1, ?_⟩
      intro a first b second same
      subst same
      exact apart a (.inl first) (.inl second)
    refine ⟨h, other, union, ?_, ?_⟩
    · rw [swap]
      refine inv₁.set ⟨forest, nodupAddrs, ?_, least⟩ ?_ (le_refl _) ?_ ?_
      · rw [count, items.length_eq, length_append, (inv.heap i).count, (inv.heap j).count]
      · rw [nodup_append]
        refine ⟨nodupAddrs, pool ▸ (nodup_append.mp ownedI).2.1, ?_⟩
        intro a inside b inPool same
        subst same
        rw [pool] at inPool
        rcases mem_append.mp (addrs.mem_iff.mp inside) with first | second
        · exact (nodup_append.mp ownedI).2.2 a first a inPool rfl
        · exact apart a (.inr inPool) (.inl second)
      · intro k notI a member
        by_cases isJ : k = j
        · subst isJ
          have ownedOther : (w.set k other).owned k = (w.heaps k).pool := by
            simp [World.owned, World.set, other, itemsOf]
          rw [ownedOther]
          intro inPool
          rcases fromOld a member with first | second
          · exact apart a (mem_append.mp first) (.inr inPool)
          · exact (nodup_append.mp ownedJ).2.2 a second a inPool rfl
        · have ownedOther : (w.set j other).owned k = w.owned k := by
            simp [World.owned, World.set, update_of_ne isJ]
          rw [ownedOther]
          rcases fromOld a member with first | second
          · exact inv.disjoint i k (Ne.symm notI) a first
          · exact inv.disjoint j k (Ne.symm isJ) a (mem_append_left _ second)
      · intro a member
        rcases fromOld a member with first | second
        · exact inv.bound i a first
        · exact inv.bound j a (mem_append_left _ second)
    · have values := items.map Prod.snd
      rw [map_append] at values
      rw [World.set, contents_set, World.set, contents_set, Multiset.coe_eq_coe.mpr values]
      rfl

omit [IsStrictWeakOrder T (Lesser comp)] in
theorem World.set_self (w : World T) (i : Nat) : w.set i (w.heaps i) = w := by
  rw [World.set, update_eq_self]

/-- A legal call that melds no heap with values with itself ends, keeps the invariant
and follows the queues. -/
theorem apply_spec (inv : WorldInv comp w) {op : Op T} (legal : Legal w op) (apart : Apart w op) :
    ∃ w' event, w.apply comp op = some (w', event) ∧ WorldInv comp w' ∧
      QueueStep comp (contents w) event (contents w') := by
  cases op with
  | insert i value =>
    obtain ⟨node, h, fresh, result, inv', values⟩ := insert_step inv i value
    refine ⟨_, .insert i value, ?_, inv', values⟩
    simp only [World.apply, result]
  | emplace i value =>
    obtain ⟨node, h, fresh, result, inv', values⟩ := insert_step inv i value
    refine ⟨_, .insert i value, ?_, inv', values⟩
    simp only [World.apply, emplace, result]
  | extractMin i =>
    rcases extractMin_spec (inv.heap i) with
      ⟨noItems, result⟩ | ⟨node, value, h, result, heap, perm, pool, least⟩
    · refine ⟨w.set i (w.heaps i), .extractMin i none, ?_, ?_, ?_, ?_⟩
      · simp only [World.apply, result, Option.bind_eq_bind, Option.bind_some]
      · exact inv.set_perm (inv.heap i) (.refl _)
      · simp [contents, noItems]
      · rw [World.set, update_eq_self]
    · refine ⟨w.set i h, .extractMin i (some value), ?_, ?_, ?_, ?_⟩
      · simp only [World.apply, result, Option.bind_eq_bind, Option.bind_some]
      · exact inv.set_perm heap (owned_perm (perm.map Prod.fst) pool)
      · intro x member
        obtain ⟨e, inside, rfl⟩ := mem_map.mp (Multiset.mem_coe.mp member)
        exact least e inside
      · refine ⟨↑((itemsOf h.rootList).map Prod.snd), ?_, ?_⟩
        · exact (Multiset.coe_eq_coe.mpr (perm.map Prod.snd)).symm
        · rw [World.set, contents_set]
  | deleteNode i node =>
    cases node with
    | none =>
      refine ⟨w.set i (w.heaps i), .nothing, rfl, inv.set_perm (inv.heap i) (.refl _), ?_⟩
      rw [World.set, update_eq_self]
      rfl
    | some node =>
      have member : node ∈ (itemsOf (w.heaps i).rootList).map Prod.fst := legal
      rw [itemsOf_eq, map_map] at member
      obtain ⟨c, inside, rfl⟩ := mem_map.mp member
      have read := cell_spec (inv.heap i).flat inside
      obtain ⟨h, root, result, heap, values, addrs, pool⟩ := deleteNode_spec (inv.heap i) inside
      refine ⟨w.set i h, .delete i c.value, ?_, inv.set_perm heap (owned_perm addrs pool), ?_⟩
      · simp only [World.apply, Function.comp, read, result, Option.bind_eq_bind,
          Option.bind_some]
      · refine ⟨↑((itemsOf h.rootList).map Prod.snd), (Multiset.coe_eq_coe.mpr values).symm, ?_⟩
        rw [World.set, contents_set]
  | meld i j =>
    by_cases same : i = j
    · have nothing := apart same
      refine ⟨w, .meld i j, ?_, inv, ?_⟩
      · simp only [World.apply, if_pos same, meldSelf, nothing, Option.bind_eq_bind,
          Option.bind_some, World.set_self]
      · simp only [QueueStep, if_pos same]
    · obtain ⟨h, other, result, inv', values⟩ := meld_step inv same
      refine ⟨_, .meld i j, ?_, inv', ?_⟩
      · simp only [World.apply, if_neg same, result]
      · simp only [QueueStep, if_neg same]
        exact values

theorem run_spec {w' : World T} {events : List (Event T)} (inv : WorldInv comp w)
    (run : Run comp Apart w events w') : QueueRun comp (contents w) events (contents w') := by
  induction run with
  | done w => rfl
  | call legal apart step _ ih =>
    obtain ⟨w₁, event, result, inv₁, queue⟩ := apply_spec inv legal apart
    cases Option.some.inj (step.symm.trans result)
    exact ⟨_, queue, ih inv₁⟩

omit [IsStrictWeakOrder T (Lesser comp)] in
/-- A meld of a heap with itself that returns drops a single tree. -/
theorem meldSelf_step (inv : WorldInv comp w) {op : Op T} {w₁ : World T} {event : Event T}
    (lossy : ¬ Apart w op) (step : w.apply comp op = some (w₁, event)) :
    WorldInv comp w₁ ∧ ∃ i, event = .meld i i ∧ contents w i ≠ 0 ∧
      contents w₁ = update (contents w) i 0 := by
  obtain ⟨i, rfl, some⟩ : ∃ i, op = .meld i i ∧ (w.heaps i).rootList ≠ [] := by
    cases op with
    | meld i j =>
      obtain ⟨rfl, some⟩ := Classical.not_imp.mp lossy
      exact ⟨i, rfl, some⟩
    | _ => exact absurd trivial lossy
  rw [World.apply, if_pos rfl] at step
  unfold meldSelf at step
  split at step
  · rename_i none
    exact absurd none some
  · rename_i r single
    cases step
    have pool : (w.heaps i).pool.Nodup := (nodup_append.mp (inv.nodup i)).2.1
    refine ⟨inv.set ⟨Forest.nil comp, nodup_nil, rfl, rfl⟩ pool (le_refl _) ?_ ?_,
      i, rfl, ?_, ?_⟩
    · intro j other a member
      exact inv.disjoint i j (Ne.symm other) a (mem_append_right _ member)
    · intro a member
      exact inv.bound i a (mem_append_right _ member)
    · simp [contents, single, itemsOf, Root.items]
    · rw [World.set, contents_set]
      rfl
  · cases step

theorem apply_inv (inv : WorldInv comp w) {op : Op T} {w₁ : World T} {event : Event T}
    (legal : Legal w op) (step : w.apply comp op = some (w₁, event)) : WorldInv comp w₁ := by
  by_cases apart : Apart w op
  · obtain ⟨w₂, event', result, inv₂, _⟩ := apply_spec inv legal apart
    cases Option.some.inj (step.symm.trans result)
    exact inv₂
  · exact (meldSelf_step inv apart step).1

theorem run_inv {meets : World T → Op T → Prop} {w' : World T} {events : List (Event T)}
    (inv : WorldInv comp w) (run : Run comp meets w events w') : WorldInv comp w' := by
  induction run with
  | done w => exact inv
  | call legal _ step _ ih => exact ih (apply_inv inv legal step)

/-! ### Lost values -/

/-- What the queues have over the heaps moves with a meld and is touched by nothing
else. -/
def carried (event : Event T) (extra : Nat → Multiset T) : Nat → Multiset T :=
  match event with
  | .meld i j =>
    if i = j then extra
    else update (update extra i (extra i + extra j)) j 0
  | _ => extra

theorem carried_eq_zero {event : Event T} {extra : Nat → Multiset T}
    (nothing : carried event extra = 0) : extra = 0 := by
  unfold carried at nothing
  split at nothing
  · rename_i i j
    split at nothing
    · exact nothing
    · rename_i distinct
      have both := congrFun nothing i
      rw [update_of_ne distinct, update_self] at both
      have first := Multiset.le_zero.mp (both ▸ Multiset.le_add_right _ _)
      have second := Multiset.le_zero.mp (both ▸ Multiset.le_add_left _ _)
      funext k
      by_cases atJ : k = j
      · rw [atJ]
        exact second
      · by_cases atI : k = i
        · rw [atI]
          exact first
        · have other := congrFun nothing k
          rwa [update_of_ne atJ, update_of_ne atI] at other
  · exact nothing

omit [IsStrictWeakOrder T (Lesser comp)] in
theorem removed_carried {M extra : Nat → Multiset T} {i : Nat} {value : T}
    {rest rest' : Multiset T} (here : M i = value ::ₘ rest)
    (both : (M + extra) i = value ::ₘ rest') :
    update (M + extra) i rest' = update M i rest + extra := by
  rw [Pi.add_apply, here, Multiset.cons_add, Multiset.cons_inj_right] at both
  funext k
  by_cases same : k = i
  · subst same
    rw [Pi.add_apply, update_self, update_self, both]
  · rw [Pi.add_apply, update_of_ne same, update_of_ne same, Pi.add_apply]

omit [IsStrictWeakOrder T (Lesser comp)] in
theorem queueStep_carried {M M₁ M₂ extra : Nat → Multiset T} {event : Event T}
    (step : QueueStep comp M event M₁) (more : QueueStep comp (M + extra) event M₂) :
    M₂ = M₁ + carried event extra := by
  cases event with
  | insert i value =>
    subst step more
    funext k
    by_cases same : k = i
    · subst same
      simp only [carried, Pi.add_apply, update_self, Multiset.cons_add]
    · simp only [carried, Pi.add_apply, update_of_ne same]
  | extractMin i result =>
    cases result with
    | none =>
      obtain ⟨-, rfl⟩ := step
      exact more.2
    | some value =>
      obtain ⟨-, rest, here, rfl⟩ := step
      obtain ⟨-, rest', both, rfl⟩ := more
      exact removed_carried here both
  | delete i value =>
    obtain ⟨rest, here, rfl⟩ := step
    obtain ⟨rest', both, rfl⟩ := more
    exact removed_carried here both
  | meld i j =>
    subst step more
    by_cases same : i = j
    · simp only [carried, if_pos same]
    · simp only [carried, if_neg same]
      funext k
      by_cases atJ : k = j
      · subst atJ
        simp only [Pi.add_apply, update_self, add_zero]
      · by_cases atI : k = i
        · subst atI
          simp only [Pi.add_apply, update_of_ne atJ, update_self]
          exact add_add_add_comm _ _ _ _
        · simp only [Pi.add_apply, update_of_ne atJ, update_of_ne atI]
  | nothing =>
    subst step more
    rfl

/-- Queues that end with the values of the heaps had them all along, so that no meld
dropped any. -/
theorem run_apart {w' : World T} {events : List (Event T)} {extra : Nat → Multiset T}
    (inv : WorldInv comp w) (run : Run comp (fun _ _ => True) w events w')
    (queue : QueueRun comp (contents w + extra) events (contents w')) :
    extra = 0 ∧ Run comp Apart w events w' := by
  induction run generalizing extra with
  | done w => exact ⟨left_eq_add.mp queue, .done w⟩
  | @call w w₁ w' op event events legal _ step _ ih =>
    obtain ⟨M₁, first, rest⟩ := queue
    by_cases apart : Apart w op
    · obtain ⟨w₂, event', result, inv₁, values⟩ := apply_spec inv legal apart
      cases Option.some.inj (step.symm.trans result)
      rw [queueStep_carried values first] at rest
      obtain ⟨nothing, run⟩ := ih inv₁ rest
      exact ⟨carried_eq_zero nothing, .call legal apart step run⟩
    · exfalso
      obtain ⟨inv₁, i, rfl, some, dropped⟩ := meldSelf_step inv apart step
      have remains : M₁ = contents w₁ + update extra i (contents w i + extra i) := by
        rw [QueueStep, if_pos rfl] at first
        rw [first, dropped]
        funext k
        by_cases same : k = i
        · subst same
          simp only [Pi.add_apply, update_self, zero_add]
        · simp only [Pi.add_apply, update_of_ne same]
      rw [remains] at rest
      have nothing := congrFun (ih inv₁ rest).1 i
      rw [update_self, Pi.zero_apply] at nothing
      exact some (Multiset.le_zero.mp (nothing ▸ Multiset.le_add_right _ _))

omit [IsStrictWeakOrder T (Lesser comp)] in
theorem WorldInv.isQueue (inv : WorldInv comp w) (i : Nat) :
    IsQueue comp (contents w i) (w.heaps i) where
  trees r member := by
    have good := (inv.heap i).forest.good r member
    exact ⟨good.kids, good.parented, good.root, good.ordered, good.kids.length_items⟩
  increasing := (inv.heap i).forest.increasing
  count := by
    rw [(inv.heap i).count, contents, Multiset.coe_card, length_map]
  least := (inv.heap i).least
  values := rfl

end Steps

/-- After any calls the heaps are binomial heaps with the values of their queues if and
only if no heap with values was melded with itself, and every further call of that kind
ends. -/
theorem binomial_heap_run_is_priority_queue_iff (comp : T → T → Bool)
    [IsStrictWeakOrder T (Lesser comp)] (events : List (Event T)) (w : World T)
    (run : Run comp (fun _ _ => True) World.empty events w) :
    ((∃ M, QueueRun comp (fun _ => 0) events M ∧ ∀ i, IsQueue comp (M i) (w.heaps i)) ↔
        Run comp Apart World.empty events w) ∧
      ∀ op, Legal w op → Apart w op → ∃ w' event, w.apply comp op = some (w', event) := by
  have start : WorldInv comp (World.empty : World T) := WorldInv.empty comp
  have inv := run_inv start run
  refine ⟨⟨?_, ?_⟩, ?_⟩
  · rintro ⟨M, queue, shape⟩
    have values : M = contents w := funext fun i => (shape i).values.symm
    rw [values, ← add_zero (fun _ => (0 : Multiset T))] at queue
    exact (run_apart start run queue).2
  · intro apart
    exact ⟨contents w, run_spec start apart, inv.isQueue⟩
  · intro op legal apart
    obtain ⟨w', event, result, _⟩ := apply_spec inv legal apart
    exact ⟨w', event, result⟩

/-- Two values go in and the lesser one comes out. -/
theorem binomial_heap_run_is_priority_queue_iff_two :
    ∃ w : World Nat,
      Run (fun a b => decide (a < b)) (fun _ _ => True) World.empty
        [.insert 0 3, .insert 0 1, .extractMin 0 (some 1)] w ∧
      ∃ M, QueueRun (fun a b => decide (a < b)) (fun _ => 0)
        [.insert 0 3, .insert 0 1, .extractMin 0 (some 1)] M ∧
        ∀ i, IsQueue (fun a b => decide (a < b)) (M i) (w.heaps i) := by
  let h₁ : BinomialHeap Nat := ⟨[⟨0, 3, 0, none, .nil⟩], some 0, 1, []⟩
  let h₂ : BinomialHeap Nat := ⟨[⟨1, 1, 1, none, .cons 0 3 0 (some 1) .nil .nil⟩], some 1, 2, []⟩
  let h₃ : BinomialHeap Nat := ⟨[⟨0, 3, 0, none, .nil⟩], some 0, 1, [1]⟩
  let w₁ : World Nat := ⟨update (fun _ => BinomialHeap.empty) 0 h₁, 1⟩
  let w₂ : World Nat := ⟨update (fun _ => BinomialHeap.empty) 0 h₂, 2⟩
  let w₃ : World Nat := ⟨update (fun _ => BinomialHeap.empty) 0 h₃, 2⟩
  have first : World.empty.apply (fun a b => decide (a < b)) (.insert 0 3) =
      some (w₁, .insert 0 3) := by
    simp [World.apply, BinomialHeap.insert, acquire, unionHeap, mergeRootLists, unionLoop,
      updateMin, leastFrom, World.empty, BinomialHeap.empty, w₁, h₁]
  have second : w₁.apply (fun a b => decide (a < b)) (.insert 0 1) =
      some (w₂, .insert 0 1) := by
    simp [World.apply, BinomialHeap.insert, acquire, unionHeap, mergeRootLists, unionLoop, link,
      updateMin, leastFrom, w₁, w₂, h₁, h₂]
  have third : w₂.apply (fun a b => decide (a < b)) (.extractMin 0) =
      some (w₃, .extractMin 0 (some 1)) := by
    simp [World.apply, World.set, extractMin, unlinkRoot, reverseChildren, unionHeap,
      mergeRootLists, unionLoop, updateMin, leastFrom, w₂, w₃, h₂, h₃]
  have apart : Run (fun a b => decide (a < b)) Apart World.empty
      [.insert 0 3, .insert 0 1, .extractMin 0 (some 1)] w₃ :=
    .call (show Legal _ (.insert 0 3) from trivial) trivial first
      (.call (show Legal _ (.insert 0 1) from trivial) trivial second
        (.call (show Legal _ (.extractMin 0) from trivial) trivial third (.done w₃)))
  have run : Run _ (fun _ _ => True) _ _ _ := apart.weaken fun _ _ _ => trivial
  exact ⟨_, run, (binomial_heap_run_is_priority_queue_iff _ _ _ run).1.mpr apart⟩

/-- A heap with one value is empty after a meld with itself. -/
theorem binomial_heap_meld_self_drops_value :
    ∃ w : World Nat,
      Run (fun a b => decide (a < b)) (fun _ _ => True) World.empty
        [.insert 0 5, .meld 0 0] w ∧
      ¬ ∃ M, QueueRun (fun a b => decide (a < b)) (fun _ => 0) [.insert 0 5, .meld 0 0] M ∧
        ∀ i, IsQueue (fun a b => decide (a < b)) (M i) (w.heaps i) := by
  let h₁ : BinomialHeap Nat := ⟨[⟨0, 5, 0, none, .nil⟩], some 0, 1, []⟩
  let h₂ : BinomialHeap Nat := ⟨[], none, 0, []⟩
  let w₁ : World Nat := ⟨update (fun _ => BinomialHeap.empty) 0 h₁, 1⟩
  let w₂ : World Nat := w₁.set 0 h₂
  have first : World.empty.apply (fun a b => decide (a < b)) (.insert 0 5) =
      some (w₁, .insert 0 5) := by
    simp [World.apply, BinomialHeap.insert, acquire, unionHeap, mergeRootLists, unionLoop,
      updateMin, leastFrom, World.empty, BinomialHeap.empty, w₁, h₁]
  have second : w₁.apply (fun a b => decide (a < b)) (.meld 0 0) = some (w₂, .meld 0 0) := rfl
  refine ⟨w₂, .call (show Legal _ (.insert 0 5) from trivial) trivial first
    (.call (show Legal _ (.meld 0 0) from trivial) trivial second (.done w₂)), ?_⟩
  rintro ⟨M, ⟨M₁, rfl, M₂, rfl, rfl⟩, shape⟩
  have values := (shape 0).values
  simp [w₂, w₁, h₂, World.set, itemsOf] at values


/-! ## The shape of the forest -/

theorem Forest.length_items {comp : T → T → Bool} {roots : List (Root T)}
    (forest : Forest comp roots) :
    (itemsOf roots).length = ((roots.map Root.degree).map fun d => 2 ^ d).sum := by
  have trees := forest.good
  clear forest
  induction roots with
  | nil => rfl
  | cons r rest ih =>
    have here := (trees r mem_cons_self).kids.length_items
    rw [itemsOf, flatMap_cons, length_append, ← itemsOf,
      ih fun r' member => trees r' (mem_cons_of_mem _ member), Root.items,
      length_cons, here, map_cons, map_cons, sum_cons]

/-- The shape of a heap depends on its size alone: there is a tree of degree `d` if and
only if the number of values has the bit `d`. -/
theorem root_degrees_are_bits (comp : T → T → Bool) [IsStrictWeakOrder T (Lesser comp)]
    (events : List (Event T)) (w : World T)
    (run : Run comp (fun _ _ => True) World.empty events w) (i : Nat) :
    (w.heaps i).rootList.map Root.degree = (w.heaps i).nodeCount.bitIndices := by
  have inv := (run_inv (WorldInv.empty comp) run).heap i
  rw [inv.count, inv.forest.length_items]
  exact (Nat.bitIndices_sum_map_two_pow inv.forest.increasing.sortedLT).symm

theorem root_degrees_are_bits_three :
    ∃ w : World Nat, Run (fun a b => decide (a < b)) (fun _ _ => True) World.empty
        [.insert 0 3, .insert 0 1, .insert 0 2] w ∧
      (w.heaps 0).rootList.map Root.degree = (w.heaps 0).nodeCount.bitIndices := by
  have run : ∃ w : World Nat, Run (fun a b => decide (a < b)) (fun _ _ => True) World.empty
      [.insert 0 3, .insert 0 1, .insert 0 2] w :=
    ⟨_, .call (show Legal _ (.insert 0 3) from trivial) trivial rfl
      (.call (show Legal _ (.insert 0 1) from trivial) trivial rfl
        (.call (show Legal _ (.insert 0 2) from trivial) trivial rfl (.done _)))⟩
  obtain ⟨w, run⟩ := run
  exact ⟨w, run, root_degrees_are_bits _ _ w run 0⟩

end Micron.Binomial
