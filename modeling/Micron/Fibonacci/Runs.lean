import Mathlib.Order.Interval.Finset.Nat
import Micron.Fibonacci.Roots

/-!
# Runs of a heap

After any calls the heap is a forest with the values of a priority queue that was
given the same calls.  Nodes lie at different addresses of 64 bits, other than
null, so that there are fewer than `2 ^ 64` of them and no degree reaches 64.
-/

set_option autoImplicit false

namespace Micron.Fibonacci

open Micron.Lib List

variable {T : Type} {lt : T → T → Bool} {m m' : Store (Node T)} {live : Finset Nat}
  {roots : List Nat} {kids : Nat → List Nat}

structure IsHeap (lt : T → T → Bool) (M : Multiset T) (live : Finset Nat) (roots : List Nat)
    (kids : Nat → List Nat) (h : FibonacciHeap T) : Prop where
  forest : Forest lt h.nodes live roots kids
  first : h.minRoot = roots.head?
  top : Topmost lt h.nodes roots
  stored : ∀ a, a ∈ live ↔ (h.nodes a).isSome
  pointers : ∀ a ∈ live, 0 < a ∧ a < 2 ^ 64
  count : h.totalNodes = live.card
  values : live.val.map (fun a => h.nodes.read a Node.value) = M.map some

namespace IsHeap

variable {M : Multiset T} {h : FibonacciHeap T}

theorem empty (lt : T → T → Bool) :
    IsHeap lt 0 ∅ [] (fun _ => []) (FibonacciHeap.empty : FibonacciHeap T) where
  forest := by
    refine ⟨trivial, nodup_nil, ?_, ?_, ?_, ?_, ?_, ?_, ?_⟩ <;> simp
  first := rfl
  top r isHead := nomatch isHead
  stored a := by simp [FibonacciHeap.empty]
  pointers a inside := absurd inside (Finset.notMem_empty a)
  count := rfl
  values := rfl

theorem card_lt (heap : IsHeap lt M live roots kids h) : live.card < 2 ^ 64 := by
  have sub : live ⊆ Finset.Ioo 0 (2 ^ 64) := by
    intro a inside
    exact Finset.mem_Ioo.mpr (heap.pointers a inside)
  have bound := Finset.card_le_card sub
  rw [Nat.card_Ioo] at bound
  omega

theorem mem_iff (heap : IsHeap lt M live roots kids h) (x : T) :
    x ∈ M ↔ ∃ a ∈ live, h.nodes.read a Node.value = some x := by
  rw [← Multiset.mem_map_of_injective (Option.some_injective T), ← heap.values, Multiset.mem_map]
  rfl

theorem eq_zero (heap : IsHeap lt M live roots kids h) (none : h.minRoot = none) : M = 0 := by
  have noRoots : roots = [] := head?_eq_none_iff.mp (heap.first.symm.trans none)
  have noNodes := heap.forest.card_eq
  rw [noRoots, map_nil, sum_nil, Finset.card_eq_zero] at noNodes
  have values := heap.values
  rw [noNodes, Finset.empty_val, Multiset.map_zero] at values
  exact Multiset.map_eq_zero.mp values.symm

theorem greatest [IsStrictWeakOrder T (Lesser lt)] (heap : IsHeap lt M live roots kids h) {r : Nat}
    {v : T} (first : h.minRoot = some r) (value : h.nodes.read r Node.value = some v) :
    v ∈ M ∧ ∀ x ∈ M, lt v x = false := by
  have isHead : r ∈ roots.head? := heap.first.symm.trans first
  have root : r ∈ roots := mem_of_mem_head? isHead
  refine ⟨(heap.mem_iff v).mpr ⟨r, (heap.forest.root r root).1, value⟩, ?_⟩
  intro x member
  obtain ⟨a, inside, reads⟩ := (heap.mem_iff x).mp member
  obtain ⟨q, rootQ, above⟩ := heap.forest.le_root inside
  obtain ⟨d, degree, _⟩ := heap.forest.degrees q (heap.forest.root q rootQ).1
  obtain ⟨nq, found, _⟩ := Store.exists_of_read degree
  have valueQ : h.nodes.read q Node.value = some nq.value := Store.read_eq found _
  exact comp_trans_false (heap.top r isHead q rootQ v nq.value value valueQ)
    (above nq.value x valueQ reads)

theorem insert_values {new : Nat} {v : T} (heap : IsHeap lt M live roots kids h)
    (fresh : new ∉ live) (value : ∀ a, m.read a Node.value =
      (h.nodes.alloc new (Node.make new v)).read a Node.value) :
    (insert new live).val.map (fun a => m.read a Node.value) = (v ::ₘ M).map some := by
  have made : m.read new Node.value = some v := by
    rw [value]
    exact Store.read_eq (Store.alloc_self _ _ _) _
  rw [Finset.insert_val_of_notMem fresh, Multiset.map_cons, Multiset.map_cons, made, ← heap.values]
  congr 1
  refine Multiset.map_congr rfl ?_
  intro a inside
  have other : a ≠ new := by
    rintro rfl
    exact fresh inside
  rw [value, Store.read, Store.read, Store.alloc_of_ne _ other]

theorem insert_spec [IsStrictWeakOrder T (Lesser lt)] (heap : IsHeap lt M live roots kids h)
    {new : Nat} (free : h.nodes new = none) (pointer : 0 < new ∧ new < 2 ^ 64) (v : T) :
    ∃ h' roots', h.insert lt new v = some h' ∧
      IsHeap lt (v ::ₘ M) (insert new live) roots' (Function.update kids new []) h' := by
  have fresh : new ∉ live := by
    rw [heap.stored, free]
    exact Bool.false_ne_true
  have small : (insert new live).card < 2 ^ 64 := by
    have sub : insert new live ⊆ Finset.Ioo 0 (2 ^ 64) := by
      intro a inside
      rw [Finset.mem_Ioo]
      rcases Finset.mem_insert.mp inside with rfl | inside
      · exact pointer
      · exact heap.pointers a inside
    have bound := Finset.card_le_card sub
    rw [Nat.card_Ioo] at bound
    omega
  have count : (h.totalNodes + 1) % 2 ^ 64 = (insert new live).card := by
    rw [heap.count, ← Finset.card_insert_of_notMem fresh, Nat.mod_eq_of_lt small]
  have pointers : ∀ a ∈ insert new live, 0 < a ∧ a < 2 ^ 64 := by
    intro a inside
    rcases Finset.mem_insert.mp inside with rfl | inside
    · exact pointer
    · exact heap.pointers a inside
  let m₁ := h.nodes.alloc new (Node.make new v)
  have made : m₁ new = some (Node.make new v) := Store.alloc_self _ _ _
  have stored : ∀ {m₂ : Store (Node T)}, (∀ a, (m₂ a).isSome = (m₁ a).isSome) →
      ∀ a, a ∈ insert new live ↔ (m₂ a).isSome := by
    intro m₂ same a
    rw [same, Finset.mem_insert, heap.stored]
    by_cases isNew : a = new
    · rw [isNew, made]
      simp
    · have old : m₁ a = h.nodes a := Store.alloc_of_ne _ isNew _
      rw [old]
      simp [isNew]
  cases first : h.minRoot with
  | none =>
    have noRoots : roots = [] := head?_eq_none_iff.mp (heap.first.symm.trans first)
    subst noRoots
    refine ⟨⟨some new, (h.totalNodes + 1) % 2 ^ 64, m₁⟩, [new], ?_, ?_, rfl, ?_,
      stored fun _ => rfl, pointers, count, heap.insert_values fresh fun _ => rfl⟩
    · simp only [FibonacciHeap.insert, first]
      rfl
    · refine heap.forest.adopt fresh (Relinked.refl _) ⟨?_, ?_⟩ (.refl _)
      · exact Store.read_eq made _
      · exact Store.read_eq made _
    · intro r isHead q inside v u valueR valueQ
      cases isHead
      cases mem_singleton.mp inside
      cases Option.some.inj (valueR.symm.trans valueQ)
      exact comp_irrefl v
  | some r =>
    obtain ⟨l, split⟩ : ∃ l, roots = r :: l := head?_eq_some_iff.mp (heap.first.symm.trans first)
    subst split
    have old : Forest lt m₁ live (r :: l) kids := by
      refine heap.forest.congr ?_
      intro a inside
      have other : a ≠ new := by
        rintro rfl
        exact fresh inside
      exact Store.alloc_of_ne _ other _
    obtain ⟨m₂, spliced, ring, change⟩ := old.ring.splice old.nodup
      (fun root => fresh (old.root new root).1) (by rw [made]; rfl)
    have change' : Relinked (new :: r :: l) m₁ m₂ := by
      refine change.mono ?_
      intro a inside
      exact (List.Perm.swap new r l).mem_iff.mp inside
    have valueN : m₂.read new Node.value = some v := by
      rw [change.value]
      exact Store.read_eq made _
    obtain ⟨d, degree, _⟩ := old.degrees r (old.root r mem_cons_self).1
    obtain ⟨nr, foundR, _⟩ := Store.exists_of_read degree
    have valueR : m₂.read r Node.value = some nr.value := by
      rw [change.value]
      exact Store.read_eq foundR _
    have top : Topmost lt m₂ (r :: l) := by
      intro a isHead q inside
      have same : ∀ b ∈ r :: l, m₂.read b Node.value = h.nodes.read b Node.value := by
        intro b root
        have other : b ≠ new := fun isNew => fresh (isNew ▸ (old.root b root).1)
        have kept : m₁ b = h.nodes b := Store.alloc_of_ne _ other _
        rw [change.value, Store.read, Store.read, kept]
      rw [same a (mem_of_mem_head? isHead), same q inside]
      exact heap.top a isHead q inside
    have splits := topmost_splice top valueN valueR
    have result : h.insert lt new v =
        some ⟨some (if lt nr.value v then new else r), (h.totalNodes + 1) % 2 ^ 64, m₂⟩ := by
      simp only [FibonacciHeap.insert, first]
      rw [spliced]
      simp only [Option.bind_eq_bind, Option.bind_some, valueN, valueR]
    cases less : lt nr.value v with
    | true =>
      refine ⟨_, new :: l ++ [r], result, ?_, ?_, splits.1 less, stored change.isSome, pointers,
        count, heap.insert_values fresh change.value⟩
      · have whole : NodeRing m₂ ([r] ++ (new :: l)) := ring
        refine heap.forest.adopt fresh change' whole.rotate ?_
        exact (perm_append_singleton r (new :: l)).trans (List.Perm.swap _ _ _)
      · simp only [less, if_true]
        rfl
    | false =>
      refine ⟨_, r :: new :: l, result, ?_, ?_, splits.2 less, stored change.isSome, pointers,
        count, heap.insert_values fresh change.value⟩
      · exact heap.forest.adopt fresh change' ring (List.Perm.swap _ _ _)
      · simp only [less]
        rfl

/-- The nodes once the first root has been taken out and its children are roots. -/
theorem release_spec {z : Nat} {l : List Nat} (heap : IsHeap lt M live (z :: l) kids h) :
    ∃ m₁ m₂, release h.totalNodes z h.nodes = some m₁ ∧ unlink m₁ z = some m₂ ∧
      Forest lt m₂ (live.erase z) ((kids z).reverse ++ l) kids ∧ SameValues h.nodes m₂ ∧
      m₂.read z Node.right = some (((kids z).reverse ++ l ++ [z]).head (by simp)) := by
  have forest := heap.forest
  have liveZ := (forest.root z mem_cons_self).1
  have child := forest.child z liveZ
  obtain ⟨m₁, result, released⟩ : ∃ m₁, release h.totalNodes z h.nodes = some m₁ ∧
      Released z (kids z) l h.nodes m₁ := by
    rw [release, child, Option.bind_eq_bind, Option.bind_some]
    cases kidsZ : kids z with
    | nil =>
      refine ⟨h.nodes, rfl, forest.ring, fun _ _ _ => rfl, fun _ => rfl, fun _ => rfl,
        fun _ => rfl, fun _ => rfl, ?_⟩
      intro a
      rw [if_neg not_mem_nil]
    | cons c cs =>
      have kidRing := forest.kidRing z liveZ
      have kidNodup := forest.kids_nodup liveZ
      rw [kidsZ] at kidRing kidNodup child
      have apart : ∀ r ∈ z :: l, ∀ k ∈ c :: cs, r ≠ k := by
        rintro r root k kid rfl
        rw [← kidsZ] at kid
        exact forest.root_not_kid liveZ root kid
      have nodup : (z :: (l ++ c :: cs)).Nodup :=
        nodup_append.mpr ⟨forest.nodup, kidNodup, apart⟩
      have enough : cs.length < h.totalNodes := by
        have sub : (c :: cs).toFinset ⊆ live := by
          intro k member
          rw [← kidsZ, mem_toFinset] at member
          exact (forest.kid z liveZ k member).1
        have bound := Finset.card_le_card sub
        rw [toFinset_card_of_nodup kidNodup, length_cons] at bound
        rw [heap.count]
        exact bound
      exact releaseChildren_spec forest.ring nodup (Forward.of_arc kidRing) child
        (nodup_cons.mp kidNodup).1 enough
  have nodup : (z :: ((kids z).reverse ++ l)).Nodup := by
    refine nodup_cons.mpr ⟨?_, nodup_append.mpr
      ⟨nodup_reverse.mpr (forest.kids_nodup liveZ), (nodup_cons.mp forest.nodup).2, ?_⟩⟩
    · rw [mem_append, mem_reverse, not_or]
      exact ⟨forest.root_not_kid liveZ mem_cons_self, (nodup_cons.mp forest.nodup).1⟩
    · rintro k kid r root rfl
      exact forest.root_not_kid liveZ (mem_cons_of_mem _ root) (mem_reverse.mp kid)
  obtain ⟨m₂, unlinked, ring, change, right⟩ := released.ring.unlink nodup
  refine ⟨m₁, m₂, result, unlinked, forest.release released ring change,
    ⟨fun a => (change.isSome a).trans (released.isSome a),
      fun a => (change.value a).trans (released.value a)⟩, ?_⟩
  rw [right]
  exact Arc.right_eq (released.ring : Arc _ _ _ _ _)

/-- The new first root, with `z` out of the ring of the roots `l`. -/
theorem renew_spec [IsStrictWeakOrder T (Lesser lt)] {z fuel : Nat} {l : List Nat}
    (small : live.card < 2 ^ 64) (forest : Forest lt m live l kids) (enough : live.card < fuel)
    (right : m.read z Node.right = some ((l ++ [z]).head (by simp))) (away : z ∉ live) :
    ∃ minRoot m' roots' kids', renew lt fuel z m = some (minRoot, m') ∧ SameValues m m' ∧
      Forest lt m' live roots' kids' ∧ minRoot = roots'.head? ∧ Topmost lt m' roots' ∧
      DistinctDegrees m' roots' := by
  cases l with
  | nil =>
    refine ⟨none, m, [], kids, ?_, SameValues.refl _, forest, rfl, ?_, nodup_nil⟩
    · rw [renew, right]
      simp
    · intro r isHead
      cases isHead
  | cons r l =>
    have other : z ≠ r := by
      rintro rfl
      exact away (forest.root z mem_cons_self).1
    have enough' : l.length < fuel := by
      have sub : (r :: l).toFinset ⊆ live := by
        intro a member
        exact (forest.root a (mem_toFinset.mp member)).1
      have bound := Finset.card_le_card sub
      rw [toFinset_card_of_nodup forest.nodup, length_cons] at bound
      omega
    obtain ⟨r', l', m', kids', result, forest', top, distinct, same⟩ :=
      consolidate_spec small forest enough'
    refine ⟨some r', m', r' :: l', kids', ?_, same, forest', rfl, top, distinct⟩
    rw [renew, right]
    simp only [cons_append, head_cons, Option.bind_eq_bind, Option.bind_some,
      if_neg other]
    exact result

theorem pop_values {z : Nat} {v : T} (heap : IsHeap lt M live roots kids h) (inside : z ∈ live)
    (value : h.nodes.read z Node.value = some v)
    (same : ∀ a ∈ live.erase z, m.read a Node.value = h.nodes.read a Node.value) :
    ∃ M', M = v ::ₘ M' ∧
      (live.erase z).val.map (fun a => m.read a Node.value) = M'.map some := by
  obtain ⟨M', split⟩ := Multiset.exists_cons_of_mem ((heap.mem_iff v).mpr ⟨z, inside, value⟩)
  refine ⟨M', split, ?_⟩
  have values := heap.values
  rw [← Multiset.cons_erase inside, Multiset.map_cons, value, split, Multiset.map_cons,
    Multiset.cons_inj_right] at values
  rw [← values, Finset.erase_val]
  refine Multiset.map_congr rfl ?_
  intro a member
  refine same a ?_
  exact member

theorem pop_spec [IsStrictWeakOrder T (Lesser lt)] (heap : IsHeap lt M live roots kids h) {z : Nat}
    (first : h.minRoot = some z) :
    ∃ v h' M' live' roots' kids', h.pop lt = some (.ok v, h') ∧
      (∀ x ∈ M, lt v x = false) ∧ M = v ::ₘ M' ∧ IsHeap lt M' live' roots' kids' h' ∧
      DistinctDegrees h'.nodes roots' := by
  obtain ⟨l, split⟩ : ∃ l, roots = z :: l := head?_eq_some_iff.mp (heap.first.symm.trans first)
  subst split
  have liveZ := (heap.forest.root z mem_cons_self).1
  obtain ⟨m₁, m₂, released, unlinked, forest, same, right⟩ := heap.release_spec
  obtain ⟨nz, foundZ⟩ := Option.isSome_iff_exists.mp ((heap.stored z).mp liveZ)
  have value : h.nodes.read z Node.value = some nz.value := Store.read_eq foundZ _
  have small := heap.card_lt
  have small' : (live.erase z).card < 2 ^ 64 :=
    lt_of_le_of_lt (Finset.card_le_card (Finset.erase_subset z live)) small
  have enough : (live.erase z).card < h.totalNodes := by
    rw [heap.count]
    exact Finset.card_erase_lt_of_mem liveZ
  obtain ⟨minRoot, m₃, roots', kids', renewed, same', forest', isHead, top, distinct⟩ :=
    renew_spec small' forest enough right (Finset.notMem_erase z live)
  have whole := same.trans same'
  have valueZ : m₃.read z Node.value = some nz.value := by
    rw [whole.value, value]
  have kept : ∀ a ∈ live.erase z, m₃.free z a = m₃ a := fun a inside =>
    Store.free_of_ne _ (Finset.mem_erase.mp inside).1
  have keptRead : ∀ {β : Type} (field : Node T → β), ∀ a ∈ live.erase z,
      (m₃.free z).read a field = m₃.read a field := by
    intro β field a inside
    rw [Store.read, Store.read, kept a inside]
  obtain ⟨M', splitM, values⟩ := heap.pop_values (m := m₃.free z) liveZ value (by
    intro a inside
    rw [keptRead _ a inside, whole.value])
  refine ⟨nz.value, ⟨minRoot, (h.totalNodes + 2 ^ 64 - 1) % 2 ^ 64, m₃.free z⟩, M', live.erase z,
    roots', kids', ?_, (heap.greatest first value).2, splitM,
    ⟨forest'.congr kept, isHead, ?_, ?_, ?_, ?_, values⟩, ?_⟩
  · simp only [FibonacciHeap.pop, first, released, unlinked, renewed, valueZ, Option.bind_eq_bind,
      Option.bind_some]
  · intro r isHead' q inside
    rw [keptRead _ r (forest'.root r (mem_of_mem_head? isHead')).1,
      keptRead _ q (forest'.root q inside).1]
    exact top r isHead' q inside
  · intro a
    rw [Finset.mem_erase, heap.stored, ← whole.isSome]
    by_cases isZ : a = z
    · simp [isZ, Store.free_self]
    · simp [isZ, Store.free_of_ne]
  · intro a inside
    exact heap.pointers a (Finset.mem_of_mem_erase inside)
  · have positive : 0 < live.card := Finset.card_pos.mpr ⟨z, liveZ⟩
    have counted := heap.count
    have erased := Finset.card_erase_of_mem liveZ
    show (h.totalNodes + 2 ^ 64 - 1) % 2 ^ 64 = _
    omega
  · have degrees : roots'.map (fun r => (m₃.free z).read r Node.degree) =
        roots'.map fun r => m₃.read r Node.degree :=
      map_congr_left fun r root => keptRead _ r (forest'.root r root).1
    rw [DistinctDegrees, degrees]
    exact distinct

end IsHeap

/-! ## Runs -/

inductive Event (T : Type) where
  | insert (value : T)
  | max (result : Except String T)
  | pop (result : Except String T)
  deriving DecidableEq

def QueueStep (lt : T → T → Bool) (M : Multiset T) : Event T → Multiset T → Prop
  | .insert value, M' => M' = value ::ₘ M
  | .max (.error _), M' => M = 0 ∧ M' = M
  | .max (.ok value), M' => value ∈ M ∧ (∀ x ∈ M, lt value x = false) ∧ M' = M
  | .pop (.error _), M' => M = 0 ∧ M' = M
  | .pop (.ok value), M' => (∀ x ∈ M, lt value x = false) ∧ M = value ::ₘ M'

inductive QueueRun (lt : T → T → Bool) : List (Event T) → Multiset T → Prop
  | empty : QueueRun lt [] 0
  | call {events : List (Event T)} {M M' : Multiset T} {event : Event T} :
      QueueRun lt events M → QueueStep lt M event M' → QueueRun lt (events ++ [event]) M'

/-- `insert` comes with the address of its new node. -/
inductive Op (T : Type) where
  | insert (new : Nat) (value : T)
  | max
  | pop

def FibonacciHeap.apply (lt : T → T → Bool) (h : FibonacciHeap T) :
    Op T → Option (FibonacciHeap T × Event T)
  | .insert new value => do
      let h ← h.insert lt new value
      some (h, .insert value)
  | .max => do
      let result ← h.max
      some (h, .max result)
  | .pop => do
      let (result, h) ← h.pop lt
      some (h, .pop result)

/-- A new node lies at an address of 64 bits that is not null and not in use. -/
def Legal (h : FibonacciHeap T) : Op T → Prop
  | .insert new _ => h.nodes new = none ∧ 0 < new ∧ new < 2 ^ 64
  | _ => True

inductive Run (lt : T → T → Bool) : List (Event T) → FibonacciHeap T → Prop
  | empty : Run lt [] FibonacciHeap.empty
  | call {events : List (Event T)} {h h' : FibonacciHeap T} {op : Op T} {event : Event T} :
      Run lt events h → Legal h op → h.apply lt op = some (h', event) →
      Run lt (events ++ [event]) h'

theorem apply_spec [IsStrictWeakOrder T (Lesser lt)] {M : Multiset T} {h : FibonacciHeap T}
    (heap : IsHeap lt M live roots kids h) {op : Op T} (legal : Legal h op) :
    ∃ h' event M' live' roots' kids', h.apply lt op = some (h', event) ∧
      QueueStep lt M event M' ∧ IsHeap lt M' live' roots' kids' h' ∧
      ∀ v, event = .pop (.ok v) → DistinctDegrees h'.nodes roots' := by
  cases op with
  | insert new value =>
    obtain ⟨h', roots', result, heap'⟩ := heap.insert_spec legal.1 legal.2 value
    refine ⟨h', .insert value, _, _, _, _, ?_, rfl, heap', fun _ other => nomatch other⟩
    simp only [FibonacciHeap.apply, result, Option.bind_eq_bind, Option.bind_some]
  | max =>
    cases first : h.minRoot with
    | none =>
      refine ⟨h, .max (.error "fibonacci_heap::max() empty"), M, _, _, _, ?_,
        ⟨heap.eq_zero first, rfl⟩, heap, fun _ other => nomatch other⟩
      simp only [FibonacciHeap.apply, FibonacciHeap.max, first, Option.bind_eq_bind,
        Option.bind_some]
    | some r =>
      have root : r ∈ roots := mem_of_mem_head? (heap.first.symm.trans first)
      obtain ⟨n, found⟩ := Option.isSome_iff_exists.mp
        ((heap.stored r).mp (heap.forest.root r root).1)
      have value : h.nodes.read r Node.value = some n.value := Store.read_eq found _
      obtain ⟨member, greatest⟩ := heap.greatest first value
      refine ⟨h, .max (.ok n.value), M, _, _, _, ?_, ⟨member, greatest, rfl⟩, heap,
        fun _ other => nomatch other⟩
      simp only [FibonacciHeap.apply, FibonacciHeap.max, first, value, Option.bind_eq_bind,
        Option.bind_some]
  | pop =>
    cases first : h.minRoot with
    | none =>
      refine ⟨h, .pop (.error "fibonacci_heap::pop() empty"), M, _, _, _, ?_,
        ⟨heap.eq_zero first, rfl⟩, heap, fun _ other => nomatch other⟩
      simp only [FibonacciHeap.apply, FibonacciHeap.pop, first, Option.bind_eq_bind,
        Option.bind_some]
    | some z =>
      obtain ⟨v, h', M', live', roots', kids', result, greatest, split, heap', distinct⟩ :=
        heap.pop_spec first
      refine ⟨h', .pop (.ok v), M', live', roots', kids', ?_, ⟨greatest, split⟩, heap',
        fun _ _ => distinct⟩
      simp only [FibonacciHeap.apply, result, Option.bind_eq_bind, Option.bind_some]

/-- After any calls the heap has the values of its queue, and after a `pop` no two
roots of equal degree; every further call ends. -/
theorem fibonacci_heap_run_is_max_queue (lt : T → T → Bool) [IsStrictWeakOrder T (Lesser lt)]
    (events : List (Event T)) (h : FibonacciHeap T) (run : Run lt events h) :
    (∃ M live roots kids, QueueRun lt events M ∧ IsHeap lt M live roots kids h ∧
      ∀ earlier v, events = earlier ++ [.pop (.ok v)] → DistinctDegrees h.nodes roots) ∧
    ∀ op, Legal h op → ∃ h' event, h.apply lt op = some (h', event) := by
  have state : ∃ M live roots kids, QueueRun lt events M ∧ IsHeap lt M live roots kids h ∧
      ∀ earlier v, events = earlier ++ [.pop (.ok v)] → DistinctDegrees h.nodes roots := by
    induction run with
    | empty => exact ⟨0, ∅, [], _, .empty, IsHeap.empty lt, fun _ _ _ => nodup_nil⟩
    | call _ legal step ih =>
      obtain ⟨M, live, roots, kids, queue, heap, _⟩ := ih
      obtain ⟨h', event, M', live', roots', kids', result, queueStep, heap', distinct⟩ :=
        apply_spec heap legal
      cases Option.some.inj (step.symm.trans result)
      refine ⟨M', live', roots', kids', queue.call queueStep, heap', ?_⟩
      intro earlier v same
      exact distinct v (append_inj_right' same rfl |> singleton_inj.mp)
  refine ⟨state, ?_⟩
  intro op legal
  obtain ⟨M, live, roots, kids, _, heap, _⟩ := state
  obtain ⟨h', event, _, _, _, _, result, _⟩ := apply_spec heap legal
  exact ⟨h', event, result⟩

/-- Three values go in and the greatest one comes out, which links the other two. -/
theorem fibonacci_heap_run_is_max_queue_three :
    ∃ h : FibonacciHeap Nat, ∃ M live roots kids,
      Run (fun a b => decide (a < b)) [.insert 5, .insert 7, .insert 6, .pop (.ok 7)] h ∧
      QueueRun (fun a b => decide (a < b)) [.insert 5, .insert 7, .insert 6, .pop (.ok 7)] M ∧
      IsHeap (fun a b => decide (a < b)) M live roots kids h ∧ DistinctDegrees h.nodes roots := by
  let lt : Nat → Nat → Bool := fun a b => decide (a < b)
  obtain ⟨h₁, step₁, free₁, h₂, step₂, free₂, h₃, step₃, popped⟩ :
      ∃ h₁, FibonacciHeap.empty.apply lt (.insert 1 5) = some (h₁, .insert 5) ∧
        h₁.nodes 2 = none ∧ ∃ h₂, h₁.apply lt (.insert 2 7) = some (h₂, .insert 7) ∧
        h₂.nodes 3 = none ∧ ∃ h₃, h₂.apply lt (.insert 3 6) = some (h₃, .insert 6) ∧
        (h₃.apply lt .pop).map Prod.snd = some (.pop (.ok 7)) :=
    ⟨_, rfl, rfl, _, rfl, rfl, _, rfl, by decide +kernel⟩
  obtain ⟨⟨h₄, _⟩, step₄, rfl⟩ := Option.map_eq_some_iff.mp popped
  have run₁ : Run lt [.insert 5] h₁ :=
    Run.empty.call (show Legal _ (.insert 1 5) from ⟨rfl, by decide, by decide⟩) step₁
  have run₂ : Run lt [.insert 5, .insert 7] h₂ :=
    run₁.call (show Legal _ (.insert 2 7) from ⟨free₁, by decide, by decide⟩) step₂
  have run₃ : Run lt [.insert 5, .insert 7, .insert 6] h₃ :=
    run₂.call (show Legal _ (.insert 3 6) from ⟨free₂, by decide, by decide⟩) step₃
  have run₄ : Run lt [.insert 5, .insert 7, .insert 6, .pop (.ok 7)] h₄ :=
    run₃.call (show Legal _ .pop from trivial) step₄
  obtain ⟨⟨M, live, roots, kids, queue, heap, distinct⟩, _⟩ :=
    fibonacci_heap_run_is_max_queue lt _ _ run₄
  exact ⟨h₄, M, live, roots, kids, run₄, queue, heap, distinct [.insert 5, .insert 7, .insert 6] 7 rfl⟩

end Micron.Fibonacci
