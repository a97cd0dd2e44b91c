import Micron.Binomial.Model

/-!
# Insertion and extraction

Both end in the union of two forests: with a single node, or with the reversed
children of the root that was taken out.
-/

set_option autoImplicit false

namespace Micron.Binomial

open Micron.Lib BinomialHeap List

variable {T : Type} {comp : T → T → Bool}

/-- Every node of the chain heads a heap-ordered tree. -/
def KidsOrdered (comp : T → T → Bool) : Chain T → Prop
  | .nil => True
  | .cons _ w _ _ c s => Ordered comp w c ∧ KidsOrdered comp s

theorem Ordered.kidsOrdered {v : T} {c : Chain T} (ordered : Ordered comp v c) :
    KidsOrdered comp c := by
  induction c with
  | nil => trivial
  | cons a w d p c s _ ihs => exact ⟨ordered.2.1, ihs ordered.2.2⟩

theorem Ordered.bound [IsStrictWeakOrder T (Lesser comp)] {v : T} {c : Chain T}
    (ordered : Ordered comp v c) : ∀ e ∈ c.items, comp e.2 v = false := by
  induction c generalizing v with
  | nil => exact fun e member => absurd member not_mem_nil
  | cons a w d p c s ihc ihs =>
    intro e member
    rcases mem_cons.mp member with rfl | later
    · exact ordered.1
    · rcases mem_append.mp later with below | beside
      · exact comp_trans_false (ihc ordered.2.1 e below) ordered.1
      · exact ihs ordered.2.2 e beside

theorem unlinkRoot_spec {front : List (Root T)} (back : List (Root T)) {r : Root T}
    (first : ∀ x ∈ front, x.addr ≠ r.addr) :
    unlinkRoot r.addr (front ++ r :: back) = some (r, front ++ back) := by
  induction front with
  | nil => simp [unlinkRoot]
  | cons x front ih =>
    have other := first x mem_cons_self
    have rest := ih fun y member => first y (mem_cons_of_mem _ member)
    simp [unlinkRoot, other, rest]

theorem reverseChildren_spec {d p : Nat} {c : Chain T} {acc : List (Root T)} (kids : Kids d c)
    (parented : Parented p c) (ordered : KidsOrdered comp c) (forest : Forest comp acc)
    (above : ∀ r ∈ acc, d ≤ r.degree) :
    Forest comp (reverseChildren c acc) ∧
      (itemsOf (reverseChildren c acc)).Perm (c.items ++ itemsOf acc) := by
  induction c generalizing d acc with
  | nil => exact ⟨forest, .refl _⟩
  | cons a v e q c s _ ihs =>
    match d, kids with
    | d + 1, ⟨same, kidsC, kidsS⟩ =>
      subst same
      have root : GoodRoot comp ⟨a, v, e, none, c⟩ := ⟨kidsC, rfl, parented.2.1, ordered.1⟩
      have longer : Forest comp (⟨a, v, e, none, c⟩ :: acc) := by
        refine ⟨forall_mem_cons.mpr ⟨root, forest.good⟩, ?_⟩
        refine pairwise_cons.mpr ⟨?_, forest.increasing⟩
        intro k member
        obtain ⟨r, inside, rfl⟩ := mem_map.mp member
        exact above r inside
      obtain ⟨forest', perm⟩ := ihs kidsS parented.2.2 ordered.2 longer
        (forall_mem_cons.mpr ⟨le_refl _, fun r member => Nat.le_of_succ_le (above r member)⟩)
      refine ⟨forest', perm.trans ?_⟩
      have shape : itemsOf (⟨a, v, e, none, c⟩ :: acc) = (a, v) :: (c.items ++ itemsOf acc) := rfl
      rw [shape, Chain.items, cons_append, append_assoc]
      refine perm_middle.trans (List.Perm.cons _ ?_)
      exact perm_append_comm_assoc _ _ _

variable [IsStrictWeakOrder T (Lesser comp)]

/-- `extract_min` takes out the root `r` that `min_node` points to; the trees below it
need not be ordered with respect to it. -/
theorem extractMin_removes {h : BinomialHeap T} {front back : List (Root T)} {r : Root T}
    (roots : h.rootList = front ++ r :: back) (min : h.minNode = some r.addr)
    (forest : Forest comp (front ++ back)) (kids : Kids r.degree r.child)
    (parented : Parented r.addr r.child) (ordered : KidsOrdered comp r.child)
    (nodup : ((itemsOf h.rootList).map Prod.fst).Nodup)
    (count : h.nodeCount = (itemsOf h.rootList).length) :
    ∃ h', h.extractMin comp = some (some r.value, h') ∧ HeapInv comp h' ∧
      ((r.addr, r.value) :: itemsOf h'.rootList).Perm (itemsOf h.rootList) ∧
      h'.pool = r.addr :: h.pool := by
  have total : (itemsOf h.rootList).Perm ((r.addr, r.value) :: (itemsOf (front ++ back) ++ r.child.items)) := by
    rw [roots]
    refine (itemsOf_perm perm_middle).trans ?_
    exact perm_append_comm.cons _
  have first : ∀ x ∈ front, x.addr ≠ r.addr := by
    intro x member same
    have apart := (total.map Prod.fst).nodup_iff.mp nodup
    refine (nodup_cons.mp apart).1 (mem_map.mpr ⟨(x.addr, x.value), ?_, same⟩)
    refine mem_append_left _ (mem_flatMap.mpr ⟨x, mem_append_left _ member, ?_⟩)
    exact mem_cons_self
  have found := unlinkRoot_spec back first
  rw [← roots] at found
  obtain ⟨forest', perm⟩ := reverseChildren_spec kids parented ordered (Forest.nil comp)
    fun x member => absurd member not_mem_nil
  have noItems : itemsOf ([] : List (Root T)) = [] := rfl
  rw [noItems, append_nil] at perm
  let h₁ : BinomialHeap T := ⟨front ++ back, some r.addr, h.nodeCount - 1, r.addr :: h.pool⟩
  -- the heap with the other roots and the children
  obtain ⟨h', result, forest'', least, items, count', pool⟩ : ∃ h',
      (if (reverseChildren r.child []).isEmpty
        then updateMin comp (unionHeap comp h₁ ⟨reverseChildren r.child [], none, 0, []⟩).1
        else (unionHeap comp h₁ ⟨reverseChildren r.child [], none, 0, []⟩).1) = h' ∧
      Forest comp h'.rootList ∧ LeastAt comp h'.rootList h'.minNode ∧
      (itemsOf h'.rootList).Perm (itemsOf (front ++ back) ++ r.child.items) ∧
      h'.nodeCount = h.nodeCount - 1 ∧ h'.pool = r.addr :: h.pool := by
    cases shape : reverseChildren r.child [] with
    | nil =>
      rw [shape, noItems] at perm
      obtain ⟨same, count', pool⟩ := updateMin_eq comp h₁
      refine ⟨_, rfl, ?_, ?_, ?_, count', pool⟩
      · exact same ▸ forest
      · exact same ▸ updateMin_least comp h₁
      · rw [← perm.nil_eq, append_nil]
        exact same ▸ .refl _
    | cons x xs =>
      rw [← shape]
      obtain ⟨h', union, forest'', least, items, count', pool⟩ := unionHeap_spec h₁
        ⟨reverseChildren r.child [], none, 0, []⟩ forest forest' (by simp [shape])
      refine ⟨h', ?_, forest'', least, items.trans (perm.append_left _), count', pool⟩
      rw [union]
      simp [shape]
  refine ⟨h', ?_, ⟨forest'', ?_, ?_, least⟩, ?_, pool⟩
  · simp only [extractMin, min, found, Option.bind_eq_bind, Option.bind_some]
    exact congrArg (fun h => some (some r.value, h)) result
  · have apart := (total.map Prod.fst).nodup_iff.mp nodup
    exact (items.map Prod.fst).nodup_iff.mpr (nodup_cons.mp apart).2
  · rw [count', count, total.length_eq, items.length_eq, length_cons, Nat.add_sub_cancel]
  · exact (items.cons _).trans total.symm

structure Acquired (h h' : BinomialHeap T) (fresh fresh' node : Nat) : Prop where
  source : h.pool = node :: h'.pool ∧ fresh' = fresh ∨
    h.pool = [] ∧ h'.pool = [] ∧ node = fresh ∧ fresh' = fresh + 1

theorem insert_spec {h : BinomialHeap T} (inv : HeapInv comp h) (fresh : Nat) (value : T) :
    ∃ node h' fresh', h.insert comp fresh value = (node, h', fresh') ∧
      Acquired h h' fresh fresh' node ∧
      (itemsOf h'.rootList).Perm ((node, value) :: itemsOf h.rootList) ∧
      (node ∉ (itemsOf h.rootList).map Prod.fst → HeapInv comp h') := by
  obtain ⟨node, h₁, fresh', taken, roots, count, source⟩ : ∃ node h₁ fresh',
      h.acquire fresh = (node, h₁, fresh') ∧ h₁.rootList = h.rootList ∧ h₁.nodeCount = h.nodeCount ∧
      Acquired h h₁ fresh fresh' node := by
    unfold acquire
    split
    · rename_i slot pool shape
      exact ⟨slot, _, fresh, rfl, rfl, rfl, ⟨.inl ⟨shape, rfl⟩⟩⟩
    · rename_i shape
      exact ⟨fresh, h, fresh + 1, rfl, rfl, rfl, ⟨.inr ⟨shape, shape, rfl, rfl⟩⟩⟩
  have single : Forest comp [(⟨node, value, 0, none, .nil⟩ : Root T)] := by
    refine ⟨?_, pairwise_singleton _ _⟩
    intro r member
    rw [mem_singleton.mp member]
    exact ⟨trivial, rfl, trivial, trivial⟩
  obtain ⟨h', union, forest, least, items, count', pool⟩ := unionHeap_spec h₁
    ⟨[⟨node, value, 0, none, .nil⟩], some node, 1, []⟩ (roots ▸ inv.forest) single
    (by simp)
  have perm : (itemsOf h'.rootList).Perm ((node, value) :: itemsOf h.rootList) := by
    rw [roots] at items
    exact items.trans perm_append_comm
  refine ⟨node, h', fresh', ?_, ⟨?_⟩, perm, ?_⟩
  · simp only [BinomialHeap.insert, taken, union]
  · rw [pool]
    exact source.source
  · intro new
    refine ⟨forest, ?_, ?_, least⟩
    · exact (perm.map Prod.fst).nodup_iff.mpr (nodup_cons.mpr ⟨new, inv.nodup⟩)
    · rw [count', count, perm.length_eq, inv.count, length_cons]

/-- `extract_min` on a heap: an exception when it is empty, or a least value. -/
theorem extractMin_spec {h : BinomialHeap T} (inv : HeapInv comp h) :
    (itemsOf h.rootList = [] ∧ h.extractMin comp = some (none, h)) ∨
    ∃ node value h', h.extractMin comp = some (some value, h') ∧ HeapInv comp h' ∧
      ((node, value) :: itemsOf h'.rootList).Perm (itemsOf h.rootList) ∧ h'.pool = node :: h.pool ∧
      ∀ e ∈ itemsOf h.rootList, comp e.2 value = false := by
  have least := inv.least
  cases min : h.minNode with
  | none =>
    rw [min] at least
    have noRoots : h.rootList = [] := least
    refine .inl ⟨?_, ?_⟩
    · rw [noRoots]
      rfl
    · simp only [extractMin, min]
  | some node =>
    rw [min] at least
    obtain ⟨r, member, here, low⟩ := least
    obtain ⟨front, back, roots⟩ := append_of_mem member
    have good := inv.forest.good r member
    have others : Forest comp (front ++ back) := by
      have whole := inv.forest
      rw [roots] at whole
      refine ⟨?_, ?_⟩
      · intro x inside
        refine whole.good x ?_
        rcases mem_append.mp inside with left | right
        · exact mem_append_left _ left
        · exact mem_append_right _ (mem_cons_of_mem _ right)
      · refine whole.increasing.sublist (List.Sublist.map _ ?_)
        exact (sublist_cons_self _ _).append_left _
    obtain ⟨h', result, inv', perm, pool⟩ := extractMin_removes roots (here ▸ min) others good.kids
      good.parented good.ordered.kidsOrdered inv.nodup inv.count
    refine .inr ⟨r.addr, r.value, h', result, inv', perm, pool, ?_⟩
    intro e inside
    obtain ⟨root, rootIn, inTree⟩ := mem_flatMap.mp inside
    have bound := low root rootIn
    rcases mem_cons.mp inTree with rfl | deeper
    · exact bound
    · exact comp_trans_false ((inv.forest.good root rootIn).ordered.bound e deeper) bound

end Micron.Binomial
