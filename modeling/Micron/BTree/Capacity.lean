import Micron.BTree.NodeShape
import Micron.BTree.Runs

/-!
# The capacities of a B-tree map

What keeps leaves and inner nodes within their arrays keeps trees and whole runs
there, rehashes included.  Between the pivots around it every child has hashes of
its own, so pivots ascend strictly.
-/

set_option autoImplicit false

namespace Micron.BTree

open Micron.Lib List Function

variable {K V α : Type}

def TreeShape (fo : Fanouts) : (height : Nat) → Nat → Nat → Tree K V height → Prop
  | 0 => LeafShape fo
  | height + 1 => InnerShape fo (TreeShape fo height)

def Root.Shape (fo : Fanouts) (root : Root K V) : Prop :=
  TreeShape fo root.height 0 hashBound root.tree

section Trees
variable {fo : Fanouts}

theorem TreeShape.apart : ∀ (height lo hi : Nat) (tree : Tree K V height),
    TreeShape fo height lo hi tree → lo < hi := by
  intro height
  induction height with
  | zero =>
    intro lo hi tree shape
    exact LeafShape.apart shape
  | succ height ih =>
    intro lo hi tree shape
    exact (RowWF.strict ih (InnerShape.row shape)).1

theorem TreeShape.widen : ∀ (height lo hi hi' : Nat) (tree : Tree K V height), hi ≤ hi' →
    TreeShape fo height lo hi tree → TreeShape fo height lo hi' tree := by
  intro height
  induction height with
  | zero =>
    intro lo hi hi' tree wider shape
    exact LeafShape.widen wider shape
  | succ height ih =>
    intro lo hi hi' tree wider shape
    have node : InnerShape fo (TreeShape fo height) lo hi tree := shape
    refine ⟨RowWF.widen ih wider node.row, node.size, ?_, node.parked, node.narrow⟩
    intro op member
    have ranged := node.ranged op member
    omega

variable [DecidableEq K]

theorem descendApply_shape (fixed : fo.Overridden) : ∀ height : Nat,
    ShapeSound fo (TreeShape (K := K) (V := V) fo height) (descendApply fo height)
      (descendUses fo height) := by
  intro height
  induction height with
  | zero =>
    intro lo hi leaf op pool shape range below admitted
    exact leafUses_inside fixed shape range below admitted
  | succ height ih => exact innerApply_shape fixed ih

omit [DecidableEq K] in
theorem rootOf_shape (fixed : fo.Overridden) {height : Nat} {tree : Tree K V height}
    {split : Option (Nat × Tree K V height)}
    (out : OutWF (TreeShape fo height) 0 hashBound tree split)
    (narrow : split.isSome = true → fo.inner ≤ 33) :
    (Root.of height tree split).Shape fo ∧
      ∀ use, use ∈ rootOfUses split.isSome → use.Inside fo := by
  have three := fixed.three
  cases split with
  | none =>
    refine ⟨out, ?_⟩
    exact forall_mem_nil _
  | some half =>
    refine ⟨innerShape_emptied (narrow rfl) out ?_, ?_⟩
    · change 1 ≤ _
      omega
    · intro use member
      rw [mem_singleton.mp member]
      change 1 ≤ _ ∧ _ < 2 ^ 8
      omega

theorem readyLeaf_shape (fixed : fo.Overridden) {leaf : Leaf K V} {pool : Pool}
    (shape : LeafShape fo 0 hashBound leaf) :
    (ensureRootCapacity fo ⟨0, leaf⟩ pool).1.Shape fo ∧
      ∀ use, use ∈ readyUses fo ⟨0, leaf⟩ pool → use.Inside fo := by
  have same := fixed.same
  have size := (shape.fits leaf.primary mem_cons_self).size
  unfold ensureRootCapacity readyUses
  by_cases room : leaf.primary.entries.length < fo.leaf
  · simp only [if_pos room]
    refine ⟨shape, ?_⟩
    exact forall_mem_nil _
  · simp only [if_neg room]
    cases single : leaf.primary.singleClass with
    | true =>
      refine ⟨shape, ?_⟩
      exact forall_mem_nil _
    | false =>
      have narrow : fo.inner ≤ 33 := by
        unfold leafBound at size
        omega
      obtain ⟨out, _⟩ := splitLeafMixed_shape fixed shape (by omega) single pool
      obtain ⟨root, insideRoot⟩ : (Root.of 0 _ _).Shape fo ∧ _ :=
        rootOf_shape fixed out fun _ => narrow
      refine ⟨root, ?_⟩
      intro use member
      rcases mem_append.mp member with filled | pivot
      · apply nodeUses_inside ?_ use filled
        intro node inHalves
        rcases mem_append.mp inHalves with inLeft | inRight
        · exact out.2.2.1.fits node inLeft
        · exact out.2.2.2.fits node inRight
      · exact insideRoot use pivot

theorem readyInner_shape (fixed : fo.Overridden) {height : Nat}
    {node : Inner K V (Tree K V height)} {pool : Pool}
    (shape : InnerShape fo (TreeShape fo height) 0 hashBound node)
    (admitted : ∀ use, use ∈ readyUses fo ⟨height + 1, node⟩ pool → use.Admitted fo) :
    (ensureRootCapacity fo ⟨height + 1, node⟩ pool).1.Shape fo ∧
      ∀ use, use ∈ readyUses fo ⟨height + 1, node⟩ pool → use.Inside fo := by
  unfold readyUses at admitted ⊢
  unfold ensureRootCapacity
  by_cases room : node.row.tail.length < fo.inner - 1
  · simp only [if_pos room]
    refine ⟨shape, ?_⟩
    exact forall_mem_nil _
  · simp only [if_neg room] at admitted ⊢
    obtain ⟨shaped, inside⟩ := splitInternal_shape fixed (descendApply_shape fixed height) shape
      fun use member => admitted use (mem_append_left _ member)
    have out := outWF_shapedRows (K := K) (V := V) shape.narrow shaped.out shaped.left shaped.right
    obtain ⟨root, insideRoot⟩ : (Root.of (height + 1) _ _).Shape fo ∧ _ :=
      rootOf_shape fixed out fun _ => shape.narrow
    refine ⟨root, ?_⟩
    intro use member
    rcases mem_append.mp member with here | pivot
    · exact inside use here
    · apply insideRoot
      change use ∈ rootOfUses (Option.map emptiedHalf _).isSome
      rw [Option.isSome_map]
      exact pivot

theorem rootApply_shape (fixed : fo.Overridden) {root : Root K V} {op : PendingOp K V}
    {pool : Pool} (shape : root.Shape fo) (below : op.hash < hashBound)
    (admitted : ∀ use, use ∈ rootUses fo root op pool → use.Admitted fo) :
    (rootApply fo root op pool).1.Shape fo ∧
      ∀ use, use ∈ rootUses fo root op pool → use.Inside fo := by
  have ready : (ensureRootCapacity fo root pool).1.Shape fo ∧
      ∀ use, use ∈ readyUses fo root pool → use.Inside fo := by
    obtain ⟨height, tree⟩ := root
    cases height with
    | zero => exact readyLeaf_shape fixed shape
    | succ height =>
      exact readyInner_shape fixed shape fun use member =>
        admitted use (mem_append_left _ member)
  unfold rootUses at admitted ⊢
  unfold rootApply
  generalize ensureRootCapacity fo root pool = reshaped at ready admitted ⊢
  obtain ⟨⟨height, tree⟩, pool'⟩ := reshaped
  obtain ⟨shapeReady, insideReady⟩ := ready
  obtain ⟨shaped, inside⟩ := descendApply_shape fixed height 0 hashBound tree op pool' shapeReady
    ⟨Nat.zero_le _, below⟩ below fun use member =>
      admitted use (mem_append_right _ (mem_append_left _ member))
  obtain ⟨shapeRoot, insideRoot⟩ := rootOf_shape fixed shaped.out shaped.narrow
  refine ⟨shapeRoot, ?_⟩
  intro use member
  rcases mem_append.mp member with first | later
  · exact insideReady use first
  · rcases mem_append.mp later with descent | pivot
    · exact inside use descent
    · exact insideRoot use pivot

/-- A drained tree with the nodes a split has detached. -/
structure DrainShaped (fo : Fanouts) (P : Nat → Nat → α → Prop) (lo hi : Nat)
    (drained : α × List (LeafNode K V) × Pool) : Prop where
  tree : P lo hi drained.1
  detached : ∀ node, node ∈ drained.2.1 → NodeFits fo node

omit [DecidableEq K] in
theorem drainRow_shape {P : Nat → Nat → α → Prop}
    {drain : α → Pool → α × List (LeafNode K V) × Pool} {uses : α → Pool → List ArrayUse}
    (sound : ∀ lo hi tree pool, P lo hi tree → (∀ use, use ∈ uses tree pool → use.Admitted fo) →
      DrainShaped fo P lo hi (drain tree pool) ∧ ∀ use, use ∈ uses tree pool → use.Inside fo)
    (block : Nat) :
    ∀ (tail : List (Nat × α)) (lo hi : Nat) (c : α) (pool : Pool), RowWF P lo hi c tail →
      (∀ use, use ∈ drainRowUses drain uses block c tail pool → use.Admitted fo) →
      DrainShaped fo (RowP P) lo hi (drainRow drain block c tail pool) ∧
        (drainRow drain block c tail pool).1.tail.length = tail.length ∧
        ∀ use, use ∈ drainRowUses drain uses block c tail pool → use.Inside fo := by
  intro tail
  induction tail with
  | nil =>
    intro lo hi c pool wf admitted
    obtain ⟨shaped, inside⟩ := sound lo hi c pool wf admitted
    exact ⟨⟨shaped.tree, shaped.detached⟩, rfl, inside⟩
  | cons first rest ih =>
    intro lo hi c pool wf admitted
    obtain ⟨p, c'⟩ := first
    obtain ⟨order, top, wfHere, wfLater⟩ := wf
    rw [drainRowUses] at admitted ⊢
    obtain ⟨here, insideHere⟩ := sound lo p c pool wfHere
      fun use member => admitted use (mem_append_left _ member)
    obtain ⟨later, length, insideLater⟩ := ih p hi c' _ wfLater
      fun use member => admitted use (mem_append_right _ member)
    rw [drainRow]
    refine ⟨⟨⟨order, top, here.tree, later.tree⟩, ?_⟩, ?_, ?_⟩
    · intro node member
      rcases mem_append.mp member with fromHere | fromLater
      · exact here.detached node fromHere
      · exact later.detached node fromLater
    · exact congrArg (· + 1) length
    · exact forall_mem_append.mpr ⟨insideHere, insideLater⟩

omit [DecidableEq K] in
theorem rowItems_fit {P : Nat → Nat → α → Prop} {leaves : α → List (LeafNode K V)}
    (fits : ∀ lo hi c, P lo hi c → ∀ node, node ∈ leaves c → NodeFits fo node) :
    ∀ (tail : List (Nat × α)) (lo hi : Nat) (c : α), RowWF P lo hi c tail →
      ∀ node, node ∈ rowItems leaves ⟨c, tail⟩ → NodeFits fo node := by
  intro tail
  induction tail with
  | nil =>
    intro lo hi c wf node member
    apply fits lo hi c wf
    simpa [rowItems, Row.children] using member
  | cons first rest ih =>
    intro lo hi c wf node member
    obtain ⟨_, _, wfHere, wfLater⟩ := wf
    rw [rowItems_cons] at member
    rcases mem_append.mp member with here | later
    · exact fits _ _ c wfHere node here
    · exact ih _ _ _ wfLater node later

omit [DecidableEq K] in
theorem TreeShape.leaves_fit : ∀ (height lo hi : Nat) (tree : Tree K V height),
    TreeShape fo height lo hi tree →
    ∀ node, node ∈ Tree.leaves height tree → NodeFits fo node := by
  intro height
  induction height with
  | zero =>
    intro lo hi tree shape
    exact LeafShape.fits shape
  | succ height ih =>
    intro lo hi tree shape
    exact rowItems_fit ih _ lo hi _ (InnerShape.row shape)

theorem drainRecursive_shape (fixed : fo.Overridden) :
    ∀ (height lo hi : Nat) (tree : Tree K V height) (pool : Pool), TreeShape fo height lo hi tree →
      (∀ use, use ∈ drainRecursiveUses fo height tree pool → use.Admitted fo) →
      DrainShaped fo (TreeShape fo height) lo hi (drainRecursive fo height tree pool) ∧
        ∀ use, use ∈ drainRecursiveUses fo height tree pool → use.Inside fo := by
  intro height
  induction height with
  | zero =>
    intro lo hi tree pool shape _
    refine ⟨⟨shape, ?_⟩, ?_⟩
    · intro node member
      cases member
    · exact forall_mem_nil _
  | succ height ih =>
    intro lo hi tree pool shape admitted
    have node : InnerShape fo (TreeShape fo height) lo hi tree := shape
    rw [drainRecursiveUses] at admitted ⊢
    obtain ⟨shaped, insideDrain⟩ := drainInternalBuffer_shape fixed (descendApply_shape fixed height)
      node fun use member => admitted use (mem_append_left _ member)
    have admittedRows := fun use member => admitted use (mem_append_right _ member)
    rw [drainRecursive]
    generalize drainInternalBuffer fo (descendApply fo height) tree pool = drained at *
    obtain ⟨row, split, pool'⟩ := drained
    have admittedLeft := fun use member => admittedRows use (mem_append_left _ member)
    cases split with
    | none =>
      obtain ⟨left, length, insideLeft⟩ :=
        drainRow_shape ih pool'.slab.moves row.tail lo hi row.head pool' shaped.out admittedLeft
      refine ⟨⟨innerShape_emptied node.narrow left.tree ?_, left.detached⟩, ?_⟩
      · exact le_trans (le_of_eq length) shaped.left
      · intro use member
        rcases mem_append.mp member with here | later
        · exact insideDrain use here
        · rcases mem_append.mp later with inLeft | nothing
          · exact insideLeft use inLeft
          · cases nothing
    | some half =>
      obtain ⟨p, half⟩ := half
      obtain ⟨order, top, wfLeft, wfRight⟩ := shaped.out
      obtain ⟨left, length, insideLeft⟩ :=
        drainRow_shape ih pool'.slab.moves row.tail lo p row.head pool' wfLeft admittedLeft
      have admittedRight := fun use member => admittedRows use (mem_append_right _ member)
      obtain ⟨right, _, insideRight⟩ :=
        drainRow_shape ih _ half.tail p hi half.head _ wfRight admittedRight
      refine ⟨⟨?_, ?_⟩, ?_⟩
      · apply innerShape_emptied node.narrow (RowWF.widen (TreeShape.widen height) top left.tree)
        exact le_trans (le_of_eq length) shaped.left
      · intro leaf member
        rcases mem_append.mp member with fromLeft | fromRight
        · exact left.detached leaf fromLeft
        · rcases mem_append.mp fromRight with detached | freed
          · exact right.detached leaf detached
          · exact rowItems_fit (TreeShape.leaves_fit height) _ p hi _ right.tree leaf freed
      · intro use member
        rcases mem_append.mp member with here | later
        · exact insideDrain use here
        · rcases mem_append.mp later with inLeft | inRight
          · exact insideLeft use inLeft
          · exact insideRight use inRight

end Trees

/-! ## Maps -/

structure MapShape (fo : Fanouts) (m : BTreeMap K V) : Prop where
  trees : ∀ b root, m.buckets b = some root → root.Shape fo
  detached : ∀ node, node ∈ m.detached → NodeFits fo node

section Maps
variable {fo : Fanouts} {m : BTreeMap K V}

/-- A bucket with a new tree, and perhaps more detached nodes. -/
theorem MapShape.replace {m' : BTreeMap K V} {b : Nat} {root : Root K V} (shape : MapShape fo m)
    (buckets : m'.buckets = update m.buckets b (some root)) (shapeRoot : root.Shape fo)
    (detached : ∀ node, node ∈ m'.detached → node ∈ m.detached ∨ NodeFits fo node) :
    MapShape fo m' := by
  constructor
  · intro c other found
    rw [buckets] at found
    by_cases same : c = b
    · subst same
      rw [update_self] at found
      cases found
      exact shapeRoot
    · rw [update_of_ne same] at found
      exact shape.trees c other found
  · intro node member
    rcases detached node member with old | new
    · exact shape.detached node old
    · exact new

theorem cleared_shape (m : BTreeMap K V) (nBuckets : Nat) : MapShape fo (m.cleared nBuckets) := by
  constructor
  · intro b root found
    cases found
  · intro node member
    cases member

/-- What an iteration passes over are hashes of 64 bits. -/
theorem visited_below (shape : MapShape fo m) : ∀ e, e ∈ m.visited → e.hash < hashBound := by
  intro e member
  obtain ⟨node, inWalk, inNode⟩ := mem_flatMap.mp member
  obtain ⟨idx, _, found⟩ := mem_filterMap.mp inWalk
  have inLeaves := mem_of_find?_eq_some found
  rcases mem_append.mp inLeaves with attached | detached
  · obtain ⟨b, _, inTree⟩ := mem_flatMap.mp attached
    cases here : m.buckets b with
    | none =>
      rw [here] at inTree
      cases inTree
    | some root =>
      rw [here] at inTree
      have fits := TreeShape.leaves_fit root.height 0 hashBound root.tree
        (shape.trees b root here) node inTree
      exact fits.hashes e inNode
  · exact (shape.detached node detached).hashes e inNode

variable [DecidableEq K]

theorem flushBuckets_shape (fixed : fo.Overridden) : ∀ (buckets : List Nat) (m : BTreeMap K V),
    MapShape fo m → (∀ use, use ∈ flushBucketsUses fo buckets m → use.Admitted fo) →
    MapShape fo (buckets.foldl (BTreeMap.flushBucket fo) m) ∧
      ∀ use, use ∈ flushBucketsUses fo buckets m → use.Inside fo := by
  intro buckets
  induction buckets with
  | nil =>
    intro m shape _
    refine ⟨shape, ?_⟩
    exact forall_mem_nil _
  | cons b rest ih =>
    intro m shape admitted
    have admittedHere := fun use member => admitted use (mem_append_left _ member)
    have admittedLater := fun use member => admitted use (mem_append_right _ member)
    have finish : ∀ uses : List ArrayUse, MapShape fo (m.flushBucket fo b) ∧
        (∀ use, use ∈ uses → use.Inside fo) →
        MapShape fo (rest.foldl (BTreeMap.flushBucket fo) (m.flushBucket fo b)) ∧
          ∀ use, use ∈ uses ++ flushBucketsUses fo rest (m.flushBucket fo b) → use.Inside fo := by
      intro uses step
      obtain ⟨shapeLater, insideLater⟩ := ih (m.flushBucket fo b) step.1 admittedLater
      refine ⟨shapeLater, ?_⟩
      exact forall_mem_append.mpr ⟨step.2, insideLater⟩
    refine finish _ ?_
    unfold BTreeMap.flushBucket
    cases here : m.buckets b with
    | none =>
      refine ⟨shape, ?_⟩
      exact forall_mem_nil _
    | some root =>
      rw [here] at admittedHere
      obtain ⟨drained, inside⟩ := drainRecursive_shape fixed root.height 0 hashBound root.tree
        m.pool (shape.trees b root here) admittedHere
      refine ⟨shape.replace rfl drained.tree ?_, inside⟩
      intro node member
      exact (mem_append.mp member).imp_right (drained.detached node)

/-- A call's work on its bucket, where the bucket has a tree. -/
theorem opUses_inside (fixed : fo.Overridden) (shape : MapShape fo m) {op : PendingOp K V}
    (below : op.hash < hashBound)
    (admitted : ∀ use, use ∈ opUses fo m op → use.Admitted fo) :
    (∀ root, m.buckets (m.bucketOf op.hash) = some root →
        (rootApply fo root op m.pool).1.Shape fo) ∧
      ∀ use, use ∈ opUses fo m op → use.Inside fo := by
  unfold opUses at admitted ⊢
  cases here : m.buckets (m.bucketOf op.hash) with
  | none =>
    have three := fixed.three
    have same := fixed.same
    constructor
    · intro root found
      cases found
    · intro use member
      simp only at member
      split at member
      · rw [mem_singleton.mp member]
        change 1 ≤ _ ∧ 1 < 2 ^ 8
        omega
      · cases member
  | some root =>
    rw [here] at admitted
    obtain ⟨applied, inside⟩ := rootApply_shape fixed (shape.trees _ root here) below admitted
    refine ⟨?_, inside⟩
    intro other found
    cases found
    exact applied

theorem place_shape (fixed : fo.Overridden) (shape : MapShape fo m) {h : Nat} {k : K} {v : V}
    (below : h < hashBound)
    (admitted : ∀ use, use ∈ opUses fo m ⟨h, k, some v⟩ → use.Admitted fo) :
    MapShape fo (m.place fo h k v).1 ∧
      ∀ use, use ∈ opUses fo m ⟨h, k, some v⟩ → use.Inside fo := by
  obtain ⟨applied, inside⟩ := opUses_inside fixed shape below admitted
  refine ⟨?_, inside⟩
  unfold BTreeMap.place
  cases here : m.buckets (m.bucketOf h) with
  | none =>
    have single : LeafShape fo 0 hashBound ⟨⟨m.pool.next, [⟨h, k, v⟩]⟩, []⟩ :=
      leafShape_single fixed m.pool.next ⟨Nat.zero_le h, below⟩ below
    have root : Root.Shape fo ⟨0, (⟨⟨m.pool.next, [⟨h, k, v⟩]⟩, []⟩ : Leaf K V)⟩ := single
    exact shape.replace rfl root fun _ old => .inl old
  | some root => exact shape.replace rfl (applied root here) fun _ old => .inl old

theorem eraseImpl_shape (fixed : fo.Overridden) (shape : MapShape fo m) {h : Nat} {k : K}
    (below : h < hashBound)
    (admitted : ∀ use, use ∈ opUses fo m ⟨h, k, none⟩ → use.Admitted fo) :
    MapShape fo (m.eraseImpl fo h k).1 ∧
      ∀ use, use ∈ opUses fo m ⟨h, k, none⟩ → use.Inside fo := by
  obtain ⟨applied, inside⟩ := opUses_inside fixed shape below admitted
  refine ⟨?_, inside⟩
  unfold BTreeMap.eraseImpl
  cases here : m.buckets (m.bucketOf h) with
  | none => exact shape
  | some root => exact shape.replace rfl (applied root here) fun _ old => .inl old

theorem placeAll_shape (fixed : fo.Overridden) : ∀ (entries : List (Entry K V)) (m : BTreeMap K V),
    MapShape fo m → (∀ e, e ∈ entries → e.hash < hashBound) →
    (∀ use, use ∈ placesUses fo entries m → use.Admitted fo) →
    MapShape fo (placeAll fo m entries) ∧
      ∀ use, use ∈ placesUses fo entries m → use.Inside fo := by
  intro entries
  induction entries with
  | nil =>
    intro m shape _ _
    refine ⟨shape, ?_⟩
    exact forall_mem_nil _
  | cons e rest ih =>
    intro m shape below admitted
    obtain ⟨placed, insideHere⟩ := place_shape fixed shape (below e mem_cons_self)
      fun use member => admitted use (mem_append_left _ member)
    obtain ⟨all, insideLater⟩ := ih _ placed
      (fun x member => below x (mem_cons_of_mem _ member))
      fun use member => admitted use (mem_append_right _ member)
    refine ⟨all, ?_⟩
    exact forall_mem_append.mpr ⟨insideHere, insideLater⟩

theorem refill_shape (fixed : fo.Overridden) : ∀ (nodes : List (LeafNode K V)) (m : BTreeMap K V),
    MapShape fo m → (∀ e, e ∈ nodes.flatMap LeafNode.entries → e.hash < hashBound) →
    (∀ use, use ∈ refillUses fo nodes m → use.Admitted fo) →
    MapShape fo (refill fo m nodes) ∧ ∀ use, use ∈ refillUses fo nodes m → use.Inside fo := by
  intro nodes
  induction nodes with
  | nil =>
    intro m shape _ _
    refine ⟨shape, ?_⟩
    exact forall_mem_nil _
  | cons node rest ih =>
    intro m shape below admitted
    rw [flatMap_cons, forall_mem_append] at below
    have freed : MapShape fo m.freeSlot := ⟨shape.trees, shape.detached⟩
    obtain ⟨placed, insideHere⟩ := placeAll_shape fixed node.entries m.freeSlot freed below.1
      fun use member => admitted use (mem_append_left _ member)
    obtain ⟨all, insideLater⟩ := ih _ placed below.2
      fun use member => admitted use (mem_append_right _ member)
    refine ⟨all, ?_⟩
    exact forall_mem_append.mpr ⟨insideHere, insideLater⟩

theorem rehash_shape (fixed : fo.Overridden) (shape : MapShape fo m) (nBuckets : Nat)
    (admitted : ∀ use, use ∈ rehashUses fo m nBuckets → use.Admitted fo) :
    MapShape fo (m.rehash fo nBuckets) ∧
      ∀ use, use ∈ rehashUses fo m nBuckets → use.Inside fo := by
  obtain ⟨flushed, insideFlush⟩ := flushBuckets_shape fixed (List.range m.nBuckets) m shape
    fun use member => admitted use (mem_append_left _ member)
  obtain ⟨placed, insidePlaces⟩ := refill_shape fixed (m.flushAll fo).leafWalk
    ((m.flushAll fo).cleared nBuckets) (cleared_shape _ _) (visited_below flushed)
    fun use member => admitted use (mem_append_right _ member)
  refine ⟨placed, ?_⟩
  exact forall_mem_append.mpr ⟨insideFlush, insidePlaces⟩

theorem apply_shape (fixed : fo.Overridden) (shape : MapShape fo m)
    {op : BTreeOp (UInt64 × K) V}
    (admitted : ∀ use, use ∈ callUses fo m op → use.Admitted fo) :
    MapShape fo (m.apply fo op).1 ∧ ∀ use, use ∈ callUses fo m op → use.Inside fo := by
  cases op with
  | erase key => exact eraseImpl_shape fixed shape (toNat_lt_hashBound key.1) admitted
  | insert key value =>
    have ready : MapShape fo (m.maybeRehash fo) ∧ ∀ use,
        use ∈ (if m.overloaded fo then rehashUses fo m (m.nBuckets * 2) else []) →
          use.Inside fo := by
      have admittedReady := fun use member => admitted use (mem_append_left _ member)
      unfold BTreeMap.maybeRehash
      cases full : m.overloaded fo with
      | false =>
        refine ⟨shape, ?_⟩
        exact forall_mem_nil _
      | true =>
        rw [full] at admittedReady
        exact rehash_shape fixed shape (m.nBuckets * 2) admittedReady
    obtain ⟨placed, inside⟩ := place_shape fixed ready.1 (toNat_lt_hashBound key.1)
      fun use member => admitted use (mem_append_right _ member)
    refine ⟨placed, ?_⟩
    exact forall_mem_append.mpr ⟨ready.2, inside⟩

theorem run_shape (fixed : fo.Overridden) : ∀ (ops : List (BTreeOp (UInt64 × K) V))
    (m : BTreeMap K V), MapShape fo m → (∀ use, use ∈ runUses fo m ops → use.Admitted fo) →
    (∀ before, before <+: ops → MapShape fo (m.run fo before)) ∧
      ∀ use, use ∈ runUses fo m ops → use.Inside fo := by
  intro ops
  induction ops with
  | nil =>
    intro m shape _
    constructor
    · intro before isPrefix
      rw [prefix_nil.mp isPrefix]
      exact shape
    · exact forall_mem_nil _
  | cons op rest ih =>
    intro m shape admitted
    obtain ⟨step, insideHere⟩ := apply_shape fixed shape
      fun use member => admitted use (mem_append_left _ member)
    obtain ⟨later, insideLater⟩ := ih _ step
      fun use member => admitted use (mem_append_right _ member)
    constructor
    · intro before isPrefix
      cases before with
      | nil => exact shape
      | cons first before =>
        obtain ⟨rfl, restPrefix⟩ := cons_prefix_cons.mp isPrefix
        exact later before restPrefix
    · exact forall_mem_append.mpr ⟨insideHere, insideLater⟩

end Maps

/-! ## Capacities -/

/-- A node has at most `fanout - 1` ascending pivots and one child more; a leaf and
the leaves of its chain have at most `fanout` entries. -/
def Tree.fits (fo : Fanouts) : (height : Nat) → Tree K V height → Bool
  | 0 => fun leaf : Leaf K V =>
    leaf.nodes.all fun node => decide (node.entries.length ≤ fo.leaf)
  | height + 1 => fun node : Inner K V (Tree K V height) =>
    decide (node.row.pivots.length ≤ fo.inner - 1) &&
      decide (node.row.pivots.Pairwise (· < ·)) &&
      decide (node.row.children.length = node.row.pivots.length + 1) &&
      node.row.children.all (Tree.fits fo height)

def bucketFits (fo : Fanouts) : Option (Root K V) → Bool
  | none => true
  | some root => Tree.fits fo root.height root.tree

structure BTreeMap.WithinCapacity (fo : Fanouts) (m : BTreeMap K V) : Prop where
  buckets : ∀ b, bucketFits fo (m.buckets b) = true
  detached : ∀ node, node ∈ m.detached → node.entries.length ≤ fo.leaf

section Capacities
variable {fo : Fanouts}

theorem rowWF_all {P : Nat → Nat → α → Prop} {fits : α → Bool}
    (each : ∀ lo hi c, P lo hi c → fits c = true) : ∀ {tail : List (Nat × α)} {lo hi : Nat} {c : α},
    RowWF P lo hi c tail → (Row.children ⟨c, tail⟩).all fits = true := by
  intro tail
  induction tail with
  | nil =>
    intro lo hi c wf
    simpa [Row.children] using each lo hi c wf
  | cons first rest ih =>
    intro lo hi c wf
    obtain ⟨_, _, here, later⟩ := wf
    have all := ih later
    simp only [Row.children, map_cons, all_cons, Bool.and_eq_true] at all ⊢
    exact ⟨each _ _ c here, all⟩

theorem NodeFits.le {node : LeafNode K V} (fits : NodeFits fo node) :
    node.entries.length ≤ fo.leaf :=
  le_trans fits.size (min_le_left _ _)

theorem TreeShape.fits : ∀ (height lo hi : Nat) (tree : Tree K V height),
    TreeShape fo height lo hi tree → Tree.fits fo height tree = true := by
  intro height
  induction height with
  | zero =>
    intro lo hi tree shape
    apply all_eq_true.mpr
    intro node member
    exact decide_eq_true (LeafShape.fits shape node member).le
  | succ height ih =>
    intro lo hi tree shape
    have node : InnerShape fo (TreeShape fo height) lo hi tree := shape
    obtain ⟨_, _, ascending⟩ := RowWF.strict (TreeShape.apart height) node.row
    have size := node.size
    simp only [Tree.fits, Row.pivots, Row.children, Bool.and_eq_true, decide_eq_true_eq,
      length_cons, length_map]
    exact ⟨⟨⟨size, decide_eq_true ascending⟩, trivial⟩, rowWF_all ih node.row⟩

theorem MapShape.withinCapacity {m : BTreeMap K V} (shape : MapShape fo m) :
    m.WithinCapacity fo := by
  constructor
  · intro b
    cases here : m.buckets b with
    | none => rfl
    | some root => exact TreeShape.fits root.height 0 hashBound root.tree (shape.trees b root here)
  · intro node member
    exact (shape.detached node member).le

variable [DecidableEq K]

end Capacities

def twelveInserts : List (BTreeOp (UInt64 × Nat) Nat) :=
  [58, 49, 59, 10, 22, 57, 13, 54, 7, 50, 15, 21].map fun k => .insert (UInt64.ofNat (256 * k), k) k

end Micron.BTree
