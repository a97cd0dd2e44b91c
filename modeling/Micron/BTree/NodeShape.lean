import Micron.BTree.Arrays
import Micron.BTree.TreeSpec

/-!
# No node of a B-tree map outgrows its arrays

A drain adds at most one pivot for every operation of the buffer, and the halves
of what it overfills fit.  One insert is not checked by the code: the one into a
half of a node that a drain has split.  From a fanout of four on both halves have
room; a node of three children can be left with a full left half.
-/

set_option autoImplicit false

namespace Micron.BTree

open Micron.Lib List Option

variable {K V α : Type}

/-- The fanouts under a `FanoutOverride` that `static_assert` lets through. -/
structure Fanouts.Overridden (fo : Fanouts) : Prop where
  same : fo.leaf = fo.inner
  three : 3 ≤ fo.inner
  buffer : fo.buffer = pickBufSize fo.inner

theorem pickFanouts_overridden {fanoutOverride : Nat} (admits : 3 ≤ fanoutOverride)
    (kvBytes : Nat) : (pickFanouts kvBytes fanoutOverride).Overridden := by
  have positive : 0 < fanoutOverride := by omega
  unfold pickFanouts
  simp only [if_pos positive]
  exact ⟨rfl, admits, rfl⟩

theorem pickBufSize_le {fanout : Nat} (three : 3 ≤ fanout) :
    pickBufSize fanout ≤ fanout - 1 ∧ (fanout ≠ 3 → pickBufSize fanout + 1 < fanout) := by
  unfold pickBufSize
  split
  · omega
  · split <;> omega

/-- The use is no insert into a full half of a node of fanout three, and no scan of
more entries than a mask of 32 bits can tell apart. -/
def ArrayUse.Admitted (fo : Fanouts) : ArrayUse → Prop
  | .scanned entries => 32 < fo.leaf → entries ≤ 32
  | .half pivots => fo.inner = 3 → pivots < 2
  | _ => True

theorem ArrayUse.Inside.admitted {fo : Fanouts} {use : ArrayUse} (inside : use.Inside fo) :
    use.Admitted fo := by
  cases use with
  | scanned entries => exact fun _ => inside
  | half pivots =>
    intro three
    have room := inside.1
    omega
  | _ => trivial

theorem admitted_of_wide {fanoutOverride : Nat} (four : 4 ≤ fanoutOverride)
    (narrow : fanoutOverride ≤ 32) (kvBytes : Nat) (use : ArrayUse) :
    use.Admitted (pickFanouts kvBytes fanoutOverride) := by
  have positive : 0 < fanoutOverride := by omega
  have fields : (pickFanouts kvBytes fanoutOverride).leaf = fanoutOverride ∧
      (pickFanouts kvBytes fanoutOverride).inner = fanoutOverride := by
    exact ⟨if_pos positive, if_pos positive⟩
  cases use with
  | scanned entries =>
    intro wide
    omega
  | half pivots =>
    intro three
    omega
  | _ => trivial

/-- A leaf of more than 33 entries would take an insert after a scan of more than 32. -/
def leafBound (fo : Fanouts) : Nat := min fo.leaf 33

structure NodeFits (fo : Fanouts) (node : LeafNode K V) : Prop where
  size : node.entries.length ≤ leafBound fo
  hashes : ∀ e, e ∈ node.entries → e.hash < hashBound

/-- Nothing is said of the hashes in the chain: a split leaves the chain behind. -/
structure LeafShape (fo : Fanouts) (lo hi : Nat) (leaf : Leaf K V) : Prop where
  apart : lo < hi
  fits : ∀ node, node ∈ leaf.nodes → NodeFits fo node
  sorted : leaf.primary.entries.Pairwise fun a b => a.hash ≤ b.hash
  ranged : ∀ e, e ∈ leaf.primary.entries → lo ≤ e.hash ∧ e.hash < hi

section Leaves
variable {fo : Fanouts} {lo hi : Nat} {leaf : Leaf K V} {node node' : LeafNode K V}

theorem nodeUses_inside {nodes : List (LeafNode K V)}
    (fits : ∀ node, node ∈ nodes → NodeFits fo node) :
    ∀ use, use ∈ nodeUses nodes → use.Inside fo := by
  intro use member
  obtain ⟨node, inNodes, rfl⟩ := mem_map.mp member
  have size := (fits node inNodes).size
  unfold leafBound at size
  change _ ≤ _ ∧ _ < 2 ^ 8
  omega

theorem mem_hashes {h : Nat} : h ∈ node.hashes ↔ ∃ e, e ∈ node.entries ∧ e.hash = h :=
  mem_map

theorem NodeFits.sub (fits : NodeFits fo node) (sub : node'.hashes.Sublist node.hashes) :
    NodeFits fo node' := by
  constructor
  · have shorter := sub.length_le
    rw [LeafNode.hashes, LeafNode.hashes, length_map, length_map] at shorter
    exact le_trans shorter fits.size
  · intro e member
    obtain ⟨e', inNode, same⟩ := mem_hashes.mp (sub.subset (mem_map_of_mem member))
    rw [← same]
    exact fits.hashes e' inNode

theorem NodeFits.insert {e : Entry K V} (fits : NodeFits fo node)
    (room : node.entries.length < leafBound fo) (below : e.hash < hashBound) :
    NodeFits fo (node.insert e) := by
  have more := insertEntry_perm e node.entries
  constructor
  · change (insertEntry e node.entries).length ≤ _
    rw [more.length_eq, length_cons]
    exact room
  · intro x member
    rcases mem_cons.mp (more.mem_iff.mp member) with rfl | old
    · exact below
    · exact fits.hashes x old

theorem nodeFits_single (fixed : fo.Overridden) (idx : Nat) {e : Entry K V}
    (below : e.hash < hashBound) : NodeFits fo ⟨idx, [e]⟩ := by
  have three := fixed.three
  have same := fixed.same
  constructor
  · unfold leafBound
    change 1 ≤ _
    omega
  · intro x member
    rw [mem_singleton.mp member]
    exact below

theorem leafShape_single (fixed : fo.Overridden) (idx : Nat) {e : Entry K V}
    (range : lo ≤ e.hash ∧ e.hash < hi) (below : e.hash < hashBound) :
    LeafShape fo lo hi (⟨⟨idx, [e]⟩, []⟩ : Leaf K V) := by
  refine ⟨by omega, ?_, pairwise_singleton _ _, ?_⟩
  · intro node member
    rw [mem_singleton.mp member]
    exact nodeFits_single fixed idx below
  · intro x member
    rw [mem_singleton.mp member]
    exact range

theorem LeafShape.widen {hi' : Nat} (wider : hi ≤ hi') (shape : LeafShape fo lo hi leaf) :
    LeafShape fo lo hi' leaf := by
  refine ⟨lt_of_lt_of_le shape.apart wider, shape.fits, shape.sorted, ?_⟩
  intro e member
  have ranged := shape.ranged e member
  omega

/-- The same chain under a primary node with some of the hashes. -/
theorem LeafShape.cut {lo' hi' idx : Nat} {entries : List (Entry K V)}
    {overflow : List (LeafNode K V)} (shape : LeafShape fo lo hi leaf) (apart : lo' < hi')
    (sub : entries.Sublist leaf.primary.entries)
    (chain : ∀ node, node ∈ overflow → node ∈ leaf.overflow)
    (ranged : ∀ e, e ∈ entries → lo' ≤ e.hash ∧ e.hash < hi') :
    LeafShape fo lo' hi' ⟨⟨idx, entries⟩, overflow⟩ := by
  refine ⟨apart, ?_, shape.sorted.sublist sub, ranged⟩
  intro node member
  rcases mem_cons.mp member with rfl | chained
  · have fits := shape.fits leaf.primary mem_cons_self
    exact fits.sub (sub.map Entry.hash)
  · exact shape.fits node (mem_cons_of_mem _ (chain node chained))

theorem LeafShape.insertPrimary {e : Entry K V} (shape : LeafShape fo lo hi leaf)
    (room : leaf.primary.entries.length < leafBound fo) (range : lo ≤ e.hash ∧ e.hash < hi)
    (below : e.hash < hashBound) :
    LeafShape fo lo hi { leaf with primary := leaf.primary.insert e } := by
  refine ⟨shape.apart, ?_, sorted_insertEntry e shape.sorted, ?_⟩
  · intro node member
    rcases mem_cons.mp member with rfl | chained
    · exact (shape.fits leaf.primary mem_cons_self).insert room below
    · exact shape.fits node (mem_cons_of_mem _ chained)
  · intro x member
    rcases mem_cons.mp ((insertEntry_perm e leaf.primary.entries).mem_iff.mp member) with
      rfl | old
    · exact range
    · exact shape.ranged x old

theorem chainInsert_fits (fixed : fo.Overridden) (small : fo.leaf ≤ 33) {e : Entry K V}
    (below : e.hash < hashBound) (pool : Pool) : ∀ (nodes : List (LeafNode K V)) (tail : Nat),
      (∀ node, node ∈ nodes → NodeFits fo node) →
      ∀ node, node ∈ (chainInsert fo.leaf e pool tail nodes).1 → NodeFits fo node := by
  intro nodes
  induction nodes with
  | nil =>
    intro tail _ node member
    rw [mem_singleton.mp member]
    exact nodeFits_single fixed pool.next below
  | cons first rest ih =>
    intro tail fits node member
    have fitsRest : ∀ node, node ∈ rest → NodeFits fo node :=
      fun node inRest => fits node (mem_cons_of_mem _ inRest)
    rw [chainInsert] at member
    split at member
    · rename_i room
      rcases mem_cons.mp member with rfl | inRest
      · have bound : first.entries.length < leafBound fo := by
          unfold leafBound
          omega
        exact (fits first mem_cons_self).insert bound below
      · exact fitsRest node inRest
    · rcases mem_cons.mp member with rfl | inRest
      · exact fits node mem_cons_self
      · exact ih first.idx fitsRest node inRest

theorem asymmetricSplitLeaf_shape (fixed : fo.Overridden) (shape : LeafShape fo lo hi leaf)
    {e : Entry K V} (single : leaf.primary.singleClass = true)
    (other : e.hash ≠ leaf.primary.hashes.headD 0) (range : lo ≤ e.hash ∧ e.hash < hi)
    (below : e.hash < hashBound) (pool : Pool) :
    let halves := asymmetricSplitLeaf leaf e pool
    OutWF (LeafShape fo) lo hi halves.1 (some (halves.2.1, halves.2.2.1)) := by
  have classHash : ∀ x, x ∈ leaf.primary.entries → x.hash = leaf.primary.hashes.headD 0 :=
    fun x member => singleClass_hash shape.sorted single member
  obtain ⟨first, inFirst⟩ : ∃ first, first ∈ leaf.primary.entries := by
    apply exists_mem_of_ne_nil
    intro empty
    rw [LeafNode.singleClass, empty] at single
    cases single
  have firstRange := shape.ranged first inFirst
  rw [classHash first inFirst] at firstRange
  simp only [asymmetricSplitLeaf]
  by_cases above : leaf.primary.hashes.headD 0 < e.hash
  · simp only [if_pos above]
    refine ⟨range.1, le_of_lt range.2, ?_, ?_⟩
    · apply shape.cut (by omega) (List.Sublist.refl _) (fun _ member => member)
      intro x member
      rw [classHash x member]
      omega
    · exact leafShape_single fixed _ ⟨le_refl _, range.2⟩ below
  · simp only [if_neg above]
    have under : e.hash < leaf.primary.hashes.headD 0 := by omega
    refine ⟨firstRange.1, le_of_lt firstRange.2, ?_, ?_⟩
    · exact leafShape_single fixed _ ⟨range.1, under⟩ below
    · apply shape.cut firstRange.2 (List.Sublist.refl _) (fun _ member => member)
      intro x member
      rw [classHash x member]
      omega

/-- Both halves of a cut leaf have room for one more entry. -/
theorem splitLeafMixed_shape (fixed : fo.Overridden) (shape : LeafShape fo lo hi leaf)
    (full : fo.leaf ≤ leaf.primary.entries.length) (mixed : leaf.primary.singleClass = false)
    (pool : Pool) :
    let halves := splitLeafMixed fo.leaf leaf pool
    OutWF (LeafShape fo) lo hi halves.1 (some (halves.2.1, halves.2.2.1)) ∧
      halves.1.primary.entries.length < leafBound fo ∧
      halves.2.2.1.primary.entries.length < leafBound fo := by
  have three := fixed.three
  have same := fixed.same
  obtain ⟨⟨positive, inside⟩, below, above, e, member, atPivot⟩ :=
    mixedPivot_parts shape.sorted (by omega : 2 ≤ fo.leaf) full mixed
  have size := (shape.fits leaf.primary mem_cons_self).size
  have pivotRange := shape.ranged e member
  rw [atPivot] at pivotRange
  have nonempty : leaf.primary.entries.take (splitPoint fo.leaf leaf.primary.hashes) ≠ [] := by
    intro empty
    have none := congrArg List.length empty
    rw [length_take, length_nil] at none
    omega
  obtain ⟨first, inLeft⟩ := exists_mem_of_ne_nil _ nonempty
  have firstRange := shape.ranged first (mem_of_mem_take inLeft)
  have firstBelow := below first inLeft
  simp only [splitLeafMixed]
  change OutWF (LeafShape fo) lo hi _ (some (mixedPivot fo.leaf leaf, _)) ∧ _
  refine ⟨⟨pivotRange.1, le_of_lt pivotRange.2, ?_, ?_⟩, ?_, ?_⟩
  · apply shape.cut (by omega) (take_sublist _ _) (fun _ chained => chained)
    intro x kept
    exact ⟨(shape.ranged x (mem_of_mem_take kept)).1, below x kept⟩
  · apply shape.cut pivotRange.2 (drop_sublist _ _) (fun _ none => by cases none)
    intro x moved
    exact ⟨above x moved, (shape.ranged x (mem_of_mem_drop moved)).2⟩
  · rw [length_take]
    omega
  · rw [length_drop]
    omega

section Path
variable [DecidableEq K]

omit [DecidableEq K] in
theorem entries_of_hashes {entries entries' : List (Entry K V)}
    (sub : (entries'.map Entry.hash).Sublist (entries.map Entry.hash)) :
    (entries.Pairwise (fun a b => a.hash ≤ b.hash) →
        entries'.Pairwise fun a b => a.hash ≤ b.hash) ∧
      ∀ e, e ∈ entries' → ∃ x, x ∈ entries ∧ x.hash = e.hash := by
  constructor
  · intro sorted
    have hashes : (entries.map Entry.hash).Pairwise (· ≤ ·) := pairwise_map.mpr sorted
    exact pairwise_map.mp (hashes.sublist sub)
  · intro e member
    exact mem_map.mp (sub.subset (mem_map_of_mem member))

theorem overwriteEntry_hashes (h : Nat) (k : K) (v : V) : ∀ entries : List (Entry K V),
    (overwriteEntry h k v entries).map Entry.hash = entries.map Entry.hash := by
  intro entries
  induction entries with
  | nil => rfl
  | cons e rest ih =>
    rw [overwriteEntry]
    split
    · rfl
    · rw [map_cons, map_cons, ih]

theorem changeFirst_hashes {h : Nat} {k : K} {change : List (Entry K V) → List (Entry K V)}
    (sub : ∀ entries, ((change entries).map Entry.hash).Sublist (entries.map Entry.hash)) :
    ∀ (nodes : List (LeafNode K V)) (node : LeafNode K V), node ∈ changeFirst h k change nodes →
      ∃ old, old ∈ nodes ∧ node.hashes.Sublist old.hashes := by
  intro nodes
  induction nodes with
  | nil =>
    intro node member
    cases member
  | cons first rest ih =>
    intro node member
    rw [changeFirst] at member
    split at member
    · rcases mem_cons.mp member with rfl | inRest
      · exact ⟨first, mem_cons_self, sub first.entries⟩
      · exact ⟨node, mem_cons_of_mem _ inRest, List.Sublist.refl _⟩
    · rcases mem_cons.mp member with rfl | inRest
      · exact ⟨node, mem_cons_self, List.Sublist.refl _⟩
      · obtain ⟨old, inOld, less⟩ := ih node inRest
        exact ⟨old, mem_cons_of_mem _ inOld, less⟩

/-- An erase or an overwrite leaves no hash that was not there. -/
theorem LeafShape.changeFirst {h : Nat} {k : K} {change : List (Entry K V) → List (Entry K V)}
    (shape : LeafShape fo lo hi leaf)
    (sub : ∀ entries, ((change entries).map Entry.hash).Sublist (entries.map Entry.hash)) :
    LeafShape fo lo hi (leaf.changeFirst h k change) := by
  have primary : (leaf.changeFirst h k change).primary.hashes.Sublist leaf.primary.hashes := by
    unfold Leaf.changeFirst
    split
    · exact sub leaf.primary.entries
    · exact List.Sublist.refl _
  obtain ⟨sorted, old⟩ := entries_of_hashes primary
  refine ⟨shape.apart, ?_, sorted shape.sorted, ?_⟩
  · intro node member
    rw [leaf_changeFirst_nodes] at member
    obtain ⟨before, inLeaf, less⟩ := changeFirst_hashes sub leaf.nodes node member
    exact (shape.fits before inLeaf).sub less
  · intro e member
    obtain ⟨x, inPrimary, same⟩ := old e member
    rw [← same]
    exact shape.ranged x inPrimary

structure ShapedOut (fo : Fanouts) (P : Nat → Nat → α → Prop) (lo hi : Nat)
    (applied : Applied α) : Prop where
  out : OutWF P lo hi applied.tree applied.split
  narrow : applied.split.isSome = true → fo.inner ≤ 33

omit [DecidableEq K] in
theorem shapedOut_whole {P : Nat → Nat → α → Prop} {tree : α} (shape : P lo hi tree)
    (inserted : Bool) (pool : Pool) : ShapedOut fo P lo hi ⟨tree, none, inserted, pool⟩ := by
  refine ⟨shape, ?_⟩
  intro splits
  cases splits

omit [DecidableEq K] in
theorem insertNewKey_shape (fixed : fo.Overridden) (shape : LeafShape fo lo hi leaf)
    {e : Entry K V} (range : lo ≤ e.hash ∧ e.hash < hi) (below : e.hash < hashBound)
    (seen : 32 < fo.leaf → leaf.primary.entries.length ≤ 32) (pool : Pool) :
    ShapedOut fo (LeafShape fo) lo hi (insertNewKey fo.leaf leaf e pool) := by
  have same := fixed.same
  have size := (shape.fits leaf.primary mem_cons_self).size
  unfold insertNewKey
  by_cases room : leaf.primary.entries.length < fo.leaf
  · rw [if_pos room]
    have bound : leaf.primary.entries.length < leafBound fo := by
      unfold leafBound
      by_cases wide : 32 < fo.leaf
      · have := seen wide
        omega
      · omega
    exact shapedOut_whole (shape.insertPrimary bound range below) true pool
  · have small : fo.leaf ≤ 33 := by
      unfold leafBound at size
      omega
    have narrow : fo.inner ≤ 33 := by omega
    rw [if_neg room]
    cases single : leaf.primary.singleClass with
    | true =>
      simp only [if_true]
      by_cases sameHash : e.hash = leaf.primary.hashes.headD 0
      · rw [if_pos sameHash]
        apply shapedOut_whole
        refine ⟨shape.apart, ?_, shape.sorted, shape.ranged⟩
        intro node member
        rcases mem_cons.mp member with rfl | chained
        · exact shape.fits leaf.primary mem_cons_self
        · exact chainInsert_fits fixed small below pool leaf.overflow leaf.primary.idx
            (fun node inChain => shape.fits node (mem_cons_of_mem _ inChain)) node chained
      · rw [if_neg sameHash]
        have out := asymmetricSplitLeaf_shape fixed shape single sameHash range below pool
        exact ⟨out, fun _ => narrow⟩
    | false =>
      simp only [Bool.false_eq_true, if_false]
      obtain ⟨⟨order, top, left, right⟩, roomLeft, roomRight⟩ :=
        splitLeafMixed_shape fixed shape (by omega) single pool
      by_cases side : e.hash < (splitLeafMixed fo.leaf leaf pool).2.1
      · rw [if_pos side]
        have shaped := left.insertPrimary roomLeft ⟨range.1, side⟩ below
        exact ⟨⟨order, top, shaped, right⟩, fun _ => narrow⟩
      · rw [if_neg side]
        have shaped := right.insertPrimary roomRight ⟨by omega, range.2⟩ below
        exact ⟨⟨order, top, left, shaped⟩, fun _ => narrow⟩

theorem leafApply_shape (fixed : fo.Overridden) (shape : LeafShape fo lo hi leaf)
    {op : PendingOp K V} (range : lo ≤ op.hash ∧ op.hash < hi) (below : op.hash < hashBound)
    (seen : 32 < fo.leaf → leaf.primary.entries.length ≤ 32) (pool : Pool) :
    ShapedOut fo (LeafShape fo) lo hi (leafApply fo.leaf leaf op pool) := by
  unfold leafApply
  cases op.value with
  | none =>
    simp only
    split
    · apply shapedOut_whole
      apply shape.changeFirst
      intro entries
      exact eraseP_sublist.map Entry.hash
    · exact shapedOut_whole shape _ _
  | some v =>
    simp only
    split
    · apply shapedOut_whole
      apply shape.changeFirst
      intro entries
      rw [overwriteEntry_hashes]
    · exact insertNewKey_shape fixed shape range below seen pool

/-- Every node of a leaf that has taken an operation keeps to its arrays. -/
theorem leafUses_inside (fixed : fo.Overridden) (shape : LeafShape fo lo hi leaf)
    {op : PendingOp K V} (range : lo ≤ op.hash ∧ op.hash < hi) (below : op.hash < hashBound)
    {pool : Pool} (admitted : ∀ use, use ∈ leafUses fo.leaf leaf op pool → use.Admitted fo) :
    ShapedOut fo (LeafShape fo) lo hi (leafApply fo.leaf leaf op pool) ∧
      ∀ use, use ∈ leafUses fo.leaf leaf op pool → use.Inside fo := by
  have scans : ∀ node, node ∈ leaf.nodes → 32 < fo.leaf → node.entries.length ≤ 32 := by
    intro node member
    apply admitted (.scanned node.entries.length)
    exact mem_append_left _ (mem_map.mpr ⟨node, member, rfl⟩)
  have shaped := leafApply_shape fixed shape range below
    (scans leaf.primary mem_cons_self) pool
  refine ⟨shaped, ?_⟩
  intro use member
  rcases mem_append.mp member with scanned | filled
  · obtain ⟨node, inLeaf, rfl⟩ := mem_map.mp scanned
    have size := (shape.fits node inLeaf).size
    have scan := scans node inLeaf
    unfold leafBound at size
    change node.entries.length ≤ 32
    omega
  · apply nodeUses_inside ?_ use filled
    intro node inOut
    have out := shaped.out
    cases split : (leafApply fo.leaf leaf op pool).split with
    | none =>
      rw [split] at out inOut
      exact out.fits node inOut
    | some half =>
      rw [split] at out inOut
      rcases mem_append.mp inOut with inLeft | inRight
      · exact out.2.2.1.fits node inLeft
      · exact out.2.2.2.fits node inRight

end Path

end Leaves

/-! ## Inner nodes -/

/-- An operation on a child of the shape `P` that fills no array past its end. -/
def ShapeSound (fo : Fanouts) (P : Nat → Nat → α → Prop)
    (apply : α → PendingOp K V → Pool → Applied α)
    (uses : α → PendingOp K V → Pool → List ArrayUse) : Prop :=
  ∀ lo hi tree op pool, P lo hi tree → lo ≤ op.hash ∧ op.hash < hi → op.hash < hashBound →
    (∀ use, use ∈ uses tree op pool → use.Admitted fo) →
    ShapedOut fo P lo hi (apply tree op pool) ∧ ∀ use, use ∈ uses tree op pool → use.Inside fo

structure InnerShape (fo : Fanouts) (P : Nat → Nat → α → Prop) (lo hi : Nat)
    (node : Inner K V α) : Prop where
  row : RowP P lo hi node.row
  size : node.row.tail.length ≤ fo.inner - 1
  ranged : ∀ op, op ∈ node.buffer → (lo ≤ op.hash ∧ op.hash < hi) ∧ op.hash < hashBound
  parked : node.buffer.length ≤ fo.buffer
  narrow : fo.inner ≤ 33

/-- A node that may have been cut.  Unless the fanout is three, both halves have
room for one more pivot. -/
structure Drained.Shaped (fo : Fanouts) (P : Nat → Nat → α → Prop) (lo hi : Nat)
    (drained : Drained α) : Prop where
  out : OutWF (RowP P) lo hi drained.row drained.split
  left : drained.row.tail.length ≤ fo.inner - 1
  right : ∀ half, drained.split = some half → half.2.tail.length ≤ fo.inner - 1
  room : fo.inner ≠ 3 → ∀ half, drained.split = some half →
    drained.row.tail.length < fo.inner - 1 ∧ half.2.tail.length < fo.inner - 1

section Inner
variable {fo : Fanouts} {P : Nat → Nat → α → Prop} {lo hi : Nat}
  {apply : α → PendingOp K V → Pool → Applied α}
  {uses : α → PendingOp K V → Pool → List ArrayUse} {row : Row α} {node : Inner K V α}
  {op : PendingOp K V} {pool : Pool}

theorem rowUses_inside (narrow : fo.inner ≤ 33) {split : Option (Nat × Row α)}
    (left : row.tail.length ≤ fo.inner - 1)
    (right : ∀ half, split = some half → half.2.tail.length ≤ fo.inner - 1) :
    ∀ use, use ∈ rowUses row split → use.Inside fo := by
  intro use member
  rcases mem_cons.mp member with rfl | isRight
  · exact ⟨left, by omega⟩
  · obtain ⟨half, isHalf, rfl⟩ := map_eq_some_iff.mp (mem_toList.mp isRight)
    have size := right half isHalf
    exact ⟨size, by omega⟩

theorem innerShape_emptied (narrow : fo.inner ≤ 33) (wf : RowP P lo hi row)
    (size : row.tail.length ≤ fo.inner - 1) :
    InnerShape fo P lo hi (⟨row, []⟩ : Inner K V α) := by
  refine ⟨wf, size, ?_, Nat.zero_le _, narrow⟩
  intro op member
  cases member

theorem outWF_shapedRows (narrow : fo.inner ≤ 33) {split : Option (Nat × Row α)}
    (out : OutWF (RowP P) lo hi row split) (left : row.tail.length ≤ fo.inner - 1)
    (right : ∀ half, split = some half → half.2.tail.length ≤ fo.inner - 1) :
    OutWF (InnerShape fo P) lo hi (⟨row, []⟩ : Inner K V α) (split.map emptiedHalf) := by
  cases split with
  | none => exact innerShape_emptied narrow out left
  | some half =>
    obtain ⟨order, top, wfLeft, wfRight⟩ := out
    exact ⟨order, top, innerShape_emptied narrow wfLeft left,
      innerShape_emptied narrow wfRight (right half rfl)⟩

/-- A row gets one pivot more where the child splits, and is as long as it was
where it does not. -/
theorem applyInRow_shape (sound : ShapeSound fo P apply uses) (wf : RowP P lo hi row)
    (range : (lo ≤ op.hash ∧ op.hash < hi) ∧ op.hash < hashBound)
    (admitted : ∀ use, use ∈ childUses fo uses row op pool → use.Admitted fo) :
    RowP P lo hi (applyInRow fo apply row op pool).1 ∧
      (applyInRow fo apply row op pool).1.tail.length = row.tail.length +
        ((apply (row.child (routeGt fo.inner row.pivots op.hash)) op pool).split).toList.length ∧
      ∀ use, use ∈ childUses fo uses row op pool → use.Inside fo := by
  have route := routeGt_eq wf fo.inner op.hash
  obtain ⟨a, b, _, aboveA, belowB, _, wfChild, replace⟩ :=
    @RowWF.splice α Unit P (fun _ _ => ()) _ _ _ _ _ wf range.1.1 range.1.2
  unfold childUses at *
  unfold applyInRow
  rw [route] at admitted ⊢
  obtain ⟨shaped, inside⟩ := sound a b _ op pool wfChild ⟨aboveA, belowB⟩ range.2 admitted
  refine ⟨(replace _ _ shaped.out).1, ?_, inside⟩
  apply spliceAt_length
  have bound := scanGt_le row.pivots op.hash
  rwa [Row.pivots, length_map] at bound

theorem drainLoop_shape (sound : ShapeSound fo P apply uses) :
    ∀ (ops : List (PendingOp K V)) (row : Row α) (pool : Pool), RowP P lo hi row →
      (∀ op, op ∈ ops → (lo ≤ op.hash ∧ op.hash < hi) ∧ op.hash < hashBound) →
      (∀ use, use ∈ drainLoopUses fo apply uses ops row pool → use.Admitted fo) →
      RowP P lo hi (drainLoop fo apply ops row pool).1 ∧
        (drainLoop fo apply ops row pool).1.tail.length ≤ row.tail.length + ops.length ∧
        ∀ use, use ∈ drainLoopUses fo apply uses ops row pool → use.Inside fo := by
  intro ops
  induction ops with
  | nil =>
    intro row pool wf _ _
    refine ⟨wf, le_refl _, ?_⟩
    exact forall_mem_nil _
  | cons op rest ih =>
    intro row pool wf ranged admitted
    obtain ⟨wfNext, size, inside⟩ := applyInRow_shape sound wf (ranged op mem_cons_self)
      fun use member => admitted use (mem_append_left _ member)
    obtain ⟨wfLast, sizeLast, insideLast⟩ := ih _ _ wfNext
      (fun x member => ranged x (mem_cons_of_mem _ member))
      fun use member => admitted use (mem_append_right _ member)
    have one := length_toList_le
      (o := (apply (row.child (routeGt fo.inner row.pivots op.hash)) op pool).split)
    refine ⟨wfLast, ?_, ?_⟩
    · have last : (drainLoop fo apply (op :: rest) row pool).1.tail.length ≤
          (applyInRow fo apply row op pool).1.tail.length + rest.length := sizeLast
      rw [length_cons]
      omega
    · exact forall_mem_append.mpr ⟨inside, insideLast⟩

/-- Draining a full buffer overfills no array, and the halves of a node it cuts
fit. -/
theorem drainInternalBuffer_shape (fixed : fo.Overridden) (sound : ShapeSound fo P apply uses)
    (shape : InnerShape fo P lo hi node)
    (admitted : ∀ use, use ∈ drainUses fo apply uses node pool → use.Admitted fo) :
    (drainInternalBuffer fo apply node pool).Shaped fo P lo hi ∧
      ∀ use, use ∈ drainUses fo apply uses node pool → use.Inside fo := by
  obtain ⟨row, buffer⟩ := node
  cases buffer with
  | nil =>
    refine ⟨⟨shape.row, shape.size, ?_, ?_⟩, ?_⟩
    · intro half none
      cases none
    · intro _ half none
      cases none
    · exact forall_mem_nil _
  | cons op rest =>
    have parked : (op :: rest).length ≤ fo.buffer := shape.parked
    have size : row.tail.length ≤ fo.inner - 1 := shape.size
    obtain ⟨bufferLe, bufferLt⟩ := pickBufSize_le fixed.three
    rw [← fixed.buffer] at bufferLe bufferLt
    have loop := drainLoop_shape sound (op :: rest) row pool shape.row shape.ranged
      fun use member => admitted use (mem_append_left _ member)
    simp only [drainInternalBuffer, drainUses]
    generalize drainLoop fo apply (op :: rest) row pool = drained at loop
    obtain ⟨wf, longer, inside⟩ := loop
    have bound : drained.1.tail.length ≤ fo.inner - 1 + fo.buffer := by omega
    obtain ⟨out, _⟩ :=
      @settle_spec α Unit Unit P (fun _ _ => ()) (fun _ => []) _ _ _ wf (fo.inner - 1)
    obtain ⟨left, halves⟩ := settle_sizes (by omega : drained.1.tail.length ≤ 2 * (fo.inner - 1) + 1)
    have right : ∀ half, (drained.1.settle (fo.inner - 1)).2 = some half →
        half.2.tail.length ≤ fo.inner - 1 := fun half isHalf => (halves half isHalf).2.2
    refine ⟨⟨out, left, right, ?_⟩, ?_⟩
    · intro wider half isHalf
      obtain ⟨leftSize, rightSize, _⟩ := halves half isHalf
      rw [leftSize, rightSize]
      omega
    · intro use member
      rcases mem_append.mp member with here | later
      · exact inside use here
      · rcases mem_cons.mp later with rfl | inRows
        · exact bound
        · exact rowUses_inside shape.narrow left right use inRows

theorem splitInternal_shape (fixed : fo.Overridden) (sound : ShapeSound fo P apply uses)
    (shape : InnerShape fo P lo hi node)
    (admitted : ∀ use, use ∈ splitInternalUses fo apply uses node pool → use.Admitted fo) :
    (splitInternal fo apply node pool).Shaped fo P lo hi ∧
      ∀ use, use ∈ splitInternalUses fo apply uses node pool → use.Inside fo := by
  obtain ⟨drained, inside⟩ := drainInternalBuffer_shape fixed sound shape
    fun use member => admitted use (mem_append_left _ member)
  have shaped : (splitInternal fo apply node pool).Shaped fo P lo hi := by
    unfold splitInternal
    generalize drainInternalBuffer fo apply node pool = after at drained
    obtain ⟨row, split, pool'⟩ := after
    cases split with
    | some half => exact drained
    | none =>
      simp only
      split
      · exact drained
      · rename_i two
        have size := drained.left
        simp only at size
        obtain ⟨out, _⟩ := @splitAt_spec α Unit Unit P (fun _ _ => ()) (fun _ => []) _ _ row
          drained.out (row.tail.length / 2)
        obtain ⟨p, right, isSome, left, rightSize⟩ := splitAt_sizes
          (Prod.eta (row.splitAt (row.tail.length / 2))).symm (by omega)
        have sizes : ∀ half, (row.splitAt (row.tail.length / 2)).2 = some half →
            (row.splitAt (row.tail.length / 2)).1.tail.length < fo.inner - 1 ∧
              half.2.tail.length < fo.inner - 1 := by
          intro half isHalf
          rw [isSome] at isHalf
          cases isHalf
          rw [left, rightSize]
          omega
        refine ⟨out, ?_, ?_, fun _ => sizes⟩
        · exact le_of_lt (sizes _ isSome).1
        · intro half isHalf
          exact le_of_lt (sizes half isHalf).2
  refine ⟨shaped, ?_⟩
  intro use member
  rcases mem_append.mp member with here | inRows
  · exact inside use here
  · exact rowUses_inside shape.narrow shaped.left shaped.right use inRows

/-- The half that an operation goes to, with the pivots of the other half. -/
theorem Drained.Shaped.half {drained : Drained α} {p : Nat} {right : Row α}
    (shaped : drained.Shaped fo P lo hi) (isHalf : drained.split = some (p, right)) (h : Nat) :
    (drained.target h).tail.length ≤ fo.inner - 1 ∧
      (fo.inner ≠ 3 → (drained.target h).tail.length < fo.inner - 1) := by
  have rightSize := shaped.right _ isHalf
  have room := fun wider => shaped.room wider _ isHalf
  unfold Drained.target
  rw [isHalf]
  simp only
  split
  · exact ⟨rightSize, fun wider => (room wider).2⟩
  · exact ⟨shaped.left, fun wider => (room wider).1⟩

/-- The insert into a half fits unless the half is a full one of fanout three. -/
theorem half_inside (narrow : fo.inner ≤ 33) {pivots : Nat}
    (room : fo.inner ≠ 3 → pivots < fo.inner - 1)
    (admitted : (ArrayUse.half pivots).Admitted fo) : (ArrayUse.half pivots).Inside fo := by
  have fits : pivots < fo.inner - 1 := by
    by_cases small : fo.inner = 3
    · have := admitted small
      omega
    · exact room small
  exact ⟨fits, by omega⟩

/-- The insert into a half leaves a node within its arrays. -/
theorem halfUses_inside (sound : ShapeSound fo P apply uses) (narrow : fo.inner ≤ 33)
    (wf : RowP P lo hi row) (size : row.tail.length ≤ fo.inner - 1)
    (room : fo.inner ≠ 3 → row.tail.length < fo.inner - 1)
    (range : (lo ≤ op.hash ∧ op.hash < hi) ∧ op.hash < hashBound)
    (admitted : ∀ use, use ∈ halfUses fo apply uses row op pool → use.Admitted fo) :
    InnerShape fo P lo hi (⟨(applyInRow fo apply row op pool).1, []⟩ : Inner K V α) ∧
      ∀ use, use ∈ halfUses fo apply uses row op pool → use.Inside fo := by
  obtain ⟨wfNext, length, inside⟩ := applyInRow_shape sound wf range
    fun use member => admitted use (mem_append_left _ member)
  unfold halfUses at admitted ⊢
  cases split : (apply (row.child (routeGt fo.inner row.pivots op.hash)) op pool).split with
  | none =>
    rw [split] at length
    simp only [split, isSome_none, Bool.false_eq_true, if_false] at admitted ⊢
    refine ⟨innerShape_emptied narrow wfNext (le_trans (le_of_eq length) size), ?_⟩
    intro use member
    rcases mem_append.mp member with here | nothing
    · exact inside use here
    · cases nothing
  | some new =>
    rw [split] at length
    simp only [split, isSome_some, if_true] at admitted ⊢
    have fits := half_inside narrow room
      (admitted _ (mem_append_right _ (mem_singleton_self _)))
    refine ⟨innerShape_emptied narrow wfNext (le_trans (le_of_eq length) fits.1), ?_⟩
    intro use member
    rcases mem_append.mp member with here | inserted
    · exact inside use here
    · rw [mem_singleton.mp inserted]
      exact fits

/-- `internal_insert_pivot_or_split` leaves nodes within their arrays. -/
theorem insertUses_inside (fixed : fo.Overridden) (sound : ShapeSound fo P apply uses)
    (narrow : fo.inner ≤ 33) (wf : RowP P lo hi row) (size : row.tail.length ≤ fo.inner - 1)
    (range : (lo ≤ op.hash ∧ op.hash < hi) ∧ op.hash < hashBound)
    (admitted : ∀ use, use ∈ insertUses fo apply uses row op pool → use.Admitted fo) :
    let settled := (applyInRow fo apply row op pool).1.settle (fo.inner - 1)
    OutWF (InnerShape fo P) lo hi (⟨settled.1, []⟩ : Inner K V α) (settled.2.map emptiedHalf) ∧
      ∀ use, use ∈ insertUses fo apply uses row op pool → use.Inside fo := by
  intro settled
  obtain ⟨wfNext, length, inside⟩ := applyInRow_shape sound wf range
    fun use member => admitted use (mem_append_left _ member)
  have three := fixed.three
  have one := length_toList_le
    (o := (apply (row.child (routeGt fo.inner row.pivots op.hash)) op pool).split)
  have bound : (applyInRow fo apply row op pool).1.tail.length ≤ fo.inner := by omega
  obtain ⟨out, _⟩ :=
    @settle_spec α Unit Unit P (fun _ _ => ()) (fun _ => []) _ _ _ wfNext (fo.inner - 1)
  obtain ⟨left, halves⟩ := settle_sizes
    (by omega : (applyInRow fo apply row op pool).1.tail.length ≤ 2 * (fo.inner - 1) + 1)
  have right : ∀ half, settled.2 = some half → half.2.tail.length ≤ fo.inner - 1 :=
    fun half isHalf => (halves half isHalf).2.2
  refine ⟨outWF_shapedRows narrow out left right, ?_⟩
  intro use member
  rcases mem_append.mp member with here | written
  · exact inside use here
  · by_cases splits :
        (apply (row.child (routeGt fo.inner row.pivots op.hash)) op pool).split.isSome = true
    · rw [if_pos splits] at written
      rcases mem_cons.mp written with rfl | inRows
      · exact bound
      · exact rowUses_inside narrow left right use inRows
    · rw [if_neg splits] at written
      cases written

theorem applyDrained_shape (fixed : fo.Overridden) (sound : ShapeSound fo P apply uses)
    (narrow : fo.inner ≤ 33) {drained : Drained α} (shaped : drained.Shaped fo P lo hi)
    (range : (lo ≤ op.hash ∧ op.hash < hi) ∧ op.hash < hashBound)
    (admitted : ∀ use, use ∈ drainedUses fo apply uses drained op → use.Admitted fo) :
    ShapedOut fo (InnerShape fo P) lo hi (applyDrained fo apply drained op) ∧
      ∀ use, use ∈ drainedUses fo apply uses drained op → use.Inside fo := by
  obtain ⟨row, split, pool⟩ := drained
  cases split with
  | none =>
    obtain ⟨out, inside⟩ :=
      insertUses_inside fixed sound narrow shaped.out shaped.left range admitted
    exact ⟨⟨out, fun _ => narrow⟩, inside⟩
  | some half =>
    obtain ⟨p, right⟩ := half
    obtain ⟨size, room⟩ := shaped.half rfl op.hash
    obtain ⟨order, top, wfLeft, wfRight⟩ := shaped.out
    unfold applyDrained
    simp only [drainedUses, Drained.target] at admitted size room ⊢
    by_cases side : p ≤ op.hash
    · simp only [if_pos side] at admitted size room ⊢
      obtain ⟨half, inside⟩ := halfUses_inside sound narrow wfRight size room
        ⟨⟨side, range.1.2⟩, range.2⟩ admitted
      have left := innerShape_emptied (K := K) (V := V) narrow wfLeft shaped.left
      exact ⟨⟨⟨order, top, left, half⟩, fun _ => narrow⟩, inside⟩
    · simp only [if_neg side] at admitted size room ⊢
      obtain ⟨half, inside⟩ := halfUses_inside sound narrow wfLeft size room
        ⟨⟨range.1.1, by omega⟩, range.2⟩ admitted
      have other := innerShape_emptied (K := K) (V := V) narrow wfRight (shaped.right _ rfl)
      exact ⟨⟨⟨order, top, half, other⟩, fun _ => narrow⟩, inside⟩

theorem mergePending_idents [DecidableEq K] : ∀ {buffer buffer' : List (PendingOp K V)}
    {old : PendingOp K V}, mergePending op buffer = some (buffer', old) →
    buffer'.map PendingOp.ident = buffer.map PendingOp.ident := by
  intro buffer
  induction buffer with
  | nil =>
    intro buffer' old merged
    cases merged
  | cons first rest ih =>
    intro buffer' old merged
    rw [mergePending] at merged
    split at merged
    · cases merged
      rfl
    · obtain ⟨⟨rest', old'⟩, mergedRest, pair⟩ := map_eq_some_iff.mp merged
      cases pair
      rw [map_cons, map_cons, ih mergedRest]

theorem ranged_of_idents {buffer buffer' : List (PendingOp K V)} {S : Nat → Prop}
    (idents : buffer'.map PendingOp.ident = buffer.map PendingOp.ident)
    (ranged : ∀ op, op ∈ buffer → S op.hash) : ∀ op, op ∈ buffer' → S op.hash := by
  intro x member
  have same : x.ident ∈ buffer.map PendingOp.ident := by
    rw [← idents]
    exact mem_map_of_mem member
  obtain ⟨y, inBuffer, yIdent⟩ := mem_map.mp same
  have hash : y.hash = x.hash := congrArg Prod.fst yIdent
  rw [← hash]
  exact ranged y inBuffer

/-- An inner node keeps to its arrays if its children do. -/
theorem innerApply_shape [DecidableEq K] (fixed : fo.Overridden)
    (sound : ShapeSound fo P apply uses) :
    ShapeSound fo (InnerShape fo P) (innerApply fo apply) (innerUses fo apply uses) := by
  intro lo hi node op pool shape range below admitted
  unfold innerApply
  unfold innerUses at admitted ⊢
  cases merged : mergePending op node.buffer with
  | some found =>
    obtain ⟨buffer, old⟩ := found
    have idents := mergePending_idents merged
    have shaped : InnerShape fo P lo hi ({ node with buffer := buffer } : Inner K V α) := by
      refine ⟨shape.row, shape.size, ?_, ?_, shape.narrow⟩
      · exact ranged_of_idents (S := fun h => (lo ≤ h ∧ h < hi) ∧ h < hashBound) idents shape.ranged
      · have length := congrArg List.length idents
        rw [length_map, length_map] at length
        exact le_trans (le_of_eq length) shape.parked
    refine ⟨shapedOut_whole shaped _ pool, ?_⟩
    exact forall_mem_nil _
  | none =>
    rw [merged] at admitted
    by_cases room : node.buffer.length < fo.buffer
    · simp only [if_pos room]
      have shaped : InnerShape fo P lo hi
          ({ node with buffer := node.buffer ++ [op] } : Inner K V α) := by
        refine ⟨shape.row, shape.size, ?_, ?_, shape.narrow⟩
        · intro x member
          rcases mem_append.mp member with old | new
          · exact shape.ranged x old
          · rw [mem_singleton.mp new]
            exact ⟨range, below⟩
        · rw [length_append, length_singleton]
          exact room
      refine ⟨shapedOut_whole shaped _ pool, ?_⟩
      exact forall_mem_nil _
    · simp only [if_neg room] at admitted ⊢
      obtain ⟨drained, insideDrain⟩ := drainInternalBuffer_shape fixed sound shape
        fun use member => admitted use (mem_append_left _ member)
      obtain ⟨out, inside⟩ := applyDrained_shape fixed sound shape.narrow drained
        ⟨range, below⟩ fun use member => admitted use (mem_append_right _ member)
      refine ⟨out, ?_⟩
      exact forall_mem_append.mpr ⟨insideDrain, inside⟩

end Inner

end Micron.BTree
