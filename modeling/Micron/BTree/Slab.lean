import Micron.BTree.Model

/-!
# The slab under a drain

`drain_recursive` keeps a reference to its node while it drains the children one
after another.  Draining a child may take slots; when the slab grows it moves, and
the next child is read in memory that has been given back.  No other step reads
through an old reference, so a run goes wrong in this way exactly where a slab
moves before the last child of a node is read.
-/

set_option autoImplicit false

namespace Micron.BTree

open Micron.Lib

variable {K V α : Type}

/-- A node has been read in memory that was given back. -/
def Pool.stale (pool : Pool) : Bool := pool.slab.stale

def BTreeMap.stale (m : BTreeMap K V) : Bool := m.pool.stale

/-! ## Steps that read nothing through an old reference -/

theorem Slab.alloc_stale (slab : Slab) : slab.alloc.stale = slab.stale := by
  unfold Slab.alloc
  split
  · rfl
  · split <;> rfl

theorem addAfter_stale (pool : Pool) (anchor : Nat) : (pool.addAfter anchor).stale = pool.stale :=
  pool.slab.alloc_stale

theorem allocFor_stale {β : Type} (pool : Pool) (split : Option β) :
    (pool.allocFor split).stale = pool.stale := by
  cases split with
  | none => rfl
  | some half => exact pool.slab.alloc_stale

theorem readAt_stale (pool : Pool) (block : Nat) :
    (pool.readAt block).stale = (pool.stale || pool.slab.moves != block) := rfl

theorem chainInsert_stale (leafFanout : Nat) (e : Entry K V) (pool : Pool) :
    ∀ (nodes : List (LeafNode K V)) (tail : Nat),
      (chainInsert leafFanout e pool tail nodes).2.stale = pool.stale := by
  intro nodes
  induction nodes with
  | nil =>
    intro tail
    exact addAfter_stale pool tail
  | cons node rest ih =>
    intro tail
    unfold chainInsert
    split
    · rfl
    · exact ih node.idx

theorem asymmetricSplitLeaf_stale (leaf : Leaf K V) (e : Entry K V) (pool : Pool) :
    (asymmetricSplitLeaf leaf e pool).2.2.2.stale = pool.stale := by
  unfold asymmetricSplitLeaf
  dsimp only
  split
  · exact addAfter_stale _ _
  · exact addAfter_stale _ _

theorem insertNewKey_stale (leafFanout : Nat) (leaf : Leaf K V) (e : Entry K V) (pool : Pool) :
    (insertNewKey leafFanout leaf e pool).pool.stale = pool.stale := by
  unfold insertNewKey
  split
  · rfl
  · split
    · split
      · exact chainInsert_stale leafFanout e pool leaf.overflow leaf.primary.idx
      · exact asymmetricSplitLeaf_stale leaf e pool
    · dsimp only
      split
      · exact addAfter_stale pool leaf.primary.idx
      · exact addAfter_stale pool leaf.primary.idx

variable [DecidableEq K]

theorem leafApply_stale (leafFanout : Nat) (leaf : Leaf K V) (op : PendingOp K V) (pool : Pool) :
    (leafApply leafFanout leaf op pool).pool.stale = pool.stale := by
  unfold leafApply
  split
  · split <;> rfl
  · split
    · rfl
    · exact insertNewKey_stale leafFanout leaf _ pool

section Inner
variable {fo : Fanouts} {apply : α → PendingOp K V → Pool → Applied α}

omit [DecidableEq K] in
theorem drainLoop_stale (quiet : ∀ t op pool, (apply t op pool).pool.stale = pool.stale) :
    ∀ (ops : List (PendingOp K V)) (row : Row α) (pool : Pool),
      (drainLoop fo apply ops row pool).2.stale = pool.stale := by
  intro ops
  induction ops with
  | nil => exact fun _ _ => rfl
  | cons op rest ih =>
    intro row pool
    exact (ih _ _).trans (quiet _ op pool)

omit [DecidableEq K] in
theorem drainInternalBuffer_stale (quiet : ∀ t op pool, (apply t op pool).pool.stale = pool.stale)
    (node : Inner K V α) (pool : Pool) :
    (drainInternalBuffer fo apply node pool).pool.stale = pool.stale := by
  unfold drainInternalBuffer
  split
  · rfl
  · exact (allocFor_stale _ _).trans (drainLoop_stale quiet _ node.row pool)

omit [DecidableEq K] in
theorem applyDrained_stale (quiet : ∀ t op pool, (apply t op pool).pool.stale = pool.stale)
    (drained : Drained α) (op : PendingOp K V) :
    (applyDrained fo apply drained op).pool.stale = drained.pool.stale := by
  unfold applyDrained
  dsimp only
  split
  · split
    · exact quiet _ op _
    · exact quiet _ op _
  · exact (allocFor_stale _ _).trans (quiet _ op _)

theorem innerApply_stale (quiet : ∀ t op pool, (apply t op pool).pool.stale = pool.stale)
    (node : Inner K V α) (op : PendingOp K V) (pool : Pool) :
    (innerApply fo apply node op pool).pool.stale = pool.stale := by
  unfold innerApply
  split
  · rfl
  · split
    · rfl
    · exact (applyDrained_stale quiet _ op).trans (drainInternalBuffer_stale quiet node pool)

omit [DecidableEq K] in
theorem splitInternal_stale (quiet : ∀ t op pool, (apply t op pool).pool.stale = pool.stale)
    (node : Inner K V α) (pool : Pool) :
    (splitInternal fo apply node pool).pool.stale = pool.stale := by
  have drained : (drainInternalBuffer fo apply node pool).pool.stale = pool.stale :=
    drainInternalBuffer_stale quiet node pool
  unfold splitInternal
  dsimp only
  split
  · exact drained
  · split
    · exact drained
    · exact (allocFor_stale _ _).trans drained

end Inner

section Trees
variable (fo : Fanouts)

theorem descendApply_stale : ∀ (height : Nat) (tree : Tree K V height) (op : PendingOp K V)
    (pool : Pool), (descendApply fo height tree op pool).pool.stale = pool.stale := by
  intro height
  induction height with
  | zero => exact leafApply_stale fo.leaf
  | succ height ih => exact innerApply_stale ih

theorem ensureRootCapacity_stale (root : Root K V) (pool : Pool) :
    (ensureRootCapacity fo root pool).2.stale = pool.stale := by
  obtain ⟨height, tree⟩ := root
  cases height with
  | zero =>
    unfold ensureRootCapacity
    dsimp only
    split
    · rfl
    · split
      · rfl
      · exact (allocFor_stale _ _).trans (addAfter_stale pool _)
  | succ height =>
    unfold ensureRootCapacity
    dsimp only
    split
    · rfl
    · exact (allocFor_stale _ _).trans (splitInternal_stale (descendApply_stale fo height) _ pool)

theorem rootApply_stale (root : Root K V) (op : PendingOp K V) (pool : Pool) :
    (rootApply fo root op pool).2.2.stale = pool.stale := by
  refine (allocFor_stale _ _).trans ?_
  exact (descendApply_stale fo _ _ op _).trans (ensureRootCapacity_stale fo root pool)

end Trees

/-! ## Drains -/

/-- The children of a node are all read before the slab moves. -/
def readsRow (drain : α → Pool → α × List (LeafNode K V) × Pool) (ask : α → Pool → Bool)
    (block : Nat) : α → List (Nat × α) → Pool → Bool
  | c, [], pool => ask c pool
  | c, (_, c') :: rest, pool =>
    let drained := (drain c pool).2.2
    ask c pool && (drained.slab.moves == block &&
      readsRow drain ask block c' rest (drained.readAt block))

def readsChildren (drain : α → Pool → α × List (LeafNode K V) × Pool) (ask : α → Pool → Bool)
    (row : Row α) (pool : Pool) : Bool :=
  readsRow drain ask pool.slab.moves row.head row.tail pool

/-- `drain_recursive` does not move the slab while it has children of a node to read. -/
def slabStays (fo : Fanouts) : (height : Nat) → Tree K V height → Pool → Bool
  | 0, _, _ => true
  | height + 1, tree, pool =>
    let node : Inner K V (Tree K V height) := tree
    let drained := drainInternalBuffer fo (descendApply fo height) node pool
    let left := drainChildren (drainRecursive fo height) drained.row drained.pool
    readsChildren (drainRecursive fo height) (slabStays fo height) drained.row drained.pool &&
      match drained.split with
      | none => true
      | some (_, half) => readsChildren (drainRecursive fo height) (slabStays fo height) half left.2.2

omit [DecidableEq K] in
theorem drainRow_stale {drain : α → Pool → α × List (LeafNode K V) × Pool} {ask : α → Pool → Bool}
    (sound : ∀ t pool, (drain t pool).2.2.stale = (pool.stale || !ask t pool)) (block : Nat) :
    ∀ (tail : List (Nat × α)) (c : α) (pool : Pool),
      (drainRow drain block c tail pool).2.2.stale =
        (pool.stale || !readsRow drain ask block c tail pool) := by
  intro tail
  induction tail with
  | nil => exact sound
  | cons first rest ih =>
    intro c pool
    obtain ⟨p, c'⟩ := first
    rw [drainRow, readsRow]
    dsimp only
    rw [ih, readAt_stale, sound c pool, bne]
    cases pool.stale <;> cases ask c pool <;>
      cases (drain c pool).2.2.slab.moves == block <;> rfl

/-- A drain reads memory that was given back exactly if the slab moves under it. -/
theorem drainRecursive_stale (fo : Fanouts) : ∀ (height : Nat) (tree : Tree K V height)
    (pool : Pool), (drainRecursive fo height tree pool).2.2.stale =
      (pool.stale || !slabStays fo height tree pool) := by
  intro height
  induction height with
  | zero =>
    intro tree pool
    exact (Bool.or_false _).symm
  | succ height ih =>
    intro tree pool
    have drained : (drainInternalBuffer fo (descendApply fo height) tree pool).pool.stale =
        pool.stale := drainInternalBuffer_stale (descendApply_stale fo height) tree pool
    have rows : ∀ (row : Row (Tree K V height)) (pool : Pool),
        (drainChildren (drainRecursive fo height) row pool).2.2.stale =
          (pool.stale || !readsChildren (drainRecursive fo height) (slabStays fo height) row pool) :=
      fun row pool => drainRow_stale ih pool.slab.moves row.tail row.head pool
    rw [drainRecursive, slabStays]
    generalize drainInternalBuffer fo (descendApply fo height) tree pool = after at *
    obtain ⟨row, split, pool'⟩ := after
    have left := rows row pool'
    cases split with
    | none =>
      rw [left, drained, Bool.and_true]
    | some half =>
      have right := rows half.2 (drainChildren (drainRecursive fo height) row pool').2.2
      change (drainChildren (drainRecursive fo height) half.2 _).2.2.stale = _
      rw [right, left, drained, Bool.not_and, Bool.or_assoc]

end Micron.BTree
