import Micron.BTree.LeafApply
import Micron.BTree.InnerSpec

/-!
# What an operation does to a tree

The inner path is sound over sound children, so a descent is sound by induction
on the height.  What is known of the leaves is a parameter, `LeafRules`: leaves
whose chains stay with their class, or leaves that have no chains at all.  A
root that splits gets a new root above its halves.
-/

set_option autoImplicit false

namespace Micron.BTree

open Micron.Lib List

variable {K V : Type}

def TreeWF (Q : Nat → K → Prop) (leafP : Nat → Nat → Leaf K V → Prop) :
    (height : Nat) → Nat → Nat → Tree K V height → Prop
  | 0 => leafP
  | height + 1 => InnerWF Q (TreeWF Q leafP height)

def Tree.idxs : (height : Nat) → Tree K V height → List Nat
  | 0 => Leaf.idxs
  | height + 1 => innerIdxs (Tree.idxs height)

theorem Tree.idxs_eq : ∀ (height : Nat) (tree : Tree K V height),
    Tree.idxs height tree = (Tree.leaves height tree).map LeafNode.idx := by
  intro height
  induction height with
  | zero =>
    intro tree
    rfl
  | succ height ih =>
    intro tree
    have same : Tree.idxs height = fun t : Tree K V height =>
        (Tree.leaves height t).map LeafNode.idx := funext ih
    change (Row.children _).flatMap (Tree.idxs height) =
      ((Row.children _).flatMap (Tree.leaves height)).map LeafNode.idx
    rw [same, map_flatMap]

variable [DecidableEq K]

def along (fo : Fanouts) (terms : Terms K V) :
    (height : Nat) → Bool → Tree K V height → PendingOp K V → Pool → Bool
  | 0 => fun drained leaf op _ => terms.leaf drained leaf op
  | height + 1 => alongInner fo (descendApply fo height) (along fo terms height)
      (Tree.find fo height) terms

/-- What a class of leaves must satisfy for trees over them to be sound. -/
structure LeafRules (fo : Fanouts) (terms : Terms K V) (Q : Nat → K → Prop)
    (leafP : Nat → Nat → Leaf K V → Prop) : Prop where
  wf : ∀ lo hi leaf, leafP lo hi leaf → LeafWF Q lo hi leaf
  fresh : ∀ lo hi idx (e : Entry K V), lo ≤ e.hash ∧ e.hash < hi ∧ Q e.hash e.key →
    leafP lo hi ⟨⟨idx, [e]⟩, []⟩
  sound : Sound Q leafP Leaf.find Leaf.idxs (leafApply fo.leaf)
    (fun drained leaf op _ => terms.leaf drained leaf op)
    (fun drained leaf op _ => countTerms.leaf drained leaf op)
  cut : ∀ lo hi leaf pool, leafP lo hi leaf → fo.leaf ≤ leaf.primary.entries.length →
    leaf.primary.singleClass = false → terms.cut leaf = true →
    OutWF leafP lo hi (splitLeafMixed fo.leaf leaf pool).1
      (some ((splitLeafMixed fo.leaf leaf pool).2.1, (splitLeafMixed fo.leaf leaf pool).2.2.1))
  keeps : ∀ leaf, terms.cut leaf = true → ∀ lo hi, leafP lo hi leaf →
    mixedKeepsChain fo.leaf leaf = true

section Descents
variable {fo : Fanouts} {terms : Terms K V} {Q : Nat → K → Prop}
  {leafP : Nat → Nat → Leaf K V → Prop}

theorem descendApply_sound (rules : LeafRules fo terms Q leafP) : ∀ height : Nat,
    Sound Q (TreeWF Q leafP height) (Tree.find fo height) (Tree.idxs height)
      (descendApply fo height) (along fo terms height) (along fo countTerms height) := by
  intro height
  induction height with
  | zero => exact rules.sound
  | succ height ih => exact innerApply_sound ih terms

end Descents

/-- The terms under which no leaf split parts a chain from its class. -/
def chainTerms (leafFanout : Nat) : Terms K V where
  leaf _ leaf op := splitKeepsChain leafFanout leaf op
  merged _ _ _ := true
  parked _ _ _ := true
  cut leaf := mixedKeepsChain leafFanout leaf

theorem leafApply_sound {leafFanout : Nat} (two : 2 ≤ leafFanout) (Q : Nat → K → Prop) :
    Sound (V := V) Q (LeafWF Q) Leaf.find Leaf.idxs (leafApply leafFanout)
      (fun _ leaf op _ => splitKeepsChain leafFanout leaf op)
      (fun drained leaf op _ => countTerms.leaf drained leaf op) := by
  intro lo hi leaf op pool drained wf range safe
  have good := wf.leafApply_good two range safe pool
  refine ⟨good.wf, good.looks, good.grown, ?_⟩
  intro d counted
  apply good.counts d
  intro isDrained
  subst isDrained
  simpa [countTerms] using counted

theorem leafWF_rules {fo : Fanouts} (two : 2 ≤ fo.leaf) (Q : Nat → K → Prop) :
    LeafRules (V := V) fo (chainTerms fo.leaf) Q (LeafWF Q) where
  wf _ _ _ wf := wf
  fresh _ _ idx _ range := leafWF_single idx range
  sound := leafApply_sound two Q
  cut _ _ _ pool wf full mixed keeps := (splitLeafMixed_wf wf two full mixed keeps pool).1
  keeps _ cuts _ _ _ := cuts

def hashBound : Nat := 2 ^ 64

def Root.WF (Q : Nat → K → Prop) (leafP : Nat → Nat → Leaf K V → Prop) (root : Root K V) : Prop :=
  TreeWF Q leafP root.height 0 hashBound root.tree

def Root.idxs (root : Root K V) : List Nat := Tree.idxs root.height root.tree

def Root.find (fo : Fanouts) (root : Root K V) : Nat → K → Option V :=
  Tree.find fo root.height root.tree

def alongReady (fo : Fanouts) (terms : Terms K V) : Root K V → Pool → Bool
  | ⟨0, tree⟩, _ =>
    let leaf : Leaf K V := tree
    decide (leaf.primary.entries.length < fo.leaf) || leaf.primary.singleClass || terms.cut leaf
  | ⟨height + 1, tree⟩, pool =>
    let node : Inner K V (Tree K V height) := tree
    decide (node.row.tail.length < fo.inner - 1) ||
      alongDrain fo (descendApply fo height) (along fo terms height) node.buffer node.row pool

/-- A condition along a call's work on the tree of its bucket. -/
def alongRoot (fo : Fanouts) (terms : Terms K V) (root : Root K V) (op : PendingOp K V)
    (pool : Pool) : Bool :=
  let ready := ensureRootCapacity fo root pool
  alongReady fo terms root pool && along fo terms ready.1.height false ready.1.tree op ready.2

section Roots
variable {fo : Fanouts} {terms : Terms K V} {Q : Nat → K → Prop}
  {leafP : Nat → Nat → Leaf K V → Prop}

theorem rootOf_good (fo : Fanouts) {height : Nat} {tree : Tree K V height}
    {split : Option (Nat × Tree K V height)}
    (wf : OutWF (TreeWF Q leafP height) 0 hashBound tree split) :
    (Root.of height tree split).WF Q leafP ∧
      (∀ h, (Root.of height tree split).find fo h = outLook (Tree.find fo height) tree split h) ∧
      (Root.of height tree split).idxs = outItems (Tree.idxs height) tree split := by
  cases split with
  | none => exact ⟨wf, fun h => rfl, rfl⟩
  | some half =>
    obtain ⟨p, right⟩ := half
    refine ⟨innerWF_emptied wf, ?_, ?_⟩
    · intro h
      have row : RowP (TreeWF Q leafP height) 0 hashBound ⟨tree, [(p, right)]⟩ := wf
      apply (find_mk row [] h).trans
      exact rowLook_cons tree right p [] h
    · change ([tree, right]).flatMap (Tree.idxs height) = _
      rw [outItems, flatMap_cons, flatMap_cons, flatMap_nil, append_nil]

structure Reshaped (fo : Fanouts) (Q : Nat → K → Prop) (leafP : Nat → Nat → Leaf K V → Prop)
    (root root' : Root K V) (pool pool' : Pool) (counted : Prop) : Prop where
  wf : root'.WF Q leafP
  looks : ∀ h, h < hashBound → root'.find fo h = root.find fo h
  grown : Grown pool pool' root.idxs root'.idxs
  total : counted → pool'.total = pool.total

theorem reshaped_refl {root : Root K V} (wf : root.WF Q leafP) (pool : Pool) (counted : Prop) :
    Reshaped fo Q leafP root root pool pool counted :=
  ⟨wf, fun _ _ => rfl, grown_refl _ _, fun _ => rfl⟩

theorem readyLeaf_good (rules : LeafRules fo terms Q leafP) (two : 2 ≤ fo.leaf) {leaf : Leaf K V}
    (wf : leafP 0 hashBound leaf) {pool : Pool}
    (ok : leaf.primary.entries.length < fo.leaf ∨ leaf.primary.singleClass = true ∨
      terms.cut leaf = true) (counted : Prop) :
    Reshaped fo Q leafP ⟨0, leaf⟩ (ensureRootCapacity fo ⟨0, leaf⟩ pool).1 pool
      (ensureRootCapacity fo ⟨0, leaf⟩ pool).2 counted := by
  unfold ensureRootCapacity
  simp only
  by_cases room : leaf.primary.entries.length < fo.leaf
  · rw [if_pos room]
    apply reshaped_refl
    exact wf
  · rw [if_neg room]
    cases single : leaf.primary.singleClass with
    | true =>
      apply reshaped_refl
      exact wf
    | false =>
      have cuts : terms.cut leaf = true := by
        rcases ok with short | one | cuts
        · exact absurd short room
        · rw [single] at one
          cases one
        · exact cuts
      have full : fo.leaf ≤ leaf.primary.entries.length := by omega
      have wfLeaf := rules.wf 0 hashBound leaf wf
      obtain ⟨outLeaf, whole, grown⟩ := splitLeafMixed_wf wfLeaf two full single
        (rules.keeps leaf cuts 0 hashBound wf) pool
      obtain ⟨wfRoot, looks, idxs⟩ := @rootOf_good K V _ Q leafP fo 0 _ _
        (rules.cut 0 hashBound leaf pool wf full single cuts)
      refine ⟨wfRoot, ?_, grown.perm (List.Perm.of_eq idxs), fun _ => rfl⟩
      intro h _
      exact (looks h).trans (outLook_of_perm wfLeaf outLeaf whole h)

theorem readyInner_good (rules : LeafRules fo terms Q leafP) {height : Nat}
    {node : Inner K V (Tree K V height)} (wf : InnerWF Q (TreeWF Q leafP height) 0 hashBound node)
    {pool : Pool}
    (ok : node.row.tail.length < fo.inner - 1 ∨ alongDrain fo (descendApply fo height)
      (along fo terms height) node.buffer node.row pool = true) :
    Reshaped fo Q leafP ⟨height + 1, node⟩ (ensureRootCapacity fo ⟨height + 1, node⟩ pool).1 pool
      (ensureRootCapacity fo ⟨height + 1, node⟩ pool).2
      (node.row.tail.length < fo.inner - 1 ∨ alongDrain fo (descendApply fo height)
        (along fo countTerms height) node.buffer node.row pool = true) := by
  unfold ensureRootCapacity
  simp only
  by_cases room : node.row.tail.length < fo.inner - 1
  · rw [if_pos room]
    apply reshaped_refl
    exact wf
  · rw [if_neg room]
    have good := splitInternal_good (descendApply_sound rules height) wf (ok.resolve_left room)
    obtain ⟨wfRoot, looks, idxs⟩ := @rootOf_good K V _ Q leafP fo (height + 1) _ _
      (outWF_emptied good.wf)
    refine ⟨wfRoot, ?_, ?_, ?_⟩
    · intro h below
      apply (looks h).trans
      apply (outLook_emptied good.wf h).trans
      rw [good.looks h (Nat.zero_le _) below]
      exact (Inner.find_eq wf.row h).symm
    · apply (good.grown.trans (grown_allocFor _ _ _)).perm
      exact List.Perm.of_eq (idxs.trans (outItems_emptied _ _))
    · intro counted
      exact (allocFor_total _ _).trans (good.total (counted.resolve_left room))

theorem ensureRootCapacity_good (rules : LeafRules fo terms Q leafP) (two : 2 ≤ fo.leaf)
    {root : Root K V} (wf : root.WF Q leafP) {pool : Pool}
    (ok : alongReady fo terms root pool = true) :
    Reshaped fo Q leafP root (ensureRootCapacity fo root pool).1 pool
      (ensureRootCapacity fo root pool).2 (alongReady fo countTerms root pool = true) := by
  obtain ⟨height, tree⟩ := root
  cases height with
  | zero =>
    apply readyLeaf_good rules two wf
    simpa [alongReady, or_assoc] using ok
  | succ height =>
    have good := readyInner_good rules wf (by simpa [alongReady] using ok)
    refine ⟨good.wf, good.looks, good.grown, ?_⟩
    intro counted
    apply good.total
    simpa [alongReady] using counted

theorem rootApply_good (rules : LeafRules fo terms Q leafP) (two : 2 ≤ fo.leaf)
    {root : Root K V} (wf : root.WF Q leafP) {op : PendingOp K V}
    (range : op.hash < hashBound ∧ Q op.hash op.key) {pool : Pool}
    (ok : alongRoot fo terms root op pool = true) :
    (rootApply fo root op pool).1.WF Q leafP ∧
      (∀ h, h < hashBound →
        (rootApply fo root op pool).1.find fo h = op.effect h (root.find fo h)) ∧
      Grown pool (rootApply fo root op pool).2.2 root.idxs (rootApply fo root op pool).1.idxs ∧
      (alongRoot fo countTerms root op pool = true →
        (rootApply fo root op pool).2.2.total = pool.total ∧
          (rootApply fo root op pool).2.1 = op.effective (root.find fo op.hash op.key)) := by
  unfold alongRoot at ok ⊢
  simp only [Bool.and_eq_true] at ok ⊢
  have ready := ensureRootCapacity_good rules two wf ok.1
  unfold rootApply
  generalize ensureRootCapacity fo root pool = reshaped at ok ready ⊢
  obtain ⟨⟨height, tree⟩, pool'⟩ := reshaped
  have good := descendApply_sound rules height 0 hashBound tree op pool' false ready.wf
    ⟨Nat.zero_le _, range.1, range.2⟩ ok.2
  obtain ⟨wfRoot, looks, idxs⟩ := rootOf_good fo good.wf
  have current := ready.looks op.hash range.1
  refine ⟨wfRoot, ?_, ?_, ?_⟩
  · intro h below
    rw [looks, good.looks h (Nat.zero_le _) below, ← ready.looks h below]
    rfl
  · apply (ready.grown.trans good.grown).trans
    exact (grown_allocFor _ _ _).perm (List.Perm.of_eq idxs)
  · intro counted
    obtain ⟨total, inserted⟩ := good.counts false counted.2
    rw [← current]
    exact ⟨(allocFor_total _ _).trans (total.trans (ready.total counted.1)), inserted⟩

end Roots

end Micron.BTree

/-!
## Draining a whole tree

After `drain_recursive` the leaves, with those that a split has detached, hold
exactly the bindings the tree had.  If no drain splits its node, nothing is
detached and the tree itself still finds them.
-/

namespace Micron.BTree

open Micron.Lib

variable {K V α : Type}

def within (lo hi h : Nat) : Prop := lo ≤ h ∧ h < hi

/-- The nodes have one entry for every binding with a hash in `S`, and no other. -/
structure LeavesHold (Q : Nat → K → Prop) (S : Nat → Prop) (leaves : List (LeafNode K V))
    (look : Nat → K → Option V) : Prop where
  ranged : ∀ e, e ∈ leaves.flatMap LeafNode.entries → S e.hash ∧ Q e.hash e.key
  distinct : Distinct (leaves.flatMap LeafNode.entries)
  looks : ∀ h, S h → ∀ k v,
    look h k = some v ↔ (⟨h, k, v⟩ : Entry K V) ∈ leaves.flatMap LeafNode.entries

section Holding
variable {Q : Nat → K → Prop} {S T : Nat → Prop} {leaves leaves' : List (LeafNode K V)}
  {look look' : Nat → K → Option V}

theorem LeavesHold.perm (holds : LeavesHold Q S leaves look) (same : leaves'.Perm leaves) :
    LeavesHold Q S leaves' look := by
  have entries := same.flatMap_right LeafNode.entries
  refine ⟨?_, ?_, ?_⟩
  · intro e member
    exact holds.ranged e (entries.mem_iff.mp member)
  · exact (entries.map Entry.ident).nodup_iff.mpr holds.distinct
  · intro h inside k v
    rw [entries.mem_iff]
    exact holds.looks h inside k v

theorem LeavesHold.congr (holds : LeavesHold Q S leaves look)
    (same : ∀ h, S h → look' h = look h) : LeavesHold Q S leaves look' := by
  refine ⟨holds.ranged, holds.distinct, ?_⟩
  intro h inside k v
  rw [same h inside]
  exact holds.looks h inside k v

theorem LeavesHold.append {S' : Nat → Prop} {whole : Nat → K → Option V}
    (left : LeavesHold Q S leaves look) (right : LeavesHold Q S' leaves' look')
    (apart : ∀ h, S h → ¬ S' h) (both : ∀ h, T h ↔ S h ∨ S' h)
    (onLeft : ∀ h, S h → whole h = look h) (onRight : ∀ h, S' h → whole h = look' h) :
    LeavesHold Q T (leaves ++ leaves') whole := by
  refine ⟨?_, ?_, ?_⟩
  · intro e member
    rw [List.flatMap_append] at member
    rcases List.mem_append.mp member with inLeft | inRight
    · exact ⟨(both _).mpr (.inl (left.ranged e inLeft).1), (left.ranged e inLeft).2⟩
    · exact ⟨(both _).mpr (.inr (right.ranged e inRight).1), (right.ranged e inRight).2⟩
  · unfold Distinct
    rw [List.flatMap_append, List.map_append]
    apply left.distinct.append right.distinct
    intro ident inLeft inRight
    obtain ⟨e, member, rfl⟩ := List.mem_map.mp inLeft
    obtain ⟨e', member', same⟩ := List.mem_map.mp inRight
    have hash : e'.hash = e.hash := congrArg Prod.fst same
    have inside := (right.ranged e' member').1
    rw [hash] at inside
    exact apart e.hash (left.ranged e member).1 inside
  · intro h inside k v
    rw [List.flatMap_append, List.mem_append]
    rcases (both h).mp inside with inLeft | inRight
    · rw [onLeft h inLeft, left.looks h inLeft]
      constructor
      · intro member
        exact .inl member
      · intro member
        rcases member with here | there
        · exact here
        · exact absurd (right.ranged _ there).1 (apart h inLeft)
    · rw [onRight h inRight, right.looks h inRight]
      constructor
      · intro member
        exact .inr member
      · intro member
        rcases member with here | there
        · exact absurd inRight (apart h (left.ranged _ here).1)
        · exact there

theorem LeavesHold.append_ranges {lo p hi : Nat} {whole : Nat → K → Option V} (order : lo ≤ p)
    (top : p ≤ hi) (left : LeavesHold Q (within lo p) leaves look)
    (right : LeavesHold Q (within p hi) leaves' look')
    (looks : ∀ h, within lo hi h → whole h = if p ≤ h then look' h else look h) :
    LeavesHold Q (within lo hi) (leaves ++ leaves') whole := by
  apply left.append right
  · intro h below above
    exact absurd below.2 (Nat.not_lt.mpr above.1)
  · intro h
    unfold within
    omega
  · intro h inside
    rw [looks h ⟨inside.1, lt_of_lt_of_le inside.2 top⟩, if_neg (Nat.not_le.mpr inside.2)]
  · intro h inside
    rw [looks h ⟨le_trans order inside.1, inside.2⟩, if_pos inside.1]

theorem LeafWF.leavesHold [DecidableEq K] {lo hi : Nat} {leaf : Leaf K V}
    (wf : LeafWF Q lo hi leaf) : LeavesHold Q (within lo hi) leaf.nodes leaf.find := by
  refine ⟨?_, wf.distinct, ?_⟩
  · intro e member
    obtain ⟨above, below, good⟩ := wf.ranged e member
    exact ⟨⟨above, below⟩, good⟩
  · intro h _ k v
    rw [leaf_find_eq]
    exact lookupIn_eq_some_iff wf.distinct

end Holding

section Along
variable [DecidableEq K] (drain : α → Pool → α × List (LeafNode K V) × Pool)
  (ask : α → Pool → Bool)

omit [DecidableEq K] in
def alongDrainRow (block : Nat) : α → List (Nat × α) → Pool → Bool
  | c, [], pool => ask c pool
  | c, (_, c') :: rest, pool =>
    ask c pool && alongDrainRow block c' rest ((drain c pool).2.2.readAt block)

omit [DecidableEq K] in
def alongChildren (row : Row α) (pool : Pool) : Bool :=
  alongDrainRow drain ask pool.slab.moves row.head row.tail pool

def alongFlush (fo : Fanouts) (terms : Terms K V) : (height : Nat) → Tree K V height → Pool → Bool
  | 0, _, _ => true
  | height + 1, tree, pool =>
    let node : Inner K V (Tree K V height) := tree
    let drained := drainInternalBuffer fo (descendApply fo height) node pool
    let left := drainChildren (drainRecursive fo height) drained.row drained.pool
    alongDrain fo (descendApply fo height) (along fo terms height) node.buffer node.row pool &&
      (alongChildren (drainRecursive fo height) (alongFlush fo terms height) drained.row
          drained.pool &&
        match drained.split with
        | none => true
        | some (_, half) =>
          alongChildren (drainRecursive fo height) (alongFlush fo terms height) half left.2.2)

def staysWhole (fo : Fanouts) : (height : Nat) → Tree K V height → Pool → Bool
  | 0, _, _ => true
  | height + 1, tree, pool =>
    let node : Inner K V (Tree K V height) := tree
    let drained := drainInternalBuffer fo (descendApply fo height) node pool
    drained.split.isNone &&
      alongChildren (drainRecursive fo height) (staysWhole fo height) drained.row drained.pool

end Along

/-- What draining a tree, or a row of them, has to achieve. -/
structure DrainGood (Q : Nat → K → Prop) (P : Nat → Nat → α → Prop) (look : α → Nat → K → Option V)
    (leaves : α → List (LeafNode K V)) (lo hi : Nat) (tree : α) (pool : Pool) (whole : Prop)
    (drained : α × List (LeafNode K V) × Pool) : Prop where
  holds : LeavesHold Q (within lo hi) (leaves drained.1 ++ drained.2.1) (look tree)
  grown : Grown pool drained.2.2 ((leaves tree).map LeafNode.idx)
    ((leaves drained.1 ++ drained.2.1).map LeafNode.idx)
  whole : whole → P lo hi drained.1 ∧ (∀ h, lo ≤ h → h < hi → look drained.1 h = look tree h) ∧
    drained.2.1 = []

section Rows
variable {Q : Nat → K → Prop} {P : Nat → Nat → α → Prop} {look : α → Nat → K → Option V}
  {leaves : α → List (LeafNode K V)} {drain : α → Pool → α × List (LeafNode K V) × Pool}
  {safe whole : α → Pool → Bool}

theorem rowItems_cons {β γ : Type} (items : β → List γ) (c c' : β) (p : Nat)
    (rest : List (Nat × β)) :
    rowItems items ⟨c, (p, c') :: rest⟩ = items c ++ rowItems items ⟨c', rest⟩ := by
  simp [rowItems, Row.children]

theorem perm_regroup {β : Type} (a b c d : List β) :
    (a ++ b ++ (c ++ d)).Perm (a ++ c ++ (b ++ d)) := by
  rw [List.append_assoc, List.append_assoc]
  exact (List.perm_append_comm_assoc _ _ _).append_left _

theorem drainRow_good (block : Nat)
    (sound : ∀ lo hi tree pool, P lo hi tree → safe tree pool = true →
      DrainGood Q P look leaves lo hi tree pool (whole tree pool = true) (drain tree pool)) :
    ∀ (tail : List (Nat × α)) (lo hi : Nat) (c : α) (pool : Pool), RowWF P lo hi c tail →
      alongDrainRow drain safe block c tail pool = true →
      DrainGood Q (RowP P) (rowLook look) (rowItems leaves) lo hi ⟨c, tail⟩ pool
        (alongDrainRow drain whole block c tail pool = true) (drainRow drain block c tail pool) := by
  intro tail
  induction tail with
  | nil =>
    intro lo hi c pool wf ok
    have good := sound lo hi c pool wf ok
    have single : ∀ t : α, rowItems leaves ⟨t, []⟩ = leaves t := by
      intro t
      simp [rowItems, Row.children]
    refine ⟨?_, ?_, good.whole⟩
    · change LeavesHold Q (within lo hi) (rowItems leaves ⟨(drain c pool).1, []⟩ ++ _) _
      rw [single]
      exact good.holds
    · change Grown _ _ _ ((rowItems leaves ⟨(drain c pool).1, []⟩ ++ _).map _)
      rw [single, single]
      exact good.grown
  | cons first rest ih =>
    intro lo hi c pool wf ok
    obtain ⟨p, c'⟩ := first
    obtain ⟨order, top, wfHere, wfLater⟩ := wf
    rw [alongDrainRow, Bool.and_eq_true] at ok
    have here := sound lo p c pool wfHere ok.1
    have later := ih p hi c' ((drain c pool).2.2.readAt block) wfLater ok.2
    rw [drainRow, alongDrainRow, Bool.and_eq_true]
    generalize drain c pool = first at *
    obtain ⟨left, detached, pool'⟩ := first
    generalize drainRow drain block c' rest (pool'.readAt block) = others at *
    obtain ⟨row, detached', pool''⟩ := others
    have same := perm_regroup (leaves left) (rowItems leaves row) detached detached'
    refine ⟨?_, ?_, ?_⟩
    · simp only [rowItems_cons]
      refine (LeavesHold.append_ranges order top here.holds later.holds ?_).perm same
      intro h _
      exact rowLook_cons c c' p rest h
    · simp only [rowItems_cons, List.map_append] at *
      have grownHere := here.grown.frame [] ((rowItems leaves ⟨c', rest⟩).map LeafNode.idx)
      have grownLater := later.grown.frame
        ((leaves left).map LeafNode.idx ++ detached.map LeafNode.idx) []
      simp only [List.append_nil, List.nil_append, List.map_append] at grownHere grownLater
      apply (grownHere.trans grownLater).perm
      have moved := same.map LeafNode.idx
      simpa only [List.map_append] using moved
    · intro all
      obtain ⟨wfLeft, looksLeft, noneLeft⟩ := here.whole all.1
      obtain ⟨wfRow, looksRow, noneRow⟩ := later.whole all.2
      refine ⟨⟨order, top, wfLeft, wfRow⟩, ?_, ?_⟩
      · intro h above below
        rw [rowLook_cons, rowLook_cons]
        by_cases side : p ≤ h
        · rw [if_pos side, if_pos side]
          exact looksRow h side below
        · rw [if_neg side, if_neg side]
          exact looksLeft h above (by omega)
      · rw [noneLeft, noneRow]
        rfl

theorem drainChildren_good
    (sound : ∀ lo hi tree pool, P lo hi tree → safe tree pool = true →
      DrainGood Q P look leaves lo hi tree pool (whole tree pool = true) (drain tree pool))
    {row : Row α} {lo hi : Nat} {pool : Pool} (wf : RowP P lo hi row)
    (ok : alongChildren drain safe row pool = true) :
    DrainGood Q (RowP P) (rowLook look) (rowItems leaves) lo hi row pool
      (alongChildren drain whole row pool = true) (drainChildren drain row pool) :=
  drainRow_good pool.slab.moves sound row.tail lo hi row.head pool wf ok

end Rows

/-! ## Trees -/

section Trees
variable [DecidableEq K] {fo : Fanouts} {terms : Terms K V} {Q : Nat → K → Prop}
  {leafP : Nat → Nat → Leaf K V → Prop}

omit [DecidableEq K] in
theorem rowItems_idxs (height : Nat) (row : Row (Tree K V height)) :
    rowItems (Tree.idxs height) row = (rowItems (Tree.leaves height) row).map LeafNode.idx :=
  Tree.idxs_eq (height + 1) (⟨row, []⟩ : Inner K V (Tree K V height))

theorem drainRecursive_good (rules : LeafRules fo terms Q leafP) :
    ∀ (height lo hi : Nat) (tree : Tree K V height) (pool : Pool),
      TreeWF Q leafP height lo hi tree → alongFlush fo terms height tree pool = true →
      DrainGood Q (TreeWF Q leafP height) (Tree.find fo height) (Tree.leaves height) lo hi tree pool
        (staysWhole fo height tree pool = true) (drainRecursive fo height tree pool) := by
  intro height
  induction height with
  | zero =>
    intro lo hi tree pool wf _
    refine ⟨?_, ?_, fun _ => ⟨wf, fun _ _ _ => rfl, rfl⟩⟩
    · rw [drainRecursive, List.append_nil]
      exact (rules.wf lo hi tree wf).leavesHold
    · rw [drainRecursive, List.append_nil]
      exact grown_refl _ _
  | succ height ih =>
    intro lo hi tree pool wf ok
    have wfNode : InnerWF Q (TreeWF Q leafP height) lo hi tree := wf
    rw [alongFlush, Bool.and_eq_true, Bool.and_eq_true] at ok
    obtain ⟨okDrain, okLeft, okRight⟩ := ok
    have after := drainInternalBuffer_good (descendApply_sound rules height) wfNode okDrain
    rw [drainRecursive, staysWhole]
    generalize drainInternalBuffer fo (descendApply fo height) tree pool = drained at *
    obtain ⟨row, split, pool'⟩ := drained
    have before : ∀ h, lo ≤ h → h < hi → Tree.find fo (height + 1) tree h =
        outLook (rowLook (Tree.find fo height)) row split h := by
      intro h above below
      exact (Inner.find_eq wfNode.row h).trans (after.looks h above below).symm
    have grown := after.grown
    cases split with
    | none =>
      have left := drainChildren_good ih after.wf okLeft
      refine ⟨left.holds.congr fun h inside => before h inside.1 inside.2, ?_, ?_⟩
      · rw [outItems, rowItems_idxs, rowItems_idxs] at grown
        exact grown.trans left.grown
      · intro whole
        obtain ⟨wfRow, looks, noneDetached⟩ := left.whole whole
        refine ⟨innerWF_emptied wfRow, ?_, noneDetached⟩
        intro h above below
        rw [before h above below]
        exact (find_mk wfRow [] h).trans (looks h above below)
    | some half =>
      obtain ⟨p, half⟩ := half
      obtain ⟨order, top, wfLeft, wfRight⟩ := after.wf
      have left := drainChildren_good ih wfLeft okLeft
      generalize drainChildren (drainRecursive fo height) row pool' = drainedLeft at *
      obtain ⟨leftRow, detached, leftPool⟩ := drainedLeft
      have right := drainChildren_good ih wfRight okRight
      simp only
      generalize drainChildren (drainRecursive fo height) half leftPool = drainedRight at *
      obtain ⟨rightRow, detached', rightPool⟩ := drainedRight
      have same : (rowItems (Tree.leaves height) leftRow ++
          (detached ++ (detached' ++ rowItems (Tree.leaves height) rightRow))).Perm
          (rowItems (Tree.leaves height) leftRow ++ detached ++
            (rowItems (Tree.leaves height) rightRow ++ detached')) := by
        rw [← List.append_assoc]
        exact List.perm_append_comm.append_left _
      refine ⟨?_, ?_, ?_⟩
      · refine (LeavesHold.append_ranges order top left.holds right.holds ?_).perm same
        intro h inside
        exact before h inside.1 inside.2
      · rw [outItems, rowItems_idxs, rowItems_idxs, rowItems_idxs] at grown
        have grownLeft := left.grown.frame []
          ((rowItems (Tree.leaves height) half).map LeafNode.idx)
        have grownRight := right.grown.frame
          ((rowItems (Tree.leaves height) leftRow ++ detached).map LeafNode.idx) []
        simp only [List.append_nil, List.nil_append] at grownLeft grownRight
        apply ((grown.trans grownLeft).trans grownRight).perm
        rw [← List.map_append]
        exact same.map LeafNode.idx
      · intro whole
        cases whole

end Trees

end Micron.BTree
