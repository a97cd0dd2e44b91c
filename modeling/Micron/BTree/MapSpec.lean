import Micron.Lib.Routing
import Micron.BTree.TreeSpec

/-!
# What the calls do to the map

A bucket's tree holds the bindings whose hash the mask sends there.  The leaf
list names every leaf node once.  An insert or an erase changes one bucket; a
flush goes through all of them; a rehash drains everything and puts the entries
of the leaf list into an empty map.
-/

set_option autoImplicit false

namespace Micron.BTree

open Micron.Lib List Function

variable {K V : Type}

/-- The leaf list names each of these leaf indices once, and none is handed out
again. -/
structure Listed (pool : Pool) (idxs : List Nat) : Prop where
  all : pool.leafList.Perm idxs
  once : pool.leafList.Nodup
  used : ∀ idx, idx ∈ pool.leafList → idx < pool.next

theorem Listed.grow {pool pool' : Pool} {idxs idxs' : List Nat} (listed : Listed pool idxs)
    (grown : Grown pool pool' idxs idxs') : Listed pool' idxs' := by
  obtain ⟨count, next, added, more⟩ := grown
  refine ⟨?_, ?_, ?_⟩
  · exact (more.trans (listed.all.append_left _)).trans added.symm
  · apply more.nodup_iff.mpr
    refine List.Nodup.append nodup_range' listed.once ?_
    intro idx new old
    have low := (mem_range'_1.mp new).1
    have high := listed.used idx old
    omega
  · intro idx member
    rcases mem_append.mp (more.mem_iff.mp member) with new | old
    · have bounds := mem_range'_1.mp new
      omega
    · have bound := listed.used idx old
      omega

theorem Listed.perm {pool : Pool} {idxs idxs' : List Nat} (listed : Listed pool idxs)
    (same : idxs.Perm idxs') : Listed pool idxs' :=
  ⟨listed.all.trans same, listed.once, listed.used⟩

/-- Each index of a list of distinct nodes is looked up as its node. -/
theorem filterMap_idx : ∀ {nodes all : List (LeafNode K V)}, (all.map LeafNode.idx).Nodup →
    (∀ node, node ∈ nodes → node ∈ all) →
    (nodes.map LeafNode.idx).filterMap (fun idx => all.find? fun node => node.idx == idx) =
      nodes := by
  intro nodes all once
  induction nodes with
  | nil =>
    intro _
    rfl
  | cons node rest ih =>
    intro inside
    have found : (all.find? fun x => x.idx == node.idx) = some node := by
      cases hit : all.find? fun x => x.idx == node.idx with
      | none =>
        have missed := find?_eq_none.mp hit node (inside node mem_cons_self)
        simp at missed
      | some x =>
        have same : x.idx = node.idx := by simpa using find?_some hit
        rw [inj_on_of_nodup_map once (mem_of_find?_eq_some hit)
          (inside node mem_cons_self) same]
    simp only [map_cons, filterMap_cons, found]
    rw [ih fun x member => inside x (mem_cons_of_mem _ member)]

theorem leafWalk_perm {m : BTreeMap K V} (listed : Listed m.pool (m.allLeaves.map LeafNode.idx)) :
    m.leafWalk.Perm m.allLeaves := by
  have once : (m.allLeaves.map LeafNode.idx).Nodup := listed.all.nodup_iff.mp listed.once
  have walked := listed.all.filterMap fun idx => m.allLeaves.find? fun node => node.idx == idx
  rw [filterMap_idx once fun _ member => member] at walked
  exact walked

def inBucket (nBuckets : Nat) (U : Nat → K → Prop) (b h : Nat) (k : K) : Prop :=
  h &&& (nBuckets - 1) = b ∧ U h k

theorem bucketOf_lt {m : BTreeMap K V} (positive : 0 < m.nBuckets) (h : Nat) :
    m.bucketOf h < m.nBuckets := by
  have bound : h &&& (m.nBuckets - 1) ≤ m.nBuckets - 1 := Nat.and_le_right
  unfold BTreeMap.bucketOf
  omega

structure MapWF (U : Nat → K → Prop) (L : (Nat → K → Prop) → Nat → Nat → Leaf K V → Prop)
    (m : BTreeMap K V) : Prop where
  positive : 0 < m.nBuckets
  trees : ∀ b root, m.buckets b = some root →
    root.WF (inBucket m.nBuckets U b) (L (inBucket m.nBuckets U b))
  attached : m.detached = []
  listed : Listed m.pool (m.allLeaves.map LeafNode.idx)

/-- The leaf class `L` may be used for every bucket. -/
structure MapRules [DecidableEq K] (fo : Fanouts) (terms : Terms K V) (U : Nat → K → Prop)
    (L : (Nat → K → Prop) → Nat → Nat → Leaf K V → Prop) : Prop where
  two : 2 ≤ fo.leaf
  leaves : ∀ nBuckets b,
    LeafRules fo terms (inBucket nBuckets U b) (L (inBucket nBuckets U b))

section Replacing
variable {m : BTreeMap K V} {b : Nat}

theorem allLeaves_replace (m : BTreeMap K V) (inside : b < m.nBuckets) :
    ∃ before after, m.allLeaves = before ++ rootLeaves (m.buckets b) ++ after ∧
      ∀ root detached pool,
        (BTreeMap.mk (update m.buckets b (some root)) m.nBuckets
          (m.detached ++ detached) pool).allLeaves =
          before ++ rootLeaves (some root) ++ after ++ detached := by
  obtain ⟨before, after, whole, replaced⟩ := flatMap_update nodup_range
    (mem_range.mpr inside) fun c => rootLeaves (m.buckets c)
  refine ⟨before, after ++ m.detached, ?_, ?_⟩
  · unfold BTreeMap.allLeaves
    rw [whole, append_assoc]
  · intro root detached pool
    have pieces : (fun c => rootLeaves (update m.buckets b (some root) c)) =
        update (fun c => rootLeaves (m.buckets c)) b (rootLeaves (some root)) := by
      funext c
      exact Function.apply_update (fun _ => rootLeaves) m.buckets b (some root) c
    unfold BTreeMap.allLeaves
    simp only [pieces, replaced, append_assoc]

theorem listed_replace (listed : Listed m.pool (m.allLeaves.map LeafNode.idx))
    (inside : b < m.nBuckets) {root : Root K V} {detached : List (LeafNode K V)} {pool pool' : Pool}
    (grown : Grown m.pool pool ((rootLeaves (m.buckets b)).map LeafNode.idx)
      ((rootLeaves (some root) ++ detached).map LeafNode.idx)) :
    Listed pool ((BTreeMap.mk (update m.buckets b (some root)) m.nBuckets
      (m.detached ++ detached) pool').allLeaves.map LeafNode.idx) := by
  obtain ⟨before, after, whole, replaced⟩ := allLeaves_replace m inside
  rw [whole, map_append, map_append] at listed
  apply (listed.grow (grown.frame _ _)).perm
  rw [replaced, ← map_append, ← map_append]
  apply List.Perm.map
  rw [append_assoc, append_assoc, append_assoc, append_assoc]
  exact (perm_append_comm.append_left _).append_left _

theorem MapWF.replace {U : Nat → K → Prop} {L : (Nat → K → Prop) → Nat → Nat → Leaf K V → Prop}
    (wf : MapWF U L m) (inside : b < m.nBuckets) {root : Root K V} {pool : Pool}
    (wfRoot : root.WF (inBucket m.nBuckets U b) (L (inBucket m.nBuckets U b)))
    (grown : Grown m.pool pool ((rootLeaves (m.buckets b)).map LeafNode.idx) root.idxs) :
    MapWF U L { m with buckets := update m.buckets b (some root), pool := pool } := by
  refine ⟨wf.positive, ?_, wf.attached, ?_⟩
  · intro c root' at_c
    simp only at at_c
    by_cases same : c = b
    · subst same
      rw [update_self] at at_c
      cases at_c
      exact wfRoot
    · rw [update_of_ne same] at at_c
      exact wf.trees c root' at_c
  · have all := @listed_replace K V m b wf.listed inside root [] pool pool (by
      rw [append_nil]
      exact grown.perm (List.Perm.of_eq (Tree.idxs_eq root.height root.tree).symm))
    rw [append_nil] at all
    exact all

theorem find_replace [DecidableEq K] (fo : Fanouts) (m : BTreeMap K V) (b : Nat) (root : Root K V)
    (detached : List (LeafNode K V)) (pool : Pool) (h : Nat) :
    (BTreeMap.mk (update m.buckets b (some root)) m.nBuckets detached pool).find fo h =
      if m.bucketOf h = b then root.find fo h else m.find fo h := by
  have place : (BTreeMap.mk (update m.buckets b (some root)) m.nBuckets detached
      pool).bucketOf h = m.bucketOf h := rfl
  unfold BTreeMap.find
  rw [place]
  dsimp only
  by_cases same : m.bucketOf h = b
  · rw [if_pos same, same, update_self]
    rfl
  · rw [if_neg same]
    cases at_h : m.buckets (m.bucketOf h) with
    | none => simp [update_of_ne same, at_h]
    | some other => simp [update_of_ne same, at_h]

end Replacing

section Calls
variable [DecidableEq K] {fo : Fanouts} {terms : Terms K V} {U : Nat → K → Prop}
  {L : (Nat → K → Prop) → Nat → Nat → Leaf K V → Prop} {m : BTreeMap K V}

/-- A condition along an insert behind `maybe_rehash`, or along an erase. -/
def alongPlace (fo : Fanouts) (terms : Terms K V) (m : BTreeMap K V) (op : PendingOp K V) : Bool :=
  match m.buckets (m.bucketOf op.hash) with
  | none => true
  | some root => alongRoot fo terms root op m.pool

def tally (op : PendingOp K V) (changed : Bool) (total : Nat) : Nat :=
  if changed then (if op.value.isSome then total + 1 else total - 1) else total

structure CallGood (fo : Fanouts) (U : Nat → K → Prop)
    (L : (Nat → K → Prop) → Nat → Nat → Leaf K V → Prop) (m : BTreeMap K V) (op : PendingOp K V)
    (counted : Prop) (after : BTreeMap K V × Bool) : Prop where
  wf : MapWF U L after.1
  looks : ∀ h, h < hashBound → after.1.find fo h = op.effect h (m.find fo h)
  counts : counted → after.2 = op.effective (m.find fo op.hash op.key) ∧
    after.1.pool.total = tally op after.2 m.pool.total

theorem find_of_bucket {b h : Nat} (here : m.bucketOf h = b) :
    m.find fo h = match m.buckets b with
      | none => fun _ => none
      | some root => root.find fo h := by
  unfold BTreeMap.find
  rw [here]
  cases m.buckets b <;> rfl

theorem applied_good (rules : MapRules fo terms U L) (wf : MapWF U L m) {op : PendingOp K V}
    (range : op.hash < hashBound ∧ U op.hash op.key) {root : Root K V}
    (here : m.buckets (m.bucketOf op.hash) = some root)
    (ok : alongRoot fo terms root op m.pool = true) :
    CallGood fo U L m op (alongRoot fo countTerms root op m.pool = true)
      (let applied := rootApply fo root op m.pool
       ({ m with
          buckets := update m.buckets (m.bucketOf op.hash) (some applied.1)
          pool := { applied.2.2 with total := tally op applied.2.1 applied.2.2.total } },
        applied.2.1)) := by
  have inside := bucketOf_lt wf.positive op.hash
  obtain ⟨wfRoot, looks, grown, counts⟩ := rootApply_good (rules.leaves m.nBuckets _) rules.two
    (wf.trees _ root here) ⟨range.1, rfl, range.2⟩ ok
  refine ⟨?_, ?_, ?_⟩
  · apply wf.replace inside wfRoot
    rw [here]
    obtain ⟨count, next, added, listed⟩ := grown
    refine ⟨count, next, ?_, listed⟩
    rw [Root.idxs, Root.idxs, Tree.idxs_eq root.height] at added
    exact added
  · intro h below
    rw [find_replace]
    by_cases same : m.bucketOf h = m.bucketOf op.hash
    · rw [if_pos same, looks h below, find_of_bucket same, here]
    · rw [if_neg same, effect_of_ne]
      intro equal
      exact same (congrArg m.bucketOf equal.symm)
  · intro counted
    obtain ⟨total, changed⟩ := counts counted
    rw [find_of_bucket rfl, here]
    refine ⟨changed, ?_⟩
    simp only [total]

theorem place_good (rules : MapRules fo terms U L) (wf : MapWF U L m) {h : Nat} {k : K} {v : V}
    (range : h < hashBound ∧ U h k) (ok : alongPlace fo terms m ⟨h, k, some v⟩ = true) :
    CallGood fo U L m ⟨h, k, some v⟩ (alongPlace fo countTerms m ⟨h, k, some v⟩ = true)
      (m.place fo h k v) := by
  unfold alongPlace at ok ⊢
  unfold BTreeMap.place
  cases here : m.buckets (m.bucketOf h) with
  | some root =>
    rw [here] at ok
    exact applied_good rules wf range here ok
  | none =>
    have leaf := (rules.leaves m.nBuckets (m.bucketOf h)).fresh 0 hashBound m.pool.next ⟨h, k, v⟩
      ⟨Nat.zero_le _, range.1, rfl, range.2⟩
    refine ⟨?_, ?_, ?_⟩
    · refine wf.replace (bucketOf_lt wf.positive h) ?_ ?_
      · exact leaf
      · rw [here]
        exact ⟨1, rfl, List.Perm.refl _, List.Perm.refl _⟩
    · intro g _
      rw [find_replace]
      by_cases same : m.bucketOf g = m.bucketOf h
      · rw [if_pos same, find_of_bucket same, here]
        funext k'
        rw [effect_apply]
        change Leaf.find _ g k' = _
        rw [leaf_find_eq]
        cases hit : (⟨h, k, v⟩ : Entry K V).isFor g k' with
        | true =>
          have hitOp : (⟨h, k, some v⟩ : PendingOp K V).isFor g k' = true := hit
          simp [Leaf.entries, Leaf.nodes, lookupIn, hit, hitOp]
        | false =>
          have hitOp : (⟨h, k, some v⟩ : PendingOp K V).isFor g k' = false := hit
          simp [Leaf.entries, Leaf.nodes, lookupIn, hit, hitOp]
      · rw [if_neg same, effect_of_ne]
        intro equal
        exact same (congrArg m.bucketOf equal.symm)
    · intro _
      rw [find_of_bucket rfl, here]
      exact ⟨rfl, rfl⟩

theorem eraseImpl_good (rules : MapRules fo terms U L) (wf : MapWF U L m) {h : Nat} {k : K}
    (range : h < hashBound ∧ U h k) (ok : alongPlace fo terms m ⟨h, k, none⟩ = true) :
    CallGood fo U L m ⟨h, k, none⟩ (alongPlace fo countTerms m ⟨h, k, none⟩ = true)
      (m.eraseImpl fo h k) := by
  unfold alongPlace at ok ⊢
  unfold BTreeMap.eraseImpl
  cases here : m.buckets (m.bucketOf h) with
  | some root =>
    rw [here] at ok
    exact applied_good rules wf range here ok
  | none =>
    refine ⟨wf, ?_, ?_⟩
    · intro g _
      by_cases same : h = g
      · subst same
        rw [find_of_bucket rfl, here]
        funext k'
        rw [effect_apply]
        simp
      · exact (effect_of_ne same _).symm
    · intro _
      rw [find_of_bucket rfl, here]
      exact ⟨rfl, rfl⟩

end Calls

end Micron.BTree
