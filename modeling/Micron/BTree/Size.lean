import Micron.BTree.InjectiveHash

/-!
# Sizes and answers

An operation that is parked in a buffer is counted and answered before it is
known whether it changes anything, and it is corrected when the buffer drains.
A run in which nothing is parked or drained that changes nothing counts right
at every step; where an erase of an absent key is parked, its answer and the
size are wrong.
-/

set_option autoImplicit false

namespace Micron.BTree

open Micron.Lib List Function Bool

variable {K V : Type} [DecidableEq K]

def BTreeMap.keyed (fo : Fanouts) (hash : K → UInt64) (m : BTreeMap K V) (k : K) : Option V :=
  m.find fo (hash k).toNat k

structure Counted (fo : Fanouts) (hash : K → UInt64) (m : BTreeMap K V) : Prop where
  finite : {k | (m.keyed fo hash k).isSome}.Finite
  size : m.size = keyCount (m.keyed fo hash)

def hashed (hash : K → UInt64) (h : Nat) (k : K) : Prop := h = (hash k).toNat

section Steps
variable {fo : Fanouts} {hash : K → UInt64} {m m' : BTreeMap K V}

theorem keyed_effect {op : PendingOp K V} (goes : hashed hash op.hash op.key)
    (looks : ∀ h, h < hashBound → m'.find fo h = op.effect h (m.find fo h)) :
    m'.keyed fo hash = update (m.keyed fo hash) op.key op.value := by
  funext k
  unfold BTreeMap.keyed
  rw [looks _ (toNat_lt_hashBound _), effect_apply]
  by_cases same : k = op.key
  · have hit : op.isFor (hash k).toNat k = true := by
      rw [pendingIsFor_iff, PendingOp.ident, same, goes]
    rw [if_pos hit, same, update_self]
  · have miss : op.isFor (hash k).toNat k = false := by
      rw [eq_false_iff]
      intro hit
      exact same (congrArg Prod.snd (pendingIsFor_iff.mp hit)).symm
    rw [miss, update_of_ne same]
    rfl

theorem CallGood.counted {U : Nat → K → Prop}
    {L : (Nat → K → Prop) → Nat → Nat → Leaf K V → Prop} {op : PendingOp K V} {right : Prop}
    {after : BTreeMap K V × Bool} (good : CallGood fo U L m op right after)
    (goes : hashed hash op.hash op.key) (counted : Counted fo hash m) (holds : right) :
    Counted fo hash after.1 ∧ after.2 = op.effective (m.keyed fo hash op.key) := by
  obtain ⟨reply, total⟩ := good.counts holds
  have keyed := keyed_effect goes good.looks
  have current : m.find fo op.hash op.key = m.keyed fo hash op.key := by
    unfold BTreeMap.keyed
    rw [← goes]
  rw [current] at reply
  refine ⟨⟨?_, ?_⟩, reply⟩
  · rw [keyed]
    cases op.value with
    | some v =>
      rw [keys_update_some]
      exact counted.finite.insert _
    | none =>
      rw [keys_update_none]
      exact counted.finite.subset Set.sdiff_subset
  · have before : m.pool.total = keyCount (m.keyed fo hash) := counted.size
    unfold BTreeMap.size
    rw [total, reply, keyed, before]
    unfold tally PendingOp.effective
    cases op.value with
    | some v =>
      rw [keyCount_update_some counted.finite]
      cases m.keyed fo hash op.key <;> rfl
    | none =>
      rw [keyCount_update_none]
      cases m.keyed fo hash op.key <;> rfl

end Steps

/-- Nothing that changes nothing is parked by the call or drained on its way.  A
rehash starts from size zero, so only its inserts count. -/
def countsRight (fo : Fanouts) (m : BTreeMap K V) (op : BTreeOp (UInt64 × K) V) : Bool :=
  match op with
  | .insert _ _ =>
    (!m.overloaded fo || alongRebuild fo countTerms m (m.nBuckets * 2)) &&
      alongPlace fo countTerms (m.maybeRehash fo) op.pending
  | .erase _ => alongPlace fo countTerms m op.pending

section Calls
variable {fo : Fanouts} {terms : Terms K V} {hash : K → UInt64}
  {L : (Nat → K → Prop) → Nat → Nat → Leaf K V → Prop} {m : BTreeMap K V}

theorem placeAll_counted (rules : MapRules fo terms (hashed hash) L) :
    ∀ (entries : List (Entry K V)) (m : BTreeMap K V), MapWF (hashed hash) L m →
      Counted fo hash m → (∀ e, e ∈ entries → e.hash < hashBound ∧ hashed hash e.hash e.key) →
      alongPlaces fo terms entries m = true → alongPlaces fo countTerms entries m = true →
      Counted fo hash (placeAll fo m entries) := by
  intro entries
  induction entries with
  | nil =>
    intro m _ counted _ _ _
    exact counted
  | cons e rest ih =>
    intro m wf counted ranged ok right
    rw [alongPlaces, and_eq_true] at ok right
    have range := ranged e mem_cons_self
    have step := place_good rules wf range ok.1
    exact ih _ step.wf (step.counted range.2 counted right.1).1
      (fun x member => ranged x (mem_cons_of_mem _ member)) ok.2 right.2

theorem Counted.freeSlot (counted : Counted fo hash m) : Counted fo hash m.freeSlot :=
  ⟨counted.finite, counted.size⟩

theorem refill_counted (rules : MapRules fo terms (hashed hash) L) :
    ∀ (nodes : List (LeafNode K V)) (m : BTreeMap K V), MapWF (hashed hash) L m →
      Counted fo hash m →
      (∀ e, e ∈ nodes.flatMap LeafNode.entries → e.hash < hashBound ∧ hashed hash e.hash e.key) →
      Distinct (nodes.flatMap LeafNode.entries) →
      alongRefill fo terms nodes m = true → alongRefill fo countTerms nodes m = true →
      Counted fo hash (refill fo m nodes) := by
  intro nodes
  induction nodes with
  | nil =>
    intro m _ counted _ _ _ _
    exact counted
  | cons node rest ih =>
    intro m wf counted ranged distinct ok right
    rw [alongRefill, and_eq_true] at ok right
    rw [flatMap_cons] at ranged distinct
    unfold Distinct at distinct
    rw [map_append, nodup_append] at distinct
    rw [forall_mem_append] at ranged
    have placed := placeAll_counted rules node.entries m.freeSlot wf.freeSlot counted.freeSlot
      ranged.1 ok.1 right.1
    have wfNode := (placeAll_good rules node.entries m.freeSlot wf.freeSlot ranged.1 distinct.1
      ok.1).1
    exact ih _ wfNode placed ranged.2 distinct.2.1 ok.2 right.2

omit [DecidableEq K] in
theorem keyCount_none : keyCount (fun _ : K => (none : Option V)) = 0 := by
  unfold keyCount
  simp

theorem cleared_counted (fo : Fanouts) (hash : K → UInt64) (m : BTreeMap K V) (nBuckets : Nat) :
    Counted fo hash (m.cleared nBuckets) := by
  constructor
  · simp [BTreeMap.keyed, BTreeMap.find, BTreeMap.cleared]
  · exact keyCount_none.symm

theorem maybeRehash_counted (rules : MapRules fo terms (hashed hash) L)
    (wf : MapWF (hashed hash) L m) (counted : Counted fo hash m)
    (ok : (!m.overloaded fo || alongRehash fo terms m (m.nBuckets * 2)) = true)
    (right : (!m.overloaded fo || alongRebuild fo countTerms m (m.nBuckets * 2)) = true) :
    Counted fo hash (m.maybeRehash fo) := by
  unfold BTreeMap.maybeRehash
  cases full : m.overloaded fo with
  | false => exact counted
  | true =>
    rw [full, Bool.not_true, Bool.false_or] at ok right
    rw [alongRehash, and_eq_true] at ok
    obtain ⟨holds, listed, _⟩ := flushAll_good rules wf ok.1
    have lists := visited_lists holds listed
    exact refill_counted rules _ _ (cleared_wf _ (by have := wf.positive; omega))
      (cleared_counted fo hash _ _) lists.ranged lists.distinct ok.2 right

theorem apply_counted (rules : MapRules fo terms (hashed hash) L) (wf : MapWF (hashed hash) L m)
    (counted : Counted fo hash m) (op : BTreeOp K V)
    (ok : alongApply fo terms m (op.withHash hash) = true)
    (right : countsRight fo m (op.withHash hash) = true) :
    Counted fo hash (m.apply fo (op.withHash hash)).1 ∧
      (m.apply fo (op.withHash hash)).2 =
        (op.withHash hash).pending.effective (m.keyed fo hash op.key) := by
  cases op with
  | erase k =>
    have good := eraseImpl_good rules wf ⟨toNat_lt_hashBound (hash k), rfl⟩ ok
    exact good.counted rfl counted right
  | insert k v =>
    unfold alongApply alongInsert at ok
    unfold countsRight at right
    simp only [BTreeOp.withHash, and_eq_true] at ok right
    obtain ⟨wfRehashed, same⟩ := maybeRehash_good rules wf ok.1
    have recounted := maybeRehash_counted rules wf counted ok.1 right.1
    have good := place_good rules wfRehashed ⟨toNat_lt_hashBound (hash k), rfl⟩ ok.2
    obtain ⟨after, reply⟩ := good.counted rfl recounted right.2
    have current : (m.maybeRehash fo).keyed fo hash k = m.keyed fo hash k := by
      unfold BTreeMap.keyed
      rw [same _ (toNat_lt_hashBound _)]
    refine ⟨after, ?_⟩
    rw [BTreeOp.key, ← current]
    exact reply

theorem run_counted (rules : MapRules fo terms (hashed hash) L) :
    ∀ (ops : List (BTreeOp K V)) (m : BTreeMap K V), MapWF (hashed hash) L m →
      Counted fo hash m →
      everyStep fo (alongApply fo terms) m (ops.map (BTreeOp.withHash hash)) = true →
      everyStep fo (countsRight fo) m (ops.map (BTreeOp.withHash hash)) = true →
      MapWF (hashed hash) L (m.run fo (ops.map (BTreeOp.withHash hash))) ∧
        Counted fo hash (m.run fo (ops.map (BTreeOp.withHash hash))) := by
  intro ops
  induction ops with
  | nil =>
    intro m wf counted _ _
    exact ⟨wf, counted⟩
  | cons op rest ih =>
    intro m wf counted ok right
    rw [map_cons, everyStep, and_eq_true] at ok right
    have admitted : hashed hash (op.withHash hash).key.1.toNat (op.withHash hash).key.2 := by
      rw [withHash_key]
      rfl
    obtain ⟨wfStep, _⟩ := apply_good rules wf admitted ok.1
    obtain ⟨countedStep, _⟩ := apply_counted rules wf counted op ok.1 right.1
    exact ih _ wfStep countedStep ok.2 right.2

end Calls

/-- Twelve keys in one bucket, whose leaf splits, and an erase of a stored key that
is parked at the new root. -/
def parkedErase : List (BTreeOp Nat Nat) :=
  (List.range 12).map (fun i => .insert i i) ++ [.erase 3]

/-- Nine keys in one bucket: the leaf of eight has split and the root parks. -/
def nineKeys : BTreeMap Nat Nat :=
  sixteen.run (pickFanouts 65 0)
    (((List.range 9).map fun i => BTreeOp.insert i i).map (BTreeOp.withHash oneBucketHash))

end Micron.BTree
