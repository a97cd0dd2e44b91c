import Micron.BTree.Runs

/-!
# Maps whose hash tells the keys apart

Where different keys have different hashes, a full leaf never consists of one
class, so no overflow chain is ever made and every leaf split is safe.  Then
the lookups are those of a finite map in every run, whatever splits, drains and
rehashes happen on the way.
-/

set_option autoImplicit false

namespace Micron.BTree

open Micron.Lib List Bool

variable {K V : Type}

def PlainLeaf (Q : Nat → K → Prop) (lo hi : Nat) (leaf : Leaf K V) : Prop :=
  LeafWF Q lo hi leaf ∧ leaf.overflow = []

theorem outWF_plain {Q : Nat → K → Prop} {lo hi : Nat} {left : Leaf K V}
    {split : Option (Nat × Leaf K V)} (wf : OutWF (LeafWF Q) lo hi left split)
    (plainLeft : left.overflow = []) (plainRight : ∀ half, split = some half → half.2.overflow = []) :
    OutWF (PlainLeaf Q) lo hi left split := by
  cases split with
  | none => exact ⟨wf, plainLeft⟩
  | some half =>
    obtain ⟨order, top, wfLeft, wfRight⟩ := wf
    exact ⟨order, top, ⟨wfLeft, plainLeft⟩, wfRight, plainRight half rfl⟩

section Leaves
variable [DecidableEq K] {Q : Nat → K → Prop} {lo hi : Nat} {leaf : Leaf K V}
  {leafFanout : Nat}

theorem changeFirst_plain (plain : leaf.overflow = []) (h : Nat) (k : K)
    (change : List (Entry K V) → List (Entry K V)) :
    (leaf.changeFirst h k change).overflow = [] := by
  unfold Leaf.changeFirst
  split
  · exact plain
  · simp only [plain, changeFirst]

omit [DecidableEq K] in
/-- A full leaf of the class of a key holds that key. -/
theorem full_class_holds_key (injective : ∀ h k k', Q h k → Q h k' → k = k')
    (wf : LeafWF Q lo hi leaf) {e : Entry K V} (admitted : Q e.hash e.key)
    (some_entry : leaf.primary.entries ≠ []) (single : leaf.primary.singleClass = true)
    (same : e.hash = leaf.primary.hashes.headD 0) : ∃ x, x ∈ leaf.entries ∧ x.ident = e.ident := by
  obtain ⟨x, member⟩ := exists_mem_of_ne_nil _ some_entry
  have inLeaf : x ∈ leaf.entries := by
    rw [leaf_entries_eq]
    exact mem_append_left _ member
  have hash : x.hash = e.hash := (singleClass_hash wf.sorted single member).trans same.symm
  have admittedX := (wf.ranged x inLeaf).2.2
  rw [hash] at admittedX
  refine ⟨x, inLeaf, ?_⟩
  rw [Entry.ident, Entry.ident, hash, injective e.hash x.key e.key admittedX admitted]

omit [DecidableEq K] in
theorem insertNewKey_plain (injective : ∀ h k k', Q h k → Q h k' → k = k')
    (wf : LeafWF Q lo hi leaf) (plain : leaf.overflow = []) (two : 2 ≤ leafFanout)
    {e : Entry K V} (admitted : Q e.hash e.key)
    (fresh : ∀ x, x ∈ leaf.entries → x.ident ≠ e.ident) (pool : Pool) :
    (insertNewKey leafFanout leaf e pool).tree.overflow = [] ∧
      ∀ half, (insertNewKey leafFanout leaf e pool).split = some half → half.2.overflow = [] := by
  unfold insertNewKey
  by_cases room : leaf.primary.entries.length < leafFanout
  · rw [if_pos room]
    refine ⟨plain, ?_⟩
    intro half isSplit
    cases isSplit
  · rw [if_neg room]
    have some_entry : leaf.primary.entries ≠ [] := by
      intro empty
      rw [empty, length_nil] at room
      omega
    cases single : leaf.primary.singleClass with
    | true =>
      by_cases same : e.hash = leaf.primary.hashes.headD 0
      · obtain ⟨x, member, ident⟩ :=
          full_class_holds_key injective wf admitted some_entry single same
        exact absurd ident (fresh x member)
      · simp only [if_true, if_neg same]
        unfold asymmetricSplitLeaf
        simp only
        split
        · refine ⟨plain, ?_⟩
          intro half isSplit
          cases isSplit
          rfl
        · refine ⟨rfl, ?_⟩
          intro half isSplit
          cases isSplit
          exact plain
    | false =>
      simp only [false_eq_true, if_false]
      split
      · refine ⟨plain, ?_⟩
        intro half isSplit
        cases isSplit
        rfl
      · refine ⟨plain, ?_⟩
        intro half isSplit
        cases isSplit
        rfl

theorem leafApply_plain (injective : ∀ h k k', Q h k → Q h k' → k = k')
    (wf : LeafWF Q lo hi leaf) (plain : leaf.overflow = []) (two : 2 ≤ leafFanout)
    {op : PendingOp K V} (admitted : Q op.hash op.key) (pool : Pool) :
    (leafApply leafFanout leaf op pool).tree.overflow = [] ∧
      ∀ half, (leafApply leafFanout leaf op pool).split = some half → half.2.overflow = [] := by
  unfold leafApply
  cases op.value with
  | none =>
    simp only
    split
    · refine ⟨changeFirst_plain plain _ _ _, ?_⟩
      intro half isSplit
      cases isSplit
    · refine ⟨plain, ?_⟩
      intro half isSplit
      cases isSplit
  | some v =>
    cases stored : leaf.has op.hash op.key with
    | true =>
      refine ⟨changeFirst_plain plain _ _ _, ?_⟩
      intro half isSplit
      cases isSplit
    | false =>
      apply insertNewKey_plain injective wf plain two admitted
      intro x member ident
      rw [leaf_has_iff.mpr ⟨x, member, ident⟩] at stored
      cases stored

omit [DecidableEq K] in
theorem mixedKeepsChain_plain (plain : leaf.overflow = []) :
    mixedKeepsChain leafFanout leaf = true := by
  simp [mixedKeepsChain, allBelow, Leaf.chain, plain]

theorem splitKeepsChain_plain (plain : leaf.overflow = []) (op : PendingOp K V) :
    splitKeepsChain leafFanout leaf op = true := by
  unfold splitKeepsChain
  split
  · rfl
  · split
    · simp [asymmetricKeepsChain, allBelow, allAbove, Leaf.chain, plain]
    · exact mixedKeepsChain_plain plain

def freeTerms : Terms K V := ⟨fun _ _ _ => true, fun _ _ _ => true, fun _ _ _ => true, fun _ => true⟩

theorem plainLeaf_rules {fo : Fanouts} (two : 2 ≤ fo.leaf) {Q : Nat → K → Prop}
    (injective : ∀ h k k', Q h k → Q h k' → k = k') :
    LeafRules (V := V) fo freeTerms Q (PlainLeaf Q) where
  wf _ _ _ wf := wf.1
  fresh _ _ idx _ range := ⟨leafWF_single idx range, rfl⟩
  sound := by
    intro lo hi leaf op pool drained wf range _
    have good := leafApply_sound two Q lo hi leaf op pool drained wf.1 range
      (splitKeepsChain_plain wf.2 op)
    obtain ⟨plainLeft, plainRight⟩ := leafApply_plain injective wf.1 wf.2 two range.2.2 pool
    exact ⟨outWF_plain good.wf plainLeft plainRight, good.looks, good.grown, good.counts⟩
  cut := by
    intro lo hi leaf pool wf full mixed _
    obtain ⟨out, _⟩ := splitLeafMixed_wf wf.1 two full mixed (mixedKeepsChain_plain wf.2) pool
    apply outWF_plain out wf.2
    intro half isSplit
    cases isSplit
    rfl
  keeps _ _ _ _ wf := mixedKeepsChain_plain wf.2

end Leaves

section Free
variable [DecidableEq K] (fo : Fanouts)

omit [DecidableEq K] in
theorem alongDrain_free {α : Type} {apply : α → PendingOp K V → Pool → Applied α}
    {ask : Bool → α → PendingOp K V → Pool → Bool} (free : ∀ d t op pool, ask d t op pool = true) :
    ∀ (ops : List (PendingOp K V)) (row : Row α) (pool : Pool),
      alongDrain fo apply ask ops row pool = true := by
  intro ops
  induction ops with
  | nil =>
    intro row pool
    rfl
  | cons op rest ih =>
    intro row pool
    rw [alongDrain, and_eq_true]
    exact ⟨free _ _ _ _, ih _ _⟩

theorem alongInner_free {α : Type} {apply : α → PendingOp K V → Pool → Applied α}
    {ask : Bool → α → PendingOp K V → Pool → Bool} {look : α → Nat → K → Option V}
    (free : ∀ d t op pool, ask d t op pool = true) (drained : Bool) (node : Inner K V α)
    (op : PendingOp K V) (pool : Pool) :
    alongInner fo apply ask look freeTerms drained node op pool = true := by
  unfold alongInner
  split
  · rfl
  · split
    · rfl
    · rw [and_eq_true]
      exact ⟨alongDrain_free fo free _ _ _, free _ _ _ _⟩

theorem along_free : ∀ (height : Nat) (drained : Bool) (tree : Tree K V height)
    (op : PendingOp K V) (pool : Pool), along fo freeTerms height drained tree op pool = true := by
  intro height
  induction height with
  | zero =>
    intro drained tree op pool
    rfl
  | succ height ih =>
    intro drained tree op pool
    exact alongInner_free fo ih drained tree op pool

theorem alongPlace_free (m : BTreeMap K V) (op : PendingOp K V) :
    alongPlace fo freeTerms m op = true := by
  unfold alongPlace
  split
  · rfl
  · rename_i root _
    rw [alongRoot, and_eq_true]
    refine ⟨?_, along_free fo _ _ _ _ _⟩
    obtain ⟨height, tree⟩ := root
    cases height with
    | zero => exact or_true _
    | succ height =>
      rw [alongReady, alongDrain_free fo (along_free fo height)]
      exact or_true _

omit [DecidableEq K] in
theorem alongDrainRow_free {α : Type} {drain : α → Pool → α × List (LeafNode K V) × Pool}
    {ask : α → Pool → Bool} (free : ∀ t pool, ask t pool = true) (block : Nat) :
    ∀ (tail : List (Nat × α)) (c : α) (pool : Pool),
      alongDrainRow drain ask block c tail pool = true := by
  intro tail
  induction tail with
  | nil =>
    intro c pool
    exact free c pool
  | cons first rest ih =>
    intro c pool
    rw [alongDrainRow, and_eq_true]
    exact ⟨free c pool, ih _ _⟩

theorem alongFlush_free : ∀ (height : Nat) (tree : Tree K V height) (pool : Pool),
    alongFlush fo freeTerms height tree pool = true := by
  intro height
  induction height with
  | zero =>
    intro tree pool
    rfl
  | succ height ih =>
    intro tree pool
    rw [alongFlush, and_eq_true, and_eq_true]
    refine ⟨alongDrain_free fo (along_free fo height) _ _ _, alongDrainRow_free ih _ _ _ _, ?_⟩
    split
    · rfl
    · exact alongDrainRow_free ih _ _ _ _

theorem alongBuckets_free {ask : (height : Nat) → Tree K V height → Pool → Bool}
    (free : ∀ height tree pool, ask height tree pool = true) :
    ∀ (list : List Nat) (m : BTreeMap K V), alongBuckets fo ask list m = true := by
  intro list
  induction list with
  | nil =>
    intro m
    rfl
  | cons b rest ih =>
    intro m
    rw [alongBuckets, and_eq_true]
    refine ⟨?_, ih _⟩
    unfold alongBucket
    split
    · rfl
    · exact free _ _ _

theorem alongPlaces_free : ∀ (entries : List (Entry K V)) (m : BTreeMap K V),
    alongPlaces fo freeTerms entries m = true := by
  intro entries
  induction entries with
  | nil =>
    intro m
    rfl
  | cons e rest ih =>
    intro m
    rw [alongPlaces, and_eq_true]
    exact ⟨alongPlace_free fo m _, ih _⟩

theorem alongRefill_free : ∀ (nodes : List (LeafNode K V)) (m : BTreeMap K V),
    alongRefill fo freeTerms nodes m = true := by
  intro nodes
  induction nodes with
  | nil =>
    intro m
    rfl
  | cons node rest ih =>
    intro m
    rw [alongRefill, and_eq_true]
    exact ⟨alongPlaces_free fo node.entries m.freeSlot, ih _⟩

theorem everyStep_free : ∀ (ops : List (BTreeOp (UInt64 × K) V)) (m : BTreeMap K V),
    everyStep fo (alongApply fo freeTerms) m ops = true := by
  intro ops
  induction ops with
  | nil =>
    intro m
    rfl
  | cons op rest ih =>
    intro m
    rw [everyStep, and_eq_true]
    refine ⟨?_, ih _⟩
    cases op with
    | erase key => exact alongPlace_free fo m _
    | insert key value =>
      rw [alongApply, alongInsert, alongRehash, alongRebuild, alongFlushAll,
        alongBuckets_free fo (alongFlush_free fo), alongRefill_free, alongPlace_free]
      simp

end Free

/-! ## The refinement -/

section Refinement
variable [DecidableEq K]

omit [DecidableEq K] in
theorem withHash_key (hash : K → UInt64) (op : BTreeOp K V) :
    (op.withHash hash).key = (hash op.key, op.key) := by
  cases op <;> rfl

theorem withHash_toMapOp (hash : K → UInt64) (op : BTreeOp K V) (k : K) (current : Option V) :
    (op.withHash hash).toMapOp.overwrite (hash k, k) current = op.toMapOp.overwrite k current := by
  have same : ∀ other : K, (hash other, other) = (hash k, k) ↔ other = k := by
    intro other
    rw [Prod.mk.injEq]
    constructor
    · intro pair
      exact pair.2
    · intro equal
      exact ⟨congrArg hash equal, equal⟩
  cases op with
  | insert key value => simp [BTreeOp.withHash, BTreeOp.toMapOp, MapOp.overwrite, same]
  | erase key => simp [BTreeOp.withHash, BTreeOp.toMapOp, MapOp.overwrite, same]

/-- Histories of keys and of keys with their hashes agree. -/
theorem overwrite_withHash (hash : K → UInt64) (k : K) : ∀ (ops : List (BTreeOp K V))
    (current : Option V),
    ((ops.map (BTreeOp.withHash hash)).map BTreeOp.toMapOp).foldl (MapOp.overwrite (hash k, k))
      current = (ops.map BTreeOp.toMapOp).foldl (MapOp.overwrite k) current := by
  intro ops
  induction ops with
  | nil =>
    intro current
    rfl
  | cons op rest ih =>
    intro current
    simp only [map_cons, foldl_cons, withHash_toMapOp]
    exact ih _

end Refinement

/-- Words tell small keys apart. -/
theorem injOn_of_small {keys : List Nat} {hash : Nat → UInt64} (factor : Nat) (positive : 0 < factor)
    (hash_eq : ∀ k, hash k = UInt64.ofNat (factor * k)) (small : ∀ k ∈ keys, factor * k < 2 ^ 64) :
    Set.InjOn hash {k | k ∈ keys} := by
  intro a inA b inB same
  have words := congrArg UInt64.toNat same
  rw [hash_eq, hash_eq, UInt64.toNat_ofNat_of_lt' (small a inA),
    UInt64.toNat_ofNat_of_lt' (small b inB)] at words
  exact Nat.eq_of_mul_eq_mul_left positive words

/-- A hash that sends small keys to one bucket of sixteen. -/
def oneBucketHash (k : Nat) : UInt64 := UInt64.ofNat (16 * k)

/-- 120 keys in one bucket, at the 113th of which the map rehashes, an erase and an
overwrite. -/
def oneBucketRun : List (BTreeOp Nat Nat) :=
  (List.range 120).map (fun i => .insert i i) ++ [.erase 5, .insert 7 700]

/-- 110 falling keys in one bucket and one in each of the next two fill the 32 slots
of the doubled slab; the next insert rehashes, and its drain of the first inner node
splits a leaf. -/
def fallingRun : List (BTreeOp Nat Nat) :=
  [.insert 1 1, .insert 2 2] ++
    (List.range 110).map (fun i => .insert (16 * (110 - i)) i) ++ [.insert 0 0]

end Micron.BTree
