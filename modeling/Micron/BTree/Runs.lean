import Micron.BTree.MapSpec
import Micron.BTree.Slab
import Micron.Lib.KeyedRun

/-!
# Flushes and rehashes

A flush drains bucket after bucket.  Whatever its drains split, the leaf list
then holds every binding once, which is what a rehash needs.  A flush whose
drains split nothing leaves the map as it was; a rehash leaves the lookups as
they were in any case.
-/

set_option autoImplicit false

namespace Micron.BTree

open Micron.Lib List Function Bool

variable {K V : Type} [DecidableEq K]

/-- A condition on the tree of a bucket, if there is one. -/
def alongBucket (ask : (height : Nat) → Tree K V height → Pool → Bool) (m : BTreeMap K V) (b : Nat) :
    Bool :=
  match m.buckets b with
  | none => true
  | some root => ask root.height root.tree m.pool

def alongBuckets (fo : Fanouts) (ask : (height : Nat) → Tree K V height → Pool → Bool) :
    List Nat → BTreeMap K V → Bool
  | [], _ => true
  | b :: rest, m => alongBucket ask m b && alongBuckets fo ask rest (m.flushBucket fo b)

def alongFlushAll (fo : Fanouts) (terms : Terms K V) (m : BTreeMap K V) : Bool :=
  alongBuckets fo (alongFlush fo terms) (List.range m.nBuckets) m

/-- No drain of `flush_all` splits its inner node. -/
def flushStaysWhole (fo : Fanouts) (m : BTreeMap K V) : Bool :=
  alongBuckets fo (staysWhole fo) (List.range m.nBuckets) m

/-- The map `m'` that `m` has become when the buckets `done` are flushed. -/
structure Flushed (fo : Fanouts) (U : Nat → K → Prop)
    (L : (Nat → K → Prop) → Nat → Nat → Leaf K V → Prop) (m m' : BTreeMap K V) (done : List Nat)
    (whole : Prop) : Prop where
  nBuckets : m'.nBuckets = m.nBuckets
  later : ∀ b, b ∉ done → m'.buckets b = m.buckets b
  holds : LeavesHold U (fun h => h < hashBound ∧ m.bucketOf h ∈ done)
    (done.flatMap (fun b => rootLeaves (m'.buckets b)) ++ m'.detached) (m.find fo)
  listed : Listed m'.pool (m'.allLeaves.map LeafNode.idx)
  whole : whole → MapWF U L m' ∧ ∀ h, h < hashBound → m'.find fo h = m.find fo h

section Flushes
variable {fo : Fanouts} {terms : Terms K V} {U : Nat → K → Prop}
  {L : (Nat → K → Prop) → Nat → Nat → Leaf K V → Prop} {m m' : BTreeMap K V} {done : List Nat}
  {b : Nat} {whole : Prop}

theorem flushed_start (wf : MapWF U L m) : Flushed fo U L m m [] True := by
  refine ⟨rfl, fun _ _ => rfl, ?_, wf.listed, fun _ => ⟨wf, fun _ _ => rfl⟩⟩
  rw [wf.attached]
  refine ⟨?_, nodup_nil, ?_⟩
  · intro e member
    cases member
  · intro h inside
    cases inside.2

theorem LeavesHold.addBucket {leaves new all : List (LeafNode K V)}
    (holds : LeavesHold U (fun h => h < hashBound ∧ m.bucketOf h ∈ done) leaves (m.find fo))
    (fresh : b ∉ done)
    (here : LeavesHold U (fun h => h < hashBound ∧ m.bucketOf h = b) new (m.find fo))
    (same : all.Perm (leaves ++ new)) :
    LeavesHold U (fun h => h < hashBound ∧ m.bucketOf h ∈ done ++ [b]) all (m.find fo) := by
  refine LeavesHold.perm ?_ same
  apply holds.append here
  · intro h old new
    rw [new.2] at old
    exact fresh old.2
  · intro h
    rw [mem_append, mem_singleton]
    exact and_or_left
  · intro h _
    rfl
  · intro h _
    rfl

omit [DecidableEq K] in
theorem flatMap_rootLeaves_update (fresh : b ∉ done) (buckets : Nat → Option (Root K V))
    (root : Option (Root K V)) :
    done.flatMap (fun c => rootLeaves (update buckets b root c)) =
      done.flatMap fun c => rootLeaves (buckets c) := by
  apply flatMap_congr
  intro c inDone
  have other : c ≠ b := by
    intro same
    exact fresh (same ▸ inDone)
  rw [update_of_ne other]

/-- The leaves of one bucket, after its tree is drained. -/
theorem bucket_holds {root : Root K V} (here : m.buckets b = some root)
    {leaves : List (LeafNode K V)}
    (drained : LeavesHold (inBucket m.nBuckets U b) (within 0 hashBound) leaves (root.find fo)) :
    LeavesHold U (fun h => h < hashBound ∧ m.bucketOf h = b) leaves (m.find fo) := by
  refine ⟨?_, drained.distinct, ?_⟩
  · intro e member
    obtain ⟨inside, bucket, admitted⟩ := drained.ranged e member
    exact ⟨⟨inside.2, bucket⟩, admitted⟩
  · intro h inside k v
    rw [find_of_bucket inside.2, here]
    exact drained.looks h ⟨Nat.zero_le _, inside.1⟩ k v

/-- A bucket whose tree is replaced by one that finds the same. -/
theorem replace_same {m : BTreeMap K V} {b : Nat} (wf : MapWF U L m) (inside : b < m.nBuckets)
    {root root' : Root K V} {pool : Pool} (here : m.buckets b = some root)
    (wfRoot : root'.WF (inBucket m.nBuckets U b) (L (inBucket m.nBuckets U b)))
    (grown : Grown m.pool pool ((rootLeaves (some root)).map LeafNode.idx) root'.idxs)
    (looks : ∀ h, h < hashBound → root'.find fo h = root.find fo h) :
    MapWF U L { m with buckets := update m.buckets b (some root'), pool := pool } ∧
      ∀ h, h < hashBound →
        BTreeMap.find fo { m with buckets := update m.buckets b (some root'), pool := pool }
          h = m.find fo h := by
  constructor
  · apply wf.replace inside wfRoot
    rw [here]
    exact grown
  · intro h below
    rw [find_replace]
    by_cases atB : m.bucketOf h = b
    · rw [if_pos atB, find_of_bucket atB, here]
      exact looks h below
    · rw [if_neg atB]

theorem flushBucket_good (rules : MapRules fo terms U L) (wf : MapWF U L m)
    (flushed : Flushed fo U L m m' done whole) (inside : b < m.nBuckets) (fresh : b ∉ done)
    (ok : alongBucket (alongFlush fo terms) m' b = true) :
    Flushed fo U L m (m'.flushBucket fo b) (done ++ [b])
      (whole ∧ alongBucket (staysWhole fo) m' b = true) := by
  have current := flushed.later b fresh
  unfold alongBucket at ok ⊢
  unfold BTreeMap.flushBucket
  cases here : m'.buckets b with
  | none =>
    rw [here] at current
    refine ⟨flushed.nBuckets, ?_, ?_, flushed.listed, fun all => flushed.whole all.1⟩
    · intro c notDone
      exact flushed.later c fun inDone => notDone (mem_append_left _ inDone)
    · have empty : LeavesHold U (fun h => h < hashBound ∧ m.bucketOf h = b) [] (m.find fo) := by
        refine ⟨?_, nodup_nil, ?_⟩
        · intro e member
          cases member
        · intro h atB k v
          rw [find_of_bucket atB.2, ← current]
          constructor
          · intro found
            cases found
          · intro member
            cases member
      apply flushed.holds.addBucket fresh empty
      simp [here, rootLeaves]
  | some root =>
    rw [here] at current ok
    have wfRoot := wf.trees b root current.symm
    have good := drainRecursive_good (rules.leaves m.nBuckets b) root.height 0 hashBound root.tree
      m'.pool wfRoot ok
    simp only
    generalize drainRecursive fo root.height root.tree m'.pool = drained at good
    obtain ⟨tree, detached, pool⟩ := drained
    have inside' : b < m'.nBuckets := by
      rw [flushed.nBuckets]
      exact inside
    refine ⟨flushed.nBuckets, ?_, ?_, ?_, ?_⟩
    · intro c notDone
      have other : c ≠ b := fun same => notDone (by simp [same])
      simp only [update_of_ne other]
      exact flushed.later c fun inDone => notDone (mem_append_left _ inDone)
    · apply flushed.holds.addBucket fresh (bucket_holds current.symm good.holds)
      simp only [flatMap_append, flatMap_rootLeaves_update fresh, flatMap_singleton,
        update_self]
      exact perm_regroup _ _ _ _
    · apply listed_replace flushed.listed inside'
      rw [here]
      exact good.grown
    · intro all
      obtain ⟨wfMap, finds⟩ := flushed.whole all.1
      obtain ⟨wfTree, looks, nothing⟩ := good.whole all.2
      have grown := good.grown
      subst nothing
      simp only [append_nil] at grown ⊢
      rw [← flushed.nBuckets] at wfTree
      obtain ⟨wfReplaced, sameFinds⟩ := @replace_same K V _ fo U L m' b wfMap inside' root
        ⟨root.height, tree⟩ pool here wfTree
        (grown.perm (List.Perm.of_eq (Tree.idxs_eq root.height tree)))
        (fun h below => looks h (Nat.zero_le _) below)
      exact ⟨wfReplaced, fun h below => (sameFinds h below).trans (finds h below)⟩

theorem flushBuckets_good (rules : MapRules fo terms U L) (wf : MapWF U L m) :
    ∀ (rest done : List Nat) (m' : BTreeMap K V) (whole : Prop),
      Flushed fo U L m m' done whole → (done ++ rest).Nodup → (∀ b, b ∈ rest → b < m.nBuckets) →
      alongBuckets fo (alongFlush fo terms) rest m' = true →
      Flushed fo U L m (rest.foldl (BTreeMap.flushBucket fo) m') (done ++ rest)
        (whole ∧ alongBuckets fo (staysWhole fo) rest m' = true) := by
  intro rest
  induction rest with
  | nil =>
    intro done m' whole flushed _ _ _
    rw [append_nil]
    exact ⟨flushed.nBuckets, flushed.later, flushed.holds, flushed.listed,
      fun all => flushed.whole all.1⟩
  | cons b rest ih =>
    intro done m' whole flushed once inside ok
    rw [alongBuckets, and_eq_true] at ok
    have fresh : b ∉ done := by
      intro inDone
      exact (nodup_append.mp once).2.2 b inDone b mem_cons_self rfl
    have step := flushBucket_good rules wf flushed (inside b mem_cons_self) fresh ok.1
    have rejoin : done ++ b :: rest = done ++ [b] ++ rest := by
      rw [append_assoc, singleton_append]
    rw [rejoin] at once
    have later := ih (done ++ [b]) _ _ step once
      (fun c member => inside c (mem_cons_of_mem _ member)) ok.2
    rw [rejoin]
    refine ⟨later.nBuckets, later.later, later.holds, later.listed, ?_⟩
    intro all
    rw [alongBuckets, and_eq_true] at all
    exact later.whole ⟨⟨all.1, all.2.1⟩, all.2.2⟩

theorem flushAll_good (rules : MapRules fo terms U L) (wf : MapWF U L m)
    (ok : alongFlushAll fo terms m = true) :
    LeavesHold U (fun h => h < hashBound) (m.flushAll fo).allLeaves (m.find fo) ∧
      Listed (m.flushAll fo).pool ((m.flushAll fo).allLeaves.map LeafNode.idx) ∧
      (flushStaysWhole fo m = true → MapWF U L (m.flushAll fo) ∧
        ∀ h, h < hashBound → (m.flushAll fo).find fo h = m.find fo h) := by
  have flushed := flushBuckets_good rules wf (List.range m.nBuckets) [] m True (flushed_start wf)
    nodup_range (fun b member => mem_range.mp member) ok
  refine ⟨?_, flushed.listed, fun all => flushed.whole ⟨trivial, all⟩⟩
  have leaves : (m.flushAll fo).allLeaves =
      (List.range m.nBuckets).flatMap (fun b => rootLeaves ((m.flushAll fo).buckets b)) ++
        (m.flushAll fo).detached := by
    unfold BTreeMap.allLeaves
    rw [show (m.flushAll fo).nBuckets = m.nBuckets from flushed.nBuckets]
  rw [leaves]
  refine ⟨?_, flushed.holds.distinct, ?_⟩
  · intro e member
    obtain ⟨inside, admitted⟩ := flushed.holds.ranged e member
    exact ⟨inside.1, admitted⟩
  · intro h below
    exact flushed.holds.looks h ⟨below, mem_range.mpr (bucketOf_lt wf.positive h)⟩

end Flushes

/-! ## What an iteration passes over -/

structure ListsBindings (U : Nat → K → Prop) (entries : List (Entry K V))
    (look : Nat → K → Option V) : Prop where
  ranged : ∀ e, e ∈ entries → e.hash < hashBound ∧ U e.hash e.key
  distinct : Distinct entries
  looks : ∀ h, h < hashBound → ∀ k v, look h k = some v ↔ (⟨h, k, v⟩ : Entry K V) ∈ entries

omit [DecidableEq K] in
theorem visited_lists {U : Nat → K → Prop} {m : BTreeMap K V} {look : Nat → K → Option V}
    (holds : LeavesHold U (fun h => h < hashBound) m.allLeaves look)
    (listed : Listed m.pool (m.allLeaves.map LeafNode.idx)) :
    ListsBindings U m.visited look := by
  have walked := holds.perm (leafWalk_perm listed)
  exact ⟨walked.ranged, walked.distinct, walked.looks⟩

def alongPlaces (fo : Fanouts) (terms : Terms K V) : List (Entry K V) → BTreeMap K V → Bool
  | [], _ => true
  | e :: rest, m => alongPlace fo terms m ⟨e.hash, e.key, some e.value⟩ &&
      alongPlaces fo terms rest (m.place fo e.hash e.key e.value).1

def alongRefill (fo : Fanouts) (terms : Terms K V) : List (LeafNode K V) → BTreeMap K V → Bool
  | [], _ => true
  | node :: rest, m =>
    alongPlaces fo terms node.entries m.freeSlot &&
      alongRefill fo terms rest (placeAll fo m.freeSlot node.entries)

def alongRebuild (fo : Fanouts) (terms : Terms K V) (m : BTreeMap K V) (nBuckets : Nat) : Bool :=
  alongRefill fo terms (m.flushAll fo).leafWalk ((m.flushAll fo).cleared nBuckets)

def alongRehash (fo : Fanouts) (terms : Terms K V) (m : BTreeMap K V) (nBuckets : Nat) : Bool :=
  alongFlushAll fo terms m && alongRebuild fo terms m nBuckets

def alongInsert (fo : Fanouts) (terms : Terms K V) (m : BTreeMap K V) (op : PendingOp K V) : Bool :=
  (!m.overloaded fo || alongRehash fo terms m (m.nBuckets * 2)) &&
    alongPlace fo terms (m.maybeRehash fo) op

section Rehashes
variable {fo : Fanouts} {terms : Terms K V} {U : Nat → K → Prop}
  {L : (Nat → K → Prop) → Nat → Nat → Leaf K V → Prop} {m : BTreeMap K V}

/-- Bindings of a list of entries over older ones, entry by entry. -/
theorem mem_or_old_cons {e : Entry K V} {rest : List (Entry K V)} (distinct : Distinct (e :: rest))
    (h : Nat) (k : K) (v : V) (old : Option V) :
    ((⟨h, k, v⟩ : Entry K V) ∈ rest ∨ (∀ x, x ∈ rest → x.ident ≠ (h, k)) ∧
        (if PendingOp.isFor h k ⟨e.hash, e.key, some e.value⟩ then some e.value else old) = some v) ↔
      (⟨h, k, v⟩ : Entry K V) ∈ e :: rest ∨
        (∀ x, x ∈ e :: rest → x.ident ≠ (h, k)) ∧ old = some v := by
  obtain ⟨hash, key, value⟩ := e
  obtain ⟨fresh, _⟩ := nodup_cons.mp distinct
  by_cases ident : (hash, key) = (h, k)
  · cases ident
    have hit : PendingOp.isFor h k (⟨h, k, some value⟩ : PendingOp K V) = true :=
      pendingIsFor_iff.mpr rfl
    have absent : ∀ x, x ∈ rest → x.ident ≠ (h, k) := by
      intro x member same
      exact fresh (mem_map.mpr ⟨x, member, same⟩)
    simp only [hit, if_true]
    constructor
    · intro found
      rcases found with member | ⟨_, same⟩
      · exact (absent _ member rfl).elim
      · cases same
        exact .inl mem_cons_self
    · intro found
      rcases found with member | ⟨none, _⟩
      · rcases mem_cons.mp member with same | later
        · cases same
          exact .inr ⟨absent, rfl⟩
        · exact (absent _ later rfl).elim
      · exact (none _ mem_cons_self rfl).elim
  · have miss : PendingOp.isFor h k (⟨hash, key, some value⟩ : PendingOp K V) = false := by
      rw [eq_false_iff]
      intro hit
      exact ident (pendingIsFor_iff.mp hit)
    simp only [miss, false_eq_true, if_false]
    constructor
    · intro found
      rcases found with member | ⟨none, value⟩
      · exact .inl (mem_cons_of_mem _ member)
      · refine .inr ⟨?_, value⟩
        intro x member
        rcases mem_cons.mp member with rfl | later
        · exact ident
        · exact none x later
    · intro found
      rcases found with member | ⟨none, value⟩
      · rcases mem_cons.mp member with same | later
        · cases same
          exact absurd rfl ident
        · exact .inl later
      · exact .inr ⟨fun x member => none x (mem_cons_of_mem _ member), value⟩

theorem placeAll_good (rules : MapRules fo terms U L) : ∀ (entries : List (Entry K V))
    (m : BTreeMap K V), MapWF U L m → (∀ e, e ∈ entries → e.hash < hashBound ∧ U e.hash e.key) →
    Distinct entries → alongPlaces fo terms entries m = true →
    MapWF U L (placeAll fo m entries) ∧ ∀ h, h < hashBound → ∀ k v,
      (placeAll fo m entries).find fo h k = some v ↔
        (⟨h, k, v⟩ : Entry K V) ∈ entries ∨
          (∀ e, e ∈ entries → e.ident ≠ (h, k)) ∧ m.find fo h k = some v := by
  intro entries
  induction entries with
  | nil =>
    intro m wf _ _ _
    refine ⟨wf, ?_⟩
    intro h _ k v
    simp [placeAll]
  | cons e rest ih =>
    intro m wf ranged distinct ok
    rw [alongPlaces, and_eq_true] at ok
    have step := place_good rules wf (ranged e mem_cons_self) ok.1
    obtain ⟨wfAll, finds⟩ := ih _ step.wf
      (fun x member => ranged x (mem_cons_of_mem _ member))
      (nodup_cons.mp distinct).2 ok.2
    refine ⟨wfAll, ?_⟩
    intro h below k v
    apply (finds h below k v).trans
    rw [step.looks h below, effect_apply]
    exact mem_or_old_cons distinct h k v _

omit [DecidableEq K] in
theorem MapWF.freeSlot (wf : MapWF U L m) : MapWF U L m.freeSlot :=
  ⟨wf.positive, wf.trees, wf.attached, wf.listed.all, wf.listed.once, wf.listed.used⟩

/-- The loop of a rehash: the entries of the nodes are over older bindings. -/
theorem refill_good (rules : MapRules fo terms U L) : ∀ (nodes : List (LeafNode K V))
    (m : BTreeMap K V), MapWF U L m →
    (∀ e, e ∈ nodes.flatMap LeafNode.entries → e.hash < hashBound ∧ U e.hash e.key) →
    Distinct (nodes.flatMap LeafNode.entries) → alongRefill fo terms nodes m = true →
    MapWF U L (refill fo m nodes) ∧ ∀ h, h < hashBound → ∀ k v,
      (refill fo m nodes).find fo h k = some v ↔
        (⟨h, k, v⟩ : Entry K V) ∈ nodes.flatMap LeafNode.entries ∨
          (∀ e, e ∈ nodes.flatMap LeafNode.entries → e.ident ≠ (h, k)) ∧ m.find fo h k = some v := by
  intro nodes
  induction nodes with
  | nil =>
    intro m wf _ _ _
    refine ⟨wf, ?_⟩
    intro h _ k v
    simp [refill]
  | cons node rest ih =>
    intro m wf ranged distinct ok
    rw [alongRefill, and_eq_true] at ok
    rw [flatMap_cons] at ranged distinct ⊢
    unfold Distinct at distinct
    rw [map_append, nodup_append] at distinct
    obtain ⟨here, later, apart⟩ := distinct
    obtain ⟨wfNode, findsNode⟩ := placeAll_good rules node.entries m.freeSlot wf.freeSlot
      (fun e member => ranged e (mem_append_left _ member)) here ok.1
    obtain ⟨wfAll, finds⟩ := ih _ wfNode
      (fun e member => ranged e (mem_append_right _ member)) later ok.2
    refine ⟨wfAll, ?_⟩
    intro h below k v
    refine (finds h below k v).trans ?_
    rw [findsNode h below k v, mem_append, forall_mem_append]
    constructor
    · rintro (inRest | ⟨noneInRest, inNode | ⟨noneInNode, old⟩⟩)
      · exact .inl (.inr inRest)
      · exact .inl (.inl inNode)
      · exact .inr ⟨⟨noneInNode, noneInRest⟩, old⟩
    · rintro ((inNode | inRest) | ⟨⟨noneInNode, noneInRest⟩, old⟩)
      · refine .inr ⟨?_, .inl inNode⟩
        intro e member same
        exact apart _ (mem_map_of_mem inNode) _ (mem_map_of_mem member) same.symm
      · exact .inl inRest
      · exact .inr ⟨noneInRest, .inr ⟨noneInNode, old⟩⟩

omit [DecidableEq K] in
theorem cleared_wf (m : BTreeMap K V) {nBuckets : Nat} (positive : 0 < nBuckets) :
    MapWF U L (m.cleared nBuckets) := by
  refine ⟨positive, ?_, rfl, ?_⟩
  · intro b root here
    cases here
  · have none : (m.cleared nBuckets).allLeaves = [] := by
      simp [BTreeMap.allLeaves, BTreeMap.cleared, rootLeaves]
    rw [none]
    refine ⟨List.Perm.refl _, nodup_nil, ?_⟩
    intro idx member
    cases member

theorem rehash_good (rules : MapRules fo terms U L) (wf : MapWF U L m) {nBuckets : Nat}
    (positive : 0 < nBuckets) (ok : alongRehash fo terms m nBuckets = true) :
    MapWF U L (m.rehash fo nBuckets) ∧
      ∀ h, h < hashBound → (m.rehash fo nBuckets).find fo h = m.find fo h := by
  rw [alongRehash, and_eq_true] at ok
  obtain ⟨holds, listed, _⟩ := flushAll_good rules wf ok.1
  have lists := visited_lists holds listed
  obtain ⟨wfAll, finds⟩ := refill_good rules (m.flushAll fo).leafWalk
    ((m.flushAll fo).cleared nBuckets) (cleared_wf _ positive) lists.ranged lists.distinct ok.2
  refine ⟨wfAll, ?_⟩
  intro h below
  funext k
  apply Option.ext
  intro v
  refine (finds h below k v).trans ?_
  rw [lists.looks h below k v]
  constructor
  · intro found
    rcases found with member | ⟨_, impossible⟩
    · exact member
    · cases impossible
  · intro member
    exact .inl member

theorem maybeRehash_good (rules : MapRules fo terms U L) (wf : MapWF U L m)
    (ok : (!m.overloaded fo || alongRehash fo terms m (m.nBuckets * 2)) = true) :
    MapWF U L (m.maybeRehash fo) ∧
      ∀ h, h < hashBound → (m.maybeRehash fo).find fo h = m.find fo h := by
  unfold BTreeMap.maybeRehash
  cases full : m.overloaded fo with
  | false => exact ⟨wf, fun _ _ => rfl⟩
  | true =>
    rw [full] at ok
    exact rehash_good rules wf (by have := wf.positive; omega) ok

end Rehashes

end Micron.BTree

/-!
## Runs of a B-tree map

A run of `insert_hash` and `erase_hash` calls in which no leaf split parts an
overflow chain from its hash class leaves, at every hash and key, what the
history of the calls says.  A split of `split_leaf_mixed` leaves the chain with
the left half, also where the class it belongs to goes to the right: then the
chained keys are lost.
-/

namespace Micron.BTree

open Micron.Lib

variable {K V : Type}

def BTreeOp.key {κ : Type} : BTreeOp κ V → κ
  | .insert key _ => key
  | .erase key => key

def BTreeOp.toMapOp {κ : Type} : BTreeOp κ V → MapOp κ V
  | .insert key value => .insert key value
  | .erase key => .erase key

def BTreeOp.pending : BTreeOp (UInt64 × K) V → PendingOp K V
  | .insert key value => ⟨key.1.toNat, key.2, some value⟩
  | .erase key => ⟨key.1.toNat, key.2, none⟩

theorem toNat_lt_hashBound (h : UInt64) : h.toNat < hashBound := h.toNat_lt

section Runs
variable [DecidableEq K]

theorem pending_effect (op : BTreeOp (UInt64 × K) V) (key : UInt64 × K) (bindings : K → Option V) :
    op.pending.effect key.1.toNat bindings key.2 =
      op.toMapOp.overwrite key (bindings key.2) := by
  have isFor_pair : ∀ (key' : UInt64 × K) (value : Option V),
      (⟨key'.1.toNat, key'.2, value⟩ : PendingOp K V).isFor key.1.toNat key.2 =
        decide (key' = key) := by
    intro key' value
    rw [Bool.eq_iff_iff, pendingIsFor_iff, decide_eq_true_eq, PendingOp.ident, Prod.mk.injEq,
      UInt64.toNat_inj, Prod.ext_iff]
  rw [effect_apply]
  cases op with
  | insert key' value => simp [BTreeOp.pending, BTreeOp.toMapOp, MapOp.overwrite, isFor_pair]
  | erase key' => simp [BTreeOp.pending, BTreeOp.toMapOp, MapOp.overwrite, isFor_pair]

def alongApply (fo : Fanouts) (terms : Terms K V) (m : BTreeMap K V)
    (op : BTreeOp (UInt64 × K) V) : Bool :=
  match op with
  | .insert _ _ => alongInsert fo terms m op.pending
  | .erase _ => alongPlace fo terms m op.pending

/-- A condition on the map and the call, at every step of a run. -/
def everyStep (fo : Fanouts) (ask : BTreeMap K V → BTreeOp (UInt64 × K) V → Bool) :
    BTreeMap K V → List (BTreeOp (UInt64 × K) V) → Bool
  | _, [] => true
  | m, op :: rest => ask m op && everyStep fo ask (m.apply fo op).1 rest

theorem everyStep_append (fo : Fanouts) (ask : BTreeMap K V → BTreeOp (UInt64 × K) V → Bool) :
    ∀ (before after : List (BTreeOp (UInt64 × K) V)) (m : BTreeMap K V),
      everyStep fo ask m (before ++ after) =
        (everyStep fo ask m before && everyStep fo ask (m.run fo before) after) := by
  intro before
  induction before with
  | nil =>
    intro after m
    rfl
  | cons op rest ih =>
    intro after m
    rw [List.cons_append, everyStep, everyStep, ih, Bool.and_assoc]
    rfl

variable {fo : Fanouts} {terms : Terms K V} {U : Nat → K → Prop}
  {L : (Nat → K → Prop) → Nat → Nat → Leaf K V → Prop} {m : BTreeMap K V}

theorem apply_good (rules : MapRules fo terms U L) (wf : MapWF U L m)
    {op : BTreeOp (UInt64 × K) V} (admitted : U op.key.1.toNat op.key.2)
    (ok : alongApply fo terms m op = true) :
    MapWF U L (m.apply fo op).1 ∧
      ∀ h, h < hashBound → (m.apply fo op).1.find fo h = op.pending.effect h (m.find fo h) := by
  cases op with
  | erase key =>
    have good := eraseImpl_good rules wf ⟨toNat_lt_hashBound key.1, admitted⟩ ok
    exact ⟨good.wf, good.looks⟩
  | insert key value =>
    unfold alongApply alongInsert at ok
    simp only [Bool.and_eq_true] at ok
    obtain ⟨wfRehashed, same⟩ := maybeRehash_good rules wf ok.1
    have good := place_good rules wfRehashed ⟨toNat_lt_hashBound key.1, admitted⟩ ok.2
    refine ⟨good.wf, ?_⟩
    intro h below
    rw [← same h below]
    exact good.looks h below

omit [DecidableEq K] in
theorem empty_wf (bits capacity : Nat) (more : Nat → Nat) :
    MapWF U L (BTreeMap.empty (2 ^ bits) capacity more : BTreeMap K V) := by
  have start := @cleared_wf K V U L (BTreeMap.empty (2 ^ bits) capacity more) (2 ^ bits)
    (Nat.two_pow_pos bits)
  exact ⟨start.positive, start.trees, start.attached, start.listed.all, start.listed.once,
    start.listed.used⟩

theorem run_good (rules : MapRules fo terms U L) : ∀ (ops : List (BTreeOp (UInt64 × K) V))
    (m : BTreeMap K V), MapWF U L m → (∀ op, op ∈ ops → U op.key.1.toNat op.key.2) →
    everyStep fo (alongApply fo terms) m ops = true →
    MapWF U L (m.run fo ops) ∧ ∀ key : UInt64 × K, (m.run fo ops).find fo key.1.toNat key.2 =
      (ops.map BTreeOp.toMapOp).foldl (MapOp.overwrite key) (m.find fo key.1.toNat key.2) := by
  intro ops
  induction ops with
  | nil =>
    intro m wf _ _
    exact ⟨wf, fun _ => rfl⟩
  | cons op rest ih =>
    intro m wf admitted ok
    rw [everyStep, Bool.and_eq_true] at ok
    obtain ⟨wfStep, looks⟩ := apply_good rules wf (admitted op List.mem_cons_self) ok.1
    obtain ⟨wfRest, finds⟩ := ih _ wfStep
      (fun x member => admitted x (List.mem_cons_of_mem _ member)) ok.2
    refine ⟨wfRest, ?_⟩
    intro key
    have step : (m.apply fo op).1.find fo key.1.toNat key.2 =
        op.toMapOp.overwrite key (m.find fo key.1.toNat key.2) := by
      rw [looks _ (toNat_lt_hashBound key.1)]
      exact pending_effect op key _
    rw [List.map_cons, List.foldl_cons, ← step]
    exact finds key

end Runs

section Slabs
variable [DecidableEq K] (fo : Fanouts)

/-- `flush_all` does not move the slab while it has children of a node to read. -/
def flushStays (m : BTreeMap K V) : Bool :=
  alongBuckets fo (slabStays fo) (List.range m.nBuckets) m

/-- The call does not move the slab while a drain has children of a node to read. -/
def poolStays (m : BTreeMap K V) : BTreeOp (UInt64 × K) V → Bool
  | .insert _ _ => !m.overloaded fo || flushStays fo m
  | .erase _ => true

theorem flushBucket_stale (m : BTreeMap K V) (b : Nat) :
    (m.flushBucket fo b).stale = (m.stale || !alongBucket (slabStays fo) m b) := by
  unfold BTreeMap.flushBucket alongBucket
  cases m.buckets b with
  | none => exact (Bool.or_false _).symm
  | some root => exact drainRecursive_stale fo root.height root.tree m.pool

theorem flushBuckets_stale : ∀ (buckets : List Nat) (m : BTreeMap K V),
    (buckets.foldl (BTreeMap.flushBucket fo) m).stale =
      (m.stale || !alongBuckets fo (slabStays fo) buckets m) := by
  intro buckets
  induction buckets with
  | nil =>
    intro m
    exact (Bool.or_false _).symm
  | cons b rest ih =>
    intro m
    rw [List.foldl_cons, ih, flushBucket_stale, alongBuckets, Bool.not_and, Bool.or_assoc]

theorem flushAll_stale (m : BTreeMap K V) :
    (m.flushAll fo).stale = (m.stale || !flushStays fo m) :=
  flushBuckets_stale fo (List.range m.nBuckets) m

theorem place_stale (m : BTreeMap K V) (h : Nat) (k : K) (v : V) :
    (m.place fo h k v).1.stale = m.stale := by
  unfold BTreeMap.place
  cases m.buckets (m.bucketOf h) with
  | none => exact m.pool.slab.alloc_stale
  | some root => exact rootApply_stale fo root ⟨h, k, some v⟩ m.pool

theorem eraseImpl_stale (m : BTreeMap K V) (h : Nat) (k : K) :
    (m.eraseImpl fo h k).1.stale = m.stale := by
  unfold BTreeMap.eraseImpl
  cases m.buckets (m.bucketOf h) with
  | none => rfl
  | some root => exact rootApply_stale fo root ⟨h, k, none⟩ m.pool

theorem placeAll_stale : ∀ (entries : List (Entry K V)) (m : BTreeMap K V),
    (placeAll fo m entries).stale = m.stale := by
  intro entries
  induction entries with
  | nil => exact fun _ => rfl
  | cons e rest ih =>
    intro m
    exact (ih _).trans (place_stale fo m e.hash e.key e.value)

theorem refill_stale : ∀ (nodes : List (LeafNode K V)) (m : BTreeMap K V),
    (refill fo m nodes).stale = m.stale := by
  intro nodes
  induction nodes with
  | nil => exact fun _ => rfl
  | cons node rest ih =>
    intro m
    exact (ih _).trans (placeAll_stale fo node.entries m.freeSlot)

theorem maybeRehash_stale (m : BTreeMap K V) :
    (m.maybeRehash fo).stale = (m.stale || !(!m.overloaded fo || flushStays fo m)) := by
  unfold BTreeMap.maybeRehash
  cases m.overloaded fo with
  | false => exact (Bool.or_false _).symm
  | true => exact (refill_stale fo _ _).trans (flushAll_stale fo m)

theorem apply_stale (m : BTreeMap K V) (op : BTreeOp (UInt64 × K) V) :
    (m.apply fo op).1.stale = (m.stale || !poolStays fo m op) := by
  cases op with
  | insert key value => exact (place_stale fo _ _ _ _).trans (maybeRehash_stale fo m)
  | erase key => exact (eraseImpl_stale fo m _ _).trans (Bool.or_false _).symm

/-- A run reads memory that was given back exactly if at some call the slab moves
under a drain. -/
theorem run_stale : ∀ (ops : List (BTreeOp (UInt64 × K) V)) (m : BTreeMap K V),
    (m.run fo ops).stale = (m.stale || !everyStep fo (poolStays fo) m ops) := by
  intro ops
  induction ops with
  | nil =>
    intro m
    exact (Bool.or_false _).symm
  | cons op rest ih =>
    intro m
    refine (ih _).trans ?_
    rw [apply_stale, everyStep, Bool.not_and, Bool.or_assoc]

theorem everyStep_and (ask ask' : BTreeMap K V → BTreeOp (UInt64 × K) V → Bool) :
    ∀ (ops : List (BTreeOp (UInt64 × K) V)) (m : BTreeMap K V),
      everyStep fo (fun m op => ask m op && ask' m op) m ops =
        (everyStep fo ask m ops && everyStep fo ask' m ops) := by
  intro ops
  induction ops with
  | nil =>
    intro m
    rfl
  | cons op rest ih =>
    intro m
    rw [everyStep, everyStep, everyStep, ih]
    ac_rfl

end Slabs

/-- A `FanoutOverride` with which a half of a split node has room for one more
pivot and the 32-bit mask of `hash_scan_eq` has a bit for every entry. -/
def overrideFits (fanoutOverride : Nat) : Prop :=
  fanoutOverride = 0 ∨ 4 ≤ fanoutOverride ∧ fanoutOverride ≤ 32

theorem pickFanouts_two {fanoutOverride : Nat} (fits : overrideFits fanoutOverride)
    (kvBytes : Nat) : 2 ≤ (pickFanouts kvBytes fanoutOverride).leaf := by
  unfold pickFanouts pickLeafFanout
  rcases fits with rfl | ⟨four, _⟩
  · simp only [lt_irrefl, if_false]
    split
    · decide
    · split <;> decide
  · simp only
    split <;> omega

section Chains
variable [DecidableEq K]

/-- No leaf split that the call brings about parts a chain from its class. -/
def splitsKeepChains (fo : Fanouts) (m : BTreeMap K V) (op : BTreeOp (UInt64 × K) V) : Bool :=
  alongApply fo (chainTerms fo.leaf) m op

theorem chain_rules {fo : Fanouts} (two : 2 ≤ fo.leaf) (U : Nat → K → Prop) :
    MapRules (V := V) fo (chainTerms fo.leaf) U LeafWF :=
  ⟨two, fun _ _ => leafWF_rules two _⟩

/-- The leaf splits keep the chains, and the slab stays where it is under a drain. -/
def opKeepsKeys (fo : Fanouts) (m : BTreeMap K V) (op : BTreeOp (UInt64 × K) V) : Bool :=
  splitsKeepChains fo m op && poolStays fo m op

end Chains

/-- Nine keys of one hash fill a leaf of eight and its chain; a key of a lower
hash makes the leaf split in front of the class. -/
def chainMoves : List (BTreeOp (UInt64 × Nat) Nat) :=
  (List.range 9).map (fun i => .insert (32, i) i) ++ [.insert (16, 100) 100, .erase (32, 3)]

/-- A map of sixteen buckets and slots, whose slab doubles. -/
def sixteen {K V : Type} : BTreeMap K V := BTreeMap.empty (2 ^ 4) 16 fun capacity => capacity - 1

/-- Nine keys of one hash, one of them erased from the primary node, one key of a
lower hash in its place; the next key makes the mixed node split. -/
def chainParted : List (BTreeOp (UInt64 × Nat) Nat) :=
  (List.range 9).map (fun i => .insert (32, i) i) ++
    [.erase (32, 0), .insert (16, 100) 100, .insert (48, 101) 101]

end Micron.BTree
