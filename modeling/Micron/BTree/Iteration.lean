import Micron.BTree.InjectiveHash

/-!
# Iterating a B-tree map

`begin()`, `for_each` and `flush_all` drain all buffers with `drain_recursive`.
When a drain splits its inner node, the right half is freed and its leaves are
reached from the leaf list only: the iteration passes over their keys, but no
lookup finds them any more.  As long as no drain splits its node or moves the slab
it reads, an iteration changes no lookup and passes over every binding once.
-/

set_option autoImplicit false

namespace Micron.BTree

open Micron.Lib Bool

variable {K V : Type} [DecidableEq K]

/-- No leaf split of the call parts a chain from its class, a flush splits no inner
node, and no drain moves the slab it reads. -/
def callKeepsTrees (fo : Fanouts) (m : BTreeMap K V) : BTreeCall (UInt64 × K) V → Bool
  | .op op => opKeepsKeys fo m op
  | .flush => (alongFlushAll fo (chainTerms fo.leaf) m && flushStaysWhole fo m) && flushStays fo m

/-- A condition on the map and the call, at every call of a run. -/
def everyCall (fo : Fanouts) (ask : BTreeMap K V → BTreeCall (UInt64 × K) V → Bool) :
    BTreeMap K V → List (BTreeCall (UInt64 × K) V) → Bool
  | _, [] => true
  | m, call :: rest => ask m call && everyCall fo ask (m.call fo call) rest

theorem everyCall_append (fo : Fanouts) (ask : BTreeMap K V → BTreeCall (UInt64 × K) V → Bool) :
    ∀ (before after : List (BTreeCall (UInt64 × K) V)) (m : BTreeMap K V),
      everyCall fo ask m (before ++ after) =
        (everyCall fo ask m before && everyCall fo ask (m.runCalls fo before) after) := by
  intro before
  induction before with
  | nil =>
    intro after m
    rfl
  | cons call rest ih =>
    intro after m
    rw [List.cons_append, everyCall, everyCall, ih, Bool.and_assoc]
    rfl

section Runs
variable {fo : Fanouts} {m : BTreeMap K V}

theorem runCalls_wf (two : 2 ≤ fo.leaf) {U : Nat → K → Prop} :
    ∀ (calls : List (BTreeCall (UInt64 × K) V)) (m : BTreeMap K V), MapWF U LeafWF m →
      (∀ op, .op op ∈ calls → U op.key.1.toNat op.key.2) →
      everyCall fo (callKeepsTrees fo) m calls = true → MapWF U LeafWF (m.runCalls fo calls) := by
  intro calls
  induction calls with
  | nil =>
    intro m wf _ _
    exact wf
  | cons call rest ih =>
    intro m wf admitted ok
    rw [everyCall, and_eq_true] at ok
    have rules : MapRules (V := V) fo (chainTerms fo.leaf) U LeafWF := chain_rules two _
    have later : ∀ op, .op op ∈ rest → U op.key.1.toNat op.key.2 :=
      fun op inside => admitted op (List.mem_cons_of_mem call inside)
    cases call with
    | op op =>
      have keeps := ok.1
      rw [callKeepsTrees, opKeepsKeys, and_eq_true] at keeps
      exact ih _ (apply_good rules wf (admitted op List.mem_cons_self) keeps.1).1 later ok.2
    | flush =>
      have keeps := ok.1
      rw [callKeepsTrees, and_eq_true, and_eq_true] at keeps
      obtain ⟨_, _, whole⟩ := flushAll_good rules wf keeps.1.1
      exact ih _ (whole keeps.1.2).1 later ok.2

theorem runCalls_stale : ∀ (calls : List (BTreeCall (UInt64 × K) V)) (m : BTreeMap K V),
    everyCall fo (callKeepsTrees fo) m calls = true → (m.runCalls fo calls).stale = m.stale := by
  intro calls
  induction calls with
  | nil => exact fun _ _ => rfl
  | cons call rest ih =>
    intro m ok
    rw [everyCall, and_eq_true] at ok
    refine (ih _ ok.2).trans ?_
    have keeps := ok.1
    cases call with
    | op op =>
      rw [callKeepsTrees, opKeepsKeys, and_eq_true] at keeps
      rw [BTreeMap.call, apply_stale, keeps.2]
      exact or_false _
    | flush =>
      rw [callKeepsTrees, and_eq_true] at keeps
      rw [BTreeMap.call, flushAll_stale, keeps.2]
      exact or_false _

theorem flush_keeps_map (two : 2 ≤ fo.leaf) (wf : MapWF (fun _ _ => True) LeafWF m)
    (keeps : callKeepsTrees fo m .flush = true) :
    (∀ h, h < hashBound → (m.flushAll fo).find fo h = m.find fo h) ∧
      ListsBindings (fun _ _ => True) (m.flushAll fo).visited (m.find fo) := by
  rw [callKeepsTrees, and_eq_true, and_eq_true] at keeps
  obtain ⟨holds, listed, whole⟩ := flushAll_good (chain_rules two _) wf keeps.1.1
  exact ⟨(whole keeps.1.2).2, visited_lists holds listed⟩

end Runs

def bucketInserts (count : Nat) : List (BTreeOp (UInt64 × Nat) Nat) :=
  (List.range count).map fun i => .insert (oneBucketHash i, i) i

def bucketCalls (count : Nat) : List (BTreeCall (UInt64 × Nat) Nat) :=
  (bucketInserts count).map .op

def fullRoot : BTreeMap Nat Nat := sixteen.run (pickFanouts 16 4) (bucketInserts 15)

end Micron.BTree
