import Mathlib.Data.List.Perm.Basic
import Mathlib.Data.List.Nodup
import Micron.BTree.Model

/-!
# What an operation does to a leaf

A leaf holds the bindings of its entries, each hash and key once.  The lookup
of a well-formed leaf is membership of an entry, so every case of the leaf path
is settled by saying which entries there are afterwards.  The one thing a split
can get wrong is the overflow chain, which stays on one side as a whole:
`splitKeepsChain` asks that it belongs there.
-/

set_option autoImplicit false

namespace Micron.BTree

open Micron.Lib List Function

variable {K V : Type}

def Entry.ident (e : Entry K V) : Nat × K := (e.hash, e.key)

def Leaf.entries (leaf : Leaf K V) : List (Entry K V) := leaf.nodes.flatMap LeafNode.entries

def Distinct (es : List (Entry K V)) : Prop := (es.map Entry.ident).Nodup

section Entries
variable [DecidableEq K]

def lookupIn (es : List (Entry K V)) (h : Nat) (k : K) : Option V :=
  (es.find? (Entry.isFor h k)).map Entry.value

theorem isFor_iff {h : Nat} {k : K} {e : Entry K V} : e.isFor h k = true ↔ e.ident = (h, k) := by
  simp [Entry.isFor, Entry.ident]

omit [DecidableEq K] in
theorem Distinct.eq_of_ident {es : List (Entry K V)} (distinct : Distinct es) {e e' : Entry K V}
    (member : e ∈ es) (member' : e' ∈ es) (same : e.ident = e'.ident) : e = e' :=
  inj_on_of_nodup_map distinct member member' same

theorem lookupIn_eq_some_iff {es : List (Entry K V)} (distinct : Distinct es) {h : Nat} {k : K}
    {v : V} : lookupIn es h k = some v ↔ (⟨h, k, v⟩ : Entry K V) ∈ es := by
  unfold lookupIn
  constructor
  · intro found
    obtain ⟨e, first, value⟩ := Option.map_eq_some_iff.mp found
    have member := mem_of_find?_eq_some first
    have ident := isFor_iff.mp (find?_some first)
    cases ident
    cases value
    exact member
  · intro member
    have hit : (⟨h, k, v⟩ : Entry K V).isFor h k = true := isFor_iff.mpr rfl
    cases found : es.find? (Entry.isFor h k) with
    | none => exact absurd hit (find?_eq_none.mp found _ member)
    | some e =>
      have ident := isFor_iff.mp (find?_some found)
      have same := distinct.eq_of_ident (mem_of_find?_eq_some found) member ident
      rw [same]
      rfl

theorem lookupIn_append_left {es es' : List (Entry K V)} {h : Nat}
    (absent : ∀ e, e ∈ es' → e.hash ≠ h) : lookupIn (es ++ es') h = lookupIn es h := by
  funext k
  have none_right : es'.find? (Entry.isFor h k) = none := by
    apply find?_eq_none.mpr
    intro e member hit
    exact absent e member (congrArg Prod.fst (isFor_iff.mp hit))
  simp [lookupIn, find?_append, none_right]

theorem lookupIn_append_right {es es' : List (Entry K V)} {h : Nat}
    (absent : ∀ e, e ∈ es → e.hash ≠ h) : lookupIn (es ++ es') h = lookupIn es' h := by
  funext k
  have none_left : es.find? (Entry.isFor h k) = none := by
    apply find?_eq_none.mpr
    intro e member hit
    exact absent e member (congrArg Prod.fst (isFor_iff.mp hit))
  simp [lookupIn, find?_append, none_left]

theorem leaf_find_eq (leaf : Leaf K V) (h : Nat) (k : K) :
    leaf.find h k = lookupIn leaf.entries h k := by
  unfold Leaf.find Leaf.entries lookupIn
  induction leaf.nodes with
  | nil => rfl
  | cons node rest ih =>
    rw [findSome?_cons, flatMap_cons, find?_append, ih, LeafNode.find]
    cases node.entries.find? (Entry.isFor h k) <;> rfl

theorem leaf_has_iff {leaf : Leaf K V} {h : Nat} {k : K} :
    leaf.has h k = true ↔ ∃ e, e ∈ leaf.entries ∧ e.ident = (h, k) := by
  simp only [Leaf.has, LeafNode.has, Leaf.entries, any_eq_true, mem_flatMap, isFor_iff]
  constructor
  · intro found
    obtain ⟨node, inLeaf, e, inNode, ident⟩ := found
    exact ⟨e, ⟨node, inLeaf, inNode⟩, ident⟩
  · intro found
    obtain ⟨e, ⟨node, inLeaf, inNode⟩, ident⟩ := found
    exact ⟨node, inLeaf, e, inNode, ident⟩

end Entries

section Effects
variable [DecidableEq K]

/-- What an operation does to the bindings of the keys with hash `h`. -/
def PendingOp.effect (op : PendingOp K V) (h : Nat) (bindings : K → Option V) : K → Option V :=
  if op.hash = h then update bindings op.key op.value else bindings

omit [DecidableEq K] in
/-- An insert of an unbound key or an erase of a bound one. -/
def PendingOp.effective (op : PendingOp K V) (current : Option V) : Bool :=
  match op.value with
  | some _ => current.isNone
  | none => current.isSome

/-- The entries after an operation, told by membership. -/
def EntriesAfter (op : PendingOp K V) (es es' : List (Entry K V)) : Prop :=
  ∀ e, e ∈ es' ↔ (e ∈ es ∧ e.ident ≠ (op.hash, op.key)) ∨
    ∃ v, op.value = some v ∧ e = ⟨op.hash, op.key, v⟩

theorem lookupIn_effect {op : PendingOp K V} {es es' : List (Entry K V)} (distinct : Distinct es)
    (distinct' : Distinct es') (after : EntriesAfter op es es') (h : Nat) :
    lookupIn es' h = op.effect h (lookupIn es h) := by
  funext k
  apply Option.ext
  intro v
  rw [lookupIn_eq_some_iff distinct', after]
  unfold PendingOp.effect
  by_cases sameHash : op.hash = h
  · rw [if_pos sameHash]
    by_cases sameKey : k = op.key
    · subst sameKey sameHash
      simp [Entry.ident]
    · rw [update_of_ne sameKey, lookupIn_eq_some_iff distinct]
      simp [Entry.ident, sameKey]
  · rw [if_neg sameHash, lookupIn_eq_some_iff distinct]
    simp [Entry.ident, Ne.symm sameHash]

end Effects

section Changes
variable [DecidableEq K] {h : Nat} {k : K}

theorem changeFirst_entries {change : List (Entry K V) → List (Entry K V)}
    (empty : change [] = [])
    (here : ∀ es rest, es.any (Entry.isFor h k) = true → change (es ++ rest) = change es ++ rest)
    (later : ∀ es rest, es.any (Entry.isFor h k) = false → change (es ++ rest) = es ++ change rest) :
    ∀ nodes : List (LeafNode K V), (changeFirst h k change nodes).flatMap LeafNode.entries =
      change (nodes.flatMap LeafNode.entries) := by
  intro nodes
  induction nodes with
  | nil => exact empty.symm
  | cons node rest ih =>
    rw [changeFirst, flatMap_cons]
    cases found : node.has h k with
    | true =>
      exact (here _ _ found).symm
    | false =>
      simp only [Bool.false_eq_true, if_false, flatMap_cons, ih]
      exact (later _ _ found).symm

theorem leaf_changeFirst_nodes (change : List (Entry K V) → List (Entry K V))
    (leaf : Leaf K V) : (leaf.changeFirst h k change).nodes = changeFirst h k change leaf.nodes := by
  unfold Leaf.changeFirst Leaf.nodes
  rw [changeFirst]
  cases leaf.primary.has h k <;> rfl

theorem changeFirst_idx (change : List (Entry K V) → List (Entry K V)) :
    ∀ nodes : List (LeafNode K V), (changeFirst h k change nodes).map LeafNode.idx =
      nodes.map LeafNode.idx := by
  intro nodes
  induction nodes with
  | nil => rfl
  | cons node rest ih =>
    rw [changeFirst]
    cases node.has h k with
    | true => rfl
    | false => simp [ih]

theorem overwriteEntry_here (v : V) : ∀ es rest : List (Entry K V),
    es.any (Entry.isFor h k) = true →
    overwriteEntry h k v (es ++ rest) = overwriteEntry h k v es ++ rest := by
  intro es
  induction es with
  | nil =>
    intro rest found
    cases found
  | cons e es ih =>
    intro rest found
    rw [cons_append, overwriteEntry, overwriteEntry]
    cases hit : e.isFor h k with
    | true => rfl
    | false =>
      rw [any_cons, hit, Bool.false_or] at found
      simp [ih rest found]

theorem overwriteEntry_later (v : V) : ∀ es rest : List (Entry K V),
    es.any (Entry.isFor h k) = false →
    overwriteEntry h k v (es ++ rest) = es ++ overwriteEntry h k v rest := by
  intro es
  induction es with
  | nil =>
    intro rest _
    rfl
  | cons e es ih =>
    intro rest absent
    rw [any_cons, Bool.or_eq_false_iff] at absent
    rw [cons_append, overwriteEntry, absent.1]
    simp [ih rest absent.2]

theorem eraseP_here (es rest : List (Entry K V)) (found : es.any (Entry.isFor h k) = true) :
    (es ++ rest).eraseP (Entry.isFor h k) = es.eraseP (Entry.isFor h k) ++ rest := by
  obtain ⟨e, member, hit⟩ := any_eq_true.mp found
  exact eraseP_append_left hit rest member

theorem eraseP_later (es rest : List (Entry K V)) (absent : es.any (Entry.isFor h k) = false) :
    (es ++ rest).eraseP (Entry.isFor h k) = es ++ rest.eraseP (Entry.isFor h k) := by
  apply eraseP_append_right
  intro e member
  exact any_eq_false.mp absent e member

/-- In a list of distinct entries the first match is the only one. -/
theorem eraseP_eq_filter : ∀ {es : List (Entry K V)}, Distinct es →
    es.eraseP (Entry.isFor h k) = es.filter fun e => !e.isFor h k := by
  intro es
  induction es with
  | nil =>
    intro _
    rfl
  | cons e es ih =>
    intro distinct
    obtain ⟨fresh, rest⟩ := nodup_cons.mp distinct
    cases hit : e.isFor h k with
    | true =>
      rw [eraseP_cons_of_pos hit, filter_cons_of_neg (by simp [hit])]
      symm
      apply filter_eq_self.mpr
      intro x member
      rw [Bool.not_eq_true', Bool.eq_false_iff]
      intro hitX
      apply fresh
      have same : e.ident = x.ident := (isFor_iff.mp hit).trans (isFor_iff.mp hitX).symm
      rw [same]
      exact mem_map_of_mem member
    | false =>
      rw [eraseP_cons_of_neg (by simp [hit]), filter_cons_of_pos (by simp [hit]),
        ih rest]

theorem overwriteEntry_eq_map {v : V} : ∀ {es : List (Entry K V)}, Distinct es →
    overwriteEntry h k v es = es.map fun e => if e.isFor h k then { e with value := v } else e := by
  intro es
  induction es with
  | nil =>
    intro _
    rfl
  | cons e es ih =>
    intro distinct
    obtain ⟨fresh, rest⟩ := nodup_cons.mp distinct
    rw [overwriteEntry, map_cons]
    cases hit : e.isFor h k with
    | true =>
      simp only [if_true, List.cons.injEq, true_and]
      rw [map_congr_left (g := id), map_id]
      intro x member
      have missed : x.isFor h k = false := by
        rw [Bool.eq_false_iff]
        intro hitX
        apply fresh
        have same : e.ident = x.ident := (isFor_iff.mp hit).trans (isFor_iff.mp hitX).symm
        rw [same]
        exact mem_map_of_mem member
      simp [missed]
    | false => simp [ih rest]

end Changes

/-! ## Pools -/

/-- The pool has handed out new leaf indices, which `idxs'` and the leaf list
have besides the old ones. -/
def Grown (pool pool' : Pool) (idxs idxs' : List Nat) : Prop :=
  ∃ count, pool'.next = pool.next + count ∧
    idxs'.Perm (List.range' pool.next count ++ idxs) ∧
    pool'.leafList.Perm (List.range' pool.next count ++ pool.leafList)

theorem grown_refl (pool : Pool) (idxs : List Nat) : Grown pool pool idxs idxs :=
  ⟨0, rfl, List.Perm.refl _, List.Perm.refl _⟩

theorem grown_allocFor {β : Type} (pool : Pool) (split : Option β) (idxs : List Nat) :
    Grown pool (pool.allocFor split) idxs idxs := by
  cases split
  · exact grown_refl pool idxs
  · exact grown_refl pool idxs

theorem allocFor_total {β : Type} (pool : Pool) (split : Option β) :
    (pool.allocFor split).total = pool.total := by
  cases split <;> rfl

theorem Grown.perm {pool pool' : Pool} {idxs idxs' idxs'' : List Nat}
    (grown : Grown pool pool' idxs idxs') (same : idxs''.Perm idxs') :
    Grown pool pool' idxs idxs'' := by
  obtain ⟨count, next, added, listed⟩ := grown
  exact ⟨count, next, same.trans added, listed⟩

theorem Grown.trans {pool pool' pool'' : Pool} {idxs idxs' idxs'' : List Nat}
    (first : Grown pool pool' idxs idxs') (second : Grown pool' pool'' idxs' idxs'') :
    Grown pool pool'' idxs idxs'' := by
  obtain ⟨count, next, added, listed⟩ := first
  obtain ⟨count', next', added', listed'⟩ := second
  have ranges : List.range' pool.next (count + count') =
      List.range' pool.next count ++ List.range' (pool.next + count) count' := by
    rw [range'_append_1]
  have merge : ∀ old : List Nat,
      (List.range' (pool.next + count) count' ++ (List.range' pool.next count ++ old)).Perm
        (List.range' pool.next (count + count') ++ old) := by
    intro old
    rw [ranges, ← append_assoc]
    exact perm_append_comm.append_right old
  refine ⟨count + count', by omega, ?_, ?_⟩
  · rw [next] at added'
    exact (added'.trans (added.append_left _)).trans (merge _)
  · rw [next] at listed'
    exact (listed'.trans (listed.append_left _)).trans (merge _)

theorem Grown.frame {pool pool' : Pool} {idxs idxs' : List Nat}
    (grown : Grown pool pool' idxs idxs') (before after : List Nat) :
    Grown pool pool' (before ++ idxs ++ after) (before ++ idxs' ++ after) := by
  obtain ⟨count, next, added, listed⟩ := grown
  refine ⟨count, next, ?_, listed⟩
  have moved : (before ++ (List.range' pool.next count ++ idxs)).Perm
      (List.range' pool.next count ++ (before ++ idxs)) := by
    rw [← append_assoc, ← append_assoc]
    exact perm_append_comm.append_right idxs
  calc (before ++ idxs' ++ after).Perm (before ++ (List.range' pool.next count ++ idxs) ++ after) :=
        (added.append_left before).append_right after
    List.Perm _ (List.range' pool.next count ++ (before ++ idxs) ++ after) :=
        moved.append_right after
    List.Perm _ (List.range' pool.next count ++ (before ++ idxs ++ after)) := by
        rw [append_assoc]

theorem insertAfter_perm (anchor new : Nat) : ∀ list : List Nat,
    (insertAfter anchor new list).Perm (new :: list) := by
  intro list
  induction list with
  | nil => exact List.Perm.refl _
  | cons idx rest ih =>
    rw [insertAfter]
    split
    · exact List.Perm.swap _ _ _
    · exact (ih.cons idx).trans (List.Perm.swap _ _ _)

theorem grown_addAfter (pool : Pool) (anchor : Nat) (idxs idxs' : List Nat)
    (same : idxs'.Perm (pool.next :: idxs)) : Grown pool (pool.addAfter anchor) idxs idxs' :=
  ⟨1, rfl, same, insertAfter_perm anchor pool.next pool.leafList⟩

structure LeafWF (Q : Nat → K → Prop) (lo hi : Nat) (leaf : Leaf K V) : Prop where
  ranged : ∀ e, e ∈ leaf.entries → lo ≤ e.hash ∧ e.hash < hi ∧ Q e.hash e.key
  distinct : Distinct leaf.entries
  sorted : leaf.primary.entries.Pairwise fun a b => a.hash ≤ b.hash

def Leaf.idxs (leaf : Leaf K V) : List Nat := leaf.nodes.map LeafNode.idx

def Leaf.chain (leaf : Leaf K V) : List (Entry K V) := leaf.overflow.flatMap LeafNode.entries

theorem leaf_entries_eq (leaf : Leaf K V) :
    leaf.entries = leaf.primary.entries ++ leaf.chain := rfl

/-- What applying an operation to a subtree achieves.  `counted` is the condition
under which the operation is counted right: a drained one must change something
and be reported so, another must be reported as it is. -/
structure Applied.Good {α : Type} [DecidableEq K] (P : Nat → Nat → α → Prop)
    (look : α → Nat → K → Option V) (idxs : α → List Nat) (lo hi : Nat) (tree : α)
    (op : PendingOp K V) (pool : Pool) (counted : Bool → Prop) (applied : Applied α) : Prop where
  wf : OutWF P lo hi applied.tree applied.split
  looks : ∀ h, lo ≤ h → h < hi →
    outLook look applied.tree applied.split h = op.effect h (look tree h)
  grown : Grown pool applied.pool (idxs tree) (outItems idxs applied.tree applied.split)
  counts : ∀ drained, counted drained → applied.pool.total = pool.total ∧
    applied.inserted = (drained || op.effective (look tree op.hash op.key))

section Wholes
variable [DecidableEq K] {Q : Nat → K → Prop} {lo hi : Nat}

/-- The entries of a leaf that may have split are distinct, and its lookups are
the lookups in all of them. -/
theorem outWF_whole {left : Leaf K V} {split : Option (Nat × Leaf K V)}
    (wf : OutWF (LeafWF Q) lo hi left split) :
    Distinct (outItems Leaf.entries left split) ∧
      ∀ h, outLook Leaf.find left split h = lookupIn (outItems Leaf.entries left split) h := by
  cases split with
  | none => exact ⟨wf.distinct, fun h => funext fun k => leaf_find_eq left h k⟩
  | some half =>
    obtain ⟨p, right⟩ := half
    obtain ⟨_, _, wfLeft, wfRight⟩ := wf
    constructor
    · unfold Distinct
      rw [outItems, map_append]
      apply wfLeft.distinct.append wfRight.distinct
      intro ident inLeft inRight
      obtain ⟨e, member, rfl⟩ := mem_map.mp inLeft
      obtain ⟨e', member', same⟩ := mem_map.mp inRight
      have below := (wfLeft.ranged e member).2.1
      have above := (wfRight.ranged e' member').1
      have hash : e'.hash = e.hash := congrArg Prod.fst same
      omega
    · intro h
      rw [outLook, outItems]
      by_cases side : p ≤ h
      · rw [if_pos side, lookupIn_append_right]
        · exact funext fun k => leaf_find_eq right h k
        · intro e member same
          have below := (wfLeft.ranged e member).2.1
          omega
      · rw [if_neg side, lookupIn_append_left]
        · exact funext fun k => leaf_find_eq left h k
        · intro e member same
          have above := (wfRight.ranged e member).1
          omega

theorem outLook_of_perm {leaf : Leaf K V} (wf : LeafWF Q lo hi leaf) {left : Leaf K V}
    {split : Option (Nat × Leaf K V)} (out : OutWF (LeafWF Q) lo hi left split)
    (whole : (outItems Leaf.entries left split).Perm leaf.entries) (h : Nat) :
    outLook Leaf.find left split h = leaf.find h := by
  obtain ⟨distinct, looks⟩ := outWF_whole out
  rw [looks]
  funext k
  apply Option.ext
  intro v
  rw [leaf_find_eq, lookupIn_eq_some_iff distinct, lookupIn_eq_some_iff wf.distinct,
    whole.mem_iff]

theorem LeafWF.good_of {leaf : Leaf K V} (wf : LeafWF Q lo hi leaf) {op : PendingOp K V}
    {pool : Pool} {applied : Applied (Leaf K V)}
    (out : OutWF (LeafWF Q) lo hi applied.tree applied.split)
    (after : EntriesAfter op leaf.entries (outItems Leaf.entries applied.tree applied.split))
    (grown : Grown pool applied.pool leaf.idxs (outItems Leaf.idxs applied.tree applied.split))
    (total : applied.pool.total = pool.total)
    (inserted : applied.inserted = op.effective (leaf.find op.hash op.key)) :
    applied.Good (LeafWF Q) Leaf.find Leaf.idxs lo hi leaf op pool fun drained =>
      drained = true → op.effective (leaf.find op.hash op.key) = true := by
  obtain ⟨distinct, looks⟩ := outWF_whole out
  refine ⟨out, ?_, grown, ?_⟩
  · intro h _ _
    rw [looks, lookupIn_effect wf.distinct distinct after]
    congr 1
    exact funext fun k => (leaf_find_eq leaf h k).symm
  · intro drained counted
    refine ⟨total, ?_⟩
    rw [inserted]
    cases drained with
    | false => rfl
    | true => rw [counted rfl, Bool.true_or]

end Wholes

end Micron.BTree
