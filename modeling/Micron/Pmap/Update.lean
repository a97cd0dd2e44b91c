import Micron.Pmap.Spec

/-!
# Updates of the trie

`insertInto` leaves the entries of the other keys and the new one; `eraseFrom`
leaves the entries of the other keys, and no node at all where none is left.
-/

set_option autoImplicit false

namespace Micron.Pmap

open Micron.Lib List

variable {K V : Type} [DecidableEq K] {hash : K → UInt64}

omit [DecidableEq K] in
/-- The entries of a key are below the child of its index. -/
theorem Good.index_of_key {d : Nat} {bitmap : BitVec 32} {children : List (Node K V)}
    (good : Good hash d (.internal bitmap children)) (full : children.length = popcount bitmap) (k : K) :
    ∀ e, Below (slot bitmap children) walk e → ¬e.key ≠ k → idxAt e.h d = idxAt (hash k) d := by
  intro e held same
  rw [good.hashed e ((mem_walk_internal full).mpr held), not_not.mp same]

structure Inserted (hash : K → UInt64) (k : K) (v : V) (d : Nat) (n : Node K V)
    (result : Node K V × Bool) : Prop where
  good : Good hash d result.1
  entries : ∀ e, e ∈ walk result.1 ↔ e = ⟨hash k, k, v⟩ ∨ e.key ≠ k ∧ e ∈ walk n
  replaced : result.2 = true ↔ ∃ e ∈ walk n, e.key = k

omit [DecidableEq K] in
theorem good_single (k : K) (v : V) (d : Nat) : Good hash d (.leaf 0 ⟨hash k, k, v⟩ []) :=
  .leaf d (by simp) (by simp) rfl

theorem inserted_leaf {k : K} {v : V} {d : Nat} {overflowLen : UInt32} {first : Entry K V}
    {overflow : List (Entry K V)} (hashed : ∀ e ∈ first :: overflow, e.h = hash e.key)
    (distinct : ((first :: overflow).map Entry.key).Nodup)
    (counted : overflowLen = chainLen overflow) :
    Inserted hash k v d (.leaf overflowLen first overflow)
      (insertInto (hash k) k v d (.leaf overflowLen first overflow)) := by
  have firstHashed := hashed first mem_cons_self
  have restHashed : ∀ e ∈ overflow, e.h = hash e.key :=
    fun e member => hashed e (mem_cons_of_mem _ member)
  have parts := distinct
  rw [map_cons, nodup_cons] at parts
  obtain ⟨notLater, restDistinct⟩ := parts
  rw [insertInto]
  split
  · rename_i is
    have here := (entry_is_hash firstHashed k).mp is
    subst here
    constructor
    · refine .leaf d ?_ distinct counted
      intro e member
      rcases mem_cons.mp member with rfl | later
      · rfl
      · exact restHashed e later
    · intro e
      rw [walk, walk]
      exact mem_put_here distinct rfl e
    · simp [walk]
  · rename_i isNot
    rw [entry_is_hash firstHashed k] at isNot
    split
    · rename_i inChain
      rw [chainHas_iff k restHashed] at inChain
      have replaced := mem_chainCopyWithReplace k restHashed restDistinct inChain v
      constructor
      · refine .leaf d ?_ ?_ ?_
        · intro e member
          rcases mem_cons.mp member with rfl | later
          · exact firstHashed
          · rcases (replaced e).mp later with rfl | ⟨_, old⟩
            · rfl
            · exact restHashed e old
        · rw [map_cons, keys_chainCopyWithReplace]
          exact distinct
        · rw [chainLen, length_chainCopyWithReplace]
          exact counted
      · intro e
        rw [walk, walk]
        exact mem_put_later isNot (replaced e)
      · simpa [walk] using .inr inChain
    · rename_i notInChain
      rw [chainHas_iff k restHashed] at notInChain
      have absent : ∀ e ∈ first :: overflow, e.key ≠ k := by
        intro e member same
        rcases mem_cons.mp member with rfl | later
        · exact isNot same
        · exact notInChain ⟨e, later, same⟩
      have hashed' : ∀ e ∈ (⟨hash k, k, v⟩ : Entry K V) :: first :: overflow, e.h = hash e.key := by
        intro e member
        rcases mem_cons.mp member with rfl | old
        · rfl
        · exact hashed e old
      have distinct' :
          (((⟨hash k, k, v⟩ : Entry K V) :: first :: overflow).map Entry.key).Nodup := by
        rw [map_cons, nodup_cons]
        refine ⟨?_, distinct⟩
        intro member
        obtain ⟨e, old, same⟩ := mem_map.mp member
        exact absent e old same
      have entries : ∀ e : Entry K V, (e = ⟨hash k, k, v⟩ ∨ e ∈ first :: overflow) ↔
          (e = ⟨hash k, k, v⟩ ∨ e.key ≠ k ∧ e ∈ walk (.leaf overflowLen first overflow)) := by
        intro e
        rw [walk]
        exact or_congr_right (iff_and_self.mpr (absent e))
      have fresh : (false = true) ↔
          ∃ e ∈ walk (.leaf overflowLen first overflow), e.key = k := by
        rw [walk]
        constructor
        · intro impossible
          cases impossible
        · rintro ⟨e, member, same⟩
          exact absurd same (absent e member)
      split
      · rename_i divided
        obtain ⟨good, content⟩ := splitLeafWithExtra_good divided.2.1 hashed' distinct'
        refine ⟨good, ?_, fresh⟩
        intro e
        rw [content e, entries e]
      · constructor
        · refine .leaf d ?_ ?_ ?_
          · intro e member
            apply hashed'
            exact (List.Perm.swap _ _ overflow).mem_iff.mp member
          · have swapped := List.Perm.swap (⟨hash k, k, v⟩ : Entry K V) first overflow
            exact (swapped.map Entry.key).nodup_iff.mpr distinct'
          · rw [counted, chainLen_cons]
        · intro e
          rw [← entries e, ← mem_cons, walk]
          exact (List.Perm.swap _ _ overflow).mem_iff
        · exact fresh

theorem Good.insertInto {d : Nat} {n : Node K V} (good : Good hash d n) (k : K) (v : V) :
    Inserted hash k v d n (insertInto (hash k) k v d n) := by
  induction good with
  | leaf d hashed distinct counted => exact inserted_leaf hashed distinct counted
  | @internal d bitmap children shallow full routed goods ih =>
    have whole : Good hash d (.internal bitmap children) := .internal shallow full routed goods
    have routed : Routed (slot bitmap children) walk fun e => idxAt e.h d := routed
    have index := whole.index_of_key full k
    have inside := idxAt_lt (hash k) d
    have at_i : (fun e : Entry K V => idxAt e.h d) ⟨hash k, k, v⟩ = idxAt (hash k) d := rfl
    rw [insertInto_internal _ _ _ _ full]
    cases found : slot bitmap children (idxAt (hash k) d) with
    | none =>
      have free : bitmap.getLsbD (idxAt (hash k) d) = false := by
        cases inUse : bitmap.getLsbD (idxAt (hash k) d) with
        | false => rfl
        | true =>
          obtain ⟨c, there, _⟩ := slot_of_inUse full inUse
          rw [found] at there
          cases there
      have place : physIdx (bitmap ||| (1#32 <<< idxAt (hash k) d)) (idxAt (hash k) d) =
          rank bitmap (idxAt (hash k) d) := by
        rw [physIdx_eq _ inside, rank_or_bit inside free, if_neg (lt_irrefl _)]
      have slots := slot_insert full inside free (.leaf 0 ⟨hash k, k, v⟩ [])
      have single : ∀ e, e ∈ walk (.leaf 0 ⟨hash k, k, v⟩ []) ↔ e = ⟨hash k, k, v⟩ := by simp [walk]
      obtain ⟨routed', entries⟩ := routed.put_child found slots at_i single index
      simp only [internalInsert, place]
      have full' : (children.take (rank bitmap (idxAt (hash k) d)) ++ .leaf 0 ⟨hash k, k, v⟩ [] ::
          children.drop (rank bitmap (idxAt (hash k) d))).length =
            popcount (bitmap ||| (1#32 <<< idxAt (hash k) d)) := by
        rw [popcount_or_bit inside free, ← full]
        simp
        omega
      refine ⟨.internal shallow full' routed' (forall_replaced slots goods (good_single k v (d + 1))), ?_, ?_⟩
      · intro e
        rw [mem_walk_internal full', mem_walk_internal full]
        exact entries e
      · refine iff_of_false Bool.false_ne_true ?_
        rintro ⟨e, member, same⟩
        have held := (mem_walk_internal full).mp member
        exact routed.not_holds (index e held (not_not.mpr same)) found held
    | some c =>
      obtain ⟨goodChild, childEntries, childReplaced⟩ := ih _ c found
      have slots := slot_set full (inUse_of_slot found) (Pmap.insertInto (hash k) k v (d + 1) c).1
      obtain ⟨routed', entries⟩ := routed.put found slots at_i childEntries index
      simp only [internalReplace, physIdx_eq bitmap inside]
      have full' : (children.set (rank bitmap (idxAt (hash k) d))
          (Pmap.insertInto (hash k) k v (d + 1) c).1).length = popcount bitmap := by
        rw [length_set, full]
      refine ⟨.internal shallow full' routed' (forall_replaced slots goods goodChild), ?_, ?_⟩
      · intro e
        rw [mem_walk_internal full', mem_walk_internal full]
        exact entries e
      · rw [childReplaced]
        constructor
        · rintro ⟨e, member, same⟩
          exact ⟨e, (mem_walk_internal full).mpr ⟨_, c, found, member⟩, same⟩
        · rintro ⟨e, member, same⟩
          have held := (mem_walk_internal full).mp member
          exact ⟨e, (routed.holds_iff (index e held (not_not.mpr same)) found).mp held, same⟩

structure Erased (hash : K → UInt64) (k : K) (d : Nat) (n : Node K V)
    (result : Node K V × Bool) : Prop where
  found : result.2 = true ↔ ∃ e ∈ walk n, e.key = k
  missing : result.2 = false → result.1 = n
  good : result.1 = .null ∨ Good hash d result.1
  entries : ∀ e, e ∈ walk result.1 ↔ e.key ≠ k ∧ e ∈ walk n

omit [DecidableEq K] in
theorem erased_missing {k : K} {d : Nat} {n : Node K V} (good : Good hash d n)
    (absent : ∀ e ∈ walk n, e.key ≠ k) : Erased hash k d n (n, false) := by
  constructor
  · constructor
    · intro impossible
      cases impossible
    · rintro ⟨e, member, same⟩
      exact absurd same (absent e member)
  · exact fun _ => rfl
  · exact .inr good
  · intro e
    exact iff_and_self.mpr (absent e)

theorem erased_leaf {k : K} {d : Nat} {overflowLen : UInt32} {first : Entry K V}
    {overflow : List (Entry K V)} (hashed : ∀ e ∈ first :: overflow, e.h = hash e.key)
    (distinct : ((first :: overflow).map Entry.key).Nodup)
    (counted : overflowLen = chainLen overflow) :
    Erased hash k d (.leaf overflowLen first overflow)
      (eraseFrom (hash k) k d (.leaf overflowLen first overflow)) := by
  have firstHashed := hashed first mem_cons_self
  have restHashed : ∀ e ∈ overflow, e.h = hash e.key :=
    fun e member => hashed e (mem_cons_of_mem _ member)
  have parts := distinct
  rw [map_cons, nodup_cons] at parts
  obtain ⟨notLater, restDistinct⟩ := parts
  rw [eraseFrom.eq_def]
  simp only
  split
  · rename_i is
    have here := (entry_is_hash firstHashed k).mp is
    subst here
    have entries := mem_tail_of_distinct distinct rfl
    have there : (true = true) ↔
        ∃ e ∈ walk (.leaf overflowLen first overflow), e.key = first.key := by
      simp [walk]
    cases overflow with
    | nil =>
      refine ⟨there, (fun h => by cases h), .inl rfl, ?_⟩
      intro e
      rw [walk, walk]
      exact entries e
    | cons e rest =>
      refine ⟨there, (fun h => by cases h), .inr ?_, ?_⟩
      · refine .leaf d restHashed restDistinct ?_
        have shorter : rest.length = (e :: rest).length - 1 := rfl
        rw [counted, chainLen_pred shorter (Nat.succ_pos _)]
      · intro e'
        rw [walk, walk]
        exact entries e'
  · rename_i isNot
    rw [entry_is_hash firstHashed k] at isNot
    split
    · rename_i inChain
      have there := (chainHas_iff k restHashed).mp inChain
      have remaining := mem_chainCopyWithErase k restHashed restDistinct
      have shorter := chainCopyWithErase_sublist k (hash k) (c := overflow)
      refine ⟨?_, (fun h => by cases h), .inr ?_, ?_⟩
      · simpa [walk] using .inr there
      · refine .leaf d ?_ ?_ ?_
        · intro e member
          exact hashed e ((shorter.cons_cons first).subset member)
        · exact distinct.sublist ((shorter.cons_cons first).map Entry.key)
        · obtain ⟨e, member, _⟩ := there
          have shorterByOne := length_chainCopyWithErase k (hash k) inChain
          rw [counted, chainLen_pred shorterByOne (length_pos_of_mem member)]
      · intro e
        rw [walk, walk]
        exact mem_cons_kept isNot (remaining e)
    · rename_i notInChain
      rw [chainHas_iff k restHashed] at notInChain
      apply erased_missing (.leaf d hashed distinct counted)
      intro e member same
      rw [walk] at member
      rcases mem_cons.mp member with rfl | later
      · exact isNot same
      · exact notInChain ⟨e, later, same⟩

theorem Good.eraseFrom {d : Nat} {n : Node K V} (good : Good hash d n) (k : K) :
    Erased hash k d n (eraseFrom (hash k) k d n) := by
  induction good with
  | leaf d hashed distinct counted => exact erased_leaf hashed distinct counted
  | @internal d bitmap children shallow full routed goods ih =>
    have whole : Good hash d (.internal bitmap children) := .internal shallow full routed goods
    have routed : Routed (slot bitmap children) walk fun e => idxAt e.h d := routed
    have index := whole.index_of_key full k
    have inside := idxAt_lt (hash k) d
    rw [eraseFrom_internal _ _ _ full]
    cases found : slot bitmap children (idxAt (hash k) d) with
    | none =>
      apply erased_missing whole
      intro e member same
      have held := (mem_walk_internal full).mp member
      exact routed.not_holds (index e held (not_not.mpr same)) found held
    | some c =>
      have inUse := inUse_of_slot found
      have outcome := ih _ c found
      have there : (∃ e ∈ walk c, e.key = k) →
          ((true = true) ↔ ∃ e ∈ walk (.internal bitmap children), e.key = k) := by
        rintro ⟨e, member, same⟩
        refine iff_of_true rfl ⟨e, ?_, same⟩
        exact (mem_walk_internal full).mpr ⟨_, c, found, member⟩
      simp only
      generalize Pmap.eraseFrom (hash k) k (d + 1) c = result at outcome
      obtain ⟨newChild, removed⟩ := result
      obtain ⟨childFound, childMissing, childGood, childEntries⟩ := outcome
      cases removed with
      | false =>
        apply erased_missing whole
        intro e member same
        have held := (mem_walk_internal full).mp member
        have below := (routed.holds_iff (index e held (not_not.mpr same)) found).mp held
        have impossible := childFound.mpr ⟨e, below, same⟩
        cases impossible
      | true =>
        have replaced : newChild ≠ .null →
            Erased hash k d (.internal bitmap children)
              (internalReplace bitmap children (idxAt (hash k) d) newChild, true) := by
          intro someChild
          have slots := slot_set full inUse newChild
          have full' : (children.set (rank bitmap (idxAt (hash k) d)) newChild).length = popcount bitmap := by
            rw [length_set, full]
          obtain ⟨routed', entries⟩ := routed.take found slots childEntries index
          rw [internalReplace, physIdx_eq bitmap inside]
          refine ⟨there (childFound.mp rfl), (fun h => by cases h), .inr ?_, ?_⟩
          · exact .internal shallow full' routed' (forall_replaced slots goods (childGood.resolve_left someChild))
          · intro e
            rw [mem_walk_internal full', mem_walk_internal full]
            exact entries e
        cases newChild with
        | leaf overflowLen first overflow => exact replaced (fun h => by cases h)
        | internal bitmap' children' => exact replaced (fun h => by cases h)
        | null =>
          have emptied : ∀ e, e ∉ walk (.null : Node K V) := by
            intro e
            rw [walk]
            exact not_mem_nil
          have below : ∀ e ∈ walk c, ¬e.key ≠ k :=
            fun e member other => emptied e ((childEntries e).mpr ⟨other, member⟩)
          simp only [internalRemove, physIdx_eq bitmap inside]
          have full' : (children.take (rank bitmap (idxAt (hash k) d)) ++
              children.drop (rank bitmap (idxAt (hash k) d) + 1)).length =
                popcount (bitmap &&& ~~~(1#32 <<< idxAt (hash k) d)) := by
            have room := rank_lt_popcount inUse
            rw [popcount_clear_bit inside inUse, ← full]
            simp
            omega
          have slots := slot_remove full inside inUse
          obtain ⟨routed', entries⟩ := routed.take_child found slots below index
          split
          · rename_i noChild
            refine ⟨there (childFound.mp rfl), (fun h => by cases h), .inl rfl, fun e => iff_of_false (emptied e) ?_⟩
            rw [mem_walk_internal full]
            intro kept
            obtain ⟨i, c', found', _⟩ := (entries e).mpr kept
            have set := inUse_of_slot found'
            rw [noChild] at set
            simp at set
          · refine ⟨there (childFound.mp rfl), (fun h => by cases h), .inr ?_, ?_⟩
            · exact .internal shallow full' routed' fun i c' found' => goods i c' (of_removed slots found').2
            · intro e
              rw [mem_walk_internal full', mem_walk_internal full]
              exact entries e

end Micron.Pmap
