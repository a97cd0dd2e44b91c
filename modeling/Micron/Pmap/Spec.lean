import Micron.Lib.KeyedRun
import Micron.Lib.Routing
import Micron.Pmap.Model

/-!
# Lookup, insertion and erasure in the trie

`Good hash d n`: below a node at level `d` every entry is in the child that its
hash selects at that level, a leaf has distinct keys and the count of its chain
modulo `2 ^ 32`, and internal nodes stand above the deepest level.  Each operation is specified
by what it does to the entries a walk meets.
-/

set_option autoImplicit false

namespace Micron.Pmap

open Micron.Lib List

variable {K V : Type}

theorem idxAt_lt (h : UInt64) (depth : Nat) : idxAt h depth < 32 := by
  have masked : ∀ x : UInt32, (x &&& 31).toNat < 32 := by
    intro x
    exact lt_of_le_of_lt Nat.and_le_right (by decide)
  unfold idxAt
  split
  · exact masked _
  · exact masked _

theorem has_eq (bitmap : BitVec 32) (i : Nat) : has bitmap i = bitmap.getLsbD i := by
  have odd : (bitmap >>> i) &&& 1#32 = if bitmap.getLsbD i then 1#32 else 0#32 := by
    apply BitVec.eq_of_getLsbD_eq
    intro j _
    cases set : bitmap.getLsbD i with
    | false =>
      by_cases first : j = 0
      · subst first
        simp [set]
      · simp [first]
    | true =>
      by_cases first : j = 0
      · subst first
        simp [set]
      · simp [first]
  rw [has, odd]
  cases bitmap.getLsbD i <;> decide

theorem physIdx_eq (bitmap : BitVec 32) {i : Nat} (inside : i < 32) :
    physIdx bitmap i = rank bitmap i := popcount_and_mask bitmap inside

theorem walk_internal (bitmap : BitVec 32) (children : List (Node K V)) :
    walk (.internal bitmap children) = children.flatMap walk := by
  rw [walk]

theorem mem_walk_internal {bitmap : BitVec 32} {children : List (Node K V)}
    (full : children.length = popcount bitmap) {e : Entry K V} :
    e ∈ walk (.internal bitmap children) ↔
      ∃ i c, slot bitmap children i = some c ∧ e ∈ walk c := by
  rw [walk_internal, mem_flatMap]
  constructor
  · rintro ⟨c, member, inside⟩
    obtain ⟨i, found⟩ := (mem_iff_slot full).mp member
    exact ⟨i, c, found, inside⟩
  · rintro ⟨i, c, found, inside⟩
    exact ⟨c, (mem_iff_slot full).mpr ⟨i, found⟩, inside⟩

/-- What a `u32` counts of a chain. -/
def chainLen (overflow : List (Entry K V)) : UInt32 := UInt32.ofNat overflow.length

theorem chainLen_cons (e : Entry K V) (overflow : List (Entry K V)) :
    chainLen (e :: overflow) = chainLen overflow + 1 := by
  rw [chainLen, length_cons, UInt32.ofNat_add]
  rfl

/-- A row with one entry less counts one less. -/
theorem chainLen_pred {row row' : List (Entry K V)} (shorter : row'.length = row.length - 1)
    (positive : 0 < row.length) : chainLen row' = chainLen row - 1 := by
  have longer : row.length = row'.length + 1 := by omega
  rw [chainLen, chainLen, longer, UInt32.ofNat_add]
  exact (UInt32.add_sub_cancel _ _).symm

inductive Good (hash : K → UInt64) : Nat → Node K V → Prop
  | leaf (d : Nat) {overflowLen : UInt32} {first : Entry K V} {overflow : List (Entry K V)}
      (hashed : ∀ e ∈ first :: overflow, e.h = hash e.key)
      (distinct : ((first :: overflow).map Entry.key).Nodup)
      (counted : overflowLen = chainLen overflow) :
      Good hash d (.leaf overflowLen first overflow)
  | internal {d : Nat} {bitmap : BitVec 32} {children : List (Node K V)} (shallow : d < maxDepth)
      (full : children.length = popcount bitmap)
      (routed : ∀ i c, slot bitmap children i = some c → ∀ e ∈ walk c, idxAt e.h d = i)
      (good : ∀ i c, slot bitmap children i = some c → Good hash (d + 1) c) :
      Good hash d (.internal bitmap children)

variable {hash : K → UInt64}

theorem Good.hashed {d : Nat} {n : Node K V} (good : Good hash d n) :
    ∀ e ∈ walk n, e.h = hash e.key := by
  induction good with
  | leaf d hashed _ _ =>
    intro e member
    rw [walk] at member
    exact hashed e member
  | internal _ full _ _ ih =>
    intro e member
    obtain ⟨i, c, found, inside⟩ := (mem_walk_internal full).mp member
    exact ih i c found e inside

theorem Good.nodup {d : Nat} {n : Node K V} (good : Good hash d n) :
    ((walk n).map Entry.key).Nodup := by
  induction good with
  | leaf d _ distinct _ =>
    rw [walk]
    exact distinct
  | @internal d bitmap children _ full routed good ih =>
    rw [walk_internal, map_flatMap, nodup_flatMap]
    constructor
    · intro c member
      obtain ⟨i, found⟩ := (mem_iff_slot full).mp member
      exact ih i c found
    · rw [pairwise_iff_getElem]
      intro p q insideP insideQ less k inP inQ
      obtain ⟨i, _, inUseI, atI⟩ := exists_rank_eq (b := bitmap) (n := 32) (p := p)
        (by rw [full] at insideP; exact insideP)
      obtain ⟨j, _, inUseJ, atJ⟩ := exists_rank_eq (b := bitmap) (n := 32) (p := q)
        (by rw [full] at insideQ; exact insideQ)
      have foundI : slot bitmap children i = some children[p] := by
        simp [slot, inUseI, atI]
      have foundJ : slot bitmap children j = some children[q] := by
        simp [slot, inUseJ, atJ]
      obtain ⟨e, member, rfl⟩ := mem_map.mp inP
      obtain ⟨e', member', same⟩ := mem_map.mp inQ
      have sameHash : e.h = e'.h := by
        rw [(good i _ foundI).hashed e member, (good j _ foundJ).hashed e' member', same]
      have index : i = j := by
        rw [← routed i _ foundI e member, ← routed j _ foundJ e' member', sameHash]
      rw [index, atJ] at atI
      omega

section Keys
variable [DecidableEq K]

theorem entry_is_iff {e : Entry K V} {h : UInt64} {k : K} :
    e.is h k = true ↔ e.h = h ∧ e.key = k := by
  simp [Entry.is]

/-- In a trie the hash of an entry is that of its key. -/
theorem entry_is_hash {e : Entry K V} (hashed : e.h = hash e.key) (k : K) :
    e.is (hash k) k = true ↔ e.key = k := by
  rw [entry_is_iff]
  constructor
  · exact fun both => both.2
  · intro same
    exact ⟨by rw [hashed, same], same⟩

section Internal
variable {bitmap : BitVec 32} {children : List (Node K V)} (h : UInt64) (k : K) (d : Nat)

omit [DecidableEq K] in
theorem getElem_physIdx {i : Nat} (inside : i < 32) (inUse : has bitmap i = true) :
    children[physIdx bitmap i]? = slot bitmap children i := by
  rw [has_eq] at inUse
  rw [physIdx_eq bitmap inside, slot, if_pos inUse]

omit [DecidableEq K] in
theorem getElem_full {i : Nat} (inside : i < 32) (full : children.length = popcount bitmap)
    (inUse : has bitmap i = true) :
    ∃ c, children[physIdx bitmap i]? = some c ∧ slot bitmap children i = some c := by
  have index := @getElem_physIdx K V bitmap children _ inside inUse
  rw [has_eq] at inUse
  obtain ⟨c, found, _⟩ := slot_of_inUse full inUse
  exact ⟨c, index.trans found, found⟩

theorem findIn_internal :
    findIn h k d (.internal bitmap children) =
      match slot bitmap children (idxAt h d) with
      | none => none
      | some c => findIn h k (d + 1) c := by
  rw [findIn]
  split
  · rename_i inUse
    rw [← getElem_physIdx (idxAt_lt h d) inUse]
    split <;> rename_i found <;> simp only [found]
  · rename_i free
    rw [has_eq, Bool.not_eq_true] at free
    rw [slot_of_free free]

theorem insertInto_internal (v : V) (full : children.length = popcount bitmap) :
    insertInto h k v d (.internal bitmap children) =
      match slot bitmap children (idxAt h d) with
      | none => (internalInsert bitmap children (idxAt h d) (.leaf 0 ⟨h, k, v⟩ []), false)
      | some c =>
        (internalReplace bitmap children (idxAt h d) (insertInto h k v (d + 1) c).1,
          (insertInto h k v (d + 1) c).2) := by
  rw [insertInto]
  split
  · rename_i inUse
    obtain ⟨c, index, found⟩ := getElem_full (idxAt_lt h d) full inUse
    rw [found]
    split
    · rename_i missing
      cases index.symm.trans missing
    · rename_i c' found'
      cases index.symm.trans found'
      rfl
  · rename_i free
    rw [has_eq, Bool.not_eq_true] at free
    rw [slot_of_free free]

theorem eraseFrom_internal (full : children.length = popcount bitmap) :
    eraseFrom h k d (.internal bitmap children) =
      match slot bitmap children (idxAt h d) with
      | none => (.internal bitmap children, false)
      | some c =>
        match eraseFrom h k (d + 1) c with
        | (_, false) => (.internal bitmap children, false)
        | (.null, true) => (internalRemove bitmap children (idxAt h d), true)
        | (newChild, true) => (internalReplace bitmap children (idxAt h d) newChild, true) := by
  rw [eraseFrom]
  split
  · rename_i inUse
    obtain ⟨c, index, found⟩ := getElem_full (idxAt_lt h d) full inUse
    rw [found]
    split
    · rename_i missing
      cases index.symm.trans missing
    · rename_i c' found'
      cases index.symm.trans found'
      rfl
  · rename_i free
    rw [has_eq, Bool.not_eq_true] at free
    rw [slot_of_free free]

end Internal

section Chains
variable {c : List (Entry K V)} (k : K)

theorem chainHas_iff (hashed : ∀ e ∈ c, e.h = hash e.key) :
    chainHas c (hash k) k = true ↔ ∃ e ∈ c, e.key = k := by
  rw [chainHas, any_eq_true]
  constructor
  · rintro ⟨e, member, is⟩
    exact ⟨e, member, (entry_is_hash (hashed e member) k).mp is⟩
  · rintro ⟨e, member, same⟩
    exact ⟨e, member, (entry_is_hash (hashed e member) k).mpr same⟩

theorem chainFind_eq_some_iff (distinct : (c.map Entry.key).Nodup) (v : V) :
    chainFind c (hash k) k = some v ↔ ⟨hash k, k, v⟩ ∈ c := by
  rw [chainFind, Option.map_eq_some_iff]
  constructor
  · rintro ⟨e, found, rfl⟩
    have member := mem_of_find?_eq_some found
    have is := @List.find?_some _ (fun e : Entry K V => e.is (hash k) k) _ _ found
    obtain ⟨sameHash, sameKey⟩ := entry_is_iff.mp is
    have whole : (⟨hash k, k, e.value⟩ : Entry K V) = e := by rw [← sameHash, ← sameKey]
    rw [whole]
    exact member
  · intro member
    cases found : c.find? fun e => e.is (hash k) k with
    | none =>
      have missing := find?_eq_none.mp found _ member
      simp [Entry.is] at missing
    | some e =>
      have is := @List.find?_some _ (fun e : Entry K V => e.is (hash k) k) _ _ found
      have same := (entry_is_iff.mp is).2
      have whole := inj_on_of_nodup_map distinct (mem_of_find?_eq_some found) member same
      exact ⟨e, rfl, by rw [whole]⟩

theorem length_chainCopyWithReplace (h : UInt64) (v : V) :
    (chainCopyWithReplace h k v c).length = c.length := by
  induction c with
  | nil => rfl
  | cons e rest ih =>
    rw [chainCopyWithReplace]
    split
    · rfl
    · simp [ih]

theorem keys_chainCopyWithReplace (h : UInt64) (v : V) :
    (chainCopyWithReplace h k v c).map Entry.key = c.map Entry.key := by
  induction c with
  | nil => rfl
  | cons e rest ih =>
    rw [chainCopyWithReplace]
    split
    · rename_i is
      simp [(entry_is_iff.mp is).2]
    · simp [ih]

theorem mem_chainCopyWithReplace (hashed : ∀ e ∈ c, e.h = hash e.key)
    (distinct : (c.map Entry.key).Nodup) (there : ∃ e ∈ c, e.key = k) (v : V) (e : Entry K V) :
    e ∈ chainCopyWithReplace (hash k) k v c ↔
      e = ⟨hash k, k, v⟩ ∨ e.key ≠ k ∧ e ∈ c := by
  induction c with
  | nil =>
    obtain ⟨_, member, _⟩ := there
    cases member
  | cons first rest ih =>
    rw [chainCopyWithReplace]
    split
    · rename_i is
      exact mem_put_here distinct ((entry_is_hash (hashed first mem_cons_self) k).mp is) e
    · rename_i isNot
      rw [entry_is_hash (hashed first mem_cons_self) k] at isNot
      rw [map_cons, nodup_cons] at distinct
      have there' : ∃ e ∈ rest, e.key = k := by
        obtain ⟨e', member, same⟩ := there
        rcases mem_cons.mp member with rfl | inside
        · exact absurd same isNot
        · exact ⟨e', inside, same⟩
      exact mem_put_later isNot
        (ih (fun e' member => hashed e' (mem_cons_of_mem _ member)) distinct.2 there')

theorem chainCopyWithErase_sublist (h : UInt64) : (chainCopyWithErase h k c).Sublist c := by
  induction c with
  | nil => exact List.Sublist.refl _
  | cons e rest ih =>
    rw [chainCopyWithErase]
    split
    · exact sublist_cons_self e rest
    · exact ih.cons_cons e

theorem length_chainCopyWithErase (h : UInt64) (there : chainHas c h k = true) :
    (chainCopyWithErase h k c).length = c.length - 1 := by
  induction c with
  | nil => cases there
  | cons e rest ih =>
    rw [chainCopyWithErase]
    split
    · rfl
    · rename_i isNot
      simp only [chainHas, any_cons, isNot, Bool.false_or] at there
      have step := ih there
      have positive : 0 < rest.length := by
        cases rest with
        | nil => cases there
        | cons => exact Nat.succ_pos _
      simp only [length_cons, step]
      omega

theorem mem_chainCopyWithErase (hashed : ∀ e ∈ c, e.h = hash e.key)
    (distinct : (c.map Entry.key).Nodup) (e : Entry K V) :
    e ∈ chainCopyWithErase (hash k) k c ↔ e.key ≠ k ∧ e ∈ c := by
  induction c with
  | nil => simp [chainCopyWithErase]
  | cons first rest ih =>
    rw [chainCopyWithErase]
    split
    · rename_i is
      exact mem_tail_of_distinct distinct ((entry_is_hash (hashed first mem_cons_self) k).mp is) e
    · rename_i isNot
      rw [entry_is_hash (hashed first mem_cons_self) k] at isNot
      rw [map_cons, nodup_cons] at distinct
      exact mem_cons_kept isNot (ih (fun e' member => hashed e' (mem_cons_of_mem _ member)) distinct.2)

end Chains

/-! ## Lookup -/

theorem Good.findIn_eq_some_iff {d : Nat} {n : Node K V} (good : Good hash d n) (k : K) (v : V) :
    findIn (hash k) k d n = some v ↔ ⟨hash k, k, v⟩ ∈ walk n := by
  induction good with
  | @leaf d overflowLen first overflow hashed distinct counted =>
    have whole := @chainFind_eq_some_iff _ _ hash _ _ k distinct v
    rw [walk, ← whole, findIn, chainFind, chainFind, find?_cons]
    cases is : first.is (hash k) k with
    | true => simp
    | false => simp
  | @internal d bitmap children shallow full routed good ih =>
    rw [findIn_internal, mem_walk_internal full]
    cases found : slot bitmap children (idxAt (hash k) d) with
    | none =>
      constructor
      · intro impossible
        cases impossible
      · rintro ⟨i, c, found', member⟩
        rw [routed i c found' _ member, found'] at found
        cases found
    | some c =>
      constructor
      · intro value
        exact ⟨_, c, found, (ih _ c found).mp value⟩
      · rintro ⟨i, c', found', member⟩
        rw [routed i c' found' _ member, found', Option.some.injEq] at found
        subst found
        exact (ih i c' found').mpr member

section Split
variable {d : Nat}

omit [DecidableEq K] in
theorem getLsbD_splitBitmap (entries : List (Entry K V)) (i : Nat) :
    (splitBitmap entries d).getLsbD i = true ↔ ∃ e ∈ entries, idxAt e.h d = i := by
  have fold : ∀ (bm : BitVec 32),
      (entries.foldl (fun bm e => bm ||| (1#32 <<< idxAt e.h d)) bm).getLsbD i = true ↔
        bm.getLsbD i = true ∨ ∃ e ∈ entries, idxAt e.h d = i := by
    induction entries with
    | nil => simp
    | cons e rest ih =>
      intro bm
      rw [foldl_cons, ih, getLsbD_or_bit _ (idxAt_lt _ _), Bool.or_eq_true,
        decide_eq_true_eq, exists_mem_cons_iff, or_assoc, @eq_comm _ i]
  rw [splitBitmap, fold]
  simp

/-- The child of index `i` after the entries `placed`: a leaf of exactly those
with that index. -/
def SplitChild (d i : Nat) (placed : List (Entry K V)) (c : Node K V) : Prop :=
  match c with
  | .null => ∀ e ∈ placed, idxAt e.h d ≠ i
  | .leaf overflowLen first overflow =>
    overflowLen = chainLen overflow ∧
      (first :: overflow).Perm (placed.filter fun e => idxAt e.h d == i)
  | .internal _ _ => False

omit [DecidableEq K] in
theorem SplitChild.absorb {i : Nat} {placed : List (Entry K V)} {c : Node K V} {e : Entry K V}
    (child : SplitChild d i placed c) (index : idxAt e.h d = i) :
    SplitChild d i (placed ++ [e]) (childAbsorb c e) := by
  have filtered : (placed ++ [e]).filter (fun e => idxAt e.h d == i) =
      placed.filter (fun e => idxAt e.h d == i) ++ [e] := by
    rw [filter_append]
    simp [index]
  cases c with
  | null =>
    have none : placed.filter (fun e => idxAt e.h d == i) = [] := by
      rw [filter_eq_nil_iff]
      intro e' member
      simpa using child e' member
    refine ⟨rfl, ?_⟩
    rw [filtered, none]
    exact List.Perm.refl _
  | leaf overflowLen first overflow =>
    obtain ⟨counted, entries⟩ := child
    refine ⟨by rw [counted, chainLen_cons], ?_⟩
    rw [filtered]
    exact (List.Perm.swap e first overflow).trans
      ((entries.cons e).trans (perm_append_singleton e _).symm)
  | internal => exact child.elim

omit [DecidableEq K] in
theorem SplitChild.other {i : Nat} {placed : List (Entry K V)} {c : Node K V} {e : Entry K V}
    (child : SplitChild d i placed c) (index : idxAt e.h d ≠ i) :
    SplitChild d i (placed ++ [e]) c := by
  cases c with
  | null =>
    intro e' member
    rcases mem_append.mp member with earlier | last
    · exact child e' earlier
    · rw [mem_singleton.mp last]
      exact index
  | leaf overflowLen first overflow =>
    obtain ⟨counted, entries⟩ := child
    refine ⟨counted, ?_⟩
    rw [filter_append]
    simpa [index] using entries
  | internal => exact child.elim

/-- The children while the entries are placed one after the other. -/
def SplitRow (bm : BitVec 32) (d : Nat) (placed : List (Entry K V)) (cs : List (Node K V)) :
    Prop :=
  cs.length = popcount bm ∧
    ∀ i, bm.getLsbD i = true → ∃ c, slot bm cs i = some c ∧ SplitChild d i placed c

omit [DecidableEq K] in
theorem SplitRow.place {bm : BitVec 32} {placed : List (Entry K V)} {cs : List (Node K V)}
    (row : SplitRow bm d placed cs) {e : Entry K V} (inUse : bm.getLsbD (idxAt e.h d) = true) :
    SplitRow bm d (placed ++ [e]) (splitPlace bm d cs e) := by
  obtain ⟨full, children⟩ := row
  obtain ⟨c, found, child⟩ := children _ inUse
  have index : physIdx bm (idxAt e.h d) = rank bm (idxAt e.h d) := physIdx_eq bm (idxAt_lt _ _)
  have current : cs[rank bm (idxAt e.h d)]? = some c := by
    rw [slot, if_pos inUse] at found
    exact found
  have written : splitPlace bm d cs e = cs.set (rank bm (idxAt e.h d)) (childAbsorb c e) := by
    rw [splitPlace, index]
    apply ext_getElem?
    intro j
    rw [getElem?_modify, getElem?_set']
    by_cases here : rank bm (idxAt e.h d) = j
    · subst here
      simp [current]
    · simp [here]
  rw [written]
  refine ⟨by rw [length_set]; exact full, ?_⟩
  intro i inUseI
  rw [slot_set full inUse]
  by_cases here : i = idxAt e.h d
  · rw [if_pos here]
    subst here
    exact ⟨_, rfl, child.absorb rfl⟩
  · rw [if_neg here]
    obtain ⟨c', found', child'⟩ := children i inUseI
    exact ⟨c', found', child'.other (Ne.symm here)⟩

omit [DecidableEq K] in
theorem SplitRow.fold {bm : BitVec 32} (entries : List (Entry K V)) :
    ∀ {placed : List (Entry K V)} {cs : List (Node K V)}, SplitRow bm d placed cs →
      (∀ e ∈ entries, bm.getLsbD (idxAt e.h d) = true) →
        SplitRow bm d (placed ++ entries) (entries.foldl (splitPlace bm d) cs) := by
  induction entries with
  | nil =>
    intro placed cs row _
    rw [append_nil]
    exact row
  | cons e rest ih =>
    intro placed cs row inUse
    have step := ih (row.place (inUse e mem_cons_self))
      (fun e' member => inUse e' (mem_cons_of_mem _ member))
    rwa [append_assoc] at step

omit [DecidableEq K] in
theorem splitRow_replicate (bm : BitVec 32) :
    SplitRow bm d ([] : List (Entry K V)) (List.replicate (popcount bm) .null) := by
  refine ⟨length_replicate, ?_⟩
  intro i inUse
  refine ⟨.null, ?_, by simp [SplitChild]⟩
  rw [slot, if_pos inUse, getElem?_replicate, if_pos (rank_lt_popcount inUse)]

omit [DecidableEq K] in
/-- The split gives an internal node with exactly the entries of the leaf and
the extra one. -/
theorem splitLeafWithExtra_good {first extra : Entry K V} {overflow : List (Entry K V)}
    (shallow : d < maxDepth) (hashed : ∀ e ∈ extra :: first :: overflow, e.h = hash e.key)
    (distinct : ((extra :: first :: overflow).map Entry.key).Nodup) :
    Good hash d (splitLeafWithExtra first overflow extra d) ∧
      ∀ e, e ∈ walk (splitLeafWithExtra first overflow extra d) ↔
        e = extra ∨ e ∈ first :: overflow := by
  let entries := first :: (overflow ++ [extra])
  have same : ∀ e, e ∈ entries ↔ e ∈ extra :: first :: overflow := by
    intro e
    simp only [entries, mem_cons, mem_append, not_mem_nil, or_false]
    tauto
  have distinct' : (entries.map Entry.key).Nodup := by
    have perm : entries.Perm (extra :: first :: overflow) :=
      (perm_append_singleton extra (first :: overflow))
    exact (perm.map Entry.key).nodup_iff.mpr distinct
  have bits : ∀ i, (splitBitmap (first :: extra :: overflow) d).getLsbD i = true ↔
      ∃ e ∈ entries, idxAt e.h d = i := by
    intro i
    rw [getLsbD_splitBitmap]
    apply exists_congr
    intro e
    rw [same]
    simp only [mem_cons]
    tauto
  have row := SplitRow.fold entries (splitRow_replicate (splitBitmap (first :: extra :: overflow) d))
    (fun e member => (bits _).mpr ⟨e, member, rfl⟩)
  rw [nil_append] at row
  obtain ⟨full, children⟩ := row
  -- every child is a leaf, since its bit comes from one of the entries
  have leaves : ∀ i c, slot (splitBitmap (first :: extra :: overflow) d)
      (entries.foldl (splitPlace (splitBitmap (first :: extra :: overflow) d) d)
        (List.replicate (popcount (splitBitmap (first :: extra :: overflow) d)) .null)) i = some c →
      ∃ f rest, c = .leaf (chainLen rest) f rest ∧
        (f :: rest).Perm (entries.filter fun e => idxAt e.h d == i) := by
    intro i c found
    have inUse := inUse_of_slot found
    obtain ⟨c', found', child⟩ := children i inUse
    rw [found, Option.some.injEq] at found'
    subst found'
    cases c with
    | null =>
      obtain ⟨e, member, index⟩ := (bits i).mp inUse
      exact absurd index (child e member)
    | leaf overflowLen f rest =>
      obtain ⟨counted, perm⟩ := child
      exact ⟨f, rest, by rw [counted], perm⟩
    | internal => exact child.elim
  constructor
  · refine .internal shallow full ?_ ?_
    · intro i c found e member
      obtain ⟨f, rest, rfl, perm⟩ := leaves i c found
      rw [walk, perm.mem_iff, mem_filter] at member
      simpa using member.2
    · intro i c found
      obtain ⟨f, rest, rfl, perm⟩ := leaves i c found
      refine .leaf _ ?_ ?_ rfl
      · intro e member
        rw [perm.mem_iff, mem_filter] at member
        exact hashed e ((same e).mp member.1)
      · exact (perm.map Entry.key).nodup_iff.mpr
          (List.Nodup.sublist (filter_sublist.map Entry.key) distinct')
  · intro e
    have target : (e = extra ∨ e ∈ first :: overflow) ↔ e ∈ entries := by
      rw [same, mem_cons (b := extra)]
    rw [target, splitLeafWithExtra, mem_walk_internal full]
    constructor
    · rintro ⟨i, c, found, member⟩
      obtain ⟨f, rest, rfl, perm⟩ := leaves i c found
      rw [walk, perm.mem_iff, mem_filter] at member
      exact member.1
    · intro member
      have inUse := (bits (idxAt e.h d)).mpr ⟨e, member, rfl⟩
      obtain ⟨c, found, _⟩ := children _ inUse
      obtain ⟨f, rest, rfl, perm⟩ := leaves _ c found
      refine ⟨_, _, found, ?_⟩
      rw [walk, perm.mem_iff, mem_filter]
      exact ⟨member, by simp⟩

end Split

end Keys

end Micron.Pmap
