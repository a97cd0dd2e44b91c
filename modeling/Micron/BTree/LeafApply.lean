import Micron.BTree.LeafSpec

/-!
# The leaf path of `descend_apply`

Case by case: an erase and an overwrite change the first node with the key, a
new key goes into a node with space, into the chain of its class, or makes the
leaf split.  The cut of a mixed leaf lies strictly inside it and between two
different hashes.
-/

set_option autoImplicit false

namespace Micron.BTree

open Micron.Lib List Bool

variable {K V : Type}

section Cut
variable {hashes : List Nat}

theorem advance_spec (hashes : List Nat) : ∀ (fuel mid : Nat), 1 ≤ mid → mid ≤ hashes.length →
    hashes.length - mid ≤ fuel →
    mid ≤ advance hashes fuel mid ∧ advance hashes fuel mid ≤ hashes.length ∧
      hashes.getD (mid - 1) 0 = hashes.getD (advance hashes fuel mid - 1) 0 ∧
      (advance hashes fuel mid < hashes.length →
        hashes.getD (advance hashes fuel mid - 1) 0 ≠
          hashes.getD (advance hashes fuel mid) 0) := by
  intro fuel
  induction fuel with
  | zero =>
    intro mid low high enough
    rw [advance]
    exact ⟨le_refl _, high, rfl, fun inside => by omega⟩
  | succ fuel ih =>
    intro mid low high enough
    rw [advance]
    split
    · rename_i run
      obtain ⟨above, within, same, stop⟩ := ih (mid + 1) (by omega) (by omega) (by omega)
      refine ⟨by omega, within, ?_, stop⟩
      rw [run.2]
      exact same
    · rename_i ends
      refine ⟨le_refl _, high, rfl, ?_⟩
      intro inside same
      exact ends ⟨inside, same⟩

theorem retreat_spec (hashes : List Nat) : ∀ mid : Nat, retreat hashes mid ≤ mid ∧
    hashes.getD (retreat hashes mid) 0 = hashes.getD mid 0 ∧
    (0 < retreat hashes mid →
      hashes.getD (retreat hashes mid - 1) 0 ≠ hashes.getD (retreat hashes mid) 0) := by
  intro mid
  induction mid with
  | zero =>
    exact ⟨le_refl _, rfl, fun positive => absurd positive (lt_irrefl 0)⟩
  | succ mid ih =>
    rw [retreat]
    split
    · rename_i run
      obtain ⟨below, same, stop⟩ := ih
      exact ⟨by omega, same.trans run, stop⟩
    · rename_i ends
      refine ⟨le_refl _, rfl, ?_⟩
      intro _
      exact ends

/-- The cut of a leaf with two classes lies inside it, between two hashes. -/
theorem splitPoint_spec {fanout : Nat} (two : 2 ≤ fanout) (full : fanout ≤ hashes.length)
    (sorted : ∀ i j, i ≤ j → j < hashes.length → hashes.getD i 0 ≤ hashes.getD j 0)
    (mixed : hashes.getD 0 0 ≠ hashes.getD (hashes.length - 1) 0) :
    0 < splitPoint fanout hashes ∧ splitPoint fanout hashes < hashes.length ∧
      hashes.getD (splitPoint fanout hashes - 1) 0 ≠ hashes.getD (splitPoint fanout hashes) 0 := by
  obtain ⟨above, within, same, stop⟩ :=
    advance_spec hashes hashes.length (fanout / 2) (by omega) (by omega) (by omega)
  obtain ⟨below, sameDown, stopDown⟩ := retreat_spec hashes (fanout / 2)
  unfold splitPoint
  simp only
  split
  · rename_i ran
    have all : advance hashes hashes.length (fanout / 2) = hashes.length := by omega
    have positive : 0 < retreat hashes (fanout / 2) := by
      by_contra zero
      have atZero : retreat hashes (fanout / 2) = 0 := by omega
      -- the run from the first hash meets the run up to the last
      rw [all] at same
      rw [atZero] at sameDown
      have low := sorted 0 (fanout / 2 - 1) (by omega) (by omega)
      have high := sorted (fanout / 2 - 1) (fanout / 2) (by omega) (by omega)
      omega
    exact ⟨positive, by omega, stopDown positive⟩
  · rename_i inside
    exact ⟨by omega, by omega, stop (by omega)⟩

end Cut

section Sorted
variable {entries : List (Entry K V)}

theorem sorted_getD (sorted : entries.Pairwise fun a b => a.hash ≤ b.hash) {i j : Nat}
    (order : i ≤ j) (inside : j < (entries.map Entry.hash).length) :
    (entries.map Entry.hash).getD i 0 ≤ (entries.map Entry.hash).getD j 0 := by
  have hashesSorted : (entries.map Entry.hash).Pairwise (· ≤ ·) := pairwise_map.mpr sorted
  have insideI : i < (entries.map Entry.hash).length := by omega
  rw [getD_eq_getElem?_getD, getD_eq_getElem?_getD, getElem?_eq_getElem insideI,
    getElem?_eq_getElem inside]
  rcases lt_or_ge i j with before | same
  · exact pairwise_iff_getElem.mp hashesSorted i j insideI inside before
  · have equal : i = j := by omega
    subst equal
    exact le_refl _

theorem mem_take_hash {e : Entry K V} {mid : Nat} (member : e ∈ entries.take mid) :
    ∃ i, i < mid ∧ i < entries.length ∧ (entries.map Entry.hash).getD i 0 = e.hash := by
  obtain ⟨i, bound, eq⟩ := mem_take_iff_getElem.mp member
  refine ⟨i, by omega, by omega, ?_⟩
  rw [← eq]
  simp [getD_eq_getElem?_getD, (by omega : i < entries.length)]

theorem mem_drop_hash {e : Entry K V} {mid : Nat} (member : e ∈ entries.drop mid) :
    ∃ i, mid ≤ i ∧ i < entries.length ∧ (entries.map Entry.hash).getD i 0 = e.hash := by
  obtain ⟨i, bound, eq⟩ := mem_drop_iff_getElem.mp member
  refine ⟨mid + i, by omega, by omega, ?_⟩
  rw [← eq]
  simp [getD_eq_getElem?_getD, (by omega : mid + i < entries.length)]

theorem headD_drop (hashes : List Nat) (mid : Nat) :
    (hashes.drop mid).headD 0 = hashes.getD mid 0 := by
  rw [headD_eq_head?_getD, head?_drop, getD_eq_getElem?_getD]

theorem insertEntry_perm (e : Entry K V) (entries : List (Entry K V)) :
    (insertEntry e entries).Perm (e :: entries) := by
  refine perm_middle.trans (List.Perm.cons e ?_)
  rw [takeWhile_append_dropWhile]

theorem sorted_insertEntry (e : Entry K V) :
    ∀ {entries : List (Entry K V)}, entries.Pairwise (fun a b => a.hash ≤ b.hash) →
      (insertEntry e entries).Pairwise fun a b => a.hash ≤ b.hash := by
  intro entries
  induction entries with
  | nil =>
    intro _
    exact pairwise_singleton _ _
  | cons first rest ih =>
    intro sorted
    obtain ⟨least, later⟩ := pairwise_cons.mp sorted
    by_cases before : first.hash ≤ e.hash
    · have step : insertEntry e (first :: rest) = first :: insertEntry e rest := by
        simp [insertEntry, before]
      rw [step]
      refine pairwise_cons.mpr ⟨?_, ih later⟩
      intro x member
      rcases mem_cons.mp ((insertEntry_perm e rest).mem_iff.mp member) with rfl | old
      · exact before
      · exact least x old
    · have step : insertEntry e (first :: rest) = e :: first :: rest := by
        simp [insertEntry, before]
      rw [step]
      refine pairwise_cons.mpr ⟨?_, sorted⟩
      intro x member
      rcases mem_cons.mp member with rfl | old
      · omega
      · have := least x old
        omega

/-- All hashes of a sorted node of one class are its first. -/
theorem singleClass_hash {node : LeafNode K V}
    (sorted : node.entries.Pairwise fun a b => a.hash ≤ b.hash) (single : node.singleClass = true)
    {e : Entry K V} (member : e ∈ node.entries) : e.hash = node.hashes.headD 0 := by
  unfold LeafNode.singleClass at single
  split at single
  · rename_i first last atHead atLast
    rw [beq_iff_eq] at single
    have headEq : node.hashes.headD 0 = first.hash := by
      rw [LeafNode.hashes, headD_eq_head?_getD, head?_map, atHead]
      rfl
    have split : node.entries = node.entries.dropLast ++ [last] :=
      (dropLast_append_getLast? last atLast).symm
    have upper : e.hash ≤ last.hash := by
      rw [split] at member sorted
      rcases mem_append.mp member with earlier | isLast
      · exact (pairwise_append.mp sorted).2.2 e earlier last mem_cons_self
      · exact le_of_eq (congrArg Entry.hash (mem_singleton.mp isLast))
    have lower : first.hash ≤ e.hash := by
      cases nodeEntries : node.entries with
      | nil =>
        rw [nodeEntries] at member
        cases member
      | cons head tail =>
        rw [nodeEntries] at member sorted atHead
        cases atHead
        rcases mem_cons.mp member with rfl | later
        · exact le_refl _
        · exact (pairwise_cons.mp sorted).1 e later
    omega
  · cases single

/-- The first and the last hash of a node of several classes differ. -/
theorem mixed_ends {node : LeafNode K V} (some_entry : node.entries ≠ [])
    (mixed : node.singleClass = false) :
    node.hashes.getD 0 0 ≠ node.hashes.getD (node.hashes.length - 1) 0 := by
  unfold LeafNode.singleClass at mixed
  have atHead : node.entries.head? = some (node.entries.head some_entry) :=
    head?_eq_some_head some_entry
  have atLast : node.entries.getLast? = some (node.entries.getLast some_entry) :=
    getLast?_eq_some_getLast some_entry
  rw [atHead, atLast] at mixed
  rw [beq_eq_false_iff_ne] at mixed
  have first : node.hashes.getD 0 0 = (node.entries.head some_entry).hash := by
    rw [LeafNode.hashes, getD_eq_getElem?_getD, ← head?_eq_getElem?, head?_map,
      atHead]
    rfl
  have last : node.hashes.getD (node.hashes.length - 1) 0 =
      (node.entries.getLast some_entry).hash := by
    rw [LeafNode.hashes, getD_eq_getElem?_getD, ← getLast?_eq_getElem?,
      getLast?_map, atLast]
    rfl
  rw [first, last]
  exact mixed

end Sorted

/-! ## Splits -/

def mixedPivot (leafFanout : Nat) (leaf : Leaf K V) : Nat :=
  (leaf.primary.hashes.drop (splitPoint leafFanout leaf.primary.hashes)).headD 0

def allBelow (es : List (Entry K V)) (h : Nat) : Bool := es.all fun e => decide (e.hash < h)

def allAbove (es : List (Entry K V)) (h : Nat) : Bool := es.all fun e => decide (h ≤ e.hash)

/-- A split of this mixed leaf leaves its chain on the left side of the pivot. -/
def mixedKeepsChain (leafFanout : Nat) (leaf : Leaf K V) : Bool :=
  allBelow leaf.chain (mixedPivot leafFanout leaf)

/-- A split of this leaf of one class, to make room for `h`, leaves its chain on
its side of the pivot. -/
def asymmetricKeepsChain (leaf : Leaf K V) (h : Nat) : Bool :=
  if leaf.primary.hashes.headD 0 < h then allBelow leaf.chain h
  else allAbove leaf.chain (leaf.primary.hashes.headD 0)

/-- If the operation makes the leaf split, the chain stays on its side. -/
def splitKeepsChain [DecidableEq K] (leafFanout : Nat) (leaf : Leaf K V) (op : PendingOp K V) :
    Bool :=
  if op.value.isNone || leaf.has op.hash op.key ||
      decide (leaf.primary.entries.length < leafFanout) then true
  else if leaf.primary.singleClass then
    decide (op.hash = leaf.primary.hashes.headD 0) || asymmetricKeepsChain leaf op.hash
  else mixedKeepsChain leafFanout leaf

theorem allBelow_iff {es : List (Entry K V)} {h : Nat} :
    allBelow es h = true ↔ ∀ e, e ∈ es → e.hash < h := by
  simp [allBelow]

theorem allAbove_iff {es : List (Entry K V)} {h : Nat} :
    allAbove es h = true ↔ ∀ e, e ∈ es → h ≤ e.hash := by
  simp [allAbove]

section Splits
variable {Q : Nat → K → Prop} {lo hi : Nat} {leaf : Leaf K V}

theorem LeafWF.mono {lo' hi' : Nat} {leaf' : Leaf K V} (wf : LeafWF Q lo hi leaf)
    (fewer : leaf'.entries.Subperm leaf.entries)
    (sorted : leaf'.primary.entries.Pairwise fun a b => a.hash ≤ b.hash)
    (bounds : ∀ e, e ∈ leaf'.entries → lo' ≤ e.hash ∧ e.hash < hi') :
    LeafWF Q lo' hi' leaf' := by
  refine ⟨?_, ?_, sorted⟩
  · intro e member
    exact ⟨(bounds e member).1, (bounds e member).2,
      (wf.ranged e (fewer.subset member)).2.2⟩
  · obtain ⟨sub, perm, sublist⟩ := fewer
    exact (perm.map Entry.ident).nodup_iff.mp (wf.distinct.sublist (sublist.map Entry.ident))

/-- The pivot of a mixed leaf parts its primary node. -/
theorem mixedPivot_parts {leafFanout : Nat}
    (sorted : leaf.primary.entries.Pairwise fun a b => a.hash ≤ b.hash) (two : 2 ≤ leafFanout)
    (full : leafFanout ≤ leaf.primary.entries.length) (mixed : leaf.primary.singleClass = false) :
    (0 < splitPoint leafFanout leaf.primary.hashes ∧
      splitPoint leafFanout leaf.primary.hashes < leaf.primary.entries.length) ∧
      (∀ e, e ∈ leaf.primary.entries.take (splitPoint leafFanout leaf.primary.hashes) →
        e.hash < mixedPivot leafFanout leaf) ∧
      (∀ e, e ∈ leaf.primary.entries.drop (splitPoint leafFanout leaf.primary.hashes) →
        mixedPivot leafFanout leaf ≤ e.hash) ∧
      ∃ e, e ∈ leaf.primary.entries ∧ e.hash = mixedPivot leafFanout leaf := by
  have nonempty : leaf.primary.entries ≠ [] := by
    intro empty
    rw [empty] at full
    simp only [length_nil] at full
    omega
  have length : leaf.primary.hashes.length = leaf.primary.entries.length := by
    simp [LeafNode.hashes]
  have order : ∀ i j, i ≤ j → j < leaf.primary.hashes.length →
      leaf.primary.hashes.getD i 0 ≤ leaf.primary.hashes.getD j 0 :=
    fun i j before inside => sorted_getD sorted before inside
  have pivot : mixedPivot leafFanout leaf =
      leaf.primary.hashes.getD (splitPoint leafFanout leaf.primary.hashes) 0 :=
    headD_drop _ _
  obtain ⟨positive, inside, differ⟩ :=
    splitPoint_spec two (by rw [length]; exact full) order (mixed_ends nonempty mixed)
  rw [pivot]
  generalize splitPoint leafFanout leaf.primary.hashes = mid at *
  refine ⟨⟨positive, by omega⟩, ?_, ?_, ?_⟩
  · intro e member
    obtain ⟨i, small, bound, eq⟩ := mem_take_hash member
    have low : leaf.primary.hashes.getD i 0 = e.hash := eq
    have before := order i (mid - 1) (by omega) (by omega)
    have step := order (mid - 1) mid (by omega) inside
    omega
  · intro e member
    obtain ⟨i, large, bound, eq⟩ := mem_drop_hash member
    have high : leaf.primary.hashes.getD i 0 = e.hash := eq
    have before := order mid i large (by omega)
    omega
  · have bound : mid < leaf.primary.entries.length := by omega
    refine ⟨leaf.primary.entries.get ⟨mid, bound⟩, get_mem _ _, ?_⟩
    simp [LeafNode.hashes, getD_eq_getElem?_getD, bound]

theorem splitLeafMixed_wf {leafFanout : Nat} (wf : LeafWF Q lo hi leaf) (two : 2 ≤ leafFanout)
    (full : leafFanout ≤ leaf.primary.entries.length) (mixed : leaf.primary.singleClass = false)
    (keeps : mixedKeepsChain leafFanout leaf = true) (pool : Pool) :
    let halves := splitLeafMixed leafFanout leaf pool
    OutWF (LeafWF Q) lo hi halves.1 (some (halves.2.1, halves.2.2.1)) ∧
      (halves.1.entries ++ halves.2.2.1.entries).Perm leaf.entries ∧
      Grown pool halves.2.2.2 leaf.idxs (halves.1.idxs ++ halves.2.2.1.idxs) := by
  intro halves
  obtain ⟨_, below, above, e, inPrimary, atPivot⟩ :=
    mixedPivot_parts wf.sorted two full mixed
  have leftEntries : halves.1.entries = leaf.primary.entries.take
      (splitPoint leafFanout leaf.primary.hashes) ++ leaf.chain := rfl
  have rightEntries : halves.2.2.1.entries = leaf.primary.entries.drop
      (splitPoint leafFanout leaf.primary.hashes) := append_nil _
  have whole : (halves.1.entries ++ halves.2.2.1.entries).Perm leaf.entries := by
    rw [leftEntries, rightEntries, leaf_entries_eq, append_assoc]
    refine (perm_append_comm.append_left _).trans ?_
    rw [← append_assoc, take_append_drop]
  have leftBelow : ∀ e, e ∈ halves.1.entries → e.hash < mixedPivot leafFanout leaf := by
    intro e member
    rcases mem_append.mp member with kept | chained
    · exact below e kept
    · exact allBelow_iff.mp keeps e chained
  have oldRange : ∀ e, e ∈ halves.1.entries ++ halves.2.2.1.entries →
      lo ≤ e.hash ∧ e.hash < hi := by
    intro e member
    have ranged := wf.ranged e (whole.mem_iff.mp member)
    exact ⟨ranged.1, ranged.2.1⟩
  have pivotRange : lo ≤ mixedPivot leafFanout leaf ∧ mixedPivot leafFanout leaf ≤ hi := by
    have ranged := wf.ranged e (by rw [leaf_entries_eq]; exact mem_append_left _ inPrimary)
    omega
  refine ⟨⟨pivotRange.1, pivotRange.2, ?_, ?_⟩, whole, ?_⟩
  · refine wf.mono ((sublist_append_left _ _).subperm.trans whole.subperm) ?_ ?_
    · exact wf.sorted.sublist (take_sublist _ _)
    · intro e member
      exact ⟨(oldRange e (mem_append_left _ member)).1, leftBelow e member⟩
  · refine wf.mono ((sublist_append_right _ _).subperm.trans whole.subperm) ?_ ?_
    · exact wf.sorted.sublist (drop_sublist _ _)
    · intro e member
      refine ⟨?_, (oldRange e (mem_append_right _ member)).2⟩
      rw [rightEntries] at member
      exact above e member
  · apply grown_addAfter
    exact perm_append_singleton pool.next leaf.idxs

theorem LeafWF.add (wf : LeafWF Q lo hi leaf) {leaf' : Leaf K V} {e : Entry K V}
    (more : leaf'.entries.Perm (e :: leaf.entries))
    (sorted : leaf'.primary.entries.Pairwise fun a b => a.hash ≤ b.hash)
    (range : lo ≤ e.hash ∧ e.hash < hi ∧ Q e.hash e.key)
    (fresh : ∀ x, x ∈ leaf.entries → x.ident ≠ e.ident) : LeafWF Q lo hi leaf' := by
  refine ⟨?_, ?_, sorted⟩
  · intro x member
    rcases mem_cons.mp (more.mem_iff.mp member) with rfl | old
    · exact range
    · exact wf.ranged x old
  · refine (more.map Entry.ident).nodup_iff.mpr (nodup_cons.mpr ⟨?_, wf.distinct⟩)
    intro member
    obtain ⟨x, inLeaf, same⟩ := mem_map.mp member
    exact fresh x inLeaf same

theorem leafWF_single (idx : Nat) {e : Entry K V}
    (range : lo ≤ e.hash ∧ e.hash < hi ∧ Q e.hash e.key) :
    LeafWF Q lo hi (⟨⟨idx, [e]⟩, []⟩ : Leaf K V) := by
  refine ⟨?_, ?_, pairwise_singleton _ _⟩
  · intro x member
    have same : x = e := by simpa [Leaf.entries, Leaf.nodes] using member
    rw [same]
    exact range
  · simp [Distinct, Leaf.entries, Leaf.nodes]

theorem LeafWF.insertPrimary (wf : LeafWF Q lo hi leaf) {e : Entry K V}
    (range : lo ≤ e.hash ∧ e.hash < hi ∧ Q e.hash e.key)
    (fresh : ∀ x, x ∈ leaf.entries → x.ident ≠ e.ident) :
    LeafWF Q lo hi { leaf with primary := leaf.primary.insert e } ∧
      (Leaf.entries { leaf with primary := leaf.primary.insert e }).Perm (e :: leaf.entries) := by
  have more : (Leaf.entries { leaf with primary := leaf.primary.insert e }).Perm
      (e :: leaf.entries) :=
    (insertEntry_perm e leaf.primary.entries).append_right leaf.chain
  exact ⟨wf.add more (sorted_insertEntry e wf.sorted) range fresh, more⟩

theorem chainInsert_spec (leafFanout : Nat) (e : Entry K V) (pool : Pool) :
    ∀ (nodes : List (LeafNode K V)) (tail : Nat),
      ((chainInsert leafFanout e pool tail nodes).1.flatMap LeafNode.entries).Perm
          (e :: nodes.flatMap LeafNode.entries) ∧
        Grown pool (chainInsert leafFanout e pool tail nodes).2 (nodes.map LeafNode.idx)
          ((chainInsert leafFanout e pool tail nodes).1.map LeafNode.idx) ∧
        (chainInsert leafFanout e pool tail nodes).2.total = pool.total := by
  intro nodes
  induction nodes with
  | nil =>
    intro tail
    refine ⟨List.Perm.refl _, ?_, rfl⟩
    exact grown_addAfter pool tail _ _ (List.Perm.refl _)
  | cons node rest ih =>
    intro tail
    rw [chainInsert]
    split
    · refine ⟨?_, grown_refl _ _, rfl⟩
      exact (insertEntry_perm e node.entries).append_right _
    · obtain ⟨more, grown, total⟩ := ih node.idx
      refine ⟨?_, ?_, total⟩
      · simp only [flatMap_cons]
        exact (more.append_left node.entries).trans perm_middle
      · have framed := grown.frame [node.idx] []
        simpa using framed

/-- The halves of a leaf of one class that makes room for another hash. -/
theorem asymmetricSplitLeaf_wf (wf : LeafWF Q lo hi leaf) {e : Entry K V}
    (single : leaf.primary.singleClass = true) (other : e.hash ≠ leaf.primary.hashes.headD 0)
    (keeps : asymmetricKeepsChain leaf e.hash = true)
    (range : lo ≤ e.hash ∧ e.hash < hi ∧ Q e.hash e.key) (pool : Pool) :
    let halves := asymmetricSplitLeaf leaf e pool
    OutWF (LeafWF Q) lo hi halves.1 (some (halves.2.1, halves.2.2.1)) ∧
      (halves.1.entries ++ halves.2.2.1.entries).Perm (e :: leaf.entries) ∧
      Grown pool halves.2.2.2 leaf.idxs (halves.1.idxs ++ halves.2.2.1.idxs) ∧
      halves.2.2.2.total = pool.total := by
  have classHash : ∀ x, x ∈ leaf.primary.entries → x.hash = leaf.primary.hashes.headD 0 :=
    fun x member => singleClass_hash wf.sorted single member
  unfold asymmetricKeepsChain at keeps
  simp only [asymmetricSplitLeaf]
  by_cases above : leaf.primary.hashes.headD 0 < e.hash
  · rw [if_pos above] at keeps
    simp only [if_pos above]
    have below : ∀ x, x ∈ leaf.entries → x.hash < e.hash := by
      intro x member
      rcases mem_append.mp member with inPrimary | chained
      · rw [classHash x inPrimary]
        exact above
      · exact allBelow_iff.mp keeps x chained
    refine ⟨⟨range.1, le_of_lt range.2.1, ?_, ?_⟩, ?_, ?_, rfl⟩
    · refine wf.mono (List.Subperm.refl _) wf.sorted ?_
      intro x member
      exact ⟨(wf.ranged x member).1, below x member⟩
    · exact leafWF_single _ ⟨le_refl _, range.2.1, range.2.2⟩
    · exact perm_append_singleton e leaf.entries
    · exact grown_addAfter _ _ _ _ (perm_append_singleton pool.next leaf.idxs)
  · rw [if_neg above] at keeps
    simp only [if_neg above]
    have below : e.hash < leaf.primary.hashes.headD 0 := by omega
    have reach : ∀ x, x ∈ leaf.entries → leaf.primary.hashes.headD 0 ≤ x.hash := by
      intro x member
      rcases mem_append.mp member with inPrimary | chained
      · exact le_of_eq (classHash x inPrimary).symm
      · exact allAbove_iff.mp keeps x chained
    have top : leaf.primary.hashes.headD 0 ≤ hi := by
      cases primary : leaf.primary.entries with
      | nil =>
        simp only [LeafNode.singleClass, primary] at single
        cases single
      | cons first rest =>
        have member : first ∈ leaf.entries := by
          rw [leaf_entries_eq, primary]
          exact mem_append_left _ mem_cons_self
        have classEq := classHash first (by rw [primary]; exact mem_cons_self)
        have ranged := wf.ranged first member
        omega
    refine ⟨⟨by omega, top, ?_, ?_⟩, List.Perm.refl _, ?_, rfl⟩
    · exact leafWF_single _ ⟨range.1, below, range.2.2⟩
    · refine wf.mono (List.Subperm.refl leaf.entries) wf.sorted ?_
      intro x member
      exact ⟨reach x member, (wf.ranged x member).2.1⟩
    · apply grown_addAfter
      exact List.Perm.swap _ _ _

end Splits

/-! ## The leaf path -/

section Path
variable [DecidableEq K] {Q : Nat → K → Prop} {lo hi : Nat} {leaf : Leaf K V}

omit [DecidableEq K] in
theorem entriesAfter_insert {op : PendingOp K V} {v : V} {es es' : List (Entry K V)}
    (value : op.value = some v) (fresh : ∀ x, x ∈ es → x.ident ≠ (op.hash, op.key))
    (more : es'.Perm (⟨op.hash, op.key, v⟩ :: es)) : EntriesAfter op es es' := by
  intro e
  rw [more.mem_iff, mem_cons]
  constructor
  · intro member
    rcases member with rfl | old
    · exact .inr ⟨v, value, rfl⟩
    · exact .inl ⟨old, fresh e old⟩
  · intro described
    rcases described with ⟨old, _⟩ | ⟨w, same, rfl⟩
    · exact .inr old
    · rw [value] at same
      cases same
      exact .inl rfl

omit [DecidableEq K] in
theorem insertNewKey_out {leafFanout : Nat} (wf : LeafWF Q lo hi leaf) (two : 2 ≤ leafFanout)
    {e : Entry K V} (range : lo ≤ e.hash ∧ e.hash < hi ∧ Q e.hash e.key)
    (fresh : ∀ x, x ∈ leaf.entries → x.ident ≠ e.ident)
    (safe : leafFanout ≤ leaf.primary.entries.length →
      if leaf.primary.singleClass then
        e.hash = leaf.primary.hashes.headD 0 ∨ asymmetricKeepsChain leaf e.hash = true
      else mixedKeepsChain leafFanout leaf = true) (pool : Pool) :
    let applied := insertNewKey leafFanout leaf e pool
    OutWF (LeafWF Q) lo hi applied.tree applied.split ∧
      (outItems Leaf.entries applied.tree applied.split).Perm (e :: leaf.entries) ∧
      Grown pool applied.pool leaf.idxs (outItems Leaf.idxs applied.tree applied.split) ∧
      applied.pool.total = pool.total ∧ applied.inserted = true := by
  simp only [insertNewKey]
  by_cases room : leaf.primary.entries.length < leafFanout
  · obtain ⟨wf', more⟩ := wf.insertPrimary range fresh
    simp only [if_pos room]
    exact ⟨wf', more, grown_refl _ _, trivial, trivial⟩
  · have full : leafFanout ≤ leaf.primary.entries.length := by omega
    have keeps := safe full
    simp only [if_neg room]
    cases single : leaf.primary.singleClass with
    | true =>
      simp only [single, if_true] at keeps ⊢
      by_cases same : e.hash = leaf.primary.hashes.headD 0
      · obtain ⟨more, grown, total⟩ :=
          chainInsert_spec leafFanout e pool leaf.overflow leaf.primary.idx
        simp only [if_pos same]
        have perm : (Leaf.entries { leaf with overflow :=
            (chainInsert leafFanout e pool leaf.primary.idx leaf.overflow).1 }).Perm
            (e :: leaf.entries) :=
          (more.append_left leaf.primary.entries).trans perm_middle
        refine ⟨wf.add perm wf.sorted range fresh, perm, ?_, total, trivial⟩
        have framed := grown.frame [leaf.primary.idx] []
        simpa [outItems, Leaf.idxs, Leaf.nodes] using framed
      · simp only [if_neg same]
        obtain ⟨out, more, grown, total⟩ := asymmetricSplitLeaf_wf wf single same
          (keeps.resolve_left same) range pool
        exact ⟨out, more, grown, total, trivial⟩
    | false =>
      simp only [single, false_eq_true, if_false] at keeps ⊢
      obtain ⟨⟨low, high, wfLeft, wfRight⟩, whole, grown⟩ :=
        splitLeafMixed_wf wf two full single keeps pool
      have freshLeft : ∀ x, x ∈ (splitLeafMixed leafFanout leaf pool).1.entries →
          x.ident ≠ e.ident :=
        fun x member => fresh x (whole.mem_iff.mp (mem_append_left _ member))
      have freshRight : ∀ x, x ∈ (splitLeafMixed leafFanout leaf pool).2.2.1.entries →
          x.ident ≠ e.ident :=
        fun x member => fresh x (whole.mem_iff.mp (mem_append_right _ member))
      by_cases side : e.hash < (splitLeafMixed leafFanout leaf pool).2.1
      · obtain ⟨wf', more⟩ := wfLeft.insertPrimary ⟨range.1, side, range.2.2⟩ freshLeft
        simp only [if_pos side]
        exact ⟨⟨low, high, wf', wfRight⟩, (more.append_right _).trans (whole.cons e), grown,
          rfl, trivial⟩
      · obtain ⟨wf', more⟩ :=
          wfRight.insertPrimary ⟨by omega, range.2.1, range.2.2⟩ freshRight
        simp only [if_neg side]
        exact ⟨⟨low, high, wfLeft, wf'⟩,
          ((more.append_left _).trans perm_middle).trans (whole.cons e), grown, rfl, trivial⟩

theorem LeafWF.find_isSome (wf : LeafWF Q lo hi leaf) (h : Nat) (k : K) :
    (leaf.find h k).isSome = leaf.has h k := by
  rw [Bool.eq_iff_iff, leaf_has_iff, Option.isSome_iff_exists, leaf_find_eq]
  constructor
  · intro found
    obtain ⟨v, bound⟩ := found
    exact ⟨_, (lookupIn_eq_some_iff wf.distinct).mp bound, rfl⟩
  · intro stored
    obtain ⟨e, member, ident⟩ := stored
    obtain ⟨hash, key, value⟩ := e
    cases ident
    exact ⟨value, (lookupIn_eq_some_iff wf.distinct).mpr member⟩

/-- The first node with the key changes; all other entries stay. -/
theorem LeafWF.changeFirst_good (wf : LeafWF Q lo hi leaf) {op : PendingOp K V}
    {change : List (Entry K V) → List (Entry K V)} {pool : Pool} {inserted : Bool}
    (entries : (leaf.changeFirst op.hash op.key change).entries = change leaf.entries)
    (wf' : LeafWF Q lo hi (leaf.changeFirst op.hash op.key change))
    (after : EntriesAfter op leaf.entries (change leaf.entries))
    (reported : inserted = op.effective (leaf.find op.hash op.key)) :
    (Applied.mk (leaf.changeFirst op.hash op.key change) none inserted pool).Good (LeafWF Q)
      Leaf.find Leaf.idxs lo hi leaf op pool fun drained =>
        drained = true → op.effective (leaf.find op.hash op.key) = true := by
  refine wf.good_of wf' ?_ ?_ rfl reported
  · rw [outItems, entries]
    exact after
  · have same : Leaf.idxs (leaf.changeFirst op.hash op.key change) = leaf.idxs := by
      unfold Leaf.idxs
      rw [leaf_changeFirst_nodes, changeFirst_idx]
    rw [outItems, same]
    exact grown_refl _ _

theorem changeFirst_primary (leaf : Leaf K V) (h : Nat) (k : K)
    (change : List (Entry K V) → List (Entry K V)) :
    (leaf.changeFirst h k change).primary.entries = change leaf.primary.entries ∨
      (leaf.changeFirst h k change).primary.entries = leaf.primary.entries := by
  unfold Leaf.changeFirst
  split
  · exact .inl rfl
  · exact .inr rfl

theorem LeafWF.erase_good (wf : LeafWF Q lo hi leaf) {op : PendingOp K V} (pool : Pool)
    (erases : op.value = none) (stored : leaf.has op.hash op.key = true) :
    (Applied.mk (leaf.changeFirst op.hash op.key (List.eraseP (Entry.isFor op.hash op.key)))
      none true pool).Good (LeafWF Q) Leaf.find Leaf.idxs lo hi leaf op pool fun drained =>
        drained = true → op.effective (leaf.find op.hash op.key) = true := by
  have entries : (leaf.changeFirst op.hash op.key
      (List.eraseP (Entry.isFor op.hash op.key))).entries =
      leaf.entries.eraseP (Entry.isFor op.hash op.key) := by
    unfold Leaf.entries
    rw [leaf_changeFirst_nodes]
    exact changeFirst_entries rfl eraseP_here eraseP_later leaf.nodes
  have filtered : leaf.entries.eraseP (Entry.isFor op.hash op.key) =
      leaf.entries.filter fun e => !e.isFor op.hash op.key := eraseP_eq_filter wf.distinct
  apply wf.changeFirst_good entries
  · refine wf.mono ?_ ?_ ?_
    · rw [entries]
      exact eraseP_sublist.subperm
    · rcases changeFirst_primary leaf op.hash op.key
        (List.eraseP (Entry.isFor op.hash op.key)) with changed | kept
      · rw [changed]
        exact wf.sorted.sublist eraseP_sublist
      · rw [kept]
        exact wf.sorted
    · intro e member
      rw [entries] at member
      have ranged := wf.ranged e (eraseP_sublist.subset member)
      exact ⟨ranged.1, ranged.2.1⟩
  · intro e
    rw [filtered, mem_filter, not_eq_true', eq_false_iff, ne_eq, isFor_iff, erases]
    simp
  · rw [PendingOp.effective, erases]
    rw [wf.find_isSome, stored]

/-- An entry with its value replaced if it is for the key. -/
def overwritten (h : Nat) (k : K) (v : V) (e : Entry K V) : Entry K V :=
  if e.isFor h k then { e with value := v } else e

theorem overwritten_ident (h : Nat) (k : K) (v : V) (e : Entry K V) :
    (overwritten h k v e).ident = e.ident := by
  unfold overwritten
  split <;> rfl

theorem overwritten_hash (h : Nat) (k : K) (v : V) (e : Entry K V) :
    (overwritten h k v e).hash = e.hash := congrArg Prod.fst (overwritten_ident h k v e)

theorem LeafWF.overwrite_wf (wf : LeafWF Q lo hi leaf) {h : Nat} {k : K} {v : V}
    (entries : (leaf.changeFirst h k (overwriteEntry h k v)).entries =
      leaf.entries.map (overwritten h k v)) :
    LeafWF Q lo hi (leaf.changeFirst h k (overwriteEntry h k v)) := by
  refine ⟨?_, ?_, ?_⟩
  · intro e member
    rw [entries] at member
    obtain ⟨x, old, rfl⟩ := mem_map.mp member
    have key : (overwritten h k v x).key = x.key := congrArg Prod.snd (overwritten_ident h k v x)
    rw [overwritten_hash, key]
    exact wf.ranged x old
  · have same : Entry.ident ∘ overwritten h k v = Entry.ident := funext (overwritten_ident h k v)
    unfold Distinct
    rw [entries, map_map, same]
    exact wf.distinct
  · rcases changeFirst_primary leaf h k (overwriteEntry h k v) with changed | kept
    · have primaryDistinct : Distinct leaf.primary.entries := by
        have whole := wf.distinct
        exact whole.sublist ((sublist_append_left _ _).map _)
      rw [changed, overwriteEntry_eq_map primaryDistinct, pairwise_map]
      apply wf.sorted.imp
      intro x y order
      change (overwritten h k v x).hash ≤ (overwritten h k v y).hash
      rw [overwritten_hash, overwritten_hash]
      exact order
    · rw [kept]
      exact wf.sorted

theorem entriesAfter_overwrite {op : PendingOp K V} {v : V} (inserts : op.value = some v)
    {es : List (Entry K V)} {old : Entry K V} (member : old ∈ es)
    (oldIdent : old.ident = (op.hash, op.key)) :
    EntriesAfter op es (es.map (overwritten op.hash op.key v)) := by
  intro e
  rw [mem_map]
  unfold overwritten
  constructor
  · intro changed
    obtain ⟨x, inX, rfl⟩ := changed
    by_cases hit : x.isFor op.hash op.key = true
    · obtain ⟨hash, key, value⟩ := x
      have ident := isFor_iff.mp hit
      cases ident
      exact .inr ⟨v, inserts, by rw [if_pos hit]⟩
    · rw [if_neg hit]
      exact .inl ⟨inX, fun ident => hit (isFor_iff.mpr ident)⟩
  · intro described
    rcases described with ⟨inE, other⟩ | ⟨w, same, rfl⟩
    · refine ⟨e, inE, if_neg ?_⟩
      intro hit
      exact other (isFor_iff.mp hit)
    · rw [inserts] at same
      cases same
      obtain ⟨hash, key, value⟩ := old
      cases oldIdent
      exact ⟨_, member, if_pos (isFor_iff.mpr rfl)⟩

theorem LeafWF.overwrite_good (wf : LeafWF Q lo hi leaf) {op : PendingOp K V} {v : V} (pool : Pool)
    (inserts : op.value = some v) (stored : leaf.has op.hash op.key = true) :
    (Applied.mk (leaf.changeFirst op.hash op.key (overwriteEntry op.hash op.key v))
      none false pool).Good (LeafWF Q) Leaf.find Leaf.idxs lo hi leaf op pool fun drained =>
        drained = true → op.effective (leaf.find op.hash op.key) = true := by
  have entries : (leaf.changeFirst op.hash op.key (overwriteEntry op.hash op.key v)).entries =
      overwriteEntry op.hash op.key v leaf.entries := by
    unfold Leaf.entries
    rw [leaf_changeFirst_nodes]
    exact changeFirst_entries rfl (overwriteEntry_here v) (overwriteEntry_later v) leaf.nodes
  have mapped : overwriteEntry op.hash op.key v leaf.entries =
      leaf.entries.map (overwritten op.hash op.key v) := overwriteEntry_eq_map wf.distinct
  obtain ⟨old, inLeaf, oldIdent⟩ := leaf_has_iff.mp stored
  apply wf.changeFirst_good entries
  · exact wf.overwrite_wf (entries.trans mapped)
  · rw [mapped]
    exact entriesAfter_overwrite inserts inLeaf oldIdent
  · rw [PendingOp.effective, inserts]
    have bound := wf.find_isSome op.hash op.key
    rw [stored] at bound
    rw [Option.isNone_eq_false_iff.mpr bound]

/-- The leaf path does to the lookups what the operation says, if the chain of a
leaf that splits stays on its side. -/
theorem LeafWF.leafApply_good {leafFanout : Nat} (wf : LeafWF Q lo hi leaf) (two : 2 ≤ leafFanout)
    {op : PendingOp K V} (range : lo ≤ op.hash ∧ op.hash < hi ∧ Q op.hash op.key)
    (safe : splitKeepsChain leafFanout leaf op = true) (pool : Pool) :
    (leafApply leafFanout leaf op pool).Good (LeafWF Q) Leaf.find Leaf.idxs lo hi leaf op pool
      fun drained => drained = true → op.effective (leaf.find op.hash op.key) = true := by
  unfold leafApply
  have bound := wf.find_isSome op.hash op.key
  cases value : op.value with
  | none =>
    cases stored : leaf.has op.hash op.key with
    | true =>
      exact wf.erase_good pool value stored
    | false =>
      simp only [false_eq_true, if_false]
      refine wf.good_of wf ?_ (grown_refl _ _) rfl ?_
      · intro e
        have absent : e ∈ leaf.entries → e.ident ≠ (op.hash, op.key) := by
          intro member ident
          rw [leaf_has_iff.mpr ⟨e, member, ident⟩] at stored
          cases stored
        rw [outItems, value]
        constructor
        · intro member
          exact .inl ⟨member, absent member⟩
        · intro described
          rcases described with ⟨member, _⟩ | ⟨w, impossible, _⟩
          · exact member
          · cases impossible
      · rw [PendingOp.effective, value]
        rw [bound, stored]
  | some v =>
    cases stored : leaf.has op.hash op.key with
    | true =>
      exact wf.overwrite_good pool value stored
    | false =>
      simp only [false_eq_true, if_false]
      have fresh : ∀ x, x ∈ leaf.entries → x.ident ≠ (op.hash, op.key) := by
        intro x member ident
        rw [leaf_has_iff.mpr ⟨x, member, ident⟩] at stored
        cases stored
      have keeps : leafFanout ≤ leaf.primary.entries.length →
          if leaf.primary.singleClass then
            op.hash = leaf.primary.hashes.headD 0 ∨
              asymmetricKeepsChain leaf op.hash = true
          else mixedKeepsChain leafFanout leaf = true := by
        intro full
        unfold splitKeepsChain at safe
        rw [value, stored, decide_eq_false (by omega : ¬ _ < leafFanout)] at safe
        cases single : leaf.primary.singleClass with
        | true => simpa [single] using safe
        | false => simpa [single] using safe
      obtain ⟨out, more, grown, total, inserted⟩ := insertNewKey_out wf two
        (e := ⟨op.hash, op.key, v⟩) range fresh keeps pool
      refine wf.good_of out (entriesAfter_insert value fresh more) grown total ?_
      rw [inserted, PendingOp.effective, value]
      rw [stored, Option.isSome_eq_false_iff] at bound
      exact bound.symm

end Path

end Micron.BTree
