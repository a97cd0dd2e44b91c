import Mathlib.Data.List.Nodup

/-!
# Children selected by an index

A search node sends every entry to the child of its index: `child i` is the
child for index `i`, `entries` lists the entries below a child and `index` is
the index of an entry.  The lemmas say what changing one child does to the
entries below the node, when they are routed before and after.
-/

set_option autoImplicit false

namespace Micron.Lib

open List Function

variable {ι α E : Type}

def Routed (child : ι → Option α) (entries : α → List E) (index : E → ι) : Prop :=
  ∀ i c, child i = some c → ∀ e ∈ entries c, index e = i

def Below (child : ι → Option α) (entries : α → List E) (e : E) : Prop :=
  ∃ i c, child i = some c ∧ e ∈ entries c

section Read
variable {child : ι → Option α} {entries : α → List E} {index : E → ι} {e : E} {i : ι} {c : α}

theorem Routed.holds_iff (routed : Routed child entries index) (at_i : index e = i)
    (found : child i = some c) : Below child entries e ↔ e ∈ entries c := by
  constructor
  · rintro ⟨j, c', found', member⟩
    rw [← routed j c' found' e member, at_i, found, Option.some.injEq] at found'
    rw [found']
    exact member
  · intro member
    exact ⟨i, c, found, member⟩

theorem Routed.not_holds (routed : Routed child entries index) (at_i : index e = i)
    (missing : child i = none) : ¬Below child entries e := by
  rintro ⟨j, c, found, member⟩
  rw [← routed j c found e member, at_i, missing] at found
  cases found

end Read

section Write
variable [DecidableEq ι] {child child' : ι → Option α} {entries : α → List E} {index : E → ι}
  {i : ι} {c c' : α}

theorem forall_replaced {P : ι → α → Prop} (slots : ∀ j, child' j = if j = i then some c' else child j)
    (all : ∀ j c, child j = some c → P j c) (new : P i c') : ∀ j c, child' j = some c → P j c := by
  intro j c found
  rw [slots] at found
  split at found
  · rename_i here
    cases found
    exact here ▸ new
  · exact all j c found

theorem of_removed (slots : ∀ j, child' j = if j = i then none else child j) {j : ι}
    (found : child' j = some c) : j ≠ i ∧ child j = some c := by
  rw [slots] at found
  split at found
  · cases found
  · rename_i elsewhere
    exact ⟨elsewhere, found⟩

theorem Routed.replace (routed : Routed child entries index)
    (slots : ∀ j, child' j = if j = i then some c' else child j)
    (new : ∀ e ∈ entries c', index e = i) :
    Routed child' entries index ∧
      ∀ e, Below child' entries e ↔ e ∈ entries c' ∨ index e ≠ i ∧ Below child entries e := by
  refine ⟨forall_replaced slots routed new, ?_⟩
  intro e
  constructor
  · rintro ⟨j, c, found, member⟩
    rw [slots] at found
    split at found
    · cases found
      exact .inl member
    · rename_i elsewhere
      refine .inr ⟨?_, j, c, found, member⟩
      rw [routed j c found e member]
      exact elsewhere
  · rintro (member | ⟨elsewhere, j, c, found, member⟩)
    · exact ⟨i, c', by rw [slots, if_pos rfl], member⟩
    · refine ⟨j, c, ?_, member⟩
      rw [slots, if_neg, found]
      rw [← routed j c found e member]
      exact elsewhere

theorem Routed.remove (routed : Routed child entries index)
    (slots : ∀ j, child' j = if j = i then none else child j) :
    Routed child' entries index ∧
      ∀ e, Below child' entries e ↔ index e ≠ i ∧ Below child entries e := by
  constructor
  · intro j c found
    exact routed j c (of_removed slots found).2
  · intro e
    constructor
    · rintro ⟨j, c, found, member⟩
      obtain ⟨elsewhere, old⟩ := of_removed slots found
      refine ⟨?_, j, c, old, member⟩
      rw [routed j c old e member]
      exact elsewhere
    · rintro ⟨elsewhere, j, c, found, member⟩
      refine ⟨j, c, ?_, member⟩
      rw [slots, if_neg, found]
      rw [← routed j c found e member]
      exact elsewhere

/-! ## One entry put in, or the entries of one key taken out

`others e` says that `e` is not an entry of the key concerned; all entries that
are have the index `i`. -/

variable {others : E → Prop} {new : E}

/-- A new child for an index that had none. -/
theorem Routed.put_child (routed : Routed child entries index) (missing : child i = none)
    (slots : ∀ j, child' j = if j = i then some c' else child j) (at_i : index new = i)
    (single : ∀ e, e ∈ entries c' ↔ e = new)
    (rest : ∀ e, Below child entries e → ¬others e → index e = i) :
    Routed child' entries index ∧
      ∀ e, Below child' entries e ↔ e = new ∨ others e ∧ Below child entries e := by
  obtain ⟨routed', holds⟩ := routed.replace slots (fun e member => by
    rw [(single e).mp member, at_i])
  refine ⟨routed', ?_⟩
  intro e
  rw [holds e, single e]
  apply or_congr_right
  constructor
  · rintro ⟨elsewhere, held⟩
    exact ⟨Classical.byContradiction fun same => elsewhere (rest e held same), held⟩
  · rintro ⟨_, held⟩
    exact ⟨fun same => routed.not_holds same missing held, held⟩

/-- The child of the index replaced by one with the entry put in. -/
theorem Routed.put (routed : Routed child entries index) (found : child i = some c)
    (slots : ∀ j, child' j = if j = i then some c' else child j) (at_i : index new = i)
    (below : ∀ e, e ∈ entries c' ↔ e = new ∨ others e ∧ e ∈ entries c)
    (rest : ∀ e, Below child entries e → ¬others e → index e = i) :
    Routed child' entries index ∧
      ∀ e, Below child' entries e ↔ e = new ∨ others e ∧ Below child entries e := by
  have routedChild : ∀ e ∈ entries c', index e = i := by
    intro e member
    rcases (below e).mp member with rfl | ⟨_, old⟩
    · exact at_i
    · exact routed i c found e old
  obtain ⟨routed', holds⟩ := routed.replace slots routedChild
  refine ⟨routed', ?_⟩
  intro e
  rw [holds e, below e]
  by_cases here : index e = i
  · rw [routed.holds_iff here found]
    simp [here]
  · have notNew : e ≠ new := by
      rintro rfl
      exact here at_i
    have outside : e ∉ entries c := fun member => here (routed i c found e member)
    have other : Below child entries e → others e :=
      fun held => Classical.byContradiction fun same => here (rest e held same)
    simp only [notNew, outside, here, and_false, or_false, false_or, ne_eq, not_false_eq_true,
      true_and]
    exact iff_and_self.mpr other

/-- The child of the index replaced by one with the entries taken out. -/
theorem Routed.take (routed : Routed child entries index) (found : child i = some c)
    (slots : ∀ j, child' j = if j = i then some c' else child j)
    (below : ∀ e, e ∈ entries c' ↔ others e ∧ e ∈ entries c)
    (rest : ∀ e, Below child entries e → ¬others e → index e = i) :
    Routed child' entries index ∧
      ∀ e, Below child' entries e ↔ others e ∧ Below child entries e := by
  obtain ⟨routed', holds⟩ := routed.replace slots
    (fun e member => routed i c found e ((below e).mp member).2)
  refine ⟨routed', ?_⟩
  intro e
  rw [holds e, below e]
  by_cases here : index e = i
  · rw [routed.holds_iff here found]
    simp [here]
  · have outside : e ∉ entries c := fun member => here (routed i c found e member)
    have other : Below child entries e → others e :=
      fun held => Classical.byContradiction fun same => here (rest e held same)
    simp only [outside, here, and_false, false_or, ne_eq, not_false_eq_true, true_and]
    exact iff_and_self.mpr other

/-- The child of the index removed, as nothing else was below it. -/
theorem Routed.take_child (routed : Routed child entries index) (found : child i = some c)
    (slots : ∀ j, child' j = if j = i then none else child j)
    (below : ∀ e ∈ entries c, ¬others e)
    (rest : ∀ e, Below child entries e → ¬others e → index e = i) :
    Routed child' entries index ∧
      ∀ e, Below child' entries e ↔ others e ∧ Below child entries e := by
  obtain ⟨routed', holds⟩ := routed.remove slots
  refine ⟨routed', ?_⟩
  intro e
  rw [holds e]
  constructor
  · rintro ⟨elsewhere, held⟩
    exact ⟨Classical.byContradiction fun same => elsewhere (rest e held same), held⟩
  · rintro ⟨other, held⟩
    refine ⟨?_, held⟩
    intro here
    exact below e ((routed.holds_iff here found).mp held) other

end Write

/-! ## Rows of distinct keys

What taking out the entry of one key, or putting a new one in its place, does to a row. -/

section Row
variable {K : Type} {key : E → K} {k : K} {first new e : E} {rest rest' : List E}

theorem mem_tail_of_distinct (distinct : ((first :: rest).map key).Nodup) (here : key first = k) (e : E) :
    e ∈ rest ↔ key e ≠ k ∧ e ∈ first :: rest := by
  subst here
  rw [map_cons, nodup_cons] at distinct
  constructor
  · intro member
    exact ⟨fun same => distinct.1 (same ▸ mem_map_of_mem member), mem_cons_of_mem _ member⟩
  · rintro ⟨other, member⟩
    rcases mem_cons.mp member with rfl | later
    · exact absurd rfl other
    · exact later

theorem mem_put_here (distinct : ((first :: rest).map key).Nodup) (here : key first = k) (e : E) :
    e ∈ new :: rest ↔ e = new ∨ key e ≠ k ∧ e ∈ first :: rest := by
  rw [mem_cons, mem_tail_of_distinct distinct here]

theorem kept_cons (other : key first ≠ k) :
    (e = first ∨ key e ≠ k ∧ e ∈ rest) ↔ key e ≠ k ∧ e ∈ first :: rest := by
  rw [mem_cons]
  constructor
  · rintro (rfl | ⟨otherKey, old⟩)
    · exact ⟨other, .inl rfl⟩
    · exact ⟨otherKey, .inr old⟩
  · rintro ⟨otherKey, same | old⟩
    · exact .inl same
    · exact .inr ⟨otherKey, old⟩

theorem mem_cons_kept (other : key first ≠ k) (kept : e ∈ rest' ↔ key e ≠ k ∧ e ∈ rest) :
    e ∈ first :: rest' ↔ key e ≠ k ∧ e ∈ first :: rest := by
  rw [mem_cons, kept, kept_cons other]

theorem mem_put_later (other : key first ≠ k) (put : e ∈ rest' ↔ e = new ∨ key e ≠ k ∧ e ∈ rest) :
    e ∈ first :: rest' ↔ e = new ∨ key e ≠ k ∧ e ∈ first :: rest := by
  rw [mem_cons, put, or_left_comm, kept_cons other]

end Row

/-- A row of children of different indices, each without a key twice, has no
key twice. -/
theorem nodup_flatMap_of_routed {K : Type} {child : ι → Option α} {entries : α → List E}
    {index : E → ι} (key : E → K) (routed : Routed child entries index) {row : List α}
    (apart : row.Pairwise fun c c' => ∃ i j, i ≠ j ∧ child i = some c ∧ child j = some c')
    (nodup : ∀ c ∈ row, ((entries c).map key).Nodup)
    (sameIndex : ∀ c ∈ row, ∀ c' ∈ row, ∀ e ∈ entries c, ∀ e' ∈ entries c',
      key e = key e' → index e = index e') :
    ((row.flatMap entries).map key).Nodup := by
  rw [map_flatMap, nodup_flatMap]
  refine ⟨nodup, ?_⟩
  apply List.Pairwise.imp_of_mem _ apart
  rintro c c' member member' ⟨i, j, distinct, found, found'⟩ k inC inC'
  obtain ⟨e, below, rfl⟩ := mem_map.mp inC
  obtain ⟨e', below', same⟩ := mem_map.mp inC'
  have equal := sameIndex c member c' member' e below e' below' same.symm
  rw [routed i c found e below, routed j c' found' e' below'] at equal
  exact distinct equal

/-- Replacing one piece of a concatenation. -/
theorem flatMap_update {β : Type} {list : List Nat} (once : list.Nodup) {b : Nat} (member : b ∈ list)
    (f : Nat → List β) : ∃ before after, list.flatMap f = before ++ f b ++ after ∧
      ∀ x, list.flatMap (update f b x) = before ++ x ++ after := by
  obtain ⟨front, back, rfl⟩ := append_of_mem member
  obtain ⟨_, onceBack, apart⟩ := nodup_append.mp once
  have notFront : ∀ c, c ∈ front → c ≠ b := fun c inFront => apart c inFront b mem_cons_self
  have notBack : ∀ c, c ∈ back → c ≠ b := by
    intro c inBack same
    exact (nodup_cons.mp onceBack).1 (same ▸ inBack)
  have unchanged : ∀ (part : List Nat) (x : List β), (∀ c, c ∈ part → c ≠ b) →
      part.flatMap (update f b x) = part.flatMap f := by
    intro part x other
    apply flatMap_congr
    intro c inPart
    exact update_of_ne (other c inPart) _ _
  refine ⟨front.flatMap f, back.flatMap f, ?_, ?_⟩
  · rw [flatMap_append, flatMap_cons, append_assoc]
  · intro x
    rw [flatMap_append, flatMap_cons, update_self, unchanged front x notFront,
      unchanged back x notBack, append_assoc]

end Micron.Lib
