import Micron.Art.Model

/-!
# The four layouts agree

Every layout is a partial function from bytes to children.  A child added,
replaced or removed changes that function at one byte, growing does not change
it, and the slots of a layout enumerate its children once each.
-/

set_option autoImplicit false

namespace Micron.Art

open List

variable {α : Type}

section Row
variable {row : List (UInt8 × α)} {b : UInt8}

theorem rowFind_eq_some_iff (nodup : (row.map Prod.fst).Nodup) (c : α) :
    rowFind row b = some c ↔ (b, c) ∈ row := by
  rw [rowFind, Option.map_eq_some_iff]
  constructor
  · rintro ⟨e, found, rfl⟩
    have here := @List.find?_some _ (fun e : UInt8 × α => e.1 == b) _ _ found
    have same : e.1 = b := by simpa using here
    rw [← same]
    exact mem_of_find?_eq_some found
  · intro member
    cases found : row.find? fun e => e.1 == b with
    | none =>
      have missing := find?_eq_none.mp found _ member
      simp at missing
    | some e =>
      have here := @List.find?_some _ (fun e : UInt8 × α => e.1 == b) _ _ found
      have same : e.1 = b := by simpa using here
      have whole := inj_on_of_nodup_map nodup (mem_of_find?_eq_some found) member same
      exact ⟨e, rfl, by rw [whole]⟩

theorem rowFind_eq_none_iff : rowFind row b = none ↔ ∀ e ∈ row, e.1 ≠ b := by
  simp [rowFind]

theorem rowFind_append (absent : rowFind row b = none) (child : α) (b' : UInt8) :
    rowFind (row ++ [(b, child)]) b' = if b' = b then some child else rowFind row b' := by
  unfold rowFind at absent ⊢
  rw [find?_append]
  by_cases here : b' = b
  · subst here
    rw [Option.map_eq_none_iff.mp absent]
    simp
  · simp [here, Ne.symm here]

theorem keys_rowSet (child : α) : (rowSet b child row).map Prod.fst = row.map Prod.fst := by
  induction row with
  | nil => rfl
  | cons e rest ih =>
    rw [rowSet]
    split
    · rfl
    · simp [ih]

theorem rowFind_rowSet (there : (rowFind row b).isSome) (child : α) (b' : UInt8) :
    rowFind (rowSet b child row) b' = if b' = b then some child else rowFind row b' := by
  induction row with
  | nil => cases there
  | cons e rest ih =>
    rw [rowSet]
    by_cases here : e.1 = b
    · rw [if_pos (by simpa using here)]
      by_cases same : b' = b
      · simp [rowFind, here, same]
      · simp [rowFind, here, same, Ne.symm same]
    · rw [if_neg (by simpa using here)]
      have inRest : (rowFind rest b).isSome := by simpa [rowFind, here] using there
      have step := ih inRest
      unfold rowFind at step ⊢
      rw [find?_cons, find?_cons]
      by_cases first : e.1 = b'
      · have other : b' ≠ b := by rw [← first]; exact here
        simp [first, other]
      · have notFirst : (e.1 == b') = false := by simpa using first
        rw [notFirst]
        exact step

theorem rowFind_rowRemove (nodup : (row.map Prod.fst).Nodup) (b' : UInt8) :
    rowFind (rowRemove row b) b' = if b' = b then none else rowFind row b' := by
  induction row with
  | nil => simp [rowRemove, rowFind]
  | cons e rest ih =>
    rw [map_cons, nodup_cons] at nodup
    rw [rowRemove]
    by_cases here : e.1 = b
    · rw [eraseP_cons_of_pos (by simpa using here)]
      have gone : rowFind rest b = none := by
        rw [rowFind_eq_none_iff]
        rintro e' member rfl
        exact nodup.1 (by rw [here]; exact mem_map_of_mem member)
      by_cases same : b' = b
      · rw [if_pos same, same, gone]
      · simp [rowFind, here, same, Ne.symm same]
    · rw [eraseP_cons_of_neg (by simpa using here)]
      have step := ih nodup.2
      unfold rowFind at step ⊢
      rw [find?_cons, find?_cons]
      by_cases first : e.1 = b'
      · have other : b' ≠ b := by rw [← first]; exact here
        simp [first, other]
      · have notFirst : (e.1 == b') = false := by simpa using first
        rw [notFirst]
        exact step

theorem rowRemove_sublist : (rowRemove row b).Sublist row := eraseP_sublist

end Row

/-- The nonzero bytes number `n` children from one on, each once. -/
structure IdxWF (idx : List Nat) (n : Nat) : Prop where
  length : idx.length = 256
  bounded : ∀ q ix : Nat, idx[q]? = some ix → ix ≤ n
  onto : ∀ i, i < n → ∃ q : Nat, idx[q]? = some (i + 1)
  injective : ∀ q q' ix : Nat, idx[q]? = some (ix + 1) → idx[q']? = some (ix + 1) → q = q'

section Idx
variable {idx : List Nat} {n : Nat}

theorem IdxWF.get (wf : IdxWF idx n) (b : UInt8) :
    idx[b.toNat]? = some (idx.getD b.toNat 0) := by
  have inside : b.toNat < idx.length := by
    rw [wf.length]
    exact b.toNat_lt
  rw [getD_eq_getElem?_getD, getElem?_eq_getElem inside]
  rfl

theorem IdxWF.add (wf : IdxWF idx n) {q : Nat} (free : idx[q]? = some 0) :
    IdxWF (idx.set q (n + 1)) (n + 1) := by
  have inside : q < idx.length := (List.getElem?_eq_some_iff.mp free).1
  have read : ∀ q', (idx.set q (n + 1))[q']? = if q = q' then some (n + 1) else idx[q']? := by
    intro q'
    rw [getElem?_set]
    split
    · rfl
    · rfl
  constructor
  · rw [length_set]
    exact wf.length
  · intro q' ix here
    rw [read] at here
    split at here
    · cases here
      exact le_refl _
    · exact Nat.le_succ_of_le (wf.bounded q' ix here)
  · intro i less
    by_cases last : i = n
    · exact ⟨q, by rw [read, if_pos rfl, last]⟩
    · obtain ⟨q', here⟩ := wf.onto i (by omega)
      refine ⟨q', ?_⟩
      rw [read, if_neg, here]
      rintro rfl
      rw [free] at here
      cases here
  · intro q₁ q₂ ix here₁ here₂
    rw [read] at here₁ here₂
    split at here₁
    · rename_i same₁
      split at here₂
      · rename_i same₂
        rw [← same₁, ← same₂]
      · cases here₁
        exact absurd (wf.bounded q₂ _ here₂) (by omega)
    · split at here₂
      · cases here₂
        exact absurd (wf.bounded q₁ _ here₁) (by omega)
      · exact wf.injective q₁ q₂ ix here₁ here₂

theorem replace_eq_set {l : List Nat} {p a : Nat} (x : Nat) (here : l[p]? = some a)
    (first : ∀ q : Nat, l[q]? = some a → q = p) : l.replace a x = l.set p x := by
  induction l generalizing p with
  | nil => simp at here
  | cons e rest ih =>
    cases p with
    | zero =>
      simp only [getElem?_cons_zero, Option.some.injEq] at here
      simp [here]
    | succ p =>
      have other : e ≠ a := by
        intro same
        have zero := first 0 (by simp [same])
        omega
      have differs : (a == e) = false := by simpa using Ne.symm other
      rw [replace_cons, differs, set_cons_succ, ih]
      · simpa using here
      · intro q found
        have next := first (q + 1) (by simpa using found)
        omega

/-- The last child moves to `slot`, the child of byte position `p` goes. -/
theorem IdxWF.remove (wf : IdxWF idx n) {p slot : Nat} (here : idx[p]? = some (slot + 1)) :
    ∃ idx', IdxWF idx' (n - 1) ∧
      (∀ q, idx'[q]? = if p = q then some 0
        else if idx[q]? = some n then some (slot + 1) else idx[q]?) ∧
      (if slot ≠ n - 1 then (idx.replace (n - 1 + 1) (slot + 1)).set p 0 else idx.set p 0) = idx' := by
  have below : slot + 1 ≤ n := wf.bounded p _ here
  have inside : p < idx.length := (List.getElem?_eq_some_iff.mp here).1
  have lastName : n - 1 + 1 = n := by omega
  obtain ⟨z, last⟩ := wf.onto (n - 1) (by omega)
  rw [lastName] at last
  have unique : ∀ q, idx[q]? = some n → q = z := by
    intro q found
    rw [← lastName] at found last
    exact wf.injective q z _ found last
  -- either way, what stands at each position afterwards
  have written : ∀ q, (if slot ≠ n - 1 then (idx.replace (n - 1 + 1) (slot + 1)).set p 0
      else idx.set p 0)[q]? = if p = q then some 0
        else if idx[q]? = some n then some (slot + 1) else idx[q]? := by
    intro q
    split
    · rename_i moved
      rw [lastName, replace_eq_set _ last unique, getElem?_set, length_set,
        getElem?_set]
      split
      · rfl
      · by_cases atLast : z = q
        · subst atLast
          rw [if_pos rfl, if_pos (List.getElem?_eq_some_iff.mp last).1, if_pos last]
        · rw [if_neg atLast, if_neg]
          exact fun found => atLast (unique q found).symm
    · rename_i same
      have same' : slot + 1 = n := by omega
      rw [getElem?_set]
      split
      · rfl
      · rename_i other
        rw [if_neg]
        intro found
        rw [← same'] at found
        exact other (wf.injective p q slot here found)
  refine ⟨_, ?_, written, rfl⟩
  constructor
  · split
    · simp [wf.length]
    · simp [wf.length]
  · intro q ix found
    rw [written] at found
    split at found
    · cases found
      omega
    · rename_i apart
      split at found
      · rename_i atLast
        cases found
        have other : slot + 1 ≠ n := by
          intro same
          rw [same] at here
          exact apart ((unique p here).trans (unique q atLast).symm)
        omega
      · rename_i notLast
        have bound := wf.bounded q ix found
        have other : ix ≠ n := by
          rintro rfl
          exact notLast found
        omega
  · intro i less
    by_cases freed : i = slot
    · refine ⟨z, ?_⟩
      have apart : p ≠ z := by
        rintro rfl
        rw [here, Option.some.injEq] at last
        omega
      rw [written, if_neg apart, if_pos last, freed]
    · obtain ⟨q, found⟩ := wf.onto i (by omega)
      refine ⟨q, ?_⟩
      rw [written, if_neg, if_neg, found]
      · intro atLast
        rw [found, Option.some.injEq] at atLast
        omega
      · rintro rfl
        rw [found, Option.some.injEq] at here
        omega
  · -- the byte of the last child is the only new one, and takes the freed number
    intro q₁ q₂ ix found₁ found₂
    rw [written] at found₁ found₂
    split at found₁
    · cases found₁
    · rename_i apart₁
      split at found₂
      · cases found₂
      · rename_i apart₂
        split at found₁
        · rename_i last₁
          split at found₂
          · rename_i last₂
            rw [unique q₁ last₁, unique q₂ last₂]
          · rw [← found₁] at found₂
            exact absurd (wf.injective p q₂ slot here found₂) apart₂
        · split at found₂
          · rw [← found₂] at found₁
            exact absurd (wf.injective p q₁ slot here found₁) apart₁
          · exact wf.injective q₁ q₂ ix found₁ found₂

end Idx

/-! ## Growing -/

theorem growIdx_fold (row : List (UInt8 × α)) :
    ∀ (k : Nat) (idx : List Nat), (row.map Prod.fst).Nodup → idx.length = 256 →
      ((row.zipIdx k).foldl (fun idx e => idx.set e.1.1.toNat (e.2 + 1)) idx).length = 256 ∧
      (∀ (i : Nat) b c, row[i]? = some (b, c) →
        ((row.zipIdx k).foldl (fun idx e => idx.set e.1.1.toNat (e.2 + 1)) idx)[b.toNat]? =
          some (k + i + 1)) ∧
      ∀ q, (∀ e ∈ row, e.1.toNat ≠ q) →
        ((row.zipIdx k).foldl (fun idx e => idx.set e.1.1.toNat (e.2 + 1)) idx)[q]? = idx[q]? := by
  induction row with
  | nil =>
    intro k idx _ length
    refine ⟨length, ?_, ?_⟩
    · intro i b c impossible
      simp at impossible
    · intro q _
      rfl
  | cons e rest ih =>
    intro k idx nodup length
    rw [map_cons, nodup_cons] at nodup
    have length' : (idx.set e.1.toNat (k + 1)).length = 256 := by rw [length_set, length]
    obtain ⟨lengthRest, inRest, others⟩ := ih (k + 1) _ nodup.2 length'
    rw [zipIdx_cons, foldl_cons]
    refine ⟨lengthRest, ?_, ?_⟩
    · intro i b c here
      cases i with
      | zero =>
        simp only [getElem?_cons_zero, Option.some.injEq] at here
        subst here
        rw [others, getElem?_set_self]
        · rw [length]
          exact UInt8.toNat_lt b
        · intro e' member same
          exact nodup.1 (mem_map.mpr ⟨e', member, UInt8.toNat_inj.mp same⟩)
      | succ i =>
        rw [inRest i b c (by simpa using here)]
        congr 1
        omega
    · intro q absent
      rw [others q fun e' member => absent e' (mem_cons_of_mem _ member),
        getElem?_set_ne (absent e mem_cons_self)]

theorem growIdx_get {row : List (UInt8 × α)} (nodup : (row.map Prod.fst).Nodup) {i : Nat}
    {b : UInt8} {c : α} (here : row[i]? = some (b, c)) :
    (Inner.growIdx row)[b.toNat]? = some (i + 1) := by
  have fold := (growIdx_fold row 0 (List.replicate 256 0) nodup (length_replicate)).2.1 i b c here
  rwa [zero_add] at fold

theorem growIdx_absent {row : List (UInt8 × α)} (nodup : (row.map Prod.fst).Nodup) {q : Nat}
    (inside : q < 256) (absent : ∀ e ∈ row, e.1.toNat ≠ q) :
    (Inner.growIdx row)[q]? = some 0 := by
  have fold := (growIdx_fold row 0 (List.replicate 256 0) nodup (length_replicate)).2.2 q absent
  rw [Inner.growIdx, fold, getElem?_replicate, if_pos inside]

/-- Each index byte is zero or numbers the place of its key in the row. -/
theorem growIdx_cases {row : List (UInt8 × α)} (nodup : (row.map Prod.fst).Nodup) {q ix : Nat}
    (found : (Inner.growIdx row)[q]? = some ix) :
    ix = 0 ∨ ∃ i e, ix = i + 1 ∧ row[i]? = some e ∧ e.1.toNat = q := by
  by_cases there : ∃ e ∈ row, e.1.toNat = q
  · obtain ⟨e, member, rfl⟩ := there
    obtain ⟨i, here⟩ := mem_iff_getElem?.mp member
    rw [growIdx_get nodup (b := e.1) (c := e.2) here, Option.some.injEq] at found
    exact .inr ⟨i, e, found.symm, here, rfl⟩
  · have length := (growIdx_fold row 0 (List.replicate 256 0) nodup (length_replicate)).1
    have inside : q < 256 := by
      rw [← length]
      exact (List.getElem?_eq_some_iff.mp found).1
    rw [growIdx_absent nodup inside (fun e member same => there ⟨e, member, same⟩),
      Option.some.injEq] at found
    exact .inl found.symm

theorem idxWF_growIdx {row : List (UInt8 × α)} (nodup : (row.map Prod.fst).Nodup) :
    IdxWF (Inner.growIdx row) row.length := by
  constructor
  · exact (growIdx_fold row 0 (List.replicate 256 0) nodup (length_replicate)).1
  · intro q ix found
    rcases growIdx_cases nodup found with rfl | ⟨i, e, rfl, here, _⟩
    · exact Nat.zero_le _
    · exact (List.getElem?_eq_some_iff.mp here).1
  · intro i less
    exact ⟨_, growIdx_get nodup (b := row[i].1) (c := row[i].2) (by simp [less])⟩
  · intro q q' ix found found'
    obtain ⟨i, e, same, here, at_q⟩ := (growIdx_cases nodup found).resolve_left (by omega)
    obtain ⟨i', e', same', here', at_q'⟩ := (growIdx_cases nodup found').resolve_left (by omega)
    have index : i = i' := by omega
    rw [index, here', Option.some.injEq] at here
    rw [← at_q, ← at_q', here]

namespace Inner

def WF : Inner α → Prop
  | n4 row => row.length ≤ 4 ∧ (row.map Prod.fst).Nodup
  | n16 row => row.length ≤ 16 ∧ (row.map Prod.fst).Nodup
  | n48 idx children => children.length ≤ 48 ∧ IdxWF idx children.length
  | n256 _ children => children.length = 256

variable {n : Inner α} {b : UInt8}

theorem findChild_n48_eq_some_iff {idx : List Nat} {cs : List α} (wf : IdxWF idx cs.length) (c : α) :
    (n48 idx cs).findChild b = some c ↔
      ∃ ix, idx[b.toNat]? = some (ix + 1) ∧ cs[ix]? = some c := by
  have here := wf.get b
  simp only [findChild]
  split
  · rename_i zero
    rw [zero] at here
    rw [here]
    simp
  · rename_i ix next
    rw [next] at here
    rw [here]
    simp

theorem findChild_n48_eq_none_iff {idx : List Nat} {cs : List α} (wf : IdxWF idx cs.length) :
    (n48 idx cs).findChild b = none ↔ idx[b.toNat]? = some 0 := by
  have here := wf.get b
  simp only [findChild]
  split
  · rename_i zero
    rw [zero] at here
    simp [here]
  · rename_i ix next
    rw [next] at here
    have bound := wf.bounded _ _ here
    rw [here, getElem?_eq_none_iff]
    simp
    omega

theorem findChild_grow (wf : n.WF) : n.grow.findChild b = n.findChild b := by
  cases n with
  | n4 row => rfl
  | n16 row =>
    have wf' : IdxWF (growIdx row) (row.map Prod.snd).length := by
      rw [length_map]
      exact idxWF_growIdx wf.2
    apply Option.ext
    intro c
    rw [grow, findChild_n48_eq_some_iff wf', findChild, rowFind_eq_some_iff wf.2]
    constructor
    · rintro ⟨ix, found, child⟩
      obtain ⟨i, e, same, here, byte⟩ := (growIdx_cases wf.2 found).resolve_left (by omega)
      have index : i = ix := by omega
      subst index
      rw [getElem?_map, here, Option.map_some, Option.some.injEq] at child
      have whole : e = (b, c) := by rw [← child, ← UInt8.toNat_inj.mp byte]
      rw [← whole]
      exact mem_of_getElem? here
    · intro member
      obtain ⟨i, here⟩ := mem_iff_getElem?.mp member
      exact ⟨i, growIdx_get wf.2 here, by rw [getElem?_map, here]; rfl⟩
  | n48 idx cs =>
    have here := wf.2.get b
    simp only [grow, findChild, getD_eq_getElem?_getD, getElem?_map] at here ⊢
    rw [here, Option.map_some, Option.getD_some]
    cases idx[b.toNat]?.getD 0 with
    | zero => rfl
    | succ ix => simp
  | n256 num cs => rfl

theorem WF.grow (wf : n.WF) : n.grow.WF := by
  cases n with
  | n4 row => exact ⟨le_trans wf.1 (by decide), wf.2⟩
  | n16 row =>
    refine ⟨?_, ?_⟩
    · rw [length_map]
      exact le_trans wf.1 (by decide)
    · rw [length_map]
      exact idxWF_growIdx wf.2
  | n48 idx cs =>
    rw [Inner.grow, WF, length_map]
    exact wf.2.length
  | n256 num cs => exact wf

theorem WF.setChild (wf : n.WF) (child : α) : (n.setChild b child).WF := by
  cases n with
  | n4 row =>
    refine ⟨?_, ?_⟩
    · rw [← length_map Prod.fst, keys_rowSet, length_map]
      exact wf.1
    · rw [keys_rowSet]
      exact wf.2
  | n16 row =>
    refine ⟨?_, ?_⟩
    · rw [← length_map Prod.fst, keys_rowSet, length_map]
      exact wf.1
    · rw [keys_rowSet]
      exact wf.2
  | n48 idx cs =>
    rw [Inner.setChild, WF, length_set]
    exact wf
  | n256 num cs =>
    rw [Inner.setChild, WF, length_set]
    exact wf

theorem findChild_n256_set {num num' : Nat} {cs : List (Option α)} (length : cs.length = 256)
    (child : Option α) (b' : UInt8) :
    (n256 num' (cs.set b.toNat child)).findChild b' =
      if b' = b then child else (n256 num cs).findChild b' := by
  simp only [findChild, getD_eq_getElem?_getD]
  by_cases same : b' = b
  · subst same
    rw [if_pos rfl, getElem?_set_self (by rw [length]; exact b'.toNat_lt)]
    rfl
  · rw [if_neg same, getElem?_set_ne]
    exact fun equal => same (UInt8.toNat_inj.mp equal).symm

theorem findChild_setChild (wf : n.WF) (there : (n.findChild b).isSome) (child : α) (b' : UInt8) :
    (n.setChild b child).findChild b' = if b' = b then some child else n.findChild b' := by
  cases n with
  | n4 row => exact rowFind_rowSet there child b'
  | n16 row => exact rowFind_rowSet there child b'
  | n48 idx cs =>
    have wf' : IdxWF idx (cs.set (idx.getD b.toNat 0 - 1) child).length := by
      rw [length_set]
      exact wf.2
    obtain ⟨old, found⟩ := Option.isSome_iff_exists.mp there
    obtain ⟨ix, here, at_ix⟩ := (findChild_n48_eq_some_iff wf.2 old).mp found
    have index : idx.getD b.toNat 0 - 1 = ix := by
      have get := wf.2.get b
      rw [here, Option.some.injEq] at get
      omega
    have inside : ix < cs.length := (List.getElem?_eq_some_iff.mp at_ix).1
    apply Option.ext
    intro c
    rw [Inner.setChild, findChild_n48_eq_some_iff wf', index]
    by_cases same : b' = b
    · subst same
      rw [if_pos rfl, here]
      simp [inside]
    · rw [if_neg same, findChild_n48_eq_some_iff wf.2]
      apply exists_congr
      intro ix'
      apply and_congr_right
      intro here'
      rw [getElem?_set_ne]
      rintro rfl
      exact same (UInt8.toNat_inj.mp (wf.2.injective _ _ _ here here')).symm
  | n256 num cs => exact findChild_n256_set wf (some child) b'

/-- What a layout is after a child is added for a byte that had none. -/
def Added (n : Inner α) (b : UInt8) (child : α) (n' : Inner α) : Prop :=
  n'.WF ∧ ∀ b', n'.findChild b' = if b' = b then some child else n.findChild b'

theorem Added.of_grow {child : α} {n' : Inner α} (wf : n.WF) (added : Added n.grow b child n') :
    Added n b child n' := by
  refine ⟨added.1, ?_⟩
  intro b'
  rw [added.2 b', findChild_grow wf]

theorem added_n256 {num : Nat} {cs : List (Option α)} (wf : (n256 num cs).WF) (child : α) :
    Added (n256 num cs) b child ((n256 num cs).addChild b child) := by
  rw [addChild]
  refine ⟨?_, findChild_n256_set wf (some child)⟩
  rw [WF, length_set]
  exact wf

theorem added_n48 {idx : List Nat} {cs : List α} (wf : (n48 idx cs).WF)
    (absent : (n48 idx cs).findChild b = none) (child : α) :
    Added (n48 idx cs) b child ((n48 idx cs).addChild b child) := by
  rw [addChild]
  split
  · exact Added.of_grow wf (added_n256 wf.grow child)
  · rename_i notFull
    have free := (findChild_n48_eq_none_iff wf.2).mp absent
    have grown : IdxWF (idx.set b.toNat (cs.length + 1)) (cs ++ [child]).length := by
      rw [length_append]
      exact wf.2.add free
    have small := wf.1
    refine ⟨⟨by simp; omega, grown⟩, ?_⟩
    intro b'
    apply Option.ext
    intro c
    rw [findChild_n48_eq_some_iff grown]
    have inside : b.toNat < idx.length := by
      rw [wf.2.length]
      exact b.toNat_lt
    by_cases same : b' = b
    · subst same
      rw [if_pos rfl, getElem?_set_self inside]
      simp
    · rw [if_neg same, findChild_n48_eq_some_iff wf.2,
        getElem?_set_ne (fun equal => same (UInt8.toNat_inj.mp equal).symm)]
      apply exists_congr
      intro ix
      apply and_congr_right
      intro here
      have bound := wf.2.bounded _ _ here
      rw [getElem?_append_left (by omega)]

theorem added_row {row : List (UInt8 × α)} (nodup : (row.map Prod.fst).Nodup)
    (absent : rowFind row b = none) (child : α) :
    ((row ++ [(b, child)]).map Prod.fst).Nodup := by
  rw [map_append, nodup_append]
  refine ⟨nodup, by simp, ?_⟩
  intro x inRow y last same
  obtain ⟨e, member, rfl⟩ := mem_map.mp inRow
  simp only [map_cons, map_nil, mem_singleton] at last
  exact rowFind_eq_none_iff.mp absent e member (same.trans last)

theorem added_n16 {row : List (UInt8 × α)} (wf : (n16 row).WF)
    (absent : (n16 row).findChild b = none) (child : α) :
    Added (n16 row) b child ((n16 row).addChild b child) := by
  rw [addChild]
  split
  · have absent' : (n16 row).grow.findChild b = none := by
      rw [findChild_grow wf]
      exact absent
    exact Added.of_grow wf (added_n48 wf.grow absent' child)
  · have small := wf.1
    refine ⟨⟨by simp; omega, added_row wf.2 absent child⟩, ?_⟩
    exact rowFind_append absent child

/-- A child added for a new byte, whatever the layout it starts from or grows
to. -/
theorem WF.addChild (wf : n.WF) (absent : n.findChild b = none) (child : α) :
    Added n b child (n.addChild b child) := by
  cases n with
  | n4 row =>
    rw [Inner.addChild]
    split
    · exact Added.of_grow wf (added_n16 wf.grow absent child)
    · have small := wf.1
      refine ⟨⟨by simp; omega, added_row wf.2 absent child⟩, ?_⟩
      exact rowFind_append absent child
  | n16 row => exact added_n16 wf absent child
  | n48 idx cs => exact added_n48 wf absent child
  | n256 num cs => exact added_n256 wf child

/-! ### Removing -/

/-- What a layout is after the child of byte `b` is removed. -/
def Removed (n : Inner α) (b : UInt8) : Option (Inner α) → Prop
  | none => ∀ b', b' ≠ b → n.findChild b' = none
  | some n' => n'.WF ∧ ∀ b', n'.findChild b' = if b' = b then none else n.findChild b'

theorem removed_row {row : List (UInt8 × α)} (nodup : (row.map Prod.fst).Nodup) {cap : Nat}
    (small : row.length ≤ cap) :
    (rowRemove row b).length ≤ cap ∧ ((rowRemove row b).map Prod.fst).Nodup :=
  ⟨le_trans rowRemove_sublist.length_le small, nodup.sublist (rowRemove_sublist.map Prod.fst)⟩

theorem removed_n48 {idx : List Nat} {cs : List α} (wf : (n48 idx cs).WF)
    (there : ((n48 idx cs).findChild b).isSome) :
    Removed (n48 idx cs) b ((n48 idx cs).removeChild b) := by
  obtain ⟨old, found⟩ := Option.isSome_iff_exists.mp there
  obtain ⟨slot, here, at_slot⟩ := (findChild_n48_eq_some_iff wf.2 old).mp found
  have inside : slot < cs.length := (List.getElem?_eq_some_iff.mp at_slot).1
  obtain ⟨moved, last⟩ : ∃ moved, cs[cs.length - 1]? = some moved :=
    ⟨cs[cs.length - 1], by simp⟩
  obtain ⟨idx', wf', written, result⟩ := wf.2.remove here
  -- the children afterwards: the last one in the freed slot
  have reads : ∀ ix, ix < cs.length - 1 →
      ((cs.set slot moved).take (cs.length - 1))[ix]? = if ix = slot then some moved else cs[ix]? := by
    intro ix less
    rw [getElem?_take_of_lt less, getElem?_set]
    by_cases same : slot = ix
    · simp [same]
      omega
    · simp [same, Ne.symm same]
  have length : ((cs.set slot moved).take (cs.length - 1)).length = cs.length - 1 := by
    simp
  have outcome : (n48 idx cs).removeChild b =
      some (n48 idx' ((cs.set slot moved).take (cs.length - 1))) := by
    have get := wf.2.get b
    rw [here, Option.some.injEq] at get
    rw [removeChild, ← get]
    simp only
    split
    · rename_i apart
      rw [if_pos apart] at result
      rw [result, last]
    · rename_i same
      rw [if_neg same] at result
      have place : slot = cs.length - 1 := by omega
      have unchanged : cs.set slot moved = cs := by
        apply ext_getElem?
        intro i
        rw [getElem?_set]
        split
        · rename_i hit
          rw [← hit, place, last]
        · rfl
      rw [result, unchanged]
  rw [outcome]
  have wf'' : IdxWF idx' ((cs.set slot moved).take (cs.length - 1)).length := by
    rw [length]
    exact wf'
  refine ⟨⟨by rw [length]; exact le_trans (Nat.sub_le _ _) wf.1, wf''⟩, ?_⟩
  intro b'
  apply Option.ext
  intro c
  rw [findChild_n48_eq_some_iff wf'']
  by_cases same : b' = b
  · subst same
    rw [written, if_pos rfl]
    simp
  · have apart : b.toNat ≠ b'.toNat := fun equal => same (UInt8.toNat_inj.mp equal).symm
    rw [if_neg same, findChild_n48_eq_some_iff wf.2, written, if_neg apart]
    constructor
    · rintro ⟨ix, number, child⟩
      have less : ix < cs.length - 1 := by
        rw [← length]
        exact (List.getElem?_eq_some_iff.mp child).1
      rw [reads ix less] at child
      split at number
      · rename_i atLast
        simp only [Option.some.injEq, Nat.add_right_cancel_iff] at number
        rw [if_pos number.symm] at child
        refine ⟨cs.length - 1, ?_, last.trans child⟩
        rw [atLast]
        congr 1
        omega
      · rw [if_neg] at child
        · exact ⟨ix, number, child⟩
        · rintro rfl
          exact apart (wf.2.injective _ _ _ here number)
    · rintro ⟨ix, number, child⟩
      have bound := wf.2.bounded _ _ number
      by_cases atLast : ix + 1 = cs.length
      · rw [atLast] at number
        have other : slot ≠ cs.length - 1 := by
          intro equal
          have top : slot + 1 = cs.length := by omega
          rw [← top] at number
          exact apart (wf.2.injective _ _ _ here number)
        refine ⟨slot, by rw [if_pos number], ?_⟩
        rw [reads slot (by omega), if_pos rfl, ← last, ← child]
        congr 1
        omega
      · refine ⟨ix, ?_, ?_⟩
        · rw [number, if_neg (by simpa using atLast)]
        · rw [reads ix (by omega), if_neg, child]
          rintro rfl
          exact apart (wf.2.injective _ _ _ here number)

theorem WF.removeChild (wf : n.WF) (there : (n.findChild b).isSome) :
    Removed n b (n.removeChild b) := by
  cases n with
  | n4 row =>
    have content := @rowFind_rowRemove _ row b wf.2
    have hit : (row.any fun e => e.1 == b) = true := by
      obtain ⟨c, found⟩ := Option.isSome_iff_exists.mp there
      rw [any_eq_true]
      exact ⟨(b, c), (rowFind_eq_some_iff wf.2 c).mp found, by simp⟩
    rw [Inner.removeChild, if_pos hit]
    simp only
    split
    · rename_i emptied
      intro b' other
      have gone := content b'
      rw [length_eq_zero_iff.mp emptied, if_neg other] at gone
      exact gone.symm
    · exact ⟨removed_row wf.2 wf.1, content⟩
  | n16 row => exact ⟨removed_row wf.2 wf.1, rowFind_rowRemove wf.2⟩
  | n48 idx cs => exact removed_n48 wf there
  | n256 num cs =>
    have someChild : (cs.getD b.toNat none).isSome := there
    rw [Inner.removeChild, if_pos someChild]
    refine ⟨?_, findChild_n256_set wf none⟩
    rw [WF, length_set]
    exact wf

/-- The child of byte `b` is in slot `i`. -/
def AtSlot (n : Inner α) (b : UInt8) (i : Nat) : Prop :=
  match n with
  | n4 row => ∃ c, row[i]? = some (b, c)
  | n16 row => ∃ c, row[i]? = some (b, c)
  | n48 idx _ => idx[b.toNat]? = some (i + 1)
  | n256 _ _ => b.toNat = i

theorem atSlot_row_unique {row : List (UInt8 × α)} (nodup : (row.map Prod.fst).Nodup) {i j : Nat}
    {c c' : α} (here : row[i]? = some (b, c)) (here' : row[j]? = some (b, c')) : i = j := by
  obtain ⟨insideI, getI⟩ := List.getElem?_eq_some_iff.mp here
  obtain ⟨insideJ, getJ⟩ := List.getElem?_eq_some_iff.mp here'
  have equal : (row.map Prod.fst).get ⟨i, by rw [List.length_map]; exact insideI⟩ =
      (row.map Prod.fst).get ⟨j, by rw [List.length_map]; exact insideJ⟩ := by
    simp [getI, getJ]
  exact Fin.mk.inj (nodup.get_inj_iff.mp equal)

theorem AtSlot.unique (wf : n.WF) {i j : Nat} (here : n.AtSlot b i) (here' : n.AtSlot b j) :
    i = j := by
  cases n with
  | n4 row =>
    obtain ⟨c, atI⟩ := here
    obtain ⟨c', atJ⟩ := here'
    exact atSlot_row_unique wf.2 atI atJ
  | n16 row =>
    obtain ⟨c, atI⟩ := here
    obtain ⟨c', atJ⟩ := here'
    exact atSlot_row_unique wf.2 atI atJ
  | n48 idx cs =>
    have same := here.symm.trans here'
    rw [Option.some.injEq] at same
    omega
  | n256 num cs => exact here.symm.trans here'

theorem atSlot_row {row : List (UInt8 × α)} (nodup : (row.map Prod.fst).Nodup) {i : Nat} {c : α}
    (here : row[i]? = some (b, c)) :
    (if i < row.length then row[i]?.map Prod.snd else none) = rowFind row b := by
  rw [if_pos (List.getElem?_eq_some_iff.mp here).1, here]
  exact ((rowFind_eq_some_iff nodup c).mpr (mem_of_getElem? here)).symm

theorem AtSlot.childAt (wf : n.WF) {i : Nat} (here : n.AtSlot b i) :
    n.childAt i = n.findChild b := by
  cases n with
  | n4 row =>
    obtain ⟨c, at_i⟩ := here
    exact atSlot_row wf.2 at_i
  | n16 row =>
    obtain ⟨c, at_i⟩ := here
    exact atSlot_row wf.2 at_i
  | n48 idx cs =>
    have bound := wf.2.bounded _ _ here
    have small := wf.1
    have get := wf.2.get b
    rw [here, Option.some.injEq] at get
    rw [Inner.childAt, if_pos (by omega), findChild, ← get]
  | n256 num cs =>
    rw [Inner.childAt, findChild, here, if_pos]
    rw [← here]
    exact b.toNat_lt

theorem exists_atSlot_row {row : List (UInt8 × α)} {i : Nat} {c : α}
    (found : (if i < row.length then row[i]?.map Prod.snd else none) = some c) :
    ∃ b c, row[i]? = some (b, c) := by
  split at found
  · obtain ⟨e, here, _⟩ := Option.map_eq_some_iff.mp found
    exact ⟨e.1, e.2, here⟩
  · cases found

theorem exists_atSlot_of_childAt (wf : n.WF) {i : Nat} {c : α} (found : n.childAt i = some c) :
    ∃ b, n.AtSlot b i := by
  cases n with
  | n4 row => exact exists_atSlot_row found
  | n16 row => exact exists_atSlot_row found
  | n48 idx cs =>
    rw [Inner.childAt] at found
    split at found
    · obtain ⟨q, number⟩ := wf.2.onto i (List.getElem?_eq_some_iff.mp found).1
      have inside : q < 256 := by
        rw [← wf.2.length]
        exact (List.getElem?_eq_some_iff.mp number).1
      refine ⟨UInt8.ofNat q, ?_⟩
      rw [AtSlot, UInt8.toNat_ofNat_of_lt' inside]
      exact number
    · cases found
  | n256 num cs =>
    rw [Inner.childAt] at found
    split at found
    · rename_i inside
      exact ⟨UInt8.ofNat i, UInt8.toNat_ofNat_of_lt' inside⟩
    · cases found

theorem exists_atSlot_rowFind {row : List (UInt8 × α)} (nodup : (row.map Prod.fst).Nodup) {c : α}
    (found : rowFind row b = some c) : ∃ i, i < row.length ∧ ∃ c, row[i]? = some (b, c) := by
  obtain ⟨i, here⟩ := mem_iff_getElem?.mp ((rowFind_eq_some_iff nodup c).mp found)
  exact ⟨i, (List.getElem?_eq_some_iff.mp here).1, c, here⟩

theorem exists_atSlot_of_findChild (wf : n.WF) {c : α} (found : n.findChild b = some c) :
    ∃ i, i < n.slotCount ∧ n.AtSlot b i := by
  cases n with
  | n4 row => exact exists_atSlot_rowFind wf.2 found
  | n16 row => exact exists_atSlot_rowFind wf.2 found
  | n48 idx cs =>
    obtain ⟨ix, number, child⟩ := (findChild_n48_eq_some_iff wf.2 c).mp found
    have inside := (List.getElem?_eq_some_iff.mp child).1
    have small := wf.1
    exact ⟨ix, by rw [slotCount]; omega, number⟩
  | n256 num cs => exact ⟨b.toNat, b.toNat_lt, rfl⟩

theorem mem_children (wf : n.WF) {c : α} : c ∈ n.children ↔ ∃ b, n.findChild b = some c := by
  rw [children, mem_filterMap]
  constructor
  · rintro ⟨i, _, found⟩
    obtain ⟨b, here⟩ := exists_atSlot_of_childAt wf found
    exact ⟨b, by rw [← here.childAt wf, found]⟩
  · rintro ⟨b, found⟩
    obtain ⟨i, inside, here⟩ := exists_atSlot_of_findChild wf found
    exact ⟨i, mem_range.mpr inside, by rw [here.childAt wf, found]⟩

theorem children_pairwise (wf : n.WF) :
    n.children.Pairwise fun c c' =>
      ∃ b b', b ≠ b' ∧ n.findChild b = some c ∧ n.findChild b' = some c' := by
  rw [children, pairwise_filterMap]
  apply List.Pairwise.imp _ nodup_range
  intro i j apart c found c' found'
  obtain ⟨b, here⟩ := exists_atSlot_of_childAt wf found
  obtain ⟨b', here'⟩ := exists_atSlot_of_childAt wf found'
  refine ⟨b, b', ?_, by rw [← here.childAt wf, found], by rw [← here'.childAt wf, found']⟩
  rintro rfl
  exact apart (here.unique wf here')

end Inner

end Micron.Art
