import Micron.Lib.KeyedRun

/-!
# Sorted rows of entries

The in-order content of a search tree is a row of entries.  A search runs two
tests on the entries it meets: `below` (the entry comes before the key) and
`above` (the key comes before the entry).  `seek`, `place` and `cut` are lookup,
insertion and removal on the row, and the `_append` lemmas say which half of a
row an operation reaches, which is all that a tree proof needs of them.  The
second half of the module specialises them to rows of bindings sorted by a
strict weak order of the keys, and to finite maps for linear orders.
-/

set_option autoImplicit false

namespace Micron.Lib

open List Function

section Tests
variable {E : Type} (below above : E → Bool)

/-- The first entry that is neither below nor above the key. -/
def seek : List E → Option E
  | [] => none
  | e :: rest => if below e then seek rest else if above e then none else some e

/-- Puts `fresh` at its place in the row, or changes the entry that has its
key. -/
def place (fresh : E) (change : E → E) : List E → List E
  | [] => [fresh]
  | e :: rest =>
    if below e then e :: place fresh change rest
    else if above e then fresh :: e :: rest
    else change e :: rest

def cut : List E → List E
  | [] => []
  | e :: rest => if below e then e :: cut rest else if above e then e :: rest else rest

variable {below above}

theorem seek_append_below {front : List E} (all : ∀ e ∈ front, below e = true) (back : List E) :
    seek below above (front ++ back) = seek below above back := by
  induction front with
  | nil => rfl
  | cons e rest ih =>
    simp only [cons_append, seek, all e mem_cons_self, if_true]
    exact ih fun e' member => all e' (mem_cons_of_mem e member)

theorem place_append_below {front : List E} (all : ∀ e ∈ front, below e = true) (fresh : E)
    (change : E → E) (back : List E) :
    place below above fresh change (front ++ back) =
      front ++ place below above fresh change back := by
  induction front with
  | nil => rfl
  | cons e rest ih =>
    simp only [cons_append, place, all e mem_cons_self, if_true, List.cons.injEq,
      true_and]
    exact ih fun e' member => all e' (mem_cons_of_mem e member)

theorem cut_append_below {front : List E} (all : ∀ e ∈ front, below e = true) (back : List E) :
    cut below above (front ++ back) = front ++ cut below above back := by
  induction front with
  | nil => rfl
  | cons e rest ih =>
    simp only [cons_append, cut, all e mem_cons_self, if_true, List.cons.injEq,
      true_and]
    exact ih fun e' member => all e' (mem_cons_of_mem e member)

theorem seek_append_above {e : E} (notBelow : below e = false) (isAbove : above e = true)
    (front back : List E) :
    seek below above (front ++ e :: back) = seek below above front := by
  induction front with
  | nil => simp [seek, notBelow, isAbove]
  | cons e' rest ih => simp only [cons_append, seek, ih]

theorem place_append_above {e : E} (notBelow : below e = false) (isAbove : above e = true)
    (fresh : E) (change : E → E) (front back : List E) :
    place below above fresh change (front ++ e :: back) =
      place below above fresh change front ++ e :: back := by
  induction front with
  | nil => simp [place, notBelow, isAbove]
  | cons e' rest ih =>
    simp only [cons_append, place, ih]
    split
    · rfl
    · split <;> rfl

theorem cut_append_above {e : E} (notBelow : below e = false) (isAbove : above e = true)
    (front back : List E) :
    cut below above (front ++ e :: back) = cut below above front ++ e :: back := by
  induction front with
  | nil => simp [cut, notBelow, isAbove]
  | cons e' rest ih =>
    simp only [cons_append, cut, ih]
    split
    · rfl
    · split <;> rfl

theorem cut_sublist (row : List E) : (cut below above row).Sublist row := by
  induction row with
  | nil => exact List.Sublist.refl _
  | cons e rest ih =>
    simp only [cut]
    split
    · exact ih.cons_cons e
    · split
      · exact List.Sublist.refl _
      · exact sublist_cons_self e rest

theorem seek_mem {row : List E} {e : E} (found : seek below above row = some e) :
    e ∈ row ∧ below e = false ∧ above e = false := by
  induction row with
  | nil => cases found
  | cons first rest ih =>
    simp only [seek] at found
    split at found
    · obtain ⟨member, tests⟩ := ih found
      exact ⟨mem_cons_of_mem _ member, tests⟩
    · rename_i notBelow
      split at found
      · cases found
      · rename_i notAbove
        cases found
        exact ⟨mem_cons_self, by simpa using notBelow, by simpa using notAbove⟩

theorem length_place (fresh : E) (change : E → E) (row : List E) :
    (place below above fresh change row).length =
      if (seek below above row).isSome then row.length else row.length + 1 := by
  induction row with
  | nil => rfl
  | cons e rest ih =>
    simp only [place, seek]
    split
    · simp only [length_cons, ih]
      split <;> rfl
    · split <;> rfl

theorem length_cut (row : List E) :
    (cut below above row).length =
      if (seek below above row).isSome then row.length - 1 else row.length := by
  induction row with
  | nil => rfl
  | cons e rest ih =>
    simp only [cut, seek]
    split
    · simp only [length_cons, ih]
      split
      · rename_i found
        cases rest with
        | nil => simp [seek] at found
        | cons _ _ => rfl
      · rfl
    · split <;> rfl

end Tests

section Keyed
variable {K V : Type} (r : K → K → Prop) [DecidableRel r]

def keyBelow (key : K) (e : K × V) : Bool := decide (r e.1 key)

def keyAbove (key : K) (e : K × V) : Bool := decide (r key e.1)

def SortedKeys (row : List (K × V)) : Prop := row.Pairwise fun a b => r a.1 b.1

def rowGet (row : List (K × V)) (key : K) : Option V :=
  (seek (keyBelow r key) (keyAbove r key) row).map Prod.snd

/-- The binding gets the value; the key stored first stays. -/
def rowPut (key : K) (value : V) (row : List (K × V)) : List (K × V) :=
  place (keyBelow r key) (keyAbove r key) (key, value) (fun e => (e.1, value)) row

def rowCut (key : K) (row : List (K × V)) : List (K × V) :=
  cut (keyBelow r key) (keyAbove r key) row

end Keyed

section Linear
variable {K V : Type} [LinearOrder K]

theorem SortedKeys.tail {e : K × V} {rest : List (K × V)}
    (sorted : SortedKeys (· < ·) (e :: rest)) : SortedKeys (· < ·) rest :=
  (pairwise_cons.mp sorted).2

theorem SortedKeys.head_lt {e : K × V} {rest : List (K × V)}
    (sorted : SortedKeys (· < ·) (e :: rest)) : ∀ e' ∈ rest, e.1 < e'.1 :=
  (pairwise_cons.mp sorted).1

theorem rowGet_eq_none {row : List (K × V)} {key : K} (absent : ∀ e ∈ row, e.1 ≠ key) :
    rowGet (· < ·) row key = none := by
  cases found : seek (keyBelow (· < ·) key) (keyAbove (· < ·) key) row with
  | none => rw [rowGet, found]; rfl
  | some e =>
    obtain ⟨member, notBelow, notAbove⟩ := seek_mem found
    simp only [keyBelow, keyAbove, decide_eq_false_iff_not, not_lt] at notBelow notAbove
    exact absurd (le_antisymm notAbove notBelow) (absent e member)

theorem rowGet_cons {e : K × V} {rest : List (K × V)} (key : K)
    (sorted : SortedKeys (· < ·) (e :: rest)) :
    rowGet (· < ·) (e :: rest) key = if e.1 = key then some e.2 else rowGet (· < ·) rest key := by
  rcases lt_trichotomy e.1 key with less | same | greater
  · simp [rowGet, seek, keyBelow, less, ne_of_lt less]
  · simp [rowGet, seek, keyBelow, keyAbove, same]
  · rw [if_neg (ne_of_gt greater)]
    have outside : rowGet (· < ·) rest key = none := by
      apply rowGet_eq_none
      intro e' member same
      rw [← same] at greater
      exact absurd (sorted.head_lt e' member) (not_lt_of_gt greater)
    rw [outside]
    simp [rowGet, seek, keyBelow, keyAbove, greater, not_lt_of_gt greater]

theorem rowGet_eq_some_iff {row : List (K × V)} (sorted : SortedKeys (· < ·) row) (key : K)
    (value : V) : rowGet (· < ·) row key = some value ↔ (key, value) ∈ row := by
  induction row with
  | nil => simp [rowGet, seek]
  | cons e rest ih =>
    rw [rowGet_cons key sorted, mem_cons]
    split
    · rename_i same
      constructor
      · intro bound
        cases bound
        exact .inl (by rw [← same])
      · rintro (rfl | member)
        · rfl
        · exact absurd same (ne_of_lt (sorted.head_lt _ member))
    · rename_i distinct
      rw [ih sorted.tail]
      constructor
      · exact .inr
      · rintro (rfl | member)
        · exact absurd rfl distinct
        · exact member

theorem mem_rowPut_key {row : List (K × V)} {key : K} {value : V} {e : K × V}
    (member : e ∈ rowPut (· < ·) key value row) : e.1 = key ∨ e ∈ row := by
  induction row with
  | nil =>
    simp only [rowPut, place, mem_singleton] at member
    exact .inl (by rw [member])
  | cons first rest ih =>
    simp only [rowPut, place] at member
    split at member
    · rcases mem_cons.mp member with rfl | inside
      · exact .inr mem_cons_self
      · exact (ih inside).imp_right (mem_cons_of_mem _)
    · rename_i notBelow
      split at member
      · rcases mem_cons.mp member with rfl | inside
        · exact .inl rfl
        · exact .inr inside
      · rename_i notAbove
        rcases mem_cons.mp member with rfl | inside
        · simp only [keyBelow, keyAbove, decide_eq_true_eq, not_lt] at notBelow notAbove
          exact .inl (le_antisymm notAbove notBelow)
        · exact .inr (mem_cons_of_mem _ inside)

theorem SortedKeys.rowPut {row : List (K × V)} (sorted : SortedKeys (· < ·) row) (key : K)
    (value : V) : SortedKeys (· < ·) (rowPut (· < ·) key value row) := by
  induction row with
  | nil => exact pairwise_singleton _ _
  | cons e rest ih =>
    simp only [Lib.rowPut, place]
    split
    · rename_i isBelow
      apply pairwise_cons.mpr
      constructor
      · intro e' member
        rcases mem_rowPut_key member with same | inside
        · rw [same]
          exact of_decide_eq_true isBelow
        · exact sorted.head_lt e' inside
      · exact ih sorted.tail
    · split
      · rename_i isAbove
        apply pairwise_cons.mpr
        constructor
        · intro e' member
          have first : key < e.1 := of_decide_eq_true isAbove
          rcases mem_cons.mp member with rfl | inside
          · exact first
          · exact lt_trans first (sorted.head_lt e' inside)
        · exact sorted
      · exact pairwise_cons.mpr ⟨sorted.head_lt, sorted.tail⟩

theorem SortedKeys.rowCut {row : List (K × V)} (sorted : SortedKeys (· < ·) row) (key : K) :
    SortedKeys (· < ·) (rowCut (· < ·) key row) :=
  List.Pairwise.sublist (cut_sublist row) sorted

theorem rowGet_rowPut {row : List (K × V)} (sorted : SortedKeys (· < ·) row) (key : K)
    (value : V) :
    rowGet (· < ·) (rowPut (· < ·) key value row) =
      update (rowGet (· < ·) row) key (some value) := by
  funext other
  induction row with
  | nil =>
    have single : rowPut (· < ·) key value [] = [(key, value)] := rfl
    rw [single, rowGet_cons other (pairwise_singleton _ _)]
    by_cases same : other = key
    · subst same
      simp
    · simp [same, Ne.symm same, rowGet, seek]
  | cons e rest ih =>
    have sortedPut := sorted.rowPut key value
    simp only [Lib.rowPut, place] at sortedPut ⊢
    split at sortedPut
    · rename_i isBelow
      have less : e.1 < key := of_decide_eq_true isBelow
      rw [if_pos isBelow, rowGet_cons other sortedPut]
      have step := ih sorted.tail
      rw [Lib.rowPut] at step
      rw [step]
      by_cases same : other = key
      · subst same
        simp [ne_of_lt less]
      · rw [update_of_ne same, update_of_ne same, rowGet_cons other sorted]
    · rename_i notBelow
      rw [if_neg notBelow]
      split at sortedPut
      · rename_i isAbove
        rw [if_pos isAbove, rowGet_cons other sortedPut]
        by_cases same : other = key
        · subst same
          simp
        · rw [if_neg (Ne.symm same), update_of_ne same]
      · rename_i notAbove
        have same : e.1 = key := by
          simp only [keyBelow, keyAbove, decide_eq_true_eq, not_lt] at notBelow notAbove
          exact le_antisymm notAbove notBelow
        rw [if_neg notAbove, rowGet_cons other sortedPut]
        by_cases found : other = key
        · subst found
          simp [same]
        · have distinct : e.1 ≠ other := by
            rw [same]
            exact Ne.symm found
          rw [if_neg distinct, update_of_ne found, rowGet_cons other sorted,
            if_neg distinct]

theorem rowGet_rowCut {row : List (K × V)} (sorted : SortedKeys (· < ·) row) (key : K) :
    rowGet (· < ·) (rowCut (· < ·) key row) = update (rowGet (· < ·) row) key none := by
  funext other
  induction row with
  | nil => simp [Lib.rowCut, cut, rowGet, seek, update_apply]
  | cons e rest ih =>
    have sortedCut := sorted.rowCut key
    simp only [Lib.rowCut, cut] at sortedCut ⊢
    split at sortedCut
    · rename_i isBelow
      have less : e.1 < key := of_decide_eq_true isBelow
      rw [if_pos isBelow, rowGet_cons other sortedCut]
      have step := ih sorted.tail
      rw [Lib.rowCut] at step
      rw [step]
      by_cases same : other = key
      · subst same
        simp [ne_of_lt less]
      · rw [update_of_ne same, update_of_ne same, rowGet_cons other sorted]
    · rename_i notBelow
      have least : key ≤ e.1 := by
        simpa [keyBelow] using notBelow
      have outside : ∀ e' ∈ rest, e'.1 ≠ key := fun e' member =>
        ne_of_gt (lt_of_le_of_lt least (sorted.head_lt e' member))
      rw [if_neg notBelow]
      split at sortedCut
      · rename_i isAbove
        have greater : key < e.1 := of_decide_eq_true isAbove
        rw [if_pos isAbove]
        by_cases same : other = key
        · subst same
          rw [update_self, rowGet_cons other sorted, if_neg (ne_of_gt greater)]
          exact rowGet_eq_none outside
        · rw [update_of_ne same]
      · rename_i notAbove
        have same : e.1 = key := by
          simp only [keyAbove, decide_eq_true_eq, not_lt] at notAbove
          exact le_antisymm notAbove least
        rw [if_neg notAbove]
        by_cases found : other = key
        · subst found
          rw [update_self]
          exact rowGet_eq_none outside
        · rw [update_of_ne found, rowGet_cons other sorted,
            if_neg (by rw [same]; exact Ne.symm found)]

/-! ### A row around a pivot

A search tree asks where `k` stands relative to the key of its root. -/

section Pivot
variable {front back : List (K × V)} {pivot : K} {value : V} (k : K)

theorem keyBelow_front (before : ∀ e ∈ front, e.1 < pivot) (notLess : ¬k < pivot) :
    ∀ e ∈ front, keyBelow (· < ·) k e = true :=
  fun e member => decide_eq_true (lt_of_lt_of_le (before e member) (not_lt.mp notLess))

theorem rowGet_pivot (before : ∀ e ∈ front, e.1 < pivot) :
    rowGet (· < ·) (front ++ (pivot, value) :: back) k =
      if k < pivot then rowGet (· < ·) front k
      else if pivot < k then rowGet (· < ·) back k
      else some value := by
  unfold rowGet
  split
  · rename_i less
    rw [seek_append_above]
    · simpa [keyBelow] using le_of_lt less
    · simpa [keyAbove] using less
  · rename_i notLess
    rw [seek_append_below (keyBelow_front k before notLess)]
    by_cases greater : pivot < k
    · simp [seek, keyBelow, greater]
    · simp [seek, keyBelow, keyAbove, greater, notLess]

theorem rowPut_pivot (before : ∀ e ∈ front, e.1 < pivot) (new : V) :
    rowPut (· < ·) k new (front ++ (pivot, value) :: back) =
      if k < pivot then rowPut (· < ·) k new front ++ (pivot, value) :: back
      else if pivot < k then front ++ (pivot, value) :: rowPut (· < ·) k new back
      else front ++ (pivot, new) :: back := by
  unfold rowPut
  split
  · rename_i less
    rw [place_append_above]
    · simpa [keyBelow] using le_of_lt less
    · simpa [keyAbove] using less
  · rename_i notLess
    rw [place_append_below (keyBelow_front k before notLess)]
    by_cases greater : pivot < k
    · simp [place, keyBelow, greater]
    · simp [place, keyBelow, keyAbove, greater, notLess]

theorem rowCut_pivot (before : ∀ e ∈ front, e.1 < pivot) :
    rowCut (· < ·) k (front ++ (pivot, value) :: back) =
      if k < pivot then rowCut (· < ·) k front ++ (pivot, value) :: back
      else if pivot < k then front ++ (pivot, value) :: rowCut (· < ·) k back
      else front ++ back := by
  unfold rowCut
  split
  · rename_i less
    rw [cut_append_above]
    · simpa [keyBelow] using le_of_lt less
    · simpa [keyAbove] using less
  · rename_i notLess
    rw [cut_append_below (keyBelow_front k before notLess)]
    by_cases greater : pivot < k
    · simp [cut, keyBelow, greater]
    · simp [cut, keyBelow, keyAbove, greater, notLess]

end Pivot

/-- The number of entries is the number of bound keys. -/
theorem SortedKeys.length_eq {row : List (K × V)} (sorted : SortedKeys (· < ·) row) :
    row.length = keyCount (rowGet (· < ·) row) := by
  have nodup : (row.map Prod.fst).Nodup := by
    apply List.Pairwise.imp (R := fun a b => a < b) ne_of_lt
    exact pairwise_map.mpr sorted
  rw [← length_map Prod.fst]
  apply length_eq_keyCount nodup
  intro key
  rw [mem_map, Option.isSome_iff_exists]
  constructor
  · rintro ⟨e, member, rfl⟩
    exact ⟨e.2, (rowGet_eq_some_iff sorted e.1 e.2).mpr member⟩
  · rintro ⟨value, bound⟩
    exact ⟨(key, value), (rowGet_eq_some_iff sorted key value).mp bound, rfl⟩

end Linear

end Micron.Lib
