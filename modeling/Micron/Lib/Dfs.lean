import Mathlib.Data.Finset.Card

/-!
# Depth-first search with marks

A search over nodes that are given with a piece of data: a marked node is left as it
is, another is marked and visited, and the search goes on from its moves.  Only the
nodes of `dedup` are marked.  A search visits a list of nodes, in an order that the
results do not depend on, and `Visits` says all that is needed of this list.
-/

set_option autoImplicit false

namespace Micron.Lib

open List Bool

variable {ι α σ : Type} [DecidableEq ι]

/-- The marks after the nodes of `new` are visited. -/
def marksAfter (dedup : ι → Bool) (seen : ι → Bool) (new : List (ι × α)) (i : ι) : Bool :=
  seen i || (dedup i && decide (i ∈ new.map Prod.fst))

def dfs (dedup : ι → Bool) (moves : ι × α → List (ι × α)) (visit : σ → ι × α → σ) :
    Nat → ι × α → (ι → Bool) × σ → (ι → Bool) × σ
  | 0, _, st => st
  | fuel + 1, q, st =>
    if dedup q.1 && st.1 q.1 then st
    else
      (moves q).foldl (fun st q' => dfs dedup moves visit fuel q' st)
        (marksAfter dedup st.1 [q], visit st.2 q)

/-- The node has been visited with its data, or marked. -/
def Done (dedup seen : ι → Bool) (new : List (ι × α)) (q : ι × α) : Prop :=
  q ∈ new ∨ dedup q.1 = true ∧ marksAfter dedup seen new q.1 = true

/-- A search from `roots` visits the nodes of `new`. -/
structure Visits (dedup : ι → Bool) (moves : ι × α → List (ι × α)) (seen : ι → Bool)
    (roots new : List (ι × α)) : Prop where
  fresh : ∀ q ∈ new, dedup q.1 = true → seen q.1 = false
  nodup : ((new.filter fun q => dedup q.1).map Prod.fst).Nodup
  entered : ∀ q ∈ roots, Done dedup seen new q
  closed : ∀ q ∈ new, ∀ q' ∈ moves q, Done dedup seen new q'
  reach : ∀ q ∈ new, ∃ r ∈ roots, Relation.ReflTransGen (fun q q' => q' ∈ moves q) r q

variable {dedup seen : ι → Bool} {moves : ι × α → List (ι × α)} {visit : σ → ι × α → σ}
  {roots roots' new new' : List (ι × α)} {q : ι × α}

@[simp] theorem marksAfter_nil : marksAfter dedup seen ([] : List (ι × α)) = seen := by
  funext i
  simp [marksAfter]

theorem marksAfter_append (i : ι) :
    marksAfter dedup seen (new ++ new') i = marksAfter dedup (marksAfter dedup seen new) new' i := by
  unfold marksAfter
  by_cases old : i ∈ new.map Prod.fst <;> by_cases young : i ∈ new'.map Prod.fst <;>
    cases seen i <;> cases dedup i <;> simp_all

theorem Done.append_right (done : Done dedup seen new q) : Done dedup seen (new ++ new') q := by
  rcases done with inside | ⟨marking, marked⟩
  · exact .inl (mem_append_left new' inside)
  · refine .inr ⟨marking, ?_⟩
    rw [marksAfter_append, marksAfter, marked]
    rfl

theorem Done.append_left (done : Done dedup (marksAfter dedup seen new) new' q) :
    Done dedup seen (new ++ new') q := by
  rcases done with inside | ⟨marking, marked⟩
  · exact .inl (mem_append_right new inside)
  · exact .inr ⟨marking, (marksAfter_append q.1).trans marked⟩

namespace Visits

theorem nil : Visits dedup moves seen [] [] where
  fresh _ inside := nomatch inside
  nodup := nodup_nil
  entered _ inside := nomatch inside
  closed _ inside := nomatch inside
  reach _ inside := nomatch inside

theorem skip (marking : dedup q.1 = true) (marked : seen q.1 = true) :
    Visits dedup moves seen [q] [] where
  fresh _ inside := nomatch inside
  nodup := nodup_nil
  entered r isRoot := by
    obtain rfl := mem_singleton.mp isRoot
    exact .inr ⟨marking, by simp [marksAfter, marked]⟩
  closed _ inside := nomatch inside
  reach _ inside := nomatch inside

theorem append (first : Visits dedup moves seen roots new)
    (second : Visits dedup moves (marksAfter dedup seen new) roots' new') :
    Visits dedup moves seen (roots ++ roots') (new ++ new') where
  fresh p inside marking := by
    rcases mem_append.mp inside with old | young
    · exact first.fresh p old marking
    · have unmarked := second.fresh p young marking
      rw [marksAfter, Bool.or_eq_false_iff] at unmarked
      exact unmarked.1
  nodup := by
    rw [filter_append, map_append, nodup_append]
    refine ⟨first.nodup, second.nodup, ?_⟩
    intro i old j young same
    subst same
    obtain ⟨p, inNew, rfl⟩ := mem_map.mp old
    obtain ⟨p', inNew', same⟩ := mem_map.mp young
    obtain ⟨inNew, marking⟩ := mem_filter.mp inNew
    obtain ⟨inNew', -⟩ := mem_filter.mp inNew'
    -- the second search would have found the mark of the first
    have unmarked := second.fresh p' inNew' (same ▸ marking)
    have marked : p'.1 ∈ new.map Prod.fst := same ▸ mem_map_of_mem inNew
    have marking' : dedup p'.1 = true := same ▸ marking
    simp only [marksAfter, marking', marked, decide_true, Bool.and_self, Bool.or_true] at unmarked
    cases unmarked
  entered r isRoot := by
    rcases mem_append.mp isRoot with old | young
    · exact (first.entered r old).append_right
    · exact (second.entered r young).append_left
  closed p inside p' move := by
    rcases mem_append.mp inside with old | young
    · exact (first.closed p old p' move).append_right
    · exact (second.closed p young p' move).append_left
  reach p inside := by
    rcases mem_append.mp inside with old | young
    · obtain ⟨r, isRoot, path⟩ := first.reach p old
      exact ⟨r, mem_append_left roots' isRoot, path⟩
    · obtain ⟨r, isRoot, path⟩ := second.reach p young
      exact ⟨r, mem_append_right roots isRoot, path⟩

theorem enter (unmarked : (dedup q.1 && seen q.1) = false)
    (inner : Visits dedup moves (marksAfter dedup seen [q]) (moves q) new) :
    Visits dedup moves seen [q] (q :: new) where
  fresh p inside marking := by
    rcases mem_cons.mp inside with rfl | young
    · simpa [marking] using unmarked
    · have fresh := inner.fresh p young marking
      rw [marksAfter, or_eq_false_iff] at fresh
      exact fresh.1
  nodup := by
    rw [filter_cons]
    split
    · next marking =>
        rw [map_cons, nodup_cons]
        refine ⟨fun again => ?_, inner.nodup⟩
        obtain ⟨p, inNew, same⟩ := mem_map.mp again
        obtain ⟨inNew, marking'⟩ := mem_filter.mp inNew
        have fresh := inner.fresh p inNew marking'
        simp [marksAfter, same, marking] at fresh
    · exact inner.nodup
  entered r isRoot := by
    obtain rfl := mem_singleton.mp isRoot
    exact .inl mem_cons_self
  closed p inside p' move := by
    rcases mem_cons.mp inside with rfl | young
    · exact (inner.entered p' move).append_left
    · exact (inner.closed p young p' move).append_left
  reach p inside := by
    rcases mem_cons.mp inside with rfl | young
    · exact ⟨p, mem_singleton_self p, Relation.ReflTransGen.refl⟩
    · obtain ⟨r, move, path⟩ := inner.reach p young
      exact ⟨q, mem_singleton_self q, path.head move⟩

end Visits

/-- The nodes of `U` that are not marked. -/
def unmarked (U : Finset ι) (seen : ι → Bool) : Nat := (U.filter fun i => seen i = false).card

theorem unmarked_marksAfter_le (U : Finset ι) (new : List (ι × α)) :
    unmarked U (marksAfter dedup seen new) ≤ unmarked U seen := by
  refine Finset.card_le_card fun i inside => ?_
  rw [Finset.mem_filter] at inside ⊢
  refine ⟨inside.1, ?_⟩
  have fresh := inside.2
  rw [marksAfter, or_eq_false_iff] at fresh
  exact fresh.1

theorem unmarked_marksAfter_lt {U : Finset ι} (inU : q.1 ∈ U) (marking : dedup q.1 = true)
    (fresh : seen q.1 = false) : unmarked U (marksAfter dedup seen [q]) < unmarked U seen := by
  refine Finset.card_lt_card (Finset.ssubset_iff_subset_ne.mpr ⟨fun i inside => ?_, fun same => ?_⟩)
  · rw [Finset.mem_filter] at inside ⊢
    refine ⟨inside.1, ?_⟩
    have unmarked := inside.2
    rw [marksAfter, or_eq_false_iff] at unmarked
    exact unmarked.1
  · have inside : q.1 ∈ U.filter fun i => seen i = false :=
      Finset.mem_filter.mpr ⟨inU, fresh⟩
    rw [← same, Finset.mem_filter] at inside
    simp [marksAfter, marking] at inside

/-- A search that may nest once for each node it can mark visits all it can reach. -/
theorem dfs_visits (visit : σ → ι × α → σ) {U : Finset ι} (inner : ∀ q, moves q ≠ [] → q.1 ∈ U ∧ dedup q.1 = true)
    (fuel : Nat) (q : ι × α) (seen : ι → Bool) (out : σ) (enough : unmarked U seen < fuel) :
    ∃ new, Visits dedup moves seen [q] new ∧
      dfs dedup moves visit fuel q (seen, out) = (marksAfter dedup seen new, new.foldl visit out) := by
  induction fuel generalizing q seen out with
  | zero => omega
  | succ fuel ih =>
    have all : ∀ (roots : List (ι × α)) (seen : ι → Bool) (out : σ), unmarked U seen < fuel →
        ∃ new, Visits dedup moves seen roots new ∧
          roots.foldl (fun st q' => dfs dedup moves visit fuel q' st) (seen, out) =
            (marksAfter dedup seen new, new.foldl visit out) := by
      intro roots
      induction roots with
      | nil =>
        intro seen out _
        exact ⟨[], Visits.nil, by simp⟩
      | cons r rest ihRoots =>
        intro seen out enough
        obtain ⟨new, first, result⟩ := ih r seen out enough
        obtain ⟨new', second, result'⟩ := ihRoots (marksAfter dedup seen new)
          (new.foldl visit out) (lt_of_le_of_lt (unmarked_marksAfter_le U new) enough)
        refine ⟨new ++ new', first.append second, ?_⟩
        rw [foldl_cons, result, result', foldl_append]
        rw [show marksAfter dedup seen (new ++ new') = _ from funext marksAfter_append]
    rw [dfs]
    by_cases marked : (dedup q.1 && seen q.1) = true
    · rw [if_pos marked]
      rw [and_eq_true] at marked
      exact ⟨[], Visits.skip marked.1 marked.2, by simp⟩
    · rw [if_neg marked]
      have fresh : (dedup q.1 && seen q.1) = false := by simpa using marked
      by_cases stuck : moves q = []
      · refine ⟨[q], Visits.enter fresh ?_, ?_⟩
        · rw [stuck]
          exact Visits.nil
        · rw [stuck]
          rfl
      · obtain ⟨inU, marking⟩ := inner q stuck
        have less : unmarked U (marksAfter dedup seen [q]) < unmarked U seen :=
          unmarked_marksAfter_lt inU marking (by simpa [marking] using fresh)
        obtain ⟨new, visits, result⟩ := all (moves q) (marksAfter dedup seen [q]) (visit out q)
          (by omega)
        refine ⟨q :: new, visits.enter fresh, ?_⟩
        rw [result, foldl_cons]
        have marks : marksAfter dedup seen ([q] ++ new) =
            marksAfter dedup (marksAfter dedup seen [q]) new := funext marksAfter_append
        rw [← marks]
        rfl

end Micron.Lib
