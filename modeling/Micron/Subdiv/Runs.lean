import Mathlib.Algebra.Order.Field.Rat
import Mathlib.Data.Fintype.Basic
import Micron.Subdiv.Placed

/-!
# Runs of the quadtree and octree

After any run of `insert` and `erase` the queries report what is stored.  What is
stored is a list of points with values, in which a point may stand several times.
The bucket size is the capacity as a `u16`: where it wraps to zero, the first
insertion into the universe does not return.
-/

set_option autoImplicit false

namespace Micron.Subdiv

open Micron.Lib List Option

section Stored
variable {F V : Type} [LinearOrder F] {D : Nat} [DecidableEq V]

/-- What a call makes of the stored points, and its answer. -/
def step (bounds : Box F D) (stored : List (Entry F D V)) :
    Call F D V → List (Entry F D V) × Bool
  | .insert p v => if bounds.contains p then ((p, v) :: stored, true) else (stored, false)
  | .erase p v => if (p, v) ∈ stored then (stored.erase (p, v), true) else (stored, false)

/-- The points stored after a run of calls, and the answers. -/
def steps (bounds : Box F D) :
    List (Entry F D V) → List (Call F D V) → List (Entry F D V) × List Bool
  | stored, [] => (stored, [])
  | stored, call :: rest =>
    let first := step bounds stored call
    let last := steps bounds first.1 rest
    (last.1, first.2 :: last.2)

end Stored

/-- The queries of a tree report the stored points, each as often as it is stored.  A radius
counts by its square, also below zero. -/
structure Exact {F V : Type} [Field F] [LinearOrder F] {D maxDepth : Nat}
    (t : PrTree F D V maxDepth) (stored : List (Entry F D V)) : Prop where
  size : t.size = stored.length
  query : ∀ q, (t.query q).Perm (stored.filter fun e => q.contains e.1)
  queryRadius : ∀ c r,
    (t.queryRadius c r).Perm (stored.filter fun e => decide (dist2 c e.1 ≤ r * r))
  nearest : ∀ p k, Smallest Prod.fst k (stored.map (knnItem p)) (t.nearest p k)

structure TreeGood {F V : Type} [LinearOrder F] [Field F] {D maxDepth : Nat} (bounds : Box F D)
    (t : PrTree F D V maxDepth) (stored : List (Entry F D V)) : Prop where
  universe_eq : t.bounds = bounds
  size : t.size = stored.length
  none : t.root = none → stored = []
  some : ∀ root, t.root = some root →
    Placed maxDepth root bounds ∧ (Node.items D maxDepth root).Perm stored

section Trees
variable {F V : Type} [LinearOrder F] [Field F] {D maxDepth capacity : Nat} {bounds : Box F D}
  {t : PrTree F D V maxDepth} {stored : List (Entry F D V)}

theorem empty_good (bounds : Box F D) :
    TreeGood bounds (PrTree.empty bounds : PrTree F D V maxDepth) [] := by
  refine ⟨rfl, rfl, fun _ => rfl, ?_⟩
  intro root found
  cases found

theorem insert_good (good : TreeGood bounds t stored) (room : 0 < bucketSize capacity)
    {p : Point F D} (inside : bounds.contains p = true) (v : V) :
    ∃ t', t.insert capacity p v = some (t', true) ∧ TreeGood bounds t' ((p, v) :: stored) := by
  have old : Placed maxDepth (t.root.getD (emptyLeaf maxDepth)) bounds ∧
      (Node.items D maxDepth (t.root.getD (emptyLeaf maxDepth))).Perm stored := by
    cases here : t.root with
    | none =>
      obtain ⟨nothing, placed⟩ := emptyLeaf_placed (F := F) (D := D) (V := V) maxDepth
      rw [good.none here, getD_none, nothing]
      exact ⟨placed bounds, List.Perm.refl _⟩
    | some root => exact good.some root here
  obtain ⟨root, result, more, placed⟩ := insertRec_spec room maxDepth _ bounds (p, v) old.1 inside
  refine ⟨{ t with root := some root, size := t.size + 1 }, ?_, good.universe_eq, ?_, ?_, ?_⟩
  · unfold PrTree.insert
    rw [good.universe_eq, if_pos inside]
    simp only
    rw [result]
    rfl
  · exact congrArg (· + 1) good.size
  · intro found
    cases found
  · intro root' found
    cases found
    exact ⟨placed, more.trans (old.2.cons (p, v))⟩

/-- No call returns that has to store a point in a bucket of no size. -/
theorem insert_endless (empty : t.root = none) (wrapped : bucketSize capacity = 0) {p : Point F D}
    (inside : t.bounds.contains p = true) (v : V) : t.insert capacity p v = none := by
  unfold PrTree.insert
  rw [if_pos inside, wrapped, empty]
  simp only [getD_none, insertRec_endless, map_none]

variable [DecidableEq V]

theorem erase_good (good : TreeGood bounds t stored) (p : Point F D) (v : V) :
    ∃ t', t.erase p v = (t', (step bounds stored (.erase p v)).2) ∧
      TreeGood bounds t' (step bounds stored (.erase p v)).1 := by
  unfold PrTree.erase step
  cases here : t.root with
  | none =>
    have absent : (p, v) ∉ stored := by
      rw [good.none here]
      exact not_mem_nil
    simp only [if_neg absent]
    exact ⟨t, rfl, good⟩
  | some root =>
    obtain ⟨placed, content⟩ := good.some root here
    obtain ⟨found, missed⟩ := eraseRec_spec p v maxDepth root bounds placed
    by_cases member : (p, v) ∈ stored
    · have inTree := content.mem_iff.mpr member
      have inside := Placed.contains maxDepth root placed (p, v) inTree
      obtain ⟨root', result, less, placed'⟩ := found inTree
      simp only [good.universe_eq, inside, if_true, if_pos member, result]
      refine ⟨_, rfl, rfl, ?_, ?_, ?_⟩
      · rw [length_erase_of_mem member]
        exact congrArg (· - 1) good.size
      · intro none
        cases none
      · intro last isLast
        cases isLast
        refine ⟨placed', ?_⟩
        have whole := (less.trans content).trans (perm_cons_erase member)
        exact (perm_cons _).mp whole
    · have absent : (p, v) ∉ Node.items D maxDepth root :=
        fun inTree => member (content.mem_iff.mp inTree)
      simp only [good.universe_eq, if_neg member, missed absent, ite_self]
      exact ⟨t, rfl, good⟩

/-- A call that has a bucket to store its point in, or no point to store. -/
theorem apply_good (good : TreeGood bounds t stored) (call : Call F D V)
    (stores : 0 < bucketSize capacity ∨ ∀ p v, call = .insert p v → bounds.contains p = false) :
    ∃ t', t.apply capacity call = some (t', (step bounds stored call).2) ∧
      TreeGood bounds t' (step bounds stored call).1 := by
  cases call with
  | erase p v =>
    obtain ⟨t', result, good'⟩ := erase_good good p v
    exact ⟨t', congrArg some result, good'⟩
  | insert p v =>
    unfold PrTree.apply step
    simp only
    cases inside : bounds.contains p with
    | true =>
      have room : 0 < bucketSize capacity := by
        rcases stores with room | outside
        · exact room
        · rw [outside p v rfl] at inside
          cases inside
      exact insert_good good room inside v
    | false =>
      refine ⟨t, ?_, good⟩
      unfold PrTree.insert
      rw [good.universe_eq, inside]
      rfl

theorem run_good : ∀ (calls : List (Call F D V)) (t : PrTree F D V maxDepth)
    (stored : List (Entry F D V)), TreeGood bounds t stored →
    (0 < bucketSize capacity ∨ ∀ p v, .insert p v ∈ calls → bounds.contains p = false) →
    ∃ t', t.run capacity calls = some (t', (steps bounds stored calls).2) ∧
      TreeGood bounds t' (steps bounds stored calls).1 := by
  intro calls
  induction calls with
  | nil =>
    intro t stored good _
    exact ⟨t, rfl, good⟩
  | cons call rest ih =>
    intro t stored good stores
    obtain ⟨next, result, goodNext⟩ := apply_good good call <| stores.imp_right fun outside p v
      isCall => outside p v (by rw [isCall]; exact mem_cons_self)
    obtain ⟨last, results, goodLast⟩ := ih next _ goodNext <| stores.imp_right fun outside p v
      member => outside p v (mem_cons_of_mem _ member)
    refine ⟨last, ?_, goodLast⟩
    rw [PrTree.run, result, bind_some, results]
    rfl

theorem run_endless (wrapped : bucketSize capacity = 0) {p : Point F D} {v : V} :
    ∀ (calls : List (Call F D V)) (t : PrTree F D V maxDepth), t.root = none →
      t.bounds.contains p = true → .insert p v ∈ calls → t.run capacity calls = none := by
  intro calls
  induction calls with
  | nil =>
    intro t _ _ member
    cases member
  | cons call rest ih =>
    intro t empty inside member
    have stays : t.apply capacity call = some (t, false) → t.run capacity (call :: rest) = none ∨
        call = .insert p v := by
      intro same
      rcases mem_cons.mp member with first | later
      · exact .inr first.symm
      · left
        rw [PrTree.run, same, bind_some, ih t empty inside later]
        rfl
    cases call with
    | erase q w =>
      have same : t.apply capacity (.erase q w) = some (t, false) := by
        unfold PrTree.apply PrTree.erase
        rw [empty]
      rcases stays same with ends | first
      · exact ends
      · cases first
    | insert q w =>
      cases there : t.bounds.contains q with
      | true =>
        rw [PrTree.run, PrTree.apply, insert_endless empty wrapped there]
        rfl
      | false =>
        have same : t.apply capacity (.insert q w) = some (t, false) := by
          unfold PrTree.apply PrTree.insert
          simp only [there, Bool.false_eq_true, if_false]
        rcases stays same with ends | first
        · exact ends
        · cases first
          rw [inside] at there
          cases there

end Trees

section Exact
variable {F V : Type} [Field F] [LinearOrder F] [IsStrictOrderedRing F] {D maxDepth : Nat}
  {bounds : Box F D} {t : PrTree F D V maxDepth} {stored : List (Entry F D V)}

theorem TreeGood.nearest (good : TreeGood bounds t stored) (p : Point F D) (k : Nat) :
    Smallest Prod.fst k (stored.map (knnItem p)) (t.nearest p k) := by
  unfold PrTree.nearest
  cases here : t.root with
  | none =>
    rw [good.none here]
    exact smallest_nil k
  | some root =>
    obtain ⟨placed, content⟩ := good.some root here
    simp only
    by_cases zero : k = 0
    · subst zero
      rw [if_pos rfl]
      refine ⟨List.Pairwise.nil, ?_, stored.map (knnItem p), List.Perm.refl _, ?_⟩
      · rw [length_nil, Nat.zero_min]
      · intro x none
        cases none
    · rw [if_neg zero, good.universe_eq]
      have found := knnRec_spec p (Nat.pos_of_ne_zero zero) maxDepth root bounds placed [] []
        (smallest_nil k)
      exact found.perm (content.map (knnItem p))

theorem TreeGood.exact (good : TreeGood bounds t stored) : Exact t stored := by
  refine ⟨good.size, ?_, ?_, good.nearest⟩
  · intro q
    unfold PrTree.query
    cases here : t.root with
    | none =>
      rw [good.none here]
      exact List.Perm.refl _
    | some root =>
      obtain ⟨placed, content⟩ := good.some root here
      rw [elim_some, good.universe_eq, queryRec_eq q maxDepth root placed]
      exact content.filter _
  · intro c r
    unfold PrTree.queryRadius
    cases here : t.root with
    | none =>
      rw [good.none here]
      exact List.Perm.refl _
    | some root =>
      obtain ⟨placed, content⟩ := good.some root here
      rw [elim_some, good.universe_eq, radiusRec_eq c (r * r) maxDepth root placed]
      exact content.filter _

/-- A run returns with the right answers and leaves a tree with exact queries if and
only if the capacity is no multiple of 2^16 or no point in the universe is inserted. -/
theorem pr_tree_exact_iff [DecidableEq V] (bounds : Box F D) (capacity maxDepth : Nat)
    (calls : List (Call F D V)) :
    (∃ t : PrTree F D V maxDepth,
        (PrTree.empty bounds).run capacity calls = some (t, (steps bounds [] calls).2) ∧
          Exact t (steps bounds [] calls).1) ↔
      0 < bucketSize capacity ∨ ∀ p v, .insert p v ∈ calls → bounds.contains p = false := by
  constructor
  · intro found
    obtain ⟨t, result, _⟩ := found
    by_cases room : 0 < bucketSize capacity
    · exact .inl room
    · right
      intro p v member
      rw [Bool.eq_false_iff]
      intro inside
      have endless := run_endless (Nat.eq_zero_of_not_pos room) calls
        (PrTree.empty bounds : PrTree F D V maxDepth) rfl inside member
      rw [endless] at result
      cases result
  · intro stores
    obtain ⟨t, result, good⟩ := run_good calls _ [] (empty_good bounds) stores
    exact ⟨t, result, good.exact⟩

end Exact

def square : Box ℚ 2 := ⟨fun _ => 0, fun _ => 16⟩

/-- A point on the border between four octants, twice, and one outside. -/
def borderCalls : List (Call ℚ 2 Nat) :=
  [.insert (fun _ => 8) 1, .insert (fun _ => 8) 1, .insert (fun _ => 17) 2, .erase (fun _ => 8) 1]

theorem pr_tree_exact_iff_border :
    ∃ t : PrTree ℚ 2 Nat 18,
      (PrTree.empty square).run 8 borderCalls = some (t, (steps square [] borderCalls).2) ∧
        Exact t (steps square [] borderCalls).1 :=
  (pr_tree_exact_iff square 8 18 borderCalls).mpr (.inl (by decide))

/-- The capacity 65536 passes the assertion of the class, but no bucket has room. -/
theorem pr_tree_insert_never_returns :
    1 ≤ 65536 ∧ square.contains (fun _ => 1) = true ∧
      (PrTree.empty square : PrTree ℚ 2 Nat 18).insert 65536 (fun _ => 1) 5 = none ∧
      ¬∃ t : PrTree ℚ 2 Nat 18,
        (PrTree.empty square).run 65536 [.insert (fun _ => 1) 5] =
            some (t, (steps square [] [.insert (fun _ => 1) 5]).2) ∧
          Exact t (steps square [] [.insert (fun _ => 1) 5]).1 := by
  have inside : square.contains (fun _ => 1) = true := by decide +kernel
  have endless : (PrTree.empty square : PrTree ℚ 2 Nat 18).insert 65536 (fun _ => 1) 5 = none :=
    insert_endless rfl (by decide) inside 5
  refine ⟨by decide, inside, endless, ?_⟩
  intro returned
  obtain ⟨t, result, _⟩ := returned
  rw [PrTree.run, PrTree.apply, endless] at result
  cases result

end Micron.Subdiv
