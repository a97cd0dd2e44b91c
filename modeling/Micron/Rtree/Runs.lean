import Mathlib.Algebra.Order.Field.Rat
import Micron.Rtree.Erase

/-!
# Runs of the R*-tree

After any calls of `insert` and `erase` a query reports the stored entries that
meet its box, no more and no fewer.  The stored entries are a multiset: `insert`
adds one, and `erase` takes away one that meets its box and has its value, if
there is one.
-/

set_option autoImplicit false

namespace Micron.Rtree

open List Nat Option

variable {F V : Type} [Coord F] {D M : Nat}

/-- A root: an internal one has two kids or more. -/
def RootGood (M : Nat) (n : Node F D V) : Prop := ∃ h, Good M h n ∧ (0 < h → 2 ≤ n.count)

structure TreeGood (M : Nat) (t : RTree F D V) (S : Multiset (Box F D × V)) : Prop where
  root : ∀ n, t.root = some n → RootGood M n
  content : (t.forEach : Multiset (Box F D × V)) = S

omit [Coord F] in
theorem forEach_some {t : RTree F D V} {n : Node F D V} (root : t.root = some n) :
    (t.forEach : Multiset (Box F D × V)) = stored n := by
  rw [RTree.forEach, root, stored]

omit [Coord F] in
theorem forEach_none {t : RTree F D V} (root : t.root = none) : t.forEach = [] := by
  rw [RTree.forEach, root]

theorem TreeGood.of_root {t : RTree F D V} {n : Node F D V} (root : t.root = some n)
    (good : RootGood M n) {S : Multiset (Box F D × V)} (content : stored n = S) :
    TreeGood M t S := by
  refine ⟨?_, ?_⟩
  · intro n' same
    rw [root] at same
    cases same
    exact good
  · rw [forEach_some root, content]

theorem TreeGood.getD_root {t : RTree F D V} {S : Multiset (Box F D × V)} (good : TreeGood M t S) :
    RootGood M (t.root.getD (.leaf [])) ∧ stored (t.root.getD (.leaf [])) = S := by
  cases root : t.root with
  | none =>
    have content := good.content
    rw [forEach_none root] at content
    refine ⟨⟨0, zero_le _, fun impossible => absurd impossible (lt_irrefl 0)⟩, ?_⟩
    exact content
  | some n =>
    refine ⟨good.root n root, ?_⟩
    rw [getD_some, ← forEach_some root]
    exact good.content

section Insert
variable (fanout : Fanout M) (someAxis : 0 < D) {t : RTree F D V} {S : Multiset (Box F D × V)}

include fanout someAxis in
theorem insertFromRoot_spec {n : Node F D V} (root : t.root = some n) (good : RootGood M n)
    (content : stored n = S) (b : Box F D) (v : V) :
    ∃ t' pushed, t.insertFromRoot M b v = some t' ∧ t'.root.isSome = true ∧
      t'.reins = t.reins ++ pushed ∧ t'.size = t.size ∧
      (∀ n', t'.root = some n' → RootGood M n') ∧
      (t'.forEach : Multiset (Box F D × V)) + ↑pushed = S + {(b, v)} ∧
      (t.didReinsert = true → t'.didReinsert = true ∧ pushed = []) ∧
      (pushed ≠ [] → t'.didReinsert = true) := by
  obtain ⟨h, good, two⟩ := good
  obtain ⟨r, down, inserted⟩ := insertDescend_spec (b := b) (v := v) fanout someAxis true
    t.didReinsert good (fun deep => by have count := two deep; omega)
  have least := fanout.least
  have total := inserted.content
  cases sibling : r.right with
  | none =>
    rw [sibling, elim_none, add_zero, content] at total
    refine ⟨⟨some r.node, t.size, r.did, t.reins ++ r.pushed⟩, r.pushed, ?_, rfl, rfl, rfl, ?_, total,
      inserted.once⟩
    · simp only [RTree.insertFromRoot, root, bind_some, down, map_some, sibling]
    · rintro n' same
      cases same
      refine ⟨h, inserted.good, ?_⟩
      intro deep
      exact le_trans (two deep) (inserted.grown deep sibling)
  | some pair =>
    obtain ⟨right, rmbr⟩ := pair
    obtain ⟨rightGood, rightFilled, rightCovers⟩ := inserted.sibling right rmbr sibling
    have leftFilled := inserted.filled (.inr (by rw [sibling]; rfl))
    rw [sibling, elim_some, content] at total
    refine ⟨⟨some (.internal [(subtreeMbr r.node, r.node), (rmbr, right)]), t.size, r.did,
      t.reins ++ r.pushed⟩, r.pushed, ?_, rfl, rfl, rfl, ?_, ?_, inserted.once⟩
    · simp only [RTree.insertFromRoot, root, bind_some, down, map_some, sibling]
    · rintro n' same
      cases same
      refine ⟨h + 1, ⟨by simp only [length_cons, length_nil]; omega, ?_⟩,
        fun _ => le_refl 2⟩
      intro p member
      simp only [mem_cons, not_mem_nil, or_false] at member
      rcases member with rfl | rfl
      · exact ⟨leftFilled, covers_subtreeMbr _, inserted.good⟩
      · exact ⟨rightFilled, rightCovers, rightGood⟩
    · rw [forEach_some rfl, stored_internal]
      simpa [sum_cons] using total

include fanout someAxis in
theorem reinsertFrom_spec (fuel i : Nat) (someRoot : t.root.isSome = true)
    (good : ∀ n, t.root = some n → RootGood M n)
    (did : t.didReinsert = true ∨ t.reins = []) (enough : t.reins.length ≤ i + fuel) :
    ∃ t', RTree.reinsertFrom M fuel i t = some t' ∧ (∀ n, t'.root = some n → RootGood M n) ∧
      t'.size = t.size ∧
      (t'.forEach : Multiset (Box F D × V)) = ↑t.forEach + ↑(t.reins.drop i) := by
  induction fuel generalizing i t with
  | zero =>
    rw [add_zero] at enough
    have past : t.reins[i]? = none := List.getElem?_eq_none enough
    refine ⟨t, ?_, good, rfl, ?_⟩
    · rw [RTree.reinsertFrom, past]
    · rw [List.drop_eq_nil_of_le enough, Multiset.coe_nil, add_zero]
  | succ fuel ih =>
    cases next : t.reins[i]? with
    | none =>
      have past := List.getElem?_eq_none_iff.mp next
      refine ⟨t, ?_, good, rfl, ?_⟩
      · rw [RTree.reinsertFrom, next]
      · rw [List.drop_eq_nil_of_le past, Multiset.coe_nil, add_zero]
    | some p =>
      obtain ⟨inside, here⟩ := List.getElem?_eq_some_iff.mp next
      have set : t.didReinsert = true := by
        rcases did with yes | empty
        · exact yes
        · rw [empty] at inside
          exact absurd inside (not_lt_zero i)
      obtain ⟨n, root⟩ := isSome_iff_exists.mp someRoot
      obtain ⟨t₁, pushed, step, someRoot₁, reins₁, size₁, good₁, total, once, _⟩ :=
        insertFromRoot_spec fanout someAxis root (good n root) rfl p.1 p.2
      obtain ⟨set₁, rfl⟩ := once set
      rw [List.append_nil] at reins₁
      rw [Multiset.coe_nil, add_zero] at total
      obtain ⟨t', result, good', size', content'⟩ := ih (i + 1) someRoot₁ good₁ (.inl set₁)
        (by rw [reins₁]; omega)
      refine ⟨t', ?_, good', size'.trans size₁, ?_⟩
      · rw [RTree.reinsertFrom, next]
        simp only [step, bind_some, result]
      · rw [content', total, reins₁, forEach_some root, List.drop_eq_getElem_cons inside, here,
          ← Multiset.cons_coe, ← Multiset.singleton_add, add_assoc]

include fanout someAxis in
theorem insert_spec (good : TreeGood M t S) (b : Box F D) (v : V) :
    ∃ t', t.insert M b v = some t' ∧ TreeGood M t' (S + {(b, v)}) ∧ t'.size = t.size + 1 := by
  obtain ⟨rootGood, content⟩ := good.getD_root
  obtain ⟨t₁, pushed, step, someRoot, reins, size, good₁, total, _, once⟩ :=
    insertFromRoot_spec fanout someAxis
      (t := ⟨some (t.root.getD (.leaf [])), t.size, false, []⟩) rfl rootGood content b v
  rw [nil_append] at reins
  obtain ⟨t₂, result, good₂, size₂, content₂⟩ :=
    reinsertFrom_spec fanout someAxis
      (t := ⟨t₁.root, t₁.size + 1, t₁.didReinsert, t₁.reins⟩) t₁.reins.length 0 someRoot good₁ (by
        rw [reins]
        by_cases none : pushed = []
        · exact .inr none
        · exact .inl (once none))
      (by simp)
  refine ⟨⟨t₂.root, t₂.size, t₂.didReinsert, []⟩, ?_, ⟨good₂, ?_⟩, ?_⟩
  · simp only [RTree.insert, step, bind_some, result, map_some]
  · rw [← total, ← reins]
    exact content₂
  · rw [size₂, size]

include fanout someAxis in
theorem insertOrphans_spec (good : TreeGood M t S) (did : t.didReinsert = true)
    (orphans : List (Box F D × V)) :
    ∃ t', t.insertOrphans M orphans = some t' ∧ TreeGood M t' (S + ↑orphans) ∧
      t'.size = t.size := by
  induction orphans generalizing t S with
  | nil =>
    rw [Multiset.coe_nil, add_zero]
    exact ⟨t, rfl, good, rfl⟩
  | cons p orphans ih =>
    obtain ⟨rootGood, content⟩ := good.getD_root
    obtain ⟨t₁, pushed, step, _, _, size, good₁, total, once, _⟩ :=
      insertFromRoot_spec fanout someAxis
        (t := ⟨some (t.root.getD (.leaf [])), t.size, t.didReinsert, t.reins⟩) rfl rootGood
        content p.1 p.2
    obtain ⟨set, rfl⟩ := once did
    rw [Multiset.coe_nil, add_zero] at total
    obtain ⟨t', result, good', size'⟩ := ih ⟨good₁, total⟩ set
    refine ⟨t', ?_, ?_, size'.trans size⟩
    · rw [RTree.insertOrphans, foldlM_cons, step]
      exact result
    · rw [← Multiset.cons_coe, ← Multiset.singleton_add, ← add_assoc]
      exact good'

omit [Coord F] in
theorem collapse_content (n : Node F D V) :
    (RTree.collapse n).elim 0 stored = stored n := by
  match n with
  | .internal [kid] => simp [RTree.collapse]
  | .leaf [] => simp [RTree.collapse]
  | .internal [] => rfl
  | .internal (_ :: _ :: _) => rfl
  | .leaf (_ :: _) => rfl

theorem collapse_good (fanout : Fanout M) {h : Nat} {n : Node F D V} (good : Good M h n)
    (someKid : 0 < h → 1 ≤ n.count) : ∀ n', RTree.collapse n = some n' → RootGood M n' := by
  have two := fanout.two_le_minf
  intro n' kept
  match h, n, good with
  | 0, .leaf [], _ => cases kept
  | 0, .leaf (e :: es), good =>
    cases kept
    exact ⟨0, good, fun impossible => absurd impossible (lt_irrefl 0)⟩
  | h + 1, .internal [], _ => exact absurd (someKid (succ_pos h)) (by simp [Node.count])
  | h + 1, .internal [kid], ⟨_, each⟩ =>
    cases kept
    obtain ⟨filled, _, kidGood⟩ := each kid mem_cons_self
    exact ⟨h, kidGood, fun _ => le_trans two filled⟩
  | h + 1, .internal (kid :: kid' :: kids), good =>
    cases kept
    exact ⟨h + 1, good, fun _ => by simp [Node.count]⟩

include fanout someAxis in
theorem erase_spec [BEq V] (good : TreeGood M t S) (b : Box F D) (v : V)
    (counted : t.size = Multiset.card S) :
    ∃ t' removed S', t.erase M b v = some (t', removed) ∧ TreeGood M t' S' ∧
      t'.size = Multiset.card S' ∧
      if removed then ∃ e, matching b v e = true ∧ S = S' + {e}
      else (∀ e ∈ S, matching b v e = false) ∧ S' = S := by
  have content := good.content
  unfold RTree.erase
  cases root : t.root with
  | none =>
    rw [forEach_none root] at content
    refine ⟨t, false, S, rfl, good, counted, ?_⟩
    rw [if_neg (by decide), ← content]
    exact ⟨fun e member => absurd member (Multiset.notMem_zero e), rfl⟩
  | some n =>
    obtain ⟨h, rootGood, two⟩ := good.root n root
    rw [forEach_some root] at content
    rcases eraseRec_spec b v rootGood with ⟨missed, none⟩ | ⟨n', orphans, found, erased⟩
    · simp only [missed]
      refine ⟨_, false, S, rfl, TreeGood.of_root rfl (good.root n root) content, counted, ?_⟩
      rw [if_neg (by decide), ← content]
      exact ⟨fun e member => none e (Multiset.mem_coe.mp member), rfl⟩
    · obtain ⟨e, hit, split⟩ := erased.content
      have shrunk := erased.shrunk
      have kept := collapse_good fanout erased.good
        (fun deep => by have count := two deep; omega)
      have card : t.size - 1 =
          Multiset.card (stored n' + (↑orphans : Multiset (Box F D × V))) := by
        rw [counted, ← content, split, Multiset.card_add, Multiset.card_singleton,
          Nat.add_sub_cancel]
      have whole : S = stored n' + (↑orphans : Multiset (Box F D × V)) + {e} :=
        content.symm.trans split
      have start : ∀ (size : Nat) (did : Bool), TreeGood M
          (⟨RTree.collapse n', size, did, []⟩ : RTree F D V) (stored n') := by
        intro size did
        refine ⟨kept, ?_⟩
        rw [← collapse_content n', RTree.forEach]
        cases RTree.collapse n' <;> rfl
      simp only [found]
      by_cases alone : orphans.isEmpty = true
      · rw [if_pos alone]
        rw [isEmpty_iff.mp alone, Multiset.coe_nil, add_zero] at whole card
        exact ⟨_, true, stored n', rfl, start _ _, card, e, hit, whole⟩
      · rw [if_neg alone]
        obtain ⟨t', result, good', size'⟩ :=
          insertOrphans_spec fanout someAxis (start (t.size - 1) true) rfl orphans
        refine ⟨t', true, stored n' + ↑orphans, ?_, good', size'.trans card, e, hit, whole⟩
        rw [result]
        rfl

end Insert

/-! ## Runs -/

inductive Op (F : Type) (D : Nat) (V : Type) where
  | insert (b : Box F D) (v : V)
  | erase (b : Box F D) (v : V)

section Runs
variable [BEq V]

def Op.apply (M : Nat) (t : RTree F D V) : Op F D V → Option (RTree F D V)
  | insert b v => t.insert M b v
  | erase b v => (t.erase M b v).map Prod.fst

/-- The calls on a tree with the template argument `MaxOverride`. -/
def run (maxOverride : Nat) (ops : List (Op F D V)) : Option (RTree F D V) :=
  ops.foldlM (Op.apply (maxFanout maxOverride)) RTree.empty

def Op.Stores (S S' : Multiset (Box F D × V)) : Op F D V → Prop
  | insert b v => S' = S + {(b, v)}
  | erase b v =>
    (∃ e, (e.1.intersects b && e.2 == v) = true ∧ S = S' + {e}) ∨
      (∀ e ∈ S, (e.1.intersects b && e.2 == v) = false) ∧ S' = S

def StoresAfter (S S' : Multiset (Box F D × V)) : List (Op F D V) → Prop
  | [] => S' = S
  | op :: ops => ∃ S₁, op.Stores S S₁ ∧ StoresAfter S₁ S' ops

inductive At : Nat → Node F D V → Node F D V → Prop where
  | here (n : Node F D V) : At 0 n n
  | down {d : Nat} {kids : List (Box F D × Node F D V)} {p : Box F D × Node F D V}
      {m : Node F D V} : p ∈ kids → At d p.2 m → At (d + 1) (.internal kids) m

/-- Queries on the tree are exact for the stored entries `S`. -/
structure Exact (t : RTree F D V) (S : Multiset (Box F D × V)) : Prop where
  query : ∀ q, (t.query q : Multiset (Box F D × V)) = S.filter fun e => e.1.intersects q = true
  covering : ∀ root, t.root = some root → ∀ d kids, At d root (.internal kids) →
    ∀ p ∈ kids, ∀ d' n, At d' p.2 n → ∀ b ∈ n.mbrs, p.1.contains b = true
  depth : ∀ root, t.root = some root → ∃ h, ∀ d es, At d root (.leaf es) → d = h
  size : t.size = Multiset.card S

omit [BEq V] in
theorem Good.at {h d : Nat} {n m : Node F D V} (good : Good M h n) (path : At d n m) :
    d ≤ h ∧ Good M (h - d) m := by
  induction path generalizing h with
  | here n => exact ⟨zero_le _, good⟩
  | @down d kids p m member path ih =>
    match h, good with
    | h + 1, ⟨_, each⟩ =>
      obtain ⟨inside, below⟩ := ih (each p member).2.2
      refine ⟨succ_le_succ inside, ?_⟩
      rw [Nat.add_sub_add_right]
      exact below

omit [BEq V] in
theorem Good.covers_at {h d : Nat} {n m : Node F D V} {box : Box F D} (good : Good M h n)
    (covers : Covers box n) (path : At d n m) : Covers box m := by
  induction path generalizing h box with
  | here n => exact covers
  | @down d kids p m member path ih =>
    match h, good with
    | h + 1, ⟨_, each⟩ =>
      obtain ⟨_, kidCovers, kidGood⟩ := each p member
      exact ih kidGood (kidCovers.trans (covers p.1 (mem_map_of_mem member)))

omit [BEq V] in
theorem TreeGood.exact {t : RTree F D V} {S : Multiset (Box F D × V)} (good : TreeGood M t S)
    (counted : t.size = Multiset.card S) : Exact t S := by
  constructor
  · intro q
    rw [← good.content, RTree.query, RTree.forEach]
    cases root : t.root with
    | none => rfl
    | some n =>
      obtain ⟨h, rootGood, _⟩ := good.root n root
      simp only [queryRec_eq rootGood, Multiset.filter_coe]
      simp
  · intro root found d kids path p member d' n below
    obtain ⟨h, rootGood, _⟩ := good.root root found
    obtain ⟨_, here⟩ := rootGood.at path
    match h - d, here with
    | _ + 1, ⟨_, each⟩ =>
      obtain ⟨_, covers, kidGood⟩ := each p member
      exact kidGood.covers_at covers below
  · intro root found
    obtain ⟨h, rootGood, _⟩ := good.root root found
    refine ⟨h, ?_⟩
    intro d es path
    obtain ⟨inside, here⟩ := rootGood.at path
    match left : h - d, here with
    | 0, _ => omega
  · exact counted

theorem apply_spec (fanout : Fanout M) (someAxis : 0 < D) {t : RTree F D V}
    {S : Multiset (Box F D × V)} (good : TreeGood M t S) (counted : t.size = Multiset.card S)
    (op : Op F D V) :
    ∃ t' S', op.apply M t = some t' ∧ op.Stores S S' ∧ TreeGood M t' S' ∧
      t'.size = Multiset.card S' := by
  cases op with
  | insert b v =>
    obtain ⟨t', result, good', size⟩ := insert_spec fanout someAxis good b v
    refine ⟨t', S + {(b, v)}, result, rfl, good', ?_⟩
    rw [size, counted, Multiset.card_add, Multiset.card_singleton]
  | erase b v =>
    obtain ⟨t', removed, S', result, good', size, spec⟩ :=
      erase_spec fanout someAxis good b v counted
    refine ⟨t', S', ?_, ?_, good', size⟩
    · rw [Op.apply, result]
      rfl
    · cases removed with
      | true => exact .inl spec
      | false => exact .inr spec

theorem run_spec (fanout : Fanout M) (someAxis : 0 < D) (ops : List (Op F D V)) {t : RTree F D V}
    {S : Multiset (Box F D × V)} (good : TreeGood M t S) (counted : t.size = Multiset.card S) :
    ∃ t' S', ops.foldlM (Op.apply M) t = some t' ∧ StoresAfter S S' ops ∧ TreeGood M t' S' ∧
      t'.size = Multiset.card S' := by
  induction ops generalizing t S with
  | nil => exact ⟨t, S, rfl, rfl, good, counted⟩
  | cons op ops ih =>
    obtain ⟨t₁, S₁, step, stores, good₁, counted₁⟩ := apply_spec fanout someAxis good counted op
    obtain ⟨t', S', rest, after, good', counted'⟩ := ih good₁ counted₁
    refine ⟨t', S', ?_, ⟨S₁, stores, after⟩, good', counted'⟩
    rw [foldlM_cons, step]
    exact rest

/-- Window queries are exact after any calls, for every fan-out whose counts fit in
16 bits. -/
theorem rtree_run_exact (maxOverride : Nat) (least : 3 ≤ maxFanout maxOverride)
    (fits : maxFanout maxOverride ≠ 65535) (axes : 2 ≤ D) (ops : List (Op F D V)) :
    ∃ t S, run maxOverride ops = some t ∧ StoresAfter 0 S ops ∧ Exact t S := by
  have fanout : Fanout (maxFanout maxOverride) := by
    refine ⟨least, ?_⟩
    have small : maxFanout maxOverride < 65536 := mod_lt _ (by decide)
    omega
  have start : TreeGood (maxFanout maxOverride) (RTree.empty : RTree F D V) 0 := ⟨nofun, rfl⟩
  obtain ⟨t, S, result, after, good, counted⟩ :=
    run_spec fanout (lt_of_lt_of_le (by decide) axes) ops start rfl
  exact ⟨t, S, result, after, good.exact counted⟩

end Runs

instance : Coord ℚ where
  negOne := -1
  half := 1 / 2
  negOne_lt_one := by decide

def pointBox (x : ℚ) : Box ℚ 2 := ⟨fun _ => x, fun _ => x⟩

/-- Forty points go in and thirty of them come out again. -/
def manyPoints : List (Op ℚ 2 Nat) :=
  (List.range 40).map (fun i => .insert (pointBox i) i) ++
    (List.range 30).map fun i => .erase (pointBox i) i

/-- With four entries to a node the inserts split nodes and the erases put entries back. -/
theorem rtree_run_exact_four :
    maxFanout 4 = 4 ∧ ∃ t S, run 4 manyPoints = some t ∧ StoresAfter 0 S manyPoints ∧ Exact t S :=
  ⟨by decide, rtree_run_exact 4 (by decide) (by decide) (by decide) _⟩

/-- `MaxOverride` 65536 passes the assertion of the class but makes `M` zero, and the
first insertion splits a leaf by a permutation that was never set. -/
theorem rtree_fanout_wraps :
    ¬∀ maxOverride, 4 ≤ maxOverride → ∀ ops : List (Op ℚ 2 Nat),
      ∃ t S, run maxOverride ops = some t ∧ StoresAfter 0 S ops ∧ Exact t S := by
  intro claimed
  obtain ⟨t, S, result, _⟩ := claimed 65536 (by decide) [.insert (pointBox 1) 5]
  cases result

end Micron.Rtree
