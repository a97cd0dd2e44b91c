import Mathlib.Data.Set.Card
import Mathlib.Algebra.Order.BigOperators.Group.List
import Micron.Lib.WeakOrder
import Micron.Fibonacci.Model

/-!
# Forests

`live` are the nodes in the heap, `roots` its roots and `kids` the children of
each node.  The children of a node of degree `d` have the degrees `0` to `d - 1`
in the order of their ring, as links join roots of equal degree only.
-/

set_option autoImplicit false

namespace Micron.Fibonacci

open Micron.Lib List Function

variable {T : Type} {lt : T → T → Bool} {m : Store (Node T)}

structure Forest (lt : T → T → Bool) (m : Store (Node T)) (live : Finset Nat) (roots : List Nat)
    (kids : Nat → List Nat) : Prop where
  ring : NodeRing m roots
  nodup : roots.Nodup
  root : ∀ r ∈ roots, r ∈ live ∧ m.read r Node.parent = some none
  kidRing : ∀ p ∈ live, NodeRing m (kids p)
  kid : ∀ p ∈ live, ∀ k ∈ kids p, k ∈ live ∧ m.read k Node.parent = some (some p)
  placed : ∀ a ∈ live, a ∈ roots ∨ ∃ p ∈ live, a ∈ kids p
  child : ∀ p ∈ live, m.read p Node.child = some (kids p).head?
  degrees : ∀ p ∈ live, ∃ d, m.read p Node.degree = some d ∧
    (kids p).map (fun k => m.read k Node.degree) = (List.range d).map some
  ordered : ∀ p ∈ live, ∀ k ∈ kids p, ∀ v u, m.read p Node.value = some v →
    m.read k Node.value = some u → lt v u = false

/-- What the memory reads after `y` became the last child of `x`. -/
structure Linked (roots ks : List Nat) (y x d : Nat) (m m' : Store (Node T)) : Prop where
  ring : NodeRing m' (roots.erase y)
  kidRing : NodeRing m' (ks ++ [y])
  outside : ∀ a, a ∉ roots → a ∉ ks → m' a = m a
  isSome : ∀ a, (m' a).isSome = (m a).isSome
  value : ∀ a, m'.read a Node.value = m.read a Node.value
  parent : ∀ a, m'.read a Node.parent = if a = y then some (some x) else m.read a Node.parent
  child : ∀ a, m'.read a Node.child = if a = x then some (ks ++ [y]).head? else m.read a Node.child
  degree : ∀ a, m'.read a Node.degree =
    if a = x then some ((d + 1) % 2 ^ 64) else m.read a Node.degree

/-- The part of `link` that hangs `y`, a ring of its own, below `x`. -/
theorem hang_reads {ks : List Nat} {y x : Nat} (ring : NodeRing m ks) (single : NodeRing m [y])
    (nodup : ks.Nodup) (notY : y ∉ ks) (notX : x ∉ ks) (other : x ≠ y)
    (child : m.read x Node.child = some ks.head?) :
    ∃ m', hang m y x = some m' ∧
      NodeRing m' (ks ++ [y]) ∧ (∀ a, a ≠ x → a ∉ ks ++ [y] → m' a = m a) ∧
      (∀ a, (m' a).isSome = (m a).isSome) ∧ (∀ a, m'.read a Node.value = m.read a Node.value) ∧
      (∀ a, m'.read a Node.parent = m.read a Node.parent) ∧
      (∀ a, m'.read a Node.degree = m.read a Node.degree) ∧
      (∀ a, m'.read a Node.child =
        if a = x then some (ks ++ [y]).head? else m.read a Node.child) ∧
      m'.read x Node.left = m.read x Node.left ∧ m'.read x Node.right = m.read x Node.right := by
  obtain ⟨n, found, first⟩ := Store.exists_of_read child
  obtain ⟨ny, foundY, _⟩ := Store.exists_of_read (single : Arc _ _ _ _ _).1
  cases ks with
  | nil =>
    refine ⟨m.set x (Node.setChild (some y)), ?_, ?_, ?_, ?_, ?_, ?_, ?_, ?_, ?_, ?_⟩
    · rw [hang, found, Option.bind_eq_bind, Option.bind_some, first]
      exact Store.write_eq found _
    · exact single.congr (fun a _ => Store.read_set_other _ _ _ (fun _ => rfl))
        (fun a _ => Store.read_set_other _ _ _ (fun _ => rfl))
    · intro a notX' _
      exact Store.set_of_ne _ notX' _
    · intro a
      exact Store.isSome_set _ _ _ _
    · exact fun a => Store.read_set_other _ _ _ (fun _ => rfl)
    · exact fun a => Store.read_set_other _ _ _ (fun _ => rfl)
    · exact fun a => Store.read_set_other _ _ _ (fun _ => rfl)
    · intro a
      split
      · rename_i same
        subst same
        exact Store.read_set_self (by rw [found]; rfl) (fun _ => rfl)
      · rename_i differs
        exact Store.read_set_of_ne _ differs _ _
    · exact Store.read_set_other _ _ _ (fun _ => rfl)
    · exact Store.read_set_other _ _ _ (fun _ => rfl)
  | cons c l =>
    obtain ⟨m', result, ring', change⟩ := NodeRing.spliceBefore ring nodup notY
      (by rw [foundY]; rfl)
    have away : x ∉ c :: l ++ [y] := by
      rw [mem_append, mem_singleton, not_or]
      exact ⟨notX, other⟩
    refine ⟨m', ?_, ring', fun a _ out => change.outside a out, change.isSome,
      change.value, change.parent, change.degree, ?_, ?_, ?_⟩
    · rw [hang, found, Option.bind_eq_bind, Option.bind_some, first]
      exact result
    · intro a
      rw [change.child]
      split
      · rename_i same
        rw [same, child]
        rfl
      · rfl
    · rw [Store.read, Store.read, change.outside x away]
    · rw [Store.read, Store.read, change.outside x away]

theorem link_reads {roots ks : List Nat} {y x d : Nat} (ring : NodeRing m roots)
    (nodup : roots.Nodup) (memY : y ∈ roots) (memX : x ∈ roots) (other : x ≠ y)
    (kidRing : NodeRing m ks) (kidNodup : ks.Nodup) (apart : ∀ k ∈ ks, k ∉ roots)
    (child : m.read x Node.child = some ks.head?) (degree : m.read x Node.degree = some d) :
    ∃ m', link m y x = some m' ∧ Linked roots ks y x d m m' := by
  obtain ⟨front, back, rfl⟩ := append_of_mem memY
  have turned : NodeRing m (y :: (back ++ front)) := ring.rotate
  have nodupTurned : (y :: (back ++ front)).Nodup := nodup_append_comm.mp nodup
  have erased : (front ++ y :: back).erase y = front ++ back := by
    rw [erase_append_right, erase_cons_head]
    intro inside
    exact (nodup_append.mp nodup).2.2 y inside y mem_cons_self rfl
  have members : ∀ a, a ∈ y :: (back ++ front) ↔ a ∈ front ++ y :: back := by
    intro a
    simp only [mem_append, mem_cons]
    tauto
  have notY : y ∉ ks := fun inside => apart y inside memY
  have notX : x ∉ ks := fun inside => apart x inside memX
  obtain ⟨m₁, unlinked, ring₁, change₁, -⟩ := turned.unlink nodupTurned
  obtain ⟨ny, foundY⟩ : ∃ n, m₁ y = some n := by
    obtain ⟨_, _, _, _, reads, _⟩ := Ring.links turned mem_cons_self
    obtain ⟨n, found, _⟩ := Store.exists_of_read reads
    have same := change₁.isSome y
    rw [found] at same
    exact Option.isSome_iff_exists.mp same
  let m₂ := m₁.set y (Node.setParent (some x))
  let m₃ := m₂.set y (Node.setLeft y)
  let m₄ := m₃.set y (Node.setRight y)
  have found₂ : m₂ y = some (ny.setParent (some x)) := Store.set_self foundY _
  have found₃ : m₃ y = some ((ny.setParent (some x)).setLeft y) := Store.set_self found₂ _
  have keep₄ : ∀ a, a ≠ y → m₄ a = m₁ a := by
    intro a differs
    exact (Store.set_of_ne _ differs _).trans
      ((Store.set_of_ne _ differs _).trans (Store.set_of_ne _ differs _))
  have notIn : y ∉ back ++ front := (nodup_cons.mp nodupTurned).1
  have ring₄ : NodeRing m₄ (back ++ front) := by
    refine ring₁.frame ?_
    intro a inside
    exact keep₄ a fun same => notIn (same ▸ inside)
  have kidRing₄ : NodeRing m₄ ks := by
    refine kidRing.frame ?_
    intro a inside
    rw [keep₄ a fun same => notY (same ▸ inside)]
    exact change₁.outside a fun member => apart a inside ((members a).mp member)
  have single₄ : NodeRing m₄ [y] := by
    refine ⟨?_, ?_⟩
    · exact Store.read_set_self (by rw [found₃]; rfl) (fun _ => rfl)
    · exact (left_setRight _ _ _ _).trans
        (Store.read_set_self (by rw [found₂]; rfl) (fun _ => rfl))
  have readX : ∀ {β : Type} (field : Node T → β), m₄.read x field = m₁.read x field := by
    intro β field
    rw [Store.read, Store.read, keep₄ x other]
  have child₄ : m₄.read x Node.child = some ks.head? := by
    rw [readX, change₁.child, child]
  obtain ⟨m₅, hung, kidRing₅, outside₅, isSome₅, value₅, parent₅, degree₅, child₅,
    left₅, right₅⟩ := hang_reads kidRing₄ single₄ kidNodup notY notX other child₄
  have foundX₅ : ∃ n', m₅ x = some n' := by
    obtain ⟨n, foundX, _⟩ := Store.exists_of_read child₄
    rw [← Option.isSome_iff_exists, isSome₅, foundX]
    rfl
  obtain ⟨nx, foundX₅⟩ := foundX₅
  let m₆ := m₅.set x Node.incDegree
  have foundY₆ : ∃ n', m₆ y = some n' := by
    rw [← Option.isSome_iff_exists, Store.isSome_set, isSome₅]
    exact Option.isSome_iff_exists.mpr ⟨_, Store.set_self found₃ _⟩
  obtain ⟨ny', foundY₆⟩ := foundY₆
  let m₇ := m₆.set y Node.clearMark
  have right₇ : ∀ a, m₇.read a Node.right = m₅.read a Node.right := by
    intro a
    refine (Store.read_set_other _ _ _ ?_).trans (Store.read_set_other _ _ _ ?_) <;> exact fun _ => rfl
  have left₇ : ∀ a, m₇.read a Node.left = m₅.read a Node.left := by
    intro a
    refine (Store.read_set_other _ _ _ ?_).trans (Store.read_set_other _ _ _ ?_) <;> exact fun _ => rfl
  have value₄ : ∀ a, m₄.read a Node.value = m.read a Node.value := by
    intro a
    rw [← change₁.value a]
    refine (Store.read_set_other _ _ _ ?_).trans ((Store.read_set_other _ _ _ ?_).trans
      (Store.read_set_other _ _ _ ?_)) <;> exact fun _ => rfl
  have degree₄ : ∀ a, m₄.read a Node.degree = m.read a Node.degree := by
    intro a
    rw [← change₁.degree a]
    refine (Store.read_set_other _ _ _ ?_).trans ((Store.read_set_other _ _ _ ?_).trans
      (Store.read_set_other _ _ _ ?_)) <;> exact fun _ => rfl
  have childAll₄ : ∀ a, m₄.read a Node.child = m.read a Node.child := by
    intro a
    rw [← change₁.child a]
    refine (Store.read_set_other _ _ _ ?_).trans ((Store.read_set_other _ _ _ ?_).trans
      (Store.read_set_other _ _ _ ?_)) <;> exact fun _ => rfl
  have parent₄ : ∀ a, m₄.read a Node.parent =
      if a = y then some (some x) else m.read a Node.parent := by
    intro a
    have last : m₄.read a Node.parent = m₂.read a Node.parent := by
      refine (Store.read_set_other _ _ _ ?_).trans (Store.read_set_other _ _ _ ?_) <;> exact fun _ => rfl
    rw [last]
    split
    · rename_i same
      subst same
      exact Store.read_set_self (by rw [foundY]; rfl) (fun _ => rfl)
    · rename_i differs
      rw [← change₁.parent a]
      exact Store.read_set_of_ne _ differs _ _
  refine ⟨m₇, ?_, ?_, ?_, ?_, ?_, ?_, ?_, ?_, ?_⟩
  · simp only [link, unlinked, Store.write_eq foundY, Option.bind_eq_bind, Option.bind_some]
    rw [Store.write_eq found₂, Option.bind_some, Store.write_eq found₃, Option.bind_some]
    rw [hung, Option.bind_some, Store.write_eq foundX₅, Option.bind_some]
    exact Store.write_eq foundY₆ _
  · rw [erased]
    have ring₅ : NodeRing m₅ (back ++ front) := by
      refine ring₄.congr ?_ ?_ <;>
      · intro a inside
        by_cases same : a = x
        · rw [same]
          assumption
        · have out : a ∉ ks ++ [y] := by
            rw [mem_append, mem_singleton, not_or]
            refine ⟨fun kid => ?_, fun isY => notIn (isY ▸ inside)⟩
            exact apart a kid ((members a).mp (mem_cons_of_mem _ inside))
          rw [Store.read, Store.read, outside₅ a same out]
    exact (ring₅.congr (fun a _ => right₇ a) (fun a _ => left₇ a)).rotate
  · exact kidRing₅.congr (fun a _ => right₇ a) (fun a _ => left₇ a)
  · intro a notRoot notKid
    have notXa : a ≠ x := fun same => notRoot (same ▸ memX)
    have notYa : a ≠ y := fun same => notRoot (same ▸ memY)
    have out : a ∉ ks ++ [y] := by
      rw [mem_append, mem_singleton, not_or]
      exact ⟨notKid, notYa⟩
    calc m₇ a = m₆ a := Store.set_of_ne _ notYa _
      _ = m₅ a := Store.set_of_ne _ notXa _
      _ = m₄ a := outside₅ a notXa out
      _ = m₁ a := keep₄ a notYa
      _ = m a := change₁.outside a fun member => notRoot ((members a).mp member)
  · intro a
    rw [Store.isSome_set, Store.isSome_set, isSome₅, Store.isSome_set, Store.isSome_set,
      Store.isSome_set, change₁.isSome]
  · intro a
    rw [← value₄ a, ← value₅ a]
    refine (Store.read_set_other _ _ _ ?_).trans (Store.read_set_other _ _ _ ?_) <;> exact fun _ => rfl
  · intro a
    rw [← parent₄ a, ← parent₅ a]
    refine (Store.read_set_other _ _ _ ?_).trans (Store.read_set_other _ _ _ ?_) <;> exact fun _ => rfl
  · intro a
    rw [← childAll₄ a, ← child₅ a]
    refine (Store.read_set_other _ _ _ ?_).trans (Store.read_set_other _ _ _ ?_) <;> exact fun _ => rfl
  · intro a
    have last : m₇.read a Node.degree = m₆.read a Node.degree :=
      Store.read_set_other _ _ _ (fun _ => rfl)
    rw [last]
    split
    · rename_i same
      subst same
      have before : nx.degree = d := by
        have reads := degree₅ a
        rw [Store.read_eq foundX₅, degree₄, degree, Option.some.injEq] at reads
        exact reads
      rw [← before]
      exact Store.read_eq (Store.set_self foundX₅ _) _
    · rename_i differs
      rw [← degree₄ a, ← degree₅ a]
      exact Store.read_set_of_ne _ differs _ _

/-! ## Facts about forests -/

section Facts
variable {live : Finset Nat} {roots : List Nat} {kids : Nat → List Nat} {a p x y d : Nat}

theorem Forest.kids_nodup (forest : Forest lt m live roots kids) (inside : p ∈ live) :
    (kids p).Nodup := by
  obtain ⟨d, _, degrees⟩ := forest.degrees p inside
  refine List.Nodup.of_map (fun k => m.read k Node.degree) ?_
  rw [degrees]
  exact nodup_range.map (Option.some_injective _)

theorem Forest.length_kids (forest : Forest lt m live roots kids) (inside : p ∈ live)
    (degree : m.read p Node.degree = some d) : (kids p).length = d := by
  obtain ⟨d', degree', degrees⟩ := forest.degrees p inside
  cases Option.some.inj (degree.symm.trans degree')
  have lengths := congrArg List.length degrees
  simpa using lengths

theorem Forest.root_not_kid (forest : Forest lt m live roots kids) (inside : p ∈ live)
    (root : a ∈ roots) : a ∉ kids p := by
  intro kid
  have parent := (forest.kid p inside a kid).2
  rw [(forest.root a root).2] at parent
  cases parent

theorem Forest.parent_unique (forest : Forest lt m live roots kids) {q : Nat} (inside : p ∈ live)
    (inside' : q ∈ live) (kid : a ∈ kids p) (kid' : a ∈ kids q) : p = q := by
  have parent := (forest.kid p inside a kid).2
  rw [(forest.kid q inside' a kid').2] at parent
  cases parent
  rfl

theorem Forest.kid_degree (forest : Forest lt m live roots kids) (inside : p ∈ live)
    (kid : a ∈ kids p) (degree : m.read p Node.degree = some d) :
    ∃ e < d, m.read a Node.degree = some e := by
  obtain ⟨d', degree', degrees⟩ := forest.degrees p inside
  cases Option.some.inj (degree.symm.trans degree')
  have member : m.read a Node.degree ∈ (kids p).map fun k => m.read k Node.degree :=
    mem_map_of_mem kid
  rw [degrees] at member
  obtain ⟨e, below, reads⟩ := mem_map.mp member
  exact ⟨e, mem_range.mp below, reads.symm⟩

theorem Forest.link (forest : Forest lt m live roots kids) (memX : x ∈ roots) (memY : y ∈ roots)
    (other : x ≠ y) (degreeX : m.read x Node.degree = some d)
    (degreeY : m.read y Node.degree = some d) (small : d + 1 < 2 ^ 64)
    (order : ∀ v u, m.read x Node.value = some v → m.read y Node.value = some u → lt v u = false) :
    ∃ m', link m y x = some m' ∧
      Forest lt m' live (roots.erase y) (update kids x (kids x ++ [y])) ∧
      (∀ a, (m' a).isSome = (m a).isSome) ∧ (∀ a, m'.read a Node.value = m.read a Node.value) ∧
      (∀ a, m'.read a Node.degree = if a = x then some (d + 1) else m.read a Node.degree) := by
  have liveX := (forest.root x memX).1
  have liveY := (forest.root y memY).1
  obtain ⟨m', result, linked⟩ := link_reads forest.ring forest.nodup memY memX other
    (forest.kidRing x liveX) (forest.kids_nodup liveX)
    (fun k kid root => forest.root_not_kid liveX root kid) (forest.child x liveX) degreeX
  have degree : ∀ a, m'.read a Node.degree =
      if a = x then some (d + 1) else m.read a Node.degree := by
    intro a
    rw [linked.degree, Nat.mod_eq_of_lt small]
  have kidDegree : ∀ p ∈ live, (kids p).map (fun k => m'.read k Node.degree) =
      (kids p).map fun k => m.read k Node.degree := by
    intro p inside
    refine map_congr_left ?_
    intro k kid
    rw [degree, if_neg]
    rintro rfl
    exact forest.root_not_kid inside memX kid
  have newKid : ∀ p k, k ∈ update kids x (kids x ++ [y]) p →
      k ∈ kids p ∨ (p = x ∧ k = y) := by
    intro p k kid
    by_cases same : p = x
    · subst same
      rw [update_self, mem_append, mem_singleton] at kid
      exact kid.imp_right fun isY => ⟨rfl, isY⟩
    · rw [update_of_ne same] at kid
      exact .inl kid
  have nodupErase := forest.nodup.erase y
  refine ⟨m', result, ⟨linked.ring, nodupErase, ?_, ?_, ?_, ?_, ?_, ?_, ?_⟩, linked.isSome,
    linked.value, degree⟩
  · intro r member
    have old := forest.root r (mem_of_mem_erase member)
    refine ⟨old.1, ?_⟩
    rw [linked.parent, if_neg, old.2]
    rintro rfl
    exact forest.nodup.not_mem_erase member
  · intro p inside
    by_cases same : p = x
    · subst same
      rw [update_self]
      exact linked.kidRing
    · rw [update_of_ne same]
      refine (forest.kidRing p inside).frame ?_
      intro k kid
      refine linked.outside k ?_ ?_
      · intro root
        exact forest.root_not_kid inside root kid
      · intro kid'
        exact same (forest.parent_unique inside liveX kid kid')
  · intro p inside k kid
    rcases newKid p k kid with old | ⟨rfl, rfl⟩
    · refine ⟨(forest.kid p inside k old).1, ?_⟩
      rw [linked.parent, if_neg, (forest.kid p inside k old).2]
      rintro rfl
      exact forest.root_not_kid inside memY old
    · exact ⟨liveY, by rw [linked.parent, if_pos rfl]⟩
  · intro a inside
    rcases forest.placed a inside with root | ⟨p, inside', kid⟩
    · by_cases same : a = y
      · subst same
        refine .inr ⟨x, liveX, ?_⟩
        rw [update_self]
        exact mem_append_right _ (mem_singleton.mpr rfl)
      · exact .inl ((mem_erase_of_ne same).mpr root)
    · refine .inr ⟨p, inside', ?_⟩
      by_cases same : p = x
      · subst same
        rw [update_self]
        exact mem_append_left _ kid
      · rw [update_of_ne same]
        exact kid
  · intro p inside
    rw [linked.child]
    split
    · rename_i same
      rw [same, update_self]
    · rename_i differs
      rw [update_of_ne differs]
      exact forest.child p inside
  · intro p inside
    by_cases same : p = x
    · subst same
      obtain ⟨d', degree', degrees⟩ := forest.degrees p inside
      cases Option.some.inj (degreeX.symm.trans degree')
      refine ⟨d + 1, by rw [degree, if_pos rfl], ?_⟩
      rw [update_self, map_append, kidDegree p inside, degrees, range_succ,
        map_append, map_singleton, map_singleton, degree, if_neg (Ne.symm other),
        degreeY]
    · obtain ⟨e, reads, degrees⟩ := forest.degrees p inside
      refine ⟨e, by rw [degree, if_neg same, reads], ?_⟩
      rw [update_of_ne same, kidDegree p inside, degrees]
  · intro p inside k kid v u valueP valueK
    rw [linked.value] at valueP valueK
    rcases newKid p k kid with old | ⟨rfl, rfl⟩
    · exact forest.ordered p inside k old v u valueP valueK
    · exact order v u valueP valueK

def weight (m : Store (Node T)) (a : Nat) : Nat := 2 ^ (m.read a Node.degree).getD 0

theorem Forest.weight_kids (forest : Forest lt m live roots kids) (inside : p ∈ live) :
    weight m p = 1 + ((kids p).map (weight m)).sum := by
  obtain ⟨d, degree, degrees⟩ := forest.degrees p inside
  have weights : (kids p).map (weight m) = (List.range d).map (2 ^ ·) := by
    have mapped := congrArg (List.map fun o : Option Nat => 2 ^ o.getD 0) degrees
    rw [map_map, map_map] at mapped
    exact mapped
  have geometric : 1 + ((List.range d).map (2 ^ ·)).sum = 2 ^ d := by
    clear degree degrees weights
    induction d with
    | zero => rfl
    | succ d ih =>
      rw [range_succ, map_append, sum_append, ← add_assoc, ih]
      simp [pow_succ]
      omega
  rw [weights, geometric, weight, degree, Option.getD_some]

theorem Forest.card_eq (forest : Forest lt m live roots kids) :
    live.card = (roots.map (weight m)).sum := by
  have rootsLive : roots.toFinset ⊆ live := by
    intro a member
    exact (forest.root a (mem_toFinset.mp member)).1
  have union : live \ roots.toFinset = live.biUnion fun p => (kids p).toFinset := by
    ext a
    rw [Finset.mem_sdiff, Finset.mem_biUnion, mem_toFinset]
    constructor
    · intro ⟨inside, notRoot⟩
      rcases forest.placed a inside with root | ⟨p, inside', kid⟩
      · exact absurd root notRoot
      · exact ⟨p, inside', mem_toFinset.mpr kid⟩
    · intro ⟨p, inside, kid⟩
      rw [mem_toFinset] at kid
      exact ⟨(forest.kid p inside a kid).1, fun root => forest.root_not_kid inside root kid⟩
  have disjoint : (live : Set Nat).PairwiseDisjoint fun p => (kids p).toFinset := by
    intro p inside q inside' differs
    rw [Function.onFun, Finset.disjoint_left]
    intro a kid kid'
    exact differs (forest.parent_unique inside inside' (mem_toFinset.mp kid)
      (mem_toFinset.mp kid'))
  have below : ∑ a ∈ live \ roots.toFinset, weight m a =
      ∑ p ∈ live, ((kids p).map (weight m)).sum := by
    rw [union, Finset.sum_biUnion disjoint]
    refine Finset.sum_congr rfl ?_
    intro p inside
    exact sum_toFinset _ (forest.kids_nodup inside)
  have whole : ∑ p ∈ live, weight m p = live.card + ∑ p ∈ live, ((kids p).map (weight m)).sum := by
    rw [Finset.sum_congr rfl fun p inside => forest.weight_kids inside, Finset.sum_add_distrib,
      Finset.card_eq_sum_ones]
  have split := Finset.sum_sdiff (f := weight m) rootsLive
  have ofRoots : ∑ r ∈ roots.toFinset, weight m r = (roots.map (weight m)).sum :=
    sum_toFinset _ forest.nodup
  omega

theorem Forest.two_roots (forest : Forest lt m live roots kids) (memX : x ∈ roots)
    (memY : y ∈ roots) (other : x ≠ y) (degreeX : m.read x Node.degree = some d)
    (degreeY : m.read y Node.degree = some d) : 2 ^ (d + 1) ≤ live.card := by
  rw [forest.card_eq]
  have sub : [x, y].Sublist roots ∨ [y, x].Sublist roots := by
    obtain ⟨front, back, rfl⟩ := append_of_mem memX
    rcases mem_append.mp memY with before | after
    · exact .inr ((singleton_sublist.mpr before).append
        (singleton_sublist.mpr mem_cons_self))
    · rcases mem_cons.mp after with same | after
      · exact absurd same.symm other
      · refine .inl (List.Sublist.trans ?_ (sublist_append_right _ _))
        exact (singleton_sublist.mpr after).cons_cons x
  have pair : 2 ^ (d + 1) = weight m x + weight m y := by
    rw [weight, weight, degreeX, degreeY, Option.getD_some, pow_succ]
    omega
  rw [pair]
  rcases sub with sub | sub
  · have le := (sub.map (weight m)).sum_le_sum (fun _ _ => Nat.zero_le _)
    simpa using le
  · have le := (sub.map (weight m)).sum_le_sum (fun _ _ => Nat.zero_le _)
    simpa [add_comm] using le

theorem Forest.one_root (forest : Forest lt m live roots kids) (memX : x ∈ roots)
    (degreeX : m.read x Node.degree = some d) : 2 ^ d ≤ live.card := by
  rw [forest.card_eq]
  have member : weight m x ∈ roots.map (weight m) := mem_map_of_mem memX
  rw [weight, degreeX] at member
  exact single_le_sum (fun _ _ => Nat.zero_le _) _ member

theorem Forest.le_root [IsStrictWeakOrder T (Lesser lt)] (forest : Forest lt m live roots kids)
    (inside : a ∈ live) : ∃ r ∈ roots, ∀ v u, m.read r Node.value = some v →
      m.read a Node.value = some u → lt v u = false := by
  obtain ⟨d, degree, _⟩ := forest.degrees a inside
  -- the degree grows on the way to the root
  induction n : live.card - d using Nat.strong_induction_on generalizing a d with
  | _ n ih =>
    rcases forest.placed a inside with root | ⟨p, inside', kid⟩
    · refine ⟨a, root, ?_⟩
      intro v u first second
      cases Option.some.inj (first.symm.trans second)
      exact comp_irrefl v
    · obtain ⟨e, degree', degrees⟩ := forest.degrees p inside'
      obtain ⟨d', below, reads⟩ := forest.kid_degree inside' kid degree'
      cases Option.some.inj (degree.symm.trans reads)
      have bound : e ≤ live.card := by
        rw [← forest.length_kids inside' degree', ← toFinset_card_of_nodup
          (forest.kids_nodup inside')]
        refine Finset.card_le_card ?_
        intro k member
        exact (forest.kid p inside' k (mem_toFinset.mp member)).1
      obtain ⟨r, root, above⟩ := ih (live.card - e) (by omega) inside' e degree' degrees rfl
      refine ⟨r, root, ?_⟩
      intro v u valueR valueA
      obtain ⟨np, foundP, _⟩ := Store.exists_of_read degree'
      have valueP : m.read p Node.value = some np.value := Store.read_eq foundP _
      exact comp_trans_false (above v np.value valueR valueP)
        (forest.ordered p inside' a kid np.value u valueP valueA)

end Facts

end Micron.Fibonacci
