import Micron.Rtree.Insert

/-!
# Queries and erasure in the R*-tree

A query visits what its box meets, and since every box of an internal node
contains those below it, nothing else is stored that meets it.  Erasure removes
the first such entry with the value and dissolves kids that become too small.
-/

set_option autoImplicit false

namespace Micron.Rtree

open List

variable {F V : Type} [Coord F] {D M h : Nat}

omit [Coord F] in
theorem collectKids_eq (kids : List (Box F D × Node F D V)) :
    collectKids kids = kids.flatMap fun p => collectData p.2 := by
  induction kids with
  | nil => rfl
  | cons p kids ih => rw [collectKids, ih, flatMap_cons]

/-- Every entry below a node is inside a box that covers it. -/
theorem Good.contains_stored {n : Node F D V} (good : Good M h n) {m : Box F D}
    (covers : Covers m n) : ∀ e ∈ collectData n, m.contains e.1 = true := by
  induction h generalizing n m with
  | zero =>
    match n, good with
    | .leaf es, _ =>
      intro e member
      exact covers e.1 (mem_map_of_mem member)
  | succ h ih =>
    match n, good with
    | .internal kids, good =>
      intro e member
      rw [collectData, collectKids_eq] at member
      obtain ⟨p, here, below⟩ := mem_flatMap.mp member
      obtain ⟨_, kidCovers, kidGood⟩ := good.2 p here
      exact Box.contains_trans (covers p.1 (mem_map_of_mem here))
        (ih kidGood kidCovers e below)

theorem queryRec_eq {n : Node F D V} (good : Good M h n) (q : Box F D) :
    queryRec q n = (collectData n).filter fun e => e.1.intersects q := by
  induction h generalizing n with
  | zero =>
    match n, good with
    | .leaf es, _ => rfl
  | succ h ih =>
    match n, good with
    | .internal kids, ⟨bound, each⟩ =>
      rw [queryRec, collectData]
      clear bound good
      induction kids with
      | nil => rfl
      | cons p kids ihKids =>
        obtain ⟨_, covers, kidGood⟩ := each p mem_cons_self
        have rest := ihKids fun p' member => each p' (mem_cons_of_mem _ member)
        rw [queryKids, collectKids, filter_append, ← ih kidGood, ← rest]
        split
        · rfl
        · rename_i missed
          have nothing : queryRec q p.2 = [] := by
            rw [ih kidGood, filter_eq_nil_iff]
            intro e member hit
            exact missed (Box.intersects_of_contains
              (kidGood.contains_stored covers e member) hit)
          rw [nothing, nil_append]

variable [BEq V]

def matching (b : Box F D) (v : V) (e : Box F D × V) : Bool := e.1.intersects b && e.2 == v

structure Erased (M h : Nat) (b : Box F D) (v : V) (n n' : Node F D V)
    (orphans : List (Box F D × V)) : Prop where
  good : Good M h n'
  shrunk : n.count ≤ n'.count + 1
  content : ∃ e, matching b v e = true ∧ stored n = stored n' + ↑orphans + {e}
  inside : ∀ m : Box F D, Covers m n → Covers m n'

def Erases (M h : Nat) (b : Box F D) (v : V) (n : Node F D V) : Prop :=
  (eraseRec M b v n = none ∧ ∀ e ∈ collectData n, matching b v e = false) ∨
    ∃ n' orphans, eraseRec M b v n = some (n', orphans) ∧ Erased M h b v n n' orphans

theorem eraseLeaf_spec (b : Box F D) (v : V) (es : List (Box F D × V)) :
    (eraseLeaf b v es = none ∧ ∀ e ∈ es, matching b v e = false) ∨
      ∃ front e back, es = front ++ e :: back ∧ matching b v e = true ∧
        eraseLeaf b v es = some (front ++ back) := by
  induction es with
  | nil => exact .inl ⟨rfl, nofun⟩
  | cons e es ih =>
    cases hit : matching b v e with
    | true =>
      refine .inr ⟨[], e, es, rfl, hit, ?_⟩
      exact if_pos hit
    | false =>
      have passed : eraseLeaf b v (e :: es) = (eraseLeaf b v es).map (e :: ·) := by
        exact if_neg (Bool.eq_false_iff.mp hit)
      rcases ih with ⟨missed, none⟩ | ⟨front, e', back, rfl, here, removed⟩
      · refine .inl ⟨by rw [passed, missed]; rfl, ?_⟩
        intro e' member
        rcases mem_cons.mp member with rfl | later
        · exact hit
        · exact none e' later
      · exact .inr ⟨e :: front, e', back, rfl, here, by rw [passed, removed]; rfl⟩

/-- The loop over the kids ends at the first one that loses an entry. -/
theorem eraseKids_spec (b : Box F D) (v : V) (kids : List (Box F D × Node F D V))
    (each : ∀ p ∈ kids, minf M ≤ p.2.count ∧ Covers p.1 p.2 ∧ Good M h p.2)
    (search : ∀ p ∈ kids, Erases M h b v p.2) :
    (eraseKids M b v kids = none ∧ ∀ e ∈ collectKids kids, matching b v e = false) ∨
      ∃ front kid back n' orphans, kids = front ++ kid :: back ∧
        Erased M h b v kid.2 n' orphans ∧
        eraseKids M b v kids =
          if n'.count < minf M then some (front ++ back, orphans ++ collectData n')
          else some (front ++ (subtreeMbr n', n') :: back, orphans) := by
  induction kids with
  | nil => exact .inl ⟨rfl, nofun⟩
  | cons p kids ih =>
    obtain ⟨mbr, kid⟩ := p
    obtain ⟨_, covers, kidGood⟩ := each (mbr, kid) mem_cons_self
    have rest := ih (fun p' member => each p' (mem_cons_of_mem _ member))
      fun p' member => search p' (mem_cons_of_mem _ member)
    -- the loop goes on when the kid has no such entry
    have goOn : (∀ e ∈ collectData kid, matching b v e = false) →
        eraseKids M b v ((mbr, kid) :: kids) =
          (eraseKids M b v kids).map (fun r => ((mbr, kid) :: r.1, r.2)) →
        (eraseKids M b v ((mbr, kid) :: kids) = none ∧
          ∀ e ∈ collectKids ((mbr, kid) :: kids), matching b v e = false) ∨
        ∃ front kid' back n' orphans, (mbr, kid) :: kids = front ++ kid' :: back ∧
          Erased M h b v kid'.2 n' orphans ∧
          eraseKids M b v ((mbr, kid) :: kids) =
            if n'.count < minf M then some (front ++ back, orphans ++ collectData n')
            else some (front ++ (subtreeMbr n', n') :: back, orphans) := by
      intro none next
      rcases rest with ⟨missed, others⟩ | ⟨front, kid', back, n', orphans, rfl, erased, result⟩
      · refine .inl ⟨by rw [next, missed]; rfl, ?_⟩
        intro e member
        rw [collectKids, mem_append] at member
        exact member.elim (none e) (others e)
      · refine .inr ⟨(mbr, kid) :: front, kid', back, n', orphans, rfl, erased, ?_⟩
        rw [next, result]
        split <;> rfl
    cases hit : mbr.intersects b with
    | false =>
      apply goOn
      · intro e member
        rw [Bool.eq_false_iff]
        intro found
        have meets := (Bool.and_eq_true_iff.mp found).1
        have reached := Box.intersects_of_contains
          (kidGood.contains_stored covers e member) meets
        rw [hit] at reached
        cases reached
      · rw [eraseKids, hit]
        rfl
    | true =>
      rcases search (mbr, kid) mem_cons_self with ⟨missed, none⟩ |
        ⟨n', orphans, result, erased⟩
      · apply goOn none
        rw [eraseKids, hit, missed]
        rfl
      · refine .inr ⟨[], (mbr, kid), kids, n', orphans, rfl, erased, ?_⟩
        rw [eraseKids, hit, result]
        rfl

theorem eraseRec_spec (b : Box F D) (v : V) {n : Node F D V}
    (good : Good M h n) : Erases M h b v n := by
  induction h generalizing n with
  | zero =>
    cases n with
    | internal => cases good
    | leaf es =>
      rcases eraseLeaf_spec b v es with ⟨missed, none⟩ |
        ⟨front, e, back, rfl, hit, removed⟩
      · exact .inl ⟨by rw [eraseRec, missed]; rfl, none⟩
      · refine .inr ⟨.leaf (front ++ back), [], by rw [eraseRec, removed]; rfl, ?_, ?_, ?_, ?_⟩
        · have bound : (front ++ e :: back).length ≤ M := good
          show (front ++ back).length ≤ M
          rw [length_append, length_cons] at bound
          rw [length_append]
          omega
        · simp [Node.count, add_assoc]
        · refine ⟨e, hit, ?_⟩
          rw [stored_leaf, stored_leaf, Multiset.coe_nil, add_zero, ← Multiset.coe_singleton,
            Multiset.coe_add, Multiset.coe_eq_coe]
          exact perm_middle.trans (perm_append_singleton _ _).symm
        · intro m covers x member
          obtain ⟨e', here, rfl⟩ := mem_map.mp member
          apply covers e'.1
          apply mem_map_of_mem
          rw [mem_append] at here ⊢
          exact here.imp_right (mem_cons_of_mem _)
  | succ h ih =>
    cases n with
    | leaf => cases good
    | internal kids =>
      obtain ⟨bound, each⟩ := good
      rcases eraseKids_spec b v kids each (fun p member => ih (each p member).2.2) with
        ⟨missed, none⟩ | ⟨front, kid, back, n', orphans, rfl, erased, result⟩
      · refine .inl ⟨by rw [eraseRec, missed]; rfl, ?_⟩
        exact none
      · obtain ⟨filled, covers, _⟩ := each kid (by simp)
        obtain ⟨e, hit, content⟩ := erased.content
        have others : ∀ p ∈ front ++ back,
            minf M ≤ p.2.count ∧ Covers p.1 p.2 ∧ Good M h p.2 := by
          intro p member
          apply each p
          rw [mem_append] at member ⊢
          exact member.imp_right (mem_cons_of_mem _)
        rw [length_append, length_cons] at bound
        right
        by_cases small : n'.count < minf M
        · refine ⟨.internal (front ++ back), orphans ++ collectData n', ?_, ⟨?_, others⟩, ?_, ?_,
            ?_⟩
          · rw [eraseRec, result, if_pos small]
            rfl
          · rw [length_append]
            omega
          · simp [Node.count, add_assoc]
          · refine ⟨e, hit, ?_⟩
            simp only [stored_internal, map_append, sum_append, map_cons,
              sum_cons, content, ← Multiset.coe_add]
            rw [show (↑(collectData n') : Multiset (Box F D × V)) = stored n' from rfl]
            abel
          · intro m mCovers x member
            obtain ⟨p, here, rfl⟩ := mem_map.mp member
            apply mCovers p.1
            apply mem_map_of_mem
            rw [mem_append] at here ⊢
            exact here.imp_right (mem_cons_of_mem _)
        · refine ⟨.internal (front ++ (subtreeMbr n', n') :: back), orphans, ?_, ⟨?_, ?_⟩, ?_, ?_,
            ?_⟩
          · rw [eraseRec, result, if_neg small]
            rfl
          · rw [length_append, length_cons]
            exact bound
          · intro p member
            rcases mem_append.mp member with old | later
            · exact others p (mem_append_left _ old)
            · rcases mem_cons.mp later with rfl | old
              · exact ⟨Nat.le_of_not_lt small, covers_subtreeMbr n', erased.good⟩
              · exact others p (mem_append_right _ old)
          · simp [Node.count]
          · refine ⟨e, hit, ?_⟩
            simp only [stored_internal, map_append, sum_append, map_cons,
              sum_cons, content]
            abel
          · intro m mCovers x member
            obtain ⟨p, here, rfl⟩ := mem_map.mp member
            rcases mem_append.mp here with old | later
            · exact mCovers p.1 (mem_map_of_mem (mem_append_left _ old))
            · rcases mem_cons.mp later with rfl | old
              · apply Covers.contains_subtreeMbr
                apply erased.inside
                exact covers.trans (mCovers kid.1 (mem_map_of_mem (by simp)))
              · exact mCovers p.1 (mem_map_of_mem
                  (mem_append_right _ (mem_cons_of_mem _ old)))

end Micron.Rtree
