import Mathlib.Data.List.Nodup

/-!
# Circular doubly linked lists

Two functions give the neighbours of an address.  `Ring right left l` says that
the addresses of `l` form a ring in this order.  A ring may be read from any of
its members on; the lemmas follow the pointer writes that take a member out or
put one in.
-/

set_option autoImplicit false

namespace Micron.Lib

open List

section Rings
variable {right left right' left' : Nat → Option Nat} {a b x y : Nat} {l front back : List Nat}

/-- From `a` along the members of the list to `b`. -/
def Arc (right left : Nat → Option Nat) : Nat → List Nat → Nat → Prop
  | a, [], b => right a = some b ∧ left b = some a
  | a, x :: l, b => right a = some x ∧ left x = some a ∧ Arc right left x l b

def Ring (right left : Nat → Option Nat) : List Nat → Prop
  | [] => True
  | a :: l => Arc right left a l a

theorem arc_append :
    Arc right left a (front ++ x :: back) b ↔
      Arc right left a front x ∧ Arc right left x back b := by
  induction front generalizing a with
  | nil => simp [Arc, and_assoc]
  | cons y front ih => simp [Arc, ih, and_assoc]

theorem Arc.right_eq (arc : Arc right left a l b) : right a = some ((l ++ [b]).head (by simp)) := by
  cases l with
  | nil => exact arc.1
  | cons x l => exact arc.1

theorem Arc.congr (arc : Arc right left a l b) (rights : ∀ c ∈ a :: l, right' c = right c)
    (lefts : ∀ c ∈ l ++ [b], left' c = left c) : Arc right' left' a l b := by
  induction l generalizing a with
  | nil =>
    exact ⟨(rights a mem_cons_self).trans arc.1, (lefts b (by simp)).trans arc.2⟩
  | cons x l ih =>
    refine ⟨(rights a mem_cons_self).trans arc.1, (lefts x (by simp)).trans arc.2.1, ?_⟩
    refine ih arc.2.2 ?_ ?_
    · intro c member
      exact rights c (mem_cons_of_mem _ member)
    · intro c member
      exact lefts c (mem_cons_of_mem _ member)

theorem Ring.congr (ring : Ring right left l) (rights : ∀ c ∈ l, right' c = right c)
    (lefts : ∀ c ∈ l, left' c = left c) : Ring right' left' l := by
  cases l with
  | nil => trivial
  | cons a l =>
    refine Arc.congr ring rights ?_
    intro c member
    refine lefts c ?_
    rw [mem_append, mem_singleton] at member
    rw [mem_cons]
    exact member.symm

theorem Ring.rotate (ring : Ring right left (front ++ back)) : Ring right left (back ++ front) := by
  cases front with
  | nil => simpa using ring
  | cons a front =>
    cases back with
    | nil => simpa using ring
    | cons b back =>
      obtain ⟨first, second⟩ := arc_append.mp ring
      exact arc_append.mpr ⟨second, first⟩

theorem Ring.links (ring : Ring right left l) (member : a ∈ l) :
    ∃ p ∈ l, ∃ n ∈ l, left a = some p ∧ right p = some a ∧ right a = some n ∧ left n = some a := by
  obtain ⟨front, back, rfl⟩ := append_of_mem member
  have turned : Ring right left (a :: back ++ front) := ring.rotate
  have members : ∀ c, c ∈ front ++ a :: back ↔ c ∈ a :: (back ++ front) := by
    intro c
    simp only [mem_append, mem_cons]
    tauto
  simp only [members]
  rw [cons_append] at turned
  generalize back ++ front = rest at turned
  cases rest with
  | nil =>
    obtain ⟨r, l⟩ := turned
    exact ⟨a, mem_cons_self, a, mem_cons_self, l, r, r, l⟩
  | cons n rest =>
    obtain ⟨r, l, arc⟩ := turned
    rcases eq_nil_or_concat rest with rfl | ⟨init, p, rfl⟩
    · exact ⟨n, by simp, n, by simp, arc.2, arc.1, r, l⟩
    · rw [concat_eq_append, arc_append] at arc
      exact ⟨p, by simp, n, by simp, arc.2.2, arc.2.1, r, l⟩

/-- `a` leaves its ring. -/
theorem Ring.unlink (ring : Ring right left (a :: l)) (nodup : (a :: l).Nodup) {p n : Nat}
    (previous : left a = some p) (next : right a = some n)
    (rightAt : l ≠ [] → right' p = some n) (leftAt : l ≠ [] → left' n = some p)
    (rights : ∀ c ∈ l, c ≠ p → right' c = right c) (lefts : ∀ c ∈ l, c ≠ n → left' c = left c) :
    Ring right' left' l := by
  cases l with
  | nil => trivial
  | cons b l =>
    obtain ⟨r, lb, arc⟩ := ring
    cases Option.some.inj (next.symm.trans r)
    have setR := rightAt (cons_ne_nil _ _)
    have setL := leftAt (cons_ne_nil _ _)
    obtain ⟨notIn, nodup'⟩ := nodup_cons.mp nodup
    rcases eq_nil_or_concat l with rfl | ⟨init, last, rfl⟩
    · cases Option.some.inj (previous.symm.trans arc.2)
      exact ⟨setR, setL⟩
    · rw [concat_eq_append] at arc notIn nodup' rights lefts ⊢
      rw [arc_append] at arc
      cases Option.some.inj (previous.symm.trans arc.2.2)
      refine arc_append.mpr ⟨?_, setR, setL⟩
      obtain ⟨headOut, nodupInit⟩ := nodup_cons.mp nodup'
      have lastOut : p ∉ init := by
        intro member
        exact (nodup_append.mp nodupInit).2.2 p member p (by simp) rfl
      refine arc.1.congr ?_ ?_
      · intro c member
        refine rights c ?_ ?_
        · rw [mem_cons] at member ⊢
          rcases member with same | inside
          · exact .inl same
          · exact .inr (mem_append_left _ inside)
        · rintro rfl
          rcases mem_cons.mp member with same | inside
          · exact headOut (by simp [← same])
          · exact lastOut inside
      · intro c member
        refine lefts c (mem_cons_of_mem _ member) ?_
        rintro rfl
        exact headOut member

/-- `y` goes in to the right of `a`. -/
theorem Ring.insert (ring : Ring right left (a :: l)) (nodup : (a :: l).Nodup) {n : Nat}
    (next : right a = some n) (fresh : y ∉ a :: l)
    (rightA : right' a = some y) (leftY : left' y = some a) (rightY : right' y = some n)
    (leftN : left' n = some y) (rights : ∀ c ∈ l, right' c = right c)
    (lefts : ∀ c ∈ a :: l, c ≠ n → left' c = left c) : Ring right' left' (a :: y :: l) := by
  obtain ⟨notIn, nodup'⟩ := nodup_cons.mp nodup
  refine ⟨rightA, leftY, ?_⟩
  cases l with
  | nil =>
    cases Option.some.inj (next.symm.trans ring.1)
    exact ⟨rightY, leftN⟩
  | cons b l =>
    obtain ⟨r, lb, arc⟩ := ring
    cases Option.some.inj (next.symm.trans r)
    refine ⟨rightY, leftN, arc.congr rights ?_⟩
    intro c member
    have other : c ≠ n := by
      rintro rfl
      rcases mem_append.mp member with inside | same
      · exact (nodup_cons.mp nodup').1 inside
      · exact notIn (by simp [← mem_singleton.mp same])
    refine lefts c ?_ other
    rcases mem_append.mp member with inside | same
    · exact mem_cons_of_mem _ (mem_cons_of_mem _ inside)
    · rw [mem_singleton.mp same]
      exact mem_cons_self

end Rings

end Micron.Lib
