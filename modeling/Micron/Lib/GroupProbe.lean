import Mathlib.Data.List.Basic

/-!
# Probing in groups

A probe plan is a list of slot groups.  A lookup examines a whole group, stops
at a group that contains a never-used slot, and otherwise goes on; an insert
takes the first free slot of the plan.  `Reach` says that a lookup comes to a
slot; it survives every write that makes no slot never-used again.
-/

set_option autoImplicit false

namespace Micron.Lib

open List

def search (hit empty : Nat → Bool) : List (List Nat) → Option Nat
  | [] => none
  | group :: rest =>
    match group.find? hit with
    | some slot => some slot
    | none => if group.any empty then none else search hit empty rest

/-- A lookup whose key is not met earlier examines `slot`. -/
def Reach (empty : Nat → Bool) : List (List Nat) → Nat → Prop
  | [], _ => False
  | group :: rest, slot =>
    slot ∈ group ∨ (group.any empty = false ∧ Reach empty rest slot)

variable {hit empty : Nat → Bool}

theorem search_sound : ∀ (plan : List (List Nat)) (slot : Nat),
    search hit empty plan = some slot → hit slot = true ∧ slot ∈ plan.flatten := by
  intro plan
  induction plan with
  | nil =>
    intro slot found
    cases found
  | cons group rest ih =>
    intro slot found
    rw [search] at found
    split at found
    · rename_i first firstFound
      cases found
      refine ⟨find?_some firstFound, ?_⟩
      exact mem_append_left _ (mem_of_find?_eq_some firstFound)
    · split at found
      · cases found
      · obtain ⟨hits, member⟩ := ih slot found
        exact ⟨hits, mem_append_right _ member⟩

/-- A reached slot that alone hits is found. -/
theorem search_complete {slot : Nat} (hits : hit slot = true) : ∀ plan : List (List Nat),
    Reach empty plan slot → (∀ x, x ∈ plan.flatten → hit x = true → x = slot) →
    search hit empty plan = some slot := by
  intro plan
  induction plan with
  | nil =>
    intro reached _
    cases reached
  | cons group rest ih =>
    intro reached alone
    rw [search]
    split
    · rename_i first firstFound
      rw [alone first (mem_append_left _ (mem_of_find?_eq_some firstFound))
        (find?_some firstFound)]
    · rename_i missed
      rcases reached with here | ⟨used, later⟩
      · exact absurd hits (find?_eq_none.mp missed slot here)
      · rw [used]
        exact ih later fun x member => alone x (mem_append_right _ member)

/-- Slots examined one at a time are groups of their own. -/
theorem search_singles (rest : List (List Nat)) : ∀ slots : List Nat,
    search hit empty (slots.map (fun slot => [slot]) ++ rest) =
      match slots.find? (fun slot => hit slot || empty slot) with
      | some slot => if hit slot then some slot else none
      | none => search hit empty rest := by
  intro slots
  induction slots with
  | nil => rfl
  | cons slot slots ih =>
    rw [map_cons, cons_append, search, ih]
    cases hits : hit slot with
    | true => simp [hits]
    | false =>
      cases never : empty slot with
      | true => simp [hits, never]
      | false => simp [hits, never]

theorem Reach.mem : ∀ {plan : List (List Nat)} {slot : Nat},
    Reach empty plan slot → slot ∈ plan.flatten := by
  intro plan
  induction plan with
  | nil =>
    intro slot reached
    cases reached
  | cons group rest ih =>
    intro slot reached
    rcases reached with here | ⟨_, later⟩
    · exact mem_append_left _ here
    · exact mem_append_right _ (ih later)

theorem Reach.congr {empty' : Nat → Bool} : ∀ {plan : List (List Nat)} {slot : Nat},
    (∀ x, x ∈ plan.flatten → empty' x = empty x) → Reach empty plan slot →
    Reach empty' plan slot := by
  intro plan
  induction plan with
  | nil =>
    intro slot _ reached
    cases reached
  | cons group rest ih =>
    intro slot same reached
    rcases reached with here | ⟨used, later⟩
    · exact .inl here
    · refine .inr ⟨?_, ih (fun x member => same x (mem_append_right _ member)) later⟩
      rw [any_eq_false] at used ⊢
      intro x member
      rw [same x (mem_append_left _ member)]
      exact used x member

/-- Slots only stop being never-used. -/
theorem Reach.mono {empty' : Nat → Bool} (fewer : ∀ x, empty' x = true → empty x = true) :
    ∀ {plan : List (List Nat)} {slot : Nat},
      Reach empty plan slot → Reach empty' plan slot := by
  intro plan
  induction plan with
  | nil =>
    intro slot reached
    cases reached
  | cons group rest ih =>
    intro slot reached
    rcases reached with here | ⟨used, later⟩
    · exact .inl here
    · refine .inr ⟨?_, ih later⟩
      rw [any_eq_false] at used ⊢
      intro x member never
      exact used x member (fewer x never)

/-- A slot that a search finds is reached. -/
theorem reach_of_search : ∀ {plan : List (List Nat)} {slot : Nat},
    search hit empty plan = some slot → Reach empty plan slot := by
  intro plan
  induction plan with
  | nil =>
    intro slot found
    cases found
  | cons group rest ih =>
    intro slot found
    rw [search] at found
    split at found
    · rename_i first firstFound
      cases found
      exact .inl (mem_of_find?_eq_some firstFound)
    · split at found
      · cases found
      · rename_i _ used
        exact .inr ⟨Bool.eq_false_iff.mpr used, ih found⟩

/-- Groups without slots of either kind lead to a slot when groups without
slots of each kind do. -/
theorem Reach.or {other : Nat → Bool} : ∀ {plan : List (List Nat)} {slot : Nat},
    Reach empty plan slot → Reach other plan slot →
    Reach (fun x => empty x || other x) plan slot := by
  intro plan
  induction plan with
  | nil =>
    intro slot reached _
    cases reached
  | cons group rest ih =>
    intro slot reached reachedOther
    rcases reached with here | ⟨used, later⟩
    · exact .inl here
    · rcases reachedOther with here | ⟨usedOther, laterOther⟩
      · exact .inl here
      · refine .inr ⟨?_, ih later laterOther⟩
        rw [any_eq_false] at used usedOther ⊢
        intro x member
        simp [used x member, usedOther x member]

/-- The first free slot of a plan is reached. -/
theorem reach_first {free : Nat → Bool} (usable : ∀ x, empty x = true → free x = true) :
    ∀ {plan : List (List Nat)} {slot : Nat},
      plan.flatten.find? free = some slot → Reach empty plan slot := by
  intro plan
  induction plan with
  | nil =>
    intro slot found
    cases found
  | cons group rest ih =>
    intro slot found
    rw [flatten_cons, find?_append] at found
    cases here : group.find? free with
    | some first =>
      rw [here] at found
      cases found
      exact .inl (mem_of_find?_eq_some here)
    | none =>
      rw [here] at found
      refine .inr ⟨?_, ih found⟩
      rw [any_eq_false]
      intro x member never
      exact find?_eq_none.mp here x member (usable x never)

end Micron.Lib
