import Mathlib.Data.List.Nodup

/-!
# Singly linked lists

`Chain next p l` says that the nodes from `p` on, each linked to the next by `next`, are
those of `l`, and that the list ends.  In `TwoWay next prev before p l` each node has the
one before it, too, and `before` is the one before the first.
-/

set_option autoImplicit false

namespace Micron.Lib

open List Function

variable {ι : Type}

def Chain (next : ι → Option ι) : Option ι → List ι → Prop
  | p, [] => p = none
  | p, a :: rest => p = some a ∧ Chain next (next a) rest

namespace Chain

variable {next next' : ι → Option ι} {p : Option ι} {l front back : List ι} {a : ι}

theorem congr (chain : Chain next p l) (same : ∀ b ∈ l, next' b = next b) : Chain next' p l := by
  induction l generalizing p with
  | nil => exact chain
  | cons b rest ih =>
    refine ⟨chain.1, ?_⟩
    rw [same b mem_cons_self]
    exact ih chain.2 fun c inside => same c (mem_cons_of_mem b inside)

theorem head_eq (chain : Chain next p l) : p = l.head? := by
  cases l with
  | nil => exact chain
  | cons b rest => exact chain.1

/-- The list from a node on. -/
theorem after (chain : Chain next p (front ++ a :: back)) : Chain next (next a) back := by
  induction front generalizing p with
  | nil => exact chain.2
  | cons b rest ih => exact ih chain.2

theorem next_eq (chain : Chain next p (front ++ a :: back)) : next a = back.head? :=
  chain.after.head_eq

/-- A node is left out by a new link of the one before it. -/
theorem bypass [DecidableEq ι] {q : ι} (chain : Chain next p (front ++ q :: a :: back))
    (nodup : (front ++ q :: a :: back).Nodup) :
    Chain (update next q back.head?) p (front ++ q :: back) := by
  induction front generalizing p with
  | nil =>
    refine ⟨chain.1, ?_⟩
    rw [update_self]
    have rest : Chain next back.head? back := by
      have tail := chain.2.2
      rwa [tail.head_eq] at tail
    refine rest.congr fun b inside => update_of_ne ?_ _ _
    intro same
    exact (nodup_cons.mp nodup).1 (same ▸ mem_cons_of_mem a inside)
  | cons b rest ih =>
    have parts := nodup_cons.mp nodup
    refine ⟨chain.1, ?_⟩
    rw [update_of_ne]
    · exact ih chain.2 parts.2
    · intro same
      exact parts.1 (same ▸ mem_append_right rest mem_cons_self)

end Chain

def TwoWay (next prev : ι → Option ι) : Option ι → Option ι → List ι → Prop
  | _, p, [] => p = none
  | before, p, a :: rest => p = some a ∧ prev a = before ∧ TwoWay next prev (some a) (next a) rest

def bypassNext [DecidableEq ι] (next prev : ι → Option ι) (a : ι) : ι → Option ι :=
  fun x => if prev a = some x then next a else next x

def bypassPrev [DecidableEq ι] (next prev : ι → Option ι) (a : ι) : ι → Option ι :=
  fun x => if next a = some x then prev a else prev x

namespace TwoWay

variable {next prev next' prev' : ι → Option ι} {before p : Option ι} {l front back : List ι} {a : ι}

theorem congr (row : TwoWay next prev before p l)
    (same : ∀ b ∈ l, next' b = next b ∧ prev' b = prev b) : TwoWay next' prev' before p l := by
  induction l generalizing before p with
  | nil => exact row
  | cons b rest ih =>
    obtain ⟨start, back, tail⟩ := row
    obtain ⟨sameNext, samePrev⟩ := same b mem_cons_self
    refine ⟨start, samePrev.trans back, ?_⟩
    rw [sameNext]
    exact ih tail fun c inside => same c (mem_cons_of_mem b inside)

theorem head_eq (row : TwoWay next prev before p l) : p = l.head? := by
  cases l with
  | nil => exact row
  | cons b rest => exact row.1

theorem next_eq (row : TwoWay next prev before p (front ++ a :: back)) : next a = back.head? := by
  induction front generalizing before p with
  | nil => exact row.2.2.head_eq
  | cons b rest ih => exact ih row.2.2

theorem prev_eq (row : TwoWay next prev before p (front ++ a :: back)) :
    prev a = front.getLast?.or before := by
  induction front generalizing before p with
  | nil => exact row.2.1
  | cons b rest ih =>
    rw [ih row.2.2, getLast?_cons]
    cases rest.getLast? <;> rfl

/-- A node is put in front. -/
theorem push (row : TwoWay next prev none p l) (nextNew : next' a = p) (prevNew : prev' a = none)
    (nextOld : ∀ b ∈ l, next' b = next b) (prevHead : ∀ b, p = some b → prev' b = some a)
    (prevOld : ∀ b ∈ l.tail, prev' b = prev b) : TwoWay next' prev' none (some a) (a :: l) := by
  refine ⟨rfl, prevNew, ?_⟩
  rw [nextNew]
  cases l with
  | nil => exact row
  | cons b rest =>
    obtain ⟨start, _, tail⟩ := row
    refine ⟨start, prevHead b start, ?_⟩
    rw [nextOld b mem_cons_self]
    exact tail.congr fun c inside => ⟨nextOld c (mem_cons_of_mem b inside), prevOld c inside⟩

/-- A node is taken out. -/
theorem bypass [DecidableEq ι] (row : TwoWay next prev before p (front ++ a :: back))
    (nodup : (front ++ a :: back).Nodup) (outside : ∀ b, before = some b → b ∉ front ++ a :: back) :
    TwoWay (bypassNext next prev a) (bypassPrev next prev a) before
      (if front = [] then next a else p) (front ++ back) := by
  induction front generalizing before p with
  | nil =>
    obtain ⟨_, isPrev, tail⟩ := row
    have parts := nodup_cons.mp nodup
    have kept : ∀ b ∈ back, bypassNext next prev a b = next b := by
      intro b inside
      refine if_neg ?_
      rw [isPrev]
      intro same
      exact outside b same (mem_cons_of_mem a inside)
    cases back with
    | nil => exact tail
    | cons r rest =>
      obtain ⟨start, _, more⟩ := tail
      refine ⟨start, (if_pos start).trans isPrev, ?_⟩
      rw [kept r mem_cons_self]
      refine more.congr fun b inside => ⟨kept b (mem_cons_of_mem r inside), if_neg ?_⟩
      rw [start]
      intro same
      exact (nodup_cons.mp parts.2).1 (Option.some.inj same ▸ inside)
  | cons q front ih =>
    have wholeNext : next a = back.head? := row.next_eq
    have wholePrev : prev a = (q :: front).getLast?.or before := row.prev_eq
    obtain ⟨start, isPrev, tail⟩ := row
    rw [cons_append, nodup_cons] at nodup
    have rest := ih tail nodup.2 (fun b isB => Option.some.inj isB ▸ nodup.1)
    refine ⟨start, ?_, ?_⟩
    · refine (if_neg ?_).trans isPrev
      rw [wholeNext]
      intro same
      have inside : q ∈ back := mem_of_mem_head? same
      exact nodup.1 (mem_append_right front (mem_cons_of_mem a inside))
    · have link : bypassNext next prev a q = if front = [] then next a else next q := by
        unfold bypassNext
        rw [wholePrev]
        rcases eq_nil_or_concat front with rfl | ⟨init, r, isFront⟩
        · simp
        · rw [concat_eq_append] at isFront
          subst isFront
          have last : (q :: (init ++ [r])).getLast? = some r := by simp [getLast?_cons]
          have differ : r ≠ q := by
            rintro rfl
            exact nodup.1 (by simp)
          have notNil : init ++ [r] ≠ [] := by simp
          rw [last, Option.some_or, if_neg (fun same => differ (Option.some.inj same)), if_neg notNil]
      rw [link]
      exact rest

end TwoWay

end Micron.Lib
