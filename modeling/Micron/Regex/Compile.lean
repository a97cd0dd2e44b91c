import Micron.Regex.Language

/-!
# Compiled code

What the emitter writes for a tree is the code of that tree, at the place where it
is written; blanks are filled in inside that place only.  Runs of a compiled program
from its first instruction to `match` are then the matches of the tree.
-/

set_option autoImplicit false

namespace Micron.Regex

open Micron.Lib

def StarAt (code : List Inst) (F : Nat → Nat → Prop) (o o' : Nat) : Prop :=
  ∃ j, code[o]? = some ⟨.split, o + 1, j + 1⟩ ∧ F (o + 1) j ∧ code[j]? = some ⟨.jmp, o, 0⟩ ∧
    o' = j + 1

def OptionAt (code : List Inst) (F : Nat → Nat → Prop) (o o' : Nat) : Prop :=
  code[o]? = some ⟨.split, o + 1, o'⟩ ∧ F (o + 1) o'

def InstAt (code : List Inst) (i : Inst) (o o' : Nat) : Prop :=
  code[o]? = some i ∧ o' = o + 1

/-- The code from `o` up to `o'` is that of the tree. -/
def Frag (code : List Inst) : Node → Nat → Nat → Prop
  | .empty, o, o' => o' = o
  | .char a, o, o' => InstAt code ⟨.char, a.toNat, 0⟩ o o'
  | .cls a, o, o' => InstAt code ⟨.cls, a, 0⟩ o o'
  | .any, o, o' => InstAt code ⟨.any, 0, 0⟩ o o'
  | .bol, o, o' => InstAt code ⟨.bol, 0, 0⟩ o o'
  | .eol, o, o' => InstAt code ⟨.eol, 0, 0⟩ o o'
  | .concat a b, o, o' => ∃ m, Frag code a o m ∧ Frag code b m o'
  | .alt a b, o, o' =>
    ∃ j, code[o]? = some ⟨.split, o + 1, j + 1⟩ ∧ Frag code a (o + 1) j ∧
      code[j]? = some ⟨.jmp, o', 0⟩ ∧ Frag code b (j + 1) o'
  | .star a, o, o' => StarAt code (Frag code a) o o'
  | .plus a, o, o' =>
    ∃ j, Frag code a o j ∧ code[j]? = some ⟨.split, o, j + 1⟩ ∧ o' = j + 1
  | .quest a, o, o' => OptionAt code (Frag code a) o o'
  | .group a g, o, o' =>
    ∃ j, code[o]? = some ⟨.save, 2 * g, 0⟩ ∧ Frag code a (o + 1) j ∧
      code[j]? = some ⟨.save, 2 * g + 1, 0⟩ ∧ o' = j + 1
  | .rep a lo hi, o, o' =>
    ∃ m, Power (Frag code a) lo o m ∧
      if hi = kInf then StarAt code (Frag code a) m o'
      else Power (OptionAt code (Frag code a)) (hi - lo) m o'

section Runs

variable {pv : ProgView} {input : List UInt8} {M : Nat} {F L : Nat → Nat → Prop} {o o' : Nat}
variable (last : ∃ j, pv.code[M]? = some j ∧ j.code = .match_)

include last in
theorem exits_starAt (one : ∀ o o', F o o' → Exits pv input M L o o')
    (loop : StarAt pv.code F o o') :
    Exits pv input M (fun s e => ∃ k, Power L k s e) o o' := by
  obtain ⟨j, split, body, jmp, rfl⟩ := loop
  refine Exits.star last split ?_
  refine ((one (o + 1) j body).trans (Exits.jmp last jmp)).mono ?_
  rintro s e ⟨q, inL, rfl⟩
  exact inL

include last in
theorem exits_optionAt (one : ∀ o o', F o o' → Exits pv input M L o o')
    (option : OptionAt pv.code F o o') :
    Exits pv input M (fun s e => e = s ∨ L s e) o o' :=
  ((Exits.split last option.1 (one (o + 1) o' option.2) Exits.refl).mono
    fun _ _ either => either.symm)

theorem enters_starAt (one : ∀ o o', F o o' → Enters pv input L o o')
    (loop : StarAt pv.code F o o') :
    Enters pv input (fun s e => ∃ k, Power L k s e) o o' := by
  obtain ⟨j, split, body, jmp, rfl⟩ := loop
  have pass : Enters pv input L o o :=
    Enters.after (fun s => (step_split split).mpr (.inl rfl))
      ((one (o + 1) j body).andThen fun s => (step_jmp jmp).mpr rfl)
  rintro s e ⟨k, run⟩
  exact (Enters.passes pass s e run).tail ((step_split split).mpr (.inr rfl))

theorem enters_optionAt (one : ∀ o o', F o o' → Enters pv input L o o')
    (option : OptionAt pv.code F o o') :
    Enters pv input (fun s e => e = s ∨ L s e) o o' := by
  obtain ⟨split, body⟩ := option
  refine Enters.or (Enters.step ?_) ?_
  · rintro s e rfl
    exact (step_split split).mpr (.inr rfl)
  · exact Enters.after (fun s => (step_split split).mpr (.inl rfl)) (one (o + 1) o' body)

include last in
/-- A run to `match` goes through the code of a tree as the tree allows. -/
theorem frag_exits (t : Node) (wf : t.Wf) :
    ∀ o o', Frag pv.code t o o' → Exits pv input M (Lang pv.cls input t) o o' := by
  have reading {i : Inst} (L : Nat → Nat → Prop) (o o' : Nat) (reads : i.code.reads)
      (here : InstAt pv.code i o o')
      (sem : ∀ s, consumes pv.cls i input[s]? → L s (s + 1)) :
      Exits pv input M L o o' := by
    obtain ⟨here, rfl⟩ := here
    refine Exits.step last here (fun isMatch => by rw [isMatch] at reads; cases reads) ?_
    intro s c' step
    obtain ⟨reads, rfl⟩ := (step_reads here reads).mp step
    exact ⟨s + 1, sem s reads, rfl⟩
  induction t with
  | empty =>
    rintro o o' rfl
    exact Exits.refl
  | char a =>
    intro o o' here
    refine reading _ o o' rfl here fun s reads => ⟨?_, rfl⟩
    cases h : input[s]? with
    | none => simp [consumes, h] at reads
    | some c =>
      have same : c.toNat = a.toNat := by simpa [consumes, h] using reads
      rw [UInt8.toNat_inj.mp same]
  | cls a =>
    intro o o' here
    refine reading _ o o' rfl here fun s reads => ⟨?_, rfl⟩
    cases h : input[s]? with
    | none => simp [consumes, h] at reads
    | some c =>
      cases hr : pv.cls[a]? with
      | none => simp [consumes, h, hr] at reads
      | some r => exact ⟨c, rfl, r, rfl, by simpa [consumes, h, hr] using reads⟩
  | any =>
    intro o o' here
    refine reading _ o o' rfl here fun s reads => ⟨?_, rfl⟩
    cases h : input[s]? with
    | none => simp [consumes, h] at reads
    | some c => exact (List.getElem?_eq_some_iff.mp h).1
  | bol =>
    rintro o o' ⟨here, rfl⟩
    refine Exits.step last here (by simp) fun s c' step => ?_
    obtain ⟨first, rfl⟩ := (step_bol here).mp step
    exact ⟨s, ⟨first, rfl⟩, rfl⟩
  | eol =>
    rintro o o' ⟨here, rfl⟩
    refine Exits.step last here (by simp) fun s c' step => ?_
    obtain ⟨atEnd, rfl⟩ := (step_eol here).mp step
    exact ⟨s, ⟨atEnd, rfl⟩, rfl⟩
  | concat a b iha ihb =>
    rintro o o' ⟨m, first, second⟩
    exact (iha wf.1 o m first).trans (ihb wf.2 m o' second)
  | alt a b iha ihb =>
    rintro o o' ⟨j, split, first, jmp, second⟩
    have left : Exits pv input M (Lang pv.cls input a) (o + 1) o' := by
      refine ((iha wf.1 (o + 1) j first).trans (Exits.jmp last jmp)).mono ?_
      rintro s e ⟨q, inL, rfl⟩
      exact inL
    exact Exits.split last split left (ihb wf.2 (j + 1) o' second)
  | star a ih => exact fun o o' loop => exits_starAt last (ih wf) loop
  | plus a ih =>
    rintro o o' ⟨j, body, split, rfl⟩
    exact Exits.plus last split (ih wf o j body)
  | quest a ih => exact fun o o' option => exits_optionAt last (ih wf) option
  | group a g ih =>
    rintro o o' ⟨j, opening, body, closing, rfl⟩
    refine (((Exits.save last opening).trans (ih wf.1 (o + 1) j body)).trans
      (Exits.save last closing)).mono ?_
    rintro s e ⟨q, ⟨q', rfl, inL⟩, rfl⟩
    exact inL
  | rep a lo hi ih =>
    rintro o o' ⟨m, copies, rest⟩
    have required := Exits.copies (ih wf.1) copies
    by_cases unbounded : hi = kInf
    · rw [if_pos unbounded] at rest
      refine (required.trans (exits_starAt last (ih wf.1) rest)).mono ?_
      rintro s e ⟨q, first, k, more⟩
      exact ⟨lo + k, Nat.le_add_right lo k, .inl unbounded, first.append more⟩
    · rw [if_neg unbounded] at rest
      have optional := Exits.options (fun o o' => exits_optionAt last (ih wf.1)) rest
      refine (required.trans optional).mono ?_
      rintro s e ⟨q, first, k, le, more⟩
      have inOrder : lo ≤ hi := wf.2.1
      exact ⟨lo + k, Nat.le_add_right lo k, .inr (by omega), first.append more⟩

/-- The code of a tree can be run in every way that the tree allows. -/
theorem frag_enters (t : Node) :
    ∀ o o', Frag pv.code t o o' → Enters pv input (Lang pv.cls input t) o o' := by
  have reading {i : Inst} (L : Nat → Nat → Prop) (o o' : Nat) (reads : i.code.reads)
      (here : InstAt pv.code i o o')
      (sem : ∀ s e, L s e → consumes pv.cls i input[s]? ∧ e = s + 1) :
      Enters pv input L o o' := by
    obtain ⟨here, rfl⟩ := here
    refine Enters.step fun s e inL => ?_
    obtain ⟨byte, rfl⟩ := sem s e inL
    exact (step_reads here reads).mpr ⟨byte, rfl⟩
  induction t with
  | empty =>
    rintro o o' rfl s e rfl
    exact Relation.ReflTransGen.refl
  | char a =>
    intro o o' here
    refine reading _ o o' rfl here ?_
    rintro s e ⟨byte, rfl⟩
    exact ⟨by simp [consumes, byte], rfl⟩
  | cls a =>
    intro o o' here
    refine reading _ o o' rfl here ?_
    rintro s e ⟨⟨c, byte, r, table, inside⟩, rfl⟩
    rw [Option.mem_def] at byte table
    exact ⟨by simp [consumes, byte, table, inside], rfl⟩
  | any =>
    intro o o' here
    refine reading _ o o' rfl here ?_
    rintro s e ⟨inside, rfl⟩
    exact ⟨by simp [consumes, List.getElem?_eq_getElem inside], rfl⟩
  | bol =>
    rintro o o' ⟨here, rfl⟩
    refine Enters.step ?_
    rintro s e ⟨first, rfl⟩
    exact (step_bol here).mpr ⟨first, rfl⟩
  | eol =>
    rintro o o' ⟨here, rfl⟩
    refine Enters.step ?_
    rintro s e ⟨atEnd, rfl⟩
    exact (step_eol here).mpr ⟨atEnd, rfl⟩
  | concat a b iha ihb =>
    rintro o o' ⟨m, first, second⟩
    exact (iha o m first).trans (ihb m o' second)
  | alt a b iha ihb =>
    rintro o o' ⟨j, split, first, jmp, second⟩
    refine Enters.or ?_ ?_
    · exact Enters.after (fun s => (step_split split).mpr (.inl rfl))
        ((iha (o + 1) j first).andThen fun s => (step_jmp jmp).mpr rfl)
    · exact Enters.after (fun s => (step_split split).mpr (.inr rfl))
        (ihb (j + 1) o' second)
  | star a ih => exact fun o o' loop => enters_starAt ih loop
  | plus a ih =>
    rintro o o' ⟨j, body, split, rfl⟩ s e ⟨k, positive, run⟩
    obtain ⟨k, rfl⟩ := Nat.exists_eq_add_of_le' positive
    obtain ⟨q, first, rest⟩ := run
    have pass : Enters pv input (Lang pv.cls input a) j j :=
      Enters.after (fun s => (step_split split).mpr (.inl rfl)) (ih o j body)
    have again := Enters.passes pass q e rest
    exact ((ih o j body s q first).trans again).tail ((step_split split).mpr (.inr rfl))
  | quest a ih => exact fun o o' option => enters_optionAt ih option
  | group a g ih =>
    rintro o o' ⟨j, opening, body, closing, rfl⟩
    exact Enters.after (fun s => (step_save opening).mpr rfl)
      ((ih (o + 1) j body).andThen fun s => (step_save closing).mpr rfl)
  | rep a lo hi ih =>
    rintro o o' ⟨m, copies, rest⟩ s e ⟨k, enough, bound, run⟩
    obtain ⟨k, rfl⟩ := Nat.exists_eq_add_of_le enough
    obtain ⟨q, required, more⟩ := run.parts
    refine (Enters.copies ih copies s q required).trans ?_
    by_cases unbounded : hi = kInf
    · rw [if_pos unbounded] at rest
      exact enters_starAt ih rest q e ⟨k, more⟩
    · rw [if_neg unbounded] at rest
      have few : k ≤ hi - lo := by
        omega
      exact Enters.options (fun o o' => enters_optionAt ih) rest q e ⟨k, few, more⟩

end Runs

end Micron.Regex
