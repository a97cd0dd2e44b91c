import Micron.Lib.RelPower
import Micron.Regex.Program

/-!
# Languages and runs of a program

`Lang` is what a tree means: the pairs of offsets it matches between.  `Step` is one
move of a program, of the counter and of the offset in the input.  `Frag` says that
a stretch of code is the code of a tree; a run through such a stretch moves the
offset as the tree allows, and in every way it allows.
-/

set_option autoImplicit false

namespace Micron.Regex

open Micron.Lib Nat

/-- The tree matches the input from offset `s` up to offset `e`. -/
def Lang (cls : List Charreach) (input : List UInt8) : Node → Nat → Nat → Prop
  | .empty, s, e => e = s
  | .char a, s, e => input[s]? = some a ∧ e = s + 1
  | .cls k, s, e => (∃ c ∈ input[s]?, ∃ r ∈ cls[k]?, r.test c) ∧ e = s + 1
  | .any, s, e => s < input.length ∧ e = s + 1
  | .concat a b, s, e => ∃ m, Lang cls input a s m ∧ Lang cls input b m e
  | .alt a b, s, e => Lang cls input a s e ∨ Lang cls input b s e
  | .star a, s, e => ∃ k, Power (Lang cls input a) k s e
  | .plus a, s, e => ∃ k, 1 ≤ k ∧ Power (Lang cls input a) k s e
  | .quest a, s, e => e = s ∨ Lang cls input a s e
  | .rep a lo hi, s, e =>
    ∃ k, lo ≤ k ∧ (hi = kInf ∨ k ≤ hi) ∧ Power (Lang cls input a) k s e
  | .group a _, s, e => Lang cls input a s e
  | .bol, s, e => s = 0 ∧ e = s
  | .eol, s, e => s = input.length ∧ e = s

/-- Where an instruction leads at offset `p` without reading. -/
def epsilon (code : List Inst) (n p pc : Nat) : List Nat :=
  match code[pc]? with
  | none => []
  | some i =>
    match i.code with
    | .jmp => [i.x]
    | .split => [i.x, i.y]
    | .save => [pc + 1]
    | .bol => if p = 0 then [pc + 1] else []
    | .eol => if p = n then [pc + 1] else []
    | .char | .cls | .any | .match_ => []

def Step (pv : ProgView) (input : List UInt8) (c c' : Nat × Nat) : Prop :=
  (c'.1 ∈ epsilon pv.code input.length c.2 c.1 ∧ c'.2 = c.2) ∨
    ∃ i, pv.code[c.1]? = some i ∧ consumes pv.cls i input[c.2]? ∧ c' = (c.1 + 1, c.2 + 1)

variable {pv : ProgView} {input : List UInt8} {o o' s p M k : Nat} {c' : Nat × Nat}

theorem step_jmp {x y : Nat} (here : pv.code[o]? = some ⟨.jmp, x, y⟩) :
    Step pv input (o, p) c' ↔ c' = (x, p) := by
  obtain ⟨q, p'⟩ := c'
  cases h : input[p]? <;> simp [Step, epsilon, here, consumes, h]

theorem step_split {x y : Nat} (here : pv.code[o]? = some ⟨.split, x, y⟩) :
    Step pv input (o, p) c' ↔ c' = (x, p) ∨ c' = (y, p) := by
  obtain ⟨q, p'⟩ := c'
  cases h : input[p]? <;> simp [Step, epsilon, here, consumes, h, or_and_right]

theorem step_save {x y : Nat} (here : pv.code[o]? = some ⟨.save, x, y⟩) :
    Step pv input (o, p) c' ↔ c' = (o + 1, p) := by
  obtain ⟨q, p'⟩ := c'
  cases h : input[p]? <;> simp [Step, epsilon, here, consumes, h]

theorem step_bol {x y : Nat} (here : pv.code[o]? = some ⟨.bol, x, y⟩) :
    Step pv input (o, p) c' ↔ p = 0 ∧ c' = (o + 1, p) := by
  obtain ⟨q, p'⟩ := c'
  by_cases first : p = 0 <;> cases h : input[p]? <;>
    simp_all [Step, epsilon, consumes]

theorem step_eol {x y : Nat} (here : pv.code[o]? = some ⟨.eol, x, y⟩) :
    Step pv input (o, p) c' ↔ p = input.length ∧ c' = (o + 1, p) := by
  obtain ⟨q, p'⟩ := c'
  by_cases last : p = input.length <;> cases h : input[p]? <;>
    simp_all [Step, epsilon, consumes]

def Op.reads : Op → Bool
  | .char | .cls | .any => true
  | _ => false

theorem step_reads {i : Inst} (here : pv.code[o]? = some i) (reads : i.code.reads) :
    Step pv input (o, p) c' ↔ consumes pv.cls i input[p]? ∧ c' = (o + 1, p + 1) := by
  have none : epsilon pv.code input.length p o = [] := by
    unfold epsilon
    cases h : i.code <;> simp_all [Op.reads]
  simp [Step, none, here]

/-- Runs to `match` from `o` on first go from `o` to `o'` as `L` allows. -/
def Exits (pv : ProgView) (input : List UInt8) (M : Nat) (L : Nat → Nat → Prop) (o o' : Nat) :
    Prop :=
  ∀ k s e, Power (Step pv input) k (o, s) (M, e) →
    ∃ k' ≤ k, ∃ e', L s e' ∧ Power (Step pv input) k' (o', e') (M, e)

/-- Every way that `L` allows is a run from `o` to `o'`. -/
def Enters (pv : ProgView) (input : List UInt8) (L : Nat → Nat → Prop) (o o' : Nat) : Prop :=
  ∀ s e, L s e → Relation.ReflTransGen (Step pv input) (o, s) (o', e)

/-- A run to `match` from another instruction takes a step. -/
theorem exists_step {i : Inst} {e : Nat} (last : ∃ j, pv.code[M]? = some j ∧ j.code = .match_)
    (here : pv.code[o]? = some i) (other : i.code ≠ .match_)
    (run : Power (Step pv input) k (o, s) (M, e)) :
    ∃ l c', k = l + 1 ∧ Step pv input (o, s) c' ∧ Power (Step pv input) l c' (M, e) := by
  cases k with
  | zero =>
    rw [power_zero, Prod.mk.injEq] at run
    obtain ⟨j, atM, isMatch⟩ := last
    rw [← run.1, here] at atM
    cases atM
    exact absurd isMatch other
  | succ l =>
    obtain ⟨c', step, more⟩ := run
    exact ⟨l, c', rfl, step, more⟩

section Exits

variable {L L' : Nat → Nat → Prop} {x y m : Nat}
variable (last : ∃ j, pv.code[M]? = some j ∧ j.code = .match_)

theorem Exits.mono (sub : ∀ s e, L s e → L' s e) (ex : Exits pv input M L o o') :
    Exits pv input M L' o o' := by
  intro k s e run
  obtain ⟨k', le, e', inL, more⟩ := ex k s e run
  exact ⟨k', le, e', sub s e' inL, more⟩

theorem Exits.refl : Exits pv input M (fun s e => e = s) o o :=
  fun k s _ run => ⟨k, le_refl _, s, rfl, run⟩

theorem Exits.trans (first : Exits pv input M L o m) (second : Exits pv input M L' m o') :
    Exits pv input M (fun s e => ∃ q, L s q ∧ L' q e) o o' := by
  intro k s e run
  obtain ⟨k₁, le₁, e₁, in₁, run₁⟩ := first k s e run
  obtain ⟨k₂, le₂, e₂, in₂, run₂⟩ := second k₁ e₁ e run₁
  exact ⟨k₂, le_trans le₂ le₁, e₂, ⟨e₁, in₁, in₂⟩, run₂⟩

include last

theorem Exits.step {i : Inst} (here : pv.code[o]? = some i) (other : i.code ≠ .match_)
    (steps : ∀ s c', Step pv input (o, s) c' → ∃ e, L s e ∧ c' = (o', e)) :
    Exits pv input M L o o' := by
  intro k s e run
  obtain ⟨l, c', rfl, step, more⟩ := exists_step last here other run
  obtain ⟨e', inL, rfl⟩ := steps s c' step
  exact ⟨l, le_succ l, e', inL, more⟩

theorem Exits.jmp (here : pv.code[o]? = some ⟨.jmp, x, y⟩) :
    Exits pv input M (fun s e => e = s) o x := by
  refine Exits.step last here (by simp) fun s c' step => ?_
  exact ⟨s, rfl, (step_jmp here).mp step⟩

theorem Exits.save (here : pv.code[o]? = some ⟨.save, x, y⟩) :
    Exits pv input M (fun s e => e = s) o (o + 1) := by
  refine Exits.step last here (by simp) fun s c' step => ?_
  exact ⟨s, rfl, (step_save here).mp step⟩

theorem Exits.split (here : pv.code[o]? = some ⟨.split, x, y⟩)
    (left : Exits pv input M L x o') (right : Exits pv input M L' y o') :
    Exits pv input M (fun s e => L s e ∨ L' s e) o o' := by
  intro k s e run
  obtain ⟨l, c', rfl, step, more⟩ := exists_step last here (by simp) run
  rcases (step_split here).mp step with rfl | rfl
  · obtain ⟨k', le, e', inL, rest⟩ := left l s e more
    exact ⟨k', le_succ_of_le le, e', .inl inL, rest⟩
  · obtain ⟨k', le, e', inL, rest⟩ := right l s e more
    exact ⟨k', le_succ_of_le le, e', .inr inL, rest⟩

/-- A loop, by induction on the steps that are left: an empty pass through the body
still takes steps. -/
theorem Exits.star (here : pv.code[o]? = some ⟨.split, x, o'⟩)
    (body : Exits pv input M L x o) :
    Exits pv input M (fun s e => ∃ k, Power L k s e) o o' := by
  intro k
  induction k using Nat.strongRecOn with
  | _ k ih =>
    intro s e run
    obtain ⟨l, c', rfl, step, more⟩ := exists_step last here (by simp) run
    rcases (step_split here).mp step with rfl | rfl
    · obtain ⟨k₁, le₁, e₁, in₁, run₁⟩ := body l s e more
      obtain ⟨k₂, le₂, e₂, ⟨q, in₂⟩, run₂⟩ := ih k₁ (by omega) e₁ e run₁
      exact ⟨k₂, by omega, e₂, ⟨q + 1, e₁, in₁, in₂⟩, run₂⟩
    · exact ⟨l, le_succ l, s, ⟨0, rfl⟩, more⟩

theorem Exits.plus (here : pv.code[m]? = some ⟨.split, o, m + 1⟩)
    (body : Exits pv input M L o m) :
    Exits pv input M (fun s e => ∃ k, 1 ≤ k ∧ Power L k s e) o (m + 1) := by
  have again : Exits pv input M (fun s e => ∃ k, Power L k s e) m (m + 1) :=
    Exits.star last here body
  refine (body.trans again).mono ?_
  rintro s e ⟨q, one, k, more⟩
  exact ⟨k + 1, le_add_left 1 k, q, one, more⟩

end Exits

theorem Exits.copies {L : Nat → Nat → Prop} {F : Nat → Nat → Prop}
    (one : ∀ o o', F o o' → Exits pv input M L o o') (copies : Power F k o o') :
    Exits pv input M (Power L k) o o' := by
  induction k generalizing o with
  | zero =>
    subst copies
    exact Exits.refl.mono fun s e same => same.symm
  | succ k ih =>
    obtain ⟨m, first, rest⟩ := copies
    exact (one o m first).trans (ih rest)

theorem Exits.options {L : Nat → Nat → Prop} {F : Nat → Nat → Prop}
    (one : ∀ o o', F o o' → Exits pv input M (fun s e => e = s ∨ L s e) o o')
    (copies : Power F k o o') :
    Exits pv input M (fun s e => ∃ j ≤ k, Power L j s e) o o' := by
  refine (Exits.copies one copies).mono fun s e run => ?_
  clear copies
  induction k generalizing s with
  | zero => exact ⟨0, le_refl _, run⟩
  | succ k ih =>
    obtain ⟨q, first, rest⟩ := run
    obtain ⟨j, le, more⟩ := ih q rest
    rcases first with rfl | taken
    · exact ⟨j, by omega, more⟩
    · exact ⟨j + 1, by omega, q, taken, more⟩

section Enters

variable {L L' : Nat → Nat → Prop} {x y m : Nat}

theorem Enters.step (steps : ∀ s e, L s e → Step pv input (o, s) (o', e)) :
    Enters pv input L o o' :=
  fun s e inL => Relation.ReflTransGen.single (steps s e inL)

theorem Enters.trans (first : Enters pv input L o m) (second : Enters pv input L' m o') :
    Enters pv input (fun s e => ∃ q, L s q ∧ L' q e) o o' := by
  rintro s e ⟨q, in₁, in₂⟩
  exact (first s q in₁).trans (second q e in₂)

theorem Enters.or (first : Enters pv input L o o') (second : Enters pv input L' o o') :
    Enters pv input (fun s e => L s e ∨ L' s e) o o' :=
  fun s e either => either.elim (first s e) (second s e)

theorem Enters.after (steps : ∀ s, Step pv input (o, s) (m, s)) (more : Enters pv input L m o') :
    Enters pv input L o o' :=
  fun s e inL => (more s e inL).head (steps s)

theorem Enters.andThen (first : Enters pv input L o m) (steps : ∀ s, Step pv input (m, s) (o', s)) :
    Enters pv input L o o' :=
  fun s e inL => (first s e inL).tail (steps e)

/-- Any number of passes through a loop, ending at its head. -/
theorem Enters.passes (pass : Enters pv input L o o) : Enters pv input (Power L k) o o := by
  induction k with
  | zero =>
    rintro s e rfl
    exact Relation.ReflTransGen.refl
  | succ k ih =>
    rintro s e ⟨q, first, rest⟩
    exact (pass s q first).trans (ih q e rest)

theorem Enters.copies {F : Nat → Nat → Prop} (one : ∀ o o', F o o' → Enters pv input L o o')
    (copies : Power F k o o') : Enters pv input (Power L k) o o' := by
  induction k generalizing o with
  | zero =>
    subst copies
    rintro s e rfl
    exact Relation.ReflTransGen.refl
  | succ k ih =>
    obtain ⟨m, first, rest⟩ := copies
    rintro s e ⟨q, inFirst, inRest⟩
    exact (one o m first s q inFirst).trans (ih rest q e inRest)

/-- Optional copies: the first of them are taken and the others left out. -/
theorem Enters.options {F : Nat → Nat → Prop}
    (one : ∀ o o', F o o' → Enters pv input (fun s e => e = s ∨ L s e) o o')
    (copies : Power F k o o') :
    Enters pv input (fun s e => ∃ j ≤ k, Power L j s e) o o' := by
  rintro s e ⟨j, le, run⟩
  refine Enters.copies one copies s e ?_
  clear copies
  induction k generalizing s j with
  | zero =>
    obtain rfl : j = 0 := by omega
    exact run
  | succ k ih =>
    cases j with
    | zero => exact ⟨s, .inl rfl, ih s 0 (zero_le k) run⟩
    | succ j =>
      obtain ⟨q, first, rest⟩ := run
      exact ⟨q, .inr first, ih q j (by omega) rest⟩

end Enters

end Micron.Regex
