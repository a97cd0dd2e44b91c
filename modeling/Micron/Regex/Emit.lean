import Micron.Regex.Compile

/-!
# What the emitter writes

An emitter that has not run out of its buffer has only written behind what was
there, and what it has written for a tree is the code of the tree.
-/

set_option autoImplicit false

namespace Micron.Regex

open Micron.Lib List Nat

/-- A property of the code from `o` up to `o'` that looks nowhere else. -/
structure LocalTo (F : List Inst → Nat → Nat → Prop) : Prop where
  le : ∀ {code o o'}, F code o o' → o ≤ o'
  congr : ∀ {code code' o o'}, F code o o' →
    (∀ k, o ≤ k → k < o' → code'[k]? = code[k]?) → F code' o o'

namespace LocalTo

variable {F G : List Inst → Nat → Nat → Prop}

theorem inst (i : Inst) : LocalTo (fun code => InstAt code i) where
  le here := by
    rw [here.2]
    exact le_succ _
  congr here same := by
    obtain ⟨here, rfl⟩ := here
    exact ⟨(same _ (le_refl _) (lt_succ_self _)).trans here, rfl⟩

theorem seq (first : LocalTo F) (second : LocalTo G) :
    LocalTo (fun code o o' => ∃ m, F code o m ∧ G code m o') where
  le := by
    rintro code o o' ⟨m, here, there⟩
    exact le_trans (first.le here) (second.le there)
  congr := by
    rintro code code' o o' ⟨m, here, there⟩ same
    have below := first.le here
    have above := second.le there
    exact ⟨m, first.congr here fun k l u => same k l (by omega),
      second.congr there fun k l u => same k (by omega) u⟩

theorem copies (one : LocalTo F) (k : Nat) : LocalTo (fun code => Power (F code) k) := by
  induction k with
  | zero => exact ⟨fun here => by rw [power_zero] at here; omega, fun here _ => here⟩
  | succ k ih => exact one.seq ih

theorem starAt (body : LocalTo F) : LocalTo (fun code => StarAt code (F code)) where
  le := by
    rintro code o o' ⟨j, -, inside, -, rfl⟩
    have := body.le inside
    omega
  congr := by
    rintro code code' o o' ⟨j, split, inside, jmp, rfl⟩ same
    have := body.le inside
    exact ⟨j, (same o (by omega) (by omega)).trans split,
      body.congr inside fun k l u => same k (by omega) (by omega),
      (same j (by omega) (by omega)).trans jmp, rfl⟩

theorem optionAt (body : LocalTo F) : LocalTo (fun code => OptionAt code (F code)) where
  le := by
    rintro code o o' ⟨-, inside⟩
    have := body.le inside
    omega
  congr := by
    rintro code code' o o' ⟨split, inside⟩ same
    have := body.le inside
    exact ⟨(same o (by omega) (by omega)).trans split,
      body.congr inside fun k l u => same k (by omega) u⟩

end LocalTo

theorem frag_local (t : Node) : LocalTo (fun code => Frag code t) := by
  induction t with
  | empty => exact ⟨fun here => le_of_eq here.symm, fun here _ => here⟩
  | char a => exact LocalTo.inst _
  | cls a => exact LocalTo.inst _
  | any => exact LocalTo.inst _
  | bol => exact LocalTo.inst _
  | eol => exact LocalTo.inst _
  | concat a b iha ihb => exact iha.seq ihb
  | alt a b iha ihb =>
    refine ⟨?_, ?_⟩
    · rintro code o o' ⟨j, -, first, -, second⟩
      have := iha.le first
      have := ihb.le second
      omega
    · rintro code code' o o' ⟨j, split, first, jmp, second⟩ same
      have := iha.le first
      have := ihb.le second
      exact ⟨j, (same o (by omega) (by omega)).trans split,
        iha.congr first fun k l u => same k (by omega) (by omega),
        (same j (by omega) (by omega)).trans jmp,
        ihb.congr second fun k l u => same k (by omega) u⟩
  | star a ih => exact ih.starAt
  | plus a ih =>
    refine ⟨?_, ?_⟩
    · rintro code o o' ⟨j, body, -, rfl⟩
      have := ih.le body
      omega
    · rintro code code' o o' ⟨j, body, split, rfl⟩ same
      have := ih.le body
      exact ⟨j, ih.congr body fun k l u => same k l (by omega),
        (same j (by omega) (by omega)).trans split, rfl⟩
  | quest a ih => exact ih.optionAt
  | group a g ih =>
    refine ⟨?_, ?_⟩
    · rintro code o o' ⟨j, -, body, -, rfl⟩
      have := ih.le body
      omega
    · rintro code code' o o' ⟨j, opening, body, closing, rfl⟩ same
      have := ih.le body
      exact ⟨j, (same o (by omega) (by omega)).trans opening,
        ih.congr body fun k l u => same k (by omega) (by omega),
        (same j (by omega) (by omega)).trans closing, rfl⟩
  | rep a lo hi ih =>
    by_cases unbounded : hi = kInf
    · simp only [Frag, if_pos unbounded]
      exact (ih.copies lo).seq ih.starAt
    · simp only [Frag, if_neg unbounded]
      exact (ih.copies lo).seq (ih.optionAt.copies (hi - lo))

structure Extends (e e' : Emitter) : Prop where
  ok : e.ok = true
  le : e.ni ≤ e'.ni
  same : ∀ k < e.ni, e'.code[k]? = e.code[k]?

theorem Extends.trans {e e' e'' : Emitter} (first : Extends e e') (second : Extends e' e'') :
    Extends e e'' where
  ok := first.ok
  le := le_trans first.le second.le
  same k below :=
    (second.same k (lt_of_lt_of_le below first.le)).trans (first.same k below)

/-- If all has fitted then `e'` is `e` with `F` behind it. -/
def Emits (F : List Inst → Nat → Nat → Prop) (e e' : Emitter) : Prop :=
  e'.ok = true → e'.ni < 2 ^ 32 → Extends e e' ∧ F e'.code e.ni e'.ni

namespace Emits

open Emitter

variable {F G : List Inst → Nat → Nat → Prop} {e e' e'' : Emitter}

theorem refl (e : Emitter) : Emits (fun _ o o' => o' = o) e e :=
  fun ok _ => ⟨⟨ok, le_refl _, fun _ _ => rfl⟩, rfl⟩

theorem seq (loc : LocalTo F) (first : Emits F e e') (second : Emits G e' e'') :
    Emits (fun code o o' => ∃ m, F code o m ∧ G code m o') e e'' := by
  intro ok small
  obtain ⟨ext₂, here₂⟩ := second ok small
  obtain ⟨ext₁, here₁⟩ := first ext₂.ok (lt_of_le_of_lt ext₂.le small)
  exact ⟨ext₁.trans ext₂, e'.ni, loc.congr here₁ fun k _ u => ext₂.same k u, here₂⟩

theorem mono (sub : ∀ code o o', F code o o' → G code o o') (first : Emits F e e') :
    Emits G e e' := by
  intro ok small
  obtain ⟨ext, here⟩ := first ok small
  exact ⟨ext, sub _ _ _ here⟩

end Emits

namespace Emitter

variable {F : List Inst → Nat → Nat → Prop} {e : Emitter} {body : Emitter → Emitter}

theorem emit_extends {i : Inst} (ok : (e.emit i).2.ok = true) :
    Extends e (e.emit i).2 ∧ InstAt (e.emit i).2.code i e.ni (e.emit i).2.ni := by
  unfold emit at ok ⊢
  split at ok
  · cases ok
  · next room =>
      rw [if_neg room]
      refine ⟨⟨ok, ?_, fun k below => ?_⟩, ?_, ?_⟩
      · simp [ni]
      · exact getElem?_append_left below
      · simp [ni]
      · simp [ni]

theorem emit_emits (e : Emitter) (i : Inst) :
    Emits (fun code => InstAt code i) e (e.emit i).2 :=
  fun ok _ => emit_extends ok

/-- The place that `emit` returns, once it is known to have fitted. -/
theorem emit_place (i : Inst) (ok : (e.emit i).2.ok = true) (small : (e.emit i).2.ni < 2 ^ 32) :
    (e.emit i).1 = e.ni := by
  unfold emit at ok small ⊢
  split at ok
  · cases ok
  · next room =>
      rw [if_neg room] at small ⊢
      simp only [ni, length_append] at small
      exact u32_of_lt (by simp only [ni]; omega)

@[simp] theorem setX_ok (k x : Nat) : (e.setX k x).ok = e.ok := rfl

@[simp] theorem setY_ok (k y : Nat) : (e.setY k y).ok = e.ok := rfl

@[simp] theorem setX_ni (k x : Nat) : (e.setX k x).ni = e.ni := by
  simp [ni, setX]

@[simp] theorem setY_ni (k y : Nat) : (e.setY k y).ni = e.ni := by
  simp [ni, setY]

theorem setX_code (k x j : Nat) :
    (e.setX k x).code[j]? = if k = j then (e.code[j]?).map fun i => { i with x := x }
      else e.code[j]? := by
  simp only [setX, getElem?_modify]
  split <;> simp

theorem setY_code (k y j : Nat) :
    (e.setY k y).code[j]? = if k = j then (e.code[j]?).map fun i => { i with y := y }
      else e.code[j]? := by
  simp only [setY, getElem?_modify]
  split <;> simp

theorem patch_here {k x y : Nat} {c : Op} (here : e.code[k]? = some ⟨c, 0, 0⟩) :
    ((e.setX k x).setY k y).code[k]? = some ⟨c, x, y⟩ := by
  simp [setY_code, setX_code, here]

theorem patch_other {k x y j : Nat} (other : k ≠ j) :
    ((e.setX k x).setY k y).code[j]? = e.code[j]? := by
  simp [setY_code, setX_code, other]

theorem extends_patch {e' : Emitter} {k x y : Nat} (ext : Extends e e') (behind : e.ni ≤ k) :
    Extends e ((e'.setX k x).setY k y) where
  ok := ext.ok
  le := by simpa using ext.le
  same j below := (patch_other (by omega)).trans (ext.same j below)

/-- A split written at the end of `e` and filled in behind the body. -/
theorem option_patch {e₁ e₂ : Emitter} (loc : LocalTo F) (ext₁ : Extends e e₁)
    (split : e₁.code[e.ni]? = some ⟨.split, 0, 0⟩) (next : e₁.ni = e.ni + 1)
    (ext₂ : Extends e₁ e₂) (inside : F e₂.code e₁.ni e₂.ni) :
    Extends e ((e₂.setX e.ni (e.ni + 1)).setY e.ni e₂.ni) ∧
      OptionAt ((e₂.setX e.ni (e.ni + 1)).setY e.ni e₂.ni).code
        (F ((e₂.setX e.ni (e.ni + 1)).setY e.ni e₂.ni).code) e.ni e₂.ni := by
  rw [next] at inside
  refine ⟨extends_patch (ext₁.trans ext₂) (le_refl _), patch_here ?_, ?_⟩
  · exact (ext₂.same e.ni (by omega)).trans split
  · exact loc.congr inside fun k l u => patch_other (by omega)

theorem emitOptional_emits (loc : LocalTo F) (one : ∀ e, Emits F e (body e)) (e : Emitter) :
    Emits (fun code => OptionAt code (F code)) e (emitOptional body e) := by
  intro ok small
  simp only [emitOptional, setX_ok, setY_ok, setX_ni, setY_ni] at ok small ⊢
  obtain ⟨ext₂, inside⟩ := one _ ok small
  have small₁ := lt_of_le_of_lt ext₂.le small
  obtain ⟨ext₁, split, next⟩ := emit_emits e ⟨.split, 0, 0⟩ ext₂.ok small₁
  rw [emit_place _ ext₂.ok small₁, u32_of_lt small₁, u32_of_lt small, next]
  exact option_patch loc ext₁ split next ext₂ inside

theorem emitStar_emits (loc : LocalTo F) (one : ∀ e, Emits F e (body e)) (e : Emitter) :
    Emits (fun code => StarAt code (F code)) e (emitStar body e) := by
  intro ok small
  simp only [emitStar, setX_ok, setY_ok, setX_ni, setY_ni] at ok small ⊢
  obtain ⟨ext₃, jmp, next₃⟩ := emit_emits _ _ ok small
  have small₂ := lt_of_le_of_lt ext₃.le small
  obtain ⟨ext₂, inside⟩ := one _ ext₃.ok small₂
  have small₁ := lt_of_le_of_lt ext₂.le small₂
  obtain ⟨ext₁, split, next₁⟩ := emit_emits e ⟨.split, 0, 0⟩ ext₂.ok small₁
  have place := emit_place _ ext₂.ok small₁
  have le₂ := ext₂.le
  rw [u32_of_lt small₁, u32_of_lt small, next₁, next₃]
  rw [next₁] at inside le₂
  rw [place] at jmp ext₃ ⊢
  refine ⟨extends_patch (ext₁.trans (ext₂.trans ext₃)) (le_refl _),
    (body (e.emit ⟨.split, 0, 0⟩).2).ni, patch_here ?_, ?_, ?_, rfl⟩
  · exact (ext₃.same e.ni (by omega)).trans ((ext₂.same e.ni (by omega)).trans split)
  · refine loc.congr inside fun k l u => ?_
    exact (patch_other (by omega)).trans (ext₃.same k u)
  · exact (patch_other (by omega)).trans jmp

theorem emitTimes_emits (loc : LocalTo F) (one : ∀ e, Emits F e (body e)) (k : Nat) (e : Emitter) :
    Emits (fun code => Power (F code) k) e (emitTimes body k e) := by
  induction k generalizing e with
  | zero => exact (Emits.refl e).mono fun _ _ _ same => same.symm
  | succ k ih =>
    unfold emitTimes
    split
    · exact Emits.seq loc (one e) (ih (body e))
    · next failed => exact fun ok => absurd ok failed

theorem emits_guard {e' : Emitter} (live : Emits F e e') :
    Emits F e (if !e.ok then e else e') := by
  split
  · next failed => exact fun ok => absurd ok (by simpa using failed)
  · exact live

theorem emitNode_emits (t : Node) (wf : t.Wf) (e : Emitter) :
    Emits (fun code => Frag code t) e (emitNode t e) := by
  induction t generalizing e with
  | empty => exact emits_guard (Emits.refl e)
  | char a => exact emits_guard (emit_emits e _)
  | cls a => exact emits_guard (emit_emits e _)
  | any => exact emits_guard (emit_emits e _)
  | bol => exact emits_guard (emit_emits e _)
  | eol => exact emits_guard (emit_emits e _)
  | concat a b iha ihb =>
    exact emits_guard (Emits.seq (frag_local a) (iha wf.1 e) (ihb wf.2 _))
  | alt a b iha ihb =>
    refine emits_guard fun ok small => ?_
    simp only [setX_ok, setY_ok, setX_ni, setY_ni] at ok small ⊢
    obtain ⟨ext₄, second⟩ := ihb wf.2 _ ok small
    have small₃ := lt_of_le_of_lt ext₄.le small
    obtain ⟨ext₃, jmp, next₃⟩ := emit_emits _ _ ext₄.ok small₃
    have small₂ := lt_of_le_of_lt ext₃.le small₃
    obtain ⟨ext₂, first⟩ := iha wf.1 _ ext₃.ok small₂
    have small₁ := lt_of_le_of_lt ext₂.le small₂
    obtain ⟨ext₁, split, next₁⟩ := emit_emits e ⟨.split, 0, 0⟩ ext₂.ok small₁
    have place₁ := emit_place _ ext₂.ok small₁
    have place₃ := emit_place _ ext₄.ok small₃
    have le₂ := ext₂.le
    have le₄ := ext₄.le
    rw [place₁, place₃, ← next₁, u32_of_lt small₁, u32_of_lt small₃, u32_of_lt small, next₁, next₃]
    rw [next₁] at first le₂
    rw [next₃] at second le₄
    -- the jump and the split lie on either side of the first alternative
    refine ⟨⟨ext₁.ok, ?_, fun k below => ?_⟩, (emitNode a (e.emit ⟨.split, 0, 0⟩).2).ni,
      ?_, ?_, ?_, ?_⟩
    · rw [setX_ni, setY_ni, setX_ni]
      omega
    · rw [setX_code, if_neg (by omega), patch_other (by omega), ext₄.same k (by omega),
        ext₃.same k (by omega), ext₂.same k (by omega), ext₁.same k below]
    · rw [setX_code, if_neg (by omega)]
      refine patch_here ?_
      rw [ext₄.same _ (by omega), ext₃.same _ (by omega), ext₂.same _ (by omega), split]
    · refine (frag_local a).congr first fun k l u => ?_
      rw [setX_code, if_neg (by omega), patch_other (by omega), ext₄.same k (by omega),
        ext₃.same k u]
    · rw [setX_code, if_pos rfl, patch_other (by omega), ext₄.same _ (by omega), jmp,
        Option.map_some]
    · refine (frag_local b).congr second fun k l u => ?_
      rw [setX_code, if_neg (by omega), patch_other (by omega)]
  | star a ih =>
    exact emits_guard (emitStar_emits (frag_local a) (ih wf) e)
  | plus a ih =>
    refine emits_guard fun ok small => ?_
    simp only [setX_ok, setY_ok, setX_ni, setY_ni] at ok small ⊢
    obtain ⟨ext₂, split, next⟩ := emit_emits _ _ ok small
    have small₁ := lt_of_le_of_lt ext₂.le small
    obtain ⟨ext₁, body⟩ := ih wf e ext₂.ok small₁
    have small₀ := lt_of_le_of_lt ext₁.le small₁
    rw [emit_place _ ok small, u32_of_lt small₀, u32_of_lt small, next]
    refine ⟨extends_patch (ext₁.trans ext₂) ext₁.le, (emitNode a e).ni, ?_, patch_here split, rfl⟩
    refine (frag_local a).congr body fun k _ u => ?_
    exact (patch_other (by omega)).trans (ext₂.same k u)
  | quest a ih =>
    refine emits_guard fun ok small => ?_
    simp only [setX_ok, setY_ok, setX_ni, setY_ni] at ok small ⊢
    obtain ⟨ext₂, inside⟩ := ih wf _ ok small
    have small₁ := lt_of_le_of_lt ext₂.le small
    obtain ⟨ext₁, split, next⟩ := emit_emits e ⟨.split, 0, 0⟩ ext₂.ok small₁
    rw [emit_place _ ext₂.ok small₁, ← next, u32_of_lt small₁, u32_of_lt small, next]
    exact option_patch (frag_local a) ext₁ split next ext₂ inside
  | group a g ih =>
    refine emits_guard ?_
    rw [u32_of_lt (by have := wf.2.2; omega), u32_of_lt wf.2.2]
    refine (Emits.seq (LocalTo.inst _) (emit_emits e _)
      (Emits.seq (frag_local a) (ih wf.1 _) (emit_emits _ _))).mono ?_
    rintro code o o' ⟨m, ⟨opening, rfl⟩, j, body, closing, rfl⟩
    exact ⟨j, opening, body, closing, rfl⟩
  | rep a lo hi ih =>
    refine emits_guard ?_
    have required := emitTimes_emits (frag_local a) (ih wf.1) lo e
    by_cases unbounded : hi = kInf
    · simp only [Frag, if_pos unbounded]
      exact required.seq ((frag_local a).copies lo) (emitStar_emits (frag_local a) (ih wf.1) _)
    · simp only [Frag, if_neg unbounded]
      exact required.seq ((frag_local a).copies lo)
        (emitTimes_emits (frag_local a).optionAt (emitOptional_emits (frag_local a) (ih wf.1)) _ _)

end Emitter

/-!
## The shape of a compiled program

Jumps inside the code of a tree stay inside it or go to its end, and its slots are
not those of the whole match.  So a program writes the start of a match at its first
instruction only and the end of it right before `match`.
-/

/-- An instruction of the code from `o` up to `o'`. -/
def Inst.Inner (i : Inst) (o o' : Nat) : Prop :=
  match i.code with
  | .match_ => False
  | .jmp => o ≤ i.x ∧ i.x ≤ o'
  | .split => (o ≤ i.x ∧ i.x ≤ o') ∧ o ≤ i.y ∧ i.y ≤ o'
  | .save => 2 ≤ i.x
  | .char => i.x < 2 ^ 8
  | .cls | .any | .bol | .eol => True

theorem Inst.Inner.mono {i : Inst} {o o' q q' : Nat} (inner : i.Inner o o') (low : q ≤ o)
    (high : o' ≤ q') : i.Inner q q' := by
  unfold Inst.Inner at inner ⊢
  cases h : i.code <;> simp only [h] at inner ⊢ <;> omega

structure Sealed (code : List Inst) (o o' : Nat) : Prop where
  le : o ≤ o'
  inner : ∀ k, o ≤ k → k < o' → ∃ i, code[k]? = some i ∧ i.Inner o o'

namespace Sealed

variable {code : List Inst} {F : Nat → Nat → Prop} {o m o' : Nat}

theorem refl : Sealed code o o := ⟨le_refl o, fun k l u => by omega⟩

theorem one {i : Inst} (here : code[o]? = some i) (inner : i.Inner o (o + 1)) :
    Sealed code o (o + 1) := by
  refine ⟨le_succ o, fun k l u => ?_⟩
  obtain rfl : k = o := by omega
  exact ⟨i, here, inner⟩

/-- A stretch inside a larger one, where instruction by instruction it may jump
further. -/
theorem widen {q q' : Nat} (inside : Sealed code o o') (low : q ≤ o) (high : o' ≤ q') (k : Nat)
    (l : o ≤ k) (u : k < o') : ∃ i, code[k]? = some i ∧ i.Inner q q' := by
  obtain ⟨i, here, inner⟩ := inside.inner k l u
  exact ⟨i, here, inner.mono low high⟩

theorem seq (first : Sealed code o m) (second : Sealed code m o') : Sealed code o o' := by
  have le₁ := first.le
  have le₂ := second.le
  refine ⟨by omega, fun k l u => ?_⟩
  by_cases before : k < m
  · exact first.widen (le_refl o) le₂ k l before
  · exact second.widen le₁ (le_refl o') k (by omega) u

theorem cons {i : Inst} (here : code[o]? = some i) (inner : i.Inner o o')
    (body : Sealed code (o + 1) o') : Sealed code o o' := by
  have le := body.le
  refine ⟨by omega, fun k l u => ?_⟩
  by_cases head : k = o
  · exact ⟨i, head ▸ here, inner⟩
  · exact body.widen (le_succ o) (le_refl o') k (by omega) u

theorem snoc {i : Inst} (body : Sealed code o m) (here : code[m]? = some i)
    (inner : i.Inner o (m + 1)) : Sealed code o (m + 1) := by
  have le := body.le
  refine ⟨by omega, fun k l u => ?_⟩
  by_cases tail : k = m
  · exact ⟨i, tail ▸ here, inner⟩
  · exact body.widen (le_refl o) (le_succ m) k l (by omega)

theorem wrap {i j : Inst} (opening : code[o]? = some i) (body : Sealed code (o + 1) m)
    (closing : code[m]? = some j) (innerI : i.Inner o (m + 1)) (innerJ : j.Inner o (m + 1)) :
    Sealed code o (m + 1) := by
  have le := body.le
  refine ⟨by omega, fun k l u => ?_⟩
  by_cases head : k = o
  · exact ⟨i, head ▸ opening, innerI⟩
  by_cases tail : k = m
  · exact ⟨j, tail ▸ closing, innerJ⟩
  · exact body.widen (le_succ o) (le_succ m) k (by omega) (by omega)

theorem starAt (one : ∀ o o', F o o' → Sealed code o o') (loop : StarAt code F o o') :
    Sealed code o o' := by
  obtain ⟨j, split, body, jmp, rfl⟩ := loop
  have le := (one _ _ body).le
  refine wrap split (one _ _ body) jmp ?_ ?_ <;> simp only [Inst.Inner] <;> omega

theorem optionAt (one : ∀ o o', F o o' → Sealed code o o') (option : OptionAt code F o o') :
    Sealed code o o' := by
  have le := (one _ _ option.2).le
  refine cons option.1 ?_ (one _ _ option.2)
  simp only [Inst.Inner]
  omega

theorem copies {k : Nat} (one : ∀ o o', F o o' → Sealed code o o') (copies : Power F k o o') :
    Sealed code o o' := by
  induction k generalizing o with
  | zero =>
    subst copies
    exact refl
  | succ k ih =>
    obtain ⟨m, first, rest⟩ := copies
    exact (one o m first).seq (ih rest)

end Sealed

theorem frag_sealed {code : List Inst} (t : Node) (wf : t.Wf) :
    ∀ o o', Frag code t o o' → Sealed code o o' := by
  induction t with
  | empty =>
    rintro o o' rfl
    exact Sealed.refl
  | char a =>
    rintro o o' ⟨here, rfl⟩
    exact Sealed.one here a.toNat_lt
  | cls a | any | bol | eol =>
    rintro o o' ⟨here, rfl⟩
    exact Sealed.one here trivial
  | concat a b iha ihb =>
    rintro o o' ⟨m, first, second⟩
    exact (iha wf.1 o m first).seq (ihb wf.2 m o' second)
  | alt a b iha ihb =>
    rintro o o' ⟨j, split, first, jmp, second⟩
    have left := iha wf.1 (o + 1) j first
    have right := ihb wf.2 (j + 1) o' second
    have le₁ := left.le
    have le₂ := right.le
    refine ⟨by omega, fun k l u => ?_⟩
    by_cases head : k = o
    · refine ⟨_, head ▸ split, ?_⟩
      simp only [Inst.Inner]
      omega
    by_cases middle : k = j
    · refine ⟨_, middle ▸ jmp, ?_⟩
      simp only [Inst.Inner]
      omega
    by_cases before : k < j
    · exact left.widen (by omega) (by omega) k (by omega) before
    · exact right.widen (by omega) (by omega) k (by omega) u
  | star a ih => exact fun o o' loop => Sealed.starAt (ih wf) loop
  | plus a ih =>
    rintro o o' ⟨j, body, split, rfl⟩
    have inside := ih wf o j body
    have le := inside.le
    refine inside.snoc split ?_
    simp only [Inst.Inner]
    omega
  | quest a ih => exact fun o o' option => Sealed.optionAt (ih wf) option
  | group a g ih =>
    rintro o o' ⟨j, opening, body, closing, rfl⟩
    have numbered : 1 ≤ g := wf.2.1
    refine Sealed.wrap opening (ih wf.1 _ _ body) closing ?_ ?_ <;>
      simp only [Inst.Inner] <;> omega
  | rep a lo hi ih =>
    rintro o o' ⟨m, copies, rest⟩
    refine (Sealed.copies (ih wf.1) copies).seq ?_
    by_cases unbounded : hi = kInf
    · rw [if_pos unbounded] at rest
      exact Sealed.starAt (ih wf.1) rest
    · rw [if_neg unbounded] at rest
      exact Sealed.copies (fun o o' => Sealed.optionAt (ih wf.1)) rest

/-- The program of a tree, with `match` as instruction `m + 1`. -/
structure Compiled (code : List Inst) (root : Node) (m : Nat) : Prop where
  wf : root.Wf
  size : code.length = m + 2
  opening : code[0]? = some ⟨.save, 0, 0⟩
  body : Frag code root 1 m
  closing : code[m]? = some ⟨.save, 1, 0⟩
  last : code[m + 1]? = some ⟨.match_, 0, 0⟩

theorem compileNode_compiled {maxi : Nat} {root : Node} {code : List Inst} (wf : root.Wf)
    (compiles : compileNode maxi root = some code) (fits : code.length ≤ 2 ^ 32) :
    ∃ m, Compiled code root m := by
  simp only [compileNode] at compiles
  split at compiles
  · next ok =>
      obtain rfl := Option.some.inj compiles
      unfold Emitter.emitProgram at ok fits ⊢
      simp only at ok fits ⊢
      obtain ⟨ext₄, last, size⟩ := Emitter.emit_extends ok
      obtain ⟨ext₃, closing, next₃⟩ := Emitter.emit_extends ext₄.ok
      have small : (Emitter.emitNode root (Emitter.emit ⟨[], maxi, true⟩ ⟨.save, 0, 0⟩).2).ni
          < 2 ^ 32 := by
        simp only [Emitter.ni] at size next₃ ⊢
        omega
      obtain ⟨ext₂, body⟩ := Emitter.emitNode_emits root wf _ ext₃.ok small
      obtain ⟨-, opening, next₁⟩ := Emitter.emit_extends ext₂.ok
      have le₂ := ext₂.le
      rw [next₁] at body le₂
      rw [next₃] at last size
      refine ⟨_, wf, size, ?_, ?_, ?_, last⟩
      · rw [ext₄.same 0 (by omega), ext₃.same 0 (by omega), ext₂.same 0 (by omega)]
        exact opening
      · refine (frag_local root).congr body fun k l u => ?_
        rw [ext₄.same k (by omega), ext₃.same k u]
      · rw [ext₄.same _ (by omega), closing]
  · cases compiles

namespace Compiled

variable {pv : ProgView} {input : List UInt8} {root : Node} {m : Nat}

/-- Runs from the first instruction to `match` are the matches of the tree. -/
theorem lang_iff (prog : Compiled pv.code root m) (s e : Nat) :
    Lang pv.cls input root s e ↔
      Relation.ReflTransGen (Step pv input) (0, s) (m + 1, e) := by
  have last : ∃ j, pv.code[m + 1]? = some j ∧ j.code = .match_ := ⟨_, prog.last, rfl⟩
  refine ⟨fun inL => ?_, fun run => ?_⟩
  · have through := frag_enters root 1 m prog.body s e inL
    exact (through.head ((step_save prog.opening).mpr rfl)).tail ((step_save prog.closing).mpr rfl)
  · obtain ⟨k, run⟩ := exists_power run
    have through : Exits pv input (m + 1) (Lang pv.cls input root) 0 (m + 1) := by
      refine (((Exits.save last prog.opening).trans
        (frag_exits last root prog.wf 1 m prog.body)).trans (Exits.save last prog.closing)).mono ?_
      rintro s e ⟨q, ⟨q', rfl, inL⟩, rfl⟩
      exact inL
    obtain ⟨k', -, e', inL, rest⟩ := through k s e run
    cases k' with
    | zero =>
      rw [power_zero, Prod.mk.injEq] at rest
      exact rest.2 ▸ inL
    | succ k' =>
      obtain ⟨c', step, -⟩ := rest
      cases h' : input[e']? <;> simp [Step, epsilon, prog.last, consumes, h'] at step

theorem one_le (prog : Compiled pv.code root m) : 1 ≤ m :=
  (frag_local root).le prog.body

theorem inst_cases (prog : Compiled pv.code root m) {pc : Nat} {i : Inst}
    (here : pv.code[pc]? = some i) :
    (pc = 0 ∧ i = ⟨.save, 0, 0⟩) ∨ (1 ≤ pc ∧ pc < m ∧ i.Inner 1 m) ∨
      (pc = m ∧ i = ⟨.save, 1, 0⟩) ∨ (pc = m + 1 ∧ i = ⟨.match_, 0, 0⟩) := by
  have inside : pc < m + 2 := prog.size ▸ (List.getElem?_eq_some_iff.mp here).1
  by_cases first : pc = 0
  · subst first
    exact .inl ⟨rfl, Option.some.inj (here.symm.trans prog.opening)⟩
  by_cases closing : pc = m
  · subst closing
    exact .inr (.inr (.inl ⟨rfl, Option.some.inj (here.symm.trans prog.closing)⟩))
  by_cases last : pc = m + 1
  · subst last
    exact .inr (.inr (.inr ⟨rfl, Option.some.inj (here.symm.trans prog.last)⟩))
  · obtain ⟨j, there, inner⟩ := (frag_sealed root prog.wf 1 m prog.body).inner pc (by omega) (by omega)
    obtain rfl := Option.some.inj (here.symm.trans there)
    exact .inr (.inl ⟨by omega, by omega, inner⟩)

end Compiled

end Micron.Regex
