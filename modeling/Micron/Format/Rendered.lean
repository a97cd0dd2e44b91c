import Micron.Format.Engine

/-!
# When a template is rendered completely

What is written differs from what a template stands for in two ways: a string is cut at the
end of its buffer, and an index is taken modulo the word.
-/

set_option autoImplicit false

namespace Micron.Format

open Micron.Lib Micron.Chars List

def selections (next : Nat) : List Piece → List (Nat × Spec)
  | [] => []
  | .field f :: rest => (f.selected next, f.toSpec) :: selections (f.selected next + 1) rest
  | .char _ _ :: rest => selections next rest
  | .opening :: rest => selections next rest
  | .closing :: rest => selections next rest
  | .stray :: rest => selections next rest

section
variable {first second : Nat → Spec → List Char}

theorem length_segments_le (pieces : List Piece) (next : Nat)
    (le : ∀ p ∈ selections next pieces, (first p.1 p.2).length ≤ (second p.1 p.2).length) :
    (segments first next pieces).flatten.length ≤ (segments second next pieces).flatten.length := by
  induction pieces generalizing next with
  | nil => exact le_refl _
  | cons p rest ih =>
    cases p with
    | field f =>
      rw [selections, forall_mem_cons] at le
      have tail := ih _ le.2
      rw [segments, segments, flatten_cons, flatten_cons, length_append,
        length_append]
      exact add_le_add le.1 tail
    | _ =>
      have tail := ih next le
      rw [segments, segments, flatten_cons, flatten_cons, length_append,
        length_append]
      exact Nat.add_le_add_left tail _

/-- Where no field is longer one way than the other, two renderings agree only field by
field. -/
theorem flatten_segments_iff (pieces : List Piece) (next : Nat)
    (le : ∀ p ∈ selections next pieces, (first p.1 p.2).length ≤ (second p.1 p.2).length) :
    (segments first next pieces).flatten = (segments second next pieces).flatten ↔
      ∀ p ∈ selections next pieces, first p.1 p.2 = second p.1 p.2 := by
  induction pieces generalizing next with
  | nil => exact ⟨fun _ _ member => absurd member not_mem_nil, fun _ => rfl⟩
  | cons p rest ih =>
    cases p with
    | field f =>
      rw [selections] at le ⊢
      rw [forall_mem_cons] at le ⊢
      rw [← ih _ le.2, segments, segments, flatten_cons, flatten_cons]
      refine ⟨fun same => ?_, fun both => by rw [both.1, both.2]⟩
      have lengths := congrArg List.length same
      rw [length_append, length_append] at lengths
      have tails := length_segments_le rest _ le.2
      have heads : (first (f.selected next) f.toSpec).length ≤
          (second (f.selected next) f.toSpec).length := le.1
      have equal : (first (f.selected next) f.toSpec).length =
          (second (f.selected next) f.toSpec).length := by omega
      exact append_inj same equal
    | _ =>
      rw [segments, segments, flatten_cons, flatten_cons, append_right_inj]
      exact ih next le

end

def Spec.leftPad (s : Spec) (length : Nat) : Nat :=
  match s.side with
  | .left => 0
  | .right => s.width.value - length
  | .center => (s.width.value - length) / 2

def Spec.shift (s : Spec) (length : Nat) : Nat := s.leftPad bufSize - s.leftPad length

/-- A cut that cannot be seen: the width makes up for it, and what is cut off, or the whole text
where it moves, is nothing but the fill character. -/
def Hidden (s : Spec) (text : List Char) : Prop :=
  text.length ≤ s.width.value ∧ (∀ c ∈ text.drop bufSize, c = s.fillChar) ∧
    (s.shift text.length = 0 ∨ ∀ c ∈ text, c = s.fillChar)

theorem Spec.padded_eq (s : Spec) (text : List Char) :
    s.padded text = List.replicate (s.leftPad text.length) s.fillChar ++ text ++
      List.replicate (s.width.value - text.length - s.leftPad text.length) s.fillChar := by
  unfold Spec.padded Spec.leftPad
  cases s.side <;> simp

theorem Spec.leftPad_bounds (s : Spec) {short long : Nat} (le : short ≤ long)
    (fits : long ≤ s.width.value) :
    s.leftPad long ≤ s.leftPad short ∧ s.leftPad short ≤ s.leftPad long + (long - short) ∧
      s.leftPad long ≤ s.width.value - long := by
  unfold Spec.leftPad
  cases s.side <;> dsimp only <;> omega

/-- A text that is its own shift by a fill is nothing but the fill. -/
theorem eq_fill_of_shift {α : Type} {f : α} {d : Nat} (positive : 0 < d) (u v w : List α)
    (same : List.replicate d f ++ u ++ w = u ++ v) : ∀ c ∈ u, c = f := by
  induction measured : u.length using Nat.strong_induction_on generalizing u with
  | _ n ih =>
    subst measured
    rw [append_assoc] at same
    rcases le_total u.length d with short | long
    · have front := congrArg (List.take u.length) same
      rw [take_left, take_append_of_le_length (by rwa [length_replicate]),
        take_replicate] at front
      intro c member
      rw [← front] at member
      exact eq_of_mem_replicate member
    · have front := congrArg (List.take d) same
      rw [take_left' length_replicate, take_append_of_le_length long] at front
      have parts := take_append_drop d u
      rw [← front] at parts
      have shorter : (u.drop d).length < u.length := by
        rw [length_drop]
        omega
      rw [← parts, append_assoc, append_assoc, append_right_inj] at same
      have rest := ih _ shorter (u.drop d) (by rw [append_assoc]; exact same) rfl
      intro c member
      rw [← parts, mem_append] at member
      exact member.elim eq_of_mem_replicate (rest c)

/-- A text between fills agrees with a longer one only if what is cut off is fill. -/
theorem shifted_iff {α : Type} {f : α} {d e : Nat} {u v : List α} (length : d + e = v.length) :
    List.replicate d f ++ u ++ List.replicate e f = u ++ v ↔
      (∀ c ∈ v, c = f) ∧ (d = 0 ∨ ∀ c ∈ u ++ v, c = f) := by
  refine ⟨fun same => ?_, ?_⟩
  · rcases Nat.eq_zero_or_pos d with rfl | positive
    · rw [replicate_zero, nil_append, append_right_inj] at same
      refine ⟨?_, .inl rfl⟩
      rw [← same]
      exact fun c => eq_of_mem_replicate
    · have front := eq_fill_of_shift positive u v _ same
      have all : ∀ c ∈ u ++ v, c = f := by
        rw [← same]
        intro c member
        rw [mem_append, mem_append] at member
        rcases member with (left | middle) | right
        · exact eq_of_mem_replicate left
        · exact front c middle
        · exact eq_of_mem_replicate right
      exact ⟨fun c member => all c (mem_append_right u member), .inr all⟩
  · rintro ⟨back, rfl | all⟩
    · rw [replicate_zero, nil_append, append_right_inj]
      exact (eq_replicate_iff.mpr ⟨by omega, back⟩).symm
    · have row := eq_replicate_iff.mpr ⟨rfl, all⟩
      have middle := eq_replicate_iff.mpr
        ⟨rfl, fun c member => all c (mem_append_left v member)⟩
      rw [row, length_append]
      conv_lhs => rw [middle, replicate_append_replicate, replicate_append_replicate]
      congr 1
      omega

theorem padded_cut_iff (s : Spec) {text : List Char} (long : bufSize < text.length) :
    s.padded (text.take bufSize) = s.padded text ↔ Hidden s text := by
  have cut : (text.take bufSize).length = bufSize := length_take_of_le (by omega)
  by_cases fits : text.length ≤ s.width.value
  · obtain ⟨least, most, inside⟩ := s.leftPad_bounds (by omega : bufSize ≤ text.length) fits
    have parts := take_append_drop bufSize text
    have left : s.leftPad bufSize = s.leftPad text.length + s.shift text.length := by
      rw [Spec.shift]
      omega
    have right : s.width.value - bufSize - s.leftPad bufSize =
        (text.length - bufSize - s.shift text.length) +
          (s.width.value - text.length - s.leftPad text.length) := by
      omega
    have dropped : s.shift text.length + (text.length - bufSize - s.shift text.length) =
        (text.drop bufSize).length := by
      rw [length_drop, Spec.shift]
      omega
    have core := shifted_iff (f := s.fillChar) (u := text.take bufSize) dropped
    rw [parts] at core
    rw [Spec.padded_eq, Spec.padded_eq, cut, right, left, ← replicate_append_replicate,
      ← replicate_append_replicate, Hidden, ← core, and_iff_right fits]
    rw [← append_assoc _ (List.replicate _ _) (List.replicate _ _), append_left_inj,
      append_assoc, append_assoc, append_right_inj, ← append_assoc]
  · refine ⟨fun same => ?_, fun hidden => absurd hidden.1 fits⟩
    have lengths := congrArg List.length same
    rw [Spec.length_padded, Spec.length_padded, cut] at lengths
    omega

/-- An index that is no word selects nothing that can be seen. -/
def Unwrapped (args : List Arg) (i : Nat) (s : Spec) : Prop :=
  i < 2 ^ 64 ∨ ∀ a ∈ args[i % 2 ^ 64]?, a.text s = [] ∧ s.width.value = 0

/-- The buffer holds the text of a string, or the cut cannot be seen. -/
def Fits (args : List Arg) (i : Nat) (s : Spec) : Prop :=
  ∀ text, args[i]? = some (.str text) →
    ((Arg.str text).text s).length ≤ bufSize ∨ Hidden s ((Arg.str text).text s)

theorem length_padded_cut_le (s : Spec) (a : Arg) (text : List Char) :
    (s.padded (a.cut text)).length ≤ (s.padded text).length := by
  rw [Spec.length_padded, Spec.length_padded]
  cases a with
  | str _ =>
    rw [Arg.cut, length_take]
    omega
  | int _ _ _ => exact le_refl _
  | null => exact le_refl _

section
variable {args : List Arg} {i : Nat} (s : Spec)

theorem mod_of_word (small : i < 2 ^ 64) : args[i % 2 ^ 64]? = args[i]? := by
  rw [Nat.mod_eq_of_lt small]

theorem length_written_le_of_lt (small : i < 2 ^ 64) :
    (written args i s).length ≤ (shown args i s).length := by
  rw [written, shown, mod_of_word small]
  cases args[i]? with
  | none => exact le_refl _
  | some a => exact length_padded_cut_le s a _

theorem written_eq_iff_of_lt (small : i < 2 ^ 64) :
    written args i s = shown args i s ↔ Fits args i s := by
  rw [written, shown, mod_of_word small, Fits]
  cases args[i]? with
  | none => exact ⟨fun _ _ given => (by cases given), fun _ => rfl⟩
  | some a =>
    cases a with
    | int t v range => exact ⟨fun _ _ given => (by cases Option.some_inj.mp given), fun _ => rfl⟩
    | null => exact ⟨fun _ _ given => (by cases Option.some_inj.mp given), fun _ => rfl⟩
    | str text =>
      dsimp only
      rw [Arg.cut]
      generalize fixed : (Arg.str text).text s = content
      have only : (∀ text', some (Arg.str text) = some (Arg.str text') →
          ((Arg.str text').text s).length ≤ bufSize ∨ Hidden s ((Arg.str text').text s)) ↔
          content.length ≤ bufSize ∨ Hidden s content := by
        rw [← fixed]
        refine ⟨fun all => all text rfl, ?_⟩
        rintro either _ ⟨⟩
        exact either
      rw [only]
      rcases lt_or_ge bufSize content.length with long | short
      · rw [padded_cut_iff s long]
        exact ⟨.inr, fun either => either.resolve_left (by omega)⟩
      · rw [take_of_length_le short]
        exact ⟨fun _ => .inl short, fun _ => rfl⟩

/-- Behind the end of the words nothing is to be shown. -/
theorem shown_of_le (counted : args.length < 2 ^ 64) (large : 2 ^ 64 ≤ i) : shown args i s = [] := by
  rw [shown, getElem?_eq_none (by omega)]

theorem fits_of_le (counted : args.length < 2 ^ 64) (large : 2 ^ 64 ≤ i) : Fits args i s := by
  intro text given
  rw [getElem?_eq_none (by omega)] at given
  exact absurd given nofun

theorem padded_eq_nil_iff (content : List Char) :
    s.padded content = [] ↔ content = [] ∧ s.width.value = 0 := by
  rw [← length_eq_zero_iff, Spec.length_padded, ← length_eq_zero_iff]
  omega

theorem cut_eq_nil_iff (a : Arg) (content : List Char) : a.cut content = [] ↔ content = [] := by
  cases a with
  | str _ => simp [Arg.cut, bufSize]
  | int _ _ _ => exact Iff.rfl
  | null => exact Iff.rfl

theorem written_eq_nil_iff (large : 2 ^ 64 ≤ i) : written args i s = [] ↔ Unwrapped args i s := by
  rw [written, Unwrapped]
  cases args[i % 2 ^ 64]? with
  | none => exact ⟨fun _ => .inr fun a given => (by cases given), fun _ => rfl⟩
  | some a =>
    rw [padded_eq_nil_iff, cut_eq_nil_iff]
    refine ⟨fun both => .inr fun b given => ?_, fun either => ?_⟩
    · rw [← Option.some_inj.mp given]
      exact both
    · exact either.resolve_left (by omega) a rfl

end

/-- Nothing that can be seen of a template is cut off. -/
def Contained (pieces : List Piece) (args : List Arg) : Prop :=
  ∀ p ∈ selections 0 pieces, Fits args p.1 p.2

/-- No index of a template wraps around to what can be seen. -/
def Indexed (pieces : List Piece) (args : List Arg) : Prop :=
  ∀ p ∈ selections 0 pieces, Unwrapped args p.1 p.2

section
variable {args : List Arg} {i : Nat} {s : Spec}

theorem written_eq_of_conditions (counted : args.length < 2 ^ 64) (fits : Fits args i s)
    (unwrapped : Unwrapped args i s) : written args i s = shown args i s := by
  rcases lt_or_ge i (2 ^ 64) with small | large
  · exact (written_eq_iff_of_lt s small).mpr fits
  · rw [shown_of_le s counted large]
    exact (written_eq_nil_iff s large).mpr unwrapped

theorem conditions_of_written_eq (counted : args.length < 2 ^ 64)
    (same : written args i s = shown args i s) : Fits args i s ∧ Unwrapped args i s := by
  rcases lt_or_ge i (2 ^ 64) with small | large
  · exact ⟨(written_eq_iff_of_lt s small).mp same, .inl small⟩
  · rw [shown_of_le s counted large] at same
    exact ⟨fits_of_le s counted large, (written_eq_nil_iff s large).mp same⟩

/-- Where no index wraps, what is written is no longer than what is to be shown. -/
theorem length_written_le (unwrapped : Unwrapped args i s) :
    (written args i s).length ≤ (shown args i s).length := by
  rcases lt_or_ge i (2 ^ 64) with small | large
  · exact length_written_le_of_lt s small
  · rw [(written_eq_nil_iff s large).mpr unwrapped]
    exact Nat.zero_le _

/-- Where nothing is cut, what is written is no shorter than what is to be shown. -/
theorem length_shown_le (counted : args.length < 2 ^ 64) (fits : Fits args i s) :
    (shown args i s).length ≤ (written args i s).length := by
  rcases lt_or_ge i (2 ^ 64) with small | large
  · rw [(written_eq_iff_of_lt s small).mpr fits]
  · rw [shown_of_le s counted large]
    exact Nat.zero_le _

end

theorem format_textOf (pieces : List Piece) (parted : Parted pieces) (args : List Arg) :
    format (textOf pieces) args = (segments (written args) 0 pieces).flatten :=
  formatFrom_textOf args pieces 0 parted

theorem format_renders_iff (pieces : List Piece) (parted : Parted pieces) (args : List Arg)
    (counted : args.length < 2 ^ 64) :
    (Contained pieces args ∧ Indexed pieces args →
      format (textOf pieces) args = rendering pieces args) ∧
    (Contained pieces args ∨ Indexed pieces args →
      format (textOf pieces) args = rendering pieces args →
        Contained pieces args ∧ Indexed pieces args) := by
  rw [format_textOf pieces parted, rendering]
  have apart : (∀ p ∈ selections 0 pieces, written args p.1 p.2 = shown args p.1 p.2) →
      Contained pieces args ∧ Indexed pieces args := fun same =>
    ⟨fun p member => (conditions_of_written_eq counted (same p member)).1,
      fun p member => (conditions_of_written_eq counted (same p member)).2⟩
  refine ⟨fun ⟨contained, indexed⟩ => ?_, fun either same => apart ?_⟩
  · have shorter := fun p member => length_written_le (indexed p member)
    exact (flatten_segments_iff pieces 0 shorter).mpr fun p member =>
      written_eq_of_conditions counted (contained p member) (indexed p member)
  · rcases either with contained | indexed
    · have longer := fun p member => length_shown_le counted (contained p member)
      exact fun p member => ((flatten_segments_iff pieces 0 longer).mp same.symm p member).symm
    · have shorter := fun p member => length_written_le (indexed p member)
      exact (flatten_segments_iff pieces 0 shorter).mp same

/-! ## Cases -/

def plainField : Field := ⟨none, none, nofun⟩

def narrowField : Field where
  index := none
  spec := some
    { Spec.plain with
      front := .align .right
      width := ⟨[5], by decide⟩
      bounded := by decide }
  numbered := nofun

theorem format_renders_iff_narrow :
    format (textOf [.char 'n' (by decide), .field narrowField]) [.str ['a', 'b']] =
      rendering [.char 'n' (by decide), .field narrowField] [.str ['a', 'b']] ∧
    rendering [.char 'n' (by decide), .field narrowField] [.str ['a', 'b']] =
      ['n', ' ', ' ', ' ', 'a', 'b'] := by
  refine ⟨(format_renders_iff [.char 'n' (by decide), .field narrowField] ⟨nofun, nofun, trivial⟩
    [.str ['a', 'b']] (by decide)).1 ⟨?_, ?_⟩, rfl⟩
  · intro p member
    rw [mem_singleton.mp member]
    rintro text ⟨⟩
    exact .inl (by decide)
  · intro p member
    rw [mem_singleton.mp member]
    exact .inl (by decide)

/-- A string of 80 characters loses the last eight. -/
theorem long_text_is_cut :
    textOf [.field plainField] = ['{', '}'] ∧
    format ['{', '}'] [.str (List.replicate 80 'a')] = List.replicate 72 'a' ∧
    rendering [.field plainField] [.str (List.replicate 80 'a')] = List.replicate 80 'a' ∧
    format (textOf [.field plainField]) [.str (List.replicate 80 'a')] ≠
      rendering [.field plainField] [.str (List.replicate 80 'a')] := by
  have text : textOf [.field plainField] = ['{', '}'] := rfl
  have cut : format (textOf [.field plainField]) [.str (List.replicate 80 'a')] =
      List.replicate 72 'a' := by
    decide +kernel
  have whole : rendering [.field plainField] [.str (List.replicate 80 'a')] =
      List.replicate 80 'a' := by decide +kernel
  refine ⟨text, text ▸ cut, whole, ?_⟩
  rw [cut, whole]
  decide

/-- `{18446744073709551616:.1}`. -/
def wrappedField : Field where
  index := some ⟨[1, 8, 4, 4, 6, 7, 4, 4, 0, 7, 3, 7, 0, 9, 5, 5, 1, 6, 1, 6], by decide⟩
  spec := some { Spec.plain with prec := some ⟨[1], by decide⟩ }
  numbered := by
    rintro _ ⟨⟩
    exact cons_ne_nil _ _

/-- A cut and an index that wraps can make up for each other. -/
theorem cut_and_wrap_cancel :
    format (textOf [.field plainField, .field wrappedField]) [.str (List.replicate 73 'a')] =
      rendering [.field plainField, .field wrappedField] [.str (List.replicate 73 'a')] ∧
    ¬Contained [.field plainField, .field wrappedField] [.str (List.replicate 73 'a')] ∧
    ¬Indexed [.field plainField, .field wrappedField] [.str (List.replicate 73 'a')] := by
  have parted : Parted [.field plainField, .field wrappedField] := ⟨nofun, nofun, trivial⟩
  refine ⟨?_, fun contained => ?_, fun indexed => ?_⟩
  · rw [format_textOf _ parted]
    decide +kernel
  · have fits := contained (0, Spec.plain) mem_cons_self _ rfl
    rcases fits with short | hidden
    · exact absurd short (by decide)
    · exact absurd hidden.1 (by decide)
  · have unwrapped := indexed (18446744073709551616, _) (mem_cons_of_mem _ mem_cons_self)
    rcases unwrapped with small | unseen
    · exact absurd small (by decide)
    · exact absurd (unseen (.str (List.replicate 73 'a')) rfl).1 (by decide)

end Micron.Format
