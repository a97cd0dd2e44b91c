import Micron.Strings.Rope

/-!
# What the operations on ropes spell

Every operation is given by the text it makes of the texts it is given, so a rope that was
reached spells a text of its length.  From that follows which ranges `erase` and `substr`
reject: the check of `erase` subtracts, that of `substr` adds in words.
-/

set_option autoImplicit false

namespace Micron.Strings

open Micron.Lib List Nat

section Operations
variable {α : Type} {r o : Rope α} {text text' : List α}

theorem spells_empty : (Rope.empty : Rope α).Spells [] := ⟨rfl, rfl, Nat.two_pow_pos 64⟩

theorem spells_ofData {data : List α} (fits : data.length < 2 ^ 64) :
    (Rope.ofData data).Spells data := ⟨buildBalanced_holds data fits, rfl, fits⟩

theorem spells_ofFill {cnt : Nat} (ch : α) (fits : cnt < 2 ^ 64) :
    (Rope.ofFill cnt ch).Spells (List.replicate cnt ch) :=
  ⟨buildFill_holds ch fits, length_replicate.symm, by rwa [length_replicate]⟩

theorem pushBackNode_holds (ch : α) : ∀ (n : Node α), n.Sound →
    n.chars.length + 1 < 2 ^ 64 → Holds (some (pushBackNode ch n)) (n.chars ++ [ch])
  | .leaf len data, sound, fits => by
    rw [pushBackNode]
    by_cases short : len < maxLeaf
    · rw [if_pos short]
      refine ⟨⟨?_, append_ne_nil_of_right_ne_nil _ (cons_ne_nil _ _)⟩, rfl⟩
      rw [length_append, sound.1]
      rfl
    · rw [if_neg short]
      exact makeBranch_holds ⟨sound, rfl⟩ (@makeLeaf_holds _ [ch] _ one_pos
        (le_refl 1)) (by rwa [length_append])
  | .branch len left right, sound, fits => by
    rw [Node.chars, length_append] at fits
    rw [pushBackNode, Node.chars, append_assoc]
    refine makeBranch_holds ⟨sound.2.1, rfl⟩
      (pushBackNode_holds ch right sound.2.2 (by omega)) ?_
    simp only [length_append, length_singleton]
    omega

theorem Rope.Spells.pushBack (spells : r.Spells text) (ch : α) (fits : r.length + 1 < 2 ^ 64) :
    (r.pushBack ch).Spells (text ++ [ch]) := by
  obtain ⟨holds, length, _⟩ := spells
  rw [length] at fits
  refine ⟨?_, ?_, by rwa [length_append]⟩
  · rw [Rope.pushBack]
    cases root : r.root with
    | none =>
      rw [root] at holds
      rw [show text = [] from holds]
      exact @makeLeaf_holds _ [ch] _ one_pos (le_refl 1)
    | some n =>
      rw [root] at holds
      obtain ⟨sound, rfl⟩ := holds
      exact pushBackNode_holds ch n sound fits
  · rw [Rope.pushBack, length, length_append]
    exact word_of_lt fits

theorem Rope.Spells.concat (spells : r.Spells text) {payload : Option (Node α)}
    (holds : Holds payload text') (fits : r.length + text'.length < 2 ^ 64) :
    Rope.Spells ⟨Strings.concat r.root payload, word (r.length + text'.length)⟩
      (text ++ text') := by
  rw [spells.length, ← length_append] at fits ⊢
  exact ⟨concat_holds spells.holds holds fits, word_of_lt fits, fits⟩

theorem leaf_holds {str : List α} (filled : ¬ str.length = 0) :
    Holds (some (makeLeaf str str.length)) str := by
  have holds := @makeLeaf_holds _ str _ (pos_of_ne_zero filled) (le_refl _)
  rwa [take_length] at holds

theorem Rope.Spells.pushBackStr (spells : r.Spells text) (str : List α)
    (fits : r.length + str.length < 2 ^ 64) : (r.pushBackStr str).Spells (text ++ str) := by
  rw [Rope.pushBackStr]
  by_cases empty : str.length = 0
  · rw [if_pos empty, eq_nil_of_length_eq_zero empty, append_nil]
    exact spells
  · rw [if_neg empty]
    exact spells.concat (leaf_holds empty) fits

theorem Rope.Spells.append (spells : r.Spells text) (other : o.Spells text')
    (fits : r.length + o.length < 2 ^ 64) : (r.append o).Spells (text ++ text') := by
  rw [Rope.append, other.length]
  rw [other.length] at fits
  by_cases empty : text'.length = 0
  · rw [if_pos empty, eq_nil_of_length_eq_zero empty, append_nil]
    exact spells
  · rw [if_neg empty]
    exact spells.concat other.holds fits

theorem Rope.Spells.appendData (spells : r.Spells text) (data : List α)
    (fits : r.length + data.length < 2 ^ 64) : (r.appendData data).Spells (text ++ data) := by
  rw [Rope.appendData]
  by_cases empty : data.length = 0
  · rw [if_pos empty, eq_nil_of_length_eq_zero empty, append_nil]
    exact spells
  · rw [if_neg empty]
    exact spells.concat (buildBalanced_holds data (by omega)) fits

/-- Text in the middle of a rope; a position past the end is its end. -/
theorem Rope.Spells.insertNode (spells : r.Spells text) (ind : Nat) {payload : Option (Node α)}
    (holds : Holds payload text') (fits : r.length + text'.length < 2 ^ 64) :
    (r.insertNode ind payload text'.length).Spells
      (text.take ind ++ text' ++ text.drop ind) := by
  have halves := split_holds spells.holds spells.fits ind
  have cut := congrArg List.length (take_append_drop ind text)
  rw [length_append] at cut
  have total : (text.take ind ++ text' ++ text.drop ind).length = r.length + text'.length := by
    simp only [length_append, spells.length]
    omega
  refine ⟨?_, ?_, by rwa [total]⟩
  · refine concat_holds (concat_holds halves.1 holds ?_) halves.2 (by rwa [total])
    rw [length_append] at total
    omega
  · rw [total]
    exact word_of_lt fits

theorem repeated_holds {str : List α} (filled : ¬ str.length = 0) : ∀ (cnt : Nat),
    str.length * cnt < 2 ^ 64 → ∃ text', Holds (repeated str cnt) text' ∧
      text'.length = str.length * cnt
  | 0, _ => ⟨[], rfl, rfl⟩
  | cnt + 1, fits => by
    rw [mul_add, mul_one] at fits ⊢
    obtain ⟨text', holds, length⟩ := repeated_holds filled cnt (by omega)
    exact ⟨text' ++ str, concat_holds holds (leaf_holds filled)
      (by rwa [length_append, length]), by rw [length_append, length]⟩

theorem Rope.Spells.popBack (spells : r.Spells text) :
    r.popBack.Spells (text.take (text.length - 1)) := by
  have fits := spells.fits
  rw [Rope.popBack, spells.length]
  by_cases empty : text.length = 0
  · rw [if_pos empty, eq_nil_of_length_eq_zero empty, take_nil]
    exact spells_empty
  · rw [if_neg empty]
    refine ⟨(split_holds spells.holds fits _).1, ?_, ?_⟩
    · rw [length_take, min_eq_left (sub_le _ _)]
    · rw [length_take]
      omega

theorem Rope.Spells.truncate (spells : r.Spells text) (idx : Nat) :
    (r.truncate idx).Spells (text.take idx) := by
  have fits := spells.fits
  have length := spells.length
  rw [Rope.truncate]
  by_cases past : idx ≥ r.length
  · rw [if_pos past, take_of_length_le (by omega)]
    exact spells
  · rw [if_neg past]
    refine ⟨(split_holds spells.holds fits _).1, ?_, ?_⟩
    · rw [length_take, min_eq_left (by omega)]
    · rw [length_take]
      omega

theorem Rope.Spells.resize (spells : r.Spells text) (n : Nat) (ch : α) (fits : n < 2 ^ 64) :
    ∃ text', (r.resize n ch).Spells text' := by
  rw [Rope.resize]
  by_cases shorter : n ≤ r.length
  · rw [if_pos shorter]
    exact ⟨_, spells.truncate n⟩
  · rw [if_neg shorter]
    have grown := spells.concat (buildFill_holds ch (by omega : n - r.length < 2 ^ 64))
      (by rw [length_replicate]; omega)
    rw [length_replicate, Nat.add_sub_cancel' (by omega), word_of_lt fits] at grown
    exact ⟨_, grown⟩

/-- What is rejected, and the text that is left otherwise. -/
theorem Rope.Spells.erase (spells : r.Spells text) (ind cnt : Nat) :
    (cnt > ssizeMax ∨ ind > text.length ∨ cnt > text.length - ind) ∧
        (∃ message, r.erase ind cnt = .error message) ∨
      ¬ (cnt > ssizeMax ∨ ind > text.length ∨ cnt > text.length - ind) ∧
        ∃ next, r.erase ind cnt = .ok next ∧
          next.Spells (text.take ind ++ text.drop (ind + cnt)) := by
  have length := spells.length
  have fits := spells.fits
  rw [Rope.erase]
  by_cases large : cnt > ssizeMax
  · rw [if_pos (show validCnt cnt = true from decide_eq_true large)]
    exact .inl ⟨.inl large, _, rfl⟩
  · rw [if_neg (show ¬ validCnt cnt = true from fun more => large (of_decide_eq_true more))]
    by_cases outside : ind > r.length ∨ cnt > r.length - ind
    · rw [if_pos (show r.eraseCheck ind cnt = true from decide_eq_true outside)]
      rw [length] at outside
      exact .inl ⟨.inr outside, _, rfl⟩
    · rw [if_neg (show ¬ r.eraseCheck ind cnt = true from
        fun out => outside (of_decide_eq_true out))]
      rw [length] at outside
      refine .inr ⟨fun bad => bad.elim large outside, ?_⟩
      by_cases none : cnt = 0
      · rw [if_pos none, none, add_zero, take_append_drop]
        exact ⟨r, rfl, spells⟩
      · rw [if_neg none]
        have first := split_holds spells.holds fits ind
        have second := split_holds first.2 (by rw [length_drop]; omega) cnt
        rw [drop_drop] at second
        have left : (text.take ind ++ text.drop (ind + cnt)).length = text.length - cnt := by
          rw [length_append, length_take, length_drop]
          omega
        refine ⟨_, rfl, concat_holds first.1 second.2 (by omega), ?_, by omega⟩
        rw [left, length]

def Rope.count (r : Rope α) (pos cnt : Nat) : Nat :=
  if cnt = npos then if pos ≤ r.length then r.length - pos else 0 else cnt

theorem Rope.Spells.substr (spells : r.Spells text) (pos cnt : Nat) :
    (r.rangePosCnt pos (r.count pos cnt) = true ∧
        ∃ message, r.substr pos cnt = .error message) ∨
      r.rangePosCnt pos (r.count pos cnt) = false ∧
        ∃ next, r.substr pos cnt = .ok next ∧ next.length = r.count pos cnt ∧
          Holds next.root ((text.drop pos).take (r.count pos cnt)) := by
  have length := spells.length
  have fits := spells.fits
  rw [Rope.substr, ← Rope.count]
  cases check : r.rangePosCnt pos (r.count pos cnt) with
  | true => exact .inl ⟨rfl, _, rfl⟩
  | false =>
    refine .inr ⟨rfl, ?_⟩
    by_cases whole : pos = 0 ∧ r.count pos cnt = r.length
    · rw [if_pos whole]
      refine ⟨r, rfl, whole.2.symm, ?_⟩
      rw [whole.2, whole.1, drop_zero, length, take_length]
      exact spells.holds
    · rw [if_neg whole]
      have first := split_holds spells.holds fits pos
      exact ⟨_, rfl, rfl, (split_holds first.2 (by rw [length_drop]; omega) _).1⟩

/-- Where the sum of a position and a count is one of words that fit, the range is inside. -/
theorem Rope.rangePosCnt_plain {pos cnt : Nat} (plain : pos + cnt < 2 ^ 64) :
    r.rangePosCnt pos cnt = decide (pos > r.length ∨ cnt > r.length - pos) := by
  rw [Rope.rangePosCnt, word_of_lt plain]
  exact decide_eq_decide.mpr (by omega)

theorem Rope.Spells.substr_next {next : Rope α} (spells : r.Spells text) {pos cnt : Nat}
    (plain : cnt = npos ∨ pos + cnt < 2 ^ 64) (returned : r.substr pos cnt = .ok next) :
    next.Spells ((text.drop pos).take (r.count pos cnt)) := by
  have length := spells.length
  have fits := spells.fits
  rcases spells.substr pos cnt with ⟨_, message, raised⟩ | ⟨check, next', same, size, holds⟩
  · rw [raised] at returned
    exact nomatch returned
  · rw [same] at returned
    cases returned
    have inside : pos + r.count pos cnt ≤ text.length := by
      rw [Rope.rangePosCnt, decide_eq_false_iff_not] at check
      rw [Rope.count] at check ⊢
      by_cases rest : cnt = npos
      · rw [if_pos rest] at check ⊢
        by_cases before : pos ≤ r.length
        · rw [if_pos before]
          omega
        · omega
      · rw [if_neg rest] at check ⊢
        rw [word_of_lt (plain.resolve_left rest)] at check
        omega
    have long : ((text.drop pos).take (r.count pos cnt)).length = r.count pos cnt := by
      rw [length_take, length_drop]
      omega
    exact ⟨holds, size.trans long.symm, by omega⟩

end Operations

theorem reached_spells {α : Type} {r : Rope α} (reached : Reached r) :
    ∃ text, r.Spells text := by
  induction reached with
  | empty => exact ⟨_, spells_empty⟩
  | ofData data fits => exact ⟨_, spells_ofData fits⟩
  | ofFill cnt ch fits => exact ⟨_, spells_ofFill ch fits⟩
  | pushBack _ ch fits ih => exact ⟨_, ih.choose_spec.pushBack ch fits⟩
  | pushBackStr _ str fits ih => exact ⟨_, ih.choose_spec.pushBackStr str fits⟩
  | append _ _ fits ih ihOther => exact ⟨_, ih.choose_spec.append ihOther.choose_spec fits⟩
  | appendData _ data fits ih => exact ⟨_, ih.choose_spec.appendData data fits⟩
  | popBack _ ih => exact ⟨_, ih.choose_spec.popBack⟩
  | @insertFill r next _ ind ch cnt fits returned ih =>
    obtain ⟨text, spells⟩ := ih
    rw [Rope.insertFill] at returned
    split at returned
    · exact nomatch returned
    · cases returned
      have holds := buildFill_holds ch (by omega : cnt < 2 ^ 64)
      have grown := spells.insertNode ind holds (by rwa [length_replicate])
      rw [length_replicate] at grown
      exact ⟨_, grown⟩
  | @insertStr r next _ ind str cnt fits returned ih =>
    obtain ⟨text, spells⟩ := ih
    rw [Rope.insertStr] at returned
    split at returned
    · exact nomatch returned
    · split at returned
      · exact nomatch returned
      · split at returned
        · cases returned
          exact ⟨text, spells⟩
        · next some =>
          cases returned
          obtain ⟨text', holds, length⟩ := repeated_holds
            (fun empty => some (by rw [empty, zero_mul])) cnt (by omega)
          rw [← length] at fits ⊢
          exact ⟨_, spells.insertNode ind holds fits⟩
  | @insert r o _ ind _ fits ih ihOther =>
    obtain ⟨text, spells⟩ := ih
    obtain ⟨text', other⟩ := ihOther
    rw [Rope.insert, other.length]
    rw [other.length] at fits
    split
    · exact ⟨text, spells⟩
    · exact ⟨_, spells.insertNode ind other.holds fits⟩
  | @insertData r _ ind data fits ih =>
    obtain ⟨text, spells⟩ := ih
    rw [Rope.insertData]
    split
    · exact ⟨text, spells⟩
    · exact ⟨_, spells.insertNode ind (buildBalanced_holds data (by omega)) fits⟩
  | @erase r next _ ind cnt returned ih =>
    obtain ⟨text, spells⟩ := ih
    rcases spells.erase ind cnt with ⟨_, message, raised⟩ | ⟨_, next', same, after⟩
    · rw [raised] at returned
      exact nomatch returned
    · rw [same] at returned
      cases returned
      exact ⟨_, after⟩
  | substr _ pos cnt fits returned ih =>
    obtain ⟨text, spells⟩ := ih
    exact ⟨_, spells.substr_next fits returned⟩
  | truncate _ idx ih => exact ⟨_, ih.choose_spec.truncate idx⟩
  | resize _ n ch fits ih => exact ih.choose_spec.resize n ch fits

/-! ## Exact checks -/

section Exact
variable {α : Type} {r : Rope α}

/-- `erase` raises where the range is not inside, and what it returns otherwise has its size
in characters. -/
def Rope.EraseExact (r : Rope α) (pos cnt : Nat) : Prop :=
  match r.erase pos cnt with
  | .error _ => pos > r.length ∨ cnt > r.length - pos
  | .ok next => ¬ (pos > r.length ∨ cnt > r.length - pos) ∧
      next.length = r.length - cnt ∧ next.chars.length = next.length

def Rope.SubstrExact (r : Rope α) (pos cnt : Nat) : Prop :=
  match r.substr pos cnt with
  | .error _ => pos > r.length ∨ cnt > r.length - pos
  | .ok next => ¬ (pos > r.length ∨ cnt > r.length - pos) ∧
      next.length = cnt ∧ next.chars.length = next.length

theorem Holds.chars_eq {root : Option (Node α)} {text : List α} (holds : Holds root text) :
    (root.map Node.chars).getD [] = text := by
  cases root with
  | none => exact Eq.symm holds
  | some n => exact holds.2

theorem Rope.Spells.chars_eq {text : List α} (spells : r.Spells text) : r.chars = text :=
  spells.holds.chars_eq

theorem Rope.Spells.eraseExact_iff {text : List α} (spells : r.Spells text) (pos cnt : Nat) :
    r.EraseExact pos cnt ↔ ¬ (cnt > ssizeMax ∧ pos + cnt ≤ r.length) := by
  have length := spells.length
  rw [Rope.EraseExact]
  rcases spells.erase pos cnt with ⟨bad, message, raised⟩ | ⟨good, next, returned, after⟩
  · rw [raised]
    omega
  · rw [returned]
    have size := after.length
    rw [length_append, length_take, length_drop] at size
    dsimp only
    rw [after.chars_eq, ← after.length]
    omega

/-- A sum that wraps around is below the position, so the check lets it through. -/
theorem Rope.rangePosCnt_wraps {pos cnt : Nat} (small : cnt < 2 ^ 64) (inside : pos ≤ r.length)
    (wraps : 2 ^ 64 ≤ pos + cnt) (fits : r.length < 2 ^ 64) : r.rangePosCnt pos cnt = false := by
  rw [Rope.rangePosCnt, decide_eq_false_iff_not, word]
  omega

theorem Rope.Spells.substrExact_iff {text : List α} (spells : r.Spells text) {pos cnt : Nat}
    (small : cnt < 2 ^ 64) (some : cnt ≠ npos) :
    r.SubstrExact pos cnt ↔ pos > r.length ∨ pos + cnt < 2 ^ 64 := by
  have length := spells.length
  have fits := spells.fits
  have count : r.count pos cnt = cnt := if_neg some
  have outcome := spells.substr pos cnt
  rw [count] at outcome
  rw [Rope.SubstrExact]
  rcases outcome with ⟨check, message, raised⟩ | ⟨check, next, returned, size, holds⟩
  · rw [raised]
    by_cases plain : pos + cnt < 2 ^ 64
    · rw [Rope.rangePosCnt_plain plain, decide_eq_true_iff] at check
      exact iff_of_true check (.inr plain)
    · by_cases outside : pos > r.length
      · exact iff_of_true (.inl outside) (.inl outside)
      · rw [Rope.rangePosCnt_wraps small (by omega) (by omega) (by omega)] at check
        exact nomatch check
  · rw [returned]
    by_cases plain : pos + cnt < 2 ^ 64
    · rw [Rope.rangePosCnt_plain plain, decide_eq_false_iff_not] at check
      refine iff_of_true ⟨check, size, ?_⟩ (.inr plain)
      rw [Rope.chars, holds.chars_eq, size, length_take, length_drop]
      omega
    · rw [Rope.rangePosCnt, decide_eq_false_iff_not] at check
      exact iff_of_false (by omega) (by omega)

end Exact

/-- Of a rope that was reached `erase` rejects just the ranges that are not inside, but for
counts beyond the signed range; `substr` does where the position and the count do not wrap
around. -/
theorem ranges_exact {α : Type} {r : Rope α} (reached : Reached r) {pos cnt : Nat}
    (small : cnt < 2 ^ 64) :
    (r.EraseExact pos cnt ↔ ¬ (cnt > ssizeMax ∧ pos + cnt ≤ r.length)) ∧
      (cnt ≠ npos → (r.SubstrExact pos cnt ↔ pos > r.length ∨ pos + cnt < 2 ^ 64)) := by
  obtain ⟨text, spells⟩ := reached_spells reached
  exact ⟨spells.eraseExact_iff pos cnt, spells.substrExact_iff small⟩

theorem ranges_exact_five :
    (Rope.ofData [1, 2, 3, 4, 5]).EraseExact 1 3 ∧
      (Rope.ofData [1, 2, 3, 4, 5]).SubstrExact 4 (2 ^ 63) := by
  have reached := Reached.ofData [1, 2, 3, 4, 5] (by decide)
  exact ⟨(ranges_exact reached (by decide)).1.mpr (by decide),
    ((ranges_exact reached (by decide)).2 (by decide)).mpr (.inr (by decide))⟩

/-- Two characters that have a length of nearly all words. -/
theorem substr_accepts_wrapped :
    ∃ next, (Rope.ofData [1, 2, 3, 4, 5]).substr 3 (2 ^ 64 - 2) = .ok next ∧
      next.length = 2 ^ 64 - 2 ∧ next.chars = [4, 5] ∧
      ¬ (Rope.ofData [1, 2, 3, 4, 5]).SubstrExact 3 (2 ^ 64 - 2) := by
  have spells := @spells_ofData _ [1, 2, 3, 4, 5] (by decide)
  have outcome := spells.substr 3 (2 ^ 64 - 2)
  rcases outcome with ⟨check, _⟩ | ⟨_, next, returned, size, holds⟩
  · exact absurd check (by decide)
  · refine ⟨next, returned, size, ?_, ?_⟩
    · rw [Rope.chars, holds.chars_eq, take_of_length_le (by decide)]
      rfl
    · rw [spells.substrExact_iff (by decide) (by decide)]
      decide

end Micron.Strings
