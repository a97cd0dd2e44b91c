import Micron.Strings.Search

/-!
# The tables of the second search

The first phase records, for each suffix, the shift to its nearest other place behind a different
character; the second one fills the rest by the borders of the whole pattern.
-/

set_option autoImplicit false

namespace Micron.Search

open Micron.Borders List Function Nat Option

section Tables

variable {p : Nat → UInt8} {m i j fuel : Nat} {border shift : Nat → Nat}

/-- The suffix at `j` also begins at `k`, behind a different character. -/
structure Elsewhere (p : Nat → UInt8) (m k j : Nat) : Prop where
  border : Border p m k j
  differs : p (k - 1) ≠ p (j - 1)

/-- The tables when the suffixes behind `i` are done. -/
structure Phase (p : Nat → UInt8) (m i : Nat) (border shift : Nat → Nat) : Prop where
  widest : ∀ k, i ≤ k → k ≤ m → Widest p m k (border k)
  unset : ∀ j, shift j = m ∨ shift j + (i + 1) ≤ j
  nearest : ∀ k j, i < k → Elsewhere p m k j → shift j ≤ j - k

/-- The inner loop has been along the borders of `i` up to `j`. -/
structure Along (p : Nat → UInt8) (m i j : Nat) (shift : Nat → Nat) : Prop where
  candidate : Border p m i j ∨ j = m + 1
  passed : ∀ k, Border p m i k → k < j → p (i - 1) ≠ p (k - 1) ∧ shift k ≤ k - i
  unset : ∀ j, shift j = m ∨ shift j + i ≤ j
  nearest : ∀ k j, i < k → Elsewhere p m k j → shift j ≤ j - k

/-- What a border that differs leaves in the table. -/
theorem Along.step (along : Along p m i j shift) (inside : j ≤ m)
    (widest : ∀ k, i ≤ k → k ≤ m → Widest p m k (border k)) (differs : p (i - 1) ≠ p (j - 1)) :
    Along p m i (border j) (if shift j = m then update shift j (j - i) else shift) := by
  have here : Border p m i j := along.candidate.resolve_right (by omega)
  have later := here.later
  have next := widest j (by omega) inside
  have lower : ∀ k, (if shift j = m then update shift j (j - i) else shift) k ≤ shift k ∨
      k = j := by
    intro k
    by_cases same : k = j
    · exact .inr same
    · refine .inl ?_
      split
      · exact le_of_eq (update_of_ne same _ _)
      · exact le_refl _
  have own : (if shift j = m then update shift j (j - i) else shift) j ≤ j - i := by
    split
    · exact le_of_eq (update_self ..)
    · rename_i set
      rcases along.unset j with wrong | le
      · exact absurd wrong set
      · omega
  refine ⟨?_, fun k border lt => ?_, fun k => ?_, fun k l far elsewhere => ?_⟩
  · rcases next with ⟨narrower, _⟩ | ⟨_, last⟩
    · exact .inl ((here.next narrower.later).mpr narrower)
    · rename_i whole
      exact .inr (by omega)
  · by_cases before : k < j
    · obtain ⟨other, le⟩ := along.passed k border before
      refine ⟨other, ?_⟩
      rcases lower k with kept | same
      · exact le_trans kept le
      · omega
    · by_cases same : k = j
      · rw [same]
        exact ⟨differs, own⟩
      · have narrower := (here.next (show j < k by omega)).mp border
        rcases next with ⟨_, least⟩ | ⟨last, _⟩
        · have le := least k narrower
          omega
        · omega
  · split
    · by_cases same : k = j
      · rw [same, update_self]
        exact .inr (by omega)
      · rw [update_of_ne same]
        exact along.unset k
    · exact along.unset k
  · have le := along.nearest k l far elsewhere
    rcases lower l with kept | same
    · exact le_trans kept le
    · -- a suffix with such a place has been set before
      have set : shift j ≠ m := by
        rw [← same]
        omega
      rw [if_neg set]
      exact le

theorem extendLoop_spec (widest : ∀ k, i ≤ k → k ≤ m → Widest p m k (border k)) :
    ∀ (fuel j : Nat) (shift : Nat → Nat), m + 1 < fuel + j → Along p m i j shift →
      ∃ last shift', extendLoop p m i border fuel j shift = some (last, shift') ∧
        Along p m i last shift' ∧ (last ≤ m → p (i - 1) = p (last - 1)) := by
  intro fuel
  induction fuel with
  | zero =>
    intro j shift enough along
    rcases along.candidate with here | last
    · have inside := here.inside
      omega
    · omega
  | succ fuel ih =>
    intro j shift enough along
    rw [extendLoop]
    split
    · rename_i goes
      have here : Border p m i j := along.candidate.resolve_right (by omega)
      have after := (widest j (le_of_lt here.later) goes.1).later
      exact ih _ _ (by omega) (along.step goes.1 widest goes.2)
    · rename_i stops
      exact ⟨j, shift, rfl, along, fun inside => by_contra fun other => stops ⟨inside, other⟩⟩

theorem Phase.start : Phase p m m (update (fun _ => 0) m (m + 1)) (fun _ => m) := by
  refine ⟨fun k low high => ?_, fun _ => .inl rfl, fun k j far elsewhere => ?_⟩
  · have same : k = m := by omega
    rw [same, update_self]
    exact .inr ⟨rfl, rfl⟩
  · have inside := elsewhere.border.inside
    have later := elsewhere.border.later
    omega

/-- One turn of the outer loop of the first phase. -/
theorem Phase.step (phase : Phase p m (i + 1) border shift) (inside : i + 1 ≤ m)
    (enough : m + 1 < fuel + border (i + 1)) :
    ∃ found, extendLoop p m (i + 1) border fuel (border (i + 1)) shift = some found ∧
      Phase p m i (update border i (found.1 - 1)) found.2 := by
  have first := phase.widest (i + 1) (le_refl _) inside
  have along : Along p m (i + 1) (border (i + 1)) shift := by
    refine ⟨?_, fun k border' lt => ?_, fun k => ?_, phase.nearest⟩
    · rcases first with ⟨border', _⟩ | ⟨_, last⟩
      · exact .inl border'
      · exact .inr (by omega)
    · have bound := border'.inside
      have after := border'.later
      rcases first with ⟨_, least⟩ | ⟨last, _⟩
      · have le := least k border'
        omega
      · omega
    · rcases phase.unset k with unset | le
      · exact .inl unset
      · exact .inr (by omega)
  obtain ⟨last, shift', eq, done, same⟩ := extendLoop_spec phase.widest fuel _ shift enough along
  refine ⟨(last, shift'), eq, ⟨fun k low high => ?_, done.unset, fun k j far elsewhere => ?_⟩⟩
  · by_cases here : k = i
    · rw [here, update_self]
      have pos : 0 < last := by
        rcases done.candidate with border' | ends
        · have after := border'.later
          omega
        · omega
      have whole : last - 1 + 1 = last := by omega
      refine Widest.extend inside ?_ fun k border' lt => ?_
      · rcases done.candidate with border' | ends
        · exact .inl ⟨by rw [whole]; exact border', same border'.inside⟩
        · exact .inr (by show last - 1 = m; omega)
      · exact (done.passed k border' (by show k < last; omega)).1
    · rw [update_of_ne here]
      exact phase.widest k (by omega) high
  · by_cases here : k = i + 1
    · subst here
      have bound := elsewhere.border.inside
      by_cases before : j < last
      · exact (done.passed j elsewhere.border before).2
      · rcases done.candidate with border' | wrong
        · have agree := same border'.inside
          by_cases last' : j = last
          · rw [last'] at elsewhere
            exact absurd agree elsewhere.differs
          · -- the place of the matching border is a nearer one
            have narrower := (border'.next (show last < j by omega)).mp elsewhere.border
            have le := done.nearest last j border'.later
              ⟨narrower, fun wrong => elsewhere.differs (agree.trans wrong)⟩
            have after := border'.later
            exact le_trans le (by omega)
        · omega
    · exact done.nearest k j (by omega) elsewhere

theorem borderLoop_spec (enough : m + 1 < fuel) : ∀ (i : Nat) (border shift : Nat → Nat), i ≤ m →
    Phase p m i border shift →
    ∃ tables, borderLoop p m fuel i (border i) border shift = some tables ∧
      Phase p m 0 tables.1 tables.2 := by
  intro i
  induction i with
  | zero => exact fun border shift _ phase => ⟨(border, shift), rfl, phase⟩
  | succ i ih =>
    intro border shift inside phase
    obtain ⟨found, eq, next⟩ := phase.step inside (show m + 1 < fuel + border (i + 1) by omega)
    obtain ⟨tables, eq', done⟩ := ih _ _ (by omega) next
    rw [update_self] at eq'
    refine ⟨tables, ?_, done⟩
    rw [borderLoop, eq, bind_eq_bind, bind_some]
    exact eq'

structure Good (p : Nat → UInt8) (m : Nat) (shift : Nat → Nat) : Prop where
  first : 0 < shift 0
  most : ∀ j, j ≤ m → shift j ≤ m
  whole : ∀ j d, j ≤ m → Border p m 0 d → j ≤ d → shift j ≤ d
  nearest : ∀ k j, 0 < k → Elsewhere p m k j → shift j ≤ j - k

/-- The second phase before its turn `c`. -/
structure Filled (p : Nat → UInt8) (m c : Nat) (st : Nat × (Nat → Nat)) : Prop where
  current : c ≤ m → Border p m 0 st.1 ∧ c ≤ st.1 ∧ ∀ k, Border p m 0 k → c ≤ k → st.1 ≤ k
  first : 0 < st.2 0
  most : ∀ j, j ≤ m → st.2 j ≤ m
  unset : ∀ j, c ≤ j → st.2 j = m ∨ st.2 j + 1 ≤ j
  whole : ∀ j d, j < c → Border p m 0 d → j ≤ d → st.2 j ≤ d
  nearest : ∀ k j, 0 < k → Elsewhere p m k j → st.2 j ≤ j - k

theorem Filled.step {c : Nat} {st : Nat × (Nat → Nat)} (filled : Filled p m c st)
    (inside : c ≤ m) (widest : ∀ k, k ≤ m → Widest p m k (border k)) :
    Filled p m (c + 1) (fillStep m border st c) := by
  obtain ⟨own, low, least⟩ := filled.current inside
  have table : ∀ j, (fillStep m border st c).2 j = st.2 j ∨
      (j = c ∧ st.2 c = m ∧ (fillStep m border st c).2 j = st.1) := by
    intro j
    rw [fillStep]
    dsimp only
    split
    · rename_i unset
      by_cases here : j = c
      · rw [here, update_self]
        exact .inr ⟨rfl, unset, rfl⟩
      · rw [update_of_ne here]
        exact .inl rfl
    · exact .inl rfl
  have bound := own.inside
  have after := own.later
  refine ⟨fun left => ?_, ?_, fun j le => ?_, fun j le => ?_, fun j d lt border' le => ?_,
    fun k j pos elsewhere => ?_⟩
  · rw [fillStep]
    split
    · rename_i here
      rcases widest st.1 bound with ⟨narrower, least'⟩ | ⟨last, _⟩
      · refine ⟨(own.next narrower.later).mpr narrower, by have gt := narrower.later; omega,
          fun k border' le => least' k ((own.next (by omega)).mp border')⟩
      · omega
    · exact ⟨own, by omega, fun k border' le => least k border' (by omega)⟩
  · rcases table 0 with kept | ⟨_, _, set⟩
    · rw [kept]
      exact filled.first
    · rw [set]
      exact after
  · rcases table j with kept | ⟨_, _, set⟩
    · rw [kept]
      exact filled.most j le
    · rw [set]
      exact bound
  · rcases table j with kept | ⟨here, _, _⟩
    · rw [kept]
      exact filled.unset j (by omega)
    · omega
  · by_cases here : j = c
    · subst here
      have small := least d border' le
      rcases table j with kept | ⟨_, _, set⟩
      · rcases filled.unset j (le_refl j) with unset | set
        · have changed : (fillStep m border st j).2 j = st.1 := by
            rw [fillStep]
            dsimp only
            rw [if_pos unset, update_self]
          rw [changed]
          exact small
        · rw [kept]
          omega
      · rw [set]
        exact small
    · rcases table j with kept | ⟨wrong, _⟩
      · rw [kept]
        exact filled.whole j d (by omega) border' le
      · exact absurd wrong here
  · have le := filled.nearest k j pos elsewhere
    rcases table j with kept | ⟨here, unset, _⟩
    · rw [kept]
      exact le
    · have inside' := elsewhere.border.inside
      rw [here, unset] at le
      omega

theorem buildGoodSuffix_spec (pos : 0 < m) (enough : m + 1 < fuel) :
    ∃ good, buildGoodSuffix p m fuel = some good ∧ Good p m good := by
  obtain ⟨tables, eq, phase⟩ :=
    @borderLoop_spec p m fuel enough m _ _ (le_refl m) Phase.start
  rw [update_self] at eq
  have widest := fun k => phase.widest k (zero_le k)
  have start : Filled p m 0 (tables.1 0, tables.2) := by
    refine ⟨fun _ => ?_, ?_, fun j le => ?_, fun j _ => phase.unset j,
      fun j d lt => absurd lt (not_lt_zero j), phase.nearest⟩
    · rcases widest 0 (zero_le m) with ⟨border', least⟩ | ⟨wrong, _⟩
      · exact ⟨border', zero_le _, fun k other _ => least k other⟩
      · omega
    · rcases phase.unset 0 with unset | wrong
      · rw [unset]
        exact pos
      · omega
    · rcases phase.unset j with unset | set
      · exact le_of_eq unset
      · show tables.2 j ≤ m
        omega
  have filled : ∀ c, c ≤ m + 1 →
      Filled p m c ((List.range c).foldl (fillStep m tables.1) (tables.1 0, tables.2)) := by
    intro c
    induction c with
    | zero => exact fun _ => start
    | succ c ih =>
      intro few
      rw [range_succ, foldl_append, foldl_cons, foldl_nil]
      exact (ih (by omega)).step (by omega) widest
  have last := filled (m + 1) (le_refl _)
  refine ⟨_, ?_, last.first, last.most, fun j d le => last.whole j d (by omega), last.nearest⟩
  rw [buildGoodSuffix, eq, bind_eq_bind, bind_some]

/-- The last place of a character in the pattern. -/
theorem buildBadChar_spec (p : Nat → UInt8) (c : UInt8) : ∀ m : Nat,
    -1 ≤ buildBadChar p m c ∧ ∀ k, k < m → p k = c → (k : Int) ≤ buildBadChar p m c := by
  intro m
  induction m with
  | zero => exact ⟨Int.le_refl _, fun k lt => absurd lt (not_lt_zero k)⟩
  | succ m ih =>
    obtain ⟨low, all⟩ := ih
    rw [buildBadChar, range_succ, foldl_append, foldl_cons, foldl_nil]
    by_cases last : c = p m
    · rw [last, update_self]
      exact ⟨by omega, fun k lt _ => by omega⟩
    · rw [update_of_ne last]
      refine ⟨low, fun k lt same => all k ?_ same⟩
      by_contra far
      have here : k = m := by omega
      exact last (by rw [← same, here])

end Tables

/-! ## The search -/

variable {text pattern : List UInt8} {s d : Nat}

/-- The next occurrence is not nearer than the shift of the part that matched. -/
theorem good_le {good : Nat → Nat} (table : Good (chars pattern) pattern.length good) {i : Nat}
    (le : i ≤ pattern.length)
    (equal : ∀ k, i ≤ k → k < pattern.length → text[s + k]? = some (chars pattern k))
    (differs : 0 < i → text[s + (i - 1)]? ≠ some (chars pattern (i - 1))) (pos : 0 < d)
    (occurs : OccursAt text pattern (s + d)) : good i ≤ d := by
  by_cases far : pattern.length ≤ d
  · exact le_trans (table.most i le) far
  · -- where the pattern lies over itself
    have overlap : ∀ k, i ≤ k → d ≤ k → k < pattern.length →
        chars pattern (k - d) = chars pattern k := by
      intro k low high lt
      have later := occurs.same (k - d) (by omega)
      rw [show s + d + (k - d) = s + k by omega, equal k low lt] at later
      exact (Option.some.inj later).symm
    by_cases within : d < i
    · have border : Border (chars pattern) pattern.length (i - d) i := by
        refine ⟨by omega, le, fun t lt => ?_⟩
        have same := overlap (i + t) (by omega) (by omega) lt
        rwa [show i + t - d = i - d + t by omega] at same
      have other : chars pattern (i - d - 1) ≠ chars pattern (i - 1) := by
        intro same
        have later := occurs.same (i - d - 1) (by omega)
        rw [show s + d + (i - d - 1) = s + (i - 1) by omega, same] at later
        exact differs (by omega) later
      have bound := table.nearest (i - d) i (by omega) ⟨border, other⟩
      omega
    · have border : Border (chars pattern) pattern.length 0 d := by
        refine ⟨pos, by omega, fun t lt => ?_⟩
        have same := overlap (d + t) (by omega) (by omega) lt
        rw [Nat.add_sub_cancel_left] at same
        rw [zero_add]
        exact same
      exact table.whole i d le border (by omega)

/-- Nor than the shift by the character that differs. -/
theorem bad_le {j : Nat} (lt : j < pattern.length) (pos : 0 < d)
    (occurs : OccursAt text pattern (s + d)) :
    (j : Int) - buildBadChar (chars pattern) pattern.length (text.getD (s + j) 0) ≤ d := by
  obtain ⟨low, all⟩ := buildBadChar_spec (chars pattern) (text.getD (s + j) 0) pattern.length
  by_cases near : d ≤ j
  · have same := occurs.same (j - d) (by omega)
    rw [show s + d + (j - d) = s + j by omega] at same
    have place := all (j - d) (by omega) (by
      rw [getD_eq_getElem?_getD, same]
      rfl)
    omega
  · omega

/-- The occurrences in front of a place, and a stretch without any behind it. -/
theorem found_stretch {e : Nat} (le : s ≤ e)
    (never : ∀ q, s ≤ q → q < e → ¬ OccursAt text pattern q) :
    ((List.range e).filter fun q => decide (OccursAt text pattern q)) =
      (List.range s).filter fun q => decide (OccursAt text pattern q) := by
  obtain ⟨n, rfl⟩ : ∃ n, e = s + n := ⟨e - s, by omega⟩
  have empty : ((List.range n).map (s + ·)).filter
      (fun q => decide (OccursAt text pattern q)) = [] := by
    refine filter_eq_nil_iff.mpr fun q mem found => ?_
    obtain ⟨k, lt, rfl⟩ := mem_map.mp mem
    exact never (s + k) (le_add_right s k)
      (Nat.add_lt_add_left (mem_range.mp lt) s) (of_decide_eq_true found)
  rw [range_add, filter_append, empty, append_nil]

theorem searchLoop_spec {good : Nat → Nat} (table : Good (chars pattern) pattern.length good)
    (fits : pattern.length ≤ text.length) (short : text.length < 2 ^ 31) :
    ∀ (fuel s : Nat), text.length + 2 ≤ fuel + s →
      searchLoop text pattern (buildBadChar (chars pattern) pattern.length) good (fuel + 1) s
          ((List.range s).filter fun q => decide (OccursAt text pattern q)) =
        some (.returned (occurrences text pattern)) := by
  have wrap : (text.length + 2 ^ 64 - pattern.length) % 2 ^ 64 = text.length - pattern.length := by
    rw [show text.length + 2 ^ 64 - pattern.length = text.length - pattern.length + 2 ^ 64 by omega,
      add_mod_right]
    exact mod_eq_of_lt (by omega)
  have done : ∀ s, text.length - pattern.length < s →
      ((List.range s).filter fun q => decide (OccursAt text pattern q)) =
        occurrences text pattern := fun s behind =>
    found_stretch (by omega) fun q low _ occurs => by
      have inside := occurs.inside
      omega
  intro fuel
  induction fuel with
  | zero =>
    intro s enough
    rw [searchLoop, wrap, if_neg (by omega), done s (by omega)]
  | succ fuel ih =>
    intro s enough
    rw [searchLoop, wrap]
    split
    · rename_i within
      have inside : s + pattern.length ≤ text.length := by omega
      obtain ⟨i, eq, le, equal, differs⟩ := @compareBack_spec text s (chars pattern) _ inside
      rw [eq]
      cases i with
      | zero =>
        have here := (compareBack_zero inside).mp eq
        have pos := table.first
        have more : ((List.range s).filter fun q => decide (OccursAt text pattern q)) ++ [s] =
            (List.range (s + good 0)).filter fun q => decide (OccursAt text pattern q) := by
          rw [found_stretch (show s + 1 ≤ s + good 0 by omega), range_succ,
            filter_append, filter_singleton, decide_eq_true here]
          · rfl
          · intro q low high occurs
            have nearer := @good_le text pattern s (q - s) good table 0 le equal differs
              (by omega) (by rwa [show s + (q - s) = q by omega])
            omega
        rw [more]
        exact ih _ (by omega)
      | succ j =>
        have other : ¬ OccursAt text pattern s := fun occurs =>
          absurd ((compareBack_zero inside).mpr occurs) (by rw [eq]; exact (nomatch ·))
        dsimp only
        generalize moved : (max 1 (max ((j : Int) - buildBadChar (chars pattern) pattern.length
          (text.getD (s + j) 0)) (good (j + 1)))).toNat = n
        rw [← @found_stretch text pattern s (s + n) (by omega)]
        · exact ih _ (by omega)
        · intro q low high occurs
          by_cases here : q = s
          · exact other (here ▸ occurs)
          · have again : OccursAt text pattern (s + (q - s)) := by
              rwa [show s + (q - s) = q by omega]
            have suffix := good_le table le equal differs (show 0 < q - s by omega) again
            have bad := bad_le (show j < pattern.length by omega)
              (show 0 < q - s by omega) again
            omega
    · rename_i behind
      rw [done s (by omega)]

theorem boyerMoore_iff (short : text.length < 2 ^ 31) (nonempty : pattern ≠ []) :
    (∃ fuel, boyerMooreSearch fuel text pattern = some (.returned (occurrences text pattern))) ↔
      pattern.length ≤ text.length ∧ pattern.length + 1 < 2 ^ 31 := by
  have pos := length_pos_of_ne_nil nonempty
  constructor
  · rintro ⟨fuel, returned⟩
    rw [boyerMooreSearch, if_neg (by omega)] at returned
    split at returned
    · cases returned
    · rename_i small
      refine ⟨?_, by omega⟩
      by_contra long
      cases built : buildGoodSuffix (chars pattern) pattern.length fuel with
      | none =>
        rw [built] at returned
        cases returned
      | some good =>
        rw [built, bind_eq_bind, bind_some] at returned
        cases fuel with
        | zero => cases returned
        | succ fuel =>
          rw [searchLoop, if_pos (zero_le _),
            compareBack_outside (by omega) pos (by omega)] at returned
          cases returned
  · rintro ⟨fits, small⟩
    obtain ⟨good, built, table⟩ := @buildGoodSuffix_spec (chars pattern) pattern.length
      (text.length + 3) pos (by omega)
    refine ⟨text.length + 3, ?_⟩
    rw [boyerMooreSearch, if_neg (by omega), if_neg (by omega), built, bind_eq_bind,
      bind_some]
    exact searchLoop_spec table fits short (text.length + 2) 0 (by omega)

end Micron.Search
