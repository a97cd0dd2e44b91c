import Micron.Regex.Dfa
import Micron.Lib.Loop

/-!
# The executors of the automaton agree

Every entry of the table is a state.  A state that is left by few bytes only may pass
over the others, and a state of sixteen survives in the low half of a byte, so the two
faster executors return what the plain walk through the table does.
-/

set_option autoImplicit false

namespace Micron.Regex

open Micron.Lib List Nat Bool

structure DfaTable.Wf (t : DfaTable) : Prop where
  few : t.nstates ≤ kDfaMaxStates
  start : t.start < t.nstates
  next : ∀ s < t.nstates, ∀ c : UInt8, t.table (s * 256 + c.toNat) < t.nstates

structure Rows.Filled (rows : Rows) (k : Nat) : Prop where
  few : rows.states.length ≤ kDfaMaxStates
  inside : ∀ j < k, rows.table j < rows.states.length

theorem intern_spec {states states' : List DfaState} {s : DfaState} {i : Nat}
    (few : states.length ≤ kDfaMaxStates) (found : intern states s = some (i, states')) :
    i < states'.length ∧ states.length ≤ states'.length ∧ states'.length ≤ kDfaMaxStates := by
  rw [intern] at found
  split at found
  next j here =>
    cases found
    exact ⟨(findIdx?_eq_some_iff_findIdx_eq.mp here).1, le_refl _, few⟩
  next =>
    split at found
    next => exact nomatch found
    next room =>
      cases found
      rw [length_append, length_singleton]
      exact ⟨lt_succ_self _, le_succ _, not_le.mp room⟩

section Building
variable {pv : ProgView} {restart : Bool} {rows rows' : Rows} {sid : Nat} {s : DfaState}

theorem fillCell_spec {c : Nat} (filled : rows.Filled (sid * 256 + c))
    (done : fillCell pv restart sid s rows c = some rows') :
    rows'.Filled (sid * 256 + (c + 1)) ∧ rows.states.length ≤ rows'.states.length := by
  obtain ⟨⟨i, states'⟩, found, rfl⟩ := Option.map_eq_some_iff.mp done
  obtain ⟨inside, grows, few⟩ := intern_spec filled.few found
  have word : i % 256 = i := mod_eq_of_lt (lt_of_lt_of_le inside (le_trans few (by decide)))
  refine ⟨⟨few, fun j below => ?_⟩, grows⟩
  dsimp only
  split
  next => rwa [word]
  next other => exact lt_of_lt_of_le (filled.inside j (by omega)) grows

/-- A row for every state, as far as there are states. -/
theorem fillRow_spec (filled : rows.Filled (min sid rows.states.length * 256))
    (done : fillRow pv restart rows sid = some rows') :
    rows'.Filled (min (sid + 1) rows'.states.length * 256) ∧
      rows.states.length ≤ rows'.states.length := by
  rw [fillRow] at done
  split at done
  next none =>
    cases done
    have past := getElem?_eq_none_iff.mp none
    rw [min_eq_right past] at filled
    rw [min_eq_right (le_succ_of_le past)]
    exact ⟨filled, le_refl _⟩
  next s here =>
    have inside := (List.getElem?_eq_some_iff.mp here).1
    rw [min_eq_left (le_of_lt inside)] at filled
    let P := fun (c : Nat) (r : Rows) =>
      r.Filled (sid * 256 + c) ∧ rows.states.length ≤ r.states.length
    have step : ∀ c r r', c < 256 → P c r → fillCell pv restart sid s r c = some r' → P (c + 1) r' := by
      intro c r r' _ holds cell
      obtain ⟨next, more⟩ := fillCell_spec holds.1 cell
      exact ⟨next, le_trans holds.2 more⟩
    have first : P 0 rows := by
      refine ⟨?_, le_refl _⟩
      rw [add_zero]
      exact filled
    obtain ⟨whole, grows⟩ := foldlM_range_inv P first step done
    rw [min_eq_left (le_trans inside grows), succ_mul]
    exact ⟨whole, grows⟩

theorem buildTable_wf {t : DfaTable} (built : buildTable pv = some t) : t.Wf := by
  rw [buildTable] at built
  split at built
  · exact nomatch built
  · split at built
    · exact nomatch built
    · split at built
      next => exact nomatch built
      next start states first =>
        obtain ⟨rows, ran, rfl⟩ := Option.map_eq_some_iff.mp built
        obtain ⟨isState, _, few⟩ := intern_spec (zero_le _) first
        obtain ⟨filled, grows⟩ := foldlM_range_inv
          (fun sid (r : Rows) =>
            r.Filled (min sid r.states.length * 256) ∧ states.length ≤ r.states.length)
          ⟨⟨few, fun j below => absurd below (by omega)⟩, le_refl _⟩
          (fun sid r r' _ holds step =>
            have next := fillRow_spec holds.1 step
            ⟨next.1, le_trans holds.2 next.2⟩) ran
        rw [min_eq_right filled.few] at filled
        refine ⟨filled.few, lt_of_lt_of_le isState grows, fun s below c => ?_⟩
        have small := c.toNat_lt
        have row : s * 256 + 256 ≤ rows.states.length * 256 := by
          rw [← succ_mul]
          exact mul_le_mul_right 256 below
        exact filled.inside _ (by omega)

end Building

namespace Dfa
variable {d : Dfa} {s : Nat} {rest : List UInt8}

/-- A state that is not accepting passes over the bytes that leave it as it is. -/
theorem tableLoop_drop (plain : d.accept s = false) (i : Nat)
    (stays : ∀ c ∈ rest.take i, d.next s c = s) : d.tableLoop s rest = d.tableLoop s (rest.drop i) := by
  induction rest generalizing i with
  | nil => rw [drop_nil]
  | cons c rest ih =>
    cases i with
    | zero => rfl
    | succ i =>
      have here := stays c mem_cons_self
      rw [tableLoop, here, plain, if_neg Bool.false_ne_true, drop_succ_cons]
      exact ih i fun c later => stays c (mem_cons_of_mem _ later)

theorem tableLoop_stays (plain : d.accept s = false) (stays : ∀ c ∈ rest, d.next s c = s) :
    d.tableLoop s rest = d.eolAccept s := by
  rw [tableLoop_drop plain rest.length fun c inside => stays c (mem_of_mem_take inside),
    drop_length, tableLoop]

structure Scans (d : Dfa) (s : Nat) (rest : List UInt8) : Prop where
  passed : ∀ i, d.skip s rest = some i → ∀ c ∈ rest.take i, d.next s c = s
  never : d.skip s rest = none → ∀ c ∈ rest, d.next s c = s

theorem accelLoop_eq (wf : d.Wf) (scans : ∀ s < d.nstates, ∀ rest, d.Scans s rest) (fuel : Nat)
    (enough : rest.length < fuel) (inside : s < d.nstates) (plain : d.accept s = false) :
    d.accelLoop fuel s rest = d.tableLoop s rest := by
  induction fuel generalizing s rest with
  | zero => exact absurd enough (not_lt_zero _)
  | succ fuel ih =>
    have scan := scans s inside rest
    rw [accelLoop]
    split
    next empty => rw [eq_nil_of_length_eq_zero empty, tableLoop]
    next =>
      split
      next none => exact (tableLoop_stays plain (scan.never none)).symm
      next i found =>
        rw [tableLoop_drop plain i (scan.passed i found)]
        split
        next past => rw [past, tableLoop]
        next c tail left =>
          rw [left, tableLoop]
          dsimp only
          cases next : d.accept (d.next s c) with
          | true => rfl
          | false =>
            have shorter := congrArg List.length left
            rw [length_drop, length_cons] at shorter
            exact ih (by omega) (wf.next s inside c) next

end Dfa

section Accel
variable {t : DfaTable} {s : Nat} {rest : List UInt8}

theorem mem_escapes {c : Nat} :
    c ∈ t.escapes s ↔ c < 256 ∧ t.table (s * 256 + c) ≠ s % 256 := by
  rw [DfaTable.escapes, mem_filter, mem_range, decide_eq_true_iff]

theorem next_of_not_escape (small : s < 256) {c : UInt8} (stays : c.toNat ∉ t.escapes s) :
    t.table (s * 256 + c.toNat) = s := by
  by_contra leaves
  refine stays (mem_escapes.mpr ⟨c.toNat_lt, ?_⟩)
  rwa [mod_eq_of_lt small]

theorem not_of_mem_take_findIdx {α : Type} {p : α → Bool} {l : List α} {a : α}
    (inside : a ∈ l.take (l.findIdx p)) : p a = false := by
  obtain ⟨k, below, rfl⟩ := mem_take_iff_getElem.mp inside
  have early : k < l.findIdx p := by omega
  exact not_of_lt_findIdx early

theorem test_foldl_bytes (l : List Nat) (small : ∀ c ∈ l, c < 256) (r : Charreach) (d : UInt8) :
    (l.foldl (fun r c => r.set (UInt8.ofNat c)) r).test d = (decide (d.toNat ∈ l) || r.test d) := by
  have same : d ∈ l.map UInt8.ofNat ↔ d.toNat ∈ l := by
    rw [mem_map]
    constructor
    · rintro ⟨c, inside, rfl⟩
      rwa [UInt8.toNat_ofNat_of_lt' (small c inside)]
    · exact fun inside => ⟨d.toNat, inside, UInt8.ofNat_toNat⟩
  rw [← foldl_map (f := UInt8.ofNat) (g := Charreach.set), Charreach.test_foldl_set]
  simp only [same]

/-- The scan of a state stops at every byte that leaves it. -/
theorem finish_scans (shengAvailable : Bool) (small : s < 256) :
    (t.finish shengAvailable).Scans s rest := by
  have stays : ∀ p : UInt8 → Bool, (∀ c : UInt8, c.toNat ∈ t.escapes s → p c = true) →
      ∀ c, p c = false → t.table (s * 256 + c.toNat) = s := by
    intro p stops c goes
    refine next_of_not_escape small fun leaves => ?_
    rw [stops c leaves] at goes
    exact Bool.noConfusion goes
  cases scan : t.accel s with
  | none =>
    have skips : (t.finish shengAvailable).skip s rest = some 0 := by
      rw [Dfa.skip, show (t.finish shengAvailable).accel s = .none from scan]
    refine ⟨fun i found c inside => ?_, fun none => ?_⟩
    · cases skips.symm.trans found
      exact absurd inside not_mem_nil
    · exact nomatch skips.symm.trans none
  | byte escape =>
    have skips : (t.finish shengAvailable).skip s rest = memchr escape rest := by
      rw [Dfa.skip, show (t.finish shengAvailable).accel s = .byte escape from scan]
    have stops : ∀ c : UInt8, c.toNat ∈ t.escapes s → (c == escape) = true := by
      rw [DfaTable.accel] at scan
      split at scan
      · exact nomatch scan
      · split at scan
        next => exact nomatch scan
        next first only =>
          cases scan
          intro c leaves
          rw [only, mem_singleton] at leaves
          rw [← leaves, UInt8.ofNat_toNat, beq_self_eq_true]
        next => split at scan <;> exact nomatch scan
    refine ⟨fun i found c inside => ?_, fun none c inside => ?_⟩
    · rw [skips, memchr, findIdx?_eq_some_iff_findIdx_eq] at found
      rw [← found.2] at inside
      exact stays (fun c => c == escape) stops c
        (not_of_mem_take_findIdx (p := fun c => c == escape) inside)
    · rw [skips, memchr, findIdx?_eq_none_iff] at none
      exact stays (fun c => c == escape) stops c (none c inside)
  | set escapes =>
    have skips : (t.finish shengAvailable).skip s rest =
        if rest.length ≤ truffleFindFirst escapes rest then none
        else some (truffleFindFirst escapes rest) := by
      rw [Dfa.skip, show (t.finish shengAvailable).accel s = .set escapes from scan]
    have stops : ∀ c : UInt8, c.toNat ∈ t.escapes s → escapes.hits c = true := by
      rw [DfaTable.accel] at scan
      split at scan
      · exact nomatch scan
      · split at scan
        next => exact nomatch scan
        next => exact nomatch scan
        next =>
          split at scan
          next =>
            cases scan
            intro c leaves
            rw [TruffleMasks.hits_build, test_foldl_bytes _ fun c inside => (mem_escapes.mp inside).1,
              decide_eq_true leaves, Bool.true_or]
          next => exact nomatch scan
    refine ⟨fun i found c inside => ?_, fun none c inside => ?_⟩
    · rw [skips] at found
      split at found
      next => exact nomatch found
      next =>
        cases found
        exact stays _ stops c (not_of_mem_take_findIdx inside)
    · rw [skips] at none
      split at none
      next far =>
        rw [truffleFindFirst] at far
        rw [← take_length (l := rest)] at inside
        exact stays _ stops c (not_of_mem_take_findIdx (mem_of_mem_take (by
          rwa [take_of_length_le far])))
      next => exact nomatch none

end Accel

/-! ## The state in a byte -/

theorem sbyte_facts : ∀ s < 16, ∀ accept eol : Bool,
    let b := BitVec.ofNat 8 s ||| (if accept then kShengAccept else 0) |||
      (if eol then kShengEol else 0)
    b.msb = false ∧ b.toNat % 16 = s ∧ (b &&& kShengAccept != 0) = accept ∧
      (b &&& kShengEol != 0) = eol := by
  decide +kernel

theorem or_and_ne_zero {w : Nat} (x y k : BitVec w) :
    ((x ||| y) &&& k != 0) = ((x &&& k != 0) || (y &&& k != 0)) := by
  rw [BitVec.and_comm, BitVec.and_or_distrib_left, BitVec.and_comm k x, BitVec.and_comm k y]
  generalize x &&& k = a
  generalize y &&& k = b
  have both : a ||| b = 0 ↔ a = 0 ∧ b = 0 := BitVec.or_eq_zero_iff
  rw [Bool.eq_iff_iff, Bool.or_eq_true, bne_iff_ne, bne_iff_ne, bne_iff_ne, ne_eq, both,
    not_and_or]

section Sheng
variable {t : DfaTable} {shengAvailable : Bool} {s : Nat} {cur : Nat → BitVec 8}

/-- What lane 0 of the shuffled vector says about the state it carries. -/
structure Carries (t : DfaTable) (cur : Nat → BitVec 8) (s : Nat) : Prop where
  inside : s < t.nstates
  lane : cur 0 = t.sbyte s

theorem Carries.accepts (few : t.nstates ≤ 16) (carries : Carries t cur s) :
    (cur 0 &&& kShengAccept != 0) = t.accept s := by
  rw [carries.lane]
  exact (sbyte_facts s (lt_of_lt_of_le carries.inside few) (t.accept s) (t.eolAccept s)).2.2.1

theorem Carries.accepts_eol (few : t.nstates ≤ 16) (carries : Carries t cur s) :
    (cur 0 &&& kShengEol != 0) = t.eolAccept s := by
  rw [carries.lane]
  exact (sbyte_facts s (lt_of_lt_of_le carries.inside few) (t.accept s) (t.eolAccept s)).2.2.2

theorem Carries.shuffled (shengAvailable : Bool) (wf : t.Wf) (few : t.nstates ≤ 16)
    (carries : Carries t cur s) (c : UInt8) :
    Carries t (Dfa.shuffle ((t.finish shengAvailable).masks c) cur)
      ((t.finish shengAvailable).next s c) := by
  obtain ⟨positive, index, -, -⟩ :=
    sbyte_facts s (lt_of_lt_of_le carries.inside few) (t.accept s) (t.eolAccept s)
  refine ⟨wf.next s carries.inside c, ?_⟩
  have selected : (t.finish shengAvailable).masks c s =
      t.sbyte ((t.finish shengAvailable).next s c) := by
    show t.sbyte (if s < t.nstates then t.table (s * 256 + c.toNat) else 0) = _
    rw [if_pos carries.inside]
    rfl
  rw [Dfa.shuffle, carries.lane, DfaTable.sbyte, positive, index, if_neg Bool.false_ne_true, selected]

theorem shengTail_eq (wf : t.Wf) (few : t.nstates ≤ 16) (carries : Carries t cur s)
    (input : List UInt8) :
    (t.finish shengAvailable).shengTail cur input = (t.finish shengAvailable).tableLoop s input := by
  induction input generalizing cur s with
  | nil => exact carries.accepts_eol few
  | cons c rest ih =>
    have next := carries.shuffled shengAvailable wf few c
    rw [Dfa.shengTail, Dfa.tableLoop, next.accepts few, ih next]
    rfl

theorem Dfa.tableLoop_four (d : Dfa) (s : Nat) (c1 c2 c3 c4 : UInt8) (rest : List UInt8) :
    let s1 := d.next s c1
    let s2 := d.next s1 c2
    let s3 := d.next s2 c3
    let s4 := d.next s3 c4
    d.tableLoop s (c1 :: c2 :: c3 :: c4 :: rest) =
      if d.accept s1 || d.accept s2 || d.accept s3 || d.accept s4 then true
      else d.tableLoop s4 rest := by
  intro s1 s2 s3 s4
  simp only [tableLoop]
  cases d.accept s1 <;> cases d.accept s2 <;> cases d.accept s3 <;> rfl

/-- Four shuffles are four steps, and one look at their sum finds an accepting state. -/
theorem shengLoop_eq (wf : t.Wf) (few : t.nstates ≤ 16) :
    ∀ (input : List UInt8) {cur : Nat → BitVec 8} {s : Nat}, Carries t cur s →
      (t.finish shengAvailable).shengLoop cur input = (t.finish shengAvailable).tableLoop s input
  | c1 :: c2 :: c3 :: c4 :: rest, _, _, carries => by
    have next1 := carries.shuffled shengAvailable wf few c1
    have next2 := next1.shuffled shengAvailable wf few c2
    have next3 := next2.shuffled shengAvailable wf few c3
    have next4 := next3.shuffled shengAvailable wf few c4
    rw [Dfa.shengLoop, Dfa.tableLoop_four, shengLoop_eq wf few rest next4]
    simp only [or_and_ne_zero, next1.accepts few, next2.accepts few, next3.accepts few,
      next4.accepts few]
    rfl
  | [], _, _, carries => shengTail_eq wf few carries []
  | [_], _, _, carries => shengTail_eq wf few carries _
  | [_, _], _, _, carries => shengTail_eq wf few carries _
  | [_, _, _], _, _, carries => shengTail_eq wf few carries _

end Sheng

/-- The three executors return the same for every program and every input. -/
theorem dfa_executors_agree (shengAvailable : Bool) (pv : ProgView) (d : Dfa)
    (built : buildDfa shengAvailable pv = some d) (input : List UInt8) :
    d.accelHasMatch input = d.tableHasMatch input ∧
      (d.hasSheng = true → d.shengHasMatch input = d.tableHasMatch input) := by
  obtain ⟨t, table, rfl⟩ := Option.map_eq_some_iff.mp built
  have wf := buildTable_wf table
  have whole : (t.finish shengAvailable).tableHasMatch input =
      if t.accept t.start then true else (t.finish shengAvailable).tableLoop t.start input := by
    cases input with
    | nil => rfl
    | cons c rest => rfl
  rw [whole]
  constructor
  · show (if t.accept t.start then true
        else (t.finish shengAvailable).accelLoop (input.length + 1) t.start input) = _
    split
    next => rfl
    next plain =>
      have small (s : Nat) (inside : s < t.nstates) : s < 256 :=
        lt_trans (lt_of_lt_of_le inside wf.few) (by decide)
      exact Dfa.accelLoop_eq wf (fun s inside rest => finish_scans shengAvailable (small s inside)) _
        (lt_succ_self _) wf.start (eq_false_iff.mpr plain)
  · intro sheng
    have few : t.nstates ≤ 16 := of_decide_eq_true (and_eq_true_iff.mp sheng).2
    have carries : Carries t (fun _ => t.sbyte t.start) t.start := ⟨wf.start, rfl⟩
    have accepts := carries.accepts few
    show (if t.sbyte t.start &&& kShengAccept != 0 then true
      else if input.length = 0 then t.sbyte t.start &&& kShengEol != 0
      else (t.finish shengAvailable).shengLoop (fun _ => t.sbyte t.start) input) = _
    rw [accepts, shengLoop_eq wf few input carries]
    cases input with
    | nil => rw [carries.accepts_eol few]; rfl
    | cons c rest => rfl

/-- Two bytes one after the other: three states, so all three executors are there. -/
theorem dfa_executors_agree_pair :
    ∃ d, buildDfa true ⟨[⟨.char, 97, 0⟩, ⟨.char, 98, 0⟩, ⟨.match_, 0, 0⟩], [], 0⟩ = some d ∧
      d.hasSheng = true ∧ ∀ input, d.accelHasMatch input = d.tableHasMatch input ∧
        (d.hasSheng = true → d.shengHasMatch input = d.tableHasMatch input) := by
  have built : ((buildDfa true ⟨[⟨.char, 97, 0⟩, ⟨.char, 98, 0⟩, ⟨.match_, 0, 0⟩], [], 0⟩).map
      Dfa.hasSheng) = some true := by decide +kernel
  obtain ⟨d, found, sheng⟩ := Option.map_eq_some_iff.mp built
  exact ⟨d, found, sheng, dfa_executors_agree true _ d found⟩

end Micron.Regex
