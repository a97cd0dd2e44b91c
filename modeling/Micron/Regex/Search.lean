import Micron.Regex.Lists

/-!
# The search of the Pike machine

An unanchored run finds the match that starts first and, of those that start there,
the longest.  The generation is a word, so this is shown of the runs that end before
it comes round again: at latest at the end of an input of fewer than `2 ^ 32 - 1`
bytes, or at an offset where a match has been found and no thread is left.
-/

set_option autoImplicit false

namespace Micron.Regex

open Micron.Lib List Nat

/-- The machine holds the leftmost and then longest of the matches of `R`. -/
structure BestOf (R : Nat → Nat → Prop) (b : Best) : Prop where
  unmatched : b.matched = false → ∀ s e, ¬ R s e
  matched : b.matched = true → ∃ s e : Nat, b.mstart = s ∧ b.mend = e ∧
    b.mcaps[0]? = some (s : Int) ∧ b.mcaps[1]? = some (e : Int) ∧ R s e ∧
    ∀ s' e', R s' e' → s ≤ s' ∧ (s' = s → e' ≤ e)

variable {R R' : Nat → Nat → Prop} {b : Best}

theorem BestOf.mono (best : BestOf R b) (sub : ∀ s e, R s e → R' s e)
    (below : ∀ s' e', R' s' e' → ∃ s e, R s e ∧ (s < s' ∨ s = s' ∧ e' ≤ e)) : BestOf R' b where
  unmatched none s' e' inside := by
    obtain ⟨s, e, inR, -⟩ := below s' e' inside
    exact best.unmatched none s e inR
  matched some := by
    obtain ⟨s, e, start, fin, cap₀, cap₁, inR, least⟩ := best.matched some
    refine ⟨s, e, start, fin, cap₀, cap₁, sub s e inR, fun s' e' inside => ?_⟩
    obtain ⟨s₁, e₁, inR₁, order⟩ := below s' e' inside
    have first := least s₁ e₁ inR₁
    rcases order with less | ⟨rfl, le⟩
    · exact ⟨by omega, by omega⟩
    · exact ⟨first.1, fun same => le_trans le (first.2 same)⟩

theorem BestOf.offer {sav : List Int} {s p : Nat} (best : BestOf R b)
    (first : sav[0]? = some (s : Int)) (second : sav[1]? = some (p : Int)) (small : p < 2 ^ 63) :
    BestOf (fun s' e' => R s' e' ∨ s' = s ∧ e' = p) (b.offer sav p) := by
  have head : sav.headD (-1) = s := by
    rw [← head?_eq_getElem?] at first
    rw [headD_eq_head?_getD, first, Option.getD_some]
  unfold Best.offer
  rw [head, i64_of_lt small]
  dsimp only
  split
  · next better =>
      refine ⟨(fun h => nomatch h), fun _ => ⟨s, p, rfl, rfl, first, second, .inr ⟨rfl, rfl⟩, ?_⟩⟩
      rintro s' e' (inR | ⟨rfl, rfl⟩)
      · cases known : b.matched with
        | false => exact absurd inR (best.unmatched known s' e')
        | true =>
          obtain ⟨s₀, e₀, start, fin, -, -, -, least⟩ := best.matched known
          have order := least s' e' inR
          simp only [known, start, fin, Bool.not_true, Bool.false_or, Bool.or_eq_true,
            decide_eq_true_eq, Bool.and_eq_true, beq_iff_eq] at better
          omega
      · exact ⟨le_rfl, fun _ => le_rfl⟩
  · next worse =>
      cases known : b.matched with
      | false => simp [known] at worse
      | true =>
        obtain ⟨s₀, e₀, start, fin, cap₀, cap₁, inR, least⟩ := best.matched known
        refine ⟨fun h => by simp [known] at h, fun _ => ⟨s₀, e₀, start, fin, cap₀, cap₁, .inl inR, ?_⟩⟩
        rintro s' e' (inR' | ⟨rfl, rfl⟩)
        · exact least s' e' inR'
        · simp only [known, start, fin, Bool.not_true, Bool.false_or, Bool.or_eq_true,
            decide_eq_true_eq, Bool.and_eq_true, beq_iff_eq] at worse
          omega

variable {pv : ProgView} {input : List UInt8} {root : Node} {m sp lim g : Nat} {vm : Vm}

def IsMatch (pv : ProgView) (input : List UInt8) (m s e : Nat) : Prop :=
  s ≤ input.length ∧ Reach pv input s (m + 1) e

theorem IsMatch.le {s e : Nat} (isMatch : IsMatch pv input m s e) : s ≤ e ∧ e ≤ input.length := by
  have offsets := steps_offset isMatch.2
  exact ⟨offsets.1, offsets.2 isMatch.1⟩

theorem judge_best (prog : Compiled pv.code root m) {a : List Thread} {S : Nat → Prop}
    (best : BestOf R b) (alive : ∀ t ∈ a, ∃ s, S s ∧ Alive pv input m s sp t)
    (small : sp < 2 ^ 63) (bounded : ∀ s, S s → s ≤ sp) :
    BestOf (fun s e => R s e ∨ e = sp ∧ ∃ t ∈ a, t.pc = m + 1 ∧ t.start = s)
      (a.foldl (judge pv sp) b) := by
  induction a generalizing R b with
  | nil => exact best.mono (fun s e inR => .inl inR) fun s e inR =>
    ⟨s, e, by simpa using inR, .inr ⟨rfl, le_rfl⟩⟩
  | cons u rest ih =>
    obtain ⟨s, isStart, here⟩ := alive u mem_cons_self
    have start : u.start = s := by
      rw [here.start_eq prog, i64_of_lt (by have := bounded s isStart; omega)]
    have step : BestOf (fun s' e' => R s' e' ∨ e' = sp ∧ u.pc = m + 1 ∧ u.start = s')
        (judge pv sp b u) := by
      unfold judge
      by_cases last : u.pc = m + 1
      · rw [last, prog.last]
        have offered := best.offer
          (by rw [here.slots.start (here.pc_ne_zero prog), ← start, here.start_eq prog])
          (by rw [here.slots.last last, i64_of_lt small]) small
        refine offered.mono ?_ ?_
        · rintro s' e' (inR | ⟨rfl, rfl⟩)
          · exact .inl inR
          · exact .inr ⟨rfl, rfl, start⟩
        · rintro s' e' (inR | ⟨rfl, -, same⟩)
          · exact ⟨s', e', .inl inR, .inr ⟨rfl, le_rfl⟩⟩
          · exact ⟨s, _, .inr ⟨rfl, rfl⟩, .inr ⟨by omega, le_rfl⟩⟩
      · have other : ∀ i, pv.code[u.pc]? = some i → i.code ≠ .match_ := by
          intro i there isMatch
          rcases prog.inst_cases there with ⟨-, rfl⟩ | ⟨-, -, inner⟩ | ⟨-, rfl⟩ | ⟨atEnd, -⟩
          · cases isMatch
          · simp [Inst.Inner, isMatch] at inner
          · cases isMatch
          · exact last atEnd
        have same : BestOf (fun s' e' => R s' e' ∨ e' = sp ∧ u.pc = m + 1 ∧ u.start = s') b := by
          refine best.mono (fun s e inR => .inl inR) ?_
          rintro s' e' (inR | ⟨-, atEnd, -⟩)
          · exact ⟨s', e', inR, .inr ⟨rfl, le_rfl⟩⟩
          · exact absurd atEnd last
        cases there : pv.code[u.pc]? with
        | none => exact same
        | some i => simpa [other i there] using same
    refine (ih step fun t inside => alive t (mem_cons_of_mem u inside)).mono ?_ ?_
    · rintro s' e' ((inR | ⟨rfl, last, start⟩) | ⟨rfl, t, inside, rest⟩)
      · exact .inl inR
      · exact .inr ⟨rfl, u, mem_cons_self, last, start⟩
      · exact .inr ⟨rfl, t, mem_cons_of_mem u inside, rest⟩
    · rintro s' e' (inR | ⟨rfl, t, inside, last, begins⟩)
      · exact ⟨s', e', .inl (.inl inR), .inr ⟨rfl, le_rfl⟩⟩
      · refine ⟨s', _, ?_, .inr ⟨rfl, le_rfl⟩⟩
        rcases mem_cons.mp inside with rfl | later
        · exact .inl (.inr ⟨rfl, last, begins⟩)
        · exact .inr ⟨rfl, t, later, last, begins⟩

/-- What holds before the turn at offset `sp`, when starts were made below `lim`. -/
structure Progress (pv : ProgView) (input : List UInt8) (m lim sp : Nat) (vm : Vm) : Prop where
  alive : ∀ t ∈ vm.a, ∃ s, s < lim ∧ Alive pv input m s sp t
  best : BestOf (fun s e => IsMatch pv input m s e ∧ e < sp) vm.best
  opened : vm.best.matched = false → lim = sp + 1
  shut : vm.best.matched = true → ∃ s e, IsMatch pv input m s e ∧ e < sp ∧ s < lim
  early : ∀ s e, IsMatch pv input m s e → e < sp → lim ≤ e + 1
  le : lim ≤ sp + 1

/-- The matches that end at the current offset are found. -/
theorem Progress.judge (prog : Compiled pv.code root m) (progress : Progress pv input m lim sp vm)
    (good : Good pv input (· < lim) sp vm.a) (inside : sp ≤ input.length) (small : sp < 2 ^ 63) :
    BestOf (fun s e => IsMatch pv input m s e ∧ e < sp + 1)
      (vm.a.foldl (Regex.judge pv sp) vm.best) := by
  have le := progress.le
  have bounded : ∀ s, s < lim → s ≤ sp := fun s below => by omega
  have start (t : Thread) (s : Nat) (below : s < lim) (alive : Alive pv input m s sp t) :
      t.start = s := by
    rw [alive.start_eq prog, i64_of_lt (by omega)]
  refine (judge_best prog progress.best progress.alive small bounded).mono ?_ ?_
  · rintro s e (⟨isMatch, before⟩ | ⟨rfl, t, member, last, isStart⟩)
    · exact ⟨isMatch, by omega⟩
    · obtain ⟨s', below, alive⟩ := progress.alive t member
      have same : s' = s := by
        have := start t s' below alive
        omega
      subst same
      exact ⟨⟨by omega, last ▸ alive.slots.reach⟩, by omega⟩
  · rintro s' e' ⟨isMatch, bound⟩
    by_cases before : e' < sp
    · exact ⟨s', e', .inl ⟨isMatch, before⟩, .inr ⟨rfl, le_rfl⟩⟩
    obtain rfl : e' = sp := by omega
    by_cases below : s' < lim
    · obtain ⟨t, member, last, le'⟩ := good.complete s' below (m + 1)
        ⟨_, prog.last, .inr rfl⟩ isMatch.2
      obtain ⟨s, below', alive⟩ := progress.alive t member
      have isStart := start t s below' alive
      rw [i64_of_lt (by omega)] at le'
      exact ⟨s, e', .inr ⟨rfl, t, member, last, isStart⟩, by omega⟩
    · cases known : vm.best.matched with
      | false =>
        have := progress.opened known
        have := isMatch.le
        omega
      | true =>
        obtain ⟨s, e, earlier, before', below'⟩ := progress.shut known
        exact ⟨s, e, .inl ⟨earlier, before'⟩, .inl (by omega)⟩

theorem turn_eq (n : Nat) (anchored : Bool) (c : Option UInt8) (vm : Vm) :
    turn pv n anchored sp c vm =
      let gen := u32 (vm.gen + 1)
      let best := vm.a.foldl (Regex.judge pv sp) vm.best
      let l := vm.a.foldl (spread pv n gen sp c) ⟨vm.seen, []⟩
      let l' :=
        if !best.matched && !anchored && sp + 1 ≤ n then addthreadTop pv n gen (sp + 1) 0 (work pv) l
        else l
      ⟨l'.list, l'.seen, gen, best⟩ := by
  unfold turn
  dsimp only
  rw [foldl_advance]

theorem turn_best (n : Nat) (anchored : Bool) (c : Option UInt8) (vm : Vm) :
    (turn pv n anchored sp c vm).best = vm.a.foldl (Regex.judge pv sp) vm.best := by
  rw [turn_eq]

def nextLim (pv : ProgView) (lim sp : Nat) (vm : Vm) : Nat :=
  if (vm.a.foldl (Regex.judge pv sp) vm.best).matched then lim else sp + 2

theorem Progress.turn (prog : Compiled pv.code root m) (progress : Progress pv input m lim sp vm)
    (good : Good pv input (· < lim) sp vm.a) (inside : sp ≤ input.length) (small : sp < 2 ^ 63) :
    Progress pv input m (nextLim pv lim sp vm) (sp + 1)
      (turn pv input.length false sp input[sp]? vm) := by
  have judged := progress.judge prog good inside small
  have le := progress.le
  have next : ∀ t ∈ (vm.a.foldl (spread pv input.length (u32 (vm.gen + 1)) sp input[sp]?)
      ⟨vm.seen, []⟩).list, ∃ s, s < lim ∧ Alive pv input m s (sp + 1) t :=
    spread_sound prog progress.alive fun t member => nomatch member
  rw [turn_eq]
  dsimp only
  cases known : (vm.a.foldl (Regex.judge pv sp) vm.best).matched with
  | true =>
    have limit : nextLim pv lim sp vm = lim := if_pos known
    rw [limit]
    refine ⟨by simpa [known] using next, judged, fun none => ?_, fun _ => ?_, ?_, by omega⟩
    · rw [known] at none
      cases none
    · cases before : vm.best.matched with
      | false =>
        obtain ⟨s, e, -, -, -, -, ⟨isMatch, bound⟩, -⟩ := judged.matched known
        have := progress.opened before
        have := isMatch.le
        exact ⟨s, e, isMatch, bound, by omega⟩
      | true =>
        obtain ⟨s, e, isMatch, bound, below⟩ := progress.shut before
        exact ⟨s, e, isMatch, by omega, below⟩
    · intro s e isMatch bound
      by_cases before : e < sp
      · exact progress.early s e isMatch before
      · omega
  | false =>
    have limit : nextLim pv lim sp vm = sp + 2 := if_neg (by simp [known])
    rw [limit]
    refine ⟨fun t member => ?_, judged, fun _ => rfl, fun some => ?_, ?_, le_rfl⟩
    · have wider (t : Thread) (old : ∃ s, s < lim ∧ Alive pv input m s (sp + 1) t) :
          ∃ s, s < sp + 2 ∧ Alive pv input m s (sp + 1) t := by
        obtain ⟨s, below, alive⟩ := old
        exact ⟨s, by omega, alive⟩
      split at member
      · obtain ⟨s, either, alive⟩ := begin_sound prog next t member
        exact ⟨s, by omega, alive⟩
      · exact wider t (next t member)
    · rw [known] at some
      cases some
    · intro s e isMatch bound
      exact absurd ⟨isMatch, bound⟩ (judged.unmatched known s e)

/-! ## Whole runs -/

/-- The list is complete and no mark is ahead of the generation, which was `g` before
the run. -/
structure Current (pv : ProgView) (input : List UInt8) (S : Nat → Prop) (g sp : Nat) (vm : Vm) :
    Prop where
  good : Good pv input S sp vm.a
  gen : vm.gen = g + sp + 1
  seen : ∀ k, vm.seen k ≤ g + sp + 1

theorem Current.turn (prog : Compiled pv.code root m) (progress : Progress pv input m lim sp vm)
    (current : Current pv input (· < lim) g sp vm) (inside : sp + 1 ≤ input.length)
    (small : g + sp + 2 < 2 ^ 32) :
    Current pv input (· < nextLim pv lim sp vm) g (sp + 1)
      (turn pv input.length false sp input[sp]? vm) := by
  have le := progress.le
  have gen : u32 (vm.gen + 1) = g + sp + 2 := by
    rw [current.gen]
    exact u32_of_lt small
  have fresh : ∀ k, vm.seen k ≠ g + sp + 2 := fun k => by
    have := current.seen k
    omega
  obtain ⟨good, built⟩ := current.good.next prog progress.alive (fun s below => by omega) fresh
  have next : ∀ t ∈ (vm.a.foldl (spread pv input.length (g + sp + 2) sp input[sp]?)
      ⟨vm.seen, []⟩).list, ∃ s, s < lim ∧ Alive pv input m s (sp + 1) t :=
    spread_sound prog progress.alive fun t member => nomatch member
  have marks : ∀ k, (vm.a.foldl (spread pv input.length (g + sp + 2) sp input[sp]?)
      ⟨vm.seen, []⟩).seen k ≤ g + sp + 2 := by
    intro k
    have := current.seen k
    rcases foldl_spread_seen pv (g + sp + 2) sp vm.a ⟨vm.seen, []⟩ input[sp]? input.length k with
      marked | same
    · omega
    · rw [same]
      show vm.seen k ≤ g + sp + 2
      omega
  rw [turn_eq, gen]
  dsimp only
  cases known : (vm.a.foldl (Regex.judge pv sp) vm.best).matched with
  | true =>
    have limit : nextLim pv lim sp vm = lim := if_pos known
    rw [limit]
    exact ⟨by simpa [known] using good, rfl, by simpa [known, add_assoc] using marks⟩
  | false =>
    have limit : nextLim pv lim sp vm = sp + 2 := if_neg (by simp [known])
    have judged := progress.judge prog current.good (by omega) (by omega)
    have isOpen : lim = sp + 1 := by
      cases before : vm.best.matched with
      | false => exact progress.opened before
      | true =>
        obtain ⟨s, e, isMatch, bound, -⟩ := progress.shut before
        exact absurd ⟨isMatch, by omega⟩ (judged.unmatched known s e)
    have starts : (fun s => s < lim ∨ s = sp + 1) = (· < sp + 2) := by
      funext s
      exact propext (by omega)
    obtain ⟨good', -⟩ := good.begin prog built next (fun s below => by omega) (by omega)
    rw [limit]
    refine ⟨by simpa [known, inside, starts] using good', rfl, fun k => ?_⟩
    simp only [inside, Bool.not_false, Bool.true_and, decide_true, if_true]
    rcases addthreadTop_seen 0 (work pv) _ k with marked | same
    · exact le_of_eq marked
    · exact same.symm ▸ marks k

/-- A match has ended before `p` and nothing that started up to its end is left. -/
def Halts (pv : ProgView) (input : List UInt8) (m p : Nat) : Prop :=
  ∃ s e, IsMatch pv input m s e ∧ e < p ∧
    ∀ s' ≤ e, ∀ k, Waits pv.code k → ¬ Reach pv input s' k p

theorem Progress.halted {p : Nat} (progress : Progress pv input m lim p vm)
    (halts : Halts pv input m p) :
    vm.a = [] ∧ vm.best.matched = true ∧
      ∀ s < lim, ∀ k, Waits pv.code k → ¬ Reach pv input s k p := by
  obtain ⟨s, e, isMatch, before, dead⟩ := halts
  have early := progress.early s e isMatch before
  refine ⟨eq_nil_iff_forall_not_mem.mpr fun t member => ?_, ?_, fun s' below => ?_⟩
  · obtain ⟨s', below, alive⟩ := progress.alive t member
    exact dead s' (by omega) t.pc alive.waits alive.slots.reach
  · by_contra unmatched
    exact progress.best.unmatched (by simpa using unmatched) s e ⟨isMatch, before⟩
  · exact dead s' (by omega)

/-- With no thread left there is nothing more to find. -/
theorem Progress.finish (prog : Compiled pv.code root m) (progress : Progress pv input m lim sp vm)
    (found : vm.best.matched = true)
    (dead : ∀ s < lim, ∀ k, Waits pv.code k → ¬ Reach pv input s k sp) :
    BestOf (IsMatch pv input m) vm.best := by
  have le := progress.le
  refine progress.best.mono (fun s e inside => inside.1) fun s' e' isMatch => ?_
  by_cases before : e' < sp
  · exact ⟨s', e', ⟨isMatch, before⟩, .inr ⟨rfl, le_rfl⟩⟩
  · have late : ¬ s' < lim := by
      intro below
      obtain ⟨k, waits, reach⟩ := exists_waiting ⟨_, prog.last, .inr rfl⟩ isMatch.2
        (show s' ≤ sp by omega) (by omega)
      exact dead s' below k waits reach
    obtain ⟨s, e, earlier, bound, below⟩ := progress.shut found
    exact ⟨s, e, ⟨earlier, bound⟩, .inl (by omega)⟩

theorem loop_stop {n : Nat} {anchored : Bool} (rest : List UInt8) (empty : vm.a = [])
    (found : vm.best.matched = true) : loop pv n anchored rest sp vm = vm := by
  cases rest <;> simp [loop, empty, found]

theorem Good.dead {S : Nat → Prop} (good : Good pv input S sp []) :
    ∀ s, S s → ∀ k, Waits pv.code k → ¬ Reach pv input s k sp := by
  intro s isStart k waits reach
  obtain ⟨t, member, -⟩ := good.complete s isStart k waits reach
  cases member

theorem loop_best (prog : Compiled pv.code root m) (rest : List UInt8) :
    ∀ (sp lim : Nat) (vm : Vm), rest = input.drop sp → sp ≤ input.length →
      Progress pv input m lim sp vm → Current pv input (· < lim) g sp vm →
      (g + input.length + 1 < 2 ^ 32 ∨ ∃ p, sp ≤ p ∧ g + p < 2 ^ 32 ∧ Halts pv input m p) →
      BestOf (IsMatch pv input m) (loop pv input.length false rest sp vm).best := by
  induction rest with
  | nil =>
    intro sp lim vm left inside progress current lasts
    have atEnd : sp = input.length := by
      have := drop_eq_nil_iff.mp left.symm
      omega
    have small : sp < 2 ^ 63 := by
      rcases lasts with short | ⟨p, le, bound, -⟩ <;> omega
    by_cases stop : vm.a = [] ∧ vm.best.matched = true
    · rw [loop_stop [] stop.1 stop.2]
      exact progress.finish prog stop.2 (stop.1 ▸ current.good).dead
    · have go : (vm.a.isEmpty && (vm.best.matched || false)) = false := by
        simpa [Bool.and_eq_false_imp] using stop
      have judged := progress.judge prog current.good inside small
      rw [loop, go, if_neg Bool.false_ne_true, turn_best]
      refine judged.mono (fun s e both => both.1) fun s e isMatch => ?_
      have := isMatch.le
      exact ⟨s, e, ⟨isMatch, by omega⟩, .inr ⟨rfl, le_rfl⟩⟩
  | cons c rest ih =>
    intro sp lim vm left inside progress current lasts
    have before : sp < input.length := by
      by_contra outside
      rw [drop_eq_nil_of_le (by omega)] at left
      cases left
    have byte : input[sp]? = some c := by
      rw [← head?_drop, ← left]
      rfl
    have left' : rest = input.drop (sp + 1) := by
      rw [← tail_drop, ← left]
      rfl
    have small : sp < 2 ^ 63 := by
      rcases lasts with short | ⟨p, le, bound, -⟩ <;> omega
    by_cases stop : vm.a = [] ∧ vm.best.matched = true
    · rw [loop_stop (c :: rest) stop.1 stop.2]
      exact progress.finish prog stop.2 (stop.1 ▸ current.good).dead
    · have go : (vm.a.isEmpty && (vm.best.matched || false)) = false := by
        simpa [Bool.and_eq_false_imp] using stop
      have progress' := progress.turn prog current.good inside small
      rw [loop, go, if_neg Bool.false_ne_true, ← byte]
      rcases lasts with short | ⟨p, le, bound, halts⟩
      · exact ih _ _ _ left' before progress'
          (current.turn prog progress before (by omega)) (.inl short)
      · have ahead : sp ≠ p := by
          rintro rfl
          obtain ⟨empty, found, -⟩ := progress.halted halts
          exact stop ⟨empty, found⟩
        by_cases room : g + sp + 2 < 2 ^ 32
        · exact ih _ _ _ left' before progress' (current.turn prog progress before room)
            (.inr ⟨p, by omega, bound, halts⟩)
        -- the generation comes round with the list for `p`, which is empty all the same
        · obtain rfl : p = sp + 1 := by omega
          obtain ⟨empty, found, dead⟩ := progress'.halted halts
          rw [loop_stop rest empty found]
          exact progress'.finish prog found dead

/-- The machine before the first turn of a run from `st`. -/
def begun (pv : ProgView) (n st : Nat) (vm : Vm) : Vm :=
  let l := addthreadTop pv n (vm.gen + 1) st 0 (work pv) ⟨vm.seen, []⟩
  ⟨l.list, l.seen, vm.gen + 1, { vm.best with matched := false, mcaps := work pv }⟩

theorem run_eq {anchored : Bool} {st : Nat} (room : vm.gen + 1 < 2 ^ 32) :
    run pv input anchored st vm =
      loop pv input.length anchored (input.drop st) st (begun pv input.length st vm) := by
  unfold run begun
  rw [u32_of_lt room]

theorem begun_seen {st : Nat} (seen : ∀ k, vm.seen k ≤ vm.gen) (k : Nat) :
    (begun pv input.length st vm).seen k ≤ vm.gen + 1 := by
  rcases addthreadTop_seen 0 (work pv) ⟨vm.seen, []⟩ k with marked | same
  · exact le_of_eq marked
  · exact le_trans (le_of_eq same) (le_trans (seen k) (le_succ _))

/-- All that the first list holds comes from the start at `st`. -/
theorem begun_list {st : Nat} (prog : Compiled pv.code root m) (seen : ∀ k, vm.seen k ≤ vm.gen)
    (small : st < 2 ^ 63) :
    (∀ t ∈ (begun pv input.length st vm).a, ∃ s, s = st ∧ Alive pv input m s st t) ∧
      Good pv input (· = st) st (begun pv input.length st vm).a := by
  have built : Built pv input.length st (vm.gen + 1) ⟨vm.seen, []⟩ := Built.empty fun k => by
    have := seen k
    omega
  have nobody : ∀ t ∈ (⟨vm.seen, []⟩ : Closure).list, ∃ s, False ∧ Alive pv input m s st t :=
    fun t member => nomatch member
  obtain ⟨good, -⟩ := Good.begin prog (Good.empty fun _ => id) built nobody
    (fun _ => False.elim) small
  have alive : ∀ t ∈ (addthreadTop pv input.length (vm.gen + 1) st 0 (work pv) ⟨vm.seen, []⟩).list,
      ∃ s, (False ∨ s = st) ∧ Alive pv input m s st t := begin_sound prog nobody
  simp only [false_or] at good alive
  exact ⟨alive, good⟩

theorem begun_search (prog : Compiled pv.code root m) (seen : ∀ k, vm.seen k ≤ vm.gen) :
    Progress pv input m 1 0 (begun pv input.length 0 vm) ∧
      Current pv input (· < 1) vm.gen 0 (begun pv input.length 0 vm) := by
  obtain ⟨alive, good⟩ : (∀ t ∈ (begun pv input.length 0 vm).a, ∃ s, s = 0 ∧ Alive pv input m s 0 t) ∧
      Good pv input (· = 0) 0 (begun pv input.length 0 vm).a := begun_list prog seen (by decide)
  have starts : (fun s => s = 0) = (· < 1) := by
    funext s
    exact propext (by simp)
  refine ⟨⟨?_, ?_, fun _ => rfl, ?_, ?_, le_rfl⟩, starts ▸ good, rfl, begun_seen seen⟩
  · intro t member
    obtain ⟨s, rfl, alive⟩ := alive t member
    exact ⟨0, zero_lt_one, alive⟩
  · exact ⟨fun _ s e both => by omega, fun some => by cases some⟩
  · intro some
    cases some
  · intro s e _ bound
    omega

theorem run_best (prog : Compiled pv.code root m) {vm : Vm} (seen : ∀ k, vm.seen k ≤ vm.gen)
    (lasts : vm.gen + input.length + 1 < 2 ^ 32 ∨
      ∃ p, vm.gen + p < 2 ^ 32 ∧ Halts pv input m p) :
    BestOf (IsMatch pv input m) (run pv input false 0 vm).best := by
  have room : vm.gen + 1 < 2 ^ 32 := by
    rcases lasts with short | ⟨p, bound, s, e, -, before, -⟩ <;> omega
  rw [run_eq room]
  obtain ⟨progress, current⟩ := begun_search prog seen
  refine loop_best prog _ 0 1 _ rfl (zero_le _) progress current ?_
  rcases lasts with short | ⟨p, bound, halts⟩
  · exact .inl short
  · exact .inr ⟨p, zero_le p, bound, halts⟩

end Micron.Regex

/-!
## Leftmost-longest matching

The result of an unanchored run against the language of the tree, and the input on
which the generation comes round and a match is lost.
-/

namespace Micron.Regex

open Micron.Lib

/-- The bytes from `s` up to `e` are in the language of the tree. -/
def Occurs (cls : List Charreach) (input : List UInt8) (root : Node) (s e : Nat) : Prop :=
  s ≤ e ∧ e ≤ input.length ∧ Lang cls input root s e

/-- A match is reported exactly if there is one, and then group 0 is the one that
starts first and of these the one that ends last. -/
def LeftmostLongest (cls : List Charreach) (input : List UInt8) (root : Node) (b : Best) : Prop :=
  (b.matched = true ↔ ∃ s e, Occurs cls input root s e) ∧
    (b.matched = true → ∃ s e : Nat, b.mcaps[0]? = some (s : Int) ∧ b.mcaps[1]? = some (e : Int) ∧
      Occurs cls input root s e ∧
        ∀ s' e', Occurs cls input root s' e' → s ≤ s' ∧ (s' = s → e' ≤ e))

/-- The word of the generation is not used up: the input is short enough, or the run
ends at an offset below `2 ^ 32` because there has been a match and no thread that
started up to the end of it is alive any more. -/
def GenerationLasts (pv : ProgView) (input : List UInt8) (root : Node) : Prop :=
  input.length + 1 < 2 ^ 32 ∨
    ∃ p < 2 ^ 32, ∃ s e, Occurs pv.cls input root s e ∧ e < p ∧
      ∀ s' ≤ e, ∀ k, Waits pv.code k → ¬ Reach pv input s' k p

theorem occurs_iff (pv : ProgView) (input : List UInt8) {root : Node} {m : Nat}
    (prog : Compiled pv.code root m) (s e : Nat) :
    Occurs pv.cls input root s e ↔ IsMatch pv input m s e := by
  refine ⟨fun ⟨le, bound, inL⟩ => ⟨le_trans le bound, (prog.lang_iff s e).mp inL⟩, fun isMatch => ?_⟩
  exact ⟨isMatch.le.1, isMatch.le.2, (prog.lang_iff s e).mpr isMatch.2⟩

theorem pike_run_is_leftmost_longest (maxi ngroups : Nat) (cls : List Charreach) (root : Node)
    (input : List UInt8) (code : List Inst) (wf : root.Wf)
    (compiles : compileNode maxi root = some code) (fits : code.length ≤ 2 ^ 32)
    (lasts : GenerationLasts ⟨code, cls, ngroups⟩ input root) :
    LeftmostLongest cls input root (run ⟨code, cls, ngroups⟩ input false 0 Vm.init).best := by
  obtain ⟨m, prog⟩ := compileNode_compiled wf compiles fits
  have occurs (s e : Nat) :
      Occurs cls input root s e ↔ IsMatch ⟨code, cls, ngroups⟩ input m s e :=
    occurs_iff ⟨code, cls, ngroups⟩ input prog s e
  have best : BestOf (Occurs cls input root) (run ⟨code, cls, ngroups⟩ input false 0 Vm.init).best := by
    rw [show Occurs cls input root = _ from funext fun s => funext fun e => propext (occurs s e)]
    refine run_best prog (fun _ => le_rfl) ?_
    rw [show Vm.init.gen = 0 from rfl, zero_add]
    rcases lasts with short | ⟨p, bound, s, e, found, before, dead⟩
    · exact .inl short
    · refine .inr ⟨p, ?_, s, e, (occurs s e).mp found, before, dead⟩
      rwa [zero_add]
  refine ⟨⟨fun found => ?_, fun ⟨s, e, inside⟩ => ?_⟩, fun found => ?_⟩
  · obtain ⟨s, e, -, -, -, -, inside, -⟩ := best.matched found
    exact ⟨s, e, inside⟩
  · by_contra unmatched
    exact best.unmatched (by simpa using unmatched) s e inside
  · obtain ⟨s, e, -, -, cap₀, cap₁, inside, least⟩ := best.matched found
    exact ⟨s, e, cap₀, cap₁, inside, least⟩

/-- The pattern `(a|ab)c*`. -/
def wordTree : Node :=
  .concat (.alt (.char 97) (.concat (.char 97) (.char 98))) (.star (.char 99))

/-- On `xabccx` the second branch is the longer one. -/
theorem pike_run_is_leftmost_longest_word :
    ∃ code, compileNode 24 wordTree = some code ∧
      (run ⟨code, [], 0⟩ [120, 97, 98, 99, 99, 120] false 0 Vm.init).best.mcaps = [1, 5] ∧
      LeftmostLongest [] [120, 97, 98, 99, 99, 120] wordTree
        (run ⟨code, [], 0⟩ [120, 97, 98, 99, 99, 120] false 0 Vm.init).best := by
  refine ⟨_, rfl, by decide +kernel, ?_⟩
  have wf : wordTree.Wf := by decide
  exact pike_run_is_leftmost_longest 24 0 [] wordTree _ _ wf rfl (by decide) (.inl (by decide))

def charProgram : ProgView :=
  ⟨[⟨.save, 0, 0⟩, ⟨.char, 97, 0⟩, ⟨.save, 1, 0⟩, ⟨.match_, 0, 0⟩], [], 0⟩

/-- The machine after `sp` bytes that are no `a`: one thread at the byte, and nothing
marked behind it. -/
def waiting (sp : Nat) : Vm :=
  ⟨[⟨1, [i64 sp, -1]⟩], fun k => if k = 1 then sp + 1 else if k = 0 then sp + 1 else 0, sp + 1,
    ⟨false, 0, 0, [-1, -1]⟩⟩

theorem begin_waiting (n gen sp : Nat) (seen : Nat → Nat) (fresh₀ : seen 0 ≠ gen)
    (fresh₁ : seen 1 ≠ gen) :
    addthreadTop charProgram n gen sp 0 [-1, -1] ⟨seen, []⟩ =
      ⟨fun k => if k = 1 then gen else if k = 0 then gen else seen k, [⟨1, [i64 sp, -1]⟩]⟩ := by
  simp [addthreadTop, addthread, charProgram, Closure.mark, ProgView.nslots, fresh₀, fresh₁]

theorem turn_waiting (n sp : Nat) (inside : sp + 1 ≤ n) (small : sp + 2 < 2 ^ 32) :
    turn charProgram n false sp (some 120) (waiting sp) = waiting (sp + 1) := by
  have gen : u32 (sp + 1 + 1) = sp + 2 := u32_of_lt small
  have start := begin_waiting n (sp + 2) (sp + 1) (waiting sp).seen (by simp [waiting])
    (by simp [waiting])
  have quiet : (waiting sp).a.foldl (advance charProgram n (sp + 2) sp (some 120))
      (⟨(waiting sp).seen, []⟩, (waiting sp).best) = (⟨(waiting sp).seen, []⟩, (waiting sp).best) := by
    simp [waiting, advance, charProgram, consumes]
  have marks : (fun k => if k = 1 then sp + 2 else if k = 0 then sp + 2 else (waiting sp).seen k) =
      (waiting (sp + 1)).seen := by
    funext k
    simp only [waiting]
    split_ifs <;> rfl
  unfold turn
  rw [show (waiting sp).gen = sp + 1 from rfl, gen]
  dsimp only
  rw [quiet]
  rw [if_pos (by simp [waiting, inside]), show work charProgram = [-1, -1] from rfl, start, marks]
  rfl

/-- At the `a` the generation is back at 0, as are the marks behind the byte. -/
theorem turn_wrapped (n sp : Nat) (inside : sp + 1 ≤ n) (wraps : sp + 2 = 2 ^ 32) :
    (turn charProgram n false sp (some 97) (waiting sp)).a = [⟨1, [i64 (sp + 1), -1]⟩] ∧
      (turn charProgram n false sp (some 97) (waiting sp)).best = (waiting sp).best := by
  have gen : u32 (sp + 1 + 1) = 0 := by
    show (sp + 2) % 2 ^ 32 = 0
    rw [wraps, Nat.mod_self]
  have start := begin_waiting n 0 (sp + 1) (waiting sp).seen (by simp [waiting])
    (by simp [waiting])
  have lost : (waiting sp).a.foldl (advance charProgram n 0 sp (some 97))
      (⟨(waiting sp).seen, []⟩, (waiting sp).best) = (⟨(waiting sp).seen, []⟩, (waiting sp).best) := by
    simp [waiting, advance, charProgram, consumes, addthreadTop, addthread]
  unfold turn
  rw [show (waiting sp).gen = sp + 1 from rfl, gen]
  dsimp only
  rw [lost]
  rw [if_pos (by simp [waiting, inside]), show work charProgram = [-1, -1] from rfl, start]
  exact ⟨rfl, rfl⟩

theorem loop_waiting (n k : Nat) : ∀ sp, sp + k + 2 = 2 ^ 32 → n = sp + k + 1 →
    (loop charProgram n false (List.replicate k 120 ++ [97]) sp (waiting sp)).best.matched = false := by
  induction k with
  | zero =>
    intro sp wraps size
    obtain ⟨list, best⟩ := turn_wrapped n sp (by omega) (by omega)
    have go : ((waiting sp).a.isEmpty && ((waiting sp).best.matched || false)) = false := rfl
    rw [List.replicate_zero, List.nil_append, loop, go, if_neg Bool.false_ne_true, loop, list, best]
    -- past the end no thread is at `match`
    rw [if_neg (by simp), turn_best, list, best]
    simp [judge, charProgram, waiting]
  | succ k ih =>
    intro sp wraps size
    have go : ((waiting sp).a.isEmpty && ((waiting sp).best.matched || false)) = false := rfl
    rw [List.replicate_succ, List.cons_append, loop, go, if_neg Bool.false_ne_true,
      turn_waiting n sp (by omega) (by omega)]
    exact ih (sp + 1) (by omega) (by omega)

theorem charProgram_occurs (k : Nat) :
    Occurs [] (List.replicate k 120 ++ [97]) (.char 97) k (k + 1) := by
  refine ⟨Nat.le_succ k, by simp, ?_, rfl⟩
  simp

theorem charProgram_unmatched {k : Nat} (wraps : k + 2 = 2 ^ 32) :
    (run charProgram (List.replicate k 120 ++ [97]) false 0 Vm.init).best.matched = false := by
  have size : (List.replicate k (120 : UInt8) ++ [97]).length = k + 1 := by simp
  unfold run
  rw [size, show u32 (Vm.init.gen + 1) = 1 by decide, show work charProgram = [-1, -1] from rfl]
  exact loop_waiting (k + 1) k 0 (by omega) (by omega)

/-- One `a` behind `2 ^ 32 - 2` other bytes is not found. -/
theorem pike_run_loses_match :
    ¬ LeftmostLongest [] (List.replicate (2 ^ 32 - 2) 120 ++ [97]) (.char 97)
      (run charProgram (List.replicate (2 ^ 32 - 2) 120 ++ [97]) false 0 Vm.init).best ∧
    compileNode 24 (.char 97) = some charProgram.code := by
  refine ⟨fun result => ?_, by decide⟩
  obtain ⟨k, isK⟩ : ∃ k, k = 2 ^ 32 - 2 := ⟨_, rfl⟩
  rw [← isK] at result
  have found := result.1.mpr ⟨k, k + 1, charProgram_occurs k⟩
  rw [charProgram_unmatched (by omega)] at found
  cases found

end Micron.Regex
