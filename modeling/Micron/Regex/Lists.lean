import Micron.Regex.Closure

/-!
# The list of threads

The list for an offset is sound and complete: each of its threads is a run of the
program from an offset where a start was made, and for each such run there is a
thread that waits at the same instruction and started no later.
-/

set_option autoImplicit false

namespace Micron.Regex

open Micron.Lib List

theorem i64_of_lt {x : Nat} (small : x < 2 ^ 63) : i64 x = x := by
  refine Int.bmod_eq_of_le ?_ ?_ <;> omega

/-- The program gets from a start at `s` to instruction `k` at offset `p`. -/
def Reach (pv : ProgView) (input : List UInt8) (s k p : Nat) : Prop :=
  Relation.ReflTransGen (Step pv input) (0, s) (k, p)

def EpsReach (pv : ProgView) (n p : Nat) : Nat → Nat → Prop :=
  Relation.ReflTransGen fun k k' => k' ∈ epsilon pv.code n p k

variable {pv : ProgView} {input : List UInt8} {root : Node} {m s p k : Nat}

theorem step_offset {c c' : Nat × Nat} (step : Step pv input c c') :
    c'.2 = c.2 ∨ c.2 < input.length ∧ c'.2 = c.2 + 1 := by
  rcases step with ⟨-, same⟩ | ⟨i, -, reads, rfl⟩
  · exact .inl same
  · refine .inr ⟨?_, rfl⟩
    by_contra outside
    rw [getElem?_eq_none (Nat.le_of_not_lt outside)] at reads
    cases reads

theorem steps_offset {c c' : Nat × Nat} (steps : Relation.ReflTransGen (Step pv input) c c') :
    c.2 ≤ c'.2 ∧ (c.2 ≤ input.length → c'.2 ≤ input.length) := by
  induction steps with
  | refl => exact ⟨le_refl _, id⟩
  | tail _ step ih =>
    rcases step_offset step with same | ⟨inside, next⟩
    · rw [same]
      exact ih
    · omega

theorem Reach.split_last (reach : Reach pv input s k (p + 1)) :
    (s = p + 1 ∧ EpsReach pv input.length (p + 1) 0 k) ∨
      ∃ q i, Reach pv input s q p ∧ pv.code[q]? = some i ∧ consumes pv.cls i input[p]? = true ∧
        EpsReach pv input.length (p + 1) (q + 1) k := by
  obtain ⟨c, isC⟩ : ∃ c, c = (k, p + 1) := ⟨_, rfl⟩
  unfold Reach at reach
  rw [← isC] at reach
  induction reach generalizing k with
  | refl =>
    cases isC
    exact .inl ⟨rfl, Relation.ReflTransGen.refl⟩
  | @tail b c path step ih =>
    subst isC
    rcases step with ⟨move, same⟩ | ⟨i, here, reads, next⟩
    · obtain ⟨q, p'⟩ := b
      obtain rfl : p + 1 = p' := same
      rcases ih rfl with ⟨first, eps⟩ | ⟨q', i, before, here, reads, eps⟩
      · exact .inl ⟨first, eps.tail move⟩
      · exact .inr ⟨q', i, before, here, reads, eps.tail move⟩
    · obtain ⟨q, p'⟩ := b
      rw [Prod.mk.injEq] at next
      obtain ⟨rfl, next⟩ := next
      obtain rfl : p = p' := by omega
      exact .inr ⟨q, i, path, here, reads, Relation.ReflTransGen.refl⟩

theorem waits_of_consumes {i : Inst} {c : Option UInt8} (here : pv.code[k]? = some i)
    (reads : consumes pv.cls i c = true) : Waits pv.code k ∧ i.code.reads = true := by
  have waiting : i.code.reads = true := by
    cases c with
    | none => cases reads
    | some c => cases h : i.code <;> simp_all [consumes, Op.reads]
  exact ⟨⟨i, here, .inl waiting⟩, waiting⟩

/-- Every run waits at every offset that it goes through. -/
theorem exists_waiting {c : Nat × Nat} {M e : Nat} (last : Waits pv.code M)
    (run : Relation.ReflTransGen (Step pv input) c (M, e)) (low : c.2 ≤ p) (high : p ≤ e) :
    ∃ k, Waits pv.code k ∧ Relation.ReflTransGen (Step pv input) c (k, p) := by
  induction run using Relation.ReflTransGen.head_induction_on with
  | refl =>
    obtain rfl : p = e := le_antisymm high low
    exact ⟨M, last, Relation.ReflTransGen.refl⟩
  | @head c c' step _ ih =>
    have again (low : c'.2 ≤ p) :
        ∃ k, Waits pv.code k ∧ Relation.ReflTransGen (Step pv input) c (k, p) := by
      obtain ⟨k, waits, run⟩ := ih low
      exact ⟨k, waits, run.head step⟩
    rcases step with ⟨-, same⟩ | ⟨i, here, reads, rfl⟩
    · exact again (same ▸ low)
    · by_cases here' : c.2 = p
      · exact ⟨c.1, (waits_of_consumes here reads).1, here' ▸ Relation.ReflTransGen.refl⟩
      · exact again (by show c.2 + 1 ≤ p; omega)

/-- The slots of a thread at `pc` and offset `p` that started at `s`. -/
structure Slots (pv : ProgView) (input : List UInt8) (m s p pc : Nat) (sav : List Int) : Prop where
  reach : Reach pv input s pc p
  size : sav.length = pv.nslots
  opening : pc = 0 → p = s
  start : pc ≠ 0 → sav[0]? = some (i64 s)
  last : pc = m + 1 → sav[1]? = some (i64 p)

/-- Inside the tree a move keeps the first slot and does not reach `match`. -/
theorem move_inner {q q' : Nat × List Int} {i : Inst} (here : pv.code[q.1]? = some i)
    (high : q.1 < m) (inner : i.Inner 1 m)
    (move : q' ∈ moves pv input.length p q) :
    1 ≤ q'.1 ∧ q'.1 ≤ m ∧ q'.2.length = q.2.length ∧ q'.2[0]? = q.2[0]? := by
  unfold Inst.Inner at inner
  simp only [moves, here] at move
  cases code : i.code with
  | jmp =>
    simp only [code, mem_singleton] at inner move
    subst move
    exact ⟨inner.1, inner.2, rfl, rfl⟩
  | split =>
    simp only [code, mem_cons, not_mem_nil, or_false] at inner move
    rcases move with rfl | rfl
    · exact ⟨inner.1.1, inner.1.2, rfl, rfl⟩
    · exact ⟨inner.2.1, inner.2.2, rfl, rfl⟩
  | save =>
    simp only [code, mem_singleton] at inner move
    subst move
    refine ⟨by simp, high, ?_, ?_⟩
    · dsimp only
      split <;> simp
    · dsimp only
      split
      · exact getElem?_set_ne (by omega)
      · rfl
  | bol | eol =>
    simp only [code] at move
    split at move
    · obtain rfl := mem_singleton.mp move
      exact ⟨by simp, high, rfl, rfl⟩
    · cases move
  | char | cls | any | match_ =>
    simp only [code] at move
    cases move

theorem Slots.move (prog : Compiled pv.code root m) {q q' : Nat × List Int}
    (slots : Slots pv input m s p q.1 q.2) (move : q' ∈ moves pv input.length p q) :
    Slots pv input m s p q'.1 q'.2 := by
  have next : q'.1 ∈ epsilon pv.code input.length p q.1 := by
    rw [← moves_fst]
    exact mem_map_of_mem move
  have reach : Reach pv input s q'.1 p := slots.reach.tail (.inl ⟨next, rfl⟩)
  have room : 2 ≤ pv.nslots := by unfold ProgView.nslots; omega
  cases here : pv.code[q.1]? with
  | none => simp [moves, here] at move
  | some i =>
    rcases prog.inst_cases here with ⟨first, rfl⟩ | ⟨low, high, inner⟩ | ⟨closing, rfl⟩ | ⟨-, rfl⟩
    · have positive := prog.one_le
      simp only [moves, here, mem_singleton] at move
      rw [if_pos (by omega)] at move
      subst move
      refine ⟨reach, by simpa using slots.size, by simp, fun _ => ?_, by dsimp only; omega⟩
      rw [slots.opening first]
      exact getElem?_set_self (by rw [slots.size]; omega)
    · obtain ⟨positive, below, size, same⟩ := move_inner here high inner move
      refine ⟨reach, size.trans slots.size, by omega, fun _ => ?_, by omega⟩
      exact same.trans (slots.start (by omega))
    · have positive := prog.one_le
      simp only [moves, here, mem_singleton] at move
      rw [if_pos (by omega)] at move
      subst move
      refine ⟨reach, by simpa using slots.size, by simp, fun _ => ?_, fun _ => ?_⟩
      · exact (getElem?_set_ne (by omega)).trans (slots.start (by omega))
      · exact getElem?_set_self (by rw [slots.size]; omega)
    · simp [moves, here] at move

theorem Slots.moves (prog : Compiled pv.code root m) {q q' : Nat × List Int}
    (slots : Slots pv input m s p q.1 q.2)
    (path : Relation.ReflTransGen (fun q q' => q' ∈ Regex.moves pv input.length p q) q q') :
    Slots pv input m s p q'.1 q'.2 := by
  induction path with
  | refl => exact slots
  | tail _ move ih => exact Slots.move prog ih move

structure Alive (pv : ProgView) (input : List UInt8) (m s p : Nat) (t : Thread) : Prop where
  slots : Slots pv input m s p t.pc t.sav
  waits : Waits pv.code t.pc

def Thread.start (t : Thread) : Int := t.sav.headD (-1)

theorem Alive.pc_ne_zero (prog : Compiled pv.code root m) {t : Thread}
    (alive : Alive pv input m s p t) : t.pc ≠ 0 := by
  intro first
  obtain ⟨i, here, kind⟩ := alive.waits
  rw [first, Option.mem_def, prog.opening] at here
  obtain rfl := Option.some.inj here
  simp [Op.reads] at kind

theorem Alive.start_eq (prog : Compiled pv.code root m) {t : Thread}
    (alive : Alive pv input m s p t) : t.start = i64 s := by
  have first := alive.slots.start (alive.pc_ne_zero prog)
  rw [← head?_eq_getElem?] at first
  rw [Thread.start, headD_eq_head?_getD, first, Option.getD_some]

/-- A thread that reads a byte starts a thread at the next offset. -/
theorem Alive.read (prog : Compiled pv.code root m) {t : Thread} {i : Inst}
    (alive : Alive pv input m s p t) (here : pv.code[t.pc]? = some i)
    (reads : consumes pv.cls i input[p]? = true) :
    Slots pv input m s (p + 1) (t.pc + 1) t.sav where
  reach := alive.slots.reach.tail (.inr ⟨i, here, reads, rfl⟩)
  size := alive.slots.size
  opening := by simp
  start _ := alive.slots.start (alive.pc_ne_zero prog)
  last atEnd := by
    obtain rfl : t.pc = m := by omega
    rw [prog.closing] at here
    obtain rfl := Option.some.inj here
    cases h : input[p]? <;> simp [consumes, h] at reads

def spread (pv : ProgView) (n gen sp : Nat) (c : Option UInt8) (l : Closure) (t : Thread) : Closure :=
  match pv.code[t.pc]? with
  | none => l
  | some i =>
    if consumes pv.cls i c then addthreadTop pv n gen (sp + 1) (t.pc + 1) t.sav l else l

def judge (pv : ProgView) (sp : Nat) (b : Best) (t : Thread) : Best :=
  match pv.code[t.pc]? with
  | none => b
  | some i => if i.code = .match_ then b.offer t.sav sp else b

theorem foldl_advance (n gen sp : Nat) (c : Option UInt8) (a : List Thread) (l : Closure) (b : Best) :
    a.foldl (advance pv n gen sp c) (l, b) =
      (a.foldl (spread pv n gen sp c) l, a.foldl (judge pv sp) b) := by
  induction a generalizing l b with
  | nil => rfl
  | cons t rest ih =>
    have one : advance pv n gen sp c (l, b) t = (spread pv n gen sp c l t, judge pv sp b t) := by
      unfold advance spread judge
      cases pv.code[t.pc]? with
      | none => rfl
      | some i =>
        by_cases accept : i.code = .match_
        · have quiet : consumes pv.cls i c = false := by
            cases c <;> simp [consumes, accept]
          simp [accept, quiet]
        · simp only [accept, if_false]
          split <;> rfl
    rw [foldl_cons, foldl_cons, foldl_cons, one, ih]

section Spread

variable {S : Nat → Prop} {gen sp : Nat} {a : List Thread} {l : Closure}

/-- Every thread of the next list goes on from a start of the last. -/
theorem spread_sound (prog : Compiled pv.code root m)
    (old : ∀ t ∈ a, ∃ s, S s ∧ Alive pv input m s sp t)
    (sofar : ∀ t ∈ l.list, ∃ s, S s ∧ Alive pv input m s (sp + 1) t) :
    ∀ t ∈ (a.foldl (spread pv input.length gen sp input[sp]?) l).list,
      ∃ s, S s ∧ Alive pv input m s (sp + 1) t := by
  induction a generalizing l with
  | nil => exact sofar
  | cons u rest ih =>
    refine ih (fun t inside => old t (mem_cons_of_mem u inside)) fun t member => ?_
    obtain ⟨s, isStart, alive⟩ := old u mem_cons_self
    unfold spread at member
    cases here : pv.code[u.pc]? with
    | none =>
      rw [here] at member
      exact sofar t member
    | some i =>
      rw [here] at member
      dsimp only at member
      split at member
      · next reads =>
          rcases mem_addthreadTop member with before | ⟨waits, path⟩
          · exact sofar t before
          · exact ⟨s, isStart, (alive.read prog here reads).moves prog path, waits⟩
      · exact sofar t member

theorem spread_seen (pv : ProgView) (gen sp : Nat) (l : Closure) (t : Thread) (c : Option UInt8)
    (n k : Nat) :
    (spread pv n gen sp c l t).seen k = gen ∨ (spread pv n gen sp c l t).seen k = l.seen k := by
  unfold spread
  split
  · exact .inr rfl
  · split
    · exact addthreadTop_seen _ _ l k
    · exact .inr rfl

theorem foldl_spread_seen (pv : ProgView) (gen sp : Nat) (a : List Thread) (l : Closure)
    (c : Option UInt8) (n k : Nat) :
    (a.foldl (spread pv n gen sp c) l).seen k = gen ∨
      (a.foldl (spread pv n gen sp c) l).seen k = l.seen k := by
  induction a generalizing l with
  | nil => exact .inr rfl
  | cons t rest ih =>
    rcases ih (spread pv n gen sp c l t) with marked | same
    · exact .inl marked
    · rcases spread_seen pv gen sp l t c n k with marked | same'
      · exact .inl (same.trans marked)
      · exact .inr (same.trans same')

structure Stage (pv : ProgView) (input : List UInt8) (gen sp : Nat) (done : List Thread)
    (l : Closure) : Prop where
  built : Built pv input.length (sp + 1) gen l
  sorted : l.list.Pairwise fun t u => t.start ≤ u.start
  source : ∀ t ∈ l.list, ∃ u ∈ done, t.start = u.start
  cover : ∀ u ∈ done, ∀ i, pv.code[u.pc]? = some i → consumes pv.cls i input[sp]? = true →
    ∀ k, EpsReach pv input.length (sp + 1) (u.pc + 1) k → Waits pv.code k →
      ∃ t ∈ l.list, t.pc = k ∧ t.start ≤ u.start

theorem Built.reach {n : Nat} {k k' : Nat} (built : Built pv n p gen l) (marked : l.seen k = gen)
    (eps : EpsReach pv n p k k') : l.seen k' = gen := by
  induction eps with
  | refl => exact marked
  | tail _ move ih => exact built.closed _ ih _ move

theorem Stage.empty {seen : Nat → Nat} (fresh : ∀ k, seen k ≠ gen) :
    Stage pv input gen sp [] ⟨seen, []⟩ where
  built := Built.empty fresh
  sorted := List.Pairwise.nil
  source _ inside := nomatch inside
  cover _ inside := nomatch inside

theorem Stage.skip {done : List Thread} (stage : Stage pv input gen sp done l) (u : Thread)
    (still : ∀ i, pv.code[u.pc]? = some i → consumes pv.cls i input[sp]? = false) :
    Stage pv input gen sp (done ++ [u]) l where
  built := stage.built
  sorted := stage.sorted
  source t inside := by
    obtain ⟨v, before, same⟩ := stage.source t inside
    exact ⟨v, mem_append_left [u] before, same⟩
  cover v member i here reads := by
    rcases mem_append.mp member with before | now
    · exact stage.cover v before i here reads
    · obtain rfl := mem_singleton.mp now
      rw [still i here] at reads
      cases reads

/-- Threads that are added last start no earlier than the threads before them. -/
theorem Stage.step (prog : Compiled pv.code root m) {done : List Thread} {u : Thread}
    (stage : Stage pv input gen sp done l) (alive : Alive pv input m s sp u)
    (later : ∀ v ∈ done, v.start ≤ u.start) :
    Stage pv input gen sp (done ++ [u]) (spread pv input.length gen sp input[sp]? l u) := by
  unfold spread
  obtain ⟨i, here, -⟩ := alive.waits
  rw [here]
  dsimp only
  by_cases reads : consumes pv.cls i input[sp]? = true
  · rw [if_pos reads]
    obtain ⟨built, marked, new, list, fromHere⟩ := stage.built.add (u.pc + 1) u.sav
    have young (t : Thread) (inside : t ∈ new) : t.start = u.start := by
      obtain ⟨waits, path⟩ := fromHere t inside
      have alive' : Alive pv input m s (sp + 1) t :=
        ⟨(alive.read prog here reads).moves prog path, waits⟩
      rw [alive'.start_eq prog, alive.start_eq prog]
    have old (t : Thread) (inside : t ∈ l.list) : t.start ≤ u.start := by
      obtain ⟨v, before, same⟩ := stage.source t inside
      exact same ▸ later v before
    refine ⟨built, ?_, fun t inside => ?_, fun v member j there reads' k eps waits => ?_⟩
    · rw [list, pairwise_append]
      refine ⟨stage.sorted, ?_, fun t before t' now => (young t' now).symm ▸ old t before⟩
      exact pairwise_of_forall_mem_list fun t now t' now' =>
        le_of_eq ((young t now).trans (young t' now').symm)
    · rw [list] at inside
      rcases mem_append.mp inside with before | now
      · obtain ⟨v, before, same⟩ := stage.source t before
        exact ⟨v, mem_append_left [u] before, same⟩
      · exact ⟨u, mem_append_right done (mem_singleton_self u), young t now⟩
    · rcases mem_append.mp member with before | now
      · obtain ⟨t, inside, same, le⟩ := stage.cover v before j there reads' k eps waits
        exact ⟨t, list ▸ mem_append_left new inside, same, le⟩
      · obtain rfl := mem_singleton.mp now
        obtain ⟨t, inside, same⟩ := built.listed k (built.reach marked eps) waits
        refine ⟨t, inside, same, ?_⟩
        rw [list] at inside
        rcases mem_append.mp inside with before | now
        · exact old t before
        · exact le_of_eq (young t now)
  · rw [if_neg reads]
    refine stage.skip u fun j there => ?_
    obtain rfl := Option.some.inj (here.symm.trans there)
    simpa using reads

theorem Stage.all (prog : Compiled pv.code root m) {done : List Thread}
    (stage : Stage pv input gen sp done l)
    (alive : ∀ t ∈ a, ∃ s, S s ∧ Alive pv input m s sp t)
    (sorted : (done ++ a).Pairwise fun t u => t.start ≤ u.start) :
    Stage pv input gen sp (done ++ a) (a.foldl (spread pv input.length gen sp input[sp]?) l) := by
  induction a generalizing done l with
  | nil => simpa using stage
  | cons u rest ih =>
    obtain ⟨s, -, here⟩ := alive u mem_cons_self
    have later : ∀ v ∈ done, v.start ≤ u.start := fun v before =>
      (pairwise_append.mp sorted).2.2 v before u mem_cons_self
    rw [append_cons] at sorted ⊢
    exact ih (stage.step prog here later) (fun t inside => alive t (mem_cons_of_mem u inside))
      sorted

end Spread

/-! ## Good lists -/

/-- The list for offset `p`, with the starts of `S`. -/
structure Good (pv : ProgView) (input : List UInt8) (S : Nat → Prop) (p : Nat)
    (a : List Thread) : Prop where
  sorted : a.Pairwise fun t u => t.start ≤ u.start
  complete : ∀ s, S s → ∀ k, Waits pv.code k → Reach pv input s k p →
    ∃ t ∈ a, t.pc = k ∧ t.start ≤ i64 s

section Good

variable {S : Nat → Prop} {gen sp : Nat} {a : List Thread} {l : Closure} {seen : Nat → Nat}

theorem Good.empty (none : ∀ s, ¬ S s) : Good pv input S p [] :=
  ⟨List.Pairwise.nil, fun s isStart => absurd isStart (none s)⟩

theorem Good.next (prog : Compiled pv.code root m) (good : Good pv input S sp a)
    (alive : ∀ t ∈ a, ∃ s, S s ∧ Alive pv input m s sp t) (behind : ∀ s, S s → s ≤ sp)
    (fresh : ∀ k, seen k ≠ gen) :
    Good pv input S (sp + 1)
        (a.foldl (spread pv input.length gen sp input[sp]?) ⟨seen, []⟩).list ∧
      Built pv input.length (sp + 1) gen
        (a.foldl (spread pv input.length gen sp input[sp]?) ⟨seen, []⟩) := by
  have stage := (Stage.empty fresh).all prog alive (by simpa using good.sorted)
  refine ⟨⟨stage.sorted, fun s isStart k waits reach => ?_⟩, stage.built⟩
  rcases reach.split_last with ⟨now, -⟩ | ⟨q, i, before, here, reads, eps⟩
  · have := behind s isStart
    omega
  · obtain ⟨u, inside, rfl, le⟩ :=
      good.complete s isStart q (waits_of_consumes here reads).1 before
    obtain ⟨t, inside', same, le'⟩ := stage.cover u inside i here reads k eps waits
    exact ⟨t, inside', same, le_trans le' le⟩

theorem Reach.eps (reach : Reach pv input s k s) : EpsReach pv input.length s 0 k := by
  obtain ⟨c, isC⟩ : ∃ c, c = (k, s) := ⟨_, rfl⟩
  unfold Reach at reach
  rw [← isC] at reach
  induction reach generalizing k with
  | refl =>
    cases isC
    exact Relation.ReflTransGen.refl
  | @tail b c path step ih =>
    subst isC
    obtain ⟨q, p'⟩ := b
    have low : s ≤ p' := (steps_offset path).1
    rcases step with ⟨move, same⟩ | ⟨i, -, -, next⟩
    · obtain rfl : s = p' := same
      exact (ih rfl).tail move
    · rw [Prod.mk.injEq] at next
      omega

theorem slots_root (pv : ProgView) (input : List UInt8) (m p : Nat) :
    Slots pv input m p p 0 (work pv) where
  reach := Relation.ReflTransGen.refl
  size := by simp [work]
  opening _ := rfl
  start other := absurd rfl other
  last atEnd := by omega

theorem begin_sound (prog : Compiled pv.code root m)
    (alive : ∀ t ∈ l.list, ∃ s, S s ∧ Alive pv input m s p t) :
    ∀ t ∈ (addthreadTop pv input.length gen p 0 (work pv) l).list,
      ∃ s, (S s ∨ s = p) ∧ Alive pv input m s p t := by
  intro t member
  rcases mem_addthreadTop member with before | ⟨waits, path⟩
  · obtain ⟨s, isStart, alive⟩ := alive t before
    exact ⟨s, .inl isStart, alive⟩
  · exact ⟨p, .inr rfl, (slots_root pv input m p).moves prog path, waits⟩

/-- A start at the current offset, with its threads behind all others. -/
theorem Good.begin (prog : Compiled pv.code root m) (good : Good pv input S p l.list)
    (built : Built pv input.length p gen l)
    (alive : ∀ t ∈ l.list, ∃ s, S s ∧ Alive pv input m s p t) (behind : ∀ s, S s → s ≤ p)
    (small : p < 2 ^ 63) :
    Good pv input (fun s => S s ∨ s = p) p
        (addthreadTop pv input.length gen p 0 (work pv) l).list ∧
      Built pv input.length p gen (addthreadTop pv input.length gen p 0 (work pv) l) := by
  obtain ⟨built', marked, new, list, fromHere⟩ := built.add 0 (work pv)
  have old (t : Thread) (inside : t ∈ l.list) : t.start ≤ i64 p := by
    obtain ⟨s, isStart, alive⟩ := alive t inside
    have := behind s isStart
    rw [alive.start_eq prog, i64_of_lt small, i64_of_lt (by omega)]
    omega
  have young (t : Thread) (inside : t ∈ new) : t.start = i64 p := by
    obtain ⟨waits, path⟩ := fromHere t inside
    have alive : Alive pv input m p p t := ⟨(slots_root pv input m p).moves prog path, waits⟩
    exact alive.start_eq prog
  refine ⟨⟨?_, fun s isStart k waits reach => ?_⟩, built'⟩
  · rw [list, pairwise_append]
    refine ⟨good.sorted, ?_, fun t before t' now => (young t' now).symm ▸ old t before⟩
    exact pairwise_of_forall_mem_list fun t now t' now' =>
      le_of_eq ((young t now).trans (young t' now').symm)
  · rcases isStart with isStart | rfl
    · obtain ⟨t, inside, same, le⟩ := good.complete s isStart k waits reach
      exact ⟨t, list ▸ mem_append_left new inside, same, le⟩
    · obtain ⟨t, inside, same⟩ := built'.listed k (built'.reach marked reach.eps) waits
      refine ⟨t, inside, same, ?_⟩
      rw [list] at inside
      rcases mem_append.mp inside with before | now
      · exact old t before
      · exact le_of_eq (young t now)

end Good


end Micron.Regex
