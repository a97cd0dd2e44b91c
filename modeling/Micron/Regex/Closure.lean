import Micron.Lib.Dfs
import Micron.Regex.Emit

/-!
# Adding a thread

`addthread` is a depth-first search over the instructions that are reached without
reading, with the slots as its data.  It adds every instruction that waits and can be
reached and is not marked yet, and each of them once, so that the list has room.
-/

set_option autoImplicit false

namespace Micron.Regex

open Micron.Lib List

def Waits (code : List Inst) (pc : Nat) : Prop :=
  ∃ i ∈ code[pc]?, i.code.reads = true ∨ i.code = .match_

instance (code : List Inst) (pc : Nat) : Decidable (Waits code pc) :=
  match h : code[pc]? with
  | none => isFalse (by simp [Waits, h])
  | some i => decidable_of_iff (i.code.reads = true ∨ i.code = .match_) (by simp [Waits, h])

theorem Waits.lt {code : List Inst} {pc : Nat} (waits : Waits code pc) : pc < code.length := by
  obtain ⟨i, here, -⟩ := waits
  exact (List.getElem?_eq_some_iff.mp here).1

def moves (pv : ProgView) (n sp : Nat) (q : Nat × List Int) : List (Nat × List Int) :=
  match pv.code[q.1]? with
  | none => []
  | some i =>
    match i.code with
    | .jmp => [(i.x, q.2)]
    | .split => [(i.x, q.2), (i.y, q.2)]
    | .save => [(q.1 + 1, if i.x < pv.nslots then q.2.set i.x (i64 sp) else q.2)]
    | .bol => if sp = 0 then [(q.1 + 1, q.2)] else []
    | .eol => if sp = n then [(q.1 + 1, q.2)] else []
    | .char | .cls | .any | .match_ => []

def visit (pv : ProgView) (gen : Nat) (l : Closure) (q : Nat × List Int) : Closure :=
  let l := l.mark q.1 gen
  if Waits pv.code q.1 ∧ l.list.length < pv.code.length then
    { l with list := l.list ++ [⟨q.1, q.2⟩] }
  else l

def Closure.marks (l : Closure) (gen k : Nat) : Bool := decide (l.seen k = gen)

variable {pv : ProgView} {n gen sp : Nat}

theorem moves_fst (q : Nat × List Int) :
    (moves pv n sp q).map Prod.fst = epsilon pv.code n sp q.1 := by
  unfold moves epsilon
  cases pv.code[q.1]? with
  | none => rfl
  | some i => cases h : i.code <;> simp [h] <;> split <;> rfl

theorem visit_marks (pv : ProgView) (l : Closure) (q : Nat × List Int) :
    (visit pv gen l q).marks gen = marksAfter (fun _ => true) (l.marks gen) [q] := by
  have marked : (l.mark q.1 gen).marks gen = marksAfter (fun _ => true) (l.marks gen) [q] := by
    funext k
    by_cases same : k = q.1 <;> simp [Closure.marks, Closure.mark, marksAfter, same]
  unfold visit
  dsimp only
  split
  · exact marked
  · exact marked

theorem addthread_eq_dfs (fuel : Nat) (pc : Nat) (sav : List Int) (l : Closure) :
    dfs (fun _ => true) (moves pv n sp) (visit pv gen) fuel (pc, sav) (l.marks gen, l) =
      ((addthread pv n gen sp fuel pc sav l).marks gen, addthread pv n gen sp fuel pc sav l) := by
  induction fuel generalizing pc sav l with
  | zero => rfl
  | succ fuel ih =>
    rw [dfs, addthread]
    by_cases marked : l.seen pc = gen
    · simp [Closure.marks, marked]
    · have unmarked : ¬ (true && l.marks gen pc) = true := by simpa [Closure.marks] using marked
      rw [if_neg unmarked, if_neg marked, ← visit_marks pv]
      cases here : pv.code[pc]? with
      | none => simp [moves, visit, Waits, here]
      | some i =>
        have quiet (still : ¬ (i.code.reads = true ∨ i.code = .match_)) :
            visit pv gen l (pc, sav) = l.mark pc gen := by
          simp [visit, Waits, here, still]
        cases code : i.code with
        | jmp =>
          simp [moves, here, code, quiet (by simp [code, Op.reads]), ih]
        | split =>
          simp [moves, here, code, quiet (by simp [code, Op.reads]), ih]
        | save =>
          by_cases room : i.x < pv.nslots <;>
            simp [moves, here, code, quiet (by simp [code, Op.reads]), ih, room]
        | bol =>
          by_cases first : sp = 0
          · simp [moves, here, code, quiet (by simp [code, Op.reads]), ih, if_pos first]
          · simp [moves, here, code, quiet (by simp [code, Op.reads]), first]
        | eol =>
          by_cases last : sp = n
          · simp [moves, here, code, quiet (by simp [code, Op.reads]), ih, if_pos last]
          · simp [moves, here, code, quiet (by simp [code, Op.reads]), last]
        | char | cls | any | match_ =>
          have waits : Waits pv.code pc := ⟨i, here, by simp [code, Op.reads]⟩
          simp [moves, here, code, visit, waits]

theorem visits_seen (new : List (Nat × List Int)) (l : Closure) (k : Nat) :
    (new.foldl (visit pv gen) l).seen k = if k ∈ new.map Prod.fst then gen else l.seen k := by
  have one (l : Closure) (q : Nat × List Int) :
      (visit pv gen l q).seen k = if k = q.1 then gen else l.seen k := by
    unfold visit
    dsimp only
    split <;> rfl
  induction new generalizing l with
  | nil => simp
  | cons q rest ih =>
    rw [foldl_cons, ih, one]
    by_cases later : k ∈ rest.map Prod.fst
    · rw [if_pos later, if_pos (by simp only [map_cons, mem_cons, later, or_true])]
    · rw [if_neg later]
      simp only [map_cons, mem_cons, later, or_false]

/-- The threads among the instructions that are visited. -/
def threads (code : List Inst) (new : List (Nat × List Int)) : List Thread :=
  (new.filter fun q => decide (Waits code q.1)).map fun q => ⟨q.1, q.2⟩

theorem mem_threads {code : List Inst} {new : List (Nat × List Int)} {t : Thread} :
    t ∈ threads code new ↔ (t.pc, t.sav) ∈ new ∧ Waits code t.pc := by
  simp only [threads, mem_map, mem_filter, decide_eq_true_eq]
  refine ⟨?_, fun inside => ⟨(t.pc, t.sav), inside, rfl⟩⟩
  rintro ⟨q, inside, rfl⟩
  exact inside

/-- No list with each instruction at most once is longer than the program. -/
theorem visits_list (gen : Nat) (new : List (Nat × List Int)) (l : Closure)
    (distinct : ((l.list ++ threads pv.code new).map Thread.pc).Nodup)
    (inside : ∀ t ∈ l.list, t.pc < pv.code.length) :
    (new.foldl (visit pv gen) l).list = l.list ++ threads pv.code new := by
  induction new generalizing l with
  | nil => simp [threads]
  | cons q rest ih =>
    rw [foldl_cons]
    by_cases waits : Waits pv.code q.1
    · have split : threads pv.code (q :: rest) = ⟨q.1, q.2⟩ :: threads pv.code rest := by
        simp [threads, waits]
      rw [split, append_cons] at distinct
      have room : l.list.length < pv.code.length := by
        have sub : ((l.list ++ [Thread.mk q.1 q.2]).map Thread.pc) ⊆ List.range pv.code.length := by
          intro k member
          obtain ⟨t, there, rfl⟩ := mem_map.mp member
          rcases mem_append.mp there with old | young
          · exact mem_range.mpr (inside t old)
          · obtain rfl := mem_singleton.mp young
            exact mem_range.mpr waits.lt
        have short : ((l.list ++ [Thread.mk q.1 q.2]).map Thread.pc).Nodup := by
          rw [map_append] at distinct
          exact (nodup_append.mp distinct).1
        have bound := (subperm_of_subset short sub).length_le
        rw [length_map, length_append, length_singleton, length_range] at bound
        exact bound
      have step : visit pv gen l q = ⟨(l.mark q.1 gen).seen, l.list ++ [⟨q.1, q.2⟩]⟩ := by
        simp only [visit, Closure.mark, waits, room, and_self, if_true]
      rw [step, ih, split]
      · simp
      · simpa using distinct
      · intro t member
        rcases mem_append.mp member with old | young
        · exact inside t old
        · obtain rfl := mem_singleton.mp young
          exact waits.lt
    · have same : threads pv.code (q :: rest) = threads pv.code rest := by
        simp [threads, waits]
      have step : (visit pv gen l q).list = l.list := by
        simp [visit, Closure.mark, waits]
      rw [same] at distinct ⊢
      rw [ih (visit pv gen l q) (by rw [step]; exact distinct) (by rw [step]; exact inside), step]

theorem mem_visits {new : List (Nat × List Int)} {l : Closure} {t : Thread}
    (member : t ∈ (new.foldl (visit pv gen) l).list) :
    t ∈ l.list ∨ (t.pc, t.sav) ∈ new ∧ Waits pv.code t.pc := by
  induction new generalizing l with
  | nil => exact .inl member
  | cons q rest ih =>
    rcases ih member with old | ⟨young, waits⟩
    · unfold visit at old
      dsimp only at old
      split at old
      · next room =>
          rcases mem_append.mp old with older | here
          · exact .inl older
          · obtain rfl := mem_singleton.mp here
            exact .inr ⟨mem_cons_self, room.1⟩
      · exact .inl old
    · exact .inr ⟨mem_cons_of_mem q young, waits⟩

theorem addthreadTop_visits (gen pc : Nat) (sav : List Int) (l : Closure) :
    ∃ new, Visits (fun _ => true) (moves pv n sp) (l.marks gen) [(pc, sav)] new ∧
      addthreadTop pv n gen sp pc sav l = new.foldl (visit pv gen) l := by
  let dedup : Nat → Bool := fun _ => true
  have inner (q : Nat × List Int) (busy : moves pv n sp q ≠ []) :
      q.1 ∈ Finset.range pv.code.length ∧ dedup q.1 = true := by
    refine ⟨?_, rfl⟩
    rw [Finset.mem_range]
    by_contra outside
    exact busy (by simp [moves, getElem?_eq_none (Nat.le_of_not_lt outside)])
  have enough : unmarked (Finset.range pv.code.length) (l.marks gen) < pv.code.length + 1 := by
    have bound := Finset.card_filter_le (Finset.range pv.code.length) fun i => l.marks gen i = false
    rw [Finset.card_range] at bound
    exact Nat.lt_succ_of_le bound
  obtain ⟨new, visits, result⟩ :=
    dfs_visits (visit pv gen) inner _ (pc, sav) (l.marks gen) l enough
  refine ⟨new, visits, ?_⟩
  rw [addthread_eq_dfs] at result
  exact congrArg Prod.snd result

theorem mem_addthreadTop {pc : Nat} {sav : List Int} {l : Closure} {t : Thread}
    (member : t ∈ (addthreadTop pv n gen sp pc sav l).list) :
    t ∈ l.list ∨ Waits pv.code t.pc ∧
      Relation.ReflTransGen (fun q q' => q' ∈ moves pv n sp q) (pc, sav) (t.pc, t.sav) := by
  obtain ⟨new, visits, result⟩ := addthreadTop_visits gen pc sav l
  rw [result] at member
  rcases mem_visits member with old | ⟨young, waits⟩
  · exact .inl old
  · obtain ⟨r, isRoot, path⟩ := visits.reach _ young
    obtain rfl := mem_singleton.mp isRoot
    exact .inr ⟨waits, path⟩

theorem addthreadTop_seen (pc : Nat) (sav : List Int) (l : Closure) (k : Nat) :
    (addthreadTop pv n gen sp pc sav l).seen k = gen ∨
      (addthreadTop pv n gen sp pc sav l).seen k = l.seen k := by
  obtain ⟨new, -, result⟩ := addthreadTop_visits gen pc sav l
  rw [result, visits_seen]
  split
  · exact .inl rfl
  · exact .inr rfl

/-- A list for offset `p` that holds all that its marks stand for. -/
structure Built (pv : ProgView) (n p gen : Nat) (l : Closure) : Prop where
  distinct : (l.list.map Thread.pc).Nodup
  marked : ∀ t ∈ l.list, Waits pv.code t.pc ∧ l.seen t.pc = gen
  closed : ∀ k, l.seen k = gen → ∀ k' ∈ epsilon pv.code n p k, l.seen k' = gen
  listed : ∀ k, l.seen k = gen → Waits pv.code k → ∃ t ∈ l.list, t.pc = k

theorem Built.empty {seen : Nat → Nat} (fresh : ∀ k, seen k ≠ gen) :
    Built pv n sp gen ⟨seen, []⟩ where
  distinct := nodup_nil
  marked _ inside := nomatch inside
  closed k marked := absurd marked (fresh k)
  listed k marked := absurd marked (fresh k)

theorem Built.add {l : Closure} (built : Built pv n sp gen l) (pc : Nat) (sav : List Int) :
    Built pv n sp gen (addthreadTop pv n gen sp pc sav l) ∧
      (addthreadTop pv n gen sp pc sav l).seen pc = gen ∧
      ∃ new, (addthreadTop pv n gen sp pc sav l).list = l.list ++ new ∧
        ∀ t ∈ new, Waits pv.code t.pc ∧
          Relation.ReflTransGen (fun q q' => q' ∈ moves pv n sp q) (pc, sav) (t.pc, t.sav) := by
  obtain ⟨new, visits, result⟩ := addthreadTop_visits gen pc sav l
  have fresh : ∀ q ∈ new, l.seen q.1 ≠ gen := by
    intro q young
    simpa [Closure.marks] using visits.fresh q young rfl
  have nodup : (new.map Prod.fst).Nodup := by simpa using visits.nodup
  have done (q : Nat × List Int)
      (done : Done (fun _ => true) (l.marks gen) new q) :
      (new.foldl (visit pv gen) l).seen q.1 = gen := by
    rw [visits_seen]
    rcases done with young | ⟨-, marked⟩
    · rw [if_pos (mem_map_of_mem young)]
    · split
      · rfl
      · next old => simpa [marksAfter, Closure.marks, old] using marked
  have distinct : ((l.list ++ threads pv.code new).map Thread.pc).Nodup := by
    rw [map_append, nodup_append]
    refine ⟨built.distinct, ?_, ?_⟩
    · rw [threads, map_map]
      exact nodup.sublist ((filter_sublist).map Prod.fst)
    · intro k old k' young same
      subst same
      obtain ⟨t, inside, rfl⟩ := mem_map.mp old
      obtain ⟨t', inside', same⟩ := mem_map.mp young
      refine fresh _ (mem_threads.mp inside').1 ?_
      exact same ▸ (built.marked t inside).2
  have list := visits_list gen new l distinct fun t inside => (built.marked t inside).1.lt
  rw [result]
  refine ⟨⟨?_, fun t inside => ?_, fun k marked k' next => ?_, fun k marked waits => ?_⟩,
    done _ (visits.entered _ mem_cons_self), _, list, fun t inside => ?_⟩
  · rw [list]
    exact distinct
  · rw [visits_seen]
    rcases mem_visits inside with old | ⟨young, waits⟩
    · obtain ⟨waits, marked⟩ := built.marked t old
      exact ⟨waits, by rw [marked, ite_self]⟩
    · exact ⟨waits, if_pos (mem_map_of_mem young)⟩
  · by_cases young : k ∈ new.map Prod.fst
    · obtain ⟨q, inside, rfl⟩ := mem_map.mp young
      rw [← moves_fst q] at next
      obtain ⟨q', move, rfl⟩ := mem_map.mp next
      exact done q' (visits.closed q inside q' move)
    · rw [visits_seen, if_neg young] at marked
      rw [visits_seen, built.closed k marked k' next, ite_self]
  · rw [list]
    by_cases young : k ∈ new.map Prod.fst
    · obtain ⟨q, inside, rfl⟩ := mem_map.mp young
      exact ⟨⟨q.1, q.2⟩, mem_append_right _ (mem_threads.mpr ⟨inside, waits⟩), rfl⟩
    · rw [visits_seen, if_neg young] at marked
      obtain ⟨t, inside, same⟩ := built.listed k marked waits
      exact ⟨t, mem_append_left _ inside, same⟩
  · obtain ⟨young, waits⟩ := mem_threads.mp inside
    obtain ⟨r, isRoot, path⟩ := visits.reach _ young
    obtain rfl := mem_singleton.mp isRoot
    exact ⟨waits, path⟩

end Micron.Regex
