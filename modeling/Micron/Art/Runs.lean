import Micron.Art.Update
import Micron.Lib.KeyedRun

/-!
# The explicit-stack iterator

A frame of the stack stands for the children of a node that are still to be
visited.  The iterator meets the entries in the order of `__walk`, and since
every inner node is at one of eight levels, its stack never fills.
-/

set_option autoImplicit false

namespace Micron.Art

open List Function Option

variable {K V : Type} {hash : K → UInt64}

/-- The entries below the frames of the stack that are still to be visited. -/
def pending (st : List (Frame K V)) : List (Leaf K V) :=
  st.flatMap fun f => f.rest.flatMap walk

/-- The children still to be visited from a frame are at the level after it. -/
def Stacked (hash : K → UInt64) : List (Frame K V) → Prop
  | [] => True
  | f :: below =>
    (∀ c ∈ f.rest, Good hash (below.length + 1) c) ∧ below.length < hashBytes ∧
      Stacked hash below

theorem Stacked.length_le {st : List (Frame K V)} (stacked : Stacked hash st) :
    st.length ≤ hashBytes := by
  cases st with
  | nil => exact Nat.zero_le _
  | cons f below => exact stacked.2.1

namespace Iter

def remaining (it : Iter K V) : List (Leaf K V) := it.lf ++ pending it.st

/-- A state of the iterator: at its end only when nothing is left. -/
structure Valid (hash : K → UInt64) (it : Iter K V) : Prop where
  stacked : Stacked hash it.st
  atEnd : it.lf = [] → it.st = []

end Iter

theorem pending_cons (f : Frame K V) (below : List (Frame K V)) :
    pending (f :: below) = f.rest.flatMap walk ++ pending below := by
  rfl

theorem Stacked.step {f f' : Frame K V} {below : List (Frame K V)} {c : Node K V}
    (stacked : Stacked hash (f :: below)) (stepped : f.stepTop = (some c, f')) :
    Stacked hash (f' :: below) ∧ Good hash (f' :: below).length c ∧
      pending (f :: below) = walk c ++ pending (f' :: below) := by
  have rest := f.stepTop_rest
  rw [stepped] at rest
  simp only [toList_some, singleton_append] at rest
  obtain ⟨good, level, lower⟩ := stacked
  rw [rest] at good
  refine ⟨⟨fun c' member => good c' (mem_cons_of_mem _ member), level, lower⟩,
    good c mem_cons_self, ?_⟩
  rw [pending_cons, pending_cons, rest, flatMap_cons, append_assoc]

theorem Stacked.push {st : List (Frame K V)} {n : Inner (Node K V)} (stacked : Stacked hash st)
    (good : Good hash st.length (.inner n)) :
    Stacked hash (⟨n, 0⟩ :: st) ∧ pending (⟨n, 0⟩ :: st) = walk (.inner n) ++ pending st := by
  cases good with
  | inner shallow wf routed good =>
    constructor
    · refine ⟨?_, shallow, stacked⟩
      intro c member
      rw [Frame.rest_start] at member
      obtain ⟨b, found⟩ := (Inner.mem_children wf).mp member
      exact good b c found
    · rw [pending_cons, Frame.rest_start, walk_inner]

theorem Frame.rest_eq_nil {f f' : Frame K V} (stepped : f.stepTop = (none, f')) : f.rest = [] := by
  fun_induction Frame.stepTop f with
  | case1 f inside c found => cases stepped
  | case2 f inside missing ih =>
    rw [Frame.rest_step inside, missing]
    exact ih stepped
  | case3 f outside =>
    have none_left : f.n.slotCount - f.i = 0 := by omega
    rw [Frame.rest, none_left]
    rfl

theorem Stacked.exhausted {f f' : Frame K V} {below : List (Frame K V)}
    (stacked : Stacked hash (f :: below)) (stepped : f.stepTop = (none, f')) :
    Stacked hash (f' :: below) ∧ f.rest = [] ∧ f'.rest = [] := by
  have nothing := Frame.rest_eq_nil stepped
  have rest := f.stepTop_rest
  rw [stepped, nothing] at rest
  have nothing' : f'.rest = [] := by simpa using rest.symm
  refine ⟨⟨?_, stacked.2⟩, nothing, nothing'⟩
  intro c member
  rw [nothing'] at member
  cases member

/-- `__descend` and `__unwind` find the next entry with the stack they have. -/
theorem cursor_spec (hash : K → UInt64) :
    (∀ (st : List (Frame K V)) (n : Node K V), Stacked hash st → Good hash st.length n →
      ∃ it, descend st n = some it ∧ it.Valid hash ∧ it.remaining = walk n ++ pending st) ∧
    ∀ st : List (Frame K V), Stacked hash st →
      ∃ it, unwind st = some it ∧ it.Valid hash ∧ it.remaining = pending st := by
  apply descend.mutual_induct
  · intro st head next stacked good
    refine ⟨⟨st, head :: next⟩, by rw [descend], ⟨stacked, nofun⟩, ?_⟩
    rw [Iter.remaining, walk_leaf]
  · intro st n room c f stepped ih stacked good
    obtain ⟨stacked', whole⟩ := stacked.push good
    obtain ⟨next, goodChild, rest⟩ := stacked'.step stepped
    obtain ⟨it, result, valid, remaining⟩ := ih next goodChild
    refine ⟨it, ?_, valid, ?_⟩
    · rw [descend, if_pos room, stepped]
      exact result
    · rw [remaining, ← rest, whole]
  · intro st n room f stepped ih stacked good
    obtain ⟨stacked', whole⟩ := stacked.push good
    obtain ⟨next, nothing, nothing'⟩ := stacked'.exhausted stepped
    obtain ⟨it, result, valid, remaining⟩ := ih next
    refine ⟨it, ?_, valid, ?_⟩
    · rw [descend, if_pos room, stepped]
      exact result
    · rw [remaining, ← whole, pending_cons, pending_cons, nothing, nothing']
  · intro st n full stacked good
    have level := stacked.length_le
    rw [stackSize] at full
    omega
  · intro stacked
    exact ⟨⟨[], []⟩, by rw [unwind], ⟨trivial, fun _ => rfl⟩, rfl⟩
  · intro f below c f' stepped ih stacked
    obtain ⟨next, goodChild, rest⟩ := stacked.step stepped
    obtain ⟨it, result, valid, remaining⟩ := ih next goodChild
    refine ⟨it, ?_, valid, ?_⟩
    · rw [unwind, stepped]
      exact result
    · rw [remaining, rest]
  · intro f below f' stepped ih stacked
    obtain ⟨_, nothing, _⟩ := stacked.exhausted stepped
    obtain ⟨it, result, valid, remaining⟩ := ih stacked.2.2
    refine ⟨it, ?_, valid, ?_⟩
    · rw [unwind, stepped]
      exact result
    · rw [remaining, pending_cons, nothing]
      rfl

namespace Iter

variable {it : Iter K V}

theorem Valid.next (valid : it.Valid hash) :
    ∃ it', it.next = some it' ∧ it'.Valid hash ∧ it'.remaining = it.remaining.tail := by
  obtain ⟨st, lf⟩ := it
  obtain ⟨stacked, atEnd⟩ := valid
  match lf, atEnd with
  | [], atEnd =>
    have empty : st = [] := atEnd rfl
    subst empty
    obtain ⟨it, result, valid, remaining⟩ := (cursor_spec hash).2 ([] : List (Frame K V)) trivial
    exact ⟨it, by rw [Iter.next, result], valid, remaining⟩
  | [current], _ =>
    obtain ⟨it, result, valid, remaining⟩ := (cursor_spec hash).2 st stacked
    exact ⟨it, by rw [Iter.next, result], valid, remaining⟩
  | _ :: lf :: rest, _ => exact ⟨⟨st, lf :: rest⟩, rfl, ⟨stacked, nofun⟩, rfl⟩

/-- The loop to `end()` meets exactly the remaining entries. -/
theorem Valid.collect_eq (fuel : Nat) : ∀ {it : Iter K V}, it.Valid hash →
    it.remaining.length = fuel →
      it.collect fuel = some (it.remaining.map fun lf => (lf.key, lf.value)) := by
  induction fuel with
  | zero =>
    intro it valid length
    have nothing := length_eq_zero_iff.mp length
    have atEnd : it.lf = [] := (append_eq_nil_iff.mp nothing).1
    rw [collect, atEnd, nothing]
    rfl
  | succ fuel ih =>
    intro it valid length
    obtain ⟨it', stepped, valid', remaining⟩ := valid.next
    rw [collect]
    cases current : it.lf with
    | nil =>
      have nothing : it.remaining = [] := by
        rw [Iter.remaining, current, valid.atEnd current]
        rfl
      rw [nothing] at length
      cases length
    | cons lf rest =>
      have whole : it.remaining = lf :: it'.remaining := by
        rw [remaining, Iter.remaining, current]
        rfl
      rw [whole, length_cons] at length
      simp only [stepped, bind_some]
      rw [ih valid' (by omega), whole]
      rfl

end Iter

/-- Iterating over a tree visits it as `__walk` does. -/
theorem Good.iterate {root : Node K V} (good : Good hash 0 root) :
    (descend [] root).bind (fun it => it.collect (walk root).length) =
      some ((walk root).map fun lf => (lf.key, lf.value)) := by
  obtain ⟨it, result, valid, remaining⟩ := (cursor_spec hash).1 [] root trivial good
  have whole : it.remaining = walk root := by
    rw [remaining]
    exact append_nil _
  rw [result, bind_some, valid.collect_eq _ (by rw [whole]), whole]

end Micron.Art

/-!
## Runs of `art`

Over every run of `insert`, `erase` and `clear`, and for every hash function,
the tree holds exactly the live bindings and both traversals visit them.
-/

namespace Micron.Art

open Micron.Lib

variable {K V : Type} {hash : K → UInt64}

namespace ArtMap

def entries (m : ArtMap K V) : List (Leaf K V) :=
  match m.root with
  | none => []
  | some root => walk root

end ArtMap

structure MapInv (hash : K → UInt64) (m : ArtMap K V) (M : K → Option V) : Prop where
  good : ∀ root, m.root = some root → Good hash 0 root
  content : ∀ lf, lf ∈ m.entries ↔ lf.hash = hash lf.key ∧ M lf.key = some lf.value
  counted : m.size = keyCount M

theorem mapInv_empty : MapInv hash (ArtMap.empty : ArtMap K V) (fun _ => none) where
  good _ impossible := by cases impossible
  content lf := by simp [ArtMap.empty, ArtMap.entries]
  counted := by simp [ArtMap.empty, keyCount]

variable {m : ArtMap K V} {M : K → Option V}

theorem MapInv.nodup (inv : MapInv hash m M) : (m.entries.map Leaf.key).Nodup := by
  unfold ArtMap.entries
  split
  · exact List.nodup_nil
  · rename_i root found
    exact (inv.good root found).nodup

theorem MapInv.key_bound (inv : MapInv hash m M) (k : K) :
    (∃ lf ∈ m.entries, lf.key = k) ↔ (M k).isSome := by
  rw [Option.isSome_iff_exists]
  constructor
  · rintro ⟨lf, member, rfl⟩
    exact ⟨lf.value, ((inv.content lf).mp member).2⟩
  · rintro ⟨v, bound⟩
    exact ⟨⟨hash k, k, v⟩, (inv.content _).mpr ⟨rfl, bound⟩, rfl⟩

theorem MapInv.finite (inv : MapInv hash m M) : {k | (M k).isSome}.Finite := by
  apply (m.entries.map Leaf.key).finite_toSet.subset
  intro k bound
  obtain ⟨lf, member, same⟩ := (inv.key_bound k).mpr bound
  exact List.mem_map.mpr ⟨lf, member, same⟩

variable [DecidableEq K]

theorem MapInv.find_eq (inv : MapInv hash m M) (k : K) : m.find hash k = M k := by
  apply Option.ext
  intro v
  have content := inv.content ⟨hash k, k, v⟩
  simp only [true_and] at content
  rw [← content]
  unfold ArtMap.find ArtMap.entries
  cases found : m.root with
  | none => simp
  | some root =>
    have good := inv.good root found
    rw [Option.map_eq_some_iff]
    constructor
    · rintro ⟨lf, hit, rfl⟩
      obtain ⟨rfl, member⟩ := (good.findLeaf_eq_some_iff k lf).mp hit
      rw [← good.hashed lf member]
      exact member
    · intro member
      exact ⟨_, (good.findLeaf_eq_some_iff k _).mpr ⟨rfl, member⟩, rfl⟩

theorem content_insert {entries entries' : List (Leaf K V)} {k : K} {v : V}
    (content : ∀ lf, lf ∈ entries ↔ lf.hash = hash lf.key ∧ M lf.key = some lf.value)
    (written : ∀ lf, lf ∈ entries' ↔ lf = ⟨hash k, k, v⟩ ∨ lf.key ≠ k ∧ lf ∈ entries)
    (lf : Leaf K V) :
    lf ∈ entries' ↔ lf.hash = hash lf.key ∧ Function.update M k (some v) lf.key = some lf.value := by
  rw [written lf, content lf]
  by_cases here : lf.key = k
  · obtain ⟨h, key, value⟩ := lf
    subst here
    simp [eq_comm]
  · have notNew : lf ≠ ⟨hash k, k, v⟩ := by
      rintro rfl
      exact here rfl
    simp [here, notNew]

theorem MapInv.insert (inv : MapInv hash m M) (k : K) (v : V) :
    MapInv hash (m.insert hash k v) (Function.update M k (some v)) := by
  have bound := inv.key_bound k
  unfold ArtMap.entries at bound
  have content := inv.content
  unfold ArtMap.entries at content
  unfold ArtMap.insert
  cases root : m.root with
  | none =>
    rw [root] at bound content
    refine ⟨?_, ?_, ?_⟩
    · rintro root' same
      cases same
      exact good_new_leaf 0 rfl
    · apply content_insert content
      intro lf
      simp [ArtMap.entries, walk_leaf]
    · rw [keyCount_update_some inv.finite, if_neg, inv.counted]
      rw [← bound]
      simp
  | some r =>
    rw [root] at bound content
    obtain ⟨good, entries, added⟩ := (inv.good r root).insert ⟨hash k, k, v⟩
      (Nat.zero_le _) rfl (fun _ _ j impossible => absurd impossible (Nat.not_lt_zero j))
    refine ⟨?_, ?_, ?_⟩
    · rintro root' same
      cases same
      exact good
    · exact content_insert content entries
    · rw [keyCount_update_some inv.finite, ← inv.counted]
      simp only
      by_cases there : ∃ lf ∈ walk r, lf.key = k
      · rw [if_pos (bound.mp there), if_neg]
        intro new
        obtain ⟨lf, member, same⟩ := there
        exact added.mp new lf member same
      · rw [if_neg (fun live => there (bound.mpr live)), if_pos]
        exact added.mpr fun lf member same => there ⟨lf, member, same⟩

theorem MapInv.erase (inv : MapInv hash m M) (k : K) :
    MapInv hash (m.erase hash k) (Function.update M k none) := by
  have bound := inv.key_bound k
  unfold ArtMap.entries at bound
  have content := inv.content
  unfold ArtMap.entries at content
  unfold ArtMap.erase
  cases root : m.root with
  | none =>
    rw [root] at bound
    have unbound : M k = none := by
      rw [← Option.not_isSome_iff_eq_none, ← bound]
      simp
    rw [Function.update_eq_self_iff.mpr unbound.symm]
    exact inv
  | some r =>
    rw [root] at bound content
    obtain ⟨found, good, entries⟩ := (inv.good r root).erase k
    refine ⟨good, ?_, ?_⟩
    · intro lf
      have remaining : lf ∈ ArtMap.entries ⟨(Art.erase (hash k) k 0 r).1,
          if (Art.erase (hash k) k 0 r).2 then m.size - 1 else m.size⟩ ↔
            ∃ n', (Art.erase (hash k) k 0 r).1 = some n' ∧ lf ∈ walk n' := by
        unfold ArtMap.entries
        cases (Art.erase (hash k) k 0 r).1 <;> simp
      rw [remaining, entries lf, content lf]
      by_cases here : lf.key = k
      · simp [here]
      · simp [here]
    · rw [keyCount_update_none, ← inv.counted]
      simp only
      by_cases there : ∃ lf ∈ walk r, lf.key = k
      · rw [if_pos (found.mpr there), if_pos (bound.mp there)]
      · rw [if_neg (fun hit => there (found.mp hit)), if_neg (fun live => there (bound.mpr live))]

namespace ArtMap

def call (hash : K → UInt64) (m : ArtMap K V) : MapOp K V → ArtMap K V
  | .insert k v => m.insert hash k v
  | .erase k => m.erase hash k
  | .clear => empty

def run (hash : K → UInt64) (calls : List (MapOp K V)) : ArtMap K V :=
  calls.foldl (call hash) empty

end ArtMap

theorem MapInv.call (inv : MapInv hash m M) (call : MapOp K V) :
    MapInv hash (m.call hash call) fun k => call.overwrite k (M k) := by
  cases call with
  | insert k v =>
    rw [overwrite_insert]
    exact inv.insert k v
  | erase k =>
    rw [overwrite_erase]
    exact inv.erase k
  | clear => exact mapInv_empty

theorem mapInv_run (calls : List (MapOp K V)) :
    MapInv hash (ArtMap.run hash calls) (overwriteRun calls) :=
  foldl_overwrite (fun _ _ call inv => inv.call call) calls mapInv_empty

omit [DecidableEq K] in
theorem forEach_eq (m : ArtMap K V) :
    m.forEach = m.entries.map fun lf => (lf.key, lf.value) := by
  unfold ArtMap.forEach ArtMap.entries
  split <;> simp_all

omit [DecidableEq K] in
/-- The iterator meets what `for_each` visits, in the same order, and stays
within its stack. -/
theorem MapInv.iterate_eq (inv : MapInv hash m M) : m.iterate m.entries.length = some m.forEach := by
  unfold ArtMap.iterate ArtMap.begin ArtMap.entries ArtMap.forEach
  cases root : m.root with
  | none => rfl
  | some r => exact (inv.good r root).iterate

/-- For every hash function and every run: lookups read the live bindings,
`size` counts them, `for_each` visits each of them once, and so does the
iterator, which never needs a frame more than its stack has. -/
theorem art_run_refines_finite_map (hash : K → UInt64) (calls : List (MapOp K V)) :
    (∀ k, (ArtMap.run hash calls).find hash k = overwriteRun calls k) ∧
    (ArtMap.run hash calls).size = keyCount (overwriteRun calls) ∧
    (((ArtMap.run hash calls).forEach.map Prod.fst).Nodup ∧
      ∀ k v, (k, v) ∈ (ArtMap.run hash calls).forEach ↔ overwriteRun calls k = some v) ∧
    (ArtMap.run hash calls).iterate (ArtMap.run hash calls).size =
      some (ArtMap.run hash calls).forEach := by
  have inv : MapInv hash (ArtMap.run hash calls) (overwriteRun calls) := mapInv_run calls
  refine ⟨inv.find_eq, inv.counted, ⟨?_, ?_⟩, ?_⟩
  · rw [forEach_eq, List.map_map]
    exact inv.nodup
  · intro k v
    rw [forEach_eq, List.mem_map]
    constructor
    · rintro ⟨lf, member, same⟩
      cases same
      exact ((inv.content lf).mp member).2
    · intro bound
      exact ⟨⟨hash k, k, v⟩, (inv.content _).mpr ⟨rfl, bound⟩, rfl⟩
  · have length : (ArtMap.run hash calls).size = (ArtMap.run hash calls).entries.length := by
      rw [inv.counted, ← List.length_map Leaf.key]
      apply (length_eq_keyCount inv.nodup _).symm
      intro k
      rw [List.mem_map]
      exact inv.key_bound k
    rw [length]
    exact inv.iterate_eq

end Micron.Art
