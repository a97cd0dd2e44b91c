import Micron.Lib.Ledger
import Micron.Tlsf.Interface

/-!
# Tombstones of the segregated fit allocator

A tombstone is a live block in all but its flags.  The operations tell free blocks from
others only, so that they do to a heap with tombstones what they do to the heap in which
the tombstones are live.
-/

set_option autoImplicit false

namespace Micron.Tlsf

open Micron.Lib List Function

namespace Pool

def available (p : Pool) : Nat :=
  if p.heap.hasBase = false then 0 else minus p.heap.total p.heap.allocatedBytes

def used (p : Pool) : Nat := p.heap.allocatedBytes

def tombstoned (p : Pool) : Nat := p.tombstonedBytes

end Pool

def allocator : Allocator Pool Hdr where
  header := hdrOffset
  allocate := Pool.allocate
  tombstone p ptr := (p.tombstone ptr).1
  deallocate p ptr := (p.deallocate ptr).1
  write p u h := { p with heap := setHdr p.heap u h }
  used := Pool.used
  tombstoned := Pool.tombstoned
  available := Pool.available
  total p := p.heap.total
  serves p := Searches p.heap
  passes p ptr := (p.heap.mem (ptr - hdrOffset)).flags &&& blockAlloc = 0
  refuses p ptr := ptr = 0 ∨ p.heap.hasBase = false ∨ (p.heap.mem (ptr - hdrOffset)).flags = blockFree

def Hdr.buried (dead : Bool) (h : Hdr) : Hdr :=
  if dead = true ∧ h.flags = blockAlloc then { h with flags := blockTombstone } else h

/-- The live blocks at some places are tombstones, and their bytes are not counted. -/
def State.buried (s : State) (dead : List Nat) (bytes : Nat) : State :=
  { s with
    allocatedBytes := s.allocatedBytes - bytes
    mem := fun a => (s.mem a).buried (decide (a ∈ dead)) }

section

variable {s : State} {dead : List Nat} {bytes : Nat}

theorem Hdr.buried_with (h : Hdr) (d : Bool) :
    (h.buried d).bsize = h.bsize ∧ (h.buried d).prevPhys = h.prevPhys ∧
      (h.buried d).nextFree = h.nextFree ∧ (h.buried d).prevFree = h.prevFree ∧
      ((h.buried d).flags = blockFree ↔ h.flags = blockFree) := by
  unfold Hdr.buried
  split
  · rename_i marked
    refine ⟨rfl, rfl, rfl, rfl, ?_⟩
    rw [marked.2]
    exact (by decide : blockTombstone = blockFree ↔ blockAlloc = blockFree)
  · exact ⟨rfl, rfl, rfl, rfl, .rfl⟩

theorem Hdr.buried_free {h : Hdr} (free : h.flags = blockFree) (d : Bool) : h.buried d = h :=
  if_neg fun marked => absurd (free.symm.trans marked.2) (by decide)

theorem setHdr_buried (a : Nat) {h h' : Hdr} (same : h' = h.buried (decide (a ∈ dead))) :
    setHdr (s.buried dead bytes) a h' = (setHdr s a h).buried dead bytes := by
  have mem : update (s.buried dead bytes).mem a h' =
      fun b => (update s.mem a h b).buried (decide (b ∈ dead)) := by
    funext b
    by_cases here : b = a
    · rw [here, update_self, update_self, same]
    · rw [update_of_ne here, update_of_ne here]
      rfl
  unfold setHdr
  rw [mem]
  rfl

theorem setPrevPhys_buried (a : Nat) (p : Option Nat) :
    setPrevPhys (s.buried dead bytes) a p = (setPrevPhys s a p).buried dead bytes := by
  refine setHdr_buried a ?_
  simp only [State.buried, Hdr.buried]
  split <;> rfl

theorem setBsize_buried (a n : Nat) :
    setBsize (s.buried dead bytes) a n = (setBsize s a n).buried dead bytes := by
  refine setHdr_buried a ?_
  simp only [State.buried, Hdr.buried]
  split <;> rfl

theorem setNextFree_buried (a : Nat) (p : Option Nat) :
    setNextFree (s.buried dead bytes) a p = (setNextFree s a p).buried dead bytes := by
  refine setHdr_buried a ?_
  simp only [State.buried, Hdr.buried]
  split <;> rfl

theorem setPrevFree_buried (a : Nat) (p : Option Nat) :
    setPrevFree (s.buried dead bytes) a p = (setPrevFree s a p).buried dead bytes := by
  refine setHdr_buried a ?_
  simp only [State.buried, Hdr.buried]
  split <;> rfl

/-- A mark that says free, and any at a place that is no tombstone, stays as it is written. -/
theorem setFlags_buried {a flags : Nat} (plain : flags = blockFree ∨ a ∉ dead) :
    setFlags (s.buried dead bytes) a flags = (setFlags s a flags).buried dead bytes := by
  refine setHdr_buried a ?_
  rcases plain with rfl | alive
  · rw [Hdr.buried_free rfl]
    simp only [State.buried, Hdr.buried]
    split <;> rfl
  · simp only [State.buried, Hdr.buried, decide_eq_true_eq, alive, false_and, if_false]

theorem setHead_buried (i : Nat) (p : Option Nat) :
    setHead (s.buried dead bytes) i p = (setHead s i p).buried dead bytes := rfl

theorem flInsert_buried (block : Nat) :
    flInsert (s.buried dead bytes) block = (flInsert s block).buried dead bytes := by
  have size : ((s.buried dead bytes).mem block).bsize = (s.mem block).bsize := (Hdr.buried_with _ _).1
  unfold flInsert
  dsimp only
  rw [size, show (s.buried dead bytes).heads = s.heads from rfl, setNextFree_buried, setPrevFree_buried]
  cases s.heads (idx (mappingInsert (s.mem block).bsize)) with
  | none =>
    rw [setHead_buried, setFlags_buried (.inl rfl)]
    rfl
  | some h =>
    dsimp only
    rw [setPrevFree_buried, setHead_buried, setFlags_buried (.inl rfl)]
    rfl

theorem flRemove_buried (block : Nat) :
    flRemove (s.buried dead bytes) block = (flRemove s block).buried dead bytes := by
  obtain ⟨size, _, next, prev, _⟩ := Hdr.buried_with (s.mem block) (decide (block ∈ dead))
  have unmark : ∀ (t : State) (c : Nat × Nat),
      (if (t.buried dead bytes).heads (idx c) = none then unmarkClass (t.buried dead bytes) c
        else t.buried dead bytes) =
      (if t.heads (idx c) = none then unmarkClass t c else t).buried dead bytes := by
    intro t c
    change (if t.heads (idx c) = none then _ else _) = _
    split <;> rfl
  unfold flRemove
  rw [show ((s.buried dead bytes).mem block).bsize = _ from size,
    show ((s.buried dead bytes).mem block).nextFree = _ from next,
    show ((s.buried dead bytes).mem block).prevFree = _ from prev]
  generalize mappingInsert (s.mem block).bsize = c
  generalize (s.mem block).nextFree = next_
  generalize (s.mem block).prevFree = prev_
  refine (congrArg (fun t : State => if t.heads (idx c) = none then unmarkClass t c else t) ?_).trans
    (unmark _ c)
  cases prev_ with
  | none =>
    cases next_ with
    | none => exact setHead_buried (idx c) none
    | some n =>
      exact (congrArg (setPrevFree · n none) (setHead_buried (idx c) (some n))).trans
        (setPrevFree_buried n none)
  | some p =>
    cases next_ with
    | none => exact setNextFree_buried p none
    | some n =>
      exact (congrArg (setPrevFree · n (some p)) (setNextFree_buried p (some n))).trans
        (setPrevFree_buried n (some p))

theorem findFree_buried (needed : Nat) : findFree (s.buried dead bytes) needed =
    ((findFree s needed).1.buried dead bytes, (findFree s needed).2) := by
  have classes : ∀ c, findClass (s.buried dead bytes) c = findClass s c := fun _ => rfl
  unfold findFree
  dsimp only
  rw [show (s.buried dead bytes).flCount = s.flCount from rfl, classes]
  split
  · rfl
  · cases findClass s (mappingSearch needed) with
    | none => rfl
    | some c =>
      dsimp only
      rw [show (s.buried dead bytes).heads = s.heads from rfl]
      cases s.heads (idx c) with
      | none => rfl
      | some block => exact congrArg (·, some block) (flRemove_buried block)

theorem nextPhys_buried (a : Nat) : nextPhys (s.buried dead bytes) a = nextPhys s a :=
  congrArg (a + ·) (Hdr.buried_with _ _).1

theorem trySplit_buried (block needed : Nat) :
    trySplit (s.buried dead bytes) block needed = (trySplit s block needed).buried dead bytes := by
  have size : ((s.buried dead bytes).mem block).bsize = (s.mem block).bsize := (Hdr.buried_with _ _).1
  unfold trySplit
  dsimp only
  rw [size]
  split
  · rfl
  · rw [setBsize_buried]
    generalize setBsize s block (u32 needed) = t
    have made : ∀ n : Nat, setHdr (t.buried dead bytes) (block + needed)
        { (t.buried dead bytes).mem (block + needed) with
          bsize := n, flags := blockFree, prevPhys := some block } =
        (setHdr t (block + needed) { t.mem (block + needed) with
          bsize := n, flags := blockFree, prevPhys := some block }).buried dead bytes := by
      intro n
      refine setHdr_buried _ ?_
      rw [Hdr.buried_free rfl]
      simp only [State.buried, Hdr.buried]
      split <;> rfl
    rw [made, nextPhys_buried, setPrevPhys_buried, flInsert_buried]

theorem free_buried (a : Nat) :
    ((s.buried dead bytes).mem a).flags = blockFree ↔ (s.mem a).flags = blockFree :=
  (Hdr.buried_with _ _).2.2.2.2

theorem mergeForward_buried (block : Nat) :
    mergeForward (s.buried dead bytes) block = (mergeForward s block).buried dead bytes := by
  have size : ∀ (t : State) (a : Nat), ((t.buried dead bytes).mem a).bsize = (t.mem a).bsize :=
    fun t a => (Hdr.buried_with _ _).1
  unfold mergeForward
  simp only [nextPhys_buried, free_buried, flRemove_buried, size, setBsize_buried, setPrevPhys_buried]
  split <;> rfl

theorem mergeBackward_buried (block : Nat) : mergeBackward (s.buried dead bytes) block =
    ((mergeBackward s block).1.buried dead bytes, (mergeBackward s block).2) := by
  have size : ∀ (t : State) (a : Nat), ((t.buried dead bytes).mem a).bsize = (t.mem a).bsize :=
    fun t a => (Hdr.buried_with _ _).1
  have left : ((s.buried dead bytes).mem block).prevPhys = (s.mem block).prevPhys :=
    (Hdr.buried_with _ _).2.1
  unfold mergeBackward
  rw [left]
  cases (s.mem block).prevPhys with
  | none => rfl
  | some prev =>
    simp only [nextPhys_buried, free_buried, flRemove_buried, size, setBsize_buried, setPrevPhys_buried]
    split <;> rfl

theorem coalesceAndFree_buried (block : Nat) :
    coalesceAndFree (s.buried dead bytes) block = (coalesceAndFree s block).buried dead bytes := by
  unfold coalesceAndFree
  rw [mergeForward_buried, mergeBackward_buried, flInsert_buried]

end

/-! ## What the counters say -/

def total (own : List (Nat × Nat)) : Nat := (own.map Prod.snd).sum

structure Counted (p : Pool) (l : Ledger) (g : State) (own dead : List (Nat × Nat)) : Prop where
  settled : Settled g (own ++ dead)
  heap : p.heap = g.buried (dead.map Prod.fst) (total dead)
  tombstones : p.tombstonedBytes = total dead
  backed : l.Backed handed own dead

def Accounted (y : Pool × Ledger) : Prop :=
  y.1.heap = State.none ∧ y.1.tombstonedBytes = 0 ∧ y.2 = ⟨[], []⟩ ∨
    ∃ g own dead, Counted y.1 y.2 g own dead

theorem Settled.perm {s : State} {own own' : List (Nat × Nat)} (settled : Settled s own)
    (same : own.Perm own') : Settled s own' := by
  obtain ⟨blocks, lists, shape, stored⟩ := settled
  refine ⟨blocks, lists, ⟨shape.room, shape.word, shape.cover, shape.large, shape.listed, ?_,
    same.nodup_iff.mp shape.liveNodup, shape.held, shape.calm⟩, ⟨stored.base, stored.levels,
    stored.bsize, stored.freeFlags, stored.liveFlags, stored.prev, stored.firstPrev, stored.start,
    stored.last, stored.rows, stored.marked, ?_⟩⟩
  · exact fun a n => (same.mem_iff.symm).trans (shape.lived a n)
  · exact stored.used.trans (same.map _).sum_eq

/-- A live block is told by its start, and says that it is live. -/
theorem Settled.own {s : State} {own : List (Nat × Nat)} (settled : Settled s own) {x k : Nat}
    (member : (x, k) ∈ own) : minBlock ≤ k ∧ (s.mem x).bsize = k ∧ (s.mem x).flags = blockAlloc ∧
      ∀ k', (x, k') ∈ own → k' = k := by
  obtain ⟨blocks, lists, shape, stored⟩ := settled
  have isX := (shape.lived x k).mp member
  refine ⟨shape.large isX, stored.bsize x k .live isX, stored.liveFlags x k isX, fun k' other => ?_⟩
  have isX' := (shape.lived x k').mp other
  rw [isX] at isX'
  exact (congrArg Prod.fst (Option.some.inj isX')).symm

/-- The live blocks have room between the sentinels. -/
theorem Settled.sums {s : State} {own : List (Nat × Nat)} (settled : Settled s own) :
    s.hasBase = true ∧ s.allocatedBytes = total own ∧ total own ≤ s.total ∧ s.total < 2 ^ 32 := by
  obtain ⟨blocks, lists, shape, stored⟩ := settled
  have apart : AllApart (own.map fun b => ⟨b.1, b.2⟩) := by
    refine pairwise_map.mpr (shape.liveNodup.imp_of_mem ?_)
    rintro ⟨a, n⟩ ⟨b, m⟩ inA inB differ
    have isA := (shape.lived a n).mp inA
    have isB := (shape.lived b m).mp inB
    rcases lt_trichotomy a b with less | rfl | more
    · exact .inl (shape.cover.apart (sizes_eq_some isA) (sizes_eq_some isB) less)
    · rw [isA] at isB
      obtain rfl := (Prod.mk.inj (Option.some.inj isB)).1
      exact absurd rfl differ
    · exact .inr (shape.cover.apart (sizes_eq_some isB) (sizes_eq_some isA) more)
  have room := apart.sum_le blockAlign (stop s.total) ?_
  · rw [map_map, stop, Nat.add_sub_cancel_left] at room
    exact ⟨stored.base, stored.used, room, shape.word⟩
  · intro x member
    obtain ⟨⟨a, n⟩, inside, rfl⟩ := mem_map.mp member
    exact shape.cover.inside (sizes_eq_some ((shape.lived a n).mp inside))

theorem total_append (own dead : List (Nat × Nat)) : total (own ++ dead) = total own + total dead := by
  rw [total, map_append, sum_append]
  rfl

theorem total_cons (x k : Nat) (own : List (Nat × Nat)) : total ((x, k) :: own) = k + total own := rfl

theorem total_erase {own : List (Nat × Nat)} {x k : Nat} (member : (x, k) ∈ own) :
    total own = k + total (own.erase (x, k)) :=
  ((perm_cons_erase member).map Prod.snd).sum_eq

theorem minus_eq {a b : Nat} (le : b ≤ a) (word : a < 2 ^ 64) : Pool.minus a b = a - b := by
  unfold Pool.minus usize
  omega

section

variable {p : Pool} {l : Ledger} {g : State} {own dead : List (Nat × Nat)}

theorem Counted.sums (counted : Counted p l g own dead) : g.hasBase = true ∧
    g.allocatedBytes = total own + total dead ∧ p.heap.allocatedBytes = total own ∧
      p.heap.total = g.total ∧ total own + total dead ≤ g.total ∧ g.total < 2 ^ 32 := by
  obtain ⟨base, used, room, word⟩ := counted.settled.sums
  rw [total_append] at used room
  refine ⟨base, used, ?_, by rw [counted.heap]; rfl, room, word⟩
  rw [counted.heap, State.buried, used, Nat.add_sub_cancel]

/-- No live block starts where a tombstone does. -/
theorem Settled.alive (settled : Settled g (own ++ dead)) {x k : Nat} (member : (x, k) ∈ own) :
    x ∉ dead.map Prod.fst := by
  intro wrong
  obtain ⟨⟨_, k'⟩, inside, rfl⟩ := mem_map.mp wrong
  obtain rfl := (settled.own (mem_append_left dead member)).2.2.2 k'
    (mem_append_right own inside)
  obtain ⟨blocks, lists, shape, _⟩ := settled
  exact disjoint_of_nodup_append shape.liveNodup member inside

theorem Counted.balanced (counted : Counted p l g own dead) : allocator.Balanced (p, l) := by
  obtain ⟨base, _, used, same, room, word⟩ := counted.sums
  obtain ⟨live, buried⟩ := counted.backed.bytes hdrOffset Prod.snd fun b member =>
    Nat.sub_add_cancel (le_trans (by decide) (counted.settled.own member).1)
  refine ⟨used.trans live.symm, counted.tombstones.trans buried.symm, ?_, ?_⟩
  · change p.heap.allocatedBytes + p.tombstonedBytes ≤ p.heap.total
    rw [used, counted.tombstones, same]
    exact room
  · change p.available = p.heap.total - p.heap.allocatedBytes
    have some_ : ¬ p.heap.hasBase = false := by
      rw [counted.heap]
      exact fun none_ => absurd (base.symm.trans none_) (by decide)
    rw [Pool.available, if_neg some_]
    exact minus_eq (by omega) (by omega)

theorem wanted_large (n : Nat) : minBlock ≤ wanted n := by
  unfold wanted adjustedBlockSize
  dsimp only
  generalize (if usize (n + 32) = 0 then 1 else usize (n + 32)) = m
  split
  · exact le_refl _
  · rename_i large
    exact Nat.le_of_not_lt large

theorem allocate_accounted (counted : Counted p l g own dead) {n : Nat} (searches : Searches p.heap n) :
    Accounted ((p.allocate n).1, l.gain (p.allocate n).2) := by
  obtain ⟨base, _⟩ := counted.sums
  have some_ : ¬ p.heap.hasBase = false := by
    rw [counted.heap]
    exact fun none_ => absurd (base.symm.trans none_) (by decide)
  have result : findFree g (wanted n) = (g, none) ∨ ∃ t x k, findFree g (wanted n) = (t, some x) ∧
      ((setFlags (trySplit t x (wanted n)) x blockAlloc).mem x).bsize = k ∧ wanted n ≤ k ∧
      Settled { setFlags (trySplit t x (wanted n)) x blockAlloc with
        allocatedBytes := (setFlags (trySplit t x (wanted n)) x blockAlloc).allocatedBytes + k }
        ((x, k) :: (own ++ dead)) := by
    rcases searches with word | outside
    · exact found_settled counted.settled (wanted_large n) word
    · rw [counted.heap] at outside
      exact .inl (if_pos outside)
  have looked : findFree p.heap (wanted n) =
      ((findFree g (wanted n)).1.buried (dead.map Prod.fst) (total dead), (findFree g (wanted n)).2) := by
    rw [counted.heap]
    exact findFree_buried _
  unfold Pool.allocate
  rw [if_neg some_, looked]
  rcases result with none_ | ⟨t, x, k, found, size, le, settled⟩
  · rw [none_]
    exact .inr ⟨g, own, dead, counted⟩
  · rw [found]
    dsimp only
    generalize isU : setFlags (trySplit t x (wanted n)) x blockAlloc = u at size settled
    have alive := settled.alive (mem_cons_self (a := (x, k)) (l := own))
    obtain ⟨_, used, room, word⟩ := settled.sums
    dsimp only at used room word
    rw [total_cons, total_append] at used room
    have size' : ((u.buried (dead.map Prod.fst) (total dead)).mem x).bsize = k :=
      (Hdr.buried_with _ _).1.trans size
    have served : Pool.serve (t.buried (dead.map Prod.fst) (total dead)) x (wanted n) blockAlloc =
        ({ u with allocatedBytes := u.allocatedBytes + k } : State).buried (dead.map Prod.fst)
          (total dead) := by
      unfold Pool.serve
      dsimp only
      rw [trySplit_buried, setFlags_buried (.inr alive), isU, size']
      have counts : usize (u.allocatedBytes - total dead + k) = u.allocatedBytes + k - total dead := by
        unfold usize
        omega
      rw [State.buried, State.buried]
      rw [counts]
    rw [served]
    refine .inr ⟨_, (x, k) :: own, dead, settled, rfl, counted.tombstones, ?_⟩
    have chunk : Pool.chunk (({ u with allocatedBytes := u.allocatedBytes + k } : State).buried
        (dead.map Prod.fst) (total dead)) x = handed (x, k) := by
      unfold Pool.chunk handed
      rw [show ((({ u with allocatedBytes := u.allocatedBytes + k } : State).buried
        (dead.map Prod.fst) (total dead)).mem x).bsize = k from size']
      have large := (settled.own mem_cons_self).1
      rw [minus_eq (le_trans (by decide) large) (by omega)]
    rw [chunk]
    exact counted.backed.gain (x, k)

theorem tombstone_accounted (counted : Counted p l g own dead) {ptr : Nat}
    (met : allocator.Meets (p, l) (.tombstone ptr)) :
    Accounted ((p.tombstone ptr).1, l.kill ptr) := by
  by_cases isLive : ∃ b ∈ l.live, b.1 = ptr
  · obtain ⟨⟨x, k⟩, inside, start, _, killed⟩ := counted.backed.find isLive
    obtain ⟨_, used, own_, _, room, word⟩ := counted.sums
    obtain ⟨large, size, flags, _⟩ := counted.settled.own (mem_append_left dead inside)
    have alive := counted.settled.alive inside
    have place : ptr - hdrOffset = x := by
      rw [← start]
      exact Nat.add_sub_cancel ..
    have here : p.heap.mem x = g.mem x := by
      rw [counted.heap]
      exact if_neg fun wrong => alive (of_decide_eq_true wrong.1)
    have bytes := total_erase inside
    have marked : update p.heap.mem x { p.heap.mem x with flags := blockTombstone } =
        fun a => (g.mem a).buried (decide (a ∈ x :: dead.map Prod.fst)) := by
      rw [here, counted.heap]
      funext a
      by_cases same : a = x
      · rw [same, update_self]
        simp [Hdr.buried, flags]
      · rw [update_of_ne same]
        simp only [State.buried, mem_cons, same, false_or]
    have heap : ({ setFlags p.heap x blockTombstone with allocatedBytes := total own - k } : State) =
        g.buried (x :: dead.map Prod.fst) (k + total dead) := by
      rw [setFlags, setHdr, marked, counted.heap,
        show total own - k = g.allocatedBytes - (k + total dead) by omega]
      rfl
    have result : (p.tombstone ptr).1 = { p with
        heap := g.buried (x :: dead.map Prod.fst) (k + total dead)
        tombstonedBytes := k + total dead } := by
      unfold Pool.tombstone
      dsimp only
      rw [place, here, flags, if_neg (by decide), size, counted.tombstones,
        show (setFlags p.heap x blockTombstone).allocatedBytes = total own from own_,
        minus_eq (by omega) (by omega), heap, show usize (total dead + k) = k + total dead by
          unfold usize
          omega]
    rw [result]
    refine .inr ⟨g, own.erase (x, k), (x, k) :: dead, ?_, rfl, rfl, killed⟩
    exact counted.settled.perm (((perm_cons_erase inside).append_right dead).trans
      perm_middle.symm)
  · have passed : (p.heap.mem (ptr - hdrOffset)).flags &&& blockAlloc = 0 := by
      rcases met with ⟨b, member, start⟩ | passes
      · rcases mem_append.mp member with inLive | inDead
        · exact absurd ⟨b, inLive, start⟩ isLive
        · obtain ⟨⟨x, k⟩, inside, rfl⟩ := mem_map.mp (counted.backed.dead.mem_iff.mp inDead)
          have place : ptr - hdrOffset = x := by
            rw [← start]
            exact Nat.add_sub_cancel ..
          have flags := (counted.settled.own (mem_append_right own inside)).2.2.1
          have isDead : x ∈ dead.map Prod.fst := mem_map_of_mem inside
          rw [place, counted.heap, State.buried]
          dsimp only
          rw [Hdr.buried, if_pos ⟨decide_eq_true isDead, flags⟩]
          exact (by decide : blockTombstone &&& blockAlloc = 0)
      · exact passes
    have same : (p.tombstone ptr).1 = p := by
      unfold Pool.tombstone
      rw [if_pos passed]
    rw [same, (Ledger.find_none isLive).1]
    exact .inr ⟨g, own, dead, counted⟩

theorem deallocate_accounted (counted : Counted p l g own dead) {ptr : Nat}
    (met : allocator.Meets (p, l) (.deallocate ptr)) :
    Accounted ((p.deallocate ptr).1, l.drop ptr) := by
  have base : p.heap.hasBase = true := by
    rw [counted.heap]
    exact counted.sums.1
  by_cases isLive : ∃ b ∈ l.live, b.1 = ptr
  · obtain ⟨⟨x, k⟩, inside, start, dropped, _⟩ := counted.backed.find isLive
    obtain ⟨_, used, own_, _, room, word⟩ := counted.sums
    obtain ⟨large, size, flags, _⟩ := counted.settled.own (mem_append_left dead inside)
    have alive := counted.settled.alive inside
    have isPtr : ptr = x + hdrOffset := start.symm
    have here : p.heap.mem x = g.mem x := by
      rw [counted.heap]
      exact if_neg fun wrong => alive (of_decide_eq_true wrong.1)
    have bytes := total_erase inside
    have freed : (Tlsf.deallocate g ptr).1 =
        coalesceAndFree { g with allocatedBytes := g.allocatedBytes - k } x := by
      have some_ : ¬ g.hasBase = false := fun none_ => absurd (counted.sums.1.symm.trans none_) (by decide)
      unfold Tlsf.deallocate
      dsimp only
      rw [if_neg some_, isPtr, Nat.add_sub_cancel, flags, if_neg (by decide), size]
    have counts : ({ p.heap with allocatedBytes := total own - k } : State) =
        ({ g with allocatedBytes := g.allocatedBytes - k } : State).buried (dead.map Prod.fst)
          (total dead) := by
      rw [counted.heap, State.buried, State.buried]
      rw [show g.allocatedBytes - k - total dead = total own - k by omega]
    have result : (p.deallocate ptr).1 =
        { p with heap := (Tlsf.deallocate g ptr).1.buried (dead.map Prod.fst) (total dead) } := by
      have some_ : ¬ (ptr = 0 ∨ p.heap.hasBase = false) := by
        rintro (zero | none_)
        · rw [isPtr] at zero
          exact absurd zero (by unfold hdrOffset; omega)
        · exact absurd (base.symm.trans none_) (by decide)
      unfold Pool.deallocate
      dsimp only
      rw [if_neg some_, isPtr, Nat.add_sub_cancel, here, flags, if_neg (by decide), if_neg (by decide),
        if_neg (by decide), size, own_, minus_eq (by omega) (by omega), ← isPtr, freed]
      rw [counts, coalesceAndFree_buried]
    have settled := (deallocate_settled counted.settled (mem_append_left dead inside)).1
    rw [← isPtr, erase_append_left dead inside] at settled
    rw [result]
    exact .inr ⟨_, own.erase (x, k), dead, settled, rfl, counted.tombstones, dropped⟩
  · rcases met with live | ⟨notDead, refused⟩
    · exact absurd live isLive
    · have same : (p.deallocate ptr).1 = p := by
        unfold Pool.deallocate
        dsimp only
        rcases refused with zero | none_ | free
        · rw [if_pos (.inl zero)]
        · rw [if_pos (.inr none_)]
        · split <;> rfl
      rw [same, (Ledger.find_none isLive).2 notDead]
      exact .inr ⟨g, own, dead, counted⟩

theorem write_accounted (counted : Counted p l g own dead) {u : Nat} {h : Hdr}
    (met : allocator.Meets (p, l) (.write u h)) :
    Accounted ({ p with heap := setHdr p.heap u h }, l) := by
  obtain ⟨b, member, low, high⟩ := met
  obtain ⟨⟨x, k⟩, inside, rfl⟩ := mem_map.mp (counted.backed.live.mem_iff.mp member)
  have some_ : 0 < hdrOffset := by decide
  unfold handed at low high
  have written := fun h => write_settled counted.settled (mem_append_left dead inside)
    (show x < u by omega) (show u < x + k by omega) h
  -- whatever is written, the tombstone is still a live block of the other heap
  have alive : u ∉ dead.map Prod.fst := by
    intro wrong
    obtain ⟨⟨_, k'⟩, isDead, rfl⟩ := mem_map.mp wrong
    have flags := ((written ⟨0, blockFree, none, none, none⟩).own (mem_append_right own isDead)).2.2.1
    rw [setHdr] at flags
    dsimp only at flags
    rw [update_self] at flags
    exact absurd flags (by decide)
  refine .inr ⟨_, own, dead, written h, ?_, counted.tombstones, counted.backed⟩
  rw [counted.heap]
  exact setHdr_buried u (if_neg fun wrong => alive (of_decide_eq_true wrong.1)).symm

end

theorem step_accounted (y : Pool × Ledger) (c : Lib.Request Hdr) (accounted : Accounted y)
    (met : allocator.Meets y c) : Accounted (allocator.step y c) := by
  obtain ⟨p, l⟩ := y
  rcases accounted with ⟨heap, tombstones, rfl⟩ | ⟨g, own, dead, counted⟩
  · have none_ : p.heap.hasBase = false := by rw [heap]; rfl
    have still : Accounted (p, ⟨[], []⟩) := .inl ⟨heap, tombstones, rfl⟩
    cases c with
    | allocate n =>
      have same : p.allocate n = (p, none) := if_pos none_
      change Accounted ((p.allocate n).1, Ledger.gain _ (p.allocate n).2)
      rw [same]
      exact still
    | tombstone ptr =>
      have same : p.tombstone ptr = (p, .invalid) := by
        unfold Pool.tombstone
        rw [heap]
        exact if_pos (by decide : blockFree &&& blockAlloc = 0)
      change Accounted ((p.tombstone ptr).1, _)
      rw [same]
      exact still
    | deallocate ptr =>
      have same : p.deallocate ptr = (p, .failure) := if_pos (.inr none_)
      change Accounted ((p.deallocate ptr).1, _)
      rw [same]
      exact still
    | write u h =>
      obtain ⟨b, member, _⟩ := met
      exact absurd member not_mem_nil
  · cases c with
    | allocate n => exact allocate_accounted counted met
    | tombstone ptr => exact tombstone_accounted counted met
    | deallocate ptr => exact deallocate_accounted counted met
    | write u h => exact write_accounted counted met

theorem init_accounted (ptr len : Nat) : Accounted (Pool.init ptr len, ⟨[], []⟩) := by
  by_cases fits : Fits ptr len
  · refine .inr ⟨State.init ptr len, [], [], init_settled fits, ?_, rfl, ⟨.nil, .nil⟩⟩
    change State.init ptr len = _
    rw [State.buried]
    simp [Hdr.buried, total]
  · exact .inl ⟨init_none fits, rfl, rfl⟩

theorem Accounted.balanced {y : Pool × Ledger} (accounted : Accounted y) : allocator.Balanced y := by
  obtain ⟨p, l⟩ := y
  rcases accounted with ⟨heap, tombstones, rfl⟩ | ⟨g, own, dead, counted⟩
  · refine ⟨?_, tombstones, ?_, ?_⟩
    · change p.heap.allocatedBytes = 0
      rw [heap]
      rfl
    · change p.heap.allocatedBytes + p.tombstonedBytes ≤ p.heap.total
      rw [heap, tombstones]
      exact le_refl 0
    · change p.available = p.heap.total - p.heap.allocatedBytes
      unfold Pool.available
      rw [heap]
      rfl
  · exact counted.balanced

end Micron.Tlsf
