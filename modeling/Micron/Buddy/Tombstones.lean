import Micron.Lib.Ledger
import Micron.Buddy.Recognised

/-!
# Tombstones of the buddy allocator

A tombstone is a live block in all but the flags of its header, which no operation on
other blocks reads or writes.
-/

set_option autoImplicit false

namespace Micron.Buddy

open Micron.Lib List Function Nat

def blockTombstone : Nat := 2

/-- `__buddy_list`, whose counters are words. -/
structure Pool where
  heap : State
  tombstonedBytes : Nat

namespace Pool

def minus (a b : Nat) : Nat := usize (2 ^ 64 + a - b)

variable (cfg : Config)

def allocate (p : Pool) (n : Nat) : Pool × Option (Nat × Nat) :=
  let r := Buddy.allocate cfg p.heap n
  ({ p with heap := { r.1 with allocatedBytes := usize r.1.allocatedBytes } }, r.2)

def hdrOfTagged (p : Pool) (off : Nat) : Nat :=
  hdrOf cfg off (p.heap.blockTags (tagIndexOf cfg off) % tagFree)

inductive Flag where
  | invalid
  | tombstoned
  | ok
  deriving DecidableEq

def tombstone (p : Pool) (off : Nat) : Pool × Flag :=
  if isAllocated cfg p.heap off = false then (p, .invalid)
  else
    match p.heap.mem (p.hdrOfTagged cfg off) with
    | .header o flags =>
      if p.heap.maxOrder ≤ o then (p, .invalid)
      else if flags &&& blockAlloc = 0 then (p, .invalid)
      else
        let s := setWord p.heap (p.hdrOfTagged cfg off) (.header o blockTombstone)
        ({ heap := { s with allocatedBytes := minus s.allocatedBytes (orderSize cfg o) }
           tombstonedBytes := usize (p.tombstonedBytes + orderSize cfg o) }, .tombstoned)
    | .link _ | .user _ => (p, .invalid)

def deallocate (p : Pool) (off : Nat) : Pool × Flag :=
  if isAllocated cfg p.heap off = false then (p, .invalid)
  else
    match p.heap.mem (p.hdrOfTagged cfg off) with
    | .header o flags =>
      if p.heap.maxOrder ≤ o then (p, .invalid)
      else if flags = blockFree then (p, .invalid)
      else
        let s := { p.heap with allocatedBytes := minus p.heap.allocatedBytes (orderSize cfg o) }
        ({ heap := mergeAndFree cfg (setWord s (p.hdrOfTagged cfg off) (.header o blockFree)) off o
           tombstonedBytes :=
             if flags &&& blockTombstone ≠ 0 then minus p.tombstonedBytes (orderSize cfg o)
             else p.tombstonedBytes }, .ok)
    | .link _ | .user _ => (p, .invalid)

def available (p : Pool) : Nat :=
  if p.heap.hasBase = false then 0 else minus p.heap.total p.heap.allocatedBytes

def used (p : Pool) : Nat := p.heap.allocatedBytes

def tombstoned (p : Pool) : Nat := p.tombstonedBytes

def init (ptr len : Nat) (extTags : Bool) : Pool := ⟨State.init cfg ptr len extTags, 0⟩

end Pool

/-- A pointer has no tag of a live block, or a header that is not of a live one. -/
def Turned (cfg : Config) (p : Pool) (off : Nat) (out : Nat → Prop) : Prop :=
  isAllocated cfg p.heap off = false ∨ ∃ o flags, p.heap.mem (p.hdrOfTagged cfg off) = .header o flags ∧
    (p.heap.maxOrder ≤ o ∨ out flags)

def allocator (cfg : Config) : Allocator Pool Word where
  header := hdrOffset
  allocate := Pool.allocate cfg
  tombstone p off := (p.tombstone cfg off).1
  deallocate p off := (p.deallocate cfg off).1
  write p u w := { p with heap := setWord p.heap u w }
  used := Pool.used
  tombstoned := Pool.tombstoned
  available := Pool.available
  total p := p.heap.total
  serves _ _ := True
  passes p off := Turned cfg p off fun flags => flags &&& blockAlloc = 0
  refuses p off := Turned cfg p off fun flags => flags = blockFree

def Word.buried (dead : Bool) : Word → Word
  | .header o flags => .header o (if dead = true ∧ flags = blockAlloc then blockTombstone else flags)
  | w => w

/-- The headers at some places are those of tombstones, whose bytes are not counted. -/
def State.buried (s : State) (dead : List Nat) (bytes : Nat) : State :=
  { s with
    allocatedBytes := s.allocatedBytes - bytes
    mem := fun a => (s.mem a).buried (decide (a ∈ dead)) }

section

variable {cfg : Config} {s : State} {dead : List Nat} {bytes : Nat}

theorem Word.buried_alive (w : Word) : w.buried false = w := by
  cases w with
  | header o flags => rw [Word.buried, if_neg (fun wrong => nomatch wrong.1)]
  | link next => rfl
  | user value => rfl

theorem setWord_buried (a : Nat) {w w' : Word} (same : w' = w.buried (decide (a ∈ dead))) :
    setWord (s.buried dead bytes) a w' = (setWord s a w).buried dead bytes := by
  have mem : update (s.buried dead bytes).mem a w' =
      fun b => (update s.mem a w b).buried (decide (b ∈ dead)) := by
    funext b
    by_cases here : b = a
    · rw [here, update_self, update_self, same]
    · rw [update_of_ne here, update_of_ne here]
      rfl
  unfold setWord
  rw [mem]
  rfl

theorem setLink_buried (a : Nat) (next : Option Nat) :
    setWord (s.buried dead bytes) a (.link next) = (setWord s a (.link next)).buried dead bytes :=
  setWord_buried a rfl

theorem goodNext_buried (off : Nat) : goodNext cfg (s.buried dead bytes) off = goodNext cfg s off := by
  have next : ((s.buried dead bytes).mem off).next = (s.mem off).next := by
    change ((s.mem off).buried _).next = _
    cases s.mem off <;> rfl
  unfold goodNext
  rw [next]
  rfl

theorem removeLoop_buried (b o fuel : Nat) (prev cur : Option Nat) :
    removeLoop cfg (s.buried dead bytes) b o fuel prev cur =
      (removeLoop cfg s b o fuel prev cur).buried dead bytes := by
  induction fuel generalizing prev cur with
  | zero => rfl
  | succ fuel ih =>
    cases cur with
    | none => rfl
    | some cur =>
      unfold removeLoop
      rw [goodNext_buried]
      split
      · cases prev with
        | none => rfl
        | some p => exact congrArg (maskClearIfEmpty · o) (setLink_buried p _)
      · exact ih _ _

theorem freelistPush_buried (off o : Nat) : freelistPush cfg (s.buried dead bytes) off o =
    (freelistPush cfg s off o).buried dead bytes := by
  unfold freelistPush
  rw [show (s.buried dead bytes).freeLists = s.freeLists from rfl, setLink_buried]
  rfl

theorem freelistPop_buried (off o : Nat) : freelistPop cfg (s.buried dead bytes) off o =
    (freelistPop cfg s off o).buried dead bytes := by
  unfold freelistPop
  rw [goodNext_buried]
  rfl

theorem splitLoop_buried (blk o : Nat) : ∀ (i : Nat) {s : State},
    splitLoop cfg (s.buried dead bytes) blk o i = (splitLoop cfg s blk o i).buried dead bytes := by
  intro i
  induction i with
  | zero => exact rfl
  | succ i ih =>
    intro s
    rw [splitLoop, splitLoop, freelistPush_buried]
    split
    · exact ih
    · rfl

theorem mergeLoop_buried : ∀ (above : Nat) {off o : Nat} {s : State},
    mergeLoop cfg (s.buried dead bytes) off o above = (mergeLoop cfg s off o above).buried dead bytes := by
  intro above
  induction above with
  | zero => exact freelistPush_buried _ _
  | succ above ih =>
    intro off o s
    have removed : ∀ b, setTag cfg (freelistRemove cfg (s.buried dead bytes) b o) b tagNone =
        (setTag cfg (freelistRemove cfg s b o) b tagNone).buried dead bytes := fun b =>
      congrArg (setTag cfg · b tagNone) (removeLoop_buried b o _ none _)
    have tags : ∀ b, tagIsFreeAtOff cfg (s.buried dead bytes) b o = tagIsFreeAtOff cfg s b o :=
      fun _ => rfl
    rw [mergeLoop, mergeLoop]
    rw [removed, tags]
    split
    · exact ih
    · exact freelistPush_buried off o

/-- A block is found in the same list of both heaps. -/
theorem allocate_buried {live : List (Nat × Nat)} (settled : Settled cfg s live) (n : Nat) :
    Buddy.allocate cfg (s.buried dead bytes) n = (s.buried dead bytes, none) ∨
      ∃ t o blk, Settled cfg (finishAlloc cfg t blk o).1 ((blk, o) :: live) ∧
        Buddy.allocate cfg (s.buried dead bytes) n = finishAlloc cfg (t.buried dead bytes) blk o := by
  have found : ∀ {o}, findFreeOrder s o < s.maxOrder → o ≤ findFreeOrder s o := by
    intro o inside
    obtain ⟨blocks, lists, shape, stored, none_⟩ := settled
    exact (findFreeOrder_spec stored shape.few inside).1
  unfold Buddy.allocate
  dsimp only
  generalize orderForSize cfg _ = o
  split
  · exact .inl rfl
  · split
    · exact .inl rfl
    · split
      · exact .inl rfl
      · rename_i inside
        split
        · exact .inl rfl
        · rename_i blk head
          refine .inr ⟨_, o, blk, take_settled settled head (found (Nat.lt_of_not_le inside)), ?_⟩
          rw [freelistPop_buried, splitLoop_buried]

end

/-! ## What the counters say -/

section

variable {cfg : Config}

def total (cfg : Config) (own : List (Nat × Nat)) : Nat := (own.map fun b => blockSize cfg b.2).sum

def headers (cfg : Config) (own : List (Nat × Nat)) : List Nat := own.map fun b => hdrOf cfg b.1 b.2

structure Counted (cfg : Config) (p : Pool) (l : Ledger) (g : State) (own dead : List (Nat × Nat)) :
    Prop where
  settled : Settled cfg g (own ++ dead)
  heap : p.heap = g.buried (headers cfg dead) (total cfg dead)
  tombstones : p.tombstonedBytes = total cfg dead
  backed : l.Backed (handed cfg) own dead

def Accounted (cfg : Config) (y : Pool × Ledger) : Prop :=
  y = (⟨State.none, 0⟩, ⟨[], []⟩) ∨ ∃ g own dead, Counted cfg y.1 y.2 g own dead

theorem Settled.perm {s : State} {own own' : List (Nat × Nat)} (settled : Settled cfg s own)
    (same : own.Perm own') : Settled cfg s own' := by
  obtain ⟨blocks, lists, shape, stored, none_⟩ := settled
  refine ⟨blocks, lists, ⟨shape.base, shape.orders, shape.few, shape.room, shape.word, shape.tiling,
    shape.listed, shape.nodup, fun a o => same.mem_iff.symm.trans (shape.lived a o),
    same.nodup_iff.mp shape.liveNodup, shape.noBuddies⟩, ⟨stored.chain, stored.mask, stored.header,
    stored.freeTag, stored.liveTag, stored.tagFree, stored.used.trans (same.map _).sum_eq⟩, none_⟩

/-- What is stored about a live block, and that no other has its header. -/
theorem Settled.own {s : State} {own : List (Nat × Nat)} (settled : Settled cfg s own) {a o : Nat}
    (member : (a, o) ∈ own) : o < s.maxOrder ∧ s.maxOrder ≤ 64 ∧ orderSize cfg o = blockSize cfg o ∧
      s.mem (hdrOf cfg a o) = .header o blockAlloc ∧ s.blockTags (tagIndexOf cfg a) = o ∧
      ∀ b ∈ own, hdrOf cfg b.1 b.2 = hdrOf cfg a o → b = (a, o) := by
  obtain ⟨blocks, lists, shape, stored, none_⟩ := settled
  have isA := (shape.lived a o).mp member
  have below := shape.order_lt isA
  refine ⟨below, shape.few, shape.orderSize_eq below, stored.header a o isA, stored.liveTag a o isA, ?_⟩
  rintro ⟨b, k⟩ member' same
  have isB := (shape.lived b k).mp member'
  have insideA := shape.hdr_mem isA
  have insideB := shape.hdr_mem isB
  rw [same] at insideB
  obtain rfl := shape.eq_of_mem isB isA insideB.1 insideB.2 insideA.1 insideA.2
  rw [isA] at isB
  rw [(Prod.mk.inj (Option.some.inj isB)).1]

theorem Settled.sums {s : State} {own : List (Nat × Nat)} (settled : Settled cfg s own) :
    s.hasBase = true ∧ s.allocatedBytes = total cfg own ∧ total cfg own ≤ s.total ∧
      s.total < 2 ^ 64 := by
  obtain ⟨blocks, lists, shape, stored, none_⟩ := settled
  have apart : AllApart (own.map fun b => ⟨b.1, blockSize cfg b.2⟩) :=
    (pairwise_append.mp (ownExtents_apart shape)).1
  have room := apart.sum_le 0 (2 ^ topExp cfg s) ?_
  · rw [map_map] at room
    exact ⟨shape.base, stored.used, le_trans room shape.room, shape.word⟩
  · intro x member
    obtain ⟨⟨a, o⟩, inside, rfl⟩ := mem_map.mp member
    exact ⟨zero_le _, shape.tiling.inside (exps_eq_some ((shape.lived a o).mp inside))⟩

theorem total_append (own dead : List (Nat × Nat)) :
    total cfg (own ++ dead) = total cfg own + total cfg dead := by
  rw [total, map_append, List.sum_append]
  rfl

theorem total_cons (a o : Nat) (own : List (Nat × Nat)) :
    total cfg ((a, o) :: own) = blockSize cfg o + total cfg own := rfl

theorem total_erase {own : List (Nat × Nat)} {a o : Nat} (member : (a, o) ∈ own) :
    total cfg own = blockSize cfg o + total cfg (own.erase (a, o)) :=
  ((perm_cons_erase member).map fun b : Nat × Nat => blockSize cfg b.2).sum_eq

theorem minus_eq {a b : Nat} (le : b ≤ a) (word : a < 2 ^ 64) : Pool.minus a b = a - b := by
  unfold Pool.minus usize
  omega

variable {p : Pool} {l : Ledger} {g : State} {own dead : List (Nat × Nat)}

theorem Counted.sums (counted : Counted cfg p l g own dead) : g.hasBase = true ∧
    g.allocatedBytes = total cfg own + total cfg dead ∧ p.heap.allocatedBytes = total cfg own ∧
      p.heap.total = g.total ∧ total cfg own + total cfg dead ≤ g.total ∧ g.total < 2 ^ 64 := by
  obtain ⟨base, used, room, word⟩ := counted.settled.sums
  rw [total_append] at used room
  refine ⟨base, used, ?_, by rw [counted.heap]; rfl, room, word⟩
  rw [counted.heap, State.buried, used, Nat.add_sub_cancel]

/-- No live block has the header of a tombstone. -/
theorem Settled.alive (settled : Settled cfg g (own ++ dead)) {a o : Nat} (member : (a, o) ∈ own) :
    hdrOf cfg a o ∉ headers cfg dead := by
  intro wrong
  obtain ⟨b, inside, same⟩ := mem_map.mp wrong
  obtain rfl := (settled.own (mem_append_left dead member)).2.2.2.2.2 b
    (mem_append_right own inside) same
  obtain ⟨blocks, lists, shape, _⟩ := settled
  exact disjoint_of_nodup_append shape.liveNodup member inside

/-- What a pool says about a block. -/
theorem Counted.reads (counted : Counted cfg p l g own dead) {a o : Nat} (member : (a, o) ∈ own ++ dead) :
    isAllocated cfg p.heap a = true ∧ p.hdrOfTagged cfg a = hdrOf cfg a o ∧
      p.heap.mem (hdrOf cfg a o) = .header o (if hdrOf cfg a o ∈ headers cfg dead then blockTombstone
        else blockAlloc) ∧ ¬ p.heap.maxOrder ≤ o := by
  obtain ⟨below, few, _, word, tag, _⟩ := counted.settled.own member
  refine ⟨?_, ?_, ?_, ?_⟩
  · rw [counted.heap]
    exact isAllocated_of_mem counted.settled member
  · rw [Pool.hdrOfTagged, counted.heap, State.buried]
    rw [tag, mod_eq_of_lt (by change o < 128; omega)]
  · rw [counted.heap, State.buried]
    dsimp only
    rw [word, Word.buried]
    simp
  · rw [counted.heap]
    exact not_le.mpr below

theorem Counted.balanced (counted : Counted cfg p l g own dead) : (allocator cfg).Balanced (p, l) := by
  obtain ⟨base, _, used, same, room, word⟩ := counted.sums
  obtain ⟨live, buried⟩ := counted.backed.bytes hdrOffset
    (fun b => blockSize cfg b.2) fun b member => by
      rw [handed, (counted.settled.own member).2.2.1]
      exact Nat.sub_add_cancel (hdrOffset_le cfg b.2)
  refine ⟨used.trans live.symm, counted.tombstones.trans buried.symm, ?_, ?_⟩
  · change p.heap.allocatedBytes + p.tombstonedBytes ≤ p.heap.total
    rw [used, counted.tombstones, same]
    exact room
  · change p.available = p.heap.total - p.heap.allocatedBytes
    have some_ : ¬ p.heap.hasBase = false := by
      rw [counted.heap]
      exact fun none_ => absurd (base.symm.trans none_) (by decide)
    rw [Pool.available, if_neg some_]
    exact minus_eq (by omega) (by omega)

theorem allocate_accounted (counted : Counted cfg p l g own dead) (n : Nat) :
    Accounted cfg ((p.allocate cfg n).1, l.gain (p.allocate cfg n).2) := by
  obtain ⟨_, _, used, _, room, word⟩ := counted.sums
  unfold Pool.allocate
  dsimp only
  rcases @allocate_buried cfg g (headers cfg dead) (total cfg dead) _ counted.settled n with
    none_ | ⟨t, o, blk, settled, result⟩
  · rw [counted.heap] at used
    rw [counted.heap, none_]
    refine .inr ⟨g, own, dead, counted.settled, ?_, counted.tombstones, counted.backed⟩
    rw [used, usize, mod_eq_of_lt (by omega), ← used]
  · obtain ⟨_, used', room', word'⟩ := settled.sums
    obtain ⟨_, _, size, _⟩ := settled.own mem_cons_self
    have alive := settled.alive (mem_cons_self (a := (blk, o)) (l := own))
    rw [total_cons, total_append] at used' room'
    change t.allocatedBytes + orderSize cfg o = _ at used'
    rw [counted.heap, result]
    refine .inr ⟨_, (blk, o) :: own, dead, settled, ?_, counted.tombstones, counted.backed.gain (blk, o)⟩
    unfold finishAlloc
    rw [@setWord_buried t _ _ _ (.header o blockAlloc) _ (by rw [decide_eq_false alive, Word.buried_alive])]
    have counts : usize (t.allocatedBytes - total cfg dead + orderSize cfg o) =
        t.allocatedBytes + orderSize cfg o - total cfg dead := by
      unfold usize
      omega
    unfold tagSetAlloc setTag State.buried setWord
    rw [counts]

theorem tombstone_accounted (counted : Counted cfg p l g own dead) {off : Nat}
    (met : (allocator cfg).Meets (p, l) (.tombstone off)) :
    Accounted cfg ((p.tombstone cfg off).1, l.kill off) := by
  by_cases isLive : ∃ b ∈ l.live, b.1 = off
  · obtain ⟨⟨a, o⟩, inside, rfl, _, killed⟩ := counted.backed.find isLive
    obtain ⟨_, used, own_, _, room, word⟩ := counted.sums
    have whole := mem_append_left dead inside
    have alive := counted.settled.alive inside
    obtain ⟨allocated, place, header, below⟩ := counted.reads whole
    obtain ⟨_, _, size, isHeader, _⟩ := counted.settled.own whole
    rw [if_neg alive] at header
    have bytes := @total_erase cfg _ _ _ inside
    have marked : update p.heap.mem (hdrOf cfg a o) (.header o blockTombstone) =
        fun u => (g.mem u).buried (decide (u ∈ hdrOf cfg a o :: headers cfg dead)) := by
      rw [counted.heap]
      funext u
      by_cases same : u = hdrOf cfg a o
      · rw [same, update_self, isHeader]
        simp [Word.buried]
      · rw [update_of_ne same]
        simp only [State.buried, mem_cons, same, false_or]
    have heap : ({ setWord p.heap (hdrOf cfg a o) (.header o blockTombstone) with
          allocatedBytes := total cfg own - blockSize cfg o } : State) =
        g.buried (hdrOf cfg a o :: headers cfg dead) (blockSize cfg o + total cfg dead) := by
      rw [setWord, marked, counted.heap,
        show total cfg own - blockSize cfg o = g.allocatedBytes - (blockSize cfg o + total cfg dead) by
          omega]
      rfl
    have result : (p.tombstone cfg a).1 =
        ⟨g.buried (hdrOf cfg a o :: headers cfg dead) (blockSize cfg o + total cfg dead),
          blockSize cfg o + total cfg dead⟩ := by
      unfold Pool.tombstone
      rw [if_neg (by rw [allocated]; decide), place, header]
      dsimp only
      rw [if_neg below, if_neg (by decide), counted.tombstones, size,
        show (setWord p.heap (hdrOf cfg a o) (.header o blockTombstone)).allocatedBytes =
          total cfg own from own_, minus_eq (by omega) (by omega), heap,
        show usize (total cfg dead + blockSize cfg o) = blockSize cfg o + total cfg dead by
          unfold usize
          omega]
    rw [show (handed cfg (a, o)).1 = a from rfl, result]
    refine .inr ⟨g, own.erase (a, o), (a, o) :: dead, ?_, rfl, rfl, killed⟩
    exact counted.settled.perm (((perm_cons_erase inside).append_right dead).trans
      perm_middle.symm)
  · have same : (p.tombstone cfg off).1 = p := by
      rcases met with ⟨b, member, start⟩ | refused | ⟨o, flags, header, out⟩
      · rcases mem_append.mp member with inLive | inDead
        · exact absurd ⟨b, inLive, start⟩ isLive
        · obtain ⟨⟨a, o⟩, inside, rfl⟩ := mem_map.mp (counted.backed.dead.mem_iff.mp inDead)
          obtain ⟨allocated, place, header, below⟩ := counted.reads (mem_append_right own inside)
          have isDead : hdrOf cfg a o ∈ headers cfg dead :=
            mem_map.mpr ⟨(a, o), inside, rfl⟩
          rw [if_pos isDead] at header
          rw [← start, show (handed cfg (a, o)).1 = a from rfl]
          unfold Pool.tombstone
          rw [if_neg (by rw [allocated]; decide), place, header]
          dsimp only
          rw [if_neg below, if_pos (by decide)]
      · unfold Pool.tombstone
        rw [if_pos refused]
      · unfold Pool.tombstone
        rw [header]
        dsimp only
        rcases out with high | notLive
        · rw [if_pos high]
          split <;> rfl
        · rw [if_pos notLive]
          split <;> [rfl; split <;> rfl]
    rw [same, (Ledger.find_none isLive).1]
    exact .inr ⟨g, own, dead, counted⟩

theorem deallocate_accounted (counted : Counted cfg p l g own dead) {off : Nat}
    (met : (allocator cfg).Meets (p, l) (.deallocate off)) :
    Accounted cfg ((p.deallocate cfg off).1, l.drop off) := by
  by_cases isLive : ∃ b ∈ l.live, b.1 = off
  · obtain ⟨⟨a, o⟩, inside, rfl, dropped, _⟩ := counted.backed.find isLive
    obtain ⟨_, used, own_, _, room, word⟩ := counted.sums
    have whole := mem_append_left dead inside
    have alive := counted.settled.alive inside
    obtain ⟨allocated, place, header, below⟩ := counted.reads whole
    obtain ⟨_, _, size, isHeader, _⟩ := counted.settled.own whole
    rw [if_neg alive] at header
    have bytes := @total_erase cfg _ _ _ inside
    have counts : ({ p.heap with allocatedBytes := total cfg own - orderSize cfg o } : State) =
        ({ g with allocatedBytes := g.allocatedBytes - orderSize cfg o } : State).buried
          (headers cfg dead) (total cfg dead) := by
      rw [counted.heap, State.buried, State.buried]
      rw [show g.allocatedBytes - orderSize cfg o - total cfg dead = total cfg own - orderSize cfg o by
        omega]
    have result : (p.deallocate cfg a).1 =
        { p with heap := (Buddy.deallocate cfg g a).1.buried (headers cfg dead) (total cfg dead) } := by
      rw [deallocate_eq counted.settled whole]
      unfold Pool.deallocate
      rw [if_neg (by rw [allocated]; decide), place, header]
      dsimp only
      rw [if_neg below, if_neg (by decide), if_neg (by decide), own_, minus_eq (by omega) (by omega), counts,
        @setWord_buried _ _ _ _ (.header o blockFree) (.header o blockFree) (by
          simp [Word.buried, blockFree, blockAlloc])]
      exact congrArg (Pool.mk · p.tombstonedBytes) (mergeLoop_buried _)
    have settled := (deallocate_settled counted.settled whole).1
    rw [erase_append_left dead inside] at settled
    rw [show (handed cfg (a, o)).1 = a from rfl, result]
    exact .inr ⟨_, own.erase (a, o), dead, settled, rfl, counted.tombstones, dropped⟩
  · rcases met with live | ⟨notDead, refused⟩
    · exact absurd live isLive
    · have same : (p.deallocate cfg off).1 = p := by
        unfold Pool.deallocate
        rcases refused with refused | ⟨o, flags, header, out⟩
        · rw [if_pos refused]
        · dsimp only at header
          rw [header]
          dsimp only
          rcases out with high | free
          · rw [if_pos high]
            split <;> rfl
          · rw [if_pos free]
            split <;> [rfl; split <;> rfl]
      rw [same, (Ledger.find_none isLive).2 notDead]
      exact .inr ⟨g, own, dead, counted⟩

theorem write_accounted (counted : Counted cfg p l g own dead) {u : Nat} {w : Word}
    (met : (allocator cfg).Meets (p, l) (.write u w)) :
    Accounted cfg ({ p with heap := setWord p.heap u w }, l) := by
  obtain ⟨b, member, low, high⟩ := met
  obtain ⟨⟨a, o⟩, inside, rfl⟩ := mem_map.mp (counted.backed.live.mem_iff.mp member)
  have written := fun w => write_settled counted.settled (mem_append_left dead inside) low high w
  -- whatever is written, the tombstone is still a live block of the other heap
  have alive : u ∉ headers cfg dead := by
    intro wrong
    obtain ⟨⟨b, k⟩, isDead, rfl⟩ := mem_map.mp wrong
    have header := ((written (.user 0)).own (mem_append_right own isDead)).2.2.2.1
    rw [setWord] at header
    dsimp only at header
    rw [update_self] at header
    cases header
  refine .inr ⟨_, own, dead, written w, ?_, counted.tombstones, counted.backed⟩
  rw [counted.heap]
  exact setWord_buried u (by rw [decide_eq_false alive, Word.buried_alive])

theorem step_accounted (y : Pool × Ledger) (c : Request Word) (accounted : Accounted cfg y)
    (met : (allocator cfg).Meets y c) : Accounted cfg ((allocator cfg).step y c) := by
  rcases accounted with isNone | ⟨g, own, dead, counted⟩
  · rw [isNone] at met ⊢
    cases c with
    | write u w =>
      obtain ⟨b, member, _⟩ := met
      exact absurd member not_mem_nil
    | allocate n => exact .inl rfl
    | tombstone off => exact .inl rfl
    | deallocate off => exact .inl rfl
  · cases c with
    | allocate n => exact allocate_accounted counted n
    | tombstone off => exact tombstone_accounted counted met
    | deallocate off => exact deallocate_accounted counted met
    | write u w => exact write_accounted counted met

theorem init_accounted (cfg : Config) (ptr : Nat) {len : Nat} (word : len < 2 ^ 64) (extTags : Bool) :
    Accounted cfg (Pool.init cfg ptr len extTags, ⟨[], []⟩) := by
  rcases none_or_settled cfg ptr word extTags with isNone | ⟨_, settled⟩
  · refine .inl ?_
    rw [Pool.init, isNone]
  · refine .inr ⟨State.init cfg ptr len extTags, [], [], settled, ?_, rfl, ⟨.nil, .nil⟩⟩
    change State.init cfg ptr len extTags = _
    rw [State.buried]
    simp only [headers, total, map_nil, sum_nil, Nat.sub_zero, not_mem_nil, decide_false,
      Word.buried_alive]

theorem Accounted.balanced {y : Pool × Ledger} (accounted : Accounted cfg y) :
    (allocator cfg).Balanced y := by
  rcases accounted with isNone | ⟨g, own, dead, counted⟩
  · rw [isNone]
    exact ⟨rfl, rfl, le_refl 0, rfl⟩
  · exact counted.balanced

end

end Micron.Buddy
