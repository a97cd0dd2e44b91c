import Micron.Tlsf.Blocks

/-!
# The operations

Each operation on a state whose blocks are all free or live leaves one.
-/

set_option autoImplicit false

namespace Micron.Tlsf

open Micron.Lib List Function Nat

variable {s : State} {blocks : Blocks} {lists : Nat → List Nat} {live : List (Nat × Nat)}
  {hands : List Nat} {x n : Nat}

theorem trySplit_spec (busy : Busy s blocks lists live (x :: hands)) (isX : blocks x = some (n, .hand))
    (behind : ∀ m, blocks (x + n) ≠ some (m, .free)) {needed : Nat} (large : minBlock ≤ needed)
    (le : needed ≤ n) :
    ∃ blocks' lists' k, needed ≤ k ∧ blocks' x = some (k, .hand) ∧
      Busy (trySplit s x needed) blocks' lists' live (x :: hands) := by
  have size := busy.2.bsize x n .hand isX
  have small := busy.1.small isX
  obtain ⟨m, rfl⟩ : ∃ m, n = needed + m := ⟨n - needed, by omega⟩
  have remain : usize (2 ^ 64 + (s.mem x).bsize - needed) = m := by
    unfold usize
    omega
  simp only [trySplit, remain]
  by_cases short : m < minBlock
  · rw [if_pos short]
    exact ⟨blocks, lists, needed + m, le_add_right _ _, isX, busy⟩
  · rw [if_neg short]
    have largeM : minBlock ≤ m := Nat.le_of_not_lt short
    have wordN : u32 needed = needed := mod_eq_of_lt (by omega)
    have wordM : u32 m = m := mod_eq_of_lt (by omega)
    rw [wordN, wordM]
    have cut := cut_spec busy isX large largeM
    have someN : 0 < needed := lt_of_lt_of_le (by decide) large
    have someM : 0 < m := lt_of_lt_of_le (by decide) largeM
    have isRest : update (update blocks x (some (needed, .hand))) (x + needed)
      (some (m, .hand)) (x + needed) = some (m, .hand) := update_self ..
    have isFirst : update (update blocks x (some (needed, .hand))) (x + needed)
        (some (m, .hand)) x = some (needed, .hand) := by
      rw [update_of_ne (by omega), update_self]
    have isBehind : update (update blocks x (some (needed, .hand))) (x + needed)
        (some (m, .hand)) (x + needed + m) = blocks (x + (needed + m)) := by
      rw [update_of_ne (by omega), update_of_ne (by omega), add_assoc]
    generalize update (update blocks x (some (needed, .hand))) (x + needed)
      (some (m, .hand)) = blocks' at cut isRest isFirst isBehind
    obtain ⟨lists', put⟩ := put_spec cut isRest (by rw [isBehind]; exact behind) (by
      intro p k isP atRest
      have same := cut.1.eq_of_end isP isFirst atRest
      rw [same, isFirst] at isP
      exact nomatch isP)
    refine ⟨_, lists', needed, le_refl _, ?_, put⟩
    rw [update_of_ne (by omega)]
    exact isFirst

theorem not_hand (busy : Busy s blocks lists live [x]) {y : Nat} (differ : y ≠ x) (m : Nat) :
    blocks y ≠ some (m, .hand) := by
  intro isY
  exact differ (mem_singleton.mp (busy.1.held y m isY))

theorem mergeForward_spec (busy : Busy s blocks lists live [x]) (isX : blocks x = some (n, .hand)) :
    ∃ blocks' lists' k, blocks' x = some (k, .hand) ∧ Busy (mergeForward s x) blocks' lists' live [x] ∧
      ∀ m, blocks' (x + k) ≠ some (m, .free) := by
  have size := busy.2.bsize x n .hand isX
  have positive := busy.1.cover.positive (sizes_eq_some isX)
  have stays : (s.mem (x + n)).flags ≠ blockFree → mergeForward s x = s := by
    intro flags
    simp only [mergeForward, nextPhys, size]
    exact if_neg flags
  by_cases last : x + n = stop s.total
  · rw [stays (by rw [last, busy.2.last]; decide)]
    refine ⟨blocks, lists, n, isX, busy, ?_⟩
    intro m isNext
    exact (busy.1.between isNext).2.1 last
  · obtain ⟨m, isSize⟩ := busy.1.cover.next (sizes_eq_some isX) last
    obtain ⟨role, isNext⟩ := exists_of_sizes isSize
    cases role with
    | hand => exact absurd isNext (not_hand busy (by omega) m)
    | live =>
      rw [stays (by rw [busy.2.liveFlags _ m isNext]; decide)]
      refine ⟨blocks, lists, n, isX, busy, ?_⟩
      intro k isFree
      rw [isNext] at isFree
      cases isFree
    | free =>
      have calm := busy.1.calm (x + n) m
      obtain ⟨lists', taken⟩ := take_spec busy isNext
      have insideNext := busy.1.cover.inside isSize
      have insideX := busy.1.cover.inside (sizes_eq_some isX)
      have word := busy.1.word
      have someM := busy.1.cover.positive isSize
      have isX' : update blocks (x + n) (some (m, .hand)) x = some (n, .hand) := by
        rw [update_of_ne (by omega)]
        exact isX
      have isNext' : update blocks (x + n) (some (m, .hand)) (x + n) = some (m, .hand) :=
        update_self ..
      have joined := join_spec taken isX' isNext' (mem_singleton_self x) (by
        intro a inside other other'
        rcases mem_cons.mp inside with here | here
        · exact absurd here other'
        · exact here)
      have whole : mergeForward s x = joinAt (flRemove s (x + n)) x n m := by
        simp only [mergeForward, nextPhys, size]
        rw [if_pos (busy.2.freeFlags _ m isNext), taken.2.bsize _ _ _ isX', taken.2.bsize _ _ _ isNext']
        unfold stop at insideNext
        rw [show u32 (n + m) = n + m from mod_eq_of_lt (by omega)]
        rfl
      rw [whole]
      refine ⟨_, lists', n + m, update_self .., joined, ?_⟩
      intro k isFree
      rw [update_of_ne (by omega), update_of_ne (by omega),
        update_of_ne (by omega), ← add_assoc] at isFree
      exact calm k isNext isFree

theorem mergeBackward_spec (busy : Busy s blocks lists live [x]) (isX : blocks x = some (n, .hand))
    (behind : ∀ m, blocks (x + n) ≠ some (m, .free)) :
    ∃ blocks' lists' y k, (mergeBackward s x).2 = y ∧ blocks' y = some (k, .hand) ∧
      Busy (mergeBackward s x).1 blocks' lists' live [y] ∧
      (∀ m, blocks' (y + k) ≠ some (m, .free)) ∧ ∀ p m, blocks' p = some (m, .free) → p + m ≠ y := by
  have stays : ∀ p, (s.mem x).prevPhys = some p → (s.mem p).flags ≠ blockFree →
      mergeBackward s x = (s, x) := by
    intro p isPrev flags
    simp only [mergeBackward, isPrev]
    exact if_neg flags
  by_cases first : x = blockAlign
  · have isPrev : (s.mem x).prevPhys = some 0 := by rw [first, busy.2.firstPrev]
    rw [stays 0 isPrev (by rw [busy.2.start.2]; decide)]
    refine ⟨blocks, lists, x, n, rfl, isX, busy, behind, ?_⟩
    intro p m isP atX
    exact (busy.1.between isP).2.2 (atX.trans first)
  · obtain ⟨p, m, isSize, atX⟩ := busy.1.cover.before (sizes_eq_some isX) first
    have someM := busy.1.cover.positive isSize
    obtain ⟨role, isP⟩ := exists_of_sizes isSize
    have isPrev : (s.mem x).prevPhys = some p := atX ▸ busy.2.prev p m role isP
    cases role with
    | hand => exact absurd isP (not_hand busy (by omega) m)
    | live =>
      rw [stays p isPrev (by rw [busy.2.liveFlags _ m isP]; decide)]
      refine ⟨blocks, lists, x, n, rfl, isX, busy, behind, ?_⟩
      intro q k isQ atX'
      have same := busy.1.eq_of_end isQ isP (atX'.trans atX.symm)
      rw [same, isP] at isQ
      exact nomatch isQ
    | free =>
      have calm := fun q k => busy.1.calm q k m
      obtain ⟨lists', taken⟩ := take_spec busy isP
      have insideP := busy.1.cover.inside isSize
      have insideX := busy.1.cover.inside (sizes_eq_some isX)
      have word := busy.1.word
      have positive := busy.1.cover.positive (sizes_eq_some isX)
      have isP' : update blocks p (some (m, .hand)) p = some (m, .hand) :=
        update_self ..
      have isX' : update blocks p (some (m, .hand)) (p + m) = some (n, .hand) := by
        rw [update_of_ne (by omega), atX]
        exact isX
      have joined := join_spec taken isP' isX' (mem_singleton_self p) (by
        intro a inside other other'
        rcases mem_cons.mp inside with here | here
        · exact absurd here other
        · exact absurd ((mem_singleton.mp here).trans atX.symm) other')
      have whole : mergeBackward s x = (joinAt (flRemove s p) p m n, p) := by
        have sizeP := taken.2.bsize _ _ _ isP'
        have sizeX := taken.2.bsize _ _ _ isX'
        rw [atX] at sizeX
        simp only [mergeBackward, isPrev]
        rw [if_pos (busy.2.freeFlags _ m isP), sizeP, sizeX]
        unfold stop at insideX
        rw [show u32 (m + n) = m + n from mod_eq_of_lt (by omega)]
        rfl
      rw [whole]
      refine ⟨_, lists', p, m + n, rfl, update_self .., joined, ?_, ?_⟩
      · intro k isFree
        rw [update_of_ne (by omega), update_of_ne (by omega),
          update_of_ne (by omega), ← add_assoc, atX] at isFree
        exact behind k isFree
      · intro q k isQ atP
        have other : q ≠ p := by
          rintro rfl
          rw [update_self] at isQ
          exact nomatch isQ
        have notX : q ≠ p + m := by
          rintro rfl
          rw [update_of_ne other, update_self] at isQ
          exact nomatch isQ
        rw [update_of_ne other, update_of_ne notX, update_of_ne other] at isQ
        exact calm q k isQ (atP ▸ isP)

def Settled (s : State) (live : List (Nat × Nat)) : Prop :=
  ∃ blocks lists, Busy s blocks lists live []

theorem coalesceAndFree_spec (busy : Busy s blocks lists live [x]) (isX : blocks x = some (n, .hand)) :
    Settled (coalesceAndFree s x) live := by
  obtain ⟨_, _, _, isX', busy', behind⟩ := mergeForward_spec busy isX
  obtain ⟨blocks'', _, y, k, isY, isBlock, busy'', behind', before⟩ := mergeBackward_spec busy' isX' behind
  obtain ⟨lists', put⟩ := put_spec busy'' isBlock behind' before
  refine ⟨update blocks'' y (some (k, .free)), lists', ?_⟩
  simp only [coalesceAndFree, isY]
  exact put

theorem deallocate_settled (settled : Settled s live) (isLive : (x, n) ∈ live) :
    Settled (deallocate s (x + hdrOffset)).1 (live.erase (x, n)) ∧
      (deallocate s (x + hdrOffset)).2 = .ok := by
  obtain ⟨blocks, lists, busy⟩ := settled
  have isX := (busy.1.lived x n).mp isLive
  have size := busy.2.bsize x n .live isX
  have flags : (s.mem x).flags ≠ blockFree := by
    rw [busy.2.liveFlags x n isX]
    decide
  have result : deallocate s (x + hdrOffset) =
      (coalesceAndFree { s with allocatedBytes := s.allocatedBytes - n } x, .ok) := by
    simp only [deallocate, busy.2.base, Nat.add_sub_cancel, size, if_neg flags]
    rfl
  rw [result]
  exact ⟨coalesceAndFree_spec (claim_spec busy isX) (update_self ..), rfl⟩

/-- No sum that is made for a call leaves the words. -/
def NoWrap (n : Nat) : Prop :=
  n + 32 + hdrOffset + (blockAlign - 1) < 2 ^ 64 ∧
    wanted n + (2 ^ (fls64 (wanted n) - slLog2) - 1) < 2 ^ 64

instance (n : Nat) : Decidable (NoWrap n) := inferInstanceAs (Decidable (_ ∧ _))

theorem wanted_spec {n : Nat} (noWrap : NoWrap n) : n + 64 ≤ wanted n ∧ minBlock ≤ wanted n := by
  have word := noWrap.1
  unfold hdrOffset blockAlign at word
  have first : usize (n + 32) = n + 32 := mod_eq_of_lt (by omega)
  have second : usize (n + 32 + 32) = n + 64 := mod_eq_of_lt (by omega)
  have third : usize (n + 64 + 32 - 1) = n + 64 + 31 := mod_eq_of_lt (by omega)
  have some_ : n + 32 ≠ 0 := by omega
  simp only [wanted, first, adjustedBlockSize, alignUp, hdrOffset, blockAlign, minBlock, if_neg some_, second,
    third]
  split <;> omega

theorem findFree_spec (busy : Busy s blocks lists live hands) {needed : Nat} (large : minBlock ≤ needed)
    (word : needed + (2 ^ (fls64 needed - slLog2) - 1) < 2 ^ 64) :
    findFree s needed = (s, none) ∨ ∃ x n, findFree s needed = (flRemove s x, some x) ∧
      blocks x = some (n, .free) ∧ needed ≤ n := by
  obtain ⟨atLeast, small⟩ := le_floor_mappingSearch large word
  simp only [findFree]
  generalize mappingSearch needed = c at atLeast small
  by_cases high : s.flCount ≤ c.1
  · exact .inl (if_pos high)
  · rw [if_neg high]
    cases found : findClass s c with
    | none => exact .inl rfl
    | some c' =>
      have levels := busy.2.levels
      obtain ⟨below, levels', small', has⟩ := busy.2.marked.findClass_spec (by omega) found
      dsimp only
      cases head : s.heads (idx c') with
      | none =>
        rw [head] at has
        cases has
      | some x =>
        have isHead := (busy.2.rows (idx c')).head_eq
        rw [head] at isHead
        obtain ⟨n, isX, row⟩ := (busy.1.listed.1 (idx c') x).mp (mem_of_mem_head? isHead.symm)
        have sameClass : mappingInsert n = c' := idx_inj (busy.1.class_lt isX).2 small' row
        refine .inr ⟨x, n, rfl, isX, ?_⟩
        calc needed ≤ floor c := atLeast
          _ ≤ floor c' := floor_le_of_below below small
          _ ≤ n := sameClass ▸ floor_mappingInsert (busy.1.large isX)

/-- Nothing is handed out, or a block that is large enough and was free. -/
def Hands (s : State) (n : Nat) (live : List (Nat × Nat)) (result : State × Option (Nat × Nat)) : Prop :=
  result = (s, none) ∨ ∃ x k, result.2 = some (x + hdrOffset, k - hdrOffset) ∧ n + hdrOffset ≤ k ∧
    Settled result.1 ((x, k) :: live)

/-- A block that was found is cut, marked and counted. -/
theorem found_settled (settled : Settled s live) {needed : Nat} (large : minBlock ≤ needed)
    (word : needed + (2 ^ (fls64 needed - slLog2) - 1) < 2 ^ 64) :
    findFree s needed = (s, none) ∨ ∃ t x k, findFree s needed = (t, some x) ∧
      ((setFlags (trySplit t x needed) x blockAlloc).mem x).bsize = k ∧ needed ≤ k ∧
      Settled { setFlags (trySplit t x needed) x blockAlloc with
        allocatedBytes := (setFlags (trySplit t x needed) x blockAlloc).allocatedBytes + k }
        ((x, k) :: live) := by
  obtain ⟨blocks, lists, busy⟩ := settled
  rcases findFree_spec busy large word with none_ | ⟨x, k, found, isX, le⟩
  · exact .inl none_
  · obtain ⟨lists', taken⟩ := take_spec busy isX
    have behind : ∀ m, update blocks x (some (k, .hand)) (x + k) ≠ some (m, .free) := by
      intro m isNext
      exact busy.1.calm x k m isX ((role_lost (by decide) _ _).mp isNext).1
    obtain ⟨blocks', lists'', k', le', isX', split⟩ :=
      trySplit_spec taken (update_self ..) behind large le
    have size : ((setFlags (trySplit (flRemove s x) x needed) x blockAlloc).mem x).bsize = k' := by
      rw [← split.2.bsize x k' .hand isX']
      simp only [setFlags, setHdr, update_self]
    exact .inr ⟨_, x, k', found, size, le', _, lists'', give_spec split isX'⟩

theorem allocate_hands (settled : Settled s live) {n : Nat} (noWrap : NoWrap n) :
    Hands s n live (allocate s n) := by
  obtain ⟨enough, large⟩ := wanted_spec noWrap
  have base : ¬ s.hasBase = false := by
    obtain ⟨blocks, lists, busy⟩ := settled
    rw [busy.2.base]
    decide
  simp only [allocate, if_neg base]
  rcases found_settled settled large noWrap.2 with none_ | ⟨t, x, k, found, size, le, settled'⟩
  · rw [none_]
    exact .inl rfl
  · rw [found]
    refine .inr ⟨x, k, ?_, ?_, ?_⟩
    · dsimp only
      rw [size]
    · unfold hdrOffset
      omega
    · dsimp only
      rw [size]
      exact settled'

/-- A header's words within a block of a user are its own. -/
theorem write_settled (settled : Settled s live) (isLive : (x, n) ∈ live) {u : Nat} (low : x < u)
    (high : u < x + n) (h : Hdr) : Settled (setHdr s u h) live := by
  obtain ⟨blocks, lists, shape, stored⟩ := settled
  have isX := (shape.lived x n).mp isLive
  have inside := shape.cover.inside (sizes_eq_some isX)
  -- no block starts at the place that is written
  have other : ∀ {a k r}, blocks a = some (k, r) → a ≠ u ∧ a + k ≠ u := by
    intro a k r isA
    rcases lt_trichotomy a x with less | same | more
    · have := shape.cover.apart (sizes_eq_some isA) (sizes_eq_some isX) less
      omega
    · rw [same, isX] at isA
      obtain ⟨rfl, _⟩ := Prod.mk.inj (Option.some.inj isA)
      omega
    · have := shape.cover.apart (sizes_eq_some isX) (sizes_eq_some isA) more
      omega
  have mem : ∀ a, a ≠ u → (setHdr s u h).mem a = s.mem a := fun a differ => update_of_ne differ _ _
  refine ⟨blocks, lists, shape, ⟨stored.base, stored.levels, ?_, ?_, ?_, ?_, ?_, ?_, ?_, ?_, stored.marked,
    stored.used⟩⟩
  · intro a k r isA
    rw [mem a (other isA).1]
    exact stored.bsize a k r isA
  · intro a k isA
    rw [mem a (other isA).1]
    exact stored.freeFlags a k isA
  · intro a k isA
    rw [mem a (other isA).1]
    exact stored.liveFlags a k isA
  · intro a k r isA
    rw [mem _ (other isA).2]
    exact stored.prev a k r isA
  · rw [mem _ (by omega)]
    exact stored.firstPrev
  · rw [mem _ (by omega)]
    exact stored.start
  · rw [mem _ (by change stop s.total ≠ u; omega)]
    exact stored.last
  · intro i
    refine (stored.rows i).congr fun b inRow => ?_
    obtain ⟨k, isB, _⟩ := (shape.listed.1 i b).mp inRow
    unfold nexts prevs
    rw [mem b (other isB).1]
    exact ⟨rfl, rfl⟩

/-! ## The constructor -/

def levelsOf (total : Nat) : Nat :=
  let levels := fls64 total - flShift + 1
  let levels := if levels > flMax then flMax else levels
  if levels < 1 then 1 else levels

theorem levelsOf_le (total : Nat) : levelsOf total ≤ flMax := by
  unfold levelsOf
  dsimp only
  split
  · decide
  · split <;> omega

/-- The sentinels and one block between them that is on no row yet. -/
def fresh (total : Nat) : State where
  hasBase := true
  total := total
  flCount := levelsOf total
  allocatedBytes := 0
  flBitmap := 0
  slBitmap _ := 0
  heads _ := none
  mem a := if a = blockAlign then ⟨total, blockFree, some 0, none, none⟩
    else if a = blockAlign + total then ⟨blockAlign, blockAlloc, some blockAlign, none, none⟩
    else if a = 0 then ⟨blockAlign, blockAlloc, none, none, none⟩
    else ⟨0, 0, none, none, none⟩

theorem ofTotal_eq {total : Nat} (some_ : 0 < total) (word : total < 2 ^ 32) :
    State.ofTotal total = flInsert (fresh total) blockAlign := by
  have mem : (update (update (update (fun _ => ⟨0, 0, none, none, none⟩) 0
        ⟨blockAlign, blockAlloc, none, none, none⟩) (blockAlign + total)
          ⟨blockAlign, blockAlloc, some blockAlign, none, none⟩) blockAlign
        ⟨total, blockFree, some 0, none, none⟩ : Nat → Hdr) = (fresh total).mem := by
    funext a
    simp only [fresh, update_apply]
  have differ : blockAlign ≠ blockAlign + total := by omega
  have whole : u32 total = total := mod_eq_of_lt word
  unfold State.ofTotal
  simp only [setHdr, State.none, whole, update_of_ne differ,
    update_of_ne (show blockAlign ≠ 0 by decide)]
  rw [mem]
  rfl

theorem ofTotal_settled {total : Nat} (large : minBlock ≤ total) (word : total < 2 ^ 32) :
    Settled (State.ofTotal total) [] := by
  have some_ : 0 < total := lt_of_lt_of_le (by decide) large
  have align : 0 < blockAlign := by decide
  have only : ∀ {a k r}, update (fun _ => none) blockAlign (some (total, Role.hand)) a =
      some (k, r) → a = blockAlign ∧ k = total ∧ r = .hand := by
    intro a k r isA
    rcases (update_iff _ _ _ _ _ _).mp isA with here | ⟨_, old⟩
    · exact here
    · exact nomatch old
  have cover : Cover blockAlign (stop total)
      (sizes (update (fun _ => none) blockAlign (some (total, Role.hand)))) := by
    rw [sizes_update]
    exact Cover.single blockAlign some_
  have isFirst : update (fun _ => none) blockAlign (some (total, Role.hand)) blockAlign =
    some (total, .hand) := update_self ..
  generalize update (fun _ => none) blockAlign (some (total, Role.hand)) = blocks
    at only cover isFirst
  have noFree : ∀ {a k}, blocks a ≠ some (k, .free) := fun isA => nomatch (only isA).2.2
  have noLive : ∀ {a k}, blocks a ≠ some (k, .live) := fun isA => nomatch (only isA).2.2
  have busy : Busy (fresh total) blocks (fun _ => []) [] [blockAlign] := by
    refine ⟨⟨large, word, cover, ?_, ⟨?_, fun _ => nodup_nil⟩, ?_, nodup_nil, ?_, ?_⟩,
      ⟨rfl, levelsOf_le total, ?_, ?_, ?_, ?_, ?_, ?_, ?_, fun _ => rfl, Marked.empty, rfl⟩⟩
    · intro a k r isA
      exact (only isA).2.1 ▸ large
    · intro i a
      exact ⟨(fun inside => nomatch inside), fun ⟨_, isA, _⟩ => absurd isA noFree⟩
    · intro a k
      exact ⟨(fun inside => nomatch inside), fun isA => absurd isA noLive⟩
    · intro a k isA
      exact mem_singleton.mpr (only isA).1
    · exact fun a k m isA => absurd isA noFree
    · intro a k r isA
      obtain ⟨rfl, rfl, _⟩ := only isA
      exact congrArg Hdr.bsize (if_pos rfl)
    · exact fun a k isA => absurd isA noFree
    · exact fun a k isA => absurd isA noLive
    · intro a k r isA
      obtain ⟨rfl, rfl, _⟩ := only isA
      exact congrArg Hdr.prevPhys ((if_neg (by omega)).trans (if_pos rfl))
    · exact congrArg Hdr.prevPhys (if_pos rfl)
    · have isStart : (fresh total).mem 0 = ⟨blockAlign, blockAlloc, none, none, none⟩ := by
        simp only [fresh]
        rw [if_neg (by omega), if_neg (by omega), if_pos trivial]
      rw [isStart]
      exact ⟨rfl, rfl⟩
    · exact congrArg Hdr.flags ((if_neg (by change blockAlign + total ≠ _; omega)).trans (if_pos rfl))
  rw [ofTotal_eq some_ word]
  obtain ⟨lists, put⟩ := put_spec busy isFirst (fun m => noFree) (fun p m isP => absurd isP noFree)
  exact ⟨_, lists, put⟩

end Micron.Tlsf
