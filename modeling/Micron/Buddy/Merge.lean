import Mathlib.Data.List.Range
import Mathlib.Data.List.Perm.Subperm
import Micron.Buddy.Lists

/-!
# Joining buddies

A free buddy is searched for in its list and taken out of it, and the block in hand is
then the two of them.
-/

set_option autoImplicit false

namespace Micron.Buddy

open Micron.Lib List Function

variable {cfg : Config} {s : State} {blocks : Blocks} {lists : Nat → List Nat}
  {live : List (Nat × Nat)} {stale : Option Nat}

def unlinked (s : State) (o : Nat) (next : Option Nat) : Option Nat → State
  | some p => maskClearIfEmpty (setWord s p (.link next)) o
  | none => maskClearIfEmpty (setHead s o next) o

theorem removeLoop_eq {o b : Nat} {back : List Nat}
    (good : ∀ front c back, lists o = front ++ c :: back → goodNext cfg s c = back.head?) :
    ∀ (front before : List Nat) (fuel : Nat) (prev : Option Nat),
      lists o = before ++ (front ++ b :: back) → b ∉ front → front.length < fuel →
      removeLoop cfg s b o fuel prev (front ++ b :: back).head? =
        unlinked s o back.head? (front.getLast?.or prev) := by
  intro front
  induction front with
  | nil =>
    intro before fuel prev isList _ room
    obtain ⟨fuel, rfl⟩ : ∃ k, fuel = k + 1 := ⟨fuel - 1, by omega⟩
    have next := good before b back isList
    simp only [nil_append, head?_cons, removeLoop, next, if_true, getLast?_nil,
      Option.none_or]
    cases prev with
    | none => rfl
    | some p => rfl
  | cons c front ih =>
    intro before fuel prev isList notIn room
    obtain ⟨fuel, rfl⟩ : ∃ k, fuel = k + 1 := ⟨fuel - 1, by omega⟩
    have next := good before c (front ++ b :: back) isList
    have differ : c ≠ b := fun same => notIn (same ▸ mem_cons_self)
    have rest := ih (before ++ [c]) fuel (some c) (by simpa using isList)
      (fun inside => notIn (mem_cons_of_mem c inside)) (by simpa using room)
    simp only [cons_append, head?_cons, removeLoop, next, differ, if_false]
    rw [rest, getLast?_cons]
    cases front.getLast? with
    | none => rfl
    | some p => rfl

/-- There are no more free blocks of an order than places. -/
theorem length_list_le (shape : Shape cfg s blocks lists live) (o : Nat) :
    (lists o).length ≤ s.total := by
  have sub : lists o ⊆ List.range s.total := by
    intro a inside
    exact mem_range.mpr (shape.lt_total ((shape.listed o a).mp inside))
  have le := (subperm_of_subset (shape.nodup o) sub).length_le
  rwa [length_range] at le

theorem freelistRemove_eq (shape : Shape cfg s blocks lists live)
    (stored : Stored cfg s blocks lists live stale) {o b : Nat} {front back : List Nat}
    (isList : lists o = front ++ b :: back) :
    freelistRemove cfg s b o = unlinked s o back.head? front.getLast? := by
  have head := (stored.chain o).head_eq
  have length := length_list_le shape o
  have nodup := shape.nodup o
  rw [isList] at head length nodup
  have notIn : b ∉ front := by
    intro inside
    exact (nodup_append.mp nodup).2.2 b inside b mem_cons_self rfl
  have loop := removeLoop_eq (fun front c back => goodNext_eq shape stored front) front []
    (s.total + 1) none isList notIn (by rw [length_append] at length; omega)
  rw [Option.or_none] at loop
  rw [freelistRemove, head]
  exact loop

/-- The lists and the mask after a block was taken out. -/
theorem unlinked_stored (shape : Shape cfg s blocks lists live)
    (stored : Stored cfg s blocks lists live stale) {o b : Nat} {front back : List Nat}
    (isList : lists o = front ++ b :: back) {s' : State}
    (isS : s' = unlinked s o back.head? front.getLast?) :
    (∀ k, Chain (links s') (s'.freeLists k) (update lists o (front ++ back) k)) ∧
      (∀ k < 64, s'.freeMask.getLsbD k = (s'.freeLists k).isSome) ∧
      (∀ a k, blocks a = some (k, .live) → s'.mem (hdrOf cfg a k) = s.mem (hdrOf cfg a k)) ∧
      s'.blockTags = s.blockTags ∧ s'.allocatedBytes = s.allocatedBytes ∧
      s'.hasBase = s.hasBase ∧ s'.total = s.total ∧ s'.maxOrder = s.maxOrder := by
  have chain := stored.chain o
  have nodup := shape.nodup o
  rw [isList] at chain nodup
  have isB : blocks b = some (o, .free) := (shape.listed o b).mp (by rw [isList]; simp)
  have below := shape.order_lt isB
  have few := shape.few
  have was : (s.freeLists o).isSome = true := by
    rw [chain.head_eq]
    cases front <;> rfl
  rcases eq_nil_or_concat front with rfl | ⟨before, p, rfl⟩
  · refine ⟨?_, ?_, ?_, ?_⟩
    · intro k
      rw [isS]
      change Chain (links s) (update s.freeLists o back.head? k) _
      by_cases same : k = o
      · rw [same, update_self, update_self]
        have tail := chain.2
        rwa [tail.head_eq] at tail
      · rw [update_of_ne same, update_of_ne same]
        exact stored.chain k
    · rw [isS]
      exact mask_pop stored.mask (by omega) was _
    · rw [isS]
      exact fun _ _ _ => rfl
    · rw [isS]
      exact ⟨rfl, rfl, rfl, rfl, rfl⟩
  · rw [concat_eq_append] at *
    have last : (before ++ [p]).getLast? = some p := by simp
    rw [last] at isS
    have isP : blocks p = some (o, .free) := (shape.listed o p).mp (by rw [isList]; simp)
    have link : links s' = update (links s) p back.head? := by
      rw [isS]
      funext a
      change (update s.mem p (.link back.head?) a).next = _
      by_cases same : a = p
      · rw [same, update_self, update_self]
        rfl
      · rw [update_of_ne same, update_of_ne same]
        rfl
    have heads : s'.freeLists = s.freeLists := by
      rw [isS]
      rfl
    refine ⟨?_, ?_, ?_, ?_⟩
    · intro k
      rw [heads, link]
      by_cases same : k = o
      · rw [same, update_self]
        rw [append_assoc] at chain nodup ⊢
        exact chain.bypass nodup
      · rw [update_of_ne same]
        refine (stored.chain k).congr fun a inside => update_of_ne ?_ _ _
        rintro rfl
        have isK := (shape.listed k a).mp inside
        rw [isP] at isK
        exact same (congrArg Prod.fst (Option.some.inj isK)).symm
    · intro k small
      rw [heads, isS]
      change (maskClearIfEmpty (setWord s p _) o).freeMask.getLsbD k = _
      rw [getLsbD_maskClearIfEmpty _ (by omega) small]
      change (if k = o then s.freeMask.getLsbD k && (s.freeLists o).isSome else s.freeMask.getLsbD k) = _
      rw [was, Bool.and_true, ite_self]
      exact stored.mask k small
    · intro a k isA
      rw [isS]
      change update s.mem p _ (hdrOf cfg a k) = _
      rw [update_of_ne]
      intro same
      have inside := shape.hdr_mem isA
      rw [same] at inside
      have equal := shape.eq_of_mem isA isP inside.1 inside.2 (le_refl p)
        (Nat.lt_add_of_pos_right (blockSize_pos cfg o))
      rw [equal, isP] at isA
      exact nomatch isA
    · rw [isS]
      exact ⟨rfl, rfl, rfl, rfl, rfl⟩

theorem buddy_order {a k : Nat} (aligned : 2 ^ k ∣ a) :
    ∃ low, 2 ^ (k + 1) ∣ low ∧ (if buddy a k < a then buddy a k else a) = low ∧
      (a = low ∧ buddy a k = low + 2 ^ k ∨ a = low + 2 ^ k ∧ buddy a k = low) := by
  rcases low_or_high aligned with even | ⟨low, even, rfl⟩
  · have isHigh := buddy_low even
    refine ⟨a, even, if_neg (by omega), .inl ⟨rfl, isHigh⟩⟩
  · have isLow := buddy_high even
    exact ⟨low, even, by rw [isLow, if_pos (by omega)], .inr ⟨rfl, isLow⟩⟩

theorem absorb_spec (shape : Shape cfg s blocks lists live) (stored : Stored cfg s blocks lists live none)
    {off o b : Nat} (isOff : blocks off = some (o, .hand)) (isB : blocks b = some (o, .free))
    (isBuddy : b = buddy off (cfg.log2Min + o)) (only : OnlyHand blocks off) :
    ∃ blocks' lists', blocks' (if b < off then b else off) = some (o + 1, .hand) ∧
      OnlyHand blocks' (if b < off then b else off) ∧
      (setTag cfg (freelistRemove cfg s b o) b tagNone).maxOrder = s.maxOrder ∧
      Shape cfg (setTag cfg (freelistRemove cfg s b o) b tagNone) blocks' lists' live ∧
      Stored cfg (setTag cfg (freelistRemove cfg s b o) b tagNone) blocks' lists' live none := by
  obtain ⟨front, back, isList⟩ := append_of_mem ((shape.listed o b).mpr isB)
  have expOff : exps cfg blocks off = some (cfg.log2Min + o) := exps_eq_some isOff
  obtain ⟨low, even, isLow, halves⟩ := buddy_order (shape.tiling.aligned expOff)
  rw [← isBuddy] at isLow halves
  generalize isHigh : low + 2 ^ (cfg.log2Min + o) = high at halves
  have both : (blocks low = some (o, .hand) ∧ blocks high = some (o, .free) ∧ b = high ∨
      blocks low = some (o, .free) ∧ blocks high = some (o, .hand) ∧ b = low) := by
    rcases halves with ⟨rfl, rfl⟩ | ⟨rfl, rfl⟩
    · exact .inl ⟨isOff, isB, rfl⟩
    · exact .inr ⟨isB, isOff, rfl⟩
  have now : ∀ a k r, r ≠ .hand → (update (update blocks high none) low
      (some (o + 1, .hand)) a = some (k, r) ↔ blocks a = some (k, r) ∧ a ≠ b) := by
    intro a k r role
    rw [update_iff]
    constructor
    · rintro (⟨_, _, wrong⟩ | ⟨notLow, old⟩)
      · exact absurd wrong role
      · by_cases same : a = high
        · rw [same, update_self] at old
          exact nomatch old
        · rw [update_of_ne same] at old
          refine ⟨old, ?_⟩
          rcases both with ⟨_, _, rfl⟩ | ⟨_, _, rfl⟩
          · exact same
          · exact notLow
    · rintro ⟨old, notB⟩
      have notOff : a ≠ off := by
        rintro rfl
        rw [isOff] at old
        exact role (congrArg Prod.snd (Option.some.inj old)).symm
      have others : a ≠ low ∧ a ≠ high := by
        rcases halves with ⟨rfl, rfl⟩ | ⟨rfl, rfl⟩
        · exact ⟨notOff, notB⟩
        · exact ⟨notB, notOff⟩
      refine .inr ⟨others.1, ?_⟩
      rw [update_of_ne others.2]
      exact old
  have isHand : update (update blocks high none) low (some (o + 1, .hand)) low =
    some (o + 1, .hand) := update_self ..
  have tiling : Tiling (topExp cfg s)
      (exps cfg (update (update blocks high none) low (some (o + 1, .hand)))) := by
    rw [exps_update, exps_update, ← isHigh]
    refine shape.tiling.merge even ?_ ?_
    · rcases both with ⟨isA, _⟩ | ⟨isA, _⟩ <;> exact exps_eq_some isA
    · rw [isHigh]
      rcases both with ⟨_, isA, _⟩ | ⟨_, isA, _⟩ <;> exact exps_eq_some isA
  have onlyNow : OnlyHand (update (update blocks high none) low
      (some (o + 1, .hand))) low := by
    intro a k isA
    rcases (update_iff _ _ _ _ _ _).mp isA with ⟨here, _⟩ | ⟨notLow, old⟩
    · exact here
    · by_cases same : a = high
      · rw [same, update_self] at old
        exact nomatch old
      · rw [update_of_ne same] at old
        have here := only a k old
        rcases halves with ⟨rfl, _⟩ | ⟨rfl, _⟩
        · exact absurd here notLow
        · exact absurd here same
  generalize update (update blocks high none) low (some (o + 1, .hand)) = blocks'
    at now isHand tiling onlyNow
  have freeNow : ∀ a k, blocks' a = some (k, .free) ↔ blocks a = some (k, .free) ∧ a ≠ b :=
    fun a k => now a k .free (by decide)
  have liveNow : ∀ a k, blocks' a = some (k, .live) ↔ blocks a = some (k, .live) := by
    intro a k
    rw [now a k .live (by decide)]
    refine and_iff_left_of_imp ?_
    rintro old rfl
    rw [isB] at old
    exact nomatch old
  have listed := shape.toListed.remove front isList freeNow
  obtain ⟨chains, mask, headers, tags, bytes, base, total, orders⟩ :=
    unlinked_stored shape stored isList (freelistRemove_eq shape stored isList)
  generalize freelistRemove cfg s b o = s₁ at chains mask headers tags bytes base total orders
  have sameTop : topExp cfg (setTag cfg s₁ b tagNone) = topExp cfg s := by
    unfold topExp
    rw [show (setTag cfg s₁ b tagNone).maxOrder = s.maxOrder from orders]
  have otherTag : ∀ a, cfg.min ∣ a → a ≠ b →
      (setTag cfg s₁ b tagNone).blockTags (tagIndexOf cfg a) = s.blockTags (tagIndexOf cfg a) := by
    intro a aligned notB
    change update s₁.blockTags _ _ _ = _
    rw [tags, update_of_ne (tagIndexOf_ne aligned (shape.aligned isB) notB)]
  refine ⟨blocks', update lists o (front ++ back), by rw [isLow]; exact isHand,
    by rw [isLow]; exact onlyNow, orders, ?_, ?_⟩
  · refine ⟨base.trans shape.base, ?_, ?_, ?_, ?_, ?_, listed.1, listed.2,
      fun a k => (shape.lived a k).trans (liveNow a k).symm, shape.liveNodup, ?_⟩
    · exact orders ▸ shape.orders
    · exact orders ▸ shape.few
    · rw [sameTop, show (setTag cfg s₁ b tagNone).total = s.total from total]
      exact shape.room
    · rw [show (setTag cfg s₁ b tagNone).total = s.total from total]
      exact shape.word
    · rw [sameTop]
      exact tiling
    · intro a k isA more isBuddy'
      refine shape.noBuddies a k ((freeNow a k).mp isA).1 ?_ ((freeNow _ k).mp isBuddy').1
      exact orders ▸ more
  · refine ⟨chains, mask, ?_, ?_, ?_, ?_, bytes.trans stored.used⟩
    · intro a k isA
      have old := (liveNow a k).mp isA
      exact (headers a k old).trans (stored.header a k old)
    · intro a k isA
      obtain ⟨old, notB⟩ := (freeNow a k).mp isA
      rw [otherTag a (shape.aligned old) notB]
      exact stored.freeTag a k old
    · intro a k isA
      have old := (liveNow a k).mp isA
      rw [otherTag a (shape.aligned old)]
      · exact stored.liveTag a k old
      · rintro rfl
        rw [isB] at old
        exact nomatch old
    · intro a k small aligned tag
      by_cases same : a = b
      · rw [same] at tag
        change update s₁.blockTags _ _ _ = _ at tag
        rw [update_self, tagNone] at tag
        omega
      · rw [otherTag a aligned same] at tag
        rcases stored.tagFree a k small aligned tag with old | wrong
        · exact .inl ((freeNow a k).mpr ⟨old, same⟩)
        · exact nomatch wrong

end Micron.Buddy
