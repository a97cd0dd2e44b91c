import Micron.ChaseLev.Owner

/-!
# Runs of a deque
-/

set_option autoImplicit false

namespace Micron.ChaseLev

open Micron.Lib List Function Nat

variable {α : Type} {deque : Deque} {empty : α} {s : State α} {contents : List α}

theorem thieves_update {S : State α} {i : Nat} {thief : Thief α} (ok : ThiefOk S contents thief)
    (others : ∀ j, ThiefOk S contents (s.thieves j)) (j : Nat) :
    ThiefOk S contents (update s.thieves i thief j) := by
  by_cases same : j = i
  · rw [same, update_self]
    exact ok
  · rw [update_of_ne same]
    exact others j

theorem Inv.go (inv : Inv s contents) (i : Nat) {k : Thief α} (ok : ThiefOk s contents k) :
    Inv (s.go i k) contents :=
  { inv with thieves := thieves_update (S := s.go i k) ok inv.thieves }

/-- A thief that sees an item below the bottom has one, if the top does not move. -/
theorem Inv.seen (inv : Inv s contents) (more : ¬ sdiff s.bottom s.top ≤ 0) :
    s.owner.reserved < contents.length := by
  have near := inv.after_lt
  have ahead : s.moved ≤ s.after contents := le_add_right _ _
  cases lowered : s.owner.lowered with
  | false =>
    have none : s.owner.reserved = 0 := by
      cases phase : s.owner with
      | popRead b g =>
        rw [phase] at lowered
        exact nomatch lowered
      | _ => rfl
    rw [inv.bottom lowered, inv.top, sdiff_word (by omega) near] at more
    unfold State.after at more
    omega
  | true =>
    rw [inv.lowBottom lowered, inv.top, sdiff_lower ahead near] at more
    have two : 1 < contents.length := by
      unfold State.after at more
      omega
    cases s.owner with
    | popRead b g => exact two
    | _ => exact lt_of_le_of_lt (zero_le _) two

theorem Inv.head_slot (inv : Inv s contents) (waits : s.owner.reserved < contents.length) :
    contents.head? = some (s.seg.get (word s.moved)) := by
  cases contents with
  | nil => exact absurd waits (not_lt_zero _)
  | cons x rest =>
    have slot := inv.held 0 x rfl
    exact congrArg Option.some slot.symm

theorem Inv.steal (inv : Inv s contents) {i : Nat} {t since : Nat} {x : α}
    (phase : s.thieves i = .claim t x since) (found : s.top = t)
    (timely : s.moved < since + 2 ^ 64) :
    ∃ rest, Inv { s.go i .idle with
      top := word (t + 1), moved := s.moved + 1, log := s.log ++ [.stolen x] } rest := by
  have ok := inv.thieves i
  rw [phase] at ok
  obtain ⟨loaded, le, known⟩ := ok
  have same : s.moved = since := by
    refine word_inj timely (by omega) ?_
    rw [← inv.top, found, loaded]
  obtain ⟨some, head⟩ := known same
  obtain ⟨rest, rfl⟩ : ∃ rest, contents = x :: rest := by
    cases contents with
    | nil => exact nomatch head
    | cons y rest =>
      cases head
      exact ⟨rest, rfl⟩
  have after : s.moved + 1 + rest.length = s.moved + (x :: rest).length := by
    rw [length_cons]
    omega
  have room := inv.room
  have behind := inv.cacheMoved
  refine ⟨rest, { inv with
    top := ?_, bottom := ?_, lowBottom := ?_, cacheMoved := le_succ_of_le behind, room := ?_
    replays := inv.replays.stolen, held := ?_, owner := ?_, thieves := ?_ }⟩
  · rw [loaded, ← same, word_word_add]
  · intro high
    change s.bottom = word (s.moved + 1 + rest.length)
    rw [after]
    exact inv.bottom high
  · intro low
    change s.bottom = wordSub (word (s.moved + 1 + rest.length)) 1
    rw [after]
    exact inv.lowBottom low
  · change s.moved + 1 + rest.length ≤ _
    rw [after]
    exact room
  · intro j v here
    rw [add_right_comm]
    exact inv.held (j + 1) v here
  · have ok := inv.owner
    have afterEq : State.after { s.go i .idle with
        top := word (t + 1), moved := s.moved + 1, log := s.log ++ [.stolen x] } rest =
        s.after (x :: rest) := after
    change OwnerOk _ rest s.owner
    cases owner : s.owner with
    | idle | pushLoad y | popLoad => trivial
    | pushBase y b | pushFull y b g | growLoad y b t' | pushStore y b g | pushBottom y b
    | popBase b | popLower b g | popTop b g | popRestore b =>
      rw [owner] at ok
      simp only [OwnerOk, afterEq]
      exact ok
    | copy y b g i' =>
      rw [owner] at ok
      obtain ⟨bottom, current, segOk, fits, p, position, low, high, copied⟩ := ok
      simp only [OwnerOk, afterEq]
      refine ⟨bottom, current, segOk, fits, p, position, low, high, ?_⟩
      intro j v before here
      rw [add_right_comm] at before ⊢
      exact copied (j + 1) v before here
    | popRead b g =>
      rw [owner] at ok some
      simp only [OwnerOk, afterEq]
      refine ⟨ok.1, ok.2.1, ?_⟩
      rintro rfl
      exact absurd some (lt_irrefl 1)
    | popLast b g =>
      rw [owner] at ok
      simp only [OwnerOk, afterEq]
      exact ⟨ok.1, ok.2.1, le_of_succ_le ok.2.2⟩
    | popClaim b y =>
      rw [owner] at ok
      simp only [OwnerOk, afterEq]
      exact ⟨ok.1, le_of_succ_le ok.2.1, fun z member => ok.2.2 z (mem_cons_of_mem _ member)⟩
  · refine thieves_update trivial ?_
    intro j
    exact (inv.thieves j).outrun rfl

theorem Inv.slotOk (inv : Inv s contents) {t since : Nat} (loaded : t = word since)
    (le : since ≤ s.moved) (known : s.moved = since → s.owner.reserved < contents.length) :
    ThiefOk s contents (.loadSlot t s.base since) := by
  refine ⟨loaded, le, ?_⟩
  intro same
  refine ⟨known same, le_refl _, ?_⟩
  rw [loaded, ← same]
  exact inv.head_slot (known same)

theorem inv_stepThief (inv : Inv s contents) (i : Nat) (spurious : Bool)
    (timely : (Action.thief i spurious : Action α).Timely s) :
    ∃ rest, Inv (stepThief deque s i spurious) rest := by
  have ok := inv.thieves i
  unfold stepThief
  split
  next => exact ⟨contents, inv⟩
  next phase => exact ⟨contents, inv.go i ⟨inv.top, le_refl _⟩⟩
  next t since phase =>
    rw [phase] at ok
    obtain ⟨loaded, le⟩ := ok
    split
    next => exact ⟨contents, inv.go i trivial⟩
    next more =>
      have known : s.moved = since → s.owner.reserved < contents.length := by
        intro same
        refine inv.seen ?_
        rw [inv.top, same, ← loaded]
        exact more
      cases deque with
      | fixed N => exact ⟨contents, inv.go i (inv.slotOk loaded le known)⟩
      | grow N => exact ⟨contents, inv.go i ⟨loaded, le, known⟩⟩
  next t since phase =>
    rw [phase] at ok
    exact ⟨contents, inv.go i (inv.slotOk ok.1 ok.2.1 ok.2.2)⟩
  next t g since phase =>
    rw [phase] at ok
    obtain ⟨loaded, le, known⟩ := ok
    refine ⟨contents, inv.go i (k := .claim _ _ _) ⟨loaded, le, ?_⟩⟩
    intro same
    obtain ⟨waits, _, head⟩ := known same
    exact ⟨waits, head⟩
  next t x since phase =>
    split
    next found =>
      simp only [Action.Timely, phase] at timely
      exact inv.steal phase found.1 timely
    next => exact ⟨contents, inv.go i trivial⟩

theorem inv_stepOwner (inv : Inv s contents) :
    ∃ rest, Inv (stepOwner deque empty s) rest := by
  have ok := inv.owner
  unfold stepOwner
  split
  next => exact ⟨contents, inv⟩
  next x phase =>
    have bottom := inv.bottom (by rw [phase]; rfl)
    cases deque with
    | fixed N =>
      obtain ⟨owner, equal, checked, lowered, reserved, _⟩ := pushCheckOk inv x bottom rfl
      rw [equal]
      exact ⟨contents, inv.goOwner checked (by rw [phase]; exact lowered)
        (by rw [phase, reserved]; exact id)⟩
    | grow N =>
      exact ⟨contents, inv.goOwner (o := .pushBase x _) bottom (by rw [phase]; rfl)
        (by rw [phase]; exact id)⟩
  next x b phase =>
    rw [phase] at ok
    obtain ⟨owner, equal, checked, lowered, reserved, _⟩ := pushCheckOk inv x ok rfl
    rw [equal]
    exact ⟨contents, inv.goOwner checked (by rw [phase]; exact lowered)
      (by rw [phase, reserved]; exact id)⟩
  next x b g phase =>
    rw [phase] at ok
    obtain ⟨bottom, rfl⟩ := ok
    have fresh := inv.refresh phase
    have full := fresh.full_iff bottom
    split
    next free =>
      exact ⟨contents, fresh.goOwner (o := .pushStore x b s.base) ⟨bottom, rfl, full.mp free⟩
        (by rw [phase]; rfl) (by rw [phase]; exact id)⟩
    next =>
      cases deque with
      | fixed N =>
        have done := fresh.goOwner (o := .idle) trivial (by rw [phase]; rfl)
          (by rw [phase]; exact id)
        exact ⟨contents, { done with }⟩
      | grow N =>
        exact ⟨contents, fresh.goOwner (o := .growLoad x b s.top) ⟨bottom, inv.top⟩
          (by rw [phase]; rfl) (by rw [phase]; exact id)⟩
  next x b t phase =>
    dsimp only
    split
    next allocates => exact ⟨contents, inv.allocate empty phase allocates⟩
    next => exact ⟨contents, inv⟩
  next x b g i phase =>
    split
    next more => exact ⟨contents, inv.copyOne phase more⟩
    next last => exact ⟨contents, inv.publish phase last⟩
  next x b g phase => exact ⟨contents, inv.store phase⟩
  next x b phase => exact ⟨contents ++ [x], inv.push phase⟩
  next phase =>
    have bottom := inv.bottom (by rw [phase]; rfl)
    have lower : wordSub s.bottom 1 = wordSub (word (s.after contents)) 1 := by rw [bottom]
    cases deque with
    | fixed N =>
      exact ⟨contents, inv.goOwner (o := .popLower _ s.base) ⟨lower, rfl⟩ (by rw [phase]; rfl)
        (by rw [phase]; exact id)⟩
    | grow N =>
      exact ⟨contents, inv.goOwner (o := .popBase _) lower (by rw [phase]; rfl)
        (by rw [phase]; exact id)⟩
  next b phase =>
    rw [phase] at ok
    exact ⟨contents, inv.goOwner (o := .popLower b s.base) ⟨ok, rfl⟩ (by rw [phase]; rfl)
      (by rw [phase]; exact id)⟩
  next b g phase => exact ⟨contents, inv.lower phase⟩
  next b g phase => exact ⟨contents, inv.look phase⟩
  next b g phase => exact inv.popRead phase
  next b g phase => exact ⟨contents, inv.popLast phase⟩
  next b x phase =>
    split
    next found => exact ⟨[], inv.popClaim phase found⟩
    next =>
      rw [phase] at ok
      exact ⟨contents, inv.goOwner (o := .popRestore b) ok.1 (by rw [phase]; rfl)
        (by rw [phase]; exact id)⟩
  next b phase => exact ⟨contents, inv.restore phase⟩

theorem inv_step (inv : Inv s contents) (a : Action α) (allowed : a.Allowed s)
    (timely : a.Timely s) : ∃ rest, Inv (step deque empty s a) rest := by
  cases a with
  | push x =>
    have idle : s.owner = .idle := allowed
    exact ⟨contents, inv.goOwner (o := .pushLoad x) trivial (by rw [idle]; rfl)
      (by rw [idle]; exact id)⟩
  | pop =>
    have idle : s.owner = .idle := allowed
    exact ⟨contents, inv.goOwner (o := .popLoad) trivial (by rw [idle]; rfl)
      (by rw [idle]; exact id)⟩
  | steal i => exact ⟨contents, inv.go i trivial⟩
  | owner => exact inv_stepOwner inv
  | thief i spurious => exact inv_stepThief inv i spurious timely

/-- The size is a word, and the constructor got its storage. -/
structure Deque.Built (deque : Deque) (empty : α) : Prop where
  size : match deque with
    | .fixed N | .grow N => 0 < N ∧ N < 2 ^ 64
  allocates : Allocates (deque.first empty).cap

theorem first_ok (built : deque.Built empty) : SegOk (deque.first empty) := by
  have allocates := built.allocates
  cases deque with
  | fixed N =>
    obtain ⟨k, bound, power, _⟩ := nextPow2_eq built.size.1 built.size.2
    change nextPow2 N < 2 ^ 63 at allocates
    rcases eq_or_lt_of_le bound with rfl | below
    · have zero : nextPow2 N = 0 := power.trans (mod_self _)
      exact SegOk.of_zero zero (congrArg (fun n => wordSub n 1) zero)
    · rw [word_of_lt (Nat.pow_lt_pow_right (by decide) below)] at power
      rw [power] at allocates
      have small : k < 63 := (Nat.pow_lt_pow_iff_right (by decide)).mp allocates
      exact segOk_of_pow (le_of_lt_succ small) power (congrArg (fun n => wordSub n 1) power)
  | grow N =>
    have small := (Nat.pow_lt_pow_iff_right (by decide)).mp allocates
    exact makeSeg_ok empty (le_of_lt_succ small)

theorem inv_init (built : deque.Built empty) : Inv (State.init deque empty) [] where
  top := rfl
  bottom _ := rfl
  lowBottom low := nomatch low
  topCache := rfl
  cacheMoved := le_refl _
  room := zero_le _
  replays := .nil
  seg := first_ok built
  held _ _ here := nomatch here
  owner := trivial
  thieves _ := trivial

theorem inv_reached (built : deque.Built empty) (reached : ReachedTimely deque empty s) :
    ∃ contents, Inv s contents := by
  induction reached with
  | init => exact ⟨[], inv_init built⟩
  | step _ a allowed timely ih =>
    obtain ⟨contents, inv⟩ := ih
    exact inv_step inv a allowed timely

/-! ## Refused pushes -/

/-- A deque of fixed size keeps its segment, and refuses when it is full. -/
structure FixedOk (N : Nat) (s : State α) : Prop where
  base : s.base = 0
  cap : s.seg.cap = nextPow2 N
  phase : s.owner.growing = false
  refused : ∀ n ∈ s.refused, n = nextPow2 N

theorem FixedOk.stepThief {N : Nat} (fixed : FixedOk N s) (i : Nat) (spurious : Bool) :
    FixedOk N (stepThief (.fixed N) s i spurious) := by
  have go : ∀ thief, FixedOk N (s.go i thief) := fun _ =>
    ⟨fixed.base, fixed.cap, fixed.phase, fixed.refused⟩
  unfold Micron.ChaseLev.stepThief
  split
  next => exact fixed
  next => exact go _
  next =>
    split
    · exact go _
    · exact go _
  next => exact go _
  next => exact go _
  next =>
    split
    · exact ⟨fixed.base, fixed.cap, fixed.phase, fixed.refused⟩
    · exact go _

/-- A push that returns false has found the deque full. -/
theorem FixedOk.stepOwner {N : Nat} (fixed : FixedOk N s) (inv : Inv s contents) :
    FixedOk N (stepOwner (.fixed N) empty s) := by
  have ok := inv.owner
  have phaseOk := fixed.phase
  have base := fixed.base
  have cap := fixed.cap
  have refused := fixed.refused
  unfold Micron.ChaseLev.stepOwner
  split
  next => exact fixed
  next x phase =>
    obtain ⟨owner, equal, _, _, _, still⟩ :=
      pushCheckOk inv x (inv.bottom (by rw [phase]; rfl)) rfl
    rw [equal]
    exact ⟨base, cap, still, refused⟩
  next x b phase =>
    rw [phase] at ok
    obtain ⟨owner, equal, _, _, _, still⟩ := pushCheckOk inv x ok rfl
    rw [equal]
    exact ⟨base, cap, still, refused⟩
  next x b g phase =>
    rw [phase] at ok
    obtain ⟨bottom, rfl⟩ := ok
    have fresh := inv.refresh phase
    have full := fresh.full_iff bottom
    split
    next => exact ⟨base, cap, rfl, refused⟩
    next taken =>
      refine ⟨base, cap, rfl, ?_⟩
      intro n member
      rcases mem_append.mp member with before | last
      · exact refused n before
      · have room := fresh.room
        change s.after contents ≤ s.moved + s.seg.cap at room
        have above := mt full.mpr taken
        have near := inv.after_lt
        change ¬ s.after contents < s.moved + s.seg.cap at above
        rw [mem_singleton.mp last, inv.bottom (by rw [phase]; rfl), inv.top,
          sdiff_word (by omega) near, ← cap]
        omega
  next x b t phase =>
    rw [phase] at phaseOk
    exact nomatch phaseOk
  next x b g i phase =>
    rw [phase] at phaseOk
    exact nomatch phaseOk
  next x b g phase =>
    rw [phase] at ok
    obtain ⟨_, rfl, _⟩ := ok
    refine ⟨base, ?_, rfl, refused⟩
    have new : (s.setSeg s.base ((s.segs s.base).set b x)).seg = s.seg.set b x :=
      update_self ..
    exact (congrArg Segment.cap new).trans cap
  next => exact ⟨base, cap, rfl, refused⟩
  next => exact ⟨base, cap, rfl, refused⟩
  next => exact ⟨base, cap, rfl, refused⟩
  next => exact ⟨base, cap, rfl, refused⟩
  next =>
    split
    · exact ⟨base, cap, rfl, refused⟩
    · split <;> exact ⟨base, cap, rfl, refused⟩
  next => exact ⟨base, cap, rfl, refused⟩
  next => exact ⟨base, cap, rfl, refused⟩
  next => split <;> exact ⟨base, cap, rfl, refused⟩
  next => exact ⟨base, cap, rfl, refused⟩

theorem fixed_reached {N : Nat} (built : (Deque.fixed N).Built empty)
    (reached : ReachedTimely (.fixed N) empty s) : FixedOk N s := by
  induction reached with
  | init => exact ⟨rfl, rfl, rfl, fun _ member => nomatch member⟩
  | step before a allowed timely ih =>
    obtain ⟨contents, inv⟩ := inv_reached built before
    cases a with
    | push x => exact ⟨ih.base, ih.cap, rfl, ih.refused⟩
    | pop => exact ⟨ih.base, ih.cap, rfl, ih.refused⟩
    | steal i => exact ⟨ih.base, ih.cap, ih.phase, ih.refused⟩
    | owner => exact ih.stepOwner inv
    | thief i spurious => exact ih.stepThief i spurious

/-- What a deque delivers: its calls are those of a list whose end is the owner's and whose
front is the thieves', so that an item is returned once and not before the items behind
or before it; the items that are left are in the slots from the top to the bottom, which
the owner lowers while it pops. -/
structure Delivers (s : State α) (contents : List α) : Prop where
  replays : Replays s.log contents
  once : (s.log.filterMap Event.pushed?).Perm (s.log.filterMap Event.returned? ++ contents)
  held : ∀ j v, contents[j]? = some v → s.seg.get (word (s.moved + j)) = v
  top : s.top = word s.moved
  size : sdiff s.bottom s.top = (contents.length : Int) - if s.owner.lowered then 1 else 0

theorem neither_lost_nor_duplicated (deque : Deque) (empty : α) (built : deque.Built empty)
    (reached : ReachedTimely deque empty s) :
    (∃ contents, Delivers s contents) ∧
      ∀ N, deque = .fixed N → ∀ n ∈ s.refused, n = nextPow2 N := by
  refine ⟨?_, ?_⟩
  · obtain ⟨contents, inv⟩ := inv_reached built reached
    refine ⟨contents, inv.replays, inv.replays.perm, inv.held, inv.top, ?_⟩
    have near := inv.after_lt
    have ahead : s.moved ≤ s.after contents := le_add_right _ _
    cases lowered : s.owner.lowered with
    | false =>
      rw [inv.bottom lowered, inv.top, sdiff_word (by omega) near, if_neg Bool.false_ne_true,
        State.after]
      omega
    | true =>
      rw [inv.lowBottom lowered, inv.top, sdiff_lower ahead near, if_pos rfl, State.after]
      omega
  · rintro N rfl
    exact (fixed_reached built reached).refused

/-- A deque of one slot grows for the second item; a thief takes the first and the owner
the other. -/
def shared : List (Action Nat) :=
  .push 7 :: List.replicate 4 .owner ++ .push 8 :: List.replicate 8 .owner ++
    .steal 0 :: List.replicate 5 (.thief 0 false) ++ .pop :: List.replicate 7 .owner

theorem neither_lost_nor_duplicated_shared :
    ∃ s : State Nat, ReachedTimely (.grow 1) 0 s ∧
      s.log = [.pushed 7, .pushed 8, .stolen 7, .popped 8] ∧ ∃ contents, Delivers s contents := by
  have reached : ReachedTimely (.grow 1) 0
      (shared.foldl (step (.grow 1) 0) (State.init (.grow 1) 0)) := by
    simp only [shared, List.replicate, cons_append, nil_append, foldl_cons,
      foldl_nil]
    iterate 7 refine .step ?_ .owner trivial trivial
    refine .step ?_ .pop rfl trivial
    iterate 5 refine .step ?_ (.thief 0 false) trivial (by decide +kernel)
    refine .step ?_ (.steal 0) rfl trivial
    iterate 8 refine .step ?_ .owner trivial trivial
    refine .step ?_ (.push 8) rfl trivial
    iterate 4 refine .step ?_ .owner trivial trivial
    exact .step .init (.push 7) rfl trivial
  refine ⟨_, reached, ?_, (neither_lost_nor_duplicated (.grow 1) 0 ⟨by decide, by decide⟩ reached).1⟩
  decide +kernel

end Micron.ChaseLev
