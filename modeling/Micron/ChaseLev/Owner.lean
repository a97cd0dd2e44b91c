import Micron.ChaseLev.Model

/-!
# Steps of the owner
-/

set_option autoImplicit false

namespace Micron.ChaseLev

open Micron.Lib List Function Nat

variable {α : Type} {s s' : State α} {contents contents' : List α}

/-- What a thief knows survives a step that leaves the top and the first item alone. -/
theorem ThiefOk.keep {thief : Thief α} (ok : ThiefOk s contents thief) (moved : s'.moved = s.moved)
    (base : s.base ≤ s'.base)
    (still : s.owner.reserved < contents.length →
      s'.owner.reserved < contents'.length ∧ contents'.head? = contents.head?)
    (slots : ∀ g, g ≤ s.base → s.owner.reserved < contents.length →
      (s'.segs g).get (word s.moved) = (s.segs g).get (word s.moved)) :
    ThiefOk s' contents' thief := by
  cases thief with
  | idle | loadTop => trivial
  | loadBottom t since => exact ⟨ok.1, moved ▸ ok.2⟩
  | loadBase t since =>
    obtain ⟨loaded, le, known⟩ := ok
    refine ⟨loaded, moved ▸ le, ?_⟩
    intro same
    exact (still (known (moved ▸ same))).1
  | loadSlot t g since =>
    obtain ⟨loaded, le, known⟩ := ok
    refine ⟨loaded, moved ▸ le, ?_⟩
    intro same
    have now : s.moved = since := moved ▸ same
    obtain ⟨some, bound, head⟩ := known now
    obtain ⟨some', head'⟩ := still some
    refine ⟨some', le_trans bound base, ?_⟩
    rw [head', head, loaded, ← now, slots g bound some]
  | claim t x since =>
    obtain ⟨loaded, le, known⟩ := ok
    refine ⟨loaded, moved ▸ le, ?_⟩
    intro same
    obtain ⟨some, head⟩ := known (moved ▸ same)
    obtain ⟨some', head'⟩ := still some
    exact ⟨some', head'.trans head⟩

/-- Once the top has moved a thief that read it before knows nothing. -/
theorem ThiefOk.outrun {thief : Thief α} (ok : ThiefOk s contents thief)
    (moved : s'.moved = s.moved + 1) : ThiefOk s' contents' thief := by
  cases thief with
  | idle | loadTop => trivial
  | loadBottom t since => exact ⟨ok.1, by have := ok.2; omega⟩
  | loadBase t since | loadSlot t g since | claim t x since =>
    obtain ⟨loaded, le, _⟩ := ok
    refine ⟨loaded, by omega, ?_⟩
    intro same
    omega

theorem Inv.goOwner (inv : Inv s contents) {o : Owner α} (ok : OwnerOk s contents o)
    (lowered : o.lowered = s.owner.lowered)
    (reserved : s.owner.reserved < contents.length → o.reserved < contents.length) :
    Inv { s with owner := o } contents := by
  refine { inv with bottom := ?_, lowBottom := ?_, owner := ok, thieves := ?_ }
  · rw [lowered]
    exact inv.bottom
  · rw [lowered]
    exact inv.lowBottom
  · intro i
    exact (inv.thieves i).keep rfl (le_refl _) (fun some => ⟨reserved some, rfl⟩)
      (fun _ _ _ => rfl)

theorem Inv.length_le (inv : Inv s contents) : contents.length ≤ s.seg.cap := by
  have room := inv.room
  have behind := inv.cacheMoved
  unfold State.after at room
  omega

theorem Inv.refresh (inv : Inv s contents) {x : α} {b g : Nat} (phase : s.owner = .pushFull x b g) :
    Inv { s with topCache := s.top, cacheMoved := s.moved } contents := by
  have small := inv.length_le
  refine { inv with topCache := inv.top, cacheMoved := le_refl _, room := ?_, owner := ?_ }
  · exact Nat.add_le_add_left small s.moved
  · have ok := inv.owner
    rw [phase] at ok ⊢
    exact ok

theorem Inv.full_iff (inv : Inv s contents) {b : Nat} (bottom : b = word (s.after contents)) :
    sdiff b s.topCache ≤ signed s.seg.mask ↔ s.after contents < s.cacheMoved + s.seg.cap := by
  have room := inv.room
  have behind := inv.cacheMoved
  have cap := inv.seg.cap
  have ahead : s.moved ≤ s.after contents := le_add_right _ _
  rw [bottom, inv.topCache, sdiff_word (by omega) (by omega), inv.seg.mask]
  omega

theorem pushCheckOk (inv : Inv s contents) {b g : Nat} (x : α)
    (bottom : b = word (s.after contents)) (current : g = s.base) :
    ∃ owner, pushCheck s x b g = owner ∧ OwnerOk s contents owner ∧ owner.lowered = false ∧
      owner.reserved = 0 ∧ owner.growing = false := by
  unfold pushCheck
  subst current
  split
  next full => exact ⟨_, rfl, ⟨bottom, rfl⟩, rfl, rfl, rfl⟩
  next free =>
    exact ⟨_, rfl, ⟨bottom, rfl, (inv.full_iff bottom).mp (Int.not_lt.mp free)⟩, rfl, rfl, rfl⟩

theorem log2Loop_spec {k : Nat} : ∀ rounds s, s ≤ k → k ≤ s + rounds →
    log2Loop (2 ^ k) rounds s = k := by
  intro rounds
  induction rounds with
  | zero =>
    intro s le near
    rw [log2Loop]
    omega
  | succ rounds ih =>
    intro s le near
    rw [log2Loop]
    by_cases last : s = k
    · rw [last, if_neg (lt_irrefl _)]
    · rw [if_pos (Nat.pow_lt_pow_right (by decide) (by omega))]
      exact ih (s + 1) (by omega) (by omega)

theorem log2Pow2_pow {k : Nat} (bound : k ≤ 63) : log2Pow2 (2 ^ k) = k :=
  log2Loop_spec 63 0 (zero_le _) (by omega)

theorem makeSeg_ok (empty : α) {k : Nat} (bound : k ≤ 62) : SegOk (makeSeg empty k) :=
  segOk_of_pow bound rfl rfl

theorem grown_ok {seg : Segment α} (ok : SegOk seg) (empty : α) (allocates : Allocates (seg.cap * 2)) :
    SegOk (makeSeg empty (log2Pow2 (seg.cap * 2))) ∧
      seg.cap < (makeSeg empty (log2Pow2 (seg.cap * 2))).cap := by
  rcases ok.power with zero | ⟨k, power⟩
  · rw [zero]
    exact ⟨makeSeg_ok empty (by decide), Nat.two_pow_pos _⟩
  · rw [power, ← pow_succ] at allocates ⊢
    have bound : k + 1 < 63 := (Nat.pow_lt_pow_iff_right (by decide)).mp allocates
    rw [log2Pow2_pow (le_of_lt bound)]
    refine ⟨makeSeg_ok empty (by omega), ?_⟩
    exact Nat.pow_lt_pow_right (by decide) (Nat.lt_succ_self k)

theorem Inv.setNext (inv : Inv s contents) (seg : Segment α) {owner : Owner α}
    (ok : OwnerOk (s.setSeg (s.base + 1) seg) contents owner)
    (lowered : owner.lowered = s.owner.lowered)
    (reserved : owner.reserved = s.owner.reserved) :
    Inv { s.setSeg (s.base + 1) seg with owner := owner } contents := by
  have other : ∀ g, g ≤ s.base → update s.segs (s.base + 1) seg g = s.segs g := by
    intro g le
    exact update_of_ne (by omega) ..
  have same : (s.setSeg (s.base + 1) seg).seg = s.seg := other s.base (le_refl _)
  refine { inv with
    bottom := ?_, lowBottom := ?_, room := ?_, seg := ?_, held := ?_, owner := ok, thieves := ?_ }
  · rw [lowered]
    exact inv.bottom
  · rw [lowered]
    exact inv.lowBottom
  · change s.after contents ≤ s.cacheMoved + (s.setSeg (s.base + 1) seg).seg.cap
    rw [same]
    exact inv.room
  · change SegOk (s.setSeg (s.base + 1) seg).seg
    rw [same]
    exact inv.seg
  · intro j v here
    change (s.setSeg (s.base + 1) seg).seg.get (word (s.moved + j)) = v
    rw [same]
    exact inv.held j v here
  · intro i
    refine (inv.thieves i).keep rfl (le_refl _) ?_ ?_
    · intro some
      exact ⟨reserved ▸ some, rfl⟩
    · intro g le _
      exact congrArg (fun seg => seg.get (word s.moved)) (other g le)

theorem Inv.allocate (inv : Inv s contents) (empty : α) {x : α} {b t : Nat}
    (phase : s.owner = .growLoad x b t) (allocates : Allocates (s.seg.cap * 2)) :
    Inv { s.setSeg (s.base + 1) (makeSeg empty (log2Pow2 (s.seg.cap * 2))) with
      owner := .copy x b s.base t } contents := by
  have ok := inv.owner
  rw [phase] at ok
  obtain ⟨bottom, top⟩ := ok
  obtain ⟨segOk, larger⟩ := grown_ok inv.seg empty allocates
  have room := inv.room
  have behind := inv.cacheMoved
  have ahead : s.moved ≤ s.after contents := le_add_right _ _
  refine inv.setNext _ ?_ (by rw [phase]; rfl) (by rw [phase]; rfl)
  have new : (s.setSeg (s.base + 1) (makeSeg empty (log2Pow2 (s.seg.cap * 2)))).segs (s.base + 1) =
      makeSeg empty (log2Pow2 (s.seg.cap * 2)) := update_self ..
  refine ⟨bottom, rfl, ?_, ?_, s.cacheMoved, top, le_refl _,
    le_trans behind ahead, ?_⟩
  · rw [new]
    exact segOk
  · rw [new]
    change s.after contents < s.cacheMoved + _
    omega
  · intro j v less
    change s.moved + j < s.cacheMoved at less
    omega

/-- One item goes to the new segment; items that were stolen meanwhile go along. -/
theorem Inv.copyOne (inv : Inv s contents) {x : α} {b g i : Nat} (phase : s.owner = .copy x b g i)
    (more : sdiff b i > 0) :
    Inv { s.setSeg (g + 1) ((s.segs (g + 1)).set i ((s.segs g).get i)) with
      owner := .copy x b g (word (i + 1)) } contents := by
  have ok := inv.owner
  rw [phase] at ok
  obtain ⟨bottom, rfl, segOk, fits, p, rfl, low, high, copied⟩ := ok
  have room := inv.room
  have cap := inv.seg.cap
  have behind := inv.cacheMoved
  rw [bottom, sdiff_word (by omega) (by omega)] at more
  have less : p < s.after contents := by omega
  refine inv.setNext _ ?_ (by rw [phase]; rfl) (by rw [phase]; rfl)
  have new : (s.setSeg (s.base + 1) ((s.segs (s.base + 1)).set (word p)
      ((s.segs s.base).get (word p)))).segs (s.base + 1) =
      (s.segs (s.base + 1)).set (word p) ((s.segs s.base).get (word p)) := update_self ..
  refine ⟨bottom, rfl, ?_, ?_, p + 1, word_word_add _ _, le_succ_of_le low, less, ?_⟩
  · rw [new]
    exact segOk.set _ _
  · rw [new]
    exact fits
  · intro j v before here
    change s.moved + j < p + 1 at before
    rw [new]
    change ((s.segs (s.base + 1)).set _ _).get (word (s.moved + j)) = v
    rcases eq_or_lt_of_le (le_of_lt_succ before) with last | earlier
    · rw [last, Segment.get_set_self, ← last]
      exact inv.held j v here
    · rw [segOk.get_set_of_lt earlier (by omega)]
      exact copied j v earlier here

theorem Inv.publish (inv : Inv s contents) {x : α} {b g i : Nat} (phase : s.owner = .copy x b g i)
    (last : ¬ sdiff b i > 0) :
    Inv { s with base := g + 1, owner := .pushStore x b (g + 1) } contents := by
  have ok := inv.owner
  rw [phase] at ok
  obtain ⟨bottom, rfl, segOk, fits, p, rfl, low, high, copied⟩ := ok
  have room := inv.room
  have cap := inv.seg.cap
  rw [bottom, sdiff_word (by omega) (by omega)] at last
  have all : p = s.after contents := by omega
  refine { inv with
    bottom := fun _ => inv.bottom (by rw [phase]; rfl), lowBottom := fun low => (nomatch low)
    room := le_of_lt fits, seg := segOk, held := ?_
    owner := ⟨bottom, rfl, fits⟩, thieves := ?_ }
  · intro j v here
    refine copied j v ?_ here
    rw [all]
    exact Nat.add_lt_add_left (List.getElem?_eq_some_iff.mp here).1 s.moved
  · intro i
    refine (inv.thieves i).keep rfl (le_succ _) ?_ (fun _ _ _ => rfl)
    intro some
    rw [phase] at some
    exact ⟨some, rfl⟩

/-! ## Pushing -/

theorem Inv.store (inv : Inv s contents) {x : α} {b g : Nat} (phase : s.owner = .pushStore x b g) :
    Inv { s.setSeg g ((s.segs g).set b x) with owner := .pushBottom x b } contents := by
  have ok := inv.owner
  rw [phase] at ok
  obtain ⟨bottom, rfl, fits⟩ := ok
  have behind := inv.cacheMoved
  have new : (s.setSeg s.base ((s.segs s.base).set b x)).seg = s.seg.set b x :=
    update_self ..
  have apart : ∀ j, j < contents.length →
      (s.seg.set b x).get (word (s.moved + j)) = s.seg.get (word (s.moved + j)) := by
    intro j less
    rw [bottom]
    refine inv.seg.get_set_of_lt ?_ ?_ x
    · exact Nat.add_lt_add_left less s.moved
    · omega
  refine { inv with
    bottom := fun _ => inv.bottom (by rw [phase]; rfl), lowBottom := fun low => (nomatch low)
    room := ?_, seg := ?_, held := ?_, owner := ⟨bottom, ?_, ?_⟩, thieves := ?_ }
  · change s.after contents ≤ s.cacheMoved + (s.setSeg s.base ((s.segs s.base).set b x)).seg.cap
    rw [new]
    exact inv.room
  · change SegOk (s.setSeg s.base ((s.segs s.base).set b x)).seg
    rw [new]
    exact inv.seg.set b x
  · intro j v here
    change (s.setSeg s.base ((s.segs s.base).set b x)).seg.get (word (s.moved + j)) = v
    rw [new, apart j (List.getElem?_eq_some_iff.mp here).1]
    exact inv.held j v here
  · change s.after contents < s.cacheMoved + (s.setSeg s.base ((s.segs s.base).set b x)).seg.cap
    rw [new]
    exact fits
  · change (s.setSeg s.base ((s.segs s.base).set b x)).seg.get (word (s.after contents)) = x
    rw [new, bottom]
    exact Segment.get_set_self _ _ _
  · intro i
    refine (inv.thieves i).keep rfl (le_refl _) ?_ ?_
    · intro some
      rw [phase] at some
      exact ⟨some, rfl⟩
    · intro g le some
      rcases eq_or_lt_of_le le with same | less
      · subst same
        change (s.setSeg s.base ((s.segs s.base).set b x)).seg.get (word s.moved) = _
        rw [new]
        exact apart 0 (by omega)
      · have other : (s.setSeg s.base ((s.segs s.base).set b x)).segs g = s.segs g :=
          update_of_ne (by omega) ..
        exact congrArg (fun seg => seg.get (word s.moved)) other

theorem Inv.push (inv : Inv s contents) {x : α} {b : Nat} (phase : s.owner = .pushBottom x b) :
    Inv { s with bottom := word (b + 1), owner := .idle, log := s.log ++ [.pushed x] }
      (contents ++ [x]) := by
  have ok := inv.owner
  rw [phase] at ok
  obtain ⟨bottom, fits, slot⟩ := ok
  have longer : s.after (contents ++ [x]) = s.after contents + 1 := by
    simp [State.after, add_assoc]
  refine { inv with
    bottom := ?_, lowBottom := fun low => (nomatch low), room := ?_
    replays := inv.replays.pushed x, held := ?_, owner := trivial, thieves := ?_ }
  · intro _
    change word (b + 1) = word (s.after (contents ++ [x]))
    rw [bottom, word_word_add, longer]
  · change s.after (contents ++ [x]) ≤ _
    rw [longer]
    exact fits
  · intro j v here
    rcases lt_or_ge j contents.length with before | last
    · rw [getElem?_append_left before] at here
      exact inv.held j v here
    · have inside := (List.getElem?_eq_some_iff.mp here).1
      rw [length_append, length_singleton] at inside
      have equal : j = contents.length := by omega
      subst equal
      rw [getElem?_concat_length] at here
      exact slot.trans (Option.some.inj here)
  · intro i
    refine (inv.thieves i).keep rfl (le_refl _) ?_ (fun _ _ _ => rfl)
    intro some
    rw [phase] at some
    cases contents with
    | nil => exact absurd some (lt_irrefl _)
    | cons y rest => exact ⟨succ_pos _, rfl⟩

theorem Inv.lower (inv : Inv s contents) {b g : Nat} (phase : s.owner = .popLower b g) :
    Inv { s with bottom := b, owner := .popTop b g } contents := by
  have ok := inv.owner
  rw [phase] at ok
  refine { inv with
    bottom := fun high => (nomatch high), lowBottom := fun _ => ok.1, owner := ok, thieves := ?_ }
  intro i
  refine (inv.thieves i).keep rfl (le_refl _) ?_ (fun _ _ _ => rfl)
  intro some
  rw [phase] at some
  exact ⟨some, rfl⟩

theorem Inv.after_lt (inv : Inv s contents) : s.after contents < s.moved + 2 ^ 63 := by
  have small := inv.length_le
  have cap := inv.seg.cap
  unfold State.after
  omega

/-- The owner looks at the top after it has lowered the bottom. -/
theorem Inv.look (inv : Inv s contents) {b g : Nat} (phase : s.owner = .popTop b g) :
    Inv (if sdiff b s.top > 0 then { s with owner := .popRead b g }
      else if s.top = b then { s with owner := .popLast b g }
      else { s with owner := .popRestore b }) contents := by
  have ok := inv.owner
  rw [phase] at ok
  obtain ⟨bottom, current⟩ := ok
  have near := inv.after_lt
  have ahead : s.moved ≤ s.after contents := le_add_right _ _
  have lowered : true = s.owner.lowered := by rw [phase]; rfl
  have signedDiff := sdiff_lower ahead near
  rw [← inv.top, ← bottom] at signedDiff
  rw [signedDiff]
  split
  next more =>
    have two : 1 < contents.length := by
      unfold State.after at more
      omega
    refine inv.goOwner (o := .popRead b g) ⟨bottom, current, ?_⟩ lowered (fun _ => two)
    intro none
    rw [none] at two
    exact absurd two (not_lt_zero _)
  next few =>
    split
    next last =>
      have one := (word_eq_lower ahead near).mp (inv.top.symm.trans (last.trans bottom))
      have short : contents.length ≤ 1 := by
        unfold State.after at one
        omega
      exact inv.goOwner (o := .popLast b g) ⟨bottom, current, short⟩ lowered
        (fun some => lt_of_le_of_lt (zero_le _) some)
    next =>
      exact inv.goOwner (o := .popRestore b) bottom lowered
        (fun some => lt_of_le_of_lt (zero_le _) some)

theorem Inv.popRead (inv : Inv s contents) {b g : Nat} (phase : s.owner = .popRead b g) :
    ∃ rest, Inv { s with owner := .idle, log := s.log ++ [.popped ((s.segs g).get b)] } rest := by
  have ok := inv.owner
  rw [phase] at ok
  obtain ⟨bottom, rfl, some⟩ := ok
  obtain ⟨rest, x, rfl⟩ := (eq_nil_or_concat contents).resolve_left some
  rw [concat_eq_append] at *
  have shorter : s.after (rest ++ [x]) = s.after rest + 1 := by
    simp [State.after, add_assoc]
  rw [shorter, lower_succ] at bottom
  have slot : s.seg.get (word (s.moved + rest.length)) = x :=
    inv.held rest.length x getElem?_concat_length
  have read : (s.segs s.base).get b = x := by
    rw [bottom]
    exact slot
  have lowered := inv.lowBottom (by rw [phase]; rfl)
  rw [shorter, lower_succ] at lowered
  have room := inv.room
  refine ⟨rest, { inv with
    bottom := fun _ => lowered, lowBottom := fun low => (nomatch low), room := ?_, replays := ?_, held := ?_, owner := trivial, thieves := ?_ }⟩
  · rw [shorter] at room
    exact le_of_succ_le room
  · rw [read]
    exact inv.replays.popped
  · intro j v here
    refine inv.held j v ?_
    rw [List.getElem?_append_left (List.getElem?_eq_some_iff.mp here).1]
    exact here
  · intro i
    refine (inv.thieves i).keep rfl (le_refl _) ?_ (fun _ _ _ => rfl)
    intro some
    rw [phase, length_append, length_singleton] at some
    cases rest with
    | nil => exact absurd some (lt_irrefl _)
    | cons y rest => exact ⟨succ_pos _, rfl⟩

theorem Inv.popLast (inv : Inv s contents) {b g : Nat} (phase : s.owner = .popLast b g) :
    Inv { s with owner := .popClaim b ((s.segs g).get b) } contents := by
  have ok := inv.owner
  rw [phase] at ok
  obtain ⟨bottom, rfl, few⟩ := ok
  refine inv.goOwner (o := .popClaim _ _) ⟨bottom, few, ?_⟩ (by rw [phase]; rfl)
    (by rw [phase]; exact id)
  intro y member
  cases contents with
  | nil => exact nomatch member
  | cons x rest =>
    cases rest with
    | cons z rest => exact absurd few (by simp)
    | nil =>
      cases mem_singleton.mp member
      have position : s.after [y] = s.moved + 1 := rfl
      rw [bottom, position, lower_succ]
      exact inv.held 0 y rfl

theorem Inv.popClaim (inv : Inv s contents) {b : Nat} {x : α} (phase : s.owner = .popClaim b x)
    (found : s.top = b) :
    Inv { s with
      top := word (b + 1), moved := s.moved + 1, owner := .popRestore b
      log := s.log ++ [.popped x] } [] := by
  have ok := inv.owner
  rw [phase] at ok
  obtain ⟨bottom, few, known⟩ := ok
  have near := inv.after_lt
  have ahead : s.moved ≤ s.after contents := le_add_right _ _
  rw [bottom, inv.top] at found
  have one := (word_eq_lower ahead near).mp found
  have single : contents.length = 1 := by
    unfold State.after at one
    omega
  obtain ⟨y, rfl⟩ := length_eq_one_iff.mp single
  cases known y mem_cons_self
  have position : s.after [x] = s.moved + 1 := rfl
  rw [position, lower_succ] at bottom
  have lowered := inv.lowBottom (by rw [phase]; rfl)
  rw [position, lower_succ] at lowered
  have room := inv.room
  have behind := inv.cacheMoved
  refine { inv with
    top := ?_, bottom := fun high => (nomatch high), lowBottom := ?_
    cacheMoved := le_succ_of_le behind, room := room, replays := ?_, held := ?_, owner := ?_, thieves := ?_ }
  · rw [bottom, word_word_add]
  · intro _
    change s.bottom = wordSub (word (s.moved + 1)) 1
    rw [lower_succ]
    exact lowered
  · exact @Replays.popped _ _ [] _ inv.replays
  · intro j v here
    exact nomatch here
  · change b = wordSub (word (s.moved + 1)) 1
    rw [lower_succ]
    exact bottom
  · intro i
    exact (inv.thieves i).outrun rfl

theorem Inv.restore (inv : Inv s contents) {b : Nat} (phase : s.owner = .popRestore b) :
    Inv { s with bottom := word (b + 1), owner := .idle } contents := by
  have ok := inv.owner
  rw [phase] at ok
  refine { inv with
    bottom := ?_, lowBottom := fun low => (nomatch low), owner := trivial, thieves := ?_ }
  · intro _
    change word (b + 1) = word (s.after contents)
    rw [show b = wordSub (word (s.after contents)) 1 from ok, word_lower_succ]
  · intro i
    refine (inv.thieves i).keep rfl (le_refl _) ?_ (fun _ _ _ => rfl)
    intro some
    rw [phase] at some
    exact ⟨some, rfl⟩

end Micron.ChaseLev
