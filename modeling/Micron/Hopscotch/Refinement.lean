import Mathlib.Data.Nat.Count
import Micron.Lib.KeyedRun
import Micron.Hopscotch.Model

/-!
# The hopscotch map keeps the first insert of each hash

Resizing re-inserts every entry into a larger table, with retries, and an
insert that finds no place resizes and calls itself.  Every successful resize
at least doubles the table, which bounds the depth of these calls.
-/

set_option autoImplicit false

namespace Micron.Hopscotch

open Micron.Lib List Function Nat

variable {V : Type}

theorem roundPow2_spec (n : Nat) :
    ∃ b, 1 ≤ b ∧ roundPow2 n = 2 ^ b ∧ (n ≤ 2 ^ 61 → n ≤ 2 ^ b) := by
  unfold roundPow2
  split
  · exact ⟨1, le_refl _, rfl, fun _ => by omega⟩
  · rename_i large
    obtain ⟨b, eq, enough⟩ := roundLoop_spec n 64 0 rfl (by decide)
    refine ⟨b, ?_, eq, ?_⟩
    · by_contra zero
      have one : b = 0 := by omega
      subst one
      omega
    · intro small
      rcases enough with covers | saturated
      · exact covers
      · rw [saturated]
        omega

section Blank
variable [Inhabited V]

theorem hopInv_blank {MH e size maxSize : Nat} (big : 1 ≤ e) (bounded : e ≤ 60)
    (power : size = 2 ^ e) (serves : size ≤ maxSize) :
    HopInv MH (blank size maxSize : HopscotchMap V) (fun _ => none) := by
  have two := two_le_two_pow big
  have whole : size - 1 + 1 = size := by omega
  have free : ∀ i, cell (blank size maxSize : HopscotchMap V) i = none := by
    intro i
    rfl
  refine ⟨⟨e, big, bounded, whole.trans power⟩, whole.symm, ?_, ?_, ?_, ?_⟩
  · simp only [blank]
    omega
  · intro i _ taken
    exact absurd rfl taken
  · exact holds_empty fun i _ => free i
  · exact (load_eq_zero fun i _ => free i).symm

/-- A request for a power of two gives an empty table at least as large. -/
theorem allocate_ok (MH : Nat) {e newSize : Nat} {storage : Storage} {fresh : HopscotchMap V}
    (big : 1 ≤ e) (power : newSize = 2 ^ e) (granted : allocate storage newSize = .ok fresh) :
    HopInv MH fresh (fun _ => none) ∧ newSize ≤ fresh.bmask + 1 := by
  have bound : ∀ {b : Nat}, 2 ^ b < 2 ^ 60 → b ≤ 60 := by
    intro b below
    exact le_of_lt ((Nat.pow_lt_pow_iff_right (by decide)).mp below)
  unfold allocate at granted
  split at granted
  · cases granted
  · rename_i maxSize served
    obtain ⟨serves, small⟩ := storage.serves _ _ served
    obtain ⟨b, bigB, target, _⟩ := roundPow2_spec maxSize
    simp only at granted
    split at granted
    · rename_i grows
      split at granted
      · cases granted
      · rename_i maxSize' served'
        obtain ⟨serves', small'⟩ := storage.serves _ _ served'
        cases granted
        have inv : HopInv MH (blank (roundPow2 maxSize) maxSize' : HopscotchMap V)
            (fun _ => none) :=
          hopInv_blank bigB (bound (by omega)) target serves'
        refine ⟨inv, ?_⟩
        have sized := inv.sized
        simp only [blank] at sized ⊢
        omega
    · cases granted
      have inv : HopInv MH (blank newSize maxSize : HopscotchMap V) (fun _ => none) :=
        hopInv_blank big (bound (by omega)) power serves
      refine ⟨inv, ?_⟩
      have sized := inv.sized
      simp only [blank] at sized ⊢
      omega

theorem allocate_ne_depth {newSize : Nat} {storage : Storage} :
    (allocate storage newSize : Except HopError (HopscotchMap V)) ≠ .error .depth := by
  unfold allocate
  split
  · simp
  · simp only
    split
    · split <;> simp
    · simp

end Blank

section Resize
variable [Inhabited V] {MH : Nat} {m old : HopscotchMap V} {M : UInt64 → Option V}
  {storage : Storage}

theorem HopInv.insertUnhash (inv : HopInv MH m M) {hsh : UInt64} (value : V) (nonzero : hsh ≠ 0)
    (unbound : M hsh = none) {m' : HopscotchMap V}
    (inserted : m.insertUnhash MH hsh value = (m', true)) :
    HopInv MH m' (update M hsh (some value)) ∧ m'.bmask = m.bmask := by
  unfold HopscotchMap.insertUnhash at inserted
  rw [if_neg nonzero, if_neg inv.bmask_ne_zero] at inserted
  rcases inv.windowFind_hash nonzero with ⟨probe, v, _, _, bound⟩ | ⟨missed, _⟩
  · rw [unbound] at bound
    cases bound
  · simp only [missed] at inserted
    obtain ⟨mask, ⟨_, placed⟩ | ⟨failed, _⟩⟩ := inv.placeNear value nonzero unbound
    · rw [inserted] at placed mask
      exact ⟨placed, mask⟩
    · rw [inserted] at failed
      cases failed

/-- The re-insertion loop from slot `i` on, in a table that holds what the
slots before `i` hold. -/
theorem refill_ok (invOld : HopInv MH old M) : ∀ (count i : Nat) {m : HopscotchMap V}
    {Mi : UInt64 → Option V} {m' : HopscotchMap V}, i + count = old.bmask + 1 →
    HopInv MH m Mi → Holds (cell old) i Mi →
    refill MH old (List.range' i count) m = some m' → HopInv MH m' M ∧ m'.bmask = m.bmask := by
  intro count
  induction count with
  | zero =>
    intro i m Mi m' total inv held refilled
    cases refilled
    have all : i = old.bmask + 1 := by omega
    rw [all] at held
    rw [← held.unique invOld.held]
    exact ⟨inv, rfl⟩
  | succ count ih =>
    intro i m Mi m' total inv held refilled
    rw [range'_succ, refill] at refilled
    by_cases free : (old.entries i).key = 0
    · rw [if_pos free] at refilled
      exact ih (i + 1) (by omega) inv (held.succ_free (cell_eq_none_iff.mpr free)) refilled
    · rw [if_neg free] at refilled
      have at_i : cell old i = some ((old.entries i).key, (old.entries i).value) :=
        cell_eq_some_iff.mpr ⟨free, rfl, rfl⟩
      have fresh : ∀ j w, j < i → cell old j ≠ some ((old.entries i).key, w) := by
        intro j w earlier at_j
        have same := invOld.held.single j i _ w _ (by omega) (by omega) at_j at_i
        omega
      have unbound : Mi (old.entries i).key = none :=
        held.eq_none _ fun j w earlier => fresh j w earlier
      split at refilled
      · rename_i m₁ inserted
        obtain ⟨inv₁, mask₁⟩ := inv.insertUnhash _ free unbound inserted
        obtain ⟨inv', mask'⟩ :=
          ih (i + 1) (by omega) inv₁ (held.succ_taken at_i fresh) refilled
        exact ⟨inv', mask'.trans mask₁⟩
      · cases refilled

theorem resizeLoop_ok (invOld : HopInv MH old M) : ∀ (attempts e : Nat) {newSize : Nat}
    {m' : HopscotchMap V}, 1 ≤ e → newSize = 2 ^ e →
    resizeLoop MH storage old attempts newSize = .ok m' →
    HopInv MH m' M ∧ newSize ≤ m'.bmask + 1 := by
  intro attempts
  induction attempts with
  | zero =>
    intro e newSize m' _ _ resized
    cases resized
  | succ attempts ih =>
    intro e newSize m' big power resized
    rw [resizeLoop] at resized
    split at resized
    · cases resized
    · rename_i fresh granted
      obtain ⟨invFresh, larger⟩ := allocate_ok MH big power granted
      have entries := invFresh.sized
      split at resized
      · rename_i m₁ refilled
        cases resized
        rw [range_eq_range', invOld.sized] at refilled
        obtain ⟨inv', mask'⟩ := refill_ok invOld _ 0 (by omega) invFresh
          (holds_empty fun j below => absurd below (not_lt_zero j)) refilled
        exact ⟨inv', by rw [mask']; exact larger⟩
      · obtain ⟨e', big', _, power'⟩ := invFresh.power
        have doubled : fresh.entriesSize * 2 = 2 ^ (e' + 1) := by
          rw [entries, power', pow_succ]
        obtain ⟨inv', larger'⟩ := ih (e' + 1) (by omega) doubled resized
        exact ⟨inv', by omega⟩

/-- A successful resize keeps the map and at least doubles the table. -/
theorem HopInv.resize (inv : HopInv MH m M) {m' : HopscotchMap V}
    (resized : m.resize MH storage = .ok m') :
    HopInv MH m' M ∧ 2 * (m.bmask + 1) ≤ m'.bmask + 1 := by
  unfold HopscotchMap.resize at resized
  obtain ⟨e, _, bounded, power⟩ := inv.power
  have small : m.entriesSize * 2 ≤ 2 ^ 61 := by
    have bound : 2 ^ e ≤ 2 ^ 60 := Nat.pow_le_pow_right (by decide) bounded
    rw [inv.sized, power]
    omega
  obtain ⟨b, big, rounded, enough⟩ := roundPow2_spec (m.entriesSize * 2)
  have sized := inv.sized
  simp only at resized
  split at resized
  · rename_i tiny
    obtain ⟨inv', larger⟩ := resizeLoop_ok inv maxResizeAttempts 6 (by decide) rfl resized
    refine ⟨inv', ?_⟩
    simp only [minSize] at tiny larger
    omega
  · obtain ⟨inv', larger⟩ := resizeLoop_ok inv maxResizeAttempts b big rounded resized
    exact ⟨inv', by omega⟩

theorem resizeLoop_ne_depth : ∀ (attempts newSize : Nat),
    resizeLoop MH storage old attempts newSize ≠ .error .depth := by
  intro attempts
  induction attempts with
  | zero =>
    intro newSize
    simp [resizeLoop]
  | succ attempts ih =>
    intro newSize
    rw [resizeLoop]
    split
    · rename_i e refused
      intro same
      cases same
      exact allocate_ne_depth refused
    · split
      · simp
      · exact ih _

theorem HopInv.relieve (inv : HopInv MH m M) {m' : HopscotchMap V}
    (relieved : m.relieve MH storage = .ok m') :
    HopInv MH m' M ∧ m.bmask + 1 ≤ m'.bmask + 1 := by
  unfold HopscotchMap.relieve at relieved
  split at relieved
  · obtain ⟨inv', larger⟩ := inv.resize relieved
    exact ⟨inv', by omega⟩
  · cases relieved
    exact ⟨inv, le_refl _⟩

theorem relieve_ne_depth : m.relieve MH storage ≠ .error .depth := by
  unfold HopscotchMap.relieve
  split
  · exact resizeLoop_ne_depth _ _
  · simp

end Resize

/-! ## Inserting -/

section Insert
variable [Inhabited V] {MH : Nat} {m : HopscotchMap V} {M : UInt64 → Option V}
  {storage : Storage}

/-- The first insert of a hash wins; a deep enough recursion never runs out. -/
theorem HopInv.insertFuel (hsh : UInt64) (value : V) : ∀ (depth : Nat) {m : HopscotchMap V},
    HopInv MH m M → 2 ^ 61 ≤ 2 ^ depth * (m.bmask + 1) →
    m.insertFuel MH storage hsh value depth ≠ .error .depth ∧
      ∀ m' v, m.insertFuel MH storage hsh value depth = .ok (m', v) →
        v = (M hsh).getD value ∧ HopInv MH m' (update M hsh (some v)) := by
  intro depth
  induction depth with
  | zero =>
    intro m inv enough
    obtain ⟨e, _, bounded, power⟩ := inv.power
    have bound : 2 ^ e ≤ 2 ^ 60 := Nat.pow_le_pow_right (by decide) bounded
    omega
  | succ depth ih =>
    intro m inv enough
    rw [HopscotchMap.insertFuel]
    by_cases zero : hsh = 0
    · simp [zero]
    · rw [if_neg zero, if_neg (ne_of_gt inv.initialized)]
      cases relieved : m.relieve MH storage with
      | error e =>
        constructor
        · intro same
          cases same
          exact relieve_ne_depth relieved
        · intro m' v impossible
          cases impossible
      | ok m₁ =>
        obtain ⟨inv₁, larger₁⟩ := inv.relieve relieved
        simp only
        rcases inv₁.windowFind_hash zero with ⟨probe, v, found, value_eq, bound⟩ |
          ⟨missed, unbound⟩
        · rw [found]
          refine ⟨by simp, ?_⟩
          intro m' w same
          cases same
          rw [value_eq, bound]
          refine ⟨rfl, ?_⟩
          rw [update_eq_self_iff.mpr bound.symm]
          exact inv₁
        · rw [missed]
          obtain ⟨mask₂, placed⟩ := inv₁.placeNear value zero unbound
          generalize m₁.placeNear MH hsh value = result at mask₂ placed
          obtain ⟨m₂, done⟩ := result
          rcases placed with ⟨rfl, inv₂⟩ | ⟨rfl, inv₂⟩
          · refine ⟨by simp, ?_⟩
            intro m' w same
            cases same
            rw [unbound]
            exact ⟨rfl, inv₂⟩
          · simp only at mask₂ inv₂ ⊢
            cases resized : m₂.resize MH storage with
            | error e =>
              constructor
              · intro same
                cases same
                exact resizeLoop_ne_depth _ _ resized
              · intro m' v impossible
                cases impossible
            | ok m₃ =>
              obtain ⟨inv₃, larger₃⟩ := inv₂.resize resized
              apply ih inv₃
              calc 2 ^ 61 ≤ 2 ^ (depth + 1) * (m.bmask + 1) := enough
                _ = 2 ^ depth * (2 * (m.bmask + 1)) := by rw [pow_succ, mul_assoc]
                _ ≤ 2 ^ depth * (m₃.bmask + 1) := mul_le_mul_left _ (by omega)

theorem HopInv.insertAsis (inv : HopInv MH m M) (storage : Storage) (hsh : UInt64) (value : V) :
    m.insertAsis MH storage hsh value ≠ .error .depth ∧
      ∀ m' v, m.insertAsis MH storage hsh value = .ok (m', v) →
        v = (M hsh).getD value ∧ HopInv MH m' (update M hsh (some v)) := by
  apply HopInv.insertFuel hsh value 64 inv
  omega

end Insert

section Lookup
variable {MH : Nat} {m : HopscotchMap V} {M : UInt64 → Option V}

theorem HopInv.probeGroups_some (inv : HopInv MH m M) {hsh : UInt64} {home probe : Nat} :
    ∀ {groups : List Nat}, m.probeGroups hsh home groups = some probe →
      probe < m.bmask + 1 ∧ (m.entries probe).key = hsh := by
  intro groups
  induction groups with
  | nil =>
    intro found
    cases found
  | cons i rest ih =>
    intro found
    rw [HopscotchMap.probeGroups] at found
    split at found
    · rename_i b bits hitBits
      cases found
      have hit : b ∈ m.groupHits hsh home i := by
        rw [hitBits]
        exact mem_cons_self
      have accepted := (mem_filter.mp hit).2
      rw [beq_iff_eq] at accepted
      refine ⟨?_, accepted⟩
      rw [inv.masked]
      exact mod_lt _ (succ_pos _)
    · exact ih found

theorem probeGroups_none {hsh : UInt64} {home : Nat} : ∀ {groups : List Nat},
    m.probeGroups hsh home groups = none → ∀ i, i ∈ groups → ∀ b, b < 4 →
      (m.entries ((home + i + b) &&& m.bmask)).key ≠ hsh := by
  intro groups
  induction groups with
  | nil =>
    intro _ i member
    cases member
  | cons first rest ih =>
    intro missed i member b small
    rw [HopscotchMap.probeGroups] at missed
    split at missed
    · cases missed
    · rename_i noBits
      rcases mem_cons.mp member with rfl | later
      · have inGroup : b ∈ [0, 1, 2, 3] := by
          simp
          omega
        have rejected := filter_eq_nil_iff.mp noBits b inGroup
        simpa using rejected
      · exact ih missed i later b small

theorem HopInv.locate_some (inv : HopInv MH m M) {hsh : UInt64} {probe : Nat}
    (found : m.locate MH hsh = some probe) :
    hsh ≠ 0 ∧ probe < m.bmask + 1 ∧ (m.entries probe).key = hsh := by
  unfold HopscotchMap.locate at found
  split at found
  · cases found
  · rename_i nonzero
    rw [if_neg inv.bmask_ne_zero] at found
    refine ⟨nonzero, ?_⟩
    simp only at found
    split at found
    · rename_i hit inGroups
      cases found
      exact inv.probeGroups_some inGroups
    · have accepted := find?_some found
      rw [beq_iff_eq] at accepted
      obtain ⟨i, _, eq⟩ := mem_map.mp (mem_of_find?_eq_some found)
      refine ⟨?_, accepted⟩
      rw [← eq, inv.masked]
      exact mod_lt _ (succ_pos _)

/-- The groups of four and the tail cover the window. -/
theorem HopInv.locate_none (inv : HopInv MH m M) {hsh : UInt64} (nonzero : hsh ≠ 0)
    (missed : m.locate MH hsh = none) {j : Nat} (inWindow : j ≤ MH) :
    (m.entries ((m.home hsh + j) % (m.bmask + 1))).key ≠ hsh := by
  unfold HopscotchMap.locate at missed
  rw [if_neg nonzero, if_neg inv.bmask_ne_zero] at missed
  simp only at missed
  rw [← inv.masked]
  split at missed
  · cases missed
  · rename_i noGroups
    by_cases inHead : j < MH + 1 - (MH + 1) % 4
    · have member : 4 * (j / 4) ∈
          (List.range ((MH + 1 - (MH + 1) % 4) / 4)).map fun g => 4 * g :=
        mem_map.mpr ⟨j / 4, mem_range.mpr (by omega), rfl⟩
      have rejected := probeGroups_none noGroups _ member (j % 4) (mod_lt _ (by decide))
      rwa [add_assoc, div_add_mod] at rejected
    · have member : (m.home hsh + j) &&& m.bmask ∈
          (List.range (MH + 1 - (MH + 1 - (MH + 1) % 4))).map fun i =>
            (m.home hsh + (MH + 1 - (MH + 1) % 4 + i)) &&& m.bmask := by
        refine mem_map.mpr
          ⟨j - (MH + 1 - (MH + 1) % 4), mem_range.mpr (by omega), ?_⟩
        rw [Nat.add_sub_cancel' (by omega)]
      have rejected := find?_eq_none.mp missed _ member
      simpa using rejected

theorem HopInv.zero_unbound (inv : HopInv MH m M) : M 0 = none := by
  apply inv.held.eq_none
  intro i v _ at_i
  exact (cell_eq_some_iff.mp at_i).1 rfl

theorem HopInv.locate_cases (inv : HopInv MH m M) (hsh : UInt64) :
    (∃ probe v, m.locate MH hsh = some probe ∧ probe < m.bmask + 1 ∧
        cell m probe = some (hsh, v) ∧ (m.entries probe).value = v) ∨
      (m.locate MH hsh = none ∧ M hsh = none) := by
  cases found : m.locate MH hsh with
  | some probe =>
    obtain ⟨nonzero, below, same⟩ := inv.locate_some found
    exact .inl ⟨probe, _, rfl, below, cell_eq_some_iff.mpr ⟨nonzero, same, rfl⟩, rfl⟩
  | none =>
    refine .inr ⟨rfl, ?_⟩
    by_cases zero : hsh = 0
    · rw [zero]
      exact inv.zero_unbound
    · exact inv.unbound_of_window fun j inWindow => inv.locate_none zero found inWindow

theorem HopInv.find_eq {K : Type} (inv : HopInv MH m M) (hash : K → UInt64) (k : K) :
    m.find MH hash k = M (hash k) := by
  unfold HopscotchMap.find
  rcases inv.locate_cases (hash k) with ⟨probe, v, found, below, at_probe, value_eq⟩ |
    ⟨missed, unbound⟩
  · rw [found, Option.map_some, value_eq, inv.held.sound probe _ v below at_probe]
  · rw [missed, unbound]
    rfl

variable [Inhabited V]

theorem HopInv.erase {K : Type} (inv : HopInv MH m M) (hash : K → UInt64) (k : K) :
    HopInv MH (m.erase MH hash k).1 (update M (hash k) none) := by
  unfold HopscotchMap.erase
  rcases inv.locate_cases (hash k) with ⟨probe, v, found, below, at_probe, _⟩ |
    ⟨missed, unbound⟩
  · rw [found]
    have cells : cell { m with
        entries := update m.entries probe clearedNode
        length := m.length - 1 } = update (cell m) probe none := by
      funext i
      by_cases same : i = probe
      · subst same
        simp [cell, clearedNode]
      · simp [cell, update_of_ne same]
    refine ⟨inv.power, inv.sized, inv.initialized, ?_, ?_, ?_⟩
    · intro i belowI taken
      by_cases same : i = probe
      · subst same
        simp [clearedNode] at taken
      · simp only [update_of_ne same] at taken ⊢
        exact inv.near i belowI taken
    · rw [cells]
      exact inv.held.erase below at_probe
    · have freed := load_update_free below
        (show (cell m probe).isSome by rw [at_probe]; rfl)
      have counted := inv.counted
      rw [cells]
      simp only
      omega
  · rw [missed, update_eq_self_iff.mpr unbound.symm]
    exact inv

theorem HopInv.clear (inv : HopInv MH m M) : HopInv MH m.clear (fun _ => none) := by
  unfold HopscotchMap.clear
  rw [if_neg inv.bmask_ne_zero]
  have free : ∀ i, i < m.bmask + 1 → cell { m with
      entries := fun i => if i < m.bmask + 1 then clearedNode else m.entries i
      length := 0 } i = none := by
    intro i below
    simp [cell, below, clearedNode]
  refine ⟨inv.power, inv.sized, inv.initialized, ?_, holds_empty free, ?_⟩
  · intro i below taken
    simp only [if_pos below, clearedNode] at taken
    exact absurd rfl taken
  · exact (load_eq_zero free).symm

end Lookup

/-! ## Runs -/

def HopOp.hashed {K : Type} (hash : K → UInt64) : HopOp K V → MapOp UInt64 V
  | .insert k value => .insert (hash k) value
  | .insertAsis hsh value => .insert hsh value
  | .erase k => .erase (hash k)
  | .clear => .clear

section Runs
variable {K : Type} [Inhabited V] {MH : Nat} {m : HopscotchMap V} {M : UInt64 → Option V}

/-- Every call that returns is a step of the first-insert map. -/
theorem HopInv.call (inv : HopInv MH m M) (hash : K → UInt64) (storage : Storage) (op : HopOp K V) :
    m.call MH hash storage op ≠ .error .depth ∧
      ∀ m', m.call MH hash storage op = .ok m' →
        HopInv MH m' fun key => MapOp.keepFirst key (M key) (op.hashed hash) := by
  have inserts : ∀ hsh value,
      (m.insertAsis MH storage hsh value).map Prod.fst ≠ .error .depth ∧
        ∀ m', (m.insertAsis MH storage hsh value).map Prod.fst = .ok m' →
          HopInv MH m' fun key => MapOp.keepFirst key (M key) (.insert hsh value) := by
    intro hsh value
    obtain ⟨deep, spec⟩ := inv.insertAsis storage hsh value
    rw [keepFirst_insert]
    cases inserted : m.insertAsis MH storage hsh value with
    | error e =>
      constructor
      · intro same
        cases same
        exact deep inserted
      · intro m' impossible
        cases impossible
    | ok result =>
      obtain ⟨m₁, v⟩ := result
      obtain ⟨rfl, inv₁⟩ := spec m₁ v inserted
      refine ⟨by simp [Except.map], ?_⟩
      intro m' same
      cases same
      exact inv₁
  cases op with
  | insert k value => exact inserts (hash k) value
  | insertAsis hsh value => exact inserts hsh value
  | erase k =>
    refine ⟨by simp [HopscotchMap.call], ?_⟩
    intro m' same
    cases same
    rw [HopOp.hashed, keepFirst_erase]
    exact inv.erase hash k
  | clear =>
    refine ⟨by simp [HopscotchMap.call], ?_⟩
    intro m' same
    cases same
    exact inv.clear

theorem HopInv.run (inv : HopInv MH m M) (hash : K → UInt64) (calls : List (Storage × HopOp K V)) :
    m.run MH hash calls ≠ .error .depth ∧
      ∀ m', m.run MH hash calls = .ok m' →
        HopInv MH m' fun key =>
          (calls.map fun call => call.2.hashed hash).foldl (MapOp.keepFirst key) (M key) := by
  induction calls generalizing m M with
  | nil =>
    refine ⟨by simp [HopscotchMap.run], ?_⟩
    intro m' same
    cases same
    exact inv
  | cons call rest ih =>
    obtain ⟨storage, op⟩ := call
    obtain ⟨deep, spec⟩ := inv.call hash storage op
    rw [HopscotchMap.run]
    cases called : m.call MH hash storage op with
    | error e =>
      constructor
      · intro same
        cases same
        exact deep called
      · intro m' impossible
        cases impossible
    | ok m₁ => exact ih (spec m₁ called)

omit [Inhabited V] in
theorem HopInv.distinct (inv : HopInv MH m M) {i j : Nat} (belowI : i < m.bmask + 1)
    (belowJ : j < m.bmask + 1) (taken : (m.entries i).key ≠ 0)
    (same : (m.entries i).key = (m.entries j).key) : i = j :=
  inv.held.single i j _ _ _ belowI belowJ (cell_eq_some_iff.mpr ⟨taken, rfl, rfl⟩)
    (cell_eq_some_iff.mpr ⟨taken, same.symm, rfl⟩)

theorem hopInv_construct (MH : Nat) {storage : Storage} {nodeBytes n : Nat}
    (constructed : construct storage nodeBytes n = .ok m) : HopInv MH m (fun _ => none) := by
  obtain ⟨b, big, rounded, _⟩ :=
    roundPow2_spec (if n / nodeBytes < minSize then minSize else n / nodeBytes)
  exact (allocate_ok MH big rounded constructed).1

end Runs

/-- Every run from a constructed map that does not throw: each stored hash lies
in its window of `MH + 1` slots, no hash is stored twice, `length` counts the
occupied slots, and `find` gives the value of the first insert of the hash
since its last erase.  No run is cut short by the depth bound of the model. -/
theorem hopscotch_map_keeps_first_insert {K : Type} [Inhabited V] (MH : Nat) (hash : K → UInt64)
    (storage : Storage) (nodeBytes n : Nat) (initial : HopscotchMap V)
    (constructed : construct storage nodeBytes n = .ok initial)
    (calls : List (Storage × HopOp K V)) :
    initial.run MH hash calls ≠ .error .depth ∧
      ∀ m, initial.run MH hash calls = .ok m →
        (∀ i, i < m.bmask + 1 → (m.entries i).key ≠ 0 →
          ∃ j, j ≤ MH ∧ (m.home (m.entries i).key + j) &&& m.bmask = i) ∧
        (∀ i j, i < m.bmask + 1 → j < m.bmask + 1 → (m.entries i).key ≠ 0 →
          (m.entries i).key = (m.entries j).key → i = j) ∧
        m.length = Nat.count (fun i => (m.entries i).key ≠ 0) (m.bmask + 1) ∧
        ∀ k, m.find MH hash k =
          keepFirstRun (calls.map fun call => call.2.hashed hash) (hash k) := by
  have initialInv := hopInv_construct MH constructed
  obtain ⟨deep, spec⟩ := initialInv.run hash calls
  refine ⟨deep, ?_⟩
  intro m ran
  have inv := spec m ran
  refine ⟨?_, ?_, ?_, ?_⟩
  · intro i below taken
    obtain ⟨j, inWindow, reaches⟩ := inv.near i below taken
    exact ⟨j, inWindow, by rw [inv.masked]; exact reaches⟩
  · intro i j belowI belowJ taken same
    exact inv.distinct belowI belowJ taken same
  · rw [inv.counted, load, count_eq_card_filter_range]
    congr 1
    apply Finset.filter_congr
    intro i _
    rw [Option.isSome_iff_ne_none, ne_eq, cell_eq_none_iff]
  · intro k
    exact inv.find_eq hash k

def exactStorage : Storage where
  capacity n := if n < 2 ^ 60 then some n else none
  serves n c granted := by
    split at granted
    · cases granted
      omega
    · cases granted

/-- Inserts of which, with windows of three slots, the fourth displaces the
third; then an erase and a repeated insert. -/
def displacingCalls : List (Storage × HopOp UInt64 Nat) :=
  [(exactStorage, .insert 39 1), (exactStorage, .insert 45 2), (exactStorage, .insert 32 3),
    (exactStorage, .insertAsis 151 4), (exactStorage, .erase 45), (exactStorage, .insert 39 9)]

theorem hopscotch_map_keeps_first_insert_displaced :
    ∃ initial m : HopscotchMap Nat, construct exactStorage 16 0 = .ok initial ∧
      initial.run 2 id displacingCalls = .ok m ∧
      (m.entries 6).key = 32 ∧ (m.entries 5).key = 151 ∧
      m.find 2 id 39 = some 1 ∧ m.find 2 id 45 = none ∧ m.find 2 id 151 = some 4 := by
  obtain ⟨initial, constructed⟩ : ∃ initial : HopscotchMap Nat,
      construct exactStorage 16 0 = .ok initial := ⟨_, rfl⟩
  have slots : (initial.run 2 id displacingCalls).map
      (fun m => ((m.entries 6).key, (m.entries 5).key)) = .ok (32, 151) := by
    cases constructed
    decide +kernel
  obtain ⟨_, spec⟩ := hopscotch_map_keeps_first_insert 2 id exactStorage 16 0 initial
    constructed displacingCalls
  cases ran : initial.run 2 id displacingCalls with
  | error e =>
    rw [ran] at slots
    cases slots
  | ok m =>
    rw [ran] at slots
    simp only [Except.map, Except.ok.injEq, Prod.mk.injEq] at slots
    obtain ⟨_, _, _, lookups⟩ := spec m ran
    refine ⟨initial, m, constructed, ran, slots.1, slots.2, ?_⟩
    rw [lookups, lookups, lookups]
    decide

end Micron.Hopscotch
