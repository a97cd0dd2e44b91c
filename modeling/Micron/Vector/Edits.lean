import Micron.Lib.Counter

/-!
# Checked edits of `pvector`

`pvector` is a trie of fixed height with a size beside it.  The edits that take a count
check it against the capacity first, then move elements one by one in loops over words, and
give the new vector a size that is a word again.  The vectors here are those with checks.
-/

set_option autoImplicit false

namespace Micron.Vector

open Micron.Lib Function Nat Option

/-- `B` is two to the `K`, the height is `H`. -/
structure Shape where
  K : Nat
  H : Nat
  admits : 0 < K ∧ K ≤ 6 ∧ 0 < H ∧ H ≤ 8

def cpow (base exp : Nat) : Nat := (fun r => word (r * base))^[exp] 1

def Shape.B (shape : Shape) : Nat := 1 <<< shape.K

def Shape.mask (shape : Shape) : Nat := shape.B - 1

def Shape.capacity (shape : Shape) : Nat := cpow shape.B shape.H

def Shape.slot (shape : Shape) (l idx : Nat) : Nat := (idx >>> (l * shape.K)) &&& shape.mask

theorem Shape.capacity_lt (shape : Shape) : shape.capacity < 2 ^ 64 := by
  rw [Shape.capacity, cpow]
  cases shape.H with
  | zero => exact Nat.one_lt_two_pow (by decide)
  | succ exp =>
    rw [Function.iterate_succ_apply']
    exact word_lt _

/-- A node `l` levels above the leaves. -/
inductive Tree (α : Type) : Nat → Type where
  | null {l : Nat} : Tree α l
  | leaf (values : Nat → α) : Tree α 0
  | node {l : Nat} (children : Nat → Tree α l) : Tree α (l + 1)

/-- No operation leaves more elements than the trie has room for. -/
structure Pvector (α : Type) (shape : Shape) where
  root : Tree α (shape.H - 1)
  size : Nat
  fits : size ≤ shape.capacity

section Model
variable {α : Type} {shape : Shape}

def Pvector.empty : Pvector α shape := ⟨.null, 0, zero_le _⟩

theorem Pvector.size_lt (v : Pvector α shape) : v.size < 2 ^ 64 :=
  lt_of_le_of_lt v.fits shape.capacity_lt

def Pvector.rangeCheck (v : Pvector α shape) (start stop : Nat) : Bool :=
  decide (start ≥ stop ∨ stop > v.size)

def Pvector.insertPosCheck (v : Pvector α shape) (pos : Nat) : Bool := decide (pos > v.size)

def Pvector.overflowCheck (v : Pvector α shape) (add : Nat) : Bool :=
  decide (word (v.size + add) > shape.capacity)

theorem Pvector.not_rangeCheck {v : Pvector α shape} {start stop : Nat}
    (range : ¬ v.rangeCheck start stop = true) : start < stop ∧ stop ≤ v.size := by
  rw [rangeCheck, decide_eq_true_iff] at range
  omega

/-- A sum that wraps around is below the size, so the check lets it through. -/
theorem Pvector.overflowCheck_iff (v : Pvector α shape) {add : Nat} (small : add < 2 ^ 64) :
    v.overflowCheck add = true ↔ v.size + add < 2 ^ 64 ∧ v.size + add > shape.capacity := by
  have fits := v.fits
  rw [overflowCheck, decide_eq_true_iff, word]
  omega

theorem Pvector.not_overflowCheck {v : Pvector α shape} {add : Nat}
    (full : ¬ v.overflowCheck add = true) : word (v.size + add) ≤ shape.capacity := by
  rw [overflowCheck, decide_eq_true_iff] at full
  exact Nat.le_of_not_lt full

theorem Pvector.erased (v : Pvector α shape) {start stop : Nat} (less : start < stop)
    (inside : stop ≤ v.size) : wordSub v.size (wordSub stop start) = v.size - (stop - start) := by
  have small := v.size_lt
  rw [wordSub_of_le (le_of_lt less) (by omega), wordSub_of_le (by omega) small]

/-- `for ( i; i < stop; ++i )`, where a turn puts the next root in place. -/
def sweep (stop : Nat) (body : Tree α (shape.H - 1) → Nat → Tree α (shape.H - 1)) :
    Nat → Tree α (shape.H - 1) → Nat → Option (Tree α (shape.H - 1))
  | 0, _, _ => none
  | turns + 1, root, i =>
    if i < stop then sweep stop body turns (body root i) (word (i + 1)) else some root

theorem sweep_ends {stop : Nat} (small : stop < 2 ^ 64)
    (body : Tree α (shape.H - 1) → Nat → Tree α (shape.H - 1)) :
    ∀ (turns i : Nat) (root : Tree α (shape.H - 1)), stop - i < turns →
    ∃ after, sweep stop body turns root i = some after
  | 0, _, _, enough => absurd enough (not_lt_zero _)
  | turns + 1, i, root, enough => by
    rw [sweep]
    by_cases more : i < stop
    · rw [if_pos more, word_of_lt (by omega)]
      exact sweep_ends small body turns (i + 1) _ (by omega)
    · exact ⟨root, if_neg more⟩

/-- With enough turns for its loops a call raises exactly where it has to, and what it
returns otherwise has `size` elements. -/
def Exact (call : Nat → Option (Except String (Pvector α shape))) (bad : Prop) (size : Nat) :
    Prop :=
  ∃ least, ∀ turns, least ≤ turns → ∃ result, call turns = some result ∧
    match result with
    | .error _ => bad
    | .ok after => ¬ bad ∧ after.size = size

theorem Exact.of_ok {call : Nat → Option (Except String (Pvector α shape))} {bad : Prop}
    {size least : Nat} (right : ¬ bad)
    (ends : ∀ turns, least < turns → ∃ after, call turns = some (.ok after) ∧ after.size = size) :
    Exact call bad size := by
  refine ⟨least + 1, fun turns enough => ?_⟩
  obtain ⟨after, returned, long⟩ := ends turns enough
  exact ⟨.ok after, returned, right, long⟩

theorem Exact.of_error {call : Nat → Option (Except String (Pvector α shape))} {bad : Prop}
    {size : Nat} (message : String) (wrong : bad)
    (raises : ∀ turns, call turns = some (.error message)) : Exact call bad size :=
  ⟨0, fun turns _ => ⟨.error message, raises turns, wrong⟩⟩

/-- A call that should raise and cannot is not exact, whether it returns or not. -/
theorem Exact.raises {call : Nat → Option (Except String (Pvector α shape))} {bad : Prop}
    {size : Nat} (exact : Exact call bad size) (wrong : bad) :
    ∃ turns message, call turns = some (.error message) := by
  obtain ⟨least, right⟩ := exact
  obtain ⟨result, returned, fine⟩ := right least (le_refl _)
  cases result with
  | error message => exact ⟨least, message, returned⟩
  | ok after => exact absurd wrong fine.1

variable [Inhabited α]

def getImpl (shape : Shape) : {l : Nat} → Tree α l → Nat → α
  | _, .null, _ => default
  | _, .leaf values, idx => values (idx &&& shape.mask)
  | l + 1, .node children, idx => getImpl shape (children (shape.slot (l + 1) idx)) idx

def setImpl (shape : Shape) : {l : Nat} → Tree α l → Nat → α → Tree α l
  | 0, .null, idx, val => .leaf (update (fun _ => default) (idx &&& shape.mask) val)
  | 0, .leaf values, idx, val => .leaf (update values (idx &&& shape.mask) val)
  | l + 1, .null, idx, val =>
    .node (update (fun _ => .null) (shape.slot (l + 1) idx)
      (setImpl shape .null idx val))
  | l + 1, .node children, idx, val =>
    .node (update children (shape.slot (l + 1) idx)
      (setImpl shape (children (shape.slot (l + 1) idx)) idx val))

/-- `for ( i; i >= stop; --i )`, the elements moved up by `cnt`. -/
def shiftUp (shape : Shape) (cnt stop : Nat) :
    Nat → Tree α (shape.H - 1) → Nat → Option (Tree α (shape.H - 1))
  | 0, _, _ => none
  | turns + 1, root, i =>
    if i ≥ stop then
      shiftUp shape cnt stop turns (setImpl shape root i (getImpl shape root (wordSub i cnt)))
        (wordSub i 1)
    else some root

theorem shiftUp_ends (cnt : Nat) {stop : Nat} (pos : 0 < stop) : ∀ (turns i : Nat)
    (root : Tree α (shape.H - 1)), i < 2 ^ 64 → i < turns →
    ∃ after, shiftUp shape cnt stop turns root i = some after
  | 0, _, _, _, enough => absurd enough (not_lt_zero _)
  | turns + 1, i, root, small, enough => by
    rw [shiftUp]
    by_cases more : i ≥ stop
    · have down : wordSub i 1 = i - 1 := wordSub_of_le (le_trans pos more) small
      rw [if_pos more, down]
      exact shiftUp_ends cnt pos turns (i - 1) _ (by omega) (by omega)
    · exact ⟨root, if_neg more⟩

/-- `insert(pos, val, cnt)`, with each of its loops for at most `turns` turns. -/
def Pvector.insert (v : Pvector α shape) (turns pos : Nat) (val : α) (cnt : Nat) :
    Option (Except String (Pvector α shape)) :=
  if full : v.overflowCheck cnt = true then
    some (.error "micron::pvector insert() capacity exceeded")
  else if v.insertPosCheck pos = true then
    some (.error "micron::pvector insert() position out of bounds")
  else if cnt = 0 then some (.ok v)
  else do
    let root ← shiftUp shape cnt (word (pos + cnt)) turns v.root
      (wordSub (word (v.size + cnt)) 1)
    let root ← sweep (word (pos + cnt)) (fun root i => setImpl shape root i val) turns root pos
    some (.ok ⟨root, word (v.size + cnt), not_overflowCheck full⟩)

def Pvector.erase (v : Pvector α shape) (turns start stop : Nat) :
    Option (Except String (Pvector α shape)) :=
  if range : v.rangeCheck start stop = true then
    some (.error "micron::pvector erase() invalid range")
  else do
    let cnt := wordSub stop start
    let root ← sweep (wordSub v.size cnt)
      (fun root i => setImpl shape root i (getImpl shape root (word (i + cnt)))) turns v.root start
    let root ← sweep v.size (fun root i => setImpl shape root i default) turns root
      (wordSub v.size cnt)
    some (.ok ⟨root, wordSub v.size cnt, by
      have inside := not_rangeCheck range
      rw [v.erased inside.1 inside.2]
      exact le_trans (sub_le _ _) v.fits⟩)

def Pvector.append (v : Pvector α shape) (turns : Nat) (data : Nat → α) (count : Nat) :
    Option (Except String (Pvector α shape)) :=
  if full : v.overflowCheck count = true then
    some (.error "micron::pvector append() exceeds capacity")
  else do
    let root ← sweep count (fun root i => setImpl shape root (word (v.size + i)) (data i)) turns
      v.root 0
    some (.ok ⟨root, word (v.size + count), not_overflowCheck full⟩)

section Ends
variable {v : Pvector α shape} {turns : Nat}

/-- Where no sum wraps around the loops of `insert` end. -/
theorem Pvector.insert_ends {pos cnt : Nat} (full : ¬ v.overflowCheck cnt = true)
    (inside : pos ≤ v.size) (plain : v.size + cnt < 2 ^ 64) (val : α)
    (enough : v.size + cnt < turns) :
    ∃ after, v.insert turns pos val cnt = some (.ok after) ∧ after.size = v.size + cnt := by
  have allowed : ¬ v.insertPosCheck pos = true := by
    rw [insertPosCheck, decide_eq_true_iff]
    omega
  rw [insert, dif_neg full, if_neg allowed]
  by_cases none : cnt = 0
  · rw [if_pos none]
    exact ⟨v, rfl, by rw [none, add_zero]⟩
  · have last : wordSub (word (v.size + cnt)) 1 = v.size + cnt - 1 := by
      rw [word_of_lt plain]
      exact wordSub_of_le (by omega) plain
    have stop : word (pos + cnt) = pos + cnt := word_of_lt (by omega)
    obtain ⟨moved, first⟩ := @shiftUp_ends _ shape _ cnt _ (by omega : 0 < pos + cnt) turns
      (v.size + cnt - 1) v.root (by omega) (by omega)
    obtain ⟨filled, second⟩ := @sweep_ends _ shape _ (by omega : pos + cnt < 2 ^ 64)
      (fun root i => setImpl shape root i val) turns pos moved (by omega)
    rw [if_neg none, last, stop, first]
    simp only [bind_eq_bind, bind_some, second]
    exact ⟨_, rfl, word_of_lt plain⟩

/-- Where the sum wraps around neither loop may have anything to do. -/
theorem Pvector.insert_idle {pos cnt : Nat} (full : ¬ v.overflowCheck cnt = true)
    (inside : ¬ v.insertPosCheck pos = true) (counts : ¬ cnt = 0)
    (above : ¬ wordSub (word (v.size + cnt)) 1 ≥ word (pos + cnt))
    (below : ¬ pos < word (pos + cnt)) (val : α) :
    v.insert 1 pos val cnt =
      some (.ok ⟨v.root, word (v.size + cnt), not_overflowCheck full⟩) := by
  rw [insert, dif_neg full, if_neg inside, if_neg counts, shiftUp, if_neg above]
  simp only [bind_eq_bind, bind_some]
  rw [sweep, if_neg below]
  rfl

theorem Pvector.erase_ends {start stop : Nat} (range : ¬ v.rangeCheck start stop = true)
    (enough : v.size < turns) :
    ∃ after, v.erase turns start stop = some (.ok after) ∧
      after.size = v.size - (stop - start) := by
  obtain ⟨less, inside⟩ := not_rangeCheck range
  have size := v.erased less inside
  have limit := v.size_lt
  have small : wordSub v.size (wordSub stop start) < 2 ^ 64 := word_lt _
  obtain ⟨moved, first⟩ := @sweep_ends _ shape _ small (fun root i => setImpl shape root i (getImpl shape root (word (i + wordSub stop start))))
    turns start v.root (by omega)
  obtain ⟨cleared, second⟩ := @sweep_ends _ shape _ limit
    (fun root i => setImpl shape root i default) turns (wordSub v.size (wordSub stop start)) moved
    (by omega)
  rw [erase, dif_neg range]
  dsimp only
  rw [first]
  simp only [bind_eq_bind, bind_some]
  rw [second]
  exact ⟨_, rfl, size⟩

theorem Pvector.append_ends {count : Nat} (full : ¬ v.overflowCheck count = true)
    (plain : v.size + count < 2 ^ 64) (data : Nat → α) (enough : count < turns) :
    ∃ after, v.append turns data count = some (.ok after) ∧ after.size = v.size + count := by
  obtain ⟨root, loop⟩ := @sweep_ends _ shape _ (by omega : count < 2 ^ 64)
    (fun root i => setImpl shape root (word (v.size + i)) (data i)) turns 0 v.root (by omega)
  rw [append, dif_neg full, loop]
  exact ⟨_, rfl, word_of_lt plain⟩

end Ends

/-! ## What is rejected -/

def Pvector.InsertExact (v : Pvector α shape) (pos : Nat) (val : α) (cnt : Nat) : Prop :=
  Exact (fun turns => v.insert turns pos val cnt)
    (pos > v.size ∨ v.size + cnt > shape.capacity) (v.size + cnt)

def Pvector.EraseExact (v : Pvector α shape) (start stop : Nat) : Prop :=
  Exact (fun turns => v.erase turns start stop) (start ≥ stop ∨ stop > v.size)
    (v.size - (stop - start))

def Pvector.AppendExact (v : Pvector α shape) (data : Nat → α) (count : Nat) : Prop :=
  Exact (fun turns => v.append turns data count) (v.size + count > shape.capacity)
    (v.size + count)

section Checks
variable (v : Pvector α shape)

theorem Pvector.eraseExact (start stop : Nat) : v.EraseExact start stop := by
  by_cases range : v.rangeCheck start stop = true
  · exact .of_error _ (of_decide_eq_true range) fun turns => dif_pos range
  · refine .of_ok ?_ fun turns => erase_ends range
    have := not_rangeCheck range
    omega

theorem Pvector.appendExact_iff (data : Nat → α) {count : Nat} (small : count < 2 ^ 64) :
    v.AppendExact data count ↔ v.size + count < 2 ^ 64 := by
  have check := v.overflowCheck_iff small
  have limit := shape.capacity_lt
  by_cases full : v.overflowCheck count = true
  · obtain ⟨plain, wrong⟩ := check.mp full
    exact iff_of_true (.of_error _ wrong fun turns => dif_pos full) plain
  · constructor
    · intro exact
      by_contra wraps
      obtain ⟨turns, message, raised⟩ := exact.raises (by omega)
      rw [append, dif_neg full, bind_eq_bind, bind_eq_some_iff] at raised
      obtain ⟨root, -, returned⟩ := raised
      exact nomatch returned
    · intro plain
      exact .of_ok (fun wrong => full (check.mpr ⟨plain, wrong⟩))
        fun turns => append_ends full plain data

theorem Pvector.insertExact_iff (pos : Nat) (val : α) {cnt : Nat} (small : cnt < 2 ^ 64) :
    v.InsertExact pos val cnt ↔ v.size + cnt < 2 ^ 64 ∨ pos > v.size := by
  have check := v.overflowCheck_iff small
  have limit := v.size_lt
  have room := shape.capacity_lt
  by_cases full : v.overflowCheck cnt = true
  · obtain ⟨plain, wrong⟩ := check.mp full
    exact iff_of_true (.of_error _ (.inr wrong) fun turns => dif_pos full) (.inl plain)
  · by_cases outside : v.insertPosCheck pos = true
    · have beyond : pos > v.size := of_decide_eq_true outside
      exact iff_of_true (.of_error _ (.inl beyond)
        fun turns => (dif_neg full).trans (if_pos outside)) (.inr beyond)
    · have inside : ¬ pos > v.size := fun beyond => outside (decide_eq_true beyond)
      constructor
      · intro exact
        by_contra wraps
        obtain ⟨turns, message, raised⟩ := exact.raises (by omega)
        rw [insert, dif_neg full, if_neg outside, if_neg (by omega : ¬ cnt = 0)] at raised
        simp only [bind_eq_bind, bind_eq_some_iff] at raised
        obtain ⟨root, -, returned⟩ := raised
        exact nomatch returned
      · rintro (plain | beyond)
        · have fits : ¬ v.size + cnt > shape.capacity :=
            fun wrong => full (check.mpr ⟨plain, wrong⟩)
          exact .of_ok (by omega) fun turns => insert_ends full (by omega) plain val
        · exact absurd beyond inside

end Checks

/-- The checked edits reject exactly what is too large, but for an insert or an append whose
count wraps the size around. -/
theorem edits_exact (v : Pvector α shape) (val : α) (data : Nat → α) (pos cnt start stop : Nat)
    (small : cnt < 2 ^ 64) :
    (v.InsertExact pos val cnt ↔ v.size + cnt < 2 ^ 64 ∨ pos > v.size) ∧
    (v.AppendExact data cnt ↔ v.size + cnt < 2 ^ 64) ∧ v.EraseExact start stop :=
  ⟨v.insertExact_iff pos val small, v.appendExact_iff data small, v.eraseExact start stop⟩

end Model

/-- `K` is 5 and `H` is 3, as by default. -/
def Shape.standard : Shape := ⟨5, 3, by decide⟩

theorem edits_exact_five :
    ∃ v : Pvector Nat .standard, Pvector.empty.insert 6 0 7 5 = some (.ok v) ∧
      v.InsertExact 5 9 3 ∧ v.AppendExact (fun i => i) 40000 ∧ v.EraseExact 2 (2 ^ 63) := by
  have made : ∃ v : Pvector Nat .standard, Pvector.empty.insert 6 0 7 5 = some (.ok v) ∧
      v.size = 0 + 5 :=
    Pvector.insert_ends (by decide) (le_refl 0) (by decide) 7 (by decide)
  obtain ⟨v, made, five⟩ := made
  have exact := edits_exact v 9 (fun i => i) 5
  exact ⟨v, made, (exact 3 2 (2 ^ 63) (by decide)).1.mpr (.inl (by rw [five]; decide)),
    (exact 40000 2 (2 ^ 63) (by decide)).2.1.mpr (by rw [five]; decide),
    (exact 3 2 (2 ^ 63) (by decide)).2.2⟩

/-- Five elements and as many more as wrap the size around to three. -/
theorem wrapping_edits_accepted :
    ∃ v w : Pvector Nat .standard, Pvector.empty.insert 6 0 7 5 = some (.ok v) ∧ v.size = 5 ∧
      v.insert 1 5 9 (2 ^ 64 - 2) = some (.ok w) ∧ w.size = 3 ∧
      ¬ v.InsertExact 5 9 (2 ^ 64 - 2) ∧ ¬ v.AppendExact (fun i => i) (2 ^ 64 - 2) := by
  have made : ∃ v : Pvector Nat .standard, Pvector.empty.insert 6 0 7 5 = some (.ok v) ∧
      v.size = 0 + 5 :=
    Pvector.insert_ends (by decide) (le_refl 0) (by decide) 7 (by decide)
  obtain ⟨v, made, five⟩ := made
  have full : ¬ v.overflowCheck (2 ^ 64 - 2) = true := by
    rw [v.overflowCheck_iff (by decide), five]
    decide
  have inside : ¬ v.insertPosCheck 5 = true := by
    rw [Pvector.insertPosCheck, five]
    decide
  refine ⟨v, ⟨v.root, word (v.size + (2 ^ 64 - 2)), Pvector.not_overflowCheck full⟩, made, five,
    ?_, ?_, ?_, ?_⟩
  · have counts : ¬ 2 ^ 64 - 2 = 0 := by decide
    have above : ¬ wordSub (word (v.size + (2 ^ 64 - 2))) 1 ≥ word (5 + (2 ^ 64 - 2)) := by
      rw [five]
      decide
    have below : ¬ 5 < word (5 + (2 ^ 64 - 2)) := by decide
    exact Pvector.insert_idle full inside counts above below 9
  · dsimp only
    rw [five]
    decide
  · rw [Pvector.insertExact_iff _ _ _ (by decide), five]
    decide
  · rw [Pvector.appendExact_iff _ _ (by decide), five]
    decide

end Micron.Vector
