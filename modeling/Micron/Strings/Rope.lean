import Micron.Lib.Counter

/-!
# Ropes

`rope` is a persistent string: a binary tree of leaves with a length in every node, and a
length of the whole beside the root.  Nodes are shared and never change, so trees are values
here.  Lengths are words; what a leaf holds is in memory and shorter than that.
-/

set_option autoImplicit false

namespace Micron.Strings

open Micron.Lib List

def npos : Nat := 2 ^ 64 - 1

def maxLeaf : Nat := 256

def ssizeMax : Nat := 2 ^ 63 - 1

inductive Node (α : Type) where
  | leaf (length : Nat) (data : List α)
  | branch (length : Nat) (left right : Node α)

section Nodes
variable {α : Type}

def Node.length : Node α → Nat
  | .leaf length _ => length
  | .branch length _ _ => length

def makeLeaf (data : List α) (len : Nat) : Node α := .leaf len (data.take len)

def makeLeafFill (ch : α) (len : Nat) : Node α := .leaf len (List.replicate len ch)

def makeBranch (l r : Node α) : Node α := .branch (word (l.length + r.length)) l r

/-- `__build_balanced` where there is something to build from. -/
def balanced (data : List α) (len : Nat) : Node α :=
  if len ≤ maxLeaf then makeLeaf data len
  else makeBranch (balanced data (len / 2)) (balanced (data.drop (len / 2)) (len - len / 2))
termination_by len
decreasing_by all_goals rename_i long; simp only [maxLeaf] at long; omega

def buildBalanced (data : List α) (len : Nat) : Option (Node α) :=
  if len = 0 then none else some (balanced data len)

def filled (ch : α) (len : Nat) : Node α :=
  if len ≤ maxLeaf then makeLeafFill ch len
  else makeBranch (filled ch (len / 2)) (filled ch (len - len / 2))
termination_by len
decreasing_by all_goals rename_i long; simp only [maxLeaf] at long; omega

def buildFill (ch : α) (len : Nat) : Option (Node α) :=
  if len = 0 then none else some (filled ch len)

/-- Two small leaves become one. -/
def join : Node α → Node α → Node α
  | .leaf len data, .leaf len' data' =>
    if len + len' ≤ maxLeaf then .leaf (len + len') (data ++ data')
    else makeBranch (.leaf len data) (.leaf len' data')
  | l, r => makeBranch l r

def concat : Option (Node α) → Option (Node α) → Option (Node α)
  | none, r => r
  | l, none => l
  | some l, some r => some (join l r)

/-- A branch passed on the way down, by its other child and whether the way went left. -/
structure Frame (α : Type) where
  other : Node α
  wentLeft : Bool

/-- The way down of `__split`. -/
def splitDown : Node α → Nat → List (Frame α) →
    (Option (Node α) × Option (Node α)) × List (Frame α)
  | .leaf len data, idx, frames =>
    if idx = 0 then ((none, some (.leaf len data)), frames)
    else if idx ≥ len then ((some (.leaf len data), none), frames)
    else ((some (makeLeaf data idx), some (makeLeaf (data.drop idx) (len - idx))), frames)
  | .branch len left right, idx, frames =>
    if idx = 0 then ((none, some (.branch len left right)), frames)
    else if idx ≥ len then ((some (.branch len left right), none), frames)
    else if idx < left.length then splitDown left idx (⟨right, true⟩ :: frames)
    else if idx > left.length then
      splitDown right (idx - left.length) (⟨left, false⟩ :: frames)
    else ((some left, some right), frames)

def unwind : List (Frame α) → Option (Node α) × Option (Node α) →
    Option (Node α) × Option (Node α)
  | [], halves => halves
  | f :: frames, (L, R) =>
    if f.wentLeft then unwind frames (L, concat R (some f.other))
    else unwind frames (concat (some f.other) L, R)

def split (n : Option (Node α)) (idx : Nat) : Option (Node α) × Option (Node α) :=
  match n with
  | none => (none, none)
  | some n => unwind (splitDown n idx []).2 (splitDown n idx []).1

def charAt : Node α → Nat → Option α
  | .leaf _ data, idx => data[idx]?
  | .branch _ left right, idx =>
    if idx < left.length then charAt left idx else charAt right (idx - left.length)

/-- `__push_back_impl` below a node. -/
def pushBackNode (ch : α) : Node α → Node α
  | .leaf len data =>
    if len < maxLeaf then .leaf (len + 1) (data ++ [ch])
    else makeBranch (.leaf len data) (makeLeaf [ch] 1)
  | .branch _ left right => makeBranch left (pushBackNode ch right)

def pushBackImpl : Option (Node α) → α → Node α
  | none, ch => makeLeaf [ch] 1
  | some n, ch => pushBackNode ch n

end Nodes

structure Rope (α : Type) where
  root : Option (Node α)
  length : Nat

section Ropes
variable {α : Type}

def Rope.indexCheck (r : Rope α) (n : Nat) : Bool := decide (n ≥ r.length)

def Rope.emptyCheck (r : Rope α) : Bool := decide (r.length = 0) || r.root.isNone

def validCnt (cnt : Nat) : Bool := decide (cnt > ssizeMax)

def Rope.rangePosCnt (r : Rope α) (pos cnt : Nat) : Bool :=
  decide (pos > r.length ∨ word (pos + cnt) > r.length)

def Rope.eraseCheck (r : Rope α) (ind cnt : Nat) : Bool :=
  decide (ind > r.length ∨ cnt > r.length - ind)

def Rope.empty : Rope α := ⟨none, 0⟩

/-- The constructors from text that is there, and `flatten`. -/
def Rope.ofData (data : List α) : Rope α := ⟨buildBalanced data data.length, data.length⟩

def Rope.ofFill (cnt : Nat) (ch : α) : Rope α := ⟨buildFill ch cnt, cnt⟩

/-- A character is read out of a node; none is there where the source reads past a leaf. -/
def Rope.at (r : Rope α) (n : Nat) : Except String (Option α) :=
  if r.indexCheck n then .error "micron::rope at() out of range"
  else .ok (r.root.bind (charAt · n))

def Rope.back (r : Rope α) : Except String (Option α) :=
  if r.emptyCheck then .error "micron::rope back() on empty rope"
  else .ok (r.root.bind (charAt · (r.length - 1)))

def Rope.pushBack (r : Rope α) (ch : α) : Rope α :=
  ⟨some (pushBackImpl r.root ch), word (r.length + 1)⟩

/-- `push_back` of a literal, which becomes one leaf. -/
def Rope.pushBackStr (r : Rope α) (str : List α) : Rope α :=
  if str.length = 0 then r
  else ⟨concat r.root (some (makeLeaf str str.length)), word (r.length + str.length)⟩

def Rope.append (r o : Rope α) : Rope α :=
  if o.length = 0 then r else ⟨concat r.root o.root, word (r.length + o.length)⟩

def Rope.appendData (r : Rope α) (data : List α) : Rope α :=
  if data.length = 0 then r
  else ⟨concat r.root (buildBalanced data data.length), word (r.length + data.length)⟩

def Rope.popBack (r : Rope α) : Rope α :=
  if r.length = 0 then .empty else ⟨(split r.root (r.length - 1)).1, r.length - 1⟩

/-- What the overloads of `insert` do once the text to insert is a tree. -/
def Rope.insertNode (r : Rope α) (ind : Nat) (payload : Option (Node α)) (total : Nat) : Rope α :=
  let halves := split r.root ind
  ⟨concat (concat halves.1 payload) halves.2, word (r.length + total)⟩

def Rope.insertFill (r : Rope α) (ind : Nat) (ch : α) (cnt : Nat) : Except String (Rope α) :=
  if validCnt cnt then .error "micron::rope insert() invalid count"
  else .ok (r.insertNode ind (buildFill ch cnt) cnt)

/-- `payload ? __concat(payload, seg) : seg`, `cnt` times. -/
def repeated (str : List α) : Nat → Option (Node α)
  | 0 => none
  | cnt + 1 => concat (repeated str cnt) (some (makeLeaf str str.length))

def Rope.insertStr (r : Rope α) (ind : Nat) (str : List α) (cnt : Nat) : Except String (Rope α) :=
  if validCnt cnt then .error "micron::rope insert() invalid count"
  else if str.length ≠ 0 ∧ cnt > npos / str.length then
    .error "micron::rope insert() size overflow"
  else if str.length * cnt = 0 then .ok r
  else .ok (r.insertNode ind (repeated str cnt) (str.length * cnt))

def Rope.insert (r : Rope α) (ind : Nat) (o : Rope α) : Rope α :=
  if o.length = 0 then r else r.insertNode ind o.root o.length

def Rope.insertData (r : Rope α) (ind : Nat) (data : List α) : Rope α :=
  if data.length = 0 then r else r.insertNode ind (buildBalanced data data.length) data.length

def Rope.erase (r : Rope α) (ind cnt : Nat) : Except String (Rope α) :=
  if validCnt cnt then .error "micron::rope erase() invalid count"
  else if r.eraseCheck ind cnt then .error "micron::rope erase() out of range"
  else if cnt = 0 then .ok r
  else
    let first := split r.root ind
    let second := split first.2 cnt
    .ok ⟨concat first.1 second.2, r.length - cnt⟩

def Rope.substr (r : Rope α) (pos cnt : Nat) : Except String (Rope α) :=
  let cnt := if cnt = npos then if pos ≤ r.length then r.length - pos else 0 else cnt
  if r.rangePosCnt pos cnt then .error "micron::rope substr() invalid range"
  else if pos = 0 ∧ cnt = r.length then .ok r
  else .ok ⟨(split (split r.root pos).2 cnt).1, cnt⟩

def Rope.truncate (r : Rope α) (idx : Nat) : Rope α :=
  if idx ≥ r.length then r else ⟨(split r.root idx).1, idx⟩

def Rope.resize (r : Rope α) (n : Nat) (ch : α) : Rope α :=
  if n ≤ r.length then r.truncate n
  else ⟨concat r.root (buildFill ch (n - r.length)), n⟩

/-! ## Runs -/

/-- The ropes of the runs in which no rope grows to `2 ^ 64` characters and no sum of a
position and a count wraps around in `substr`. -/
inductive Reached : Rope α → Prop where
  | empty : Reached .empty
  | ofData (data : List α) (fits : data.length < 2 ^ 64) : Reached (.ofData data)
  | ofFill (cnt : Nat) (ch : α) (fits : cnt < 2 ^ 64) : Reached (.ofFill cnt ch)
  | pushBack {r : Rope α} (before : Reached r) (ch : α) (fits : r.length + 1 < 2 ^ 64) :
      Reached (r.pushBack ch)
  | pushBackStr {r : Rope α} (before : Reached r) (str : List α)
      (fits : r.length + str.length < 2 ^ 64) : Reached (r.pushBackStr str)
  | append {r o : Rope α} (before : Reached r) (other : Reached o)
      (fits : r.length + o.length < 2 ^ 64) : Reached (r.append o)
  | appendData {r : Rope α} (before : Reached r) (data : List α)
      (fits : r.length + data.length < 2 ^ 64) : Reached (r.appendData data)
  | popBack {r : Rope α} (before : Reached r) : Reached r.popBack
  | insertFill {r next : Rope α} (before : Reached r) (ind : Nat) (ch : α) (cnt : Nat)
      (fits : r.length + cnt < 2 ^ 64) (returned : r.insertFill ind ch cnt = .ok next) :
      Reached next
  | insertStr {r next : Rope α} (before : Reached r) (ind : Nat) (str : List α) (cnt : Nat)
      (fits : r.length + str.length * cnt < 2 ^ 64)
      (returned : r.insertStr ind str cnt = .ok next) : Reached next
  | insert {r o : Rope α} (before : Reached r) (ind : Nat) (other : Reached o)
      (fits : r.length + o.length < 2 ^ 64) : Reached (r.insert ind o)
  | insertData {r : Rope α} (before : Reached r) (ind : Nat) (data : List α)
      (fits : r.length + data.length < 2 ^ 64) : Reached (r.insertData ind data)
  | erase {r next : Rope α} (before : Reached r) (ind cnt : Nat)
      (returned : r.erase ind cnt = .ok next) : Reached next
  | substr {r next : Rope α} (before : Reached r) (pos cnt : Nat)
      (fits : cnt = npos ∨ pos + cnt < 2 ^ 64) (returned : r.substr pos cnt = .ok next) :
      Reached next
  | truncate {r : Rope α} (before : Reached r) (idx : Nat) : Reached (r.truncate idx)
  | resize {r : Rope α} (before : Reached r) (n : Nat) (ch : α) (fits : n < 2 ^ 64) :
      Reached (r.resize n ch)

def Node.chars : Node α → List α
  | .leaf _ data => data
  | .branch _ left right => left.chars ++ right.chars

def Node.Sound : Node α → Prop
  | .leaf length data => length = data.length ∧ data ≠ []
  | .branch length left right =>
    length = left.length + right.length ∧ left.Sound ∧ right.Sound

def Holds : Option (Node α) → List α → Prop
  | none, text => text = []
  | some n, text => n.Sound ∧ n.chars = text

def Rope.chars (r : Rope α) : List α := (r.root.map Node.chars).getD []

structure Rope.Spells (r : Rope α) (text : List α) : Prop where
  holds : Holds r.root text
  length : r.length = text.length
  fits : text.length < 2 ^ 64

theorem Node.Sound.length_eq {n : Node α} (sound : n.Sound) : n.length = n.chars.length := by
  induction n with
  | leaf length data => exact sound.1
  | branch length left right ihLeft ihRight =>
    rw [Node.length, sound.1, Node.chars, length_append, ihLeft sound.2.1,
      ihRight sound.2.2]

theorem makeBranch_holds {l r : Node α} {a b : List α} (left : Holds (some l) a)
    (right : Holds (some r) b) (fits : (a ++ b).length < 2 ^ 64) :
    Holds (some (makeBranch l r)) (a ++ b) := by
  obtain ⟨soundLeft, rfl⟩ := left
  obtain ⟨soundRight, rfl⟩ := right
  rw [length_append, ← soundLeft.length_eq, ← soundRight.length_eq] at fits
  exact ⟨⟨word_of_lt fits, soundLeft, soundRight⟩, rfl⟩

theorem makeLeaf_holds {data : List α} {len : Nat} (pos : 0 < len) (le : len ≤ data.length) :
    Holds (some (makeLeaf data len)) (data.take len) := by
  have long : (data.take len).length = len := by rw [length_take, min_eq_left le]
  refine ⟨⟨long.symm, ?_⟩, rfl⟩
  intro empty
  rw [empty] at long
  exact absurd long.symm (ne_of_gt pos)

theorem balanced_holds : ∀ (len : Nat) (data : List α), 0 < len → len ≤ data.length →
    len < 2 ^ 64 → Holds (some (balanced data len)) (data.take len) := by
  intro len
  induction len using Nat.strongRecOn with
  | ind len ih =>
    intro data pos le small
    rw [balanced]
    by_cases short : len ≤ maxLeaf
    · rw [if_pos short]
      exact makeLeaf_holds pos le
    · rw [if_neg short]
      simp only [maxLeaf] at short
      have left := ih (len / 2) (by omega) data (by omega) (by omega) (by omega)
      have right := ih (len - len / 2) (by omega) (data.drop (len / 2)) (by omega)
        (by rw [length_drop]; omega) (by omega)
      have whole : data.take len =
          data.take (len / 2) ++ (data.drop (len / 2)).take (len - len / 2) := by
        rw [← take_add, Nat.add_sub_cancel' (by omega)]
      rw [whole]
      refine makeBranch_holds left right ?_
      rw [← whole, length_take]
      omega

theorem buildBalanced_holds (data : List α) (small : data.length < 2 ^ 64) :
    Holds (buildBalanced data data.length) data := by
  rw [buildBalanced]
  by_cases empty : data.length = 0
  · rw [if_pos empty]
    exact eq_nil_of_length_eq_zero empty
  · rw [if_neg empty]
    have holds := balanced_holds data.length data (by omega) (le_refl _) small
    rwa [take_length] at holds

theorem filled_holds (ch : α) : ∀ len, 0 < len → len < 2 ^ 64 →
    Holds (some (filled ch len)) (List.replicate len ch) := by
  intro len
  induction len using Nat.strongRecOn with
  | ind len ih =>
    intro pos small
    rw [filled]
    by_cases short : len ≤ maxLeaf
    · rw [if_pos short]
      refine ⟨⟨length_replicate.symm, ?_⟩, rfl⟩
      rw [ne_eq, replicate_eq_nil_iff]
      omega
    · rw [if_neg short]
      simp only [maxLeaf] at short
      have left := ih (len / 2) (by omega) (by omega) (by omega)
      have right := ih (len - len / 2) (by omega) (by omega) (by omega)
      have whole : List.replicate len ch =
          List.replicate (len / 2) ch ++ List.replicate (len - len / 2) ch := by
        rw [replicate_append_replicate, Nat.add_sub_cancel' (by omega)]
      rw [whole]
      refine makeBranch_holds left right ?_
      rw [← whole, length_replicate]
      exact small

theorem buildFill_holds (ch : α) {len : Nat} (small : len < 2 ^ 64) :
    Holds (buildFill ch len) (List.replicate len ch) := by
  rw [buildFill]
  by_cases empty : len = 0
  · rw [if_pos empty, empty]
    rfl
  · rw [if_neg empty]
    exact filled_holds ch len (by omega) small

theorem concat_holds {l r : Option (Node α)} {a b : List α} (left : Holds l a)
    (right : Holds r b) (fits : (a ++ b).length < 2 ^ 64) : Holds (concat l r) (a ++ b) := by
  cases l with
  | none =>
    rw [show a = [] from left]
    exact right
  | some l =>
    cases r with
    | none =>
      rw [show b = [] from right, append_nil]
      exact left
    | some r =>
      show Holds (some (join l r)) (a ++ b)
      cases l with
      | branch len x y => exact makeBranch_holds left right fits
      | leaf len data =>
        cases r with
        | branch len' x y => exact makeBranch_holds left right fits
        | leaf len' data' =>
          rw [join]
          split
          · obtain ⟨⟨size, some⟩, rfl⟩ := left
            obtain ⟨⟨size', _⟩, rfl⟩ := right
            refine ⟨⟨?_, ?_⟩, rfl⟩
            · rw [size, size', length_append]
            · exact fun empty => some (append_eq_nil_iff.mp empty).1
          · exact makeBranch_holds left right fits

def before : List (Frame α) → List α
  | [] => []
  | f :: frames => if f.wentLeft then before frames else before frames ++ f.other.chars

def after : List (Frame α) → List α
  | [] => []
  | f :: frames => if f.wentLeft then f.other.chars ++ after frames else after frames

theorem unwind_holds : ∀ (frames : List (Frame α)) {L R : Option (Node α)} {a b : List α},
    (∀ f ∈ frames, f.other.Sound) → Holds L a → Holds R b →
    (before frames ++ a ++ (b ++ after frames)).length < 2 ^ 64 →
    Holds (unwind frames (L, R)).1 (before frames ++ a) ∧
      Holds (unwind frames (L, R)).2 (b ++ after frames)
  | [], L, R, a, b, _, left, right, _ => by
    rw [before, after, nil_append, append_nil]
    exact ⟨left, right⟩
  | ⟨other, true⟩ :: frames, L, R, a, b, sound, left, right, fits => by
    have here := sound _ mem_cons_self
    have others : ∀ g ∈ frames, g.other.Sound :=
      fun g member => sound g (mem_cons_of_mem _ member)
    have fits : (before frames ++ a ++ (b ++ (other.chars ++ after frames))).length < 2 ^ 64 :=
      fits
    show Holds (unwind frames (L, concat R (some other))).1 (before frames ++ a) ∧
      Holds (unwind frames (L, concat R (some other))).2 (b ++ (other.chars ++ after frames))
    have joined := concat_holds right (r := some other) ⟨here, rfl⟩ (by
      simp only [length_append] at fits ⊢
      omega)
    rw [← append_assoc b] at fits ⊢
    exact unwind_holds frames others left joined fits
  | ⟨other, false⟩ :: frames, L, R, a, b, sound, left, right, fits => by
    have here := sound _ mem_cons_self
    have others : ∀ g ∈ frames, g.other.Sound :=
      fun g member => sound g (mem_cons_of_mem _ member)
    have fits : (before frames ++ other.chars ++ a ++ (b ++ after frames)).length < 2 ^ 64 :=
      fits
    show Holds (unwind frames (concat (some other) L, R)).1 (before frames ++ other.chars ++ a) ∧
      Holds (unwind frames (concat (some other) L, R)).2 (b ++ after frames)
    have joined := concat_holds (l := some other) ⟨here, rfl⟩ left (by
      simp only [length_append] at fits ⊢
      omega)
    rw [append_assoc (before frames)] at fits ⊢
    exact unwind_holds frames others joined right fits

/-- At a boundary, on either end or between two children, nothing is cut. -/
theorem splitDown_spec : ∀ (n : Node α) (idx : Nat) (frames : List (Frame α)), n.Sound →
    (∀ f ∈ frames, f.other.Sound) →
    ∃ a b, Holds (splitDown n idx frames).1.1 a ∧ Holds (splitDown n idx frames).1.2 b ∧
      (∀ f ∈ (splitDown n idx frames).2, f.other.Sound) ∧
      before (splitDown n idx frames).2 ++ a = before frames ++ n.chars.take idx ∧
      b ++ after (splitDown n idx frames).2 = n.chars.drop idx ++ after frames
  | .leaf len data, idx, frames, sound, others => by
    rw [splitDown]
    by_cases first : idx = 0
    · rw [if_pos first, first]
      exact ⟨[], data, rfl, ⟨sound, rfl⟩, others, rfl, rfl⟩
    · rw [if_neg first]
      have size := sound.1
      by_cases last : idx ≥ len
      · rw [if_pos last]
        refine ⟨data, [], ⟨sound, rfl⟩, rfl, others, ?_, ?_⟩
        · rw [Node.chars, take_of_length_le (by omega)]
        · rw [Node.chars, drop_eq_nil_of_le (by omega)]
      · rw [if_neg last]
        refine ⟨_, _, makeLeaf_holds (by omega) (by omega), makeLeaf_holds (by omega)
          (by rw [length_drop]; omega), others, rfl, ?_⟩
        rw [size, ← length_drop, take_length]
        rfl
  | .branch len left right, idx, frames, sound, others => by
    have size := sound.1
    have sizeLeft := sound.2.1.length_eq
    have sizeRight := sound.2.2.length_eq
    rw [splitDown]
    by_cases first : idx = 0
    · rw [if_pos first, first]
      exact ⟨[], left.chars ++ right.chars, rfl, ⟨sound, rfl⟩, others, rfl, rfl⟩
    · rw [if_neg first]
      by_cases last : idx ≥ len
      · rw [if_pos last]
        refine ⟨left.chars ++ right.chars, [], ⟨sound, rfl⟩, rfl, others, ?_, ?_⟩
        · rw [Node.chars, take_of_length_le (by rw [length_append]; omega)]
        · rw [Node.chars, drop_eq_nil_of_le (by rw [length_append]; omega)]
      · rw [if_neg last, Node.chars]
        by_cases inLeft : idx < left.length
        · rw [if_pos inLeft, take_append_of_le_length (by omega),
            drop_append_of_le_length (by omega), append_assoc]
          exact splitDown_spec left idx (⟨right, true⟩ :: frames) sound.2.1
            (fun f member => (mem_cons.mp member).elim (fun same => same ▸ sound.2.2)
              (others f))
        · rw [if_neg inLeft]
          by_cases inRight : idx > left.length
          · rw [if_pos inRight, take_append, drop_append,
              take_of_length_le (by omega), drop_eq_nil_of_le (by omega),
              ← sizeLeft, ← append_assoc]
            exact splitDown_spec right (idx - left.length) (⟨left, false⟩ :: frames) sound.2.2
              (fun f member => (mem_cons.mp member).elim (fun same => same ▸ sound.2.1)
                (others f))
          · rw [if_neg inRight, show idx = left.chars.length by omega, take_left,
              drop_left]
            exact ⟨_, _, ⟨sound.2.1, rfl⟩, ⟨sound.2.2, rfl⟩, others, rfl, rfl⟩

theorem split_holds {n : Option (Node α)} {text : List α} (holds : Holds n text)
    (fits : text.length < 2 ^ 64) (idx : Nat) :
    Holds (split n idx).1 (text.take idx) ∧ Holds (split n idx).2 (text.drop idx) := by
  cases n with
  | none =>
    rw [show text = [] from holds, take_nil, drop_nil]
    exact ⟨rfl, rfl⟩
  | some n =>
    obtain ⟨sound, rfl⟩ := holds
    obtain ⟨a, b, left, right, others, front, back⟩ := splitDown_spec n idx [] sound
      (fun f member => absurd member not_mem_nil)
    rw [before, nil_append] at front
    rw [after, append_nil] at back
    have both := unwind_holds _ others left right (by
      rw [front, back, take_append_drop]; exact fits)
    rw [front, back] at both
    exact both

end Ropes

end Micron.Strings
