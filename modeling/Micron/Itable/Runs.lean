import Micron.Itable.Radix

/-!
# Walks and shape of a radix trie

The traversals push one branch for each level they go down, so the positions on
their stacks increase and the stack of `__key_bits` entries is never overrun.
The second part shows that the keys alone decide the shape of a radix trie.
-/

set_option autoImplicit false

namespace Micron.Itable.Trie

open List Function Nat

variable {T : KeyType} {V : Type}

def paths : Trie T V → List (List Nat)
  | leaf _ _ => [[]]
  | branch b c0 c1 => (c0.paths ++ c1.paths).map (b :: ·)

theorem Radix.paths {p : Nat} {t : Trie T V} (radix : Radix p t) :
    ∀ path ∈ t.paths, path.Pairwise (· < ·) ∧ ∀ b ∈ path, p ≤ b ∧ b < T.bits := by
  induction radix with
  | leaf p key value =>
    intro path member
    rw [Trie.paths, mem_singleton] at member
    subst member
    exact ⟨.nil, by simp⟩
  | @branch p b c0 c1 after inside zeros ones agree radix0 radix1 ih0 ih1 =>
    intro path member
    rw [Trie.paths, mem_map] at member
    obtain ⟨rest, member', rfl⟩ := member
    have below : rest.Pairwise (· < ·) ∧ ∀ b' ∈ rest, b + 1 ≤ b' ∧ b' < T.bits := by
      rcases mem_append.mp member' with inC0 | inC1
      · exact ih0 rest inC0
      · exact ih1 rest inC1
    constructor
    · exact pairwise_cons.mpr ⟨fun b' inRest => (below.2 b' inRest).1, below.1⟩
    · intro b' inPath
      rcases mem_cons.mp inPath with rfl | inRest
      · exact ⟨after, inside⟩
      · obtain ⟨lower, upper⟩ := below.2 b' inRest
        exact ⟨by omega, upper⟩

/-- The stack of a traversal: each branch stands at a position no less than the
number of branches under it. -/
def StackOk : List (Trie T V) → Prop
  | [] => True
  | leaf _ _ :: _ => False
  | branch b _ c1 :: rest => rest.length ≤ b ∧ Radix (b + 1) c1 ∧ StackOk rest

/-- The bindings below the branches of a stack that are still to come. -/
def pending (stack : List (Trie T V)) : List (T.Key × V) := stack.flatMap fun b => b.second.toList

theorem pending_cons (b : Nat) (c0 c1 : Trie T V) (stack : List (Trie T V)) :
    pending (branch b c0 c1 :: stack) = c1.toList ++ pending stack := rfl

theorem Radix.forEachLoop (t : Trie T V) (stack : List (Trie T V)) : ∀ {p : Nat}, Radix p t →
    stack.length ≤ p → StackOk stack →
      t.forEachLoop T.bits stack = some (t.toList ++ pending stack) := by
  fun_induction Trie.forEachLoop T.bits t stack with
  | case1 b c0 c1 stack room ih =>
    intro p radix low ok
    cases radix with
    | branch after inside _ _ _ radix0 radix1 =>
      have pushed : StackOk (Trie.branch b c0 c1 :: stack) := ⟨by omega, radix1, ok⟩
      rw [ih radix0 (by simp only [length_cons]; omega) pushed, pending_cons, toList,
        append_assoc]
  | case2 b c0 c1 stack full =>
    intro p radix low ok
    cases radix with
    | branch after inside => omega
  | case3 key value =>
    intro p _ _ _
    rfl
  | case4 key value b stack ih =>
    intro p _ _ ok
    cases b with
    | leaf => cases ok
    | branch pos c0 c1 =>
      obtain ⟨deep, radix1, ok'⟩ := ok
      have later := ih radix1 (le_succ_of_le deep) ok'
      rw [later, pending_cons]
      rfl

def Iter.rest (it : Iter T V) : List (T.Key × V) := it.current.toList ++ pending it.stack

theorem Radix.descendLeft {p : Nat} {t : Trie T V} (radix : Radix p t)
    (stack : List (Trie T V)) (low : stack.length ≤ p) (ok : StackOk stack) :
    ∃ it, t.descendLeft T.bits stack = some it ∧ StackOk it.stack ∧ it.current.isSome ∧
      it.rest = t.toList ++ pending stack := by
  induction t generalizing p stack with
  | leaf key value => exact ⟨⟨stack, some (key, value)⟩, rfl, ok, rfl, rfl⟩
  | branch b c0 c1 ih0 _ =>
    cases radix with
    | branch after inside _ _ _ radix0 radix1 =>
      have pushed : StackOk (Trie.branch b c0 c1 :: stack) := ⟨by omega, radix1, ok⟩
      obtain ⟨it, found, ok', there, rest⟩ :=
        ih0 radix0 _ (by simp only [length_cons]; omega) pushed
      refine ⟨it, ?_, ok', there, ?_⟩
      · rw [Trie.descendLeft, if_pos (by omega)]
        exact found
      · rw [rest, pending_cons, toList, append_assoc]

theorem Iter.collect_eq : ∀ (fuel : Nat) (it : Iter T V), StackOk it.stack →
    (it.current = none → it.stack = []) → it.rest.length ≤ fuel →
      it.collect T.bits fuel = some it.rest := by
  intro fuel
  induction fuel with
  | zero =>
    intro it _ last short
    have empty : it.rest = [] := eq_nil_of_length_eq_zero (le_zero.mp short)
    have done : it.current = none := by
      cases current : it.current with
      | none => rfl
      | some e => simp [Iter.rest, current] at empty
    rw [Iter.collect, done, empty]
    rfl
  | succ fuel ih =>
    intro it ok last short
    cases current : it.current with
    | none => simp [Iter.collect, Iter.rest, current, last current, pending]
    | some e =>
      rw [Iter.collect, current]
      simp only [Iter.next]
      cases stack : it.stack with
      | nil =>
        have final := ih ⟨[], none⟩ trivial (fun _ => rfl) (by simp [Iter.rest, pending])
        simp [final, Iter.rest, current, stack, pending]
      | cons b rest =>
        rw [stack] at ok
        cases b with
        | leaf => cases ok
        | branch pos c0 c1 =>
          obtain ⟨deep, radix1, ok'⟩ := ok
          obtain ⟨it', found, okIt, there, restIt⟩ :=
            radix1.descendLeft rest (le_succ_of_le deep) ok'
          have whole : it.rest = e :: it'.rest := by
            rw [restIt, Iter.rest, current, stack, pending_cons]
            rfl
          have running : it'.current = none → it'.stack = [] := by
            intro ended
            rw [ended] at there
            cases there
          rw [whole, length_cons] at short
          have step := ih it' okIt running (by omega)
          simp [second, found, step, whole]

/-- Some key of the trie has a 0 at its branch bit and some key a 1. -/
theorem Radix.parted {p b : Nat} {c0 c1 : Trie T V} (radix : Radix p (Trie.branch b c0 c1)) :
    ∃ x y, (Trie.branch b c0 c1).HasKey x ∧ (Trie.branch b c0 c1).HasKey y ∧
      T.bit x b = false ∧ T.bit y b = true := by
  cases radix with
  | branch _ _ zeros ones =>
    obtain ⟨x, hasX⟩ := exists_hasKey c0
    obtain ⟨y, hasY⟩ := exists_hasKey c1
    exact ⟨x, y, hasKey_branch.mpr (.inl hasX), hasKey_branch.mpr (.inr hasY),
      zeros x hasX, ones y hasY⟩

theorem Radix.branch_le {p q b d : Nat} {c0 c1 e0 e1 : Trie T V}
    (radix : Radix p (Trie.branch b c0 c1)) (radix' : Radix q (Trie.branch d e0 e1))
    (keys : ∀ k, (Trie.branch b c0 c1).HasKey k → (Trie.branch d e0 e1).HasKey k) : d ≤ b := by
  obtain ⟨x, y, hasX, hasY, zero, one⟩ := radix.parted
  cases radix' with
  | branch _ _ _ _ agree =>
    by_contra later
    have same := agree x y (keys x hasX) (keys y hasY) b (by omega)
    rw [zero, one] at same
    cases same

/-- Two radix tries with the same bindings are equal. -/
theorem Radix.unique {p q : Nat} {t u : Trie T V} (radix : Radix p t) (radix' : Radix q u)
    (same : ∀ e, e ∈ t.toList ↔ e ∈ u.toList) : t = u := by
  have keys : ∀ k, t.HasKey k ↔ u.HasKey k := fun k => exists_congr fun v => same (k, v)
  induction radix generalizing q u with
  | leaf p key value =>
    cases radix' with
    | leaf _ key' value' =>
      have member := (same (key, value)).mp (mem_singleton_self _)
      cases mem_singleton.mp member
      rfl
    | branch after inside zeros ones agree radix0 radix1 =>
      obtain ⟨x, y, hasX, hasY, zero, one⟩ :=
        (Radix.branch after inside zeros ones agree radix0 radix1).parted
      rw [← keys, hasKey_leaf] at hasX hasY
      rw [hasX, ← hasY, one] at zero
      cases zero
  | @branch p b c0 c1 after inside zeros ones agree radix0 radix1 ih0 ih1 =>
    have whole : Radix p (Trie.branch b c0 c1) :=
      .branch after inside zeros ones agree radix0 radix1
    cases radix' with
    | leaf _ key' value' =>
      obtain ⟨x, y, hasX, hasY, zero, one⟩ := whole.parted
      rw [keys, hasKey_leaf] at hasX hasY
      rw [hasX, ← hasY, one] at zero
      cases zero
    | @branch _ d e0 e1 after' inside' zeros' ones' agree' radix0' radix1' =>
      have whole' : Radix q (Trie.branch d e0 e1) :=
        .branch after' inside' zeros' ones' agree' radix0' radix1'
      have position : b = d := le_antisymm
        (whole'.branch_le whole fun k => (keys k).mpr)
        (whole.branch_le whole' fun k => (keys k).mp)
      subst position
      have same0 : ∀ e, e ∈ c0.toList ↔ e ∈ e0.toList := by
        intro e
        have both := same e
        simp only [toList, mem_append] at both
        constructor
        · intro member
          rcases both.mp (.inl member) with found | crossed
          · exact found
          · have zero := zeros e.1 (hasKey_of_mem member)
            rw [ones' e.1 (hasKey_of_mem crossed)] at zero
            cases zero
        · intro member
          rcases both.mpr (.inl member) with found | crossed
          · exact found
          · have zero := zeros' e.1 (hasKey_of_mem member)
            rw [ones e.1 (hasKey_of_mem crossed)] at zero
            cases zero
      have same1 : ∀ e, e ∈ c1.toList ↔ e ∈ e1.toList := by
        intro e
        have both := same e
        simp only [toList, mem_append] at both
        constructor
        · intro member
          rcases both.mp (.inr member) with crossed | found
          · have zero := zeros' e.1 (hasKey_of_mem crossed)
            rw [ones e.1 (hasKey_of_mem member)] at zero
            cases zero
          · exact found
        · intro member
          rcases both.mpr (.inr member) with crossed | found
          · have zero := zeros e.1 (hasKey_of_mem crossed)
            rw [ones' e.1 (hasKey_of_mem member)] at zero
            cases zero
          · exact found
      rw [ih0 radix0' same0 fun k => exists_congr fun v => same0 (k, v),
        ih1 radix1' same1 fun k => exists_congr fun v => same1 (k, v)]

def shape : Trie T V → Trie T Unit
  | leaf key _ => leaf key ()
  | branch b c0 c1 => branch b c0.shape c1.shape

theorem hasKey_shape {t : Trie T V} {k : T.Key} : t.shape.HasKey k ↔ t.HasKey k := by
  induction t with
  | leaf key value => simp [shape]
  | branch b c0 c1 ih0 ih1 => simp [shape, ih0, ih1]

theorem Radix.shape {p : Nat} {t : Trie T V} (radix : Radix p t) : Radix p t.shape := by
  induction radix with
  | leaf p key value => exact .leaf p key ()
  | @branch p b c0 c1 after inside zeros ones agree radix0 radix1 ih0 ih1 =>
    refine .branch after inside (fun k has => zeros k (hasKey_shape.mp has))
      (fun k has => ones k (hasKey_shape.mp has)) ?_ ih0 ih1
    intro x y hasX hasY
    rw [hasKey_branch, hasKey_shape, hasKey_shape] at hasX hasY
    exact agree x y (hasKey_branch.mpr hasX) (hasKey_branch.mpr hasY)

theorem Radix.shape_eq {W : Type} {p q : Nat} {t : Trie T V} {u : Trie T W} (radix : Radix p t)
    (radix' : Radix q u) (keys : ∀ k, t.HasKey k ↔ u.HasKey k) : t.shape = u.shape := by
  apply radix.shape.unique radix'.shape
  rintro ⟨k, ⟨⟩⟩
  have there : ∀ {X : Type} (s : Trie T X), (k, ()) ∈ s.shape.toList ↔ s.HasKey k := by
    intro X s
    rw [← hasKey_shape]
    constructor
    · exact hasKey_of_mem
    · rintro ⟨⟨⟩, member⟩
      exact member
  rw [there, there, keys]

end Micron.Itable.Trie

/-!
# Runs of `immutable_table`

Every run of `insert`, `erase` and `clear` keeps a radix trie over the live
keys, as long as `__diff_pos` is right about a key inserted and those in the table.
It is for all key types of at most 64 bits.  For 128-bit keys `__clz_impl` counts the
leading zeros of the low half only, so they must share their high half.
-/

namespace Micron.Itable

open Micron.Lib

variable {T : KeyType} {V : Type}

theorem toOrd_xor_toOrd (a b : T.Key) : T.toOrd a ^^^ T.toOrd b = a ^^^ b := by
  unfold KeyType.toOrd
  split
  · apply BitVec.eq_of_getLsbD_eq
    intro i _
    simp only [BitVec.getLsbD_xor]
    generalize (1#T.bits <<< (T.bits - 1)).getLsbD i = flip
    cases a.getLsbD i <;> cases b.getLsbD i <;> cases flip <;> rfl
  · rfl

/-- The table holds exactly the bindings of `M`. -/
structure TableInv (t : Table T V) (M : T.Key → Option V) : Prop where
  empty : t.root = none → M = (fun _ => none) ∧ t.length = 0
  radix : ∀ root, t.root = some root → Trie.Radix 0 root
  content : ∀ root, t.root = some root → ∀ k v, (k, v) ∈ root.toList ↔ M k = some v
  counted : ∀ root, t.root = some root → t.length = root.toList.length

variable {t : Table T V} {M : T.Key → Option V}

theorem tableInv_empty : TableInv (Table.empty : Table T V) (fun _ => none) where
  empty _ := ⟨rfl, rfl⟩
  radix _ impossible := by cases impossible
  content _ impossible := by cases impossible
  counted _ impossible := by cases impossible

theorem TableInv.find_eq (inv : TableInv t M) (k : T.Key) : t.find k = M k := by
  unfold Table.find
  cases root : t.root with
  | none => rw [(inv.empty root).1]
  | some r =>
    have radix := inv.radix r root
    have content := inv.content r root
    simp only
    cases bound : M k with
    | some v => rw [radix.findLeaf_eq ((content k v).mpr bound), if_pos rfl]
    | none =>
      apply if_neg
      intro same
      have member := Trie.findLeaf_mem (T.toOrd k) r
      have found := (content _ _).mp member
      rw [same, bound] at found
      cases found

theorem TableInv.insert (inv : TableInv t M) (undef : Nat) {k : T.Key}
    (low : ∀ a, (M a).isSome → (k ^^^ a).toNat < 2 ^ 64) (v : V) :
    TableInv (t.insert undef k v) (Function.update M k (some v)) := by
  -- the three outcomes differ only in the new trie
  have build : ∀ (root : Trie T V) (n : Nat), Trie.Radix 0 root →
      (∀ e, e ∈ root.toList ↔ e = (k, v) ∨ e.1 ≠ k ∧ M e.1 = some e.2) →
      n = root.toList.length → TableInv ⟨some root, n⟩ (Function.update M k (some v)) := by
    intro root n radix content length
    refine ⟨nofun, ?_, ?_, ?_⟩
    · intro root' same
      cases same
      exact radix
    · intro root' same k' v'
      cases same
      rw [content]
      by_cases here : k' = k
      · subst here
        simp [eq_comm]
      · simp [here]
    · intro root' same
      cases same
      exact length
  unfold Table.insert
  cases root : t.root with
  | none =>
    apply build _ _ (.leaf _ _ _)
    · intro e
      rw [(inv.empty root).1]
      simp [Trie.toList]
    · rfl
  | some r =>
    have radix := inv.radix r root
    have content := inv.content r root
    simp only
    split
    · rename_i same
      have has : r.HasKey k := by
        have found := Trie.hasKey_of_mem (Trie.findLeaf_mem (T.toOrd k) r)
        rwa [same] at found
      obtain ⟨radix', rebound, length⟩ := radix.replaceImpl v has
      apply build _ _ radix'
      · intro e
        rw [rebound e, ← content]
      · rw [length, inv.counted r root]
    · rename_i other
      have member := Trie.findLeaf_mem (T.toOrd k) r
      have missing : ∀ v', (k, v') ∉ r.toList := by
        intro v' member'
        exact other (by rw [radix.findLeaf_eq member'])
      have neighbour : (M (r.findLeaf (T.toOrd k)).1).isSome := by
        rw [(content _ _).mp member]
        rfl
      obtain ⟨dpos, position, inside, agree, differ⟩ :=
        diffPos_spec undef (Ne.symm other)
          (by rw [toOrd_xor_toOrd]; exact low _ neighbour)
      rw [position]
      obtain ⟨radix', grown, length⟩ :=
        radix.spliceImpl v (Nat.zero_le _) inside agree differ
      apply build _ _ radix'
      · intro e
        rw [grown e, ← content]
        have absent : e ∈ r.toList → e.1 ≠ k := by
          rintro inside' rfl
          exact missing e.2 inside'
        tauto
      · rw [length, inv.counted r root]

theorem TableInv.erase (inv : TableInv t M) (k : T.Key) :
    TableInv (t.erase k) (Function.update M k none) := by
  have unchanged : M k = none → TableInv t (Function.update M k none) := by
    intro unbound
    rw [Function.update_eq_self_iff.mpr unbound.symm]
    exact inv
  unfold Table.erase
  cases root : t.root with
  | none =>
    apply unchanged
    rw [(inv.empty root).1]
  | some r =>
    have content := inv.content r root
    have outcome := (inv.radix r root).eraseImpl k
    simp only
    generalize r.eraseImpl (T.toOrd k) k = result at outcome
    match result, outcome with
    | (_, false), missing =>
      apply unchanged
      cases bound : M k with
      | none => rfl
      | some v => exact absurd ⟨v, (content k v).mpr bound⟩ missing
    | (none, true), ⟨v, single⟩ =>
      have gone : Function.update M k none = fun _ => none := by
        funext k'
        by_cases same : k' = k
        · rw [same, Function.update_self]
        · rw [Function.update_of_ne same]
          cases bound : M k' with
          | none => rfl
          | some v' =>
            have member := (content k' v').mpr bound
            rw [single, Trie.toList, List.mem_singleton] at member
            exact absurd (Prod.mk.inj member).1 same
      rw [gone]
      exact tableInv_empty
    | (some t', true), ⟨_, radix', remaining, length⟩ =>
      refine ⟨(fun h => by cases h), ?_, ?_, ?_⟩
      · intro root' same
        cases same
        exact radix'
      · intro root' same k' v'
        cases same
        rw [remaining, content]
        by_cases here : k' = k
        · simp [here]
        · simp [here]
      · intro root' same
        cases same
        have counted := inv.counted r root
        simp only
        omega

namespace Table

def call (undef : Nat) (t : Table T V) : MapOp T.Key V → Table T V
  | .insert k v => t.insert undef k v
  | .erase k => t.erase k
  | .clear => empty

def run (undef : Nat) (calls : List (MapOp T.Key V)) : Table T V :=
  calls.foldl (call undef) empty

end Table

/-- A key that is inserted differs from those in the table in its low 64 bits only. -/
def SameHighStep (M : T.Key → Option V) : MapOp T.Key V → Prop
  | .insert k _ => ∀ a, (M a).isSome → (k ^^^ a).toNat < 2 ^ 64
  | _ => True

def SameHighFrom (M : T.Key → Option V) : List (MapOp T.Key V) → Prop
  | [] => True
  | call :: rest => SameHighStep M call ∧ SameHighFrom (fun k => call.overwrite k (M k)) rest

/-- So at every call of the run. -/
def SameHighBits (calls : List (MapOp T.Key V)) : Prop := SameHighFrom (fun _ => none) calls

theorem sameHighFrom_of_bits_le (small : T.bits ≤ 64) (calls : List (MapOp T.Key V)) :
    SameHighFrom M calls := by
  induction calls generalizing M with
  | nil => trivial
  | cons call rest ih =>
    refine ⟨?_, ih⟩
    cases call with
    | insert k v =>
      exact fun a _ => lt_of_lt_of_le (k ^^^ a).isLt (Nat.pow_le_pow_right (by decide) small)
    | erase k => trivial
    | clear => trivial

theorem TableInv.run (undef : Nat) (calls : List (MapOp T.Key V)) (low : SameHighFrom M calls)
    (inv : TableInv t M) :
    TableInv (calls.foldl (Table.call undef) t) fun k =>
      calls.foldl (MapOp.overwrite k) (M k) := by
  induction calls generalizing t M with
  | nil => exact inv
  | cons call rest ih =>
    obtain ⟨here, later⟩ := low
    cases call with
    | insert k v =>
      have step := inv.insert undef here v
      rw [← overwrite_insert] at step
      exact ih later step
    | erase k =>
      have step := inv.erase k
      rw [← overwrite_erase] at step
      exact ih later step
    | clear => exact ih later tableInv_empty

/-- What the table is after a run: an ordered map over the live keys in a
canonical trie. -/
structure CanonicalOrderedMap (undef : Nat) (calls : List (MapOp T.Key V)) : Prop where
  find_eq : ∀ k, (Table.run undef calls).find k = overwriteRun calls k
  visits : ∃ row, (Table.run undef calls).forEach = some row ∧
    (Table.run undef calls).iterate row.length = some row ∧
    (Table.run undef calls).size = row.length ∧
    row.Pairwise (fun a b => T.number a.1 < T.number b.1) ∧
    ∀ k v, (k, v) ∈ row ↔ overwriteRun calls k = some v
  paths : ∀ root, (Table.run undef calls).root = some root → ∀ path ∈ root.paths,
    path.Pairwise (· < ·) ∧ (∀ b ∈ path, b < T.bits) ∧ path.length ≤ T.bits
  shape : ∀ calls' : List (MapOp T.Key V), SameHighBits calls' →
    (∀ k, (overwriteRun calls k).isSome ↔ (overwriteRun calls' k).isSome) →
      (Table.run undef calls).root.map Trie.shape = (Table.run undef calls').root.map Trie.shape

theorem length_le_of_increasing {path : List Nat} {n : Nat} (increasing : path.Pairwise (· < ·))
    (below : ∀ b ∈ path, b < n) : path.length ≤ n := by
  have nodup : path.Nodup := increasing.imp ne_of_lt
  have subset : path.toFinset ⊆ Finset.range n := by
    intro b member
    exact Finset.mem_range.mpr (below b (List.mem_toFinset.mp member))
  have card := Finset.card_le_card subset
  rwa [List.toFinset_card_of_nodup nodup, Finset.card_range] at card

theorem TableInv.hasKey_iff (inv : TableInv t M) {root : Trie T V} (there : t.root = some root)
    (k : T.Key) : root.HasKey k ↔ (M k).isSome := by
  rw [Option.isSome_iff_exists]
  exact exists_congr fun v => inv.content root there k v

theorem TableInv.root_isSome (inv : TableInv t M) : t.root.isSome ↔ ∃ k, (M k).isSome := by
  constructor
  · intro there
    obtain ⟨root, found⟩ := Option.isSome_iff_exists.mp there
    obtain ⟨k, has⟩ := Trie.exists_hasKey root
    exact ⟨k, (inv.hasKey_iff found k).mp has⟩
  · rintro ⟨k, bound⟩
    cases root : t.root with
    | some r => rfl
    | none =>
      rw [(inv.empty root).1] at bound
      cases bound

theorem TableInv.shape_eq {t' : Table T V} {M' : T.Key → Option V}
    (inv : TableInv t M) (inv' : TableInv t' M')
    (keys : ∀ k, (M k).isSome ↔ (M' k).isSome) :
    t.root.map Trie.shape = t'.root.map Trie.shape := by
  have both : t.root.isSome ↔ t'.root.isSome := by
    rw [inv.root_isSome, inv'.root_isSome]
    exact exists_congr keys
  cases root : t.root with
  | none =>
    cases root' : t'.root with
    | none => rfl
    | some r' => simp [root, root'] at both
  | some r =>
    cases root' : t'.root with
    | none => simp [root, root'] at both
    | some r' =>
      rw [Option.map_some, Option.map_some]
      congr 1
      apply (inv.radix r root).shape_eq (inv'.radix r' root')
      intro k
      rw [inv.hasKey_iff root, inv'.hasKey_iff root', keys]

theorem TableInv.visits (inv : TableInv t M) :
    ∃ row, t.forEach = some row ∧ t.iterate row.length = some row ∧ t.size = row.length ∧
      row.Pairwise (fun a b => T.number a.1 < T.number b.1) ∧
      ∀ k v, (k, v) ∈ row ↔ M k = some v := by
  cases root : t.root with
  | none =>
    obtain ⟨unbound, length⟩ := inv.empty root
    refine ⟨[], ?_, ?_, length, .nil, ?_⟩
    · simp [Table.forEach, root]
    · simp [Table.iterate, Table.begin, root, Trie.Iter.collect]
    · intro k v
      simp [unbound]
  | some r =>
    have radix := inv.radix r root
    refine ⟨r.toList, ?_, ?_, inv.counted r root, radix.sorted, inv.content r root⟩
    · have walked := Trie.Radix.forEachLoop r [] radix (Nat.zero_le _) trivial
      simpa [Table.forEach, root, Trie.pending] using walked
    · obtain ⟨it, found, ok, there, rest⟩ := radix.descendLeft [] (Nat.zero_le _) trivial
      have whole : it.rest = r.toList := by simpa [Trie.pending] using rest
      have running : it.current = none → it.stack = [] := by
        intro ended
        rw [ended] at there
        cases there
      have collected := Trie.Iter.collect_eq r.toList.length it ok running (by rw [whole])
      simp [Table.iterate, Table.begin, root, found, collected, whole]

/-- Every run that inserts keys with the high bits of those in the table, which all runs
over a key type of at most 64 bits do, gives a canonical ordered map. -/
theorem immutable_table_canonical (undef : Nat) (calls : List (MapOp T.Key V))
    (low : T.bits ≤ 64 ∨ SameHighBits calls) : CanonicalOrderedMap undef calls := by
  have low' : SameHighBits calls := low.elim (fun small => sameHighFrom_of_bits_le small calls) id
  have inv : TableInv (Table.run undef calls) (overwriteRun calls) := tableInv_empty.run undef calls low'
  refine ⟨inv.find_eq, inv.visits, ?_, ?_⟩
  · intro root there path member
    obtain ⟨increasing, bounds⟩ := (inv.radix root there).paths path member
    have below : ∀ b ∈ path, b < T.bits := fun b inPath => (bounds b inPath).2
    exact ⟨increasing, below, length_le_of_increasing increasing below⟩
  · intro calls' same keys
    exact inv.shape_eq (tableInv_empty.run undef calls' same) keys

abbrev uint128 : KeyType := ⟨128, false, by decide⟩

/-- The key 2 is erased before `2 ^ 64 + 1` comes. -/
theorem immutable_table_canonical_uint128 :
    CanonicalOrderedMap (T := uint128) 0
      [.insert 2#128 20, .erase 2#128, .insert 18446744073709551617#128 10,
        .insert 18446744073709551616#128 11] := by
  refine immutable_table_canonical 0 _ (.inr ⟨nofun, trivial, ?_, ?_, trivial⟩)
  · intro a live
    by_cases two : 2#128 = a <;> simp [MapOp.overwrite, two] at live
  · intro a live
    have wide : a = 18446744073709551617#128 := by
      by_contra other
      by_cases two : 2#128 = a <;> simp [MapOp.overwrite, two, Ne.symm other] at live
    rw [wide]
    decide

/-- The keys 2 and 2^64 + 1 first differ in bit 63, but `__diff_pos` says 126,
where 2 has a 1: the larger key is visited first. -/
theorem immutable_table_misorders_wide_keys :
    ¬CanonicalOrderedMap (T := uint128) 0
      [.insert 2#128 20, .insert 18446744073709551617#128 10] := by
  intro canonical
  obtain ⟨row, visited, _, _, increasing, _⟩ := canonical.visits
  have order : (Table.run (T := uint128) 0
      [.insert 2#128 20, .insert 18446744073709551617#128 10]).forEach =
        some [(18446744073709551617#128, 10), (2#128, 20)] := by
    decide +kernel
  rw [order, Option.some.injEq] at visited
  rw [← visited] at increasing
  exact absurd (List.pairwise_cons.mp increasing).1 (by decide +kernel)

end Micron.Itable
