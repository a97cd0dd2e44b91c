import Micron.Lib.KeyedRun
import Micron.Itable.Model

/-!
# The radix invariant of `immutable_table`

`Radix p t`: below a branch at bit `b` all keys agree on the bits before `b`,
the first child holds those with a 0 there and the second those with a 1, and
the branch positions start at `p` and increase downwards.  Lookup, splicing and
erasure keep it, and it fixes the trie: two radix tries with the same bindings
are equal.
-/

set_option autoImplicit false

namespace Micron.Itable

open Micron.Lib List

namespace KeyType

variable (T : KeyType)

/-- Bit `i` of the key in the order domain, from the most significant one. -/
def bit (k : T.Key) (i : Nat) : Bool := (T.toOrd k).getMsbD i

variable {T}

theorem bitAt_eq_zero_iff (ord : BitVec T.bits) {pos : Nat} (inside : pos < T.bits) :
    T.bitAt ord pos = 0 ↔ ord.getMsbD pos = false := by
  have lowest : (1#T.bits).toNat = 1 := by
    rw [BitVec.toNat_ofNat, Nat.mod_eq_of_lt (Nat.one_lt_two_pow T.bits_pos.ne')]
  rw [bitAt, BitVec.toNat_and, lowest, Nat.and_one_is_mod, BitVec.toNat_ushiftRight,
    BitVec.getMsbD_eq_getLsbD, decide_eq_true inside, Bool.true_and, ← BitVec.testBit_toNat,
    Nat.testBit_eq_decide_div_mod_eq, Nat.shiftRight_eq_div_pow, decide_eq_false_iff_not]
  omega

theorem toOrd_injective {a b : T.Key} (same : T.toOrd a = T.toOrd b) : a = b := by
  unfold toOrd at same
  split at same
  · exact (BitVec.xor_left_inj _).mp same
  · exact same

/-- The order of the words is the order of the numbers. -/
theorem number_lt_iff (a b : T.Key) :
    T.number a < T.number b ↔ (T.toOrd a).toNat < (T.toOrd b).toNat := by
  unfold number toOrd
  split
  · have shiftedA := toNat_xor_signBit T.bits_pos a
    have shiftedB := toNat_xor_signBit T.bits_pos b
    omega
  · omega

end KeyType

/-- `__diff_pos` finds the first differing bit of two keys whose bits above the
low 64 agree. -/
theorem diffPos_spec {T : KeyType} (undef : Nat) {a b : T.Key} (distinct : a ≠ b)
    (low : (T.toOrd a ^^^ T.toOrd b).toNat < 2 ^ 64) :
    ∃ p, diffPos T undef (T.toOrd a) (T.toOrd b) = p ∧ p < T.bits ∧
      (∀ i, i < p → T.bit a i = T.bit b i) ∧ T.bit a p ≠ T.bit b p := by
  have distinct' : T.toOrd a ≠ T.toOrd b := fun same => distinct (KeyType.toOrd_injective same)
  obtain ⟨nonzero, small, agree, differ⟩ := first_diff_of_xor distinct'
  have size := T.bits_le
  have leading : diffPos T undef (T.toOrd a) (T.toOrd b) =
      T.bits - 1 - (T.toOrd a ^^^ T.toOrd b).toNat.log2 := by
    have nonzero' : T.toOrd a ^^^ T.toOrd b ≠ 0#T.bits := fun zero => nonzero (by rw [zero]; simp)
    have low' : (T.toOrd a ^^^ T.toOrd b).toNat.log2 < 64 := (Nat.log2_lt nonzero).mpr low
    unfold diffPos clzImpl builtinClz
    rw [if_neg nonzero', Nat.mod_eq_of_lt low, if_neg nonzero, if_neg nonzero]
    split <;> omega
  exact ⟨_, leading, by omega, agree, differ⟩

namespace Trie

variable {T : KeyType} {V : Type}

def toList : Trie T V → List (T.Key × V)
  | leaf key value => [(key, value)]
  | branch _ c0 c1 => c0.toList ++ c1.toList

def HasKey (t : Trie T V) (k : T.Key) : Prop := ∃ v, (k, v) ∈ t.toList

inductive Radix : Nat → Trie T V → Prop
  | leaf (p : Nat) (key : T.Key) (value : V) : Radix p (leaf key value)
  | branch {p b : Nat} {c0 c1 : Trie T V} (after : p ≤ b) (inside : b < T.bits)
      (zeros : ∀ k, c0.HasKey k → T.bit k b = false)
      (ones : ∀ k, c1.HasKey k → T.bit k b = true)
      (agree : ∀ k k', (branch b c0 c1).HasKey k → (branch b c0 c1).HasKey k' →
        ∀ i, i < b → T.bit k i = T.bit k' i)
      (radix0 : Radix (b + 1) c0) (radix1 : Radix (b + 1) c1) : Radix p (branch b c0 c1)

theorem Radix.mono {p q : Nat} {t : Trie T V} (radix : Radix p t) (less : q ≤ p) : Radix q t := by
  cases radix with
  | leaf => exact .leaf q _ _
  | branch after inside zeros ones agree radix0 radix1 =>
    exact .branch (le_trans less after) inside zeros ones agree radix0 radix1

@[simp] theorem hasKey_leaf {key k : T.Key} {value : V} :
    (leaf key value).HasKey k ↔ k = key := by
  simp [HasKey, toList]

@[simp] theorem hasKey_branch {b : Nat} {c0 c1 : Trie T V} {k : T.Key} :
    (branch b c0 c1).HasKey k ↔ c0.HasKey k ∨ c1.HasKey k := by
  simp [HasKey, toList, exists_or]

theorem hasKey_of_mem {t : Trie T V} {e : T.Key × V} (member : e ∈ t.toList) : t.HasKey e.1 :=
  ⟨e.2, member⟩

theorem exists_hasKey (t : Trie T V) : ∃ k, t.HasKey k := by
  induction t with
  | leaf key value => exact ⟨key, hasKey_leaf.mpr rfl⟩
  | branch b c0 c1 ih0 _ =>
    obtain ⟨k, has⟩ := ih0
    exact ⟨k, hasKey_branch.mpr (.inl has)⟩

/-- The bindings stand in increasing order of their numbers. -/
theorem Radix.sorted {p : Nat} {t : Trie T V} (radix : Radix p t) :
    t.toList.Pairwise fun a b => T.number a.1 < T.number b.1 := by
  induction radix with
  | leaf => exact pairwise_singleton _ _
  | @branch p b c0 c1 after inside zeros ones agree radix0 radix1 ih0 ih1 =>
    apply pairwise_append.mpr
    refine ⟨ih0, ih1, ?_⟩
    intro x inC0 y inC1
    rw [KeyType.number_lt_iff]
    have hasX := hasKey_of_mem inC0
    have hasY := hasKey_of_mem inC1
    exact lt_of_first_diff inside
      (agree x.1 y.1 (hasKey_branch.mpr (.inl hasX)) (hasKey_branch.mpr (.inr hasY)))
      (zeros x.1 hasX) (ones y.1 hasY)

theorem findLeaf_mem (ord : BitVec T.bits) (t : Trie T V) : t.findLeaf ord ∈ t.toList := by
  induction t with
  | leaf key value => exact mem_singleton_self _
  | branch b c0 c1 ih0 ih1 =>
    simp only [findLeaf, toList]
    split
    · exact mem_append_left _ ih0
    · exact mem_append_right _ ih1

theorem Radix.findLeaf_eq {p : Nat} {t : Trie T V} (radix : Radix p t) {k : T.Key} {v : V}
    (member : (k, v) ∈ t.toList) : t.findLeaf (T.toOrd k) = (k, v) := by
  induction radix with
  | leaf p key value => exact (mem_singleton.mp member).symm
  | @branch p b c0 c1 after inside zeros ones agree radix0 radix1 ih0 ih1 =>
    rw [findLeaf]
    rcases mem_append.mp member with inC0 | inC1
    · rw [if_pos ((KeyType.bitAt_eq_zero_iff _ inside).mpr (zeros k ⟨v, inC0⟩))]
      exact ih0 inC0
    · have one := ones k ⟨v, inC1⟩
      rw [if_neg (fun zero => by
        rw [KeyType.bitAt_eq_zero_iff _ inside, ← KeyType.bit, one] at zero
        cases zero)]
      exact ih1 inC1

theorem Radix.bitAt_of_first {p b : Nat} {c0 c1 : Trie T V}
    (radix : Radix p (Trie.branch b c0 c1)) {k : T.Key} (has : c0.HasKey k) :
    T.bitAt (T.toOrd k) b = 0 := by
  cases radix with
  | branch _ inside zeros => exact (KeyType.bitAt_eq_zero_iff _ inside).mpr (zeros k has)

theorem Radix.bitAt_of_second {p b : Nat} {c0 c1 : Trie T V}
    (radix : Radix p (Trie.branch b c0 c1)) {k : T.Key} (has : c1.HasKey k) :
    T.bitAt (T.toOrd k) b ≠ 0 := by
  cases radix with
  | branch _ inside _ ones =>
    intro zero
    rw [KeyType.bitAt_eq_zero_iff _ inside, ← KeyType.bit, ones k has] at zero
    cases zero

/-- A branch over changed children: each key has a neighbour among the old keys
with which it agrees before the branch bit. -/
theorem Radix.rebranch {p b : Nat} {c0 c1 d0 d1 : Trie T V}
    (radix : Radix p (Trie.branch b c0 c1)) (radix0 : Radix (b + 1) d0)
    (radix1 : Radix (b + 1) d1) (zeros : ∀ k, d0.HasKey k → T.bit k b = false)
    (ones : ∀ k, d1.HasKey k → T.bit k b = true)
    (near : ∀ k, (Trie.branch b d0 d1).HasKey k →
      ∃ k', (Trie.branch b c0 c1).HasKey k' ∧ ∀ i, i < b → T.bit k i = T.bit k' i) :
    Radix p (Trie.branch b d0 d1) := by
  cases radix with
  | branch after inside _ _ agree =>
    refine .branch after inside zeros ones ?_ radix0 radix1
    intro x y hasX hasY i before
    obtain ⟨x', hasX', sameX⟩ := near x hasX
    obtain ⟨y', hasY', sameY⟩ := near y hasY
    rw [sameX i before, sameY i before]
    exact agree x' y' hasX' hasY' i before

/-- The bindings of `t'` are those of `t` with `k` bound to `val`. -/
def Rebound (k : T.Key) (val : V) (t t' : Trie T V) : Prop :=
  ∀ e, e ∈ t'.toList ↔ e = (k, val) ∨ e.1 ≠ k ∧ e ∈ t.toList

theorem Rebound.hasKey {k k' : T.Key} {val : V} {t t' : Trie T V} (rebound : Rebound k val t t')
    (has : t'.HasKey k') : k' = k ∨ t.HasKey k' := by
  obtain ⟨v', member⟩ := has
  rcases (rebound _).mp member with same | ⟨_, inside⟩
  · exact .inl (Prod.mk.inj same).1
  · exact .inr ⟨v', inside⟩

theorem Radix.replaceImpl {p : Nat} {t : Trie T V} (radix : Radix p t) {k : T.Key} (val : V)
    (has : t.HasKey k) :
    Radix p (t.replaceImpl (T.toOrd k) k val) ∧
      Rebound k val t (t.replaceImpl (T.toOrd k) k val) ∧
      (t.replaceImpl (T.toOrd k) k val).toList.length = t.toList.length := by
  induction t generalizing p with
  | leaf key value =>
    cases hasKey_leaf.mp has
    refine ⟨.leaf p k val, ?_, rfl⟩
    intro e
    simp only [Trie.replaceImpl, toList, mem_singleton]
    constructor
    · exact .inl
    · rintro (same | ⟨other, rfl⟩)
      · exact same
      · exact absurd rfl other
  | branch b c0 c1 ih0 ih1 =>
    have whole := radix
    cases radix with
    | branch after inside zeros ones agree radix0 radix1 =>
      rw [Trie.replaceImpl]
      rcases hasKey_branch.mp has with has0 | has1
      · rw [if_pos (whole.bitAt_of_first has0)]
        obtain ⟨radix', rebound, length⟩ := ih0 radix0 has0
        have keys : ∀ k', (c0.replaceImpl (T.toOrd k) k val).HasKey k' → c0.HasKey k' := by
          intro k' has'
          rcases rebound.hasKey has' with rfl | inside
          · exact has0
          · exact inside
        refine ⟨whole.rebranch radix' radix1 (fun k' has' => zeros k' (keys k' has')) ones ?_,
          ?_, by simp [toList, length]⟩
        · intro k' has'
          exact ⟨k', hasKey_branch.mpr ((hasKey_branch.mp has').imp_left (keys k')),
            fun _ _ => rfl⟩
        · intro e
          have elsewhere : e ∈ c1.toList → e.1 ≠ k := by
            rintro member rfl
            exact whole.bitAt_of_second (hasKey_of_mem member) (whole.bitAt_of_first has0)
          simp only [toList, mem_append, rebound e]
          tauto
      · rw [if_neg (whole.bitAt_of_second has1)]
        obtain ⟨radix', rebound, length⟩ := ih1 radix1 has1
        have keys : ∀ k', (c1.replaceImpl (T.toOrd k) k val).HasKey k' → c1.HasKey k' := by
          intro k' has'
          rcases rebound.hasKey has' with rfl | inside
          · exact has1
          · exact inside
        refine ⟨whole.rebranch radix0 radix' zeros (fun k' has' => ones k' (keys k' has')) ?_,
          ?_, by simp [toList, length]⟩
        · intro k' has'
          exact ⟨k', hasKey_branch.mpr ((hasKey_branch.mp has').imp_right (keys k')),
            fun _ _ => rfl⟩
        · intro e
          have elsewhere : e ∈ c0.toList → e.1 ≠ k := by
            rintro member rfl
            exact whole.bitAt_of_second has1 (whole.bitAt_of_first (hasKey_of_mem member))
          simp only [toList, mem_append, rebound e]
          tauto

/-! ## Splicing in a key -/

/-- A new branch above a node whose keys all part from `k` at `dpos`. -/
theorem Radix.spliceAbove {p dpos : Nat} {node : Trie T V} {k : T.Key} (val : V)
    (after : p ≤ dpos) (inside : dpos < T.bits) (radix : Radix (dpos + 1) node)
    (agree : ∀ k', node.HasKey k' → ∀ i, i < dpos → T.bit k i = T.bit k' i)
    (differ : ∀ k', node.HasKey k' → T.bit k dpos ≠ T.bit k' dpos) :
    Radix p (spliceAbove (T.toOrd k) k val dpos node) ∧
      (∀ e, e ∈ (spliceAbove (T.toOrd k) k val dpos node).toList ↔
        e = (k, val) ∨ e ∈ node.toList) ∧
      (spliceAbove (T.toOrd k) k val dpos node).toList.length = node.toList.length + 1 := by
  have agreeAll : ∀ x y, (x = k ∨ node.HasKey x) → (y = k ∨ node.HasKey y) →
      ∀ i, i < dpos → T.bit x i = T.bit y i := by
    rintro x y (rfl | hasX) (rfl | hasY) i before
    · rfl
    · exact agree y hasY i before
    · exact (agree x hasX i before).symm
    · exact (agree x hasX i before).symm.trans (agree y hasY i before)
  unfold Trie.spliceAbove
  split
  · rename_i zero
    rw [KeyType.bitAt_eq_zero_iff _ inside] at zero
    refine ⟨.branch after inside ?_ ?_ ?_ (.leaf _ _ _) radix, ?_, ?_⟩
    · intro k' has
      cases hasKey_leaf.mp has
      exact zero
    · intro k' has
      have other := differ k' has
      rw [KeyType.bit, zero] at other
      simpa using other.symm
    · intro x y hasX hasY
      rw [hasKey_branch, hasKey_leaf] at hasX hasY
      exact agreeAll x y hasX hasY
    · intro e
      simp [toList]
    · simp [toList]
  · rename_i nonzero
    rw [KeyType.bitAt_eq_zero_iff _ inside] at nonzero
    have one : T.bit k dpos = true := by simpa [KeyType.bit] using nonzero
    refine ⟨.branch after inside ?_ ?_ ?_ radix (.leaf _ _ _), ?_, ?_⟩
    · intro k' has
      have other := differ k' has
      rw [one] at other
      simpa using other.symm
    · intro k' has
      cases hasKey_leaf.mp has
      exact one
    · intro x y hasX hasY
      rw [hasKey_branch, hasKey_leaf] at hasX hasY
      exact agreeAll x y hasX.symm hasY.symm
    · intro e
      simp [toList, or_comm]
    · simp [toList]

theorem Radix.spliceImpl {p dpos : Nat} {t : Trie T V} (radix : Radix p t) {k : T.Key} (val : V)
    (after : p ≤ dpos) (inside : dpos < T.bits)
    (agree : ∀ i, i < dpos → T.bit k i = T.bit (t.findLeaf (T.toOrd k)).1 i)
    (differ : T.bit k dpos ≠ T.bit (t.findLeaf (T.toOrd k)).1 dpos) :
    Radix p (t.spliceImpl (T.toOrd k) k val dpos) ∧
      (∀ e, e ∈ (t.spliceImpl (T.toOrd k) k val dpos).toList ↔ e = (k, val) ∨ e ∈ t.toList) ∧
      (t.spliceImpl (T.toOrd k) k val dpos).toList.length = t.toList.length + 1 := by
  induction t generalizing p with
  | leaf key value =>
    apply Radix.spliceAbove val after inside (.leaf _ _ _)
    · intro k' has
      cases hasKey_leaf.mp has
      exact agree
    · intro k' has
      cases hasKey_leaf.mp has
      exact differ
  | branch b c0 c1 ih0 ih1 =>
    have whole := radix
    cases radix with
    | branch afterB insideB zeros ones agreeB radix0 radix1 =>
      rw [Trie.spliceImpl]
      by_cases later : b > dpos
      · -- all keys below agree with the leaf found up to the bit `b`
        rw [if_pos later]
        have found := hasKey_of_mem (findLeaf_mem (T.toOrd k) (Trie.branch b c0 c1))
        apply Radix.spliceAbove val after inside
          (.branch later insideB zeros ones agreeB radix0 radix1)
        · intro k' has i before
          rw [agree i before]
          exact agreeB _ k' found has i (by omega)
        · intro k' has
          rw [← agreeB _ k' found has dpos later]
          exact differ
      · rw [if_neg later]
        by_cases zero : T.bitAt (T.toOrd k) b = 0
        · have leafEq : (Trie.branch b c0 c1).findLeaf (T.toOrd k) =
              c0.findLeaf (T.toOrd k) := by
            rw [findLeaf, if_pos zero]
          have found := hasKey_of_mem (findLeaf_mem (T.toOrd k) c0)
          have bitZero : T.bit k b = false := (KeyType.bitAt_eq_zero_iff _ insideB).mp zero
          rw [leafEq] at agree differ
          have notHere : dpos ≠ b := by
            rintro rfl
            exact differ (by rw [zeros _ found, bitZero])
          obtain ⟨radix', content, length⟩ := ih0 radix0 (by omega) agree differ
          have keys : ∀ k', (c0.spliceImpl (T.toOrd k) k val dpos).HasKey k' →
              k' = k ∨ c0.HasKey k' := by
            rintro k' ⟨v', member⟩
            exact ((content _).mp member).imp (fun same => (Prod.mk.inj same).1)
              (fun inside' => ⟨v', inside'⟩)
          rw [if_pos zero]
          refine ⟨whole.rebranch radix' radix1 ?_ ones ?_, ?_, ?_⟩
          · intro k' has'
            rcases keys k' has' with rfl | has''
            · exact bitZero
            · exact zeros k' has''
          · intro k' has'
            rcases hasKey_branch.mp has' with has'' | has''
            · rcases keys k' has'' with rfl | old
              · exact ⟨_, hasKey_branch.mpr (.inl found),
                  fun i before => agree i (by omega)⟩
              · exact ⟨k', hasKey_branch.mpr (.inl old), fun _ _ => rfl⟩
            · exact ⟨k', hasKey_branch.mpr (.inr has''), fun _ _ => rfl⟩
          · intro e
            simp only [toList, mem_append, content, or_assoc]
          · simp only [toList, length_append, length]
            omega
        · have leafEq : (Trie.branch b c0 c1).findLeaf (T.toOrd k) =
              c1.findLeaf (T.toOrd k) := by
            rw [findLeaf, if_neg zero]
          have found := hasKey_of_mem (findLeaf_mem (T.toOrd k) c1)
          have bitOne : T.bit k b = true := by
            rw [KeyType.bitAt_eq_zero_iff _ insideB] at zero
            simpa [KeyType.bit] using zero
          rw [leafEq] at agree differ
          have notHere : dpos ≠ b := by
            rintro rfl
            exact differ (by rw [ones _ found, bitOne])
          obtain ⟨radix', content, length⟩ := ih1 radix1 (by omega) agree differ
          have keys : ∀ k', (c1.spliceImpl (T.toOrd k) k val dpos).HasKey k' →
              k' = k ∨ c1.HasKey k' := by
            rintro k' ⟨v', member⟩
            exact ((content _).mp member).imp (fun same => (Prod.mk.inj same).1)
              (fun inside' => ⟨v', inside'⟩)
          rw [if_neg zero]
          refine ⟨whole.rebranch radix0 radix' zeros ?_ ?_, ?_, ?_⟩
          · intro k' has'
            rcases keys k' has' with rfl | has''
            · exact bitOne
            · exact ones k' has''
          · intro k' has'
            rcases hasKey_branch.mp has' with has'' | has''
            · exact ⟨k', hasKey_branch.mpr (.inl has''), fun _ _ => rfl⟩
            · rcases keys k' has'' with rfl | old
              · exact ⟨_, hasKey_branch.mpr (.inr found),
                  fun i before => agree i (by omega)⟩
              · exact ⟨k', hasKey_branch.mpr (.inr old), fun _ _ => rfl⟩
          · intro e
            simp only [toList, mem_append, content]
            tauto
          · simp only [toList, length_append, length]
            omega

def ErasedTo (p : Nat) (k : T.Key) (t : Trie T V) : Option (Trie T V) × Bool → Prop
  | (_, false) => ¬t.HasKey k
  | (none, true) => ∃ v, t = leaf k v
  | (some t', true) =>
    t.HasKey k ∧ Radix p t' ∧ (∀ e, e ∈ t'.toList ↔ e.1 ≠ k ∧ e ∈ t.toList) ∧
      t'.toList.length + 1 = t.toList.length

theorem Radix.eraseImpl {p : Nat} {t : Trie T V} (radix : Radix p t) (k : T.Key) :
    ErasedTo p k t (t.eraseImpl (T.toOrd k) k) := by
  induction t generalizing p with
  | leaf key value =>
    rw [Trie.eraseImpl]
    split
    · rename_i same
      exact ⟨value, by rw [same]⟩
    · rename_i other
      rw [ErasedTo, hasKey_leaf]
      exact fun same => other same.symm
  | branch b c0 c1 ih0 ih1 =>
    have whole := radix
    cases radix with
    | branch after inside zeros ones agree radix0 radix1 =>
      rw [Trie.eraseImpl]
      by_cases zero : T.bitAt (T.toOrd k) b = 0
      · rw [if_pos zero]
        have notSecond : ¬c1.HasKey k := fun has => whole.bitAt_of_second has zero
        have elsewhere : ∀ e ∈ c1.toList, e.1 ≠ k := by
          rintro e member rfl
          exact notSecond (hasKey_of_mem member)
        have below := ih0 radix0
        generalize c0.eraseImpl (T.toOrd k) k = result at below
        obtain ⟨child, isFound⟩ := result
        cases isFound with
        | false =>
          rw [ErasedTo, hasKey_branch]
          exact fun has => has.elim below notSecond
        | true =>
          cases child with
          | none =>
            obtain ⟨v, single⟩ := below
            subst single
            refine ⟨hasKey_branch.mpr (.inl (hasKey_leaf.mpr rfl)), radix1.mono (by omega),
              ?_, by simp [toList]⟩
            intro e
            have other := elsewhere e
            simp only [toList, mem_append, mem_singleton]
            constructor
            · intro member
              exact ⟨other member, .inr member⟩
            · rintro ⟨distinct, rfl | member⟩
              · exact absurd rfl distinct
              · exact member
          | some t' =>
            obtain ⟨has, radix', content, length⟩ := below
            have keys : ∀ k', t'.HasKey k' → c0.HasKey k' := by
              rintro k' ⟨v', member⟩
              exact ⟨v', ((content _).mp member).2⟩
            refine ⟨hasKey_branch.mpr (.inl has),
              whole.rebranch radix' radix1 (fun k' has' => zeros k' (keys k' has')) ones ?_,
              ?_, by simp only [toList, length_append]; omega⟩
            · intro k' has'
              exact ⟨k', hasKey_branch.mpr ((hasKey_branch.mp has').imp_left (keys k')),
                fun _ _ => rfl⟩
            · intro e
              have other := elsewhere e
              simp only [toList, mem_append, content]
              tauto
      · rw [if_neg zero]
        have notFirst : ¬c0.HasKey k := fun has => zero (whole.bitAt_of_first has)
        have elsewhere : ∀ e ∈ c0.toList, e.1 ≠ k := by
          rintro e member rfl
          exact notFirst (hasKey_of_mem member)
        have below := ih1 radix1
        generalize c1.eraseImpl (T.toOrd k) k = result at below
        obtain ⟨child, isFound⟩ := result
        cases isFound with
        | false =>
          rw [ErasedTo, hasKey_branch]
          exact fun has => has.elim notFirst below
        | true =>
          cases child with
          | none =>
            obtain ⟨v, single⟩ := below
            subst single
            refine ⟨hasKey_branch.mpr (.inr (hasKey_leaf.mpr rfl)), radix0.mono (by omega),
              ?_, by simp [toList]⟩
            intro e
            have other := elsewhere e
            simp only [toList, mem_append, mem_singleton]
            constructor
            · intro member
              exact ⟨other member, .inl member⟩
            · rintro ⟨distinct, member | rfl⟩
              · exact member
              · exact absurd rfl distinct
          | some t' =>
            obtain ⟨has, radix', content, length⟩ := below
            have keys : ∀ k', t'.HasKey k' → c1.HasKey k' := by
              rintro k' ⟨v', member⟩
              exact ⟨v', ((content _).mp member).2⟩
            refine ⟨hasKey_branch.mpr (.inr has),
              whole.rebranch radix0 radix' zeros (fun k' has' => ones k' (keys k' has')) ?_,
              ?_, by simp only [toList, length_append]; omega⟩
            · intro k' has'
              exact ⟨k', hasKey_branch.mpr ((hasKey_branch.mp has').imp_right (keys k')),
                fun _ _ => rfl⟩
            · intro e
              simp only [toList, mem_append, content]
              tauto

end Trie

end Micron.Itable
