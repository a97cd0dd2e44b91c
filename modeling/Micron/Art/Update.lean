import Micron.Lib.Routing
import Micron.Art.Layout

/-!
# Lookup, insertion and erasure in the radix tree

`Good hash d n`: below a node at level `d` every entry is in the child of its
hash byte `d`, and a leaf chains distinct keys of one hash.  Entries that agree
on all eight bytes have one hash, so the chains that the code keeps for
different hashes at the last level are never built.
-/

set_option autoImplicit false

namespace Micron.Art

open Micron.Lib List

variable {K V : Type}

theorem getLsbD_byteAt (h : UInt64) {j i : Nat} (level : j < hashBytes) (bit : i < 8) :
    (byteAt h j).toBitVec.getLsbD i = h.toBitVec.getLsbD (8 * j + i) := by
  have small : j < 8 := level
  have shift : (UInt64.ofNat (8 * j)).toBitVec % 64 = BitVec.ofNat 64 (8 * j) := by
    apply BitVec.eq_of_toNat_eq
    simp
    omega
  have amount : (BitVec.ofNat 64 (8 * j)).toNat = 8 * j := by
    simp
    omega
  rw [byteAt, if_neg (by omega)]
  simp only [UInt64.toBitVec_toUInt8, UInt64.toBitVec_shiftRight, shift, BitVec.getLsbD_setWidth,
    BitVec.ushiftRight_eq', amount, BitVec.getLsbD_ushiftRight]
  simp [bit]

theorem hash_eq_of_bytes {h h' : UInt64} (agree : ∀ j, j < hashBytes → byteAt h j = byteAt h' j) :
    h = h' := by
  apply UInt64.eq_of_toBitVec_eq
  apply BitVec.eq_of_getLsbD_eq
  intro p inside
  have level : p / 8 < hashBytes := by
    rw [hashBytes]
    omega
  have bit : p % 8 < 8 := Nat.mod_lt p (by decide)
  have place : 8 * (p / 8) + p % 8 = p := Nat.div_add_mod p 8
  have left := getLsbD_byteAt h level bit
  have right := getLsbD_byteAt h' level bit
  rw [place] at left right
  rw [← left, ← right, agree _ level]

theorem walk_leaf (head : Leaf K V) (next : List (Leaf K V)) : walk (.leaf head next) = head :: next := by
  rw [walk]

theorem walk_inner (n : Inner (Node K V)) : walk (.inner n) = n.children.flatMap walk := by
  rw [walk, flatMap_subtype (g := walk) (fun _ _ => rfl), unattach_attach]

theorem mem_walk_inner {n : Inner (Node K V)} (wf : n.WF) {lf : Leaf K V} :
    lf ∈ walk (.inner n) ↔ Below n.findChild walk lf := by
  rw [walk_inner, mem_flatMap]
  constructor
  · rintro ⟨c, child, member⟩
    obtain ⟨b, found⟩ := (Inner.mem_children wf).mp child
    exact ⟨b, c, found, member⟩
  · rintro ⟨b, c, found, member⟩
    exact ⟨c, (Inner.mem_children wf).mpr ⟨b, found⟩, member⟩

def levelByte (d : Nat) (lf : Leaf K V) : UInt8 := byteAt lf.hash d

inductive Good (hash : K → UInt64) : Nat → Node K V → Prop
  | leaf (d : Nat) {head : Leaf K V} {next : List (Leaf K V)}
      (hashed : ∀ lf ∈ head :: next, lf.hash = hash lf.key)
      (oneHash : ∀ lf ∈ next, lf.hash = head.hash)
      (distinct : ((head :: next).map Leaf.key).Nodup) : Good hash d (.leaf head next)
  | inner {d : Nat} {n : Inner (Node K V)} (shallow : d < hashBytes) (wf : n.WF)
      (routed : Routed n.findChild walk (levelByte d))
      (good : ∀ b c, n.findChild b = some c → Good hash (d + 1) c) : Good hash d (.inner n)

variable {hash : K → UInt64}

theorem Good.hashed {d : Nat} {n : Node K V} (good : Good hash d n) :
    ∀ lf ∈ walk n, lf.hash = hash lf.key := by
  induction good with
  | leaf d hashed _ _ =>
    intro lf member
    rw [walk_leaf] at member
    exact hashed lf member
  | inner _ wf _ _ ih =>
    intro lf member
    obtain ⟨b, c, found, inside⟩ := (mem_walk_inner wf).mp member
    exact ih b c found lf inside

theorem Good.nodup {d : Nat} {n : Node K V} (good : Good hash d n) :
    ((walk n).map Leaf.key).Nodup := by
  induction good with
  | leaf d _ _ distinct =>
    rw [walk_leaf]
    exact distinct
  | @inner d n shallow wf routed good ih =>
    rw [walk_inner]
    apply nodup_flatMap_of_routed Leaf.key routed (Inner.children_pairwise wf)
    · intro c child
      obtain ⟨b, found⟩ := (Inner.mem_children wf).mp child
      exact ih b c found
    · intro c child c' child' lf member lf' member' same
      obtain ⟨b, found⟩ := (Inner.mem_children wf).mp child
      obtain ⟨b', found'⟩ := (Inner.mem_children wf).mp child'
      rw [levelByte, levelByte, (good b c found).hashed lf member,
        (good b' c' found').hashed lf' member', same]

section Keys
variable [DecidableEq K]

/-- In a tree the hash of an entry is that of its key. -/
theorem leaf_is_hash {lf : Leaf K V} (hashed : lf.hash = hash lf.key) (k : K) :
    lf.is (hash k) k = true ↔ lf.key = k := by
  simp only [Leaf.is, Bool.and_eq_true, beq_iff_eq]
  constructor
  · exact fun both => both.2
  · intro same
    exact ⟨by rw [hashed, same], same⟩

theorem findLeaf_inner (h : UInt64) (k : K) (d : Nat) (n : Inner (Node K V)) :
    findLeaf h k d (.inner n) = (n.findChild (byteAt h d)).bind (findLeaf h k (d + 1)) := by
  rw [findLeaf]
  split <;> rename_i found <;> rw [found] <;> rfl

theorem Good.findLeaf_eq_some_iff {d : Nat} {n : Node K V} (good : Good hash d n) (k : K)
    (lf : Leaf K V) : findLeaf (hash k) k d n = some lf ↔ lf.key = k ∧ lf ∈ walk n := by
  induction good with
  | @leaf d head next hashed oneHash distinct =>
    rw [findLeaf, walk_leaf]
    constructor
    · intro found
      have member := mem_of_find?_eq_some found
      have is := @List.find?_some _ (fun lf : Leaf K V => lf.is (hash k) k) _ _ found
      exact ⟨(leaf_is_hash (hashed lf member) k).mp is, member⟩
    · rintro ⟨same, member⟩
      cases found : (head :: next).find? fun lf => lf.is (hash k) k with
      | none =>
        have missing := find?_eq_none.mp found lf member
        exact absurd ((leaf_is_hash (hashed lf member) k).mpr same) missing
      | some lf' =>
        have member' := mem_of_find?_eq_some found
        have is := @List.find?_some _ (fun lf : Leaf K V => lf.is (hash k) k) _ _ found
        have same' := (leaf_is_hash (hashed lf' member') k).mp is
        rw [inj_on_of_nodup_map distinct member' member (same'.trans same.symm)]
  | @inner d n shallow wf routed good ih =>
    have whole : Good hash d (.inner n) := .inner shallow wf routed good
    rw [findLeaf_inner, mem_walk_inner wf]
    have byte : lf.key = k → Below n.findChild walk lf → levelByte d lf = byteAt (hash k) d := by
      rintro rfl held
      rw [levelByte, whole.hashed lf ((mem_walk_inner wf).mpr held)]
    cases found : n.findChild (byteAt (hash k) d) with
    | none =>
      constructor
      · intro impossible
        cases impossible
      · rintro ⟨same, held⟩
        exact absurd held (routed.not_holds (byte same held) found)
    | some c =>
      rw [Option.bind_some, ih _ c found]
      constructor
      · rintro ⟨same, member⟩
        exact ⟨same, _, c, found, member⟩
      · rintro ⟨same, held⟩
        exact ⟨same, (routed.holds_iff (byte same held) found).mp held⟩

structure Inserted (hash : K → UInt64) (new : Leaf K V) (d : Nat) (n : Node K V)
    (result : Node K V × Bool) : Prop where
  good : Good hash d result.1
  entries : ∀ lf, lf ∈ walk result.1 ↔ lf = new ∨ lf.key ≠ new.key ∧ lf ∈ walk n
  added : result.2 = true ↔ ∀ lf ∈ walk n, lf.key ≠ new.key

theorem keys_chainPut_subset (new : Leaf K V) (chain : List (Leaf K V)) :
    ∀ k ∈ (chainPut new chain).1.map Leaf.key, k = new.key ∨ k ∈ chain.map Leaf.key := by
  induction chain with
  | nil => simp [chainPut]
  | cons cur next ih =>
    intro k member
    rw [chainPut] at member
    split at member
    · exact .inr member
    · simp only [map_cons, mem_cons] at member ⊢
      rcases member with rfl | later
      · exact .inr (.inl rfl)
      · rcases ih k later with same | old
        · exact .inl same
        · exact .inr (.inr old)

theorem nodup_chainPut (new : Leaf K V) {chain : List (Leaf K V)}
    (distinct : (chain.map Leaf.key).Nodup) : ((chainPut new chain).1.map Leaf.key).Nodup := by
  induction chain with
  | nil => simp [chainPut]
  | cons cur next ih =>
    rw [chainPut]
    split
    · exact distinct
    · rename_i other
      rw [map_cons, nodup_cons] at distinct ⊢
      refine ⟨?_, ih distinct.2⟩
      intro member
      rcases keys_chainPut_subset new next _ member with same | old
      · exact other same
      · exact distinct.1 old

/-- In a chain of one hash the new entry replaces that of its key or comes
last. -/
theorem chainPut_spec {new : Leaf K V} {chain : List (Leaf K V)}
    (oneHash : ∀ lf ∈ chain, lf.hash = new.hash) (distinct : (chain.map Leaf.key).Nodup) :
    (∀ lf, lf ∈ (chainPut new chain).1 ↔ lf = new ∨ lf.key ≠ new.key ∧ lf ∈ chain) ∧
      ((chainPut new chain).2 = true ↔ ∀ lf ∈ chain, lf.key ≠ new.key) := by
  induction chain with
  | nil => simp [chainPut]
  | cons cur next ih =>
    rw [chainPut]
    split
    · rename_i here
      have written : (⟨cur.hash, cur.key, new.value⟩ : Leaf K V) = new := by
        rw [oneHash cur mem_cons_self, here]
      refine ⟨fun lf => ?_, by simp [here]⟩
      rw [written]
      exact mem_put_here distinct here lf
    · rename_i other
      rw [map_cons, nodup_cons] at distinct
      obtain ⟨entries, added⟩ :=
        ih (fun lf member => oneHash lf (mem_cons_of_mem _ member)) distinct.2
      refine ⟨fun lf => mem_put_later other (entries lf), ?_⟩
      simp only [added, forall_mem_cons]
      exact iff_and_self.mpr fun _ => other

end Keys

/-! ### Splitting a leaf -/

theorem wf_n4_nil : (Inner.n4 ([] : List (UInt8 × Node K V))).WF := by
  simp [Inner.WF]

theorem good_single_child {d : Nat} (shallow : d < hashBytes) {b : UInt8} {c : Node K V}
    (good : Good hash (d + 1) c) (byte : ∀ lf ∈ walk c, levelByte d lf = b) :
    Good hash d (.inner ((Inner.n4 []).addChild b c)) ∧
      ∀ lf, lf ∈ walk (.inner ((Inner.n4 []).addChild b c)) ↔ lf ∈ walk c := by
  obtain ⟨wf, slots⟩ := (wf_n4_nil : (Inner.n4 ([] : List (UInt8 × Node K V))).WF).addChild rfl c
    (b := b)
  have only : ∀ b' c', ((Inner.n4 []).addChild b c).findChild b' = some c' → b' = b ∧ c' = c := by
    intro b' c' found
    rw [slots] at found
    split at found
    · rename_i here
      exact ⟨here, (Option.some.inj found).symm⟩
    · cases found
  constructor
  · refine .inner shallow wf ?_ ?_
    · intro b' c' found lf member
      obtain ⟨rfl, rfl⟩ := only b' c' found
      exact byte lf member
    · intro b' c' found
      obtain ⟨_, rfl⟩ := only b' c' found
      exact good
  · intro lf
    rw [mem_walk_inner wf]
    constructor
    · rintro ⟨b', c', found, member⟩
      obtain ⟨_, rfl⟩ := only b' c' found
      exact member
    · intro member
      exact ⟨b, c, by rw [slots, if_pos rfl], member⟩

section Split
variable {lf new : Leaf K V} {next : List (Leaf K V)}

theorem good_new_leaf (d : Nat) (hashed : new.hash = hash new.key) : Good hash d (.leaf new []) := by
  refine .leaf d ?_ nofun (by simp)
  intro lf member
  rw [mem_singleton.mp member]
  exact hashed

theorem splitNode_good {d : Nat} (shallow : d < hashBytes) (good : ∀ d, Good hash d (.leaf lf next))
    (hashed : new.hash = hash new.key) (apart : byteAt lf.hash d ≠ byteAt new.hash d) :
    Good hash d (splitNode lf next new d) ∧
      ∀ e, e ∈ walk (splitNode lf next new d) ↔ e = new ∨ e ∈ lf :: next := by
  have bytes : ∀ e ∈ walk (Node.leaf lf next), levelByte d e = byteAt lf.hash d := by
    intro e member
    rw [walk_leaf] at member
    rcases mem_cons.mp member with rfl | later
    · rfl
    · cases good d with
      | leaf _ _ oneHash _ => rw [levelByte, oneHash e later]
  obtain ⟨single, entries⟩ := good_single_child shallow (good (d + 1)) bytes
  cases single with
  | inner _ wf routed goods =>
    obtain ⟨_, slots⟩ := (wf_n4_nil : (Inner.n4 ([] : List (UInt8 × Node K V))).WF).addChild rfl
      (.leaf lf next) (b := byteAt lf.hash d)
    have absent : ((Inner.n4 []).addChild (byteAt lf.hash d) (Node.leaf lf next)).findChild
        (byteAt new.hash d) = none := by
      rw [slots, if_neg (Ne.symm apart)]
      rfl
    obtain ⟨wf', slots'⟩ := wf.addChild absent (.leaf new [])
    have newBytes : ∀ e ∈ walk (Node.leaf new []), levelByte d e = byteAt new.hash d := by
      intro e member
      rw [walk_leaf, mem_singleton] at member
      rw [member]
      rfl
    obtain ⟨routed', holds⟩ := routed.replace slots' newBytes
    constructor
    · exact .inner shallow wf' routed' (forall_replaced slots' goods (good_new_leaf (d + 1) hashed))
    · intro e
      rw [splitNode, mem_walk_inner wf', holds e, ← mem_walk_inner wf, entries e, walk_leaf,
        walk_leaf, mem_singleton]
      apply or_congr_right
      constructor
      · exact fun both => both.2
      · intro member
        refine ⟨?_, member⟩
        rw [bytes e (by rw [walk_leaf]; exact member)]
        exact apart

/-- The shared bytes are pushed down until the hashes part. -/
theorem splitDescend_good (good : ∀ d, Good hash d (.leaf lf next)) (hashed : new.hash = hash new.key)
    (different : lf.hash ≠ new.hash) (d : Nat) (level : d ≤ hashBytes)
    (agree : ∀ j, j < d → byteAt lf.hash j = byteAt new.hash j) :
    Good hash d (splitDescend lf next new d) ∧
      ∀ e, e ∈ walk (splitDescend lf next new d) ↔ e = new ∨ e ∈ lf :: next := by
  induction left : hashBytes - d generalizing d with
  | zero =>
    have last : d = hashBytes := by omega
    subst last
    exact absurd (hash_eq_of_bytes agree) different
  | succ left ih =>
    have shallow : d < hashBytes := by omega
    rw [splitDescend, if_neg (by omega)]
    by_cases apart : byteAt lf.hash d = byteAt new.hash d
    · have agree' : ∀ j, j < d + 1 → byteAt lf.hash j = byteAt new.hash j := by
        intro j less
        rcases Nat.lt_succ_iff_lt_or_eq.mp less with below | rfl
        · exact agree j below
        · exact apart
      obtain ⟨deeper, entries⟩ := ih (d + 1) (by omega) agree' (by omega)
      rw [if_neg (by simpa using apart)]
      obtain ⟨single, entries'⟩ := good_single_child shallow deeper (b := byteAt lf.hash d) (by
        intro e member
        rcases (entries e).mp member with rfl | old
        · exact apart.symm
        · rcases mem_cons.mp old with rfl | later
          · rfl
          · cases good d with
            | leaf _ _ oneHash _ => rw [levelByte, oneHash e later])
      refine ⟨single, ?_⟩
      intro e
      rw [entries' e, entries e]
    · rw [if_pos apart]
      exact splitNode_good shallow good hashed apart

end Split

section Keys
variable [DecidableEq K]

theorem insert_inner (new : Leaf K V) (d : Nat) (n : Inner (Node K V)) :
    insert new d (.inner n) =
      match n.findChild (byteAt new.hash d) with
      | some c =>
        (.inner (n.setChild (byteAt new.hash d) (insert new (d + 1) c).1),
          (insert new (d + 1) c).2)
      | none => (.inner (n.addChild (byteAt new.hash d) (.leaf new [])), true) := by
  rw [insert]
  split <;> rename_i found <;> rw [found]

theorem inserted_leaf {new lf : Leaf K V} {next : List (Leaf K V)} {d : Nat}
    (level : d ≤ hashBytes) (good : ∀ d, Good hash d (.leaf lf next))
    (hashed : new.hash = hash new.key)
    (agree : ∀ j, j < d → byteAt lf.hash j = byteAt new.hash j) :
    Inserted hash new d (.leaf lf next) (insert new d (.leaf lf next)) := by
  obtain ⟨chainHashed, oneHash, distinct⟩ :
      (∀ e ∈ lf :: next, e.hash = hash e.key) ∧ (∀ e ∈ next, e.hash = lf.hash) ∧
        ((lf :: next).map Leaf.key).Nodup := by
    cases good d with
    | leaf _ chainHashed oneHash distinct => exact ⟨chainHashed, oneHash, distinct⟩
  rw [insert]
  by_cases same : lf.hash = new.hash
  · rw [if_pos same]
    have oneHash' : ∀ e ∈ lf :: next, e.hash = new.hash := by
      intro e member
      rcases mem_cons.mp member with rfl | later
      · exact same
      · rw [oneHash e later, same]
    obtain ⟨entries, added⟩ := chainPut_spec oneHash' distinct
    have nodup := nodup_chainPut new distinct
    have hashes : ∀ e ∈ (chainPut new (lf :: next)).1, e.hash = new.hash := by
      intro e member
      rcases (entries e).mp member with rfl | ⟨_, old⟩
      · rfl
      · exact oneHash' e old
    generalize chainPut new (lf :: next) = result at entries added nodup hashes
    obtain ⟨chain, inserted⟩ := result
    cases chain with
    | nil =>
      have impossible := (entries new).mpr (.inl rfl)
      cases impossible
    | cons lf' next' =>
      constructor
      · refine .leaf d ?_ ?_ nodup
        · intro e member
          rcases (entries e).mp member with rfl | ⟨_, old⟩
          · exact hashed
          · exact chainHashed e old
        · intro e member
          rw [hashes e (mem_cons_of_mem _ member), hashes lf' mem_cons_self]
      · intro e
        rw [walk_leaf, walk_leaf]
        exact entries e
      · rw [walk_leaf]
        exact added
  · have shallow : d < hashBytes := by
      rcases lt_or_eq_of_le level with below | rfl
      · exact below
      · exact absurd (hash_eq_of_bytes agree) same
    have outcome : (if byteAt lf.hash d = byteAt new.hash d then
          ((.inner ((Inner.n4 []).addChild (byteAt lf.hash d)
            (splitDescend lf next new (d + 1))) : Node K V), true)
        else (splitNode lf next new d, true)) = (splitDescend lf next new d, true) := by
      conv_rhs => rw [splitDescend, if_neg (show ¬d ≥ hashBytes by omega)]
      by_cases equal : byteAt lf.hash d = byteAt new.hash d
      · simp [equal]
      · simp [equal]
    rw [if_neg same, if_neg (by omega), outcome]
    obtain ⟨good', entries⟩ := splitDescend_good good hashed same d level agree
    -- different hashes, so different keys
    have others : ∀ e ∈ lf :: next, e.key ≠ new.key := by
      intro e member equal
      apply same
      rw [hashed, ← equal, ← chainHashed e member]
      rcases mem_cons.mp member with rfl | later
      · rfl
      · exact (oneHash e later).symm
    constructor
    · exact good'
    · intro e
      rw [entries e, walk_leaf]
      exact or_congr_right (iff_and_self.mpr (others e))
    · rw [walk_leaf]
      exact iff_of_true rfl others

theorem Good.insert {d : Nat} {n : Node K V} (good : Good hash d n) (new : Leaf K V)
    (level : d ≤ hashBytes) (hashed : new.hash = hash new.key)
    (agree : ∀ e ∈ walk n, ∀ j, j < d → byteAt e.hash j = byteAt new.hash j) :
    Inserted hash new d n (insert new d n) := by
  induction good with
  | @leaf d lf next chainHashed oneHash distinct =>
    apply inserted_leaf level (fun d => .leaf d chainHashed oneHash distinct) hashed
    exact agree lf (by rw [walk_leaf]; exact mem_cons_self)
  | @inner d n shallow wf routed good ih =>
    have whole : Good hash d (.inner n) := .inner shallow wf routed good
    have byte : ∀ e, Below n.findChild walk e → ¬e.key ≠ new.key →
        levelByte d e = byteAt new.hash d := by
      intro e held same
      rw [levelByte, whole.hashed e ((mem_walk_inner wf).mpr held), hashed, not_not.mp same]
    rw [insert_inner]
    cases found : n.findChild (byteAt new.hash d) with
    | none =>
      obtain ⟨wf', slots⟩ := wf.addChild found (.leaf new [])
      obtain ⟨routed', entries⟩ := routed.put_child found slots rfl
        (fun e => by rw [walk_leaf, mem_singleton]) byte
      constructor
      · exact .inner shallow wf' routed' (forall_replaced slots good (good_new_leaf (d + 1) hashed))
      · intro e
        rw [mem_walk_inner wf', entries e, mem_walk_inner wf]
      · refine iff_of_true rfl ?_
        intro e member same
        have held := (mem_walk_inner wf).mp member
        exact routed.not_holds (byte e held (not_not.mpr same)) found held
    | some c =>
      have agree' : ∀ e ∈ walk c, ∀ j, j < d + 1 → byteAt e.hash j = byteAt new.hash j := by
        intro e member j less
        rcases Nat.lt_succ_iff_lt_or_eq.mp less with below | rfl
        · exact agree e ((mem_walk_inner wf).mpr ⟨_, c, found, member⟩) j below
        · exact routed _ c found e member
      obtain ⟨goodChild, childEntries, childAdded⟩ := ih _ c found (by omega) agree'
      have there : (n.findChild (byteAt new.hash d)).isSome := by rw [found]; rfl
      have slots := Inner.findChild_setChild wf there (Art.insert new (d + 1) c).1
      obtain ⟨routed', entries⟩ := routed.put found slots rfl childEntries byte
      have wf' := wf.setChild (Art.insert new (d + 1) c).1 (b := byteAt new.hash d)
      constructor
      · exact .inner shallow wf' routed' (forall_replaced slots good goodChild)
      · intro e
        rw [mem_walk_inner wf', entries e, mem_walk_inner wf]
      · rw [childAdded]
        constructor
        · intro others e member same
          have held := (mem_walk_inner wf).mp member
          have inside := (routed.holds_iff (byte e held (not_not.mpr same)) found).mp held
          exact others e inside same
        · intro others e member
          exact others e ((mem_walk_inner wf).mpr ⟨_, c, found, member⟩)

/-! ## Erasure -/

structure Erased (hash : K → UInt64) (k : K) (d : Nat) (n : Node K V)
    (result : Option (Node K V) × Bool) : Prop where
  found : result.2 = true ↔ ∃ lf ∈ walk n, lf.key = k
  good : ∀ n', result.1 = some n' → Good hash d n'
  entries : ∀ lf, (∃ n', result.1 = some n' ∧ lf ∈ walk n') ↔ lf.key ≠ k ∧ lf ∈ walk n

omit [DecidableEq K] in
theorem erased_missing {k : K} {d : Nat} {n : Node K V} (good : Good hash d n)
    (absent : ∀ lf ∈ walk n, lf.key ≠ k) : Erased hash k d n (some n, false) := by
  constructor
  · constructor
    · intro impossible
      cases impossible
    · rintro ⟨lf, member, same⟩
      exact absurd same (absent lf member)
  · rintro n' same
    cases same
    exact good
  · intro lf
    constructor
    · rintro ⟨n', same, member⟩
      cases same
      exact ⟨absent lf member, member⟩
    · rintro ⟨_, member⟩
      exact ⟨n, rfl, member⟩

omit [DecidableEq K] in
theorem erased_some {k : K} {d : Nat} {n n' : Node K V} (there : ∃ lf ∈ walk n, lf.key = k)
    (good : Good hash d n') (entries : ∀ lf, lf ∈ walk n' ↔ lf.key ≠ k ∧ lf ∈ walk n) :
    Erased hash k d n (some n', true) := by
  constructor
  · exact iff_of_true rfl there
  · rintro _ same
    cases same
    exact good
  · intro lf
    rw [← entries lf]
    constructor
    · rintro ⟨_, same, member⟩
      cases same
      exact member
    · intro member
      exact ⟨n', rfl, member⟩

omit [DecidableEq K] in
theorem erased_none {k : K} {d : Nat} {n : Node K V} (there : ∃ lf ∈ walk n, lf.key = k)
    (nothing : ∀ lf ∈ walk n, lf.key = k) : Erased hash k d n (none, true) := by
  constructor
  · exact iff_of_true rfl there
  · intro _ impossible
    cases impossible
  · intro lf
    constructor
    · rintro ⟨_, impossible, _⟩
      cases impossible
    · rintro ⟨other, member⟩
      exact absurd (nothing lf member) other

theorem mem_eraseP_chain {chain : List (Leaf K V)} (k : K)
    (hashed : ∀ lf ∈ chain, lf.hash = hash lf.key) (distinct : (chain.map Leaf.key).Nodup)
    (lf : Leaf K V) :
    lf ∈ (chain.eraseP fun lf => lf.is (hash k) k) ↔ lf.key ≠ k ∧ lf ∈ chain := by
  induction chain with
  | nil => simp
  | cons first rest ih =>
    by_cases here : first.key = k
    · have hit := (leaf_is_hash (hashed first mem_cons_self) k).mpr here
      rw [eraseP_cons, hit, cond_true]
      exact mem_tail_of_distinct distinct here lf
    · have miss := (leaf_is_hash (hashed first mem_cons_self) k).not.mpr here
      rw [map_cons, nodup_cons] at distinct
      rw [eraseP_cons, Bool.eq_false_iff.mpr miss, cond_false]
      exact mem_cons_kept here (ih (fun lf member => hashed lf (mem_cons_of_mem _ member)) distinct.2)

theorem erased_leaf {k : K} {d : Nat} {head : Leaf K V} {next : List (Leaf K V)}
    (hashed : ∀ lf ∈ head :: next, lf.hash = hash lf.key)
    (oneHash : ∀ lf ∈ next, lf.hash = head.hash)
    (distinct : ((head :: next).map Leaf.key).Nodup) :
    Erased hash k d (.leaf head next) (erase (hash k) k d (.leaf head next)) := by
  have is : ∀ lf ∈ head :: next, lf.is (hash k) k = true ↔ lf.key = k :=
    fun lf member => leaf_is_hash (hashed lf member) k
  have parts := distinct
  rw [map_cons, nodup_cons] at parts
  obtain ⟨_, restDistinct⟩ := parts
  rw [erase.eq_def]
  simp only
  split
  · rename_i hit
    have here := (is head mem_cons_self).mp hit
    subst here
    have there : ∃ lf ∈ walk (.leaf head next), lf.key = head.key :=
      ⟨head, by rw [walk_leaf]; exact mem_cons_self, rfl⟩
    cases next with
    | nil =>
      apply erased_none there
      intro lf member
      rw [walk_leaf, mem_singleton] at member
      rw [member]
    | cons lf rest =>
      apply erased_some there
      · refine .leaf d (fun e member => hashed e (mem_cons_of_mem _ member)) ?_ restDistinct
        intro e member
        rw [oneHash e (mem_cons_of_mem _ member), oneHash lf mem_cons_self]
      · intro e
        rw [walk_leaf, walk_leaf]
        exact mem_tail_of_distinct distinct rfl e
  · rename_i miss
    rw [is head mem_cons_self] at miss
    split
    · rename_i inChain
      obtain ⟨target, inNext, hit⟩ := any_eq_true.mp inChain
      have key := (is target (mem_cons_of_mem _ inNext)).mp hit
      have shorter : (next.eraseP fun lf => lf.is (hash k) k).Sublist next := eraseP_sublist
      apply erased_some ⟨target, by rw [walk_leaf]; exact mem_cons_of_mem _ inNext, key⟩
      · refine .leaf d ?_ ?_ ?_
        · intro lf member
          exact hashed lf ((shorter.cons_cons head).subset member)
        · intro lf member
          exact oneHash lf (shorter.subset member)
        · exact distinct.sublist ((shorter.cons_cons head).map Leaf.key)
      · intro lf
        rw [walk_leaf, walk_leaf]
        exact mem_cons_kept miss (mem_eraseP_chain k
          (fun lf member => hashed lf (mem_cons_of_mem head member)) restDistinct lf)
    · rename_i notInChain
      apply erased_missing (.leaf d hashed oneHash distinct)
      intro lf member same
      rw [walk_leaf] at member
      rcases mem_cons.mp member with rfl | later
      · exact miss same
      · exact notInChain (any_eq_true.mpr ⟨lf, later, (is lf member).mpr same⟩)

theorem erase_inner (h : UInt64) (k : K) (d : Nat) (n : Inner (Node K V)) :
    erase h k d (.inner n) =
      match n.findChild (byteAt h d) with
      | none => (some (.inner n), false)
      | some child =>
        match erase h k (d + 1) child with
        | (_, false) => (some (.inner n), false)
        | (none, true) => ((n.removeChild (byteAt h d)).map Node.inner, true)
        | (some child', true) => (some (.inner (n.setChild (byteAt h d) child')), true) := by
  rw [erase]
  split
  · rename_i found
    rw [found]
  · rename_i child found
    exact found ▸ rfl

theorem Good.erase {d : Nat} {n : Node K V} (good : Good hash d n) (k : K) :
    Erased hash k d n (erase (hash k) k d n) := by
  induction good with
  | leaf d hashed oneHash distinct => exact erased_leaf hashed oneHash distinct
  | @inner d n shallow wf routed good ih =>
    have whole : Good hash d (.inner n) := .inner shallow wf routed good
    have byte : ∀ lf, Below n.findChild walk lf → ¬lf.key ≠ k →
        levelByte d lf = byteAt (hash k) d := by
      intro lf held same
      rw [levelByte, whole.hashed lf ((mem_walk_inner wf).mpr held), not_not.mp same]
    rw [erase_inner]
    cases found : n.findChild (byteAt (hash k) d) with
    | none =>
      apply erased_missing whole
      intro lf member same
      have held := (mem_walk_inner wf).mp member
      exact routed.not_holds (byte lf held (not_not.mpr same)) found held
    | some c =>
      obtain ⟨childFound, childGood, childEntries⟩ := ih _ c found
      have there : (n.findChild (byteAt (hash k) d)).isSome := by rw [found]; rfl
      have above : (∃ lf ∈ walk c, lf.key = k) → ∃ lf ∈ walk (.inner n), lf.key = k := by
        rintro ⟨lf, member, same⟩
        exact ⟨lf, (mem_walk_inner wf).mpr ⟨_, c, found, member⟩, same⟩
      simp only
      generalize Art.erase (hash k) k (d + 1) c = result at childFound childGood childEntries
      obtain ⟨child, isFound⟩ := result
      cases isFound with
      | false =>
        apply erased_missing whole
        intro lf member same
        have held := (mem_walk_inner wf).mp member
        have inside := (routed.holds_iff (byte lf held (not_not.mpr same)) found).mp held
        have impossible := childFound.mpr ⟨lf, inside, same⟩
        cases impossible
      | true =>
        cases child with
        | some c' =>
          have slots := Inner.findChild_setChild wf there c'
          have below : ∀ lf, lf ∈ walk c' ↔ lf.key ≠ k ∧ lf ∈ walk c := by
            intro lf
            rw [← childEntries lf]
            simp
          obtain ⟨routed', entries⟩ := routed.take found slots below byte
          have wf' := wf.setChild c' (b := byteAt (hash k) d)
          apply erased_some (above (childFound.mp rfl))
          · exact .inner shallow wf' routed' (forall_replaced slots good (childGood c' rfl))
          · intro lf
            rw [mem_walk_inner wf', entries lf, mem_walk_inner wf]
        | none =>
          have below : ∀ lf ∈ walk c, ¬lf.key ≠ k := by
            intro lf member other
            obtain ⟨_, impossible, _⟩ := (childEntries lf).mpr ⟨other, member⟩
            cases impossible
          have removed := wf.removeChild there
          generalize n.removeChild (byteAt (hash k) d) = result at removed
          cases result with
          | none =>
            -- the emptied 4-way node had no other child
            apply erased_none (above (childFound.mp rfl))
            intro lf member
            obtain ⟨b, c', found', inside⟩ := (mem_walk_inner wf).mp member
            by_cases same : b = byteAt (hash k) d
            · rw [same, found, Option.some.injEq] at found'
              subst found'
              exact not_not.mp (below lf inside)
            · rw [removed b same] at found'
              cases found'
          | some n' =>
            obtain ⟨wf', slots⟩ := removed
            obtain ⟨routed', entries⟩ := routed.take_child found slots below byte
            apply erased_some (above (childFound.mp rfl))
            · exact .inner shallow wf' routed' fun b c' found' => good b c' (of_removed slots found').2
            · intro lf
              rw [mem_walk_inner wf', entries lf, mem_walk_inner wf]

end Keys

end Micron.Art
