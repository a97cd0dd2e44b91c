import Micron.BTree.Iteration
import Micron.BTree.Size

/-!
# Queries by the order of the hashes

`hash_min` and its kin go through the leaf list and take the first entry with the best
hash among those that qualify.  Operations that wait in a buffer are not in a leaf, so
the queries agree with the lookups as long as what waits changes neither which hashes
the leaf list has nor the first entry of any of them.
-/

set_option autoImplicit false

namespace Micron.BTree

open Micron.Lib List

variable {K V : Type}

/-- One round of a loop: `best` is null before the first entry that qualifies. -/
def scanStep (qualifies : Nat → Bool) (better : Nat → Nat → Bool) (best : Option (Entry K V))
    (e : Entry K V) : Option (Entry K V) :=
  match best with
  | none => if qualifies e.hash then some e else none
  | some b => if qualifies e.hash && better e.hash b.hash then some e else some b

def scanLeaves (qualifies : Nat → Bool) (better : Nat → Nat → Bool) (entries : List (Entry K V)) :
    Option (Entry K V) :=
  entries.foldl (scanStep qualifies better) none

def less (a b : Nat) : Bool := decide (a < b)

def greater (a b : Nat) : Bool := decide (b < a)

def BTreeMap.hashMin (m : BTreeMap K V) : Option (Entry K V) :=
  scanLeaves (fun _ => true) less m.visited

def BTreeMap.hashMax (m : BTreeMap K V) : Option (Entry K V) :=
  scanLeaves (fun _ => true) greater m.visited

def BTreeMap.hashLowerBound (m : BTreeMap K V) (h : Nat) : Option (Entry K V) :=
  scanLeaves (fun x => decide (h ≤ x)) less m.visited

def BTreeMap.hashUpperBound (m : BTreeMap K V) (h : Nat) : Option (Entry K V) :=
  scanLeaves (fun x => decide (h < x)) less m.visited

def BTreeMap.hashPredecessor (m : BTreeMap K V) (h : Nat) : Option (Entry K V) :=
  scanLeaves (fun x => decide (x < h)) greater m.visited

def BTreeMap.hashSuccessor (m : BTreeMap K V) (h : Nat) : Option (Entry K V) := m.hashUpperBound h

def FirstOfHash (entries : List (Entry K V)) (e : Entry K V) : Prop :=
  ∃ before after, entries = before ++ e :: after ∧ ∀ x ∈ before, x.hash ≠ e.hash

theorem FirstOfHash.mem {entries : List (Entry K V)} {e : Entry K V} (first : FirstOfHash entries e) :
    e ∈ entries := by
  obtain ⟨before, after, rfl, -⟩ := first
  simp

theorem FirstOfHash.unique {entries : List (Entry K V)} {e e' : Entry K V}
    (first : FirstOfHash entries e) (first' : FirstOfHash entries e') (same : e.hash = e'.hash) :
    e = e' := by
  obtain ⟨before, after, rfl, fresh⟩ := first
  obtain ⟨before', after', split, fresh'⟩ := first'
  induction before generalizing before' with
  | nil =>
    cases before' with
    | nil => exact (List.cons.inj split).1
    | cons x rest =>
      obtain ⟨rfl, -⟩ := List.cons.inj split
      exact absurd same (fresh' _ mem_cons_self)
  | cons x rest ih =>
    cases before' with
    | nil =>
      obtain ⟨rfl, -⟩ := List.cons.inj split
      exact absurd same.symm (fresh _ mem_cons_self)
    | cons x' rest' =>
      exact ih (fun y inside => fresh y (mem_cons_of_mem x inside)) rest'
        (List.cons.inj split).2 fun y inside => fresh' y (mem_cons_of_mem x' inside)

/-- What a loop comes to, for an order that is that of `rank`. -/
theorem scanLeaves_spec (qualifies : Nat → Bool) {better : Nat → Nat → Bool} {rank : Nat → Int}
    (order : ∀ a b, better a b = true ↔ rank a < rank b) (entries : List (Entry K V)) :
    match scanLeaves qualifies better entries with
    | none => ∀ x ∈ entries, qualifies x.hash = false
    | some b => FirstOfHash entries b ∧ qualifies b.hash = true ∧
        ∀ x ∈ entries, qualifies x.hash = true → rank b.hash ≤ rank x.hash := by
  induction entries using List.reverseRecOn with
  | nil => exact fun x inside => nomatch inside
  | append_singleton rest e ih =>
    have step : scanLeaves qualifies better (rest ++ [e]) =
        scanStep qualifies better (scanLeaves qualifies better rest) e := by
      simp [scanLeaves]
    have last {P : Entry K V → Prop} (old : ∀ x ∈ rest, P x) (new : P e) :
        ∀ x ∈ rest ++ [e], P x := by
      intro x inside
      rcases mem_append.mp inside with before | here
      · exact old x before
      · exact mem_singleton.mp here ▸ new
    rw [step]
    unfold scanStep
    cases known : scanLeaves qualifies better rest with
    | none =>
      rw [known] at ih
      by_cases good : qualifies e.hash = true
      · rw [if_pos good]
        refine ⟨⟨rest, [], rfl, fun x inside same => ?_⟩, good, ?_⟩
        · have bad := ih x inside
          rw [same, good] at bad
          cases bad
        · refine last (fun x inside good' => ?_) fun _ => le_rfl
          rw [ih x inside] at good'
          cases good'
      · rw [if_neg good]
        exact last ih (by simpa using good)
    | some b =>
      rw [known] at ih
      dsimp only at ih ⊢
      obtain ⟨⟨before, after, split, fresh⟩, goodB, best⟩ := ih
      by_cases takes : (qualifies e.hash && better e.hash b.hash) = true
      · rw [if_pos takes]
        rw [Bool.and_eq_true, order] at takes
        refine ⟨⟨rest, [], rfl, fun x inside same => ?_⟩, takes.1, ?_⟩
        · have bound := best x inside (same ▸ takes.1)
          rw [same] at bound
          exact absurd takes.2 (not_lt.mpr bound)
        · exact last (fun x inside good => le_trans (le_of_lt takes.2) (best x inside good))
            fun _ => le_rfl
      · rw [if_neg takes]
        refine ⟨⟨before, after ++ [e], by simp [split], fresh⟩, goodB, last best fun good => ?_⟩
        rw [Bool.and_eq_true, order, not_and] at takes
        exact not_lt.mp (takes good)

theorem less_order (a b : Nat) : less a b = true ↔ (a : Int) < (b : Int) := by
  simp [less]

theorem greater_order (a b : Nat) : greater a b = true ↔ -(a : Int) < -(b : Int) := by
  simp [greater]

section Waiting
variable [DecidableEq K] (fo : Fanouts)

/-- The operation that a lookup meets in a buffer on its way down. -/
def Tree.waiting : (height : Nat) → Tree K V height → Nat → K → Option (PendingOp K V)
  | 0 => fun _ _ _ => none
  | height + 1 => fun tree h k =>
    let node : Inner K V (Tree K V height) := tree
    match (node.buffer.filter (PendingOp.isFor h k)).getLast? with
    | some op => some op
    | none => Tree.waiting height (node.row.child (routeGt fo.inner node.row.pivots h)) h k

def Tree.stored : (height : Nat) → Tree K V height → Nat → K → Option V
  | 0 => Leaf.find
  | height + 1 => fun tree h =>
    let node : Inner K V (Tree K V height) := tree
    Tree.stored height (node.row.child (routeGt fo.inner node.row.pivots h)) h

def BTreeMap.waiting (m : BTreeMap K V) (h : Nat) (k : K) : Option (PendingOp K V) :=
  match m.buckets (m.bucketOf h) with
  | none => none
  | some root => Tree.waiting fo root.height root.tree h k

def BTreeMap.stored (m : BTreeMap K V) (h : Nat) (k : K) : Option V :=
  match m.buckets (m.bucketOf h) with
  | none => none
  | some root => Tree.stored fo root.height root.tree h k

variable {fo}

theorem Tree.find_eq : ∀ (height : Nat) (tree : Tree K V height) (h : Nat) (k : K),
    Tree.find fo height tree h k = match Tree.waiting fo height tree h k with
      | some op => op.value
      | none => Tree.stored fo height tree h k := by
  intro height
  induction height with
  | zero => exact fun _ _ _ => rfl
  | succ height ih =>
    intro tree h k
    show Inner.find fo (Tree.find fo height) _ h k = _
    unfold Inner.find Tree.waiting Tree.stored
    dsimp only
    cases (List.filter (PendingOp.isFor h k) (Inner.buffer tree)).getLast? with
    | some op => rfl
    | none => exact ih _ h k

theorem BTreeMap.find_eq (m : BTreeMap K V) (h : Nat) (k : K) :
    m.find fo h k = match m.waiting fo h k with
      | some op => op.value
      | none => m.stored fo h k := by
  unfold BTreeMap.find BTreeMap.waiting BTreeMap.stored
  cases m.buckets (m.bucketOf h) with
  | none => rfl
  | some root => exact Tree.find_eq root.height root.tree h k

variable {Q : Nat → K → Prop} {leafP : Nat → Nat → Leaf K V → Prop}

omit [DecidableEq K] in
theorem rowLeaves_hold {α : Type} {P : Nat → Nat → α → Prop} {leaves : α → List (LeafNode K V)}
    {look : α → Nat → K → Option V}
    (each : ∀ lo hi c, P lo hi c → LeavesHold Q (within lo hi) (leaves c) (look c)) :
    ∀ {tail : List (Nat × α)} {lo hi : Nat} {c : α}, RowWF P lo hi c tail →
      LeavesHold Q (within lo hi) (rowItems leaves ⟨c, tail⟩) (rowLook look ⟨c, tail⟩) := by
  intro tail
  induction tail with
  | nil =>
    intro lo hi c wf
    have here := each lo hi c wf
    rwa [← append_nil (leaves c)] at here
  | cons first rest ih =>
    intro lo hi c wf
    obtain ⟨p, c'⟩ := first
    obtain ⟨order, top, here, later⟩ := wf
    rw [rowItems_cons]
    exact (each lo p c here).append_ranges order top (ih later) fun h _ => rowLook_cons c c' p rest h

theorem Tree.leaves_hold (leaf : ∀ lo hi l, leafP lo hi l → LeafWF Q lo hi l) :
    ∀ (height : Nat) (lo hi : Nat) (tree : Tree K V height), TreeWF Q leafP height lo hi tree →
      LeavesHold Q (within lo hi) (Tree.leaves height tree) (Tree.stored fo height tree) := by
  intro height
  induction height with
  | zero => exact fun lo hi tree wf => (leaf lo hi tree wf).leavesHold
  | succ height ih =>
    intro lo hi tree wf
    have row : RowP (TreeWF Q leafP height) lo hi (Inner.row tree) := InnerWF.row wf
    refine (rowLeaves_hold ih row).congr fun h _ => ?_
    show Tree.stored fo height
      ((Inner.row tree).child (routeGt fo.inner (Inner.row tree).pivots h)) h = _
    rw [routeGt_eq row]
    rfl

variable {U : Nat → K → Prop} {L : (Nat → K → Prop) → Nat → Nat → Leaf K V → Prop}
  {m : BTreeMap K V}

theorem BTreeMap.leaves_hold (wf : MapWF U L m)
    (leaf : ∀ b lo hi l, L (inBucket m.nBuckets U b) lo hi l → LeafWF (inBucket m.nBuckets U b) lo hi l) :
    LeavesHold U (fun h => h < hashBound) m.allLeaves (m.stored fo) := by
  have some (b h : Nat) (here : m.bucketOf h = b) : m.stored fo h = match m.buckets b with
      | none => fun _ => none
      | some root => Tree.stored fo root.height root.tree h := by
    unfold BTreeMap.stored
    rw [here]
    cases m.buckets b <;> rfl
  have bucket (b : Nat) : LeavesHold U (fun h => h < hashBound ∧ m.bucketOf h = b)
      (rootLeaves (m.buckets b)) (m.stored fo) := by
    cases here : m.buckets b with
    | none =>
      refine ⟨fun e member => (nomatch member), nodup_nil, fun h inside k v => ?_⟩
      rw [some b h inside.2, here]
      exact ⟨fun found => (nomatch found), fun member => (nomatch member)⟩
    | some root =>
      have held : LeavesHold (inBucket m.nBuckets U b) (within 0 hashBound)
          (Tree.leaves root.height root.tree) (Tree.stored fo root.height root.tree) :=
        Tree.leaves_hold (leaf b) root.height 0 hashBound root.tree (wf.trees b root here)
      refine ⟨fun e member => ?_, held.distinct, fun h inside k v => ?_⟩
      · obtain ⟨range, atB, admitted⟩ := held.ranged e member
        exact ⟨⟨range.2, atB⟩, admitted⟩
      · rw [some b h inside.2, here]
        exact held.looks h ⟨Nat.zero_le h, inside.1⟩ k v
  have buckets (bs : List Nat) (once : bs.Nodup) :
      LeavesHold U (fun h => h < hashBound ∧ m.bucketOf h ∈ bs)
        (bs.flatMap fun b => rootLeaves (m.buckets b)) (m.stored fo) := by
    induction bs with
    | nil =>
      exact ⟨fun e member => (nomatch member), nodup_nil, fun h inside => nomatch inside.2⟩
    | cons b rest ih =>
      obtain ⟨fresh, once⟩ := nodup_cons.mp once
      refine (bucket b).append (ih once) ?_ ?_ (fun _ _ => rfl) fun _ _ => rfl
      · intro h here later
        exact fresh (here.2 ▸ later.2)
      · intro h
        rw [mem_cons]
        exact and_or_left
  have all := buckets (List.range m.nBuckets) nodup_range
  unfold BTreeMap.allLeaves
  rw [wf.attached, append_nil]
  refine ⟨fun e member => ?_, all.distinct, fun h below => ?_⟩
  · obtain ⟨inside, admitted⟩ := all.ranged e member
    exact ⟨inside.1, admitted⟩
  · exact all.looks h ⟨below, mem_range.mpr (bucketOf_lt wf.positive h)⟩

end Waiting

/-! ## Queries and lookups -/

section Queries
variable [DecidableEq K] (fo : Fanouts) (hash : K → UInt64)

/-- The answer is the entry of a key that is found, whose hash qualifies and is not
bettered by that of another such key; null if there is none. -/
def Answers (m : BTreeMap K V) (qualifies : Nat → Bool) (better : Nat → Nat → Bool) :
    Option (Entry K V) → Prop
  | none => ∀ k, qualifies (hash k).toNat = true → m.find fo (hash k).toNat k = none
  | some e => e.hash = (hash e.key).toNat ∧ m.find fo e.hash e.key = some e.value ∧
      qualifies e.hash = true ∧
      ∀ k, qualifies (hash k).toNat = true → (m.find fo (hash k).toNat k).isSome = true →
        better (hash k).toNat e.hash = false

structure QueriesAgree (m : BTreeMap K V) : Prop where
  min : Answers fo hash m (fun _ => true) less m.hashMin
  max : Answers fo hash m (fun _ => true) greater m.hashMax
  lowerBound : ∀ k, Answers fo hash m (fun x => decide ((hash k).toNat ≤ x)) less
    (m.hashLowerBound (hash k).toNat)
  upperBound : ∀ k, Answers fo hash m (fun x => decide ((hash k).toNat < x)) less
    (m.hashUpperBound (hash k).toNat)
  predecessor : ∀ k, Answers fo hash m (fun x => decide (x < (hash k).toNat)) greater
    (m.hashPredecessor (hash k).toNat)
  successor : ∀ k, Answers fo hash m (fun x => decide ((hash k).toNat < x)) less
    (m.hashSuccessor (hash k).toNat)

/-- An insert waits only for a hash that the leaf list has, and what waits for the first
entry of a hash is an insert of the value that it has. -/
structure WaitingHarmless (m : BTreeMap K V) : Prop where
  inserts : ∀ k op, m.waiting fo (hash k).toNat k = some op → op.value.isSome = true →
    ∃ e ∈ m.visited, e.hash = (hash k).toNat
  first : ∀ e, FirstOfHash m.visited e → ∀ op, m.waiting fo e.hash e.key = some op →
    op.value = some e.value

variable {fo hash} {m : BTreeMap K V}

theorem scan_answers (lists : ListsBindings (hashed hash) m.visited (m.stored fo))
    (harmless : WaitingHarmless fo hash m) {qualifies : Nat → Bool} {better : Nat → Nat → Bool}
    {rank : Nat → Int} (order : ∀ a b, better a b = true ↔ rank a < rank b) :
    Answers fo hash m qualifies better (scanLeaves qualifies better m.visited) := by
  -- a key that is found has an entry of its hash in the leaf list
  have present (k : K) (v : V) (found : m.find fo (hash k).toNat k = some v) :
      ∃ e ∈ m.visited, e.hash = (hash k).toNat := by
    rw [BTreeMap.find_eq] at found
    cases waits : m.waiting fo (hash k).toNat k with
    | some op =>
      rw [waits] at found
      exact harmless.inserts k op waits (by rw [show op.value = some v from found]; rfl)
    | none =>
      rw [waits] at found
      exact ⟨_, (lists.looks _ (toNat_lt_hashBound (hash k)) k v).mp found, rfl⟩
  have spec := scanLeaves_spec qualifies order m.visited
  cases known : scanLeaves qualifies better m.visited with
  | none =>
    rw [known] at spec
    intro k good
    cases found : m.find fo (hash k).toNat k with
    | none => rfl
    | some v =>
      obtain ⟨e, inside, same⟩ := present k v found
      have bad := spec e inside
      rw [same, good] at bad
      cases bad
  | some e =>
    rw [known] at spec
    obtain ⟨first, good, best⟩ := spec
    obtain ⟨below, isHash⟩ := lists.ranged e first.mem
    refine ⟨isHash, ?_, good, fun k goodK found => ?_⟩
    · rw [BTreeMap.find_eq]
      cases waits : m.waiting fo e.hash e.key with
      | some op => exact harmless.first e first op waits
      | none => exact (lists.looks e.hash below e.key e.value).mpr first.mem
    · obtain ⟨v, found⟩ := Option.isSome_iff_exists.mp found
      obtain ⟨e', inside, same⟩ := present k v found
      rw [← same] at goodK ⊢
      rw [← Bool.not_eq_true, order]
      exact not_lt.mpr (best e' inside goodK)

theorem harmless_of_lowerBound (lists : ListsBindings (hashed hash) m.visited (m.stored fo))
    (agree : ∀ k, Answers fo hash m (fun x => decide ((hash k).toNat ≤ x)) less
      (m.hashLowerBound (hash k).toNat)) : WaitingHarmless fo hash m := by
  refine ⟨fun k op waits isInsert => ?_, fun e first op waits => ?_⟩
  · obtain ⟨v, value⟩ := Option.isSome_iff_exists.mp isInsert
    have found : m.find fo (hash k).toNat k = some v := by
      rw [BTreeMap.find_eq, waits]
      exact value
    have spec := scanLeaves_spec (fun x => decide ((hash k).toNat ≤ x)) less_order
      m.visited
    have answer := agree k
    unfold BTreeMap.hashLowerBound at answer
    cases known : scanLeaves (fun x => decide ((hash k).toNat ≤ x)) less m.visited with
    | none =>
      rw [known] at answer
      have missed := answer k (by simp)
      rw [found] at missed
      cases missed
    | some e =>
      rw [known] at answer spec
      have notLess := answer.2.2.2 k (by simp) (by rw [found]; rfl)
      have atLeast : (hash k).toNat ≤ e.hash := by simpa using spec.2.1
      have atMost : e.hash ≤ (hash k).toNat := by simpa [less] using notLess
      exact ⟨e, spec.1.mem, le_antisymm atMost atLeast⟩
  · obtain ⟨below, isHash⟩ := lists.ranged e first.mem
    have isHash : e.hash = (hash e.key).toNat := isHash
    have spec := scanLeaves_spec (fun x => decide ((hash e.key).toNat ≤ x)) less_order
      m.visited
    have answer := agree e.key
    unfold BTreeMap.hashLowerBound at answer
    cases known : scanLeaves (fun x => decide ((hash e.key).toNat ≤ x)) less m.visited with
    | none =>
      rw [known] at spec
      have bad := spec e first.mem
      simp [isHash] at bad
    | some b =>
      rw [known] at answer spec
      obtain ⟨firstB, good, best⟩ := spec
      have atMost := best e first.mem (by simp [isHash])
      have atLeast : (hash e.key).toNat ≤ b.hash := by simpa using good
      obtain rfl := firstB.unique first (by omega)
      have found := answer.2.1
      rw [BTreeMap.find_eq, waits] at found
      exact found

theorem queries_agree_iff (lists : ListsBindings (hashed hash) m.visited (m.stored fo)) :
    QueriesAgree fo hash m ↔ WaitingHarmless fo hash m := by
  refine ⟨fun agree => harmless_of_lowerBound lists agree.lowerBound, fun harmless => ?_⟩
  exact ⟨scan_answers lists harmless less_order, scan_answers lists harmless greater_order,
    fun _ => scan_answers lists harmless less_order, fun _ => scan_answers lists harmless less_order,
    fun _ => scan_answers lists harmless greater_order,
    fun _ => scan_answers lists harmless less_order⟩

theorem disagree_of_missed {k : K} {v : V} (found : m.find fo (hash k).toNat k = some v)
    (none : m.hashLowerBound (hash k).toNat = none) : ¬ QueriesAgree fo hash m := by
  intro agree
  have answer := agree.lowerBound k
  rw [none] at answer
  have missed := answer k (by simp)
  rw [found] at missed
  cases missed

/-- The call with the hash that it computes of its key. -/
def BTreeCall.withHash (hash : K → UInt64) : BTreeCall K V → BTreeCall (UInt64 × K) V
  | .op call => .op (call.withHash hash)
  | .flush => .flush

omit [DecidableEq K] in
theorem withHash_hashed (calls : List (BTreeCall K V)) (op : BTreeOp (UInt64 × K) V)
    (inside : .op op ∈ calls.map (BTreeCall.withHash hash)) :
    hashed hash op.key.1.toNat op.key.2 := by
  obtain ⟨call, -, same⟩ := mem_map.mp inside
  cases call with
  | op call =>
    obtain rfl : call.withHash hash = op := by injection same
    cases call <;> rfl
  | flush => cases same

end Queries

/-- Ten keys of one bucket.  The ninth splits the root, and the tenth waits in the new
root's buffer. -/
def tenInserts : List (BTreeCall Nat Nat) := (List.range 10).map fun k => .op (.insert k k)

def tenKeys : BTreeMap Nat Nat :=
  sixteen.runCalls (pickFanouts 65 0) (tenInserts.map (BTreeCall.withHash oneBucketHash))

end Micron.BTree
