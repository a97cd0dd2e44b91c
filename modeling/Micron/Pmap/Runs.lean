import Micron.Pmap.Update

/-!
# Runs of `pmap`

Over every run of `insert`, `erase` and `clear`, and for every hash function,
the trie holds exactly the live bindings.  A chain has no bound on its length, and
its count is a `u32`: it is right as long as the chain has fewer than `2 ^ 32` entries.
-/

set_option autoImplicit false

namespace Micron.Pmap

open Micron.Lib List

variable {K V : Type}

/-- The stored and the actual length of every overflow chain. -/
def overflowLens : Node K V → List (UInt32 × Nat)
  | .null => []
  | .leaf overflowLen _ overflow => [(overflowLen, overflow.length)]
  | .internal _ children => children.flatMap fun child => overflowLens child

theorem overflowLens_internal (bitmap : BitVec 32) (children : List (Node K V)) :
    overflowLens (.internal bitmap children) = children.flatMap overflowLens := by
  rw [overflowLens]

variable {hash : K → UInt64}

theorem Good.overflowLens_eq {d : Nat} {n : Node K V} (good : Good hash d n) :
    ∀ lens ∈ overflowLens n, lens.1 = UInt32.ofNat lens.2 := by
  induction good with
  | leaf d hashed distinct counted =>
    intro lens member
    rw [overflowLens, mem_singleton] at member
    rw [member]
    exact counted
  | internal shallow full routed good ih =>
    intro lens member
    rw [overflowLens_internal, mem_flatMap] at member
    obtain ⟨c, child, inside⟩ := member
    obtain ⟨i, found⟩ := (mem_iff_slot full).mp child
    exact ih i c found lens inside

structure MapInv (hash : K → UInt64) (m : PMap K V) (M : K → Option V) : Prop where
  good : m.root = .null ∨ Good hash 0 m.root
  entries : ∀ e, e ∈ walk m.root ↔ e.h = hash e.key ∧ M e.key = some e.value
  counted : m.length = (walk m.root).length

theorem mapInv_empty : MapInv hash (PMap.empty : PMap K V) (fun _ => none) where
  good := .inl rfl
  entries e := by simp [PMap.empty, walk]
  counted := by simp [PMap.empty, walk]

variable {m : PMap K V} {M : K → Option V}

theorem MapInv.nodup (inv : MapInv hash m M) : ((walk m.root).map Entry.key).Nodup := by
  rcases inv.good with empty | good
  · rw [empty, walk]
    exact nodup_nil
  · exact good.nodup

/-- Two rows of entries with distinct keys, the second with the entries of the
first but those of `k`. -/
theorem length_without [DecidableEq K] {row row' : List (Entry K V)} {k : K}
    (nodup : (row.map Entry.key).Nodup) (nodup' : (row'.map Entry.key).Nodup)
    (entries : ∀ e, e ∈ row' ↔ e.key ≠ k ∧ e ∈ row) :
    row.length = row'.length + if ∃ e ∈ row, e.key = k then 1 else 0 := by
  have perm : ((row.map Entry.key).erase k).Perm (row'.map Entry.key) := by
    rw [perm_ext_iff_of_nodup (nodup.erase k) nodup']
    intro key
    rw [nodup.mem_erase_iff, mem_map, mem_map]
    constructor
    · rintro ⟨other, e, member, rfl⟩
      exact ⟨e, (entries e).mpr ⟨other, member⟩, rfl⟩
    · rintro ⟨e, member, rfl⟩
      obtain ⟨other, old⟩ := (entries e).mp member
      exact ⟨other, e, old, rfl⟩
  have lengths := perm.length_eq
  rw [length_erase, length_map, length_map] at lengths
  by_cases there : ∃ e ∈ row, e.key = k
  · obtain ⟨e, member, same⟩ := there
    have inside : k ∈ row.map Entry.key := mem_map.mpr ⟨e, member, same⟩
    rw [if_pos inside] at lengths
    rw [if_pos ⟨e, member, same⟩]
    have positive := length_pos_of_mem member
    omega
  · rw [if_neg (by rw [mem_map]; exact there)] at lengths
    rw [if_neg there]
    exact lengths

variable [DecidableEq K]

theorem MapInv.find_eq (inv : MapInv hash m M) (k : K) : m.find hash k = M k := by
  have found : ∀ v, m.find hash k = some v ↔ M k = some v := by
    intro v
    have entry := inv.entries ⟨hash k, k, v⟩
    simp only [true_and] at entry
    rw [← entry]
    rcases inv.good with empty | good
    · rw [PMap.find, empty, findIn, walk]
      simp
    · exact good.findIn_eq_some_iff k v
  exact Option.ext found

theorem insertInto_spec (inv : MapInv hash m M) (k : K) (v : V) :
    Inserted hash k v 0 m.root (insertInto (hash k) k v 0 m.root) := by
  rcases inv.good with empty | good
  · rw [empty, insertInto]
    refine ⟨good_single k v 0, ?_, ?_⟩
    · intro e
      simp [walk]
    · simp [walk]
  · exact good.insertInto k v

theorem eraseFrom_spec (inv : MapInv hash m M) (k : K) :
    Erased hash k 0 m.root (eraseFrom (hash k) k 0 m.root) := by
  rcases inv.good with empty | good
  · rw [empty, eraseFrom]
    constructor
    · simp [walk]
    · exact fun _ => rfl
    · exact .inl rfl
    · intro e
      simp [walk]
  · exact good.eraseFrom k

theorem MapInv.insert (inv : MapInv hash m M) (k : K) (v : V) :
    MapInv hash (m.insert hash k v) (Function.update M k (some v)) := by
  obtain ⟨good, entries, replaced⟩ := insertInto_spec inv k v
  have others : ∀ e, e ∈ (walk (insertInto (hash k) k v 0 m.root).1).filter (fun e => e.key ≠ k) ↔
      e.key ≠ k ∧ e ∈ walk m.root := by
    intro e
    rw [mem_filter, entries e, decide_eq_true_eq]
    constructor
    · rintro ⟨rfl | old, other⟩
      · exact absurd rfl other
      · exact old
    · intro old
      exact ⟨.inr old, old.1⟩
  have subrow := filter_sublist (l := walk (insertInto (hash k) k v 0 m.root).1)
    (p := fun e => decide (e.key ≠ k))
  refine ⟨.inr good, ?_, ?_⟩
  · intro e
    rw [PMap.insert, entries e, inv.entries e]
    by_cases here : e.key = k
    · obtain ⟨h, key, value⟩ := e
      subst here
      simp [eq_comm]
    · have notNew : e ≠ ⟨hash k, k, v⟩ := by
        rintro rfl
        exact here rfl
      simp [here, notNew]
  · -- both rows have the same entries of the other keys
    have before := length_without inv.nodup (good.nodup.sublist (subrow.map Entry.key)) others
    have after := length_without (k := k) good.nodup (good.nodup.sublist (subrow.map Entry.key))
      (fun e => by rw [mem_filter, decide_eq_true_eq, and_comm])
    rw [if_pos ⟨_, (entries _).mpr (.inl rfl), rfl⟩] at after
    have counted := inv.counted
    simp only [PMap.insert]
    split
    · rename_i old
      rw [if_pos (replaced.mp old)] at before
      omega
    · rename_i new
      rw [if_neg (fun there => new (replaced.mpr there))] at before
      omega

theorem MapInv.erase (inv : MapInv hash m M) (k : K) :
    MapInv hash (m.erase hash k) (Function.update M k none) := by
  obtain ⟨found, _, good, entries⟩ := eraseFrom_spec inv k
  have nodup : ((walk (eraseFrom (hash k) k 0 m.root).1).map Entry.key).Nodup := by
    rcases good with empty | good
    · rw [empty, walk]
      exact nodup_nil
    · exact good.nodup
  refine ⟨good, ?_, ?_⟩
  · intro e
    rw [PMap.erase, entries e, inv.entries e]
    by_cases here : e.key = k
    · simp [here]
    · simp [here]
  · have lengths := length_without inv.nodup nodup entries
    have counted := inv.counted
    simp only [PMap.erase]
    split
    · rename_i there
      rw [if_pos (found.mp there)] at lengths
      omega
    · rename_i missing
      rw [if_neg (fun there => missing (found.mpr there))] at lengths
      omega

omit [DecidableEq K] in
theorem MapInv.overflowLens_eq (inv : MapInv hash m M) :
    ∀ lens ∈ overflowLens m.root, lens.1 = UInt32.ofNat lens.2 := by
  rcases inv.good with empty | good
  · rw [empty, overflowLens]
    nofun
  · exact good.overflowLens_eq

namespace PMap

def call (hash : K → UInt64) (m : PMap K V) : MapOp K V → PMap K V
  | .insert k v => m.insert hash k v
  | .erase k => m.erase hash k
  | .clear => empty

def run (hash : K → UInt64) (calls : List (MapOp K V)) : PMap K V :=
  calls.foldl (call hash) empty

end PMap

theorem MapInv.call (inv : MapInv hash m M) (call : MapOp K V) :
    MapInv hash (m.call hash call) fun k => call.overwrite k (M k) := by
  cases call with
  | insert k v =>
    rw [overwrite_insert]
    exact inv.insert k v
  | erase k =>
    rw [overwrite_erase]
    exact inv.erase k
  | clear => exact mapInv_empty

theorem mapInv_run (calls : List (MapOp K V)) :
    MapInv hash (PMap.run hash calls) (overwriteRun calls) :=
  foldl_overwrite (fun _ _ call inv => inv.call call) calls mapInv_empty

/-- A `u32` counts exactly the lengths below `2 ^ 32`. -/
theorem toNat_ofNat_eq_iff (n : Nat) : (UInt32.ofNat n).toNat = n ↔ n < 2 ^ 32 := by
  exact Nat.mod_eq_iff_lt (by decide)

/-- For every hash function and every run: lookups read the live bindings,
`for_each` visits each of them once and `size` counts them.  Each overflow length is
that of its chain if and only if no chain has `2 ^ 32` entries or more. -/
theorem pmap_run_refines_finite_map (hash : K → UInt64) (calls : List (MapOp K V)) :
    (∀ k, (PMap.run hash calls).find hash k = overwriteRun calls k) ∧
    (((PMap.run hash calls).forEach.map Prod.fst).Nodup ∧
      ∀ k v, (k, v) ∈ (PMap.run hash calls).forEach ↔ overwriteRun calls k = some v) ∧
    (PMap.run hash calls).size = keyCount (overwriteRun calls) ∧
    ((∀ lens ∈ overflowLens (PMap.run hash calls).root, lens.1.toNat = lens.2) ↔
      ∀ lens ∈ overflowLens (PMap.run hash calls).root, lens.2 < 2 ^ 32) := by
  have inv : MapInv hash (PMap.run hash calls) (overwriteRun calls) := mapInv_run calls
  have keys : (PMap.run hash calls).forEach.map Prod.fst =
      (walk (PMap.run hash calls).root).map Entry.key := by
    rw [PMap.forEach, map_map]
    rfl
  have visits : ∀ k v, (k, v) ∈ (PMap.run hash calls).forEach ↔ overwriteRun calls k = some v := by
    intro k v
    rw [PMap.forEach, mem_map]
    constructor
    · rintro ⟨e, member, same⟩
      cases same
      exact ((inv.entries e).mp member).2
    · intro bound
      exact ⟨⟨hash k, k, v⟩, (inv.entries _).mpr ⟨rfl, bound⟩, rfl⟩
  refine ⟨inv.find_eq, ⟨by rw [keys]; exact inv.nodup, visits⟩, ?_, ?_⟩
  · rw [PMap.size, inv.counted, ← length_map Entry.key]
    apply length_eq_keyCount inv.nodup
    intro k
    rw [← keys, mem_map, Option.isSome_iff_exists]
    constructor
    · rintro ⟨⟨key, v⟩, member, rfl⟩
      exact ⟨v, (visits key v).mp member⟩
    · rintro ⟨v, bound⟩
      exact ⟨(k, v), (visits k v).mpr bound, rfl⟩
  · have counts := inv.overflowLens_eq
    refine forall₂_congr fun lens member => ?_
    rw [counts lens member]
    exact toNat_ofNat_eq_iff lens.2

/-- The keys below `count`, all with one hash. -/
def sameHashInserts (count : Nat) : List (MapOp Nat Unit) :=
  (List.range count).map fun k => .insert k ()

def sameHashEntry (k : Nat) : Entry Nat Unit := ⟨0, k, ()⟩

/-- A key that a leaf of one hash does not have goes to the front of its chain. -/
theorem insertInto_same_hash (overflowLen : UInt32) {first : Entry Nat Unit}
    {overflow : List (Entry Nat Unit)} {k : Nat}
    (same : ∀ e ∈ first :: overflow, e.h = 0) (fresh : ∀ e ∈ first :: overflow, e.key ≠ k) :
    (insertInto 0 k () 0 (.leaf overflowLen first overflow)).1 =
      .leaf (overflowLen + 1) first (sameHashEntry k :: overflow) := by
  have notFirst : first.is 0 k = false := by
    rw [Bool.eq_false_iff, ne_eq, entry_is_iff]
    exact fun is => fresh first mem_cons_self is.2
  have notInChain : chainHas overflow 0 k = false := by
    rw [chainHas, any_eq_false]
    intro e member is
    exact fresh e (mem_cons_of_mem _ member) (entry_is_iff.mp is).2
  have together : leafWouldDiverge first overflow 0 0 = false := by
    rw [leafWouldDiverge, same first mem_cons_self, bne_self_eq_false, Bool.false_or,
      any_eq_false]
    intro e member
    rw [same e (mem_cons_of_mem _ member), bne_self_eq_false]
    exact Bool.false_ne_true
  rw [insertInto, notFirst, notInChain, together]
  simp [sameHashEntry]

/-- Keys with one hash never part: all but the first are in the chain of one leaf. -/
theorem run_sameHashInserts (count : Nat) :
    (PMap.run (fun _ => 0) (sameHashInserts (count + 1))).root =
      .leaf (UInt32.ofNat count) (sameHashEntry 0)
        (((List.range count).map fun k => sameHashEntry (k + 1)).reverse) := by
  induction count with
  | zero => simp [PMap.run, sameHashInserts, PMap.call, PMap.insert, PMap.empty, insertInto, sameHashEntry]
  | succ count ih =>
    have last : PMap.run (fun _ => 0) (sameHashInserts (count + 2)) =
        (PMap.run (fun _ => 0) (sameHashInserts (count + 1))).insert (fun _ => 0) (count + 1) () := by
      rw [PMap.run, sameHashInserts, range_succ, map_append, foldl_append]
      rfl
    have members : ∀ e ∈ sameHashEntry 0 ::
        ((List.range count).map fun k => sameHashEntry (k + 1)).reverse,
        e.h = 0 ∧ e.key ≠ count + 1 := by
      intro e member
      rcases mem_cons.mp member with rfl | later
      · exact ⟨rfl, (Nat.succ_ne_zero count).symm⟩
      · obtain ⟨k, below, rfl⟩ := mem_map.mp (mem_reverse.mp later)
        exact ⟨rfl, fun same => (mem_range.mp below).ne (Nat.succ.inj same)⟩
    rw [last, PMap.insert, ih]
    rw [insertInto_same_hash _ (fun e member => (members e member).1)
      (fun e member => (members e member).2), range_succ, map_append,
      reverse_append, UInt32.ofNat_add]
    rfl

/-- After `2 ^ 32 + 1` keys with one hash the count is back at zero. -/
theorem pmap_overflow_len_wraps :
    overflowLens (PMap.run (fun _ => 0) (sameHashInserts (2 ^ 32 + 1))).root = [(0, 2 ^ 32)] := by
  rw [run_sameHashInserts, overflowLens, length_reverse, length_map, length_range]
  rfl

end Micron.Pmap
