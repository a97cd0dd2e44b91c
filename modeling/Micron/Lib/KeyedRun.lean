import Micron.Lib.SlotTable

/-!
# Runs of keyed-map operations

The abstract side of a map component: a finite map is a function
`K → Option V`, an operation history is a list, and the value a history leaves
at a key is read off the history alone.  `overwriteRun` is the history of a map
whose inserts overwrite, `keepFirstRun` that of a map whose inserts keep the
value already bound.
-/

set_option autoImplicit false

namespace Micron.Lib

open Function

variable {K V : Type} [DecidableEq K]

inductive MapOp (K V : Type) where
  | insert (key : K) (value : V)
  | erase (key : K)
  | clear

/-- The value at `key` after one operation of an overwriting map. -/
def MapOp.overwrite (key : K) (current : Option V) : MapOp K V → Option V
  | .insert other value => if other = key then some value else current
  | .erase other => if other = key then none else current
  | .clear => none

/-- The value of the last insert of `key` that no erase of `key` and no clear
follows. -/
def overwriteRun (ops : List (MapOp K V)) (key : K) : Option V :=
  ops.foldl (MapOp.overwrite key) none

/-- The value at `key` after one operation of a map whose inserts keep the
first value. -/
def MapOp.keepFirst (key : K) (current : Option V) : MapOp K V → Option V
  | .insert other value => if other = key then some (current.getD value) else current
  | .erase other => if other = key then none else current
  | .clear => none

/-- The value of the first insert of `key` since its last erase or clear. -/
def keepFirstRun (ops : List (MapOp K V)) (key : K) : Option V :=
  ops.foldl (MapOp.keepFirst key) none

theorem overwrite_insert (M : K → Option V) (k : K) (v : V) :
    (fun key => MapOp.overwrite key (M key) (.insert k v)) = update M k (some v) := by
  funext key
  by_cases same : k = key
  · subst same
    simp [MapOp.overwrite]
  · simp [MapOp.overwrite, same, update_of_ne (Ne.symm same)]

theorem overwrite_erase (M : K → Option V) (k : K) :
    (fun key => MapOp.overwrite key (M key) (.erase k)) = update M k none := by
  funext key
  by_cases same : k = key
  · subst same
    simp [MapOp.overwrite]
  · simp [MapOp.overwrite, same, update_of_ne (Ne.symm same)]

/-- What each call of a component keeps, each of its runs keeps. -/
theorem foldl_overwrite {S : Type} {Holds : S → (K → Option V) → Prop} {call : S → MapOp K V → S}
    (step : ∀ s M op, Holds s M → Holds (call s op) fun k => op.overwrite k (M k))
    (ops : List (MapOp K V)) {s : S} {M : K → Option V} (holds : Holds s M) :
    Holds (ops.foldl call s) fun k => ops.foldl (MapOp.overwrite k) (M k) := by
  induction ops generalizing s M with
  | nil => exact holds
  | cons op rest ih => exact ih (step s M op holds)

theorem keepFirst_insert (M : K → Option V) (k : K) (v : V) :
    (fun key => MapOp.keepFirst key (M key) (.insert k v)) =
      update M k (some ((M k).getD v)) := by
  funext key
  by_cases same : k = key
  · subst same
    simp [MapOp.keepFirst]
  · simp [MapOp.keepFirst, same, update_of_ne (Ne.symm same)]

theorem keepFirst_erase (M : K → Option V) (k : K) :
    (fun key => MapOp.keepFirst key (M key) (.erase k)) = update M k none := by
  funext key
  by_cases same : k = key
  · subst same
    simp [MapOp.keepFirst]
  · simp [MapOp.keepFirst, same, update_of_ne (Ne.symm same)]

theorem keys_update_some (M : K → Option V) (k : K) (v : V) :
    {x | (update M k (some v) x).isSome} = insert k {x | (M x).isSome} := by
  ext x
  by_cases same : x = k
  · subst same
    simp
  · simp [same]

theorem keys_update_none (M : K → Option V) (k : K) :
    {x | (update M k none x).isSome} = {x | (M x).isSome} \ {k} := by
  ext x
  by_cases same : x = k
  · subst same
    simp
  · simp [same]

theorem keyCount_update_some {M : K → Option V} (finite : {x | (M x).isSome}.Finite) (k : K) (v : V) :
    keyCount (update M k (some v)) =
      if (M k).isSome then keyCount M else keyCount M + 1 := by
  unfold keyCount
  rw [keys_update_some]
  split
  · rename_i bound
    have member : k ∈ {x | (M x).isSome} := bound
    rw [Set.insert_eq_of_mem member]
  · rename_i unbound
    exact Set.ncard_insert_of_notMem unbound finite

theorem keyCount_update_none (M : K → Option V) (k : K) :
    keyCount (update M k none) =
      if (M k).isSome then keyCount M - 1 else keyCount M := by
  unfold keyCount
  rw [keys_update_none]
  split
  · rename_i bound
    exact Set.ncard_sdiff_singleton_of_mem bound
  · rename_i unbound
    have missing : k ∉ {x | (M x).isSome} := unbound
    rw [Set.sdiff_singleton_eq_self missing]

/-- A row of exactly the bound keys counts them. -/
theorem length_eq_keyCount {M : K → Option V} {keys : List K} (nodup : keys.Nodup)
    (member : ∀ k, k ∈ keys ↔ (M k).isSome) : keys.length = keyCount M := by
  have bound : {x | (M x).isSome} = (keys.toFinset : Set K) := by
    simp [member]
  rw [keyCount, bound, Set.ncard_coe_finset, List.toFinset_card_of_nodup nodup]

end Micron.Lib
