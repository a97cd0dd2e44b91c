import Micron.BTree.LeafSpec

/-!
# What an operation does to an inner node

An inner node stands for the bindings below it with the parked operations
applied in order.  Everything is stated for an arbitrary kind of child with a
well-formedness `P`, a lookup and leaf indices, and for a child operation that
is `Applied.Good` wherever the condition `safe` holds.

Conditions follow a descent: `Terms` says what is asked at a leaf, of a merge
into a pending operation, of an operation that is parked, and of a root leaf
that is cut ahead of a descent.  `alongInner` walks the way the operation takes,
drains included.
-/

set_option autoImplicit false

namespace Micron.BTree

open Micron.Lib List Bool

variable {K V α : Type}

/-- What is asked of an operation where it ends.  The flag tells a drained
operation from one that a call brings. -/
structure Terms (K V : Type) where
  leaf : Bool → Leaf K V → PendingOp K V → Bool
  merged : Bool → PendingOp K V → PendingOp K V → Bool
  parked : Bool → Option V → PendingOp K V → Bool
  cut : Leaf K V → Bool

section Along
variable [DecidableEq K] (fo : Fanouts) (apply : α → PendingOp K V → Pool → Applied α)
  (along : Bool → α → PendingOp K V → Pool → Bool)

omit [DecidableEq K] in
def alongRow (drained : Bool) (row : Row α) (op : PendingOp K V) (pool : Pool) : Bool :=
  along drained (row.child (routeGt fo.inner row.pivots op.hash)) op pool

omit [DecidableEq K] in
def alongDrain : List (PendingOp K V) → Row α → Pool → Bool
  | [], _, _ => true
  | op :: rest, row, pool =>
    let applied := applyInRow fo apply row op pool
    alongRow fo along true row op pool &&
      alongDrain rest applied.1
        { applied.2.2 with total := correctTotal op applied.2.1 applied.2.2.total }

def alongInner (look : α → Nat → K → Option V) (terms : Terms K V) (drained : Bool)
    (node : Inner K V α) (op : PendingOp K V) (pool : Pool) : Bool :=
  match mergePending op node.buffer with
  | some (_, old) => terms.merged drained old op
  | none =>
    if node.buffer.length < fo.buffer then
      terms.parked drained (node.find fo look op.hash op.key) op
    else
      let after := drainInternalBuffer fo apply node pool
      alongDrain fo apply along node.buffer node.row pool &&
        alongRow fo along drained (after.target op.hash) op after.pool

end Along

def PendingOp.ident (op : PendingOp K V) : Nat × K := (op.hash, op.key)

structure InnerWF (Q : Nat → K → Prop) (P : Nat → Nat → α → Prop) (lo hi : Nat)
    (node : Inner K V α) : Prop where
  row : RowP P lo hi node.row
  ranged : ∀ op, op ∈ node.buffer → lo ≤ op.hash ∧ op.hash < hi ∧ Q op.hash op.key
  distinct : (node.buffer.map PendingOp.ident).Nodup

def innerIdxs (idxs : α → List Nat) (node : Inner K V α) : List Nat := rowItems idxs node.row

section Route
variable {P : Nat → Nat → α → Prop} {lo hi : Nat} {row : Row α}

theorem routeGt_eq (wf : RowP P lo hi row) (fanout h : Nat) :
    routeGt fanout row.pivots h = scanGt row.pivots h := by
  unfold routeGt
  split
  · rfl
  · apply bsearchGt_eq_scanGt
    exact RowWF.sorted wf

end Route

section Effects
variable [DecidableEq K]

/-- The operations of a buffer, applied in order to the bindings of one hash. -/
def bufferEffect (ops : List (PendingOp K V)) (h : Nat) (bindings : K → Option V) : K → Option V :=
  ops.foldl (fun x op => op.effect h x) bindings

theorem pendingIsFor_iff {h : Nat} {k : K} {op : PendingOp K V} :
    op.isFor h k = true ↔ op.ident = (h, k) := by
  simp [PendingOp.isFor, PendingOp.ident]

theorem effect_apply (op : PendingOp K V) (h : Nat) (bindings : K → Option V) (k : K) :
    op.effect h bindings k = if op.isFor h k then op.value else bindings k := by
  unfold PendingOp.effect
  by_cases sameHash : op.hash = h
  · by_cases sameKey : k = op.key
    · simp [PendingOp.isFor, sameHash, sameKey]
    · simp [PendingOp.isFor, sameHash, Function.update_of_ne sameKey, Ne.symm sameKey]
  · simp [PendingOp.isFor, sameHash]

/-- `buffer_probe` finds the last operation on a key, which is the one that counts. -/
theorem bufferEffect_apply : ∀ (ops : List (PendingOp K V)) (h : Nat) (bindings : K → Option V)
    (k : K), bufferEffect ops h bindings k =
      match (ops.filter (PendingOp.isFor h k)).getLast? with
      | some op => op.value
      | none => bindings k := by
  intro ops
  induction ops with
  | nil =>
    intro h bindings k
    rfl
  | cons op rest ih =>
    intro h bindings k
    change bufferEffect rest h (op.effect h bindings) k = _
    rw [ih, effect_apply]
    cases hit : op.isFor h k with
    | false => simp [hit]
    | true =>
      rw [filter_cons_of_pos hit, getLast?_cons]
      cases (rest.filter (PendingOp.isFor h k)).getLast? <;> simp

theorem find_mk {fo : Fanouts} {P : Nat → Nat → α → Prop} {lo hi : Nat}
    {look : α → Nat → K → Option V} {row : Row α} (wf : RowP P lo hi row)
    (buffer : List (PendingOp K V)) (h : Nat) :
    Inner.find fo look ⟨row, buffer⟩ h = bufferEffect buffer h (rowLook look row h) := by
  funext k
  rw [bufferEffect_apply, Inner.find, routeGt_eq wf]
  rfl

theorem Inner.find_eq {fo : Fanouts} {P : Nat → Nat → α → Prop} {lo hi : Nat}
    {look : α → Nat → K → Option V} {node : Inner K V α} (wf : RowP P lo hi node.row) (h : Nat) :
    node.find fo look h = bufferEffect node.buffer h (rowLook look node.row h) :=
  find_mk wf node.buffer h

/-- Replacing the value of a pending operation has the effect of the new one. -/
theorem mergePending_spec {op : PendingOp K V} : ∀ {buffer buffer' : List (PendingOp K V)}
    {old : PendingOp K V}, mergePending op buffer = some (buffer', old) →
    (buffer.map PendingOp.ident).Nodup →
    buffer'.map PendingOp.ident = buffer.map PendingOp.ident ∧ old.ident = op.ident ∧
      (∀ h bindings, bufferEffect buffer' h bindings = op.effect h (bufferEffect buffer h bindings)) ∧
      ∀ bindings, bufferEffect buffer op.hash bindings op.key = old.value := by
  intro buffer
  induction buffer with
  | nil =>
    intro buffer' old merged
    cases merged
  | cons first rest ih =>
    intro buffer' old merged distinct
    obtain ⟨fresh, restDistinct⟩ := nodup_cons.mp distinct
    rw [mergePending] at merged
    cases hit : first.isFor op.hash op.key with
    | true =>
      simp only [hit, if_true, Option.some.injEq, Prod.mk.injEq] at merged
      obtain ⟨rfl, rfl⟩ := merged
      have ident : first.ident = op.ident := pendingIsFor_iff.mp hit
      have noOther : ∀ x, x ∈ rest → x.isFor op.hash op.key = false := by
        intro x member
        rw [eq_false_iff]
        intro hitX
        apply fresh
        rw [ident, ← show x.ident = op.ident from pendingIsFor_iff.mp hitX]
        exact mem_map_of_mem member
      have noLast : rest.filter (PendingOp.isFor op.hash op.key) = [] := by
        apply filter_eq_nil_iff.mpr
        intro x member
        rw [noOther x member]
        simp
      refine ⟨rfl, ident, ?_, ?_⟩
      · intro h bindings
        funext k
        rw [effect_apply, bufferEffect_apply, bufferEffect_apply]
        by_cases same : op.isFor h k = true
        · have pair : op.ident = (h, k) := pendingIsFor_iff.mp same
          obtain ⟨rfl, rfl⟩ := Prod.mk.inj pair
          have newHit : PendingOp.isFor op.hash op.key { first with value := op.value } = true :=
            hit
          rw [if_pos same, filter_cons_of_pos newHit, noLast]
          rfl
        · have firstMiss : first.isFor h k = false := by
            rw [eq_false_iff]
            intro hitFirst
            exact same (pendingIsFor_iff.mpr (ident.symm.trans (pendingIsFor_iff.mp hitFirst)))
          have newMiss : PendingOp.isFor h k { first with value := op.value } = false :=
            firstMiss
          rw [if_neg same, filter_cons_of_neg (by rw [newMiss]; simp),
            filter_cons_of_neg (by rw [firstMiss]; simp)]
      · intro bindings
        rw [bufferEffect_apply, filter_cons_of_pos hit, noLast]
        rfl
    | false =>
      simp only [hit, false_eq_true, if_false, Option.map_eq_some_iff] at merged
      obtain ⟨⟨rest', old'⟩, mergedRest, pair⟩ := merged
      cases pair
      obtain ⟨idents, ident, effects, current⟩ := ih mergedRest restDistinct
      refine ⟨by rw [map_cons, map_cons, idents], ident, ?_, ?_⟩
      · intro h bindings
        exact effects h (first.effect h bindings)
      · intro bindings
        exact current (first.effect op.hash bindings)

theorem mergePending_none {op : PendingOp K V} : ∀ {buffer : List (PendingOp K V)},
    mergePending op buffer = none → ∀ x, x ∈ buffer → x.ident ≠ op.ident := by
  intro buffer
  induction buffer with
  | nil =>
    intro _ x member
    cases member
  | cons first rest ih =>
    intro missed x member
    rw [mergePending] at missed
    cases hit : first.isFor op.hash op.key with
    | true =>
      rw [hit] at missed
      cases missed
    | false =>
      simp only [hit, false_eq_true, if_false, Option.map_eq_none_iff] at missed
      rcases mem_cons.mp member with rfl | later
      · intro ident
        rw [pendingIsFor_iff.mpr ident] at hit
        cases hit
      · exact ih missed x later

end Effects

/-! ## Children -/

/-- Wherever `safe` holds, the operation on a child is good, and `counts` tells
when it is counted right. -/
def Sound [DecidableEq K] (Q : Nat → K → Prop) (P : Nat → Nat → α → Prop)
    (look : α → Nat → K → Option V) (idxs : α → List Nat)
    (apply : α → PendingOp K V → Pool → Applied α)
    (safe counts : Bool → α → PendingOp K V → Pool → Bool) : Prop :=
  ∀ lo hi tree op pool drained, P lo hi tree → lo ≤ op.hash ∧ op.hash < hi ∧ Q op.hash op.key →
    safe drained tree op pool = true →
    (apply tree op pool).Good P look idxs lo hi tree op pool fun d => counts d tree op pool = true

section Rows
variable [DecidableEq K] {fo : Fanouts} {Q : Nat → K → Prop} {P : Nat → Nat → α → Prop}
  {look : α → Nat → K → Option V} {idxs : α → List Nat}
  {apply : α → PendingOp K V → Pool → Applied α}
  {safe counts : Bool → α → PendingOp K V → Pool → Bool} {lo hi : Nat} {row : Row α}

theorem effect_of_ne {op : PendingOp K V} {h : Nat} (other : op.hash ≠ h)
    (bindings : K → Option V) : op.effect h bindings = bindings := if_neg other

theorem applyInRow_good (sound : Sound Q P look idxs apply safe counts) (wf : RowP P lo hi row)
    {op : PendingOp K V} (range : lo ≤ op.hash ∧ op.hash < hi ∧ Q op.hash op.key) {pool : Pool}
    {drained : Bool} (ok : alongRow fo safe drained row op pool = true) :
    (Applied.mk (applyInRow fo apply row op pool).1 none (applyInRow fo apply row op pool).2.1
      (applyInRow fo apply row op pool).2.2).Good (RowP P) (rowLook look) (rowItems idxs) lo hi row
        op pool fun d => alongRow fo counts d row op pool = true := by
  have route := routeGt_eq wf fo.inner op.hash
  obtain ⟨a, b, _, aboveA, belowB, _, wfChild, replace⟩ :=
    @RowWF.splice α (K → Option V) P look _ _ _ _ _ wf range.1 range.2.1
  unfold alongRow applyInRow at *
  rw [route] at ok ⊢
  have good := sound a b _ op pool drained wfChild ⟨aboveA, belowB, range.2.2⟩ ok
  obtain ⟨wfRow, looks⟩ := replace _ _ good.wf
  refine ⟨wfRow, ?_, ?_, ?_⟩
  · apply looks (fun g bindings => op.effect g bindings)
    · intro g above below
      exact good.looks g above below
    · intro g bindings outside
      apply effect_of_ne
      omega
  · have within : scanGt row.pivots op.hash ≤ row.tail.length := by
      have bound := scanGt_le row.pivots op.hash
      rwa [Row.pivots, length_map] at bound
    obtain ⟨before, after, whole, replaced⟩ :=
      @spliceAt_items α Nat idxs row.tail row.head _ within
    have grown := good.grown.frame before after
    rw [← replaced] at grown
    rw [whole]
    exact grown
  · intro d counted
    exact good.counts d counted

theorem drainLoop_good (sound : Sound Q P look idxs apply safe counts) :
    ∀ (ops : List (PendingOp K V)) (row : Row α) (pool : Pool), RowP P lo hi row →
      (∀ op, op ∈ ops → lo ≤ op.hash ∧ op.hash < hi ∧ Q op.hash op.key) →
      alongDrain fo apply safe ops row pool = true →
      RowP P lo hi (drainLoop fo apply ops row pool).1 ∧
        (∀ h, lo ≤ h → h < hi → rowLook look (drainLoop fo apply ops row pool).1 h =
          bufferEffect ops h (rowLook look row h)) ∧
        Grown pool (drainLoop fo apply ops row pool).2 (rowItems idxs row)
          (rowItems idxs (drainLoop fo apply ops row pool).1) ∧
        (alongDrain fo apply counts ops row pool = true →
          (drainLoop fo apply ops row pool).2.total = pool.total) := by
  intro ops
  induction ops with
  | nil =>
    intro row pool wf _ _
    exact ⟨wf, fun h _ _ => rfl, grown_refl _ _, fun _ => rfl⟩
  | cons op rest ih =>
    intro row pool wf ranged ok
    rw [alongDrain, and_eq_true] at ok
    have good := applyInRow_good sound wf (ranged op mem_cons_self) ok.1
    obtain ⟨wfLater, looks, grown, total⟩ := ih _ _ good.wf
      (fun x member => ranged x (mem_cons_of_mem _ member)) ok.2
    refine ⟨wfLater, ?_, good.grown.trans grown, ?_⟩
    · intro h above below
      have here : rowLook look (applyInRow fo apply row op pool).1 h =
          op.effect h (rowLook look row h) := good.looks h above below
      exact (looks h above below).trans (by rw [here]; rfl)
    · intro counted
      rw [alongDrain, and_eq_true] at counted
      obtain ⟨same, inserted⟩ := good.counts true counted.1
      have all : (applyInRow fo apply row op pool).2.1 = true := inserted
      have keeps : correctTotal op (applyInRow fo apply row op pool).2.1
          (applyInRow fo apply row op pool).2.2.total = pool.total := by
        rw [all]
        exact same
      exact (total counted.2).trans keeps

/-- What a node has become after its buffer is drained. -/
structure Drained.Good (P : Nat → Nat → α → Prop) (look : α → Nat → K → Option V)
    (idxs : α → List Nat) (lo hi : Nat) (node : Inner K V α) (pool : Pool) (counted : Prop)
    (drained : Drained α) : Prop where
  wf : OutWF (RowP P) lo hi drained.row drained.split
  looks : ∀ h, lo ≤ h → h < hi → outLook (rowLook look) drained.row drained.split h =
    bufferEffect node.buffer h (rowLook look node.row h)
  grown : Grown pool drained.pool (rowItems idxs node.row)
    (outItems (rowItems idxs) drained.row drained.split)
  total : counted → drained.pool.total = pool.total

theorem drainInternalBuffer_good (sound : Sound Q P look idxs apply safe counts)
    {node : Inner K V α} (wf : InnerWF Q P lo hi node) {pool : Pool}
    (ok : alongDrain fo apply safe node.buffer node.row pool = true) :
    (drainInternalBuffer fo apply node pool).Good P look idxs lo hi node pool
      (alongDrain fo apply counts node.buffer node.row pool = true) := by
  have drains := drainLoop_good sound node.buffer node.row pool wf.row wf.ranged ok
  unfold drainInternalBuffer
  cases buffer : node.buffer with
  | nil =>
    refine ⟨wf.row, ?_, grown_refl _ _, fun _ => rfl⟩
    intro h _ _
    rw [buffer]
    rfl
  | cons op rest =>
    rw [buffer] at drains
    obtain ⟨wfRow, looks, grown, total⟩ := drains
    obtain ⟨out, sameLooks, sameItems⟩ :=
      @settle_spec α (K → Option V) Nat P look idxs _ _ _ wfRow (fo.inner - 1)
    refine ⟨out, ?_, ?_, ?_⟩
    · intro h above below
      rw [buffer]
      exact (sameLooks h).trans (looks h above below)
    · exact (grown.trans (grown_allocFor _ _ _)).perm (List.Perm.of_eq sameItems)
    · intro counted
      exact (allocFor_total _ _).trans (total counted)

/-- `split_internal` ahead of a descent changes the shape only. -/
theorem splitInternal_good (sound : Sound Q P look idxs apply safe counts)
    {node : Inner K V α} (wf : InnerWF Q P lo hi node) {pool : Pool}
    (ok : alongDrain fo apply safe node.buffer node.row pool = true) :
    (splitInternal fo apply node pool).Good P look idxs lo hi node pool
      (alongDrain fo apply counts node.buffer node.row pool = true) := by
  have good := drainInternalBuffer_good sound wf ok
  unfold splitInternal
  generalize drainInternalBuffer fo apply node pool = drained at good
  obtain ⟨row, split, pool'⟩ := drained
  cases split with
  | some half => exact good
  | none =>
    simp only
    split
    · exact good
    · obtain ⟨out, sameLooks, sameItems⟩ :=
        @splitAt_spec α (K → Option V) Nat P look idxs _ _ row good.wf (row.tail.length / 2)
      refine ⟨out, ?_, ?_, ?_⟩
      · intro h above below
        exact (sameLooks h).trans (good.looks h above below)
      · exact (good.grown.trans (grown_allocFor _ _ _)).perm (List.Perm.of_eq sameItems)
      · intro counted
        exact (allocFor_total _ _).trans (good.total counted)

end Rows

section Emptied
variable [DecidableEq K] {fo : Fanouts} {Q : Nat → K → Prop} {P : Nat → Nat → α → Prop}
  {look : α → Nat → K → Option V} {idxs : α → List Nat} {lo hi : Nat}

omit [DecidableEq K] in
theorem innerWF_emptied {row : Row α} (wf : RowP P lo hi row) :
    InnerWF Q P lo hi (⟨row, []⟩ : Inner K V α) := by
  refine ⟨wf, ?_, nodup_nil⟩
  intro op member
  cases member

omit [DecidableEq K] in
theorem outWF_emptied {row : Row α} {split : Option (Nat × Row α)}
    (wf : OutWF (RowP P) lo hi row split) :
    OutWF (InnerWF Q P) lo hi (⟨row, []⟩ : Inner K V α) (split.map emptiedHalf) := by
  cases split with
  | none => exact innerWF_emptied wf
  | some half =>
    obtain ⟨order, top, left, right⟩ := wf
    exact ⟨order, top, innerWF_emptied left, innerWF_emptied right⟩

theorem outLook_emptied {row : Row α} {split : Option (Nat × Row α)}
    (wf : OutWF (RowP P) lo hi row split) (h : Nat) :
    outLook (Inner.find fo look) (⟨row, []⟩ : Inner K V α) (split.map emptiedHalf) h =
      outLook (rowLook look) row split h := by
  cases split with
  | none => exact find_mk wf [] h
  | some half =>
    obtain ⟨_, _, left, right⟩ := wf
    change (if half.1 ≤ h then _ else _) = if half.1 ≤ h then _ else _
    split
    · exact find_mk right [] h
    · exact find_mk left [] h

omit [DecidableEq K] in
theorem outItems_emptied (row : Row α) (split : Option (Nat × Row α)) :
    outItems (innerIdxs idxs) (⟨row, []⟩ : Inner K V α) (split.map emptiedHalf) =
      outItems (rowItems idxs) row split := by
  cases split <;> rfl

theorem good_of_rows {node : Inner K V α} {op : PendingOp K V} {pool pool' : Pool} {row : Row α}
    {split : Option (Nat × Row α)} {inserted : Bool} {counted : Bool → Prop}
    (out : OutWF (RowP P) lo hi row split)
    (looks : ∀ h, lo ≤ h → h < hi →
      outLook (rowLook look) row split h = op.effect h (node.find fo look h))
    (grown : Grown pool pool' (rowItems idxs node.row) (outItems (rowItems idxs) row split))
    (counts : ∀ d, counted d → pool'.total = pool.total ∧
      inserted = (d || op.effective (node.find fo look op.hash op.key))) :
    (Applied.mk (⟨row, []⟩ : Inner K V α) (split.map emptiedHalf) inserted pool').Good
      (InnerWF Q P) (Inner.find fo look) (innerIdxs idxs) lo hi node op pool counted := by
  refine ⟨outWF_emptied out, ?_, ?_, counts⟩
  · intro h above below
    exact (outLook_emptied out h).trans (looks h above below)
  · apply grown.perm
    exact List.Perm.of_eq (outItems_emptied row split)

end Emptied

section Descent
variable [DecidableEq K] {fo : Fanouts} {Q : Nat → K → Prop} {P : Nat → Nat → α → Prop}
  {look : α → Nat → K → Option V} {idxs : α → List Nat}
  {apply : α → PendingOp K V → Pool → Applied α}
  {safe counts : Bool → α → PendingOp K V → Pool → Bool} {lo hi : Nat} {node : Inner K V α}
  {op : PendingOp K V}

omit [DecidableEq K] in
theorem effective_of_pending {old : PendingOp K V} {current : Option V}
    (pending : current = old.value) :
    op.effective current = (old.value.isSome != op.value.isSome) := by
  subst pending
  unfold PendingOp.effective
  cases op.value <;> cases old.value <;> rfl

theorem merged_good (wf : InnerWF Q P lo hi node) {buffer : List (PendingOp K V)}
    {old : PendingOp K V} (merged : mergePending op node.buffer = some (buffer, old)) (pool : Pool) :
    (Applied.mk { node with buffer := buffer } none (old.value.isSome != op.value.isSome) pool).Good
      (InnerWF Q P) (Inner.find fo look) (innerIdxs idxs) lo hi node op pool
      fun d => (!d || (old.value.isSome != op.value.isSome)) = true := by
  obtain ⟨idents, ident, effects, current⟩ := mergePending_spec merged wf.distinct
  refine ⟨⟨wf.row, ?_, ?_⟩, ?_, grown_refl _ _, ?_⟩
  · intro x member
    -- the buffer has the hashes and keys it had
    have same : x.ident ∈ node.buffer.map PendingOp.ident := by
      rw [← idents]
      exact mem_map_of_mem member
    obtain ⟨y, inBuffer, yIdent⟩ := mem_map.mp same
    have ranged := wf.ranged y inBuffer
    obtain ⟨hash, key⟩ := Prod.mk.inj yIdent
    rw [hash, key] at ranged
    exact ranged
  · rw [idents]
    exact wf.distinct
  · intro h _ _
    rw [Inner.find_eq wf.row, ← effects]
    exact find_mk wf.row buffer h
  · intro d counted
    have pending : node.find fo look op.hash op.key = old.value := by
      rw [Inner.find_eq wf.row]
      exact current _
    refine ⟨rfl, ?_⟩
    rw [effective_of_pending pending]
    cases d with
    | false => rfl
    | true => simpa using counted

theorem parked_good (wf : InnerWF Q P lo hi node)
    (range : lo ≤ op.hash ∧ op.hash < hi ∧ Q op.hash op.key)
    (missed : mergePending op node.buffer = none) (pool : Pool) :
    (Applied.mk { node with buffer := node.buffer ++ [op] } none true pool).Good
      (InnerWF Q P) (Inner.find fo look) (innerIdxs idxs) lo hi node op pool
      fun d => (d || op.effective (node.find fo look op.hash op.key)) = true := by
  refine ⟨⟨wf.row, ?_, ?_⟩, ?_, grown_refl _ _, ?_⟩
  · intro x member
    rcases mem_append.mp member with old | new
    · exact wf.ranged x old
    · rw [mem_singleton.mp new]
      exact range
  · rw [map_append, map_singleton]
    apply wf.distinct.append (nodup_singleton _)
    intro ident inBuffer inNew
    obtain ⟨x, member, same⟩ := mem_map.mp inBuffer
    exact mergePending_none missed x member (same.trans (mem_singleton.mp inNew))
  · intro h _ _
    rw [Inner.find_eq wf.row]
    apply (find_mk wf.row (node.buffer ++ [op]) h).trans
    exact foldl_append
  · intro d counted
    exact ⟨rfl, counted.symm⟩

theorem good_onRight {β : Type} {P : Nat → Nat → β → Prop} {look : β → Nat → K → Option V}
    {idxs : β → List Nat} {lo p hi : Nat} {left right right' : β} {pool pool' : Pool}
    {inserted : Bool} {counted : Bool → Prop} (order : lo ≤ p) (top : p ≤ hi) (wfLeft : P lo p left)
    (side : p ≤ op.hash)
    (good : (Applied.mk right' none inserted pool').Good P look idxs p hi right op pool counted) :
    OutWF P lo hi left (some (p, right')) ∧
      (∀ h, lo ≤ h → h < hi → outLook look left (some (p, right')) h =
        op.effect h (outLook look left (some (p, right)) h)) ∧
      Grown pool pool' (outItems idxs left (some (p, right)))
        (outItems idxs left (some (p, right'))) := by
  refine ⟨⟨order, top, wfLeft, good.wf⟩, ?_, ?_⟩
  · intro h above below
    rw [outLook, outLook]
    by_cases sideH : p ≤ h
    · rw [if_pos sideH, if_pos sideH]
      exact good.looks h sideH below
    · rw [if_neg sideH, if_neg sideH, effect_of_ne (by omega)]
  · have framed := good.grown.frame (idxs left) []
    simp only [append_nil] at framed
    exact framed

theorem good_onLeft {β : Type} {P : Nat → Nat → β → Prop} {look : β → Nat → K → Option V}
    {idxs : β → List Nat} {lo p hi : Nat} {left left' right : β} {pool pool' : Pool}
    {inserted : Bool} {counted : Bool → Prop} (order : lo ≤ p) (top : p ≤ hi)
    (wfRight : P p hi right) (side : op.hash < p)
    (good : (Applied.mk left' none inserted pool').Good P look idxs lo p left op pool counted) :
    OutWF P lo hi left' (some (p, right)) ∧
      (∀ h, lo ≤ h → h < hi → outLook look left' (some (p, right)) h =
        op.effect h (outLook look left (some (p, right)) h)) ∧
      Grown pool pool' (outItems idxs left (some (p, right)))
        (outItems idxs left' (some (p, right))) := by
  refine ⟨⟨order, top, good.wf, wfRight⟩, ?_, good.grown.frame [] (idxs right)⟩
  intro h above below
  rw [outLook, outLook]
  by_cases sideH : p ≤ h
  · rw [if_pos sideH, if_pos sideH, effect_of_ne (by omega)]
  · rw [if_neg sideH, if_neg sideH]
    exact good.looks h above (by omega)

theorem applyDrained_good (sound : Sound Q P look idxs apply safe counts)
    (wf : InnerWF Q P lo hi node) (range : lo ≤ op.hash ∧ op.hash < hi ∧ Q op.hash op.key)
    {pool : Pool} {drained : Drained α} {countedDrain : Prop}
    (good : drained.Good P look idxs lo hi node pool countedDrain) {flag : Bool}
    (ok : alongRow fo safe flag (drained.target op.hash) op drained.pool = true) :
    (applyDrained fo apply drained op).Good (InnerWF Q P) (Inner.find fo look) (innerIdxs idxs)
      lo hi node op pool fun d => countedDrain ∧
        alongRow fo counts d (drained.target op.hash) op drained.pool = true := by
  obtain ⟨row, split, pool'⟩ := drained
  obtain ⟨out, looks, grown, total⟩ := good
  have before : ∀ h, lo ≤ h → h < hi →
      node.find fo look h = outLook (rowLook look) row split h := by
    intro h above below
    rw [Inner.find_eq wf.row]
    exact (looks h above below).symm
  have current := before op.hash range.1 range.2.1
  unfold applyDrained
  cases split with
  | none =>
    have applied := applyInRow_good sound out range ok
    obtain ⟨outSettled, sameLooks, sameItems⟩ :=
      @settle_spec α (K → Option V) Nat P look idxs _ _ _ applied.wf (fo.inner - 1)
    apply good_of_rows outSettled
    · intro h above below
      rw [sameLooks, before h above below]
      exact applied.looks h above below
    · apply ((grown.trans applied.grown).trans (grown_allocFor _ _ _)).perm
      exact List.Perm.of_eq sameItems
    · intro d counted
      obtain ⟨same, inserted⟩ := applied.counts d counted.2
      rw [current]
      exact ⟨(allocFor_total _ _).trans (same.trans (total counted.1)), inserted⟩
  | some half =>
    obtain ⟨p, right⟩ := half
    obtain ⟨order, top, wfLeft, wfRight⟩ := out
    simp only [Drained.target] at ok ⊢
    by_cases side : p ≤ op.hash
    · rw [outLook, if_pos side] at current
      simp only [if_pos side] at ok ⊢
      have applied := applyInRow_good sound wfRight ⟨side, range.2⟩ ok
      obtain ⟨out, effects, more⟩ := good_onRight order top wfLeft side applied
      apply good_of_rows out
      · intro h above below
        rw [before h above below]
        exact effects h above below
      · exact grown.trans more
      · intro d counted
        obtain ⟨same, inserted⟩ := applied.counts d counted.2
        rw [current]
        exact ⟨same.trans (total counted.1), inserted⟩
    · rw [outLook, if_neg side] at current
      simp only [if_neg side] at ok ⊢
      have applied := applyInRow_good sound wfLeft ⟨range.1, by omega, range.2.2⟩ ok
      obtain ⟨out, effects, more⟩ := good_onLeft order top wfRight (by omega) applied
      apply good_of_rows out
      · intro h above below
        rw [before h above below]
        exact effects h above below
      · exact grown.trans more
      · intro d counted
        obtain ⟨same, inserted⟩ := applied.counts d counted.2
        rw [current]
        exact ⟨same.trans (total counted.1), inserted⟩

/-- The terms under which sizes and answers are right: a drained operation must
change something, and so must one that a call parks. -/
def countTerms : Terms K V where
  leaf drained leaf op := !drained || op.effective (leaf.find op.hash op.key)
  merged drained old op := !drained || (old.value.isSome != op.value.isSome)
  parked drained current op := drained || op.effective current
  cut _ := true

theorem innerApply_sound (sound : Sound Q P look idxs apply safe counts) (terms : Terms K V) :
    Sound Q (InnerWF Q P) (Inner.find fo look) (innerIdxs idxs) (innerApply fo apply)
      (alongInner fo apply safe look terms) (alongInner fo apply counts look countTerms) := by
  intro lo hi node op pool drained wf range ok
  unfold alongInner at *
  unfold innerApply
  cases merged : mergePending op node.buffer with
  | some found =>
    exact merged_good wf merged pool
  | none =>
    rw [merged] at ok
    by_cases room : node.buffer.length < fo.buffer
    · simp only [if_pos room]
      exact parked_good wf range merged pool
    · simp only [if_neg room, and_eq_true] at ok ⊢
      have good := drainInternalBuffer_good sound wf ok.1
      exact applyDrained_good sound wf range good ok.2

end Descent

end Micron.BTree
