import Micron.Binomial.Decrease

/-!
# Handles of the binomial heap

`insert` returns the node that it makes as a handle to the element.  `decrease_key` and
`delete_node` swap values between nodes, so a handle keeps its element as long as no call swaps.
-/

set_option autoImplicit false

namespace Micron.Binomial

open Micron.Lib BinomialHeap List Function

variable {T : Type}

inductive HandleOp (T : Type) where
  | insert (value : T)
  | emplace (value : T)
  | decreaseKey (handle : Nat) (value : T)
  | deleteNode (handle : Nat)

/-- A heap, and the value of the element that each handle was returned for. -/
structure Handles (T : Type) where
  heap : BinomialHeap T
  fresh : Nat
  element : Nat → Option T

namespace Handles

def empty : Handles T := ⟨BinomialHeap.empty, 0, fun _ => none⟩

variable (comp : T → T → Bool)

def apply (s : Handles T) : HandleOp T → Option (Handles T)
  | .insert value =>
    let (node, heap, fresh) := s.heap.insert comp s.fresh value
    some ⟨heap, fresh, update s.element node (some value)⟩
  | .emplace value =>
    let (node, heap, fresh) := s.heap.emplace comp s.fresh value
    some ⟨heap, fresh, update s.element node (some value)⟩
  | .decreaseKey handle value =>
    (s.heap.decreaseKey comp handle value).map fun heap =>
      let lowered := (s.element handle).map fun old => if comp value old then value else old
      ⟨heap, s.fresh, update s.element handle lowered⟩
  | .deleteNode handle =>
    (s.heap.deleteNode comp (some handle)).map fun heap =>
      ⟨heap, s.fresh, update s.element handle none⟩

/-- Every handle whose element was not removed is the node that holds its element, and there are
no other nodes. -/
def Stay (s : Handles T) : Prop :=
  ∀ handle value, s.element handle = some value ↔ (handle, value) ∈ itemsOf s.heap.rootList

/-- The handle that a call gets was returned for an element that was not removed. -/
def Legal (s : Handles T) : HandleOp T → Prop
  | .insert _ | .emplace _ => True
  | .decreaseKey handle _ | .deleteNode handle => (s.element handle).isSome = true

/-- The call swaps no values: the key of `decrease_key` is not less than that of its node or of
the parent of its node, the node of `delete_node` has no parent. -/
def SwapsNothing (s : Handles T) : HandleOp T → Prop
  | .insert _ | .emplace _ => True
  | .decreaseKey handle value => ∀ c, s.heap.cell handle = some c → comp value c.value = true →
      ∀ parent, c.parent = some parent → ∀ p, s.heap.cell parent = some p →
        comp value p.value = false
  | .deleteNode handle => ∀ c, s.heap.cell handle = some c → c.parent = none

def Along (P : Handles T → HandleOp T → Prop) : Handles T → List (HandleOp T) → Prop
  | _, [] => True
  | s, op :: ops => P s op ∧ ∀ s', s.apply comp op = some s' → Along P s' ops

def Throughout (P : Handles T → Prop) : Handles T → List (HandleOp T) → Prop
  | s, [] => P s
  | s, op :: ops => P s ∧ ∀ s', s.apply comp op = some s' → Throughout P s' ops

structure Sound (s : Handles T) : Prop where
  heap : HeapInv comp s.heap
  nodup : ((itemsOf s.heap.rootList).map Prod.fst ++ s.heap.pool).Nodup
  bound : ∀ a ∈ (itemsOf s.heap.rootList).map Prod.fst ++ s.heap.pool, a < s.fresh

variable {comp}
variable {s : Handles T}

theorem Sound.empty : Sound comp (Handles.empty : Handles T) :=
  ⟨HeapInv.empty comp, nodup_nil, fun _ member => absurd member not_mem_nil⟩

theorem Stay.empty : Stay (Handles.empty : Handles T) := by
  intro handle value
  exact ⟨fun known => (by cases known), fun item => absurd item not_mem_nil⟩

theorem Sound.entries_nodup (sound : Sound comp s) :
    ((itemsOf s.heap.rootList).map Prod.fst).Nodup := (nodup_append.mp sound.nodup).1

theorem Stay.entry (stay : Stay s) {handle : Nat} (alive : (s.element handle).isSome = true) :
    ∃ c ∈ entriesOf s.heap.rootList, c.addr = handle ∧ s.element handle = some c.value := by
  obtain ⟨value, known⟩ := Option.isSome_iff_exists.mp alive
  have item := (stay handle value).mp known
  rw [itemsOf_eq] at item
  obtain ⟨c, member, same⟩ := mem_map.mp item
  rw [Prod.mk.injEq] at same
  exact ⟨c, member, same.1, by rw [known, same.2]⟩

variable [IsStrictWeakOrder T (Lesser comp)]

theorem insert_stays (sound : Sound comp s) (stay : Stay s) (value : T) :
    ∃ s', s.apply comp (.insert value) = some s' ∧ Stay s' ∧ Sound comp s' := by
  obtain ⟨node, h', fresh', result, ⟨source⟩, items, inv'⟩ := insert_spec sound.heap s.fresh value
  have new : node ∉ (itemsOf s.heap.rootList).map Prod.fst := by
    intro old
    rcases source with ⟨pool, _⟩ | ⟨_, _, rfl, _⟩
    · have apart := (nodup_append.mp sound.nodup).2.2 node old node
      rw [pool] at apart
      exact apart mem_cons_self rfl
    · exact lt_irrefl _ (sound.bound _ (mem_append_left _ old))
  refine ⟨⟨h', fresh', update s.element node (some value)⟩, ?_, ?_, inv' new, ?_, ?_⟩
  · rw [apply, result]
  · intro handle old
    rw [items.mem_iff, mem_cons, ← stay handle old]
    by_cases same : handle = node
    · subst same
      have unknown : s.element handle ≠ some old := fun known =>
        new (mem_map.mpr ⟨_, (stay handle old).mp known, rfl⟩)
      dsimp only
      rw [update_self, Prod.mk.injEq, Option.some.injEq]
      exact ⟨fun here => .inl ⟨rfl, here.symm⟩,
        fun either => (either.resolve_right unknown).2.symm⟩
    · dsimp only
      rw [update_of_ne same, Prod.mk.injEq]
      exact ⟨.inr, fun either => either.resolve_left fun here => same here.1⟩
  · have addrs := (items.map Prod.fst).append_right h'.pool
    rw [addrs.nodup_iff, map_cons, cons_append]
    rcases source with ⟨pool, _⟩ | ⟨noPool, noPool', rfl, _⟩
    · rw [← perm_middle.nodup_iff, ← pool]
      exact sound.nodup
    · rw [noPool', append_nil]
      exact nodup_cons.mpr ⟨new, sound.entries_nodup⟩
  · intro a member
    have addrs := (items.map Prod.fst).append_right h'.pool
    have inside := addrs.mem_iff.mp member
    rcases source with ⟨pool, rfl⟩ | ⟨noPool, noPool', rfl, rfl⟩
    · refine sound.bound a ?_
      rw [pool]
      exact perm_middle.mem_iff.mpr inside
    · rw [noPool', append_nil] at inside
      rcases mem_cons.mp inside with rfl | old
      · exact Nat.lt_succ_self _
      · exact Nat.lt_succ_of_lt (sound.bound a (mem_append_left _ old))

theorem deleteNode_stays (sound : Sound comp s) (stay : Stay s) {handle : Nat}
    (alive : (s.element handle).isSome = true) :
    ∃ s', s.apply comp (.deleteNode handle) = some s' ∧
      (Stay s' ↔ SwapsNothing comp s (.deleteNode handle)) ∧ Sound comp s' := by
  obtain ⟨c, member, rfl, known⟩ := stay.entry alive
  have flat := sound.heap.flat
  obtain ⟨h₁, top, h', climbed, raised, result, inv', items, pool⟩ :=
    deleteNode_climbs sound.heap member
  have addrs : (top.addr :: (itemsOf h'.rootList).map Prod.fst).Perm
      ((itemsOf s.heap.rootList).map Prod.fst) := by
    have first := items.map Prod.fst
    rw [itemsOf_eq h₁.rootList, map_map] at first
    rw [itemsOf_eq s.heap.rootList, map_map]
    exact raised.addrs ▸ first
  have owned : ((itemsOf h'.rootList).map Prod.fst ++ h'.pool).Perm
      ((itemsOf s.heap.rootList).map Prod.fst ++ s.heap.pool) := by
    rw [pool]
    exact perm_middle.trans (addrs.append_right s.heap.pool)
  have swapsNothing : SwapsNothing comp s (.deleteNode c.addr) ↔ c.parent = none := by
    refine ⟨fun nothing => nothing c (cell_spec flat member), fun root c' here => ?_⟩
    rw [cell_spec flat member] at here
    cases here
    exact root
  refine ⟨⟨h', s.fresh, update s.element c.addr none⟩, ?_, ?_, inv',
    owned.nodup_iff.mpr sound.nodup, fun a inside => sound.bound a (owned.mem_iff.mp inside)⟩
  · rw [apply, result]
    rfl
  · rw [swapsNothing]
    constructor
    · intro stay'
      by_contra parented
      -- the node that goes is a root, so the node of the handle stays behind
      have other : c.addr ≠ top.addr := by
        intro same
        obtain ⟨e, inside, pointers⟩ := mem_of_pointers (raise_pointers climbed).symm raised.member
        have isC := flat.unique inside member ((congrArg (fun x => x.1) pointers).trans same.symm)
        have root : e.parent = none := (congrArg (fun x => x.2.2) pointers).trans raised.root
        rw [isC] at root
        exact parented root
      have kept : c.addr ∈ (itemsOf h'.rootList).map Prod.fst := by
        have old : c.addr ∈ (itemsOf s.heap.rootList).map Prod.fst :=
          mem_map.mpr ⟨_, (stay c.addr c.value).mp known, rfl⟩
        exact (mem_cons.mp (addrs.mem_iff.mpr old)).resolve_left other
      obtain ⟨⟨a, value⟩, inside, same⟩ := mem_map.mp kept
      have element := (stay' a value).mpr inside
      have same : a = c.addr := same
      dsimp only at element
      rw [same, update_self] at element
      cases element
    · intro root
      have here : s.heap.raise (s.heap.nodeCount + 1) c.addr = some (s.heap, c.addr) := by
        simp only [raise, cell_spec flat member, root, Option.bind_eq_bind, Option.bind_some]
      rw [here] at climbed
      obtain ⟨rfl, sameAddr⟩ := Prod.mk.injEq .. ▸ Option.some.inj climbed
      rw [← sameAddr] at items addrs
      intro handle value
      rw [show (handle, value) ∈ itemsOf h'.rootList ↔ handle ≠ c.addr ∧
          (handle, value) ∈ itemsOf s.heap.rootList from ?_, ← stay handle value]
      · by_cases same : handle = c.addr
        · dsimp only
          rw [same, update_self]
          exact ⟨fun gone => (by cases gone), fun both => absurd rfl both.1⟩
        · dsimp only
          rw [update_of_ne same]
          exact ⟨fun known => ⟨same, known⟩, fun both => both.2⟩
      · have apart := addrs.nodup_iff.mpr sound.entries_nodup
        rw [← items.mem_iff, mem_cons]
        constructor
        · intro inside
          refine ⟨fun same => ?_, .inr inside⟩
          exact (nodup_cons.mp apart).1 (same ▸ mem_map.mpr ⟨_, inside, rfl⟩)
        · rintro ⟨other, same | inside⟩
          · exact absurd (congrArg Prod.fst same) other
          · exact inside

omit [IsStrictWeakOrder T (Lesser comp)] in
theorem swapsNothing_decreaseKey (sound : Sound comp s) {c : Entry T}
    (member : c ∈ entriesOf s.heap.rootList) {value : T} (lower : comp value c.value = true) :
    SwapsNothing comp s (.decreaseKey c.addr value) ↔ Settled comp s.heap c value := by
  have flat := sound.heap.flat
  constructor
  · intro nothing p inP parent
    exact nothing c (cell_spec flat member) lower p.addr parent p (cell_spec flat inP)
  · intro settled c' here _ parent edge p there
    rw [cell_spec flat member] at here
    cases here
    obtain ⟨g, inG, rfl, _⟩ := flat.up c member parent edge
    rw [cell_spec flat inG] at there
    cases there
    exact settled p inG edge

theorem decreaseKey_stays (sound : Sound comp s) (stay : Stay s) {handle : Nat} (value : T)
    (alive : (s.element handle).isSome = true) :
    ∃ s', s.apply comp (.decreaseKey handle value) = some s' ∧
      (Stay s' ↔ SwapsNothing comp s (.decreaseKey handle value)) ∧
      (SwapsNothing comp s (.decreaseKey handle value) → Sound comp s') := by
  obtain ⟨c, member, rfl, known⟩ := stay.entry alive
  have flat := sound.heap.flat
  cases lower : comp value c.value with
  | false =>
    have kept : update s.element c.addr
        ((s.element c.addr).map fun old => if comp value old then value else old) =
        s.element := by
      rw [known, Option.map_some, lower, if_neg Bool.false_ne_true, ← known,
        update_eq_self]
    refine ⟨s, ?_, ⟨fun _ c' here less => ?_, fun _ => stay⟩, fun _ => sound⟩
    · rw [apply, decreaseKey_refused sound.heap member lower, Option.map_some]
      dsimp only
      rw [kept]
    · rw [cell_spec flat member] at here
      cases here
      rw [lower] at less
      cases less
  | true =>
    have lowered : (s.element c.addr).map (fun old => if comp value old then value else old) =
        some value := by
      rw [known, Option.map_some, lower, if_pos rfl]
    rw [swapsNothing_decreaseKey sound member lower]
    by_cases settled : Settled comp s.heap c value
    · obtain ⟨h', result, inv', roots, pool⟩ := decreaseKey_settled sound.heap member lower settled
      have items : itemsOf h'.rootList = (itemsOf s.heap.rootList).map fun item =>
          (item.1, if item.1 = c.addr then value else item.2) := by
        rw [roots, itemsOf_write]
      have owned : (itemsOf h'.rootList).map Prod.fst ++ h'.pool =
          (itemsOf s.heap.rootList).map Prod.fst ++ s.heap.pool := by
        rw [items, pool, map_map]
        rfl
      refine ⟨⟨h', s.fresh, update s.element c.addr (some value)⟩, ?_,
        ⟨fun _ => settled, fun _ handle old => ?_⟩, fun _ => ⟨inv', ?_, ?_⟩⟩
      · rw [apply, result, Option.map_some]
        rw [lowered]
      · dsimp only
        rw [items, mem_map]
        by_cases same : handle = c.addr
        · subst same
          rw [update_self, Option.some.injEq]
          constructor
          · rintro rfl
            exact ⟨(c.addr, c.value), (stay c.addr c.value).mp known, by rw [if_pos rfl]⟩
          · rintro ⟨item, _, here⟩
            rw [Prod.mk.injEq] at here
            rw [if_pos here.1] at here
            exact here.2
        · rw [update_of_ne same, stay handle old]
          constructor
          · intro inside
            exact ⟨(handle, old), inside, by rw [if_neg same]⟩
          · rintro ⟨⟨a, v⟩, inside, here⟩
            obtain ⟨rfl, rfl⟩ := here
            rwa [if_neg same]
      · rw [owned]
        exact sound.nodup
      · rw [owned]
        exact sound.bound
    · obtain ⟨g, inG, parent, less⟩ : ∃ g ∈ entriesOf s.heap.rootList,
          c.parent = some g.addr ∧ comp value g.value = true := by
        by_contra absent
        refine settled fun p inP parent => ?_
        exact Bool.eq_false_iff.mpr fun less => absent ⟨p, inP, parent, less⟩
      obtain ⟨h', result, left⟩ := decreaseKey_unsettled sound.heap member inG parent lower less
      refine ⟨⟨h', s.fresh, update s.element c.addr (some value)⟩, ?_,
        ⟨fun stay' => ?_, fun nothing => absurd nothing settled⟩, fun nothing => absurd nothing settled⟩
      · rw [apply, result, Option.map_some]
        rw [lowered]
      · have element := (stay' c.addr g.value).mpr left
        dsimp only at element
        rw [update_self, Option.some.injEq] at element
        rw [← element, (comp_irrefl value : comp value value = false)] at less
        cases less

/-- A call keeps all handles at their elements if and only if it swaps no values. -/
theorem apply_stays (sound : Sound comp s) (stay : Stay s) {op : HandleOp T} (legal : Legal s op) :
    ∃ s', s.apply comp op = some s' ∧ (Stay s' ↔ SwapsNothing comp s op) ∧
      (SwapsNothing comp s op → Sound comp s') := by
  cases op with
  | insert value =>
    obtain ⟨s', result, stay', sound'⟩ := insert_stays sound stay value
    exact ⟨s', result, ⟨fun _ => trivial, fun _ => stay'⟩, fun _ => sound'⟩
  | emplace value =>
    obtain ⟨s', result, stay', sound'⟩ := insert_stays sound stay value
    exact ⟨s', result, ⟨fun _ => trivial, fun _ => stay'⟩, fun _ => sound'⟩
  | decreaseKey handle value => exact decreaseKey_stays sound stay value legal
  | deleteNode handle =>
    obtain ⟨s', result, exactly, sound'⟩ := deleteNode_stays sound stay legal
    exact ⟨s', result, exactly, fun _ => sound'⟩

theorem run_stays (ops : List (HandleOp T)) (sound : Sound comp s) (stay : Stay s)
    (legal : Along comp Legal s ops) :
    Throughout comp Stay s ops ↔ Along comp (SwapsNothing comp) s ops := by
  induction ops generalizing s with
  | nil => exact ⟨fun _ => trivial, fun _ => stay⟩
  | cons op ops ih =>
    obtain ⟨s', result, exactly, sound'⟩ := apply_stays sound stay legal.1
    constructor
    · rintro ⟨_, later⟩
      have nothing := exactly.mp (by
        have next := later s' result
        cases ops with
        | nil => exact next
        | cons op' ops => exact next.1)
      refine ⟨nothing, fun s₁ same => ?_⟩
      rw [result] at same
      cases same
      exact (ih (sound' nothing) (exactly.mpr nothing) (legal.2 s' result)).mp (later s' result)
    · rintro ⟨nothing, later⟩
      refine ⟨stay, fun s₁ same => ?_⟩
      rw [result] at same
      cases same
      exact (ih (sound' nothing) (exactly.mpr nothing) (legal.2 s' result)).mpr (later s' result)

end Handles

open Handles

/-- In a run of calls through handles of elements that were not removed, every handle stays with
its element in every state if and only if no call swaps values between nodes. -/
theorem binomial_handles_stay_iff (comp : T → T → Bool) [IsStrictWeakOrder T (Lesser comp)]
    (ops : List (HandleOp T)) (legal : Along comp Legal Handles.empty ops) :
    Throughout comp Stay Handles.empty ops ↔ Along comp (SwapsNothing comp) Handles.empty ops :=
  run_stays ops Sound.empty Stay.empty legal

theorem Handles.Along.call {comp : T → T → Bool} {P : Handles T → HandleOp T → Prop}
    {s s' : Handles T} {op : HandleOp T} {ops : List (HandleOp T)} (here : P s op)
    (result : s.apply comp op = some s') (later : Along comp P s' ops) :
    Along comp P s (op :: ops) := by
  refine ⟨here, fun s₁ same => ?_⟩
  rw [result] at same
  cases same
  exact later

def oneNode : Handles Nat where
  heap := ⟨[⟨0, 5, 0, none, .nil⟩], some 0, 1, []⟩
  fresh := 1
  element := update (fun _ => none) 0 (some 5)

def twoNodes : Handles Nat where
  heap := ⟨[⟨1, 3, 1, none, .cons 0 5 0 (some 1) .nil .nil⟩], some 1, 2, []⟩
  fresh := 2
  element := update oneNode.element 1 (some 3)

theorem empty_apply_insert :
    Handles.empty.apply (fun a b => decide (a < b)) (.insert 5) = some oneNode := by
  simp [Handles.apply, Handles.empty, BinomialHeap.empty, BinomialHeap.insert, acquire, unionHeap,
    mergeRootLists, unionLoop, updateMin, leastFrom, oneNode]

theorem oneNode_apply_insert :
    oneNode.apply (fun a b => decide (a < b)) (.insert 3) = some twoNodes := by
  simp [Handles.apply, BinomialHeap.insert, acquire, unionHeap, mergeRootLists, unionLoop,
    updateMin, leastFrom, link, oneNode, twoNodes]

/-- The key of a root is lowered, and the root deleted. -/
theorem binomial_handles_stay_root :
    Throughout (fun a b : Nat => decide (a < b)) Stay Handles.empty
      [.insert 5, .insert 3, .decreaseKey 1 2, .deleteNode 1] := by
  let lowered : Handles Nat := ⟨⟨[⟨1, 2, 1, none, .cons 0 5 0 (some 1) .nil .nil⟩], some 1, 2, []⟩,
    2, update twoNodes.element 1 (some 2)⟩
  let last : Handles Nat := ⟨⟨[⟨0, 5, 0, none, .nil⟩], some 0, 1, [1]⟩, 2,
    update lowered.element 1 none⟩
  have third : twoNodes.apply (fun a b => decide (a < b)) (.decreaseKey 1 2) = some lowered := rfl
  have fourth : lowered.apply (fun a b => decide (a < b)) (.deleteNode 1) = some last := by
    simp [Handles.apply, BinomialHeap.deleteNode, raise, BinomialHeap.cell, entriesOf, entriesIn,
      extractMin, unlinkRoot, reverseChildren, unionHeap, mergeRootLists, unionLoop, updateMin,
      leastFrom, lowered, last]
  refine (binomial_handles_stay_iff _ _ ?_).mpr ?_
  · refine .call trivial empty_apply_insert (.call trivial oneNode_apply_insert ?_)
    exact .call rfl third (.call rfl fourth trivial)
  · refine .call trivial empty_apply_insert (.call trivial oneNode_apply_insert ?_)
    refine .call ?_ third (.call ?_ fourth trivial)
    · intro c here _ parent edge
      cases here
      cases edge
    · intro c here
      cases here
      rfl

/-- The key of a child is lowered below that of its parent; deleting the child then removes the
element of the parent. -/
theorem binomial_handles_swapped :
    ∃ s, [HandleOp.insert 5, .insert 3, .decreaseKey 0 1, .deleteNode 0].foldlM
        (Handles.apply fun a b : Nat => decide (a < b)) Handles.empty = some s ∧
      itemsOf s.heap.rootList = [(0, 1)] ∧ s.element 0 = none ∧ s.element 1 = some 3 := by
  let swapped : Handles Nat := ⟨⟨[⟨1, 1, 1, none, .cons 0 3 0 (some 1) .nil .nil⟩], some 1, 2, []⟩,
    2, update twoNodes.element 0 (some 1)⟩
  let last : Handles Nat := ⟨⟨[⟨0, 1, 0, none, .nil⟩], some 0, 1, [1]⟩, 2,
    update swapped.element 0 none⟩
  have third : twoNodes.apply (fun a b => decide (a < b)) (.decreaseKey 0 1) = some swapped := rfl
  have fourth : swapped.apply (fun a b => decide (a < b)) (.deleteNode 0) = some last := by
    simp [Handles.apply, BinomialHeap.deleteNode, raise, BinomialHeap.cell, entriesOf, entriesIn,
      swapValues, write, writeIn, extractMin, unlinkRoot, reverseChildren, unionHeap,
      mergeRootLists, unionLoop, updateMin, leastFrom, swapped, last]
  refine ⟨last, ?_, rfl, rfl, rfl⟩
  simp only [foldlM_cons, foldlM_nil, empty_apply_insert, oneNode_apply_insert, third,
    fourth, Option.bind_eq_bind, Option.bind_some]
  rfl

end Micron.Binomial
