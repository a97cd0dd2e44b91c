import Micron.Fibonacci.Consolidate

/-!
# Forests that gain and lose a root

`insert` adds a tree of one node.  `pop` takes a root out and leaves its children
in the ring of the roots.
-/

set_option autoImplicit false

namespace Micron.Fibonacci

open Micron.Lib List Function

variable {T : Type} {lt : T → T → Bool} {m m' : Store (Node T)} {live : Finset Nat}
  {roots : List Nat} {kids : Nat → List Nat}

theorem Forest.congr (forest : Forest lt m live roots kids) (same : ∀ a ∈ live, m' a = m a) :
    Forest lt m' live roots kids := by
  have read : ∀ {β : Type} (field : Node T → β), ∀ a ∈ live, m'.read a field = m.read a field := by
    intro β field a inside
    rw [Store.read, Store.read, same a inside]
  refine ⟨forest.ring.frame fun a member => same a (forest.root a member).1, forest.nodup, ?_, ?_,
    ?_, forest.placed, ?_, ?_, ?_⟩
  · intro r member
    rw [read _ r (forest.root r member).1]
    exact forest.root r member
  · intro p inside
    exact (forest.kidRing p inside).frame fun k kid => same k (forest.kid p inside k kid).1
  · intro p inside k kid
    rw [read _ k (forest.kid p inside k kid).1]
    exact forest.kid p inside k kid
  · intro p inside
    rw [read _ p inside]
    exact forest.child p inside
  · intro p inside
    obtain ⟨d, degree, degrees⟩ := forest.degrees p inside
    refine ⟨d, by rw [read _ p inside, degree], ?_⟩
    rw [← degrees]
    exact map_congr_left fun k kid => read _ k (forest.kid p inside k kid).1
  · intro p inside k kid v u
    rw [read _ p inside, read _ k (forest.kid p inside k kid).1]
    exact forest.ordered p inside k kid v u

theorem Forest.adopt {new : Nat} {value : T} {roots' : List Nat}
    (forest : Forest lt m live roots kids) (fresh : new ∉ live)
    (change : Relinked (new :: roots) (m.alloc new (Node.make new value)) m')
    (ring : NodeRing m' roots') (perm : roots'.Perm (new :: roots)) :
    Forest lt m' (insert new live) roots' (update kids new []) := by
  have old : Forest lt (m.alloc new (Node.make new value)) live roots kids := by
    refine forest.congr ?_
    intro a inside
    have other : a ≠ new := by
      rintro rfl
      exact fresh inside
    exact Store.alloc_of_ne _ other _
  have made := m.alloc_self new (Node.make new value)
  have kidsOf : ∀ p ∈ live, update kids new [] p = kids p := by
    intro p inside
    have other : p ≠ new := fun same => fresh (same ▸ inside)
    exact update_of_ne other _ _
  have noKids : update kids new [] new = [] := update_self _ _ _
  refine ⟨ring, perm.nodup_iff.mpr (nodup_cons.mpr ⟨?_, forest.nodup⟩), ?_, ?_, ?_, ?_, ?_,
    ?_, ?_⟩
  · intro root
    exact fresh (forest.root new root).1
  · intro r member
    rw [change.parent]
    rcases mem_cons.mp (perm.mem_iff.mp member) with rfl | root
    · exact ⟨Finset.mem_insert_self _ _, Store.read_eq made _⟩
    · exact ⟨Finset.mem_insert_of_mem (old.root r root).1, (old.root r root).2⟩
  · intro p inside
    rcases Finset.mem_insert.mp inside with rfl | inside'
    · rw [noKids]
      trivial
    · rw [kidsOf p inside']
      refine (old.kidRing p inside').frame ?_
      intro k kid
      refine change.outside k ?_
      rw [mem_cons, not_or]
      refine ⟨?_, fun root => old.root_not_kid inside' root kid⟩
      rintro rfl
      exact fresh (old.kid p inside' k kid).1
  · intro p inside k kid
    rcases Finset.mem_insert.mp inside with rfl | inside
    · rw [noKids] at kid
      cases kid
    · rw [kidsOf p inside] at kid
      rw [change.parent]
      exact ⟨Finset.mem_insert_of_mem (old.kid p inside k kid).1, (old.kid p inside k kid).2⟩
  · intro a inside
    rcases Finset.mem_insert.mp inside with rfl | inside
    · exact .inl (perm.mem_iff.mpr mem_cons_self)
    · rcases old.placed a inside with root | ⟨p, inside', kid⟩
      · exact .inl (perm.mem_iff.mpr (mem_cons_of_mem _ root))
      · refine .inr ⟨p, Finset.mem_insert_of_mem inside', ?_⟩
        rw [kidsOf p inside']
        exact kid
  · intro p inside
    rw [change.child]
    rcases Finset.mem_insert.mp inside with rfl | inside
    · rw [noKids]
      exact Store.read_eq made _
    · rw [kidsOf p inside]
      exact old.child p inside
  · intro p inside
    rw [change.degree]
    rcases Finset.mem_insert.mp inside with rfl | inside
    · exact ⟨0, Store.read_eq made _, by rw [noKids]; rfl⟩
    · obtain ⟨d, degree, degrees⟩ := old.degrees p inside
      refine ⟨d, degree, ?_⟩
      rw [kidsOf p inside, ← degrees]
      exact map_congr_left fun k _ => change.degree k
  · intro p inside k kid v u
    rcases Finset.mem_insert.mp inside with rfl | inside
    · rw [noKids] at kid
      cases kid
    · rw [kidsOf p inside] at kid
      rw [change.value, change.value]
      exact old.ordered p inside k kid v u

/-- Along the right neighbours from `c` over `cs` to `stop`. -/
def Forward (m : Store (Node T)) : Nat → List Nat → Nat → Prop
  | c, [], stop => m.read c Node.right = some stop
  | c, next :: cs, stop => m.read c Node.right = some next ∧ Forward m next cs stop

theorem Forward.of_arc {c stop : Nat} {cs : List Nat}
    (arc : Arc (fun a => m.read a Node.right) (fun a => m.read a Node.left) c cs stop) :
    Forward m c cs stop := by
  induction cs generalizing c with
  | nil => exact arc.1
  | cons next cs ih => exact ⟨arc.1, ih arc.2.2⟩

theorem Forward.congr {c stop : Nat} {cs : List Nat} (forward : Forward m c cs stop)
    (same : ∀ a ∈ c :: cs, m'.read a Node.right = m.read a Node.right) : Forward m' c cs stop := by
  induction cs generalizing c with
  | nil => exact (same c mem_cons_self).trans forward
  | cons next cs ih =>
    refine ⟨(same c mem_cons_self).trans forward.1, ih forward.2 ?_⟩
    intro a member
    exact same a (mem_cons_of_mem _ member)

/-- What the memory reads after the children `cs` of `z` became roots. -/
structure Released (z : Nat) (cs l : List Nat) (m m' : Store (Node T)) : Prop where
  ring : NodeRing m' (z :: (cs.reverse ++ l))
  outside : ∀ a, a ∉ z :: l → a ∉ cs → m' a = m a
  isSome : ∀ a, (m' a).isSome = (m a).isSome
  value : ∀ a, m'.read a Node.value = m.read a Node.value
  child : ∀ a, m'.read a Node.child = m.read a Node.child
  degree : ∀ a, m'.read a Node.degree = m.read a Node.degree
  parent : ∀ a, m'.read a Node.parent = if a ∈ cs then some none else m.read a Node.parent

theorem Released.trans {z c : Nat} {cs l : List Nat} {m'' : Store (Node T)}
    (first : Released z [c] l m m') (second : Released z cs (c :: l) m' m'') :
    Released z (c :: cs) l m m'' := by
  refine ⟨?_, ?_, fun a => (second.isSome a).trans (first.isSome a),
    fun a => (second.value a).trans (first.value a),
    fun a => (second.child a).trans (first.child a),
    fun a => (second.degree a).trans (first.degree a), ?_⟩
  · rw [reverse_cons, append_assoc]
    exact second.ring
  · intro a notRing notKid
    rw [mem_cons, not_or] at notRing notKid
    rw [second.outside a, first.outside a]
    · rw [mem_cons, not_or]
      exact notRing
    · rw [mem_singleton]
      exact notKid.1
    · rw [mem_cons, mem_cons, not_or, not_or]
      exact ⟨notRing.1, notKid.1, notRing.2⟩
    · exact notKid.2
  · intro a
    rw [second.parent, first.parent]
    simp only [mem_cons, not_mem_nil, or_false]
    by_cases later : a ∈ cs
    · rw [if_pos later, if_pos (.inr later)]
    · by_cases isC : a = c
      · rw [if_neg later, if_pos isC, if_pos (.inl isC)]
      · rw [if_neg later, if_neg isC, if_neg (not_or.mpr ⟨isC, later⟩)]

theorem release_round {z c : Nat} {l : List Nat} (ring : NodeRing m (z :: l))
    (nodup : (z :: l).Nodup) (fresh : c ∉ z :: l) (stored : (m c).isSome) :
    ∃ m₁ m₂, splice m z c = some m₁ ∧ m₁.write c (Node.setParent none) = some m₂ ∧
      Released z [c] l m m₂ := by
  obtain ⟨m₁, spliced, ring₁, change⟩ := ring.splice nodup fresh stored
  have stored₁ : (m₁ c).isSome := by
    rw [change.isSome]
    exact stored
  obtain ⟨nc, found⟩ := Option.isSome_iff_exists.mp stored₁
  refine ⟨m₁, m₁.set c (Node.setParent none), spliced, Store.write_eq found _, ?_, ?_, ?_, ?_, ?_,
    ?_, ?_⟩
  · exact ring₁.congr (fun a _ => Store.read_set_other _ _ _ (fun _ => rfl))
      (fun a _ => Store.read_set_other _ _ _ (fun _ => rfl))
  · intro a notRing notC
    rw [mem_singleton] at notC
    rw [Store.set_of_ne _ notC]
    refine change.outside a ?_
    rw [mem_cons, not_or] at notRing
    rw [mem_cons, mem_cons, not_or, not_or]
    exact ⟨notRing.1, notC, notRing.2⟩
  · intro a
    rw [Store.isSome_set, change.isSome]
  · intro a
    rw [← change.value a]
    exact Store.read_set_other _ _ _ (fun _ => rfl)
  · intro a
    rw [← change.child a]
    exact Store.read_set_other _ _ _ (fun _ => rfl)
  · intro a
    rw [← change.degree a]
    exact Store.read_set_other _ _ _ (fun _ => rfl)
  · intro a
    by_cases same : a = c
    · subst same
      rw [if_pos (mem_singleton.mpr rfl)]
      exact Store.read_set_self stored₁ (fun _ => rfl)
    · rw [if_neg (fun inside => same (mem_singleton.mp inside)), ← change.parent a]
      exact Store.read_set_of_ne _ same _ _

theorem releaseChildren_spec {z c stop fuel : Nat} {cs l : List Nat} (ring : NodeRing m (z :: l))
    (nodup : (z :: (l ++ c :: cs)).Nodup) (forward : Forward m c cs stop)
    (child : m.read z Node.child = some (some stop)) (away : stop ∉ cs)
    (enough : cs.length < fuel) :
    ∃ m', releaseChildren z fuel m c = some m' ∧ Released z (c :: cs) l m m' := by
  induction cs generalizing m c l fuel with
  | nil =>
    cases fuel with
    | zero => cases enough
    | succ fuel =>
      obtain ⟨nc, found, right⟩ := Store.exists_of_read (show m.read c Node.right = _ from forward)
      have nodup' : (c :: z :: l).Nodup := by
        refine (List.Perm.nodup_iff ?_).mp nodup
        exact (perm_append_singleton c (z :: l))
      obtain ⟨fresh, nodupRing⟩ := nodup_cons.mp nodup'
      obtain ⟨m₁, m₂, spliced, written, released⟩ :=
        release_round ring nodupRing fresh (by rw [found]; rfl)
      refine ⟨m₂, ?_, released⟩
      simp only [releaseChildren, found, spliced, written, released.child, child, right,
        Option.bind_eq_bind, Option.bind_some, if_true]
  | cons next cs ih =>
    cases fuel with
    | zero => cases enough
    | succ fuel =>
      obtain ⟨nc, found, right⟩ := Store.exists_of_read forward.1
      have perm : (z :: l ++ c :: next :: cs).Perm (c :: (z :: l ++ next :: cs)) :=
        perm_middle
      have nodup' := perm.nodup_iff.mp nodup
      obtain ⟨fresh, nodupRing⟩ := nodup_cons.mp nodup'
      obtain ⟨m₁, m₂, spliced, written, released⟩ := release_round ring
        (List.Nodup.sublist ((sublist_append_left l (next :: cs)).cons_cons z) nodupRing)
        (fun inside => fresh (mem_append_left (next :: cs) inside)) (by rw [found]; rfl)
      have notStop : stop ≠ next := fun same => away (same ▸ mem_cons_self)
      have forward' : Forward m₂ next cs stop := by
        refine forward.2.congr ?_
        intro a member
        have out : a ∉ z :: l := by
          intro inside
          exact (nodup_append.mp nodupRing).2.2 a inside a member rfl
        have notC : a ∉ [c] := by
          rw [mem_singleton]
          rintro rfl
          exact fresh (mem_append_right (z :: l) member)
        rw [Store.read, Store.read, released.outside a out notC]
      have child' : m₂.read z Node.child = some (some stop) := by
        rw [released.child, child]
      have nodup'' : (z :: ((c :: l) ++ next :: cs)).Nodup :=
        (List.Perm.swap z c _).nodup_iff.mp nodup'
      obtain ⟨m', result, released'⟩ := ih released.ring nodup'' forward' child'
        (fun inside => away (mem_cons_of_mem _ inside)) (Nat.lt_of_succ_lt_succ enough)
      refine ⟨m', ?_, released.trans released'⟩
      have differ : some stop ≠ some nc.right := by
        rw [right]
        exact fun same => notStop (Option.some.inj same)
      simp only [releaseChildren, found, spliced, written, child', if_neg differ,
        Option.bind_eq_bind, Option.bind_some]
      rw [right]
      exact result

theorem Forest.release {z : Nat} {l : List Nat} {m₁ m₂ : Store (Node T)}
    (forest : Forest lt m live (z :: l) kids) (released : Released z (kids z) l m m₁)
    (ring : NodeRing m₂ ((kids z).reverse ++ l))
    (change : Relinked (z :: ((kids z).reverse ++ l)) m₁ m₂) :
    Forest lt m₂ (live.erase z) ((kids z).reverse ++ l) kids := by
  have rootZ : z ∈ z :: l := mem_cons_self
  have liveZ := (forest.root z rootZ).1
  have notZ : ∀ p ∈ live, ∀ k ∈ kids p, k ≠ z := by
    rintro p inside k kid rfl
    exact forest.root_not_kid inside rootZ kid
  have kept : ∀ p ∈ live.erase z, ∀ k ∈ kids p, k ∉ kids z := by
    intro p inside k kid kid'
    obtain ⟨differs, inside⟩ := Finset.mem_erase.mp inside
    exact differs (forest.parent_unique inside liveZ kid kid')
  have degree : ∀ a, m₂.read a Node.degree = m.read a Node.degree := fun a =>
    (change.degree a).trans (released.degree a)
  refine ⟨ring, ?_, ?_, ?_, ?_, ?_, ?_, ?_, ?_⟩
  · refine nodup_append.mpr ⟨nodup_reverse.mpr (forest.kids_nodup liveZ),
      (nodup_cons.mp forest.nodup).2, ?_⟩
    rintro k kid r root rfl
    exact forest.root_not_kid liveZ (mem_cons_of_mem _ root) (mem_reverse.mp kid)
  · intro r member
    rw [change.parent, released.parent]
    rcases mem_append.mp member with kid | root
    · rw [mem_reverse] at kid
      rw [if_pos kid]
      exact ⟨Finset.mem_erase.mpr ⟨notZ z liveZ r kid, (forest.kid z liveZ r kid).1⟩, rfl⟩
    · have root' : r ∈ z :: l := mem_cons_of_mem _ root
      rw [if_neg (forest.root_not_kid liveZ root')]
      refine ⟨Finset.mem_erase.mpr ⟨?_, (forest.root r root').1⟩, (forest.root r root').2⟩
      rintro rfl
      exact (nodup_cons.mp forest.nodup).1 root
  · intro p inside
    have inside' := Finset.mem_of_mem_erase inside
    refine (forest.kidRing p inside').frame ?_
    intro k kid
    have notRing : k ∉ z :: l := fun root => forest.root_not_kid inside' root kid
    rw [change.outside, released.outside k notRing (kept p inside k kid)]
    rw [mem_cons, mem_append, mem_reverse]
    rw [mem_cons] at notRing
    tauto
  · intro p inside k kid
    have inside' := Finset.mem_of_mem_erase inside
    rw [change.parent, released.parent, if_neg (kept p inside k kid)]
    exact ⟨Finset.mem_erase.mpr ⟨notZ p inside' k kid, (forest.kid p inside' k kid).1⟩,
      (forest.kid p inside' k kid).2⟩
  · intro a inside
    obtain ⟨differs, inside'⟩ := Finset.mem_erase.mp inside
    rcases forest.placed a inside' with root | ⟨p, liveP, kid⟩
    · rcases mem_cons.mp root with same | root
      · exact absurd same differs
      · exact .inl (mem_append_right _ root)
    · by_cases same : p = z
      · subst same
        exact .inl (mem_append_left _ (mem_reverse.mpr kid))
      · exact .inr ⟨p, Finset.mem_erase.mpr ⟨same, liveP⟩, kid⟩
  · intro p inside
    rw [change.child, released.child]
    exact forest.child p (Finset.mem_of_mem_erase inside)
  · intro p inside
    obtain ⟨d, reads, degrees⟩ := forest.degrees p (Finset.mem_of_mem_erase inside)
    refine ⟨d, by rw [degree, reads], ?_⟩
    rw [← degrees]
    exact map_congr_left fun k _ => degree k
  · intro p inside k kid v u
    rw [change.value, change.value, released.value, released.value]
    exact forest.ordered p (Finset.mem_of_mem_erase inside) k kid v u

end Micron.Fibonacci
