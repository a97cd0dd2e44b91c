import Micron.Fibonacci.Forest

/-!
# Consolidation

The loop over the roots leaves one root for every degree: the table has the roots
that were met, by their degrees, and the ring goes on with those still to come.
The last loop makes a new ring of the table.
-/

set_option autoImplicit false

namespace Micron.Fibonacci

open Micron.Lib List Function Option

variable {T : Type} {lt : T → T → Bool} {m m' : Store (Node T)} {live : Finset Nat}
  {roots rest done : List Nat} {kids : Nat → List Nat} {x d : Nat}

theorem Forest.rotate {front back : List Nat} (forest : Forest lt m live (front ++ back) kids) :
    Forest lt m live (back ++ front) kids where
  ring := forest.ring.rotate
  nodup := nodup_append_comm.mp forest.nodup
  root r member := forest.root r (mem_append.mpr (mem_append.mp member).symm)
  kidRing := forest.kidRing
  kid := forest.kid
  placed a inside :=
    (forest.placed a inside).imp_left fun root => mem_append.mpr (mem_append.mp root).symm
  child := forest.child
  degrees := forest.degrees
  ordered := forest.ordered

theorem Forest.relink {roots' : List Nat} (forest : Forest lt m live roots kids)
    (change : Relinked roots m m') (ring : NodeRing m' roots') (perm : roots'.Perm roots) :
    Forest lt m' live roots' kids where
  ring := ring
  nodup := perm.nodup_iff.mpr forest.nodup
  root r member := by
    rw [change.parent]
    exact forest.root r (perm.mem_iff.mp member)
  kidRing p inside := by
    refine (forest.kidRing p inside).frame ?_
    intro k kid
    exact change.outside k fun root => forest.root_not_kid inside root kid
  kid p inside k kid := by
    rw [change.parent]
    exact forest.kid p inside k kid
  placed a inside := (forest.placed a inside).imp_left perm.mem_iff.mpr
  child p inside := by
    rw [change.child]
    exact forest.child p inside
  degrees p inside := by
    obtain ⟨d, degree, degrees⟩ := forest.degrees p inside
    refine ⟨d, by rw [change.degree, degree], ?_⟩
    rw [← degrees]
    exact map_congr_left fun k _ => change.degree k
  ordered p inside k kid v u := by
    rw [change.value, change.value]
    exact forest.ordered p inside k kid v u

theorem countRoots_spec (nroots : Nat) {start : Nat} {l : List Nat} {a fuel : Nat}
    (arc : Arc (fun a => m.read a Node.right) (fun a => m.read a Node.left) a l start)
    (away : start ∉ l) (enough : l.length < fuel) :
    countRoots m start fuel a nroots = some (nroots + 1 + l.length) := by
  induction l generalizing a fuel nroots with
  | nil =>
    cases fuel with
    | zero => cases enough
    | succ fuel =>
      obtain ⟨n, found, right⟩ := Store.exists_of_read arc.1
      simp [countRoots, found, right]
  | cons b l ih =>
    cases fuel with
    | zero => cases enough
    | succ fuel =>
      obtain ⟨n, found, right⟩ := Store.exists_of_read arc.1
      have notStart : b ≠ start := fun same => away (same ▸ mem_cons_self)
      have step := ih (nroots + 1) arc.2.2
        (fun inside => away (mem_cons_of_mem _ inside)) (Nat.lt_of_succ_lt_succ enough)
      simp only [countRoots, found, right, if_neg notStart, bind_eq_bind,
        bind_some, step, length_cons]
      congr 1
      omega

/-- The table has the roots `done`, except for those of `out`. -/
structure Tabled (table : Nat → Option Nat) (m : Store (Node T)) (done out : List Nat) : Prop where
  entry : ∀ d y, table d = some y → y ∈ done ∧ y ∉ out ∧ m.read y Node.degree = some d
  entered : ∀ y ∈ done, y ∉ out →
    ∃ d < maxDegree, m.read y Node.degree = some d ∧ table d = some y

structure SameValues (m m' : Store (Node T)) : Prop where
  isSome : ∀ a, (m' a).isSome = (m a).isSome
  value : ∀ a, m'.read a Node.value = m.read a Node.value

theorem SameValues.refl (m : Store (Node T)) : SameValues m m := ⟨fun _ => rfl, fun _ => rfl⟩

theorem SameValues.trans {m'' : Store (Node T)} (first : SameValues m m')
    (second : SameValues m' m'') : SameValues m m'' :=
  ⟨fun a => (second.isSome a).trans (first.isSome a),
    fun a => (second.value a).trans (first.value a)⟩

/-- One round of the loop that links roots of equal degree: of `x` and the entry
`y`, `high` stays a root. -/
theorem link_round {s : Work T} {y high low : Nat} (small : live.card < 2 ^ 64)
    (forest : Forest lt s.nodes live (rest ++ done) kids) (tabled : Tabled s.table s.nodes done [x])
    (member : x ∈ done) (degree : s.nodes.read x Node.degree = some d)
    (entry : s.table d = some y)
    (pair : (high = x ∧ low = y) ∨ (high = y ∧ low = x))
    (order : ∀ v u, s.nodes.read high Node.value = some v → s.nodes.read low Node.value = some u →
      lt v u = false) :
    d + 1 < maxDegree ∧ ∃ m' done' kids', link s.nodes low high = some m' ∧
      Forest lt m' live (rest ++ done') kids' ∧ high ∈ done' ∧
      Tabled (update s.table d none) m' done' [high] ∧
      m'.read high Node.degree = some (d + 1) ∧ SameValues s.nodes m' := by
  obtain ⟨memberY, notX, degreeY⟩ := tabled.entry d y entry
  have other : x ≠ y := fun same => notX (mem_singleton.mpr same.symm)
  have rootX : x ∈ rest ++ done := mem_append_right _ member
  have rootY : y ∈ rest ++ done := mem_append_right _ memberY
  have weights := forest.two_roots rootX rootY other degree degreeY
  have below : d + 1 < 64 := (Nat.pow_lt_pow_iff_right (by decide)).mp
    (lt_of_le_of_lt weights small)
  refine ⟨below, ?_⟩
  have facts : high ≠ low ∧ high ∈ done ∧ low ∈ done ∧ s.nodes.read high Node.degree = some d ∧
      s.nodes.read low Node.degree = some d := by
    rcases pair with ⟨rfl, rfl⟩ | ⟨rfl, rfl⟩
    · exact ⟨other, member, memberY, degree, degreeY⟩
    · exact ⟨Ne.symm other, memberY, member, degreeY, degree⟩
  obtain ⟨differ, highDone, lowDone, degreeHigh, degreeLow⟩ := facts
  have small' : d + 1 < 2 ^ 64 := lt_trans below (by decide)
  obtain ⟨m', result, forest', isSome, value, degrees⟩ := forest.link
    (mem_append_right _ highDone) (mem_append_right _ lowDone) differ degreeHigh degreeLow
    small' order
  have lowNotRest : low ∉ rest := fun inside =>
    (nodup_append.mp forest.nodup).2.2 low inside low lowDone rfl
  rw [erase_append_right _ lowNotRest] at forest'
  have neither : ∀ w, w ≠ x → w ≠ y → w ≠ high ∧ w ≠ low := by
    intro w first second
    rcases pair with ⟨rfl, rfl⟩ | ⟨rfl, rfl⟩
    · exact ⟨first, second⟩
    · exact ⟨second, first⟩
  refine ⟨m', done.erase low, _, result, forest', (mem_erase_of_ne differ).mpr highDone,
    ⟨?_, ?_⟩, by rw [degrees, if_pos rfl], ⟨isSome, value⟩⟩
  · intro e w found
    have notD : e ≠ d := by
      rintro rfl
      rw [update_self] at found
      cases found
    rw [update_of_ne notD] at found
    obtain ⟨memberW, notXw, degreeW⟩ := tabled.entry e w found
    have notY : w ≠ y := by
      rintro rfl
      exact notD (Option.some.inj (degreeW.symm.trans degreeY))
    obtain ⟨notHigh, notLow⟩ := neither w (fun same => notXw (mem_singleton.mpr same)) notY
    refine ⟨(mem_erase_of_ne notLow).mpr memberW,
      fun inside => notHigh (mem_singleton.mp inside), ?_⟩
    rw [degrees, if_neg notHigh]
    exact degreeW
  · intro w inside notOut
    have notHigh : w ≠ high := fun same => notOut (mem_singleton.mpr same)
    have notLow : w ≠ low := by
      rintro rfl
      exact (nodup_append.mp forest.nodup).2.1.not_mem_erase inside
    have notX' : w ≠ x := by
      rcases pair with ⟨rfl, rfl⟩ | ⟨rfl, rfl⟩
      · exact notHigh
      · exact notLow
    have notY : w ≠ y := by
      rcases pair with ⟨rfl, rfl⟩ | ⟨rfl, rfl⟩
      · exact notLow
      · exact notHigh
    obtain ⟨e, bound, degreeW, entryW⟩ := tabled.entered w (mem_of_mem_erase inside)
      (fun same => notX' (mem_singleton.mp same))
    have notD : e ≠ d := by
      rintro rfl
      exact notY (Option.some.inj (entryW.symm.trans entry))
    refine ⟨e, bound, ?_, ?_⟩
    · rw [degrees, if_neg notHigh]
      exact degreeW
    · rw [update_of_ne notD]
      exact entryW

theorem linkEqual_spec [IsStrictWeakOrder T (Lesser lt)] (small : live.card < 2 ^ 64) {s : Work T}
    (forest : Forest lt s.nodes live (rest ++ done) kids) (tabled : Tabled s.table s.nodes done [x])
    (member : x ∈ done) (degree : s.nodes.read x Node.degree = some d) :
    ∃ s' x' d' done' kids', linkEqual lt s x d = some (s', x', d') ∧ d' < maxDegree ∧
      Forest lt s'.nodes live (rest ++ done') kids' ∧ x' ∈ done' ∧ Tabled s'.table s'.nodes done' [x'] ∧
      s'.nodes.read x' Node.degree = some d' ∧ s'.table d' = none ∧
      SameValues s.nodes s'.nodes := by
  have below : d < maxDegree := (Nat.pow_lt_pow_iff_right (by decide)).mp
    (lt_of_le_of_lt (forest.one_root (mem_append_right _ member) degree) small)
  induction n : maxDegree - d using Nat.strong_induction_on generalizing s x d done kids with
  | _ n ih =>
    rw [linkEqual, if_pos below]
    cases entry : s.table d with
    | none =>
      exact ⟨s, x, d, done, kids, rfl, below, forest, member, tabled, degree, entry,
        SameValues.refl _⟩
    | some y =>
      obtain ⟨nx, foundX, _⟩ := Store.exists_of_read degree
      obtain ⟨ny, foundY, _⟩ := Store.exists_of_read (tabled.entry d y entry).2.2
      have valueX : s.nodes.read x Node.value = some nx.value := Store.read_eq foundX _
      have valueY : s.nodes.read y Node.value = some ny.value := Store.read_eq foundY _
      simp only [valueX, valueY, bind_eq_bind, bind_some]
      have round : ∀ high low, (high = x ∧ low = y) ∨ (high = y ∧ low = x) →
          (∀ v u, s.nodes.read high Node.value = some v →
            s.nodes.read low Node.value = some u → lt v u = false) →
          ∃ s' x' d' done' kids', (link s.nodes low high).bind (fun m =>
              linkEqual lt ⟨update s.table d none, m⟩ high (d + 1)) =
              some (s', x', d') ∧ d' < maxDegree ∧
            Forest lt s'.nodes live (rest ++ done') kids' ∧ x' ∈ done' ∧
            Tabled s'.table s'.nodes done' [x'] ∧ s'.nodes.read x' Node.degree = some d' ∧
            s'.table d' = none ∧ SameValues s.nodes s'.nodes := by
        intro high low pair order
        obtain ⟨below', m', done', kids', result, forest', member', tabled', degree', same⟩ :=
          link_round small forest tabled member degree entry pair order
        obtain ⟨s', x', d', done'', kids'', result', rest'⟩ :=
          ih (maxDegree - (d + 1)) (by omega) (s := ⟨update s.table d none, m'⟩) forest'
            tabled' member' degree' below' rfl
        obtain ⟨bound, final, memberX, tabledX, degreeX, free, same'⟩ := rest'
        refine ⟨s', x', d', done'', kids'', ?_, bound, final, memberX, tabledX, degreeX, free,
          same.trans same'⟩
        rw [result, bind_some, result']
      cases less : lt nx.value ny.value with
      | true =>
        refine round y x (.inr ⟨rfl, rfl⟩) ?_
        intro v u first second
        cases Option.some.inj (valueY.symm.trans first)
        cases Option.some.inj (valueX.symm.trans second)
        exact comp_asymm less
      | false =>
        refine round x y (.inl ⟨rfl, rfl⟩) ?_
        intro v u first second
        cases Option.some.inj (valueX.symm.trans first)
        cases Option.some.inj (valueY.symm.trans second)
        exact less

theorem collect_spec [IsStrictWeakOrder T (Lesser lt)] (small : live.card < 2 ^ 64) {s : Work T}
    {w : Nat} (forest : Forest lt s.nodes live (rest ++ done) kids) (tabled : Tabled s.table s.nodes done [])
    (first : ∀ r ∈ rest.head?, w = r) :
    ∃ s' done' kids', collect lt rest.length s w = some s' ∧ Forest lt s'.nodes live done' kids' ∧
      Tabled s'.table s'.nodes done' [] ∧ SameValues s.nodes s'.nodes := by
  induction rest generalizing s w done kids with
  | nil => exact ⟨s, done, kids, rfl, forest, tabled, SameValues.refl _⟩
  | cons r rest ih =>
    have isFirst := first r rfl
    subst isFirst
    obtain ⟨d, degree, _⟩ := forest.degrees w (forest.root w (by simp)).1
    obtain ⟨n, found, rfl⟩ := Store.exists_of_read degree
    have right : n.right = ((rest ++ done) ++ [w]).head (by simp) := by
      have reads := Arc.right_eq (forest.ring : Arc _ _ _ _ _)
      rw [Store.read_eq found, Option.some.injEq] at reads
      exact reads
    have turned : Forest lt s.nodes live (rest ++ (done ++ [w])) kids := by
      have split : Forest lt s.nodes live ([w] ++ (rest ++ done)) kids := forest
      rw [← append_assoc]
      exact split.rotate
    have fresh : w ∉ done := by
      intro inside
      exact (nodup_cons.mp forest.nodup).1 (mem_append_right _ inside)
    have tabled' : Tabled s.table s.nodes (done ++ [w]) [w] := by
      refine ⟨?_, ?_⟩
      · intro e y entry
        obtain ⟨member, _, reads⟩ := tabled.entry e y entry
        refine ⟨mem_append_left _ member, ?_, reads⟩
        rw [mem_singleton]
        rintro rfl
        exact fresh member
      · intro y member notOut
        rcases mem_append.mp member with inside | same
        · exact tabled.entered y inside not_mem_nil
        · exact absurd same notOut
    obtain ⟨s₁, x, e, done₁, kids₁, result, below, forest₁, memberX, tabled₁, degreeX, free, same⟩ :=
      linkEqual_spec small turned tabled' (mem_append_right _ (mem_singleton.mpr rfl))
        degree
    have tabled₂ : Tabled (update s₁.table e (some x)) s₁.nodes done₁ [] := by
      refine ⟨?_, ?_⟩
      · intro i y entry
        by_cases isE : i = e
        · subst isE
          rw [update_self] at entry
          cases entry
          exact ⟨memberX, not_mem_nil, degreeX⟩
        · rw [update_of_ne isE] at entry
          obtain ⟨member, _, reads⟩ := tabled₁.entry i y entry
          exact ⟨member, not_mem_nil, reads⟩
      · intro y member _
        by_cases isX : y = x
        · subst isX
          exact ⟨e, below, degreeX, update_self _ _ _⟩
        · obtain ⟨i, bound, reads, entry⟩ := tabled₁.entered y member
            (fun inside => isX (mem_singleton.mp inside))
          refine ⟨i, bound, reads, ?_⟩
          rw [update_of_ne]
          · exact entry
          · rintro rfl
            rw [free] at entry
            cases entry
    have next : ∀ r ∈ rest.head?, n.right = r := by
      intro r head
      cases rest with
      | nil => cases head
      | cons b rest =>
        cases head
        exact right
    obtain ⟨s', done', kids', result', forest', tabled'', same'⟩ :=
      ih (s := ⟨update s₁.table e (some x), s₁.nodes⟩) forest₁ tabled₂ next
    refine ⟨s', done', kids', ?_, forest', tabled'', same.trans same'⟩
    simp only [length_cons, collect, found, bind_eq_bind, bind_some, result,
      if_neg (Nat.not_le.mpr below)]
    exact result'

/-! ## The new ring -/

def Topmost (lt : T → T → Bool) (m : Store (Node T)) (l : List Nat) : Prop :=
  ∀ r ∈ l.head?, ∀ q ∈ l, ∀ v u, m.read r Node.value = some v → m.read q Node.value = some u →
    lt v u = false

structure Gathered (lt : T → T → Bool) (done ring : List Nat) (minRoot : Option Nat)
    (m m' : Store (Node T)) : Prop where
  first : minRoot = ring.head?
  linked : NodeRing m' ring
  change : Relinked done m m'
  top : Topmost lt m ring

theorem topmost_splice [IsStrictWeakOrder T (Lesser lt)] {r a : Nat} {l : List Nat} {va vr : T}
    (top : Topmost lt m (r :: l)) (valueA : m.read a Node.value = some va)
    (valueR : m.read r Node.value = some vr) :
    (lt vr va = true → Topmost lt m (a :: l ++ [r])) ∧
      (lt vr va = false → Topmost lt m (r :: a :: l)) := by
  refine ⟨?_, ?_⟩
  · intro less b isHead q member v u first second
    cases isHead
    cases Option.some.inj (valueA.symm.trans first)
    rw [cons_append] at member
    rcases mem_cons.mp member with rfl | later
    · cases Option.some.inj (valueA.symm.trans second)
      exact comp_irrefl va
    · have old : q ∈ r :: l := by
        rw [mem_append, mem_singleton] at later
        exact mem_cons.mpr later.symm
      exact comp_trans_false (comp_asymm less) (top r rfl q old vr u valueR second)
  · intro notLess b isHead q member v u first second
    cases isHead
    cases Option.some.inj (valueR.symm.trans first)
    rcases mem_cons.mp member with rfl | later
    · exact top _ rfl _ mem_cons_self vr u valueR second
    · rcases mem_cons.mp later with rfl | old
      · cases Option.some.inj (valueA.symm.trans second)
        exact notLess
      · exact top r rfl q (mem_cons_of_mem _ old) vr u valueR second

theorem place_spec [IsStrictWeakOrder T (Lesser lt)] {table : Nat → Option Nat} {i a : Nat}
    {ring : List Nat} {minRoot : Option Nat} (entry : table i = some a) (member : a ∈ done)
    (stored : (m a).isSome) (fresh : a ∉ ring) (nodup : ring.Nodup) (sub : ∀ q ∈ ring, q ∈ done)
    (gathered : Gathered lt done ring minRoot m m') :
    ∃ ring' minRoot' m'', place lt table (minRoot, m') i = some (minRoot', m'') ∧
      ring'.Perm (a :: ring) ∧ Gathered lt done ring' minRoot' m m'' := by
  have change := gathered.change
  have live' : (m' a).isSome := by
    rw [change.isSome]
    exact stored
  obtain ⟨na, foundA⟩ := isSome_iff_exists.mp live'
  have isFirst := gathered.first
  subst isFirst
  cases ring with
  | nil =>
    have found' : m'.set a (Node.setRight a) a = some (na.setRight a) := Store.set_self foundA _
    refine ⟨[a], some a, (m'.set a (Node.setRight a)).set a (Node.setLeft a), ?_, .refl _, rfl,
      ⟨?_, ?_⟩, ?_, ?_⟩
    · simp only [place, entry, head?_nil, Store.write_eq foundA, Store.write_eq found',
        bind_eq_bind, bind_some]
    · exact (right_setLeft _ _ _ _).trans (Store.read_set_self live' (fun _ => rfl))
    · exact Store.read_set_self (by rw [found']; rfl) (fun _ => rfl)
    · exact change.trans ((Relinked.set _ member (body_setRight _)).trans
        (Relinked.set _ member (body_setLeft _)))
    · intro r isHead q inside v u first second
      cases isHead
      cases mem_singleton.mp inside
      cases Option.some.inj (first.symm.trans second)
      exact comp_irrefl v
  | cons r l =>
    obtain ⟨m'', spliced, ring'', change'⟩ := gathered.linked.splice nodup fresh live'
    have inDone : ∀ q ∈ r :: a :: l, q ∈ done := by
      intro q inside
      rcases mem_cons.mp inside with rfl | later
      · exact sub _ mem_cons_self
      · rcases mem_cons.mp later with rfl | old
        · exact member
        · exact sub q (mem_cons_of_mem _ old)
    have whole := change.trans (change'.mono inDone)
    have valueA : m''.read a Node.value = some na.value := by
      rw [change'.value]
      exact Store.read_eq foundA _
    obtain ⟨nr, foundR⟩ : ∃ nr, m' r = some nr := by
      obtain ⟨_, _, _, _, reads, _⟩ := Ring.links gathered.linked mem_cons_self
      obtain ⟨nr, found, _⟩ := Store.exists_of_read reads
      exact ⟨nr, found⟩
    have valueR : m''.read r Node.value = some nr.value := by
      rw [change'.value]
      exact Store.read_eq foundR _
    have splits := topmost_splice gathered.top ((whole.value a).symm.trans valueA)
      ((whole.value r).symm.trans valueR)
    have result : place lt table (some r, m') i =
        some (some (if lt nr.value na.value then a else r), m'') := by
      simp only [place, entry, spliced, valueA, valueR, bind_eq_bind, bind_some]
    cases less : lt nr.value na.value with
    | true =>
      refine ⟨a :: l ++ [r], some a, m'', ?_, ?_, rfl, ?_, whole, splits.1 less⟩
      · rw [less, if_pos rfl] at result
        exact result
      · exact (perm_append_singleton r (a :: l)).trans (List.Perm.swap _ _ _)
      · have whole'' : NodeRing m'' ([r] ++ (a :: l)) := ring''
        exact whole''.rotate
    | false =>
      refine ⟨r :: a :: l, some r, m'', ?_, List.Perm.swap _ _ _, rfl, ring'', whole,
        splits.2 less⟩
      rw [less] at result
      exact result

theorem placeAll_spec (lt : T → T → Bool) [IsStrictWeakOrder T (Lesser lt)] {table : Nat → Option Nat}
    (tabled : Tabled table m done []) (n : Nat) :
    ∃ ring minRoot m', (List.range n).foldlM (place lt table) (none, m) = some (minRoot, m') ∧
      ring.Nodup ∧ (∀ q, q ∈ ring ↔ ∃ i < n, table i = some q) ∧
      Gathered lt done ring minRoot m m' := by
  induction n with
  | zero =>
    refine ⟨[], none, m, rfl, nodup_nil, by simp, rfl, trivial, Relinked.refl _, ?_⟩
    intro r isHead
    cases isHead
  | succ n ih =>
    obtain ⟨ring, minRoot, m', result, nodup, members, gathered⟩ := ih
    have unfold : (List.range (n + 1)).foldlM (place lt table) (none, m) =
        place lt table (minRoot, m') n := by
      rw [range_succ, foldlM_append, result]
      simp
    rw [unfold]
    cases entry : table n with
    | none =>
      refine ⟨ring, minRoot, m', ?_, nodup, ?_, gathered⟩
      · simp only [place, entry]
      · intro q
        rw [members]
        constructor
        · intro ⟨i, below, found⟩
          exact ⟨i, Nat.lt_succ_of_lt below, found⟩
        · intro ⟨i, below, found⟩
          refine ⟨i, lt_of_le_of_ne (Nat.le_of_lt_succ below) ?_, found⟩
          rintro rfl
          rw [entry] at found
          cases found
    | some a =>
      obtain ⟨member, _, degree⟩ := tabled.entry n a entry
      obtain ⟨na, found, _⟩ := Store.exists_of_read degree
      have fresh : a ∉ ring := by
        intro inside
        obtain ⟨i, below, entry'⟩ := (members a).mp inside
        have degree' := (tabled.entry i a entry').2.2
        exact ne_of_lt below (Option.some.inj (degree'.symm.trans degree))
      have sub : ∀ q ∈ ring, q ∈ done := by
        intro q inside
        obtain ⟨i, _, entry'⟩ := (members q).mp inside
        exact (tabled.entry i q entry').1
      obtain ⟨ring', minRoot', m'', result', perm, gathered'⟩ :=
        place_spec entry member (by rw [found]; rfl) fresh nodup sub gathered
      refine ⟨ring', minRoot', m'', result', ?_, ?_, gathered'⟩
      · exact perm.nodup_iff.mpr (nodup_cons.mpr ⟨fresh, nodup⟩)
      · intro q
        rw [perm.mem_iff, mem_cons, members]
        constructor
        · rintro (rfl | ⟨i, below, found'⟩)
          · exact ⟨n, Nat.lt_succ_self n, entry⟩
          · exact ⟨i, Nat.lt_succ_of_lt below, found'⟩
        · intro ⟨i, below, found'⟩
          rcases Nat.lt_succ_iff_lt_or_eq.mp below with less | rfl
          · exact .inr ⟨i, less, found'⟩
          · exact .inl (Option.some.inj (found'.symm.trans entry))

def DistinctDegrees (m : Store (Node T)) (roots : List Nat) : Prop :=
  (roots.map fun r => m.read r Node.degree).Nodup

theorem consolidate_spec [IsStrictWeakOrder T (Lesser lt)] {r fuel : Nat} {l : List Nat}
    (small : live.card < 2 ^ 64) (forest : Forest lt m live (r :: l) kids)
    (enough : l.length < fuel) :
    ∃ r' l' m' kids', consolidate lt fuel (some r) m = some (some r', m') ∧
      Forest lt m' live (r' :: l') kids' ∧ Topmost lt m' (r' :: l') ∧
      DistinctDegrees m' (r' :: l') ∧ SameValues m m' := by
  have count := countRoots_spec 0 forest.ring (nodup_cons.mp forest.nodup).1 enough
  have forest₀ : Forest lt m live ((r :: l) ++ []) kids := by
    rw [append_nil]
    exact forest
  have none₀ : Tabled (fun _ => none) m [] [] :=
    ⟨fun _ _ found => (nomatch found), fun _ inside => absurd inside not_mem_nil⟩
  obtain ⟨s, done, kids', collected, forest₁, tabled, same⟩ :=
    collect_spec (s := ⟨fun _ => none, m⟩) (w := r) small forest₀ none₀
      (fun _ isHead => Option.some.inj isHead)
  obtain ⟨ring, minRoot, m', placed, nodup, members, gathered⟩ :=
    placeAll_spec lt tabled maxDegree
  have perm : ring.Perm done := by
    refine (perm_ext_iff_of_nodup nodup forest₁.nodup).mpr ?_
    intro q
    rw [members]
    constructor
    · intro ⟨i, _, entry⟩
      exact (tabled.entry i q entry).1
    · intro inside
      obtain ⟨i, below, _, entry⟩ := tabled.entered q inside not_mem_nil
      exact ⟨i, below, entry⟩
  have forest' := forest₁.relink gathered.change gathered.linked perm
  have distinct : DistinctDegrees m' ring := by
    refine (nodup_map_iff_inj_on nodup).mpr ?_
    intro p insideP q insideQ sameDegree
    simp only [gathered.change.degree] at sameDegree
    obtain ⟨i, _, degreeP, entryP⟩ := tabled.entered p (perm.mem_iff.mp insideP) not_mem_nil
    obtain ⟨j, _, degreeQ, entryQ⟩ := tabled.entered q (perm.mem_iff.mp insideQ) not_mem_nil
    rw [degreeP, degreeQ, Option.some.injEq] at sameDegree
    subst sameDegree
    exact Option.some.inj (entryP.symm.trans entryQ)
  have top : Topmost lt m' ring := by
    intro a isHead q inside v u
    rw [gathered.change.value, gathered.change.value]
    exact gathered.top a isHead q inside v u
  cases ring with
  | nil =>
    -- the heap has a node, so there is a root
    have noRoots := forest'.card_eq
    rw [map_nil, sum_nil, Finset.card_eq_zero] at noRoots
    have inside := (forest.root r mem_cons_self).1
    rw [noRoots] at inside
    exact absurd inside (Finset.notMem_empty r)
  | cons r' l' =>
    refine ⟨r', l', m', kids', ?_, forest', top, distinct, same.trans ?_⟩
    · have rounds : 0 + 1 + l.length = (r :: l).length := by
        rw [length_cons]
        omega
      simp only [consolidate, count, bind_eq_bind, bind_some]
      rw [rounds, collected, bind_some, placed, gathered.first, head?_cons]
    · exact ⟨gathered.change.isSome, gathered.change.value⟩

end Micron.Fibonacci
