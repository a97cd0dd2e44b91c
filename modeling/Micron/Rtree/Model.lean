import Mathlib.Data.List.FinRange

/-!
# The R*-tree `rtree`

`trees/rtree.hpp` keeps boxes with values in an R*-tree: an internal node has a
box for each kid that covers what is below it, an overfull leaf puts some of its
entries back through the root once per insertion and is split otherwise, and a
kid that erasure leaves with too few entries is dissolved.  The boxes are those
of `math/geometry/aligned_box.hpp`.

The coordinates are a linear order with arithmetic of which only `-1 < 1` is
assumed.  The constants are `u16` in the code and taken modulo 2^16.  A node is
modelled at its place in the tree, with fewer than 2^32 - 1 nodes in the arena, and
`none` stands for a read or write outside an array or of an unset one.
-/

set_option autoImplicit false

namespace Micron.Rtree

class Coord (F : Type) extends LinearOrder F, Add F, Sub F, Mul F, Zero F, One F where
  negOne : F
  half : F
  negOne_lt_one : negOne < 1

structure Box (F : Type) (D : Nat) where
  minCorner : Fin D → F
  maxCorner : Fin D → F

namespace Box

variable {F : Type} [Coord F] {D : Nat}

def empty : Box F D := ⟨fun _ => 1, fun _ => Coord.negOne⟩

def isEmpty (b : Box F D) : Bool :=
  (List.finRange D).any fun i => decide (b.minCorner i > b.maxCorner i)

def contains (b other : Box F D) : Bool :=
  other.isEmpty || (List.finRange D).all fun i =>
    !decide (other.minCorner i < b.minCorner i) && !decide (other.maxCorner i > b.maxCorner i)

def intersects (b other : Box F D) : Bool :=
  !(b.isEmpty || other.isEmpty) && (List.finRange D).all fun i =>
    !decide (b.minCorner i > other.maxCorner i) && !decide (b.maxCorner i < other.minCorner i)

def extend (b other : Box F D) : Box F D :=
  if other.isEmpty then b
  else if b.isEmpty then other
  else
    ⟨fun i => if other.minCorner i < b.minCorner i then other.minCorner i else b.minCorner i,
      fun i => if other.maxCorner i > b.maxCorner i then other.maxCorner i else b.maxCorner i⟩

def center (b : Box F D) : Fin D → F := fun i => (b.minCorner i + b.maxCorner i) * Coord.half

def areaFrom (b : Box F D) : List (Fin D) → F → F
  | [], a => a
  | d :: ds, a =>
    let e := b.maxCorner d - b.minCorner d
    if e < 0 then 0 else areaFrom b ds (a * e)

def area (b : Box F D) : F := b.areaFrom (List.finRange D) 1

def margin (b : Box F D) : F :=
  (List.finRange D).foldl (fun s d => s + (b.maxCorner d - b.minCorner d)) 0

def overlapFrom (a b : Box F D) : List (Fin D) → F → F
  | [], o => o
  | d :: ds, o =>
    let lo := if a.minCorner d > b.minCorner d then a.minCorner d else b.minCorner d
    let hi := if a.maxCorner d < b.maxCorner d then a.maxCorner d else b.maxCorner d
    let e := hi - lo
    if e ≤ 0 then 0 else overlapFrom a b ds (o * e)

def overlap (a b : Box F D) : F := a.overlapFrom b (List.finRange D) 1

def combine (a b : Box F D) : Box F D := a.extend b

def enlargement (e b : Box F D) : F := area (combine e b) - area e

end Box

def u16 (n : Nat) : Nat := n % 65536

/-- The constant `M` for the template argument `MaxOverride`. -/
def maxFanout (maxOverride : Nat) : Nat := u16 (if 0 < maxOverride then maxOverride else 16)

def minf (M : Nat) : Nat := u16 (if 2 * M / 5 < 2 then 2 else 2 * M / 5)

def prei (M : Nat) : Nat := u16 (if 3 * M / 10 < 1 then 1 else 3 * M / 10)

def cap (M : Nat) : Nat := u16 (M + 1)

inductive Node (F : Type) (D : Nat) (V : Type) where
  | leaf (entries : List (Box F D × V))
  | internal (kids : List (Box F D × Node F D V))

variable {F V : Type} [Coord F] {D : Nat}

namespace Node

def count : Node F D V → Nat
  | leaf es => es.length
  | internal kids => kids.length

def isLeaf : Node F D V → Bool
  | leaf _ => true
  | internal _ => false

def mbrs : Node F D V → List (Box F D)
  | leaf es => es.map Prod.fst
  | internal kids => kids.map Prod.fst

end Node

def mbrOf (boxes : List (Box F D)) : Box F D := boxes.foldl Box.extend Box.empty

def subtreeMbr (n : Node F D V) : Box F D := mbrOf n.mbrs

/-- The position of a best kid, with its `ov`, `en` and `ar`. -/
structure BestKid (F : Type) where
  index : Nat
  ov : F
  en : F
  ar : F

def leafKidStep (boxes : List (Box F D)) (b : Box F D) (best : Option (BestKid F)) (i : Nat) :
    Option (BestKid F) :=
  let mbr := boxes.getD i Box.empty
  let comb := mbr.combine b
  let ov := (List.range boxes.length).foldl (fun ov j =>
    if j ≠ i then
      ov + (comb.overlap (boxes.getD j Box.empty) - mbr.overlap (boxes.getD j Box.empty))
    else ov) 0
  let en := comb.area - mbr.area
  let ar := mbr.area
  match best with
  | none => some ⟨i, ov, en, ar⟩
  | some k =>
    if ov < k.ov ∨ (ov = k.ov ∧ en < k.en) ∨ (ov = k.ov ∧ en = k.en ∧ ar < k.ar) then
      some ⟨i, ov, en, ar⟩
    else best

def innerKidStep (boxes : List (Box F D)) (b : Box F D) (best : Option (BestKid F)) (i : Nat) :
    Option (BestKid F) :=
  let mbr := boxes.getD i Box.empty
  let en := mbr.enlargement b
  let ar := mbr.area
  match best with
  | none => some ⟨i, 0, en, ar⟩
  | some k => if en < k.en ∨ (en = k.en ∧ ar < k.ar) then some ⟨i, 0, en, ar⟩ else best

def chooseSubtree (kids : List (Box F D × Node F D V)) (b : Box F D) : Nat :=
  let boxes := kids.map Prod.fst
  let step := match kids with
    | (_, .leaf _) :: _ => leafKidStep boxes b
    | _ => innerKidStep boxes b
  match (List.range kids.length).foldl step none with
  | some k => k.index
  | none => 0

/-- One round of an insertion sort: `cur` moves left past the entries with a greater
key. -/
def sortStep (key : Nat → F) (sorted : List Nat) (cur : Nat) : List Nat :=
  let back := sorted.reverse
  (back.dropWhile fun j => decide (key j > key cur)).reverse ++
    cur :: (back.takeWhile fun j => decide (key j > key cur)).reverse

def sortBy (key : Nat → F) (idx : List Nat) : List Nat := idx.foldl (sortStep key) []

def sortIdx (boxes : List (Box F D)) (n : Nat) (axis : Fin D) (byMax : Bool) : List Nat :=
  sortBy (fun i =>
    let mbr := boxes.getD i Box.empty
    if byMax then mbr.maxCorner axis else mbr.minCorner axis) (List.range n)

def splitPoints (least n : Nat) : List Nat := List.range' least (n + 1 - 2 * least)

def groupBox (boxes : List (Box F D)) (idx : List Nat) : Box F D :=
  mbrOf (idx.map fun i => boxes.getD i Box.empty)

def marginSum (least n : Nat) (boxes : List (Box F D)) (axis : Fin D) : F :=
  [false, true].foldl (fun s mode =>
    let idx := sortIdx boxes n axis mode
    (splitPoints least n).foldl (fun s k =>
      s + ((groupBox boxes (idx.take k)).margin + (groupBox boxes (idx.drop k)).margin)) s) 0

def bestAxis (least n : Nat) (boxes : List (Box F D)) : Option (Fin D × F) :=
  (List.finRange D).foldl (fun best axis =>
    let m := marginSum least n boxes axis
    match best with
    | none => some (axis, m)
    | some a => if m < a.2 then some (axis, m) else best) none

structure SplitChoice (F : Type) where
  ov : F
  ar : F
  k : Nat
  perm : List Nat

def splitStep (boxes : List (Box F D)) (idx : List Nat) (best : Option (SplitChoice F)) (k : Nat) :
    Option (SplitChoice F) :=
  let b1 := groupBox boxes (idx.take k)
  let b2 := groupBox boxes (idx.drop k)
  let ov := b1.overlap b2
  let ar := b1.area + b2.area
  match best with
  | none => some ⟨ov, ar, k, idx⟩
  | some c => if ov < c.ov ∨ (ov = c.ov ∧ ar < c.ar) then some ⟨ov, ar, k, idx⟩ else best

/-- None when `out_perm` stays unset. -/
def chooseSplit (least n : Nat) (boxes : List (Box F D)) : Option (SplitChoice F) :=
  (bestAxis least n boxes).bind fun axis =>
    [false, true].foldl (fun best mode =>
      let idx := sortIdx boxes n axis.1 mode
      (splitPoints least n).foldl (splitStep boxes idx) best) none

def reorder {α : Type} (es : List α) (perm : List Nat) : List α := perm.filterMap fun i => es[i]?

/-- The two groups that the entries of an overfull node are split into. -/
def splitEntries {α : Type} (M : Nat) (es : List (Box F D × α)) :
    Option (List (Box F D × α) × List (Box F D × α)) :=
  (chooseSplit (minf M) (cap M) (es.map Prod.fst)).map fun c =>
    let sorted := reorder es c.perm
    (sorted.take c.k, sorted.drop c.k)

structure Split (F : Type) (D : Nat) (V : Type) where
  left : Node F D V
  right : Node F D V
  rmbr : Box F D

def splitLeaf (M : Nat) (es : List (Box F D × V)) : Option (Split F D V) :=
  (splitEntries M es).map fun p => ⟨.leaf p.1, .leaf p.2, subtreeMbr (.leaf p.2 : Node F D V)⟩

def splitInternal (M : Nat) (kids : List (Box F D × Node F D V)) : Option (Split F D V) :=
  (splitEntries M kids).map fun p => ⟨.internal p.1, .internal p.2, subtreeMbr (.internal p.2)⟩

/-- The entries that stay in an overfull leaf, and those that leave it. -/
def reinsertLeaf (M : Nat) (es : List (Box F D × V)) :
    List (Box F D × V) × List (Box F D × V) :=
  let c := (subtreeMbr (.leaf es : Node F D V)).center
  let dist := fun i =>
    let ec := ((es.map Prod.fst).getD i Box.empty).center
    (List.finRange D).foldl (fun dd d =>
      let df := ec d - c d
      dd + df * df) 0
  let sorted := reorder es (sortBy dist (List.range (cap M)))
  let keep := u16 (cap M + 65536 - prei M)
  (sorted.take keep, sorted.drop keep)

/-! ## Insertion -/

/-- What the descent leaves: the node, its new right sibling, the flag
`__did_reinsert` and the entries pushed to `__reins`. -/
structure Descent (F : Type) (D : Nat) (V : Type) where
  node : Node F D V
  right : Option (Node F D V × Box F D)
  did : Bool
  pushed : List (Box F D × V)

def insertLeaf (M : Nat) (isRoot did : Bool) (b : Box F D) (v : V) (es : List (Box F D × V)) :
    Option (Descent F D V) :=
  if es.length < cap M then
    let es := es ++ [(b, v)]
    if es.length ≤ M then some ⟨.leaf es, none, did, []⟩
    else if !did && !isRoot then
      let r := reinsertLeaf M es
      some ⟨.leaf r.1, none, true, r.2⟩
    else (splitLeaf M es).map fun s => ⟨s.left, some (s.right, s.rmbr), did, []⟩
  else none

/-- The part of `insert_descend` after the kid `ci` took the entry. -/
def insertInternal (M : Nat) (b : Box F D) (kids : List (Box F D × Node F D V)) (ci : Nat)
    (r : Descent F D V) : Option (Descent F D V) :=
  match kids[ci]? with
  | none => none
  | some kid =>
    match r.right with
    | none => some ⟨.internal (kids.set ci (kid.1.extend b, r.node)), none, r.did, r.pushed⟩
    | some (right, rmbr) =>
      if kids.length < cap M then
        let kids := kids.set ci (subtreeMbr r.node, r.node) ++ [(rmbr, right)]
        if kids.length ≤ M then some ⟨.internal kids, none, r.did, r.pushed⟩
        else (splitInternal M kids).map fun s =>
          ⟨s.left, some (s.right, s.rmbr), r.did, r.pushed⟩
      else none

mutual

def insertDescend (M : Nat) (b : Box F D) (v : V) (isRoot did : Bool) :
    Node F D V → Option (Descent F D V)
  | .leaf es => insertLeaf M isRoot did b v es
  | .internal kids =>
    let ci := chooseSubtree kids b
    (insertKid M b v did kids ci).bind fun r => insertInternal M b kids ci r

def insertKid (M : Nat) (b : Box F D) (v : V) (did : Bool) :
    List (Box F D × Node F D V) → Nat → Option (Descent F D V)
  | [], _ => none
  | (_, kid) :: _, 0 => insertDescend M b v false did kid
  | _ :: kids, ci + 1 => insertKid M b v did kids ci

end

mutual

def queryRec (q : Box F D) : Node F D V → List (Box F D × V)
  | .leaf es => es.filter fun e => e.1.intersects q
  | .internal kids => queryKids q kids

def queryKids (q : Box F D) : List (Box F D × Node F D V) → List (Box F D × V)
  | [] => []
  | (mbr, kid) :: kids => if mbr.intersects q then queryRec q kid ++ queryKids q kids else queryKids q kids

end

mutual

/-- The entries that `full_rec` visits and `collect_data` collects. -/
def collectData : Node F D V → List (Box F D × V)
  | .leaf es => es
  | .internal kids => collectKids kids

def collectKids : List (Box F D × Node F D V) → List (Box F D × V)
  | [] => []
  | (_, kid) :: kids => collectData kid ++ collectKids kids

end

def eraseLeaf [BEq V] (b : Box F D) (v : V) : List (Box F D × V) → Option (List (Box F D × V))
  | [] => none
  | e :: es =>
    if e.1.intersects b && e.2 == v then some es
    else (eraseLeaf b v es).map (e :: ·)

mutual

/-- The node after a removal and the entries pushed to `__reins`; none when nothing
was found. -/
def eraseRec [BEq V] (M : Nat) (b : Box F D) (v : V) :
    Node F D V → Option (Node F D V × List (Box F D × V))
  | .leaf es => (eraseLeaf b v es).map fun es => (.leaf es, [])
  | .internal kids => (eraseKids M b v kids).map fun r => (.internal r.1, r.2)

def eraseKids [BEq V] (M : Nat) (b : Box F D) (v : V) : List (Box F D × Node F D V) →
    Option (List (Box F D × Node F D V) × List (Box F D × V))
  | [] => none
  | (mbr, kid) :: kids =>
    let next := (eraseKids M b v kids).map fun r => ((mbr, kid) :: r.1, r.2)
    if !mbr.intersects b then next
    else
      match eraseRec M b v kid with
      | none => next
      | some r =>
        if r.1.count < minf M then some (kids, r.2 ++ collectData r.1)
        else some ((subtreeMbr r.1, r.1) :: kids, r.2)

end

structure RTree (F : Type) (D : Nat) (V : Type) where
  root : Option (Node F D V)
  size : Nat
  didReinsert : Bool
  reins : List (Box F D × V)

namespace RTree

def empty : RTree F D V := ⟨none, 0, false, []⟩

def insertFromRoot (M : Nat) (t : RTree F D V) (b : Box F D) (v : V) : Option (RTree F D V) :=
  t.root.bind fun root => (insertDescend M b v true t.didReinsert root).map fun r =>
    let root := match r.right with
      | none => r.node
      | some (right, rmbr) => .internal [(subtreeMbr r.node, r.node), (rmbr, right)]
    ⟨some root, t.size, r.did, t.reins ++ r.pushed⟩

/-- The loop over `__reins` from position `i` on, in at most `fuel` rounds. -/
def reinsertFrom (M : Nat) : Nat → Nat → RTree F D V → Option (RTree F D V)
  | fuel, i, t =>
    match t.reins[i]? with
    | none => some t
    | some p =>
      match fuel with
      | 0 => none
      | fuel + 1 => (t.insertFromRoot M p.1 p.2).bind fun t => reinsertFrom M fuel (i + 1) t

def insert (M : Nat) (t : RTree F D V) (b : Box F D) (v : V) : Option (RTree F D V) :=
  let root := t.root.getD (.leaf [])
  ((⟨some root, t.size, false, []⟩ : RTree F D V).insertFromRoot M b v).bind fun t =>
    (reinsertFrom M t.reins.length 0 ⟨t.root, t.size + 1, t.didReinsert, t.reins⟩).map fun t =>
      ⟨t.root, t.size, t.didReinsert, []⟩

/-- The root after a removal: an internal one with one kid gives way to it, an
empty leaf goes. -/
def collapse : Node F D V → Option (Node F D V)
  | .internal [kid] => some kid.2
  | .leaf [] => none
  | root => some root

def insertOrphans (M : Nat) (t : RTree F D V) (orphans : List (Box F D × V)) :
    Option (RTree F D V) :=
  orphans.foldlM (fun t p =>
    insertFromRoot M ⟨some (t.root.getD (.leaf [])), t.size, t.didReinsert, t.reins⟩ p.1 p.2) t

def erase [BEq V] (M : Nat) (t : RTree F D V) (b : Box F D) (v : V) :
    Option (RTree F D V × Bool) :=
  match t.root with
  | none => some (t, false)
  | some root =>
    match eraseRec M b v root with
    | none => some (⟨t.root, t.size, t.didReinsert, []⟩, false)
    | some r =>
      let t : RTree F D V := ⟨collapse r.1, t.size - 1, t.didReinsert, []⟩
      if r.2.isEmpty then some (t, true)
      else (insertOrphans M ⟨t.root, t.size, true, []⟩ r.2).map fun t => (t, true)

def query (t : RTree F D V) (q : Box F D) : List (Box F D × V) :=
  match t.root with
  | none => []
  | some root => queryRec q root

def forEach (t : RTree F D V) : List (Box F D × V) :=
  match t.root with
  | none => []
  | some root => collectData root

end RTree

end Micron.Rtree
