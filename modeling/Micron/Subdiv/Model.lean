import Mathlib.Algebra.Order.Field.Basic
import Mathlib.Data.List.FinRange
import Micron.Lib.KSmallest

/-!
# The point quadtree and octree of `trees/__subdiv_tree.hpp`

`pr_tree` halves its universe box along every axis: an internal node has a child
for each of the `2 ^ D` octants, a leaf a bucket of points, and below the maximum
depth full buckets grow chains instead.  The boxes are those of
`math/geometry/aligned_box.hpp`.

Coordinates are an ordered field.  A node is modelled at its place in the tree,
by the number of levels there may be below it, `MaxDepth - depth`; the arena is
left out, with fewer than `2 ^ 32 - 1` nodes in it, as is the room that `nearest`
reserves, and allocation is taken to succeed.  `none` is a call that does not return.
-/

set_option autoImplicit false

namespace Micron.Subdiv

open Micron.Lib

abbrev Point (F : Type) (D : Nat) : Type := Fin D → F

abbrev Entry (F : Type) (D : Nat) (V : Type) : Type := Point F D × V

structure Box (F : Type) (D : Nat) where
  minCorner : Point F D
  maxCorner : Point F D

section Boxes
variable {F : Type} [LinearOrder F] {D : Nat}

def Box.isEmpty (b : Box F D) : Bool :=
  (List.finRange D).any fun i => decide (b.minCorner i > b.maxCorner i)

def Box.contains (b : Box F D) (p : Point F D) : Bool :=
  (List.finRange D).all fun i =>
    !decide (p i < b.minCorner i) && !decide (p i > b.maxCorner i)

def Box.intersects (b other : Box F D) : Bool :=
  !(b.isEmpty || other.isEmpty) && (List.finRange D).all fun i =>
    !decide (b.minCorner i > other.maxCorner i) && !decide (b.maxCorner i < other.minCorner i)

variable [Field F]

def Box.center (b : Box F D) : Point F D := fun i => (b.minCorner i + b.maxCorner i) * (1 / 2)

def octant (nb : Box F D) (p : Point F D) : Nat :=
  (List.finRange D).foldl
    (fun oc d => if p d ≥ nb.center d then oc ||| 1 <<< d.val else oc) 0

def childBox (nb : Box F D) (oc : Nat) : Box F D :=
  { minCorner := fun d => if oc.testBit d then nb.center d else nb.minCorner d
    maxCorner := fun d => if oc.testBit d then nb.maxCorner d else nb.center d }

def mindist2 (p : Point F D) (b : Box F D) : F :=
  (List.finRange D).foldl
    (fun s d =>
      if p d < b.minCorner d then
        let dd := b.minCorner d - p d
        s + dd * dd
      else if p d > b.maxCorner d then
        let dd := p d - b.maxCorner d
        s + dd * dd
      else s) 0

omit [LinearOrder F] in
def dist2 (a b : Point F D) : F :=
  (List.finRange D).foldl (fun s d => let dd := a d - b d; s + dd * dd) 0

end Boxes

def bucketSize (capacity : Nat) : Nat := capacity % 2 ^ 16

/-- The filled part of a leaf node and of the nodes of its chain. -/
structure Leaf (E : Type) where
  entries : List E
  overflow : List (List E)

/-- A node with at most so many levels below it. -/
def Node (E : Type) : Nat → Type
  | 0 => Leaf E
  | levels + 1 => Leaf E ⊕ (Nat → Option (Node E levels))

section Nodes
variable {E : Type}

def Leaf.items (leaf : Leaf E) : List E := leaf.entries ++ leaf.overflow.flatten

/-- The loop of `add_to_leaf` from a node with its chain on, in so many rounds. -/
def addLoop (B : Nat) (e : E) : Nat → List E → List (List E) → Option (Leaf E)
  | 0, _, _ => none
  | rounds + 1, entries, overflow =>
    if entries.length < B then some ⟨entries ++ [e], overflow⟩
    else
      let rest :=
        match overflow with
        | [] => addLoop B e rounds [] []
        | next :: later => addLoop B e rounds next later
      rest.map fun chain => ⟨entries, chain.entries :: chain.overflow⟩

/-- `add_to_leaf`; if it returns, it does so in a round for each node and one for a
new node. -/
def Leaf.add (B : Nat) (leaf : Leaf E) (e : E) : Option (Leaf E) :=
  addLoop B e (leaf.overflow.length + 2) leaf.entries leaf.overflow

def emptyLeaf : (levels : Nat) → Node E levels
  | 0 => (⟨[], []⟩ : Leaf E)
  | _ + 1 => Sum.inl ⟨[], []⟩

/-- The entries below the children, octant by octant. -/
def kidItems {α : Type} (D : Nat) (items : α → List E) (kids : Nat → Option α) : List E :=
  (List.range (2 ^ D)).flatMap fun oc => (kids oc).elim [] items

/-- `full_rec`. -/
def Node.items (D : Nat) : (levels : Nat) → Node E levels → List E
  | 0 => Leaf.items
  | levels + 1 => fun node =>
    match node with
    | .inl leaf => Leaf.items leaf
    | .inr kids => kidItems D (Node.items D levels) kids

end Nodes

section Insert
variable {F V : Type} [LinearOrder F] [Field F] {D : Nat} (B : Nat)

section Kids
variable {α : Type} (insert : α → Box F D → Entry F D V → Option (α × Bool)) (fresh : α)

def insertKid (nb : Box F D) (e : Entry F D V) (kids : Nat → Option α) :
    Option ((Nat → Option α) × Bool) :=
  let oc := octant nb e.1
  (insert ((kids oc).getD fresh) (childBox nb oc) e).map fun result =>
    (Function.update kids oc (some result.1), result.2)

/-- The loop that puts the points of a full leaf into a new internal node. -/
def reinsert (nb : Box F D) : List (Entry F D V) → (Nat → Option α) → Option (Nat → Option α)
  | [], kids => some kids
  | e :: rest, kids => (insertKid insert fresh nb e kids).bind fun result =>
    reinsert nb rest result.1

end Kids

def insertRec : (levels : Nat) → Node (Entry F D V) levels → Box F D → Entry F D V →
    Option (Node (Entry F D V) levels × Bool)
  | 0 => fun (leaf : Leaf (Entry F D V)) _ e => (leaf.add B e).map fun leaf => (leaf, true)
  | levels + 1 => fun node nb e =>
    let insertHere := insertKid (insertRec levels) (emptyLeaf levels) nb e
    match node with
    | .inl leaf =>
      if leaf.entries.length < B then (leaf.add B e).map fun leaf => (.inl leaf, true)
      else
        -- the chain, if there were one, would be lost here
        (reinsert (insertRec levels) (emptyLeaf levels) nb leaf.entries fun _ => none).bind
          fun kids => (insertHere kids).map fun result => (.inr result.1, result.2)
    | .inr kids => (insertHere kids).map fun result => (.inr result.1, result.2)

end Insert

section Erase
variable {F V : Type} [LinearOrder F] [Field F] [DecidableEq V] {D : Nat}

omit [Field F] in
def isEntry (p : Point F D) (v : V) (e : Entry F D V) : Bool :=
  (List.finRange D).all (fun i => !decide (e.1 i ≠ p i)) && decide (e.2 = v)

omit [Field F] in
/-- The walk along a chain to the first node with the entry. -/
def eraseChain (p : Point F D) (v : V) :
    List (List (Entry F D V)) → Option (List (List (Entry F D V)))
  | [] => none
  | entries :: rest =>
    if entries.any (isEntry p v) then some (entries.eraseP (isEntry p v) :: rest)
    else (eraseChain p v rest).map (entries :: ·)

omit [Field F] in
def Leaf.erase (leaf : Leaf (Entry F D V)) (p : Point F D) (v : V) :
    Option (Leaf (Entry F D V)) :=
  if leaf.entries.any (isEntry p v) then
    some { leaf with entries := leaf.entries.eraseP (isEntry p v) }
  else (eraseChain p v leaf.overflow).map fun overflow => { leaf with overflow := overflow }

/-- The descent of `erase`; `none` is the answer `false`. -/
def eraseRec (p : Point F D) (v : V) : (levels : Nat) → Node (Entry F D V) levels → Box F D →
    Option (Node (Entry F D V) levels)
  | 0 => fun (leaf : Leaf (Entry F D V)) _ => leaf.erase p v
  | levels + 1 => fun node nb =>
    match node with
    | .inl leaf => (leaf.erase p v).map Sum.inl
    | .inr kids =>
      let oc := octant nb p
      match kids oc with
      | none => none
      | some kid => (eraseRec p v levels kid (childBox nb oc)).map fun kid =>
        Sum.inr (Function.update kids oc (some kid))

end Erase

section Queries
variable {F V : Type} [LinearOrder F] [Field F] {D : Nat}

/-- `query_rec` and `radius_rec`: the entries that are wanted, from the children
whose box the search reaches. -/
def walkRec (reach : Box F D → Bool) (wanted : Entry F D V → Bool) :
    (levels : Nat) → Node (Entry F D V) levels → Box F D → List (Entry F D V)
  | 0 => fun (leaf : Leaf (Entry F D V)) _ => leaf.items.filter wanted
  | levels + 1 => fun node nb =>
    match node with
    | .inl leaf => leaf.items.filter wanted
    | .inr kids => (List.range (2 ^ D)).flatMap fun oc =>
      match kids oc with
      | none => []
      | some kid =>
        if reach (childBox nb oc) then walkRec reach wanted levels kid (childBox nb oc) else []

def queryRec (q : Box F D) : (levels : Nat) → Node (Entry F D V) levels → Box F D →
    List (Entry F D V) :=
  walkRec (fun cb => cb.intersects q) fun e => q.contains e.1

def radiusRec (c : Point F D) (r2 : F) : (levels : Nat) → Node (Entry F D V) levels → Box F D →
    List (Entry F D V) :=
  walkRec (fun cb => decide (mindist2 c cb ≤ r2)) fun e => decide (dist2 c e.1 ≤ r2)

abbrev KnnItem (F : Type) (D : Nat) (V : Type) : Type := F × Entry F D V

def knnItem (p : Point F D) (e : Entry F D V) : KnnItem F D V := (dist2 p e.1, e)

def knnLeaf (p : Point F D) (k : Nat) (leaf : Leaf (Entry F D V)) (best : List (KnnItem F D V)) :
    List (KnnItem F D V) :=
  (leaf.items.map (knnItem p)).foldl (offer Prod.fst k) best

/-- The children that there are, with the distances of their boxes, nearest first. -/
def knnOrder {α : Type} (p : Point F D) (nb : Box F D) (kids : Nat → Option α) :
    List (F × (Box F D × α)) :=
  sortBack Prod.fst ((List.range (2 ^ D)).filterMap fun oc =>
    (kids oc).map fun kid => (mindist2 p (childBox nb oc), (childBox nb oc, kid)))

def knnRec (p : Point F D) (k : Nat) : (levels : Nat) → Node (Entry F D V) levels → Box F D →
    List (KnnItem F D V) → List (KnnItem F D V)
  | 0 => fun (leaf : Leaf (Entry F D V)) _ best => knnLeaf p k leaf best
  | levels + 1 => fun node nb best =>
    match node with
    | .inl leaf => knnLeaf p k leaf best
    | .inr kids =>
      visitUntil Prod.fst k (fun kid best => knnRec p k levels kid.2 kid.1 best)
        (knnOrder p nb kids) best

end Queries

/-! ## The tree -/

/-- `pr_tree<Value, F, D, Capacity, MaxDepth>`; `bounds` is `__universe`. -/
structure PrTree (F : Type) (D : Nat) (V : Type) (maxDepth : Nat) where
  root : Option (Node (Entry F D V) maxDepth)
  size : Nat
  bounds : Box F D

inductive Call (F : Type) (D : Nat) (V : Type) where
  | insert (point : Point F D) (value : V)
  | erase (point : Point F D) (value : V)

section Trees
variable {F V : Type} [LinearOrder F] [Field F] {D : Nat} {maxDepth : Nat}

omit [LinearOrder F] [Field F] in
def PrTree.empty (bounds : Box F D) : PrTree F D V maxDepth := ⟨none, 0, bounds⟩

def PrTree.insert (capacity : Nat) (t : PrTree F D V maxDepth) (p : Point F D) (v : V) :
    Option (PrTree F D V maxDepth × Bool) :=
  if t.bounds.contains p then
    let root := t.root.getD (emptyLeaf maxDepth)
    (insertRec (bucketSize capacity) maxDepth root t.bounds (p, v)).map fun result =>
      ({ t with
          root := some result.1
          size := if result.2 then t.size + 1 else t.size }, result.2)
  else some (t, false)

def PrTree.erase [DecidableEq V] (t : PrTree F D V maxDepth) (p : Point F D) (v : V) :
    PrTree F D V maxDepth × Bool :=
  match t.root with
  | none => (t, false)
  | some root =>
    if t.bounds.contains p then
      match eraseRec p v maxDepth root t.bounds with
      | none => (t, false)
      | some root => ({ t with root := some root, size := t.size - 1 }, true)
    else (t, false)

def PrTree.query (t : PrTree F D V maxDepth) (q : Box F D) : List (Entry F D V) :=
  t.root.elim [] fun root => queryRec q maxDepth root t.bounds

def PrTree.queryRadius (t : PrTree F D V maxDepth) (c : Point F D) (r : F) : List (Entry F D V) :=
  t.root.elim [] fun root => radiusRec c (r * r) maxDepth root t.bounds

def PrTree.nearest (t : PrTree F D V maxDepth) (p : Point F D) (k : Nat) :
    List (KnnItem F D V) :=
  match t.root with
  | none => []
  | some root => if k = 0 then [] else knnRec p k maxDepth root t.bounds []

def PrTree.apply [DecidableEq V] (capacity : Nat) (t : PrTree F D V maxDepth) :
    Call F D V → Option (PrTree F D V maxDepth × Bool)
  | .insert p v => t.insert capacity p v
  | .erase p v => some (t.erase p v)

def PrTree.run [DecidableEq V] (capacity : Nat) :
    PrTree F D V maxDepth → List (Call F D V) → Option (PrTree F D V maxDepth × List Bool)
  | t, [] => some (t, [])
  | t, call :: rest => (t.apply capacity call).bind fun step =>
    (PrTree.run capacity step.1 rest).map fun last => (last.1, step.2 :: last.2)

end Trees

end Micron.Subdiv
