import Mathlib.Data.List.Infix

/-!
# The string radix tree of `trees/radix.hpp`

A node holds a fragment of a key, a value, whether a key ends here, and its children, which
start with different characters.  Keys are texts over any alphabet.
-/

set_option autoImplicit false

namespace Micron.RadixTree

inductive Node (C V : Type) where
  | mk (keyFragment : List C) (value : V) (isLeaf : Bool) (children : List (Node C V))

section Model
variable {C V : Type} [DecidableEq C]

def commonPrefixLength : List C → List C → Nat
  | a :: as, b :: bs => if a = b then commonPrefixLength as bs + 1 else 0
  | _, _ => 0

def Node.fragment : Node C V → List C
  | .mk keyFragment _ _ _ => keyFragment

def Node.fresh (k : List C) (v : V) : Node C V := .mk k v true []

mutual

/-- The loop of `insert` from the node that `cur` is at; `k` is what is left of the key. -/
def Node.insert : Node C V → List C → V → Node C V
  | .mk keyFragment value isLeaf children, k, v =>
    let common := commonPrefixLength keyFragment k
    if common = keyFragment.length then
      if common = k.length then .mk keyFragment v true children
      else
        let remaining := k.drop common
        match insertAmong children remaining v with
        | some descended => .mk keyFragment value isLeaf descended
        | none => .mk keyFragment value false (children ++ [Node.fresh remaining v])
    else
      let splitNode := Node.mk (keyFragment.drop common) value isLeaf children
      if common < k.length then
        .mk (keyFragment.take common) value false [splitNode, Node.fresh (k.drop common) v]
      else .mk (keyFragment.take common) v true [splitNode]

/-- The search for the child that starts like what remains, and the descent into it. -/
def insertAmong : List (Node C V) → List C → V → Option (List (Node C V))
  | [], _, _ => none
  | c :: rest, remaining, v =>
    if c.fragment.head? = remaining.head? then some (c.insert remaining v :: rest)
    else (insertAmong rest remaining v).map fun descended => c :: descended

end

mutual

/-- The loop of `find`; `k` is `k.substr(pos)`. -/
def Node.find : Node C V → List C → Option V
  | .mk keyFragment value isLeaf children, k =>
    let common := commonPrefixLength keyFragment k
    if common = keyFragment.length then
      if common = k.length then if isLeaf then some value else none
      else findAmong children (k.drop common)
    else none

def findAmong : List (Node C V) → List C → Option V
  | [], _ => none
  | c :: rest, k => if c.fragment.head? = k.head? then c.find k else findAmong rest k

end

def insert : Option (Node C V) → List C → V → Option (Node C V)
  | none, k, v => some (Node.fresh k v)
  | some root, k, v => some (root.insert k v)

def find : Option (Node C V) → List C → Option V
  | none, _ => none
  | some root, k => root.find k

def inserted (calls : List (List C × V)) : Option (Node C V) :=
  calls.foldl (fun root call => insert root call.1 call.2) none

end Model

section Spelling
variable {C V : Type}

mutual

/-- `q` is the start of a text on the way from the node to one below it. -/
def Node.Spells : Node C V → List C → Prop
  | .mk keyFragment _ _ children, q =>
    q <+: keyFragment ∨ ∃ r, q = keyFragment ++ r ∧ SpellsAmong children r

def SpellsAmong : List (Node C V) → List C → Prop
  | [], _ => False
  | c :: rest, q => c.Spells q ∨ SpellsAmong rest q

end

mutual

/-- Children have fragments that start with different characters. -/
def Node.WellFormed : Node C V → Prop
  | .mk _ _ _ children => WellFormedAmong children

def WellFormedAmong : List (Node C V) → Prop
  | [] => True
  | c :: rest => c.fragment ≠ [] ∧ c.WellFormed ∧
    (∀ d ∈ rest, d.fragment.head? ≠ c.fragment.head?) ∧ WellFormedAmong rest

end

end Spelling

end Micron.RadixTree
