import ContextFree.Collation

/-!
# Closure of sets along a graph

Every node of a finite graph carries a set. The closure gives each node the union
of the sets of all nodes it reaches. One depth-first walk is enough: a node absorbs
the set of each successor as soon as the successor has been visited, and all nodes
of a strongly connected component take the set of the component's first node.

## Implementation notes

Nodes are the positions of an array. While a node is on the stack its mark is the
least depth it is known to reach; a node whose mark is still its own depth after
its successors have been absorbed is the first node of its component. The depth of
the recursion is bounded by the number of nodes, because a node is entered only
when it is unvisited.
-/

namespace ContextFree.Graph

/-- The state of a node during the walk. -/
inductive Mark where
  | unvisited
  | active (depth : Nat)
  | settled
  deriving DecidableEq, Repr

/-- The lesser depth of two active nodes. A settled node lowers nothing. -/
def Mark.lower : Mark → Mark → Mark
  | active d, active e => active (min d e)
  | m, _ => m

structure Walk (σ : Type) where
  marks : Array Mark
  values : Array σ
  /-- The active nodes, latest first. -/
  stack : List Nat

namespace Walk

variable {σ : Type}

def start (values : Array σ) : Walk σ :=
  ⟨Array.replicate values.size .unvisited, values, []⟩

def mark (w : Walk σ) (x : Nat) : Mark := w.marks.getD x .settled

def enter (w : Walk σ) (x : Nat) : Walk σ :=
  { w with
    marks := w.marks.setIfInBounds x (.active (w.stack.length + 1))
    stack := x :: w.stack }

/-- Let a node take over what its successor reaches. -/
def absorb [Union σ] (w : Walk σ) (x y : Nat) : Walk σ :=
  { w with
    marks := w.marks.setIfInBounds x ((w.mark x).lower (w.mark y))
    values :=
      if x = y then w.values
      else
        match w.values[y]? with
        | some v => w.values.modify x (· ∪ v)
        | none => w.values }

/-- Settle the component of `x`: everything above `x` on the stack takes its set. -/
def settle (w : Walk σ) (x : Nat) : Walk σ :=
  let members := w.stack.takeWhile (· != x)
  { marks := (x :: members).foldl (fun ms s => ms.setIfInBounds s .settled) w.marks
    values :=
      match w.values[x]? with
      | some v => members.foldl (fun vs s => vs.setIfInBounds s v) w.values
      | none => w.values
    stack := (w.stack.dropWhile (· != x)).tail }

end Walk

variable {σ : Type} [Union σ]

/-- Visit an unvisited node. The first argument bounds the depth of the recursion. -/
def visit (successors : Nat → List Nat) : Nat → Walk σ → Nat → Walk σ
  | 0, w, _ => w
  | fuel + 1, w, x =>
      let depth := w.stack.length + 1
      let w := (successors x).foldl
        (fun w y =>
          let w := if w.mark y = .unvisited then visit successors fuel w y else w
          w.absorb x y)
        (w.enter x)
      if w.mark x = .active depth then w.settle x else w

/-- The sets of all nodes closed along the graph, nodes being positions. -/
def closeArray (successors : Nat → List Nat) (values : Array σ) : Array σ :=
  ((List.range values.size).foldl
    (fun w x => if w.mark x = .unvisited then visit successors values.size w x else w)
    (Walk.start values)).values

variable {κ : Type} [Ord κ]

/-- The position of every key in a list of distinct keys. -/
def positions (keys : Array κ) : Std.TreeMap κ Nat :=
  keys.toList.zipIdx.foldr (fun (k, i) table => table.insert k i) ∅

/-- The positions of the successors of the key at a position. Successors that are not
keys do not count. -/
def nextPositions (keys : Array κ) (position : Std.TreeMap κ Nat) (successors : κ → List κ)
    (x : Nat) : List Nat :=
  match keys[x]? with
  | some k => (successors k).filterMap fun m => position[m]?
  | none => []

/-- The sets of all keys closed along the graph. The keys keep their order. -/
def closure (table : List (κ × σ)) (successors : κ → List κ) : List (κ × σ) :=
  let keys := (table.map Prod.fst).toArray
  let position := positions keys
  keys.toList.zip
    (closeArray (nextPositions keys position successors) (table.map Prod.snd).toArray).toList

/-- The successors of a key in a list of edges. -/
def targets [DecidableEq κ] (edges : List (κ × κ)) (k : κ) : List κ :=
  (edges.filter fun e => e.1 = k).map Prod.snd

end ContextFree.Graph
