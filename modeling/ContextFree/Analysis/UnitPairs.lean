import ContextFree.Grammar.Basic
import ContextFree.Graph.Closure

/-!
# Unit pairs

The unit pairs of a grammar relate a nonterminal to those it reaches by one or more
unit productions. They are the closure of the direct targets along the graph of
unit productions.
-/

namespace ContextFree

/-- The nonterminals that stand alone in one of the bodies. -/
def unitTargets (bodies : List Body) : IdSet .nonterminal :=
  .ofList (bodies.filterMap unitTarget?)

/-- The nonterminals with a unit production, each with all it reaches by such. -/
def Grammar.unitPairs (g : Grammar) : List (NonterminalId × IdSet .nonterminal) :=
  let bodies := g.bodyTable
  let direct (n : NonterminalId) : IdSet .nonterminal := unitTargets (bodies.getD n [])
  let table := g.nonterminals.map fun n => (n.id, direct n.id)
  (Graph.closure table fun n => (direct n).toList).filter fun (_, reached) => !reached.isEmpty

end ContextFree
