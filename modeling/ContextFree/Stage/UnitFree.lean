import ContextFree.Analysis.UnitPairs
import ContextFree.Stage.EpsilonFree

/-!
# Grammars without unit productions

A unit production is replaced by the other bodies of everything it leads to. The
bodies a head has by itself come first, for all heads; inherited bodies follow.
-/

namespace ContextFree

/-- A valid grammar without empty bodies and unit productions. -/
structure UnitFree where
  grammar : Grammar
  deriving DecidableEq, Repr

def UnitFree.ofGrammar (g : Grammar) : Except NormalizeError UnitFree :=
  atStage .unitElimination do
    g.validate
    g.forbid Production.isEpsilon .epsilonProduction
    g.forbid Production.isUnit .unitProduction
    return ⟨g⟩

namespace Grammar

/-- The productions that heads take over along their unit pairs. -/
def inherited (g : Grammar) : List Production :=
  let bodies := g.bodyTable
  g.unitPairs.flatMap fun (a, reached) =>
    reached.toList.flatMap fun b => (bodies.getD b []).map fun body => ⟨a, body⟩

/-- Replace unit productions by what they lead to. -/
def inlineUnits (g : Grammar) : Grammar :=
  { g with families := group ((g.productions ++ g.inherited).filter fun p => !p.isUnit) }

end Grammar

/-- Remove the unit productions. -/
def EpsilonFree.eliminateUnits (e : EpsilonFree) : Except NormalizeError UnitFree :=
  UnitFree.ofGrammar e.grammar.inlineUnits

end ContextFree
