import ContextFree.Pruning
import ContextFree.Stage.UnitFree

/-!
# Grammars without useless symbols

After the unit productions are gone, nonterminals that derive no word are removed,
and then those that are not reachable. Removing symbols brings no empty bodies and
no unit productions back.
-/

namespace ContextFree

/-- A grammar whose nonterminals all derive a word. -/
structure Productive where
  grammar : Grammar
  deriving DecidableEq, Repr

/-- A grammar whose nonterminals all derive a word and are all reachable. -/
structure Reachable where
  grammar : Grammar
  deriving DecidableEq, Repr

def Productive.ofGrammar (g : Grammar) : Except NormalizeError Productive :=
  atStage .productiveFilter do
    g.validate
    return ⟨g⟩

def Reachable.ofGrammar (g : Grammar) : Except NormalizeError Reachable :=
  atStage .reachabilityFilter do
    g.validate
    return ⟨g⟩

/-- Remove the nonterminals that derive no word. -/
def UnitFree.filterProductive (u : UnitFree) : Except NormalizeError Productive := do
  let g ← atStage .productiveFilter u.grammar.retainProductive
  Productive.ofGrammar g

/-- Remove the nonterminals that are not reachable. -/
def Productive.filterReachable (p : Productive) : Except NormalizeError Reachable := do
  let g ← atStage .reachabilityFilter p.grammar.retainReachable
  Reachable.ofGrammar g

end ContextFree
