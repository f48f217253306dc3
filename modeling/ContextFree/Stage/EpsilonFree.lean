import ContextFree.Analysis.Saturation
import ContextFree.Stage.Basic

/-!
# Grammars without empty bodies

A body is replaced by all its variants with some droppable symbols left out, except
the empty variant. When the droppable symbols are those that derive the empty word,
every nonterminal keeps exactly its nonempty words.
-/

namespace ContextFree

/-- A valid grammar without empty bodies. -/
structure EpsilonFree where
  grammar : Grammar
  deriving DecidableEq, Repr

def EpsilonFree.ofGrammar (g : Grammar) : Except NormalizeError EpsilonFree :=
  atStage .epsilonElimination do
    g.validate
    g.forbid Production.isEpsilon .epsilonProduction
    return ⟨g⟩

def isDroppable (droppable : NonterminalSet) (s : Symbol) : Bool :=
  s.nonterminal?.any droppable.contains

/-- The variants of a body with some droppable symbols left out. The choice for the
first droppable symbol changes fastest, and leaving out comes before keeping. -/
def variants (droppable : NonterminalSet) (body : Body) : List Body :=
  body.foldr
    (fun s rest =>
      if isDroppable droppable s then rest.flatMap fun v => [v, s :: v]
      else rest.map (s :: ·))
    [[]]

@[simp]
theorem variants_nil (droppable : NonterminalSet) : variants droppable [] = [[]] := rfl

theorem variants_cons (droppable : NonterminalSet) (s : Symbol) (body : Body) :
    variants droppable (s :: body) =
      if isDroppable droppable s then (variants droppable body).flatMap fun v => [v, s :: v]
      else (variants droppable body).map (s :: ·) := rfl

/-- The nonempty variants of a body. -/
def expand (droppable : NonterminalSet) (body : Body) : List Body :=
  (variants droppable body).filter fun v => !v.isEmpty

/-- The nonempty variants of the bodies of a head, if there are any. -/
def Family.expand? (droppable : NonterminalSet) (f : Family) : Option Family :=
  match distinct (f.bodies.flatMap (expand droppable)) with
  | [] => none
  | bodies => some ⟨f.head, bodies⟩

namespace Grammar

def expandFamilies (g : Grammar) (droppable : NonterminalSet) : Grammar :=
  { g with families := g.families.filterMap (Family.expand? droppable) }

/-- Replace every body by its nonempty variants. -/
def eliminateEpsilon (g : Grammar) (droppable : NonterminalSet) :
    Except NormalizeError EpsilonFree :=
  EpsilonFree.ofGrammar (g.expandFamilies droppable)

end Grammar

end ContextFree
