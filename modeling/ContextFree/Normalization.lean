import ContextFree.Stage.NormalForm

/-!
# Normalization

A normalization runs all stages on a grammar. Each stage starts from the result of
the one before it, so after a failure there are no further results.
-/

namespace ContextFree

/-- What becomes of the empty word. -/
inductive EmptyWord where
  | drop
  | preserve
  deriving DecidableEq, Repr

/-- The result of every stage. A failed stage fails all later ones alike. -/
structure Normalization where
  input : Except NormalizeError Grammar
  epsilonFree : Except NormalizeError EpsilonFree
  unitFree : Except NormalizeError UnitFree
  productive : Except NormalizeError Productive
  reachable : Except NormalizeError Reachable
  normalForm : Except NormalizeError NormalForm

namespace Grammar

/-- Whether the normal form has to derive the empty word. -/
def keepsEmptyWord (g : Grammar) : EmptyWord → Bool
  | .drop => false
  | .preserve => g.nullables.contains g.start

/-- Run all stages. -/
def normalization (g : Grammar) (policy : EmptyWord) : Normalization :=
  let input := atStage .input (g.validate.map fun _ => g)
  let epsilonFree := input.bind fun g => g.eliminateEpsilon g.nullables
  let unitFree := epsilonFree.bind EpsilonFree.eliminateUnits
  let productive := unitFree.bind UnitFree.filterProductive
  let reachable := productive.bind Productive.filterReachable
  let normalForm := reachable.bind fun r => r.normalForm (g.keepsEmptyWord policy)
  ⟨input, epsilonFree, unitFree, productive, reachable, normalForm⟩

/-- The grammar in Chomsky normal form. -/
def normalize (g : Grammar) (policy : EmptyWord) : Except NormalizeError NormalForm :=
  (g.normalization policy).normalForm

end Grammar

namespace Normalization

/-- The grammars of the stages that succeeded, in order. -/
def stages (n : Normalization) : List (Stage × Grammar) :=
  [ (.input, n.input.toOption),
    (.epsilonElimination, n.epsilonFree.toOption.map EpsilonFree.grammar),
    (.unitElimination, n.unitFree.toOption.map UnitFree.grammar),
    (.productiveFilter, n.productive.toOption.map Productive.grammar),
    (.reachabilityFilter, n.reachable.toOption.map Reachable.grammar),
    (.normalization, n.normalForm.toOption.map NormalForm.grammar) ].filterMap
      fun (stage, g?) => g?.map fun g => (stage, g)

end Normalization

end ContextFree
