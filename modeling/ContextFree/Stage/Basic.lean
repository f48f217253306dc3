import ContextFree.Grammar.Validity

/-!
# Stages of a normalization

A normalization takes a grammar through five steps. Each step names the stage it
produces, and a failure names the stage that could not be produced.
-/

namespace ContextFree

inductive Stage where
  | input
  | epsilonElimination
  | unitElimination
  | productiveFilter
  | reachabilityFilter
  | normalization
  deriving DecidableEq, Repr

def Stage.title : Stage → String
  | input => "input grammar"
  | epsilonElimination => "ε-production elimination"
  | unitElimination => "unit production elimination"
  | productiveFilter => "non-productive symbol removal"
  | reachabilityFilter => "inaccessible symbol removal"
  | normalization => "Chomsky normalization"

/-- Why a normalization failed. -/
inductive NormalizeError where
  | invariant (stage : Stage) (violation : Violation)
  | freshSymbolsExhausted (stage : Stage)
  deriving DecidableEq, Repr

namespace NormalizeError

def stage : NormalizeError → Stage
  | invariant stage _ => stage
  | freshSymbolsExhausted stage => stage

def message : NormalizeError → String
  | invariant stage violation => stage.title ++ ": " ++ violation.message
  | freshSymbolsExhausted stage => stage.title ++ ": ran out of fresh nonterminal symbols"

end NormalizeError

/-- Report a violation as a failure of a stage. -/
def atStage {α : Type} (stage : Stage) : Except Violation α → Except NormalizeError α
  | .ok a => .ok a
  | .error v => .error (.invariant stage v)

namespace Grammar

/-- The first production with a forbidden property, reported by its text. -/
def forbid (g : Grammar) (bad : Production → Bool) (report : String → Violation) :
    Except Violation Unit :=
  match g.productions.find? bad with
  | some p => .error (report (g.names.production p))
  | none => .ok ()

end Grammar

end ContextFree
