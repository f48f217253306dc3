import ContextFree.Definition.Basic

/-!
# Scripts of definition steps

A script is a list of steps that build up a definition. Run strictly, a script ends
at its first refused step. Run leniently, it records the refusal and goes on.
-/

namespace ContextFree.Definition

inductive Step where
  | declare (kind : Kind) (name : String)
  | rule (head : NonterminalId) (body : Body)
  | start (n : NonterminalId)
  /-- Declare `count` symbols named by a stem and consecutive numbers. -/
  | declareRange (kind : Kind) (stem : String) (first count : Nat)
  /-- Give `count` consecutive heads the same body. -/
  | ruleForEach (first count : Nat) (body : Body)

/-- What a step answers: the last symbol it declared, or why it was refused. -/
abbrev Answer := Except DefinitionError (Option Symbol)

/-- Declare numbered symbols up to the first that is refused. -/
def addRange (kind : Kind) (stem : String) :
    Nat → Nat → Option Symbol → Definition → Answer × Definition
  | _, 0, last, d => (.ok last, d)
  | n, count + 1, _, d =>
      match d.register kind (stem ++ toString n) with
      | (.ok s, d) => addRange kind stem (n + 1) count (some s) d
      | (.error e, d) => (.error e, d)

def addRuleForEach (body : Body) : Nat → Nat → Definition → Definition
  | _, 0, d => d
  | n, count + 1, d => addRuleForEach body (n + 1) count (d.addRule ⟨n⟩ body)

def apply (d : Definition) : Step → Answer × Definition
  | .declare kind name =>
      let (answer, d) := d.register kind name
      (answer.map some, d)
  | .rule head body => (.ok none, d.addRule head body)
  | .start n => (.ok none, d.setStart n)
  | .declareRange kind stem first count => addRange kind stem first count none d
  | .ruleForEach first count body => (.ok none, addRuleForEach body first count d)

/-- The answers of the steps and the grammar they define. -/
structure Outcome where
  answers : List Answer
  grammar : Except DefinitionError Grammar

def runOnto (lenient : Bool) (answers : Array Answer) (d : Definition) : List Step → Outcome
  | [] => ⟨answers.toList, d.finish⟩
  | s :: rest =>
      match d.apply s with
      | (.ok last, d) => runOnto lenient (answers.push (.ok last)) d rest
      | (.error e, d) =>
          if lenient then runOnto lenient (answers.push (.error e)) d rest
          else ⟨answers.toList, .error e⟩

/-- Run a script from the empty definition. -/
def run (lenient : Bool) (steps : List Step) : Outcome := runOnto lenient #[] ∅ steps

end ContextFree.Definition
