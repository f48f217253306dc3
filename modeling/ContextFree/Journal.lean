import ContextFree.Normalization
import ContextFree.Specification

/-!
# The journal of a normalization

A journal records what happens while a grammar is loaded and normalized: the tasks
that are begun, and remarks of two levels made within them. It is computed from the
results of the stages.
-/

namespace ContextFree

inductive Level where
  | trace
  | debug
  deriving DecidableEq, Repr

inductive Entry where
  /-- A task is begun. -/
  | task (name : String)
  | remark (level : Level) (text : String)
  deriving DecidableEq, Repr

namespace Journal

def countOf (n : Nat) (noun : String) : String := toString n ++ " " ++ noun

/-- One remark for each pass of a saturation. -/
def ofPasses (what : String) (passes : List NonterminalSet) : List Entry :=
  passes.zipIdx.map fun (found, i) =>
    .remark .trace (what ++ " pass #" ++ toString (i + 1) ++ ": " ++
      countOf found.size "symbol(s)")

def ofReading (reading : Source.Reading) : List Entry :=
  .task "parse" :: reading.rules.map fun r => .remark .trace ("rule: " ++ r.details)

def ofNullables (g : Grammar) : List Entry :=
  let startText := if g.nullables.contains g.start then "true" else "false"
  .task "nullables" :: ofPasses "nullable" g.nullablePasses ++
    [.remark .debug (countOf g.nullables.size "nullable symbol(s), start symbol derives ε: " ++
      startText)]

def ofEpsilonElimination (g : Grammar) : List Entry :=
  [ .task "eliminate",
    .remark .debug (countOf g.productionCount "production(s) -> " ++
      countOf (g.expandFamilies g.nullables).productionCount "production(s) without ε") ]

def ofUnitElimination (e : EpsilonFree) : List Entry :=
  let count := e.grammar.unitPairs.foldl (fun n (_, reached) => n + reached.size) 0
  [.task "eliminate", .remark .debug (countOf count "unit pair(s)")]

/-- How many nonterminals of a grammar belong to a set. -/
def share (kept : NonterminalSet) (g : Grammar) (property : String) : Entry :=
  .remark .debug (toString kept.size ++ " of " ++
    countOf g.nonterminals.length "nonterminal(s) are " ++ property)

def ofProductiveFilter (u : UnitFree) : List Entry :=
  let g := u.grammar
  let productive := g.productiveSet
  .task "filter" :: ofPasses "productive" g.productivePasses ++
    if productive.contains g.start then [share productive g "productive"] else []

def ofReachabilityFilter (p : Productive) : List Entry :=
  [.task "filter", share p.grammar.reachableSet p.grammar "reachable"]

/-- The nonterminals that are added, as far as their numbers suffice. The remark on
the proxies follows the last of them. -/
def ofNormalForm (r : Reachable) (derivesEmpty : Bool) : List Entry :=
  let g := r.grammar
  let proxies := (NormalForm.proxied g.productions).length
  let kinds := NormalForm.freshKinds g.productions derivesEmpty
  let room := idLimit - g.nextNonterminal
  let minted := ((NormalForm.freshNonterminals g.nextNonterminal kinds).take room).map fun n =>
    Entry.remark .trace ("minted " ++ n.text)
  .task "normalize" :: minted.take proxies ++
    (if proxies ≤ room then [.remark .debug (countOf proxies "terminal(s) isolated")] else []) ++
    minted.drop proxies

/-- The entries of a stage that is attempted only if the stage before succeeded. -/
def after {α : Type} (previous : Except NormalizeError α) (entries : α → List Entry) :
    List Entry :=
  match previous with
  | .ok a => entries a
  | .error _ => []

def ofNormalization (g : Grammar) (policy : EmptyWord) : List Entry :=
  let n := g.normalization policy
  .task "normalize_with" ::
    (after n.input ofNullables ++
      after n.input ofEpsilonElimination ++
      after n.epsilonFree ofUnitElimination ++
      after n.unitFree ofProductiveFilter ++
      after n.productive ofReachabilityFilter ++
      after n.reachable fun r => ofNormalForm r (g.keepsEmptyWord policy))

/-- Reading a source text is recorded even if it fails. -/
def ofLoading : Specification → List Entry
  | .source text _ => ofReading (Source.read text)
  | _ => []

end Journal

/-- Why a grammar could not be loaded and normalized. -/
inductive RunError where
  | definition (e : DefinitionError)
  | normalize (e : NormalizeError)
  deriving DecidableEq, Repr

/-- The journal of loading and normalizing a grammar, and how it ended. -/
def Specification.journal (spec : Specification) (policy : EmptyWord) :
    List Entry × Except RunError NormalForm :=
  let loading := Journal.ofLoading spec
  match spec.load with
  | .error e => (loading, .error (.definition e))
  | .ok g =>
      let outcome : Except RunError NormalForm :=
        match g.normalize policy with
        | .ok c => .ok c
        | .error e => .error (.normalize e)
      (loading ++ Journal.ofNormalization g policy, outcome)

end ContextFree
