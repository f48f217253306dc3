import ContextFree.Definition.Basic

/-!
# Grammars given by named rules

A grammar can be given by declarations and rules over names. Without any declared
symbol the alphabets are inferred: heads of rules are nonterminals and all other
symbols are terminals, each in the order of first occurrence.
-/

namespace ContextFree

/-- The names declared for a grammar, and the name of its start symbol. -/
structure Declarations where
  nonterminals : List String := []
  terminals : List String := []
  start : Option String := none
  deriving DecidableEq, Repr

namespace Declarations

def hasNoSymbols (d : Declarations) : Bool := d.nonterminals.isEmpty && d.terminals.isEmpty

/-- The alphabets that the rules themselves suggest. -/
def infer (rules : List Source.Rule) : Declarations :=
  let heads := distinct (rules.map Source.Rule.head)
  let known : Std.TreeSet String := heads.foldl (fun s h => s.insert h) ∅
  let used := rules.flatMap fun r => r.bodies.flatten
  { nonterminals := heads
    terminals := distinct (used.filter fun name => !known.contains name) }

end Declarations

namespace Definition

def declareAll (d : Definition) (kind : Kind) (names : List String) :
    Except DefinitionError Definition :=
  names.foldlM (fun d name => d.declare kind name) d

def lookup (d : Definition) (name : String) : Except DefinitionError Symbol :=
  match d.names[name]? with
  | some s => .ok s
  | none => .error (.undeclaredSymbol name)

/-- A name used where only a nonterminal can stand. -/
def lookupNonterminal (d : Definition) (name : String) :
    Except DefinitionError NonterminalId := do
  match ← d.lookup name with
  | .nonterminal n => .ok n
  | .terminal _ => .error (.terminalHead name)

def setNamedStart (d : Definition) : Option String → Except DefinitionError Definition
  | none => .ok d
  | some name => do
      let start ← d.lookupNonterminal name
      .ok (d.setStart start)

/-- Add the rules of one head, body after body. -/
def addNamedRule (d : Definition) (r : Source.Rule) : Except DefinitionError Definition := do
  let head ← d.lookupNonterminal r.head
  r.bodies.foldlM
    (fun d body => do
      let symbols ← body.mapM d.lookup
      .ok (d.addRule head symbols))
    d

/-- Choose the start symbol, add the rules and finish. -/
def finishNamed (d : Definition) (start : Option String) (rules : List Source.Rule) :
    Except DefinitionError Grammar := do
  let d ← d.setNamedStart start
  let d ← rules.foldlM (fun d r => d.addNamedRule r) d
  d.finish

/-- Declare a symbol under this name unless the name has one already. -/
def declareUnseen (d : Definition) (kind : Kind) (name : String) :
    Except DefinitionError Definition :=
  if d.names.contains name then .ok d else d.declare kind name

/-- Declare the names that rules use where they first occur: all heads as nonterminals, and
then the names in bodies as terminals. -/
def declareUsed (d : Definition) (rules : List Source.Rule) :
    Except DefinitionError Definition := do
  let d ← rules.foldlM (fun d r => d.declareUnseen .nonterminal r.head) d
  (rules.flatMap fun r => r.bodies.flatten).foldlM (fun d name => d.declareUnseen .terminal name) d

end Definition

/-- The grammar of the rules over exactly the declared symbols. -/
def Declarations.define (decls : Declarations) (rules : List Source.Rule) :
    Except DefinitionError Grammar := do
  let d ← Definition.declareAll ∅ .nonterminal decls.nonterminals
  let d ← d.declareAll .terminal decls.terminals
  d.finishNamed decls.start rules

namespace Grammar

/-- The grammar of rules over declared symbols, or over inferred ones if no symbol
is declared. -/
def ofRules (rules : List Source.Rule) (decls : Declarations) :
    Except DefinitionError Grammar :=
  if decls.hasNoSymbols then do
    let d ← Definition.declareUsed ∅ rules
    d.finishNamed decls.start rules
  else decls.define rules

/-- The grammar of a source text. -/
def ofSource (source : String) (decls : Declarations) : Except DefinitionError Grammar :=
  match Source.parse source with
  | .error e => .error (.unreadable e)
  | .ok rules => ofRules rules decls

end Grammar

end ContextFree
