import ContextFree.Definition.Name
import ContextFree.Grammar.Validity
import ContextFree.Source.Rule

/-!
# Grammars under definition

A definition collects symbols, rules and a start symbol. Each kind of symbol is
numbered in the order of declaration, and both kinds share one space of names. Rules
and the start symbol may refer to symbols that are declared later: only the finished
grammar is checked.

## Implementation notes

A declaration works on the definition in place: it claims the name first and then numbers
the symbol. So a refused declaration also returns a definition, and that it is the old one
is a theorem about `register`.
-/

namespace ContextFree

/-- Why a grammar could not be defined. -/
inductive DefinitionError where
  | unreadable (cause : Source.SyntaxError)
  | invalidName (name : String)
  | duplicateSymbol (name : String)
  | undeclaredSymbol (name : String)
  | terminalHead (name : String)
  | noNonterminals
  | tooManySymbols
  | malformed (violation : Violation)
  deriving DecidableEq, Repr

def DefinitionError.message : DefinitionError → String
  | unreadable cause => "Syntax error: " ++ cause.message
  | invalidName name => "invalid symbol name: `" ++ name ++ "'"
  | duplicateSymbol name => "the symbol `" ++ name ++ "' has already been declared"
  | undeclaredSymbol name => "the symbol `" ++ name ++ "' is used but not declared"
  | terminalHead name => "the terminal `" ++ name ++ "' cannot head a production"
  | noNonterminals => "the grammar has no nonterminal symbols"
  | tooManySymbols => "too many symbols"
  | malformed violation => "malformed grammar: " ++ violation.message

/-- A grammar that is being defined. -/
structure Definition where
  terminals : Array Terminal
  nonterminals : Array Nonterminal
  rules : Array Production
  start : Option NonterminalId
  /-- The symbol declared under each name. -/
  names : Std.TreeMap String Symbol
  nextTerminal : Nat
  nextNonterminal : Nat

namespace Definition

def empty : Definition := ⟨#[], #[], #[], none, ∅, 0, 0⟩

instance : EmptyCollection Definition := ⟨empty⟩

/-- The number of the next symbol of a kind. -/
def next (d : Definition) : Kind → Nat
  | .terminal => d.nextTerminal
  | .nonterminal => d.nextNonterminal

/-- The symbol that the next declaration of a kind introduces. -/
def nextSymbol (d : Definition) (kind : Kind) : Symbol := kind.symbol (d.next kind)

/-- Claim a name for a symbol. A name that is claimed already stays with its symbol. -/
def claimName (d : Definition) (name : String) (s : Symbol) :
    Except DefinitionError Unit × Definition :=
  if isName name then
    let (claimed, names) := d.names.containsThenInsertIfNew name s
    (if claimed then .error (.duplicateSymbol name) else .ok (), { d with names := names })
  else (.error (.invalidName name), d)

/-- Count a symbol and enter it into the table of its kind. -/
def enter (d : Definition) (kind : Kind) (name : String) : Definition :=
  match kind with
  | .terminal =>
      { d with
        nextTerminal := d.nextTerminal + 1
        terminals := d.terminals.push ⟨⟨d.nextTerminal⟩, name⟩ }
  | .nonterminal =>
      { d with
        nextNonterminal := d.nextNonterminal + 1
        nonterminals := d.nonterminals.push ⟨⟨d.nextNonterminal⟩, .declared name⟩ }

/-- Declare a symbol if there is a number for it and it gets the name. -/
def register (d : Definition) (kind : Kind) (name : String) :
    Except DefinitionError Symbol × Definition :=
  if d.next kind < idLimit then
    let s := d.nextSymbol kind
    match d.claimName name s with
    | (.ok (), d) => (.ok s, d.enter kind name)
    | (.error e, d) => (.error e, d)
  else (.error .tooManySymbols, d)

/-- The definition after a declaration, unless that is refused. -/
def declare (d : Definition) (kind : Kind) (name : String) :
    Except DefinitionError Definition :=
  match d.register kind name with
  | (.ok _, d) => .ok d
  | (.error e, _) => .error e

def addRule (d : Definition) (head : NonterminalId) (body : Body) : Definition :=
  { d with rules := d.rules.push ⟨head, body⟩ }

def setStart (d : Definition) (start : NonterminalId) : Definition :=
  { d with start := some start }

/-- The start symbol given, or else the first nonterminal. -/
def chosenStart? (d : Definition) : Option NonterminalId :=
  match d.start with
  | some start => some start
  | none => d.nonterminals[0]?.map Nonterminal.id

/-- The grammar that a definition gives with a start symbol. -/
def toGrammar (d : Definition) (start : NonterminalId) : Grammar where
  terminals := d.terminals.toList
  nonterminals := d.nonterminals.toList
  families := group d.rules.toList
  start := start
  nextNonterminal := d.nextNonterminal

/-- The grammar defined, if it is valid. -/
def finish (d : Definition) : Except DefinitionError Grammar :=
  match d.chosenStart? with
  | none => .error .noNonterminals
  | some start =>
      let g := d.toGrammar start
      match g.violation? with
      | some v => .error (.malformed v)
      | none => .ok g

end Definition

end ContextFree
