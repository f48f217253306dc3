import ContextFree.Grammar.Basic

/-!
# The text of a grammar

Symbols are written by name. An added nonterminal is named after its kind and its
serial number behind a dollar sign, which no declared name begins with. A symbol
that the grammar does not declare is written as its identifier.
-/

namespace ContextFree

def FreshKind.letter : FreshKind → String
  | terminalProxy => "T"
  | chain => "X"
  | start => "S"

def Origin.text : Origin → String
  | declared name => name
  | fresh kind serial => "$" ++ kind.letter ++ toString serial

def Nonterminal.text (n : Nonterminal) : String := n.origin.text

/-- The names of all declared symbols. -/
structure Names where
  terminals : Std.TreeMap TerminalId String
  nonterminals : Std.TreeMap NonterminalId String

namespace Names

def terminal? (names : Names) (t : TerminalId) : Option String := names.terminals[t]?

def nonterminal (names : Names) (n : NonterminalId) : String := names.nonterminals.getD n n.text

def symbol (names : Names) : Symbol → String
  | .terminal t => names.terminals.getD t t.text
  | .nonterminal n => names.nonterminal n

def body (names : Names) : Body → String
  | [] => "ε"
  | symbols => String.intercalate " " (symbols.map names.symbol)

def production (names : Names) (p : Production) : String :=
  names.nonterminal p.head ++ " -> " ++ names.body p.body

end Names

namespace Grammar

def names (g : Grammar) : Names where
  terminals := g.terminals.foldr (fun t table => table.insert t.id t.name) ∅
  nonterminals := g.nonterminals.foldr (fun n table => table.insert n.id n.text) ∅

def startText (g : Grammar) : String := g.names.nonterminal g.start

/-- The tables of a grammar, one production a line. -/
def text (g : Grammar) : String :=
  let names := g.names
  let lines := g.productions.map fun p => "- " ++ names.production p ++ "\n"
  "#### terminals: " ++ String.intercalate ", " (g.terminals.map Terminal.name) ++
    "\n#### nonterminals: " ++ String.intercalate ", " (g.nonterminals.map Nonterminal.text) ++
    "\n#### start: " ++ names.nonterminal g.start ++
    "\n#### productions:\n" ++ String.join lines

end Grammar

end ContextFree
