import ContextFree.Grammar.Text

/-!
# Validity of grammars

A grammar is valid when its start symbol, the heads of its productions and all
symbols in their bodies are declared, and no name belongs to both kinds of symbols.
The first fault in a fixed order is reported.
-/

namespace ContextFree

/-- A property that a grammar fails to have. -/
inductive Violation where
  | undeclaredStart (start : NonterminalId)
  | undeclaredHead (head : NonterminalId)
  | undeclaredSymbol (head : String) (symbol : Symbol)
  | sharedName (name : String)
  | unproductiveStart (start : String)
  | notInNormalForm (production : String)
  | epsilonProduction (production : String)
  | unitProduction (production : String)
  deriving DecidableEq, Repr

def Violation.message : Violation → String
  | undeclaredStart n => "the start symbol " ++ n.text ++ " is not a declared nonterminal"
  | undeclaredHead n => "the production head " ++ n.text ++ " is not a declared nonterminal"
  | undeclaredSymbol head s =>
      "a production of `" ++ head ++ "' refers to the undeclared symbol " ++ s.idText
  | sharedName name => "`" ++ name ++ "' is declared both as a terminal and as a nonterminal"
  | unproductiveStart start => "the start symbol `" ++ start ++ "' derives no terminal string"
  | notInNormalForm p => "the production `" ++ p ++ "' is not in Chomsky normal form"
  | epsilonProduction p => "the production `" ++ p ++ "' still derives the empty string"
  | unitProduction p => "the production `" ++ p ++ "' is still a unit production"

namespace Grammar

/-- The first declared nonterminal whose name is also the name of a terminal. -/
def sharedName? (g : Grammar) : Option String :=
  let taken : Std.TreeSet String := g.terminals.foldl (fun s t => s.insert t.name) ∅
  (g.nonterminals.filterMap Nonterminal.declaredName?).find? fun name => taken.contains name

/-- The first head or symbol in the productions that is not in the alphabet. -/
def undeclared? (g : Grammar) (alphabet : Alphabet) : Option Violation :=
  g.families.findSome? fun f =>
    if alphabet.nonterminals.contains f.head then
      f.bodies.findSome? fun b =>
        (b.find? fun s => !alphabet.contains s).map fun s =>
          .undeclaredSymbol (g.names.nonterminal f.head) s
    else some (.undeclaredHead f.head)

/-- The first fault of a grammar, if it has one. -/
def violation? (g : Grammar) : Option Violation :=
  let alphabet := g.alphabet
  if alphabet.nonterminals.contains g.start then
    match g.sharedName? with
    | some name => some (.sharedName name)
    | none => g.undeclared? alphabet
  else some (.undeclaredStart g.start)

def validate (g : Grammar) : Except Violation Unit :=
  match g.violation? with
  | some v => .error v
  | none => .ok ()

end Grammar

end ContextFree
