import ContextFree.Source.Token

/-!
# Rules read from tokens

A rule is a head symbol, an arrow and one or more bodies separated by bars. Rules
follow each other directly or after semicolons; a symbol that stands before an
arrow is the head of a rule and ends the body before it. A body has at least one
item, and epsilons in it add nothing.

## Implementation notes

The reader keeps the rules finished so far, and reports them together with the
fault that stopped it, because the rules before a fault are reported too.
-/

namespace ContextFree.Source

/-- A head with its bodies, by the names of the symbols. -/
structure Rule where
  head : String
  bodies : List (List String)
  deriving DecidableEq, Repr

inductive SyntaxError where
  | noRules
  | headExpected (position : Nat) (found : Token)
  | arrowExpected (position : Nat) (found : Option Token)
  | strayArrow (position : Nat)
  | bodyMissing (position : Nat)
  deriving DecidableEq, Repr

namespace SyntaxError

def located (position : Nat) : String := "syntax error at " ++ toString position ++ ": "

def message : SyntaxError → String
  | noRules => "syntax error: the input contains no rules"
  | headExpected p found => located p ++ "expecting a head symbol, found " ++ found.text
  | arrowExpected p none => located p ++ "expecting `->'"
  | arrowExpected p (some found) => located p ++ "expecting `->', found " ++ found.text
  | strayArrow p => located p ++ "unexpected `->'"
  | bodyMissing p => located p ++ "missing production body"

end SyntaxError

/-- A rule that is being read. -/
structure OpenRule where
  head : String
  bodies : Array (List String)
  /-- The symbols of the present body; `none` until its first item. -/
  body : Option (Array String)

namespace OpenRule

def ofHead (c : Char) : OpenRule := ⟨String.singleton c, #[], none⟩

def addSymbol (r : OpenRule) (c : Char) : OpenRule :=
  { r with body := some ((r.body.getD #[]).push (String.singleton c)) }

def addEpsilon (r : OpenRule) : OpenRule := { r with body := some (r.body.getD #[]) }

/-- Go on to the next body, if the present one has an item. -/
def nextBody? (r : OpenRule) : Option OpenRule :=
  r.body.map fun b => ⟨r.head, r.bodies.push b.toList, none⟩

/-- The finished rule, if the present body has an item. -/
def finish? (r : OpenRule) : Option Rule :=
  r.nextBody?.map fun r => ⟨r.head, r.bodies.toList⟩

end OpenRule

/-- The rules read, and the fault that stopped the reader if there was one. -/
structure Reading where
  rules : List Rule
  fault : Option SyntaxError
  deriving DecidableEq, Repr

/-- Finish the rule that is open, if any. `position` is where it ends. -/
def closeRule (position : Nat) (done : Array Rule) :
    Option OpenRule → Except SyntaxError (Array Rule)
  | none => .ok done
  | some r =>
      match r.finish? with
      | some rule => .ok (done.push rule)
      | none => .error (.bodyMissing position)

/-- Read on with the rules finished so far and the rule that is open. `size` is the
length of the source in bytes. -/
def readOnto (size : Nat) (done : Array Rule) (opened : Option OpenRule) :
    List Lexeme → Reading
  | [] =>
      match closeRule size done opened with
      | .ok rules => ⟨rules.toList, none⟩
      | .error e => ⟨done.toList, some e⟩
  | ⟨.symbol c, start, _⟩ :: ⟨.arrow, _, _⟩ :: rest =>
      match closeRule start done opened with
      | .ok rules => readOnto size rules (some (.ofHead c)) rest
      | .error e => ⟨done.toList, some e⟩
  | ⟨token, start, _⟩ :: rest =>
      match token, opened with
      | .semicolon, _ =>
          match closeRule start done opened with
          | .ok rules => readOnto size rules none rest
          | .error e => ⟨done.toList, some e⟩
      | .symbol c, some r => readOnto size done (some (r.addSymbol c)) rest
      | .epsilon, some r => readOnto size done (some r.addEpsilon) rest
      | .bar, some r =>
          match r.nextBody? with
          | some r => readOnto size done (some r) rest
          | none => ⟨done.toList, some (.bodyMissing start)⟩
      | .arrow, some _ => ⟨done.toList, some (.strayArrow start)⟩
      | .symbol _, none =>
          match rest with
          | [] => ⟨done.toList, some (.arrowExpected size none)⟩
          | found :: _ => ⟨done.toList, some (.arrowExpected found.start (some found.token))⟩
      | found, none => ⟨done.toList, some (.headExpected start found)⟩

/-- The rules of a sequence of tokens. A text without rules is a fault. -/
def readRules (size : Nat) (lexemes : List Lexeme) : Reading :=
  let reading := readOnto size #[] none lexemes
  if reading.rules.isEmpty && reading.fault.isNone then { reading with fault := some .noRules }
  else reading

def read (source : String) : Reading := readRules source.utf8ByteSize (lex source)

/-- The rules of a source text. -/
def parse (source : String) : Except SyntaxError (List Rule) :=
  let reading := read source
  match reading.fault with
  | some e => .error e
  | none => .ok reading.rules

/-- A rule spelled out field by field. -/
def Rule.details (r : Rule) : String :=
  let production (body : List String) : String :=
    "Production \x7b elems: " ++ bracketed (body.map quoted) ++ " \x7d"
  "RuleDesc \x7b left: " ++ quoted r.head ++ ", productions: " ++
    bracketed (r.bodies.map production) ++ " \x7d"

end ContextFree.Source
