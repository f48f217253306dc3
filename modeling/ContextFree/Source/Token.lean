import ContextFree.Source.Quoted

/-!
# Tokens of the textual form of grammars

A source text is a sequence of arrows, bars, semicolons and epsilons; every other
character that is not blank is a symbol of its own. Each token keeps the range of
bytes it takes up in the UTF-8 form of the text.

## Implementation notes

`scan` states the tokens of a text by recursion on its characters. `lex` computes
them with an accumulator, so that its use of the stack does not grow with the text.
-/

namespace ContextFree.Source

inductive Token where
  | arrow
  | bar
  | semicolon
  | epsilon
  | symbol (c : Char)
  deriving DecidableEq, Repr

/-- A token and the half-open range of bytes that spells it. -/
structure Lexeme where
  token : Token
  start : Nat
  stop : Nat
  deriving DecidableEq, Repr

def isBlank (c : Char) : Bool :=
  c = ' ' || c = '\t' || c = '\r' || c = '\n' || c = '\x0c'

/-- The two characters that stand for the empty body. -/
def isEpsilon (c : Char) : Bool := c = 'ε' || c = 'ϵ'

/-- The token that a single character spells. A blank spells none. -/
def Token.ofChar? (c : Char) : Option Token :=
  if isBlank c then none
  else if c = '|' then some .bar
  else if c = ';' then some .semicolon
  else if isEpsilon c then some .epsilon
  else some (.symbol c)

def Token.text : Token → String
  | arrow => "Arrow"
  | bar => "VertBar"
  | semicolon => "Semicolon"
  | epsilon => "Epsilon"
  | symbol c => "Symbol(" ++ quoted (String.singleton c) ++ ")"

/-- The tokens of a text that begins at the given byte. -/
def scan (start : Nat) : List Char → List Lexeme
  | '-' :: '>' :: rest => ⟨.arrow, start, start + 2⟩ :: scan (start + 2) rest
  | c :: rest =>
      match Token.ofChar? c with
      | some t => ⟨t, start, start + c.utf8Size⟩ :: scan (start + c.utf8Size) rest
      | none => scan (start + c.utf8Size) rest
  | [] => []

/-- Append the tokens of a text that begins at the given byte. -/
def scanOnto (done : Array Lexeme) (start : Nat) : List Char → Array Lexeme
  | '-' :: '>' :: rest => scanOnto (done.push ⟨.arrow, start, start + 2⟩) (start + 2) rest
  | c :: rest =>
      match Token.ofChar? c with
      | some t =>
          scanOnto (done.push ⟨t, start, start + c.utf8Size⟩) (start + c.utf8Size) rest
      | none => scanOnto done (start + c.utf8Size) rest
  | [] => done

theorem toList_scanOnto (done : Array Lexeme) (start : Nat) (cs : List Char) :
    (scanOnto done start cs).toList = done.toList ++ scan start cs := by
  fun_induction scanOnto done start cs with
  | case1 done start rest ih => simp [ih, scan]
  | case2 done start c rest h t ht ih => simp [ih, scan, ht]
  | case3 done start c rest h ht ih => simp [ih, scan, ht]
  | case4 done start => simp [scan]

/-- The tokens of a source text. -/
def lex (source : String) : List Lexeme := (scanOnto #[] 0 source.toList).toList

theorem lex_eq_scan (source : String) : lex source = scan 0 source.toList := by
  simp [lex, toList_scanOnto]

end ContextFree.Source
