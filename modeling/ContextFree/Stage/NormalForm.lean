import ContextFree.Stage.Reduced

/-!
# Chomsky normal form

In Chomsky normal form every body is a single terminal or a pair of nonterminals.
Only a start symbol that occurs in no body may have an empty body besides.

A reduced grammar is brought into this form in three steps. Terminals inside bodies
of two or more symbols are replaced by proxies, one for each terminal. Bodies of more
than two symbols are split into pairs by a chain of links. If the empty word is to be
kept, a new start symbol takes over the bodies of the old one and the empty body.

## Implementation notes

All added nonterminals are planned before they are made: first the proxies, then the
links in the order of the bodies, then the start symbol, with consecutive numbers.
The plan fails as a whole when the numbers do not suffice. `Reachable.convert` makes them
one by one, where they are needed, and has the same outcome.
-/

namespace ContextFree

/-- A grammar in Chomsky normal form. -/
structure NormalForm where
  grammar : Grammar
  /-- Whether the start symbol has the empty body. -/
  derivesEmpty : Bool
  deriving DecidableEq, Repr

namespace NormalForm

/-- Whether a production may stand in a grammar in normal form. -/
def admits (start : NonterminalId) (derivesEmpty : Bool) (p : Production) : Bool :=
  match p.body with
  | [.terminal _] => true
  | [.nonterminal b, .nonterminal c] => !derivesEmpty || (b != start && c != start)
  | [] => derivesEmpty && p.head = start
  | _ => false

def ofGrammar (g : Grammar) (derivesEmpty : Bool) : Except NormalizeError NormalForm :=
  atStage .normalization do
    g.validate
    g.forbid (fun p => !admits g.start derivesEmpty p) .notInNormalForm
    return ⟨g, derivesEmpty⟩

/-- The terminals that need a proxy, in the order of first occurrence. -/
def proxied (productions : List Production) : List TerminalId :=
  distinct ((productions.filter fun p => 2 ≤ p.body.length).flatMap fun p =>
    p.body.filterMap Symbol.terminal?)

/-- The proxies of terminals, numbered from `next`. -/
def proxies (terminals : List TerminalId) (next : Nat) : List (TerminalId × NonterminalId) :=
  terminals.zipIdx.map fun (t, i) => (t, ⟨next + i⟩)

/-- The proxies as a table. -/
def proxyTable (terminals : List TerminalId) (next : Nat) : Std.TreeMap TerminalId NonterminalId :=
  (proxies terminals next).foldr (fun p table => table.insert p.1 p.2) ∅

/-- Replace a terminal by its proxy, if it has one. -/
def isolateSymbol (table : Std.TreeMap TerminalId NonterminalId) : Symbol → Symbol
  | .terminal t =>
      match table[t]? with
      | some n => .nonterminal n
      | none => .terminal t
  | .nonterminal n => .nonterminal n

/-- Replace the terminals of a body of two or more symbols by their proxies. -/
def isolate (table : Std.TreeMap TerminalId NonterminalId) (body : Body) : Body :=
  if body.length < 2 then body else body.map (isolateSymbol table)

/-- The productions of the proxies. -/
def proxyRules (terminals : List TerminalId) (next : Nat) : List Production :=
  (proxies terminals next).map fun (t, n) => ⟨n, [.terminal t]⟩

/-- The productions with their terminals replaced by proxies. -/
def isolated (terminals : List TerminalId) (next : Nat) (productions : List Production) :
    List Production :=
  let table := proxyTable terminals next
  productions.map fun p => ⟨p.head, isolate table p.body⟩

/-- The number of links that split a body into pairs. -/
def linkCount (p : Production) : Nat := p.body.length - 2

/-- Split a body into pairs by links numbered from `next`. -/
def chain (head : NonterminalId) (next : Nat) : Body → List Production
  | a :: b :: c :: rest =>
      ⟨head, [a, .nonterminal ⟨next⟩]⟩ :: chain ⟨next⟩ (next + 1) (b :: c :: rest)
  | body => [⟨head, body⟩]

/-- Append the pairs of a body to a list of productions. -/
def chainOnto (done : Array Production) (head : NonterminalId) (next : Nat) :
    Body → Array Production
  | a :: b :: c :: rest =>
      chainOnto (done.push ⟨head, [a, .nonterminal ⟨next⟩]⟩) ⟨next⟩ (next + 1) (b :: c :: rest)
  | body => done.push ⟨head, body⟩

theorem toList_chainOnto (done : Array Production) (head : NonterminalId) (next : Nat)
    (body : Body) :
    (chainOnto done head next body).toList = done.toList ++ chain head next body := by
  fun_induction chainOnto done head next body with
  | case1 done head next a b c rest ih => simp [ih, chain]
  | case2 done head next body short =>
      rw [chain.eq_2 head next body short]
      simp

/-- Split all bodies into pairs, the links being numbered in order from `next`. -/
def binarize (next : Nat) (productions : List Production) : List Production :=
  (productions.foldl
    (fun (next, done) p => (next + linkCount p, chainOnto done p.head next p.body))
    (next, #[])).2.toList

/-- The nonterminals that the normal form adds, by kind and in order. -/
def freshKinds (productions : List Production) (derivesEmpty : Bool) : List FreshKind :=
  let links := productions.foldl (fun n p => n + linkCount p) 0
  List.replicate (proxied productions).length .terminalProxy ++
    List.replicate links .chain ++ if derivesEmpty then [.start] else []

/-- New nonterminals with consecutive numbers and serial numbers. -/
def freshNonterminals (next : Nat) (kinds : List FreshKind) : List Nonterminal :=
  kinds.zipIdx.map fun (kind, i) => ⟨⟨next + i⟩, .fresh kind (i + 1)⟩

/-- The productions of the normal form before a start symbol is added. -/
def pairs (next : Nat) (productions : List Production) : List Production :=
  let terminals := proxied productions
  proxyRules terminals next ++
    binarize (next + terminals.length) (isolated terminals next productions)

end NormalForm

namespace Grammar

open NormalForm

/-- Give a grammar a new start symbol that also has the empty body. -/
def withEmptyStart (g : Grammar) (start : NonterminalId) : Grammar :=
  { g with
    families := group (g.productions ++
      (g.bodiesOf g.start ++ [[]]).map fun body => ⟨start, body⟩)
    start := start }

/-- Replace the productions by pairs and add new nonterminals of the given kinds. -/
def withPairs (g : Grammar) (kinds : List FreshKind) : Grammar :=
  { g with
    nonterminals := g.nonterminals ++ freshNonterminals g.nextNonterminal kinds
    families := group (pairs g.nextNonterminal g.productions)
    nextNonterminal := g.nextNonterminal + kinds.length }

/-- The grammar in normal form, regardless of how many numbers it needs. The start
symbol that is added has the last number. -/
def paired (g : Grammar) (derivesEmpty : Bool) : Grammar :=
  let paired := g.withPairs (freshKinds g.productions derivesEmpty)
  if derivesEmpty then paired.withEmptyStart ⟨paired.nextNonterminal - 1⟩ else paired

end Grammar

/-- Bring a reduced grammar into Chomsky normal form. -/
def Reachable.normalForm (r : Reachable) (derivesEmpty : Bool) :
    Except NormalizeError NormalForm :=
  let g := r.grammar
  let needed := (NormalForm.freshKinds g.productions derivesEmpty).length
  if g.nextNonterminal + needed ≤ idLimit then
    NormalForm.ofGrammar (g.paired derivesEmpty) derivesEmpty
  else .error (.freshSymbolsExhausted .normalization)

end ContextFree
