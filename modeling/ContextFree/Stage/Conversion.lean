import ContextFree.Stage.NormalForm

/-!
# Conversion symbol by symbol

This is the conversion into Chomsky normal form as a loop over the bodies of a grammar. It adds
each nonterminal where it is first needed: a proxy where a terminal is met in a longer body, a
link for each symbol that is split off a body, and a start symbol at the end. It stops at the
first nonterminal for which there is no number left.

## Implementation notes

`Reachable.normalForm` plans the same nonterminals beforehand, so that its tables do not grow by
one entry at a time.
-/

namespace ContextFree

/-- The greatest serial number. -/
def serialLimit : Nat := 4294967295

/-- A supply of serial numbers. The next one is one more than the last. -/
structure FreshSupply where
  serial : Nat
  deriving DecidableEq, Repr

def FreshSupply.new : FreshSupply := ⟨0⟩

/-- Add a nonterminal of a kind under the next serial number. -/
def FreshSupply.mint (s : FreshSupply) (g : Grammar) (kind : FreshKind) :
    Except NormalizeError (NonterminalId × Grammar × FreshSupply) :=
  if s.serial < serialLimit then
    match g.mint? kind (s.serial + 1) with
    | some (id, g) => .ok (id, g, ⟨s.serial + 1⟩)
    | none => .error (.freshSymbolsExhausted .normalization)
  else .error (.freshSymbolsExhausted .normalization)

/-- A grammar that is being converted. -/
structure Conversion where
  grammar : Grammar
  supply : FreshSupply
  /-- The terminals that have a proxy, in the order in which they were met. -/
  proxies : List (TerminalId × NonterminalId)

/-- A step of a conversion, which may run out of numbers. -/
abbrev Converting := StateT Conversion (Except NormalizeError)

namespace Conversion

/-- The conversion of a grammar before its first step. The productions are taken out. -/
def new (g : Grammar) : Conversion := ⟨{ g with families := [] }, .new, []⟩

def mint (kind : FreshKind) : Converting NonterminalId := do
  let c ← get
  let (n, g, supply) ← c.supply.mint c.grammar kind
  set { c with grammar := g, supply := supply }
  return n

def insert (p : Production) : Converting Unit :=
  modify fun c =>
    { c with grammar := { c.grammar with families := insertProduction c.grammar.families p } }

def addProxy (t : TerminalId) : Converting NonterminalId := do
  let proxy ← mint .terminalProxy
  insert ⟨proxy, [.terminal t]⟩
  modify fun c => { c with proxies := c.proxies ++ [(t, proxy)] }
  return proxy

/-- The proxy of a terminal, which is added if there is none yet. -/
def proxyOf (t : TerminalId) : Converting NonterminalId := do
  match (← get).proxies.lookup t with
  | some proxy => return proxy
  | none => addProxy t

def isolateSymbol : Symbol → Converting Symbol
  | .terminal t => return .nonterminal (← proxyOf t)
  | .nonterminal n => return .nonterminal n

/-- Replace the terminals of a body of two or more symbols by proxies. -/
def isolate (p : Production) : Converting Production :=
  if p.body.length < 2 then return p
  else return ⟨p.head, ← p.body.mapM isolateSymbol⟩

/-- Put a symbol and a new link into a pair, which leaves the link to be continued. -/
def splitOff (head : NonterminalId) (s : Symbol) : Converting NonterminalId := do
  let link ← mint .chain
  insert ⟨head, [s, .nonterminal link]⟩
  return link

/-- Add a production, split into pairs if its body has more than two symbols. -/
def binarize (p : Production) : Converting Unit :=
  if p.body.length ≤ 2 then insert p
  else do
    let link ← (p.body.take (p.body.length - 2)).foldlM splitOff p.head
    insert ⟨link, p.body.drop (p.body.length - 2)⟩

/-- Replace the start symbol by a new one that also has the empty body. -/
def addEmptyStart : Converting Unit := do
  let old := (← get).grammar.start
  let start ← mint .start
  let bodies := (← get).grammar.bodiesOf old
  bodies.forM fun body => insert ⟨start, body⟩
  insert ⟨start, []⟩
  modify fun c => { c with grammar := { c.grammar with start := start } }

/-- Convert the productions that were taken out of a grammar. -/
def convert (productions : List Production) (derivesEmpty : Bool) : Converting Unit := do
  let isolated ← productions.mapM isolate
  isolated.forM binarize
  if derivesEmpty then addEmptyStart

end Conversion

/-- Bring a reduced grammar into Chomsky normal form, symbol by symbol. -/
def Reachable.convert (r : Reachable) (derivesEmpty : Bool) : Except NormalizeError NormalForm := do
  let (_, c) ← (Conversion.convert r.grammar.productions derivesEmpty).run (.new r.grammar)
  NormalForm.ofGrammar c.grammar derivesEmpty

end ContextFree
