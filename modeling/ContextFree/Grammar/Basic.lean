import ContextFree.Collation
import ContextFree.IdSet

/-!
# Context-free grammars

A grammar has a list of terminals, a list of nonterminals, productions grouped by
their heads, and a start symbol. It also knows the least number that no nonterminal
has ever had, so that new nonterminals never reuse the number of a removed one.

## Implementation notes

Productions are kept as families: a head with its distinct bodies. Heads and bodies
stand in the order in which they were first given. Equality of grammars therefore
means equality of all tables including their orders.
-/

namespace ContextFree

structure Terminal where
  id : TerminalId
  name : String
  deriving DecidableEq, Repr

/-- Why a nonterminal was added by a normalization. -/
inductive FreshKind where
  /-- It stands for one terminal inside a longer body. -/
  | terminalProxy
  /-- It stands for the rest of a body of more than two symbols. -/
  | chain
  /-- It is a start symbol that may derive the empty word. -/
  | start
  deriving DecidableEq, Repr

inductive Origin where
  | declared (name : String)
  | fresh (kind : FreshKind) (serial : Nat)
  deriving DecidableEq, Repr

structure Nonterminal where
  id : NonterminalId
  origin : Origin
  deriving DecidableEq, Repr

def Origin.declaredName? : Origin → Option String
  | declared name => some name
  | fresh .. => none

def Nonterminal.declaredName? (n : Nonterminal) : Option String := n.origin.declaredName?

@[ext]
structure Production where
  head : NonterminalId
  body : Body
  deriving DecidableEq, Repr

def Production.isEpsilon (p : Production) : Bool := p.body.isEmpty

/-- The target of a body that is a single nonterminal. -/
def unitTarget? : Body → Option NonterminalId
  | [.nonterminal n] => some n
  | _ => none

def Production.isUnit (p : Production) : Bool := (unitTarget? p.body).isSome

/-- A head with its bodies. -/
@[ext]
structure Family where
  head : NonterminalId
  bodies : List Body
  deriving DecidableEq, Repr

def Family.productions (f : Family) : List Production := f.bodies.map fun b => ⟨f.head, b⟩

/-- Group productions by head. Heads and bodies keep the order of first occurrence,
and repeated bodies of one head collapse. -/
def group (productions : List Production) : List Family :=
  (collate (productions.map fun p => (p.head, p.body))).map fun (head, bodies) =>
    ⟨head, distinct bodies⟩

/-- Grouping neither loses nor adds productions. -/
theorem mem_group {productions : List Production} {p : Production} :
    p ∈ (group productions).flatMap Family.productions ↔ p ∈ productions := by
  simp only [group, collate, List.mem_flatMap, List.map_map, List.mem_map, mem_distinct,
    Function.comp_apply, Family.productions, getD_gather]
  constructor
  · rintro ⟨f, ⟨head, _, rfl⟩, body, hb, rfl⟩
    obtain ⟨pair, hpair, rfl⟩ := List.mem_map.mp (mem_distinct.mp hb)
    obtain ⟨hmem, hhead⟩ := List.mem_filter.mp hpair
    obtain ⟨q, hq, rfl⟩ := List.mem_map.mp hmem
    rw [decide_eq_true_eq] at hhead
    rwa [← hhead]
  · intro hp
    refine ⟨_, ⟨p.head, ⟨p, hp, rfl⟩, rfl⟩, p.body, mem_distinct.mpr ?_, rfl⟩
    refine List.mem_map.mpr ⟨(p.head, p.body), List.mem_filter.mpr ⟨?_, by simp⟩, rfl⟩
    exact List.mem_map.mpr ⟨p, hp, rfl⟩

/-- Append a body unless it is there already. -/
def Family.insert (f : Family) (body : Body) : Family :=
  ⟨f.head, if body ∈ f.bodies then f.bodies else f.bodies ++ [body]⟩

/-- Insert a production into the family of its head. A new head comes last. -/
def insertProduction (families : List Family) (p : Production) : List Family :=
  match families with
  | [] => [⟨p.head, [p.body]⟩]
  | f :: rest => if f.head = p.head then f.insert p.body :: rest else f :: insertProduction rest p

/-- Whether a symbol is a terminal or belongs to a set of nonterminals. -/
def Symbol.isWithin (keep : IdSet .nonterminal) : Symbol → Bool
  | terminal _ => true
  | nonterminal n => keep.contains n

/-- The bodies of a kept head that mention only kept nonterminals, if there are any. -/
def Family.restrictTo? (keep : IdSet .nonterminal) (f : Family) : Option Family :=
  if keep.contains f.head then
    match f.bodies.filter fun b => b.all (Symbol.isWithin keep) with
    | [] => none
    | bodies => some ⟨f.head, bodies⟩
  else none

@[ext]
structure Grammar where
  terminals : List Terminal
  nonterminals : List Nonterminal
  families : List Family
  start : NonterminalId
  /-- Every nonterminal that has ever been added has a smaller number. -/
  nextNonterminal : Nat
  deriving DecidableEq, Repr

/-- The identifiers declared in a grammar. -/
structure Alphabet where
  terminals : IdSet .terminal
  nonterminals : IdSet .nonterminal

def Alphabet.contains (a : Alphabet) : Symbol → Bool
  | .terminal t => a.terminals.contains t
  | .nonterminal n => a.nonterminals.contains n

namespace Grammar

def productions (g : Grammar) : List Production := g.families.flatMap Family.productions

theorem mem_productions {g : Grammar} {p : Production} :
    p ∈ g.productions ↔ ∃ f ∈ g.families, f.head = p.head ∧ p.body ∈ f.bodies := by
  simp only [productions, Family.productions, List.mem_flatMap, List.mem_map]
  constructor
  · rintro ⟨f, hf, body, hb, rfl⟩
    exact ⟨f, hf, rfl, hb⟩
  · rintro ⟨f, hf, head, hb⟩
    exact ⟨f, hf, p.body, hb, Production.ext head rfl⟩

def productionCount (g : Grammar) : Nat :=
  g.families.foldl (fun n f => n + f.bodies.length) 0

/-- The bodies of one head, in order. -/
def bodiesOf (g : Grammar) (head : NonterminalId) : List Body :=
  match g.families.find? fun f => f.head = head with
  | some f => f.bodies
  | none => []

/-- The bodies of every head. -/
def bodyTable (g : Grammar) : Std.TreeMap NonterminalId (List Body) :=
  g.families.foldr (fun f table => table.insert f.head f.bodies) ∅

theorem getD_bodyTable (g : Grammar) (head : NonterminalId) :
    g.bodyTable.getD head [] = g.bodiesOf head := by
  unfold bodyTable bodiesOf
  induction g.families with
  | nil => simp
  | cons f rest ih =>
      rw [List.foldr_cons, Std.TreeMap.getD_insert, ih, List.find?_cons]
      by_cases same : f.head = head
      · simp [same]
      · simp [same]

def hasProduction (g : Grammar) (head : NonterminalId) (body : Body) : Bool :=
  (g.bodiesOf head).contains body

def alphabet (g : Grammar) : Alphabet where
  terminals := .ofList (g.terminals.map Terminal.id)
  nonterminals := .ofList (g.nonterminals.map Nonterminal.id)

def terminalByName? (g : Grammar) (name : String) : Option TerminalId :=
  (g.terminals.find? fun t => t.name = name).map Terminal.id

def nonterminalByName? (g : Grammar) (name : String) : Option NonterminalId :=
  (g.nonterminals.find? fun n => n.declaredName? = some name).map Nonterminal.id

/-- Read a text as a word, one character for each terminal. -/
def word? (g : Grammar) (text : String) : Option Word :=
  text.toList.mapM fun c => g.terminalByName? (String.singleton c)

/-- Add a nonterminal. There is none to add once all numbers have been used. -/
def mint? (g : Grammar) (kind : FreshKind) (serial : Nat) : Option (NonterminalId × Grammar) :=
  if g.nextNonterminal < idLimit then
    some (⟨g.nextNonterminal⟩,
      { g with
        nonterminals := g.nonterminals ++ [⟨⟨g.nextNonterminal⟩, .fresh kind serial⟩]
        nextNonterminal := g.nextNonterminal + 1 })
  else none

/-- Remove every nonterminal outside `keep` together with the productions that
mention one. A head without bodies is removed from the productions. -/
def restrictTo (g : Grammar) (keep : IdSet .nonterminal) : Grammar :=
  { g with
    nonterminals := g.nonterminals.filter fun n => keep.contains n.id
    families := g.families.filterMap (Family.restrictTo? keep) }

end Grammar

end ContextFree
