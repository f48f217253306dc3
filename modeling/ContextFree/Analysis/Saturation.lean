import ContextFree.Grammar.Basic

/-!
# Saturation of sets of nonterminals

Two properties of nonterminals are computed by the same loop: deriving the empty
word, and deriving some word at all. A pass goes through the productions and adds a
head as soon as one of its bodies consists of symbols that are already explained.
Passes are repeated until one adds nothing.

## Implementation notes

The loop keeps the set after each pass, because the number of passes is reported.
Every pass but the last adds a head, so there is at most one pass more than there
are heads.
-/

namespace ContextFree

abbrev NonterminalSet := IdSet .nonterminal

namespace Saturation

/-- Which symbols are explained once the nonterminals of a set are. -/
abbrev Explains := NonterminalSet → Symbol → Bool

/-- Add the head of a production whose body is explained. -/
def absorb (explains : Explains) (found : NonterminalSet) (p : Production) : NonterminalSet :=
  if found.contains p.head then found
  else if p.body.all (explains found) then found.insert p.head
  else found

def pass (explains : Explains) (productions : List Production) (found : NonterminalSet) :
    NonterminalSet :=
  productions.foldl (absorb explains) found

/-- The sets after each pass, up to the first pass that adds nothing. -/
def passesFrom (explains : Explains) (productions : List Production) :
    Nat → NonterminalSet → List NonterminalSet
  | 0, _ => []
  | fuel + 1, found =>
      let next := pass explains productions found
      if next = found then [next] else next :: passesFrom explains productions fuel next

def passes (explains : Explains) (g : Grammar) : List NonterminalSet :=
  passesFrom explains g.productions (g.families.length + 1) ∅

end Saturation

namespace Grammar

/-- A body derives the empty word if all its symbols do. -/
def nullablePasses (g : Grammar) : List NonterminalSet :=
  Saturation.passes (fun found s => s.nonterminal?.any found.contains) g

/-- The nonterminals that derive the empty word. -/
def nullables (g : Grammar) : NonterminalSet := g.nullablePasses.getLastD ∅

/-- A body derives a word if all its nonterminals do. -/
def productivePasses (g : Grammar) : List NonterminalSet :=
  Saturation.passes (fun found s => s.nonterminal?.all found.contains) g

/-- The nonterminals that derive a word. -/
def productiveSet (g : Grammar) : NonterminalSet := g.productivePasses.getLastD ∅

end Grammar

end ContextFree
