import ContextFree.Grammar.Basic
import ContextFree.Worklist

/-!
# Reachable nonterminals

A nonterminal is reachable if it occurs in a sentential form derived from the start
symbol. A worklist opens every reachable nonterminal once and pushes the
nonterminals of its bodies.

## Implementation notes

Every nonterminal opened is the start symbol or occurs in a body, so the number of
occurrences in bodies bounds the number of steps.
-/

namespace ContextFree.Grammar

/-- The nonterminals that occur in the bodies of a family. -/
def mentions (bodies : List Body) : List NonterminalId :=
  bodies.flatMap fun b => b.filterMap Symbol.nonterminal?

/-- Open waiting nonterminals until none is left. -/
def explore (table : Std.TreeMap NonterminalId (List Body)) :
    Nat → Worklist NonterminalId → Worklist NonterminalId
  | 0, w => w
  | fuel + 1, w =>
      match w.pop? with
      | none => w
      | some (n, rest) => explore table fuel (rest.pushAll (mentions (table.getD n [])))

/-- The nonterminals reachable from the start symbol. -/
def reachableSet (g : Grammar) : IdSet .nonterminal :=
  let bound := g.productions.foldl (fun n p => n + p.body.length) 2
  .ofList (explore g.bodyTable bound (.ofList [g.start])).seen.toList

end ContextFree.Grammar
