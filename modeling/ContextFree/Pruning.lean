import ContextFree.Analysis.Reachability
import ContextFree.Analysis.Saturation
import ContextFree.Grammar.Validity

/-!
# Removing useless symbols

Nonterminals that derive no word, and nonterminals that are not reachable, can be
removed without changing the language. The first removal fails if it would have to
remove the start symbol; the second requires a valid grammar.
-/

namespace ContextFree.Grammar

/-- Keep the nonterminals that derive a word. -/
def retainProductive (g : Grammar) : Except Violation Grammar :=
  let productive := g.productiveSet
  if productive.contains g.start then .ok (g.restrictTo productive)
  else .error (.unproductiveStart g.startText)

/-- Keep the nonterminals that are reachable. -/
def retainReachable (g : Grammar) : Except Violation Grammar :=
  match g.violation? with
  | some v => .error v
  | none => .ok (g.restrictTo g.reachableSet)

end ContextFree.Grammar
