import ContextFree.Language.Enumeration
import ContextFree.Recognition

/-!
# Comparing a grammar with its normal form

A grammar and a grammar in normal form are compared on all words of bounded length.
The words of both are compared by their texts, and the recognizer is compared with
the words of the first grammar. The empty word counts only if the normal form keeps
it.
-/

namespace ContextFree.NormalForm

/-- Whether a grammar and a normal form agree on the words of at most `limit` letters. -/
def agreesWith (c : NormalForm) (g : Grammar) (limit : Nat) : Bool :=
  let all := g.words limit
  let expected := if c.derivesEmpty then all else all.erase []
  let names := g.names
  let texts (words : WordSet) : List String := words.toList.map (Grammar.render names)
  texts (c.grammar.words limit) == texts expected &&
    (c.grammar.allWords limit).all fun w => c.accepts w == expected.contains w

end ContextFree.NormalForm
