import ContextFree.Catalog
import ContextFree.Definition.Script

/-!
# Ways to specify a grammar

A grammar is taken from the catalog, built by a script of definition steps, or read
from a source text with optional declarations.
-/

namespace ContextFree

inductive Specification where
  | catalog (entry : Catalog)
  | script (lenient : Bool) (steps : List Definition.Step)
  | source (text : String) (declarations : Declarations)

def Specification.load : Specification → Except DefinitionError Grammar
  | catalog entry => entry.grammar
  | script lenient steps => (Definition.run lenient steps).grammar
  | source text declarations => Grammar.ofSource text declarations

end ContextFree
