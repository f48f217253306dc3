import ContextFree.Definition.Loading

/-!
# A catalog of small grammars

Well-known grammars that exercise the stages of a normalization: empty bodies, unit
cycles, useless symbols and long bodies.
-/

namespace ContextFree

/-- The grammars of the catalog. -/
inductive Catalog where
  /-- Mixed bodies, an empty body and an unreachable symbol. -/
  | sample
  /-- Balanced parentheses, including the empty word. -/
  | balanced
  /-- Arithmetic expressions with unit chains and a useless symbol. -/
  | arithmetic
  /-- As many letters `a` as letters `b` after them, at least one. -/
  | anbn
  /-- Palindromes of even length, by way of a unit cycle. -/
  | palindromes
  /-- Nullable symbols three levels deep. -/
  | nullableChain
  /-- A long body next to symbols that are useless in both ways. -/
  | longBodies
  deriving DecidableEq, Repr

namespace Catalog

def declarations : Catalog → Declarations
  | sample => { nonterminals := ["S", "A", "B", "C", "D"], terminals := ["a", "b"] }
  | balanced => { nonterminals := ["P"], terminals := ["(", ")"] }
  | arithmetic =>
      { nonterminals := ["E", "T", "F", "U"], terminals := ["+", "*", "(", ")", "n"] }
  | anbn => { nonterminals := ["S"], terminals := ["a", "b"] }
  | palindromes => { nonterminals := ["S", "P", "Q"], terminals := ["a", "b"] }
  | nullableChain => { nonterminals := ["S", "A", "B", "C"], terminals := ["x", "y", "z"] }
  | longBodies => { nonterminals := ["S", "A", "Dead", "Lost"], terminals := ["x", "y"] }

def rules : Catalog → List Source.Rule
  | sample =>
      [ ⟨"S", [["a", "B"], ["b", "A"], ["B"]]⟩,
        ⟨"A", [["b"], ["a", "D"], ["A", "S"], ["b", "A", "B"], []]⟩,
        ⟨"B", [["a"], ["b", "S"]]⟩,
        ⟨"C", [["A", "B"]]⟩,
        ⟨"D", [["B", "B"]]⟩ ]
  | balanced => [⟨"P", [["(", "P", ")", "P"], []]⟩]
  | arithmetic =>
      [ ⟨"E", [["E", "+", "T"], ["T"]]⟩,
        ⟨"T", [["T", "*", "F"], ["F"]]⟩,
        ⟨"F", [["(", "E", ")"], ["n"]]⟩,
        ⟨"U", [["U", "n"]]⟩ ]
  | anbn => [⟨"S", [["a", "S", "b"], ["a", "b"]]⟩]
  | palindromes =>
      [ ⟨"S", [["P"]]⟩,
        ⟨"P", [["Q"]]⟩,
        ⟨"Q", [["S"], ["a", "P", "a"], ["b", "P", "b"], []]⟩ ]
  | nullableChain =>
      [ ⟨"S", [["A", "B", "C", "A"]]⟩,
        ⟨"A", [["x"], ["B", "C"]]⟩,
        ⟨"B", [["y", "B"], []]⟩,
        ⟨"C", [["z"], ["B"]]⟩ ]
  | longBodies =>
      [ ⟨"S", [["x", "A", "y", "A", "x"], ["A", "Dead"]]⟩,
        ⟨"A", [["y"], ["x", "x"]]⟩,
        ⟨"Dead", [["x", "Dead"]]⟩,
        ⟨"Lost", [["y"]]⟩ ]

def grammar (c : Catalog) : Except DefinitionError Grammar := c.declarations.define c.rules

end Catalog

end ContextFree
