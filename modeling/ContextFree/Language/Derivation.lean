import ContextFree.Grammar.Basic

/-!
# Derivations

A body derives a word when each of its terminals stands for itself and each of its
nonterminals for a word derived by one of its bodies. The relation is stated over any
set of productions; a grammar uses its own.
-/

namespace ContextFree

/-- The words that a body derives by productions in `P`. -/
inductive Yields (P : Production → Prop) : Body → Word → Prop where
  | nil : Yields P [] []
  | terminal {t : TerminalId} {rest : Body} {w : Word} :
      Yields P rest w → Yields P (.terminal t :: rest) (t :: w)
  | nonterminal {n : NonterminalId} {body rest : Body} {u v : Word} :
      P ⟨n, body⟩ → Yields P body u → Yields P rest v →
      Yields P (.nonterminal n :: rest) (u ++ v)

namespace Grammar

/-- The words that a nonterminal derives in a grammar. -/
def Derives (g : Grammar) (n : NonterminalId) (w : Word) : Prop :=
  Yields (· ∈ g.productions) [.nonterminal n] w

end Grammar

end ContextFree
