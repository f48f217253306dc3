import Std.Data.TreeMap

/-!
# Symbols of a context-free grammar

Terminals and nonterminals are numbered separately. The kind of an identifier is
part of its type, so the two numberings cannot be mixed up. A symbol is an
identifier of either kind, a body is a list of symbols, and a word is a list of
terminals.

## Implementation notes

The orders on identifiers and symbols compare a natural number attached to each
of them. They serve as keys of ordered maps and have no further meaning.
-/

namespace ContextFree

/-- The two kinds of symbols. -/
inductive Kind where
  | terminal
  | nonterminal
  deriving DecidableEq, Repr

/-- The number of identifiers of each kind. -/
def idLimit : Nat := 65536

/-- The identifier of a symbol of kind `k`. -/
@[ext]
structure Id (k : Kind) where
  index : Nat
  deriving DecidableEq, Repr

abbrev TerminalId := Id .terminal

abbrev NonterminalId := Id .nonterminal

inductive Symbol where
  | terminal (t : TerminalId)
  | nonterminal (n : NonterminalId)
  deriving DecidableEq, Repr

/-- The symbol of a kind with this number. -/
def Kind.symbol : Kind → Nat → Symbol
  | .terminal, i => .terminal ⟨i⟩
  | .nonterminal, i => .nonterminal ⟨i⟩

/-- The right-hand side of a production. -/
abbrev Body := List Symbol

abbrev Word := List TerminalId

namespace Id

variable {k : Kind}

instance : Ord (Id k) := ⟨compareOn Id.index⟩

instance : Std.TransOrd (Id k) := inferInstanceAs (Std.TransCmp (compareOn Id.index))

instance : Std.LawfulEqOrd (Id k) where
  eq_of_compare h := Id.ext (Nat.compare_eq_eq.mp h)

end Id

namespace Symbol

/-- Terminals have even keys and nonterminals odd ones. -/
def key : Symbol → Nat
  | terminal t => 2 * t.index
  | nonterminal n => 2 * n.index + 1

theorem key_injective {a b : Symbol} (h : a.key = b.key) : a = b := by
  cases a with
  | terminal t =>
      cases b with
      | terminal u => simp only [key] at h; exact congrArg _ (Id.ext (by omega))
      | nonterminal m => simp only [key] at h; omega
  | nonterminal n =>
      cases b with
      | terminal u => simp only [key] at h; omega
      | nonterminal m => simp only [key] at h; exact congrArg _ (Id.ext (by omega))

instance : Ord Symbol := ⟨compareOn key⟩

instance : Std.TransOrd Symbol := inferInstanceAs (Std.TransCmp (compareOn key))

instance : Std.LawfulEqOrd Symbol where
  eq_of_compare h := key_injective (Nat.compare_eq_eq.mp h)

def terminal? : Symbol → Option TerminalId
  | terminal t => some t
  | nonterminal _ => none

def nonterminal? : Symbol → Option NonterminalId
  | terminal _ => none
  | nonterminal n => some n

end Symbol

/-- A decimal numeral with zeros in front up to three digits. -/
def threeDigits (n : Nat) : String :=
  let digits := Nat.toDigits 10 n
  String.ofList (List.replicate (3 - digits.length) '0' ++ digits)

/-- The text of an identifier that has no name: its kind and its number. -/
def Id.text {k : Kind} (i : Id k) : String :=
  (match k with
    | .terminal => "T#"
    | .nonterminal => "N#") ++ threeDigits i.index

def Symbol.idText : Symbol → String
  | terminal t => t.text
  | nonterminal n => n.text

end ContextFree
