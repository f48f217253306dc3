import Std.Data.TreeMap

/-!
# Names of declared symbols

A declared name is not empty, has no white space, and does not begin with a dollar
sign: names with a dollar sign are kept for added nonterminals. White space is the
Unicode property of that name.
-/

namespace ContextFree

/-- The characters with the Unicode property `White_Space`. -/
def isWhiteSpace (c : Char) : Bool :=
  let n := c.toNat
  (0x09 ≤ n && n ≤ 0x0d) || n = 0x20 || n = 0x85 || n = 0xa0 || n = 0x1680 ||
    (0x2000 ≤ n && n ≤ 0x200a) || n = 0x2028 || n = 0x2029 || n = 0x202f || n = 0x205f ||
    n = 0x3000

/-- Whether a symbol may be declared under this name. -/
def isName (name : String) : Bool :=
  match name.toList with
  | [] => false
  | c :: rest => c != '$' && !(c :: rest).any isWhiteSpace

end ContextFree
