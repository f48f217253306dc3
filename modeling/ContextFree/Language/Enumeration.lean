import ContextFree.Grammar.Text
import Std.Data.TreeSet

/-!
# Words of bounded length

All words of at most a given length that the nonterminals of a grammar derive are
computed together. A pass adds to each head the words its bodies derive from the
words known so far; passes are repeated until nothing is added. Empty bodies and
cycles of unit productions need no special care.

## Implementation notes

A derivation of a word need not repeat a nonterminal while the word it stands for stays
the same. So a word of `n` letters has a derivation whose depth is at most the number
of heads times `n + 1`, and that many passes find all words of at most `n` letters.
-/

namespace ContextFree

/-- Sets of words in lexicographic order. -/
abbrev WordSet := Std.TreeSet Word

/-- The words known for each head. -/
abbrev WordTable := Std.TreeMap NonterminalId WordSet

namespace WordTable

/-- Extend words by one symbol, as far as the length allows. -/
def extend (limit : Nat) (table : WordTable) (words : WordSet) : Symbol → WordSet
  | .terminal t =>
      words.foldl (fun next w => if w.length < limit then next.insert (w ++ [t]) else next) ∅
  | .nonterminal n =>
      let suffixes := table.getD n ∅
      words.foldl
        (fun next w =>
          let used := w.length
          suffixes.foldl
            (fun next v => if used + v.length ≤ limit then next.insert (w ++ v) else next)
            next)
        ∅

/-- The words of a body, given the words of its nonterminals. -/
def wordsOf (limit : Nat) (table : WordTable) (body : Body) : WordSet :=
  body.foldl (extend limit table) ((∅ : WordSet).insert [])

/-- Add the words of one production to its head. -/
def absorb (limit : Nat) (table : WordTable) (p : Production) : WordTable :=
  let words := table.wordsOf limit p.body
  if words.isEmpty then table
  else table.alter p.head fun known => some (words.foldl (fun s w => s.insert w) (known.getD ∅))

def pass (limit : Nat) (productions : List Production) (table : WordTable) : WordTable :=
  productions.foldl (absorb limit) table

/-- How many words are known in all. -/
def weight (table : WordTable) : Nat := table.foldl (fun n _ words => n + words.size) 0

/-- Repeat passes until one adds no word. -/
def saturate (limit : Nat) (productions : List Production) : Nat → WordTable → WordTable
  | 0, table => table
  | fuel + 1, table =>
      let next := pass limit productions table
      if weight next = weight table then next else saturate limit productions fuel next

end WordTable

namespace Grammar

/-- All words of at most `limit` letters that a nonterminal derives. -/
def wordsFrom (g : Grammar) (root : NonterminalId) (limit : Nat) : WordSet :=
  let bound := g.families.length * (limit + 1) + 1
  (WordTable.saturate limit g.productions bound ∅).getD root ∅

def words (g : Grammar) (limit : Nat) : WordSet := g.wordsFrom g.start limit

/-- Append every letter to every word, the letter changing fastest. -/
def lengthen (alphabet : List TerminalId) (words : List Word) : List Word :=
  words.flatMap fun w => alphabet.map fun t => w ++ [t]

/-- The words of exactly `n` letters. -/
def wordsOfLength (alphabet : List TerminalId) : Nat → List Word
  | 0 => [[]]
  | n + 1 => lengthen alphabet (wordsOfLength alphabet n)

/-- Append to the words collected the words longer than the last ones by one letter, by
two letters, and so on. -/
def collectWords (alphabet : List TerminalId) : Nat → List Word → Array Word → Array Word
  | 0, _, done => done
  | n + 1, last, done =>
      let next := lengthen alphabet last
      collectWords alphabet n next (done ++ next)

theorem toList_collectWords (alphabet : List TerminalId) (n m : Nat) (done : Array Word) :
    (collectWords alphabet n (wordsOfLength alphabet m) done).toList =
      done.toList ++ (List.range' (m + 1) n).flatMap (wordsOfLength alphabet) := by
  induction n generalizing m done with
  | zero => simp [collectWords]
  | succ n ih =>
      have step : lengthen alphabet (wordsOfLength alphabet m) = wordsOfLength alphabet (m + 1) :=
        rfl
      rw [collectWords, step, ih, List.range'_succ, List.flatMap_cons]
      simp

/-- All words over the terminals of at most `limit` letters, shorter words first. -/
def allWords (g : Grammar) (limit : Nat) : List Word :=
  (collectWords (g.terminals.map Terminal.id) limit [[]] #[[]]).toList

theorem allWords_eq (g : Grammar) (limit : Nat) :
    g.allWords limit =
      (List.range (limit + 1)).flatMap (wordsOfLength (g.terminals.map Terminal.id)) := by
  have collected := toList_collectWords (g.terminals.map Terminal.id) limit 0 #[[]]
  rw [List.range_eq_range', List.range'_succ, List.flatMap_cons]
  exact collected

/-- The names of the letters of a word; an unknown letter is a question mark. -/
def render (names : Names) (w : Word) : String :=
  String.join (w.map fun t => (names.terminal? t).getD "?")

end Grammar

end ContextFree
