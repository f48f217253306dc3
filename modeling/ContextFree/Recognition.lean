import ContextFree.Stage.NormalForm

/-!
# Recognition of words

A word is recognized by a grammar in normal form with a chart that has a cell for
every nonempty span of the word. The cell of a span holds the nonterminals that
derive it. Cells are filled by increasing length of the spans: a span of one symbol
is looked up, and a longer span is split in two in every possible way.

## Implementation notes

The chart is a flat array, shorter spans first and spans of one length from left to
right. `cellIndex` gives the place of a span in it.
-/

namespace ContextFree

/-- A production whose body is a pair of nonterminals. -/
structure PairRule where
  head : NonterminalId
  left : NonterminalId
  right : NonterminalId
  deriving DecidableEq, Repr

def Production.pairRule? (p : Production) : Option PairRule :=
  match p.body with
  | [.nonterminal b, .nonterminal c] => some ⟨p.head, b, c⟩
  | _ => none

/-- The heads of the productions whose body is this terminal. -/
def lexicalHeads (productions : List Production) (t : TerminalId) : NonterminalSet :=
  .ofList ((productions.filter fun p => p.body = [.terminal t]).map Production.head)

namespace Chart

/-- The cell of the span of `length` symbols from position `i` in the chart of a word
of `n` symbols. -/
def cellIndex (i length n : Nat) : Nat :=
  (length - 1) * (n + 1) - (length - 1) * length / 2 + i

/-- The spans of a word of `n` symbols in the order of their cells. -/
def spans (n : Nat) : List (Nat × Nat) :=
  (List.range' 1 n).flatMap fun length => (List.range (n - length + 1)).map fun i => (i, length)

/-- Add the heads of the pairs that the two parts of a span derive. -/
def combine (rules : List PairRule) (left right cell : NonterminalSet) : NonterminalSet :=
  if left.isEmpty || right.isEmpty then cell
  else
    rules.foldl
      (fun cell r =>
        if left.contains r.left && right.contains r.right then cell.insert r.head else cell)
      cell

/-- The contents of a cell, given all cells of shorter spans. -/
def cell (productions : List Production) (rules : List PairRule) (word : Array TerminalId)
    (chart : Array NonterminalSet) (i length : Nat) : NonterminalSet :=
  if length = 1 then
    match word[i]? with
    | some t => lexicalHeads productions t
    | none => ∅
  else
    (List.range' 1 (length - 1)).foldl
      (fun cell split =>
        let left := chart.getD (cellIndex i split word.size) ∅
        let right := chart.getD (cellIndex (i + split) (length - split) word.size) ∅
        combine rules left right cell)
      ∅

def fill (productions : List Production) (word : Array TerminalId) : Array NonterminalSet :=
  let rules := productions.filterMap Production.pairRule?
  (spans word.size).foldl
    (fun chart (i, length) => chart.push (cell productions rules word chart i length))
    #[]

end Chart

/-- Whether a word belongs to the language of a grammar in normal form. -/
def NormalForm.accepts (c : NormalForm) (word : Word) : Bool :=
  match word with
  | [] => c.derivesEmpty
  | _ =>
      let chart := Chart.fill c.grammar.productions word.toArray
      (chart.getD (Chart.cellIndex 0 word.length word.length) ∅).contains c.grammar.start

end ContextFree
