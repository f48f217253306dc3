import ContextFree.Proofs.Recognition.Layout

/-!
# Recognition stays inside its chart

The checked recognition starts with one place for every span, none of them written. It has no
result as soon as a subtraction would go below zero, a place is missing, a cell is read before
it is written, or a cell is written twice. It always has a result, namely that of recognition:
the next span to be filled has the next place, and the parts into which it is split are shorter
spans, whose places come before.

## Implementation notes

The steps of the checked recognition are those of recognition behind a test. A chart that grows
by one cell at a time is compared with a chart of full size by `places`.
-/

namespace ContextFree

namespace Chart

/-- The difference of two numbers, unless it lies below zero. -/
def minus? (a b : Nat) : Option Nat := if b ≤ a then some (a - b) else none

def cellIndex? (i length n : Nat) : Option Nat := do
  let shorter ← minus? length 1
  let row ← minus? (shorter * (n + 1)) (shorter * length / 2)
  return row + i

/-- The places of a chart, each empty until its cell is written. -/
abbrev Places := Array (Option NonterminalSet)

/-- The contents of a cell, if it has a place and has been written. -/
def read? (chart : Places) (k : Nat) : Option NonterminalSet := chart[k]?.join

/-- Write a cell, if it has a place and has not been written. -/
def write? (chart : Places) (k : Nat) (cell : NonterminalSet) : Option Places :=
  if chart[k]? = some none then some (chart.setIfInBounds k (some cell)) else none

def readSpan? (chart : Places) (i length n : Nat) : Option NonterminalSet := do
  read? chart (← cellIndex? i length n)

def cell? (productions : List Production) (rules : List PairRule) (word : Array TerminalId)
    (chart : Places) (i length : Nat) : Option NonterminalSet :=
  if length = 1 then word[i]?.map (lexicalHeads productions)
  else
    (List.range' 1 (length - 1)).foldlM
      (fun cell split => do
        let left ← readSpan? chart i split word.size
        let right ← readSpan? chart (i + split) (← minus? length split) word.size
        return combine rules left right cell)
      ∅

def fill? (productions : List Production) (word : Array TerminalId) : Option Places :=
  let rules := productions.filterMap Production.pairRule?
  (spans word.size).foldlM
    (fun chart (i, length) => do
      let cell ← cell? productions rules word chart i length
      write? chart (← cellIndex? i length word.size) cell)
    (Array.replicate (word.size * (word.size + 1) / 2) none)

end Chart

/-- Recognition that has no result when it leaves its chart. -/
def NormalForm.accepts? (c : NormalForm) (word : Word) : Option Bool :=
  match word with
  | [] => some c.derivesEmpty
  | _ => do
      let chart ← Chart.fill? c.grammar.productions word.toArray
      let whole ← Chart.readSpan? chart 0 word.length word.length
      return whole.contains c.grammar.start

namespace Chart

variable {n i length total k : Nat} {chart : Array NonterminalSet}

/-- A chart of full size in which the cells of a growing chart are written. -/
def places (total : Nat) (chart : Array NonterminalSet) : Places :=
  (Array.range total).map fun k => chart[k]?

theorem minus?_eq_some {a b : Nat} (h : b ≤ a) : minus? a b = some (a - b) := if_pos h

theorem cellIndex?_eq_some (lower : 1 ≤ length) (upper : length ≤ n) :
    cellIndex? i length n = some (cellIndex i length n) := by
  have fits : (length - 1) * length / 2 ≤ (length - 1) * (n + 1) := by
    obtain ⟨l, rfl⟩ := Nat.exists_eq_add_of_le' lower
    exact triangle_le (by omega)
  rw [cellIndex?, minus?_eq_some lower, Option.bind_eq_bind, Option.bind_some,
    minus?_eq_some fits]
  rfl

theorem getElem?_places : (places total chart)[k]? = if k < total then some chart[k]? else none := by
  rw [places, Array.getElem?_map, Array.getElem?_range]
  split <;> rfl

theorem replicate_eq_places : Array.replicate total none = places total #[] := by
  apply Array.ext_getElem?
  intro k
  rw [getElem?_places, Array.getElem?_replicate]
  rfl

theorem read?_places (written : k < chart.size) (room : chart.size ≤ total) :
    read? (places total chart) k = some (chart.getD k ∅) := by
  rw [read?, getElem?_places, if_pos (Nat.lt_of_lt_of_le written room),
    Array.getElem?_eq_getElem written, Array.getD_eq_getD_getElem?,
    Array.getElem?_eq_getElem written]
  rfl

theorem readSpan?_places (lower : 1 ≤ length) (upper : length ≤ n)
    (written : cellIndex i length n < chart.size) (room : chart.size ≤ total) :
    readSpan? (places total chart) i length n = some (chart.getD (cellIndex i length n) ∅) := by
  rw [readSpan?, cellIndex?_eq_some lower upper]
  exact read?_places written room

/-- The next cell has a place that has not been written. -/
theorem write?_places (room : chart.size < total) (cell : NonterminalSet) :
    write? (places total chart) chart.size cell = some (places total (chart.push cell)) := by
  have empty : (places total chart)[chart.size]? = some none := by
    rw [getElem?_places, if_pos room, Array.getElem?_eq_none (Nat.le_refl _)]
  rw [write?, if_pos empty]
  congr 1
  apply Array.ext_getElem?
  intro k
  have full : (places total chart).size = total := by
    rw [places, Array.size_map, Array.size_range]
  rw [Array.getElem?_setIfInBounds, full, getElem?_places, getElem?_places, Array.getElem?_push]
  by_cases last : k = chart.size
  · subst last
    rw [if_pos rfl, if_pos room, if_pos room, if_pos rfl]
  · rw [if_neg (Ne.symm last), if_neg last]

theorem foldlM_eq_some {σ β : Type} {step? : σ → β → Option σ} {step : σ → β → σ} {bs : List β}
    (each : ∀ b ∈ bs, ∀ s, step? s b = some (step s b)) (s : σ) :
    bs.foldlM step? s = some (bs.foldl step s) := by
  induction bs generalizing s with
  | nil => rfl
  | cons b rest ih =>
      rw [List.foldlM_cons, each b List.mem_cons_self, Option.bind_eq_bind, Option.bind_some]
      exact ih (fun b member => each b (List.mem_cons_of_mem _ member)) (step s b)

variable {productions : List Production} {rules : List PairRule} {word : Array TerminalId}

/-- A span is filled from cells of shorter spans, all of them written. -/
theorem cell?_places (lower : 1 ≤ length) (fits : i + length ≤ word.size)
    (room : chart.size ≤ total)
    (shorter : ∀ j short, 1 ≤ short → short < length → j + short ≤ word.size →
      cellIndex j short word.size < chart.size) :
    cell? productions rules word (places total chart) i length =
      some (cell productions rules word chart i length) := by
  unfold cell? cell
  split
  next one =>
    have letter : i < word.size := by omega
    rw [Array.getElem?_eq_getElem letter]
    rfl
  next =>
    apply foldlM_eq_some
    intro k hk cell
    obtain ⟨first, last⟩ := List.mem_range'_1.mp hk
    have before := shorter i k first (by omega) (by omega)
    have behind := shorter (i + k) (length - k) (by omega) (by omega) (by omega)
    rw [readSpan?_places first (by omega) before room, minus?_eq_some (by omega),
      Option.bind_eq_bind, Option.bind_some, Option.bind_eq_bind, Option.bind_some,
      readSpan?_places (by omega) (by omega) behind room]
    rfl

/-- Filling the remaining cells in order passes all tests. -/
theorem foldlM_fill_eq_some {done rest : List (Nat × Nat)}
    (order : spans word.size = done ++ rest) (size : chart.size = done.length) :
    rest.foldlM
        (fun chart (i, length) => do
          let cell ← cell? productions rules word chart i length
          write? chart (← cellIndex? i length word.size) cell)
        (places (spans word.size).length chart) =
      some (places (spans word.size).length (rest.foldl
        (fun chart (i, length) => chart.push (cell productions rules word chart i length))
        chart)) := by
  induction rest generalizing done chart with
  | nil => rfl
  | cons s rest ih =>
      obtain ⟨i, length⟩ := s
      obtain ⟨place, lower, fits, shorter⟩ := next_span order
      rw [← size] at place shorter
      have room : chart.size < (spans word.size).length := by
        rw [size, order, List.length_append, List.length_cons]
        omega
      have filled : cell? productions rules word (places (spans word.size).length chart) i length =
          some (cell productions rules word chart i length) :=
        cell?_places lower fits (Nat.le_of_lt room) shorter
      have index : cellIndex? i length word.size = some chart.size := by
        rw [cellIndex?_eq_some lower (by omega), place]
      have written := write?_places room (cell productions rules word chart i length)
      have order : spans word.size = (done ++ [(i, length)]) ++ rest := by
        rw [order, List.append_assoc]
        rfl
      have size : (chart.push (cell productions rules word chart i length)).size =
          (done ++ [(i, length)]).length := by
        rw [Array.size_push, List.length_append, size]
        rfl
      rw [List.foldlM_cons]
      simp only [filled, index, written, Option.bind_eq_bind, Option.bind_some]
      exact ih order size

theorem fill?_eq_some (productions : List Production) (word : Array TerminalId) :
    fill? productions word =
      some (places (spans word.size).length (fill productions word)) := by
  unfold fill?
  rw [← length_spans, replicate_eq_places]
  exact foldlM_fill_eq_some (List.nil_append _).symm rfl

theorem size_fill (productions : List Production) (word : Array TerminalId) :
    (fill productions word).size = (spans word.size).length := by
  have pushed (rules : List PairRule) (rest : List (Nat × Nat)) (chart : Array NonterminalSet) :
      (rest.foldl
        (fun chart (i, length) => chart.push (cell productions rules word chart i length))
        chart).size = chart.size + rest.length := by
    induction rest generalizing chart with
    | nil => rfl
    | cons s rest ih =>
        rw [List.foldl_cons, ih, Array.size_push, List.length_cons]
        omega
  rw [fill, pushed]
  exact Nat.zero_add _

end Chart

/-- The checked recognition always has a result, and it is that of recognition. -/
theorem NormalForm.accepts?_eq_some (c : NormalForm) (word : Word) :
    c.accepts? word = some (c.accepts word) := by
  cases word with
  | nil => rfl
  | cons t rest =>
      have lower : 1 ≤ (t :: rest).length := Nat.succ_pos _
      have whole : Chart.cellIndex 0 (t :: rest).length (t :: rest).length <
          (Chart.fill c.grammar.productions (t :: rest).toArray).size := by
        rw [Chart.size_fill, List.size_toArray]
        have inside := Chart.getElem?_spans_iff.mpr ⟨rfl, lower, Nat.le_of_eq (Nat.zero_add _)⟩
        exact (List.getElem?_eq_some_iff.mp inside).1
      have read := Chart.readSpan?_places lower (Nat.le_refl _) whole
        (Nat.le_of_eq (Chart.size_fill _ _))
      unfold accepts?
      dsimp only
      rw [Chart.fill?_eq_some, Option.bind_eq_bind, Option.bind_some, read]
      rfl

namespace Chart

/-- The cells of a chart are numbered without gaps, in the order in which the spans are filled, so
every number is the cell of exactly one span. No subtraction goes below zero, and the parts into
which a span is split have smaller cells. Hence recognition only writes cells of its chart that
have not been written, and only reads cells that have been. -/
theorem layout_without_gaps :
    (∀ n,
      (spans n).map (fun s => cellIndex s.1 s.2 n) = List.range (n * (n + 1) / 2) ∧
      Set.BijOn (fun s : Nat × Nat => cellIndex s.1 s.2 n) {s | 1 ≤ s.2 ∧ s.1 + s.2 ≤ n}
        (Set.Iio (n * (n + 1) / 2)) ∧
      ∀ i length, 1 ≤ length → i + length ≤ n →
        cellIndex? i length n = some (cellIndex i length n) ∧
        ∀ k, 1 ≤ k → k < length →
          cellIndex i k n < cellIndex i length n ∧
          cellIndex (i + k) (length - k) n < cellIndex i length n) ∧
    ∀ (c : NormalForm) (word : Word), c.accepts? word = some (c.accepts word) := by
  refine ⟨?_, NormalForm.accepts?_eq_some⟩
  intro n
  refine ⟨cellIndex_end ▸ map_cellIndex_spans, bijOn_cellIndex, ?_⟩
  intro i length lower fits
  refine ⟨cellIndex?_eq_some lower (by omega), ?_⟩
  intro k first last
  constructor
  · exact cellIndex_lt_cellIndex first last (by omega) fits
  · exact cellIndex_lt_cellIndex (by omega) (by omega) (by omega) fits

example : (spans 4).map (fun s => cellIndex s.1 s.2 4) = [0, 1, 2, 3, 4, 5, 6, 7, 8, 9] := by
  decide

/-- In a chart for four letters the span of the last three has the last cell but one. The cells of
its first letter and of the other two come before. -/
theorem layout_without_gaps_four :
    1 ≤ 3 ∧ 1 + 3 ≤ 4 ∧ 1 ≤ 1 ∧ 1 < 3 ∧
      cellIndex? 1 3 4 = some 8 ∧ cellIndex 1 1 4 < 8 ∧ cellIndex 2 2 4 < 8 := by
  obtain ⟨_, _, inside⟩ := layout_without_gaps.1 4
  obtain ⟨cell, parts⟩ := inside 1 3 (by decide) (by decide)
  obtain ⟨left, right⟩ := parts 1 (by decide) (by decide)
  exact ⟨by decide, by decide, by decide, by decide, cell, left, right⟩

end Chart

end ContextFree
