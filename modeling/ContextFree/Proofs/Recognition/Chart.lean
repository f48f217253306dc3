import ContextFree.Proofs.NormalForm.Paired
import ContextFree.Proofs.Recognition.Layout

/-!
# The chart holds what derives each span

In a grammar in normal form only the start symbol can derive the empty word, and it
stands in no body. A symbol therefore derives a word of one letter by a body that is
this letter, and a longer word by a pair whose parts derive two nonempty parts of the
word. This is how the cells are filled: once all cells of shorter spans are right, so
is the next one. The chart of a whole word decides whether the start symbol derives it.
-/

namespace ContextFree

open NormalForm

namespace Grammar.InNormalForm

variable {g : Grammar} {derivesEmpty : Bool} {a : NonterminalId} {body : Body} {w : Word}

/-- Symbols other than a start symbol with an empty body derive no word shorter than they
are many. -/
theorem length_le (h : g.InNormalForm derivesEmpty)
    (inner : ∀ m, .nonterminal m ∈ body → derivesEmpty = true → m ≠ g.start)
    (yields : Yields (· ∈ g.productions) body w) : body.length ≤ w.length := by
  have confined : Yields (fun p => p ∈ g.productions ∧ p.body ≠ []) body w := by
    refine yields.confine (fun m => derivesEmpty = true → m ≠ g.start) ?_ inner
    intro n body w other rule _
    refine ⟨⟨rule, ?_⟩, ?_⟩
    · intro empty
      cases h.binary_or_empty _ rule with
      | inl binary =>
          obtain ⟨t, single⟩ | ⟨b, c, pair⟩ := binary
          · exact absurd (empty.symm.trans single) (by simp)
          · exact absurd (empty.symm.trans pair) (by simp)
      | inr start => exact other start.2.2 start.2.1
    · rintro m hm keeps rfl
      exact h.start_unused keeps _ rule hm
  exact confined.length_le fun p hp => hp.2

/-- The symbols of a body derive nonempty words. -/
theorem ne_nil_of_mem_body (h : g.InNormalForm derivesEmpty) {p : Production}
    (hp : p ∈ g.productions) (ha : .nonterminal a ∈ p.body)
    (derives : g.Derives a w) : 1 ≤ w.length := by
  apply h.length_le _ derives
  rintro m hm keeps rfl
  cases List.mem_singleton.mp hm
  exact h.start_unused keeps p hp ha

/-- A symbol derives a letter by a body that is this letter. -/
theorem derives_singleton_iff (h : g.InNormalForm derivesEmpty) {t : TerminalId} :
    g.Derives a [t] ↔ ⟨a, [.terminal t]⟩ ∈ g.productions := by
  rw [derives_iff]
  constructor
  · rintro ⟨body, rule, hw⟩
    cases h.binary_or_empty _ rule with
    | inl binary =>
        obtain ⟨u, rfl⟩ | ⟨b, c, rfl⟩ := binary
        · cases Yields.singleton_terminal_iff.mp hw
          exact rule
        · have long : 2 ≤ 1 := by
            apply h.length_le _ hw
            rintro m hm keeps rfl
            exact h.start_unused keeps _ rule hm
          omega
    | inr start =>
        obtain rfl : body = [] := start.1
        cases Yields.nil_iff.mp hw
  · intro rule
    exact ⟨_, rule, Yields.singleton_terminal_iff.mpr rfl⟩

/-- A symbol derives a longer word by a pair whose parts derive two parts of it. -/
theorem derives_iff_exists_split (h : g.InNormalForm derivesEmpty) (long : 2 ≤ w.length) :
    g.Derives a w ↔
      ∃ k b c, 1 ≤ k ∧ k < w.length ∧ ⟨a, [.nonterminal b, .nonterminal c]⟩ ∈ g.productions ∧
        g.Derives b (w.take k) ∧ g.Derives c (w.drop k) := by
  rw [derives_iff]
  constructor
  · rintro ⟨body, rule, hw⟩
    cases h.binary_or_empty _ rule with
    | inl binary =>
        obtain ⟨u, rfl⟩ | ⟨b, c, rfl⟩ := binary
        · cases Yields.singleton_terminal_iff.mp hw
          exact absurd long (by simp)
        · obtain ⟨u, v, rfl, hu, hv⟩ := Yields.cons_iff.mp hw
          have first : 1 ≤ u.length := h.ne_nil_of_mem_body rule (by simp) hu
          have second : 1 ≤ v.length := h.ne_nil_of_mem_body rule (by simp) hv
          refine ⟨u.length, b, c, first, ?_, rule, ?_, ?_⟩
          · rw [List.length_append]
            omega
          · rwa [List.take_left]
          · rwa [List.drop_left]
    | inr start =>
        obtain rfl : body = [] := start.1
        cases Yields.nil_iff.mp hw
        exact absurd long (by simp)
  · rintro ⟨k, b, c, _, _, rule, hu, hv⟩
    refine ⟨_, rule, Yields.cons_iff.mpr ⟨_, _, ?_, hu, hv⟩⟩
    exact (List.take_append_drop k w).symm

/-- The start symbol derives the empty word exactly if it is to. -/
theorem derives_nil_iff (h : g.InNormalForm derivesEmpty) :
    g.Derives g.start [] ↔ derivesEmpty = true := by
  constructor
  · intro derives
    by_contra drops
    have long : 1 ≤ 0 := h.length_le (fun m _ keeps => absurd keeps drops) derives
    omega
  · intro keeps
    exact derives_iff.mpr ⟨[], h.empty_body keeps, .nil⟩

end Grammar.InNormalForm

namespace Chart

variable {productions : List Production} {a : NonterminalId}

theorem mem_lexicalHeads {t : TerminalId} :
    a ∈ lexicalHeads productions t ↔ ⟨a, [.terminal t]⟩ ∈ productions := by
  rw [lexicalHeads, IdSet.mem_ofList, List.mem_map]
  constructor
  · rintro ⟨p, hp, rfl⟩
    obtain ⟨member, body⟩ := List.mem_filter.mp hp
    rwa [← of_decide_eq_true body]
  · intro member
    exact ⟨_, List.mem_filter.mpr ⟨member, decide_eq_true rfl⟩, rfl⟩

theorem mem_pairRules {r : PairRule} :
    r ∈ productions.filterMap Production.pairRule? ↔
      ⟨r.head, [.nonterminal r.left, .nonterminal r.right]⟩ ∈ productions := by
  rw [List.mem_filterMap]
  constructor
  · rintro ⟨p, hp, found⟩
    unfold Production.pairRule? at found
    split at found
    next b c body =>
      cases found
      rwa [← body]
    next => cases found
  · intro member
    exact ⟨_, member, rfl⟩

/-- Combining adds the heads of the rules whose parts are in the two cells. -/
theorem mem_combine {rules : List PairRule} {left right cell : NonterminalSet} :
    a ∈ combine rules left right cell ↔
      a ∈ cell ∨ ∃ r ∈ rules, r.left ∈ left ∧ r.right ∈ right ∧ r.head = a := by
  unfold combine
  split
  next empty =>
    -- With an empty part there is nothing to add.
    apply (or_iff_left _).symm
    rintro ⟨r, _, hl, hr, _⟩
    rw [Bool.or_eq_true, IdSet.isEmpty_iff, IdSet.isEmpty_iff] at empty
    cases empty with
    | inl none => exact none _ hl
    | inr none => exact none _ hr
  next =>
    apply foldl_iff (fun cell => a ∈ cell)
    intro s r
    split
    next both =>
      rw [Bool.and_eq_true] at both
      rw [IdSet.mem_insert, or_comm, eq_comm]
      exact or_congr_right (by simp [IdSet.mem_iff, both.1, both.2])
    next other =>
      apply (or_iff_left _).symm
      rintro ⟨hl, hr, _⟩
      exact other (Bool.and_eq_true _ _ ▸ ⟨hl, hr⟩)

/-- A rule splits a span of a word of `n` letters after `k` letters, with its parts in the
cells of the two parts of the span. -/
def SplitsAt (rules : List PairRule) (chart : Array NonterminalSet) (n i length k : Nat)
    (a : NonterminalId) : Prop :=
  ∃ r ∈ rules, r.left ∈ chart.getD (cellIndex i k n) ∅ ∧
    r.right ∈ chart.getD (cellIndex (i + k) (length - k) n) ∅ ∧ r.head = a

/-- The cell of a span of several letters holds the heads of all rules that split it. -/
theorem mem_cell {rules : List PairRule} {word : Array TerminalId}
    {chart : Array NonterminalSet} {i length : Nat} (long : length ≠ 1) :
    a ∈ cell productions rules word chart i length ↔
      ∃ k, 1 ≤ k ∧ k < length ∧ SplitsAt rules chart word.size i length k a := by
  have step : ∀ (s : NonterminalSet) (k : Nat),
      a ∈ combine rules (chart.getD (cellIndex i k word.size) ∅)
          (chart.getD (cellIndex (i + k) (length - k) word.size) ∅) s ↔
        a ∈ s ∨ SplitsAt rules chart word.size i length k a := fun _ _ => mem_combine
  rw [cell, if_neg long]
  refine (foldl_iff (fun cell => a ∈ cell) step _ ∅).trans ?_
  rw [or_iff_right (IdSet.not_mem_empty a)]
  refine exists_congr fun k => ?_
  rw [List.mem_range'_1, and_assoc]
  refine and_congr_right fun lower => and_congr_left fun _ => ?_
  omega

theorem getD_push (chart : Array NonterminalSet) (cell : NonterminalSet) (k : Nat) :
    (chart.push cell).getD k ∅ = if k = chart.size then cell else chart.getD k ∅ := by
  rw [Array.getD_eq_getD_getElem?, Array.getElem?_push, Array.getD_eq_getD_getElem?]
  split
  · rfl
  · rfl

variable {g : Grammar} {derivesEmpty : Bool} {word : Word}

/-- A cell holds exactly the symbols that derive its span. -/
def Correct (g : Grammar) (word : Word) (i length : Nat) (cell : NonterminalSet) : Prop :=
  ∀ a, a ∈ cell ↔ g.Derives a ((word.drop i).take length)

/-- The cells of all spans in a list are filled and right. -/
def Filled (g : Grammar) (word : Word) (done : List (Nat × Nat)) (chart : Array NonterminalSet) :
    Prop :=
  chart.size = done.length ∧
    ∀ k i length, done[k]? = some (i, length) → Correct g word i length (chart.getD k ∅)

/-- The cell of a letter is right. -/
theorem correct_cell_one (h : g.InNormalForm derivesEmpty) {i : Nat} (hi : i + 1 ≤ word.length)
    (chart : Array NonterminalSet) :
    Correct g word i 1
      (cell g.productions (g.productions.filterMap Production.pairRule?) word.toArray chart i 1) := by
  intro a
  have letter : (word.drop i).take 1 = [word[i]] := by
    rw [List.drop_eq_getElem_cons hi]
    rfl
  rw [cell, if_pos rfl, List.getElem?_toArray, List.getElem?_eq_getElem hi]
  dsimp only
  rw [letter, mem_lexicalHeads, h.derives_singleton_iff]

/-- The cell of a longer span is right if the cells of all shorter spans are. -/
theorem correct_cell_of_shorter (h : g.InNormalForm derivesEmpty) {i length : Nat}
    (long : 2 ≤ length) (fits : i + length ≤ word.length) {chart : Array NonterminalSet}
    (shorter : ∀ j short, 1 ≤ short → short < length → j + short ≤ word.length →
      Correct g word j short (chart.getD (cellIndex j short word.length) ∅)) :
    Correct g word i length
      (cell g.productions (g.productions.filterMap Production.pairRule?) word.toArray chart i
        length) := by
  intro a
  have span : ((word.drop i).take length).length = length := by
    rw [List.length_take, List.length_drop]
    omega
  have parts : ∀ k, 1 ≤ k → k < length →
      ((word.drop i).take length).take k = (word.drop i).take k ∧
        ((word.drop i).take length).drop k = (word.drop (i + k)).take (length - k) := by
    intro k lower upper
    constructor
    · rw [List.take_take, Nat.min_eq_left (Nat.le_of_lt upper)]
    · rw [List.drop_take, List.drop_drop]
  rw [mem_cell (by omega), h.derives_iff_exists_split (by omega), List.size_toArray]
  constructor
  · rintro ⟨k, lower, upper, r, hr, left, right, rfl⟩
    obtain ⟨first, second⟩ := parts k lower upper
    refine ⟨k, r.left, r.right, lower, by omega, mem_pairRules.mp hr, ?_, ?_⟩
    · rw [first]
      exact (shorter i k lower upper (by omega) _).mp left
    · rw [second]
      exact (shorter (i + k) (length - k) (by omega) (by omega) (by omega) _).mp right
  · rintro ⟨k, b, c, lower, upper, rule, left, right⟩
    rw [span] at upper
    obtain ⟨first, second⟩ := parts k lower upper
    rw [first] at left
    rw [second] at right
    refine ⟨k, lower, upper, ⟨a, b, c⟩, mem_pairRules.mpr rule, ?_, ?_, rfl⟩
    · exact (shorter i k lower upper (by omega) _).mpr left
    · exact (shorter (i + k) (length - k) (by omega) (by omega) (by omega) _).mpr right

/-- Filling one more cell keeps the chart right. -/
theorem Filled.push (h : g.InNormalForm derivesEmpty) {done rest : List (Nat × Nat)}
    {i length : Nat} (order : spans word.length = done ++ (i, length) :: rest)
    {chart : Array NonterminalSet} (filled : Filled g word done chart) :
    Filled g word (done ++ [(i, length)]) (chart.push
      (cell g.productions (g.productions.filterMap Production.pairRule?) word.toArray chart i
        length)) := by
  obtain ⟨size, right⟩ := filled
  obtain ⟨_, _, fits, before⟩ := next_span order
  have shorter : ∀ j short, 1 ≤ short → short < length → j + short ≤ word.length →
      Correct g word j short (chart.getD (cellIndex j short word.length) ∅) := by
    intro j short hlower hshort hfits
    apply right
    have found := getElem?_spans_iff.mpr ⟨rfl, hlower, hfits⟩
    rwa [order, List.getElem?_append_left (before j short hlower hshort hfits)] at found
  refine ⟨by simp [size], ?_⟩
  intro k j short found
  rw [getD_push, size]
  by_cases last : k = done.length
  · obtain ⟨rfl, rfl⟩ : i = j ∧ length = short := by simpa [last] using found
    rw [if_pos last]
    by_cases one : length = 1
    · subst one
      exact correct_cell_one h fits chart
    · exact correct_cell_of_shorter h (by omega) fits shorter
  · have inside : k < done.length := by
      obtain ⟨bound, _⟩ := List.getElem?_eq_some_iff.mp found
      rw [List.length_append, List.length_singleton] at bound
      omega
    rw [List.getElem?_append_left inside] at found
    rw [if_neg last]
    exact right k j short found

/-- Filling the remaining cells in order leaves every cell right. -/
theorem Filled.foldl (h : g.InNormalForm derivesEmpty) {done rest : List (Nat × Nat)}
    (order : spans word.length = done ++ rest) {chart : Array NonterminalSet}
    (filled : Filled g word done chart) :
    Filled g word (spans word.length) (rest.foldl
      (fun chart (i, length) => chart.push
        (cell g.productions (g.productions.filterMap Production.pairRule?) word.toArray chart i
          length)) chart) := by
  induction rest generalizing done chart with
  | nil =>
      rw [List.append_nil] at order
      exact order ▸ filled
  | cons s rest ih =>
      rw [List.foldl_cons]
      refine ih ?_ (filled.push h order)
      rw [order, List.append_assoc]
      rfl

theorem filled_fill (h : g.InNormalForm derivesEmpty) (word : Word) :
    Filled g word (spans word.length) (fill g.productions word.toArray) := by
  have empty : Filled g word [] #[] := ⟨rfl, fun k i length found => by simp at found⟩
  unfold fill
  rw [List.size_toArray]
  exact empty.foldl h (List.nil_append _).symm

end Chart

/-- A word is accepted exactly if the start symbol derives it. -/
theorem Grammar.InNormalForm.accepts_iff {c : NormalForm}
    (h : c.grammar.InNormalForm c.derivesEmpty) (word : Word) :
    c.accepts word = true ↔ c.grammar.Derives c.grammar.start word := by
  cases word with
  | nil => exact h.derives_nil_iff.symm
  | cons t rest =>
      obtain ⟨_, right⟩ := Chart.filled_fill h (t :: rest)
      have whole : (Chart.spans (t :: rest).length)[Chart.cellIndex 0 (t :: rest).length
          (t :: rest).length]? = some (0, (t :: rest).length) :=
        Chart.getElem?_spans_iff.mpr ⟨rfl, by simp, by simp⟩
      have cell := right _ _ _ whole c.grammar.start
      rw [List.drop_zero, List.take_length] at cell
      exact cell

end ContextFree
