import ContextFree.Proofs.Definition
import ContextFree.Proofs.Minting
import ContextFree.Proofs.Normalization
import ContextFree.Session

/-!
# Grammars that can be obtained

A grammar is obtained by defining it and then applying the operations of the library in
any order and with any arguments: the stages, whole normalizations, pruning, adding
nonterminals, and forgetting the stage. Whatever is obtained keeps the promises of its
stage, and of the stage functions only two can ever fail on it.

## Implementation notes

`Staged.Lawful` is what each operation preserves. `Staged.Guarantees` is what follows for
a single value; it also says which stage functions can fail.
-/

namespace ContextFree

/-- The values that the operations of the library produce from defined grammars. -/
inductive Obtained : Staged → Prop where
  | load {specification : Specification} {g : Grammar} :
      specification.load = .ok g → Obtained (.grammar g)
  | eliminateEpsilon {g : Grammar} {droppable : NonterminalSet} {e : EpsilonFree} :
      Obtained (.grammar g) → g.eliminateEpsilon droppable = .ok e → Obtained (.epsilonFree e)
  | eliminateUnits {e : EpsilonFree} {u : UnitFree} :
      Obtained (.epsilonFree e) → e.eliminateUnits = .ok u → Obtained (.unitFree u)
  | filterProductive {u : UnitFree} {p : Productive} :
      Obtained (.unitFree u) → u.filterProductive = .ok p → Obtained (.productive p)
  | filterReachable {p : Productive} {r : Reachable} :
      Obtained (.productive p) → p.filterReachable = .ok r → Obtained (.reachable r)
  | normalForm {r : Reachable} {derivesEmpty : Bool} {c : NormalForm} :
      Obtained (.reachable r) → r.normalForm derivesEmpty = .ok c → Obtained (.normalForm c)
  /-- A value of any stage can be used as a plain grammar. -/
  | release {s : Staged} : Obtained s → Obtained (.grammar s.toGrammar)
  | normalize {g : Grammar} {policy : EmptyWord} {c : NormalForm} :
      Obtained (.grammar g) → g.normalize policy = .ok c → Obtained (.normalForm c)
  | retainProductive {g pruned : Grammar} :
      Obtained (.grammar g) → g.retainProductive = .ok pruned → Obtained (.grammar pruned)
  | retainReachable {g pruned : Grammar} :
      Obtained (.grammar g) → g.retainReachable = .ok pruned → Obtained (.grammar pruned)
  | mint {g extended : Grammar} {supply rest : FreshSupply} {kind : FreshKind}
      {id : NonterminalId} :
      Obtained (.grammar g) → supply.mint g kind = .ok (id, extended, rest) →
      Obtained (.grammar extended)

/-- What the operations preserve at each stage. -/
def Staged.Lawful : Staged → Prop
  | .grammar g => g.WellFormed
  | .epsilonFree e => e.grammar.WellFormed ∧ e.grammar.NoEmptyBody
  | .unitFree u => u.grammar.Proper
  | .productive p => p.grammar.Proper ∧ p.grammar.AllProductive
  | .reachable r => r.grammar.Proper ∧ r.grammar.AllProductive ∧ r.grammar.AllReachable
  | .normalForm c => c.grammar.WellFormed ∧ c.grammar.InNormalForm c.derivesEmpty

open NormalForm

section Steps

variable {g : Grammar}

theorem Staged.Lawful.wellFormed {s : Staged} (h : s.Lawful) : s.toGrammar.WellFormed := by
  cases s with
  | grammar g => exact h
  | epsilonFree e => exact h.1
  | unitFree u => exact Grammar.Proper.wellFormed h
  | productive p => exact h.1.wellFormed
  | reachable r => exact h.1.wellFormed
  | normalForm c => exact h.1

theorem Grammar.Proper.lawful_filterProductive (h : g.Proper) {p : Productive}
    (ok : UnitFree.filterProductive ⟨g⟩ = .ok p) : Staged.Lawful (.productive p) := by
  rw [h.wellFormed.filterProductive] at ok
  split at ok
  next productive =>
    cases ok
    exact ⟨h.restrictTo productive, Grammar.allProductive_restrictTo_productiveSet⟩
  next => cases ok

theorem Grammar.Proper.lawful_filterReachable (h : g.Proper) (all : g.AllProductive)
    {r : Reachable} (ok : Productive.filterReachable ⟨g⟩ = .ok r) :
    Staged.Lawful (.reachable r) := by
  have heads := h.wellFormed.grouped.heads_nodup
  rw [h.wellFormed.filterReachable] at ok
  cases ok
  refine ⟨h.restrictTo (Grammar.start_mem_reachableSet heads), ?_, ?_⟩
  · exact all.restrictTo_reachableSet heads
  · exact Grammar.allReachable_restrictTo_reachableSet heads

/-- A successful last stage has the planned result, and there were enough numbers. -/
theorem Grammar.Proper.eq_paired (h : g.Proper) {derivesEmpty : Bool} {c : NormalForm}
    (ok : Reachable.normalForm ⟨g⟩ derivesEmpty = .ok c) :
    c = ⟨g.paired derivesEmpty, derivesEmpty⟩ ∧
      g.nextNonterminal + (freshKinds g.productions derivesEmpty).length ≤ idLimit := by
  rw [h.wellFormed.normalForm h.noEmptyBody h.noUnitBody] at ok
  split at ok
  next room => exact ⟨(Except.ok.inj ok).symm, room⟩
  next => cases ok

theorem Grammar.Proper.lawful_normalForm (h : g.Proper) {derivesEmpty : Bool} {c : NormalForm}
    (ok : Reachable.normalForm ⟨g⟩ derivesEmpty = .ok c) : Staged.Lawful (.normalForm c) := by
  obtain ⟨rfl, room⟩ := h.eq_paired ok
  exact ⟨h.wellFormed.paired room,
    h.wellFormed.inNormalForm_paired h.noEmptyBody h.noUnitBody derivesEmpty⟩

/-- A successful normalization ends with a successful last stage. -/
theorem Grammar.WellFormed.normalForm_of_normalize (h : g.WellFormed) {policy : EmptyWord}
    {c : NormalForm} (ok : g.normalize policy = .ok c) :
    g.start ∈ g.withoutUnits.productiveSet ∧
      Reachable.normalForm ⟨g.usefulPart⟩ (g.keepsEmptyWord policy) = .ok c := by
  by_cases productive : g.start ∈ g.withoutUnits.productiveSet
  · have proper := h.proper_usefulPart productive
    rw [h.normalize_eq, if_pos productive] at ok
    rw [proper.wellFormed.normalForm proper.noEmptyBody proper.noUnitBody]
    exact ⟨productive, ok⟩
  · rw [h.normalize_eq, if_neg productive] at ok
    cases ok

end Steps

/-- Whatever is obtained keeps the promises of its stage. -/
theorem Obtained.lawful {s : Staged} (h : Obtained s) : s.Lawful := by
  induction h with
  | load ok => exact Specification.load_wellFormed ok
  | @eliminateEpsilon g droppable e _ ok ih =>
      have wellFormed : g.WellFormed := ih
      rw [wellFormed.eliminateEpsilon] at ok
      cases ok
      exact ⟨wellFormed.expandFamilies droppable, Grammar.noEmptyBody_expandFamilies⟩
  | @eliminateUnits e u _ ok ih =>
      have ok' := ih.1.eliminateUnits ih.2
      cases ok.symm.trans ok'
      exact ih.1.proper_inlineUnits ih.2
  | filterProductive _ ok ih => exact Grammar.Proper.lawful_filterProductive ih ok
  | filterReachable _ ok ih => exact ih.1.lawful_filterReachable ih.2 ok
  | normalForm _ ok ih => exact ih.1.lawful_normalForm ok
  | release _ ih => exact ih.wellFormed
  | @normalize g policy c _ ok ih =>
      have wellFormed : g.WellFormed := ih
      obtain ⟨productive, last⟩ := wellFormed.normalForm_of_normalize ok
      exact (wellFormed.proper_usefulPart productive).lawful_normalForm last
  | @retainProductive g pruned _ ok ih =>
      rw [Grammar.retainProductive_eq] at ok
      split at ok
      next productive =>
        cases ok
        exact Grammar.WellFormed.restrictTo ih productive
      next => cases ok
  | @retainReachable g pruned _ ok ih =>
      have wellFormed : g.WellFormed := ih
      rw [wellFormed.retainReachable] at ok
      cases ok
      exact wellFormed.restrictTo (Grammar.start_mem_reachableSet wellFormed.grouped.heads_nodup)
  | @mint g extended supply rest kind id _ ok ih =>
      exact Grammar.WellFormed.mint? ih (FreshSupply.mint?_of_mint ok)

theorem Obtained.mintAll {supply rest : FreshSupply} {kinds : List FreshKind}
    {g extended : Grammar} (h : Obtained (.grammar g))
    (ok : supply.mintAll g kinds = .ok (extended, rest)) : Obtained (.grammar extended) := by
  induction kinds generalizing supply g with
  | nil =>
      cases ok
      exact h
  | cons kind kinds ih =>
      rw [FreshSupply.mintAll] at ok
      split at ok
      next minted => exact ih (h.mint minted) ok
      next => cases ok

/-- Nonterminals that were added and pruned again leave their numbers used. -/
theorem Obtained.useUp {g : Grammar} (h : Obtained (.grammar g)) {count : Nat}
    (room : g.nextNonterminal + count ≤ idLimit) :
    Obtained (.grammar
      { g.restrictTo g.reachableSet with nextNonterminal := g.nextNonterminal + count }) := by
  have wellFormed : g.WellFormed := h.lawful
  have minted := FreshSupply.mintAll_eq (s := .new) (Nat.zero_le _) wellFormed.next_le
    (List.replicate count .chain)
  rw [List.length_replicate, if_pos room] at minted
  have grown := h.mintAll minted
  have large : (g.withFresh FreshSupply.new.serial (List.replicate count .chain)).WellFormed :=
    grown.lawful
  have pruned := grown.retainReachable large.retainReachable
  have old : ∀ n ∈ g.reachableSet, n.index < g.nextNonterminal :=
    fun _ => wellFormed.index_lt_of_mem_reachableSet
  have same := Grammar.restrictTo_withFresh old FreshSupply.new.serial
    (List.replicate count .chain)
  rw [List.length_replicate] at same
  exact same ▸ pruned

/-- The useful part of an obtained grammar is obtained. -/
theorem Obtained.usefulPart {g : Grammar} (h : Obtained (.grammar g))
    (productive : g.start ∈ g.withoutUnits.productiveSet) :
    Obtained (.reachable ⟨g.usefulPart⟩) := by
  have wellFormed : g.WellFormed := h.lawful
  have filtered := wellFormed.proper_withoutUnits.wellFormed.filterProductive
  rw [if_pos (show g.withoutUnits.start ∈ g.withoutUnits.productiveSet from productive)] at filtered
  apply Obtained.filterReachable (p := ⟨g.productivePart⟩)
  · apply Obtained.filterProductive (u := ⟨g.withoutUnits⟩)
    · apply Obtained.eliminateUnits (e := ⟨g.withoutEmptyBodies⟩)
      · exact h.eliminateEpsilon (wellFormed.eliminateEpsilon g.nullables)
      · exact (wellFormed.expandFamilies g.nullables).eliminateUnits
          Grammar.noEmptyBody_expandFamilies
    · exact filtered
  · exact (wellFormed.proper_productivePart productive).wellFormed.filterReachable

/-- A successful normalization has reduced the grammar and has brought the result into normal
form, for which there were enough numbers. -/
theorem Obtained.eq_paired_of_normalize {g : Grammar} {policy : EmptyWord} {c : NormalForm}
    (h : Obtained (.grammar g)) (ok : g.normalize policy = .ok c) :
    c = ⟨g.usefulPart.paired (g.keepsEmptyWord policy), g.keepsEmptyWord policy⟩ ∧
      Obtained (.reachable ⟨g.usefulPart⟩) ∧
      g.usefulPart.nextNonterminal +
        (freshKinds g.usefulPart.productions (g.keepsEmptyWord policy)).length ≤ idLimit := by
  have wellFormed : g.WellFormed := h.lawful
  obtain ⟨productive, last⟩ := wellFormed.normalForm_of_normalize ok
  obtain ⟨same, room⟩ := (wellFormed.proper_usefulPart productive).eq_paired last
  exact ⟨same, h.usefulPart productive, room⟩

/-- Every normal form is the result of the last stage. -/
theorem Obtained.exists_reachable {c : NormalForm} (h : Obtained (.normalForm c)) :
    ∃ r, Obtained (.reachable r) ∧ r.normalForm c.derivesEmpty = .ok c := by
  cases h with
  | @normalForm r derivesEmpty _ hr ok =>
      have proper : r.grammar.Proper := hr.lawful.1
      obtain ⟨rfl, _⟩ := proper.eq_paired ok
      exact ⟨r, hr, ok⟩
  | @normalize g policy _ hg ok =>
      have wellFormed : g.WellFormed := hg.lawful
      obtain ⟨productive, last⟩ := wellFormed.normalForm_of_normalize ok
      obtain ⟨rfl, _⟩ := (wellFormed.proper_usefulPart productive).eq_paired last
      exact ⟨_, hg.usefulPart productive, last⟩

/-- What a single value guarantees at each stage, and how the next stage can fail. -/
def Staged.Guarantees : Staged → Prop
  | .grammar g => ∀ droppable, ∃ e, g.eliminateEpsilon droppable = .ok e
  | .epsilonFree e => e.grammar.NoEmptyBody ∧ ∃ u, e.eliminateUnits = .ok u
  | .unitFree u =>
      u.grammar.NoEmptyBody ∧ u.grammar.NoUnitBody ∧
        ((∃ p, u.filterProductive = .ok p) ∨ u.filterProductive = .error
          (.invariant .productiveFilter (.unproductiveStart u.grammar.startText)))
  | .productive p =>
      p.grammar.NoEmptyBody ∧ p.grammar.NoUnitBody ∧ p.grammar.AllProductive ∧
        ∃ r, p.filterReachable = .ok r
  | .reachable r =>
      r.grammar.NoEmptyBody ∧ r.grammar.NoUnitBody ∧ r.grammar.AllProductive ∧
        r.grammar.AllReachable ∧
        ∀ derivesEmpty, (∃ c, r.normalForm derivesEmpty = .ok c) ∨
          r.normalForm derivesEmpty = .error (.freshSymbolsExhausted .normalization)
  | .normalForm c =>
      c.derivesEmpty = true →
        -- The start symbol was added by the last stage, under a number never used before.
        (∃ r serial, Obtained (.reachable r) ∧ r.normalForm true = .ok c ∧
          r.grammar.nextNonterminal ≤ c.grammar.start.index ∧
          ⟨c.grammar.start, .fresh .start serial⟩ ∈ c.grammar.nonterminals) ∧
        -- Its empty body is the only one.
        (∀ head, ⟨head, []⟩ ∈ c.grammar.productions ↔ head = c.grammar.start) ∧
        ∀ p ∈ c.grammar.productions, .nonterminal c.grammar.start ∉ p.body

/-- The start symbol of a normal form that derives the empty word. -/
theorem Obtained.guarantees_normalForm {c : NormalForm} (h : Obtained (.normalForm c)) :
    Staged.Guarantees (.normalForm c) := by
  intro keeps
  obtain ⟨r, hr, last⟩ := h.exists_reachable
  have proper : r.grammar.Proper := hr.lawful.1
  obtain ⟨same, _⟩ := proper.eq_paired last
  obtain ⟨_, form⟩ := h.lawful
  rw [keeps] at last same
  have start : c.grammar.start = r.grammar.emptyStart := by
    rw [same]
    exact Grammar.start_paired_true
  refine ⟨⟨r, freshCount r.grammar.productions + 1, hr, last, ?_, ?_⟩, ?_, form.start_unused keeps⟩
  · rw [start]
    exact Nat.le_add_right _ _
  · rw [start, same]
    exact Grammar.emptyStart_mem_nonterminals
  · intro head
    constructor
    · intro rule
      cases form.binary_or_empty _ rule with
      | inl binary =>
          obtain ⟨t, single⟩ | ⟨b, d, pair⟩ := binary
          · cases single
          · cases pair
      | inr empty => exact empty.2.1
    · intro here
      rw [here]
      exact form.empty_body keeps

/-- Palindromes of even length over two letters, with a cycle of unit productions. -/
def evenPalindromes : Grammar where
  terminals := [⟨⟨0⟩, "a"⟩, ⟨⟨1⟩, "b"⟩]
  nonterminals := [⟨⟨0⟩, .declared "S"⟩, ⟨⟨1⟩, .declared "P"⟩, ⟨⟨2⟩, .declared "Q"⟩]
  families :=
    [ ⟨⟨0⟩, [[.nonterminal ⟨1⟩]]⟩,
      ⟨⟨1⟩, [[.nonterminal ⟨2⟩]]⟩,
      ⟨⟨2⟩, [[.nonterminal ⟨0⟩], [.terminal ⟨0⟩, .nonterminal ⟨1⟩, .terminal ⟨0⟩],
        [.terminal ⟨1⟩, .nonterminal ⟨1⟩, .terminal ⟨1⟩], []]⟩ ]
  start := ⟨0⟩
  nextNonterminal := 3

theorem obtained_evenPalindromes : Obtained (.grammar evenPalindromes) :=
  .load (show (Specification.catalog .palindromes).load = .ok evenPalindromes by decide +kernel)

/-- The reachable part of the palindromes after numbers up to this one were used. -/
def crowdedPalindromes (next : Nat) : Grammar :=
  { evenPalindromes.restrictTo evenPalindromes.reachableSet with nextNonterminal := next }

theorem obtained_crowdedPalindromes {next : Nat} (old : 3 ≤ next) (room : next ≤ idLimit) :
    Obtained (.grammar (crowdedPalindromes next)) := by
  obtain ⟨count, rfl⟩ := Nat.exists_eq_add_of_le old
  exact obtained_evenPalindromes.useUp room

/-- Typed stages mean what they say, and only two of the stage functions can fail: the
removal of unproductive symbols, if the start symbol is one of them, and the last stage,
if the numbers run out. -/
theorem Obtained.guarantees {s : Staged} (h : Obtained s) : s.Guarantees := by
  have lawful := h.lawful
  cases s with
  | grammar g =>
      intro droppable
      exact ⟨_, Grammar.WellFormed.eliminateEpsilon lawful droppable⟩
  | epsilonFree e => exact ⟨lawful.2, _, lawful.1.eliminateUnits lawful.2⟩
  | unitFree u =>
      have proper : u.grammar.Proper := lawful
      refine ⟨proper.noEmptyBody, proper.noUnitBody, ?_⟩
      have filtered := proper.wellFormed.filterProductive
      split at filtered
      next => exact Or.inl ⟨_, filtered⟩
      next => exact Or.inr filtered
  | productive p =>
      obtain ⟨proper, all⟩ := lawful
      exact ⟨proper.noEmptyBody, proper.noUnitBody, all, _, proper.wellFormed.filterReachable⟩
  | reachable r =>
      obtain ⟨proper, all, reached⟩ := lawful
      refine ⟨proper.noEmptyBody, proper.noUnitBody, all, reached, ?_⟩
      intro derivesEmpty
      have last := proper.wellFormed.normalForm proper.noEmptyBody proper.noUnitBody derivesEmpty
      split at last
      next => exact Or.inl ⟨_, last⟩
      next => exact Or.inr last
  | normalForm c => exact h.guarantees_normalForm

/-- The palindromes keep the empty word by a start symbol with the number 9. -/
theorem evenPalindromes_guarantees :
    let r : Reachable := ⟨evenPalindromes.usefulPart⟩
    let c : NormalForm := ⟨evenPalindromes.usefulPart.paired true, true⟩
    Obtained (.reachable r) ∧ r.grammar.AllProductive ∧ r.grammar.AllReachable ∧
      Obtained (.normalForm c) ∧ c.grammar.start = ⟨9⟩ ∧
      (∀ head, ⟨head, []⟩ ∈ c.grammar.productions ↔ head = ⟨9⟩) ∧
      ∀ p ∈ c.grammar.productions, .nonterminal ⟨9⟩ ∉ p.body := by
  intro r c
  have reduced : Obtained (.reachable r) :=
    obtained_evenPalindromes.usefulPart (by decide +kernel)
  have last : r.normalForm true = .ok c := by decide +kernel
  have obtained : Obtained (.normalForm c) := reduced.normalForm last
  have start : c.grammar.start = ⟨9⟩ := by decide +kernel
  obtain ⟨_, _, productive, reachable, _⟩ := reduced.guarantees
  obtain ⟨_, empty, unused⟩ := obtained.guarantees rfl
  rw [start] at empty unused
  exact ⟨reduced, productive, reachable, obtained, start, empty, unused⟩

end ContextFree
