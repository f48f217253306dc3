import ContextFree.Proofs.Obtained
import ContextFree.Proofs.Recognition.Chart
import Mathlib.Data.List.Dedup
import Mathlib.Data.List.Perm.Basic

/-!
# What a normalization does to the language, and how it ends

For every grammar that can be obtained: the normal form accepts the words that the
grammar derives, except that the empty word is accepted only if it is to be preserved.
A run fails if the start symbol derives no nonempty word, or else if the last stage needs
more numbers than there are left, and in no other way. The stages before a failure have
been reached, in their order. A grammar of the empty word alone therefore fails, even if the
empty word is to be preserved.
-/

namespace ContextFree

open NormalForm

/-- All stages in the order of a run. -/
def Stage.order : List Stage :=
  [ .input, .epsilonElimination, .unitElimination, .productiveFilter, .reachabilityFilter,
    .normalization ]

namespace Grammar

/-- How many nonterminals the last stage adds: one for each terminal that occurs in a body
of two or more symbols, one for each symbol of a body beyond the second, and a start
symbol if the empty word is kept. -/
def demand (g : Grammar) (derivesEmpty : Bool) : Nat :=
  ((g.productions.filter fun p => 2 ≤ p.body.length).flatMap fun p =>
      p.body.filterMap Symbol.terminal?).dedup.length +
    (g.productions.map fun p => p.body.length - 2).sum + derivesEmpty.toNat

theorem length_distinct (as : List TerminalId) : (distinct as).length = as.dedup.length := by
  apply List.Perm.length_eq
  apply (List.perm_ext_iff_of_nodup (nodup_distinct as) (List.nodup_dedup as)).mpr
  intro a
  rw [mem_distinct, List.mem_dedup]

theorem length_freshKinds_eq_demand (g : Grammar) (derivesEmpty : Bool) :
    (freshKinds g.productions derivesEmpty).length = g.demand derivesEmpty := by
  rw [length_freshKinds, freshCount, proxied, length_distinct]
  cases derivesEmpty with
  | false => rfl
  | true => rfl

/-- The grammars that a run hands over, and its outcome. Each grammar is what its stage makes of
the one before, and the last stands before the first stage that fails. -/
inductive HandsOver (g : Grammar) (derivesEmpty : Bool) :
    List (Stage × Grammar) → Except NormalizeError NormalForm → Prop where
  | unproductive {e : EpsilonFree} {u : UnitFree} {failure : NormalizeError} :
      g.eliminateEpsilon g.nullables = .ok e → e.eliminateUnits = .ok u →
      u.filterProductive = .error failure →
      g.HandsOver derivesEmpty
        [ (.input, g), (.epsilonElimination, e.grammar), (.unitElimination, u.grammar) ]
        (.error failure)
  | exhausted {e : EpsilonFree} {u : UnitFree} {p : Productive} {r : Reachable}
      {failure : NormalizeError} :
      g.eliminateEpsilon g.nullables = .ok e → e.eliminateUnits = .ok u →
      u.filterProductive = .ok p → p.filterReachable = .ok r →
      r.normalForm derivesEmpty = .error failure →
      g.HandsOver derivesEmpty
        [ (.input, g), (.epsilonElimination, e.grammar), (.unitElimination, u.grammar),
          (.productiveFilter, p.grammar), (.reachabilityFilter, r.grammar) ]
        (.error failure)
  | complete {e : EpsilonFree} {u : UnitFree} {p : Productive} {r : Reachable} {c : NormalForm} :
      g.eliminateEpsilon g.nullables = .ok e → e.eliminateUnits = .ok u →
      u.filterProductive = .ok p → p.filterReachable = .ok r →
      r.normalForm derivesEmpty = .ok c →
      g.HandsOver derivesEmpty
        [ (.input, g), (.epsilonElimination, e.grammar), (.unitElimination, u.grammar),
          (.productiveFilter, p.grammar), (.reachabilityFilter, r.grammar),
          (.normalization, c.grammar) ]
        (.ok c)

section Outcome

variable {g : Grammar}

/-- Without a nonempty word the run fails at the removal of unproductive symbols. -/
theorem WellFormed.normalize_of_not_exists (h : g.WellFormed)
    (none : ¬ ∃ w, w ≠ [] ∧ g.Derives g.start w) (policy : EmptyWord) :
    g.normalize policy = .error g.startFailure := by
  rw [← h.start_mem_productiveSet_iff] at none
  rw [h.normalize_eq, if_neg none]

/-- With a nonempty word the run fails only if the last stage needs too many numbers. -/
theorem WellFormed.normalize_of_exists (h : g.WellFormed)
    (some : ∃ w, w ≠ [] ∧ g.Derives g.start w) (policy : EmptyWord) :
    g.normalize policy =
      if g.usefulPart.demand (g.keepsEmptyWord policy) ≤ idLimit - g.nextNonterminal then
        .ok ⟨g.usefulPart.paired (g.keepsEmptyWord policy), g.keepsEmptyWord policy⟩
      else .error (.freshSymbolsExhausted .normalization) := by
  have left := h.next_le
  have room : g.usefulPart.nextNonterminal +
      (freshKinds g.usefulPart.productions (g.keepsEmptyWord policy)).length ≤ idLimit ↔
      g.usefulPart.demand (g.keepsEmptyWord policy) ≤ idLimit - g.nextNonterminal := by
    rw [length_freshKinds_eq_demand, nextNonterminal_usefulPart]
    omega
  rw [← h.start_mem_productiveSet_iff] at some
  rw [h.normalize_eq, if_pos some]
  exact if_congr room rfl rfl

theorem WellFormed.reachable_of_exists (h : g.WellFormed)
    (some : ∃ w, w ≠ [] ∧ g.Derives g.start w) (policy : EmptyWord) :
    (g.normalization policy).reachable = .ok ⟨g.usefulPart⟩ := by
  rw [← h.start_mem_productiveSet_iff] at some
  rw [h.normalization_reachable, if_pos some]

/-- The stages that a run has reached are those before its failure. -/
theorem WellFormed.map_fst_stages (h : g.WellFormed) (policy : EmptyWord) :
    (g.normalization policy).stages.map Prod.fst =
      match g.normalize policy with
      | .ok _ => Stage.order
      | .error e => Stage.order.takeWhile fun stage => stage ≠ e.stage := by
  have last : (g.normalization policy).normalForm = g.normalize policy := rfl
  rw [Normalization.stages, last, h.normalization_input, h.normalization_epsilonFree,
    h.normalization_unitFree, h.normalization_productive, h.normalization_reachable]
  by_cases productive : g.start ∈ g.withoutUnits.productiveSet
  · rw [if_pos productive, if_pos productive]
    rw [h.normalize_eq, if_pos productive]
    split
    next => rfl
    next => rfl
  · rw [if_neg productive, if_neg productive, h.normalize_eq, if_neg productive]
    rfl

/-- Every stage starts from the grammar that the stage before it has handed over. -/
theorem WellFormed.handsOver (h : g.WellFormed) (policy : EmptyWord) :
    g.HandsOver (g.keepsEmptyWord policy) (g.normalization policy).stages (g.normalize policy) := by
  have last : (g.normalization policy).normalForm = g.normalize policy := rfl
  have epsilonFree := h.eliminateEpsilon g.nullables
  have unitFree := (h.expandFamilies g.nullables).eliminateUnits noEmptyBody_expandFamilies
  have filtered := h.proper_withoutUnits.wellFormed.filterProductive
  rw [Normalization.stages, last, h.normalization_input, h.normalization_epsilonFree,
    h.normalization_unitFree, h.normalization_productive, h.normalization_reachable]
  by_cases productive : g.start ∈ g.withoutUnits.productiveSet
  · have proper := h.proper_productivePart productive
    have normalized : g.normalize policy =
        Reachable.normalForm ⟨g.usefulPart⟩ (g.keepsEmptyWord policy) :=
      h.normalize_eq_normalForm productive
    have start : g.withoutUnits.start ∈ g.withoutUnits.productiveSet := productive
    rw [if_pos start] at filtered
    rw [if_pos productive, if_pos productive]
    cases outcome : g.normalize policy with
    | error failure =>
        exact .exhausted epsilonFree unitFree filtered proper.wellFormed.filterReachable
          (normalized.symm.trans outcome)
    | ok c =>
        exact .complete epsilonFree unitFree filtered proper.wellFormed.filterReachable
          (normalized.symm.trans outcome)
  · have start : g.withoutUnits.start ∉ g.withoutUnits.productiveSet := productive
    rw [if_neg start] at filtered
    rw [if_neg productive, if_neg productive, h.normalize_eq, if_neg productive]
    exact .unproductive epsilonFree unitFree filtered

end Outcome

end Grammar

/-- Normalization preserves the language. The empty word stays only if it is to be
preserved. -/
theorem Obtained.normalize_preserves_language {g : Grammar} {policy : EmptyWord} {c : NormalForm}
    (h : Obtained (.grammar g)) (ok : g.normalize policy = .ok c) (w : Word) :
    (c.accepts w = true ↔
      (w ≠ [] ∧ g.Derives g.start w) ∨ (w = [] ∧ policy = .preserve ∧ g.Derives g.start [])) ∧
    (c.derivesEmpty = true ↔ policy = .preserve ∧ g.Derives g.start []) := by
  have wellFormed : g.WellFormed := h.lawful
  obtain ⟨productive, last⟩ := wellFormed.normalForm_of_normalize ok
  have proper := wellFormed.proper_usefulPart productive
  obtain ⟨rfl, _⟩ := proper.eq_paired last
  have form := proper.wellFormed.inNormalForm_paired proper.noEmptyBody proper.noUnitBody
    (g.keepsEmptyWord policy)
  refine ⟨?_, Grammar.keepsEmptyWord_iff⟩
  calc
    _ ↔ (g.usefulPart.paired (g.keepsEmptyWord policy)).Derives
          (g.usefulPart.paired (g.keepsEmptyWord policy)).start w :=
      Grammar.InNormalForm.accepts_iff form w
    _ ↔ (g.keepsEmptyWord policy = true ∧ w = []) ∨ g.usefulPart.Derives g.start w :=
      proper.wellFormed.derives_start_paired_iff
    _ ↔ (w ≠ [] ∧ g.Derives g.start w) ∨ (w = [] ∧ g.keepsEmptyWord policy = true) := by
      rw [wellFormed.derives_start_usefulPart_iff productive, or_comm,
        and_comm (a := g.keepsEmptyWord policy = true)]
    _ ↔ _ := by rw [Grammar.keepsEmptyWord_iff]

/-- The palindrome `abba` is derived and the word `ab` is not, as the normal form tells. -/
theorem evenPalindromes_preserves_language :
    evenPalindromes.normalize .preserve =
        .ok ⟨evenPalindromes.usefulPart.paired true, true⟩ ∧
      evenPalindromes.Derives evenPalindromes.start [⟨0⟩, ⟨1⟩, ⟨1⟩, ⟨0⟩] ∧
      ¬ evenPalindromes.Derives evenPalindromes.start [⟨0⟩, ⟨1⟩] ∧
      evenPalindromes.Derives evenPalindromes.start [] := by
  have ok : evenPalindromes.normalize .preserve =
      .ok ⟨evenPalindromes.usefulPart.paired true, true⟩ := by decide +kernel
  have language := obtained_evenPalindromes.normalize_preserves_language ok
  refine ⟨ok, ?_, ?_, ?_⟩
  · have accepted := (language [⟨0⟩, ⟨1⟩, ⟨1⟩, ⟨0⟩]).1.mp (by decide +kernel)
    simpa using accepted
  · have rejected := mt (language [⟨0⟩, ⟨1⟩]).1.mpr (by decide +kernel)
    simpa using rejected
  · exact ((language []).2.mp rfl).2

/-- The recognizer decides what a normal form derives, however it was obtained. -/
theorem Obtained.accepts_iff_derives {c : NormalForm} (h : Obtained (.normalForm c)) (w : Word) :
    (c.accepts w = true ↔ c.grammar.Derives c.grammar.start w) ∧
      (c.grammar.Derives c.grammar.start [] ↔ c.derivesEmpty = true) := by
  obtain ⟨_, form⟩ := h.lawful
  exact ⟨form.accepts_iff w, form.derives_nil_iff⟩

/-- The normal form without the empty word derives `aa` and no longer the empty word. -/
theorem evenPalindromes_accepts_iff_derives :
    let c : NormalForm := ⟨evenPalindromes.usefulPart.paired false, false⟩
    Obtained (.normalForm c) ∧ c.grammar.Derives c.grammar.start [⟨0⟩, ⟨0⟩] ∧
      ¬ c.grammar.Derives c.grammar.start [⟨0⟩] ∧ ¬ c.grammar.Derives c.grammar.start [] := by
  intro c
  have ok : Reachable.normalForm ⟨evenPalindromes.usefulPart⟩ false = .ok c := by decide +kernel
  have obtained : Obtained (.normalForm c) :=
    (obtained_evenPalindromes.usefulPart (by decide +kernel)).normalForm ok
  have decides := obtained.accepts_iff_derives
  refine ⟨obtained, ?_, ?_, ?_⟩
  · exact (decides [⟨0⟩, ⟨0⟩]).1.mp (by decide +kernel)
  · exact mt (decides [⟨0⟩]).1.mpr (by decide +kernel)
  · exact mt (decides []).2.mp (by decide)

/-- How a run ends. It fails at the removal of unproductive symbols exactly if the start
symbol derives no nonempty word; otherwise it fails exactly if the last stage needs more
numbers than there are left; there is no other failure. The stages before a failure have
been reached, in their order, and each has handed over what it makes of the grammar before. -/
theorem Obtained.normalization_outcome {g : Grammar} (h : Obtained (.grammar g))
    (policy : EmptyWord) :
    (g.normalize policy =
        .error (.invariant .productiveFilter (.unproductiveStart g.startText)) ↔
      ¬ ∃ w, w ≠ [] ∧ g.Derives g.start w) ∧
    ((∃ w, w ≠ [] ∧ g.Derives g.start w) → ∃ r derivesEmpty,
      (g.normalization policy).reachable = .ok r ∧
      (derivesEmpty = true ↔ policy = .preserve ∧ g.Derives g.start []) ∧
      (g.normalize policy = .error (.freshSymbolsExhausted .normalization) ↔
        idLimit - r.grammar.nextNonterminal < r.grammar.demand derivesEmpty) ∧
      ((∃ c, g.normalize policy = .ok c) ↔
        r.grammar.demand derivesEmpty ≤ idLimit - r.grammar.nextNonterminal)) ∧
    (∀ e, g.normalize policy = .error e →
      e = .invariant .productiveFilter (.unproductiveStart g.startText) ∨
        e = .freshSymbolsExhausted .normalization) ∧
    ((g.normalization policy).stages.map Prod.fst =
      match g.normalize policy with
      | .ok _ => Stage.order
      | .error e => Stage.order.takeWhile fun stage => stage ≠ e.stage) ∧
    ∃ derivesEmpty, (derivesEmpty = true ↔ policy = .preserve ∧ g.Derives g.start []) ∧
      g.HandsOver derivesEmpty (g.normalization policy).stages (g.normalize policy) := by
  have wellFormed : g.WellFormed := h.lawful
  have labels := wellFormed.map_fst_stages policy
  have handed : ∃ derivesEmpty,
      (derivesEmpty = true ↔ policy = .preserve ∧ g.Derives g.start []) ∧
        g.HandsOver derivesEmpty (g.normalization policy).stages (g.normalize policy) :=
    ⟨_, Grammar.keepsEmptyWord_iff, wellFormed.handsOver policy⟩
  by_cases words : ∃ w, w ≠ [] ∧ g.Derives g.start w
  · have outcome := wellFormed.normalize_of_exists words policy
    have reachable := wellFormed.reachable_of_exists words policy
    by_cases fits : g.usefulPart.demand (g.keepsEmptyWord policy) ≤ idLimit - g.nextNonterminal
    · rw [if_pos fits] at outcome
      refine ⟨iff_of_false (by simp [outcome]) (not_not_intro words), ?_, by simp [outcome],
        labels, handed⟩
      intro _
      refine ⟨_, _, reachable, Grammar.keepsEmptyWord_iff, ?_, ?_⟩
      · exact iff_of_false (by simp [outcome]) (Nat.not_lt.mpr fits)
      · exact iff_of_true ⟨_, outcome⟩ fits
    · rw [if_neg fits] at outcome
      refine ⟨iff_of_false (by simp [outcome]) (not_not_intro words), ?_, ?_, labels, handed⟩
      · intro _
        refine ⟨_, _, reachable, Grammar.keepsEmptyWord_iff, ?_, ?_⟩
        · exact iff_of_true outcome (Nat.lt_of_not_le fits)
        · exact iff_of_false (by simp [outcome]) fits
      · intro e failed
        exact Or.inr (Except.error.inj (failed.symm.trans outcome))
  · have outcome := wellFormed.normalize_of_not_exists words policy
    refine ⟨iff_of_true outcome words, fun some => absurd some words, ?_, labels, handed⟩
    intro e failed
    exact Or.inl (Except.error.inj (failed.symm.trans outcome))

/-- A grammar whose only word is the empty word. -/
def emptyWordOnly : Grammar where
  terminals := []
  nonterminals := [⟨⟨0⟩, .declared "S"⟩]
  families := [⟨⟨0⟩, [[]]⟩]
  start := ⟨0⟩
  nextNonterminal := 1

/-- The three ways in which a run ends. The empty word alone does not save it from its failure; the
palindromes need seven numbers, so they fail once there are only six. -/
theorem normalization_outcome_three_ways :
    (Obtained (.grammar emptyWordOnly) ∧
      (¬ ∃ w, w ≠ [] ∧ emptyWordOnly.Derives emptyWordOnly.start w) ∧
      (emptyWordOnly.normalization .preserve).stages.map Prod.fst =
        [.input, .epsilonElimination, .unitElimination]) ∧
    (Obtained (.grammar (crowdedPalindromes 65529)) ∧
      (∃ c, (crowdedPalindromes 65529).normalize .preserve = .ok c ∧
        (Stage.normalization, c.grammar) ∈
          ((crowdedPalindromes 65529).normalization .preserve).stages) ∧
      ((crowdedPalindromes 65529).normalization .preserve).stages.map Prod.fst = Stage.order) ∧
    (Obtained (.grammar (crowdedPalindromes 65530)) ∧
      (∃ w, w ≠ [] ∧ (crowdedPalindromes 65530).Derives (crowdedPalindromes 65530).start w) ∧
      (crowdedPalindromes 65530).normalize .preserve =
        .error (.freshSymbolsExhausted .normalization) ∧
      ((crowdedPalindromes 65530).normalization .preserve).stages.map Prod.fst =
        [ .input, .epsilonElimination, .unitElimination, .productiveFilter,
          .reachabilityFilter ]) := by
  refine ⟨?_, ?_, ?_⟩
  · have obtained : Obtained (.grammar emptyWordOnly) :=
      .load (show (Specification.script false [.declare .nonterminal "S", .rule ⟨0⟩ []]).load =
        .ok emptyWordOnly by decide +kernel)
    have failed : emptyWordOnly.normalize .preserve =
        .error (.invariant .productiveFilter (.unproductiveStart emptyWordOnly.startText)) := by
      decide +kernel
    obtain ⟨words, _, _, stages, _⟩ := obtained.normalization_outcome .preserve
    rw [failed] at stages
    exact ⟨obtained, words.mp failed, stages⟩
  · have obtained : Obtained (.grammar (crowdedPalindromes 65529)) :=
      obtained_crowdedPalindromes (by decide) (by decide)
    have ok : (crowdedPalindromes 65529).normalize .preserve =
        .ok ⟨(crowdedPalindromes 65529).usefulPart.paired true, true⟩ := by decide +kernel
    obtain ⟨_, _, _, stages, derivesEmpty, _, handed⟩ := obtained.normalization_outcome .preserve
    rw [ok] at stages handed
    refine ⟨obtained, ⟨_, ok, ?_⟩, stages⟩
    generalize ((crowdedPalindromes 65529).normalization .preserve).stages = reached at handed ⊢
    cases handed with
    | complete => simp
  · have obtained : Obtained (.grammar (crowdedPalindromes 65530)) :=
      obtained_crowdedPalindromes (by decide) (by decide)
    have failed : (crowdedPalindromes 65530).normalize .preserve =
        .error (.freshSymbolsExhausted .normalization) := by decide +kernel
    obtain ⟨words, _, _, stages, _⟩ := obtained.normalization_outcome .preserve
    rw [failed] at stages
    have productive := mt words.mpr (by rw [failed]; simp)
    exact ⟨obtained, not_not.mp productive, failed, stages⟩

/-- What becomes of an empty word that is to be preserved. The normal form accepts it, unless
the numbers run out, exactly if the start symbol derives another word besides; if there is no
other word, the start symbol is rejected as unproductive. -/
theorem Obtained.normalize_preserve_nil_iff {g : Grammar} (h : Obtained (.grammar g))
    (empty : g.Derives g.start []) :
    ((∃ c, g.normalize .preserve = .ok c ∧ c.accepts [] = true) ∨
        g.normalize .preserve = .error (.freshSymbolsExhausted .normalization) ↔
      ∃ w, w ≠ [] ∧ g.Derives g.start w) ∧
    (g.normalize .preserve =
        .error (.invariant .productiveFilter (.unproductiveStart g.startText)) ↔
      ∀ w, g.Derives g.start w → w = []) := by
  have wellFormed : g.WellFormed := h.lawful
  have keeps : g.keepsEmptyWord .preserve = true := Grammar.keepsEmptyWord_iff.mpr ⟨rfl, empty⟩
  by_cases words : ∃ w, w ≠ [] ∧ g.Derives g.start w
  · have outcome := wellFormed.normalize_of_exists words .preserve
    rw [keeps] at outcome
    obtain ⟨w, nonempty, derives⟩ := words
    have other : ¬ ∀ w, g.Derives g.start w → w = [] := fun only => nonempty (only w derives)
    split at outcome
    next =>
      obtain ⟨_, form⟩ := (h.normalize outcome).lawful
      have accepted := (form.accepts_iff []).mpr (form.derives_nil_iff.mpr rfl)
      refine ⟨iff_of_true (Or.inl ⟨_, outcome, accepted⟩) ⟨w, nonempty, derives⟩, ?_⟩
      exact iff_of_false (by simp [outcome]) other
    next =>
      refine ⟨iff_of_true (Or.inr outcome) ⟨w, nonempty, derives⟩, ?_⟩
      exact iff_of_false (by simp [outcome]) other
  · have outcome := wellFormed.normalize_of_not_exists words .preserve
    refine ⟨iff_of_false ?_ words, iff_of_true outcome ?_⟩
    · simp [outcome, Grammar.startFailure]
    · intro w derives
      by_contra nonempty
      exact words ⟨w, nonempty, derives⟩

/-- The palindromes keep their empty word, since they have other words as well. -/
theorem evenPalindromes_normalize_preserve_nil :
    evenPalindromes.Derives evenPalindromes.start [] ∧
      (∃ w, w ≠ [] ∧ evenPalindromes.Derives evenPalindromes.start w) ∧
      evenPalindromes.normalize .preserve ≠ .error
        (.invariant .productiveFilter (.unproductiveStart evenPalindromes.startText)) := by
  have ok : evenPalindromes.normalize .preserve =
      .ok ⟨evenPalindromes.usefulPart.paired true, true⟩ := by decide +kernel
  have empty : evenPalindromes.Derives evenPalindromes.start [] :=
    Grammar.mem_nullables_iff.mp (by decide +kernel)
  obtain ⟨kept, rejected⟩ := obtained_evenPalindromes.normalize_preserve_nil_iff empty
  have words := kept.mp (Or.inl ⟨_, ok, rfl⟩)
  refine ⟨empty, words, ?_⟩
  intro failed
  obtain ⟨w, nonempty, derives⟩ := words
  exact nonempty (rejected.mp failed w derives)

/-- A grammar whose only word is the empty word is rejected instead of keeping it. -/
theorem emptyWordOnly_preserve_fails :
    Obtained (.grammar emptyWordOnly) ∧ emptyWordOnly.Derives emptyWordOnly.start [] ∧
      emptyWordOnly.normalize .preserve =
        .error (.invariant .productiveFilter (.unproductiveStart "S")) ∧
      ¬ ((∃ c, emptyWordOnly.normalize .preserve = .ok c ∧ c.accepts [] = true) ∨
        emptyWordOnly.normalize .preserve = .error (.freshSymbolsExhausted .normalization)) := by
  have obtained : Obtained (.grammar emptyWordOnly) :=
    .load (show (Specification.source "S -> ε" {}).load = .ok emptyWordOnly by decide +kernel)
  have failed : emptyWordOnly.normalize .preserve =
      .error (.invariant .productiveFilter (.unproductiveStart "S")) := by decide +kernel
  refine ⟨obtained, Grammar.mem_nullables_iff.mp (by decide +kernel), failed, ?_⟩
  simp [failed]

end ContextFree
