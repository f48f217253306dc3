import ContextFree.Normalization
import ContextFree.Proofs.Stages

/-!
# A normalization, stage by stage

On a well-formed grammar the stages can be written down in advance: each result is a
function of the grammar before it. The run stops at the removal of unproductive symbols
exactly if the start symbol derives no nonempty word, and otherwise it reaches the last
stage, where only the numbers can run out.
-/

namespace ContextFree.Grammar

open NormalForm

variable {g : Grammar} {n : NonterminalId} {w : Word} {policy : EmptyWord}

section Results

/-- The result of removing empty bodies. -/
def withoutEmptyBodies (g : Grammar) : Grammar := g.expandFamilies g.nullables

/-- The result of removing unit productions after that. -/
def withoutUnits (g : Grammar) : Grammar := g.withoutEmptyBodies.inlineUnits

/-- The result of removing unproductive symbols after that. -/
def productivePart (g : Grammar) : Grammar := g.withoutUnits.restrictTo g.withoutUnits.productiveSet

/-- The result of removing unreachable symbols after that. -/
def usefulPart (g : Grammar) : Grammar := g.productivePart.restrictTo g.productivePart.reachableSet

/-- The stages before the last leave the start symbol, the next free number and the terminals
alone. -/
theorem start_usefulPart : g.usefulPart.start = g.start := by
  rw [usefulPart, restrictTo, productivePart, restrictTo, withoutUnits, inlineUnits,
    withoutEmptyBodies, expandFamilies]

theorem nextNonterminal_usefulPart : g.usefulPart.nextNonterminal = g.nextNonterminal := by
  rw [usefulPart, restrictTo, productivePart, restrictTo, withoutUnits, inlineUnits,
    withoutEmptyBodies, expandFamilies]

theorem terminals_usefulPart : g.usefulPart.terminals = g.terminals := by
  rw [usefulPart, restrictTo, productivePart, restrictTo, withoutUnits, inlineUnits,
    withoutEmptyBodies, expandFamilies]

/-- They only remove nonterminals. -/
theorem nonterminals_usefulPart_sublist : g.usefulPart.nonterminals.Sublist g.nonterminals := by
  rw [usefulPart, restrictTo, productivePart, restrictTo, withoutUnits, inlineUnits,
    withoutEmptyBodies, expandFamilies]
  exact List.filter_sublist.trans List.filter_sublist

theorem WellFormed.proper_withoutUnits (h : g.WellFormed) : g.withoutUnits.Proper :=
  (h.expandFamilies g.nullables).proper_inlineUnits noEmptyBody_expandFamilies

theorem WellFormed.proper_productivePart (h : g.WellFormed)
    (productive : g.start ∈ g.withoutUnits.productiveSet) : g.productivePart.Proper :=
  h.proper_withoutUnits.restrictTo productive

theorem WellFormed.proper_usefulPart (h : g.WellFormed)
    (productive : g.start ∈ g.withoutUnits.productiveSet) : g.usefulPart.Proper := by
  have proper := h.proper_productivePart productive
  exact proper.restrictTo (start_mem_reachableSet proper.wellFormed.grouped.heads_nodup)

/-- After the removal of unit productions a nonterminal has its nonempty words. -/
theorem WellFormed.derives_withoutUnits_iff (h : g.WellFormed) :
    g.withoutUnits.Derives n w ↔ w ≠ [] ∧ g.Derives n w := by
  calc
    g.withoutUnits.Derives n w ↔ g.withoutEmptyBodies.Derives n w :=
      (h.expandFamilies g.nullables).derives_inlineUnits_iff
    _ ↔ w ≠ [] ∧ g.Derives n w := derives_expandFamilies_nullables_iff

/-- The start symbol survives exactly if it derives a nonempty word. -/
theorem WellFormed.start_mem_productiveSet_iff (h : g.WellFormed) :
    g.start ∈ g.withoutUnits.productiveSet ↔ ∃ w, w ≠ [] ∧ g.Derives g.start w := by
  rw [mem_productiveSet_iff]
  exact exists_congr fun w => h.derives_withoutUnits_iff

/-- The useful symbols give the start symbol its nonempty words. -/
theorem WellFormed.derives_start_usefulPart_iff (h : g.WellFormed)
    (productive : g.start ∈ g.withoutUnits.productiveSet) :
    g.usefulPart.Derives g.start w ↔ w ≠ [] ∧ g.Derives g.start w := by
  have heads := (h.proper_productivePart productive).wellFormed.grouped.heads_nodup
  calc
    g.usefulPart.Derives g.start w ↔ g.productivePart.Derives g.start w :=
      derives_restrictTo_reachableSet heads (start_mem_reachableSet heads)
    _ ↔ g.withoutUnits.Derives g.start w := derives_restrictTo_productiveSet productive
    _ ↔ w ≠ [] ∧ g.Derives g.start w := h.derives_withoutUnits_iff

end Results

theorem keepsEmptyWord_iff :
    g.keepsEmptyWord policy = true ↔ policy = .preserve ∧ g.Derives g.start [] := by
  cases policy with
  | drop => simp [keepsEmptyWord]
  | preserve => exact mem_nullables_iff.trans (and_iff_right rfl).symm

section Run

/-- The failure of a run whose start symbol derives no nonempty word. -/
def startFailure (g : Grammar) : NormalizeError :=
  .invariant .productiveFilter (.unproductiveStart g.startText)

theorem WellFormed.normalization_input (h : g.WellFormed) :
    (g.normalization policy).input = .ok g := by
  change atStage .input (g.validate.map fun _ => g) = _
  rw [h.validate_eq_ok]
  rfl

theorem WellFormed.normalization_epsilonFree (h : g.WellFormed) :
    (g.normalization policy).epsilonFree = .ok ⟨g.withoutEmptyBodies⟩ := by
  change (g.normalization policy).input.bind (fun g => g.eliminateEpsilon g.nullables) = _
  rw [h.normalization_input]
  exact h.eliminateEpsilon g.nullables

theorem WellFormed.normalization_unitFree (h : g.WellFormed) :
    (g.normalization policy).unitFree = .ok ⟨g.withoutUnits⟩ := by
  change (g.normalization policy).epsilonFree.bind EpsilonFree.eliminateUnits = _
  rw [h.normalization_epsilonFree]
  exact (h.expandFamilies g.nullables).eliminateUnits noEmptyBody_expandFamilies

theorem WellFormed.normalization_productive (h : g.WellFormed) :
    (g.normalization policy).productive =
      if g.start ∈ g.withoutUnits.productiveSet then .ok ⟨g.productivePart⟩
      else .error g.startFailure := by
  change (g.normalization policy).unitFree.bind UnitFree.filterProductive = _
  rw [h.normalization_unitFree]
  exact h.proper_withoutUnits.wellFormed.filterProductive

theorem WellFormed.normalization_reachable (h : g.WellFormed) :
    (g.normalization policy).reachable =
      if g.start ∈ g.withoutUnits.productiveSet then .ok ⟨g.usefulPart⟩
      else .error g.startFailure := by
  change (g.normalization policy).productive.bind Productive.filterReachable = _
  rw [h.normalization_productive]
  split
  next productive => exact (h.proper_productivePart productive).wellFormed.filterReachable
  next => rfl

/-- With a productive start symbol the outcome is that of the last stage on the useful part. -/
theorem WellFormed.normalize_eq_normalForm (h : g.WellFormed)
    (productive : g.start ∈ g.withoutUnits.productiveSet) :
    g.normalize policy = Reachable.normalForm ⟨g.usefulPart⟩ (g.keepsEmptyWord policy) := by
  change (g.normalization policy).reachable.bind
    (fun r => r.normalForm (g.keepsEmptyWord policy)) = _
  rw [h.normalization_reachable, if_pos productive, Except.bind]

/-- The outcome of a run on a well-formed grammar. -/
theorem WellFormed.normalize_eq (h : g.WellFormed) :
    g.normalize policy =
      if g.start ∈ g.withoutUnits.productiveSet then
        if g.usefulPart.nextNonterminal +
            (freshKinds g.usefulPart.productions (g.keepsEmptyWord policy)).length ≤ idLimit then
          .ok ⟨g.usefulPart.paired (g.keepsEmptyWord policy), g.keepsEmptyWord policy⟩
        else .error (.freshSymbolsExhausted .normalization)
      else .error g.startFailure := by
  by_cases productive : g.start ∈ g.withoutUnits.productiveSet
  · have proper := h.proper_usefulPart productive
    rw [if_pos productive, h.normalize_eq_normalForm productive,
      proper.wellFormed.normalForm proper.noEmptyBody proper.noUnitBody]
  · change (g.normalization policy).reachable.bind
      (fun r => r.normalForm (g.keepsEmptyWord policy)) = _
    rw [h.normalization_reachable, if_neg productive, if_neg productive, Except.bind]

end Run

end ContextFree.Grammar
