import ContextFree.Proofs.NormalForm.Paired
import ContextFree.Proofs.Pruning
import ContextFree.Proofs.UnitFree

/-!
# What the stages promise

Each stage adds a property of the grammar, and later stages keep it: no empty bodies, no
unit productions, every nonterminal derives a word, every nonterminal is reachable. The
pruning stages do not check the earlier properties again; they hold because pruning only
removes productions, and because removing unreachable symbols takes no derivation away
from the symbols that stay.
-/

namespace ContextFree.Grammar

variable {g : Grammar} {keep : NonterminalSet}

def NoEmptyBody (g : Grammar) : Prop := ∀ p ∈ g.productions, p.body ≠ []

/-- No body is a single nonterminal. -/
def NoUnitBody (g : Grammar) : Prop := ∀ p ∈ g.productions, ∀ b, p.body ≠ [.nonterminal b]

/-- Every nonterminal derives a word. -/
def AllProductive (g : Grammar) : Prop := ∀ n ∈ g.nonterminals, ∃ w, g.Derives n.id w

/-- Every nonterminal is reachable from the start symbol. -/
def AllReachable (g : Grammar) : Prop := ∀ n ∈ g.nonterminals, g.Reaches g.start n.id

/-- A well-formed grammar without empty bodies and unit productions. -/
structure Proper (g : Grammar) : Prop where
  wellFormed : g.WellFormed
  noEmptyBody : g.NoEmptyBody
  noUnitBody : g.NoUnitBody

theorem noEmptyBody_expandFamilies : (g.expandFamilies keep).NoEmptyBody :=
  fun _ hp => body_ne_nil_of_mem_expandFamilies hp

theorem WellFormed.proper_inlineUnits (h : g.WellFormed) (free : g.NoEmptyBody) :
    g.inlineUnits.Proper where
  wellFormed := h.inlineUnits
  noEmptyBody _ hp := h.body_ne_nil_of_mem_inlineUnits free hp
  noUnitBody _ hp := (h.mem_productions_inlineUnits.mp hp).1

/-- Removing symbols brings no empty bodies and no unit productions back. -/
theorem Proper.restrictTo (h : g.Proper) (start : g.start ∈ keep) :
    (g.restrictTo keep).Proper where
  wellFormed := h.wellFormed.restrictTo start
  noEmptyBody p hp := h.noEmptyBody p (mem_productions_restrictTo.mp hp).1
  noUnitBody p hp := h.noUnitBody p (mem_productions_restrictTo.mp hp).1

section Pruned

variable {n : Nonterminal}

theorem mem_nonterminals_restrictTo :
    n ∈ (g.restrictTo keep).nonterminals ↔ n ∈ g.nonterminals ∧ n.id ∈ keep :=
  List.mem_filter

theorem allProductive_restrictTo_productiveSet :
    (g.restrictTo g.productiveSet).AllProductive := by
  intro n hn
  have productive := (mem_nonterminals_restrictTo.mp hn).2
  obtain ⟨w, derives⟩ := mem_productiveSet_iff.mp productive
  exact ⟨w, (derives_restrictTo_productiveSet productive).mpr derives⟩

/-- Reachable symbols that derive a word still do when the others are removed. -/
theorem AllProductive.restrictTo_reachableSet (h : g.AllProductive)
    (heads : (g.families.map Family.head).Nodup) :
    (g.restrictTo g.reachableSet).AllProductive := by
  intro n hn
  obtain ⟨old, reachable⟩ := mem_nonterminals_restrictTo.mp hn
  obtain ⟨w, derives⟩ := h n old
  exact ⟨w, (derives_restrictTo_reachableSet heads reachable).mpr derives⟩

theorem allReachable_restrictTo_reachableSet (heads : (g.families.map Family.head).Nodup) :
    (g.restrictTo g.reachableSet).AllReachable := by
  intro n hn
  have reachable := (mem_nonterminals_restrictTo.mp hn).2
  apply reaches_restrictTo_reachableSet heads
  exact (mem_reachableSet_iff heads).mp reachable

end Pruned

/-- Removing unproductive symbols fails exactly if the start symbol is one of them. -/
theorem WellFormed.filterProductive (h : g.WellFormed) :
    UnitFree.filterProductive ⟨g⟩ =
      if g.start ∈ g.productiveSet then .ok ⟨g.restrictTo g.productiveSet⟩
      else .error (.invariant .productiveFilter (.unproductiveStart g.startText)) := by
  rw [UnitFree.filterProductive, retainProductive_eq]
  by_cases productive : g.start ∈ g.productiveSet
  · rw [if_pos productive, if_pos productive]
    change Productive.ofGrammar (g.restrictTo g.productiveSet) = _
    rw [Productive.ofGrammar, (h.restrictTo productive).validate_eq_ok]
    rfl
  · rw [if_neg productive, if_neg productive]
    rfl

/-- Removing unreachable symbols never fails on a well-formed grammar. -/
theorem WellFormed.filterReachable (h : g.WellFormed) :
    Productive.filterReachable ⟨g⟩ = .ok ⟨g.restrictTo g.reachableSet⟩ := by
  have valid := (h.restrictTo (start_mem_reachableSet h.grouped.heads_nodup)).validate_eq_ok
  rw [Productive.filterReachable, h.retainReachable]
  change Reachable.ofGrammar (g.restrictTo g.reachableSet) = _
  rw [Reachable.ofGrammar, valid]
  rfl

end ContextFree.Grammar
