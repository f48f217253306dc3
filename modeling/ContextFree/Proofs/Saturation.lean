import ContextFree.Analysis.Saturation
import ContextFree.Proofs.Derivation
import Mathlib.Data.Set.Card

/-!
# Saturation is exact

The loop ends at a set that a further pass does not change, because every pass but the
last one adds a head. Such a set contains the head of every production whose body is
explained, and by induction along the passes nothing else. The nullable symbols are
therefore those that derive the empty word, and the productive symbols those that
derive some word.

## Implementation notes

`Saturation.Run` says what the loop does without a bound on its passes. Every run is finite,
so a run that exists shows that the loop terminates.
-/

namespace ContextFree

/-- A grammar has at most as many heads as families. -/
theorem Grammar.card_heads_le (g : Grammar) :
    (g.productions.map Production.head).toFinset.card ≤ g.families.length := by
  have sub : (g.productions.map Production.head).toFinset ⊆
      (g.families.map Family.head).toFinset := by
    intro n hn
    obtain ⟨p, hp, rfl⟩ := List.mem_map.mp (List.mem_toFinset.mp hn)
    obtain ⟨f, hf, head, _⟩ := Grammar.mem_productions.mp hp
    exact List.mem_toFinset.mpr (List.mem_map.mpr ⟨f, hf, head⟩)
  calc
    (g.productions.map Production.head).toFinset.card ≤ (g.families.map Family.head).toFinset.card :=
      Finset.card_le_card sub
    _ ≤ (g.families.map Family.head).length := List.toFinset_card_le _
    _ = g.families.length := List.length_map _

namespace Saturation

variable {explains : Explains} {productions : List Production} {found : NonterminalSet}

theorem mem_absorb {p : Production} {n : NonterminalId} :
    n ∈ absorb explains found p ↔
      n ∈ found ∨ (n = p.head ∧ p.body.all (explains found) = true) := by
  unfold absorb
  by_cases known : found.contains p.head = true
  · rw [if_pos known]
    constructor
    · exact Or.inl
    · rintro (old | ⟨rfl, _⟩)
      · exact old
      · exact known
  · rw [if_neg known]
    by_cases ready : p.body.all (explains found) = true
    · rw [if_pos ready, IdSet.mem_insert]
      simp [ready, or_comm]
    · rw [if_neg ready]
      simp [ready]

theorem subset_pass (productions : List Production) {n : NonterminalId} (h : n ∈ found) :
    n ∈ pass explains productions found := by
  unfold pass
  induction productions generalizing found with
  | nil => exact h
  | cons p rest ih => exact ih (mem_absorb.mpr (Or.inl h))

/-- What a pass adds is the head of a production. -/
theorem mem_pass {n : NonterminalId} (h : n ∈ pass explains productions found) :
    n ∈ found ∨ n ∈ productions.map Production.head := by
  unfold pass at h
  induction productions generalizing found with
  | nil => exact Or.inl h
  | cons p rest ih =>
      rcases ih h with old | new
      · rcases mem_absorb.mp old with older | ⟨rfl, _⟩
        · exact Or.inl older
        · exact Or.inr List.mem_cons_self
      · exact Or.inr (List.mem_cons_of_mem _ new)

/-- A set that a pass does not change holds every head whose body it explains. -/
theorem head_mem_of_pass_eq (fixed : pass explains productions found = found) {p : Production}
    (hp : p ∈ productions) (ready : p.body.all (explains found) = true) : p.head ∈ found := by
  induction productions with
  | nil => exact absurd hp List.not_mem_nil
  | cons q rest ih =>
      -- The first production changes nothing either, since later ones take nothing away.
      have first : absorb explains found q = found := by
        refine IdSet.ext_mem fun n => ⟨fun hn => ?_, fun hn => mem_absorb.mpr (Or.inl hn)⟩
        exact fixed ▸ subset_pass rest hn
      rcases List.mem_cons.mp hp with rfl | hp
      · exact first ▸ mem_absorb.mpr (Or.inr ⟨rfl, ready⟩)
      · refine ih ?_ hp
        have rest_fixed : pass explains rest (absorb explains found q) = found := fixed
        rwa [first] at rest_fixed

/-- A property that explained bodies hand on to their heads holds after a pass. -/
theorem pass_induction (I : NonterminalId → Prop)
    (step : ∀ p ∈ productions, ∀ s : NonterminalSet, (∀ n ∈ s, I n) →
      p.body.all (explains s) = true → I p.head)
    (h : ∀ n ∈ found, I n) : ∀ n ∈ pass explains productions found, I n := by
  unfold pass
  induction productions generalizing found with
  | nil => exact h
  | cons p rest ih =>
      refine ih (fun q hq => step q (List.mem_cons_of_mem _ hq)) fun n hn => ?_
      rcases mem_absorb.mp hn with old | ⟨rfl, ready⟩
      · exact h n old
      · exact step p List.mem_cons_self found h ready

/-- How many heads are still missing from a set. -/
def missing (productions : List Production) (found : NonterminalSet) : Nat :=
  ((productions.map Production.head).toFinset.filter (· ∉ found)).card

theorem missing_pass_lt (changed : pass explains productions found ≠ found) :
    missing productions (pass explains productions found) < missing productions found := by
  obtain ⟨n, hn, hnot⟩ : ∃ n ∈ pass explains productions found, n ∉ found := by
    by_contra none
    refine changed (IdSet.ext_mem fun n => ⟨fun hn => ?_, subset_pass productions⟩)
    by_contra hnot
    exact none ⟨n, hn, hnot⟩
  have head : n ∈ productions.map Production.head := (mem_pass hn).resolve_left hnot
  refine Finset.card_lt_card (Finset.ssubset_iff_subset_ne.mpr ⟨?_, ?_⟩)
  · intro m hm
    rw [Finset.mem_filter] at hm ⊢
    exact ⟨hm.1, fun old => hm.2 (subset_pass productions old)⟩
  · intro same
    have old : n ∈ (productions.map Production.head).toFinset.filter (· ∉ found) :=
      Finset.mem_filter.mpr ⟨List.mem_toFinset.mpr head, hnot⟩
    rw [← same, Finset.mem_filter] at old
    exact old.2 hn

/-- A run of the loop, with the set after each pass. The first pass that changes nothing is the
last. -/
inductive Run (explains : Explains) (productions : List Production) :
    NonterminalSet → List NonterminalSet → Prop where
  | last {found : NonterminalSet} :
      pass explains productions found = found → Run explains productions found [found]
  | more {found : NonterminalSet} {sets : List NonterminalSet} :
      pass explains productions found ≠ found →
      Run explains productions (pass explains productions found) sets →
      Run explains productions found (pass explains productions found :: sets)

section Run

variable {sets : List NonterminalSet}

/-- With more passes at hand than heads are missing, the loop comes to its end. -/
theorem run_passesFrom {fuel : Nat} (enough : missing productions found < fuel) :
    Run explains productions found (passesFrom explains productions fuel found) := by
  induction fuel generalizing found with
  | zero => exact absurd enough (Nat.not_lt_zero _)
  | succ fuel ih =>
      rw [passesFrom]
      by_cases same : pass explains productions found = found
      · rw [if_pos same, same]
        exact .last same
      · have fewer := missing_pass_lt same
        rw [if_neg same]
        exact .more same (ih (by omega))

/-- The loop has one run only. -/
theorem Run.unique (run : Run explains productions found sets) {others : List NonterminalSet}
    (other : Run explains productions found others) : sets = others := by
  induction run generalizing others with
  | last same =>
      cases other with
      | last _ => rfl
      | more changed _ => exact absurd same changed
  | more changed _ ih =>
      cases other with
      | last same => exact absurd same changed
      | more _ rest => rw [ih rest]

theorem Run.getLast?_eq (run : Run explains productions found sets) (d : NonterminalSet) :
    sets.getLast? = some (sets.getLastD d) := by
  cases run with
  | last _ => rfl
  | more _ _ => rw [List.getLast?_cons, List.getLastD_cons, List.getLastD_eq_getLast?]

/-- The last set of a run is a fixed point. -/
theorem Run.pass_getLastD (run : Run explains productions found sets) (d : NonterminalSet) :
    pass explains productions (sets.getLastD d) = sets.getLastD d := by
  induction run generalizing d with
  | last same => exact same
  | more _ _ ih =>
      rw [List.getLastD_cons]
      exact ih _

theorem Run.induction (run : Run explains productions found sets) (I : NonterminalId → Prop)
    (step : ∀ p ∈ productions, ∀ s : NonterminalSet, (∀ n ∈ s, I n) →
      p.body.all (explains s) = true → I p.head)
    (h : ∀ n ∈ found, I n) (d : NonterminalSet) : ∀ n ∈ sets.getLastD d, I n := by
  induction run generalizing d with
  | last _ => exact h
  | more _ _ ih =>
      rw [List.getLastD_cons]
      exact ih (pass_induction I step h) _

/-- Every pass but the last finds a head that was missing. -/
theorem Run.length_add_missing_le (run : Run explains productions found sets)
    (d : NonterminalSet) :
    sets.length + missing productions (sets.getLastD d) ≤ missing productions found + 1 := by
  induction run generalizing d with
  | last _ =>
      rw [List.length_singleton, List.getLastD_cons, List.getLastD_nil]
      omega
  | @more found sets changed _ ih =>
      have rest := ih (pass explains productions found)
      have fewer := missing_pass_lt changed
      rw [List.length_cons, List.getLastD_cons]
      omega

end Run

variable {g : Grammar}

theorem missing_empty_le : missing g.productions ∅ ≤ g.families.length := by
  calc
    missing g.productions ∅ ≤ (g.productions.map Production.head).toFinset.card :=
      Finset.card_le_card (Finset.filter_subset _ _)
    _ ≤ g.families.length := g.card_heads_le

/-- The passes over a grammar are the run that starts with nothing. -/
theorem run_passes : Run explains g.productions ∅ (passes explains g) :=
  run_passesFrom (Nat.lt_succ_of_le missing_empty_le)

/-- The last set is closed under the productions of the grammar. -/
theorem head_mem_passes {p : Production} (hp : p ∈ g.productions)
    (ready : p.body.all (explains ((passes explains g).getLastD ∅)) = true) :
    p.head ∈ (passes explains g).getLastD ∅ :=
  head_mem_of_pass_eq (run_passes.pass_getLastD ∅) hp ready

/-- The last set has only the members that the productions of the grammar enforce. -/
theorem passes_induction (I : NonterminalId → Prop)
    (step : ∀ p ∈ g.productions, ∀ s : NonterminalSet, (∀ n ∈ s, I n) →
      p.body.all (explains s) = true → I p.head) :
    ∀ n ∈ (passes explains g).getLastD ∅, I n :=
  run_passes.induction I step (fun n hn => absurd hn (IdSet.not_mem_empty n)) ∅

/-- There is at most one pass more than the last set has members. -/
theorem length_passes_le :
    (passes explains g).length ≤ {n | n ∈ (passes explains g).getLastD ∅}.ncard + 1 := by
  let last := (passes explains g).getLastD ∅
  let heads := (g.productions.map Production.head).toFinset
  have finite : {n | n ∈ last}.Finite := by
    apply last.toList.finite_toSet.subset
    exact fun n hn => IdSet.mem_toList.mpr hn
  have found : (heads.filter (· ∈ last)).card ≤ {n | n ∈ last}.ncard := by
    rw [← Set.ncard_coe_finset]
    exact Set.ncard_le_ncard (fun n hn => (Finset.mem_filter.mp hn).2) finite
  have split : (heads.filter (· ∈ last)).card + missing g.productions last = heads.card :=
    Finset.card_filter_add_card_filter_not _
  have all : missing g.productions ∅ ≤ heads.card := Finset.card_filter_le _ _
  have bound : (passes explains g).length + missing g.productions last ≤
      missing g.productions ∅ + 1 := run_passes.length_add_missing_le ∅
  change (passes explains g).length ≤ {n | n ∈ last}.ncard + 1
  omega

end Saturation

namespace Grammar

variable {g : Grammar}

/-- A body that derives the empty word consists of nullable symbols. -/
theorem all_nullable_of_yields {body : Body} {w : Word}
    (h : Yields (· ∈ g.productions) body w) (empty : w = []) :
    body.all (fun s => s.nonterminal?.any g.nullables.contains) = true := by
  induction h with
  | nil => rfl
  | terminal _ _ => cases empty
  | @nonterminal n body rest u v rule _ _ first tail =>
      obtain ⟨hu, hv⟩ := List.append_eq_nil_iff.mp empty
      have head : n ∈ g.nullables := Saturation.head_mem_passes rule (first hu)
      rw [List.all_cons, tail hv, Bool.and_true]
      exact head

/-- The nullable symbols are exactly those that derive the empty word. -/
theorem mem_nullables_iff {n : NonterminalId} : n ∈ g.nullables ↔ g.Derives n [] := by
  constructor
  · refine Saturation.passes_induction (fun n => g.Derives n []) (fun p hp s known ready => ?_) n
    refine derives_iff.mpr ⟨p.body, hp, Yields.nil_of_forall fun a ha => ?_⟩
    have explained := List.all_eq_true.mp ready a ha
    cases a with
    | terminal t => cases explained
    | nonterminal m => exact known m explained
  · intro h
    obtain ⟨body, rule, hw⟩ := derives_iff.mp h
    exact Saturation.head_mem_passes rule (all_nullable_of_yields hw rfl)

/-- The nullable symbols are exactly those that derive the empty word. The loop that finds them
comes to its end, by one run only, and has at most one pass more than there are such symbols. -/
theorem nullables_exact (g : Grammar) :
    (∀ n, n ∈ g.nullables ↔ g.Derives n []) ∧
      (∀ sets, Saturation.Run (fun found s => s.nonterminal?.any found.contains) g.productions ∅
        sets ↔ sets = g.nullablePasses) ∧
      g.nullablePasses.getLast? = some g.nullables ∧
      g.nullablePasses.length ≤ {n | g.Derives n []}.ncard + 1 := by
  have run : Saturation.Run (fun found s => s.nonterminal?.any found.contains) g.productions ∅
      g.nullablePasses := Saturation.run_passes
  refine ⟨fun _ => mem_nullables_iff, fun sets => ⟨?_, ?_⟩, run.getLast?_eq ∅, ?_⟩
  · intro other
    exact other.unique run
  · rintro rfl
    exact run
  · have nullable : {n | g.Derives n []} = {n | n ∈ g.nullables} :=
      Set.ext fun n => mem_nullables_iff.symm
    rw [nullable]
    exact Saturation.length_passes_le

theorem all_productive_of_yields {body : Body} {w : Word}
    (h : Yields (· ∈ g.productions) body w) :
    body.all (fun s => s.nonterminal?.all g.productiveSet.contains) = true := by
  induction h with
  | nil => rfl
  | terminal _ ih => exact ih
  | @nonterminal n body rest u v rule _ _ first tail =>
      have head : n ∈ g.productiveSet := Saturation.head_mem_passes rule first
      rw [List.all_cons, tail, Bool.and_true]
      exact head

/-- The productive symbols are exactly those that derive some word. -/
theorem mem_productiveSet_iff {n : NonterminalId} :
    n ∈ g.productiveSet ↔ ∃ w, g.Derives n w := by
  constructor
  · refine Saturation.passes_induction (fun n => ∃ w, g.Derives n w)
      (fun p hp s known ready => ?_) n
    obtain ⟨w, hw⟩ : ∃ w, Yields (· ∈ g.productions) p.body w := by
      refine Yields.exists_of_forall fun a ha => ?_
      cases a with
      | terminal t => exact ⟨[t], Yields.singleton_terminal_iff.mpr rfl⟩
      | nonterminal m => exact known m (List.all_eq_true.mp ready _ ha)
    exact ⟨w, derives_iff.mpr ⟨p.body, hp, hw⟩⟩
  · rintro ⟨w, h⟩
    obtain ⟨body, rule, hw⟩ := derives_iff.mp h
    exact Saturation.head_mem_passes rule (all_productive_of_yields hw)

end Grammar

end ContextFree
