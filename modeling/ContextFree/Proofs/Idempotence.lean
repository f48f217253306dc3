import ContextFree.Proofs.Grouping
import ContextFree.Proofs.NormalForm.Useful
import ContextFree.Proofs.Outcome

/-!
# Normalizing a normal form again changes nothing

A normal form without the empty word leaves nothing to do for any stage: no symbol derives the
empty word, there are no unit productions, all symbols are useful, and no body needs a proxy or
a link. Each stage then returns the grammar it was given, with all tables in the same order.

## Implementation notes

The stages rebuild the productions by grouping, by collapsing repetitions or by filtering. On
grouped families each of these gives back what it was given, order included.
-/

namespace ContextFree

open NormalForm

section Stages

/-- A body without droppable symbols has no variant but itself. -/
theorem variants_eq_singleton {droppable : NonterminalSet} {body : Body}
    (kept : ∀ n, .nonterminal n ∈ body → n ∉ droppable) : variants droppable body = [body] := by
  induction body with
  | nil => exact variants_nil droppable
  | cons s rest ih =>
      have stays : ¬ isDroppable droppable s = true := by
        intro drops
        obtain ⟨n, member, rfl⟩ := isDroppable_iff.mp drops
        exact kept n List.mem_cons_self member
      rw [variants_cons, if_neg stays, ih fun n hn => kept n (List.mem_cons_of_mem _ hn)]
      rfl

theorem expand_eq_singleton {droppable : NonterminalSet} {body : Body} (nonempty : body ≠ [])
    (kept : ∀ n, .nonterminal n ∈ body → n ∉ droppable) : expand droppable body = [body] := by
  rw [expand, variants_eq_singleton kept]
  simp [nonempty]

namespace Grammar

variable {g : Grammar}

/-- Changing families one by one changes nothing if every family stays as it is. -/
theorem filterMap_families_eq_self {families : List Family} {change : Family → Option Family}
    (same : ∀ f ∈ families, change f = some f) : families.filterMap change = families := by
  rw [List.filterMap_congr same, List.filterMap_some]

/-- Without empty bodies and droppable symbols the first stage changes nothing. -/
theorem expandFamilies_eq_self (grouped : Grouped g.families) (free : g.NoEmptyBody)
    {droppable : NonterminalSet} (none : ∀ n, n ∉ droppable) : g.expandFamilies droppable = g := by
  have families : g.families.filterMap (Family.expand? droppable) = g.families := by
    apply filterMap_families_eq_self
    intro f hf
    have single : ∀ body ∈ f.bodies, expand droppable body = [body] := by
      intro body hb
      apply expand_eq_singleton
      · exact free ⟨f.head, body⟩ (mem_productions.mpr ⟨f, hf, rfl, hb⟩)
      · exact fun n _ => none n
    have bodies : f.bodies.flatMap (expand droppable) = f.bodies := by
      rw [List.flatMap_congr single]
      exact List.flatMap_singleton' f.bodies
    apply expand?_eq_some_iff.mpr
    refine ⟨rfl, grouped.bodies_ne_nil f hf, ?_⟩
    rw [bodies, distinct_eq_self (grouped.bodies_nodup f hf)]
  rw [expandFamilies, families]

/-- Without unit productions nothing is inherited. -/
theorem WellFormed.inherited_eq_nil (h : g.WellFormed) (free : g.NoUnitBody) :
    g.inherited = [] := by
  apply List.eq_nil_iff_forall_not_mem.mpr
  intro p hp
  obtain ⟨b, path, _⟩ := h.mem_inherited_iff.mp hp
  obtain ⟨c, step, _⟩ := Relation.TransGen.head'_iff.mp path
  exact free _ step c rfl

/-- Without unit productions the second stage changes nothing. -/
theorem WellFormed.inlineUnits_eq_self (h : g.WellFormed) (free : g.NoUnitBody) :
    g.inlineUnits = g := by
  have stays : g.productions.filter (fun p => !p.isUnit) = g.productions := by
    apply List.filter_eq_self.mpr
    intro p hp
    rw [Bool.not_eq_true', Bool.eq_false_iff, Ne, Production.isUnit_iff, not_exists]
    exact free p hp
  have families : group g.productions = g.families := h.grouped.group_productions
  rw [Grammar.inlineUnits, h.inherited_eq_nil free, List.append_nil, stays, families]

/-- Keeping all symbols changes nothing. -/
theorem WellFormed.restrictTo_eq_self (h : g.WellFormed) {keep : NonterminalSet}
    (all : ∀ n ∈ g.nonterminals, n.id ∈ keep) : g.restrictTo keep = g := by
  have declared {n : NonterminalId} (there : g.Declares (.nonterminal n)) : n ∈ keep := by
    obtain ⟨entry, member, rfl⟩ := List.mem_map.mp there
    exact all entry member
  have nonterminals : g.nonterminals.filter (fun n => keep.contains n.id) = g.nonterminals :=
    List.filter_eq_self.mpr fun n hn => IdSet.mem_iff.mp (all n hn)
  have families : g.families.filterMap (Family.restrictTo? keep) = g.families := by
    apply filterMap_families_eq_self
    intro f hf
    have inside : ∀ body ∈ f.bodies, (⟨f.head, body⟩ : Production) ∈ g.productions :=
      fun body hb => mem_productions.mpr ⟨f, hf, rfl, hb⟩
    obtain ⟨body, hb⟩ := List.exists_mem_of_ne_nil _ (h.grouped.bodies_ne_nil f hf)
    apply restrictTo?_eq_some_iff.mpr
    refine ⟨declared (h.head_declared _ (inside body hb)), rfl, h.grouped.bodies_ne_nil f hf, ?_⟩
    symm
    apply List.filter_eq_self.mpr
    intro body hb
    apply all_isWithin_iff.mpr
    exact fun n hn => declared (h.body_declared _ (inside body hb) _ hn)
  rw [Grammar.restrictTo, nonterminals, families]

/-- If every nonterminal derives a word, the third stage changes nothing. -/
theorem WellFormed.restrictTo_productiveSet_eq_self (h : g.WellFormed) (all : g.AllProductive) :
    g.restrictTo g.productiveSet = g :=
  h.restrictTo_eq_self fun n hn => mem_productiveSet_iff.mpr (all n hn)

/-- If every nonterminal is reachable, the fourth stage changes nothing. -/
theorem WellFormed.restrictTo_reachableSet_eq_self (h : g.WellFormed) (all : g.AllReachable) :
    g.restrictTo g.reachableSet = g :=
  h.restrictTo_eq_self fun n hn => (mem_reachableSet_iff h.grouped.heads_nodup).mpr (all n hn)

end Grammar

end Stages

namespace NormalForm

variable {productions : List Production}

theorem proxied_eq_nil (binary : ∀ p ∈ productions, Binary p.body) : proxied productions = [] := by
  apply List.eq_nil_iff_forall_not_mem.mpr
  intro t member
  obtain ⟨p, hp, long, terminal⟩ := mem_proxied.mp member
  have one := (binary p hp).length_of_terminal terminal
  omega

/-- Binary bodies need no links. -/
theorem sum_linkCount_eq_zero (binary : ∀ p ∈ productions, Binary p.body) :
    (productions.map linkCount).sum = 0 := by
  apply List.sum_eq_zero_iff_forall_eq_nat.mpr
  intro count member
  obtain ⟨p, hp, rfl⟩ := List.mem_map.mp member
  exact Nat.sub_eq_zero_of_le (binary p hp).length_le

theorem freshCount_eq_zero (binary : ∀ p ∈ productions, Binary p.body) :
    freshCount productions = 0 := by
  rw [freshCount, proxied_eq_nil binary, sum_linkCount_eq_zero binary]
  rfl

/-- For binary bodies nothing is added but a start symbol. -/
theorem freshKinds_eq (binary : ∀ p ∈ productions, Binary p.body) (derivesEmpty : Bool) :
    freshKinds productions derivesEmpty = if derivesEmpty then [.start] else [] := by
  rw [freshKinds, foldl_linkCount, proxied_eq_nil binary, sum_linkCount_eq_zero binary]
  rfl

/-- Without proxies every body stays as it is. -/
theorem isolate_nil (next : Nat) (body : Body) : isolate (proxyTable [] next) body = body := by
  have same : ∀ s, isolateSymbol (proxyTable [] next) s = s := by
    intro s
    cases s with
    | terminal t =>
        obtain ⟨same, _⟩ | ⟨i, found, _⟩ := isolateSymbol_terminal List.nodup_nil next t
        · exact same
        · cases found
    | nonterminal n => rfl
  unfold isolate
  split
  · rfl
  · rw [List.map_congr_left fun s _ => same s]
    exact List.map_id body

/-- Productions with binary bodies are their own pairs. -/
theorem pairs_eq_self (next : Nat) (binary : ∀ p ∈ productions, Binary p.body) :
    pairs next productions = productions := by
  have same : isolated [] next productions = productions := by
    have each : ∀ p ∈ productions,
        (⟨p.head, isolate (proxyTable [] next) p.body⟩ : Production) = p := by
      intro p _
      rw [isolate_nil]
    rw [isolated, List.map_congr_left each]
    exact List.map_id productions
  calc
    pairs next productions = binarize next productions := by
      rw [pairs, proxied_eq_nil binary, same]
      rfl
    _ = binarize next (productions ++ []) := by rw [List.append_nil]
    _ = productions ++ binarize next [] :=
      binarize_append_of_short (fun p hp => (binary p hp).length_le) next
    _ = productions := List.append_nil productions

end NormalForm

namespace Grammar

variable {g : Grammar}

/-- A grammar that leaves nothing to do for any stage. -/
structure Settled (g : Grammar) : Prop where
  wellFormed : g.WellFormed
  binary : ∀ p ∈ g.productions, Binary p.body
  allProductive : g.AllProductive
  allReachable : g.AllReachable

namespace Settled

theorem noEmptyBody (h : g.Settled) : g.NoEmptyBody := fun p hp => (h.binary p hp).ne_nil

theorem noUnitBody (h : g.Settled) : g.NoUnitBody := fun p hp n => (h.binary p hp).ne_unit n

theorem not_derives_nil (h : g.Settled) (n : NonterminalId) : ¬ g.Derives n [] := by
  intro derives
  exact h.noEmptyBody.ne_nil_of_yields (List.cons_ne_nil _ _) derives rfl

theorem withoutEmptyBodies (h : g.Settled) : g.withoutEmptyBodies = g := by
  apply expandFamilies_eq_self h.wellFormed.grouped h.noEmptyBody
  intro n nullable
  exact h.not_derives_nil n (mem_nullables_iff.mp nullable)

theorem withoutUnits (h : g.Settled) : g.withoutUnits = g := by
  rw [Grammar.withoutUnits, h.withoutEmptyBodies, h.wellFormed.inlineUnits_eq_self h.noUnitBody]

theorem productivePart (h : g.Settled) : g.productivePart = g := by
  rw [Grammar.productivePart, h.withoutUnits]
  exact h.wellFormed.restrictTo_productiveSet_eq_self h.allProductive

theorem usefulPart (h : g.Settled) : g.usefulPart = g := by
  rw [Grammar.usefulPart, h.productivePart]
  exact h.wellFormed.restrictTo_reachableSet_eq_self h.allReachable

theorem freshKinds (h : g.Settled) : freshKinds g.productions false = [] :=
  freshKinds_eq h.binary false

theorem paired (h : g.Settled) : g.paired false = g := by
  have families : group g.productions = g.families := h.wellFormed.grouped.group_productions
  rw [paired_false, h.freshKinds, withPairs, pairs_eq_self _ h.binary, families]
  simp [freshNonterminals]

theorem keepsEmptyWord (h : g.Settled) (policy : EmptyWord) : g.keepsEmptyWord policy = false := by
  rw [Bool.eq_false_iff, Ne, keepsEmptyWord_iff, not_and]
  intro _
  exact h.not_derives_nil g.start

theorem start_mem_productiveSet (h : g.Settled) : g.start ∈ g.withoutUnits.productiveSet := by
  obtain ⟨entry, there, same⟩ := List.mem_map.mp h.wellFormed.start_declared
  rw [h.withoutUnits, mem_productiveSet_iff, ← same]
  exact h.allProductive entry there

/-- Normalizing changes nothing. -/
theorem normalize (h : g.Settled) (policy : EmptyWord) : g.normalize policy = .ok ⟨g, false⟩ := by
  rw [h.wellFormed.normalize_eq, if_pos h.start_mem_productiveSet, h.keepsEmptyWord, h.usefulPart,
    h.freshKinds, h.paired]
  exact if_pos h.wellFormed.next_le

/-- Every stage returns the grammar it was given. -/
theorem stages_normalization (h : g.Settled) (policy : EmptyWord) :
    (g.normalization policy).stages = Stage.order.map fun stage => (stage, g) := by
  have last : (g.normalization policy).normalForm = .ok ⟨g, false⟩ := h.normalize policy
  rw [Normalization.stages, last, h.wellFormed.normalization_input,
    h.wellFormed.normalization_epsilonFree, h.wellFormed.normalization_unitFree,
    h.wellFormed.normalization_productive, h.wellFormed.normalization_reachable,
    if_pos h.start_mem_productiveSet, if_pos h.start_mem_productiveSet, h.withoutEmptyBodies,
    h.withoutUnits, h.productivePart, h.usefulPart]
  rfl

end Settled

/-- The normal form of a reduced grammar is settled if the empty word is not kept. -/
theorem Proper.settled_paired (h : g.Proper) (words : g.AllProductive) (reached : g.AllReachable)
    (room : g.nextNonterminal + (freshKinds g.productions false).length ≤ idLimit) :
    (g.paired false).Settled where
  wellFormed := h.wellFormed.paired room
  binary p hp := by
    have form := h.wellFormed.inNormalForm_paired h.noEmptyBody h.noUnitBody false
    obtain binary | ⟨_, _, absurdity⟩ := form.binary_or_empty p hp
    · exact binary
    · cases absurdity
  allProductive n hn := by
    obtain ⟨w, _, derives⟩ := h.exists_word_paired words hn
    exact ⟨w, derives⟩
  allReachable := reached.paired h.wellFormed

end Grammar

/-- Without the empty word the result of a normalization is settled. -/
theorem Obtained.settled_of_normalize {g : Grammar} {policy : EmptyWord} {c : NormalForm}
    (h : Obtained (.grammar g)) (ok : g.normalize policy = .ok c)
    (drops : c.derivesEmpty = false) : c.grammar.Settled := by
  obtain ⟨rfl, reduced, room⟩ := h.eq_paired_of_normalize ok
  obtain ⟨proper, words, reached⟩ := reduced.lawful
  have keeps : g.keepsEmptyWord policy = false := drops
  rw [keeps] at room ⊢
  exact proper.settled_paired words reached room

/-- Normalization is idempotent. A normal form without the empty word is its own normal form,
whatever the policy, and every stage returns it unchanged. -/
theorem Obtained.normalize_idempotent {g : Grammar} {policy : EmptyWord} {c : NormalForm}
    (h : Obtained (.grammar g)) (ok : g.normalize policy = .ok c) (drops : c.derivesEmpty = false)
    (again : EmptyWord) :
    c.grammar.normalize again = .ok c ∧
      (c.grammar.normalization again).stages = Stage.order.map fun stage => (stage, c.grammar) := by
  have settled := h.settled_of_normalize ok drops
  refine ⟨?_, settled.stages_normalization again⟩
  rw [settled.normalize again, ← drops]

/-- The normal form of the palindromes without the empty word stays as it is, also when the
empty word would be preserved. -/
theorem evenPalindromes_normalize_idempotent :
    let c : NormalForm := ⟨evenPalindromes.usefulPart.paired false, false⟩
    Obtained (.grammar evenPalindromes) ∧ evenPalindromes.normalize .drop = .ok c ∧
      c.derivesEmpty = false ∧ c.grammar.normalize .preserve = .ok c ∧
      (c.grammar.normalization .preserve).stages.map Prod.snd = List.replicate 6 c.grammar := by
  intro c
  have ok : evenPalindromes.normalize .drop = .ok c := by decide +kernel
  obtain ⟨same, stages⟩ := obtained_evenPalindromes.normalize_idempotent ok rfl .preserve
  refine ⟨obtained_evenPalindromes, ok, rfl, same, ?_⟩
  rw [stages]
  rfl

end ContextFree
