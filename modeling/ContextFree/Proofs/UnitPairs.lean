import ContextFree.Proofs.Obtained
import ContextFree.Proofs.UnitFree
import Mathlib.Data.List.Chain

/-!
# Unit pairs are the transitive closure of the unit productions

A nonterminal is listed among the unit pairs if it has a unit production, and its set holds
what it reaches by one or more of them. The sets start from the direct targets, so a
nonterminal is in its own set only if a cycle of unit productions leads back to it.
-/

namespace ContextFree

section Cycle

variable {α : Type} {r : α → α → Prop} {a b : α}

/-- What is reached is reached by a path that visits nothing twice. -/
theorem exists_simple_path (path : Relation.ReflTransGen r a b) :
    ∃ nodes : List α, nodes.Nodup ∧ nodes.IsChain r ∧ nodes.head? = some a ∧
      nodes.getLast? = some b := by
  induction path using Relation.ReflTransGen.head_induction_on with
  | refl => exact ⟨[b], List.nodup_singleton b, .singleton b, rfl, rfl⟩
  | @head a c step _ ih =>
      obtain ⟨nodes, nodup, chain, first, last⟩ := ih
      by_cases repeated : a ∈ nodes
      · -- The path comes back to its new first node, so its beginning can be left out.
        obtain ⟨before, after, rfl⟩ := List.append_of_mem repeated
        refine ⟨a :: after, nodup.of_append_right, chain.right_of_append, rfl, ?_⟩
        rwa [List.getLast?_append_of_ne_nil _ (List.cons_ne_nil a after)] at last
      · refine ⟨a :: nodes, List.nodup_cons.mpr ⟨repeated, nodup⟩, ?_, rfl, ?_⟩
        · apply List.isChain_cons.mpr
          refine ⟨fun d hd => ?_, chain⟩
          rw [first] at hd
          exact Option.some.inj hd ▸ step
        · rw [List.getLast?_cons, last]
          rfl

/-- A cycle through a node that visits nothing twice. -/
def OnCycle (r : α → α → Prop) (a : α) : Prop :=
  ∃ others : List α, (a :: others).Nodup ∧ (a :: others ++ [a]).IsChain r

/-- A node reaches itself by one or more steps exactly if it lies on a cycle. -/
theorem transGen_self_iff : Relation.TransGen r a a ↔ OnCycle r a := by
  constructor
  · intro path
    obtain ⟨c, step, back⟩ := Relation.TransGen.head'_iff.mp path
    obtain ⟨nodes, nodup, chain, first, last⟩ := exists_simple_path back
    obtain ⟨others, rfl⟩ := List.getLast?_eq_some_iff.mp last
    refine ⟨others, ?_, ?_⟩
    · exact (List.perm_append_singleton a others).nodup_iff.mp nodup
    · rw [List.cons_append]
      apply List.isChain_cons.mpr
      refine ⟨fun d hd => ?_, chain⟩
      rw [first] at hd
      exact Option.some.inj hd ▸ step
  · rintro ⟨others, _, chain⟩
    obtain ⟨c, rest, tail⟩ := List.exists_cons_of_ne_nil (List.concat_ne_nil a others)
    rw [List.cons_append, tail] at chain
    obtain ⟨step, later⟩ := List.isChain_cons_cons.mp chain
    have last : (c :: rest).getLast (List.cons_ne_nil c rest) = a := by simp [← tail]
    apply Relation.TransGen.head'_iff.mpr
    exact ⟨c, step, List.relationReflTransGen_of_exists_isChain_cons rest later last⟩

end Cycle

namespace Grammar

variable {g : Grammar} {a b : NonterminalId}

theorem Valid.nodup_unitPairs (h : g.Valid) : (g.unitPairs.map Prod.fst).Nodup := by
  rw [unitPairs_eq]
  apply List.Nodup.sublist (List.filter_sublist.map Prod.fst)
  rw [h.map_fst_unitClosure]
  exact h.nonterminal_ids_nodup

/-- The nonterminals with a set among the unit pairs are those with a unit production. -/
theorem Valid.mem_map_fst_unitPairs (h : g.Valid) :
    a ∈ g.unitPairs.map Prod.fst ↔ ∃ b, g.UnitStep a b := by
  constructor
  · intro member
    obtain ⟨⟨a, reached⟩, listed, rfl⟩ := List.mem_map.mp member
    rw [unitPairs_eq, List.mem_filter, Bool.not_eq_true', Bool.eq_false_iff, Ne,
      IdSet.isEmpty_iff, not_forall] at listed
    obtain ⟨closed, b, reaches⟩ := listed
    have path := (h.mem_unitClosure_iff closed).mp (not_not.mp reaches)
    obtain ⟨c, step, _⟩ := Relation.TransGen.head'_iff.mp path
    exact ⟨c, step⟩
  · rintro ⟨b, step⟩
    obtain ⟨reached, listed, _⟩ := h.exists_mem_unitPairs (.single step)
    exact List.mem_map_of_mem listed

/-- The unit pairs relate each nonterminal to those it reaches by one or more unit productions.
It is in its own set exactly if it lies on a cycle of unit productions, and it has a set exactly
if it has a unit production. -/
theorem Valid.unitPairs_transitive_closure (h : g.Valid) :
    (g.unitPairs.map Prod.fst).Nodup ∧
      (∀ a b, (∃ reached, (a, reached) ∈ g.unitPairs ∧ b ∈ reached) ↔
        Relation.TransGen g.UnitStep a b) ∧
      (∀ a, (∃ reached, (a, reached) ∈ g.unitPairs ∧ a ∈ reached) ↔ OnCycle g.UnitStep a) ∧
      ∀ a, (∃ reached, (a, reached) ∈ g.unitPairs) ↔ ∃ b, g.UnitStep a b := by
  have pairs (a b : NonterminalId) : (∃ reached, (a, reached) ∈ g.unitPairs ∧ b ∈ reached) ↔
      Relation.TransGen g.UnitStep a b := by
    constructor
    · rintro ⟨reached, listed, member⟩
      exact (h.mem_unitPairs_iff listed).mp member
    · exact h.exists_mem_unitPairs
  refine ⟨h.nodup_unitPairs, pairs, fun a => ?_, fun a => ?_⟩
  · rw [pairs, transGen_self_iff]
  · rw [← h.mem_map_fst_unitPairs]
    simp

end Grammar

/-- The start symbol of the palindromes lies on a cycle of three unit productions, although one
of the symbols on it has the empty body. -/
theorem evenPalindromes_unitPairs_transitive_closure :
    evenPalindromes.Valid ∧ ⟨⟨2⟩, []⟩ ∈ evenPalindromes.productions ∧
      ∃ reached, (⟨0⟩, reached) ∈ evenPalindromes.unitPairs ∧ ⟨0⟩ ∈ reached := by
  have valid : evenPalindromes.Valid :=
    ⟨by decide +kernel, by decide +kernel, by decide +kernel⟩
  obtain ⟨_, _, cycles, _⟩ := valid.unitPairs_transitive_closure
  have first : evenPalindromes.UnitStep ⟨0⟩ ⟨1⟩ := by
    change _ ∈ evenPalindromes.productions
    decide +kernel
  have second : evenPalindromes.UnitStep ⟨1⟩ ⟨2⟩ := by
    change _ ∈ evenPalindromes.productions
    decide +kernel
  have third : evenPalindromes.UnitStep ⟨2⟩ ⟨0⟩ := by
    change _ ∈ evenPalindromes.productions
    decide +kernel
  refine ⟨valid, by decide +kernel, (cycles _).mpr ⟨[⟨1⟩, ⟨2⟩], by decide, ?_⟩⟩
  simp [first, second, third]

end ContextFree
