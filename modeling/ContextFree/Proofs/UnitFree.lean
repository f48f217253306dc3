import ContextFree.Proofs.EpsilonFree
import ContextFree.Proofs.Graph.Closure
import ContextFree.Stage.UnitFree

/-!
# Eliminating unit productions

The unit pairs are the transitive closure of the unit productions. After inlining, the
bodies of a head are those bodies, other than single nonterminals, that it reaches by a
chain of unit productions. A derivation in one grammar therefore becomes one in the
other by contracting its chains or by putting them back, and every nonterminal keeps
its words.
-/

namespace ContextFree

variable {g : Grammar} {a b : NonterminalId} {p : Production}

theorem unitTarget?_eq_some_iff {body : Body} :
    unitTarget? body = some b ↔ body = [.nonterminal b] := by
  constructor
  · intro h
    unfold unitTarget? at h
    split at h
    · rw [Option.some.inj h]
    · cases h
  · rintro rfl
    rfl

theorem mem_unitTargets {bodies : List Body} :
    b ∈ unitTargets bodies ↔ [.nonterminal b] ∈ bodies := by
  rw [unitTargets, IdSet.mem_ofList, List.mem_filterMap]
  constructor
  · rintro ⟨body, hbody, target⟩
    exact unitTarget?_eq_some_iff.mp target ▸ hbody
  · intro h
    exact ⟨_, h, rfl⟩

/-- A unit production has a single nonterminal as its body. -/
theorem Production.isUnit_iff : p.isUnit = true ↔ ∃ b, p.body = [.nonterminal b] := by
  rw [Production.isUnit, Option.isSome_iff_exists]
  exact exists_congr fun b => unitTarget?_eq_some_iff

namespace Grammar

/-- A unit production leads from one nonterminal to another. -/
def UnitStep (g : Grammar) (a b : NonterminalId) : Prop := ⟨a, [.nonterminal b]⟩ ∈ g.productions

section UnitPairs

/-- The direct targets of a nonterminal. -/
def unitSuccessors (g : Grammar) (n : NonterminalId) : NonterminalSet :=
  unitTargets (g.bodyTable.getD n [])

def unitTable (g : Grammar) : List (NonterminalId × NonterminalSet) :=
  g.nonterminals.map fun n => (n.id, g.unitSuccessors n.id)

/-- All nonterminals, each with what it reaches by unit productions. -/
def unitClosure (g : Grammar) : List (NonterminalId × NonterminalSet) :=
  Graph.closure g.unitTable fun n => (g.unitSuccessors n).toList

theorem unitPairs_eq : g.unitPairs = g.unitClosure.filter fun p => !p.2.isEmpty := rfl

theorem map_fst_unitTable : g.unitTable.map Prod.fst = g.nonterminals.map Nonterminal.id := by
  rw [unitTable, List.map_map]
  rfl

theorem Valid.map_fst_unitClosure (h : g.Valid) :
    g.unitClosure.map Prod.fst = g.nonterminals.map Nonterminal.id := by
  have nodup : (g.unitTable.map Prod.fst).Nodup := map_fst_unitTable ▸ h.nonterminal_ids_nodup
  rw [unitClosure, Graph.map_fst_closure (fun _ _ _ => IdSet.mem_union) nodup, map_fst_unitTable]

theorem Valid.mem_unitSuccessors (h : g.Valid) : b ∈ g.unitSuccessors a ↔ g.UnitStep a b := by
  rw [unitSuccessors, mem_unitTargets, getD_bodyTable, mem_bodiesOf_of_nodup h.heads_nodup]
  rfl

/-- No unit production leaves the table. -/
theorem Valid.leads_eq_unitStep (h : g.Valid) :
    Graph.Leads (g.unitTable.map Prod.fst) (fun n => (g.unitSuccessors n).toList) =
      g.UnitStep := by
  funext a b
  rw [Graph.Leads, IdSet.mem_toList, h.mem_unitSuccessors, map_fst_unitTable]
  apply propext
  rw [and_iff_left_iff_imp]
  intro step
  exact h.body_declared step List.mem_cons_self

/-- The set of a nonterminal in the closure is what it reaches by unit productions. -/
theorem Valid.mem_unitClosure_iff (h : g.Valid) {reached : NonterminalSet}
    (ha : (a, reached) ∈ g.unitClosure) : b ∈ reached ↔ Relation.TransGen g.UnitStep a b := by
  have nodup : (g.unitTable.map Prod.fst).Nodup := map_fst_unitTable ▸ h.nonterminal_ids_nodup
  rw [Graph.mem_closure_iff (fun _ _ _ => IdSet.mem_union) nodup ha, h.leads_eq_unitStep,
    Relation.TransGen.tail'_iff]
  constructor
  · rintro ⟨m, s, hm, hb, path⟩
    obtain ⟨n, _, pair⟩ := List.mem_map.mp hm
    obtain ⟨rfl, rfl⟩ := Prod.mk.inj pair
    exact ⟨n.id, path, h.mem_unitSuccessors.mp hb⟩
  · rintro ⟨m, path, step⟩
    obtain ⟨n, hn, rfl⟩ := List.mem_map.mp (h.head_declared step)
    exact ⟨n.id, _, List.mem_map.mpr ⟨n, hn, rfl⟩, h.mem_unitSuccessors.mpr step, path⟩

/-- The unit pairs are the transitive closure of the unit productions. -/
theorem Valid.mem_unitPairs_iff (h : g.Valid) {reached : NonterminalSet}
    (ha : (a, reached) ∈ g.unitPairs) : b ∈ reached ↔ Relation.TransGen g.UnitStep a b :=
  h.mem_unitClosure_iff (List.mem_of_mem_filter (unitPairs_eq ▸ ha))

/-- Whatever reaches a nonterminal by unit productions is listed among the unit pairs. -/
theorem Valid.exists_mem_unitPairs (h : g.Valid)
    (path : Relation.TransGen g.UnitStep a b) :
    ∃ reached, (a, reached) ∈ g.unitPairs ∧ b ∈ reached := by
  obtain ⟨c, step, _⟩ := Relation.TransGen.head'_iff.mp path
  have declared : a ∈ g.unitClosure.map Prod.fst := h.map_fst_unitClosure ▸ h.head_declared step
  obtain ⟨⟨a', reached⟩, ha, rfl⟩ := List.mem_map.mp declared
  have hb := (h.mem_unitClosure_iff ha).mpr path
  refine ⟨reached, List.mem_filter.mpr ⟨ha, ?_⟩, hb⟩
  rw [Bool.not_eq_true', Bool.eq_false_iff]
  exact fun empty => IdSet.isEmpty_iff.mp empty b hb

end UnitPairs

theorem WellFormed.mem_inherited_iff (h : g.WellFormed) :
    p ∈ g.inherited ↔
      ∃ b, Relation.TransGen g.UnitStep p.head b ∧ ⟨b, p.body⟩ ∈ g.productions := by
  unfold inherited
  simp only [List.mem_flatMap, List.mem_map, getD_bodyTable, IdSet.mem_toList,
    mem_bodiesOf h.grouped]
  constructor
  · rintro ⟨⟨a, reached⟩, ha, b, hb, body, hbody, rfl⟩
    exact ⟨b, (h.valid.mem_unitPairs_iff ha).mp hb, hbody⟩
  · rintro ⟨b, path, hbody⟩
    obtain ⟨reached, ha, hb⟩ := h.valid.exists_mem_unitPairs path
    exact ⟨(p.head, reached), ha, b, hb, p.body, hbody, rfl⟩

/-- The bodies after inlining: those other than single nonterminals that a head reaches. -/
theorem WellFormed.mem_productions_inlineUnits (h : g.WellFormed) :
    p ∈ g.inlineUnits.productions ↔
      (∀ b, p.body ≠ [.nonterminal b]) ∧
        ∃ b, Relation.ReflTransGen g.UnitStep p.head b ∧ ⟨b, p.body⟩ ∈ g.productions := by
  have grouped : p ∈ g.inlineUnits.productions ↔
      p ∈ (g.productions ++ g.inherited).filter fun p => !p.isUnit := mem_group
  rw [grouped, List.mem_filter, List.mem_append, h.mem_inherited_iff, and_comm,
    Bool.not_eq_true', Bool.eq_false_iff, Ne, Production.isUnit_iff, not_exists]
  refine and_congr_right fun _ => ?_
  constructor
  · rintro (own | ⟨b, path, hbody⟩)
    · exact ⟨p.head, .refl, own⟩
    · exact ⟨b, path.to_reflTransGen, hbody⟩
  · rintro ⟨b, path, hbody⟩
    rcases Relation.reflTransGen_iff_eq_or_transGen.mp path with rfl | path
    · exact Or.inl hbody
    · exact Or.inr ⟨b, path, hbody⟩

theorem WellFormed.inlineUnits (h : g.WellFormed) : g.inlineUnits.WellFormed := by
  apply h.with_families (grouped_group _)
  · intro p hp
    obtain ⟨_, b, path, hbody⟩ := h.mem_productions_inlineUnits.mp hp
    rcases Relation.ReflTransGen.cases_head path with rfl | ⟨c, step, _⟩
    · exact h.head_declared _ hbody
    · exact h.head_declared ⟨p.head, [.nonterminal c]⟩ step
  · intro p hp s hs
    obtain ⟨_, b, _, hbody⟩ := h.mem_productions_inlineUnits.mp hp
    exact h.body_declared _ hbody s hs

/-- A nonterminal derives what the end of a chain of unit productions derives. -/
theorem derives_of_unitSteps {w : Word} (path : Relation.ReflTransGen g.UnitStep a b)
    (h : g.Derives b w) : g.Derives a w := by
  induction path using Relation.ReflTransGen.head_induction_on with
  | refl => exact h
  | head step _ ih => exact derives_iff.mpr ⟨_, step, ih⟩

/-- A nonterminal that leads to another by unit productions has its bodies after inlining. -/
theorem WellFormed.derives_inlineUnits_of_unitStep (h : g.WellFormed) {w : Word}
    (step : g.UnitStep a b) (hb : g.inlineUnits.Derives b w) : g.inlineUnits.Derives a w := by
  obtain ⟨body, rule, hw⟩ := derives_iff.mp hb
  obtain ⟨other, c, path, hbody⟩ := h.mem_productions_inlineUnits.mp rule
  apply derives_iff.mpr
  exact ⟨body, h.mem_productions_inlineUnits.mpr ⟨other, c, path.head step, hbody⟩, hw⟩

/-- Inlining unit productions keeps the words of every nonterminal. -/
theorem WellFormed.derives_inlineUnits_iff (h : g.WellFormed) {w : Word} :
    g.inlineUnits.Derives a w ↔ g.Derives a w := by
  constructor
  · apply Yields.simulate
    intro n body w rule hw
    obtain ⟨_, b, path, hbody⟩ := h.mem_productions_inlineUnits.mp rule
    exact derives_of_unitSteps path (derives_iff.mpr ⟨body, hbody, hw⟩)
  · apply Yields.simulate
    intro n body w rule hw
    by_cases unit : ∃ b, body = [.nonterminal b]
    · obtain ⟨b, rfl⟩ := unit
      exact h.derives_inlineUnits_of_unitStep rule hw
    · have other : ∀ b, body ≠ [.nonterminal b] := not_exists.mp unit
      apply derives_iff.mpr
      exact ⟨body, h.mem_productions_inlineUnits.mpr ⟨other, n, .refl, rule⟩, hw⟩

/-- Inlining brings no empty bodies back. -/
theorem WellFormed.body_ne_nil_of_mem_inlineUnits (h : g.WellFormed)
    (free : ∀ p ∈ g.productions, p.body ≠ []) (hp : p ∈ g.inlineUnits.productions) :
    p.body ≠ [] := by
  obtain ⟨_, b, _, hbody⟩ := h.mem_productions_inlineUnits.mp hp
  exact free ⟨b, p.body⟩ hbody

/-- Eliminating unit productions never fails on a well-formed grammar without empty bodies. -/
theorem WellFormed.eliminateUnits (h : g.WellFormed) (free : ∀ p ∈ g.productions, p.body ≠ []) :
    EpsilonFree.eliminateUnits ⟨g⟩ = .ok ⟨g.inlineUnits⟩ := by
  have valid := h.inlineUnits.validate_eq_ok
  have nonempty : g.inlineUnits.forbid Production.isEpsilon .epsilonProduction = .ok () := by
    apply forbid_eq_ok_iff.mpr
    intro p hp
    simpa [Production.isEpsilon] using h.body_ne_nil_of_mem_inlineUnits free hp
  have other : g.inlineUnits.forbid Production.isUnit .unitProduction = .ok () := by
    apply forbid_eq_ok_iff.mpr
    intro p hp
    rw [Bool.eq_false_iff, Ne, Production.isUnit_iff, not_exists]
    exact (h.mem_productions_inlineUnits.mp hp).1
  rw [EpsilonFree.eliminateUnits, UnitFree.ofGrammar, valid, nonempty, other]
  rfl

end Grammar

end ContextFree
