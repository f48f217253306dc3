import ContextFree.Proofs.Saturation
import ContextFree.Proofs.WellFormed
import ContextFree.Stage.EpsilonFree

/-!
# Eliminating empty bodies

The bodies of the new grammar are the nonempty ones that remain when droppable symbols
are left out of a body. If only nullable symbols are droppable, each symbol left out can
be put back with a derivation of the empty word. If all nullable symbols are droppable,
a derivation of a nonempty word survives when every part of it that derives the empty
word is cut away. Together, each nonterminal keeps exactly its nonempty words.
-/

namespace ContextFree

variable {g : Grammar} {droppable : NonterminalSet}

/-- A body remains of another when some droppable nonterminals are left out. -/
inductive Thinned (droppable : NonterminalSet) : Body → Body → Prop where
  | nil : Thinned droppable [] []
  | keep (s : Symbol) {body rest : Body} :
      Thinned droppable body rest → Thinned droppable (s :: body) (s :: rest)
  | drop {n : NonterminalId} {body rest : Body} :
      n ∈ droppable → Thinned droppable body rest →
      Thinned droppable (.nonterminal n :: body) rest

theorem isDroppable_iff {s : Symbol} :
    isDroppable droppable s = true ↔ ∃ n ∈ droppable, s = .nonterminal n := by
  cases s with
  | terminal t => simp [isDroppable, Symbol.nonterminal?]
  | nonterminal n => simp [isDroppable, Symbol.nonterminal?, IdSet.mem_iff]

theorem mem_variants_iff {body rest : Body} :
    rest ∈ variants droppable body ↔ Thinned droppable body rest := by
  induction body generalizing rest with
  | nil =>
      rw [variants_nil, List.mem_singleton]
      constructor
      · rintro rfl
        exact .nil
      · intro h
        cases h
        rfl
  | cons s body ih =>
      rw [variants_cons]
      by_cases hs : isDroppable droppable s = true
      · obtain ⟨n, hn, rfl⟩ := isDroppable_iff.mp hs
        rw [if_pos hs, List.mem_flatMap]
        constructor
        · rintro ⟨v, hv, hrest⟩
          rcases List.mem_pair.mp hrest with rfl | rfl
          · exact .drop hn (ih.mp hv)
          · exact .keep _ (ih.mp hv)
        · intro h
          cases h with
          | keep _ h => exact ⟨_, ih.mpr h, List.mem_pair.mpr (Or.inr rfl)⟩
          | drop _ h => exact ⟨_, ih.mpr h, List.mem_pair.mpr (Or.inl rfl)⟩
      · rw [if_neg hs, List.mem_map]
        constructor
        · rintro ⟨v, hv, rfl⟩
          exact .keep s (ih.mp hv)
        · intro h
          cases h with
          | keep _ h => exact ⟨_, ih.mpr h, rfl⟩
          | drop hn _ => exact absurd (isDroppable_iff.mpr ⟨_, hn, rfl⟩) hs

theorem mem_expand_iff {body rest : Body} :
    rest ∈ expand droppable body ↔ rest ≠ [] ∧ Thinned droppable body rest := by
  rw [expand, List.mem_filter, mem_variants_iff, and_comm]
  simp

theorem Thinned.subset {body rest : Body} (h : Thinned droppable body rest) : rest ⊆ body := by
  induction h with
  | nil => exact List.Subset.refl _
  | keep s _ ih => exact List.cons_subset_cons s ih
  | drop _ _ ih => exact List.subset_cons_of_subset _ ih

/-- With more droppable symbols, more bodies remain. -/
theorem Thinned.mono {larger : NonterminalSet} (sub : ∀ n ∈ droppable, n ∈ larger)
    {body rest : Body} (h : Thinned droppable body rest) : Thinned larger body rest := by
  induction h with
  | nil => exact .nil
  | keep s _ ih => exact .keep s ih
  | drop hn _ ih => exact .drop (sub _ hn) ih

theorem expand?_eq_some_iff {f f' : Family} :
    f.expand? droppable = some f' ↔
      f'.head = f.head ∧ f'.bodies ≠ [] ∧
        f'.bodies = distinct (f.bodies.flatMap (expand droppable)) := by
  unfold Family.expand?
  split
  next none =>
    rw [none]
    simp
  next bodies some =>
    rw [Option.some.injEq, Family.ext_iff]
    constructor
    · rintro ⟨head, same⟩
      exact ⟨head.symm, fun empty => some (same.trans empty), same.symm⟩
    · rintro ⟨head, _, same⟩
      exact ⟨head.symm, same.symm⟩

namespace Grammar

/-- The productions of the new grammar. -/
theorem mem_productions_expandFamilies {p : Production} :
    p ∈ (g.expandFamilies droppable).productions ↔
      p.body ≠ [] ∧ ∃ body, ⟨p.head, body⟩ ∈ g.productions ∧ Thinned droppable body p.body := by
  rw [mem_productions]
  constructor
  · rintro ⟨f', hf', head, hb⟩
    obtain ⟨f, hf, expanded⟩ := List.mem_filterMap.mp hf'
    obtain ⟨same, _, bodies⟩ := expand?_eq_some_iff.mp expanded
    rw [bodies, mem_distinct, List.mem_flatMap] at hb
    obtain ⟨body, hbody, hrest⟩ := hb
    obtain ⟨nonempty, thinned⟩ := mem_expand_iff.mp hrest
    exact ⟨nonempty, body, mem_productions.mpr ⟨f, hf, same ▸ head, hbody⟩, thinned⟩
  · rintro ⟨nonempty, body, rule, thinned⟩
    obtain ⟨f, hf, head, hbody⟩ := mem_productions.mp rule
    have member : p.body ∈ distinct (f.bodies.flatMap (expand droppable)) :=
      mem_distinct.mpr (List.mem_flatMap.mpr ⟨body, hbody, mem_expand_iff.mpr ⟨nonempty, thinned⟩⟩)
    refine ⟨⟨f.head, distinct (f.bodies.flatMap (expand droppable))⟩, ?_, head, member⟩
    refine List.mem_filterMap.mpr ⟨f, hf, expand?_eq_some_iff.mpr ?_⟩
    exact ⟨rfl, List.ne_nil_of_mem member, rfl⟩

theorem WellFormed.expandFamilies (h : g.WellFormed) (droppable : NonterminalSet) :
    (g.expandFamilies droppable).WellFormed := by
  apply h.with_families
  · apply h.grouped.filterMap
    · intro f f' expanded
      exact (expand?_eq_some_iff.mp expanded).1
    · intro f _ f' expanded
      obtain ⟨_, _, bodies⟩ := expand?_eq_some_iff.mp expanded
      exact bodies ▸ nodup_distinct _
    · intro f f' expanded
      exact (expand?_eq_some_iff.mp expanded).2.1
  · intro p hp
    obtain ⟨_, body, rule, _⟩ := mem_productions_expandFamilies.mp hp
    exact h.head_declared ⟨p.head, body⟩ rule
  · intro p hp s hs
    obtain ⟨_, body, rule, thinned⟩ := mem_productions_expandFamilies.mp hp
    exact h.body_declared _ rule s (thinned.subset hs)

theorem body_ne_nil_of_mem_expandFamilies {p : Production}
    (hp : p ∈ (g.expandFamilies droppable).productions) : p.body ≠ [] :=
  (mem_productions_expandFamilies.mp hp).1

/-- Symbols left out can be put back if they derive the empty word. -/
theorem yields_of_thinned (nullable : ∀ n ∈ droppable, g.Derives n []) {body rest : Body}
    (thinned : Thinned droppable body rest) {w : Word}
    (h : Yields (· ∈ g.productions) rest w) : Yields (· ∈ g.productions) body w := by
  induction thinned generalizing w with
  | nil => exact h
  | keep s _ ih =>
      obtain ⟨u, v, rfl, hu, hv⟩ := Yields.cons_iff.mp h
      exact Yields.cons_iff.mpr ⟨u, v, rfl, hu, ih hv⟩
  | drop hn _ ih => exact Yields.cons_iff.mpr ⟨[], w, rfl, nullable _ hn, ih h⟩

/-- If only nullable symbols are droppable, nothing new is derived, and never the empty word. -/
theorem derives_of_expandFamilies (nullable : ∀ n ∈ droppable, n ∈ g.nullables)
    {n : NonterminalId} {w : Word} (h : (g.expandFamilies droppable).Derives n w) :
    w ≠ [] ∧ g.Derives n w := by
  constructor
  · rintro rfl
    have short := Yields.length_le (fun p hp => body_ne_nil_of_mem_expandFamilies hp) h
    exact Nat.not_succ_le_zero 0 short
  · refine h.simulate fun n rest w rule hw => ?_
    obtain ⟨_, body, source, thinned⟩ := mem_productions_expandFamilies.mp rule
    have empty : ∀ n ∈ droppable, g.Derives n [] :=
      fun n hn => mem_nullables_iff.mp (nullable n hn)
    exact Yields.singleton_iff.mpr ⟨body, source, yields_of_thinned empty thinned hw⟩

/-- If all nullable symbols are droppable, some of the symbols that remain of a body derive
its word without empty bodies. -/
theorem exists_thinned_yields (droppable_of_nullable : ∀ n ∈ g.nullables, n ∈ droppable)
    {body : Body} {w : Word} (h : Yields (· ∈ g.productions) body w) :
    ∃ rest, Thinned droppable body rest ∧
      Yields (· ∈ (g.expandFamilies droppable).productions) rest w := by
  induction h with
  | nil => exact ⟨[], .nil, .nil⟩
  | @terminal t _ _ _ ih =>
      obtain ⟨rest, thinned, hw⟩ := ih
      exact ⟨.terminal t :: rest, .keep _ thinned, .terminal hw⟩
  | @nonterminal n body _ u v rule hu _ ihu ihv =>
      obtain ⟨rest, thinned, hv⟩ := ihv
      by_cases empty : u = []
      · -- The whole subderivation is cut away.
        subst empty
        have nullable : n ∈ g.nullables := mem_nullables_iff.mpr (derives_iff.mpr ⟨body, rule, hu⟩)
        exact ⟨rest, .drop (droppable_of_nullable n nullable) thinned, hv⟩
      · obtain ⟨sub, hsub, hu⟩ := ihu
        have nonempty : sub ≠ [] := by
          rintro rfl
          exact empty (Yields.nil_iff.mp hu)
        refine ⟨.nonterminal n :: rest, .keep _ thinned, .nonterminal ?_ hu hv⟩
        exact mem_productions_expandFamilies.mpr ⟨nonempty, body, rule, hsub⟩

theorem derives_expandFamilies (droppable_of_nullable : ∀ n ∈ g.nullables, n ∈ droppable)
    {n : NonterminalId} {w : Word} (nonempty : w ≠ []) (h : g.Derives n w) :
    (g.expandFamilies droppable).Derives n w := by
  obtain ⟨rest, thinned, hw⟩ := exists_thinned_yields droppable_of_nullable h
  cases thinned with
  | keep _ none =>
      cases none
      exact hw
  | drop _ none =>
      cases none
      exact absurd (Yields.nil_iff.mp hw) nonempty

/-- With more droppable symbols, at least as many words are derived. -/
theorem derives_expandFamilies_mono {larger : NonterminalSet}
    (sub : ∀ n ∈ droppable, n ∈ larger) {n : NonterminalId} {w : Word}
    (h : (g.expandFamilies droppable).Derives n w) : (g.expandFamilies larger).Derives n w := by
  refine h.mono ?_
  intro p hp
  obtain ⟨nonempty, body, rule, thinned⟩ := mem_productions_expandFamilies.mp hp
  exact mem_productions_expandFamilies.mpr ⟨nonempty, body, rule, thinned.mono sub⟩

/-- With exactly the nullable symbols droppable, each nonterminal keeps its nonempty words. -/
theorem derives_expandFamilies_nullables_iff {n : NonterminalId} {w : Word} :
    (g.expandFamilies g.nullables).Derives n w ↔ w ≠ [] ∧ g.Derives n w := by
  constructor
  · exact derives_of_expandFamilies fun _ hn => hn
  · rintro ⟨nonempty, h⟩
    exact derives_expandFamilies (fun _ hn => hn) nonempty h

theorem forbid_eq_ok_iff {bad : Production → Bool} {report : String → Violation} :
    g.forbid bad report = .ok () ↔ ∀ p ∈ g.productions, bad p = false := by
  unfold forbid
  split
  next p found =>
    simp only [reduceCtorEq, false_iff]
    intro good
    have hbad : bad p = true := by simpa using List.find?_some found
    rw [good p (List.mem_of_find?_eq_some found)] at hbad
    cases hbad
  next none =>
    simp only [true_iff]
    intro p hp
    exact Bool.not_eq_true _ ▸ List.find?_eq_none.mp none p hp

/-- Replacing bodies by their variants leaves a grammar valid. -/
theorem violation?_expandFamilies (valid : g.violation? = none) (droppable : NonterminalSet) :
    (g.expandFamilies droppable).violation? = none := by
  rw [violation?_eq_none_iff] at valid ⊢
  obtain ⟨start, names, families⟩ := valid
  refine ⟨start, names, ?_⟩
  intro f' hf'
  obtain ⟨f, hf, expanded⟩ := List.mem_filterMap.mp hf'
  obtain ⟨head, _, bodies⟩ := expand?_eq_some_iff.mp expanded
  obtain ⟨declared, symbols⟩ := families f hf
  refine ⟨head ▸ declared, ?_⟩
  intro rest hrest s hs
  rw [bodies, mem_distinct, List.mem_flatMap] at hrest
  obtain ⟨body, hbody, hrest⟩ := hrest
  exact symbols body hbody s ((mem_expand_iff.mp hrest).2.subset hs)

/-- Eliminating empty bodies never fails on a valid grammar. -/
theorem eliminateEpsilon_of_validate (valid : g.validate = .ok ()) (droppable : NonterminalSet) :
    g.eliminateEpsilon droppable = .ok ⟨g.expandFamilies droppable⟩ := by
  have stays : (g.expandFamilies droppable).validate = .ok () := by
    rw [validate_eq_ok_iff] at valid ⊢
    exact violation?_expandFamilies valid droppable
  have free : (g.expandFamilies droppable).forbid Production.isEpsilon .epsilonProduction = .ok () := by
    apply forbid_eq_ok_iff.mpr
    intro p hp
    simpa [Production.isEpsilon] using body_ne_nil_of_mem_expandFamilies hp
  rw [Grammar.eliminateEpsilon, EpsilonFree.ofGrammar, stays, free]
  rfl

theorem WellFormed.eliminateEpsilon (h : g.WellFormed) (droppable : NonterminalSet) :
    g.eliminateEpsilon droppable = .ok ⟨g.expandFamilies droppable⟩ :=
  eliminateEpsilon_of_validate h.validate_eq_ok droppable

end Grammar

end ContextFree
