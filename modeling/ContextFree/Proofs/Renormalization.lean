import ContextFree.Proofs.Idempotence

/-!
# Normalizing a normal form that keeps the empty word

A normal form that keeps the empty word changes when it is normalized again. Its start symbol
loses the empty body, and symbols that occur in no body are removed, such as the start symbols of
earlier runs. If the empty word is preserved again, a new start symbol is added, and nothing else:
the bodies are binary already.
-/

namespace ContextFree

open NormalForm

namespace Grammar

variable {g h : Grammar} {policy : EmptyWord} {derivesEmpty : Bool} {p : Production}

section Runs

/-- One normalization after another, each on the grammar that the one before gave. -/
def normalizeAll (g : Grammar) (policies : List EmptyWord) : Except NormalizeError Grammar :=
  policies.foldlM (fun g policy => (g.normalize policy).map NormalForm.grammar) g

theorem normalizeAll_nil : g.normalizeAll [] = .ok h ↔ g = h := by
  simp [normalizeAll, pure, Except.pure]

theorem normalizeAll_cons {rest : List EmptyWord} :
    g.normalizeAll (policy :: rest) = .ok h ↔
      ∃ c, g.normalize policy = .ok c ∧ c.grammar.normalizeAll rest = .ok h := by
  rw [normalizeAll, List.foldlM_cons, bind_eq_ok_iff]
  cases g.normalize policy with
  | error e => simp [Except.map]
  | ok c => simp [Except.map, normalizeAll]

/-- A settled grammar stays as it is. -/
theorem Settled.normalizeAll_eq (settled : g.Settled) (policies : List EmptyWord) :
    g.normalizeAll policies = .ok g := by
  induction policies with
  | nil => exact normalizeAll_nil.mpr rfl
  | cons policy rest ih => exact normalizeAll_cons.mpr ⟨_, settled.normalize policy, ih⟩

end Runs

/-- Binary bodies stay as they are in the normal form, beside an empty one. -/
theorem body_of_mem_paired (binary : ∀ p ∈ g.productions, Binary p.body)
    (hp : p ∈ (g.paired true).productions) : p.body = [] ∨ ∃ q ∈ g.productions, q.body = p.body := by
  have same : pairs g.nextNonterminal g.productions = g.productions := pairs_eq_self _ binary
  rw [paired_true, mem_productions_withEmptyStart grouped_withPairs, mem_productions_withPairs,
    mem_productions_withPairs, same] at hp
  obtain old | ⟨_, empty | own⟩ := hp
  · exact Or.inr ⟨p, old, rfl⟩
  · exact Or.inl empty
  · exact Or.inr ⟨_, own, rfl⟩

namespace InNormalForm

theorem binary_of_ne_nil (form : g.InNormalForm derivesEmpty) (hp : p ∈ g.productions)
    (nonempty : p.body ≠ []) : Binary p.body := by
  obtain binary | ⟨empty, _⟩ := form.binary_or_empty p hp
  · exact binary
  · exact absurd empty nonempty

/-- No symbol of a body derives the empty word, so removing empty bodies leaves the others
alone. -/
theorem mem_withoutEmptyBodies (form : g.InNormalForm derivesEmpty)
    (hp : p ∈ g.withoutEmptyBodies.productions) : p ∈ g.productions ∧ p.body ≠ [] := by
  obtain ⟨nonempty, body, rule, thinned⟩ := mem_productions_expandFamilies.mp hp
  have kept : ∀ n, .nonterminal n ∈ body → n ∉ g.nullables := by
    intro n member nullable
    have long := form.ne_nil_of_mem_body rule member (mem_nullables_iff.mp nullable)
    exact absurd long (Nat.not_succ_le_zero 0)
  have same := mem_variants_iff.mpr thinned
  rw [variants_eq_singleton kept, List.mem_singleton] at same
  rw [← same] at rule
  exact ⟨rule, nonempty⟩

/-- Without empty bodies there are no unit productions to remove. -/
theorem withoutUnits_eq (form : g.InNormalForm derivesEmpty) (wellFormed : g.WellFormed) :
    g.withoutUnits = g.withoutEmptyBodies := by
  apply (wellFormed.expandFamilies g.nullables).inlineUnits_eq_self
  intro p hp n unit
  obtain ⟨rule, nonempty⟩ := form.mem_withoutEmptyBodies hp
  exact (form.binary_of_ne_nil rule nonempty).ne_unit n unit

/-- Reducing a normal form only removes productions, those with empty bodies among them. -/
theorem mem_usefulPart (form : g.InNormalForm derivesEmpty) (wellFormed : g.WellFormed)
    (hp : p ∈ g.usefulPart.productions) : p ∈ g.productions ∧ Binary p.body := by
  have productive := (mem_productions_restrictTo.mp hp).1
  have unitless := (mem_productions_restrictTo.mp productive).1
  rw [form.withoutUnits_eq wellFormed] at unitless
  obtain ⟨rule, nonempty⟩ := form.mem_withoutEmptyBodies unitless
  exact ⟨rule, form.binary_of_ne_nil rule nonempty⟩

/-- A nonterminal that survives a reduction is the start symbol or occurs in a body. -/
theorem occurs_of_mem_usefulPart (form : g.InNormalForm derivesEmpty) (wellFormed : g.WellFormed)
    (reached : g.usefulPart.AllReachable) {n : Nonterminal}
    (member : n ∈ g.usefulPart.nonterminals) :
    n.id = g.start ∨ ∃ p ∈ g.productions, .nonterminal n.id ∈ p.body := by
  have path := reached n member
  rw [start_usefulPart, Reaches, Relation.ReflTransGen.cases_tail_iff] at path
  cases path with
  | inl same => exact Or.inl same
  | inr last =>
      obtain ⟨m, _, body, rule, inside⟩ := last
      exact Or.inr ⟨_, (form.mem_usefulPart wellFormed rule).1, inside⟩

/-- Normalizing again adds nothing but a start symbol with the first serial number. -/
theorem nonterminals_paired_usefulPart (form : g.InNormalForm derivesEmpty)
    (wellFormed : g.WellFormed) :
    (g.usefulPart.paired true).nonterminals =
      g.usefulPart.nonterminals ++ [⟨(g.usefulPart.paired true).start, .fresh .start 1⟩] := by
  have binary : ∀ p ∈ g.usefulPart.productions, Binary p.body :=
    fun p hp => (form.mem_usefulPart wellFormed hp).2
  rw [nonterminals_paired, freshKinds_eq binary, start_paired_true, emptyStart,
    freshCount_eq_zero binary]
  rfl

end InNormalForm

end Grammar

end ContextFree
