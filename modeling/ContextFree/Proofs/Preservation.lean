import ContextFree.Proofs.NormalForm.Added
import ContextFree.Proofs.Obtained

/-!
# What each stage does to the languages

Removing empty bodies keeps the nonempty words of every nonterminal if exactly the nullable
symbols are droppable; with fewer droppable symbols nothing is added, with more nothing is
lost. Removing unit productions keeps all words of every nonterminal. The last stage keeps
all words of the old nonterminals; its proxies, links and start symbol derive what they
stand for.
-/

namespace ContextFree

/-- Removing empty bodies succeeds on every valid grammar. If only nullable symbols are
droppable, each nonterminal derives nonempty words of its own only. If all of them are, it
derives all of these. With more droppable symbols it derives at least as many words. -/
theorem Grammar.eliminateEpsilon_languages {g : Grammar} (valid : g.validate = .ok ())
    (droppable : NonterminalSet) :
    ∃ e, g.eliminateEpsilon droppable = .ok e ∧ ∀ n,
      ((∀ m ∈ droppable, m ∈ g.nullables) →
        ∀ w, e.grammar.Derives n w → w ≠ [] ∧ g.Derives n w) ∧
      ((∀ m ∈ g.nullables, m ∈ droppable) →
        ∀ w, w ≠ [] → g.Derives n w → e.grammar.Derives n w) ∧
      (droppable = g.nullables →
        ∀ w, e.grammar.Derives n w ↔ w ≠ [] ∧ g.Derives n w) ∧
      ∀ larger e', (∀ m ∈ droppable, m ∈ larger) → g.eliminateEpsilon larger = .ok e' →
        ∀ w, e.grammar.Derives n w → e'.grammar.Derives n w := by
  refine ⟨_, eliminateEpsilon_of_validate valid droppable, ?_⟩
  intro n
  refine ⟨?_, ?_, ?_, ?_⟩
  · intro nullable w derives
    exact derives_of_expandFamilies nullable derives
  · intro all w nonempty derives
    exact derives_expandFamilies all nonempty derives
  · intro exactly w
    subst exactly
    exact derives_expandFamilies_nullables_iff
  · intro larger e' sub ok w derives
    rw [eliminateEpsilon_of_validate valid] at ok
    cases ok
    exact derives_expandFamilies_mono sub derives

/-- Without its empty body the grammar of the palindromes still derives `aa`, but no longer
the empty word. -/
theorem evenPalindromes_eliminateEpsilon_languages :
    evenPalindromes.validate = .ok () ∧ evenPalindromes.Derives ⟨0⟩ [] ∧
      ∃ e, evenPalindromes.eliminateEpsilon evenPalindromes.nullables = .ok e ∧
        e.grammar.Derives ⟨0⟩ [⟨0⟩, ⟨0⟩] ∧ ¬ e.grammar.Derives ⟨0⟩ [] := by
  have valid : evenPalindromes.validate = .ok () := by decide +kernel
  have empty : evenPalindromes.Derives ⟨0⟩ [] := Grammar.mem_nullables_iff.mp (by decide +kernel)
  have middle : evenPalindromes.Derives ⟨1⟩ [] := Grammar.mem_nullables_iff.mp (by decide +kernel)
  have body : Yields (· ∈ evenPalindromes.productions)
      [.terminal ⟨0⟩, .nonterminal ⟨1⟩, .terminal ⟨0⟩] [⟨0⟩, ⟨0⟩] :=
    .terminal (middle.append (.terminal .nil))
  -- The start symbol reaches this body by two unit productions.
  have q : evenPalindromes.Derives ⟨2⟩ [⟨0⟩, ⟨0⟩] := Grammar.derives_iff.mpr ⟨_, by decide, body⟩
  have p : evenPalindromes.Derives ⟨1⟩ [⟨0⟩, ⟨0⟩] := Grammar.derives_iff.mpr ⟨_, by decide, q⟩
  have start : evenPalindromes.Derives ⟨0⟩ [⟨0⟩, ⟨0⟩] := Grammar.derives_iff.mpr ⟨_, by decide, p⟩
  obtain ⟨e, ok, languages⟩ :=
    Grammar.eliminateEpsilon_languages valid evenPalindromes.nullables
  have words := (languages ⟨0⟩).2.2.1 rfl
  refine ⟨valid, empty, e, ok, ?_, ?_⟩
  · exact (words _).mpr ⟨by decide, start⟩
  · intro derives
    exact ((words _).mp derives).1 rfl

/-- Removing unit productions succeeds and keeps the words of every nonterminal. A head then
has the bodies, other than single nonterminals, of itself and of all it reaches by unit
productions. -/
theorem Obtained.eliminateUnits_languages {e : EpsilonFree} (h : Obtained (.epsilonFree e)) :
    ∃ u, e.eliminateUnits = .ok u ∧
      (∀ a w, u.grammar.Derives a w ↔ e.grammar.Derives a w) ∧
      ∀ a body, ⟨a, body⟩ ∈ u.grammar.productions ↔
        (∀ b, body ≠ [.nonterminal b]) ∧
          ∃ b, (b = a ∨ Relation.TransGen e.grammar.UnitStep a b) ∧
            ⟨b, body⟩ ∈ e.grammar.productions := by
  obtain ⟨wellFormed, free⟩ := h.lawful
  refine ⟨_, wellFormed.eliminateUnits free, ?_, ?_⟩
  · intro a w
    exact wellFormed.derives_inlineUnits_iff
  · intro a body
    rw [wellFormed.mem_productions_inlineUnits]
    refine and_congr_right fun _ => exists_congr fun b => and_congr_left fun _ => ?_
    exact Relation.reflTransGen_iff_eq_or_transGen

/-- The start symbol of the palindromes reaches the bodies of `Q` by two unit productions, and
loses its own. -/
theorem evenPalindromes_eliminateUnits_languages :
    let e : EpsilonFree := ⟨evenPalindromes.withoutEmptyBodies⟩
    Obtained (.epsilonFree e) ∧ ∃ u, e.eliminateUnits = .ok u ∧
      ⟨⟨0⟩, [.terminal ⟨0⟩, .nonterminal ⟨1⟩, .terminal ⟨0⟩]⟩ ∈ u.grammar.productions ∧
      ⟨⟨0⟩, [.nonterminal ⟨1⟩]⟩ ∉ u.grammar.productions := by
  intro e
  have ok : evenPalindromes.eliminateEpsilon evenPalindromes.nullables = .ok e := by
    decide +kernel
  have obtained : Obtained (.epsilonFree e) := obtained_evenPalindromes.eliminateEpsilon ok
  obtain ⟨u, eliminated, _, bodies⟩ := obtained.eliminateUnits_languages
  have first : e.grammar.UnitStep ⟨0⟩ ⟨1⟩ := by
    change _ ∈ e.grammar.productions
    decide +kernel
  have second : e.grammar.UnitStep ⟨1⟩ ⟨2⟩ := by
    change _ ∈ e.grammar.productions
    decide +kernel
  refine ⟨obtained, u, eliminated, ?_, ?_⟩
  · apply (bodies _ _).mpr
    refine ⟨by simp, ⟨2⟩, Or.inr (.tail (.single first) second), ?_⟩
    decide +kernel
  · intro kept
    exact ((bodies _ _).mp kept).1 ⟨1⟩ rfl

/-- The last stage keeps the words of the old nonterminals. A proxy derives its terminal, a
link derives what the suffix of the source body derives that it stands for, and a new start
symbol derives the words of the old one and the empty word. -/
theorem Obtained.normalForm_languages {r : Reachable} {derivesEmpty : Bool} {c : NormalForm}
    (h : Obtained (.reachable r)) (ok : r.normalForm derivesEmpty = .ok c) :
    (∀ n ∈ r.grammar.nonterminals, ∀ w, c.grammar.Derives n.id w ↔ r.grammar.Derives n.id w) ∧
    (∀ proxy serial, c.grammar.Adds r.grammar ⟨proxy, .fresh .terminalProxy serial⟩ →
      ∃ t, r.grammar.proxyTable[t]? = some proxy ∧
        ∀ w, c.grammar.Derives proxy w ↔ w = [t]) ∧
    (∀ link serial, c.grammar.Adds r.grammar ⟨link, .fresh .chain serial⟩ →
      ∃ p i, r.grammar.IsLink c.grammar link p i ∧
        ∀ w, c.grammar.Derives link w ↔
          Yields (· ∈ r.grammar.productions) (p.body.drop (i + 1)) w) ∧
    (derivesEmpty = true →
      (∃ serial, c.grammar.Adds r.grammar ⟨c.grammar.start, .fresh .start serial⟩) ∧
        ∀ w, c.grammar.Derives c.grammar.start w ↔ r.grammar.Derives r.grammar.start w ∨ w = []) ∧
    (derivesEmpty = false → c.grammar.start = r.grammar.start) := by
  have proper : r.grammar.Proper := h.lawful.1
  have wellFormed := proper.wellFormed
  obtain ⟨rfl, _⟩ := proper.eq_paired ok
  refine ⟨?_, ?_, ?_, ?_, ?_⟩
  · intro n member w
    exact wellFormed.derives_paired_iff (wellFormed.id_lt_next n member)
  · intro proxy serial new
    exact wellFormed.derives_added_proxy new
  · intro link serial new
    exact wellFormed.derives_added_link new
  · intro keeps
    subst keeps
    refine ⟨⟨_, wellFormed.adds_start_paired⟩, ?_⟩
    intro w
    rw [wellFormed.derives_start_paired_iff, and_iff_right rfl, or_comm]
  · intro drops
    subst drops
    rfl

/-- In the normal form of the palindromes the number 3 is the proxy of the letter `a`, the
number 5 is a link, and the new start symbol derives the empty word. -/
theorem evenPalindromes_normalForm_languages :
    let r : Reachable := ⟨evenPalindromes.usefulPart⟩
    let c : NormalForm := ⟨evenPalindromes.usefulPart.paired true, true⟩
    Obtained (.reachable r) ∧ r.normalForm true = .ok c ∧
      (∀ w, c.grammar.Derives ⟨3⟩ w ↔ w = [⟨0⟩]) ∧
      (∃ p i, r.grammar.IsLink c.grammar ⟨5⟩ p i ∧
        ∀ w, c.grammar.Derives ⟨5⟩ w ↔
          Yields (· ∈ r.grammar.productions) (p.body.drop (i + 1)) w) ∧
      c.grammar.Derives c.grammar.start [] := by
  intro r c
  have obtained : Obtained (.reachable r) :=
    obtained_evenPalindromes.usefulPart (by decide +kernel)
  have ok : r.normalForm true = .ok c := by decide +kernel
  obtain ⟨_, proxies, links, start, _⟩ := obtained.normalForm_languages ok
  have proxy : c.grammar.Adds r.grammar ⟨⟨3⟩, .fresh .terminalProxy 1⟩ :=
    ⟨by decide +kernel, by decide +kernel⟩
  have link : c.grammar.Adds r.grammar ⟨⟨5⟩, .fresh .chain 3⟩ :=
    ⟨by decide +kernel, by decide +kernel⟩
  obtain ⟨t, _, words⟩ := proxies _ _ proxy
  have rule : ⟨⟨3⟩, [.terminal ⟨0⟩]⟩ ∈ c.grammar.productions := by decide +kernel
  have letter : c.grammar.Derives ⟨3⟩ [⟨0⟩] :=
    Grammar.derives_iff.mpr ⟨_, rule, .terminal .nil⟩
  cases (words _).mp letter
  exact ⟨obtained, ok, words, links _ _ link, ((start rfl).2 []).mpr (Or.inr rfl)⟩

end ContextFree
