import ContextFree.Proofs.NormalForm.Conversion
import ContextFree.Proofs.NormalForm.Encoding
import ContextFree.Proofs.Outcome

/-!
# What a normal form adds

A normal form needs a proxy for each terminal in a longer body, a link for each symbol of a body
beyond the second, and a start symbol if the empty word is kept. It exists exactly if there are
enough numbers for all of them. They are then added one after another, in this order, and the
old nonterminals stay as they are. The number of productions follows as well, since no two of
them collapse.

All of this is stated of the loop that adds the nonterminals. It has the outcome of the last stage,
which plans them beforehand.
-/

namespace ContextFree

open NormalForm

/-- A body of `n` symbols becomes `n - 1` pairs, or stays as it is if it is shorter. -/
theorem NormalForm.length_add_sum_linkCount (productions : List Production) :
    productions.length + (productions.map linkCount).sum =
      (productions.map fun p => max 1 (p.body.length - 1)).sum := by
  induction productions with
  | nil => rfl
  | cons p rest ih =>
      rw [List.length_cons, List.map_cons, List.sum_cons, List.map_cons, List.sum_cons, ← ih,
        linkCount]
      omega

namespace Grammar

variable {g : Grammar} {derivesEmpty : Bool}

theorem WellFormed.productionCount_withPairs (h : g.WellFormed) (kinds : List FreshKind) :
    (g.withPairs kinds).productionCount =
      (g.productions.map fun p => max 1 (p.body.length - 1)).sum +
        (proxied g.productions).length := by
  calc
    (g.withPairs kinds).productionCount = (pairs g.nextNonterminal g.productions).length := by
      rw [productionCount_eq_length, (h.perm_productions_withPairs kinds).length_eq]
    _ = g.productions.length + freshCount g.productions := h.encodes_pairs.length_eq
    _ = g.productions.length + (g.productions.map linkCount).sum +
          (proxied g.productions).length := by
      rw [freshCount, Nat.add_comm (proxied g.productions).length, Nat.add_assoc]
    _ = _ := by rw [length_add_sum_linkCount]

theorem Proper.productionCount_paired (h : g.Proper) (derivesEmpty : Bool) :
    (g.paired derivesEmpty).productionCount =
      (g.productions.map fun p => max 1 (p.body.length - 1)).sum +
        (proxied g.productions).length +
          if derivesEmpty then (g.bodiesOf g.start).length + 1 else 0 := by
  have pairs := h.wellFormed.productionCount_withPairs (freshKinds g.productions derivesEmpty)
  cases derivesEmpty with
  | false => exact pairs
  | true =>
      have nonempty : (g.withPairs (freshKinds g.productions true)).NoEmptyBody :=
        h.noEmptyBody_withPairs
      have added := perm_productions_withEmptyStart grouped_withPairs
        h.wellFormed.not_occurs_emptyStart nonempty
      have start : ((g.withPairs (freshKinds g.productions true)).bodiesOf g.start).length =
          (g.bodiesOf g.start).length :=
        h.wellFormed.length_bodiesOf_withPairs (h.wellFormed.index_lt h.wellFormed.start_declared)
      calc
        (g.paired true).productionCount =
            (g.withPairs (freshKinds g.productions true)).productionCount +
              ((g.withPairs (freshKinds g.productions true)).bodiesOf g.start ++ [[]]).length := by
          rw [productionCount_eq_length, productionCount_eq_length, paired_true, added.length_eq,
            List.length_append, List.length_map]
          rfl
        _ = _ := by rw [pairs, List.length_append, start, if_pos rfl, List.length_singleton]

/-- How the normal form `c` of `g` is made up. The terminals are those that need a proxy, and
the kinds are those of the added nonterminals, both in order. -/
structure Accounts (g c : Grammar) (derivesEmpty : Bool) (terminals : List TerminalId)
    (kinds : List FreshKind) : Prop where
  terminals_nodup : terminals.Nodup
  mem_terminals : ∀ t, t ∈ terminals ↔
    ∃ p ∈ g.productions, 2 ≤ p.body.length ∧ .terminal t ∈ p.body
  kinds_eq : kinds =
    List.replicate terminals.length .terminalProxy ++
      List.replicate (g.productions.map fun p => p.body.length - 2).sum .chain ++
        if derivesEmpty then [.start] else []
  length_kinds : kinds.length = g.demand derivesEmpty
  nonterminals_eq : c.nonterminals = g.nonterminals ++
    kinds.mapIdx fun i kind => ⟨⟨g.nextNonterminal + i⟩, .fresh kind (i + 1)⟩
  nextNonterminal_eq : c.nextNonterminal = g.nextNonterminal + g.demand derivesEmpty
  proxies : ∀ i t, terminals[i]? = some t → c.bodiesOf ⟨g.nextNonterminal + i⟩ = [[.terminal t]]
  productionCount_eq : c.productionCount =
    (g.productions.map fun p => max 1 (p.body.length - 1)).sum + terminals.length +
      if derivesEmpty then (g.bodiesOf g.start).length + 1 else 0

theorem Proper.accounts_paired (h : g.Proper) (derivesEmpty : Bool) :
    g.Accounts (g.paired derivesEmpty) derivesEmpty (proxied g.productions)
      (freshKinds g.productions derivesEmpty) := by
  have length := length_freshKinds_eq_demand g derivesEmpty
  have nonterminals := nonterminals_paired (g := g) derivesEmpty
  have next := nextNonterminal_paired (g := g) derivesEmpty
  rw [freshNonterminals_eq_numbered] at nonterminals
  rw [length] at next
  refine ⟨nodup_distinct _, fun t => mem_proxied, ?_, length, ?_, next, ?_,
    h.productionCount_paired derivesEmpty⟩
  · rw [freshKinds, foldl_linkCount]
    rfl
  · rw [nonterminals, numbered]
    simp only [Nat.zero_add]
  · intro i t found
    obtain ⟨inside, _⟩ := List.getElem?_eq_some_iff.mp found
    apply h.wellFormed.bodiesOf_paired_of_fresh (fresh_proxy inside)
    exact List.mem_append_left _ (mem_proxyRules.mpr ⟨i, t, found, rfl⟩)

end Grammar

/-- The conversion, as a loop that adds one nonterminal after another, has the outcome of the last
stage. It fails exactly if there are fewer numbers left than it needs, and otherwise it gives away
exactly one serial number for each of them and has exactly these nonterminals besides the old
ones. -/
theorem Obtained.normalForm_accounting {r : Reachable} (h : Obtained (.reachable r))
    (derivesEmpty : Bool) :
    r.convert derivesEmpty = r.normalForm derivesEmpty ∧
    ((∃ e, r.convert derivesEmpty = .error e) ↔
      idLimit < r.grammar.nextNonterminal + r.grammar.demand derivesEmpty) ∧
    (∀ e, r.convert derivesEmpty = .error e → e = .freshSymbolsExhausted .normalization) ∧
    ∀ c, r.convert derivesEmpty = .ok c →
      (∃ last, (Conversion.convert r.grammar.productions derivesEmpty).run (.new r.grammar) =
          .ok ((), last) ∧
        last.grammar = c.grammar ∧ last.supply.serial = r.grammar.demand derivesEmpty) ∧
      ∃ terminals kinds, r.grammar.Accounts c.grammar derivesEmpty terminals kinds := by
  have proper : r.grammar.Proper := h.lawful.1
  have le := proper.wellFormed.next_le
  have outcome := proper.wellFormed.normalForm proper.noEmptyBody proper.noUnitBody derivesEmpty
  obtain ⟨last, planned, serial, leads⟩ := Conversion.exists_leads_convert le derivesEmpty
  rw [Conversion.Leads] at leads
  rw [Grammar.length_freshKinds_eq_demand] at outcome serial leads
  have same : r.convert derivesEmpty = r.normalForm derivesEmpty :=
    Reachable.convert_eq_normalForm le derivesEmpty
  refine ⟨same, ?_⟩
  rw [same]
  by_cases room : r.grammar.nextNonterminal + r.grammar.demand derivesEmpty ≤ idLimit
  · rw [if_pos room] at outcome leads
    refine ⟨iff_of_false (by simp [outcome]) (Nat.not_lt.mpr room), by simp [outcome], ?_⟩
    intro c ok
    cases ok.symm.trans outcome
    exact ⟨⟨last, leads, planned, serial⟩, _, _, proper.accounts_paired derivesEmpty⟩
  · rw [if_neg room] at outcome
    refine ⟨iff_of_true ⟨_, outcome⟩ (Nat.lt_of_not_le room), ?_, by simp [outcome]⟩
    intro e failed
    exact Except.error.inj (failed.symm.trans outcome)

/-- The normal form of the palindromes that keeps the empty word needs seven numbers: for two
proxies, four links and a start symbol. With six left the conversion runs out of numbers. -/
theorem evenPalindromes_normalForm_accounting :
    let r : Reachable := ⟨evenPalindromes.usefulPart⟩
    let full : Reachable := ⟨(crowdedPalindromes 65530).usefulPart⟩
    (Obtained (.reachable r) ∧ r.grammar.nextNonterminal = 3 ∧ r.grammar.demand true = 7 ∧
      ∃ c, r.convert true = .ok c ∧
        ∃ terminals kinds, r.grammar.Accounts c.grammar true terminals kinds) ∧
    Obtained (.reachable full) ∧ full.grammar.nextNonterminal = 65530 ∧
      full.grammar.demand true = 7 ∧
      full.convert true = .error (.freshSymbolsExhausted .normalization) := by
  intro r full
  constructor
  · have reduced : Obtained (.reachable r) :=
      obtained_evenPalindromes.usefulPart (by decide +kernel)
    have ok : r.convert true = .ok ⟨r.grammar.paired true, true⟩ := by decide +kernel
    obtain ⟨_, _, _, accounts⟩ := reduced.normalForm_accounting true
    exact ⟨reduced, by decide +kernel, by decide +kernel, _, ok, (accounts _ ok).2⟩
  · have reduced : Obtained (.reachable full) :=
      (obtained_crowdedPalindromes (by decide) (by decide)).usefulPart (by decide +kernel)
    have next : full.grammar.nextNonterminal = 65530 := by decide +kernel
    have demand : full.grammar.demand true = 7 := by decide +kernel
    obtain ⟨_, fails, only, _⟩ := reduced.normalForm_accounting true
    rw [next, demand] at fails
    obtain ⟨e, failed⟩ := fails.mpr (by decide)
    obtain rfl := only e failed
    exact ⟨reduced, next, demand, failed⟩

end ContextFree
