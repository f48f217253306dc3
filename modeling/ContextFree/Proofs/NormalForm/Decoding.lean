import ContextFree.Proofs.NormalForm.Added
import ContextFree.Proofs.NormalForm.Encoding
import ContextFree.Proofs.Outcome

/-!
# Undoing proxies and links

A normal form without a new start symbol can be read back. Each added proxy has its terminal as
its only body, and each added link has one body and occurs at one place, as a second symbol. If
the added nonterminals are replaced by their bodies until none is left, the bodies of an old
nonterminal become its bodies in the grammar that the normal form comes from, one by one.

## Implementation notes

A round of replacement does not change what a body unfolds to, and it lowers the depth of its
nonterminals. Old nonterminals have depth zero, proxies have depth one, and the depth of the links
falls as their numbers rise, since the body of a link mentions only later links.
-/

namespace ContextFree

open NormalForm

namespace NormalForm

variable {next : Nat} {productions : List Production} {q : Production} {n : NonterminalId}

/-- The links in the pairs of a body have larger numbers than the heads of these pairs. -/
theorem lt_of_mem_chain {head : NonterminalId} {body : Body} (small : head.index < next)
    (hq : q ∈ chain head next body) (hn : .nonterminal n ∈ q.body) :
    .nonterminal n ∈ body ∨ (q.head.index < n.index ∧ next ≤ n.index) := by
  induction head, next, body using chain.induct with
  | case1 head next a b c rest ih =>
      rw [chain, List.mem_cons] at hq
      rcases hq with rfl | hq
      · rcases List.mem_pair.mp hn with rfl | link
        · exact Or.inl List.mem_cons_self
        · cases link
          exact Or.inr ⟨small, Nat.le_refl next⟩
      · rcases ih (Nat.lt_succ_self next) hq with own | ⟨above, lower⟩
        · exact Or.inl (List.mem_cons_of_mem _ own)
        · exact Or.inr ⟨above, Nat.le_of_succ_le lower⟩
  | case2 head next body short =>
      rw [chain.eq_2 head next body short, List.mem_singleton] at hq
      subst hq
      exact Or.inl hn

/-- The pairs of a new head are the production of a proxy or belong to a link. -/
theorem proxy_or_link (below : ∀ p ∈ productions, p.Below next)
    (hq : q ∈ pairs next productions) (fresh : next ≤ q.head.index) :
    q ∈ proxyRules (proxied productions) next ∨
      next + (proxied productions).length ≤ q.head.index := by
  cases List.mem_append.mp hq with
  | inl proxy => exact Or.inl proxy
  | inr split =>
      right
      obtain ⟨p, hp, first, lower, _, hq⟩ := exists_chain_of_mem_binarize split
      cases head_of_mem_chain hq with
      | inl own =>
          obtain ⟨source, hs, rfl⟩ := mem_isolated.mp hp
          rw [own] at fresh
          exact absurd (below source hs).head (Nat.not_lt.mpr fresh)
      | inr link =>
          obtain ⟨i, _, same⟩ := link
          rw [same]
          exact Nat.le_add_right_of_le lower

/-- A link stands second. -/
theorem place_of_link (below : ∀ p ∈ productions, p.Below next) (hq : q ∈ pairs next productions)
    (link : next + (proxied productions).length ≤ n.index) {i : Nat}
    (found : q.body[i]? = some (.nonterminal n)) : i = 1 := by
  obtain ⟨p, hp, first, hq, _⟩ := exists_chain_of_mem_pairs hq
  rcases place_of_mem_chain hq found with own | second
  · exact absurd ((below_of_mem_unpaired below hp).body n own) (Nat.not_lt.mpr link)
  · exact second

/-- A link occurs at one place. -/
theorem count_link (below : ∀ p ∈ productions, p.Below next) {k : Nat}
    (inside : k < (productions.map linkCount).sum) :
    ((pairs next productions).flatMap Production.body).count
      (.nonterminal ⟨next + (proxied productions).length + k⟩) = 1 := by
  have absent : .nonterminal ⟨next + (proxied productions).length + k⟩ ∉
      (unpaired next productions).flatMap Production.body := by
    intro member
    obtain ⟨p, hp, hn⟩ := List.mem_flatMap.mp member
    exact Nat.not_lt.mpr (Nat.le_add_right _ k) ((below_of_mem_unpaired below hp).body _ hn)
  rw [perm_symbols_pairs.count_eq, List.count_append, List.count_eq_zero_of_not_mem absent,
    Nat.zero_add]
  apply List.count_eq_one_of_mem
  · apply (nodup_consecutive _ _).map
    exact fun _ _ same => Symbol.nonterminal.inj same
  · apply List.mem_map_of_mem
    exact mem_consecutive.mpr ⟨Nat.le_add_right _ k, Nat.add_lt_add_left inside _⟩

/-- A new head unfolds to what its body unfolds to. -/
theorem unfold_body (below : ∀ p ∈ productions, p.Below next) (hq : q ∈ pairs next productions)
    (fresh : next ≤ q.head.index) :
    unfold next productions q.body = unfold next productions [.nonterminal q.head] := by
  rcases proxy_or_link below hq fresh with proxy | link
  · obtain ⟨i, t, found, rfl⟩ := mem_proxyRules.mp proxy
    rw [unfold_proxy found]
    rfl
  · have small := fun p hp => below_of_mem_unpaired below (q := p) hp
    rw [pairs_eq_binarize] at hq
    have unfolds := unfolds_of_mem_binarize (standForSuffixes_abbreviation _ _)
      (fun p hp n hn => abbreviation_of_lt ((small p hp).body n hn)) hq
    rcases unfolds with ⟨p, hp, own, _⟩ | same
    · exact absurd (own ▸ (small p hp).head) (Nat.not_lt.mpr link)
    · rw [unfold, unfold, substitute_nonterminal, substitute_nil, List.append_nil, same]

theorem unfold_append (a b : Body) :
    unfold next productions (a ++ b) = unfold next productions a ++ unfold next productions b := by
  rw [unfold, unfold, unfold, substitute_append, substitute_append]

theorem unfold_cons (s : Symbol) (body : Body) :
    unfold next productions (s :: body) =
      unfold next productions [s] ++ unfold next productions body := unfold_append [s] body

/-- Replacing nonterminals by what unfolds alike does not change what a body unfolds to. -/
theorem unfold_substitute {σ : NonterminalId → Body}
    (alike : ∀ n, unfold next productions (σ n) = unfold next productions [.nonterminal n])
    (body : Body) : unfold next productions (substitute σ body) = unfold next productions body := by
  induction body with
  | nil => rfl
  | cons s rest ih =>
      cases s with
      | terminal t => rw [substitute_terminal, unfold_cons, ih, ← unfold_cons]
      | nonterminal n => rw [substitute_nonterminal, unfold_append, alike, ih, ← unfold_cons]

/-- How many rounds of replacement it takes at most to get rid of a nonterminal. -/
def depth (next : Nat) (productions : List Production) (n : NonterminalId) : Nat :=
  if Fresh next productions n then
    if n.index < next + (proxied productions).length then 1
    else next + freshCount productions + 1 - n.index
  else 0

theorem depth_le (next : Nat) (productions : List Production) (n : NonterminalId) :
    depth next productions n ≤ freshCount productions + 1 := by
  unfold depth
  split
  next fresh =>
    have lower := fresh.1
    split_ifs
    all_goals omega
  next => exact Nat.zero_le _

theorem not_fresh_of_depth (zero : depth next productions n = 0) : ¬ Fresh next productions n := by
  intro fresh
  rw [depth, if_pos fresh] at zero
  have upper := fresh.2
  split_ifs at zero
  omega

/-- The nonterminals in the body of a new head have a smaller depth. -/
theorem depth_lt (below : ∀ p ∈ productions, p.Below next) (hq : q ∈ pairs next productions)
    (fresh : Fresh next productions q.head) (hn : .nonterminal n ∈ q.body) :
    depth next productions n < depth next productions q.head := by
  rcases proxy_or_link below hq fresh.1 with proxy | link
  · obtain ⟨i, t, _, rfl⟩ := mem_proxyRules.mp proxy
    cases List.mem_singleton.mp hn
  · obtain ⟨p, hp, first, hq, lower, _⟩ := exists_chain_of_mem_pairs hq
    have small := below_of_mem_unpaired below hp
    have upper := fresh.2
    unfold depth
    rw [if_pos fresh, if_neg (Nat.not_lt.mpr link)]
    rcases lt_of_mem_chain (Nat.lt_of_lt_of_le small.head lower) hq hn with own | ⟨above, later⟩
    · have early := small.body n own
      split_ifs
      all_goals omega
    · split_ifs
      all_goals omega

end NormalForm

namespace Grammar

variable {g : Grammar} {n : NonterminalId}

/-- The body that replaces a nonterminal of `c` that is not one of `g`. The nonterminals of `g`
are left alone. -/
def expandAdded (g c : Grammar) (n : NonterminalId) : Body :=
  if n ∈ g.nonterminals.map Nonterminal.id then [.nonterminal n]
  else (c.bodiesOf n).headD [.nonterminal n]

/-- Every fresh number is the head of a pair. -/
theorem WellFormed.exists_mem_pairs_of_fresh (h : g.WellFormed)
    (fresh : Fresh g.nextNonterminal g.productions n) :
    ∃ body, ⟨n, body⟩ ∈ pairs g.nextNonterminal g.productions := by
  have member : n ∈ (pairs g.nextNonterminal g.productions).map Production.head := by
    rw [h.encodes_pairs.heads.mem_iff]
    exact List.mem_append_right _ (mem_consecutive.mpr fresh)
  obtain ⟨q, hq, rfl⟩ := List.mem_map.mp member
  exact ⟨q.body, hq⟩

/-- Proxies and links are replaced by their bodies. -/
theorem WellFormed.expandAdded_of_fresh (h : g.WellFormed) {body : Body}
    (fresh : Fresh g.nextNonterminal g.productions n)
    (rule : ⟨n, body⟩ ∈ pairs g.nextNonterminal g.productions) :
    g.expandAdded (g.paired false) n = body := by
  have undeclared : n ∉ g.nonterminals.map Nonterminal.id :=
    fun declared => Nat.not_lt.mpr fresh.1 (h.index_lt declared)
  rw [expandAdded, if_neg undeclared, h.bodiesOf_paired_of_fresh fresh rule]
  rfl

/-- Nothing else is replaced. -/
theorem WellFormed.expandAdded_of_not_fresh (h : g.WellFormed)
    (old : ¬ Fresh g.nextNonterminal g.productions n) :
    g.expandAdded (g.paired false) n = [.nonterminal n] := by
  rw [expandAdded]
  split
  · rfl
  next undeclared =>
    have none : (g.paired false).bodiesOf n = [] := by
      apply List.eq_nil_iff_forall_not_mem.mpr
      intro body member
      rw [mem_bodiesOf grouped_paired, paired_false, mem_productions_withPairs] at member
      cases head_of_mem_pairs member with
      | inl own =>
          obtain ⟨p, hp, rfl⟩ := own
          exact undeclared (h.head_declared p hp)
      | inr fresh => exact old fresh
    rw [none]
    rfl

/-- A round of replacement does not change what a body unfolds to. -/
theorem WellFormed.unfold_expandAdded (h : g.WellFormed) (body : Body) :
    unfold g.nextNonterminal g.productions (substitute (g.expandAdded (g.paired false)) body) =
      unfold g.nextNonterminal g.productions body := by
  apply unfold_substitute
  intro n
  by_cases fresh : Fresh g.nextNonterminal g.productions n
  · obtain ⟨own, rule⟩ := h.exists_mem_pairs_of_fresh fresh
    rw [h.expandAdded_of_fresh fresh rule]
    exact unfold_body h.below rule fresh.1
  · rw [h.expandAdded_of_not_fresh fresh]

/-- A round of replacement lowers the depths in a body. -/
theorem WellFormed.depth_expandAdded (h : g.WellFormed) {body : Body} {k : Nat}
    (bounded : ∀ n, .nonterminal n ∈ body → depth g.nextNonterminal g.productions n ≤ k) :
    ∀ n, .nonterminal n ∈ substitute (g.expandAdded (g.paired false)) body →
      depth g.nextNonterminal g.productions n ≤ k - 1 := by
  intro n hn
  obtain ⟨m, hm, member⟩ := mem_substitute.mp hn
  have high := bounded m hm
  by_cases fresh : Fresh g.nextNonterminal g.productions m
  · obtain ⟨own, rule⟩ := h.exists_mem_pairs_of_fresh fresh
    rw [h.expandAdded_of_fresh fresh rule] at member
    have lower := depth_lt h.below rule fresh member
    dsimp only at lower
    omega
  · rw [h.expandAdded_of_not_fresh fresh] at member
    cases List.mem_singleton.mp member
    have zero : depth g.nextNonterminal g.productions n = 0 := if_neg fresh
    omega

/-- After as many rounds as the depth of its nonterminals a body is unfolded. -/
theorem WellFormed.iterate_expandAdded (h : g.WellFormed) {body : Body} {k m : Nat} (le : k ≤ m)
    (bounded : ∀ n, .nonterminal n ∈ body → depth g.nextNonterminal g.productions n ≤ k) :
    (substitute (g.expandAdded (g.paired false)))^[m] body =
      unfold g.nextNonterminal g.productions body := by
  induction m generalizing body k with
  | zero =>
      symm
      apply unfold_eq_self
      intro n hn
      apply not_fresh_of_depth
      exact Nat.le_zero.mp ((bounded n hn).trans le)
  | succ m ih =>
      have fewer : k - 1 ≤ m := by omega
      rw [Function.iterate_succ_apply, ih fewer (h.depth_expandAdded bounded)]
      exact h.unfold_expandAdded body

/-- Two rounds replace a proxy and a link that leads to the same proxy. -/
example :
    (substitute (evenPalindromes.usefulPart.expandAdded (evenPalindromes.usefulPart.paired false)))^[2]
      [.nonterminal ⟨3⟩, .nonterminal ⟨5⟩] = [.terminal ⟨0⟩, .nonterminal ⟨1⟩, .terminal ⟨0⟩] := by
  decide +kernel

theorem demand_false : g.demand false = freshCount g.productions := by
  rw [← length_freshKinds_eq_demand, length_freshKinds]
  rfl

/-- The production of a proxy. -/
theorem WellFormed.filter_head_proxy (h : g.WellFormed) {derivesEmpty : Bool} {i : Nat}
    {t : TerminalId} (found : (proxied g.productions)[i]? = some t) :
    ((g.paired derivesEmpty).productions.filter fun p => p.head = ⟨g.nextNonterminal + i⟩) =
        [⟨⟨g.nextNonterminal + i⟩, [.terminal t]⟩] := by
  obtain ⟨inside, _⟩ := List.getElem?_eq_some_iff.mp found
  apply h.filter_head_paired_of_fresh (fresh_proxy inside)
  exact List.mem_append_left _ (mem_proxyRules.mpr ⟨i, t, found, rfl⟩)

/-- Enough rounds of replacement lead from the bodies of an old nonterminal back to its bodies
before, one by one. -/
theorem WellFormed.bijOn_expandAdded (h : g.WellFormed) (old : n.index < g.nextNonterminal)
    {rounds : Nat} (enough : freshCount g.productions < rounds) :
    Set.BijOn (substitute (g.expandAdded (g.paired false)))^[rounds]
      {body | body ∈ (g.paired false).bodiesOf n} {body | body ∈ g.bodiesOf n} := by
  have unfolded (body : Body) : (substitute (g.expandAdded (g.paired false)))^[rounds] body =
      unfold g.nextNonterminal g.productions body :=
    h.iterate_expandAdded enough fun n _ => depth_le _ _ n
  have encoded := h.encodes_pairs.bijOn h.grouped.nodup_productions old
  have after : {body | body ∈ (g.paired false).bodiesOf n} =
      {body | ⟨n, body⟩ ∈ pairs g.nextNonterminal g.productions} :=
    Set.ext fun _ => (mem_bodiesOf grouped_paired).trans mem_productions_withPairs
  have before : {body | body ∈ g.bodiesOf n} = {body | ⟨n, body⟩ ∈ g.productions} :=
    Set.ext fun _ => mem_bodiesOf h.grouped
  rw [funext unfolded, after, before]
  exact encoded

end Grammar

/-- The normal form can be undone. An added proxy has its own terminal as its only body. An added
link has one body and occurs once, as a second symbol. Replacing them by their bodies, for more
rounds than there are added nonterminals, gives the old bodies back, one by one. -/
theorem Obtained.normalForm_decoding {r : Reachable} {c : NormalForm}
    (h : Obtained (.reachable r)) (ok : r.normalForm false = .ok c) :
    (∀ proxy serial, c.grammar.Adds r.grammar ⟨proxy, .fresh .terminalProxy serial⟩ →
      ∃ t, (c.grammar.productions.filter fun p => p.head = proxy) = [⟨proxy, [.terminal t]⟩] ∧
        ∀ other serial', c.grammar.Adds r.grammar ⟨other, .fresh .terminalProxy serial'⟩ →
          ⟨other, [.terminal t]⟩ ∈ c.grammar.productions → other = proxy) ∧
    (∀ link serial, c.grammar.Adds r.grammar ⟨link, .fresh .chain serial⟩ →
      (∃ body, (c.grammar.productions.filter fun p => p.head = link) = [⟨link, body⟩]) ∧
      (c.grammar.productions.flatMap Production.body).count (.nonterminal link) = 1 ∧
      ∀ p ∈ c.grammar.productions, ∀ i, p.body[i]? = some (.nonterminal link) → i = 1) ∧
    ∀ n ∈ r.grammar.nonterminals, ∀ rounds > r.grammar.demand false,
      Set.BijOn (substitute (r.grammar.expandAdded c.grammar))^[rounds]
        {body | body ∈ c.grammar.bodiesOf n.id} {body | body ∈ r.grammar.bodiesOf n.id} := by
  have proper : r.grammar.Proper := h.lawful.1
  have wellFormed := proper.wellFormed
  obtain ⟨rfl, _⟩ := proper.eq_paired ok
  refine ⟨?_, ?_, ?_⟩
  · intro proxy serial new
    obtain ⟨i, t, found, rfl⟩ := new.exists_proxied
    refine ⟨t, wellFormed.filter_head_proxy found, ?_⟩
    intro other serial' new' rule
    obtain ⟨j, u, found', rfl⟩ := new'.exists_proxied
    have own : ⟨⟨r.grammar.nextNonterminal + j⟩, [.terminal t]⟩ ∈
        (r.grammar.paired false).productions.filter
          fun p => p.head = ⟨r.grammar.nextNonterminal + j⟩ :=
      List.mem_filter.mpr ⟨rule, decide_eq_true rfl⟩
    rw [wellFormed.filter_head_proxy found', List.mem_singleton] at own
    cases own
    obtain ⟨inside, _⟩ := List.getElem?_eq_some_iff.mp found
    have same := (List.getElem?_inj inside (nodup_distinct _)).mp (found.trans found'.symm)
    rw [same]
  · intro link serial new
    obtain ⟨k, inside, rfl⟩ := new.exists_link
    obtain ⟨body, rule⟩ := wellFormed.exists_mem_pairs_of_fresh (fresh_link inside)
    refine ⟨⟨body, wellFormed.filter_head_paired_of_fresh (fresh_link inside) rule⟩, ?_, ?_⟩
    · have split := wellFormed.perm_productions_withPairs (freshKinds r.grammar.productions false)
      have symbols := split.flatMap_right Production.body
      exact (symbols.count_eq _).trans (count_link wellFormed.below inside)
    · intro p hp i found
      exact place_of_link wellFormed.below (Grammar.mem_productions_withPairs.mp hp)
        (Nat.le_add_right _ k) found
  · intro n hn rounds enough
    apply wellFormed.bijOn_expandAdded (wellFormed.id_lt_next n hn)
    rwa [Grammar.demand_false] at enough

/-- The palindromes have the proxy 3 and the link 5, and both can be undone. -/
theorem evenPalindromes_normalForm_decoding :
    let r : Reachable := ⟨evenPalindromes.usefulPart⟩
    let c : NormalForm := ⟨evenPalindromes.usefulPart.paired false, false⟩
    Obtained (.reachable r) ∧ r.normalForm false = .ok c ∧
      (∃ t, (c.grammar.productions.filter fun p => p.head = ⟨3⟩) = [⟨⟨3⟩, [.terminal t]⟩]) ∧
      (∃ body, (c.grammar.productions.filter fun p => p.head = ⟨5⟩) = [⟨⟨5⟩, body⟩]) ∧
      Set.BijOn (substitute (r.grammar.expandAdded c.grammar))^[7]
        {body | body ∈ c.grammar.bodiesOf ⟨0⟩} {body | body ∈ r.grammar.bodiesOf ⟨0⟩} := by
  intro r c
  have reduced : Obtained (.reachable r) := obtained_evenPalindromes.usefulPart (by decide +kernel)
  have ok : r.normalForm false = .ok c := by decide +kernel
  obtain ⟨proxies, links, undone⟩ := reduced.normalForm_decoding ok
  obtain ⟨t, own, _⟩ := proxies ⟨3⟩ 1 ⟨by decide +kernel, by decide +kernel⟩
  obtain ⟨single, _, _⟩ := links ⟨5⟩ 3 ⟨by decide +kernel, by decide +kernel⟩
  have old : ⟨⟨0⟩, .declared "S"⟩ ∈ r.grammar.nonterminals := by decide +kernel
  have few : r.grammar.demand false < 7 := by decide +kernel
  exact ⟨reduced, ok, ⟨t, own⟩, single, undone _ old 7 few⟩

end ContextFree
