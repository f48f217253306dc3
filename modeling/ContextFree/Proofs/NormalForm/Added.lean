import ContextFree.Proofs.NormalForm.Paired

/-!
# What the added nonterminals derive

A proxy derives the one-letter word of its terminal. A link derives what the rest of its
source body derives, that is, the suffix behind the symbols that precede the link in the
chain. Both follow by unfolding proxies and links in a body that consists of nothing else.

## Implementation notes

A link is identified by the source production it helps to split and by its place in the
chain of pairs that replaces this production.
-/

namespace ContextFree

open NormalForm

namespace NormalForm

variable {next : Nat} {productions : List Production}

/-- A proxy unfolds to its terminal. -/
theorem unfold_proxy {i : Nat} {t : TerminalId} (found : (proxied productions)[i]? = some t) :
    unfold next productions [.nonterminal ⟨next + i⟩] = [.terminal t] := by
  obtain ⟨inside, _⟩ := List.getElem?_eq_some_iff.mp found
  have small : next + i < next + (proxied productions).length := Nat.add_lt_add_left inside next
  rw [unfold, substitute_nonterminal, abbreviation_of_lt small, substitute_nil, List.append_nil,
    substitute_nonterminal, abbreviation_of_getElem? (getElem?_proxyBodies found)]
  rfl

theorem yields_proxy_iff (below : ∀ p ∈ productions, p.Below next) {i : Nat} {t : TerminalId}
    (found : (proxied productions)[i]? = some t) {w : Word} :
    Yields (· ∈ pairs next productions) [.nonterminal ⟨next + i⟩] w ↔ w = [t] := by
  rw [yields_pairs_iff below, unfold_proxy found]
  exact Yields.singleton_terminal_iff

/-- A link unfolds to the suffix that its place in the chain tells. -/
theorem exists_unfold_link (below : ∀ p ∈ productions, p.Below next) {k : Nat}
    (inside : k < (productions.map linkCount).sum) :
    ∃ p ∈ productions, ∃ first i, next ≤ first ∧ i < linkCount p ∧
      next + (proxied productions).length + k = first + i ∧
      chain p.head first (isolate (proxyTable (proxied productions) next) p.body) ⊆
        pairs next productions ∧
      unfold next productions [.nonterminal ⟨next + (proxied productions).length + k⟩] =
        p.body.drop (i + 1) := by
  have total : (linkBodies (unpaired next productions)).length = (productions.map linkCount).sum :=
    length_linkBodies_unpaired
  rw [← total] at inside
  obtain ⟨q, hq, first, i, lower, place, number, suffix, chained⟩ :=
    exists_chain_of_lt_length_linkBodies inside (next + (proxied productions).length)
  rw [← pairs_eq_binarize] at chained
  cases List.mem_append.mp hq with
  | inl proxy =>
      -- The body of a proxy is a single terminal and has no links.
      obtain ⟨j, t, _, rfl⟩ := mem_proxyRules.mp proxy
      exact absurd place (Nat.not_lt_zero i)
  | inr own =>
      obtain ⟨p, hp, rfl⟩ := mem_isolated.mp own
      have count : i < p.body.length - 2 := by
        rw [linkCount, length_isolate] at place
        exact place
      refine ⟨p, hp, first, i, by omega, count, number, chained, ?_⟩
      have long : ¬ p.body.length < 2 := by omega
      have old : ∀ m, .nonterminal m ∈ p.body.drop (i + 1) → m.index < next :=
        fun m hm => (below p hp).body m (List.mem_of_mem_drop hm)
      rw [unfold, substitute_nonterminal, abbreviation_of_getElem? suffix, substitute_nil,
        List.append_nil, isolate, if_neg long, ← List.map_drop]
      exact substitute_map_isolateSymbol (nodup_distinct _) old

/-- The kinds of the added nonterminals tell their places: proxies come first, then the
links, then the start symbol. -/
theorem place_of_getElem?_freshKinds {derivesEmpty : Bool} {i : Nat} {kind : FreshKind}
    (found : (freshKinds productions derivesEmpty)[i]? = some kind) :
    match kind with
    | .terminalProxy => i < (proxied productions).length
    | .chain => ∃ k < (productions.map linkCount).sum, i = (proxied productions).length + k
    | .start => derivesEmpty = true ∧ i = freshCount productions := by
  rw [freshKinds, foldl_linkCount, List.append_assoc, List.getElem?_append,
    List.length_replicate] at found
  split at found
  next proxy =>
    rw [List.getElem?_replicate, if_pos proxy] at found
    cases found
    exact proxy
  next later =>
    rw [List.getElem?_append, List.length_replicate] at found
    split at found
    next link =>
      rw [List.getElem?_replicate, if_pos link] at found
      cases found
      exact ⟨i - (proxied productions).length, link, by omega⟩
    next last =>
      cases derivesEmpty with
      | false => simp at found
      | true =>
          rw [if_pos rfl, List.getElem?_singleton] at found
          split at found
          next zero =>
            cases found
            exact ⟨rfl, by unfold freshCount; omega⟩
          next => cases found

end NormalForm

namespace Grammar

variable {g : Grammar} {derivesEmpty : Bool} {n : NonterminalId}

/-- The proxies that the normal form of a grammar adds. -/
def proxyTable (g : Grammar) : Std.TreeMap TerminalId NonterminalId :=
  NormalForm.proxyTable (proxied g.productions) g.nextNonterminal

/-- A nonterminal of `c` is the link at place `i` of the chain of pairs that replaces the
production `p` of `g`. The links of the chain have numbers that are free in `g`, and this one
comes after `i + 1` symbols of the body of `p`. -/
structure IsLink (g c : Grammar) (link : NonterminalId) (p : Production) (i : Nat) : Prop where
  source : p ∈ g.productions
  place : i < linkCount p
  chained : ∃ first, g.nextNonterminal ≤ first ∧ link = ⟨first + i⟩ ∧
    chain p.head first (isolate g.proxyTable p.body) ⊆ c.productions

/-- A nonterminal is new in `c`. -/
def Adds (c g : Grammar) (n : Nonterminal) : Prop := n ∈ c.nonterminals ∧ n ∉ g.nonterminals

/-- The nonterminals that the normal form adds are numbered in the order of their kinds. -/
theorem Adds.exists_kind {entry : Nonterminal} (new : (g.paired derivesEmpty).Adds g entry) :
    ∃ i kind, (freshKinds g.productions derivesEmpty)[i]? = some kind ∧
      entry = ⟨⟨g.nextNonterminal + i⟩, .fresh kind (i + 1)⟩ := by
  obtain ⟨member, absent⟩ := new
  rw [nonterminals_paired, List.mem_append] at member
  exact mem_freshNonterminals.mp (member.resolve_left absent)

/-- The added proxies are numbered in the order of their terminals. -/
theorem Adds.exists_proxied {serial : Nat}
    (new : (g.paired derivesEmpty).Adds g ⟨n, .fresh .terminalProxy serial⟩) :
    ∃ i t, (proxied g.productions)[i]? = some t ∧ n = ⟨g.nextNonterminal + i⟩ := by
  obtain ⟨i, kind, found, same⟩ := new.exists_kind
  cases same
  have inside : i < (proxied g.productions).length := place_of_getElem?_freshKinds found
  exact ⟨i, _, List.getElem?_eq_getElem inside, rfl⟩

/-- The added links are numbered behind the proxies. -/
theorem Adds.exists_link {serial : Nat}
    (new : (g.paired derivesEmpty).Adds g ⟨n, .fresh .chain serial⟩) :
    ∃ k < (g.productions.map linkCount).sum,
      n = ⟨g.nextNonterminal + (proxied g.productions).length + k⟩ := by
  obtain ⟨i, kind, found, same⟩ := new.exists_kind
  cases same
  obtain ⟨k, inside, rfl⟩ := place_of_getElem?_freshKinds found
  exact ⟨k, inside, by rw [Nat.add_assoc]⟩

/-- A proxy derives its terminal and nothing else. -/
theorem WellFormed.derives_added_proxy (h : g.WellFormed) {serial : Nat}
    (new : (g.paired derivesEmpty).Adds g ⟨n, .fresh .terminalProxy serial⟩) :
    ∃ t, g.proxyTable[t]? = some n ∧
      ∀ w, (g.paired derivesEmpty).Derives n w ↔ w = [t] := by
  obtain ⟨i, t, found, rfl⟩ := new.exists_proxied
  obtain ⟨inside, _⟩ := List.getElem?_eq_some_iff.mp found
  refine ⟨t, (getElem?_proxyTable (nodup_distinct _)).mpr ⟨i, found, rfl⟩, ?_⟩
  intro w
  rw [h.derives_paired_iff_yields (fresh_proxy inside).2]
  exact yields_proxy_iff h.below found

/-- A link derives what the suffix behind it derives. -/
theorem WellFormed.derives_added_link (h : g.WellFormed) {serial : Nat}
    (new : (g.paired derivesEmpty).Adds g ⟨n, .fresh .chain serial⟩) :
    ∃ p i, g.IsLink (g.paired derivesEmpty) n p i ∧
      ∀ w, (g.paired derivesEmpty).Derives n w ↔
        Yields (· ∈ g.productions) (p.body.drop (i + 1)) w := by
  obtain ⟨k, inside, rfl⟩ := new.exists_link
  obtain ⟨p, hp, first, i, lower, place, number, chained, suffix⟩ :=
    exists_unfold_link h.below inside
  refine ⟨p, i, ⟨hp, place, first, lower, congrArg Id.mk number, ?_⟩, ?_⟩
  · intro q hq
    exact mem_productions_paired_of_mem_pairs (chained hq)
  · intro w
    rw [h.derives_paired_iff_yields (fresh_link inside).2, yields_pairs_iff h.below, suffix]

/-- The start symbol of a normal form that keeps the empty word is new. -/
theorem WellFormed.adds_start_paired (h : g.WellFormed) :
    (g.paired true).Adds g
      ⟨(g.paired true).start, .fresh .start (freshCount g.productions + 1)⟩ := by
  rw [start_paired_true]
  refine ⟨emptyStart_mem_nonterminals, ?_⟩
  intro old
  exact Nat.not_lt.mpr (Nat.le_add_right _ _) (h.id_lt_next _ old)

end Grammar

end ContextFree
