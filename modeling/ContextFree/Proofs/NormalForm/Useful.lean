import ContextFree.Proofs.NormalForm.Added
import ContextFree.Proofs.Obtained

/-!
# The normal form has no useless symbols

The last stage starts from a grammar whose symbols all derive a word and are all reachable,
and it adds symbols of its own. A head reaches all symbols and links of the chain that replaces
one of its bodies, so old symbols stay reachable, and proxies and links become so. What the
added symbols derive is known, and it is never only the empty word. A new start symbol takes
over the bodies of the old one: from it everything is reachable that the old one reaches by one
or more steps, so the old start symbol is the only one that can be lost.
-/

namespace ContextFree

open NormalForm

namespace NormalForm

variable {productions : List Production} {p : Production}

theorem nonterminal_mem_isolate {table : Std.TreeMap TerminalId NonterminalId} {body : Body}
    {n : NonterminalId} (member : .nonterminal n ∈ body) :
    .nonterminal n ∈ isolate table body := by
  unfold isolate
  split
  · exact member
  · exact List.mem_map.mpr ⟨_, member, rfl⟩

/-- A proxy stands in a body of two or more symbols that has its terminal. -/
theorem exists_proxy_mem_isolate {i : Nat} {t : TerminalId}
    (found : (proxied productions)[i]? = some t) (next : Nat) :
    ∃ p ∈ productions,
      .nonterminal ⟨next + i⟩ ∈ isolate (proxyTable (proxied productions) next) p.body := by
  obtain ⟨p, hp, long, member⟩ := mem_proxied.mp (List.mem_of_getElem? found)
  have proxy : (proxyTable (proxied productions) next)[t]? = some ⟨next + i⟩ :=
    (getElem?_proxyTable (nodup_distinct _)).mpr ⟨i, found, rfl⟩
  refine ⟨p, hp, ?_⟩
  rw [isolate, if_neg (Nat.not_lt.mpr long)]
  refine List.mem_map.mpr ⟨_, member, ?_⟩
  simp only [isolateSymbol, proxy]

/-- The pairs of every isolated body are there. -/
theorem exists_chain_subset_pairs (hp : p ∈ productions) (next : Nat) :
    ∃ first, chain p.head first (isolate (proxyTable (proxied productions) next) p.body) ⊆
      pairs next productions := by
  have own : (⟨p.head, isolate (proxyTable (proxied productions) next) p.body⟩ : Production) ∈
      unpaired next productions := List.mem_append_right _ (mem_isolated.mpr ⟨p, hp, rfl⟩)
  obtain ⟨first, sub⟩ :=
    exists_chain_subset_binarize own (next + (proxied productions).length)
  rw [← pairs_eq_binarize] at sub
  exact ⟨first, sub⟩

end NormalForm

namespace Grammar

variable {g : Grammar}

section Chain

variable {head n : NonterminalId} {next : Nat} {body : Body}

/-- A head reaches every symbol of a body through the pairs of the body. -/
theorem reaches_of_mem_body (chained : chain head next body ⊆ g.productions)
    (member : .nonterminal n ∈ body) : g.Reaches head n := by
  induction head, next, body using chain.induct with
  | case1 head next a b c rest ih =>
      rw [chain, List.cons_subset] at chained
      obtain ⟨pair, later⟩ := chained
      cases List.mem_cons.mp member with
      | inl first => exact .single ⟨_, pair, first ▸ List.mem_cons_self⟩
      | inr behind =>
          have link : g.Mentions head ⟨next⟩ := ⟨_, pair, by simp⟩
          exact (ih later behind).head link
  | case2 head next body short =>
      rw [chain.eq_2 head next body short, List.cons_subset] at chained
      exact .single ⟨body, chained.1, member⟩

/-- A head reaches every link of the pairs of a body. -/
theorem reaches_link (chained : chain head next body ⊆ g.productions) {i : Nat}
    (inside : i < body.length - 2) : g.Reaches head ⟨next + i⟩ := by
  induction head, next, body using chain.induct generalizing i with
  | case1 head next a b c rest ih =>
      rw [chain, List.cons_subset] at chained
      obtain ⟨pair, later⟩ := chained
      have link : g.Mentions head ⟨next⟩ := ⟨_, pair, by simp⟩
      cases i with
      | zero => exact .single link
      | succ i =>
          have behind := ih later (i := i) (by simp at inside ⊢; omega)
          rw [Nat.add_assoc, Nat.add_comm 1 i] at behind
          exact behind.head link
  | case2 head next body short =>
      have small := length_le_two_of_ne short
      omega

end Chain

/-- Without empty bodies only the empty body derives the empty word. -/
theorem NoEmptyBody.ne_nil_of_yields (h : g.NoEmptyBody) {body : Body} {w : Word}
    (long : body ≠ []) (yields : Yields (· ∈ g.productions) body w) : w ≠ [] := by
  have short := yields.length_le h
  rintro rfl
  exact long (List.length_eq_zero_iff.mp (Nat.le_zero.mp short))

/-- If all nonterminals derive a word, all bodies of declared symbols do. -/
theorem AllProductive.exists_yields (h : g.AllProductive) (body : Body)
    (declared : ∀ s ∈ body, g.Declares s) : ∃ w, Yields (· ∈ g.productions) body w := by
  apply Yields.exists_of_forall
  intro s hs
  cases s with
  | terminal t => exact ⟨[t], Yields.singleton_terminal_iff.mpr rfl⟩
  | nonterminal n =>
      obtain ⟨entry, there, rfl⟩ := List.mem_map.mp (declared _ hs)
      exact h entry there

section Paired

variable {derivesEmpty : Bool} {n m : NonterminalId} {entry : Nonterminal}

/-- The nonterminals of the normal form: the old ones, the proxies, the links, and a start
symbol if the empty word is kept. -/
theorem cases_of_mem_nonterminals_paired
    (member : entry ∈ (g.paired derivesEmpty).nonterminals) :
    entry ∈ g.nonterminals ∨
      (∃ i t, (proxied g.productions)[i]? = some t ∧ entry.id = ⟨g.nextNonterminal + i⟩) ∨
      (∃ k < (g.productions.map linkCount).sum,
        entry.id = ⟨g.nextNonterminal + (proxied g.productions).length + k⟩) ∨
      (derivesEmpty = true ∧ entry.id = g.emptyStart) := by
  by_cases old : entry ∈ g.nonterminals
  · exact Or.inl old
  · obtain ⟨i, kind, found, rfl⟩ := Adds.exists_kind ⟨member, old⟩
    right
    cases kind with
    | terminalProxy => exact Or.inl (Adds.exists_proxied ⟨member, old⟩)
    | chain => exact Or.inr (Or.inl (Adds.exists_link ⟨member, old⟩))
    | start =>
        obtain ⟨keeps, rfl⟩ := place_of_getElem?_freshKinds found
        exact Or.inr (Or.inr ⟨keeps, rfl⟩)

/-- Every nonterminal of the normal form derives a nonempty word. -/
theorem Proper.exists_word_paired (h : g.Proper) (all : g.AllProductive)
    (member : entry ∈ (g.paired derivesEmpty).nonterminals) :
    ∃ w, w ≠ [] ∧ (g.paired derivesEmpty).Derives entry.id w := by
  have wellFormed := h.wellFormed
  obtain old | ⟨i, t, found, same⟩ | ⟨k, inside, same⟩ | ⟨rfl, same⟩ :=
    cases_of_mem_nonterminals_paired member
  · obtain ⟨w, derives⟩ := all entry old
    refine ⟨w, h.noEmptyBody.ne_nil_of_yields (List.cons_ne_nil _ _) derives, ?_⟩
    exact (wellFormed.derives_paired_iff (wellFormed.id_lt_next entry old)).mpr derives
  · obtain ⟨small, _⟩ := List.getElem?_eq_some_iff.mp found
    refine ⟨[t], List.cons_ne_nil _ _, ?_⟩
    rw [same, wellFormed.derives_paired_iff_yields (fresh_proxy small).2]
    exact (yields_proxy_iff wellFormed.below found).mpr rfl
  · obtain ⟨p, hp, _, i, _, place, _, _, suffix⟩ := exists_unfold_link wellFormed.below inside
    have long : p.body.drop (i + 1) ≠ [] := by
      unfold linkCount at place
      rw [Ne, List.drop_eq_nil_iff]
      omega
    obtain ⟨w, yields⟩ := all.exists_yields (p.body.drop (i + 1))
      fun s hs => wellFormed.body_declared p hp s (List.mem_of_mem_drop hs)
    refine ⟨w, h.noEmptyBody.ne_nil_of_yields long yields, ?_⟩
    rwa [same, wellFormed.derives_paired_iff_yields (fresh_link inside).2,
      yields_pairs_iff wellFormed.below, suffix]
  · obtain ⟨w, derives⟩ := all.exists_yields [.nonterminal g.start]
      fun s hs => List.mem_singleton.mp hs ▸ wellFormed.start_declared
    refine ⟨w, h.noEmptyBody.ne_nil_of_yields (List.cons_ne_nil _ _) derives, ?_⟩
    rw [same, ← start_paired_true]
    exact wellFormed.derives_start_paired_iff.mpr (Or.inr derives)

/-- The head of an old production reaches all symbols of its isolated body. -/
theorem reaches_paired_of_mem_isolate {p : Production} (hp : p ∈ g.productions)
    (member : .nonterminal n ∈ isolate g.proxyTable p.body) :
    (g.paired derivesEmpty).Reaches p.head n := by
  obtain ⟨first, sub⟩ := exists_chain_subset_pairs hp g.nextNonterminal
  have chained : chain p.head first (isolate g.proxyTable p.body) ⊆
      (g.paired derivesEmpty).productions :=
    fun q hq => mem_productions_paired_of_mem_pairs (sub hq)
  exact reaches_of_mem_body chained member

/-- What is reached stays reached. -/
theorem reaches_paired (h : g.Reaches n m) : (g.paired derivesEmpty).Reaches n m := by
  induction h with
  | refl => exact .refl
  | tail _ mentioned ih =>
      obtain ⟨body, rule, member⟩ := mentioned
      exact ih.trans (reaches_paired_of_mem_isolate rule (nonterminal_mem_isolate member))

/-- The old start symbol reaches all symbols of the normal form but a new start symbol. -/
theorem AllReachable.reaches_paired (all : g.AllReachable) (h : g.WellFormed)
    (member : entry ∈ (g.paired derivesEmpty).nonterminals)
    (other : derivesEmpty = true → entry.id ≠ g.emptyStart) :
    (g.paired derivesEmpty).Reaches g.start entry.id := by
  have heads {p : Production} (hp : p ∈ g.productions) :
      (g.paired derivesEmpty).Reaches g.start p.head := by
    obtain ⟨old, there, same⟩ := List.mem_map.mp (h.head_declared p hp)
    exact same ▸ Grammar.reaches_paired (all old there)
  obtain old | ⟨i, t, found, same⟩ | ⟨k, inside, same⟩ | ⟨keeps, same⟩ :=
    cases_of_mem_nonterminals_paired member
  · exact Grammar.reaches_paired (all entry old)
  · obtain ⟨p, hp, proxy⟩ := exists_proxy_mem_isolate found g.nextNonterminal
    rw [same]
    exact (heads hp).trans (reaches_paired_of_mem_isolate hp proxy)
  · obtain ⟨p, hp, first, i, _, place, number, sub, _⟩ := exists_unfold_link h.below inside
    have chained : chain p.head first (isolate g.proxyTable p.body) ⊆
        (g.paired derivesEmpty).productions :=
      fun q hq => mem_productions_paired_of_mem_pairs (sub hq)
    have linked : i < (isolate g.proxyTable p.body).length - 2 := by
      rw [length_isolate]
      exact place
    rw [same, number]
    exact (heads hp).trans (reaches_link chained linked)
  · exact absurd same (other keeps)

/-- Without the empty word all symbols of the normal form are reachable. -/
theorem AllReachable.paired (all : g.AllReachable) (h : g.WellFormed) :
    (g.paired false).AllReachable :=
  fun _ member => all.reaches_paired h member fun keeps => absurd keeps Bool.false_ne_true

section EmptyStart

/-- A new start symbol mentions what the old one mentions. -/
theorem WellFormed.mentions_emptyStart_iff (h : g.WellFormed) :
    (g.paired true).Mentions g.emptyStart m ↔ (g.paired true).Mentions g.start m := by
  have unused : ¬ (g.withPairs (freshKinds g.productions true)).Occurs g.emptyStart :=
    h.not_occurs_emptyStart
  rw [paired_true]
  constructor
  · rintro ⟨body, rule, member⟩
    obtain old | ⟨_, empty | own⟩ := (mem_productions_withEmptyStart grouped_withPairs).mp rule
    · exact absurd ⟨_, old, Or.inl rfl⟩ unused
    · obtain rfl : body = [] := empty
      exact absurd member List.not_mem_nil
    · exact ⟨body, (mem_productions_withEmptyStart grouped_withPairs).mpr (Or.inl own), member⟩
  · rintro ⟨body, rule, member⟩
    refine ⟨body, ?_, member⟩
    obtain old | ⟨same, _⟩ := (mem_productions_withEmptyStart grouped_withPairs).mp rule
    · exact (mem_productions_withEmptyStart grouped_withPairs).mpr (Or.inr ⟨rfl, Or.inr old⟩)
    · have same : g.start = g.emptyStart := same
      rwa [same] at rule

/-- From a new start symbol everything is reachable that the old one reaches by one or more
steps. -/
theorem WellFormed.reaches_emptyStart_iff (h : g.WellFormed) :
    (g.paired true).Reaches g.emptyStart n ↔
      g.emptyStart = n ∨ Relation.TransGen (g.paired true).Mentions g.start n := by
  rw [Reaches, Relation.ReflTransGen.cases_head_iff, Relation.TransGen.head'_iff]
  exact or_congr_right (exists_congr fun m => and_congr_left fun _ => h.mentions_emptyStart_iff)

/-- A new start symbol is not the old one. -/
theorem WellFormed.emptyStart_ne_start (h : g.WellFormed) : g.emptyStart ≠ g.start := by
  intro same
  have old := h.index_lt h.start_declared
  rw [← same] at old
  exact Nat.not_lt.mpr (Nat.le_add_right _ _) old

/-- From a new start symbol all symbols but the old start symbol are reachable. -/
theorem AllReachable.reaches_emptyStart (all : g.AllReachable) (h : g.WellFormed)
    (member : entry ∈ (g.paired true).nonterminals) (other : entry.id ≠ g.start) :
    (g.paired true).Reaches g.emptyStart entry.id := by
  rw [h.reaches_emptyStart_iff]
  by_cases new : entry.id = g.emptyStart
  · exact Or.inl new.symm
  · have reached := all.reaches_paired h member fun _ => new
    cases Relation.reflTransGen_iff_eq_or_transGen.mp reached with
    | inl same => exact absurd same other
    | inr path => exact Or.inr path

/-- The old start symbol is reachable from a new one exactly if it occurs in a body. -/
theorem AllReachable.reaches_emptyStart_start_iff (all : g.AllReachable) (h : g.WellFormed)
    (result : (g.paired true).WellFormed) :
    (g.paired true).Reaches g.emptyStart g.start ↔
      ∃ p ∈ (g.paired true).productions, .nonterminal g.start ∈ p.body := by
  rw [h.reaches_emptyStart_iff, or_iff_right h.emptyStart_ne_start]
  constructor
  · intro path
    obtain ⟨m, _, body, rule, member⟩ := Relation.TransGen.tail'_iff.mp path
    exact ⟨⟨m, body⟩, rule, member⟩
  · rintro ⟨p, hp, member⟩
    have mentioned : (g.paired true).Mentions p.head g.start := ⟨p.body, hp, member⟩
    by_cases new : p.head = g.emptyStart
    · exact .single (h.mentions_emptyStart_iff.mp (new ▸ mentioned))
    · obtain ⟨entry, there, same⟩ := List.mem_map.mp (result.head_declared p hp)
      have reached := all.reaches_paired h there fun _ => same ▸ new
      exact Relation.TransGen.tail' (same ▸ reached) mentioned

end EmptyStart

end Paired

end Grammar

/-- The result of a normalization carries no useless symbols. Each nonterminal derives a nonempty
word, and each is reachable from the start symbol, except that a start symbol that was replaced
to keep the empty word is reachable only if it occurs in a body. -/
theorem Obtained.normalize_useful {g : Grammar} {policy : EmptyWord} {c : NormalForm}
    (h : Obtained (.grammar g)) (ok : g.normalize policy = .ok c) :
    (∀ n ∈ c.grammar.nonterminals, ∃ w, w ≠ [] ∧ c.grammar.Derives n.id w) ∧
    (∀ n ∈ c.grammar.nonterminals, (c.derivesEmpty = true → n.id ≠ g.start) →
      c.grammar.Reaches c.grammar.start n.id) ∧
    (c.derivesEmpty = true →
      c.grammar.Declares (.nonterminal g.start) ∧ c.grammar.start ≠ g.start ∧
      (c.grammar.Reaches c.grammar.start g.start ↔
        ∃ p ∈ c.grammar.productions, .nonterminal g.start ∈ p.body)) := by
  obtain ⟨rfl, reduced, room⟩ := h.eq_paired_of_normalize ok
  obtain ⟨proper, words, reached⟩ := reduced.lawful
  have result := proper.wellFormed.paired room
  rw [← Grammar.start_usefulPart]
  refine ⟨fun n member => proper.exists_word_paired words member, ?_⟩
  cases keeps : g.keepsEmptyWord policy with
  | false =>
      rw [keeps] at result
      refine ⟨fun n member _ => ?_, fun absurdity => absurd absurdity Bool.false_ne_true⟩
      exact reached.paired proper.wellFormed n member
  | true =>
      rw [keeps] at result
      rw [Grammar.start_paired_true]
      refine ⟨fun n member other => ?_, fun _ => ⟨?_, ?_, ?_⟩⟩
      · exact reached.reaches_emptyStart proper.wellFormed member (other rfl)
      · obtain ⟨entry, there, same⟩ := List.mem_map.mp proper.wellFormed.start_declared
        apply List.mem_map.mpr
        refine ⟨entry, ?_, same⟩
        rw [Grammar.nonterminals_paired]
        exact List.mem_append_left _ there
      · exact proper.wellFormed.emptyStart_ne_start
      · exact reached.reaches_emptyStart_start_iff proper.wellFormed result

/-- The old start symbol of the palindromes is lost, and it is the only one. -/
theorem evenPalindromes_normalize_useful :
    let c : NormalForm := ⟨evenPalindromes.usefulPart.paired true, true⟩
    Obtained (.grammar evenPalindromes) ∧ evenPalindromes.normalize .preserve = .ok c ∧
      (∀ n ∈ c.grammar.nonterminals, ∃ w, w ≠ [] ∧ c.grammar.Derives n.id w) ∧
      (∀ n ∈ c.grammar.nonterminals, c.grammar.Reaches ⟨9⟩ n.id ↔ n.id ≠ ⟨0⟩) := by
  intro c
  have ok : evenPalindromes.normalize .preserve = .ok c := by decide +kernel
  have start : c.grammar.start = ⟨9⟩ := by decide +kernel
  have absent : ¬ ∃ p ∈ c.grammar.productions, .nonterminal ⟨0⟩ ∈ p.body := by decide +kernel
  obtain ⟨words, reached, lost⟩ := obtained_evenPalindromes.normalize_useful ok
  rw [start] at reached lost
  refine ⟨obtained_evenPalindromes, ok, words, fun n member => ⟨?_, ?_⟩⟩
  · intro found same
    rw [same] at found
    exact absent ((lost rfl).2.2.mp found)
  · intro other
    exact reached n member fun _ => other

end ContextFree
