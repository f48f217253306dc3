import ContextFree.Proofs.Grouping
import ContextFree.Proofs.Stages
import Mathlib.Data.List.Perm.Basic
import Mathlib.Data.Set.Function

/-!
# The pairs encode the productions one by one

Each production has exactly one of the pairs under its old head, which gives it back when links
and proxies are unfolded, and each link and each proxy is the head of exactly one more. So no two
pairs are equal if no two productions are, and they can be counted. Moreover, the symbols of the
pairs are those of the productions and of the proxies, and every link once.

## Implementation notes

Isolating terminals and splitting bodies both encode productions in this sense, and the two
encodings are composed.
-/

namespace ContextFree

namespace NormalForm

/-- The productions in `encoded` whose heads lie below `bound` are those in `productions`, one
by one, once their bodies are decoded. Each of the next numbers is the head of one more. -/
structure Encodes (bound count : Nat) (decode : Body → Body)
    (encoded productions : List Production) : Prop where
  old : ((encoded.filter fun q => q.head.index < bound).map fun q =>
    (⟨q.head, decode q.body⟩ : Production)) = productions
  heads : (encoded.map Production.head).Perm
    (productions.map Production.head ++ consecutive bound count)

namespace Encodes

variable {bound count : Nat} {decode : Body → Body} {encoded productions : List Production}
  {n : NonterminalId}

theorem head_lt (h : Encodes bound count decode encoded productions) {p : Production}
    (hp : p ∈ productions) : p.head.index < bound := by
  rw [← h.old] at hp
  obtain ⟨q, hq, rfl⟩ := List.mem_map.mp hp
  simpa using (List.mem_filter.mp hq).2

theorem length_eq (h : Encodes bound count decode encoded productions) :
    encoded.length = productions.length + count := by
  have same := h.heads.length_eq
  rwa [List.length_map, List.length_append, List.length_map, length_consecutive] at same

/-- A head below the bound has as many productions as before. -/
theorem count_head_of_lt (h : Encodes bound count decode encoded productions)
    (old : n.index < bound) :
    (encoded.map Production.head).count n = (productions.map Production.head).count n := by
  have absent : n ∉ consecutive bound count :=
    fun member => Nat.not_lt.mpr (mem_consecutive.mp member).1 old
  rw [h.heads.count_eq, List.count_append, List.count_eq_zero_of_not_mem absent, Nat.add_zero]

/-- A new head has one production. -/
theorem count_head_of_mem (h : Encodes bound count decode encoded productions)
    (new : n ∈ consecutive bound count) : (encoded.map Production.head).count n = 1 := by
  have absent : n ∉ productions.map Production.head := by
    intro member
    obtain ⟨p, hp, rfl⟩ := List.mem_map.mp member
    exact Nat.not_lt.mpr (mem_consecutive.mp new).1 (h.head_lt hp)
  rw [h.heads.count_eq, List.count_append, List.count_eq_zero_of_not_mem absent, Nat.zero_add]
  exact List.count_eq_one_of_mem (nodup_consecutive bound count) new

/-- No other production has the same new head. -/
theorem eq_of_head_eq (h : Encodes bound count decode encoded productions) {p q : Production}
    (new : p.head ∈ consecutive bound count) (hp : p ∈ encoded) (hq : q ∈ encoded)
    (same : q.head = p.head) : q = p := by
  have one : (encoded.filter fun q => q.head = p.head).length = 1 := by
    rw [← h.count_head_of_mem new, List.count, List.countP_map, List.countP_eq_length_filter]
    rfl
  obtain ⟨only, single⟩ := List.length_eq_one_iff.mp one
  have all : ∀ q ∈ encoded, q.head = p.head → q = only := by
    intro q hq same
    apply List.mem_singleton.mp
    rw [← single]
    exact List.mem_filter.mpr ⟨hq, decide_eq_true same⟩
  exact (all q hq same).trans (all p hp rfl).symm

/-- Different productions have different codes. -/
theorem nodup (h : Encodes bound count decode encoded productions)
    (distinctProductions : productions.Nodup) : encoded.Nodup := by
  apply List.nodup_iff_count_le_one.mpr
  intro q
  by_cases old : q.head.index < bound
  · have decoded : (encoded.filter fun q => q.head.index < bound).Nodup := by
      apply List.Nodup.of_map fun q => (⟨q.head, decode q.body⟩ : Production)
      rwa [h.old]
    rw [← List.count_filter (p := fun q => decide (q.head.index < bound)) (by simpa using old)]
    exact List.nodup_iff_count_le_one.mp decoded q
  · have heads := List.count_le_count_map (f := Production.head) (l := encoded) (x := q)
    apply heads.trans
    by_cases new : q.head ∈ consecutive bound count
    · exact (h.count_head_of_mem new).le
    · have absent : q.head ∉ encoded.map Production.head := by
        rw [h.heads.mem_iff, List.mem_append, not_or]
        refine ⟨fun member => ?_, new⟩
        obtain ⟨p, hp, same⟩ := List.mem_map.mp member
        exact old (same ▸ h.head_lt hp)
      rw [List.count_eq_zero_of_not_mem absent]
      exact Nat.zero_le 1

/-- Decoding maps the bodies of an old head one-to-one onto its bodies before. -/
theorem bijOn (h : Encodes bound count decode encoded productions)
    (distinctProductions : productions.Nodup) (old : n.index < bound) :
    Set.BijOn decode {body | ⟨n, body⟩ ∈ encoded} {body | ⟨n, body⟩ ∈ productions} := by
  have kept {body : Body} (member : (⟨n, body⟩ : Production) ∈ encoded) :
      (⟨n, body⟩ : Production) ∈ encoded.filter fun q => q.head.index < bound :=
    List.mem_filter.mpr ⟨member, by simpa using old⟩
  refine ⟨?_, ?_, ?_⟩
  · intro body member
    change _ ∈ productions
    rw [← h.old]
    exact List.mem_map.mpr ⟨_, kept member, rfl⟩
  · intro body member other member' same
    have equal : (⟨n, body⟩ : Production) = ⟨n, other⟩ := by
      apply List.inj_on_of_nodup_map (h.old.symm ▸ distinctProductions) (kept member)
        (kept member')
      exact congrArg (Production.mk n) same
    exact (Production.mk.inj equal).2
  · intro body member
    have member : (⟨n, body⟩ : Production) ∈ productions := member
    rw [← h.old] at member
    obtain ⟨q, hq, same⟩ := List.mem_map.mp member
    obtain ⟨rfl, rfl⟩ := Production.mk.inj same
    exact ⟨q.body, (List.mem_filter.mp hq).1, rfl⟩

/-- An encoding of codes encodes what they encode. -/
theorem trans {count' : Nat} {decode' : Body → Body} {twice : List Production}
    (h : Encodes bound count decode encoded productions)
    (h' : Encodes (bound + count) count' decode' twice encoded) :
    Encodes bound (count + count') (decode ∘ decode') twice productions where
  old := by
    rw [← h.old, ← h'.old, List.filter_map, List.map_map, List.filter_filter]
    congr 1
    apply List.filter_congr
    intro q _
    by_cases small : q.head.index < bound
    · simp [small, Nat.lt_add_right count small]
    · simp [small]
  heads := by
    rw [consecutive_add, ← List.append_assoc]
    exact h'.heads.trans (h.heads.append_right _)

end Encodes

section Chain

variable {head : NonterminalId} {next : Nat} {body : Body} {q : Production}
  {σ : NonterminalId → Body}

/-- A symbol in a pair of a body is one of its own or stands second. -/
theorem place_of_mem_chain (hq : q ∈ chain head next body) {i : Nat} {s : Symbol}
    (found : q.body[i]? = some s) : s ∈ body ∨ i = 1 := by
  induction head, next, body using chain.induct with
  | case1 head next a b c rest ih =>
      rw [chain, List.mem_cons] at hq
      rcases hq with rfl | later
      · cases i with
        | zero => exact Or.inl (Option.some.inj found ▸ List.mem_cons_self)
        | succ i =>
            cases i with
            | zero => exact Or.inr rfl
            | succ i => cases found
      · exact (ih later).imp_left (List.mem_cons_of_mem _)
  | case2 head next body short =>
      rw [chain.eq_2 head next body short, List.mem_singleton] at hq
      exact Or.inl (List.mem_of_getElem? (hq ▸ found))

/-- The first pair of a body stands for it, and the others belong to links. -/
theorem exists_chain_eq_cons (head : NonterminalId)
    (links : ∀ i < body.length - 2, σ ⟨next + i⟩ = body.drop (i + 1))
    (fixed : ∀ n, .nonterminal n ∈ body → σ n = [.nonterminal n]) :
    ∃ first later, chain head next body = ⟨head, first⟩ :: later ∧ substitute σ first = body ∧
      ∀ q ∈ later, next ≤ q.head.index := by
  induction head, next, body using chain.induct with
  | case1 head next a b c rest _ =>
      rw [chain]
      refine ⟨_, _, rfl, ?_, ?_⟩
      · exact substitute_link (links 0 (by simp)) fun n hn => fixed n (hn ▸ List.mem_cons_self)
      · intro q hq
        rcases head_of_mem_chain hq with link | ⟨i, _, link⟩
        · exact link ▸ Nat.le_refl next
        · exact link ▸ Nat.le_add_right_of_le (Nat.le_succ next)
  | case2 head next body short =>
      rw [chain.eq_2 head next body short]
      exact ⟨body, [], rfl, substitute_eq_self fixed, by simp⟩

end Chain

section Binarize

variable {next : Nat} {productions : List Production} {σ : NonterminalId → Body}

theorem perm_heads_binarize (next : Nat) (productions : List Production) :
    ((binarize next productions).map Production.head).Perm
      (productions.map Production.head ++
        consecutive next (productions.map linkCount).sum) := by
  induction productions generalizing next with
  | nil => exact .refl _
  | cons p rest ih =>
      rw [binarize_cons, List.map_append, map_head_chain, List.map_cons, List.map_cons,
        List.sum_cons, consecutive_add, List.cons_append, List.cons_append]
      refine .cons _ (((ih (next + linkCount p)).append_left _).trans ?_)
      exact List.perm_append_comm_assoc ..

/-- The symbols of the pairs are those of the bodies and the links, each once. -/
theorem perm_symbols_binarize (next : Nat) (productions : List Production) :
    ((binarize next productions).flatMap Production.body).Perm
      (productions.flatMap Production.body ++
        (consecutive next (productions.map linkCount).sum).map Symbol.nonterminal) := by
  induction productions generalizing next with
  | nil => exact .refl _
  | cons p rest ih =>
      rw [binarize_cons, List.flatMap_append, List.flatMap_cons, List.map_cons, List.sum_cons,
        consecutive_add, List.map_append, List.append_assoc]
      have own := perm_symbols_chain p.head next p.body
      refine (own.append (ih (next + linkCount p))).trans ?_
      rw [List.append_assoc]
      exact (List.perm_append_comm_assoc ..).append_left _

/-- Unfolding the links gives the productions back, one by one. -/
theorem map_filter_binarize {bound : Nat} (le : bound ≤ next)
    (links : StandForSuffixes σ next productions)
    (fixed : ∀ p ∈ productions, ∀ n, .nonterminal n ∈ p.body → σ n = [.nonterminal n])
    (heads : ∀ p ∈ productions, p.head.index < bound) :
    ((binarize next productions).filter fun q => q.head.index < bound).map
      (fun q => (⟨q.head, substitute σ q.body⟩ : Production)) = productions := by
  induction productions generalizing next with
  | nil => rfl
  | cons p rest ih =>
      obtain ⟨first, later, split, whole, high⟩ :=
        exists_chain_eq_cons p.head links.first (fixed p List.mem_cons_self)
      have none : later.filter (fun q => q.head.index < bound) = [] := by
        apply List.filter_eq_nil_iff.mpr
        intro q hq
        simpa using le.trans (high q hq)
      have tail := ih (Nat.le_add_right_of_le le) links.rest
        (fun p hp => fixed p (List.mem_cons_of_mem _ hp))
        fun p hp => heads p (List.mem_cons_of_mem _ hp)
      have here := decide_eq_true (heads p List.mem_cons_self)
      rw [binarize_cons, split, List.filter_append, List.filter_cons, if_pos here, none,
        List.map_append, tail, List.map_singleton, whole]
      rfl

/-- Splitting bodies encodes productions, links being unfolded. -/
theorem encodes_binarize (below : ∀ p ∈ productions, p.Below next) :
    Encodes next (productions.map linkCount).sum
      (substitute (abbreviation next (linkBodies productions)))
      (binarize next productions) productions where
  old := map_filter_binarize (Nat.le_refl next) (standForSuffixes_abbreviation next productions)
    (fun p hp n hn => abbreviation_of_lt ((below p hp).body n hn)) fun p hp => (below p hp).head
  heads := perm_heads_binarize next productions

end Binarize

section Unpaired

variable {next : Nat} {productions : List Production}

theorem map_head_proxyRules (terminals : List TerminalId) (next : Nat) :
    (proxyRules terminals next).map Production.head = consecutive next terminals.length := by
  rw [proxyRules, proxies, List.map_map, List.map_map, ← map_zipIdx_eq_consecutive]
  rfl

/-- Isolating terminals encodes productions, proxies being unfolded. -/
theorem encodes_unpaired (below : ∀ p ∈ productions, p.Below next) :
    Encodes next (proxied productions).length
      (substitute (abbreviation next (proxyBodies (proxied productions))))
      (unpaired next productions) productions where
  old := by
    have none : (proxyRules (proxied productions) next).filter
        (fun q => q.head.index < next) = [] := by
      apply List.filter_eq_nil_iff.mpr
      intro q hq
      obtain ⟨i, t, _, rfl⟩ := mem_proxyRules.mp hq
      simp
    have all : (isolated (proxied productions) next productions).filter
        (fun q => q.head.index < next) = isolated (proxied productions) next productions := by
      apply List.filter_eq_self.mpr
      intro q hq
      obtain ⟨p, hp, rfl⟩ := mem_isolated.mp hq
      exact decide_eq_true (below p hp).head
    rw [unpaired, List.filter_append, none, all, List.nil_append, isolated, List.map_map]
    refine (List.map_congr_left fun p hp => ?_).trans (List.map_id productions)
    exact Production.ext rfl (substitute_isolate (nodup_distinct _) (below p hp).body)
  heads := by
    have own : (isolated (proxied productions) next productions).map Production.head =
        productions.map Production.head := by
      rw [isolated, List.map_map]
      rfl
    rw [unpaired, List.map_append, map_head_proxyRules, own]
    exact List.perm_append_comm

theorem sum_linkCount_unpaired :
    ((unpaired next productions).map linkCount).sum = (productions.map linkCount).sum := by
  rw [← length_linkBodies, length_linkBodies_unpaired]

/-- The symbols of the pairs are those of the isolated productions and the links, each once. -/
theorem perm_symbols_pairs :
    ((pairs next productions).flatMap Production.body).Perm
      ((unpaired next productions).flatMap Production.body ++
        (consecutive (next + (proxied productions).length)
          (productions.map linkCount).sum).map Symbol.nonterminal) := by
  rw [pairs_eq_binarize, ← sum_linkCount_unpaired]
  exact perm_symbols_binarize _ _

/-- The pairs encode the productions, links and proxies being unfolded. -/
theorem encodes_pairs (below : ∀ p ∈ productions, p.Below next) :
    Encodes next (freshCount productions) (unfold next productions) (pairs next productions)
      productions := by
  have split := encodes_binarize fun q hq => below_of_mem_unpaired below hq
  rw [sum_linkCount_unpaired, ← pairs_eq_binarize] at split
  exact (encodes_unpaired below).trans split

end Unpaired

end NormalForm

namespace Grammar

open NormalForm

variable {g : Grammar} {kinds : List FreshKind} {derivesEmpty : Bool} {n : NonterminalId}

theorem WellFormed.encodes_pairs (h : g.WellFormed) :
    Encodes g.nextNonterminal (freshCount g.productions) (unfold g.nextNonterminal g.productions)
      (pairs g.nextNonterminal g.productions) g.productions :=
  NormalForm.encodes_pairs h.below

/-- Grouping the pairs collapses none of them. -/
theorem WellFormed.perm_productions_withPairs (h : g.WellFormed) (kinds : List FreshKind) :
    (g.withPairs kinds).productions.Perm (pairs g.nextNonterminal g.productions) := by
  rw [productions, families_withPairs]
  exact perm_group (h.encodes_pairs.nodup h.grouped.nodup_productions)

/-- A new start symbol has one body for each of the old one, and the empty body. -/
theorem perm_productions_withEmptyStart {start : NonterminalId} (grouped : Grouped g.families)
    (unused : ¬ g.Occurs start) (nonempty : g.NoEmptyBody) :
    (g.withEmptyStart start).productions.Perm
      (g.productions ++ (g.bodiesOf g.start ++ [[]]).map (Production.mk start)) := by
  rw [productions, families_withEmptyStart]
  apply perm_group
  rw [List.nodup_append']
  refine ⟨grouped.nodup_productions, ?_, ?_⟩
  · apply List.Nodup.map fun _ _ same => (Production.mk.inj same).2
    rw [List.nodup_append']
    refine ⟨nodup_bodiesOf grouped g.start, List.nodup_singleton _, ?_⟩
    intro body own empty
    exact nonempty _ ((mem_bodiesOf grouped).mp own) (List.mem_singleton.mp empty)
  · intro p old new
    obtain ⟨body, _, rfl⟩ := List.mem_map.mp new
    exact unused ⟨_, old, Or.inl rfl⟩

theorem Proper.noEmptyBody_withPairs (h : g.Proper) : (g.withPairs kinds).NoEmptyBody :=
  fun _ hp => (binary_of_mem_pairs h.noEmptyBody h.noUnitBody (mem_productions_withPairs.mp hp)).ne_nil

/-- An old nonterminal has as many bodies as before. -/
theorem WellFormed.length_bodiesOf_withPairs (h : g.WellFormed) (old : n.index < g.nextNonterminal) :
    ((g.withPairs kinds).bodiesOf n).length = (g.bodiesOf n).length := by
  rw [length_bodiesOf grouped_withPairs, length_bodiesOf h.grouped,
    ((h.perm_productions_withPairs kinds).map _).count_eq]
  exact h.encodes_pairs.count_head_of_lt old

/-- All productions but those of the new start symbol are pairs. -/
theorem mem_productions_paired_iff {p : Production}
    (other : p.head.index < g.nextNonterminal + freshCount g.productions) :
    p ∈ (g.paired derivesEmpty).productions ↔ p ∈ pairs g.nextNonterminal g.productions := by
  cases derivesEmpty with
  | false => exact mem_productions_withPairs
  | true =>
      rw [paired_true, mem_productions_withEmptyStart grouped_withPairs, mem_productions_withPairs]
      apply or_iff_left
      rintro ⟨head, _⟩
      rw [head] at other
      exact Nat.lt_irrefl _ other

theorem grouped_paired : Grouped (g.paired derivesEmpty).families := by
  cases derivesEmpty with
  | false => exact grouped_withPairs
  | true =>
      rw [paired_true, families_withEmptyStart]
      exact grouped_group _

/-- A proxy or a link has one body. -/
theorem WellFormed.bodiesOf_paired_of_fresh (h : g.WellFormed) {body : Body}
    (fresh : Fresh g.nextNonterminal g.productions n)
    (rule : ⟨n, body⟩ ∈ pairs g.nextNonterminal g.productions) :
    (g.paired derivesEmpty).bodiesOf n = [body] := by
  apply List.perm_singleton.mp
  apply (List.perm_ext_iff_of_nodup (nodup_bodiesOf grouped_paired n)
    (List.nodup_singleton body)).mpr
  intro other
  rw [mem_bodiesOf grouped_paired, mem_productions_paired_iff fresh.2, List.mem_singleton]
  constructor
  · intro rule'
    have new : n ∈ consecutive g.nextNonterminal (freshCount g.productions) :=
      mem_consecutive.mpr fresh
    exact (Production.mk.inj (h.encodes_pairs.eq_of_head_eq new rule rule' rfl)).2
  · rintro rfl
    exact rule

/-- A proxy or a link has one production. -/
theorem WellFormed.filter_head_paired_of_fresh (h : g.WellFormed) {body : Body}
    (fresh : Fresh g.nextNonterminal g.productions n)
    (rule : ⟨n, body⟩ ∈ pairs g.nextNonterminal g.productions) :
    ((g.paired derivesEmpty).productions.filter fun p => p.head = n) = [⟨n, body⟩] := by
  have own := perm_filter_head (g := g.paired derivesEmpty) grouped_paired n
  rw [h.bodiesOf_paired_of_fresh fresh rule] at own
  exact List.perm_singleton.mp own

end Grammar

end ContextFree
