import ContextFree.Proofs.NormalForm.Isolation
import Mathlib.Algebra.Ring.Nat

/-!
# Splitting bodies into pairs

A link abbreviates a suffix of the body that it belongs to. Unfolding the links of a
pair gives the body, or the suffix, that the pair was split from, so a body over the
pairs derives what it derives after its links are unfolded.

## Implementation notes

The links of all bodies are numbered in a row. `linkBodies` lists the suffixes in the
same order, so the link with number `next + k` stands for the suffix at place `k`.
-/

namespace ContextFree.NormalForm

/-- Nonterminals with consecutive numbers. -/
def consecutive (next count : Nat) : List NonterminalId := (List.range' next count).map Id.mk

section Consecutive

variable {next count : Nat} {n : NonterminalId}

theorem mem_consecutive :
    n ∈ consecutive next count ↔ next ≤ n.index ∧ n.index < next + count := by
  rw [consecutive, List.mem_map]
  constructor
  · rintro ⟨i, hi, rfl⟩
    exact List.mem_range'_1.mp hi
  · intro h
    exact ⟨n.index, List.mem_range'_1.mpr h, rfl⟩

theorem nodup_consecutive (next count : Nat) : (consecutive next count).Nodup :=
  List.Nodup.map (fun _ _ same => Id.mk.inj same) List.nodup_range'

theorem exists_of_mem_consecutive (h : n ∈ consecutive next count) :
    ∃ i < count, n = ⟨next + i⟩ := by
  obtain ⟨lower, upper⟩ := mem_consecutive.mp h
  refine ⟨n.index - next, by omega, Id.ext ?_⟩
  exact (Nat.add_sub_of_le lower).symm

theorem consecutive_add (next m n : Nat) :
    consecutive next (m + n) = consecutive next m ++ consecutive (next + m) n := by
  rw [consecutive, ← List.range'_append_1, List.map_append]
  rfl

@[simp]
theorem length_consecutive : (consecutive next count).length = count := by
  rw [consecutive, List.length_map, List.length_range']

theorem map_zipIdx_eq_consecutive {α : Type} (as : List α) (next : Nat) :
    as.zipIdx.map (fun p => (⟨next + p.2⟩ : NonterminalId)) = consecutive next as.length := by
  rw [consecutive, List.range'_eq_map_range, List.range_eq_range', ← List.zipIdx_map_snd,
    List.map_map, List.map_map]
  rfl

end Consecutive

variable {next : Nat} {head : NonterminalId} {body : Body} {p q : Production}
  {productions : List Production} {σ : NonterminalId → Body} {P : Production → Prop}

/-- The suffixes that the links of a list of productions stand for. -/
def linkBodies (productions : List Production) : List Body :=
  productions.flatMap fun p => (List.range (linkCount p)).map fun i => p.body.drop (i + 1)

@[simp]
theorem linkBodies_cons (p : Production) (rest : List Production) :
    linkBodies (p :: rest) =
      (List.range (linkCount p)).map (fun i => p.body.drop (i + 1)) ++ linkBodies rest := rfl

theorem length_linkBodies : (linkBodies productions).length = (productions.map linkCount).sum := by
  simp [linkBodies, List.length_flatMap]

section Binarize

theorem binarize_eq_append (next : Nat) (done : Array Production) (productions : List Production) :
    (productions.foldl
      (fun (next, done) p => (next + linkCount p, chainOnto done p.head next p.body))
      (next, done)).2.toList = done.toList ++ binarize next productions := by
  induction productions generalizing next done with
  | nil => simp [binarize]
  | cons p rest ih =>
      rw [binarize, List.foldl_cons, List.foldl_cons, ih, ih, toList_chainOnto, toList_chainOnto]
      simp

/-- Splitting goes body by body. -/
theorem binarize_cons (next : Nat) (p : Production) (rest : List Production) :
    binarize next (p :: rest) =
      chain p.head next p.body ++ binarize (next + linkCount p) rest := by
  rw [binarize, List.foldl_cons, binarize_eq_append, toList_chainOnto]
  simp

end Binarize

section Chain

theorem length_le_two_of_ne (short : ∀ a b c rest, body ≠ a :: b :: c :: rest) :
    body.length ≤ 2 := by
  match body, short with
  | [], _ => simp
  | [_], _ => simp
  | [_, _], _ => simp
  | a :: b :: c :: rest, short => exact absurd rfl (short a b c rest)

/-- A body of at most two symbols is not split. -/
theorem chain_of_length_le (short : body.length ≤ 2) : chain head next body = [⟨head, body⟩] := by
  apply chain.eq_2
  rintro a b c rest rfl
  simp at short

/-- The first symbol of a body of three or more is split off. -/
theorem chain_cons {rest : Body} (long : 2 ≤ rest.length) (a : Symbol) :
    chain head next (a :: rest) =
      ⟨head, [a, .nonterminal ⟨next⟩]⟩ :: chain ⟨next⟩ (next + 1) rest := by
  match rest, long with
  | b :: c :: rest, _ => rfl

/-- A pair of a symbol and a link stands for the symbol and what the link stands for. -/
theorem substitute_link {a : Symbol} {rest : Body} (link : σ ⟨next⟩ = rest)
    (fixed : ∀ n, a = .nonterminal n → σ n = [.nonterminal n]) :
    substitute σ [a, .nonterminal ⟨next⟩] = a :: rest := by
  have self : substitute σ [a] = [a] :=
    substitute_eq_self fun n hn => fixed n (List.mem_singleton.mp hn).symm
  calc
    substitute σ [a, .nonterminal ⟨next⟩] = substitute σ [a] ++ (σ ⟨next⟩ ++ []) :=
      substitute_append [a] [.nonterminal ⟨next⟩]
    _ = a :: rest := by rw [self, link, List.append_nil, List.singleton_append]

/-- If the links stand for the suffixes of a body, each pair stands for the body itself
or unfolds a link. -/
theorem unfolds_of_mem_chain
    (links : ∀ i < body.length - 2, σ ⟨next + i⟩ = body.drop (i + 1))
    (fixed : ∀ n, .nonterminal n ∈ body → σ n = [.nonterminal n])
    (hq : q ∈ chain head next body) :
    (q.head = head ∧ substitute σ q.body = body) ∨ σ q.head = substitute σ q.body := by
  induction head, next, body using chain.induct with
  | case1 head next a b c rest ih =>
      rw [chain, List.mem_cons] at hq
      have first : σ ⟨next⟩ = b :: c :: rest := links 0 (by simp)
      have later : ∀ i < (b :: c :: rest).length - 2,
          σ ⟨next + 1 + i⟩ = (b :: c :: rest).drop (i + 1) := by
        intro i hi
        rw [Nat.add_right_comm, Nat.add_assoc]
        exact links (i + 1) (by simp at hi ⊢; omega)
      have tail := ih later fun n hn => fixed n (List.mem_cons_of_mem _ hn)
      rcases hq with rfl | hq
      · exact Or.inl ⟨rfl, substitute_link first fun n hn => fixed n (hn ▸ List.mem_cons_self)⟩
      · rcases tail hq with ⟨link, whole⟩ | unfolds
        · exact Or.inr (by rw [link, first, whole])
        · exact Or.inr unfolds
  | case2 head next body short =>
      rw [chain.eq_2 head next body short, List.mem_singleton] at hq
      subst hq
      exact Or.inl ⟨rfl, substitute_eq_self fixed⟩

/-- The pairs of a link are among the pairs of its body. -/
theorem chain_drop_subset {i : Nat} (hi : i < body.length - 2) :
    chain ⟨next + i⟩ (next + i + 1) (body.drop (i + 1)) ⊆ chain head next body := by
  induction head, next, body using chain.induct generalizing i with
  | case1 head next a b c rest ih =>
      rw [chain]
      apply List.subset_cons_of_subset
      cases i with
      | zero => exact List.Subset.refl _
      | succ i =>
          have inner := ih (i := i) (by simp at hi ⊢; omega)
          rwa [Nat.add_right_comm next 1 i, Nat.add_assoc next i 1] at inner
  | case2 head next body short =>
      have small := length_le_two_of_ne short
      omega

/-- A head derives what its body derives, if all pairs of the body are at hand. -/
theorem fold_chain (rules : ∀ q ∈ chain head next body, P q) {w : Word} (h : Yields P body w) :
    Yields P [.nonterminal head] w := by
  induction head, next, body using chain.induct generalizing w with
  | case1 head next a b c rest ih =>
      rw [chain] at rules
      obtain ⟨u, v, rfl, hu, hv⟩ := Yields.cons_iff.mp h
      have link := ih (fun q hq => rules q (List.mem_cons_of_mem _ hq)) hv
      apply Yields.singleton_iff.mpr
      exact ⟨_, rules _ List.mem_cons_self, Yields.cons_iff.mpr ⟨u, v, rfl, hu, link⟩⟩
  | case2 head next body short =>
      rw [chain.eq_2 head next body short] at rules
      exact Yields.singleton_iff.mpr ⟨body, rules _ List.mem_cons_self, h⟩

/-- The heads of the pairs of a body are its head and its links, each once. -/
theorem map_head_chain (head : NonterminalId) (next : Nat) (body : Body) :
    (chain head next body).map Production.head =
      head :: consecutive next (body.length - 2) := by
  induction head, next, body using chain.induct with
  | case1 head next a b c rest ih => rw [chain, List.map_cons, ih]; rfl
  | case2 head next body short =>
      rw [chain.eq_2 head next body short, Nat.sub_eq_zero_of_le (length_le_two_of_ne short)]
      rfl

/-- The symbols of the pairs of a body are its own symbols and its links, each once. -/
theorem perm_symbols_chain (head : NonterminalId) (next : Nat) (body : Body) :
    ((chain head next body).flatMap Production.body).Perm
      (body ++ (consecutive next (body.length - 2)).map Symbol.nonterminal) := by
  induction head, next, body using chain.induct with
  | case1 head next a b c rest ih =>
      rw [chain, List.flatMap_cons]
      refine (ih.append_left _).trans ?_
      change (a :: .nonterminal ⟨next⟩ :: ((b :: c :: rest) ++ _)).Perm _
      exact (List.perm_middle.symm).cons a
  | case2 head next body short =>
      rw [chain.eq_2 head next body short, Nat.sub_eq_zero_of_le (length_le_two_of_ne short)]
      simp [consecutive]

/-- The heads of the pairs of a body are its head and its links. -/
theorem head_of_mem_chain (hq : q ∈ chain head next body) :
    q.head = head ∨ ∃ i < body.length - 2, q.head = ⟨next + i⟩ := by
  have member := List.mem_map_of_mem (f := Production.head) hq
  rw [map_head_chain, List.mem_cons] at member
  exact member.imp_right exists_of_mem_consecutive

/-- The symbols in the pairs of a body are its own symbols and its links. -/
theorem symbol_of_mem_chain (hq : q ∈ chain head next body) {s : Symbol} (hs : s ∈ q.body) :
    s ∈ body ∨ ∃ i < body.length - 2, s = .nonterminal ⟨next + i⟩ := by
  have member := (perm_symbols_chain head next body).mem_iff.mp (List.mem_flatMap.mpr ⟨q, hq, hs⟩)
  rw [List.mem_append, List.mem_map] at member
  apply member.imp_right
  rintro ⟨link, place, rfl⟩
  obtain ⟨i, hi, rfl⟩ := exists_of_mem_consecutive place
  exact ⟨i, hi, rfl⟩

/-- Bodies are split into pairs. -/
theorem length_of_mem_chain (hq : q ∈ chain head next body) :
    q.body.length = min body.length 2 := by
  induction head, next, body using chain.induct with
  | case1 head next a b c rest ih =>
      rw [chain, List.mem_cons] at hq
      rcases hq with rfl | hq
      · simp
      · rw [ih hq]
        simp
  | case2 head next body short =>
      rw [chain.eq_2 head next body short, List.mem_singleton] at hq
      rw [hq, Nat.min_eq_left (length_le_two_of_ne short)]

end Chain

/-- A suffix in the list is a suffix of the first body or one of a later body. -/
theorem getElem?_linkBodies_cons {p : Production} {rest : List Production} {k : Nat} :
    (linkBodies (p :: rest))[k]? =
      if k < linkCount p then some (p.body.drop (k + 1)) else (linkBodies rest)[k - linkCount p]? := by
  rw [linkBodies_cons, List.getElem?_append]
  simp only [List.length_map, List.length_range]
  split
  next inside => simp [inside]
  next => rfl

/-- Each pair comes from one of the bodies, with links out of the row of all links. -/
theorem exists_chain_of_mem_binarize (hq : q ∈ binarize next productions) :
    ∃ p ∈ productions, ∃ first, next ≤ first ∧
      first + linkCount p ≤ next + (linkBodies productions).length ∧
      q ∈ chain p.head first p.body := by
  induction productions generalizing next with
  | nil => exact absurd hq List.not_mem_nil
  | cons p rest ih =>
      rw [binarize_cons, List.mem_append] at hq
      rw [linkBodies_cons, List.length_append, List.length_map, List.length_range]
      rcases hq with own | later
      · exact ⟨p, List.mem_cons_self, next, Nat.le_refl _, by omega, own⟩
      · obtain ⟨p', hp', first, lower, upper, hq⟩ := ih later
        exact ⟨p', List.mem_cons_of_mem _ hp', first, by omega, by omega, hq⟩

/-- The pairs of every body are there. -/
theorem exists_chain_subset_binarize (hp : p ∈ productions) (next : Nat) :
    ∃ first, chain p.head first p.body ⊆ binarize next productions := by
  induction productions generalizing next with
  | nil => exact absurd hp List.not_mem_nil
  | cons p' rest ih =>
      rw [binarize_cons]
      rcases List.mem_cons.mp hp with rfl | hp
      · exact ⟨next, List.subset_append_left _ _⟩
      · obtain ⟨first, sub⟩ := ih hp (next + linkCount p')
        exact ⟨first, List.subset_append_of_subset_right _ sub⟩

/-- Every link belongs to the chain of a body, and stands for the suffix that its place in
the chain tells. -/
theorem exists_chain_of_lt_length_linkBodies {k : Nat} (inside : k < (linkBodies productions).length)
    (next : Nat) :
    ∃ p ∈ productions, ∃ first i, next ≤ first ∧ i < linkCount p ∧ next + k = first + i ∧
      (linkBodies productions)[k]? = some (p.body.drop (i + 1)) ∧
      chain p.head first p.body ⊆ binarize next productions := by
  induction productions generalizing next k with
  | nil => exact absurd inside (Nat.not_lt_zero k)
  | cons p rest ih =>
      rw [getElem?_linkBodies_cons, binarize_cons]
      by_cases own : k < linkCount p
      · rw [if_pos own]
        refine ⟨p, List.mem_cons_self, next, k, Nat.le_refl _, own, rfl, rfl, ?_⟩
        exact List.subset_append_left _ _
      · rw [linkBodies_cons, List.length_append, List.length_map, List.length_range] at inside
        have later : k - linkCount p < (linkBodies rest).length := by omega
        obtain ⟨q, hq, first, i, lower, place, number, suffix, pairs⟩ :=
          ih later (next + linkCount p)
        rw [if_neg own]
        refine ⟨q, List.mem_cons_of_mem _ hq, first, i, by omega, place, by omega, suffix, ?_⟩
        exact List.subset_append_of_subset_right _ pairs

/-- The pairs of every link are there. -/
theorem chain_subset_binarize_of_getElem? {k : Nat}
    (found : (linkBodies productions)[k]? = some body) (next : Nat) :
    chain ⟨next + k⟩ (next + k + 1) body ⊆ binarize next productions := by
  obtain ⟨inside, _⟩ := List.getElem?_eq_some_iff.mp found
  obtain ⟨p, _, first, i, _, place, number, suffix, pairs⟩ :=
    exists_chain_of_lt_length_linkBodies inside next
  obtain rfl := Option.some.inj (found.symm.trans suffix)
  rw [number]
  exact List.Subset.trans (chain_drop_subset place) pairs

/-- The nonterminals from `next` on stand for the suffixes that split the bodies. -/
def StandForSuffixes (σ : NonterminalId → Body) (next : Nat) (productions : List Production) :
    Prop :=
  ∀ k body, (linkBodies productions)[k]? = some body → σ ⟨next + k⟩ = body

theorem StandForSuffixes.first {rest : List Production}
    (h : StandForSuffixes σ next (p :: rest)) :
    ∀ i < p.body.length - 2, σ ⟨next + i⟩ = p.body.drop (i + 1) := by
  intro i hi
  apply h
  rw [getElem?_linkBodies_cons]
  exact if_pos hi

theorem StandForSuffixes.rest {rest : List Production}
    (h : StandForSuffixes σ next (p :: rest)) : StandForSuffixes σ (next + linkCount p) rest := by
  intro k body found
  rw [Nat.add_assoc]
  apply h
  rw [getElem?_linkBodies_cons, if_neg (by omega), Nat.add_sub_cancel_left]
  exact found

theorem standForSuffixes_abbreviation (next : Nat) (productions : List Production) :
    StandForSuffixes (abbreviation next (linkBodies productions)) next productions :=
  fun _ _ found => abbreviation_of_getElem? found

/-- If the links stand for their suffixes, each pair stands for a body or unfolds a link. -/
theorem unfolds_of_mem_binarize (links : StandForSuffixes σ next productions)
    (fixed : ∀ p ∈ productions, ∀ n, .nonterminal n ∈ p.body → σ n = [.nonterminal n])
    (hq : q ∈ binarize next productions) :
    (∃ p ∈ productions, q.head = p.head ∧ substitute σ q.body = p.body) ∨
      σ q.head = substitute σ q.body := by
  induction productions generalizing next with
  | nil => exact absurd hq List.not_mem_nil
  | cons p rest ih =>
      rw [binarize_cons, List.mem_append] at hq
      rcases hq with own | later
      · have split := unfolds_of_mem_chain links.first (fixed p List.mem_cons_self) own
        rcases split with whole | unfolds
        · exact Or.inl ⟨p, List.mem_cons_self, whole⟩
        · exact Or.inr unfolds
      · have tail := ih links.rest (fun p hp => fixed p (List.mem_cons_of_mem _ hp)) later
        rcases tail with ⟨p', hp', whole⟩ | unfolds
        · exact Or.inl ⟨p', List.mem_cons_of_mem _ hp', whole⟩
        · exact Or.inr unfolds

/-- Bodies over the pairs derive what they derive with links unfolded. -/
theorem yields_binarize_iff (below : ∀ p ∈ productions, p.Below next) {b : Body} {w : Word} :
    Yields (· ∈ binarize next productions) b w ↔
      Yields (· ∈ productions) (substitute (abbreviation next (linkBodies productions)) b) w := by
  have links := standForSuffixes_abbreviation next productions
  have fixed : ∀ p ∈ productions, ∀ n, .nonterminal n ∈ p.body →
      abbreviation next (linkBodies productions) n = [.nonterminal n] :=
    fun p hp n hn => abbreviation_of_lt ((below p hp).body n hn)
  apply Yields.abbreviates_iff
  · intro q hq
    rcases unfolds_of_mem_binarize links fixed hq with ⟨p, hp, head, whole⟩ | unfolds
    · refine Or.inr ⟨?_, ?_⟩
      · rw [head]
        exact abbreviation_of_lt (below p hp).head
      · rw [head, whole]
        exact hp
    · exact Or.inl unfolds
  · intro n body w rule hw
    obtain ⟨first, sub⟩ := exists_chain_subset_binarize rule next
    exact fold_chain (fun q hq => sub hq) hw
  · intro n w hw
    rcases abbreviation_cases next (linkBodies productions) n with self | ⟨k, body, found, rfl⟩
    · rwa [self] at hw
    · rw [abbreviation_of_getElem? found] at hw
      exact fold_chain (fun q hq => chain_subset_binarize_of_getElem? found next hq) hw

end ContextFree.NormalForm
