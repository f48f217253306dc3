import ContextFree.Proofs.Derivation
import ContextFree.Stage.NormalForm
import Mathlib.Data.List.Nodup

/-!
# Isolating terminals

A proxy abbreviates the one-letter body of its terminal. Unfolding the proxies of an
isolated body gives the body back, so a body over the isolated productions derives
what it derives after its proxies are unfolded.
-/

namespace ContextFree

/-- All nonterminals of a production have numbers below a bound. -/
structure Production.Below (bound : Nat) (p : Production) : Prop where
  head : p.head.index < bound
  body : ∀ n, .nonterminal n ∈ p.body → n.index < bound

namespace NormalForm

variable {terminals : List TerminalId} {next : Nat} {productions : List Production}
  {t : TerminalId} {n : NonterminalId}

/-- The bodies that the proxies of terminals stand for. -/
def proxyBodies (terminals : List TerminalId) : List Body := terminals.map fun t => [.terminal t]

theorem mem_proxies :
    (t, n) ∈ proxies terminals next ↔ ∃ i, terminals[i]? = some t ∧ n = ⟨next + i⟩ := by
  simp only [proxies, List.mem_map, Prod.exists, List.mem_zipIdx_iff_getElem?, Prod.mk.injEq]
  constructor
  · rintro ⟨_, i, ht, rfl, rfl⟩
    exact ⟨i, ht, rfl⟩
  · rintro ⟨i, ht, rfl⟩
    exact ⟨t, i, ht, rfl, rfl⟩

theorem map_fst_proxies : (proxies terminals next).map Prod.fst = terminals := by
  rw [proxies, List.map_map]
  exact List.zipIdx_map_fst 0 terminals

theorem getElem?_proxyTable (nodup : terminals.Nodup) :
    (proxyTable terminals next)[t]? = some n ↔ ∃ i, terminals[i]? = some t ∧ n = ⟨next + i⟩ := by
  rw [← mem_proxies]
  apply getElem?_foldr_insert
  rw [map_fst_proxies]
  exact nodup

theorem mem_proxyRules {q : Production} :
    q ∈ proxyRules terminals next ↔
      ∃ i t, terminals[i]? = some t ∧ q = ⟨⟨next + i⟩, [.terminal t]⟩ := by
  rw [proxyRules, List.mem_map]
  constructor
  · rintro ⟨⟨t, n⟩, h, rfl⟩
    obtain ⟨i, ht, rfl⟩ := mem_proxies.mp h
    exact ⟨i, t, ht, rfl⟩
  · rintro ⟨i, t, ht, rfl⟩
    exact ⟨(t, ⟨next + i⟩), mem_proxies.mpr ⟨i, ht, rfl⟩, rfl⟩

theorem mem_isolated {q : Production} :
    q ∈ isolated terminals next productions ↔
      ∃ p ∈ productions, q = ⟨p.head, isolate (proxyTable terminals next) p.body⟩ := by
  rw [isolated, List.mem_map]
  exact exists_congr fun p => and_congr_right fun _ => eq_comm

theorem getElem?_proxyBodies {i : Nat} (h : terminals[i]? = some t) :
    (proxyBodies terminals)[i]? = some [.terminal t] := by
  rw [proxyBodies, List.getElem?_map, h]
  rfl

/-- A terminal with a proxy becomes a nonterminal that stands for it. -/
theorem isolateSymbol_terminal (nodup : terminals.Nodup) (next : Nat) (t : TerminalId) :
    (isolateSymbol (proxyTable terminals next) (.terminal t) = .terminal t ∧ t ∉ terminals) ∨
      ∃ i, terminals[i]? = some t ∧
        isolateSymbol (proxyTable terminals next) (.terminal t) = .nonterminal ⟨next + i⟩ := by
  simp only [isolateSymbol]
  cases found : (proxyTable terminals next)[t]? with
  | none =>
      refine Or.inl ⟨rfl, fun member => ?_⟩
      obtain ⟨i, hi⟩ := List.mem_iff_getElem?.mp member
      have proxy := (getElem?_proxyTable nodup).mpr ⟨i, hi, Eq.refl (⟨next + i⟩ : NonterminalId)⟩
      rw [found] at proxy
      cases proxy
  | some n =>
      obtain ⟨i, ht, rfl⟩ := (getElem?_proxyTable nodup).mp found
      exact Or.inr ⟨i, ht, rfl⟩

/-- Unfolding the proxies undoes the isolation. -/
theorem substitute_map_isolateSymbol (nodup : terminals.Nodup) {body : Body}
    (below : ∀ n, .nonterminal n ∈ body → n.index < next) :
    substitute (abbreviation next (proxyBodies terminals))
      (body.map (isolateSymbol (proxyTable terminals next))) = body := by
  induction body with
  | nil => rfl
  | cons s rest ih =>
      have tail := ih fun n hn => below n (List.mem_cons_of_mem _ hn)
      rw [List.map_cons]
      cases s with
      | terminal t =>
          obtain ⟨same, _⟩ | ⟨i, hi, proxy⟩ := isolateSymbol_terminal nodup next t
          · rw [same, substitute_terminal, tail]
          · rw [proxy, substitute_nonterminal, tail,
              abbreviation_of_getElem? (getElem?_proxyBodies hi)]
            rfl
      | nonterminal n =>
          rw [isolateSymbol, substitute_nonterminal, tail,
            abbreviation_of_lt (below n List.mem_cons_self)]
          rfl

theorem substitute_isolate (nodup : terminals.Nodup) {body : Body}
    (below : ∀ n, .nonterminal n ∈ body → n.index < next) :
    substitute (abbreviation next (proxyBodies terminals))
      (isolate (proxyTable terminals next) body) = body := by
  unfold isolate
  split
  · exact substitute_eq_self fun n hn => abbreviation_of_lt (below n hn)
  · exact substitute_map_isolateSymbol nodup below

@[simp]
theorem length_isolate {table : Std.TreeMap TerminalId NonterminalId} {body : Body} :
    (isolate table body).length = body.length := by
  unfold isolate
  split
  · rfl
  · exact List.length_map _

/-- The symbols of an isolated body are its own symbols and proxies. -/
theorem mem_isolate (nodup : terminals.Nodup) {body : Body} {s : Symbol}
    (hs : s ∈ isolate (proxyTable terminals next) body) :
    s ∈ body ∨ ∃ i < terminals.length, s = .nonterminal ⟨next + i⟩ := by
  unfold isolate at hs
  split at hs
  · exact Or.inl hs
  · obtain ⟨x, hx, rfl⟩ := List.mem_map.mp hs
    cases x with
    | terminal t =>
        obtain ⟨same, _⟩ | ⟨i, hi, proxy⟩ := isolateSymbol_terminal nodup next t
        · exact Or.inl (same.symm ▸ hx)
        · obtain ⟨inside, _⟩ := List.getElem?_eq_some_iff.mp hi
          exact Or.inr ⟨i, inside, proxy⟩
    | nonterminal n => exact Or.inl hx

theorem mem_proxied :
    t ∈ proxied productions ↔ ∃ p ∈ productions, 2 ≤ p.body.length ∧ .terminal t ∈ p.body := by
  rw [proxied, mem_distinct, List.mem_flatMap]
  refine exists_congr fun p => ?_
  rw [List.mem_filter, decide_eq_true_eq, and_assoc, List.mem_filterMap]
  refine and_congr_right fun _ => and_congr_right fun _ => ?_
  constructor
  · rintro ⟨s, hs, found⟩
    cases s with
    | terminal u => exact Option.some.inj found ▸ hs
    | nonterminal n => cases found
  · intro ht
    exact ⟨_, ht, rfl⟩

/-- With all proxies at hand, a body of two or more symbols becomes a body of nonterminals. -/
theorem mem_isolate_of_two_le {p : Production} (hp : p ∈ productions)
    (long : 2 ≤ p.body.length) {s : Symbol}
    (hs : s ∈ isolate (proxyTable (proxied productions) next) p.body) :
    ∃ n, s = .nonterminal n := by
  rw [isolate, if_neg (Nat.not_lt.mpr long)] at hs
  obtain ⟨x, hx, rfl⟩ := List.mem_map.mp hs
  cases x with
  | terminal t =>
      obtain ⟨_, absent⟩ | ⟨i, _, proxy⟩ := isolateSymbol_terminal (nodup_distinct _) next t
      · exact absurd (mem_proxied.mpr ⟨p, hp, long, hx⟩) absent
      · exact ⟨_, proxy⟩
  | nonterminal n => exact ⟨n, rfl⟩

/-- A proxy derives what it stands for. -/
theorem fold_proxy {Q : Production → Prop} (rules : ∀ q ∈ proxyRules terminals next, Q q)
    {n : NonterminalId} {w : Word}
    (h : Yields Q (abbreviation next (proxyBodies terminals) n) w) :
    Yields Q [.nonterminal n] w := by
  rcases abbreviation_cases next (proxyBodies terminals) n with self | ⟨k, body, found, rfl⟩
  · rwa [self] at h
  · rw [abbreviation_of_getElem? found] at h
    rw [proxyBodies, List.getElem?_map, Option.map_eq_some_iff] at found
    obtain ⟨t, ht, rfl⟩ := found
    exact Yields.singleton_iff.mpr ⟨_, rules _ (mem_proxyRules.mpr ⟨k, t, ht, rfl⟩), h⟩

/-- Bodies over the isolated productions derive what they derive with proxies unfolded. -/
theorem yields_isolated_iff (nodup : terminals.Nodup)
    (below : ∀ p ∈ productions, p.Below next) {b : Body} {w : Word} :
    Yields (· ∈ proxyRules terminals next ++ isolated terminals next productions) b w ↔
      Yields (· ∈ productions) (substitute (abbreviation next (proxyBodies terminals)) b) w := by
  have folds := fun n w => fold_proxy (n := n) (w := w)
    (Q := (· ∈ proxyRules terminals next ++ isolated terminals next productions))
    fun q hq => List.mem_append_left _ hq
  apply Yields.abbreviates_iff
  · intro q hq
    rcases List.mem_append.mp hq with proxy | own
    · obtain ⟨i, t, ht, rfl⟩ := mem_proxyRules.mp proxy
      exact Or.inl (abbreviation_of_getElem? (getElem?_proxyBodies ht))
    · obtain ⟨p, hp, rfl⟩ := mem_isolated.mp own
      refine Or.inr ⟨abbreviation_of_lt (below p hp).head, ?_⟩
      rw [substitute_isolate nodup (below p hp).body]
      exact hp
  · intro n body w rule hw
    apply Yields.singleton_iff.mpr
    refine ⟨_, List.mem_append_right _ (mem_isolated.mpr ⟨_, rule, rfl⟩), ?_⟩
    apply Yields.collapse _ folds
    rwa [substitute_isolate nodup (below _ rule).body]
  · exact folds

end NormalForm

end ContextFree
