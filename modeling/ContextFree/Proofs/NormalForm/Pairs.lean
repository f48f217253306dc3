import ContextFree.Proofs.NormalForm.Chain

/-!
# The pairs of a list of productions

The pairs arise by isolating terminals and splitting the isolated bodies, so a body over
the pairs derives what it derives with links and proxies unfolded. In particular, old
bodies derive the same words. If there are no empty bodies and no unit productions, all
bodies of the pairs are single terminals or pairs of nonterminals.

## Implementation notes

`freshCount` is the number of proxies and links. They have the numbers from `next` on,
the proxies first.
-/

namespace ContextFree.NormalForm

variable {next : Nat} {productions : List Production} {q : Production}

/-- How many proxies and links a list of productions needs. -/
def freshCount (productions : List Production) : Nat :=
  (proxied productions).length + (productions.map linkCount).sum

theorem foldl_linkCount :
    productions.foldl (fun n p => n + linkCount p) 0 = (productions.map linkCount).sum := by
  rw [List.sum_eq_foldl, List.foldl_map]

theorem freshKinds_false (productions : List Production) :
    freshKinds productions false =
      List.replicate (proxied productions).length .terminalProxy ++
        List.replicate (productions.map linkCount).sum .chain := by
  rw [freshKinds, foldl_linkCount, if_neg Bool.false_ne_true, List.append_nil]

/-- A new start symbol comes last. -/
theorem freshKinds_true (productions : List Production) :
    freshKinds productions true = freshKinds productions false ++ [.start] := by
  simp [freshKinds]

theorem length_freshKinds (derivesEmpty : Bool) :
    (freshKinds productions derivesEmpty).length =
      freshCount productions + if derivesEmpty then 1 else 0 := by
  rw [freshKinds, foldl_linkCount, freshCount]
  cases derivesEmpty with
  | false => simp
  | true => simp [Nat.add_assoc]

section Pairs

/-- The productions after isolation, those of the proxies included. -/
def unpaired (next : Nat) (productions : List Production) : List Production :=
  proxyRules (proxied productions) next ++ isolated (proxied productions) next productions

theorem binarize_append_of_short {short rest : List Production}
    (h : ∀ p ∈ short, p.body.length ≤ 2) (next : Nat) :
    binarize next (short ++ rest) = short ++ binarize next rest := by
  induction short with
  | nil => rfl
  | cons p short ih =>
      have here := h p List.mem_cons_self
      have none : linkCount p = 0 := Nat.sub_eq_zero_of_le here
      rw [List.cons_append, binarize_cons, chain_of_length_le here, none, Nat.add_zero,
        ih fun p hp => h p (List.mem_cons_of_mem _ hp)]
      rfl

theorem pairs_eq_binarize :
    pairs next productions =
      binarize (next + (proxied productions).length) (unpaired next productions) := by
  rw [unpaired, binarize_append_of_short]
  · rfl
  · intro p hp
    obtain ⟨i, t, _, rfl⟩ := mem_proxyRules.mp hp
    simp

/-- Isolation does not change how many links a body needs. -/
theorem map_linkCount_isolated (terminals : List TerminalId) (next : Nat)
    (productions : List Production) :
    (isolated terminals next productions).map linkCount = productions.map linkCount := by
  rw [isolated, List.map_map]
  apply List.map_congr_left
  intro p _
  change (isolate _ p.body).length - 2 = p.body.length - 2
  rw [length_isolate]

theorem length_linkBodies_unpaired :
    (linkBodies (unpaired next productions)).length = (productions.map linkCount).sum := by
  have proxies : (proxyRules (proxied productions) next).map linkCount =
      (proxyRules (proxied productions) next).map fun _ => 0 := by
    apply List.map_congr_left
    intro p hp
    obtain ⟨i, t, _, rfl⟩ := mem_proxyRules.mp hp
    rfl
  rw [length_linkBodies, unpaired, List.map_append, proxies, map_linkCount_isolated,
    List.sum_append]
  simp

theorem below_of_mem_unpaired (below : ∀ p ∈ productions, p.Below next)
    (hq : q ∈ unpaired next productions) : q.Below (next + (proxied productions).length) := by
  cases List.mem_append.mp hq with
  | inl proxy =>
      obtain ⟨i, t, ht, rfl⟩ := mem_proxyRules.mp proxy
      obtain ⟨inside, _⟩ := List.getElem?_eq_some_iff.mp ht
      refine ⟨Nat.add_lt_add_left inside next, ?_⟩
      intro n hn
      cases List.mem_singleton.mp hn
  | inr own =>
      obtain ⟨p, hp, rfl⟩ := mem_isolated.mp own
      refine ⟨Nat.lt_add_right _ (below p hp).head, ?_⟩
      intro n hn
      cases mem_isolate (nodup_distinct _) hn with
      | inl old => exact Nat.lt_add_right _ ((below p hp).body n old)
      | inr proxy =>
          obtain ⟨i, inside, same⟩ := proxy
          cases same
          exact Nat.add_lt_add_left inside next

/-- What the symbols of the pairs stand for over the old productions. -/
def unfold (next : Nat) (productions : List Production) (body : Body) : Body :=
  substitute (abbreviation next (proxyBodies (proxied productions)))
    (substitute (abbreviation (next + (proxied productions).length)
      (linkBodies (unpaired next productions))) body)

/-- The numbers of proxies and links. -/
def Fresh (next : Nat) (productions : List Production) (n : NonterminalId) : Prop :=
  next ≤ n.index ∧ n.index < next + freshCount productions

instance : DecidablePred (Fresh next productions) := fun _ => inferInstanceAs (Decidable (_ ∧ _))

theorem fresh_proxy {i : Nat} (h : i < (proxied productions).length) :
    Fresh next productions ⟨next + i⟩ :=
  ⟨Nat.le_add_right next i, by change next + i < _; unfold freshCount; omega⟩

theorem fresh_link {k : Nat} (h : k < (productions.map linkCount).sum) :
    Fresh next productions ⟨next + (proxied productions).length + k⟩ := by
  unfold Fresh freshCount
  constructor
  · change next ≤ next + (proxied productions).length + k
    omega
  · change next + (proxied productions).length + k < _
    omega

/-- A body without proxies and links stands for itself. -/
theorem unfold_eq_self {body : Body}
    (old : ∀ n, .nonterminal n ∈ body → ¬ Fresh next productions n) :
    unfold next productions body = body := by
  have links : substitute (abbreviation (next + (proxied productions).length)
      (linkBodies (unpaired next productions))) body = body := by
    apply substitute_eq_self
    intro n hn
    rcases abbreviation_cases (next + (proxied productions).length)
      (linkBodies (unpaired next productions)) n with self | ⟨k, suffix, found, rfl⟩
    · exact self
    · obtain ⟨inside, _⟩ := List.getElem?_eq_some_iff.mp found
      rw [length_linkBodies_unpaired] at inside
      exact absurd (fresh_link inside) (old _ hn)
  have proxies : substitute (abbreviation next (proxyBodies (proxied productions))) body = body := by
    apply substitute_eq_self
    intro n hn
    rcases abbreviation_cases next (proxyBodies (proxied productions)) n
      with self | ⟨i, letter, found, rfl⟩
    · exact self
    · obtain ⟨inside, _⟩ := List.getElem?_eq_some_iff.mp found
      rw [proxyBodies, List.length_map] at inside
      exact absurd (fresh_proxy inside) (old _ hn)
  rw [unfold, links, proxies]

/-- Bodies over the pairs derive what they derive with links and proxies unfolded. -/
theorem yields_pairs_iff (below : ∀ p ∈ productions, p.Below next) {b : Body} {w : Word} :
    Yields (· ∈ pairs next productions) b w ↔
      Yields (· ∈ productions) (unfold next productions b) w := by
  rw [pairs_eq_binarize, yields_binarize_iff fun q hq => below_of_mem_unpaired below hq]
  exact yields_isolated_iff (nodup_distinct _) below

/-- Old bodies derive the same words. -/
theorem yields_pairs_iff_of_lt (below : ∀ p ∈ productions, p.Below next) {b : Body} {w : Word}
    (old : ∀ n, .nonterminal n ∈ b → n.index < next) :
    Yields (· ∈ pairs next productions) b w ↔ Yields (· ∈ productions) b w := by
  have same : unfold next productions b = b :=
    unfold_eq_self fun n hn fresh => Nat.not_lt.mpr fresh.1 (old n hn)
  rw [yields_pairs_iff below, same]

theorem head_of_mem_unpaired (hq : q ∈ unpaired next productions) :
    (∃ p ∈ productions, q.head = p.head) ∨ Fresh next productions q.head := by
  cases List.mem_append.mp hq with
  | inl proxy =>
      obtain ⟨i, t, ht, rfl⟩ := mem_proxyRules.mp proxy
      obtain ⟨inside, _⟩ := List.getElem?_eq_some_iff.mp ht
      exact Or.inr (fresh_proxy inside)
  | inr own =>
      obtain ⟨p, hp, rfl⟩ := mem_isolated.mp own
      exact Or.inl ⟨p, hp, rfl⟩

theorem symbol_of_mem_unpaired (hq : q ∈ unpaired next productions) {s : Symbol}
    (hs : s ∈ q.body) :
    (∃ p ∈ productions, s ∈ p.body) ∨ ∃ n, s = .nonterminal n ∧ Fresh next productions n := by
  cases List.mem_append.mp hq with
  | inl proxy =>
      obtain ⟨i, t, ht, rfl⟩ := mem_proxyRules.mp proxy
      obtain ⟨p, hp, _, member⟩ := mem_proxied.mp (List.mem_of_getElem? ht)
      exact Or.inl ⟨p, hp, List.mem_singleton.mp hs ▸ member⟩
  | inr own =>
      obtain ⟨p, hp, rfl⟩ := mem_isolated.mp own
      cases mem_isolate (nodup_distinct _) hs with
      | inl old => exact Or.inl ⟨p, hp, old⟩
      | inr proxy =>
          obtain ⟨i, inside, same⟩ := proxy
          exact Or.inr ⟨_, same, fresh_proxy inside⟩

/-- A pair is one of the pairs of an isolated body, whose links are fresh and numbered behind
the proxies. -/
theorem exists_chain_of_mem_pairs (hq : q ∈ pairs next productions) :
    ∃ p ∈ unpaired next productions, ∃ first, q ∈ chain p.head first p.body ∧
      next + (proxied productions).length ≤ first ∧
      ∀ i < linkCount p, Fresh next productions ⟨first + i⟩ := by
  rw [pairs_eq_binarize] at hq
  obtain ⟨p, hp, first, lower, upper, hq⟩ := exists_chain_of_mem_binarize hq
  rw [length_linkBodies_unpaired] at upper
  refine ⟨p, hp, first, hq, lower, ?_⟩
  intro i hi
  unfold Fresh freshCount
  constructor
  · change next ≤ first + i
    omega
  · change first + i < _
    omega

/-- The heads of the pairs are old heads, proxies and links. -/
theorem head_of_mem_pairs (hq : q ∈ pairs next productions) :
    (∃ p ∈ productions, q.head = p.head) ∨ Fresh next productions q.head := by
  obtain ⟨p, hp, first, hq, _, links⟩ := exists_chain_of_mem_pairs hq
  cases head_of_mem_chain hq with
  | inl own => exact own ▸ head_of_mem_unpaired hp
  | inr link =>
      obtain ⟨i, hi, same⟩ := link
      exact Or.inr (same ▸ links i hi)

/-- The symbols in the pairs are old symbols, proxies and links. -/
theorem symbol_of_mem_pairs (hq : q ∈ pairs next productions) {s : Symbol} (hs : s ∈ q.body) :
    (∃ p ∈ productions, s ∈ p.body) ∨ ∃ n, s = .nonterminal n ∧ Fresh next productions n := by
  obtain ⟨p, hp, first, hq, _, links⟩ := exists_chain_of_mem_pairs hq
  cases symbol_of_mem_chain hq hs with
  | inl own => exact symbol_of_mem_unpaired hp own
  | inr link =>
      obtain ⟨i, hi, same⟩ := link
      exact Or.inr ⟨_, same, links i hi⟩

/-- A single terminal or a pair of nonterminals. -/
def Binary (body : Body) : Prop :=
  (∃ t, body = [.terminal t]) ∨ ∃ b c, body = [.nonterminal b, .nonterminal c]

theorem Binary.ne_nil {body : Body} (h : Binary body) : body ≠ [] := by
  obtain ⟨t, rfl⟩ | ⟨b, c, rfl⟩ := h
  · exact List.cons_ne_nil _ _
  · exact List.cons_ne_nil _ _

theorem Binary.ne_unit {body : Body} (h : Binary body) (n : NonterminalId) :
    body ≠ [.nonterminal n] := by
  obtain ⟨t, rfl⟩ | ⟨b, c, rfl⟩ := h
  · simp
  · simp

theorem Binary.length_le {body : Body} (h : Binary body) : body.length ≤ 2 := by
  obtain ⟨t, rfl⟩ | ⟨b, c, rfl⟩ := h
  · exact Nat.le_succ 1
  · exact Nat.le_refl 2

/-- A terminal stands alone in a binary body. -/
theorem Binary.length_of_terminal {body : Body} (h : Binary body) {t : TerminalId}
    (member : .terminal t ∈ body) : body.length = 1 := by
  obtain ⟨u, rfl⟩ | ⟨b, c, rfl⟩ := h
  · rfl
  · simp at member

/-- The pairs of a body of two or more nonterminals are pairs of nonterminals. -/
theorem binary_of_mem_chain {p : Production} {first : Nat} (long : 2 ≤ p.body.length)
    (all : ∀ s ∈ p.body, ∃ n, s = .nonterminal n) (hq : q ∈ chain p.head first p.body) :
    Binary q.body := by
  have two : q.body.length = 2 := (length_of_mem_chain hq).trans (Nat.min_eq_right long)
  have every : ∀ s ∈ q.body, ∃ n, s = .nonterminal n := by
    intro s hs
    cases symbol_of_mem_chain hq hs with
    | inl own => exact all s own
    | inr link =>
        obtain ⟨i, _, same⟩ := link
        exact ⟨_, same⟩
  obtain ⟨x, y, pair⟩ := List.length_eq_two.mp two
  obtain ⟨b, rfl⟩ := every x (by simp [pair])
  obtain ⟨c, rfl⟩ := every y (by simp [pair])
  exact Or.inr ⟨b, c, pair⟩

/-- Without empty bodies and unit productions all bodies of the pairs are binary. -/
theorem binary_of_mem_pairs (nonempty : ∀ p ∈ productions, p.body ≠ [])
    (nonunit : ∀ p ∈ productions, ∀ b, p.body ≠ [.nonterminal b])
    (hq : q ∈ pairs next productions) : Binary q.body := by
  obtain ⟨p, hp, first, hq, _⟩ := exists_chain_of_mem_pairs hq
  cases List.mem_append.mp hp with
  | inl proxy =>
      obtain ⟨i, t, _, rfl⟩ := mem_proxyRules.mp proxy
      cases List.mem_singleton.mp hq
      exact Or.inl ⟨t, rfl⟩
  | inr own =>
      obtain ⟨p, source, rfl⟩ := mem_isolated.mp own
      by_cases long : 2 ≤ p.body.length
      · apply binary_of_mem_chain _ _ hq
        · exact length_isolate.symm ▸ long
        · intro s hs
          exact mem_isolate_of_two_le source long hs
      · -- A body of one symbol is a terminal and neither isolated nor split.
        have one : p.body.length = 1 := by
          have positive := List.length_pos_iff.mpr (nonempty p source)
          omega
        obtain ⟨s, single⟩ := List.length_eq_one_iff.mp one
        have same : isolate (proxyTable (proxied productions) next) p.body = [s] := by
          rw [isolate, if_pos (Nat.lt_of_not_le long), single]
        rw [same] at hq
        cases List.mem_singleton.mp hq
        cases s with
        | terminal t => exact Or.inl ⟨t, rfl⟩
        | nonterminal b => exact absurd single (nonunit p source b)

end Pairs

end ContextFree.NormalForm
