import ContextFree.Proofs.Reachability
import ContextFree.Proofs.Saturation
import ContextFree.Pruning

/-!
# Pruning keeps what the kept symbols derive

Restricting a grammar to a set of nonterminals keeps the productions that stay inside
the set. If no derivation leaves the set, the kept nonterminals derive what they
derived before. This holds of the productive symbols, since a derivation consists of
productive symbols only, and of the reachable symbols, since a body of a reachable
symbol mentions only reachable ones.
-/

namespace ContextFree.Grammar

variable {g : Grammar} {keep : NonterminalSet}

section Restriction

/-- Whether a body mentions only nonterminals of a set. -/
def Inside (keep : NonterminalSet) (body : Body) : Prop :=
  ∀ n, .nonterminal n ∈ body → n ∈ keep

theorem all_isWithin_iff {body : Body} :
    body.all (Symbol.isWithin keep) = true ↔ Inside keep body := by
  rw [List.all_eq_true]
  constructor
  · intro h n hn
    exact h _ hn
  · intro h s hs
    cases s with
    | terminal t => rfl
    | nonterminal n => exact h n hs

theorem restrictTo?_eq_some_iff {f f' : Family} :
    f.restrictTo? keep = some f' ↔
      f.head ∈ keep ∧ f'.head = f.head ∧ f'.bodies ≠ [] ∧
        f'.bodies = f.bodies.filter fun body => body.all (Symbol.isWithin keep) := by
  unfold Family.restrictTo?
  by_cases kept : f.head ∈ keep
  · rw [if_pos (IdSet.mem_iff.mp kept), and_iff_right kept]
    split
    next none =>
      rw [none]
      simp
    next bodies some =>
      rw [Option.some.injEq, Family.ext_iff]
      constructor
      · rintro ⟨head, same⟩
        exact ⟨head.symm, fun empty => some (same.trans empty), same.symm⟩
      · rintro ⟨head, _, same⟩
        exact ⟨head.symm, same.symm⟩
  · rw [if_neg (fun h => kept (IdSet.mem_iff.mpr h))]
    simp [kept]

/-- Whether a production mentions only nonterminals of a set. -/
def staysWithin (keep : NonterminalSet) (p : Production) : Bool :=
  keep.contains p.head && p.body.all (Symbol.isWithin keep)

theorem productions_restrictTo? (f : Family) :
    (f.restrictTo? keep).toList.flatMap Family.productions =
      f.productions.filter (staysWithin keep) := by
  rw [Family.productions, List.filter_map]
  unfold Family.restrictTo?
  by_cases kept : keep.contains f.head = true
  · have inside : f.bodies.filter (staysWithin keep ∘ fun b => ⟨f.head, b⟩) =
        f.bodies.filter fun b => b.all (Symbol.isWithin keep) :=
      List.filter_congr fun b _ => by simp [staysWithin, kept]
    rw [if_pos kept, inside]
    split
    next none => rw [none]; rfl
    next some => simp [Family.productions]
  · simp [staysWithin, kept, Function.comp_def]

/-- The productions that stay inside the set are kept, in their order. -/
theorem productions_restrictTo :
    (g.restrictTo keep).productions = g.productions.filter (staysWithin keep) := by
  unfold productions Grammar.restrictTo
  induction g.families with
  | nil => rfl
  | cons f rest ih =>
      rw [List.flatMap_cons, List.filter_append, ← ih, ← productions_restrictTo?,
        List.filterMap_cons]
      cases f.restrictTo? keep with
      | none => rfl
      | some f' => simp

theorem mem_productions_restrictTo {p : Production} :
    p ∈ (g.restrictTo keep).productions ↔
      p ∈ g.productions ∧ p.head ∈ keep ∧ Inside keep p.body := by
  rw [productions_restrictTo, List.mem_filter, staysWithin, Bool.and_eq_true, all_isWithin_iff]
  rfl

theorem declares_restrictTo {s : Symbol} :
    (g.restrictTo keep).Declares s ↔ g.Declares s ∧ ∀ n, s = .nonterminal n → n ∈ keep := by
  cases s with
  | terminal t => simp [Declares, restrictTo]
  | nonterminal n =>
      simp only [Declares, restrictTo, List.mem_map, List.mem_filter, Symbol.nonterminal.injEq]
      constructor
      · rintro ⟨m, ⟨hm, kept⟩, rfl⟩
        exact ⟨⟨m, hm, rfl⟩, fun n same => same ▸ kept⟩
      · rintro ⟨⟨m, hm, rfl⟩, kept⟩
        exact ⟨m, ⟨hm, kept m.id rfl⟩, rfl⟩

theorem grouped_restrictTo (h : Grouped g.families) (keep : NonterminalSet) :
    Grouped (g.restrictTo keep).families := by
  refine h.filterMap (fun f f' pruned => ?_) (fun f hf f' pruned => ?_) fun f f' pruned => ?_
  · exact (restrictTo?_eq_some_iff.mp pruned).2.1
  · obtain ⟨_, _, _, bodies⟩ := restrictTo?_eq_some_iff.mp pruned
    exact bodies ▸ (h.bodies_nodup f hf).filter _
  · exact (restrictTo?_eq_some_iff.mp pruned).2.2.1

/-- A restriction that keeps the start symbol is well-formed. -/
theorem WellFormed.restrictTo (h : g.WellFormed) (start : g.start ∈ keep) :
    (g.restrictTo keep).WellFormed where
  start_declared := declares_restrictTo.mpr
    ⟨h.start_declared, fun _ same => Symbol.nonterminal.inj same ▸ start⟩
  head_declared p hp := by
    obtain ⟨hg, kept, _⟩ := mem_productions_restrictTo.mp hp
    exact declares_restrictTo.mpr
      ⟨h.head_declared p hg, fun _ same => Symbol.nonterminal.inj same ▸ kept⟩
  body_declared p hp s hs := by
    obtain ⟨hg, _, inside⟩ := mem_productions_restrictTo.mp hp
    exact declares_restrictTo.mpr
      ⟨h.body_declared p hg s hs, fun n same => inside n (same ▸ hs)⟩
  grouped := grouped_restrictTo h.grouped keep
  terminal_ids_nodup := h.terminal_ids_nodup
  nonterminal_ids_nodup := h.nonterminal_ids_nodup.sublist (List.filter_sublist.map _)
  id_lt_next n hn := h.id_lt_next n (List.mem_of_mem_filter hn)
  next_le := h.next_le
  names_nodup := by
    refine h.names_nodup.sublist (List.Sublist.append (List.Sublist.refl _) ?_)
    exact List.filter_sublist.filterMap _

/-- A restriction that keeps the start symbol passes the check. -/
theorem Valid.restrictTo (h : g.Valid) (start : g.start ∈ keep) :
    (g.restrictTo keep).Valid where
  validate_eq_ok := by
    obtain ⟨declared, names, families⟩ :=
      violation?_eq_none_iff.mp (validate_eq_ok_iff.mp h.validate_eq_ok)
    refine validate_eq_ok_iff.mpr (violation?_eq_none_iff.mpr ⟨?_, ?_, ?_⟩)
    · exact declares_restrictTo.mpr
        ⟨declared, fun _ same => Symbol.nonterminal.inj same ▸ start⟩
    · intro name hn
      exact names name ((List.filter_sublist.filterMap _).subset hn)
    · intro f' hf'
      obtain ⟨f, hf, pruned⟩ := List.mem_filterMap.mp hf'
      obtain ⟨kept, head, _, bodies⟩ := restrictTo?_eq_some_iff.mp pruned
      obtain ⟨headDeclared, bodiesDeclared⟩ := families f hf
      rw [head, bodies]
      refine ⟨declares_restrictTo.mpr
        ⟨headDeclared, fun _ same => Symbol.nonterminal.inj same ▸ kept⟩, ?_⟩
      intro body hb s hs
      obtain ⟨old, inside⟩ := List.mem_filter.mp hb
      exact declares_restrictTo.mpr
        ⟨bodiesDeclared body old s hs, fun n same => all_isWithin_iff.mp inside n (same ▸ hs)⟩
  heads_nodup := by
    refine h.heads_nodup.sublist (map_head_filterMap_sublist fun f f' pruned => ?_)
    exact (restrictTo?_eq_some_iff.mp pruned).2.1
  nonterminal_ids_nodup := h.nonterminal_ids_nodup.sublist (List.filter_sublist.map _)

/-- If no derivation leaves the set, bodies inside it derive the same words. -/
theorem yields_restrictTo_iff
    (closed : ∀ p ∈ g.productions, p.head ∈ keep →
      (∃ w, Yields (· ∈ g.productions) p.body w) → Inside keep p.body)
    {body : Body} (inside : Inside keep body) {w : Word} :
    Yields (· ∈ (g.restrictTo keep).productions) body w ↔ Yields (· ∈ g.productions) body w := by
  constructor
  · exact Yields.mono fun p hp => (mem_productions_restrictTo.mp hp).1
  · refine Yields.confine (· ∈ keep) (fun n body w kept rule hw => ?_) inside
    have stays := closed ⟨n, body⟩ rule kept ⟨w, hw⟩
    exact ⟨mem_productions_restrictTo.mpr ⟨rule, kept, stays⟩, stays⟩

end Restriction

theorem inside_singleton {n : NonterminalId} (h : n ∈ keep) : Inside keep [.nonterminal n] := by
  intro m hm
  obtain rfl : m = n := by simpa using hm
  exact h

/-- A body that derives a word mentions only productive symbols. -/
theorem inside_productiveSet {body : Body} {w : Word} (h : Yields (· ∈ g.productions) body w) :
    Inside g.productiveSet body := by
  intro n hn
  exact mem_productiveSet_iff.mpr (h.exists_of_mem hn)

/-- Removing unproductive symbols keeps the words of every productive symbol. -/
theorem derives_restrictTo_productiveSet {n : NonterminalId} (h : n ∈ g.productiveSet)
    {w : Word} : (g.restrictTo g.productiveSet).Derives n w ↔ g.Derives n w :=
  yields_restrictTo_iff (fun _ _ _ ⟨_, hw⟩ => inside_productiveSet hw) (inside_singleton h)

/-- A body of a reachable symbol mentions only reachable symbols. -/
theorem inside_reachableSet (heads : (g.families.map Family.head).Nodup) {p : Production}
    (hp : p ∈ g.productions) (h : p.head ∈ g.reachableSet) : Inside g.reachableSet p.body := by
  intro n hn
  rw [mem_reachableSet_iff heads] at h ⊢
  exact h.tail ⟨p.body, hp, hn⟩

theorem start_mem_reachableSet (heads : (g.families.map Family.head).Nodup) :
    g.start ∈ g.reachableSet :=
  (mem_reachableSet_iff heads).mpr .refl

/-- Reachable symbols have numbers that were given away. -/
theorem WellFormed.index_lt_of_mem_reachableSet (h : g.WellFormed) {n : NonterminalId}
    (reached : n ∈ g.reachableSet) : n.index < g.nextNonterminal := by
  apply h.index_lt
  cases (mem_reachableSet_iff h.grouped.heads_nodup).mp reached with
  | refl => exact h.start_declared
  | tail _ mentioned =>
      obtain ⟨body, rule, mention⟩ := mentioned
      exact h.body_declared _ rule _ mention

/-- Removing unreachable symbols keeps the words of every reachable symbol. -/
theorem derives_restrictTo_reachableSet (heads : (g.families.map Family.head).Nodup)
    {n : NonterminalId} (h : n ∈ g.reachableSet) {w : Word} :
    (g.restrictTo g.reachableSet).Derives n w ↔ g.Derives n w :=
  yields_restrictTo_iff (fun _ hp kept _ => inside_reachableSet heads hp kept)
    (inside_singleton h)

/-- Removing unreachable symbols keeps all chains from the start symbol. -/
theorem reaches_restrictTo_reachableSet (heads : (g.families.map Family.head).Nodup)
    {n : NonterminalId} (h : g.Reaches g.start n) :
    (g.restrictTo g.reachableSet).Reaches g.start n := by
  induction h with
  | refl => exact .refl
  | tail reached mentioned ih =>
      obtain ⟨body, rule, hm⟩ := mentioned
      have kept := (mem_reachableSet_iff heads).mpr reached
      refine ih.tail ⟨body, mem_productions_restrictTo.mpr ⟨rule, kept, ?_⟩, hm⟩
      exact inside_reachableSet heads rule kept

/-- Productive pruning fails exactly if the start symbol derives no word. -/
theorem retainProductive_eq :
    g.retainProductive =
      if g.start ∈ g.productiveSet then .ok (g.restrictTo g.productiveSet)
      else .error (.unproductiveStart g.startText) := rfl

theorem WellFormed.retainReachable (h : g.WellFormed) :
    g.retainReachable = .ok (g.restrictTo g.reachableSet) := by
  rw [Grammar.retainReachable, h.violation?_eq_none]

end ContextFree.Grammar
