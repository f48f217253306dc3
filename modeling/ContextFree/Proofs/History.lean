import ContextFree.Proofs.Obtained

/-!
# Histories

A history begins with a defined grammar and continues with the actions of a session. Every
grammar of a history is well-formed, and each one inherits from those before it: it has the
same terminals, and below the number that was the next free one it has no nonterminals but
those that were there. A nonterminal therefore keeps its origin as long as it stays, and the
number of a removed one is never given away again.

## Implementation notes

Loading and recalling are not actions on the current value: they put another value in its
place, which has a history of its own. The session that performs an action is arbitrary, so
added nonterminals may have any serial number.
-/

namespace ContextFree

namespace Grammar

/-- The terminal stored under an identifier. -/
def terminal? (g : Grammar) (t : TerminalId) : Option Terminal :=
  g.terminals.find? fun entry => entry.id = t

/-- The nonterminal stored under an identifier. -/
def nonterminal? (g : Grammar) (n : NonterminalId) : Option Nonterminal :=
  g.nonterminals.find? fun entry => entry.id = n

variable {g : Grammar} {n : NonterminalId}

theorem nonterminal?_eq_none_iff : g.nonterminal? n = none ↔ ¬ g.Declares (.nonterminal n) := by
  simp [nonterminal?, Declares]

theorem WellFormed.nonterminal?_eq_some_iff (h : g.WellFormed) {entry : Nonterminal} :
    g.nonterminal? n = some entry ↔ entry ∈ g.nonterminals ∧ entry.id = n :=
  find?_key_eq_some_iff h.nonterminal_ids_nodup

section Mint

variable {supply rest : FreshSupply} {kind : FreshKind} {extended : Grammar}

/-- Adding a nonterminal takes an unused identifier and leaves the other entries alone. -/
theorem WellFormed.nonterminal?_of_mint (h : g.WellFormed)
    (ok : supply.mint g kind = .ok (n, extended, rest)) :
    g.nonterminal? n = none ∧
      ∀ m, extended.nonterminal? m =
        if m = n then some ⟨n, .fresh kind (supply.serial + 1)⟩ else g.nonterminal? m := by
  obtain ⟨_, rfl, _, rfl⟩ := FreshSupply.mint_eq_ok_iff.mp ok
  have unused : g.nonterminal? ⟨g.nextNonterminal⟩ = none := by
    apply nonterminal?_eq_none_iff.mpr
    intro declared
    exact Nat.lt_irrefl _ (h.index_lt declared)
  refine ⟨unused, ?_⟩
  intro m
  by_cases same : m = ⟨g.nextNonterminal⟩
  · rw [if_pos same, nonterminal?, nonterminals_withFresh_singleton, List.find?_append,
      ← nonterminal?, same, unused]
    simp
  · have other : ¬ (⟨g.nextNonterminal⟩ : NonterminalId) = m := fun eq => same eq.symm
    rw [if_neg same, nonterminal?, nonterminals_withFresh_singleton, List.find?_append,
      ← nonterminal?]
    simp [other]

end Mint

/-- The representation invariant, as a user of the library sees it. -/
structure Represented (g : Grammar) : Prop where
  valid : g.validate = .ok ()
  terminal_stored : ∀ t ∈ g.terminals, g.terminal? t.id = some t
  nonterminal_stored : ∀ n ∈ g.nonterminals, g.nonterminal? n.id = some n
  id_lt_next : ∀ n ∈ g.nonterminals, n.id.index < g.nextNonterminal
  next_le : g.nextNonterminal ≤ idLimit
  /-- Adding a nonterminal never overwrites an entry. -/
  mint_new : ∀ {supply rest : FreshSupply} {kind : FreshKind} {id : NonterminalId}
    {extended : Grammar}, supply.mint g kind = .ok (id, extended, rest) →
      g.nonterminal? id = none ∧
        ∀ m, extended.nonterminal? m =
          if m = id then some ⟨id, .fresh kind (supply.serial + 1)⟩ else g.nonterminal? m
  names_nodup : g.declaredNames.Nodup
  bodies_ne_nil : ∀ f ∈ g.families, f.bodies ≠ []

theorem WellFormed.represented (h : g.WellFormed) : g.Represented where
  valid := h.validate_eq_ok
  terminal_stored _ member := (find?_key_eq_some_iff h.terminal_ids_nodup).mpr ⟨member, rfl⟩
  nonterminal_stored _ member := h.nonterminal?_eq_some_iff.mpr ⟨member, rfl⟩
  id_lt_next := h.id_lt_next
  next_le := h.next_le
  mint_new := h.nonterminal?_of_mint
  names_nodup := h.names_nodup
  bodies_ne_nil := h.grouped.bodies_ne_nil

/-- A grammar has the terminals of an earlier one and, below the number that was free then,
none but its nonterminals. -/
structure Inherits (new old : Grammar) : Prop where
  terminals : new.terminals = old.terminals
  next_le : old.nextNonterminal ≤ new.nextNonterminal
  mem_of_lt : ∀ n ∈ new.nonterminals, n.id.index < old.nextNonterminal → n ∈ old.nonterminals

section Inherits

variable {a b c : Grammar}

theorem Inherits.refl (g : Grammar) : g.Inherits g := ⟨rfl, Nat.le_refl _, fun _ hn _ => hn⟩

theorem Inherits.trans (late : c.Inherits b) (early : b.Inherits a) : c.Inherits a where
  terminals := late.terminals.trans early.terminals
  next_le := Nat.le_trans early.next_le late.next_le
  mem_of_lt n hn small := by
    have between := late.mem_of_lt n hn (Nat.lt_of_lt_of_le small early.next_le)
    exact early.mem_of_lt n between small

/-- A nonterminal that is still there is the one that was there. -/
theorem Inherits.nonterminal?_eq (h : b.Inherits a) (old : a.WellFormed) (new : b.WellFormed)
    {entry later : Nonterminal} (member : entry ∈ a.nonterminals)
    (found : b.nonterminal? entry.id = some later) : later = entry := by
  obtain ⟨there, same⟩ := new.nonterminal?_eq_some_iff.mp found
  have small : later.id.index < a.nextNonterminal := same ▸ old.id_lt_next entry member
  have known : later ∈ a.nonterminals := h.mem_of_lt later there small
  exact List.inj_on_of_nodup_map old.nonterminal_ids_nodup known member same

/-- A number that was given away and is not in use stays out of use. -/
theorem Inherits.nonterminal?_eq_none (h : b.Inherits a) (small : n.index < a.nextNonterminal)
    (unused : a.nonterminal? n = none) : b.nonterminal? n = none := by
  rw [nonterminal?_eq_none_iff] at unused ⊢
  intro declared
  obtain ⟨entry, member, rfl⟩ := List.mem_map.mp declared
  exact unused (List.mem_map_of_mem (h.mem_of_lt entry member small))

theorem inherits_expandFamilies (droppable : NonterminalSet) :
    (g.expandFamilies droppable).Inherits g := ⟨rfl, Nat.le_refl _, fun _ hn _ => hn⟩

theorem inherits_inlineUnits : g.inlineUnits.Inherits g :=
  ⟨rfl, Nat.le_refl _, fun _ hn _ => hn⟩

theorem inherits_restrictTo (keep : NonterminalSet) : (g.restrictTo keep).Inherits g :=
  ⟨rfl, Nat.le_refl _, fun _ hn _ => List.mem_of_mem_filter hn⟩

theorem inherits_of_mint {supply rest : FreshSupply} {kind : FreshKind} {extended : Grammar}
    (ok : supply.mint g kind = .ok (n, extended, rest)) : extended.Inherits g := by
  obtain ⟨_, rfl, _, rfl⟩ := FreshSupply.mint_eq_ok_iff.mp ok
  refine ⟨rfl, Nat.le_succ _, ?_⟩
  intro entry member small
  cases List.mem_append.mp member with
  | inl old => exact old
  | inr new =>
      rw [List.mem_singleton.mp new] at small
      exact absurd small (Nat.lt_irrefl _)

theorem inherits_paired (derivesEmpty : Bool) : (g.paired derivesEmpty).Inherits g := by
  refine ⟨terminals_paired derivesEmpty, ?_, ?_⟩
  · rw [nextNonterminal_paired]
    exact Nat.le_add_right _ _
  · intro entry member small
    rw [nonterminals_paired, List.mem_append] at member
    cases member with
    | inl old => exact old
    | inr new =>
        obtain ⟨i, kind, _, rfl⟩ := NormalForm.mem_freshNonterminals.mp new
        exact absurd small (Nat.not_lt.mpr (Nat.le_add_right _ _))

/-- A whole normalization inherits as its stages do. -/
theorem WellFormed.inherits_of_normalize (h : g.WellFormed) {policy : EmptyWord} {c : NormalForm}
    (ok : g.normalize policy = .ok c) : c.grammar.Inherits g := by
  obtain ⟨productive, last⟩ := h.normalForm_of_normalize ok
  obtain ⟨rfl, _⟩ := (h.proper_usefulPart productive).eq_paired last
  have epsilonFree : g.withoutEmptyBodies.Inherits g := inherits_expandFamilies g.nullables
  have unitFree : g.withoutUnits.Inherits g := inherits_inlineUnits.trans epsilonFree
  have reduced : g.productivePart.Inherits g := (inherits_restrictTo _).trans unitFree
  have useful : g.usefulPart.Inherits g := (inherits_restrictTo _).trans reduced
  exact (inherits_paired _).trans useful

section Stages

theorem WellFormed.inherits_of_eliminateEpsilon (h : g.WellFormed) {droppable : NonterminalSet}
    {e : EpsilonFree} (ok : g.eliminateEpsilon droppable = .ok e) : e.grammar.Inherits g := by
  rw [h.eliminateEpsilon] at ok
  cases ok
  exact inherits_expandFamilies droppable

theorem WellFormed.inherits_of_eliminateUnits (h : g.WellFormed) (free : g.NoEmptyBody)
    {u : UnitFree} (ok : EpsilonFree.eliminateUnits ⟨g⟩ = .ok u) : u.grammar.Inherits g := by
  rw [h.eliminateUnits free] at ok
  cases ok
  exact inherits_inlineUnits

theorem inherits_of_retainProductive {pruned : Grammar} (ok : g.retainProductive = .ok pruned) :
    pruned.Inherits g := by
  rw [retainProductive_eq] at ok
  split at ok
  next =>
    cases ok
    exact inherits_restrictTo _
  next => cases ok

theorem WellFormed.inherits_of_retainReachable (h : g.WellFormed) {pruned : Grammar}
    (ok : g.retainReachable = .ok pruned) : pruned.Inherits g := by
  rw [h.retainReachable] at ok
  cases ok
  exact inherits_restrictTo _

theorem WellFormed.inherits_of_filterProductive (h : g.WellFormed) {p : Productive}
    (ok : UnitFree.filterProductive ⟨g⟩ = .ok p) : p.grammar.Inherits g := by
  rw [h.filterProductive] at ok
  split at ok
  next =>
    cases ok
    exact inherits_restrictTo _
  next => cases ok

theorem WellFormed.inherits_of_filterReachable (h : g.WellFormed) {r : Reachable}
    (ok : Productive.filterReachable ⟨g⟩ = .ok r) : r.grammar.Inherits g := by
  rw [h.filterReachable] at ok
  cases ok
  exact inherits_restrictTo _

theorem Proper.inherits_of_normalForm (h : g.Proper) {derivesEmpty : Bool} {c : NormalForm}
    (ok : Reachable.normalForm ⟨g⟩ derivesEmpty = .ok c) : c.grammar.Inherits g := by
  obtain ⟨rfl, _⟩ := h.eq_paired ok
  exact inherits_paired derivesEmpty

end Stages

end Inherits

end Grammar

section Histories

variable {s t : Staged} {session next : Session} {answer : Session.Answer}

/-- An action on the current value of a session leads to its next value. -/
def Staged.Leads (s t : Staged) : Prop :=
  ∃ (session next : Session) (action : Session.Action) (answer : Session.Answer),
    session.current = some s ∧ session.act s action = .ok (answer, next) ∧ next.current = some t

/-- Any number of actions lead from one value to another. -/
abbrev Staged.History : Staged → Staged → Prop := Relation.ReflTransGen Staged.Leads

theorem Session.advance_current {α : Type} {wrap : α → Staged} {result : Except NormalizeError α}
    (done : session.advance wrap result = .ok (answer, next)) (reached : next.current = some t) :
    ∃ a, result = .ok a ∧ t = wrap a := by
  cases result with
  | error e => cases done
  | ok a =>
      cases done
      exact ⟨a, rfl, (Option.some.inj reached).symm⟩

theorem Session.prune_current {result : Except Violation Grammar}
    (done : session.prune result = .ok (answer, next)) (reached : next.current = some t) :
    ∃ g, result = .ok g ∧ t = .grammar g := by
  cases result with
  | error v => cases done
  | ok g =>
      cases done
      exact ⟨g, rfl, (Option.some.inj reached).symm⟩

theorem Session.mint_current {g : Grammar} {kind : FreshKind}
    (done : session.act (.grammar g) (.mint kind) = .ok (answer, next))
    (reached : next.current = some t) :
    ∃ id extended rest, session.supply.mint g kind = .ok (id, extended, rest) ∧
      t = .grammar extended := by
  cases minted : session.supply.mint g kind with
  | error e => simp [Session.act, minted] at done
  | ok result =>
      obtain ⟨id, extended, rest⟩ := result
      simp only [Session.act, minted, Except.ok.injEq, Prod.mk.injEq] at done
      rw [← done.2] at reached
      exact ⟨id, extended, rest, rfl, (Option.some.inj reached).symm⟩

/-- A question leaves the session as it is. -/
theorem Session.ask_eq {query : Session.Query}
    (done : session.act s (.ask query) = .ok (answer, next)) : next = session := by
  cases answered : Session.answer s.toGrammar query with
  | error e => simp [Session.act, answered, Except.map] at done
  | ok a =>
      simp only [Session.act, answered, Except.map, Except.ok.injEq, Prod.mk.injEq] at done
      exact done.2.symm

/-- A comparison leaves the session as it is. -/
theorem Session.compare_eq {limit : Nat}
    (done : session.act s (.compare limit) = .ok (answer, next)) : next = session := by
  simp only [Session.act] at done
  split at done
  next => cases done
  next =>
    cases done
    rfl
  next => cases done

/-- What one action obtains, and what it inherits. -/
theorem Obtained.leads (h : Obtained s) (step : s.Leads t) :
    Obtained t ∧ t.toGrammar.Inherits s.toGrammar := by
  obtain ⟨session, next, action, answer, current, done, reached⟩ := step
  have wellFormed : s.toGrammar.WellFormed := h.lawful.wellFormed
  -- Questions and saving leave the current value as it is.
  have unchanged (same : next.current = session.current) :
      Obtained t ∧ t.toGrammar.Inherits s.toGrammar := by
    rw [same, current] at reached
    cases reached
    exact ⟨h, .refl _⟩
  cases action with
  | inspect =>
      cases done
      exact unchanged rfl
  | save =>
      cases done
      exact unchanged rfl
  | eliminateEpsilon droppable =>
      cases s with
      | grammar g =>
          obtain ⟨e, ok, rfl⟩ := Session.advance_current done reached
          exact ⟨h.eliminateEpsilon ok, wellFormed.inherits_of_eliminateEpsilon ok⟩
      | _ => cases done
  | eliminateUnits =>
      cases s with
      | epsilonFree e =>
          obtain ⟨u, ok, rfl⟩ := Session.advance_current done reached
          exact ⟨h.eliminateUnits ok, wellFormed.inherits_of_eliminateUnits h.lawful.2 ok⟩
      | _ => cases done
  | filterProductive =>
      cases s with
      | unitFree u =>
          obtain ⟨p, ok, rfl⟩ := Session.advance_current done reached
          exact ⟨h.filterProductive ok, wellFormed.inherits_of_filterProductive ok⟩
      | _ => cases done
  | filterReachable =>
      cases s with
      | productive p =>
          obtain ⟨r, ok, rfl⟩ := Session.advance_current done reached
          exact ⟨h.filterReachable ok, wellFormed.inherits_of_filterReachable ok⟩
      | _ => cases done
  | toNormalForm derivesEmpty =>
      cases s with
      | reachable r =>
          obtain ⟨c, ok, rfl⟩ := Session.advance_current done reached
          exact ⟨h.normalForm ok, h.lawful.1.inherits_of_normalForm ok⟩
      | _ => cases done
  | release =>
      have released : t = .grammar s.toGrammar := by
        cases s with
        | grammar g => cases done
        | _ =>
            cases done
            exact (Option.some.inj reached).symm
      subst released
      exact ⟨h.release, .refl _⟩
  | normalize policy =>
      obtain ⟨c, ok, rfl⟩ := Session.advance_current done reached
      exact ⟨h.release.normalize ok, wellFormed.inherits_of_normalize ok⟩
  | retainProductive =>
      obtain ⟨g, ok, rfl⟩ := Session.prune_current done reached
      exact ⟨h.release.retainProductive ok, Grammar.inherits_of_retainProductive ok⟩
  | retainReachable =>
      obtain ⟨g, ok, rfl⟩ := Session.prune_current done reached
      exact ⟨h.release.retainReachable ok, wellFormed.inherits_of_retainReachable ok⟩
  | mint kind =>
      cases s with
      | grammar g =>
          obtain ⟨id, extended, rest, ok, rfl⟩ := Session.mint_current done reached
          exact ⟨h.mint ok, Grammar.inherits_of_mint ok⟩
      | _ => cases done
  | ask query => exact unchanged (congrArg _ (Session.ask_eq done))
  | askLanguage query =>
      cases s with
      | normalForm c =>
          cases done
          exact unchanged rfl
      | _ => cases done
  | compare limit => exact unchanged (congrArg _ (Session.compare_eq done))
  | _ => cases done

/-- What a history obtains, and what it inherits. -/
theorem Obtained.history (h : Obtained s) (path : s.History t) :
    Obtained t ∧ t.toGrammar.Inherits s.toGrammar := by
  induction path with
  | refl => exact ⟨h, .refl _⟩
  | tail _ step ih =>
      obtain ⟨obtained, earlier⟩ := ih
      obtain ⟨next, inherits⟩ := obtained.leads step
      exact ⟨next, inherits.trans earlier⟩

/-- Throughout a history the representation invariant holds, the terminals are those that were
defined, and a nonterminal has the origin it was introduced with. Once it has been removed, its
identifier is not given to another one. -/
theorem representation_throughout_history {specification : Specification} {g : Grammar}
    (loaded : specification.load = .ok g) (history : Staged.History (.grammar g) s) :
    s.toGrammar.Represented ∧ s.toGrammar.terminals = g.terminals ∧
      ∀ earlier, Staged.History (.grammar g) earlier → earlier.History s →
        ∀ n ∈ earlier.toGrammar.nonterminals,
          (∀ m, s.toGrammar.nonterminal? n.id = some m → m.origin = n.origin) ∧
          ∀ between, earlier.History between → between.History s →
            between.toGrammar.nonterminal? n.id = none →
            s.toGrammar.nonterminal? n.id = none := by
  have start : Obtained (.grammar g) := .load loaded
  obtain ⟨obtained, inherits⟩ := start.history history
  have wellFormed : s.toGrammar.WellFormed := obtained.lawful.wellFormed
  refine ⟨wellFormed.represented, inherits.terminals, ?_⟩
  intro earlier before after n member
  have introduced : Obtained earlier := (start.history before).1
  have known : earlier.toGrammar.WellFormed := introduced.lawful.wellFormed
  constructor
  · intro m found
    exact congrArg _ ((introduced.history after).2.nonterminal?_eq known wellFormed member found)
  · intro between first second removed
    obtain ⟨present, grown⟩ := introduced.history first
    -- The next free number never falls back below a number that was given away.
    have small := Nat.lt_of_lt_of_le (known.id_lt_next n member) grown.next_le
    exact (present.history second).2.nonterminal?_eq_none small removed

/-- The normal form of the palindromes has lost the nonterminal `Q`. A nonterminal that is
added afterwards does not take its number. -/
theorem evenPalindromes_throughout_history :
    let c : NormalForm := ⟨evenPalindromes.usefulPart.paired true, true⟩
    ∃ g, Staged.History (.grammar evenPalindromes) (.normalForm c) ∧
      Staged.History (.normalForm c) (.grammar g) ∧ g.Represented ∧
      g.terminals = evenPalindromes.terminals ∧
      (⟨⟨2⟩, .declared "Q"⟩ : Nonterminal) ∈ evenPalindromes.nonterminals ∧
      g.nonterminal? ⟨2⟩ = none ∧ g.nonterminal? ⟨10⟩ = some ⟨⟨10⟩, .fresh .chain 1⟩ := by
  intro c
  let extended : Grammar :=
    { c.grammar with
      nonterminals := c.grammar.nonterminals ++ [⟨⟨10⟩, .fresh .chain 1⟩]
      nextNonterminal := 11 }
  have normalized : evenPalindromes.normalize .preserve = .ok c := by decide +kernel
  have minted : FreshSupply.new.mint c.grammar .chain = .ok (⟨10⟩, extended, ⟨1⟩) := by
    decide +kernel
  have first : Staged.Leads (.grammar evenPalindromes) (.normalForm c) := by
    refine ⟨⟨some _, none, .new⟩, ⟨some (.normalForm c), none, .new⟩, .normalize .preserve,
      .value (.normalForm c), rfl, ?_, rfl⟩
    simp only [Session.act, Staged.toGrammar, normalized, Session.advance, Session.become]
  have second : Staged.Leads (.normalForm c) (.grammar c.grammar) :=
    ⟨⟨some (.normalForm c), none, .new⟩, ⟨some (.grammar c.grammar), none, .new⟩, .release,
      .value (.grammar c.grammar), rfl, rfl, rfl⟩
  have third : Staged.Leads (.grammar c.grammar) (.grammar extended) := by
    refine ⟨⟨some (.grammar c.grammar), none, .new⟩, ⟨some (.grammar extended), none, ⟨1⟩⟩,
      .mint .chain, .minted ⟨10⟩ (extended.names.nonterminal ⟨10⟩), rfl, ?_, rfl⟩
    simp only [Session.act, minted]
  have early : Staged.History (.grammar evenPalindromes) (.normalForm c) := .single first
  have late : Staged.History (.normalForm c) (.grammar extended) := .tail (.single second) third
  have loaded : (Specification.catalog .palindromes).load = .ok evenPalindromes := by
    decide +kernel
  obtain ⟨represented, terminals, origins⟩ :=
    representation_throughout_history loaded (early.trans late)
  have q : (⟨⟨2⟩, .declared "Q"⟩ : Nonterminal) ∈ evenPalindromes.nonterminals := by decide
  have removed : c.grammar.nonterminal? ⟨2⟩ = none := by decide +kernel
  refine ⟨extended, early, late, represented, terminals, q, ?_, by decide +kernel⟩
  exact (origins _ .refl (early.trans late) _ q).2 _ early late removed

end Histories

end ContextFree
