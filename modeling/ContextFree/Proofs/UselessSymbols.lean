import ContextFree.Proofs.Idempotence
import ContextFree.Proofs.Language.SententialForm

/-!
# Removing useless symbols is exact

Pruning keeps a set of nonterminals and the productions that mention no other. Two sets are
kept, one after the other: the nonterminals that derive a word, and those that occur in a
sentential form. In both cases the kept nonterminals derive what they derived before, because
no derivation of a word leaves the set.

Once all nonterminals derive a word, or all are reachable, there is nothing left to remove.
Removing unreachable symbols leaves every other symbol with its words, so after both removals
in this order neither has anything to do. In the other order they have: a symbol may be
reachable only through a body with a symbol that derives no word.

## Main statements

* `Grammar.Valid.retainProductive_exact`: what the removal of unproductive symbols keeps.
* `Grammar.Valid.retainReachable_exact`: what the removal of unreachable symbols keeps.
* `Obtained.pruning_idempotent`: both removals are idempotent and compose in this order.
-/

namespace ContextFree

/-- A symbol without words and, in the only body that mentions it, a symbol that no other body
mentions. -/
def deadBranch : Grammar where
  terminals := [⟨⟨0⟩, "a"⟩, ⟨⟨1⟩, "b"⟩]
  nonterminals := [⟨⟨0⟩, .declared "S"⟩, ⟨⟨1⟩, .declared "A"⟩, ⟨⟨2⟩, .declared "B"⟩]
  families :=
    [ ⟨⟨0⟩, [[.terminal ⟨0⟩, .nonterminal ⟨0⟩], [.nonterminal ⟨1⟩, .nonterminal ⟨2⟩], []]⟩,
      ⟨⟨1⟩, [[.terminal ⟨0⟩, .nonterminal ⟨1⟩]]⟩,
      ⟨⟨2⟩, [[.nonterminal ⟨0⟩], [.terminal ⟨1⟩]]⟩ ]
  start := ⟨0⟩
  nextNonterminal := 3

theorem obtained_deadBranch : Obtained (.grammar deadBranch) :=
  .load (show (Specification.source "S -> aS | AB | ε; A -> aA; B -> S | b" {}).load =
    .ok deadBranch by decide +kernel)

namespace Grammar

variable {g : Grammar} {keep : NonterminalSet}

/-- A grammar is what is left of another when only some nonterminals are kept: exactly the
productions that mention no other nonterminal are left, everything stands in the old order, and
the kept nonterminals derive the same words as before. -/
structure Prunes (g : Grammar) (Kept : NonterminalId → Prop) (pruned : Grammar) : Prop where
  valid : pruned.Valid
  declares_iff : ∀ n, pruned.Declares (.nonterminal n) ↔ Kept n
  mem_productions_iff : ∀ p, p ∈ pruned.productions ↔
    p ∈ g.productions ∧ Kept p.head ∧ ∀ n, .nonterminal n ∈ p.body → Kept n
  derives_iff : ∀ n, Kept n → ∀ w, pruned.Derives n w ↔ g.Derives n w
  nonterminals_sublist : pruned.nonterminals.Sublist g.nonterminals
  productions_sublist : pruned.productions.Sublist g.productions
  terminals_eq : pruned.terminals = g.terminals
  start_eq : pruned.start = g.start
  nextNonterminal_eq : pruned.nextNonterminal = g.nextNonterminal

/-- Restricting a grammar to declared symbols that no derivation of a word leaves prunes it. -/
theorem Valid.prunes_restrictTo (h : g.Valid) (start : g.start ∈ keep)
    (declared : ∀ n ∈ keep, g.Declares (.nonterminal n))
    (closed : ∀ p ∈ g.productions, p.head ∈ keep →
      (∃ w, Yields (· ∈ g.productions) p.body w) → Inside keep p.body) :
    g.Prunes (· ∈ keep) (g.restrictTo keep) where
  valid := h.restrictTo start
  declares_iff n := by
    rw [declares_restrictTo]
    constructor
    · intro kept
      exact kept.2 n rfl
    · intro kept
      exact ⟨declared n kept, fun _ same => Symbol.nonterminal.inj same ▸ kept⟩
  mem_productions_iff _ := mem_productions_restrictTo
  derives_iff _ kept _ := yields_restrictTo_iff closed (inside_singleton kept)
  nonterminals_sublist := List.filter_sublist
  productions_sublist := by
    rw [productions_restrictTo]
    exact List.filter_sublist
  terminals_eq := rfl
  start_eq := rfl
  nextNonterminal_eq := rfl

section Productive

/-- A nonterminal that derives a word is the head of a production. -/
theorem Valid.declares_of_derives (h : g.Valid) {n : NonterminalId} {w : Word}
    (derives : g.Derives n w) : g.Declares (.nonterminal n) := by
  obtain ⟨body, rule, _⟩ := derives_iff.mp derives
  exact h.head_declared rule

theorem Valid.prunes_productiveSet (h : g.Valid) (productive : g.start ∈ g.productiveSet) :
    g.Prunes (fun n => ∃ w, g.Derives n w) (g.restrictTo g.productiveSet) := by
  have same : (· ∈ g.productiveSet) = fun n => ∃ w, g.Derives n w :=
    funext fun _ => propext mem_productiveSet_iff
  rw [← same]
  apply h.prunes_restrictTo productive
  · intro n kept
    obtain ⟨w, derives⟩ := mem_productiveSet_iff.mp kept
    exact h.declares_of_derives derives
  · rintro p _ _ ⟨w, yields⟩
    exact inside_productiveSet yields

/-- Removing unproductive symbols fails exactly if the start symbol derives no word. Otherwise it
keeps the nonterminals that derive a word, with the productions that mention no other, and
changes none of their languages. -/
theorem Valid.retainProductive_exact (h : g.Valid) :
    (∀ v, g.retainProductive = .error v ↔
        v = .unproductiveStart g.startText ∧ ∀ w, ¬ g.Derives g.start w) ∧
      ((∃ w, g.Derives g.start w) → ∃ pruned, g.retainProductive = .ok pruned ∧
        g.Prunes (fun n => ∃ w, g.Derives n w) pruned) := by
  rw [retainProductive_eq]
  by_cases productive : g.start ∈ g.productiveSet
  · rw [if_pos productive]
    obtain ⟨w, derives⟩ := mem_productiveSet_iff.mp productive
    refine ⟨fun v => ⟨?_, ?_⟩, fun _ => ⟨_, rfl, h.prunes_productiveSet productive⟩⟩
    · intro failed
      cases failed
    · rintro ⟨_, none⟩
      exact absurd derives (none w)
  · rw [if_neg productive]
    have none : ¬ ∃ w, g.Derives g.start w := fun some =>
      productive (mem_productiveSet_iff.mpr some)
    refine ⟨fun v => ?_, fun some => absurd some none⟩
    rw [Except.error.injEq, eq_comm, and_iff_left (not_exists.mp none)]

/-- Of the three symbols only the second derives no word, and it takes one body with it. -/
theorem deadBranch_retainProductive_exact :
    deadBranch.Valid ∧ (∃ w, deadBranch.Derives ⟨0⟩ w) ∧
      ∃ pruned, deadBranch.retainProductive = .ok pruned ∧ pruned.Valid ∧
        pruned.Declares (.nonterminal ⟨2⟩) ∧ ¬ pruned.Declares (.nonterminal ⟨1⟩) ∧
        ⟨⟨0⟩, [.nonterminal ⟨1⟩, .nonterminal ⟨2⟩]⟩ ∈ deadBranch.productions ∧
        ⟨⟨0⟩, [.nonterminal ⟨1⟩, .nonterminal ⟨2⟩]⟩ ∉ pruned.productions ∧
        ⟨⟨2⟩, [.nonterminal ⟨0⟩]⟩ ∈ pruned.productions ∧
        ∀ w, pruned.Derives ⟨2⟩ w ↔ deadBranch.Derives ⟨2⟩ w := by
  have valid : deadBranch.Valid := obtained_deadBranch.lawful.wellFormed.valid
  have start : ∃ w, deadBranch.Derives ⟨0⟩ w := mem_productiveSet_iff.mp (by decide +kernel)
  have third : ∃ w, deadBranch.Derives ⟨2⟩ w := mem_productiveSet_iff.mp (by decide +kernel)
  have second : ¬ ∃ w, deadBranch.Derives ⟨1⟩ w :=
    fun words => absurd (mem_productiveSet_iff.mpr words) (by decide +kernel)
  obtain ⟨pruned, ok, prunes⟩ := valid.retainProductive_exact.2 start
  refine ⟨valid, start, pruned, ok, prunes.valid, (prunes.declares_iff _).mpr third, ?_, ?_, ?_, ?_,
    prunes.derives_iff _ third⟩
  · rwa [prunes.declares_iff]
  · decide +kernel
  · rw [prunes.mem_productions_iff]
    rintro ⟨_, _, inside⟩
    exact second (inside _ List.mem_cons_self)
  · rw [prunes.mem_productions_iff]
    refine ⟨by decide +kernel, third, fun n member => ?_⟩
    obtain rfl : n = ⟨0⟩ := by simpa using member
    exact start

end Productive

section Reachable

/-- A reachable nonterminal is the start symbol or stands in a body. -/
theorem Valid.declares_of_reaches (h : g.Valid) {n : NonterminalId}
    (reached : g.Reaches g.start n) : g.Declares (.nonterminal n) := by
  cases reached with
  | refl => exact (violation?_eq_none_iff.mp (validate_eq_ok_iff.mp h.validate_eq_ok)).1
  | tail _ mentioned =>
      obtain ⟨body, rule, member⟩ := mentioned
      exact h.body_declared rule member

theorem Valid.prunes_reachableSet (h : g.Valid) :
    g.Prunes g.OccursInForm (g.restrictTo g.reachableSet) := by
  have reached {n : NonterminalId} : n ∈ g.reachableSet ↔ g.Reaches g.start n :=
    mem_reachableSet_iff h.heads_nodup
  have same : (· ∈ g.reachableSet) = g.OccursInForm :=
    funext fun _ => propext (reached.trans occursInForm_iff.symm)
  rw [← same]
  apply h.prunes_restrictTo (start_mem_reachableSet h.heads_nodup)
  · intro n kept
    exact h.declares_of_reaches (reached.mp kept)
  · intro p hp kept _
    exact inside_reachableSet h.heads_nodup hp kept

/-- The search for reachable symbols comes to its end, by one run only, and what it has seen then
are the nonterminals that occur in sentential forms; the sentential forms without nonterminals
are the words of the start symbol. Removing the other nonterminals succeeds, keeps all
productions of the remaining ones, and changes none of their languages. -/
theorem Valid.retainReachable_exact (h : g.Valid) :
    (∃ last, (∀ w, g.Search (.ofList [g.start]) w ↔ w = last) ∧
        g.reachableSet = .ofList last.seen.toList) ∧
      (∀ w, g.SententialForm (w.map .terminal) ↔ g.Derives g.start w) ∧
      (∀ n, n ∈ g.reachableSet ↔ g.OccursInForm n) ∧
      ∃ pruned, g.retainReachable = .ok pruned ∧ g.Prunes g.OccursInForm pruned ∧
        ∀ p, p ∈ pruned.productions ↔ p ∈ g.productions ∧ g.OccursInForm p.head := by
  have search := search_searched h.heads_nodup
  have reached (n : NonterminalId) : n ∈ g.reachableSet ↔ g.OccursInForm n :=
    (mem_reachableSet_iff h.heads_nodup).trans occursInForm_iff.symm
  have valid : g.violation? = none := validate_eq_ok_iff.mp h.validate_eq_ok
  refine ⟨⟨g.searched, fun w => ⟨?_, ?_⟩, reachableSet_eq⟩, fun _ => derives_iff_rewrites.symm,
    reached, _, ?_, h.prunes_reachableSet, fun p => ?_⟩
  · intro other
    exact other.unique search
  · rintro rfl
    exact search
  · rw [retainReachable, valid]
  · rw [mem_productions_restrictTo, ← reached]
    constructor
    · rintro ⟨rule, kept, _⟩
      exact ⟨rule, kept⟩
    · rintro ⟨rule, kept⟩
      exact ⟨rule, kept, inside_reachableSet h.heads_nodup rule kept⟩

/-- With the second symbol gone the third occurs in no sentential form, but the start symbol keeps
its two bodies. -/
theorem deadBranch_retainReachable_exact :
    let g := deadBranch.restrictTo deadBranch.productiveSet
    g.Valid ∧ g.Declares (.nonterminal ⟨2⟩) ∧ ¬ g.OccursInForm ⟨2⟩ ∧
      ∃ pruned, g.retainReachable = .ok pruned ∧ ¬ pruned.Declares (.nonterminal ⟨2⟩) ∧
        ⟨⟨0⟩, [.terminal ⟨0⟩, .nonterminal ⟨0⟩]⟩ ∈ pruned.productions ∧
        ⟨⟨0⟩, []⟩ ∈ pruned.productions ∧ ∀ w, pruned.Derives ⟨0⟩ w ↔ g.Derives ⟨0⟩ w := by
  intro g
  have valid : g.Valid := obtained_deadBranch.lawful.wellFormed.valid.restrictTo (by decide +kernel)
  obtain ⟨_, _, reached, pruned, ok, prunes, productions⟩ := valid.retainReachable_exact
  have start : g.OccursInForm ⟨0⟩ := (reached _).mp (by decide +kernel)
  have third : ¬ g.OccursInForm ⟨2⟩ :=
    fun occurs => absurd ((reached _).mpr occurs) (by decide +kernel)
  have declared : g.Declares (.nonterminal ⟨2⟩) := alphabet_contains_iff.mp (by decide +kernel)
  refine ⟨valid, declared, third, pruned, ok, ?_, ?_, ?_, prunes.derives_iff _ start⟩
  · rwa [prunes.declares_iff]
  · exact (productions _).mpr ⟨by decide +kernel, start⟩
  · exact (productions _).mpr ⟨by decide +kernel, start⟩

end Reachable

section Idempotence

variable {pruned : Grammar}

theorem allProductive_of_retainProductive (ok : g.retainProductive = .ok pruned) :
    pruned.AllProductive := by
  rw [retainProductive_eq] at ok
  split at ok
  next =>
    cases ok
    exact allProductive_restrictTo_productiveSet
  next => cases ok

/-- Removing unproductive symbols changes nothing if there are none. -/
theorem WellFormed.retainProductive_eq_self (h : g.WellFormed) (all : g.AllProductive) :
    g.retainProductive = .ok g := by
  have start : g.start ∈ g.productiveSet := by
    obtain ⟨entry, there, same⟩ := List.mem_map.mp h.start_declared
    exact same ▸ mem_productiveSet_iff.mpr (all entry there)
  rw [retainProductive_eq, if_pos start, h.restrictTo_productiveSet_eq_self all]

/-- Removing unreachable symbols a second time changes nothing. -/
theorem WellFormed.retainReachable_restrictTo (h : g.WellFormed) :
    (g.restrictTo g.reachableSet).retainReachable = .ok (g.restrictTo g.reachableSet) := by
  have heads := h.grouped.heads_nodup
  have kept := h.restrictTo (start_mem_reachableSet heads)
  have all := allReachable_restrictTo_reachableSet heads
  rw [kept.retainReachable, kept.restrictTo_reachableSet_eq_self all]

end Idempotence

end Grammar

/-- Both removals are idempotent. After unproductive and then unreachable symbols have been
removed, neither removal finds any more. -/
theorem Obtained.pruning_idempotent {g : Grammar} (h : Obtained (.grammar g)) :
    (∀ pruned, g.retainProductive = .ok pruned → pruned.retainProductive = .ok pruned) ∧
      (∃ pruned, g.retainReachable = .ok pruned ∧ pruned.retainReachable = .ok pruned) ∧
      ∀ pruned, g.retainProductive = .ok pruned →
        ∃ useful, pruned.retainReachable = .ok useful ∧
          useful.retainProductive = .ok useful ∧ useful.retainReachable = .ok useful := by
  have wellFormed : g.WellFormed := h.lawful
  refine ⟨?_, ⟨_, wellFormed.retainReachable, wellFormed.retainReachable_restrictTo⟩, ?_⟩
  · intro pruned ok
    have kept : pruned.WellFormed := (h.retainProductive ok).lawful
    exact kept.retainProductive_eq_self (Grammar.allProductive_of_retainProductive ok)
  · intro pruned ok
    have kept : pruned.WellFormed := (h.retainProductive ok).lawful
    have heads := kept.grouped.heads_nodup
    have useful := kept.restrictTo (Grammar.start_mem_reachableSet heads)
    have words := (Grammar.allProductive_of_retainProductive ok).restrictTo_reachableSet heads
    refine ⟨_, kept.retainReachable, ?_, kept.retainReachable_restrictTo⟩
    exact useful.retainProductive_eq_self words

/-- The removal of the second symbol leaves the third unreachable, so both removals have something
to do, and only once. -/
theorem deadBranch_pruning_idempotent :
    let pruned := deadBranch.restrictTo deadBranch.productiveSet
    Obtained (.grammar deadBranch) ∧ deadBranch.retainProductive = .ok pruned ∧
      pruned ≠ deadBranch ∧ pruned.retainProductive = .ok pruned ∧
      ∃ useful, pruned.retainReachable = .ok useful ∧ useful ≠ pruned ∧
        useful.retainProductive = .ok useful ∧ useful.retainReachable = .ok useful := by
  intro pruned
  have ok : deadBranch.retainProductive = .ok pruned := by decide +kernel
  have changed : pruned.retainReachable ≠ .ok pruned := by decide +kernel
  obtain ⟨again, _, both⟩ := obtained_deadBranch.pruning_idempotent
  obtain ⟨useful, reached, productive, reachable⟩ := both pruned ok
  refine ⟨obtained_deadBranch, ok, by decide +kernel, again pruned ok, useful, reached, ?_,
    productive, reachable⟩
  intro same
  exact changed (same ▸ reached)

/-- In the other order an unreachable symbol is left. -/
example :
    (deadBranch.retainReachable.bind Grammar.retainProductive).bind Grammar.retainReachable ≠
      deadBranch.retainReachable.bind Grammar.retainProductive := by decide +kernel

end ContextFree
