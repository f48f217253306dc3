import ContextFree.Proofs.Loading

/-!
# Declared and inferred alphabets

A text can be loaded over the alphabets that its rules suggest or over declared ones. Declaring
the suggested alphabets gives the same symbols the same numbers, and naming the first head as the
start symbol chooses what is chosen without a name. The start symbol is looked up before the rules
are added, but no rule depends on it, so even the errors are the same.

## Main statements

* `finishNamed_inferred`: naming the first head as the start symbol changes nothing.
* `Grammar.ofSource_declaring`: declared and inferred alphabets load alike.
-/

namespace ContextFree

open Source Declarations

/-- A fold commutes with a change of its state if every step does. -/
theorem foldlM_map_state {ε α β : Type} (f : β → β) {step : β → α → Except ε β}
    (comm : ∀ s a, step (f s) a = (step s a).map f) (as : List α) (s : β) :
    as.foldlM step (f s) = (as.foldlM step s).map f := by
  induction as generalizing s with
  | nil => rfl
  | cons a rest ih =>
      rw [List.foldlM_cons, List.foldlM_cons, comm]
      cases step s a with
      | error e => rfl
      | ok t => exact ih t

namespace Definition

variable {d : Definition} {start : NonterminalId} {rules : List Source.Rule}

/-- Rules are added alike whatever the start symbol is. -/
theorem foldlM_addNamedRule_setStart (d : Definition) (start : NonterminalId)
    (rules : List Source.Rule) :
    rules.foldlM addNamedRule (d.setStart start) =
      (rules.foldlM addNamedRule d).map (setStart · start) := by
  refine foldlM_map_state (setStart · start) (fun s r => ?_) rules d
  have lookup : (s.setStart start).lookupNonterminal r.head = s.lookupNonterminal r.head := rfl
  rw [addNamedRule, addNamedRule, lookup]
  cases s.lookupNonterminal r.head with
  | error e => rfl
  | ok head =>
      refine foldlM_map_state (setStart · start) (fun t body => ?_) r.bodies s
      have symbols : body.mapM (t.setStart start).lookup = body.mapM t.lookup := rfl
      rw [symbols]
      cases body.mapM t.lookup with
      | error e => rfl
      | ok symbols => rfl

/-- Adding rules changes neither the nonterminals nor the start symbol. -/
theorem kept_of_foldlM_addNamedRule {next : Definition}
    (ok : rules.foldlM addNamedRule d = .ok next) :
    next.nonterminals = d.nonterminals ∧ next.start = d.start := by
  refine foldlM_invariant (fun s => s.nonterminals = d.nonterminals ∧ s.start = d.start)
    (fun s r t hs step => ?_) ⟨rfl, rfl⟩ ok
  unfold addNamedRule at step
  obtain ⟨head, _, step⟩ := bind_eq_ok_iff.mp step
  refine foldlM_invariant (fun s => s.nonterminals = d.nonterminals ∧ s.start = d.start)
    (fun s body t hs add => ?_) hs step
  obtain ⟨symbols, _, add⟩ := bind_eq_ok_iff.mp add
  exact Except.ok.inj add ▸ hs

/-- Choosing explicitly what would be chosen anyway changes nothing. -/
theorem finish_setStart (h : d.chosenStart? = some start) :
    (d.setStart start).finish = d.finish := by
  have chosen : (d.setStart start).chosenStart? = some start := rfl
  rw [finish, finish, chosen, h]
  rfl

end Definition

namespace Declarations

open Definition

variable {rules : List Source.Rule}

/-- Naming the first head as the start symbol changes nothing. -/
theorem finishNamed_inferred {first : Source.Rule} (h : rules.head? = some first)
    (indexed : (inferred rules).Indexed) :
    (inferred rules).finishNamed (some first.head) rules =
      (inferred rules).finishNamed none rules := by
  have found : (inferred rules).setNamedStart (some first.head) =
      .ok ((inferred rules).setStart ⟨0⟩) := by
    rw [setNamedStart, lookupNonterminal, lookup, (indexed _ _).mpr (names_first_head h)]
    rfl
  have nonempty : rules ≠ [] := by
    rintro rfl
    cases h
  have chosen : (inferred rules).chosenStart? = some ⟨0⟩ := chosenStart?_inferred [] nonempty
  rw [finishNamed, finishNamed, found]
  change rules.foldlM _ ((inferred rules).setStart ⟨0⟩) >>= finish =
    rules.foldlM _ (inferred rules) >>= finish
  rw [foldlM_addNamedRule_setStart]
  cases added : rules.foldlM addNamedRule (inferred rules) with
  | error e => rfl
  | ok d =>
      obtain ⟨nonterminals, start⟩ := kept_of_foldlM_addNamedRule added
      apply finish_setStart
      rw [← chosen, chosenStart?, chosenStart?, nonterminals, start]

end Declarations

section Source

open Definition

variable {source : String} {rules : List Source.Rule} {start : Option String}

/-- Declaring the heads of a text as nonterminals and all other names as terminals, each in the
order of first occurrence, with the first head as the start symbol or without one, gives the same
grammar as inferring the alphabets, or the same error. -/
theorem Grammar.ofSource_declaring (parsed : parse source = .ok rules)
    (chosen : start = none ∨ ∃ first, rules.head? = some first ∧ start = some first.head) :
    ofSource source
        { nonterminals := (rules.map Source.Rule.head).eraseDups
          terminals := ((rules.flatMap fun r => r.bodies.flatten).filter
            (· ∉ rules.map Source.Rule.head)).eraseDups
          start := start } =
      ofSource source {} := by
  have nonempty : rules ≠ [] := (parse_eq_ok_iff.mp parsed).1
  have declared : (rules.map Source.Rule.head).eraseDups.isEmpty = false := by
    obtain ⟨first, rest, rfl⟩ := List.exists_cons_of_ne_nil nonempty
    rw [List.map_cons, List.eraseDups_cons, List.isEmpty_cons]
  have symbols : Declarations.hasNoSymbols { infer rules with start := start } = false := by
    rw [hasNoSymbols, nonterminals_infer, declared, Bool.false_and]
  rw [ofSource, ofSource, parsed, ← nonterminals_infer, ← terminals_infer]
  change ofRules rules { infer rules with start := start } = ofRules rules {}
  have inferring : ofRules rules {} = { infer rules with start := none }.define rules :=
    ofRules_eq_define_infer rfl
  rw [inferring, ofRules, symbols, if_neg Bool.false_ne_true, define, define]
  cases heads : Definition.declareAll ∅ .nonterminal (infer rules).nonterminals with
  | error e => rfl
  | ok d =>
      obtain rfl : d = headed rules := eq_addAll_of_declareAll heads
      change (headed rules).declareAll _ _ >>= _ = (headed rules).declareAll _ _ >>= _
      cases others : (headed rules).declareAll .terminal (infer rules).terminals with
      | error e => rfl
      | ok d =>
          obtain rfl : d = inferred rules := eq_addAll_of_declareAll others
          have indexed := (indexed_empty.declareAll heads).declareAll others
          change (inferred rules).finishNamed start rules = (inferred rules).finishNamed none rules
          cases chosen with
          | inl unnamed => rw [unnamed]
          | inr named =>
              obtain ⟨first, head, named⟩ := named
              rw [named, finishNamed_inferred head indexed]

/-- Matched pairs of letters, as they are loaded. -/
def matchedPairs : Grammar where
  terminals := [⟨⟨0⟩, "a"⟩, ⟨⟨1⟩, "b"⟩, ⟨⟨2⟩, "c"⟩]
  nonterminals := [⟨⟨0⟩, .declared "S"⟩, ⟨⟨1⟩, .declared "T"⟩]
  families :=
    [ ⟨⟨0⟩, [[.terminal ⟨0⟩, .nonterminal ⟨0⟩, .terminal ⟨1⟩], [.nonterminal ⟨1⟩]]⟩,
      ⟨⟨1⟩, [[.terminal ⟨2⟩], []]⟩ ]
  start := ⟨0⟩
  nextNonterminal := 2

/-- Over declared alphabets a text loads as over inferred ones, and a symbol that is no name is
refused alike. -/
theorem matchedPairs_ofSource_declaring :
    parse "S -> aSb | T; T -> c | ε" = .ok [⟨"S", [["a", "S", "b"], ["T"]]⟩, ⟨"T", [["c"], []]⟩] ∧
      Grammar.ofSource "S -> aSb | T; T -> c | ε" ⟨["S", "T"], ["a", "b", "c"], some "S"⟩ =
        .ok matchedPairs ∧
      Grammar.ofSource "S -> aSb | T; T -> c | ε" {} = .ok matchedPairs ∧
      parse "S -> a$" = .ok [⟨"S", [["a", "$"]]⟩] ∧
      Grammar.ofSource "S -> a$" ⟨["S"], ["a", "$"], none⟩ = .error (.invalidName "$") ∧
      Grammar.ofSource "S -> a$" {} = .error (.invalidName "$") := by
  have parsed : parse "S -> aSb | T; T -> c | ε" =
      .ok [⟨"S", [["a", "S", "b"], ["T"]]⟩, ⟨"T", [["c"], []]⟩] := by decide +kernel
  have loaded : Grammar.ofSource "S -> aSb | T; T -> c | ε" {} = .ok matchedPairs := by
    decide +kernel
  have parsedDollar : parse "S -> a$" = .ok [⟨"S", [["a", "$"]]⟩] := by decide +kernel
  have refused : Grammar.ofSource "S -> a$" {} = .error (.invalidName "$") := by decide +kernel
  refine ⟨parsed, ?_, loaded, parsedDollar, ?_, refused⟩
  · exact (Grammar.ofSource_declaring parsed (Or.inr ⟨_, rfl, rfl⟩)).trans loaded
  · exact (Grammar.ofSource_declaring parsedDollar (Or.inl rfl)).trans refused

end Source

end ContextFree
