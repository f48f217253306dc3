import ContextFree.Proofs.Definition
import ContextFree.Definition.Script

/-!
# Definitions by single calls

A definition is built by calls that declare a symbol, add a rule or choose the start symbol. Only a
declaration can be refused, and a refused declaration leaves no trace: the calls that were not
refused have the same outcome by themselves. What a declaration is answered depends on the calls so
far and their answers alone, and so does the grammar that is accepted in the end.

## Implementation notes

A transcript lists the calls with their answers. `Records` relates a definition to the transcript
that leads to it. It holds after every call, so each answer can be read off the transcript before
it.

## Main statements

* `Records.apply`: one call keeps the definition recorded.
* `Records.follow`: so do all calls, one after the other.
* `run_ignoring_refusals`: the answers and the outcome of any calls.
-/

namespace ContextFree

/-- What a name is, in terms of its characters. -/
theorem isName_iff {name : String} :
    isName name = true ↔ name.toList ≠ [] ∧ name.toList.head? ≠ some '$' ∧
      ∀ c ∈ name.toList, isWhiteSpace c = false := by
  unfold isName
  cases name.toList with
  | nil => simp
  | cons c rest => simp

namespace Definition

/-- A single request to a definition. -/
inductive Call where
  | declare (kind : Kind) (name : String)
  | rule (head : NonterminalId) (body : Body)
  | start (n : NonterminalId)
  deriving DecidableEq

/-- The step of a script that makes this call. -/
def Call.step : Call → Step
  | declare kind name => .declare kind name
  | rule head body => .rule head body
  | start n => .start n

/-- Calls with their answers. -/
abbrev Transcript := List (Call × Answer)

namespace Transcript

/-- The names that were declared with a kind, without the refused ones. -/
def declared (t : Transcript) (kind : Kind) : List String :=
  t.filterMap fun
    | (.declare k name, .ok _) => if k = kind then some name else none
    | _ => none

/-- All productions that were given. -/
def rules (t : Transcript) : List Production :=
  t.filterMap fun
    | (.rule head body, _) => some ⟨head, body⟩
    | _ => none

/-- The last start symbol that was given. -/
def givenStart? (t : Transcript) : Option NonterminalId :=
  (t.filterMap fun
    | (.start n, _) => some n
    | _ => none).getLast?

/-- The first nonterminal that was declared. -/
def first? (t : Transcript) : Option NonterminalId :=
  t.findSome? fun
    | (.declare .nonterminal _, .ok (some (.nonterminal n))) => some n
    | _ => none

/-- The last start symbol that was given, or else the first nonterminal. -/
def chosenStart? (t : Transcript) : Option NonterminalId := t.givenStart?.or t.first?

/-- Whether some declaration was answered by this symbol. -/
def Declares (t : Transcript) (s : Symbol) : Prop :=
  ∃ kind name, (.declare kind name, .ok (some s)) ∈ t

section Append

variable {t u : Transcript} {kind : Kind} {s : Symbol}

theorem declared_append : (t ++ u).declared kind = t.declared kind ++ u.declared kind :=
  List.filterMap_append

theorem rules_append : (t ++ u).rules = t.rules ++ u.rules := List.filterMap_append

theorem givenStart?_append : (t ++ u).givenStart? = u.givenStart?.or t.givenStart? := by
  rw [givenStart?, List.filterMap_append, List.getLast?_append]
  rfl

theorem first?_append : (t ++ u).first? = t.first?.or u.first? := List.findSome?_append

theorem declares_append : (t ++ u).Declares s ↔ t.Declares s ∨ u.Declares s := by
  simp only [Declares, List.mem_append, exists_or]

theorem declares_singleton {c : Call} {answer : Answer} :
    Declares [(c, answer)] s ↔ (∃ kind name, c = .declare kind name) ∧ answer = .ok (some s) := by
  simp only [Declares, List.mem_singleton, Prod.mk.injEq]
  constructor
  · rintro ⟨kind, name, same, answered⟩
    exact ⟨⟨kind, name, same.symm⟩, answered.symm⟩
  · rintro ⟨⟨kind, name, same⟩, answered⟩
    exact ⟨kind, name, same.symm, answered.symm⟩

end Append

/-- The calls that were not refused. -/
def accepted (t : Transcript) : List Call := (t.filter fun entry => entry.2.isOk).map Prod.fst

/-- The grammar that these calls define with a start symbol. -/
def toGrammar (t : Transcript) (start : NonterminalId) : Grammar where
  terminals := (t.declared .terminal).mapIdx fun i name => ⟨⟨i⟩, name⟩
  nonterminals := (t.declared .nonterminal).mapIdx fun i name => ⟨⟨i⟩, .declared name⟩
  families := group t.rules
  start := start
  nextNonterminal := (t.declared .nonterminal).length

/-- When a symbol can be declared after these calls. -/
structure Admits (t : Transcript) (kind : Kind) (name : String) : Prop where
  room : (t.declared kind).length < idLimit
  nonempty : name.toList ≠ []
  no_dollar : name.toList.head? ≠ some '$'
  no_white_space : ∀ c ∈ name.toList, isWhiteSpace c = false
  unused : ∀ k, name ∉ t.declared k

/-- When these calls define a grammar. -/
structure Complete (t : Transcript) : Prop where
  start_declared : ∃ start, t.chosenStart? = some start ∧ t.Declares (.nonterminal start)
  rules_declared : ∀ p ∈ t.rules, t.Declares (.nonterminal p.head) ∧ ∀ s ∈ p.body, t.Declares s

end Transcript

/-- The definition that calls leave, with refusals ignored. -/
def follow (d : Definition) (calls : List Call) : Definition :=
  calls.foldl (fun d c => (d.apply c.step).2) d

/-- The calls with the answers they get, with refusals ignored. -/
def transcript : Definition → List Call → Transcript
  | _, [] => []
  | d, c :: rest => (c, (d.apply c.step).1) :: transcript (d.apply c.step).2 rest

variable {d : Definition} {t : Transcript} {kind : Kind} {name : String} {start : NonterminalId}

section Symbols

/-- The names declared with a kind. -/
def namesOf (d : Definition) : Kind → List String
  | .terminal => d.terminals.toList.map Terminal.name
  | .nonterminal => d.nonterminals.toList.filterMap Nonterminal.declaredName?

theorem Consistent.length_namesOf (h : d.Consistent) (kind : Kind) :
    (d.namesOf kind).length = d.next kind := by
  cases kind with
  | terminal =>
      have numbered := congrArg List.length h.terminal_ids
      rw [List.length_map, List.length_map, List.length_range] at numbered
      rw [namesOf, List.length_map, numbered, next]
  | nonterminal =>
      have numbered := congrArg List.length h.nonterminal_ids
      rw [List.length_map, List.length_map, List.length_range] at numbered
      have named := List.filterMap_length_eq_length.mpr h.origins_declared
      exact named.trans numbered

/-- In a numbered table the entry at a place has the number of the place. -/
theorem id_of_getElem? {α : Type} {k : Kind} {table : List α} {id : α → Id k} {size i : Nat}
    {a : α} (numbered : table.map id = (List.range size).map Id.mk) (found : table[i]? = some a) :
    id a = ⟨i⟩ := by
  have entry : (table.map id)[i]? = some (id a) := by rw [List.getElem?_map, found, Option.map_some]
  rw [numbered, List.getElem?_map] at entry
  obtain ⟨j, place, same⟩ := Option.map_eq_some_iff.mp entry
  obtain ⟨inside, rfl⟩ := List.getElem?_eq_some_iff.mp place
  rw [← same, List.getElem_range]

theorem Consistent.terminals_eq (h : d.Consistent) :
    d.terminals.toList = (d.namesOf .terminal).mapIdx fun i name => ⟨⟨i⟩, name⟩ := by
  apply List.ext_getElem?
  intro i
  rw [List.getElem?_mapIdx, namesOf, List.getElem?_map]
  cases found : d.terminals.toList[i]? with
  | none => rfl
  | some t => rw [Option.map_some, Option.map_some, ← id_of_getElem? h.terminal_ids found]

theorem map_origin_eq {nonterminals : List Nonterminal}
    (named : ∀ n ∈ nonterminals, n.declaredName?.isSome = true) :
    nonterminals.map Nonterminal.origin =
      (nonterminals.filterMap Nonterminal.declaredName?).map .declared := by
  induction nonterminals with
  | nil => rfl
  | cons n rest ih =>
      obtain ⟨name, first⟩ := Option.isSome_iff_exists.mp (named n List.mem_cons_self)
      have tail := ih fun m member => named m (List.mem_cons_of_mem _ member)
      rw [List.filterMap_cons_some first, List.map_cons, List.map_cons, tail,
        Nonterminal.origin_of_declaredName? first]

theorem Consistent.nonterminals_eq (h : d.Consistent) :
    d.nonterminals.toList =
      (d.namesOf .nonterminal).mapIdx fun i name => ⟨⟨i⟩, .declared name⟩ := by
  have origins := map_origin_eq h.origins_declared
  apply List.ext_getElem?
  intro i
  have origin := congrArg (·[i]?) origins
  rw [List.getElem?_map, List.getElem?_map] at origin
  rw [List.getElem?_mapIdx, namesOf]
  cases found : d.nonterminals.toList[i]? with
  | none =>
      rw [found] at origin
      rw [Option.map_eq_none_iff.mp origin.symm, Option.map_none]
  | some n =>
      rw [found] at origin
      obtain ⟨name, place, declared⟩ := Option.map_eq_some_iff.mp origin.symm
      rw [place, Option.map_some, declared, ← id_of_getElem? h.nonterminal_ids found]

theorem mem_declaredNames_iff : name ∈ d.declaredNames ↔ ∃ kind, name ∈ d.namesOf kind := by
  rw [declaredNames, List.mem_append]
  constructor
  · rintro (terminal | nonterminal)
    · exact ⟨.terminal, terminal⟩
    · exact ⟨.nonterminal, nonterminal⟩
  · rintro ⟨kind, member⟩
    cases kind with
    | terminal => exact Or.inl member
    | nonterminal => exact Or.inr member

theorem namesOf_add (d : Definition) (kind k : Kind) (name : String) :
    (d.add kind name).namesOf k = d.namesOf k ++ if kind = k then [name] else [] := by
  cases kind with
  | terminal =>
      cases k with
      | terminal => simp [namesOf, add, enter]
      | nonterminal => simp [namesOf, add, enter]
  | nonterminal =>
      cases k with
      | terminal => simp [namesOf, add, enter]
      | nonterminal => simp [namesOf, add, enter, Nonterminal.declaredName?, Origin.declaredName?]

theorem declares_add {s : Symbol} :
    ((d.add kind name).toGrammar start).Declares s ↔
      (d.toGrammar start).Declares s ∨ s = d.nextSymbol kind := by
  cases kind with
  | terminal =>
      cases s with
      | terminal t => simp [Grammar.Declares, toGrammar, add, enter, nextSymbol, Kind.symbol, next]
      | nonterminal n =>
          simp [Grammar.Declares, toGrammar, add, enter, nextSymbol, Kind.symbol, next]
  | nonterminal =>
      cases s with
      | terminal t => simp [Grammar.Declares, toGrammar, add, enter, nextSymbol, Kind.symbol, next]
      | nonterminal n =>
          simp [Grammar.Declares, toGrammar, add, enter, nextSymbol, Kind.symbol, next]

end Symbols

section Answers

theorem isName_and_unused_iff (h : d.Consistent) :
    isName name = true ∧ d.names.contains name = false ↔
      (name.toList ≠ [] ∧ name.toList.head? ≠ some '$' ∧
        ∀ c ∈ name.toList, isWhiteSpace c = false) ∧ ∀ k, name ∉ d.namesOf k := by
  rw [isName_iff, ← Bool.not_eq_true, h.mem_names, mem_declaredNames_iff, not_exists]

theorem refusal?_eq_none_iff :
    d.refusal? kind name = none ↔
      d.next kind < idLimit ∧ isName name = true ∧ d.names.contains name = false := by
  constructor
  · exact refusal?_eq_none
  · rintro ⟨room, valid, unused⟩
    rw [refusal?, if_pos room, if_pos valid, if_neg (Bool.eq_false_iff.mp unused)]

/-- What a declaration does and answers. -/
theorem apply_declare (d : Definition) (kind : Kind) (name : String) :
    (∃ e, d.refusal? kind name = some e ∧ d.apply (Call.declare kind name).step = (.error e, d)) ∨
      (d.refusal? kind name = none ∧ d.apply (Call.declare kind name).step =
        (.ok (some (d.nextSymbol kind)), d.add kind name)) := by
  rw [Call.step, Definition.apply, register_eq]
  cases d.refusal? kind name with
  | some e => exact Or.inl ⟨e, rfl, rfl⟩
  | none => exact Or.inr ⟨rfl, rfl⟩

/-- A refused call leaves no trace. -/
theorem apply_of_error {c : Call} {e : DefinitionError} (refused : (d.apply c.step).1 = .error e) :
    (d.apply c.step).2 = d := by
  cases c with
  | declare kind name =>
      obtain ⟨_, _, step⟩ | ⟨_, step⟩ := apply_declare d kind name
      · rw [step]
      · rw [step] at refused
        cases refused
  | rule head body => cases refused
  | start n => cases refused

end Answers

section Records

/-- A definition holds what the calls that lead to it have declared and given. -/
structure Records (d : Definition) (t : Transcript) : Prop where
  consistent : d.Consistent
  names : ∀ kind, d.namesOf kind = t.declared kind
  declares : ∀ start s, (d.toGrammar start).Declares s ↔ t.Declares s
  rules : d.rules.toList = t.rules
  start : d.start = t.givenStart?
  first : d.nonterminals.toList.head?.map Nonterminal.id = t.first?

theorem records_empty : (∅ : Definition).Records [] where
  consistent := consistent_empty
  names kind := by
    cases kind with
    | terminal => rfl
    | nonterminal => rfl
  declares start s := by
    apply iff_of_false
    · cases s with
      | terminal t => exact List.not_mem_nil
      | nonterminal n => exact List.not_mem_nil
    · rintro ⟨_, _, member⟩
      cases member
  rules := rfl
  start := rfl
  first := rfl

namespace Records

/-- A refused declaration is recorded by an entry that declares and gives nothing. -/
theorem refused (h : d.Records t) (e : DefinitionError) :
    d.Records (t ++ [(.declare kind name, .error e)]) where
  consistent := h.consistent
  names k := by
    rw [Transcript.declared_append, h.names]
    exact (List.append_nil _).symm
  declares start s := by
    rw [Transcript.declares_append, Transcript.declares_singleton, h.declares]
    simp
  rules := by
    rw [Transcript.rules_append, h.rules]
    exact (List.append_nil _).symm
  start := by
    rw [Transcript.givenStart?_append, h.start]
    rfl
  first := by
    rw [Transcript.first?_append, h.first]
    cases kind with
    | terminal => exact Option.or_none.symm
    | nonterminal => exact Option.or_none.symm

theorem add (h : d.Records t) (accepted : d.refusal? kind name = none) :
    (d.add kind name).Records (t ++ [(.declare kind name, .ok (some (d.nextSymbol kind)))]) where
  consistent := h.consistent.add accepted
  names k := by
    rw [namesOf_add, Transcript.declared_append, h.names]
    by_cases same : kind = k
    · simp [Transcript.declared, same]
    · simp [Transcript.declared, same]
  declares start s := by
    rw [declares_add, Transcript.declares_append, Transcript.declares_singleton, h.declares]
    simp [eq_comm]
  rules := by
    rw [Transcript.rules_append, ← h.rules]
    cases kind with
    | terminal => exact (List.append_nil _).symm
    | nonterminal => exact (List.append_nil _).symm
  start := by
    rw [Transcript.givenStart?_append, ← h.start]
    cases kind with
    | terminal => rfl
    | nonterminal => rfl
  first := by
    rw [Transcript.first?_append, ← h.first]
    cases kind with
    | terminal => exact Option.or_none.symm
    | nonterminal =>
        rw [Definition.add, enter, Array.toList_push, List.head?_append, Option.map_or]
        rfl

theorem addRule (h : d.Records t) (head : NonterminalId) (body : Body) (answer : Answer) :
    (d.addRule head body).Records (t ++ [(.rule head body, answer)]) where
  consistent := h.consistent.addRule head body
  names k := by
    rw [Transcript.declared_append, ← h.names]
    exact (List.append_nil _).symm
  declares start s := by
    change (d.toGrammar start).Declares s ↔ _
    rw [Transcript.declares_append, Transcript.declares_singleton, h.declares]
    simp
  rules := by
    rw [Transcript.rules_append, ← h.rules, Definition.addRule, Array.toList_push]
    rfl
  start := by
    rw [Transcript.givenStart?_append, ← h.start]
    rfl
  first := by
    rw [Transcript.first?_append, ← h.first]
    exact Option.or_none.symm

theorem setStart (h : d.Records t) (n : NonterminalId) (answer : Answer) :
    (d.setStart n).Records (t ++ [(.start n, answer)]) where
  consistent := h.consistent.setStart n
  names k := by
    rw [Transcript.declared_append, ← h.names]
    exact (List.append_nil _).symm
  declares start s := by
    change (d.toGrammar start).Declares s ↔ _
    rw [Transcript.declares_append, Transcript.declares_singleton, h.declares]
    simp
  rules := by
    rw [Transcript.rules_append, ← h.rules]
    exact (List.append_nil _).symm
  start := by
    rw [Transcript.givenStart?_append]
    rfl
  first := by
    rw [Transcript.first?_append, ← h.first]
    exact Option.or_none.symm

/-- One call, refused or not, is recorded with its answer. -/
theorem apply (h : d.Records t) (c : Call) :
    (d.apply c.step).2.Records (t ++ [(c, (d.apply c.step).1)]) := by
  cases c with
  | declare kind name =>
      obtain ⟨e, _, step⟩ | ⟨accepted, step⟩ := apply_declare d kind name
      · rw [step]
        exact h.refused e
      · rw [step]
        exact h.add accepted
  | rule head body => exact h.addRule head body _
  | start n => exact h.setStart n _

/-- All calls are recorded with their answers. -/
theorem follow (h : d.Records t) (calls : List Call) :
    (d.follow calls).Records (t ++ transcript d calls) := by
  induction calls generalizing d t with
  | nil =>
      rw [transcript, List.append_nil]
      exact h
  | cons c rest ih =>
      have next := ih (h.apply c)
      rwa [List.append_assoc] at next

end Records

end Records

section Runs

theorem map_fst_transcript (d : Definition) (calls : List Call) :
    (transcript d calls).map Prod.fst = calls := by
  induction calls generalizing d with
  | nil => rfl
  | cons c rest ih => rw [transcript, List.map_cons, ih]

theorem zip_transcript (d : Definition) (calls : List Call) :
    calls.zip ((transcript d calls).map Prod.snd) = transcript d calls := by
  have zipped := List.zip_unzip (transcript d calls)
  rwa [List.unzip_eq_map, map_fst_transcript] at zipped

/-- A script of calls that does not stop early gives the transcript and what the definition at
its end gives. -/
theorem runOnto_calls {lenient : Bool} {calls : List Call}
    (unstopped : lenient = true ∨ ∀ entry ∈ transcript d calls, entry.2.isOk = true)
    (answers : Array Answer) :
    runOnto lenient answers d (calls.map Call.step) =
      ⟨answers.toList ++ (transcript d calls).map Prod.snd, (d.follow calls).finish⟩ := by
  induction calls generalizing d answers with
  | nil => simp [runOnto, transcript, follow]
  | cons c rest ih =>
      have later : lenient = true ∨
          ∀ entry ∈ transcript (d.apply c.step).2 rest, entry.2.isOk = true :=
        unstopped.imp_right fun all entry member => all entry (List.mem_cons_of_mem _ member)
      have tail := ih later
      rw [List.map_cons, runOnto]
      cases step : d.apply c.step with
      | mk answer next =>
          rw [step] at tail
          have start : transcript d (c :: rest) = (c, answer) :: transcript next rest := by
            rw [transcript, step]
          have finish : d.follow (c :: rest) = next.follow rest := by
            rw [follow, List.foldl_cons, step, follow]
          rw [start] at unstopped ⊢
          rw [finish]
          cases answer with
          | ok last => simpa using tail (answers.push (.ok last))
          | error e =>
              cases unstopped with
              | inl lenient => simpa [lenient] using tail (answers.push (.error e))
              | inr all => cases all _ List.mem_cons_self

/-- Every answer is the answer to its call after the calls before it. -/
theorem exists_of_transcript_eq_append {calls : List Call} {before after : Transcript} {c : Call}
    {answer : Answer} (h : transcript d calls = before ++ (c, answer) :: after) :
    ∃ earlier, before = transcript d earlier ∧
      answer = ((d.follow earlier).apply c.step).1 := by
  induction before generalizing d calls with
  | nil =>
      cases calls with
      | nil => cases h
      | cons first rest =>
          cases h
          exact ⟨[], rfl, rfl⟩
  | cons entry before ih =>
      cases calls with
      | nil => cases h
      | cons first rest =>
          obtain ⟨head, tail⟩ := List.cons.inj h
          obtain ⟨earlier, same, answered⟩ := ih tail
          refine ⟨first :: earlier, ?_, answered⟩
          rw [transcript, ← same, head]

/-- The calls that were not refused lead to the same definition, and none of them is refused. -/
theorem follow_accepted (d : Definition) (calls : List Call) :
    d.follow (transcript d calls).accepted = d.follow calls ∧
      transcript d (transcript d calls).accepted =
        (transcript d calls).filter fun entry => entry.2.isOk := by
  induction calls generalizing d with
  | nil => exact ⟨rfl, rfl⟩
  | cons c rest ih =>
      obtain ⟨last, entries⟩ := ih (d.apply c.step).2
      rw [transcript]
      cases answer : (d.apply c.step).1 with
      | error e =>
          have unchanged := apply_of_error answer
          rw [unchanged] at last entries ⊢
          have same : d.follow (c :: rest) = d.follow rest := by
            rw [follow, List.foldl_cons, unchanged, follow]
          exact ⟨last.trans same.symm, entries⟩
      | ok s =>
          constructor
          · exact last
          · change transcript d (c :: Transcript.accepted _) = (c, .ok s) :: List.filter _ _
            rw [transcript, answer, entries]

end Runs

section Outcome

/-- A definition is accepted exactly if its start symbol and all symbols in its rules are
declared. -/
theorem Consistent.exists_finish_iff (h : d.Consistent) :
    (∃ g, d.finish = .ok g) ↔
      ∃ start, d.chosenStart? = some start ∧
        (d.toGrammar start).Declares (.nonterminal start) ∧
        ∀ p ∈ d.rules.toList, (d.toGrammar start).Declares (.nonterminal p.head) ∧
          ∀ s ∈ p.body, (d.toGrammar start).Declares s := by
  constructor
  · rintro ⟨g, finished⟩
    obtain ⟨start, chosen, rfl, _⟩ := finish_eq_ok_iff.mp finished
    have wellFormed := h.finish finished
    refine ⟨start, chosen, wellFormed.start_declared, ?_⟩
    intro p hp
    have member : p ∈ (d.toGrammar start).productions := mem_productions_toGrammar.mpr hp
    exact ⟨wellFormed.head_declared p member, wellFormed.body_declared p member⟩
  · rintro ⟨start, chosen, declared, rules⟩
    have wellFormed := h.wellFormed_toGrammar declared rules
    exact ⟨_, finish_eq_ok_iff.mpr ⟨start, chosen, rfl, wellFormed.violation?_eq_none⟩⟩

namespace Records

theorem chosenStart? (h : d.Records t) : d.chosenStart? = t.chosenStart? := by
  rw [Definition.chosenStart?, Transcript.chosenStart?, ← h.start, ← h.first,
    List.head?_eq_getElem?, Array.getElem?_toList]
  cases d.start with
  | none => rfl
  | some start => rfl

/-- A declaration is not refused exactly if the calls before it leave room for it. -/
theorem refusal?_eq_none_iff (h : d.Records t) :
    d.refusal? kind name = none ↔ t.Admits kind name := by
  have count : d.next kind = (t.declared kind).length := by
    rw [← h.names, h.consistent.length_namesOf]
  rw [Definition.refusal?_eq_none_iff, isName_and_unused_iff h.consistent, count]
  simp only [h.names]
  constructor
  · rintro ⟨room, ⟨nonempty, noDollar, noWhiteSpace⟩, unused⟩
    exact ⟨room, nonempty, noDollar, noWhiteSpace, unused⟩
  · rintro ⟨room, nonempty, noDollar, noWhiteSpace, unused⟩
    exact ⟨room, ⟨nonempty, noDollar, noWhiteSpace⟩, unused⟩

/-- A declaration is answered by the next symbol of its kind, unless it is refused. -/
theorem answer_declare (h : d.Records t) {answer : Answer}
    (answered : answer = (d.apply (Call.declare kind name).step).1) :
    (answer.isOk = true ↔ t.Admits kind name) ∧
      ∀ s, answer = .ok s → s = some (kind.symbol (t.declared kind).length) := by
  rw [← h.refusal?_eq_none_iff, answered]
  obtain ⟨e, refused, step⟩ | ⟨accepted, step⟩ := apply_declare d kind name
  · rw [step, refused]
    simp [Except.isOk, Except.toBool]
  · rw [step, accepted, nextSymbol, ← h.consistent.length_namesOf, h.names]
    simp [Except.isOk, Except.toBool]

/-- The tables of the definition are those that the calls have declared and given. -/
theorem toGrammar_eq (h : d.Records t) (start : NonterminalId) :
    d.toGrammar start = t.toGrammar start := by
  have terminals := h.consistent.terminals_eq
  have nonterminals := h.consistent.nonterminals_eq
  have size := h.consistent.length_namesOf .nonterminal
  rw [h.names] at terminals nonterminals size
  rw [Definition.toGrammar, Transcript.toGrammar, terminals, nonterminals, h.rules, size, next]

/-- A grammar that the definition gives is made up of what the calls have declared and given. -/
theorem eq_toGrammar_of_finish (h : d.Records t) {g : Grammar} (finished : d.finish = .ok g) :
    ∃ start, t.chosenStart? = some start ∧ g = t.toGrammar start := by
  obtain ⟨start, chosen, rfl, _⟩ := finish_eq_ok_iff.mp finished
  exact ⟨start, h.chosenStart? ▸ chosen, h.toGrammar_eq start⟩

/-- The definition gives a grammar exactly if the calls are complete. -/
theorem exists_finish_iff (h : d.Records t) : (∃ g, d.finish = .ok g) ↔ t.Complete := by
  rw [h.consistent.exists_finish_iff]
  simp only [h.declares, h.rules, h.chosenStart?]
  constructor
  · rintro ⟨start, chosen, declared, rules⟩
    exact ⟨⟨start, chosen, declared⟩, rules⟩
  · rintro ⟨⟨start, chosen, declared⟩, rules⟩
    exact ⟨start, chosen, declared, rules⟩

end Records

/-- What becomes of a series of calls whose refusals are ignored. A refused call changes nothing, so
the other calls by themselves have the same answers and the same outcome. Declarations are answered
by consecutive symbols of their kind, as long as there is room and the name is valid and new. A
grammar is defined exactly if its start symbol and all symbols in its rules were declared. It then
has the declared symbols, the given rules grouped by head, and the last start symbol that was given
or else the first nonterminal. -/
theorem run_ignoring_refusals (calls : List Call) :
    let outcome := run true (calls.map Call.step)
    let history : Transcript := calls.zip outcome.answers
    outcome.answers.length = calls.length ∧
    (∀ (d : Definition) (c : Call) (e : DefinitionError),
      (d.apply c.step).1 = .error e → (d.apply c.step).2 = d) ∧
    (∀ lenient, run lenient (history.accepted.map Call.step) =
      ⟨outcome.answers.filter Except.isOk, outcome.grammar⟩) ∧
    (∀ (before after : Transcript) (kind : Kind) (name : String) (answer : Answer),
      history = before ++ (.declare kind name, answer) :: after →
        (answer.isOk = true ↔ before.Admits kind name) ∧
        ∀ s, answer = .ok s → s = some (kind.symbol (before.declared kind).length)) ∧
    ((∃ g, outcome.grammar = .ok g) ↔ history.Complete) ∧
    ∀ g, outcome.grammar = .ok g →
      ∃ start, history.chosenStart? = some start ∧ g = history.toGrammar start := by
  intro outcome history
  have ran : outcome = ⟨(transcript ∅ calls).map Prod.snd, (follow ∅ calls).finish⟩ :=
    runOnto_calls (Or.inl rfl) #[]
  have entries : history = transcript ∅ calls := by
    change calls.zip outcome.answers = _
    rw [ran, zip_transcript]
  have recorded : (follow ∅ calls).Records (transcript ∅ calls) := records_empty.follow calls
  rw [entries, ran]
  refine ⟨?_, ?_, ?_, ?_, recorded.exists_finish_iff, fun g => recorded.eq_toGrammar_of_finish⟩
  · change ((transcript ∅ calls).map Prod.snd).length = _
    rw [List.length_map, ← List.length_map (f := Prod.fst), map_fst_transcript]
  · intro d c e
    exact apply_of_error
  · intro lenient
    obtain ⟨last, kept⟩ := follow_accepted ∅ calls
    have unstopped : ∀ entry ∈ transcript ∅ (transcript ∅ calls).accepted,
        entry.2.isOk = true := by
      rw [kept]
      exact fun entry member => (List.mem_filter.mp member).2
    change runOnto lenient #[] ∅ _ = _
    rw [runOnto_calls (Or.inr unstopped), last, kept, List.filter_map]
    rfl
  · intro before after kind name answer split
    obtain ⟨earlier, rfl, answered⟩ := exists_of_transcript_eq_append split
    exact (records_empty.follow earlier).answer_declare answered

example :
    (run true ([.declare .nonterminal "S", .declare .terminal "S", .declare .terminal "a"].map
      Call.step)).answers =
      [.ok (some (.nonterminal ⟨0⟩)), .error (.duplicateSymbol "S"),
        .ok (some (.terminal ⟨0⟩))] := by
  decide +kernel

end Outcome

end Definition

end ContextFree
