import ContextFree.Language.Equivalence
import ContextFree.Normalization
import ContextFree.Specification
import ContextFree.Stage.Conversion

/-!
# Sessions

A session holds a current grammar together with the stage it has reached, a saved
one, and a supply of serial numbers for added nonterminals. Actions move the current
grammar from stage to stage or ask about it. An action that does not fit the stage
of the current grammar, or that fails, leaves the session as it was.
-/

namespace ContextFree

/-- A grammar together with the stage it has reached. -/
inductive Staged where
  | grammar (g : Grammar)
  | epsilonFree (e : EpsilonFree)
  | unitFree (u : UnitFree)
  | productive (p : Productive)
  | reachable (r : Reachable)
  | normalForm (c : NormalForm)
  deriving DecidableEq, Repr

/-- The grammar itself, whatever its stage. -/
def Staged.toGrammar : Staged → Grammar
  | grammar g => g
  | epsilonFree e => e.grammar
  | unitFree u => u.grammar
  | productive p => p.grammar
  | reachable r => r.grammar
  | normalForm c => c.grammar

structure Session where
  current : Option Staged
  saved : Option Staged
  supply : FreshSupply

namespace Session

def new : Session := ⟨none, none, .new⟩

inductive Failure where
  /-- The current grammar, if there is one, is not at the stage that is needed. -/
  | wrongStage (current : Option Staged)
  | definition (e : DefinitionError)
  | violation (v : Violation)
  | normalize (e : NormalizeError)

/-- A question about a grammar at any stage. -/
inductive Query where
  | validate
  | nullables
  | productiveSet
  | reachableSet
  | unitPairs
  | word (text : String)
  | terminalByName (name : String)
  | nonterminalByName (name : String)
  | bodiesOf (head : NonterminalId)
  | hasProduction (head : NonterminalId) (body : Body)
  | describe (symbols : List Symbol)
  | words (limit : Nat) (root : Option NonterminalId)
  | allWords (limit : Nat)

/-- A question about a grammar in normal form. -/
inductive LanguageQuery where
  | acceptsWord (word : Word)
  | acceptsText (text : String)
  | accepted (limit : Nat)

inductive Action where
  | load (specification : Specification)
  | inspect
  | save
  | recall
  | renewSupply
  /-- Without a set, the symbols that derive the empty word are dropped. -/
  | eliminateEpsilon (droppable : Option NonterminalSet)
  | eliminateUnits
  | filterProductive
  | filterReachable
  | toNormalForm (derivesEmpty : Bool)
  | release
  | normalize (policy : EmptyWord)
  | retainProductive
  | retainReachable
  | mint (kind : FreshKind)
  | ask (query : Query)
  | askLanguage (query : LanguageQuery)
  /-- Compare the saved grammar with the current normal form. -/
  | compare (limit : Nat)

inductive Answer where
  | value (s : Staged)
  | done
  | valid
  | minted (id : NonterminalId) (name : String)
  | names (names : List String)
  | namedPairs (pairs : List (String × List String))
  | word (w : Option Word)
  | symbol (s : Option Symbol)
  | bodies (bodies : List Body)
  | truth (b : Option Bool)
  | described (texts : List (String × Bool))

/-- The names of the members of a set, in ascending order. -/
def membersText (g : Grammar) (s : NonterminalSet) : List String :=
  let names := g.names
  s.toList.map names.nonterminal

/-- The unit pairs of a grammar by name. -/
def unitPairsText (g : Grammar) : List (String × List String) :=
  let names := g.names
  g.unitPairs.map fun (n, reached) => (names.nonterminal n, reached.toList.map names.nonterminal)

def renderAll (g : Grammar) (words : List Word) : List String :=
  let names := g.names
  words.map (Grammar.render names)

def answer (g : Grammar) : Query → Except Failure Answer
  | .validate =>
      match g.violation? with
      | some v => .error (.violation v)
      | none => .ok .valid
  | .nullables => .ok (.names (membersText g g.nullables))
  | .productiveSet => .ok (.names (membersText g g.productiveSet))
  | .reachableSet => .ok (.names (membersText g g.reachableSet))
  | .unitPairs => .ok (.namedPairs (unitPairsText g))
  | .word text => .ok (.word (g.word? text))
  | .terminalByName name => .ok (.symbol ((g.terminalByName? name).map .terminal))
  | .nonterminalByName name => .ok (.symbol ((g.nonterminalByName? name).map .nonterminal))
  | .bodiesOf head => .ok (.bodies (g.bodiesOf head))
  | .hasProduction head body => .ok (.truth (some (g.hasProduction head body)))
  | .describe symbols =>
      let names := g.names
      let alphabet := g.alphabet
      .ok (.described (symbols.map fun s => (names.symbol s, alphabet.contains s)))
  | .words limit root =>
      .ok (.names (renderAll g (g.wordsFrom (root.getD g.start) limit).toList))
  | .allWords limit => .ok (.names (renderAll g (g.allWords limit)))

def answerLanguage (c : NormalForm) : LanguageQuery → Answer
  | .acceptsWord w => .truth (some (c.accepts w))
  | .acceptsText text => .truth ((c.grammar.word? text).map c.accepts)
  | .accepted limit =>
      .names (renderAll c.grammar ((c.grammar.allWords limit).filter c.accepts))

/-- Continue with a new current grammar. -/
def become (s : Session) (next : Staged) : Answer × Session :=
  (.value next, { s with current := some next })

/-- Continue with the result of a stage. -/
def advance {α : Type} (s : Session) (wrap : α → Staged) :
    Except NormalizeError α → Except Failure (Answer × Session)
  | .ok a => .ok (s.become (wrap a))
  | .error e => .error (.normalize e)

/-- Continue with a pruned grammar. -/
def prune (s : Session) : Except Violation Grammar → Except Failure (Answer × Session)
  | .ok g => .ok (s.become (.grammar g))
  | .error v => .error (.violation v)

/-- An action that needs a current grammar. -/
def act (s : Session) (current : Staged) : Action → Except Failure (Answer × Session)
  | .inspect => .ok (.value current, s)
  | .save => .ok (.done, { s with saved := some current })
  | .eliminateEpsilon droppable =>
      match current with
      | .grammar g =>
          s.advance .epsilonFree (g.eliminateEpsilon (droppable.getD g.nullables))
      | _ => .error (.wrongStage current)
  | .eliminateUnits =>
      match current with
      | .epsilonFree e => s.advance .unitFree e.eliminateUnits
      | _ => .error (.wrongStage current)
  | .filterProductive =>
      match current with
      | .unitFree u => s.advance .productive u.filterProductive
      | _ => .error (.wrongStage current)
  | .filterReachable =>
      match current with
      | .productive p => s.advance .reachable p.filterReachable
      | _ => .error (.wrongStage current)
  | .toNormalForm derivesEmpty =>
      match current with
      | .reachable r => s.advance .normalForm (r.normalForm derivesEmpty)
      | _ => .error (.wrongStage current)
  | .release =>
      match current with
      | .grammar _ => .error (.wrongStage current)
      | _ => .ok (s.become (.grammar current.toGrammar))
  | .normalize policy => s.advance .normalForm (current.toGrammar.normalize policy)
  | .retainProductive => s.prune current.toGrammar.retainProductive
  | .retainReachable => s.prune current.toGrammar.retainReachable
  | .mint kind =>
      match current with
      | .grammar g =>
          match s.supply.mint g kind with
          | .ok (id, g, supply) =>
              .ok (.minted id (g.names.nonterminal id),
                { s with current := some (.grammar g), supply := supply })
          | .error e => .error (.normalize e)
      | _ => .error (.wrongStage current)
  | .ask query => (answer current.toGrammar query).map fun a => (a, s)
  | .askLanguage query =>
      match current with
      | .normalForm c => .ok (answerLanguage c query, s)
      | _ => .error (.wrongStage current)
  | .compare limit =>
      match s.saved, current with
      | none, _ => .error (.wrongStage none)
      | some saved, .normalForm c =>
          .ok (.truth (some (c.agreesWith saved.toGrammar limit)), s)
      | some _, _ => .error (.wrongStage current)
  | .load _ | .recall | .renewSupply => .error (.wrongStage current)

/-- Perform one action. Recalling when nothing was saved empties the session's
current place; every other failure leaves the session as it was. -/
def step (s : Session) (action : Action) : Except Failure Answer × Session :=
  match action with
  | .load specification =>
      match specification.load with
      | .ok g => (.ok (.value (.grammar g)), { s with current := some (.grammar g) })
      | .error e => (.error (.definition e), s)
  | .renewSupply => (.ok .done, { s with supply := .new })
  | .recall =>
      match s.saved with
      | some saved => (.ok (.value saved), { s with current := some saved })
      | none => (.error (.wrongStage none), { s with current := none })
  | action =>
      match s.current with
      | none => (.error (.wrongStage none), s)
      | some current =>
          match s.act current action with
          | .ok (answer, next) => (.ok answer, next)
          | .error e => (.error e, s)

/-- The answers of a sequence of actions. -/
def run (actions : List Action) : List (Except Failure Answer) :=
  (actions.foldl
    (fun (answers, s) action =>
      let (answer, s) := Session.step s action
      (answers.push answer, s))
    ((#[] : Array (Except Failure Answer)), Session.new)).1.toList

end Session

end ContextFree
