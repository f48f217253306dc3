import ContextFree.Proofs.Derivation
import ContextFree.Proofs.Reachability

/-!
# Sentential forms

A derivation rewrites a body step by step: each step replaces one nonterminal by one of its
bodies. The sentential forms are the bodies derived from the start symbol. Those without
nonterminals are the derived words, and the nonterminals that occur in some of them are the
reachable ones.

## Main statements

* `Grammar.derives_iff_rewrites`: deriving a word is rewriting a nonterminal into it.
* `Grammar.occursInForm_iff`: the nonterminals in sentential forms are the reachable ones.
-/

namespace ContextFree.Grammar

variable {g : Grammar} {a b : Body} {n : NonterminalId} {w : Word}

/-- One occurrence of a nonterminal is replaced by one of its bodies. -/
inductive RewritesStep (g : Grammar) : Body → Body → Prop where
  | replace {p : Production} (rule : p ∈ g.productions) (before after : Body) :
      RewritesStep g (before ++ .nonterminal p.head :: after) (before ++ p.body ++ after)

/-- A body is rewritten into another by any number of steps. -/
def Rewrites (g : Grammar) : Body → Body → Prop := Relation.ReflTransGen g.RewritesStep

/-- The bodies derived from the start symbol. -/
def SententialForm (g : Grammar) (form : Body) : Prop := g.Rewrites [.nonterminal g.start] form

/-- A nonterminal occurs in a sentential form. -/
def OccursInForm (g : Grammar) (n : NonterminalId) : Prop :=
  ∃ form, g.SententialForm form ∧ .nonterminal n ∈ form

section Words

theorem RewritesStep.frame (h : g.RewritesStep a b) (left right : Body) :
    g.RewritesStep (left ++ a ++ right) (left ++ b ++ right) := by
  cases h with
  | @replace p rule before after =>
      have step := RewritesStep.replace rule (left ++ before) (after ++ right)
      simpa using step

/-- A part of a body can be rewritten while the rest stays as it is. -/
theorem Rewrites.frame (h : g.Rewrites a b) (left right : Body) :
    g.Rewrites (left ++ a ++ right) (left ++ b ++ right) :=
  h.lift (fun form => left ++ form ++ right) fun _ _ step => step.frame left right

/-- A step backwards keeps the words of a body. -/
theorem RewritesStep.yields (h : g.RewritesStep a b) (yields : Yields (· ∈ g.productions) b w) :
    Yields (· ∈ g.productions) a w := by
  cases h with
  | @replace p rule before after =>
      obtain ⟨x, z, rfl, first, last⟩ := Yields.append_iff.mp yields
      obtain ⟨x, y, rfl, first, middle⟩ := Yields.append_iff.mp first
      rw [List.append_assoc]
      exact first.append (.nonterminal rule middle last)

/-- A body derives the words that it can be rewritten into. -/
theorem yields_iff_rewrites :
    Yields (· ∈ g.productions) b w ↔ g.Rewrites b (w.map .terminal) := by
  constructor
  · intro h
    induction h with
    | nil => exact .refl
    | @terminal t rest w _ ih =>
        have framed := ih.frame [.terminal t] []
        simpa using framed
    | @nonterminal n body rest u v rule _ _ first tail =>
        have opened : g.RewritesStep (.nonterminal n :: rest) (body ++ rest) :=
          .replace rule [] rest
        have left : g.Rewrites (body ++ rest) (u.map .terminal ++ rest) := first.frame [] rest
        have right : g.Rewrites (u.map .terminal ++ rest) ((u ++ v).map .terminal) := by
          have framed := tail.frame (u.map .terminal) []
          simpa using framed
        exact .head opened (left.trans right)
  · intro h
    induction h using Relation.ReflTransGen.head_induction_on with
    | refl => exact Yields.map_terminal_iff.mpr rfl
    | head step _ ih => exact step.yields ih

/-- A nonterminal derives the words that it can be rewritten into. -/
theorem derives_iff_rewrites :
    g.Derives n w ↔ g.Rewrites [.nonterminal n] (w.map .terminal) := yields_iff_rewrites

end Words

/-- What occurs in a sentential form is reachable. -/
theorem SententialForm.reaches {form : Body} (h : g.SententialForm form)
    (member : .nonterminal n ∈ form) : g.Reaches g.start n := by
  induction h generalizing n with
  | refl =>
      obtain rfl : n = g.start := by simpa using member
      exact .refl
  | tail _ step ih =>
      cases step with
      | @replace p rule before after =>
          have head : g.Reaches g.start p.head :=
            ih (List.mem_append_right _ List.mem_cons_self)
          simp only [List.mem_append] at member
          obtain (old | new) | old := member
          · exact ih (List.mem_append_left _ old)
          · exact head.tail ⟨p.body, rule, new⟩
          · exact ih (List.mem_append_right _ (List.mem_cons_of_mem _ old))

/-- The reachable nonterminals are those that occur in a sentential form. -/
theorem occursInForm_iff : g.OccursInForm n ↔ g.Reaches g.start n := by
  constructor
  · rintro ⟨form, derived, member⟩
    exact derived.reaches member
  · intro reached
    induction reached with
    | refl => exact ⟨_, .refl, List.mem_singleton_self _⟩
    | tail _ mentioned ih =>
        obtain ⟨body, rule, mentioned⟩ := mentioned
        obtain ⟨form, derived, member⟩ := ih
        obtain ⟨before, after, rfl⟩ := List.append_of_mem member
        refine ⟨_, derived.tail (.replace rule before after), ?_⟩
        exact List.mem_append_left _ (List.mem_append_right _ mentioned)

end ContextFree.Grammar
