import ContextFree.Proofs.Definition
import ContextFree.Proofs.Source.Names
import Mathlib.Data.List.Forall2

/-!
# Grammars over inferred alphabets

Declaring distinct new names succeeds unless one of them is no name, since there is room
for all of them. The declared names are then numbered in their order, and every name that
the rules use is found. So inferred alphabets never fail for another reason than a symbol
that cannot be declared. In a plain source text the only such symbols are the dollar sign
and the vertical tab, which is white space for names but not for tokens.

## Main statements

* `Definition.Consistent.declareAll_eq`: what declaring a list of new names does.
* `Declarations.define_infer`: the outcome of inferring the alphabets of rules.
* `Declarations.ofRules_eq_define_infer`: the alphabets are inferred while the rules are scanned.
* `Grammar.ofSource_inferring`: loading a plain source text.
-/

namespace ContextFree

/-- The symbols that a grammar has under a name. -/
def Grammar.Names (g : Grammar) (name : String) : Symbol → Prop
  | .terminal t => ⟨t, name⟩ ∈ g.terminals
  | .nonterminal n => ⟨n, .declared name⟩ ∈ g.nonterminals

/-- A grammar over the alphabets that rules suggest: the heads are its nonterminals and all
other names its terminals, numbered in the order of first occurrence, the first head is its
start symbol, and its productions are those of the rules. -/
structure Grammar.InferredFrom (g : Grammar) (rules : List Source.Rule) : Prop where
  nonterminals : g.nonterminals =
    (rules.map Source.Rule.head).eraseDups.mapIdx fun i name => ⟨⟨i⟩, .declared name⟩
  terminals : g.terminals =
    ((rules.flatMap fun r => r.bodies.flatten).filter
      (· ∉ rules.map Source.Rule.head)).eraseDups.mapIdx fun i name => ⟨⟨i⟩, name⟩
  start : ∃ r, rules.head? = some r ∧ g.Names r.head (.nonterminal g.start)
  productions : ∀ head body, ⟨head, body⟩ ∈ g.productions ↔
    ∃ r ∈ rules, g.Names r.head (.nonterminal head) ∧
      ∃ names ∈ r.bodies, List.Forall₂ g.Names names body

namespace Definition

variable {d : Definition} {kind : Kind} {names : List String}

section Declare

/-- Add symbols that have not been refused. -/
def addAll (d : Definition) (kind : Kind) (names : List String) : Definition :=
  names.foldl (fun d name => d.add kind name) d

theorem next_add (d : Definition) (kind : Kind) (name : String) :
    (d.add kind name).next kind = d.next kind + 1 := by
  cases kind with
  | terminal => rfl
  | nonterminal => rfl

/-- A new name is refused only if it is no name, as long as there is room. -/
theorem Consistent.declare_eq (h : d.Consistent) {name : String} (room : d.next kind < idLimit)
    (fresh : name ∉ d.declaredNames) :
    d.declare kind name =
      if isName name then .ok (d.add kind name) else .error (.invalidName name) := by
  have unused : ¬ d.names.contains name = true := mt (h.mem_names name).mp fresh
  rw [declare_eq_refusal, refusal?, if_pos room]
  by_cases valid : isName name = true
  · rw [if_pos valid, if_neg unused, if_pos valid]
  · rw [if_neg valid, if_neg valid]

/-- Distinct new names are declared one after the other up to the first that is no name. -/
theorem Consistent.declareAll_eq (h : d.Consistent) (nodup : names.Nodup)
    (fresh : ∀ name ∈ names, name ∉ d.declaredNames)
    (room : d.next kind + names.length ≤ idLimit) :
    d.declareAll kind names =
      match names.find? fun name => !isName name with
      | some bad => .error (.invalidName bad)
      | none => .ok (d.addAll kind names) := by
  induction names generalizing d with
  | nil => rfl
  | cons name rest ih =>
      rw [List.length_cons] at room
      obtain ⟨apart, tail⟩ := List.nodup_cons.mp nodup
      have free : d.next kind < idLimit := by omega
      have new : name ∉ d.declaredNames := fresh name List.mem_cons_self
      have step := h.declare_eq free new
      rw [declareAll, List.foldlM_cons, step, List.find?_cons]
      by_cases valid : isName name = true
      · rw [if_pos valid] at step
        rw [if_pos valid, valid]
        apply ih (h.declare step) tail
        · intro other member declared
          cases List.mem_cons.mp ((declaredNames_add_perm d kind name).mem_iff.mp declared) with
          | inl same => exact apart (same ▸ member)
          | inr old => exact fresh other (List.mem_cons_of_mem _ member) old
        · rw [next_add]
          omega
      · rw [if_neg valid]
        simp only [valid]
        rfl

theorem Consistent.declareAll (h : d.Consistent) {next : Definition}
    (ok : d.declareAll kind names = .ok next) : next.Consistent :=
  foldlM_invariant Consistent (fun _ _ _ hs step => hs.declare step) h ok

theorem mem_declaredNames_addAll {name : String} :
    name ∈ (d.addAll kind names).declaredNames ↔ name ∈ names ∨ name ∈ d.declaredNames := by
  induction names generalizing d with
  | nil => simp [addAll]
  | cons first rest ih =>
      have step := (declaredNames_add_perm d kind first).mem_iff (a := name)
      change name ∈ ((d.add kind first).addAll kind rest).declaredNames ↔ _
      rw [ih, step, List.mem_cons, List.mem_cons, or_left_comm, or_assoc]

theorem nonterminals_addAll (d : Definition) (names : List String) :
    (d.addAll .nonterminal names).nonterminals.toList = d.nonterminals.toList ++
      names.mapIdx fun i name => ⟨⟨d.nextNonterminal + i⟩, .declared name⟩ := by
  induction names generalizing d with
  | nil => simp [addAll]
  | cons name rest ih =>
      change ((d.add .nonterminal name).addAll .nonterminal rest).nonterminals.toList = _
      rw [ih, List.mapIdx_cons]
      simp [add, enter, Nat.add_comm, Nat.add_left_comm]

theorem terminals_addAll (d : Definition) (names : List String) :
    (d.addAll .terminal names).terminals.toList = d.terminals.toList ++
      names.mapIdx fun i name => ⟨⟨d.nextTerminal + i⟩, name⟩ := by
  induction names generalizing d with
  | nil => simp [addAll]
  | cons name rest ih =>
      change ((d.add .terminal name).addAll .terminal rest).terminals.toList = _
      rw [ih, List.mapIdx_cons]
      simp [add, enter, Nat.add_comm, Nat.add_left_comm]

/-- What no single declaration changes, no list of declarations changes. -/
theorem addAll_kept {α : Type} (part : Definition → α)
    (kept : ∀ d name, part (d.add kind name) = part d) (d : Definition) (names : List String) :
    part (d.addAll kind names) = part d := by
  induction names generalizing d with
  | nil => rfl
  | cons name rest ih => exact (ih (d.add kind name)).trans (kept d name)

theorem nonterminals_addAll_terminal (d : Definition) (names : List String) :
    (d.addAll .terminal names).nonterminals = d.nonterminals :=
  addAll_kept Definition.nonterminals (fun _ _ => rfl) d names

theorem terminals_addAll_nonterminal (d : Definition) (names : List String) :
    (d.addAll .nonterminal names).terminals = d.terminals :=
  addAll_kept Definition.terminals (fun _ _ => rfl) d names

theorem nextTerminal_addAll_nonterminal (d : Definition) (names : List String) :
    (d.addAll .nonterminal names).nextTerminal = d.nextTerminal :=
  addAll_kept Definition.nextTerminal (fun _ _ => rfl) d names

theorem rules_addAll (d : Definition) (kind : Kind) (names : List String) :
    (d.addAll kind names).rules = d.rules := by
  apply addAll_kept Definition.rules
  intro d name
  cases kind with
  | terminal => rfl
  | nonterminal => rfl

theorem start_addAll (d : Definition) (kind : Kind) (names : List String) :
    (d.addAll kind names).start = d.start := by
  apply addAll_kept Definition.start
  intro d name
  cases kind with
  | terminal => rfl
  | nonterminal => rfl

/-- A symbol is declared by adding it, unless it is refused. -/
theorem declare_eq_ok_iff {name : String} {next : Definition} :
    d.declare kind name = .ok next ↔ d.refusal? kind name = none ∧ next = d.add kind name := by
  rw [declare_eq_refusal]
  cases d.refusal? kind name with
  | some e => simp
  | none => simp [eq_comm]

/-- A list of names can only be declared by adding all of its symbols. -/
theorem eq_addAll_of_declareAll {next : Definition} (ok : d.declareAll kind names = .ok next) :
    next = d.addAll kind names := by
  induction names generalizing d with
  | nil => exact (Except.ok.inj ok).symm
  | cons name rest ih =>
      obtain ⟨first, step, ok⟩ := bind_eq_ok_iff.mp ok
      obtain ⟨_, rfl⟩ := declare_eq_ok_iff.mp step
      exact ih ok

end Declare

section Unseen

theorem contains_declare {name other : String} {next : Definition}
    (ok : d.declare kind name = .ok next) :
    next.names.contains other = (other == name || d.names.contains other) := by
  obtain ⟨_, rfl⟩ := declare_eq_ok_iff.mp ok
  rw [names_add, Std.TreeMap.contains_insert, Bool.eq_iff_iff, Bool.or_eq_true, Bool.or_eq_true,
    beq_iff_eq, Std.compare_eq_iff_eq, beq_iff_eq, eq_comm]

/-- Declaring names where they first occur is declaring the distinct new ones in this order. -/
theorem foldlM_declareUnseen (d : Definition) (kind : Kind) (names : List String) :
    names.foldlM (fun d name => d.declareUnseen kind name) d =
      d.declareAll kind (names.filter fun name => !d.names.contains name).eraseDups := by
  induction names generalizing d with
  | nil => rfl
  | cons name rest ih =>
      rw [List.foldlM_cons, declareUnseen]
      by_cases known : d.names.contains name = true
      · rw [if_pos known, List.filter_cons_of_neg (by simp [known])]
        exact ih d
      · rw [if_neg known, List.filter_cons_of_pos (by simp [known]), List.eraseDups_cons,
          List.filter_filter, declareAll, List.foldlM_cons]
        cases step : d.declare kind name with
        | error e => rfl
        | ok next =>
            -- After the step all names but this one are as new as before.
            have new : ∀ other, (!next.names.contains other) =
                (!other == name && !d.names.contains other) := by
              intro other
              rw [contains_declare step, Bool.not_or]
            have tail := ih next
            simp only [new] at tail
            exact tail

end Unseen

section Lookup

/-- The symbols that a definition has under a name. -/
def Names (d : Definition) (name : String) : Symbol → Prop
  | .terminal t => ⟨t, name⟩ ∈ d.terminals.toList
  | .nonterminal n => ⟨n, .declared name⟩ ∈ d.nonterminals.toList

theorem names_toGrammar {start : NonterminalId} {name : String} {s : Symbol} :
    (d.toGrammar start).Names name s ↔ d.Names name s := by
  cases s with
  | terminal t => exact Iff.rfl
  | nonterminal n => exact Iff.rfl

theorem declares_of_names {start : NonterminalId} {name : String} {s : Symbol}
    (h : d.Names name s) : (d.toGrammar start).Declares s := by
  cases s with
  | terminal t => exact List.mem_map.mpr ⟨_, h, rfl⟩
  | nonterminal n => exact List.mem_map.mpr ⟨_, h, rfl⟩

theorem declares_of_mem_body {start : NonterminalId} {body : Body} {s : Symbol}
    (h : List.Forall₂ d.Names names body) (hs : s ∈ body) : (d.toGrammar start).Declares s := by
  induction h with
  | nil => exact absurd hs List.not_mem_nil
  | cons named _ ih =>
      cases List.mem_cons.mp hs with
      | inl same => exact same ▸ declares_of_names named
      | inr later => exact ih later

theorem names_add_iff {name other : String} {s : Symbol} :
    (d.add kind name).Names other s ↔
      d.Names other s ∨ (other = name ∧ s = d.nextSymbol kind) := by
  cases kind with
  | terminal =>
      cases s with
      | terminal t => simp [Names, add, enter, nextSymbol, Kind.symbol, next, and_comm]
      | nonterminal n => simp [Names, add, enter, nextSymbol, Kind.symbol, next]
  | nonterminal =>
      cases s with
      | terminal t => simp [Names, add, enter, nextSymbol, Kind.symbol, next]
      | nonterminal n => simp [Names, add, enter, nextSymbol, Kind.symbol, next, and_comm]

/-- The names lead to the symbols in the tables. -/
def Indexed (d : Definition) : Prop := ∀ name s, d.names[name]? = some s ↔ d.Names name s

theorem indexed_empty : (∅ : Definition).Indexed := by
  intro name s
  change (∅ : Std.TreeMap String Symbol)[name]? = some s ↔ _
  rw [Std.TreeMap.getElem?_emptyc]
  apply iff_of_false (Option.some_ne_none s).symm
  cases s with
  | terminal t => exact List.not_mem_nil
  | nonterminal n => exact List.not_mem_nil

theorem Indexed.declare (h : d.Indexed) {name : String} {next : Definition}
    (ok : d.declare kind name = .ok next) : next.Indexed := by
  rw [declare_eq_refusal] at ok
  cases accepted : d.refusal? kind name with
  | some e => simp [accepted] at ok
  | none =>
      rw [accepted] at ok
      cases ok
      have unused : d.names[name]? = none := by
        have absent := (refusal?_eq_none accepted).2.2
        rwa [Std.TreeMap.contains_eq_isSome_getElem?, Option.isSome_eq_false_iff,
          Option.isNone_iff_eq_none] at absent
      intro other s
      rw [names_add, Std.TreeMap.getElem?_insert, names_add_iff, ← h other s]
      by_cases same : name = other
      · subst same
        rw [if_pos (Std.compare_eq_iff_eq.mpr rfl), unused]
        simp [eq_comm]
      · rw [if_neg fun eq => same (Std.compare_eq_iff_eq.mp eq)]
        simp [Ne.symm same]

theorem Indexed.declareAll (h : d.Indexed) {next : Definition}
    (ok : d.declareAll kind names = .ok next) : next.Indexed :=
  foldlM_invariant Indexed (fun _ _ _ hs step => hs.declare step) h ok

/-- The symbol under a declared name. -/
def symbolOf (d : Definition) (name : String) : Symbol := d.names.getD name (.terminal ⟨0⟩)

theorem getElem?_names {name : String} (h : d.names.contains name = true) :
    d.names[name]? = some (d.symbolOf name) := by
  rw [Std.TreeMap.contains_eq_isSome_getElem?] at h
  obtain ⟨s, found⟩ := Option.isSome_iff_exists.mp h
  rw [symbolOf, Std.TreeMap.getD_eq_getD_getElem?, found, Option.getD_some]

theorem mapM_lookup {body : List String} (h : ∀ name ∈ body, d.names.contains name = true) :
    body.mapM d.lookup = .ok (body.map d.symbolOf) := by
  induction body with
  | nil => rfl
  | cons name rest ih =>
      have first : d.lookup name = .ok (d.symbolOf name) := by
        rw [lookup, getElem?_names (h name List.mem_cons_self)]
      rw [List.mapM_cons, first, ih fun other member => h other (List.mem_cons_of_mem _ member)]
      rfl

/-- A body of declared names stands for the symbols under them. -/
theorem Indexed.forall₂_names_iff (h : d.Indexed) {names : List String} {body : Body}
    (declared : ∀ name ∈ names, d.names.contains name = true) :
    List.Forall₂ d.Names names body ↔ body = names.map d.symbolOf := by
  induction names generalizing body with
  | nil => simp
  | cons name rest ih =>
      have first : ∀ s, d.Names name s ↔ s = d.symbolOf name := by
        intro s
        rw [← h name s, getElem?_names (declared name List.mem_cons_self), Option.some.injEq,
          eq_comm]
      have tail : ∀ other ∈ rest, d.names.contains other = true :=
        fun other member => declared other (List.mem_cons_of_mem _ member)
      cases body with
      | nil => simp
      | cons s body => rw [List.forall₂_cons, first, ih tail, List.map_cons, List.cons.injEq]

end Lookup

section Rules

/-- Add productions to a definition. -/
def addRules (d : Definition) (ps : List Production) : Definition :=
  { d with rules := d.rules ++ ps.toArray }

theorem Consistent.addRules (h : d.Consistent) (ps : List Production) :
    (d.addRules ps).Consistent :=
  ⟨h.terminal_ids, h.nonterminal_ids, h.nonterminals_le, h.origins_declared, h.names_nodup,
    h.names_valid, h.mem_names⟩

theorem addRules_addRules (d : Definition) (ps qs : List Production) :
    (d.addRules ps).addRules qs = d.addRules (ps ++ qs) := by
  simp [addRules]

theorem foldlM_addRule {head : NonterminalId} {bodies : List (List String)}
    (h : ∀ body ∈ bodies, ∀ name ∈ body, d.names.contains name = true) :
    bodies.foldlM
      (fun (d : Definition) body => do
        let symbols ← body.mapM d.lookup
        .ok (d.addRule head symbols)) d =
      .ok (d.addRules (bodies.map fun body => ⟨head, body.map d.symbolOf⟩)) := by
  induction bodies generalizing d with
  | nil => simp [addRules, pure, Except.pure]
  | cons body rest ih =>
      rw [List.foldlM_cons, mapM_lookup (h body List.mem_cons_self)]
      have tail := ih (d := d.addRule head (body.map d.symbolOf))
        fun other member => h other (List.mem_cons_of_mem _ member)
      refine tail.trans ?_
      have one : d.addRule head (body.map d.symbolOf) =
          d.addRules [⟨head, body.map d.symbolOf⟩] := by simp [addRule, addRules]
      rw [one, addRules_addRules]
      rfl

theorem addNamedRule_eq {r : Source.Rule} {head : NonterminalId}
    (heads : d.names[r.head]? = some (.nonterminal head))
    (h : ∀ body ∈ r.bodies, ∀ name ∈ body, d.names.contains name = true) :
    d.addNamedRule r =
      .ok (d.addRules (r.bodies.map fun body => ⟨head, body.map d.symbolOf⟩)) := by
  have first : d.lookupNonterminal r.head = .ok head := by
    rw [lookupNonterminal, lookup, heads]
    rfl
  rw [addNamedRule, first]
  exact foldlM_addRule h

/-- Rules over declared names are added with their productions. -/
theorem exists_foldlM_addNamedRule {rules : List Source.Rule}
    (heads : ∀ r ∈ rules, ∃ n, d.names[r.head]? = some (.nonterminal n))
    (h : ∀ r ∈ rules, ∀ body ∈ r.bodies, ∀ name ∈ body, d.names.contains name = true) :
    ∃ ps, rules.foldlM (fun d r => d.addNamedRule r) d = .ok (d.addRules ps) ∧
      ∀ p, p ∈ ps ↔ ∃ r ∈ rules, d.names[r.head]? = some (.nonterminal p.head) ∧
        ∃ body ∈ r.bodies, p.body = body.map d.symbolOf := by
  induction rules generalizing d with
  | nil => exact ⟨[], by simp [addRules, pure, Except.pure], by simp⟩
  | cons r rest ih =>
      obtain ⟨head, found⟩ := heads r List.mem_cons_self
      have step := addNamedRule_eq found (h r List.mem_cons_self)
      obtain ⟨ps, tail, members⟩ :=
        ih (d := d.addRules (r.bodies.map fun body => ⟨head, body.map d.symbolOf⟩))
          (fun r' hr => heads r' (List.mem_cons_of_mem _ hr))
          (fun r' hr => h r' (List.mem_cons_of_mem _ hr))
      refine ⟨r.bodies.map (fun body => ⟨head, body.map d.symbolOf⟩) ++ ps, ?_, ?_⟩
      · rw [List.foldlM_cons, step, ← addRules_addRules]
        exact tail
      · intro p
        rw [List.mem_append, members, List.exists_mem_cons_iff, found]
        apply or_congr _ Iff.rfl
        constructor
        · intro member
          obtain ⟨body, hb, rfl⟩ := List.mem_map.mp member
          exact ⟨rfl, body, hb, rfl⟩
        · intro member
          obtain ⟨same, body, hb, eq⟩ := member
          cases same
          exact List.mem_map.mpr ⟨body, hb, Production.ext rfl eq.symm⟩

end Rules

end Definition

namespace Declarations

open Definition Source

variable {rules : List Source.Rule} {name : String}

section Inferred

theorem nonterminals_infer (rules : List Source.Rule) :
    (infer rules).nonterminals = (rules.map Source.Rule.head).eraseDups :=
  distinct_eq_eraseDups _

theorem terminals_infer (rules : List Source.Rule) :
    (infer rules).terminals = ((rules.flatMap fun r => r.bodies.flatten).filter
      (· ∉ rules.map Source.Rule.head)).eraseDups := by
  have known : ∀ name, ((distinct (rules.map Source.Rule.head)).foldl
      (fun (s : Std.TreeSet String) h => s.insert h) ∅).contains name = true ↔
        name ∈ rules.map Source.Rule.head := by
    intro name
    have step : ∀ (s : Std.TreeSet String) (h : String),
        (s.insert h).contains name = true ↔ s.contains name = true ∨ h = name := by
      intro s h
      rw [Std.TreeSet.contains_insert, Bool.or_eq_true, beq_iff_eq, Std.compare_eq_iff_eq, or_comm]
    refine (foldl_iff (fun s : Std.TreeSet String => s.contains name = true) step _ ∅).trans ?_
    simp [mem_distinct]
  refine (distinct_eq_eraseDups _).trans (congrArg List.eraseDups (List.filter_congr ?_))
  intro name _
  rw [Bool.eq_iff_iff, Bool.not_eq_true', ← Bool.not_eq_true, known, decide_eq_true_iff]

theorem nodup_nonterminals_infer (rules : List Source.Rule) :
    (infer rules).nonterminals.Nodup := nodup_distinct _

theorem nodup_terminals_infer (rules : List Source.Rule) :
    (infer rules).terminals.Nodup := nodup_distinct _

theorem mem_nonterminals_infer :
    name ∈ (infer rules).nonterminals ↔ name ∈ rules.map Source.Rule.head := mem_distinct

theorem mem_terminals_infer :
    name ∈ (infer rules).terminals ↔
      (∃ r ∈ rules, ∃ body ∈ r.bodies, name ∈ body) ∧ name ∉ rules.map Source.Rule.head := by
  rw [terminals_infer, List.mem_eraseDups, List.mem_filter, List.mem_flatMap, decide_eq_true_iff]
  simp only [List.mem_flatten]

/-- The inferred alphabets hold exactly the names that the rules use. -/
theorem mem_infer_iff :
    name ∈ (infer rules).terminals ∨ name ∈ (infer rules).nonterminals ↔
      name ∈ usedNames rules := by
  rw [mem_terminals_infer, mem_nonterminals_infer]
  constructor
  · intro h
    rcases h with ⟨⟨r, hr, body, hb, hn⟩, _⟩ | head
    · exact mem_usedNames_of_mem hr hb hn
    · obtain ⟨r, hr, rfl⟩ := List.mem_map.mp head
      exact head_mem_usedNames hr
  · intro h
    by_cases head : name ∈ rules.map Source.Rule.head
    · exact Or.inr head
    · obtain ⟨r, hr, used⟩ := List.mem_flatMap.mp h
      cases List.mem_cons.mp used with
      | inl same => exact absurd (List.mem_map.mpr ⟨r, hr, same.symm⟩) head
      | inr inner =>
          obtain ⟨body, hb, hn⟩ := List.mem_flatten.mp inner
          exact Or.inl ⟨⟨r, hr, body, hb, hn⟩, head⟩

/-- There are numbers enough for the inferred alphabets. -/
structure Fits (rules : List Source.Rule) : Prop where
  nonterminals_le : (infer rules).nonterminals.length ≤ idLimit
  terminals_le : (infer rules).terminals.length ≤ idLimit

/-- The definition that declares the heads of rules. -/
def headed (rules : List Source.Rule) : Definition :=
  (∅ : Definition).addAll .nonterminal (infer rules).nonterminals

/-- The definition that declares all names of rules. -/
def inferred (rules : List Source.Rule) : Definition :=
  (headed rules).addAll .terminal (infer rules).terminals

theorem declareAll_nonterminals (fits : Fits rules) :
    Definition.declareAll ∅ .nonterminal (infer rules).nonterminals =
      match (infer rules).nonterminals.find? fun name => !isName name with
      | some bad => .error (.invalidName bad)
      | none => .ok (headed rules) := by
  apply consistent_empty.declareAll_eq (nodup_nonterminals_infer rules)
  · exact fun name _ => List.not_mem_nil
  · change 0 + _ ≤ idLimit
    rw [Nat.zero_add]
    exact fits.nonterminals_le

theorem mem_declaredNames_headed :
    name ∈ (headed rules).declaredNames ↔ name ∈ (infer rules).nonterminals := by
  rw [headed, mem_declaredNames_addAll]
  exact or_iff_left List.not_mem_nil

theorem declareAll_terminals (fits : Fits rules) (consistent : (headed rules).Consistent) :
    (headed rules).declareAll .terminal (infer rules).terminals =
      match (infer rules).terminals.find? fun name => !isName name with
      | some bad => .error (.invalidName bad)
      | none => .ok (inferred rules) := by
  apply consistent.declareAll_eq (nodup_terminals_infer rules)
  · intro name other head
    rw [mem_declaredNames_headed, mem_nonterminals_infer] at head
    exact (mem_terminals_infer.mp other).2 head
  · have unused : (headed rules).nextTerminal = 0 := nextTerminal_addAll_nonterminal _ _
    rw [next, unused, Nat.zero_add]
    exact fits.terminals_le

theorem nonterminals_inferred (rules : List Source.Rule) :
    (inferred rules).nonterminals.toList =
      (infer rules).nonterminals.mapIdx fun i name => ⟨⟨i⟩, .declared name⟩ := by
  have empty : (∅ : Definition).nonterminals = #[] := rfl
  have unused : (∅ : Definition).nextNonterminal = 0 := rfl
  rw [inferred, nonterminals_addAll_terminal, headed, nonterminals_addAll, empty, unused]
  simp

theorem terminals_inferred (rules : List Source.Rule) :
    (inferred rules).terminals.toList =
      (infer rules).terminals.mapIdx fun i name => ⟨⟨i⟩, name⟩ := by
  have empty : (headed rules).terminals = #[] := terminals_addAll_nonterminal _ _
  have unused : (headed rules).nextTerminal = 0 := nextTerminal_addAll_nonterminal _ _
  rw [inferred, terminals_addAll, empty, unused]
  simp

/-- Declaring names where they first occur declares the inferred alphabets. -/
theorem declareUsed_eq (rules : List Source.Rule) :
    Definition.declareUsed ∅ rules =
      Definition.declareAll ∅ .nonterminal (infer rules).nonterminals >>= fun d =>
        d.declareAll .terminal (infer rules).terminals := by
  have heads : rules.foldlM (fun d r => d.declareUnseen .nonterminal r.head) ∅ =
      Definition.declareAll ∅ .nonterminal (infer rules).nonterminals := by
    have new : (rules.map Source.Rule.head).filter
        (fun name => !(∅ : Definition).names.contains name) = rules.map Source.Rule.head := by
      apply List.filter_eq_self.mpr
      intro name _
      change (!(∅ : Std.TreeMap String Symbol).contains name) = true
      simp
    rw [nonterminals_infer, ← new, ← foldlM_declareUnseen, List.foldlM_map]
  rw [declareUsed, heads]
  cases ok : Definition.declareAll ∅ .nonterminal (infer rules).nonterminals with
  | error e => rfl
  | ok d =>
      have consistent := consistent_empty.declareAll ok
      obtain rfl : d = headed rules := eq_addAll_of_declareAll ok
      have new : ∀ name, (!(headed rules).names.contains name) =
          decide (name ∉ rules.map Source.Rule.head) := by
        intro name
        rw [Bool.eq_iff_iff, Bool.not_eq_true', ← Bool.not_eq_true, consistent.mem_names,
          mem_declaredNames_headed, mem_nonterminals_infer, decide_eq_true_iff]
      change (rules.flatMap _).foldlM _ (headed rules) = _
      rw [foldlM_declareUnseen, terminals_infer]
      simp only [new]
      rfl

/-- Rules without declared symbols are read over the alphabets that they suggest. -/
theorem ofRules_eq_define_infer {decls : Declarations} (none : decls.hasNoSymbols = true) :
    Grammar.ofRules rules decls = { infer rules with start := decls.start }.define rules := by
  rw [Grammar.ofRules, if_pos none, declareUsed_eq, define]
  exact bind_assoc _ _ _

/-- The first head has the number zero. -/
theorem names_first_head {first : Source.Rule} (h : rules.head? = some first) :
    (inferred rules).Names first.head (.nonterminal ⟨0⟩) := by
  cases rules with
  | nil => cases h
  | cons r rest =>
      cases h
      change _ ∈ (inferred (first :: rest)).nonterminals.toList
      rw [nonterminals_inferred, nonterminals_infer, List.map_cons, List.eraseDups_cons,
        List.mapIdx_cons]
      exact List.mem_cons_self

theorem exists_names_head {r : Source.Rule} (hr : r ∈ rules) :
    ∃ n, (inferred rules).Names r.head (.nonterminal n) := by
  have member : r.head ∈ (infer rules).nonterminals :=
    mem_nonterminals_infer.mpr (List.mem_map_of_mem hr)
  obtain ⟨i, bound, same⟩ := List.mem_iff_getElem.mp member
  refine ⟨⟨i⟩, ?_⟩
  change _ ∈ (inferred rules).nonterminals.toList
  rw [nonterminals_inferred]
  exact List.mem_mapIdx.mpr ⟨i, bound, by rw [same]⟩

theorem chosenStart?_inferred (ps : List Production) (nonempty : rules ≠ []) :
    ((inferred rules).addRules ps).chosenStart? = some ⟨0⟩ := by
  have none : ((inferred rules).addRules ps).start = none :=
    (start_addAll _ _ _).trans (start_addAll _ _ _)
  obtain ⟨first, rest, rfl⟩ := List.exists_cons_of_ne_nil nonempty
  rw [chosenStart?, none]
  change (inferred (first :: rest)).nonterminals[0]?.map Nonterminal.id = _
  rw [← Array.getElem?_toList, nonterminals_inferred, nonterminals_infer, List.map_cons,
    List.eraseDups_cons, List.mapIdx_cons]
  rfl

end Inferred

theorem contains_inferred (consistent : (inferred rules).Consistent)
    (used : name ∈ usedNames rules) : (inferred rules).names.contains name = true := by
  rw [consistent.mem_names, inferred, mem_declaredNames_addAll, mem_declaredNames_headed]
  exact mem_infer_iff.mpr used

/-- The rules are added with their productions, name by name. -/
theorem exists_foldlM_inferred (consistent : (inferred rules).Consistent)
    (indexed : (inferred rules).Indexed) :
    ∃ ps, rules.foldlM (fun d r => d.addNamedRule r) (inferred rules) =
        .ok ((inferred rules).addRules ps) ∧
      ∀ p, p ∈ ps ↔ ∃ r ∈ rules, (inferred rules).Names r.head (.nonterminal p.head) ∧
        ∃ names ∈ r.bodies, List.Forall₂ (inferred rules).Names names p.body := by
  have inBodies : ∀ r ∈ rules, ∀ body ∈ r.bodies, ∀ name ∈ body,
      (inferred rules).names.contains name = true :=
    fun r hr body hb name hn => contains_inferred consistent (mem_usedNames_of_mem hr hb hn)
  have heads : ∀ r ∈ rules, ∃ n, (inferred rules).names[r.head]? = some (.nonterminal n) := by
    intro r hr
    obtain ⟨n, names⟩ := exists_names_head hr
    exact ⟨n, (indexed _ _).mpr names⟩
  obtain ⟨ps, added, members⟩ := exists_foldlM_addNamedRule heads inBodies
  refine ⟨ps, added, ?_⟩
  intro p
  rw [members]
  refine exists_congr fun r => and_congr_right fun hr => and_congr (indexed _ _) ?_
  refine exists_congr fun names => and_congr_right fun hb => ?_
  exact (indexed.forall₂_names_iff (inBodies r hr names hb)).symm

theorem rules_addRules_inferred (ps : List Production) :
    ((inferred rules).addRules ps).rules.toList = ps := by
  have none : (inferred rules).rules = #[] := (rules_addAll _ _ _).trans (rules_addAll _ _ _)
  simp [addRules, none]

/-- Once all names are declared, the rules give a grammar over them. -/
theorem exists_define_eq (consistent : (inferred rules).Consistent)
    (indexed : (inferred rules).Indexed) (nonempty : rules ≠ []) :
    ∃ g, rules.foldlM (fun d r => d.addNamedRule r) (inferred rules) >>= Definition.finish = .ok g ∧
      g.InferredFrom rules := by
  obtain ⟨ps, added, members⟩ := exists_foldlM_inferred consistent indexed
  obtain ⟨first, rest, cons⟩ := List.exists_cons_of_ne_nil nonempty
  have start := names_first_head (congrArg List.head? cons)
  have wellFormed : (((inferred rules).addRules ps).toGrammar ⟨0⟩).WellFormed := by
    apply (consistent.addRules ps).wellFormed_toGrammar (declares_of_names start)
    rw [rules_addRules_inferred]
    intro p hp
    obtain ⟨r, _, head, names, _, body⟩ := (members p).mp hp
    exact ⟨declares_of_names head, fun s hs => declares_of_mem_body body hs⟩
  have sameNames : (((inferred rules).addRules ps).toGrammar ⟨0⟩).Names =
      (inferred rules).Names := by
    funext name s
    exact propext names_toGrammar
  refine ⟨((inferred rules).addRules ps).toGrammar ⟨0⟩, ?_, ?_, ?_, ?_, ?_⟩
  · rw [added]
    exact finish_eq_ok_iff.mpr
      ⟨⟨0⟩, chosenStart?_inferred ps nonempty, rfl, wellFormed.violation?_eq_none⟩
  · exact (nonterminals_inferred rules).trans (by rw [nonterminals_infer])
  · exact (terminals_inferred rules).trans (by rw [terminals_infer])
  · exact ⟨first, by rw [cons, List.head?_cons], start⟩
  · intro head body
    rw [mem_productions_toGrammar, rules_addRules_inferred, members, sameNames]

/-- Over inferred alphabets rules give a grammar, or one of their names is no name. -/
theorem define_infer (fits : Fits rules) (nonempty : rules ≠ []) :
    ((∀ name ∈ usedNames rules, isName name = true) ∧
      ∃ g, (infer rules).define rules = .ok g ∧ g.InferredFrom rules) ∨
    ∃ bad ∈ usedNames rules, isName bad = false ∧
      (infer rules).define rules = .error (.invalidName bad) := by
  have first := declareAll_nonterminals fits
  rw [define]
  cases badHead : (infer rules).nonterminals.find? fun name => !isName name with
  | some bad =>
      right
      rw [badHead] at first
      refine ⟨bad, mem_infer_iff.mp (Or.inr (List.mem_of_find?_eq_some badHead)), ?_, ?_⟩
      · simpa using List.find?_some badHead
      · rw [first]
        rfl
  | none =>
      rw [badHead] at first
      have headedConsistent := consistent_empty.declareAll first
      have second := declareAll_terminals fits headedConsistent
      cases badOther : (infer rules).terminals.find? fun name => !isName name with
      | some bad =>
          right
          rw [badOther] at second
          refine ⟨bad, mem_infer_iff.mp (Or.inl (List.mem_of_find?_eq_some badOther)), ?_, ?_⟩
          · simpa using List.find?_some badOther
          · rw [first]
            change (headed rules).declareAll _ _ >>= _ = _
            rw [second]
            rfl
      | none =>
          left
          rw [badOther] at second
          constructor
          · intro name used
            cases mem_infer_iff.mpr used with
            | inl other => simpa using List.find?_eq_none.mp badOther name other
            | inr head => simpa using List.find?_eq_none.mp badHead name head
          · obtain ⟨g, defined, inferredFrom⟩ :=
              exists_define_eq (headedConsistent.declareAll second)
                ((indexed_empty.declareAll first).declareAll second) nonempty
            refine ⟨g, ?_, inferredFrom⟩
            rw [first]
            change (headed rules).declareAll _ _ >>= _ = _
            rw [second]
            exact defined

end Declarations

section Source

open Source Declarations

variable {source : String} {rules : List Source.Rule} {name : String}

theorem Source.Plain.length_le_idLimit (plain : Plain source) (ok : parse source = .ok rules)
    {names : List String} (nodup : names.Nodup) (used : ∀ name ∈ names, name ∈ usedNames rules) :
    names.length ≤ idLimit := by
  have enough : 128 ≤ idLimit := by decide
  apply Nat.le_trans (length_le_of_plain nodup _) enough
  intro name member
  obtain ⟨c, same, small, _⟩ := plain.exists_char_of_mem_usedNames ok (used name member)
  exact ⟨c, same, small⟩

theorem Source.Plain.fits (plain : Plain source) (ok : parse source = .ok rules) : Fits rules :=
  ⟨plain.length_le_idLimit ok (nodup_nonterminals_infer rules)
      fun _ head => mem_infer_iff.mp (Or.inr head),
    plain.length_le_idLimit ok (nodup_terminals_infer rules)
      fun _ other => mem_infer_iff.mp (Or.inl other)⟩

/-- The names in a plain text are declarable except for two. -/
theorem Source.Plain.isName_eq_false_iff (plain : Plain source) (ok : parse source = .ok rules)
    (used : name ∈ usedNames rules) :
    isName name = false ↔ name = "$" ∨ name = "\x0b" := by
  obtain ⟨c, rfl, small, noBlank⟩ := plain.exists_char_of_mem_usedNames ok used
  have dollar : "$" = String.singleton '$' := rfl
  have vertical : "\x0b" = String.singleton '\x0b' := rfl
  rw [Source.isName_eq_false_iff small noBlank, dollar, vertical, String.singleton_inj,
    String.singleton_inj]

/-- A plain text cannot be parsed, or its rules give a grammar over the inferred alphabets,
or they use one of the two names that cannot be declared. -/
theorem Source.Plain.ofSource_outcome (plain : Plain source) :
    (∃ cause, parse source = .error cause ∧
      Grammar.ofSource source {} = .error (.unreadable cause)) ∨
    ∃ rules, parse source = .ok rules ∧
      (("$" ∉ usedNames rules ∧ "\x0b" ∉ usedNames rules ∧
          ∃ g, Grammar.ofSource source {} = .ok g ∧ g.InferredFrom rules) ∨
        ∃ bad ∈ usedNames rules, (bad = "$" ∨ bad = "\x0b") ∧
          Grammar.ofSource source {} = .error (.invalidName bad)) := by
  cases parsed : parse source with
  | error cause => exact Or.inl ⟨cause, rfl, by rw [Grammar.ofSource, parsed]⟩
  | ok rules =>
      right
      refine ⟨rules, rfl, ?_⟩
      have defined : Grammar.ofSource source {} = (infer rules).define rules := by
        rw [Grammar.ofSource, parsed]
        exact ofRules_eq_define_infer rfl
      have declarable : ∀ name ∈ usedNames rules,
          isName name = false ↔ name = "$" ∨ name = "\x0b" :=
        fun _ used => plain.isName_eq_false_iff parsed used
      cases define_infer (plain.fits parsed) (parse_eq_ok_iff.mp parsed).1 with
      | inl good =>
          obtain ⟨valid, g, ok, inferredFrom⟩ := good
          left
          refine ⟨?_, ?_, g, defined.trans ok, inferredFrom⟩
          · intro dollar
            have invalid := (declarable _ dollar).mpr (Or.inl rfl)
            rw [valid _ dollar] at invalid
            cases invalid
          · intro vertical
            have invalid := (declarable _ vertical).mpr (Or.inr rfl)
            rw [valid _ vertical] at invalid
            cases invalid
      | inr bad =>
          obtain ⟨bad, used, invalid, error⟩ := bad
          exact Or.inr ⟨bad, used, (declarable bad used).mp invalid, defined.trans error⟩

/-- Loading a plain text over inferred alphabets succeeds unless the text cannot be parsed or
uses one of the two symbols that cannot be declared. There is no other error. -/
theorem Grammar.ofSource_inferring (plain : Plain source) :
    ((∃ g, ofSource source {} = .ok g) ↔
      ∃ rules, parse source = .ok rules ∧
        "$" ∉ usedNames rules ∧ "\x0b" ∉ usedNames rules) ∧
    (∀ e, ofSource source {} = .error e →
      (∃ cause, e = .unreadable cause) ∨ ∃ name, e = .invalidName name) ∧
    ∀ g, ofSource source {} = .ok g →
      ∃ rules, parse source = .ok rules ∧ g.InferredFrom rules := by
  obtain ⟨cause, parsed, loaded⟩ | ⟨rules, parsed, result⟩ := plain.ofSource_outcome
  · rw [parsed, loaded]
    simp
  · obtain ⟨dollar, vertical, g, loaded, inferredFrom⟩ | ⟨bad, used, which, loaded⟩ := result
    · rw [parsed, loaded]
      refine ⟨?_, ?_, ?_⟩
      · exact ⟨fun _ => ⟨rules, rfl, dollar, vertical⟩, fun _ => ⟨g, rfl⟩⟩
      · intro e failed
        cases failed
      · intro other same
        cases same
        exact ⟨rules, rfl, inferredFrom⟩
    · rw [parsed, loaded]
      refine ⟨?_, ?_, ?_⟩
      · apply iff_of_false
        · intro accepted
          obtain ⟨g, same⟩ := accepted
          cases same
        · intro clean
          obtain ⟨_, same, dollar, vertical⟩ := clean
          cases same
          cases which with
          | inl is => exact dollar (is ▸ used)
          | inr is => exact vertical (is ▸ used)
      · intro e failed
        cases failed
        exact Or.inr ⟨bad, rfl⟩
      · intro g accepted
        cases accepted

theorem matchedPairs_ofSource_inferring :
    Plain "S -> aSb | ε" ∧ ∃ g, Grammar.ofSource "S -> aSb | ε" {} = .ok g ∧
      ∃ rules, parse "S -> aSb | ε" = .ok rules ∧ g.InferredFrom rules := by
  have plain : Plain "S -> aSb | ε" := by decide +kernel
  obtain ⟨succeeds, _, inferredFrom⟩ := Grammar.ofSource_inferring plain
  have parsed : parse "S -> aSb | ε" = .ok [⟨"S", [["a", "S", "b"], []]⟩] := by decide +kernel
  obtain ⟨g, loaded⟩ := succeeds.mpr ⟨_, parsed, by decide +kernel, by decide +kernel⟩
  exact ⟨plain, g, loaded, inferredFrom g loaded⟩

end Source

end ContextFree
