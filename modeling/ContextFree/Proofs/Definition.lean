import ContextFree.Proofs.WellFormed
import ContextFree.Specification

/-!
# Defined grammars are well-formed

A definition numbers the symbols of each kind from zero and remembers every name it
has given away. Each step of a definition keeps this, so whatever way a grammar is
specified, loading it gives a well-formed grammar or an error.
-/

namespace ContextFree

section Except

variable {ε α β : Type}

theorem bind_eq_ok_iff {x : Except ε α} {f : α → Except ε β} {b : β} :
    x >>= f = .ok b ↔ ∃ a, x = .ok a ∧ f a = .ok b := by
  cases x with
  | error e => simp [bind, Except.bind]
  | ok a => simp [bind, Except.bind]

/-- What every step of a fold keeps, the fold keeps. -/
theorem foldlM_invariant (I : β → Prop) {step : β → α → Except ε β}
    (kept : ∀ s a t, I s → step s a = .ok t → I t) {as : List α} {s t : β}
    (hs : I s) (h : as.foldlM step s = .ok t) : I t := by
  induction as generalizing s with
  | nil =>
      rw [List.foldlM_nil] at h
      exact Except.ok.inj h ▸ hs
  | cons a rest ih =>
      rw [List.foldlM_cons] at h
      obtain ⟨m, first, rest⟩ := bind_eq_ok_iff.mp h
      exact ih (kept s a m hs first) rest

end Except

section Table

variable {κ ν : Type} [Ord κ] {table : Std.TreeMap κ ν} {k : κ}

/-- A key keeps its value. -/
theorem insertIfNew_of_contains (known : table.contains k = true) (v : ν) :
    table.insertIfNew k v = table := by
  obtain ⟨⟨tree, _⟩⟩ := table
  have known : tree.contains k = true := known
  simp [Std.TreeMap.insertIfNew, Std.DTreeMap.insertIfNew, Std.DTreeMap.Internal.Impl.insertIfNew,
    known]

theorem insertIfNew_of_not_contains (unknown : table.contains k = false) (v : ν) :
    table.insertIfNew k v = table.insert k v := by
  obtain ⟨⟨tree, _⟩⟩ := table
  have unknown : tree.contains k = false := unknown
  simp [Std.TreeMap.insertIfNew, Std.DTreeMap.insertIfNew, Std.DTreeMap.Internal.Impl.insertIfNew,
    Std.TreeMap.insert, Std.DTreeMap.insert, unknown]

end Table

theorem Nonterminal.origin_of_declaredName? {n : Nonterminal} {name : String}
    (h : n.declaredName? = some name) : n.origin = .declared name := by
  rw [declaredName?] at h
  cases origin : n.origin with
  | declared other =>
      rw [origin] at h
      exact congrArg Origin.declared (Option.some.inj h)
  | fresh kind serial =>
      rw [origin] at h
      cases h

namespace Definition

variable {d : Definition}

/-- The names given away so far, terminals first. -/
def declaredNames (d : Definition) : List String :=
  d.terminals.toList.map Terminal.name ++
    d.nonterminals.toList.filterMap Nonterminal.declaredName?

/-- The tables of a definition agree with each other. -/
structure Consistent (d : Definition) : Prop where
  terminal_ids : d.terminals.toList.map Terminal.id = (List.range d.nextTerminal).map Id.mk
  nonterminal_ids :
    d.nonterminals.toList.map Nonterminal.id = (List.range d.nextNonterminal).map Id.mk
  nonterminals_le : d.nextNonterminal ≤ idLimit
  origins_declared : ∀ n ∈ d.nonterminals.toList, n.declaredName?.isSome = true
  names_nodup : d.declaredNames.Nodup
  names_valid : ∀ name ∈ d.declaredNames, isName name = true
  mem_names : ∀ name, d.names.contains name = true ↔ name ∈ d.declaredNames

theorem consistent_empty : (∅ : Definition).Consistent where
  terminal_ids := rfl
  nonterminal_ids := rfl
  nonterminals_le := Nat.zero_le _
  origins_declared _ member := absurd member List.not_mem_nil
  names_nodup := List.nodup_nil
  names_valid _ member := absurd member List.not_mem_nil
  mem_names name := by
    change (∅ : Std.TreeMap String Symbol).contains name = true ↔ name ∈ ([] : List String)
    simp

section Register

/-- Why a symbol of this kind cannot be declared under this name. -/
def refusal? (d : Definition) (kind : Kind) (name : String) : Option DefinitionError :=
  if d.next kind < idLimit then
    if isName name then
      if d.names.contains name then some (.duplicateSymbol name) else none
    else some (.invalidName name)
  else some .tooManySymbols

/-- The definition with one more symbol. -/
def add (d : Definition) (kind : Kind) (name : String) : Definition :=
  { d with names := d.names.insert name (d.nextSymbol kind) }.enter kind name

/-- A claim that fails leaves the definition as it is. -/
theorem claimName_eq (d : Definition) (name : String) (s : Symbol) :
    d.claimName name s =
      if isName name then
        if d.names.contains name then (.error (.duplicateSymbol name), d)
        else (.ok (), { d with names := d.names.insert name s })
      else (.error (.invalidName name), d) := by
  unfold claimName
  split
  case isTrue =>
    dsimp only
    rw [Std.TreeMap.containsThenInsertIfNew_fst, Std.TreeMap.containsThenInsertIfNew_snd]
    split
    case isTrue known => rw [insertIfNew_of_contains known]
    case isFalse unknown => rw [insertIfNew_of_not_contains (Bool.eq_false_iff.mpr unknown)]
  case isFalse => rfl

/-- A declaration is refused and leaves the definition as it is, or adds one symbol. -/
theorem register_eq (d : Definition) (kind : Kind) (name : String) :
    d.register kind name =
      match d.refusal? kind name with
      | some e => (.error e, d)
      | none => (.ok (d.nextSymbol kind), d.add kind name) := by
  unfold register refusal?
  by_cases room : d.next kind < idLimit
  · rw [if_pos room, if_pos room]
    dsimp only
    rw [claimName_eq]
    by_cases valid : isName name = true
    · rw [if_pos valid, if_pos valid]
      by_cases known : d.names.contains name = true
      · rw [if_pos known, if_pos known]
      · rw [if_neg known, if_neg known]
        rfl
    · rw [if_neg valid, if_neg valid]
  · rw [if_neg room, if_neg room]

theorem register_of_refused {kind : Kind} {name : String} {e : DefinitionError}
    (refused : d.refusal? kind name = some e) : d.register kind name = (.error e, d) := by
  rw [register_eq, refused]

theorem register_of_accepted {kind : Kind} {name : String}
    (accepted : d.refusal? kind name = none) :
    d.register kind name = (.ok (d.nextSymbol kind), d.add kind name) := by
  rw [register_eq, accepted]

theorem declare_eq_refusal (d : Definition) (kind : Kind) (name : String) :
    d.declare kind name =
      match d.refusal? kind name with
      | some e => .error e
      | none => .ok (d.add kind name) := by
  rw [declare, register_eq]
  cases d.refusal? kind name with
  | some e => rfl
  | none => rfl

end Register

/-- A declaration is not refused only if there is room and the name is valid and new. -/
theorem refusal?_eq_none {kind : Kind} {name : String} (h : d.refusal? kind name = none) :
    d.next kind < idLimit ∧ isName name = true ∧ d.names.contains name = false := by
  unfold refusal? at h
  split at h
  case isTrue room =>
    split at h
    case isTrue valid =>
      refine ⟨room, valid, ?_⟩
      split at h
      · cases h
      · exact Bool.not_eq_true _ ▸ ‹_›
    case isFalse => cases h
  case isFalse => cases h

theorem declaredNames_add_perm (d : Definition) (kind : Kind) (name : String) :
    (d.add kind name).declaredNames.Perm (name :: d.declaredNames) := by
  cases kind with
  | terminal =>
      simp only [declaredNames, add, enter, Array.toList_push, List.map_append, List.map_cons,
        List.map_nil]
      rw [List.append_assoc]
      exact List.perm_middle
  | nonterminal =>
      simp only [declaredNames, add, enter, Array.toList_push, List.filterMap_append]
      rw [← List.append_assoc]
      exact List.perm_append_singleton _ _

theorem names_add (d : Definition) (kind : Kind) (name : String) :
    (d.add kind name).names = d.names.insert name (d.nextSymbol kind) := by
  cases kind with
  | terminal => rfl
  | nonterminal => rfl

theorem Consistent.add (h : d.Consistent) {kind : Kind} {name : String}
    (accepted : d.refusal? kind name = none) : (d.add kind name).Consistent := by
  obtain ⟨room, valid, unused⟩ := refusal?_eq_none accepted
  have fresh : name ∉ d.declaredNames := by
    rw [← h.mem_names, unused]
    exact Bool.false_ne_true
  have perm := declaredNames_add_perm d kind name
  have nodup : (d.add kind name).declaredNames.Nodup :=
    perm.nodup_iff.mpr (List.nodup_cons.mpr ⟨fresh, h.names_nodup⟩)
  have allValid : ∀ other ∈ (d.add kind name).declaredNames, isName other = true := by
    intro other member
    cases List.mem_cons.mp (perm.mem_iff.mp member) with
    | inl new => exact new ▸ valid
    | inr old => exact h.names_valid other old
  have names : ∀ other, (d.add kind name).names.contains other = true ↔
      other ∈ (d.add kind name).declaredNames := by
    intro other
    rw [names_add, Std.TreeMap.contains_insert, Bool.or_eq_true, beq_iff_eq,
      Std.compare_eq_iff_eq, h.mem_names, perm.mem_iff, List.mem_cons]
    exact or_congr eq_comm Iff.rfl
  cases kind with
  | terminal =>
      refine ⟨?_, h.nonterminal_ids, h.nonterminals_le, h.origins_declared, nodup, allValid, names⟩
      simp only [Definition.add, enter, Array.toList_push, List.map_append, h.terminal_ids,
        List.range_succ, List.map_cons, List.map_nil]
  | nonterminal =>
      refine ⟨h.terminal_ids, ?_, ?_, ?_, nodup, allValid, names⟩
      · simp only [Definition.add, enter, Array.toList_push, List.map_append, h.nonterminal_ids,
          List.range_succ, List.map_cons, List.map_nil]
      · exact room
      · intro n member
        rw [Definition.add, enter, Array.toList_push, List.mem_append, List.mem_singleton] at member
        cases member with
        | inl old => exact h.origins_declared n old
        | inr new =>
            rw [new]
            rfl

theorem Consistent.declare (h : d.Consistent) {kind : Kind} {name : String} {d' : Definition}
    (hd : d.declare kind name = .ok d') : d'.Consistent := by
  rw [declare_eq_refusal] at hd
  cases refused : d.refusal? kind name with
  | some e => simp [refused] at hd
  | none =>
      rw [refused] at hd
      exact Except.ok.inj hd ▸ h.add refused

theorem Consistent.addRule (h : d.Consistent) (head : NonterminalId) (body : Body) :
    (d.addRule head body).Consistent :=
  ⟨h.terminal_ids, h.nonterminal_ids, h.nonterminals_le, h.origins_declared, h.names_nodup,
    h.names_valid, h.mem_names⟩

theorem Consistent.setStart (h : d.Consistent) (start : NonterminalId) :
    (d.setStart start).Consistent :=
  ⟨h.terminal_ids, h.nonterminal_ids, h.nonterminals_le, h.origins_declared, h.names_nodup,
    h.names_valid, h.mem_names⟩

theorem Consistent.addRange (h : d.Consistent) (kind : Kind) (stem : String) (n count : Nat)
    (last : Option Symbol) : (addRange kind stem n count last d).2.Consistent := by
  induction count generalizing n last d with
  | zero => exact h
  | succ count ih =>
      rw [Definition.addRange]
      cases refused : d.refusal? kind (stem ++ toString n) with
      | some e =>
          rw [register_of_refused refused]
          exact h
      | none =>
          rw [register_of_accepted refused]
          exact ih (h.add refused) (n + 1) _

theorem Consistent.addRuleForEach (h : d.Consistent) (body : Body) (n count : Nat) :
    (addRuleForEach body n count d).Consistent := by
  induction count generalizing n d with
  | zero => exact h
  | succ count ih => exact ih (h.addRule ⟨n⟩ body) (n + 1)

/-- One step of a script, refused or not. -/
theorem Consistent.apply (h : d.Consistent) (step : Step) : (d.apply step).2.Consistent := by
  cases step with
  | declare kind name =>
      rw [Definition.apply]
      cases refused : d.refusal? kind name with
      | some e =>
          rw [register_of_refused refused]
          exact h
      | none =>
          rw [register_of_accepted refused]
          exact h.add refused
  | rule head body => exact h.addRule head body
  | start n => exact h.setStart n
  | declareRange kind stem first count => exact h.addRange kind stem first count none
  | ruleForEach first count body => exact h.addRuleForEach body first count

theorem mem_productions_toGrammar {start : NonterminalId} {p : Production} :
    p ∈ (d.toGrammar start).productions ↔ p ∈ d.rules.toList := mem_group

/-- A definition whose rules use declared symbols only gives a well-formed grammar. -/
theorem Consistent.wellFormed_toGrammar (h : d.Consistent) {start : NonterminalId}
    (declared : (d.toGrammar start).Declares (.nonterminal start))
    (rules : ∀ p ∈ d.rules.toList, (d.toGrammar start).Declares (.nonterminal p.head) ∧
      ∀ s ∈ p.body, (d.toGrammar start).Declares s) : (d.toGrammar start).WellFormed where
  start_declared := declared
  head_declared := fun p hp => (rules p (mem_productions_toGrammar.mp hp)).1
  body_declared := fun p hp => (rules p (mem_productions_toGrammar.mp hp)).2
  grouped := grouped_group _
  terminal_ids_nodup := by
    change (d.terminals.toList.map Terminal.id).Nodup
    rw [h.terminal_ids]
    exact List.nodup_range.map fun _ _ same => Id.mk.inj same
  nonterminal_ids_nodup := by
    change (d.nonterminals.toList.map Nonterminal.id).Nodup
    rw [h.nonterminal_ids]
    exact List.nodup_range.map fun _ _ same => Id.mk.inj same
  id_lt_next := by
    intro n hn
    have numbered : n.id ∈ (List.range d.nextNonterminal).map Id.mk :=
      h.nonterminal_ids ▸ List.mem_map_of_mem hn
    obtain ⟨i, hi, same⟩ := List.mem_map.mp numbered
    rw [← same]
    exact List.mem_range.mp hi
  next_le := h.nonterminals_le
  names_nodup := h.names_nodup

/-- Finishing checks the grammar with the chosen start symbol. -/
theorem finish_eq_ok_iff {g : Grammar} :
    d.finish = .ok g ↔ ∃ start, d.chosenStart? = some start ∧ g = d.toGrammar start ∧
      g.violation? = none := by
  rw [Definition.finish]
  cases chosen : d.chosenStart? with
  | none => simp
  | some start =>
      dsimp only
      split
      next v invalid =>
        have valid : (d.toGrammar start).violation? = some v := invalid
        constructor
        · intro h
          cases h
        · intro h
          obtain ⟨_, same, rfl, none⟩ := h
          cases same
          cases none.symm.trans valid
      next valid =>
        constructor
        · intro h
          cases h
          exact ⟨start, rfl, rfl, valid⟩
        · intro h
          obtain ⟨_, same, rfl, _⟩ := h
          cases same
          rfl

/-- A finished definition is a well-formed grammar. -/
theorem Consistent.finish (h : d.Consistent) {g : Grammar} (hg : d.finish = .ok g) :
    g.WellFormed := by
  obtain ⟨start, _, rfl, valid⟩ := finish_eq_ok_iff.mp hg
  obtain ⟨declared, _, families⟩ := Grammar.violation?_eq_none_iff.mp valid
  apply h.wellFormed_toGrammar declared
  intro p hp
  obtain ⟨f, hf, head, hb⟩ := Grammar.mem_productions.mp (mem_productions_toGrammar.mpr hp)
  exact ⟨head ▸ (families f hf).1, (families f hf).2 p.body hb⟩

theorem Consistent.runOnto (h : d.Consistent) (lenient : Bool) (answers : Array Answer)
    (steps : List Step) {g : Grammar} (hg : (runOnto lenient answers d steps).grammar = .ok g) :
    ∃ last : Definition, last.Consistent ∧ last.finish = .ok g := by
  induction steps generalizing answers d with
  | nil => exact ⟨d, h, hg⟩
  | cons step rest ih =>
      rw [Definition.runOnto] at hg
      have kept := h.apply step
      split at hg
      next d' applied =>
        rw [applied] at kept
        exact ih kept _ hg
      next d' applied =>
        rw [applied] at kept
        split at hg
        · exact ih kept _ hg
        · cases hg

end Definition

namespace Definition

variable {d : Definition}

theorem Consistent.declareUnseen (h : d.Consistent) {kind : Kind} {name : String} {d' : Definition}
    (hd : d.declareUnseen kind name = .ok d') : d'.Consistent := by
  unfold Definition.declareUnseen at hd
  split at hd
  · exact Except.ok.inj hd ▸ h
  · exact h.declare hd

theorem Consistent.declareUsed (h : d.Consistent) {rules : List Source.Rule} {d' : Definition}
    (hd : d.declareUsed rules = .ok d') : d'.Consistent := by
  unfold Definition.declareUsed at hd
  obtain ⟨headed, heads, others⟩ := bind_eq_ok_iff.mp hd
  have consistent : headed.Consistent :=
    foldlM_invariant Consistent (fun _ _ _ hs step => hs.declareUnseen step) h heads
  exact foldlM_invariant Consistent (fun _ _ _ hs step => hs.declareUnseen step) consistent others

theorem Consistent.exists_finish (h : d.Consistent) {start : Option String}
    {rules : List Source.Rule} {g : Grammar} (hg : d.finishNamed start rules = .ok g) :
    ∃ last : Definition, last.Consistent ∧ last.finish = .ok g := by
  unfold finishNamed at hg
  obtain ⟨d₁, h₁, hg⟩ := bind_eq_ok_iff.mp hg
  obtain ⟨d₂, h₂, hg⟩ := bind_eq_ok_iff.mp hg
  have started : d₁.Consistent := by
    cases start with
    | none =>
        rw [setNamedStart] at h₁
        exact Except.ok.inj h₁ ▸ h
    | some name =>
        rw [setNamedStart] at h₁
        obtain ⟨n, _, h₁⟩ := bind_eq_ok_iff.mp h₁
        exact Except.ok.inj h₁ ▸ h.setStart n
  have ruled : d₂.Consistent := by
    refine foldlM_invariant Consistent (fun s r t hs step => ?_) started h₂
    unfold addNamedRule at step
    obtain ⟨head, _, step⟩ := bind_eq_ok_iff.mp step
    refine foldlM_invariant Consistent (fun s body t hs add => ?_) hs step
    obtain ⟨symbols, _, add⟩ := bind_eq_ok_iff.mp add
    exact Except.ok.inj add ▸ hs.addRule head symbols
  exact ⟨d₂, ruled, hg⟩

end Definition

open Definition in
theorem Declarations.exists_finish_of_define {decls : Declarations} {rules : List Source.Rule}
    {g : Grammar} (hg : decls.define rules = .ok g) :
    ∃ last : Definition, last.Consistent ∧ last.finish = .ok g := by
  unfold Declarations.define at hg
  obtain ⟨d₁, h₁, hg⟩ := bind_eq_ok_iff.mp hg
  obtain ⟨d₂, h₂, hg⟩ := bind_eq_ok_iff.mp hg
  have declared₁ : d₁.Consistent :=
    foldlM_invariant Consistent (fun _ _ _ hs step => hs.declare step) consistent_empty h₁
  have declared₂ : d₂.Consistent :=
    foldlM_invariant Consistent (fun _ _ _ hs step => hs.declare step) declared₁ h₂
  exact declared₂.exists_finish hg

/-- Whatever way a grammar is specified, loading it finishes a consistent definition. -/
theorem Specification.exists_finish_of_load {spec : Specification} {g : Grammar}
    (hg : spec.load = .ok g) : ∃ last : Definition, last.Consistent ∧ last.finish = .ok g := by
  cases spec with
  | catalog entry => exact Declarations.exists_finish_of_define hg
  | script lenient steps => exact Definition.consistent_empty.runOnto lenient #[] steps hg
  | source text decls =>
      rw [Specification.load, Grammar.ofSource] at hg
      split at hg
      · cases hg
      · unfold Grammar.ofRules at hg
        split at hg
        · obtain ⟨d, declared, hg⟩ := bind_eq_ok_iff.mp hg
          exact (Definition.consistent_empty.declareUsed declared).exists_finish hg
        · exact Declarations.exists_finish_of_define hg

/-- Whatever way a grammar is specified, it is well-formed once it is loaded. -/
theorem Specification.load_wellFormed {spec : Specification} {g : Grammar}
    (hg : spec.load = .ok g) : g.WellFormed := by
  obtain ⟨last, consistent, finished⟩ := Specification.exists_finish_of_load hg
  exact consistent.finish finished

end ContextFree
