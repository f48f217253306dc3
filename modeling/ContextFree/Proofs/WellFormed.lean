import ContextFree.Grammar.Validity
import Mathlib.Data.List.Nodup

/-!
# Well-formed grammars

A well-formed grammar declares its start symbol and every symbol of its productions,
keeps one family for each head, numbers its symbols apart and below the next free
number, and gives no name twice. Validity checks part of this; the rest is never
checked but kept by every operation.

## Implementation notes

The tables of symbols and the families of productions are described separately,
because most operations replace the families and leave the tables alone.
-/

namespace ContextFree

/-- Families as grouping leaves them: one for each head, with distinct bodies. -/
structure Grouped (families : List Family) : Prop where
  heads_nodup : (families.map Family.head).Nodup
  bodies_nodup : ∀ f ∈ families, f.bodies.Nodup
  bodies_ne_nil : ∀ f ∈ families, f.bodies ≠ []

theorem grouped_group (productions : List Production) : Grouped (group productions) := by
  have heads : (group productions).map Family.head = distinct (productions.map Production.head) := by
    simp [group, collate, Function.comp_def]
  refine ⟨?_, ?_, ?_⟩
  · rw [heads]
    exact nodup_distinct _
  · intro f hf
    obtain ⟨pair, _, rfl⟩ := List.mem_map.mp hf
    exact nodup_distinct _
  · intro f hf empty
    have hhead : f.head ∈ distinct (productions.map Production.head) :=
      heads ▸ List.mem_map_of_mem hf
    obtain ⟨p, hp, same⟩ := List.mem_map.mp (mem_distinct.mp hhead)
    -- The production that brought the head in has its body in the only family of the head.
    obtain ⟨f', hf', hbody⟩ := List.mem_flatMap.mp (mem_group.mpr hp)
    obtain ⟨body, hb, rfl⟩ := List.mem_map.mp hbody
    have unique : f' = f :=
      List.inj_on_of_nodup_map (heads ▸ nodup_distinct _) hf' hf same
    rw [unique, empty] at hb
    exact absurd hb List.not_mem_nil

/-- Families derived one by one stand in the old order if they keep their heads. -/
theorem map_head_filterMap_sublist {families : List Family} {f : Family → Option Family}
    (head : ∀ a b, f a = some b → b.head = a.head) :
    ((families.filterMap f).map Family.head).Sublist (families.map Family.head) := by
  induction families with
  | nil => exact .slnil
  | cons a rest ih =>
      rw [List.filterMap_cons]
      cases hf : f a with
      | none => exact ih.cons _
      | some b =>
          rw [List.map_cons, List.map_cons, head a b hf]
          exact ih.cons_cons _

/-- Families derived one by one from grouped ones are grouped if they keep their heads. -/
theorem Grouped.filterMap {families : List Family} (h : Grouped families)
    {f : Family → Option Family} (head : ∀ a b, f a = some b → b.head = a.head)
    (nodup : ∀ a ∈ families, ∀ b, f a = some b → b.bodies.Nodup)
    (nonempty : ∀ a b, f a = some b → b.bodies ≠ []) : Grouped (families.filterMap f) := by
  refine ⟨h.heads_nodup.sublist (map_head_filterMap_sublist head), ?_, ?_⟩
  · intro b hb
    obtain ⟨a, ha, hab⟩ := List.mem_filterMap.mp hb
    exact nodup a ha b hab
  · intro b hb
    obtain ⟨a, _, hab⟩ := List.mem_filterMap.mp hb
    exact nonempty a b hab

section Lookup

variable {α κ : Type} [DecidableEq κ] {key : α → κ} {entries : List α}

/-- With distinct keys, looking a key up finds the entry that has it. -/
theorem find?_key_eq_some_iff (nodup : (entries.map key).Nodup) {k : κ} {a : α} :
    entries.find? (fun entry => key entry = k) = some a ↔ a ∈ entries ∧ key a = k := by
  constructor
  · intro found
    refine ⟨List.mem_of_find?_eq_some found, ?_⟩
    simpa using List.find?_some found
  · intro h
    obtain ⟨member, rfl⟩ := h
    cases found : entries.find? fun entry => key entry = key a with
    | none =>
        have absent := List.find?_eq_none.mp found a member
        simp at absent
    | some b =>
        have same : key b = key a := by simpa using List.find?_some found
        have there : b ∈ entries := List.mem_of_find?_eq_some found
        rw [List.inj_on_of_nodup_map nodup there member same]

end Lookup

namespace Grammar

variable {g : Grammar}

/-- Whether a symbol stands in the tables of a grammar. -/
def Declares (g : Grammar) : Symbol → Prop
  | .terminal t => t ∈ g.terminals.map Terminal.id
  | .nonterminal n => n ∈ g.nonterminals.map Nonterminal.id

theorem alphabet_contains_iff {s : Symbol} : g.alphabet.contains s = true ↔ g.Declares s := by
  cases s with
  | terminal t => exact IdSet.mem_ofList
  | nonterminal n => exact IdSet.mem_ofList

/-- With one family for each head, the bodies of a head are found in its family. -/
theorem mem_bodiesOf_of_nodup (heads : (g.families.map Family.head).Nodup) {n : NonterminalId}
    {body : Body} : body ∈ g.bodiesOf n ↔ ⟨n, body⟩ ∈ g.productions := by
  rw [mem_productions, bodiesOf]
  cases found : g.families.find? fun f => f.head = n with
  | none =>
      have absent : ∀ f ∈ g.families, f.head ≠ n := by simpa using found
      simp only [List.not_mem_nil, false_iff]
      rintro ⟨f, hf, head, _⟩
      exact absent f hf head
  | some f =>
      obtain ⟨hf, head⟩ := (find?_key_eq_some_iff heads).mp found
      constructor
      · intro hb
        exact ⟨f, hf, head, hb⟩
      · rintro ⟨f', hf', head', hb⟩
        have other := (find?_key_eq_some_iff heads).mpr ⟨hf', head'⟩
        cases found.symm.trans other
        exact hb

/-- In a grouped grammar the bodies of a head are found in its family. -/
theorem mem_bodiesOf (h : Grouped g.families) {n : NonterminalId} {body : Body} :
    body ∈ g.bodiesOf n ↔ ⟨n, body⟩ ∈ g.productions :=
  mem_bodiesOf_of_nodup h.heads_nodup

/-- The names of all declared symbols, terminals first. -/
def declaredNames (g : Grammar) : List String :=
  g.terminals.map Terminal.name ++ g.nonterminals.filterMap Nonterminal.declaredName?

/-- The representation invariant of grammars. -/
structure WellFormed (g : Grammar) : Prop where
  start_declared : g.Declares (.nonterminal g.start)
  head_declared : ∀ p ∈ g.productions, g.Declares (.nonterminal p.head)
  body_declared : ∀ p ∈ g.productions, ∀ s ∈ p.body, g.Declares s
  grouped : Grouped g.families
  terminal_ids_nodup : (g.terminals.map Terminal.id).Nodup
  nonterminal_ids_nodup : (g.nonterminals.map Nonterminal.id).Nodup
  id_lt_next : ∀ n ∈ g.nonterminals, n.id.index < g.nextNonterminal
  next_le : g.nextNonterminal ≤ idLimit
  names_nodup : g.declaredNames.Nodup

/-- A declared nonterminal has a number below the next free one. -/
theorem WellFormed.index_lt (h : g.WellFormed) {n : NonterminalId}
    (hn : g.Declares (.nonterminal n)) : n.index < g.nextNonterminal := by
  obtain ⟨m, hm, rfl⟩ := List.mem_map.mp hn
  exact h.id_lt_next m hm

theorem mem_terminalNames {name : String} :
    (g.terminals.foldl (fun (s : Std.TreeSet String) t => s.insert t.name) ∅).contains name = true ↔
      name ∈ g.terminals.map Terminal.name := by
  have step : ∀ (s : Std.TreeSet String) (t : Terminal),
      (s.insert t.name).contains name = true ↔ s.contains name = true ∨ t.name = name := by
    intro s t
    rw [Std.TreeSet.contains_insert, Bool.or_eq_true, beq_iff_eq, Std.compare_eq_iff_eq, or_comm]
  refine (foldl_iff (fun s : Std.TreeSet String => s.contains name = true) step g.terminals
    ∅).trans ?_
  simp

/-- No name is shared between the two kinds of symbols. -/
theorem sharedName?_eq_none_iff :
    g.sharedName? = none ↔
      ∀ name ∈ g.nonterminals.filterMap Nonterminal.declaredName?,
        name ∉ g.terminals.map Terminal.name := by
  rw [sharedName?, List.find?_eq_none]
  exact forall₂_congr fun name _ => not_congr mem_terminalNames

/-- Every head and every symbol of a body is in the alphabet. -/
theorem undeclared?_eq_none_iff :
    g.undeclared? g.alphabet = none ↔
      ∀ f ∈ g.families, g.Declares (.nonterminal f.head) ∧
        ∀ body ∈ f.bodies, ∀ s ∈ body, g.Declares s := by
  rw [undeclared?, List.findSome?_eq_none_iff]
  refine forall₂_congr fun f _ => ?_
  have head : g.alphabet.nonterminals.contains f.head = true ↔ g.Declares (.nonterminal f.head) :=
    alphabet_contains_iff (s := .nonterminal f.head)
  by_cases hf : g.alphabet.nonterminals.contains f.head = true
  · rw [if_pos hf, List.findSome?_eq_none_iff, and_iff_right (head.mp hf)]
    refine forall₂_congr fun body _ => ?_
    rw [Option.map_eq_none_iff, List.find?_eq_none]
    refine forall₂_congr fun s _ => ?_
    rw [Bool.not_eq_true', Bool.not_eq_false, alphabet_contains_iff]
  · rw [if_neg hf]
    simp [← head, hf]

/-- What validity means for the tables and the families. -/
theorem violation?_eq_none_iff :
    g.violation? = none ↔
      g.Declares (.nonterminal g.start) ∧
      (∀ name ∈ g.nonterminals.filterMap Nonterminal.declaredName?,
        name ∉ g.terminals.map Terminal.name) ∧
      ∀ f ∈ g.families, g.Declares (.nonterminal f.head) ∧
        ∀ body ∈ f.bodies, ∀ s ∈ body, g.Declares s := by
  have start : g.alphabet.nonterminals.contains g.start = true ↔
      g.Declares (.nonterminal g.start) := alphabet_contains_iff (s := .nonterminal g.start)
  rw [← undeclared?_eq_none_iff, ← sharedName?_eq_none_iff, ← start, violation?]
  by_cases hs : g.alphabet.nonterminals.contains g.start = true
  · cases shared : g.sharedName? with
    | none => simp [hs]
    | some name => simp [hs]
  · simp [hs]

/-- A well-formed grammar passes the check. -/
theorem WellFormed.violation?_eq_none (h : g.WellFormed) : g.violation? = none := by
  refine violation?_eq_none_iff.mpr ⟨h.start_declared, ?_, ?_⟩
  · intro name hn ht
    exact (List.nodup_append'.mp h.names_nodup).2.2 ht hn
  · intro f hf
    have inside : ∀ body ∈ f.bodies, (⟨f.head, body⟩ : Production) ∈ g.productions :=
      fun body hb => mem_productions.mpr ⟨f, hf, rfl, hb⟩
    obtain ⟨body, hb⟩ := List.exists_mem_of_ne_nil _ (h.grouped.bodies_ne_nil f hf)
    refine ⟨h.head_declared _ (inside body hb), ?_⟩
    intro body hb s hs
    exact h.body_declared _ (inside body hb) s hs

theorem validate_eq_ok_iff : g.validate = .ok () ↔ g.violation? = none := by
  unfold validate
  cases g.violation? with
  | none => simp
  | some v => simp

theorem WellFormed.validate_eq_ok (h : g.WellFormed) : g.validate = .ok () :=
  validate_eq_ok_iff.mpr h.violation?_eq_none

/-- A grammar that passes the check, with one entry for each nonterminal and one family for each
head. -/
structure Valid (g : Grammar) : Prop where
  validate_eq_ok : g.validate = .ok ()
  heads_nodup : (g.families.map Family.head).Nodup
  nonterminal_ids_nodup : (g.nonterminals.map Nonterminal.id).Nodup

theorem WellFormed.valid (h : g.WellFormed) : g.Valid :=
  ⟨h.validate_eq_ok, h.grouped.heads_nodup, h.nonterminal_ids_nodup⟩

theorem Valid.head_declared (h : g.Valid) {p : Production} (hp : p ∈ g.productions) :
    g.Declares (.nonterminal p.head) := by
  obtain ⟨_, _, families⟩ := violation?_eq_none_iff.mp (validate_eq_ok_iff.mp h.validate_eq_ok)
  obtain ⟨f, hf, head, _⟩ := mem_productions.mp hp
  exact head ▸ (families f hf).1

theorem Valid.body_declared (h : g.Valid) {p : Production} (hp : p ∈ g.productions) {s : Symbol}
    (hs : s ∈ p.body) : g.Declares s := by
  obtain ⟨_, _, families⟩ := violation?_eq_none_iff.mp (validate_eq_ok_iff.mp h.validate_eq_ok)
  obtain ⟨f, hf, _, body⟩ := mem_productions.mp hp
  exact (families f hf).2 p.body body s hs

/-- New families over the same tables keep a grammar well-formed. -/
theorem WellFormed.with_families (h : g.WellFormed) {families : List Family}
    (grouped : Grouped families)
    (heads : ∀ p ∈ ({ g with families := families } : Grammar).productions,
      g.Declares (.nonterminal p.head))
    (bodies : ∀ p ∈ ({ g with families := families } : Grammar).productions,
      ∀ s ∈ p.body, g.Declares s) :
    ({ g with families := families } : Grammar).WellFormed where
  start_declared := h.start_declared
  head_declared := heads
  body_declared := bodies
  grouped := grouped
  terminal_ids_nodup := h.terminal_ids_nodup
  nonterminal_ids_nodup := h.nonterminal_ids_nodup
  id_lt_next := h.id_lt_next
  next_le := h.next_le
  names_nodup := h.names_nodup

/-- Names stay distinct when nonterminals without a declared name are added. -/
theorem nodup_declaredNames_append (h : g.declaredNames.Nodup) {g' : Grammar}
    {new : List Nonterminal} (terminals : g'.terminals = g.terminals)
    (nonterminals : g'.nonterminals = g.nonterminals ++ new)
    (fresh : ∀ n ∈ new, n.declaredName? = none) : g'.declaredNames.Nodup := by
  have none_new : new.filterMap Nonterminal.declaredName? = [] :=
    List.filterMap_eq_nil_iff.mpr fresh
  have same : g'.declaredNames = g.declaredNames := by
    simp [declaredNames, terminals, nonterminals, none_new]
  rwa [same]

/-- Adding a nonterminal keeps a grammar well-formed. -/
theorem WellFormed.mint? (h : g.WellFormed) {kind : FreshKind} {serial : Nat}
    {id : NonterminalId} {next : Grammar} (hm : g.mint? kind serial = some (id, next)) :
    next.WellFormed := by
  unfold Grammar.mint? at hm
  by_cases room : g.nextNonterminal < idLimit
  · rw [if_pos room] at hm
    obtain ⟨rfl, rfl⟩ := Prod.mk.inj (Option.some.inj hm)
    have keeps {s : Symbol} (hs : g.Declares s) :
        ({ g with
          nonterminals := g.nonterminals ++ [⟨⟨g.nextNonterminal⟩, .fresh kind serial⟩]
          nextNonterminal := g.nextNonterminal + 1 } : Grammar).Declares s := by
      cases s with
      | terminal t => exact hs
      | nonterminal n =>
          obtain ⟨m, hm, rfl⟩ := List.mem_map.mp hs
          exact List.mem_map.mpr ⟨m, List.mem_append_left _ hm, rfl⟩
    refine
      { start_declared := keeps h.start_declared
        head_declared := fun p hp => keeps (h.head_declared p hp)
        body_declared := fun p hp s hs => keeps (h.body_declared p hp s hs)
        grouped := h.grouped
        terminal_ids_nodup := h.terminal_ids_nodup
        nonterminal_ids_nodup := ?_
        id_lt_next := ?_
        next_le := room
        names_nodup := ?_ }
    · rw [List.map_append, List.nodup_append']
      refine ⟨h.nonterminal_ids_nodup, by simp, ?_⟩
      intro n hn hnew
      obtain rfl : n = ⟨g.nextNonterminal⟩ := by simpa using hnew
      exact Nat.lt_irrefl _ (h.index_lt hn)
    · intro n hn
      rcases List.mem_append.mp hn with old | new
      · exact Nat.lt_succ_of_lt (h.id_lt_next n old)
      · rw [List.mem_singleton.mp new]
        exact Nat.lt_succ_self _
    · refine nodup_declaredNames_append h.names_nodup rfl rfl ?_
      intro n hn
      rw [List.mem_singleton.mp hn]
      rfl
  · rw [if_neg room] at hm
    cases hm

end Grammar

end ContextFree
