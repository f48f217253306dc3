import ContextFree.Proofs.DisplayNames
import ContextFree.Proofs.Loading

/-!
# Displayed productions

A production is displayed as its head, an arrow and the names in its body, with a blank between
any two of them, and the empty body as an epsilon. No declared name has a blank, so the text can be
split again, and declared names tell symbols apart. Only the epsilon is ambiguous: it stands for the
empty body, and it may be the name of a symbol.

## Main statements

* `Pristine.production_eq_iff`: the text of a production tells its head and the words of its body.
* `Specification.display_production_eq_iff`: the productions of a loaded grammar with the same text.
-/

namespace ContextFree

/-- The blank is white space, so no name has one. -/
theorem blank_notMem_of_isName {name : String} (valid : isName name = true) :
    ' ' ∉ name.toList := by
  intro blank
  unfold isName at valid
  split at valid
  · cases valid
  next c rest spelt =>
    have white : (c :: rest).any isWhiteSpace = true :=
      List.any_eq_true.mpr ⟨' ', spelt ▸ blank, by decide⟩
    rw [white] at valid
    simp at valid

/-- A text of words without blanks can be split again. -/
theorem intercalate_blank_inj {xs ys : List String} (hx : ∀ x ∈ xs, ' ' ∉ x.toList)
    (hy : ∀ y ∈ ys, ' ' ∉ y.toList) (hxs : xs ≠ []) (hys : ys ≠ []) :
    String.intercalate " " xs = String.intercalate " " ys ↔ xs = ys := by
  constructor
  · intro same
    have blank : " " = String.singleton ' ' := rfl
    have first := String.toList_split_intercalate hx
    have second := String.toList_split_intercalate hy
    rw [if_neg hxs] at first
    rw [if_neg hys] at second
    rw [← first, ← second, ← blank, same]
  · intro same
    rw [same]

/-- A table of entries with distinct keys finds the value of each entry. -/
theorem getElem?_foldr_insert_of_mem {α κ ν : Type} [Ord κ] [Std.TransOrd κ] [Std.LawfulEqOrd κ]
    {entries : List α} {key : α → κ} (value : α → ν) (nodup : (entries.map key).Nodup) {a : α}
    (ha : a ∈ entries) :
    (entries.foldr (fun a (table : Std.TreeMap κ ν) => table.insert (key a) (value a)) ∅)[key a]? =
      some (value a) := by
  have distinct : ((entries.map fun a => (key a, value a)).map Prod.fst).Nodup := by
    rw [List.map_map]
    exact nodup
  have found := (getElem?_foldr_insert distinct).mpr (List.mem_map.mpr ⟨a, ha, rfl⟩)
  rwa [List.foldr_map] at found

namespace Names

/-- The words that display a body. -/
def words (names : Names) : Body → List String
  | [] => ["ε"]
  | symbols => symbols.map names.symbol

theorem body_eq (names : Names) (b : Body) :
    names.body b = String.intercalate " " (names.words b) := by
  cases b with
  | nil => rfl
  | cons s rest => rfl

theorem words_ne_nil (names : Names) (b : Body) : names.words b ≠ [] := by
  cases b with
  | nil => exact List.cons_ne_nil _ _
  | cons s rest => exact List.cons_ne_nil _ _

/-- A production is displayed by its head, an arrow and the words of its body. -/
theorem production_eq (names : Names) (p : Production) :
    names.production p =
      String.intercalate " " (names.nonterminal p.head :: "->" :: names.words p.body) := by
  rw [production, body_eq, String.intercalate_cons_cons,
    String.intercalate_cons_of_ne_nil (names.words_ne_nil p.body)]
  simp only [String.append_assoc]
  rfl

end Names

namespace Grammar

variable {g : Grammar} {name : String} {s t : Symbol}

/-- A symbol is displayed by the name that it is declared with. -/
theorem WellFormed.symbol_names (h : g.WellFormed) (named : g.Names name s) :
    g.names.symbol s = name := by
  cases s with
  | terminal t =>
      have found : g.names.terminals[t]? = some name :=
        getElem?_foldr_insert_of_mem Terminal.name h.terminal_ids_nodup named
      rw [Names.symbol, Std.TreeMap.getD_eq_getD_getElem?, found, Option.getD_some]
  | nonterminal n =>
      have found : g.names.nonterminals[n]? = some name :=
        getElem?_foldr_insert_of_mem Nonterminal.text h.nonterminal_ids_nodup named
      rw [Names.symbol, Names.nonterminal, Std.TreeMap.getD_eq_getD_getElem?, found,
        Option.getD_some]

namespace Pristine

/-- Every declared symbol has a valid name. -/
theorem exists_names (pristine : g.Pristine) (declared : g.Declares s) :
    ∃ name, g.Names name s ∧ isName name = true := by
  cases s with
  | terminal t =>
      obtain ⟨entry, member, rfl⟩ := List.mem_map.mp declared
      exact ⟨entry.name, member, pristine.titled.terminals_valid entry member⟩
  | nonterminal n =>
      obtain ⟨entry, member, rfl⟩ := List.mem_map.mp declared
      obtain ⟨name, origin⟩ := pristine.declared entry member
      have valid := pristine.titled.origins_valid entry member
      rw [origin] at valid
      refine ⟨name, ?_, valid⟩
      change ⟨entry.id, .declared name⟩ ∈ g.nonterminals
      rwa [← origin]

/-- A name belongs to one symbol. -/
theorem eq_of_names (pristine : g.Pristine) (hs : g.Names name s) (ht : g.Names name t) :
    s = t := by
  have wellFormed : g.WellFormed := pristine.obtained.lawful
  cases s with
  | terminal a =>
      cases t with
      | terminal b =>
          have distinct := (List.nodup_append'.mp wellFormed.names_nodup).1
          have same : (⟨a, name⟩ : Terminal) = ⟨b, name⟩ :=
            List.inj_on_of_nodup_map distinct hs ht rfl
          rw [(Terminal.mk.inj same).1]
      | nonterminal n => exact absurd rfl (pristine.titled.text_ne_name wellFormed ht hs)
  | nonterminal m =>
      cases t with
      | terminal b => exact absurd rfl (pristine.titled.text_ne_name wellFormed hs ht)
      | nonterminal n =>
          have same : (⟨m, .declared name⟩ : Nonterminal) = ⟨n, .declared name⟩ :=
            List.inj_on_of_nodup_map pristine.originsApart hs ht rfl
          rw [(Nonterminal.mk.inj same).1]

variable {p q : Production} {b c : Body}

/-- The text of a declared symbol has no blank. -/
theorem blank_notMem_symbol (pristine : g.Pristine) (declared : g.Declares s) :
    ' ' ∉ (g.names.symbol s).toList := by
  obtain ⟨name, named, valid⟩ := pristine.exists_names declared
  rw [WellFormed.symbol_names pristine.obtained.lawful named]
  exact blank_notMem_of_isName valid

/-- Declared symbols are displayed apart. -/
theorem symbol_inj (pristine : g.Pristine) (hs : g.Declares s) (ht : g.Declares t) :
    g.names.symbol s = g.names.symbol t ↔ s = t := by
  constructor
  · intro same
    obtain ⟨name, named, _⟩ := pristine.exists_names hs
    obtain ⟨other, otherNamed, _⟩ := pristine.exists_names ht
    have wellFormed : g.WellFormed := pristine.obtained.lawful
    rw [wellFormed.symbol_names named, wellFormed.symbol_names otherNamed] at same
    exact pristine.eq_of_names named (same ▸ otherNamed)
  · intro same
    rw [same]

/-- A declared symbol is displayed by a name exactly if it has this name. -/
theorem symbol_eq_iff (pristine : g.Pristine) (declared : g.Declares s) :
    g.names.symbol s = name ↔ g.Names name s := by
  have wellFormed : g.WellFormed := pristine.obtained.lawful
  constructor
  · rintro rfl
    obtain ⟨name, named, _⟩ := pristine.exists_names declared
    rwa [wellFormed.symbol_names named]
  · exact wellFormed.symbol_names

/-- A body of declared symbols is told by their names. -/
theorem map_symbol_inj (pristine : g.Pristine) (hb : ∀ s ∈ b, g.Declares s)
    (hc : ∀ s ∈ c, g.Declares s) (same : b.map g.names.symbol = c.map g.names.symbol) : b = c := by
  induction b generalizing c with
  | nil => exact (List.map_eq_nil_iff.mp same.symm).symm
  | cons s rest ih =>
      cases c with
      | nil => cases same
      | cons t others =>
          obtain ⟨first, tail⟩ := List.cons.inj same
          obtain ⟨hs, hrest⟩ := List.forall_mem_cons.mp hb
          obtain ⟨ht, hothers⟩ := List.forall_mem_cons.mp hc
          rw [(pristine.symbol_inj hs ht).mp first, ih hrest hothers tail]

/-- Bodies of declared symbols are displayed apart, but for the empty body and an epsilon. -/
theorem words_eq_iff (pristine : g.Pristine) (hb : ∀ s ∈ b, g.Declares s)
    (hc : ∀ s ∈ c, g.Declares s) (distinct : b ≠ c) :
    g.names.words b = g.names.words c ↔
      (b = [] ∧ ∃ s, c = [s] ∧ g.Names "ε" s) ∨ (c = [] ∧ ∃ s, b = [s] ∧ g.Names "ε" s) := by
  have epsilon : ∀ (s : Symbol) (rest : Body), (∀ t ∈ s :: rest, g.Declares t) →
      ((s :: rest).map g.names.symbol = ["ε"] ↔ ∃ t, s :: rest = [t] ∧ g.Names "ε" t) := by
    intro s rest declared
    have first : g.names.symbol s = "ε" ↔ g.Names "ε" s :=
      pristine.symbol_eq_iff (declared s List.mem_cons_self)
    cases rest with
    | nil => simp [first]
    | cons t rest => simp
  cases b with
  | nil =>
      cases c with
      | nil => exact absurd rfl distinct
      | cons t rest =>
          rw [eq_comm]
          simpa [Names.words] using epsilon t rest hc
  | cons s rest =>
      cases c with
      | nil => simpa [Names.words] using epsilon s rest hb
      | cons t others =>
          simp only [reduceCtorEq, false_and, or_self, iff_false]
          intro same
          exact distinct (pristine.map_symbol_inj hb hc same)

/-- The words of a displayed production have no blanks. -/
theorem blank_notMem_words (pristine : g.Pristine) (hp : p ∈ g.productions) :
    ∀ word ∈ g.names.nonterminal p.head :: "->" :: g.names.words p.body, ' ' ∉ word.toList := by
  have wellFormed : g.WellFormed := pristine.obtained.lawful
  intro word member
  rw [List.mem_cons, List.mem_cons] at member
  rcases member with head | arrow | body
  · rw [head]
    exact pristine.blank_notMem_symbol (wellFormed.head_declared p hp)
  · rw [arrow]
    decide
  · cases found : p.body with
    | nil =>
        rw [found] at body
        rw [List.mem_singleton.mp body]
        decide
    | cons s rest =>
        rw [found] at body
        obtain ⟨t, ht, rfl⟩ := List.mem_map.mp body
        exact pristine.blank_notMem_symbol (wellFormed.body_declared p hp t (found ▸ ht))

/-- Two productions are displayed alike if they have the same head and the words of their bodies
are the same. -/
theorem production_eq_iff (pristine : g.Pristine) (hp : p ∈ g.productions)
    (hq : q ∈ g.productions) :
    g.names.production p = g.names.production q ↔
      p.head = q.head ∧ g.names.words p.body = g.names.words q.body := by
  have wellFormed : g.WellFormed := pristine.obtained.lawful
  have heads := pristine.symbol_inj (wellFormed.head_declared p hp) (wellFormed.head_declared q hq)
  rw [Symbol.nonterminal.injEq] at heads
  rw [Names.production_eq, Names.production_eq,
    intercalate_blank_inj (pristine.blank_notMem_words hp) (pristine.blank_notMem_words hq)
      (List.cons_ne_nil _ _) (List.cons_ne_nil _ _),
    List.cons.injEq, List.cons.injEq, and_iff_right rfl, ← heads]
  rfl

end Pristine

end Grammar

/-- Two distinct productions of a loaded grammar are displayed alike exactly if they have the same
head and one body is empty while the other is a single symbol with the name `ε`. -/
theorem Specification.display_production_eq_iff {specification : Specification} {g : Grammar}
    {p q : Production} (loaded : specification.load = .ok g) (hp : p ∈ g.productions)
    (hq : q ∈ g.productions) (distinct : p ≠ q) :
    g.names.production p = g.names.production q ↔
      p.head = q.head ∧
        ((p.body = [] ∧ ∃ s, q.body = [s] ∧ g.Names "ε" s) ∨
          (q.body = [] ∧ ∃ s, p.body = [s] ∧ g.Names "ε" s)) := by
  have pristine := Specification.pristine_of_load loaded
  have wellFormed : g.WellFormed := pristine.obtained.lawful
  rw [pristine.production_eq_iff hp hq]
  apply and_congr_right
  intro head
  apply pristine.words_eq_iff (wellFormed.body_declared p hp) (wellFormed.body_declared q hq)
  exact fun body => distinct (Production.ext head body)

/-- A head with the empty body and with a terminal named `ε`. -/
def emptyOrEpsilon : Grammar where
  terminals := [⟨⟨0⟩, "ε"⟩]
  nonterminals := [⟨⟨0⟩, .declared "S"⟩]
  families := [⟨⟨0⟩, [[], [.terminal ⟨0⟩]]⟩]
  start := ⟨0⟩
  nextNonterminal := 1

theorem emptyOrEpsilon_display_production_eq :
    let script : List Definition.Step :=
      [.declare .nonterminal "S", .declare .terminal "ε", .rule ⟨0⟩ [], .rule ⟨0⟩ [.terminal ⟨0⟩]]
    let p : Production := ⟨⟨0⟩, []⟩
    let q : Production := ⟨⟨0⟩, [.terminal ⟨0⟩]⟩
    (Specification.script false script).load = .ok emptyOrEpsilon ∧
      p ∈ emptyOrEpsilon.productions ∧ q ∈ emptyOrEpsilon.productions ∧ p ≠ q ∧
      emptyOrEpsilon.names.production p = emptyOrEpsilon.names.production q := by
  intro script p q
  have loaded : (Specification.script false script).load = .ok emptyOrEpsilon := by decide +kernel
  have hp : p ∈ emptyOrEpsilon.productions := by decide
  have hq : q ∈ emptyOrEpsilon.productions := by decide
  have distinct : p ≠ q := by decide
  have named : emptyOrEpsilon.Names "ε" (.terminal ⟨0⟩) := List.mem_singleton_self _
  refine ⟨loaded, hp, hq, distinct, ?_⟩
  apply (Specification.display_production_eq_iff loaded hp hq distinct).mpr
  exact ⟨rfl, Or.inl ⟨rfl, .terminal ⟨0⟩, rfl, named⟩⟩

end ContextFree
