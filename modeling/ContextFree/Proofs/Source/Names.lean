import ContextFree.Definition.Name
import ContextFree.Proofs.Source.Reading
import Mathlib.Data.List.Perm.Subperm

/-!
# The names in a source text

Every name that a parsed rule uses is a single character of the source text that spells a
symbol. In a plain text there are fewer than 128 such characters, and of these only the
dollar sign and the vertical tab are no names: the vertical tab is white space for names and
not a blank between tokens.

## Main statements

* `exists_char_of_mem_usedNames`: where the names of parsed rules come from.
* `isName_eq_false_iff`: which symbols of a plain text are no names.
-/

namespace ContextFree.Source

/-- All names that a rule uses. -/
def Rule.names (r : Rule) : List String := r.head :: r.bodies.flatten

/-- All names that rules use. -/
def usedNames (rules : List Rule) : List String := rules.flatMap Rule.names

variable {rules : List Rule} {r : Rule} {name : String}

theorem head_mem_usedNames (hr : r ∈ rules) : r.head ∈ usedNames rules :=
  List.mem_flatMap.mpr ⟨r, hr, List.mem_cons_self⟩

theorem mem_usedNames_of_mem {body : List String} (hr : r ∈ rules) (hb : body ∈ r.bodies)
    (hn : name ∈ body) : name ∈ usedNames rules :=
  List.mem_flatMap.mpr
    ⟨r, hr, List.mem_cons_of_mem _ (List.mem_flatten.mpr ⟨body, hb, hn⟩)⟩

section Characters

variable {c d : Char}

/-- A character that spells a symbol spells itself, and nothing else is written with it. -/
theorem ofChar?_eq_symbol (h : Token.ofChar? d = some (.symbol c)) :
    d = c ∧ isBlank c = false ∧ isEpsilon c = false := by
  unfold Token.ofChar? at h
  split at h
  · cases h
  next noBlank =>
    split at h
    · cases h
    · split at h
      · cases h
      · split at h
        · cases h
        next noEpsilon =>
          cases h
          exact ⟨rfl, Bool.not_eq_true _ ▸ noBlank, Bool.not_eq_true _ ▸ noEpsilon⟩

theorem symbol_of_mem_scan {start : Nat} {cs : List Char} {x : Lexeme} (hx : x ∈ scan start cs)
    (symbol : x.token = .symbol c) : c ∈ cs ∧ isBlank c = false ∧ isEpsilon c = false := by
  fun_induction scan start cs with
  | case1 start rest ih =>
      cases List.mem_cons.mp hx with
      | inl same =>
          subst same
          cases symbol
      | inr later =>
          obtain ⟨member, kind⟩ := ih later
          exact ⟨List.mem_cons_of_mem _ (List.mem_cons_of_mem _ member), kind⟩
  | case2 start d rest _ t spelt ih =>
      cases List.mem_cons.mp hx with
      | inl same =>
          subst same
          change t = .symbol c at symbol
          subst symbol
          obtain ⟨rfl, kind⟩ := ofChar?_eq_symbol spelt
          exact ⟨List.mem_cons_self, kind⟩
      | inr later =>
          obtain ⟨member, kind⟩ := ih later
          exact ⟨List.mem_cons_of_mem _ member, kind⟩
  | case3 start d rest _ _ ih =>
      obtain ⟨member, kind⟩ := ih hx
      exact ⟨List.mem_cons_of_mem _ member, kind⟩
  | case4 => exact absurd hx List.not_mem_nil

/-- A symbol token is a character of the source that is neither a blank nor an epsilon. -/
theorem symbol_of_mem_tokens {source : String} (h : .symbol c ∈ tokens source) :
    c ∈ source.toList ∧ isBlank c = false ∧ isEpsilon c = false := by
  rw [tokens, lex_eq_scan] at h
  obtain ⟨x, hx, symbol⟩ := List.mem_map.mp h
  exact symbol_of_mem_scan hx symbol

/-- Of the plain characters that spell symbols two are no names. -/
theorem isName_eq_false_iff (plain : c.toNat < 128) (noBlank : isBlank c = false) :
    isName (String.singleton c) = false ↔ c = '$' ∨ c = '\x0b' := by
  have single : isName (String.singleton c) = (c != '$' && !isWhiteSpace c) := by
    simp [isName]
  have white : isWhiteSpace c = true ↔ c = '\x0b' := by
    simp only [isBlank, Bool.or_eq_false_iff, decide_eq_false_iff_not, ← Char.toNat_inj] at noBlank
    rw [isWhiteSpace, ← Char.toNat_inj]
    simp only [Bool.or_eq_true, Bool.and_eq_true, decide_eq_true_eq]
    have vertical : '\x0b'.toNat = 11 := rfl
    have space : ' '.toNat = 32 := rfl
    have tab : '\t'.toNat = 9 := rfl
    have feed : '\n'.toNat = 10 := rfl
    have page : '\x0c'.toNat = 12 := rfl
    have carriage : '\r'.toNat = 13 := rfl
    omega
  rw [single, Bool.and_eq_false_iff, bne_eq_false_iff_eq, Bool.not_eq_false', white]

end Characters

section Written

theorem exists_symbol_of_mem_names {items : List Item} (h : name ∈ Item.names items) :
    ∃ c, name = String.singleton c ∧ .symbol c ∈ items.map Item.token := by
  induction items with
  | nil => exact absurd h List.not_mem_nil
  | cons i rest ih =>
      cases i with
      | symbol c =>
          cases List.mem_cons.mp h with
          | inl same => exact ⟨c, same, List.mem_cons_self⟩
          | inr later =>
              obtain ⟨d, same, member⟩ := ih later
              exact ⟨d, same, List.mem_cons_of_mem _ member⟩
      | epsilon =>
          obtain ⟨d, same, member⟩ := ih h
          exact ⟨d, same, List.mem_cons_of_mem _ member⟩

theorem WrittenRule.exists_symbol_of_mem_names {r : WrittenRule} (h : name ∈ r.rule.names) :
    ∃ c, name = String.singleton c ∧ .symbol c ∈ r.tokens := by
  cases List.mem_cons.mp h with
  | inl head => exact ⟨r.head, head, List.mem_cons_self⟩
  | inr body =>
      obtain ⟨_, written, member⟩ := List.mem_flatten.mp body
      obtain ⟨b, hb, rfl⟩ := List.mem_map.mp written
      obtain ⟨c, same, token⟩ := Source.exists_symbol_of_mem_names member
      refine ⟨c, same, List.mem_cons_of_mem _ (List.mem_cons_of_mem _ (List.mem_append.mpr ?_))⟩
      cases List.mem_cons.mp hb with
      | inl first => exact Or.inl (first ▸ token)
      | inr rest =>
          exact Or.inr (List.mem_flatMap.mpr ⟨b, rest, List.mem_cons_of_mem _ token⟩)

theorem WrittenText.exists_symbol_of_mem_usedNames {t : WrittenText}
    (h : name ∈ usedNames t.rules) : ∃ c, name = String.singleton c ∧ .symbol c ∈ t.tokens := by
  obtain ⟨_, written, member⟩ := List.mem_flatMap.mp h
  obtain ⟨p, hp, rfl⟩ := List.mem_map.mp written
  obtain ⟨c, same, token⟩ := p.1.exists_symbol_of_mem_names member
  refine ⟨c, same, List.mem_append_right _ ?_⟩
  exact List.mem_flatMap.mpr ⟨p, hp, List.mem_append_left _ token⟩

end Written

/-- Every name in parsed rules is a character of the source that spells a symbol. -/
theorem exists_char_of_mem_usedNames {source : String} (ok : parse source = .ok rules)
    (h : name ∈ usedNames rules) : ∃ c ∈ source.toList,
      name = String.singleton c ∧ isBlank c = false ∧ isEpsilon c = false := by
  obtain ⟨text, written, rfl⟩ := parse_eq_ok_iff_exists.mp ok
  obtain ⟨c, same, token⟩ := text.exists_symbol_of_mem_usedNames h
  obtain ⟨member, kind⟩ := symbol_of_mem_tokens (written ▸ token)
  exact ⟨c, member, same, kind⟩

/-- A text over the first 128 characters and the two epsilons. -/
def Plain (source : String) : Prop :=
  ∀ c ∈ source.toList, c.toNat < 128 ∨ c = 'ε' ∨ c = 'ϵ'

instance (source : String) : Decidable (Plain source) := List.decidableBAll _ source.toList

theorem Plain.exists_char_of_mem_usedNames {source : String} (plain : Plain source)
    (ok : parse source = .ok rules) (h : name ∈ usedNames rules) :
    ∃ c : Char, name = String.singleton c ∧ c.toNat < 128 ∧ isBlank c = false := by
  obtain ⟨c, member, same, noBlank, noEpsilon⟩ := Source.exists_char_of_mem_usedNames ok h
  refine ⟨c, same, ?_, noBlank⟩
  cases plain c member with
  | inl small => exact small
  | inr epsilon =>
      simp only [isEpsilon, Bool.or_eq_false_iff, decide_eq_false_iff_not] at noEpsilon
      exact absurd epsilon (not_or.mpr noEpsilon)

/-- There are at most 128 names of one plain character. -/
theorem length_le_of_plain {names : List String} (nodup : names.Nodup)
    (plain : ∀ name ∈ names, ∃ c : Char, name = String.singleton c ∧ c.toNat < 128) :
    names.length ≤ 128 := by
  have inside : names ⊆ (List.range 128).map fun n => String.singleton (Char.ofNat n) := by
    intro name member
    obtain ⟨c, rfl, small⟩ := plain name member
    exact List.mem_map.mpr ⟨c.toNat, List.mem_range.mpr small, by rw [Char.ofNat_toNat]⟩
  calc
    names.length ≤ ((List.range 128).map fun n => String.singleton (Char.ofNat n)).length :=
      (nodup.subperm inside).length_le
    _ = 128 := by rw [List.length_map, List.length_range]

end ContextFree.Source
