import ContextFree.Source.Token
import Mathlib.Data.List.Basic

/-!
# Tokens by longest match

The tokens of the notation can be described by rules: a run of blanks is skipped, the operators and
the two epsilons are spelt out, and any other character is a symbol of its own. At each place the
rule with the longest match is chosen, and of two rules with matches of one length the one that
spells its text out. A character that no rule matches is a fault.

Scanning the characters one after the other gives the tokens of the longest matches, and no fault.

## Main statements

* `longestMatch_blanks`, `longestMatch_arrow`, `exists_longestMatch_single`: what is chosen at the
  beginning of a text.
* `lexes_iff`: longest match gives the tokens of scanning, and no fault.
-/

namespace ContextFree.Source

inductive TokenRule where
  | blanks
  | arrow
  | bar
  | semicolon
  | epsilon
  | symbol
  deriving DecidableEq

/-- A rule matches a text and gives a token for it. The rule for blanks gives none. -/
inductive Matches : TokenRule → List Char → Option Token → Prop
  | blanks {w : List Char} (nonempty : w ≠ []) (blank : ∀ c ∈ w, isBlank c = true) :
      Matches .blanks w none
  | arrow : Matches .arrow ['-', '>'] (some .arrow)
  | bar : Matches .bar ['|'] (some .bar)
  | semicolon : Matches .semicolon [';'] (some .semicolon)
  | epsilon : Matches .epsilon ['ε'] (some .epsilon)
  | lunateEpsilon : Matches .epsilon ['ϵ'] (some .epsilon)
  | symbol {c : Char} (noBlank : isBlank c = false) (noBar : c ≠ '|') (noSemicolon : c ≠ ';') :
      Matches .symbol [c] (some (.symbol c))

/-- A rule that spells its text out takes precedence over one for a class of characters. -/
def TokenRule.precedence : TokenRule → Nat
  | blanks => 0
  | symbol => 0
  | _ => 1

/-- The match `w` that is chosen at the beginning of a text. -/
structure LongestMatch (cs w : List Char) (r : TokenRule) (t : Option Token) : Prop where
  isMatch : Matches r w t
  isPrefix : w <+: cs
  longest : ∀ q v u, Matches q v u → v <+: cs → v.length ≤ w.length
  preferred : ∀ q u, Matches q w u → q.precedence ≤ r.precedence

/-- How many bytes a text takes up. -/
def byteSize : List Char → Nat
  | [] => 0
  | c :: rest => c.utf8Size + byteSize rest

/-- The results of choosing longest matches one after the other in a text that begins at the given
byte. The result for a character that no rule matches is its place. -/
inductive Lexes : Nat → List Char → List (Except Nat Lexeme) → Prop
  | done {start : Nat} : Lexes start [] []
  | skip {start : Nat} {w rest : List Char} {r : TokenRule} {results : List (Except Nat Lexeme)}
      (chosen : LongestMatch (w ++ rest) w r none)
      (tail : Lexes (start + byteSize w) rest results) : Lexes start (w ++ rest) results
  | token {start : Nat} {w rest : List Char} {r : TokenRule} {t : Token}
      {results : List (Except Nat Lexeme)} (chosen : LongestMatch (w ++ rest) w r (some t))
      (tail : Lexes (start + byteSize w) rest results) :
      Lexes start (w ++ rest) (.ok ⟨t, start, start + byteSize w⟩ :: results)
  | fault {start : Nat} {c : Char} {rest : List Char} {results : List (Except Nat Lexeme)}
      (unmatched : ∀ r w t, Matches r w t → ¬ w <+: c :: rest)
      (tail : Lexes (start + c.utf8Size) rest results) :
      Lexes start (c :: rest) (.error start :: results)

section Matches

variable {c : Char} {w rest : List Char} {r : TokenRule} {t : Option Token}

theorem Matches.ne_nil (h : Matches r w t) : w ≠ [] := by
  cases h with
  | blanks nonempty => exact nonempty
  | _ => exact List.cons_ne_nil _ _

theorem Matches.exists_eq_cons (h : Matches r w t) (before : w <+: c :: rest) :
    ∃ others, w = c :: others := by
  obtain ⟨d, others, rfl⟩ := List.exists_cons_of_ne_nil h.ne_nil
  exact ⟨others, congrArg (· :: others) (List.cons_prefix_cons.mp before).1⟩

/-- A match that begins with a blank is a run of blanks. -/
theorem Matches.of_blank (h : Matches r (c :: w) t) (blank : isBlank c = true) :
    r = .blanks ∧ t = none ∧ ∀ d ∈ c :: w, isBlank d = true := by
  cases h with
  | blanks _ all => exact ⟨rfl, rfl, all⟩
  | symbol noBlank => rw [noBlank] at blank; cases blank
  | _ => cases blank

/-- A match that begins with no blank is an arrow or the token of a single character, but for an
epsilon that is taken for a symbol. -/
theorem Matches.of_not_blank (h : Matches r (c :: w) t) (noBlank : isBlank c = false) :
    (c = '-' ∧ w = ['>'] ∧ t = some .arrow) ∨
      (w = [] ∧ (t = Token.ofChar? c ∨ (isEpsilon c = true ∧ r = .symbol))) := by
  cases h with
  | blanks _ all =>
      rw [all c List.mem_cons_self] at noBlank
      cases noBlank
  | arrow => exact Or.inl ⟨rfl, rfl, rfl⟩
  | bar => exact Or.inr ⟨rfl, Or.inl rfl⟩
  | semicolon => exact Or.inr ⟨rfl, Or.inl rfl⟩
  | epsilon => exact Or.inr ⟨rfl, Or.inl rfl⟩
  | lunateEpsilon => exact Or.inr ⟨rfl, Or.inl rfl⟩
  | symbol _ noBar noSemicolon =>
      refine Or.inr ⟨rfl, ?_⟩
      by_cases epsilon : isEpsilon c = true
      · exact Or.inr ⟨epsilon, rfl⟩
      · left
        simp [Token.ofChar?, noBlank, noBar, noSemicolon, epsilon]

theorem isEpsilon_iff : isEpsilon c = true ↔ c = 'ε' ∨ c = 'ϵ' := by
  rw [isEpsilon, Bool.or_eq_true, decide_eq_true_iff, decide_eq_true_iff]

theorem matches_of_isEpsilon (epsilon : isEpsilon c = true) :
    Matches .epsilon [c] (some .epsilon) := by
  rcases isEpsilon_iff.mp epsilon with rfl | rfl
  · exact .epsilon
  · exact .lunateEpsilon

theorem TokenRule.precedence_le (r : TokenRule) : r.precedence ≤ 1 := by
  cases r <;> decide

/-- Every character that is no blank is matched by a rule that gives its token and is preferred. -/
theorem exists_matches_single (noBlank : isBlank c = false) :
    ∃ r, Matches r [c] (Token.ofChar? c) ∧
      ∀ q u, Matches q [c] u → q.precedence ≤ r.precedence := by
  by_cases bar : c = '|'
  · rw [bar]
    exact ⟨.bar, .bar, fun q _ _ => q.precedence_le⟩
  by_cases semicolon : c = ';'
  · rw [semicolon]
    exact ⟨.semicolon, .semicolon, fun q _ _ => q.precedence_le⟩
  by_cases epsilon : isEpsilon c = true
  · have spelt : Token.ofChar? c = some .epsilon := by
      simp [Token.ofChar?, noBlank, bar, semicolon, epsilon]
    rw [spelt]
    exact ⟨.epsilon, matches_of_isEpsilon epsilon, fun q _ _ => q.precedence_le⟩
  have spelt : Token.ofChar? c = some (.symbol c) := by
    simp [Token.ofChar?, noBlank, bar, semicolon, epsilon]
  rw [spelt]
  refine ⟨.symbol, .symbol noBlank bar semicolon, ?_⟩
  intro q u other
  cases other with
  | bar => exact absurd rfl bar
  | semicolon => exact absurd rfl semicolon
  | epsilon => exact absurd rfl epsilon
  | lunateEpsilon => exact absurd rfl epsilon
  | _ => exact Nat.le_refl _

end Matches

section LongestMatch

variable {c : Char} {w rest : List Char} {r : TokenRule} {t : Token}

/-- Where a text begins with a blank, the whole run of blanks is skipped. -/
theorem longestMatch_blanks (blank : isBlank c = true) :
    LongestMatch (c :: rest) ((c :: rest).takeWhile isBlank) .blanks none := by
  have begins : (c :: rest).takeWhile isBlank = c :: rest.takeWhile isBlank := by simp [blank]
  have allBlank : ∀ d ∈ (c :: rest).takeWhile isBlank, isBlank d = true :=
    List.all_eq_true.mp List.all_takeWhile
  refine ⟨.blanks (begins ▸ List.cons_ne_nil _ _) allBlank, List.takeWhile_prefix _, ?_, ?_⟩
  · intro q v u matched before
    obtain ⟨others, rfl⟩ := matched.exists_eq_cons before
    obtain ⟨-, -, all⟩ := matched.of_blank blank
    obtain ⟨later, split⟩ := before
    rw [← split, List.takeWhile_append_of_pos all, List.length_append]
    exact Nat.le_add_right _ _
  · intro q u matched
    rw [begins] at matched
    obtain ⟨rfl, -, -⟩ := matched.of_blank blank
    exact Nat.le_refl _

theorem longestMatch_arrow : LongestMatch ('-' :: '>' :: rest) ['-', '>'] .arrow (some .arrow) := by
  refine ⟨.arrow, ⟨rest, rfl⟩, ?_, fun q _ _ => q.precedence_le⟩
  intro q v u matched before
  obtain ⟨others, rfl⟩ := matched.exists_eq_cons before
  rcases matched.of_not_blank (by decide) with ⟨-, rfl, -⟩ | ⟨rfl, -⟩ <;> simp

/-- Elsewhere a single character is chosen. -/
theorem exists_longestMatch_single (noBlank : isBlank c = false)
    (noArrow : ¬ ['-', '>'] <+: c :: rest) :
    ∃ r, LongestMatch (c :: rest) [c] r (Token.ofChar? c) := by
  obtain ⟨r, matched, preferred⟩ := exists_matches_single noBlank
  refine ⟨r, matched, ⟨rest, rfl⟩, ?_, preferred⟩
  intro q v u other before
  obtain ⟨others, rfl⟩ := other.exists_eq_cons before
  rcases other.of_not_blank noBlank with ⟨rfl, rfl, -⟩ | ⟨rfl, -⟩
  · exact absurd before noArrow
  · exact Nat.le_refl _

/-- A chosen match that gives a token is an arrow or a single character, and the arrow wherever
there is one. -/
theorem LongestMatch.eq_arrow_or_single (chosen : LongestMatch (w ++ rest) w r (some t)) :
    (w = ['-', '>'] ∧ t = .arrow) ∨
      ∃ c, w = [c] ∧ Token.ofChar? c = some t ∧ ¬ ['-', '>'] <+: c :: rest := by
  obtain ⟨c, others, rfl⟩ := List.exists_cons_of_ne_nil chosen.isMatch.ne_nil
  have noBlank : isBlank c = false := by
    rw [← Bool.not_eq_true]
    intro blank
    cases (chosen.isMatch.of_blank blank).2.1
  rcases chosen.isMatch.of_not_blank noBlank with ⟨rfl, rfl, arrow⟩ | ⟨rfl, token⟩
  · exact Or.inl ⟨rfl, Option.some.inj arrow⟩
  · refine Or.inr ⟨c, rfl, ?_, ?_⟩
    · rcases token with spelt | ⟨epsilon, rfl⟩
      · exact spelt.symm
      · exact absurd (chosen.preferred _ _ (matches_of_isEpsilon epsilon)) (by decide)
    · intro arrow
      have shorter : 2 ≤ 1 := chosen.longest _ _ _ .arrow arrow
      omega

end LongestMatch

section Scanning

variable {start : Nat} {c : Char} {w rest cs : List Char} {t : Token}

theorem ofChar?_eq_none_iff : Token.ofChar? c = none ↔ isBlank c = true := by
  unfold Token.ofChar?
  split_ifs <;> simp_all

theorem scan_token (noArrow : ¬ ['-', '>'] <+: c :: rest) (spelt : Token.ofChar? c = some t) :
    scan start (c :: rest) =
      ⟨t, start, start + c.utf8Size⟩ :: scan (start + c.utf8Size) rest := by
  rw [scan, spelt]
  rintro others rfl rfl
  exact noArrow ⟨others, rfl⟩

theorem scan_blank (blank : isBlank c = true) :
    scan start (c :: rest) = scan (start + c.utf8Size) rest := by
  rw [scan]
  · simp [Token.ofChar?, blank]
  · rintro others rfl
    cases blank

theorem byteSize_cons : byteSize (c :: w) = c.utf8Size + byteSize w := rfl

/-- A run of blanks has no tokens. -/
theorem scan_blanks (blank : ∀ c ∈ w, isBlank c = true) :
    scan start (w ++ rest) = scan (start + byteSize w) rest := by
  induction w generalizing start with
  | nil => rfl
  | cons c w ih =>
      obtain ⟨first, others⟩ := List.forall_mem_cons.mp blank
      rw [List.cons_append, scan_blank first, ih others, byteSize_cons, Nat.add_assoc]

/-- The results of longest match are the tokens that scanning gives. -/
theorem Lexes.eq_scan {results : List (Except Nat Lexeme)} (h : Lexes start cs results) :
    results = (scan start cs).map .ok := by
  induction h with
  | done => rfl
  | skip chosen _ ih =>
      cases chosen.isMatch with
      | blanks _ blank => rw [ih, scan_blanks blank]
  | token chosen _ ih =>
      rcases chosen.eq_arrow_or_single with ⟨rfl, rfl⟩ | ⟨c, rfl, spelt, noArrow⟩
      · rw [ih]
        rfl
      · rw [ih, List.cons_append, List.nil_append, scan_token noArrow spelt]
        rfl
  | @fault _ c rest _ unmatched =>
      by_cases blank : isBlank c = true
      · have chosen : LongestMatch (c :: rest) _ _ _ := longestMatch_blanks blank
        exact absurd chosen.isPrefix (unmatched _ _ _ chosen.isMatch)
      · obtain ⟨r, matched, _⟩ := exists_matches_single (Bool.not_eq_true _ ▸ blank)
        exact absurd ⟨rest, rfl⟩ (unmatched r [c] _ matched)

/-- Scanning gives the results of longest match. By recursion on the length of the text, as the
rule for blanks takes at once what scanning passes one by one. -/
theorem lexes_scan (start : Nat) (cs : List Char) : Lexes start cs ((scan start cs).map .ok) := by
  cases cs with
  | nil => exact .done
  | cons c rest =>
      by_cases blank : isBlank c = true
      · have split : (c :: rest).takeWhile isBlank ++ (c :: rest).dropWhile isBlank = c :: rest :=
          List.takeWhile_append_dropWhile
        have shorter : ((c :: rest).dropWhile isBlank).length < (c :: rest).length := by
          rw [List.dropWhile_cons_of_pos blank]
          exact Nat.lt_succ_of_le (List.dropWhile_sublist _).length_le
        have chosen : LongestMatch ((c :: rest).takeWhile isBlank ++ (c :: rest).dropWhile isBlank)
            ((c :: rest).takeWhile isBlank) .blanks none := by
          rw [split]
          exact longestMatch_blanks blank
        rw [← split, scan_blanks (List.all_eq_true.mp List.all_takeWhile)]
        exact .skip chosen (lexes_scan _ _)
      by_cases arrow : ['-', '>'] <+: c :: rest
      · obtain ⟨others, begins⟩ := arrow
        have shorter : others.length < (c :: rest).length := by
          rw [← begins, List.length_append]
          exact Nat.lt_add_of_pos_left (by decide)
        rw [← begins]
        exact .token longestMatch_arrow (lexes_scan _ others)
      · obtain ⟨r, chosen⟩ := exists_longestMatch_single (Bool.not_eq_true _ ▸ blank) arrow
        cases spelt : Token.ofChar? c with
        | none => exact absurd (ofChar?_eq_none_iff.mp spelt) blank
        | some t =>
            rw [scan_token arrow spelt]
            rw [spelt] at chosen
            exact .token (w := [c]) chosen (lexes_scan _ rest)
termination_by cs.length
decreasing_by
  · exact shorter
  · exact shorter
  · exact Nat.lt_succ_self _

/-- Longest match meets no fault, and its results are the tokens that scanning gives. -/
theorem lexes_iff {results : List (Except Nat Lexeme)} :
    Lexes start cs results ↔ results = (scan start cs).map .ok := by
  constructor
  · exact Lexes.eq_scan
  · rintro rfl
    exact lexes_scan start cs

end Scanning

end ContextFree.Source
