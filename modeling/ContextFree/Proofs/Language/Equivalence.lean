import ContextFree.Proofs.Language.Enumeration
import ContextFree.Proofs.Obtained
import ContextFree.Proofs.Recognition.Chart
import Mathlib.Data.Set.Basic

/-!
# The comparison with a normal form is exact

Two sets of words are compared by the texts of their words, and different words can have
the same text. The texts still tell how many words there are. The recognizer is right on
all words over the terminals of the normal form, so its agreement with the expected words
shows that the words of the normal form are among them. Both together leave no word out.

## Main statements

* `Grammar.mem_allWords`: the words over the terminals of a grammar.
* `Obtained.agreesWith_iff`: the comparison succeeds exactly if the bounded languages agree.
-/

namespace ContextFree

namespace WordSet

variable {s t : WordSet}

theorem toList_eq_iff : s.toList = t.toList ↔ ∀ w, w ∈ s ↔ w ∈ t := by
  constructor
  · intro same w
    rw [← Std.TreeSet.mem_toList, same, Std.TreeSet.mem_toList]
  · intro same
    exact Std.TreeSet.Equiv.toList_eq (Std.TreeSet.Equiv.of_forall_mem_iff same)

/-- A set of words inside another of the same size is the other. -/
theorem mem_iff_of_length_eq (sub : ∀ w ∈ s, w ∈ t) (size : s.toList.length = t.toList.length)
    (w : Word) : w ∈ s ↔ w ∈ t := by
  have inside : s.toList ⊆ t.toList := by
    intro u member
    exact Std.TreeSet.mem_toList.mpr (sub u (Std.TreeSet.mem_toList.mp member))
  have perm : s.toList.Perm t.toList :=
    ((nodup_toList s).subperm inside).perm_of_length_le size.ge
  rw [← Std.TreeSet.mem_toList, perm.mem_iff, Std.TreeSet.mem_toList]

end WordSet

/-- A letter of a derived word stands in the body or in a body of a production. -/
theorem Yields.terminal_of_mem {P : Production → Prop} {b : Body} {w : Word} {t : TerminalId}
    (h : Yields P b w) (ht : t ∈ w) : .terminal t ∈ b ∨ ∃ p, P p ∧ .terminal t ∈ p.body := by
  induction h with
  | nil => exact absurd ht List.not_mem_nil
  | @terminal u rest w _ ih =>
      cases List.mem_cons.mp ht with
      | inl same => exact Or.inl (same ▸ List.mem_cons_self)
      | inr later => exact (ih later).imp_left (List.mem_cons_of_mem _)
  | @nonterminal n body rest u v rule _ _ first tail =>
      cases List.mem_append.mp ht with
      | inl inner => exact Or.inr ((first inner).elim (fun here => ⟨_, rule, here⟩) id)
      | inr outer => exact (tail outer).imp_left (List.mem_cons_of_mem _)

namespace Grammar

variable {g : Grammar} {limit : Nat} {w : Word}

theorem WellFormed.declares_letter (h : g.WellFormed) {n : NonterminalId} {t : TerminalId}
    (derives : g.Derives n w) (ht : t ∈ w) : t ∈ g.terminals.map Terminal.id := by
  cases derives.terminal_of_mem ht with
  | inl here => cases List.mem_singleton.mp here
  | inr inner =>
      obtain ⟨p, rule, here⟩ := inner
      exact h.body_declared p rule _ here

theorem mem_wordsOfLength {alphabet : List TerminalId} {n : Nat} :
    w ∈ wordsOfLength alphabet n ↔ w.length = n ∧ ∀ t ∈ w, t ∈ alphabet := by
  induction n generalizing w with
  | zero =>
      rw [wordsOfLength, List.mem_singleton, List.length_eq_zero_iff]
      constructor
      · intro empty
        subst empty
        exact ⟨rfl, fun t ht => absurd ht List.not_mem_nil⟩
      · exact And.left
  | succ n ih =>
      rw [wordsOfLength, lengthen, List.mem_flatMap]
      constructor
      · intro h
        obtain ⟨u, shorter, member⟩ := h
        obtain ⟨t, letter, rfl⟩ := List.mem_map.mp member
        obtain ⟨length, letters⟩ := ih.mp shorter
        refine ⟨by rw [List.length_append, length, List.length_singleton], ?_⟩
        intro a ha
        cases List.mem_append.mp ha with
        | inl old => exact letters a old
        | inr new => exact List.mem_singleton.mp new ▸ letter
      · intro h
        obtain ⟨length, letters⟩ := h
        -- The words are lengthened at their ends, so `w` is cut before its last letter.
        have nonempty : w ≠ [] := List.ne_nil_of_length_eq_add_one length
        obtain ⟨u, t, rfl⟩ : ∃ u t, w = u ++ [t] :=
          ⟨w.dropLast, w.getLast nonempty, (List.dropLast_append_getLast nonempty).symm⟩
        rw [List.length_append, List.length_singleton] at length
        refine ⟨u, ih.mpr ⟨by omega, fun a ha => letters a (List.mem_append_left _ ha)⟩, ?_⟩
        exact List.mem_map.mpr ⟨t, letters t (by simp), rfl⟩

/-- The words of bounded length over the terminals of a grammar. -/
theorem mem_allWords :
    w ∈ g.allWords limit ↔ w.length ≤ limit ∧ ∀ t ∈ w, t ∈ g.terminals.map Terminal.id := by
  rw [allWords_eq, List.mem_flatMap]
  constructor
  · intro h
    obtain ⟨n, bound, member⟩ := h
    obtain ⟨rfl, letters⟩ := mem_wordsOfLength.mp member
    exact ⟨Nat.le_of_lt_succ (List.mem_range.mp bound), letters⟩
  · intro h
    obtain ⟨fits, letters⟩ := h
    exact ⟨w.length, List.mem_range.mpr (Nat.lt_succ_of_le fits),
      mem_wordsOfLength.mpr ⟨rfl, letters⟩⟩

end Grammar

namespace NormalForm

variable {c : NormalForm} {g : Grammar} {limit : Nat} {w : Word}

/-- The words that the normal form of a grammar should have. -/
def expectedWords (c : NormalForm) (g : Grammar) (limit : Nat) : WordSet :=
  if c.derivesEmpty then g.words limit else (g.words limit).erase []

theorem mem_expectedWords :
    w ∈ c.expectedWords g limit ↔
      w.length ≤ limit ∧ g.Derives g.start w ∧ (w = [] → c.derivesEmpty = true) := by
  have derived : w ∈ g.words limit ↔ w.length ≤ limit ∧ g.Derives g.start w :=
    Grammar.mem_wordsFrom_iff
  rw [expectedWords]
  by_cases keeps : c.derivesEmpty = true
  · rw [if_pos keeps, derived]
    simp [keeps]
  · rw [if_neg keeps, Std.TreeSet.mem_erase, derived, ne_eq, Std.compare_eq_iff_eq]
    constructor
    · intro h
      obtain ⟨nonempty, fits, derives⟩ := h
      exact ⟨fits, derives, fun empty => absurd empty.symm nonempty⟩
    · intro h
      obtain ⟨fits, derives, nonempty⟩ := h
      exact ⟨fun empty => keeps (nonempty empty.symm), fits, derives⟩

theorem agreesWith_eq_true_iff :
    c.agreesWith g limit = true ↔
      (c.grammar.words limit).toList.map (Grammar.render g.names) =
          (c.expectedWords g limit).toList.map (Grammar.render g.names) ∧
        ∀ w ∈ c.grammar.allWords limit, (c.accepts w = true ↔ w ∈ c.expectedWords g limit) := by
  have same (w : Word) : (c.accepts w == (c.expectedWords g limit).contains w) = true ↔
      (c.accepts w = true ↔ w ∈ c.expectedWords g limit) := by
    rw [beq_iff_eq, Bool.eq_iff_iff, Std.TreeSet.contains_iff_mem]
  rw [agreesWith, Bool.and_eq_true, beq_iff_eq, List.all_eq_true]
  exact and_congr_right fun _ => forall₂_congr fun w _ => same w

end NormalForm

/-- The comparison with an obtained normal form succeeds exactly if both derive the same words
of bounded length, where the empty word is expected only if the normal form keeps it. The
grammar can be any grammar. -/
theorem Obtained.agreesWith_iff {c : NormalForm} (h : Obtained (.normalForm c)) (g : Grammar)
    (limit : Nat) :
    c.agreesWith g limit = true ↔
      {w : Word | w.length ≤ limit ∧ g.Derives g.start w ∧ (w = [] → c.derivesEmpty = true)} =
        {w : Word | w.length ≤ limit ∧ c.grammar.Derives c.grammar.start w} := by
  obtain ⟨wellFormed, form⟩ := h.lawful
  have actual (w : Word) : w ∈ c.grammar.words limit ↔
      w.length ≤ limit ∧ c.grammar.Derives c.grammar.start w := Grammar.mem_wordsFrom_iff
  have languages : (∀ w, w ∈ c.grammar.words limit ↔ w ∈ c.expectedWords g limit) ↔
      {w : Word | w.length ≤ limit ∧ g.Derives g.start w ∧ (w = [] → c.derivesEmpty = true)} =
        {w : Word | w.length ≤ limit ∧ c.grammar.Derives c.grammar.start w} := by
    rw [Set.ext_iff]
    refine forall_congr' fun w => ?_
    rw [actual, NormalForm.mem_expectedWords]
    exact Iff.comm
  rw [NormalForm.agreesWith_eq_true_iff, ← languages]
  constructor
  · intro agreement
    obtain ⟨texts, recognized⟩ := agreement
    -- The texts only count the words; the recognizer gives the inclusion.
    have size : (c.grammar.words limit).toList.length =
        (c.expectedWords g limit).toList.length := by
      simpa using congrArg List.length texts
    apply WordSet.mem_iff_of_length_eq _ size
    intro w member
    obtain ⟨fits, derives⟩ := (actual w).mp member
    have letters : ∀ t ∈ w, t ∈ c.grammar.terminals.map Terminal.id :=
      fun t ht => wellFormed.declares_letter derives ht
    have listed := Grammar.mem_allWords.mpr ⟨fits, letters⟩
    exact (recognized w listed).mp ((form.accepts_iff w).mpr derives)
  · intro same
    constructor
    · rw [WordSet.toList_eq_iff.mpr same]
    · intro w listed
      obtain ⟨fits, _⟩ := Grammar.mem_allWords.mp listed
      rw [form.accepts_iff, ← same, actual, and_iff_right fits]

/-- The grammar of the palindromes agrees with its normal form that keeps the empty word. Its
useful part has lost the empty word and does not agree. -/
theorem evenPalindromes_agreesWith_iff :
    let c : NormalForm := ⟨evenPalindromes.usefulPart.paired true, true⟩
    Obtained (.normalForm c) ∧ c.agreesWith evenPalindromes 2 = true ∧
      {w : Word | w.length ≤ 2 ∧ evenPalindromes.Derives ⟨0⟩ w ∧ (w = [] → c.derivesEmpty = true)} =
        {w : Word | w.length ≤ 2 ∧ c.grammar.Derives c.grammar.start w} ∧
      {w : Word | w.length ≤ 2 ∧ evenPalindromes.usefulPart.Derives ⟨0⟩ w ∧
          (w = [] → c.derivesEmpty = true)} ≠
        {w : Word | w.length ≤ 2 ∧ c.grammar.Derives c.grammar.start w} := by
  intro c
  have ok : Reachable.normalForm ⟨evenPalindromes.usefulPart⟩ true = .ok c := by decide +kernel
  have obtained : Obtained (.normalForm c) :=
    (obtained_evenPalindromes.usefulPart (by decide +kernel)).normalForm ok
  have agrees : c.agreesWith evenPalindromes 2 = true := by decide +kernel
  have differs : ¬ c.agreesWith evenPalindromes.usefulPart 2 = true := by decide +kernel
  refine ⟨obtained, agrees, ?_, ?_⟩
  · exact (obtained.agreesWith_iff evenPalindromes 2).mp agrees
  · exact mt (obtained.agreesWith_iff evenPalindromes.usefulPart 2).mpr differs

end ContextFree
