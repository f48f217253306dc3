import ContextFree.Language.Enumeration
import ContextFree.Proofs.Saturation
import Mathlib.Data.List.Perm.Subperm
import Mathlib.Logic.Function.Iterate

/-!
# The enumeration of bounded words is exact

A table of known words can be read as a set of productions: every known word is a body of
its head. A pass adds to each head the words of bounded length that its bodies yield by
these productions, so all that is known is derived. Conversely, suppose that all derived
words shorter than `w` are known. As long as some head that derives `w` is missing, a pass
adds `w` to a further head. So as many passes as there are heads make every length complete
after the lengths below it, and the loop comes to an end.

## Main statements

* `WordTable.mem_wordsOf`: the words of a body, given the words of its nonterminals.
* `WordTable.completeBelow_rounds`: how many passes find all words of bounded length.
* `Grammar.wordsFrom_exact`: the loop ends, and what it finds are the derived words.
-/

namespace ContextFree

namespace WordSet

variable {s words : WordSet} {u w : Word}

theorem nodup_toList (words : WordSet) : words.toList.Nodup := by
  refine Std.TreeSet.distinct_toList.imp ?_
  intro u v distinct same
  exact distinct (Std.compare_eq_iff_eq.mpr same)

theorem mem_insert_iff : w ∈ s.insert u ↔ w ∈ s ∨ u = w := by
  rw [Std.TreeSet.mem_insert, Std.compare_eq_iff_eq, or_comm]

theorem mem_ite_insert_iff {p : Prop} [Decidable p] :
    w ∈ (if p then s.insert u else s) ↔ w ∈ s ∨ (p ∧ u = w) := by
  by_cases h : p
  · rw [if_pos h, mem_insert_iff, and_iff_right h]
  · rw [if_neg h]
    exact (or_iff_left fun added => h added.1).symm

/-- A fold over a set of words that adds certain words at each. -/
theorem mem_foldl_iff {add : WordSet → Word → WordSet} {each : Word → Prop}
    (step : ∀ s u, w ∈ add s u ↔ w ∈ s ∨ each u) :
    w ∈ words.foldl add s ↔ w ∈ s ∨ ∃ u ∈ words, each u := by
  rw [Std.TreeSet.foldl_eq_foldl_toList, foldl_iff (fun s : WordSet => w ∈ s) step]
  simp only [Std.TreeSet.mem_toList]

end WordSet

namespace WordTable

variable {limit : Nat} {table next : WordTable} {productions : List Production}
  {n : NonterminalId} {body : Body} {w : Word}

/-- A word is known for a head. -/
def Knows (table : WordTable) (n : NonterminalId) (w : Word) : Prop := w ∈ table.getD n ∅

instance : Decidable (table.Knows n w) := inferInstanceAs (Decidable (w ∈ table.getD n ∅))

theorem not_knows_empty : ¬ (∅ : WordTable).Knows n w := by
  simp [Knows]

/-- The known words as productions. -/
def Lists (table : WordTable) (p : Production) : Prop :=
  ∃ w, table.Knows p.head w ∧ p.body = w.map .terminal

theorem yields_nonterminal_iff : Yields table.Lists [.nonterminal n] w ↔ table.Knows n w := by
  rw [Yields.singleton_iff]
  constructor
  · intro h
    obtain ⟨_, ⟨u, known, rfl⟩, yields⟩ := h
    rwa [Yields.map_terminal_iff.mp yields]
  · intro known
    exact ⟨_, ⟨w, known, rfl⟩, Yields.map_terminal_iff.mpr rfl⟩

theorem yields_mono (sub : ∀ n w, table.Knows n w → next.Knows n w)
    (h : Yields table.Lists body w) : Yields next.Lists body w := by
  apply h.mono
  intro p listed
  obtain ⟨u, known, same⟩ := listed
  exact ⟨u, sub p.head u known, same⟩

section Pass

/-- Extending words by a symbol appends what the symbol yields, as far as it fits. -/
theorem mem_extend {words : WordSet} {s : Symbol} :
    w ∈ extend limit table words s ↔
      w.length ≤ limit ∧ ∃ u ∈ words, ∃ v, w = u ++ v ∧ Yields table.Lists [s] v := by
  cases s with
  | terminal t =>
      have step (s : WordSet) (u : Word) :
          w ∈ (if u.length < limit then s.insert (u ++ [t]) else s) ↔
            w ∈ s ∨ (u.length < limit ∧ u ++ [t] = w) := WordSet.mem_ite_insert_iff
      rw [extend, WordSet.mem_foldl_iff step]
      simp only [Std.TreeSet.not_mem_emptyc, false_or, Yields.singleton_terminal_iff]
      constructor
      · intro h
        obtain ⟨u, member, fits, rfl⟩ := h
        refine ⟨?_, u, member, [t], rfl, rfl⟩
        rw [List.length_append, List.length_singleton]
        exact fits
      · intro h
        obtain ⟨fits, u, member, _, rfl, rfl⟩ := h
        rw [List.length_append, List.length_singleton] at fits
        exact ⟨u, member, fits, rfl⟩
  | nonterminal n =>
      have step (u : Word) (s : WordSet) (v : Word) :
          w ∈ (if u.length + v.length ≤ limit then s.insert (u ++ v) else s) ↔
            w ∈ s ∨ (u.length + v.length ≤ limit ∧ u ++ v = w) := WordSet.mem_ite_insert_iff
      rw [extend, WordSet.mem_foldl_iff fun s u => WordSet.mem_foldl_iff (step u)]
      simp only [Std.TreeSet.not_mem_emptyc, false_or, yields_nonterminal_iff]
      constructor
      · intro h
        obtain ⟨u, member, v, known, fits, rfl⟩ := h
        exact ⟨by rwa [List.length_append], u, member, v, rfl, known⟩
      · intro h
        obtain ⟨fits, u, member, v, rfl, known⟩ := h
        exact ⟨u, member, v, known, by rwa [List.length_append] at fits, rfl⟩

/-- Cutting words off at every symbol loses none that fits in the end. -/
theorem mem_foldl_extend {words : WordSet} (fits : ∀ u ∈ words, u.length ≤ limit) :
    w ∈ body.foldl (extend limit table) words ↔
      w.length ≤ limit ∧ ∃ u ∈ words, ∃ v, w = u ++ v ∧ Yields table.Lists body v := by
  induction body generalizing words with
  | nil =>
      constructor
      · intro member
        exact ⟨fits w member, w, member, [], (List.append_nil w).symm, .nil⟩
      · intro h
        obtain ⟨_, u, member, v, rfl, empty⟩ := h
        rwa [Yields.nil_iff.mp empty, List.append_nil]
  | cons s rest ih =>
      rw [List.foldl_cons, ih fun u member => (mem_extend.mp member).1]
      refine and_congr_right fun short => ?_
      constructor
      · intro h
        obtain ⟨_, extended, z, rfl, tail⟩ := h
        obtain ⟨_, u, member, v, rfl, head⟩ := mem_extend.mp extended
        refine ⟨u, member, v ++ z, List.append_assoc u v z, ?_⟩
        exact Yields.cons_iff.mpr ⟨v, z, rfl, head, tail⟩
      · intro h
        obtain ⟨u, member, _, rfl, yields⟩ := h
        obtain ⟨v, z, rfl, head, tail⟩ := Yields.cons_iff.mp yields
        refine ⟨u ++ v, mem_extend.mpr ⟨?_, u, member, v, rfl, head⟩, z, ?_, tail⟩
        · simp only [List.length_append] at short ⊢
          omega
        · exact (List.append_assoc u v z).symm

/-- The words of a body are those it yields by the known words, as far as they fit. -/
theorem mem_wordsOf :
    w ∈ wordsOf limit table body ↔ w.length ≤ limit ∧ Yields table.Lists body w := by
  rw [wordsOf, mem_foldl_extend]
  · simp
  · simp

theorem knows_absorb {p : Production} :
    (absorb limit table p).Knows n w ↔
      table.Knows n w ∨ (p.head = n ∧ w.length ≤ limit ∧ Yields table.Lists p.body w) := by
  rw [← mem_wordsOf, absorb]
  by_cases empty : (table.wordsOf limit p.body).isEmpty = true
  · have none : w ∉ table.wordsOf limit p.body := by
      rw [Std.TreeSet.isEmpty_iff_forall_not_mem] at empty
      exact empty w
    simp [empty, none]
  · have added : ∀ known : WordSet,
        w ∈ (table.wordsOf limit p.body).foldl (fun s u => s.insert u) known ↔
          w ∈ known ∨ w ∈ table.wordsOf limit p.body := by
      intro known
      have step (s : WordSet) (u : Word) : w ∈ s.insert u ↔ w ∈ s ∨ u = w :=
        WordSet.mem_insert_iff
      rw [WordSet.mem_foldl_iff step]
      simp
    rw [if_neg empty, Knows, Std.TreeMap.getD_alter]
    by_cases same : p.head = n
    · subst same
      rw [if_pos (Std.compare_eq_iff_eq.mpr rfl), Option.getD_some, added,
        ← Std.TreeMap.getD_eq_getD_getElem?, and_iff_right rfl]
      rfl
    · rw [if_neg fun h => same (Std.compare_eq_iff_eq.mp h)]
      simp [same, Knows]

theorem Knows.pass (h : table.Knows n w) : (pass limit productions table).Knows n w := by
  rw [WordTable.pass]
  induction productions generalizing table with
  | nil => exact h
  | cons p rest ih => exact ih (knows_absorb.mpr (Or.inl h))

/-- A pass adds all words that a body yields by the words known before the pass. -/
theorem knows_pass_of_mem {p : Production} (hp : p ∈ productions) (fits : w.length ≤ limit)
    (yields : Yields table.Lists p.body w) : (pass limit productions table).Knows p.head w := by
  rw [WordTable.pass]
  induction productions generalizing table with
  | nil => exact absurd hp List.not_mem_nil
  | cons q rest ih =>
      rw [List.foldl_cons]
      cases List.mem_cons.mp hp with
      | inl same =>
          subst same
          exact Knows.pass (knows_absorb.mpr (Or.inr ⟨rfl, fits, yields⟩))
      | inr later =>
          apply ih later
          exact yields_mono (fun n w known => knows_absorb.mpr (Or.inl known)) yields

/-- What a pass adds, it adds to the head of a production. -/
theorem head_of_knows_pass (h : (pass limit productions table).Knows n w) :
    table.Knows n w ∨ n ∈ productions.map Production.head := by
  rw [WordTable.pass] at h
  induction productions generalizing table with
  | nil => exact Or.inl h
  | cons p rest ih =>
      cases ih h with
      | inl old =>
          cases knows_absorb.mp old with
          | inl older => exact Or.inl older
          | inr added => exact Or.inr (added.1 ▸ List.mem_cons_self)
      | inr new => exact Or.inr (List.mem_cons_of_mem _ new)

end Pass

section Soundness

variable {P : Production → Prop}

/-- All known words fit and are derived. -/
def Sound (P : Production → Prop) (limit : Nat) (table : WordTable) : Prop :=
  ∀ n w, table.Knows n w → w.length ≤ limit ∧ Yields P [.nonterminal n] w

theorem Sound.yields (h : table.Sound P limit) (yields : Yields table.Lists body w) :
    Yields P body w := by
  apply yields.simulate
  intro n body w listed found
  obtain ⟨u, known, rfl⟩ := listed
  rw [Yields.map_terminal_iff.mp found]
  exact (h n u known).2

theorem Sound.absorb (h : table.Sound P limit) {p : Production} (rule : P p) :
    (absorb limit table p).Sound P limit := by
  intro n w known
  cases knows_absorb.mp known with
  | inl old => exact h n w old
  | inr new =>
      obtain ⟨rfl, fits, yields⟩ := new
      exact ⟨fits, Yields.singleton_iff.mpr ⟨p.body, rule, h.yields yields⟩⟩

theorem Sound.pass (h : table.Sound P limit) (rules : ∀ p ∈ productions, P p) :
    (pass limit productions table).Sound P limit := by
  rw [WordTable.pass]
  induction productions generalizing table with
  | nil => exact h
  | cons p rest ih =>
      apply ih (h.absorb (rules p List.mem_cons_self))
      exact fun q hq => rules q (List.mem_cons_of_mem _ hq)

end Soundness

section Completeness

/-- All derived words shorter than a length are known. -/
def CompleteBelow (productions : List Production) (length : Nat) (table : WordTable) : Prop :=
  ∀ n u, u.length < length → Yields (· ∈ productions) [.nonterminal n] u → table.Knows n u

/-- A word is known for every head that derives it. -/
def CompleteAt (productions : List Production) (w : Word) (table : WordTable) : Prop :=
  ∀ n, Yields (· ∈ productions) [.nonterminal n] w → table.Knows n w

theorem CompleteBelow.succ {length : Nat} (below : table.CompleteBelow productions length)
    (complete : ∀ u : Word, u.length = length → table.CompleteAt productions u) :
    table.CompleteBelow productions (length + 1) := by
  intro n u short derives
  by_cases shorter : u.length < length
  · exact below n u shorter derives
  · exact complete u (by omega) n derives

/-- If a pass adds a word to no further head and all shorter words are complete, so is this
word. -/
theorem CompleteBelow.completeAt (below : table.CompleteBelow productions w.length)
    (fits : w.length ≤ limit)
    (stable : ∀ n, (pass limit productions table).Knows n w → table.Knows n w) :
    table.CompleteAt productions w := by
  -- A part of `w` is shorter, or it is all of `w` and the other parts are empty.
  have parts : ∀ (b : Body) (v : Word), Yields (· ∈ productions) b v → v.length ≤ w.length →
      (v.length = w.length → v = w) → Yields table.Lists b v := by
    intro b v yields
    induction yields with
    | nil => exact fun _ _ => .nil
    | @terminal t rest v _ ih =>
        intro short whole
        rw [List.length_cons] at short
        exact .terminal (ih (by omega) fun same => by omega)
    | @nonterminal n body rest u v rule first _ ihFirst ihRest =>
        intro short whole
        rw [List.length_append] at short
        have known : table.Knows n u := by
          by_cases shorter : u.length < w.length
          · exact below n u shorter (Yields.singleton_iff.mpr ⟨body, rule, first⟩)
          · have empty : v = [] := List.length_eq_zero_iff.mp (by omega)
            subst empty
            rw [List.append_nil] at whole
            have all : u = w := whole (by omega)
            subst all
            exact stable n (knows_pass_of_mem rule fits (ihFirst (Nat.le_refl _) whole))
        have tail : Yields table.Lists rest v := by
          apply ihRest (by omega)
          intro same
          have empty : u = [] := List.length_eq_zero_iff.mp (by omega)
          subst empty
          exact whole same
        exact Yields.cons_iff.mpr ⟨u, v, rfl, yields_nonterminal_iff.mpr known, tail⟩
  intro n derives
  exact yields_nonterminal_iff.mp (parts _ w derives (Nat.le_refl _) fun _ => rfl)

/-- How many heads do not know a word yet. -/
def missing (productions : List Production) (w : Word) (table : WordTable) : Nat :=
  ((productions.map Production.head).toFinset.filter fun n => ¬ table.Knows n w).card

theorem CompleteBelow.missing_pass_lt (below : table.CompleteBelow productions w.length)
    (fits : w.length ≤ limit) (incomplete : ¬ table.CompleteAt productions w) :
    missing productions w (pass limit productions table) < missing productions w table := by
  obtain ⟨n, new, old⟩ :
      ∃ n, (pass limit productions table).Knows n w ∧ ¬ table.Knows n w := by
    by_contra none
    apply incomplete
    apply below.completeAt fits
    intro n new
    by_contra old
    exact none ⟨n, new, old⟩
  have head : n ∈ productions.map Production.head := (head_of_knows_pass new).resolve_left old
  apply Finset.card_lt_card
  apply Finset.ssubset_iff_subset_ne.mpr
  constructor
  · intro m hm
    rw [Finset.mem_filter] at hm ⊢
    exact ⟨hm.1, fun known => hm.2 known.pass⟩
  · intro same
    have here : n ∈ (productions.map Production.head).toFinset.filter
        fun n => ¬ table.Knows n w :=
      Finset.mem_filter.mpr ⟨List.mem_toFinset.mpr head, old⟩
    rw [← same, Finset.mem_filter] at here
    exact here.2 new

theorem Knows.iterate (h : table.Knows n w) (k : Nat) :
    ((WordTable.pass limit productions)^[k] table).Knows n w := by
  induction k generalizing table with
  | zero => exact h
  | succ k ih => exact ih h.pass

/-- A word is complete after as many passes as heads are missing. -/
theorem CompleteBelow.completeAt_iterate {k : Nat}
    (below : table.CompleteBelow productions w.length) (fits : w.length ≤ limit)
    (enough : missing productions w table ≤ k) :
    ((pass limit productions)^[k] table).CompleteAt productions w := by
  induction k generalizing table with
  | zero =>
      by_contra incomplete
      have fewer := below.missing_pass_lt fits incomplete
      omega
  | succ k ih =>
      by_cases complete : table.CompleteAt productions w
      · exact fun n derives => (complete n derives).iterate (k + 1)
      · have fewer := below.missing_pass_lt fits complete
        apply ih
        · exact fun n u short derives => (below n u short derives).pass
        · omega

/-- As many passes as there are heads complete one more length. -/
theorem CompleteBelow.iterate {length heads : Nat}
    (below : table.CompleteBelow productions length) (fits : length ≤ limit)
    (enough : (productions.map Production.head).toFinset.card ≤ heads) :
    ((pass limit productions)^[heads] table).CompleteBelow productions (length + 1) := by
  apply CompleteBelow.succ
  · exact fun n u short derives => (below n u short derives).iterate heads
  · intro u same
    subst same
    apply below.completeAt_iterate fits
    calc
      missing productions u table ≤ (productions.map Production.head).toFinset.card :=
        Finset.card_le_card (Finset.filter_subset _ _)
      _ ≤ heads := enough

end Completeness

section Rounds

/-- The table after a number of passes. -/
def rounds (limit : Nat) (productions : List Production) (k : Nat) : WordTable :=
  (pass limit productions)^[k] ∅

theorem rounds_succ (k : Nat) :
    rounds limit productions (k + 1) = pass limit productions (rounds limit productions k) :=
  Function.iterate_succ_apply' _ _ _

theorem sound_rounds (k : Nat) :
    (rounds limit productions k).Sound (· ∈ productions) limit := by
  induction k with
  | zero => exact fun n w known => absurd known not_knows_empty
  | succ k ih =>
      rw [rounds_succ]
      exact ih.pass fun _ hp => hp

theorem completeBelow_rounds {heads length : Nat} (fits : length ≤ limit + 1)
    (enough : (productions.map Production.head).toFinset.card ≤ heads) :
    (rounds limit productions (heads * length)).CompleteBelow productions length := by
  induction length with
  | zero => exact fun n u short _ => absurd short (Nat.not_lt_zero _)
  | succ length ih =>
      have step : rounds limit productions (heads * (length + 1)) =
          (pass limit productions)^[heads] (rounds limit productions (heads * length)) := by
        rw [rounds, rounds, Nat.mul_succ, Nat.add_comm, Function.iterate_add_apply]
      rw [step]
      exact (ih (by omega)).iterate (by omega) enough

/-- One more pass adds a word. -/
def Grows (limit : Nat) (productions : List Production) (table : WordTable) : Prop :=
  ∃ n w, (pass limit productions table).Knows n w ∧ ¬ table.Knows n w

/-- With all words of bounded length known a pass adds none. -/
theorem not_grows_of_completeBelow {k : Nat}
    (complete : (rounds limit productions k).CompleteBelow productions (limit + 1)) :
    ¬ Grows limit productions (rounds limit productions k) := by
  intro grows
  obtain ⟨n, w, new, old⟩ := grows
  rw [← rounds_succ] at new
  obtain ⟨fits, derives⟩ := sound_rounds (k + 1) n w new
  exact old (complete n w (Nat.lt_succ_of_le fits) derives)

/-- If a pass adds nothing, exactly the derived words of bounded length are known. -/
theorem knows_iff_of_not_grows {k : Nat}
    (stop : ¬ Grows limit productions (rounds limit productions k)) :
    (rounds limit productions (k + 1)).Knows n w ↔
      w.length ≤ limit ∧ Yields (· ∈ productions) [.nonterminal n] w := by
  have stable : ∀ n w, (pass limit productions (rounds limit productions k)).Knows n w →
      (rounds limit productions k).Knows n w := by
    intro n w new
    by_contra old
    exact stop ⟨n, w, new, old⟩
  have below : ∀ length ≤ limit + 1,
      (rounds limit productions k).CompleteBelow productions length := by
    intro length
    induction length with
    | zero => exact fun _ n u short _ => absurd short (Nat.not_lt_zero _)
    | succ length ih =>
        intro fits
        have shorter := ih (by omega)
        apply shorter.succ
        intro u same
        subst same
        exact shorter.completeAt (Nat.le_of_lt_succ fits) fun n new => stable n u new
  constructor
  · exact sound_rounds (k + 1) n w
  · intro h
    obtain ⟨fits, derives⟩ := h
    rw [rounds_succ]
    exact (below (limit + 1) (Nat.le_refl _) n w (Nat.lt_succ_of_le fits) derives).pass

end Rounds

section Weight

/-- The known words with their heads. -/
def entries (table : WordTable) : List (NonterminalId × Word) :=
  table.toList.flatMap fun (n, words) => words.toList.map fun w => (n, w)

theorem mem_entries : (n, w) ∈ table.entries ↔ table.Knows n w := by
  rw [entries, List.mem_flatMap, Knows, Std.TreeMap.getD_eq_getD_getElem?]
  constructor
  · intro h
    obtain ⟨⟨m, words⟩, listed, member⟩ := h
    obtain ⟨u, inside, same⟩ := List.mem_map.mp member
    cases same
    rw [Std.TreeMap.mem_toList_iff_getElem?_eq_some.mp listed]
    exact Std.TreeSet.mem_toList.mp inside
  · intro member
    cases found : table[n]? with
    | none =>
        rw [found] at member
        exact absurd member Std.TreeSet.not_mem_emptyc
    | some words =>
        rw [found] at member
        refine ⟨(n, words), Std.TreeMap.mem_toList_iff_getElem?_eq_some.mpr found, ?_⟩
        exact List.mem_map.mpr ⟨w, Std.TreeSet.mem_toList.mpr member, rfl⟩

theorem nodup_entries : table.entries.Nodup := by
  rw [entries, List.nodup_flatMap]
  constructor
  · intro entry _
    exact (WordSet.nodup_toList entry.2).map fun u v same => congrArg Prod.snd same
  · refine Std.TreeMap.distinct_keys_toList.imp ?_
    intro a b distinct pair here there
    obtain ⟨_, _, rfl⟩ := List.mem_map.mp here
    obtain ⟨_, _, same⟩ := List.mem_map.mp there
    exact distinct (Std.compare_eq_iff_eq.mpr (congrArg Prod.fst same).symm)

theorem weight_eq_length : table.weight = table.entries.length := by
  rw [weight, Std.TreeMap.foldl_eq_foldl_toList, entries, List.length_flatMap]
  have sizes : ∀ (rows : List (NonterminalId × WordSet)) (start : Nat),
      rows.foldl (fun n row => n + row.2.size) start =
        start + (rows.map fun row => (row.2.toList.map fun w => (row.1, w)).length).sum := by
    intro rows
    induction rows with
    | nil => exact fun start => rfl
    | cons row rest ih =>
        intro start
        rw [List.foldl_cons, ih, List.map_cons, List.sum_cons, List.length_map,
          Std.TreeSet.length_toList, Nat.add_assoc]
  rw [sizes, Nat.zero_add]

/-- The number of known words tells whether a pass has added one. -/
theorem weight_pass_eq_iff :
    (pass limit productions table).weight = table.weight ↔ ¬ Grows limit productions table := by
  rw [weight_eq_length, weight_eq_length]
  have sub : table.entries ⊆ (pass limit productions table).entries := by
    intro entry member
    exact mem_entries.mpr (mem_entries.mp member).pass
  constructor
  · intro same grows
    obtain ⟨n, w, new, old⟩ := grows
    have perm : table.entries.Perm (pass limit productions table).entries :=
      (nodup_entries.subperm sub).perm_of_length_le same.le
    exact old (mem_entries.mp (perm.mem_iff.mpr (mem_entries.mpr new)))
  · intro stop
    apply List.Perm.length_eq
    apply (List.perm_ext_iff_of_nodup nodup_entries nodup_entries).mpr
    intro entry
    constructor
    · intro new
      by_contra old
      exact stop ⟨entry.1, entry.2, mem_entries.mp new, fun known => old (mem_entries.mpr known)⟩
    · exact fun old => sub old

end Weight

/-- With enough passes at hand the loop ends after the first pass that adds nothing. -/
theorem saturate_eq_iterate {fuel : Nat}
    (stops : ∃ k < fuel, ¬ Grows limit productions ((pass limit productions)^[k] table)) :
    ∃ k, (∀ j < k, Grows limit productions ((pass limit productions)^[j] table)) ∧
      ¬ Grows limit productions ((pass limit productions)^[k] table) ∧
      saturate limit productions fuel table = (pass limit productions)^[k + 1] table := by
  induction fuel generalizing table with
  | zero =>
      obtain ⟨k, impossible, _⟩ := stops
      exact absurd impossible (Nat.not_lt_zero k)
  | succ fuel ih =>
      rw [saturate]
      by_cases grows : Grows limit productions table
      · have later : ∃ k < fuel, ¬ Grows limit productions
            ((pass limit productions)^[k] (pass limit productions table)) := by
          obtain ⟨k, bound, stop⟩ := stops
          cases k with
          | zero => exact absurd grows stop
          | succ k => exact ⟨k, Nat.lt_of_succ_lt_succ bound, stop⟩
        obtain ⟨k, before, stop, result⟩ := ih later
        refine ⟨k + 1, ?_, stop, ?_⟩
        · intro j bound
          cases j with
          | zero => exact grows
          | succ j => exact before j (Nat.lt_of_succ_lt_succ bound)
        · have heavier : (pass limit productions table).weight ≠ table.weight :=
            fun same => weight_pass_eq_iff.mp same grows
          exact (if_neg heavier).trans result
      · refine ⟨0, fun j bound => absurd bound (Nat.not_lt_zero j), grows, ?_⟩
        exact if_pos (weight_pass_eq_iff.mpr grows)

end WordTable

namespace Grammar

open WordTable

variable {g : Grammar} {root : NonterminalId} {limit : Nat}

/-- The loop of the enumeration comes to an end. -/
theorem exists_wordsFrom_eq (g : Grammar) (root : NonterminalId) (limit : Nat) :
    ∃ k, (∀ j < k, Grows limit g.productions (rounds limit g.productions j)) ∧
      ¬ Grows limit g.productions (rounds limit g.productions k) ∧
      g.wordsFrom root limit = (rounds limit g.productions (k + 1)).getD root ∅ := by
  have complete : (rounds limit g.productions (g.families.length * (limit + 1))).CompleteBelow
      g.productions (limit + 1) := completeBelow_rounds (Nat.le_refl _) g.card_heads_le
  have stops := not_grows_of_completeBelow complete
  obtain ⟨k, before, stop, result⟩ := saturate_eq_iterate ⟨_, Nat.lt_succ_self _, stops⟩
  exact ⟨k, before, stop, congrArg (fun table : WordTable => table.getD root ∅) result⟩

theorem mem_wordsFrom_iff {w : Word} :
    w ∈ g.wordsFrom root limit ↔ w.length ≤ limit ∧ g.Derives root w := by
  obtain ⟨k, _, stop, result⟩ := g.exists_wordsFrom_eq root limit
  rw [result]
  exact knows_iff_of_not_grows stop

/-- Repeating passes until one adds no word comes to an end, for every grammar, symbol and
length, and the words then known for the symbol are exactly the words of bounded length that
it derives. -/
theorem wordsFrom_exact (g : Grammar) (root : NonterminalId) (limit : Nat) :
    (∃ k, (∀ j < k, Grows limit g.productions (rounds limit g.productions j)) ∧
      ¬ Grows limit g.productions (rounds limit g.productions k) ∧
      g.wordsFrom root limit = (rounds limit g.productions (k + 1)).getD root ∅) ∧
    ∀ w, w ∈ g.wordsFrom root limit ↔ w.length ≤ limit ∧ g.Derives root w :=
  ⟨g.exists_wordsFrom_eq root limit, fun _ => mem_wordsFrom_iff⟩

end Grammar

end ContextFree
