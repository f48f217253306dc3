import ContextFree.Proofs.EpsilonFree
import ContextFree.Proofs.NormalForm.Pairs

/-!
# The grammar in normal form

The old nonterminals keep their words in the new grammar. If the empty word is kept, the
new start symbol takes over the words of the old one and adds the empty word; it occurs
in no body and is the only head of an empty body. The new grammar is well-formed as long
as the numbers suffice, and then nothing else can go wrong.
-/

namespace ContextFree

open NormalForm

namespace NormalForm

variable {next : Nat} {kinds : List FreshKind}

theorem mem_freshNonterminals {n : Nonterminal} :
    n ∈ freshNonterminals next kinds ↔
      ∃ i kind, kinds[i]? = some kind ∧ n = ⟨⟨next + i⟩, .fresh kind (i + 1)⟩ := by
  simp only [freshNonterminals, List.mem_map, Prod.exists, List.mem_zipIdx_iff_getElem?]
  constructor
  · rintro ⟨kind, i, found, rfl⟩
    exact ⟨i, kind, found, rfl⟩
  · rintro ⟨i, kind, found, rfl⟩
    exact ⟨kind, i, found, rfl⟩

theorem map_id_freshNonterminals :
    (freshNonterminals next kinds).map Nonterminal.id = consecutive next kinds.length := by
  rw [freshNonterminals, List.map_map, ← map_zipIdx_eq_consecutive]
  rfl

theorem nodup_ids_freshNonterminals :
    ((freshNonterminals next kinds).map Nonterminal.id).Nodup := by
  rw [map_id_freshNonterminals]
  exact nodup_consecutive next kinds.length

theorem mem_ids_freshNonterminals {n : NonterminalId} :
    n ∈ (freshNonterminals next kinds).map Nonterminal.id ↔
      next ≤ n.index ∧ n.index < next + kinds.length := by
  rw [map_id_freshNonterminals, mem_consecutive]

end NormalForm

namespace Grammar

variable {g : Grammar} {kinds : List FreshKind} {q : Production}

section WithPairs

theorem families_withPairs :
    (g.withPairs kinds).families = group (pairs g.nextNonterminal g.productions) := by
  rw [withPairs]

theorem mem_productions_withPairs :
    q ∈ (g.withPairs kinds).productions ↔ q ∈ pairs g.nextNonterminal g.productions := by
  rw [productions, families_withPairs]
  exact mem_group

theorem grouped_withPairs : Grouped (g.withPairs kinds).families := by
  rw [families_withPairs]
  exact grouped_group _

/-- The productions of a well-formed grammar have no numbers yet to be given. -/
theorem WellFormed.below (h : g.WellFormed) :
    ∀ p ∈ g.productions, p.Below g.nextNonterminal := by
  intro p hp
  refine ⟨h.index_lt (h.head_declared p hp), ?_⟩
  intro n hn
  exact h.index_lt (h.body_declared p hp _ hn)

theorem declares_withPairs {s : Symbol} :
    (g.withPairs kinds).Declares s ↔
      g.Declares s ∨ ∃ n, s = .nonterminal n ∧
        g.nextNonterminal ≤ n.index ∧ n.index < g.nextNonterminal + kinds.length := by
  cases s with
  | terminal t => simp [Declares, withPairs]
  | nonterminal n =>
      simp only [Declares, withPairs, List.map_append, List.mem_append, mem_ids_freshNonterminals,
        Symbol.nonterminal.injEq, exists_eq_left']

theorem WellFormed.withPairs (h : g.WellFormed)
    (room : g.nextNonterminal + kinds.length ≤ idLimit)
    (enough : freshCount g.productions ≤ kinds.length) : (g.withPairs kinds).WellFormed where
  start_declared := declares_withPairs.mpr (Or.inl h.start_declared)
  head_declared q hq := by
    apply declares_withPairs.mpr
    cases head_of_mem_pairs (mem_productions_withPairs.mp hq) with
    | inl old =>
        obtain ⟨p, hp, same⟩ := old
        exact Or.inl (same ▸ h.head_declared p hp)
    | inr fresh => exact Or.inr ⟨_, rfl, fresh.1, by have := fresh.2; omega⟩
  body_declared q hq s hs := by
    apply declares_withPairs.mpr
    cases symbol_of_mem_pairs (mem_productions_withPairs.mp hq) hs with
    | inl old =>
        obtain ⟨p, hp, member⟩ := old
        exact Or.inl (h.body_declared p hp s member)
    | inr new =>
        obtain ⟨n, same, fresh⟩ := new
        exact Or.inr ⟨n, same, fresh.1, by have := fresh.2; omega⟩
  grouped := grouped_withPairs
  terminal_ids_nodup := h.terminal_ids_nodup
  nonterminal_ids_nodup := by
    change ((g.nonterminals ++ freshNonterminals g.nextNonterminal kinds).map Nonterminal.id).Nodup
    rw [List.map_append, List.nodup_append']
    refine ⟨h.nonterminal_ids_nodup, nodup_ids_freshNonterminals, ?_⟩
    intro n old new
    exact Nat.not_le_of_lt (h.index_lt old) (mem_ids_freshNonterminals.mp new).1
  id_lt_next n hn := by
    cases List.mem_append.mp hn with
    | inl old => exact Nat.lt_add_right _ (h.id_lt_next n old)
    | inr new => exact (mem_ids_freshNonterminals.mp (List.mem_map_of_mem new)).2
  next_le := room
  names_nodup := by
    refine nodup_declaredNames_append h.names_nodup rfl rfl ?_
    intro n hn
    obtain ⟨i, kind, _, rfl⟩ := mem_freshNonterminals.mp hn
    rfl

theorem derives_withPairs_iff_yields {n : NonterminalId} {w : Word} :
    (g.withPairs kinds).Derives n w ↔
      Yields (· ∈ pairs g.nextNonterminal g.productions) [.nonterminal n] w := by
  constructor
  · exact Yields.mono fun q hq => mem_productions_withPairs.mp hq
  · exact Yields.mono fun q hq => mem_productions_withPairs.mpr hq

/-- By the pairs an old nonterminal derives what it derived. -/
theorem WellFormed.yields_pairs_nonterminal_iff (h : g.WellFormed) {n : NonterminalId}
    (old : n.index < g.nextNonterminal) {w : Word} :
    Yields (· ∈ pairs g.nextNonterminal g.productions) [.nonterminal n] w ↔ g.Derives n w := by
  apply yields_pairs_iff_of_lt h.below
  intro m hm
  cases List.mem_singleton.mp hm
  exact old

/-- The old nonterminals keep their words. -/
theorem WellFormed.derives_withPairs_iff (h : g.WellFormed) {n : NonterminalId}
    (old : n.index < g.nextNonterminal) {w : Word} :
    (g.withPairs kinds).Derives n w ↔ g.Derives n w :=
  derives_withPairs_iff_yields.trans (h.yields_pairs_nonterminal_iff old)

end WithPairs

section WithEmptyStart

variable {start : NonterminalId}

theorem families_withEmptyStart :
    (g.withEmptyStart start).families = group (g.productions ++
      (g.bodiesOf g.start ++ [[]]).map fun body => ⟨start, body⟩) := by
  rw [withEmptyStart]

/-- The new start symbol has the bodies of the old one and the empty body. -/
theorem mem_productions_withEmptyStart (grouped : Grouped g.families) :
    q ∈ (g.withEmptyStart start).productions ↔
      q ∈ g.productions ∨ (q.head = start ∧ (q.body = [] ∨ ⟨g.start, q.body⟩ ∈ g.productions)) := by
  rw [productions, families_withEmptyStart, mem_group, List.mem_append, List.mem_map]
  apply or_congr_right
  constructor
  · rintro ⟨body, hbody, rfl⟩
    refine ⟨rfl, ?_⟩
    cases List.mem_append.mp hbody with
    | inl own => exact Or.inr ((mem_bodiesOf grouped).mp own)
    | inr empty => exact Or.inl (List.mem_singleton.mp empty)
  · rintro ⟨rfl, hbody⟩
    refine ⟨q.body, List.mem_append.mpr ?_, rfl⟩
    cases hbody with
    | inl empty => exact Or.inr (List.mem_singleton.mpr empty)
    | inr own => exact Or.inl ((mem_bodiesOf grouped).mpr own)

theorem WellFormed.withEmptyStart (h : g.WellFormed)
    (declared : g.Declares (.nonterminal start)) : (g.withEmptyStart start).WellFormed where
  start_declared := declared
  head_declared q hq := by
    cases (mem_productions_withEmptyStart h.grouped).mp hq with
    | inl old => exact h.head_declared q old
    | inr new => exact new.1 ▸ declared
  body_declared q hq s hs := by
    cases (mem_productions_withEmptyStart h.grouped).mp hq with
    | inl old => exact h.body_declared q old s hs
    | inr new =>
        cases new.2 with
        | inl empty => exact absurd (empty ▸ hs) List.not_mem_nil
        | inr own => exact h.body_declared _ own s hs
  grouped := by
    rw [families_withEmptyStart]
    exact grouped_group _
  terminal_ids_nodup := h.terminal_ids_nodup
  nonterminal_ids_nodup := h.nonterminal_ids_nodup
  id_lt_next := h.id_lt_next
  next_le := h.next_le
  names_nodup := h.names_nodup

/-- A symbol occurs as a head or in a body of a grammar. -/
def Occurs (g : Grammar) (n : NonterminalId) : Prop :=
  ∃ p ∈ g.productions, p.head = n ∨ .nonterminal n ∈ p.body

/-- A new start symbol does not change what bodies without it derive. -/
theorem yields_withEmptyStart_iff (grouped : Grouped g.families) (unused : ¬ g.Occurs start)
    {b : Body} (absent : .nonterminal start ∉ b) {w : Word} :
    Yields (· ∈ (g.withEmptyStart start).productions) b w ↔ Yields (· ∈ g.productions) b w := by
  constructor
  · apply Yields.confine (· ≠ start)
    · intro n body w other rule _
      cases (mem_productions_withEmptyStart grouped).mp rule with
      | inl old =>
          refine ⟨old, ?_⟩
          rintro m hm rfl
          exact unused ⟨_, old, Or.inr hm⟩
      | inr new => exact absurd new.1 other
    · rintro m hm rfl
      exact absent hm
  · apply Yields.mono
    intro p hp
    exact (mem_productions_withEmptyStart grouped).mpr (Or.inl hp)

/-- The new start symbol derives the empty word and what the old one derives. -/
theorem derives_start_withEmptyStart_iff (grouped : Grouped g.families)
    (unused : ¬ g.Occurs start) {w : Word} :
    (g.withEmptyStart start).Derives start w ↔ w = [] ∨ g.Derives g.start w := by
  rw [derives_iff, derives_iff]
  constructor
  · rintro ⟨body, rule, hw⟩
    cases (mem_productions_withEmptyStart grouped).mp rule with
    | inl old => exact absurd ⟨_, old, Or.inl rfl⟩ unused
    | inr new =>
        cases new.2 with
        | inl empty =>
            obtain rfl : body = [] := empty
            exact Or.inl (Yields.nil_iff.mp hw)
        | inr own =>
            have absent : .nonterminal start ∉ body := fun hm => unused ⟨_, own, Or.inr hm⟩
            exact Or.inr ⟨body, own, (yields_withEmptyStart_iff grouped unused absent).mp hw⟩
  · rintro (rfl | ⟨body, own, hw⟩)
    · refine ⟨[], (mem_productions_withEmptyStart grouped).mpr (Or.inr ⟨rfl, Or.inl rfl⟩), .nil⟩
    · have absent : .nonterminal start ∉ body := fun hm => unused ⟨_, own, Or.inr hm⟩
      refine ⟨body, (mem_productions_withEmptyStart grouped).mpr (Or.inr ⟨rfl, Or.inr own⟩), ?_⟩
      exact (yields_withEmptyStart_iff grouped unused absent).mpr hw

end WithEmptyStart

/-- What it means for a grammar to be in normal form. -/
structure InNormalForm (g : Grammar) (derivesEmpty : Bool) : Prop where
  binary_or_empty : ∀ p ∈ g.productions,
    Binary p.body ∨ (p.body = [] ∧ p.head = g.start ∧ derivesEmpty = true)
  empty_body : derivesEmpty = true → ⟨g.start, []⟩ ∈ g.productions
  start_unused : derivesEmpty = true → ∀ p ∈ g.productions, .nonterminal g.start ∉ p.body

/-- Every production of a grammar in normal form passes the check. -/
theorem InNormalForm.admits {derivesEmpty : Bool} (h : g.InNormalForm derivesEmpty)
    {p : Production} (hp : p ∈ g.productions) : admits g.start derivesEmpty p = true := by
  unfold NormalForm.admits
  cases h.binary_or_empty p hp with
  | inl binary =>
      obtain ⟨t, body⟩ | ⟨b, c, body⟩ := binary
      · rw [body]
      · rw [body]
        cases derivesEmpty with
        | false => rfl
        | true =>
            have absent := h.start_unused rfl p hp
            rw [body, List.mem_pair, Symbol.nonterminal.injEq, Symbol.nonterminal.injEq] at absent
            obtain ⟨left, right⟩ := not_or.mp absent
            simp [Ne.symm left, Ne.symm right]
  | inr empty =>
      obtain ⟨body, head, rfl⟩ := empty
      rw [body]
      simp [head]

section Paired

variable {derivesEmpty : Bool}

/-- The start symbol that is added if the empty word is kept. -/
def emptyStart (g : Grammar) : NonterminalId := ⟨g.nextNonterminal + freshCount g.productions⟩

theorem paired_true :
    g.paired true = (g.withPairs (freshKinds g.productions true)).withEmptyStart g.emptyStart := by
  have last : (g.withPairs (freshKinds g.productions true)).nextNonterminal - 1 =
      g.nextNonterminal + freshCount g.productions := by
    change g.nextNonterminal + (freshKinds g.productions true).length - 1 = _
    rw [length_freshKinds, if_pos rfl]
    omega
  unfold paired
  dsimp only
  rw [if_pos rfl, last]
  rfl

theorem paired_false :
    g.paired false = g.withPairs (freshKinds g.productions false) := rfl

theorem start_paired_true : (g.paired true).start = g.emptyStart := by
  rw [paired_true]
  rfl

theorem terminals_paired (derivesEmpty : Bool) :
    (g.paired derivesEmpty).terminals = g.terminals := by
  cases derivesEmpty with
  | false => rfl
  | true => rfl

/-- The new nonterminals follow the old ones. -/
theorem nonterminals_paired (derivesEmpty : Bool) :
    (g.paired derivesEmpty).nonterminals =
      g.nonterminals ++
        freshNonterminals g.nextNonterminal (freshKinds g.productions derivesEmpty) := by
  cases derivesEmpty with
  | false => rfl
  | true => rfl

theorem nextNonterminal_paired (derivesEmpty : Bool) :
    (g.paired derivesEmpty).nextNonterminal =
      g.nextNonterminal + (freshKinds g.productions derivesEmpty).length := by
  cases derivesEmpty with
  | false => rfl
  | true => rfl

/-- The new start symbol is neither an old symbol nor a proxy nor a link. -/
theorem WellFormed.not_occurs_emptyStart (h : g.WellFormed) :
    ¬ (g.withPairs kinds).Occurs g.emptyStart := by
  have large : ¬ g.emptyStart.index < g.nextNonterminal :=
    Nat.not_lt.mpr (Nat.le_add_right _ _)
  have last : ¬ Fresh g.nextNonterminal g.productions g.emptyStart :=
    fun fresh => Nat.lt_irrefl _ fresh.2
  rintro ⟨q, hq, head | body⟩
  · cases head_of_mem_pairs (mem_productions_withPairs.mp hq) with
    | inl old =>
        obtain ⟨p, hp, same⟩ := old
        exact large (head ▸ same ▸ (h.below p hp).head)
    | inr fresh => exact last (head ▸ fresh)
  · cases symbol_of_mem_pairs (mem_productions_withPairs.mp hq) body with
    | inl old =>
        obtain ⟨p, hp, member⟩ := old
        exact large ((h.below p hp).body _ member)
    | inr new =>
        obtain ⟨n, same, fresh⟩ := new
        cases same
        exact last fresh

theorem WellFormed.paired (h : g.WellFormed)
    (room : g.nextNonterminal + (freshKinds g.productions derivesEmpty).length ≤ idLimit) :
    (g.paired derivesEmpty).WellFormed := by
  have length : (freshKinds g.productions derivesEmpty).length =
      freshCount g.productions + if derivesEmpty then 1 else 0 := length_freshKinds derivesEmpty
  have base := h.withPairs room (by omega)
  cases derivesEmpty with
  | false => exact base
  | true =>
      rw [paired_true]
      apply base.withEmptyStart
      apply declares_withPairs.mpr
      refine Or.inr ⟨g.emptyStart, rfl, Nat.le_add_right _ _, ?_⟩
      rw [length, if_pos rfl]
      exact Nat.lt_succ_self _

theorem mem_productions_paired_of_mem_pairs (hq : q ∈ pairs g.nextNonterminal g.productions) :
    q ∈ (g.paired derivesEmpty).productions := by
  cases derivesEmpty with
  | false => exact mem_productions_withPairs.mpr hq
  | true =>
      rw [paired_true]
      apply (mem_productions_withEmptyStart grouped_withPairs).mpr
      exact Or.inl (mem_productions_withPairs.mpr hq)

/-- All nonterminals but the new start symbol derive in the normal form what they derive by
the pairs. -/
theorem WellFormed.derives_paired_iff_yields (h : g.WellFormed) {n : NonterminalId}
    (other : n.index < g.nextNonterminal + freshCount g.productions) {w : Word} :
    (g.paired derivesEmpty).Derives n w ↔
      Yields (· ∈ pairs g.nextNonterminal g.productions) [.nonterminal n] w := by
  cases derivesEmpty with
  | false => exact derives_withPairs_iff_yields
  | true =>
      rw [paired_true, ← derives_withPairs_iff_yields]
      apply yields_withEmptyStart_iff grouped_withPairs h.not_occurs_emptyStart
      intro same
      cases List.mem_singleton.mp same
      exact Nat.lt_irrefl _ other

/-- The old nonterminals keep their words in the normal form. -/
theorem WellFormed.derives_paired_iff (h : g.WellFormed) {n : NonterminalId}
    (old : n.index < g.nextNonterminal) {w : Word} :
    (g.paired derivesEmpty).Derives n w ↔ g.Derives n w :=
  (h.derives_paired_iff_yields (Nat.lt_add_right _ old)).trans (h.yields_pairs_nonterminal_iff old)

/-- The start symbol of the normal form derives the empty word if it is kept, and else
what the old start symbol derives. -/
theorem WellFormed.derives_start_paired_iff (h : g.WellFormed) {w : Word} :
    (g.paired derivesEmpty).Derives (g.paired derivesEmpty).start w ↔
      (derivesEmpty = true ∧ w = []) ∨ g.Derives g.start w := by
  have old := h.index_lt h.start_declared
  cases derivesEmpty with
  | false =>
      rw [paired_false]
      exact (h.derives_withPairs_iff old).trans (by simp)
  | true =>
      rw [paired_true]
      have unused : ¬ (g.withPairs (freshKinds g.productions true)).Occurs g.emptyStart :=
        h.not_occurs_emptyStart
      calc
        _ ↔ w = [] ∨ (g.withPairs (freshKinds g.productions true)).Derives g.start w :=
          derives_start_withEmptyStart_iff grouped_withPairs unused
        _ ↔ _ := by rw [h.derives_withPairs_iff old, and_iff_right rfl]

/-- Without empty bodies and unit productions, the result is in normal form. -/
theorem WellFormed.inNormalForm_paired (h : g.WellFormed)
    (nonempty : ∀ p ∈ g.productions, p.body ≠ [])
    (nonunit : ∀ p ∈ g.productions, ∀ b, p.body ≠ [.nonterminal b]) (derivesEmpty : Bool) :
    (g.paired derivesEmpty).InNormalForm derivesEmpty := by
  have binary : ∀ p ∈ (g.withPairs (freshKinds g.productions derivesEmpty)).productions,
      Binary p.body := by
    intro p hp
    exact binary_of_mem_pairs nonempty nonunit (mem_productions_withPairs.mp hp)
  cases derivesEmpty with
  | false => exact ⟨fun p hp => Or.inl (binary p hp), by simp, by simp⟩
  | true =>
      have unused : ¬ (g.withPairs (freshKinds g.productions true)).Occurs g.emptyStart :=
        h.not_occurs_emptyStart
      rw [paired_true]
      refine ⟨?_, ?_, ?_⟩
      · intro p hp
        cases (mem_productions_withEmptyStart grouped_withPairs).mp hp with
        | inl old => exact Or.inl (binary p old)
        | inr new =>
            cases new.2 with
            | inl empty => exact Or.inr ⟨empty, new.1, rfl⟩
            | inr own =>
                have shape := binary _ own
                exact Or.inl shape
      · intro _
        apply (mem_productions_withEmptyStart grouped_withPairs).mpr
        exact Or.inr ⟨rfl, Or.inl rfl⟩
      · intro _ p hp member
        cases (mem_productions_withEmptyStart grouped_withPairs).mp hp with
        | inl old => exact unused ⟨p, old, Or.inr member⟩
        | inr new =>
            cases new.2 with
            | inl empty => exact absurd (empty ▸ member) List.not_mem_nil
            | inr own => exact unused ⟨_, own, Or.inr member⟩

/-- The new start symbol is the last symbol of the table and was added as a start symbol. -/
theorem emptyStart_mem_nonterminals :
    ⟨g.emptyStart, .fresh .start (freshCount g.productions + 1)⟩ ∈ (g.paired true).nonterminals := by
  rw [paired_true]
  apply List.mem_append_right
  apply mem_freshNonterminals.mpr
  refine ⟨freshCount g.productions, .start, ?_, rfl⟩
  have last := freshKinds_true g.productions
  have length : (freshKinds g.productions false).length = freshCount g.productions :=
    length_freshKinds false
  rw [last, ← length]
  exact List.getElem?_concat_length

/-- Bringing a well-formed grammar without empty bodies and unit productions into normal
form fails only if the numbers do not suffice. -/
theorem WellFormed.normalForm (h : g.WellFormed) (nonempty : ∀ p ∈ g.productions, p.body ≠ [])
    (nonunit : ∀ p ∈ g.productions, ∀ b, p.body ≠ [.nonterminal b]) (derivesEmpty : Bool) :
    Reachable.normalForm ⟨g⟩ derivesEmpty =
      if g.nextNonterminal + (freshKinds g.productions derivesEmpty).length ≤ idLimit then
        .ok ⟨g.paired derivesEmpty, derivesEmpty⟩
      else .error (.freshSymbolsExhausted .normalization) := by
  unfold Reachable.normalForm
  dsimp only
  split
  next room =>
    have valid := (h.paired room).validate_eq_ok
    have admitted : (g.paired derivesEmpty).forbid
        (fun p => !admits (g.paired derivesEmpty).start derivesEmpty p) .notInNormalForm = .ok () := by
      apply forbid_eq_ok_iff.mpr
      intro p hp
      rw [(h.inNormalForm_paired nonempty nonunit derivesEmpty).admits hp]
      rfl
    rw [NormalForm.ofGrammar, valid, admitted]
    rfl
  next => rfl

end Paired

end Grammar

end ContextFree
