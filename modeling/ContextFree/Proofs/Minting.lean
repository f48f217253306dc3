import ContextFree.Proofs.WellFormed
import ContextFree.Stage.Conversion

/-!
# Adding nonterminals one by one

A supply adds a nonterminal if there are a number and a serial number for it. A supply that has
given away no more serial numbers than there are numbers in use never lacks the former, so adding
several nonterminals fails exactly if there are not enough numbers for all of them.
-/

namespace ContextFree

/-- The nonterminals of the given kinds, with numbers from `next` on and the serial numbers
behind the last one. -/
def numbered (next last : Nat) (kinds : List FreshKind) : List Nonterminal :=
  kinds.mapIdx fun i kind => ⟨⟨next + i⟩, .fresh kind (last + i + 1)⟩

section Numbered

variable {next last : Nat} {kind : FreshKind} {kinds : List FreshKind}

theorem numbered_cons :
    numbered next last (kind :: kinds) =
      ⟨⟨next⟩, .fresh kind (last + 1)⟩ :: numbered (next + 1) (last + 1) kinds := by
  simp only [numbered, List.mapIdx_cons, Nat.add_zero, Nat.add_assoc, Nat.add_comm 1]

theorem numbered_append (more : List FreshKind) :
    numbered next last (kinds ++ more) =
      numbered next last kinds ++ numbered (next + kinds.length) (last + kinds.length) more := by
  induction kinds generalizing next last with
  | nil => rfl
  | cons kind kinds ih =>
      rw [List.cons_append, numbered_cons, numbered_cons, ih, List.cons_append, List.length_cons,
        Nat.add_assoc, Nat.add_assoc, Nat.add_comm 1]

end Numbered

/-- The grammar with further nonterminals of the given kinds. -/
def Grammar.withFresh (g : Grammar) (last : Nat) (kinds : List FreshKind) : Grammar :=
  { g with
    nonterminals := g.nonterminals ++ numbered g.nextNonterminal last kinds
    nextNonterminal := g.nextNonterminal + kinds.length }

@[simp]
theorem Grammar.withFresh_nil (g : Grammar) (last : Nat) : g.withFresh last [] = g := by
  simp [withFresh, numbered]

theorem Grammar.families_withFresh (g : Grammar) (last : Nat) (kinds : List FreshKind) :
    (g.withFresh last kinds).families = g.families := rfl

theorem Grammar.nonterminals_withFresh_singleton (g : Grammar) (last : Nat) (kind : FreshKind) :
    (g.withFresh last [kind]).nonterminals =
      g.nonterminals ++ [⟨⟨g.nextNonterminal⟩, .fresh kind (last + 1)⟩] := rfl

theorem Grammar.withFresh_append (g : Grammar) (last : Nat) (kinds more : List FreshKind) :
    g.withFresh last (kinds ++ more) =
      (g.withFresh last kinds).withFresh (last + kinds.length) more := by
  simp only [withFresh, numbered_append, List.length_append, List.append_assoc, Nat.add_assoc]

/-- A restriction to old nonterminals removes the added ones, but not the trace of their numbers. -/
theorem Grammar.restrictTo_withFresh {g : Grammar} {keep : NonterminalSet}
    (old : ∀ n ∈ keep, n.index < g.nextNonterminal) (last : Nat)
    (kinds : List FreshKind) :
    (g.withFresh last kinds).restrictTo keep =
      { g.restrictTo keep with nextNonterminal := g.nextNonterminal + kinds.length } := by
  have removed :
      (numbered g.nextNonterminal last kinds).filter (fun n => keep.contains n.id) = [] := by
    apply List.filter_eq_nil_iff.mpr
    intro n hn kept
    obtain ⟨i, inside, rfl⟩ := List.mem_mapIdx.mp hn
    exact Nat.not_lt.mpr (Nat.le_add_right _ _) (old _ kept)
  have nonterminals : ((g.withFresh last kinds).restrictTo keep).nonterminals =
      (g.restrictTo keep).nonterminals := by
    change (g.nonterminals ++ numbered g.nextNonterminal last kinds).filter _ = _
    rw [List.filter_append, removed, List.append_nil]
    rfl
  exact Grammar.ext rfl nonterminals rfl rfl rfl

namespace FreshSupply

variable {s : FreshSupply} {g : Grammar}

theorem mint_eq (s : FreshSupply) (g : Grammar) (kind : FreshKind) :
    s.mint g kind =
      if s.serial < serialLimit ∧ g.nextNonterminal < idLimit then
        .ok (⟨g.nextNonterminal⟩, g.withFresh s.serial [kind], ⟨s.serial + 1⟩)
      else .error (.freshSymbolsExhausted .normalization) := by
  unfold mint Grammar.mint?
  by_cases left : s.serial < serialLimit
  · by_cases room : g.nextNonterminal < idLimit
    · rw [if_pos left, if_pos room, if_pos ⟨left, room⟩]
      rfl
    · rw [if_pos left, if_neg room, if_neg fun both => room both.2]
  · rw [if_neg left, if_neg fun both => left both.1]

/-- What adding a nonterminal does. -/
theorem mint_eq_ok_iff {kind : FreshKind} {n : NonterminalId} {extended : Grammar}
    {rest : FreshSupply} :
    s.mint g kind = .ok (n, extended, rest) ↔
      (s.serial < serialLimit ∧ g.nextNonterminal < idLimit) ∧ n = ⟨g.nextNonterminal⟩ ∧
        rest = ⟨s.serial + 1⟩ ∧ extended = g.withFresh s.serial [kind] := by
  rw [mint_eq]
  by_cases left : s.serial < serialLimit ∧ g.nextNonterminal < idLimit
  · rw [if_pos left, Except.ok.injEq, Prod.mk.injEq, Prod.mk.injEq]
    constructor
    · rintro ⟨rfl, rfl, rfl⟩
      exact ⟨left, rfl, rfl, rfl⟩
    · rintro ⟨_, rfl, rfl, rfl⟩
      exact ⟨rfl, rfl, rfl⟩
  · rw [if_neg left]
    exact iff_of_false (fun failed => nomatch failed) fun both => left both.1

theorem mint?_of_mint {kind : FreshKind} {n : NonterminalId} {extended : Grammar}
    {rest : FreshSupply} (ok : s.mint g kind = .ok (n, extended, rest)) :
    g.mint? kind (s.serial + 1) = some (n, extended) := by
  obtain ⟨⟨_, room⟩, rfl, _, rfl⟩ := mint_eq_ok_iff.mp ok
  rw [Grammar.mint?, if_pos room]
  rfl

/-- With no more serial numbers than numbers in use there is a serial number for every number. -/
theorem lt_serialLimit (synced : s.serial ≤ g.nextNonterminal)
    (room : g.nextNonterminal < idLimit) : s.serial < serialLimit :=
  calc
    s.serial ≤ g.nextNonterminal := synced
    _ < idLimit := room
    _ < serialLimit := by decide

/-- Add nonterminals of the given kinds one after another. -/
def mintAll (s : FreshSupply) (g : Grammar) :
    List FreshKind → Except NormalizeError (Grammar × FreshSupply)
  | [] => .ok (g, s)
  | kind :: kinds =>
      match s.mint g kind with
      | .ok (_, extended, rest) => rest.mintAll extended kinds
      | .error e => .error e

/-- Adding nonterminals one after another fails only if there are not enough numbers. -/
theorem mintAll_eq (synced : s.serial ≤ g.nextNonterminal) (le : g.nextNonterminal ≤ idLimit)
    (kinds : List FreshKind) :
    s.mintAll g kinds =
      if g.nextNonterminal + kinds.length ≤ idLimit then
        .ok (g.withFresh s.serial kinds, ⟨s.serial + kinds.length⟩)
      else .error (.freshSymbolsExhausted .normalization) := by
  induction kinds generalizing s g with
  | nil =>
      rw [mintAll, Grammar.withFresh_nil, List.length_nil, Nat.add_zero, if_pos le, Nat.add_zero]
  | cons kind kinds ih =>
      rw [mintAll, mint_eq]
      by_cases room : g.nextNonterminal < idLimit
      · have next := ih (s := ⟨s.serial + 1⟩) (g := g.withFresh s.serial [kind])
          (Nat.succ_le_succ synced) room
        have all := g.withFresh_append s.serial [kind] kinds
        rw [List.singleton_append] at all
        rw [if_pos ⟨lt_serialLimit synced room, room⟩, all, List.length_cons,
          Nat.add_comm kinds.length, ← Nat.add_assoc, ← Nat.add_assoc]
        exact next
      · have full : ¬ g.nextNonterminal + (kind :: kinds).length ≤ idLimit := by
          rw [List.length_cons]
          omega
        rw [if_neg full, if_neg fun both => room both.2]

end FreshSupply

end ContextFree
