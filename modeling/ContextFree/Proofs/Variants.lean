import ContextFree.Proofs.EpsilonFree
import ContextFree.Proofs.Obtained
import Mathlib.Algebra.BigOperators.Group.Finset.Powerset

/-!
# Every choice of droppable symbols once

A body is expanded by choosing, for each of its droppable symbols, whether it is left out. A
choice is the set of the positions that are left out. There is one variant for each choice, so
two choices that leave the same body give it twice; the choice of all positions is the only
one that leaves nothing. The productions of a grammar without empty bodies are what the
choices leave of the productions it had.
-/

namespace ContextFree

variable {droppable : NonterminalSet} {body : Body}

/-- The positions at which a body has a droppable symbol. -/
def droppablePositions (droppable : NonterminalSet) (body : Body) : Finset Nat :=
  (Finset.range body.length).filter fun i => body[i]?.any (isDroppable droppable)

/-- What is left of a body when the symbols at some positions are left out. -/
def without (positions : Finset Nat) (body : Body) : Body :=
  (body.zipIdx.filter fun s => s.2 ∉ positions).map Prod.fst

/-- The sets of positions of droppable symbols, except the one that leaves nothing. -/
def choices (droppable : NonterminalSet) (body : Body) : Finset (Finset Nat) :=
  (droppablePositions droppable body).powerset.erase (Finset.range body.length)

theorem mem_droppablePositions {i : Nat} :
    i ∈ droppablePositions droppable body ↔ ∃ n ∈ droppable, body[i]? = some (.nonterminal n) := by
  rw [droppablePositions, Finset.mem_filter, Finset.mem_range]
  constructor
  · rintro ⟨inside, drops⟩
    rw [List.getElem?_eq_getElem inside, Option.any_some, isDroppable_iff] at drops
    obtain ⟨n, hn, symbol⟩ := drops
    exact ⟨n, hn, symbol ▸ List.getElem?_eq_getElem inside⟩
  · rintro ⟨n, hn, symbol⟩
    refine ⟨(List.getElem?_eq_some_iff.mp symbol).1, ?_⟩
    rw [symbol, Option.any_some, isDroppable_iff]
    exact ⟨n, hn, rfl⟩

theorem droppablePositions_subset :
    droppablePositions droppable body ⊆ Finset.range body.length :=
  Finset.filter_subset _ _

/-- A droppable symbol at the end doubles the variants. -/
theorem variants_concat (body : Body) (s : Symbol) :
    variants droppable (body ++ [s]) =
      if isDroppable droppable s then
        variants droppable body ++ (variants droppable body).map (· ++ [s])
      else (variants droppable body).map (· ++ [s]) := by
  induction body with
  | nil => cases hs : isDroppable droppable s <;> simp [variants_cons, hs]
  | cons t body ih =>
      rw [List.cons_append, variants_cons, variants_cons, ih]
      cases isDroppable droppable s <;> cases isDroppable droppable t <;>
        simp [List.flatMap_map, List.map_flatMap]

theorem droppablePositions_concat (body : Body) (s : Symbol) :
    droppablePositions droppable (body ++ [s]) =
      if isDroppable droppable s then insert body.length (droppablePositions droppable body)
      else droppablePositions droppable body := by
  have last : (body ++ [s])[body.length]?.any (isDroppable droppable) = isDroppable droppable s := by
    simp
  have before : (Finset.range body.length).filter
      (fun i => (body ++ [s])[i]?.any (isDroppable droppable)) =
      droppablePositions droppable body := by
    apply Finset.filter_congr
    intro i hi
    rw [List.getElem?_append_left (Finset.mem_range.mp hi)]
  rw [droppablePositions, List.length_append, List.length_singleton, Finset.range_add_one,
    Finset.filter_insert, last, before]

theorem without_concat (positions : Finset Nat) (body : Body) (s : Symbol) :
    without positions (body ++ [s]) =
      without positions body ++ if body.length ∈ positions then [] else [s] := by
  rw [without, List.zipIdx_append, List.filter_append, List.map_append, without]
  by_cases out : body.length ∈ positions <;> simp [out]

/-- A position behind the body leaves nothing out. -/
theorem without_insert_length (positions : Finset Nat) (body : Body) :
    without (insert body.length positions) body = without positions body := by
  unfold without
  congr 1
  apply List.filter_congr
  intro s hs
  have inside : s.2 < body.length := (List.mem_zipIdx' hs).1
  simp [Finset.mem_insert, Nat.ne_of_lt inside]

theorem without_eq_nil_iff {positions : Finset Nat}
    (inside : positions ⊆ Finset.range body.length) :
    without positions body = [] ↔ positions = Finset.range body.length := by
  rw [without, List.map_eq_nil_iff, List.filter_eq_nil_iff, Finset.Subset.antisymm_iff,
    and_iff_right inside]
  constructor
  · intro all i hi
    have here : i < body.length := Finset.mem_range.mp hi
    have member : (body[i], i) ∈ body.zipIdx :=
      List.mem_zipIdx_iff_getElem?.mpr (List.getElem?_eq_getElem here)
    simpa using all _ member
  · intro all s hs
    have place := all (Finset.mem_range.mpr (List.mem_zipIdx' hs).1)
    simpa using place

/-- The choices with one more position are those without it, and the same ones with it. -/
theorem map_powerset_insert {i : Nat} {positions : Finset Nat} (new : i ∉ positions)
    (f : Finset Nat → Body) :
    (insert i positions).powerset.val.map f =
      positions.powerset.val.map f + positions.powerset.val.map fun chosen => f (insert i chosen) := by
  have as_sum (sets : Finset (Finset Nat)) (f : Finset Nat → Body) :
      sets.val.map f = ∑ chosen ∈ sets, ({f chosen} : Multiset Body) := by
    rw [Finset.sum_eq_multiset_sum, ← Multiset.sum_map_singleton (sets.val.map f),
      Multiset.map_map]
    rfl
  calc
    (insert i positions).powerset.val.map f =
        ∑ chosen ∈ (insert i positions).powerset, ({f chosen} : Multiset Body) := as_sum _ f
    _ = ∑ chosen ∈ positions.powerset, ({f chosen} : Multiset Body) +
        ∑ chosen ∈ positions.powerset, ({f (insert i chosen)} : Multiset Body) :=
      Finset.sum_powerset_insert new _
    _ = _ := by rw [as_sum, as_sum]

/-- There is one variant for each choice. -/
theorem coe_variants (droppable : NonterminalSet) (body : Body) :
    (variants droppable body : Multiset Body) =
      (droppablePositions droppable body).powerset.val.map fun chosen => without chosen body := by
  induction body using List.reverseRecOn with
  | nil => rfl
  | append_singleton body s ih =>
      have new : body.length ∉ droppablePositions droppable body := fun member =>
        Nat.lt_irrefl _ (Finset.mem_range.mp (droppablePositions_subset member))
      -- A choice among the earlier positions keeps the last symbol.
      have keeps : ((variants droppable body).map (· ++ [s]) : Multiset Body) =
          (droppablePositions droppable body).powerset.val.map
            fun chosen => without chosen (body ++ [s]) := by
        rw [← Multiset.map_coe, ih, Multiset.map_map]
        apply Multiset.map_congr rfl
        intro chosen hchosen
        have kept : body.length ∉ chosen := fun member => new (Finset.mem_powerset.mp hchosen member)
        rw [Function.comp_apply, without_concat, if_neg kept]
      -- A choice of the last symbol leaves what the choice without it leaves of the others.
      have drops : (variants droppable body : Multiset Body) =
          (droppablePositions droppable body).powerset.val.map
            fun chosen => without (insert body.length chosen) (body ++ [s]) := by
        rw [ih]
        apply Multiset.map_congr rfl
        intro chosen _
        rw [without_concat, if_pos (Finset.mem_insert_self _ _), List.append_nil,
          without_insert_length]
      rw [variants_concat, droppablePositions_concat]
      split
      next => rw [map_powerset_insert new, ← Multiset.coe_add, keeps, drops, add_comm]
      next => exact keeps

/-- There is one nonempty variant for each choice that leaves something. -/
theorem coe_expand (droppable : NonterminalSet) (body : Body) :
    (expand droppable body : Multiset Body) =
      (choices droppable body).val.map fun chosen => without chosen body := by
  have nonempty : (fun rest : Body => !rest.isEmpty) = fun rest => decide (rest ≠ []) := by
    funext rest
    cases rest <;> rfl
  rw [expand, nonempty, ← Multiset.filter_coe, coe_variants, Multiset.filter_map, choices,
    ← Finset.filter_ne', Finset.filter_val]
  congr 1
  apply Multiset.filter_congr
  intro chosen hchosen
  have choice : chosen ⊆ droppablePositions droppable body := Finset.mem_powerset.mp hchosen
  rw [Function.comp_apply, Ne, without_eq_nil_iff (choice.trans droppablePositions_subset)]

/-- What remains of a body is what some choice leaves of it. -/
theorem thinned_iff_exists {rest : Body} :
    Thinned droppable body rest ↔
      ∃ chosen : Finset Nat, (∀ i ∈ chosen, ∃ n ∈ droppable, body[i]? = some (.nonterminal n)) ∧
        without chosen body = rest := by
  rw [← mem_variants_iff, ← Multiset.mem_coe, coe_variants, Multiset.mem_map]
  simp only [Finset.mem_val, Finset.mem_powerset, Finset.subset_iff, mem_droppablePositions]

/-- Expanding a body leaves out each set of positions of droppable symbols exactly once, except the
one that leaves nothing, and gives nothing else. On a valid grammar removing empty bodies succeeds,
and a head then has the nonempty bodies that are left of its bodies without some occurrences of
droppable symbols. -/
theorem Grammar.eliminateEpsilon_leaves_choices :
    (∀ (droppable : NonterminalSet) (body : Body),
      (expand droppable body : Multiset Body) =
        (choices droppable body).val.map fun chosen => without chosen body) ∧
    ∀ g : Grammar, g.validate = .ok () → ∀ droppable : NonterminalSet,
      ∃ e, g.eliminateEpsilon droppable = .ok e ∧ ∀ n rest,
        ⟨n, rest⟩ ∈ e.grammar.productions ↔
          rest ≠ [] ∧ ∃ body, ⟨n, body⟩ ∈ g.productions ∧ ∃ chosen : Finset Nat,
            (∀ i ∈ chosen, ∃ m ∈ droppable, body[i]? = some (.nonterminal m)) ∧
              without chosen body = rest := by
  refine ⟨coe_expand, ?_⟩
  intro g valid droppable
  refine ⟨_, eliminateEpsilon_of_validate valid droppable, ?_⟩
  intro n rest
  rw [mem_productions_expandFamilies]
  simp only [thinned_iff_exists]

example :
    expand (.ofList [⟨0⟩]) [.nonterminal ⟨0⟩, .nonterminal ⟨1⟩, .nonterminal ⟨0⟩] =
      [[.nonterminal ⟨1⟩], [.nonterminal ⟨0⟩, .nonterminal ⟨1⟩],
        [.nonterminal ⟨1⟩, .nonterminal ⟨0⟩],
        [.nonterminal ⟨0⟩, .nonterminal ⟨1⟩, .nonterminal ⟨0⟩]] := by
  decide

/-- With the middle of the palindromes droppable, two choices leave the same symbol of a body with
this middle twice. The grammar of the palindromes gets the body `aa`, but no empty body in place
of the body that is this middle. -/
theorem evenPalindromes_eliminateEpsilon_leaves_choices :
    let middle : NonterminalSet := .ofList [⟨1⟩]
    (expand middle [.nonterminal ⟨1⟩, .nonterminal ⟨1⟩] : Multiset Body).count
        [.nonterminal ⟨1⟩] = 2 ∧
      evenPalindromes.validate = .ok () ∧ ∃ e, evenPalindromes.eliminateEpsilon middle = .ok e ∧
        ⟨⟨2⟩, [.terminal ⟨0⟩, .terminal ⟨0⟩]⟩ ∈ e.grammar.productions ∧
        ⟨⟨0⟩, []⟩ ∉ e.grammar.productions := by
  intro middle
  obtain ⟨expanded, eliminated⟩ := Grammar.eliminateEpsilon_leaves_choices
  have valid : evenPalindromes.validate = .ok () := by decide +kernel
  obtain ⟨e, ok, productions⟩ := eliminated evenPalindromes valid middle
  refine ⟨?_, valid, e, ok, ?_, ?_⟩
  · rw [expanded]
    decide +kernel
  · apply (productions _ _).mpr
    refine ⟨by decide, [.terminal ⟨0⟩, .nonterminal ⟨1⟩, .terminal ⟨0⟩], by decide, {1}, ?_,
      by decide +kernel⟩
    intro i hi
    obtain rfl := Finset.mem_singleton.mp hi
    exact ⟨⟨1⟩, IdSet.mem_ofList.mpr List.mem_cons_self, rfl⟩
  · intro member
    exact ((productions _ _).mp member).1 rfl

end ContextFree
