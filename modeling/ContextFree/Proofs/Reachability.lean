import ContextFree.Analysis.Reachability
import ContextFree.Proofs.WellFormed
import Mathlib.Data.Finset.Card
import Mathlib.Logic.Relation

/-!
# The worklist finds exactly the reachable nonterminals

A nonterminal is reached from another by a chain of occurrences in bodies. While the
worklist runs, everything seen is reachable, and whatever has been opened has all its
occurrences among what has been seen. The worklist is empty before the bound on its
steps is used up, and then everything seen has been opened.

## Implementation notes

`Grammar.Search` says what the walk does without a bound on its steps. Every search is finite,
so a search that exists shows that the walk terminates.
-/

namespace ContextFree

namespace Grammar

/-- A nonterminal occurs in a body of another. -/
def Mentions (g : Grammar) (n m : NonterminalId) : Prop :=
  ∃ body, ⟨n, body⟩ ∈ g.productions ∧ .nonterminal m ∈ body

/-- A nonterminal is reached from another by a chain of occurrences. -/
def Reaches (g : Grammar) : NonterminalId → NonterminalId → Prop :=
  Relation.ReflTransGen g.Mentions

theorem mem_mentions {bodies : List Body} {m : NonterminalId} :
    m ∈ mentions bodies ↔ ∃ body ∈ bodies, .nonterminal m ∈ body := by
  simp only [mentions, List.mem_flatMap, List.mem_filterMap]
  refine exists_congr fun body => and_congr_right fun _ => ?_
  constructor
  · rintro ⟨s, hs, same⟩
    cases s with
    | terminal t => cases same
    | nonterminal n => exact Option.some.inj same ▸ hs
  · intro hm
    exact ⟨_, hm, rfl⟩

section Explore

variable {table : Std.TreeMap NonterminalId (List Body)} {root : NonterminalId}
  {bound : List NonterminalId} {w : Worklist NonterminalId}

/-- What holds of the worklist at every moment. -/
structure Explored (table : Std.TreeMap NonterminalId (List Body)) (root : NonterminalId)
    (bound : List NonterminalId) (w : Worklist NonterminalId) : Prop where
  root_seen : root ∈ w.seen.toList
  opened_le : w.opened ≤ w.seen.toList.length
  closed : ∀ n ∈ w.popped, ∀ m ∈ mentions (table.getD n []), m ∈ w.seen.toList
  sound : ∀ n ∈ w.seen.toList,
    Relation.ReflTransGen (fun n m => m ∈ mentions (table.getD n [])) root n
  bounded : ∀ n ∈ w.seen.toList, n ∈ bound

theorem Explored.length_le (h : Explored table root bound w) :
    w.seen.toList.length ≤ bound.length := by
  have distinct : w.seen.toList.toFinset.card = w.seen.toList.length :=
    List.toFinset_card_of_nodup w.seen.nodup
  calc
    w.seen.toList.length = w.seen.toList.toFinset.card := distinct.symm
    _ ≤ bound.toFinset.card := by
      refine Finset.card_le_card fun n hn => ?_
      exact List.mem_toFinset.mpr (h.bounded n (List.mem_toFinset.mp hn))
    _ ≤ bound.length := List.toFinset_card_le _

/-- Opening the next nonterminal keeps the invariant. -/
theorem Explored.step (h : Explored table root bound w)
    (inside : ∀ n, ∀ m ∈ mentions (table.getD n []), m ∈ bound)
    {n : NonterminalId} {rest : Worklist NonterminalId} (hp : w.pop? = some (n, rest)) :
    Explored table root bound (rest.pushAll (mentions (table.getD n []))) ∧
      (rest.pushAll (mentions (table.getD n []))).opened = w.opened + 1 := by
  obtain ⟨a, ha, hpair⟩ := Option.map_eq_some_iff.mp hp
  obtain ⟨rfl, rfl⟩ := Prod.mk.inj hpair
  have next : w.seen.toList[w.opened]? = some a := by
    rw [OrderedSet.toList, Array.getElem?_toList]
    exact ha
  have short : w.opened < w.seen.toList.length := (List.getElem?_eq_some_iff.mp next).1
  have seen_a : a ∈ w.seen.toList := List.mem_of_getElem? next
  have hnew := w.seen.toList_insertAll (mentions (table.getD a []))
  have mem_new {m : NonterminalId} :
      m ∈ (w.seen.insertAll (mentions (table.getD a []))).toList ↔
        m ∈ w.seen.toList ∨ m ∈ mentions (table.getD a []) := OrderedSet.mem_insertAll
  refine ⟨⟨?_, ?_, ?_, ?_, ?_⟩, rfl⟩
  · exact mem_new.mpr (Or.inl h.root_seen)
  · change w.opened + 1 ≤ (w.seen.insertAll (mentions (table.getD a []))).toList.length
    rw [hnew, List.length_append]
    omega
  · intro b hb m hm
    have popped : b ∈ w.popped ∨ b = a := by
      change b ∈ (w.seen.insertAll (mentions (table.getD a []))).toList.take (w.opened + 1) at hb
      rw [hnew, List.take_append_of_le_length (by omega), List.take_add_one, next] at hb
      simpa [Worklist.popped] using hb
    rcases popped with old | rfl
    · exact mem_new.mpr (Or.inl (h.closed b old m hm))
    · exact mem_new.mpr (Or.inr hm)
  · intro m hm
    rcases mem_new.mp hm with old | mentioned
    · exact h.sound m old
    · exact (h.sound a seen_a).tail mentioned
  · intro m hm
    rcases mem_new.mp hm with old | mentioned
    · exact h.bounded m old
    · exact inside a m mentioned

/-- With enough steps the worklist is emptied, and the invariant still holds. -/
theorem Explored.explore (h : Explored table root bound w)
    (inside : ∀ n, ∀ m ∈ mentions (table.getD n []), m ∈ bound)
    {fuel : Nat} (enough : bound.length < fuel + w.opened) :
    Explored table root bound (explore table fuel w) ∧ (explore table fuel w).pop? = none := by
  induction fuel generalizing w with
  | zero =>
      have opened := h.opened_le
      have seen := h.length_le
      omega
  | succ fuel ih =>
      unfold Grammar.explore
      cases hp : w.pop? with
      | none => exact ⟨h, hp⟩
      | some pair =>
          obtain ⟨n, rest⟩ := pair
          obtain ⟨kept, opened⟩ := h.step inside hp
          exact ih kept (by omega)

/-- An emptied worklist has seen exactly what the root reaches. -/
theorem Explored.mem_seen_iff (h : Explored table root bound w) (empty : w.pop? = none)
    {n : NonterminalId} :
    n ∈ w.seen.toList ↔
      Relation.ReflTransGen (fun n m => m ∈ mentions (table.getD n [])) root n := by
  have all : w.popped = w.seen.toList := by
    have past : w.seen.elems[w.opened]? = none := Option.map_eq_none_iff.mp empty
    exact List.take_of_length_le (Array.getElem?_eq_none_iff.mp past)
  constructor
  · exact h.sound n
  · intro reached
    induction reached with
    | refl => exact h.root_seen
    | tail _ mentioned ih => exact h.closed _ (all ▸ ih) _ mentioned

end Explore

variable {g : Grammar}

theorem mem_mentions_bodiesOf (heads : (g.families.map Family.head).Nodup) {n m : NonterminalId} :
    m ∈ mentions (g.bodiesOf n) ↔ g.Mentions n m := by
  rw [mem_mentions]
  exact exists_congr fun body => and_congr_left fun _ => mem_bodiesOf_of_nodup heads

/-- All occurrences of nonterminals in bodies. -/
def occurrences (g : Grammar) : List NonterminalId :=
  g.productions.flatMap fun p => p.body.filterMap Symbol.nonterminal?

theorem length_occurrences_le :
    g.occurrences.length + 2 ≤ g.productions.foldl (fun n p => n + p.body.length) 2 := by
  have folded : ∀ k, (g.productions.flatMap fun p => p.body.filterMap Symbol.nonterminal?).length +
      k ≤ g.productions.foldl (fun n p => n + p.body.length) k := by
    induction g.productions with
    | nil => simp
    | cons p rest ih =>
        intro k
        have short := List.length_filterMap_le Symbol.nonterminal? p.body
        have tail := ih (k + p.body.length)
        rw [List.flatMap_cons, List.length_append, List.foldl_cons]
        omega
  exact folded 2

theorem mem_occurrences {n m : NonterminalId} (h : g.Mentions n m) : m ∈ g.occurrences := by
  obtain ⟨body, hb, hm⟩ := h
  exact List.mem_flatMap.mpr ⟨⟨n, body⟩, hb, List.mem_filterMap.mpr ⟨_, hm, rfl⟩⟩

/-- The worklist after the last step of the search. -/
def searched (g : Grammar) : Worklist NonterminalId :=
  explore g.bodyTable (g.productions.foldl (fun n p => n + p.body.length) 2) (.ofList [g.start])

theorem reachableSet_eq : g.reachableSet = .ofList g.searched.seen.toList := rfl

/-- The bound on the number of steps is large enough. -/
theorem explored_searched (heads : (g.families.map Family.head).Nodup) :
    Explored g.bodyTable g.start (g.start :: g.occurrences) g.searched ∧
      g.searched.pop? = none := by
  have inside : ∀ n, ∀ m ∈ mentions (g.bodyTable.getD n []), m ∈ g.start :: g.occurrences := by
    intro n m hm
    rw [getD_bodyTable, mem_mentions_bodiesOf heads] at hm
    exact List.mem_cons_of_mem _ (mem_occurrences hm)
  have seen {m : NonterminalId} :
      m ∈ (Worklist.ofList [g.start]).seen.toList ↔ m = g.start := by
    change m ∈ (OrderedSet.ofList [g.start]).toList ↔ m = g.start
    rw [OrderedSet.mem_ofList, List.mem_singleton]
  have initial : Explored g.bodyTable g.start (g.start :: g.occurrences) (.ofList [g.start]) := by
    refine ⟨seen.mpr rfl, Nat.zero_le _, ?_, ?_, ?_⟩
    · intro n hn
      exact absurd hn List.not_mem_nil
    · intro n hn
      rw [seen.mp hn]
    · intro n hn
      rw [seen.mp hn]
      exact List.mem_cons_self
  have enough : (g.start :: g.occurrences).length <
      g.productions.foldl (fun n p => n + p.body.length) 2 + 0 := by
    have short := g.length_occurrences_le
    rw [List.length_cons]
    omega
  exact initial.explore inside enough

/-- The reachable set holds exactly the nonterminals reached from the start symbol. -/
theorem mem_reachableSet_iff (heads : (g.families.map Family.head).Nodup) {n : NonterminalId} :
    n ∈ g.reachableSet ↔ g.Reaches g.start n := by
  obtain ⟨kept, empty⟩ := explored_searched heads
  have same : (fun n m => m ∈ mentions (g.bodyTable.getD n [])) = g.Mentions := by
    funext n m
    rw [getD_bodyTable, mem_mentions_bodiesOf heads]
  rw [reachableSet_eq, IdSet.mem_ofList, kept.mem_seen_iff empty, same, Reaches]

section Search

variable {w last other : Worklist NonterminalId}

/-- A search opens waiting nonterminals, one after the other, until none is left. -/
inductive Search (g : Grammar) : Worklist NonterminalId → Worklist NonterminalId → Prop where
  | done {w : Worklist NonterminalId} : w.pop? = none → Search g w w
  | next {w rest last : Worklist NonterminalId} {n : NonterminalId} :
      w.pop? = some (n, rest) → Search g (rest.pushAll (mentions (g.bodiesOf n))) last →
      Search g w last

/-- There is one search only. -/
theorem Search.unique (search : g.Search w last) (again : g.Search w other) : last = other := by
  induction search with
  | done empty =>
      cases again with
      | done _ => rfl
      | next popped _ => cases empty.symm.trans popped
  | next popped _ ih =>
      cases again with
      | done empty => cases empty.symm.trans popped
      | next again rest =>
          cases popped.symm.trans again
          exact ih rest

/-- If the bound on the steps does not end it, the search ends because nothing is left. -/
theorem search_explore {fuel : Nat} (empty : (explore g.bodyTable fuel w).pop? = none) :
    g.Search w (explore g.bodyTable fuel w) := by
  induction fuel generalizing w with
  | zero => exact .done empty
  | succ fuel ih =>
      unfold explore at empty ⊢
      cases popped : w.pop? with
      | none => exact .done popped
      | some pair =>
          obtain ⟨n, rest⟩ := pair
          simp only [popped, getD_bodyTable] at empty ⊢
          exact .next popped (ih empty)

theorem search_searched (heads : (g.families.map Family.head).Nodup) :
    g.Search (.ofList [g.start]) g.searched :=
  search_explore (explored_searched heads).2

end Search

end Grammar

end ContextFree
