import ContextFree.Proofs.WellFormed
import Mathlib.Data.List.Perm.Basic

/-!
# Grouping productions by head

Grouping loses no production, and if none is repeated it collapses none: the grouped productions
are those of the list in another order. So they can be counted in the list, and the bodies of a
head are as many as its occurrences as a head. Grouped families are not changed by grouping their
productions again. Grouping a list is the same as inserting its productions one after another.
-/

namespace ContextFree

section Distinct

variable {α : Type} [Ord α] [Std.TransOrd α] [Std.LawfulEqOrd α] [DecidableEq α]

/-- A list without repetitions is left as it is. -/
theorem distinct_eq_self {as : List α} (nodup : as.Nodup) : distinct as = as := by
  rw [distinct_eq_eraseDups]
  induction as with
  | nil => rfl
  | cons a rest ih =>
      obtain ⟨fresh, tail⟩ := List.nodup_cons.mp nodup
      have others : rest.filter (fun b => !b == a) = rest := by
        apply List.filter_eq_self.mpr
        intro b hb
        have other : b ≠ a := fun same => fresh (same ▸ hb)
        simpa using other
      rw [List.eraseDups_cons, others, ih tail]

/-- A block of equal elements that do not occur later counts once. -/
theorem distinct_block_append {a : α} {block rest : List α} (nonempty : block ≠ [])
    (equal : ∀ b ∈ block, b = a) (fresh : a ∉ rest) :
    distinct (block ++ rest) = a :: distinct rest := by
  rw [distinct_eq_eraseDups, distinct_eq_eraseDups]
  cases block with
  | nil => exact absurd rfl nonempty
  | cons b block =>
      obtain rfl : b = a := equal b List.mem_cons_self
      have none : block.filter (fun c => !c == b) = [] := by
        apply List.filter_eq_nil_iff.mpr
        intro c hc
        simp [equal c (List.mem_cons_of_mem _ hc)]
      have all : rest.filter (fun c => !c == b) = rest := by
        apply List.filter_eq_self.mpr
        intro c hc
        have other : c ≠ b := fun same => fresh (same ▸ hc)
        simpa using other
      rw [List.cons_append, List.eraseDups_cons, List.filter_append, none, all, List.nil_append]

/-- An element at the end counts if it is new. -/
theorem distinct_append_singleton (as : List α) (a : α) :
    distinct (as ++ [a]) = if a ∈ as then distinct as else distinct as ++ [a] := by
  rw [distinct_eq_eraseDups, distinct_eq_eraseDups, List.eraseDups_append]
  by_cases known : a ∈ as
  · simp [List.removeAll, known]
  · simp [List.removeAll, known, List.eraseDups_cons]

theorem distinct_mono {as bs : List α} (h : as <+: bs) : distinct as <+: distinct bs := by
  obtain ⟨rest, rfl⟩ := h
  rw [distinct_eq_eraseDups, distinct_eq_eraseDups, List.eraseDups_append]
  exact List.prefix_append _ _

end Distinct

/-- The families of a list of productions, written without a table. -/
theorem group_eq (productions : List Production) :
    group productions = (distinct (productions.map Production.head)).map fun head =>
      ⟨head, distinct ((productions.filter fun p => p.head = head).map Production.body)⟩ := by
  simp only [group, collate, List.map_map, getD_gather, List.filter_map]
  rfl

/-- The productions of a family whose head does not occur later form a family. -/
theorem group_family_append {f : Family} {rest : List Production} (nodup : f.bodies.Nodup)
    (nonempty : f.bodies ≠ []) (fresh : ∀ p ∈ rest, p.head ≠ f.head) :
    group (f.productions ++ rest) = f :: group rest := by
  have own : f.productions.filter (fun p => p.head = f.head) = f.productions := by
    apply List.filter_eq_self.mpr
    intro p hp
    obtain ⟨body, _, rfl⟩ := List.mem_map.mp hp
    exact decide_eq_true rfl
  have later : rest.filter (fun p => p.head = f.head) = [] := by
    apply List.filter_eq_nil_iff.mpr
    intro p hp
    simpa using fresh p hp
  have bodies : f.productions.map Production.body = f.bodies := by
    rw [Family.productions, List.map_map]
    exact List.map_id f.bodies
  have heads : distinct ((f.productions ++ rest).map Production.head) =
      f.head :: distinct (rest.map Production.head) := by
    rw [List.map_append]
    apply distinct_block_append
    · rw [Family.productions, List.map_map]
      exact mt List.map_eq_nil_iff.mp nonempty
    · intro head member
      obtain ⟨p, hp, rfl⟩ := List.mem_map.mp member
      obtain ⟨body, _, rfl⟩ := List.mem_map.mp hp
      rfl
    · intro member
      obtain ⟨p, hp, same⟩ := List.mem_map.mp member
      exact fresh p hp same
  rw [group_eq, group_eq, heads, List.map_cons, List.filter_append, own, later, List.append_nil,
    bodies, distinct_eq_self nodup]
  congr 1
  apply List.map_congr_left
  intro head member
  obtain ⟨p, hp, rfl⟩ := List.mem_map.mp (mem_distinct.mp member)
  have none : f.productions.filter (fun q => q.head = p.head) = [] := by
    apply List.filter_eq_nil_iff.mpr
    intro q hq
    obtain ⟨body, _, rfl⟩ := List.mem_map.mp hq
    simpa using (fresh p hp).symm
  rw [List.filter_append, none, List.nil_append]

/-- Grouping the productions of grouped families gives the families back, in their order. -/
theorem Grouped.group_productions {families : List Family} (h : Grouped families) :
    group (families.flatMap Family.productions) = families := by
  induction families with
  | nil => rfl
  | cons f rest ih =>
      obtain ⟨fresh, tail⟩ := List.nodup_cons.mp h.heads_nodup
      have grouped : Grouped rest :=
        ⟨tail, fun f hf => h.bodies_nodup f (List.mem_cons_of_mem _ hf),
          fun f hf => h.bodies_ne_nil f (List.mem_cons_of_mem _ hf)⟩
      rw [List.flatMap_cons, group_family_append (h.bodies_nodup f List.mem_cons_self)
        (h.bodies_ne_nil f List.mem_cons_self), ih grouped]
      intro p hp same
      obtain ⟨f', hf', member⟩ := List.mem_flatMap.mp hp
      obtain ⟨body, _, rfl⟩ := List.mem_map.mp member
      exact fresh (same ▸ List.mem_map_of_mem hf')

/-- The productions of grouped families are distinct. -/
theorem Grouped.nodup_productions {families : List Family} (h : Grouped families) :
    (families.flatMap Family.productions).Nodup := by
  apply List.nodup_flatMap.mpr
  constructor
  · intro f hf
    exact (h.bodies_nodup f hf).map fun _ _ same => (Production.mk.inj same).2
  · apply (List.pairwise_map.mp h.heads_nodup).imp
    intro f f' other p hp hp'
    obtain ⟨_, _, rfl⟩ := List.mem_map.mp hp
    obtain ⟨_, _, same⟩ := List.mem_map.mp hp'
    exact other (Production.mk.inj same).1.symm

/-- Grouping distinct productions only reorders them. -/
theorem perm_group {productions : List Production} (nodup : productions.Nodup) :
    ((group productions).flatMap Family.productions).Perm productions := by
  apply (List.perm_ext_iff_of_nodup (grouped_group productions).nodup_productions nodup).mpr
  intro p
  exact mem_group

section Insert

variable {families : List Family} {p : Production}

theorem insertProduction_of_not_mem (new : p.head ∉ families.map Family.head) :
    insertProduction families p = families ++ [⟨p.head, [p.body]⟩] := by
  induction families with
  | nil => rfl
  | cons f rest ih =>
      obtain ⟨other, later⟩ := not_or.mp (mt List.mem_cons.mpr new)
      rw [insertProduction, if_neg (Ne.symm other), ih later, List.cons_append]

theorem insertProduction_of_mem (nodup : (families.map Family.head).Nodup)
    (known : p.head ∈ families.map Family.head) :
    insertProduction families p =
      families.map fun f => if f.head = p.head then f.insert p.body else f := by
  induction families with
  | nil => cases known
  | cons f rest ih =>
      obtain ⟨fresh, tail⟩ := List.nodup_cons.mp nodup
      rw [insertProduction, List.map_cons]
      by_cases same : f.head = p.head
      · have others : rest.map (fun f => if f.head = p.head then f.insert p.body else f) =
            rest.map id := by
          apply List.map_congr_left
          intro f' hf'
          have apart : f'.head ≠ p.head :=
            fun eq => fresh (same.trans eq.symm ▸ List.mem_map_of_mem hf')
          rw [if_neg apart, id]
        rw [if_pos same, if_pos same, others, List.map_id]
      · have later : p.head ∈ rest.map Family.head :=
          (List.mem_cons.mp known).resolve_left (Ne.symm same)
        rw [if_neg same, if_neg same, ih tail later]

theorem insert_distinct (head : NonterminalId) (bodies : List Body) (body : Body) :
    Family.insert ⟨head, distinct bodies⟩ body = ⟨head, distinct (bodies ++ [body])⟩ := by
  rw [Family.insert, distinct_append_singleton]
  by_cases known : body ∈ bodies
  · rw [if_pos known, if_pos (mem_distinct.mpr known)]
  · rw [if_neg known, if_neg (mt mem_distinct.mp known)]

/-- Grouping one more production inserts it into the families. -/
theorem group_append_singleton (productions : List Production) (p : Production) :
    group (productions ++ [p]) = insertProduction (group productions) p := by
  have heads :
      (group productions).map Family.head = distinct (productions.map Production.head) := by
    rw [group_eq, List.map_map]
    exact List.map_id _
  rw [group_eq (productions ++ [p]), List.map_append, List.map_singleton,
    distinct_append_singleton]
  by_cases known : p.head ∈ productions.map Production.head
  · rw [if_pos known, insertProduction_of_mem (grouped_group productions).heads_nodup
      (by rwa [heads, mem_distinct]), group_eq, List.map_map]
    apply List.map_congr_left
    intro head _
    by_cases same : head = p.head
    · simp [same, insert_distinct]
    · simp [same, Ne.symm same]
  · rw [if_neg known, insertProduction_of_not_mem (by rwa [heads, mem_distinct]), List.map_append,
      group_eq]
    congr 1
    · apply List.map_congr_left
      intro head member
      have other : ¬ p.head = head := fun same => known (mem_distinct.mp (same ▸ member))
      simp [other]
    · have none : productions.filter (fun q => q.head = p.head) = [] := by
        apply List.filter_eq_nil_iff.mpr
        intro q hq
        have other : ¬ q.head = p.head := fun same => known (same ▸ List.mem_map_of_mem hq)
        simpa using other
      rw [List.map_singleton, List.filter_append, none]
      simp [distinct_eq_self]

/-- Inserting productions one after another groups them. -/
theorem foldl_insertProduction (productions more : List Production) :
    more.foldl insertProduction (group productions) = group (productions ++ more) := by
  induction more generalizing productions with
  | nil => rw [List.foldl_nil, List.append_nil]
  | cons p rest ih =>
      rw [List.foldl_cons, ← group_append_singleton, ih, List.append_assoc, List.singleton_append]

theorem Grouped.foldl_insertProduction {families : List Family} (h : Grouped families)
    (more : List Production) :
    more.foldl insertProduction families =
      group (families.flatMap Family.productions ++ more) := by
  rw [← ContextFree.foldl_insertProduction, h.group_productions]

end Insert

namespace Grammar

variable {g : Grammar}

theorem productionCount_eq_length : g.productionCount = g.productions.length := by
  have counted : ∀ (families : List Family) (n : Nat),
      families.foldl (fun n f => n + f.bodies.length) n =
        n + (families.flatMap Family.productions).length := by
    intro families
    induction families with
    | nil => simp
    | cons f rest ih =>
        intro n
        rw [List.foldl_cons, ih, List.flatMap_cons, List.length_append, Family.productions,
          List.length_map, Nat.add_assoc]
  rw [productionCount, counted, Nat.zero_add]
  rfl

theorem nodup_bodiesOf (h : Grouped g.families) (n : NonterminalId) : (g.bodiesOf n).Nodup := by
  rw [bodiesOf]
  split
  next f found => exact h.bodies_nodup f (List.mem_of_find?_eq_some found)
  next => exact List.nodup_nil

/-- The productions with a head are those of its bodies. -/
theorem perm_filter_head (h : Grouped g.families) (n : NonterminalId) :
    (g.productions.filter fun p => p.head = n).Perm ((g.bodiesOf n).map (Production.mk n)) := by
  have nodup : ((g.bodiesOf n).map (Production.mk n)).Nodup :=
    (nodup_bodiesOf h n).map fun _ _ same => (Production.mk.inj same).2
  apply (List.perm_ext_iff_of_nodup (h.nodup_productions.filter _) nodup).mpr
  intro p
  rw [List.mem_filter, decide_eq_true_eq, List.mem_map]
  constructor
  · rintro ⟨rule, rfl⟩
    exact ⟨p.body, (mem_bodiesOf h).mpr rule, rfl⟩
  · rintro ⟨body, hb, rfl⟩
    exact ⟨(mem_bodiesOf h).mp hb, rfl⟩

/-- A head has as many bodies as there are productions with it. -/
theorem length_bodiesOf (h : Grouped g.families) (n : NonterminalId) :
    (g.bodiesOf n).length = (g.productions.map Production.head).count n := by
  have same := (perm_filter_head h n).length_eq
  rw [List.length_map] at same
  rw [← same, ← List.countP_eq_length_filter, List.count, List.countP_map]
  rfl

end Grammar

end ContextFree
