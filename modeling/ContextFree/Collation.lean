import ContextFree.OrderedSet
import Std.Data.TreeMap

/-!
# Collating pairs by key

Collating a list of pairs gathers the values of each key. Keys come in the order
of their first occurrence, and the values of a key in the order in which they
occur.
-/

namespace ContextFree

variable {κ ν : Type} [Ord κ]

/-- The values of each key, in order of occurrence. -/
def gather (pairs : List (κ × ν)) : Std.TreeMap κ (List ν) :=
  pairs.foldr (fun (k, v) table => table.alter k fun vs => some (v :: vs.getD [])) ∅

variable [Std.TransOrd κ] [Std.LawfulEqOrd κ]

theorem getD_gather [DecidableEq κ] (pairs : List (κ × ν)) (k : κ) :
    (gather pairs).getD k [] = (pairs.filter fun p => p.1 = k).map Prod.snd := by
  induction pairs with
  | nil => simp [gather]
  | cons p rest ih =>
      have step : (gather (p :: rest)).getD k [] =
          if compare p.1 k = .eq then p.2 :: (gather rest)[p.1]?.getD []
          else (gather rest).getD k [] := by
        simp only [gather, List.foldr_cons, Std.TreeMap.getD_alter, Option.getD_some]
      rw [step]
      by_cases same : p.1 = k
      · subst same
        rw [if_pos (Std.compare_eq_iff_eq.mpr rfl), ← Std.TreeMap.getD_eq_getD_getElem?, ih]
        simp
      · rw [if_neg (fun h => same (Std.compare_eq_iff_eq.mp h)), ih]
        simp [same]

/-- The table of pairs with distinct keys finds the value of each key. -/
theorem getElem?_foldr_insert {pairs : List (κ × ν)} (nodup : (pairs.map Prod.fst).Nodup)
    {k : κ} {v : ν} :
    (pairs.foldr (fun p (table : Std.TreeMap κ ν) => table.insert p.1 p.2) ∅)[k]? = some v ↔
      (k, v) ∈ pairs := by
  induction pairs with
  | nil => simp
  | cons p rest ih =>
      obtain ⟨fresh, tail⟩ := List.nodup_cons.mp nodup
      rw [List.foldr_cons, Std.TreeMap.getElem?_insert, List.mem_cons]
      by_cases same : p.1 = k
      · have absent : (k, v) ∉ rest := fun h => fresh (same ▸ List.mem_map_of_mem h)
        rw [if_pos (Std.compare_eq_iff_eq.mpr same), Option.some.injEq, or_iff_left absent,
          Prod.ext_iff, and_iff_right same.symm]
        exact eq_comm
      · have other : (k, v) ≠ p := fun h => same (h ▸ rfl)
        rw [if_neg fun h => same (Std.compare_eq_iff_eq.mp h), ih tail, or_iff_right other]

def collate (pairs : List (κ × ν)) : List (κ × List ν) :=
  let table := gather pairs
  (distinct (pairs.map Prod.fst)).map fun k => (k, table.getD k [])

end ContextFree
