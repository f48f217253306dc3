import ContextFree.Recognition
import Mathlib.Data.Set.Function
import Mathlib.Order.Interval.Set.Defs
import Mathlib.Tactic.Ring

/-!
# The layout of the chart

The cells of the spans, taken in the order in which they are filled, are numbered
without gaps from zero, and there are as many as there are spans. A shorter span has a
smaller cell than a longer one, so every cell that is read while a span is filled has
been filled before.
-/

namespace ContextFree.Chart

variable {n i j length short k : Nat}

theorem cellIndex_eq_add : cellIndex i length n = cellIndex 0 length n + i := rfl

/-- The cells that the first rows lack to rows of `n + 1` cells are at most all cells of such rows. -/
theorem triangle_le (h : length ≤ n) : length * (length + 1) / 2 ≤ length * (n + 1) := by
  calc
    length * (length + 1) / 2 ≤ length * (length + 1) := Nat.div_le_self _ _
    _ ≤ length * (n + 1) := Nat.mul_le_mul_left _ (by omega)

/-- The row of the spans of one length follows directly after the previous row. -/
theorem cellIndex_succ (h : length < n) :
    cellIndex 0 (length + 2) n = cellIndex 0 (length + 1) n + (n - length) := by
  have triangle : (length + 1) * (length + 2) / 2 = length * (length + 1) / 2 + (length + 1) := by
    have even : (length + 1) * (length + 2) = length * (length + 1) + 2 * (length + 1) := by ring
    rw [even]
    omega
  have fits : length * (length + 1) / 2 ≤ length * (n + 1) := triangle_le (by omega)
  have row : (length + 1) * (n + 1) = length * (n + 1) + (n + 1) := by ring
  simp only [cellIndex, Nat.add_sub_cancel, Nat.add_zero]
  change (length + 1) * (n + 1) - (length + 1) * (length + 2) / 2 = _
  rw [triangle, row]
  omega

/-- The cells of the spans up to a length are numbered from zero. -/
theorem map_cellIndex_flatMap {m : Nat} (h : m ≤ n) :
    (((List.range' 1 m).flatMap fun length =>
      (List.range (n - length + 1)).map fun i => (i, length)).map fun s => cellIndex s.1 s.2 n) =
      List.range (cellIndex 0 (m + 1) n) := by
  induction m with
  | zero => simp [cellIndex]
  | succ m ih =>
      have count : n - (1 + m) + 1 = n - m := by omega
      have row : ((List.range (n - m)).map fun i => (i, 1 + m)).map (fun s => cellIndex s.1 s.2 n) =
          (List.range (n - m)).map (cellIndex 0 (m + 1) n + ·) := by
        rw [List.map_map, Nat.add_comm 1 m]
        rfl
      rw [List.range'_1_concat, List.flatMap_append, List.map_append, ih (by omega),
        List.flatMap_singleton, count, row, cellIndex_succ (by omega), List.range_add]

theorem map_cellIndex_spans :
    (spans n).map (fun s => cellIndex s.1 s.2 n) = List.range (cellIndex 0 (n + 1) n) :=
  map_cellIndex_flatMap (Nat.le_refl n)

/-- The row behind that of the whole word starts at the number of spans. -/
theorem cellIndex_end : cellIndex 0 (n + 1) n = n * (n + 1) / 2 := by
  have even : n * (n + 1) % 2 = 0 := Nat.even_iff.mp (Nat.even_mul_succ_self n)
  change n * (n + 1) - n * (n + 1) / 2 + 0 = n * (n + 1) / 2
  omega

theorem length_spans : (spans n).length = n * (n + 1) / 2 := by
  rw [← cellIndex_end, ← List.length_range (n := cellIndex 0 (n + 1) n), ← map_cellIndex_spans,
    List.length_map]

theorem mem_spans : (i, length) ∈ spans n ↔ 1 ≤ length ∧ i + length ≤ n := by
  simp only [spans, List.mem_flatMap, List.mem_range'_1, List.mem_map, List.mem_range,
    Prod.mk.injEq]
  constructor
  · rintro ⟨_, ⟨lower, upper⟩, _, small, rfl, rfl⟩
    exact ⟨lower, by omega⟩
  · rintro ⟨lower, upper⟩
    exact ⟨length, ⟨lower, by omega⟩, i, by omega, rfl, rfl⟩

/-- A span stands in the list of spans at the number of its cell. -/
theorem getElem?_spans_iff :
    (spans n)[k]? = some (i, length) ↔
      k = cellIndex i length n ∧ 1 ≤ length ∧ i + length ≤ n := by
  have place : ∀ k s, (spans n)[k]? = some s → k = cellIndex s.1 s.2 n := by
    intro k s found
    have mapped : ((spans n).map fun s => cellIndex s.1 s.2 n)[k]? = some (cellIndex s.1 s.2 n) := by
      rw [List.getElem?_map, found]
      rfl
    rw [map_cellIndex_spans, List.getElem?_eq_some_iff] at mapped
    obtain ⟨_, same⟩ := mapped
    rwa [List.getElem_range] at same
  constructor
  · intro found
    exact ⟨place k _ found, mem_spans.mp (List.mem_of_getElem? found)⟩
  · rintro ⟨rfl, inside⟩
    obtain ⟨k, found⟩ := List.mem_iff_getElem?.mp (mem_spans.mpr inside)
    rwa [← place k _ found]

/-- Rows of longer spans start later. -/
theorem cellIndex_zero_le {longer : Nat} (lower : 1 ≤ length) (le : length ≤ longer)
    (inside : longer ≤ n) : cellIndex 0 length n ≤ cellIndex 0 longer n := by
  induction le with
  | refl => exact Nat.le_refl _
  | @step m le ih =>
      obtain ⟨l, rfl⟩ := Nat.exists_eq_add_of_le' (Nat.le_trans lower le)
      have next : cellIndex 0 (l + 2) n = cellIndex 0 (l + 1) n + (n - l) :=
        cellIndex_succ (by omega)
      have previous := ih (by omega)
      change cellIndex 0 length n ≤ cellIndex 0 (l + 2) n
      omega

/-- Shorter spans have smaller cells. -/
theorem cellIndex_lt_cellIndex (lower : 1 ≤ short) (shorter : short < length)
    (inside : j + short ≤ n) (fits : i + length ≤ n) :
    cellIndex j short n < cellIndex i length n := by
  obtain ⟨s, rfl⟩ := Nat.exists_eq_add_of_le' lower
  have row : cellIndex 0 (s + 2) n = cellIndex 0 (s + 1) n + (n - s) := cellIndex_succ (by omega)
  calc
    cellIndex j (s + 1) n < cellIndex 0 (s + 2) n := by
      rw [cellIndex_eq_add, row]
      omega
    _ ≤ cellIndex 0 length n := cellIndex_zero_le (by omega) (by omega) (by omega)
    _ ≤ cellIndex i length n := Nat.le_add_right _ _

/-- When the cells are filled in order, the next span has the next cell, and the cells of all
shorter spans come before it. -/
theorem next_span {done rest : List (Nat × Nat)} (order : spans n = done ++ (i, length) :: rest) :
    done.length = cellIndex i length n ∧ 1 ≤ length ∧ i + length ≤ n ∧
      ∀ j short, 1 ≤ short → short < length → j + short ≤ n →
        cellIndex j short n < done.length := by
  have here : (spans n)[done.length]? = some (i, length) := by
    rw [order, List.getElem?_append_right (Nat.le_refl _), Nat.sub_self]
    rfl
  obtain ⟨place, lower, fits⟩ := getElem?_spans_iff.mp here
  refine ⟨place, lower, fits, ?_⟩
  intro j short hlower shorter inside
  rw [place]
  exact cellIndex_lt_cellIndex hlower shorter inside fits

/-- Every number below the number of spans is the cell of exactly one span. -/
theorem bijOn_cellIndex :
    Set.BijOn (fun s : Nat × Nat => cellIndex s.1 s.2 n) {s | 1 ≤ s.2 ∧ s.1 + s.2 ≤ n}
      (Set.Iio (n * (n + 1) / 2)) := by
  have place {s : Nat × Nat} (inside : 1 ≤ s.2 ∧ s.1 + s.2 ≤ n) :
      (spans n)[cellIndex s.1 s.2 n]? = some s := getElem?_spans_iff.mpr ⟨rfl, inside⟩
  refine ⟨?_, ?_, ?_⟩
  · intro s inside
    obtain ⟨small, _⟩ := List.getElem?_eq_some_iff.mp (place inside)
    rwa [length_spans] at small
  · intro s hs t ht same
    change cellIndex s.1 s.2 n = cellIndex t.1 t.2 n at same
    have found := place hs
    rw [same, place ht] at found
    exact (Option.some.inj found).symm
  · intro k small
    rw [Set.mem_Iio, ← length_spans] at small
    obtain ⟨here, inside⟩ := getElem?_spans_iff.mp (List.getElem?_eq_getElem small)
    exact ⟨_, inside, here.symm⟩

end ContextFree.Chart
