import ContextFree.Graph.Closure
import Mathlib.Data.Finset.Card
import Mathlib.Data.List.Nodup
import Mathlib.Logic.Relation

/-!
# What the steps of a depth-first walk do

The walk is described by its marks, its stack and the sets its nodes hold. `Stands`
gives the depth of a node on the stack, and `Gathers` what the set of a node has to
hold in the end. Each step has one lemma for each of the parts it changes.
-/

namespace ContextFree.Graph

variable {α σ : Type} [Membership α σ]

/-- A node leads to another by any number of steps. -/
def Reach (successors : Nat → List Nat) : Nat → Nat → Prop :=
  Relation.ReflTransGen fun x y => y ∈ successors x

/-- An element of the set at a position. -/
def Holds (values : Array σ) (x : Nat) (a : α) : Prop := ∃ v, values[x]? = some v ∧ a ∈ v

/-- An element of the set of some node that a node reaches. -/
def Gathers (successors : Nat → List Nat) (values : Array σ) (x : Nat) (a : α) : Prop :=
  ∃ y, Reach successors x y ∧ Holds values y a

theorem Gathers.of_reach {successors : Nat → List Nat} {values : Array σ} {x y : Nat} {a : α}
    (path : Reach successors x y) (h : Gathers successors values y a) :
    Gathers successors values x a := by
  obtain ⟨z, hz, ha⟩ := h
  exact ⟨z, Relation.ReflTransGen.trans path hz, ha⟩

section Stands

variable {stack : List Nat} {x k : Nat}

/-- A node stands on a stack, listed latest first, at a depth counted from one. -/
def Stands (stack : List Nat) (depth x : Nat) : Prop :=
  ∃ above below, stack = above ++ x :: below ∧ below.length + 1 = depth

theorem Stands.mem (h : Stands stack k x) : x ∈ stack := by
  obtain ⟨above, below, rfl, _⟩ := h
  exact List.mem_append_right _ List.mem_cons_self

theorem exists_stands (h : x ∈ stack) : ∃ k, Stands stack k x := by
  obtain ⟨above, below, rfl⟩ := List.append_of_mem h
  exact ⟨_, above, below, rfl, rfl⟩

theorem Stands.pos (h : Stands stack k x) : 1 ≤ k := by
  obtain ⟨_, below, _, rfl⟩ := h
  exact Nat.le_add_left 1 _

theorem Stands.le_length (h : Stands stack k x) : k ≤ stack.length := by
  obtain ⟨above, below, rfl, rfl⟩ := h
  rw [List.length_append, List.length_cons]
  omega

theorem Stands.append (h : Stands stack k x) (new : List Nat) : Stands (new ++ stack) k x := by
  obtain ⟨above, below, rfl, depth⟩ := h
  exact ⟨new ++ above, below, (List.append_assoc ..).symm, depth⟩

theorem stands_head (x : Nat) (stack : List Nat) : Stands (x :: stack) (stack.length + 1) x :=
  ⟨[], stack, rfl, rfl⟩

/-- The depth tells in which part of a stack a node stands. -/
theorem Stands.of_append {new : List Nat} (h : Stands (new ++ stack) k x) :
    (k ≤ stack.length ∧ Stands stack k x) ∨ (stack.length < k ∧ x ∈ new) := by
  obtain ⟨above, below, split, rfl⟩ := h
  rcases List.append_eq_append_iff.mp split with ⟨mid, _, rest⟩ | ⟨mid, rfl, rest⟩
  · refine Or.inl ⟨?_, mid, below, rest, rfl⟩
    rw [rest, List.length_append, List.length_cons]
    omega
  · cases mid with
    | nil =>
        refine Or.inl ⟨?_, [], below, rest.symm, rfl⟩
        rw [← List.nil_append stack, ← rest]
        exact Nat.le_refl _
    | cons y mid =>
        obtain ⟨rfl, tail⟩ := List.cons.inj rest
        have long : below.length = mid.length + stack.length := by
          rw [tail]
          exact List.length_append
        exact Or.inr ⟨by omega, List.mem_append_right _ List.mem_cons_self⟩

/-- A node of the lower part of a stack without repetitions keeps its depth. -/
theorem Stands.of_append_of_mem {new : List Nat} (nodup : (new ++ stack).Nodup)
    (hx : x ∈ stack) (h : Stands (new ++ stack) k x) : Stands stack k x := by
  rcases h.of_append with ⟨_, low⟩ | ⟨_, hnew⟩
  · exact low
  · exact absurd hx (List.nodup_append'.mp nodup |>.2.2 hnew)

end Stands

namespace Walk

variable {w : Walk σ} {x y z d : Nat}

theorem mark_set (marks : Array Mark) (x : Nat) (m : Mark) (y : Nat) :
    (marks.setIfInBounds x m).getD y .settled =
      if x = y ∧ x < marks.size then m else marks.getD y .settled := by
  rw [Array.getD_eq_getD_getElem?, Array.getD_eq_getD_getElem?, Array.getElem?_setIfInBounds]
  by_cases same : x = y
  · subst same
    by_cases inside : x < marks.size
    · simp [inside]
    · simp [inside]
  · simp [same]

/-- A node that is not settled is a position of the arrays. -/
theorem lt_size_of_mark_ne (h : w.mark x ≠ .settled) : x < w.marks.size := by
  by_contra outside
  apply h
  rw [mark, Array.getD_eq_getD_getElem?, Array.getElem?_eq_none (Nat.le_of_not_lt outside)]
  rfl

theorem mark_enter (hx : x < w.marks.size) (y : Nat) :
    (w.enter x).mark y = if x = y then .active (w.stack.length + 1) else w.mark y := by
  unfold mark enter
  rw [mark_set]
  simp [hx]

theorem mark_foldl_set (marks : Array Mark) (nodes : List Nat) (z : Nat) :
    (nodes.foldl (fun ms s => ms.setIfInBounds s .settled) marks).getD z .settled =
      if z ∈ nodes then .settled else marks.getD z .settled := by
  induction nodes generalizing marks with
  | nil => rfl
  | cons s rest ih =>
      rw [List.foldl_cons, ih, mark_set]
      by_cases tail : z ∈ rest
      · simp [tail]
      · by_cases here : s = z
        · subst here
          by_cases inside : s < marks.size
          · simp [inside]
          · simp [inside, tail, Array.getD_eq_getD_getElem?]
        · simp [here, tail, Ne.symm here]

theorem getElem?_foldl_set (values : Array σ) (nodes : List Nat) (v : σ) (z : Nat) :
    (nodes.foldl (fun vs s => vs.setIfInBounds s v) values)[z]? =
      if z ∈ nodes ∧ z < values.size then some v else values[z]? := by
  induction nodes generalizing values with
  | nil => simp
  | cons s rest ih =>
      rw [List.foldl_cons, ih, Array.size_setIfInBounds, Array.getElem?_setIfInBounds]
      by_cases inside : z < values.size
      · by_cases tail : z ∈ rest
        · simp [tail, inside]
        · by_cases here : s = z
          · subst here
            simp [inside, tail]
          · simp [here, tail, Ne.symm here]
      · by_cases here : s = z
        · subst here
          simp [inside]
        · simp [inside, here]

section Settle

variable {above below : List Nat}

theorem takeWhile_stack (split : w.stack = above ++ x :: below) (hx : x ∉ above) :
    w.stack.takeWhile (· != x) = above := by
  have all : ∀ s ∈ above, (s != x) = true := by
    intro s hs
    rw [bne_iff_ne]
    rintro rfl
    exact hx hs
  rw [split, List.takeWhile_append_of_pos all]
  simp

theorem stack_settle (split : w.stack = above ++ x :: below) (hx : x ∉ above) :
    (w.settle x).stack = below := by
  have all : ∀ s ∈ above, (s != x) = true := by
    intro s hs
    rw [bne_iff_ne]
    rintro rfl
    exact hx hs
  change (w.stack.dropWhile (· != x)).tail = below
  rw [split, List.dropWhile_append_of_pos all]
  simp

theorem mark_settle (split : w.stack = above ++ x :: below) (hx : x ∉ above) (z : Nat) :
    (w.settle x).mark z = if z = x ∨ z ∈ above then .settled else w.mark z := by
  change ((x :: w.stack.takeWhile (· != x)).foldl _ w.marks).getD z .settled = _
  rw [takeWhile_stack split hx, mark_foldl_set]
  simp only [List.mem_cons]
  rfl

theorem size_marks_settle : (w.settle x).marks.size = w.marks.size := by
  change ((x :: w.stack.takeWhile (· != x)).foldl
    (fun ms s => ms.setIfInBounds s .settled) w.marks).size = _
  generalize x :: w.stack.takeWhile (· != x) = nodes
  generalize w.marks = marks
  induction nodes generalizing marks with
  | nil => rfl
  | cons s rest ih => rw [List.foldl_cons, ih, Array.size_setIfInBounds]

theorem size_values_settle : (w.settle x).values.size = w.values.size := by
  unfold settle
  dsimp only
  split
  next v _ =>
    generalize w.stack.takeWhile (· != x) = nodes
    generalize w.values = values
    induction nodes generalizing values with
    | nil => rfl
    | cons s rest ih => rw [List.foldl_cons, ih, Array.size_setIfInBounds]
  next => rfl

/-- Settling gives the set of the node to all nodes above it. -/
theorem holds_settle (split : w.stack = above ++ x :: below) (hx : x ∉ above)
    (inside : ∀ s ∈ above, s < w.values.size) (here : x < w.values.size) {a : α} :
    Holds (w.settle x).values z a ↔
      if z ∈ above then Holds w.values x a else Holds w.values z a := by
  unfold Holds settle
  rw [takeWhile_stack split hx, Array.getElem?_eq_getElem here]
  dsimp only
  rw [getElem?_foldl_set]
  by_cases hz : z ∈ above
  · rw [if_pos ⟨hz, inside z hz⟩, if_pos hz]
  · rw [if_neg fun both => hz both.1, if_neg hz]

end Settle

variable [Union σ]

theorem mark_absorb_of_ne (h : z ≠ x) : (w.absorb x y).mark z = w.mark z := by
  change (w.marks.setIfInBounds x _).getD z .settled = _
  rw [mark_set, if_neg fun both => h both.1.symm]
  rfl

theorem mark_absorb_self (hx : x < w.marks.size) :
    (w.absorb x y).mark x = (w.mark x).lower (w.mark y) := by
  change (w.marks.setIfInBounds x _).getD x .settled = _
  rw [mark_set, if_pos ⟨rfl, hx⟩]

theorem size_marks_absorb : (w.absorb x y).marks.size = w.marks.size :=
  Array.size_setIfInBounds

theorem size_values_absorb : (w.absorb x y).values.size = w.values.size := by
  unfold absorb
  dsimp only
  split
  · rfl
  · split
    · exact Array.size_modify
    · rfl

/-- Absorbing adds the successor's set to the node's and changes no other set. -/
theorem holds_absorb (mem_union : ∀ (s t : σ) (a : α), a ∈ s ∪ t ↔ a ∈ s ∨ a ∈ t)
    (hx : x < w.values.size) {a : α} :
    Holds (w.absorb x y).values z a ↔ Holds w.values z a ∨ (z = x ∧ Holds w.values y a) := by
  unfold absorb Holds
  dsimp only
  by_cases same : x = y
  · subst same
    rw [if_pos rfl]
    constructor
    · exact Or.inl
    · rintro (h | ⟨rfl, h⟩)
      · exact h
      · exact h
  · rw [if_neg same]
    cases hy : w.values[y]? with
    | none => simp
    | some v =>
        dsimp only
        rw [Array.getElem?_modify]
        by_cases at_x : x = z
        · subst at_x
          rw [if_pos rfl, Array.getElem?_eq_getElem hx]
          simp only [Option.map_some, Option.some.injEq, exists_eq_left', mem_union, true_and]
        · rw [if_neg at_x]
          simp [Ne.symm at_x]

end Walk

end ContextFree.Graph
