import ContextFree.Proofs.Graph.Closure

/-!
# The walk stays inside its arrays and comes to an end

The walk reads and writes its arrays without asking whether a position is there, and the
depth of its recursion is bounded by the number of nodes. The checked walk has no result as
soon as a position lies outside an array or the bound is used up. It always has a result,
namely that of the walk: a visit is only begun for a node that has not been visited, so the
number of such nodes bounds the depth, and only nodes are ever put on the stack.

## Implementation notes

The steps of the checked walk are those of the walk behind a test. Successors are looked up
behind a test as well, because they belong to the key that stands at a position.
-/

namespace ContextFree.Graph

namespace Walk

variable {σ : Type}

/-- A node has a place in both arrays. -/
def Inside (w : Walk σ) (x : Nat) : Prop := x < w.marks.size ∧ x < w.values.size

instance (w : Walk σ) (x : Nat) : Decidable (w.Inside x) :=
  inferInstanceAs (Decidable (_ ∧ _))

def mark? (w : Walk σ) (x : Nat) : Option Mark := w.marks[x]?

def enter? (w : Walk σ) (x : Nat) : Option (Walk σ) :=
  if w.Inside x then some (w.enter x) else none

def absorb? [Union σ] (w : Walk σ) (x y : Nat) : Option (Walk σ) :=
  if w.Inside x ∧ w.Inside y then some (w.absorb x y) else none

def settle? (w : Walk σ) (x : Nat) : Option (Walk σ) :=
  if ∀ s ∈ x :: w.stack.takeWhile (· != x), w.Inside s then some (w.settle x) else none

/-- The walk after a visit of a node, or as it is if the node had been visited before. -/
def ensure? (w : Walk σ) (x : Nat) (visited : Option (Walk σ)) : Option (Walk σ) := do
  let mark ← w.mark? x
  if mark = .unvisited then visited else some w

theorem mark?_eq_some {w : Walk σ} {x : Nat} (inside : x < w.marks.size) :
    w.mark? x = some (w.mark x) := by
  rw [mark?, mark, Array.getD_eq_getD_getElem?, Array.getElem?_eq_getElem inside]
  rfl

end Walk

section Checked

variable {σ : Type} [Union σ]

/-- A visit that has no result when a position is missing or the depth is used up. -/
def visit? (successors : Nat → Option (List Nat)) : Nat → Walk σ → Nat → Option (Walk σ)
  | 0, _, _ => none
  | fuel + 1, w, x => do
      let depth := w.stack.length + 1
      let entered ← w.enter? x
      let targets ← successors x
      let scanned ← targets.foldlM
        (fun w y => do
          let w ← w.ensure? y (visit? successors fuel w y)
          w.absorb? x y)
        entered
      let mark ← scanned.mark? x
      if mark = .active depth then scanned.settle? x else some scanned

/-- The sets of all nodes closed along the graph, by the checked walk. -/
def closeArray? (successors : Nat → Option (List Nat)) (values : Array σ) : Option (Array σ) := do
  let w ← (List.range values.size).foldlM
    (fun w x => w.ensure? x (visit? successors values.size w x)) (Walk.start values)
  return w.values

variable {κ : Type} [Ord κ]

/-- The positions of the successors of the key at a position, if there is a key. -/
def nextPositions? (keys : Array κ) (position : Std.TreeMap κ Nat) (successors : κ → List κ)
    (x : Nat) : Option (List Nat) :=
  keys[x]?.map fun k => (successors k).filterMap fun m => position[m]?

/-- The sets of all keys closed along the graph, by the checked walk. -/
def closure? (table : List (κ × σ)) (successors : κ → List κ) : Option (List (κ × σ)) := do
  let keys := (table.map Prod.fst).toArray
  let position := positions keys
  let values ← closeArray? (nextPositions? keys position successors)
    (table.map Prod.snd).toArray
  return keys.toList.zip values.toList

end Checked

section Walk

variable {α σ : Type} [Membership α σ] {successors : Nat → List Nat} {initial : Array σ}
  {w : Walk σ} {x : Nat}

theorem Sound.inside (h : Sound successors initial w) (hx : x < initial.size) : w.Inside x :=
  ⟨h.marks_size.symm ▸ hx, h.values_size.symm ▸ hx⟩

theorem Sound.mark?_eq_some (h : Sound successors initial w) (hx : x < initial.size) :
    w.mark? x = some (w.mark x) :=
  Walk.mark?_eq_some (h.inside hx).1

theorem Sound.ensure?_eq_some (h : Sound successors initial w) (hx : x < initial.size)
    {visited : Option (Walk σ)} {w' : Walk σ}
    (visits : w.mark x = .unvisited → visited = some w') :
    w.ensure? x visited = some (if w.mark x = .unvisited then w' else w) := by
  rw [Walk.ensure?, h.mark?_eq_some hx, Option.bind_eq_bind, Option.bind_some]
  split
  next fresh => exact visits fresh
  next => rfl

/-- Only nodes are settled, because only nodes are on the stack. -/
theorem Sound.settle?_eq_some (h : Sound successors initial w) (hx : x < initial.size) :
    w.settle? x = some (w.settle x) := by
  apply if_pos
  intro s hs
  apply h.inside
  cases List.mem_cons.mp hs with
  | inl same => exact same ▸ hx
  | inr member => exact h.lt_of_mem ((List.takeWhile_sublist _).mem member)

variable [Union σ] {next : Nat → Option (List Nat)}

theorem Sound.absorb?_eq_some (h : Sound successors initial w) {y : Nat} (hx : x < initial.size)
    (hy : y < initial.size) : w.absorb? x y = some (w.absorb x y) :=
  if_pos ⟨h.inside hx, h.inside hy⟩

/-- Scanning the remaining successors passes all tests, if visits of unvisited nodes do. -/
theorem Scanning.foldlM_eq_some
    (mem_union : ∀ (s t : σ) (a : α), a ∈ s ∪ t ↔ a ∈ s ∨ a ∈ t)
    (range : ∀ x, ∀ y ∈ successors x, y < initial.size) {fuel : Nat}
    (visits : ∀ (w : Walk σ) (y : Nat), Sound successors initial w → w.mark y = .unvisited →
      pending initial.size w ≤ fuel → visit? next fuel w y = some (visit successors fuel w y))
    (enough : pending initial.size w ≤ fuel + 1) {above ys zs : List Nat} {w₁ : Walk σ}
    (split : successors x = ys ++ zs) (scan : Scanning successors initial w x above ys w₁) :
    zs.foldlM
        (fun w y => do
          let w ← w.ensure? y (visit? next fuel w y)
          w.absorb? x y)
        w₁ =
      some (zs.foldl
        (fun w y =>
          let w := if w.mark y = .unvisited then visit successors fuel w y else w
          w.absorb x y)
        w₁) := by
  induction zs generalizing above ys w₁ with
  | nil => rfl
  | cons y zs ih =>
      have edge : y ∈ successors x := by
        rw [split]
        exact List.mem_append_right _ List.mem_cons_self
      have hy : y < initial.size := range x y edge
      have fewer := scan.pending_lt
      obtain ⟨m, hm⟩ := scan.active
      have hx : x < initial.size :=
        scan.sound.lt_of_mem ((scan.sound.mem_stack_iff x).mpr ⟨m, hm⟩)
      have opened : Opened successors initial w₁ y
          (if w₁.mark y = .unvisited then visit successors fuel w₁ y else w₁) :=
        .ite scan.sound fun fresh => opened_visit mem_union range scan.sound fresh (by omega)
      have visited : w₁.ensure? y (visit? next fuel w₁ y) =
          some (if w₁.mark y = .unvisited then visit successors fuel w₁ y else w₁) :=
        scan.sound.ensure?_eq_some hy fun fresh => visits w₁ y scan.sound fresh (by omega)
      obtain ⟨new, after⟩ := scan.step mem_union edge opened
      have rest := ih (by rw [split, List.append_assoc]; rfl) after
      have absorbed := opened.sound.absorb?_eq_some hx hy
      simp only [List.foldlM_cons, List.foldl_cons, visited, absorbed, Option.bind_eq_bind,
        Option.bind_some]
      exact rest

/-- A visit with enough fuel passes all tests. -/
theorem visit?_eq_some (mem_union : ∀ (s t : σ) (a : α), a ∈ s ∪ t ↔ a ∈ s ∨ a ∈ t)
    (range : ∀ x, ∀ y ∈ successors x, y < initial.size)
    (agree : ∀ x < initial.size, next x = some (successors x)) {fuel : Nat}
    (h : Sound successors initial w) (fresh : w.mark x = .unvisited)
    (enough : pending initial.size w ≤ fuel) :
    visit? next fuel w x = some (visit successors fuel w x) := by
  induction fuel generalizing w x with
  | zero =>
      have fewer := (Scanning.start h fresh).pending_lt
      omega
  | succ fuel ih =>
      have visits (w : Walk σ) (y : Nat) (h : Sound successors initial w)
          (fresh : w.mark y = .unvisited) (enough : pending initial.size w ≤ fuel) :=
        opened_visit mem_union range h fresh enough
      obtain ⟨above, scan⟩ := (Scanning.start h fresh).foldl mem_union visits enough rfl
      have scanned := (Scanning.start h fresh).foldlM_eq_some mem_union range
        (fun w y h fresh enough => ih h fresh enough) enough rfl
      obtain ⟨m, hm⟩ := scan.active
      have hx : x < initial.size :=
        scan.sound.lt_of_mem ((scan.sound.mem_stack_iff x).mpr ⟨m, hm⟩)
      have entered : w.enter? x = some (w.enter x) := if_pos (h.inside hx)
      have marked := scan.sound.mark?_eq_some hx
      have settled := scan.sound.settle?_eq_some hx
      rw [visit?, visit, entered, agree x hx]
      refine (congrArg (Option.bind · _) scanned).trans ?_
      refine (congrArg (Option.bind · _) marked).trans ?_
      refine (if_congr Iff.rfl settled rfl).trans ?_
      exact (apply_ite some _ _ _).symm

/-- Visiting the unvisited nodes of a list one after the other passes all tests. -/
theorem foldlM_visit?_eq_some
    (mem_union : ∀ (s t : σ) (a : α), a ∈ s ∪ t ↔ a ∈ s ∨ a ∈ t)
    (range : ∀ x, ∀ y ∈ successors x, y < initial.size)
    (agree : ∀ x < initial.size, next x = some (successors x)) {xs : List Nat}
    (nodes : ∀ x ∈ xs, x < initial.size) (h : Sound successors initial w) :
    xs.foldlM
        (fun w x => w.ensure? x (visit? next initial.size w x)) w =
      some (xs.foldl
        (fun w x => if w.mark x = .unvisited then visit successors initial.size w x else w) w) := by
  induction xs generalizing w with
  | nil => rfl
  | cons x xs ih =>
      have hx := nodes x List.mem_cons_self
      have opened : Opened successors initial w x
          (if w.mark x = .unvisited then visit successors initial.size w x else w) :=
        .ite h fun fresh => opened_visit mem_union range h fresh (pending_le _ _)
      have visited : w.ensure? x (visit? next initial.size w x) =
          some (if w.mark x = .unvisited then visit successors initial.size w x else w) :=
        h.ensure?_eq_some hx fun fresh =>
          visit?_eq_some mem_union range agree h fresh (pending_le _ _)
      have rest := ih (fun z hz => nodes z (List.mem_cons_of_mem _ hz)) opened.sound
      rw [List.foldlM_cons, visited, Option.bind_eq_bind, Option.bind_some]
      exact rest

/-- The checked walk over all nodes has the result of the walk. -/
theorem closeArray?_eq_some (mem_union : ∀ (s t : σ) (a : α), a ∈ s ∪ t ↔ a ∈ s ∨ a ∈ t)
    (range : ∀ x, ∀ y ∈ successors x, y < initial.size)
    (agree : ∀ x < initial.size, next x = some (successors x)) :
    closeArray? next initial = some (closeArray successors initial) := by
  have walked := foldlM_visit?_eq_some mem_union range agree
    (fun x hx => List.mem_range.mp hx) (sound_start successors initial)
  rw [closeArray?, walked]
  rfl

end Walk

section Keys

variable {α σ κ : Type} [Membership α σ] [Union σ] [Ord κ] [Std.TransOrd κ] [Std.LawfulEqOrd κ]
  {table : List (κ × σ)}

/-- The checked walk over a table has the result of the walk. -/
theorem closure?_eq_some (mem_union : ∀ (s t : σ) (a : α), a ∈ s ∪ t ↔ a ∈ s ∨ a ∈ t)
    (nodup : (table.map Prod.fst).Nodup) (next : κ → List κ) :
    closure? table next = some (closure table next) := by
  have sizes : (table.map Prod.fst).toArray.size = (table.map Prod.snd).toArray.size := by simp
  have walked : closeArray?
      (nextPositions? (table.map Prod.fst).toArray (positions (table.map Prod.fst).toArray) next)
      (table.map Prod.snd).toArray = some (closeArray
        (nextPositions (table.map Prod.fst).toArray (positions (table.map Prod.fst).toArray) next)
        (table.map Prod.snd).toArray) := by
    apply closeArray?_eq_some mem_union
    · intro x y hy
      exact sizes ▸ lt_of_mem_nextPositions nodup hy
    · intro x hx
      rw [← sizes] at hx
      rw [nextPositions?, nextPositions, Array.getElem?_eq_getElem hx]
      rfl
  exact congrArg (Option.bind · _) walked

/-- Closing the sets of a table along a graph comes to an end without leaving the arrays, and
keeps the keys in their order. The set of a key becomes the union of the sets of all keys that
it reaches by any number of steps between keys. -/
theorem closure_joins_reachable (mem_union : ∀ (s t : σ) (a : α), a ∈ s ∪ t ↔ a ∈ s ∨ a ∈ t)
    (nodup : (table.map Prod.fst).Nodup) (next : κ → List κ) :
    closure? table next = some (closure table next) ∧
      (closure table next).map Prod.fst = table.map Prod.fst ∧
      ∀ k reached, (k, reached) ∈ closure table next → ∀ a : α,
        a ∈ reached ↔ ∃ m s, (m, s) ∈ table ∧
          Relation.ReflTransGen (Leads (table.map Prod.fst) next) k m ∧ a ∈ s := by
  refine ⟨closure?_eq_some mem_union nodup next, map_fst_closure mem_union nodup, ?_⟩
  intro k reached h a
  rw [mem_closure_iff mem_union nodup h]
  refine exists_congr fun m => exists_congr fun s => and_congr_right fun _ => ?_
  exact and_comm

/-- A cycle between two keys, with an edge given twice, one that leads to no key, and one to a
third key that leads to itself. The first key gets the set of the third, and not conversely. -/
theorem closure_joins_reachable_cycle :
    let table : List (Nat × List Nat) := [(4, [10]), (2, [11]), (7, [12, 13])]
    let next (n : Nat) : List Nat := if n = 4 then [2, 2, 5] else if n = 2 then [4, 7] else [7]
    (table.map Prod.fst).Nodup ∧ closure? table next = some (closure table next) ∧
      (closure table next).map Prod.fst = [4, 2, 7] ∧
      (∀ reached, (4, reached) ∈ closure table next → 13 ∈ reached) ∧
      ∀ reached, (7, reached) ∈ closure table next → 10 ∉ reached := by
  intro table next
  have nodup : (table.map Prod.fst).Nodup := by decide
  obtain ⟨checked, keys, sets⟩ :=
    closure_joins_reachable (α := Nat) (fun _ _ _ => List.mem_union_iff) nodup next
  refine ⟨nodup, checked, keys, ?_, ?_⟩
  · intro reached member
    have first : Leads (table.map Prod.fst) next 4 2 := ⟨by decide, by decide⟩
    have second : Leads (table.map Prod.fst) next 2 7 := ⟨by decide, by decide⟩
    apply (sets 4 reached member 13).mpr
    exact ⟨7, [12, 13], by decide, .tail (.single first) second, by decide⟩
  · intro reached member has
    obtain ⟨m, s, there, path, inside⟩ := (sets 7 reached member 10).mp has
    have stays : m = 7 := by
      clear there inside
      induction path with
      | refl => rfl
      | tail _ step same =>
          subst same
          exact List.mem_singleton.mp step.1
    subst stays
    obtain rfl : s = [12, 13] := by simpa [table] using there
    simp at inside

end Keys

end ContextFree.Graph
