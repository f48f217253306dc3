import ContextFree.Proofs.Graph.Visit

/-!
# The closure of sets along a graph is exact

After all nodes have been visited none is active, so all are settled and their sets are
complete. In terms of keys: the closure keeps the keys with their order, and the set of
a key becomes the union of the sets of all keys that it reaches without leaving the keys.
-/

namespace ContextFree.Graph

variable {α σ : Type} [Membership α σ] {successors : Nat → List Nat} {initial : Array σ}
  {w w' : Walk σ}

section Walk

theorem mark_start (values : Array σ) (x : Nat) :
    (Walk.start values).mark x = if x < values.size then .unvisited else .settled := by
  change (Array.replicate values.size Mark.unvisited).getD x .settled = _
  rw [Array.getD_eq_getD_getElem?, Array.getElem?_replicate]
  split
  · rfl
  · rfl

theorem sound_start (successors : Nat → List Nat) (values : Array σ) :
    Sound successors values (Walk.start values) where
  marks_size := Array.size_replicate
  values_size := rfl
  nodup := List.nodup_nil
  mem_stack_iff x := by
    rw [mark_start]
    change x ∈ ([] : List Nat) ↔ _
    split
    · simp
    · simp
  low_le x d k hd := by
    rw [mark_start] at hd
    split at hd
    · cases hd
    · cases hd
  low_reach x d hd := by
    rw [mark_start] at hd
    split at hd
    · cases hd
    · cases hd
  bounded x _ ha := ⟨x, .refl, ha⟩
  grown _ _ ha := ha
  closed x hx settled := by
    rw [mark_start, if_pos hx] at settled
    cases settled
  complete x hx settled := by
    rw [mark_start, if_pos hx] at settled
    cases settled

/-- A visit from an empty stack empties the stack: the lowest node cannot point below. -/
theorem Opened.stack_eq_nil {x : Nat} (h : Opened successors initial w x w')
    (empty : w.stack = []) : w'.stack = [] := by
  obtain ⟨new, grows, handed⟩ := h.stack
  rw [empty, List.append_nil] at grows
  rcases List.eq_nil_or_concat' new with rfl | ⟨above, s, rfl⟩
  · exact grows
  · obtain ⟨_, _, lowered⟩ := handed s (List.mem_append_right _ List.mem_cons_self)
    have bottom : Stands w'.stack 1 s := by
      rw [grows]
      exact (stands_head s []).append above
    obtain ⟨d, hd⟩ := (h.sound.mem_stack_iff s).mp bottom.mem
    obtain ⟨t, stands, _⟩ := h.sound.low_reach s d hd
    have low := lowered d 1 hd bottom
    have pos := stands.pos
    omega

variable [Union σ]

/-- Visiting the unvisited nodes of a list one after the other. -/
theorem sound_foldl_visit (mem_union : ∀ (s t : σ) (a : α), a ∈ s ∪ t ↔ a ∈ s ∨ a ∈ t)
    (range : ∀ x, ∀ y ∈ successors x, y < initial.size) (xs : List Nat)
    (h : Sound successors initial w) (empty : w.stack = []) :
    let w' := xs.foldl
      (fun w x => if w.mark x = .unvisited then visit successors initial.size w x else w) w
    Sound successors initial w' ∧ w'.stack = [] ∧ Extends w w' ∧
      ∀ x ∈ xs, w'.mark x ≠ .unvisited := by
  induction xs generalizing w with
  | nil =>
      exact ⟨h, empty, ⟨fun _ _ => rfl, fun _ _ _ => Iff.rfl⟩, fun _ hx => absurd hx List.not_mem_nil⟩
  | cons x xs ih =>
      have opened : Opened successors initial w x
          (if w.mark x = .unvisited then visit successors initial.size w x else w) :=
        .ite h fun fresh => opened_visit mem_union range h fresh (pending_le _ _)
      obtain ⟨sound, stack, frame, visited⟩ := ih opened.sound (opened.stack_eq_nil empty)
      refine ⟨sound, stack, opened.frame.trans frame, ?_⟩
      intro z hz
      rcases List.mem_cons.mp hz with rfl | hz
      · rw [List.foldl_cons, frame.mark_eq z opened.visited]
        exact opened.visited
      · exact visited z hz

theorem closeArray_spec (mem_union : ∀ (s t : σ) (a : α), a ∈ s ∪ t ↔ a ∈ s ∨ a ∈ t)
    (range : ∀ x, ∀ y ∈ successors x, y < initial.size) :
    (closeArray successors initial).size = initial.size ∧
      ∀ x < initial.size, ∀ a : α,
        Holds (closeArray successors initial) x a ↔ Gathers successors initial x a := by
  obtain ⟨sound, stack, _, visited⟩ := sound_foldl_visit mem_union range
    (List.range initial.size) (sound_start successors initial) rfl
  refine ⟨sound.values_size, ?_⟩
  intro x hx a
  refine ⟨sound.bounded x a, sound.complete x hx ?_ a⟩
  have reached := visited x (List.mem_range.mpr hx)
  cases mark : ((List.range initial.size).foldl
    (fun w x => if w.mark x = .unvisited then visit successors initial.size w x else w)
    (Walk.start initial)).mark x with
  | unvisited => exact absurd mark reached
  | settled => rfl
  | active d =>
      have member := (sound.mem_stack_iff x).mpr ⟨d, mark⟩
      rw [stack] at member
      exact absurd member List.not_mem_nil

end Walk

section Keys

variable {κ : Type}

/-- A key leads to another in one step. -/
def Leads (keys : List κ) (successors : κ → List κ) (k m : κ) : Prop :=
  m ∈ successors k ∧ m ∈ keys

/-- A path between keys stays within the keys. -/
theorem mem_of_leads {keys : List κ} {next : κ → List κ} {k m : κ} (hk : k ∈ keys)
    (reached : Relation.ReflTransGen (Leads keys next) k m) : m ∈ keys := by
  cases reached with
  | refl => exact hk
  | tail _ step => exact step.2

variable [Ord κ] [Std.TransOrd κ] [Std.LawfulEqOrd κ]

/-- The position of a key is where the key stands. -/
theorem getElem?_positions {keys : Array κ} (nodup : keys.toList.Nodup) {k : κ} {i : Nat} :
    (positions keys)[k]? = some i ↔ keys[i]? = some k := by
  have distinct : (keys.toList.zipIdx.map Prod.fst).Nodup := by simpa using nodup
  have found : (positions keys)[k]? = some i ↔ (k, i) ∈ keys.toList.zipIdx :=
    getElem?_foldr_insert distinct
  rw [found, List.mem_zipIdx_iff_getElem?, Array.getElem?_toList]

variable {keys : Array κ} {next : κ → List κ}

theorem mem_nextPositions (nodup : keys.toList.Nodup) {x y : Nat} :
    y ∈ nextPositions keys (positions keys) next x ↔
      ∃ k m, keys[x]? = some k ∧ keys[y]? = some m ∧ m ∈ next k := by
  unfold nextPositions
  cases hx : keys[x]? with
  | none => simp
  | some k =>
      simp only [List.mem_filterMap, getElem?_positions nodup, Option.some.injEq]
      constructor
      · rintro ⟨m, step, hy⟩
        exact ⟨k, m, rfl, hy, step⟩
      · rintro ⟨_, m, rfl, hy, step⟩
        exact ⟨m, step, hy⟩

theorem lt_of_mem_nextPositions (nodup : keys.toList.Nodup) {x y : Nat}
    (hy : y ∈ nextPositions keys (positions keys) next x) : y < keys.size := by
  obtain ⟨_, m, _, hm, _⟩ := (mem_nextPositions nodup).mp hy
  exact (Array.getElem?_eq_some_iff.mp hm).1

/-- Paths between positions are paths between the keys that stand there. -/
theorem reach_nextPositions_iff (nodup : keys.toList.Nodup) {x y : Nat} {k : κ}
    (hk : keys[x]? = some k) :
    Reach (nextPositions keys (positions keys) next) x y ↔
      ∃ m, keys[y]? = some m ∧ Relation.ReflTransGen (Leads keys.toList next) k m := by
  constructor
  · intro path
    induction path with
    | refl => exact ⟨k, hk, .refl⟩
    | tail _ edge ih =>
        obtain ⟨m, hm, reached⟩ := ih
        obtain ⟨m', l, hm', hl, step⟩ := (mem_nextPositions nodup).mp edge
        obtain rfl : m = m' := Option.some.inj (hm.symm.trans hm')
        refine ⟨l, hl, reached.tail ⟨step, ?_⟩⟩
        exact Array.mem_toList_iff.mpr (Array.mem_of_getElem? hl)
  · rintro ⟨m, hm, reached⟩
    induction reached generalizing y with
    | refl =>
        -- Without repetitions a key stands at one position only.
        have hx := (getElem?_positions nodup).mpr hk
        have hy := (getElem?_positions nodup).mpr hm
        obtain rfl : x = y := Option.some.inj (hx.symm.trans hy)
        exact .refl
    | @tail l m reached step ih =>
        have inside := mem_of_leads (Array.mem_toList_iff.mpr (Array.mem_of_getElem? hk)) reached
        obtain ⟨z, hz⟩ := Array.mem_iff_getElem?.mp (Array.mem_toList_iff.mp inside)
        exact (ih hz).tail ((mem_nextPositions nodup).mpr ⟨l, m, hz, hm, step.1⟩)

variable [Union σ] {table : List (κ × σ)}

/-- The closure in terms of positions. -/
theorem exists_closure_eq_zip (mem_union : ∀ (s t : σ) (a : α), a ∈ s ∪ t ↔ a ∈ s ∨ a ∈ t)
    (nodup : (table.map Prod.fst).Nodup) (next : κ → List κ) :
    ∃ values : Array σ, closure table next = (table.map Prod.fst).zip values.toList ∧
      values.size = table.length ∧
      ∀ x < table.length, ∀ a : α, Holds values x a ↔
        Gathers (nextPositions (table.map Prod.fst).toArray
          (positions (table.map Prod.fst).toArray) next) (table.map Prod.snd).toArray x a := by
  have length : (table.map Prod.snd).toArray.size = table.length := by simp
  have range : ∀ x, ∀ y ∈ nextPositions (table.map Prod.fst).toArray
      (positions (table.map Prod.fst).toArray) next x, y < (table.map Prod.snd).toArray.size := by
    intro x y hy
    simpa using lt_of_mem_nextPositions nodup hy
  obtain ⟨size, spec⟩ := closeArray_spec mem_union range
  rw [length] at size spec
  exact ⟨_, rfl, size, spec⟩

/-- The closure has the keys of the table in their order. -/
theorem map_fst_closure (mem_union : ∀ (s t : σ) (a : α), a ∈ s ∪ t ↔ a ∈ s ∨ a ∈ t)
    (nodup : (table.map Prod.fst).Nodup) :
    (closure table next).map Prod.fst = table.map Prod.fst := by
  obtain ⟨values, zipped, size, _⟩ := exists_closure_eq_zip mem_union nodup next
  have long : (table.map Prod.fst).length ≤ values.toList.length := by simp [size]
  rw [zipped]
  exact List.map_fst_zip long

/-- The set of a key in the closure is the union of the sets of all keys it reaches. -/
theorem mem_closure_iff (mem_union : ∀ (s t : σ) (a : α), a ∈ s ∪ t ↔ a ∈ s ∨ a ∈ t)
    (nodup : (table.map Prod.fst).Nodup) {k : κ} {reached : σ}
    (h : (k, reached) ∈ closure table next) {a : α} :
    a ∈ reached ↔ ∃ m s, (m, s) ∈ table ∧ a ∈ s ∧
      Relation.ReflTransGen (Leads (table.map Prod.fst) next) k m := by
  obtain ⟨values, zipped, size, spec⟩ := exists_closure_eq_zip mem_union nodup next
  rw [zipped] at h
  obtain ⟨x, hx⟩ := List.mem_iff_getElem?.mp h
  obtain ⟨hk, hs⟩ := List.getElem?_zip_eq_some.mp hx
  rw [Array.getElem?_toList] at hs
  have key : (table.map Prod.fst).toArray[x]? = some k := by simpa using hk
  obtain ⟨inside, _⟩ := Array.getElem?_eq_some_iff.mp hs
  have held : a ∈ reached ↔ Holds values x a := by
    constructor
    · intro ha
      exact ⟨reached, hs, ha⟩
    · rintro ⟨s, found, ha⟩
      obtain rfl : reached = s := Option.some.inj (hs.symm.trans found)
      exact ha
  rw [held, spec x (size ▸ inside) a]
  constructor
  · rintro ⟨y, path, s, found, ha⟩
    obtain ⟨m, hm, path⟩ := (reach_nextPositions_iff nodup key).mp path
    refine ⟨m, s, ?_, ha, path⟩
    rw [List.getElem?_toArray, List.getElem?_map, Option.map_eq_some_iff] at found hm
    obtain ⟨p, hp, rfl⟩ := hm
    obtain ⟨q, hq, rfl⟩ := found
    obtain rfl : p = q := Option.some.inj (hp.symm.trans hq)
    exact List.mem_of_getElem? hp
  · rintro ⟨m, s, hm, ha, path⟩
    obtain ⟨y, hy⟩ := List.mem_iff_getElem?.mp hm
    refine ⟨y, (reach_nextPositions_iff nodup key).mpr ⟨m, ?_, path⟩, s, ?_, ha⟩
    · simp [hy]
    · simp [hy]

end Keys

end ContextFree.Graph
