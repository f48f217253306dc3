import ContextFree.Proofs.Graph.Walk

/-!
# One visit of the depth-first walk

A visit of a node either settles the node together with all that it reaches, or leaves
it on the stack with a mark that points below it. The invariant of the walk says what
holds at every moment: the mark of an active node is the depth of an active node that
it reaches, sets hold only what they should, and the sets of settled nodes are complete.

## Implementation notes

While a node `x` scans its successors, the nodes above it on the stack are done. Each of
them has handed over to `x` its own set and the sets of its settled successors, and its
mark is no lower than that of `x`. If the mark of `x` is still its own depth after the
scan, no edge leads from these nodes to a node below `x`, so they form a component.
-/

namespace ContextFree.Graph

variable {α σ : Type} [Membership α σ] {successors : Nat → List Nat} {initial : Array σ}
  {w w' : Walk σ} {x y s m : Nat}

/-- The invariant of the walk. -/
structure Sound (successors : Nat → List Nat) (initial : Array σ) (w : Walk σ) : Prop where
  marks_size : w.marks.size = initial.size
  values_size : w.values.size = initial.size
  nodup : w.stack.Nodup
  mem_stack_iff : ∀ x, x ∈ w.stack ↔ ∃ d, w.mark x = .active d
  low_le : ∀ x d k, w.mark x = .active d → Stands w.stack k x → d ≤ k
  low_reach : ∀ x d, w.mark x = .active d → ∃ y, Stands w.stack d y ∧ Reach successors x y
  bounded : ∀ x (a : α), Holds w.values x a → Gathers successors initial x a
  grown : ∀ x (a : α), Holds initial x a → Holds w.values x a
  closed : ∀ x < initial.size, w.mark x = .settled → ∀ y ∈ successors x, w.mark y = .settled
  complete : ∀ x < initial.size, w.mark x = .settled →
    ∀ a : α, Gathers successors initial x a → Holds w.values x a

theorem Sound.lt_of_mem (h : Sound successors initial w) (hx : x ∈ w.stack) :
    x < initial.size := by
  obtain ⟨d, hd⟩ := (h.mem_stack_iff x).mp hx
  rw [← h.marks_size]
  apply Walk.lt_size_of_mark_ne
  rw [hd]
  exact Mark.noConfusion

theorem Sound.enter (h : Sound successors initial w) (hx : w.mark x = .unvisited) :
    Sound successors initial (w.enter x) := by
  have inside : x < w.marks.size := Walk.lt_size_of_mark_ne (by rw [hx]; exact Mark.noConfusion)
  have mark := Walk.mark_enter inside
  have fresh : x ∉ w.stack := by
    rw [h.mem_stack_iff]
    rintro ⟨d, hd⟩
    rw [hx] at hd
    cases hd
  have other {z : Nat} (hz : w.mark z ≠ .unvisited) : (w.enter x).mark z = w.mark z := by
    rw [mark, if_neg]
    rintro rfl
    exact hz hx
  have settled_of {z : Nat} (hz : (w.enter x).mark z = .settled) : w.mark z = .settled := by
    rw [mark] at hz
    by_cases same : x = z
    · rw [if_pos same] at hz
      cases hz
    · rw [if_neg same] at hz
      exact hz
  refine
    { marks_size := Array.size_setIfInBounds.trans h.marks_size
      values_size := h.values_size
      nodup := List.nodup_cons.mpr ⟨fresh, h.nodup⟩
      mem_stack_iff := ?_
      low_le := ?_
      low_reach := ?_
      bounded := h.bounded
      grown := h.grown
      closed := ?_
      complete := ?_ }
  · intro z
    change z ∈ x :: w.stack ↔ _
    rw [mark, List.mem_cons]
    by_cases same : x = z
    · simp [same]
    · simp [same, Ne.symm same, h.mem_stack_iff]
  · intro z d k hd stands
    rw [mark] at hd
    have split : Stands ([x] ++ w.stack) k z := stands
    rcases split.of_append with ⟨_, low⟩ | ⟨deep, top⟩
    · by_cases same : x = z
      · exact absurd (same ▸ low.mem) fresh
      · rw [if_neg same] at hd
        exact h.low_le z d k hd low
    · obtain rfl := List.mem_singleton.mp top
      rw [if_pos rfl] at hd
      obtain rfl := Mark.active.inj hd
      exact deep
  · intro z d hd
    rw [mark] at hd
    by_cases same : x = z
    · subst same
      rw [if_pos rfl] at hd
      obtain rfl := Mark.active.inj hd
      exact ⟨x, stands_head x w.stack, .refl⟩
    · rw [if_neg same] at hd
      obtain ⟨y, stands, path⟩ := h.low_reach z d hd
      exact ⟨y, stands.append [x], path⟩
  · intro z hz settled y hy
    have next := h.closed z hz (settled_of settled) y hy
    rw [other (by rw [next]; exact Mark.noConfusion), next]
  · intro z hz settled
    exact h.complete z hz (settled_of settled)

section Absorb

variable [Union σ]

/-- The mark of an active node becomes the lesser of two, if the successor is active. -/
theorem mark_absorb_active (inside : x < w.marks.size) (hm : w.mark x = .active m) :
    ∃ m', (w.absorb x y).mark x = .active m' ∧ m' ≤ m ∧
      (∀ e, w.mark y = .active e → m' ≤ e) ∧ (m' = m ∨ w.mark y = .active m') := by
  rw [Walk.mark_absorb_self inside, hm]
  cases hy : w.mark y with
  | unvisited => exact ⟨m, rfl, Nat.le_refl m, fun e he => Mark.noConfusion he, Or.inl rfl⟩
  | settled => exact ⟨m, rfl, Nat.le_refl m, fun e he => Mark.noConfusion he, Or.inl rfl⟩
  | active e =>
      refine ⟨min m e, rfl, Nat.min_le_left m e, ?_, ?_⟩
      · intro e' he
        obtain rfl := Mark.active.inj he
        exact Nat.min_le_right m e
      · rcases Nat.le_total m e with le | le
        · exact Or.inl (Nat.min_eq_left le)
        · exact Or.inr (by rw [Nat.min_eq_right le])

/-- A node that is not active after absorbing is another one, and had the same mark before. -/
theorem mark_of_mark_absorb {z : Nat} {mark : Mark} (inside : x < w.marks.size)
    (hm : w.mark x = .active m) (hz : (w.absorb x y).mark z = mark)
    (idle : ∀ d, mark ≠ .active d) : z ≠ x ∧ w.mark z = mark := by
  obtain ⟨m', hm', _⟩ := mark_absorb_active (y := y) inside hm
  have other : z ≠ x := by
    intro same
    rw [same, hm'] at hz
    exact idle m' hz.symm
  rw [Walk.mark_absorb_of_ne other] at hz
  exact ⟨other, hz⟩

theorem Sound.absorb (h : Sound successors initial w)
    (mem_union : ∀ (s t : σ) (a : α), a ∈ s ∪ t ↔ a ∈ s ∨ a ∈ t)
    (hm : w.mark x = .active m) (hy : y ∈ successors x) :
    Sound successors initial (w.absorb x y) := by
  have hx : x ∈ w.stack := (h.mem_stack_iff x).mpr ⟨m, hm⟩
  have here : x < w.values.size := h.values_size ▸ h.lt_of_mem hx
  have other {z : Nat} (hz : z ≠ x) : (w.absorb x y).mark z = w.mark z :=
    Walk.mark_absorb_of_ne hz
  have inside : x < w.marks.size := h.marks_size ▸ h.lt_of_mem hx
  obtain ⟨m', hm', le, _, from_⟩ := mark_absorb_active (y := y) inside hm
  have holds {z : Nat} {a : α} := Walk.holds_absorb (w := w) (x := x) (y := y) (z := z) (a := a)
    mem_union here
  have settled_of {z : Nat} (hz : (w.absorb x y).mark z = .settled) : w.mark z = .settled :=
    (mark_of_mark_absorb inside hm hz fun _ => Mark.noConfusion).2
  refine
    { marks_size := Walk.size_marks_absorb.trans h.marks_size
      values_size := Walk.size_values_absorb.trans h.values_size
      nodup := h.nodup
      mem_stack_iff := ?_
      low_le := ?_
      low_reach := ?_
      bounded := ?_
      grown := ?_
      closed := ?_
      complete := ?_ }
  · intro z
    by_cases same : z = x
    · subst same
      exact ⟨fun _ => ⟨m', hm'⟩, fun _ => hx⟩
    · rw [other same]
      exact h.mem_stack_iff z
  · intro z d k hd stands
    by_cases same : z = x
    · subst same
      obtain rfl := Mark.active.inj (hm'.symm.trans hd)
      exact Nat.le_trans le (h.low_le z m k hm stands)
    · rw [other same] at hd
      exact h.low_le z d k hd stands
  · intro z d hd
    by_cases same : z = x
    · subst same
      obtain rfl := Mark.active.inj (hm'.symm.trans hd)
      rcases from_ with rfl | back
      · exact h.low_reach z m' hm
      · obtain ⟨t, stands, path⟩ := h.low_reach y m' back
        exact ⟨t, stands, Relation.ReflTransGen.head hy path⟩
    · rw [other same] at hd
      exact h.low_reach z d hd
  · intro z a ha
    rcases holds.mp ha with old | ⟨rfl, new⟩
    · exact h.bounded z a old
    · exact (h.bounded y a new).of_reach (.single hy)
  · intro z a ha
    exact holds.mpr (Or.inl (h.grown z a ha))
  · intro z hz settled t ht
    have next := h.closed z hz (settled_of settled) t ht
    rw [other, next]
    rintro rfl
    rw [hm] at next
    cases next
  · intro z hz settled a ha
    exact holds.mpr (Or.inl (h.complete z hz (settled_of settled) a ha))

end Absorb

/-- What was visited before is left alone. -/
structure Extends (w w' : Walk σ) : Prop where
  mark_eq : ∀ z, w.mark z ≠ .unvisited → w'.mark z = w.mark z
  holds_iff : ∀ z, w.mark z ≠ .unvisited → ∀ a : α, Holds w'.values z a ↔ Holds w.values z a

theorem Extends.trans {w'' : Walk σ} (h : Extends w w') (h' : Extends w' w'') :
    Extends w w'' := by
  have visited {z : Nat} (hz : w.mark z ≠ .unvisited) : w'.mark z ≠ .unvisited :=
    h.mark_eq z hz ▸ hz
  constructor
  · intro z hz
    exact (h'.mark_eq z (visited hz)).trans (h.mark_eq z hz)
  · intro z hz a
    exact (h'.holds_iff z (visited hz) a).trans (h.holds_iff z hz a)

/-- The node `s` has handed over to `x` what it gathers by way of the successors `ys`. -/
structure Hands (successors : Nat → List Nat) (initial : Array σ) (w : Walk σ) (x s : Nat)
    (ys : List Nat) : Prop where
  reach : Reach successors x s
  low : ∀ m d, w.mark x = .active m → w.mark s = .active d → m ≤ d
  own : ∀ a : α, Holds initial s a → Holds w.values x a
  visited : ∀ y ∈ ys, w.mark y ≠ .unvisited
  back : ∀ y ∈ ys, ∀ d k, w.mark s = .active d → Stands w.stack k y → d ≤ k
  out : ∀ y ∈ ys, w.mark y = .settled → ∀ a : α, Holds w.values y a → Holds w.values x a

/-- The mark of a node points below the node. -/
def Lowered (w : Walk σ) (s : Nat) : Prop :=
  ∀ d k, w.mark s = .active d → Stands w.stack k s → d < k

section Extend

variable {new ys : List Nat}

/-- A visited node keeps its depth when the stack grows. -/
theorem Extends.stands (ext : Extends w w') (h : Sound successors initial w)
    (h' : Sound successors initial w') (grows : w'.stack = new ++ w.stack)
    (hy : w.mark y ≠ .unvisited) {k : Nat} (stands : Stands w'.stack k y) :
    Stands w.stack k y := by
  have old : y ∈ w.stack := by
    rw [h.mem_stack_iff, ← ext.mark_eq y hy, ← h'.mem_stack_iff]
    exact stands.mem
  rw [grows] at stands
  exact stands.of_append_of_mem (grows ▸ h'.nodup) old

theorem Hands.extend (hands : Hands successors initial w x s ys) (ext : Extends w w')
    (h : Sound successors initial w) (h' : Sound successors initial w')
    (grows : w'.stack = new ++ w.stack) (hx : w.mark x ≠ .unvisited)
    (hs : w.mark s ≠ .unvisited) : Hands successors initial w' x s ys where
  reach := hands.reach
  low m d hm hd := by
    rw [ext.mark_eq x hx] at hm
    rw [ext.mark_eq s hs] at hd
    exact hands.low m d hm hd
  own a ha := (ext.holds_iff x hx a).mpr (hands.own a ha)
  visited y hy := by
    rw [ext.mark_eq y (hands.visited y hy)]
    exact hands.visited y hy
  back y hy d k hd stands := by
    rw [ext.mark_eq s hs] at hd
    exact hands.back y hy d k hd (ext.stands h h' grows (hands.visited y hy) stands)
  out y hy settled a ha := by
    have hvisited := hands.visited y hy
    rw [ext.mark_eq y hvisited] at settled
    rw [ext.holds_iff y hvisited] at ha
    exact (ext.holds_iff x hx a).mpr (hands.out y hy settled a ha)

theorem Lowered.extend (lowered : Lowered w s) (ext : Extends w w')
    (h : Sound successors initial w) (h' : Sound successors initial w')
    (grows : w'.stack = new ++ w.stack) (hs : w.mark s ≠ .unvisited) : Lowered w' s := by
  intro d k hd stands
  rw [ext.mark_eq s hs] at hd
  exact lowered d k hd (ext.stands h h' grows hs stands)

end Extend

section AbsorbHands

variable [Union σ] {ys : List Nat}

theorem Hands.absorb (hands : Hands successors initial w x s ys)
    (mem_union : ∀ (s t : σ) (a : α), a ∈ s ∪ t ↔ a ∈ s ∨ a ∈ t)
    (h : Sound successors initial w) (hm : w.mark x = .active m) (y : Nat) :
    Hands successors initial (w.absorb x y) x s ys := by
  have hx := h.lt_of_mem ((h.mem_stack_iff x).mpr ⟨m, hm⟩)
  have grow {z : Nat} {a : α} (ha : Holds w.values z a) : Holds (w.absorb x y).values z a :=
    (Walk.holds_absorb mem_union (h.values_size ▸ hx)).mpr (Or.inl ha)
  have inside : x < w.marks.size := h.marks_size ▸ hx
  obtain ⟨m', hm', le, _, _⟩ := mark_absorb_active (y := y) inside hm
  -- The mark of `s` can only have become lower, and only if `s` is `x`.
  have lower {d : Nat} (hd : (w.absorb x y).mark s = .active d) :
      ∃ d₀, w.mark s = .active d₀ ∧ d ≤ d₀ ∧ (s = x ∨ d = d₀) := by
    by_cases same : s = x
    · subst same
      exact ⟨m, hm, Mark.active.inj (hm'.symm.trans hd) ▸ le, Or.inl rfl⟩
    · rw [Walk.mark_absorb_of_ne same] at hd
      exact ⟨d, hd, Nat.le_refl d, Or.inr rfl⟩
  refine
    { reach := hands.reach
      low := ?_
      own := fun a ha => grow (hands.own a ha)
      visited := ?_
      back := ?_
      out := ?_ }
  · intro n d hn hd
    obtain rfl := Mark.active.inj (hm'.symm.trans hn)
    obtain ⟨d₀, hd₀, _, rfl | rfl⟩ := lower hd
    · exact Nat.le_of_eq (Mark.active.inj (hm'.symm.trans hd))
    · exact Nat.le_trans le (hands.low m d hm hd₀)
  · intro z hz unvisited
    obtain ⟨_, before⟩ := mark_of_mark_absorb inside hm unvisited fun _ => Mark.noConfusion
    exact hands.visited z hz before
  · intro z hz d k hd stands
    obtain ⟨d₀, hd₀, le₀, _⟩ := lower hd
    exact Nat.le_trans le₀ (hands.back z hz d₀ k hd₀ stands)
  · intro z hz settled a ha
    obtain ⟨other, before⟩ := mark_of_mark_absorb inside hm settled fun _ => Mark.noConfusion
    rcases (Walk.holds_absorb mem_union (h.values_size ▸ hx)).mp ha with old | ⟨rfl, _⟩
    · exact grow (hands.out z hz before a old)
    · exact absurd rfl other

/-- What a successor was handed passes on to the node that absorbs it. -/
theorem Hands.inherit (hands : Hands successors initial w y s ys)
    (mem_union : ∀ (s t : σ) (a : α), a ∈ s ∪ t ↔ a ∈ s ∨ a ∈ t)
    (h : Sound successors initial w) (hm : w.mark x = .active m) {e : Nat}
    (he : w.mark y = .active e) (edge : y ∈ successors x) (hs : s ≠ x) :
    Hands successors initial (w.absorb x y) x s ys := by
  have hx := h.lt_of_mem ((h.mem_stack_iff x).mpr ⟨m, hm⟩)
  have take {a : α} (ha : Holds w.values y a) : Holds (w.absorb x y).values x a :=
    (Walk.holds_absorb mem_union (h.values_size ▸ hx)).mpr (Or.inr ⟨rfl, ha⟩)
  have inside : x < w.marks.size := h.marks_size ▸ hx
  obtain ⟨m', hm', _, le, _⟩ := mark_absorb_active (y := y) inside hm
  refine
    { reach := Relation.ReflTransGen.head edge hands.reach
      low := ?_
      own := fun a ha => take (hands.own a ha)
      visited := ?_
      back := ?_
      out := ?_ }
  · intro n d hn hd
    obtain rfl := Mark.active.inj (hm'.symm.trans hn)
    rw [Walk.mark_absorb_of_ne hs] at hd
    exact Nat.le_trans (le e he) (hands.low e d he hd)
  · intro z hz unvisited
    obtain ⟨_, before⟩ := mark_of_mark_absorb inside hm unvisited fun _ => Mark.noConfusion
    exact hands.visited z hz before
  · intro z hz d k hd stands
    rw [Walk.mark_absorb_of_ne hs] at hd
    exact hands.back z hz d k hd stands
  · intro z hz settled a ha
    obtain ⟨other, before⟩ := mark_of_mark_absorb inside hm settled fun _ => Mark.noConfusion
    rcases (Walk.holds_absorb mem_union (h.values_size ▸ hx)).mp ha with old | ⟨rfl, _⟩
    · exact take (hands.out z hz before a old)
    · exact absurd rfl other

/-- Absorbing a visited successor hands over what is gathered by way of it. -/
theorem Hands.absorb_self (hands : Hands successors initial w x x ys)
    (mem_union : ∀ (s t : σ) (a : α), a ∈ s ∪ t ↔ a ∈ s ∨ a ∈ t)
    (h : Sound successors initial w) (hm : w.mark x = .active m)
    (hy : w.mark y ≠ .unvisited) :
    Hands successors initial (w.absorb x y) x x (ys ++ [y]) := by
  have kept := hands.absorb mem_union h hm y
  have hx := h.lt_of_mem ((h.mem_stack_iff x).mpr ⟨m, hm⟩)
  have inside : x < w.marks.size := h.marks_size ▸ hx
  obtain ⟨m', hm', _, le, _⟩ := mark_absorb_active (y := y) inside hm
  refine
    { reach := kept.reach
      low := kept.low
      own := kept.own
      visited := ?_
      back := ?_
      out := ?_ }
  · intro z hz
    rcases List.mem_append.mp hz with old | new
    · exact kept.visited z old
    · obtain rfl := List.mem_singleton.mp new
      intro unvisited
      obtain ⟨_, before⟩ := mark_of_mark_absorb inside hm unvisited fun _ => Mark.noConfusion
      exact hy before
  · intro z hz d k hd stands
    rcases List.mem_append.mp hz with old | new
    · exact kept.back z old d k hd stands
    · obtain rfl := List.mem_singleton.mp new
      obtain ⟨e, he⟩ := (h.mem_stack_iff z).mp stands.mem
      obtain rfl := Mark.active.inj (hm'.symm.trans hd)
      exact Nat.le_trans (le e he) (h.low_le z e k he stands)
  · intro z hz settled a ha
    rcases List.mem_append.mp hz with old | new
    · exact kept.out z old settled a ha
    · obtain rfl := List.mem_singleton.mp new
      refine (Walk.holds_absorb mem_union (h.values_size ▸ hx)).mpr ?_
      rcases (Walk.holds_absorb mem_union (h.values_size ▸ hx)).mp ha with old | ⟨_, old⟩
      · exact Or.inr ⟨rfl, old⟩
      · exact Or.inr ⟨rfl, old⟩

theorem Lowered.absorb (lowered : Lowered w s) (hs : s ≠ x) (y : Nat) :
    Lowered (w.absorb x y) s := by
  intro d k hd stands
  rw [Walk.mark_absorb_of_ne hs] at hd
  exact lowered d k hd stands

theorem Extends.absorb {w₀ : Walk σ} (ext : Extends w₀ w)
    (mem_union : ∀ (s t : σ) (a : α), a ∈ s ∪ t ↔ a ∈ s ∨ a ∈ t)
    (hx : x < w.values.size) (fresh : w₀.mark x = .unvisited) (y : Nat) :
    Extends w₀ (w.absorb x y) := by
  have other {z : Nat} (hz : w₀.mark z ≠ .unvisited) : z ≠ x := by
    rintro rfl
    exact hz fresh
  constructor
  · intro z hz
    rw [Walk.mark_absorb_of_ne (other hz)]
    exact ext.mark_eq z hz
  · intro z hz a
    rw [Walk.holds_absorb mem_union hx, ext.holds_iff z hz]
    simp [other hz]

end AbsorbHands

/-- The walk after a visit of `y`, or when `y` had been visited before. -/
structure Opened (successors : Nat → List Nat) (initial : Array σ) (w : Walk σ) (y : Nat)
    (w' : Walk σ) : Prop where
  sound : Sound successors initial w'
  frame : Extends w w'
  visited : w'.mark y ≠ .unvisited
  /-- What is left on the stack has been handed over to `y`, which is then active. -/
  stack : ∃ new, w'.stack = new ++ w.stack ∧ ∀ s ∈ new, (∃ e, w'.mark y = .active e) ∧
    Hands successors initial w' y s (successors s) ∧ Lowered w' s

theorem Opened.refl (h : Sound successors initial w) (hy : w.mark y ≠ .unvisited) :
    Opened successors initial w y w where
  sound := h
  frame := ⟨fun _ _ => rfl, fun _ _ _ => Iff.rfl⟩
  visited := hy
  stack := ⟨[], rfl, fun _ hs => absurd hs List.not_mem_nil⟩

/-- A node is visited only if it had not been visited before. -/
theorem Opened.ite (h : Sound successors initial w)
    (opens : w.mark y = .unvisited → Opened successors initial w y w') :
    Opened successors initial w y (if w.mark y = .unvisited then w' else w) := by
  split
  next fresh => exact opens fresh
  next visited => exact .refl h visited

/-- The walk while `x` scans its successors, `ys` being those already absorbed. -/
structure Scanning (successors : Nat → List Nat) (initial : Array σ) (w : Walk σ) (x : Nat)
    (above ys : List Nat) (w' : Walk σ) : Prop where
  sound : Sound successors initial w'
  frame : Extends w w'
  fresh : w.mark x = .unvisited
  stack : w'.stack = above ++ x :: w.stack
  hands : Hands successors initial w' x x ys
  done : ∀ s ∈ above, Hands successors initial w' x s (successors s) ∧ Lowered w' s

section Scan

variable {above ys : List Nat}

theorem Scanning.active (h : Scanning successors initial w x above ys w') :
    ∃ m, w'.mark x = .active m := by
  rw [← h.sound.mem_stack_iff, h.stack]
  exact List.mem_append_right _ List.mem_cons_self

theorem Scanning.start (h : Sound successors initial w) (fresh : w.mark x = .unvisited) :
    Scanning successors initial w x [] [] (w.enter x) where
  sound := h.enter fresh
  frame := by
    have inside : x < w.marks.size :=
      Walk.lt_size_of_mark_ne (by rw [fresh]; exact Mark.noConfusion)
    refine ⟨fun z hz => ?_, fun _ _ _ => Iff.rfl⟩
    rw [Walk.mark_enter inside, if_neg]
    rintro rfl
    exact hz fresh
  fresh := fresh
  stack := rfl
  hands :=
    { reach := .refl
      low := fun m d hm hd => Nat.le_of_eq (Mark.active.inj (hm.symm.trans hd))
      own := h.grown x
      visited := fun _ hy => absurd hy List.not_mem_nil
      back := fun _ hy => absurd hy List.not_mem_nil
      out := fun _ hy => absurd hy List.not_mem_nil }
  done _ hs := absurd hs List.not_mem_nil

/-- Scanning one more successor. -/
theorem Scanning.step [Union σ] {w₁ w₂ : Walk σ}
    (mem_union : ∀ (s t : σ) (a : α), a ∈ s ∪ t ↔ a ∈ s ∨ a ∈ t)
    (scan : Scanning successors initial w x above ys w₁) (edge : y ∈ successors x)
    (opened : Opened successors initial w₁ y w₂) :
    ∃ new, Scanning successors initial w x (new ++ above) (ys ++ [y]) (w₂.absorb x y) := by
  obtain ⟨m, hm₁⟩ := scan.active
  obtain ⟨new, grows, handed⟩ := opened.stack
  have visited_x : w₁.mark x ≠ .unvisited := by
    rw [hm₁]
    exact Mark.noConfusion
  have hm : w₂.mark x = .active m := (opened.frame.mark_eq x visited_x).trans hm₁
  have stack : w₂.stack = (new ++ above) ++ x :: w.stack := by
    rw [grows, scan.stack, List.append_assoc]
  have nodup := opened.sound.nodup
  rw [stack] at nodup
  have other {s : Nat} (hs : s ∈ new ++ above) : s ≠ x := by
    rintro rfl
    exact (List.nodup_append'.mp nodup).2.2 hs List.mem_cons_self
  have hx : x < initial.size :=
    opened.sound.lt_of_mem ((opened.sound.mem_stack_iff x).mpr ⟨m, hm⟩)
  have visited_above {s : Nat} (hs : s ∈ above) : w₁.mark s ≠ .unvisited := by
    have active : s ∈ w₁.stack := scan.stack ▸ List.mem_append_left _ hs
    obtain ⟨d, hd⟩ := (scan.sound.mem_stack_iff s).mp active
    rw [hd]
    exact Mark.noConfusion
  have own := scan.hands.extend opened.frame scan.sound opened.sound grows visited_x visited_x
  refine ⟨new, ?_⟩
  refine
    { sound := opened.sound.absorb mem_union hm edge
      frame := ?_
      fresh := scan.fresh
      stack := stack
      hands := own.absorb_self mem_union opened.sound hm opened.visited
      done := ?_ }
  · exact (scan.frame.trans opened.frame).absorb mem_union (opened.sound.values_size ▸ hx)
      scan.fresh y
  · intro s hs
    rcases List.mem_append.mp hs with fresh | old
    · obtain ⟨⟨e, he⟩, hands, lowered⟩ := handed s fresh
      exact ⟨hands.inherit mem_union opened.sound hm he edge (other hs),
        lowered.absorb (other hs) y⟩
    · obtain ⟨hands, lowered⟩ := scan.done s old
      have visited_s := visited_above old
      have hands₂ :=
        hands.extend opened.frame scan.sound opened.sound grows visited_x visited_s
      have lowered₂ := lowered.extend opened.frame scan.sound opened.sound grows visited_s
      exact ⟨hands₂.absorb mem_union opened.sound hm y, lowered₂.absorb (other hs) y⟩

/-- A scan that leaves the mark of the node below its depth ends the visit. -/
theorem Scanning.opened (scan : Scanning successors initial w x above (successors x) w')
    (lower : w'.mark x ≠ .active (w.stack.length + 1)) :
    Opened successors initial w x w' := by
  obtain ⟨m, hm⟩ := scan.active
  have split : w'.stack = (above ++ [x]) ++ w.stack := by
    rw [scan.stack, List.append_assoc]
    rfl
  have low : Lowered w' x := by
    intro d k hd stands
    have deep : w.stack.length < k := by
      have nodup := scan.sound.nodup
      rw [split] at stands nodup
      rcases stands.of_append with ⟨_, below⟩ | ⟨deep, _⟩
      · refine absurd below.mem ((List.nodup_append'.mp nodup).2.2 ?_)
        exact List.mem_append_right _ List.mem_cons_self
      · exact deep
    have depth : d ≤ w.stack.length + 1 := by
      refine scan.sound.low_le x d _ hd ?_
      rw [scan.stack]
      exact (stands_head x w.stack).append above
    have strict : d ≠ w.stack.length + 1 := by
      rintro rfl
      exact lower hd
    omega
  refine ⟨scan.sound, scan.frame, ?_, above ++ [x], split, ?_⟩
  · rw [hm]
    exact Mark.noConfusion
  · intro s hs
    refine ⟨⟨m, hm⟩, ?_⟩
    rcases List.mem_append.mp hs with done | top
    · exact scan.done s done
    · obtain rfl := List.mem_singleton.mp top
      exact ⟨scan.hands, low⟩

end Scan

section Component

variable {above : List Nat} (scan : Scanning successors initial w x above (successors x) w')
  (root : w'.mark x = .active (w.stack.length + 1))

include scan

theorem Scanning.hands_of_mem (hs : s ∈ above ++ [x]) :
    Hands successors initial w' x s (successors s) := by
  rcases List.mem_append.mp hs with done | top
  · exact (scan.done s done).1
  · obtain rfl := List.mem_singleton.mp top
    exact scan.hands

theorem Scanning.stack_eq : w'.stack = (above ++ [x]) ++ w.stack := by
  rw [scan.stack, List.append_assoc]
  rfl

include root

/-- Edges of the component stay in it or lead to settled nodes. -/
theorem Scanning.successor_mem (hs : s ∈ above ++ [x]) (hy : y ∈ successors s) :
    y ∈ above ++ [x] ∨ w'.mark y = .settled := by
  have hands := scan.hands_of_mem hs
  have active : s ∈ w'.stack := by
    rw [scan.stack_eq]
    exact List.mem_append_left _ hs
  obtain ⟨d, hd⟩ := (scan.sound.mem_stack_iff s).mp active
  cases hm : w'.mark y with
  | unvisited => exact absurd hm (hands.visited y hy)
  | settled => exact Or.inr rfl
  | active e =>
      obtain ⟨k, stands⟩ := exists_stands ((scan.sound.mem_stack_iff y).mpr ⟨e, hm⟩)
      have high := hands.low _ d root hd
      have back := hands.back y hy d k hd stands
      rw [scan.stack_eq] at stands
      rcases stands.of_append with ⟨short, _⟩ | ⟨_, member⟩
      · omega
      · exact Or.inl member

/-- The root holds whatever a node of its component gathers. -/
theorem Scanning.holds_of_gathers (range : ∀ x, ∀ y ∈ successors x, y < initial.size)
    (hs : s ∈ above ++ [x]) {a : α} (h : Gathers successors initial s a) :
    Holds w'.values x a := by
  obtain ⟨z, path, ha⟩ := h
  induction path using Relation.ReflTransGen.head_induction_on with
  | refl => exact (scan.hands_of_mem hs).own a ha
  | @head s y edge path ih =>
      rcases scan.successor_mem root hs edge with inside | settled
      · exact ih inside
      · have gathered := scan.sound.complete y (range s y edge) settled a ⟨z, path, ha⟩
        exact (scan.hands_of_mem hs).out y edge settled a gathered

/-- Every node of the component leads back to the root. -/
theorem Scanning.reach_root (hs : s ∈ above ++ [x]) : Reach successors s x := by
  have standing : ∀ k s, Stands w'.stack k s → s ∈ above ++ [x] → Reach successors s x := by
    intro k
    -- The mark of a node other than the root is the depth of a lower node of the component.
    induction k using Nat.strong_induction_on with
    | _ k ih =>
        intro s stands hs
        rcases List.mem_append.mp hs with done | top
        · obtain ⟨d, hd⟩ := (scan.sound.mem_stack_iff s).mp stands.mem
          have lowered := (scan.done s done).2 d k hd stands
          have high := (scan.hands_of_mem hs).low _ d root hd
          obtain ⟨t, stands_t, path⟩ := scan.sound.low_reach s d hd
          have inside : t ∈ above ++ [x] := by
            have split := stands_t
            rw [scan.stack_eq] at split
            rcases split.of_append with ⟨short, _⟩ | ⟨_, member⟩
            · omega
            · exact member
          exact Relation.ReflTransGen.trans path (ih d lowered t stands_t inside)
        · obtain rfl := List.mem_singleton.mp top
          exact .refl
  have member : s ∈ w'.stack := by
    rw [scan.stack_eq]
    exact List.mem_append_left _ hs
  obtain ⟨k, stands⟩ := exists_stands member
  exact standing k s stands hs

omit root in
theorem Scanning.notMem_above : x ∉ above := by
  have nodup := scan.sound.nodup
  rw [scan.stack] at nodup
  intro hx
  exact (List.nodup_append'.mp nodup).2.2 hx List.mem_cons_self

omit root in
theorem Scanning.mark_settle (z : Nat) :
    (w'.settle x).mark z = if z ∈ above ++ [x] then .settled else w'.mark z := by
  rw [Walk.mark_settle scan.stack scan.notMem_above]
  simp [or_comm]

omit root in
theorem Scanning.holds_settle {z : Nat} {a : α} :
    Holds (w'.settle x).values z a ↔
      if z ∈ above ++ [x] then Holds w'.values x a else Holds w'.values z a := by
  have inside {s : Nat} (hs : s ∈ above ++ [x]) : s < w'.values.size := by
    rw [scan.sound.values_size]
    apply scan.sound.lt_of_mem
    rw [scan.stack_eq]
    exact List.mem_append_left _ hs
  rw [Walk.holds_settle scan.stack scan.notMem_above
    (fun s hs => inside (List.mem_append_left _ hs))
    (inside (List.mem_append_right _ List.mem_cons_self))]
  by_cases hz : z ∈ above
  · simp [hz]
  · by_cases same : z = x
    · simp [same]
    · simp [hz, same]

/-- Settling a component keeps the invariant. -/
theorem Scanning.sound_settle (range : ∀ x, ∀ y ∈ successors x, y < initial.size) :
    Sound successors initial (w'.settle x) := by
  have h := scan.sound
  have stack : (w'.settle x).stack = w.stack := Walk.stack_settle scan.stack scan.notMem_above
  have mark := scan.mark_settle
  have holds {z : Nat} {a : α} := scan.holds_settle (z := z) (a := a)
  have nodup := h.nodup
  rw [scan.stack_eq] at nodup
  have apart {z : Nat} (hz : z ∈ w.stack) : z ∉ above ++ [x] :=
    fun member => (List.nodup_append'.mp nodup).2.2 member hz
  have active_of {z d : Nat} (hd : (w'.settle x).mark z = .active d) :
      z ∉ above ++ [x] ∧ w'.mark z = .active d := by
    rw [mark] at hd
    by_cases member : z ∈ above ++ [x]
    · rw [if_pos member] at hd
      cases hd
    · rw [if_neg member] at hd
      exact ⟨member, hd⟩
  refine
    { marks_size := Walk.size_marks_settle.trans h.marks_size
      values_size := Walk.size_values_settle.trans h.values_size
      nodup := stack ▸ (List.nodup_append'.mp nodup).2.1
      mem_stack_iff := ?_
      low_le := ?_
      low_reach := ?_
      bounded := ?_
      grown := ?_
      closed := ?_
      complete := ?_ }
  · intro z
    rw [stack]
    constructor
    · intro hz
      have old : z ∈ w'.stack := scan.stack_eq ▸ List.mem_append_right _ hz
      rw [mark, if_neg (apart hz)]
      exact (h.mem_stack_iff z).mp old
    · rintro ⟨d, hd⟩
      obtain ⟨outside, old⟩ := active_of hd
      have member := (h.mem_stack_iff z).mpr ⟨d, old⟩
      rw [scan.stack_eq] at member
      exact (List.mem_append.mp member).resolve_left outside
  · intro z d k hd stands
    rw [stack] at stands
    refine h.low_le z d k (active_of hd).2 ?_
    rw [scan.stack_eq]
    exact stands.append _
  · intro z d hd
    obtain ⟨outside, old⟩ := active_of hd
    obtain ⟨t, stands, path⟩ := h.low_reach z d old
    refine ⟨t, ?_, path⟩
    rw [stack]
    have member := (h.mem_stack_iff z).mpr ⟨d, old⟩
    rw [scan.stack_eq] at member stands
    obtain ⟨k, below⟩ := exists_stands ((List.mem_append.mp member).resolve_left outside)
    have le := h.low_le z d k old (scan.stack_eq ▸ below.append _)
    have short := below.le_length
    rcases stands.of_append with ⟨_, low⟩ | ⟨deep, _⟩
    · exact low
    · omega
  · intro z a ha
    rw [holds] at ha
    by_cases member : z ∈ above ++ [x]
    · rw [if_pos member] at ha
      exact (h.bounded x a ha).of_reach (scan.reach_root root member)
    · rw [if_neg member] at ha
      exact h.bounded z a ha
  · intro z a ha
    rw [holds]
    by_cases member : z ∈ above ++ [x]
    · rw [if_pos member]
      exact (scan.hands_of_mem member).own a ha
    · rw [if_neg member]
      exact h.grown z a ha
  · intro z hz settled y hy
    rw [mark] at settled ⊢
    by_cases target : y ∈ above ++ [x]
    · rw [if_pos target]
    · rw [if_neg target]
      by_cases member : z ∈ above ++ [x]
      · exact (scan.successor_mem root member hy).resolve_left target
      · rw [if_neg member] at settled
        exact h.closed z hz settled y hy
  · intro z hz settled a ha
    rw [holds]
    rw [mark] at settled
    by_cases member : z ∈ above ++ [x]
    · rw [if_pos member]
      exact scan.holds_of_gathers root range member ha
    · rw [if_neg member] at settled ⊢
      exact h.complete z hz settled a ha

/-- A scan that leaves the mark of the node at its depth settles the component. -/
theorem Scanning.opened_settle (h : Sound successors initial w)
    (range : ∀ x, ∀ y ∈ successors x, y < initial.size) :
    Opened successors initial w x (w'.settle x) := by
  have stack : (w'.settle x).stack = w.stack := Walk.stack_settle scan.stack scan.notMem_above
  have nodup := scan.sound.nodup
  rw [scan.stack_eq] at nodup
  have fresh {z : Nat} (hz : w.mark z ≠ .unvisited) : z ∉ above ++ [x] := by
    intro member
    -- A node visited before would have been active before, and stand on the stack twice.
    have active : z ∈ w'.stack := scan.stack_eq ▸ List.mem_append_left _ member
    obtain ⟨d, hd⟩ := (scan.sound.mem_stack_iff z).mp active
    rw [scan.frame.mark_eq z hz] at hd
    exact (List.nodup_append'.mp nodup).2.2 member ((h.mem_stack_iff z).mpr ⟨d, hd⟩)
  refine ⟨scan.sound_settle root range, ?_, ?_, [], stack, ?_⟩
  · constructor
    · intro z hz
      rw [scan.mark_settle, if_neg (fresh hz)]
      exact scan.frame.mark_eq z hz
    · intro z hz a
      rw [scan.holds_settle, if_neg (fresh hz)]
      exact scan.frame.holds_iff z hz a
  · rw [scan.mark_settle, if_pos (List.mem_append_right _ List.mem_cons_self)]
    exact Mark.noConfusion
  · intro s hs
    exact absurd hs List.not_mem_nil

end Component

section Visit

/-- How many nodes have not been visited. -/
def pending (n : Nat) (w : Walk σ) : Nat :=
  ((Finset.range n).filter fun z => w.mark z = .unvisited).card

theorem pending_le (n : Nat) (w : Walk σ) : pending n w ≤ n := by
  calc
    pending n w ≤ (Finset.range n).card := Finset.card_le_card (Finset.filter_subset _ _)
    _ = n := Finset.card_range n

/-- A node that scans its successors is no longer pending. -/
theorem Scanning.pending_lt {above ys : List Nat}
    (scan : Scanning successors initial w x above ys w') :
    pending initial.size w' < pending initial.size w := by
  obtain ⟨m, hm⟩ := scan.active
  have inside := scan.sound.lt_of_mem ((scan.sound.mem_stack_iff x).mpr ⟨m, hm⟩)
  apply Finset.card_lt_card
  apply Finset.ssubset_iff_subset_ne.mpr
  constructor
  · intro z hz
    rw [Finset.mem_filter] at hz ⊢
    refine ⟨hz.1, ?_⟩
    by_contra visited
    exact visited (scan.frame.mark_eq z visited ▸ hz.2)
  · intro same
    have member : x ∈ (Finset.range initial.size).filter fun z => w.mark z = .unvisited :=
      Finset.mem_filter.mpr ⟨Finset.mem_range.mpr inside, scan.fresh⟩
    rw [← same, Finset.mem_filter, hm] at member
    exact Mark.noConfusion member.2

variable [Union σ]

/-- Scanning the remaining successors, if visits of unvisited nodes open them. -/
theorem Scanning.foldl (mem_union : ∀ (s t : σ) (a : α), a ∈ s ∪ t ↔ a ∈ s ∨ a ∈ t) {fuel : Nat}
    (visits : ∀ (w : Walk σ) (y : Nat), Sound successors initial w → w.mark y = .unvisited →
      pending initial.size w ≤ fuel → Opened successors initial w y (visit successors fuel w y))
    (enough : pending initial.size w ≤ fuel + 1) {above ys zs : List Nat} {w₁ : Walk σ}
    (split : successors x = ys ++ zs) (scan : Scanning successors initial w x above ys w₁) :
    ∃ above', Scanning successors initial w x above' (successors x)
      (zs.foldl
        (fun w y =>
          let w := if w.mark y = .unvisited then visit successors fuel w y else w
          w.absorb x y)
        w₁) := by
  induction zs generalizing above ys w₁ with
  | nil =>
      rw [List.append_nil] at split
      exact ⟨above, split ▸ scan⟩
  | cons y zs ih =>
      have edge : y ∈ successors x := by
        rw [split]
        exact List.mem_append_right _ List.mem_cons_self
      have fewer := scan.pending_lt
      have opened : Opened successors initial w₁ y
          (if w₁.mark y = .unvisited then visit successors fuel w₁ y else w₁) :=
        .ite scan.sound fun fresh => visits w₁ y scan.sound fresh (by omega)
      obtain ⟨new, next⟩ := scan.step mem_union edge opened
      rw [List.foldl_cons]
      exact ih (by rw [split, List.append_assoc]; rfl) next

/-- A visit with enough fuel opens the node. -/
theorem opened_visit (mem_union : ∀ (s t : σ) (a : α), a ∈ s ∪ t ↔ a ∈ s ∨ a ∈ t)
    (range : ∀ x, ∀ y ∈ successors x, y < initial.size) {fuel : Nat}
    (h : Sound successors initial w) (fresh : w.mark x = .unvisited)
    (enough : pending initial.size w ≤ fuel) :
    Opened successors initial w x (visit successors fuel w x) := by
  induction fuel generalizing w x with
  | zero =>
      have fewer := (Scanning.start h fresh).pending_lt
      omega
  | succ fuel ih =>
      have visits (w : Walk σ) (y : Nat) (h : Sound successors initial w)
          (fresh : w.mark y = .unvisited) (enough : pending initial.size w ≤ fuel) := ih h fresh enough
      obtain ⟨above, scan⟩ := (Scanning.start h fresh).foldl mem_union visits enough rfl
      rw [visit]
      dsimp only
      split
      next root => exact scan.opened_settle root h range
      next lower => exact scan.opened lower

end Visit

end ContextFree.Graph
