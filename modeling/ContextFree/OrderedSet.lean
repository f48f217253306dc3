import Std.Data.TreeSet

/-!
# Sets that remember the order of insertion

An ordered set lists its elements in the order in which they were first inserted.
Inserting an element again changes nothing. A search tree beside the list answers
membership quickly; the two always hold the same elements.
-/

namespace ContextFree

/-- A fold whose steps keep what holds and add to it. -/
theorem foldl_iff {σ β : Type} (Holds : σ → Prop) {step : σ → β → σ} {Adds : β → Prop}
    (each : ∀ s b, Holds (step s b) ↔ Holds s ∨ Adds b) (bs : List β) (s : σ) :
    Holds (bs.foldl step s) ↔ Holds s ∨ ∃ b ∈ bs, Adds b := by
  induction bs generalizing s with
  | nil => simp
  | cons b rest ih =>
      rw [List.foldl_cons, ih, each, or_assoc]
      simp

/-- A set listed in the order of first insertion. -/
structure OrderedSet (α : Type) [Ord α] where
  elems : Array α
  members : Std.TreeSet α
  mem_members : ∀ a, a ∈ members ↔ a ∈ elems
  nodup : elems.toList.Nodup

namespace OrderedSet

variable {α : Type} [Ord α]

def contains (s : OrderedSet α) (a : α) : Bool := s.members.contains a

def toList (s : OrderedSet α) : List α := s.elems.toList

@[simp]
theorem contains_iff {s : OrderedSet α} {a : α} : s.contains a = true ↔ a ∈ s.toList := by
  rw [contains, Std.TreeSet.contains_iff_mem, s.mem_members, toList, Array.mem_toList_iff]

variable [Std.TransOrd α] [Std.LawfulEqOrd α]

def empty : OrderedSet α where
  elems := #[]
  members := ∅
  mem_members a := by simp
  nodup := by simp

instance : EmptyCollection (OrderedSet α) := ⟨empty⟩

/-- Append an element unless it is already there. -/
def insert (s : OrderedSet α) (a : α) : OrderedSet α :=
  if h : s.contains a = true then s
  else
    { elems := s.elems.push a
      members := s.members.insert a
      mem_members := fun b => by
        rw [Std.TreeSet.mem_insert, Array.mem_push, s.mem_members, Std.compare_eq_iff_eq]
        exact or_comm.trans (or_congr Iff.rfl eq_comm)
      nodup := by
        rw [contains_iff] at h
        rw [Array.toList_push, List.nodup_append]
        refine ⟨s.nodup, by simp, fun b hb c hc => ?_⟩
        rw [List.mem_singleton] at hc
        subst hc
        exact fun heq => h (heq ▸ hb) }

theorem toList_insert (s : OrderedSet α) (a : α) :
    (s.insert a).toList = if s.contains a then s.toList else s.toList ++ [a] := by
  unfold insert
  split
  · rfl
  · simp [toList]

@[simp]
theorem mem_insert {s : OrderedSet α} {a b : α} :
    b ∈ (s.insert a).toList ↔ b ∈ s.toList ∨ b = a := by
  rw [toList_insert]
  split
  case isTrue h =>
    constructor
    · exact Or.inl
    · rintro (hb | rfl)
      · exact hb
      · exact contains_iff.mp h
  case isFalse => simp

def insertAll (s : OrderedSet α) (as : List α) : OrderedSet α := as.foldl insert s

@[simp]
theorem mem_insertAll {s : OrderedSet α} {as : List α} {b : α} :
    b ∈ (s.insertAll as).toList ↔ b ∈ s.toList ∨ b ∈ as := by
  have step : ∀ (s : OrderedSet α) (a : α), b ∈ (s.insert a).toList ↔ b ∈ s.toList ∨ b = a :=
    fun _ _ => mem_insert
  refine (foldl_iff (fun s => b ∈ s.toList) step as s).trans ?_
  simp

theorem contains_insert [DecidableEq α] (s : OrderedSet α) (a b : α) :
    (s.insert a).contains b = (s.contains b || b == a) := by
  rw [Bool.eq_iff_iff, contains_iff, mem_insert, Bool.or_eq_true, contains_iff, beq_iff_eq]

/-- New elements follow in the order of first occurrence. -/
theorem toList_insertAll [DecidableEq α] (s : OrderedSet α) (as : List α) :
    (s.insertAll as).toList = s.toList ++ (as.filter fun a => !s.contains a).eraseDups := by
  induction as generalizing s with
  | nil => exact (List.append_nil _).symm
  | cons a rest ih =>
      change ((s.insert a).insertAll rest).toList = _
      rw [ih, toList_insert]
      by_cases old : s.contains a = true
      · have same : s.insert a = s := dif_pos old
        simp [old, same]
      · simp [old, contains_insert, List.eraseDups_cons, List.filter_filter, Bool.and_comm]

def ofList (as : List α) : OrderedSet α := insertAll ∅ as

@[simp]
theorem mem_ofList {as : List α} {b : α} : b ∈ (ofList as).toList ↔ b ∈ as := by
  rw [ofList, mem_insertAll]
  change b ∈ ([] : List α) ∨ b ∈ as ↔ b ∈ as
  simp

/-- The elements of the second set that are missing follow in their order. -/
instance : Union (OrderedSet α) := ⟨fun s t => s.insertAll t.toList⟩

end OrderedSet

/-- The elements of a list without repetitions, in the order of first occurrence. -/
def distinct {α : Type} [Ord α] [Std.TransOrd α] [Std.LawfulEqOrd α] (as : List α) : List α :=
  (OrderedSet.ofList as).toList

section Distinct

variable {α : Type} [Ord α] [Std.TransOrd α] [Std.LawfulEqOrd α]

@[simp]
theorem mem_distinct {as : List α} {a : α} : a ∈ distinct as ↔ a ∈ as := OrderedSet.mem_ofList

/-- Only the first occurrence of each element is kept. -/
theorem distinct_eq_eraseDups [DecidableEq α] (as : List α) : distinct as = as.eraseDups := by
  have fresh : as.filter (fun a => !(∅ : OrderedSet α).contains a) = as := by
    apply List.filter_eq_self.mpr
    intro a _
    rw [Bool.not_eq_true', Bool.eq_false_iff, ne_eq, OrderedSet.contains_iff]
    exact List.not_mem_nil
  change ((∅ : OrderedSet α).insertAll as).toList = _
  rw [OrderedSet.toList_insertAll, fresh]
  rfl

theorem nodup_distinct (as : List α) : (distinct as).Nodup := (OrderedSet.ofList as).nodup

end Distinct

end ContextFree
