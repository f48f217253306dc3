import ContextFree.Symbol

/-!
# Sets of identifiers

A set of identifiers of one kind is a natural number whose binary digit at
position `i` says whether the identifier `i` belongs to it. Two sets with the same
members are the same number, so equality of sets is equality of values, and
listing a set gives its members in ascending order.
-/

namespace ContextFree

/-- A set of identifiers, one binary digit per identifier. -/
@[ext]
structure IdSet (k : Kind) where
  bits : Nat
  deriving DecidableEq, Repr

namespace IdSet

variable {k : Kind}

instance : EmptyCollection (IdSet k) := ⟨⟨0⟩⟩

def contains (s : IdSet k) (i : Id k) : Bool := s.bits.testBit i.index

instance : Membership (Id k) (IdSet k) := ⟨fun s i => s.contains i = true⟩

instance (i : Id k) (s : IdSet k) : Decidable (i ∈ s) :=
  inferInstanceAs (Decidable (s.contains i = true))

theorem mem_iff {i : Id k} {s : IdSet k} : i ∈ s ↔ s.contains i = true := Iff.rfl

def insert (s : IdSet k) (i : Id k) : IdSet k := ⟨s.bits ||| 1 <<< i.index⟩

instance : Union (IdSet k) := ⟨fun s t => ⟨s.bits ||| t.bits⟩⟩

def isEmpty (s : IdSet k) : Bool := s.bits == 0

def ofList (is : List (Id k)) : IdSet k := is.foldl insert ∅

/-- The positions of the binary digits one of a number below `2 ^ 2 ^ level`, counted
from `offset`. A half without such digits is skipped at once. -/
def onesFrom : Nat → Nat → Nat → List Nat
  | 0, offset, bits => if bits = 0 then [] else [offset]
  | level + 1, offset, bits =>
      if bits = 0 then []
      else
        let half := 1 <<< level
        onesFrom level offset (bits &&& (1 <<< half - 1)) ++
          onesFrom level (offset + half) (bits >>> half)

/-- The members in ascending order. -/
def toList (s : IdSet k) : List (Id k) :=
  (onesFrom (s.bits.log2.log2 + 1) 0 s.bits).map Id.mk

def size (s : IdSet k) : Nat := s.toList.length

@[simp]
theorem not_mem_empty (i : Id k) : i ∉ (∅ : IdSet k) := by
  change ¬ Nat.testBit 0 i.index = true
  simp

@[simp]
theorem mem_insert {s : IdSet k} {i j : Id k} : j ∈ s.insert i ↔ j = i ∨ j ∈ s := by
  simp only [mem_iff, contains, insert, Nat.testBit_or, Nat.one_shiftLeft, Nat.testBit_two_pow,
    Bool.or_eq_true, decide_eq_true_eq, Id.ext_iff]
  exact or_comm.trans (or_congr eq_comm Iff.rfl)

@[simp]
theorem mem_union {s t : IdSet k} {i : Id k} : i ∈ s ∪ t ↔ i ∈ s ∨ i ∈ t := by
  change (s.bits ||| t.bits).testBit i.index = true ↔ _
  simp only [Nat.testBit_or, Bool.or_eq_true, mem_iff, contains]

@[simp]
theorem mem_ofList {is : List (Id k)} {i : Id k} : i ∈ ofList is ↔ i ∈ is := by
  have folded : ∀ s : IdSet k, i ∈ is.foldl insert s ↔ i ∈ s ∨ i ∈ is := by
    induction is with
    | nil => simp
    | cons j rest ih =>
        intro s
        rw [List.foldl_cons, ih, mem_insert, List.mem_cons]
        exact or_assoc.trans or_left_comm
  rw [ofList, folded]
  simp

theorem ext_mem {s t : IdSet k} (h : ∀ i, i ∈ s ↔ i ∈ t) : s = t := by
  refine IdSet.ext (Nat.eq_of_testBit_eq fun i => ?_)
  exact Bool.eq_iff_iff.mpr (h ⟨i⟩)

theorem isEmpty_iff {s : IdSet k} : s.isEmpty = true ↔ ∀ i, i ∉ s := by
  constructor
  · intro h i hi
    have empty : s = ∅ := IdSet.ext (beq_iff_eq.mp h)
    exact not_mem_empty i (empty ▸ hi)
  · intro h
    have empty : s = ∅ := ext_mem fun i => iff_of_false (h i) (not_mem_empty i)
    rw [empty]
    rfl

theorem mem_onesFrom {level offset bits i : Nat} (small : bits < 1 <<< (1 <<< level)) :
    i ∈ onesFrom level offset bits ↔ offset ≤ i ∧ bits.testBit (i - offset) = true := by
  simp only [Nat.one_shiftLeft] at small
  induction level generalizing offset bits with
  | zero =>
      have cases : bits = 0 ∨ bits = 1 := by simp at small; omega
      rcases cases with rfl | rfl
      · simp [onesFrom]
      · simp only [onesFrom, Nat.testBit_one_eq_true_iff_self_eq_zero]
        simp
        omega
  | succ level ih =>
      by_cases zero : bits = 0
      · simp [onesFrom, zero]
      · have low : bits % 2 ^ 2 ^ level < 2 ^ 2 ^ level := Nat.mod_lt _ (Nat.two_pow_pos _)
        have high : bits >>> 2 ^ level < 2 ^ 2 ^ level := by
          rw [Nat.shiftRight_eq_div_pow]
          refine Nat.div_lt_of_lt_mul ?_
          rwa [← Nat.pow_add, ← Nat.two_mul, ← Nat.pow_succ']
        rw [onesFrom, if_neg zero]
        simp only [Nat.one_shiftLeft]
        rw [List.mem_append, Nat.and_two_pow_sub_one_eq_mod, ih low, ih high,
          Nat.testBit_mod_two_pow, Nat.testBit_shiftRight]
        by_cases split : i < offset + 2 ^ level
        · have left : ¬ offset + 2 ^ level ≤ i := by omega
          simp only [left, false_and, or_false, Bool.and_eq_true, decide_eq_true_eq]
          constructor
          · rintro ⟨lower, _, digit⟩
            exact ⟨lower, digit⟩
          · rintro ⟨lower, digit⟩
            exact ⟨lower, by omega, digit⟩
        · have pos : 0 < 2 ^ level := Nat.two_pow_pos level
          have right : ¬ i - offset < 2 ^ level := by omega
          have place : 2 ^ level + (i - (offset + 2 ^ level)) = i - offset := by omega
          simp only [right, decide_false, Bool.false_and, Bool.false_eq_true, and_false, false_or,
            place]
          constructor
          · rintro ⟨lower, digit⟩
            exact ⟨by omega, digit⟩
          · rintro ⟨lower, digit⟩
            exact ⟨by omega, digit⟩

@[simp]
theorem mem_toList {s : IdSet k} {i : Id k} : i ∈ s.toList ↔ i ∈ s := by
  have small : s.bits < 1 <<< (1 <<< (s.bits.log2.log2 + 1)) := by
    simp only [Nat.one_shiftLeft]
    exact Nat.lt_of_lt_of_le Nat.lt_log2_self (Nat.pow_le_pow_right (by decide) Nat.lt_log2_self)
  simp only [toList, List.mem_map, mem_onesFrom small, Nat.zero_le, true_and, Nat.sub_zero]
  constructor
  · rintro ⟨n, digit, rfl⟩
    exact digit
  · intro h
    exact ⟨i.index, h, rfl⟩

end IdSet

end ContextFree
