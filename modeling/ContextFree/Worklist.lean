import ContextFree.OrderedSet

/-!
# Worklists

A worklist hands out every value pushed into it once, first in first out. Its
history is an ordered set; a cursor separates the values already handed out from
those still waiting.
-/

namespace ContextFree

structure Worklist (α : Type) [Ord α] where
  seen : OrderedSet α
  /-- How many of the values seen have been handed out. -/
  opened : Nat

namespace Worklist

variable {α : Type} [Ord α]

/-- The values handed out so far, oldest first. -/
def popped (w : Worklist α) : List α := w.seen.toList.take w.opened

/-- The values waiting, next first. -/
def waiting (w : Worklist α) : List α := w.seen.toList.drop w.opened

variable [Std.TransOrd α] [Std.LawfulEqOrd α]

def empty : Worklist α := ⟨∅, 0⟩

instance : EmptyCollection (Worklist α) := ⟨empty⟩

def push (w : Worklist α) (a : α) : Worklist α := { w with seen := w.seen.insert a }

def pushAll (w : Worklist α) (as : List α) : Worklist α :=
  { w with seen := w.seen.insertAll as }

/-- Whether pushing this value would change the worklist. -/
def isNew (w : Worklist α) (a : α) : Bool := !w.seen.contains a

def pop? (w : Worklist α) : Option (α × Worklist α) :=
  w.seen.elems[w.opened]?.map fun a => (a, { w with opened := w.opened + 1 })

def ofList (as : List α) : Worklist α := pushAll ∅ as

/-- One operation on a worklist, with its answer. -/
inductive Step (α : Type) where
  | push (a : α)
  | pop

inductive Answer (α : Type) where
  | pushed (fresh : Bool)
  | popped (a : Option α)

def step (w : Worklist α) : Step α → Answer α × Worklist α
  | .push a => (.pushed (w.isNew a), w.push a)
  | .pop =>
      match w.pop? with
      | some (a, rest) => (.popped (some a), rest)
      | none => (.popped none, w)

/-- The answers of a sequence of operations and the worklist they leave. -/
def run (w : Worklist α) (steps : List (Step α)) : List (Answer α) × Worklist α :=
  let (answers, last) := steps.foldl
    (fun (answers, w) s => let (answer, next) := w.step s; (answers.push answer, next)) (#[], w)
  (answers.toList, last)

end Worklist

end ContextFree
