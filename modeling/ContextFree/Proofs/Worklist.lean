import ContextFree.Worklist
import Mathlib.Data.List.Basic

/-!
# Every value once, first in first out

A worklist keeps one list of all values ever pushed and a cursor into it. It answers like a
queue that keeps the values waiting apart from the values seen. After any series of pushes
and pops, the values handed out and then the values waiting are the values pushed, each at
its first push. A push is therefore fresh exactly if its value was never pushed before, and
pops alone hand out what is waiting in this order.
-/

namespace ContextFree.Worklist

variable {α : Type}

/-- The value that an operation pushes. -/
def Step.pushed? : Step α → Option α
  | .push a => some a
  | .pop => none

/-- The value that an answer hands out. -/
def Answer.handed? : Answer α → Option α
  | .pushed _ => none
  | .popped a => a

/-- A queue beside the values ever admitted to it. -/
structure Queue (α : Type) where
  seen : List α
  waiting : List α

theorem eraseDups_concat [DecidableEq α] (as : List α) (a : α) :
    (as ++ [a]).eraseDups = if a ∈ as then as.eraseDups else as.eraseDups ++ [a] := by
  rw [List.eraseDups_append]
  split
  next old => simp [List.removeAll, old]
  next new => simp [List.removeAll, new, List.eraseDups_cons]

namespace Queue

section Run

variable [DecidableEq α]

def step (q : Queue α) : Step α → Answer α × Queue α
  | .push a =>
      if a ∈ q.seen then (.pushed false, q)
      else (.pushed true, ⟨q.seen ++ [a], q.waiting ++ [a]⟩)
  | .pop =>
      match q.waiting with
      | [] => (.popped none, q)
      | a :: rest => (.popped (some a), ⟨q.seen, rest⟩)

def run (q : Queue α) : List (Step α) → List (Answer α) × Queue α
  | [] => ([], q)
  | s :: rest => ((q.step s).1 :: ((q.step s).2.run rest).1, ((q.step s).2.run rest).2)

/-- The queue after the values of a list have been pushed one by one. -/
def ofList (as : List α) : Queue α := (run ⟨[], []⟩ (as.map .push)).2

theorem run_append (q : Queue α) (before after : List (Step α)) :
    q.run (before ++ after) =
      ((q.run before).1 ++ ((q.run before).2.run after).1, ((q.run before).2.run after).2) := by
  induction before generalizing q with
  | nil => rfl
  | cons s rest ih => simp only [List.cons_append, run, ih]

/-- Pops hand out the values waiting, and then nothing. -/
theorem run_pops (q : Queue α) (n : Nat) :
    (q.run (List.replicate n .pop)).1 =
      (q.waiting.take n).map (fun a => .popped (some a)) ++
        List.replicate (n - q.waiting.length) (.popped none) := by
  induction n generalizing q with
  | zero => simp [run]
  | succ n ih =>
      rw [List.replicate_succ, run, ih, step]
      cases waiting : q.waiting with
      | nil => simp [waiting, List.replicate_succ]
      | cons a rest => simp

/-- The values seen are the values pushed, each once, and those handed out come before those
waiting. -/
structure Accounts (pushed handed : List α) (q : Queue α) : Prop where
  seen : q.seen = pushed.eraseDups
  split : q.seen = handed ++ q.waiting

namespace Accounts

variable {pushed handed : List α} {q : Queue α}

theorem mem_seen (h : Accounts pushed handed q) {a : α} : a ∈ q.seen ↔ a ∈ pushed := by
  rw [h.seen, List.mem_eraseDups]

/-- A push is fresh exactly if its value was never pushed before. -/
theorem answer_push (h : Accounts pushed handed q) (a : α) :
    (q.step (.push a)).1 = .pushed (decide (a ∉ pushed)) := by
  by_cases old : a ∈ pushed
  · simp [step, h.mem_seen, old]
  · simp [step, h.mem_seen, old]

theorem step (h : Accounts pushed handed q) (s : Step α) :
    Accounts (pushed ++ s.pushed?.toList) (handed ++ (q.step s).1.handed?.toList) (q.step s).2 := by
  cases s with
  | push a =>
      have extended : (pushed ++ [a]).eraseDups = _ := eraseDups_concat pushed a
      by_cases old : a ∈ pushed
      · -- The value may wait or have been handed out; it is not admitted again.
        rw [if_pos old] at extended
        rw [Queue.step, if_pos (h.mem_seen.mpr old)]
        refine ⟨h.seen.trans extended.symm, ?_⟩
        exact h.split.trans (by simp [Answer.handed?])
      · rw [if_neg old] at extended
        rw [Queue.step, if_neg fun member => old (h.mem_seen.mp member)]
        refine ⟨(congrArg (· ++ [a]) h.seen).trans extended.symm, ?_⟩
        simp [h.split, Answer.handed?]
  | pop =>
      have unchanged : pushed ++ (Step.pop : Step α).pushed?.toList = pushed := List.append_nil _
      rw [unchanged, Queue.step]
      cases waiting : q.waiting with
      | nil => exact ⟨h.seen, h.split.trans (by simp [Answer.handed?])⟩
      | cons a rest =>
          refine ⟨h.seen, ?_⟩
          simp [h.split, waiting, Answer.handed?]

/-- What one step keeps, any number of steps keeps. -/
theorem run (h : Accounts pushed handed q) (steps : List (Step α)) :
    Accounts (pushed ++ steps.filterMap Step.pushed?)
      (handed ++ (q.run steps).1.filterMap Answer.handed?) (q.run steps).2 := by
  simp only [List.filterMap_eq_flatMap_toList]
  induction steps generalizing pushed handed q with
  | nil => simpa [Queue.run] using h
  | cons s rest ih =>
      have after := ih (h.step s)
      rw [List.append_assoc, List.append_assoc] at after
      exact after

end Accounts

end Run

end Queue

section View

variable [Ord α]

/-- The values seen and the values waiting of a worklist. -/
def queue (w : Worklist α) : Queue α := ⟨w.seen.toList, w.waiting⟩

/-- The value at the cursor is the first one waiting. -/
theorem waiting_eq (w : Worklist α) :
    w.waiting = w.seen.elems[w.opened]?.toList ++ w.seen.toList.drop (w.opened + 1) := by
  rw [waiting, List.drop_eq_getElem?_toList_append, OrderedSet.toList, Array.getElem?_toList]

variable [Std.TransOrd α] [Std.LawfulEqOrd α]

/-- The answers of further operations follow those given before. -/
theorem foldl_step (w : Worklist α) (steps : List (Step α)) (answers : Array (Answer α)) :
    steps.foldl (fun (answers, w) s => let (answer, next) := w.step s; (answers.push answer, next))
        (answers, w) =
      (answers ++ (w.run steps).1.toArray, (w.run steps).2) := by
  unfold run
  induction steps generalizing w answers with
  | nil => simp
  | cons s rest ih =>
      rw [List.foldl_cons, List.foldl_cons]
      dsimp only
      rw [ih, ih _ (#[].push _)]
      refine Prod.ext (Array.toList_inj.mp ?_) rfl
      simp only [Array.toList_append, Array.toList_push, List.append_assoc]
      rfl

theorem run_cons (w : Worklist α) (s : Step α) (rest : List (Step α)) :
    w.run (s :: rest) = ((w.step s).1 :: ((w.step s).2.run rest).1, ((w.step s).2.run rest).2) := by
  rw [run, List.foldl_cons]
  dsimp only
  rw [foldl_step]
  simp

theorem pushAll_eq_run (w : Worklist α) (as : List α) : w.pushAll as = (w.run (as.map .push)).2 := by
  induction as generalizing w with
  | nil => rfl
  | cons a rest ih =>
      rw [List.map_cons, run_cons]
      exact ih (w.push a)

variable [DecidableEq α]

/-- A worklist takes each step as its queue does. -/
theorem queue_step {w : Worklist α} (inside : w.opened ≤ w.seen.toList.length) (s : Step α) :
    w.queue.step s = ((w.step s).1, (w.step s).2.queue) ∧
      (w.step s).2.opened ≤ (w.step s).2.seen.toList.length := by
  cases s with
  | push a =>
      have seen := w.seen.toList_insert a
      have pushed : (w.push a).queue =
          ⟨(w.seen.insert a).toList, (w.seen.insert a).toList.drop w.opened⟩ := rfl
      change w.queue.step (.push a) = (.pushed (w.isNew a), (w.push a).queue) ∧
        w.opened ≤ (w.seen.insert a).toList.length
      by_cases old : w.seen.contains a = true
      · have member : a ∈ w.queue.seen := OrderedSet.contains_iff.mp old
        rw [if_pos old] at seen
        rw [Queue.step, if_pos member, isNew, old, pushed, seen]
        exact ⟨rfl, inside⟩
      · have new : a ∉ w.queue.seen := fun member => old (OrderedSet.contains_iff.mpr member)
        rw [if_neg old] at seen
        rw [Queue.step, if_neg new, isNew, Bool.eq_false_iff.mpr old, pushed, seen,
          List.drop_append_of_le_length inside]
        exact ⟨rfl, by rw [List.length_append]; omega⟩
  | pop =>
      have first := w.waiting_eq
      cases next : w.seen.elems[w.opened]? with
      | none =>
          have past : w.seen.toList.length ≤ w.opened := Array.getElem?_eq_none_iff.mp next
          have empty : w.queue.waiting = [] := List.drop_eq_nil_of_le past
          have popped : w.step .pop = (.popped none, w) := by rw [step, pop?, next]; rfl
          rw [Queue.step, empty, popped]
          exact ⟨rfl, inside⟩
      | some a =>
          have here : w.opened < w.seen.toList.length := (Array.getElem?_eq_some_iff.mp next).1
          have popped : w.step .pop = (.popped (some a), { w with opened := w.opened + 1 }) := by
            rw [step, pop?, next]; rfl
          rw [next] at first
          have filled : w.queue.waiting = a :: w.seen.toList.drop (w.opened + 1) := first
          rw [Queue.step, filled, popped]
          exact ⟨rfl, here⟩

theorem queue_run {w : Worklist α} (inside : w.opened ≤ w.seen.toList.length)
    (steps : List (Step α)) :
    w.queue.run steps = ((w.run steps).1, (w.run steps).2.queue) := by
  induction steps generalizing w with
  | nil => rfl
  | cons s rest ih =>
      obtain ⟨same, inside⟩ := queue_step inside s
      rw [Queue.run, same, run_cons, ih inside]

/-- The values of an initial list are pushed one by one. -/
theorem queue_ofList (as : List α) : (ofList as).queue = Queue.ofList as := by
  have filled := queue_run (w := (∅ : Worklist α)) (Nat.zero_le _) (as.map .push)
  rw [ofList, pushAll_eq_run]
  exact (congrArg Prod.snd filled).symm

theorem accounts_ofList (as : List α) : (Queue.ofList as).Accounts as [] := by
  rw [← queue_ofList]
  exact ⟨distinct_eq_eraseDups as, rfl⟩

/-- After any operations on a worklist that starts with some values, it has given the answers of a
queue filled with these values one by one, and holds the same values. The values seen are those
pushed, each at its first push: first those handed out, in this order, then those waiting. A
further push is fresh exactly if its value was never pushed before, and further pops hand out the
values waiting, in their order, and then nothing. -/
theorem run_hands_out_once (as : List α) (steps : List (Step α)) :
    let answers := ((ofList as).run steps).1
    let last := ((ofList as).run steps).2
    let pushed := as ++ steps.filterMap Step.pushed?
    (Queue.ofList as).run steps = (answers, ⟨last.seen.toList, last.waiting⟩) ∧
      last.seen.toList = answers.filterMap Answer.handed? ++ last.waiting ∧
      last.seen.toList = pushed.eraseDups ∧
      last.seen.toList.Nodup ∧
      (∀ a, ((ofList as).run (steps ++ [.push a])).1 =
        answers ++ [.pushed (decide (a ∉ pushed))]) ∧
      ∀ n, ((ofList as).run (steps ++ List.replicate n .pop)).1 =
        answers ++ ((last.waiting.take n).map (fun a => .popped (some a)) ++
          List.replicate (n - last.waiting.length) (.popped none)) := by
  intro answers last pushed
  have agrees (steps : List (Step α)) : (Queue.ofList as).run steps =
      (((ofList as).run steps).1, ((ofList as).run steps).2.queue) := by
    rw [← queue_ofList]
    exact queue_run (Nat.zero_le _) steps
  have accounts : last.queue.Accounts pushed (answers.filterMap Answer.handed?) := by
    have run := (accounts_ofList as).run steps
    rwa [agrees, List.nil_append] at run
  have continues (more : List (Step α)) :
      ((ofList as).run (steps ++ more)).1 = answers ++ (last.queue.run more).1 := by
    have run := congrArg Prod.fst (Queue.run_append (Queue.ofList as) steps more)
    rwa [agrees, agrees] at run
  refine ⟨agrees steps, accounts.split, accounts.seen, last.seen.nodup, ?_, ?_⟩
  · intro a
    rw [continues, ← accounts.answer_push a]
    rfl
  · intro n
    rw [continues, Queue.run_pops]
    rfl

/-- After a value has been handed out, pushing it again is not fresh, and what is left is handed
out without it. -/
theorem run_hands_out_once_again :
    let steps : List (Step Nat) := [.pop, .push 2, .push 7, .push 4, .pop]
    let answers : List (Answer Nat) :=
      [.popped (some 4), .pushed false, .pushed true, .pushed false, .popped (some 2)]
    Std.TransOrd Nat ∧ Std.LawfulEqOrd Nat ∧ ((ofList [4, 2, 4]).run steps).1 = answers ∧
      ((ofList [4, 2, 4]).run steps).2.seen.toList = [4, 2, 7] ∧
      ((ofList [4, 2, 4]).run (steps ++ [.push 4])).1 = answers ++ [.pushed false] ∧
      ((ofList [4, 2, 4]).run (steps ++ List.replicate 2 .pop)).1 =
        answers ++ [.popped (some 7), .popped none] := by
  intro steps answers
  obtain ⟨agrees, _, seen, _, push, pops⟩ := run_hands_out_once [4, 2, 4] steps
  have given : ((ofList [4, 2, 4]).run steps).1 = answers := (congrArg Prod.fst agrees).symm
  have waiting : ((ofList [4, 2, 4]).run steps).2.waiting = [7] :=
    (congrArg (fun run => run.2.waiting) agrees).symm
  refine ⟨inferInstance, inferInstance, given, ?_, ?_, ?_⟩
  · exact seen.trans (by decide)
  · rw [push 4, given]
    rfl
  · rw [pops 2, given, waiting]
    rfl

end View

end ContextFree.Worklist
