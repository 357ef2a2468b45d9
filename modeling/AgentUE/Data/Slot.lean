import Mathlib.Data.List.Basic

/-!
# Slots for tasks

A slot keeps the task that runs in it. A task that is taken out of its slot is asked to end; it ends when it likes.
-/

namespace AgentUE.Data

/-- Whether a task has been asked to end, and whether it has ended. -/
structure SlotTask where
  cancelled : Bool
  done : Bool
deriving DecidableEq

/-- The task of the slot, and all that have been in it. -/
structure Slot where
  current : Option ℕ
  tasks : List SlotTask
deriving DecidableEq

namespace Slot

/-- A slot without a task. -/
def empty : Slot := ⟨none, []⟩

/-- A new task. -/
def spawn (s : Slot) : Slot := ⟨some s.tasks.length, s.tasks ++ [⟨false, false⟩]⟩

/-- Take the task out and ask it to end. -/
def take (s : Slot) : Slot :=
  match s.current with
  | none => s
  | some n => ⟨none, s.tasks.modify n fun task => { task with cancelled := true }⟩

/-- A task ends. -/
def finish (n : ℕ) (s : Slot) : Slot := { s with tasks := s.tasks.modify n fun task => { task with done := true } }

/-- A task has ended. -/
def isDone (n : ℕ) (s : Slot) : Bool := s.tasks[n]?.any SlotTask.done

/-- There is no task in the slot, or it has ended. -/
def isFree (s : Slot) : Bool := s.current.all fun n => s.isDone n

/-- The task in the slot has not been asked to end, and every other one has ended or has been asked to. -/
structure Owned (s : Slot) : Prop where
  current : ∀ n, s.current = some n → ∃ task, s.tasks[n]? = some task ∧ task.cancelled = false
  others : ∀ n task, s.tasks[n]? = some task → s.current = some n ∨ task.done = true ∨ task.cancelled = true

theorem owned_empty : empty.Owned := ⟨by simp [empty], by simp [empty]⟩

@[simp] theorem current_take (s : Slot) : s.take.current = none := by
  unfold take
  cases h : s.current with
  | none => exact h
  | some n => rfl

@[simp] theorem current_spawn (s : Slot) : s.spawn.current = some s.tasks.length := rfl

@[simp] theorem current_finish (n : ℕ) (s : Slot) : (s.finish n).current = s.current := rfl

theorem isDone_spawn (s : Slot) : s.spawn.isDone s.tasks.length = false := by
  simp [isDone, spawn]

/-- A task that has ended has ended by then, or does so now. -/
theorem isDone_finish {m n : ℕ} {s : Slot} (h : (s.finish m).isDone n = true) : m = n ∨ s.isDone n = true := by
  rw [or_iff_not_imp_left]
  intro hne
  simpa [isDone, finish, List.getElem?_modify, hne] using h

/-- A new task in a slot whose task has ended. -/
theorem Owned.spawn {s : Slot} (h : s.Owned) (hfree : s.isFree = true) : s.spawn.Owned where
  current := by
    rintro n ⟨⟩
    exact ⟨⟨false, false⟩, by simp [Slot.spawn], rfl⟩
  others n task htask := by
    rw [Slot.spawn, List.getElem?_append] at htask
    split_ifs at htask with hlt
    · right
      rcases h.others n task htask with hcurrent | hended
      · have hdone : s.isDone n = true := by simpa [isFree, hcurrent] using hfree
        exact .inl (by simpa [isDone, htask] using hdone)
      · exact hended
    · have hlast : n - s.tasks.length = 0 := by
        by_contra hne
        rw [List.getElem?_eq_none (by simp; omega)] at htask
        simp at htask
      refine .inl ?_
      rw [current_spawn, Option.some.injEq]
      omega

theorem Owned.take {s : Slot} (h : s.Owned) : s.take.Owned where
  current := by simp
  others m task htask := by
    right
    unfold Slot.take at htask
    cases hcurrent : s.current with
    | none =>
      rw [hcurrent] at htask
      exact (h.others m task htask).resolve_left (by simp [hcurrent])
    | some n =>
      simp only [hcurrent, List.getElem?_modify, Option.map_eq_map, Option.map_eq_some_iff] at htask
      obtain ⟨before, hbefore, rfl⟩ := htask
      by_cases heq : n = m
      · exact .inr (by simp [heq])
      · rcases h.others m before hbefore with hcurrent' | hended
        · exact absurd (Option.some.inj (hcurrent.symm.trans hcurrent')) heq
        · simpa [heq] using hended

theorem Owned.finish {s : Slot} (h : s.Owned) (n : ℕ) : (s.finish n).Owned where
  current m hcurrent := by
    obtain ⟨task, htask, hcancelled⟩ := h.current m hcurrent
    refine ⟨if n = m then { task with done := true } else task, ?_, ?_⟩
    · simp only [Slot.finish, List.getElem?_modify, htask]
      rfl
    · split_ifs <;> exact hcancelled
  others m task htask := by
    simp only [Slot.finish, List.getElem?_modify, Option.map_eq_map, Option.map_eq_some_iff] at htask
    obtain ⟨before, hbefore, rfl⟩ := htask
    rcases h.others m before hbefore with hcurrent | hdone | hcancelled
    · exact .inl hcurrent
    · exact .inr (.inl (by split_ifs <;> simp [hdone]))
    · exact .inr (.inr (by split_ifs <;> simp [hcancelled]))

/-- What has been in a slot that is empty has ended or has been asked to. -/
theorem Owned.released {s : Slot} (h : s.Owned) (hnone : s.current = none) :
    ∀ task ∈ s.tasks, task.done = true ∨ task.cancelled = true := by
  intro task hmem
  obtain ⟨n, htask⟩ := List.getElem?_of_mem hmem
  exact (h.others n task htask).resolve_left (by simp [hnone])

end Slot

end AgentUE.Data
