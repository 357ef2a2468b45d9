import Mathlib.Data.Option.Basic
import Mathlib.Logic.Function.Basic
import Mathlib.Order.Lattice

/-!
# Keys that disappear

A space of keys whose values may carry a deadline, read at a time: what is past its deadline is not there any more. A
write keeps the deadline of a key that is there, and a key that it creates has none.
-/

namespace AgentUE.Data

/-- A value with the last moment at which it is there, if there is one. -/
structure Held (α : Type) where
  value : α
  deadline : Option ℕ
deriving DecidableEq

namespace Expiring

variable {κ α : Type} [DecidableEq κ]

/-- What is there at `now`. -/
def heldAt (now : ℕ) (cell : Option (Held α)) : Option (Held α) :=
  cell.filter fun held => held.deadline.all fun d => decide (now ≤ d)

/-- The value that a reader sees. -/
def get (now : ℕ) (space : κ → Option (Held α)) (key : κ) : Option α := (heldAt now (space key)).map Held.value

/-- Write a value. -/
def put (now : ℕ) (key : κ) (value : α) (space : κ → Option (Held α)) : κ → Option (Held α) :=
  Function.update space key (some ⟨value, (heldAt now (space key)).bind Held.deadline⟩)

/-- Give a key that is there a new deadline. -/
def expire (now : ℕ) (key : κ) (lifetime : ℕ) (space : κ → Option (Held α)) : κ → Option (Held α) :=
  match heldAt now (space key) with
  | none => space
  | some held => Function.update space key (some { held with deadline := some (now + lifetime) })

/-- Remove a key. -/
def remove (key : κ) (space : κ → Option (Held α)) : κ → Option (Held α) := Function.update space key none

theorem heldAt_eq_some {now : ℕ} {cell : Option (Held α)} {held : Held α} :
    heldAt now cell = some held ↔ cell = some held ∧ ∀ d, held.deadline = some d → now ≤ d := by
  simp [heldAt, Option.all_eq_true]

/-- Later on, less is there. -/
theorem heldAt_heldAt {now later : ℕ} (h : now ≤ later) (cell : Option (Held α)) :
    heldAt later (heldAt now cell) = heldAt later cell := by
  ext held
  simp only [heldAt_eq_some]
  constructor
  · rintro ⟨⟨hcell, -⟩, hlater⟩
    exact ⟨hcell, hlater⟩
  · rintro ⟨hcell, hlater⟩
    exact ⟨⟨hcell, fun d hd => h.trans (hlater d hd)⟩, hlater⟩

omit [DecidableEq κ] in
theorem get_eq_some {now : ℕ} {space : κ → Option (Held α)} {key : κ} {value : α} :
    get now space key = some value ↔ ∃ held, heldAt now (space key) = some held ∧ held.value = value := by
  simp [get]

/-- A write keeps the deadline of its key. -/
theorem heldAt_put_self (now : ℕ) (key : κ) (value : α) (space : κ → Option (Held α)) :
    heldAt now (put now key value space key) = some ⟨value, (heldAt now (space key)).bind Held.deadline⟩ := by
  rw [put, Function.update_self, heldAt_eq_some]
  refine ⟨rfl, fun d hd => ?_⟩
  obtain ⟨held, hheld, hdeadline⟩ := Option.bind_eq_some_iff.mp hd
  exact (heldAt_eq_some.mp hheld).2 d hdeadline

theorem put_of_ne (now : ℕ) {key other : κ} (h : other ≠ key) (value : α) (space : κ → Option (Held α)) :
    put now key value space other = space other :=
  Function.update_of_ne h _ _

/-- After a write the readers see the value. -/
theorem get_put (now : ℕ) (key : κ) (value : α) (space : κ → Option (Held α)) :
    get now (put now key value space) = Function.update (get now space) key (some value) := by
  funext other
  by_cases h : other = key
  · subst h
    rw [Function.update_self, get, heldAt_put_self]
    rfl
  · rw [Function.update_of_ne h, get, put_of_ne now h, get]

theorem heldAt_expire_self (now : ℕ) (key : κ) (lifetime : ℕ) (space : κ → Option (Held α)) :
    heldAt now (expire now key lifetime space key) =
      (heldAt now (space key)).map fun held => { held with deadline := some (now + lifetime) } := by
  unfold expire
  cases h : heldAt now (space key) with
  | none => simpa using h
  | some held => simp [heldAt_eq_some]

theorem expire_of_ne (now : ℕ) {key other : κ} (h : other ≠ key) (lifetime : ℕ) (space : κ → Option (Held α)) :
    expire now key lifetime space other = space other := by
  unfold expire
  cases heldAt now (space key) with
  | none => rfl
  | some held => exact Function.update_of_ne h _ _

/-- A new deadline changes no value. -/
theorem get_expire (now : ℕ) (key : κ) (lifetime : ℕ) (space : κ → Option (Held α)) :
    get now (expire now key lifetime space) = get now space := by
  funext other
  by_cases h : other = key
  · subst h
    rw [get, heldAt_expire_self, Option.map_map, get]
    rfl
  · rw [get, expire_of_ne now h, get]

@[simp] theorem remove_self (key : κ) (space : κ → Option (Held α)) : remove key space key = none :=
  Function.update_self ..

theorem remove_of_ne {key other : κ} (h : other ≠ key) (space : κ → Option (Held α)) :
    remove key space other = space other :=
  Function.update_of_ne h _ _

theorem get_remove (now : ℕ) (key : κ) (space : κ → Option (Held α)) :
    get now (remove key space) = Function.update (get now space) key none := by
  funext other
  by_cases h : other = key
  · subst h
    rw [Function.update_self, get, remove_self]
    rfl
  · rw [Function.update_of_ne h, get, remove_of_ne h, get]

end Expiring

end AgentUE.Data
