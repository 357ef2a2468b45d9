import Mathlib.Data.Option.Basic
import Mathlib.Order.Lattice

/-!
# Locks with a lifetime

A lock is a key that only an absent key lets one set, that its holder deletes, and that disappears when its
lifetime is over. It excludes as long as it does not disappear under its holder: `Owned` is the invariant.
-/

namespace AgentUE.Data

/-- A key with the party that has set it and the time at which it disappears. -/
structure Lease (ι : Type) where
  holder : ι
  expires : ℕ
deriving DecidableEq

/-- A key as it is at `time`. -/
def leaseAt {ι : Type} (time : ℕ) (key : Option (Lease ι)) : Option (Lease ι) :=
  key.filter fun lease => decide (time < lease.expires)

/-- Whoever is inside has set the key. -/
def Owned {ι : Type} (inside : ι → Prop) (key : Option (Lease ι)) : Prop :=
  ∀ i, inside i → ∃ lease, key = some lease ∧ lease.holder = i

namespace Owned

variable {ι : Type} {inside inside' : ι → Prop} {key : Option (Lease ι)}

theorem holder_eq (h : Owned inside key) {i : ι} (hi : inside i) : ∀ lease ∈ key, lease.holder = i := by
  obtain ⟨lease, rfl, hholder⟩ := h i hi
  rintro _ ⟨⟩
  exact hholder

theorem exclusive (h : Owned inside key) {i j : ι} (hi : inside i) (hj : inside j) : i = j := by
  obtain ⟨lease, hkey, hholder⟩ := h i hi
  rw [← hholder]
  exact h.holder_eq hj lease hkey

theorem mono (h : Owned inside key) (hsub : ∀ i, inside' i → inside i) : Owned inside' key :=
  fun i hi => h i (hsub i hi)

/-- An absent key means that nobody is inside. -/
theorem not_inside (h : Owned inside none) (i : ι) : ¬ inside i := by
  intro hi
  obtain ⟨_, habsurd, -⟩ := h i hi
  exact absurd habsurd (by simp)

/-- One party sets an absent key. -/
theorem acquire (h : Owned inside none) {lease : Lease ι} (hsub : ∀ i, inside' i → inside i ∨ lease.holder = i) :
    Owned inside' (some lease) := by
  intro i hi
  rcases hsub i hi with hinside | hholder
  · exact absurd hinside (h.not_inside i)
  · exact ⟨lease, rfl, hholder⟩

/-- The holder deletes the key and leaves. -/
theorem release (h : Owned inside key) {i : ι} (hi : inside i) (hsub : ∀ j, inside' j → inside j ∧ j ≠ i) :
    Owned inside' none := by
  intro j hj
  obtain ⟨hinside, hne⟩ := hsub j hj
  exact absurd (h.exclusive hinside hi) hne

/-- Time passes, but no lifetime ends under a holder. -/
theorem elapse (h : Owned inside key) {time : ℕ}
    (hlives : ∀ lease ∈ key, inside lease.holder → time < lease.expires) : Owned inside (leaseAt time key) := by
  intro i hi
  obtain ⟨lease, rfl, rfl⟩ := h i hi
  exact ⟨lease, by simpa [leaseAt] using hlives lease rfl hi, rfl⟩

end Owned

end AgentUE.Data
