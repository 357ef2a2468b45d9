import Mathlib.Data.Finset.Card
import Mathlib.Data.List.Forall2

/-!
# Finite maps as association lists

`List (κ × β)` read as a finite map: the first entry of a key is its value, `set` overwrites that
entry in place or appends a new one, so the order of first insertion is kept. Every operation depends
on the list only through `get?` and the set of keys, so a shadowed second entry is never observed.
-/

namespace AgentUE.Data

namespace Fields

variable {κ : Type*} {β γ : Type*} [DecidableEq κ]

/-- The value stored under `k`, if any. -/
def get? : List (κ × β) → κ → Option β
  | [], _ => none
  | (k', v) :: rest, k => if k' = k then some v else get? rest k

/-- Whether `k` is stored. -/
def has (fs : List (κ × β)) (k : κ) : Bool := (get? fs k).isSome

/-- Overwrite the value of `k` in place, or append `k` at the end. -/
def set : List (κ × β) → κ → β → List (κ × β)
  | [], k, v => [(k, v)]
  | (k', v') :: rest, k, v => if k' = k then (k', v) :: rest else (k', v') :: set rest k v

/-- The stored keys, in order. -/
def keys (fs : List (κ × β)) : List κ := fs.map Prod.fst

/-- The number of distinct keys. -/
def size (fs : List (κ × β)) : ℕ := (keys fs).dedup.length

@[simp] theorem get?_nil (k : κ) : get? ([] : List (κ × β)) k = none := rfl

theorem get?_cons (k' : κ) (v : β) (fs : List (κ × β)) (k : κ) :
    get? ((k', v) :: fs) k = if k' = k then some v else get? fs k := rfl

theorem get?_append (fs gs : List (κ × β)) (k : κ) : get? (fs ++ gs) k = (get? fs k).or (get? gs k) := by
  induction fs with
  | nil => rfl
  | cons p fs ih =>
    obtain ⟨j, v⟩ := p
    rw [List.cons_append, get?_cons, get?_cons]
    split_ifs
    · rfl
    · exact ih

/-- A member that is there only when it has a value. -/
theorem get?_optional {α : Type} (o : Option α) (j : κ) (f : α → β) (k : κ) :
    get? (o.map fun a => (j, f a)).toList k = if j = k then o.map f else none := by
  cases o with
  | none => exact (ite_self _).symm
  | some a => rw [Option.map_some, Option.toList_some, get?_cons, get?_nil, Option.map_some]

theorem mem_of_get? {fs : List (κ × β)} {k : κ} {v : β} (h : get? fs k = some v) : (k, v) ∈ fs := by
  induction fs with
  | nil => cases h
  | cons p rest ih =>
    obtain ⟨k', v'⟩ := p
    rw [get?_cons] at h
    split_ifs at h with hk
    · obtain rfl := Option.some.inj h
      exact hk ▸ List.mem_cons_self
    · exact List.mem_cons_of_mem _ (ih h)

/-- Reading back the key just written. -/
@[simp] theorem get?_set_self (fs : List (κ × β)) (k : κ) (v : β) : get? (set fs k v) k = some v := by
  induction fs with
  | nil => simp [set, get?_cons]
  | cons p rest ih =>
    obtain ⟨k', v'⟩ := p
    by_cases hk : k' = k
    · simp [set, hk, get?_cons]
    · simp [set, hk, get?_cons, ih]

/-- Any other key is unaffected by the write. -/
theorem get?_set_ne (fs : List (κ × β)) {k j : κ} (v : β) (h : j ≠ k) :
    get? (set fs k v) j = get? fs j := by
  induction fs with
  | nil => simp [set, get?_cons, Ne.symm h]
  | cons p rest ih =>
    obtain ⟨k', v'⟩ := p
    by_cases hk : k' = k
    · subst hk
      simp [set, get?_cons, Ne.symm h]
    · simp only [set, hk, if_false, get?_cons, ih]

theorem get?_set (fs : List (κ × β)) (k j : κ) (v : β) :
    get? (set fs k v) j = if j = k then some v else get? fs j := by
  by_cases h : j = k
  · subst h
    simp
  · simp [h, get?_set_ne fs v h]

@[simp] theorem has_eq_true_iff (fs : List (κ × β)) (k : κ) : has fs k = true ↔ ∃ v, get? fs k = some v := by
  simp [has, Option.isSome_iff_exists]

@[simp] theorem has_eq_false_iff (fs : List (κ × β)) (k : κ) : has fs k = false ↔ get? fs k = none := by
  simp [has]

/-- A new key goes to the end. -/
theorem set_of_not_mem {fs : List (κ × β)} {k : κ} (h : k ∉ keys fs) (v : β) : set fs k v = fs ++ [(k, v)] := by
  induction fs with
  | nil => rfl
  | cons p rest ih =>
    obtain ⟨hne, hrest⟩ := List.ne_and_not_mem_of_not_mem_cons h
    rw [set, if_neg (Ne.symm hne), ih hrest, List.cons_append]

/-- Of two writes under one key the second counts. -/
theorem set_set (fs : List (κ × β)) (k : κ) (v w : β) : set (set fs k v) k w = set fs k w := by
  induction fs with
  | nil => simp [set]
  | cons p rest ih =>
    obtain ⟨k', v'⟩ := p
    by_cases hk : k' = k
    · simp [set, hk]
    · simp [set, hk, ih]

/-- Writes under two keys that are there commute; a new key would be appended behind the one that comes first. -/
theorem set_comm {fs : List (κ × β)} {j k : κ} (hne : j ≠ k) (hj : has fs j = true) (hk : has fs k = true) (v w : β) :
    set (set fs j v) k w = set (set fs k w) j v := by
  induction fs with
  | nil => simp at hj
  | cons p rest ih =>
    obtain ⟨i, u⟩ := p
    by_cases hij : i = j
    · subst hij
      simp [set, hne]
    by_cases hik : i = k
    · subst hik
      simp [set, hij]
    rw [has, get?_cons, if_neg hij] at hj
    rw [has, get?_cons, if_neg hik] at hk
    simp only [set, if_neg hij, if_neg hik, ih hj hk]

theorem has_set (fs : List (κ × β)) (k j : κ) (v : β) : has (set fs k v) j = (decide (j = k) || has fs j) := by
  rw [has, get?_set]
  by_cases h : j = k <;> simp [h, has]

/-- A key is stored exactly when it is listed. -/
theorem mem_keys_iff (fs : List (κ × β)) (k : κ) : k ∈ keys fs ↔ has fs k = true := by
  induction fs with
  | nil => simp [keys]
  | cons p rest ih =>
    obtain ⟨k', v⟩ := p
    by_cases hk : k' = k
    · simp [keys, get?_cons, hk]
    · have hk' : k ≠ k' := Ne.symm hk
      simp only [keys, List.map_cons, List.mem_cons, hk', false_or, has_eq_true_iff, get?_cons, hk,
        if_false] at ih ⊢
      exact ih

/-- A map that stores two distinct keys has size two exactly when it stores no other key. -/
theorem size_eq_two_iff {fs : List (κ × β)} {a b : κ} (hab : a ≠ b) (ha : has fs a = true)
    (hb : has fs b = true) : size fs = 2 ↔ ∀ k ∈ keys fs, k = a ∨ k = b := by
  have hcard : size fs = (keys fs).toFinset.card := by
    rw [size, List.card_toFinset]
  have hsub : ({a, b} : Finset κ) ⊆ (keys fs).toFinset := by
    intro k hk
    rw [List.mem_toFinset, mem_keys_iff]
    rcases Finset.mem_insert.mp hk with rfl | hk
    · exact ha
    · rw [Finset.mem_singleton] at hk
      rw [hk]
      exact hb
  rw [hcard]
  constructor
  · intro h k hk
    have heq : ({a, b} : Finset κ) = (keys fs).toFinset :=
      Finset.eq_of_subset_of_card_le hsub (by rw [h, Finset.card_pair hab])
    have hmem : k ∈ ({a, b} : Finset κ) := by
      rw [heq, List.mem_toFinset]
      exact hk
    simpa using hmem
  · intro h
    have heq : (keys fs).toFinset = {a, b} := by
      refine Finset.Subset.antisymm (fun k hk => ?_) hsub
      have := h k (List.mem_toFinset.mp hk)
      simpa using this
    rw [heq, Finset.card_pair hab]

/-! ## Maps related entry by entry -/

/-- Two entries of one key with values related by `R`. -/
inductive Entry (R : β → γ → Prop) : κ × β → κ × γ → Prop
  | mk {k v w} : R v w → Entry R (k, v) (k, w)

/-- Two maps list the same keys in the same order, with values related by `R`. -/
abbrev Related (R : β → γ → Prop) : List (κ × β) → List (κ × γ) → Prop := List.Forall₂ (Entry R)

variable {R : β → γ → Prop} {fs : List (κ × β)} {gs : List (κ × γ)}

theorem Related.get? (h : Related R fs gs) (k : κ) : Option.Rel R (get? fs k) (get? gs k) := by
  induction h with
  | nil => exact .none
  | cons hpq _ ih =>
    obtain @⟨k₁, v, w, hvw⟩ := hpq
    by_cases hk : k₁ = k
    · simpa [get?_cons, hk] using Option.Rel.some hvw
    · simpa [get?_cons, hk] using ih

theorem Related.set (h : Related R fs gs) (k : κ) {v : β} {w : γ} (hvw : R v w) :
    Related R (set fs k v) (set gs k w) := by
  induction h with
  | nil => exact .cons (.mk hvw) .nil
  | cons hpq hrest ih =>
    obtain @⟨k₁, v', w', hvw'⟩ := hpq
    by_cases hk : k₁ = k
    · simp only [Fields.set, hk, if_true]
      exact .cons (.mk hvw) hrest
    · simp only [Fields.set, hk, if_false]
      exact .cons (.mk hvw') ih

end Fields

end AgentUE.Data
