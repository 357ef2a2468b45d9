import AgentUE.Data.DocTree

/-!
# Objects without repeated keys

A tree is distinct when no object in it lists a key twice. `collect` sets the entries of a list one after the
other, as a reader does that keeps the last value of a key: it leaves a list alone exactly when its keys are
distinct, and otherwise makes it shorter.
-/

namespace AgentUE.Data

namespace Fields

variable {κ β : Type} [DecidableEq κ]

/-- The entries of a list, set one after the other. -/
def collect (fs : List (κ × β)) : List (κ × β) := fs.foldl (fun gs p => set gs p.1 p.2) []

theorem collect_concat (fs : List (κ × β)) (p : κ × β) : collect (fs ++ [p]) = set (collect fs) p.1 p.2 := by
  rw [collect, List.foldl_append]
  rfl

theorem map_fst_set (fs : List (κ × β)) (k : κ) (v : β) :
    (set fs k v).map Prod.fst = if k ∈ fs.map Prod.fst then fs.map Prod.fst else fs.map Prod.fst ++ [k] := by
  induction fs with
  | nil => rfl
  | cons p rest ih =>
    by_cases hk : p.1 = k
    · simp [set, hk]
    · have hk' : k ≠ p.1 := Ne.symm hk
      simp only [set, hk, if_false, List.map_cons, ih, List.mem_cons, hk', false_or]
      split_ifs <;> rfl

theorem set_of_not_mem_map_fst {fs : List (κ × β)} {k : κ} (h : k ∉ fs.map Prod.fst) (v : β) :
    set fs k v = fs ++ [(k, v)] := by
  induction fs with
  | nil => rfl
  | cons p rest ih =>
    simp only [List.map_cons, List.mem_cons, not_or] at h
    rw [set, if_neg (Ne.symm h.1), ih h.2, List.cons_append]

theorem nodup_collect (fs : List (κ × β)) : ((collect fs).map Prod.fst).Nodup := by
  induction fs using List.reverseRecOn with
  | nil => exact List.nodup_nil
  | append_singleton fs p ih =>
    rw [collect_concat, map_fst_set]
    split_ifs with h
    · exact ih
    · exact List.nodup_append.mpr ⟨ih, List.nodup_singleton _, by rintro a ha b hb rfl; simp_all⟩

theorem mem_set {fs : List (κ × β)} {k : κ} {v : β} {p : κ × β} (h : p ∈ set fs k v) : p ∈ fs ∨ p = (k, v) := by
  induction fs with
  | nil => exact .inr (by simpa [set] using h)
  | cons q rest ih =>
    rw [set] at h
    split_ifs at h
    · rcases List.mem_cons.mp h with rfl | h
      · exact .inr (by simp_all)
      · exact .inl (List.mem_cons_of_mem q h)
    · rcases List.mem_cons.mp h with rfl | h
      · exact .inl List.mem_cons_self
      · exact (ih h).imp_left (List.mem_cons_of_mem q)

theorem mem_collect {fs : List (κ × β)} {p : κ × β} (h : p ∈ collect fs) : p ∈ fs := by
  induction fs using List.reverseRecOn with
  | nil => exact h
  | append_singleton fs q ih =>
    rw [collect_concat] at h
    rcases mem_set h with h | rfl
    · exact List.mem_append_left _ (ih h)
    · simp

theorem collect_eq_self {fs : List (κ × β)} (h : (fs.map Prod.fst).Nodup) : collect fs = fs := by
  induction fs using List.reverseRecOn with
  | nil => rfl
  | append_singleton fs p ih =>
    rw [List.map_append, List.nodup_append] at h
    have hp : p.1 ∉ fs.map Prod.fst := fun hmem => h.2.2 p.1 hmem p.1 (by simp) rfl
    rw [collect_concat, ih h.1, set_of_not_mem_map_fst hp]

/-- A list of which no entry is lost has distinct keys. -/
theorem collect_eq_self_of_length {fs : List (κ × β)} (h : fs.length ≤ (collect fs).length) : collect fs = fs := by
  have hsubset : (collect fs).map Prod.fst ⊆ fs.map Prod.fst := List.map_subset _ fun _ => mem_collect
  have hsubperm := List.subperm_of_subset (nodup_collect fs) hsubset
  have hperm := hsubperm.perm_of_length_le (by simpa using h)
  exact collect_eq_self (hperm.nodup_iff.mp (nodup_collect fs))

end Fields

namespace DocTree

variable {κ α : Type} [DecidableEq κ]

mutual

/-- No object lists a key twice. -/
def distinct : DocTree κ α → Bool
  | .leaf _ => true
  | .arr xs => distinctList xs
  | .obj fs => decide (fs.map Prod.fst).Nodup && distinctFields fs

/-- `distinct` on the elements of a list. -/
def distinctList : List (DocTree κ α) → Bool
  | [] => true
  | x :: xs => distinct x && distinctList xs

/-- `distinct` on the entries of an object. -/
def distinctFields : List (κ × DocTree κ α) → Bool
  | [] => true
  | (_, v) :: fs => distinct v && distinctFields fs

end

theorem distinct_arr_iff {xs : List (DocTree κ α)} : distinct (.arr xs) = true ↔ ∀ x ∈ xs, distinct x = true := by
  rw [distinct]
  induction xs with
  | nil => simp [distinctList]
  | cons x xs ih => rw [distinctList, Bool.and_eq_true, ih, List.forall_mem_cons]

theorem distinct_obj_iff {fs : List (κ × DocTree κ α)} :
    distinct (.obj fs) = true ↔ (fs.map Prod.fst).Nodup ∧ ∀ p ∈ fs, distinct p.2 = true := by
  have hfields : distinctFields fs = true ↔ ∀ p ∈ fs, distinct p.2 = true := by
    induction fs with
    | nil => simp [distinctFields]
    | cons p fs ih => rw [distinctFields, Bool.and_eq_true, ih, List.forall_mem_cons]
  rw [distinct, Bool.and_eq_true, decide_eq_true_eq, hfields]

end DocTree

end AgentUE.Data
