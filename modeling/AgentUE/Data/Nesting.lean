import AgentUE.Data.DocTree

/-!
# How deep a document nests

`fits p n t` bounds the nesting of a tree and checks its leaves. A write keeps the bound of the whole exactly when
the value that is written keeps what is left of it at its place.
-/

namespace AgentUE.Data

/-- Every value of a list of fields satisfies `P`, after a write to one of them. -/
theorem Fields.forall_set_iff {κ β : Type} [DecidableEq κ] {P : β → Prop} {fs : List (κ × β)} (hfs : ∀ q ∈ fs, P q.2)
    (k : κ) (v : β) : (∀ q ∈ Fields.set fs k v, P q.2) ↔ P v := by
  induction fs with
  | nil => simp [Fields.set]
  | cons p rest ih =>
    obtain ⟨hp, hrest⟩ := List.forall_mem_cons.mp hfs
    obtain ⟨k', w⟩ := p
    by_cases hk : k' = k
    · rw [Fields.set, if_pos hk, List.forall_mem_cons]
      exact ⟨fun h => h.1, fun h => ⟨h, hrest⟩⟩
    · rw [Fields.set, if_neg hk, List.forall_mem_cons, ih hrest]
      exact ⟨fun h => h.2, fun h => ⟨hp, h⟩⟩

namespace DocTree

variable {κ α : Type}

mutual

/-- Every leaf satisfies `p`, and no more than `n` lists and objects are nested in each other. -/
def fits (p : α → Bool) : ℕ → DocTree κ α → Bool
  | _, .leaf a => p a
  | 0, _ => false
  | n + 1, .arr xs => fitsList p n xs
  | n + 1, .obj fs => fitsFields p n fs

/-- `fits` on the elements of a list. -/
def fitsList (p : α → Bool) : ℕ → List (DocTree κ α) → Bool
  | _, [] => true
  | n, x :: xs => fits p n x && fitsList p n xs

/-- `fits` on the entries of an object. -/
def fitsFields (p : α → Bool) : ℕ → List (κ × DocTree κ α) → Bool
  | _, [] => true
  | n, (_, v) :: fs => fits p n v && fitsFields p n fs

end

variable {p : α → Bool} {n : ℕ}

@[simp] theorem fits_leaf {a : α} : fits p n (.leaf a : DocTree κ α) = p a := by
  cases n <;> rfl

theorem fitsList_iff {xs : List (DocTree κ α)} : fitsList p n xs = true ↔ ∀ x ∈ xs, fits p n x = true := by
  induction xs with
  | nil => simp [fitsList]
  | cons x xs ih => rw [fitsList, Bool.and_eq_true, ih, List.forall_mem_cons]

theorem fitsFields_iff {fs : List (κ × DocTree κ α)} :
    fitsFields p n fs = true ↔ ∀ q ∈ fs, fits p n q.2 = true := by
  induction fs with
  | nil => simp [fitsFields]
  | cons q fs ih => rw [fitsFields, Bool.and_eq_true, ih, List.forall_mem_cons]

theorem fits_arr_iff {xs : List (DocTree κ α)} : fits p (n + 1) (.arr xs) = true ↔ ∀ x ∈ xs, fits p n x = true :=
  fitsList_iff

theorem fits_obj_iff {fs : List (κ × DocTree κ α)} :
    fits p (n + 1) (.obj fs) = true ↔ ∀ q ∈ fs, fits p n q.2 = true :=
  fitsFields_iff

/-- What fits is an object within some bound. -/
theorem exists_of_fits_obj {fs : List (κ × DocTree κ α)} (h : fits p n (.obj fs) = true) :
    ∃ m, n = m + 1 ∧ ∀ q ∈ fs, fits p m q.2 = true := by
  cases n with
  | zero => cases h
  | succ m => exact ⟨m, rfl, fits_obj_iff.mp h⟩

theorem fits_map {β : Type} {f : β → α} (t : DocTree κ β) (n : ℕ) : fits p n (map f t) = fits (p ∘ f) n t := by
  induction t using induct generalizing n with
  | leaf a => rw [map, fits_leaf, fits_leaf, Function.comp_apply]
  | arr xs ih =>
    cases n with
    | zero => rfl
    | succ n =>
      rw [map, mapList_eq_map, Bool.eq_iff_iff, fits_arr_iff, fits_arr_iff, List.forall_mem_map]
      exact forall₂_congr fun x hx => by rw [ih x hx]
  | obj fs ih =>
    cases n with
    | zero => rfl
    | succ n =>
      rw [map, mapFields_eq_map, Bool.eq_iff_iff, fits_obj_iff, fits_obj_iff, List.forall_mem_map]
      exact forall₂_congr fun q hq => by rw [ih q hq]

/-- The leaves that a renaming leaves alone. -/
theorem fits_iff_map_eq {f : α → α} (hp : ∀ a, p a = true ↔ f a = a) {t : DocTree κ α} {n : ℕ} :
    fits p n t = true ↔ fits (fun _ => true) n t = true ∧ map f t = t := by
  induction t using induct generalizing n with
  | leaf a => simp [map, hp]
  | arr xs ih =>
    cases n with
    | zero => simp [fits]
    | succ n =>
      have hmap : xs.map (map f) = xs ↔ ∀ x ∈ xs, map f x = x := by
        conv_lhs => rhs; rw [← List.map_id xs]
        exact List.map_inj_left
      rw [map, mapList_eq_map, arr.injEq, hmap, fits_arr_iff, fits_arr_iff, ← forall₂_and]
      exact forall₂_congr fun x hx => ih x hx
  | obj fs ih =>
    cases n with
    | zero => simp [fits]
    | succ n =>
      have hmap : fs.map (fun q => (q.1, map f q.2)) = fs ↔ ∀ q ∈ fs, map f q.2 = q.2 := by
        conv_lhs => rhs; rw [← List.map_id fs]
        rw [List.map_inj_left]
        exact forall₂_congr fun q _ => Prod.ext_iff.trans (and_iff_right rfl)
      rw [map, mapFields_eq_map, obj.injEq, hmap, fits_obj_iff, fits_obj_iff, ← forall₂_and]
      exact forall₂_congr fun q hq => ih q hq

/-- The value at the end of a path leaves room for the objects on the way. -/
def fitsAt (p : α → Bool) (n : ℕ) (path : List κ) (v : DocTree κ α) : Bool :=
  decide (path.length ≤ n) && fits p (n - path.length) v

variable [DecidableEq κ]

theorem fits_get? {fs : List (κ × DocTree κ α)} (h : ∀ q ∈ fs, fits p n q.2 = true) {k : κ} {v : DocTree κ α}
    (hv : Fields.get? fs k = some v) : fits p n v = true :=
  h (k, v) (Fields.mem_of_get? hv)

theorem fits_set_iff {fs : List (κ × DocTree κ α)} (h : fits p (n + 1) (.obj fs) = true) (k : κ) (v : DocTree κ α) :
    fits p (n + 1) (.obj (Fields.set fs k v)) = true ↔ fits p n v = true := by
  rw [fits_obj_iff] at h ⊢
  exact Fields.forall_set_iff (P := fun x => fits p n x = true) h k v

/-- The object under a key, if there is room for one. -/
theorem fits_childAt {fs : List (κ × DocTree κ α)} (h : fits p (n + 2) (.obj fs) = true) (k : κ) :
    fits p (n + 1) (.obj (childAt fs k)) = true := by
  rw [fits_obj_iff] at h
  unfold childAt
  cases hk : Fields.get? fs k with
  | none => rfl
  | some v =>
    cases v with
    | leaf a => rfl
    | arr xs => rfl
    | obj gs => exact fits_get? h hk

/-- A write keeps the bound exactly when the value fits at the end of its path. -/
theorem fits_writeAt_iff {fs : List (κ × DocTree κ α)} {path : List κ} (hne : path ≠ [])
    (h : fits p n (.obj fs) = true) (v : DocTree κ α) :
    fits p n (.obj (writeAt fs path v)) = true ↔ fitsAt p n path v = true := by
  induction path generalizing fs n with
  | nil => exact absurd rfl hne
  | cons k rest ih =>
    obtain ⟨m, rfl, -⟩ := exists_of_fits_obj h
    cases rest with
    | nil =>
      rw [writeAt, fits_set_iff h]
      simp [fitsAt]
    | cons j rest =>
      rw [writeAt_cons_cons, fits_set_iff h]
      cases m with
      | zero => simp [fits, fitsAt]
      | succ m =>
        rw [ih (List.cons_ne_nil j rest) (fits_childAt h k)]
        simp [fitsAt]

end DocTree

end AgentUE.Data
