import AgentUE.Data.Fields

/-!
# Document trees

Ordered lists and keyed objects over an arbitrary alphabet of leaves. A path is a list of object keys;
`writeAt` is the usual "create the missing objects on the way" assignment. `Rel r` relates two trees
of the same shape whose leaves are related by `r`: all operations preserve it, whatever `r` is, so two
programs that run the same operations over different leaf alphabets stay in step.
-/

namespace AgentUE.Data

/-- A document: a leaf, a list of documents or a keyed object. -/
inductive DocTree (κ : Type) (α : Type) where
  | leaf (a : α)
  | arr (xs : List (DocTree κ α))
  | obj (fs : List (κ × DocTree κ α))

namespace DocTree

variable {κ : Type} {α β γ : Type}

/-- Induction with hypotheses for the members of a list or an object. -/
@[elab_as_elim]
theorem induct {P : DocTree κ α → Prop} (leaf : ∀ a, P (.leaf a))
    (arr : ∀ xs, (∀ x ∈ xs, P x) → P (.arr xs))
    (obj : ∀ fs : List (κ × DocTree κ α), (∀ p ∈ fs, P p.2) → P (.obj fs)) (t : DocTree κ α) : P t := by
  refine @DocTree.rec κ α P (fun xs => ∀ x ∈ xs, P x) (fun fs => ∀ p ∈ fs, P p.2) (fun p => P p.2)
    leaf (fun xs ih => arr xs ih) (fun fs ih => obj fs ih) ?_ ?_ ?_ ?_ ?_ t
  · simp
  · intro x xs hx hxs y hy
    rcases List.mem_cons.mp hy with rfl | hy
    · exact hx
    · exact hxs y hy
  · simp
  · intro p fs hp hfs q hq
    rcases List.mem_cons.mp hq with rfl | hq
    · exact hp
    · exact hfs q hq
  · exact fun _ _ h => h

mutual

/-- Structural equality of trees. -/
def decEq [DecidableEq κ] [DecidableEq α] : (s t : DocTree κ α) → Decidable (s = t)
  | .leaf a, .leaf b => decidable_of_iff (a = b) (by simp)
  | .arr xs, .arr ys =>
    match decEqList xs ys with
    | isTrue h => isTrue (by rw [h])
    | isFalse h => isFalse (by simpa using h)
  | .obj fs, .obj gs =>
    match decEqFields fs gs with
    | isTrue h => isTrue (by rw [h])
    | isFalse h => isFalse (by simpa using h)
  | .leaf _, .arr _ => isFalse (by simp)
  | .leaf _, .obj _ => isFalse (by simp)
  | .arr _, .leaf _ => isFalse (by simp)
  | .arr _, .obj _ => isFalse (by simp)
  | .obj _, .leaf _ => isFalse (by simp)
  | .obj _, .arr _ => isFalse (by simp)

/-- `decEq` on the elements of two lists. -/
def decEqList [DecidableEq κ] [DecidableEq α] : (xs ys : List (DocTree κ α)) → Decidable (xs = ys)
  | [], [] => isTrue rfl
  | x :: xs, y :: ys =>
    match decEq x y, decEqList xs ys with
    | isTrue h₁, isTrue h₂ => isTrue (by rw [h₁, h₂])
    | isFalse h, _ => isFalse (by simp [h])
    | _, isFalse h => isFalse (by simp [h])
  | [], _ :: _ => isFalse (by simp)
  | _ :: _, [] => isFalse (by simp)

/-- `decEq` on the entries of two objects. -/
def decEqFields [DecidableEq κ] [DecidableEq α] :
    (fs gs : List (κ × DocTree κ α)) → Decidable (fs = gs)
  | [], [] => isTrue rfl
  | (k, x) :: fs, (j, y) :: gs =>
    match decEq x y, decEqFields fs gs with
    | isTrue h₁, isTrue h₂ => decidable_of_iff (k = j) (by simp [h₁, h₂])
    | isFalse h, _ => isFalse (by simp [h])
    | _, isFalse h => isFalse (by simp [h])
  | [], _ :: _ => isFalse (by simp)
  | _ :: _, [] => isFalse (by simp)

end

instance [DecidableEq κ] [DecidableEq α] : DecidableEq (DocTree κ α) := decEq

mutual

/-- Rename every leaf. -/
def map (f : α → β) : DocTree κ α → DocTree κ β
  | .leaf a => .leaf (f a)
  | .arr xs => .arr (mapList f xs)
  | .obj fs => .obj (mapFields f fs)

/-- `map` on the elements of a list. -/
def mapList (f : α → β) : List (DocTree κ α) → List (DocTree κ β)
  | [] => []
  | x :: xs => map f x :: mapList f xs

/-- `map` on the entries of an object. -/
def mapFields (f : α → β) : List (κ × DocTree κ α) → List (κ × DocTree κ β)
  | [] => []
  | (k, v) :: fs => (k, map f v) :: mapFields f fs

end

/-- The members of an object; `none` for a leaf or a list. -/
def asObj : DocTree κ α → Option (List (κ × DocTree κ α))
  | .obj fs => some fs
  | _ => none

/-- The elements of a list; `none` for a leaf or an object. -/
def asArr : DocTree κ α → Option (List (DocTree κ α))
  | .arr xs => some xs
  | _ => none

@[simp] theorem asObj_eq_some {t : DocTree κ α} {fs : List (κ × DocTree κ α)} :
    t.asObj = some fs ↔ t = .obj fs := by
  cases t <;> simp [asObj]

@[simp] theorem asArr_eq_some {t : DocTree κ α} {xs : List (DocTree κ α)} :
    t.asArr = some xs ↔ t = .arr xs := by
  cases t <;> simp [asArr]

/-- The objects of a list; `none` when some element is not an object. -/
def asObjs : List (DocTree κ α) → Option (List (List (κ × DocTree κ α)))
  | [] => some []
  | .obj fs :: xs => (asObjs xs).map (fs :: ·)
  | _ :: _ => none

theorem asObjs_map_obj (bs : List (List (κ × DocTree κ α))) : asObjs (bs.map DocTree.obj) = some bs := by
  induction bs with
  | nil => rfl
  | cons b bs ih => rw [List.map_cons, asObjs, ih, Option.map_some]

@[simp] theorem asObjs_eq_some {xs : List (DocTree κ α)} {bs : List (List (κ × DocTree κ α))} :
    asObjs xs = some bs ↔ xs = bs.map DocTree.obj := by
  constructor
  · intro h
    induction xs generalizing bs with
    | nil =>
      obtain rfl : [] = bs := by simpa [asObjs] using h
      rfl
    | cons x xs ih =>
      cases x with
      | leaf a => simp [asObjs] at h
      | arr ys => simp [asObjs] at h
      | obj fs =>
        rw [asObjs, Option.map_eq_some_iff] at h
        obtain ⟨rest, hrest, rfl⟩ := h
        rw [List.map_cons, ih hrest]
  · rintro rfl
    exact asObjs_map_obj bs

variable [DecidableEq κ]

/-- The object stored under `k`, or the empty object when there is none. -/
def childAt (fs : List (κ × DocTree κ α)) (k : κ) : List (κ × DocTree κ α) :=
  ((Fields.get? fs k).bind asObj).getD []

/-- Assign `v` at a path, replacing whatever is not an object on the way by a new object. -/
def writeAt : List (κ × DocTree κ α) → List κ → DocTree κ α → List (κ × DocTree κ α)
  | fs, [], _ => fs
  | fs, [k], v => Fields.set fs k v
  | fs, k :: rest, v => Fields.set fs k (.obj (writeAt (childAt fs k) rest v))

theorem writeAt_cons_cons (fs : List (κ × DocTree κ α)) (k j : κ) (rest : List κ) (v : DocTree κ α) :
    writeAt fs (k :: j :: rest) v = Fields.set fs k (.obj (writeAt (childAt fs k) (j :: rest) v)) := rfl

/-- A write touches only the first key of its path. -/
theorem get?_writeAt_ne (fs : List (κ × DocTree κ α)) (k : κ) (rest : List κ) (v : DocTree κ α) {j : κ}
    (h : j ≠ k) : Fields.get? (writeAt fs (k :: rest) v) j = Fields.get? fs j := by
  cases rest with
  | nil => exact Fields.get?_set_ne fs v h
  | cons i rest => exact Fields.get?_set_ne fs _ h

/-- What a write leaves under the first key of its path. -/
theorem get?_writeAt_self (fs : List (κ × DocTree κ α)) (k : κ) (rest : List κ) (v : DocTree κ α) :
    Fields.get? (writeAt fs (k :: rest) v) k =
      some (if rest = [] then v else .obj (writeAt (childAt fs k) rest v)) := by
  cases rest with
  | nil => simp [writeAt]
  | cons i rest => simp [writeAt]

/-! ## Renaming the leaves -/

section MapFields

variable {f : α → β}

theorem get?_mapFields (fs : List (κ × DocTree κ α)) (k : κ) :
    Fields.get? (mapFields f fs) k = (Fields.get? fs k).map (map f) := by
  induction fs with
  | nil => rfl
  | cons p rest ih =>
    obtain ⟨k', v⟩ := p
    by_cases hk : k' = k <;> simp [mapFields, Fields.get?_cons, hk, ih]

theorem has_mapFields (fs : List (κ × DocTree κ α)) (k : κ) :
    Fields.has (mapFields f fs) k = Fields.has fs k := by
  simp [Fields.has, get?_mapFields]

theorem mapFields_set (fs : List (κ × DocTree κ α)) (k : κ) (v : DocTree κ α) :
    mapFields f (Fields.set fs k v) = Fields.set (mapFields f fs) k (map f v) := by
  induction fs with
  | nil => rfl
  | cons p rest ih =>
    obtain ⟨k', w⟩ := p
    by_cases hk : k' = k <;> simp [mapFields, Fields.set, hk, ih]

theorem childAt_mapFields (fs : List (κ × DocTree κ α)) (k : κ) :
    childAt (mapFields f fs) k = mapFields f (childAt fs k) := by
  unfold childAt
  rw [get?_mapFields]
  cases Fields.get? fs k with
  | none => rfl
  | some v => cases v <;> rfl

/-- Renaming the leaves commutes with a write. -/
theorem mapFields_writeAt (fs : List (κ × DocTree κ α)) (p : List κ) (v : DocTree κ α) :
    mapFields f (writeAt fs p v) = writeAt (mapFields f fs) p (map f v) := by
  induction p generalizing fs with
  | nil => rfl
  | cons k rest ih =>
    cases rest with
    | nil => exact mapFields_set fs k v
    | cons j rest =>
      rw [writeAt_cons_cons, writeAt_cons_cons, mapFields_set, map, ih, childAt_mapFields]

end MapFields

/-! ## Observing a document -/

/-- One step into a document. -/
inductive Seg (κ : Type) where
  | key (k : κ)
  | idx (i : ℕ)
deriving DecidableEq

/-- What a node shows without descending: its leaf, or its kind with the length of a list. -/
inductive Shape (α : Type) where
  | leaf (a : α)
  | arr (n : ℕ)
  | obj
deriving DecidableEq

/-- The node at a path of keys and indices. -/
def probe : DocTree κ α → List (Seg κ) → Option (Shape α)
  | .leaf a, [] => some (.leaf a)
  | .arr xs, [] => some (.arr xs.length)
  | .obj _, [] => some .obj
  | .obj fs, .key k :: p =>
    match Fields.get? fs k with
    | some t => probe t p
    | none => none
  | .arr xs, .idx i :: p =>
    match xs[i]? with
    | some t => probe t p
    | none => none
  | _, _ :: _ => none
  termination_by _ p => p.length

/-- Equality of documents as values: no path tells them apart. Key order and shadowed entries do not
count. -/
def Same (s t : DocTree κ α) : Prop := ∀ p, probe s p = probe t p

theorem Same.refl (t : DocTree κ α) : Same t t := fun _ => rfl

theorem Same.symm {s t : DocTree κ α} (h : Same s t) : Same t s := fun p => (h p).symm

theorem Same.trans {s t u : DocTree κ α} (h₁ : Same s t) (h₂ : Same t u) : Same s u :=
  fun p => (h₁ p).trans (h₂ p)

/-! ## Trees of one shape -/

/-- Same shape and keys, with leaves related by `r`. -/
inductive Rel (r : α → β → Prop) : DocTree κ α → DocTree κ β → Prop
  | leaf {a b} : r a b → Rel r (.leaf a) (.leaf b)
  | arr {xs ys} : List.Forall₂ (Rel r) xs ys → Rel r (.arr xs) (.arr ys)
  | obj {fs gs} : List.Forall₂ (Fields.Entry (Rel r)) fs gs → Rel r (.obj fs) (.obj gs)

/-- Two objects of one shape, entry by entry. -/
abbrev RelFields (r : α → β → Prop) : List (κ × DocTree κ α) → List (κ × DocTree κ β) → Prop :=
  Fields.Related (Rel r)

/-- The same without an order of the members: two objects have related values at every key. -/
inductive Like (r : α → β → Prop) : DocTree κ α → DocTree κ β → Prop
  | leaf {a b} : r a b → Like r (.leaf a) (.leaf b)
  | arr {xs ys} : List.Forall₂ (Like r) xs ys → Like r (.arr xs) (.arr ys)
  | obj {fs gs} : (∀ k, Option.Rel (Like r) (Fields.get? fs k) (Fields.get? gs k)) → Like r (.obj fs) (.obj gs)

/-- Two objects with related values at every key. -/
def LikeFields (r : α → β → Prop) (fs : List (κ × DocTree κ α)) (gs : List (κ × DocTree κ β)) : Prop :=
  ∀ k, Option.Rel (Like r) (Fields.get? fs k) (Fields.get? gs k)

/-- What two related trees are. -/
inductive Node (r : α → β → Prop) (R : DocTree κ α → DocTree κ β → Prop)
    (O : List (κ × DocTree κ α) → List (κ × DocTree κ β) → Prop) : DocTree κ α → DocTree κ β → Prop
  | leaf {a b} : r a b → Node r R O (.leaf a) (.leaf b)
  | arr {xs ys} : List.Forall₂ R xs ys → Node r R O (.arr xs) (.arr ys)
  | obj {fs gs} : O fs gs → Node r R O (.obj fs) (.obj gs)

/-- A relation of trees, and one of objects, that nothing leaves which reads and writes members by their keys. -/
structure Congruence (r : α → α → Prop) (R : DocTree κ α → DocTree κ α → Prop)
    (O : List (κ × DocTree κ α) → List (κ × DocTree κ α) → Prop) : Prop where
  refl : ∀ t, R t t
  node : ∀ {s t}, R s t ↔ Node r R O s t
  get? : ∀ {fs gs}, O fs gs → ∀ k, Option.Rel R (Fields.get? fs k) (Fields.get? gs k)
  set : ∀ {fs gs}, O fs gs → ∀ k {v w}, R v w → O (Fields.set fs k v) (Fields.set gs k w)

variable {r : α → β → Prop}

section

omit [DecidableEq κ]

theorem Rel.refl {r : α → α → Prop} (hr : ∀ a, r a a) (t : DocTree κ α) : Rel r t t := by
  induction t using induct with
  | leaf a => exact .leaf (hr a)
  | arr xs ih => exact .arr (List.forall₂_same.mpr ih)
  | obj fs ih => exact .obj (List.forall₂_same.mpr fun p hp => .mk (ih p hp))

theorem mapList_eq_map (f : α → β) (xs : List (DocTree κ α)) : mapList f xs = xs.map (map f) := by
  induction xs with
  | nil => rfl
  | cons x xs ih => rw [mapList, ih, List.map_cons]

theorem mapFields_eq_map (f : α → β) (fs : List (κ × DocTree κ α)) :
    mapFields f fs = fs.map fun p => (p.1, map f p.2) := by
  induction fs with
  | nil => rfl
  | cons p fs ih => rw [mapFields, ih, List.map_cons]

/-- Every tree has the shape of its renaming. -/
theorem rel_map {f : α → β} (h : ∀ a, r a (f a)) (t : DocTree κ α) : Rel r t (map f t) := by
  induction t using induct with
  | leaf a => exact .leaf (h a)
  | arr xs ih =>
    rw [map, mapList_eq_map]
    exact .arr (List.forall₂_map_right_iff.mpr (List.forall₂_same.mpr ih))
  | obj fs ih =>
    rw [map, mapFields_eq_map]
    exact .obj (List.forall₂_map_right_iff.mpr (List.forall₂_same.mpr fun p hp => .mk (ih p hp)))

/-- Trees whose leaves agree after two renamings are equal after them. -/
theorem Rel.map_eq {f : α → γ} {g : β → γ} (hfg : ∀ a b, r a b → f a = g b) {s : DocTree κ α} :
    ∀ {t : DocTree κ β}, Rel r s t → map f s = map g t := by
  induction s using induct with
  | leaf a =>
    intro t h
    cases h with
    | leaf hab => rw [map, map, hfg _ _ hab]
  | arr xs ih =>
    intro t h
    cases h with
    | @arr _ ys hxy =>
      rw [map, map, mapList_eq_map, mapList_eq_map]
      congr 1
      induction hxy with
      | nil => rfl
      | cons hx _ ih' =>
        rw [List.map_cons, List.map_cons, ih _ (by simp) hx, ih' fun x hx => ih x (by simp [hx])]
  | obj fs ih =>
    intro t h
    cases h with
    | @obj _ gs hfg' =>
      rw [map, map, mapFields_eq_map, mapFields_eq_map]
      congr 1
      induction hfg' with
      | nil => rfl
      | cons hp _ ih' =>
        obtain ⟨hvw⟩ := hp
        rw [List.map_cons, List.map_cons, ih _ (by simp) hvw, ih' fun p hp => ih p (by simp [hp])]

/-- Two renamings are one. -/
theorem map_map (f : α → β) (g : β → γ) (t : DocTree κ α) : map g (map f t) = map (g ∘ f) t := by
  induction t using induct with
  | leaf a => rfl
  | arr xs ih =>
    simp only [map, mapList_eq_map, List.map_map]
    exact congrArg arr (List.map_congr_left ih)
  | obj fs ih =>
    simp only [map, mapFields_eq_map, List.map_map]
    exact congrArg obj (List.map_congr_left fun p hp => Prod.ext rfl (ih p hp))

/-- Renaming back gives the tree. -/
theorem map_map_of_leftInverse {f : α → β} {g : β → α} (h : ∀ a, g (f a) = a) (t : DocTree κ α) :
    map g (map f t) = t := by
  induction t using induct with
  | leaf a => rw [map, map, h]
  | arr xs ih =>
    rw [map, map, mapList_eq_map, mapList_eq_map, List.map_map]
    exact congrArg arr ((List.map_congr_left ih).trans (List.map_id xs))
  | obj fs ih =>
    rw [map, map, mapFields_eq_map, mapFields_eq_map, List.map_map]
    have hid : ∀ p ∈ fs, ((fun p : κ × DocTree κ β => (p.1, map g p.2)) ∘
        fun p : κ × DocTree κ α => (p.1, map f p.2)) p = id p := fun p hp => Prod.ext rfl (ih p hp)
    exact congrArg obj ((List.map_congr_left hid).trans (List.map_id fs))

theorem mapFields_mapFields_of_leftInverse {f : α → β} {g : β → α} (h : ∀ a, g (f a) = a)
    (fs : List (κ × DocTree κ α)) : mapFields g (mapFields f fs) = fs := by
  simpa [map] using map_map_of_leftInverse h (.obj fs)

end

/-! ## Trees that agree member by member -/

theorem Like.refl {r : α → α → Prop} (hr : ∀ a, r a a) (t : DocTree κ α) : Like r t t := by
  induction t using induct with
  | leaf a => exact .leaf (hr a)
  | arr xs ih => exact .arr (List.forall₂_same.mpr ih)
  | obj fs ih =>
    refine .obj fun k => ?_
    cases hget : Fields.get? fs k with
    | none => exact .none
    | some v => exact .some (ih (k, v) (Fields.mem_of_get? hget))

/-- Renaming the leaves on one side. -/
theorem Like.map_right {r' : α → γ → Prop} {g : β → γ} (hr : ∀ a b, r a b → r' a (g b)) {s : DocTree κ α} :
    ∀ {t : DocTree κ β}, Like r s t → Like r' s (map g t) := by
  induction s using induct with
  | leaf a =>
    rintro _ (hab | _ | _)
    exact .leaf (hr _ _ hab)
  | arr xs ih =>
    rintro _ (_ | hxy | _)
    rw [map, mapList_eq_map]
    refine .arr (List.forall₂_map_right_iff.mpr ?_)
    induction hxy with
    | nil => exact .nil
    | cons hx _ ih' => exact .cons (ih _ (by simp) hx) (ih' fun x hx => ih x (by simp [hx]))
  | obj fs ih =>
    rintro _ (_ | _ | @⟨_, gs, hfg⟩)
    refine .obj fun k => ?_
    have hk := hfg k
    rw [get?_mapFields]
    cases hget : Fields.get? fs k with
    | none =>
      rw [hget] at hk
      generalize Fields.get? gs k = y at hk ⊢
      cases hk
      exact .none
    | some v =>
      rw [hget] at hk
      generalize Fields.get? gs k = y at hk ⊢
      cases hk with
      | some hvw => exact .some (ih (k, v) (Fields.mem_of_get? hget) hvw)

/-- Trees that agree member by member are the same where their leaves are. -/
theorem Like.same_map {f : α → γ} {g : β → γ} (hr : ∀ a b, r a b → f a = g b) {s : DocTree κ α}
    {t : DocTree κ β} (h : Like r s t) : Same (map f s) (map g t) := by
  intro p
  induction p generalizing s t with
  | nil =>
    cases h with
    | leaf hab => simp [map, probe, hr _ _ hab]
    | arr hxy => simp [map, probe, mapList_eq_map, hxy.length_eq]
    | obj _ => simp [map, probe]
  | cons seg p ih =>
    cases h with
    | leaf _ => simp [map, probe]
    | @arr xs ys hxy =>
      cases seg with
      | key k => simp [map, probe]
      | idx i =>
        simp only [map, probe, mapList_eq_map, List.getElem?_map]
        have hi := List.forall₂_iff_get.mp hxy
        by_cases hlt : i < xs.length
        · have hlt' : i < ys.length := hi.1 ▸ hlt
          simpa [hlt, hlt'] using ih (hi.2 i hlt hlt')
        · have hlt' : ¬ i < ys.length := hi.1 ▸ hlt
          simp [hlt, hlt']
    | @obj fs gs hfg =>
      cases seg with
      | idx i => simp [map, probe]
      | key k =>
        simp only [map, probe, get?_mapFields]
        have hk := hfg k
        generalize Fields.get? fs k = x at hk ⊢
        generalize Fields.get? gs k = y at hk ⊢
        cases hk with
        | none => rfl
        | some hvw => exact ih hvw

/-- Trees that are the same agree member by member. -/
theorem like_of_same_map {f : α → β} {s : DocTree κ α} :
    ∀ {t : DocTree κ β}, Same (map f s) t → Like (fun a b => f a = b) s t := by
  induction s using induct with
  | leaf a =>
    intro t h
    have hshape := h []
    cases t <;> simp only [map, probe, Option.some.injEq, reduceCtorEq, Shape.leaf.injEq] at hshape
    exact .leaf hshape
  | arr xs ih =>
    intro t h
    have hshape := h []
    cases t with
    | leaf b => simp [map, probe] at hshape
    | obj gs => simp [map, probe] at hshape
    | arr ys =>
      have hlength : xs.length = ys.length := by simpa [map, probe, mapList_eq_map] using hshape
      refine .arr (List.forall₂_iff_get.mpr ⟨hlength, fun i hx hy => ih _ (List.get_mem ..) fun p => ?_⟩)
      simpa [map, probe, mapList_eq_map, hx, hy] using h (.idx i :: p)
  | obj fs ih =>
    intro t h
    have hshape := h []
    cases t with
    | leaf b => simp [map, probe] at hshape
    | arr ys => simp [map, probe] at hshape
    | obj gs =>
      refine .obj fun k => ?_
      have hk : ∀ p, probe (map f (.obj fs)) (.key k :: p) = probe (.obj gs) (.key k :: p) := fun p => h (.key k :: p)
      simp only [map, probe, get?_mapFields] at hk
      cases hget : Fields.get? fs k with
      | none =>
        cases hget' : Fields.get? gs k with
        | none => exact .none
        | some w =>
          have hroot := hk []
          cases w <;> simp [hget, hget', probe] at hroot
      | some v =>
        cases hget' : Fields.get? gs k with
        | none =>
          have hroot := hk []
          cases v <;> simp [hget, hget', map, probe] at hroot
        | some w => exact .some (ih (k, v) (Fields.mem_of_get? hget) fun p => by simpa [hget, hget'] using hk p)

/-! ## Congruences -/

theorem LikeFields.set {fs : List (κ × DocTree κ α)} {gs : List (κ × DocTree κ β)} (h : LikeFields r fs gs) (k : κ)
    {v : DocTree κ α} {w : DocTree κ β} (hvw : Like r v w) : LikeFields r (Fields.set fs k v) (Fields.set gs k w) := by
  intro j
  rw [Fields.get?_set, Fields.get?_set]
  split_ifs
  · exact .some hvw
  · exact h j

/-- Relating the members in their order is a congruence. -/
theorem congruence_rel {r : α → α → Prop} (hr : ∀ a, r a a) : Congruence r (@Rel κ α α r) (RelFields r) where
  refl := Rel.refl hr
  node := by
    intro s t
    constructor
    · rintro (h | h | h)
      · exact .leaf h
      · exact .arr h
      · exact .obj h
    · rintro (h | h | h)
      · exact .leaf h
      · exact .arr h
      · exact .obj h
  get? h := h.get?
  set h := h.set

/-- Relating them key by key is one. -/
theorem congruence_like {r : α → α → Prop} (hr : ∀ a, r a a) : Congruence r (@Like κ α α _ r) (LikeFields r) where
  refl := Like.refl hr
  node := by
    intro s t
    constructor
    · rintro (h | h | h)
      · exact .leaf h
      · exact .arr h
      · exact .obj h
    · rintro (h | h | h)
      · exact .leaf h
      · exact .arr h
      · exact .obj h
  get? h := h
  set h := h.set

namespace Congruence

variable {r : α → α → Prop} {R : DocTree κ α → DocTree κ α → Prop}
  {O : List (κ × DocTree κ α) → List (κ × DocTree κ α) → Prop} (C : Congruence r R O)

include C

theorem has_eq {fs gs : List (κ × DocTree κ α)} (h : O fs gs) (k : κ) : Fields.has fs k = Fields.has gs k := by
  have hget := C.get? h k
  unfold Fields.has
  generalize Fields.get? fs k = x at hget ⊢
  generalize Fields.get? gs k = y at hget ⊢
  cases hget <;> rfl

theorem obj_refl (fs : List (κ × DocTree κ α)) : O fs fs := by
  cases C.node.mp (C.refl (.obj fs)) with
  | obj h => exact h

theorem childAt {fs gs : List (κ × DocTree κ α)} (h : O fs gs) (k : κ) : O (childAt fs k) (childAt gs k) := by
  have hget := C.get? h k
  unfold DocTree.childAt
  generalize Fields.get? fs k = x at hget ⊢
  generalize Fields.get? gs k = y at hget ⊢
  cases hget with
  | none => exact C.obj_refl []
  | some hxy =>
    cases C.node.mp hxy with
    | leaf _ => exact C.obj_refl []
    | arr _ => exact C.obj_refl []
    | obj h => exact h

/-- Writing one value at a path keeps two objects related. -/
theorem writeAt {p : List κ} (v : DocTree κ α) {fs gs : List (κ × DocTree κ α)} (h : O fs gs) :
    O (writeAt fs p v) (writeAt gs p v) := by
  induction p generalizing fs gs with
  | nil => exact h
  | cons k rest ih =>
    cases rest with
    | nil => exact C.set h k (C.refl v)
    | cons j rest => exact C.set h k (C.node.mpr (.obj (ih (C.childAt h k))))

end Congruence

end DocTree

end AgentUE.Data
