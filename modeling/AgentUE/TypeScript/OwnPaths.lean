import AgentUE.TypeScript.Copies

/-!
# Paths of own properties

A masked write reads the names of its path with `object[part]`, which also finds what a prototype has. `stays` says
when the walk stays on own properties, in a process whose `Object.prototype` is untouched: then the value stands at
the own path, and otherwise nothing does.
-/

namespace AgentUE.TypeScript

open Data

variable {ν : Type}

/-! ## Reads in a fresh process -/

/-- The read has come to the accessor `__proto__`. -/
def Member.isAccessor : Member ν → Bool
  | .accessor => true
  | _ => false

theorem get?_own_of_accessor {shared object : JsObject ν} {k : String} (h : readMember shared object k = .accessor) :
    Fields.get? object (.own k) = none := by
  cases hk : Fields.get? object (.own k) with
  | none => rfl
  | some v => simp [readMember_of_own hk] at h

theorem readObjectPrototype_ne_shared (k : String) (v : Js ν) : readObjectPrototype [] k ≠ .shared v := by
  unfold readObjectPrototype
  simp only [Fields.get?_nil]
  split_ifs <;> simp

mutual

theorem readValue_ne_shared (k : String) (v : Js ν) : (w : Js ν) → readValue [] k w ≠ .shared v
  | .leaf _ => by simp [readValue]
  | .arr xs => by
    unfold readValue readArray
    split
    · simp
    · split_ifs
      · simp
      · exact readObjectPrototype_ne_shared k v
  | .obj slots => by
    unfold readValue
    split
    · simp
    · exact readInherited_ne_shared k v slots

theorem readInherited_ne_shared (k : String) (v : Js ν) : (slots : JsObject ν) → readInherited [] k slots ≠ .shared v
  | [] => readObjectPrototype_ne_shared k v
  | (.proto, w) :: _ => readValue_ne_shared k v w
  | (.own _, _) :: slots => readInherited_ne_shared k v slots

end

/-- Nothing has been added to `Object.prototype`. -/
theorem readMember_ne_shared (object : JsObject ν) (k : String) (v : Js ν) : readMember [] object k ≠ .shared v := by
  unfold readMember
  split
  · simp
  · exact readInherited_ne_shared k v object

/-- A read in a fresh process comes to the accessor `__proto__`, to a record, or to neither. -/
theorem readMember_cases (object : JsObject ν) (k : String) :
    readMember [] object k = .accessor ∨ (∃ child, readMember [] object k = .value (.obj child)) ∨
      ((readMember [] object k).Local ∧ ∀ child, readMember [] object k ≠ .value (.obj child)) := by
  by_cases hrecord : ∃ child, readMember [] object k = .value (.obj child)
  · exact .inr (.inl hrecord)
  · cases hread : readMember [] object k with
    | accessor => exact .inl rfl
    | shared v => exact absurd hread (readMember_ne_shared object k v)
    | undefined => exact .inr (.inr ⟨.undefined, by simp⟩)
    | builtin => exact .inr (.inr ⟨.builtin, by simp⟩)
    | value w => exact .inr (.inr ⟨.value w, fun child hw => hrecord ⟨child, hread.trans hw⟩⟩)

theorem assign_of_not_accessor {object : JsObject ν} {k : String} (h : readMember [] object k ≠ .accessor) (v : Js ν) :
    assign [] object k v = Fields.set object (.own k) v := by
  unfold assign
  cases hread : readMember [] object k <;> first | rfl | exact absurd hread h

/-- The value becomes the prototype or is ignored. -/
theorem get?_assign_of_accessor {object : JsObject ν} {k : String} (h : readMember [] object k = .accessor) (v : Js ν) :
    Fields.get? (assign [] object k v) (.own k) = none := by
  have hnone := get?_own_of_accessor h
  unfold assign
  simp only [h]
  split <;> simp [Fields.get?_set, hnone]

/-! ## The walk of a masked write -/

/-- The value at the end of a path of own properties. -/
def ownAt (object : JsObject ν) (path : List String) : Option (Js ν) := descend (.obj object) (path.map .own)

/-- No name of the path is the accessor `__proto__`, and none but the last finds a record that is not its object's
own. A name that finds no record gets a fresh object. -/
def stays (object : JsObject ν) : List String → Bool
  | [] => true
  | [leaf] => !(readMember [] object leaf).isAccessor
  | part :: rest =>
    match readMember [] object part with
    | .accessor => false
    | .value (.obj child) => hasOwn object part && stays child rest
    | _ => stays [] rest

theorem stays_of_accessor {object : JsObject ν} {k : String} (h : readMember [] object k = .accessor)
    (rest : List String) : stays object (k :: rest) = false := by
  cases rest <;> simp [stays, h, Member.isAccessor]

theorem stays_of_record {object child : JsObject ν} {k : String} (h : readMember [] object k = .value (.obj child))
    (i : String) (rest : List String) :
    stays object (k :: i :: rest) = (hasOwn object k && stays child (i :: rest)) := by
  rw [stays.eq_def]
  simp only [h]

theorem stays_of_fresh {object : JsObject ν} {k : String} (hlocal : (readMember [] object k).Local)
    (h : ∀ child, readMember [] object k ≠ .value (.obj child)) (i : String) (rest : List String) :
    stays object (k :: i :: rest) = stays ([] : JsObject ν) (i :: rest) := by
  rw [stays.eq_def]
  dsimp only
  generalize readMember [] object k = m at hlocal h
  cases hlocal with
  | undefined => rfl
  | builtin => rfl
  | value w =>
    cases w with
    | leaf a => rfl
    | arr xs => rfl
    | obj child => exact absurd rfl (h child)

theorem ownAt_cons (object : JsObject ν) (k : String) (rest : List String) :
    ownAt object (k :: rest) = (Fields.get? object (.own k)).bind (descend · (rest.map .own)) :=
  descend_cons object (.own k) (rest.map .own)

theorem ownAt_singleton (object : JsObject ν) (k : String) : ownAt object [k] = Fields.get? object (.own k) := by
  rw [ownAt_cons]
  cases Fields.get? object (.own k) <;> rfl

theorem ownAt_set_obj (object child : JsObject ν) (k : String) (rest : List String) :
    ownAt (Fields.set object (.own k) (.obj child)) (k :: rest) = ownAt child rest := by
  rw [ownAt_cons, Fields.get?_set_self]
  rfl

theorem ownAt_of_none {object : JsObject ν} {k : String} (h : Fields.get? object (.own k) = none) (rest : List String) :
    ownAt object (k :: rest) = none := by
  rw [ownAt_cons, h, Option.bind_none]

/-- The object that a walk has left. -/
def Written.object : Written ν → JsObject ν
  | .done object => object
  | .atPrototype object _ => object

@[simp] theorem Written.object_within (f : JsObject ν → JsObject ν) (r : Written ν) :
    (r.within f).object = f r.object := by
  cases r <;> rfl

/-- Neither a fresh object nor a child that is not the object's own is a record of its own. -/
theorem putMember_of_not_own {object : JsObject ν} {k : String} (h : hasOwn object k = false) (v : Js ν)
    (rest : List String) : ownAt (putMember k v object) (k :: rest) = none := by
  refine ownAt_of_none ?_ rest
  rw [putMember, h, if_neg Bool.false_ne_true, get?_putInherited]
  exact (Fields.has_eq_false_iff _ _).mp h

/-- A walk that stays comes back with the value at its path. -/
theorem ownAt_writePath_of_stays {path : List String} (hne : path ≠ []) {object : JsObject ν}
    (h : stays object path = true) (v : Js ν) :
    ∃ object', writePath [] object path v = .done object' ∧ ownAt object' path = some v := by
  induction path generalizing object with
  | nil => exact absurd rfl hne
  | cons k rest ih =>
    cases rest with
    | nil =>
      have hnot : readMember [] object k ≠ .accessor := by
        intro haccessor
        simp [stays_of_accessor haccessor] at h
      exact ⟨_, by rw [writePath, assign_of_not_accessor hnot], by rw [ownAt_singleton, Fields.get?_set_self]⟩
    | cons i rest =>
      rcases readMember_cases object k with haccessor | ⟨child, hread⟩ | ⟨hlocal, hrecord⟩
      · simp [stays_of_accessor haccessor] at h
      · rw [stays_of_record hread, Bool.and_eq_true] at h
        obtain ⟨child', hdone, hvalue⟩ := ih (by simp) h.2
        refine ⟨Fields.set object (.own k) (.obj child'), ?_, by rw [ownAt_set_obj, hvalue]⟩
        rw [writePath_of_record hread, hdone, Written.within, putMember, if_pos h.1]
      · rw [stays_of_fresh hlocal hrecord] at h
        obtain ⟨child', hdone, hvalue⟩ := ih (by simp) h
        refine ⟨Fields.set object (.own k) (.obj child'), ?_, by rw [ownAt_set_obj, hvalue]⟩
        rw [writePath_of_fresh hlocal hrecord, hdone, Written.within]

/-- A walk that does not stay leaves nothing at its path. -/
theorem ownAt_writePath_of_not_stays {path : List String} {object : JsObject ν} (h : stays object path = false)
    (v : Js ν) : ownAt (writePath [] object path v).object path = none := by
  induction path generalizing object with
  | nil => simp [stays] at h
  | cons k rest ih =>
    cases rest with
    | nil =>
      have haccessor : readMember [] object k = .accessor := by
        rw [stays] at h
        cases hread : readMember [] object k <;> first | rfl | simp [hread, Member.isAccessor] at h
      rw [writePath, ownAt_singleton]
      exact get?_assign_of_accessor haccessor v
    | cons i rest =>
      rcases readMember_cases object k with haccessor | ⟨child, hread⟩ | ⟨hlocal, hrecord⟩
      · have hnone := get?_own_of_accessor haccessor
        have hproto : ∀ u : Js ν, Fields.get? (Fields.set object .proto u) (.own k) = none := by
          intro u
          rw [Fields.get?_set_ne _ _ (by simp), hnone]
        unfold writePath
        simp only [haccessor]
        split
        · exact ownAt_of_none hnone _
        · rw [Written.object_within]
          exact ownAt_of_none (hproto _) _
        · rw [Written.object_within]
          exact ownAt_of_none (hproto _) _
      · rw [stays_of_record hread, Bool.and_eq_false_iff] at h
        rw [writePath_of_record hread, Written.object_within]
        by_cases hown : hasOwn object k = true
        · rw [putMember, if_pos hown, ownAt_set_obj]
          exact ih (h.resolve_left (by simp [hown]))
        · exact putMember_of_not_own (by simpa using hown) _ _
      · rw [stays_of_fresh hlocal hrecord] at h
        rw [writePath_of_fresh hlocal hrecord, Written.object_within, ownAt_set_obj]
        exact ih h

/-- The walk leaves every own property but the first of its path alone. -/
theorem get?_writePath_of_ne {j k : String} (hj : j ≠ k) (object : JsObject ν) (rest : List String) (v : Js ν) :
    Fields.get? (writePath [] object (k :: rest) v).object (.own j) = Fields.get? object (.own j) := by
  have hown : ∀ u : Js ν, Fields.get? (Fields.set object (.own k) u) (.own j) = Fields.get? object (.own j) :=
    fun u => Fields.get?_set_ne _ _ (by simpa using hj)
  have hproto : ∀ u : Js ν, Fields.get? (Fields.set object .proto u) (.own j) = Fields.get? object (.own j) :=
    fun u => Fields.get?_set_ne _ _ (by simp)
  cases rest with
  | nil =>
    rw [writePath]
    unfold assign
    split
    · split
      · exact hproto _
      · exact hproto _
      · exact hproto _
      · rfl
    · exact hown _
  | cons i rest =>
    unfold writePath
    split
    · rw [Written.object_within, putMember]
      split
      · exact hown _
      · exact get?_putInherited _ _ _ _
    · rfl
    · split
      · rfl
      · rw [Written.object_within]
        exact hproto _
      · rw [Written.object_within]
        exact hproto _
    · rw [Written.object_within]
      exact hown _

/-! ## Values that are copied as they are -/

mutual

/-- No object of the value has a member `__proto__`, or a prototype. -/
def plain : Js ν → Bool
  | .leaf _ => true
  | .arr xs => plainItems xs
  | .obj slots => plainSlots slots

def plainItems : List (Js ν) → Bool
  | [] => true
  | x :: xs => plain x && plainItems xs

def plainSlots : JsObject ν → Bool
  | [] => true
  | (.own k, v) :: slots => k != "__proto__" && plain v && plainSlots slots
  | (.proto, _) :: _ => false

end

theorem length_cloneItems (xs : List (Js ν)) : (cloneItems xs).length = xs.length := by
  induction xs with
  | nil => rfl
  | cons x xs ih => rw [cloneItems, List.length_cons, List.length_cons, ih]

theorem length_cloneObject_le (slots : JsObject ν) : (cloneObject slots).length ≤ slots.length := by
  have hproto : ∀ v : Js ν, (prototypeSlot v).length ≤ 1 := by
    intro v
    unfold prototypeSlot
    split <;> simp
  induction slots with
  | nil => exact le_rfl
  | cons p slots ih =>
    obtain ⟨k | _, v⟩ := p
    · rw [cloneObject]
      split_ifs
      · have hv := hproto (cloneJson v)
        rw [List.length_append, List.length_cons]
        omega
      · rw [List.length_cons, List.length_cons]
        omega
    · rw [cloneObject, List.length_cons]
      omega

mutual

/-- `cloneJson` gives back what is plain, and nothing else. -/
theorem cloneJson_eq_iff : (v : Js ν) → (cloneJson v = v ↔ plain v = true)
  | .leaf _ => ⟨fun _ => rfl, fun _ => rfl⟩
  | .arr xs => by
    rw [cloneJson, plain, DocTree.arr.injEq]
    exact cloneItems_eq_iff xs
  | .obj slots => by
    rw [cloneJson, plain, DocTree.obj.injEq]
    exact cloneObject_eq_iff slots

theorem cloneItems_eq_iff : (xs : List (Js ν)) → (cloneItems xs = xs ↔ plainItems xs = true)
  | [] => ⟨fun _ => rfl, fun _ => rfl⟩
  | x :: xs => by
    rw [cloneItems, plainItems, List.cons.injEq, Bool.and_eq_true, cloneJson_eq_iff x, cloneItems_eq_iff xs]

theorem cloneObject_eq_iff : (slots : JsObject ν) → (cloneObject slots = slots ↔ plainSlots slots = true)
  | [] => ⟨fun _ => rfl, fun _ => rfl⟩
  | (.own k, v) :: slots => by
    rw [plainSlots]
    by_cases hk : k = "__proto__"
    · subst hk
      refine iff_of_false (fun h => ?_) (by simp)
      have hget := get?_cloneObject_proto ((.own "__proto__", v) :: slots)
      rw [h, Fields.get?_cons, if_pos rfl] at hget
      cases hget
    · rw [cloneObject, if_neg hk, List.cons.injEq, Prod.mk.injEq, cloneJson_eq_iff v, cloneObject_eq_iff slots]
      simp [hk]
  | (.proto, v) :: slots => by
    refine iff_of_false (fun h => ?_) (by simp [plainSlots])
    have hlength := length_cloneObject_le slots
    rw [cloneObject] at h
    rw [h, List.length_cons] at hlength
    omega

end

/-! ## Appends -/

/-- A value extended by another one; nothing and null are replaced. -/
def extendOwn : Option (Js ν) → Js ν → Option (Js ν)
  | none, next | some .null, next => some next
  | some (.str old), .str next => some (.str (old ++ next))
  | some (.arr old), .arr next => some (.arr (old ++ next))
  | _, _ => none

/-- The field is the object's own, or what a read finds elsewhere adds nothing. -/
def extendsOwn (target : JsObject ν) (field : String) (next : Js ν) : Bool :=
  hasOwn target field ||
    match readMember [] target field, next with
    | .undefined, _ | .value .null, _ => true
    | .value (.str old), .str _ => old == ""
    | .value (.arr old), .arr _ => old.isEmpty
    | _, _ => false

theorem appendToBlock_eq_ok {target b : JsObject ν} (hinline : hasOwn target "ref" = false) {field : String}
    {next : Js ν} : appendToBlock [] field next target = .ok b ↔
      ∃ v, extended field ((readMember [] target field).resolve target) next = .ok v ∧ assign [] target field v = b := by
  have hcheck : requireInlineBlock target = .ok () := by
    rw [requireInlineBlock, check_eq_ok, hinline]
    rfl
  rw [appendToBlock, hcheck, seq_eq_ok, bind_eq_ok, and_iff_right rfl]
  exact exists_congr fun v => and_congr_right fun _ => ⟨Except.ok.inj, congrArg Except.ok⟩

/-- An append that is accepted extends the own value, and one to a field that is not the object's own is accepted. -/
structure AppendsOwn (target : JsObject ν) (field : String) (next : Js ν) : Prop where
  extends_ : ∀ b, appendToBlock [] field next target = .ok b →
    ∃ v, extendOwn (Fields.get? target (.own field)) next = some v ∧ Fields.get? b (.own field) = some v
  accepts : hasOwn target field = false → ∃ b, appendToBlock [] field next target = .ok b

/-- Two values of one type are extended like the own value is to be, but for the copy. -/
theorem extends_iff_plain {field : String} {old next v : Js ν} (h : extended field (.value old) next = .ok v) :
    (∀ v, extended field (.value old) next = .ok v → extendOwn (some old) next = some v) ↔ plain next = true := by
  rw [← cloneJson_eq_iff]
  unfold extended at h
  split at h
  next hnone => cases hnone
  next hnull =>
    obtain rfl : old = .null := Member.value.inj hnull
    simp [extended, extendOwn, eq_comm]
  next hnull => cases hnull
  next a b hold =>
    obtain rfl : old = .str a := Member.value.inj hold
    simp [extended, extendOwn, cloneJson]
  next hold => cases hold
  next a b hold =>
    obtain rfl : old = .arr a := Member.value.inj hold
    simp [extended, extendOwn, cloneJson, eq_comm]
  next hold => cases hold
  next => cases h

/-- An own field. -/
theorem appendsOwn_iff_of_own {target : JsObject ν} {field : String} {next old : Js ν}
    (hinline : hasOwn target "ref" = false) (hold : Fields.get? target (.own field) = some old)
    (haccepted : ∃ b, appendToBlock [] field next target = .ok b) :
    AppendsOwn target field next ↔ plain next = true := by
  have hown : hasOwn target field = true := (Fields.has_eq_true_iff _ _).mpr ⟨old, hold⟩
  have hread : readMember [] target field = .value old := readMember_of_own hold
  have hassign : ∀ v, assign [] target field v = Fields.set target (.own field) v :=
    assign_of_not_accessor (by simp [hread])
  have happends : AppendsOwn target field next ↔ ∀ v, extended field (.value old) next = .ok v →
      extendOwn (some old) next = some v := by
    constructor
    · intro h v hv
      obtain ⟨u, hu, hget⟩ := h.extends_ _ ((appendToBlock_eq_ok hinline).mpr ⟨v, by rw [hread]; exact hv, rfl⟩)
      rw [hassign, Fields.get?_set_self] at hget
      rw [← hold, hu, hget]
    · refine fun h => ⟨fun b hb => ?_, fun hnot => by simp [hown] at hnot⟩
      obtain ⟨v, hv, rfl⟩ := (appendToBlock_eq_ok hinline).mp hb
      rw [hread] at hv
      exact ⟨v, by rw [hold, h v hv], by rw [hassign, Fields.get?_set_self]⟩
  obtain ⟨b, hb⟩ := haccepted
  obtain ⟨v, hv, -⟩ := (appendToBlock_eq_ok hinline).mp hb
  rw [hread] at hv
  rw [happends, extends_iff_plain hv]

/-- A field that is not the object's own: the result has to be what is appended. -/
theorem appendsOwn_iff_extended {target : JsObject ν} {field : String} {next : Js ν}
    (hinline : hasOwn target "ref" = false) (hown : hasOwn target field = false)
    (hread : readMember [] target field ≠ .accessor) :
    AppendsOwn target field next ↔ extended field (readMember [] target field) next = .ok next := by
  have hnone := (Fields.has_eq_false_iff _ _).mp hown
  have hresolve : (readMember [] target field).resolve target = readMember [] target field := by
    cases h : readMember [] target field <;> first | rfl | exact absurd h hread
  constructor
  · intro h
    obtain ⟨b, hb⟩ := h.accepts hown
    obtain ⟨u, hu, hget⟩ := h.extends_ b hb
    obtain ⟨v, hv, rfl⟩ := (appendToBlock_eq_ok hinline).mp hb
    rw [assign_of_not_accessor hread, Fields.get?_set_self] at hget
    rw [hnone, extendOwn] at hu
    rw [hresolve] at hv
    rw [hv, Option.some.inj hget, Option.some.inj hu]
  · intro h
    refine ⟨fun b hb => ?_, fun _ => ⟨_, (appendToBlock_eq_ok hinline).mpr ⟨next, by rw [hresolve, h], rfl⟩⟩⟩
    obtain ⟨v, hv, rfl⟩ := (appendToBlock_eq_ok hinline).mp hb
    rw [hresolve, h] at hv
    obtain rfl := Except.ok.inj hv
    exact ⟨next, by rw [hnone, extendOwn], by rw [assign_of_not_accessor hread, Fields.get?_set_self]⟩

theorem appendsOwn_iff_of_not_own {target : JsObject ν} {field : String} {next : Js ν}
    (hinline : hasOwn target "ref" = false) (hown : hasOwn target field = false)
    (hnext : ((DocTree.asStr next).isSome || (DocTree.asArr next).isSome) = true) :
    AppendsOwn target field next ↔ extendsOwn target field next = true ∧ plain next = true := by
  unfold extendsOwn
  rw [hown, Bool.false_or]
  cases hread : readMember [] target field with
  | accessor =>
    -- an append to the prototype leaves no own field
    refine iff_of_false (fun h => ?_) (by simp)
    obtain ⟨b, hb⟩ := h.accepts hown
    obtain ⟨u, -, hget⟩ := h.extends_ b hb
    obtain ⟨v, -, rfl⟩ := (appendToBlock_eq_ok hinline).mp hb
    rw [get?_assign_of_accessor hread] at hget
    cases hget
  | shared v => exact absurd hread (readMember_ne_shared target field v)
  | undefined =>
    rw [appendsOwn_iff_extended hinline hown (by simp [hread]), hread, ← cloneJson_eq_iff]
    simp [extended]
  | builtin =>
    rw [appendsOwn_iff_extended hinline hown (by simp [hread]), hread]
    simp [extended]
  | value old =>
    rw [appendsOwn_iff_extended hinline hown (by simp [hread]), hread, ← cloneJson_eq_iff]
    obtain ⟨new, rfl⟩ | ⟨new, rfl⟩ : (∃ s, next = .str s) ∨ ∃ xs, next = .arr xs := by
      rcases next with (_ | _ | _ | s) | xs | _
      all_goals first | exact .inl ⟨_, rfl⟩ | exact .inr ⟨_, rfl⟩ | cases hnext
    · rcases old with (_ | _ | _ | old) | old | _ <;> simp [extended, cloneJson]
    · have hlist : ∀ xs : List (Js ν), xs ++ cloneItems new = new ↔ xs = [] ∧ cloneItems new = new := by
        refine fun xs => ⟨fun h => ?_, fun ⟨hxs, h⟩ => by rw [hxs, List.nil_append, h]⟩
        have hlength := congrArg List.length h
        rw [List.length_append, length_cloneItems] at hlength
        obtain rfl : xs = [] := List.eq_nil_of_length_eq_zero (by omega)
        exact ⟨rfl, h⟩
      rcases old with (_ | _ | _ | old) | old | _ <;> simp [extended, cloneJson, hlist]

/-- An append that is accepted, or whose field is not the object's own. -/
theorem appendsOwn_iff {target : JsObject ν} {field : String} {next : Js ν} (hinline : hasOwn target "ref" = false)
    (hscope : (∃ b, appendToBlock [] field next target = .ok b) ∨ hasOwn target field = false)
    (hnext : ((DocTree.asStr next).isSome || (DocTree.asArr next).isSome) = true) :
    AppendsOwn target field next ↔ extendsOwn target field next = true ∧ plain next = true := by
  cases hown : hasOwn target field with
  | false => exact appendsOwn_iff_of_not_own hinline hown hnext
  | true =>
    obtain ⟨old, hold⟩ := (Fields.has_eq_true_iff _ _).mp hown
    have hextends : extendsOwn target field next = true := by
      unfold extendsOwn
      rw [hown, Bool.true_or]
    rw [appendsOwn_iff_of_own hinline hold (hscope.resolve_right (by simp [hown])), and_iff_right hextends]

end AgentUE.TypeScript
