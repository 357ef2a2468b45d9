import AgentUE.TypeScript.Reducer
import AgentUE.Protocol.Validity

/-!
# Copies, reads and writes seen through `JSON.stringify`

What `cloneJson`, a property read and `writePath` do to the own properties of an object, in a process
whose `Object.prototype` is untouched. A copy loses an own `__proto__` and nothing else; a write below
names other than `__proto__` is a `WrittenTo` on the document.
-/

namespace AgentUE.TypeScript

open Data

variable {ν : Type}

/-! ## Copies -/

theorem get?_cloneObject (slots : JsObject ν) {k : String} (hk : k ≠ "__proto__") :
    Fields.get? (cloneObject slots) (.own k) = (Fields.get? slots (.own k)).map cloneJson := by
  induction slots with
  | nil => rfl
  | cons p slots ih =>
    obtain ⟨k' | _, v⟩ := p
    · by_cases hk' : k' = "__proto__"
      · have hne : ¬ "__proto__" = k := fun h => hk h.symm
        have hskip : ∀ (w : Js ν) (rest : JsObject ν),
            Fields.get? (prototypeSlot w ++ rest) (.own k) = Fields.get? rest (.own k) := by
          intro w rest
          cases w with
          | leaf a => cases a <;> simp [prototypeSlot, Fields.get?_cons]
          | arr xs => simp [prototypeSlot, Fields.get?_cons]
          | obj fs => simp [prototypeSlot, Fields.get?_cons]
        simp [cloneObject, hk', hskip, ih, Fields.get?_cons, hne]
      · by_cases hkk : k' = k
        · subst hkk
          simp [cloneObject, hk', Fields.get?_cons]
        · simp [cloneObject, hk', Fields.get?_cons, hkk, ih]
    · simp [cloneObject, Fields.get?_cons, ih]

@[simp] theorem asStr_cloneJson (v : Js ν) : DocTree.asStr (cloneJson v) = DocTree.asStr v := by
  cases v <;> rfl

@[simp] theorem isNull_cloneJson (v : Js ν) : DocTree.isNull (cloneJson v) = DocTree.isNull v := by
  cases v <;> rfl

@[simp] theorem asArr_cloneJson (v : Js ν) : DocTree.asArr (cloneJson v) = (DocTree.asArr v).map cloneItems := by
  cases v <;> rfl

/-- The document of a copied document. -/
def copy (v : Json ν) : Json ν := toJson (cloneJson (ofJson v))

def copyObject (fs : JsonObject ν) : JsonObject ν := toJsonObject (cloneObject (ofJsonObject fs))

theorem copy_obj (fs : JsonObject ν) : copy (.obj fs) = .obj (copyObject fs) := rfl

/-- A copy has every member but `__proto__`. -/
theorem get?_copyObject (fs : JsonObject ν) {k : String} (hk : k ≠ "__proto__") :
    Fields.get? (copyObject fs) k = (Fields.get? fs k).map copy := by
  rw [copyObject, get?_toJsonObject, get?_cloneObject _ hk, get?_ofJsonObject]
  cases Fields.get? fs k <;> rfl

theorem has_copyObject (fs : JsonObject ν) {k : String} (hk : k ≠ "__proto__") :
    Fields.has (copyObject fs) k = Fields.has fs k := by
  simp [Fields.has, get?_copyObject fs hk]

theorem asStr_copy (v : Json ν) : DocTree.asStr (copy v) = DocTree.asStr v := by
  simp [copy]

theorem isNullableStr_copy (v : Json ν) : DocTree.isNullableStr (copy v) = DocTree.isNullableStr v := by
  cases v <;> rfl

theorem isNullableObj_copy (v : Json ν) : DocTree.isNullableObj (copy v) = DocTree.isNullableObj v := by
  cases v <;> rfl

theorem isNonEmptyStr_copy (v : Json ν) : DocTree.isNonEmptyStr (copy v) = DocTree.isNonEmptyStr v := by
  simp [DocTree.isNonEmptyStr, asStr_copy]

theorem memberIs_copyObject {p : Json ν → Bool} (hp : ∀ v, p (copy v) = p v) (fs : JsonObject ν)
    {k : String} (hk : k ≠ "__proto__") : memberIs p (copyObject fs) k = memberIs p fs k := by
  unfold memberIs
  rw [get?_copyObject fs hk]
  cases Fields.get? fs k with
  | none => rfl
  | some v => exact hp v

theorem memberMayBe_copyObject {p : Json ν → Bool} (hp : ∀ v, p (copy v) = p v) (fs : JsonObject ν)
    {k : String} (hk : k ≠ "__proto__") : memberMayBe p (copyObject fs) k = memberMayBe p fs k := by
  unfold memberMayBe
  rw [get?_copyObject fs hk]
  cases Fields.get? fs k with
  | none => rfl
  | some v => exact hp v

theorem idOf_copyObject (fs : JsonObject ν) : idOf (copyObject fs) = idOf fs := by
  unfold idOf
  rw [get?_copyObject fs (by decide)]
  cases Fields.get? fs "id" with
  | none => rfl
  | some v => exact asStr_copy v

theorem errorInfoOk_copyObject (fs : JsonObject ν) : errorInfoOk (copyObject fs) = errorInfoOk fs := by
  have hstr : ∀ v : Json ν, (fun v : Json ν => v.asStr.isSome) (copy v) = v.asStr.isSome := fun v => by
    simp [asStr_copy]
  unfold errorInfoOk
  rw [memberIs_copyObject hstr fs (by decide), memberIs_copyObject hstr fs (by decide),
    memberMayBe_copyObject isNullableStr_copy fs (by decide),
    memberMayBe_copyObject isNullableStr_copy fs (by decide)]

theorem isNullableError_copy (v : Json ν) : isNullableError (copy v) = isNullableError v := by
  cases v with
  | leaf a => rfl
  | arr xs => rfl
  | obj fs => exact errorInfoOk_copyObject fs

theorem metaOk_copyObject (fs : JsonObject ν) : metaOk (copyObject fs) = metaOk fs := by
  unfold metaOk
  rw [memberMayBe_copyObject isNullableError_copy fs (by decide),
    memberMayBe_copyObject isNullableStr_copy fs (by decide),
    memberMayBe_copyObject isNullableStr_copy fs (by decide),
    memberMayBe_copyObject isNullableObj_copy fs (by decide)]

/-- Assigning to `__proto__` never makes an own property. -/
theorem get?_cloneObject_proto (slots : JsObject ν) : Fields.get? (cloneObject slots) (.own "__proto__") = none := by
  induction slots with
  | nil => rfl
  | cons p slots ih =>
    obtain ⟨k | _, v⟩ := p
    · by_cases hk : k = "__proto__"
      · rw [cloneObject, if_pos hk]
        generalize cloneJson v = w
        cases w with
        | leaf a => cases a <;> simpa [prototypeSlot, Fields.get?_cons] using ih
        | arr xs => simpa [prototypeSlot, Fields.get?_cons] using ih
        | obj fs => simpa [prototypeSlot, Fields.get?_cons] using ih
      · simpa [cloneObject, hk, Fields.get?_cons] using ih
    · simpa [cloneObject] using ih

theorem mem_keys_copyObject {fs : JsonObject ν} {k : String} (h : k ∈ Fields.keys (copyObject fs)) :
    k ∈ Fields.keys fs := by
  rw [Fields.mem_keys_iff] at h ⊢
  by_cases hk : k = "__proto__"
  · subst hk
    simp [copyObject, get?_toJsonObject, get?_cloneObject_proto] at h
  · rwa [has_copyObject fs hk] at h

/-- A copy of a complete block is complete. -/
theorem blockOk_copyObject {R : Rules} {fs : JsonObject ν} (h : blockOk R fs = true) :
    blockOk R (copyObject fs) = true := by
  unfold blockOk at h ⊢
  rw [has_copyObject fs (by decide)]
  split at h
  · rename_i href
    rw [if_pos href]
    simp only [referenceBlockOk, Bool.and_eq_true, List.all_eq_true] at h ⊢
    refine ⟨⟨?_, ?_⟩, fun k hk => h.2 k (mem_keys_copyObject hk)⟩
    · rw [memberIs_copyObject isNonEmptyStr_copy fs (by decide)]
      exact h.1.1
    · rw [memberIs_copyObject isNonEmptyStr_copy fs (by decide)]
      exact h.1.2
  · rename_i href
    rw [if_neg href]
    unfold inlineBlockOk at h ⊢
    rwa [memberIs_copyObject isNonEmptyStr_copy fs (by decide),
      memberIs_copyObject isNonEmptyStr_copy fs (by decide),
      memberMayBe_copyObject isNullableStr_copy fs (by decide),
      memberMayBe_copyObject isNullableStr_copy fs (by decide)]

theorem asObjs_copy {items : List (Json ν)} {bs : List (JsonObject ν)} (h : DocTree.asObjs items = some bs) :
    DocTree.asObjs (toJsonItems (cloneItems (ofJsonItems items))) = some (bs.map copyObject) := by
  rw [DocTree.asObjs_eq_some] at h ⊢
  subst h
  induction bs with
  | nil => rfl
  | cons b bs ih =>
    simp only [List.map_cons, ofJsonItems, cloneItems, toJsonItems]
    rw [ih]
    rfl

theorem blocksOk_copy {R : Rules} {version : Option String} {bs : List (JsonObject ν)}
    (h : blocksOk R version bs = true) : blocksOk R version (bs.map copyObject) = true := by
  simp only [blocksOk, Bool.and_eq_true, decide_eq_true_eq, List.all_eq_true] at h ⊢
  refine ⟨⟨?_, ?_⟩, ?_⟩
  · intro b hb
    obtain ⟨c, hc, rfl⟩ := List.mem_map.mp hb
    exact blockOk_copyObject (h.1.1 c hc)
  · intro b hb
    obtain ⟨c, hc, rfl⟩ := List.mem_map.mp hb
    rw [has_copyObject c (by decide)]
    exact h.1.2 c hc
  · have hids : (bs.map copyObject).map idOf = bs.map idOf := by
      rw [List.map_map]
      exact List.map_congr_left fun b _ => idOf_copyObject b
    rw [hids]
    exact h.2

/-- A copy of a well-formed model is well formed. -/
theorem modelOk_copyObject {R : Rules} {m : JsonObject ν} (h : modelOk R m = true) :
    modelOk R (copyObject m) = true := by
  have hversion : versionOk R (copyObject m) = versionOk R m := by
    unfold versionOk
    rw [get?_copyObject m (by decide)]
    cases Fields.get? m "version" with
    | none => rfl
    | some v => simp [asStr_copy]
  have hmodelVersion : modelVersion (copyObject m) = modelVersion m := by
    unfold modelVersion
    rw [get?_copyObject m (by decide)]
    cases Fields.get? m "version" with
    | none => rfl
    | some v => exact asStr_copy v
  have hmeta : modelMetaOk R (copyObject m) = modelMetaOk R m := by
    unfold modelMetaOk
    refine memberIs_copyObject (fun v => ?_) m (by decide)
    cases v with
    | leaf a => rfl
    | arr xs => rfl
    | obj fs => simp [copy_obj, DocTree.asObj, metaOk_copyObject]
  obtain ⟨bs, hbs, hblocks⟩ := exists_blocks_of_modelOk h
  have hbs' : modelBlocks R (copyObject m) = some (bs.map copyObject) := by
    unfold modelBlocks at hbs ⊢
    rw [get?_copyObject m (by decide)]
    cases hget : Fields.get? m "blocks" with
    | none =>
      simp only [hget] at hbs
      by_cases hR : R.requireBlocks = true
      · simp [hR] at hbs
      · obtain rfl : [] = bs := by simpa [hR] using hbs
        simp [hR]
    | some v =>
      simp only [hget] at hbs
      obtain ⟨items, harr, hobjs⟩ := Option.bind_eq_some_iff.mp hbs
      rw [DocTree.asArr_eq_some.mp harr]
      exact asObjs_copy hobjs
  simp only [modelOk, Bool.and_eq_true, hversion, hmeta, hmodelVersion, hbs'] at h ⊢
  refine ⟨⟨⟨h.1.1.1, ?_⟩, h.1.2⟩, blocksOk_copy hblocks⟩
  rw [memberIs_copyObject isNonEmptyStr_copy m (by decide)]
  exact h.1.1.2

/-! ## Reads -/

/-- What a read finds when nothing has been added to `Object.prototype` and the name is not `__proto__`. -/
inductive Member.Local : Member ν → Prop
  | undefined : Member.Local .undefined
  | value (v) : Member.Local (.value v)
  | builtin : Member.Local .builtin

theorem local_readObjectPrototype {k : String} (hk : k ≠ "__proto__") :
    (readObjectPrototype ([] : JsObject ν) k).Local := by
  unfold readObjectPrototype
  simp only [Fields.get?_nil, if_neg hk]
  split_ifs
  · exact .builtin
  · exact .undefined

mutual

theorem local_readValue {k : String} (hk : k ≠ "__proto__") :
    (v : Js ν) → (readValue ([] : JsObject ν) k v).Local
  | .leaf _ => .undefined
  | .arr xs => by
    unfold readValue readArray
    split
    · exact .value _
    · split_ifs
      · exact .builtin
      · exact local_readObjectPrototype hk
  | .obj slots => by
    unfold readValue
    split
    · exact .value _
    · exact local_readInherited hk slots

theorem local_readInherited {k : String} (hk : k ≠ "__proto__") :
    (slots : JsObject ν) → (readInherited ([] : JsObject ν) k slots).Local
  | [] => local_readObjectPrototype hk
  | (.proto, v) :: _ => local_readValue hk v
  | (.own _, _) :: slots => local_readInherited hk slots

end

/-- No read but that of `__proto__` leaves the object and its own prototypes. -/
theorem local_readMember {k : String} (hk : k ≠ "__proto__") (object : JsObject ν) :
    (readMember [] object k).Local := by
  unfold readMember
  split
  · exact .value _
  · exact local_readInherited hk object

theorem readMember_of_own {shared object : JsObject ν} {k : String} {v : Js ν}
    (h : Fields.get? object (.own k) = some v) : readMember shared object k = .value v := by
  simp [readMember, h]

/-! ## Writes -/

theorem get?_putInherited (k : String) (v : Js ν) (slots : JsObject ν) (j : String) :
    Fields.get? (putInherited k v slots) (.own j) = Fields.get? slots (.own j) := by
  induction slots with
  | nil => rfl
  | cons p slots ih =>
    obtain ⟨i | _, w⟩ := p
    · by_cases hi : i = j <;> simp [putInherited, Fields.get?_cons, hi, ih]
    · simp [putInherited, Fields.get?_cons]

theorem assign_of_ne {object : JsObject ν} {k : String} (hk : k ≠ "__proto__") (v : Js ν) :
    assign [] object k v = Fields.set object (.own k) v := by
  unfold assign
  have h := local_readMember hk object
  generalize readMember [] object k = m at h
  cases h <;> rfl

theorem get?_toJsonObject_set (object : JsObject ν) (k j : String) (v : Js ν) :
    Fields.get? (toJsonObject (Fields.set object (.own k) v)) j =
      if j = k then some (toJson v) else Fields.get? (toJsonObject object) j := by
  rw [get?_toJsonObject, Fields.get?_set, get?_toJsonObject]
  by_cases h : j = k <;> simp [h]

/-- The walk goes on in the record that the read has found. -/
theorem writePath_of_record {shared object child : JsObject ν} {k : String}
    (h : readMember shared object k = .value (.obj child)) (i : String) (rest : List String) (v : Js ν) :
    writePath shared object (k :: i :: rest) v =
      (writePath shared child (i :: rest) v).within fun child => putMember k (.obj child) object := by
  rw [writePath.eq_def]
  simp only [h]

/-- Where the read has found none, the walk goes on in a fresh object. -/
theorem writePath_of_fresh {shared object : JsObject ν} {k : String} (hlocal : (readMember shared object k).Local)
    (h : ∀ child, readMember shared object k ≠ .value (.obj child)) (i : String) (rest : List String) (v : Js ν) :
    writePath shared object (k :: i :: rest) v =
      (writePath shared [] (i :: rest) v).within fun child => Fields.set object (.own k) (.obj child) := by
  rw [writePath.eq_def]
  dsimp only
  generalize readMember shared object k = m at hlocal h
  cases hlocal with
  | undefined => rfl
  | builtin => rfl
  | value w =>
    cases w with
    | leaf a => rfl
    | arr xs => rfl
    | obj child => exact absurd rfl (h child)

/-- A write below the first name of a path that makes an object of it. -/
theorem writtenTo_set_obj {object child : JsObject ν} {k i : String} {rest : List String} {value : Json ν}
    (h : WrittenTo (DocTree.childAt (toJsonObject object) k) (toJsonObject child) (i :: rest) value) :
    WrittenTo (toJsonObject object) (toJsonObject (Fields.set object (.own k) (.obj child))) (k :: i :: rest) value := by
  refine ⟨fun j hj => by rw [get?_toJsonObject_set, if_neg hj], .inr ⟨toJsonObject child, ?_, h⟩⟩
  rw [get?_toJsonObject_set, if_pos rfl]
  rfl

/-- A write to a prototype of the object is none to its document. -/
theorem writtenTo_putInherited (object child : JsObject ν) (k i : String) (rest : List String) (value : Json ν) :
    WrittenTo (toJsonObject object) (toJsonObject (putInherited k (.obj child) object)) (k :: i :: rest) value := by
  have hsame : ∀ j, Fields.get? (toJsonObject (putInherited k (.obj child) object)) j =
      Fields.get? (toJsonObject object) j := by
    intro j
    rw [get?_toJsonObject, get?_putInherited, get?_toJsonObject]
  exact ⟨fun j _ => hsame j, .inl (hsame k)⟩

/-- A walk over names other than `__proto__` ends in the object it started from, and is a write to its
document. -/
theorem writtenTo_writePath {path : List String} (hpath : "__proto__" ∉ path) (hne : path ≠ [])
    (object : JsObject ν) (v : Js ν) :
    ∃ object', writePath [] object path v = .done object' ∧
      WrittenTo (toJsonObject object) (toJsonObject object') path (toJson v) := by
  induction path generalizing object with
  | nil => exact absurd rfl hne
  | cons k rest ih =>
    have hk : k ≠ "__proto__" := fun h => hpath (by simp [h])
    cases rest with
    | nil =>
      refine ⟨_, by rw [writePath, assign_of_ne hk], fun j hj => ?_, ?_⟩
      · rw [get?_toJsonObject_set, if_neg hj]
      · rw [get?_toJsonObject_set, if_pos rfl]
    | cons i rest =>
      have hrest : "__proto__" ∉ i :: rest := fun h => hpath (List.mem_cons_of_mem _ h)
      by_cases hrecord : ∃ child, readMember [] object k = .value (.obj child)
      · obtain ⟨child, hread⟩ := hrecord
        obtain ⟨child', hdone, hwritten⟩ := ih hrest (by simp) child
        refine ⟨putMember k (.obj child') object, ?_, ?_⟩
        · rw [writePath_of_record hread, hdone]
          rfl
        · unfold putMember
          split_ifs with hown
          · obtain ⟨w, hw⟩ := (Fields.has_eq_true_iff _ _).mp hown
            obtain rfl : w = .obj child := by simpa [readMember_of_own hw] using hread
            have hchild : DocTree.childAt (toJsonObject object) k = toJsonObject child := by
              rw [DocTree.childAt, get?_toJsonObject, hw]
              rfl
            exact writtenTo_set_obj (hchild ▸ hwritten)
          · -- the object belongs to a prototype and the own properties stay
            exact writtenTo_putInherited object child' k i rest _
      · rw [not_exists] at hrecord
        obtain ⟨child', hdone, hwritten⟩ := ih hrest (by simp) []
        refine ⟨Fields.set object (.own k) (.obj child'), ?_, ?_⟩
        · rw [writePath_of_fresh (local_readMember hk object) hrecord, hdone]
          rfl
        · have hchild : DocTree.childAt (toJsonObject object) k = [] := by
            rw [DocTree.childAt, get?_toJsonObject]
            rcases hget : Fields.get? object (.own k) with _ | a | xs | c
            · rfl
            · rfl
            · rfl
            · exact absurd (readMember_of_own hget) (hrecord c)
          exact writtenTo_set_obj (hchild ▸ hwritten)

/-! ## Validation -/

/-- Values whose documents are objects are objects. -/
theorem exists_objs {items : List (Js ν)} {docs : List (JsonObject ν)}
    (h : DocTree.asObjs (toJsonItems items) = some docs) :
    ∃ bs : List (JsObject ν), items = bs.map .obj ∧ docs = bs.map toJsonObject := by
  rw [DocTree.asObjs_eq_some] at h
  induction items generalizing docs with
  | nil =>
    obtain rfl : docs = [] := by simpa [toJsonItems] using h
    exact ⟨[], rfl, rfl⟩
  | cons v items ih =>
    cases docs with
    | nil => simp [toJsonItems] at h
    | cons d docs =>
      simp only [toJsonItems, List.map_cons, List.cons.injEq] at h
      obtain ⟨bs, rfl, rfl⟩ := ih h.2
      cases v with
      | leaf a => simp [toJson] at h
      | arr xs => simp [toJson] at h
      | obj b =>
        obtain rfl : toJsonObject b = d := by simpa [toJson] using h.1
        exact ⟨b :: bs, rfl, rfl⟩

/-- A member that the document shows is what a read finds. -/
theorem readString_of_toJsonObject {shared object : JsObject ν} {k s : String}
    (h : Fields.get? (toJsonObject object) k = some (.str s)) : readString shared object k = some s := by
  rw [get?_toJsonObject] at h
  obtain ⟨v, hv, hstr⟩ := Option.map_eq_some_iff.mp h
  rw [readString, read_of_own hv, Option.bind_some, ← asStr_toJson, hstr]
  rfl

theorem readNonEmpty_of_toJsonObject {shared object : JsObject ν} {k : String}
    (h : memberIs DocTree.isNonEmptyStr (toJsonObject object) k = true) : readNonEmpty shared object k = true := by
  obtain ⟨v, hv, hp⟩ := memberIs_iff.mp h
  obtain ⟨s, rfl, hs⟩ := DocTree.isNonEmptyStr_iff.mp hp
  simp [readNonEmpty, readString_of_toJsonObject hv, hs]

theorem readString_id_of_toJsonObject {shared object : JsObject ν} {id : String}
    (h : idOf (toJsonObject object) = some id) : readString shared object "id" = some id := by
  obtain ⟨v, hv, hstr⟩ := Option.bind_eq_some_iff.mp h
  exact readString_of_toJsonObject (by rw [hv, DocTree.asStr_eq_some.mp hstr])

theorem validateBlock_of_blockOk {shared object : JsObject ν} (h : blockOk rules (toJsonObject object) = true) :
    validateBlock shared object = .ok () := by
  have hid := memberIs_id_of_blockOk h
  unfold blockOk at h
  rw [has_toJsonObject] at h
  unfold validateBlock
  rw [seq_eq_ok, check_eq_ok]
  refine ⟨readNonEmpty_of_toJsonObject hid, ?_⟩
  by_cases href : hasOwn object "ref" = true
  · rw [if_pos href] at h ⊢
    simp only [referenceBlockOk, Bool.and_eq_true, keys_toJsonObject] at h
    rw [seq_eq_ok, check_eq_ok, check_eq_ok]
    exact ⟨readNonEmpty_of_toJsonObject h.1.2, h.2⟩
  · rw [if_neg href] at h ⊢
    simp only [inlineBlockOk, rules, Bool.not_true, Bool.false_or, Bool.and_eq_true,
      memberMayBe_toJsonObject isNullableStr_toJson] at h
    rw [seq_eq_ok, seq_eq_ok, check_eq_ok, check_eq_ok, check_eq_ok]
    exact ⟨readNonEmpty_of_toJsonObject h.1.1.2, h.1.2, h.2⟩

theorem validateMetaError_of_metaOk {shared object : JsObject ν}
    (h : memberMayBe isNullableError (toJsonObject object) "error" = true) :
    validateMetaError shared object = .ok () := by
  unfold validateMetaError
  cases hget : Fields.get? object (.own "error") with
  | none => rfl
  | some e =>
    have herror := memberMayBe_iff.mp h (toJson e) (by rw [get?_toJsonObject, hget]; rfl)
    cases e with
    | leaf a => cases a <;> first | rfl | exact absurd herror (by simp [toJson, isNullableError])
    | arr xs => simp [toJson, isNullableError] at herror
    | obj error =>
      simp only [toJson, isNullableError, errorInfoOk, Bool.and_eq_true,
        memberMayBe_toJsonObject isNullableStr_toJson] at herror
      have hstr : ∀ k, memberIs (fun v => v.asStr.isSome) (toJsonObject error) k = true →
          (readString shared error k).isSome = true := by
        intro k hk
        obtain ⟨v, hv, hp⟩ := memberIs_iff.mp hk
        obtain ⟨s, hs⟩ := Option.isSome_iff_exists.mp hp
        rw [readString_of_toJsonObject (by rw [hv, DocTree.asStr_eq_some.mp hs])]
        rfl
      simp [DocTree.isNull, validateModelError, hstr _ herror.1.1.1, hstr _ herror.1.1.2, herror.1.2, herror.2,
        check, bind, Except.bind]

theorem validateBlocks_of_blocksOk {shared : JsObject ν} {version : Option String}
    {items : List (JsObject ν)} {ids : List (Option String)}
    (h : blocksOk rules version (items.map toJsonObject) = true)
    (hfresh : ∀ b ∈ items, idOf (toJsonObject b) ∉ ids) :
    validateBlocks shared version (items.map .obj) ids = .ok () := by
  induction items generalizing ids with
  | nil => rfl
  | cons b rest ih =>
    simp only [List.map_cons, blocksOk, List.all_cons, Bool.and_eq_true, decide_eq_true_eq,
      List.nodup_cons] at h
    obtain ⟨⟨⟨hok, hall⟩, href, hrefs⟩, hne, hnodup⟩ := h
    obtain ⟨id, hid, -⟩ := exists_idOf_of_blockOk hok
    have hread : readString shared b "id" = idOf (toJsonObject b) := by
      rw [readString_id_of_toJsonObject hid, hid]
    rw [List.map_cons, validateBlocks, seq_eq_ok, seq_eq_ok, check_eq_ok]
    refine ⟨validateBlock_of_blockOk hok, ?_, ?_⟩
    · rw [has_toJsonObject] at href
      cases hr : hasOwn b "ref" <;> simp_all
    · simp only [seq_eq_ok, check_eq_ok, hread]
      refine ⟨by simpa using hfresh b List.mem_cons_self, ih ?_ fun c hc hmem => ?_⟩
      · simp only [blocksOk, Bool.and_eq_true, decide_eq_true_eq]
        exact ⟨⟨hall, hrefs⟩, hnodup⟩
      · rcases List.mem_cons.mp hmem with heq | hmem
        · exact hne (heq ▸ List.mem_map_of_mem (List.mem_map_of_mem hc))
        · exact hfresh c (List.mem_cons_of_mem _ hc) hmem

theorem validateMetaRecord_of_metaOk {shared object : JsObject ν} (h : metaOk (toJsonObject object) = true) :
    validateMetaRecord shared object = .ok () := by
  simp only [metaOk, Bool.and_eq_true, memberMayBe_toJsonObject isNullableStr_toJson,
    memberMayBe_toJsonObject isNullableObj_toJson] at h
  obtain ⟨⟨⟨herror, htask⟩, htrace⟩, hstats⟩ := h
  simp only [validateMetaRecord, seq_eq_ok, check_eq_ok]
  exact ⟨htask, htrace, hstats, validateMetaError_of_metaOk herror⟩

/-- The own list of blocks of a snapshot whose document is well formed. -/
theorem exists_blocks {object : JsObject ν} (h : modelOk rules (toJsonObject object) = true) :
    ∃ bs : List (JsObject ν), Fields.get? object (.own "blocks") = some (.arr (bs.map .obj)) ∧
      blocksOk rules (modelVersion (toJsonObject object)) (bs.map toJsonObject) = true := by
  obtain ⟨docs, hdocs, hok⟩ := exists_blocks_of_modelOk h
  unfold modelBlocks at hdocs
  rw [get?_toJsonObject] at hdocs
  cases hget : Fields.get? object (.own "blocks") with
  | none => simp [hget, rules] at hdocs
  | some v =>
    simp only [hget, Option.map_some] at hdocs
    obtain ⟨items, harr, hobjs⟩ := Option.bind_eq_some_iff.mp hdocs
    rw [asArr_toJson] at harr
    obtain ⟨xs, hxs, rfl⟩ := Option.map_eq_some_iff.mp harr
    obtain ⟨bs, rfl, rfl⟩ := exists_objs hobjs
    exact ⟨bs, by rw [DocTree.asArr_eq_some.mp hxs], hok⟩

/-- The version of a snapshot, read plainly. -/
theorem readString_version {shared object : JsObject ν} (h : modelOk rules (toJsonObject object) = true) :
    readString shared object "version" = modelVersion (toJsonObject object) ∧
      (modelVersion (toJsonObject object) == some "1.0" ||
        modelVersion (toJsonObject object) == some protocolVersion) = true := by
  simp only [modelOk, Bool.and_eq_true] at h
  have hversion := h.1.1.1
  unfold versionOk at hversion
  unfold modelVersion
  cases hget : Fields.get? (toJsonObject object) "version" with
  | none => simp [hget, rules] at hversion
  | some v =>
    simp only [hget] at hversion ⊢
    refine ⟨?_, hversion⟩
    rw [get?_toJsonObject] at hget
    obtain ⟨u, hu, rfl⟩ := Option.map_eq_some_iff.mp hget
    rw [readString, read_of_own hu, Option.bind_some, asStr_toJson]

/-- The own metadata of a snapshot whose document is well formed. -/
theorem exists_meta {object : JsObject ν} (h : modelOk rules (toJsonObject object) = true) :
    ∃ record, Fields.get? object (.own "meta") = some (.obj record) ∧ metaOk (toJsonObject record) = true := by
  obtain ⟨m, hm, hmeta⟩ := exists_meta_of_modelOk h
  rw [get?_toJsonObject] at hm
  obtain ⟨u, hu, hobj⟩ := Option.map_eq_some_iff.mp hm
  cases u with
  | leaf a => simp [toJson] at hobj
  | arr xs => simp [toJson] at hobj
  | obj record =>
    obtain rfl : toJsonObject record = m := by simpa [toJson] using hobj
    exact ⟨record, hu, hmeta rfl⟩

/-- `parseUIModel` accepts a snapshot whose document is well formed, whatever prototypes it has got. -/
theorem parseUIModel_of_modelOk {shared object : JsObject ν} (h : modelOk rules (toJsonObject object) = true) :
    parseUIModel shared object = .ok () := by
  obtain ⟨bs, hbs, hblocks⟩ := exists_blocks h
  obtain ⟨record, hrecord, hmeta⟩ := exists_meta h
  obtain ⟨hversion, hknown⟩ : readString shared object "version" = _ ∧ _ := readString_version h
  simp only [modelOk, Bool.and_eq_true] at h
  simp only [parseUIModel, seq_eq_ok, check_eq_ok, hversion]
  refine ⟨hknown, readNonEmpty_of_toJsonObject h.1.1.2, ?_, ?_⟩
  · rw [read_of_own hrecord]
    exact validateMetaRecord_of_metaOk hmeta
  · rw [read_of_own hbs]
    exact validateBlocks_of_blocksOk hblocks fun b _ => by simp

end AgentUE.TypeScript
