import AgentUE.Protocol.Envelope

/-!
# What a well-formed model is

The model and block rules of the protocol as predicates on JSON objects. `schema/v1/model.schema.json`
checks all of them; each SDK leaves some out, and `Rules` says which. The validators of the SDKs are
embedded in their own modules and shown there to accept exactly the models of their rules.
-/

namespace AgentUE

open Data

/-- `PROTOCOL_VERSION` -/
def protocolVersion : String := "1.1"

/-- Which of the optional checks a validator makes. -/
structure Rules where
  /-- `version` must be present -/
  requireVersion : Bool
  /-- `blocks` must be present -/
  requireBlocks : Bool
  /-- `group_id` of an inline block must be a string or null -/
  checkGroupId : Bool
  /-- the common members of `meta` must have their types -/
  checkMeta : Bool

variable {ν : Type}

section Members

variable {κ α : Type} [DecidableEq κ]

/-- The member `k` is present and satisfies `p`. -/
def memberIs (p : DocTree κ α → Bool) (fs : List (κ × DocTree κ α)) (k : κ) : Bool :=
  match Fields.get? fs k with
  | some v => p v
  | none => false

/-- The member `k` is absent or satisfies `p`. -/
def memberMayBe (p : DocTree κ α → Bool) (fs : List (κ × DocTree κ α)) (k : κ) : Bool :=
  match Fields.get? fs k with
  | some v => p v
  | none => true

variable {p : DocTree κ α → Bool} {fs gs : List (κ × DocTree κ α)} {k : κ}

theorem memberIs_iff : memberIs p fs k = true ↔ ∃ v, Fields.get? fs k = some v ∧ p v = true := by
  unfold memberIs
  cases Fields.get? fs k <;> simp

theorem memberMayBe_iff : memberMayBe p fs k = true ↔ ∀ v, Fields.get? fs k = some v → p v = true := by
  unfold memberMayBe
  cases Fields.get? fs k <;> simp

theorem memberIs_iff_has : memberIs p fs k = true ↔ Fields.has fs k = true ∧ memberMayBe p fs k = true := by
  unfold memberIs memberMayBe Fields.has
  cases Fields.get? fs k <;> simp

/-- The checks of a member see only that member. -/
theorem memberIs_congr (h : Fields.get? fs k = Fields.get? gs k) : memberIs p fs k = memberIs p gs k := by
  unfold memberIs
  rw [h]

theorem memberMayBe_congr (h : Fields.get? fs k = Fields.get? gs k) :
    memberMayBe p fs k = memberMayBe p gs k := by
  unfold memberMayBe
  rw [h]

end Members

/-! ## Blocks -/

/-- The identity of a block. -/
def idOf (block : JsonObject ν) : Option String := (Fields.get? block "id").bind DocTree.asStr

theorem idOf_congr {b b' : JsonObject ν} (h : Fields.get? b' "id" = Fields.get? b "id") : idOf b' = idOf b := by
  rw [idOf, idOf, h]

/-- An inline block: a non-empty `id` and `type`, and string or null hierarchy members. -/
def inlineBlockOk (R : Rules) (block : JsonObject ν) : Bool :=
  memberIs DocTree.isNonEmptyStr block "id" && memberIs DocTree.isNonEmptyStr block "type" &&
    memberMayBe DocTree.isNullableStr block "parent_id" &&
    (!R.checkGroupId || memberMayBe DocTree.isNullableStr block "group_id")

/-- A reference block: exactly a non-empty `id` and a non-empty `ref`. -/
def referenceBlockOk (block : JsonObject ν) : Bool :=
  memberIs DocTree.isNonEmptyStr block "id" && memberIs DocTree.isNonEmptyStr block "ref" &&
    (Fields.keys block).all fun k => k == "id" || k == "ref"

/-- A complete block in either form. -/
def blockOk (R : Rules) (block : JsonObject ν) : Bool :=
  if Fields.has block "ref" then referenceBlockOk block else inlineBlockOk R block

theorem exists_idOf_of_memberIs {block : JsonObject ν}
    (h : memberIs DocTree.isNonEmptyStr block "id" = true) :
    ∃ id, idOf block = some id ∧ id ≠ "" := by
  obtain ⟨v, hv, hp⟩ := memberIs_iff.mp h
  obtain ⟨id, rfl, hid⟩ := DocTree.isNonEmptyStr_iff.mp hp
  exact ⟨id, by simp [idOf, hv], hid⟩

theorem memberIs_id_of_idOf {block : JsonObject ν} {id : String} (h : idOf block = some id)
    (hid : id ≠ "") : memberIs DocTree.isNonEmptyStr block "id" = true := by
  unfold idOf at h
  cases hv : Fields.get? block "id" with
  | none => simp [hv] at h
  | some v =>
    rw [hv] at h
    obtain rfl : v = DocTree.str id := by simpa using h
    exact memberIs_iff.mpr ⟨_, hv, DocTree.isNonEmptyStr_iff.mpr ⟨id, rfl, hid⟩⟩

theorem memberIs_id_of_blockOk {R : Rules} {block : JsonObject ν} (h : blockOk R block = true) :
    memberIs DocTree.isNonEmptyStr block "id" = true := by
  unfold blockOk at h
  split at h
  · simp only [referenceBlockOk, Bool.and_eq_true] at h
    exact h.1.1
  · simp only [inlineBlockOk, Bool.and_eq_true] at h
    exact h.1.1.1

/-- Every well-formed block has a non-empty identity. -/
theorem exists_idOf_of_blockOk {R : Rules} {block : JsonObject ν} (h : blockOk R block = true) :
    ∃ id, idOf block = some id ∧ id ≠ "" :=
  exists_idOf_of_memberIs (memberIs_id_of_blockOk h)

/-! ## Metadata -/

/-- `ErrorInfo`: string `code` and `message`, string or null `detail` and `trace_id`. -/
def errorInfoOk (error : JsonObject ν) : Bool :=
  memberIs (fun v => v.asStr.isSome) error "code" && memberIs (fun v => v.asStr.isSome) error "message" &&
    memberMayBe DocTree.isNullableStr error "detail" && memberMayBe DocTree.isNullableStr error "trace_id"

/-- `null` or an `ErrorInfo` object. -/
def isNullableError (v : Json ν) : Bool :=
  match v with
  | .null => true
  | .obj error => errorInfoOk error
  | _ => false

/-- `ModelMeta`: the four common members have their types. -/
def metaOk (m : JsonObject ν) : Bool :=
  memberMayBe isNullableError m "error" && memberMayBe DocTree.isNullableStr m "task_id" &&
    memberMayBe DocTree.isNullableStr m "trace_id" && memberMayBe DocTree.isNullableObj m "stats"

/-! ## Models -/

/-- `version` is 1.0 or 1.1, or absent where that is allowed. -/
def versionOk (R : Rules) (model : JsonObject ν) : Bool :=
  match Fields.get? model "version" with
  | none => !R.requireVersion
  | some v => v.asStr == some "1.0" || v.asStr == some protocolVersion

/-- The version a model has; an absent one defaults to the current version. -/
def modelVersion (model : JsonObject ν) : Option String :=
  match Fields.get? model "version" with
  | none => some protocolVersion
  | some v => v.asStr

/-- The blocks of a model; `none` when `blocks` is not a list of objects or is missing where it must
not be. -/
def modelBlocks (R : Rules) (model : JsonObject ν) : Option (List (JsonObject ν)) :=
  match Fields.get? model "blocks" with
  | none => if R.requireBlocks then none else some []
  | some v => v.asArr.bind DocTree.asObjs

/-- Complete blocks with pairwise distinct identities, references only in version 1.1. -/
def blocksOk (R : Rules) (version : Option String) (blocks : List (JsonObject ν)) : Bool :=
  blocks.all (blockOk R) && blocks.all (fun b => !Fields.has b "ref" || version == some protocolVersion) &&
    decide (blocks.map idOf).Nodup

/-- `meta` is an object, and well typed where that is checked. -/
def modelMetaOk (R : Rules) (model : JsonObject ν) : Bool :=
  memberIs (fun v => v.asObj.any fun m => !R.checkMeta || metaOk m) model "meta"

/-- A well-formed model under the rules `R`. -/
def modelOk (R : Rules) (model : JsonObject ν) : Bool :=
  versionOk R model && memberIs DocTree.isNonEmptyStr model "biz" && modelMetaOk R model &&
    (modelBlocks R model).any (blocksOk R (modelVersion model))

end AgentUE
