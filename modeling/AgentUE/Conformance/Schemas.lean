import AgentUE.Conformance.Validators
import AgentUE.Protocol.Schemas
import AgentUE.TypeScript.Events

/-!
# The validators and the schemas

What the validators of the three SDKs accept, measured against `schema/v1`: a model is valid when its schema accepts
it and its identities are distinct, up to what Python fills in and what Go does not look at; and the TypeScript parser
accepts of all JSON values those that satisfy the schema of events and the rules of their operation.
-/

namespace AgentUE.Conformance

open Data JsonSchema
open TypeScript (Number Unknown ofJson ofJsonObject)

variable {ν : Type} [DecidableEq ν]

/-! ## Models -/

/-- A model of the schema with distinct identities is one that TypeScript accepts, one with well-typed metadata that
Go accepts, and one that Python accepts without a default and with well-typed group identities, which it does not
declare. -/
theorem models_valid_iff_schema (numbers : Numbers ν) (model : JsonObject ν) :
    (TypeScript.parseUIModel [] (ofJsonObject model) = .ok () ↔
      modelSchema.accepts numbers (.obj model) = true ∧ DistinctIds model) ∧
    (Go.validateModel model = .ok () ∧ memberIs (fun v => v.asObj.any metaOk) model "meta" = true ↔
      modelSchema.accepts numbers (.obj model) = true ∧ DistinctIds model) ∧
    (Python.UIModel.modelValidate model = .ok () ∧ writtenOut model = true ∧ groupIdsOk model = true ↔
      modelSchema.accepts numbers (.obj model) = true ∧ DistinctIds model) := by
  have hschema : modelOk TypeScript.rules model = true ↔
      modelSchema.accepts numbers (.obj model) = true ∧ DistinctIds model := modelOk_iff_accepts model
  rw [TypeScript.parseUIModel_eq_ok_iff, Go.validateModel_eq_ok_iff, Python.UIModel.modelValidate_eq_ok_iff,
    ← modelOk_typeScript_iff, ← modelOk_typeScript_iff_writtenOut]
  exact ⟨hschema, hschema, hschema⟩

/-! ## Events -/

/-- The numbers of JavaScript, as a schema looks at them. -/
def jsNumbers : Numbers Number where
  isInteger := Number.isInteger
  le x y := x.any fun p => y.any fun q => decide (p ≤ q)

/-- The operation of an event. -/
def operation (fs : JsonObject Number) : Option PatchOp :=
  ((Fields.get? fs "op").bind DocTree.asStr).bind Unknown.patchOp

/-- A field patch: the mask is below `block.` and its field neither `id` nor `ref`, the payload is an inline block
with an id. -/
def FieldPatchOk (mask : String) (block : JsonObject Number) : Prop :=
  Text.hasPrefix mask "block." = true ∧ memberIs DocTree.isNonEmptyStr block "id" = true ∧ patchable mask block = true

/-- A set carries metadata under a mask below `meta.`, a block of the schema of models, or a field patch. -/
def SetOk (fs : JsonObject Number) : Prop :=
  match Fields.get? fs "meta", Fields.get? fs "block", Fields.get? fs "mask" with
  | some _, none, some (.str mask) => Text.hasPrefix mask "meta." = true
  | none, some block, none => resolve jsNumbers modelSchema.defs "block" block = true
  | none, some (.obj block), some (.str mask) => FieldPatchOk mask block
  | _, _, _ => False

/-- An append carries a field patch. -/
def AppendOk (fs : JsonObject Number) : Prop :=
  match Fields.get? fs "meta", Fields.get? fs "block", Fields.get? fs "mask" with
  | none, some (.obj block), some (.str mask) => FieldPatchOk mask block
  | _, _, _ => False

/-- An error carries `meta.error` with a code and a message. -/
def ErrorOk (fs : JsonObject Number) : Prop :=
  match Fields.get? fs "meta", Fields.get? fs "block", Fields.get? fs "mask" with
  | some (.obj m), none, some (.str mask) => mask = "meta.error" ∧ ∃ error, Fields.get? m "error" = some (.obj error) ∧
    memberIs (fun v => v.asStr.isSome) error "code" = true ∧ memberIs (fun v => v.asStr.isSome) error "message" = true
  | _, _, _ => False

/-- The rules of an operation beyond the schema of events. The model of a start has a schema of its own. -/
def PayloadOk (fs : JsonObject Number) : PatchOp → Prop
  | .start => ∀ model, Fields.get? fs "model" = some (.obj model) →
    modelSchema.accepts jsNumbers (.obj model) = true ∧ DistinctIds model
  | .set => SetOk fs
  | .append => AppendOk fs
  | .error => ErrorOk fs
  | .ping | .end_ => Fields.has fs "meta" = false ∧ Fields.has fs "block" = false ∧ Fields.has fs "mask" = false

theorem isNatural_toJson (v : Unknown) :
    isNatural jsNumbers (some 0) (TypeScript.toJson v) = Unknown.isNaturalNumber v := by
  rcases v with (_ | _ | n | _) | _ | _ <;> rfl

theorem assertOptionals_iff (fs : JsonObject Number) : Unknown.assertOptionals (ofJsonObject fs) = .ok () ↔
    memberMayBe (isNatural jsNumbers (some 0)) fs "ts" = true ∧
      memberMayBe (fun v => v.asStr.isSome) fs "stream_id" = true ∧
      memberMayBe (fun v => v.asStr.isSome) fs "mask" = true ∧
      memberMayBe (fun v => v.asStr.isSome) fs "event_type" = true ∧
      memberMayBe DocTree.isObj fs "model" = true ∧ memberMayBe DocTree.isObj fs "meta" = true ∧
      memberMayBe DocTree.isObj fs "block" = true := by
  have hstring : ∀ k, memberMayBe (fun v => (DocTree.asStr v).isSome) (ofJsonObject fs) (.own k) =
      memberMayBe (fun v => v.asStr.isSome) fs k :=
    TypeScript.memberMayBe_ofJsonObject (fun v => by rw [TypeScript.asStr_toJson]) fs
  have hobject : ∀ k, memberMayBe DocTree.isObj (ofJsonObject fs) (.own k) = memberMayBe DocTree.isObj fs k :=
    TypeScript.memberMayBe_ofJsonObject (fun v => by cases v <;> rfl) fs
  simp only [Unknown.assertOptionals, seq_eq_ok, check_eq_ok, hstring, hobject,
    TypeScript.memberMayBe_ofJsonObject isNatural_toJson]

/-- What the parser checks before it looks at the payload. -/
theorem accepted_obj_iff (fs : JsonObject Number) : Unknown.Accepted (ofJson (.obj fs)) ↔
    (∀ k ∈ Fields.keys fs, k ∈ Unknown.eventKeys) ∧ ∃ op, operation fs = some op ∧
      memberIs (isNatural jsNumbers (some 0)) fs "seq" = true ∧
      Unknown.assertOptionals (ofJsonObject fs) = .ok () ∧
      Unknown.validatePayload op (ofJsonObject fs) = .ok () := by
  have hkeys : TypeScript.ownKeys (ofJsonObject fs) = Fields.keys fs := by
    rw [← TypeScript.keys_toJsonObject, TypeScript.toJsonObject_ofJsonObject]
  have hop : (TypeScript.readString [] (ofJsonObject fs) "op").bind Unknown.patchOp = operation fs := by
    rw [TypeScript.readString_ofJsonObject]
    rfl
  have hseq : (TypeScript.read [] (ofJsonObject fs) "seq").any Unknown.isNaturalNumber =
      memberIs (isNatural jsNumbers (some 0)) fs "seq" := by
    rw [TypeScript.read_ofJsonObject, memberIs]
    cases Fields.get? fs "seq" with
    | none => rfl
    | some v =>
      rw [Option.map_some, Option.any_some, ← isNatural_toJson, TypeScript.toJson_ofJson]
  have hfind : (Fields.keys fs).find? (fun key => !Unknown.eventKeys.elem key) = none ↔
      ∀ k ∈ Fields.keys fs, k ∈ Unknown.eventKeys := by
    simp [List.find?_eq_none]
  rw [← hfind]
  show Unknown.parsePatchEvent (.obj (ofJsonObject fs)) = .ok (.obj (ofJsonObject fs)) ↔ _
  simp only [Unknown.parsePatchEvent, DocTree.asObj, hkeys, hop, hseq]
  cases (Fields.keys fs).find? fun key => !Unknown.eventKeys.elem key with
  | some key => simp
  | none =>
    cases operation fs with
    | none => simp
    | some op =>
      simp only [seq_eq_ok, check_eq_ok, true_and, Option.some.injEq, exists_eq_left']
      cases Unknown.validatePayload op (ofJsonObject fs) <;> simp [pure, Except.pure]

/-- The name of the operation is one of the six. -/
theorem exists_patchOp_iff (name : String) : (∃ op, Unknown.patchOp name = some op) ↔ name ∈ operationNames := by
  constructor
  · rintro ⟨op, h⟩
    unfold Unknown.patchOp at h
    split at h
    all_goals cases h
    all_goals decide
  · intro h
    simp only [operationNames, List.mem_cons, List.not_mem_nil, or_false] at h
    rcases h with rfl | rfl | rfl | rfl | rfl | rfl
    all_goals exact ⟨_, rfl⟩

theorem patchOp_start_iff {name : String} {op : PatchOp} (h : Unknown.patchOp name = some op) :
    name = "start" ↔ op = .start := by
  constructor
  · rintro rfl
    exact (Option.some.inj h).symm
  · rintro rfl
    unfold Unknown.patchOp at h
    split at h
    · rfl
    all_goals cases h

section

/-! The three slots of a payload have the types of the schema of events. -/

variable {fs : JsonObject Number} (hmask : memberMayBe (fun v => v.asStr.isSome) fs "mask" = true)
  (hmeta : memberMayBe DocTree.isObj fs "meta" = true) (hblock : memberMayBe DocTree.isObj fs "block" = true)

theorem fieldPatch_iff (mask : String) (block : JsonObject Number) :
    (Text.hasPrefix mask "block." = true ∧ TypeScript.assertBlockId [] (ofJsonObject block) = .ok () ∧
      Unknown.validateBlockFieldPatch mask (ofJsonObject block) = .ok ()) ↔ FieldPatchOk mask block := by
  rw [TypeScript.Encodes.fieldPatch_eq, typeScript_fieldPatch_iff, TypeScript.assertBlockId, check_eq_ok,
    TypeScript.readNonEmpty_ofJsonObject, FieldPatchOk]

/-- An optional member of a type is absent or of that type. -/
theorem absent_or_str {k : String} (h : memberMayBe (fun v => v.asStr.isSome) fs k = true) :
    Fields.get? fs k = none ∨ ∃ s, Fields.get? fs k = some (.str s) := by
  cases hget : Fields.get? fs k with
  | none => exact .inl rfl
  | some v =>
    obtain ⟨s, hs⟩ := Option.isSome_iff_exists.mp (memberMayBe_iff.mp h v hget)
    exact .inr ⟨s, by rw [DocTree.asStr_eq_some.mp hs]⟩

theorem absent_or_obj {k : String} (h : memberMayBe DocTree.isObj fs k = true) :
    Fields.get? fs k = none ∨ ∃ o, Fields.get? fs k = some (.obj o) := by
  cases hget : Fields.get? fs k with
  | none => exact .inl rfl
  | some v =>
    obtain ⟨o, ho⟩ := Option.isSome_iff_exists.mp (memberMayBe_iff.mp h v hget)
    exact .inr ⟨o, by rw [DocTree.asObj_eq_some.mp ho]⟩

include hmask hmeta hblock

theorem validateSet_iff_setOk : Unknown.validateSet (ofJsonObject fs) = .ok () ↔ SetOk fs := by
  have hwhole : ∀ block : JsonObject Number, TypeScript.assertBlockId [] (ofJsonObject block) = .ok () ∧
      TypeScript.validateBlock [] (ofJsonObject block) = .ok () ↔
        resolve jsNumbers modelSchema.defs "block" (.obj block) = true := by
    intro block
    rw [resolve_block_iff, TypeScript.validateBlock_eq_ok_iff, TypeScript.assertBlockId, check_eq_ok,
      TypeScript.readNonEmpty_ofJsonObject]
    exact ⟨fun h => h.2, fun h => ⟨memberIs_id_of_blockOk h, h⟩⟩
  have hobj : ∀ o : JsonObject Number, (ofJson (.obj o)).asObj = some (ofJsonObject o) := fun _ => rfl
  simp only [Unknown.validateSet, Unknown.recordAt, SetOk, TypeScript.hasOwn_ofJsonObject, TypeScript.read_ofJsonObject,
    TypeScript.readString_ofJsonObject, Fields.has, seq_eq_ok, check_eq_ok]
  rcases absent_or_obj hmeta with hm | ⟨m, hm⟩ <;> rcases absent_or_obj hblock with hb | ⟨block, hb⟩ <;>
    rcases absent_or_str hmask with hk | ⟨mask, hk⟩
  all_goals simp only [hm, hb, hk]
  case inl.inr.inl => simpa [hobj, seq_eq_ok] using hwhole block
  case inl.inr.inr => simpa [hobj, seq_eq_ok] using fieldPatch_iff mask block
  all_goals simp [pure, Except.pure]

theorem validateAppend_iff_appendOk : Unknown.validateAppend (ofJsonObject fs) = .ok () ↔ AppendOk fs := by
  have hobj : ∀ o : JsonObject Number, (ofJson (.obj o)).asObj = some (ofJsonObject o) := fun _ => rfl
  simp only [Unknown.validateAppend, Unknown.recordAt, AppendOk, TypeScript.hasOwn_ofJsonObject,
    TypeScript.read_ofJsonObject, TypeScript.readString_ofJsonObject, Fields.has, seq_eq_ok, check_eq_ok]
  rcases absent_or_obj hmeta with hm | ⟨m, hm⟩ <;> rcases absent_or_obj hblock with hb | ⟨block, hb⟩ <;>
    rcases absent_or_str hmask with hk | ⟨mask, hk⟩
  all_goals simp only [hm, hb, hk]
  case inl.inr.inr => simpa [hobj, seq_eq_ok] using fieldPatch_iff mask block
  all_goals simp

theorem validateError_iff_errorOk : Unknown.validateError (ofJsonObject fs) = .ok () ↔ ErrorOk fs := by
  have hobj : ∀ o : JsonObject Number, (ofJson (.obj o)).asObj = some (ofJsonObject o) := fun _ => rfl
  simp only [Unknown.validateError, ErrorOk, TypeScript.hasOwn_ofJsonObject, TypeScript.read_ofJsonObject,
    TypeScript.readString_ofJsonObject, Fields.has, seq_eq_ok, check_eq_ok]
  rcases absent_or_obj hmeta with hm | ⟨m, hm⟩ <;> rcases absent_or_obj hblock with hb | ⟨block, hb⟩ <;>
    rcases absent_or_str hmask with hk | ⟨mask, hk⟩
  all_goals simp only [hm, hb, hk]
  case inr.inl.inr =>
    simp only [Option.map_some, Option.bind_some, hobj, asObj_read_ofJsonObject, DocTree.asStr_str, beq_iff_eq,
      Option.some.injEq]
    refine and_congr_right fun _ => ?_
    have hget : ∀ error, (Fields.get? m "error").bind DocTree.asObj = some error ↔
        Fields.get? m "error" = some (.obj error) := by
      intro error
      simp [Option.bind_eq_some_iff]
    simp only [← hget]
    cases (Fields.get? m "error").bind DocTree.asObj with
    | none => simp
    | some error => simp [seq_eq_ok, isSome_readString_ofJsonObject]
  case inr.inr.inr =>
    -- the block is refused behind the error
    simp only [Option.map_some, Option.bind_some, hobj, iff_false, not_and]
    intro _
    cases (TypeScript.read [] (ofJsonObject m) "error").bind DocTree.asObj <;> simp [seq_eq_ok]
  all_goals simp

end

/-- The payload of an event of the schema is checked by the rules of its operation. -/
theorem validatePayload_iff_payloadOk {fs : JsonObject Number} {name : String} {op : PatchOp}
    (h : SchemaEvent jsNumbers (some 0) fs name) (hop : Unknown.patchOp name = some op) :
    Unknown.validatePayload op (ofJsonObject fs) = .ok () ↔ PayloadOk fs op := by
  have hpayload := h.payload
  by_cases hstart : op = .start
  · rw [if_pos ((patchOp_start_iff hop).mpr hstart)] at hpayload
    obtain ⟨hmodel, hmeta, hblock⟩ := hpayload
    obtain ⟨v, hv⟩ := (Fields.has_eq_true_iff _ _).mp hmodel
    obtain ⟨model, hobj⟩ := Option.isSome_iff_exists.mp (memberMayBe_iff.mp h.model v hv)
    obtain rfl := DocTree.asObj_eq_some.mp hobj
    have hrecord : Unknown.recordAt (ofJsonObject fs) "model" = ofJsonObject model := by
      rw [Unknown.recordAt, TypeScript.read_ofJsonObject, hv]
      rfl
    have hiff := (models_valid_iff_schema jsNumbers model).1
    subst hstart
    simp only [Unknown.validatePayload, TypeScript.hasOwn_ofJsonObject, hmodel, hmeta, hblock, hrecord, seq_eq_ok,
      check_eq_ok, PayloadOk, hv, hiff]
    simp
  · rw [if_neg fun h => hstart ((patchOp_start_iff hop).mp h)] at hpayload
    cases op with
    | start => exact absurd rfl hstart
    | set =>
      simp [Unknown.validatePayload, TypeScript.hasOwn_ofJsonObject, hpayload, seq_eq_ok, PayloadOk,
        validateSet_iff_setOk h.mask h.meta_ h.block]
    | append =>
      simp [Unknown.validatePayload, TypeScript.hasOwn_ofJsonObject, hpayload, seq_eq_ok, PayloadOk,
        validateAppend_iff_appendOk h.mask h.meta_ h.block]
    | error =>
      simp [Unknown.validatePayload, TypeScript.hasOwn_ofJsonObject, hpayload, seq_eq_ok, PayloadOk,
        validateError_iff_errorOk h.mask h.meta_ h.block]
    | ping =>
      simp [Unknown.validatePayload, TypeScript.hasOwn_ofJsonObject, hpayload, seq_eq_ok, PayloadOk, and_assoc]
    | end_ =>
      simp [Unknown.validatePayload, TypeScript.hasOwn_ofJsonObject, hpayload, seq_eq_ok, PayloadOk, and_assoc]

end AgentUE.Conformance
