import AgentUE.Protocol.Document
import AgentUE.Protocol.Numeral

/-!
# Python SDK: models and events

References: `sdks/python/src/agentue/model.py`, `sdks/python/src/agentue/event.py`. The pydantic models
are embedded by the checks that their declared fields and validators make; which of several
simultaneous errors pydantic reports first is not modelled beyond the field order.
-/

namespace AgentUE.Python

open Data

variable {ν : Type}

/-- `BaseBlock.model_validate` -/
def BaseBlock.modelValidate (value : JsonObject ν) : Except Rejection Unit := do
  check (!Fields.has value "ref") .inlineCannotContainRef
  check (memberIs DocTree.isNonEmptyStr value "id") .blockRequiresId
  check (memberIs DocTree.isNonEmptyStr value "type") .blockRequiresType
  check (memberMayBe DocTree.isNullableStr value "parent_id") (.blockFieldType "parent_id")

/-- `ReferenceBlock.model_validate` -/
def ReferenceBlock.modelValidate (value : JsonObject ν) : Except Rejection Unit := do
  check (memberIs DocTree.isNonEmptyStr value "id") .blockRequiresId
  check (memberIs DocTree.isNonEmptyStr value "ref") .referenceRequiresRef
  check ((Fields.keys value).all fun k => k == "id" || k == "ref") .referenceOnlyAcceptsIdAndRef

/-- `validate_block` -/
def validateBlock (value : JsonObject ν) : Except Rejection Unit :=
  if Fields.has value "ref" then ReferenceBlock.modelValidate value else BaseBlock.modelValidate value

/-- `ErrorInfo.model_validate` -/
def ErrorInfo.modelValidate (value : JsonObject ν) : Except Rejection Unit := do
  check (memberIs (fun v => v.asStr.isSome) value "code") (.metaFieldType "error.code")
  check (memberIs (fun v => v.asStr.isSome) value "message") (.metaFieldType "error.message")
  check (memberMayBe DocTree.isNullableStr value "detail") (.metaFieldType "error.detail")
  check (memberMayBe DocTree.isNullableStr value "trace_id") (.metaFieldType "error.trace_id")

/-- The field `error: ErrorInfo | None`. -/
def validateError (value : JsonObject ν) : Except Rejection Unit :=
  match Fields.get? value "error" with
  | none => .ok ()
  | some .null => .ok ()
  | some (.obj error) => ErrorInfo.modelValidate error
  | some _ => .error (.metaFieldType "error")

/-- `ModelMeta.model_validate` -/
def ModelMeta.modelValidate (value : JsonObject ν) : Except Rejection Unit := do
  validateError value
  check (memberMayBe DocTree.isNullableStr value "task_id") (.metaFieldType "task_id")
  check (memberMayBe DocTree.isNullableStr value "trace_id") (.metaFieldType "trace_id")
  check (memberMayBe DocTree.isNullableObj value "stats") (.metaFieldType "stats")

/-- `version: Literal["1.0", "1.1"] = "1.1"` -/
def validateVersion (model : JsonObject ν) : Except Rejection (Option String) :=
  match Fields.get? model "version" with
  | none => .ok (some protocolVersion)
  | some v => do
    check (v.asStr == some "1.0" || v.asStr == some protocolVersion) .modelVersion
    return v.asStr

/-- `meta: SerializeAsAny[ModelMeta]` -/
def validateMeta (model : JsonObject ν) : Except Rejection Unit :=
  match (Fields.get? model "meta").bind DocTree.asObj with
  | none => .error .modelMetaMustBeObject
  | some value => ModelMeta.modelValidate value

/-- `blocks: list[SerializeAsAny[BaseBlock] | ReferenceBlock]`, an element of the list at a time. -/
def validateItems : List (Json ν) → Except Rejection (List (JsonObject ν))
  | [] => .ok []
  | .obj block :: rest => do
    validateBlock block
    return block :: (← validateItems rest)
  | _ :: _ => .error .blockMustBeObject

/-- The field `blocks`, empty by default. -/
def validateBlockList (model : JsonObject ν) : Except Rejection (List (JsonObject ν)) :=
  match Fields.get? model "blocks" with
  | none => .ok []
  | some (.arr items) => validateItems items
  | some _ => .error .modelBlocks

/-- `UIModel.validate_blocks`: the loop with the set of ids seen so far. -/
def validateBlocks (version : Option String) :
    List (JsonObject ν) → List (Option String) → Except Rejection Unit
  | [], _ => .ok ()
  | block :: rest, ids => do
    check (!Fields.has block "ref" || version == some protocolVersion) .referenceRequiresVersion
    check (!ids.elem (idOf block)) (.duplicateBlockId ((idOf block).getD ""))
    validateBlocks version rest (idOf block :: ids)

/-- `UIModel.model_validate` -/
def UIModel.modelValidate (model : JsonObject ν) : Except Rejection Unit := do
  let version ← validateVersion model
  check (memberIs DocTree.isNonEmptyStr model "biz") .modelRequiresBiz
  validateMeta model
  let blocks ← validateBlockList model
  validateBlocks version blocks []

/-- `_validate_block_field_patch` -/
def validateBlockFieldPatch (mask : String) (block : JsonObject ν) : Except Rejection Unit := do
  check (!Fields.has block "ref") .referenceRequiresWholeBlock
  match (Text.split mask '.')[1]? with
  | none => .error .indexError
  | some field => check (!(field == "id" || field == "ref")) .cannotPatchIdOrRef

/-- The mask test of the branch `PatchOp.SET`. -/
def validateSetMask (event : Envelope ν) : Except Rejection Unit :=
  match event.mask with
  | none => .ok ()
  | some mask =>
    let expectedRoot := if event.meta_.isSome then "meta." else "block."
    check (Text.hasPrefix mask expectedRoot) (.setMaskMustStartWith expectedRoot)

/-- The block test of the branch `PatchOp.SET`. -/
def validateSetBlock (event : Envelope ν) : Except Rejection Unit :=
  match event.block, event.mask with
  | none, _ => .ok ()
  | some block, none => validateBlock block
  | some block, some mask => validateBlockFieldPatch mask block

/-- The branch of `PatchOp.SET` in `validate_operation`. -/
def validateSet (event : Envelope ν) : Except Rejection Unit := do
  check (event.meta_.isNone != event.block.isNone) .setRequiresOnePayload
  check (!(event.mask.isNone && event.block.isNone)) .setWithoutMaskRequiresBlock
  validateSetMask event
  validateSetBlock event

/-- The branch of `PatchOp.APPEND`. -/
def validateAppend (event : Envelope ν) : Except Rejection Unit :=
  match event.block with
  | none => .error .appendRequiresBlock
  | some block => do
    check event.meta_.isNone .appendDoesNotAcceptMeta
    match event.mask with
    | none => .error .appendMask
    | some mask =>
      check (Text.hasPrefix mask "block.") .appendMask
      validateBlockFieldPatch mask block

/-- The branch of `PatchOp.ERROR`. -/
def validateErrorEvent (event : Envelope ν) : Except Rejection Unit := do
  check (event.mask == some "meta.error" && memberIs DocTree.isObj (event.meta_.getD []) "error")
    .errorRequiresMetaError
  check event.block.isNone .errorDoesNotAcceptBlock

/-- `PatchEvent.validate_operation` -/
def validateOperation (event : Envelope ν) : Except Rejection Unit :=
  match event.op with
  | .start =>
    match event.model with
    | none => .error .startRequiresModel
    | some model => do
      check (event.meta_.isNone && event.block.isNone) .startOnlyAcceptsModel
      UIModel.modelValidate model
  | .set => do
    check event.model.isNone .modelOnlyForStart
    validateSet event
  | .append => do
    check event.model.isNone .modelOnlyForStart
    validateAppend event
  | .error => do
    check event.model.isNone .modelOnlyForStart
    validateErrorEvent event
  | op => do
    check event.model.isNone .modelOnlyForStart
    check (event.meta_.isNone && event.block.isNone && event.mask.isNone) (.doesNotAcceptPayload op)

/-- A field `int` takes the natural number: an integer of any size, or a float that is finite. -/
def readsInt (n : Natural) : Bool := n.numeral.isInteger || decide (n.value < infinityFrom)

/-- `PatchEvent.model_validate_json` on an object of the envelope's types -/
def PatchEvent.modelValidate (e : EventText) : Except Rejection Unit := do
  check (readsInt e.seq) (.mustBeInteger "seq")
  check (e.ts.all readsInt) (.mustBeInteger "ts")
  validateOperation e.envelope

/-! ## Which models and blocks are accepted -/

/-- `version` and `blocks` have defaults, and `group_id` belongs to `GroupedBlock` only. -/
def rules : Rules where
  requireVersion := false
  requireBlocks := false
  checkGroupId := false
  checkMeta := true

theorem validateBlock_eq_ok_iff (value : JsonObject ν) :
    validateBlock value = .ok () ↔ blockOk rules value = true := by
  unfold validateBlock blockOk
  by_cases href : Fields.has value "ref" = true
  · simp only [href, if_true, ReferenceBlock.modelValidate, referenceBlockOk, seq_eq_ok,
      check_eq_ok, Bool.and_eq_true, and_assoc]
  · simp only [href, Bool.false_eq_true, if_false, BaseBlock.modelValidate, inlineBlockOk, rules,
      seq_eq_ok, check_eq_ok, Bool.and_eq_true, and_assoc, Bool.not_false, Bool.true_or,
      and_true, true_and]

theorem validateItems_eq_ok_iff {items : List (Json ν)} {blocks : List (JsonObject ν)} :
    validateItems items = .ok blocks ↔
      DocTree.asObjs items = some blocks ∧ blocks.all (blockOk rules) = true := by
  induction items generalizing blocks with
  | nil =>
    simp only [validateItems, DocTree.asObjs, Except.ok.injEq, Option.some.injEq]
    constructor
    · rintro rfl
      exact ⟨rfl, rfl⟩
    · exact fun h => h.1
  | cons item rest ih =>
    cases item with
    | leaf a => simp [validateItems, DocTree.asObjs]
    | arr xs => simp [validateItems, DocTree.asObjs]
    | obj block =>
      rw [validateItems, seq_eq_ok, bind_eq_ok, validateBlock_eq_ok_iff, DocTree.asObjs,
        Option.map_eq_some_iff]
      constructor
      · rintro ⟨hblock, tail, htail, hcons⟩
        obtain rfl : block :: tail = blocks := by simpa [pure, Except.pure] using hcons
        obtain ⟨htail, hall⟩ := ih.mp htail
        exact ⟨⟨tail, htail, rfl⟩, by rw [List.all_cons, hblock, hall, Bool.true_and]⟩
      · rintro ⟨⟨tail, htail, rfl⟩, hall⟩
        rw [List.all_cons, Bool.and_eq_true] at hall
        exact ⟨hall.1, tail, ih.mpr ⟨htail, hall.2⟩, rfl⟩

/-- The loop over the blocks accepts exactly when no id repeats one seen before it. -/
theorem validateBlocks_eq_ok_iff {version : Option String} {blocks : List (JsonObject ν)}
    {ids : List (Option String)} :
    validateBlocks version blocks ids = .ok () ↔
      (blocks.all fun b => !Fields.has b "ref" || version == some protocolVersion) = true ∧
        (blocks.map idOf).Nodup ∧ ∀ b ∈ blocks, idOf b ∉ ids := by
  induction blocks generalizing ids with
  | nil => simp [validateBlocks]
  | cons block rest ih =>
    simp only [validateBlocks, seq_eq_ok, check_eq_ok, ih, List.all_cons, Bool.and_eq_true,
      List.map_cons, List.nodup_cons, List.mem_map, not_exists, not_and, List.mem_cons, forall_eq_or_imp,
      not_or, Bool.not_eq_true', List.elem_eq_mem, decide_eq_false_iff_not]
    constructor
    · rintro ⟨hver, hids, hall, hnodup, hfresh⟩
      exact ⟨⟨hver, hall⟩, ⟨fun b hb => (hfresh b hb).1, hnodup⟩, hids, fun b hb => (hfresh b hb).2⟩
    · rintro ⟨⟨hver, hall⟩, ⟨hne, hnodup⟩, hids, hfresh⟩
      exact ⟨hver, hids, hall, hnodup, fun b hb => ⟨hne b hb, hfresh b hb⟩⟩

theorem ModelMeta.modelValidate_eq_ok_iff (value : JsonObject ν) :
    ModelMeta.modelValidate value = .ok () ↔ metaOk value = true := by
  have herror : validateError value = .ok () ↔ memberMayBe isNullableError value "error" = true := by
    unfold validateError memberMayBe isNullableError
    cases Fields.get? value "error" with
    | none => simp
    | some v =>
      cases v with
      | leaf a => cases a <;> simp
      | arr xs => simp
      | obj error =>
        simp only [ErrorInfo.modelValidate, errorInfoOk, seq_eq_ok, check_eq_ok, Bool.and_eq_true,
          and_assoc]
  simp only [ModelMeta.modelValidate, metaOk, seq_eq_ok, check_eq_ok, herror, Bool.and_eq_true,
    and_assoc]

/-- `UIModel.model_validate` accepts exactly the models that are well formed under the Python rules. -/
theorem UIModel.modelValidate_eq_ok_iff (model : JsonObject ν) :
    UIModel.modelValidate model = .ok () ↔ modelOk rules model = true := by
  have hversion : ∀ v, validateVersion model = .ok v ↔
      versionOk rules model = true ∧ v = modelVersion model := by
    intro v
    unfold validateVersion versionOk modelVersion
    cases Fields.get? model "version" with
    | none =>
      simp only [rules, Bool.not_false, true_and, Except.ok.injEq]
      exact eq_comm
    | some w =>
      simp only [seq_eq_ok, check_eq_ok, pure, Except.pure, Except.ok.injEq]
      exact and_congr_right fun _ => eq_comm
  have hmeta : validateMeta model = .ok () ↔ modelMetaOk rules model = true := by
    unfold validateMeta modelMetaOk memberIs
    cases Fields.get? model "meta" with
    | none => simp
    | some v =>
      cases hv : v.asObj with
      | none => simp [hv]
      | some m => simp [hv, ModelMeta.modelValidate_eq_ok_iff, rules]
  have hblocks : ∀ bs, validateBlockList model = .ok bs ↔
      modelBlocks rules model = some bs ∧ bs.all (blockOk rules) = true := by
    intro bs
    unfold validateBlockList modelBlocks
    cases Fields.get? model "blocks" with
    | none =>
      simp only [rules, Bool.false_eq_true, if_false, Except.ok.injEq, Option.some.injEq]
      constructor
      · rintro rfl
        exact ⟨rfl, rfl⟩
      · exact fun h => h.1
    | some v =>
      cases v with
      | leaf a => simp [DocTree.asArr]
      | arr items => exact validateItems_eq_ok_iff
      | obj fs => simp [DocTree.asArr]
  have hloop : ∀ bs : List (JsonObject ν), bs.all (blockOk rules) = true →
      (validateBlocks (modelVersion model) bs [] = .ok () ↔
        blocksOk rules (modelVersion model) bs = true) := by
    intro bs hall
    rw [validateBlocks_eq_ok_iff, blocksOk, hall]
    simp
  rw [UIModel.modelValidate, modelOk, bind_eq_ok]
  simp only [seq_eq_ok, check_eq_ok, hmeta, Bool.and_eq_true, Option.any_eq_true]
  constructor
  · rintro ⟨v, hv, hbiz, hm, h⟩
    obtain ⟨hver, rfl⟩ := (hversion v).mp hv
    obtain ⟨bs, hbs, hrest⟩ := bind_eq_ok.mp h
    obtain ⟨hbs, hall⟩ := (hblocks bs).mp hbs
    exact ⟨⟨⟨hver, hbiz⟩, hm⟩, bs, hbs, (hloop bs hall).mp hrest⟩
  · rintro ⟨⟨⟨hv, hbiz⟩, hm⟩, bs, hbs, hok⟩
    have hall : bs.all (blockOk rules) = true := by
      simp only [blocksOk, Bool.and_eq_true] at hok
      exact hok.1.1
    exact ⟨_, (hversion _).mpr ⟨hv, rfl⟩, hbiz, hm,
      bind_eq_ok.mpr ⟨bs, (hblocks bs).mpr ⟨hbs, hall⟩, (hloop bs hall).mpr hok⟩⟩

end AgentUE.Python
