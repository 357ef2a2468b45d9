import AgentUE.Protocol.Numeral
import AgentUE.TypeScript.Values
import Mathlib.Algebra.Order.Ring.Nat

/-!
# TypeScript SDK: models and events

References: `sdks/typescript/src/ui/model.ts`, `sdks/typescript/src/ui/event.ts`. A plain property read
falls back to the prototype chain, a `hasOwn` test does not. The parameter `shared` holds what running
code has added to `Object.prototype`; it is empty in a fresh process. Events come from `JSON.parse`, the
models and snapshots that are validated may have been copied.
-/

namespace AgentUE.TypeScript

open Data

variable {ν : Type}

/-- `typeof v === "string"` for the plain read `object[k]`, with the string. -/
def readString (shared object : JsObject ν) (k : String) : Option String :=
  (read shared object k).bind DocTree.asStr

/-- `typeof v !== "string" || !v` is false: the plain read gives a non-empty string. -/
def readNonEmpty (shared object : JsObject ν) (k : String) : Bool :=
  (readString shared object k).any (· != "")

/-- `validateBlock` on an object -/
def validateBlock (shared input : JsObject ν) : Except Rejection Unit := do
  check (readNonEmpty shared input "id") .blockRequiresId
  if hasOwn input "ref" then
    check (readNonEmpty shared input "ref") .referenceRequiresRef
    check ((ownKeys input).all fun key => key == "id" || key == "ref") .referenceOnlyAcceptsIdAndRef
  else
    check (readNonEmpty shared input "type") .blockRequiresType
    check (memberMayBe DocTree.isNullableStr input (.own "parent_id")) (.blockFieldType "parent_id")
    check (memberMayBe DocTree.isNullableStr input (.own "group_id")) (.blockFieldType "group_id")

/-- `validateError` of `model.ts` -/
def validateModelError (shared : JsObject ν) (input : Js ν) : Except Rejection Unit :=
  match input with
  | .obj error => do
    check ((readString shared error "code").isSome && (readString shared error "message").isSome)
      (.metaFieldType "error.code")
    check (memberMayBe DocTree.isNullableStr error (.own "detail")) (.metaFieldType "error.detail")
    check (memberMayBe DocTree.isNullableStr error (.own "trace_id")) (.metaFieldType "error.trace_id")
  | _ => .error (.metaFieldType "error")

/-- The last test of `validateMeta`: an error that is neither absent nor null. -/
def validateMetaError (shared input : JsObject ν) : Except Rejection Unit :=
  match Fields.get? input (.own "error") with
  | none => .ok ()
  | some error => if DocTree.isNull error then .ok () else validateModelError shared error

/-- `validateMeta` on an object -/
def validateMetaRecord (shared input : JsObject ν) : Except Rejection Unit := do
  check (memberMayBe DocTree.isNullableStr input (.own "task_id")) (.metaFieldType "task_id")
  check (memberMayBe DocTree.isNullableStr input (.own "trace_id")) (.metaFieldType "trace_id")
  check (memberMayBe DocTree.isNullableObj input (.own "stats")) (.metaFieldType "stats")
  validateMetaError shared input

/-- `validateMeta` -/
def validateMeta (shared : JsObject ν) (input : Option (Js ν)) : Except Rejection Unit :=
  match input.bind DocTree.asObj with
  | none => .error .modelMetaMustBeObject
  | some value => validateMetaRecord shared value

/-- The loop over `input.blocks` with the set of ids seen so far. -/
def validateBlocks (shared : JsObject ν) (version : Option String) :
    List (Js ν) → List (Option String) → Except Rejection Unit
  | [], _ => .ok ()
  | .obj block :: rest, ids => do
    validateBlock shared block
    check (!(hasOwn block "ref" && version != some protocolVersion)) .referenceRequiresVersion
    let id := readString shared block "id"
    check (!ids.elem id) (.duplicateBlockId (id.getD ""))
    validateBlocks shared version rest (id :: ids)
  | _ :: _, _ => .error .blockMustBeObject

/-- `parseUIModel` on an object -/
def parseUIModel (shared input : JsObject ν) : Except Rejection Unit := do
  let version := readString shared input "version"
  check (version == some "1.0" || version == some protocolVersion) .modelVersion
  check (readNonEmpty shared input "biz") .modelRequiresBiz
  validateMeta shared (read shared input "meta")
  match (read shared input "blocks").bind DocTree.asArr with
  | none => .error .modelBlocks
  | some blocks => validateBlocks shared version blocks []

/-- `value.mask` as a string -/
def maskOf (shared : JsObject ν) (value : Envelope ν) : Option String :=
  match value.mask with
  | some mask => some mask
  | none => readString shared [] "mask"

/-- `value.meta` as an object -/
def metaOf (shared : JsObject ν) (value : Envelope ν) : Option (JsObject ν) :=
  match value.meta_ with
  | some object => some (ofJsonObject object)
  | none => (read shared [] "meta").bind DocTree.asObj

/-- `assertBlockId` -/
def assertBlockId (shared block : JsObject ν) : Except Rejection Unit :=
  check (readNonEmpty shared block "id") .blockRequiresId

/-- `validateBlockFieldPatch` -/
def validateBlockFieldPatch (mask : String) (block : JsonObject ν) : Except Rejection Unit := do
  check (!Fields.has block "ref") .referenceRequiresWholeBlock
  let field := (Text.split mask '.')[1]?
  check (!(field == some "ref" || field == some "id")) .cannotPatchIdOrRef

/-- The mask test of `validateSet`. -/
def validateSetMask (shared : JsObject ν) (value : Envelope ν) : Except Rejection Unit :=
  match maskOf shared value with
  | none => .ok ()
  | some mask =>
    let expected := if value.meta_.isSome then "meta." else "block."
    check (Text.hasPrefix mask expected) (.setMaskMustStartWith expected)

/-- The block test of `validateSet`. -/
def validateSetBlock (shared : JsObject ν) (value : Envelope ν) : Except Rejection Unit :=
  match value.block with
  | none => .ok ()
  | some block => do
    assertBlockId shared (ofJsonObject block)
    match value.mask with
    | none => validateBlock shared (ofJsonObject block)
    | some mask => validateBlockFieldPatch mask block

/-- `validateSet` -/
def validateSet (shared : JsObject ν) (value : Envelope ν) : Except Rejection Unit := do
  check (value.meta_.isSome != value.block.isSome) .setRequiresOnePayload
  check (!(value.mask.isNone && value.block.isNone)) .setWithoutMaskRequiresBlock
  validateSetMask shared value
  validateSetBlock shared value

/-- `validateAppend` -/
def validateAppend (shared : JsObject ν) (value : Envelope ν) : Except Rejection Unit :=
  match value.block with
  | none => .error .appendRequiresBlock
  | some block => do
    check value.meta_.isNone .appendDoesNotAcceptMeta
    match maskOf shared value with
    | none => .error .appendMask
    | some mask =>
      check (Text.hasPrefix mask "block.") .appendMask
      assertBlockId shared (ofJsonObject block)
      validateBlockFieldPatch mask block

/-- `validateError` of `event.ts` -/
def validateError (shared : JsObject ν) (value : Envelope ν) : Except Rejection Unit := do
  check (maskOf shared value == some "meta.error") .errorRequiresMetaError
  match (metaOf shared value).bind fun m => (read shared m "error").bind DocTree.asObj with
  | none => .error .errorRequiresMetaError
  | some error =>
    check ((readString shared error "code").isSome && (readString shared error "message").isSome)
      .errorRequiresCodeAndMessage
    check value.block.isNone .errorDoesNotAcceptBlock

/-- The `switch (op)` of `parsePatchEvent`. -/
def validatePayload (shared : JsObject ν) (value : Envelope ν) : Except Rejection Unit :=
  match value.op with
  | .start =>
    match value.model with
    | none => .error .startRequiresModel
    | some model => do
      check (value.meta_.isNone && value.block.isNone) .startOnlyAcceptsModel
      parseUIModel shared (ofJsonObject model)
  | .set => validateSet shared value
  | .append => validateAppend shared value
  | .error => validateError shared value
  | op => check (value.meta_.isNone && value.block.isNone && value.mask.isNone) (.doesNotAcceptPayload op)

/-- `parsePatchEvent` on an object whose members have the types of the envelope. `JSON.parse` makes `Infinity` of large
integers, which `Number.isInteger` refuses. -/
def parsePatchEvent (shared : JsObject ν) (value : Envelope ν) : Except Rejection Unit := do
  check (decide (value.seq < infinityFrom)) (.mustBeInteger "seq")
  check (value.ts.all fun ts => decide (ts < infinityFrom)) (.mustBeInteger "ts")
  check (value.op == .start || value.model.isNone) .modelOnlyForStart
  validatePayload shared value

/-! ## Which models and blocks are accepted in a fresh process -/

/-- All rules of the schema. -/
def rules : Rules where
  requireVersion := true
  requireBlocks := true
  checkGroupId := true
  checkMeta := true

theorem readString_ofJsonObject (object : JsonObject ν) (k : String) :
    readString [] (ofJsonObject object) k = (Fields.get? object k).bind DocTree.asStr := by
  rw [readString, read_ofJsonObject]
  cases Fields.get? object k with
  | none => rfl
  | some v => exact asStr_ofJson v

theorem readString_id_ofJsonObject (block : JsonObject ν) : readString [] (ofJsonObject block) "id" = idOf block :=
  readString_ofJsonObject block "id"

theorem readNonEmpty_ofJsonObject (object : JsonObject ν) (k : String) :
    readNonEmpty [] (ofJsonObject object) k = memberIs DocTree.isNonEmptyStr object k := by
  rw [readNonEmpty, readString_ofJsonObject, memberIs]
  cases Fields.get? object k with
  | none => rfl
  | some v => cases hv : v.asStr <;> simp [DocTree.isNonEmptyStr, hv]

theorem hasOwn_ofJsonObject (object : JsonObject ν) (k : String) :
    hasOwn (ofJsonObject object) k = Fields.has object k := by
  rw [← has_toJsonObject, toJsonObject_ofJsonObject]

theorem memberMayBe_ofJsonObject {p : Js ν → Bool} {q : Json ν → Bool} (h : ∀ v, q (toJson v) = p v)
    (object : JsonObject ν) (k : String) :
    memberMayBe p (ofJsonObject object) (.own k) = memberMayBe q object k := by
  rw [← memberMayBe_toJsonObject h, toJsonObject_ofJsonObject]

@[simp] theorem maskOf_nil (value : Envelope ν) : maskOf [] value = value.mask := by
  unfold maskOf
  cases value.mask <;> rfl

@[simp] theorem metaOf_nil (value : Envelope ν) : metaOf [] value = value.meta_.map ofJsonObject := by
  unfold metaOf
  cases value.meta_ <;> rfl

theorem validateBlock_eq_ok_iff (input : JsonObject ν) :
    validateBlock [] (ofJsonObject input) = .ok () ↔ blockOk rules input = true := by
  unfold validateBlock blockOk
  have hkeys : ownKeys (ofJsonObject input) = Fields.keys input := by
    rw [← keys_toJsonObject, toJsonObject_ofJsonObject]
  rw [seq_eq_ok, check_eq_ok, readNonEmpty_ofJsonObject, hasOwn_ofJsonObject]
  by_cases href : Fields.has input "ref" = true
  · simp only [href, if_true, seq_eq_ok, check_eq_ok, readNonEmpty_ofJsonObject, referenceBlockOk, hkeys,
      Bool.and_eq_true, and_assoc]
  · simp only [href, Bool.false_eq_true, if_false, seq_eq_ok, check_eq_ok, readNonEmpty_ofJsonObject,
      memberMayBe_ofJsonObject isNullableStr_toJson, inlineBlockOk, rules, Bool.not_true, Bool.false_or,
      Bool.and_eq_true, and_assoc]

theorem validateBlocks_eq_ok_iff {version : Option String} {items : List (Json ν)}
    {ids : List (Option String)} :
    validateBlocks [] version (ofJsonItems items) ids = .ok () ↔
      ∃ blocks, DocTree.asObjs items = some blocks ∧ blocksOk rules version blocks = true ∧
        ∀ b ∈ blocks, idOf b ∉ ids := by
  induction items generalizing ids with
  | nil => simp [ofJsonItems, validateBlocks, DocTree.asObjs, blocksOk]
  | cons item rest ih =>
    cases item with
    | leaf a => simp [ofJsonItems, ofJson, validateBlocks, DocTree.asObjs]
    | arr xs => simp [ofJsonItems, ofJson, validateBlocks, DocTree.asObjs]
    | obj block =>
      have hver : (Fields.has block "ref" && version != some protocolVersion) = false ↔
          (!Fields.has block "ref" || version == some protocolVersion) = true := by
        cases Fields.has block "ref" <;> simp
      simp only [ofJsonItems, ofJson, validateBlocks, seq_eq_ok, check_eq_ok, validateBlock_eq_ok_iff,
        readString_id_ofJsonObject, hasOwn_ofJsonObject, ih, DocTree.asObjs, Option.map_eq_some_iff,
        Bool.not_eq_true', List.elem_eq_mem, decide_eq_false_iff_not, hver]
      constructor
      · rintro ⟨hblock, hv, hids, tail, htail, hok, hfresh⟩
        simp only [blocksOk, Bool.and_eq_true, decide_eq_true_eq] at hok
        refine ⟨block :: tail, ⟨tail, htail, rfl⟩, ?_, ?_⟩
        · have hne : idOf block ∉ tail.map idOf := fun hmem => by
            obtain ⟨b, hb, heq⟩ := List.mem_map.mp hmem
            exact hfresh b hb (heq ▸ List.mem_cons_self)
          simp only [blocksOk, List.all_cons, hblock, hv, hok.1.1, hok.1.2, List.map_cons,
            List.nodup_cons, hne, hok.2, Bool.and_self, not_false_iff, and_self, decide_true]
        · intro b hb
          rcases List.mem_cons.mp hb with rfl | hb
          · exact hids
          · exact fun hmem => hfresh b hb (List.mem_cons_of_mem _ hmem)
      · rintro ⟨blocks, ⟨tail, htail, rfl⟩, hok, hfresh⟩
        simp only [blocksOk, List.all_cons, Bool.and_eq_true, decide_eq_true_eq, List.map_cons,
          List.nodup_cons] at hok
        obtain ⟨⟨⟨hblock, hall⟩, hv, hrefs⟩, hne, hnodup⟩ := hok
        refine ⟨hblock, hv, hfresh block List.mem_cons_self, tail, htail, ?_, ?_⟩
        · simp only [blocksOk, hall, hrefs, hnodup, Bool.and_self, decide_true]
        · intro b hb hmem
          rcases List.mem_cons.mp hmem with heq | hmem
          · exact hne (heq ▸ List.mem_map_of_mem hb)
          · exact hfresh b (List.mem_cons_of_mem _ hb) hmem

theorem validateMetaError_eq_ok_iff (input : JsonObject ν) :
    validateMetaError [] (ofJsonObject input) = .ok () ↔ memberMayBe isNullableError input "error" = true := by
  unfold validateMetaError memberMayBe isNullableError
  rw [get?_ofJsonObject]
  cases Fields.get? input "error" with
  | none => simp
  | some v =>
    cases v with
    | leaf a => cases a <;> simp [ofJson, DocTree.isNull, validateModelError]
    | arr xs => simp [ofJson, DocTree.isNull, validateModelError]
    | obj error =>
      have hstr : ∀ k, (readString [] (ofJsonObject error) k).isSome =
          memberIs (fun v => v.asStr.isSome) error k := by
        intro k
        rw [readString_ofJsonObject, memberIs]
        cases Fields.get? error k <;> rfl
      simp only [Option.map_some, ofJson, DocTree.isNull, Bool.false_eq_true, if_false, validateModelError,
        errorInfoOk, seq_eq_ok, check_eq_ok, hstr, memberMayBe_ofJsonObject isNullableStr_toJson,
        Bool.and_eq_true, and_assoc]

theorem validateMetaRecord_eq_ok_iff (input : JsonObject ν) :
    validateMetaRecord [] (ofJsonObject input) = .ok () ↔ metaOk input = true := by
  simp only [validateMetaRecord, metaOk, seq_eq_ok, check_eq_ok, validateMetaError_eq_ok_iff,
    memberMayBe_ofJsonObject isNullableStr_toJson, memberMayBe_ofJsonObject isNullableObj_toJson,
    Bool.and_eq_true]
  tauto

/-- `parseUIModel` accepts exactly the models of the schema. -/
theorem parseUIModel_eq_ok_iff (input : JsonObject ν) :
    parseUIModel [] (ofJsonObject input) = .ok () ↔ modelOk rules input = true := by
  have hversion : (readString [] (ofJsonObject input) "version" == some "1.0" ||
      readString [] (ofJsonObject input) "version" == some protocolVersion) = versionOk rules input := by
    rw [readString_ofJsonObject, versionOk]
    cases Fields.get? input "version" with
    | none => rfl
    | some v => rfl
  have hmodelVersion : versionOk rules input = true →
      readString [] (ofJsonObject input) "version" = modelVersion input := by
    rw [readString_ofJsonObject, versionOk, modelVersion]
    cases Fields.get? input "version" with
    | none => simp [rules]
    | some v => simp
  have hmeta : validateMeta [] (read [] (ofJsonObject input) "meta") = .ok () ↔
      modelMetaOk rules input = true := by
    rw [read_ofJsonObject, modelMetaOk, memberIs, validateMeta]
    cases Fields.get? input "meta" with
    | none => simp
    | some v =>
      cases v with
      | leaf a => simp [ofJson, DocTree.asObj]
      | arr xs => simp [ofJson, DocTree.asObj]
      | obj m => simp [ofJson, DocTree.asObj, validateMetaRecord_eq_ok_iff, rules]
  have hblocks : (match (read [] (ofJsonObject input) "blocks").bind DocTree.asArr with
      | none => (.error .modelBlocks : Except Rejection Unit)
      | some blocks => validateBlocks [] (modelVersion input) blocks []) = .ok () ↔
      (modelBlocks rules input).any (blocksOk rules (modelVersion input)) = true := by
    rw [read_ofJsonObject, modelBlocks]
    cases Fields.get? input "blocks" with
    | none => simp [rules]
    | some v =>
      cases v with
      | leaf a => simp [ofJson, DocTree.asArr]
      | obj fs => simp [ofJson, DocTree.asArr]
      | arr xs => simp [ofJson, DocTree.asArr, validateBlocks_eq_ok_iff, Option.any_eq_true]
  rw [parseUIModel, seq_eq_ok, check_eq_ok, hversion, modelOk, Bool.and_eq_true, Bool.and_eq_true,
    Bool.and_eq_true, and_assoc, and_assoc]
  refine and_congr_right fun hv => ?_
  rw [hmodelVersion hv, seq_eq_ok, check_eq_ok, readNonEmpty_ofJsonObject, seq_eq_ok, hmeta, hblocks]

end AgentUE.TypeScript
