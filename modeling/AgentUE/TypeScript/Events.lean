import AgentUE.TypeScript.Copies
import Mathlib.Data.Rat.Cast.Order

/-!
# TypeScript SDK: parsing an unknown value

Reference: `parsePatchEvent` in `sdks/typescript/src/ui/event.ts`, with the tests of keys and types that the reader of
an envelope has behind it. Numbers are those of the language; the process is fresh.
-/

namespace AgentUE.TypeScript

open Data

/-- A number: the value of a finite double, which is rational, or else an infinity or `NaN`. -/
abbrev Number := Option ℚ

/-- `Number.isInteger(x)` -/
def Number.isInteger (x : Number) : Bool := x.any fun q => q.den == 1

/-- A member of an event that no JSON text needs. -/
abbrev Unknown := Js Number

/-- Why `parsePatchEvent` refuses a value. -/
inductive EventRejection where
  /-- `patch event must be an object` -/
  | mustBeObject
  /-- `patch event contains unknown field …` -/
  | unknownField (key : String)
  /-- `unsupported patch operation: …` -/
  | unsupportedOperation (op : Option Unknown)
  /-- `patch event … must be a non-negative integer` -/
  | mustBeInteger (key : String)
  /-- `patch event … must be a string` -/
  | mustBeString (key : String)
  /-- `patch event … must be an object` -/
  | mustBeRecord (key : String)
  | payload (r : Rejection)
deriving DecidableEq

namespace Unknown

/-- `EVENT_KEYS` -/
def eventKeys : List String := ["op", "seq", "stream_id", "ts", "mask", "event_type", "model", "meta", "block"]

/-- `PATCH_OPS` -/
def patchOp : String → Option PatchOp
  | "start" => some .start
  | "set" => some .set
  | "append" => some .append
  | "error" => some .error
  | "ping" => some .ping
  | "end" => some .end_
  | _ => none

/-- `!Number.isInteger(v) || v < 0` is false. -/
def isNaturalNumber : Unknown → Bool
  | .num x => Number.isInteger x && x.any fun q => decide (0 ≤ q)
  | _ => false

/-- The record under a key; a key that is there holds one after `assertOptionalRecord`. -/
def recordAt (value : JsObject Number) (key : String) : JsObject Number :=
  ((read [] value key).bind DocTree.asObj).getD []

/-- `validateBlockFieldPatch` -/
def validateBlockFieldPatch (mask : String) (block : JsObject Number) : Except Rejection Unit := do
  check (!hasOwn block "ref") .referenceRequiresWholeBlock
  let field := (Text.split mask '.')[1]?
  check (!(field == some "ref" || field == some "id")) .cannotPatchIdOrRef

/-- `validateSet` -/
def validateSet (value : JsObject Number) : Except Rejection Unit := do
  let hasMeta := hasOwn value "meta"
  let hasBlock := hasOwn value "block"
  check (hasMeta != hasBlock) .setRequiresOnePayload
  check (hasOwn value "mask" || hasBlock) .setWithoutMaskRequiresBlock
  let expected := if hasMeta then "meta." else "block."
  check ((readString [] value "mask").all fun mask => Text.hasPrefix mask expected) (.setMaskMustStartWith expected)
  if hasBlock then
    let block := recordAt value "block"
    assertBlockId [] block
    if hasOwn value "mask" then validateBlockFieldPatch ((readString [] value "mask").getD "") block
    else validateBlock [] block

/-- `validateAppend` -/
def validateAppend (value : JsObject Number) : Except Rejection Unit := do
  check (hasOwn value "block") .appendRequiresBlock
  check (!hasOwn value "meta") .appendDoesNotAcceptMeta
  let mask := readString [] value "mask"
  check (mask.any fun mask => Text.hasPrefix mask "block.") .appendMask
  assertBlockId [] (recordAt value "block")
  validateBlockFieldPatch (mask.getD "") (recordAt value "block")

/-- `validateError` -/
def validateError (value : JsObject Number) : Except Rejection Unit := do
  check (readString [] value "mask" == some "meta.error") .errorRequiresMetaError
  match ((read [] value "meta").bind DocTree.asObj).bind fun m => (read [] m "error").bind DocTree.asObj with
  | none => .error .errorRequiresMetaError
  | some error =>
    check ((readString [] error "code").isSome && (readString [] error "message").isSome) .errorRequiresCodeAndMessage
    check (!hasOwn value "block") .errorDoesNotAcceptBlock

/-- `op !== PatchOp.START && hasOwn(value, "model")`, and the `switch (op)`. -/
def validatePayload (op : PatchOp) (value : JsObject Number) : Except Rejection Unit := do
  check (op == .start || !hasOwn value "model") .modelOnlyForStart
  match op with
  | .start =>
    check (hasOwn value "model") .startRequiresModel
    check (!(hasOwn value "meta" || hasOwn value "block")) .startOnlyAcceptsModel
    parseUIModel [] (recordAt value "model")
  | .set => validateSet value
  | .append => validateAppend value
  | .error => validateError value
  | op => check (!(hasOwn value "meta" || hasOwn value "block" || hasOwn value "mask")) (.doesNotAcceptPayload op)

/-- `assertOptionalNumber`, `assertOptionalString` and `assertOptionalRecord`, in their order. -/
def assertOptionals (value : JsObject Number) : Except EventRejection Unit := do
  check (memberMayBe isNaturalNumber value (.own "ts")) (.mustBeInteger "ts")
  check (memberMayBe (fun v => v.asStr.isSome) value (.own "stream_id")) (.mustBeString "stream_id")
  check (memberMayBe (fun v => v.asStr.isSome) value (.own "mask")) (.mustBeString "mask")
  check (memberMayBe (fun v => v.asStr.isSome) value (.own "event_type")) (.mustBeString "event_type")
  check (memberMayBe DocTree.isObj value (.own "model")) (.mustBeRecord "model")
  check (memberMayBe DocTree.isObj value (.own "meta")) (.mustBeRecord "meta")
  check (memberMayBe DocTree.isObj value (.own "block")) (.mustBeRecord "block")

/-- `parsePatchEvent` on a value that is no string; what it accepts it returns. -/
def parsePatchEvent (input : Unknown) : Except EventRejection Unknown :=
  match DocTree.asObj input with
  | none => .error .mustBeObject
  | some value => do
    match (ownKeys value).find? fun key => !eventKeys.elem key with
    | some key => .error (.unknownField key)
    | none =>
      match (readString [] value "op").bind patchOp with
      | none => .error (.unsupportedOperation (read [] value "op"))
      | some op =>
        check ((read [] value "seq").any isNaturalNumber) (.mustBeInteger "seq")
        assertOptionals value
        match validatePayload op value with
        | .error r => .error (.payload r)
        | .ok () => return input

/-- `parsePatchEvent(value)` returns. -/
def Accepted (value : Unknown) : Prop := parsePatchEvent value = .ok value

instance (value : Unknown) : Decidable (Accepted value) := inferInstanceAs (Decidable (_ = _))

/-- An object with the members of an event: what is left to check is its payload. -/
theorem accepted_iff {value : JsObject Number} {op : PatchOp} (hkeys : ∀ k ∈ ownKeys value, k ∈ eventKeys)
    (hop : (readString [] value "op").bind patchOp = some op)
    (hseq : (read [] value "seq").any isNaturalNumber = true) (hoptionals : assertOptionals value = .ok ()) :
    Accepted (.obj value) ↔ validatePayload op value = .ok () := by
  have hknown : (ownKeys value).find? (fun key => !eventKeys.elem key) = none := by
    simpa [List.find?_eq_none] using hkeys
  simp only [Accepted, parsePatchEvent, DocTree.asObj, hknown, hop, hseq, hoptionals, seq_eq_ok, check_eq_ok, true_and]
  cases validatePayload op value <;> simp [pure, Except.pure]

end Unknown

/-! ## Object literals -/

/-- An object that has been written out or parsed: all of its members are its own. -/
def literal (members : List (String × Unknown)) : JsObject Number := members.map fun m => (.own m.1, m.2)

variable {members : List (String × Unknown)}

theorem get?_literal (k : String) : Fields.get? (literal members) (.own k) = Fields.get? members k := by
  induction members with
  | nil => rfl
  | cons m members ih =>
    obtain ⟨j, v⟩ := m
    by_cases hj : j = k
    · simp [literal, Fields.get?_cons, hj]
    · simpa [literal, Fields.get?_cons, hj] using ih

@[simp] theorem hasOwn_literal (k : String) : hasOwn (literal members) k = Fields.has members k := by
  rw [hasOwn, Fields.has, get?_literal, Fields.has]

@[simp] theorem ownKeys_literal : ownKeys (literal members) = Fields.keys members := by
  induction members with
  | nil => rfl
  | cons m members ih => exact congrArg (m.1 :: ·) ih

/-- Nothing is inherited but functions and the accessor, which no check takes for a value. -/
@[simp] theorem read_literal (k : String) : read [] (literal members) k = Fields.get? members k := by
  have hinherited : readInherited [] k (literal members) = readObjectPrototype [] k := by
    induction members with
    | nil => rfl
    | cons m members ih => exact ih
  unfold read readMember
  rw [get?_literal]
  cases Fields.get? members k with
  | some v => rfl
  | none =>
    rw [hinherited]
    unfold readObjectPrototype
    simp only [Fields.get?_nil]
    split_ifs <;> rfl

@[simp] theorem memberMayBe_literal (p : Unknown → Bool) (k : String) :
    memberMayBe p (literal members) (.own k) = (Fields.get? members k).all p := by
  rw [memberMayBe, get?_literal]
  cases Fields.get? members k <;> rfl

/-- The object that `JSON.parse` makes of a document. -/
theorem literal_ofJson (fs : JsonObject Number) :
    literal (fs.map fun p => (p.1, ofJson p.2)) = ofJsonObject fs := by
  induction fs with
  | nil => rfl
  | cons p fs ih => exact congrArg (_ :: ·) ih

theorem get?_members (fs : JsonObject Number) (k : String) :
    Fields.get? (fs.map fun p => (p.1, ofJson p.2)) k = (Fields.get? fs k).map ofJson := by
  rw [← get?_literal, literal_ofJson, get?_ofJsonObject]

/-! ## Events as envelopes -/

/-- The number that an integer of a JSON text is read as, as far as the parser looks at it. -/
def Number.ofNat (n : ℕ) : Number := if n < infinityFrom then some n else none

/-- The members of an object are those of an envelope. -/
structure Encodes (members : List (String × Unknown)) (e : Envelope Number) : Prop where
  keys : ∀ k ∈ Fields.keys members, k ∈ Unknown.eventKeys
  op : ∃ name, Fields.get? members "op" = some (.str name) ∧ Unknown.patchOp name = some e.op
  seq : Fields.get? members "seq" = some (.num (.ofNat e.seq))
  streamId : Fields.get? members "stream_id" = e.streamId.map DocTree.str
  ts : Fields.get? members "ts" = e.ts.map fun ts => .num (.ofNat ts)
  mask : Fields.get? members "mask" = e.mask.map DocTree.str
  eventType : Fields.get? members "event_type" = e.eventType.map DocTree.str
  model : Fields.get? members "model" = e.model.map fun model => .obj (ofJsonObject model)
  meta_ : Fields.get? members "meta" = e.meta_.map fun m => .obj (ofJsonObject m)
  block : Fields.get? members "block" = e.block.map fun block => .obj (ofJsonObject block)

namespace Encodes

variable {e : Envelope Number}

theorem isNaturalNumber_ofNat (n : ℕ) : Unknown.isNaturalNumber (.num (.ofNat n)) = decide (n < infinityFrom) := by
  unfold Number.ofNat
  split_ifs with h <;> simp [Unknown.isNaturalNumber, Number.isInteger, h]

theorem fieldPatch_eq (mask : String) (block : JsonObject Number) :
    Unknown.validateBlockFieldPatch mask (ofJsonObject block) = validateBlockFieldPatch mask block := by
  rw [Unknown.validateBlockFieldPatch, validateBlockFieldPatch, hasOwn_ofJsonObject]

theorem validateSet_iff (h : Encodes members e) :
    Unknown.validateSet (literal members) = .ok () ↔ validateSet [] e = .ok () := by
  simp only [Unknown.validateSet, validateSet, validateSetMask, validateSetBlock, Unknown.recordAt, readString,
    hasOwn_literal, read_literal, Fields.has, h.mask, h.meta_, h.block, maskOf_nil, seq_eq_ok, check_eq_ok]
  cases e.meta_ <;> cases e.block <;> cases e.mask <;> simp [DocTree.asObj, fieldPatch_eq, pure, Except.pure]

theorem validateAppend_iff (h : Encodes members e) :
    Unknown.validateAppend (literal members) = .ok () ↔ validateAppend [] e = .ok () := by
  simp only [Unknown.validateAppend, validateAppend, Unknown.recordAt, readString, hasOwn_literal, read_literal,
    Fields.has, h.mask, h.meta_, h.block, maskOf_nil, seq_eq_ok, check_eq_ok]
  cases e.meta_ <;> cases e.block <;> cases e.mask <;> simp [DocTree.asObj, fieldPatch_eq, seq_eq_ok]

theorem validateError_iff (h : Encodes members e) :
    Unknown.validateError (literal members) = .ok () ↔ validateError [] e = .ok () := by
  have hblock : (!Fields.has members "block") = e.block.isNone := by
    rw [Fields.has, h.block]
    cases e.block <;> rfl
  have hmask : readString [] (literal members) "mask" = e.mask := by
    rw [readString, read_literal, h.mask]
    cases e.mask <;> rfl
  have hmeta : (read [] (literal members) "meta").bind DocTree.asObj = e.meta_.map ofJsonObject := by
    rw [read_literal, h.meta_]
    cases e.meta_ <;> rfl
  rw [Unknown.validateError, validateError, hmask, hmeta, maskOf_nil, metaOf_nil, hasOwn_literal, hblock]
  generalize ((e.meta_.map ofJsonObject).bind fun m => (read [] m "error").bind DocTree.asObj) = error
  cases error <;> rfl

theorem validatePayload_iff (h : Encodes members e) :
    (Unknown.validatePayload e.op (literal members) = .ok ()) ↔
      (e.op == .start || e.model.isNone) = true ∧ validatePayload [] e = .ok () := by
  have hmodel : Fields.has members "model" = e.model.isSome := by simp [Fields.has, h.model]
  have hmeta : Fields.has members "meta" = e.meta_.isSome := by simp [Fields.has, h.meta_]
  have hblock : Fields.has members "block" = e.block.isSome := by simp [Fields.has, h.block]
  have hmask : Fields.has members "mask" = e.mask.isSome := by simp [Fields.has, h.mask]
  cases hop : e.op with
  | start =>
    simp only [Unknown.validatePayload, validatePayload, hop, hasOwn_literal, hmodel, hmeta, hblock, Unknown.recordAt,
      read_literal, h.model]
    cases e.model <;> cases e.meta_ <;> cases e.block <;> simp [DocTree.asObj, seq_eq_ok]
  | set => simp [Unknown.validatePayload, validatePayload, hop, hmodel, h.validateSet_iff, seq_eq_ok]
  | append => simp [Unknown.validatePayload, validatePayload, hop, hmodel, h.validateAppend_iff, seq_eq_ok]
  | error => simp [Unknown.validatePayload, validatePayload, hop, hmodel, h.validateError_iff, seq_eq_ok]
  | ping => simp [Unknown.validatePayload, validatePayload, hop, hmodel, hmeta, hblock, hmask, seq_eq_ok, and_assoc]
  | end_ => simp [Unknown.validatePayload, validatePayload, hop, hmodel, hmeta, hblock, hmask, seq_eq_ok, and_assoc]

/-- On an object whose members are those of an envelope, the parser makes the checks of the envelope. -/
theorem accepted_iff (h : Encodes members e) :
    Unknown.Accepted (.obj (literal members)) ↔ parsePatchEvent [] e = .ok () := by
  obtain ⟨name, hname, hop⟩ := h.op
  have hseq : (Fields.get? members "seq").any Unknown.isNaturalNumber = decide (e.seq < infinityFrom) := by
    rw [h.seq, Option.any_some, isNaturalNumber_ofNat]
  have hts : (Fields.get? members "ts").all Unknown.isNaturalNumber = e.ts.all fun ts => decide (ts < infinityFrom) := by
    rw [h.ts]
    cases e.ts with
    | none => rfl
    | some ts => rw [Option.map_some, Option.all_some, isNaturalNumber_ofNat, Option.all_some]
  have hstring : ∀ v : Option String, (v.map (DocTree.str : String → Unknown)).all (fun v => v.asStr.isSome) = true := by
    rintro (_ | v) <;> rfl
  have hrecord : ∀ v : Option (JsonObject Number),
      (v.map fun v => (.obj (ofJsonObject v) : Unknown)).all DocTree.isObj = true := by
    rintro (_ | v) <;> rfl
  have hknown : (Fields.keys members).find? (fun key => !Unknown.eventKeys.elem key) = none := by
    simpa [List.find?_eq_none] using h.keys
  have hop : (readString [] (literal members) "op").bind Unknown.patchOp = some e.op := by
    rw [readString, read_literal, hname]
    exact hop
  rw [Unknown.Accepted, Unknown.parsePatchEvent, parsePatchEvent]
  simp only [DocTree.asObj, ownKeys_literal, hknown, hop, read_literal, hseq, Unknown.assertOptionals,
    memberMayBe_literal, hts, h.streamId, h.mask, h.eventType, h.model, h.meta_, h.block, hstring, hrecord, seq_eq_ok,
    check_eq_ok, and_true]
  rw [← h.validatePayload_iff]
  cases Unknown.validatePayload e.op (literal members) <;> simp [pure, Except.pure]

end Encodes

end AgentUE.TypeScript
