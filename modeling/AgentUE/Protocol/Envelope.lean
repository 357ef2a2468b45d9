import AgentUE.Data.DocTree
import AgentUE.Data.Text

/-!
# The event envelope

JSON documents with opaque numbers (`ν`), and one event as its JSON object has it: each member of the
envelope is absent or holds a value of the type that `schema/v1/patch-event.schema.json` gives it.
-/

namespace AgentUE

open Data

/-- The leaves of a JSON document. -/
inductive Scalar (ν : Type) where
  | null
  | bool (b : Bool)
  | num (n : ν)
  | str (s : String)
deriving DecidableEq

/-- A JSON document. -/
abbrev Json (ν : Type) := DocTree String (Scalar ν)

/-- The members of a JSON object. -/
abbrev JsonObject (ν : Type) := List (String × Json ν)

instance {ν : Type} [DecidableEq ν] : DecidableEq (JsonObject ν) := inferInstance

namespace Data.DocTree

variable {κ ν : Type}

@[match_pattern] abbrev null : DocTree κ (Scalar ν) := .leaf .null

@[match_pattern] abbrev num (n : ν) : DocTree κ (Scalar ν) := .leaf (.num n)

@[match_pattern] abbrev str (s : String) : DocTree κ (Scalar ν) := .leaf (.str s)

/-- The text of a string. -/
def asStr : DocTree κ (Scalar ν) → Option String
  | .str s => some s
  | _ => none

/-- Whether the value is `null`. -/
def isNull : DocTree κ (Scalar ν) → Bool
  | .null => true
  | _ => false

/-- Whether the value is an object. -/
def isObj (v : DocTree κ (Scalar ν)) : Bool := v.asObj.isSome

@[simp] theorem asStr_str (s : String) : asStr (DocTree.str s : DocTree κ (Scalar ν)) = some s := rfl

@[simp] theorem asStr_eq_some {v : DocTree κ (Scalar ν)} {s : String} : asStr v = some s ↔ v = DocTree.str s := by
  constructor
  · intro h
    unfold asStr at h
    split at h <;> simp_all
  · rintro rfl
    rfl

/-- A string of at least one character. -/
def isNonEmptyStr (v : DocTree κ (Scalar ν)) : Bool :=
  match asStr v with
  | some s => s != ""
  | none => false

/-- A string or `null`. -/
def isNullableStr (v : DocTree κ (Scalar ν)) : Bool := isNull v || (asStr v).isSome

/-- An object or `null`. -/
def isNullableObj (v : DocTree κ (Scalar ν)) : Bool := isNull v || isObj v

@[simp] theorem isNonEmptyStr_iff {v : DocTree κ (Scalar ν)} :
    isNonEmptyStr v = true ↔ ∃ s, v = DocTree.str s ∧ s ≠ "" := by
  unfold isNonEmptyStr
  cases h : asStr v with
  | none =>
    simp only [Bool.false_eq_true, false_iff, not_exists, not_and]
    rintro s rfl
    simp at h
  | some s => simp [asStr_eq_some.mp h]

end Data.DocTree

/-- The six operations. -/
inductive PatchOp where
  | start
  | set
  | append
  | error
  | ping
  | end_
deriving DecidableEq

/-- One event as its JSON object has it. -/
structure Envelope (ν : Type) where
  op : PatchOp
  seq : ℕ
  streamId : Option String
  ts : Option ℕ
  mask : Option String
  eventType : Option String
  model : Option (JsonObject ν)
  meta_ : Option (JsonObject ν)
  block : Option (JsonObject ν)
deriving DecidableEq

/-- Why one of the three SDKs refuses an event or a model. The comments give the texts of the
sources; `Py`, `Go` and `Ts` mark a text that only one SDK has. -/
inductive Rejection where
  /-- `model is only allowed for start event` -/
  | modelOnlyForStart
  /-- `start event requires model` (Go: `start event requires only model`) -/
  | startRequiresModel
  /-- `start event only accepts model` -/
  | startOnlyAcceptsModel
  /-- `set event requires exactly one of meta or block` -/
  | setRequiresOnePayload
  /-- `set event without mask requires block` -/
  | setWithoutMaskRequiresBlock
  /-- `set mask must start with …` -/
  | setMaskMustStartWith (root : String)
  /-- `append event requires block` (Go: `append event requires block and a block field mask`) -/
  | appendRequiresBlock
  /-- `append event does not accept meta` -/
  | appendDoesNotAcceptMeta
  /-- `append mask must match 'block.<field>'` -/
  | appendMask
  /-- `error event requires mask='meta.error' and meta.error` -/
  | errorRequiresMetaError
  /-- Ts: `meta.error requires string code and message` -/
  | errorRequiresCodeAndMessage
  /-- `error event does not accept block` -/
  | errorDoesNotAcceptBlock
  /-- `… event does not accept state payloads` -/
  | doesNotAcceptPayload (op : PatchOp)
  /-- `reference blocks require whole-block set` -/
  | referenceRequiresWholeBlock
  /-- `block id and ref cannot be patched; use whole-block set for references` -/
  | cannotPatchIdOrRef
  /-- Py: `inline blocks cannot contain ref` -/
  | inlineCannotContainRef
  /-- `block requires a non-empty id` -/
  | blockRequiresId
  /-- `inline block requires a non-empty type` -/
  | blockRequiresType
  /-- `parent_id must be a string or null` -/
  | blockFieldType (field : String)
  /-- `model block must be an object` -/
  | blockMustBeObject
  /-- `reference block requires a non-empty ref` -/
  | referenceRequiresRef
  /-- `reference block only accepts id and ref` -/
  | referenceOnlyAcceptsIdAndRef
  /-- `model version must be 1.0 or 1.1` -/
  | modelVersion
  /-- `model requires a non-empty biz` -/
  | modelRequiresBiz
  /-- `model meta must be an object` -/
  | modelMetaMustBeObject
  /-- a common metadata member has a value of another type -/
  | metaFieldType (field : String)
  /-- `model requires blocks`, `model blocks must be an array` -/
  | modelBlocks
  /-- `duplicate block id: …` -/
  | duplicateBlockId (id : String)
  /-- `reference blocks require model version 1.1` -/
  | referenceRequiresVersion
  /-- `unsupported append mask …` -/
  | unsupportedAppendMask (mask : String)
  /-- `append block requires a non-empty id` -/
  | appendBlockRequiresId
  /-- `append block does not contain field …` -/
  | appendBlockLacksField (field : String)
  /-- `append field … must be a string or list` -/
  | appendFieldMustBeStringOrList (field : String)
  /-- `append field … has incompatible value types` -/
  | appendIncompatible (field : String)
  /-- `append for a missing block requires a complete block with type` -/
  | appendRequiresCompleteBlock
  /-- `set block requires a non-empty id` -/
  | setBlockRequiresId
  /-- `invalid set mask …` -/
  | invalidSetMask (mask : String)
  /-- `payload does not contain masked value …` -/
  | payloadLacksMaskedValue (mask : String)
  /-- `target block does not exist: …` -/
  | targetBlockDoesNotExist
  /-- `unsupported set mask root …` -/
  | unsupportedSetMaskRoot (root : String)
  /-- `unresolved reference block …; materialize before field patches` -/
  | unresolvedReference
  /-- `snapshot blocks must be a list` -/
  | snapshotBlocks
  /-- `snapshot block must be an object` -/
  | snapshotBlock
  /-- Ts: `snapshot meta must be an object` -/
  | snapshotMeta
  /-- Go: a JSON integer does not fit its field -/
  | decode
  /-- Go: `unsupported AgentUE operation …` -/
  | unsupportedOperation (op : String)
  /-- `patch event … must be a non-negative integer` (Py: a float that is not finite) -/
  | mustBeInteger (field : String)
  /-- Ts: `Object.prototype` has an immutable prototype -/
  | immutablePrototype
  /-- Py: `IndexError` of `mask.split(".")[1]` -/
  | indexError
deriving DecidableEq

section Except

variable {ε α β : Type}

/-- `if not b: raise r` -/
def check (b : Bool) (r : ε) : Except ε Unit := if b then .ok () else .error r

@[simp] theorem check_eq_ok {b : Bool} {r : ε} : check b r = .ok () ↔ b = true := by
  cases b <;> simp [check]

theorem bind_eq_ok {x : Except ε α} {f : α → Except ε β} {b : β} :
    (x >>= f) = .ok b ↔ ∃ a, x = .ok a ∧ f a = .ok b := by
  cases x <;> simp [bind, Except.bind]

/-- `bind_eq_ok` for a step that only checks. -/
theorem seq_eq_ok {x : Except ε Unit} {f : Unit → Except ε β} {b : β} :
    (x >>= f) = .ok b ↔ x = .ok () ∧ f () = .ok b := by
  cases x <;> simp [bind, Except.bind]

theorem toOption_eq_some {x : Except ε α} {a : α} : x.toOption = some a ↔ x = .ok a := by
  cases x <;> simp [Except.toOption]

end Except

end AgentUE
