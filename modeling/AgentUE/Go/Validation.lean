import AgentUE.Protocol.Document
import Mathlib.Algebra.Order.Ring.Nat

/-!
# Go SDK: models and events

References: `sdks/go/ui/model.go`, `sdks/go/ui/event.go`. An `Event` holds decoded JSON; a nil map is
`none`, and an empty string stands for an absent one. A failed type assertion, an index out of range
and a write to a nil map are results of their own (`panic`).
-/

namespace AgentUE.Go

open Data

variable {ν : Type}

/-- How a Go function fails: with an error value or by a run-time panic. -/
inductive Failure where
  | err (r : Rejection)
  | panic
deriving DecidableEq

/-- `Op`, a string type with six declared constants. -/
inductive Op where
  | known (op : PatchOp)
  | other (text : String)
deriving DecidableEq

/-- `Event` -/
structure Event (ν : Type) where
  streamId : String
  op : Op
  seq : ℕ
  timestamp : Option ℤ
  mask : String
  eventType : String
  model : Option (JsonObject ν)
  meta_ : Option (JsonObject ν)
  block : Option (JsonObject ν)
deriving DecidableEq

/-- The event a decoder leaves: absent members are zero values. -/
def decoded (e : Envelope ν) : Event ν where
  streamId := e.streamId.getD ""
  op := .known e.op
  seq := e.seq
  timestamp := e.ts.map Int.ofNat
  mask := e.mask.getD ""
  eventType := e.eventType.getD ""
  model := e.model
  meta_ := e.meta_
  block := e.block

/-- `decoder.Decode(&event)` on an object of the envelope's types: `seq` is a `uint64` and `ts` an
`int64`. What it asks of the text, how numbers are written and how deep it nests, is in `Decoding`. -/
def decode (e : Envelope ν) : Except Failure (Event ν) := do
  check (decide (e.seq < 2 ^ 64)) (.err .decode)
  check (e.ts.all fun ts => decide (ts < 2 ^ 63)) (.err .decode)
  return decoded e

/-- `value, _ := object[k].(string)`: the zero value when absent or of another type. -/
def stringAt (object : JsonObject ν) (k : String) : String :=
  ((Fields.get? object k).bind DocTree.asStr).getD ""

/-- `ValidateBlock` -/
def validateBlock (block : JsonObject ν) : Except Failure Unit :=
  if stringAt block "id" = "" then .error (.err .blockRequiresId)
  else match Fields.get? block "ref" with
  | some ref => do
    check (DocTree.isNonEmptyStr ref) (.err .referenceRequiresRef)
    check (decide (Fields.size block = 2)) (.err .referenceOnlyAcceptsIdAndRef)
  | none => do
    check (stringAt block "type" != "") (.err .blockRequiresType)
    check (memberMayBe DocTree.isNullableStr block "parent_id") (.err (.blockFieldType "parent_id"))
    check (memberMayBe DocTree.isNullableStr block "group_id") (.err (.blockFieldType "group_id"))

/-- `blocksOf`, with the map it leaves behind: a missing list is created. -/
def blocksOf {α : Type} (snapshot : List (String × DocTree String α)) :
    Except Failure (List (List (String × DocTree String α)) × List (String × DocTree String α)) :=
  match Fields.get? snapshot "blocks" with
  | none => .ok ([], Fields.set snapshot "blocks" (.arr []))
  | some raw =>
    match raw.asArr with
    | none => .error (.err .snapshotBlocks)
    | some values =>
      match DocTree.asObjs values with
      | none => .error (.err .snapshotBlock)
      | some blocks => .ok (blocks, snapshot)

/-- The loop of `ValidateModel` with the set of ids seen so far. -/
def validateBlocks (version : String) : List (JsonObject ν) → List String → Except Failure Unit
  | [], _ => .ok ()
  | block :: rest, ids => do
    validateBlock block
    check (!(Fields.has block "ref" && version != protocolVersion)) (.err .referenceRequiresVersion)
    match idOf block with
    | none => .error .panic
    | some id =>
      check (!ids.elem id) (.err (.duplicateBlockId id))
      validateBlocks version rest (id :: ids)

/-- `ValidateModel` -/
def validateModel (model : JsonObject ν) : Except Failure Unit := do
  let version := stringAt model "version"
  check (version == "1.0" || version == protocolVersion) (.err .modelVersion)
  check (stringAt model "biz" != "") (.err .modelRequiresBiz)
  check (memberIs DocTree.isObj model "meta") (.err .modelMetaMustBeObject)
  check (Fields.has model "blocks") (.err .modelBlocks)
  let (blocks, _) ← blocksOf model
  validateBlocks version blocks []

/-- `validateBlockFieldPatch` -/
def validateBlockFieldPatch (mask : String) (block : JsonObject ν) : Except Failure Unit := do
  check (!Fields.has block "ref") (.err .referenceRequiresWholeBlock)
  match (Text.split mask '.')[1]? with
  | none => .error .panic
  | some field => check (!(field == "id" || field == "ref")) (.err .cannotPatchIdOrRef)

/-- The case `OpSet` of `Validate`. -/
def validateSet (event : Event ν) : Except Failure Unit := do
  check (event.meta_.isNone != event.block.isNone) (.err .setRequiresOnePayload)
  check (!(event.mask == "" && event.block.isNone)) (.err .setWithoutMaskRequiresBlock)
  let expected := if event.block.isSome then "block." else "meta."
  check (event.mask == "" || (Text.hasPrefix event.mask expected &&
    event.mask.toList.length != expected.toList.length)) (.err (.setMaskMustStartWith expected))
  match event.block with
  | none => .ok ()
  | some block => if event.mask = "" then validateBlock block else validateBlockFieldPatch event.mask block

/-- The case `OpAppend`. -/
def validateAppend (event : Event ν) : Except Failure Unit :=
  match event.block with
  | none => .error (.err .appendRequiresBlock)
  | some block => do
    check (event.meta_.isNone && Text.hasPrefix event.mask "block." && event.mask != "block.")
      (.err .appendRequiresBlock)
    validateBlockFieldPatch event.mask block

/-- The case `OpError`. -/
def validateError (event : Event ν) : Except Failure Unit :=
  check (event.mask == "meta.error" && memberIs DocTree.isObj (event.meta_.getD []) "error" &&
    event.block.isNone) (.err .errorRequiresMetaError)

/-- `Event.Validate` -/
def Event.validate (event : Event ν) : Except Failure Unit := do
  check (event.op == .known .start || event.model.isNone) (.err .modelOnlyForStart)
  match event.op with
  | .known .start =>
    match event.model with
    | none => .error (.err .startRequiresModel)
    | some model => do
      check (event.meta_.isNone && event.block.isNone && event.mask == "") (.err .startRequiresModel)
      validateModel model
  | .known .set => validateSet event
  | .known .append => validateAppend event
  | .known .error => validateError event
  | .known op =>
    check (event.model.isNone && event.meta_.isNone && event.block.isNone && event.mask == "")
      (.err (.doesNotAcceptPayload op))
  | .other text => .error (.err (.unsupportedOperation text))

/-- `Parse`, on an event that has been read from its text -/
def parse (e : Envelope ν) : Except Failure (Event ν) := do
  let event ← decode e
  event.validate
  return event

/-- `Start`, with the decoded model: `null` leaves a nil map. -/
def start (model : Option (JsonObject ν)) (seq : ℕ) : Except Failure (Event ν) := do
  let event : Event ν := ⟨"", .known .start, seq, none, "", "", model, none, none⟩
  event.validate
  return event

/-- `End` -/
def end_ (seq : ℕ) : Event ν := ⟨"", .known .end_, seq, none, "", "", none, none, none⟩

/-- `Ping` -/
def ping (seq : ℕ) : Event ν := ⟨"", .known .ping, seq, none, "", "", none, none, none⟩

/-- `json.Marshal` of an event: every member but `op` and `seq` is left out when it is empty. No event is
built with a negative timestamp. -/
def Event.encode (event : Event ν) (op : PatchOp) : Envelope ν where
  op := op
  seq := event.seq
  streamId := if event.streamId = "" then none else some event.streamId
  ts := event.timestamp.map Int.toNat
  mask := if event.mask = "" then none else some event.mask
  eventType := if event.eventType = "" then none else some event.eventType
  model := event.model.filter fun m => !m.isEmpty
  meta_ := event.meta_.filter fun m => !m.isEmpty
  block := event.block.filter fun b => !b.isEmpty

/-- `Event.Marshal` -/
def Event.marshal (event : Event ν) : Except Failure (Envelope ν) := do
  event.validate
  match event.op with
  | .known op => return event.encode op
  | .other text => .error (.err (.unsupportedOperation text))

/-! ## Which models and blocks are accepted -/

/-- Everything but the types of the common metadata members. -/
def rules : Rules where
  requireVersion := true
  requireBlocks := true
  checkGroupId := true
  checkMeta := false

theorem stringAt_ne_iff (object : JsonObject ν) (k : String) :
    stringAt object k ≠ "" ↔ memberIs DocTree.isNonEmptyStr object k = true := by
  unfold stringAt memberIs DocTree.isNonEmptyStr
  cases Fields.get? object k with
  | none => simp
  | some v => cases hv : v.asStr <;> simp [hv]

/-- A non-empty id is the identity of the block. -/
theorem idOf_eq_some_stringAt {block : JsonObject ν} (h : memberIs DocTree.isNonEmptyStr block "id" = true) :
    idOf block = some (stringAt block "id") := by
  obtain ⟨id, hid, -⟩ := exists_idOf_of_memberIs h
  rw [hid, stringAt, ← idOf, hid]
  rfl

theorem validateBlock_eq_ok_iff (block : JsonObject ν) :
    validateBlock block = .ok () ↔ blockOk rules block = true := by
  unfold validateBlock blockOk
  by_cases hid : stringAt block "id" = ""
  · have hid' : memberIs DocTree.isNonEmptyStr block "id" = false := by
      rw [← Bool.not_eq_true, ← stringAt_ne_iff]
      simpa using hid
    simp [hid, referenceBlockOk, inlineBlockOk, hid']
  · have hid' := (stringAt_ne_iff block "id").mp hid
    rw [if_neg hid]
    cases href : Fields.get? block "ref" with
    | some ref =>
      have hhas : Fields.has block "ref" = true := by simp [Fields.has, href]
      have hhasId : Fields.has block "id" = true := by
        obtain ⟨v, hv, -⟩ := memberIs_iff.mp hid'
        simp [Fields.has, hv]
      have hsize : Fields.size block = 2 ↔ ∀ k ∈ Fields.keys block, k = "id" ∨ k = "ref" :=
        Fields.size_eq_two_iff (by decide) hhasId hhas
      have href' : memberIs DocTree.isNonEmptyStr block "ref" = ref.isNonEmptyStr := by
        rw [memberIs, href]
      simp only [seq_eq_ok, check_eq_ok, decide_eq_true_eq, hsize, hhas, if_true, referenceBlockOk,
        hid', href', Bool.and_eq_true, true_and, List.all_eq_true, Bool.or_eq_true, beq_iff_eq]
    | none =>
      have hhas : Fields.has block "ref" = false := by simp [href]
      simp only [seq_eq_ok, check_eq_ok, bne_iff_ne, ne_eq, hhas, Bool.false_eq_true, if_false,
        inlineBlockOk, hid', rules, Bool.not_true, Bool.false_or, Bool.true_and, Bool.and_eq_true,
        and_assoc]
      rw [← ne_eq, stringAt_ne_iff]

/-- The loop over the blocks never panics: a validated block has a string id. -/
theorem validateBlocks_eq_ok_iff {version : String} {blocks : List (JsonObject ν)} {ids : List String} :
    validateBlocks version blocks ids = .ok () ↔
      blocks.all (blockOk rules) = true ∧
        (blocks.all fun b => !Fields.has b "ref" || version == protocolVersion) = true ∧
        (blocks.map idOf).Nodup ∧ ∀ b ∈ blocks, ∀ id ∈ ids, idOf b ≠ some id := by
  induction blocks generalizing ids with
  | nil => simp [validateBlocks]
  | cons block rest ih =>
    rw [validateBlocks, seq_eq_ok, seq_eq_ok, validateBlock_eq_ok_iff, check_eq_ok, List.all_cons,
      List.all_cons, List.map_cons, List.nodup_cons]
    by_cases hblock : blockOk rules block = true
    · obtain ⟨id, hid, -⟩ := exists_idOf_of_blockOk hblock
      simp only [hid, seq_eq_ok, check_eq_ok, ih, hblock, true_and, Bool.and_eq_true, List.mem_map,
        not_exists, not_and, List.mem_cons, forall_eq_or_imp, Bool.not_eq_true',
        List.elem_eq_mem, decide_eq_false_iff_not]
      have hver : (Fields.has block "ref" && version != protocolVersion) = false ↔
          (!Fields.has block "ref" || version == protocolVersion) = true := by
        cases Fields.has block "ref" <;> simp
      rw [hver]
      constructor
      · rintro ⟨hv, hids, hall, hrefs, hnodup, hfresh⟩
        exact ⟨hall, ⟨hv, hrefs⟩, ⟨fun b hb => (hfresh b hb).1, hnodup⟩,
          fun i hi heq => hids (Option.some.inj heq ▸ hi), fun b hb => (hfresh b hb).2⟩
      · rintro ⟨hall, ⟨hv, hrefs⟩, ⟨hne, hnodup⟩, hids, hfresh⟩
        exact ⟨hv, fun hi => hids id hi rfl, hall, hrefs, hnodup, fun b hb => ⟨hne b hb, hfresh b hb⟩⟩
    · simp [hblock]

/-- `ValidateModel` accepts exactly the models that are well formed under the Go rules. -/
theorem validateModel_eq_ok_iff (model : JsonObject ν) :
    validateModel model = .ok () ↔ modelOk rules model = true := by
  have hversion : (stringAt model "version" == "1.0" || stringAt model "version" == protocolVersion) = true
      ↔ versionOk rules model = true := by
    unfold stringAt versionOk
    cases Fields.get? model "version" with
    | none => simp [rules, protocolVersion]
    | some v => cases hv : v.asStr <;> simp [hv, protocolVersion]
  have hmodelVersion : versionOk rules model = true →
      modelVersion model = some (stringAt model "version") := by
    unfold versionOk modelVersion stringAt
    cases Fields.get? model "version" with
    | none => simp [rules]
    | some v => cases hv : v.asStr <;> simp [hv]
  have hmeta : memberIs DocTree.isObj model "meta" = modelMetaOk rules model := by
    unfold modelMetaOk memberIs
    cases Fields.get? model "meta" with
    | none => rfl
    | some v => cases hv : v.asObj <;> simp [DocTree.isObj, hv, rules]
  have hblocks : ∀ p, Fields.has model "blocks" = true ∧ blocksOf model = .ok p ↔
      modelBlocks rules model = some p.1 ∧ p.2 = model := by
    rintro ⟨bs, left⟩
    unfold blocksOf modelBlocks
    cases hb : Fields.get? model "blocks" with
    | none => simp [hb, rules]
    | some v =>
      have hhas : Fields.has model "blocks" = true := by simp [Fields.has, hb]
      cases harr : v.asArr with
      | none => simp [harr]
      | some xs =>
        cases hobjs : DocTree.asObjs xs with
        | none => simp [harr, hobjs]
        | some ys => simp [harr, hobjs, hhas, eq_comm]
  rw [validateModel, seq_eq_ok, check_eq_ok, hversion, modelOk, Bool.and_eq_true, Bool.and_eq_true,
    Bool.and_eq_true, and_assoc, and_assoc]
  refine and_congr_right fun hv => ?_
  simp only [seq_eq_ok, check_eq_ok, bne_iff_ne, stringAt_ne_iff, hmeta, Option.any_eq_true]
  refine and_congr_right fun _ => and_congr_right fun _ => ?_
  rw [bind_eq_ok, hmodelVersion hv]
  constructor
  · rintro ⟨hhas, ⟨bs, left⟩, hof, hloop⟩
    obtain ⟨hbs, -⟩ := (hblocks _).mp ⟨hhas, hof⟩
    obtain ⟨hall, href, hnodup, -⟩ := validateBlocks_eq_ok_iff.mp hloop
    refine ⟨bs, hbs, ?_⟩
    rw [blocksOk, Bool.and_eq_true, Bool.and_eq_true, decide_eq_true_eq]
    exact ⟨⟨hall, by simpa using href⟩, hnodup⟩
  · rintro ⟨bs, hbs, hok⟩
    simp only [blocksOk, Bool.and_eq_true, decide_eq_true_eq] at hok
    obtain ⟨hhas, hof⟩ := (hblocks (bs, model)).mpr ⟨hbs, rfl⟩
    exact ⟨hhas, (bs, model), hof, validateBlocks_eq_ok_iff.mpr
      ⟨hok.1.1, by simpa using hok.1.2, hok.2, by simp⟩⟩

end AgentUE.Go
