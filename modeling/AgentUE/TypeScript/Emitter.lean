import AgentUE.Data.Rounding
import AgentUE.TypeScript.Events

/-!
# TypeScript SDK: the emitter

Reference: `sdks/typescript/src/ui/emitter.ts`. The methods do not look at what they are given, and the types of their
arguments leave out what `parsePatchEvent` asks of a block: that its id, its type or its reference is not empty, that
a reference has nothing else, and that no field patch is about a reference, an id or a `ref`.
-/

namespace AgentUE.TypeScript

open Data

/-! ## Arguments -/

/-- `BaseBlock`, of JSON values -/
structure BaseBlock where
  fields : JsonObject Number
  id : String
  type : String
  hid : Fields.get? fields "id" = some (.str id)
  htype : Fields.get? fields "type" = some (.str type)
  href : Fields.has fields "ref" = false
  hparentId : memberMayBe DocTree.isNullableStr fields "parent_id" = true
  hgroupId : memberMayBe DocTree.isNullableStr fields "group_id" = true

/-- `ReferenceBlock`, which may have more members than its type names. -/
structure ReferenceBlock where
  fields : JsonObject Number
  id : String
  ref : String
  hid : Fields.get? fields "id" = some (.str id)
  href : Fields.get? fields "ref" = some (.str ref)
  htype : Fields.has fields "type" = false

/-- `Block` -/
inductive Block where
  | base (block : BaseBlock)
  | reference (block : ReferenceBlock)

def Block.fields : Block → JsonObject Number
  | .base block => block.fields
  | .reference block => block.fields

def Block.id : Block → String
  | .base block => block.id
  | .reference block => block.id

theorem Block.hid (block : Block) : Fields.get? block.fields "id" = some (.str block.id) := by
  cases block with
  | base block => exact block.hid
  | reference block => exact block.hid

/-- A valid `UIModel` -/
structure UIModel where
  fields : JsonObject Number
  valid : parseUIModel [] (ofJsonObject fields) = .ok ()

/-- The template type of a mask with the root: `block.${string}` or `meta.${string}`. -/
structure Mask (root : String) where
  rest : String

def Mask.text {root : String} (mask : Mask root) : String := root ++ mask.rest

theorem Mask.hasPrefix_text {root : String} (mask : Mask root) : Text.hasPrefix mask.text root = true :=
  Text.hasPrefix_append root mask.rest

/-! ## The methods -/

/-- `cloneJson` of a JSON object -/
def clone (fields : JsonObject Number) : Unknown := cloneJson (ofJson (.obj fields))

/-- `event.<key> = value`, unless the value is `undefined`. -/
def assignOptional (event : List (String × Unknown)) (key : String) : Option String → List (String × Unknown)
  | none => event
  | some value => Fields.set event key (.str value)

/-- `PatchEmitter`; an offset is a non-negative integer. -/
structure PatchEmitter where
  currentOffset : ℕ
  streamId : Option String
deriving DecidableEq

namespace PatchEmitter

/-- The constructor; `none` is its exception. -/
def new (startOffset : Number) (streamId : Option String) : Option PatchEmitter :=
  if Unknown.isNaturalNumber (.num startOffset) then startOffset.map fun q => ⟨q.num.toNat, streamId⟩ else none

/-- `this.currentOffset` as a number -/
def offset (e : PatchEmitter) : Number := some e.currentOffset

/-- `nextOffset`, in double precision -/
def nextOffset (e : PatchEmitter) : PatchEmitter :=
  { e with currentOffset := Rounding.nearest 52 (e.currentOffset + 1) }

/-- `address` -/
def address (e : PatchEmitter) (event : List (String × Unknown)) : Unknown :=
  .obj (literal (assignOptional event "stream_id" e.streamId))

/-- `start`; a call that throws returns nothing. -/
def start (e : PatchEmitter) (model : UIModel) (seq : Option Number) : Option Unknown × PatchEmitter :=
  let e := if seq.isNone then e.nextOffset else e
  let nextSeq := seq.getD e.offset
  if Number.isInteger nextSeq && nextSeq.all fun q => decide ((e.currentOffset : ℚ) ≤ q) then
    let e := { e with currentOffset := (nextSeq.getD 0).num.toNat }
    (some (e.address [("op", .str "start"), ("seq", .num nextSeq), ("model", clone model.fields)]), e)
  else (none, e)

/-- `blockSet` -/
def blockSet (e : PatchEmitter) (block : Block) (mask : Option (Mask "block.")) (eventType : Option String) :
    Unknown × PatchEmitter :=
  let e := e.nextOffset
  let event : List (String × Unknown) := match mask with
    | none => [("op", .str "set"), ("seq", .num e.offset), ("block", clone block.fields)]
    | some mask =>
      [("op", .str "set"), ("seq", .num e.offset), ("mask", .str mask.text), ("block", clone block.fields)]
  (e.address (assignOptional event "event_type" eventType), e)

/-- `metaSet` -/
def metaSet (e : PatchEmitter) (mask : Mask "meta.") (meta_ : JsObject Number) (eventType : Option String) :
    Unknown × PatchEmitter :=
  let e := e.nextOffset
  let event : List (String × Unknown) :=
    [("op", .str "set"), ("seq", .num e.offset), ("mask", .str mask.text), ("meta", cloneJson (.obj meta_))]
  (e.address (assignOptional event "event_type" eventType), e)

/-- `blockAppend` -/
def blockAppend (e : PatchEmitter) (block : BaseBlock) (mask : Option (Mask "block.")) (eventType : Option String) :
    Unknown × PatchEmitter :=
  let e := e.nextOffset
  let event : List (String × Unknown) :=
    [("op", .str "append"), ("seq", .num e.offset), ("mask", .str ((mask.map Mask.text).getD "block.content")),
      ("block", clone block.fields)]
  (e.address (assignOptional event "event_type" eventType), e)

/-- The payload of `error` -/
def errorPayload (code message : String) (detail traceId : Option String) : List (String × Unknown) :=
  let error : List (String × Unknown) := [("code", .str code), ("message", .str message)]
  let error := assignOptional error "detail" (if detail = some message then none else detail)
  assignOptional error "trace_id" traceId

/-- `error` -/
def error (e : PatchEmitter) (code message : String) (detail traceId : Option String) : Unknown × PatchEmitter :=
  let e := e.nextOffset
  (e.address [("op", .str "error"), ("seq", .num e.offset), ("mask", .str "meta.error"),
    ("meta", .obj (literal [("error", .obj (literal (errorPayload code message detail traceId)))]))], e)

/-- `setStats` -/
def setStats (e : PatchEmitter) (stats : JsonObject Number) : Unknown × PatchEmitter :=
  e.metaSet ⟨"stats"⟩ (literal [("stats", clone stats)]) none

/-- `ping`, at a time of the clock -/
def ping (e : PatchEmitter) (now : ℕ) : Unknown :=
  e.address [("op", .str "ping"), ("seq", .num e.offset), ("ts", .num (some now))]

/-- `end` -/
def end_ (e : PatchEmitter) : Unknown × PatchEmitter :=
  let e := e.nextOffset
  (e.address [("op", .str "end"), ("seq", .num e.offset)], e)

end PatchEmitter

/-- A call of a method with arguments of its types. -/
inductive EmitterCall where
  | start (model : UIModel) (seq : Option Number)
  | blockSet (block : Block) (mask : Option (Mask "block.")) (eventType : Option String)
  | metaSet (mask : Mask "meta.") (meta_ : JsonObject Number) (eventType : Option String)
  | blockAppend (block : BaseBlock) (mask : Option (Mask "block.")) (eventType : Option String)
  | error (code message : String) (detail traceId : Option String)
  | setStats (stats : JsonObject Number)
  | ping (now : ℕ)
  | end_

/-- The event that a call returns, and the emitter that it leaves. -/
def PatchEmitter.call (e : PatchEmitter) : EmitterCall → Option Unknown × PatchEmitter
  | .start model seq => e.start model seq
  | .blockSet block mask eventType => (e.blockSet block mask eventType).map some id
  | .metaSet mask meta_ eventType => (e.metaSet mask (ofJsonObject meta_) eventType).map some id
  | .blockAppend block mask eventType => (e.blockAppend block mask eventType).map some id
  | .error code message detail traceId => (e.error code message detail traceId).map some id
  | .setStats stats => (e.setStats stats).map some id
  | .ping now => (some (e.ping now), e)
  | .end_ => e.end_.map some id

/-- The events that a sequence of calls returns. -/
def PatchEmitter.run (e : PatchEmitter) : List EmitterCall → List Unknown
  | [] => []
  | call :: calls => (e.call call).1.toList ++ (e.call call).2.run calls

/-! ## What the parser asks of the arguments -/

/-- The mask is about a field that can be patched. -/
def Mask.patches (mask : Mask "block.") : Prop :=
  ∀ field, (Text.split mask.text '.')[1]? = some field → field ≠ "id" ∧ field ≠ "ref"

/-- The block is complete in its form; a copy has lost an own `__proto__`. -/
def Block.Complete : Block → Prop
  | .base block => block.id ≠ "" ∧ block.type ≠ ""
  | .reference block => block.id ≠ "" ∧ block.ref ≠ "" ∧
      ∀ k ∈ Fields.keys block.fields, k = "id" ∨ k = "ref" ∨ k = "__proto__"

/-- What a call asks for beyond the types of its arguments. -/
def EmitterCall.Sound : EmitterCall → Prop
  | .blockSet block none _ => block.Complete
  | .blockSet (.base block) (some mask) _ => block.id ≠ "" ∧ mask.patches
  | .blockSet (.reference _) (some _) _ => False
  | .blockAppend block mask _ => block.id ≠ "" ∧ ∀ m, mask = some m → m.patches
  | _ => True

/-! ## The members of an event -/

section

variable {event : List (String × Unknown)}

theorem get?_assignOptional (k : String) (value : Option String) (j : String) :
    Fields.get? (assignOptional event k value) j =
      if j = k then (value.map DocTree.str).or (Fields.get? event j) else Fields.get? event j := by
  cases value with
  | none => simp [assignOptional]
  | some value => simp [assignOptional, Fields.get?_set]

theorem get?_assignOptional_ne {j k : String} (h : j ≠ k) (value : Option String) :
    Fields.get? (assignOptional event k value) j = Fields.get? event j := by
  rw [get?_assignOptional, if_neg h]

/-- The members have the types that the parser asks for before it looks at the payload. -/
structure Typed (event : List (String × Unknown)) (op : PatchOp) : Prop where
  keys : ∀ k ∈ Fields.keys event, k ∈ Unknown.eventKeys
  op : ((Fields.get? event "op").bind DocTree.asStr).bind Unknown.patchOp = some op
  seq : (Fields.get? event "seq").any Unknown.isNaturalNumber = true
  ts : (Fields.get? event "ts").all Unknown.isNaturalNumber = true
  strings : ∀ k ∈ ["stream_id", "mask", "event_type"], (Fields.get? event k).all (fun v => v.asStr.isSome) = true
  records : ∀ k ∈ ["model", "meta", "block"], (Fields.get? event k).all DocTree.isObj = true

theorem Typed.assignOptional {op : PatchOp} (h : Typed event op) {k : String} (hk : k = "stream_id" ∨ k = "event_type")
    (value : Option String) : Typed (assignOptional event k value) op := by
  have hne : ∀ j, j ∉ ["stream_id", "event_type"] →
      Fields.get? (TypeScript.assignOptional event k value) j = Fields.get? event j := by
    intro j hj
    refine get?_assignOptional_ne ?_ value
    rintro rfl
    exact hj (by simpa using hk)
  constructor
  · intro j hj
    rw [Fields.mem_keys_iff, Fields.has, get?_assignOptional] at hj
    split_ifs at hj with hjk
    · subst hjk
      rcases hk with rfl | rfl <;> decide
    · exact h.keys j ((Fields.mem_keys_iff event j).mpr hj)
  · rw [hne "op" (by decide)]
    exact h.op
  · rw [hne "seq" (by decide)]
    exact h.seq
  · rw [hne "ts" (by decide)]
    exact h.ts
  · intro j hj
    rw [get?_assignOptional]
    split_ifs with hjk
    · cases value with
      | none => exact h.strings j hj
      | some value => rfl
    · exact h.strings j hj
  · intro j hj
    rw [hne j (by revert j; decide)]
    exact h.records j hj

theorem Typed.accepted_iff {op : PatchOp} (h : Typed event op) :
    Unknown.Accepted (.obj (literal event)) ↔ Unknown.validatePayload op (literal event) = .ok () := by
  refine Unknown.accepted_iff (by simpa using h.keys) ?_ (by simpa using h.seq) ?_
  · simpa [readString] using h.op
  · have hstrings := h.strings
    have hrecords := h.records
    simp only [List.forall_mem_cons, List.not_mem_nil, false_imp_iff, implies_true, and_true] at hstrings hrecords
    simp only [Unknown.assertOptionals, memberMayBe_literal, seq_eq_ok, check_eq_ok]
    exact ⟨h.ts, hstrings.1, hstrings.2.1, hstrings.2.2, hrecords⟩

/-- The checks of the payload see four members. -/
theorem validatePayload_assignOptional {k : String} (hk : k ∉ ["model", "meta", "block", "mask"])
    (value : Option String) (op : PatchOp) :
    Unknown.validatePayload op (literal (assignOptional event k value)) = Unknown.validatePayload op (literal event) := by
  have hget : ∀ j ∈ ["model", "meta", "block", "mask"],
      Fields.get? (assignOptional event k value) j = Fields.get? event j := fun j hj =>
    get?_assignOptional_ne (by rintro rfl; exact hk hj) value
  simp only [List.forall_mem_cons, List.not_mem_nil, false_imp_iff, implies_true, and_true] at hget
  obtain ⟨hmodel, hmeta, hblock, hmask⟩ := hget
  simp only [Unknown.validatePayload, Unknown.validateSet, Unknown.validateAppend, Unknown.validateError,
    Unknown.recordAt, readString, hasOwn_literal, read_literal, Fields.has, hmodel, hmeta, hblock, hmask]

/-- What is left to check of an event that has been addressed. -/
theorem accepted_address_iff {op : PatchOp} (h : Typed event op) (e : PatchEmitter) :
    Unknown.Accepted (e.address event) ↔ Unknown.validatePayload op (literal event) = .ok () := by
  rw [PatchEmitter.address, (h.assignOptional (.inl rfl) e.streamId).accepted_iff,
    validatePayload_assignOptional (by decide)]

/-- The same for an event with a type. -/
theorem accepted_eventType_iff {op : PatchOp} (h : Typed event op) (eventType : Option String) (e : PatchEmitter) :
    Unknown.Accepted (e.address (assignOptional event "event_type" eventType)) ↔
      Unknown.validatePayload op (literal event) = .ok () := by
  rw [accepted_address_iff (h.assignOptional (.inr rfl) eventType), validatePayload_assignOptional (by decide)]

end

/-! ## What a method returns -/

theorem isNaturalNumber_natCast (n : ℕ) : Unknown.isNaturalNumber (.num (some (n : ℚ))) = true := by
  simp [Unknown.isNaturalNumber, Number.isInteger]

/-- The members behind `op` and `seq`: a mask, a time or a record. -/
def Behind (member : String × Unknown) : Prop :=
  (member.1 = "mask" ∧ member.2.asStr.isSome = true) ∨ (member.1 = "ts" ∧ Unknown.isNaturalNumber member.2 = true) ∨
    (member.1 ∈ ["model", "meta", "block"] ∧ DocTree.isObj member.2 = true)

theorem typed_cons {name : String} {op : PatchOp} (hname : Unknown.patchOp name = some op) {seq : Number}
    (hseq : Unknown.isNaturalNumber (.num seq) = true) {rest : List (String × Unknown)}
    (hrest : ∀ member ∈ rest, Behind member) : Typed (("op", .str name) :: ("seq", .num seq) :: rest) op := by
  have hget : ∀ k v, k ≠ "op" → k ≠ "seq" →
      Fields.get? (("op", .str name) :: ("seq", .num seq) :: rest) k = some v → Behind (k, v) := by
    intro k v hop hseq h
    rw [Fields.get?_cons, if_neg hop.symm, Fields.get?_cons, if_neg hseq.symm] at h
    exact hrest _ (Fields.mem_of_get? h)
  have hall : ∀ k p, k ≠ "op" → k ≠ "seq" → (∀ v, Behind (k, v) → p v = true) →
      (Fields.get? (("op", .str name) :: ("seq", .num seq) :: rest) k).all p = true := by
    intro k p hop hseq hp
    cases h : Fields.get? (("op", .str name) :: ("seq", .num seq) :: rest) k with
    | none => rfl
    | some v => exact hp v (hget k v hop hseq h)
  constructor
  · intro k hk
    simp only [Fields.keys, List.map_cons, List.mem_cons, List.mem_map] at hk
    rcases hk with rfl | rfl | ⟨member, hmember, rfl⟩
    · decide
    · decide
    · rcases hrest member hmember with ⟨h, -⟩ | ⟨h, -⟩ | ⟨h, -⟩
      · rw [h]
        decide
      · rw [h]
        decide
      · revert h
        generalize member.1 = k
        revert k
        decide
  · simpa [Fields.get?_cons] using hname
  · simpa [Fields.get?_cons] using hseq
  · exact hall "ts" _ (by decide) (by decide) fun v h => by simpa [Behind] using h
  · intro k hk
    refine hall k _ (by revert k; decide) (by revert k; decide) fun v h => ?_
    rcases h with ⟨-, h⟩ | ⟨rfl, -⟩ | ⟨h, -⟩
    · exact h
    · simp at hk
    · have hdisjoint : ∀ j ∈ ["stream_id", "mask", "event_type"], j ∉ ["model", "meta", "block"] := by decide
      exact absurd h (hdisjoint k hk)
  · intro k hk
    refine hall k _ (by revert k; decide) (by revert k; decide) fun v h => ?_
    rcases h with ⟨rfl, -⟩ | ⟨rfl, -⟩ | ⟨-, h⟩
    · simp at hk
    · simp at hk
    · exact h

/-! ### Blocks -/

/-- A copy of a member other than `__proto__`. -/
theorem get?_clone (fields : JsonObject Number) {k : String} (hk : k ≠ "__proto__") :
    Fields.get? (cloneObject (ofJsonObject fields)) (.own k) =
      (Fields.get? fields k).map fun v => cloneJson (ofJson v) := by
  rw [get?_cloneObject _ hk, get?_ofJsonObject]
  cases Fields.get? fields k <;> rfl

theorem hasOwn_clone (fields : JsonObject Number) {k : String} (hk : k ≠ "__proto__") :
    hasOwn (cloneObject (ofJsonObject fields)) k = Fields.has fields k := by
  rw [hasOwn, Fields.has, get?_clone fields hk, Fields.has]
  cases Fields.get? fields k <;> rfl

theorem readNonEmpty_clone {fields : JsonObject Number} {k s : String} (hk : k ≠ "__proto__")
    (h : Fields.get? fields k = some (.str s)) :
    readNonEmpty [] (cloneObject (ofJsonObject fields)) k = (s != "") := by
  have hget : Fields.get? (cloneObject (ofJsonObject fields)) (.own k) = some (.str s) := by
    rw [get?_clone fields hk, h]
    rfl
  rw [readNonEmpty, readString, read_of_own hget]
  rfl

theorem memberMayBe_clone {fields : JsonObject Number} {k : String} (hk : k ≠ "__proto__")
    (h : memberMayBe DocTree.isNullableStr fields k = true) :
    memberMayBe DocTree.isNullableStr (cloneObject (ofJsonObject fields)) (.own k) = true := by
  rw [memberMayBe_iff] at h ⊢
  intro v hv
  rw [get?_clone fields hk, Option.map_eq_some_iff] at hv
  obtain ⟨w, hw, rfl⟩ := hv
  have hnullable := h w hw
  rw [← toJson_ofJson w, isNullableStr_toJson] at hnullable
  simpa [DocTree.isNullableStr] using hnullable

/-- The own names of a copy. -/
theorem mem_ownKeys_clone {fields : JsonObject Number} {k : String} :
    k ∈ ownKeys (cloneObject (ofJsonObject fields)) ↔ k ∈ Fields.keys fields ∧ k ≠ "__proto__" := by
  rw [← keys_toJsonObject, Fields.mem_keys_iff, has_toJsonObject]
  by_cases hk : k = "__proto__"
  · subst hk
    simp [hasOwn, Fields.has, get?_cloneObject_proto]
  · rw [hasOwn_clone fields hk, Fields.mem_keys_iff]
    simp [hk]

/-- A whole block is accepted exactly when it is complete. -/
theorem validateBlock_clone_iff (block : Block) :
    validateBlock [] (cloneObject (ofJsonObject block.fields)) = .ok () ↔ block.Complete := by
  cases block with
  | base block =>
    have hid := readNonEmpty_clone (by decide) block.hid
    have htype := readNonEmpty_clone (by decide) block.htype
    have hinline := (hasOwn_clone block.fields (by decide : "ref" ≠ "__proto__")).trans block.href
    have hparentId := memberMayBe_clone (by decide) block.hparentId
    have hgroupId := memberMayBe_clone (by decide) block.hgroupId
    simp only [validateBlock, Block.fields, seq_eq_ok, check_eq_ok, hid, hinline, htype, hparentId, hgroupId,
      Bool.false_eq_true, if_false, and_true]
    simp [Block.Complete]
  | reference block =>
    have hid := readNonEmpty_clone (by decide) block.hid
    have href := readNonEmpty_clone (by decide) block.href
    have hreference := (hasOwn_clone block.fields (by decide : "ref" ≠ "__proto__")).trans
      ((Fields.has_eq_true_iff _ _).mpr ⟨_, block.href⟩)
    have hkeys : (∀ k ∈ ownKeys (cloneObject (ofJsonObject block.fields)), (k == "id" || k == "ref") = true) ↔
        ∀ k ∈ Fields.keys block.fields, k = "id" ∨ k = "ref" ∨ k = "__proto__" := by
      refine forall_congr' fun k => ?_
      rw [mem_ownKeys_clone]
      by_cases hk : k = "__proto__" <;> simp [hk]
    simp only [validateBlock, Block.fields, seq_eq_ok, check_eq_ok, hid, hreference, href, if_true, List.all_eq_true,
      hkeys]
    simp [Block.Complete]

theorem fieldPatch_clone_iff (mask : Mask "block.") (fields : JsonObject Number) :
    Unknown.validateBlockFieldPatch mask.text (cloneObject (ofJsonObject fields)) = .ok () ↔
      Fields.has fields "ref" = false ∧ mask.patches := by
  simp only [Unknown.validateBlockFieldPatch, seq_eq_ok, check_eq_ok, hasOwn_clone fields (by decide : "ref" ≠ "__proto__"),
    Mask.patches]
  cases (Text.split mask.text '.')[1]? <;> simp [and_comm]

theorem assertBlockId_clone_iff (block : Block) :
    assertBlockId [] (cloneObject (ofJsonObject block.fields)) = .ok () ↔ block.id ≠ "" := by
  rw [assertBlockId, check_eq_ok, readNonEmpty_clone (by decide) block.hid, bne_iff_ne]

/-! ### The methods one by one -/

section

variable (e : PatchEmitter)

theorem isNaturalNumber_offset : Unknown.isNaturalNumber (.num e.offset) = true :=
  isNaturalNumber_natCast e.currentOffset

/-- The record that a copy of an object is. -/
theorem behind_clone {k : String} (hk : k ∈ ["model", "meta", "block"]) (slots : JsObject Number) :
    Behind (k, cloneJson (.obj slots)) :=
  .inr (.inr ⟨hk, rfl⟩)

theorem behind_mask (mask : String) : Behind ("mask", .str mask) := .inl ⟨rfl, rfl⟩

theorem accepted_blockSet (block : Block) (eventType : Option String) :
    Unknown.Accepted (e.blockSet block none eventType).1 ↔ block.Complete := by
  have htyped : Typed [("op", .str "set"), ("seq", .num e.nextOffset.offset), ("block", clone block.fields)] .set :=
    typed_cons rfl (isNaturalNumber_offset _) (List.forall_mem_singleton.mpr (behind_clone (by decide) _))
  have hid : block.Complete → block.id ≠ "" := by
    cases block <;> exact And.left
  rw [PatchEmitter.blockSet, accepted_eventType_iff htyped]
  simpa [Unknown.validatePayload, Unknown.validateSet, Unknown.recordAt, Fields.has, Fields.get?_cons, readString,
    seq_eq_ok, check_eq_ok, clone, ofJson, cloneJson, DocTree.asObj, assertBlockId_clone_iff,
    validateBlock_clone_iff] using hid

theorem accepted_blockSet_mask (block : Block) (mask : Mask "block.") (eventType : Option String) :
    Unknown.Accepted (e.blockSet block (some mask) eventType).1 ↔
      block.id ≠ "" ∧ Fields.has block.fields "ref" = false ∧ mask.patches := by
  have htyped : Typed [("op", .str "set"), ("seq", .num e.nextOffset.offset), ("mask", .str mask.text),
      ("block", clone block.fields)] .set :=
    typed_cons rfl (isNaturalNumber_offset _) (List.forall_mem_cons.mpr
      ⟨behind_mask _, List.forall_mem_singleton.mpr (behind_clone (by decide) _)⟩)
  rw [PatchEmitter.blockSet, accepted_eventType_iff htyped]
  simp [Unknown.validatePayload, Unknown.validateSet, Unknown.recordAt, Fields.has, Fields.get?_cons, readString,
    seq_eq_ok, check_eq_ok, clone, ofJson, cloneJson, DocTree.asObj, assertBlockId_clone_iff, fieldPatch_clone_iff,
    mask.hasPrefix_text]

theorem accepted_metaSet (mask : Mask "meta.") (meta_ : JsObject Number) (eventType : Option String) :
    Unknown.Accepted (e.metaSet mask meta_ eventType).1 := by
  have htyped : Typed [("op", .str "set"), ("seq", .num e.nextOffset.offset), ("mask", .str mask.text),
      ("meta", cloneJson (.obj meta_))] .set :=
    typed_cons rfl (isNaturalNumber_offset _) (List.forall_mem_cons.mpr
      ⟨behind_mask _, List.forall_mem_singleton.mpr (behind_clone (by decide) _)⟩)
  rw [PatchEmitter.metaSet, accepted_eventType_iff htyped]
  simp [Unknown.validatePayload, Unknown.validateSet, Fields.has, Fields.get?_cons, readString, seq_eq_ok,
    check_eq_ok, mask.hasPrefix_text]

theorem accepted_blockAppend (block : BaseBlock) (mask : Option (Mask "block.")) (eventType : Option String) :
    Unknown.Accepted (e.blockAppend block mask eventType).1 ↔
      block.id ≠ "" ∧ ∀ m, mask = some m → m.patches := by
  have htext : (mask.map Mask.text).getD "block.content" = (mask.getD ⟨"content"⟩).text := by
    cases mask <;> rfl
  have hcontent : Mask.patches ⟨"content"⟩ := by
    have hfield : (Text.split (⟨"content"⟩ : Mask "block.").text '.')[1]? = some "content" := by decide
    rintro field h
    obtain rfl := Option.some.inj (hfield.symm.trans h)
    decide
  have hpatches : (mask.getD ⟨"content"⟩).patches ↔ ∀ m, mask = some m → m.patches := by
    cases mask <;> simp [hcontent]
  have htyped : Typed [("op", .str "append"), ("seq", .num e.nextOffset.offset),
      ("mask", .str (mask.getD ⟨"content"⟩).text), ("block", clone block.fields)] .append :=
    typed_cons rfl (isNaturalNumber_offset _) (List.forall_mem_cons.mpr
      ⟨behind_mask _, List.forall_mem_singleton.mpr (behind_clone (by decide) _)⟩)
  have hid := assertBlockId_clone_iff (.base block)
  have href := block.href
  simp only [Block.fields, Block.id, Fields.has_eq_false_iff] at hid href
  rw [PatchEmitter.blockAppend, htext, accepted_eventType_iff htyped, ← hpatches]
  simp [Unknown.validatePayload, Unknown.validateAppend, Unknown.recordAt, Fields.has, Fields.get?_cons, readString,
    seq_eq_ok, check_eq_ok, clone, ofJson, cloneJson, DocTree.asObj, hid, fieldPatch_clone_iff, href,
    Mask.hasPrefix_text]

theorem accepted_error (code message : String) (detail traceId : Option String) :
    Unknown.Accepted (e.error code message detail traceId).1 := by
  have htyped : Typed [("op", .str "error"), ("seq", .num e.nextOffset.offset), ("mask", .str "meta.error"), ("meta",
      .obj (literal [("error", .obj (literal (PatchEmitter.errorPayload code message detail traceId)))]))] .error :=
    typed_cons rfl (isNaturalNumber_offset _) (List.forall_mem_cons.mpr
      ⟨behind_mask _, List.forall_mem_singleton.mpr (.inr (.inr ⟨by simp, rfl⟩))⟩)
  rw [PatchEmitter.error, accepted_address_iff htyped]
  simp [Unknown.validatePayload, Unknown.validateError, Fields.has, Fields.get?_cons, readString, seq_eq_ok,
    check_eq_ok, DocTree.asObj, PatchEmitter.errorPayload, get?_assignOptional]

theorem accepted_ping (now : ℕ) : Unknown.Accepted (e.ping now) := by
  have htyped : Typed [("op", .str "ping"), ("seq", .num e.offset), ("ts", .num (some now))] .ping :=
    typed_cons rfl (isNaturalNumber_offset _) (List.forall_mem_singleton.mpr
      (.inr (.inl ⟨rfl, isNaturalNumber_natCast now⟩)))
  rw [PatchEmitter.ping, accepted_address_iff htyped]
  simp [Unknown.validatePayload, Fields.has, Fields.get?_cons, seq_eq_ok, check_eq_ok]

theorem accepted_end : Unknown.Accepted e.end_.1 := by
  have htyped : Typed [("op", .str "end"), ("seq", .num e.nextOffset.offset)] .end_ :=
    typed_cons rfl (isNaturalNumber_offset _) (by simp)
  rw [PatchEmitter.end_, accepted_address_iff htyped]
  simp [Unknown.validatePayload, Fields.has, Fields.get?_cons, seq_eq_ok, check_eq_ok]

/-- A copy of a valid model is valid, so a start that does not throw is accepted. -/
theorem accepted_start (model : UIModel) (seq : Option Number) {event : Unknown}
    (h : (e.start model seq).1 = some event) : Unknown.Accepted event := by
  have hmodel : parseUIModel [] (cloneObject (ofJsonObject model.fields)) = .ok () :=
    parseUIModel_of_modelOk (modelOk_copyObject ((parseUIModel_eq_ok_iff model.fields).mp model.valid))
  unfold PatchEmitter.start at h
  generalize (if seq.isNone then e.nextOffset else e) = e' at h
  dsimp only at h
  generalize seq.getD e'.offset = nextSeq at h
  split_ifs at h with hseq
  obtain rfl := Option.some.inj h
  have hnatural : Unknown.isNaturalNumber (.num nextSeq) = true := by
    cases nextSeq with
    | none => cases hseq
    | some q =>
      rw [Bool.and_eq_true, Option.all_some, decide_eq_true_iff] at hseq
      have hq : 0 ≤ q := le_trans (Nat.cast_nonneg _) hseq.2
      simp [Unknown.isNaturalNumber, hseq.1, hq]
  have htyped : Typed [("op", .str "start"), ("seq", .num nextSeq), ("model", clone model.fields)] .start :=
    typed_cons rfl hnatural (List.forall_mem_singleton.mpr (behind_clone (by decide) _))
  rw [accepted_address_iff htyped]
  simp [Unknown.validatePayload, Unknown.recordAt, Fields.has, Fields.get?_cons, seq_eq_ok, check_eq_ok, clone, ofJson,
    cloneJson, DocTree.asObj, hmodel]

/-- One call: the event that it returns, if any, is accepted. -/
theorem accepted_call_iff (call : EmitterCall) :
    (∀ event ∈ (e.call call).1, Unknown.Accepted event) ↔ call.Sound := by
  cases call with
  | start model seq =>
    simpa [PatchEmitter.call, EmitterCall.Sound] using fun (event : Unknown) => accepted_start e model seq
  | blockSet block mask eventType =>
    cases mask with
    | none => simpa [PatchEmitter.call, EmitterCall.Sound] using accepted_blockSet e block eventType
    | some mask =>
      simp only [PatchEmitter.call, Prod.map_fst, Option.mem_some_iff, forall_eq', accepted_blockSet_mask]
      cases block with
      | base block => simp [EmitterCall.Sound, Block.id, Block.fields, (Fields.has_eq_false_iff _ _).mp block.href]
      | reference block => simp [EmitterCall.Sound, Block.fields, block.href]
  | metaSet mask meta_ eventType =>
    simpa [PatchEmitter.call, EmitterCall.Sound] using accepted_metaSet e mask _ eventType
  | blockAppend block mask eventType =>
    simpa [PatchEmitter.call, EmitterCall.Sound] using accepted_blockAppend e block mask eventType
  | error code message detail traceId =>
    simpa [PatchEmitter.call, EmitterCall.Sound] using accepted_error e code message detail traceId
  | setStats stats =>
    simpa [PatchEmitter.call, PatchEmitter.setStats, EmitterCall.Sound] using accepted_metaSet e ⟨"stats"⟩ _ none
  | ping now => simpa [PatchEmitter.call, EmitterCall.Sound] using accepted_ping e now
  | end_ => simpa [PatchEmitter.call, EmitterCall.Sound] using accepted_end e

end

/-- Whatever the calls, every event that an emitter returns is accepted by `parsePatchEvent` exactly when every call
is sound. -/
theorem emitted_accepted_iff (e : PatchEmitter) (calls : List EmitterCall) :
    (∀ event ∈ e.run calls, Unknown.Accepted event) ↔ ∀ call ∈ calls, call.Sound := by
  induction calls generalizing e with
  | nil => simp [PatchEmitter.run]
  | cons call calls ih =>
    rw [PatchEmitter.run, List.forall_mem_append, List.forall_mem_cons, ih, ← accepted_call_iff e call]
    simp only [Option.mem_toList, Option.mem_def]

/-- A complete text block. -/
def answer : BaseBlock where
  fields := [("id", .str "answer"), ("type", .str "text"), ("content", .str "hello")]
  id := "answer"
  type := "text"
  hid := rfl
  htype := rfl
  href := rfl
  hparentId := rfl
  hgroupId := rfl

/-- The type of the mask lets an append to the id through. -/
theorem append_to_id_is_refused :
    ¬ ∀ (startOffset : Number) (streamId : Option String) (e : PatchEmitter) (calls : List EmitterCall),
      PatchEmitter.new startOffset streamId = some e → ∀ event ∈ e.run calls, Unknown.Accepted event := by
  intro h
  have haccepted := h (some 0) none ⟨0, none⟩ [.blockAppend answer (some ⟨"id"⟩) none] (by decide +kernel)
    (.obj [(.own "op", .str "append"), (.own "seq", .num (some 1)), (.own "mask", .str "block.id"),
      (.own "block", .obj [(.own "id", .str "answer"), (.own "type", .str "text"), (.own "content", .str "hello")])])
  revert haccepted
  decide +kernel

end AgentUE.TypeScript
