import AgentUE.Go.Decoding
import AgentUE.Python.Validation
import AgentUE.TypeScript.Validation

/-!
# The event languages of the three validators

`PatchEvent.validate_operation`, `Parse` and `parsePatchEvent` on the same text. The three
acceptance conditions are put side by side, operation by operation; `Diverges` collects the inputs on
which they differ, and `sameVerdict_iff_not_diverges` shows that it misses none. A numeral in the text may
be refused by one decoder alone, so the events are taken with their numbers as they are written.
-/

namespace AgentUE.Conformance

open Data

variable {ν : Type}

/-- The verdicts of the three SDKs on one event agree. The TypeScript parser runs in a process whose
`Object.prototype` is untouched. -/
def SameVerdict (e : EventText) : Prop :=
  (Python.PatchEvent.modelValidate e = .ok () ↔ ∃ event, Go.parseText e = .ok event) ∧
    (Python.PatchEvent.modelValidate e = .ok () ↔ TypeScript.parsePatchEvent [] e.envelope = .ok ())

/-! ## The inputs on which they differ -/

/-- `ts` is absent or finite as a JavaScript number. -/
def tsFinite (e : Envelope ν) : Bool := e.ts.all fun ts => decide (ts < infinityFrom)

/-- The mask is absent or empty, which Go does not tell apart. -/
def maskEmpty (e : Envelope ν) : Bool := e.mask.getD "" == ""

/-- `group_id` of an inline block is absent, null or a string. -/
def groupIdOk (block : JsonObject ν) : Bool :=
  Fields.has block "ref" || memberMayBe DocTree.isNullableStr block "group_id"

/-- The members are written out for which Python has a default. -/
def writtenOut (model : JsonObject ν) : Bool := Fields.has model "version" && Fields.has model "blocks"

/-- `group_id` of every inline block is absent, null or a string. -/
def groupIdsOk (model : JsonObject ν) : Bool :=
  (modelBlocks Go.rules model).all fun blocks => blocks.all groupIdOk

/-- A payload that a masked set or append may carry: no reference, and no write to `id` or `ref`. -/
def patchable (mask : String) (block : JsonObject ν) : Bool :=
  !Fields.has block "ref" && !((Text.split mask '.')[1]? == some "id" || (Text.split mask '.')[1]? == some "ref")

/-! In each operation `decodes` tells whether Go's decoder reads the text at all. -/

/-- A block field patch whose mask names no field, whose payload names no block, or whose text Go does not
read. -/
def FieldPatchDiverges (decodes : Bool) (mask : String) (block : JsonObject ν) : Prop :=
  Text.hasPrefix mask "block." = true ∧ patchable mask block = true ∧
    (mask = "block." ∨ memberIs DocTree.isNonEmptyStr block "id" = false ∨ decodes = false)

/-- A start whose model only Python takes (defaults, `group_id`) or only Go takes (metadata types), or
which carries a mask or which Go does not read. -/
def StartDiverges (decodes : Bool) (e : Envelope ν) : Prop :=
  ∃ model, e.model = some model ∧ e.meta_ = none ∧ e.block = none ∧
    ((modelOk Python.rules model = true ∧
        ¬ (writtenOut model = true ∧ groupIdsOk model = true ∧ maskEmpty e = true ∧ decodes = true)) ∨
      (modelOk Go.rules model = true ∧ memberIs (fun v => v.asObj.any metaOk) model "meta" = false ∧
        maskEmpty e = true ∧ decodes = true))

/-- A set with the mask `meta.`, an empty mask, an ill-typed `group_id`, or a diverging field patch, and one
that Go does not read. -/
def SetDiverges (decodes : Bool) (e : Envelope ν) : Prop :=
  e.model = none ∧
    match e.meta_, e.block, e.mask with
    | some _, none, some mask =>
      mask = "meta." ∨ (Text.hasPrefix mask "meta." = true ∧ decodes = false)
    | none, some block, none =>
      blockOk Python.rules block = true ∧ ¬ (groupIdOk block = true ∧ decodes = true)
    | none, some block, some mask =>
      (mask = "" ∧ blockOk Go.rules block = true ∧ decodes = true) ∨ FieldPatchDiverges decodes mask block
    | _, _, _ => False

/-- An append with a diverging field patch. -/
def AppendDiverges (decodes : Bool) (e : Envelope ν) : Prop :=
  ∃ mask block, e.model = none ∧ e.meta_ = none ∧ e.block = some block ∧ e.mask = some mask ∧
    FieldPatchDiverges decodes mask block

/-- The object `meta.error`, if the event has one. -/
def errorOf (e : Envelope ν) : Option (JsonObject ν) :=
  e.meta_.bind fun m => (Fields.get? m "error").bind DocTree.asObj

/-- An error without string `code` and `message`, or one that Go does not read. -/
def ErrorDiverges (decodes : Bool) (e : Envelope ν) : Prop :=
  e.model = none ∧ e.block = none ∧ e.mask = some "meta.error" ∧
    ∃ error, errorOf e = some error ∧
      ¬ (decodes = true ∧ memberIs (fun v => v.asStr.isSome) error "code" = true ∧
        memberIs (fun v => v.asStr.isSome) error "message" = true)

/-- A ping or end that Go does not read, or with an empty mask. -/
def ControlDiverges (decodes : Bool) (e : Envelope ν) : Prop :=
  e.model = none ∧ e.meta_ = none ∧ e.block = none ∧
    ((e.mask = none ∧ decodes = false) ∨ (e.mask = some "" ∧ decodes = true))

/-- The inputs on which the three validators do not agree. A `ts` that is written as a float and is not
finite is refused by all of them. -/
def Diverges (e : EventText) : Prop :=
  e.ts.all Python.readsInt = true ∧
    match e.op with
    | .start => StartDiverges (Go.decodes e) e.envelope
    | .set => SetDiverges (Go.decodes e) e.envelope
    | .append => AppendDiverges (Go.decodes e) e.envelope
    | .error => ErrorDiverges (Go.decodes e) e.envelope
    | .ping | .end_ => ControlDiverges (Go.decodes e) e.envelope

/-! ## The three languages side by side -/

theorem two_pow_le_sub (m : ℕ) : 2 ^ m ≤ 2 ^ (m + 54) - 2 ^ m := by
  rw [Nat.pow_add, ← Nat.mul_sub_one]
  exact Nat.le_mul_of_pos_right _ (by decide)

/-- The exponents are variables here, so that no power of this size is evaluated. -/
theorem two_pow_le_infinityFrom {m n : ℕ} (hn : m + 54 = n) (hm : 970 = m) (hn' : 1024 = n) :
    2 ^ m ≤ infinityFrom := by
  rw [infinityFrom, hm, hn', ← hn]
  exact two_pow_le_sub m

theorem lt_infinityFrom {n : ℕ} (h : n < 2 ^ 63) : n < infinityFrom :=
  lt_of_lt_of_le (lt_of_lt_of_le h (Nat.pow_le_pow_right (by decide) (by decide)))
    (two_pow_le_infinityFrom (m := 970) rfl rfl rfl)

/-- A `ts` that Go reads is finite as a JavaScript number. -/
theorem tsFinite_of_decodes {e : EventText} (h : Go.decodes e = true) : tsFinite e.envelope = true := by
  simp only [Go.decodes, Bool.and_eq_true] at h
  unfold tsFinite EventText.envelope
  cases hts : e.ts with
  | none => rfl
  | some ts =>
    have hreads : Go.tsReads ts = true := by simpa [hts] using h.1.2
    simp only [Go.tsReads, Bool.and_eq_true, decide_eq_true_eq] at hreads
    simpa using lt_infinityFrom hreads.2

theorem blockOk_go_iff (block : JsonObject ν) :
    blockOk Go.rules block = true ↔ blockOk Python.rules block = true ∧ groupIdOk block = true := by
  unfold blockOk groupIdOk
  by_cases href : Fields.has block "ref" = true
  · simp [href]
  · simp [href, inlineBlockOk, Go.rules, Python.rules]

theorem blocksOk_go_iff (version : Option String) (blocks : List (JsonObject ν)) :
    blocksOk Go.rules version blocks = true ↔
      blocksOk Python.rules version blocks = true ∧ blocks.all groupIdOk = true := by
  have hall : blocks.all (blockOk Go.rules) = true ↔
      blocks.all (blockOk Python.rules) = true ∧ blocks.all groupIdOk = true := by
    simp only [List.all_eq_true, blockOk_go_iff]
    exact ⟨fun h => ⟨fun b hb => (h b hb).1, fun b hb => (h b hb).2⟩, fun h b hb => ⟨h.1 b hb, h.2 b hb⟩⟩
  simp only [blocksOk, Bool.and_eq_true, hall]
  tauto

theorem blockOk_typeScript (block : JsonObject ν) :
    blockOk TypeScript.rules block = blockOk Go.rules block := rfl

/-- The schema's models are Go's models with well-typed metadata. -/
theorem modelOk_typeScript_iff (model : JsonObject ν) :
    modelOk TypeScript.rules model = true ↔ modelOk Go.rules model = true ∧
      memberIs (fun v => v.asObj.any metaOk) model "meta" = true := by
  have hmeta : modelMetaOk TypeScript.rules model = true ↔
      modelMetaOk Go.rules model = true ∧ memberIs (fun v => v.asObj.any metaOk) model "meta" = true := by
    unfold modelMetaOk memberIs
    cases Fields.get? model "meta" with
    | none => simp
    | some v =>
      generalize hm : v.asObj = m
      cases m <;> simp [hm, TypeScript.rules, Go.rules]
  have hrest : modelOk TypeScript.rules model = true ↔
      versionOk Go.rules model = true ∧ memberIs DocTree.isNonEmptyStr model "biz" = true ∧
        modelMetaOk TypeScript.rules model = true ∧
        (modelBlocks Go.rules model).any (blocksOk Go.rules (modelVersion model)) = true := by
    simp only [modelOk, Bool.and_eq_true, and_assoc]
    rfl
  rw [hrest, hmeta]
  simp only [modelOk, Bool.and_eq_true]
  tauto

/-- The schema's models are Python's models with everything written out and well-typed group identities. -/
theorem modelOk_typeScript_iff_writtenOut (model : JsonObject ν) :
    modelOk TypeScript.rules model = true ↔
      modelOk Python.rules model = true ∧ writtenOut model = true ∧ groupIdsOk model = true := by
  have hversion : versionOk TypeScript.rules model = true ↔
      versionOk Python.rules model = true ∧ Fields.has model "version" = true := by
    unfold versionOk Fields.has
    cases Fields.get? model "version" <;> simp [TypeScript.rules, Python.rules]
  have hmeta : modelMetaOk TypeScript.rules model = modelMetaOk Python.rules model := rfl
  have hblocks : (modelBlocks TypeScript.rules model).any (blocksOk TypeScript.rules (modelVersion model)) =
      true ↔ (modelBlocks Python.rules model).any (blocksOk Python.rules (modelVersion model)) = true ∧
        Fields.has model "blocks" = true ∧
        ((modelBlocks Go.rules model).all fun blocks => blocks.all groupIdOk) = true := by
    unfold modelBlocks Fields.has
    cases Fields.get? model "blocks" with
    | none => simp [TypeScript.rules]
    | some v =>
      generalize hbs : v.asArr.bind DocTree.asObjs = bs
      cases bs with
      | none => simp [hbs]
      | some blocks =>
        have hiff : blocksOk TypeScript.rules (modelVersion model) blocks = true ↔
            blocksOk Python.rules (modelVersion model) blocks = true ∧ blocks.all groupIdOk = true :=
          blocksOk_go_iff (modelVersion model) blocks
        simpa [hbs] using hiff
  simp only [modelOk, writtenOut, groupIdsOk, Bool.and_eq_true, hversion, hmeta, hblocks]
  tauto

/-! ## One operation at a time -/

/-- Whether the mask of a field patch, its payload and nothing else is in order. -/
theorem python_fieldPatch_iff {mask : String} (hmask : Text.hasPrefix mask "block." = true)
    (block : JsonObject ν) :
    Python.validateBlockFieldPatch mask block = .ok () ↔ patchable mask block = true := by
  have hsplit := Text.split_of_cut (Text.cut_block hmask)
  unfold Python.validateBlockFieldPatch patchable
  rw [seq_eq_ok, check_eq_ok, hsplit]
  obtain ⟨field, rest, hfield⟩ := List.exists_cons_of_ne_nil
    (Text.split_ne_nil (Text.dropPrefix mask "block.") '.')
  simp [hfield]

theorem go_fieldPatch_iff {mask : String} (hmask : Text.hasPrefix mask "block." = true)
    (block : JsonObject ν) :
    Go.validateBlockFieldPatch mask block = .ok () ↔ patchable mask block = true := by
  have hsplit := Text.split_of_cut (Text.cut_block hmask)
  unfold Go.validateBlockFieldPatch patchable
  rw [seq_eq_ok, check_eq_ok, hsplit]
  obtain ⟨field, rest, hfield⟩ := List.exists_cons_of_ne_nil
    (Text.split_ne_nil (Text.dropPrefix mask "block.") '.')
  simp [hfield]

theorem typeScript_fieldPatch_iff (mask : String) (block : JsonObject ν) :
    TypeScript.validateBlockFieldPatch mask block = .ok () ↔ patchable mask block = true := by
  unfold TypeScript.validateBlockFieldPatch patchable
  rw [seq_eq_ok, check_eq_ok]
  simp only [check_eq_ok, Bool.and_eq_true, Bool.or_comm]

/-- The TypeScript parser after its number checks, which `seq` passes. -/
theorem typeScript_parse_ok_iff (e : Envelope ν) (hseq : e.seq < 2 ^ 53) :
    TypeScript.parsePatchEvent [] e = .ok () ↔ tsFinite e = true ∧
      (e.op == .start || e.model.isNone) = true ∧ TypeScript.validatePayload [] e = .ok () := by
  have hfin : e.seq < infinityFrom := lt_infinityFrom (by omega)
  simp only [TypeScript.parsePatchEvent, seq_eq_ok, check_eq_ok, decide_eq_true_eq, hfin, true_and, tsFinite]

/-- The verdicts on the members of an event, as each SDK finds them behind its decoder. -/
def VerdictsAgree (decodes : Bool) (e : Envelope ν) : Prop :=
  (Python.validateOperation e = .ok () ↔ decodes = true ∧ (Go.decoded e).validate = .ok ()) ∧
    (Python.validateOperation e = .ok () ↔ tsFinite e = true ∧ (e.op == .start || e.model.isNone) = true ∧
      TypeScript.validatePayload [] e = .ok ())

theorem verdictsAgree_start {e : Envelope ν} (hop : e.op = .start) {decodes : Bool}
    (hfin : decodes = true → tsFinite e = true) : VerdictsAgree decodes e ↔ ¬ StartDiverges decodes e := by
  have hpython : Python.validateOperation e = .ok () ↔ ∃ model, e.model = some model ∧
      e.meta_ = none ∧ e.block = none ∧ modelOk Python.rules model = true := by
    unfold Python.validateOperation
    simp only [hop]
    cases e.model with
    | none => simp
    | some model => simp [seq_eq_ok, Python.UIModel.modelValidate_eq_ok_iff, and_assoc]
  have hgo : (Go.decoded e).validate = .ok () ↔ ∃ model, e.model = some model ∧
      e.meta_ = none ∧ e.block = none ∧ maskEmpty e = true ∧ modelOk Go.rules model = true := by
    unfold Go.Event.validate maskEmpty
    simp only [Go.decoded, hop]
    cases e.model with
    | none => simp [seq_eq_ok]
    | some model => simp [seq_eq_ok, Go.validateModel_eq_ok_iff, and_assoc]
  have hts : TypeScript.validatePayload [] e = .ok () ↔ ∃ model, e.model = some model ∧
        e.meta_ = none ∧ e.block = none ∧ modelOk TypeScript.rules model = true := by
    unfold TypeScript.validatePayload
    simp only [hop]
    cases e.model with
    | none => simp
    | some model => simp [seq_eq_ok, TypeScript.parseUIModel_eq_ok_iff, and_assoc]
  unfold VerdictsAgree StartDiverges
  rw [hpython, hgo, hts]
  by_cases hshape : (∃ model, e.model = some model) ∧ e.meta_ = none ∧ e.block = none
  · obtain ⟨⟨model, hmodel⟩, hmeta, hblock⟩ := hshape
    have hwritten := modelOk_typeScript_iff_writtenOut model
    have hschema := modelOk_typeScript_iff model
    simp only [hmodel, hmeta, hblock, hop, Option.some.injEq, exists_eq_left', true_and]
    grind
  · have hnone : ∀ p : JsonObject ν → Prop,
        ¬ ∃ model, e.model = some model ∧ e.meta_ = none ∧ e.block = none ∧ p model := by
      rintro p ⟨model, hmodel, hmeta, hblock, -⟩
      exact hshape ⟨⟨model, hmodel⟩, hmeta, hblock⟩
    simp only [hnone, and_false, not_false_iff, and_self]

/-- A field patch that the validators let through writes to neither `id` nor `ref`. -/
theorem patchable_ne {mask : String} {block : JsonObject ν} {k : String} (h : patchable mask block = true)
    (hk : (Text.split mask '.')[1]? = some k) : k ≠ "id" ∧ k ≠ "ref" := by
  simp only [patchable, hk, Bool.and_eq_true, Bool.not_eq_true', Bool.or_eq_false_iff, beq_eq_false_iff_ne,
    ne_eq, Option.some.injEq] at h
  exact h.2

/-- Nor is its payload a reference. -/
theorem inline_of_patchable {mask : String} {block : JsonObject ν} (h : patchable mask block = true) :
    Fields.has block "ref" = false := by
  rw [patchable, Bool.and_eq_true, Bool.not_eq_true'] at h
  exact h.1

/-- The model of a start that Python validates. -/
theorem python_start_payload {e : Envelope ν} (hop : e.op = .start)
    (hpython : Python.validateOperation e = .ok ()) :
    ∃ model, e.model = some model ∧ modelOk Python.rules model = true := by
  simp only [Python.validateOperation, hop] at hpython
  cases hmodel : e.model with
  | none => simp [hmodel] at hpython
  | some model =>
    simp only [hmodel, seq_eq_ok, Python.UIModel.modelValidate_eq_ok_iff] at hpython
    exact ⟨model, rfl, hpython.2⟩

/-- The payload of an append that Python validates. -/
theorem append_payload {e : Envelope ν} (hop : e.op = .append)
    (hpython : Python.validateOperation e = .ok ()) :
    ∃ mask block, e.mask = some mask ∧ e.block = some block ∧ Text.hasPrefix mask "block." = true ∧
      patchable mask block = true := by
  simp only [Python.validateOperation, hop, seq_eq_ok, Python.validateAppend] at hpython
  cases hblock : e.block with
  | none => simp [hblock] at hpython
  | some block =>
    cases hmask : e.mask with
    | none => simp [hblock, hmask, seq_eq_ok] at hpython
    | some mask =>
      simp only [hblock, hmask, seq_eq_ok, check_eq_ok] at hpython
      obtain ⟨-, -, hpre, hpatch⟩ := hpython
      exact ⟨mask, block, rfl, rfl, hpre, (python_fieldPatch_iff hpre block).mp hpatch⟩

/-- A field patch in each language, under the mask test that all three make. -/
theorem fieldPatch_agree_iff (e : Envelope ν) (mask : String) (block : JsonObject ν) {decodes : Bool}
    (hfin : decodes = true → tsFinite e = true) {python go ts : Prop}
    (hpython : python ↔ Text.hasPrefix mask "block." = true ∧
      Python.validateBlockFieldPatch mask block = .ok ())
    (hgo : go ↔ Text.hasPrefix mask "block." = true ∧ mask ≠ "block." ∧
      Go.validateBlockFieldPatch mask block = .ok ())
    (hts : ts ↔ Text.hasPrefix mask "block." = true ∧ memberIs DocTree.isNonEmptyStr block "id" = true ∧
      TypeScript.validateBlockFieldPatch mask block = .ok ()) :
    ((python ↔ decodes = true ∧ go) ∧ (python ↔ tsFinite e = true ∧ ts)) ↔
      ¬ FieldPatchDiverges decodes mask block := by
  unfold FieldPatchDiverges
  rw [hpython, hgo, hts, typeScript_fieldPatch_iff]
  by_cases hmask : Text.hasPrefix mask "block." = true
  · rw [python_fieldPatch_iff hmask, go_fieldPatch_iff hmask]
    grind
  · simp [hmask]

/-- The three shapes of a set event that Python accepts. -/
theorem python_set_iff (e : Envelope ν) :
    Python.validateSet e = .ok () ↔
      match e.meta_, e.block, e.mask with
      | some _, none, some mask => Text.hasPrefix mask "meta." = true
      | none, some block, none => blockOk Python.rules block = true
      | none, some block, some mask =>
        Text.hasPrefix mask "block." = true ∧ Python.validateBlockFieldPatch mask block = .ok ()
      | _, _, _ => False := by
  unfold Python.validateSet Python.validateSetMask Python.validateSetBlock
  cases e.meta_ <;> cases e.block <;> cases e.mask <;> simp [seq_eq_ok, Python.validateBlock_eq_ok_iff]

/-- The shapes that Go accepts; an empty mask is an absent one. -/
theorem go_set_iff (e : Envelope ν) :
    Go.validateSet (Go.decoded e) = .ok () ↔
      match e.meta_, e.block, e.mask with
      | some _, none, some mask => Text.hasPrefix mask "meta." = true ∧ mask ≠ "meta."
      | none, some block, none => blockOk Go.rules block = true
      | none, some block, some mask => (mask = "" ∧ blockOk Go.rules block = true) ∨
        (Text.hasPrefix mask "block." = true ∧ mask ≠ "block." ∧
          Go.validateBlockFieldPatch mask block = .ok ())
      | _, _, _ => False := by
  have hlen : ∀ mask root : String, Text.hasPrefix mask root = true →
      (mask.toList.length = root.toList.length ↔ mask = root) :=
    fun _ _ h => Text.length_eq_iff_of_hasPrefix h
  have hempty : Text.hasPrefix "" "block." = false ∧ Text.hasPrefix "" "meta." = false := by decide
  unfold Go.validateSet Go.decoded
  rcases e.meta_ with _ | m <;> rcases e.block with _ | block <;> rcases e.mask with _ | mask
  all_goals simp [seq_eq_ok, Go.validateBlock_eq_ok_iff]
  · have hblock := hlen mask "block."
    by_cases hmask : mask = ""
    · simp [hmask, hempty, Go.validateBlock_eq_ok_iff]
    · simp only [hmask, if_false]
      grind
  · have hmeta := hlen mask "meta."
    grind

/-- The shapes that TypeScript accepts. -/
theorem typeScript_set_iff (e : Envelope ν) :
    TypeScript.validateSet [] e = .ok () ↔
      match e.meta_, e.block, e.mask with
      | some _, none, some mask => Text.hasPrefix mask "meta." = true
      | none, some block, none => blockOk TypeScript.rules block = true
      | none, some block, some mask => Text.hasPrefix mask "block." = true ∧
        memberIs DocTree.isNonEmptyStr block "id" = true ∧
        TypeScript.validateBlockFieldPatch mask block = .ok ()
      | _, _, _ => False := by
  unfold TypeScript.validateSet TypeScript.validateSetMask TypeScript.validateSetBlock
    TypeScript.assertBlockId
  simp only [TypeScript.maskOf_nil]
  cases e.meta_ <;> rcases e.block with _ | block <;> cases e.mask
  all_goals simp [seq_eq_ok, TypeScript.validateBlock_eq_ok_iff, TypeScript.readNonEmpty_ofJsonObject]
  exact fun h => memberIs_id_of_blockOk h

theorem verdictsAgree_set {e : Envelope ν} (hop : e.op = .set) {decodes : Bool}
    (hfin : decodes = true → tsFinite e = true) : VerdictsAgree decodes e ↔ ¬ SetDiverges decodes e := by
  have hpython : Python.validateOperation e = .ok () ↔ e.model = none ∧ Python.validateSet e = .ok () := by
    simp [Python.validateOperation, hop, seq_eq_ok]
  have hgo : (Go.decoded e).validate = .ok () ↔
      e.model = none ∧ Go.validateSet (Go.decoded e) = .ok () := by
    simp [Go.Event.validate, Go.decoded, hop, seq_eq_ok]
  have hts : (e.op == .start || e.model.isNone) = true ∧ TypeScript.validatePayload [] e = .ok () ↔
      e.model = none ∧ TypeScript.validateSet [] e = .ok () := by
    simp [TypeScript.validatePayload, hop]
  unfold VerdictsAgree SetDiverges
  rw [hpython, hgo, hts]
  by_cases hmodel : e.model = none
  · simp only [hmodel, true_and, python_set_iff, go_set_iff, typeScript_set_iff]
    rcases e.meta_ with _ | m <;> rcases e.block with _ | block <;> rcases e.mask with _ | mask
    case none.some.none =>
      -- a whole block
      have hgo := blockOk_go_iff block
      simp only [blockOk_typeScript]
      grind
    case none.some.some =>
      -- a field patch of a block, or a whole block in Go's reading of an empty mask
      by_cases hmask : mask = ""
      · have hempty : Text.hasPrefix "" "block." = false := by decide
        simp only [hmask, hempty, FieldPatchDiverges]
        grind
      · simp only [hmask, false_and, false_or]
        exact fieldPatch_agree_iff e mask block hfin Iff.rfl Iff.rfl Iff.rfl
    case some.none.some =>
      have hmeta : Text.hasPrefix "meta." "meta." = true := by decide
      simp only
      grind
    all_goals simp only [and_false, not_false_iff, and_self]
  · simp only [hmodel, false_and, and_false, not_false_iff, and_self]

theorem verdictsAgree_append {e : Envelope ν} (hop : e.op = .append) {decodes : Bool}
    (hfin : decodes = true → tsFinite e = true) : VerdictsAgree decodes e ↔ ¬ AppendDiverges decodes e := by
  have hpython : Python.validateOperation e = .ok () ↔ ∃ mask block, e.model = none ∧ e.meta_ = none ∧
      e.block = some block ∧ e.mask = some mask ∧ Text.hasPrefix mask "block." = true ∧
      Python.validateBlockFieldPatch mask block = .ok () := by
    simp only [Python.validateOperation, hop, seq_eq_ok, check_eq_ok, Python.validateAppend]
    cases e.block <;> cases e.mask <;> simp [seq_eq_ok]
  have hgo : (Go.decoded e).validate = .ok () ↔ ∃ mask block, e.model = none ∧ e.meta_ = none ∧
      e.block = some block ∧ e.mask = some mask ∧ Text.hasPrefix mask "block." = true ∧
      mask ≠ "block." ∧ Go.validateBlockFieldPatch mask block = .ok () := by
    have hempty : Text.hasPrefix "" "block." = false := by decide
    simp only [Go.Event.validate, Go.decoded, hop, seq_eq_ok, check_eq_ok, Go.validateAppend]
    cases e.block <;> cases e.mask <;> simp [seq_eq_ok, hempty, and_assoc]
  have hts : (e.op == .start || e.model.isNone) = true ∧ TypeScript.validatePayload [] e = .ok () ↔
      ∃ mask block, e.model = none ∧ e.meta_ = none ∧
      e.block = some block ∧ e.mask = some mask ∧ Text.hasPrefix mask "block." = true ∧
      memberIs DocTree.isNonEmptyStr block "id" = true ∧
      TypeScript.validateBlockFieldPatch mask block = .ok () := by
    simp only [TypeScript.validatePayload, hop, TypeScript.validateAppend, TypeScript.maskOf_nil,
      TypeScript.assertBlockId, TypeScript.readNonEmpty_ofJsonObject]
    cases e.block <;> cases e.mask <;> simp [seq_eq_ok]
  unfold VerdictsAgree AppendDiverges
  rw [hpython, hgo, hts]
  by_cases hshape : ∃ mask block, e.model = none ∧ e.meta_ = none ∧ e.block = some block ∧ e.mask = some mask
  · obtain ⟨mask, block, hmodel, hmeta, hblock, hmask⟩ := hshape
    have hpick : ∀ p : String → JsonObject ν → Prop, (∃ mask block, e.model = none ∧ e.meta_ = none ∧
        e.block = some block ∧ e.mask = some mask ∧ p mask block) ↔ p mask block := by
      intro p
      simp [hmodel, hmeta, hblock, hmask]
    simp only [hpick]
    exact fieldPatch_agree_iff e mask block hfin Iff.rfl Iff.rfl Iff.rfl
  · have hnone : ∀ p : String → JsonObject ν → Prop, ¬ ∃ mask block, e.model = none ∧ e.meta_ = none ∧
        e.block = some block ∧ e.mask = some mask ∧ p mask block := by
      rintro p ⟨mask, block, hmodel, hmeta, hblock, hmask, -⟩
      exact hshape ⟨mask, block, hmodel, hmeta, hblock, hmask⟩
    simp only [hnone, and_false, not_false_iff, and_self]

theorem memberIs_error_iff (e : Envelope ν) :
    memberIs DocTree.isObj (e.meta_.getD []) "error" = true ↔ ∃ error, errorOf e = some error := by
  unfold errorOf
  cases e.meta_ with
  | none => simp [memberIs]
  | some m => simp [memberIs_iff, DocTree.isObj, Option.isSome_iff_exists, Option.bind_eq_some_iff]

/-- What TypeScript reads of a parsed object are its members. -/
theorem isSome_readString_ofJsonObject (error : JsonObject ν) (k : String) :
    (TypeScript.readString [] (TypeScript.ofJsonObject error) k).isSome =
      memberIs (fun v => v.asStr.isSome) error k := by
  rw [TypeScript.readString_ofJsonObject, memberIs]
  cases Fields.get? error k <;> rfl

theorem asObj_read_ofJsonObject (m : JsonObject ν) (k : String) :
    (TypeScript.read [] (TypeScript.ofJsonObject m) k).bind DocTree.asObj =
      ((Fields.get? m k).bind DocTree.asObj).map TypeScript.ofJsonObject := by
  rw [TypeScript.read_ofJsonObject]
  cases Fields.get? m k with
  | none => rfl
  | some v => cases v <;> rfl

theorem verdictsAgree_error {e : Envelope ν} (hop : e.op = .error) {decodes : Bool}
    (hfin : decodes = true → tsFinite e = true) : VerdictsAgree decodes e ↔ ¬ ErrorDiverges decodes e := by
  have hpython : Python.validateOperation e = .ok () ↔ e.model = none ∧ e.block = none ∧
      e.mask = some "meta.error" ∧ ∃ error, errorOf e = some error := by
    simp only [Python.validateOperation, hop, seq_eq_ok, check_eq_ok, Python.validateErrorEvent,
      Bool.and_eq_true, memberIs_error_iff, beq_iff_eq, Option.isNone_iff_eq_none]
    tauto
  have hgo : (Go.decoded e).validate = .ok () ↔ e.model = none ∧ e.block = none ∧
      e.mask = some "meta.error" ∧ ∃ error, errorOf e = some error := by
    have hmask : e.mask.getD "" = "meta.error" ↔ e.mask = some "meta.error" := by
      cases e.mask <;> simp
    have hnot : (Go.Op.known PatchOp.error == Go.Op.known PatchOp.start) = false := by decide
    simp only [Go.Event.validate, Go.decoded, hop, seq_eq_ok, check_eq_ok, Go.validateError,
      Bool.and_eq_true, memberIs_error_iff, beq_iff_eq, Option.isNone_iff_eq_none, hmask, hnot, Bool.false_or]
    tauto
  have hts : (e.op == .start || e.model.isNone) = true ∧ TypeScript.validatePayload [] e = .ok () ↔
      e.model = none ∧ e.block = none ∧ e.mask = some "meta.error" ∧ ∃ error, errorOf e = some error ∧
        memberIs (fun v => v.asStr.isSome) error "code" = true ∧
        memberIs (fun v => v.asStr.isSome) error "message" = true := by
    have hread : ((TypeScript.metaOf [] e).bind fun m => (TypeScript.read [] m "error").bind DocTree.asObj) =
        (errorOf e).map TypeScript.ofJsonObject := by
      rw [TypeScript.metaOf_nil, errorOf]
      cases e.meta_ with
      | none => rfl
      | some m => exact asObj_read_ofJsonObject m "error"
    simp only [TypeScript.validatePayload, hop, TypeScript.validateError, hread, TypeScript.maskOf_nil,
      seq_eq_ok, check_eq_ok, beq_iff_eq]
    cases errorOf e with
    | none => simp
    | some error =>
      simp only [Option.map_some, seq_eq_ok, check_eq_ok, isSome_readString_ofJsonObject, Bool.and_eq_true, Option.isNone_iff_eq_none,
        Option.some.injEq, exists_eq_left', Bool.or_eq_true, beq_iff_eq, reduceCtorEq, false_or]
      tauto
  unfold VerdictsAgree ErrorDiverges
  rw [hpython, hgo, hts]
  cases errorOf e with
  | none => simp
  | some error =>
    simp only [Option.some.injEq, exists_eq_left', exists_eq']
    grind

theorem verdictsAgree_control {e : Envelope ν} (hop : e.op = .ping ∨ e.op = .end_) {decodes : Bool}
    (hfin : decodes = true → tsFinite e = true) : VerdictsAgree decodes e ↔ ¬ ControlDiverges decodes e := by
  have hpython : Python.validateOperation e = .ok () ↔
      e.model = none ∧ e.meta_ = none ∧ e.block = none ∧ e.mask = none := by
    rcases hop with hop | hop <;> simp [Python.validateOperation, hop, seq_eq_ok, and_assoc]
  have hgo : (Go.decoded e).validate = .ok () ↔
      e.model = none ∧ e.meta_ = none ∧ e.block = none ∧ (e.mask = none ∨ e.mask = some "") := by
    have hmask : e.mask.getD "" = "" ↔ e.mask = none ∨ e.mask = some "" := by
      cases e.mask <;> simp
    rcases hop with hop | hop <;>
      simp [Go.Event.validate, Go.decoded, hop, seq_eq_ok, and_assoc, hmask]
  have hts : (e.op == .start || e.model.isNone) = true ∧ TypeScript.validatePayload [] e = .ok () ↔
      e.model = none ∧ e.meta_ = none ∧ e.block = none ∧ e.mask = none := by
    rcases hop with hop | hop <;> simp [TypeScript.validatePayload, hop, and_assoc]
  unfold VerdictsAgree ControlDiverges
  rw [hpython, hgo, hts]
  grind

/-! ## All inputs -/

/-- Python adds to the rules of the event that it reads the two integers. -/
theorem python_modelValidate_ok_iff (e : EventText) (hseq : e.seq.value < 2 ^ 53) :
    Python.PatchEvent.modelValidate e = .ok () ↔
      e.ts.all Python.readsInt = true ∧ Python.validateOperation e.envelope = .ok () := by
  have hread : Python.readsInt e.seq = true := by
    have hfinite : e.seq.value < infinityFrom := lt_infinityFrom (by omega)
    simp [Python.readsInt, hfinite]
  simp only [Python.PatchEvent.modelValidate, seq_eq_ok, check_eq_ok, hread, true_and]

/-- What Go or TypeScript read, Python reads. -/
theorem readsInt_of_tsFinite {e : EventText} (h : tsFinite e.envelope = true) : e.ts.all Python.readsInt = true := by
  unfold tsFinite EventText.envelope at h
  cases hts : e.ts with
  | none => rfl
  | some ts =>
    have hfinite : ts.value < infinityFrom := by simpa [hts] using h
    simp [Python.readsInt, hfinite]

/-- The three validators give one event the same verdict exactly when it is not one of the listed
divergences. -/
theorem sameVerdict_iff_not_diverges (e : EventText) (hseq : e.seq.value < 2 ^ 53) :
    SameVerdict e ↔ ¬ Diverges e := by
  have hfin : Go.decodes e = true → tsFinite e.envelope = true := tsFinite_of_decodes
  unfold SameVerdict Diverges
  rw [python_modelValidate_ok_iff e hseq, Go.parseText_ok_iff, typeScript_parse_ok_iff e.envelope hseq]
  by_cases hread : e.ts.all Python.readsInt = true
  · simp only [hread, true_and]
    cases hop : e.op with
    | start => exact verdictsAgree_start hop hfin
    | set => exact verdictsAgree_set hop hfin
    | append => exact verdictsAgree_append hop hfin
    | error => exact verdictsAgree_error hop hfin
    | ping => exact verdictsAgree_control (.inl hop) hfin
    | end_ => exact verdictsAgree_control (.inr hop) hfin
  · -- no decoder reads such a `ts`
    have hinfinite : ¬ tsFinite e.envelope = true := fun h => hread (readsInt_of_tsFinite h)
    have hdecodes : ¬ Go.decodes e = true := fun h => hinfinite (hfin h)
    simp only [hread, hinfinite, hdecodes, Bool.false_eq_true, false_and, not_false_iff, and_self]

/-- `set` of a whole block whose `group_id` is a list. -/
def listGroupId : EventText where
  op := .set
  seq := .ofNat 1
  streamId := none
  ts := none
  mask := none
  eventType := none
  model := none
  meta_ := none
  block := some [("id", .str "b"), ("type", .str "text"), ("group_id", .arr [])]

/-- Python takes this event, Go and TypeScript refuse it. -/
theorem validators_disagree_on_group_id :
    ¬ ∀ e : EventText, e.seq.value < 2 ^ 53 → SameVerdict e := by
  intro h
  have hpython : Python.PatchEvent.modelValidate listGroupId = .ok () := rfl
  have hgo : ∀ event, Go.parseText listGroupId ≠ .ok event := by
    intro event
    have hrefused : Go.parseText listGroupId = .error (.err (.blockFieldType "group_id")) := by decide
    simp [hrefused]
  obtain ⟨event, hevent⟩ := (h listGroupId (by decide)).1.mp hpython
  exact hgo event hevent

/-- The equivalence at work on that event. -/
theorem sameVerdict_iff_not_diverges_listGroupId :
    SameVerdict listGroupId ↔ ¬ Diverges listGroupId :=
  sameVerdict_iff_not_diverges listGroupId (by decide)

end AgentUE.Conformance
