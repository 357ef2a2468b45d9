import AgentUE.Protocol.Document
import AgentUE.Protocol.JsonSchema

/-!
# The schemas of the protocol

References: `schema/v1/model.schema.json`, `schema/v1/patch-event.schema.json`. Each is written out keyword by keyword
and then shown to accept the documents of the rules that the validators are compared with. That the identities of a
model are distinct is no matter of its schema.
-/

namespace AgentUE

open Data JsonSchema

variable {ν : Type} [DecidableEq ν] {numbers : Numbers ν} {env : String → Json ν → Bool} {v : Json ν}

/-! ## `model.schema.json` -/

/-- `"type": ["string", "null"]` -/
def nullableString : Schema ν := .type [.string, .null]

/-- `"type": "string", "minLength": 1` -/
def nonEmptyString : Schema ν := .allOf [.type [.string], .minLength 1]

/-- `#/$defs/error` -/
def errorSchema : Schema ν :=
  .allOf [.type [.object], .required ["code", "message"],
    .properties [("code", .type [.string]), ("message", .type [.string]), ("detail", nullableString),
      ("trace_id", nullableString)] .anything]

/-- `#/$defs/inline_block` -/
def inlineBlockSchema : Schema ν :=
  .allOf [.type [.object], .required ["id", "type"],
    .properties [("id", nonEmptyString), ("type", nonEmptyString), ("parent_id", nullableString),
      ("group_id", nullableString)] .anything,
    .not (.required ["ref"])]

/-- `#/$defs/reference_block` -/
def referenceBlockSchema : Schema ν :=
  .allOf [.type [.object], .required ["id", "ref"],
    .properties [("id", nonEmptyString), ("ref", nonEmptyString)] .nothing]

/-- `#/$defs/block` -/
def blockSchema : Schema ν := .oneOf [.ref "inline_block", .ref "reference_block"]

/-- The schema of `meta` -/
def metaSchema : Schema ν :=
  .allOf [.type [.object],
    .properties [("error", .oneOf [.type [.null], .ref "error"]), ("task_id", nullableString),
      ("trace_id", nullableString), ("stats", .type [.object, .null])] .anything]

def modelSchema : Document ν where
  root := .allOf [.type [.object], .required ["version", "biz", "meta", "blocks"],
    .properties [("version", .enum [.str "1.0", .str "1.1"]), ("biz", nonEmptyString), ("meta", metaSchema),
      ("blocks", .allOf [.type [.array], .items (.ref "block")])] .anything,
    .allOf [.cond (.properties [("version", .const (.str "1.0"))] .anything)
      (.properties [("blocks", .items (.ref "inline_block"))] .anything) .anything]]
  defs := [("error", errorSchema), ("inline_block", inlineBlockSchema), ("reference_block", referenceBlockSchema),
    ("block", blockSchema)]
  ordered := by
    simp [Ordered, errorSchema, inlineBlockSchema, referenceBlockSchema, blockSchema, nonEmptyString, nullableString,
      refs, refsOfList, refsOfMembers]

/-! ## What its parts accept -/

theorem accepts_object : accepts numbers env (.type [.object]) v = DocTree.isObj v := by
  rcases v with (_ | _ | _ | _) | _ | _ <;> rfl

theorem accepts_nullableString : accepts numbers env nullableString v = DocTree.isNullableStr v := by
  rcases v with (_ | _ | _ | _) | _ | _ <;> rfl

theorem accepts_nullableObject : accepts numbers env (.type [.object, .null]) v = DocTree.isNullableObj v := by
  rcases v with (_ | _ | _ | _) | _ | _ <;> rfl

theorem accepts_string : accepts numbers env (.type [.string]) v = v.asStr.isSome := by
  rcases v with (_ | _ | _ | _) | _ | _ <;> rfl

theorem accepts_nonEmptyString : accepts numbers env nonEmptyString v = DocTree.isNonEmptyStr v := by
  have hlength : ∀ s : String, decide (1 ≤ s.length) = (s != "") := by
    intro s
    rw [Bool.eq_iff_iff, decide_eq_true_eq, bne_iff_ne, Nat.one_le_iff_ne_zero, ne_eq, String.length_eq_zero_iff]
  rcases v with (_ | _ | _ | s) | _ | _
  · rfl
  · rfl
  · rfl
  · show (true && (decide (1 ≤ s.length) && true)) = (s != "")
    rw [hlength, Bool.and_true, Bool.true_and]
  · rfl
  · rfl

variable {fs : JsonObject ν}

/-- Nothing but an object satisfies a schema that asks for one. -/
theorem exists_obj_of_accepts {ss : List (Schema ν)}
    (h : accepts numbers env (.allOf (.type [.object] :: ss)) v = true) : ∃ fs, v = .obj fs := by
  rw [accepts_allOf] at h
  have hobj := h _ List.mem_cons_self
  rw [accepts_object, DocTree.isObj, Option.isSome_iff_exists] at hobj
  obtain ⟨fs, hfs⟩ := hobj
  exact ⟨fs, DocTree.asObj_eq_some.mp hfs⟩

theorem accepts_errorSchema : accepts numbers env errorSchema (.obj fs) = true ↔ errorInfoOk fs = true := by
  have hobj : DocTree.isObj (.obj fs) = true := rfl
  simp (disch := simp) only [errorSchema, accepts_allOf, List.forall_mem_cons, accepts_object, accepts_required,
    accepts_properties_anything, accepts_string, accepts_nullableString, errorInfoOk, Bool.and_eq_true,
    memberIs_iff_has, memberMayBe_iff, List.not_mem_nil, false_implies, implies_true, and_true, hobj, true_and]
  tauto

/-- All rules that the schema has. -/
def schemaRules : Rules where
  requireVersion := true
  requireBlocks := true
  checkGroupId := true
  checkMeta := true

theorem accepts_inlineBlockSchema : accepts numbers env inlineBlockSchema (.obj fs) = true ↔
    Fields.has fs "ref" = false ∧ inlineBlockOk schemaRules fs = true := by
  have hobj : DocTree.isObj (.obj fs) = true := rfl
  simp (disch := simp) only [inlineBlockSchema, accepts_allOf, List.forall_mem_cons, accepts_object, accepts_required,
    accepts_properties_anything, accepts_nonEmptyString, accepts_nullableString, accepts_not, inlineBlockOk,
    schemaRules, Bool.and_eq_true, Bool.not_true, Bool.false_or, memberIs_iff_has, memberMayBe_iff, List.not_mem_nil,
    false_implies, implies_true, and_true, hobj, true_and, Bool.not_eq_true]
  tauto

theorem accepts_referenceBlockSchema :
    accepts numbers env referenceBlockSchema (.obj fs) = true ↔ referenceBlockOk fs = true := by
  have hobj : DocTree.isObj (.obj fs) = true := rfl
  have hkeys : (∀ k ∈ Fields.keys fs, k ∈ ["id", "ref"]) ↔
      ((Fields.keys fs).all fun k => k == "id" || k == "ref") = true := by simp
  simp (disch := simp) only [referenceBlockSchema, accepts_allOf, List.forall_mem_cons, accepts_object,
    accepts_required, accepts_properties_nothing, List.map_cons, List.map_nil, hkeys, accepts_nonEmptyString,
    referenceBlockOk, Bool.and_eq_true, memberIs_iff_has, memberMayBe_iff, List.not_mem_nil, false_implies,
    implies_true, and_true, hobj, true_and]
  tauto

section

variable (hinline : ∀ v, env "inline_block" v = accepts numbers env inlineBlockSchema v)
  (hreference : ∀ v, env "reference_block" v = accepts numbers env referenceBlockSchema v)
  (herror : ∀ v, env "error" v = accepts numbers env errorSchema v)

include hinline hreference in
/-- A block is one or the other, by whether it has a `ref`. -/
theorem accepts_blockSchema :
    accepts numbers env blockSchema v = true ↔ ∃ block, v = .obj block ∧ blockOk schemaRules block = true := by
  have hwith : ∀ block : JsonObject ν, referenceBlockOk block = true → Fields.has block "ref" = true := by
    intro block h
    simp only [referenceBlockOk, Bool.and_eq_true, memberIs_iff_has] at h
    exact h.1.2.1
  have hexclusive : accepts numbers env (.ref "inline_block") v = true →
      ¬ accepts numbers env (.ref "reference_block") v = true := by
    rw [accepts_ref, accepts_ref, hinline, hreference]
    intro h
    obtain ⟨block, rfl⟩ := exists_obj_of_accepts h
    rw [accepts_referenceBlockSchema]
    rw [accepts_inlineBlockSchema] at h
    intro href
    exact Bool.false_ne_true (h.1.symm.trans (hwith block href))
  rw [blockSchema, accepts_oneOf_pair hexclusive, accepts_ref, accepts_ref, hinline, hreference]
  constructor
  · rintro (h | h)
    · obtain ⟨block, rfl⟩ := exists_obj_of_accepts h
      rw [accepts_inlineBlockSchema] at h
      exact ⟨block, rfl, by rw [blockOk, h.1, if_neg Bool.false_ne_true, h.2]⟩
    · obtain ⟨block, rfl⟩ := exists_obj_of_accepts h
      rw [accepts_referenceBlockSchema] at h
      exact ⟨block, rfl, by rw [blockOk, hwith block h, if_pos rfl, h]⟩
  · rintro ⟨block, rfl, h⟩
    rw [accepts_inlineBlockSchema, accepts_referenceBlockSchema]
    cases href : Fields.has block "ref" with
    | false =>
      rw [blockOk, href, if_neg Bool.false_ne_true] at h
      exact .inl ⟨rfl, h⟩
    | true =>
      rw [blockOk, href, if_pos rfl] at h
      exact .inr h

include herror in
theorem accepts_nullableError : accepts numbers env (.oneOf [.type [.null], .ref "error"]) v = isNullableError v := by
  have hexclusive : accepts numbers env (.type [.null]) v = true → ¬ accepts numbers env (.ref "error") v = true := by
    intro hnull h
    rw [accepts_ref, herror] at h
    obtain ⟨fs, rfl⟩ := exists_obj_of_accepts h
    cases hnull
  rw [Bool.eq_iff_iff, accepts_oneOf_pair hexclusive, accepts_ref, herror]
  constructor
  · rintro (h | h)
    · rcases v with (_ | _ | _ | _) | _ | _
      · rfl
      all_goals cases h
    · obtain ⟨fs, rfl⟩ := exists_obj_of_accepts h
      exact accepts_errorSchema.mp h
  · intro h
    unfold isNullableError at h
    split at h
    · exact .inl rfl
    · exact .inr (accepts_errorSchema.mpr h)
    · cases h

include herror in
theorem accepts_metaSchema :
    accepts numbers env metaSchema v = true ↔ ∃ m, v = .obj m ∧ metaOk m = true := by
  have hobj : ∀ m : JsonObject ν, accepts numbers env metaSchema (.obj m) = true ↔ metaOk m = true := by
    intro m
    have hisObj : DocTree.isObj (.obj m) = true := rfl
    simp (disch := simp) only [metaSchema, accepts_allOf, List.forall_mem_cons, accepts_object,
      accepts_properties_anything, accepts_nullableString, accepts_nullableObject, accepts_nullableError herror, metaOk,
      Bool.and_eq_true, memberMayBe_iff, List.not_mem_nil, false_implies, implies_true, and_true, hisObj, true_and]
    tauto
  constructor
  · intro h
    obtain ⟨m, rfl⟩ := exists_obj_of_accepts h
    exact ⟨m, rfl, (hobj m).mp h⟩
  · rintro ⟨m, rfl, h⟩
    exact (hobj m).mpr h

omit [DecidableEq ν] in
theorem exists_objs_of_forall {P : JsonObject ν → Prop} {xs : List (Json ν)} (h : ∀ x ∈ xs, ∃ b, x = .obj b ∧ P b) :
    ∃ bs : List (JsonObject ν), xs = bs.map .obj ∧ ∀ b ∈ bs, P b := by
  induction xs with
  | nil => exact ⟨[], rfl, fun b hb => by cases hb⟩
  | cons x xs ih =>
    obtain ⟨⟨b, rfl, hb⟩, hxs⟩ := List.forall_mem_cons.mp h
    obtain ⟨bs, rfl, hbs⟩ := ih hxs
    exact ⟨b :: bs, rfl, List.forall_mem_cons.mpr ⟨hb, hbs⟩⟩

include hinline hreference in
/-- The value of `blocks`: a list of complete blocks. -/
theorem accepts_blocks (hblock : ∀ v, env "block" v = accepts numbers env blockSchema v) :
    accepts numbers env (.allOf [.type [.array], .items (.ref "block")]) v = true ↔
      ∃ blocks : List (JsonObject ν), v = .arr (blocks.map .obj) ∧ ∀ b ∈ blocks, blockOk schemaRules b = true := by
  have hitem : ∀ x, accepts numbers env (.ref "block") x = true ↔
      ∃ block, x = .obj block ∧ blockOk schemaRules block = true := by
    intro x
    rw [accepts_ref, hblock, accepts_blockSchema hinline hreference]
  constructor
  · intro h
    simp only [accepts_allOf, List.forall_mem_cons] at h
    rcases v with (_ | _ | _ | _) | xs | _
    · cases h.1
    · cases h.1
    · cases h.1
    · cases h.1
    · obtain ⟨blocks, rfl, hok⟩ := exists_objs_of_forall fun x hx => (hitem x).mp (accepts_items.mp h.2.1 x hx)
      exact ⟨blocks, rfl, hok⟩
    · cases h.1
  · rintro ⟨blocks, rfl, hok⟩
    simp only [accepts_allOf, List.forall_mem_cons, accepts_items, List.mem_map]
    refine ⟨rfl, ?_, fun x hx => by cases hx⟩
    rintro x ⟨block, hmem, rfl⟩
    exact (hitem _).mpr ⟨block, rfl, hok block hmem⟩

end

/-- A model that the schema accepts, member by member. -/
structure SchemaModel (model : JsonObject ν) (version : String) (blocks : List (JsonObject ν)) : Prop where
  known : version = "1.0" ∨ version = protocolVersion
  versionIs : Fields.get? model "version" = some (.str version)
  biz : memberIs DocTree.isNonEmptyStr model "biz" = true
  metaIs : ∃ m, Fields.get? model "meta" = some (.obj m) ∧ metaOk m = true
  blocksAre : Fields.get? model "blocks" = some (.arr (blocks.map .obj))
  complete : ∀ b ∈ blocks, blockOk schemaRules b = true
  references : ∀ b ∈ blocks, Fields.has b "ref" = true → version = protocolVersion

omit [DecidableEq ν] in
theorem modelOk_schemaRules_iff (model : JsonObject ν) : modelOk schemaRules model = true ↔
    ∃ version blocks, SchemaModel model version blocks ∧ (blocks.map idOf).Nodup := by
  constructor
  · intro h
    simp only [modelOk, Bool.and_eq_true, Option.any_eq_true] at h
    obtain ⟨⟨⟨hversion, hbiz⟩, hmeta⟩, blocks, hblocks, hok⟩ := h
    obtain ⟨version, hknown, hget⟩ : ∃ version, (version = "1.0" ∨ version = protocolVersion) ∧
        Fields.get? model "version" = some (.str version) := by
      unfold versionOk at hversion
      cases hget : Fields.get? model "version" with
      | none => rw [hget] at hversion; cases hversion
      | some v =>
        rw [hget] at hversion
        simp only [Bool.or_eq_true, beq_iff_eq, DocTree.asStr_eq_some] at hversion
        rcases hversion with rfl | rfl
        · exact ⟨_, .inl rfl, rfl⟩
        · exact ⟨_, .inr rfl, rfl⟩
    obtain ⟨u, hu, hmetaOk⟩ := memberIs_iff.mp hmeta
    simp only [Option.any_eq_true] at hmetaOk
    obtain ⟨m, hm, hmetaOk⟩ := hmetaOk
    obtain rfl := DocTree.asObj_eq_some.mp hm
    have hgetBlocks : Fields.get? model "blocks" = some (.arr (blocks.map .obj)) := by
      unfold modelBlocks at hblocks
      cases hget : Fields.get? model "blocks" with
      | none => rw [hget] at hblocks; cases hblocks
      | some v =>
        rw [hget] at hblocks
        obtain ⟨items, harr, hobjs⟩ := Option.bind_eq_some_iff.mp hblocks
        rw [DocTree.asArr_eq_some.mp harr, DocTree.asObjs_eq_some.mp hobjs]
    have hmodelVersion : modelVersion model = some version := by
      rw [modelVersion, hget]
      rfl
    simp only [blocksOk, Bool.and_eq_true, List.all_eq_true, decide_eq_true_eq, hmodelVersion] at hok
    obtain ⟨⟨hcomplete, hreferences⟩, hnodup⟩ := hok
    refine ⟨version, blocks, ⟨hknown, hget, hbiz, ⟨m, hu, by simpa [schemaRules] using hmetaOk⟩, hgetBlocks, hcomplete,
      fun b hb href => ?_⟩, hnodup⟩
    simpa [href] using hreferences b hb
  · rintro ⟨version, blocks, h, hnodup⟩
    obtain ⟨m, hmeta, hmetaOk⟩ := h.metaIs
    have hversion : versionOk schemaRules model = true := by
      rw [versionOk, h.versionIs]
      rcases h.known with rfl | rfl <;> simp [protocolVersion]
    have hmodelMeta : modelMetaOk schemaRules model = true :=
      memberIs_iff.mpr ⟨_, hmeta, by simpa [DocTree.asObj] using .inr hmetaOk⟩
    have hblocks : modelBlocks schemaRules model = some blocks := by
      rw [modelBlocks, h.blocksAre]
      exact DocTree.asObjs_map_obj blocks
    have hmodelVersion : modelVersion model = some version := by
      rw [modelVersion, h.versionIs]
      rfl
    have hok : blocksOk schemaRules (some version) blocks = true := by
      simp only [blocksOk, Bool.and_eq_true, List.all_eq_true, decide_eq_true_eq]
      refine ⟨⟨h.complete, fun b hb => ?_⟩, hnodup⟩
      cases href : Fields.has b "ref" with
      | false => rfl
      | true => simp [h.references b hb href]
    simp [modelOk, hversion, h.biz, hmodelMeta, hblocks, hmodelVersion, hok]

section

/-! The definitions of the schema mean what they say. -/

variable (numbers : Numbers ν) (v : Json ν)

theorem resolve_inlineBlock : resolve numbers modelSchema.defs "inline_block" v =
    accepts numbers (resolve numbers modelSchema.defs) inlineBlockSchema v :=
  modelSchema.resolve_eq (by simp [modelSchema]) v

theorem resolve_referenceBlock : resolve numbers modelSchema.defs "reference_block" v =
    accepts numbers (resolve numbers modelSchema.defs) referenceBlockSchema v :=
  modelSchema.resolve_eq (by simp [modelSchema]) v

theorem resolve_block : resolve numbers modelSchema.defs "block" v =
    accepts numbers (resolve numbers modelSchema.defs) blockSchema v :=
  modelSchema.resolve_eq (by simp [modelSchema]) v

theorem resolve_error : resolve numbers modelSchema.defs "error" v =
    accepts numbers (resolve numbers modelSchema.defs) errorSchema v :=
  modelSchema.resolve_eq (by simp [modelSchema]) v

end

theorem accepts_modelSchema_iff (model : JsonObject ν) : modelSchema.accepts numbers (.obj model) = true ↔
    ∃ version blocks, SchemaModel model version blocks := by
  have hinline := resolve_inlineBlock numbers
  have hreference := resolve_referenceBlock numbers
  have hblock := resolve_block numbers
  have herror := resolve_error numbers
  have hobj : DocTree.isObj (.obj model) = true := rfl
  unfold Document.accepts
  generalize resolve numbers modelSchema.defs = env at hinline hreference hblock herror
  simp (disch := simp) only [modelSchema, accepts_allOf, List.forall_mem_cons, accepts_object, accepts_required,
    accepts_properties_anything, accepts_cond, accepts_enum, accepts_nonEmptyString, accepts_metaSchema herror,
    accepts_blocks hinline hreference hblock, List.not_mem_nil, false_implies, implies_true, and_true, hobj, true_and]
  constructor
  · rintro ⟨⟨hversion, hbiz, hmeta, hblocks⟩, ⟨hknown, hbizOk, hmetaOk, hblocksOk⟩, hold, -⟩
    obtain ⟨v, hv⟩ := (Fields.has_eq_true_iff _ _).mp hversion
    obtain ⟨a, ha, rfl⟩ := hknown v hv
    obtain ⟨u, hu⟩ := (Fields.has_eq_true_iff _ _).mp hmeta
    obtain ⟨m, rfl, hm⟩ := hmetaOk u hu
    obtain ⟨w, hw⟩ := (Fields.has_eq_true_iff _ _).mp hblocks
    obtain ⟨blocks, rfl, hok⟩ := hblocksOk w hw
    obtain ⟨version, rfl, hversion⟩ : ∃ version, a = .str version ∧ (version = "1.0" ∨ version = protocolVersion) := by
      rcases List.mem_cons.mp ha with rfl | ha
      · exact ⟨_, rfl, .inl rfl⟩
      · exact ⟨_, List.mem_singleton.mp ha, .inr rfl⟩
    refine ⟨version, blocks, hversion, hv, memberIs_iff_has.mpr ⟨hbiz, memberMayBe_iff.mpr hbizOk⟩, ⟨m, hu, hm⟩, hw, hok,
      fun b hb href => ?_⟩
    rcases hversion with rfl | h
    · -- a model of version 1.0 has inline blocks only
      have hitems := hold (fun x hx => ⟨_, List.mem_singleton_self _, Option.some.inj (hx.symm.trans hv)⟩) _ hw
      have hinlineOk := accepts_items.mp hitems (.obj b) (List.mem_map.mpr ⟨b, hb, rfl⟩)
      rw [accepts_ref, hinline, accepts_inlineBlockSchema] at hinlineOk
      exact absurd (hinlineOk.1.symm.trans href) Bool.false_ne_true
    · exact h
  · rintro ⟨version, blocks, h⟩
    obtain ⟨m, hmeta, hmetaOk⟩ := h.metaIs
    obtain ⟨hbiz, hbizOk⟩ := memberIs_iff_has.mp h.biz
    have hhas : ∀ {k x}, Fields.get? model k = some x → Fields.has model k = true :=
      fun {k x} hx => (Fields.has_eq_true_iff _ _).mpr ⟨x, hx⟩
    refine ⟨⟨hhas h.versionIs, hbiz, hhas hmeta, hhas h.blocksAre⟩, ⟨fun x hx => ?_, memberMayBe_iff.mp hbizOk, fun x hx => ?_,
      fun x hx => ?_⟩, fun hold x hx => ?_, fun _ => rfl⟩
    · obtain rfl := Option.some.inj (h.versionIs.symm.trans hx)
      exact ⟨_, by rcases h.known with rfl | rfl <;> simp [protocolVersion], rfl⟩
    · exact ⟨m, Option.some.inj (hx.symm.trans hmeta), hmetaOk⟩
    · exact ⟨blocks, Option.some.inj (hx.symm.trans h.blocksAre), h.complete⟩
    · obtain rfl := Option.some.inj (h.blocksAre.symm.trans hx)
      obtain ⟨a, ha, hversion⟩ := hold _ h.versionIs
      rw [accepts_items]
      intro y hy
      obtain ⟨b, hb, rfl⟩ := List.mem_map.mp hy
      rw [accepts_ref, hinline, accepts_inlineBlockSchema]
      have hnone : Fields.has b "ref" = false := by
        rw [← Bool.not_eq_true]
        intro href
        rw [h.references b hb href, List.mem_singleton.mp ha] at hversion
        simp [protocolVersion] at hversion
      have hcomplete := h.complete b hb
      rw [blockOk, hnone, if_neg Bool.false_ne_true] at hcomplete
      exact ⟨hnone, hcomplete⟩

/-- What `#/$defs/block` of the schema accepts of the objects. -/
theorem resolve_block_iff (block : JsonObject ν) :
    resolve numbers modelSchema.defs "block" (.obj block) = true ↔ blockOk schemaRules block = true := by
  rw [resolve_block, accepts_blockSchema (resolve_inlineBlock numbers) (resolve_referenceBlock numbers)]
  constructor
  · rintro ⟨other, heq, h⟩
    rwa [DocTree.obj.inj heq]
  · exact fun h => ⟨block, rfl, h⟩

/-- The identities of the blocks are distinct. -/
def DistinctIds (model : JsonObject ν) : Prop :=
  ∀ blocks : List (JsonObject ν), Fields.get? model "blocks" = some (.arr (blocks.map .obj)) → (blocks.map idOf).Nodup

/-- The schema accepts the models of all rules but the one on identities. -/
theorem modelOk_iff_accepts (model : JsonObject ν) : modelOk schemaRules model = true ↔
    modelSchema.accepts numbers (.obj model) = true ∧ DistinctIds model := by
  rw [modelOk_schemaRules_iff, accepts_modelSchema_iff]
  constructor
  · rintro ⟨version, blocks, h, hnodup⟩
    refine ⟨⟨version, blocks, h⟩, fun blocks' h' => ?_⟩
    have heq : blocks'.map DocTree.obj = blocks.map DocTree.obj := by
      simpa using h'.symm.trans h.blocksAre
    rw [List.map_injective_iff.mpr (fun _ _ => DocTree.obj.inj) heq]
    exact hnodup
  · rintro ⟨⟨version, blocks, h⟩, hdistinct⟩
    exact ⟨version, blocks, h, hdistinct blocks h.blocksAre⟩

/-! ## `patch-event.schema.json` -/

/-- The names of the operations. -/
def operationNames : List String := ["start", "set", "append", "error", "ping", "end"]

/-- The members that the schema names, with their schemas. -/
def eventMemberSchemas (zero : ν) : List (String × Schema ν) :=
  [("op", .enum (operationNames.map .str)), ("seq", .allOf [.type [.integer], .minimum zero]),
    ("stream_id", .type [.string]), ("ts", .allOf [.type [.integer], .minimum zero]), ("mask", .type [.string]),
    ("event_type", .type [.string]), ("model", .type [.object]), ("meta", .type [.object]), ("block", .type [.object])]

def patchEventSchema (zero : ν) : Document ν where
  root := .allOf [.type [.object], .required ["op", "seq"], .properties (eventMemberSchemas zero) .nothing,
    .allOf [.cond (.allOf [.properties [("op", .const (.str "start"))] .anything, .required ["op"]])
      (.allOf [.required ["model"], .not (.anyOf [.required ["meta"], .required ["block"]])])
      (.not (.required ["model"]))]]
  defs := []
  ordered := trivial

/-- An integer that is not below `zero`. -/
def isNatural (numbers : Numbers ν) (zero : ν) : Json ν → Bool
  | .num n => numbers.isInteger n && numbers.le zero n
  | _ => false

theorem accepts_natural (zero : ν) :
    accepts numbers env (.allOf [.type [.integer], .minimum zero]) v = isNatural numbers zero v := by
  rcases v with (_ | _ | n | _) | _ | _
  · rfl
  · rfl
  · show ((numbers.isInteger n || false) && (numbers.le zero n && true)) = _
    rw [Bool.or_false, Bool.and_true]
    rfl
  · rfl
  · rfl
  · rfl

/-- An event that the schema accepts, member by member. -/
structure SchemaEvent (numbers : Numbers ν) (zero : ν) (fs : JsonObject ν) (op : String) : Prop where
  keys : ∀ k ∈ Fields.keys fs, k ∈ (eventMemberSchemas zero).map Prod.fst
  known : op ∈ operationNames
  opIs : Fields.get? fs "op" = some (.str op)
  seq : memberIs (isNatural numbers zero) fs "seq" = true
  ts : memberMayBe (isNatural numbers zero) fs "ts" = true
  streamId : memberMayBe (fun v => v.asStr.isSome) fs "stream_id" = true
  mask : memberMayBe (fun v => v.asStr.isSome) fs "mask" = true
  eventType : memberMayBe (fun v => v.asStr.isSome) fs "event_type" = true
  model : memberMayBe DocTree.isObj fs "model" = true
  meta_ : memberMayBe DocTree.isObj fs "meta" = true
  block : memberMayBe DocTree.isObj fs "block" = true
  payload : if op = "start" then Fields.has fs "model" = true ∧ Fields.has fs "meta" = false ∧ Fields.has fs "block" = false
    else Fields.has fs "model" = false

omit [DecidableEq ν] in
theorem is_start_iff {op : String} (hop : Fields.get? fs "op" = some (.str op)) :
    ((∀ x, Fields.get? fs "op" = some x → ∃ a ∈ [(.str "start" : Scalar ν)], x = .leaf a) ∧
      Fields.has fs "op" = true) ↔ op = "start" := by
  rw [hop, Fields.has, hop]
  simp

theorem accepts_patchEventSchema_iff (zero : ν) (fs : JsonObject ν) :
    (patchEventSchema zero).accepts numbers (.obj fs) = true ↔ ∃ op, SchemaEvent numbers zero fs op := by
  have hobj : DocTree.isObj (.obj fs) = true := rfl
  have hnodup : ((eventMemberSchemas zero).map Prod.fst).Nodup := by simp [eventMemberSchemas]
  unfold Document.accepts
  generalize resolve numbers (patchEventSchema zero).defs = env
  have hmembers : (∀ d ∈ eventMemberSchemas zero, ∀ x, Fields.get? fs d.1 = some x → accepts numbers env d.2 x = true) ↔
      (∀ x, Fields.get? fs "op" = some x → ∃ a ∈ operationNames.map Scalar.str, x = .leaf a) ∧
      memberMayBe (isNatural numbers zero) fs "seq" = true ∧ memberMayBe (isNatural numbers zero) fs "ts" = true ∧
      memberMayBe (fun v => v.asStr.isSome) fs "stream_id" = true ∧
      memberMayBe (fun v => v.asStr.isSome) fs "mask" = true ∧
      memberMayBe (fun v => v.asStr.isSome) fs "event_type" = true ∧
      memberMayBe DocTree.isObj fs "model" = true ∧ memberMayBe DocTree.isObj fs "meta" = true ∧
      memberMayBe DocTree.isObj fs "block" = true := by
    simp only [eventMemberSchemas, List.forall_mem_cons, List.not_mem_nil, false_implies, implies_true, and_true,
      accepts_enum, accepts_natural, accepts_string, accepts_object, memberMayBe_iff]
    tauto
  have hother : (∃ t ∈ [(.required ["meta"] : Schema ν), .required ["block"]], accepts numbers env t (.obj fs) = true) ↔
      Fields.has fs "meta" = true ∨ Fields.has fs "block" = true := by
    simp only [List.mem_cons, List.not_mem_nil, or_false, exists_eq_or_imp, exists_eq_left, accepts_required,
      forall_eq]
  simp (disch := first | exact hnodup | simp) only [patchEventSchema, accepts_allOf, List.forall_mem_cons,
    accepts_object, accepts_required, accepts_properties_anything, accepts_properties_nothing, accepts_cond,
    accepts_enum, accepts_not, accepts_anyOf, List.not_mem_nil, false_implies, implies_true, and_true, hobj, true_and,
    hmembers, hother, not_or, Bool.not_eq_true]
  constructor
  · rintro ⟨⟨hhasOp, hhasSeq⟩, ⟨⟨hop, hseq, hts, hstream, hmask, htype, hmodel, hmeta, hblock⟩, hkeys⟩, hstart, hnoStart⟩
    obtain ⟨v, hv⟩ := (Fields.has_eq_true_iff _ _).mp hhasOp
    obtain ⟨a, ha, rfl⟩ := hop v hv
    obtain ⟨op, hknown, rfl⟩ := List.mem_map.mp ha
    rw [is_start_iff hv] at hstart hnoStart
    refine ⟨op, hkeys, hknown, hv, memberIs_iff_has.mpr ⟨hhasSeq, hseq⟩, hts, hstream, hmask, htype, hmodel, hmeta,
      hblock, ?_⟩
    split_ifs with h
    · exact hstart h
    · exact hnoStart h
  · rintro ⟨op, h⟩
    obtain ⟨hhasSeq, hseq⟩ := memberIs_iff_has.mp h.seq
    have hhasOp : Fields.has fs "op" = true := (Fields.has_eq_true_iff _ _).mpr ⟨_, h.opIs⟩
    have hpayload := h.payload
    refine ⟨⟨hhasOp, hhasSeq⟩, ⟨⟨fun x hx => ?_, hseq, h.ts, h.streamId, h.mask, h.eventType, h.model, h.meta_, h.block⟩,
      h.keys⟩, ?_⟩
    · exact ⟨.str op, List.mem_map.mpr ⟨op, h.known, rfl⟩, Option.some.inj (hx.symm.trans h.opIs)⟩
    · rw [is_start_iff h.opIs]
      split_ifs at hpayload with hop
      · exact ⟨fun _ => hpayload, fun hne => absurd hop hne⟩
      · exact ⟨fun h => absurd h hop, fun _ => hpayload⟩

end AgentUE
