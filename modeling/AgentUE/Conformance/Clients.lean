import AgentUE.Conformance.ValidRuns
import AgentUE.TypeScript.Parsed

/-!
# The Python and the TypeScript reducer side by side

Both reducers are folded over one sequence of events, the TypeScript one in a fresh process over parsed snapshots.
While the events keep clear of `__proto__` they take the same step, with two exceptions, both of them appends that
only Python takes; `PythonOnly` lists them and `clients_agree_iff` shows that nothing else tells the two apart, as
long as no value is nested too deeply for the copies that both make of the payloads.
-/

namespace AgentUE.Conformance

open Data
open TypeScript (World Shaped plainObject ofJson ofJsonObject)

variable {ν : Type} [DecidableEq ν]

/-- An append of `field` that only Python takes, to a block that is `found` in the snapshot. When the block is
missing, Python adds it whatever its `group_id` is. When it is there and the field is not, TypeScript finds a
function of `Object.prototype` under the name of the field. -/
def PythonOnlyAppend (block : JsonObject ν) (field : String) : Option (JsonObject ν) → Prop
  | none => blockOk Python.rules block = true ∧ groupIdOk block = false
  | some existing => Fields.has existing "ref" = false ∧ Fields.has existing field = false ∧
      TypeScript.objectMembers.elem field = true

/-- The steps at which the two reducers part, from a common snapshot. -/
def PythonOnly (s : JsonObject ν) (e : Envelope ν) : Prop :=
  e.op = .append ∧ Python.validateOperation e = .ok () ∧ ∃ block field id value, e.block = some block ∧
    Python.appendArguments (e.mask.getD "") block = .ok (field, id, value) ∧
    PythonOnlyAppend block field (blockWithId s id)

/-- The validators give one verdict on the event, and neither its mask nor its payload has a name `__proto__`. -/
structure Portable (e : Envelope ν) : Prop where
  verdict : Python.validateOperation e = .ok () ↔ TypeScript.parsePatchEvent [] e = .ok ()
  mask : AvoidsPrototype e
  payload : ∀ fs, e.model = some fs ∨ e.meta_ = some fs ∨ e.block = some fs → plainObject fs = true

/-! ## The loop over the blocks -/

omit [DecidableEq ν] in
/-- The first block with an id, where there is a list of blocks. -/
theorem blockWithId_of_blocks {s : JsonObject ν} {blocks : List (JsonObject ν)}
    (h : Fields.get? s "blocks" = some (.arr (blocks.map .obj))) (id : String) :
    blockWithId s id = blocks.find? fun b => idOf b == some id := by
  rw [blockWithId, h]
  simp only [Option.bind_some, DocTree.asArr, DocTree.asObjs_map_obj, Option.getD_some]

omit [DecidableEq ν] in
/-- The list of blocks that an operation adds when there is none is empty. -/
theorem blockWithId_setDefault {s : JsonObject ν} (hs : Shaped s) (id : String) :
    blockWithId (setDefault s "blocks" (.arr [])) id = blockWithId s id := by
  rcases hs with hnone | ⟨blocks, hblocks⟩
  · have hset : setDefault s "blocks" (.arr []) = Fields.set s "blocks" (.arr []) := by
      simp [setDefault, Fields.has, hnone]
    rw [blockWithId, blockWithId, hset, Fields.get?_set_self, hnone]
    rfl
  · rw [setDefault_of_get? hblocks]

theorem idEquals_eq (id : String) : (fun b : JsonObject ν => (.ok (Python.idEquals (some (.str id)) b) : Except Rejection Bool)) =
    fun b => .ok (idOf b == some id) := by
  funext b
  rw [Python.idEquals_str]

/-- The Python loop on a block that is there. -/
theorem patchBlocks_found {s : JsonObject ν} {blocks : List (JsonObject ν)}
    (h : Fields.get? s "blocks" = some (.arr (blocks.map .obj))) {id : String} {b : JsonObject ν}
    (hfind : blocks.find? (fun b => idOf b == some id) = some b)
    (f : JsonObject ν → Except Rejection (JsonObject ν)) (missing : Except Rejection (List (JsonObject ν))) :
    (Python.patchBlocks s (some (.str id)) f missing).state? = (f b).toOption.map fun b' =>
      Fields.set s "blocks" (.arr ((TypeScript.replaceFirst (fun b => idOf b == some id) b' blocks).map .obj)) := by
  rw [Python.patchBlocks_state? h, idEquals_eq, TypeScript.updateFirst_of_find?_some hfind, Option.map_map]
  rfl

/-- The Python loop for a block that is missing. -/
theorem patchBlocks_missing {s : JsonObject ν} {blocks : List (JsonObject ν)}
    (h : Fields.get? s "blocks" = some (.arr (blocks.map .obj))) {id : String}
    (hfind : blocks.find? (fun b => idOf b == some id) = none)
    (f : JsonObject ν → Except Rejection (JsonObject ν)) (missing : Except Rejection (List (JsonObject ν))) :
    (Python.patchBlocks s (some (.str id)) f missing).state? = missing.toOption.map fun added =>
      Fields.set s "blocks" (.arr ((blocks ++ added).map .obj)) := by
  rw [Python.patchBlocks_state? h, idEquals_eq, TypeScript.updateFirst_of_find?_none hfind, Option.map_map]
  rfl

/-! ## Whole blocks -/

theorem upsertBlock_parsed {s : JsonObject ν} (hs : Shaped s) {block : JsonObject ν}
    (hok : blockOk TypeScript.rules block = true) (hplain : plainObject block = true) :
    (TypeScript.upsertBlock (.parsed s) (ofJsonObject block)).state? =
      (Python.upsertBlock s block).state?.map World.parsed := by
  obtain ⟨id, hid, hne⟩ := exists_idOf_of_blockOk hok
  have hpython : blockOk Python.rules block = true := ((blockOk_go_iff block).mp hok).1
  have hmember : memberIs DocTree.isNonEmptyStr block "id" = true := memberIs_id_of_blockOk hok
  have hversion : TypeScript.readString (World.parsed s).shared (World.parsed s).snapshot "version" =
      (Fields.get? s "version").bind DocTree.asStr := TypeScript.readString_ofJsonObject s "version"
  -- both compare the version with the string of the current one
  have hsame : ((Fields.get? s "version").bind DocTree.asStr != some protocolVersion) =
      (Fields.get? s "version" != some (.str protocolVersion)) := by
    cases Fields.get? s "version" with
    | none => rfl
    | some v =>
      rw [Bool.eq_iff_iff]
      simp
  have hts : (do
      TypeScript.validateBlock (World.parsed s).shared (ofJsonObject block)
      check (!(TypeScript.hasOwn (ofJsonObject block) "ref" &&
        TypeScript.readString (World.parsed s).shared (World.parsed s).snapshot "version" != some protocolVersion))
        .referenceRequiresVersion) =
      check (!(Fields.has block "ref" && Fields.get? s "version" != some (.str protocolVersion)))
        Rejection.referenceRequiresVersion := by
    have hvalid : TypeScript.validateBlock (World.parsed s).shared (ofJsonObject block) = .ok () :=
      (TypeScript.validateBlock_eq_ok_iff block).mpr hok
    rw [hvalid, TypeScript.hasOwn_ofJsonObject, hversion, hsame]
    rfl
  have hpy : Python.upsertArguments s block = (do
      check (!(Fields.has block "ref" && Fields.get? s "version" != some (.str protocolVersion)))
        Rejection.referenceRequiresVersion
      return id) := by
    have hvalid : Python.validateBlock block = .ok () := (Python.validateBlock_eq_ok_iff block).mpr hpython
    rw [Python.upsertArguments, hmember, hvalid, hid]
    rfl
  obtain ⟨blocks, hblocks, -, hensure⟩ := TypeScript.ensureBlocks_parsed hs
  rw [TypeScript.upsertBlock, hts, Python.upsertBlock, hpy]
  cases hcheck : check (!(Fields.has block "ref" && Fields.get? s "version" != some (.str protocolVersion)))
      Rejection.referenceRequiresVersion with
  | error r => rfl
  | ok u =>
    have hread : TypeScript.readString [] (ofJsonObject block) "id" = some id := by
      rw [TypeScript.readString_id_ofJsonObject, hid]
    have hshared : ∀ s : JsonObject ν, (World.parsed s).shared = [] := fun _ => rfl
    simp only [bind, Except.bind, pure, Except.pure, hensure, hshared, hread]
    rw [Applied.state?_returned, TypeScript.any_hasId, TypeScript.cloneObject_ofJsonObject hplain]
    cases hfind : blocks.find? fun b => idOf b == some id with
    | some b =>
      have hany : (blocks.any fun b => idOf b == some id) = true :=
        List.any_eq_true.mpr ⟨b, List.mem_of_find?_eq_some hfind, List.find?_some (p := fun b => idOf b == some id) hfind⟩
      rw [if_pos hany, TypeScript.replaceFirst_map, TypeScript.putBlocks_parsed hblocks, patchBlocks_found hblocks hfind]
      rfl
    | none =>
      have hany : ¬ (blocks.any fun b => idOf b == some id) = true := by
        simpa [List.find?_eq_none] using hfind
      have hadd : blocks.map ofJsonObject ++ [ofJsonObject block] = (blocks ++ [block]).map ofJsonObject := by
        rw [List.map_append]
        rfl
      rw [if_neg hany, hadd, TypeScript.putBlocks_parsed hblocks, patchBlocks_missing hblocks hfind]
      rfl

/-! ## Masked sets -/

omit [DecidableEq ν] in
/-- The masked write to a part of a parsed snapshot that `store` puts back. -/
theorem finishWrite_parsed {s : JsonObject ν} {store : TypeScript.JsObject ν → World ν} {path : List String}
    (havoid : "__proto__" ∉ path) (hne : path ≠ []) (target : JsonObject ν) (v : Json ν) :
    (World.parsed s).finishWrite store path (ofJson v) (ofJsonObject target) =
      .returned (store (ofJsonObject (DocTree.writeAt target path v))) := by
  have hwrite : TypeScript.writePath (World.parsed s).shared (ofJsonObject target) path (ofJson v) =
      .done (ofJsonObject (DocTree.writeAt target path v)) := TypeScript.writePath_ofJsonObject havoid hne target v
  rw [World.finishWrite, hwrite]

omit [DecidableEq ν] in
theorem setMeta_parsed_of_some {s : JsonObject ν} {u : Json ν} (h : Fields.get? s "meta" = some u) {path : List String}
    (havoid : "__proto__" ∉ path) (hne : path ≠ []) (v : Json ν) :
    (TypeScript.setMeta (.parsed s) path (ofJson v)).state? = (Python.setMeta s path v).state?.map World.parsed := by
  have hmember : TypeScript.readMember (World.parsed s).shared (World.parsed s).snapshot "meta" = .value (ofJson u) :=
    TypeScript.readMember_ofJsonObject_some h
  have hread : TypeScript.read (World.parsed s).shared (World.parsed s).snapshot "meta" = some (ofJson u) := by
    rw [TypeScript.read, hmember]
  simp only [TypeScript.setMeta, hmember, hread, Python.setMeta, setDefault_of_get? h, h, Option.bind_some]
  cases u with
  | leaf a => rfl
  | arr xs => rfl
  | obj target =>
    have hhas : Fields.has s "meta" = true := (Fields.has_eq_true_iff _ _).mpr ⟨_, h⟩
    simp only [ofJson, DocTree.asObj, finishWrite_parsed havoid hne, Applied.state?_returned, Python.writePath]
    exact congrArg some (TypeScript.put_parsed hhas (.obj (DocTree.writeAt target path v)))

omit [DecidableEq ν] in
theorem setMeta_parsed (s : JsonObject ν) {path : List String} (havoid : "__proto__" ∉ path) (hne : path ≠ [])
    (v : Json ν) : (TypeScript.setMeta (.parsed s) path (ofJson v)).state? =
      (Python.setMeta s path v).state?.map World.parsed := by
  cases hget : Fields.get? s "meta" with
  | some u => exact setMeta_parsed_of_some hget havoid hne v
  | none =>
    -- both begin with an empty object
    have hset : Fields.get? (Fields.set s "meta" (.obj [])) "meta" = some (.obj []) := Fields.get?_set_self _ _ _
    have hpython : Python.setMeta s path v = Python.setMeta (Fields.set s "meta" (.obj [])) path v := by
      have hdefault : setDefault s "meta" (.obj []) = Fields.set s "meta" (.obj []) := by
        simp [setDefault, Fields.has, hget]
      simp only [Python.setMeta, hdefault, setDefault_of_get? hset]
    have hts : TypeScript.setMeta (.parsed s) path (ofJson v) =
        TypeScript.setMeta (.parsed (Fields.set s "meta" (.obj []))) path (ofJson v) := by
      have hmember : TypeScript.readMember (World.parsed s).shared (World.parsed s).snapshot "meta" = .undefined := by
        rw [World.parsed, TypeScript.readMember_ofJsonObject_none hget]
        rfl
      have hmember' : TypeScript.readMember (World.parsed (Fields.set s "meta" (.obj []))).shared
          (World.parsed (Fields.set s "meta" (.obj []))).snapshot "meta" = .value (.obj []) :=
        TypeScript.readMember_ofJsonObject_some hset
      have hworld : World.mk (World.parsed s).shared (Fields.set (World.parsed s).snapshot (.own "meta") (.obj [])) =
          .parsed (Fields.set s "meta" (.obj [])) := by
        rw [World.parsed, World.parsed, ← TypeScript.set_ofJsonObject]
        rfl
      simp only [TypeScript.setMeta, hmember, hmember', hworld]
    rw [hpython, hts, setMeta_parsed_of_some hset havoid hne v]

theorem setBlock_parsed {s : JsonObject ν} (hs : Shaped s) {id : String} {path : List String}
    (havoid : "__proto__" ∉ path) (hne : path ≠ []) (v : Json ν) :
    (TypeScript.setBlock (.parsed s) (some id) path (ofJson v)).state? =
      (Python.patchBlocks s (some (.str id)) (Python.setInBlock path v) (.error .targetBlockDoesNotExist)).state?.map
        World.parsed := by
  obtain ⟨blocks, hblocks, hnone, hensure⟩ := TypeScript.ensureBlocks_parsed hs
  have hfind : (blocks.map ofJsonObject).find? (TypeScript.hasId [] (some id)) =
      (blocks.find? fun b => idOf b == some id).map ofJsonObject := TypeScript.find?_hasId_map id blocks
  have hshared : ∀ s : JsonObject ν, (World.parsed s).shared = [] := fun _ => rfl
  simp only [TypeScript.setBlock, hensure, hshared, hfind]
  cases hfound : blocks.find? fun b => idOf b == some id with
  | none =>
    rcases hs with hs | ⟨blocks', hs⟩
    · rw [Python.patchBlocks, hs]
      rfl
    · rw [setDefault_of_get? hs] at hblocks
      rw [patchBlocks_missing hblocks hfound]
      rfl
  | some target =>
    have hsome : Fields.get? s "blocks" = some (.arr (blocks.map .obj)) := by
      rcases hs with hs | ⟨blocks', hs⟩
      · rw [hnone hs] at hfound
        cases hfound
      · rwa [setDefault_of_get? hs] at hblocks
    rw [patchBlocks_found hsome hfound, setDefault_of_get? hsome, Option.map_some]
    simp only [TypeScript.requireInlineBlock, TypeScript.hasOwn_ofJsonObject, Python.setInBlock,
      Python.requireInlineBlock]
    cases Fields.has target "ref" with
    | true => rfl
    | false =>
      have hput := TypeScript.putBlocks_parsed hsome
        (TypeScript.replaceFirst (fun b => idOf b == some id) (DocTree.writeAt target path v) blocks)
      rw [← TypeScript.replaceFirst_map] at hput
      simp only [Bool.not_false, check, if_true, finishWrite_parsed havoid hne, Applied.state?_returned, hput]
      rfl

omit [DecidableEq ν] in
theorem setArguments_parsed {mask root relative : String} (hcut : Text.cut mask '.' = some (root, relative))
    (hroot : root ≠ "") (source : JsonObject ν) :
    (TypeScript.setArguments mask (ofJsonObject source)).toOption =
      (Python.setArguments mask source).toOption.map fun a => (a.1, a.2.1, ofJson a.2.2) := by
  have hcheck : (root != "" && relative != "") = (relative != "") := by simp [hroot]
  simp only [TypeScript.setArguments, Python.setArguments, hcut, hcheck, readPath_ofJsonObject]
  cases relative != "" with
  | false => rfl
  | true =>
    cases Python.readPath source (Text.split relative '.') <;> rfl

/-- A masked set by a mask that a validator has let through. -/
theorem setByMask_parsed {s : JsonObject ν} (hs : Shaped s) {mask : String} {source : JsonObject ν}
    (hmask : Text.hasPrefix mask "meta." = true ∨
      Text.hasPrefix mask "block." = true ∧ ∃ id, Fields.get? source "id" = some (.str id))
    (havoid : "__proto__" ∉ Text.split mask '.') (hplain : plainObject source = true) :
    (TypeScript.setByMask (.parsed s) mask (ofJsonObject source)).state? =
      (Python.setByMask s mask source).state?.map World.parsed := by
  obtain ⟨root, relative, hcut, hroot⟩ : ∃ root relative, Text.cut mask '.' = some (root, relative) ∧
      (root = "meta" ∨ root = "block" ∧ ∃ id, Fields.get? source "id" = some (.str id)) := by
    rcases hmask with hmeta | ⟨hblock, hid⟩
    · exact ⟨_, _, Text.cut_meta hmeta, .inl rfl⟩
    · exact ⟨_, _, Text.cut_block hblock, .inr ⟨rfl, hid⟩⟩
  have hne : root ≠ "" := by
    rcases hroot with rfl | ⟨rfl, -⟩ <;> decide
  have hargs := setArguments_parsed hcut hne source
  cases hpython : Python.setArguments mask source with
  | error r =>
    rw [hpython] at hargs
    cases hts : TypeScript.setArguments mask (ofJsonObject source) with
    | error r' => simp only [TypeScript.setByMask, Python.setByMask, hts, hpython]; rfl
    | ok a => rw [hts] at hargs; cases hargs
  | ok a =>
    obtain ⟨root', path, v⟩ := a
    rw [hpython] at hargs
    have hts : TypeScript.setArguments mask (ofJsonObject source) = .ok (root', path, ofJson v) :=
      toOption_eq_some.mp hargs
    obtain ⟨relative', hcut', hpath, hread⟩ := Python.setArguments_eq_ok hpython
    obtain ⟨rfl, rfl⟩ : root = root' ∧ relative = relative' := by
      simpa using hcut.symm.trans hcut'
    have havoid' : "__proto__" ∉ path := fun hmem => havoid (by
      rw [Text.split_of_cut hcut, ← hpath]
      exact List.mem_cons_of_mem _ hmem)
    have hnil : path ≠ [] := by
      rw [hpath]
      exact Text.split_ne_nil _ _
    simp only [TypeScript.setByMask, Python.setByMask, hts, hpython, TypeScript.cloneJson_of_readPath hplain hread]
    rcases hroot with rfl | ⟨rfl, id, hid⟩
    · rw [if_pos rfl, if_pos rfl]
      exact setMeta_parsed s havoid' hnil v
    · have hstring : TypeScript.readString (World.parsed s).shared (ofJsonObject source) "id" = some id := by
        have hread := TypeScript.readString_ofJsonObject source "id"
        rw [hid] at hread
        exact hread
      have hother : ¬ "block" = "meta" := by decide
      rw [if_neg hother, if_neg hother, if_pos rfl, if_pos rfl, hstring, hid]
      exact setBlock_parsed hs havoid' hnil v

/-! ## Appends -/

omit [DecidableEq ν] in
theorem appendArguments_parsed (mask : String) {block : JsonObject ν} {id : String} (hid : idOf block = some id)
    (hmember : memberIs DocTree.isNonEmptyStr block "id" = true) :
    (TypeScript.appendArguments mask (ofJsonObject block)).toOption.map (fun a => (a.1, id, a.2)) =
      (Python.appendArguments mask block).toOption.map fun a => (a.1, a.2.1, ofJson a.2.2) := by
  simp only [TypeScript.appendArguments, Python.appendArguments, hmember, hid, TypeScript.get?_ofJsonObject]
  cases Text.dropPrefix mask "block." != "" && !Text.contains (Text.dropPrefix mask "block.") '.' with
  | false => rfl
  | true =>
    cases Fields.get? block (Text.dropPrefix mask "block.") with
    | none => rfl
    | some v =>
      have harr : (DocTree.asArr (ofJson v)).isSome = v.asArr.isSome := by
        cases v <;> rfl
      simp only [check, bind, Except.bind, Option.map_some, TypeScript.asStr_ofJson, harr, if_true]
      cases v.asStr.isSome || v.asArr.isSome <;> rfl

omit [DecidableEq ν] in
theorem appendArguments_parsed_eq_ok {mask : String} {block : JsonObject ν}
    (hmember : memberIs DocTree.isNonEmptyStr block "id" = true) {field id : String} {value : Json ν}
    (h : Python.appendArguments mask block = .ok (field, id, value)) :
    TypeScript.appendArguments mask (ofJsonObject block) = .ok (field, ofJson value) := by
  obtain ⟨hid, -⟩ := Python.appendArguments_eq_ok h
  have hargs := appendArguments_parsed mask hid hmember
  rw [h] at hargs
  obtain ⟨⟨field', v⟩, hok, heq⟩ := Option.map_eq_some_iff.mp hargs
  obtain ⟨rfl, rfl⟩ : field' = field ∧ v = ofJson value := by simpa using heq
  exact toOption_eq_some.mp hok

omit [DecidableEq ν] in
/-- The change of the block that an append has found, unless TypeScript finds a function under the name of the field. -/
theorem appendToBlock_parsed {field : String} (hfield : field ≠ "__proto__") {value : Json ν}
    (hplain : TypeScript.cloneJson (ofJson value) = ofJson value) {existing : JsonObject ν}
    (hboth : ¬ (Fields.has existing "ref" = false ∧ Fields.has existing field = false ∧
      TypeScript.objectMembers.elem field = true)) :
    (TypeScript.appendToBlock [] field (ofJson value) (ofJsonObject existing)).toOption =
      (Python.appendToBlock field value existing).toOption.map ofJsonObject := by
  have hstore : ∀ v, TypeScript.assign [] (ofJsonObject existing) field (ofJson v) =
      ofJsonObject (Fields.set existing field v) := by
    intro v
    rw [TypeScript.assign_of_ne hfield, TypeScript.set_ofJsonObject]
  simp only [TypeScript.appendToBlock, TypeScript.requireInlineBlock, TypeScript.hasOwn_ofJsonObject,
    Python.appendToBlock, Python.requireInlineBlock]
  cases href : Fields.has existing "ref" with
  | true => rfl
  | false =>
    cases hget : Fields.get? existing field with
    | none =>
      have helem : TypeScript.objectMembers.elem field = false := by
        by_contra hmember
        exact hboth ⟨href, (Fields.has_eq_false_iff _ _).mpr hget, by simpa using hmember⟩
      have hread : TypeScript.readMember [] (ofJsonObject existing) field = .undefined := by
        rw [TypeScript.readMember_ofJsonObject_none hget, TypeScript.readObjectPrototype_of_ne hfield, helem]
        rfl
      rw [hread]
      simp only [TypeScript.Member.resolve, TypeScript.extended, hplain]
      exact congrArg some (hstore value)
    | some old =>
      have hread : TypeScript.readMember [] (ofJsonObject existing) field = .value (ofJson old) :=
        TypeScript.readMember_ofJsonObject_some hget
      rw [hread]
      rcases old with (_ | b | n | old) | old | old
      · -- null is replaced
        simp only [ofJson, TypeScript.Member.resolve, TypeScript.extended, hplain]
        exact congrArg some (hstore value)
      · rcases value with _ | _ | _ <;> rfl
      · rcases value with _ | _ | _ <;> rfl
      · rcases value with (_ | b | n | new) | new | new
        all_goals first | rfl | exact congrArg some (hstore (.str (old ++ new)))
      · rcases value with _ | new | new
        · rfl
        · have hitems : TypeScript.cloneItems (TypeScript.ofJsonItems new) = TypeScript.ofJsonItems new := by
            simpa [ofJson, TypeScript.cloneJson] using hplain
          simp only [ofJson, TypeScript.Member.resolve, TypeScript.extended, hitems, ← TypeScript.ofJsonItems_append]
          exact congrArg some (hstore (.arr (old ++ new)))
        · rfl
      · rcases value with _ | _ | _ <;> rfl

omit [DecidableEq ν] in
/-- What the TypeScript reducer asks of a block that an append adds. -/
theorem appendMissing_parsed_iff {block : JsonObject ν} (href : Fields.has block "ref" = false) :
    (do
      check (TypeScript.truthy (TypeScript.read [] (ofJsonObject block) "type")) Rejection.appendRequiresCompleteBlock
      TypeScript.validateBlock [] (ofJsonObject block)) = .ok () ↔
      blockOk Python.rules block = true ∧ groupIdOk block = true := by
  rw [seq_eq_ok, check_eq_ok, TypeScript.validateBlock_eq_ok_iff, blockOk_typeScript, blockOk_go_iff]
  refine and_iff_right_of_imp fun h => ?_
  -- a complete inline block has a type
  have htype : memberIs DocTree.isNonEmptyStr block "type" = true := by
    have hinline := inlineBlockOk_of_blockOk h.1 href
    simp only [inlineBlockOk, Bool.and_eq_true] at hinline
    exact hinline.1.1.2
  obtain ⟨v, hv, hstr⟩ := memberIs_iff.mp htype
  obtain ⟨t, rfl, ht⟩ := DocTree.isNonEmptyStr_iff.mp hstr
  rw [TypeScript.read_ofJsonObject, hv]
  simpa [TypeScript.truthy, ofJson] using ht

/-- An append that a validator has let through, unless only Python takes it. -/
theorem applyAppend_parsed {s : JsonObject ν} (hs : Shaped s) {e : Envelope ν} {mask : String} {block : JsonObject ν}
    (hmask : e.mask = some mask) (hblock : e.block = some block) (havoid : "__proto__" ∉ Text.split mask '.')
    (hplain : plainObject block = true) (hmember : memberIs DocTree.isNonEmptyStr block "id" = true)
    (hpatch : patchable mask block = true) (hpre : Text.hasPrefix mask "block." = true)
    (hboth : ∀ field id value, Python.appendArguments mask block = .ok (field, id, value) →
      ¬ PythonOnlyAppend block field (blockWithId s id)) :
    (TypeScript.applyAppend (.parsed s) mask (ofJsonObject block)).state? =
      (Python.applyAppend s e).state?.map World.parsed := by
  obtain ⟨id, hid, -⟩ := exists_idOf_of_memberIs hmember
  have hargs := appendArguments_parsed mask hid hmember
  have hgetD : e.mask.getD "" = mask := by rw [hmask]; rfl
  cases hpython : Python.appendArguments mask block with
  | error r =>
    rw [hpython] at hargs
    rw [Python.applyAppend_of_error hblock (by rw [hgetD, hpython])]
    cases hts : TypeScript.appendArguments mask (ofJsonObject block) with
    | error r' => simp only [TypeScript.applyAppend, hts]; rfl
    | ok a => rw [hts] at hargs; cases hargs
  | ok a =>
    obtain ⟨field, id', value⟩ := a
    obtain ⟨hid', -, hget, hfield⟩ := Python.appendArguments_eq_ok hpython
    obtain rfl : id = id' := Option.some.inj (hid.symm.trans hid')
    have hts := appendArguments_parsed_eq_ok hmember hpython
    have hproto : field ≠ "__proto__" := fun heq => havoid (List.mem_of_getElem? (heq ▸ hfield hpre))
    have hvalue : TypeScript.cloneJson (ofJson value) = ofJson value :=
      (TypeScript.cloneJson_eq_iff _).mpr (TypeScript.plain_of_get? hplain hget)
    obtain ⟨blocks, hblocks, -, hensure⟩ := TypeScript.ensureBlocks_parsed hs
    have hnot := hboth field id value hpython
    rw [← blockWithId_setDefault hs, blockWithId_of_blocks hblocks] at hnot
    have hread : TypeScript.readString [] (ofJsonObject block) "id" = some id := by
      rw [TypeScript.readString_id_ofJsonObject, hid]
    have hshared : ∀ s : JsonObject ν, (World.parsed s).shared = [] := fun _ => rfl
    rw [Python.applyAppend_of_ok hblock (by rw [hgetD, hpython])]
    simp only [TypeScript.applyAppend, hts, hensure, hshared, hread, TypeScript.find?_hasId_map]
    cases hfind : blocks.find? fun b => idOf b == some id with
    | some existing =>
      rw [hfind] at hnot
      rw [patchBlocks_found hblocks hfind, Option.map_some]
      dsimp only
      rw [Applied.state?_ofExcept_eq, appendToBlock_parsed hproto hvalue hnot, Option.map_map, Option.map_map]
      congr 1
      funext existing'
      simp only [Function.comp_apply, TypeScript.replaceFirst_map, TypeScript.putBlocks_parsed hblocks]
    | none =>
      rw [hfind] at hnot
      rw [patchBlocks_missing hblocks hfind, Option.map_none]
      dsimp only
      rw [Applied.state?_ofExcept_eq, TypeScript.cloneObject_ofJsonObject hplain]
      have href : Fields.has block "ref" = false := inline_of_patchable hpatch
      by_cases hok : blockOk Python.rules block = true
      · have hgroup : groupIdOk block = true := by
          by_contra hgroup
          exact hnot ⟨hok, by simpa using hgroup⟩
        have hadd : blocks.map ofJsonObject ++ [ofJsonObject block] = (blocks ++ [block]).map ofJsonObject := by
          rw [List.map_append]
          rfl
        rw [(appendMissing_parsed_iff href).mpr ⟨hok, hgroup⟩, Python.appendMissing_of_blockOk hok href, hadd,
          TypeScript.putBlocks_parsed hblocks]
        rfl
      · have hpy : (Python.appendMissing block).toOption = none := by
          rw [Option.eq_none_iff_forall_ne_some]
          intro added hadded
          exact hok (Python.appendMissing_eq_ok.mp (toOption_eq_some.mp hadded)).2.1
        have htsNone : (do
            check (TypeScript.truthy (TypeScript.read [] (ofJsonObject block) "type"))
              Rejection.appendRequiresCompleteBlock
            TypeScript.validateBlock [] (ofJsonObject block)).toOption = none := by
          rw [Option.eq_none_iff_forall_ne_some]
          intro u hu
          exact hok ((appendMissing_parsed_iff href).mp (toOption_eq_some.mp hu)).1
        rw [hpy, htsNone]
        rfl

/-! ## One step -/

omit [DecidableEq ν] in
/-- The payload of an append that both validators let through. -/
theorem append_of_parse {e : Envelope ν} (hop : e.op = .append) (hts : TypeScript.parsePatchEvent [] e = .ok ()) :
    ∃ mask block, e.mask = some mask ∧ e.block = some block ∧ memberIs DocTree.isNonEmptyStr block "id" = true ∧
      Text.hasPrefix mask "block." = true ∧ patchable mask block = true := by
  simp only [TypeScript.parsePatchEvent, seq_eq_ok, TypeScript.validatePayload, hop, TypeScript.validateAppend,
    TypeScript.maskOf_nil] at hts
  obtain ⟨-, -, -, hvalid⟩ := hts
  cases hblock : e.block with
  | none => simp [hblock] at hvalid
  | some block =>
    cases hmask : e.mask with
    | none => simp [hblock, hmask, seq_eq_ok] at hvalid
    | some mask =>
      simp only [hblock, hmask, seq_eq_ok, check_eq_ok, TypeScript.assertBlockId, TypeScript.readNonEmpty_ofJsonObject,
        typeScript_fieldPatch_iff] at hvalid
      exact ⟨mask, block, rfl, rfl, hvalid.2.2.1, hvalid.2.1, hvalid.2.2.2⟩

theorem applySet_parsed {s : JsonObject ν} (hs : Shaped s) {e : Envelope ν} (he : Portable e)
    (hvalid : TypeScript.validateSet [] e = .ok ()) :
    (TypeScript.applySet (.parsed s) e).state? = (Python.applySet s e).state?.map World.parsed := by
  have hshared : (World.parsed s).shared = [] := rfl
  rw [typeScript_set_iff] at hvalid
  simp only [TypeScript.applySet, Python.applySet, hshared, TypeScript.maskOf_nil, setSource_nil]
  rcases hmeta : e.meta_ with _ | m <;> rcases hblock : e.block with _ | block <;>
    rcases hmask : e.mask with _ | mask <;> simp only [hmeta, hblock, hmask] at hvalid
  · exact upsertBlock_parsed hs hvalid (he.payload block (.inr (.inr hblock)))
  · obtain ⟨id, hid, -⟩ := exists_idOf_of_memberIs hvalid.2.1
    have hget : Fields.get? block "id" = some (.str id) := by
      obtain ⟨v, hv, hstr⟩ := Option.bind_eq_some_iff.mp hid
      rw [hv, DocTree.asStr_eq_some.mp hstr]
    exact setByMask_parsed hs (.inr ⟨hvalid.1, id, hget⟩) (he.mask mask hmask) (he.payload block (.inr (.inr hblock)))
  · exact setByMask_parsed hs (.inl hvalid) (he.mask mask hmask) (he.payload m (.inr (.inl hmeta)))

/-- The two reducers take the same step, unless only Python takes it. -/
theorem clients_step {s : JsonObject ν} (hs : Shaped s) {e : Envelope ν} (he : Portable e) (hboth : ¬ PythonOnly s e) :
    (TypeScript.applyPatch (.parsed s) e).state? = (Python.applyPatch s e).state?.map World.parsed := by
  have hshared : (World.parsed s).shared = [] := rfl
  unfold TypeScript.applyPatch Python.applyPatch
  rw [hshared]
  cases hpython : Python.validateOperation e with
  | error r =>
    cases hts : TypeScript.parsePatchEvent [] e with
    | error r' => rfl
    | ok u =>
      rw [he.verdict.mpr hts] at hpython
      cases hpython
  | ok u =>
    have hts : TypeScript.parsePatchEvent [] e = .ok () := he.verdict.mp hpython
    rw [hts]
    dsimp only
    cases hop : e.op with
    | start =>
      obtain ⟨model, hmodel, hok⟩ := python_start_payload hop hpython
      rw [Python.applyEvent_start hop hmodel hok, TypeScript.applyEvent, hop, hmodel]
      dsimp only [Option.getD_some]
      rw [TypeScript.cloneObject_ofJsonObject (he.payload model (.inl hmodel))]
      rfl
    | set =>
      simp only [TypeScript.applyEvent, Python.applyEvent, hop]
      simp only [TypeScript.parsePatchEvent, seq_eq_ok, TypeScript.validatePayload, hop] at hts
      exact applySet_parsed hs he hts.2.2.2
    | append =>
      obtain ⟨mask, block, hmask, hblock, hmember, hpre, hpatch⟩ := append_of_parse hop hts
      simp only [TypeScript.applyEvent, Python.applyEvent, hop, hshared, TypeScript.maskOf_nil, hmask, hblock,
        Option.getD_some]
      refine applyAppend_parsed hs hmask hblock (he.mask mask hmask) (he.payload block (.inr (.inr hblock))) hmember
        hpatch hpre fun field id value hargs honly => hboth ?_
      exact ⟨hop, hpython, block, field, id, value, hblock, by rw [hmask]; exact hargs, honly⟩
    | error =>
      have hsource : ((e.meta_.map ofJsonObject).getD []) = ofJsonObject (e.meta_.getD []) := by
        cases e.meta_ <;> rfl
      simp only [TypeScript.applyEvent, Python.applyEvent, hop, hshared, TypeScript.metaOf_nil, hsource]
      refine setByMask_parsed hs (.inl (by decide)) (by decide) ?_
      cases hmeta : e.meta_ with
      | none => rfl
      | some m => exact he.payload m (.inr (.inl hmeta))
    | ping => simp only [TypeScript.applyEvent, Python.applyEvent, hop]; rfl
    | end_ => simp only [TypeScript.applyEvent, Python.applyEvent, hop]; rfl

/-! ## Snapshots that runs reach -/

theorem shaped_patchBlocks {s s' : JsonObject ν} (hs : Shaped s) {blockId : Option (Json ν)}
    {f : JsonObject ν → Except Rejection (JsonObject ν)} {missing : Except Rejection (List (JsonObject ν))}
    (h : (Python.patchBlocks s blockId f missing).state? = some s') : Shaped s' := by
  rcases hs with hnone | ⟨blocks, hblocks⟩
  · rw [Python.patchBlocks_of_items (by rw [hnone]; rfl), updateFirst, Python.dicts_toOption, Option.map_map] at h
    obtain ⟨added, -, rfl⟩ := Option.map_eq_some_iff.mp h
    exact .inr ⟨added, Fields.get?_set_self _ _ _⟩
  · rw [Python.patchBlocks_state? hblocks] at h
    obtain ⟨blocks', -, rfl⟩ := Option.map_eq_some_iff.mp h
    exact .inr ⟨blocks', Fields.get?_set_self _ _ _⟩

omit [DecidableEq ν] in
theorem Shaped.setDefault {s : JsonObject ν} (hs : Shaped s) : Shaped (setDefault s "blocks" (.arr [])) := by
  obtain ⟨blocks, hblocks, -⟩ := TypeScript.ensureBlocks_parsed hs
  exact .inr ⟨blocks, hblocks⟩

omit [DecidableEq ν] in
theorem shaped_of_modelOk {R : Rules} {model : JsonObject ν} (h : modelOk R model = true) : Shaped model := by
  obtain ⟨blocks, hblocks, -⟩ := exists_blocks_of_modelOk h
  unfold modelBlocks at hblocks
  cases hget : Fields.get? model "blocks" with
  | none => exact .inl hget
  | some v =>
    rw [hget] at hblocks
    obtain ⟨items, harr, hobjs⟩ := Option.bind_eq_some_iff.mp hblocks
    refine .inr ⟨blocks, ?_⟩
    rw [hget, DocTree.asArr_eq_some.mp harr, DocTree.asObjs_eq_some.mp hobjs]

omit [DecidableEq ν] in
theorem shaped_setMeta {s s' : JsonObject ν} (hs : Shaped s) {path : List String} {v : Json ν}
    (h : (Python.setMeta s path v).state? = some s') : Shaped s' := by
  simp only [Python.setMeta] at h
  have hblocks : Fields.get? (setDefault s "meta" (.obj [])) "blocks" = Fields.get? s "blocks" :=
    get?_setDefault_ne (by decide)
  split at h
  · cases h
  · obtain rfl := Option.some.inj h
    unfold Shaped
    rw [Fields.get?_set_ne _ _ (by decide), hblocks]
    exact hs

theorem shaped_setByMask {s s' : JsonObject ν} (hs : Shaped s) {mask : String} {source : JsonObject ν}
    (h : (Python.setByMask s mask source).state? = some s') : Shaped s' := by
  unfold Python.setByMask at h
  split at h
  · cases h
  · split_ifs at h
    · exact shaped_setMeta hs h
    · exact shaped_patchBlocks hs h
    · cases h

/-- Every accepted event keeps the list of blocks one of objects. -/
theorem shaped_step {s s' : JsonObject ν} {e : Envelope ν} (hs : Shaped s)
    (h : (Python.applyPatch s e).state? = some s') : Shaped s' := by
  unfold Python.applyPatch at h
  cases hpython : Python.validateOperation e with
  | error r => simp [hpython] at h
  | ok u =>
    simp only [hpython] at h
    cases hop : e.op with
    | start =>
      obtain ⟨model, hmodel, hok⟩ := python_start_payload hop hpython
      rw [Python.applyEvent_start hop hmodel hok] at h
      obtain rfl := Option.some.inj h
      exact shaped_of_modelOk hok
    | set =>
      simp only [Python.applyEvent, hop, Python.applySet] at h
      split at h
      · unfold Python.upsertBlock at h
        split at h
        · cases h
        · exact shaped_patchBlocks (Shaped.setDefault hs) h
      · exact shaped_setByMask hs h
    | append =>
      simp only [Python.applyEvent, hop, Python.applyAppend] at h
      split at h
      · cases h
      · exact shaped_patchBlocks (Shaped.setDefault hs) h
    | error =>
      simp only [Python.applyEvent, hop] at h
      exact shaped_setByMask hs h
    | ping =>
      obtain rfl : s = s' := by simpa [Python.applyEvent, hop] using h
      exact hs
    | end_ =>
      obtain rfl : s = s' := by simpa [Python.applyEvent, hop] using h
      exact hs

/-! ## Where they part -/

/-- Python takes such an append. -/
theorem python_takes {s : JsonObject ν} (hs : Shaped s) {e : Envelope ν} {block : JsonObject ν} {field id : String}
    {value : Json ν} (hblock : e.block = some block) (href : Fields.has block "ref" = false)
    (hargs : Python.appendArguments (e.mask.getD "") block = .ok (field, id, value))
    (honly : PythonOnlyAppend block field (blockWithId s id)) : (Python.applyAppend s e).state?.isSome = true := by
  obtain ⟨blocks, hblocks, -, -⟩ := TypeScript.ensureBlocks_parsed hs
  rw [Python.applyAppend_of_ok hblock hargs]
  rw [← blockWithId_setDefault hs, blockWithId_of_blocks hblocks] at honly
  cases hfind : blocks.find? fun b => idOf b == some id with
  | none =>
    rw [hfind] at honly
    rw [patchBlocks_missing hblocks hfind, Python.appendMissing_of_blockOk honly.1 href]
    rfl
  | some existing =>
    rw [hfind] at honly
    obtain ⟨hinline, habsent, -⟩ := honly
    have hnone : Fields.get? existing field = none := (Fields.has_eq_false_iff _ _).mp habsent
    have hset : Python.appendToBlock field value existing = .ok (Fields.set existing field value) := by
      simp only [Python.appendToBlock, Python.requireInlineBlock, hinline, hnone]
      rfl
    rw [patchBlocks_found hblocks hfind, hset]
    rfl

omit [DecidableEq ν] in
/-- TypeScript refuses it. -/
theorem typeScript_refuses {s : JsonObject ν} (hs : Shaped s) {mask : String} {block : JsonObject ν}
    {field id : String} {value : Json ν} (hmember : memberIs DocTree.isNonEmptyStr block "id" = true)
    (hproto : field ≠ "__proto__") (href : Fields.has block "ref" = false)
    (hargs : Python.appendArguments mask block = .ok (field, id, value))
    (honly : PythonOnlyAppend block field (blockWithId s id)) :
    (TypeScript.applyAppend (.parsed s) mask (ofJsonObject block)).state? = none := by
  obtain ⟨blocks, hblocks, -, hensure⟩ := TypeScript.ensureBlocks_parsed hs
  rw [← blockWithId_setDefault hs, blockWithId_of_blocks hblocks] at honly
  have hts := appendArguments_parsed_eq_ok hmember hargs
  have hread : TypeScript.readString [] (ofJsonObject block) "id" = some id := by
    rw [TypeScript.readString_id_ofJsonObject, (Python.appendArguments_eq_ok hargs).1]
  have hshared : ∀ s : JsonObject ν, (World.parsed s).shared = [] := fun _ => rfl
  simp only [TypeScript.applyAppend, hts, hensure, hshared, hread, TypeScript.find?_hasId_map]
  cases hfind : blocks.find? fun b => idOf b == some id with
  | none =>
    rw [hfind] at honly
    rw [Option.map_none]
    dsimp only
    rw [Applied.state?_ofExcept_eq, Option.map_eq_none_iff, Option.eq_none_iff_forall_ne_some]
    intro u hu
    have hgroup := ((appendMissing_parsed_iff href).mp (toOption_eq_some.mp hu)).2
    rw [honly.2] at hgroup
    cases hgroup
  | some existing =>
    rw [hfind] at honly
    obtain ⟨hinline, habsent, hmember⟩ := honly
    have hfunction : TypeScript.readMember [] (ofJsonObject existing) field = .builtin := by
      rw [TypeScript.readMember_ofJsonObject_none ((Fields.has_eq_false_iff _ _).mp habsent),
        TypeScript.readObjectPrototype_of_ne hproto, if_pos hmember]
    have herror : TypeScript.appendToBlock [] field (ofJson value) (ofJsonObject existing) =
        .error (.appendIncompatible field) := by
      simp only [TypeScript.appendToBlock, TypeScript.requireInlineBlock, TypeScript.hasOwn_ofJsonObject, hinline,
        hfunction, TypeScript.Member.resolve]
      rfl
    rw [Option.map_some]
    dsimp only
    rw [Applied.state?_ofExcept_eq, herror]
    rfl

/-- An append that only Python takes tells the reducers apart. -/
theorem clients_part {s : JsonObject ν} (hs : Shaped s) {e : Envelope ν} (he : Portable e) (honly : PythonOnly s e) :
    (TypeScript.applyPatch (.parsed s) e).state? ≠ (Python.applyPatch s e).state?.map World.parsed := by
  obtain ⟨hop, hpython, block, field, id, value, hblock, hargs, honly⟩ := honly
  have hts : TypeScript.parsePatchEvent [] e = .ok () := he.verdict.mp hpython
  obtain ⟨mask, block', hmask, hblock', hmember, hpre, hpatch⟩ := append_of_parse hop hts
  obtain rfl : block = block' := Option.some.inj (hblock.symm.trans hblock')
  have href : Fields.has block "ref" = false := inline_of_patchable hpatch
  have hgetD : e.mask.getD "" = mask := by rw [hmask]; rfl
  have hproto : field ≠ "__proto__" := by
    rw [hgetD] at hargs
    have hfield := (Python.appendArguments_eq_ok hargs).2.2.2 hpre
    intro heq
    exact he.mask mask hmask (List.mem_of_getElem? (heq ▸ hfield))
  have htakes := python_takes hs hblock href hargs honly
  have hrefuses : (TypeScript.applyPatch (.parsed s) e).state? = none := by
    have hshared : (World.parsed s).shared = [] := rfl
    unfold TypeScript.applyPatch
    rw [hshared, hts]
    simp only [TypeScript.applyEvent, hop, hshared, TypeScript.maskOf_nil, hblock, Option.getD_some, hgetD]
    rw [hgetD] at hargs
    exact typeScript_refuses hs hmember hproto href hargs honly
  have hpatch : Python.applyPatch s e = Python.applyAppend s e := by
    unfold Python.applyPatch
    simp only [hpython, Python.applyEvent, hop]
  rw [hrefuses, hpatch]
  obtain ⟨s', hs'⟩ := Option.isSome_iff_exists.mp htakes
  rw [hs', Option.map_some]
  exact (Option.some_ne_none _).symm

/-! ## Runs -/

/-- The two folds stay together over a sequence of events, prefix by prefix, exactly when none of its steps is an
append that only Python takes. -/
theorem clients_agree_iff {s₀ : JsonObject ν} (hs₀ : Shaped s₀) {events : List (Envelope ν)}
    (hportable : ∀ e ∈ events, Portable e) :
    (∀ p, p <+: events →
      (TypeScript.applyPatches (.parsed s₀) p).state? = (Python.applyPatches s₀ p).state?.map World.parsed) ↔
      ∀ p e, p ++ [e] <+: events → ∀ s, (Python.applyPatches s₀ p).state? = some s → ¬ PythonOnly s e := by
  have hshaped : ∀ p s, (Python.applyPatches s₀ p).state? = some s → Shaped s := fun p s h =>
    Applied.run_invariant (fun _ _ _ => shaped_step) hs₀ h
  have hmem : ∀ p e, p ++ [e] <+: events → Portable e := fun p e h => hportable e (h.subset (by simp))
  have hpython : ∀ p e, (Python.applyPatches s₀ (p ++ [e])).state? =
      (Python.applyPatches s₀ p).state?.bind fun s => (Python.applyPatch s e).state? :=
    Applied.run_concat Python.applyPatch s₀
  have hts : ∀ p e, (TypeScript.applyPatches (.parsed s₀) (p ++ [e])).state? =
      (TypeScript.applyPatches (.parsed s₀) p).state?.bind fun w => (TypeScript.applyPatch w e).state? :=
    Applied.run_concat TypeScript.applyPatch (World.parsed s₀)
  constructor
  · intro hagree p e hp s hrun honly
    have hafter := hagree (p ++ [e]) hp
    rw [hts, hpython, hagree p ((List.prefix_append p [e]).trans hp), hrun, Option.map_some, Option.bind_some,
      Option.bind_some] at hafter
    exact clients_part (hshaped p s hrun) (hmem p e hp) honly hafter
  · intro hboth p
    induction p using List.reverseRecOn with
    | nil => exact fun _ => rfl
    | append_singleton p e ih =>
      intro hp
      rw [hts, hpython, ih ((List.prefix_append p [e]).trans hp)]
      cases hrun : (Python.applyPatches s₀ p).state? with
      | none => rfl
      | some s =>
        rw [Option.map_some, Option.bind_some, Option.bind_some]
        exact clients_step (hshaped p s hrun) (hmem p e hp) (hboth p e hp s hrun)

/-- A start with one block, an append to its text, and one to a field with the name of a function of
`Object.prototype`. -/
def appendsConstructor : List (Envelope ℕ) :=
  [{ op := .start, seq := 1, streamId := none, ts := none, mask := none, eventType := none,
     model := some [("version", .str "1.1"), ("biz", .str "b"), ("meta", .obj []),
       ("blocks", .arr [.obj [("id", .str "x"), ("type", .str "text"), ("text", .str "a")]])],
     meta_ := none, block := none },
   { op := .append, seq := 2, streamId := none, ts := none, mask := some "block.text", eventType := none,
     model := none, meta_ := none, block := some [("id", .str "x"), ("text", .str "b")] },
   { op := .append, seq := 3, streamId := none, ts := none, mask := some "block.constructor", eventType := none,
     model := none, meta_ := none, block := some [("id", .str "x"), ("constructor", .str "c")] }]

theorem clients_agree_iff_appendsConstructor :
    ((∀ p, p <+: appendsConstructor →
        (TypeScript.applyPatches (.parsed []) p).state? = (Python.applyPatches [] p).state?.map World.parsed) ↔
      ∀ p e, p ++ [e] <+: appendsConstructor → ∀ s, (Python.applyPatches [] p).state? = some s → ¬ PythonOnly s e) ∧
      (Python.applyPatches [] appendsConstructor).state?.isSome = true ∧
      (TypeScript.applyPatches (.parsed []) appendsConstructor).state? = none := by
  refine ⟨clients_agree_iff (.inl rfl) fun e he => ?_, by decide +kernel, by decide +kernel⟩
  have hall : ∀ e ∈ appendsConstructor, (Python.validateOperation e = .ok () ∧ TypeScript.parsePatchEvent [] e = .ok ()) ∧
      (e.mask.all fun mask => !(Text.split mask '.').elem "__proto__") = true ∧
      ((e.model.all plainObject && e.meta_.all plainObject) && e.block.all plainObject) = true := by
    decide +kernel
  obtain ⟨⟨hpython, hts⟩, hmask, hpayload⟩ := hall e he
  simp only [Bool.and_eq_true] at hpayload
  refine ⟨iff_of_true hpython hts, fun mask h => ?_, ?_⟩
  · rw [h] at hmask
    simpa using hmask
  · rintro fs (h | h | h)
    · simpa [h] using hpayload.1.1
    · simpa [h] using hpayload.1.2
    · simpa [h] using hpayload.2

end AgentUE.Conformance
