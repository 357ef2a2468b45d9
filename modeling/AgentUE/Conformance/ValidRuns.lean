import AgentUE.Conformance.Validity
import AgentUE.TypeScript.Copies
import Mathlib.Data.List.Find

/-!
# Typed runs of the TypeScript reducer, and of both

The TypeScript reducer works on JavaScript objects, so its step is read through the document that
`JSON.stringify` would write. A typed step whose mask avoids `__proto__` touches own properties only;
`Sound` is what it keeps. The module ends with runs of both reducers.
-/

namespace AgentUE.Conformance

open Data

variable {ν : Type}

section TypeScript

open TypeScript

/-- No name of the mask is `__proto__`, the one through which a write leaves the own properties. -/
def AvoidsPrototype (e : Envelope ν) : Prop := ∀ mask, e.mask = some mask → "__proto__" ∉ Text.split mask '.'

/-- `Object.prototype` is untouched and the document of the snapshot is a valid model. -/
structure Sound (w : World ν) : Prop where
  shared : w.shared = []
  model : modelOk rules (toJsonObject w.snapshot) = true

/-! ## Parts of a sound world -/

theorem put_of_own {w : World ν} {k : String} {u : Js ν} (h : Fields.get? w.snapshot (.own k) = some u)
    (v : Js ν) : w.put k v = { w with snapshot := Fields.set w.snapshot (.own k) v } := by
  have hown : hasOwn w.snapshot k = true := (Fields.has_eq_true_iff _ _).mpr ⟨u, h⟩
  simp [World.put, readMember_of_own h, putMember, hown]

theorem ensureBlocks_of_own {w : World ν} {bs : List (JsObject ν)}
    (h : Fields.get? w.snapshot (.own "blocks") = some (.arr (bs.map .obj))) :
    ensureBlocks w = (.ok bs, w) := by
  simp [ensureBlocks, readMember_of_own h, read_of_own h, blocksOf, DocTree.asObjs_map_obj]

theorem toJsonItems_map_obj (bs : List (JsObject ν)) :
    toJsonItems (bs.map .obj) = (bs.map toJsonObject).map DocTree.obj := by
  induction bs with
  | nil => rfl
  | cons b bs ih => rw [List.map_cons, toJsonItems, ih]; rfl

/-- The blocks of a sound world change to blocks that are valid under its version. -/
theorem Sound.putBlocks {w : World ν} (hw : Sound w) {bs bs' : List (JsObject ν)}
    (hbs : Fields.get? w.snapshot (.own "blocks") = some (.arr (bs.map .obj)))
    (hok : blocksOk rules (modelVersion (toJsonObject w.snapshot)) (bs'.map toJsonObject) = true) :
    Sound (w.putBlocks bs') := by
  rw [World.putBlocks, put_of_own hbs]
  refine ⟨hw.shared, modelOk_of_blocks hw.model (fun j hj => ?_) ?_ hok⟩
  · rw [get?_toJsonObject_set, if_neg hj]
  · rw [get?_toJsonObject_set, if_pos rfl, toJson, toJsonItems_map_obj]

/-- A stored block is compared by the id of its document. -/
theorem hasId_of_blockOk {R : Rules} {b : JsObject ν} (h : blockOk R (toJsonObject b) = true) (id : String) :
    hasId [] (some id) b = (idOf (toJsonObject b) == some id) := by
  obtain ⟨i, hi, -⟩ := exists_idOf_of_blockOk h
  rw [hasId, readString_id_of_toJsonObject hi, hi]
  rfl

theorem find?_hasId {R : Rules} {version : Option String} {bs : List (JsObject ν)}
    (h : blocksOk R version (bs.map toJsonObject) = true) (id : String) :
    (bs.find? (hasId [] (some id))).map toJsonObject =
      (bs.map toJsonObject).find? fun b => idOf b == some id := by
  rw [List.find?_map]
  congr 1
  refine List.find?_congr fun b hb => ?_
  exact hasId_of_blockOk (blockOk_of_mem h (List.mem_map_of_mem hb)) id

theorem modelBlocks_of_own {R : Rules} {object : JsObject ν} {bs : List (JsObject ν)} {docs : List (JsonObject ν)}
    (hbs : Fields.get? object (.own "blocks") = some (.arr (bs.map .obj)))
    (h : modelBlocks R (toJsonObject object) = some docs) : docs = bs.map toJsonObject := by
  rw [modelBlocks, get?_toJsonObject, hbs, Option.map_some, toJson, toJsonItems_map_obj] at h
  exact (by simpa only [DocTree.asArr, Option.bind_some, DocTree.asObjs_map_obj, Option.some.injEq] using h.symm)

/-- Where the loop of the reducers finds its block. -/
theorem replaceFirst_of_find? {β : Type} {p : β → Bool} {bs : List β} {b : β} (h : bs.find? p = some b) (b' : β) :
    ∃ pre post, bs = pre ++ b :: post ∧ replaceFirst p b' bs = pre ++ b' :: post := by
  induction bs with
  | nil => simp at h
  | cons c bs ih =>
    by_cases hc : p c = true
    · obtain rfl : c = b := by simpa [hc] using h
      exact ⟨[], bs, rfl, by simp [replaceFirst, hc]⟩
    · obtain ⟨pre, post, rfl, hreplace⟩ := ih (by simpa [hc] using h)
      exact ⟨c :: pre, post, rfl, by simp [replaceFirst, hc, hreplace]⟩

/-- A block of a sound world is replaced by one with the same id. -/
theorem Sound.replace {w : World ν} (hw : Sound w) {bs : List (JsObject ν)}
    (hbs : Fields.get? w.snapshot (.own "blocks") = some (.arr (bs.map .obj)))
    (hblocks : blocksOk rules (modelVersion (toJsonObject w.snapshot)) (bs.map toJsonObject) = true)
    {p : JsObject ν → Bool} {b b' : JsObject ν} (hfind : bs.find? p = some b)
    (hok : blockOk rules (toJsonObject b') = true) (hid : idOf (toJsonObject b') = idOf (toJsonObject b))
    (href : Fields.has (toJsonObject b') "ref" = true →
      modelVersion (toJsonObject w.snapshot) = some protocolVersion) :
    Sound (w.putBlocks (replaceFirst p b' bs)) := by
  obtain ⟨pre, post, rfl, hreplace⟩ := replaceFirst_of_find? hfind b'
  refine hw.putBlocks hbs ?_
  rw [hreplace, List.map_append, List.map_cons]
  rw [List.map_append, List.map_cons] at hblocks
  exact blocksOk_replace hblocks hok hid href

/-- A new block is added to a sound world. -/
theorem Sound.append {w : World ν} (hw : Sound w) {bs : List (JsObject ν)}
    (hbs : Fields.get? w.snapshot (.own "blocks") = some (.arr (bs.map .obj)))
    (hblocks : blocksOk rules (modelVersion (toJsonObject w.snapshot)) (bs.map toJsonObject) = true)
    {b : JsObject ν} {id : String} (hnone : bs.find? (hasId [] (some id)) = none)
    (hok : blockOk rules (toJsonObject b) = true) (hid : idOf (toJsonObject b) = some id)
    (href : Fields.has (toJsonObject b) "ref" = true →
      modelVersion (toJsonObject w.snapshot) = some protocolVersion) :
    Sound (w.putBlocks (bs ++ [b])) := by
  refine hw.putBlocks hbs ?_
  have hfind := find?_hasId hblocks id
  rw [hnone, Option.map_none] at hfind
  rw [List.map_append, List.map_singleton]
  refine blocksOk_append hblocks hok (fun c hc heq => ?_) href
  have := List.find?_eq_none.mp hfind.symm c hc
  simp [heq, hid] at this

/-! ## Payloads -/

theorem descend_ofJson (v : Json ν) (path : List String) :
    descend (ofJson v) (path.map Slot.own) = (descend v path).map ofJson := by
  induction path generalizing v with
  | nil => rfl
  | cons k rest ih =>
    cases v with
    | leaf a => rfl
    | arr xs => rfl
    | obj fs =>
      simp only [ofJson, List.map_cons, descend, get?_ofJsonObject]
      cases Fields.get? fs k with
      | none => rfl
      | some v => exact ih v

/-- The masked value of a parsed payload. -/
theorem readPath_ofJsonObject (source : JsonObject ν) (path : List String) :
    TypeScript.readPath (ofJsonObject source) path = (Python.readPath source path).map ofJson := by
  have hdescend := descend_ofJson (.obj source) path
  rw [ofJson] at hdescend
  rw [TypeScript.readPath, Python.readPath, readPathOrLeaf, readPathOrLeaf, hdescend, List.getLast?_map]
  cases descend (.obj source) path with
  | some v => rfl
  | none =>
    cases path.getLast? with
    | none => rfl
    | some k => exact get?_ofJsonObject source k

theorem setArguments_ofJsonObject {mask : String} {source : JsonObject ν} {root : String}
    {path : List String} {v : Js ν}
    (h : TypeScript.setArguments mask (ofJsonObject source) = .ok (root, path, v)) :
    ∃ value, v = ofJson value ∧ Python.setArguments mask source = .ok (root, path, value) := by
  unfold TypeScript.setArguments at h
  unfold Python.setArguments
  cases hcut : Text.cut mask '.' with
  | none => simp [hcut] at h
  | some parts =>
    obtain ⟨r, relative⟩ := parts
    simp only [hcut, seq_eq_ok, check_eq_ok, readPath_ofJsonObject, Bool.and_eq_true] at h
    cases hread : Python.readPath source (Text.split relative '.') with
    | none => simp [hread] at h
    | some value =>
      simp only [hread, Option.map_some, pure, Except.pure, Except.ok.injEq, Prod.mk.injEq] at h
      obtain ⟨⟨-, hne⟩, rfl, rfl, rfl⟩ := h
      exact ⟨value, rfl, by simp [hread, hne, check, bind, Except.bind, pure, Except.pure]⟩

theorem appendArguments_ofJsonObject {mask : String} {block : JsonObject ν} {field : String} {v : Js ν}
    (hid : memberIs DocTree.isNonEmptyStr block "id" = true)
    (h : TypeScript.appendArguments mask (ofJsonObject block) = .ok (field, v)) :
    ∃ id value, v = ofJson value ∧ Python.appendArguments mask block = .ok (field, id, value) := by
  rw [TypeScript.appendArguments, seq_eq_ok] at h
  obtain ⟨hmask, h⟩ := h
  rw [get?_ofJsonObject] at h
  cases hget : Fields.get? block (Text.dropPrefix mask "block.") with
  | none => simp [hget] at h
  | some value =>
    simp only [hget, Option.map_some, seq_eq_ok, check_eq_ok, pure, Except.pure, Except.ok.injEq,
      Prod.mk.injEq] at h
    obtain ⟨hvalue, rfl, rfl⟩ := h
    refine ⟨(idOf block).getD "", value, rfl, ?_⟩
    rw [← asStr_toJson, ← Option.isSome_map (f := toJsonItems), ← asArr_toJson, toJson_ofJson] at hvalue
    simp only [Python.appendArguments, hmask, hid, hget, hvalue]
    rfl

theorem setSource_nil (e : Envelope ν) : setSource [] e = (e.meta_.or e.block).map ofJsonObject := by
  unfold setSource
  rw [metaOf_nil]
  cases e.meta_ <;> rfl

/-! ## One step -/

theorem sound_start {w w' : World ν} (hw : w.shared = []) {e : Envelope ν} (hop : e.op = .start)
    (h : (TypeScript.applyPatch w e).state? = some w') : Sound w' := by
  unfold TypeScript.applyPatch TypeScript.applyEvent at h
  cases hvalid : parsePatchEvent w.shared e with
  | error r => simp [hvalid] at h
  | ok u =>
    simp only [hvalid, hop, Applied.state?_returned, Option.some.injEq] at h
    simp only [hw, parsePatchEvent, validatePayload, hop, seq_eq_ok] at hvalid
    cases hmodel : e.model with
    | none => simp [hmodel] at hvalid
    | some model =>
      simp only [hmodel, seq_eq_ok] at hvalid
      subst h
      refine ⟨hw, ?_⟩
      rw [hmodel]
      exact modelOk_copyObject ((parseUIModel_eq_ok_iff model).mp hvalid.2.2.2.2)

theorem sound_upsertBlock {w w' : World ν} (hw : Sound w) {block : JsonObject ν}
    (h : (TypeScript.upsertBlock w (ofJsonObject block)).state? = some w') : Sound w' := by
  obtain ⟨bs, hbs, hblocks⟩ := exists_blocks hw.model
  unfold TypeScript.upsertBlock at h
  split at h
  · simp at h
  · rename_i hvalid
    rw [seq_eq_ok, check_eq_ok, hw.shared, validateBlock_eq_ok_iff, hasOwn_ofJsonObject,
      (readString_version hw.model).1] at hvalid
    obtain ⟨hok, hversion⟩ := hvalid
    have href : Fields.has (copyObject block) "ref" = true →
        modelVersion (toJsonObject w.snapshot) = some protocolVersion := by
      intro href
      rw [has_copyObject block (by decide)] at href
      simpa [href] using hversion
    obtain ⟨id, hid, -⟩ := exists_idOf_of_blockOk hok
    have hcopy := blockOk_copyObject hok
    have hcopyId : idOf (copyObject block) = some id := by rw [idOf_copyObject, hid]
    simp only [ensureBlocks_of_own hbs, hw.shared, readString_id_ofJsonObject, hid,
      Applied.state?_returned, Option.some.injEq] at h
    subst h
    split
    · rename_i hany
      obtain ⟨b, hfind⟩ := Option.isSome_iff_exists.mp (List.find?_isSome.mpr (List.any_eq_true.mp hany))
      refine hw.replace hbs hblocks hfind hcopy ?_ href
      have hmem := List.mem_of_find?_eq_some hfind
      have hb := List.find?_some hfind
      rw [hasId_of_blockOk (blockOk_of_mem hblocks (List.mem_map_of_mem hmem))] at hb
      exact hcopyId.trans (beq_iff_eq.mp hb).symm
    · rename_i hany
      refine hw.append hbs hblocks ?_ hcopy hcopyId href
      simpa [List.find?_eq_none] using hany

/-- What an append makes of a field that no prototype but the block's own can hold. -/
theorem extended_eq_ok {m : Member ν} (hm : m.Local) {field : String} {next v : Js ν}
    (h : extended field m next = .ok v) :
    ((m = .undefined ∨ m = .value .null) ∧ v = cloneJson next) ∨
      (∃ old new, m = .value (.str old) ∧ next = .str new ∧ v = .str (old ++ new)) ∨
      ∃ old new, m = .value (.arr old) ∧ next = .arr new ∧ v = .arr (old ++ cloneItems new) := by
  unfold extended at h
  split at h <;> simp only [Except.ok.injEq, reduceCtorEq] at h
  · exact .inl ⟨.inl rfl, h.symm⟩
  · exact .inl ⟨.inr rfl, h.symm⟩
  · cases hm
  · exact .inr (.inl ⟨_, _, rfl, rfl, h.symm⟩)
  · cases hm
  · exact .inr (.inr ⟨_, _, rfl, rfl, h.symm⟩)
  · cases hm

/-- The result of an append to a complete inline block is one. -/
theorem inlineBlockOk_of_extended {b : JsObject ν} {field : String} {value : Json ν} {v : Js ν}
    (hok : inlineBlockOk rules (toJsonObject b) = true) (hfield : field ≠ "id") (hproto : field ≠ "__proto__")
    (hvalue : (value.asStr.isSome || value.asArr.isSome) = true)
    (hwrite : appendWriteOk rules (toJsonObject b) field value = true)
    (hv : extended field ((readMember [] b field).resolve b) (ofJson value) = .ok v) :
    inlineBlockOk rules (toJsonObject (Fields.set b (.own field) v)) = true := by
  have hlocal := local_readMember hproto b
  have hresolve : (readMember [] b field).resolve b = readMember [] b field := by
    generalize readMember [] b field = m at hlocal
    cases hlocal <;> rfl
  rw [hresolve] at hv
  -- an own member is what the append reads
  have hown : ∀ u, Fields.get? (toJsonObject b) field = some u →
      ∃ u', u = toJson u' ∧ readMember [] b field = .value u' := by
    intro u hu
    rw [get?_toJsonObject] at hu
    obtain ⟨u', hu', rfl⟩ := Option.map_eq_some_iff.mp hu
    exact ⟨u', rfl, readMember_of_own hu'⟩
  have hself : Fields.get? (toJsonObject (Fields.set b (.own field) v)) field = some (toJson v) := by
    rw [get?_toJsonObject_set, if_pos rfl]
  refine inlineBlockOk_of_extension hok hfield (fun j hj => by rw [get?_toJsonObject_set, if_neg hj]) hself hvalue
    hwrite ?_
  rcases extended_eq_ok hlocal hv with ⟨hnone, rfl⟩ | ⟨old, new, hold, -, rfl⟩ | ⟨old, new, hold, hnext, -⟩
  · refine .inl ⟨fun u hu => ?_, asStr_copy value⟩
    obtain ⟨u', rfl, hread⟩ := hown u hu
    rcases hnone with hnone | hnull
    · simp [hread] at hnone
    · obtain rfl : u' = .null := by simpa [hread] using hnull
      rfl
  · refine .inr (.inl ⟨old, new, fun u hu => ?_, rfl⟩)
    obtain ⟨u', rfl, hread⟩ := hown u hu
    obtain rfl : u' = .str old := by simpa [hread] using hold
    rfl
  · refine .inr (.inr ⟨toJsonItems old, fun u hu => ?_, ?_⟩)
    · obtain ⟨u', rfl, hread⟩ := hown u hu
      obtain rfl : u' = .arr old := by simpa [hread] using hold
      rfl
    · have harr : (DocTree.asArr (ofJson value)).isSome = true := by rw [hnext]; rfl
      rwa [← Option.isSome_map (f := toJsonItems), ← asArr_toJson, toJson_ofJson] at harr

theorem sound_applyAppend {w w' : World ν} (hw : Sound w) {mask : String} {block : JsonObject ν}
    (hid : memberIs DocTree.isNonEmptyStr block "id" = true) (hpre : Text.hasPrefix mask "block." = true)
    (hpatch : patchable mask block = true) (havoid : "__proto__" ∉ Text.split mask '.')
    (htyped : ∀ field id value existing, Python.appendArguments mask block = .ok (field, id, value) →
      blockWithId (toJsonObject w.snapshot) id = some existing → appendWriteOk rules existing field value = true)
    (h : (TypeScript.applyAppend w mask (ofJsonObject block)).state? = some w') : Sound w' := by
  obtain ⟨bs, hbs, hblocks⟩ := exists_blocks hw.model
  unfold TypeScript.applyAppend at h
  cases hargs : TypeScript.appendArguments mask (ofJsonObject block) with
  | error r => simp [hargs] at h
  | ok a =>
    obtain ⟨field, v⟩ := a
    obtain ⟨id, value, rfl, hpython⟩ := appendArguments_ofJsonObject hid hargs
    have hvalue := appendArguments_value hpython
    obtain ⟨hidOf, -, -, hfield⟩ := Python.appendArguments_eq_ok hpython
    obtain ⟨hneId, hneRef⟩ := patchable_ne hpatch (hfield hpre)
    have hproto : field ≠ "__proto__" := fun heq =>
      havoid (List.mem_of_getElem? (heq ▸ hfield hpre))
    simp only [hargs, ensureBlocks_of_own hbs, hw.shared, readString_id_ofJsonObject, hidOf] at h
    split at h
    · rename_i existing hfind
      obtain ⟨b', hb', rfl⟩ := Applied.state?_ofExcept.mp h
      rw [TypeScript.appendToBlock, seq_eq_ok, TypeScript.requireInlineBlock, check_eq_ok, bind_eq_ok] at hb'
      obtain ⟨href, v, hv, hb'⟩ := hb'
      obtain rfl : Fields.set existing (.own field) v = b' := by
        simpa [assign_of_ne hproto, pure, Except.pure] using hb'
      have href' : Fields.has (toJsonObject existing) "ref" = false := by
        rw [has_toJsonObject]
        simpa using href
      have hmem := List.mem_of_find?_eq_some hfind
      have hinline := inlineBlockOk_of_blockOk (blockOk_of_mem hblocks (List.mem_map_of_mem hmem)) href'
      have hwithId : blockWithId (toJsonObject w.snapshot) id = some (toJsonObject existing) := by
        obtain ⟨docs, hdocs, -⟩ := exists_blocks_of_modelOk hw.model
        have hmap : docs = bs.map toJsonObject := modelBlocks_of_own hbs hdocs
        rw [blockWithId_of_modelBlocks hdocs, hmap, ← find?_hasId hblocks id, hfind]
        rfl
      have hrefSet : Fields.has (toJsonObject (Fields.set existing (.own field) v)) "ref" = false := by
        rw [Fields.has, get?_toJsonObject_set, if_neg hneRef.symm]
        exact href'
      refine hw.replace hbs hblocks hfind (blockOk_of_inlineBlockOk (inlineBlockOk_of_extended hinline hneId
        hproto hvalue (htyped field id value _ hpython hwithId) hv) hrefSet) ?_ (by simp [hrefSet])
      exact idOf_congr (by rw [get?_toJsonObject_set, if_neg hneId.symm])
    · rename_i hfind
      obtain ⟨u, hvalid, rfl⟩ := Applied.state?_ofExcept.mp h
      rw [seq_eq_ok, validateBlock_eq_ok_iff] at hvalid
      have href : Fields.has (copyObject block) "ref" = false := by
        rw [has_copyObject block (by decide)]
        exact inline_of_patchable hpatch
      exact hw.append hbs hblocks hfind (blockOk_copyObject hvalid.2) (by rw [← hidOf]; exact idOf_copyObject block)
        fun h => by rw [copyObject] at href; simp [href] at h

/-- The type checks of a masked write see the same in a value and in its copy. -/
theorem errorWriteOk_copy (path : List String) (v : Json ν) : errorWriteOk path (copy v) = errorWriteOk path v := by
  cases path <;> simp [errorWriteOk, asStr_copy, isNullableStr_copy]

theorem metaWriteOk_copy (m : JsonObject ν) (path : List String) (v : Json ν) :
    metaWriteOk m path (copy v) = metaWriteOk m path v := by
  cases path <;>
    simp [metaWriteOk, isNullableError_copy, errorWriteOk_copy, isNullableStr_copy, isNullableObj_copy]

theorem blockWriteOk_copy (R : Rules) (path : List String) (v : Json ν) :
    blockWriteOk R path (copy v) = blockWriteOk R path v := by
  cases path <;> simp [blockWriteOk, isNonEmptyStr_copy, isNullableStr_copy]

theorem sound_setMeta {w w' : World ν} (hw : Sound w) {path : List String} {value : Json ν} (hne : path ≠ [])
    (havoid : "__proto__" ∉ path)
    (hwrite : metaWriteOk (DocTree.childAt (toJsonObject w.snapshot) "meta") path value = true)
    (h : (TypeScript.setMeta w path (cloneJson (ofJson value))).state? = some w') : Sound w' := by
  obtain ⟨record, hrecord, hok⟩ := exists_meta hw.model
  have hchild : DocTree.childAt (toJsonObject w.snapshot) "meta" = toJsonObject record := by
    rw [DocTree.childAt, get?_toJsonObject, hrecord]
    rfl
  obtain ⟨record', hdone, hwritten⟩ := writtenTo_writePath havoid hne record (cloneJson (ofJson value))
  simp only [TypeScript.setMeta, readMember_of_own hrecord, read_of_own hrecord, Option.bind_some, DocTree.asObj,
    World.finishWrite, hw.shared, hdone, Applied.state?_returned, Option.some.injEq] at h
  subst h
  rw [put_of_own hrecord]
  rw [hchild, ← metaWriteOk_copy] at hwrite
  refine ⟨hw.shared, modelOk_of_meta (m := toJsonObject record') hw.model (fun j hj => ?_) ?_
    fun _ => metaOk_of_writtenTo hwritten hok hwrite⟩
  · rw [get?_toJsonObject_set, if_neg hj]
  · rw [get?_toJsonObject_set, if_pos rfl]
    rfl

theorem sound_setBlock {w w' : World ν} (hw : Sound w) {id : Option String} {k : String} {rest : List String}
    {value : Json ν} (havoid : "__proto__" ∉ k :: rest) (hneId : k ≠ "id") (hneRef : k ≠ "ref")
    (hwrite : blockWriteOk rules (k :: rest) value = true)
    (h : (TypeScript.setBlock w id (k :: rest) (cloneJson (ofJson value))).state? = some w') : Sound w' := by
  obtain ⟨bs, hbs, hblocks⟩ := exists_blocks hw.model
  simp only [TypeScript.setBlock, ensureBlocks_of_own hbs] at h
  split at h
  · simp at h
  · rename_i target hfind
    split at h
    · simp at h
    · rename_i hinline
      rw [TypeScript.requireInlineBlock, check_eq_ok] at hinline
      have href : Fields.has (toJsonObject target) "ref" = false := by
        rw [has_toJsonObject]
        simpa using hinline
      obtain ⟨target', hdone, hwritten⟩ := writtenTo_writePath havoid (by simp) target (cloneJson (ofJson value))
      simp only [World.finishWrite, hw.shared, hdone, Applied.state?_returned, Option.some.injEq] at h
      subst h
      have hmem := List.mem_of_find?_eq_some hfind
      have hok := inlineBlockOk_of_blockOk (blockOk_of_mem hblocks (List.mem_map_of_mem hmem)) href
      have href' : Fields.has (toJsonObject target') "ref" = false := by
        rw [Fields.has, hwritten.get?_ne hneRef.symm]
        exact href
      rw [← blockWriteOk_copy] at hwrite
      rw [hw.shared] at hfind
      exact hw.replace hbs hblocks hfind
        (blockOk_of_inlineBlockOk (inlineBlockOk_of_writtenTo hwritten hok hneId hwrite) href')
        (idOf_congr (hwritten.get?_ne hneId.symm)) (by simp [href'])

/-- A masked write whose mask a validator let through. -/
theorem sound_setByMask {w w' : World ν} (hw : Sound w) {mask : String} {source : JsonObject ν}
    (hmask : Text.hasPrefix mask "meta." = true ∨
      (Text.hasPrefix mask "block." = true ∧ patchable mask source = true))
    (havoid : "__proto__" ∉ Text.split mask '.')
    (htyped : ∀ root path value, Python.setArguments mask source = .ok (root, path, value) →
      if root = "meta" then metaWriteOk (DocTree.childAt (toJsonObject w.snapshot) "meta") path value = true
      else blockWriteOk rules path value = true)
    (h : (TypeScript.setByMask w mask (ofJsonObject source)).state? = some w') : Sound w' := by
  unfold TypeScript.setByMask at h
  cases hargs : TypeScript.setArguments mask (ofJsonObject source) with
  | error r => simp [hargs] at h
  | ok a =>
    obtain ⟨root, path, v⟩ := a
    obtain ⟨value, rfl, hpython⟩ := setArguments_ofJsonObject hargs
    have hwrite := htyped root path value hpython
    obtain ⟨relative, hcut, hpath, -⟩ := Python.setArguments_eq_ok hpython
    have havoid' : "__proto__" ∉ path := fun hmem => havoid (by
      rw [Text.split_of_cut hcut, ← hpath]
      exact List.mem_cons_of_mem _ hmem)
    simp only [hargs] at h
    rcases hmask with hmeta | ⟨hpre, hpatch⟩
    · obtain ⟨rfl, k, rest, rfl, -⟩ := Python.setArguments_of_cut (Text.cut_meta hmeta) hpython
      rw [if_pos rfl] at h hwrite
      exact sound_setMeta hw (by simp) havoid' hwrite h
    · obtain ⟨rfl, k, rest, rfl, hk⟩ := Python.setArguments_of_cut (Text.cut_block hpre) hpython
      obtain ⟨hneId, hneRef⟩ := patchable_ne hpatch hk
      rw [if_neg (by decide), if_pos rfl] at h
      rw [if_neg (by decide)] at hwrite
      exact sound_setBlock hw havoid' hneId hneRef hwrite h

/-- One accepted, typed event keeps the world sound. -/
theorem sound_step {w w' : World ν} (hw : Sound w) {e : Envelope ν}
    (htyped : TypedWrite rules (toJsonObject w.snapshot) e) (havoid : AvoidsPrototype e)
    (h : (TypeScript.applyPatch w e).state? = some w') : Sound w' := by
  by_cases hstart : e.op = .start
  · exact sound_start hw.shared hstart h
  unfold TypeScript.applyPatch at h
  cases hvalid : parsePatchEvent w.shared e with
  | error r => simp [hvalid] at h
  | ok u =>
    simp only [hvalid] at h
    replace hvalid : parsePatchEvent [] e = .ok () := by rw [← hw.shared]; exact hvalid
    simp only [parsePatchEvent, seq_eq_ok] at hvalid
    obtain ⟨-, -, -, hvalid⟩ := hvalid
    unfold TypedWrite at htyped
    cases hop : e.op with
    | start => exact absurd hop hstart
    | set =>
      simp only [validatePayload, hop, typeScript_set_iff] at hvalid
      simp only [hop] at htyped
      simp only [TypeScript.applyEvent, hop, TypeScript.applySet, hw.shared, maskOf_nil, setSource_nil] at h
      rcases hm : e.meta_ with _ | m <;> rcases hb : e.block with _ | block <;>
        rcases hk : e.mask with _ | mask <;> simp only [hm, hb, hk] at hvalid h htyped
      · exact sound_upsertBlock hw h
      · exact sound_setByMask hw
          (.inr ⟨hvalid.1, (typeScript_fieldPatch_iff mask block).mp hvalid.2.2⟩) (havoid mask hk)
          (fun root path value => htyped mask root path value rfl) h
      · exact sound_setByMask hw (.inl hvalid) (havoid mask hk)
          (fun root path value => htyped mask root path value rfl) h
    | append =>
      simp only [validatePayload, hop, TypeScript.validateAppend, maskOf_nil] at hvalid
      simp only [hop] at htyped
      simp only [TypeScript.applyEvent, hop, hw.shared, maskOf_nil] at h
      cases hb : e.block with
      | none => simp [hb] at hvalid
      | some block =>
        cases hk : e.mask with
        | none => simp [hb, hk, seq_eq_ok] at hvalid
        | some mask =>
          simp only [hb, hk, seq_eq_ok, check_eq_ok, assertBlockId, readNonEmpty_ofJsonObject,
            typeScript_fieldPatch_iff] at hvalid
          simp only [hb, hk, Option.getD_some] at h htyped
          exact sound_applyAppend hw hvalid.2.2.1 hvalid.2.1 hvalid.2.2.2 (havoid mask hk) htyped h
    | error =>
      simp only [hop] at htyped
      simp only [TypeScript.applyEvent, hop, hw.shared, metaOf_nil] at h
      have hsource : ((e.meta_.map ofJsonObject).getD []) = ofJsonObject (e.meta_.getD []) := by
        cases e.meta_ <;> rfl
      rw [hsource] at h
      refine sound_setByMask hw (.inl (by decide)) (by decide) (fun root path value hargs => ?_) h
      obtain ⟨rfl, -⟩ := Python.setArguments_of_cut (Text.cut_meta (by decide)) hargs
      rw [if_pos rfl]
      exact htyped "meta" path value hargs
    | ping =>
      obtain rfl : w = w' := by simpa [TypeScript.applyEvent, hop] using h
      exact hw
    | end_ =>
      obtain rfl : w = w' := by simpa [TypeScript.applyEvent, hop] using h
      exact hw

/-- Each event that the TypeScript reducer meets after the first is typed for the snapshot it meets, and
its mask avoids `__proto__`. -/
def TypeScriptTyped (w₀ : World ν) (events : List (Envelope ν)) : Prop :=
  ∀ p e w, p ++ [e] <+: events → p ≠ [] → (TypeScript.applyPatches w₀ p).state? = some w →
    TypedWrite rules (toJsonObject w.snapshot) e ∧ AvoidsPrototype e

/-- The SDK's own validator accepts what the TypeScript reducer has made of any first part of the run. -/
def TypeScriptKeepsValid (w₀ : World ν) (events : List (Envelope ν)) : Prop :=
  ∀ p, p <+: events → p ≠ [] → ∀ w, (TypeScript.applyPatches w₀ p).state? = some w →
    parseUIModel w.shared w.snapshot = .ok ()

/-- Every world of a typed run that has started is sound. -/
theorem sound_of_typed {w₀ : World ν} (hw₀ : w₀.shared = []) {events : List (Envelope ν)}
    (hstart : StartsRun events) (htyped : TypeScriptTyped w₀ events) :
    ∀ p, p <+: events → p ≠ [] → ∀ w, (TypeScript.applyPatches w₀ p).state? = some w → Sound w := by
  intro p
  induction p using List.reverseRecOn with
  | nil => exact fun _ h => absurd rfl h
  | append_singleton p e ih =>
    intro hp _ w' hw'
    rw [TypeScript.applyPatches, Applied.run_concat] at hw'
    obtain ⟨w, hw, hstep⟩ := Option.bind_eq_some_iff.mp hw'
    by_cases hne : p = []
    · subst hne
      obtain rfl : w₀ = w := Option.some.inj hw
      exact sound_start hw₀ (hstart.op_of_singleton hp) hstep
    · obtain ⟨hwrite, havoid⟩ := htyped p e w hp hne hw
      exact sound_step (ih ((List.prefix_append p [e]).trans hp) hne w hw) hwrite havoid hstep

end TypeScript

/-! ## Runs of both reducers -/

open TypeScript (World)

/-- In a run that begins with a start and whose further events are typed, every snapshot of either
reducer is a model that its own validator accepts. -/
theorem typed_runs_keep_valid [DecidableEq ν] {events : List (Envelope ν)} (hstart : StartsRun events) :
    (∀ s₀, PythonTyped s₀ events → PythonKeepsValid s₀ events) ∧
      ∀ w₀ : World ν, w₀.shared = [] → TypeScriptTyped w₀ events → TypeScriptKeepsValid w₀ events := by
  refine ⟨fun s₀ htyped => pythonKeepsValid_of_typed hstart htyped, fun w₀ hw₀ htyped => ?_⟩
  intro p hp hne w hw
  exact TypeScript.parseUIModel_of_modelOk (sound_of_typed hw₀ hstart htyped p hp hne w hw).model

/-- A start, and a set of `meta.task_id`. -/
def setsTaskId (taskId : Json ℕ) : List (Envelope ℕ) :=
  [{ op := .start, seq := 1, streamId := none, ts := none, mask := none, eventType := none,
     model := some [("version", .str "1.1"), ("biz", .str "b"), ("meta", .obj []), ("blocks", .arr [])],
     meta_ := none, block := none },
   { op := .set, seq := 2, streamId := none, ts := none, mask := some "meta.task_id", eventType := none,
     model := none, meta_ := some [("task_id", taskId)], block := none }]

/-- Both reducers accept a list as `task_id`, and both validators refuse the snapshot with it. -/
theorem setsTaskId_makes_invalid :
    ¬ (∀ events : List (Envelope ℕ), StartsRun events → PythonKeepsValid [] events) ∧
      ¬ ∀ events : List (Envelope ℕ), StartsRun events → TypeScriptKeepsValid ⟨[], []⟩ events := by
  have hstart : StartsRun (setsTaskId (.arr [])) := ⟨_, _, rfl, rfl⟩
  constructor
  · intro h
    have hrun := h _ hstart _ (List.prefix_refl _) (by simp [setsTaskId])
    exact absurd (hrun _ rfl) (by decide)
  · intro h
    have hrun := h _ hstart _ (List.prefix_refl _) (by simp [setsTaskId])
    have hlast : (TypeScript.applyPatches ⟨[], []⟩ (setsTaskId (.arr []))).state? = some ⟨[],
        [(.own "version", .str "1.1"), (.own "biz", .str "b"), (.own "meta", .obj [(.own "task_id", .arr [])]),
          (.own "blocks", .arr [])]⟩ := by decide +kernel
    exact absurd (hrun _ hlast) (by decide)

/-- A string as `task_id` is typed, and both snapshots stay valid. -/
theorem typed_runs_keep_valid_setsTaskId :
    PythonKeepsValid [] (setsTaskId (.str "t")) ∧ TypeScriptKeepsValid ⟨[], []⟩ (setsTaskId (.str "t")) := by
  have hstart : StartsRun (setsTaskId (.str "t")) := ⟨_, _, rfl, rfl⟩
  -- only the set follows an event, and its value is a string
  have htyped : ∀ R s p e, p ++ [e] <+: setsTaskId (.str "t") → p ≠ [] →
      TypedWrite R s e ∧ AvoidsPrototype e := by
    intro R s p e hp hne
    have hlen := hp.length_le
    obtain ⟨a, rfl⟩ : ∃ a, p = [a] := by
      obtain ⟨a, q, rfl⟩ := List.exists_cons_of_ne_nil hne
      obtain rfl : q = [] := by
        simp only [setsTaskId, List.cons_append, List.length_cons, List.length_append, List.length_nil] at hlen
        exact List.eq_nil_of_length_eq_zero (by omega)
      exact ⟨a, rfl⟩
    obtain ⟨rest, hrest⟩ := hp
    obtain ⟨-, rfl, -⟩ : _ ∧ e = _ ∧ _ := by simpa [setsTaskId] using hrest
    refine ⟨fun mask root path value hmask hargs => ?_, fun mask hmask => ?_⟩
    · obtain rfl : "meta.task_id" = mask := Option.some.inj hmask
      obtain ⟨rfl, rfl, rfl⟩ : "meta" = root ∧ ["task_id"] = path ∧ .str "t" = value := by
        have hok : Python.setArguments "meta.task_id" [("task_id", .str "t")] =
          .ok ("meta", ["task_id"], (.str "t" : Json ℕ)) := by decide
        simpa using hok.symm.trans hargs
      rfl
    · obtain rfl : "meta.task_id" = mask := Option.some.inj hmask
      decide
  obtain ⟨hpython, htypeScript⟩ := typed_runs_keep_valid hstart
  exact ⟨hpython [] fun p e s hp hne _ => (htyped _ s p e hp hne).1,
    htypeScript ⟨[], []⟩ rfl fun p e w hp hne _ => htyped _ _ p e hp hne⟩

end AgentUE.Conformance
