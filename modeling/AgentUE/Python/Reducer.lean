import AgentUE.Python.Validation
import AgentUE.Protocol.Patch

/-!
# Python SDK: the reducer

Reference: `sdks/python/src/agentue/apply.py`. A snapshot is a dict of JSON values. The deep copies of
the source are copies of values here. A raise keeps the snapshot as the call has left it.
-/

namespace AgentUE.Python

open Data

variable {ν : Type} [DecidableEq ν]

/-- `_read_path` -/
def readPath (source : JsonObject ν) (path : List String) : Option (Json ν) := readPathOrLeaf source path

/-- `_write_path` -/
def writePath (target : JsonObject ν) (path : List String) (value : Json ν) : JsonObject ν :=
  DocTree.writeAt target path value

/-- `_require_inline_block` -/
def requireInlineBlock (block : JsonObject ν) : Except Rejection Unit :=
  check (!Fields.has block "ref") .unresolvedReference

/-- `block.get("id") == block_id`, where an absent id is `None`. Stored ids are strings, on which
Python's equality is equality. -/
def idEquals (blockId : Option (Json ν)) (block : JsonObject ν) : Bool :=
  decide ((Fields.get? block "id").getD .null = blockId.getD .null)

/-- The test of a loop on one element; an element that is not a dict has no `get`. -/
def hasId (blockId : Option (Json ν)) : Json ν → Except Rejection Bool
  | .obj block => .ok (idEquals blockId block)
  | _ => .error .snapshotBlock

/-- The body of a loop on the dict it was looking for. -/
def onDict (f : JsonObject ν → Except Rejection (JsonObject ν)) : Json ν → Except Rejection (Json ν)
  | .obj block => do return .obj (← f block)
  | _ => .error .snapshotBlock

/-- The elements of `blocks`, which the loops run over. -/
def iterBlocks (blocks : Option (Json ν)) : Except Rejection (List (Json ν)) :=
  match blocks with
  | none => .ok []
  | some (.arr items) => .ok items
  | some _ => .error .snapshotBlocks

/-- A loop over `snapshot["blocks"]`: change the first block with the id, else add the dicts of
`missing`. -/
def patchBlocks (snapshot : JsonObject ν) (blockId : Option (Json ν))
    (f : JsonObject ν → Except Rejection (JsonObject ν))
    (missing : Except Rejection (List (JsonObject ν))) : Applied Rejection (JsonObject ν) :=
  .ofExcept snapshot (fun blocks => Fields.set snapshot "blocks" (.arr blocks)) do
    let blocks ← iterBlocks (Fields.get? snapshot "blocks")
    updateFirst (hasId blockId) (onDict f) (do return (← missing).map .obj) blocks

/-- The loop body of `_apply_append`. -/
def appendToBlock (field : String) (newValue : Json ν) (existing : JsonObject ν) :
    Except Rejection (JsonObject ν) := do
  requireInlineBlock existing
  match (Fields.get? existing field).getD .null, newValue with
  | .null, _ => return Fields.set existing field newValue
  | .str old, .str new => return Fields.set existing field (.str (old ++ new))
  | .arr old, .arr new => return Fields.set existing field (.arr (old ++ new))
  | _, _ => .error (.appendIncompatible field)

/-- The end of `_apply_append`: the block to add when none has the id. -/
def appendMissing (blockData : JsonObject ν) : Except Rejection (List (JsonObject ν)) := do
  check (memberIs DocTree.isNonEmptyStr blockData "type") .appendRequiresCompleteBlock
  validateBlock blockData
  return [blockData]

/-- The checks of `_apply_append` before it looks at the snapshot: field, id and value. -/
def appendArguments (mask : String) (blockData : JsonObject ν) :
    Except Rejection (String × String × Json ν) := do
  let field := Text.dropPrefix mask "block."
  check (field != "" && !Text.contains field '.') (.unsupportedAppendMask mask)
  check (memberIs DocTree.isNonEmptyStr blockData "id") .appendBlockRequiresId
  match Fields.get? blockData field with
  | none => .error (.appendBlockLacksField field)
  | some newValue =>
    check (newValue.asStr.isSome || newValue.asArr.isSome) (.appendFieldMustBeStringOrList field)
    return (field, (idOf blockData).getD "", newValue)

/-- `_apply_append` -/
def applyAppend (snapshot : JsonObject ν) (event : Envelope ν) : Applied Rejection (JsonObject ν) :=
  let blockData := event.block.getD []
  match appendArguments (event.mask.getD "") blockData with
  | .error r => .raised r snapshot
  | .ok (field, blockId, newValue) =>
    patchBlocks (setDefault snapshot "blocks" (.arr [])) (some (.str blockId))
      (appendToBlock field newValue) (appendMissing blockData)

/-- The checks of `_upsert_block` before it looks at the blocks: the id. -/
def upsertArguments (snapshot blockData : JsonObject ν) : Except Rejection String := do
  check (memberIs DocTree.isNonEmptyStr blockData "id") .setBlockRequiresId
  validateBlock blockData
  check (!(Fields.has blockData "ref" && Fields.get? snapshot "version" != some (.str protocolVersion)))
    .referenceRequiresVersion
  return (idOf blockData).getD ""

/-- `_upsert_block` -/
def upsertBlock (snapshot blockData : JsonObject ν) : Applied Rejection (JsonObject ν) :=
  match upsertArguments snapshot blockData with
  | .error r => .raised r snapshot
  | .ok blockId =>
    patchBlocks (setDefault snapshot "blocks" (.arr [])) (some (.str blockId)) (fun _ => .ok blockData)
      (.ok [blockData])

/-- The checks of `_set_by_mask` before it looks at the snapshot: root, path and value. -/
def setArguments (mask : String) (source : JsonObject ν) :
    Except Rejection (String × List String × Json ν) :=
  match Text.cut mask '.' with
  | none => .error (.invalidSetMask mask)
  | some (root, relativePath) => do
    check (relativePath != "") (.invalidSetMask mask)
    let path := Text.split relativePath '.'
    match readPath source path with
    | none => .error (.payloadLacksMaskedValue mask)
    | some value => return (root, path, value)

/-- The branch `root == "meta"`: a target that is no dict cannot be written to. -/
def setMeta (snapshot : JsonObject ν) (path : List String) (value : Json ν) :
    Applied Rejection (JsonObject ν) :=
  let snapshot := setDefault snapshot "meta" (.obj [])
  match (Fields.get? snapshot "meta").bind DocTree.asObj with
  | none => .raised .snapshotMeta snapshot
  | some target => .returned (Fields.set snapshot "meta" (.obj (writePath target path value)))

/-- The write to the block that `_set_by_mask` has found. -/
def setInBlock (path : List String) (value : Json ν) (target : JsonObject ν) :
    Except Rejection (JsonObject ν) := do
  requireInlineBlock target
  return writePath target path value

/-- `_set_by_mask` -/
def setByMask (snapshot : JsonObject ν) (mask : String) (source : JsonObject ν) :
    Applied Rejection (JsonObject ν) :=
  match setArguments mask source with
  | .error r => .raised r snapshot
  | .ok (root, path, value) =>
    if root = "meta" then setMeta snapshot path value
    else if root = "block" then
      patchBlocks snapshot (Fields.get? source "id") (setInBlock path value) (.error .targetBlockDoesNotExist)
    else .raised (.unsupportedSetMaskRoot root) snapshot

/-- `_apply_set` -/
def applySet (snapshot : JsonObject ν) (event : Envelope ν) : Applied Rejection (JsonObject ν) :=
  match event.mask with
  | none => upsertBlock snapshot (event.block.getD [])
  | some mask => setByMask snapshot mask ((event.meta_.or event.block).getD [])

/-- `apply_patch` on an instance of `PatchEvent`, which it takes as it is. -/
def applyEvent (snapshot : JsonObject ν) (event : Envelope ν) : Applied Rejection (JsonObject ν) :=
  match event.op with
  | .start =>
    match event.model with
    -- an empty dict is falsy
    | none | some [] => .returned snapshot
    | some model => .returned model
  | .set => applySet snapshot event
  | .error => setByMask snapshot "meta.error" (event.meta_.getD [])
  | .append => applyAppend snapshot event
  | .ping | .end_ => .returned snapshot

/-- `apply_patch` on a JSON text or a mapping: validation, then the operation. `copy.deepcopy` is taken to succeed: a
value that is nested beyond the recursion limit is not. -/
def applyPatch (snapshot : JsonObject ν) (event : Envelope ν) : Applied Rejection (JsonObject ν) :=
  match validateOperation event with
  | .error r => .raised r snapshot
  | .ok () => applyEvent snapshot event

/-- `apply_patches` -/
def applyPatches (snapshot : JsonObject ν) (events : List (Envelope ν)) : Applied Rejection (JsonObject ν) :=
  Applied.run applyPatch snapshot events

/-- `apply_patch` on a JSON object; `fields` is what pydantic makes of the members that `PatchEvent` declares. -/
def applyObject (fields : JsonObject ν → Except Rejection (Envelope ν)) (snapshot patch : JsonObject ν) :
    Applied Rejection (JsonObject ν) :=
  match fields patch with
  | .error r => .raised r snapshot
  | .ok event => applyPatch snapshot event

/-- A start with a valid model replaces the state. -/
theorem applyEvent_start {e : Envelope ν} (hop : e.op = .start) {model : JsonObject ν}
    (hmodel : e.model = some model) (hok : modelOk rules model = true) (s : JsonObject ν) :
    applyEvent s e = .returned model := by
  unfold applyEvent
  cases model with
  | nil => simp [modelOk, memberIs] at hok
  | cons p rest => simp [hop, hmodel]

/-! ## The loop on a list of dicts -/

omit [DecidableEq ν] in
theorem onDict_obj (f : JsonObject ν → Except Rejection (JsonObject ν)) (block : JsonObject ν) :
    (onDict f (.obj block)).toOption = (f block).toOption.map .obj := by
  rw [onDict]
  cases f block <;> rfl

omit [DecidableEq ν] in
theorem dicts_toOption (missing : Except Rejection (List (JsonObject ν))) :
    (do return (← missing).map .obj : Except Rejection (List (Json ν))).toOption =
      missing.toOption.map (List.map .obj) := by
  cases missing <;> rfl

/-- The snapshot after a loop over a list of items. -/
theorem patchBlocks_of_items {snapshot : JsonObject ν} {items : List (Json ν)}
    (h : iterBlocks (Fields.get? snapshot "blocks") = .ok items) (blockId : Option (Json ν))
    (f : JsonObject ν → Except Rejection (JsonObject ν)) (missing : Except Rejection (List (JsonObject ν))) :
    (patchBlocks snapshot blockId f missing).state? =
      (updateFirst (hasId blockId) (onDict f) (do return (← missing).map .obj) items).toOption.map
        fun items => Fields.set snapshot "blocks" (.arr items) := by
  rw [patchBlocks, h, Applied.state?_ofExcept_eq]
  rfl

/-- A loop over well-formed blocks, without the detour through JSON values. -/
theorem patchBlocks_state? {snapshot : JsonObject ν} {blocks : List (JsonObject ν)}
    (h : Fields.get? snapshot "blocks" = some (.arr (blocks.map .obj))) (blockId : Option (Json ν))
    (f : JsonObject ν → Except Rejection (JsonObject ν))
    (missing : Except Rejection (List (JsonObject ν))) :
    (patchBlocks snapshot blockId f missing).state? =
      (updateFirst (fun b => .ok (idEquals blockId b)) f missing blocks).toOption.map
        fun blocks => Fields.set snapshot "blocks" (.arr (blocks.map .obj)) := by
  rw [patchBlocks_of_items (by rw [h]; rfl), updateFirst_map DocTree.obj (fun b _ => ⟨_, rfl, rfl⟩)
    (fun b _ _ => onDict_obj f b) fun _ => dicts_toOption missing, Option.map_map]
  rfl

/-- A stored string id is compared as a string. -/
theorem idEquals_str (id : String) (block : JsonObject ν) :
    idEquals (some (.str id)) block = (idOf block == some id) := by
  unfold idEquals idOf
  cases hv : Fields.get? block "id" with
  | none => simp
  | some v =>
    rw [Bool.eq_iff_iff]
    simp

theorem applyAppend_of_ok {s : JsonObject ν} {e : Envelope ν} {blockData : JsonObject ν}
    (hblock : e.block = some blockData) {field blockId : String} {newValue : Json ν}
    (h : appendArguments (e.mask.getD "") blockData = .ok (field, blockId, newValue)) :
    applyAppend s e = patchBlocks (setDefault s "blocks" (.arr [])) (some (.str blockId))
      (appendToBlock field newValue) (appendMissing blockData) := by
  unfold applyAppend
  simp only [hblock, Option.getD_some, h]

theorem applyAppend_of_error {s : JsonObject ν} {e : Envelope ν} {blockData : JsonObject ν}
    (hblock : e.block = some blockData) {r : Rejection}
    (h : appendArguments (e.mask.getD "") blockData = .error r) : applyAppend s e = .raised r s := by
  unfold applyAppend
  simp only [hblock, Option.getD_some, h]

omit [DecidableEq ν] in
theorem appendMissing_eq_ok {block : JsonObject ν} {added : List (JsonObject ν)} : appendMissing block = .ok added ↔
    memberIs DocTree.isNonEmptyStr block "type" = true ∧ blockOk rules block = true ∧ [block] = added := by
  rw [appendMissing, seq_eq_ok, seq_eq_ok, check_eq_ok, validateBlock_eq_ok_iff]
  exact and_congr_right fun _ => and_congr_right fun _ => ⟨Except.ok.inj, congrArg Except.ok⟩

omit [DecidableEq ν] in
/-- A complete inline block is added as it is. -/
theorem appendMissing_of_blockOk {block : JsonObject ν} (hok : blockOk rules block = true)
    (href : Fields.has block "ref" = false) : appendMissing block = .ok [block] := by
  refine appendMissing_eq_ok.mpr ⟨?_, hok, rfl⟩
  simp only [blockOk, href, Bool.false_eq_true, if_false, inlineBlockOk, Bool.and_eq_true] at hok
  exact hok.1.1.2

omit [DecidableEq ν] in
/-- What an accepted append puts into a block. -/
theorem appendToBlock_eq_ok {field : String} {value : Json ν} {b b' : JsonObject ν}
    (h : appendToBlock field value b = .ok b') :
    Fields.has b "ref" = false ∧ ∃ v, b' = Fields.set b field v ∧
      (((Fields.get? b field).getD .null = .null ∧ v = value) ∨
        (∃ old new, Fields.get? b field = some (.str old) ∧ value = .str new ∧ v = .str (old ++ new)) ∨
        ∃ old new, Fields.get? b field = some (.arr old) ∧ value = .arr new ∧ v = .arr (old ++ new)) := by
  unfold appendToBlock requireInlineBlock at h
  rw [seq_eq_ok, check_eq_ok] at h
  obtain ⟨href, h⟩ := h
  refine ⟨by simpa using href, ?_⟩
  generalize hold : (Fields.get? b field).getD .null = old at h
  have hsome : ∀ w : Json ν, w ≠ .null → old = w → Fields.get? b field = some w := by
    rintro w hw rfl
    cases hget : Fields.get? b field with
    | none => simp [hget] at hold; exact absurd hold.symm hw
    | some v => simpa [hget] using hold
  split at h <;> simp only [pure, Except.pure, Except.ok.injEq, reduceCtorEq] at h
  · exact ⟨_, h.symm, .inl ⟨rfl, rfl⟩⟩
  · exact ⟨_, h.symm, .inr (.inl ⟨_, _, hsome _ (by simp) rfl, rfl, rfl⟩)⟩
  · exact ⟨_, h.symm, .inr (.inr ⟨_, _, hsome _ (by simp) rfl, rfl, rfl⟩)⟩

/-! ## What a mask addresses -/

section

omit [DecidableEq ν]

/-- The parts of an accepted masked write. -/
theorem setArguments_eq_ok {mask : String} {source : JsonObject ν} {root : String} {path : List String}
    {value : Json ν} (h : setArguments mask source = .ok (root, path, value)) :
    ∃ relative, Text.cut mask '.' = some (root, relative) ∧ path = Text.split relative '.' ∧
      readPath source path = some value := by
  unfold setArguments at h
  cases hcut : Text.cut mask '.' with
  | none => simp [hcut] at h
  | some p =>
    obtain ⟨r, relative⟩ := p
    simp only [hcut, seq_eq_ok] at h
    obtain ⟨-, h⟩ := h
    cases hread : readPath source (Text.split relative '.') with
    | none => simp [hread] at h
    | some v =>
      simp only [hread, pure, Except.pure, Except.ok.injEq, Prod.mk.injEq] at h
      obtain ⟨rfl, rfl, rfl⟩ := h
      exact ⟨relative, rfl, rfl, hread⟩

/-- The root of a mask that has been cut, and the name that the validators look at. -/
theorem setArguments_of_cut {mask root relative : String} {source : JsonObject ν} {root' : String}
    {path : List String} {value : Json ν} (hcut : Text.cut mask '.' = some (root, relative))
    (h : setArguments mask source = .ok (root', path, value)) :
    root' = root ∧ ∃ k rest, path = k :: rest ∧ (Text.split mask '.')[1]? = some k := by
  obtain ⟨relative', hcut', rfl, -⟩ := setArguments_eq_ok h
  obtain ⟨rfl, rfl⟩ : root' = root ∧ relative' = relative := by simpa [hcut, eq_comm] using hcut'
  obtain ⟨k, rest, hk⟩ := List.exists_cons_of_ne_nil (Text.split_ne_nil relative' '.')
  refine ⟨rfl, k, rest, hk, ?_⟩
  rw [Text.split_of_cut hcut, hk]
  rfl

/-- The parts of an accepted append; the field is the name that the validators look at. -/
theorem appendArguments_eq_ok {mask : String} {blockData : JsonObject ν} {field blockId : String}
    {newValue : Json ν} (h : appendArguments mask blockData = .ok (field, blockId, newValue)) :
    idOf blockData = some blockId ∧ blockId ≠ "" ∧ Fields.get? blockData field = some newValue ∧
      (Text.hasPrefix mask "block." = true → (Text.split mask '.')[1]? = some field) := by
  rw [appendArguments, seq_eq_ok, seq_eq_ok, check_eq_ok, check_eq_ok, Bool.and_eq_true] at h
  obtain ⟨⟨-, hdot⟩, hid, h⟩ := h
  cases hget : Fields.get? blockData (Text.dropPrefix mask "block.") with
  | none => simp [hget] at h
  | some v =>
    simp only [hget, seq_eq_ok, pure, Except.pure, Except.ok.injEq, Prod.mk.injEq] at h
    obtain ⟨-, rfl, rfl, rfl⟩ := h
    obtain ⟨id, hidOf, hne⟩ := exists_idOf_of_memberIs hid
    refine ⟨by rw [hidOf]; rfl, by rwa [hidOf], hget, fun hpre => ?_⟩
    rw [Text.split_of_cut (Text.cut_block hpre), Text.split_of_not_contains (by simpa using hdot)]
    rfl

end

/-! ## What an accepted operation has gone through -/

theorem exists_of_upsertBlock {s s' block : JsonObject ν} (h : (upsertBlock s block).state? = some s') :
    ∃ id, idOf block = some id ∧ id ≠ "" ∧ blockOk rules block = true ∧
      (Fields.has block "ref" = true → Fields.get? s "version" = some (.str protocolVersion)) ∧
      (patchBlocks (setDefault s "blocks" (.arr [])) (some (.str id)) (fun _ => .ok block) (.ok [block])).state? =
        some s' := by
  unfold upsertBlock at h
  cases hargs : upsertArguments s block with
  | error r => simp [hargs] at h
  | ok blockId =>
    simp only [hargs] at h
    simp only [upsertArguments, seq_eq_ok, check_eq_ok, validateBlock_eq_ok_iff, pure, Except.pure,
      Except.ok.injEq] at hargs
    obtain ⟨hmember, hok, hversion, hid⟩ := hargs
    obtain ⟨id, hidOf, hne⟩ := exists_idOf_of_memberIs hmember
    obtain rfl : id = blockId := by simpa [hidOf] using hid
    exact ⟨id, hidOf, hne, hok, fun href => by simpa [href] using hversion, h⟩

/-- A masked write to the metadata. -/
theorem exists_of_setByMask_meta {s s' : JsonObject ν} {mask : String} {source : JsonObject ν}
    (hmeta : Text.hasPrefix mask "meta." = true) (h : (setByMask s mask source).state? = some s') :
    ∃ path value, setArguments mask source = .ok ("meta", path, value) ∧ (setMeta s path value).state? = some s' := by
  unfold setByMask at h
  cases hargs : setArguments mask source with
  | error r => simp [hargs] at h
  | ok a =>
    obtain ⟨root, path, value⟩ := a
    obtain ⟨rfl, -⟩ := setArguments_of_cut (Text.cut_meta hmeta) hargs
    simp only [hargs, if_true] at h
    exact ⟨path, value, rfl, h⟩

/-- A masked write to a block; the first name of the path is the one that the validators look at. -/
theorem exists_of_setByMask_block {s s' : JsonObject ν} {mask : String} {source : JsonObject ν}
    (hblock : Text.hasPrefix mask "block." = true) (h : (setByMask s mask source).state? = some s') :
    ∃ k rest value, setArguments mask source = .ok ("block", k :: rest, value) ∧
      (Text.split mask '.')[1]? = some k ∧
        (patchBlocks s (Fields.get? source "id") (setInBlock (k :: rest) value)
          (.error .targetBlockDoesNotExist)).state? = some s' := by
  unfold setByMask at h
  cases hargs : setArguments mask source with
  | error r => simp [hargs] at h
  | ok a =>
    obtain ⟨root, path, value⟩ := a
    obtain ⟨rfl, k, rest, rfl, hk⟩ := setArguments_of_cut (Text.cut_block hblock) hargs
    simp only [hargs] at h
    rw [if_neg (by decide), if_pos trivial] at h
    exact ⟨k, rest, value, rfl, hk, h⟩

/-! ## What a raise leaves -/

/-- The members are still there after an accepted event, and a refused one has changed nothing. -/
def Careful (s : JsonObject ν) : Applied Rejection (JsonObject ν) → Prop
  | .returned s' => ∀ k, Fields.has s k = true → Fields.has s' k = true
  | .raised _ s' => s' = s

omit [DecidableEq ν] in
theorem has_set_of_has {s : JsonObject ν} {j k : String} (v : Json ν) (h : Fields.has s k = true) :
    Fields.has (Fields.set s j v) k = true := by
  rw [Fields.has_set, h, Bool.or_true]

omit [DecidableEq ν] in
theorem setDefault_of_has {s : JsonObject ν} {k : String} {v : Json ν} (h : Fields.has s k = true) :
    setDefault s k v = s := by
  simp only [setDefault, h, if_true]

theorem careful_patchBlocks (s : JsonObject ν) (blockId : Option (Json ν))
    (f : JsonObject ν → Except Rejection (JsonObject ν)) (missing : Except Rejection (List (JsonObject ν))) :
    Careful s (patchBlocks s blockId f missing) := by
  unfold patchBlocks Applied.ofExcept
  split
  · exact fun k => has_set_of_has _
  · rfl

theorem careful_upsertBlock {s : JsonObject ν} (hblocks : Fields.has s "blocks" = true) (block : JsonObject ν) :
    Careful s (upsertBlock s block) := by
  unfold upsertBlock
  rw [setDefault_of_has hblocks]
  split
  · rfl
  · exact careful_patchBlocks s _ _ _

theorem careful_applyAppend {s : JsonObject ν} (hblocks : Fields.has s "blocks" = true) (e : Envelope ν) :
    Careful s (applyAppend s e) := by
  unfold applyAppend
  rw [setDefault_of_has hblocks]
  dsimp only
  split
  · rfl
  · exact careful_patchBlocks s _ _ _

omit [DecidableEq ν] in
theorem careful_setMeta {s : JsonObject ν} (hmeta : Fields.has s "meta" = true) (path : List String)
    (value : Json ν) :
    Careful s (setMeta s path value) := by
  unfold setMeta
  rw [setDefault_of_has hmeta]
  dsimp only
  split
  · rfl
  · exact fun k => has_set_of_has _

theorem careful_setByMask {s : JsonObject ν} (hmeta : Fields.has s "meta" = true) (mask : String)
    (source : JsonObject ν) : Careful s (setByMask s mask source) := by
  unfold setByMask
  split
  · rfl
  · split_ifs
    · exact careful_setMeta hmeta _ _
    · exact careful_patchBlocks s _ _ _
    · rfl

/-- On a snapshot that has its blocks and its metadata, an event other than a start, valid or not. -/
theorem careful_applyEvent {s : JsonObject ν} (hblocks : Fields.has s "blocks" = true)
    (hmeta : Fields.has s "meta" = true) {e : Envelope ν} (hop : e.op ≠ .start) : Careful s (applyEvent s e) := by
  unfold applyEvent
  cases hop' : e.op with
  | start => exact absurd hop' hop
  | set =>
    dsimp only
    unfold applySet
    split
    · exact careful_upsertBlock hblocks _
    · exact careful_setByMask hmeta _ _
  | append => exact careful_applyAppend hblocks e
  | error => exact careful_setByMask hmeta _ _
  | ping => exact fun k h => h
  | end_ => exact fun k h => h

end AgentUE.Python
