import AgentUE.Go.Validation
import AgentUE.Protocol.Patch

/-!
# Go SDK: the reducer

Reference: `sdks/go/ui/reducer.go`. A snapshot is a `map[string]any`, possibly nil (`none`). Its
values are those of a decoded document and one more: appending an empty list to an absent field stores
a nil `[]any`, which is no nil interface and which `json.Marshal` writes as `null`.
-/

namespace AgentUE.Go

open Data

variable {ν : Type}

/-- The leaves of an `any` value. -/
inductive Leaf (ν : Type) where
  | json (s : Scalar ν)
  | nilSlice
deriving DecidableEq

abbrev Any (ν : Type) := DocTree String (Leaf ν)

/-- `map[string]any` -/
abbrev Map (ν : Type) := List (String × Any ν)

/-- A decoded document. -/
def ofJson : Json ν → Any ν := DocTree.map .json

def ofJsonObject : JsonObject ν → Map ν := DocTree.mapFields .json

/-- What `json.Marshal` writes for a leaf. -/
def Leaf.marshal : Leaf ν → Scalar ν
  | .json s => s
  | .nilSlice => .null

/-- The document that `json.Marshal` writes. -/
def marshal : Any ν → Json ν := DocTree.map Leaf.marshal

/-- `MarshalSnapshot` -/
def marshalSnapshot (snapshot : Map ν) : JsonObject ν := DocTree.mapFields Leaf.marshal snapshot

/-- `cloneMap`: marshal and unmarshal. -/
def cloneMap (value : JsonObject ν) : Map ν := ofJsonObject value

/-- `value[k] == text`, a comparison of an `any` with a string -/
def memberEquals (k text : String) (value : Map ν) : Bool :=
  match Fields.get? value k with
  | some (.leaf (.json (.str s))) => s == text
  | _ => false

/-- `value["id"] == id` -/
def hasID (id : String) (value : Map ν) : Bool := memberEquals "id" id value

/-- `readPath` -/
def readPath (source : JsonObject ν) (path : List String) : Option (Json ν) := readPathOrLeaf source path

/-- `writePath` -/
def writePath (target : Map ν) (path : List String) (value : Json ν) : Map ν :=
  DocTree.writeAt target path (ofJson value)

/-- `requireInlineBlock` -/
def requireInlineBlock (block : Map ν) : Except Failure Unit :=
  check (!Fields.has block "ref") (.err .unresolvedReference)

/-- A loop over `blocksOf(snapshot)`: change the first block with the id, else add the maps of
`missing`. `blocksOf` writes to the map when it has no blocks, which a nil map refuses. -/
def patchBlocks (snapshot : Option (Map ν)) (id : String) (f : Map ν → Except Failure (Map ν))
    (missing : Except Failure (List (Map ν))) : Applied Failure (Option (Map ν)) :=
  match snapshot with
  | none => .raised .panic none
  | some m =>
    match blocksOf m with
    | .error failure => .raised failure (some m)
    | .ok (blocks, m) =>
      .ofExcept (some m) (fun blocks => some (Fields.set m "blocks" (.arr (blocks.map .obj))))
        (updateFirst (fun current => .ok (hasID id current)) f missing blocks)

/-- The checks of `upsertBlock` before it looks at the blocks: the id. -/
def upsertArguments (snapshot : Option (Map ν)) (block : JsonObject ν) : Except Failure String := do
  validateBlock block
  check (!(Fields.has block "ref" && !memberEquals "version" protocolVersion (snapshot.getD [])))
    (.err .referenceRequiresVersion)
  return stringAt block "id"

/-- `upsertBlock` -/
def upsertBlock (snapshot : Option (Map ν)) (block : JsonObject ν) : Applied Failure (Option (Map ν)) :=
  match upsertArguments snapshot block with
  | .error f => .raised f snapshot
  | .ok id => patchBlocks snapshot id (fun _ => .ok (cloneMap block)) (.ok [cloneMap block])

/-- The `switch` of `appendByMask` on the block it is looking for. -/
def appendToBlock (field : String) (value : Json ν) (current : Map ν) : Except Failure (Map ν) := do
  requireInlineBlock current
  match value, Fields.get? current field with
  | .str added, none | .str added, some (.leaf (.json .null)) =>
    return Fields.set current field (.leaf (.json (.str added)))
  | .str added, some (.leaf (.json (.str old))) =>
    return Fields.set current field (.leaf (.json (.str (old ++ added))))
  | .arr added, none | .arr added, some (.leaf (.json .null)) | .arr added, some (.leaf .nilSlice) =>
    -- `append` to a nil slice gives a nil slice when nothing is added
    return Fields.set current field (if added = [] then .leaf .nilSlice else ofJson (.arr added))
  | .arr added, some (.arr old) =>
    return Fields.set current field (.arr (old ++ DocTree.mapList .json added))
  | .str _, some _ | .arr _, some _ => .error (.err (.appendIncompatible field))
  | _, _ => .error (.err (.appendFieldMustBeStringOrList field))

/-- The checks of `appendByMask` before it looks at the snapshot: field, id and value. -/
def appendArguments (mask : String) (block : JsonObject ν) : Except Failure (String × String × Json ν) := do
  let field := Text.dropPrefix mask "block."
  check (field != "" && !Text.contains field '.') (.err (.unsupportedAppendMask mask))
  check (stringAt block "id" != "") (.err .appendBlockRequiresId)
  match Fields.get? block field with
  | none => .error (.err (.appendBlockLacksField field))
  | some value => return (field, stringAt block "id", value)

/-- `appendByMask`: the loop returns from the block it was looking for, and `upsertBlock` is called
when there is none. -/
def appendByMask (snapshot : Option (Map ν)) (mask : String) (block : JsonObject ν) :
    Applied Failure (Option (Map ν)) :=
  match appendArguments mask block, snapshot with
  | .error f, _ => .raised f snapshot
  | .ok _, none => .raised .panic none
  | .ok (field, id, value), some m =>
    match blocksOf m with
    | .error f => .raised f (some m)
    | .ok (blocks, m) =>
      if blocks.any (hasID id) then patchBlocks (some m) id (appendToBlock field value) (.ok [])
      else upsertBlock (some m) block

/-- The checks of `setByMask` before it looks at the snapshot: root, path and value. -/
def setArguments (mask : String) (source : JsonObject ν) :
    Except Failure (String × List String × Json ν) :=
  match Text.cut mask '.' with
  | none => .error (.err (.invalidSetMask mask))
  | some (root, relative) => do
    check (relative != "") (.err (.invalidSetMask mask))
    let path := Text.split relative '.'
    match readPath source path with
    | none => .error (.err (.payloadLacksMaskedValue mask))
    | some value => return (root, path, value)

/-- The case `"meta"`: a target that is no map is replaced. -/
def setMeta (snapshot : Option (Map ν)) (path : List String) (value : Json ν) :
    Applied Failure (Option (Map ν)) :=
  match snapshot with
  | none => .raised .panic none
  | some m => .returned (some (Fields.set m "meta" (.obj (writePath (DocTree.childAt m "meta") path value))))

/-- The write to the block that `setByMask` has found. -/
def setInBlock (path : List String) (value : Json ν) (target : Map ν) : Except Failure (Map ν) := do
  requireInlineBlock target
  return writePath target path value

/-- `setByMask` -/
def setByMask (snapshot : Option (Map ν)) (mask : String) (source : JsonObject ν) :
    Applied Failure (Option (Map ν)) :=
  match setArguments mask source with
  | .error f => .raised f snapshot
  | .ok (root, path, value) =>
    if root = "meta" then setMeta snapshot path value
    else if root = "block" then
      patchBlocks snapshot (stringAt source "id") (setInBlock path value)
        (.error (.err .targetBlockDoesNotExist))
    else .raised (.err (.unsupportedSetMaskRoot root)) snapshot

/-- The operations of `Apply` on a validated event. -/
def applyEvent (snapshot : Option (Map ν)) (event : Event ν) : Applied Failure (Option (Map ν)) :=
  match event.op with
  | .known .start => .returned (event.model.map cloneMap)
  | .known .set =>
    if event.mask = "" then upsertBlock snapshot (event.block.getD [])
    else setByMask snapshot event.mask ((event.meta_.or event.block).getD [])
  | .known .append => appendByMask snapshot event.mask (event.block.getD [])
  | .known .error => setByMask snapshot event.mask (event.meta_.getD [])
  | .known .ping | .known .end_ => .returned snapshot
  | .other text => .raised (.err (.unsupportedOperation text)) snapshot

/-- `Apply`: validation, then the operation. -/
def apply (snapshot : Option (Map ν)) (event : Event ν) : Applied Failure (Option (Map ν)) :=
  match event.validate with
  | .error f => .raised f snapshot
  | .ok () => applyEvent snapshot event

/-- `ApplyAll` -/
def applyAll (snapshot : Option (Map ν)) (events : List (Event ν)) : Applied Failure (Option (Map ν)) :=
  Applied.run apply snapshot events

/-! ## The loop on a list of maps -/

theorem blocksOf_eq_ok {m : Map ν} {blocks : List (Map ν)}
    (h : Fields.get? m "blocks" = some (.arr (blocks.map .obj))) : blocksOf m = .ok (blocks, m) := by
  unfold blocksOf
  simp only [h, DocTree.asArr, DocTree.asObjs_map_obj]

/-- The map after a loop, `left` being what `blocksOf` leaves of it. -/
theorem patchBlocks_of_blocksOf {m left : Map ν} {blocks : List (Map ν)} (h : blocksOf m = .ok (blocks, left))
    (id : String) (f : Map ν → Except Failure (Map ν)) (missing : Except Failure (List (Map ν))) :
    (patchBlocks (some m) id f missing).state? =
      (updateFirst (fun current => .ok (hasID id current)) f missing blocks).toOption.map
        fun blocks => some (Fields.set left "blocks" (.arr (blocks.map .obj))) := by
  simp only [patchBlocks, h]
  exact Applied.state?_ofExcept_eq _ _ _

theorem patchBlocks_state? {m : Map ν} {blocks : List (Map ν)}
    (h : Fields.get? m "blocks" = some (.arr (blocks.map .obj))) (id : String)
    (f : Map ν → Except Failure (Map ν)) (missing : Except Failure (List (Map ν))) :
    (patchBlocks (some m) id f missing).state? =
      (updateFirst (fun current => .ok (hasID id current)) f missing blocks).toOption.map
        fun blocks => some (Fields.set m "blocks" (.arr (blocks.map .obj))) :=
  patchBlocks_of_blocksOf (blocksOf_eq_ok h) id f missing

/-- A decoded document compares like the document. -/
theorem memberEquals_ofJsonObject (k text : String) (value : JsonObject ν) :
    memberEquals k text (ofJsonObject value) = ((Fields.get? value k).bind DocTree.asStr == some text) := by
  unfold memberEquals ofJsonObject
  rw [DocTree.get?_mapFields]
  cases Fields.get? value k with
  | none => rfl
  | some v =>
    cases v with
    | leaf a => cases a <;> rfl
    | arr xs => rfl
    | obj fs => rfl

theorem hasID_ofJsonObject (id : String) (block : JsonObject ν) :
    hasID id (ofJsonObject block) = (idOf block == some id) :=
  memberEquals_ofJsonObject "id" id block

/-- A decoded document is written back unchanged. -/
theorem marshalSnapshot_ofJsonObject (s : JsonObject ν) : marshalSnapshot (ofJsonObject s) = s :=
  DocTree.mapFields_mapFields_of_leftInverse (fun _ => rfl) s

/-! ## What a mask addresses -/

theorem stringAt_of_idOf {block : JsonObject ν} {id : String} (h : idOf block = some id) : stringAt block "id" = id := by
  rw [stringAt, ← idOf, h, Option.getD_some]

/-- The root of a mask that has been cut, and the name that the validators look at. -/
theorem setArguments_of_cut {mask root relative : String} {source : JsonObject ν} {root' : String}
    {path : List String} {value : Json ν} (hcut : Text.cut mask '.' = some (root, relative))
    (h : setArguments mask source = .ok (root', path, value)) :
    root' = root ∧ ∃ k rest, path = k :: rest ∧ (Text.split mask '.')[1]? = some k := by
  simp only [setArguments, hcut, seq_eq_ok] at h
  obtain ⟨-, h⟩ := h
  cases hread : readPath source (Text.split relative '.') with
  | none => simp [hread] at h
  | some v =>
    simp only [hread, pure, Except.pure, Except.ok.injEq, Prod.mk.injEq] at h
    obtain ⟨rfl, rfl, -⟩ := h
    obtain ⟨k, rest, hk⟩ := List.exists_cons_of_ne_nil (Text.split_ne_nil relative '.')
    refine ⟨rfl, k, rest, hk, ?_⟩
    rw [Text.split_of_cut hcut, hk]
    rfl

/-- The parts of an accepted append; the field is the name that the validators look at. -/
theorem appendArguments_eq_ok {mask : String} {block : JsonObject ν} {field id : String} {value : Json ν}
    (h : appendArguments mask block = .ok (field, id, value)) :
    idOf block = some id ∧ (Text.hasPrefix mask "block." = true → (Text.split mask '.')[1]? = some field) := by
  rw [appendArguments, seq_eq_ok, seq_eq_ok, check_eq_ok, check_eq_ok, Bool.and_eq_true, bne_iff_ne, bne_iff_ne,
    stringAt_ne_iff] at h
  obtain ⟨⟨-, hdot⟩, hid, h⟩ := h
  cases hget : Fields.get? block (Text.dropPrefix mask "block.") with
  | none => simp [hget] at h
  | some v =>
    simp only [hget, pure, Except.pure, Except.ok.injEq, Prod.mk.injEq] at h
    obtain ⟨rfl, rfl, rfl⟩ := h
    refine ⟨idOf_eq_some_stringAt hid, fun hpre => ?_⟩
    rw [Text.split_of_cut (Text.cut_block hpre), Text.split_of_not_contains (by simpa using hdot)]
    rfl

/-! ## What an accepted operation has gone through -/

theorem exists_of_upsertBlock {m : Map ν} {s' : Option (Map ν)} {block : JsonObject ν}
    (h : (upsertBlock (some m) block).state? = some s') :
    ∃ id, idOf block = some id ∧ id ≠ "" ∧ blockOk rules block = true ∧
      (Fields.has block "ref" = true → memberEquals "version" protocolVersion m = true) ∧
      (patchBlocks (some m) id (fun _ => .ok (cloneMap block)) (.ok [cloneMap block])).state? = some s' := by
  unfold upsertBlock at h
  cases hargs : upsertArguments (some m) block with
  | error r => simp [hargs] at h
  | ok id =>
    simp only [hargs] at h
    simp only [upsertArguments, seq_eq_ok, check_eq_ok, validateBlock_eq_ok_iff, Option.getD_some, pure, Except.pure,
      Except.ok.injEq] at hargs
    obtain ⟨hok, hversion, hid⟩ := hargs
    obtain ⟨target, hidOf, hne⟩ := exists_idOf_of_blockOk hok
    obtain rfl : target = id := (stringAt_of_idOf hidOf).symm.trans hid
    exact ⟨target, hidOf, hne, hok, fun href => by simpa [href] using hversion, h⟩

/-- A masked write to the metadata. -/
theorem exists_of_setByMask_meta {s s' : Option (Map ν)} {mask : String} {source : JsonObject ν}
    (hmeta : Text.hasPrefix mask "meta." = true) (h : (setByMask s mask source).state? = some s') :
    ∃ k rest value, setArguments mask source = .ok ("meta", k :: rest, value) ∧
      (setMeta s (k :: rest) value).state? = some s' := by
  unfold setByMask at h
  cases hargs : setArguments mask source with
  | error r => simp [hargs] at h
  | ok a =>
    obtain ⟨root, path, value⟩ := a
    obtain ⟨rfl, k, rest, rfl, -⟩ := setArguments_of_cut (Text.cut_meta hmeta) hargs
    simp only [hargs, if_true] at h
    exact ⟨k, rest, value, rfl, h⟩

/-- A masked write to a block; the first name of the path is the one that the validators look at. -/
theorem exists_of_setByMask_block {s s' : Option (Map ν)} {mask : String} {source : JsonObject ν}
    (hblock : Text.hasPrefix mask "block." = true) (h : (setByMask s mask source).state? = some s') :
    ∃ k rest value, setArguments mask source = .ok ("block", k :: rest, value) ∧
      (Text.split mask '.')[1]? = some k ∧
        (patchBlocks s (stringAt source "id") (setInBlock (k :: rest) value)
          (.error (.err .targetBlockDoesNotExist))).state? = some s' := by
  unfold setByMask at h
  cases hargs : setArguments mask source with
  | error r => simp [hargs] at h
  | ok a =>
    obtain ⟨root, path, value⟩ := a
    obtain ⟨rfl, k, rest, rfl, hk⟩ := setArguments_of_cut (Text.cut_block hblock) hargs
    simp only [hargs] at h
    rw [if_neg (by decide), if_pos trivial] at h
    exact ⟨k, rest, value, rfl, hk, h⟩

end AgentUE.Go
