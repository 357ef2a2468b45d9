import AgentUE.TypeScript.Validation
import AgentUE.Protocol.Patch

/-!
# TypeScript SDK: the reducer

Reference: `sdks/typescript/src/ui/apply.ts`. A call works on the snapshot and, through the prototype
chain, on `Object.prototype`: the state is both. A raise keeps them as the call has left them.
-/

namespace AgentUE.TypeScript

open Data

variable {ν : Type}

/-- A snapshot and the properties that running code has added to `Object.prototype`. -/
structure World (ν : Type) where
  shared : JsObject ν
  snapshot : JsObject ν
deriving DecidableEq

/-- The value of a read; the accessor gives the prototype, which is a record when it is
`Object.prototype` itself. -/
def Member.resolve (object : JsObject ν) : Member ν → Member ν
  | .accessor =>
    match Fields.get? object .proto with
    | some v => .value v
    | none => .builtin
  | m => m

/-- `object[k] = v` -/
def assign (shared object : JsObject ν) (k : String) (v : Js ν) : JsObject ν :=
  match readMember shared object k with
  | .accessor =>
    match v with
    | .null | .arr _ | .obj _ => Fields.set object .proto v
    | .leaf _ => object
  | _ => Fields.set object (.own k) v

mutual

/-- Replace the member `k` of a value where a read finds it. -/
def putValue (k : String) (v : Js ν) : Js ν → Js ν
  | .leaf a => .leaf a
  | .arr xs => .arr (xs.zipIdx.map fun p => if toString p.2 == k then v else p.1)
  | .obj slots => .obj (if hasOwn slots k then Fields.set slots (.own k) v else putInherited k v slots)

/-- Replace a member in the prototype of an object. -/
def putInherited (k : String) (v : Js ν) : JsObject ν → JsObject ν
  | [] => []
  | (.proto, parent) :: slots => (.proto, putValue k v parent) :: slots
  | (.own j, w) :: slots => (.own j, w) :: putInherited k v slots

end

/-- Replace the member `k` of an object where a read finds it: what a change through the reference that
the read returned amounts to. -/
def putMember (k : String) (v : Js ν) (object : JsObject ν) : JsObject ν :=
  if hasOwn object k then Fields.set object (.own k) v else putInherited k v object

/-- The same for a member of the snapshot, which may be one of `Object.prototype`. -/
def World.put (w : World ν) (k : String) (v : Js ν) : World ν :=
  match readMember w.shared w.snapshot k with
  | .shared _ => { w with shared := Fields.set w.shared (.own k) v }
  | _ => { w with snapshot := putMember k v w.snapshot }

/-! ## Masked reads and writes -/

/-- `readPath`, which tests own properties only -/
def readPath (source : JsObject ν) (path : List String) : Option (Js ν) :=
  readPathOrLeaf source (path.map .own)

/-- How far a walk down a path has come: it has written into the object, or it has stepped to
`Object.prototype` and goes on there. -/
inductive Written (ν : Type) where
  | done (object : JsObject ν)
  | atPrototype (object : JsObject ν) (path : List String)
deriving DecidableEq

/-- Take the object back to the object that holds it. -/
def Written.within (f : JsObject ν → JsObject ν) : Written ν → Written ν
  | .done object => .done (f object)
  | .atPrototype object path => .atPrototype (f object) path

/-- `writePath` from an object other than `Object.prototype`; the value has been copied. -/
def writePath (shared : JsObject ν) : JsObject ν → List String → Js ν → Written ν
  | object, [], _ => .done object
  | object, [leaf], value => .done (assign shared object leaf value)
  | object, part :: rest, value =>
    match readMember shared object part with
    | .value (.obj child) =>
      (writePath shared child rest value).within fun child => putMember part (.obj child) object
    | .shared (.obj _) => .atPrototype object (part :: rest)
    | .accessor =>
      match Fields.get? object .proto with
      | none => .atPrototype object rest
      | some (.obj parent) =>
        (writePath shared parent rest value).within fun parent => Fields.set object .proto (.obj parent)
      | some _ =>
        -- an array is no record and is replaced
        (writePath shared [] rest value).within fun parent => Fields.set object .proto (.obj parent)
    | _ => (writePath shared [] rest value).within fun child => Fields.set object (.own part) (.obj child)

/-- `writePath` from `Object.prototype`, whose own prototype is `null` and cannot be replaced. A walk
that comes back here is shorter than the one before, so its length bounds the number of returns. -/
def writePrototype : ℕ → JsObject ν → List String → Js ν → Except Rejection (JsObject ν)
  | _, shared, [], _ => .ok shared
  | _, shared, [leaf], value =>
    if leaf = "__proto__" then
      match value with
      | .leaf _ => .ok shared
      | _ => .error .immutablePrototype
    else .ok (Fields.set shared (.own leaf) value)
  | 0, shared, _, _ => .ok shared
  | fuel + 1, shared, part :: rest, value =>
    if part = "__proto__" then .error .immutablePrototype
    else
      let child := DocTree.childAt shared (.own part)
      match writePath (Fields.set shared (.own part) (.obj child)) child rest value with
      | .done child => .ok (Fields.set shared (.own part) (.obj child))
      | .atPrototype child path =>
        writePrototype fuel (Fields.set shared (.own part) (.obj child)) path value

/-- Finish a masked write to a part of the snapshot, which `store` puts back. -/
def World.finishWrite (w : World ν) (store : JsObject ν → World ν) (path : List String) (value : Js ν)
    (target : JsObject ν) : Applied Rejection (World ν) :=
  match writePath w.shared target path value with
  | .done target => .returned (store target)
  | .atPrototype target path =>
    let w := store target
    .ofExcept w (fun shared => { w with shared := shared }) (writePrototype path.length w.shared path value)

/-! ## The operations -/

/-- The elements of `snapshot.blocks` when all of them are records. -/
def blocksOf (blocks : Option (Js ν)) : Except Rejection (List (JsObject ν)) :=
  match blocks with
  | some (.arr items) =>
    match DocTree.asObjs items with
    | some blocks => .ok blocks
    | none => .error .snapshotBlock
  | _ => .error .snapshotBlocks

/-- `ensureBlocks`, with the state it leaves -/
def ensureBlocks (w : World ν) : Except Rejection (List (JsObject ν)) × World ν :=
  match readMember w.shared w.snapshot "blocks" with
  | .undefined => (.ok [], { w with snapshot := Fields.set w.snapshot (.own "blocks") (.arr []) })
  | _ => (blocksOf (read w.shared w.snapshot "blocks"), w)

/-- Store the list of blocks back. -/
def World.putBlocks (w : World ν) (blocks : List (JsObject ν)) : World ν :=
  w.put "blocks" (.arr (blocks.map .obj))

/-- `block.id === id` for a string -/
def hasId (shared : JsObject ν) (id : Option String) (block : JsObject ν) : Bool :=
  id.isSome && readString shared block "id" == id

/-- Replace the first element that satisfies `p`. -/
def replaceFirst {β : Type} (p : β → Bool) (b' : β) : List β → List β
  | [] => []
  | b :: rest => if p b then b' :: rest else b :: replaceFirst p b' rest

/-- `requireInlineBlock` -/
def requireInlineBlock (block : JsObject ν) : Except Rejection Unit :=
  check (!hasOwn block "ref") .unresolvedReference

/-- `upsertBlock` -/
def upsertBlock (w : World ν) (block : JsObject ν) : Applied Rejection (World ν) :=
  match (do
    validateBlock w.shared block
    check (!(hasOwn block "ref" && readString w.shared w.snapshot "version" != some protocolVersion))
      .referenceRequiresVersion) with
  | .error r => .raised r w
  | .ok () =>
    match ensureBlocks w with
    | (.error r, w) => .raised r w
    | (.ok blocks, w) =>
      let p := hasId w.shared (readString w.shared block "id")
      .returned (w.putBlocks (if blocks.any p then replaceFirst p (cloneObject block) blocks
        else blocks ++ [cloneObject block]))

/-- `existing[field]` extended by the new value -/
def extended (field : String) (currentValue : Member ν) (nextValue : Js ν) : Except Rejection (Js ν) :=
  match currentValue, nextValue with
  | .undefined, _ | .value .null, _ | .shared .null, _ => .ok (cloneJson nextValue)
  | .value (.str old), .str new | .shared (.str old), .str new => .ok (.str (old ++ new))
  | .value (.arr old), .arr new | .shared (.arr old), .arr new => .ok (.arr (old ++ cloneItems new))
  | _, _ => .error (.appendIncompatible field)

/-- The change of `applyAppend` to the block it has found. -/
def appendToBlock (shared : JsObject ν) (field : String) (nextValue : Js ν) (existing : JsObject ν) :
    Except Rejection (JsObject ν) := do
  requireInlineBlock existing
  let value ← extended field ((readMember shared existing field).resolve existing) nextValue
  return assign shared existing field value

/-- `!event.block.type` is false. Which number is zero does not matter: `validateBlock` refuses all. -/
def truthy : Option (Js ν) → Bool
  | none | some .null | some (.leaf (.bool false)) => false
  | some (.str s) => s != ""
  | some _ => true

/-- The checks of `applyAppend` before it looks at the snapshot: field and value. -/
def appendArguments (mask : String) (block : JsObject ν) : Except Rejection (String × Js ν) := do
  let field := Text.dropPrefix mask "block."
  check (field != "" && !Text.contains field '.') (.unsupportedAppendMask mask)
  match Fields.get? block (.own field) with
  | none => .error (.appendBlockLacksField field)
  | some nextValue =>
    check ((DocTree.asStr nextValue).isSome || (DocTree.asArr nextValue).isSome)
      (.appendFieldMustBeStringOrList field)
    return (field, nextValue)

/-- `applyAppend`; the validator has made sure that the payload has an id. -/
def applyAppend (w : World ν) (mask : String) (block : JsObject ν) : Applied Rejection (World ν) :=
  match appendArguments mask block with
  | .error r => .raised r w
  | .ok (field, nextValue) =>
    match ensureBlocks w with
    | (.error r, w) => .raised r w
    | (.ok blocks, w) =>
      let p := hasId w.shared (readString w.shared block "id")
      match blocks.find? p with
      | some existing =>
        .ofExcept w (fun existing => w.putBlocks (replaceFirst p existing blocks))
          (appendToBlock w.shared field nextValue existing)
      | none =>
        .ofExcept w (fun () => w.putBlocks (blocks ++ [cloneObject block])) do
          check (truthy (read w.shared block "type")) .appendRequiresCompleteBlock
          validateBlock w.shared block

/-- The checks of `setByMask` before it looks at the snapshot: root, path and value. -/
def setArguments (mask : String) (source : JsObject ν) :
    Except Rejection (String × List String × Js ν) :=
  match Text.cut mask '.' with
  | none => .error (.invalidSetMask mask)
  | some (root, relative) => do
    check (root != "" && relative != "") (.invalidSetMask mask)
    let path := Text.split relative '.'
    match readPath source path with
    | none => .error (.payloadLacksMaskedValue mask)
    | some value => return (root, path, value)

/-- The branch `root === "meta"` -/
def setMeta (w : World ν) (path : List String) (value : Js ν) : Applied Rejection (World ν) :=
  let w := match readMember w.shared w.snapshot "meta" with
    | .undefined => { w with snapshot := Fields.set w.snapshot (.own "meta") (.obj []) }
    | _ => w
  match (read w.shared w.snapshot "meta").bind DocTree.asObj with
  | none => .raised .snapshotMeta w
  | some target => w.finishWrite (fun target => w.put "meta" (.obj target)) path value target

/-- The branch `root === "block"` -/
def setBlock (w : World ν) (id : Option String) (path : List String) (value : Js ν) :
    Applied Rejection (World ν) :=
  match ensureBlocks w with
  | (.error r, w) => .raised r w
  | (.ok blocks, w) =>
    let p := hasId w.shared id
    match blocks.find? p with
    | none => .raised .targetBlockDoesNotExist w
    | some target =>
      match requireInlineBlock target with
      | .error r => .raised r w
      | .ok () => w.finishWrite (fun target => w.putBlocks (replaceFirst p target blocks)) path value target

/-- `setByMask` -/
def setByMask (w : World ν) (mask : String) (source : JsObject ν) : Applied Rejection (World ν) :=
  match setArguments mask source with
  | .error r => .raised r w
  | .ok (root, path, value) =>
    if root = "meta" then setMeta w path (cloneJson value)
    else if root = "block" then setBlock w (readString w.shared source "id") path (cloneJson value)
    else .raised (.unsupportedSetMaskRoot root) w

/-- `"meta" in event ? event.meta : event.block` -/
def setSource (shared : JsObject ν) (event : Envelope ν) : Option (JsObject ν) :=
  if event.meta_.isSome || hasOwn shared "meta" then metaOf shared event
  else event.block.map ofJsonObject

/-- `applySet` -/
def applySet (w : World ν) (event : Envelope ν) : Applied Rejection (World ν) :=
  match maskOf w.shared event with
  | none => upsertBlock w (ofJsonObject (event.block.getD []))
  | some mask =>
    match setSource w.shared event with
    | none => .raised (.payloadLacksMaskedValue mask) w
    | some source => setByMask w mask source

/-- The operations of `applyPatch` on a validated event. -/
def applyEvent (w : World ν) (event : Envelope ν) : Applied Rejection (World ν) :=
  match event.op with
  | .start => .returned { w with snapshot := cloneObject (ofJsonObject (event.model.getD [])) }
  | .set => applySet w event
  | .append => applyAppend w ((maskOf w.shared event).getD "") (ofJsonObject (event.block.getD []))
  | .error => setByMask w "meta.error" ((metaOf w.shared event).getD [])
  | .ping | .end_ => .returned w

/-- `applyPatch`: validation, then the operation. -/
def applyPatch (w : World ν) (event : Envelope ν) : Applied Rejection (World ν) :=
  match parsePatchEvent w.shared event with
  | .error r => .raised r w
  | .ok () => applyEvent w event

/-- `applyPatches` -/
def applyPatches (w : World ν) (events : List (Envelope ν)) : Applied Rejection (World ν) :=
  Applied.run applyPatch w events

end AgentUE.TypeScript
