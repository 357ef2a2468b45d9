import AgentUE.Conformance.ValidRuns
import AgentUE.TypeScript.OwnPaths

/-!
# What a masked write of the TypeScript reducer changes

A masked set and an append address the meta object or one block. `Lawful` asks that nothing else changes, that the
value stands at the own path the mask names, and that an append to a field the block does not have is accepted;
`ownNames` says for which names this is so.
-/

namespace AgentUE.TypeScript

open Data Conformance

variable {ν : Type}

/-! ## The addressed object -/

/-- The blocks of a snapshot that has a list of them. -/
def World.blocks (w : World ν) : List (JsObject ν) :=
  (((Fields.get? w.snapshot (.own "blocks")).bind DocTree.asArr).bind DocTree.asObjs).getD []

/-- The block has the id of a payload. -/
def hasIdOf (block : JsonObject ν) (b : JsObject ν) : Bool := idOf (toJsonObject b) == idOf block

/-- The meta object, or the block that the payload names when there is one. -/
def World.addressed (w : World ν) (e : Envelope ν) : Option (JsObject ν) :=
  match e.block with
  | none => (Fields.get? w.snapshot (.own "meta")).bind DocTree.asObj
  | some block => w.blocks.find? (hasIdOf block)

/-- The world with another object in place of the addressed one; a block that is missing is added. -/
def World.readdress (w : World ν) (e : Envelope ν) (target : JsObject ν) : World ν :=
  match e.block with
  | none => { w with snapshot := Fields.set w.snapshot (.own "meta") (.obj target) }
  | some block =>
    let p := hasIdOf block
    let blocks := if w.blocks.any p then replaceFirst p target w.blocks else w.blocks ++ [target]
    { w with snapshot := Fields.set w.snapshot (.own "blocks") (.arr (blocks.map .obj)) }

/-- The payload of a masked write, as it is parsed. -/
def payloadOf (e : Envelope ν) : JsObject ν := ofJsonObject ((e.meta_.or e.block).getD [])

/-- The own path that the mask names in the addressed object, and the value that it is to hold. -/
def World.asked (w : World ν) (e : Envelope ν) : Option (List String × Js ν) :=
  match e.op with
  | .set => (setArguments (e.mask.getD "") (payloadOf e)).toOption.map fun a => (a.2.1, a.2.2)
  | .append =>
    (appendArguments (e.mask.getD "") (payloadOf e)).toOption.bind fun a =>
      (extendOwn ((w.addressed e).bind (Fields.get? · (.own a.1))) a.2).map fun v => ([a.1], v)
  | _ => none

/-- Only the addressed object is another one, `Object.prototype` is not, and the path holds the value. -/
def WritesOnly (w w' : World ν) (e : Envelope ν) : Prop :=
  ∃ path value target, w.asked e = some (path, value) ∧ w' = w.readdress e target ∧ ownAt target path = some value

/-- A valid append of a string or a list to an inline block that has no own property of that name. -/
def OpenAppend (w : World ν) (e : Envelope ν) : Prop :=
  e.op = .append ∧ parsePatchEvent w.shared e = .ok () ∧
    ∃ field value target, appendArguments (e.mask.getD "") (payloadOf e) = .ok (field, value) ∧
      w.addressed e = some target ∧ hasOwn target "ref" = false ∧ hasOwn target field = false

/-- An accepted event writes the addressed state only, and an open append is accepted. -/
structure Lawful (w : World ν) (e : Envelope ν) : Prop where
  writes : ∀ w', applyPatch w e = .returned w' → WritesOnly w w' e
  accepts : OpenAppend w e → ∃ w', applyPatch w e = .returned w'

/-- The names of the mask stay on own properties of the addressed object, what an append reads elsewhere adds nothing,
a block that is added has no field `__proto__`, and no object in the value has one. -/
def ownNames (w : World ν) (e : Envelope ν) : Bool :=
  match e.op with
  | .set =>
    (setArguments (e.mask.getD "") (payloadOf e)).toOption.any fun a =>
      (w.addressed e).any (fun target => stays target a.2.1) && plain a.2.2
  | .append =>
    (appendArguments (e.mask.getD "") (payloadOf e)).toOption.any fun a =>
      ((w.addressed e).elim (a.1 != "__proto__") fun target => extendsOwn target a.1 a.2) && plain a.2
  | _ => true

theorem replaceFirst_inj {β : Type} {p : β → Bool} {bs : List β} (h : bs.any p = true) {b c : β}
    (heq : replaceFirst p b bs = replaceFirst p c bs) : b = c := by
  induction bs with
  | nil => cases h
  | cons d rest ih =>
    rw [replaceFirst, replaceFirst] at heq
    by_cases hd : p d = true
    · rw [if_pos hd, if_pos hd, List.cons.injEq] at heq
      exact heq.1
    · rw [if_neg hd, if_neg hd, List.cons.injEq] at heq
      exact ih (by simpa [hd] using h) heq.2

theorem map_obj_inj {bs cs : List (JsObject ν)} (h : (.arr (bs.map .obj) : Js ν) = .arr (cs.map .obj)) : bs = cs :=
  List.map_injective_iff.mpr (fun _ _ => DocTree.obj.inj) (DocTree.arr.inj h)

/-- The snapshot shows the addressed object. -/
theorem readdress_inj {w : World ν} {e : Envelope ν} {t u : JsObject ν}
    (h : (w.readdress e t).snapshot = (w.readdress e u).snapshot) : t = u := by
  unfold World.readdress at h
  cases hb : e.block with
  | none =>
    simp only [hb] at h
    have hget := congrArg (Fields.get? · (.own "meta")) h
    simp only [Fields.get?_set_self] at hget
    exact DocTree.obj.inj (Option.some.inj hget)
  | some block =>
    simp only [hb] at h
    have hget := congrArg (Fields.get? · (.own "blocks")) h
    simp only [Fields.get?_set_self] at hget
    have hblocks := map_obj_inj (Option.some.inj hget)
    split_ifs at hblocks with hany
    · exact replaceFirst_inj hany hblocks
    · exact List.singleton_inj.mp (List.append_cancel_left hblocks)

@[simp] theorem readdress_shared (w : World ν) (e : Envelope ν) (t : JsObject ν) :
    (w.readdress e t).shared = w.shared := by
  unfold World.readdress
  cases e.block <;> rfl

/-- What a world that writes only the addressed object has there. -/
theorem writesOnly_iff_of_readdress {w : World ν} {e : Envelope ν} {path : List String} {v : Js ν}
    (hasked : w.asked e = some (path, v)) (t : JsObject ν) :
    WritesOnly w (w.readdress e t) e ↔ ownAt t path = some v := by
  constructor
  · rintro ⟨path', v', u, hasked', hu, hvalue⟩
    obtain ⟨rfl, rfl⟩ : path = path' ∧ v = v' := by simpa [hasked] using hasked'
    rwa [readdress_inj (congrArg World.snapshot hu)]
  · exact fun h => ⟨path, v, t, hasked, rfl, h⟩

/-- `Object.prototype` is untouched, the meta object and the list of blocks are own, and so is the id of each block. -/
structure Rooted (w : World ν) : Prop where
  shared : w.shared = []
  record : ∃ record, Fields.get? w.snapshot (.own "meta") = some (.obj record)
  blocks : ∃ bs : List (JsObject ν), Fields.get? w.snapshot (.own "blocks") = some (.arr (bs.map .obj)) ∧
    ∀ b ∈ bs, (idOf (toJsonObject b)).isSome = true

theorem Rooted.of_sound {w : World ν} (h : Sound w) : Rooted w := by
  obtain ⟨record, hrecord, -⟩ := exists_meta h.model
  obtain ⟨bs, hbs, hok⟩ := exists_blocks h.model
  refine ⟨h.shared, ⟨record, hrecord⟩, bs, hbs, fun b hb => ?_⟩
  obtain ⟨id, hid, -⟩ := exists_idOf_of_blockOk (blockOk_of_mem hok (List.mem_map_of_mem hb))
  rw [hid]
  rfl

/-! ## Masked sets -/

/-- The end of a masked set. -/
theorem writesOnly_iff_of_finishWrite {w w' : World ν} (hw : w.shared = []) {e : Envelope ν} {path : List String}
    (hne : path ≠ []) {target : JsObject ν} {v : Js ν} (hasked : w.asked e = some (path, v))
    (h : w.finishWrite (w.readdress e) path (cloneJson v) target = .returned w') :
    WritesOnly w w' e ↔ stays target path = true ∧ plain v = true := by
  rw [World.finishWrite, hw] at h
  by_cases hstays : stays target path = true
  · obtain ⟨target', hdone, hvalue⟩ := ownAt_writePath_of_stays hne hstays (cloneJson v)
    rw [hdone] at h
    obtain rfl : w.readdress e target' = w' := by simpa using h
    rw [writesOnly_iff_of_readdress hasked, hvalue, Option.some.injEq, cloneJson_eq_iff, and_iff_right hstays]
  · -- the snapshot shows that nothing stands at the path, whatever became of the prototype
    have hnone := ownAt_writePath_of_not_stays (by simpa using hstays) (cloneJson v)
    have hsnapshot : w'.snapshot = (w.readdress e (writePath [] target path (cloneJson v)).object).snapshot := by
      cases hwrite : writePath [] target path (cloneJson v) with
      | done target' =>
        rw [hwrite] at h
        obtain rfl : w.readdress e target' = w' := by simpa using h
        rfl
      | atPrototype target' rest =>
        rw [hwrite] at h
        obtain ⟨shared, -, rfl⟩ := Applied.state?_ofExcept.mp (Applied.state?_eq_some.mpr h)
        rfl
    refine iff_of_false ?_ fun h => hstays h.1
    rintro ⟨path', v', t, hasked', rfl, hvalue⟩
    obtain ⟨rfl, rfl⟩ : path = path' ∧ v = v' := by simpa [hasked] using hasked'
    rw [readdress_inj hsnapshot, hnone] at hvalue
    cases hvalue

theorem blocks_of_own {w : World ν} {bs : List (JsObject ν)}
    (h : Fields.get? w.snapshot (.own "blocks") = some (.arr (bs.map .obj))) : w.blocks = bs := by
  rw [World.blocks, h]
  simp only [Option.bind_some, DocTree.asArr, DocTree.asObjs_map_obj, Option.getD_some]

/-- The reducer compares the ids of the documents. -/
theorem hasId_eq_hasIdOf {bs : List (JsObject ν)} (h : ∀ b ∈ bs, (idOf (toJsonObject b)).isSome = true)
    (block : JsonObject ν) : ∀ b ∈ bs, hasId [] (readString [] (ofJsonObject block) "id") b = hasIdOf block b := by
  intro b hb
  obtain ⟨id, hid⟩ := Option.isSome_iff_exists.mp (h b hb)
  rw [readString_id_ofJsonObject, hasIdOf, hid]
  cases idOf block with
  | none => rfl
  | some i =>
    rw [hasId, readString_id_of_toJsonObject hid]
    rfl

theorem replaceFirst_congr {β : Type} {p q : β → Bool} {bs : List β} (h : ∀ b ∈ bs, p b = q b) (c : β) :
    replaceFirst p c bs = replaceFirst q c bs := by
  induction bs with
  | nil => rfl
  | cons b rest ih =>
    obtain ⟨hb, hrest⟩ := List.forall_mem_cons.mp h
    rw [replaceFirst, replaceFirst, hb, ih hrest]

/-- The block that the reducer finds is the addressed one, and it stores another one there. -/
theorem addressed_of_find? {w : World ν} {e : Envelope ν} {block : JsonObject ν}
    (hblock : e.block = some block) {bs : List (JsObject ν)}
    (hbs : Fields.get? w.snapshot (.own "blocks") = some (.arr (bs.map .obj)))
    (hok : ∀ b ∈ bs, (idOf (toJsonObject b)).isSome = true) :
    w.addressed e = bs.find? (hasId [] (readString [] (ofJsonObject block) "id")) ∧
      (∀ target, (w.addressed e).isSome = true →
        w.putBlocks (replaceFirst (hasId [] (readString [] (ofJsonObject block) "id")) target bs) =
          w.readdress e target) ∧
      ∀ target, w.addressed e = none → w.putBlocks (bs ++ [target]) = w.readdress e target := by
  have hids := hasId_eq_hasIdOf hok block
  have haddressed : w.addressed e = bs.find? (hasIdOf block) := by
    rw [World.addressed, hblock, ← blocks_of_own hbs]
  have hput : ∀ cs : List (JsObject ν), w.putBlocks cs =
      { w with snapshot := Fields.set w.snapshot (.own "blocks") (.arr (cs.map .obj)) } := fun cs => put_of_own hbs _
  refine ⟨by rw [haddressed, List.find?_congr hids], fun target hsome => ?_, fun target hnone => ?_⟩
  · rw [haddressed, List.find?_isSome] at hsome
    rw [hput, replaceFirst_congr hids, World.readdress, hblock]
    simp only [blocks_of_own hbs, List.any_eq_true.mpr hsome, if_true]
  · have hany : bs.any (hasIdOf block) = false := by
      rw [haddressed, List.find?_eq_none] at hnone
      simpa using hnone
    rw [hput, World.readdress, hblock]
    simp only [blocks_of_own hbs, hany, Bool.false_eq_true, if_false]

theorem applyPatch_eq_returned {w w' : World ν} {e : Envelope ν} :
    applyPatch w e = .returned w' ↔ parsePatchEvent w.shared e = .ok () ∧ applyEvent w e = .returned w' := by
  unfold applyPatch
  cases parsePatchEvent w.shared e with
  | error r => simp
  | ok u => simp

/-- A masked set below `meta.` -/
theorem exists_finishWrite_of_meta {w w' : World ν} (hw : Rooted w) {e : Envelope ν} (hblock : e.block = none)
    {mask : String} (hmask : Text.hasPrefix mask "meta." = true) {source : JsonObject ν}
    (h : setByMask w mask (ofJsonObject source) = .returned w') :
    ∃ root k rest v target, setArguments mask (ofJsonObject source) = .ok (root, k :: rest, v) ∧
      w.addressed e = some target ∧ w.finishWrite (w.readdress e) (k :: rest) (cloneJson v) target = .returned w' := by
  unfold setByMask at h
  cases hargs : setArguments mask (ofJsonObject source) with
  | error r => simp [hargs] at h
  | ok a =>
    obtain ⟨root, path, v⟩ := a
    obtain ⟨value, rfl, hpython⟩ := setArguments_ofJsonObject hargs
    obtain ⟨rfl, k, rest, rfl, -⟩ := Python.setArguments_of_cut (Text.cut_meta hmask) hpython
    obtain ⟨record, hrecord⟩ := hw.record
    simp only [hargs, if_true, setMeta, readMember_of_own hrecord, read_of_own hrecord, Option.bind_some,
      DocTree.asObj] at h
    have hstore : (fun target => w.put "meta" (.obj target)) = w.readdress e := by
      funext target
      rw [put_of_own hrecord, World.readdress, hblock]
    rw [hstore] at h
    exact ⟨_, k, rest, _, record, rfl, by rw [World.addressed, hblock, hrecord]; rfl, h⟩

/-- A masked set below `block.` -/
theorem exists_finishWrite_of_block {w w' : World ν} (hw : Rooted w) {e : Envelope ν} {block : JsonObject ν}
    (hblock : e.block = some block) {mask : String} (hmask : Text.hasPrefix mask "block." = true)
    (hpatch : patchable mask block = true) (h : setByMask w mask (ofJsonObject block) = .returned w') :
    ∃ root k rest v target, setArguments mask (ofJsonObject block) = .ok (root, k :: rest, v) ∧ k ≠ "id" ∧
      w.addressed e = some target ∧ w.finishWrite (w.readdress e) (k :: rest) (cloneJson v) target = .returned w' := by
  unfold setByMask at h
  cases hargs : setArguments mask (ofJsonObject block) with
  | error r => simp [hargs] at h
  | ok a =>
    obtain ⟨root, path, v⟩ := a
    obtain ⟨value, rfl, hpython⟩ := setArguments_ofJsonObject hargs
    obtain ⟨rfl, k, rest, rfl, hk⟩ := Python.setArguments_of_cut (Text.cut_block hmask) hpython
    obtain ⟨bs, hbs, hok⟩ := hw.blocks
    obtain ⟨haddressed, hput, -⟩ := addressed_of_find? hblock hbs hok
    simp only [hargs, if_neg (show ¬ "block" = "meta" by decide), if_true, setBlock, ensureBlocks_of_own hbs,
      hw.shared, ← haddressed] at h
    cases htarget : w.addressed e with
    | none => simp [htarget] at h
    | some target =>
      simp only [htarget] at h
      cases hinline : requireInlineBlock target with
      | error r => simp [hinline] at h
      | ok u =>
        simp only [hinline] at h
        have hstore : (fun target => w.putBlocks (replaceFirst (hasId [] (readString [] (ofJsonObject block) "id"))
            target bs)) = w.readdress e := funext fun target => hput target (by rw [htarget]; rfl)
        rw [hstore] at h
        exact ⟨_, k, rest, _, target, rfl, (patchable_ne hpatch hk).1, rfl, h⟩

/-- An accepted masked set comes to the write to the addressed object. -/
theorem exists_finishWrite_of_set {w w' : World ν} (hw : Rooted w) {e : Envelope ν} (hop : e.op = .set)
    (hmask : e.mask.isSome = true) (h : applyPatch w e = .returned w') :
    ∃ root k rest v target, setArguments (e.mask.getD "") (payloadOf e) = .ok (root, k :: rest, v) ∧
      (e.block.isSome = true → k ≠ "id") ∧ w.addressed e = some target ∧
      w.finishWrite (w.readdress e) (k :: rest) (cloneJson v) target = .returned w' := by
  obtain ⟨mask, hk⟩ := Option.isSome_iff_exists.mp hmask
  obtain ⟨hvalid, h⟩ := applyPatch_eq_returned.mp h
  simp only [parsePatchEvent, seq_eq_ok, hw.shared] at hvalid
  obtain ⟨-, -, -, hvalid⟩ := hvalid
  simp only [validatePayload, hop, typeScript_set_iff, hk] at hvalid
  simp only [applyEvent, hop, applySet, hw.shared, maskOf_nil, hk, setSource_nil] at h
  rw [hk, Option.getD_some, payloadOf]
  rcases hm : e.meta_ with _ | m <;> rcases hb : e.block with _ | block <;> simp only [hm, hb] at hvalid h
  · have hpatch := (typeScript_fieldPatch_iff mask block).mp hvalid.2.2
    obtain ⟨root, k, rest, v, target, hargs, hk, htarget, hfinish⟩ :=
      exists_finishWrite_of_block hw hb hvalid.1 hpatch h
    exact ⟨root, k, rest, v, target, hargs, fun _ => hk, htarget, hfinish⟩
  · obtain ⟨root, k, rest, v, target, hargs, htarget, hfinish⟩ := exists_finishWrite_of_meta hw hb hvalid h
    exact ⟨root, k, rest, v, target, hargs, fun hsome => by simp at hsome, htarget, hfinish⟩

theorem asked_of_set {w : World ν} {e : Envelope ν} (hop : e.op = .set) {root : String} {path : List String} {v : Js ν}
    (hargs : setArguments (e.mask.getD "") (payloadOf e) = .ok (root, path, v)) : w.asked e = some (path, v) := by
  simp only [World.asked, hop, hargs, Except.toOption, Option.map_some]

theorem ownNames_set_iff {w : World ν} {e : Envelope ν} (hop : e.op = .set) {root : String} {path : List String}
    {v : Js ν} (hargs : setArguments (e.mask.getD "") (payloadOf e) = .ok (root, path, v)) {target : JsObject ν}
    (haddressed : w.addressed e = some target) :
    ownNames w e = true ↔ stays target path = true ∧ plain v = true := by
  simp only [ownNames, hop, hargs, haddressed, Except.toOption, Option.any_some, Bool.and_eq_true]

theorem lawful_set_iff {w : World ν} (hw : Rooted w) {e : Envelope ν} (hop : e.op = .set)
    (hmask : e.mask.isSome = true) (haccepted : ∃ w', applyPatch w e = .returned w') :
    Lawful w e ↔ ownNames w e = true := by
  obtain ⟨w', hw'⟩ := haccepted
  obtain ⟨root, k, rest, v, target, hargs, -, haddressed, hfinish⟩ := exists_finishWrite_of_set hw hop hmask hw'
  rw [ownNames_set_iff hop hargs haddressed,
    ← writesOnly_iff_of_finishWrite hw.shared (List.cons_ne_nil k rest) (asked_of_set hop hargs) hfinish]
  constructor
  · exact fun h => h.writes w' hw'
  · refine fun h => ⟨fun w'' hw'' => ?_, fun hopen => by simp [OpenAppend, hop] at hopen⟩
    obtain rfl : w' = w'' := by simpa [hw'] using hw''
    exact h

/-! ## Appends -/

/-- A valid append carries a block, and its field is not the id. -/
theorem payload_of_append {w : World ν} (hw : Rooted w) {e : Envelope ν} (hop : e.op = .append)
    (hvalid : parsePatchEvent w.shared e = .ok ()) :
    ∃ block, e.block = some block ∧ payloadOf e = ofJsonObject block ∧
      applyEvent w e = applyAppend w (e.mask.getD "") (ofJsonObject block) ∧
      ∀ field next, appendArguments (e.mask.getD "") (ofJsonObject block) = .ok (field, next) → field ≠ "id" := by
  simp only [parsePatchEvent, seq_eq_ok, hw.shared, validatePayload, hop] at hvalid
  obtain ⟨-, -, -, hvalid⟩ := hvalid
  unfold validateAppend at hvalid
  cases hb : e.block with
  | none => simp [hb] at hvalid
  | some block =>
    cases hk : e.mask with
    | none => simp [hb, hk, seq_eq_ok] at hvalid
    | some mask =>
      simp only [hb, hk, maskOf_nil, seq_eq_ok, check_eq_ok, Option.isNone_iff_eq_none, assertBlockId,
        readNonEmpty_ofJsonObject, typeScript_fieldPatch_iff] at hvalid
      obtain ⟨hmeta, hmask, hid, hpatch⟩ := hvalid
      refine ⟨block, rfl, by rw [payloadOf, hmeta, hb]; rfl, ?_, fun field next hargs => ?_⟩
      · simp only [applyEvent, hop, hw.shared, maskOf_nil, hb, hk, Option.getD_some]
      · obtain ⟨id, value, -, hpython⟩ := appendArguments_ofJsonObject hid hargs
        obtain ⟨-, -, -, hfield⟩ := Python.appendArguments_eq_ok hpython
        exact (patchable_ne hpatch (hfield hmask)).1

theorem appendArguments_eq_ok {mask : String} {block : JsObject ν} {field : String} {next : Js ν}
    (h : appendArguments mask block = .ok (field, next)) :
    Fields.get? block (.own field) = some next ∧
      ((DocTree.asStr next).isSome || (DocTree.asArr next).isSome) = true := by
  rw [appendArguments, seq_eq_ok] at h
  obtain ⟨-, h⟩ := h
  cases hget : Fields.get? block (.own (Text.dropPrefix mask "block.")) with
  | none => simp [hget] at h
  | some value =>
    simp only [hget, seq_eq_ok, check_eq_ok, pure, Except.pure, Except.ok.injEq, Prod.mk.injEq] at h
    obtain ⟨hvalue, rfl, rfl⟩ := h
    exact ⟨hget, hvalue⟩

theorem applyAppend_of_addressed {w : World ν} (hw : Rooted w) {e : Envelope ν} {block : JsonObject ν}
    (hblock : e.block = some block) {mask field : String} {next : Js ν}
    (hargs : appendArguments mask (ofJsonObject block) = .ok (field, next)) :
    applyAppend w mask (ofJsonObject block) =
      match w.addressed e with
      | some target => .ofExcept w (w.readdress e) (appendToBlock [] field next target)
      | none => .ofExcept w (fun () => w.readdress e (cloneObject (ofJsonObject block))) (do
        check (truthy (read [] (ofJsonObject block) "type")) .appendRequiresCompleteBlock
        validateBlock [] (ofJsonObject block)) := by
  obtain ⟨bs, hbs, hok⟩ := hw.blocks
  obtain ⟨haddressed, hput, hadd⟩ := addressed_of_find? hblock hbs hok
  simp only [applyAppend, hargs, ensureBlocks_of_own hbs, hw.shared, ← haddressed]
  cases htarget : w.addressed e with
  | some target =>
    have hstore := fun target => hput target (by rw [htarget]; rfl)
    simp only [hstore]
  | none => simp only [hadd _ htarget]

/-- An append to a block that is there. -/
theorem lawful_append_iff {w : World ν} (hw : Rooted w) {e : Envelope ν} (hop : e.op = .append)
    (hvalid : parsePatchEvent w.shared e = .ok ()) {field : String} {next : Js ν}
    (hargs : appendArguments (e.mask.getD "") (payloadOf e) = .ok (field, next)) {target : JsObject ν}
    (htarget : w.addressed e = some target) (hinline : hasOwn target "ref" = false) :
    Lawful w e ↔ AppendsOwn target field next := by
  obtain ⟨block, hblock, hpayload, happend, -⟩ := payload_of_append hw hop hvalid
  have happly : ∀ w', applyPatch w e = .returned w' ↔
      ∃ b, appendToBlock [] field next target = .ok b ∧ w.readdress e b = w' := by
    intro w'
    rw [applyPatch_eq_returned, and_iff_right hvalid, happend, applyAppend_of_addressed hw hblock (hpayload ▸ hargs),
      htarget]
    dsimp only
    cases appendToBlock [] field next target <;> simp [Applied.ofExcept]
  have hasked : w.asked e = (extendOwn (Fields.get? target (.own field)) next).map fun v => ([field], v) := by
    simp only [World.asked, hop, hargs, htarget, Except.toOption, Option.bind_some]
  have hwrites : ∀ b, WritesOnly w (w.readdress e b) e ↔
      ∃ v, extendOwn (Fields.get? target (.own field)) next = some v ∧ Fields.get? b (.own field) = some v := by
    intro b
    cases hextend : extendOwn (Fields.get? target (.own field)) next with
    | none =>
      rw [hextend, Option.map_none] at hasked
      simp [WritesOnly, hasked]
    | some v =>
      rw [hextend, Option.map_some] at hasked
      rw [writesOnly_iff_of_readdress hasked, ownAt_singleton]
      simp
  have hopen : OpenAppend w e ↔ hasOwn target field = false := by
    constructor
    · rintro ⟨-, -, field', next', target', hargs', htarget', -, hown⟩
      obtain ⟨rfl, -⟩ : field = field' ∧ next = next' := by simpa [hargs] using hargs'
      obtain rfl : target = target' := by simpa [htarget] using htarget'
      exact hown
    · exact fun hown => ⟨hop, hvalid, field, next, target, hargs, htarget, hinline, hown⟩
  constructor
  · refine fun h => ⟨fun b hb => (hwrites b).mp (h.writes _ ((happly _).mpr ⟨b, hb, rfl⟩)), fun hown => ?_⟩
    obtain ⟨w', hw'⟩ := h.accepts (hopen.mpr hown)
    obtain ⟨b, hb, -⟩ := (happly w').mp hw'
    exact ⟨b, hb⟩
  · refine fun h => ⟨fun w' hw' => ?_, fun hop' => ?_⟩
    · obtain ⟨b, hb, rfl⟩ := (happly w').mp hw'
      exact (hwrites b).mpr (h.extends_ b hb)
    · obtain ⟨b, hb⟩ := h.accepts (hopen.mp hop')
      exact ⟨_, (happly _).mpr ⟨b, hb, rfl⟩⟩

/-- An append that adds the block. -/
theorem lawful_append_missing_iff {w w' : World ν} (hw : Rooted w) {e : Envelope ν} (hop : e.op = .append)
    (hw' : applyPatch w e = .returned w') {field : String} {next : Js ν}
    (hargs : appendArguments (e.mask.getD "") (payloadOf e) = .ok (field, next)) (hnone : w.addressed e = none) :
    Lawful w e ↔ field ≠ "__proto__" ∧ plain next = true := by
  obtain ⟨hvalid, happly⟩ := applyPatch_eq_returned.mp hw'
  obtain ⟨block, hblock, hpayload, happend, -⟩ := payload_of_append hw hop hvalid
  rw [happend, applyAppend_of_addressed hw hblock (hpayload ▸ hargs), hnone] at happly
  obtain ⟨u, -, rfl⟩ := Applied.state?_ofExcept.mp (Applied.state?_eq_some.mpr happly)
  have hasked : w.asked e = some ([field], next) := by
    simp only [World.asked, hop, hargs, hnone, Except.toOption, Option.bind_some, Option.bind_none, extendOwn,
      Option.map_some]
  have hget := (appendArguments_eq_ok hargs).1
  rw [hpayload] at hget
  have hwrites : WritesOnly w (w.readdress e (cloneObject (ofJsonObject block))) e ↔
      field ≠ "__proto__" ∧ plain next = true := by
    rw [writesOnly_iff_of_readdress hasked, ownAt_singleton]
    by_cases hproto : field = "__proto__"
    · rw [hproto, get?_cloneObject_proto]
      simp
    · rw [get?_cloneObject _ hproto, hget, Option.map_some, Option.some.injEq, cloneJson_eq_iff, and_iff_right hproto]
  rw [← hwrites]
  constructor
  · exact fun h => h.writes _ hw'
  · refine fun h => ⟨fun w'' hw'' => ?_, fun hopen => ?_⟩
    · obtain rfl : _ = w'' := by simpa [hw'] using hw''
      exact h
    · obtain ⟨-, -, -, -, target, -, htarget, -⟩ := hopen
      simp [hnone] at htarget

/-! ## Runs -/

/-- A masked set or an append. -/
def Masked (e : Envelope ν) : Prop := (e.op = .set ∧ e.mask.isSome = true) ∨ e.op = .append

theorem mem_replaceFirst {β : Type} {p : β → Bool} {b c : β} {bs : List β} (h : b ∈ replaceFirst p c bs) :
    b = c ∨ b ∈ bs := by
  induction bs with
  | nil => cases h
  | cons d rest ih =>
    rw [replaceFirst] at h
    split_ifs at h with hd
    · exact (List.mem_cons.mp h).imp_right (List.mem_cons_of_mem d)
    · rcases List.mem_cons.mp h with rfl | h
      · exact .inr List.mem_cons_self
      · exact (ih h).imp_right (List.mem_cons_of_mem d)

/-- Another meta object, or another block with an id. -/
theorem Rooted.readdress {w : World ν} (hw : Rooted w) {e : Envelope ν} {t : JsObject ν}
    (ht : e.block.isSome = true → (idOf (toJsonObject t)).isSome = true) : Rooted (w.readdress e t) := by
  obtain ⟨record, hrecord⟩ := hw.record
  obtain ⟨bs, hbs, hok⟩ := hw.blocks
  refine ⟨by rw [readdress_shared, hw.shared], ?_, ?_⟩ <;> unfold World.readdress
  · cases e.block with
    | none => exact ⟨t, Fields.get?_set_self _ _ _⟩
    | some block => exact ⟨record, by rw [Fields.get?_set_ne _ _ (by decide), hrecord]⟩
  · cases hb : e.block with
    | none => exact ⟨bs, by rw [Fields.get?_set_ne _ _ (by decide), hbs], hok⟩
    | some block =>
      have ht' := ht (by rw [hb]; rfl)
      refine ⟨_, Fields.get?_set_self _ _ _, fun b hmem => ?_⟩
      rw [blocks_of_own hbs] at hmem
      split_ifs at hmem
      · rcases mem_replaceFirst hmem with rfl | hmem
        · exact ht'
        · exact hok b hmem
      · rcases List.mem_append.mp hmem with hmem | hmem
        · exact hok b hmem
        · rwa [List.mem_singleton.mp hmem]

/-- The addressed block has an id, and so has what differs from it elsewhere. -/
theorem isSome_idOf_of_addressed {w : World ν} (hw : Rooted w) {e : Envelope ν} {target : JsObject ν}
    (haddressed : w.addressed e = some target) (hblock : e.block.isSome = true) {t : JsObject ν}
    (ht : Fields.get? t (.own "id") = Fields.get? target (.own "id")) : (idOf (toJsonObject t)).isSome = true := by
  obtain ⟨block, hb⟩ := Option.isSome_iff_exists.mp hblock
  obtain ⟨bs, hbs, hok⟩ := hw.blocks
  rw [World.addressed, hb, blocks_of_own hbs] at haddressed
  have hid := hok target (List.mem_of_find?_eq_some haddressed)
  rwa [idOf, get?_toJsonObject, ht, ← get?_toJsonObject, ← idOf]

/-- A masked set that stays on own properties. -/
theorem rooted_of_finishWrite {w w' : World ν} (hw : Rooted w) {e : Envelope ν} {k : String} {rest : List String}
    {v : Js ν} {target : JsObject ν} (hk : e.block.isSome = true → k ≠ "id") (haddressed : w.addressed e = some target)
    (hstays : stays target (k :: rest) = true)
    (h : w.finishWrite (w.readdress e) (k :: rest) (cloneJson v) target = .returned w') : Rooted w' := by
  obtain ⟨target', hdone, -⟩ := ownAt_writePath_of_stays (List.cons_ne_nil k rest) hstays (cloneJson v)
  have hother : k ≠ "id" → Fields.get? target' (.own "id") = Fields.get? target (.own "id") := by
    intro hne
    have := get?_writePath_of_ne hne.symm target rest (cloneJson v)
    rwa [hdone] at this
  rw [World.finishWrite, hw.shared, hdone] at h
  obtain rfl : w.readdress e target' = w' := by simpa using h
  exact hw.readdress fun hblock => isSome_idOf_of_addressed hw haddressed hblock (hother (hk hblock))

theorem isSome_idOf_of_validateBlock {block : JsonObject ν} (h : validateBlock [] (ofJsonObject block) = .ok ()) :
    (idOf (toJsonObject (cloneObject (ofJsonObject block)))).isSome = true := by
  obtain ⟨id, hid, -⟩ := exists_idOf_of_blockOk ((validateBlock_eq_ok_iff block).mp h)
  rw [← copyObject, idOf_copyObject, hid]
  rfl

theorem rooted_upsertBlock {w w' : World ν} (hw : Rooted w) {e : Envelope ν} {block : JsonObject ν}
    (hblock : e.block = some block) (h : upsertBlock w (ofJsonObject block) = .returned w') : Rooted w' := by
  obtain ⟨bs, hbs, hok⟩ := hw.blocks
  obtain ⟨haddressed, hput, hadd⟩ := addressed_of_find? hblock hbs hok
  unfold upsertBlock at h
  split at h
  · cases h
  · next hvalid =>
    rw [hw.shared, seq_eq_ok] at hvalid
    simp only [ensureBlocks_of_own hbs, hw.shared] at h
    obtain rfl : w.readdress e (cloneObject (ofJsonObject block)) = w' := by
      rw [← Applied.returned.injEq, ← h]
      split_ifs with hany
      · rw [hput _ (by rw [haddressed, List.find?_isSome]; exact List.any_eq_true.mp hany)]
      · rw [hadd _ (by rw [haddressed, List.find?_eq_none]; simpa using hany)]
    exact hw.readdress fun _ => isSome_idOf_of_validateBlock hvalid.1

theorem rooted_append {w w' : World ν} (hw : Rooted w) {e : Envelope ν} (hop : e.op = .append)
    (h : applyPatch w e = .returned w') : Rooted w' := by
  obtain ⟨hvalid, h⟩ := applyPatch_eq_returned.mp h
  obtain ⟨block, hblock, -, happend, hfield⟩ := payload_of_append hw hop hvalid
  rw [happend] at h
  cases hargs : appendArguments (e.mask.getD "") (ofJsonObject block) with
  | error r => simp [applyAppend, hargs] at h
  | ok a =>
    obtain ⟨field, next⟩ := a
    rw [applyAppend_of_addressed hw hblock hargs] at h
    cases htarget : w.addressed e with
    | none =>
      rw [htarget] at h
      obtain ⟨u, hblockOk, rfl⟩ := Applied.state?_ofExcept.mp (Applied.state?_eq_some.mpr h)
      exact hw.readdress fun _ => isSome_idOf_of_validateBlock (seq_eq_ok.mp hblockOk).2
    | some target =>
      rw [htarget] at h
      obtain ⟨b, hb, rfl⟩ := Applied.state?_ofExcept.mp (Applied.state?_eq_some.mpr h)
      refine hw.readdress fun hsome => isSome_idOf_of_addressed hw htarget hsome ?_
      rw [appendToBlock, seq_eq_ok, bind_eq_ok] at hb
      obtain ⟨-, v, -, hb⟩ := hb
      obtain rfl : assign [] target field v = b := Except.ok.inj hb
      exact get?_writePath_of_ne (hfield field next hargs).symm target [] v

/-- An error sets `meta.error`. -/
theorem rooted_error {w w' : World ν} (hw : Rooted w) {e : Envelope ν} (hop : e.op = .error)
    (h : applyPatch w e = .returned w') : Rooted w' := by
  obtain ⟨hvalid, h⟩ := applyPatch_eq_returned.mp h
  have hblock : e.block = none := by
    simp only [parsePatchEvent, seq_eq_ok, hw.shared, validatePayload, hop, validateError, check_eq_ok] at hvalid
    obtain ⟨-, -, -, -, hvalid⟩ := hvalid
    split at hvalid
    · cases hvalid
    · rw [seq_eq_ok, check_eq_ok, check_eq_ok, Option.isNone_iff_eq_none] at hvalid
      exact hvalid.2
  have hsource : ((e.meta_.map ofJsonObject).getD []) = ofJsonObject (e.meta_.getD []) := by
    cases e.meta_ <;> rfl
  simp only [applyEvent, hop, hw.shared, metaOf_nil, hsource] at h
  obtain ⟨root, k, rest, v, target, hargs, haddressed, hfinish⟩ :=
    exists_finishWrite_of_meta hw hblock (by decide) h
  obtain ⟨value, -, hpython⟩ := setArguments_ofJsonObject hargs
  obtain ⟨relative, hcut, hpath, -⟩ := Python.setArguments_eq_ok hpython
  obtain ⟨rfl, rfl⟩ : k = "error" ∧ rest = [] := by
    obtain ⟨-, rfl⟩ : "meta" = root ∧ "error" = relative := by
      rwa [show Text.cut "meta.error" '.' = some ("meta", "error") by decide, Option.some.injEq, Prod.mk.injEq] at hcut
    exact List.cons.inj (hpath.trans (by decide))
  refine rooted_of_finishWrite hw (fun hsome => by simp [hblock] at hsome) haddressed ?_ hfinish
  have hlocal := local_readMember (show "error" ≠ "__proto__" by decide) target
  rw [stays]
  generalize readMember [] target "error" = m at hlocal
  cases hlocal <;> rfl

/-- One event whose names are own ones. -/
theorem rooted_step {w w' : World ν} (hw : Rooted w) {e : Envelope ν} (hnames : Masked e → ownNames w e = true)
    (h : applyPatch w e = .returned w') : Rooted w' := by
  cases hop : e.op with
  | start => exact .of_sound (sound_start hw.shared hop (Applied.state?_eq_some.mpr h))
  | set =>
    cases hmask : e.mask with
    | none =>
      obtain ⟨hvalid, h⟩ := applyPatch_eq_returned.mp h
      simp only [parsePatchEvent, seq_eq_ok, hw.shared, validatePayload, hop, typeScript_set_iff, hmask] at hvalid
      simp only [applyEvent, hop, applySet, hw.shared, maskOf_nil, hmask] at h
      rcases hm : e.meta_ with _ | m <;> rcases hb : e.block with _ | block <;> simp only [hm, hb] at hvalid h
      · exact (hvalid.2.2.2).elim
      · exact rooted_upsertBlock hw hb h
      · exact (hvalid.2.2.2).elim
      · exact (hvalid.2.2.2).elim
    | some mask =>
      have hsome : e.mask.isSome = true := by rw [hmask]; rfl
      obtain ⟨root, k, rest, v, target, hargs, hk, haddressed, hfinish⟩ := exists_finishWrite_of_set hw hop hsome h
      have hstays := ((ownNames_set_iff hop hargs haddressed).mp (hnames (.inl ⟨hop, hsome⟩))).1
      exact rooted_of_finishWrite hw hk haddressed hstays hfinish
  | append => exact rooted_append hw hop h
  | error => exact rooted_error hw hop h
  | ping =>
    obtain ⟨-, h⟩ := applyPatch_eq_returned.mp h
    obtain rfl : w = w' := by simpa [applyEvent, hop] using h
    exact hw
  | end_ =>
    obtain ⟨-, h⟩ := applyPatch_eq_returned.mp h
    obtain rfl : w = w' := by simpa [applyEvent, hop] using h
    exact hw

/-- Every masked set and every append of a run names own properties of the world that it meets. -/
def NamesOwn (w₀ : World ν) (events : List (Envelope ν)) : Prop :=
  ∀ p e w, p ++ [e] <+: events → (applyPatches w₀ p).state? = some w → Masked e → ownNames w e = true

/-- What a run comes to that begins with a start in a fresh process. -/
theorem rooted_of_namesOwn {w₀ : World ν} (hfresh : w₀.shared = []) {events : List (Envelope ν)}
    (hstart : StartsRun events) (hown : NamesOwn w₀ events) :
    ∀ p, p <+: events → p ≠ [] → ∀ w, (applyPatches w₀ p).state? = some w → Rooted w := by
  intro p
  induction p using List.reverseRecOn with
  | nil => exact fun _ h => absurd rfl h
  | append_singleton p e ih =>
    intro hp _ w' hw'
    rw [applyPatches, Applied.run_concat] at hw'
    obtain ⟨w, hw, hstep⟩ := Option.bind_eq_some_iff.mp hw'
    by_cases hne : p = []
    · subst hne
      obtain rfl : w₀ = w := Option.some.inj hw
      exact .of_sound (sound_start hfresh (hstart.op_of_singleton hp) hstep)
    · exact rooted_step (ih ((List.prefix_append p [e]).trans hp) hne w hw) (hown p e w hp hw)
        (Applied.state?_eq_some.mp hstep)

/-- An append that is accepted, or open, meets an inline block. -/
theorem inline_of_scope {w : World ν} (hw : Rooted w) {e : Envelope ν} (hop : e.op = .append) {field : String}
    {next : Js ν} (hargs : appendArguments (e.mask.getD "") (payloadOf e) = .ok (field, next)) {target : JsObject ν}
    (htarget : w.addressed e = some target) (hscope : (∃ w', applyPatch w e = .returned w') ∨ OpenAppend w e) :
    hasOwn target "ref" = false ∧
      ((∃ b, appendToBlock [] field next target = .ok b) ∨ hasOwn target field = false) := by
  rcases hscope with ⟨w', hw'⟩ | ⟨-, -, field', next', target', hargs', htarget', hinline, hopen⟩
  · obtain ⟨hvalid, happly⟩ := applyPatch_eq_returned.mp hw'
    obtain ⟨block, hblock, hpayload, happend, -⟩ := payload_of_append hw hop hvalid
    rw [happend, applyAppend_of_addressed hw hblock (hpayload ▸ hargs), htarget] at happly
    obtain ⟨b, hb, -⟩ := Applied.state?_ofExcept.mp (Applied.state?_eq_some.mpr happly)
    have hinline := hb
    rw [appendToBlock, seq_eq_ok, requireInlineBlock, check_eq_ok, Bool.not_eq_true'] at hinline
    exact ⟨hinline.1, .inl ⟨b, hb⟩⟩
  · obtain ⟨rfl, -⟩ : field = field' ∧ next = next' := by simpa [hargs] using hargs'
    obtain rfl : target = target' := by simpa [htarget] using htarget'
    exact ⟨hinline, .inr hopen⟩

/-- An append that is accepted, or open. -/
theorem lawful_append_iff_ownNames {w : World ν} (hw : Rooted w) {e : Envelope ν} (hop : e.op = .append)
    (hscope : (∃ w', applyPatch w e = .returned w') ∨ OpenAppend w e) : Lawful w e ↔ ownNames w e = true := by
  have hvalid : parsePatchEvent w.shared e = .ok () := by
    rcases hscope with ⟨w', hw'⟩ | ⟨-, hvalid, -⟩
    · exact (applyPatch_eq_returned.mp hw').1
    · exact hvalid
  obtain ⟨block, -, hpayload, happend, -⟩ := payload_of_append hw hop hvalid
  cases hargs : appendArguments (e.mask.getD "") (payloadOf e) with
  | error r =>
    refine absurd hscope (not_or.mpr ⟨?_, ?_⟩)
    · rintro ⟨w', hw'⟩
      rw [applyPatch_eq_returned, happend, applyAppend, ← hpayload, hargs] at hw'
      cases hw'.2
    · rintro ⟨-, -, field, next, target, hargs', -⟩
      rw [hargs] at hargs'
      cases hargs'
  | ok a =>
    obtain ⟨field, next⟩ := a
    cases htarget : w.addressed e with
    | none =>
      have hnames : ownNames w e = true ↔ field ≠ "__proto__" ∧ plain next = true := by
        simp [ownNames, hop, hargs, htarget, Except.toOption]
      rw [hnames]
      rcases hscope with ⟨w', hw'⟩ | ⟨-, -, -, -, target, -, htarget', -⟩
      · exact lawful_append_missing_iff hw hop hw' hargs htarget
      · rw [htarget] at htarget'
        cases htarget'
    | some target =>
      have hnames : ownNames w e = true ↔ extendsOwn target field next = true ∧ plain next = true := by
        simp [ownNames, hop, hargs, htarget, Except.toOption]
      obtain ⟨hinline, hcases⟩ := inline_of_scope hw hop hargs htarget hscope
      rw [lawful_append_iff hw hop hvalid hargs htarget hinline, hnames]
      exact appendsOwn_iff hinline hcases (appendArguments_eq_ok hargs).2

/-- In a run that begins with a start in a fresh process and whose events so far name own properties, a masked set that
is accepted, and an append that is accepted or open, write the addressed state only exactly when they do so, too. -/
theorem lawful_iff_ownNames {w₀ w : World ν} (hfresh : w₀.shared = []) {events : List (Envelope ν)}
    (hstart : StartsRun events) (hown : NamesOwn w₀ events) (hrun : (applyPatches w₀ events).state? = some w)
    {e : Envelope ν} (hmasked : Masked e) (hscope : (∃ w', applyPatch w e = .returned w') ∨ OpenAppend w e) :
    Lawful w e ↔ ownNames w e = true := by
  have hne : events ≠ [] := by
    obtain ⟨first, rest, rfl, -⟩ := hstart
    exact List.cons_ne_nil first rest
  have hw := rooted_of_namesOwn hfresh hstart hown events (List.prefix_refl _) hne w hrun
  rcases hmasked with ⟨hop, hmask⟩ | hop
  · refine lawful_set_iff hw hop hmask (hscope.resolve_right fun hopen => ?_)
    rw [OpenAppend, hop] at hopen
    cases hopen.1
  · exact lawful_append_iff_ownNames hw hop hscope

/-- A start without blocks. -/
def emptyStart : Envelope ℕ :=
  ⟨.start, 1, none, none, none, none,
    some [("version", .str "1.1"), ("biz", .str "b"), ("meta", .obj []), ("blocks", .arr [])], none, none⟩

/-- A set below `meta` whose path begins with a name. -/
def setsBelow (name : String) : Envelope ℕ :=
  ⟨.set, 2, none, none, some ("meta." ++ name ++ ".polluted"), none, none, some [("polluted", .num 1)], none⟩

/-- The snapshot that the start leaves, with another meta object. -/
def emptySnapshot (record : JsObject ℕ) : JsObject ℕ :=
  [(.own "version", .str "1.1"), (.own "biz", .str "b"), (.own "meta", .obj record), (.own "blocks", .arr [])]

theorem applyPatch_emptyStart : applyPatch ⟨[], []⟩ emptyStart = .returned ⟨[], emptySnapshot []⟩ := by
  decide +kernel

/-- A set through `__proto__` leaves its value in `Object.prototype`, where every object of the process reads it. -/
theorem prototype_is_polluted :
    applyPatch ⟨[], []⟩ emptyStart = .returned ⟨[], emptySnapshot []⟩ ∧ Masked (setsBelow "__proto__") ∧
      applyPatch ⟨[], emptySnapshot []⟩ (setsBelow "__proto__") =
        .returned ⟨[(.own "polluted", .num 1)], emptySnapshot []⟩ ∧
      ¬ Lawful ⟨[], emptySnapshot []⟩ (setsBelow "__proto__") := by
  have hset : applyPatch ⟨[], emptySnapshot []⟩ (setsBelow "__proto__") =
      .returned ⟨[(.own "polluted", .num 1)], emptySnapshot []⟩ := by decide +kernel
  refine ⟨applyPatch_emptyStart, .inl ⟨rfl, rfl⟩, hset, fun h => ?_⟩
  obtain ⟨-, -, target, -, hwrites, -⟩ := h.writes _ hset
  have hshared := congrArg World.shared hwrites
  rw [readdress_shared] at hshared
  cases hshared

/-- A set through `toString`, which every object inherits, makes an own property. -/
theorem lawful_iff_ownNames_toString : Lawful ⟨[], emptySnapshot []⟩ (setsBelow "toString") := by
  have hset : applyPatch ⟨[], emptySnapshot []⟩ (setsBelow "toString") =
      .returned ⟨[], emptySnapshot [(.own "toString", .obj [(.own "polluted", .num 1)])]⟩ := by decide +kernel
  refine (@lawful_iff_ownNames ℕ ⟨[], []⟩ _ rfl [emptyStart] ⟨_, _, rfl, rfl⟩ ?_ ?_ _ (.inl ⟨rfl, rfl⟩)
    (.inl ⟨_, hset⟩)).mpr (by decide +kernel)
  · -- the start is no masked event
    intro p e w hp _ hmasked
    obtain ⟨rfl, rfl⟩ : p = [] ∧ e = emptyStart := by
      cases p with
      | nil => simpa using hp
      | cons a p => simpa using hp.length_le
    rcases hmasked with ⟨hop, -⟩ | hop <;> cases hop
  · rw [applyPatches, Applied.run, applyPatch_emptyStart]
    rfl

end AgentUE.TypeScript
