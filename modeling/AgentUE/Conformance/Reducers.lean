import AgentUE.Conformance.Validators
import AgentUE.Python.Reducer
import AgentUE.Go.Reducer

/-!
# The Python and the Go reducer side by side

Both reducers are folded over one sequence of events. On the snapshots that such runs reach they take
the same step, with three exceptions, all of them appends; `Splits` lists them and
`agree_iff_not_splits` shows that nothing else tells the two reducers apart, as long as the copies that
both make of the payloads succeed: `copy.deepcopy` gives up on values nested beyond the recursion limit.
-/

namespace AgentUE.Conformance

open Data

variable {ν : Type}

section

variable [DecidableEq ν]

/-- The state of the Python fold from an empty snapshot, while every event is accepted. -/
def pythonRun (events : List (Envelope ν)) : Option (JsonObject ν) := (Python.applyPatches [] events).state?

/-- The state of the Go fold from an empty snapshot. -/
def goRun (events : List (Envelope ν)) : Option (Option (Go.Map ν)) :=
  (Go.applyAll (some []) (events.map Go.decoded)).state?

end

/-- Both folds have rejected an event, or they hold the same JSON value. -/
def Agree (p : Option (JsonObject ν)) (g : Option (Option (Go.Map ν))) : Prop :=
  match p, g with
  | none, none => True
  | some s, some (some m) => DocTree.Same (.obj s) (.obj (Go.marshalSnapshot m))
  | _, _ => False

/-- A value that may be appended: a string or a list. -/
def appendable (value : Json ν) : Bool := value.asStr.isSome || value.asArr.isSome

/-- Where the two reducers part, for an append of `value` to `field` of a block that is `found` in the
snapshot. When the block is missing, Go adds it whatever the value is, and checks its `group_id`; Python
wants a string or a list, and does not look at `group_id`. When it is there and the field is not, Go
stores an empty list as a nil slice. -/
def AppendSplits (block : JsonObject ν) (field : String) (value : Json ν) :
    Option (JsonObject ν) → Prop
  | none =>
    (appendable value = false ∧ blockOk Go.rules block = true) ∨
      (appendable value = true ∧ blockOk Python.rules block = true ∧ groupIdOk block = false)
  | some existing => Fields.has existing "ref" = false ∧ value = .arr [] ∧
      (Fields.get? existing field).getD .null = .null

/-- The steps at which the two reducers part, from a common snapshot. -/
def Splits (s : JsonObject ν) (e : Envelope ν) : Prop :=
  e.op = .append ∧ ∃ block field id value, e.block = some block ∧
    Go.appendArguments (e.mask.getD "") block = .ok (field, id, value) ∧
    AppendSplits block field value (blockWithId s id)

/-! ## Snapshots that runs reach -/

/-- The parts of a valid snapshot that the reducers rely on. -/
structure Standing (s : JsonObject ν) (blocks : List (JsonObject ν)) : Prop where
  hmeta : ∃ m, Fields.get? s "meta" = some (.obj m)
  hblocks : Fields.get? s "blocks" = some (.arr (blocks.map .obj))
  hids : ∀ b ∈ blocks, memberIs DocTree.isNonEmptyStr b "id" = true
  hnodup : (blocks.map idOf).Nodup

theorem get?_ofJsonObject_blocks {s : JsonObject ν} {blocks : List (JsonObject ν)}
    (h : Fields.get? s "blocks" = some (.arr (blocks.map .obj))) :
    Fields.get? (Go.ofJsonObject s) "blocks" = some (.arr ((blocks.map Go.ofJsonObject).map .obj)) := by
  unfold Go.ofJsonObject
  rw [DocTree.get?_mapFields, h]
  simp only [Option.map_some, DocTree.map, DocTree.mapList_eq_map, List.map_map]
  rfl

section

variable [DecidableEq ν]

/-- The shape shared by the block loops: the same test, corresponding bodies and additions. -/
theorem patchBlocks_agree {s : JsonObject ν} {blocks : List (JsonObject ν)} (hs : Standing s blocks)
    {pid : Option (Json ν)} {gid : String} {f : JsonObject ν → Except Rejection (JsonObject ν)}
    {h : Go.Map ν → Except Go.Failure (Go.Map ν)} {m : Except Rejection (List (JsonObject ν))}
    {n : Except Go.Failure (List (Go.Map ν))}
    (hid : ∀ b ∈ blocks, Python.idEquals pid b = Go.hasID gid (Go.ofJsonObject b))
    (hf : ∀ b ∈ blocks, Python.idEquals pid b = true →
      (h (Go.ofJsonObject b)).toOption = (f b).toOption.map Go.ofJsonObject)
    (hm : (∀ b ∈ blocks, Python.idEquals pid b = false) →
      n.toOption = m.toOption.map (List.map Go.ofJsonObject)) :
    (Go.patchBlocks (some (Go.ofJsonObject s)) gid h n).state? =
      (Python.patchBlocks s pid f m).state?.map (some ∘ Go.ofJsonObject) := by
  rw [Go.patchBlocks_state? (get?_ofJsonObject_blocks hs.hblocks), Python.patchBlocks_state? hs.hblocks,
    updateFirst_map (m := m) (f := f) (p := fun b => .ok (Python.idEquals pid b)) Go.ofJsonObject
      (fun b hb => ⟨_, rfl, by rw [hid b hb]⟩) (fun b hb hb' => hf b hb (by simpa using hb'))
      (fun hall => hm fun b hb => by simpa using hall b hb)]
  cases (updateFirst (fun b => .ok (Python.idEquals pid b)) f m blocks).toOption with
  | none => rfl
  | some bs =>
    simp only [Option.map_some, Function.comp_apply, Go.ofJsonObject, DocTree.mapFields_set, DocTree.map,
      DocTree.mapList_eq_map, List.map_map]
    rfl

/-- A test for an id that is a string picks the same blocks. -/
theorem idEquals_eq_hasID (id : String) (b : JsonObject ν) :
    Python.idEquals (some (.str id)) b = Go.hasID id (Go.ofJsonObject b) := by
  rw [Python.idEquals_str, Go.hasID_ofJsonObject]

/-- The id of a masked payload may be anything: blocks with a non-empty id are picked alike. -/
theorem idEquals_source_eq_hasID {source b : JsonObject ν} (hb : memberIs DocTree.isNonEmptyStr b "id" = true) :
    Python.idEquals (Fields.get? source "id") b =
      Go.hasID (Go.stringAt source "id") (Go.ofJsonObject b) := by
  obtain ⟨v, hv, hp⟩ := memberIs_iff.mp hb
  obtain ⟨id, rfl, hid⟩ := DocTree.isNonEmptyStr_iff.mp hp
  rw [Go.hasID_ofJsonObject, Bool.eq_iff_iff]
  simp only [Python.idEquals, Go.stringAt, idOf, hv, Option.getD_some, Option.bind_some, DocTree.asStr_str,
    decide_eq_true_eq, beq_iff_eq, Option.some.injEq]
  cases hsrc : Fields.get? source "id" with
  | none => simpa using fun h => hid h
  | some w =>
    cases hw : w.asStr with
    | none =>
      have hne : w ≠ .str id := fun h => by simp [h] at hw
      simp [hw, hid, hne.symm]
    | some t =>
      rw [DocTree.asStr_eq_some.mp hw]
      simp

end

/-! ## Set and error -/

theorem setArguments_agree (mask : String) (source : JsonObject ν) :
    (Go.setArguments mask source).toOption = (Python.setArguments mask source).toOption := by
  unfold Go.setArguments Python.setArguments Go.readPath Python.readPath
  cases Text.cut mask '.' with
  | none => rfl
  | some p =>
    by_cases hrel : (p.2 != "") = true
    · simp only [hrel, check, if_true, bind, Except.bind]
      cases readPathOrLeaf source (Text.split p.2 '.') <;> rfl
    · simp only [hrel, check, bind, Except.bind]
      rfl

theorem setMeta_agree {s : JsonObject ν} {blocks : List (JsonObject ν)} (hs : Standing s blocks)
    (path : List String) (value : Json ν) :
    (Go.setMeta (some (Go.ofJsonObject s)) path value).state? =
      (Python.setMeta s path value).state?.map (some ∘ Go.ofJsonObject) := by
  obtain ⟨m, hm⟩ := hs.hmeta
  have hchild : DocTree.childAt (DocTree.mapFields Go.Leaf.json s) "meta" = DocTree.mapFields Go.Leaf.json m := by
    rw [DocTree.childAt_mapFields, DocTree.childAt, hm]
    rfl
  unfold Python.setMeta Go.setMeta Go.writePath Python.writePath
  rw [setDefault_of_get? hm]
  simp only [hm, Option.bind_some, DocTree.asObj, Applied.state?_returned, Option.map_some, Function.comp_apply,
    Go.ofJsonObject, DocTree.mapFields_set, DocTree.map, DocTree.mapFields_writeAt, hchild, Go.ofJson]

theorem setInBlock_agree (path : List String) (value : Json ν) (b : JsonObject ν) :
    (Go.setInBlock path value (Go.ofJsonObject b)).toOption =
      (Python.setInBlock path value b).toOption.map Go.ofJsonObject := by
  unfold Go.setInBlock Python.setInBlock Go.requireInlineBlock Python.requireInlineBlock Go.writePath
    Python.writePath
  have hhas : Fields.has (Go.ofJsonObject b) "ref" = Fields.has b "ref" := DocTree.has_mapFields b "ref"
  rw [hhas]
  cases Fields.has b "ref" with
  | true => rfl
  | false =>
    simp only [check, Bool.not_false, if_true, bind, Except.bind, pure, Except.pure, Except.toOption,
      Option.map_some, Go.ofJsonObject, DocTree.mapFields_writeAt, Go.ofJson]

section

variable [DecidableEq ν]

theorem setByMask_agree {s : JsonObject ν} {blocks : List (JsonObject ν)} (hs : Standing s blocks)
    (mask : String) (source : JsonObject ν) :
    (Go.setByMask (some (Go.ofJsonObject s)) mask source).state? =
      (Python.setByMask s mask source).state?.map (some ∘ Go.ofJsonObject) := by
  have hargs := setArguments_agree mask source
  unfold Go.setByMask Python.setByMask
  cases hp : Python.setArguments mask source with
  | error r =>
    cases hg : Go.setArguments mask source with
    | error f => rfl
    | ok a => simp [hp, hg, Except.toOption] at hargs
  | ok a =>
    cases hg : Go.setArguments mask source with
    | error f => simp [hp, hg, Except.toOption] at hargs
    | ok a' =>
      obtain rfl : a' = a := by simpa [hp, hg, Except.toOption] using hargs
      obtain ⟨root, path, value⟩ := a'
      simp only
      split_ifs
      · exact setMeta_agree hs path value
      · exact patchBlocks_agree hs (fun b hb => idEquals_source_eq_hasID (hs.hids b hb))
          (fun b _ _ => setInBlock_agree path value b) (fun _ => rfl)
      · rfl

theorem upsertBlock_agree {s : JsonObject ν} {blocks : List (JsonObject ν)} (hs : Standing s blocks)
    {block : JsonObject ν} (hpython : blockOk Python.rules block = true)
    (hgo : blockOk Go.rules block = true) :
    (Go.upsertBlock (some (Go.ofJsonObject s)) block).state? =
      (Python.upsertBlock s block).state?.map (some ∘ Go.ofJsonObject) := by
  have hid := memberIs_id_of_blockOk hpython
  obtain ⟨id, hidOf, -⟩ := exists_idOf_of_blockOk hpython
  have hversion : (!Go.memberEquals "version" protocolVersion (Go.ofJsonObject s)) =
      (Fields.get? s "version" != some (.str protocolVersion)) := by
    rw [Go.memberEquals_ofJsonObject]
    cases Fields.get? s "version" with
    | none => rfl
    | some v =>
      rw [Bool.eq_iff_iff]
      simp
  have hstring : Go.stringAt block "id" = id := by
    have : (Fields.get? block "id").bind DocTree.asStr = some id := hidOf
    rw [Go.stringAt, this, Option.getD_some]
  unfold Go.upsertBlock Python.upsertBlock Go.upsertArguments Python.upsertArguments
  rw [(Go.validateBlock_eq_ok_iff block).mpr hgo, (Python.validateBlock_eq_ok_iff block).mpr hpython,
    Option.getD_some, hversion, hid, hidOf, hstring, setDefault_of_get? hs.hblocks]
  by_cases hv : (Fields.has block "ref" && (Fields.get? s "version" != some (.str protocolVersion))) = true
  · simp [hv, check, bind, Except.bind]
  · simp only [hv, check, bind, Except.bind, Bool.not_false, if_true, pure, Except.pure, Option.getD_some]
    exact patchBlocks_agree hs (fun b _ => idEquals_eq_hasID id b) (fun _ _ _ => rfl) (fun _ => rfl)

end

/-! ## Append -/

/-- The arguments that Python accepts are Go's, with a string or a list as the value. -/
theorem appendArguments_python_iff (mask : String) (block : JsonObject ν) (a : String × String × Json ν) :
    Python.appendArguments mask block = .ok a ↔
      Go.appendArguments mask block = .ok a ∧ appendable a.2.2 = true := by
  unfold Python.appendArguments Go.appendArguments
  rw [seq_eq_ok, seq_eq_ok, seq_eq_ok, seq_eq_ok, check_eq_ok, check_eq_ok, check_eq_ok, check_eq_ok,
    and_assoc, and_assoc, bne_iff_ne, Go.stringAt_ne_iff]
  refine and_congr_right fun _ => and_congr_right fun _ => ?_
  have hid : (idOf block).getD "" = Go.stringAt block "id" := rfl
  rw [hid]
  cases Fields.get? block (Text.dropPrefix mask "block.") with
  | none => simp
  | some value =>
    simp only [seq_eq_ok, check_eq_ok, pure, Except.pure, Except.ok.injEq, appendable]
    constructor
    · rintro ⟨hvalue, rfl⟩
      exact ⟨rfl, hvalue⟩
    · rintro ⟨rfl, hvalue⟩
      exact ⟨hvalue, rfl⟩

theorem appendable_iff {value : Json ν} :
    appendable value = true ↔ (∃ s, value = .str s) ∨ ∃ xs, value = .arr xs := by
  simp [appendable, Option.isSome_iff_exists]

/-- On a block that is there, the two bodies agree unless Go makes a nil slice. -/
theorem appendToBlock_agree (field : String) {value : Json ν} (hvalue : appendable value = true)
    {b : JsonObject ν}
    (h : ¬ (Fields.has b "ref" = false ∧ value = .arr [] ∧ (Fields.get? b field).getD .null = .null)) :
    (Go.appendToBlock field value (Go.ofJsonObject b)).toOption =
      (Python.appendToBlock field value b).toOption.map Go.ofJsonObject := by
  unfold Go.appendToBlock Python.appendToBlock Go.requireInlineBlock Python.requireInlineBlock
  have hhas : Fields.has (Go.ofJsonObject b) "ref" = Fields.has b "ref" := DocTree.has_mapFields b "ref"
  have hget : Fields.get? (Go.ofJsonObject b) field = (Fields.get? b field).map Go.ofJson :=
    DocTree.get?_mapFields b field
  have hset : ∀ v : Json ν, Fields.set (Go.ofJsonObject b) field (Go.ofJson v) =
      Go.ofJsonObject (Fields.set b field v) := fun v => (DocTree.mapFields_set b field v).symm
  rw [hhas]
  cases href : Fields.has b "ref" with
  | true => rfl
  | false =>
    rw [hget]
    simp only [check, Bool.not_false, if_true, bind, Except.bind, pure, Except.pure]
    obtain ⟨added, rfl⟩ | ⟨added, rfl⟩ := appendable_iff.mp hvalue
    · rcases Fields.get? b field with _ | (_ | _ | _ | old) | _ | _
      exacts [congrArg some (hset (.str added)), congrArg some (hset (.str added)), rfl, rfl,
        congrArg some (hset (.str (old ++ added))), rfl, rfl]
    · have hne : (Fields.get? b field).getD .null = .null → added ≠ [] :=
        fun hold hadded => h ⟨href, by rw [hadded], hold⟩
      generalize Fields.get? b field = stored at hne ⊢
      rcases stored with _ | (_ | _ | _ | _) | old | _
      · simp only [Option.map_none, if_neg (hne rfl)]
        exact congrArg some (hset (.arr added))
      · simp only [Option.map_some, Go.ofJson, DocTree.map, if_neg (hne rfl)]
        exact congrArg some (hset (.arr added))
      · rfl
      · rfl
      · rfl
      · have happend : Go.ofJson (.arr (old ++ added)) =
            (.arr (DocTree.mapList .json old ++ DocTree.mapList .json added) : Go.Any ν) := by
          simp only [Go.ofJson, DocTree.map, DocTree.mapList_eq_map, List.map_append]
        exact congrArg some ((congrArg _ happend).symm.trans (hset (.arr (old ++ added))))
      · rfl

theorem blockWithId_eq {s : JsonObject ν} {blocks : List (JsonObject ν)} (hs : Standing s blocks) (id : String) :
    blockWithId s id = blocks.find? fun b => idOf b == some id := by
  simp [blockWithId, hs.hblocks, DocTree.asArr, DocTree.asObjs_map_obj]

theorem any_hasID_iff {blocks : List (JsonObject ν)} {id : String} :
    ((blocks.map Go.ofJsonObject).any (Go.hasID id)) = true ↔
      ∃ b, (blocks.find? fun b => idOf b == some id) = some b := by
  rw [← Option.isSome_iff_exists, List.find?_isSome]
  simp [Go.hasID_ofJsonObject]

/-- No value that is not a string or a list is ever appended. -/
theorem go_appendToBlock_ne_ok {field : String} {value : Json ν} (hvalue : appendable value = false)
    (b b' : Go.Map ν) : Go.appendToBlock field value b ≠ .ok b' := by
  unfold Go.appendToBlock
  intro h
  rw [seq_eq_ok] at h
  obtain ⟨-, h⟩ := h
  cases value with
  | leaf a => cases a <;> simp_all [appendable, DocTree.asStr]
  | arr xs => simp [appendable, DocTree.asArr] at hvalue
  | obj fs => simp at h

/-- Go refuses any other value for a block that is there. -/
theorem go_append_existing_rejects {s : JsonObject ν} {blocks : List (JsonObject ν)} (hs : Standing s blocks)
    {field id : String} {value : Json ν} {existing : JsonObject ν} (hvalue : appendable value = false)
    (hfind : (blocks.find? fun b => idOf b == some id) = some existing) :
    (Go.patchBlocks (some (Go.ofJsonObject s)) id (Go.appendToBlock field value) (.ok [])).state? = none := by
  rw [Go.patchBlocks_state? (get?_ofJsonObject_blocks hs.hblocks)]
  cases hu : updateFirst (fun current => .ok (Go.hasID id current)) (Go.appendToBlock field value) (.ok [])
      (blocks.map Go.ofJsonObject) with
  | error f => rfl
  | ok bs =>
    rcases updateFirst_eq_ok.mp hu with ⟨pre, b, b', post, -, -, -, hb, -⟩ | ⟨added, hall, -⟩
    · exact absurd hb (go_appendToBlock_ne_ok hvalue b b')
    · have hany := any_hasID_iff.mpr ⟨existing, hfind⟩
      rw [List.any_eq_true] at hany
      obtain ⟨b, hb, hb'⟩ := hany
      simp [hall b hb] at hb'

section

variable [DecidableEq ν]

/-- An append to a block that is there. -/
theorem append_existing_agree {s : JsonObject ν} {blocks : List (JsonObject ν)} (hs : Standing s blocks)
    {field id : String} {value : Json ν} {existing : JsonObject ν} (hvalue : appendable value = true)
    (hfind : (blocks.find? fun b => idOf b == some id) = some existing)
    (hsplit : ¬ (Fields.has existing "ref" = false ∧ value = .arr [] ∧
      (Fields.get? existing field).getD .null = .null))
    (missing : Except Rejection (List (JsonObject ν))) :
    (Go.patchBlocks (some (Go.ofJsonObject s)) id (Go.appendToBlock field value) (.ok [])).state? =
      (Python.patchBlocks s (some (.str id)) (Python.appendToBlock field value) missing).state?.map
        (some ∘ Go.ofJsonObject) := by
  have hmem := List.mem_of_find?_eq_some hfind
  have hid : idOf existing = some id := by simpa using List.find?_some hfind
  refine patchBlocks_agree hs (fun b _ => idEquals_eq_hasID id b) (fun b hb hb' => ?_) (fun hall => ?_)
  · -- ids are distinct, so this is the block that was found
    have hb'' : idOf b = some id := by simpa [Python.idEquals_str] using hb'
    obtain rfl : b = existing :=
      List.inj_on_of_nodup_map hs.hnodup hb hmem (hb''.trans hid.symm)
    exact appendToBlock_agree field hvalue hsplit
  · have := hall existing hmem
    simp [Python.idEquals_str, hid] at this

/-- Python refuses any other value, whatever the snapshot. -/
theorem python_applyAppend_rejects {s : JsonObject ν} {e : Envelope ν} {block : JsonObject ν}
    (hblock : e.block = some block) {field id : String} {value : Json ν}
    (hg : Go.appendArguments (e.mask.getD "") block = .ok (field, id, value))
    (hvalue : appendable value = false) : (Python.applyAppend s e).state? = none := by
  cases hp : Python.appendArguments (e.mask.getD "") block with
  | error r =>
    rw [Python.applyAppend_of_error hblock hp]
    rfl
  | ok a =>
    obtain ⟨hg', ha⟩ := (appendArguments_python_iff _ _ a).mp hp
    obtain rfl : (field, id, value) = a := by simpa [hg] using hg'
    simp [hvalue] at ha

/-- An append to a missing block that both SDKs find complete, or both do not. -/
theorem append_missing_agree {s : JsonObject ν} {blocks : List (JsonObject ν)} (hs : Standing s blocks)
    {field id : String} {value : Json ν} {block : JsonObject ν} (href : Fields.has block "ref" = false)
    (hid : Go.stringAt block "id" = id) (hgroup : blockOk Python.rules block = true → groupIdOk block = true)
    (hfind : (blocks.find? fun b => idOf b == some id) = none) :
    (Go.upsertBlock (some (Go.ofJsonObject s)) block).state? =
      (Python.patchBlocks s (some (.str id)) (Python.appendToBlock field value)
        (Python.appendMissing block)).state?.map (some ∘ Go.ofJsonObject) := by
  have hnone : ∀ b ∈ blocks, Python.idEquals (some (.str id)) b = false := by
    simpa [Python.idEquals_str] using hfind
  by_cases hok : blockOk Python.rules block = true
  · have hgo := (blockOk_go_iff block).mpr ⟨hok, hgroup hok⟩
    have hmissing := Python.appendMissing_of_blockOk hok href
    have hargs : Go.upsertArguments (some (Go.ofJsonObject s)) block = .ok id := by
      simp [Go.upsertArguments, (Go.validateBlock_eq_ok_iff block).mpr hgo, href, hid, check, bind,
        Except.bind, pure, Except.pure]
    unfold Go.upsertBlock
    rw [hargs, hmissing]
    refine patchBlocks_agree hs (fun b _ => idEquals_eq_hasID id b) (fun b hb hb' => ?_) (fun _ => rfl)
    simp [hnone b hb] at hb'
  · have hgo : ∀ i, Go.upsertArguments (some (Go.ofJsonObject s)) block ≠ .ok i := by
      intro i h
      rw [Go.upsertArguments, seq_eq_ok, Go.validateBlock_eq_ok_iff, blockOk_go_iff] at h
      exact hok h.1.1
    have hmissing : ∀ added, Python.appendMissing block ≠ .ok added := by
      intro added h
      exact hok (Python.appendMissing_eq_ok.mp h).2.1
    have hpython : (Python.patchBlocks s (some (.str id)) (Python.appendToBlock field value)
        (Python.appendMissing block)).state? = none := by
      rw [Python.patchBlocks_state? hs.hblocks]
      cases hu : updateFirst (fun b => .ok (Python.idEquals (some (.str id)) b))
          (Python.appendToBlock field value) (Python.appendMissing block) blocks with
      | error r => rfl
      | ok bs =>
        rcases updateFirst_eq_ok.mp hu with ⟨pre, b, b', post, rfl, -, hb, -⟩ | ⟨added, -, hadded, -⟩
        · simp [hnone b (by simp)] at hb
        · exact absurd hadded (hmissing added)
    rw [hpython]
    unfold Go.upsertBlock
    cases hargs : Go.upsertArguments (some (Go.ofJsonObject s)) block with
    | error f => rfl
    | ok i => exact absurd hargs (hgo i)

/-- Where nothing splits, the appends agree. The payload of an accepted append holds no reference. -/
theorem append_agree {s : JsonObject ν} {blocks : List (JsonObject ν)} (hs : Standing s blocks)
    {e : Envelope ν} {block : JsonObject ν} (hop : e.op = .append) (hblock : e.block = some block)
    (href : Fields.has block "ref" = false) (hsplit : ¬ Splits s e) :
    (Go.appendByMask (some (Go.ofJsonObject s)) (e.mask.getD "") block).state? =
      (Python.applyAppend s e).state?.map (some ∘ Go.ofJsonObject) := by
  have hargs := appendArguments_python_iff (e.mask.getD "") block
  unfold Go.appendByMask
  cases hg : Go.appendArguments (e.mask.getD "") block with
  | error f =>
    cases hp : Python.appendArguments (e.mask.getD "") block with
    | error r =>
      rw [Python.applyAppend_of_error hblock hp]
      rfl
    | ok a => simp [hg, hp] at hargs
  | ok a =>
    obtain ⟨field, id, value⟩ := a
    have hsplit' : ¬ AppendSplits block field value (blockWithId s id) :=
      fun h => hsplit ⟨hop, block, field, id, value, hblock, hg, h⟩
    rw [blockWithId_eq hs] at hsplit'
    have hid := Go.stringAt_of_idOf (Go.appendArguments_eq_ok hg).1
    have hany : ((blocks.map Go.ofJsonObject).any (Go.hasID id)) = true ↔
        ∃ b, (blocks.find? fun b => idOf b == some id) = some b := any_hasID_iff
    simp only [Go.blocksOf_eq_ok (get?_ofJsonObject_blocks hs.hblocks)]
    by_cases hvalue : appendable value = true
    · have hp : Python.appendArguments (e.mask.getD "") block = .ok (field, id, value) :=
        (hargs _).mpr ⟨hg, hvalue⟩
      rw [Python.applyAppend_of_ok hblock hp, setDefault_of_get? hs.hblocks]
      cases hfind : blocks.find? fun b => idOf b == some id with
      | some existing =>
        rw [if_pos (hany.mpr ⟨existing, hfind⟩)]
        rw [hfind] at hsplit'
        exact append_existing_agree hs hvalue hfind hsplit' (Python.appendMissing block)
      | none =>
        rw [if_neg (fun h => by simpa [hfind] using hany.mp h)]
        rw [hfind] at hsplit'
        refine append_missing_agree hs href hid (fun hok => ?_) hfind
        by_contra hgroup
        exact hsplit' (.inr ⟨hvalue, hok, by simpa using hgroup⟩)
    · have hvalue' : appendable value = false := by simpa using hvalue
      rw [python_applyAppend_rejects hblock hg hvalue']
      cases hfind : blocks.find? fun b => idOf b == some id with
      | some existing =>
        rw [if_pos (hany.mpr ⟨existing, hfind⟩)]
        exact go_append_existing_rejects hs hvalue' hfind
      | none =>
        rw [if_neg (fun h => by simpa [hfind] using hany.mp h)]
        rw [hfind] at hsplit'
        unfold Go.upsertBlock
        cases hup : Go.upsertArguments (some (Go.ofJsonObject s)) block with
        | error f => rfl
        | ok i =>
          rw [Go.upsertArguments, seq_eq_ok, Go.validateBlock_eq_ok_iff] at hup
          exact absurd (.inl ⟨hvalue', hup.1⟩) hsplit'

end

/-! ## One accepted event -/

/-- A start that both SDKs accept carries a model that is well formed under both sets of rules. -/
theorem start_payload {e : Envelope ν} (hop : e.op = .start) (hpython : Python.validateOperation e = .ok ())
    (hgo : (Go.decoded e).validate = .ok ()) :
    ∃ model, e.model = some model ∧ modelOk Python.rules model = true ∧ modelOk Go.rules model = true := by
  obtain ⟨model, hmodel, hok⟩ := python_start_payload hop hpython
  simp only [Go.Event.validate, Go.decoded, hop, hmodel, seq_eq_ok, Go.validateModel_eq_ok_iff] at hgo
  exact ⟨model, hmodel, hok, hgo.2.2⟩

section

variable [DecidableEq ν]

/-- The two reducers answer an event that both SDKs accept with one and the same document, or both refuse
it. -/
theorem step_agree {s : JsonObject ν} {blocks : List (JsonObject ν)} (hs : Standing s blocks)
    {e : Envelope ν} (hpython : Python.validateOperation e = .ok ())
    (hgo : (Go.decoded e).validate = .ok ()) (hmask : e.mask ≠ some "") (hsplit : ¬ Splits s e) :
    (Go.apply (some (Go.ofJsonObject s)) (Go.decoded e)).state? =
      (Python.applyPatch s e).state?.map (some ∘ Go.ofJsonObject) := by
  unfold Go.apply Python.applyPatch
  rw [hpython, hgo]
  simp only
  cases hop : e.op with
  | start =>
    obtain ⟨model, hmodel, hok, -⟩ := start_payload hop hpython hgo
    rw [Python.applyEvent_start hop hmodel hok]
    simp only [Go.applyEvent, Go.decoded, hop, hmodel]
    rfl
  | set =>
    have hset : Python.validateSet e = .ok () := by
      simp only [Python.validateOperation, hop, seq_eq_ok] at hpython
      exact hpython.2
    have hset' : Go.validateSet (Go.decoded e) = .ok () := by
      have h := hgo
      simp only [Go.Event.validate, seq_eq_ok] at h
      simpa [Go.decoded, hop] using h.2
    rw [python_set_iff] at hset
    rw [go_set_iff] at hset'
    unfold Go.applyEvent Python.applyEvent Python.applySet
    simp only [Go.decoded, hop]
    rcases hm : e.meta_ with _ | m <;> rcases hb : e.block with _ | block <;>
      rcases hk : e.mask with _ | mask <;> simp only [hm, hb, hk] at hset hset'
    · exact upsertBlock_agree hs hset hset'
    · have hne : mask ≠ "" := fun h => hmask (by rw [hk, h])
      simp only [Option.getD_some, if_neg hne, Option.none_or]
      exact setByMask_agree hs mask block
    · have hne : mask ≠ "" := fun h => hmask (by rw [hk, h])
      simp only [Option.getD_some, if_neg hne, Option.or_none]
      exact setByMask_agree hs mask m
  | append =>
    obtain ⟨mask, block, hk, hblock, -, hpatch⟩ := append_payload hop hpython
    have h := append_agree hs hop hblock (inline_of_patchable hpatch) hsplit
    unfold Go.applyEvent Python.applyEvent
    simpa only [Go.decoded, hop, hblock, Option.getD_some] using h
  | error =>
    have hmask' : e.mask = some "meta.error" := by
      simp only [Python.validateOperation, hop, seq_eq_ok, Python.validateErrorEvent, check_eq_ok,
        Bool.and_eq_true, beq_iff_eq] at hpython
      exact hpython.2.1.1
    unfold Go.applyEvent Python.applyEvent
    simp only [Go.decoded, hop, hmask', Option.getD_some]
    exact setByMask_agree hs "meta.error" _
  | ping => simp [Go.applyEvent, Python.applyEvent, Go.decoded, hop]
  | end_ => simp [Go.applyEvent, Python.applyEvent, Go.decoded, hop]

end

/-! ## Every split is a real one -/

theorem go_append_eq {m : Option (Go.Map ν)} {e : Envelope ν} {block : JsonObject ν} (hop : e.op = .append)
    (hblock : e.block = some block) (hgo : (Go.decoded e).validate = .ok ()) :
    Go.apply m (Go.decoded e) = Go.appendByMask m (e.mask.getD "") block := by
  unfold Go.apply Go.applyEvent
  rw [hgo]
  simp only [Go.decoded, hop, hblock, Option.getD_some]

/-- Go adds a complete block that is missing. -/
theorem go_append_missing {s : JsonObject ν} {blocks : List (JsonObject ν)} (hs : Standing s blocks)
    {mask field id : String} {value : Json ν} {block : JsonObject ν}
    (hg : Go.appendArguments mask block = .ok (field, id, value))
    (hfind : (blocks.find? fun b => idOf b == some id) = none) :
    Go.appendByMask (some (Go.ofJsonObject s)) mask block =
      Go.upsertBlock (some (Go.ofJsonObject s)) block := by
  have hany : ¬ ((blocks.map Go.ofJsonObject).any (Go.hasID id)) = true := fun h => by
    simpa [hfind] using any_hasID_iff.mp h
  unfold Go.appendByMask
  simp only [hg, Go.blocksOf_eq_ok (get?_ofJsonObject_blocks hs.hblocks), if_neg hany]

/-- Go appends an empty list to a field that is not there as a nil slice. -/
theorem go_appendToBlock_nil {existing : JsonObject ν} {field : String} (hinline : Fields.has existing "ref" = false)
    (hold : (Fields.get? existing field).getD .null = .null) :
    Go.appendToBlock field (.arr []) (Go.ofJsonObject existing) =
      .ok (Fields.set (Go.ofJsonObject existing) field (.leaf .nilSlice)) := by
  have hhas : Fields.has (Go.ofJsonObject existing) "ref" = false := by
    rw [Go.ofJsonObject, DocTree.has_mapFields, hinline]
  have hget : Fields.get? (Go.ofJsonObject existing) field = (Fields.get? existing field).map Go.ofJson :=
    DocTree.get?_mapFields existing field
  simp only [Go.appendToBlock, Go.requireInlineBlock, hhas, hget, check, bind, Except.bind, pure, Except.pure]
  cases hfield : Fields.get? existing field with
  | none => rfl
  | some v =>
    obtain rfl : v = .null := by simpa [hfield] using hold
    rfl

section

variable [DecidableEq ν]

theorem python_append_eq {s : JsonObject ν} {e : Envelope ν} (hop : e.op = .append)
    (hpython : Python.validateOperation e = .ok ()) : Python.applyPatch s e = Python.applyAppend s e := by
  unfold Python.applyPatch Python.applyEvent
  simp only [hpython, hop]

/-- An appended value that is neither a string nor a list: only Go adds the block. -/
theorem disagree_of_not_appendable {s : JsonObject ν} {blocks : List (JsonObject ν)} (hs : Standing s blocks)
    {e : Envelope ν} {block : JsonObject ν} {field id : String} {value : Json ν} (hblock : e.block = some block)
    (hg : Go.appendArguments (e.mask.getD "") block = .ok (field, id, value))
    (hfind : (blocks.find? fun b => idOf b == some id) = none) (href : Fields.has block "ref" = false)
    (hvalue : appendable value = false) (hok : blockOk Go.rules block = true) :
    ¬ Agree (Python.applyAppend s e).state? (Go.upsertBlock (some (Go.ofJsonObject s)) block).state? := by
  have hargs : Go.upsertArguments (some (Go.ofJsonObject s)) block = .ok id := by
    simp [Go.upsertArguments, (Go.validateBlock_eq_ok_iff block).mpr hok, href,
      Go.stringAt_of_idOf (Go.appendArguments_eq_ok hg).1, check, bind, Except.bind, pure, Except.pure]
  have hloop : updateFirst (fun current => .ok (Go.hasID id current))
      (fun _ => (.ok (Go.cloneMap block) : Except Go.Failure (Go.Map ν))) (.ok [Go.cloneMap block])
      (blocks.map Go.ofJsonObject) = .ok (blocks.map Go.ofJsonObject ++ [Go.cloneMap block]) := by
    refine updateFirst_eq_ok.mpr (.inr ⟨_, fun c hc => ?_, rfl, rfl⟩)
    obtain ⟨b, hb, rfl⟩ := List.mem_map.mp hc
    have := List.find?_eq_none.mp hfind b hb
    simpa [Go.hasID_ofJsonObject] using this
  rw [python_applyAppend_rejects hblock hg hvalue]
  unfold Go.upsertBlock
  simp only [hargs]
  rw [Go.patchBlocks_state? (get?_ofJsonObject_blocks hs.hblocks), hloop]
  exact fun h => h

/-- A block whose `group_id` Go refuses: only Python adds it. -/
theorem disagree_of_group {s : JsonObject ν} {blocks : List (JsonObject ν)} (hs : Standing s blocks)
    {e : Envelope ν} {block : JsonObject ν} {field id : String} {value : Json ν} (hblock : e.block = some block)
    (hg : Go.appendArguments (e.mask.getD "") block = .ok (field, id, value))
    (hfind : (blocks.find? fun b => idOf b == some id) = none) (href : Fields.has block "ref" = false)
    (hvalue : appendable value = true) (hok : blockOk Python.rules block = true) (hgroup : groupIdOk block = false) :
    ¬ Agree (Python.applyAppend s e).state? (Go.upsertBlock (some (Go.ofJsonObject s)) block).state? := by
  have hp : Python.appendArguments (e.mask.getD "") block = .ok (field, id, value) :=
    (appendArguments_python_iff _ _ _).mpr ⟨hg, hvalue⟩
  have hmissing := Python.appendMissing_of_blockOk hok href
  have hloop : updateFirst (fun b => .ok (Python.idEquals (some (.str id)) b))
      (Python.appendToBlock field value) (Python.appendMissing block) blocks = .ok (blocks ++ [block]) := by
    refine updateFirst_eq_ok.mpr (.inr ⟨_, fun b hb => ?_, hmissing, rfl⟩)
    have := List.find?_eq_none.mp hfind b hb
    simpa [Python.idEquals_str] using this
  have hgo : (Go.upsertBlock (some (Go.ofJsonObject s)) block).state? = none := by
    unfold Go.upsertBlock
    cases hargs : Go.upsertArguments (some (Go.ofJsonObject s)) block with
    | error f => rfl
    | ok i =>
      rw [Go.upsertArguments, seq_eq_ok, Go.validateBlock_eq_ok_iff, blockOk_go_iff, hgroup] at hargs
      simp at hargs
  rw [hgo, Python.applyAppend_of_ok hblock hp, setDefault_of_get? hs.hblocks,
    Python.patchBlocks_state? hs.hblocks, hloop]
  exact fun h => h

/-- An empty list is appended to a field that is not there: both extend the block, Go with a nil slice. -/
theorem disagree_of_nil {s : JsonObject ν} {pre post : List (JsonObject ν)} {existing : JsonObject ν}
    (hs : Standing s (pre ++ existing :: post)) {e : Envelope ν} {block : JsonObject ν} {field id : String}
    (hblock : e.block = some block) (hg : Go.appendArguments (e.mask.getD "") block = .ok (field, id, .arr []))
    (hid : idOf existing = some id) (hpre : ∀ b ∈ pre, (!(idOf b == some id)) = true)
    (hinline : Fields.has existing "ref" = false) (hold : (Fields.get? existing field).getD .null = .null) :
    ¬ Agree (Python.applyAppend s e).state?
      (Go.appendByMask (some (Go.ofJsonObject s)) (e.mask.getD "") block).state? := by
  have hfind : ((pre ++ existing :: post).find? fun b => idOf b == some id) = some existing :=
    List.find?_eq_some_iff_append.mpr ⟨by simpa using hid, pre, post, rfl, hpre⟩
  have hp : Python.appendArguments (e.mask.getD "") block = .ok (field, id, .arr []) :=
    (appendArguments_python_iff _ _ _).mpr ⟨hg, rfl⟩
  have hpythonBody : Python.appendToBlock field (.arr []) existing = .ok (Fields.set existing field (.arr [])) := by
    simp [Python.appendToBlock, Python.requireInlineBlock, hinline, hold, check, bind, Except.bind, pure,
      Except.pure]
  have hpythonLoop : updateFirst (fun b => .ok (Python.idEquals (some (.str id)) b))
      (Python.appendToBlock field (.arr [])) (Python.appendMissing block) (pre ++ existing :: post) =
        .ok (pre ++ Fields.set existing field (.arr []) :: post) :=
    updateFirst_eq_ok.mpr (.inl ⟨pre, existing, _, post, rfl,
      fun c hc => by simpa [Python.idEquals_str] using hpre c hc,
      by rw [Python.idEquals_str]; simpa using hid, hpythonBody, rfl⟩)
  have hgoLoop : updateFirst (fun current => .ok (Go.hasID id current)) (Go.appendToBlock field (.arr []))
      (.ok []) ((pre ++ existing :: post).map Go.ofJsonObject) =
        .ok (pre.map Go.ofJsonObject ++
          Fields.set (Go.ofJsonObject existing) field (.leaf .nilSlice) :: post.map Go.ofJsonObject) := by
    rw [List.map_append, List.map_cons]
    refine updateFirst_eq_ok.mpr
      (.inl ⟨_, _, _, _, rfl, fun c hc => ?_, ?_, go_appendToBlock_nil hinline hold, rfl⟩)
    · obtain ⟨b, hb, rfl⟩ := List.mem_map.mp hc
      simpa [Go.hasID_ofJsonObject] using hpre b hb
    · rw [Go.hasID_ofJsonObject]
      simpa using hid
  have hany : ((pre ++ existing :: post).map Go.ofJsonObject).any (Go.hasID id) = true :=
    any_hasID_iff.mpr ⟨existing, hfind⟩
  have hgoAppend : Go.appendByMask (some (Go.ofJsonObject s)) (e.mask.getD "") block =
      Go.patchBlocks (some (Go.ofJsonObject s)) id (Go.appendToBlock field (.arr [])) (.ok []) := by
    unfold Go.appendByMask
    simp only [hg, Go.blocksOf_eq_ok (get?_ofJsonObject_blocks hs.hblocks), if_pos hany]
  rw [Python.applyAppend_of_ok hblock hp, setDefault_of_get? hs.hblocks,
    Python.patchBlocks_state? hs.hblocks, hpythonLoop, hgoAppend,
    Go.patchBlocks_state? (get?_ofJsonObject_blocks hs.hblocks), hgoLoop]
  intro hsame
  -- the path to the field shows `[]` on one side and `null` on the other
  have hprobe := hsame [.key "blocks", .idx pre.length, .key field]
  simp [DocTree.probe, Go.marshalSnapshot, DocTree.get?_mapFields, DocTree.map, DocTree.mapList_eq_map,
    Go.Leaf.marshal] at hprobe

theorem splits_disagree {s : JsonObject ν} {blocks : List (JsonObject ν)} (hs : Standing s blocks)
    {e : Envelope ν} (hpython : Python.validateOperation e = .ok ())
    (hgo : (Go.decoded e).validate = .ok ()) (hsplit : Splits s e) :
    ¬ Agree (Python.applyPatch s e).state? (Go.apply (some (Go.ofJsonObject s)) (Go.decoded e)).state? := by
  obtain ⟨hop, block, field, id, value, hblock, hg, hat⟩ := hsplit
  obtain ⟨mask, block', hmask, hblock', -, hpatch⟩ := append_payload hop hpython
  obtain rfl : block = block' := by simpa [hblock] using hblock'
  have href := inline_of_patchable hpatch
  rw [blockWithId_eq hs] at hat
  rw [python_append_eq hop hpython, go_append_eq hop hblock hgo]
  cases hfind : blocks.find? fun b => idOf b == some id with
  | none =>
    rw [hfind] at hat
    rw [go_append_missing hs hg hfind]
    rcases hat with ⟨hvalue, hok⟩ | ⟨hvalue, hok, hgroup⟩
    · exact disagree_of_not_appendable hs hblock hg hfind href hvalue hok
    · exact disagree_of_group hs hblock hg hfind href hvalue hok hgroup
  | some existing =>
    rw [hfind] at hat
    obtain ⟨hinline, rfl, hold⟩ := hat
    obtain ⟨hid, pre, post, rfl, hpre⟩ := List.find?_eq_some_iff_append.mp hfind
    exact disagree_of_nil hs hblock hg (by simpa using hid) hpre hinline hold

end

/-! ## The snapshots of a run keep standing -/

/-- A model that Go accepts has all that the reducers rely on. -/
theorem standing_of_modelOk {model : JsonObject ν} (h : modelOk Go.rules model = true) :
    ∃ blocks, Standing model blocks := by
  simp only [modelOk, Bool.and_eq_true] at h
  obtain ⟨⟨-, hmeta⟩, hblocks⟩ := h
  obtain ⟨v, hv, hobj⟩ := memberIs_iff.mp hmeta
  have hm : ∃ m, Fields.get? model "meta" = some (.obj m) := by
    cases v with
    | obj m => exact ⟨m, hv⟩
    | leaf a => simp [DocTree.asObj] at hobj
    | arr xs => simp [DocTree.asObj] at hobj
  obtain ⟨blocks, hget, hok⟩ := Option.any_eq_true _ _ |>.mp hblocks
  simp only [blocksOk, Bool.and_eq_true, decide_eq_true_eq, List.all_eq_true] at hok
  refine ⟨blocks, hm, ?_, fun b hb => memberIs_id_of_blockOk (hok.1.1 b hb), hok.2⟩
  unfold modelBlocks at hget
  cases hfield : Fields.get? model "blocks" with
  | none => simp [hfield, Go.rules] at hget
  | some w =>
    rw [hfield] at hget
    obtain ⟨xs, harr, hobjs⟩ := Option.bind_eq_some_iff.mp hget
    rw [DocTree.asArr_eq_some.mp harr, DocTree.asObjs_eq_some.mp hobjs]

theorem standing_setMeta {s s' : JsonObject ν} {blocks : List (JsonObject ν)} (hs : Standing s blocks)
    {path : List String} {value : Json ν} (h : (Python.setMeta s path value).state? = some s') :
    Standing s' blocks := by
  obtain ⟨m, hm⟩ := hs.hmeta
  unfold Python.setMeta at h
  simp only [setDefault_of_get? hm, hm, Option.bind_some, DocTree.asObj, Applied.state?_returned,
    Option.some.injEq] at h
  subst h
  exact ⟨⟨_, Fields.get?_set_self s "meta" _⟩, by rw [Fields.get?_set_ne _ _ (by decide), hs.hblocks],
    hs.hids, hs.hnodup⟩

/-- The write below a name other than `id` keeps the id. -/
theorem idOf_setInBlock {path : List String} {value : Json ν} {b b' : JsonObject ν} {k : String}
    {rest : List String} (hpath : path = k :: rest) (hk : k ≠ "id")
    (h : Python.setInBlock path value b = .ok b') : idOf b' = idOf b := by
  rw [Python.setInBlock, seq_eq_ok] at h
  obtain rfl : Python.writePath b path value = b' := by simpa [pure, Except.pure] using h.2
  subst hpath
  exact idOf_congr (DocTree.get?_writeAt_ne b k rest value hk.symm)

theorem idOf_appendToBlock {field : String} {value : Json ν} {b b' : JsonObject ν} (hfield : field ≠ "id")
    (h : Python.appendToBlock field value b = .ok b') : idOf b' = idOf b := by
  obtain ⟨-, v, rfl, -⟩ := Python.appendToBlock_eq_ok h
  exact idOf_congr (Fields.get?_set_ne b v hfield.symm)

section

variable [DecidableEq ν]

/-- A block loop keeps the snapshot standing when its body keeps the id and what it adds has the id that
was looked for. -/
theorem standing_patchBlocks {s s' : JsonObject ν} {blocks : List (JsonObject ν)} (hs : Standing s blocks)
    {pid : Option (Json ν)} {f : JsonObject ν → Except Rejection (JsonObject ν)}
    {missing : Except Rejection (List (JsonObject ν))}
    (hf : ∀ b b', Python.idEquals pid b = true → f b = .ok b' → idOf b' = idOf b)
    (hm : ∀ added, missing = .ok added →
      ∃ block id, added = [block] ∧ idOf block = some id ∧ id ≠ "" ∧ pid = some (.str id))
    (h : (Python.patchBlocks s pid f missing).state? = some s') : ∃ blocks', Standing s' blocks' := by
  rw [Python.patchBlocks_state? hs.hblocks, Option.map_eq_some_iff] at h
  obtain ⟨bs, hu, rfl⟩ := h
  rw [toOption_eq_some] at hu
  obtain ⟨m, hmeta⟩ := hs.hmeta
  have hmeta' : ∃ m, Fields.get? (Fields.set s "blocks" (.arr (bs.map .obj))) "meta" = some (.obj m) :=
    ⟨m, by rw [Fields.get?_set_ne _ _ (by decide), hmeta]⟩
  refine ⟨bs, hmeta', Fields.get?_set_self s "blocks" _, ?_, ?_⟩
  all_goals
    rcases updateFirst_eq_ok.mp hu with ⟨pre, b, b', post, rfl, -, hb, hb', rfl⟩ |
      ⟨added, hnone, hadded, rfl⟩
  · -- the changed block keeps its id
    intro c hc
    rcases List.mem_append.mp hc with hc | hc
    · exact hs.hids c (by simp [hc])
    · rcases List.mem_cons.mp hc with rfl | hc
      · obtain ⟨id, hid, hne⟩ := exists_idOf_of_memberIs (hs.hids b (by simp))
        exact memberIs_id_of_idOf ((hf b c hb hb').trans hid) hne
      · exact hs.hids c (by simp [hc])
  · obtain ⟨block, id, rfl, hid, hne, -⟩ := hm added hadded
    intro c hc
    rcases List.mem_append.mp hc with hc | hc
    · exact hs.hids c hc
    · obtain rfl : c = block := by simpa using hc
      exact memberIs_id_of_idOf hid hne
  · have hmap : (pre ++ b' :: post).map idOf = (pre ++ b :: post).map idOf := by
      simp [hf b b' hb hb']
    rw [hmap]
    exact hs.hnodup
  · -- no block had the id that is added
    obtain ⟨block, id, rfl, hid, -, rfl⟩ := hm added hadded
    have hfresh : some id ∉ blocks.map idOf := by
      intro hmem
      obtain ⟨c, hc, hcid⟩ := List.mem_map.mp hmem
      have := hnone c hc
      simp [Python.idEquals_str, hcid] at this
    rw [List.map_append, List.map_cons, List.map_nil, hid]
    exact List.nodup_append.mpr ⟨hs.hnodup, by simp, fun a ha c hc => by
      rintro rfl
      exact hfresh (by simpa [List.mem_singleton.mp hc] using ha)⟩

theorem standing_upsertBlock {s s' : JsonObject ν} {blocks : List (JsonObject ν)} (hs : Standing s blocks)
    {block : JsonObject ν} (h : (Python.upsertBlock s block).state? = some s') : ∃ blocks', Standing s' blocks' := by
  obtain ⟨id, hid, hne, -, -, h⟩ := Python.exists_of_upsertBlock h
  rw [setDefault_of_get? hs.hblocks] at h
  refine standing_patchBlocks hs (fun b b' hb hb' => ?_) (fun added hadded => ?_) h
  · obtain rfl : block = b' := by simpa using hb'
    rw [hid]
    rw [Python.idEquals_str] at hb
    exact (beq_iff_eq.mp hb).symm
  · obtain rfl : [block] = added := by simpa using hadded
    exact ⟨block, id, rfl, hid, hne, rfl⟩

theorem standing_applyAppend {s s' : JsonObject ν} {blocks : List (JsonObject ν)} (hs : Standing s blocks)
    {e : Envelope ν} {mask : String} {block : JsonObject ν} (hmask : e.mask = some mask)
    (hblock : e.block = some block) (hpre : Text.hasPrefix mask "block." = true)
    (hpatch : patchable mask block = true) (h : (Python.applyAppend s e).state? = some s') :
    ∃ blocks', Standing s' blocks' := by
  cases hargs : Python.appendArguments (e.mask.getD "") block with
  | error r => simp [Python.applyAppend_of_error hblock hargs] at h
  | ok a =>
    obtain ⟨field, id, value⟩ := a
    rw [Python.applyAppend_of_ok hblock hargs, setDefault_of_get? hs.hblocks] at h
    rw [hmask, Option.getD_some] at hargs
    obtain ⟨hid, hne, -, hfield⟩ := Python.appendArguments_eq_ok hargs
    refine standing_patchBlocks hs
      (fun b b' _ hb' => idOf_appendToBlock (patchable_ne hpatch (hfield hpre)).1 hb')
      (fun added hadded => ?_) h
    exact ⟨block, id, (Python.appendMissing_eq_ok.mp hadded).2.2.symm, hid, hne, rfl⟩

/-- A masked write whose mask a validator let through: below `meta.`, or below `block.` and not to the
id. -/
theorem standing_setByMask {s s' : JsonObject ν} {blocks : List (JsonObject ν)} (hs : Standing s blocks)
    {mask : String} {source : JsonObject ν}
    (hmask : Text.hasPrefix mask "meta." = true ∨
      (Text.hasPrefix mask "block." = true ∧ patchable mask source = true))
    (h : (Python.setByMask s mask source).state? = some s') : ∃ blocks', Standing s' blocks' := by
  rcases hmask with hmeta | ⟨hpre, hpatch⟩
  · obtain ⟨path, value, -, h⟩ := Python.exists_of_setByMask_meta hmeta h
    exact ⟨blocks, standing_setMeta hs h⟩
  · obtain ⟨k, rest, value, -, hk, h⟩ := Python.exists_of_setByMask_block hpre h
    exact standing_patchBlocks hs
      (fun b b' _ hb' => idOf_setInBlock rfl (patchable_ne hpatch hk).1 hb') (by simp) h

theorem standing_step {s s' : JsonObject ν} {blocks : List (JsonObject ν)} (hs : Standing s blocks)
    {e : Envelope ν} (hop : e.op ≠ .start) (hpython : Python.validateOperation e = .ok ())
    (h : (Python.applyPatch s e).state? = some s') : ∃ blocks', Standing s' blocks' := by
  unfold Python.applyPatch at h
  rw [hpython] at h
  simp only [Python.applyEvent] at h
  cases hop' : e.op with
  | start => exact absurd hop' hop
  | set =>
    have hset : Python.validateSet e = .ok () := by
      simp only [Python.validateOperation, hop', seq_eq_ok] at hpython
      exact hpython.2
    rw [python_set_iff] at hset
    simp only [hop', Python.applySet] at h
    rcases hm : e.meta_ with _ | m <;> rcases hb : e.block with _ | block <;>
      rcases hk : e.mask with _ | mask <;> simp only [hm, hb, hk] at hset h
    · exact standing_upsertBlock hs h
    · exact standing_setByMask hs (.inr ⟨hset.1, (python_fieldPatch_iff hset.1 block).mp hset.2⟩) h
    · exact standing_setByMask hs (.inl hset) h
  | append =>
    obtain ⟨mask, block, hmask, hblock, hpre, hpatch⟩ := append_payload hop' hpython
    rw [hop'] at h
    exact standing_applyAppend hs hmask hblock hpre hpatch h
  | error =>
    rw [hop'] at h
    exact standing_setByMask hs (.inl (by decide)) h
  | ping =>
    obtain rfl : s = s' := by simpa [hop'] using h
    exact ⟨blocks, hs⟩
  | end_ =>
    obtain rfl : s = s' := by simpa [hop'] using h
    exact ⟨blocks, hs⟩

end

/-! ## Whole runs -/

theorem goRun_append (p : List (Envelope ν)) (e : Envelope ν) :
    goRun (p ++ [e]) = (goRun p).bind fun m => (Go.apply m (Go.decoded e)).state? := by
  unfold goRun
  rw [List.map_append]
  exact Applied.run_concat Go.apply (some []) (p.map Go.decoded) (Go.decoded e)

/-- A sequence of events in the scope of the comparison: it begins with a start, both SDKs accept every
event on its own, and no mask is the empty string. -/
structure Admissible (events : List (Envelope ν)) : Prop where
  hstart : ∀ e, events.head? = some e → e.op = .start
  hpython : ∀ e ∈ events, Python.validateOperation e = .ok ()
  hgo : ∀ e ∈ events, (Go.decoded e).validate = .ok ()
  hmask : ∀ e ∈ events, e.mask ≠ some ""

theorem Admissible.initial {p events : List (Envelope ν)} (h : Admissible events) (hp : p <+: events) :
    Admissible p where
  hstart e he := by
    obtain ⟨q, rfl⟩ := hp
    cases p with
    | nil => simp at he
    | cons e' p => exact h.hstart e (by simpa using he)
  hpython e he := h.hpython e (hp.subset he)
  hgo e he := h.hgo e (hp.subset he)
  hmask e he := h.hmask e (hp.subset he)

section

variable [DecidableEq ν]

theorem pythonRun_append (p : List (Envelope ν)) (e : Envelope ν) :
    pythonRun (p ++ [e]) = (pythonRun p).bind fun s => (Python.applyPatch s e).state? :=
  Applied.run_concat Python.applyPatch [] p e

/-- The state of a run in lockstep: Go holds the decoded document that Python holds, and after the first
event that document is standing. -/
structure Lockstep (events : List (Envelope ν)) : Prop where
  hequal : goRun events = (pythonRun events).map (some ∘ Go.ofJsonObject)
  hstanding : events ≠ [] → ∀ s, pythonRun events = some s → ∃ blocks, Standing s blocks

theorem Lockstep.agree {events : List (Envelope ν)} (h : Lockstep events) :
    Agree (pythonRun events) (goRun events) := by
  rw [h.hequal]
  cases pythonRun events with
  | none => trivial
  | some s =>
    simp only [Option.map_some, Function.comp_apply, Agree, Go.marshalSnapshot_ofJsonObject]
    exact DocTree.Same.refl _

/-- One more event keeps a run in lockstep unless it splits. -/
theorem Lockstep.snoc {p : List (Envelope ν)} {e : Envelope ν} (hp : Lockstep p)
    (hadm : Admissible (p ++ [e])) (hsplit : ∀ s, pythonRun p = some s → ¬ Splits s e) :
    Lockstep (p ++ [e]) := by
  have hpython := hadm.hpython e (by simp)
  have hgo := hadm.hgo e (by simp)
  have hmask := hadm.hmask e (by simp)
  have hpr := pythonRun_append p e
  have hgr := goRun_append p e
  rw [hp.hequal] at hgr
  cases hrun : pythonRun p with
  | none =>
    rw [hrun] at hpr hgr
    exact ⟨by rw [hpr, hgr]; rfl, fun _ s hs => by simp [hpr] at hs⟩
  | some s =>
    rw [hrun] at hpr hgr
    simp only [Option.bind_some, Option.map_some, Function.comp_apply] at hpr hgr
    by_cases hstart : e.op = .start
    · -- a start replaces both states
      obtain ⟨model, hmodel, hok, hokGo⟩ := start_payload hstart hpython hgo
      have hps : (Python.applyPatch s e).state? = some model := by
        unfold Python.applyPatch
        rw [hpython]
        simp only [Python.applyEvent_start hstart hmodel hok, Applied.state?_returned]
      have hgs : (Go.apply (some (Go.ofJsonObject s)) (Go.decoded e)).state? =
          some (some (Go.ofJsonObject model)) := by
        unfold Go.apply
        rw [hgo]
        simp only [Go.applyEvent, Go.decoded, hstart, hmodel]
        rfl
      refine ⟨by rw [hpr, hgr, hps, hgs]; rfl, fun _ s' hs' => ?_⟩
      obtain rfl : model = s' := by simpa [hpr, hps] using hs'
      exact standing_of_modelOk hokGo
    · have hne : p ≠ [] := by
        rintro rfl
        exact hstart (hadm.hstart e rfl)
      obtain ⟨blocks, hs⟩ := hp.hstanding hne s hrun
      refine ⟨?_, fun _ s' hs' => ?_⟩
      · rw [hpr, hgr, step_agree hs hpython hgo hmask (hsplit s hrun)]
      · rw [hpr] at hs'
        exact standing_step hs hstart hpython hs'

theorem lockstep_nil : Lockstep ([] : List (Envelope ν)) where
  hequal := rfl
  hstanding := fun h => absurd rfl h

/-- The two folds stay equal over a sequence of events, prefix by prefix, exactly when none of its steps
splits. -/
theorem agree_iff_not_splits (events : List (Envelope ν)) (hadm : Admissible events) :
    (∀ p, p <+: events → Agree (pythonRun p) (goRun p)) ↔
      ∀ p e, p ++ [e] <+: events → ∀ s, pythonRun p = some s → ¬ Splits s e := by
  constructor
  · intro hagree
    -- the first split would be visible right after it
    have hlock : ∀ p, p <+: events → Lockstep p ∧
        ∀ q e, q ++ [e] <+: p → ∀ s, pythonRun q = some s → ¬ Splits s e := by
      intro p
      induction p using List.reverseRecOn with
      | nil => exact fun _ => ⟨lockstep_nil, fun q e h => absurd h (by simp)⟩
      | append_singleton p e ih =>
        intro hp
        obtain ⟨hlock, hq⟩ := ih ((List.prefix_append p [e]).trans hp)
        have hsplit : ∀ s, pythonRun p = some s → ¬ Splits s e := by
          intro s hrun hsplit
          have hadm' := hadm.initial hp
          have hne : p ≠ [] := by
            rintro rfl
            have := hadm'.hstart e rfl
            rw [hsplit.1] at this
            cases this
          obtain ⟨blocks, hs⟩ := hlock.hstanding hne s hrun
          refine splits_disagree hs (hadm'.hpython e (by simp)) (hadm'.hgo e (by simp)) hsplit ?_
          have h := hagree _ hp
          rw [pythonRun_append, goRun_append, hlock.hequal, hrun] at h
          exact h
        refine ⟨hlock.snoc (hadm.initial hp) hsplit, fun q e' hqe s hrun => ?_⟩
        rcases List.prefix_concat_iff.mp hqe with heq | hqe
        · obtain ⟨rfl, rfl⟩ : q = p ∧ e' = e := by simpa using heq
          exact hsplit s hrun
        · exact hq q e' hqe s hrun
    exact fun p e hp => (hlock _ hp).2 p e (List.prefix_refl _)
  · intro hsplit p
    have hlock : p <+: events → Lockstep p := by
      induction p using List.reverseRecOn with
      | nil => exact fun _ => lockstep_nil
      | append_singleton p e ih =>
        exact fun hp => (ih ((List.prefix_append p [e]).trans hp)).snoc (hadm.initial hp) (hsplit p e hp)
    exact fun hp => (hlock hp).agree

/-- A start, and an append of an object to a block that is not there. -/
def appendsObject : List (Envelope ℕ) :=
  [{ op := .start, seq := 1, streamId := none, ts := none, mask := none, eventType := none,
     model := some [("version", .str "1.1"), ("biz", .str "b"), ("meta", .obj []), ("blocks", .arr [])],
     meta_ := none, block := none },
   { op := .append, seq := 2, streamId := none, ts := none, mask := some "block.data", eventType := none,
     model := none, meta_ := none,
     block := some [("id", .str "x"), ("type", .str "table"), ("data", .obj [])] }]

theorem admissible_appendsObject : Admissible appendsObject where
  hstart e he := by
    obtain rfl : _ = e := by simpa [appendsObject] using he
    rfl
  hpython := by decide
  hgo := by decide
  hmask := by decide

/-- Python refuses the append, Go adds the block. -/
theorem reducers_disagree_on_append :
    ¬ ∀ events : List (Envelope ℕ), Admissible events →
      ∀ p, p <+: events → Agree (pythonRun p) (goRun p) := by
  intro h
  have hagree := h appendsObject admissible_appendsObject appendsObject (List.prefix_refl _)
  have hpython : pythonRun appendsObject = none := by decide
  have hgo : (goRun appendsObject).isSome = true := by decide
  rw [hpython] at hagree
  cases hrun : goRun appendsObject with
  | none => simp [hrun] at hgo
  | some m => simp [hrun, Agree] at hagree

/-- The criterion on that run. -/
theorem agree_iff_not_splits_appendsObject :
    (∀ p, p <+: appendsObject → Agree (pythonRun p) (goRun p)) ↔
      ∀ p e, p ++ [e] <+: appendsObject → ∀ s, pythonRun p = some s → ¬ Splits s e :=
  agree_iff_not_splits appendsObject admissible_appendsObject

end

end AgentUE.Conformance
