import AgentUE.Conformance.Appends
import AgentUE.Data.Nesting
import AgentUE.Go.RoundTrip
import AgentUE.Protocol.Validity

/-!
# What the Go reducer makes of a document

An accepted event is one edit of the document that the snapshot marshals to: of its metadata, of one block, or of the
list of blocks. `editOf` says which, from the document and the event alone, and `Edited` what it leaves.
-/

namespace AgentUE.Conformance

open Data Go

variable {ν : Type}

/-! ## Edits -/

/-- What an event changes. -/
inductive Edit (ν : Type) where
  /-- a start puts its model in the place of the document -/
  | replace (model : JsonObject ν)
  | keep
  /-- a write below `meta` -/
  | metadata (path : List String) (value : Json ν)
  /-- a whole block, in the place of the one with its id or behind the last -/
  | whole (block : JsonObject ν)
  /-- a write in a block -/
  | field (path : List String) (value : Json ν)
  /-- an append to a field of a block -/
  | extend (field : String) (value : Json ν)

/-- The edit of a masked set. -/
def maskedEdit (mask : String) (source : JsonObject ν) : Option (Edit ν) :=
  match setArguments mask source with
  | .ok (root, path, value) =>
    if root = "meta" then some (.metadata path value)
    else if root = "block" then some (.field path value)
    else none
  | .error _ => none

/-- The edit of an event that meets the document `s`: an append to a block that is not there adds the whole block. -/
def editOf (s : JsonObject ν) (event : Event ν) : Option (Edit ν) :=
  match event.op with
  | .known .start => event.model.map .replace
  | .known .set =>
    if event.mask = "" then event.block.map .whole
    else maskedEdit event.mask ((event.meta_.or event.block).getD [])
  | .known .append =>
    match appendArguments event.mask (event.block.getD []) with
    | .ok (field, id, value) =>
      if (blockWithId s id).isSome then some (.extend field value) else event.block.map .whole
    | .error _ => none
  | .known .error => maskedEdit event.mask (event.meta_.getD [])
  | .known .ping | .known .end_ => some .keep
  | .other _ => none

/-- What an append makes of the old value of a field; a nil slice is written as `null`. -/
inductive Extended (old : Option (Json ν)) : Json ν → Json ν → Prop
  | text {added : String} : old.getD .null = .null → Extended old (.str added) (.str added)
  | textOn {before added : String} : old = some (.str before) → Extended old (.str added) (.str (before ++ added))
  | list {added : List (Json ν)} : old.getD .null = .null →
    Extended old (.arr added) (if added = [] then .null else .arr added)
  | listOn {before added : List (Json ν)} : old = some (.arr before) →
    Extended old (.arr added) (.arr (before ++ added))

/-- The document with other blocks. -/
def withBlocks (s : JsonObject ν) (bs : List (JsonObject ν)) : JsonObject ν :=
  Fields.set s "blocks" (.arr (bs.map .obj))

/-- The document has these blocks. -/
def HasBlocks (s : JsonObject ν) (bs : List (JsonObject ν)) : Prop :=
  Fields.get? s "blocks" = some (.arr (bs.map .obj))

/-- The document that an edit leaves of `s`. -/
inductive Edited (s : JsonObject ν) : Edit ν → JsonObject ν → Prop
  | replace {model : JsonObject ν} : modelOk rules model = true → Edited s (.replace model) model
  | keep : Edited s .keep s
  | metadata {m : JsonObject ν} {path : List String} {value : Json ν} : path ≠ [] →
    Fields.get? s "meta" = some (.obj m) →
    Edited s (.metadata path value) (Fields.set s "meta" (.obj (DocTree.writeAt m path value)))
  | replaced {pre post : List (JsonObject ν)} {b block : JsonObject ν} : HasBlocks s (pre ++ b :: post) →
    blockOk rules block = true → idOf block = idOf b →
    (Fields.has block "ref" = true → modelVersion s = some protocolVersion) →
    Edited s (.whole block) (withBlocks s (pre ++ block :: post))
  | added {bs : List (JsonObject ν)} {block : JsonObject ν} : HasBlocks s bs → blockOk rules block = true →
    (∀ b ∈ bs, idOf b ≠ idOf block) → (Fields.has block "ref" = true → modelVersion s = some protocolVersion) →
    Edited s (.whole block) (withBlocks s (bs ++ [block]))
  | field {pre post : List (JsonObject ν)} {b : JsonObject ν} {k : String} {rest : List String} {value : Json ν} :
    HasBlocks s (pre ++ b :: post) → Fields.has b "ref" = false → k ≠ "id" → k ≠ "ref" →
    Edited s (.field (k :: rest) value) (withBlocks s (pre ++ DocTree.writeAt b (k :: rest) value :: post))
  | extend {pre post : List (JsonObject ν)} {b : JsonObject ν} {field : String} {value v : Json ν} :
    HasBlocks s (pre ++ b :: post) → Fields.has b "ref" = false → field ≠ "id" → field ≠ "ref" →
    Extended (Fields.get? b field) value v →
    Edited s (.extend field value) (withBlocks s (pre ++ Fields.set b field v :: post))

/-! ## Accepted events are edits -/

theorem marshalSnapshot_set (m : Map ν) (k : String) (v : Any ν) :
    marshalSnapshot (Fields.set m k v) = Fields.set (marshalSnapshot m) k (marshal v) :=
  DocTree.mapFields_set m k v

/-- The loop over the blocks of a decoded document. -/
theorem marshalSnapshot_patchBlocks {s : JsonObject ν} {bs : List (JsonObject ν)} (hbs : HasBlocks s bs) {id : String}
    {f : Map ν → Except Failure (Map ν)} {missing : Except Failure (List (Map ν))} {t : Option (Map ν)}
    (h : (Go.patchBlocks (some (ofJsonObject s)) id f missing).state? = some t) :
    ∃ n, t = some n ∧
      ((∃ pre b c post, bs = pre ++ b :: post ∧ idOf b = some id ∧ f (ofJsonObject b) = .ok c ∧
          marshalSnapshot n = withBlocks s (pre ++ marshalSnapshot c :: post)) ∨
        ∃ added, (∀ b ∈ bs, idOf b ≠ some id) ∧ missing = .ok added ∧
          marshalSnapshot n = withBlocks s (bs ++ added.map marshalSnapshot)) := by
  have hmarshal : ∀ bs : List (Map ν), marshalSnapshot (Fields.set (ofJsonObject s) "blocks" (.arr (bs.map .obj))) =
      withBlocks s (bs.map marshalSnapshot) := by
    intro bs
    rw [marshalSnapshot_set, marshalSnapshot_ofJsonObject, marshal, DocTree.map, DocTree.mapList_eq_map, List.map_map,
      withBlocks, List.map_map]
    rfl
  have hback : ∀ bs : List (JsonObject ν), (bs.map ofJsonObject).map marshalSnapshot = bs := by
    intro bs
    rw [List.map_map]
    exact (List.map_congr_left fun b _ => marshalSnapshot_ofJsonObject b).trans (List.map_id bs)
  rw [Go.patchBlocks_state? (get?_ofJsonObject_blocks hbs), Option.map_eq_some_iff] at h
  obtain ⟨result, hresult, rfl⟩ := h
  refine ⟨_, rfl, ?_⟩
  rw [hmarshal]
  rcases updateFirst_eq_ok.mp (toOption_eq_some.mp hresult) with
    ⟨pre, b, c, post, heq, hpre, hb, hc, rfl⟩ | ⟨added, hnone, hadded, rfl⟩
  · obtain ⟨pre', rest, rfl, rfl, hrest⟩ := List.map_eq_append_iff.mp heq
    obtain ⟨b', post', rfl, rfl, rfl⟩ := List.map_eq_cons_iff.mp hrest
    rw [hasID_ofJsonObject, beq_iff_eq] at hb
    exact .inl ⟨pre', b', c, post', rfl, hb, hc, by simp only [List.map_append, List.map_cons, hback]⟩
  · refine .inr ⟨added, fun b hb hid => ?_, hadded, by rw [List.map_append, hback]⟩
    have hfalse := hnone _ (List.mem_map_of_mem hb)
    rw [hasID_ofJsonObject, hid, beq_self_eq_true] at hfalse
    cases hfalse

/-- A whole block that is accepted. -/
theorem edited_upsertBlock {s : JsonObject ν} {bs : List (JsonObject ν)}
    (hbs : HasBlocks s bs) {block : JsonObject ν} {t : Option (Map ν)}
    (h : (Go.upsertBlock (some (ofJsonObject s)) block).state? = some t) :
    ∃ n, t = some n ∧ Edited s (.whole block) (marshalSnapshot n) := by
  obtain ⟨id, hid, -, hok, hversion, h⟩ := Go.exists_of_upsertBlock h
  have href : Fields.has block "ref" = true → modelVersion s = some protocolVersion := by
    intro href
    have hstr : (Fields.get? s "version").bind DocTree.asStr = some protocolVersion := by
      simpa [memberEquals_ofJsonObject] using hversion href
    obtain ⟨v, hv, hv'⟩ := Option.bind_eq_some_iff.mp hstr
    rw [modelVersion, hv]
    exact hv'
  have hclone : marshalSnapshot (cloneMap block) = block := marshalSnapshot_ofJsonObject block
  obtain ⟨n, rfl, ⟨pre, b, c, post, rfl, hb, hc, hn⟩ | ⟨added, hnone, hadded, hn⟩⟩ :=
    marshalSnapshot_patchBlocks hbs h
  · obtain rfl := Except.ok.inj hc
    refine ⟨n, rfl, ?_⟩
    rw [hn, hclone]
    exact .replaced hbs hok (hid.trans hb.symm) href
  · obtain rfl := Except.ok.inj hadded
    refine ⟨n, rfl, ?_⟩
    rw [hn, List.map_singleton, hclone]
    exact .added hbs hok (fun b hb => hid ▸ hnone b hb) href

theorem edited_setMeta {s m : JsonObject ν} (hm : Fields.get? s "meta" = some (.obj m)) {path : List String}
    (hne : path ≠ []) {value : Json ν} {t : Option (Map ν)}
    (h : (Go.setMeta (some (ofJsonObject s)) path value).state? = some t) :
    ∃ n, t = some n ∧ Edited s (.metadata path value) (marshalSnapshot n) := by
  obtain rfl := Option.some.inj h
  refine ⟨_, rfl, ?_⟩
  have hchild : DocTree.childAt (ofJsonObject s) "meta" = ofJsonObject m := by
    rw [ofJsonObject, DocTree.childAt_mapFields, DocTree.childAt, hm]
    rfl
  have hwrite : Go.writePath (ofJsonObject m) path value = ofJsonObject (DocTree.writeAt m path value) :=
    (DocTree.mapFields_writeAt m path value).symm
  rw [marshalSnapshot_set, marshalSnapshot_ofJsonObject, hchild, hwrite]
  show Edited s _ (Fields.set s "meta" (.obj (marshalSnapshot _)))
  rw [marshalSnapshot_ofJsonObject]
  exact .metadata hne hm

theorem edited_setInBlock {s : JsonObject ν} {bs : List (JsonObject ν)} (hbs : HasBlocks s bs) {id k : String}
    {rest : List String} (hkid : k ≠ "id") (hkref : k ≠ "ref") {value : Json ν} {t : Option (Map ν)}
    (h : (Go.patchBlocks (some (ofJsonObject s)) id (Go.setInBlock (k :: rest) value)
      (.error (.err .targetBlockDoesNotExist))).state? = some t) :
    ∃ n, t = some n ∧ Edited s (.field (k :: rest) value) (marshalSnapshot n) := by
  obtain ⟨n, rfl, ⟨pre, b, c, post, rfl, -, hc, hn⟩ | ⟨added, -, hadded, -⟩⟩ := marshalSnapshot_patchBlocks hbs h
  · rw [Go.setInBlock, seq_eq_ok, Go.requireInlineBlock, check_eq_ok, ofJsonObject, DocTree.has_mapFields,
      Bool.not_eq_true'] at hc
    obtain ⟨href, hc⟩ := hc
    obtain rfl := Except.ok.inj hc
    refine ⟨n, rfl, ?_⟩
    have hwrite : Go.writePath (ofJsonObject b) (k :: rest) value = ofJsonObject (DocTree.writeAt b (k :: rest) value) :=
      (DocTree.mapFields_writeAt b (k :: rest) value).symm
    rw [hn]
    show Edited s _ (withBlocks s (pre ++ marshalSnapshot (Go.writePath (ofJsonObject b) (k :: rest) value) :: post))
    rw [hwrite, marshalSnapshot_ofJsonObject]
    exact .field hbs href hkid hkref
  · cases hadded

theorem extended_of_extendedAny {old : Option (Json ν)} {value : Json ν} {x : Any ν}
    (h : extendedAny (old.map ofJson) value = some x) : Extended old value (marshal x) := by
  have hback : ∀ xs : List (Json ν), marshal (ofJson (.arr xs)) = .arr xs := fun xs =>
    DocTree.map_map_of_leftInverse (fun _ => rfl) (.arr xs)
  have hlist : ∀ added : List (Json ν), marshal (if added = [] then .leaf .nilSlice else ofJson (.arr added)) =
      if added = [] then .null else .arr added := by
    intro added
    split_ifs
    · rfl
    · exact hback added
  rcases value with (_ | _ | _ | added) | added | _
  all_goals rcases old with _ | (_ | _ | _ | before) | before | _
  all_goals try cases h
  · exact .text rfl
  · exact .text rfl
  · exact .textOn rfl
  · exact hlist added ▸ .list rfl
  · exact hlist added ▸ .list rfl
  · have happend : marshal (.arr (DocTree.mapList Leaf.json before ++ DocTree.mapList .json added)) =
        .arr (before ++ added) := by
      rw [← mapList_append]
      exact hback (before ++ added)
    exact happend ▸ .listOn rfl

theorem edited_appendToBlock {s : JsonObject ν} {bs : List (JsonObject ν)} (hbs : HasBlocks s bs) {id field : String}
    (hid : field ≠ "id") (href : field ≠ "ref") {value : Json ν} (hany : ∃ b ∈ bs, idOf b = some id)
    {t : Option (Map ν)}
    (h : (Go.patchBlocks (some (ofJsonObject s)) id (Go.appendToBlock field value) (.ok [])).state? = some t) :
    ∃ n, t = some n ∧ Edited s (.extend field value) (marshalSnapshot n) := by
  obtain ⟨n, rfl, ⟨pre, b, c, post, rfl, -, hc, hn⟩ | ⟨added, hnone, -⟩⟩ := marshalSnapshot_patchBlocks hbs h
  · obtain ⟨hinline, x, hx, rfl⟩ := go_appendToBlock_eq_ok hc
    rw [ofJsonObject, DocTree.get?_mapFields] at hx
    rw [ofJsonObject, DocTree.has_mapFields] at hinline
    refine ⟨n, rfl, ?_⟩
    rw [hn, marshalSnapshot_set, marshalSnapshot_ofJsonObject]
    exact .extend hbs hinline hid href (extended_of_extendedAny hx)
  · obtain ⟨b, hb, hbid⟩ := hany
    exact absurd hbid (hnone b hb)

/-- The blocks and the metadata of a valid model. -/
theorem exists_blocks_meta {s : JsonObject ν} (hs : modelOk rules s = true) :
    (∃ bs, HasBlocks s bs) ∧ ∃ m, Fields.get? s "meta" = some (.obj m) := by
  obtain ⟨bs, hstanding⟩ := standing_of_modelOk hs
  exact ⟨⟨bs, hstanding.hblocks⟩, hstanding.hmeta⟩

/-- A masked set that the validator let through. -/
theorem edited_setByMask {s : JsonObject ν} (hs : modelOk rules s = true) {mask : String} {source : JsonObject ν}
    (hmask : Text.hasPrefix mask "meta." = true ∨
      (Text.hasPrefix mask "block." = true ∧ patchable mask source = true)) {t : Option (Map ν)}
    (h : (Go.setByMask (some (ofJsonObject s)) mask source).state? = some t) :
    ∃ n edit, t = some n ∧ maskedEdit mask source = some edit ∧ Edited s edit (marshalSnapshot n) := by
  obtain ⟨⟨bs, hbs⟩, m, hm⟩ := exists_blocks_meta hs
  unfold maskedEdit
  rcases hmask with hmeta | ⟨hblock, hpatch⟩
  · obtain ⟨k, rest, value, hargs, h⟩ := Go.exists_of_setByMask_meta hmeta h
    simp only [hargs, if_true]
    obtain ⟨n, hn, hedited⟩ := edited_setMeta hm (List.cons_ne_nil k rest) h
    exact ⟨n, _, hn, rfl, hedited⟩
  · obtain ⟨k, rest, value, hargs, hk, h⟩ := Go.exists_of_setByMask_block hblock h
    obtain ⟨hkid, hkref⟩ := patchable_ne hpatch hk
    simp only [hargs]
    rw [if_neg (by decide), if_pos trivial]
    obtain ⟨n, hn, hedited⟩ := edited_setInBlock hbs hkid hkref h
    exact ⟨n, _, hn, rfl, hedited⟩

/-- An append that the validator let through. -/
theorem edited_appendByMask {s : JsonObject ν} (hs : modelOk rules s = true) {mask : String} {block : JsonObject ν}
    (hmask : Text.hasPrefix mask "block." = true) (hpatch : patchable mask block = true) {t : Option (Map ν)}
    (h : (Go.appendByMask (some (ofJsonObject s)) mask block).state? = some t) :
    ∃ n edit, t = some n ∧
      (match appendArguments mask block with
        | .ok (field, id, value) =>
          if (blockWithId s id).isSome then some (Edit.extend field value) else some (.whole block)
        | .error _ => none) = some edit ∧ Edited s edit (marshalSnapshot n) := by
  obtain ⟨bs, hstanding⟩ := standing_of_modelOk hs
  unfold Go.appendByMask at h
  cases hargs : appendArguments mask block with
  | error r => simp [hargs] at h
  | ok arguments =>
    obtain ⟨field, id, value⟩ := arguments
    simp only [hargs, blocksOf_eq_ok (get?_ofJsonObject_blocks hstanding.hblocks)] at h ⊢
    have hfield := (Go.appendArguments_eq_ok hargs).2 hmask
    obtain ⟨hfid, hfref⟩ := patchable_ne hpatch hfield
    by_cases hany : (bs.map ofJsonObject).any (hasID id) = true
    · rw [if_pos hany] at h
      obtain ⟨b, hb⟩ := any_hasID_iff.mp hany
      rw [blockWithId_eq hstanding, hb, Option.isSome_some, if_pos rfl]
      have hmem : ∃ b ∈ bs, idOf b = some id :=
        ⟨b, List.mem_of_find?_eq_some hb, by simpa using List.find?_some hb⟩
      obtain ⟨n, hn, hedited⟩ := edited_appendToBlock hstanding.hblocks hfid hfref hmem h
      exact ⟨n, _, hn, rfl, hedited⟩
    · rw [if_neg hany] at h
      have hnone : (bs.find? fun b => idOf b == some id) = none := by
        rw [Option.eq_none_iff_forall_ne_some]
        exact fun b hb => hany (any_hasID_iff.mpr ⟨b, hb⟩)
      rw [blockWithId_eq hstanding, hnone, Option.isSome_none, if_neg Bool.false_ne_true]
      obtain ⟨n, hn, hedited⟩ := edited_upsertBlock hstanding.hblocks h
      exact ⟨n, _, hn, rfl, hedited⟩

/-- A set that the validator let through. -/
theorem edited_set {s : JsonObject ν} (hs : modelOk rules s = true) {e : Envelope ν} (hop : e.op = .set)
    (hset : validateSet (decoded e) = .ok ()) {t : Option (Map ν)}
    (h : (applyEvent (some (ofJsonObject s)) (decoded e)).state? = some t) :
    ∃ n edit, t = some n ∧ editOf s (decoded e) = some edit ∧ Edited s edit (marshalSnapshot n) := by
  obtain ⟨⟨bs, hbs⟩, -⟩ := exists_blocks_meta hs
  rw [go_set_iff] at hset
  unfold applyEvent at h
  unfold editOf
  simp only [decoded, hop] at h ⊢
  rcases hm : e.meta_ with _ | m <;> rcases hb : e.block with _ | block <;> rcases hk : e.mask with _ | mask <;>
    simp only [hm, hb, hk, Option.getD_some, Option.getD_none, Option.or_none, Option.none_or] at hset h ⊢
  · -- a whole block
    obtain ⟨n, hn, hedited⟩ := edited_upsertBlock hbs (by simpa using h)
    exact ⟨n, _, hn, rfl, hedited⟩
  · rcases hset with ⟨rfl, -⟩ | ⟨hpre, hne, hpatch⟩
    · obtain ⟨n, hn, hedited⟩ := edited_upsertBlock hbs (by simpa using h)
      exact ⟨n, _, hn, rfl, hedited⟩
    · have hmask : mask ≠ "" := by
        rintro rfl
        exact absurd hpre (by decide)
      rw [if_neg hmask] at h ⊢
      exact edited_setByMask hs (.inr ⟨hpre, (go_fieldPatch_iff hpre block).mp hpatch⟩) h
  · -- the metadata
    have hmask : mask ≠ "" := by
      rintro rfl
      exact absurd hset.1 (by decide)
    rw [if_neg hmask] at h ⊢
    exact edited_setByMask hs (.inl hset.1) h

/-- An append that the validator let through. -/
theorem edited_append {s : JsonObject ν} (hs : modelOk rules s = true) {e : Envelope ν} (hop : e.op = .append)
    (happend : validateAppend (decoded e) = .ok ()) {t : Option (Map ν)}
    (h : (applyEvent (some (ofJsonObject s)) (decoded e)).state? = some t) :
    ∃ n edit, t = some n ∧ editOf s (decoded e) = some edit ∧ Edited s edit (marshalSnapshot n) := by
  unfold applyEvent at h
  unfold editOf
  simp only [decoded, hop, validateAppend] at h happend ⊢
  cases hb : e.block with
  | none => simp [hb] at happend
  | some block =>
    simp only [hb, seq_eq_ok, check_eq_ok, Bool.and_eq_true] at happend
    obtain ⟨⟨⟨-, hpre⟩, -⟩, hpatch⟩ := happend
    simp only [hb, Option.getD_some] at h ⊢
    exact edited_appendByMask hs hpre ((go_fieldPatch_iff hpre block).mp hpatch) h

/-- An event that is accepted on a valid document, or is a start, is an edit of the document. -/
theorem edited_apply_document {s : JsonObject ν} {e : Envelope ν} (hs : e.op = .start ∨ modelOk rules s = true)
    {t : Option (Map ν)} (h : (Go.apply (some (ofJsonObject s)) (decoded e)).state? = some t) :
    ∃ n edit, t = some n ∧ editOf s (decoded e) = some edit ∧ Edited s edit (marshalSnapshot n) := by
  unfold Go.apply at h
  cases hvalid : (decoded e).validate with
  | error r => simp [hvalid] at h
  | ok u =>
    cases u
    simp only [hvalid] at h
    have hdoc : e.op ≠ .start → modelOk rules s = true := fun hne => hs.resolve_left hne
    have hkept : marshalSnapshot (ofJsonObject s) = s := marshalSnapshot_ofJsonObject s
    unfold Event.validate at hvalid
    obtain ⟨-, hpayload⟩ := seq_eq_ok.mp hvalid
    cases hop : e.op with
    | start =>
      unfold applyEvent at h
      unfold editOf
      simp only [decoded, hop] at h hpayload ⊢
      cases hmodel : e.model with
      | none => simp [hmodel] at hpayload
      | some model =>
        simp only [hmodel, seq_eq_ok, validateModel_eq_ok_iff] at hpayload
        obtain rfl : some (cloneMap model) = t := by simpa [hmodel] using h
        refine ⟨cloneMap model, .replace model, rfl, rfl, ?_⟩
        rw [cloneMap, marshalSnapshot_ofJsonObject]
        exact .replace hpayload.2
    | set => exact edited_set (hdoc (by simp [hop])) hop (by simpa only [decoded, hop] using hpayload) h
    | append => exact edited_append (hdoc (by simp [hop])) hop (by simpa only [decoded, hop] using hpayload) h
    | error =>
      unfold applyEvent at h
      unfold editOf
      simp only [decoded, hop, validateError, check_eq_ok, Bool.and_eq_true, beq_iff_eq] at h hpayload ⊢
      rw [hpayload.1.1] at h ⊢
      exact edited_setByMask (hdoc (by simp [hop])) (.inl (by decide)) h
    | ping | end_ =>
      simp only [applyEvent, decoded, hop] at h
      obtain rfl := Option.some.inj h
      refine ⟨_, .keep, rfl, ?_, ?_⟩
      · simp only [editOf, decoded, hop]
      · rw [hkept]
        exact .keep

/-- An event that is accepted on a snapshot whose document is valid, or is a start, is an edit of the document. -/
theorem edited_apply {m : Map ν} {e : Envelope ν} (hs : e.op = .start ∨ modelOk rules (marshalSnapshot m) = true)
    {t : Option (Map ν)} (h : (Go.apply (some m) (decoded e)).state? = some t) :
    ∃ n edit, t = some n ∧ editOf (marshalSnapshot m) (decoded e) = some edit ∧
      Edited (marshalSnapshot m) edit (marshalSnapshot n) := by
  obtain ⟨n, n', rfl, hn', halike⟩ := tracks_apply congruence_alike (decoded e) m _ (alike_ofJsonObject_marshalSnapshot m) t h
  obtain ⟨k, edit, hk, hedit, hedited⟩ := edited_apply_document hs hn'
  obtain rfl := Option.some.inj hk
  exact ⟨n, edit, rfl, hedit, halike.marshalSnapshot_eq ▸ hedited⟩

/-! ## Edits of a valid model -/

/-- The value has the type of the member that it becomes or extends: `type` becomes a non-empty string, the hierarchy
members become strings or null and get no elements of a list. -/
def Edit.typed : Edit ν → Bool
  | .field path value => blockWriteOk rules path value
  | .extend name value => !(hierarchyField rules name && value.asArr.any fun added => !added.isEmpty)
  | _ => true

theorem blocksOk_of_hasBlocks {s : JsonObject ν} (hs : modelOk rules s = true) {bs : List (JsonObject ν)}
    (hbs : HasBlocks s bs) : blocksOk rules (modelVersion s) bs = true := by
  obtain ⟨bs', hbs', hok⟩ := exists_blocks_of_modelOk hs
  have hsame : modelBlocks rules s = some bs := by
    rw [modelBlocks, hbs]
    exact DocTree.asObjs_map_obj bs
  rw [hsame] at hbs'
  exact Option.some.inj hbs' ▸ hok

/-- A valid model stays one with other blocks exactly when these are valid. -/
theorem modelOk_withBlocks_iff {s : JsonObject ν} (hs : modelOk rules s = true) (bs : List (JsonObject ν)) :
    modelOk rules (withBlocks s bs) = true ↔ blocksOk rules (modelVersion s) bs = true := by
  have hget : HasBlocks (withBlocks s bs) bs := Fields.get?_set_self s "blocks" _
  have hne : ∀ j, j ≠ "blocks" → Fields.get? (withBlocks s bs) j = Fields.get? s j := fun j hj =>
    Fields.get?_set_ne s _ hj
  constructor
  · intro h
    have hok := blocksOk_of_hasBlocks h hget
    rwa [modelVersion, hne _ (by decide), ← modelVersion] at hok
  · exact modelOk_of_blocks hs hne hget

/-- One inline block has changed. -/
theorem modelOk_changed_iff {s : JsonObject ν} (hs : modelOk rules s = true) {pre post : List (JsonObject ν)}
    {b b' : JsonObject ν} (hbs : HasBlocks s (pre ++ b :: post)) (href : Fields.has b "ref" = false) {k : String}
    (hkid : k ≠ "id") (hkref : k ≠ "ref") (hne : ∀ j, j ≠ k → Fields.get? b' j = Fields.get? b j) :
    modelOk rules (withBlocks s (pre ++ b' :: post)) = true ↔
      (k = "type" → memberIs DocTree.isNonEmptyStr b' k = true) ∧
        (hierarchyField rules k = true → memberMayBe DocTree.isNullableStr b' k = true) := by
  have hblocks := blocksOk_of_hasBlocks hs hbs
  have hinline := inlineBlockOk_of_blockOk (blockOk_of_mem hblocks (b := b) (by simp)) href
  have href' : Fields.has b' "ref" = false := by rwa [Fields.has, hne _ hkref.symm, ← Fields.has]
  rw [modelOk_withBlocks_iff hs, ← inlineBlockOk_change_iff hinline hkid hne]
  constructor
  · exact fun h => inlineBlockOk_of_blockOk (blockOk_of_mem h (by simp)) href'
  · exact fun h => blocksOk_replace hblocks (blockOk_of_inlineBlockOk h href') (idOf_congr (hne _ hkid.symm))
      fun htrue => absurd htrue (by rw [href']; exact Bool.false_ne_true)

theorem hierarchyField_ne_type {R : Rules} {k : String} (h : hierarchyField R k = true) : k ≠ "type" := by
  rintro rfl
  simp [hierarchyField] at h

/-- The member under the first name of a path, after the write of a value that is to be of a kind `p` which no object
is. -/
theorem memberIs_writeAt_iff {p : Json ν → Bool} (hobj : ∀ fs, p (.obj fs) = false) (b : JsonObject ν) (k : String)
    (rest : List String) (value : Json ν) :
    memberIs p (DocTree.writeAt b (k :: rest) value) k = (rest.isEmpty && p value) := by
  rw [memberIs, DocTree.get?_writeAt_self]
  cases rest with
  | nil => rfl
  | cons j rest => exact hobj _

theorem memberMayBe_writeAt_iff {p : Json ν → Bool} (hobj : ∀ fs, p (.obj fs) = false) (b : JsonObject ν) (k : String)
    (rest : List String) (value : Json ν) :
    memberMayBe p (DocTree.writeAt b (k :: rest) value) k = (rest.isEmpty && p value) := by
  rw [memberMayBe, DocTree.get?_writeAt_self]
  cases rest with
  | nil => rfl
  | cons j rest => exact hobj _

/-- A write in a block. -/
theorem field_typed_iff {b : JsonObject ν} {k : String} {rest : List String} {value : Json ν} :
    ((k = "type" → memberIs DocTree.isNonEmptyStr (DocTree.writeAt b (k :: rest) value) k = true) ∧
        (hierarchyField rules k = true →
          memberMayBe DocTree.isNullableStr (DocTree.writeAt b (k :: rest) value) k = true)) ↔
      blockWriteOk rules (k :: rest) value = true := by
  rw [memberIs_writeAt_iff (fun _ => rfl), memberMayBe_writeAt_iff (fun _ => rfl), blockWriteOk]
  by_cases htype : k = "type"
  · have hfield : hierarchyField rules k = false := Bool.eq_false_iff.mpr fun h => hierarchyField_ne_type h htype
    simp [htype, htype ▸ hfield]
  · rw [if_neg htype]
    split_ifs with hfield
    · exact ⟨fun h => h.2 hfield, fun h => ⟨fun h' => absurd h' htype, fun _ => h⟩⟩
    · exact ⟨fun _ => rfl, fun _ => ⟨fun h => absurd h htype, fun h => absurd h hfield⟩⟩

/-- An append to a field of a complete inline block. -/
theorem extend_typed_iff {b : JsonObject ν} (hok : inlineBlockOk rules b = true) {name : String} (hid : name ≠ "id")
    {value v : Json ν} (h : Extended (Fields.get? b name) value v) :
    ((name = "type" → memberIs DocTree.isNonEmptyStr (Fields.set b name v) name = true) ∧
        (hierarchyField rules name = true → memberMayBe DocTree.isNullableStr (Fields.set b name v) name = true)) ↔
      (Edit.extend name value).typed = true := by
  obtain ⟨htype, hnullable⟩ := (inlineBlockOk_change_iff hok hid fun _ _ => rfl).mp hok
  -- `type` is a string that is not empty, and only extended by strings
  have hstr : name = "type" → ∃ t, t ≠ "" ∧ Fields.get? b name = some (.str t) := by
    intro hname
    obtain ⟨w, hw, hne⟩ := memberIs_iff.mp (htype hname)
    obtain ⟨t, rfl, ht⟩ := DocTree.isNonEmptyStr_iff.mp hne
    exact ⟨t, ht, hw⟩
  have hnotNull : name = "type" → (Fields.get? b name).getD .null ≠ .null := by
    intro hname
    obtain ⟨t, -, hget⟩ := hstr hname
    rw [hget]
    exact fun h => by cases h
  rw [memberIs, memberMayBe, Fields.get?_set_self, Edit.typed]
  cases h with
  | text hnull => exact ⟨fun _ => by simp [DocTree.asArr], fun _ => ⟨fun h => absurd hnull (hnotNull h), fun _ => rfl⟩⟩
  | @textOn before added hget =>
    refine ⟨fun _ => by simp [DocTree.asArr], fun _ => ⟨fun hname => ?_, fun _ => rfl⟩⟩
    obtain ⟨t, ht, hget'⟩ := hstr hname
    obtain rfl : before = t := by simpa [hget] using hget'
    exact DocTree.isNonEmptyStr_iff.mpr ⟨_, rfl, by simp [String.append_eq_empty_iff, ht]⟩
  | @list added hnull =>
    by_cases hadded : added = []
    · simp [hadded, DocTree.asArr, DocTree.isNullableStr, DocTree.isNull]
      exact fun h => absurd hnull (hnotNull h)
    · rw [if_neg hadded]
      simp [hadded, DocTree.asArr, DocTree.isNullableStr, DocTree.isNull, DocTree.asStr]
      exact fun _ h => absurd hnull (hnotNull h)
  | @listOn before added hget =>
    have hfield : hierarchyField rules name = false := by
      refine Bool.eq_false_iff.mpr fun h => ?_
      have hnull := memberMayBe_iff.mp (hnullable h) _ hget
      simp [DocTree.isNullableStr, DocTree.isNull, DocTree.asStr] at hnull
    refine ⟨fun _ => by simp [hfield], fun _ => ⟨fun hname => ?_, fun h => by simp [hfield] at h⟩⟩
    obtain ⟨t, -, hget'⟩ := hstr hname
    rw [hget] at hget'
    cases hget'

/-- A valid model stays one exactly under typed edits. -/
theorem modelOk_edited_iff {s s' : JsonObject ν} (hs : modelOk rules s = true) {edit : Edit ν}
    (h : Edited s edit s') : modelOk rules s' = true ↔ edit.typed = true := by
  cases h with
  | replace hok => exact ⟨fun _ => rfl, fun _ => hok⟩
  | keep => exact ⟨fun _ => rfl, fun _ => hs⟩
  | metadata hne hm =>
    exact ⟨fun _ => rfl, fun _ => modelOk_of_meta hs (fun j hj => Fields.get?_set_ne s _ hj)
      (Fields.get?_set_self s "meta" _) fun h => by cases h⟩
  | replaced hbs hok hid href =>
    exact ⟨fun _ => rfl, fun _ => (modelOk_withBlocks_iff hs _).mpr
      (blocksOk_replace (blocksOk_of_hasBlocks hs hbs) hok hid href)⟩
  | added hbs hok hid href =>
    exact ⟨fun _ => rfl, fun _ => (modelOk_withBlocks_iff hs _).mpr
      (blocksOk_append (blocksOk_of_hasBlocks hs hbs) hok hid href)⟩
  | field hbs href hkid hkref =>
    rw [modelOk_changed_iff hs hbs href hkid hkref fun j hj => DocTree.get?_writeAt_ne _ _ _ _ hj]
    exact field_typed_iff
  | @extend pre post b name value v hbs hinline hid href hextended =>
    have hok := inlineBlockOk_of_blockOk (blockOk_of_mem (blocksOk_of_hasBlocks hs hbs) (b := b) (by simp)) hinline
    rw [modelOk_changed_iff hs hbs hinline hid href fun j hj => Fields.get?_set_ne b v hj]
    exact extend_typed_iff hok hid hextended

/-! ## Edits of a document that nests no deeper than a bound -/

/-- What the edit stores leaves room for what it is stored in: the document, its metadata or a list of blocks. -/
def Edit.fits (p : Scalar ν → Bool) (n : ℕ) : Edit ν → Bool
  | .replace model => DocTree.fits p n (.obj model)
  | .keep => true
  | .metadata path value => DocTree.fitsAt p (n - 1) path value
  | .whole block => DocTree.fits p (n - 2) (.obj block)
  | .field path value => DocTree.fitsAt p (n - 2) path value
  | .extend _ value => DocTree.fits p (n - 3) value

variable {p : Scalar ν → Bool} {n : ℕ}

theorem fits_blocks {s : JsonObject ν} (hs : DocTree.fits p (n + 2) (.obj s) = true) {bs : List (JsonObject ν)}
    (hbs : HasBlocks s bs) {b : JsonObject ν} (hb : b ∈ bs) : DocTree.fits p n (.obj b) = true :=
  DocTree.fits_arr_iff.mp (DocTree.fits_get? (DocTree.fits_obj_iff.mp hs) hbs) _ (List.mem_map_of_mem hb)

/-- Other blocks, of which one is new. -/
theorem fits_withBlocks_iff {s : JsonObject ν} (hs : DocTree.fits p (n + 2) (.obj s) = true)
    {pre post : List (JsonObject ν)} {b : JsonObject ν}
    (hothers : ∀ c ∈ pre ++ post, DocTree.fits p n (.obj c) = true) :
    DocTree.fits p (n + 2) (.obj (withBlocks s (pre ++ b :: post))) = true ↔ DocTree.fits p n (.obj b) = true := by
  rw [withBlocks, DocTree.fits_set_iff hs, DocTree.fits_arr_iff, List.forall_mem_map]
  constructor
  · exact fun h => h b (by simp)
  · intro hb c hc
    rw [List.mem_append, List.mem_cons, or_left_comm, ← List.mem_append] at hc
    exact hc.elim (fun h => h ▸ hb) (hothers c)

theorem fits_extended_iff (hnull : p .null = true) (hstr : ∀ t, p (.str t) = true) {old : Option (Json ν)}
    (hold : ∀ v, old = some v → DocTree.fits p (n + 1) v = true) {value v : Json ν} (h : Extended old value v) :
    DocTree.fits p (n + 1) v = true ↔ DocTree.fits p (n + 1) value = true := by
  cases h with
  | text => exact Iff.rfl
  | textOn => simp [DocTree.str, hstr]
  | @list added =>
    by_cases hadded : added = []
    · simp [hadded, DocTree.null, hnull, DocTree.fits_arr_iff]
    · rw [if_neg hadded]
  | listOn hget =>
    rw [DocTree.fits_arr_iff, DocTree.fits_arr_iff, List.forall_mem_append]
    exact and_iff_right (DocTree.fits_arr_iff.mp (hold _ hget))

/-- A document keeps its bound exactly under edits that fit. -/
theorem fits_edited_iff (hnull : p .null = true) (hstr : ∀ t, p (.str t) = true) {s s' : JsonObject ν}
    (hs : DocTree.fits p (n + 4) (.obj s) = true) {edit : Edit ν} (h : Edited s edit s') :
    DocTree.fits p (n + 4) (.obj s') = true ↔ edit.fits p (n + 4) = true := by
  have hothers : ∀ {pre post : List (JsonObject ν)} {b : JsonObject ν}, HasBlocks s (pre ++ b :: post) →
      ∀ c ∈ pre ++ post, DocTree.fits p (n + 2) (.obj c) = true := by
    intro pre post b hbs c hc
    refine fits_blocks hs hbs ?_
    rcases List.mem_append.mp hc with hc | hc <;> simp [hc]
  have hthis : ∀ {pre post : List (JsonObject ν)} {b : JsonObject ν}, HasBlocks s (pre ++ b :: post) →
      DocTree.fits p (n + 2) (.obj b) = true := fun hbs => fits_blocks hs hbs (by simp)
  cases h with
  | replace _ => exact Iff.rfl
  | keep => exact ⟨fun _ => rfl, fun _ => hs⟩
  | metadata hne hm =>
    rw [DocTree.fits_set_iff hs, DocTree.fits_writeAt_iff hne (DocTree.fits_get? (DocTree.fits_obj_iff.mp hs) hm)]
    rfl
  | replaced hbs _ _ _ => exact fits_withBlocks_iff hs (hothers hbs)
  | added hbs _ _ _ =>
    refine fits_withBlocks_iff hs fun c hc => ?_
    rw [List.append_nil] at hc
    exact fits_blocks hs hbs hc
  | @field pre post b k rest value hbs _ _ _ =>
    rw [fits_withBlocks_iff hs (hothers hbs), DocTree.fits_writeAt_iff (List.cons_ne_nil k rest) (hthis hbs)]
    rfl
  | extend hbs _ _ _ hextended =>
    rw [fits_withBlocks_iff hs (hothers hbs), DocTree.fits_set_iff (hthis hbs),
      fits_extended_iff hnull hstr (fun v hv => DocTree.fits_get? (DocTree.fits_obj_iff.mp (hthis hbs)) hv) hextended]
    rfl

end AgentUE.Conformance
