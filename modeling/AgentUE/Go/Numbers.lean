import AgentUE.Go.Reducer

/-!
# Go SDK: the reducer does not look at numbers

Other numbers in a snapshot and in an event give the same verdict and the result with other numbers, whatever puts
them there. What decoding does to numbers can so be said once, about the result of a run.
-/

namespace AgentUE

open Data

variable {ν μ : Type}

/-- Other numbers in a scalar. -/
def Scalar.map (f : ν → μ) : Scalar ν → Scalar μ
  | .null => .null
  | .bool b => .bool b
  | .num n => .num (f n)
  | .str s => .str s

/-- Other numbers in a document. -/
def mapJson (f : ν → μ) : Json ν → Json μ := DocTree.map (Scalar.map f)

def mapObject (f : ν → μ) : JsonObject ν → JsonObject μ := DocTree.mapFields (Scalar.map f)

/-- Other numbers in the payloads of an event. -/
def Envelope.mapNumbers (f : ν → μ) (e : Envelope ν) : Envelope μ where
  op := e.op
  seq := e.seq
  streamId := e.streamId
  ts := e.ts
  mask := e.mask
  eventType := e.eventType
  model := e.model.map (mapObject f)
  meta_ := e.meta_.map (mapObject f)
  block := e.block.map (mapObject f)

section Documents

variable (f : ν → μ)

@[simp] theorem asStr_mapJson (v : Json ν) : (mapJson f v).asStr = v.asStr := by
  rcases v with (_ | _ | _ | _) | _ | _ <;> rfl

@[simp] theorem isNull_mapJson (v : Json ν) : (mapJson f v).isNull = v.isNull := by
  rcases v with (_ | _ | _ | _) | _ | _ <;> rfl

@[simp] theorem isObj_mapJson (v : Json ν) : (mapJson f v).isObj = v.isObj := by
  rcases v with (_ | _ | _ | _) | _ | _ <;> rfl

@[simp] theorem isNonEmptyStr_mapJson (v : Json ν) : (mapJson f v).isNonEmptyStr = v.isNonEmptyStr := by
  rw [DocTree.isNonEmptyStr, asStr_mapJson, DocTree.isNonEmptyStr]

@[simp] theorem isNullableStr_mapJson (v : Json ν) : (mapJson f v).isNullableStr = v.isNullableStr := by
  rw [DocTree.isNullableStr, isNull_mapJson, asStr_mapJson, DocTree.isNullableStr]

@[simp] theorem get?_mapObject (o : JsonObject ν) (k : String) :
    Fields.get? (mapObject f o) k = (Fields.get? o k).map (mapJson f) := DocTree.get?_mapFields o k

@[simp] theorem has_mapObject (o : JsonObject ν) (k : String) : Fields.has (mapObject f o) k = Fields.has o k :=
  DocTree.has_mapFields o k

@[simp] theorem keys_mapObject (o : JsonObject ν) : Fields.keys (mapObject f o) = Fields.keys o := by
  rw [mapObject, DocTree.mapFields_eq_map, Fields.keys, List.map_map]
  rfl

theorem memberIs_mapObject {p : Json μ → Bool} {q : Json ν → Bool} (h : ∀ v, p (mapJson f v) = q v) (o : JsonObject ν)
    (k : String) : memberIs p (mapObject f o) k = memberIs q o k := by
  rw [memberIs, memberIs, get?_mapObject]
  cases Fields.get? o k with
  | none => rfl
  | some v => exact h v

theorem memberMayBe_mapObject {p : Json μ → Bool} {q : Json ν → Bool} (h : ∀ v, p (mapJson f v) = q v)
    (o : JsonObject ν) (k : String) : memberMayBe p (mapObject f o) k = memberMayBe q o k := by
  rw [memberMayBe, memberMayBe, get?_mapObject]
  cases Fields.get? o k with
  | none => rfl
  | some v => exact h v

@[simp] theorem idOf_mapObject (o : JsonObject ν) : idOf (mapObject f o) = idOf o := by
  rw [idOf, get?_mapObject, idOf]
  cases Fields.get? o "id" with
  | none => rfl
  | some v => exact asStr_mapJson f v

theorem descend_mapJson (v : Json ν) (path : List String) :
    descend (mapJson f v) path = (descend v path).map (mapJson f) := by
  induction path generalizing v with
  | nil => rfl
  | cons k rest ih =>
    cases v with
    | leaf a => rfl
    | arr xs => rfl
    | obj o =>
      show descend (.obj (mapObject f o)) (k :: rest) = _
      rw [descend_cons, descend_cons, get?_mapObject]
      cases Fields.get? o k with
      | none => rfl
      | some w => exact ih w

theorem readPathOrLeaf_mapObject (o : JsonObject ν) (path : List String) :
    readPathOrLeaf (mapObject f o) path = (readPathOrLeaf o path).map (mapJson f) := by
  rw [readPathOrLeaf, readPathOrLeaf]
  have hdescend : descend (.obj (mapObject f o)) path = (descend (.obj o) path).map (mapJson f) :=
    descend_mapJson f (.obj o) path
  rw [hdescend]
  cases descend (.obj o) path with
  | some v => rfl
  | none =>
    cases path.getLast? with
    | none => rfl
    | some k => exact get?_mapObject f o k

end Documents

namespace Go

/-! ## Validation -/

section Validation

variable (f : ν → μ)

@[simp] theorem stringAt_mapObject (o : JsonObject ν) (k : String) : stringAt (mapObject f o) k = stringAt o k := by
  rw [stringAt, get?_mapObject, stringAt]
  cases Fields.get? o k with
  | none => rfl
  | some v => simp

theorem validateBlock_mapObject (b : JsonObject ν) : validateBlock (mapObject f b) = validateBlock b := by
  unfold validateBlock
  rw [stringAt_mapObject, stringAt_mapObject, get?_mapObject, Fields.size, keys_mapObject, ← Fields.size,
    memberMayBe_mapObject f (isNullableStr_mapJson f), memberMayBe_mapObject f (isNullableStr_mapJson f)]
  cases Fields.get? b "ref" with
  | none => rfl
  | some ref => simp

theorem asObjs_mapList {α β : Type} (g : α → β) (xs : List (DocTree String α)) :
    DocTree.asObjs (DocTree.mapList g xs) = (DocTree.asObjs xs).map (List.map (DocTree.mapFields g)) := by
  induction xs with
  | nil => rfl
  | cons x xs ih =>
    cases x with
    | leaf a => rfl
    | arr ys => rfl
    | obj fs =>
      rw [DocTree.mapList, DocTree.map, DocTree.asObjs, DocTree.asObjs, ih]
      cases DocTree.asObjs xs <;> rfl

/-- The blocks of a map with other leaves. -/
theorem blocksOf_mapFields {α β : Type} (g : α → β) (m : List (String × DocTree String α)) :
    blocksOf (DocTree.mapFields g m) =
      (blocksOf m).map fun p => (p.1.map (DocTree.mapFields g), DocTree.mapFields g p.2) := by
  unfold blocksOf
  rw [DocTree.get?_mapFields]
  cases Fields.get? m "blocks" with
  | none => simp [Except.map, DocTree.mapFields_set, DocTree.map, DocTree.mapList]
  | some raw =>
    cases raw with
    | leaf a => rfl
    | obj fs => rfl
    | arr xs =>
      simp only [Option.map_some, DocTree.map, DocTree.asArr, asObjs_mapList]
      cases DocTree.asObjs xs <;> rfl

theorem validateBlocks_mapObject (version : String) (blocks : List (JsonObject ν)) (ids : List String) :
    validateBlocks version (blocks.map (mapObject f)) ids = validateBlocks version blocks ids := by
  induction blocks generalizing ids with
  | nil => rfl
  | cons b rest ih =>
    rw [List.map_cons, validateBlocks, validateBlocks, validateBlock_mapObject, has_mapObject, idOf_mapObject]
    cases idOf b with
    | none => rfl
    | some id => simp only [ih]

theorem validateModel_mapObject (model : JsonObject ν) : validateModel (mapObject f model) = validateModel model := by
  unfold validateModel
  rw [stringAt_mapObject, stringAt_mapObject, memberIs_mapObject f (isObj_mapJson f), has_mapObject, mapObject,
    blocksOf_mapFields]
  cases blocksOf model with
  | error r => rfl
  | ok p =>
    obtain ⟨blocks, left⟩ := p
    simp only [Except.map, bind, Except.bind]
    rw [← validateBlocks_mapObject f]
    rfl

theorem validateBlockFieldPatch_mapObject (mask : String) (b : JsonObject ν) :
    validateBlockFieldPatch mask (mapObject f b) = validateBlockFieldPatch mask b := by
  rw [validateBlockFieldPatch, has_mapObject, validateBlockFieldPatch]

theorem validateSet_mapNumbers (e : Envelope ν) : validateSet (decoded (e.mapNumbers f)) = validateSet (decoded e) := by
  obtain ⟨op, seq, streamId, ts, mask, eventType, model, meta_, block⟩ := e
  simp only [validateSet, decoded, Envelope.mapNumbers, Option.isNone_map, Option.isSome_map]
  cases block with
  | none => rfl
  | some block =>
    simp only [Option.map_some, validateBlock_mapObject, validateBlockFieldPatch_mapObject]
    rfl

theorem validateAppend_mapNumbers (e : Envelope ν) :
    validateAppend (decoded (e.mapNumbers f)) = validateAppend (decoded e) := by
  obtain ⟨op, seq, streamId, ts, mask, eventType, model, meta_, block⟩ := e
  simp only [validateAppend, decoded, Envelope.mapNumbers, Option.isNone_map]
  cases block with
  | none => rfl
  | some block => simp only [Option.map_some, validateBlockFieldPatch_mapObject]

theorem validateError_mapNumbers (e : Envelope ν) :
    validateError (decoded (e.mapNumbers f)) = validateError (decoded e) := by
  obtain ⟨op, seq, streamId, ts, mask, eventType, model, meta_, block⟩ := e
  simp only [validateError, decoded, Envelope.mapNumbers, Option.isNone_map]
  cases meta_ with
  | none => rfl
  | some m => simp only [Option.map_some, Option.getD_some, memberIs_mapObject f (isObj_mapJson f)]

/-- The verdict on an event. -/
theorem validate_mapNumbers (e : Envelope ν) : (decoded (e.mapNumbers f)).validate = (decoded e).validate := by
  unfold Event.validate
  rw [validateSet_mapNumbers, validateAppend_mapNumbers, validateError_mapNumbers]
  obtain ⟨op, seq, streamId, ts, mask, eventType, model, meta_, block⟩ := e
  simp only [decoded, Envelope.mapNumbers, Option.isNone_map]
  cases op with
  | start =>
    cases model with
    | none => rfl
    | some model => simp only [Option.map_some, validateModel_mapObject]
  | set => rfl
  | append => rfl
  | error => rfl
  | ping => rfl
  | end_ => rfl

/-- `Parse` -/
theorem parse_mapNumbers (e : Envelope ν) :
    parse (e.mapNumbers f) = (parse e).map fun _ => decoded (e.mapNumbers f) := by
  have hdecode : decode (e.mapNumbers f) = (decode e).map fun _ => decoded (e.mapNumbers f) := by
    show (do
      check (decide (e.seq < 2 ^ 64)) (Failure.err .decode)
      check (e.ts.all fun ts => decide (ts < 2 ^ 63)) (Failure.err .decode)
      return decoded (e.mapNumbers f)) = _
    unfold decode
    cases check (decide (e.seq < 2 ^ 64)) (Failure.err .decode) with
    | error r => rfl
    | ok u => cases check (e.ts.all fun ts => decide (ts < 2 ^ 63)) (Failure.err .decode) <;> rfl
  have hparse : ∀ {event : Event ν}, decode e = .ok event → event = decoded e := by
    intro event h
    simp only [decode, seq_eq_ok, pure, Except.pure, Except.ok.injEq] at h
    exact h.2.2.symm
  unfold parse
  rw [hdecode]
  cases hd : decode e with
  | error r => rfl
  | ok event =>
    obtain rfl := hparse hd
    simp only [Except.map, bind, Except.bind, validate_mapNumbers]
    cases (decoded e).validate <;> rfl

end Validation

/-! ## The operations -/

section Operations

variable (f : ν → μ)

/-- Other numbers in a leaf of a snapshot. -/
def Leaf.map (f : ν → μ) : Leaf ν → Leaf μ
  | .json s => .json (s.map f)
  | .nilSlice => .nilSlice

/-- Other numbers in a snapshot. -/
def mapSnapshot (f : ν → μ) : Map ν → Map μ := DocTree.mapFields (Leaf.map f)

theorem ofJson_mapJson (v : Json ν) : ofJson (mapJson f v) = DocTree.map (Leaf.map f) (ofJson v) := by
  rw [ofJson, mapJson, DocTree.map_map, ofJson, DocTree.map_map]
  rfl

theorem ofJsonObject_mapObject (o : JsonObject ν) : ofJsonObject (mapObject f o) = mapSnapshot f (ofJsonObject o) := by
  have h := ofJson_mapJson f (.obj o)
  exact (DocTree.obj.inj h)

theorem marshalSnapshot_mapSnapshot (m : Map ν) : marshalSnapshot (mapSnapshot f m) = mapObject f (marshalSnapshot m) := by
  have hleaf : Leaf.marshal ∘ Leaf.map f = Scalar.map f ∘ Leaf.marshal := by
    funext a
    cases a <;> rfl
  have h : DocTree.map Leaf.marshal (DocTree.map (Leaf.map f) (.obj m)) =
      DocTree.map (Scalar.map f) (DocTree.map Leaf.marshal (.obj m)) := by
    rw [DocTree.map_map, DocTree.map_map, hleaf]
  exact DocTree.obj.inj h

@[simp] theorem get?_mapSnapshot (m : Map ν) (k : String) :
    Fields.get? (mapSnapshot f m) k = (Fields.get? m k).map (DocTree.map (Leaf.map f)) := DocTree.get?_mapFields m k

@[simp] theorem has_mapSnapshot (m : Map ν) (k : String) : Fields.has (mapSnapshot f m) k = Fields.has m k :=
  DocTree.has_mapFields m k

theorem mapSnapshot_set (m : Map ν) (k : String) (v : Any ν) :
    mapSnapshot f (Fields.set m k v) = Fields.set (mapSnapshot f m) k (DocTree.map (Leaf.map f) v) :=
  DocTree.mapFields_set m k v

theorem memberEquals_mapSnapshot (k text : String) (m : Map ν) :
    memberEquals k text (mapSnapshot f m) = memberEquals k text m := by
  unfold memberEquals
  rw [get?_mapSnapshot]
  rcases Fields.get? m k with _ | ((_ | _ | _ | _) | _) | _ | _ <;> rfl

/-- The loop over the blocks. -/
theorem updateFirst_mapSnapshot {id : String} {g : Map ν → Except Failure (Map ν)} {g' : Map μ → Except Failure (Map μ)}
    (hg : ∀ b, (g' (mapSnapshot f b)).toOption = (g b).toOption.map (mapSnapshot f))
    {missing : Except Failure (List (Map ν))} {missing' : Except Failure (List (Map μ))}
    (hmissing : missing'.toOption = missing.toOption.map (List.map (mapSnapshot f))) (blocks : List (Map ν)) :
    (updateFirst (fun current => .ok (hasID id current)) g' missing' (blocks.map (mapSnapshot f))).toOption =
      (updateFirst (fun current => .ok (hasID id current)) g missing blocks).toOption.map (List.map (mapSnapshot f)) := by
  refine updateFirst_map (mapSnapshot f) (fun b _ => ⟨hasID id b, rfl, ?_⟩) (fun b _ _ => hg b) fun _ => hmissing
  exact congrArg Except.ok (memberEquals_mapSnapshot f "id" id b)

theorem patchBlocks_mapSnapshot {id : String} {g : Map ν → Except Failure (Map ν)} {g' : Map μ → Except Failure (Map μ)}
    (hg : ∀ b, (g' (mapSnapshot f b)).toOption = (g b).toOption.map (mapSnapshot f))
    {missing : Except Failure (List (Map ν))} {missing' : Except Failure (List (Map μ))}
    (hmissing : missing'.toOption = missing.toOption.map (List.map (mapSnapshot f))) (s : Option (Map ν)) :
    (patchBlocks (s.map (mapSnapshot f)) id g' missing').state? =
      (patchBlocks s id g missing).state?.map (Option.map (mapSnapshot f)) := by
  cases s with
  | none => rfl
  | some m =>
    have hmap : blocksOf (mapSnapshot f m) = (blocksOf m).map fun p => (p.1.map (mapSnapshot f), mapSnapshot f p.2) :=
      blocksOf_mapFields (Leaf.map f) m
    rw [Option.map_some]
    cases hblocks : blocksOf m with
    | error r =>
      rw [hblocks] at hmap
      simp [patchBlocks, hblocks, hmap, Except.map]
    | ok p =>
      obtain ⟨blocks, left⟩ := p
      rw [hblocks] at hmap
      rw [patchBlocks_of_blocksOf hmap, patchBlocks_of_blocksOf hblocks, updateFirst_mapSnapshot f hg hmissing,
        Option.map_map, Option.map_map]
      refine congrArg (fun store => Option.map store _) ?_
      funext bs
      refine congrArg some (Eq.trans ?_ (mapSnapshot_set f left "blocks" _).symm)
      rw [DocTree.map, DocTree.mapList_eq_map, List.map_map, List.map_map]
      rfl

theorem setInBlock_mapSnapshot (path : List String) (value : Json ν) (b : Map ν) :
    (setInBlock path (mapJson f value) (mapSnapshot f b)).toOption =
      (setInBlock path value b).toOption.map (mapSnapshot f) := by
  unfold setInBlock requireInlineBlock writePath
  rw [has_mapSnapshot, ofJson_mapJson, mapSnapshot, ← DocTree.mapFields_writeAt]
  cases Fields.has b "ref" <;> rfl

theorem setMeta_mapSnapshot (path : List String) (value : Json ν) (s : Option (Map ν)) :
    (setMeta (s.map (mapSnapshot f)) path (mapJson f value)).state? =
      (setMeta s path value).state?.map (Option.map (mapSnapshot f)) := by
  cases s with
  | none => rfl
  | some m =>
    simp only [setMeta, Option.map_some, Applied.state?_returned, mapSnapshot_set, writePath, ofJson_mapJson]
    rw [mapSnapshot, DocTree.childAt_mapFields, ← DocTree.mapFields_writeAt]
    rfl

theorem appendToBlock_mapSnapshot (field : String) (value : Json ν) (b : Map ν) :
    (appendToBlock field (mapJson f value) (mapSnapshot f b)).toOption =
      (appendToBlock field value b).toOption.map (mapSnapshot f) := by
  unfold appendToBlock requireInlineBlock
  rw [has_mapSnapshot, get?_mapSnapshot]
  cases Fields.has b "ref" with
  | true => rfl
  | false =>
    have hset : ∀ v : Any ν, Fields.set (mapSnapshot f b) field (DocTree.map (Leaf.map f) v) =
        mapSnapshot f (Fields.set b field v) := fun v => (mapSnapshot_set f b field v).symm
    have hlist : ∀ added : List (Json ν),
        (if DocTree.mapList (Scalar.map f) added = [] then .leaf .nilSlice
          else ofJson (.arr (DocTree.mapList (Scalar.map f) added)) : Any μ) =
        DocTree.map (Leaf.map f) (if added = [] then .leaf .nilSlice else ofJson (.arr added)) := by
      intro added
      cases added with
      | nil => rfl
      | cons x rest => exact ofJson_mapJson f (.arr (x :: rest))
    have happend : ∀ (old : List (Any ν)) (added : List (Json ν)),
        (.arr (DocTree.mapList (Leaf.map f) old ++ DocTree.mapList .json (DocTree.mapList (Scalar.map f) added)) : Any μ) =
          DocTree.map (Leaf.map f) (.arr (old ++ DocTree.mapList .json added)) := by
      intro old added
      have hadded : DocTree.mapList Leaf.json (DocTree.mapList (Scalar.map f) added) =
          DocTree.mapList (Leaf.map f) (DocTree.mapList .json added) := DocTree.arr.inj (ofJson_mapJson f (.arr added))
      rw [hadded, DocTree.map]
      simp only [DocTree.mapList_eq_map, List.map_append]
    rcases value with (_ | _ | _ | added) | added | _
    all_goals rcases Fields.get? b field with _ | ((_ | _ | _ | old) | _) | old | _
    all_goals try rfl
    · exact congrArg some (hset (.leaf (.json (.str added))))
    · exact congrArg some (hset (.leaf (.json (.str added))))
    · exact congrArg some (hset (.leaf (.json (.str (old ++ added)))))
    · exact congrArg some ((congrArg _ (hlist added)).trans (hset _))
    · exact congrArg some ((congrArg _ (hlist added)).trans (hset _))
    · exact congrArg some ((congrArg _ (hlist added)).trans (hset _))
    · exact congrArg some ((congrArg _ (happend old added)).trans (hset _))

/-- What a masked write reads from its payload. -/
theorem setArguments_mapObject (mask : String) (source : JsonObject ν) :
    setArguments mask (mapObject f source) = (setArguments mask source).map fun a => (a.1, a.2.1, mapJson f a.2.2) := by
  unfold setArguments
  cases Text.cut mask '.' with
  | none => rfl
  | some p =>
    obtain ⟨root, relative⟩ := p
    simp only [readPath, readPathOrLeaf_mapObject]
    cases check (relative != "") (Failure.err (.invalidSetMask mask)) with
    | error r => rfl
    | ok u => cases readPathOrLeaf source (Text.split relative '.') <;> rfl

theorem appendArguments_mapObject (mask : String) (block : JsonObject ν) :
    appendArguments mask (mapObject f block) =
      (appendArguments mask block).map fun a => (a.1, a.2.1, mapJson f a.2.2) := by
  unfold appendArguments
  simp only [stringAt_mapObject, get?_mapObject]
  cases check (Text.dropPrefix mask "block." != "" && !Text.contains (Text.dropPrefix mask "block.") '.')
      (Failure.err (.unsupportedAppendMask mask)) with
  | error r => rfl
  | ok u =>
    cases check (stringAt block "id" != "") (Failure.err .appendBlockRequiresId) with
    | error r => rfl
    | ok u => cases Fields.get? block (Text.dropPrefix mask "block.") <;> rfl

theorem upsertArguments_mapSnapshot (s : Option (Map ν)) (block : JsonObject ν) :
    upsertArguments (s.map (mapSnapshot f)) (mapObject f block) = upsertArguments s block := by
  have hversion : memberEquals "version" protocolVersion ((s.map (mapSnapshot f)).getD []) =
      memberEquals "version" protocolVersion (s.getD []) := by
    cases s with
    | none => rfl
    | some m => exact memberEquals_mapSnapshot f "version" protocolVersion m
  rw [upsertArguments, validateBlock_mapObject, has_mapObject, hversion, stringAt_mapObject, upsertArguments]

theorem cloneMap_mapObject (block : JsonObject ν) : cloneMap (mapObject f block) = mapSnapshot f (cloneMap block) :=
  ofJsonObject_mapObject f block

theorem upsertBlock_mapSnapshot (s : Option (Map ν)) (block : JsonObject ν) :
    (upsertBlock (s.map (mapSnapshot f)) (mapObject f block)).state? =
      (upsertBlock s block).state?.map (Option.map (mapSnapshot f)) := by
  unfold upsertBlock
  rw [upsertArguments_mapSnapshot, cloneMap_mapObject]
  cases upsertArguments s block with
  | error r => rfl
  | ok id => exact patchBlocks_mapSnapshot f (fun _ => rfl) rfl s

theorem setByMask_mapSnapshot (s : Option (Map ν)) (mask : String) (source : JsonObject ν) :
    (setByMask (s.map (mapSnapshot f)) mask (mapObject f source)).state? =
      (setByMask s mask source).state?.map (Option.map (mapSnapshot f)) := by
  unfold setByMask
  rw [setArguments_mapObject, stringAt_mapObject]
  cases setArguments mask source with
  | error r => rfl
  | ok a =>
    obtain ⟨root, path, value⟩ := a
    simp only [Except.map]
    split_ifs
    · exact setMeta_mapSnapshot f path value s
    · exact patchBlocks_mapSnapshot f (setInBlock_mapSnapshot f path value) rfl s
    · rfl

theorem appendByMask_mapSnapshot (s : Option (Map ν)) (mask : String) (block : JsonObject ν) :
    (appendByMask (s.map (mapSnapshot f)) mask (mapObject f block)).state? =
      (appendByMask s mask block).state?.map (Option.map (mapSnapshot f)) := by
  unfold appendByMask
  rw [appendArguments_mapObject]
  cases appendArguments mask block with
  | error r => rfl
  | ok a =>
    obtain ⟨field, id, value⟩ := a
    cases s with
    | none => rfl
    | some m =>
      have hblocks : blocksOf (mapSnapshot f m) =
          (blocksOf m).map fun p => (p.1.map (mapSnapshot f), mapSnapshot f p.2) := blocksOf_mapFields (Leaf.map f) m
      simp only [Except.map, Option.map_some, hblocks]
      cases blocksOf m with
      | error r => rfl
      | ok p =>
        obtain ⟨blocks, left⟩ := p
        have hany : (blocks.map (mapSnapshot f)).any (hasID id) = blocks.any (hasID id) := by
          rw [List.any_map]
          exact congrArg (fun q => blocks.any q) (funext fun b => memberEquals_mapSnapshot f "id" id b)
        simp only [hany]
        split_ifs
        · exact patchBlocks_mapSnapshot f (appendToBlock_mapSnapshot f field value) rfl (some left)
        · exact upsertBlock_mapSnapshot f (some left) block

/-- One event. -/
theorem apply_mapNumbers (s : Option (Map ν)) (e : Envelope ν) :
    (apply (s.map (mapSnapshot f)) (decoded (e.mapNumbers f))).state? =
      (apply s (decoded e)).state?.map (Option.map (mapSnapshot f)) := by
  unfold apply
  rw [validate_mapNumbers]
  cases (decoded e).validate with
  | error r => rfl
  | ok u =>
    obtain ⟨op, seq, streamId, ts, mask, eventType, model, meta_, block⟩ := e
    have hgetD : ∀ o : Option (JsonObject ν), (o.map (mapObject f)).getD [] = mapObject f (o.getD []) := by
      intro o
      cases o <;> rfl
    have hor : ((meta_.map (mapObject f)).or (block.map (mapObject f))).getD [] =
        mapObject f ((meta_.or block).getD []) := by
      cases meta_ <;> cases block <;> rfl
    cases op with
    | start =>
      cases model with
      | none => rfl
      | some model => exact congrArg (fun m => some (some m)) (cloneMap_mapObject f model)
    | set =>
      by_cases hmask : mask.getD "" = ""
      · have hset : ∀ {ω : Type} (t : Option (Map ω)) (model meta_ block : Option (JsonObject ω)),
            applyEvent t (decoded ⟨.set, seq, streamId, ts, mask, eventType, model, meta_, block⟩) =
              upsertBlock t (block.getD []) := fun t _ _ block => if_pos hmask
        rw [Envelope.mapNumbers, hset, hset, hgetD]
        exact upsertBlock_mapSnapshot f s _
      · have hset : ∀ {ω : Type} (t : Option (Map ω)) (model meta_ block : Option (JsonObject ω)),
            applyEvent t (decoded ⟨.set, seq, streamId, ts, mask, eventType, model, meta_, block⟩) =
              setByMask t (mask.getD "") ((meta_.or block).getD []) := fun t _ meta_ block => if_neg hmask
        rw [Envelope.mapNumbers, hset, hset, hor]
        exact setByMask_mapSnapshot f s _ _
    | append =>
      simp only [applyEvent, decoded, Envelope.mapNumbers, hgetD]
      exact appendByMask_mapSnapshot f s _ _
    | error =>
      simp only [applyEvent, decoded, Envelope.mapNumbers, hgetD]
      exact setByMask_mapSnapshot f s _ _
    | ping => rfl
    | end_ => rfl

end Operations

end Go

end AgentUE
