import AgentUE.Conformance.Validators
import AgentUE.Protocol.Identity
import AgentUE.Protocol.Validity
import AgentUE.Python.Reducer
import AgentUE.TypeScript.Reducer

/-!
# Reducers and the validity of their snapshots

A whole block or model is validated before it is applied, a masked payload is not. `TypedWrite` is the
check that is missing: a masked set, an append or an error leaves the typed members of blocks and
metadata well typed. On runs whose steps pass it, every snapshot of the Python and of the TypeScript
reducer is a valid model.
-/

namespace AgentUE.Conformance

open Data

variable {ν : Type}

/-- An append makes no list of a hierarchy member that is absent or null. -/
def appendWriteOk (R : Rules) (existing : JsonObject ν) (field : String) (value : Json ν) : Bool :=
  !(hierarchyField R field && value.asArr.isSome && memberMayBe DocTree.isNull existing field)

/-- The event, applied to the snapshot `s`, gives a typed member no value of another type. -/
def TypedWrite (R : Rules) (s : JsonObject ν) (e : Envelope ν) : Prop :=
  match e.op with
  | .set => ∀ mask root path value, e.mask = some mask →
      Python.setArguments mask ((e.meta_.or e.block).getD []) = .ok (root, path, value) →
      if root = "meta" then metaWriteOk (DocTree.childAt s "meta") path value = true
      else blockWriteOk R path value = true
  | .error => ∀ root path value,
      Python.setArguments "meta.error" (e.meta_.getD []) = .ok (root, path, value) →
      metaWriteOk (DocTree.childAt s "meta") path value = true
  | .append => ∀ field id value existing,
      Python.appendArguments (e.mask.getD "") (e.block.getD []) = .ok (field, id, value) →
      blockWithId s id = some existing → appendWriteOk R existing field value = true
  | _ => True

theorem blockWithId_of_modelBlocks {R : Rules} {s : JsonObject ν} {bs : List (JsonObject ν)}
    (h : modelBlocks R s = some bs) (id : String) :
    blockWithId s id = bs.find? fun b => idOf b == some id := by
  unfold modelBlocks at h
  unfold blockWithId
  cases hget : Fields.get? s "blocks" with
  | none =>
    cases hR : R.requireBlocks with
    | true => simp [hget, hR] at h
    | false =>
      obtain rfl : [] = bs := by simpa [hget, hR] using h
      rfl
  | some v =>
    simp only [hget] at h
    rw [Option.bind_some, h, Option.getD_some]

/-- The list of blocks is the one that the reducers look for. -/
theorem blocksIn_of_modelBlocks {R : Rules} {s : JsonObject ν} {bs : List (JsonObject ν)}
    (h : modelBlocks R s = some bs) : blocksIn s = some bs := by
  unfold modelBlocks at h
  unfold blocksIn
  cases hget : Fields.get? s "blocks" with
  | none => cases hR : R.requireBlocks <;> simp_all
  | some v => rwa [hget] at h

/-! ## Python -/

section Python

variable [DecidableEq ν]

/-- A block loop keeps a model valid when what it stores is complete, keeps or brings the id that was
looked for, and holds a reference only under version 1.1. -/
theorem modelOk_patchBlocks {s s₁ s' : JsonObject ν} {bs : List (JsonObject ν)}
    (hs : modelOk Python.rules s = true) (hblocks : blocksOk Python.rules (modelVersion s) bs = true)
    (hget : Fields.get? s₁ "blocks" = some (.arr (bs.map .obj)))
    (hne : ∀ j, j ≠ "blocks" → Fields.get? s₁ j = Fields.get? s j) {pid : Option (Json ν)}
    {f : JsonObject ν → Except Rejection (JsonObject ν)} {missing : Except Rejection (List (JsonObject ν))}
    (hf : ∀ pre b b' post, bs = pre ++ b :: post → (∀ c ∈ pre, Python.idEquals pid c = false) →
      Python.idEquals pid b = true → f b = .ok b' →
      blockOk Python.rules b' = true ∧ idOf b' = idOf b ∧
        (Fields.has b' "ref" = true → modelVersion s = some protocolVersion))
    (hm : ∀ added, missing = .ok added → ∃ block id, added = [block] ∧ idOf block = some id ∧
      pid = some (.str id) ∧ blockOk Python.rules block = true ∧
        (Fields.has block "ref" = true → modelVersion s = some protocolVersion))
    (h : (Python.patchBlocks s₁ pid f missing).state? = some s') : modelOk Python.rules s' = true := by
  rw [Python.patchBlocks_state? hget, Option.map_eq_some_iff] at h
  obtain ⟨bs', hu, rfl⟩ := h
  rw [toOption_eq_some] at hu
  refine modelOk_of_blocks hs (fun j hj => ?_) (Fields.get?_set_self s₁ "blocks" _) ?_
  · rw [Fields.get?_set_ne _ _ hj, hne j hj]
  · rcases updateFirst_eq_ok.mp hu with ⟨pre, b, b', post, rfl, hpre, hb, hb', rfl⟩ |
      ⟨added, hnone, hadded, rfl⟩
    · obtain ⟨hok, hid, href⟩ := hf pre b b' post rfl hpre hb hb'
      exact blocksOk_replace hblocks hok hid href
    · obtain ⟨block, id, rfl, hid, rfl, hok, href⟩ := hm added hadded
      refine blocksOk_append hblocks hok (fun c hc hcid => ?_) href
      have := hnone c hc
      simp [Python.idEquals_str, hcid, hid] at this

theorem modelOk_upsertBlock {s s' block : JsonObject ν} (hs : modelOk Python.rules s = true)
    (h : (Python.upsertBlock s block).state? = some s') : modelOk Python.rules s' = true := by
  obtain ⟨bs, hbs, hblocks⟩ := exists_blocks_of_modelOk hs
  obtain ⟨id, hidOf, -, hok, hversion, h⟩ := Python.exists_of_upsertBlock h
  have href : Fields.has block "ref" = true → modelVersion s = some protocolVersion := by
    intro href
    simp [modelVersion, hversion href]
  refine modelOk_patchBlocks hs hblocks (get?_blocks_setDefault (blocksIn_of_modelBlocks hbs))
    (fun j hj => get?_setDefault_ne hj)
    (fun pre b b' post _ _ hb hb' => ?_) (fun added hadded => ?_) h
  · obtain rfl : block = b' := by simpa using hb'
    rw [Python.idEquals_str] at hb
    exact ⟨hok, hidOf.trans (beq_iff_eq.mp hb).symm, href⟩
  · obtain rfl : [block] = added := by simpa using hadded
    exact ⟨block, id, rfl, hidOf, rfl, hok, href⟩

omit [DecidableEq ν] in
/-- A complete inline block stays one when a member is extended, whichever of the three ways it went: nothing or
null has given way to the appended value, or a text or a list, not always the block's own, has been extended. -/
theorem inlineBlockOk_of_extension {R : Rules} {b b' : JsonObject ν} {field : String} {value v : Json ν}
    (hok : inlineBlockOk R b = true) (hfield : field ≠ "id")
    (hne : ∀ j, j ≠ field → Fields.get? b' j = Fields.get? b j) (hself : Fields.get? b' field = some v)
    (hvalue : (value.asStr.isSome || value.asArr.isSome) = true) (hwrite : appendWriteOk R b field value = true)
    (hv : ((∀ u, Fields.get? b field = some u → u = .null) ∧ v.asStr = value.asStr) ∨
      (∃ old new, (∀ u, Fields.get? b field = some u → u = .str old) ∧ v = .str (old ++ new)) ∨
      ∃ old, (∀ u, Fields.get? b field = some u → u = .arr old) ∧ value.asArr.isSome = true) :
    inlineBlockOk R b' = true := by
  obtain ⟨htype, hnullable⟩ := (inlineBlockOk_change_iff hok hfield fun _ _ => rfl).mp hok
  refine inlineBlockOk_of_change hok hfield hne (fun hk => ?_) (fun hh => ?_)
  · obtain ⟨u, hu, hne⟩ := memberIs_iff.mp (htype hk)
    obtain ⟨s, rfl, hs⟩ := DocTree.isNonEmptyStr_iff.mp hne
    refine memberIs_iff.mpr ⟨v, hself, ?_⟩
    rcases hv with ⟨hnull, -⟩ | ⟨old, new, hold, rfl⟩ | ⟨old, hold, -⟩
    · cases hnull _ hu
    · obtain rfl : s = old := by simpa using hold _ hu
      exact DocTree.isNonEmptyStr_iff.mpr ⟨_, rfl, by simp [String.append_eq_empty_iff, hs]⟩
    · cases hold _ hu
  · refine memberMayBe_iff.mpr fun w hw => ?_
    obtain rfl : v = w := Option.some.inj (hself.symm.trans hw)
    have hlist : memberMayBe DocTree.isNull b field = true → value.asArr.isSome = false := by
      intro hnull
      simpa [appendWriteOk, hh, hnull] using hwrite
    rcases hv with ⟨hnull, hsame⟩ | ⟨old, new, -, rfl⟩ | ⟨old, hold, harr⟩
    · have habsent : memberMayBe DocTree.isNull b field = true := memberMayBe_iff.mpr fun u hu => by rw [hnull u hu]; rfl
      rw [hlist habsent, Bool.or_false] at hvalue
      simp [DocTree.isNullableStr, hsame, hvalue]
    · rfl
    · -- a list would need a list where the block has one already
      have habsent : memberMayBe DocTree.isNull b field = true := by
        refine memberMayBe_iff.mpr fun u hu => ?_
        have hstr := memberMayBe_iff.mp (hnullable hh) u hu
        rw [hold u hu] at hstr
        cases hstr
      rw [hlist habsent] at harr
      cases harr

omit [DecidableEq ν] in
theorem appendArguments_value {mask : String} {block : JsonObject ν} {field id : String} {value : Json ν}
    (h : Python.appendArguments mask block = .ok (field, id, value)) :
    (value.asStr.isSome || value.asArr.isSome) = true := by
  rw [Python.appendArguments, seq_eq_ok, seq_eq_ok] at h
  obtain ⟨-, -, h⟩ := h
  cases hget : Fields.get? block (Text.dropPrefix mask "block.") with
  | none => simp [hget] at h
  | some v =>
    simp only [hget, seq_eq_ok, check_eq_ok, pure, Except.pure, Except.ok.injEq, Prod.mk.injEq] at h
    obtain ⟨hv, -, -, rfl⟩ := h
    exact hv

theorem modelOk_applyAppend {s s' : JsonObject ν} (hs : modelOk Python.rules s = true) {e : Envelope ν}
    {mask : String} {block : JsonObject ν} (hop : e.op = .append) (hmask : e.mask = some mask)
    (hblock : e.block = some block) (hpre : Text.hasPrefix mask "block." = true)
    (hpatch : patchable mask block = true) (htyped : TypedWrite Python.rules s e)
    (h : (Python.applyAppend s e).state? = some s') : modelOk Python.rules s' = true := by
  obtain ⟨bs, hbs, hblocks⟩ := exists_blocks_of_modelOk hs
  cases hargs : Python.appendArguments (e.mask.getD "") block with
  | error r => simp [Python.applyAppend_of_error hblock hargs] at h
  | ok a =>
    obtain ⟨field, id, value⟩ := a
    rw [Python.applyAppend_of_ok hblock hargs] at h
    have htyped' : ∀ existing, blockWithId s id = some existing →
        appendWriteOk Python.rules existing field value = true := by
      intro existing hfind
      unfold TypedWrite at htyped
      simp only [hop] at htyped
      exact htyped field id value existing (by rw [hblock]; exact hargs) hfind
    have hvalue := appendArguments_value hargs
    rw [hmask, Option.getD_some] at hargs
    obtain ⟨hid, -, -, hfield⟩ := Python.appendArguments_eq_ok hargs
    obtain ⟨hneId, hneRef⟩ := patchable_ne hpatch (hfield hpre)
    refine modelOk_patchBlocks hs hblocks (get?_blocks_setDefault (blocksIn_of_modelBlocks hbs))
      (fun j hj => get?_setDefault_ne hj)
      (fun pre b b' post heq hpre hb hb' => ?_) (fun added hadded => ?_) h
    -- the block that is found, and the one that is added
    · obtain ⟨href, v, rfl, hv⟩ := Python.appendToBlock_eq_ok hb'
      have hfind : blockWithId s id = some b := by
        rw [blockWithId_of_modelBlocks hbs, List.find?_eq_some_iff_append]
        refine ⟨by rwa [Python.idEquals_str] at hb, pre, post, heq, fun c hc => ?_⟩
        have := hpre c hc
        rw [Python.idEquals_str] at this
        simp [this]
      have hmem : b ∈ bs := by simp [heq]
      have hinline := inlineBlockOk_of_blockOk (blockOk_of_mem hblocks hmem) href
      have href' : Fields.has (Fields.set b field v) "ref" = false := by
        rw [Fields.has_set, href]
        simpa using hneRef.symm
      have hok : inlineBlockOk Python.rules (Fields.set b field v) = true := by
        refine inlineBlockOk_of_extension hinline hneId (fun j hj => Fields.get?_set_ne b v hj)
          (Fields.get?_set_self b field v) hvalue (htyped' b hfind) ?_
        rcases hv with ⟨hnull, rfl⟩ | ⟨old, new, hold, -, rfl⟩ | ⟨old, new, hold, rfl, -⟩
        · exact .inl ⟨fun u hu => by simpa [hu] using hnull, rfl⟩
        · exact .inr (.inl ⟨old, new, fun u hu => Option.some.inj (hu.symm.trans hold), rfl⟩)
        · exact .inr (.inr ⟨old, fun u hu => Option.some.inj (hu.symm.trans hold), rfl⟩)
      exact ⟨blockOk_of_inlineBlockOk hok href', idOf_congr (Fields.get?_set_ne b v hneId.symm),
        fun h => by simp [href'] at h⟩
    · obtain ⟨-, hok, rfl⟩ := Python.appendMissing_eq_ok.mp hadded
      have href := inline_of_patchable hpatch
      exact ⟨block, id, rfl, hid, rfl, hok, fun h => by simp [href] at h⟩

omit [DecidableEq ν] in
theorem modelOk_setMeta {s s' : JsonObject ν} (hs : modelOk Python.rules s = true) {path : List String}
    {value : Json ν} (hwrite : metaWriteOk (DocTree.childAt s "meta") path value = true)
    (h : (Python.setMeta s path value).state? = some s') : modelOk Python.rules s' = true := by
  obtain ⟨m, hm, hok⟩ := exists_meta_of_modelOk hs
  have hchild : DocTree.childAt s "meta" = m := by simp [DocTree.childAt, hm, DocTree.asObj]
  unfold Python.setMeta at h
  simp only [setDefault_of_get? hm, hm, Option.bind_some, DocTree.asObj, Applied.state?_returned,
    Option.some.injEq] at h
  subst h
  rw [hchild] at hwrite
  exact modelOk_of_meta hs (fun j hj => Fields.get?_set_ne s _ hj) (Fields.get?_set_self s "meta" _)
    fun hR => metaOk_of_writtenTo (writtenTo_writeAt m path value) (hok hR) hwrite

/-- A masked write whose mask a validator let through. -/
theorem modelOk_setByMask {s s' : JsonObject ν} (hs : modelOk Python.rules s = true) {mask : String}
    {source : JsonObject ν}
    (hmask : Text.hasPrefix mask "meta." = true ∨
      (Text.hasPrefix mask "block." = true ∧ patchable mask source = true))
    (htyped : ∀ root path value, Python.setArguments mask source = .ok (root, path, value) →
      if root = "meta" then metaWriteOk (DocTree.childAt s "meta") path value = true
      else blockWriteOk Python.rules path value = true)
    (h : (Python.setByMask s mask source).state? = some s') : modelOk Python.rules s' = true := by
  rcases hmask with hmeta | ⟨hpre, hpatch⟩
  · obtain ⟨path, value, hargs, h⟩ := Python.exists_of_setByMask_meta hmeta h
    have hwrite := htyped _ _ _ hargs
    rw [if_pos rfl] at hwrite
    exact modelOk_setMeta hs hwrite h
  · obtain ⟨k, rest, value, hargs, hk, h⟩ := Python.exists_of_setByMask_block hpre h
    have hwrite := htyped _ _ _ hargs
    obtain ⟨hneId, hneRef⟩ := patchable_ne hpatch hk
    rw [if_neg (by decide)] at hwrite
    obtain ⟨bs, hbs, hblocks⟩ := exists_blocks_of_modelOk hs
    cases hget : Fields.get? s "blocks" with
    | none => simp [Python.patchBlocks, hget, Python.iterBlocks, updateFirst, bind, Except.bind,
        Applied.ofExcept] at h
    | some v =>
      have hget' : Fields.get? s "blocks" = some (.arr (bs.map .obj)) := by
        have := get?_blocks_setDefault (blocksIn_of_modelBlocks hbs)
        rwa [setDefault_of_get? hget] at this
      refine modelOk_patchBlocks hs hblocks hget' (fun _ _ => rfl)
        (fun pre b b' post heq _ _ hb' => ?_) (by simp) h
      rw [Python.setInBlock, seq_eq_ok, Python.requireInlineBlock, check_eq_ok] at hb'
      obtain ⟨href, hb'⟩ := hb'
      obtain rfl : Python.writePath b (k :: rest) value = b' := by simpa [pure, Except.pure] using hb'
      have hwritten := writtenTo_writeAt b (k :: rest) value
      have hrefb : Fields.has b "ref" = false := by simpa using href
      have href' : Fields.has (Python.writePath b (k :: rest) value) "ref" = false := by
        rw [Fields.has, Python.writePath, hwritten.get?_ne hneRef.symm]
        exact hrefb
      have hmem : b ∈ bs := by simp [heq]
      have hinline := inlineBlockOk_of_blockOk (blockOk_of_mem hblocks hmem) hrefb
      exact ⟨blockOk_of_inlineBlockOk (inlineBlockOk_of_writtenTo hwritten hinline hneId hwrite) href',
        idOf_congr (hwritten.get?_ne hneId.symm), fun h => by simp [href'] at h⟩

/-- A start replaces the snapshot by a valid model, whatever it was. -/
theorem modelOk_python_start {s s' : JsonObject ν} {e : Envelope ν} (hop : e.op = .start)
    (h : (Python.applyPatch s e).state? = some s') : modelOk Python.rules s' = true := by
  unfold Python.applyPatch at h
  cases hvalid : Python.validateOperation e with
  | error r => simp [hvalid] at h
  | ok u =>
    obtain ⟨model, hmodel, hok⟩ := python_start_payload hop hvalid
    simp only [hvalid, Python.applyEvent_start hop hmodel hok, Applied.state?_returned,
      Option.some.injEq] at h
    exact h ▸ hok

/-- One accepted, typed event keeps the snapshot a valid model. -/
theorem modelOk_python_step {s s' : JsonObject ν} (hs : modelOk Python.rules s = true) {e : Envelope ν}
    (htyped : TypedWrite Python.rules s e) (h : (Python.applyPatch s e).state? = some s') :
    modelOk Python.rules s' = true := by
  by_cases hstart : e.op = .start
  · exact modelOk_python_start hstart h
  unfold Python.applyPatch at h
  cases hvalid : Python.validateOperation e with
  | error r => simp [hvalid] at h
  | ok u =>
    simp only [hvalid] at h
    cases hop : e.op with
    | start => exact absurd hop hstart
    | set =>
      have hset : Python.validateSet e = .ok () := by
        simp only [Python.validateOperation, hop, seq_eq_ok] at hvalid
        exact hvalid.2
      rw [python_set_iff] at hset
      unfold TypedWrite at htyped
      simp only [Python.applyEvent, hop, Python.applySet] at h htyped
      rcases hm : e.meta_ with _ | m <;> rcases hb : e.block with _ | block <;>
        rcases hk : e.mask with _ | mask <;> simp only [hm, hb, hk] at hset h htyped
      · exact modelOk_upsertBlock hs h
      · exact modelOk_setByMask hs
          (.inr ⟨hset.1, (python_fieldPatch_iff hset.1 block).mp hset.2⟩)
          (fun root path value => htyped mask root path value rfl) h
      · exact modelOk_setByMask hs (.inl hset) (fun root path value => htyped mask root path value rfl) h
    | append =>
      obtain ⟨mask, block, hmask, hblock, hpre, hpatch⟩ := append_payload hop hvalid
      simp only [Python.applyEvent, hop] at h
      exact modelOk_applyAppend hs hop hmask hblock hpre hpatch htyped h
    | error =>
      unfold TypedWrite at htyped
      simp only [Python.applyEvent, hop] at h htyped
      refine modelOk_setByMask hs (.inl (by decide)) (fun root path value hargs => ?_) h
      obtain ⟨rfl, -⟩ := Python.setArguments_of_cut (Text.cut_meta (by decide)) hargs
      rw [if_pos rfl]
      exact htyped "meta" path value hargs
    | ping =>
      obtain rfl : s = s' := by simpa [Python.applyEvent, hop] using h
      exact hs
    | end_ =>
      obtain rfl : s = s' := by simpa [Python.applyEvent, hop] using h
      exact hs

/-- The run begins with a start. -/
def StartsRun (events : List (Envelope ν)) : Prop := ∃ e rest, events = e :: rest ∧ e.op = .start

omit [DecidableEq ν] in
theorem StartsRun.op_of_singleton {events : List (Envelope ν)} (h : StartsRun events) {e : Envelope ν}
    (hp : [e] <+: events) : e.op = .start := by
  obtain ⟨e', rest, rfl, hop⟩ := h
  obtain rfl : e = e' := by simpa using hp
  exact hop

/-- Each event that the Python reducer meets after the first is typed for the snapshot it meets. -/
def PythonTyped (s₀ : JsonObject ν) (events : List (Envelope ν)) : Prop :=
  ∀ p e s, p ++ [e] <+: events → p ≠ [] → (Python.applyPatches s₀ p).state? = some s →
    TypedWrite Python.rules s e

/-- The SDK's own validator accepts what the Python reducer has made of any first part of the run. -/
def PythonKeepsValid (s₀ : JsonObject ν) (events : List (Envelope ν)) : Prop :=
  ∀ p, p <+: events → p ≠ [] → ∀ s, (Python.applyPatches s₀ p).state? = some s →
    Python.UIModel.modelValidate s = .ok ()

theorem pythonKeepsValid_of_typed {s₀ : JsonObject ν} {events : List (Envelope ν)} (hstart : StartsRun events)
    (htyped : PythonTyped s₀ events) : PythonKeepsValid s₀ events := by
  intro p
  induction p using List.reverseRecOn with
  | nil => exact fun _ h => absurd rfl h
  | append_singleton p e ih =>
    intro hp _ s' hs'
    rw [Python.applyPatches, Applied.run_concat] at hs'
    obtain ⟨s, hs, hstep⟩ := Option.bind_eq_some_iff.mp hs'
    rw [Python.UIModel.modelValidate_eq_ok_iff]
    -- the first event is the start, every other one meets a valid snapshot
    by_cases hne : p = []
    · subst hne
      exact modelOk_python_start (hstart.op_of_singleton hp) hstep
    · have hvalid := ih ((List.prefix_append p [e]).trans hp) hne s hs
      rw [Python.UIModel.modelValidate_eq_ok_iff] at hvalid
      exact modelOk_python_step hvalid (htyped p e s hp hne hs) hstep

end Python

end AgentUE.Conformance
