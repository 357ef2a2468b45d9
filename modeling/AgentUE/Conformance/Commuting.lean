import AgentUE.Conformance.MaskedSets

/-!
# Independent patches of the Python reducer

A patch that addresses the metadata reads and writes `meta` alone. One that addresses a block of the snapshot reads
the version and that block, and writes the block. So two patches with different targets commute, and none of them
decides whether the other is accepted.
-/

namespace AgentUE.Conformance

open Data

variable {ν : Type}

/-- What a patch is about. -/
inductive Target where
  | metadata
  | block (id : String)

/-- The target of an event, where a block has to be one of the snapshot. -/
def Addresses (s : JsonObject ν) (e : Envelope ν) : Target → Prop
  | .metadata => (e.op = .set ∨ e.op = .error) ∧ e.meta_.isSome = true
  | .block id => (e.op = .set ∨ e.op = .append) ∧ e.block.bind idOf = some id ∧
      ∃ bs, blocksIn s = some bs ∧ some id ∈ bs.map idOf

/-! ## The list of blocks -/

/-- A snapshot with a list of blocks, one of which has the id. -/
structure Present (s : JsonObject ν) (id : String) (bs : List (JsonObject ν)) : Prop where
  blocks : Fields.get? s "blocks" = some (.arr (bs.map .obj))
  found : bs.any (fun b => idOf b == some id) = true

/-- The loop over the blocks that changes the one with the id. -/
def changeBlock (id : String) (f : JsonObject ν → Except Rejection (JsonObject ν)) (bs : List (JsonObject ν)) :
    Option (List (JsonObject ν)) :=
  (updateFirst (fun b => .ok (idOf b == some id)) f (.ok []) bs).toOption

/-- The change keeps the id. -/
def KeepsId (id : String) (f : JsonObject ν → Except Rejection (JsonObject ν)) : Prop :=
  ∀ b b', idOf b = some id → f b = .ok b' → idOf b' = some id

theorem exists_present {s : JsonObject ν} {id : String} (h : ∃ bs, blocksIn s = some bs ∧ some id ∈ bs.map idOf) :
    ∃ bs, Present s id bs := by
  obtain ⟨bs, hbs, hmem⟩ := h
  obtain ⟨b, hb, hid⟩ := List.mem_map.mp hmem
  refine ⟨bs, ?_, List.any_eq_true.mpr ⟨b, hb, by rw [hid, beq_self_eq_true]⟩⟩
  cases hget : Fields.get? s "blocks" with
  | none =>
    -- no list, no block
    obtain rfl : [] = bs := by simpa [blocksIn, hget] using hbs
    cases hb
  | some v =>
    have hdefault := get?_blocks_setDefault hbs
    rwa [setDefault_of_get? hget, hget] at hdefault

/-- A change that is refused for the block that is there. -/
theorem changeBlock_of_fails {id : String} {f : JsonObject ν → Except Rejection (JsonObject ν)} {r : Rejection}
    (hf : ∀ b, f b = .error r) {bs : List (JsonObject ν)} (hfound : bs.any (fun b => idOf b == some id) = true) :
    changeBlock id f bs = none := by
  unfold changeBlock
  cases h : updateFirst (fun b => .ok (idOf b == some id)) f (.ok []) bs with
  | error r' => rfl
  | ok bs' =>
    rcases updateFirst_eq_ok.mp h with ⟨_, b, b', _, -, -, -, hb', -⟩ | ⟨_, hnone, -⟩
    · rw [hf b] at hb'
      cases hb'
    · obtain ⟨b, hb, hid⟩ := List.any_eq_true.mp hfound
      exact absurd hid (by simp [hnone b hb])

theorem any_of_changeBlock {id : String} {f : JsonObject ν → Except Rejection (JsonObject ν)} (hf : KeepsId id f)
    (other : String) {bs bs' : List (JsonObject ν)} (hfound : bs.any (fun b => idOf b == some id) = true)
    (hother : bs.any (fun b => idOf b == some other) = true) (h : changeBlock id f bs = some bs') :
    bs'.any (fun b => idOf b == some other) = true := by
  have hids : bs'.map idOf = bs.map idOf := by
    rcases updateFirst_eq_ok.mp (toOption_eq_some.mp h) with ⟨pre, b, b', post, rfl, -, hb, hb', rfl⟩ | ⟨_, hnone, -⟩
    · have hid := beq_iff_eq.mp hb
      simp [hid, hf b b' hid hb']
    · obtain ⟨b, hb, hid⟩ := List.any_eq_true.mp hfound
      exact absurd hid (by simp [hnone b hb])
  have hmap : ∀ cs : List (JsonObject ν), cs.any (fun b => idOf b == some other) = (cs.map idOf).any (· == some other) :=
    fun cs => by rw [List.any_map, Function.comp_def]
  rw [hmap, hids, ← hmap]
  exact hother

/-- Changes at two ids commute. -/
theorem changeBlock_comm {i j : String} (hne : i ≠ j) {f g : JsonObject ν → Except Rejection (JsonObject ν)}
    (hf : KeepsId i f) (hg : KeepsId j g) {bs : List (JsonObject ν)}
    (hi : bs.any (fun b => idOf b == some i) = true) (hj : bs.any (fun b => idOf b == some j) = true) :
    (changeBlock i f bs).bind (changeBlock j g) = (changeBlock j g bs).bind (changeBlock i f) := by
  refine updateFirst_comm (fun b hb => ?_) (fun b b' hb hb' => ?_) (fun b b' hb hb' => ?_) _ _ hi hj
  · rw [beq_iff_eq.mp hb]
    simpa using hne
  · exact beq_iff_eq.mpr (hf b b' (beq_iff_eq.mp hb) hb')
  · exact beq_iff_eq.mpr (hg b b' (beq_iff_eq.mp hb) hb')

/-- The snapshot with a new list of blocks. -/
def putBlocks (s : JsonObject ν) (bs : List (JsonObject ν)) : JsonObject ν :=
  Fields.set s "blocks" (.arr (bs.map .obj))

/-! ## What a patch reads and writes -/

/-- A patch of the metadata: what it makes of them, and nothing else. -/
def PatchesMeta (apply : JsonObject ν → Option (JsonObject ν)) (g : Json ν → Option (Json ν)) : Prop :=
  ∀ s v, Fields.get? s "meta" = some v → apply s = (g v).map (Fields.set s "meta")

/-- A patch of a block that is there, in a model of the version. -/
def PatchesBlock (version : Option (Json ν)) (id : String) (apply : JsonObject ν → Option (JsonObject ν))
    (f : JsonObject ν → Except Rejection (JsonObject ν)) : Prop :=
  ∀ s bs, Fields.get? s "version" = version → Present s id bs →
    apply s = (changeBlock id f bs).map (putBlocks s)

/-- A patch that is refused whatever the block is. -/
theorem patchesBlock_of_refused {version : Option (Json ν)} {id : String}
    {apply : JsonObject ν → Option (JsonObject ν)} (r : Rejection)
    (h : ∀ s bs, Fields.get? s "version" = version → Present s id bs → apply s = none) :
    ∃ f, KeepsId id f ∧ PatchesBlock version id apply f := by
  refine ⟨fun _ => .error r, fun b b' _ h => (nomatch h), fun s bs hversion hs => ?_⟩
  rw [h s bs hversion hs, changeBlock_of_fails (fun _ => rfl) hs.found, Option.map_none]

section

variable [DecidableEq ν]

theorem setByMask_patchesMeta {mask : String} (hmask : Text.hasPrefix mask "meta." = true) (source : JsonObject ν) :
    ∃ g, PatchesMeta (fun s => (Python.setByMask s mask source).state?) g := by
  unfold Python.setByMask
  cases hargs : Python.setArguments mask source with
  | error r => exact ⟨fun _ => none, fun s v _ => rfl⟩
  | ok arguments =>
    obtain ⟨root, path, value⟩ := arguments
    obtain ⟨rfl, -⟩ := Python.setArguments_of_cut (Text.cut_meta hmask) hargs
    refine ⟨fun v => v.asObj.map fun target => .obj (Python.writePath target path value), fun s v hv => ?_⟩
    simp only [if_true, Python.setMeta, setDefault_of_get? hv, hv, Option.bind_some]
    cases v.asObj <;> rfl

/-- A set or an error with metadata. -/
theorem applyPatch_patchesMeta {e : Envelope ν} (hop : e.op = .set ∨ e.op = .error) (hmeta : e.meta_.isSome = true) :
    ∃ g, PatchesMeta (fun s => (Python.applyPatch s e).state?) g := by
  obtain ⟨m, hm⟩ := Option.isSome_iff_exists.mp hmeta
  unfold Python.applyPatch
  cases hvalid : Python.validateOperation e with
  | error r => exact ⟨fun _ => none, fun s v _ => rfl⟩
  | ok u =>
    rcases hop with hop | hop
    · have hset : Python.validateSet e = .ok () := by
        simp only [Python.validateOperation, hop, seq_eq_ok] at hvalid
        exact hvalid.2
      rw [python_set_iff, hm] at hset
      rcases hb : e.block with _ | b <;> rcases hk : e.mask with _ | mask <;> simp only [hb, hk] at hset
      simp only [Python.applyEvent, hop, Python.applySet, hk, hm]
      exact setByMask_patchesMeta hset _
    · simp only [Python.applyEvent, hop]
      exact setByMask_patchesMeta (by decide +kernel) _

/-- A whole block: it takes the place of the one that is there, a reference in a model of the version only. -/
theorem upsertBlock_patchesBlock {payload : JsonObject ν} {id : String} (hid : idOf payload = some id)
    (hok : blockOk Python.rules payload = true) (version : Option (Json ν)) :
    ∃ f, KeepsId id f ∧ PatchesBlock version id (fun s => (Python.upsertBlock s payload).state?) f := by
  have harguments : ∀ s, Fields.get? s "version" = version → Python.upsertArguments s payload =
      (do check (!(Fields.has payload "ref" && version != some (.str protocolVersion))) .referenceRequiresVersion
          return id) := by
    rintro s rfl
    rw [Python.upsertArguments, memberIs_id_of_blockOk hok, (Python.validateBlock_eq_ok_iff payload).mpr hok, hid]
    rfl
  cases hversion : !(Fields.has payload "ref" && version != some (.str protocolVersion)) with
  | false =>
    refine patchesBlock_of_refused .referenceRequiresVersion fun s bs hs _ => ?_
    rw [Python.upsertBlock, harguments s hs, hversion]
    rfl
  | true =>
    refine ⟨fun _ => .ok payload, fun b b' _ h => Except.ok.inj h ▸ hid, fun s bs hs hpresent => ?_⟩
    have hargs : Python.upsertArguments s payload = .ok id := by
      rw [harguments s hs, hversion]
      rfl
    simp only [Python.upsertBlock, hargs, setDefault_of_get? hpresent.blocks]
    rw [Python.patchBlocks_state? hpresent.blocks]
    simp only [Python.idEquals_str, updateFirst_of_any hpresent.found _ (.ok [payload]) (.ok [])]
    rfl

/-- A field of a block. -/
theorem setByMask_patchesBlock {payload : JsonObject ν} {id : String} (hid : idOf payload = some id) {mask : String}
    (hmask : Text.hasPrefix mask "block." = true) (hok : patchable mask payload = true) (version : Option (Json ν)) :
    ∃ f, KeepsId id f ∧ PatchesBlock version id (fun s => (Python.setByMask s mask payload).state?) f := by
  unfold Python.setByMask
  cases hargs : Python.setArguments mask payload with
  | error r => exact patchesBlock_of_refused r fun _ _ _ _ => rfl
  | ok arguments =>
    obtain ⟨root, path, value⟩ := arguments
    obtain ⟨rfl, k, rest, rfl, hk⟩ := Python.setArguments_of_cut (Text.cut_block hmask) hargs
    refine ⟨Python.setInBlock (k :: rest) value,
      fun b b' hb hb' => (idOf_setInBlock rfl (patchable_ne hok hk).1 hb').trans hb, fun s bs _ hpresent => ?_⟩
    have hget : Fields.get? payload "id" = some (.str id) := by
      obtain ⟨v, hv, hstr⟩ := Option.bind_eq_some_iff.mp hid
      rw [hv, DocTree.asStr_eq_some.mp hstr]
    dsimp only
    rw [if_neg (by decide), if_pos rfl, hget, Python.patchBlocks_state? hpresent.blocks]
    simp only [Python.idEquals_str, updateFirst_of_any hpresent.found _ (.error _) (.ok [])]
    rfl

/-- An append to a block. -/
theorem applyAppend_patchesBlock {e : Envelope ν} {payload : JsonObject ν} {id mask : String}
    (hpayload : e.block = some payload) (hid : idOf payload = some id) (hk : e.mask = some mask)
    (hmask : Text.hasPrefix mask "block." = true) (hok : patchable mask payload = true) (version : Option (Json ν)) :
    ∃ f, KeepsId id f ∧ PatchesBlock version id (fun s => (Python.applyAppend s e).state?) f := by
  simp only [Python.applyAppend, hpayload, hk, Option.getD_some]
  cases hargs : Python.appendArguments mask payload with
  | error r => exact patchesBlock_of_refused r fun _ _ _ _ => rfl
  | ok arguments =>
    obtain ⟨field, blockId, newValue⟩ := arguments
    obtain ⟨hid', -, -, hfield⟩ := Python.appendArguments_eq_ok hargs
    obtain rfl : id = blockId := Option.some.inj (hid.symm.trans hid')
    refine ⟨Python.appendToBlock field newValue,
      fun b b' hb hb' => (idOf_appendToBlock (patchable_ne hok (hfield hmask)).1 hb').trans hb,
      fun s bs _ hpresent => ?_⟩
    dsimp only
    rw [setDefault_of_get? hpresent.blocks, Python.patchBlocks_state? hpresent.blocks]
    simp only [Python.idEquals_str, updateFirst_of_any hpresent.found _ (Python.appendMissing payload) (.ok [])]
    rfl

/-- A set or an append with a block. -/
theorem applyPatch_patchesBlock {e : Envelope ν} {id : String} (hop : e.op = .set ∨ e.op = .append)
    (hid : e.block.bind idOf = some id) (version : Option (Json ν)) :
    ∃ f, KeepsId id f ∧ PatchesBlock version id (fun s => (Python.applyPatch s e).state?) f := by
  obtain ⟨payload, hpayload, hid⟩ := Option.bind_eq_some_iff.mp hid
  unfold Python.applyPatch
  cases hvalid : Python.validateOperation e with
  | error r => exact patchesBlock_of_refused r fun _ _ _ _ => rfl
  | ok u =>
    rcases hop with hop | hop <;> simp only [Python.applyEvent, hop]
    · have hset : Python.validateSet e = .ok () := by
        simp only [Python.validateOperation, hop, seq_eq_ok] at hvalid
        exact hvalid.2
      rw [python_set_iff, hpayload] at hset
      rcases hm : e.meta_ with _ | m <;> rcases hk : e.mask with _ | mask <;> simp only [hm, hk] at hset
      · simp only [Python.applySet, hk, hpayload, Option.getD_some]
        exact upsertBlock_patchesBlock hid hset version
      · simp only [Python.applySet, hk, hm, hpayload, Option.none_or, Option.getD_some]
        exact setByMask_patchesBlock hid hset.1 ((python_fieldPatch_iff hset.1 payload).mp hset.2) version
    · have happend : Python.validateAppend e = .ok () := by
        simp only [Python.validateOperation, hop, seq_eq_ok] at hvalid
        exact hvalid.2
      rw [Python.validateAppend, hpayload, seq_eq_ok] at happend
      rcases hk : e.mask with _ | mask <;> simp only [hk, seq_eq_ok, reduceCtorEq, and_false] at happend
      have hmask := check_eq_ok.mp happend.2.1
      exact applyAppend_patchesBlock hpayload hid hk hmask ((python_fieldPatch_iff hmask payload).mp happend.2.2) version

/-! ## Two patches -/

theorem applyPatches_pair (s : JsonObject ν) (d e : Envelope ν) :
    (Python.applyPatches s [d, e]).state? =
      (Python.applyPatch s d).state?.bind fun s' => (Python.applyPatch s' e).state? := by
  rw [Python.applyPatches, Applied.run]
  cases Python.applyPatch s d with
  | raised r s' => rfl
  | returned s' =>
    simp only [Applied.run, Applied.state?_returned, Option.bind_some]
    cases Python.applyPatch s' e <;> rfl

omit [DecidableEq ν] in
/-- A patch of the metadata and one of a block. -/
theorem meta_block_comm {s : JsonObject ν} {v : Json ν} {id : String} {bs : List (JsonObject ν)}
    (hmeta : Fields.get? s "meta" = some v) (hs : Present s id bs) {d e : JsonObject ν → Option (JsonObject ν)}
    {g : Json ν → Option (Json ν)} {f : JsonObject ν → Except Rejection (JsonObject ν)} (hd : PatchesMeta d g)
    (he : PatchesBlock (Fields.get? s "version") id e f) : (d s).bind e = (e s).bind d := by
  have hafter : ∀ v', e (Fields.set s "meta" v') = (changeBlock id f bs).map (putBlocks (Fields.set s "meta" v')) :=
    fun v' => he _ bs (Fields.get?_set_ne s v' (by decide))
      ⟨(Fields.get?_set_ne s v' (by decide)).trans hs.blocks, hs.found⟩
  have hbefore : ∀ bs', d (putBlocks s bs') = (g v).map (Fields.set (putBlocks s bs') "meta") :=
    fun bs' => hd _ v ((Fields.get?_set_ne s _ (by decide)).trans hmeta)
  rw [hd s v hmeta, he s bs rfl hs, Option.bind_map, Option.bind_map]
  simp only [Function.comp_def, hafter, hbefore]
  cases g v with
  | none => cases changeBlock id f bs <;> rfl
  | some v' =>
    cases changeBlock id f bs with
    | none => rfl
    | some bs' =>
      exact congrArg some (Fields.set_comm (by decide) ((Fields.has_eq_true_iff s "meta").mpr ⟨v, hmeta⟩)
        ((Fields.has_eq_true_iff s "blocks").mpr ⟨_, hs.blocks⟩) v' _)

omit [DecidableEq ν] in
/-- Patches of two blocks. -/
theorem block_block_comm {s : JsonObject ν} {i j : String} (hne : i ≠ j) {bs : List (JsonObject ν)}
    (hi : Present s i bs) (hj : Present s j bs) {d e : JsonObject ν → Option (JsonObject ν)}
    {f g : JsonObject ν → Except Rejection (JsonObject ν)} (hf : KeepsId i f) (hg : KeepsId j g)
    (hd : PatchesBlock (Fields.get? s "version") i d f) (he : PatchesBlock (Fields.get? s "version") j e g) :
    (d s).bind e = (e s).bind d := by
  have hafter : ∀ {k : String} {patch h} {bs' : List (JsonObject ν)},
      PatchesBlock (Fields.get? s "version") k patch h → bs'.any (fun b => idOf b == some k) = true →
      patch (putBlocks s bs') = (changeBlock k h bs').map (putBlocks s) := by
    intro k patch h bs' hpatch hany
    rw [hpatch (putBlocks s bs') bs' (Fields.get?_set_ne s _ (by decide)) ⟨Fields.get?_set_self s "blocks" _, hany⟩]
    exact congrArg (Option.map · _) (funext fun cs => Fields.set_set s "blocks" _ _)
  have hcomm := congrArg (Option.map (putBlocks s)) (changeBlock_comm hne hf hg hi.found hj.found)
  rw [Option.map_bind, Option.map_bind] at hcomm
  rw [hd s bs rfl hi, he s bs rfl hj, Option.bind_map, Option.bind_map]
  calc (changeBlock i f bs).bind (e ∘ putBlocks s)
      = (changeBlock i f bs).bind (Option.map (putBlocks s) ∘ changeBlock j g) :=
        Option.bind_congr fun bs' hbs' => hafter he (any_of_changeBlock hf j hi.found hj.found hbs')
    _ = (changeBlock j g bs).bind (Option.map (putBlocks s) ∘ changeBlock i f) := hcomm
    _ = (changeBlock j g bs).bind (d ∘ putBlocks s) :=
        (Option.bind_congr fun bs' hbs' => hafter hd (any_of_changeBlock hg i hj.found hi.found hbs')).symm

/-- After an accepted start and any accepted events, two sets, appends or errors with different targets are accepted
in both orders or in none, and come to the same snapshot. -/
theorem python_patches_commute {s₀ s : JsonObject ν} {start : Envelope ν} (hstart : start.op = .start)
    {events : List (Envelope ν)} (hrun : (Python.applyPatches s₀ (start :: events)).state? = some s)
    {d e : Envelope ν} {t u : Target} (hd : Addresses s d t) (he : Addresses s e u) (hne : t ≠ u) :
    (Python.applyPatches s [d, e]).state? = (Python.applyPatches s [e, d]).state? := by
  obtain ⟨v, hv⟩ := (Fields.has_eq_true_iff _ _).mp (hasMeta_python_run hstart hrun)
  rw [applyPatches_pair, applyPatches_pair]
  cases t with
  | metadata =>
    obtain ⟨g, hg⟩ := applyPatch_patchesMeta hd.1 hd.2
    cases u with
    | metadata => exact absurd rfl hne
    | block j =>
      obtain ⟨hop, hid, hpresent⟩ := he
      obtain ⟨bs, hbs⟩ := exists_present hpresent
      obtain ⟨f, -, hf⟩ := applyPatch_patchesBlock hop hid (Fields.get? s "version")
      exact meta_block_comm hv hbs hg hf
  | block i =>
    obtain ⟨hop, hid, hpresent⟩ := hd
    obtain ⟨bs, hbs⟩ := exists_present hpresent
    obtain ⟨f, hkeeps, hf⟩ := applyPatch_patchesBlock hop hid (Fields.get? s "version")
    cases u with
    | metadata =>
      obtain ⟨g, hg⟩ := applyPatch_patchesMeta he.1 he.2
      exact (meta_block_comm hv hbs hg hf).symm
    | block j =>
      obtain ⟨hop', hid', hpresent'⟩ := he
      obtain ⟨bs', hbs'⟩ := exists_present hpresent'
      obtain rfl : bs = bs' := Option.some.inj ((blocksIn_of_get? hbs.blocks).symm.trans (blocksIn_of_get? hbs'.blocks))
      obtain ⟨g, hkeeps', hg⟩ := applyPatch_patchesBlock hop' hid' (Fields.get? s "version")
      exact block_block_comm (fun h => hne (congrArg Target.block h)) hbs hbs' hkeeps hkeeps' hf hg

/-- A start with a reference and a text. -/
def startsBoth : Envelope ℕ where
  op := .start
  seq := 1
  streamId := none
  ts := none
  mask := none
  eventType := none
  model := some [("version", .str "1.1"), ("biz", .str "b"), ("meta", .obj []), ("blocks", .arr
    [.obj [("id", .str "r"), ("ref", .str "https")],
      .obj [("id", .str "t"), ("type", .str "text"), ("text", .str "a")]])]
  meta_ := none
  block := none

/-- The content of the reference has been loaded. -/
def materializes : Envelope ℕ :=
  { startsBoth with op := .set, model := none, block := some [("id", .str "r"), ("type", .str "image")] }

/-- Meanwhile the text goes on. -/
def continuesText : Envelope ℕ :=
  { startsBoth with
    op := .append, mask := some "block.text", model := none, block := some [("id", .str "t"), ("text", .str "b")] }

/-- Both orders come to the loaded block and the longer text. -/
theorem python_patches_commute_materializes : ∃ s s', (Python.applyPatches [] [startsBoth]).state? = some s ∧
    (Python.applyPatches s [materializes, continuesText]).state? = some s' ∧
      (Python.applyPatches s [continuesText, materializes]).state? = some s' := by
  have hstart : (Python.applyPatches [] [startsBoth]).state? = some (startsBoth.model.getD []) := by decide +kernel
  have hstep : ((Python.applyPatches (startsBoth.model.getD []) [materializes, continuesText]).state?).isSome =
      true := by decide +kernel
  obtain ⟨s', hs'⟩ := Option.isSome_iff_exists.mp hstep
  refine ⟨_, s', hstart, hs', ?_⟩
  rw [← hs']
  refine (python_patches_commute rfl hstart (t := .block "r") (u := .block "t") ⟨.inl rfl, rfl, ?_⟩
    ⟨.inr rfl, rfl, ?_⟩ (by simp)).symm <;> exact ⟨_, rfl, by decide⟩

end

end AgentUE.Conformance
