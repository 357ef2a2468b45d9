import AgentUE.Conformance.Reducers
import AgentUE.Conformance.Validity
import AgentUE.Protocol.Identity

/-!
# Both server reducers keep the identity of blocks

Over runs of any length an accepted event adds at most one block, at the end, renames none, and changes only
the block that it names; a reference changes only when a whole block is set in its place.
-/

namespace AgentUE.Conformance

open Data

variable {ν : Type}

/-! ## Python -/

section Python

variable [DecidableEq ν]

/-- An accepted event of the Python reducer, with what it names. -/
def PythonKeeps (e : Envelope ν) (s s' : JsonObject ν) : Prop :=
  KeepsIdentity idOf (e.block.bind idOf) (e.op = .set ∧ e.mask = none) (e.block.isSome = true) s s'

/-- A block loop that looks for a string id. -/
theorem keepsIdentity_python_patchBlocks {s s₁ s' : JsonObject ν} {bs : List (JsonObject ν)}
    (hbs : blocksIn s = some bs)
    (hid : Identified idOf bs) (hget : Fields.get? s₁ "blocks" = some (.arr (bs.map .obj)))
    (hne : ∀ k, k ≠ "blocks" → Fields.get? s₁ k = Fields.get? s k) {pid : Option (Json ν)} {target : String}
    {f : JsonObject ν → Except Rejection (JsonObject ν)} {missing : Except Rejection (List (JsonObject ν))}
    {whole onBlock : Prop} (hpid : ∀ b ∈ bs, Python.idEquals pid b = true ↔ idOf b = some target)
    (hf : ∀ b b', f b = .ok b' → idOf b = some target → idOf b' = some target ∧ (Unresolved b → whole))
    (hm : ∀ added, missing = .ok added → ∃ b, added = [b] ∧ idOf b = some target ∧ target ≠ "") (hon : onBlock)
    (h : (Python.patchBlocks s₁ pid f missing).state? = some s') :
    KeepsIdentity idOf (some target) whole onBlock s s' := by
  rw [Python.patchBlocks_state? hget, Option.map_eq_some_iff] at h
  obtain ⟨bs', hu, rfl⟩ := h
  rw [toOption_eq_some] at hu
  refine keepsIdentity_of_touched hbs hid (Fields.get?_set_self s₁ "blocks" _)
    (touched_updateFirst hu hpid (fun b b' _ => hf b b') fun _ => hm) hon fun k hk => ?_
  rw [Fields.get?_set_ne _ _ hk, hne k hk]

theorem python_upsertBlock_keeps {s s' block : JsonObject ν} (hs : HasIdentities idOf s) {whole onBlock : Prop}
    (hwhole : whole) (hon : onBlock) (h : (Python.upsertBlock s block).state? = some s') :
    KeepsIdentity idOf (idOf block) whole onBlock s s' := by
  obtain ⟨bs, hbs, hid⟩ := hs
  obtain ⟨id, hidOf, hne, -, -, h⟩ := Python.exists_of_upsertBlock h
  rw [hidOf]
  refine keepsIdentity_python_patchBlocks hbs hid (get?_blocks_setDefault hbs) (fun k hk => get?_setDefault_ne hk)
    (fun b _ => ?_) (fun b b' hb' _ => ?_) (fun added hadded => ?_) hon h
  · rw [Python.idEquals_str, beq_iff_eq]
  · obtain rfl : block = b' := by simpa using hb'
    exact ⟨hidOf, fun _ => hwhole⟩
  · obtain rfl : [block] = added := by simpa using hadded
    exact ⟨block, rfl, hidOf, hne⟩

theorem python_applyAppend_keeps {s s' : JsonObject ν} (hs : HasIdentities idOf s) {e : Envelope ν} {mask : String}
    {block : JsonObject ν} (hmask : e.mask = some mask) (hblock : e.block = some block)
    (hpre : Text.hasPrefix mask "block." = true) (hpatch : patchable mask block = true) {whole onBlock : Prop}
    (hon : onBlock) (h : (Python.applyAppend s e).state? = some s') :
    KeepsIdentity idOf (idOf block) whole onBlock s s' := by
  obtain ⟨bs, hbs, hid⟩ := hs
  cases hargs : Python.appendArguments (e.mask.getD "") block with
  | error r => simp [Python.applyAppend_of_error hblock hargs] at h
  | ok a =>
    obtain ⟨field, id, value⟩ := a
    rw [Python.applyAppend_of_ok hblock hargs] at h
    rw [hmask, Option.getD_some] at hargs
    obtain ⟨hidOf, hne, -, hfield⟩ := Python.appendArguments_eq_ok hargs
    rw [hidOf]
    refine keepsIdentity_python_patchBlocks hbs hid (get?_blocks_setDefault hbs) (fun k hk => get?_setDefault_ne hk)
      (fun b _ => ?_) (fun b b' hb' hbid => ?_) (fun added hadded => ?_) hon h
    · rw [Python.idEquals_str, beq_iff_eq]
    · -- only an inline block is appended to
      obtain ⟨href, -⟩ := Python.appendToBlock_eq_ok hb'
      have hsame := idOf_appendToBlock (patchable_ne hpatch (hfield hpre)).1 hb'
      exact ⟨hsame.trans hbid, fun hunresolved => by simp [Unresolved, href] at hunresolved⟩
    · exact ⟨block, (Python.appendMissing_eq_ok.mp hadded).2.2.symm, hidOf, hne⟩

omit [DecidableEq ν] in
/-- A write to the metadata leaves the blocks alone. -/
theorem python_setMeta_blocks {s s' : JsonObject ν} {path : List String} {value : Json ν}
    (h : (Python.setMeta s path value).state? = some s') : Fields.get? s' "blocks" = Fields.get? s "blocks" := by
  have hdefault : ∀ v : Json ν, Fields.get? (setDefault s "meta" v) "blocks" = Fields.get? s "blocks" := by
    intro v
    unfold setDefault
    split
    · rfl
    · exact Fields.get?_set_ne s v (by decide)
  unfold Python.setMeta at h
  dsimp only at h
  split at h
  · simp at h
  · obtain rfl := Option.some.inj h
    rw [Fields.get?_set_ne _ _ (by decide), hdefault]

theorem python_setByMask_meta {s s' : JsonObject ν} {mask : String} {source : JsonObject ν}
    (hmeta : Text.hasPrefix mask "meta." = true) (h : (Python.setByMask s mask source).state? = some s') :
    Fields.get? s' "blocks" = Fields.get? s "blocks" := by
  obtain ⟨path, value, -, h⟩ := Python.exists_of_setByMask_meta hmeta h
  exact python_setMeta_blocks h

/-- The id that a field patch looks for is that of one of the blocks. -/
theorem python_idEquals_iff {source b : JsonObject ν} (hb : ∃ id, idOf b = some id ∧ id ≠ "") :
    Python.idEquals (Fields.get? source "id") b = true ↔ idOf b = idOf source := by
  obtain ⟨id, hid, -⟩ := hb
  obtain ⟨v, hv, hstr⟩ := Option.bind_eq_some_iff.mp hid
  obtain rfl := DocTree.asStr_eq_some.mp hstr
  rw [hid]
  unfold Python.idEquals idOf
  rw [hv]
  cases hget : Fields.get? source "id" with
  | none => simp
  | some w =>
    simp only [Option.getD_some, decide_eq_true_eq, Option.bind_some]
    rw [eq_comm (a := some id), DocTree.asStr_eq_some, eq_comm]

theorem python_setByMask_keeps {s s' : JsonObject ν} (hs : HasIdentities idOf s) {mask : String}
    {source : JsonObject ν}
    (hpre : Text.hasPrefix mask "block." = true) (hpatch : patchable mask source = true) {whole onBlock : Prop}
    (hon : onBlock) (h : (Python.setByMask s mask source).state? = some s') :
    KeepsIdentity idOf (idOf source) whole onBlock s s' := by
  obtain ⟨bs, hbs, hid⟩ := hs
  obtain ⟨k, rest, value, -, hk, h⟩ := Python.exists_of_setByMask_block hpre h
  cases hget : Fields.get? s "blocks" with
  | none =>
    simp [Python.patchBlocks, hget, Python.iterBlocks, updateFirst, bind, Except.bind, Applied.ofExcept] at h
  | some v =>
    have hget' : Fields.get? s "blocks" = some (.arr (bs.map .obj)) := by
      have hdefault := get?_blocks_setDefault hbs
      rwa [setDefault_of_get? hget] at hdefault
    have hbody : ∀ b b', Python.setInBlock (k :: rest) value b = .ok b' → idOf b' = idOf b ∧ ¬ Unresolved b := by
      intro b b' hb'
      refine ⟨idOf_setInBlock rfl (patchable_ne hpatch hk).1 hb', ?_⟩
      rw [Python.setInBlock, seq_eq_ok, Python.requireInlineBlock, check_eq_ok, Bool.not_eq_true'] at hb'
      rw [Unresolved, hb'.1]
      exact Bool.false_ne_true
    cases hsource : idOf source with
    | none =>
      -- no block is found
      rw [Python.patchBlocks_state? hget', Option.map_eq_some_iff] at h
      obtain ⟨bs', hu, -⟩ := h
      rcases updateFirst_eq_ok.mp (toOption_eq_some.mp hu) with
        ⟨pre, b, b', post, rfl, -, hb, -⟩ | ⟨added, -, hadded, -⟩
      · have hnamed := hid.named b (by simp)
        rw [(python_idEquals_iff hnamed).mp hb, hsource] at hnamed
        obtain ⟨id, hnone, -⟩ := hnamed
        cases hnone
      · cases hadded
    | some target =>
      refine keepsIdentity_python_patchBlocks hbs hid hget' (fun _ _ => rfl) (fun b hb => ?_)
        (fun b b' hb' hbid => ?_) (by simp) hon h
      · rw [python_idEquals_iff (hid.named b hb), hsource]
      · obtain ⟨hsame, hinline⟩ := hbody b b' hb'
        exact ⟨hsame.trans hbid, fun hunresolved => absurd hunresolved hinline⟩

/-- One accepted event that is no start. -/
theorem pythonKeeps_step {s s' : JsonObject ν} (hs : HasIdentities idOf s) {e : Envelope ν} (hop : e.op ≠ .start)
    (h : (Python.applyPatch s e).state? = some s') : PythonKeeps e s s' := by
  unfold Python.applyPatch at h
  cases hvalid : Python.validateOperation e with
  | error r => simp [hvalid] at h
  | ok u =>
    cases u
    simp only [hvalid, Python.applyEvent] at h
    unfold PythonKeeps
    cases hop' : e.op with
    | start => exact absurd hop' hop
    | set =>
      have hset : Python.validateSet e = .ok () := by
        simp only [Python.validateOperation, hop', seq_eq_ok] at hvalid
        exact hvalid.2
      rw [python_set_iff] at hset
      simp only [hop', Python.applySet] at h
      rcases hm : e.meta_ with _ | m <;> rcases hb : e.block with _ | block <;>
        rcases hk : e.mask with _ | mask <;> simp only [hm, hb, hk] at hset h
      · exact python_upsertBlock_keeps hs ⟨rfl, rfl⟩ rfl h
      · exact python_setByMask_keeps hs hset.1 ((python_fieldPatch_iff hset.1 block).mp hset.2) rfl h
      · exact keepsIdentity_of_blocks_eq hs (python_setByMask_meta hset h) (by simp)
    | append =>
      obtain ⟨mask, block, hmask, hblock, hpre, hpatch⟩ := append_payload hop' hvalid
      rw [hop'] at h
      rw [hblock]
      exact python_applyAppend_keeps hs hmask hblock hpre hpatch rfl h
    | error =>
      simp only [Python.validateOperation, hop', Python.validateErrorEvent, seq_eq_ok, check_eq_ok,
        Option.isNone_iff_eq_none] at hvalid
      rw [hop'] at h
      simp only [hvalid.2.2, Option.bind_none]
      exact keepsIdentity_of_blocks_eq hs (python_setByMask_meta (by decide) h) (by simp)
    | ping =>
      simp only [Python.validateOperation, hop', seq_eq_ok, check_eq_ok, Bool.and_eq_true,
        Option.isNone_iff_eq_none] at hvalid
      obtain rfl : s = s' := by simpa [hop'] using h
      simp only [hvalid.2.1.2, Option.bind_none]
      exact keepsIdentity_of_blocks_eq hs rfl (by simp)
    | end_ =>
      simp only [Python.validateOperation, hop', seq_eq_ok, check_eq_ok, Bool.and_eq_true,
        Option.isNone_iff_eq_none] at hvalid
      obtain rfl : s = s' := by simpa [hop'] using h
      simp only [hvalid.2.1.2, Option.bind_none]
      exact keepsIdentity_of_blocks_eq hs rfl (by simp)

omit [DecidableEq ν] in
/-- A valid model gives every block an id of its own. -/
theorem hasIdentities_of_modelOk {R : Rules} {model : JsonObject ν} (h : modelOk R model = true) :
    HasIdentities idOf model := by
  obtain ⟨bs, hbs, hok⟩ := exists_blocks_of_modelOk h
  refine ⟨bs, blocksIn_of_modelBlocks hbs, fun b hb => ?_, ?_⟩
  · exact exists_idOf_of_blockOk (blockOk_of_mem hok hb)
  · simp only [blocksOk, Bool.and_eq_true, decide_eq_true_eq] at hok
    exact hok.2

/-- After an accepted start every accepted event leaves blocks with ids of their own. -/
theorem hasIdentities_python_run {s₀ s : JsonObject ν} {start : Envelope ν} (hstart : start.op = .start)
    {events : List (Envelope ν)} (h : (Python.applyPatches s₀ (start :: events)).state? = some s) :
    HasIdentities idOf s :=
  Applied.run_invariant_of_first (fun e => e.op = .start)
    (fun _ _ _ hop h => hasIdentities_of_modelOk (modelOk_python_start hop h))
    (fun _ _ _ hop hs h => (pythonKeeps_step hs hop h).hasIdentities) hstart h

end Python

/-! ## Go -/

section Go

/-- The `id` of a block, where it is a string. -/
def identOf (block : Go.Map ν) : Option String :=
  match Fields.get? block "id" with
  | some (.leaf (.json (.str s))) => some s
  | _ => none

/-- An accepted event of the Go reducer, with what it names. -/
def GoKeeps (event : Go.Event ν) (m m' : Go.Map ν) : Prop :=
  KeepsIdentity identOf (event.block.bind idOf) (event.op = .known .set ∧ event.mask = "")
    (event.block.isSome = true) m m'

theorem hasID_iff {id : String} {block : Go.Map ν} : Go.hasID id block = true ↔ identOf block = some id := by
  unfold Go.hasID Go.memberEquals identOf
  rcases Fields.get? block "id" with _ | ((_ | _ | _ | s) | _) | xs | fs <;> simp

theorem identOf_congr {b b' : Go.Map ν} (h : Fields.get? b' "id" = Fields.get? b "id") : identOf b' = identOf b := by
  rw [identOf, h, identOf]

theorem identOf_ofJsonObject (block : JsonObject ν) : identOf (Go.ofJsonObject block) = idOf block := by
  refine Option.ext fun id => ?_
  rw [← hasID_iff, Go.hasID_ofJsonObject, beq_iff_eq]

theorem go_blocksOf {m : Go.Map ν} {bs : List (Go.Map ν)} (hbs : blocksIn m = some bs) :
    Go.blocksOf m = .ok (bs, setDefault m "blocks" (.arr [])) := by
  unfold blocksIn at hbs
  unfold Go.blocksOf
  cases hget : Fields.get? m "blocks" with
  | none =>
    obtain rfl : [] = bs := by simpa [hget] using hbs
    simp [setDefault, Fields.has, hget]
  | some v =>
    rw [hget] at hbs
    obtain ⟨xs, harr, hobjs⟩ := Option.bind_eq_some_iff.mp hbs
    simp [setDefault_of_get? hget, harr, hobjs]

/-- A loop over `blocksOf` that looks for an id. -/
theorem keepsIdentity_go_patchBlocks {m : Go.Map ν} {s' : Option (Go.Map ν)} {bs : List (Go.Map ν)}
    (hbs : blocksIn m = some bs) (hid : Identified identOf bs) {target : String}
    {f : Go.Map ν → Except Go.Failure (Go.Map ν)} {missing : Except Go.Failure (List (Go.Map ν))}
    {whole onBlock : Prop}
    (hf : ∀ b b', b ∈ bs → f b = .ok b' → identOf b = some target →
      identOf b' = some target ∧ (Unresolved b → whole))
    (hm : some target ∉ bs.map identOf → ∀ added, missing = .ok added →
      ∃ b, added = [b] ∧ identOf b = some target ∧ target ≠ "") (hon : onBlock)
    (h : (Go.patchBlocks (some m) target f missing).state? = some s') :
    ∃ m', s' = some m' ∧ KeepsIdentity identOf (some target) whole onBlock m m' := by
  simp only [Go.patchBlocks, go_blocksOf hbs] at h
  obtain ⟨bs', hu, rfl⟩ := Applied.state?_ofExcept.mp h
  refine ⟨_, rfl, keepsIdentity_of_touched hbs hid (Fields.get?_set_self _ "blocks" _)
    (touched_updateFirst hu (fun b _ => hasID_iff) hf hm) hon fun k hk => ?_⟩
  rw [Fields.get?_set_ne _ _ hk, get?_setDefault_ne hk]

/-- `whole` is asked for only where there is a block to replace. -/
theorem go_upsertBlock_keeps {m : Go.Map ν} {s' : Option (Go.Map ν)} {block : JsonObject ν} {bs : List (Go.Map ν)}
    (hbs : blocksIn m = some bs) (hid : Identified identOf bs) {whole onBlock : Prop}
    (hwhole : idOf block ∈ bs.map identOf → whole) (hon : onBlock)
    (h : (Go.upsertBlock (some m) block).state? = some s') :
    ∃ m', s' = some m' ∧ KeepsIdentity identOf (idOf block) whole onBlock m m' := by
  obtain ⟨target, hidOf, hne, -, -, h⟩ := Go.exists_of_upsertBlock h
  have hclone : identOf (Go.cloneMap block) = some target := (identOf_ofJsonObject block).trans hidOf
  rw [hidOf] at hwhole ⊢
  refine keepsIdentity_go_patchBlocks hbs hid (fun b b' hb hb' hbid => ?_) (fun _ added hadded => ?_) hon h
  · obtain rfl : Go.cloneMap block = b' := by simpa using hb'
    exact ⟨hclone, fun _ => hwhole (hbid ▸ List.mem_map_of_mem hb)⟩
  · obtain rfl : [Go.cloneMap block] = added := by simpa using hadded
    exact ⟨_, rfl, hclone, hne⟩

/-- What an accepted append to a block leaves of its id. -/
theorem identOf_appendToBlock {field : String} {value : Json ν} {b b' : Go.Map ν} (hfield : field ≠ "id")
    (h : Go.appendToBlock field value b = .ok b') : identOf b' = identOf b ∧ ¬ Unresolved b := by
  unfold Go.appendToBlock at h
  rw [seq_eq_ok, Go.requireInlineBlock, check_eq_ok, Bool.not_eq_true'] at h
  obtain ⟨hinline, h⟩ := h
  refine ⟨?_, by rw [Unresolved, hinline]; exact Bool.false_ne_true⟩
  split at h <;> simp only [pure, Except.pure, Except.ok.injEq, reduceCtorEq] at h
  all_goals
    subst h
    exact identOf_congr (Fields.get?_set_ne b _ hfield.symm)

theorem go_appendByMask_keeps {m : Go.Map ν} {s' : Option (Go.Map ν)} {mask : String} {block : JsonObject ν}
    (hs : HasIdentities identOf m) (hpre : Text.hasPrefix mask "block." = true)
    (hpatch : patchable mask block = true) {whole onBlock : Prop} (hon : onBlock)
    (h : (Go.appendByMask (some m) mask block).state? = some s') :
    ∃ m', s' = some m' ∧ KeepsIdentity identOf (idOf block) whole onBlock m m' := by
  obtain ⟨bs, hbs, hid⟩ := hs
  have hbs₁ := blocksIn_setDefault hbs
  unfold Go.appendByMask at h
  cases hargs : Go.appendArguments mask block with
  | error r => simp [hargs] at h
  | ok a =>
    obtain ⟨field, id, value⟩ := a
    obtain ⟨hidOf, hfield⟩ := Go.appendArguments_eq_ok hargs
    simp only [hargs, go_blocksOf hbs] at h
    have hkept : ∃ m', s' = some m' ∧
        KeepsIdentity identOf (idOf block) whole onBlock (setDefault m "blocks" (.arr [])) m' := by
      have hany : bs.any (Go.hasID id) = true ↔ some id ∈ bs.map identOf := by
        simp only [List.any_eq_true, List.mem_map, hasID_iff]
      split at h
      case isTrue hmem =>
        -- only an inline block is appended to
        rw [hidOf]
        refine keepsIdentity_go_patchBlocks hbs₁ hid (fun b b' _ hb' hbid => ?_)
          (fun hfresh => absurd (hany.mp hmem) hfresh) hon h
        obtain ⟨hsame, hinline⟩ := identOf_appendToBlock (patchable_ne hpatch (hfield hpre)).1 hb'
        exact ⟨hsame.trans hbid, fun hunresolved => absurd hunresolved hinline⟩
      case isFalse hfresh =>
        -- a whole block is set, but there is none that it replaces
        exact go_upsertBlock_keeps hbs₁ hid (fun hmem => absurd (hany.mpr (hidOf ▸ hmem)) hfresh) hon h
    obtain ⟨m', rfl, hkeeps⟩ := hkept
    exact ⟨m', rfl, hkeeps.of_setDefault hbs⟩

theorem go_setByMask_meta {m : Go.Map ν} {s' : Option (Go.Map ν)} {mask : String} {source : JsonObject ν}
    (hmeta : Text.hasPrefix mask "meta." = true) (h : (Go.setByMask (some m) mask source).state? = some s') :
    ∃ m', s' = some m' ∧ Fields.get? m' "blocks" = Fields.get? m "blocks" := by
  obtain ⟨k, rest, value, -, h⟩ := Go.exists_of_setByMask_meta hmeta h
  simp only [Go.setMeta, Applied.state?_returned, Option.some.injEq] at h
  exact ⟨_, h.symm, Fields.get?_set_ne _ _ (by decide)⟩

theorem go_setByMask_keeps {m : Go.Map ν} {s' : Option (Go.Map ν)} {mask : String} {source : JsonObject ν}
    (hs : HasIdentities identOf m) (hpre : Text.hasPrefix mask "block." = true)
    (hpatch : patchable mask source = true) {whole onBlock : Prop} (hon : onBlock)
    (h : (Go.setByMask (some m) mask source).state? = some s') :
    ∃ m', s' = some m' ∧ KeepsIdentity identOf (idOf source) whole onBlock m m' := by
  obtain ⟨bs, hbs, hid⟩ := hs
  obtain ⟨k, rest, value, -, hk, h⟩ := Go.exists_of_setByMask_block hpre h
  have hkeeps := @keepsIdentity_go_patchBlocks _ _ _ _ hbs hid _ _ _ whole _ (fun b b' _ hb' hbid => ?_)
    (by simp) hon h
  · obtain ⟨m', rfl, hkeeps⟩ := hkeeps
    cases hsource : idOf source with
    | some id =>
      rw [Go.stringAt_of_idOf hsource] at hkeeps
      exact ⟨m', rfl, hkeeps⟩
    | none =>
      -- the payload has no id, and no block has the empty one
      have hempty : Go.stringAt source "id" = "" := by
        unfold Go.stringAt
        rw [← idOf, hsource, Option.getD_none]
      rw [hempty] at hkeeps
      refine ⟨m', rfl, hkeeps.of_unnamed (fun cs hcs hmem => ?_) none⟩
      obtain rfl : bs = cs := Option.some.inj (hbs.symm.trans hcs)
      obtain ⟨b, hb, hbid⟩ := List.mem_map.mp hmem
      obtain ⟨id, hnamed, hne⟩ := hid.named b hb
      exact hne (Option.some.inj (hnamed.symm.trans hbid))
  · rw [Go.setInBlock, seq_eq_ok, Go.requireInlineBlock, check_eq_ok, Bool.not_eq_true'] at hb'
    obtain ⟨hinline, hwritten⟩ := hb'
    obtain rfl : Go.writePath b (k :: rest) value = b' := by simpa [pure, Except.pure] using hwritten
    refine ⟨?_, fun hunresolved => absurd hunresolved (by rw [Unresolved, hinline]; exact Bool.false_ne_true)⟩
    rw [← hbid]
    exact identOf_congr (DocTree.get?_writeAt_ne b k rest _ (patchable_ne hpatch hk).1.symm)

/-- The shapes of a set event that Go accepts. -/
theorem go_validateSet_iff (event : Go.Event ν) :
    Go.validateSet event = .ok () ↔
      match event.meta_, event.block with
      | some _, none => Text.hasPrefix event.mask "meta." = true ∧ event.mask ≠ "meta."
      | none, some block => (event.mask = "" ∧ blockOk Go.rules block = true) ∨
        (Text.hasPrefix event.mask "block." = true ∧ event.mask ≠ "block." ∧
          Go.validateBlockFieldPatch event.mask block = .ok ())
      | _, _ => False := by
  have henvelope := go_set_iff (ν := ν) ⟨.set, 0, none, none, some event.mask, none, none, event.meta_, event.block⟩
  refine Iff.trans (Iff.of_eq rfl) (henvelope.trans ?_)
  rcases event.meta_ with _ | m <;> rcases event.block with _ | block <;> exact Iff.rfl

/-- One accepted event that is no start. -/
theorem goKeeps_step {m : Go.Map ν} {s' : Option (Go.Map ν)} (hs : HasIdentities identOf m) {event : Go.Event ν}
    (hop : event.op ≠ .known .start) (h : (Go.apply (some m) event).state? = some s') :
    ∃ m', s' = some m' ∧ GoKeeps event m m' := by
  unfold Go.apply at h
  cases hvalid : event.validate with
  | error r => simp [hvalid] at h
  | ok u =>
    cases u
    simp only [hvalid, Go.applyEvent] at h
    unfold GoKeeps
    rcases hop' : event.op with op | text
    case other => simp [hop'] at h
    have hnothing : event.block = none → some m = s' → ∃ m', s' = some m' ∧
        KeepsIdentity identOf (event.block.bind idOf) (Go.Op.known op = .known .set ∧ event.mask = "")
          (event.block.isSome = true) m m' := by
      rintro hblock rfl
      exact ⟨m, rfl, keepsIdentity_of_blocks_eq hs rfl (by simp [hblock])⟩
    cases op with
    | start => exact absurd hop' hop
    | set =>
      have hset : Go.validateSet event = .ok () := by
        simp only [Go.Event.validate, hop', seq_eq_ok] at hvalid
        exact hvalid.2
      rw [go_validateSet_iff] at hset
      simp only [hop'] at h
      rcases hm : event.meta_ with _ | data <;> rcases hb : event.block with _ | block <;>
        simp only [hm, hb] at hset h
      · rcases hset with ⟨hmask, -⟩ | ⟨hpre, -, hpatch⟩
        · obtain ⟨bs, hbs, hid⟩ := hs
          rw [if_pos hmask] at h
          exact go_upsertBlock_keeps hbs hid (fun _ => ⟨rfl, hmask⟩) rfl h
        · have hmask : event.mask ≠ "" := fun h => absurd (h ▸ hpre) (by decide)
          rw [if_neg hmask] at h
          exact go_setByMask_keeps hs hpre ((go_fieldPatch_iff hpre block).mp hpatch) rfl h
      · have hmask : event.mask ≠ "" := fun h => absurd (h ▸ hset.1) (by decide)
        rw [if_neg hmask] at h
        obtain ⟨m', rfl, hblocks⟩ := go_setByMask_meta hset.1 h
        exact ⟨m', rfl, keepsIdentity_of_blocks_eq hs hblocks (by simp)⟩
    | append =>
      simp only [Go.Event.validate, hop', seq_eq_ok, Go.validateAppend] at hvalid
      rw [hop'] at h
      cases hblock : event.block with
      | none => simp [hblock] at hvalid
      | some block =>
        simp only [hblock, seq_eq_ok, check_eq_ok, Bool.and_eq_true] at hvalid
        obtain ⟨-, ⟨⟨-, hpre⟩, -⟩, hpatch⟩ := hvalid
        simp only [hblock] at h
        exact go_appendByMask_keeps hs hpre ((go_fieldPatch_iff hpre block).mp hpatch) rfl h
    | error =>
      simp only [Go.Event.validate, hop', seq_eq_ok, Go.validateError, check_eq_ok, Bool.and_eq_true, beq_iff_eq,
        Option.isNone_iff_eq_none] at hvalid
      obtain ⟨-, ⟨hmask, -⟩, hblock⟩ := hvalid
      simp only [hop', hmask] at h
      obtain ⟨m', rfl, hblocks⟩ := go_setByMask_meta (by decide) h
      exact ⟨m', rfl, keepsIdentity_of_blocks_eq hs hblocks (by simp [hblock])⟩
    | ping =>
      simp only [Go.Event.validate, hop', seq_eq_ok, check_eq_ok, Bool.and_eq_true,
        Option.isNone_iff_eq_none] at hvalid
      exact hnothing hvalid.2.1.2 (by simpa [hop'] using h)
    | end_ =>
      simp only [Go.Event.validate, hop', seq_eq_ok, check_eq_ok, Bool.and_eq_true,
        Option.isNone_iff_eq_none] at hvalid
      exact hnothing hvalid.2.1.2 (by simpa [hop'] using h)

/-- A start leaves the copy of a valid model. -/
theorem hasIdentities_go_start {s s' : Option (Go.Map ν)} {event : Go.Event ν} (hop : event.op = .known .start)
    (h : (Go.apply s event).state? = some s') : ∃ m, s' = some m ∧ HasIdentities identOf m := by
  unfold Go.apply at h
  cases hvalid : event.validate with
  | error r => simp [hvalid] at h
  | ok u =>
    cases u
    simp only [hvalid, Go.applyEvent, hop, Applied.state?_returned, Option.some.injEq] at h
    simp only [Go.Event.validate, hop, seq_eq_ok] at hvalid
    obtain ⟨-, hvalid⟩ := hvalid
    cases hmodel : event.model with
    | none => simp [hmodel] at hvalid
    | some model =>
      simp only [hmodel, seq_eq_ok, Go.validateModel_eq_ok_iff] at hvalid
      obtain ⟨bs, hstanding⟩ := standing_of_modelOk hvalid.2
      have hmap : (bs.map Go.ofJsonObject).map identOf = bs.map idOf := by
        rw [List.map_map]
        exact List.map_congr_left fun b _ => identOf_ofJsonObject b
      refine ⟨Go.cloneMap model, by rw [← h, hmodel]; rfl, bs.map Go.ofJsonObject,
        blocksIn_of_get? (get?_ofJsonObject_blocks hstanding.hblocks), fun b hb => ?_, hmap ▸ hstanding.hnodup⟩
      obtain ⟨c, hc, rfl⟩ := List.mem_map.mp hb
      rw [identOf_ofJsonObject]
      exact exists_idOf_of_memberIs (hstanding.hids c hc)

theorem hasIdentities_go_run {s₀ s : Option (Go.Map ν)} {start : Go.Event ν} (hstart : start.op = .known .start)
    {events : List (Go.Event ν)} (h : (Go.applyAll s₀ (start :: events)).state? = some s) :
    ∃ m, s = some m ∧ HasIdentities identOf m := by
  refine Applied.run_invariant_of_first (fun event => event.op = .known .start)
    (fun s e s' hop h => hasIdentities_go_start hop h) (fun s e s' hop hs h => ?_) hstart h
  obtain ⟨m, rfl, hm⟩ := hs
  obtain ⟨m', rfl, hkeeps⟩ := goKeeps_step hm hop h
  exact ⟨m', rfl, hkeeps.hasIdentities⟩

end Go

/-! ## Both -/

/-- Whatever an accepted start and any accepted events have made of a snapshot, the next accepted event that is
no start keeps its blocks in place, in both reducers. -/
theorem reducers_keep_identity [DecidableEq ν] :
    (∀ (s₀ s s' : JsonObject ν) (start e : Envelope ν) (events : List (Envelope ν)), start.op = .start →
      (Python.applyPatches s₀ (start :: events)).state? = some s → e.op ≠ .start →
      (Python.applyPatch s e).state? = some s' → PythonKeeps e s s') ∧
    (∀ (s₀ s s' : Option (Go.Map ν)) (start event : Go.Event ν) (events : List (Go.Event ν)),
      start.op = .known .start → (Go.applyAll s₀ (start :: events)).state? = some s → event.op ≠ .known .start →
      (Go.apply s event).state? = some s' → ∃ m m', s = some m ∧ s' = some m' ∧ GoKeeps event m m') := by
  constructor
  · intro s₀ s s' start e events hstart hrun hop hstep
    exact pythonKeeps_step (hasIdentities_python_run hstart hrun) hop hstep
  · intro s₀ s s' start event events hstart hrun hop hstep
    obtain ⟨m, rfl, hm⟩ := hasIdentities_go_run hstart hrun
    obtain ⟨m', rfl, hkeeps⟩ := goKeeps_step hm hop hstep
    exact ⟨m, m', rfl, rfl, hkeeps⟩

/-- A start whose model has a reference. -/
def startsReference : Envelope ℕ where
  op := .start
  seq := 1
  streamId := none
  ts := none
  mask := none
  eventType := none
  model := some [("version", .str "1.1"), ("biz", .str "b"), ("meta", .obj []),
    ("blocks", .arr [.obj [("id", .str "r"), ("ref", .str "https")]])]
  meta_ := none
  block := none

/-- An append of a complete block that is not there. -/
def appendsText : Envelope ℕ where
  op := .append
  seq := 2
  streamId := none
  ts := none
  mask := some "block.text"
  eventType := none
  model := none
  meta_ := none
  block := some [("id", .str "x"), ("type", .str "text"), ("text", .str "a")]

/-- The reference stays where it is. -/
theorem reducers_keep_identity_appendsText :
    (∃ s s', (Python.applyPatch s appendsText).state? = some s' ∧ PythonKeeps appendsText s s') ∧
      ∃ m m', (Go.apply (some m) (Go.decoded appendsText)).state? = some (some m') ∧
        GoKeeps (Go.decoded appendsText) m m' := by
  obtain ⟨hpython, hgo⟩ := reducers_keep_identity (ν := ℕ)
  constructor
  · have hstart : (Python.applyPatches [] [startsReference]).state? = some (startsReference.model.getD []) := by
      decide
    have hstep : ((Python.applyPatch (startsReference.model.getD []) appendsText).state?).isSome = true := by decide
    obtain ⟨s', hs'⟩ := Option.isSome_iff_exists.mp hstep
    exact ⟨_, s', hs', hpython [] _ s' startsReference appendsText [] rfl hstart (by decide) hs'⟩
  · have hstart : (Go.applyAll none [Go.decoded startsReference]).state? =
        some (some (Go.cloneMap (startsReference.model.getD []))) := by decide
    have hstep : ((Go.apply (some (Go.cloneMap (startsReference.model.getD [])))
        (Go.decoded appendsText)).state?).isSome = true := by decide
    obtain ⟨s', hs'⟩ := Option.isSome_iff_exists.mp hstep
    obtain ⟨m, m', hm, rfl, hkeeps⟩ :=
      hgo none _ s' (Go.decoded startsReference) (Go.decoded appendsText) [] rfl hstart (by decide) hs'
    obtain rfl := Option.some.inj hm
    exact ⟨_, m', hs', hkeeps⟩

end AgentUE.Conformance
