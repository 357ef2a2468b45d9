import AgentUE.Conformance.Reducers
import AgentUE.Conformance.Validity
import AgentUE.Go.RoundTrip

/-!
# What a refused event leaves

Reducers write to the snapshot that they are given, and create a missing list of blocks before all checks have
been made. The Go reducer never finds it missing after a start, so a refused event leaves the snapshot as it was.
The Python reducer may: of a start without blocks, the list that a refused append has created stays.
-/

namespace AgentUE.Conformance

open Data

variable {ν : Type}

/-! ## Go -/

section Go

open Go

/-- A map with a list of blocks, which need not be complete. -/
def Filled (s : Option (Map ν)) : Prop :=
  ∃ m, ∃ bs : List (Map ν), s = some m ∧ Fields.get? m "blocks" = some (.arr (bs.map .obj))

theorem filled_set_blocks (m : Map ν) (bs : List (Map ν)) :
    Filled (some (Fields.set m "blocks" (.arr (bs.map .obj)))) :=
  ⟨_, bs, rfl, Fields.get?_set_self m "blocks" _⟩

/-- The list of blocks is there, so `blocksOf` creates none and the loop alone decides. -/
theorem atomic_patchBlocks {s : Option (Map ν)} (hs : Filled s) (id : String) (f : Map ν → Except Failure (Map ν))
    (missing : Except Failure (List (Map ν))) : (patchBlocks s id f missing).Atomic Filled s := by
  obtain ⟨m, bs, rfl, hbs⟩ := hs
  rw [patchBlocks, blocksOf_eq_ok hbs]
  exact Applied.atomic_ofExcept fun bs' => filled_set_blocks m bs'

theorem atomic_upsertBlock {s : Option (Map ν)} (hs : Filled s) (block : JsonObject ν) :
    (upsertBlock s block).Atomic Filled s := by
  unfold upsertBlock
  cases upsertArguments s block with
  | error f => rfl
  | ok id => exact atomic_patchBlocks hs _ _ _

theorem atomic_appendByMask {s : Option (Map ν)} (hs : Filled s) (mask : String) (block : JsonObject ν) :
    (appendByMask s mask block).Atomic Filled s := by
  obtain ⟨m, bs, rfl, hbs⟩ := hs
  unfold appendByMask
  cases appendArguments mask block with
  | error f => rfl
  | ok arguments =>
    obtain ⟨field, id, value⟩ := arguments
    dsimp only
    rw [blocksOf_eq_ok hbs]
    dsimp only
    split_ifs
    · exact atomic_patchBlocks ⟨m, bs, rfl, hbs⟩ _ _ _
    · exact atomic_upsertBlock ⟨m, bs, rfl, hbs⟩ block

theorem atomic_setMeta {s : Option (Map ν)} (hs : Filled s) (path : List String) (value : Json ν) :
    (setMeta s path value).Atomic Filled s := by
  obtain ⟨m, bs, rfl, hbs⟩ := hs
  refine ⟨_, bs, rfl, ?_⟩
  rw [Fields.get?_set_ne _ _ (by decide)]
  exact hbs

theorem atomic_setByMask {s : Option (Map ν)} (hs : Filled s) (mask : String) (source : JsonObject ν) :
    (setByMask s mask source).Atomic Filled s := by
  unfold setByMask
  cases setArguments mask source with
  | error f => rfl
  | ok arguments =>
    obtain ⟨root, path, value⟩ := arguments
    dsimp only
    split_ifs
    · exact atomic_setMeta hs path value
    · exact atomic_patchBlocks hs _ _ _
    · rfl

/-- The model of an accepted start has a list of blocks. -/
theorem filled_of_start {event : Event ν} (hop : event.op = .known .start) (h : event.validate = .ok ()) :
    Filled (event.model.map cloneMap) := by
  obtain ⟨model, hmodel⟩ := exists_model_of_validate hop h
  have hvalid : validateModel model = .ok () := by
    simp only [Event.validate, hop, hmodel, seq_eq_ok] at h
    exact h.2.2
  obtain ⟨bs, hstanding⟩ := standing_of_modelOk ((validateModel_eq_ok_iff model).mp hvalid)
  rw [hmodel]
  exact ⟨cloneMap model, bs.map ofJsonObject, rfl, get?_ofJsonObject_blocks hstanding.hblocks⟩

/-- Every event on a map with a list of blocks, and a start on any. -/
theorem atomic_apply {s : Option (Map ν)} {event : Event ν} (h : event.op = .known .start ∨ Filled s) :
    (apply s event).Atomic Filled s := by
  unfold apply
  cases hvalid : event.validate with
  | error f => rfl
  | ok u =>
    dsimp only
    unfold applyEvent
    rcases hop : event.op with (_ | _ | _ | _ | _ | _) | text
    case known.start => exact filled_of_start hop hvalid
    all_goals have hs := h.resolve_left (by rw [hop]; simp)
    case known.set =>
      dsimp only
      split_ifs
      · exact atomic_upsertBlock hs _
      · exact atomic_setByMask hs _ _
    case known.append => exact atomic_appendByMask hs _ _
    case known.error => exact atomic_setByMask hs _ _
    case known.ping => exact hs
    case known.end_ => exact hs
    case other => rfl

/-- After a run that begins with a start, an event that `Apply` refuses leaves the map as it was. -/
theorem go_refuses_atomically {s₀ s left : Option (Map ν)} {start : Event ν} {events : List (Event ν)}
    (hstart : start.op = .known .start) (hrun : (applyAll s₀ (start :: events)).state? = some s) {event : Event ν}
    {failure : Failure} (h : apply s event = .raised failure left) : left = s := by
  have hs : Filled s := Applied.run_invariant_of_first (fun e => e.op = .known .start)
    (fun s e s' hop h => (atomic_apply (.inl hop)).of_state? h)
    (fun s e s' _ hs h => (atomic_apply (.inr hs)).of_state? h) hstart hrun
  have hatomic : (apply s event).Atomic Filled s := atomic_apply (.inr hs)
  rwa [h] at hatomic

/-- A start and an append of a list to a text, which is refused. -/
def startsText : Event ℕ where
  streamId := ""
  op := .known .start
  seq := 1
  timestamp := none
  mask := ""
  eventType := ""
  model := some [("version", .str "1.0"), ("biz", .str "chat"), ("meta", .obj []),
    ("blocks", .arr [.obj [("id", .str "b"), ("type", .str "text"), ("body", .str "x")]])]
  meta_ := none
  block := none

def appendsList : Event ℕ :=
  { startsText with
    op := .known .append, mask := "block.body", model := none, block := some [("id", .str "b"), ("body", .arr [])] }

theorem go_refuses_atomically_appendsList : ∃ s, (applyAll none [startsText]).state? = some s ∧
    apply s appendsList = .raised (.err (.appendIncompatible "body")) s := by
  have hstep : ∃ left, apply (startsText.model.map cloneMap) appendsList =
      .raised (.err (.appendIncompatible "body")) left := ⟨_, rfl⟩
  obtain ⟨left, hleft⟩ := hstep
  have hsame := @go_refuses_atomically ℕ none _ left startsText [] rfl rfl appendsList _ hleft
  exact ⟨_, rfl, hsame ▸ hleft⟩

end Go

/-! ## Python -/

section Python

variable [DecidableEq ν]

open Python

/-- An append that gets past the checks of the envelope and of mask, id, field and value, so that the list of
blocks is looked at and created where there is none. -/
def ReachesBlocks (event : Envelope ν) : Prop :=
  event.op = .append ∧ validateOperation event = .ok () ∧
    ∃ arguments, appendArguments (event.mask.getD "") (event.block.getD []) = .ok arguments

/-- The snapshot has metadata; whether it has blocks is left open. -/
def HasMeta (s : JsonObject ν) : Prop := Fields.has s "meta" = true

theorem atomic_patchBlocks_hasMeta {s : JsonObject ν} (hs : HasMeta s) (id : Option (Json ν))
    (f : JsonObject ν → Except Rejection (JsonObject ν)) (missing : Except Rejection (List (JsonObject ν))) :
    (Python.patchBlocks s id f missing).Atomic HasMeta s :=
  Applied.atomic_ofExcept fun _ => has_set_of_has _ hs

omit [DecidableEq ν] in
theorem hasMeta_setDefault {s : JsonObject ν} (hs : HasMeta s) (k : String) (v : Json ν) :
    HasMeta (setDefault s k v) := by
  unfold setDefault
  split
  · exact hs
  · exact has_set_of_has v hs

/-- A whole block is validated first, and then nothing about a list that has been created can fail. -/
theorem atomic_upsertBlock_hasMeta {s : JsonObject ν} (hs : HasMeta s) (block : JsonObject ν) :
    (Python.upsertBlock s block).Atomic HasMeta s := by
  unfold Python.upsertBlock
  cases Python.upsertArguments s block with
  | error r => rfl
  | ok id =>
    dsimp only
    cases hblocks : Fields.has s "blocks" with
    | true =>
      rw [setDefault_of_has hblocks]
      exact atomic_patchBlocks_hasMeta hs _ _ _
    | false =>
      rw [setDefault, if_neg (by rw [hblocks]; exact Bool.false_ne_true), Python.patchBlocks, Fields.get?_set_self]
      exact has_set_of_has _ (has_set_of_has _ hs)

theorem atomic_setByMask_hasMeta {s : JsonObject ν} (hs : HasMeta s) (mask : String) (source : JsonObject ν) :
    (Python.setByMask s mask source).Atomic HasMeta s := by
  unfold Python.setByMask
  cases Python.setArguments mask source with
  | error r => rfl
  | ok arguments =>
    obtain ⟨root, path, value⟩ := arguments
    dsimp only
    split_ifs
    · unfold Python.setMeta
      rw [setDefault_of_has hs]
      dsimp only
      split
      · rfl
      · exact has_set_of_has _ hs
    · exact atomic_patchBlocks_hasMeta hs _ _ _
    · rfl

omit [DecidableEq ν] in
theorem has_blocks_setDefault (s : JsonObject ν) (v : Json ν) : Fields.has (setDefault s "blocks" v) "blocks" = true := by
  unfold setDefault
  split
  · assumption
  · simp

/-- What an append leaves: the list that it has created stays when the block is refused. -/
theorem applyAppend_raised_iff {s s' : JsonObject ν} {event : Envelope ν} {r : Rejection}
    (hvalid : validateOperation event = .ok ()) (hop : event.op = .append)
    (h : applyAppend s event = .raised r s') :
    s' = s ↔ ¬ (Fields.has s "blocks" = false ∧ ReachesBlocks event) := by
  unfold applyAppend at h
  dsimp only at h
  cases hargs : Python.appendArguments (event.mask.getD "") (event.block.getD []) with
  | error e =>
    obtain ⟨-, rfl⟩ : e = r ∧ s = s' := by simpa [hargs] using h
    simp only [true_iff]
    rintro ⟨-, -, -, arguments, hok⟩
    rw [hargs] at hok
    cases hok
  | ok arguments =>
    rw [hargs] at h
    dsimp only at h
    -- the loop leaves what it has been given
    have hleft : s' = setDefault s "blocks" (.arr []) := by
      unfold Python.patchBlocks Applied.ofExcept at h
      split at h
      · cases h
      · exact (Applied.raised.inj h).2.symm
    have hreaches : ReachesBlocks event := ⟨hop, hvalid, arguments, hargs⟩
    cases hblocks : Fields.has s "blocks" with
    | true => simp [hleft, setDefault_of_has hblocks]
    | false =>
      simp only [hreaches, and_self, not_true_eq_false, iff_false]
      rintro rfl
      rw [hleft, has_blocks_setDefault] at hblocks
      cases hblocks

/-- One event other than a start. -/
theorem hasMeta_of_applyPatch {s s' : JsonObject ν} (hs : HasMeta s) {event : Envelope ν} (hop : event.op ≠ .start)
    (h : (applyPatch s event).state? = some s') : HasMeta s' := by
  unfold applyPatch at h
  cases hvalid : validateOperation event with
  | error r => simp [hvalid] at h
  | ok u =>
    simp only [hvalid, applyEvent] at h
    cases hop' : event.op with
    | start => exact absurd hop' hop
    | set =>
      simp only [hop', applySet] at h
      cases hmask : event.mask with
      | none =>
        rw [hmask] at h
        exact (atomic_upsertBlock_hasMeta hs _).of_state? h
      | some mask =>
        rw [hmask] at h
        exact (atomic_setByMask_hasMeta hs mask _).of_state? h
    | append =>
      simp only [hop', applyAppend] at h
      split at h
      · cases h
      · exact (atomic_patchBlocks_hasMeta (hasMeta_setDefault hs _ _) _ _ _).of_state? h
    | error =>
      simp only [hop'] at h
      exact (atomic_setByMask_hasMeta hs _ _).of_state? h
    | ping => exact (by simpa [hop'] using h : s = s') ▸ hs
    | end_ => exact (by simpa [hop'] using h : s = s') ▸ hs

/-- After an accepted start every accepted event leaves a snapshot with metadata. -/
theorem hasMeta_python_run {s₀ s : JsonObject ν} {start : Envelope ν} (hstart : start.op = .start)
    {events : List (Envelope ν)} (h : (applyPatches s₀ (start :: events)).state? = some s) : HasMeta s := by
  refine Applied.run_invariant_of_first (fun e => e.op = .start) (fun _ _ _ hop h => ?_)
    (fun _ _ _ hop hs h => hasMeta_of_applyPatch hs hop h) hstart h
  obtain ⟨m, hm, -⟩ := exists_meta_of_modelOk (modelOk_python_start hop h)
  exact (Fields.has_eq_true_iff _ _).mpr ⟨_, hm⟩

theorem applyPatch_raised_iff {s s' : JsonObject ν} (hs : HasMeta s) {event : Envelope ν} {r : Rejection}
    (h : applyPatch s event = .raised r s') :
    s' = s ↔ ¬ (Fields.has s "blocks" = false ∧ ReachesBlocks event) := by
  have hsame : s' = s → event.op ≠ .append ∨ validateOperation event ≠ .ok () →
      (s' = s ↔ ¬ (Fields.has s "blocks" = false ∧ ReachesBlocks event)) := by
    rintro hsame hno
    refine ⟨fun _ hcreates => ?_, fun _ => hsame⟩
    rcases hno with hop | hvalid
    · exact hop hcreates.2.1
    · exact hvalid hcreates.2.2.1
  unfold applyPatch at h
  cases hvalid : validateOperation event with
  | error e =>
    obtain ⟨-, rfl⟩ : e = r ∧ s = s' := by simpa [hvalid] using h
    exact hsame rfl (.inr (by rw [hvalid]; simp))
  | ok u =>
    cases u
    simp only [hvalid, applyEvent] at h
    have hkept : ∀ x : Applied Rejection (JsonObject ν), x.Atomic HasMeta s → x = .raised r s' → s' = s := by
      rintro x hx rfl
      exact hx
    cases hop : event.op with
    | start =>
      simp only [hop] at h
      split at h <;> cases h
    | set =>
      simp only [hop, applySet] at h
      refine hsame ?_ (.inl (by rw [hop]; simp))
      cases hmask : event.mask with
      | none =>
        rw [hmask] at h
        exact hkept _ (atomic_upsertBlock_hasMeta hs _) h
      | some mask =>
        rw [hmask] at h
        exact hkept _ (atomic_setByMask_hasMeta hs mask _) h
    | append =>
      simp only [hop] at h
      exact applyAppend_raised_iff hvalid hop h
    | error =>
      simp only [hop] at h
      exact hsame (hkept _ (atomic_setByMask_hasMeta hs _ _) h) (.inl (by rw [hop]; simp))
    | ping => simp [hop] at h
    | end_ => simp [hop] at h

/-- The object is a start. -/
def StartsWith (fields : JsonObject ν → Except Rejection (Envelope ν)) (patch : JsonObject ν) : Prop :=
  ∃ event, fields patch = .ok event ∧ event.op = .start

/-- After a run that begins with a start, a refused object leaves the snapshot as it was, unless the snapshot has
no list of blocks and the object is an append that comes as far as to look for one. -/
theorem python_refuses_atomically_iff {fields : JsonObject ν → Except Rejection (Envelope ν)}
    {s₀ s s' start : JsonObject ν} {patches : List (JsonObject ν)} (hstart : StartsWith fields start)
    (hrun : (Applied.run (applyObject fields) s₀ (start :: patches)).state? = some s) {patch : JsonObject ν}
    {r : Rejection} (h : applyObject fields s patch = .raised r s') :
    s' = s ↔ ¬ (Fields.has s "blocks" = false ∧ ∃ event, fields patch = .ok event ∧ ReachesBlocks event) := by
  have hs : HasMeta s := by
    refine Applied.run_invariant_of_first (StartsWith fields) (fun s p s' hp h => ?_) (fun s p s' hp hs h => ?_)
      hstart hrun
    · obtain ⟨event, hevent, hop⟩ := hp
      simp only [applyObject, hevent] at h
      obtain ⟨m, hm, -⟩ := exists_meta_of_modelOk (modelOk_python_start hop h)
      exact (Fields.has_eq_true_iff _ _).mpr ⟨_, hm⟩
    · unfold applyObject at h
      cases hevent : fields p with
      | error r => simp [hevent] at h
      | ok event =>
        rw [hevent] at h
        exact hasMeta_of_applyPatch hs (fun hop => hp ⟨event, hevent, hop⟩) h
  unfold applyObject at h
  cases hevent : fields patch with
  | error e =>
    obtain ⟨-, rfl⟩ : e = r ∧ s = s' := by simpa [hevent] using h
    simp
  | ok event =>
    rw [hevent] at h
    rw [applyPatch_raised_iff hs h]
    simp

/-- The text of an operation. -/
def opNamed : String → Option PatchOp
  | "start" => some .start
  | "set" => some .set
  | "append" => some .append
  | "error" => some .error
  | "ping" => some .ping
  | "end" => some .end_
  | _ => none

/-- The declared members of an object that has them with their own types. -/
def strictFields (patch : JsonObject ℕ) : Except Rejection (Envelope ℕ) :=
  let text (k : String) := (Fields.get? patch k).bind DocTree.asStr
  let object (k : String) := (Fields.get? patch k).bind DocTree.asObj
  match (text "op").bind opNamed, Fields.get? patch "seq" with
  | some op, some (.num seq) =>
    .ok ⟨op, seq, text "stream_id", none, text "mask", text "event_type", object "model", object "meta", object "block"⟩
  | _, _ => .error (.mustBeInteger "seq")

/-- A start without blocks. -/
def startsEmpty : JsonObject ℕ :=
  [("op", .str "start"), ("seq", .num 1), ("model", .obj [("biz", .str "chat"), ("meta", .obj [])])]

/-- An append of a block without a type. -/
def appendsUntyped : JsonObject ℕ :=
  [("op", .str "append"), ("seq", .num 2), ("mask", .str "block.text"),
    ("block", .obj [("id", .str "b"), ("text", .str "x")])]

/-- The refused append leaves an empty list of blocks behind. -/
theorem refused_append_leaves_blocks : ∃ s s' r,
    (Applied.run (applyObject strictFields) [] [startsEmpty]).state? = some s ∧
      applyObject strictFields s appendsUntyped = .raised r s' ∧ s' ≠ s :=
  ⟨[("biz", .str "chat"), ("meta", .obj [])], [("biz", .str "chat"), ("meta", .obj []), ("blocks", .arr [])],
    .appendRequiresCompleteBlock, by decide +kernel, by decide +kernel, by decide⟩

/-- A block without a type that is set whole leaves nothing behind. -/
theorem python_refuses_atomically_iff_setsUntyped : ∃ s s' r,
    (Applied.run (applyObject strictFields) [] [startsEmpty]).state? = some s ∧
      applyObject strictFields s (Fields.set (appendsUntyped.eraseIdx 2) "op" (.str "set")) = .raised r s' ∧
        s' = s := by
  refine ⟨[("biz", .str "chat"), ("meta", .obj [])], [("biz", .str "chat"), ("meta", .obj [])], .blockRequiresType,
    by decide +kernel, by decide +kernel, ?_⟩
  have hrun : (Applied.run (applyObject strictFields) [] [startsEmpty]).state? =
      some [("biz", .str "chat"), ("meta", .obj [])] := by decide +kernel
  have hstart : StartsWith strictFields startsEmpty := ⟨_, rfl, rfl⟩
  refine (@python_refuses_atomically_iff ℕ _ strictFields [] _ _ startsEmpty [] hstart hrun
    (Fields.set (appendsUntyped.eraseIdx 2) "op" (.str "set")) .blockRequiresType (by decide +kernel)).mpr ?_
  rintro ⟨-, event, hevent, hop, -⟩
  obtain rfl := Except.ok.inj hevent
  cases hop

end Python

end AgentUE.Conformance
