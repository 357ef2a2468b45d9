import AgentUE.Go.Reducer

/-!
# Go SDK: the panics of the reducer

Validation never panics, and neither does an event on a map: the assertions and the indices that are left unguarded
rest on what has been checked before. A nil map is another matter. It can be read like an empty one, but the first
event that writes to it panics.

Reference: `sdks/go/ui/reducer.go`
-/

namespace AgentUE.Go

open Data

variable {ν α β : Type}

/-! ## Results that are no panic -/

/-- A value or an error value. -/
def Safe (x : Except Failure α) : Prop := x ≠ .error .panic

theorem safe_ok (a : α) : Safe (.ok a) := by
  intro h
  cases h

theorem safe_err (r : Rejection) : Safe (.error (.err r) : Except Failure α) := by
  intro h
  cases h

theorem safe_check (b : Bool) (r : Rejection) : Safe (check b (.err r)) := by
  cases b
  · exact safe_err r
  · exact safe_ok ()

theorem Safe.bind {x : Except Failure α} {f : α → Except Failure β} (hx : Safe x) (hf : ∀ a, x = .ok a → Safe (f a)) :
    Safe (x >>= f) := by
  cases x with
  | ok a => exact hf a rfl
  | error r => exact fun h => hx (by rw [show r = .panic from Except.error.inj h])

/-- A step after a check, which has been passed. -/
theorem safe_check_bind {b : Bool} {r : Rejection} {f : Unit → Except Failure β} (hf : b = true → Safe (f ())) :
    Safe (check b (.err r) >>= f) :=
  (safe_check b r).bind fun _ h => hf (check_eq_ok.mp h)

/-! ## Validation -/

theorem safe_validateBlock (block : JsonObject ν) : Safe (validateBlock block) := by
  unfold validateBlock
  split_ifs
  · exact safe_err _
  · cases Fields.get? block "ref" with
    | some ref => exact safe_check_bind fun _ => safe_check _ _
    | none => exact safe_check_bind fun _ => safe_check_bind fun _ => safe_check _ _

theorem safe_blocksOf (snapshot : List (String × DocTree String α)) : Safe (blocksOf snapshot) := by
  unfold blocksOf
  cases Fields.get? snapshot "blocks" with
  | none => exact safe_ok _
  | some raw =>
    cases harr : raw.asArr with
    | none =>
      simp only [harr]
      exact safe_err _
    | some values =>
      cases hobjs : DocTree.asObjs values with
      | none =>
        simp only [harr, hobjs]
        exact safe_err _
      | some blocks =>
        simp only [harr, hobjs]
        exact safe_ok _

/-- The assertion on the id of a block holds: the block has been validated. -/
theorem safe_validateBlocks (version : String) (blocks : List (JsonObject ν)) (ids : List String) :
    Safe (validateBlocks version blocks ids) := by
  induction blocks generalizing ids with
  | nil => exact safe_ok ()
  | cons block rest ih =>
    rw [validateBlocks]
    refine (safe_validateBlock block).bind fun _ hblock => safe_check_bind fun _ => ?_
    obtain ⟨id, hid, -⟩ := exists_idOf_of_blockOk ((validateBlock_eq_ok_iff block).mp hblock)
    rw [hid]
    exact safe_check_bind fun _ => ih (id :: ids)

theorem safe_validateModel (model : JsonObject ν) : Safe (validateModel model) := by
  unfold validateModel
  refine safe_check_bind fun _ => safe_check_bind fun _ => safe_check_bind fun _ => safe_check_bind fun _ => ?_
  exact (safe_blocksOf model).bind fun p _ => safe_validateBlocks _ p.1 []

/-- The index of the field holds: the mask has a second segment. -/
theorem safe_validateBlockFieldPatch {mask : String} (hmask : Text.hasPrefix mask "block." = true)
    (block : JsonObject ν) : Safe (validateBlockFieldPatch mask block) := by
  unfold validateBlockFieldPatch
  refine safe_check_bind fun _ => ?_
  obtain ⟨field, rest, hsplit⟩ := List.exists_cons_of_ne_nil (Text.split_ne_nil (Text.dropPrefix mask "block.") '.')
  rw [Text.split_of_cut (Text.cut_block hmask), hsplit]
  exact safe_check _ _

theorem safe_validateSet (event : Event ν) : Safe (validateSet event) := by
  unfold validateSet
  refine safe_check_bind fun _ => safe_check_bind fun _ => safe_check_bind fun hmask => ?_
  cases hblock : event.block with
  | none => exact safe_ok ()
  | some block =>
    dsimp only
    split_ifs with hempty
    · exact safe_validateBlock block
    · rw [hblock, Option.isSome_some, if_pos rfl, Bool.or_eq_true, beq_iff_eq, Bool.and_eq_true] at hmask
      exact safe_validateBlockFieldPatch (hmask.resolve_left hempty).1 block

theorem safe_validateAppend (event : Event ν) : Safe (validateAppend event) := by
  unfold validateAppend
  cases event.block with
  | none => exact safe_err _
  | some block =>
    refine safe_check_bind fun hmask => ?_
    rw [Bool.and_eq_true, Bool.and_eq_true] at hmask
    exact safe_validateBlockFieldPatch hmask.1.2 block

/-- `Validate` never panics. -/
theorem safe_validate (event : Event ν) : Safe event.validate := by
  unfold Event.validate
  refine safe_check_bind fun _ => ?_
  cases event.op with
  | other text => exact safe_err _
  | known op =>
    cases op with
    | start =>
      cases event.model with
      | none => exact safe_err _
      | some model => exact safe_check_bind fun _ => safe_validateModel model
    | set => exact safe_validateSet event
    | append => exact safe_validateAppend event
    | error => exact safe_check _ _
    | ping => exact safe_check _ _
    | end_ => exact safe_check _ _

/-! ## The indices of a path -/

/-- `path[len(path)-1]` -/
def lastName (path : List String) : Except Failure String :=
  match path.getLast? with
  | none => .error .panic
  | some name => .ok name

/-- `readPath`, with the index where it falls back on the last name. -/
def indexedReadPath (source : JsonObject ν) (path : List String) : Except Failure (Option (Json ν)) :=
  match descend (.obj source) path with
  | some value => .ok (some value)
  | none => do return Fields.get? source (← lastName path)

/-- `writePath`, with the index of the last name. -/
def indexedWritePath (target : Map ν) (path : List String) (value : Json ν) : Except Failure (Map ν) := do
  let _ ← lastName path
  return writePath target path value

/-- They hold on every path that is cut from a mask. -/
theorem indexed_split (source : JsonObject ν) (target : Map ν) (relative : String) (value : Json ν) :
    indexedReadPath source (Text.split relative '.') = .ok (readPath source (Text.split relative '.')) ∧
      indexedWritePath target (Text.split relative '.') value =
        .ok (writePath target (Text.split relative '.') value) := by
  have hlast := List.getLast?_eq_some_getLast (Text.split_ne_nil relative '.')
  constructor
  · unfold indexedReadPath readPath readPathOrLeaf lastName
    rw [hlast]
    cases descend (.obj source) (Text.split relative '.') <;> rfl
  · unfold indexedWritePath lastName
    rw [hlast]
    rfl

/-! ## Events on a map -/

/-- The call returns a map or an error value. -/
def Proper : Applied Failure (Option (Map ν)) → Prop
  | .returned s => s.isSome = true
  | .raised f _ => f ≠ .panic

theorem proper_of_error {x : Except Failure α} {f : Failure} (hx : Safe x) (h : x = .error f) (s : Option (Map ν)) :
    Proper (.raised f s) := by
  rintro rfl
  exact hx h

theorem proper_err (r : Rejection) (s : Option (Map ν)) : Proper (.raised (.err r) s) := by
  intro h
  cases h

theorem proper_ofExcept {x : Except Failure α} (h : Safe x) (s : Option (Map ν)) (store : α → Map ν) :
    Proper (.ofExcept s (fun a => some (store a)) x) := by
  cases hx : x with
  | ok a => rfl
  | error f => exact proper_of_error h hx s

theorem safe_updateFirst {p : α → Bool} {f : α → Except Failure α} {missing : Except Failure (List α)}
    (hf : ∀ a, Safe (f a)) (hmissing : Safe missing) (bs : List α) :
    Safe (updateFirst (fun a => .ok (p a)) f missing bs) := by
  induction bs with
  | nil => exact hmissing
  | cons b rest ih =>
    rw [updateFirst]
    refine (safe_ok (p b)).bind fun found _ => ?_
    cases found with
    | true => exact (hf b).bind fun _ _ => safe_ok _
    | false => exact ih.bind fun _ _ => safe_ok _

theorem proper_patchBlocks {f : Map ν → Except Failure (Map ν)} {missing : Except Failure (List (Map ν))}
    (hf : ∀ b, Safe (f b)) (hmissing : Safe missing) (m : Map ν) (id : String) :
    Proper (patchBlocks (some m) id f missing) := by
  unfold patchBlocks
  cases hof : blocksOf m with
  | error failure =>
    simp only [hof]
    exact proper_of_error (safe_blocksOf m) hof _
  | ok p =>
    simp only [hof]
    exact proper_ofExcept (safe_updateFirst hf hmissing p.1) _ _

theorem safe_upsertArguments (snapshot : Option (Map ν)) (block : JsonObject ν) :
    Safe (upsertArguments snapshot block) := by
  unfold upsertArguments
  exact (safe_validateBlock block).bind fun _ _ => safe_check_bind fun _ => safe_ok _

theorem proper_upsertBlock (m : Map ν) (block : JsonObject ν) : Proper (upsertBlock (some m) block) := by
  unfold upsertBlock
  cases h : upsertArguments (some m) block with
  | error f => exact proper_of_error (safe_upsertArguments (some m) block) h _
  | ok id => exact proper_patchBlocks (fun _ => safe_ok _) (safe_ok _) m id

theorem safe_appendToBlock (field : String) (value : Json ν) (current : Map ν) :
    Safe (appendToBlock field value current) := by
  unfold appendToBlock requireInlineBlock
  refine safe_check_bind fun _ => ?_
  split <;> first | exact safe_ok _ | exact safe_err _

theorem safe_appendArguments (mask : String) (block : JsonObject ν) : Safe (appendArguments mask block) := by
  unfold appendArguments
  refine safe_check_bind fun _ => safe_check_bind fun _ => ?_
  cases Fields.get? block (Text.dropPrefix mask "block.") with
  | none => exact safe_err _
  | some value => exact safe_ok _

theorem proper_appendByMask (m : Map ν) (mask : String) (block : JsonObject ν) :
    Proper (appendByMask (some m) mask block) := by
  unfold appendByMask
  cases h : appendArguments mask block with
  | error f => exact proper_of_error (safe_appendArguments mask block) h _
  | ok a =>
    cases hof : blocksOf m with
    | error f =>
      simp only [hof]
      exact proper_of_error (safe_blocksOf m) hof _
    | ok p =>
      simp only [hof]
      split_ifs
      · exact proper_patchBlocks (safe_appendToBlock a.1 a.2.2) (safe_ok _) p.2 a.2.1
      · exact proper_upsertBlock p.2 block

theorem safe_setArguments (mask : String) (source : JsonObject ν) : Safe (setArguments mask source) := by
  unfold setArguments
  cases Text.cut mask '.' with
  | none => exact safe_err _
  | some p =>
    refine safe_check_bind fun _ => ?_
    dsimp only
    cases readPath source (Text.split p.2 '.') with
    | none => exact safe_err _
    | some value => exact safe_ok _

theorem safe_setInBlock (path : List String) (value : Json ν) (target : Map ν) :
    Safe (setInBlock path value target) := by
  unfold setInBlock requireInlineBlock
  exact safe_check_bind fun _ => safe_ok _

theorem proper_setByMask (m : Map ν) (mask : String) (source : JsonObject ν) :
    Proper (setByMask (some m) mask source) := by
  unfold setByMask
  cases h : setArguments mask source with
  | error f => exact proper_of_error (safe_setArguments mask source) h _
  | ok a =>
    dsimp only
    split_ifs
    · rfl
    · exact proper_patchBlocks (safe_setInBlock a.2.1 a.2.2) (safe_err _) m _
    · exact proper_err _ _

/-- A validated start has a model. -/
theorem isSome_model_of_validate {event : Event ν} (h : event.validate = .ok ()) (hop : event.op = .known .start) :
    event.model.isSome = true := by
  unfold Event.validate at h
  rw [seq_eq_ok, hop] at h
  cases hmodel : event.model with
  | none => simp [hmodel] at h
  | some model => rfl

/-- An event on a map leaves a map or fails with an error value. -/
theorem proper_apply (m : Map ν) (event : Event ν) : Proper (apply (some m) event) := by
  unfold apply
  cases h : event.validate with
  | error f => exact proper_of_error (safe_validate event) h _
  | ok u =>
    dsimp only
    unfold applyEvent
    cases hop : event.op with
    | other text => exact proper_err _ _
    | known op =>
      cases op with
      | start =>
        dsimp only
        rw [Proper, Option.isSome_map]
        exact isSome_model_of_validate h hop
      | set =>
        dsimp only
        split_ifs
        · exact proper_upsertBlock m _
        · exact proper_setByMask m _ _
      | append => exact proper_appendByMask m _ _
      | error => exact proper_setByMask m _ _
      | ping => rfl
      | end_ => rfl

/-- The call ends in a panic. -/
def Panics (x : Applied Failure (Option (Map ν))) : Prop := ∃ s, x = .raised .panic s

theorem not_panics_returned (s : Option (Map ν)) : ¬ Panics (.returned s) := by
  rintro ⟨t, h⟩
  cases h

theorem not_panics_of_proper {x : Applied Failure (Option (Map ν))} (h : Proper x) : ¬ Panics x := by
  rintro ⟨s, rfl⟩
  exact h rfl

/-! ## Events on a nil map -/

/-- The event gets as far as a write to the map. -/
def Event.writes (event : Event ν) : Bool :=
  match event.op with
  | .known .set =>
    if event.mask = "" then !Fields.has (event.block.getD []) "ref"
    else (Text.cut event.mask '.').any fun p =>
      (readPath ((event.meta_.or event.block).getD []) (Text.split p.2 '.')).isSome
  | .known .append =>
    let field := Text.dropPrefix event.mask "block."
    field != "" && !Text.contains field '.' && stringAt (event.block.getD []) "id" != "" &&
      Fields.has (event.block.getD []) field
  | .known .error => true
  | _ => false

/-- The first of the events that is neither a ping nor an end is accepted and writes. -/
def opensWithWrite : List (Event ν) → Bool
  | [] => false
  | event :: rest =>
    match event.validate, event.op with
    | .error _, _ => false
    | .ok (), .known .ping | .ok (), .known .end_ => opensWithWrite rest
    | .ok (), _ => event.writes

/-- A validated set has no mask and a complete block, or a mask with something behind its root. -/
theorem shape_of_validateSet {event : Event ν} (h : validateSet event = .ok ()) :
    (event.mask = "" ∧ validateBlock (event.block.getD []) = .ok ()) ∨
      event.mask ≠ "" ∧ ∃ root relative, Text.cut event.mask '.' = some (root, relative) ∧ relative ≠ "" ∧
        (root = "meta" ∨ root = "block") := by
  simp only [validateSet, seq_eq_ok, check_eq_ok] at h
  obtain ⟨-, hnoMask, hmask, h⟩ := h
  by_cases hempty : event.mask = ""
  · refine .inl ⟨hempty, ?_⟩
    cases hblock : event.block with
    | none => simp [hempty, hblock] at hnoMask
    | some block => simpa [hblock, hempty] using h
  refine .inr ⟨hempty, ?_⟩
  rw [Bool.or_eq_true, beq_iff_eq, Bool.and_eq_true, bne_iff_ne] at hmask
  obtain ⟨hpre, hlen⟩ := hmask.resolve_left hempty
  rw [ne_eq, Text.length_eq_iff_of_hasPrefix hpre] at hlen
  cases hblock : event.block with
  | none =>
    simp only [hblock, Option.isSome_none, Bool.false_eq_true, if_false] at hpre hlen
    exact ⟨"meta", _, Text.cut_meta hpre, Text.dropPrefix_ne_empty hpre hlen, .inl rfl⟩
  | some block =>
    simp only [hblock, Option.isSome_some, if_true] at hpre hlen
    exact ⟨"block", _, Text.cut_block hpre, Text.dropPrefix_ne_empty hpre hlen, .inr rfl⟩

/-- On a nil map an inline block is refused a place; a reference is refused for the version before. -/
theorem panics_upsertBlock_none_iff {block : JsonObject ν} (h : validateBlock block = .ok ()) :
    Panics (upsertBlock none block) ↔ Fields.has block "ref" = false := by
  have hversion : memberEquals "version" protocolVersion ([] : Map ν) = false := rfl
  unfold upsertBlock upsertArguments
  rw [h]
  cases Fields.has block "ref" with
  | true => exact iff_of_false (not_panics_of_proper (proper_err _ _)) Bool.true_eq_false.mp
  | false => exact iff_of_true ⟨none, rfl⟩ rfl

/-- A masked write panics once the payload has the value. -/
theorem panics_setByMask_none_iff {mask root relative : String} {source : JsonObject ν}
    (hcut : Text.cut mask '.' = some (root, relative)) (hrelative : relative ≠ "")
    (hroot : root = "meta" ∨ root = "block") :
    Panics (setByMask none mask source) ↔ (readPath source (Text.split relative '.')).isSome = true := by
  unfold setByMask setArguments
  rw [hcut]
  dsimp only
  have hcheck : check (relative != "") (Failure.err (.invalidSetMask mask)) = .ok () := by
    rwa [check_eq_ok, bne_iff_ne]
  rw [hcheck]
  cases readPath source (Text.split relative '.') with
  | none => exact iff_of_false (not_panics_of_proper (proper_err _ _)) Bool.false_ne_true
  | some value =>
    refine iff_of_true ⟨none, ?_⟩ rfl
    rcases hroot with rfl | rfl <;> rfl

theorem panics_appendByMask_none_iff {mask : String} {block : JsonObject ν} :
    Panics (appendByMask none mask block) ↔ ∃ a, appendArguments mask block = .ok a := by
  unfold appendByMask
  cases h : appendArguments mask block with
  | error f =>
    refine iff_of_false (not_panics_of_proper (proper_of_error (safe_appendArguments mask block) h none)) ?_
    rintro ⟨a, ha⟩
    cases ha
  | ok a => exact iff_of_true ⟨none, rfl⟩ ⟨a, rfl⟩

theorem exists_appendArguments_iff {mask : String} {block : JsonObject ν} :
    (∃ a, appendArguments mask block = .ok a) ↔
      (Text.dropPrefix mask "block." != "" && !Text.contains (Text.dropPrefix mask "block.") '.' &&
        stringAt block "id" != "" && Fields.has block (Text.dropPrefix mask "block.")) = true := by
  simp only [appendArguments, seq_eq_ok, check_eq_ok, Bool.and_eq_true, Fields.has]
  cases Fields.get? block (Text.dropPrefix mask "block.") with
  | none => simp
  | some value => simp [pure, Except.pure]

/-- On a nil map a validated event panics exactly when it writes. -/
theorem panics_applyEvent_none_iff {event : Event ν} (h : event.validate = .ok ()) :
    Panics (applyEvent none event) ↔ event.writes = true := by
  unfold Event.validate at h
  rw [seq_eq_ok] at h
  unfold applyEvent Event.writes
  cases hop : event.op with
  | other text => exact iff_of_false (not_panics_of_proper (proper_err _ _)) Bool.false_ne_true
  | known op =>
    rw [hop] at h
    cases op with
    | start => exact iff_of_false (not_panics_returned _) Bool.false_ne_true
    | set =>
      dsimp only
      rcases shape_of_validateSet h.2 with ⟨hmask, hblock⟩ | ⟨hmask, root, relative, hcut, hrelative, hroot⟩
      · rw [if_pos hmask, if_pos hmask, panics_upsertBlock_none_iff hblock, Bool.not_eq_true']
      · rw [if_neg hmask, if_neg hmask, panics_setByMask_none_iff hcut hrelative hroot, hcut, Option.any_some]
    | append => exact panics_appendByMask_none_iff.trans exists_appendArguments_iff
    | error =>
      -- the mask is `meta.error`, and the payload has an error
      simp only [validateError, check_eq_ok, Bool.and_eq_true, beq_iff_eq] at h
      obtain ⟨-, ⟨hmask, herror⟩, -⟩ := h
      obtain ⟨value, hvalue, -⟩ := memberIs_iff.mp herror
      have hread : readPath (event.meta_.getD []) (Text.split "error" '.') = some value := by
        rw [show Text.split "error" '.' = ["error"] by decide, readPath, readPathOrLeaf, descend_cons, hvalue]
        rfl
      have hcut : Text.cut event.mask '.' = some ("meta", "error") := by
        rw [hmask]
        decide
      refine iff_of_true ((panics_setByMask_none_iff hcut (by decide) (.inl rfl)).mpr ?_) rfl
      rw [hread, Option.isSome_some]
    | ping => exact iff_of_false (not_panics_returned _) Bool.false_ne_true
    | end_ => exact iff_of_false (not_panics_returned _) Bool.false_ne_true

/-! ## Whole runs -/

theorem panics_apply_none_iff {event : Event ν} :
    Panics (apply none event) ↔ event.validate = .ok () ∧ event.writes = true := by
  unfold apply
  cases h : event.validate with
  | error f =>
    exact iff_of_false (not_panics_of_proper (proper_of_error (safe_validate event) h none)) fun hok => nomatch hok.1
  | ok u => exact (panics_applyEvent_none_iff h).trans (and_iff_right rfl).symm

/-- A run that has a map keeps one. -/
theorem not_panics_applyAll_some (m : Map ν) (events : List (Event ν)) : ¬ Panics (applyAll (some m) events) := by
  unfold applyAll
  induction events generalizing m with
  | nil => exact not_panics_of_proper rfl
  | cons event rest ih =>
    have hproper := proper_apply m event
    rw [Applied.run]
    cases h : apply (some m) event with
    | raised f s =>
      rw [h] at hproper
      exact not_panics_of_proper hproper
    | returned s =>
      rw [h] at hproper
      obtain ⟨m', rfl⟩ := Option.isSome_iff_exists.mp hproper
      exact ih m'

/-- A nil map is never returned by an operation that changes the document. -/
theorem state?_upsertBlock_none (block : JsonObject ν) : (upsertBlock none block).state? = none := by
  unfold upsertBlock
  cases upsertArguments none block <;> rfl

theorem state?_setByMask_none (mask : String) (source : JsonObject ν) : (setByMask none mask source).state? = none := by
  unfold setByMask
  cases setArguments mask source with
  | error f => rfl
  | ok a =>
    dsimp only
    split_ifs <;> rfl

theorem state?_appendByMask_none (mask : String) (block : JsonObject ν) :
    (appendByMask none mask block).state? = none := by
  unfold appendByMask
  cases appendArguments mask block <;> rfl

/-- What a validated event returns for a nil map: pings and ends leave it, a start replaces it. -/
theorem state?_applyEvent_none {event : Event ν} {s : Option (Map ν)} (h : (applyEvent none event).state? = some s) :
    event.op = .known .start ∨ (event.op = .known .ping ∨ event.op = .known .end_) ∧ s = none := by
  unfold applyEvent at h
  cases hop : event.op with
  | other text => simp [hop] at h
  | known op =>
    simp only [hop] at h
    cases op with
    | start => exact .inl rfl
    | set =>
      dsimp only at h
      split_ifs at h
      · simp [state?_upsertBlock_none] at h
      · simp [state?_setByMask_none] at h
    | append => simp [state?_appendByMask_none] at h
    | error => simp [state?_setByMask_none] at h
    | ping => exact .inr ⟨.inl rfl, (Option.some.inj h).symm⟩
    | end_ => exact .inr ⟨.inr rfl, (Option.some.inj h).symm⟩

theorem opensWithWrite_cons {event : Event ν} (hvalid : event.validate = .ok ()) (hping : event.op ≠ .known .ping)
    (hend : event.op ≠ .known .end_) (rest : List (Event ν)) : opensWithWrite (event :: rest) = event.writes := by
  rw [opensWithWrite, hvalid]
  cases hop : event.op with
  | other text => rfl
  | known op =>
    cases op with
    | ping => exact absurd hop hping
    | end_ => exact absurd hop hend
    | start => rfl
    | set => rfl
    | append => rfl
    | error => rfl

theorem panics_applyAll_none_iff {events : List (Event ν)} :
    Panics (applyAll none events) ↔ opensWithWrite events = true := by
  unfold applyAll
  induction events with
  | nil => exact iff_of_false (not_panics_returned _) Bool.false_ne_true
  | cons event rest ih =>
    have hpanics : Panics (apply none event) ↔ event.validate = .ok () ∧ event.writes = true := panics_apply_none_iff
    rw [Applied.run]
    cases hvalid : event.validate with
    | error f =>
      have happly : apply none event = .raised f none := by rw [apply, hvalid]
      rw [happly] at hpanics ⊢
      rw [opensWithWrite, hvalid]
      refine hpanics.trans (iff_of_false (fun h => ?_) Bool.false_ne_true)
      rw [hvalid] at h
      cases h.1
    | ok u =>
      have happly : apply none event = applyEvent none event := by rw [apply, hvalid]
      rw [happly, and_iff_right hvalid] at hpanics
      rw [happly]
      cases hs : applyEvent none event with
      | raised f s =>
        -- neither a ping nor an end, which are returned
        have hping : event.op ≠ .known .ping := fun hop => by simp [applyEvent, hop] at hs
        have hend : event.op ≠ .known .end_ := fun hop => by simp [applyEvent, hop] at hs
        rw [opensWithWrite_cons hvalid hping hend, ← hpanics, hs]
      | returned s =>
        rcases state?_applyEvent_none (by rw [hs]; rfl) with hop | ⟨hop | hop, rfl⟩
        · obtain ⟨model, hmodel⟩ := Option.isSome_iff_exists.mp (isSome_model_of_validate hvalid hop)
          obtain rfl : some (cloneMap model) = s := by simpa [applyEvent, hop, hmodel] using hs
          rw [opensWithWrite, hvalid, hop]
          exact iff_of_false (not_panics_applyAll_some _ rest) (by simp [Event.writes, hop])
        · rw [opensWithWrite, hvalid, hop]
          exact ih
        · rw [opensWithWrite, hvalid, hop]
          exact ih

/-- Neither `Apply` nor `ApplyAll` panics, unless it is given a nil map and events that write before a start has
replaced it. -/
theorem reducer_never_panics_iff (snapshot : Option (Map ν)) (event : Event ν) (events : List (Event ν)) :
    (¬ Panics (apply snapshot event) ↔ snapshot ≠ none ∨ opensWithWrite [event] = false) ∧
      (¬ Panics (applyAll snapshot events) ↔ snapshot ≠ none ∨ opensWithWrite events = false) := by
  have hall : ∀ events, ¬ Panics (applyAll snapshot events) ↔ snapshot ≠ none ∨ opensWithWrite events = false := by
    intro events
    cases snapshot with
    | none => rw [panics_applyAll_none_iff, Bool.not_eq_true, or_iff_right (not_not.mpr rfl)]
    | some m => exact iff_of_true (not_panics_applyAll_some m events) (.inl (Option.some_ne_none m))
  refine ⟨?_, hall events⟩
  have hone : Panics (applyAll snapshot [event]) ↔ Panics (apply snapshot event) := by
    unfold applyAll
    rw [Applied.run]
    cases apply snapshot event with
    | returned s => exact iff_of_false (not_panics_returned s) (not_panics_returned s)
    | raised f s => exact Iff.rfl
  rw [← hone, hall [event]]

/-- A caller that keeps one snapshot for each stream meets a block before the start of its stream. -/
def blockBeforeStart : Event ℕ :=
  ⟨"s1", .known .set, 1, none, "", "", none, none, some [("id", .str "b"), ("type", .str "text")]⟩

theorem block_before_start_panics :
    blockBeforeStart.validate = .ok () ∧ apply none blockBeforeStart = .raised .panic none ∧
      ¬ ∀ (snapshot : Option (Map ℕ)) (event : Event ℕ), ¬ Panics (apply snapshot event) := by
  have happly : apply none blockBeforeStart = .raised .panic none := by decide
  exact ⟨by decide, happly, fun h => h none blockBeforeStart ⟨none, happly⟩⟩

end AgentUE.Go
