import AgentUE.Conformance.Reducers

/-!
# Appends in pieces

A text or a list may be appended whole or piece by piece: the Python and the Go reducer come to the same snapshot,
or refuse the event and one of the pieces. Two pieces make the case: the first may create the block or the field,
and the second extends what the first has stored.
-/

namespace AgentUE.Conformance

open Data

variable {ν : Type}

/-! ## Values and their pieces -/

/-- A text or a list and the consecutive parts that it is cut into, none of them empty. -/
inductive CutInto : Json ν → List (Json ν) → Prop
  | text {parts : List String} : parts ≠ [] → (∀ p ∈ parts, p ≠ "") →
    CutInto (.str (parts.foldr (· ++ ·) "")) (parts.map .str)
  | list {parts : List (List (Json ν))} : parts ≠ [] → (∀ p ∈ parts, p ≠ []) →
    CutInto (.arr parts.flatten) (parts.map .arr)

/-- The event appends `value` to a field of a block, the rest of which is that of `block`. -/
structure Carries (field : String) (block : JsonObject ν) (value : Json ν) (e : Envelope ν) : Prop where
  op : e.op = .append
  mask : e.mask = some ("block." ++ field)
  model : e.model = none
  meta_ : e.meta_ = none
  block : e.block = some (Fields.set block field value)

/-- Two values of one kind, neither of them empty, and the two joined. -/
inductive Joined : Json ν → Json ν → Json ν → Prop
  | text {a b : String} : a ≠ "" → b ≠ "" → Joined (.str a) (.str b) (.str (a ++ b))
  | list {a b : List (Json ν)} : a ≠ [] → b ≠ [] → Joined (.arr a) (.arr b) (.arr (a ++ b))

theorem foldr_append_ne {parts : List String} (hne : parts ≠ []) (h : ∀ p ∈ parts, p ≠ "") :
    parts.foldr (· ++ ·) "" ≠ "" := by
  cases parts with
  | nil => exact absurd rfl hne
  | cons p rest =>
    intro hempty
    exact h p (by simp) (String.append_eq_empty_iff.mp hempty).1

/-- A cut is a single piece, or a first piece and a cut of what it leaves. -/
theorem CutInto.cases_first {value : Json ν} {pieces : List (Json ν)} (h : CutInto value pieces) :
    pieces = [value] ∨ ∃ first rest others, pieces = first :: others ∧ Joined first rest value ∧ CutInto rest others := by
  cases h with
  | @text parts hne hparts =>
    cases parts with
    | nil => exact absurd rfl hne
    | cons p others =>
      obtain ⟨hp, hothers⟩ := List.forall_mem_cons.mp hparts
      by_cases hnil : others = []
      · subst hnil
        exact .inl (by simp)
      · exact .inr ⟨_, _, others.map .str, rfl, .text hp (foldr_append_ne hnil hothers), .text hnil hothers⟩
  | @list parts hne hparts =>
    cases parts with
    | nil => exact absurd rfl hne
    | cons p others =>
      obtain ⟨hp, hothers⟩ := List.forall_mem_cons.mp hparts
      by_cases hnil : others = []
      · subst hnil
        exact .inl (by simp)
      · have hflatten : others.flatten ≠ [] := by
          obtain ⟨q, rest, rfl⟩ := List.exists_cons_of_ne_nil hnil
          intro hempty
          rw [List.flatten_cons, List.append_eq_nil_iff] at hempty
          exact hothers q (by simp) hempty.1
        exact .inr ⟨_, _, others.map .arr, rfl, .list hp hflatten, .list hnil hothers⟩

/-- Any value is carried by some event. -/
theorem exists_carries (field : String) (block : JsonObject ν) (value : Json ν) :
    ∃ e : Envelope ν, Carries field block value e :=
  ⟨⟨.append, 0, none, none, some ("block." ++ field), none, none, none, some (Fields.set block field value)⟩,
    rfl, rfl, rfl, rfl, rfl⟩

/-- Where two joined pieces do what the whole does, so do the pieces of any cut. -/
theorem state?_run_of_cutInto {ε σ : Type} {step : σ → Envelope ν → Applied ε σ} {field : String}
    {block : JsonObject ν}
    (hsame : ∀ s v e e', Carries field block v e → Carries field block v e' → (step s e).state? = (step s e').state?)
    (htwice : ∀ s v w u e e' e'', Joined v w u → Carries field block v e → Carries field block w e' →
      Carries field block u e'' → (step s e'').state? = (step s e).state?.bind fun s' => (step s' e').state?)
    {value : Json ν} {pieces : List (Json ν)} (hcut : CutInto value pieces) {whole : Envelope ν}
    (hwhole : Carries field block value whole) {events : List (Envelope ν)}
    (hevents : List.Forall₂ (Carries field block) pieces events) (s : σ) :
    (step s whole).state? = (Applied.run step s events).state? := by
  induction hevents generalizing value whole s with
  | nil =>
    rcases hcut.cases_first with h | ⟨_, _, _, h, -⟩ <;> cases h
  | @cons first event others rest hevent hrest ih =>
    rw [Applied.run]
    rcases hcut.cases_first with hone | ⟨first', left, others', heq, hjoined, hleft⟩
    · obtain ⟨rfl, rfl⟩ := List.cons.inj hone
      cases hrest
      rw [hsame s first whole event hwhole hevent]
      cases step s event <;> rfl
    · obtain ⟨rfl, rfl⟩ := List.cons.inj heq
      obtain ⟨e, he⟩ := exists_carries field block left
      rw [htwice s first left value event e whole hjoined hevent he hwhole]
      cases hstep : step s event with
      | returned s' => exact ih hleft he s'
      | raised r s' => rfl

theorem Joined.appendable {v w u : Json ν} (h : Joined v w u) :
    appendable v = true ∧ appendable w = true ∧ appendable u = true := by
  cases h <;> exact ⟨rfl, rfl, rfl⟩

/-- The whole and its first piece are well formed as the same members of a block. -/
theorem Joined.wellFormed {v w u : Json ν} (h : Joined v w u) :
    u.isNonEmptyStr = v.isNonEmptyStr ∧ u.isNullableStr = v.isNullableStr := by
  cases h with
  | text ha hb =>
    refine ⟨?_, rfl⟩
    simp only [DocTree.isNonEmptyStr, DocTree.asStr_str]
    rw [bne_iff_ne.mpr ha, bne_iff_ne.mpr fun h => ha (String.append_eq_empty_iff.mp h).1]
  | list ha hb => exact ⟨rfl, rfl⟩

/-- An inline block with the one or the other of two such values. -/
theorem blockOk_set_congr {R : Rules} {block : JsonObject ν} {field : String} {v u : Json ν}
    (href : Fields.has (Fields.set block field v) "ref" = false) (hstr : u.isNonEmptyStr = v.isNonEmptyStr)
    (hnull : u.isNullableStr = v.isNullableStr) :
    blockOk R (Fields.set block field u) = blockOk R (Fields.set block field v) := by
  have hhas : ∀ x : Json ν, Fields.has (Fields.set block field x) "ref" = (decide ("ref" = field) || Fields.has block "ref") :=
    fun x => Fields.has_set block field "ref" x
  have hget : ∀ (x : Json ν) k, Fields.get? (Fields.set block field x) k = if k = field then some x else Fields.get? block k :=
    fun x k => Fields.get?_set block field k x
  have hnonempty : ∀ k, memberIs DocTree.isNonEmptyStr (Fields.set block field u) k =
      memberIs DocTree.isNonEmptyStr (Fields.set block field v) k := by
    intro k
    rw [memberIs, memberIs, hget, hget]
    split_ifs
    · exact hstr
    · rfl
  have hnullable : ∀ k, memberMayBe DocTree.isNullableStr (Fields.set block field u) k =
      memberMayBe DocTree.isNullableStr (Fields.set block field v) k := by
    intro k
    rw [memberMayBe, memberMayBe, hget, hget]
    split_ifs
    · exact hnull
    · rfl
  rw [hhas] at href
  rw [blockOk, blockOk, hhas, hhas, href, inlineBlockOk, inlineBlockOk, hnonempty, hnonempty, hnullable, hnullable]
  rfl

/-- An event that the validators let through appends to neither `id` nor `ref`, whatever the value, and adds no
reference. -/
theorem ne_of_patchable {field : String} {block : JsonObject ν} {v : Json ν}
    (h : patchable ("block." ++ field) (Fields.set block field v) = true) :
    field ≠ "id" ∧ field ≠ "ref" ∧ ∀ x : Json ν, Fields.has (Fields.set block field x) "ref" = false := by
  have hid : field ≠ "id" := by
    rintro rfl
    exact (patchable_ne h (by decide +kernel)).1 rfl
  have href : field ≠ "ref" := by
    rintro rfl
    exact (patchable_ne h (by decide +kernel)).2 rfl
  have hinline := inline_of_patchable h
  refine ⟨hid, href, fun x => ?_⟩
  rw [Fields.has_set] at hinline ⊢
  exact hinline

/-- An append to a field of an inline block, by what it makes of the old value of the field. -/
def extendField {β : Type} (field : String) (extend : Option β → Option β) (b : List (String × β)) :
    Option (List (String × β)) :=
  if Fields.has b "ref" = true then none else (extend (Fields.get? b field)).map (Fields.set b field)

/-- Two appends to a block are one when they are one to the old value. -/
theorem extendField_twice {β : Type} {field : String} (hfield : field ≠ "ref") {first second both : Option β → Option β}
    (hboth : ∀ old, both old = (first old).bind fun x => second (some x)) (b : List (String × β)) :
    extendField field both b = (extendField field first b).bind (extendField field second) := by
  unfold extendField
  split_ifs with href
  · rfl
  · rw [hboth]
    cases first (Fields.get? b field) with
    | none => rfl
    | some x =>
      have hhas : ¬ Fields.has (Fields.set b field x) "ref" = true := by
        rw [Fields.has_set, decide_eq_false hfield.symm, Bool.false_or]
        exact href
      rw [Option.map_some, Option.bind_some, Option.bind_some, if_neg hhas, Fields.get?_set_self]
      refine congrArg (fun g => Option.map g (second (some x))) ?_
      funext y
      exact (Fields.set_set b field x y).symm

/-- An append to a field that holds a value. -/
theorem extendField_set {β : Type} {field : String} {b : List (String × β)} {x y : β} {extend : Option β → Option β}
    (href : Fields.has (Fields.set b field x) "ref" = false) (h : extend (some x) = some y) :
    extendField field extend (Fields.set b field x) = some (Fields.set b field y) := by
  rw [extendField, href, if_neg Bool.false_ne_true, Fields.get?_set_self, h, Option.map_some, Fields.set_set]

/-! ## Python -/

section Python

theorem python_validate_carries {field : String} {block : JsonObject ν} {v w : Json ν} {e e' : Envelope ν}
    (he : Carries field block v e) (he' : Carries field block w e') :
    Python.validateOperation e = Python.validateOperation e' := by
  simp only [Python.validateOperation, Python.validateAppend, Python.validateBlockFieldPatch, he.op, he'.op, he.mask,
    he'.mask, he.model, he'.model, he.meta_, he'.meta_, he.block, he'.block, Fields.has_set]

/-- The checks of an append that do not look at the value: the field and the id. -/
def appendTarget (field : String) (block : JsonObject ν) : Except Rejection String := do
  check (field != "" && !Text.contains field '.') (.unsupportedAppendMask ("block." ++ field))
  check (memberIs DocTree.isNonEmptyStr block "id") .appendBlockRequiresId
  return (idOf block).getD ""

theorem python_appendArguments_set {field : String} {block : JsonObject ν} {value : Json ν} (hfield : field ≠ "id")
    (hvalue : appendable value = true) :
    Python.appendArguments ("block." ++ field) (Fields.set block field value) =
      (appendTarget field block).map fun id => (field, id, value) := by
  have hid : Fields.get? (Fields.set block field value) "id" = Fields.get? block "id" :=
    Fields.get?_set_ne block value hfield.symm
  unfold appendable at hvalue
  simp only [Python.appendArguments, appendTarget, Text.dropPrefix_append, Fields.get?_set_self, idOf, hid,
    memberIs_congr hid, hvalue]
  cases check (field != "" && !Text.contains field '.') (Rejection.unsupportedAppendMask ("block." ++ field)) with
  | error r => rfl
  | ok u =>
    cases check (memberIs DocTree.isNonEmptyStr block "id") Rejection.appendBlockRequiresId with
    | error r => rfl
    | ok u => rfl

theorem idOf_of_appendTarget {field id : String} {block : JsonObject ν} (h : appendTarget field block = .ok id) :
    idOf block = some id := by
  rw [appendTarget, seq_eq_ok, seq_eq_ok, check_eq_ok, check_eq_ok] at h
  obtain ⟨-, hid, h⟩ := h
  obtain ⟨i, hi, -⟩ := exists_idOf_of_memberIs hid
  rw [hi] at h ⊢
  exact congrArg some (Except.ok.inj h)

/-- What an append makes of the old value of a field. -/
def extendedValue (old : Option (Json ν)) (value : Json ν) : Option (Json ν) :=
  match old.getD .null, value with
  | .null, _ => some value
  | .str a, .str b => some (.str (a ++ b))
  | .arr a, .arr b => some (.arr (a ++ b))
  | _, _ => none

theorem extended_twice {v w u : Json ν} (h : Joined v w u) (old : Option (Json ν)) :
    extendedValue old u = (extendedValue old v).bind fun x => extendedValue (some x) w := by
  unfold extendedValue
  cases h with
  | text =>
    rcases old.getD .null with (_ | _ | _ | a) | a | a <;> try rfl
    simp [String.append_assoc]
  | list =>
    rcases old.getD .null with (_ | _ | _ | a) | a | a <;> try rfl
    simp

theorem extended_joined {v w u : Json ν} (h : Joined v w u) : extendedValue (some v) w = some u := by
  cases h <;> rfl

theorem python_appendToBlock_eq (field : String) (value : Json ν) (b : JsonObject ν) :
    (Python.appendToBlock field value b).toOption = extendField field (extendedValue · value) b := by
  unfold Python.appendToBlock Python.requireInlineBlock extendField extendedValue
  beta_reduce
  cases Fields.has b "ref" with
  | true => rfl
  | false =>
    rcases (Fields.get? b field).getD .null with (_ | _ | _ | a) | a | a <;>
      rcases value with (_ | _ | _ | c) | c | c <;> rfl

/-- A block takes the whole as it takes the two parts of it. -/
theorem python_appendToBlock_twice {field : String} (hfield : field ≠ "ref") {v w u : Json ν} (h : Joined v w u)
    (b : JsonObject ν) :
    (Python.appendToBlock field u b).toOption =
      (Python.appendToBlock field v b).toOption.bind fun b' => (Python.appendToBlock field w b').toOption := by
  simp only [python_appendToBlock_eq]
  exact extendField_twice hfield (extended_twice h) b

section

variable [DecidableEq ν]

/-- Two block loops one after the other on a snapshot with a list of blocks. -/
theorem python_patchBlocks_twice {s : JsonObject ν} {id : Option (Json ν)}
    {f g h : JsonObject ν → Except Rejection (JsonObject ν)} {m n k : Except Rejection (List (JsonObject ν))}
    (hf : ∀ b b', f b = .ok b' → Fields.get? b' "id" = Fields.get? b "id")
    (hboth : ∀ b, (h b).toOption = (f b).toOption.bind fun b' => (g b').toOption)
    (hmissing : n.toOption.map (List.map DocTree.obj) = m.toOption.bind fun added =>
      (updateFirst (Python.hasId id) (Python.onDict g) (do return (← k).map .obj) (added.map .obj)).toOption) :
    (Python.patchBlocks s id h n).state? = (Python.patchBlocks s id f m).state?.bind fun s' =>
      (Python.patchBlocks (setDefault s' "blocks" (.arr [])) id g k).state? := by
  have hdict : ∀ item, (Python.onDict h item).toOption =
      (Python.onDict f item).toOption.bind fun item' => (Python.onDict g item').toOption := by
    intro item
    cases item with
    | leaf a => rfl
    | arr xs => rfl
    | obj b =>
      rw [Python.onDict_obj, Python.onDict_obj, hboth b]
      cases f b with
      | error r => rfl
      | ok b' => exact (Python.onDict_obj g b').symm
  have hfound : ∀ item item', Python.hasId id item = .ok true → Python.onDict f item = .ok item' →
      Python.hasId id item' = .ok true := by
    intro item item' hid hitem
    cases item with
    | leaf a => cases hid
    | arr xs => cases hid
    | obj b =>
      rw [← toOption_eq_some, Python.onDict_obj, Option.map_eq_some_iff] at hitem
      obtain ⟨b', hb', rfl⟩ := hitem
      rw [Python.hasId, Python.idEquals, hf b b' (toOption_eq_some.mp hb')]
      exact hid
  have hadded : (do return (← n).map DocTree.obj : Except Rejection (List (Json ν))).toOption =
      (do return (← m).map DocTree.obj : Except Rejection (List (Json ν))).toOption.bind fun added =>
        (updateFirst (Python.hasId id) (Python.onDict g) (do return (← k).map .obj) added).toOption := by
    rw [Python.dicts_toOption, Python.dicts_toOption, hmissing]
    cases m <;> rfl
  cases hitems : Python.iterBlocks (Fields.get? s "blocks") with
  | error r =>
    unfold Python.patchBlocks
    rw [hitems]
    rfl
  | ok items =>
    rw [Python.patchBlocks_of_items hitems, Python.patchBlocks_of_items hitems,
      updateFirst_twice hfound (fun item _ => hdict item) hadded items]
    cases updateFirst (Python.hasId id) (Python.onDict f) (do return (← m).map .obj) items with
    | error r => rfl
    | ok items' =>
      have hblocks := Fields.get?_set_self s "blocks" (.arr items')
      simp only [Except.toOption, Option.bind_some, Option.map_some, setDefault_of_get? hblocks]
      rw [Python.patchBlocks_of_items (by rw [hblocks]; rfl)]
      simp only [Fields.set_set]
      rfl

omit [DecidableEq ν] in
theorem appendMissing_eq (block : JsonObject ν) :
    (Python.appendMissing block).toOption =
      if memberIs DocTree.isNonEmptyStr block "type" = true ∧ blockOk Python.rules block = true then some [block]
      else none := by
  split_ifs with h
  · rw [Python.appendMissing_eq_ok.mpr ⟨h.1, h.2, rfl⟩]
    rfl
  · cases hadded : Python.appendMissing block with
    | error r => rfl
    | ok added =>
      obtain ⟨htype, hok, -⟩ := Python.appendMissing_eq_ok.mp hadded
      exact absurd ⟨htype, hok⟩ h

/-- The block that the first part creates takes the second part, and is then the block that the whole creates. -/
theorem python_appendMissing_twice {field id : String} {block : JsonObject ν} (hfield : field ≠ "id")
    (href : ∀ x : Json ν, Fields.has (Fields.set block field x) "ref" = false) (hid : idOf block = some id)
    {v w u : Json ν} (h : Joined v w u) :
    (Python.appendMissing (Fields.set block field u)).toOption.map (List.map DocTree.obj) =
      (Python.appendMissing (Fields.set block field v)).toOption.bind fun added =>
        (updateFirst (Python.hasId (some (.str id))) (Python.onDict (Python.appendToBlock field w))
          (do return (← Python.appendMissing (Fields.set block field w)).map .obj) (added.map .obj)).toOption := by
  have htype : memberIs DocTree.isNonEmptyStr (Fields.set block field u) "type" =
      memberIs DocTree.isNonEmptyStr (Fields.set block field v) "type" := by
    rw [memberIs, memberIs, Fields.get?_set, Fields.get?_set]
    split_ifs
    · exact h.wellFormed.1
    · rfl
  rw [appendMissing_eq, appendMissing_eq, blockOk_set_congr (href v) h.wellFormed.1 h.wellFormed.2, htype]
  split_ifs
  · have hfound : Python.hasId (some (.str id)) (.obj (Fields.set block field v)) = .ok true := by
      rw [Python.hasId, Python.idEquals_str, idOf_congr (Fields.get?_set_ne block v hfield.symm), hid, beq_self_eq_true]
    have htake : Python.appendToBlock field w (Fields.set block field v) = .ok (Fields.set block field u) := by
      rw [← toOption_eq_some, python_appendToBlock_eq]
      exact extendField_set (href v) (extended_joined h)
    simp only [Option.map_some, Option.bind_some, List.map_cons, List.map_nil, updateFirst, hfound, Python.onDict, htake]
    rfl
  · rfl

omit [DecidableEq ν] in
/-- The validator lets through no append to `id` or `ref`, and none of a block with `ref`. -/
theorem of_python_validate_carries {field : String} {block : JsonObject ν} {v : Json ν} {e : Envelope ν}
    (he : Carries field block v e) (h : Python.validateOperation e = .ok ()) :
    field ≠ "id" ∧ field ≠ "ref" ∧ ∀ x : Json ν, Fields.has (Fields.set block field x) "ref" = false := by
  obtain ⟨mask, b, hmask, hblock, -, hpatch⟩ := append_payload he.op h
  obtain rfl : "block." ++ field = mask := Option.some.inj (he.mask.symm.trans hmask)
  obtain rfl : Fields.set block field v = b := Option.some.inj (he.block.symm.trans hblock)
  exact ne_of_patchable hpatch

theorem python_applyPatch_carries {field : String} {block : JsonObject ν} {v : Json ν} {e : Envelope ν}
    (he : Carries field block v e) (hv : appendable v = true) (h : Python.validateOperation e = .ok ())
    (s : JsonObject ν) :
    Python.applyPatch s e =
      match appendTarget field block with
      | .error r => .raised r s
      | .ok id => Python.patchBlocks (setDefault s "blocks" (.arr [])) (some (.str id)) (Python.appendToBlock field v)
          (Python.appendMissing (Fields.set block field v)) := by
  have hargs : Python.appendArguments ("block." ++ field) (Fields.set block field v) = _ :=
    python_appendArguments_set (of_python_validate_carries he h).1 hv
  simp only [Python.applyPatch, h, Python.applyEvent, he.op, Python.applyAppend, he.mask, he.block, Option.getD_some, hargs]
  cases appendTarget field block <;> rfl

theorem python_append_twice {field : String} {block : JsonObject ν} {v w u : Json ν} {e e' e'' : Envelope ν}
    (hjoined : Joined v w u) (he : Carries field block v e) (he' : Carries field block w e')
    (he'' : Carries field block u e'') (s : JsonObject ν) :
    (Python.applyPatch s e'').state? = (Python.applyPatch s e).state?.bind fun s' => (Python.applyPatch s' e').state? := by
  obtain ⟨hv, hw, hu⟩ := hjoined.appendable
  cases hvalid : Python.validateOperation e with
  | error r =>
    have hvalid'' := (python_validate_carries he'' he).trans hvalid
    simp [Python.applyPatch, hvalid, hvalid'']
  | ok _ =>
    have hvalid' := (python_validate_carries he' he).trans hvalid
    have hvalid'' := (python_validate_carries he'' he).trans hvalid
    obtain ⟨hid, href, hinline⟩ := of_python_validate_carries he hvalid
    simp only [python_applyPatch_carries he hv hvalid, python_applyPatch_carries he' hw hvalid',
      python_applyPatch_carries he'' hu hvalid'']
    cases htarget : appendTarget field block with
    | error r => rfl
    | ok id =>
      refine python_patchBlocks_twice (fun b b' hb' => ?_) (python_appendToBlock_twice href hjoined)
        (python_appendMissing_twice hid hinline (idOf_of_appendTarget htarget) hjoined)
      obtain ⟨-, x, rfl, -⟩ := Python.appendToBlock_eq_ok hb'
      exact Fields.get?_set_ne b x hid.symm

/-- One piece, carried by two events that differ outside of the payload. -/
theorem python_append_same {field : String} {block : JsonObject ν} {v : Json ν} {e e' : Envelope ν}
    (he : Carries field block v e) (he' : Carries field block v e') (s : JsonObject ν) :
    Python.applyPatch s e = Python.applyPatch s e' := by
  simp only [Python.applyPatch, python_validate_carries he he', Python.applyEvent, he.op, he'.op, Python.applyAppend,
    he.mask, he'.mask, he.block, he'.block]

end

end Python

/-! ## Go -/

section Go

open Go

theorem go_validate_carries {field : String} {block : JsonObject ν} {v w : Json ν} {e e' : Envelope ν}
    (he : Carries field block v e) (he' : Carries field block w e') :
    (decoded e).validate = (decoded e').validate := by
  simp only [Event.validate, validateAppend, Go.validateBlockFieldPatch, decoded, he.op, he'.op, he.mask, he'.mask,
    he.model, he'.model, he.meta_, he'.meta_, he.block, he'.block, Fields.has_set]

/-- What an append makes of the old value of a field of a map. -/
def extendedAny (old : Option (Any ν)) (value : Json ν) : Option (Any ν) :=
  match value, old with
  | .str added, none | .str added, some (.leaf (.json .null)) => some (.leaf (.json (.str added)))
  | .str added, some (.leaf (.json (.str old))) => some (.leaf (.json (.str (old ++ added))))
  | .arr added, none | .arr added, some (.leaf (.json .null)) | .arr added, some (.leaf .nilSlice) =>
    some (if added = [] then .leaf .nilSlice else ofJson (.arr added))
  | .arr added, some (.arr old) => some (.arr (old ++ DocTree.mapList .json added))
  | _, _ => none

theorem ofJson_arr (xs : List (Json ν)) : ofJson (.arr xs) = .arr (DocTree.mapList .json xs) := rfl

theorem mapList_append (xs ys : List (Json ν)) :
    DocTree.mapList Leaf.json (xs ++ ys) = DocTree.mapList Leaf.json xs ++ DocTree.mapList Leaf.json ys := by
  simp only [DocTree.mapList_eq_map, List.map_append]

theorem extendedAny_twice {v w u : Json ν} (h : Joined v w u) (old : Option (Any ν)) :
    extendedAny old u = (extendedAny old v).bind fun x => extendedAny (some x) w := by
  cases h with
  | text =>
    rcases old with _ | ((_ | _ | _ | a) | _) | a | a <;> try rfl
    simp [extendedAny, String.append_assoc]
  | @list a b ha hb =>
    have hab : a ++ b ≠ [] := by simp [ha]
    rcases old with _ | ((_ | _ | _ | c) | _) | c | c <;> try rfl
    all_goals simp [extendedAny, ha, hab, ofJson_arr, mapList_append, List.append_assoc]

theorem extendedAny_joined {v w u : Json ν} (h : Joined v w u) : extendedAny (some (ofJson v)) w = some (ofJson u) := by
  cases h with
  | text => rfl
  | list => simp [extendedAny, ofJson_arr, mapList_append]

theorem go_appendToBlock_eq (field : String) (value : Json ν) (b : Map ν) :
    (Go.appendToBlock field value b).toOption = extendField field (extendedAny · value) b := by
  unfold Go.appendToBlock Go.requireInlineBlock extendField extendedAny
  beta_reduce
  cases Fields.has b "ref" with
  | true => rfl
  | false =>
    rcases Fields.get? b field with _ | ((_ | _ | _ | a) | _) | a | a <;>
      rcases value with (_ | _ | _ | c) | c | c <;> rfl

theorem go_appendToBlock_eq_ok {field : String} {value : Json ν} {b b' : Map ν}
    (h : Go.appendToBlock field value b = .ok b') : Fields.has b "ref" = false ∧
      ∃ x, extendedAny (Fields.get? b field) value = some x ∧ Fields.set b field x = b' := by
  rw [← toOption_eq_some, go_appendToBlock_eq, extendField] at h
  split_ifs at h with href
  exact ⟨Bool.eq_false_iff.mpr href, Option.map_eq_some_iff.mp h⟩

theorem go_appendToBlock_twice {field : String} (hfield : field ≠ "ref") {v w u : Json ν} (h : Joined v w u)
    (b : Map ν) :
    (Go.appendToBlock field u b).toOption =
      (Go.appendToBlock field v b).toOption.bind fun b' => (Go.appendToBlock field w b').toOption := by
  simp only [go_appendToBlock_eq]
  exact extendField_twice hfield (extendedAny_twice h) b

/-- What `blocksOf` leaves has the list of blocks. -/
theorem get?_blocks_of_blocksOf {m left : Map ν} {blocks : List (Map ν)} (h : blocksOf m = .ok (blocks, left)) :
    Fields.get? left "blocks" = some (.arr (blocks.map .obj)) := by
  unfold blocksOf at h
  cases hget : Fields.get? m "blocks" with
  | none =>
    obtain ⟨rfl, rfl⟩ : [] = blocks ∧ Fields.set m "blocks" (.arr []) = left := by simpa [hget] using h
    exact Fields.get?_set_self m "blocks" _
  | some v =>
    simp only [hget] at h
    cases harr : v.asArr with
    | none => simp [harr] at h
    | some xs =>
      cases hobjs : DocTree.asObjs xs with
      | none => simp [harr, hobjs] at h
      | some ys =>
        obtain ⟨rfl, rfl⟩ : ys = blocks ∧ m = left := by simpa [harr, hobjs] using h
        rw [hget, DocTree.asArr_eq_some.mp harr, DocTree.asObjs_eq_some.mp hobjs]

/-- Two block loops one after the other. -/
theorem go_patchBlocks_twice {id : String} {f g h : Map ν → Except Failure (Map ν)}
    {m n k : Except Failure (List (Map ν))} (hf : ∀ b b', f b = .ok b' → Fields.get? b' "id" = Fields.get? b "id")
    (hboth : ∀ b, (h b).toOption = (f b).toOption.bind fun b' => (g b').toOption)
    (hmissing : n.toOption = m.toOption.bind fun added =>
      (updateFirst (fun b => .ok (hasID id b)) g k added).toOption) (s : Option (Map ν)) :
    (Go.patchBlocks s id h n).state? = (Go.patchBlocks s id f m).state?.bind fun s' =>
      (Go.patchBlocks s' id g k).state? := by
  have hfound : ∀ b b', (Except.ok (hasID id b) : Except Failure Bool) = .ok true → f b = .ok b' →
      (Except.ok (hasID id b') : Except Failure Bool) = .ok true := by
    intro b b' hid hb
    rw [hasID, memberEquals, hf b b' hb]
    exact hid
  cases s with
  | none => rfl
  | some map =>
    cases hblocks : blocksOf map with
    | error failure => simp [Go.patchBlocks, hblocks]
    | ok p =>
      obtain ⟨blocks, left⟩ := p
      have htwice := updateFirst_twice hfound (fun b _ => hboth b) hmissing blocks
      rw [Go.patchBlocks_of_blocksOf hblocks, Go.patchBlocks_of_blocksOf hblocks, htwice]
      cases updateFirst (fun b => .ok (hasID id b)) f m blocks with
      | error failure => rfl
      | ok blocks' =>
        have hget : Fields.get? (Fields.set left "blocks" (.arr (blocks'.map .obj))) "blocks" =
            some (.arr (blocks'.map .obj)) := Fields.get?_set_self left "blocks" _
        simp only [Except.toOption, Option.bind_some, Option.map_some]
        rw [Go.patchBlocks_state? hget]
        simp only [Fields.set_set]
        rfl

/-- The checks of an append that do not look at the value or the snapshot, on the Go side. -/
def goAppendTarget (field : String) (block : JsonObject ν) : Except Failure String := do
  check (field != "" && !Text.contains field '.') (.err (.unsupportedAppendMask ("block." ++ field)))
  check (stringAt block "id" != "") (.err .appendBlockRequiresId)
  return stringAt block "id"

theorem stringAt_set_ne {field k : String} (block : JsonObject ν) (value : Json ν) (h : k ≠ field) :
    stringAt (Fields.set block field value) k = stringAt block k := by
  rw [stringAt, Fields.get?_set_ne block value h, stringAt]

theorem go_appendArguments_set {field : String} {block : JsonObject ν} {value : Json ν} (hfield : field ≠ "id") :
    Go.appendArguments ("block." ++ field) (Fields.set block field value) =
      (goAppendTarget field block).map fun id => (field, id, value) := by
  simp only [Go.appendArguments, goAppendTarget, Text.dropPrefix_append, Fields.get?_set_self,
    stringAt_set_ne block value hfield.symm]
  cases check (field != "" && !Text.contains field '.')
      (Failure.err (.unsupportedAppendMask ("block." ++ field))) with
  | error r => rfl
  | ok u =>
    cases check (stringAt block "id" != "") (Failure.err .appendBlockRequiresId) with
    | error r => rfl
    | ok u => rfl

theorem stringAt_of_goAppendTarget {field id : String} {block : JsonObject ν} (h : goAppendTarget field block = .ok id) :
    stringAt block "id" = id ∧ id ≠ "" := by
  rw [goAppendTarget, seq_eq_ok, seq_eq_ok, check_eq_ok, check_eq_ok, bne_iff_ne] at h
  obtain ⟨-, hid, h⟩ := h
  obtain rfl := Except.ok.inj h
  exact ⟨rfl, hid⟩

theorem go_appendByMask_of_error {field : String} {block : JsonObject ν} {value : Json ν} {failure : Failure}
    (hfield : field ≠ "id") (h : goAppendTarget field block = .error failure) (s : Option (Map ν)) :
    (appendByMask s ("block." ++ field) (Fields.set block field value)).state? = none := by
  have hargs : Go.appendArguments ("block." ++ field) (Fields.set block field value) = .error failure := by
    rw [go_appendArguments_set hfield, h]
    rfl
  unfold appendByMask
  rw [hargs]
  rfl

/-- The block that an append adds where there is none. -/
def addedBlock (block : JsonObject ν) : Except Failure (List (Map ν)) := (validateBlock block).map fun _ => [cloneMap block]

/-- An append is one loop over the blocks: the call of `upsertBlock` behind it finds no block either. -/
theorem go_appendByMask_eq {field id : String} {block : JsonObject ν} {value : Json ν} (hfield : field ≠ "id")
    (href : Fields.has (Fields.set block field value) "ref" = false) (hid : goAppendTarget field block = .ok id)
    (s : Option (Map ν)) :
    (appendByMask s ("block." ++ field) (Fields.set block field value)).state? =
      (Go.patchBlocks s id (Go.appendToBlock field value) (addedBlock (Fields.set block field value))).state? := by
  have hargs : Go.appendArguments ("block." ++ field) (Fields.set block field value) = .ok (field, id, value) := by
    rw [go_appendArguments_set hfield, hid]
    rfl
  have hstring : stringAt (Fields.set block field value) "id" = id :=
    (stringAt_set_ne block value hfield.symm).trans (stringAt_of_goAppendTarget hid).1
  unfold appendByMask
  rw [hargs]
  cases s with
  | none => rfl
  | some m =>
    dsimp only
    cases hblocks : blocksOf m with
    | error failure => simp [Go.patchBlocks, hblocks]
    | ok p =>
      obtain ⟨blocks, left⟩ := p
      have hleft := blocksOf_eq_ok (get?_blocks_of_blocksOf hblocks)
      simp only [Go.patchBlocks, hblocks]
      cases hany : blocks.any (hasID id) with
      | true =>
        rw [if_pos rfl]
        simp only [hleft]
        rw [updateFirst_of_any hany _ _ (addedBlock (Fields.set block field value))]
      | false =>
        rw [if_neg Bool.false_ne_true]
        unfold Go.upsertBlock Go.upsertArguments addedBlock
        rw [href, Bool.false_and, hstring]
        cases validateBlock (Fields.set block field value) with
        | error failure =>
          rw [Except.map, updateFirst_of_error hany]
          rfl
        | ok u =>
          show (Go.patchBlocks (some left) id _ _).state? = _
          simp only [Go.patchBlocks, hleft, Except.map]
          rw [updateFirst_of_not_any hany _ (Go.appendToBlock field value)]

/-- The block that an append adds has the id of the append. -/
theorem hasID_cloneMap_of_goAppendTarget {field id : String} {block : JsonObject ν} (hfield : field ≠ "id")
    (hid : goAppendTarget field block = .ok id) (value : Json ν) :
    hasID id (cloneMap (Fields.set block field value)) = true := by
  obtain ⟨hstring, hne⟩ := stringAt_of_goAppendTarget hid
  have hset : stringAt (Fields.set block field value) "id" = id := (stringAt_set_ne block value hfield.symm).trans hstring
  have hidOf := idOf_eq_some_stringAt ((stringAt_ne_iff (Fields.set block field value) "id").mp (hset ▸ hne))
  rw [cloneMap, hasID_ofJsonObject, hidOf, hset, beq_self_eq_true]

theorem go_addedBlock_twice {field id : String} {block : JsonObject ν} (hfield : field ≠ "id")
    (href : ∀ x : Json ν, Fields.has (Fields.set block field x) "ref" = false)
    (hid : goAppendTarget field block = .ok id) {v w u : Json ν} (h : Joined v w u) :
    (addedBlock (Fields.set block field u)).toOption = (addedBlock (Fields.set block field v)).toOption.bind
      fun added => (updateFirst (fun b => .ok (hasID id b)) (Go.appendToBlock field w)
        (addedBlock (Fields.set block field w)) added).toOption := by
  have hcongr := blockOk_set_congr (R := rules) (href v) h.wellFormed.1 h.wellFormed.2
  have hsame : validateBlock (Fields.set block field u) = .ok () ↔ validateBlock (Fields.set block field v) = .ok () := by
    rw [validateBlock_eq_ok_iff, validateBlock_eq_ok_iff, hcongr]
  unfold addedBlock
  cases hv : validateBlock (Fields.set block field v) with
  | error failure =>
    cases hu : validateBlock (Fields.set block field u) with
    | error failure => rfl
    | ok _ => simp [hsame.mp hu] at hv
  | ok _ =>
    rw [hsame.mpr hv]
    have hclone : ∀ x : Json ν, cloneMap (Fields.set block field x) = Fields.set (cloneMap block) field (ofJson x) :=
      fun x => DocTree.mapFields_set _ _ _
    have hinline : Fields.has (cloneMap (Fields.set block field v)) "ref" = false := by
      rw [cloneMap, ofJsonObject, DocTree.has_mapFields]
      exact href v
    have htake : Go.appendToBlock field w (cloneMap (Fields.set block field v)) =
        .ok (cloneMap (Fields.set block field u)) := by
      rw [hclone] at hinline
      rw [← toOption_eq_some, go_appendToBlock_eq, hclone, hclone]
      exact extendField_set hinline (extendedAny_joined h)
    show some [cloneMap (Fields.set block field u)] =
      (updateFirst _ _ _ [cloneMap (Fields.set block field v)]).toOption
    simp only [updateFirst, hasID_cloneMap_of_goAppendTarget hfield hid v, htake]
    rfl

/-- The validator lets through no append to `id` or `ref`, and none of a block with `ref`. -/
theorem of_go_validate_carries {field : String} {block : JsonObject ν} {v : Json ν} {e : Envelope ν}
    (he : Carries field block v e) (h : (decoded e).validate = .ok ()) :
    field ≠ "id" ∧ field ≠ "ref" ∧ ∀ x : Json ν, Fields.has (Fields.set block field x) "ref" = false := by
  simp only [Event.validate, validateAppend, decoded, he.op, he.mask, he.model, he.meta_, he.block, Option.getD_some,
    seq_eq_ok] at h
  obtain ⟨-, -, hpatch⟩ := h
  exact ne_of_patchable ((go_fieldPatch_iff (Text.hasPrefix_append "block." field) _).mp hpatch)

theorem go_apply_carries {field : String} {block : JsonObject ν} {v : Json ν} {e : Envelope ν}
    (he : Carries field block v e) (h : (decoded e).validate = .ok ()) (s : Option (Map ν)) :
    Go.apply s (decoded e) = appendByMask s ("block." ++ field) (Fields.set block field v) := by
  unfold Go.apply
  rw [h]
  simp only [applyEvent, decoded, he.op, he.mask, he.block, Option.getD_some]

theorem go_append_twice {field : String} {block : JsonObject ν} {v w u : Json ν} {e e' e'' : Envelope ν}
    (hjoined : Joined v w u) (he : Carries field block v e) (he' : Carries field block w e')
    (he'' : Carries field block u e'') (s : Option (Map ν)) :
    (Go.apply s (decoded e'')).state? =
      (Go.apply s (decoded e)).state?.bind fun s' => (Go.apply s' (decoded e')).state? := by
  cases hvalid : (decoded e).validate with
  | error r =>
    have hvalid'' := (go_validate_carries he'' he).trans hvalid
    simp [Go.apply, hvalid, hvalid'']
  | ok _ =>
    have hvalid' := (go_validate_carries he' he).trans hvalid
    have hvalid'' := (go_validate_carries he'' he).trans hvalid
    obtain ⟨hid, href, hinline⟩ := of_go_validate_carries he hvalid
    simp only [go_apply_carries he hvalid, go_apply_carries he' hvalid', go_apply_carries he'' hvalid'']
    cases htarget : goAppendTarget field block with
    | error failure => rw [go_appendByMask_of_error hid htarget, go_appendByMask_of_error hid htarget, Option.bind_none]
    | ok id =>
      simp only [go_appendByMask_eq hid (hinline _) htarget]
      refine go_patchBlocks_twice (fun b b' hb' => ?_) (go_appendToBlock_twice href hjoined)
        (go_addedBlock_twice hid hinline htarget hjoined) s
      obtain ⟨-, x, -, rfl⟩ := go_appendToBlock_eq_ok hb'
      exact Fields.get?_set_ne b x hid.symm

theorem go_append_same {field : String} {block : JsonObject ν} {v : Json ν} {e e' : Envelope ν}
    (he : Carries field block v e) (he' : Carries field block v e') (s : Option (Map ν)) :
    (Go.apply s (decoded e)).state? = (Go.apply s (decoded e')).state? := by
  cases hvalid : (decoded e).validate with
  | error r =>
    have hvalid' := (go_validate_carries he' he).trans hvalid
    simp [Go.apply, hvalid, hvalid']
  | ok _ =>
    rw [go_apply_carries he hvalid, go_apply_carries he' ((go_validate_carries he' he).trans hvalid)]

end Go

/-! ## Both -/

/-- However a text or a list is cut into pieces that are not empty, the append of the whole is accepted exactly when
the appends of the pieces all are, and leads to the same snapshot; in both reducers, from every snapshot. -/
theorem append_in_pieces [DecidableEq ν] {field : String} {block : JsonObject ν} {value : Json ν}
    {pieces : List (Json ν)} (hcut : CutInto value pieces) {whole : Envelope ν} (hwhole : Carries field block value whole)
    {events : List (Envelope ν)} (hevents : List.Forall₂ (Carries field block) pieces events) :
    (∀ s : JsonObject ν, (Python.applyPatch s whole).state? = (Python.applyPatches s events).state?) ∧
      ∀ s : Option (Go.Map ν), (Go.apply s (Go.decoded whole)).state? =
        (Go.applyAll s (events.map Go.decoded)).state? := by
  constructor
  · exact state?_run_of_cutInto (fun s v e e' he he' => congrArg Applied.state? (python_append_same he he' s))
      (fun s v w u e e' e'' hjoined he he' he'' => python_append_twice hjoined he he' he'' s) hcut hwhole hevents
  · intro s
    have hrun := @state?_run_of_cutInto ν Go.Failure _ (fun s e => Go.apply s (Go.decoded e)) field block
      (fun s v e e' he he' => go_append_same he he' s)
      (fun s v w u e e' e'' hjoined he he' he'' => go_append_twice hjoined he he' he'' s) value pieces hcut whole hwhole
      events hevents s
    rw [hrun, Go.applyAll, Applied.run_map]

/-- An append to the text of a block. -/
def appendsPiece (text : String) : Envelope ℕ :=
  ⟨.append, 2, none, none, some "block.text", none, none, none,
    some [("id", .str "b"), ("type", .str "agentue.text"), ("text", .str text)]⟩

/-- The first of two pieces creates the block, the second extends its text. -/
theorem append_in_pieces_appendsPiece :
    (Python.applyPatches [("biz", .str "chat")] [appendsPiece "a", appendsPiece "b"]).state? =
      (Python.applyPatch [("biz", .str "chat")] (appendsPiece "ab")).state? := by
  have hcarries : ∀ text, Carries "text" [("id", .str "b"), ("type", .str "agentue.text")] (.str text)
      (appendsPiece text) := fun text => ⟨rfl, rfl, rfl, rfl, rfl⟩
  have hcut : CutInto (.str "ab" : Json ℕ) (["a", "b"].map .str) :=
    @CutInto.text ℕ ["a", "b"] (by simp) (by simp)
  have hpieces := append_in_pieces hcut (hcarries "ab") (.cons (hcarries "a") (.cons (hcarries "b") .nil))
  exact (hpieces.1 _).symm

end AgentUE.Conformance
