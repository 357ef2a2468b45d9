import AgentUE.Protocol.Patch

/-!
# Writes that keep a model well formed

Which values a masked write may put at which path of a block or of the metadata, and how the
well-formedness of a model follows from that of the part that changed. `WrittenTo` describes a masked
write by what it leaves, for any reducer: the first name of the path changes, everything else stays.
-/

namespace AgentUE

open Data

variable {ν : Type}

/-- `fs'` is what a write of `v` at a path may leave of `fs`. A nested write either replaces the object
under the first name or leaves that name alone. -/
def WrittenTo (fs fs' : JsonObject ν) : List String → Json ν → Prop
  | [], _ => fs' = fs
  | [k], v => (∀ j, j ≠ k → Fields.get? fs' j = Fields.get? fs j) ∧ Fields.get? fs' k = some v
  | k :: rest, v => (∀ j, j ≠ k → Fields.get? fs' j = Fields.get? fs j) ∧
      (Fields.get? fs' k = Fields.get? fs k ∨
        ∃ c', Fields.get? fs' k = some (.obj c') ∧ WrittenTo (DocTree.childAt fs k) c' rest v)

/-- The assignment through missing objects is such a write. -/
theorem writtenTo_writeAt (fs : JsonObject ν) (path : List String) (v : Json ν) :
    WrittenTo fs (DocTree.writeAt fs path v) path v := by
  induction path generalizing fs with
  | nil => rfl
  | cons k rest ih =>
    cases rest with
    | nil => exact ⟨fun j hj => DocTree.get?_writeAt_ne fs k [] v hj, by simp [DocTree.get?_writeAt_self]⟩
    | cons i rest =>
      refine ⟨fun j hj => DocTree.get?_writeAt_ne fs k (i :: rest) v hj, .inr ⟨_, ?_, ih _⟩⟩
      rw [DocTree.get?_writeAt_self, if_neg (by simp)]

/-- Names other than the first of the path read the same. -/
theorem WrittenTo.get?_ne {fs fs' : JsonObject ν} {k : String} {rest : List String} {v : Json ν}
    (h : WrittenTo fs fs' (k :: rest) v) {j : String} (hj : j ≠ k) :
    Fields.get? fs' j = Fields.get? fs j := by
  cases rest with
  | nil => exact h.1 j hj
  | cons i rest => exact h.1 j hj

theorem WrittenTo.memberMayBe_ne {fs fs' : JsonObject ν} {k : String} {rest : List String} {v : Json ν}
    (h : WrittenTo fs fs' (k :: rest) v) {j : String} (hj : j ≠ k) (p : Json ν → Bool) :
    memberMayBe p fs' j = memberMayBe p fs j :=
  memberMayBe_congr (h.get?_ne hj)

theorem WrittenTo.memberIs_ne {fs fs' : JsonObject ν} {k : String} {rest : List String} {v : Json ν}
    (h : WrittenTo fs fs' (k :: rest) v) {j : String} (hj : j ≠ k) (p : Json ν → Bool) :
    memberIs p fs' j = memberIs p fs j :=
  memberIs_congr (h.get?_ne hj)

/-- A nested write below a name that holds an object or is left alone. -/
theorem WrittenTo.cases_cons {fs fs' : JsonObject ν} {k : String} {rest : List String} {v : Json ν}
    (h : WrittenTo fs fs' (k :: rest) v) (hrest : rest ≠ []) :
    Fields.get? fs' k = Fields.get? fs k ∨
      ∃ c', Fields.get? fs' k = some (.obj c') ∧ WrittenTo (DocTree.childAt fs k) c' rest v := by
  cases rest with
  | nil => exact absurd rfl hrest
  | cons i rest => exact h.2

/-- A member keeps a condition when the value meets it where it replaces the member, and the object does that stands
there after a write below it. -/
theorem WrittenTo.memberMayBe_of {fs fs' : JsonObject ν} {k : String} {rest : List String} {v : Json ν}
    (h : WrittenTo fs fs' (k :: rest) v) {p : Json ν → Bool} {j : String} (hold : memberMayBe p fs j = true)
    (hself : j = k → rest = [] → p v = true)
    (hbelow : j = k → rest ≠ [] → ∀ c', WrittenTo (DocTree.childAt fs k) c' rest v → p (.obj c') = true) :
    memberMayBe p fs' j = true := by
  by_cases hj : j = k
  · refine memberMayBe_iff.mpr fun w hw => ?_
    rw [hj] at hw
    by_cases hrest : rest = []
    · subst hrest
      obtain rfl : v = w := Option.some.inj (h.2.symm.trans hw)
      exact hself hj rfl
    · rcases h.cases_cons hrest with hsame | ⟨c', hc', hwritten⟩
      · exact memberMayBe_iff.mp hold w (by rw [hj, ← hsame, hw])
      · obtain rfl : .obj c' = w := Option.some.inj (hc'.symm.trans hw)
        exact hbelow hj hrest c' hwritten
  · rw [h.memberMayBe_ne hj]
    exact hold

/-! ## Writes to an error -/

/-- `code` and `message` may only become strings, `detail` and `trace_id` strings or null. -/
def errorWriteOk : List String → Json ν → Bool
  | [], _ => true
  | k :: rest, v =>
    if k = "code" ∨ k = "message" then rest.isEmpty && v.asStr.isSome
    else if k = "detail" ∨ k = "trace_id" then rest.isEmpty && v.isNullableStr
    else true

theorem errorInfoOk_of_writtenTo {error error' : JsonObject ν} {path : List String} {v : Json ν}
    (h : WrittenTo error error' path v) (hok : errorInfoOk error = true)
    (hwrite : errorWriteOk path v = true) : errorInfoOk error' = true := by
  cases path with
  | nil =>
    obtain rfl : error' = error := h
    exact hok
  | cons k rest =>
    have hself : rest = [] → Fields.get? error' k = some v := by
      rintro rfl
      exact h.2
    simp only [errorInfoOk, Bool.and_eq_true] at hok ⊢
    obtain ⟨⟨⟨hcode, hmessage⟩, hdetail⟩, htrace⟩ := hok
    have hstr : ∀ j, (j = "code" ∨ j = "message") → memberIs (fun v => v.asStr.isSome) error j = true →
        memberIs (fun v => v.asStr.isSome) error' j = true := by
      intro j hj hold
      by_cases hjk : j = k
      · subst hjk
        rw [errorWriteOk, if_pos hj, Bool.and_eq_true] at hwrite
        exact memberIs_iff.mpr ⟨v, hself (by simpa using hwrite.1), hwrite.2⟩
      · rw [h.memberIs_ne hjk]
        exact hold
    have hnull : ∀ j, (j = "detail" ∨ j = "trace_id") → memberMayBe DocTree.isNullableStr error j = true →
        memberMayBe DocTree.isNullableStr error' j = true := by
      intro j hj hold
      have hvalue : j = k → rest = [] ∧ v.isNullableStr = true := by
        rintro rfl
        have hne : ¬ (j = "code" ∨ j = "message") := by rcases hj with rfl | rfl <;> decide
        rw [errorWriteOk, if_neg hne, if_pos hj, Bool.and_eq_true] at hwrite
        exact ⟨by simpa using hwrite.1, hwrite.2⟩
      exact h.memberMayBe_of hold (fun hjk _ => (hvalue hjk).2) fun hjk hrest => absurd (hvalue hjk).1 hrest
    exact ⟨⟨⟨hstr _ (.inl rfl) hcode, hstr _ (.inr rfl) hmessage⟩, hnull _ (.inl rfl) hdetail⟩,
      hnull _ (.inr rfl) htrace⟩

/-! ## Writes to the metadata -/

/-- `error` may become null or a complete error, and parts of it change only inside one; `task_id` and
`trace_id` may only become strings or null, `stats` an object or null. -/
def metaWriteOk (m : JsonObject ν) : List String → Json ν → Bool
  | [], _ => true
  | k :: rest, v =>
    if k = "error" then
      if rest.isEmpty then isNullableError v else memberIs DocTree.isObj m "error" && errorWriteOk rest v
    else if k = "task_id" ∨ k = "trace_id" then rest.isEmpty && v.isNullableStr
    else if k = "stats" then !rest.isEmpty || v.isNullableObj
    else true

theorem metaOk_of_writtenTo {m m' : JsonObject ν} {path : List String} {v : Json ν}
    (h : WrittenTo m m' path v) (hok : metaOk m = true) (hwrite : metaWriteOk m path v = true) :
    metaOk m' = true := by
  cases path with
  | nil =>
    obtain rfl : m' = m := h
    exact hok
  | cons k rest =>
    simp only [metaOk, Bool.and_eq_true] at hok ⊢
    obtain ⟨⟨⟨herror, htask⟩, htrace⟩, hstats⟩ := hok
    have hstr : ∀ j, (j = "task_id" ∨ j = "trace_id") → memberMayBe DocTree.isNullableStr m j = true →
        memberMayBe DocTree.isNullableStr m' j = true := by
      intro j hj hold
      have hvalue : j = k → rest = [] ∧ v.isNullableStr = true := by
        rintro rfl
        have hne : j ≠ "error" := by rcases hj with rfl | rfl <;> decide
        rw [metaWriteOk, if_neg hne, if_pos hj, Bool.and_eq_true] at hwrite
        exact ⟨by simpa using hwrite.1, hwrite.2⟩
      exact h.memberMayBe_of hold (fun hjk _ => (hvalue hjk).2) fun hjk hrest => absurd (hvalue hjk).1 hrest
    refine ⟨⟨⟨?_, hstr _ (.inl rfl) htask⟩, hstr _ (.inr rfl) htrace⟩, ?_⟩
    · refine h.memberMayBe_of herror (fun hk hrest => ?_) (fun hk hrest c' hwritten => ?_)
      · rw [metaWriteOk, if_pos hk.symm, if_pos (by simpa using hrest)] at hwrite
        exact hwrite
      · -- below an error that is complete
        rw [metaWriteOk, if_pos hk.symm, if_neg (by simpa using hrest), Bool.and_eq_true] at hwrite
        obtain ⟨e, he, hobj⟩ := memberIs_iff.mp hwrite.1
        obtain ⟨error, rfl⟩ : ∃ error, e = .obj error := by
          simpa [DocTree.isObj, Option.isSome_iff_exists] using hobj
        have hinfo : errorInfoOk error = true := memberMayBe_iff.mp herror _ he
        have hchild : DocTree.childAt m k = error := by simp [DocTree.childAt, ← hk, he, DocTree.asObj]
        rw [hchild] at hwritten
        exact errorInfoOk_of_writtenTo hwritten hinfo hwrite.2
    · refine h.memberMayBe_of hstats (fun hk hrest => ?_) (fun _ _ _ _ => rfl)
      rw [metaWriteOk, ← hk, if_neg (by decide), if_neg (by decide), if_pos rfl, hrest] at hwrite
      exact hwrite

/-! ## Writes to a block -/

/-- The nullable string members that the rules check. -/
def hierarchyField (R : Rules) (k : String) : Bool := k == "parent_id" || (R.checkGroupId && k == "group_id")

/-- `type` may only become a non-empty string, the hierarchy members strings or null. -/
def blockWriteOk (R : Rules) : List String → Json ν → Bool
  | [], _ => true
  | k :: rest, v =>
    if k = "type" then rest.isEmpty && v.isNonEmptyStr
    else if hierarchyField R k then rest.isEmpty && v.isNullableStr
    else true

theorem inlineBlockOk_of_blockOk {R : Rules} {block : JsonObject ν} (h : blockOk R block = true)
    (href : Fields.has block "ref" = false) : inlineBlockOk R block = true := by
  rwa [blockOk, if_neg (by simp [href])] at h

theorem blockOk_of_inlineBlockOk {R : Rules} {block : JsonObject ν} (h : inlineBlockOk R block = true)
    (href : Fields.has block "ref" = false) : blockOk R block = true := by
  rwa [blockOk, if_neg (by simp [href])]

/-- An inline block stays complete when nothing but one member changes, and that one to a value of its
type. -/
theorem inlineBlockOk_of_change {R : Rules} {b b' : JsonObject ν} {k : String}
    (hok : inlineBlockOk R b = true) (hk : k ≠ "id")
    (hne : ∀ j, j ≠ k → Fields.get? b' j = Fields.get? b j)
    (htype : k = "type" → memberIs DocTree.isNonEmptyStr b' k = true)
    (hfield : hierarchyField R k = true → memberMayBe DocTree.isNullableStr b' k = true) :
    inlineBlockOk R b' = true := by
  simp only [inlineBlockOk, Bool.and_eq_true] at hok ⊢
  obtain ⟨⟨⟨hid, htype'⟩, hparent⟩, hgroup⟩ := hok
  refine ⟨⟨⟨?_, ?_⟩, ?_⟩, ?_⟩
  · rw [memberIs_congr (hne "id" hk.symm)]
    exact hid
  · by_cases h : "type" = k
    · subst h
      exact htype rfl
    · rw [memberIs_congr (hne "type" h)]
      exact htype'
  · by_cases h : "parent_id" = k
    · subst h
      exact hfield rfl
    · rw [memberMayBe_congr (hne "parent_id" h)]
      exact hparent
  · by_cases h : "group_id" = k
    · subst h
      cases hR : R.checkGroupId with
      | false => rfl
      | true => exact hfield (by simp [hierarchyField, hR])
    · rw [memberMayBe_congr (hne "group_id" h)]
      exact hgroup

/-- A complete inline block in which one member has changed is complete exactly when that member has its type. -/
theorem inlineBlockOk_change_iff {R : Rules} {b b' : JsonObject ν} {k : String} (hok : inlineBlockOk R b = true)
    (hk : k ≠ "id") (hne : ∀ j, j ≠ k → Fields.get? b' j = Fields.get? b j) :
    inlineBlockOk R b' = true ↔ (k = "type" → memberIs DocTree.isNonEmptyStr b' k = true) ∧
      (hierarchyField R k = true → memberMayBe DocTree.isNullableStr b' k = true) := by
  constructor
  · intro h
    simp only [inlineBlockOk, Bool.and_eq_true] at h
    obtain ⟨⟨⟨-, htype⟩, hparent⟩, hgroup⟩ := h
    refine ⟨fun hk => hk ▸ htype, fun hfield => ?_⟩
    rcases Bool.or_eq_true _ _ |>.mp hfield with hk | hk
    · exact beq_iff_eq.mp hk ▸ hparent
    · rw [Bool.and_eq_true, beq_iff_eq] at hk
      rw [hk.2]
      simpa [hk.1] using hgroup
  · exact fun h => inlineBlockOk_of_change hok hk hne h.1 h.2

theorem inlineBlockOk_of_writtenTo {R : Rules} {b b' : JsonObject ν} {k : String} {rest : List String}
    {v : Json ν} (h : WrittenTo b b' (k :: rest) v) (hok : inlineBlockOk R b = true) (hk : k ≠ "id")
    (hwrite : blockWriteOk R (k :: rest) v = true) : inlineBlockOk R b' = true := by
  have hself : rest = [] → Fields.get? b' k = some v := by
    rintro rfl
    exact h.2
  refine inlineBlockOk_of_change hok hk (fun j hj => h.get?_ne hj) (fun htype => ?_) (fun hfield => ?_)
  · rw [blockWriteOk, if_pos htype, Bool.and_eq_true] at hwrite
    exact memberIs_iff.mpr ⟨v, hself (by simpa using hwrite.1), hwrite.2⟩
  · have hne : k ≠ "type" := by
      rintro rfl
      simp [hierarchyField] at hfield
    rw [blockWriteOk, if_neg hne, if_pos hfield, Bool.and_eq_true] at hwrite
    refine memberMayBe_iff.mpr fun w hw => ?_
    obtain rfl : v = w := by simpa [hself (by simpa using hwrite.1)] using hw
    exact hwrite.2

/-! ## A list of blocks after one change -/

theorem blocksOk_replace {R : Rules} {version : Option String} {pre post : List (JsonObject ν)}
    {b b' : JsonObject ν} (h : blocksOk R version (pre ++ b :: post) = true) (hok : blockOk R b' = true)
    (hid : idOf b' = idOf b) (href : Fields.has b' "ref" = true → version = some protocolVersion) :
    blocksOk R version (pre ++ b' :: post) = true := by
  simp only [blocksOk, Bool.and_eq_true, List.all_append, List.all_cons, decide_eq_true_eq, List.map_append,
    List.map_cons] at h ⊢
  obtain ⟨⟨⟨hpre, -, hpost⟩, hrpre, -, hrpost⟩, hnodup⟩ := h
  refine ⟨⟨⟨hpre, hok, hpost⟩, hrpre, ?_, hrpost⟩, by rw [hid]; exact hnodup⟩
  cases hr : Fields.has b' "ref" with
  | false => rfl
  | true => simp [href hr]

theorem blocksOk_append {R : Rules} {version : Option String} {bs : List (JsonObject ν)}
    {b : JsonObject ν} (h : blocksOk R version bs = true) (hok : blockOk R b = true)
    (hid : ∀ c ∈ bs, idOf c ≠ idOf b) (href : Fields.has b "ref" = true → version = some protocolVersion) :
    blocksOk R version (bs ++ [b]) = true := by
  simp only [blocksOk, Bool.and_eq_true, List.all_append, List.all_cons, decide_eq_true_eq, List.map_append,
    List.map_cons] at h ⊢
  obtain ⟨⟨hall, href'⟩, hnodup⟩ := h
  refine ⟨⟨⟨hall, hok, rfl⟩, href', ?_, rfl⟩, ?_⟩
  · cases hr : Fields.has b "ref" with
    | false => rfl
    | true => simp [href hr]
  · refine List.nodup_append.mpr ⟨hnodup, by simp, fun a ha c hc => ?_⟩
    obtain ⟨d, hd, rfl⟩ := List.mem_map.mp ha
    obtain rfl : c = idOf b := by simpa using hc
    exact hid d hd

theorem blockOk_of_mem {R : Rules} {version : Option String} {bs : List (JsonObject ν)}
    (h : blocksOk R version bs = true) {b : JsonObject ν} (hb : b ∈ bs) : blockOk R b = true := by
  simp only [blocksOk, Bool.and_eq_true, List.all_eq_true] at h
  exact h.1.1 b hb

/-! ## A model after one change -/

/-- The metadata of a well-formed model is an object, well typed where that is checked. -/
theorem exists_meta_of_modelOk {R : Rules} {s : JsonObject ν} (h : modelOk R s = true) :
    ∃ m, Fields.get? s "meta" = some (.obj m) ∧ (R.checkMeta = true → metaOk m = true) := by
  simp only [modelOk, Bool.and_eq_true] at h
  obtain ⟨v, hv, hobj⟩ := memberIs_iff.mp h.1.2
  cases v with
  | obj m => exact ⟨m, hv, fun hR => by simpa [DocTree.asObj, hR] using hobj⟩
  | leaf a => simp [DocTree.asObj] at hobj
  | arr xs => simp [DocTree.asObj] at hobj

theorem exists_blocks_of_modelOk {R : Rules} {s : JsonObject ν} (h : modelOk R s = true) :
    ∃ bs, modelBlocks R s = some bs ∧ blocksOk R (modelVersion s) bs = true := by
  simp only [modelOk, Bool.and_eq_true] at h
  exact Option.any_eq_true _ _ |>.mp h.2

theorem modelOk_of_meta {R : Rules} {s s' : JsonObject ν} {m : JsonObject ν} (h : modelOk R s = true)
    (hne : ∀ j, j ≠ "meta" → Fields.get? s' j = Fields.get? s j)
    (hm : Fields.get? s' "meta" = some (.obj m)) (hok : R.checkMeta = true → metaOk m = true) :
    modelOk R s' = true := by
  have hversion : modelVersion s' = modelVersion s := by rw [modelVersion, hne _ (by decide), modelVersion]
  have hblocks : modelBlocks R s' = modelBlocks R s := by rw [modelBlocks, hne _ (by decide), modelBlocks]
  simp only [modelOk, Bool.and_eq_true] at h ⊢
  refine ⟨⟨⟨?_, ?_⟩, ?_⟩, ?_⟩
  · rw [versionOk, hne _ (by decide), ← versionOk]
    exact h.1.1.1
  · rw [memberIs_congr (hne "biz" (by decide))]
    exact h.1.1.2
  · refine memberIs_iff.mpr ⟨_, hm, ?_⟩
    cases hR : R.checkMeta with
    | false => rfl
    | true => simpa [DocTree.asObj] using hok hR
  · rw [hversion, hblocks]
    exact h.2

theorem modelOk_of_blocks {R : Rules} {s s' : JsonObject ν} {bs' : List (JsonObject ν)}
    (h : modelOk R s = true) (hne : ∀ j, j ≠ "blocks" → Fields.get? s' j = Fields.get? s j)
    (hbs : Fields.get? s' "blocks" = some (.arr (bs'.map .obj)))
    (hok : blocksOk R (modelVersion s) bs' = true) : modelOk R s' = true := by
  have hversion : modelVersion s' = modelVersion s := by rw [modelVersion, hne _ (by decide), modelVersion]
  simp only [modelOk, Bool.and_eq_true] at h ⊢
  refine ⟨⟨⟨?_, ?_⟩, ?_⟩, ?_⟩
  · rw [versionOk, hne _ (by decide), ← versionOk]
    exact h.1.1.1
  · rw [memberIs_congr (hne "biz" (by decide))]
    exact h.1.1.2
  · rw [modelMetaOk, memberIs_congr (hne "meta" (by decide))]
    exact h.1.2
  · have hget : modelBlocks R s' = some bs' := by
      simp [modelBlocks, hbs, DocTree.asArr, DocTree.asObjs_map_obj]
    rw [hversion, hget]
    exact hok

end AgentUE
