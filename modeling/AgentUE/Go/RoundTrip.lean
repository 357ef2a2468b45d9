import AgentUE.Go.Reducer

/-!
# Go SDK: snapshots that have been through JSON

Marshalling a snapshot and decoding it again turns nil slices into nulls and changes nothing else
(`Coarser`). The reducer accepts every event on the decoded snapshot that it accepts on the original, and
the two stay alike: they marshal to the same document after any run. This is so whether the members of two
snapshots are compared in their order (`Alike`) or key by key (`Shuffled`), as the reducer reads and writes
them by their keys.
-/

namespace AgentUE.Go

open Data

variable {ν : Type}

/-- The second leaf is the first, or a null in the place of a nil slice. -/
inductive Coarser : Leaf ν → Leaf ν → Prop
  | same (a : Leaf ν) : Coarser a a
  | nil : Coarser .nilSlice (.json .null)

/-- Two snapshots that differ in nil slices only. -/
abbrev Alike : Map ν → Map ν → Prop := DocTree.RelFields Coarser

/-- Two snapshots that differ in nil slices and in the order of their members only. -/
abbrev Shuffled : Map ν → Map ν → Prop := DocTree.LikeFields Coarser

theorem congruence_alike : DocTree.Congruence Coarser (DocTree.Rel Coarser) (@Alike ν) :=
  DocTree.congruence_rel Coarser.same

theorem congruence_shuffled : DocTree.Congruence Coarser (DocTree.Like Coarser) (@Shuffled ν) :=
  DocTree.congruence_like Coarser.same

theorem Alike.refl (m : Map ν) : Alike m m := congruence_alike.obj_refl m

/-- A decoded snapshot is like the one that was marshalled. -/
theorem alike_ofJsonObject_marshalSnapshot (m : Map ν) : Alike m (ofJsonObject (marshalSnapshot m)) := by
  have hleaf : ∀ a : Leaf ν, Coarser a ((Leaf.json ∘ Leaf.marshal) a) := by
    intro a
    cases a with
    | json s => exact .same _
    | nilSlice => exact .nil
  have h := DocTree.rel_map hleaf (DocTree.obj m)
  rw [← DocTree.map_map] at h
  cases h with
  | obj h => exact h

theorem Coarser.marshal_eq : ∀ a b : Leaf ν, Coarser a b → a.marshal = b.marshal := by
  rintro a b (_ | _) <;> rfl

/-- Snapshots that are alike marshal to one document. -/
theorem Alike.marshalSnapshot_eq {m m' : Map ν} (h : Alike m m') : marshalSnapshot m = marshalSnapshot m' := by
  have heq := DocTree.Rel.map_eq Coarser.marshal_eq (DocTree.Rel.obj h)
  simpa [DocTree.map, marshalSnapshot] using heq

/-- Shuffled snapshots marshal to documents that are the same. -/
theorem Shuffled.same {m m' : Map ν} (h : Shuffled m m') :
    DocTree.Same (.obj (marshalSnapshot m)) (.obj (marshalSnapshot m')) := by
  have hsame := (DocTree.Like.obj h).same_map Coarser.marshal_eq
  simpa only [DocTree.map, marshalSnapshot] using hsame

/-- A snapshot is like every decoded document that its own is the same as. -/
theorem shuffled_of_same {m : Map ν} {document : JsonObject ν}
    (h : DocTree.Same (.obj (marshalSnapshot m)) (.obj document)) : Shuffled m (ofJsonObject document) := by
  have hleaf : ∀ (a : Leaf ν) (b : Scalar ν), a.marshal = b → Coarser a (.json b) := by
    rintro (s | _) b rfl
    · exact .same _
    · exact .nil
  have hlike := (DocTree.like_of_same_map (s := .obj m) h).map_right hleaf
  cases hlike with
  | obj hlike => exact hlike

/-- A valid start carries a model. -/
theorem exists_model_of_validate {event : Event ν} (hop : event.op = .known .start)
    (h : event.validate = .ok ()) : ∃ model, event.model = some model := by
  unfold Event.validate at h
  obtain ⟨-, h⟩ := seq_eq_ok.mp h
  cases hmodel : event.model with
  | some model => exact ⟨model, rfl⟩
  | none => simp [hop, hmodel] at h

/-! ## The parts of a snapshot -/

section

variable {Near : Any ν → Any ν → Prop} {Matches : Map ν → Map ν → Prop}

/-- A change that works on a block works on every block that matches, with results that match. -/
def Follows (Matches : Map ν → Map ν → Prop) (f : Map ν → Except Failure (Map ν)) : Prop :=
  ∀ b b', Matches b b' → ∀ c, f b = .ok c → ∃ c', f b' = .ok c' ∧ Matches c c'

/-- An accepted call on a snapshot is accepted on every one that matches, with results that match. -/
def Tracks (Matches : Map ν → Map ν → Prop) (call : Option (Map ν) → Applied Failure (Option (Map ν))) : Prop :=
  ∀ m m', Matches m m' → ∀ s, (call (some m)).state? = some s →
    ∃ n n', s = some n ∧ (call (some m')).state? = some (some n') ∧ Matches n n'

theorem tracks_refused (r : Failure) : Tracks Matches fun s : Option (Map ν) => .raised r s := by
  intro m m' _ s hs
  simp at hs

theorem tracks_unchanged : Tracks Matches fun s : Option (Map ν) => .returned s := by
  rintro m m' h s hs
  obtain rfl : some m = s := by simpa using hs
  exact ⟨m, m', rfl, rfl, h⟩

variable (C : DocTree.Congruence Coarser Near Matches)

include C

theorem memberEquals_congr {m m' : Map ν} (h : Matches m m') (k text : String) :
    memberEquals k text m = memberEquals k text m' := by
  have hget := C.get? h k
  unfold Go.memberEquals
  generalize Fields.get? m k = x at hget ⊢
  generalize Fields.get? m' k = y at hget ⊢
  cases hget with
  | none => rfl
  | some hxy =>
    cases C.node.mp hxy with
    | leaf hab => cases hab <;> rfl
    | arr _ => rfl
    | obj _ => rfl

theorem asObjs_congr {xs ys : List (Any ν)} (h : List.Forall₂ Near xs ys) {blocks : List (Map ν)}
    (hobjs : DocTree.asObjs xs = some blocks) :
    ∃ blocks', DocTree.asObjs ys = some blocks' ∧ List.Forall₂ Matches blocks blocks' := by
  induction h generalizing blocks with
  | nil =>
    obtain rfl : [] = blocks := by simpa [DocTree.asObjs] using hobjs
    exact ⟨[], rfl, .nil⟩
  | @cons x y xs ys hxy _ ih =>
    cases C.node.mp hxy with
    | leaf _ => simp [DocTree.asObjs] at hobjs
    | arr _ => simp [DocTree.asObjs] at hobjs
    | @obj b b' hb =>
      simp only [DocTree.asObjs, Option.map_eq_some_iff] at hobjs ⊢
      obtain ⟨rest, hrest, rfl⟩ := hobjs
      obtain ⟨rest', hrest', halike⟩ := ih hrest
      exact ⟨b' :: rest', ⟨rest', hrest', rfl⟩, .cons hb halike⟩

theorem blocksOf_congr {m m' : Map ν} (h : Matches m m') {blocks : List (Map ν)} {left : Map ν}
    (hblocks : blocksOf m = .ok (blocks, left)) :
    ∃ blocks' left', blocksOf m' = .ok (blocks', left') ∧ List.Forall₂ Matches blocks blocks' ∧ Matches left left' := by
  have hget := C.get? h "blocks"
  unfold blocksOf at hblocks ⊢
  generalize hx : Fields.get? m "blocks" = x at hget hblocks ⊢
  generalize hy : Fields.get? m' "blocks" = y at hget ⊢
  cases hget with
  | none =>
    simp only [Except.ok.injEq, Prod.mk.injEq] at hblocks
    obtain ⟨rfl, rfl⟩ := hblocks
    exact ⟨_, _, rfl, .nil, C.set h _ (C.node.mpr (.arr .nil))⟩
  | some hxy =>
    cases C.node.mp hxy with
    | leaf _ => simp [DocTree.asArr] at hblocks
    | obj _ => simp [DocTree.asArr] at hblocks
    | @arr xs ys hxs =>
      simp only [DocTree.asArr] at hblocks ⊢
      cases hobjs : DocTree.asObjs xs with
      | none => simp [hobjs] at hblocks
      | some bs =>
        simp only [hobjs, Except.ok.injEq, Prod.mk.injEq] at hblocks
        obtain ⟨rfl, rfl⟩ := hblocks
        obtain ⟨bs', hbs', halike⟩ := asObjs_congr C hxs hobjs
        exact ⟨bs', m', by simp [hbs'], halike, h⟩

theorem updateFirst_congr {id : String} {f : Map ν → Except Failure (Map ν)} (hf : Follows Matches f)
    {missing : Except Failure (List (Map ν))} {blocks blocks' : List (Map ν)} (h : List.Forall₂ Matches blocks blocks')
    {result : List (Map ν)}
    (hresult : updateFirst (fun current => .ok (hasID id current)) f missing blocks = .ok result) :
    ∃ result', updateFirst (fun current => .ok (hasID id current)) f missing blocks' = .ok result' ∧
      List.Forall₂ Matches result result' := by
  induction h generalizing result with
  | nil => exact ⟨result, hresult, List.forall₂_same.mpr fun b _ => C.obj_refl b⟩
  | @cons b b' rest rest' hb _ ih =>
    have hid : hasID id b = hasID id b' := memberEquals_congr C hb "id" id
    rw [← toOption_eq_some] at hresult
    cases hhas : hasID id b with
    | true =>
      have hhas' : hasID id b' = true := hid ▸ hhas
      rw [updateFirst_cons_found (p := fun current => .ok (hasID id current)) (congrArg _ hhas),
        Option.map_eq_some_iff] at hresult
      obtain ⟨c, hc, rfl⟩ := hresult
      obtain ⟨c', hc', halike⟩ := hf b b' hb c (toOption_eq_some.mp hc)
      refine ⟨c' :: rest', ?_, .cons halike ‹_›⟩
      rw [← toOption_eq_some,
        updateFirst_cons_found (p := fun current => .ok (hasID id current)) (congrArg _ hhas'), hc']
      rfl
    | false =>
      have hhas' : hasID id b' = false := hid ▸ hhas
      rw [updateFirst_cons_other (p := fun current => .ok (hasID id current)) (congrArg _ hhas),
        Option.map_eq_some_iff] at hresult
      obtain ⟨tail, htail, rfl⟩ := hresult
      obtain ⟨tail', htail', halike⟩ := ih (toOption_eq_some.mp htail)
      refine ⟨b' :: tail', ?_, .cons hb halike⟩
      rw [← toOption_eq_some,
        updateFirst_cons_other (p := fun current => .ok (hasID id current)) (congrArg _ hhas'), htail']
      rfl

theorem patchBlocks_congr {m m' : Map ν} (h : Matches m m') {id : String} {f : Map ν → Except Failure (Map ν)}
    (hf : Follows Matches f) {missing : Except Failure (List (Map ν))} {s : Option (Map ν)}
    (hs : (patchBlocks (some m) id f missing).state? = some s) :
    ∃ n n', s = some n ∧ (patchBlocks (some m') id f missing).state? = some (some n') ∧ Matches n n' := by
  cases hblocks : blocksOf m with
  | error r => simp [patchBlocks, hblocks] at hs
  | ok p =>
    obtain ⟨blocks, left⟩ := p
    obtain ⟨blocks', left', hblocks', halike, hleft⟩ := blocksOf_congr C h hblocks
    rw [patchBlocks_of_blocksOf hblocks, Option.map_eq_some_iff] at hs
    obtain ⟨result, hresult, rfl⟩ := hs
    obtain ⟨result', hresult', hrel⟩ := updateFirst_congr C hf halike (toOption_eq_some.mp hresult)
    refine ⟨_, Fields.set left' "blocks" (.arr (result'.map .obj)), rfl, ?_,
      C.set hleft "blocks" (C.node.mpr (.arr ?_))⟩
    · rw [patchBlocks_of_blocksOf hblocks', hresult']
      rfl
    · rw [List.forall₂_map_left_iff, List.forall₂_map_right_iff]
      exact hrel.imp fun _ _ hb => C.node.mpr (.obj hb)

/-! ## The four changes of a block -/

theorem follows_replace (block : Map ν) : Follows Matches fun _ => .ok block := by
  rintro b b' _ c hc
  obtain rfl : block = c := by simpa using hc
  exact ⟨_, rfl, C.obj_refl _⟩

theorem requireInlineBlock_congr {b b' : Map ν} (h : Matches b b') : requireInlineBlock b = requireInlineBlock b' := by
  rw [requireInlineBlock, requireInlineBlock, C.has_eq h]

/-- Appending: where the original has a nil slice the decoded block has a null, and `append` treats
both as empty. -/
theorem follows_appendToBlock (field : String) (value : Json ν) : Follows Matches (appendToBlock field value) := by
  intro b b' h c hc
  have hget := C.get? h field
  have hset : ∀ {v w : Any ν}, Near v w → Matches (Fields.set b field v) (Fields.set b' field w) :=
    fun hvw => C.set h field hvw
  have hempty : ∀ added : List (Json ν),
      Near (if added = [] then .leaf .nilSlice else ofJson (.arr added) : Any ν)
        (if added = [] then .leaf .nilSlice else ofJson (.arr added)) :=
    fun added => C.refl _
  unfold appendToBlock at hc ⊢
  obtain ⟨hinline, hc⟩ := seq_eq_ok.mp hc
  rw [requireInlineBlock_congr C h] at hinline
  simp only [seq_eq_ok, hinline, true_and]
  generalize Fields.get? b field = x at hget hc
  generalize Fields.get? b' field = y at hget ⊢
  cases value with
  | obj fs => simp at hc
  | leaf a =>
    rcases a with _ | _ | _ | added
    · simp at hc
    · simp at hc
    · simp at hc
    · cases hget with
      | none => exact ⟨_, rfl, by cases hc; exact hset (C.refl _)⟩
      | some hxy =>
        cases C.node.mp hxy with
        | arr _ => simp at hc
        | obj _ => simp at hc
        | @leaf u w huw =>
          cases huw with
          | nil => simp at hc
          | same u =>
            rcases u with (_ | _ | _ | old) | _
            · exact ⟨_, rfl, by cases hc; exact hset (C.refl _)⟩
            · simp at hc
            · simp at hc
            · exact ⟨_, rfl, by cases hc; exact hset (C.refl _)⟩
            · simp at hc
  -- a list, appended to an absent field, a null, a nil slice or a list
  | arr added =>
    cases hget with
    | none => exact ⟨_, rfl, by cases hc; exact hset (hempty added)⟩
    | some hxy =>
      cases C.node.mp hxy with
      | obj _ => simp at hc
      | @arr old old' hold =>
        refine ⟨_, rfl, ?_⟩
        cases hc
        refine hset (C.node.mpr (.arr (List.rel_append hold ?_)))
        rw [DocTree.mapList_eq_map]
        exact List.forall₂_same.mpr fun v _ => C.refl v
      | @leaf u w huw =>
        cases huw with
        | nil => exact ⟨_, rfl, by cases hc; exact hset (hempty added)⟩
        | same u =>
          rcases u with (_ | _ | _ | _) | _
          · exact ⟨_, rfl, by cases hc; exact hset (hempty added)⟩
          · simp at hc
          · simp at hc
          · simp at hc
          · exact ⟨_, rfl, by cases hc; exact hset (hempty added)⟩

theorem follows_setInBlock (path : List String) (value : Json ν) : Follows Matches (setInBlock path value) := by
  intro b b' h c hc
  rw [setInBlock, seq_eq_ok] at hc
  obtain ⟨hinline, hc⟩ := hc
  rw [requireInlineBlock_congr C h] at hinline
  obtain rfl : writePath b path value = c := by simpa [pure, Except.pure] using hc
  exact ⟨writePath b' path value, seq_eq_ok.mpr ⟨hinline, rfl⟩,
    C.writeAt _ h⟩

/-! ## One event and a run -/

theorem tracks_upsertBlock (block : JsonObject ν) : Tracks Matches fun s => upsertBlock s block := by
  intro m m' h s hs
  have harguments : upsertArguments (some m') block = upsertArguments (some m) block := by
    simp only [upsertArguments, Option.getD_some, memberEquals_congr C h]
  simp only [upsertBlock, harguments] at hs ⊢
  cases hid : upsertArguments (some m) block with
  | error r => simp [hid] at hs
  | ok id =>
    simp only [hid] at hs ⊢
    exact patchBlocks_congr C h (follows_replace C _) hs

theorem any_hasID_congr {blocks blocks' : List (Map ν)} (h : List.Forall₂ Matches blocks blocks') (id : String) :
    blocks.any (hasID id) = blocks'.any (hasID id) := by
  induction h with
  | nil => rfl
  | cons hb _ ih =>
    rw [List.any_cons, List.any_cons, ih, hasID, hasID, memberEquals_congr C hb]

theorem tracks_appendByMask (mask : String) (block : JsonObject ν) :
    Tracks Matches fun s => appendByMask s mask block := by
  intro m m' h s hs
  unfold appendByMask at hs ⊢
  cases harguments : appendArguments mask block with
  | error r => simp [harguments] at hs
  | ok p =>
    obtain ⟨field, id, value⟩ := p
    simp only [harguments] at hs ⊢
    cases hblocks : blocksOf m with
    | error r => simp [hblocks] at hs
    | ok q =>
      obtain ⟨blocks, left⟩ := q
      obtain ⟨blocks', left', hblocks', halike, hleft⟩ := blocksOf_congr C h hblocks
      simp only [hblocks, hblocks', ← any_hasID_congr C halike] at hs ⊢
      by_cases hany : blocks.any (hasID id) = true
      · simp only [hany, if_true] at hs ⊢
        exact patchBlocks_congr C hleft (follows_appendToBlock C field value) hs
      · simp only [hany, Bool.false_eq_true, if_false] at hs ⊢
        exact tracks_upsertBlock C block left left' hleft s hs

theorem tracks_setMeta (path : List String) (value : Json ν) : Tracks Matches fun s => setMeta s path value := by
  intro m m' h s hs
  obtain rfl := by simpa [setMeta] using hs
  exact ⟨_, _, rfl, rfl, C.set h "meta" (C.node.mpr (.obj (C.writeAt _ (C.childAt h "meta"))))⟩

theorem tracks_setByMask (mask : String) (source : JsonObject ν) :
    Tracks Matches fun s => setByMask s mask source := by
  intro m m' h s hs
  unfold setByMask at hs ⊢
  cases harguments : setArguments mask source with
  | error r => simp [harguments] at hs
  | ok p =>
    obtain ⟨root, path, value⟩ := p
    simp only [harguments] at hs ⊢
    split_ifs at hs ⊢
    · exact tracks_setMeta C path value m m' h s hs
    · exact patchBlocks_congr C h (follows_setInBlock C path value) hs
    · simp at hs

/-- Every event is accepted on a snapshot that is alike, when it is accepted. -/
theorem tracks_apply (event : Event ν) : Tracks Matches fun s => apply s event := by
  intro m m' h s hs
  unfold apply at hs ⊢
  cases hvalid : event.validate with
  | error r => simp [hvalid] at hs
  | ok u =>
    simp only [hvalid] at hs ⊢
    -- a start does not look at the snapshot
    have hclone : ∀ {s}, (Applied.returned (event.model.map cloneMap) : Applied Failure _).state? = some s →
        event.op = .known .start → ∃ n n', s = some n ∧
          (Applied.returned (event.model.map cloneMap) : Applied Failure _).state? = some (some n') ∧
            Matches n n' := by
      intro s hs hop
      obtain ⟨model, hmodel⟩ := exists_model_of_validate hop hvalid
      obtain rfl : some (cloneMap model) = s := by simpa [hmodel] using hs
      exact ⟨cloneMap model, cloneMap model, rfl, by rw [hmodel]; rfl, C.obj_refl _⟩
    unfold applyEvent at hs ⊢
    split at hs
    next hop => exact hclone hs hop
    next =>
      split_ifs at hs ⊢
      · exact tracks_upsertBlock C _ m m' h s hs
      · exact tracks_setByMask C _ _ m m' h s hs
    next => exact tracks_appendByMask C _ _ m m' h s hs
    next => exact tracks_setByMask C _ _ m m' h s hs
    next => exact tracks_unchanged m m' h s hs
    next => exact tracks_unchanged m m' h s hs
    next => exact tracks_refused _ m m' h s hs

/-- A run is accepted on the decoded snapshot, when it is accepted, and leads to the same document. -/
theorem tracks_applyAll (events : List (Event ν)) : Tracks Matches fun s => applyAll s events := by
  induction events with
  | nil => exact tracks_unchanged
  | cons event events ih =>
    intro m m' h s hs
    simp only [applyAll, Applied.run] at hs ⊢
    cases hfirst : apply (some m) event with
    | raised r t => simp [hfirst] at hs
    | returned t =>
      obtain ⟨n, n', rfl, hn', hnn⟩ := tracks_apply C event m m' h t (by simp [hfirst])
      cases hsecond : apply (some m') event with
      | raised r t => simp [hsecond] at hn'
      | returned t =>
        obtain rfl : t = some n' := by simpa [hsecond] using hn'
        rw [hfirst] at hs
        exact ih n n' hnn s hs

end

end AgentUE.Go
