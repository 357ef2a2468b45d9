import AgentUE.TypeScript.OwnPaths

/-!
# The reducer on a parsed snapshot

What the parts of the reducer do in a fresh process to a snapshot that has come from `JSON.parse`: a read sees the
members of the document or a function of `Object.prototype`, a write is the write to the document, and a payload
without a member `__proto__` is stored as it is.
-/

namespace AgentUE.TypeScript

open Data

variable {ν : Type}

/-- A parsed snapshot in a fresh process. -/
def World.parsed (s : JsonObject ν) : World ν := ⟨[], ofJsonObject s⟩

/-! ## Reads and writes -/

theorem set_ofJsonObject (fs : JsonObject ν) (k : String) (v : Json ν) :
    Fields.set (ofJsonObject fs) (.own k) (ofJson v) = ofJsonObject (Fields.set fs k v) := by
  induction fs with
  | nil => rfl
  | cons p fs ih =>
    obtain ⟨j, w⟩ := p
    by_cases hj : j = k
    · simp [ofJsonObject, Fields.set, hj]
    · simp [ofJsonObject, Fields.set, hj, ih]

/-- A read finds a member of the document. -/
theorem readMember_ofJsonObject_some {fs : JsonObject ν} {k : String} {v : Json ν} (h : Fields.get? fs k = some v) :
    readMember [] (ofJsonObject fs) k = .value (ofJson v) := by
  apply readMember_of_own
  rw [get?_ofJsonObject, h]
  rfl

/-- Where the document has none, a read comes to `Object.prototype`. -/
theorem readMember_ofJsonObject_none {fs : JsonObject ν} {k : String} (h : Fields.get? fs k = none) :
    readMember [] (ofJsonObject fs) k = readObjectPrototype [] k := by
  rw [readMember, get?_ofJsonObject, h, Option.map_none, readInherited_ofJsonObject]

/-- What a read finds on `Object.prototype` is undefined, or a function. -/
theorem readObjectPrototype_of_ne {k : String} (hk : k ≠ "__proto__") :
    readObjectPrototype ([] : JsObject ν) k = if objectMembers.elem k then .builtin else .undefined := by
  simp only [readObjectPrototype, Fields.get?_nil, if_neg hk]

theorem hasOwn_parsed (s : JsonObject ν) (k : String) :
    hasOwn (World.parsed s).snapshot k = Fields.has s k := hasOwn_ofJsonObject s k

/-- A walk over names other than `__proto__` writes to the document. -/
theorem writePath_ofJsonObject {path : List String} (havoid : "__proto__" ∉ path) (hne : path ≠ [])
    (fs : JsonObject ν) (v : Json ν) :
    writePath [] (ofJsonObject fs) path (ofJson v) = .done (ofJsonObject (DocTree.writeAt fs path v)) := by
  induction path generalizing fs with
  | nil => exact absurd rfl hne
  | cons k rest ih =>
    have hk : k ≠ "__proto__" := fun h => havoid (by simp [h])
    cases rest with
    | nil => rw [writePath, assign_of_ne hk, set_ofJsonObject, DocTree.writeAt]
    | cons i rest =>
      have hrest : "__proto__" ∉ i :: rest := fun h => havoid (List.mem_cons_of_mem _ h)
      have hstore : ∀ child : JsonObject ν, Fields.set (ofJsonObject fs) (.own k) (.obj (ofJsonObject child)) =
          ofJsonObject (Fields.set fs k (.obj child)) := fun child => set_ofJsonObject fs k (.obj child)
      rw [DocTree.writeAt_cons_cons]
      by_cases hrecord : ∃ child, Fields.get? fs k = some (.obj child)
      · obtain ⟨child, hchild⟩ := hrecord
        have hread : readMember [] (ofJsonObject fs) k = .value (.obj (ofJsonObject child)) :=
          readMember_ofJsonObject_some hchild
        have hown : hasOwn (ofJsonObject fs) k = true := by
          rw [hasOwn_ofJsonObject, Fields.has, hchild]
          rfl
        have hat : DocTree.childAt fs k = child := by
          rw [DocTree.childAt, hchild]
          rfl
        rw [writePath_of_record hread, ih hrest (by simp), Written.within, putMember, if_pos hown, hat, hstore]
      · rw [not_exists] at hrecord
        have hread : ∀ child, readMember [] (ofJsonObject fs) k ≠ .value (.obj child) := by
          intro child
          cases hget : Fields.get? fs k with
          | none =>
            rw [readMember_ofJsonObject_none hget, readObjectPrototype_of_ne hk]
            split_ifs <;> simp
          | some w =>
            rw [readMember_ofJsonObject_some hget]
            cases w with
            | leaf a => simp [ofJson]
            | arr xs => simp [ofJson]
            | obj child => exact absurd hget (hrecord child)
        have hat : DocTree.childAt fs k = [] := by
          rw [DocTree.childAt]
          rcases hget : Fields.get? fs k with _ | a | xs | child
          · rfl
          · rfl
          · rfl
          · exact absurd hget (hrecord child)
        have hfresh := ih hrest (by simp) ([] : JsonObject ν)
        rw [ofJsonObject] at hfresh
        rw [writePath_of_fresh (local_readMember hk _) hread, hfresh, Written.within, hat, hstore]

/-- A member that the snapshot has is replaced. -/
theorem put_parsed {s : JsonObject ν} {k : String} (h : Fields.has s k = true) (v : Json ν) :
    (World.parsed s).put k (ofJson v) = .parsed (Fields.set s k v) := by
  obtain ⟨u, hu⟩ := (Fields.has_eq_true_iff _ _).mp h
  have hread : readMember (World.parsed s).shared (World.parsed s).snapshot k = .value (ofJson u) :=
    readMember_ofJsonObject_some hu
  have hown : hasOwn (World.parsed s).snapshot k = true := by rw [hasOwn_parsed, h]
  simp only [World.put, hread, putMember, hown, if_true]
  rw [World.parsed, World.parsed, set_ofJsonObject]

/-! ## Payloads without a member `__proto__` -/

/-- No object of the document has a member `__proto__`. -/
def plainObject (fs : JsonObject ν) : Bool := plainSlots (ofJsonObject fs)

theorem cloneObject_ofJsonObject {fs : JsonObject ν} (h : plainObject fs = true) :
    cloneObject (ofJsonObject fs) = ofJsonObject fs := (cloneObject_eq_iff _).mpr h

theorem plain_of_get? {fs : JsonObject ν} {k : String} {v : Json ν} (h : plainObject fs = true)
    (hget : Fields.get? fs k = some v) : plain (ofJson v) = true := by
  induction fs with
  | nil => cases hget
  | cons p fs ih =>
    obtain ⟨j, w⟩ := p
    simp only [plainObject, ofJsonObject, plainSlots, Bool.and_eq_true] at h
    rw [Fields.get?_cons] at hget
    split_ifs at hget
    · obtain rfl := Option.some.inj hget
      exact h.1.2
    · exact ih h.2 hget

theorem plain_of_descend {v w : Json ν} {path : List String} (h : plain (ofJson v) = true)
    (hdescend : descend v path = some w) : plain (ofJson w) = true := by
  induction path generalizing v with
  | nil =>
    obtain rfl := Option.some.inj hdescend
    exact h
  | cons k rest ih =>
    cases v with
    | leaf a => cases hdescend
    | arr xs => cases hdescend
    | obj fs =>
      rw [descend_cons] at hdescend
      obtain ⟨u, hu, hrest⟩ := Option.bind_eq_some_iff.mp hdescend
      exact ih (plain_of_get? h hu) hrest

/-- A masked value is copied as it is. -/
theorem cloneJson_of_readPath {source : JsonObject ν} (h : plainObject source = true) {path : List String}
    {v : Json ν} (hread : readPathOrLeaf source path = some v) : cloneJson (ofJson v) = ofJson v := by
  apply (cloneJson_eq_iff _).mpr
  unfold readPathOrLeaf at hread
  cases hdescend : descend (.obj source) path with
  | some w =>
    obtain rfl : w = v := by simpa [hdescend] using hread
    exact plain_of_descend (v := .obj source) h hdescend
  | none =>
    rw [hdescend] at hread
    obtain ⟨k, -, hk⟩ := Option.bind_eq_some_iff.mp hread
    exact plain_of_get? h hk

theorem ofJsonItems_append (xs ys : List (Json ν)) : ofJsonItems (xs ++ ys) = ofJsonItems xs ++ ofJsonItems ys := by
  induction xs with
  | nil => rfl
  | cons x xs ih => rw [List.cons_append, ofJsonItems, ofJsonItems, ih, List.cons_append]

/-! ## Blocks -/

theorem ofJson_blocks (blocks : List (JsonObject ν)) :
    ofJson (.arr (blocks.map .obj)) = .arr ((blocks.map ofJsonObject).map .obj) := by
  have hitems : ofJsonItems (blocks.map .obj) = (blocks.map ofJsonObject).map .obj := by
    induction blocks with
    | nil => rfl
    | cons b blocks ih => rw [List.map_cons, ofJsonItems, ih]; rfl
  rw [ofJson, hitems]

/-- The list of blocks, if there is one, holds objects. -/
def Shaped (s : JsonObject ν) : Prop :=
  Fields.get? s "blocks" = none ∨ ∃ blocks : List (JsonObject ν), Fields.get? s "blocks" = some (.arr (blocks.map .obj))

/-- `ensureBlocks` gives the blocks of the document, which has a list of them then. -/
theorem ensureBlocks_parsed {s : JsonObject ν} (hs : Shaped s) :
    ∃ blocks : List (JsonObject ν), Fields.get? (setDefault s "blocks" (.arr [])) "blocks" = some (.arr (blocks.map .obj)) ∧
      (Fields.get? s "blocks" = none → blocks = []) ∧
      ensureBlocks (.parsed s) = (.ok (blocks.map ofJsonObject), .parsed (setDefault s "blocks" (.arr []))) := by
  rcases hs with hnone | ⟨blocks, hblocks⟩
  · have hread : readMember (World.parsed s).shared (World.parsed s).snapshot "blocks" = .undefined := by
      rw [World.parsed, readMember_ofJsonObject_none hnone]
      rfl
    have hset : setDefault s "blocks" (.arr []) = Fields.set s "blocks" (.arr []) := by
      simp [setDefault, Fields.has, hnone]
    refine ⟨[], by rw [hset, Fields.get?_set_self]; rfl, fun _ => rfl, ?_⟩
    rw [ensureBlocks, hread, hset, World.parsed, World.parsed, ← set_ofJsonObject]
    rfl
  · have hown : Fields.get? (World.parsed s).snapshot (.own "blocks") = some (.arr ((blocks.map ofJsonObject).map .obj)) := by
      rw [World.parsed, get?_ofJsonObject, hblocks, Option.map_some, ofJson_blocks]
    refine ⟨blocks, by rw [setDefault_of_get? hblocks, hblocks], fun hnone => ?_, ?_⟩
    · rw [hblocks] at hnone
      cases hnone
    · rw [setDefault_of_get? hblocks]
      simp only [ensureBlocks, readMember_of_own hown, read_of_own hown, blocksOf, DocTree.asObjs_map_obj]

/-- The blocks of a parsed snapshot that has a list of them are stored back. -/
theorem putBlocks_parsed {s : JsonObject ν} {v : Json ν} (h : Fields.get? s "blocks" = some v)
    (blocks : List (JsonObject ν)) :
    (World.parsed s).putBlocks (blocks.map ofJsonObject) = .parsed (Fields.set s "blocks" (.arr (blocks.map .obj))) := by
  rw [World.putBlocks, ← ofJson_blocks, put_parsed]
  exact (Fields.has_eq_true_iff _ _).mpr ⟨v, h⟩

theorem hasId_ofJsonObject (id : String) (b : JsonObject ν) :
    hasId [] (some id) (ofJsonObject b) = (idOf b == some id) := by
  rw [hasId, readString_id_ofJsonObject]
  rfl

theorem any_hasId (id : String) (blocks : List (JsonObject ν)) :
    (blocks.map ofJsonObject).any (hasId [] (some id)) = blocks.any fun b => idOf b == some id := by
  rw [List.any_map]
  congr 1
  funext b
  exact hasId_ofJsonObject id b

theorem find?_hasId_map (id : String) (blocks : List (JsonObject ν)) :
    (blocks.map ofJsonObject).find? (hasId [] (some id)) =
      (blocks.find? fun b => idOf b == some id).map ofJsonObject := by
  rw [List.find?_map]
  congr 2
  funext b
  exact hasId_ofJsonObject id b

theorem replaceFirst_map (id : String) (b' : JsonObject ν) (blocks : List (JsonObject ν)) :
    replaceFirst (hasId [] (some id)) (ofJsonObject b') (blocks.map ofJsonObject) =
      (replaceFirst (fun b => idOf b == some id) b' blocks).map ofJsonObject := by
  induction blocks with
  | nil => rfl
  | cons b blocks ih =>
    rw [List.map_cons, replaceFirst, replaceFirst, hasId_ofJsonObject, ih]
    split_ifs <;> rfl

/-- What the loop comes to where `find` has an element. -/
theorem updateFirst_of_find?_some {ε β : Type} {p : β → Bool} {bs : List β} {b : β} (h : bs.find? p = some b)
    (f : β → Except ε β) (missing : Except ε (List β)) :
    (updateFirst (fun b => .ok (p b)) f missing bs).toOption = (f b).toOption.map fun b' => replaceFirst p b' bs := by
  induction bs with
  | nil => cases h
  | cons c bs ih =>
    rw [updateFirst_cons]
    rw [List.find?_cons] at h
    cases hp : p c with
    | true =>
      obtain rfl : c = b := by simpa [hp] using h
      simp [replaceFirst, hp]
    | false =>
      rw [if_neg Bool.false_ne_true, ih (by simpa [hp] using h), Option.map_map]
      congr 1
      funext b'
      simp [replaceFirst, hp]

/-- What it comes to where there is none. -/
theorem updateFirst_of_find?_none {ε β : Type} {p : β → Bool} {bs : List β} (h : bs.find? p = none)
    (f : β → Except ε β) (missing : Except ε (List β)) :
    (updateFirst (fun b => .ok (p b)) f missing bs).toOption = missing.toOption.map (bs ++ ·) := by
  induction bs with
  | nil => cases missing <;> rfl
  | cons c bs ih =>
    rw [updateFirst_cons]
    rw [List.find?_cons] at h
    cases hp : p c with
    | true => simp [hp] at h
    | false =>
      rw [if_neg Bool.false_ne_true, ih (by simpa [hp] using h), Option.map_map]
      rfl

end AgentUE.TypeScript
