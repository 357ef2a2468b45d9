import AgentUE.Conformance.Atomicity
import AgentUE.Conformance.Identity

/-!
# Masked sets of the Python reducer

A masked set is a write to one path of one object: of the metadata, or of the block that the payload names. The laws
are those of a lens with the nodes on the way created where they are missing; a second application changes nothing.
-/

namespace AgentUE.Conformance

open Data

variable {ν : Type}

/-- What the payload holds at a path, or else its top-level member of the last name. -/
inductive Holds (payload : JsonObject ν) (path : List String) (value : Json ν) : Prop
  | nested : descend (.obj payload) path = some value → Holds payload path value
  | flat {leaf : String} : descend (.obj payload) path = none → path.getLast? = some leaf →
    Fields.get? payload leaf = some value → Holds payload path value

/-- An object before and after a write of `value` at `path`. -/
structure Written (path : List String) (value : Json ν) (target target' : JsonObject ν) : Prop where
  stored : descend (.obj target') path = some value
  frame : ∀ q, ¬ q <+: path → ¬ path <+: q → descend (.obj target') q = descend (.obj target) q
  nodes : ∀ q, q <+: path → q ≠ path → ∃ node, descend (.obj target') q = some (.obj node)

/-- The object that a root addresses before and after, in two snapshots that differ nowhere else. -/
inductive Addressed (e : Envelope ν) (payload : JsonObject ν) :
    String → JsonObject ν → JsonObject ν → JsonObject ν → JsonObject ν → Prop
  | metadata {s s' target target' : JsonObject ν} : e.meta_ = some payload → Fields.get? s "meta" = some (.obj target) →
    Fields.get? s' "meta" = some (.obj target') → (∀ k, k ≠ "meta" → Fields.get? s' k = Fields.get? s k) →
    Addressed e payload "meta" s s' target target'
  | block {s s' target target' : JsonObject ν} {pre post : List (JsonObject ν)} {id : String} : e.block = some payload →
    idOf payload = some id → idOf target = some id → (∀ b ∈ pre ++ post, idOf b ≠ some id) →
    blocksIn s = some (pre ++ target :: post) → blocksIn s' = some (pre ++ target' :: post) →
    (∀ k, k ≠ "blocks" → Fields.get? s' k = Fields.get? s k) → Addressed e payload "block" s s' target target'

theorem written_writePath (target : JsonObject ν) {path : List String} (hne : path ≠ []) (value : Json ν) :
    Written path value target (Python.writePath target path value) where
  stored := descend_writeAt_self target hne value
  frame _ hq hpath := descend_writeAt_of_incomparable target hq hpath value
  nodes _ hq hne := descend_writeAt_of_prefix target hq hne value

theorem holds_of_readPath {payload : JsonObject ν} {path : List String} {value : Json ν}
    (h : Python.readPath payload path = some value) : Holds payload path value := by
  unfold Python.readPath readPathOrLeaf at h
  cases hnested : descend (.obj payload) path with
  | some v => exact .nested (by rw [hnested, ← h, hnested, Option.some_or])
  | none =>
    rw [hnested, Option.none_or] at h
    obtain ⟨leaf, hleaf, hget⟩ := Option.bind_eq_some_iff.mp h
    exact .flat hnested hleaf hget

/-- The mask of an accepted write, cut at its dots. -/
theorem split_of_setArguments {mask root : String} {payload : JsonObject ν} {path : List String} {value : Json ν}
    (h : Python.setArguments mask payload = .ok (root, path, value)) :
    Text.split mask '.' = root :: path ∧ path ≠ [] ∧ Holds payload path value := by
  obtain ⟨relative, hcut, rfl, hread⟩ := Python.setArguments_eq_ok h
  exact ⟨Text.split_of_cut hcut, Text.split_ne_nil relative '.', holds_of_readPath hread⟩

/-- A write to the metadata, and the same write once more. -/
theorem setMeta_laws {s s' : JsonObject ν} (hs : HasMeta s) {path : List String} (hne : path ≠ [])
    {value : Json ν} (h : (Python.setMeta s path value).state? = some s') {e : Envelope ν} {payload : JsonObject ν}
    (hpayload : e.meta_ = some payload) :
    (∃ target target', Addressed e payload "meta" s s' target target' ∧ Written path value target target') ∧
      (Python.setMeta s' path value).state? = some s' := by
  obtain ⟨v, hv⟩ := (Fields.has_eq_true_iff _ _).mp hs
  unfold Python.setMeta at h ⊢
  dsimp only at h ⊢
  rw [setDefault_of_get? hv, hv, Option.bind_some] at h
  cases hobj : v.asObj with
  | none => simp [hobj] at h
  | some target =>
    obtain rfl := DocTree.asObj_eq_some.mp hobj
    simp only [hobj] at h
    obtain rfl := Option.some.inj h
    have hget : Fields.get? (Fields.set s "meta" (.obj (Python.writePath target path value))) "meta" =
        some (.obj (Python.writePath target path value)) := Fields.get?_set_self s "meta" _
    constructor
    · exact ⟨target, _, .metadata hpayload hv hget fun k hk => Fields.get?_set_ne s _ hk,
        written_writePath target hne value⟩
    · rw [setDefault_of_get? hget, hget]
      show some (Fields.set (Fields.set s "meta" _) "meta" (.obj (DocTree.writeAt (DocTree.writeAt target path value) path
        value))) = _
      rw [writeAt_writeAt, Fields.set_set]
      rfl

/-- A write to a block, and the same write once more. -/
theorem setInBlock_again {b b' : JsonObject ν} {k : String} {rest : List String} {value : Json ν} (hk : k ≠ "ref")
    (h : Python.setInBlock (k :: rest) value b = .ok b') :
    b' = Python.writePath b (k :: rest) value ∧ Python.setInBlock (k :: rest) value b' = .ok b' := by
  rw [Python.setInBlock, seq_eq_ok, Python.requireInlineBlock, check_eq_ok] at h
  obtain ⟨href, hb'⟩ := h
  obtain rfl : Python.writePath b (k :: rest) value = b' := Except.ok.inj hb'
  refine ⟨rfl, ?_⟩
  have href' : Fields.has (Python.writePath b (k :: rest) value) "ref" = Fields.has b "ref" := by
    rw [Fields.has, Python.writePath, DocTree.get?_writeAt_ne b k rest value hk.symm, Fields.has]
  rw [Python.setInBlock, seq_eq_ok, Python.requireInlineBlock, check_eq_ok, href']
  refine ⟨href, ?_⟩
  exact congrArg Except.ok (writeAt_writeAt b (k :: rest) value value)

section

variable [DecidableEq ν]

/-- The block that a field patch finds is the only one with the id of the payload. -/
theorem found_in_blocks {bs pre post : List (JsonObject ν)} {b payload : JsonObject ν} (hid : Identified idOf bs)
    (hbs : bs = pre ++ b :: post) (hfound : Python.idEquals (Fields.get? payload "id") b = true) :
    ∃ id, id ≠ "" ∧ idOf b = some id ∧ idOf payload = some id ∧ ∀ c ∈ pre ++ post, idOf c ≠ some id := by
  subst hbs
  obtain ⟨id, hb, hne⟩ := hid.named b (by simp)
  refine ⟨id, hne, hb, ((python_idEquals_iff ⟨id, hb, hne⟩).mp hfound).symm.trans hb, fun c hc hcid => ?_⟩
  have hdistinct := hid.distinct
  rw [List.map_append, List.map_cons, List.nodup_middle, List.nodup_cons, ← List.map_append] at hdistinct
  exact hdistinct.1 (List.mem_map.mpr ⟨c, hc, hcid.trans hb.symm⟩)

/-- A write to the block with the id of the payload, and the same write once more. -/
theorem setInBlock_laws {s s' : JsonObject ν} (hs : HasIdentities idOf s) {payload : JsonObject ν} {k : String}
    {rest : List String} (hkid : k ≠ "id") (hkref : k ≠ "ref") {value : Json ν}
    (h : (Python.patchBlocks s (Fields.get? payload "id") (Python.setInBlock (k :: rest) value)
      (.error .targetBlockDoesNotExist)).state? = some s') {e : Envelope ν} (hpayload : e.block = some payload) :
    (∃ target target', Addressed e payload "block" s s' target target' ∧ Written (k :: rest) value target target') ∧
      (Python.patchBlocks s' (Fields.get? payload "id") (Python.setInBlock (k :: rest) value)
        (.error .targetBlockDoesNotExist)).state? = some s' := by
  obtain ⟨bs, hbs, hid⟩ := hs
  cases hblocks : Fields.get? s "blocks" with
  | none =>
    simp [Python.patchBlocks, hblocks, Python.iterBlocks, updateFirst, bind, Except.bind, Applied.ofExcept] at h
  | some v =>
    have hget : Fields.get? s "blocks" = some (.arr (bs.map .obj)) := by
      have hdefault := get?_blocks_setDefault hbs
      rwa [setDefault_of_get? hblocks] at hdefault
    rw [Python.patchBlocks_state? hget, Option.map_eq_some_iff] at h
    obtain ⟨bs', hbs', rfl⟩ := h
    have hget' := Fields.get?_set_self s "blocks" (DocTree.arr (bs'.map DocTree.obj))
    rw [Python.patchBlocks_state? hget']
    rw [toOption_eq_some] at hbs'
    rcases updateFirst_eq_ok.mp hbs' with ⟨pre, b, b', post, heq, hpre, hb, hb', rfl⟩ | ⟨added, -, hadded, -⟩
    · obtain ⟨rfl, hagain⟩ := setInBlock_again hkref hb'
      obtain ⟨id, hne, hbid, hsource, hothers⟩ := found_in_blocks hid heq hb
      have hsame : idOf (Python.writePath b (k :: rest) value) = some id :=
        (idOf_setInBlock rfl hkid hb').trans hbid
      have hfound : Python.idEquals (Fields.get? payload "id") (Python.writePath b (k :: rest) value) = true :=
        (python_idEquals_iff ⟨id, hsame, hne⟩).mpr (hsame.trans hsource.symm)
      constructor
      · exact ⟨b, _, .block hpayload hsource hbid hothers (heq ▸ hbs) (blocksIn_of_get? hget')
          fun k hk => Fields.get?_set_ne s _ hk, written_writePath b (List.cons_ne_nil k rest) value⟩
      · rw [updateFirst_eq_ok.mpr (.inl ⟨pre, _, _, post, rfl, hpre, hfound, hagain, rfl⟩), Except.toOption,
          Option.map_some, Fields.set_set]
    · cases hadded

/-- After an accepted start and any accepted events, an accepted masked set stores the value of its payload at the
path of its mask, in the metadata or in the block that the payload names, and changes nothing else but the nodes
on the way; once more it changes nothing. -/
theorem python_maskedSet_laws {s₀ s s' : JsonObject ν} {start : Envelope ν} (hstart : start.op = .start)
    {events : List (Envelope ν)} (hrun : (Python.applyPatches s₀ (start :: events)).state? = some s) {e : Envelope ν}
    (hop : e.op = .set) {mask : String} (hmask : e.mask = some mask) (h : (Python.applyPatch s e).state? = some s') :
    (∃ root path payload value target target', Text.split mask '.' = root :: path ∧ path ≠ [] ∧
      Holds payload path value ∧ Addressed e payload root s s' target target' ∧ Written path value target target') ∧
      (Python.applyPatch s' e).state? = some s' := by
  have hids := hasIdentities_python_run hstart hrun
  have hmeta := hasMeta_python_run hstart hrun
  unfold Python.applyPatch at h ⊢
  cases hvalid : Python.validateOperation e with
  | error r => simp [hvalid] at h
  | ok u =>
    simp only [hvalid, Python.applyEvent, hop, Python.applySet, hmask] at h ⊢
    have hset : Python.validateSet e = .ok () := by
      simp only [Python.validateOperation, hop, seq_eq_ok] at hvalid
      exact hvalid.2
    rw [python_set_iff] at hset
    unfold Python.setByMask at h ⊢
    cases hargs : Python.setArguments mask ((e.meta_.or e.block).getD []) with
    | error r =>
      rw [hargs] at h
      cases h
    | ok arguments =>
      obtain ⟨root, path, value⟩ := arguments
      obtain ⟨hsplit, hne, hholds⟩ := split_of_setArguments hargs
      simp only [hargs] at h ⊢
      rcases hm : e.meta_ with _ | m <;> rcases hb : e.block with _ | block <;>
        simp only [hm, hb, hmask, Option.or_none, Option.none_or, Option.getD_some] at hset hargs hholds h ⊢
      · -- a field of a block
        obtain ⟨rfl, k, rest, rfl, hk⟩ := Python.setArguments_of_cut (Text.cut_block hset.1) hargs
        obtain ⟨hkid, hkref⟩ := patchable_ne ((python_fieldPatch_iff hset.1 block).mp hset.2) hk
        rw [if_neg (by decide), if_pos rfl] at h ⊢
        obtain ⟨⟨target, target', haddressed, hwritten⟩, hagain⟩ := setInBlock_laws hids hkid hkref h hb
        exact ⟨⟨_, _, block, value, target, target', hsplit, hne, hholds, haddressed, hwritten⟩, hagain⟩
      · -- the metadata
        obtain ⟨rfl, -⟩ := Python.setArguments_of_cut (Text.cut_meta hset) hargs
        rw [if_pos rfl] at h ⊢
        obtain ⟨⟨target, target', haddressed, hwritten⟩, hagain⟩ := setMeta_laws hmeta hne h hm
        exact ⟨⟨_, _, m, value, target, target', hsplit, hne, hholds, haddressed, hwritten⟩, hagain⟩

/-- A start with a number in its metadata. -/
def startsScalar : Envelope ℕ :=
  ⟨.start, 1, none, none, none, none, some [("biz", .str "chat"), ("meta", .obj [("a", .num 5)])], none, none⟩

/-- A write below that number, from a flat payload. -/
def setsBelow : Envelope ℕ := ⟨.set, 2, none, none, some "meta.a.b", none, none, some [("b", .num 7)], none⟩

/-- The number gives way to an object, which stays when the event is applied again. -/
theorem python_maskedSet_laws_setsBelow :
    (Python.applyPatch [("biz", .str "chat"), ("meta", .obj [("a", .obj [("b", .num 7)])])] setsBelow).state? =
      some [("biz", .str "chat"), ("meta", .obj [("a", .obj [("b", .num 7)])])] := by
  have hstart : (Python.applyPatches [] [startsScalar]).state? =
      some [("biz", .str "chat"), ("meta", .obj [("a", .num 5)])] := by decide +kernel
  have hset : (Python.applyPatch [("biz", .str "chat"), ("meta", .obj [("a", .num 5)])] setsBelow).state? =
      some [("biz", .str "chat"), ("meta", .obj [("a", .obj [("b", .num 7)])])] := by decide +kernel
  exact (python_maskedSet_laws rfl hstart rfl rfl hset).2

end

end AgentUE.Conformance
