import AgentUE.Protocol.Patch

/-!
# The identity of blocks

What an update of a list of blocks at one identity keeps: the ids in their order, all other blocks, and the
references that are not replaced whole. `ident` reads the id of a block, so that the facts hold for the
snapshots of every reducer.
-/

namespace AgentUE

open Data

/-- Every block has an id, which is not empty, and no two have the same. -/
structure Identified {β : Type} (ident : β → Option String) (bs : List β) : Prop where
  named : ∀ b ∈ bs, ∃ id, ident b = some id ∧ id ≠ ""
  distinct : (bs.map ident).Nodup

section Blocks

variable {β : Type} {ident : β → Option String} {isRef : β → Prop} {target : String} {whole : Prop}

/-- The list after one change at the id `target`: a block with this id has changed, which was a reference
only if a whole block has been set, or a block with this id has been added. -/
inductive Touched (ident : β → Option String) (isRef : β → Prop) (target : String) (whole : Prop) :
    List β → List β → Prop
  | change {pre post : List β} {b b' : β} : ident b = some target → ident b' = some target → (isRef b → whole) →
    Touched ident isRef target whole (pre ++ b :: post) (pre ++ b' :: post)
  | add {bs : List β} {b : β} : some target ∉ bs.map ident → ident b = some target → target ≠ "" →
    Touched ident isRef target whole bs (bs ++ [b])

/-- What a step that names the id `named` may do to the blocks. -/
structure Stable (ident : β → Option String) (isRef : β → Prop) (named : Option String) (whole : Prop)
    (bs bs' : List β) : Prop where
  ids : bs.map ident <+: bs'.map ident
  added : bs'.length ≤ bs.length + 1
  identified : Identified ident bs'
  others : ∀ (i : ℕ) (b : β), bs[i]? = some b → ident b ≠ named → bs'[i]? = some b
  references : ∀ (i : ℕ) (b : β), bs[i]? = some b → isRef b → bs'[i]? = some b ∨ (whole ∧ ident b = named)

theorem Stable.refl {bs : List β} (h : Identified ident bs) (named : Option String) :
    Stable ident isRef named whole bs bs where
  ids := List.prefix_rfl
  added := Nat.le_succ _
  identified := h
  others _ _ hi _ := hi
  references _ _ hi _ := .inl hi

/-- The loop over the blocks makes one change at the id that it looks for. -/
theorem touched_updateFirst {ε : Type} {p : β → Bool} {f : β → Except ε β} {missing : Except ε (List β)}
    {bs bs' : List β} (h : updateFirst (fun b => .ok (p b)) f missing bs = .ok bs')
    (hp : ∀ b ∈ bs, p b = true ↔ ident b = some target)
    (hf : ∀ b b', b ∈ bs → f b = .ok b' → ident b = some target → ident b' = some target ∧ (isRef b → whole))
    (hm : some target ∉ bs.map ident → ∀ added, missing = .ok added →
      ∃ b, added = [b] ∧ ident b = some target ∧ target ≠ "") :
    Touched ident isRef target whole bs bs' := by
  rcases updateFirst_eq_ok.mp h with ⟨pre, b, b', post, rfl, -, hb, hb', rfl⟩ | ⟨added, hnone, hadded, rfl⟩
  · have hid := (hp b (by simp)).mp hb
    obtain ⟨hid', href⟩ := hf b b' (by simp) hb' hid
    exact .change hid hid' href
  · have hfresh : some target ∉ bs.map ident := by
      intro hmem
      obtain ⟨c, hc, hcid⟩ := List.mem_map.mp hmem
      exact absurd ((hp c hc).mpr hcid) (by simp [hnone c hc])
    obtain ⟨b, rfl, hid, hne⟩ := hm hfresh added hadded
    exact .add hfresh hid hne

theorem Touched.stable {bs bs' : List β} (h : Touched ident isRef target whole bs bs') (hbs : Identified ident bs) :
    Stable ident isRef (some target) whole bs bs' := by
  cases h with
  | @change pre post b b' hid hid' href =>
    have hmap : (pre ++ b' :: post).map ident = (pre ++ b :: post).map ident := by simp [hid, hid']
    have hget : ∀ (i : ℕ) (c : β), (pre ++ b :: post)[i]? = some c →
        (pre ++ b' :: post)[i]? = some c ∨ c = b := by
      intro i c hc
      rcases Nat.lt_trichotomy i pre.length with hi | rfl | hi
      · rw [List.getElem?_append_left hi] at hc ⊢
        exact .inl hc
      · exact .inr (by simpa [eq_comm] using hc)
      · obtain ⟨k, rfl⟩ : ∃ k, i = pre.length + 1 + k := ⟨i - (pre.length + 1), by omega⟩
        rw [List.getElem?_append_right (by omega)] at hc ⊢
        exact .inl (by simpa [Nat.add_assoc, Nat.add_comm 1 k] using hc)
    refine ⟨hmap ▸ List.prefix_rfl, by simp, ⟨fun c hc => ?_, hmap ▸ hbs.distinct⟩, fun i c hc hne => ?_,
      fun i c hc hrefc => ?_⟩
    · have hmem : ident c ∈ (pre ++ b :: post).map ident := hmap ▸ List.mem_map_of_mem hc
      obtain ⟨d, hd, hdc⟩ := List.mem_map.mp hmem
      exact hdc ▸ hbs.named d hd
    · rcases hget i c hc with h | rfl
      · exact h
      · exact absurd hid hne
    · rcases hget i c hc with h | rfl
      · exact .inl h
      · exact .inr ⟨href hrefc, hid⟩
  | @add bs b hfresh hid hne =>
    have hget : ∀ (i : ℕ) (c : β), bs[i]? = some c → (bs ++ [b])[i]? = some c := fun i c hc => by
      rw [List.getElem?_append_left (List.getElem?_eq_some_iff.mp hc).1]
      exact hc
    refine ⟨by simp, by simp, ⟨fun c hc => ?_, ?_⟩, fun i c hc _ => hget i c hc, fun i c hc _ => .inl (hget i c hc)⟩
    · rcases List.mem_append.mp hc with hc | hc
      · exact hbs.named c hc
      · exact ⟨target, List.mem_singleton.mp hc ▸ hid, hne⟩
    · rw [List.map_append, List.map_cons, List.map_nil, hid]
      refine List.nodup_append.mpr ⟨hbs.distinct, by simp, fun x hx y hy => ?_⟩
      rintro rfl
      exact hfresh (by simpa [List.mem_singleton.mp hy] using hx)

/-- An id that no block has names none. -/
theorem Stable.of_unnamed {bs bs' : List β} (h : Stable ident isRef (some target) whole bs bs')
    (hfresh : some target ∉ bs.map ident) (named : Option String) : Stable ident isRef named whole bs bs' := by
  have hne : ∀ (i : ℕ) (b : β), bs[i]? = some b → ident b ≠ some target := fun i b hb heq =>
    hfresh (heq ▸ List.mem_map_of_mem (List.mem_of_getElem? hb))
  exact ⟨h.ids, h.added, h.identified, fun i b hb _ => h.others i b hb (hne i b hb),
    fun i b hb _ => .inl (h.others i b hb (hne i b hb))⟩

end Blocks

/-! ## Snapshots -/

section Snapshots

variable {α : Type}

/-- The blocks of a snapshot; one that has no list of them yet has none. -/
def blocksIn (s : List (String × DocTree String α)) : Option (List (List (String × DocTree String α))) :=
  match Fields.get? s "blocks" with
  | none => some []
  | some v => v.asArr.bind DocTree.asObjs

/-- A reference that has not been resolved. -/
def Unresolved (block : List (String × DocTree String α)) : Prop := Fields.has block "ref" = true

/-- A snapshot whose blocks all have ids of their own. -/
def HasIdentities (ident : List (String × DocTree String α) → Option String) (s : List (String × DocTree String α)) :
    Prop :=
  ∃ bs, blocksIn s = some bs ∧ Identified ident bs

/-- What an event may do to a snapshot: `named` is the id that it names, `whole` says that it sets a whole
block, `onBlock` that it has a block at all. -/
structure KeepsIdentity (ident : List (String × DocTree String α) → Option String) (named : Option String)
    (whole onBlock : Prop) (s s' : List (String × DocTree String α)) : Prop where
  blocks : ∃ bs bs', blocksIn s = some bs ∧ blocksIn s' = some bs' ∧
    Stable ident Unresolved named whole bs bs' ∧ (¬ onBlock → bs' = bs)
  outside : onBlock → ∀ k, k ≠ "blocks" → Fields.get? s' k = Fields.get? s k

variable {ident : List (String × DocTree String α) → Option String} {s s' : List (String × DocTree String α)}

theorem blocksIn_of_get? {bs : List (List (String × DocTree String α))}
    (h : Fields.get? s "blocks" = some (.arr (bs.map .obj))) : blocksIn s = some bs := by
  simp [blocksIn, h, DocTree.asArr, DocTree.asObjs_map_obj]

theorem blocksIn_congr (h : Fields.get? s' "blocks" = Fields.get? s "blocks") : blocksIn s' = blocksIn s := by
  rw [blocksIn, h, blocksIn]

/-- The list of blocks, created where there is none. -/
theorem get?_blocks_setDefault {bs : List (List (String × DocTree String α))} (h : blocksIn s = some bs) :
    Fields.get? (setDefault s "blocks" (.arr [])) "blocks" = some (.arr (bs.map .obj)) := by
  unfold blocksIn at h
  cases hget : Fields.get? s "blocks" with
  | none =>
    obtain rfl : [] = bs := by simpa [hget] using h
    simp [setDefault, Fields.has, hget]
  | some v =>
    rw [hget] at h
    obtain ⟨xs, harr, hobjs⟩ := Option.bind_eq_some_iff.mp h
    simp [setDefault_of_get? hget, hget, DocTree.asArr_eq_some.mp harr, DocTree.asObjs_eq_some.mp hobjs]

theorem blocksIn_setDefault {bs : List (List (String × DocTree String α))} (h : blocksIn s = some bs) :
    blocksIn (setDefault s "blocks" (.arr [])) = some bs :=
  blocksIn_of_get? (get?_blocks_setDefault h)

/-- A step taken after the list of blocks has been created. -/
theorem KeepsIdentity.of_setDefault {named : Option String} {whole onBlock : Prop}
    {bs : List (List (String × DocTree String α))} (hbs : blocksIn s = some bs)
    (h : KeepsIdentity ident named whole onBlock (setDefault s "blocks" (.arr [])) s') :
    KeepsIdentity ident named whole onBlock s s' where
  blocks := by
    obtain ⟨cs, cs', hcs, hcs', hstable⟩ := h.blocks
    obtain rfl : bs = cs := Option.some.inj ((blocksIn_setDefault hbs).symm.trans hcs)
    exact ⟨bs, cs', hbs, hcs', hstable⟩
  outside hon k hk := (h.outside hon k hk).trans (get?_setDefault_ne hk)

theorem KeepsIdentity.of_unnamed {target : String} {whole onBlock : Prop}
    (h : KeepsIdentity ident (some target) whole onBlock s s')
    (hfresh : ∀ bs, blocksIn s = some bs → some target ∉ bs.map ident) (named : Option String) :
    KeepsIdentity ident named whole onBlock s s' where
  blocks := by
    obtain ⟨bs, bs', hbs, hbs', hstable, hsame⟩ := h.blocks
    exact ⟨bs, bs', hbs, hbs', hstable.of_unnamed (hfresh bs hbs) named, hsame⟩
  outside := h.outside

theorem KeepsIdentity.hasIdentities {named : Option String} {whole onBlock : Prop}
    (h : KeepsIdentity ident named whole onBlock s s') : HasIdentities ident s' := by
  obtain ⟨bs, bs', -, hbs', hstable, -⟩ := h.blocks
  exact ⟨bs', hbs', hstable.identified⟩

/-- A step that leaves the list of blocks alone. -/
theorem keepsIdentity_of_blocks_eq (h : HasIdentities ident s)
    (hblocks : Fields.get? s' "blocks" = Fields.get? s "blocks") {named : Option String} {whole onBlock : Prop}
    (hon : ¬ onBlock) : KeepsIdentity ident named whole onBlock s s' := by
  obtain ⟨bs, hbs, hid⟩ := h
  refine ⟨⟨bs, bs, hbs, ?_, Stable.refl hid named, fun _ => rfl⟩, fun h => absurd h hon⟩
  rw [blocksIn_congr hblocks]
  exact hbs

/-- A step that makes one change in the list of blocks. -/
theorem keepsIdentity_of_touched {bs bs' : List (List (String × DocTree String α))} {target : String}
    {whole onBlock : Prop} (hbs : blocksIn s = some bs) (hid : Identified ident bs)
    (hbs' : Fields.get? s' "blocks" = some (.arr (bs'.map .obj)))
    (htouched : Touched ident Unresolved target whole bs bs') (hon : onBlock)
    (houtside : ∀ k, k ≠ "blocks" → Fields.get? s' k = Fields.get? s k) :
    KeepsIdentity ident (some target) whole onBlock s s' where
  blocks := ⟨bs, bs', hbs, blocksIn_of_get? hbs', htouched.stable hid, fun h => absurd hon h⟩
  outside _ := houtside

end Snapshots

end AgentUE
