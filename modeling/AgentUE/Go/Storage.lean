import AgentUE.Data.Utf8
import AgentUE.Go.Json
import AgentUE.Go.Validation

/-!
# Go SDK: storage framing

Reference: `sdks/go/storage/frame.go`. A block is cut at rune boundaries into frames whose encoding keeps to a
byte budget, and put together again from the frames in any order. The bytes come back unchanged.
-/

namespace AgentUE.Go.Storage

open Data

/-- `FrameType` -/
def frameType : String := "frame"

/-- `FrameBlock`; `Data` is a string of bytes. -/
structure FrameBlock where
  id : String
  type : String
  blockId : String
  seq : ℤ
  total : ℤ
  data : List UInt8
deriving DecidableEq

/-- The errors of the package, with the values that their texts name. -/
inductive FramingError where
  /-- `block contains invalid UTF-8` -/
  | invalidUtf8
  /-- `invalid block JSON` -/
  | invalidJson
  /-- the document is no object -/
  | decode
  /-- what `ui.ValidateBlock` reports -/
  | block (failure : Failure)
  /-- `framing requires a complete non-frame block` -/
  | notComplete
  /-- `frame budget %d cannot hold block %q envelope` -/
  | envelopeBudget (maxBytes : ℤ) (id : String)
  /-- `frame budget %d cannot hold next character of block %q` -/
  | characterBudget (maxBytes : ℤ) (id : String)
  /-- what `rand.Read` reports -/
  | random
  /-- `incomplete frame group` -/
  | incompleteGroup
  /-- `invalid frame %q in block %q` -/
  | invalidFrame (id blockId : String)
  /-- `duplicate frame sequence %d in block %q` -/
  | duplicateSequence (seq : ℤ) (blockId : String)
  /-- `restored block %q does not match frame group %q` -/
  | restoredId (restored blockId : String)
deriving DecidableEq

/-- `blockIdentity` -/
def blockIdentity (raw : List UInt8) : Except FramingError String := do
  check (Utf8.valid raw) .invalidUtf8
  match Json.parse (Utf8.chars raw) with
  | none => .error .invalidJson
  | some document =>
    match Json.toMap document with
    | none => .error .decode
    | some block =>
      match validateBlock block with
      | .error failure => .error (.block failure)
      | .ok () =>
        check (!(Fields.has block "ref" || stringAt block "type" == frameType)) .notComplete
        return stringAt block "id"

/-- The length of `json.Marshal(frame)`. -/
def encodedFrame (frame : FrameBlock) : ℕ :=
  let text (s : String) := Json.encodedString (s.toList.map some)
  "\x7b\"id\":".length + text frame.id + ",\"type\":".length + text frame.type +
    ",\"block_id\":".length + text frame.blockId + ",\"seq\":".length + (toString frame.seq).length +
    ",\"total\":".length + (toString frame.total).length +
    ",\"data\":".length + Json.encodedString (Utf8.runes frame.data) + "\x7d".length

/-- The inner loop of `Frame`: back to the beginning of a rune. -/
def backtrack (remaining : List UInt8) : ℕ → ℕ
  | 0 => 0
  | n + 1 =>
    match remaining[n + 1]? with
    | some b => if Utf8.runeStart b then n + 1 else backtrack remaining n
    -- the end of what remains
    | none => n + 1

/-- The binary search of `Frame` for the longest prefix whose encoding keeps to the budget. -/
def search (remaining : List UInt8) (budget lo hi : ℤ) (take : ℕ) : ℕ :=
  if lo ≤ hi then
    let mid := lo + (hi - lo) / 2
    let end_ := backtrack remaining mid.toNat
    -- the quotes are part of the envelope
    if (Json.encodedString (Utf8.runes (remaining.take end_)) : ℤ) - 2 ≤ budget then
      search remaining budget (mid + 1) hi (max take end_)
    else search remaining budget lo (mid - 1) take
  else take
termination_by (hi + 1 - lo).toNat
decreasing_by all_goals omega

/-- How much of what remains the next frame takes. -/
def nextTake (remaining : List UInt8) (budget : ℤ) : ℕ :=
  search remaining budget 1 (min remaining.length budget) 0

/-- `hex.EncodeToString` -/
def encodeToString (bytes : List UInt8) : String :=
  String.ofList (bytes.flatMap fun b => [Nat.digitChar (b.toNat / 16), Nat.digitChar (b.toNat % 16)])

/-- The loop of `Frame` over what remains; `random` gives the bytes that `rand.Read` fills in each time. -/
def frameLoop (random : ℕ → Option (Vector UInt8 16)) (id : String) (maxBytes budget : ℤ)
    (remaining : List UInt8) (frames : List FrameBlock) : Except FramingError (List FrameBlock) :=
  if remaining = [] then .ok frames
  else
    let take := nextTake remaining budget
    if take = 0 then .error (.characterBudget maxBytes id)
    else match random frames.length with
    | none => .error .random
    | some bytes =>
      -- the total is filled in when all frames have been made
      frameLoop random id maxBytes budget (remaining.drop take)
        (frames ++ [⟨encodeToString bytes.toList, frameType, id, frames.length, 0, remaining.take take⟩])
termination_by remaining.length
decreasing_by
  have hpos := List.length_pos_of_ne_nil ‹¬ remaining = []›
  rw [List.length_drop]
  omega

/-- `Frame`; the difference is one of 64-bit integers. -/
def frame (random : ℕ → Option (Vector UInt8 16)) (block : List UInt8) (maxBytes : ℤ) :
    Except FramingError (List FrameBlock) := do
  let id ← blockIdentity block
  let prototype : FrameBlock := ⟨String.ofList (List.replicate 32 '0'), frameType, id, block.length, block.length, []⟩
  let budget := Int.bmod (maxBytes - encodedFrame prototype) (2 ^ 64)
  check (decide (0 < budget)) (.envelopeBudget maxBytes id)
  let frames ← frameLoop random id maxBytes budget block []
  return frames.map fun f => { f with total := frames.length }

/-- The checks of `Unframe` on one frame, with the ids seen so far. -/
def frameOk (id : String) (total : ℕ) (ids : List String) (f : FrameBlock) : Bool :=
  f.type == frameType && f.id != "" && !ids.elem f.id && f.blockId == id && f.total == (total : ℤ) &&
    decide (0 ≤ f.seq) && decide (f.seq < total) && f.data != [] && Utf8.valid f.data

/-- The loop of `Unframe`: every frame goes to its place. -/
def place (id : String) (total : ℕ) : List FrameBlock → List String → List (List UInt8) →
    Except FramingError (List (List UInt8))
  | [], _, ordered => .ok ordered
  | f :: rest, ids, ordered => do
    check (frameOk id total ids f) (.invalidFrame f.id id)
    check (ordered[f.seq.toNat]? == some []) (.duplicateSequence f.seq id)
    place id total rest (f.id :: ids) (ordered.set f.seq.toNat f.data)

/-- `Unframe` -/
def unframe (frames : List FrameBlock) : Except FramingError (List UInt8) :=
  match frames with
  | [] => .error .incompleteGroup
  | first :: _ => do
    check (first.total == (frames.length : ℤ)) .incompleteGroup
    let ordered ← place first.blockId frames.length frames [] (List.replicate frames.length [])
    let block := ordered.flatten
    let restoredId ← blockIdentity block
    check (restoredId == first.blockId) (.restoredId restoredId first.blockId)
    return block

/-! ## Where the frames are cut -/

/-- The backtracking ends before a byte that may begin a rune, or at the beginning. -/
theorem boundary_backtrack (remaining : List UInt8) (n : ℕ) :
    backtrack remaining n = 0 ∨ Utf8.Boundary remaining (backtrack remaining n) := by
  induction n with
  | zero => exact .inl rfl
  | succ n ih =>
    rw [backtrack]
    cases hget : remaining[n + 1]? with
    | none => exact .inr fun b hb => by rw [hget] at hb; cases hb
    | some b =>
      dsimp only
      split_ifs with hstart
      · exact .inr fun c hc => by rw [hget] at hc; exact Option.some.inj hc ▸ hstart
      · exact ih

/-- The search takes nothing, or it takes what ends at a boundary. -/
theorem boundary_search {remaining : List UInt8} {budget lo hi : ℤ} {take : ℕ}
    (h : take = 0 ∨ Utf8.Boundary remaining take) :
    search remaining budget lo hi take = 0 ∨ Utf8.Boundary remaining (search remaining budget lo hi take) := by
  fun_induction search remaining budget lo hi take with
  | case1 lo hi take hle mid end_ hfits ih =>
    refine ih ?_
    rcases max_choice take end_ with hmax | hmax
    · rw [hmax]
      exact h
    · rw [hmax]
      exact boundary_backtrack remaining _
  | case2 lo hi take hle mid end_ hfits ih => exact ih h
  | case3 lo hi take hle => exact h

/-- The frames that have been made, and what remains of the block. -/
structure Framed (id : String) (raw remaining : List UInt8) (frames : List FrameBlock) : Prop where
  envelope : ∀ (i : ℕ) (f : FrameBlock), frames[i]? = some f → f.type = frameType ∧ f.id ≠ "" ∧ f.blockId = id ∧
    f.seq = i
  data : ∀ f ∈ frames, f.data ≠ [] ∧ Utf8.Valid f.data
  valid : Utf8.Valid remaining
  joined : (frames.map FrameBlock.data).flatten ++ remaining = raw

theorem encodeToString_ne_empty (bytes : Vector UInt8 16) : encodeToString bytes.toList ≠ "" := by
  intro h
  have hlen := congrArg (fun s => s.toList.length) h
  simp [encodeToString, List.length_flatMap] at hlen

theorem Framed.next {id : String} {raw remaining : List UInt8} {frames : List FrameBlock} {budget : ℤ}
    (h : Framed id raw remaining frames) (hremaining : remaining ≠ []) (htake : nextTake remaining budget ≠ 0)
    (bytes : Vector UInt8 16) :
    Framed id raw (remaining.drop (nextTake remaining budget))
      (frames ++ [⟨encodeToString bytes.toList, frameType, id, frames.length, 0,
        remaining.take (nextTake remaining budget)⟩]) := by
  have hboundary := (boundary_search (.inl rfl)).resolve_left htake
  obtain ⟨hfirst, hrest⟩ := h.valid.cut hboundary
  refine ⟨fun i f hf => ?_, fun f hf => ?_, hrest, ?_⟩
  -- an earlier frame, the new one, or none
  · rcases Nat.lt_trichotomy i frames.length with hi | rfl | hi
    · rw [List.getElem?_append_left hi] at hf
      exact h.envelope i f hf
    · obtain rfl : _ = f := by simpa using hf
      exact ⟨rfl, encodeToString_ne_empty bytes, rfl, rfl⟩
    · rw [List.getElem?_eq_none (by simp; omega)] at hf
      cases hf
  · rcases List.mem_append.mp hf with hf | hf
    · exact h.data f hf
    · obtain rfl := List.mem_singleton.mp hf
      exact ⟨by simpa using ⟨htake, hremaining⟩, hfirst⟩
  · rw [List.map_append, List.flatten_append, List.append_assoc]
    simpa using h.joined

theorem framed_frameLoop {random : ℕ → Option (Vector UInt8 16)} {id : String} {maxBytes budget : ℤ}
    {raw remaining : List UInt8} {frames frames' : List FrameBlock} (h : Framed id raw remaining frames)
    (hloop : frameLoop random id maxBytes budget remaining frames = .ok frames') : Framed id raw [] frames' := by
  fun_induction frameLoop random id maxBytes budget remaining frames with
  | case1 frames =>
    obtain rfl : frames = frames' := by simpa using hloop
    exact h
  | case2 => cases hloop
  | case3 => cases hloop
  | case4 remaining frames hremaining take htake bytes hbytes ih =>
    exact ih (h.next hremaining htake bytes) hloop

/-! ## How the frames are put together -/

theorem frameOk_iff {id : String} {total : ℕ} {ids : List String} {f : FrameBlock} :
    frameOk id total ids f = true ↔ frameOk id total [] f = true ∧ f.id ∉ ids := by
  simp only [frameOk, Bool.and_eq_true, Bool.not_eq_true', List.elem_eq_mem, decide_eq_false_iff_not,
    List.not_mem_nil, not_false_eq_true, and_true]
  tauto

/-- Frames that pass the checks, with ids and places of their own, all go to their places. -/
theorem place_eq_ok {id : String} {total : ℕ} {group : List FrameBlock} {ids : List String}
    {ordered : List (List UInt8)} (hok : ∀ f ∈ group, frameOk id total [] f = true)
    (hids : (group.map FrameBlock.id).Nodup) (hnew : ∀ f ∈ group, f.id ∉ ids)
    (hseqs : (group.map fun f => f.seq.toNat).Nodup) (hfree : ∀ f ∈ group, ordered[f.seq.toNat]? = some []) :
    ∃ placed, place id total group ids ordered = .ok placed ∧ placed.length = ordered.length ∧
      ∀ f ∈ group, placed[f.seq.toNat]? = some f.data := by
  -- the induction needs that the places of other frames keep what they hold
  suffices h : ∃ placed, place id total group ids ordered = .ok placed ∧ placed.length = ordered.length ∧
      (∀ f ∈ group, placed[f.seq.toNat]? = some f.data) ∧
      ∀ k, k ∉ group.map (fun f => f.seq.toNat) → placed[k]? = ordered[k]? by
    obtain ⟨placed, hplace, hlen, hdata, -⟩ := h
    exact ⟨placed, hplace, hlen, hdata⟩
  induction group generalizing ids ordered with
  | nil => exact ⟨ordered, rfl, rfl, by simp, fun _ _ => rfl⟩
  | cons f rest ih =>
    obtain ⟨hid, hids⟩ := List.nodup_cons.mp hids
    obtain ⟨hseq, hseqs⟩ := List.nodup_cons.mp hseqs
    have hother : ∀ g ∈ rest, g.seq.toNat ≠ f.seq.toNat := fun g hg hgf =>
      hseq (List.mem_map.mpr ⟨g, hg, hgf⟩)
    have hlt : f.seq.toNat < ordered.length := by
      have hget := hfree f (by simp)
      exact (List.getElem?_eq_some_iff.mp hget).1
    obtain ⟨placed, hplace, hlen, hdata, hrest⟩ := @ih (f.id :: ids) (ordered.set f.seq.toNat f.data)
      (fun g hg => hok g (List.mem_cons_of_mem _ hg)) hids
      (fun g hg hmem => by
        rcases List.mem_cons.mp hmem with hgf | hmem
        · exact hid (List.mem_map.mpr ⟨g, hg, hgf⟩)
        · exact hnew g (List.mem_cons_of_mem _ hg) hmem)
      hseqs
      (fun g hg => by
        rw [List.getElem?_set_ne (hother g hg).symm]
        exact hfree g (List.mem_cons_of_mem _ hg))
    refine ⟨placed, ?_, by rw [hlen, List.length_set], fun g hg => ?_, fun k hk => ?_⟩
    · have hcheck : frameOk id total ids f = true := frameOk_iff.mpr ⟨hok f (by simp), hnew f (by simp)⟩
      have hplaceFree : (ordered[f.seq.toNat]? == some []) = true := by simp [hfree f (by simp)]
      rw [place, seq_eq_ok, seq_eq_ok, check_eq_ok, check_eq_ok]
      exact ⟨hcheck, hplaceFree, hplace⟩
    · rcases List.mem_cons.mp hg with rfl | hg
      · rw [hrest _ hseq, List.getElem?_set_self hlt]
      · exact hdata g hg
    · simp only [List.map_cons, List.mem_cons, not_or] at hk
      rw [hrest k hk.2, List.getElem?_set_ne (Ne.symm hk.1)]

theorem frame_eq_ok {random : ℕ → Option (Vector UInt8 16)} {raw : List UInt8} {maxBytes : ℤ}
    {frames : List FrameBlock} (h : frame random raw maxBytes = .ok frames) :
    ∃ id made, blockIdentity raw = .ok id ∧ Framed id raw [] made ∧
      frames = made.map fun f => { f with total := made.length } := by
  rw [frame, bind_eq_ok] at h
  obtain ⟨id, hid, h⟩ := h
  rw [seq_eq_ok, bind_eq_ok] at h
  obtain ⟨-, made, hmade, h⟩ := h
  have hvalid : Utf8.Valid raw := by
    rw [blockIdentity, seq_eq_ok, check_eq_ok] at hid
    exact Utf8.valid_iff.mp hid.1
  have hbegin : Framed id raw raw [] := ⟨by simp, by simp, hvalid, rfl⟩
  exact ⟨id, made, hid, framed_frameLoop hbegin hmade, by simpa [pure, Except.pure] using h.symm⟩

/-- A whole group in its order: every frame passes the checks and stands at its place. -/
structure Complete (id : String) (frames : List FrameBlock) : Prop where
  seq : ∀ (i : ℕ) (f : FrameBlock), frames[i]? = some f → f.seq = i
  ok : ∀ f ∈ frames, frameOk id frames.length [] f = true
  ids : (frames.map FrameBlock.id).Nodup

theorem Complete.seqs {id : String} {frames : List FrameBlock} (h : Complete id frames) :
    frames.map (fun f => f.seq.toNat) = List.range frames.length := by
  refine List.ext_getElem? fun i => ?_
  rw [List.getElem?_map]
  cases hi : frames[i]? with
  | none =>
    rw [List.getElem?_eq_none (by simpa using hi)]
    rfl
  | some f =>
    have hlt := (List.getElem?_eq_some_iff.mp hi).1
    rw [List.getElem?_range hlt, Option.map_some, h.seq i f hi, Int.toNat_natCast]

/-- In whatever order the frames arrive, their data is put together in the order of the frames. -/
theorem Complete.place_of_perm {id : String} {frames group : List FrameBlock} (h : Complete id frames)
    (hgroup : group.Perm frames) :
    place id group.length group [] (List.replicate group.length []) = .ok (frames.map FrameBlock.data) := by
  have hcount : group.length = frames.length := hgroup.length_eq
  have hok : ∀ f ∈ group, frameOk id group.length [] f = true := fun f hf => by
    rw [hcount]
    exact h.ok f (hgroup.mem_iff.mp hf)
  have hids : (group.map FrameBlock.id).Nodup := (hgroup.map _).nodup_iff.mpr h.ids
  have hseqs : (group.map fun f => f.seq.toNat).Nodup := by
    rw [(hgroup.map _).nodup_iff, h.seqs]
    exact List.nodup_range
  -- the places are those of a range, so each of them is there and still empty
  have hfree : ∀ f ∈ group, (List.replicate group.length ([] : List UInt8))[f.seq.toNat]? = some [] := fun f hf => by
    have hmem : f.seq.toNat ∈ List.range frames.length :=
      h.seqs ▸ List.mem_map.mpr ⟨f, hgroup.mem_iff.mp hf, rfl⟩
    rw [List.getElem?_replicate_of_lt (by rw [hcount]; exact List.mem_range.mp hmem)]
  have hnew : ∀ f ∈ group, f.id ∉ [] := fun _ _ => List.not_mem_nil
  obtain ⟨placed, hplace, hlen, hplaced⟩ := place_eq_ok hok hids hnew hseqs hfree
  have hall : placed = frames.map FrameBlock.data := by
    refine List.ext_getElem? fun i => ?_
    rw [List.getElem?_map]
    cases hi : frames[i]? with
    | none =>
      have hout : placed.length ≤ i := by
        rw [hlen, List.length_replicate, hcount]
        simpa using hi
      rw [List.getElem?_eq_none hout]
      rfl
    | some f =>
      have hf := hplaced f (hgroup.mem_iff.mpr (List.mem_of_getElem? hi))
      rw [h.seq i f hi, Int.toNat_natCast] at hf
      exact hf
  rw [hplace, hall]

theorem Complete.unframe_of_perm {id : String} {frames group : List FrameBlock} (h : Complete id frames)
    (hne : frames ≠ []) (hid : blockIdentity (frames.map FrameBlock.data).flatten = .ok id)
    (hgroup : group.Perm frames) : unframe group = .ok (frames.map FrameBlock.data).flatten := by
  cases group with
  | nil => exact absurd hgroup.nil_eq.symm hne
  | cons first rest =>
    have hplace := h.place_of_perm hgroup
    have hfirst := h.ok first (hgroup.mem_iff.mp (by simp))
    simp only [frameOk, Bool.and_eq_true, beq_iff_eq] at hfirst
    obtain ⟨⟨⟨⟨⟨⟨-, hblock⟩, htotal⟩, -⟩, -⟩, -⟩, -⟩ := hfirst
    rw [unframe, seq_eq_ok, check_eq_ok, bind_eq_ok]
    refine ⟨by simpa [hgroup.length_eq] using htotal, _, by rw [hblock]; exact hplace, ?_⟩
    rw [bind_eq_ok]
    refine ⟨id, hid, ?_⟩
    rw [seq_eq_ok, check_eq_ok]
    exact ⟨by simp [hblock], rfl⟩

/-- The frames that the loop has made are a whole group once they know how many they are. -/
theorem Framed.complete {id : String} {raw : List UInt8} {frames : List FrameBlock} (h : Framed id raw [] frames)
    (hids : (frames.map FrameBlock.id).Nodup) :
    Complete id (frames.map fun f => { f with total := (frames.length : ℤ) }) := by
  refine ⟨fun i f hf => ?_, fun f hf => ?_, ?_⟩
  · rw [List.getElem?_map, Option.map_eq_some_iff] at hf
    obtain ⟨g, hg, rfl⟩ := hf
    exact (h.envelope i g hg).2.2.2
  · obtain ⟨g, hg, rfl⟩ := List.mem_map.mp hf
    obtain ⟨i, hi⟩ := List.getElem?_of_mem hg
    obtain ⟨htype, hne, hblock, hseq⟩ := h.envelope i g hi
    obtain ⟨hnil, hvalid⟩ := h.data g hg
    have hlt : i < frames.length := (List.getElem?_eq_some_iff.mp hi).1
    simp [frameOk, htype, hne, hblock, hseq, hlt, hnil, Utf8.valid_iff.mpr hvalid]
  · rw [List.map_map]
    exact hids

/-- The frames of a block hold valid text, at least a byte each, and give the bytes of the block back in
every order. -/
theorem unframe_of_perm_frame {random : ℕ → Option (Vector UInt8 16)} {raw : List UInt8} {maxBytes : ℤ}
    {frames : List FrameBlock} (hframe : frame random raw maxBytes = .ok frames)
    (hids : (frames.map FrameBlock.id).Nodup) :
    (∀ f ∈ frames, f.data ≠ [] ∧ Utf8.valid f.data = true) ∧
      ∀ group : List FrameBlock, group.Perm frames → unframe group = .ok raw := by
  obtain ⟨id, made, hid, hframed, rfl⟩ := frame_eq_ok hframe
  have hcomplete := hframed.complete (by rw [List.map_map] at hids; exact hids)
  have hraw : ((made.map fun f => { f with total := (made.length : ℤ) }).map FrameBlock.data).flatten = raw := by
    rw [List.map_map]
    simpa [Function.comp_def] using hframed.joined
  refine ⟨fun f hf => ?_, fun group hgroup => ?_⟩
  · have hok := hcomplete.ok f hf
    simp only [frameOk, Bool.and_eq_true] at hok
    exact ⟨by simpa using hok.1.2, hok.2⟩
  -- a block without bytes has no identity, so there are frames
  · have hne : (made.map fun f => { f with total := (made.length : ℤ) }) ≠ [] := by
      intro hnil
      rw [hnil] at hraw
      subst hraw
      cases hid
    rw [← hraw]
    exact hcomplete.unframe_of_perm hne (hraw ▸ hid) hgroup

/-- A block whose type is a character of three bytes and one of four. -/
def sampleBlock : List UInt8 := "\x7b\"id\":\"b\",\"type\":\"你🙂\"\x7d".toUTF8.toList

def sampleRandom (n : ℕ) : Option (Vector UInt8 16) := some (Vector.replicate 16 (UInt8.ofNat n))

/-- The data of the frames of the sample: the two characters stand in frames of their own. -/
theorem unframe_of_perm_frame_reversed : ∃ frames, frame sampleRandom sampleBlock 107 = .ok frames ∧
    frames.map (fun f => f.data.length) = [4, 4, 4, 5, 4, 5, 1] ∧ unframe frames.reverse = .ok sampleBlock := by
  have hsome : (frame sampleRandom sampleBlock 107).toOption.isSome = true := by decide +kernel
  cases hframe : frame sampleRandom sampleBlock 107 with
  | error e => simp [hframe, Except.toOption] at hsome
  | ok frames =>
    have hids : (((frame sampleRandom sampleBlock 107).toOption.getD []).map FrameBlock.id).Nodup := by decide +kernel
    have hlengths : ((frame sampleRandom sampleBlock 107).toOption.getD []).map (fun f => f.data.length) =
        [4, 4, 4, 5, 4, 5, 1] := by decide +kernel
    rw [hframe] at hids hlengths
    exact ⟨frames, rfl, hlengths, (unframe_of_perm_frame hframe hids).2 _ frames.reverse_perm⟩

end AgentUE.Go.Storage
