import AgentUE.Data.Pieces
import AgentUE.Go.Storage
import Mathlib.Algebra.Order.BigOperators.Group.List
import Mathlib.Order.Bounds.Basic

/-!
# Go SDK: how a block is cut into frames

The search of `Frame` takes the longest prefix at a rune boundary whose escaped form keeps to the budget, so the
frames are a greedy cutting and no cutting within the budget has fewer. What an encoded frame is longer than its
data by is bounded by the prototype envelope, as long as the budget is what is left of `maxBytes` behind it.
-/

namespace AgentUE.Go.Storage

open Data

/-- The length of the escaped form of a text, without its quotes. -/
def escaped (data : List UInt8) : ℕ := ((Utf8.runes data).map Json.encodedRune).sum

/-- Valid text that keeps to the budget when it is escaped. -/
def Fits (budget : ℤ) (data : List UInt8) : Prop := Utf8.Valid data ∧ (escaped data : ℤ) ≤ budget

/-- Where a prefix that keeps to the budget may end. -/
def cuts (remaining : List UInt8) (budget : ℤ) : Set ℕ :=
  {n | n ≤ remaining.length ∧ Utf8.Boundary remaining n ∧ (escaped (remaining.take n) : ℤ) ≤ budget}

/-- `prototype` of `Frame`: the envelope with the largest numbers that a frame may have. -/
def prototype (id : String) (length : ℕ) : FrameBlock :=
  ⟨String.ofList (List.replicate 32 '0'), frameType, id, length, length, []⟩

/-- `budget` of `Frame`: `maxBytes - len(envelope)` in 64 bits. -/
def budgetOf (maxBytes : ℤ) (id : String) (length : ℕ) : ℤ :=
  Int.bmod (maxBytes - encodedFrame (prototype id length)) (2 ^ 64)

/-! ## Escaped lengths -/

theorem utf8Size_le_encodedRune (c : Char) : c.utf8Size ≤ Json.encodedRune (some c) := by
  rw [Json.encodedRune]
  split_ifs with htwo hsix
  · -- the characters with an escape of two letters are encoded in one byte
    rcases htwo with rfl | rfl | rfl | rfl | rfl | rfl | rfl <;> decide
  · have hfour := Char.utf8Size_le_four c
    omega
  · exact Nat.le_refl _

theorem escaped_append {data : List UInt8} (h : Utf8.Valid data) (more : List UInt8) :
    escaped (data ++ more) = escaped data + escaped more := by
  rw [escaped, h.runes_append, List.map_append, List.sum_append, ← escaped, ← escaped]

theorem escaped_of_decodeRune {data rest : List UInt8} {c : Char} (h : Utf8.decodeRune data = some (c, rest)) :
    escaped data = Json.encodedRune (some c) + escaped rest := by
  rw [escaped, Utf8.runes_of_decodeRune h, List.map_cons, List.sum_cons, ← escaped]

/-- Escaping only makes valid text longer. -/
theorem length_le_escaped {data : List UInt8} (h : Utf8.Valid data) : data.length ≤ escaped data := by
  induction h with
  | nil => exact Nat.zero_le _
  | @cons data rest c hrune _ ih =>
    have hlen := Utf8.length_le_of_decodeRune hrune
    have hsize := utf8Size_le_encodedRune c
    rw [escaped_of_decodeRune hrune]
    omega

theorem encodedRune_le_escaped {data : List UInt8} {c : Char} (hc : c ∈ Utf8.chars data) :
    Json.encodedRune (some c) ≤ escaped data := by
  obtain ⟨r, hr, hrc⟩ := List.mem_filterMap.mp hc
  obtain rfl : r = some c := hrc
  exact List.single_le_sum (by simp) _ (List.mem_map_of_mem hr)

theorem Fits.behind {budget : ℤ} (a b : List UInt8) (h : Fits budget (a ++ b)) (ha : Fits budget a) :
    Fits budget b := by
  refine ⟨h.1.of_append ha.1, ?_⟩
  have hlen := h.2
  rw [escaped_append ha.1] at hlen
  omega

/-! ## The search -/

theorem backtrack_le (remaining : List UInt8) (n : ℕ) : backtrack remaining n ≤ n := by
  induction n with
  | zero => exact Nat.le_refl _
  | succ n ih =>
    rw [backtrack]
    split
    · split
      · exact Nat.le_refl _
      · omega
    · exact Nat.le_refl _

/-- No boundary is skipped on the way back. -/
theorem le_backtrack {remaining : List UInt8} {m n : ℕ} (hm : Utf8.Boundary remaining m) (hmn : m ≤ n) :
    m ≤ backtrack remaining n := by
  induction n with
  | zero => exact hmn
  | succ n ih =>
    rw [backtrack]
    split
    · rename_i b hb
      split
      · exact hmn
      · rename_i hstart
        refine ih (Nat.lt_succ_iff.mp (Nat.lt_of_le_of_ne hmn ?_))
        rintro rfl
        exact hstart (hm b hb)
    · exact hmn

theorem boundary_backtrack_of_valid {remaining : List UInt8} (h : Utf8.Valid remaining) (n : ℕ) :
    Utf8.Boundary remaining (backtrack remaining n) := by
  rcases boundary_backtrack remaining n with hzero | hboundary
  · rw [hzero]
    exact h.boundary_zero
  · exact hboundary

/-- A longer prefix has the longer escaped form. -/
theorem escaped_take_mono {remaining : List UInt8} (h : Utf8.Valid remaining) {m n : ℕ}
    (hm : Utf8.Boundary remaining m) (hmn : m ≤ n) :
    escaped (remaining.take m) ≤ escaped (remaining.take n) := by
  have htake : remaining.take n = remaining.take m ++ (remaining.take n).drop m := by
    have happend := (List.take_append_drop m (remaining.take n)).symm
    rwa [List.take_take, Nat.min_eq_left hmn] at happend
  rw [htake, escaped_append (h.cut hm).1]
  exact Nat.le_add_right _ _

/-- The search finds a cut at least as long as the best so far and as every cut of its interval: what does not
fit at an offset fits at no greater one. -/
theorem search_spec {remaining : List UInt8} (hvalid : Utf8.Valid remaining) {budget lo hi : ℤ} {take : ℕ}
    (htake : take ∈ cuts remaining budget) (hhi : hi ≤ remaining.length) :
    search remaining budget lo hi take ∈ cuts remaining budget ∧ take ≤ search remaining budget lo hi take ∧
      ∀ m ∈ cuts remaining budget, lo ≤ m → m ≤ hi → m ≤ search remaining budget lo hi take := by
  fun_induction search remaining budget lo hi take with
  | case1 lo hi take hle mid end_ hfits ih =>
    have hmid : lo ≤ mid ∧ mid ≤ hi := by omega
    have hend : end_ ∈ cuts remaining budget := by
      refine ⟨?_, boundary_backtrack_of_valid hvalid _, ?_⟩
      · have hback : end_ ≤ mid.toNat := backtrack_le remaining _
        omega
      · have hcost : ((Json.encodedString (Utf8.runes (remaining.take end_)) : ℕ) : ℤ) - 2 =
            escaped (remaining.take end_) := by
          rw [Json.encodedString, ← escaped]
          omega
        omega
    have hmax : max take end_ ∈ cuts remaining budget := by
      rcases max_choice take end_ with hchoice | hchoice
      · rwa [hchoice]
      · rwa [hchoice]
    obtain ⟨hmem, hge, hall⟩ := ih hmax hhi
    refine ⟨hmem, (Nat.le_max_left _ _).trans hge, fun m hm hlo hle => ?_⟩
    by_cases hafter : mid + 1 ≤ m
    · exact hall m hm hafter hle
    · have hback : m ≤ end_ := le_backtrack hm.2.1 (by omega)
      exact (hback.trans (Nat.le_max_right _ _)).trans hge
  | case2 lo hi take hle mid end_ hfits ih =>
    have hmid : lo ≤ mid ∧ mid ≤ hi := by omega
    obtain ⟨hmem, hge, hall⟩ := ih htake (by omega)
    refine ⟨hmem, hge, fun m hm hlo hle => ?_⟩
    by_cases hbefore : m ≤ mid - 1
    · exact hall m hm hlo hbefore
    · -- the prefix that did not fit is no longer than this one
      have hback : end_ ≤ m := (backtrack_le remaining _).trans (by omega)
      have hmono : escaped (remaining.take end_) ≤ escaped (remaining.take m) :=
        escaped_take_mono hvalid (boundary_backtrack_of_valid hvalid mid.toNat) hback
      have hcost := hm.2.2
      rw [Json.encodedString, ← escaped] at hfits
      omega
  | case3 lo hi take hle =>
    exact ⟨htake, Nat.le_refl _, fun m _ hlo hle' => by omega⟩

/-- The next frame takes the longest prefix that ends at a boundary and keeps to the budget. -/
theorem isGreatest_nextTake {remaining : List UInt8} (hvalid : Utf8.Valid remaining) {budget : ℤ}
    (hbudget : 0 ≤ budget) : IsGreatest (cuts remaining budget) (nextTake remaining budget) := by
  have hzero : 0 ∈ cuts remaining budget := by
    refine ⟨Nat.zero_le _, hvalid.boundary_zero, ?_⟩
    rw [List.take_zero]
    exact hbudget
  obtain ⟨hmem, -, hall⟩ := @search_spec _ hvalid _ 1 _ _ hzero (Int.min_le_left (remaining.length : ℤ) budget)
  refine ⟨hmem, fun m hm => ?_⟩
  cases m with
  | zero => exact Nat.zero_le _
  | succ m =>
    -- the escaped form is as long as the prefix at least, so the interval holds every cut
    have hlen := length_le_escaped (hvalid.cut hm.2.1).1
    have hle := hm.1
    have hcost := hm.2.2
    rw [List.length_take, Nat.min_eq_left hle] at hlen
    exact hall (m + 1) hm (by omega) (by omega)

/-! ## The loop -/

/-- A frame is at least as long as the first character when all characters fit. -/
theorem nextTake_ne_zero {remaining : List UInt8} (hvalid : Utf8.Valid remaining) (hne : remaining ≠ []) {budget : ℤ}
    (hbudget : 0 ≤ budget) (hfits : ∀ c ∈ Utf8.chars remaining, (Json.encodedRune (some c) : ℤ) ≤ budget) :
    nextTake remaining budget ≠ 0 := by
  cases hvalid with
  | nil => exact absurd rfl hne
  | @cons _ rest c hrune hrest =>
    obtain ⟨a, tail, rfl, -, hmore⟩ := Utf8.decodeRune_eq_some hrune
    have hfirst : Utf8.decodeRune (a :: tail) = some (c, []) := by simpa using hmore []
    have hcut : (a :: tail).length ∈ cuts (a :: tail ++ rest) budget := by
      refine ⟨by simp, fun b hb => ?_, ?_⟩
      · rw [List.getElem?_append_right (Nat.le_refl _), Nat.sub_self] at hb
        exact hrest.boundary_zero b hb
      · have hc : c ∈ Utf8.chars (a :: tail ++ rest) := by
          rw [Utf8.chars, Utf8.runes_of_decodeRune hrune]
          simp
        rw [List.take_left, escaped_of_decodeRune hfirst]
        exact hfits c hc
    have hle := (isGreatest_nextTake (.cons hrune hrest) hbudget).2 hcut
    simp only [List.length_cons] at hle
    omega

/-- The frames that the loop adds are a greedy cutting of what remained. -/
theorem greedy_of_frameLoop {random : ℕ → Option (Vector UInt8 16)} {id : String} {maxBytes budget : ℤ}
    {remaining : List UInt8} {frames frames' : List FrameBlock} (hvalid : Utf8.Valid remaining) (hbudget : 0 ≤ budget)
    (hloop : frameLoop random id maxBytes budget remaining frames = .ok frames') :
    ∃ made, frames' = frames ++ made ∧ Greedy (Fits budget) remaining (made.map FrameBlock.data) := by
  fun_induction frameLoop random id maxBytes budget remaining frames with
  | case1 frames =>
    obtain rfl : frames = frames' := by simpa using hloop
    exact ⟨[], by simp, .nil⟩
  | case2 => cases hloop
  | case3 => cases hloop
  | case4 remaining frames hremaining take htake bytes hbytes ih =>
    obtain ⟨⟨hle, hboundary, hcost⟩, hgreatest⟩ := isGreatest_nextTake hvalid hbudget
    obtain ⟨hfirst, hrest⟩ := hvalid.cut hboundary
    obtain ⟨made, rfl, hgreedy⟩ := ih hrest hloop
    refine ⟨⟨encodeToString bytes.toList, frameType, id, frames.length, 0, remaining.take take⟩ :: made, by simp, ?_⟩
    have hcons : Greedy (Fits budget) (remaining.take take ++ remaining.drop take)
        (remaining.take take :: made.map FrameBlock.data) := by
      refine .cons (by simpa using ⟨htake, hremaining⟩) ⟨hfirst, hcost⟩ (fun p q hpq hp => ?_) hgreedy
      rw [List.take_append_drop] at hpq
      subst hpq
      -- a piece ends at a boundary, so it is one of the cuts of the search
      have hq := (hvalid.of_append hp.1).boundary_zero
      have hcut : p.length ∈ cuts (p ++ q) budget := by
        refine ⟨by simp, fun b hb => ?_, by rw [List.take_left]; exact hp.2⟩
        rw [List.getElem?_append_right (Nat.le_refl _), Nat.sub_self] at hb
        exact hq b hb
      rw [List.length_take, Nat.min_eq_left hle]
      exact hgreatest hcut
    rwa [List.take_append_drop] at hcons

/-- When the random bytes never fail, the loop makes frames or meets a character that is too long. -/
theorem frameLoop_cases {random : ℕ → Option (Vector UInt8 16)} (hrandom : ∀ n, (random n).isSome = true)
    (id : String) (maxBytes budget : ℤ) (remaining : List UInt8) (frames : List FrameBlock) :
    (∃ frames', frameLoop random id maxBytes budget remaining frames = .ok frames') ∨
      frameLoop random id maxBytes budget remaining frames = .error (.characterBudget maxBytes id) := by
  fun_induction frameLoop random id maxBytes budget remaining frames with
  | case1 frames => exact .inl ⟨frames, rfl⟩
  | case2 => exact .inr rfl
  | case3 remaining frames hremaining take htake hnone =>
    have hsome := hrandom frames.length
    rw [hnone] at hsome
    cases hsome
  | case4 remaining frames hremaining take htake bytes hbytes ih => exact ih

/-- The loop makes frames exactly when every character fits. -/
theorem frameLoop_eq_ok_iff {random : ℕ → Option (Vector UInt8 16)} (hrandom : ∀ n, (random n).isSome = true)
    {id : String} {maxBytes budget : ℤ} {remaining : List UInt8} {frames : List FrameBlock}
    (hvalid : Utf8.Valid remaining) (hbudget : 0 ≤ budget) :
    (∃ frames', frameLoop random id maxBytes budget remaining frames = .ok frames') ↔
      ∀ c ∈ Utf8.chars remaining, (Json.encodedRune (some c) : ℤ) ≤ budget := by
  constructor
  · rintro ⟨frames', hloop⟩ c hc
    obtain ⟨made, -, hgreedy⟩ := greedy_of_frameLoop hvalid hbudget hloop
    have hsplits := hgreedy.splits
    rw [← hsplits.flatten, Utf8.mem_chars_flatten fun p hp => (hsplits.piece p hp).1] at hc
    obtain ⟨p, hp, hcp⟩ := hc
    have hrune := encodedRune_le_escaped hcp
    have hpiece := (hsplits.piece p hp).2
    omega
  · intro hfits
    fun_induction frameLoop random id maxBytes budget remaining frames with
    | case1 frames => exact ⟨frames, rfl⟩
    | case2 remaining frames hremaining take htake => exact absurd htake (nextTake_ne_zero hvalid hremaining hbudget hfits)
    | case3 remaining frames hremaining take htake hnone =>
      have hsome := hrandom frames.length
      rw [hnone] at hsome
      cases hsome
    | case4 remaining frames hremaining take htake bytes hbytes ih =>
      obtain ⟨hfirst, hrest⟩ := hvalid.cut (isGreatest_nextTake hvalid hbudget).1.2.1
      refine ih hrest fun c hc => hfits c ?_
      rw [← List.take_append_drop take remaining, hfirst.chars_append, List.mem_append]
      exact .inr hc

/-! ## The frames of a block -/

theorem valid_of_blockIdentity {raw : List UInt8} {id : String} (h : blockIdentity raw = .ok id) :
    Utf8.Valid raw := by
  rw [blockIdentity, seq_eq_ok, check_eq_ok] at h
  exact Utf8.valid_iff.mp h.1

theorem frame_of_blockIdentity {raw : List UInt8} {id : String} (h : blockIdentity raw = .ok id)
    (random : ℕ → Option (Vector UInt8 16)) (maxBytes : ℤ) :
    frame random raw maxBytes =
      if 0 < budgetOf maxBytes id raw.length then
        (frameLoop random id maxBytes (budgetOf maxBytes id raw.length) raw []).map fun frames =>
          frames.map fun f => { f with total := frames.length }
      else .error (.envelopeBudget maxBytes id) := by
  rw [frame, h]
  show (check (decide (0 < budgetOf maxBytes id raw.length)) _ >>= fun _ => _) = _
  by_cases hbudget : 0 < budgetOf maxBytes id raw.length
  · rw [if_pos hbudget, decide_eq_true hbudget]
    rfl
  · rw [if_neg hbudget, decide_eq_false hbudget]
    rfl

/-- Frames are made exactly when there is a budget and every character keeps to it; they are the greedy cutting. -/
theorem frame_eq_ok_iff {random : ℕ → Option (Vector UInt8 16)} (hrandom : ∀ n, (random n).isSome = true)
    {raw : List UInt8} {id : String} (hid : blockIdentity raw = .ok id) (maxBytes : ℤ) :
    (∃ frames, frame random raw maxBytes = .ok frames) ↔
      0 < budgetOf maxBytes id raw.length ∧
        ∀ c ∈ Utf8.chars raw, (Json.encodedRune (some c) : ℤ) ≤ budgetOf maxBytes id raw.length := by
  rw [frame_of_blockIdentity hid]
  by_cases hbudget : 0 < budgetOf maxBytes id raw.length
  · rw [if_pos hbudget, ← frameLoop_eq_ok_iff hrandom (valid_of_blockIdentity hid) (Int.le_of_lt hbudget)]
    cases frameLoop random id maxBytes (budgetOf maxBytes id raw.length) raw [] with
    | ok frames => simp [Except.map, hbudget]
    | error e => simp [Except.map]
  · simp [hbudget]

/-- A block with an identity that gets no frames lacks budget: the envelope does not fit, or a character. -/
theorem frame_cases {random : ℕ → Option (Vector UInt8 16)} (hrandom : ∀ n, (random n).isSome = true)
    {raw : List UInt8} {id : String} (hid : blockIdentity raw = .ok id) (maxBytes : ℤ) :
    (∃ frames, frame random raw maxBytes = .ok frames) ∨
      frame random raw maxBytes = .error (.envelopeBudget maxBytes id) ∨
        frame random raw maxBytes = .error (.characterBudget maxBytes id) := by
  rw [frame_of_blockIdentity hid]
  split
  · rcases frameLoop_cases hrandom id maxBytes (budgetOf maxBytes id raw.length) raw [] with ⟨frames, hloop⟩ | hloop
    · rw [hloop]
      exact .inl ⟨_, rfl⟩
    · rw [hloop]
      exact .inr (.inr rfl)
  · exact .inr (.inl rfl)

theorem greedy_of_frame {random : ℕ → Option (Vector UInt8 16)} {raw : List UInt8} {id : String} {maxBytes : ℤ}
    {frames : List FrameBlock} (hid : blockIdentity raw = .ok id) (h : frame random raw maxBytes = .ok frames) :
    Greedy (Fits (budgetOf maxBytes id raw.length)) raw (frames.map FrameBlock.data) := by
  rw [frame_of_blockIdentity hid] at h
  split at h
  · rename_i hbudget
    cases hloop : frameLoop random id maxBytes (budgetOf maxBytes id raw.length) raw [] with
    | error e => simp [hloop, Except.map] at h
    | ok made =>
      obtain ⟨_, rfl, hgreedy⟩ := greedy_of_frameLoop (valid_of_blockIdentity hid) (Int.le_of_lt hbudget) hloop
      rw [hloop] at h
      obtain rfl := Except.ok.inj h
      rw [List.map_map]
      exact hgreedy
  · cases h

/-- Every frame takes the longest prefix of what remains that ends at a rune boundary and keeps to the budget. So
`Frame` lacks budget exactly when there is none or when some character alone exceeds it, and otherwise makes as few
frames as any cutting at rune boundaries within the budget. -/
theorem frame_longest_and_fewest :
    (∀ (remaining : List UInt8) (budget : ℤ), Utf8.Valid remaining → 0 ≤ budget →
      IsGreatest (cuts remaining budget) (nextTake remaining budget)) ∧
    ∀ (random : ℕ → Option (Vector UInt8 16)) (raw : List UInt8) (id : String) (maxBytes : ℤ),
      (∀ n, (random n).isSome = true) → blockIdentity raw = .ok id →
      let budget := budgetOf maxBytes id raw.length
      let lacksBudget := budget ≤ 0 ∨ ∃ c ∈ Utf8.chars raw, budget < Json.encodedRune (some c)
      ((frame random raw maxBytes = .error (.envelopeBudget maxBytes id) ∨
          frame random raw maxBytes = .error (.characterBudget maxBytes id)) ↔ lacksBudget) ∧
        (¬ lacksBudget → ∃ frames, frame random raw maxBytes = .ok frames ∧
          Greedy (Fits budget) raw (frames.map FrameBlock.data) ∧
            ∀ pieces, Splits (Fits budget) raw pieces → frames.length ≤ pieces.length) := by
  refine ⟨fun remaining budget hvalid hbudget => isGreatest_nextTake hvalid hbudget, ?_⟩
  intro random raw id maxBytes hrandom hid budget lacksBudget
  have hok : (∃ frames, frame random raw maxBytes = .ok frames) ↔ ¬ lacksBudget := by
    rw [frame_eq_ok_iff hrandom hid, not_or, not_exists, Int.not_le]
    simp only [not_and, Int.not_lt]
    rfl
  constructor
  · constructor
    · intro herror
      by_contra hlacks
      obtain ⟨frames, hframes⟩ := hok.mpr hlacks
      rcases herror with herror | herror <;> rw [hframes] at herror <;> cases herror
    · intro hlacks
      exact (frame_cases hrandom hid maxBytes).resolve_left fun hframes => hok.mp hframes hlacks
  · intro hlacks
    obtain ⟨frames, hframes⟩ := hok.mpr hlacks
    have hgreedy := greedy_of_frame hid hframes
    refine ⟨frames, hframes, hgreedy, fun pieces hpieces => ?_⟩
    have hfewest := hgreedy.length_le Fits.behind hpieces
    rwa [List.length_map] at hfewest

/-- The sample has an identity. -/
theorem blockIdentity_sampleBlock : blockIdentity sampleBlock = .ok "b" := by
  rw [← toOption_eq_some]
  decide +kernel

/-- The sample is cut when its budget is six bytes; with three its character of four bytes does not fit. -/
theorem frame_longest_and_fewest_sample :
    nextTake sampleBlock 5 = 4 ∧ IsGreatest (cuts sampleBlock 5) (nextTake sampleBlock 5) ∧
      (∃ frames, frame sampleRandom sampleBlock 107 = .ok frames) ∧
        (frame sampleRandom sampleBlock 104 = .error (.envelopeBudget 104 "b") ∨
          frame sampleRandom sampleBlock 104 = .error (.characterBudget 104 "b")) := by
  have hvalid : Utf8.Valid sampleBlock := Utf8.valid_iff.mp (by decide +kernel)
  obtain ⟨hlongest, hframe⟩ := frame_longest_and_fewest
  refine ⟨by decide +kernel, hlongest sampleBlock 5 hvalid (by decide), ?_, ?_⟩
  · obtain ⟨-, hfewest⟩ := hframe sampleRandom sampleBlock "b" 107 (fun n => rfl) blockIdentity_sampleBlock
    have hall : ((Utf8.chars sampleBlock).all fun c =>
        decide ((Json.encodedRune (some c) : ℤ) ≤ budgetOf 107 "b" sampleBlock.length)) = true := by decide +kernel
    have hlacks : ¬ (budgetOf 107 "b" sampleBlock.length ≤ 0 ∨ ∃ c ∈ Utf8.chars sampleBlock,
        budgetOf 107 "b" sampleBlock.length < Json.encodedRune (some c)) := by
      rintro (hbudget | ⟨c, hc, hlt⟩)
      · exact absurd hbudget (by decide +kernel)
      · exact absurd (of_decide_eq_true (List.all_eq_true.mp hall c hc)) (not_le.mpr hlt)
    obtain ⟨frames, hframes, -⟩ := hfewest hlacks
    exact ⟨frames, hframes⟩
  · obtain ⟨hlacks, -⟩ := hframe sampleRandom sampleBlock "b" 104 (fun n => rfl) blockIdentity_sampleBlock
    exact hlacks.mpr (.inr ⟨'🙂', by decide +kernel, by decide +kernel⟩)

/-! ## The length of an encoded frame -/

/-- The length of a frame's encoding without the escaped form of its data. -/
def envelopeLength (frame : FrameBlock) : ℕ := encodedFrame { frame with data := [] }

theorem encodedFrame_eq (frame : FrameBlock) : encodedFrame frame = envelopeLength frame + escaped frame.data := by
  have hempty : Json.encodedString (Utf8.runes []) = 2 := rfl
  have hdata : Json.encodedString (Utf8.runes frame.data) = 2 + escaped frame.data := rfl
  simp only [envelopeLength, encodedFrame, hempty, hdata]
  omega

/-- A larger number has as many digits at least. -/
theorem length_toString_mono {m n : ℕ} (h : m ≤ n) : (toString (m : ℤ)).length ≤ (toString (n : ℤ)).length := by
  show m.repr.length ≤ n.repr.length
  have hpos : 0 < n.repr.length := Nat.length_repr_pos
  rw [Nat.length_repr_le_iff hpos]
  exact Nat.lt_of_le_of_lt h ((Nat.length_repr_le_iff hpos).mp (Nat.le_refl _))

theorem encodedRune_digitChar {n : ℕ} (h : n < 16) : Json.encodedRune (some (Nat.digitChar n)) = 1 := by
  have hall : ∀ i : Fin 16, Json.encodedRune (some (Nat.digitChar i)) = 1 := by decide
  exact hall ⟨n, h⟩

/-- The id of the prototype is as long as that of every frame. -/
theorem encodedString_prototype (id : String) (length : ℕ) :
    Json.encodedString ((prototype id length).id.toList.map some) = 34 := by
  show Json.encodedString ((String.ofList (List.replicate 32 '0')).toList.map some) = 34
  decide

theorem encodedString_encodeToString (bytes : Vector UInt8 16) :
    Json.encodedString ((encodeToString bytes.toList).toList.map some) = 34 := by
  have hbyte : ∀ bs : List UInt8, ((bs.flatMap fun b =>
      [Nat.digitChar (b.toNat / 16), Nat.digitChar (b.toNat % 16)]).map fun c => Json.encodedRune (some c)).sum =
        2 * bs.length := by
    intro bs
    induction bs with
    | nil => rfl
    | cons b bs ih =>
      have hb := b.toNat_lt
      have hhigh := encodedRune_digitChar (n := b.toNat / 16) (by omega)
      have hlow := encodedRune_digitChar (n := b.toNat % 16) (by omega)
      simp only [List.flatMap_cons, List.cons_append, List.nil_append, List.map_cons, List.sum_cons, hhigh, hlow, ih,
        List.length_cons]
      omega
  have hlen : bytes.toList.length = 16 := by simp
  rw [Json.encodedString, encodeToString, String.toList_ofList, List.map_map]
  show 2 + ((_ : List Char).map fun c => Json.encodedRune (some c)).sum = _
  rw [hbyte, hlen]

/-- The ids of the frames that the loop adds are written from random bytes. -/
theorem ids_of_frameLoop {random : ℕ → Option (Vector UInt8 16)} {id : String} {maxBytes budget : ℤ}
    {remaining : List UInt8} {frames frames' : List FrameBlock}
    (hids : ∀ f ∈ frames, ∃ bytes : Vector UInt8 16, f.id = encodeToString bytes.toList)
    (hloop : frameLoop random id maxBytes budget remaining frames = .ok frames') :
    ∀ f ∈ frames', ∃ bytes : Vector UInt8 16, f.id = encodeToString bytes.toList := by
  fun_induction frameLoop random id maxBytes budget remaining frames with
  | case1 frames =>
    obtain rfl : frames = frames' := by simpa using hloop
    exact hids
  | case2 => cases hloop
  | case3 => cases hloop
  | case4 remaining frames hremaining take htake bytes hbytes ih =>
    refine ih (fun f hf => ?_) hloop
    rcases List.mem_append.mp hf with hf | hf
    · exact hids f hf
    · obtain rfl := List.mem_singleton.mp hf
      exact ⟨bytes, rfl⟩

/-- What distinguishes the envelope of a frame from the prototype is how many digits its numbers have. -/
theorem envelopeLength_eq {frame : FrameBlock} {id : String} (length : ℕ) (htype : frame.type = frameType)
    (hblock : frame.blockId = id) (hid : ∃ bytes : Vector UInt8 16, frame.id = encodeToString bytes.toList) :
    envelopeLength frame + 2 * (toString (length : ℤ)).length =
      encodedFrame (prototype id length) + (toString frame.seq).length + (toString frame.total).length := by
  obtain ⟨bytes, hid⟩ := hid
  have hprototype : (prototype id length).type = frameType ∧ (prototype id length).blockId = id ∧
      (prototype id length).seq = length ∧ (prototype id length).total = length ∧ (prototype id length).data = [] :=
    ⟨rfl, rfl, rfl, rfl, rfl⟩
  obtain ⟨htype', hblock', hseq', htotal', hdata'⟩ := hprototype
  simp only [envelopeLength, encodedFrame, htype, hblock, hid, encodedString_encodeToString, encodedString_prototype,
    htype', hblock', hseq', htotal', hdata']
  omega

/-- A list of non-empty pieces has no more pieces than elements. -/
theorem length_le_length_flatten {α : Type} {pieces : List (List α)} (h : ∀ p ∈ pieces, p ≠ []) :
    pieces.length ≤ pieces.flatten.length := by
  induction pieces with
  | nil => exact Nat.le_refl _
  | cons p pieces ih =>
    obtain ⟨hp, hpieces⟩ := List.forall_mem_cons.mp h
    have hpos := List.length_pos_of_ne_nil hp
    have hrest := ih hpieces
    simp only [List.flatten_cons, List.length_cons, List.length_append]
    omega

/-- The frames of a block: their envelopes are those of the prototype but for the digits of numbers that are no
larger, and their data keeps to the budget. -/
theorem envelopes_of_frame {random : ℕ → Option (Vector UInt8 16)} {raw : List UInt8} {id : String} {maxBytes : ℤ}
    {frames : List FrameBlock} (hid : blockIdentity raw = .ok id) (hframe : frame random raw maxBytes = .ok frames) :
    frames ≠ [] ∧ ∀ f ∈ frames,
      envelopeLength f ≤ encodedFrame (prototype id raw.length) ∧
        encodedFrame (prototype id raw.length) ≤ envelopeLength f + 2 * (toString (raw.length : ℤ)).length ∧
          (escaped f.data : ℤ) ≤ budgetOf maxBytes id raw.length := by
  have hgreedy := greedy_of_frame hid hframe
  have hsplits := hgreedy.splits
  rw [frame_of_blockIdentity hid] at hframe
  split at hframe
  · rename_i hbudget
    cases hloop : frameLoop random id maxBytes (budgetOf maxBytes id raw.length) raw [] with
    | error e => simp [hloop, Except.map] at hframe
    | ok made =>
      rw [hloop] at hframe
      obtain rfl := Except.ok.inj hframe
      have hframed : Framed id raw [] made :=
        framed_frameLoop ⟨by simp, by simp, valid_of_blockIdentity hid, rfl⟩ hloop
      have hids := ids_of_frameLoop (by simp) hloop
      have hjoined : (made.map FrameBlock.data).flatten = raw := by simpa using hframed.joined
      have hcount : made.length ≤ raw.length := by
        have hpieces : ∀ p ∈ made.map FrameBlock.data, p ≠ [] := fun p hp => by
          obtain ⟨f, hf, rfl⟩ := List.mem_map.mp hp
          exact (hframed.data f hf).1
        simpa [hjoined] using length_le_length_flatten hpieces
      refine ⟨?_, fun f hf => ?_⟩
      · -- a block without bytes has no identity
        intro hnil
        rw [List.map_eq_nil_iff] at hnil
        rw [hnil] at hjoined
        subst hjoined
        cases hid
      · have hdata := (hsplits.piece f.data (List.mem_map_of_mem hf)).2
        obtain ⟨g, hg, rfl⟩ := List.mem_map.mp hf
        obtain ⟨i, hi⟩ := List.getElem?_of_mem hg
        obtain ⟨htype, -, hblock, hseq⟩ := hframed.envelope i g hi
        have hlt : i < made.length := (List.getElem?_eq_some_iff.mp hi).1
        have henvelope := @envelopeLength_eq { g with total := (made.length : ℤ) } id raw.length htype hblock (hids g hg)
        have hseqDigits : (toString g.seq).length ≤ (toString (raw.length : ℤ)).length := by
          rw [hseq]
          exact length_toString_mono (by omega)
        have htotalDigits := length_toString_mono hcount
        dsimp only at henvelope
        exact ⟨by omega, by omega, hdata⟩
  · cases hframe

/-- The numbers of 64 bits have nineteen digits at most. -/
theorem length_toString_le {n : ℕ} (h : n < 2 ^ 63) : (toString (n : ℤ)).length ≤ 19 := by
  show n.repr.length ≤ 19
  rw [Nat.length_repr_le_iff (by decide)]
  omega

/-- Every returned frame keeps to `maxBytes` exactly when the subtraction that gives the budget does not wrap
around: below the least integer of 64 bits the budget comes out positive. -/
theorem encodedFrame_le_iff {random : ℕ → Option (Vector UInt8 16)} {raw : List UInt8} {id : String} {maxBytes : ℤ}
    {frames : List FrameBlock} (hlen : raw.length < 2 ^ 63) (hmin : -(2 ^ 63) ≤ maxBytes) (hmax : maxBytes < 2 ^ 63)
    (hid : blockIdentity raw = .ok id) (hframe : frame random raw maxBytes = .ok frames) :
    (∀ f ∈ frames, (encodedFrame f : ℤ) ≤ maxBytes) ↔
      -(2 ^ 63) ≤ maxBytes - encodedFrame (prototype id raw.length) := by
  obtain ⟨hne, hframes⟩ := envelopes_of_frame hid hframe
  constructor
  · intro hall
    obtain ⟨f, hf⟩ := List.exists_mem_of_ne_nil frames hne
    obtain ⟨-, henvelope, -⟩ := hframes f hf
    have hfits := hall f hf
    have hdigits := length_toString_le hlen
    rw [encodedFrame_eq] at hfits
    omega
  · intro hwrap f hf
    obtain ⟨henvelope, -, hdata⟩ := hframes f hf
    have hbudget : budgetOf maxBytes id raw.length = maxBytes - encodedFrame (prototype id raw.length) := by
      rw [budgetOf, Int.bmod_eq_of_le (by omega) (by omega)]
    rw [encodedFrame_eq]
    omega

/-- Frames of the sample keep to 107 bytes. -/
theorem encodedFrame_le_iff_sample : ∃ frames, frame sampleRandom sampleBlock 107 = .ok frames ∧
    ∀ f ∈ frames, (encodedFrame f : ℤ) ≤ 107 := by
  have hsome : (frame sampleRandom sampleBlock 107).toOption.isSome = true := by decide +kernel
  cases hframe : frame sampleRandom sampleBlock 107 with
  | error e => simp [hframe, Except.toOption] at hsome
  | ok frames =>
    have hiff := encodedFrame_le_iff (by decide +kernel) (by decide) (by decide) blockIdentity_sampleBlock hframe
    exact ⟨frames, rfl, hiff.mpr (by decide +kernel)⟩

/-- With the least integer as `maxBytes` the sample is returned in one frame of more than no bytes. -/
theorem frame_least_exceeds : ∃ frames, frame sampleRandom sampleBlock (-(2 ^ 63)) = .ok frames ∧
    ∃ f ∈ frames, ¬ (encodedFrame f : ℤ) ≤ -(2 ^ 63) := by
  have hone : (frame sampleRandom sampleBlock (-(2 ^ 63))).toOption.map List.length = some 1 := by decide +kernel
  cases hframe : frame sampleRandom sampleBlock (-(2 ^ 63)) with
  | error e =>
    rw [hframe] at hone
    cases hone
  | ok frames =>
    rw [hframe] at hone
    have hlen : frames.length = 1 := Option.some.inj hone
    obtain ⟨f, hf⟩ := List.exists_mem_of_length_pos (by omega : 0 < frames.length)
    exact ⟨frames, rfl, f, hf, by omega⟩

end AgentUE.Go.Storage
