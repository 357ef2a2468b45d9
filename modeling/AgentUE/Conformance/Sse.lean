import AgentUE.Python.Sse
import AgentUE.Python.Validation
import AgentUE.TypeScript.Sse

/-!
# Python's SSE messages, read by the TypeScript SDK

`str.splitlines` cuts at more characters than the decoder does. JSON text holds neither CR nor LF nor any
other control character, but U+0085, U+2028 and U+2029 stand in it as they are: a message is read back
exactly when no string of the event holds one of the three.
-/

namespace AgentUE.Conformance

open Data

variable {ν : Type}

/-- The line boundaries of Python that JSON text may hold. -/
def rawBoundaries : List Char := ['\u0085', '\u2028', '\u2029']

/-- An event id that the encoder takes. -/
def IsEventId (eventId : Option String) : Prop := ∀ i, eventId = some i → '\n' ∉ i.toList ∧ '\r' ∉ i.toList

/-- The decoder finds the lines that the encoder has written. -/
theorem splitLines_encoded {lines : List String} (hne : lines ≠ [])
    (hlines : ∀ line ∈ lines, '\n' ∉ line.toList ∧ '\r' ∉ line.toList) :
    TypeScript.splitLines (String.intercalate "\n" lines ++ "\n\n") = lines ++ ["", ""] := by
  have htext : (String.intercalate "\n" lines ++ "\n\n").toList =
      ['\n'].intercalate ((lines ++ ["", ""]).map String.toList) := by
    rw [String.toList_append, String.toList_intercalate, List.map_append,
      Lines.intercalate_append (by simpa using hne) (by simp)]
    rfl
  have hparts : ∀ part ∈ (lines ++ ["", ""]).map String.toList, '\n' ∉ part ∧ '\r' ∉ part := by
    intro part hpart
    obtain ⟨line, hline, rfl⟩ := List.mem_map.mp hpart
    rcases List.mem_append.mp hline with hline | hline
    · exact hlines line hline
    · obtain rfl : line = "" := by simpa using hline
      simp
  rw [TypeScript.splitLines, htext, Lines.pieces_intercalate (by simp) (fun part hpart c hc => ?_)
    (fun part hpart => (hparts part hpart).2) (by decide) (by decide), List.map_map]
  · simp [Function.comp_def]
  · have hnot := (hparts part hpart).1
    simpa using fun h : c = '\n' => hnot (h ▸ hc)

/-- What the decoder makes of an encoded text. -/
theorem sseFields_encoded {payload message : String} {eventId : Option String} (hid : IsEventId eventId)
    (h : Python.encodeSse payload eventId = some message) :
    TypeScript.sseFields message =
      ⟨eventId, if Python.splitlines payload = [] then [""] else Python.splitlines payload⟩ := by
  unfold Python.encodeSse at h
  split at h
  · cases h
  · obtain rfl := Option.some.inj h
    rw [TypeScript.sseFields, splitLines_encoded, TypeScript.foldl_readLine]
    · split <;> simp_all
    · intro line hline
      rcases List.mem_append.mp hline with hline | hline
      · obtain ⟨i, hi, rfl⟩ : ∃ i, eventId = some i ∧ "id: " ++ i = line := by simpa using hline
        simpa using hid i hi
      · obtain ⟨part, hpart, rfl⟩ := List.mem_map.mp hline
        have hplain : ∀ c ∈ part.toList, Python.isLineBoundary c = false := by
          intro c hc
          split at hpart
          · obtain rfl : part = "" := by simpa using hpart
            simp at hc
          · obtain ⟨chars, hchars, rfl⟩ := List.mem_map.mp hpart
            exact Lines.ends_eq_false_of_mem_pieces (Lines.mem_pieces_of_mem_lines hchars) (by simpa using hc)
        have hnot : ∀ c, Python.isLineBoundary c = true → c ∉ part.toList := fun c hc hmem => by
          simp [hplain c hmem] at hc
        simpa using ⟨hnot '\n' (by decide), hnot '\r' (by decide)⟩

/-- The line boundaries in the text of an event are those in its strings. -/
theorem boundaries_toJson (numerals : Python.Numerals ν) (e : Envelope ν) :
    (∀ c ∈ (Python.toJson numerals e).toList, Python.isLineBoundary c = false) ↔
      ∀ s ∈ Python.eventStrings e, ∀ c ∈ s.toList, c ∉ rawBoundaries := by
  have hholds := Python.holds_toJson numerals e
  have hraw : ∀ c ∈ rawBoundaries, 0x80 ≤ c.toNat ∧ Python.isLineBoundary c = true :=
    List.forall_iff_forall_mem.mp (by decide)
  constructor
  · intro h s hs c hc hmem
    obtain ⟨hcode, hboundary⟩ := hraw c hmem
    simp [h c (hholds.mem s hs c hc hcode)] at hboundary
  · intro h c hc
    by_contra hboundary
    have hmem : c ∈ Python.lineBoundaries := by simpa [Python.isLineBoundary] using hboundary
    have hcases : ∀ c ∈ Python.lineBoundaries,
        Python.isSyntaxChar c = false ∧ (0x80 ≤ c.toNat → c ∈ rawBoundaries) :=
      List.forall_iff_forall_mem.mp (by decide)
    obtain ⟨hwritten, hhigh⟩ := hcases c hmem
    rcases hholds.syntax_or_mem c hc with h' | ⟨hcode, s, hs, hcs⟩
    · simp [hwritten] at h'
    · exact h s hs c hcs (hhigh hcode)

/-- Decoding an encoded event gives its JSON text and its id back exactly when no string of the event holds
a line boundary of Python that JSON does not escape. -/
theorem decode_encode_iff (numerals : Python.Numerals ν) (e : Envelope ν) {eventId : Option String}
    (hid : IsEventId eventId) :
    (Python.encodeSse (Python.toJson numerals e) eventId).bind (TypeScript.decodeSse some) =
        some ⟨Python.toJson numerals e, eventId⟩ ↔
      ∀ s ∈ Python.eventStrings e, ∀ c ∈ s.toList, c ∉ rawBoundaries := by
  have hholds := Python.holds_toJson numerals e
  have hcontrol : ∀ c ∈ ['\n', '\r'], c ∉ (Python.toJson numerals e).toList := by
    intro c hc hmem
    have hlow : ∀ c ∈ ['\n', '\r'], Python.isSyntaxChar c = false ∧ c.toNat < 0x80 :=
      List.forall_iff_forall_mem.mp (by decide)
    rcases hholds.syntax_or_mem c hmem with h | ⟨hcode, -⟩
    · simp [(hlow c hc).1] at h
    · exact absurd (hlow c hc).2 (by omega)
  have hne : (Python.toJson numerals e).toList ≠ [] := by simp [Python.toJson]
  rw [← boundaries_toJson numerals e]
  obtain ⟨message, hmessage⟩ : ∃ message, Python.encodeSse (Python.toJson numerals e) eventId = some message := by
    unfold Python.encodeSse
    rw [if_neg]
    · exact ⟨_, rfl⟩
    · cases eventId with
      | none => simp
      | some i => simpa using hid i rfl
  rw [hmessage, Option.bind_some, TypeScript.decodeSse, sseFields_encoded hid hmessage]
  have hlines : ['\n'].intercalate (Lines.lines Python.isLineBoundary '\r' '\n' _) = _ ↔ _ :=
    Lines.intercalate_lines_iff hne (hcontrol '\r' (by simp))
    (hcontrol '\n' (by simp))
  have hjoin : String.intercalate "\n" (Python.splitlines (Python.toJson numerals e)) = Python.toJson numerals e ↔
      ∀ c ∈ (Python.toJson numerals e).toList, Python.isLineBoundary c = false := by
    rw [← hlines, ← String.toList_inj, String.toList_intercalate, Python.splitlines, List.map_map]
    simp [Function.comp_def]
  by_cases hnil : Python.splitlines (Python.toJson numerals e) = []
  · -- no line at all stands for the empty text
    rw [hnil] at hjoin
    simpa [hnil] using hjoin
  · simpa [hnil] using hjoin

/-- A set of a text block. -/
def setsText (content : String) : Envelope ℕ where
  op := .set
  seq := 2
  streamId := none
  ts := none
  mask := none
  eventType := none
  model := none
  meta_ := none
  block := some [("id", .str "b"), ("type", .str "text"), ("content", .str content)]

/-- A line separator in a text comes back as a newline. -/
theorem lineSeparator_is_lost :
    ¬ ∀ (numerals : Python.Numerals ℕ) (e : Envelope ℕ) (eventId : Option String),
      Python.validateOperation e = .ok () → IsEventId eventId →
      (Python.encodeSse (Python.toJson numerals e) eventId).bind (TypeScript.decodeSse some) =
        some ⟨Python.toJson numerals e, eventId⟩ := by
  intro h
  have hroundTrip := h Python.decimal (setsText "a\u2028b") none (by decide) (by intro i hi; cases hi)
  exact absurd hroundTrip (by decide +kernel)

/-- The criterion on a text with an umlaut and a tab, sent with an id. -/
theorem decode_encode_iff_setsText :
    (Python.encodeSse (Python.toJson Python.decimal (setsText "\u00fc\t")) (some "7-0")).bind
        (TypeScript.decodeSse some) =
        some ⟨Python.toJson Python.decimal (setsText "\u00fc\t"), some "7-0"⟩ ↔
      ∀ s ∈ Python.eventStrings (setsText "\u00fc\t"), ∀ c ∈ s.toList, c ∉ rawBoundaries := by
  refine decode_encode_iff Python.decimal (setsText "\u00fc\t") fun i hi => ?_
  obtain rfl : "7-0" = i := Option.some.inj hi
  decide

end AgentUE.Conformance
