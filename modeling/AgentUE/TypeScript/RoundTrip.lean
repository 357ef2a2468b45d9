import AgentUE.TypeScript.Events
import AgentUE.TypeScript.Sse

/-!
# TypeScript SDK: an SSE message is read back

The encoder cuts a payload at LF and CRLF, the decoder cuts once more and joins the lines with LF. On the way a CR
before a line end is lost, and with it nothing that JSON means: a CR in a JSON text stands between two tokens.
-/

namespace AgentUE.TypeScript

open Data

/-! ## The lines of a message -/

/-- A line as the decoder finds it. -/
def chopLine (line : String) : String := String.ofList (Lines.chop '\r' line.toList)

theorem chopLine_append {name : String} (h : ∀ c, name.toList.getLast? = some c → c ≠ '\r') (value : String) :
    chopLine (name ++ value) = name ++ chopLine value := by
  rw [chopLine, String.toList_append, Lines.chop_append h, String.ofList_append, String.ofList_toList]
  rfl

theorem chopLine_of_not_mem {line : String} (h : '\r' ∉ line.toList) : chopLine line = line := by
  rw [chopLine, Lines.chop_of_not_mem h, String.ofList_toList]

theorem splitLines_ne_nil (text : String) : splitLines text ≠ [] := by
  simpa [splitLines] using Lines.pieces_ne_nil text.toList

/-- No line holds an LF. -/
theorem not_mem_of_mem_splitLines {text line : String} (h : line ∈ splitLines text) : '\n' ∉ line.toList := by
  obtain ⟨piece, hpiece, rfl⟩ := List.mem_map.mp h
  rw [String.toList_ofList]
  intro hmem
  have hends := Lines.ends_eq_false_of_mem_pieces hpiece hmem
  simp at hends

/-- The decoder finds the lines of an encoder, chopped. -/
theorem splitLines_joined {lines : List String} (h : ∀ line ∈ lines, '\n' ∉ line.toList) (hne : lines ≠ []) :
    splitLines (String.intercalate "\n" lines ++ "\n\n") = lines.map chopLine ++ ["", ""] := by
  have htext : (String.intercalate "\n" lines ++ "\n\n").toList =
      ['\n'].intercalate ((lines.map String.toList ++ [[]]) ++ [[]]) := by
    rw [String.toList_append, String.toList_intercalate, List.append_assoc,
      Lines.intercalate_append (by simpa using hne) (by simp)]
    rfl
  have hends : ∀ part ∈ lines.map String.toList ++ [[]], ∀ c ∈ part, (c == '\n') = false := by
    intro part hpart c hc
    rcases List.mem_append.mp hpart with hpart | hpart
    · obtain ⟨line, hline, rfl⟩ := List.mem_map.mp hpart
      simpa using fun heq : c = '\n' => h line hline (heq ▸ hc)
    · obtain rfl : part = [] := by simpa using hpart
      cases hc
  rw [splitLines, htext, Lines.pieces_intercalate_concat hends (by simp) (by simp) (by decide) (by decide)]
  simp [chopLine, Function.comp_def, Lines.chop]

/-- What the decoder makes of an encoded payload. -/
theorem sseFields_encoded {eventId : Option String}
    (hid : ∀ id, eventId = some id → '\n' ∉ id.toList ∧ '\r' ∉ id.toList) (payload : String) :
    sseFields (String.intercalate "\n" ((eventId.map fun id => "id: " ++ id).toList ++
        (splitLines payload).map fun line => "data: " ++ line) ++ "\n\n") =
      ⟨eventId, (splitLines payload).map chopLine⟩ := by
  have hlines : ∀ line ∈ (eventId.map fun id => "id: " ++ id).toList ++
      (splitLines payload).map (fun line => "data: " ++ line), '\n' ∉ line.toList := by
    intro line hline
    rcases List.mem_append.mp hline with hline | hline
    · obtain ⟨id, hi, rfl⟩ : ∃ id, eventId = some id ∧ "id: " ++ id = line := by simpa using hline
      simpa using (hid id hi).1
    · obtain ⟨part, hpart, rfl⟩ := List.mem_map.mp hline
      simpa using not_mem_of_mem_splitLines hpart
  have hchop : ((eventId.map fun id => "id: " ++ id).toList ++
      (splitLines payload).map fun line => "data: " ++ line).map chopLine =
      (eventId.map fun id => "id: " ++ id).toList ++
        ((splitLines payload).map chopLine).map fun line => "data: " ++ line := by
    rw [List.map_append, List.map_map, List.map_map]
    congr 1
    · cases eventId with
      | none => rfl
      | some id =>
        have hplain : '\r' ∉ ("id: " ++ id).toList := by simpa using (hid id rfl).2
        simp [chopLine_of_not_mem hplain]
    · exact List.map_congr_left fun line _ => chopLine_append (by simp) line
  rw [sseFields, splitLines_joined hlines (by simp [splitLines_ne_nil]), hchop, foldl_readLine]

/-! ## JSON texts -/

/-- `parsePatchEvent` on a text, with `JSON.parse` as `parse`; `none` is the exception. -/
def parseText (parse : String → Option (Json Number)) (text : String) : Option Unknown :=
  (parse text).bind fun v => (Unknown.parsePatchEvent (ofJson v)).toOption

/-- `serializePatchEvent`, with `JSON.stringify` as `stringify`. -/
def serializePatchEvent (stringify : Json Number → String) (event : Unknown) : Option String :=
  (Unknown.parsePatchEvent event).toOption.map fun v => stringify (toJson v)

section

variable {parse : String → Option (Json Number)}

/-- Without some CR a JSON text means the same. -/
theorem parse_of_drops (hcr : ∀ a b v, parse (String.ofList (a ++ '\r' :: b)) = some v →
      parse (String.ofList (a ++ b)) = some v) {text text' : List Char} (h : Lines.Drops '\r' text text')
    (a : List Char) {v : Json Number} (hparse : parse (String.ofList (a ++ text)) = some v) :
    parse (String.ofList (a ++ text')) = some v := by
  induction h generalizing a with
  | nil => exact hparse
  | keep c _ ih =>
    rw [List.append_cons] at hparse ⊢
    exact ih (a ++ [c]) hparse
  | drop _ ih => exact ih a (hcr a _ v hparse)

/-- A text that `parsePatchEvent` accepts comes back as the event. -/
theorem decodeSse_encodeSse_text (hcr : ∀ a b v, parse (String.ofList (a ++ '\r' :: b)) = some v →
      parse (String.ofList (a ++ b)) = some v) {eventId : Option String}
    (hid : ∀ id, eventId = some id → '\n' ∉ id.toList ∧ '\r' ∉ id.toList)
    (stringify : Json Number → String) {event : String ⊕ Unknown} {text : String} {value : Unknown}
    (hevent : event.elim some (serializePatchEvent stringify) = some text)
    (htext : parseText parse text = some value) :
    (encodeSse (serializePatchEvent stringify) event eventId).bind (decodeSse (parseText parse)) =
      some ⟨value, eventId⟩ := by
  have hplain : (eventId.any fun id => Text.contains id '\n' || Text.contains id '\r') = false := by
    cases eventId with
    | none => rfl
    | some id => simpa [Text.contains] using hid id rfl
  have hjoined : parseText parse (String.intercalate "\n" ((splitLines text).map chopLine)) = some value := by
    obtain ⟨v, hv, hvalue⟩ := Option.bind_eq_some_iff.mp htext
    have hdrops : Lines.Drops '\r' text.toList
        (['\n'].intercalate ((Lines.pieces (· == '\n') '\r' '\n' text.toList).map (Lines.chop '\r'))) :=
      Lines.drops_intercalate_chop (by simp) text.toList
    have hsame := parse_of_drops hcr hdrops [] (by rwa [List.nil_append, String.ofList_toList])
    have hlist : String.intercalate "\n" ((splitLines text).map chopLine) = String.ofList
        (['\n'].intercalate ((Lines.pieces (· == '\n') '\r' '\n' text.toList).map (Lines.chop '\r'))) := by
      rw [← String.toList_inj, String.toList_intercalate]
      simp [splitLines, chopLine, Function.comp_def]
    rw [parseText, hlist, ← List.nil_append (['\n'].intercalate _), hsame]
    exact hvalue
  rw [encodeSse, hplain, if_neg (by simp), hevent, Option.map_some, Option.bind_some, decodeSse,
    sseFields_encoded hid text]
  simp [splitLines_ne_nil, hjoined]

/-- Where a CR in a JSON text, which stands between two tokens, is insignificant: an event that `parsePatchEvent`
accepts and a JSON text of one both come back, with any id that has no line break. `JSON.parse` has to read what
`JSON.stringify` makes of the event. -/
theorem decodeSse_encodeSse (parse : String → Option (Json Number)) (stringify : Json Number → String)
    (hcr : ∀ a b v, parse (String.ofList (a ++ '\r' :: b)) = some v → parse (String.ofList (a ++ b)) = some v)
    {eventId : Option String} (hid : ∀ id, eventId = some id → '\n' ∉ id.toList ∧ '\r' ∉ id.toList) :
    (∀ v, Unknown.Accepted (ofJson v) → parse (stringify v) = some v →
      (encodeSse (serializePatchEvent stringify) (.inr (ofJson v)) eventId).bind (decodeSse (parseText parse)) =
        some ⟨ofJson v, eventId⟩) ∧
    (∀ text event, parseText parse text = some event →
      (encodeSse (serializePatchEvent stringify) (.inl text) eventId).bind (decodeSse (parseText parse)) =
        some ⟨event, eventId⟩) := by
  constructor
  · intro v haccepted hparse
    have hpayload : Sum.elim some (serializePatchEvent stringify) (.inr (ofJson v)) = some (stringify v) := by
      rw [Sum.elim_inr, serializePatchEvent, haccepted]
      simp [Except.toOption, toJson_ofJson]
    refine decodeSse_encodeSse_text hcr hid stringify hpayload ?_
    rw [parseText, hparse, Option.bind_some, haccepted]
    rfl
  · intro text event htext
    exact decodeSse_encodeSse_text hcr hid stringify rfl htext

end

/-- A ping and its text. -/
def pings : Json Number := .obj [("op", .str "ping"), ("seq", .num (some 3))]

def pingText : String := "\x7b\"op\":\"ping\",\"seq\":3\x7d"

/-- The text with breaks and indentation between its tokens. -/
def brokenPingText : String := "\x7b\r\r\n\n  \"op\":\r\"ping\",\n \"seq\"\n:\r\n3\x7d\r"

/-- `JSON.parse` on the texts of this ping. -/
def parsePing (text : String) : Option (Json Number) :=
  if String.ofList (text.toList.filter fun c => c != '\r' && c != '\n' && c != ' ') = pingText then some pings else none

/-- An id may begin with a space or a colon. -/
theorem decodeSse_encodeSse_pings :
    (encodeSse (serializePatchEvent fun _ => pingText) (.inr (ofJson pings)) (some " :1")).bind
        (decodeSse (parseText parsePing)) = some ⟨ofJson pings, some " :1"⟩ ∧
      (encodeSse (serializePatchEvent fun _ => pingText) (.inl brokenPingText) (some " :1")).bind
        (decodeSse (parseText parsePing)) = some ⟨ofJson pings, some " :1"⟩ := by
  have hcr : ∀ a b v, parsePing (String.ofList (a ++ '\r' :: b)) = some v →
      parsePing (String.ofList (a ++ b)) = some v := by
    intro a b v h
    simpa [parsePing] using h
  obtain ⟨hevent, htext⟩ := decodeSse_encodeSse parsePing (fun _ => pingText) hcr
    (show ∀ id, some " :1" = some id → '\n' ∉ id.toList ∧ '\r' ∉ id.toList by simp)
  exact ⟨hevent pings (by decide +kernel) (by decide +kernel), htext brokenPingText (ofJson pings) (by decide +kernel)⟩

end AgentUE.TypeScript
