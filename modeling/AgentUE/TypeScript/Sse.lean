import AgentUE.Data.Lines
import AgentUE.Data.Text

/-!
# TypeScript SDK: SSE messages

Reference: `sdks/typescript/src/ui/sse.ts`. A line ends at LF or CRLF; one space after the
colon belongs to the framing.
-/

namespace AgentUE.TypeScript

open Data

/-- `message.split(/\r?\n/)` -/
def splitLines (message : String) : List String :=
  (Lines.pieces (· == '\n') '\r' '\n' message.toList).map String.ofList

/-- The two variables of the loop. -/
structure SseFields where
  eventId : Option String
  data : List String
deriving DecidableEq

/-- One line of a message. -/
def SseFields.readLine (fields : SseFields) (rawLine : String) : SseFields :=
  if rawLine = "" || Text.hasPrefix rawLine ":" then fields
  else
    let parts := (Text.cut rawLine ':').getD (rawLine, "")
    let value := Text.dropPrefix parts.2 " "
    if parts.1 = "id" then { fields with eventId := some value }
    else if parts.1 = "data" then { fields with data := fields.data ++ [value] }
    else fields

/-- The loop over the lines of a message. -/
def sseFields (message : String) : SseFields := (splitLines message).foldl SseFields.readLine ⟨none, []⟩

/-- `SseMessage`, with the event as `parsePatchEvent` has returned it. -/
structure SseMessage (τ : Type) where
  event : τ
  eventId : Option String
deriving DecidableEq

/-- `decodeSse`; `none` is the exception for a message without data, or that of `parsePatchEvent`. -/
def decodeSse {τ : Type} (parsePatchEvent : String → Option τ) (message : String) : Option (SseMessage τ) :=
  let fields := sseFields message
  if fields.data = [] then none
  else (parsePatchEvent (String.intercalate "\n" fields.data)).map fun event => ⟨event, fields.eventId⟩

/-- `encodeSse`; `none` is the exception for an id with a line break, or that of `serializePatchEvent`. -/
def encodeSse {τ : Type} (serializePatchEvent : τ → Option String) (event : String ⊕ τ) (eventId : Option String) :
    Option String :=
  if eventId.any fun id => Text.contains id '\n' || Text.contains id '\r' then none
  else
    (event.elim some serializePatchEvent).map fun payload =>
      String.intercalate "\n"
        ((eventId.map fun id => "id: " ++ id).toList ++ (splitLines payload).map fun line => "data: " ++ line) ++ "\n\n"

/-! ## Lines that an encoder writes -/

variable {fields : SseFields}

/-- A field with its value behind a colon and a space. -/
theorem readLine_field {n r : String} (hname : n.toList = r.toList ++ [':'])
    (hroot : Text.contains r ':' = false) (hfirst : Text.hasPrefix n ":" = false) (value : String) :
    fields.readLine (n ++ " " ++ value) =
      if r = "id" then { fields with eventId := some value }
      else if r = "data" then { fields with data := fields.data ++ [value] }
      else fields := by
  have hcut : Text.cut (n ++ (" " ++ value)) ':' = some (r, " " ++ value) := by
    rw [Text.cut_of_hasPrefix hname hroot (Text.hasPrefix_append _ _), Text.dropPrefix_append]
  have hne : n ++ (" " ++ value) ≠ "" := by
    intro h
    have := congrArg String.toList h
    simp [hname] at this
  have hcolon : Text.hasPrefix (n ++ (" " ++ value)) ":" = false := by
    obtain ⟨c, rest, hlist⟩ : ∃ c rest, n.toList = c :: rest :=
      List.exists_cons_of_ne_nil (by simp [hname])
    simp only [Text.hasPrefix, hlist] at hfirst ⊢
    simpa [hlist, List.isPrefixOf] using hfirst
  unfold SseFields.readLine
  rw [String.append_assoc]
  simp [hne, hcolon, hcut, Text.dropPrefix_append]

theorem readLine_id (value : String) :
    fields.readLine ("id: " ++ value) = { fields with eventId := some value } :=
  readLine_field (n := "id:") (r := "id") rfl (by decide) (by decide) value

theorem readLine_data (value : String) :
    fields.readLine ("data: " ++ value) = { fields with data := fields.data ++ [value] } :=
  readLine_field (n := "data:") (r := "data") rfl (by decide) (by decide) value

/-- A whole message: an optional id, the data lines and the two ends of the last line. -/
theorem foldl_readLine (eventId : Option String) (data : List String) :
    ((eventId.map fun i => "id: " ++ i).toList ++ (data.map fun line => "data: " ++ line) ++ ["", ""]).foldl
      SseFields.readLine ⟨none, []⟩ = ⟨eventId, data⟩ := by
  have hdata : ∀ fields : SseFields, (data.map fun line => "data: " ++ line).foldl SseFields.readLine fields =
      { fields with data := fields.data ++ data } := by
    induction data with
    | nil => simp
    | cons line data ih =>
      intro fields
      rw [List.map_cons, List.foldl_cons, readLine_data, ih]
      simp
  rw [List.foldl_append, List.foldl_append, hdata]
  cases eventId with
  | none => rfl
  | some i =>
    simp only [Option.map_some, Option.toList_some, List.foldl_cons, List.foldl_nil, readLine_id]
    rfl

end AgentUE.TypeScript
