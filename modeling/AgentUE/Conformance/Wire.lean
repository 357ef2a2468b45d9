import AgentUE.Conformance.Clients
import AgentUE.Conformance.Sse
import AgentUE.Python.Texts
import AgentUE.TypeScript.RoundTrip

/-!
# From a Python producer to a TypeScript client

The whole way of an event: `PatchEvent.to_json`, `encode_sse`, the message, `decodeSse`, `parsePatchEvent` and
`applyPatch`. What the client holds after the messages of a stream is what the Python reducer makes of its events.
-/

namespace AgentUE.Conformance

open Data
open TypeScript (World Shaped Number Unknown Encodes ofJson ofJsonObject)

/-! ## Events that have been parsed -/

/-- The natural number that a number of the language is. -/
def naturalOf : Json Number → Option ℕ
  | .num (some q) => if q.den = 1 ∧ 0 ≤ q then some q.num.toNat else none
  | _ => none

/-- The envelope whose members an object has, as `applyPatch` reads them from an accepted event. -/
def envelopeOf (members : JsonObject Number) : Option (Envelope Number) := do
  let op ← ((Fields.get? members "op").bind DocTree.asStr).bind Unknown.patchOp
  let seq ← (Fields.get? members "seq").bind naturalOf
  return { op, seq,
           streamId := (Fields.get? members "stream_id").bind DocTree.asStr,
           ts := (Fields.get? members "ts").bind naturalOf,
           mask := (Fields.get? members "mask").bind DocTree.asStr,
           eventType := (Fields.get? members "event_type").bind DocTree.asStr,
           model := (Fields.get? members "model").bind DocTree.asObj,
           meta_ := (Fields.get? members "meta").bind DocTree.asObj,
           block := (Fields.get? members "block").bind DocTree.asObj }

/-- The members that a Python producer writes, with the integers as the client reads them. -/
abbrev sentMembers (e : Envelope Number) : JsonObject Number := Python.eventMembers Number.ofNat e

section

variable {number : String → Option Number} {numerals : Python.Numerals Number} {e : Envelope Number}

/-- Each name of the envelope is looked up in the list that `model_dump` makes. -/
theorem get?_sentMembers :
    Fields.get? (sentMembers e) "op" = some (.str (Python.PatchOp.value e.op)) ∧
    Fields.get? (sentMembers e) "seq" = some (.num (.ofNat e.seq)) ∧
    Fields.get? (sentMembers e) "stream_id" = e.streamId.map DocTree.str ∧
    Fields.get? (sentMembers e) "ts" = (e.ts.map fun ts => .num (.ofNat ts)) ∧
    Fields.get? (sentMembers e) "mask" = e.mask.map DocTree.str ∧
    Fields.get? (sentMembers e) "event_type" = e.eventType.map DocTree.str ∧
    Fields.get? (sentMembers e) "model" = e.model.map DocTree.obj ∧
    Fields.get? (sentMembers e) "meta" = e.meta_.map DocTree.obj ∧
    Fields.get? (sentMembers e) "block" = e.block.map DocTree.obj := by
  simp [sentMembers, Python.eventMembers, Fields.get?_append, Fields.get?_optional, Fields.get?_cons]

theorem patchOp_value (op : PatchOp) : Unknown.patchOp (Python.PatchOp.value op) = some op := by
  cases op <;> rfl

/-- What a Python producer writes are the members of the event. -/
theorem encodes_sentMembers (e : Envelope Number) :
    Encodes ((sentMembers e).map fun p => (p.1, ofJson p.2)) e := by
  obtain ⟨hop, hseq, hstream, hts, hmask, htype, hmodel, hmeta, hblock⟩ := get?_sentMembers (e := e)
  have hkeys : Fields.keys ((sentMembers e).map fun p => (p.1, ofJson p.2)) = Fields.keys (sentMembers e) := by
    simp [Fields.keys, Function.comp_def]
  have hobj : ∀ o : Option (JsonObject Number), (o.map DocTree.obj).map ofJson =
      o.map fun m => .obj (ofJsonObject m) := by
    rintro (_ | m) <;> rfl
  have hstr : ∀ o : Option String, (o.map (DocTree.str : String → Json Number)).map ofJson = o.map DocTree.str := by
    rintro (_ | s) <;> rfl
  exact {
    keys := fun k hk => (Python.keys_eventMembers Number.ofNat e).subset (hkeys ▸ hk)
    op := ⟨_, by rw [TypeScript.get?_members, hop]; rfl, patchOp_value e.op⟩
    seq := by rw [TypeScript.get?_members, hseq]; rfl
    streamId := by rw [TypeScript.get?_members, hstream, hstr]
    ts := by
      rw [TypeScript.get?_members, hts]
      cases e.ts <;> rfl
    mask := by rw [TypeScript.get?_members, hmask, hstr]
    eventType := by rw [TypeScript.get?_members, htype, hstr]
    model := by rw [TypeScript.get?_members, hmodel, hobj]
    meta_ := by rw [TypeScript.get?_members, hmeta, hobj]
    block := by rw [TypeScript.get?_members, hblock, hobj] }

theorem naturalOf_ofNat {n : ℕ} (h : n < infinityFrom) : naturalOf (.num (.ofNat n)) = some n := by
  simp [Number.ofNat, if_pos h, naturalOf]

/-- An event of finite integers is read from its members. -/
theorem envelopeOf_sentMembers (hseq : e.seq < infinityFrom) (hts : ∀ ts, e.ts = some ts → ts < infinityFrom) :
    envelopeOf (sentMembers e) = some e := by
  obtain ⟨hop', hseq', hstream, hts', hmask, htype, hmodel, hmeta, hblock⟩ := get?_sentMembers (e := e)
  have hstr : ∀ o : Option String, (o.map (DocTree.str : String → Json Number)).bind DocTree.asStr = o := by
    rintro (_ | s) <;> rfl
  have hobj : ∀ o : Option (JsonObject Number), (o.map DocTree.obj).bind DocTree.asObj = o := by
    rintro (_ | m) <;> rfl
  have htime : (e.ts.map fun ts => DocTree.num (Number.ofNat ts)).bind naturalOf = e.ts := by
    cases hcases : e.ts with
    | none => rfl
    | some ts => rw [Option.map_some, Option.bind_some, naturalOf_ofNat (hts ts hcases)]
  rw [envelopeOf, hop', hseq', hstream, hts', hmask, htype, hmodel, hmeta, hblock, hstr, hstr, hstr, hobj, hobj, hobj,
    htime]
  simp only [Option.bind_eq_bind, Option.bind_some, DocTree.asStr_str, patchOp_value, naturalOf_ofNat hseq]
  rfl

/-! ## One message -/

/-- A message, and a call of `applyPatch` with its event; `none` is an exception of the two. -/
def receive (number : String → Option Number) (w : World Number) (message : String) : Option (World Number) := do
  let received ← TypeScript.decodeSse (TypeScript.parseText (JsonText.parse number)) message
  let event ← (DocTree.asObj (TypeScript.toJson received.event)).bind envelopeOf
  (TypeScript.applyPatch w event).state?

/-- An event that a Python producer can build and a TypeScript client can read: its strings hold no line boundary of
Python that JSON leaves as it is, and its numbers come back from their numerals. -/
structure Sendable (number : String → Option Number) (numerals : Python.Numerals Number) (e : Envelope Number) :
    Prop where
  valid : Python.validateOperation e = .ok ()
  portable : Portable e
  strings : ∀ s ∈ Python.eventStrings e, ∀ c ∈ s.toList, c ∉ rawBoundaries
  numbers : Python.EventReadBack number numerals Number.ofNat e

/-- The message of an event. -/
def messageOf (numerals : Python.Numerals Number) (p : Envelope Number × Option String) : Option String :=
  Python.encodeSse (Python.toJson numerals p.1) p.2

theorem exists_messageOf (numerals : Python.Numerals Number) (e : Envelope Number) {eventId : Option String} (hid : IsEventId eventId) :
    ∃ message, messageOf numerals (e, eventId) = some message := by
  have hplain : (eventId.any fun i => i.toList.elem '\n' || i.toList.elem '\r') = false := by
    cases eventId with
    | none => rfl
    | some i => simpa using hid i rfl
  rw [messageOf, Python.encodeSse, hplain, if_neg (by simp)]
  exact ⟨_, rfl⟩

/-- The client finds the event in its message. -/
theorem decodeSse_messageOf (he : Sendable number numerals e) {eventId : Option String} (hid : IsEventId eventId)
    {message : String} (hmessage : messageOf numerals (e, eventId) = some message) :
    TypeScript.decodeSse (TypeScript.parseText (JsonText.parse number)) message =
      some ⟨ofJson (.obj (sentMembers e)), eventId⟩ := by
  have hlines : Python.splitlines (Python.toJson numerals e) = [Python.toJson numerals e] := by
    have hplain := (boundaries_toJson numerals e).mpr he.strings
    have hne : (Python.toJson numerals e).toList ≠ [] := by simp [Python.toJson]
    have hcr : '\r' ∉ (Python.toJson numerals e).toList := fun hmem => Bool.noConfusion (hplain _ hmem)
    rw [Python.splitlines, Lines.lines_of_not_ends hne hplain hcr, List.map_singleton, String.ofList_toList]
  have hparse : JsonText.parse number (Python.toJson numerals e) = some (.obj (sentMembers e)) :=
    JsonText.parse_eq_some (Python.reads_toJson he.numbers)
  have haccepted : Unknown.Accepted (ofJson (.obj (sentMembers e))) := by
    have h := (encodes_sentMembers e).accepted_iff.mpr (he.portable.verdict.mp he.valid)
    rwa [TypeScript.literal_ofJson] at h
  have htext : TypeScript.parseText (JsonText.parse number) (Python.toJson numerals e) =
      some (ofJson (.obj (sentMembers e))) := by
    rw [TypeScript.parseText, hparse, Option.bind_some, haccepted]
    rfl
  have hjoin : String.intercalate "\n" [Python.toJson numerals e] = Python.toJson numerals e := by
    rw [← String.toList_inj, String.toList_intercalate]
    simp
  rw [TypeScript.decodeSse, sseFields_encoded hid hmessage, hlines]
  simp only [List.cons_ne_nil, if_false, hjoin, htext, Option.map_some]

/-- A message is received as its event is applied. -/
theorem receive_messageOf (he : Sendable number numerals e) {eventId : Option String} (hid : IsEventId eventId)
    {message : String} (hmessage : messageOf numerals (e, eventId) = some message) (w : World Number) :
    receive number w message = (TypeScript.applyPatch w e).state? := by
  have hts : TypeScript.parsePatchEvent [] e = .ok () := he.portable.verdict.mp he.valid
  simp only [TypeScript.parsePatchEvent, seq_eq_ok, check_eq_ok, decide_eq_true_eq, Option.all_eq_true] at hts
  have hread : (DocTree.asObj (TypeScript.toJson (ofJson (.obj (sentMembers e))))).bind envelopeOf = some e := by
    rw [TypeScript.toJson_ofJson]
    exact envelopeOf_sentMembers hts.1 fun ts h => hts.2.1 ts h
  rw [receive, decodeSse_messageOf he hid hmessage]
  simp only [Option.bind_eq_bind, Option.bind_some, hread]

/-! ## Streams -/

/-- From a common snapshot the messages of a stream leave the client with the document that the Python reducer makes
of the events, and break off where it refuses one, unless an append comes that only Python takes. -/
theorem received_eq_applied {s₀ : JsonObject Number} (hs₀ : Shaped s₀)
    {stream : List (Envelope Number × Option String)}
    (hstream : ∀ p ∈ stream, Sendable number numerals p.1 ∧ IsEventId p.2)
    (hboth : ∀ p e, p ++ [e] <+: stream.map Prod.fst →
      ∀ s, (Python.applyPatches s₀ p).state? = some s → ¬ PythonOnly s e) :
    ∃ messages, stream.mapM (messageOf numerals) = some messages ∧
      messages.foldlM (receive number) (World.parsed s₀) =
        (Python.applyPatches s₀ (stream.map Prod.fst)).state?.map World.parsed := by
  have hpython : ∀ p e, (Python.applyPatches s₀ (p ++ [e])).state? =
      (Python.applyPatches s₀ p).state?.bind fun s => (Python.applyPatch s e).state? :=
    Applied.run_concat Python.applyPatch s₀
  induction stream using List.reverseRecOn with
  | nil => exact ⟨[], rfl, rfl⟩
  | append_singleton stream p ih =>
    obtain ⟨e, eventId⟩ := p
    obtain ⟨he, hid⟩ := hstream (e, eventId) (by simp)
    rw [List.map_append, List.map_singleton] at hboth ⊢
    obtain ⟨messages, hmessages, hfold⟩ := ih (fun p hp => hstream p (List.mem_append_left _ hp))
      fun p e hp => hboth p e (hp.trans (List.prefix_append _ _))
    obtain ⟨message, hmessage⟩ := exists_messageOf numerals e hid
    refine ⟨messages ++ [message], ?_, ?_⟩
    · rw [List.mapM_append, hmessages]
      simp [hmessage]
    · rw [List.foldlM_append, hfold, hpython]
      cases hrun : (Python.applyPatches s₀ (stream.map Prod.fst)).state? with
      | none => rfl
      | some s =>
        have hshaped : Shaped s := Applied.run_invariant (fun _ _ _ => shaped_step) hs₀ hrun
        have hstep := clients_step hshaped he.portable (hboth _ e (List.prefix_rfl) s hrun)
        simp only [Option.map_some, Option.bind_eq_bind, Option.bind_some, List.foldlM_cons, List.foldlM_nil,
          receive_messageOf he hid hmessage, hstep]
        exact Option.bind_fun_some _

end

/-- Numerals without sign, fraction and exponent. -/
def decimalNumber (numeral : String) : Option Number :=
  if numeral.toList.all Char.isDigit && numeral != "" then some (.ofNat (Nat.ofDigitChars 10 numeral.toList 0)) else none

/-- Payloads whose numbers are natural numbers. -/
def decimalNumerals : Python.Numerals Number where
  repr x := toString ((naturalOf (.num x)).getD 0)
  chars _ := Python.decimal.chars _

theorem readsNumeral_decimalNumber (n : ℕ) : Python.ReadsNumeral decimalNumber (toString n) (.ofNat n) := by
  have hchars : (toString n).toList = Nat.toDigits 10 n := by rw [Nat.toString_eq_repr, Nat.toList_repr]
  have hne : toString n ≠ "" := by
    intro h
    rw [h] at hchars
    exact Nat.toDigits_ne_nil hchars.symm
  have hdigits : (toString n).toList.all Char.isDigit = true := by
    rw [hchars, List.all_eq_true]
    exact fun c hc => Nat.isDigit_of_mem_toDigits (by decide) (by decide) hc
  refine ⟨fun c hc => ?_, ?_, hne⟩
  · have hall : ∀ c ∈ "0123456789".toList, JsonText.isNumberChar c = true := List.all_eq_true.mp (by decide)
    exact hall c (Python.mem_digits hc)
  · rw [decimalNumber, hdigits, hchars, Nat.ofDigitChars_ten_toDigits]
    simp

theorem readsNumeral_decimalNumerals {n : ℕ} (h : n < infinityFrom) :
    Python.ReadsNumeral decimalNumber (decimalNumerals.repr (.ofNat n)) (.ofNat n) := by
  have hrepr : decimalNumerals.repr (.ofNat n) = toString n := by
    show toString ((naturalOf (.num (.ofNat n))).getD 0) = _
    rw [naturalOf_ofNat h, Option.getD_some]
  rw [hrepr]
  exact readsNumeral_decimalNumber n

/-- A start, an append that has to be escaped, and a set of a number, the first and the last with an id. -/
def wireStream : List (Envelope Number × Option String) :=
  [({ op := .start, seq := 1, streamId := some "s", ts := some 17, mask := none, eventType := none,
      model := some [("version", .str "1.1"), ("biz", .str "b"), ("meta", .obj []),
        ("blocks", .arr [.obj [("id", .str "x"), ("type", .str "text"), ("text", .str "a")]])],
      meta_ := none, block := none }, some "7-0"),
   ({ op := .append, seq := 2, streamId := none, ts := none, mask := some "block.text", eventType := none,
      model := none, meta_ := none, block := some [("id", .str "x"), ("text", .str "\t\"\u00fc")] }, none),
   ({ op := .set, seq := 3, streamId := none, ts := none, mask := some "block.size", eventType := none,
      model := none, meta_ := none, block := some [("id", .str "x"), ("size", .num (.ofNat 40))] }, some "7-2")]

theorem received_eq_applied_wireStream :
    (∃ messages, wireStream.mapM (messageOf decimalNumerals) = some messages ∧
      messages.foldlM (receive decimalNumber) (World.parsed []) =
        (Python.applyPatches [] (wireStream.map Prod.fst)).state?.map World.parsed) ∧
      (Python.applyPatches [] (wireStream.map Prod.fst)).state?.isSome = true := by
  refine ⟨received_eq_applied (.inl rfl) ?_ ?_, by decide +kernel⟩
  · intro p hp
    have hvalid : ∀ p ∈ wireStream, Python.validateOperation p.1 = .ok () ∧ TypeScript.parsePatchEvent [] p.1 = .ok () := by
      decide +kernel
    have hmask : ∀ p ∈ wireStream, (p.1.mask.all fun mask => !(Text.split mask '.').elem "__proto__") = true := by
      decide +kernel
    have hstrings : ∀ p ∈ wireStream,
        ((Python.eventStrings p.1).all fun s => s.toList.all fun c => !rawBoundaries.elem c) = true := by
      decide +kernel
    have hid : ∀ p ∈ wireStream, (p.2.all fun i => !(i.toList.elem '\n' || i.toList.elem '\r')) = true := by
      decide +kernel
    have hpayload : ∀ p ∈ wireStream, ∀ fs, p.1.model = some fs ∨ p.1.meta_ = some fs ∨ p.1.block = some fs →
        TypeScript.plainObject fs = true ∧ Python.ReadBack decimalNumber decimalNumerals (.obj fs) := by
      have hsize := readsNumeral_decimalNumerals (n := 40) (by decide +kernel)
      intro p hp fs h
      simp only [wireStream, List.mem_cons, List.not_mem_nil, or_false] at hp
      rcases hp with rfl | rfl | rfl
      · obtain rfl : _ = fs := by simpa using h
        exact ⟨by decide, by simp [Python.ReadBack, Python.ReadBackMembers, Python.ReadBackItems, Fields.keys]⟩
      · obtain rfl : _ = fs := by simpa using h
        exact ⟨by decide, by simp [Python.ReadBack, Python.ReadBackMembers, Fields.keys]⟩
      · obtain rfl : _ = fs := by simpa using h
        exact ⟨by decide, by simpa [Python.ReadBack, Python.ReadBackMembers, Fields.keys] using hsize⟩
    obtain ⟨hpython, hts⟩ := hvalid p hp
    have hportable : Portable p.1 := by
      refine ⟨iff_of_true hpython hts, fun mask h => ?_, fun fs h => (hpayload p hp fs h).1⟩
      have havoid := hmask p hp
      rw [h] at havoid
      simpa using havoid
    refine ⟨⟨hpython, hportable, ?_, ⟨readsNumeral_decimalNumber _, fun ts _ => readsNumeral_decimalNumber ts,
      fun fs h => (hpayload p hp fs h).2⟩⟩, fun i h => ?_⟩
    · simpa [List.all_eq_true] using hstrings p hp
    · have hplain := hid p hp
      rw [h] at hplain
      simpa using hplain
  · -- the appended field is no function of `Object.prototype`, and the payload has no `group_id`
    intro p e hp s _ honly
    have he : e ∈ wireStream.map Prod.fst := hp.subset (by simp)
    obtain ⟨hop, -, block, field, id, value, hblock, hargs, hpart⟩ := honly
    have hall : ∀ e ∈ wireStream.map Prod.fst, e.op = .append → ∀ block ∈ e.block,
        groupIdOk block = true ∧ (Python.appendArguments (e.mask.getD "") block).toOption.all
          (fun args => !TypeScript.objectMembers.elem args.1) = true := by
      decide +kernel
    obtain ⟨hgroup, hmember⟩ := hall e he hop block hblock
    rw [hargs] at hmember
    cases hexisting : blockWithId s id with
    | none =>
      rw [hexisting] at hpart
      exact Bool.noConfusion (hgroup.symm.trans hpart.2)
    | some existing =>
      rw [hexisting] at hpart
      have hfunction : TypeScript.objectMembers.elem field = true := hpart.2.2
      have habsent : field ∉ TypeScript.objectMembers := by simpa [Except.toOption] using hmember
      exact habsent (by simpa using hfunction)

end AgentUE.Conformance
