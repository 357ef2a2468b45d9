import AgentUE.Python.Validation

/-!
# Python SDK: the emitter

Reference: `sdks/python/src/agentue/emitter.py`. Most methods count before `PatchEvent` looks at what they have made,
and a call that raises then leaves its number behind. The numbers of the returned events increase all the same; the
pings are what goes wrong, for they carry the number that nobody has seen.

An argument may be anything. What matters of an object is whether it is taken as a value of a field, and whether it
can be worked with at all.
-/

namespace AgentUE.Python

open Data

variable {ν : Type}

/-! ## Arguments and events -/

/-- An argument, or what a method makes of it. -/
inductive Given (α : Type) where
  | value (a : α)
  /-- an object that is equal to no other and that `PatchEvent` refuses or `to_json` cannot write -/
  | refused
  /-- an object whose `model_dump`, `dict()` or comparison raises -/
  | raises
deriving DecidableEq

namespace Given

variable {α β : Type}

def map (f : α → β) : Given α → Given β
  | .value a => .value (f a)
  | .refused => .refused
  | .raises => .raises

/-- What a field is set to. -/
def taken : Given α → Option α
  | .value a => some a
  | .refused | .raises => none

end Given

/-- The arguments of `PatchEvent` but its number and its stream. -/
structure EventArgs (ν : Type) where
  op : PatchOp
  ts : Option ℤ := none
  mask : Given (Option String) := .value none
  eventType : Given (Option String) := .value none
  model : Given (Option (JsonObject ν)) := .value none
  meta_ : Given (Option (JsonObject ν)) := .value none
  block : Given (Option (JsonObject ν)) := .value none

/-- `ts: int | None = Field(default=None, ge=0)` -/
def takenTs : Option ℤ → Option (Option ℕ)
  | none => some none
  | some ts => if 0 ≤ ts then some (some ts.toNat) else none

/-- `PatchEvent(...)` and its `to_json`: every field is taken, and `validate_operation` accepts the event. -/
def patchEvent (streamId : Given (Option String)) (seq : ℕ) (args : EventArgs ν) : Option (Envelope ν) := do
  let event : Envelope ν := {
    op := args.op
    seq := seq
    streamId := ← streamId.taken
    ts := ← takenTs args.ts
    mask := ← args.mask.taken
    eventType := ← args.eventType.taken
    model := ← args.model.taken
    meta_ := ← args.meta_.taken
    block := ← args.block.taken }
  (validateOperation event).toOption
  return event

/-! ## The methods -/

/-- `PatchEmitter` -/
structure PatchEmitter where
  offset : ℕ
  streamId : Given (Option String)
deriving DecidableEq

namespace PatchEmitter

/-- `_next_offset` -/
def nextOffset (e : PatchEmitter) : PatchEmitter := { e with offset := e.offset + 1 }

/-- The event under the number that the emitter has got to. -/
def emit (e : PatchEmitter) (args : EventArgs ν) : Option (Envelope ν) := patchEvent e.streamId e.offset args

/-- `start`; `seq` is an `int`, or else (`some none`) an object that no `int` is compared with. -/
def start (e : PatchEmitter) (model : Given (JsonObject ν)) : Option (Option ℤ) → Option (Envelope ν) × PatchEmitter
  | none =>
    let e := e.nextOffset
    (e.emit { op := .start, model := model.map some }, e)
  | some none => (none, e)
  | some (some seq) =>
    if seq < e.offset then (none, e)
    else
      let e := { e with offset := seq.toNat }
      (e.emit { op := .start, model := model.map some }, e)

/-- `block_set` dumps the block before it counts. -/
def blockSet (e : PatchEmitter) (block : Given (JsonObject ν)) (mask eventType : Given (Option String)) :
    Option (Envelope ν) × PatchEmitter :=
  match block with
  | .raises => (none, e)
  | payload =>
    let e := e.nextOffset
    (e.emit { op := .set, mask := mask, eventType := eventType, block := payload.map some }, e)

/-- `meta_set` -/
def metaSet (e : PatchEmitter) (mask : Given (Option String)) (meta_ : Given (JsonObject ν))
    (eventType : Given (Option String)) : Option (Envelope ν) × PatchEmitter :=
  let e := e.nextOffset
  (e.emit { op := .set, mask := mask, eventType := eventType, meta_ := meta_.map some }, e)

/-- `block_append` counts before it dumps the block. -/
def blockAppend (e : PatchEmitter) (block : Given (JsonObject ν)) (mask eventType : Given (Option String)) :
    Option (Envelope ν) × PatchEmitter :=
  let e := e.nextOffset
  (e.emit { op := .append, mask := mask, eventType := eventType, block := block.map some }, e)

section

variable [DecidableEq ν]

/-- `detail`, if it is given and is not the message. -/
def errorDetail (message detail : Given (Json ν)) : Given (Option (Json ν)) :=
  match detail, message with
  | .value .null, _ => .value none
  | .raises, _ | _, .raises => .raises
  | .value detail, .value message => .value (if detail = message then none else some detail)
  | _, _ => .refused

/-- `error_payload` -/
def errorPayload (code message traceId detail : Given (Json ν)) : Given (JsonObject ν) :=
  match errorDetail message detail with
  | .raises => .raises
  | .refused => .refused
  | .value detail =>
    match code.taken, message.taken, traceId.taken with
    | some code, some message, some traceId =>
      .value ([("code", code), ("message", message)] ++ detail.toList.map (Prod.mk "detail") ++
        if traceId = .null then [] else [("trace_id", traceId)])
    | _, _, _ => .refused

/-- `error` -/
def error (e : PatchEmitter) (code message traceId detail : Given (Json ν)) : Option (Envelope ν) × PatchEmitter :=
  match errorPayload code message traceId detail with
  | .raises => (none, e)
  | payload =>
    let e := e.nextOffset
    (e.emit { op := .error, mask := .value (some "meta.error"),
              meta_ := payload.map fun payload => some [("error", .obj payload)] }, e)

end

/-- `set_stats` -/
def setStats (e : PatchEmitter) (stats : Given (JsonObject ν)) : Option (Envelope ν) × PatchEmitter :=
  match stats with
  | .raises => (none, e)
  | stats => e.metaSet (.value (some "meta.stats")) (stats.map fun stats => [("stats", .obj stats)]) (.value none)

/-- `ping`, at a time of the clock. -/
def ping (e : PatchEmitter) (now : ℤ) : Option (Envelope ν) × PatchEmitter :=
  (e.emit { op := .ping, ts := some now }, e)

/-- `end` -/
def end_ (e : PatchEmitter) : Option (Envelope ν) × PatchEmitter :=
  let e := e.nextOffset
  (e.emit { op := .end_ }, e)

end PatchEmitter

/-- A call of a method. -/
inductive EmitterCall (ν : Type) where
  | start (model : Given (JsonObject ν)) (seq : Option (Option ℤ))
  | blockSet (block : Given (JsonObject ν)) (mask eventType : Given (Option String))
  | metaSet (mask : Given (Option String)) (meta_ : Given (JsonObject ν)) (eventType : Given (Option String))
  | blockAppend (block : Given (JsonObject ν)) (mask eventType : Given (Option String))
  | error (code message traceId detail : Given (Json ν))
  | setStats (stats : Given (JsonObject ν))
  | ping (now : ℤ)
  | end_

variable [DecidableEq ν]

/-- The event that a call returns, `none` where it raises, and the emitter that it leaves. -/
def PatchEmitter.call (e : PatchEmitter) : EmitterCall ν → Option (Envelope ν) × PatchEmitter
  | .start model seq => e.start model seq
  | .blockSet block mask eventType => e.blockSet block mask eventType
  | .metaSet mask meta_ eventType => e.metaSet mask meta_ eventType
  | .blockAppend block mask eventType => e.blockAppend block mask eventType
  | .error code message traceId detail => e.error code message traceId detail
  | .setStats stats => e.setStats stats
  | .ping now => e.ping now
  | .end_ => e.end_

/-! ## What a call comes to -/

/-- The number that a call moves the emitter to, `none` where it raises before. -/
def EmitterCall.number (offset : ℕ) : EmitterCall ν → Option ℕ
  | .start _ none => some (offset + 1)
  | .start _ (some none) => none
  | .start _ (some (some seq)) => if seq < offset then none else some seq.toNat
  | .blockSet block _ _ => if block = .raises then none else some (offset + 1)
  | .error code message traceId detail =>
    if PatchEmitter.errorPayload code message traceId detail = .raises then none else some (offset + 1)
  | .setStats stats => if stats = .raises then none else some (offset + 1)
  | .ping _ => some offset
  | .metaSet .. | .blockAppend .. | .end_ => some (offset + 1)

/-- The arguments of its event. -/
def EmitterCall.args : EmitterCall ν → EventArgs ν
  | .start model _ => { op := .start, model := model.map some }
  | .blockSet block mask eventType => { op := .set, mask := mask, eventType := eventType, block := block.map some }
  | .metaSet mask meta_ eventType => { op := .set, mask := mask, eventType := eventType, meta_ := meta_.map some }
  | .blockAppend block mask eventType =>
    { op := .append, mask := mask, eventType := eventType, block := block.map some }
  | .error code message traceId detail =>
    { op := .error, mask := .value (some "meta.error"),
      meta_ := (PatchEmitter.errorPayload code message traceId detail).map fun payload =>
        some [("error", .obj payload)] }
  | .setStats stats =>
    { op := .set, mask := .value (some "meta.stats"), meta_ := stats.map fun stats => some [("stats", .obj stats)] }
  | .ping now => { op := .ping, ts := some now }
  | .end_ => { op := .end_ }

/-- Every method counts, or raises before it does, and then makes its event. -/
theorem call_eq (e : PatchEmitter) (call : EmitterCall ν) :
    e.call call = match call.number e.offset with
      | none => (none, e)
      | some n => (patchEvent e.streamId n call.args, { e with offset := n }) := by
  cases call with
  | start model seq =>
    cases seq with
    | none => rfl
    | some seq =>
      cases seq with
      | none => rfl
      | some seq =>
        simp only [PatchEmitter.call, PatchEmitter.start, EmitterCall.number]
        split_ifs <;> rfl
  | blockSet block mask eventType => cases block <;> rfl
  | metaSet mask meta_ eventType => rfl
  | blockAppend block mask eventType => rfl
  | error code message traceId detail =>
    simp only [PatchEmitter.call, PatchEmitter.error, EmitterCall.number, EmitterCall.args]
    cases PatchEmitter.errorPayload code message traceId detail <;> rfl
  | setStats stats => cases stats <;> rfl
  | ping now => rfl
  | end_ => rfl

omit [DecidableEq ν] in
theorem patchEvent_eq_some {streamId : Given (Option String)} {seq : ℕ} {args : EventArgs ν} {event : Envelope ν}
    (h : patchEvent streamId seq args = some event) : event.op = args.op ∧ event.seq = seq := by
  simp only [patchEvent, Option.bind_eq_bind, Option.bind_eq_some_iff, Option.pure_def, Option.some.injEq] at h
  obtain ⟨_, -, _, -, _, -, _, -, _, -, _, -, _, -, _, -, rfl⟩ := h
  exact ⟨rfl, rfl⟩

omit [DecidableEq ν] in
/-- Whether the arguments are accepted does not depend on the number. -/
theorem patchEvent_seq (streamId : Given (Option String)) (m n : ℕ) (args : EventArgs ν) :
    patchEvent streamId m args = (patchEvent streamId n args).map fun event => { event with seq := m } := by
  simp only [patchEvent, Option.bind_eq_bind, Option.map_bind, Function.comp_def, Option.pure_def, Option.map_some]
  rfl

/-- The call is a start with a number of its own. -/
def EmitterCall.explicit : EmitterCall ν → Bool
  | .start _ (some _) => true
  | _ => false

/-- A ping keeps the number, every other call goes on from it; a start that is given one may stay. -/
theorem number_cases {call : EmitterCall ν} {offset n : ℕ} (h : call.number offset = some n) :
    (call.args.op = .ping ∧ n = offset) ∨
      (call.args.op ≠ .ping ∧ offset ≤ n ∧ (call.explicit = false → offset < n)) := by
  have hnext : n = offset + 1 → offset ≤ n ∧ (call.explicit = false → offset < n) := by
    rintro rfl
    exact ⟨Nat.le_succ offset, fun _ => Nat.lt_succ_self offset⟩
  cases call with
  | start model seq =>
    refine .inr ⟨nofun, ?_⟩
    cases seq with
    | none => exact hnext (Option.some.inj h).symm
    | some seq =>
      cases seq with
      | none => cases h
      | some seq =>
        simp only [EmitterCall.number] at h
        split_ifs at h with hlt
        obtain rfl := Option.some.inj h
        exact ⟨by omega, fun hexplicit => nomatch hexplicit⟩
  | blockSet block mask eventType =>
    simp only [EmitterCall.number] at h
    split_ifs at h
    exact .inr ⟨nofun, hnext (Option.some.inj h).symm⟩
  | error code message traceId detail =>
    simp only [EmitterCall.number] at h
    split_ifs at h
    exact .inr ⟨nofun, hnext (Option.some.inj h).symm⟩
  | setStats stats =>
    simp only [EmitterCall.number] at h
    split_ifs at h
    exact .inr ⟨nofun, hnext (Option.some.inj h).symm⟩
  | ping now => exact .inl ⟨rfl, (Option.some.inj h).symm⟩
  | metaSet mask meta_ eventType => exact .inr ⟨nofun, hnext (Option.some.inj h).symm⟩
  | blockAppend block mask eventType => exact .inr ⟨nofun, hnext (Option.some.inj h).symm⟩
  | end_ => exact .inr ⟨nofun, hnext (Option.some.inj h).symm⟩

/-! ## Sequences of calls -/

/-- A call with the offset before it, what it returns and the offset behind it. -/
structure EmitterEntry (ν : Type) where
  call : EmitterCall ν
  before : ℕ
  result : Option (Envelope ν)
  after : ℕ

/-- The calls one after the other, on whatever the one before has left. -/
def PatchEmitter.run (e : PatchEmitter) : List (EmitterCall ν) → List (EmitterEntry ν)
  | [] => []
  | call :: calls =>
    let (result, next) := e.call call
    ⟨call, e.offset, result, next.offset⟩ :: next.run calls

theorem PatchEmitter.run_cons (e : PatchEmitter) (call : EmitterCall ν) (calls : List (EmitterCall ν)) :
    e.run (call :: calls) =
      ⟨call, e.offset, (e.call call).1, (e.call call).2.offset⟩ :: (e.call call).2.run calls := rfl

/-- The returned event, if it is no ping. -/
def EmitterEntry.numbered (entry : EmitterEntry ν) : Option (Envelope ν) :=
  entry.result.filter fun event => event.op != .ping

/-- The returned events that are no pings, with their calls. -/
def numberedEvents (entries : List (EmitterEntry ν)) : List (EmitterCall ν × Envelope ν) :=
  entries.filterMap fun entry => entry.numbered.map (Prod.mk entry.call)

/-- The number of the latest returned event that is no ping, at first the offset that the emitter starts with. -/
def latest (offset : ℕ) (entries : List (EmitterEntry ν)) : ℕ :=
  entries.foldl (fun seq entry => (entry.numbered.map Envelope.seq).getD seq) offset

/-- The calls make one timeline. -/
structure OneTimeline (offset : ℕ) (entries : List (EmitterEntry ν)) : Prop where
  /-- a call that raises leaves the offset -/
  raised : ∀ entry ∈ entries, entry.result = none → entry.after = entry.before
  /-- the numbers increase, and none is below an earlier one where a start is given one -/
  ordered : (numberedEvents entries).Pairwise fun a b =>
    a.2.seq ≤ b.2.seq ∧ (b.1.explicit = false → a.2.seq < b.2.seq)
  /-- a ping carries the latest number -/
  pings : ∀ earlier entry later event, entries = earlier ++ entry :: later → entry.result = some event →
    event.op = .ping → event.seq = latest offset earlier

/-- The call raises before it counts, or does not count, or makes an event that is accepted. -/
def EmitterCall.Harmless (streamId : Given (Option String)) (offset : ℕ) (call : EmitterCall ν) : Prop :=
  ∀ n, call.number offset = some n → n = offset ∨ (patchEvent streamId 0 call.args).isSome = true

/-- What a call returns is numbered as it counts. -/
theorem call_of_number {e : PatchEmitter} {call : EmitterCall ν} {n : ℕ} (h : call.number e.offset = some n) :
    e.call call = (patchEvent e.streamId n call.args, { e with offset := n }) := by
  rw [call_eq, h]

theorem call_of_raises {e : PatchEmitter} {call : EmitterCall ν} (h : call.number e.offset = none) :
    e.call call = (none, e) := by
  rw [call_eq, h]

theorem streamId_call (e : PatchEmitter) (call : EmitterCall ν) : (e.call call).2.streamId = e.streamId := by
  rw [call_eq]
  cases call.number e.offset <;> rfl

/-- A call is harmless exactly when it leaves the offset where it raises. -/
theorem harmless_iff {e : PatchEmitter} {call : EmitterCall ν} :
    call.Harmless e.streamId e.offset ↔ ((e.call call).1 = none → (e.call call).2.offset = e.offset) := by
  unfold EmitterCall.Harmless
  cases hn : call.number e.offset with
  | none => simp [call_of_raises hn]
  | some n =>
    rw [call_of_number hn, patchEvent_seq e.streamId n 0, Option.map_eq_none_iff]
    cases patchEvent e.streamId 0 call.args <;> simp

/-- Where the offset stands behind a call that leaves it when it raises. -/
theorem offset_call {e : PatchEmitter} {call : EmitterCall ν}
    (h : (e.call call).1 = none → (e.call call).2.offset = e.offset) (before after : ℕ) :
    (e.call call).2.offset =
      ((EmitterEntry.mk call before (e.call call).1 after).numbered.map Envelope.seq).getD e.offset := by
  cases hn : call.number e.offset with
  | none =>
    rw [call_of_raises hn]
    rfl
  | some n =>
    rw [call_of_number hn] at h ⊢
    unfold EmitterEntry.numbered
    cases hevent : patchEvent e.streamId n call.args with
    | none => exact h hevent
    | some event =>
      obtain ⟨hop, hseq⟩ := patchEvent_eq_some hevent
      rcases number_cases hn with ⟨hping, rfl⟩ | ⟨hping, -⟩
      · simp [Option.filter, hop, hping]
      · simp [Option.filter, hop, hping, hseq]

/-- The event that a call returns, if it is no ping, comes under the number that the call has got to. -/
theorem of_numbered {e : PatchEmitter} {call : EmitterCall ν} {before after : ℕ} {event : Envelope ν}
    (h : (EmitterEntry.mk call before (e.call call).1 after).numbered = some event) :
    event.seq = (e.call call).2.offset ∧ e.offset ≤ event.seq ∧ (call.explicit = false → e.offset < event.seq) := by
  obtain ⟨hresult, hop⟩ := Option.filter_eq_some_iff.mp h
  cases hn : call.number e.offset with
  | none =>
    rw [call_of_raises hn] at hresult
    cases hresult
  | some n =>
    rw [call_of_number hn] at hresult ⊢
    obtain ⟨hargs, rfl⟩ := patchEvent_eq_some hresult
    rcases number_cases hn with ⟨hping, -⟩ | ⟨-, hle⟩
    · rw [hargs, hping] at hop
      cases hop
    · exact ⟨rfl, hle⟩

/-- A ping comes under the number that the emitter stands at. -/
theorem seq_of_ping {e : PatchEmitter} {call : EmitterCall ν} {event : Envelope ν}
    (h : (e.call call).1 = some event) (hop : event.op = .ping) : event.seq = e.offset := by
  cases hn : call.number e.offset with
  | none =>
    rw [call_of_raises hn] at h
    cases h
  | some n =>
    rw [call_of_number hn] at h
    obtain ⟨hargs, rfl⟩ := patchEvent_eq_some h
    rcases number_cases hn with ⟨-, hsame⟩ | ⟨hping, -⟩
    · exact hsame
    · exact absurd (hargs.symm.trans hop) hping

/-- An emitter never goes back. -/
theorem offset_le_call (e : PatchEmitter) (call : EmitterCall ν) : e.offset ≤ (e.call call).2.offset := by
  cases hn : call.number e.offset with
  | none => rw [call_of_raises hn]
  | some n =>
    rw [call_of_number hn]
    rcases number_cases hn with ⟨-, rfl⟩ | ⟨-, hle, -⟩
    · exact le_rfl
    · exact hle

/-- The numbers of a run are not below the offset that it begins with. -/
theorem le_of_mem_numberedEvents {e : PatchEmitter} {calls : List (EmitterCall ν)} {p : EmitterCall ν × Envelope ν}
    (h : p ∈ numberedEvents (e.run calls)) : e.offset ≤ p.2.seq ∧ (p.1.explicit = false → e.offset < p.2.seq) := by
  induction calls generalizing e with
  | nil => cases h
  | cons call calls ih =>
    rw [PatchEmitter.run_cons, numberedEvents, List.mem_filterMap] at h
    obtain ⟨entry, hentry, hp⟩ := h
    rcases List.mem_cons.mp hentry with rfl | hmem
    · obtain ⟨event, hevent, rfl⟩ := Option.map_eq_some_iff.mp hp
      exact (of_numbered hevent).2
    · obtain ⟨hle, hlt⟩ := ih (List.mem_filterMap.mpr ⟨entry, hmem, hp⟩)
      have hcall := offset_le_call e call
      exact ⟨hcall.trans hle, fun hexplicit => hcall.trans_lt (hlt hexplicit)⟩

/-- The numbers increase whatever the calls do. -/
theorem ordered_run (e : PatchEmitter) (calls : List (EmitterCall ν)) :
    (numberedEvents (e.run calls)).Pairwise fun a b =>
      a.2.seq ≤ b.2.seq ∧ (b.1.explicit = false → a.2.seq < b.2.seq) := by
  induction calls generalizing e with
  | nil => exact .nil
  | cons call calls ih =>
    rw [PatchEmitter.run_cons, numberedEvents, List.filterMap_cons]
    cases hnumbered : (EmitterEntry.mk call e.offset (e.call call).1 (e.call call).2.offset).numbered with
    | none => exact ih _
    | some event =>
      refine List.pairwise_cons.mpr ⟨fun p hp => ?_, ih _⟩
      rw [(of_numbered hnumbered).1]
      exact le_of_mem_numberedEvents hp

/-- Where no call that raises moves the offset, a ping carries the latest number. -/
theorem pings_run {e : PatchEmitter} {calls : List (EmitterCall ν)}
    (h : ∀ entry ∈ e.run calls, entry.result = none → entry.after = entry.before)
    {earlier later : List (EmitterEntry ν)} {entry : EmitterEntry ν} {event : Envelope ν}
    (hrun : e.run calls = earlier ++ entry :: later) (hresult : entry.result = some event) (hop : event.op = .ping) :
    event.seq = latest e.offset earlier := by
  induction calls generalizing e earlier with
  | nil => cases earlier <;> cases hrun
  | cons call calls ih =>
    rw [PatchEmitter.run_cons] at h hrun
    obtain ⟨hhead, htail⟩ := List.forall_mem_cons.mp h
    cases earlier with
    | nil =>
      obtain ⟨rfl, -⟩ := List.cons.inj hrun
      exact seq_of_ping hresult hop
    | cons first earlier =>
      obtain ⟨rfl, hrest⟩ := List.cons.inj hrun
      rw [ih htail hrest, latest, latest, List.foldl_cons, ← offset_call hhead]

/-- Every call of the run with the state it is made in. -/
theorem forall_run_iff {e : PatchEmitter} {calls : List (EmitterCall ν)} :
    (∀ entry ∈ e.run calls, entry.result = none → entry.after = entry.before) ↔
      ∀ entry ∈ e.run calls, entry.call.Harmless e.streamId entry.before := by
  induction calls generalizing e with
  | nil => exact iff_of_true (fun _ h => nomatch h) (fun _ h => nomatch h)
  | cons call calls ih =>
    rw [PatchEmitter.run_cons, List.forall_mem_cons, List.forall_mem_cons, ih, streamId_call, harmless_iff]

/-- A sequence of calls makes one timeline exactly when each of them raises before it counts, does not count, or makes
an event that is accepted. -/
theorem oneTimeline_iff (e : PatchEmitter) (calls : List (EmitterCall ν)) :
    OneTimeline e.offset (e.run calls) ↔ ∀ entry ∈ e.run calls, entry.call.Harmless e.streamId entry.before := by
  rw [← forall_run_iff]
  exact ⟨fun h => h.raised, fun h => ⟨h, ordered_run e calls, fun _ _ _ _ => pings_run h⟩⟩

/-- A start, an append under a mask of the metadata, and a ping. -/
def appendsToMeta : List (EmitterCall ℕ) :=
  [.start (.value [("version", .str "1.1"), ("biz", .str "chat"), ("meta", .obj []), ("blocks", .arr [])]) none,
    .blockAppend (.value [("id", .str "b"), ("type", .str "text"), ("content", .str "c")]) (.value (some "meta.content"))
      (.value none), .ping 0]

/-- The append raises, and the ping carries its number. -/
theorem ping_carries_unseen_number :
    ((PatchEmitter.mk 0 (.value none)).run appendsToMeta).map (fun entry => (entry.result.map Envelope.seq, entry.after)) =
        [(some 1, 1), (none, 2), (some 2, 2)] ∧
      ¬ OneTimeline 0 ((PatchEmitter.mk 0 (.value none)).run appendsToMeta) := by
  have hmoved : ∃ entry ∈ (PatchEmitter.mk 0 (.value none)).run appendsToMeta,
      entry.result = none ∧ entry.after ≠ entry.before := by decide
  refine ⟨by decide, fun h => ?_⟩
  obtain ⟨entry, hentry, hresult, hne⟩ := hmoved
  exact hne (h.raised entry hentry hresult)

end AgentUE.Python
