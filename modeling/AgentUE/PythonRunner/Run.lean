import AgentUE.Data.Machine
import AgentUE.Python.Reducer
import AgentUE.PythonRunner.Lifecycle
import AgentUE.PythonRunner.Live

/-!
# Python runner: one run and everything that may fail in it

Reference: `run`, `_execute`, `_run_business`, `_publish_start`, `_publish_start_best_effort`, `_finalize` and
`_publish_terminal` in `sdks/python/src/agentue/runner/runner.py`. The run begins when `initialize` has
returned. Its coroutine, and after it the execute task, are one sequence of steps: what the callbacks do, the
Redis commands one after the other, each of which may fail without effect, and the cancellations.
-/

namespace AgentUE.PythonRunner.Run

open Data
open Live (TerminalEvent)
open Lifecycle (CompletionSource)

variable {κ ν : Type}

/-- The dump of a `UIModel`: it has every member and passes its own validation. -/
structure Model (ν : Type) where
  doc : JsonObject ν
  valid : modelOk Python.rules doc = true
  hasBlocks : Fields.has doc "blocks" = true

/-- An exception: the name of its type as `_error_code` writes it, its text without surrounding whitespace,
whether it is a cancellation, whether its text is well-formed Unicode, and its truth value, which a class may give it
by `__bool__` or `__len__`. -/
structure Raised where
  name : String
  text : String
  cancelled : Bool
  encodable : Bool
  truthy : Bool
deriving DecidableEq

/-- `_error_code` -/
def errorCode (error : Raised) (source : CompletionSource) : String :=
  if source = .heartbeatTimeout then "heartbeat_timeout" else if error.cancelled then "cancelled" else error.name

/-- `_error_message` -/
def errorMessage (error : Raised) (source : CompletionSource) : String :=
  if error.text ≠ "" then error.text
  else if source = .shutdown then "Runner shut down before the task completed."
  else if error.cancelled then "Task execution was cancelled."
  else "Task execution failed."

/-- What `_finalize` makes of the end of a run: `effective_error`, and whether the coroutine raises the
cancellation that it handles when everything has been written. -/
structure Outcome where
  source : CompletionSource
  error : Option Raised
  reraises : Bool
deriving DecidableEq

/-- The status that `_finalize` marks. -/
def Outcome.status (outcome : Outcome) : Status := if outcome.error.isSome then .failed else .completed

/-- Where the run stands. In a phase that writes an event the event is part of it. -/
inductive Phase (ν : Type) where
  /-- in `pre_start` -/
  | preStart
  /-- in `_publish_start` -/
  | starting (event : Envelope ν)
  /-- in `_publish_start_best_effort` -/
  | restarting (error : Raised) (event : Envelope ν)
  /-- the execute task has been created -/
  | spawned
  /-- in `prepare` -/
  | preparing
  /-- in `stream` -/
  | streaming
  /-- in the `publish` of an event; `before` is the snapshot without it, which no code reads -/
  | publishing (event : Envelope ν) (before : JsonObject ν)
  /-- in `complete` -/
  | completing (source : CompletionSource) (error : Option Raised)
  /-- in `_publish_terminal` of the error -/
  | publishingError (outcome : Outcome) (event : Envelope ν)
  /-- in `_publish_terminal` of the end -/
  | publishingEnd (outcome : Outcome) (terminal : List (TerminalEvent ν)) (event : Envelope ν)
  /-- in `mark_terminal` -/
  | marking (outcome : Outcome) (terminal : List (TerminalEvent ν))
  /-- `_finalize` has returned its result -/
  | returned (terminal : List (TerminalEvent ν))
  /-- the coroutine or the execute task has ended with an exception -/
  | raised

/-- `RunnerContext`, with the offset of its emitter. -/
structure Context (ν : Type) where
  model : Model ν
  offset : ℕ
  snapshot : JsonObject ν
  publishedSeq : ℕ

/-- Why the business task is cancelled: `_execute` has left its wait with an error, or it has been cancelled
once more while it waits for the business task. -/
inductive Verdict where
  | interrupted (source : CompletionSource) (error : Raised)
  | abandoned
deriving DecidableEq

/-- A call of `complete` by `_finalize`, with the events that the stream holds at that moment. -/
structure Completion (ν : Type) where
  source : CompletionSource
  error : Option Raised
  snapshot : JsonObject ν
  stored : List (Envelope ν)

/-- A run with the keys of its task. -/
structure State (κ ν : Type) where
  store : Store κ ν
  context : Context ν
  phase : Phase ν
  pending : List (Command ν)
  verdict : Option Verdict
  closing : Bool
  completions : List (Completion ν)

/-- The events of the stream. -/
def State.log (r : State κ ν) : List (Envelope ν) := r.store.events.map Stored.data

/-- A run of a fresh task after `initialize`. -/
def State.init (model : Model ν) (time : ℕ) : State κ ν where
  store := ⟨.running, 0, some model.doc, [], some time, false⟩
  context := ⟨model, 0, [], 0⟩
  phase := .preStart
  pending := []
  verdict := none
  closing := false
  completions := []

/-! ## The parts of a run -/

/-- `complete` is invoked by `_finalize`. -/
def State.complete (source : CompletionSource) (error : Option Raised) (r : State κ ν) : State κ ν :=
  { r with
    phase := .completing source error
    pending := []
    completions := r.completions ++ [⟨source, error, r.context.snapshot, r.log⟩] }

/-- `_publish_start` up to its publish. The snapshot is what the reducer makes of a start, see
`applyPatch_startEvent`. -/
def State.beginStart (phase : Envelope ν → Phase ν) (r : State κ ν) : State κ ν :=
  let event := startEvent r.context.model.doc (r.context.offset + 1)
  { r with
    phase := phase event
    context := { r.context with offset := r.context.offset + 1, snapshot := r.context.model.doc }
    pending := publish event }

/-- The handler of `pre_start` and `_publish_start`. -/
def State.failPreStart (error : Raised) (r : State κ ν) : State κ ν :=
  if r.context.publishedSeq = 0 then r.beginStart (.restarting error) else r.complete .preStart (some error)

/-- The business task ends, with its exception. What `_execute` has left its wait with comes first, and a
cancellation of the business task raises in `_execute`. -/
def State.endBusiness (error : Option Raised) (r : State κ ν) : State κ ν :=
  match r.verdict, error with
  -- raised out of the wait for the cancelled business task, before `_finalize`
  | some .abandoned, _ => { r with phase := .raised, pending := [] }
  | some (.interrupted source error), _ => r.complete source (some error)
  | none, none => r.complete .execute none
  -- `business_task.exception()` raises where the task has been cancelled
  | none, some error =>
    if error.cancelled then r.complete (if r.closing then .shutdown else .cancelled) (some error)
    else r.complete .execute (some error)

/-- `mark_terminal` -/
def State.beginMark (outcome : Outcome) (terminal : List (TerminalEvent ν)) (r : State κ ν) : State κ ν :=
  { r with phase := .marking outcome terminal, pending := markTerminal outcome.status }

/-- The end is made, and published when nothing is missing before it. -/
def State.beginEnd (outcome : Outcome) (terminal : List (TerminalEvent ν)) (persisted : Bool) (r : State κ ν) :
    State κ ν :=
  let event := endEvent (r.context.offset + 1)
  let r := { r with context := { r.context with offset := r.context.offset + 1 } }
  if persisted then { r with phase := .publishingEnd outcome terminal event, pending := publish event }
  else r.beginMark outcome (terminal ++ [⟨event, false⟩])

/-- `_finalize` after `complete`. -/
def State.finalize (outcome : Outcome) (r : State κ ν) : State κ ν :=
  match outcome.error with
  | none => r.beginEnd outcome [] true
  | some error =>
    let event := errorEvent (errorCode error outcome.source) (errorMessage error outcome.source)
      (r.context.offset + 1)
    let r := { r with context := { r.context with offset := r.context.offset + 1 } }
    if error.encodable then { r with phase := .publishingError outcome event, pending := publish event }
    -- `_publish_terminal` does not get past `model_validate_json`, and the end is not tried
    else r.beginEnd outcome [⟨event, false⟩] false

/-- The last `return` of `_finalize`. -/
def State.finish (outcome : Outcome) (terminal : List (TerminalEvent ν)) (r : State κ ν) : State κ ν :=
  { r with phase := if outcome.reraises then .raised else .returned terminal, pending := [] }

/-- `error or completion_error`: an exception that is false is passed over. -/
def effectiveError (error completionError : Option Raised) : Option Raised :=
  match error with
  | some error => if error.truthy then some error else completionError
  | none => completionError

/-- The outcome after `complete` has returned or failed. -/
def outcomeOf (source : CompletionSource) (error completionError : Option Raised) : Outcome where
  source := source
  error := effectiveError error completionError
  reraises := source == .preStart && error.any Raised.cancelled

/-! ## Steps -/

/-- A value that `stream` yields, as `_coerce_patch` takes it. -/
inductive Yielded (ν : Type) where
  /-- a JSON text or a mapping that has the fields of an event -/
  | patch (event : Envelope ν)
  /-- an instance of `PatchEvent`, whose fields have their types but need not pass its validator: `model_construct`
  runs none, and neither does an assignment to a field -/
  | made (event : Envelope ν)
  /-- a value of which no event is made -/
  | other
deriving DecidableEq

/-- The event of a value, valid or not. -/
def Yielded.event? : Yielded ν → Option (Envelope ν)
  | .patch event | .made event => some event
  | .other => none

/-- The event of a value passes the validator. -/
def Yielded.isValid (value : Yielded ν) : Bool := value.event?.any fun event => (Python.validateOperation event).isOk

/-- What happens next. -/
inductive Label (κ ν : Type) where
  /-- a callback moves the emitter forward -/
  | emits (offset : ℕ)
  /-- a callback puts another model into the context -/
  | remodels (model : Model ν)
  /-- `stream` yields a value; `error` is what is raised for it, if the Runner itself has no text for that -/
  | yields (value : Yielded ν) (error : Raised)
  /-- a callback returns, or the execute task takes its first step -/
  | returns
  /-- a callback raises -/
  | raises (error : Raised)
  /-- Redis runs the next command -/
  | send (fresh : κ)
  /-- the `await` of the last command returns -/
  | resumes
  /-- the next command raises without effect, or a cancellation is delivered to its `await` -/
  | fails (error : Raised)
  /-- `_execute` leaves its wait: a stall, a lost heartbeat or a cancellation -/
  | interrupts (source : CompletionSource) (error : Raised)
  /-- the execute task is cancelled before its first step, or while it waits for the business task -/
  | abandons
  /-- `aclose` sets `_closing` -/
  | closes

/-- A command fails. -/
def Label.isFailure : Label κ ν → Bool
  | .fails _ => true
  | _ => false

/-- The execute task is interrupted or cancelled. -/
def Label.cancels : Label κ ν → Bool
  | .interrupts _ _ | .abandons => true
  | _ => false

/-- The Runner's own `ValueError`s. -/
def valueError (text : String) : Raised := ⟨"value", text, false, true, true⟩

/-- `_coerce_patch`: an instance is taken as it is; `error` is what validation raises. -/
def coercePatch (error : Raised) : Yielded ν → Except Raised (Envelope ν)
  | .made event => .ok event
  | .patch event =>
    match Python.validateOperation event with
    | .error _ => .error error
    | .ok () => .ok event
  | .other => .error error

/-- The checks of `_run_business` itself. -/
def checkPatch (publishedSeq : ℕ) (event : Envelope ν) : Except Raised Unit := do
  check (event.op == .set || event.op == .append)
    (valueError "stream callback may only yield set and append operations")
  check (decide (publishedSeq < event.seq)) (valueError "stream event seq must increase")

section

variable [DecidableEq ν]

/-- A value that `stream` has yielded, up to its publish. `apply_patch` takes the event as it is; the reducer changes
the snapshot in place, also where it raises. -/
def State.yielded (value : Yielded ν) (error : Raised) (r : State κ ν) : State κ ν :=
  match coercePatch error value with
  | .error raised => r.endBusiness (some raised)
  | .ok event =>
    match checkPatch r.context.publishedSeq event with
    | .error raised => r.endBusiness (some raised)
    | .ok () =>
      match Python.applyEvent r.context.snapshot event with
      | .raised _ snapshot => { r with context := { r.context with snapshot := snapshot } }.endBusiness (some error)
      | .returned snapshot =>
        { r with
          phase := .publishing event r.context.snapshot
          context := { r.context with snapshot := snapshot }
          pending := publish event }

/-- The event of a value that comes to its publish. -/
def State.taken (r : State κ ν) (value : Yielded ν) (error : Raised) : Option (Envelope ν) :=
  match coercePatch error value with
  | .error _ => none
  | .ok event =>
    if (checkPatch r.context.publishedSeq event).isOk && (Python.applyEvent r.context.snapshot event).state?.isSome then
      some event
    else none

end

/-- An event has been published. -/
def State.published (event : Envelope ν) (r : State κ ν) : State κ ν :=
  { r with context := { r.context with publishedSeq := event.seq } }

/-- A callback runs. -/
def Phase.inCallback : Phase ν → Bool
  | .preStart | .preparing | .streaming | .completing _ _ => true
  | _ => false

/-- The business task runs. -/
def Phase.inBusiness : Phase ν → Bool
  | .preparing | .streaming | .publishing _ _ => true
  | _ => false

/-- The run is over. -/
def Phase.isOver : Phase ν → Bool
  | .returned _ | .raised => true
  | _ => false

/-- What a callback or the execute task goes on with. -/
def State.returns (r : State κ ν) : Option (State κ ν) :=
  match r.phase with
  | .preStart => some (r.beginStart .starting)
  | .spawned => some { r with phase := .preparing }
  | .preparing => some { r with phase := .streaming }
  | .streaming => some (r.endBusiness none)
  | .completing source error => some (r.finalize (outcomeOf source error none))
  | _ => none

/-- What is done about an exception of a callback. -/
def State.raises (error : Raised) (r : State κ ν) : Option (State κ ν) :=
  match r.phase with
  | .preStart => some (r.failPreStart error)
  | .preparing | .streaming => some (r.endBusiness (some error))
  | .completing source first => some (r.finalize (outcomeOf source first (some error)))
  | _ => none

/-- What follows the last command of a publish or of `mark_terminal`. -/
def State.resumes (r : State κ ν) : Option (State κ ν) :=
  match r.phase with
  | .starting event => some { r.published event with phase := .spawned }
  | .restarting error event => some ((r.published event).complete .preStart (some error))
  | .publishing event _ => some { r.published event with phase := .streaming }
  | .publishingError outcome event => some ((r.published event).beginEnd outcome [⟨event, true⟩] true)
  | .publishingEnd outcome terminal event => some ((r.published event).beginMark outcome
      (terminal ++ [⟨event, true⟩]))
  | .marking outcome terminal => some (r.finish outcome terminal)
  | _ => none

/-- What is done about an exception of a command: the start is tried once more, an error in `stream` ends the
business, and what follows `complete` goes on unless it is a cancellation. -/
def State.fails (error : Raised) (r : State κ ν) : Option (State κ ν) :=
  match r.phase with
  | .starting _ => some (r.failPreStart error)
  -- a cancellation is no `Exception`, so nothing here catches it
  | .restarting first _ =>
    if error.cancelled then some { r with phase := .raised, pending := [] } else
      some (r.complete .preStart (some first))
  | .publishing _ _ => some (r.endBusiness (some error))
  | .publishingError outcome event =>
    if error.cancelled then some { r with phase := .raised, pending := [] }
    else some (r.beginEnd outcome [⟨event, false⟩] false)
  | .publishingEnd outcome terminal event =>
    if error.cancelled then some { r with phase := .raised, pending := [] }
    else some (r.beginMark outcome (terminal ++ [⟨event, false⟩]))
  | .marking outcome terminal =>
    if error.cancelled then some { r with phase := .raised, pending := [] } else some (r.finish outcome terminal)
  | _ => none

/-- One step. -/
def step [LinearOrder κ] [DecidableEq ν] (r : State κ ν) : Label κ ν → Option (State κ ν)
  | .emits offset =>
    if r.phase.inCallback ∧ r.context.offset ≤ offset then
      some { r with context := { r.context with offset := offset } }
    else none
  | .remodels model =>
    if r.phase.inCallback then some { r with context := { r.context with model := model } } else none
  | .yields value error =>
    match r.phase with
    -- validation and the reducer raise ordinary exceptions
    | .streaming => if error.cancelled then none else some (r.yielded value error)
    | _ => none
  | .returns => r.returns
  | .raises error => r.raises error
  | .send fresh =>
    match r.pending with
    | [] => none
    | command :: rest =>
      if r.store.accepts fresh then some { r with store := r.store.run fresh command, pending := rest } else none
  | .resumes => if r.pending.isEmpty then r.resumes else none
  -- with nothing left to send only a cancellation reaches the `await`
  | .fails error => if r.pending.isEmpty && !error.cancelled then none else r.fails error
  | .interrupts source error =>
    -- `or` puts another exception in the place of one that is false
    if r.phase.inBusiness ∧ r.verdict = none ∧ source ≠ .preStart ∧ error.truthy then
      some { r with verdict := some (.interrupted source error) }
    else none
  | .abandons =>
    match r.phase, r.verdict with
    -- a task that is cancelled before its first step never runs `_execute`
    | .spawned, _ => some { r with phase := .raised, pending := [] }
    | phase, some (.interrupted _ _) => if phase.inBusiness then some { r with verdict := some .abandoned } else none
    | _, _ => none
  | .closes => some { r with closing := true }

/-! ## The patches that are taken -/

theorem event_of_coercePatch {error : Raised} {value : Yielded ν} {event : Envelope ν}
    (h : coercePatch error value = .ok event) : value.event? = some event := by
  cases value with
  | patch e =>
    simp only [coercePatch] at h
    split at h
    · simp at h
    · rw [Yielded.event?, Except.ok.inj h]
  | made e => rw [Yielded.event?, Except.ok.inj h]
  | other => simp [coercePatch] at h

/-- An event that passes the checks is one that may be published. -/
theorem checkPatch_eq_ok {seq : ℕ} {event : Envelope ν} :
    checkPatch seq event = .ok () ↔ (event.op = .set ∨ event.op = .append) ∧ seq < event.seq := by
  simp [checkPatch, seq_eq_ok]

theorem taken_eq_some [DecidableEq ν] {r : State κ ν} {value : Yielded ν} {error : Raised} {event : Envelope ν} :
    r.taken value error = some event ↔ coercePatch error value = .ok event ∧
      checkPatch r.context.publishedSeq event = .ok () ∧
        ∃ snapshot, Python.applyEvent r.context.snapshot event = .returned snapshot := by
  unfold State.taken
  cases hcoerce : coercePatch error value with
  | error => simp
  | ok e =>
    dsimp only
    have hsnapshot : ((Python.applyEvent r.context.snapshot e).state?.isSome = true) ↔
        ∃ snapshot, Python.applyEvent r.context.snapshot e = .returned snapshot := by
      cases Python.applyEvent r.context.snapshot e <;> simp
    have hcheck : (checkPatch r.context.publishedSeq e).isOk = true ↔ checkPatch r.context.publishedSeq e = .ok () := by
      cases checkPatch r.context.publishedSeq e <;> simp [Except.isOk, Except.toBool]
    constructor
    · intro h
      split_ifs at h with hchecks
      obtain rfl := Option.some.inj h
      rw [Bool.and_eq_true, hcheck, hsnapshot] at hchecks
      exact ⟨rfl, hchecks⟩
    · rintro ⟨heq, hchecks⟩
      obtain rfl := Except.ok.inj heq
      rw [if_pos (by rwa [Bool.and_eq_true, hcheck, hsnapshot])]

/-! ## The reducer on a start -/

theorem applyPatch_startEvent [DecidableEq ν] (model : Model ν) (seq : ℕ) (snapshot : JsonObject ν) :
    Python.applyPatch snapshot (startEvent model.doc seq) = .returned model.doc := by
  have hvalid : Python.validateOperation (startEvent model.doc seq) = .ok () := by
    simp [Python.validateOperation, startEvent, Python.UIModel.modelValidate_eq_ok_iff, model.valid, seq_eq_ok]
  unfold Python.applyPatch
  rw [hvalid]
  exact Python.applyEvent_start rfl rfl model.valid snapshot

/-! ## The publish of an event -/

/-- The run is in the publish of `event`: the stream held `base` before, `last_seq` was `seq`. -/
def State.Writing (event : Envelope ν) (base : List (Envelope ν)) (seq : ℕ) (r : State κ ν) : Prop :=
  (r.pending = publish event ∧ r.log = base ∧ r.store.lastSeq = seq) ∨
  (r.pending = [.expireStream, .hsetLastSeq event.seq] ∧ r.log = base ++ [event] ∧ r.store.lastSeq = seq) ∨
  (r.pending = [.hsetLastSeq event.seq] ∧ r.log = base ++ [event] ∧ r.store.lastSeq = seq) ∨
  (r.pending = [] ∧ r.log = base ++ [event] ∧ r.store.lastSeq = event.seq)

/-- The run after its next command. -/
def State.sent (fresh : κ) (command : Command ν) (rest : List (Command ν)) (r : State κ ν) : State κ ν :=
  { r with store := r.store.run fresh command, pending := rest }

theorem log_sent_xadd (fresh : κ) (event : Envelope ν) (rest : List (Command ν)) (r : State κ ν) :
    (r.sent fresh (.xadd event) rest).log = r.log ++ [event] := by
  simp [State.log, State.sent, Store.run]

theorem State.Writing.sent {event : Envelope ν} {base : List (Envelope ν)} {seq : ℕ} {r : State κ ν}
    (h : r.Writing event base seq) {command : Command ν} {rest : List (Command ν)}
    (hpending : r.pending = command :: rest) (fresh : κ) : (r.sent fresh command rest).Writing event base seq := by
  rcases h with ⟨hp, hlog, hseq⟩ | ⟨hp, hlog, hseq⟩ | ⟨hp, hlog, hseq⟩ | ⟨hp, -⟩
  -- the three commands one after the other; `last_seq` is that of before until the third
  · obtain ⟨rfl, rfl⟩ : .xadd event = command ∧ [.expireStream, .hsetLastSeq event.seq] = rest := by
      simpa [publish] using hp.symm.trans hpending
    exact .inr (.inl ⟨rfl, by rw [log_sent_xadd, hlog], hseq⟩)
  · obtain ⟨rfl, rfl⟩ : .expireStream = command ∧ [.hsetLastSeq event.seq] = rest := by
      simpa using hp.symm.trans hpending
    exact .inr (.inr (.inl ⟨rfl, hlog, hseq⟩))
  · obtain ⟨rfl, rfl⟩ : .hsetLastSeq event.seq = command ∧ [] = rest := by simpa using hp.symm.trans hpending
    exact .inr (.inr (.inr ⟨rfl, hlog, rfl⟩))
  · simp [hp] at hpending

theorem State.Writing.log_eq {event : Envelope ν} {base : List (Envelope ν)} {seq : ℕ} {r : State κ ν}
    (h : r.Writing event base seq) : r.log = base ∨ r.log = base ++ [event] := by
  rcases h with ⟨-, hlog, -⟩ | ⟨-, hlog, -⟩ | ⟨-, hlog, -⟩ | ⟨-, hlog, -⟩
  · exact .inl hlog
  · exact .inr hlog
  · exact .inr hlog
  · exact .inr hlog

/-- A publish whose commands have all been run. -/
theorem State.Writing.of_pending_nil {event : Envelope ν} {base : List (Envelope ν)} {seq : ℕ} {r : State κ ν}
    (h : r.Writing event base seq) (hpending : r.pending = []) :
    r.log = base ++ [event] ∧ r.store.lastSeq = event.seq := by
  rcases h with ⟨hp, -⟩ | ⟨hp, -⟩ | ⟨hp, -⟩ | ⟨-, hlog, hseq⟩
  · simp [publish, hp] at hpending
  · simp [hp] at hpending
  · simp [hp] at hpending
  · exact ⟨hlog, hseq⟩

theorem State.Writing.congr {event : Envelope ν} {base : List (Envelope ν)} {seq : ℕ} {r r' : State κ ν}
    (h : r.Writing event base seq) (hpending : r'.pending = r.pending) (hstore : r'.store = r.store) :
    r'.Writing event base seq := by
  unfold State.Writing State.log at h ⊢
  rw [hpending, hstore]
  exact h

/-! ## What a step does -/

/-- Commands are ahead only where they are sent. -/
def Fits (r : State κ ν) : Prop :=
  match r.phase with
  | .starting _ | .restarting _ _ | .publishing _ _ | .publishingError _ _ | .publishingEnd _ _ _ => True
  | .marking outcome _ => ∃ before, before ++ r.pending = markTerminal outcome.status
  | _ => r.pending = []

/-- The next command of `mark_terminal`. -/
theorem Fits.marks {r : State κ ν} (h : Fits r) {outcome : Outcome} {terminal : List (TerminalEvent ν)}
    (hphase : r.phase = .marking outcome terminal) {command : Command ν} {rest : List (Command ν)}
    (hpending : r.pending = command :: rest) :
    command = .hsetStatus outcome.status ∨ command = .expireState ∨ command = .zrem := by
  simp only [Fits, hphase, hpending] at h
  obtain ⟨before, hmark⟩ := h
  have hmem : command ∈ (markTerminal outcome.status : List (Command ν)) := by rw [← hmark]; simp
  simpa [markTerminal] using hmem

section

variable [DecidableEq ν]

/-- What one step does; a label is given where it matters. -/
inductive Move (r : State κ ν) (l : Label κ ν) : State κ ν → Prop
  /-- the emitter, the model, the verdict or `_closing` changes -/
  | idle {context : Context ν} {verdict : Option Verdict} {closing : Bool} : l.isFailure = false →
    (l.cancels = false → verdict = r.verdict) → (r.phase.inCallback = false → context.model = r.context.model) →
    context.snapshot = r.context.snapshot → context.publishedSeq = r.context.publishedSeq →
    r.context.offset ≤ context.offset → Move r l { r with context := context, verdict := verdict, closing := closing }
  | send {command : Command ν} {rest : List (Command ν)} {fresh : κ} : l = .send fresh →
    r.pending = command :: rest →
    Move r l (r.sent fresh command rest)
  | start : r.phase = .preStart → Move r l (r.beginStart .starting)
  /-- before the start has been published -/
  | restart {error : Raised} : (r.phase = .preStart ∨ ∃ event, r.phase = .starting event) →
    r.context.publishedSeq = 0 → Move r l (r.beginStart (.restarting error))
  | failStarted {error : Raised} : (r.phase = .preStart ∨ ∃ event, r.phase = .starting event) →
    r.context.publishedSeq ≠ 0 → Move r l (r.complete .preStart (some error))
  | started {event : Envelope ν} : r.phase = .starting event → r.pending = [] →
    Move r l { r.published event with phase := .spawned }
  | restarted {error : Raised} {event : Envelope ν} : l = .resumes → r.phase = .restarting error event →
    r.pending = [] →
    Move r l ((r.published event).complete .preStart (some error))
  | giveUpStart {error failure : Raised} {event : Envelope ν} : l = .fails failure → failure.cancelled = false →
    r.phase = .restarting error event →
    Move r l (r.complete .preStart (some error))
  | begin : r.phase = .spawned → Move r l { r with phase := .preparing }
  | prepared : r.phase = .preparing → Move r l { r with phase := .streaming }
  | accept {event : Envelope ν} {snapshot : JsonObject ν} : r.phase = .streaming →
    (event.op = .set ∨ event.op = .append) → r.context.publishedSeq < event.seq →
    Python.applyEvent r.context.snapshot event = .returned snapshot →
    Move r l { r with
      phase := .publishing event r.context.snapshot
      context := { r.context with snapshot := snapshot }
      pending := publish event }
  | resumed {event : Envelope ν} {before : JsonObject ν} : l = .resumes → r.phase = .publishing event before →
    r.pending = [] →
    Move r l { r.published event with phase := .streaming }
  | endBusiness {source : CompletionSource} {error : Option Raised} : r.phase.inBusiness = true →
    (r.phase = .preparing ∨ r.phase = .streaming ∨ ∃ failure, l = .fails failure) →
    Move r l (r.complete source error)
  /-- the reducer has refused a patch -/
  | refused {event : Envelope ν} {rejection : Rejection} {snapshot : JsonObject ν} {source : CompletionSource}
    {error : Option Raised} : r.phase = .streaming → (event.op = .set ∨ event.op = .append) →
    Python.applyEvent r.context.snapshot event = .raised rejection snapshot →
    Move r l ({ r with context := { r.context with snapshot := snapshot } }.complete source error)
  | finalize {source : CompletionSource} {error completionError : Option Raised} :
    (l = .returns ∨ ∃ error, l = .raises error) → r.phase = .completing source error →
    Move r l (r.finalize (outcomeOf source error completionError))
  | errorStored {outcome : Outcome} {event : Envelope ν} : r.phase = .publishingError outcome event →
    r.pending = [] → Move r l ((r.published event).beginEnd outcome [⟨event, true⟩] true)
  | errorLost {outcome : Outcome} {event : Envelope ν} : r.phase = .publishingError outcome event →
    Move r l (r.beginEnd outcome [⟨event, false⟩] false)
  | endStored {outcome : Outcome} {terminal : List (TerminalEvent ν)} {event : Envelope ν} :
    r.phase = .publishingEnd outcome terminal event → r.pending = [] →
    Move r l ((r.published event).beginMark outcome (terminal ++ [⟨event, true⟩]))
  | endLost {outcome : Outcome} {terminal : List (TerminalEvent ν)} {event : Envelope ν} :
    r.phase = .publishingEnd outcome terminal event →
    Move r l (r.beginMark outcome (terminal ++ [⟨event, false⟩]))
  | finish {outcome : Outcome} {terminal : List (TerminalEvent ν)} : r.phase = .marking outcome terminal →
    Move r l (r.finish outcome terminal)
  /-- an exception leaves the coroutine or the execute task -/
  | die {snapshot : JsonObject ν} : r.phase ≠ .preStart → r.phase.isOver = false →
    Move r l { r with phase := .raised, pending := [], context := { r.context with snapshot := snapshot } }

omit [DecidableEq ν] in
/-- The end of the business invokes `complete`, unless the execute task has been abandoned. -/
theorem endBusiness_cases (error : Option Raised) (r : State κ ν) :
    (∃ source error', r.endBusiness error = r.complete source error') ∨
      r.endBusiness error = { r with phase := .raised, pending := [] } := by
  unfold State.endBusiness
  split
  · exact .inr rfl
  · exact .inl ⟨_, _, rfl⟩
  · exact .inl ⟨_, _, rfl⟩
  · rename_i error _
    cases error.cancelled
    · exact .inl ⟨_, _, rfl⟩
    · exact .inl ⟨_, _, rfl⟩

theorem move_endBusiness {r : State κ ν} {l : Label κ ν} (h : r.phase.inBusiness = true)
    (hl : r.phase = .preparing ∨ r.phase = .streaming ∨ ∃ failure, l = .fails failure) (error : Option Raised) :
    Move r l (r.endBusiness error) := by
  rcases endBusiness_cases error r with ⟨source, error', heq⟩ | heq <;> rw [heq]
  · exact .endBusiness h hl
  · cases hphase : r.phase <;> simp only [hphase, Phase.inBusiness, reduceCtorEq] at h
    all_goals exact .die (by simp [hphase]) (by rw [hphase]; rfl)

theorem move_failPreStart {r : State κ ν} {l : Label κ ν}
    (h : r.phase = .preStart ∨ ∃ event, r.phase = .starting event) (error : Raised) :
    Move r l (r.failPreStart error) := by
  unfold State.failPreStart
  split_ifs with hzero
  · exact .restart h hzero
  · exact .failStarted h hzero

theorem move_yielded {r : State κ ν} {l : Label κ ν} (h : r.phase = .streaming) (value : Yielded ν)
    (error : Raised) : Move r l (r.yielded value error) := by
  have hbusiness : r.phase.inBusiness = true := by rw [h]; rfl
  unfold State.yielded
  split
  · exact move_endBusiness hbusiness (.inr (.inl h)) _
  · split
    · exact move_endBusiness hbusiness (.inr (.inl h)) _
    · rename_i hcheck
      obtain ⟨hop, hseq⟩ := checkPatch_eq_ok.mp hcheck
      split
      · rename_i rejection snapshot happly
        rcases endBusiness_cases (some error) { r with context := { r.context with snapshot := snapshot } } with
          ⟨source, error', heq⟩ | heq <;> rw [heq]
        · exact .refused h hop happly
        · exact .die (by simp [h]) (by rw [h]; rfl)
      · rename_i snapshot happly
        exact .accept h hop hseq happly

theorem move_returns {r r' : State κ ν} (h : r.returns = some r') : Move r (.returns : Label κ ν) r' := by
  unfold State.returns at h
  cases hphase : r.phase <;> simp only [hphase, Option.some.injEq, reduceCtorEq] at h <;> subst h
  case preStart => exact .start hphase
  case spawned => exact .begin hphase
  case preparing => exact .prepared hphase
  case streaming => exact move_endBusiness (by rw [hphase]; rfl) (.inr (.inl hphase)) none
  case completing => exact .finalize (.inl rfl) hphase

theorem move_raises {r r' : State κ ν} {error : Raised} (h : r.raises error = some r') :
    Move r (.raises error : Label κ ν) r' := by
  unfold State.raises at h
  cases hphase : r.phase <;> simp only [hphase, Option.some.injEq, reduceCtorEq] at h <;> subst h
  case preStart => exact move_failPreStart (.inl hphase) error
  case preparing => exact move_endBusiness (by rw [hphase]; rfl) (.inl hphase) _
  case streaming => exact move_endBusiness (by rw [hphase]; rfl) (.inr (.inl hphase)) _
  case completing => exact .finalize (.inr ⟨error, rfl⟩) hphase

theorem move_resumes {r r' : State κ ν} (hpending : r.pending = []) (h : r.resumes = some r') :
    Move r (.resumes : Label κ ν) r' := by
  unfold State.resumes at h
  cases hphase : r.phase <;> simp only [hphase, Option.some.injEq, reduceCtorEq] at h <;> subst h
  case starting => exact .started hphase hpending
  case restarting => exact .restarted rfl hphase hpending
  case publishing => exact .resumed rfl hphase hpending
  case publishingError => exact .errorStored hphase hpending
  case publishingEnd => exact .endStored hphase hpending
  case marking => exact .finish hphase

theorem move_fails {r r' : State κ ν} {error : Raised} (h : r.fails error = some r') :
    Move r (.fails error : Label κ ν) r' := by
  have hdie : r.phase ≠ .preStart → r.phase.isOver = false →
      Move r (.fails error : Label κ ν) { r with phase := .raised, pending := [] } := fun hne hover => .die hne hover
  unfold State.fails at h
  cases hphase : r.phase <;> simp only [hphase, Option.some.injEq, reduceCtorEq] at h
  case starting event =>
    subst h
    exact move_failPreStart (.inr ⟨event, hphase⟩) error
  case publishing =>
    subst h
    exact move_endBusiness (by rw [hphase]; rfl) (.inr (.inr ⟨error, rfl⟩)) _
  -- a cancellation leaves the run, what else fails there is logged and the run goes on
  all_goals
    by_cases hcancelled : error.cancelled = true
    · rw [if_pos hcancelled] at h
      obtain rfl := Option.some.inj h
      exact hdie (by simp [hphase]) (by rw [hphase]; rfl)
    · rw [if_neg hcancelled] at h
      obtain rfl := Option.some.inj h
      first
        | exact .giveUpStart rfl (by simpa using hcancelled) hphase
        | exact .errorLost hphase
        | exact .endLost hphase
        | exact .finish hphase

theorem move_of_step [LinearOrder κ] {r r' : State κ ν} {l : Label κ ν} (h : step r l = some r') : Move r l r' := by
  cases l with
  | emits offset =>
    simp only [step] at h
    split_ifs at h with hguard
    obtain rfl := Option.some.inj h
    exact .idle rfl (fun _ => rfl) (fun _ => rfl) rfl rfl hguard.2
  | remodels model =>
    simp only [step] at h
    split_ifs at h with hguard
    obtain rfl := Option.some.inj h
    exact .idle rfl (fun _ => rfl) (fun hne => by simp [hguard] at hne) rfl rfl le_rfl
  | yields value error =>
    simp only [step] at h
    cases hphase : r.phase <;> simp only [hphase, reduceCtorEq] at h
    split_ifs at h
    obtain rfl := Option.some.inj h
    exact move_yielded hphase value error
  | returns => exact move_returns h
  | raises error => exact move_raises h
  | send fresh =>
    simp only [step] at h
    cases hpending : r.pending with
    | nil => simp [hpending] at h
    | cons command rest =>
      simp only [hpending] at h
      split_ifs at h
      obtain rfl := Option.some.inj h
      exact .send rfl hpending
  | resumes =>
    simp only [step] at h
    split_ifs at h with hpending
    exact move_resumes (List.isEmpty_iff.mp hpending) h
  | fails error =>
    simp only [step] at h
    split_ifs at h
    exact move_fails h
  | interrupts source error =>
    simp only [step] at h
    split_ifs at h
    obtain rfl := Option.some.inj h
    exact .idle rfl nofun (fun _ => rfl) rfl rfl le_rfl
  | abandons =>
    simp only [step] at h
    split at h
    · rename_i hphase
      obtain rfl := Option.some.inj h
      exact .die (by simp [hphase]) (by rw [hphase]; rfl)
    · split_ifs at h
      obtain rfl := Option.some.inj h
      exact .idle rfl nofun (fun _ => rfl) rfl rfl le_rfl
    · simp at h
  | closes =>
    obtain rfl := Option.some.inj h
    exact .idle rfl (fun _ => rfl) (fun _ => rfl) rfl rfl le_rfl

theorem fits_move {r r' : State κ ν} {l : Label κ ν} (h : Fits r) (hmove : Move r l r') : Fits r' := by
  cases hmove with
  | idle => exact h
  | send _ hpending =>
    unfold Fits at h ⊢
    cases hphase : r.phase <;> simp only [hphase, hpending, State.sent, reduceCtorEq] at h ⊢
    case marking =>
      obtain ⟨before, h⟩ := h
      exact ⟨before ++ [_], by rw [← h, List.append_assoc]; rfl⟩
  -- an error, an end, or the status where the error cannot be encoded
  | finalize =>
    unfold State.finalize State.beginEnd
    dsimp only
    split
    · trivial
    · split
      · trivial
      · exact ⟨[], rfl⟩
  | started _ hpending => exact hpending
  | resumed _ _ hpending => exact hpending
  | errorLost => exact ⟨[], rfl⟩
  | endStored => exact ⟨[], rfl⟩
  | endLost => exact ⟨[], rfl⟩
  | begin hphase => simpa [Fits, hphase] using h
  | prepared hphase => simpa [Fits, hphase] using h
  | finish =>
    unfold State.finish Fits
    dsimp only
    split_ifs <;> rfl
  | start | restart | accept | errorStored => trivial
  | failStarted | restarted | giveUpStart | endBusiness | refused | die => rfl

section

omit [DecidableEq ν]

theorem beginEnd_verdict (outcome : Outcome) (terminal : List (TerminalEvent ν)) (persisted : Bool) (r : State κ ν) :
    (r.beginEnd outcome terminal persisted).verdict = r.verdict := by
  cases persisted <;> rfl

theorem finalize_verdict (outcome : Outcome) (r : State κ ν) : (r.finalize outcome).verdict = r.verdict := by
  unfold State.finalize
  cases outcome.error with
  | none => exact beginEnd_verdict ..
  | some error =>
    dsimp only
    split_ifs
    · rfl
    · exact beginEnd_verdict ..

theorem beginEnd_store (outcome : Outcome) (terminal : List (TerminalEvent ν)) (persisted : Bool) (r : State κ ν) :
    (r.beginEnd outcome terminal persisted).store = r.store := by
  cases persisted <;> rfl

theorem finalize_store (outcome : Outcome) (r : State κ ν) : (r.finalize outcome).store = r.store := by
  unfold State.finalize
  cases outcome.error with
  | none => exact beginEnd_store ..
  | some error =>
    dsimp only
    split_ifs
    · rfl
    · exact beginEnd_store ..

end

/-- A step sends the next command or leaves the store alone. -/
theorem store_move {r r' : State κ ν} {l : Label κ ν} (hmove : Move r l r') :
    r'.store = r.store ∨ ∃ fresh command rest, l = .send fresh ∧ r.pending = command :: rest ∧
      r' = r.sent fresh command rest := by
  cases hmove with
  | send hl hpending => exact .inr ⟨_, _, _, hl, hpending, rfl⟩
  | finalize => exact .inl (finalize_store _ r)
  | errorStored => exact .inl (beginEnd_store ..)
  | errorLost => exact .inl (beginEnd_store ..)
  | _ => exact .inl rfl

/-- The verdict changes only from outside. -/
theorem verdict_move {r r' : State κ ν} {l : Label κ ν} (hl : l.cancels = false) (hmove : Move r l r') :
    r'.verdict = r.verdict := by
  cases hmove with
  | idle _ hverdict => exact hverdict hl
  | finalize => exact finalize_verdict _ r
  | errorStored => exact beginEnd_verdict ..
  | errorLost => exact beginEnd_verdict ..
  | _ => rfl

end

/-! ## A chat -/

/-- An empty model. -/
def chatModel : Model ℕ where
  doc := [("version", .str "1.1"), ("biz", .str "chat"), ("meta", .obj []), ("blocks", .arr [])]
  valid := by decide
  hasBlocks := by decide

/-- A run up to the first patch of `stream`. -/
def startsChat : List (Label ℕ ℕ) :=
  [.returns, .send 1, .send 2, .send 2, .resumes, .returns, .returns]

/-- A set of the title. -/
def titleEvent (seq : ℕ) : Envelope ℕ :=
  ⟨.set, seq, none, none, some "meta.title", none, none, some [("title", .str "t")], none⟩

/-- An exception without a text. -/
def silentError : Raised := ⟨"runtime", "", false, true, true⟩

end AgentUE.PythonRunner.Run
