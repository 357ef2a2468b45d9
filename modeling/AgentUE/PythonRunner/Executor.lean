import AgentUE.PythonRunner.Redis

/-!
# Python runner: the execute task

Reference: `_run_business`, `_finalize` and `_publish_terminal` in
`sdks/python/src/agentue/runner/runner.py`. What the task sends is a list of commands that it takes one
after the other; the application decides what is published and whether it fails. No command fails.
-/

namespace AgentUE.PythonRunner

open Data

variable {κ ν : Type}

/-- What `_error_code` and `_error_message` make of an exception. -/
structure Failure where
  code : String
  message : String
deriving DecidableEq

/-- Where the task stands. -/
inductive Phase (ν : Type) where
  /-- in the application: `prepare` or the next event of `stream` -/
  | business
  /-- in the `publish` of an event -/
  | publishing (seq : ℕ)
  /-- in `complete`, with the error that ended the business -/
  | completing (error : Option Failure)
  /-- publishing the terminal events and marking the task -/
  | finalizing (terminal : List (Envelope ν))
  /-- ended with the terminal events as its result -/
  | returned (terminal : List (Envelope ν))
  /-- ended by a cancellation -/
  | aborted
deriving DecidableEq

/-- The task with `published_seq`, the offset of the emitter and the commands it has still to send. -/
structure Executor (ν : Type) where
  phase : Phase ν
  publishedSeq : ℕ
  offset : ℕ
  pending : List (Command ν)
deriving DecidableEq

/-- A task that begins after its start has been published. -/
def Executor.init : Executor ν := ⟨.business, 1, 1, []⟩

/-- The events that `_finalize` makes: `error_json` if there is an error, and `end_json`. -/
def terminalEvents (offset : ℕ) : Option Failure → List (Envelope ν)
  | some error => [errorEvent error.code error.message (offset + 1), endEvent (offset + 2)]
  | none => [endEvent (offset + 1)]

/-- The status that `_finalize` marks. -/
def terminalStatus (error : Option Failure) : Status := if error.isSome then .failed else .completed

/-- What `_finalize` sends after `complete`. -/
def finalizeCommands (offset : ℕ) (error : Option Failure) : List (Command ν) :=
  (terminalEvents offset error).flatMap publish ++ markTerminal (terminalStatus error)

/-- What the application and the event loop have the task do. -/
inductive Action (ν : Type) where
  /-- a callback takes a number of the emitter -/
  | emits
  /-- `stream` yields an event -/
  | yields (event : Envelope ν)
  /-- the next command is sent -/
  | send
  /-- the business ends: by itself, by an exception, or cancelled after a stall, a lost heartbeat or a
  cancellation of the task -/
  | finish (error : Option Failure)
  /-- `complete` returns or fails -/
  | completed (error : Option Failure)
  /-- the task ends after everything has been sent -/
  | exit
  /-- a cancellation ends the task -/
  | abort
deriving DecidableEq

/-- The task after its next command has been sent. -/
def Executor.sent (e : Executor ν) (rest : List (Command ν)) : Executor ν :=
  match e.phase, rest with
  | .publishing seq, [] => { e with phase := .business, publishedSeq := seq, pending := [] }
  | _, _ => { e with pending := rest }

/-- The task has ended. -/
def Executor.done (e : Executor ν) : Bool :=
  match e.phase with
  | .returned _ | .aborted => true
  | _ => false

/-- One step of the task, with the command that Redis runs for it. -/
def Executor.step (e : Executor ν) : Action ν → Option (Option (Command ν) × Executor ν)
  | .emits =>
    match e.phase with
    | .business | .completing _ => some (none, { e with offset := e.offset + 1 })
    | _ => none
  | .yields event =>
    match e.phase with
    | .business =>
      -- any other event is an exception in `_run_business`
      if (event.op = .set ∨ event.op = .append) ∧ e.publishedSeq < event.seq then
        some (none, { e with phase := .publishing event.seq, pending := publish event })
      else none
    | _ => none
  | .send =>
    match e.phase, e.pending with
    | .publishing _, command :: rest | .finalizing _, command :: rest => some (some command, e.sent rest)
    | _, _ => none
  | .finish error =>
    match e.phase with
    | .business | .publishing _ => some (none, { e with phase := .completing error, pending := [] })
    | _ => none
  | .completed error =>
    match e.phase with
    | .completing businessError =>
      let effective := businessError.or error
      some (none, { e with phase := .finalizing (terminalEvents e.offset effective)
                           pending := finalizeCommands e.offset effective })
    | _ => none
  | .exit =>
    match e.phase, e.pending with
    | .finalizing terminal, [] => some (none, { e with phase := .returned terminal })
    | _, _ => none
  | .abort => if e.done then none else some (none, { e with phase := .aborted })

/-! ## The course of its commands -/

/-- The command appends an end. -/
def Command.endsStream : Command ν → Bool
  | .xadd event => event.op == .end_
  | _ => false

/-- The command writes the status. -/
def Command.marks : Command ν → Bool
  | .hsetStatus _ => true
  | _ => false

/-- A writer with these commands ahead has appended its end and not yet written its status. -/
def closing (commands : List (Command ν)) : Bool :=
  commands.any Command.marks && !commands.any Command.endsStream

/-- How much of its outcome a writer has still to write: nothing, its status, or its end and its status. -/
inductive Stage where
  | quiet
  | closing
  | ending
deriving DecidableEq

/-- Commands that write as much as their stage says, the end before a terminal status. -/
inductive Course : Stage → List (Command ν) → Prop
  | nil : Course .quiet []
  | plain {stage : Stage} {command : Command ν} {rest : List (Command ν)} : command.endsStream = false →
    command.marks = false → Course stage rest → Course stage (command :: rest)
  | status {status : Status} {rest : List (Command ν)} : status ≠ .running → Course .quiet rest →
    Course .closing (.hsetStatus status :: rest)
  | end_ {event : Envelope ν} {rest : List (Command ν)} : event.op = .end_ → Course .closing rest →
    Course .ending (.xadd event :: rest)

theorem Course.any_marks {stage : Stage} {commands : List (Command ν)} (h : Course stage commands) :
    commands.any Command.marks = decide (stage ≠ .quiet) := by
  induction h with
  | nil => rfl
  | plain _ hmarks _ ih => rw [List.any_cons, hmarks, Bool.false_or, ih]
  | status _ _ _ => rfl
  | end_ _ _ ih => rw [List.any_cons, ih]; rfl

theorem Course.any_endsStream {stage : Stage} {commands : List (Command ν)} (h : Course stage commands) :
    commands.any Command.endsStream = decide (stage = .ending) := by
  induction h with
  | nil => rfl
  | plain hends _ _ ih => rw [List.any_cons, hends, Bool.false_or, ih]
  | status _ _ ih => rw [List.any_cons, ih]; rfl
  | end_ hop _ _ => simp [Command.endsStream, hop]

theorem Course.closing_eq {stage : Stage} {commands : List (Command ν)} (h : Course stage commands) :
    closing commands = decide (stage = .closing) := by
  rw [closing, h.any_marks, h.any_endsStream]
  cases stage <;> rfl

/-- Commands in front that write nothing of the outcome. -/
theorem Course.append {stage : Stage} {before commands : List (Command ν)}
    (hbefore : ∀ command ∈ before, command.endsStream = false ∧ command.marks = false) (h : Course stage commands) :
    Course stage (before ++ commands) := by
  induction before with
  | nil => exact h
  | cons command before ih =>
    obtain ⟨hends, hmarks⟩ := hbefore command (by simp)
    exact .plain hends hmarks (ih fun c hc => hbefore c (List.mem_cons_of_mem _ hc))

theorem course_markTerminal {status : Status} (h : status ≠ .running) :
    Course .closing (markTerminal status : List (Command ν)) :=
  .status h (.plain rfl rfl (.plain rfl rfl .nil))

theorem plain_of_mem_publish {event : Envelope ν} (hop : event.op ≠ .end_) {command : Command ν}
    (h : command ∈ publish event) : command.endsStream = false ∧ command.marks = false := by
  simp only [publish, List.mem_cons, List.not_mem_nil, or_false] at h
  rcases h with rfl | rfl | rfl
  · exact ⟨by simpa [Command.endsStream] using hop, rfl⟩
  · exact ⟨rfl, rfl⟩
  · exact ⟨rfl, rfl⟩

theorem course_publish {event : Envelope ν} (hop : event.op ≠ .end_) : Course .quiet (publish event) := by
  rw [← List.append_nil (publish event)]
  exact .append (fun _ h => plain_of_mem_publish hop h) .nil

/-- Events before an end, the end and a terminal status. -/
theorem course_ending {events : List (Envelope ν)} (hevents : ∀ event ∈ events, event.op ≠ .end_) (seq : ℕ)
    {status : Status} (hstatus : status ≠ .running) :
    Course .ending ((events ++ [endEvent seq]).flatMap publish ++ markTerminal status) := by
  rw [List.flatMap_append, List.append_assoc]
  refine .append (fun command h => ?_) (.end_ rfl (.plain rfl rfl (.plain rfl rfl (course_markTerminal hstatus))))
  obtain ⟨event, hevent, hcommand⟩ := List.mem_flatMap.mp h
  exact plain_of_mem_publish (hevents event hevent) hcommand

theorem course_finalizeCommands (offset : ℕ) (error : Option Failure) :
    Course .ending (finalizeCommands offset error : List (Command ν)) := by
  cases error with
  | none =>
    have hevents : ∀ event ∈ ([] : List (Envelope ν)), event.op ≠ .end_ := by simp
    exact course_ending hevents _ (by simp [terminalStatus])
  | some error =>
    have hevents : ∀ event ∈ [(errorEvent error.code error.message (offset + 1) : Envelope ν)], event.op ≠ .end_ := by
      simp [errorEvent]
    exact course_ending hevents _ (by simp [terminalStatus])

/-- The commands ahead of the task go with its phase. -/
structure Executor.Sound (e : Executor ν) : Prop where
  course : ∃ stage, Course stage e.pending
  business : e.phase = .business → e.pending = []
  publishing : ∀ seq, e.phase = .publishing seq → Course .quiet e.pending
  completing : ∀ error, e.phase = .completing error → e.pending = []

/-- A step of the task sends the next command, changes from one course without an end to another, or
changes no command that is ahead. -/
inductive Executor.Move (e : Executor ν) : Option (Command ν) → Executor ν → Prop
  | send {command : Command ν} {rest : List (Command ν)} {e' : Executor ν} : e.pending = command :: rest →
    e'.pending = rest → e'.Sound → Move e (some command) e'
  | plan {stage : Stage} {e' : Executor ν} : Course .quiet e.pending → Course stage e'.pending → stage ≠ .closing →
    e'.Sound → Move e none e'
  | keep {e' : Executor ν} : e'.pending = e.pending → e'.Sound → Move e none e'

theorem Course.tail {stage : Stage} {command : Command ν} {rest : List (Command ν)}
    (h : Course stage (command :: rest)) : ∃ stage, Course stage rest := by
  cases h with
  | plain _ _ h => exact ⟨_, h⟩
  | status _ h => exact ⟨_, h⟩
  | end_ _ h => exact ⟨_, h⟩

theorem Course.tail_quiet {command : Command ν} {rest : List (Command ν)} (h : Course .quiet (command :: rest)) :
    Course .quiet rest := by
  cases h with
  | plain _ _ h => exact h

theorem Executor.Sound.congr {e e' : Executor ν} (h : e.Sound) (hphase : e'.phase = e.phase)
    (hpending : e'.pending = e.pending) : e'.Sound := by
  obtain ⟨hcourse, hbusiness, hpublishing, hcompleting⟩ := h
  constructor <;> rw [hpending] <;> first | assumption | (rw [hphase]; assumption)

theorem Executor.sound_sent {e : Executor ν} {command : Command ν} {rest : List (Command ν)} (h : e.Sound)
    (hpending : e.pending = command :: rest)
    (hphase : (∃ seq, e.phase = .publishing seq) ∨ ∃ terminal, e.phase = .finalizing terminal) :
    (e.sent rest).pending = rest ∧ (e.sent rest).Sound := by
  obtain ⟨stage, hcourse⟩ := h.course
  rw [hpending] at hcourse
  rcases hphase with ⟨seq, hphase⟩ | ⟨terminal, hphase⟩
  · have hquiet := h.publishing seq hphase
    rw [hpending] at hquiet
    cases rest with
    | nil => exact ⟨by simp [sent, hphase], by constructor <;> simp [sent, hphase, Course.nil]; exact ⟨_, .nil⟩⟩
    | cons next rest =>
      refine ⟨by simp [sent, hphase], ⟨?_, ?_, ?_, ?_⟩⟩
      · simpa [sent, hphase] using hcourse.tail
      · simp [sent, hphase]
      · simpa [sent, hphase] using hquiet.tail_quiet
      · simp [sent, hphase]
  · refine ⟨by simp [sent, hphase], ⟨?_, ?_, ?_, ?_⟩⟩
    · simpa [sent, hphase] using hcourse.tail
    · simp [sent, hphase]
    · simp [sent, hphase]
    · simp [sent, hphase]

/-- What a step of the task does, and when. -/
inductive Executor.Stepped (e : Executor ν) : Action ν → Option (Command ν) → Executor ν → Prop
  | emits : (e.phase = .business ∨ ∃ error, e.phase = .completing error) →
    Stepped e .emits none { e with offset := e.offset + 1 }
  | yields {event : Envelope ν} : e.phase = .business → (event.op = .set ∨ event.op = .append) →
    e.publishedSeq < event.seq →
    Stepped e (.yields event) none { e with phase := .publishing event.seq, pending := publish event }
  | sendEvent {seq : ℕ} {command : Command ν} {rest : List (Command ν)} : e.phase = .publishing seq →
    e.pending = command :: rest → Stepped e .send (some command) (e.sent rest)
  | sendEnd {terminal : List (Envelope ν)} {command : Command ν} {rest : List (Command ν)} :
    e.phase = .finalizing terminal → e.pending = command :: rest → Stepped e .send (some command) (e.sent rest)
  | finish {error : Option Failure} : (e.phase = .business ∨ ∃ seq, e.phase = .publishing seq) →
    Stepped e (.finish error) none { e with phase := .completing error, pending := [] }
  | completed {businessError error : Option Failure} : e.phase = .completing businessError →
    Stepped e (.completed error) none
      { e with phase := .finalizing (terminalEvents e.offset (businessError.or error))
               pending := finalizeCommands e.offset (businessError.or error) }
  | exit {terminal : List (Envelope ν)} : e.phase = .finalizing terminal → e.pending = [] →
    Stepped e .exit none { e with phase := .returned terminal }
  | abort : e.done = false → Stepped e .abort none { e with phase := .aborted }

theorem Executor.stepped_of_step {e e' : Executor ν} {action : Action ν} {command : Option (Command ν)}
    (hstep : e.step action = some (command, e')) : e.Stepped action command e' := by
  obtain ⟨phase, publishedSeq, offset, pending⟩ := e
  cases action with
  | emits =>
    cases phase <;> simp only [step, Option.some.injEq, Prod.mk.injEq, reduceCtorEq] at hstep
    all_goals obtain ⟨rfl, rfl⟩ := hstep
    case business => exact .emits (.inl rfl)
    case completing error => exact .emits (.inr ⟨error, rfl⟩)
  | yields event =>
    cases phase <;> simp only [step, reduceCtorEq] at hstep
    split_ifs at hstep with hevent
    simp only [Option.some.injEq, Prod.mk.injEq] at hstep
    obtain ⟨rfl, rfl⟩ := hstep
    exact .yields rfl hevent.1 hevent.2
  | send =>
    cases pending with
    | nil => cases phase <;> cases hstep
    | cons command rest =>
      cases phase <;> simp only [step, Option.some.injEq, Prod.mk.injEq, reduceCtorEq] at hstep
      all_goals obtain ⟨rfl, rfl⟩ := hstep
      case publishing seq => exact .sendEvent rfl rfl
      case finalizing terminal => exact .sendEnd rfl rfl
  | finish error =>
    cases phase <;> simp only [step, Option.some.injEq, Prod.mk.injEq, reduceCtorEq] at hstep
    all_goals obtain ⟨rfl, rfl⟩ := hstep
    case business => exact .finish (.inl rfl)
    case publishing seq => exact .finish (.inr ⟨seq, rfl⟩)
  | completed error =>
    cases phase <;> simp only [step, Option.some.injEq, Prod.mk.injEq, reduceCtorEq] at hstep
    obtain ⟨rfl, rfl⟩ := hstep
    exact .completed rfl
  | exit =>
    cases pending with
    | cons command rest => cases phase <;> cases hstep
    | nil =>
      cases phase <;> simp only [step, Option.some.injEq, Prod.mk.injEq, reduceCtorEq] at hstep
      obtain ⟨rfl, rfl⟩ := hstep
      exact .exit rfl rfl
  | abort =>
    simp only [step] at hstep
    split_ifs at hstep with hdone
    simp only [Option.some.injEq, Prod.mk.injEq] at hstep
    obtain ⟨rfl, rfl⟩ := hstep
    exact .abort (by simpa using hdone)

theorem Executor.move_step {e e' : Executor ν} {action : Action ν} {command : Option (Command ν)}
    (h : e.Sound) (hstep : e.step action = some (command, e')) : e.Move command e' := by
  cases stepped_of_step hstep with
  | emits => exact .keep rfl (h.congr rfl rfl)
  | @yields event hphase hop =>
    have hquiet : Course .quiet (publish event) := course_publish (by rcases hop with h | h <;> simp [h])
    have hnil := h.business hphase
    exact .plan (by rw [hnil]; exact .nil) hquiet (by simp) ⟨⟨_, hquiet⟩, by simp, fun _ _ => hquiet, by simp⟩
  | @sendEvent seq _ _ hphase hpending =>
    obtain ⟨hrest, hsound⟩ := sound_sent h hpending (.inl ⟨seq, hphase⟩)
    exact .send hpending hrest hsound
  | @sendEnd terminal _ _ hphase hpending =>
    obtain ⟨hrest, hsound⟩ := sound_sent h hpending (.inr ⟨terminal, hphase⟩)
    exact .send hpending hrest hsound
  | finish hphase =>
    have hquiet : Course .quiet e.pending := by
      rcases hphase with hphase | ⟨seq, hphase⟩
      · rw [h.business hphase]
        exact .nil
      · exact h.publishing seq hphase
    exact .plan hquiet .nil (by simp) ⟨⟨_, .nil⟩, by simp, by simp, by simp⟩
  | completed hphase =>
    refine .plan (by rw [h.completing _ hphase]; exact .nil) (course_finalizeCommands _ _) (by simp) ?_
    exact ⟨⟨_, course_finalizeCommands _ _⟩, by simp, by simp, by simp⟩
  | exit hphase hpending => exact .keep rfl ⟨h.course, by simp, by simp, by simp⟩
  | abort => exact .keep rfl ⟨h.course, by simp, by simp, by simp⟩

end AgentUE.PythonRunner
