import AgentUE.Data.Machine
import AgentUE.PythonRunner.Executor
import Mathlib.Logic.Function.Basic

/-!
# Python runner: recovery of a task whose heartbeat has expired

Reference: `recover_timeouts` and `_recover_task` in `sdks/python/src/agentue/runner/runner.py`. Any number
of recoverers scan for the task while its execute task, which may have only been slow, goes on. The stream
and the status keep their order exactly when no event is appended once the outcome has begun to be written.
-/

namespace AgentUE.PythonRunner

open Data

variable {κ ν ι : Type}

/-! ## A recoverer -/

/-- Where a call of `recover_timeouts` stands with the task. -/
inductive RecoveryPhase where
  | idle
  /-- the task is among the expired ones -/
  | listed
  | claimed
  /-- in `complete` -/
  | completing
  | readingSeq
  | readingModel
  | sending
  | releasing
deriving DecidableEq

/-- A recoverer with the commands that it has still to send. -/
structure Recoverer (ν : Type) where
  phase : RecoveryPhase
  pending : List (Command ν)
deriving DecidableEq

/-- A recoverer between two scans. -/
def Recoverer.init : Recoverer ν := ⟨.idle, []⟩

/-- The events that `_recover_task` makes: a start where nothing has been published, an error and an end. -/
def recoveryEvents (offset : ℕ) (initialModel : Option (JsonObject ν)) : List (Envelope ν) :=
  let starts := if offset = 0 then (initialModel.map fun model => startEvent model 1).toList else []
  let offset := offset + starts.length
  starts ++ [errorEvent "heartbeat_timeout" "execute event loop heartbeat expired" (offset + 1)] ++
    [endEvent (offset + 2)]

/-- What `_recover_task` sends after its reads. -/
def recoveryCommands (offset : ℕ) (initialModel : Option (JsonObject ν)) : List (Command ν) :=
  (recoveryEvents offset initialModel).flatMap publish ++ markTerminal .failed

/-- One step of a recoverer, with the command that writes; `cutoff` is the time before which a heartbeat has
expired. -/
def Recoverer.step (cutoff : ℕ) (store : Store κ ν) (r : Recoverer ν) :
    Option (Command ν) × Bool × Recoverer ν :=
  match r.phase, r.pending with
  | .idle, _ => (none, store.claimed, if store.expired cutoff then ⟨.listed, []⟩ else r)
  -- `SET NX`
  | .listed, _ => if store.claimed then (none, true, ⟨.idle, []⟩) else (none, true, ⟨.claimed, []⟩)
  | .claimed, _ =>
    (none, store.claimed, if store.status = .running then ⟨.completing, []⟩ else ⟨.sending, forgetHeartbeat⟩)
  | .completing, _ => (none, store.claimed, ⟨.readingSeq, []⟩)
  | .readingSeq, _ =>
    (none, store.claimed,
      if store.lastSeq = 0 then ⟨.readingModel, []⟩ else ⟨.sending, recoveryCommands store.lastSeq none⟩)
  | .readingModel, _ => (none, store.claimed, ⟨.sending, recoveryCommands 0 store.initialModel⟩)
  | .sending, command :: rest =>
    (some command, store.claimed, if rest = [] then ⟨.releasing, []⟩ else ⟨.sending, rest⟩)
  | .sending, [] => (none, store.claimed, ⟨.releasing, []⟩)
  -- the delete asks nobody whose claim it is
  | .releasing, _ => (none, false, ⟨.idle, []⟩)

/-! ## The task among its recoverers -/

/-- The keys of the task, its execute task and the recoverers. -/
structure World (κ ν ι : Type) where
  store : Store κ ν
  executor : Executor ν
  recoverers : ι → Recoverer ν

/-- A step of the execute task, a beat of its heartbeat, a step of a recoverer, or the end of the lifetime of
the claim. -/
inductive Label (κ ν ι : Type) where
  | execute (action : Action ν) (fresh : κ)
  | heartbeat (time : ℕ)
  | recover (i : ι) (cutoff : ℕ) (fresh : κ)
  | claimExpires
deriving DecidableEq

/-- One step. -/
def step [LinearOrder κ] [DecidableEq ι] (w : World κ ν ι) : Label κ ν ι → Option (World κ ν ι)
  | .execute action fresh =>
    match w.executor.step action with
    | none => none
    | some (command, executor) =>
      if w.store.accepts fresh then
        some { w with store := w.store.runOption fresh command, executor := executor }
      else none
  | .heartbeat time =>
    match w.executor.phase with
    -- only a task that returns has waited for its heartbeat to end
    | .returned _ => none
    | _ => some { w with store := w.store.touch time }
  | .recover i cutoff fresh =>
    if w.store.accepts fresh then
      let (command, claimed, recoverer) := (w.recoverers i).step cutoff w.store
      some { w with
        store := { w.store.runOption fresh command with claimed := claimed }
        recoverers := Function.update w.recoverers i recoverer }
    else none
  | .claimExpires => some { w with store := { w.store with claimed := false } }

/-- The commands ahead of a writer: of the execute task or of a recoverer. -/
def World.pending (w : World κ ν ι) : Option ι → List (Command ν)
  | none => w.executor.pending
  | some i => (w.recoverers i).pending

/-! ## What is asked of the runs -/

/-- Nothing is behind an end. -/
def EndsLast (events : List (Stored κ ν)) : Prop :=
  ∀ before item behind, events = before ++ item :: behind → item.data.op = .end_ → behind = []

/-- The number of ends. -/
def endCount (events : List (Stored κ ν)) : ℕ := events.countP fun item => item.data.op == .end_

/-- The stream is in order: at most one end, and nothing behind it. -/
def InOrder (w : World κ ν ι) : Prop := endCount w.store.events ≤ 1 ∧ EndsLast w.store.events

/-- The step leaves a terminal status as it is. -/
def KeepsStatus [LinearOrder κ] [DecidableEq ι] (w : World κ ν ι) (l : Label κ ν ι) : Prop :=
  ∀ w', step w l = some w' → w.store.status ≠ .running → w'.store.status = w.store.status

/-- The command that the step sends, if it sends one. -/
def World.sends (w : World κ ν ι) : Label κ ν ι → Option (Command ν)
  | .execute action _ => (w.executor.step action).bind Prod.fst
  | .recover i cutoff _ => ((w.recoverers i).step cutoff w.store).1
  | _ => none

/-- The step appends no event, or it does so while the status of the task is still running and no writer has
appended its end without having written its status. -/
def Fenced (w : World κ ν ι) (l : Label κ ν ι) : Prop :=
  ∀ event, w.sends l = some (.xadd event) →
    w.store.status = .running ∧ ∀ writer, closing (w.pending writer) = false

/-- A task that is executed and not yet recovered, with no end in its stream. -/
structure Begun (w : World κ ν ι) : Prop where
  status : w.store.status = .running
  noEnd : ∀ item ∈ w.store.events, item.data.op ≠ .end_
  phase : w.executor.phase = .business
  pending : w.executor.pending = []
  recoverers : ∀ i, w.recoverers i = .init

/-! ## What a step does to the stream, the status and the commands ahead -/

theorem course_recoveryCommands (offset : ℕ) (initialModel : Option (JsonObject ν)) :
    Course .ending (recoveryCommands offset initialModel) := by
  refine course_ending (fun event hevent => ?_) _ (by simp)
  simp only [List.mem_append, List.mem_singleton] at hevent
  rcases hevent with hevent | rfl
  · split at hevent
    · obtain ⟨model, -, rfl⟩ : ∃ model, initialModel = some model ∧ startEvent model 1 = event := by
        simpa using hevent
      simp [startEvent]
    · simp at hevent
  · simp [errorEvent]

/-- The commands ahead of a recoverer go with its phase. -/
structure Recoverer.Sound (r : Recoverer ν) : Prop where
  course : ∃ stage, Course stage r.pending
  phase : r.phase ≠ .sending → r.pending = []

theorem Recoverer.sound_of_nil (phase : RecoveryPhase) : (⟨phase, []⟩ : Recoverer ν).Sound :=
  ⟨⟨_, .nil⟩, fun _ => rfl⟩

/-- A step of a recoverer sends the next command, or begins to send others. -/
theorem Recoverer.step_cases {r : Recoverer ν} (h : r.Sound) (cutoff : ℕ) (store : Store κ ν) :
    (∃ command rest, r.pending = command :: rest ∧ (r.step cutoff store).1 = some command ∧
        (r.step cutoff store).2.2.pending = rest ∧ (r.step cutoff store).2.2.Sound) ∨
      (r.pending = [] ∧ (r.step cutoff store).1 = none ∧ (r.step cutoff store).2.2.Sound ∧
        ∃ stage, stage ≠ .closing ∧ Course stage (r.step cutoff store).2.2.pending) := by
  obtain ⟨phase, pending⟩ := r
  have hnil : phase ≠ .sending → pending = [] := h.phase
  cases phase with
  | sending =>
    cases pending with
    | nil => exact .inr ⟨rfl, rfl, sound_of_nil _, _, by simp, .nil⟩
    | cons command rest =>
      refine .inl ⟨command, rest, rfl, rfl, ?_⟩
      obtain ⟨stage, hcourse⟩ := h.course
      simp only [step]
      split_ifs with hrest
      · exact ⟨hrest.symm, sound_of_nil _⟩
      · exact ⟨rfl, hcourse.tail, by simp⟩
  | idle =>
    obtain rfl := hnil (by simp)
    refine .inr ⟨rfl, rfl, ?_⟩
    simp only [step]
    split_ifs
    · exact ⟨sound_of_nil _, _, by simp, .nil⟩
    · exact ⟨sound_of_nil _, _, by simp, .nil⟩
  | listed =>
    obtain rfl := hnil (by simp)
    refine .inr ⟨rfl, ?_⟩
    simp only [step]
    split_ifs
    · exact ⟨rfl, sound_of_nil _, _, by simp, .nil⟩
    · exact ⟨rfl, sound_of_nil _, _, by simp, .nil⟩
  | claimed =>
    obtain rfl := hnil (by simp)
    refine .inr ⟨rfl, rfl, ?_⟩
    have hforget : Course .quiet (forgetHeartbeat : List (Command ν)) := .plain rfl rfl .nil
    simp only [step]
    split_ifs
    · exact ⟨sound_of_nil _, _, by simp, .nil⟩
    · exact ⟨⟨⟨_, hforget⟩, by simp⟩, _, by simp, hforget⟩
  | completing =>
    obtain rfl := hnil (by simp)
    exact .inr ⟨rfl, rfl, sound_of_nil _, _, by simp, .nil⟩
  | readingSeq =>
    obtain rfl := hnil (by simp)
    refine .inr ⟨rfl, rfl, ?_⟩
    have hcourse := @course_recoveryCommands ν store.lastSeq none
    simp only [step]
    split_ifs
    · exact ⟨sound_of_nil _, _, by simp, .nil⟩
    · exact ⟨⟨⟨_, hcourse⟩, by simp⟩, _, by simp, hcourse⟩
  | readingModel =>
    obtain rfl := hnil (by simp)
    have hcourse := course_recoveryCommands 0 store.initialModel
    exact .inr ⟨rfl, rfl, ⟨⟨_, hcourse⟩, fun hphase => absurd rfl hphase⟩, _, by simp, hcourse⟩
  | releasing =>
    obtain rfl := hnil (by simp)
    exact .inr ⟨rfl, rfl, sound_of_nil _, _, by simp, .nil⟩

/-- The commands ahead of every writer follow a course. -/
structure Sound (w : World κ ν ι) : Prop where
  executor : w.executor.Sound
  recoverers : ∀ i, (w.recoverers i).Sound

theorem Sound.course {w : World κ ν ι} (h : Sound w) (writer : Option ι) :
    ∃ stage, Course stage (w.pending writer) := by
  cases writer with
  | none => exact h.executor.course
  | some i => exact (h.recoverers i).course

/-- What one step does: a writer sends its next command, or it begins to send others and has begun no
outcome, or nothing of this changes. -/
inductive Move [DecidableEq ι] (w : World κ ν ι) (l : Label κ ν ι) (w' : World κ ν ι) : Prop
  | send (writer : Option ι) (command : Command ν) (rest : List (Command ν)) (fresh : κ) :
    w.sends l = some command → w.pending writer = command :: rest →
    w'.pending = Function.update w.pending writer rest →
    w'.store.events = (w.store.run fresh command).events → w'.store.status = (w.store.run fresh command).status →
    Move w l w'
  | plan (writer : Option ι) (stage : Stage) (commands : List (Command ν)) : w.sends l = none →
    Course .quiet (w.pending writer) → Course stage commands → stage ≠ .closing →
    w'.pending = Function.update w.pending writer commands → w'.store.events = w.store.events →
    w'.store.status = w.store.status → Move w l w'
  | keep : w.sends l = none → w'.pending = w.pending → w'.store.events = w.store.events →
    w'.store.status = w.store.status → Move w l w'

theorem World.pending_executor [DecidableEq ι] (w : World κ ν ι) (store : Store κ ν) (e : Executor ν) :
    ({ w with store := store, executor := e } : World κ ν ι).pending =
      Function.update w.pending none e.pending := by
  funext writer
  cases writer with
  | none => simp [World.pending]
  | some i => simp [World.pending]

theorem World.pending_recoverer [DecidableEq ι] (w : World κ ν ι) (store : Store κ ν) (i : ι) (r : Recoverer ν) :
    ({ w with store := store, recoverers := Function.update w.recoverers i r } : World κ ν ι).pending =
      Function.update w.pending (some i) r.pending := by
  funext writer
  cases writer with
  | none => simp [World.pending]
  | some j =>
    by_cases hij : j = i
    · subst hij
      simp [World.pending]
    · have hne : some j ≠ some i := fun h => hij (Option.some.inj h)
      simp [World.pending, Function.update_of_ne hij, Function.update_of_ne hne]

theorem move_of_step [LinearOrder κ] [DecidableEq ι] {w w' : World κ ν ι} {l : Label κ ν ι} (h : Sound w)
    (hstep : step w l = some w') : Sound w' ∧ Move w l w' := by
  cases l with
  | execute action fresh =>
    unfold step at hstep
    cases haction : w.executor.step action with
    | none => simp [haction] at hstep
    | some p =>
      obtain ⟨command, e⟩ := p
      simp only [haction] at hstep
      split at hstep
      · obtain rfl := Option.some.inj hstep
        have hpending := w.pending_executor (w.store.runOption fresh command) e
        have hsends : w.sends (.execute action fresh) = command := by simp [World.sends, haction]
        have hmove := Executor.move_step h.executor haction
        cases hmove with
        | send hahead hrest hsound =>
          rw [hrest] at hpending
          exact ⟨⟨hsound, h.recoverers⟩, .send none _ _ fresh hsends hahead hpending rfl rfl⟩
        | plan hquiet hcourse hstage hsound =>
          exact ⟨⟨hsound, h.recoverers⟩, .plan none _ _ hsends hquiet hcourse hstage hpending rfl rfl⟩
        | keep hsame hsound =>
          refine ⟨⟨hsound, h.recoverers⟩, .keep hsends ?_ rfl rfl⟩
          rw [hpending, hsame]
          exact Function.update_eq_self none w.pending
      · simp at hstep
  | heartbeat time =>
    unfold step at hstep
    dsimp only at hstep
    split at hstep
    · simp at hstep
    · obtain rfl := Option.some.inj hstep
      exact ⟨⟨h.executor, h.recoverers⟩, .keep rfl rfl rfl rfl⟩
  | claimExpires =>
    obtain rfl := Option.some.inj hstep
    exact ⟨⟨h.executor, h.recoverers⟩, .keep rfl rfl rfl rfl⟩
  | recover i cutoff fresh =>
    unfold step at hstep
    dsimp only at hstep
    split at hstep
    · obtain rfl := Option.some.inj hstep
      have hpending := w.pending_recoverer
        { w.store.runOption fresh ((w.recoverers i).step cutoff w.store).1 with
          claimed := ((w.recoverers i).step cutoff w.store).2.1 } i ((w.recoverers i).step cutoff w.store).2.2
      have hsound : ((w.recoverers i).step cutoff w.store).2.2.Sound →
          ∀ j, (Function.update w.recoverers i ((w.recoverers i).step cutoff w.store).2.2 j).Sound := by
        intro hi j
        by_cases hij : j = i
        · subst hij
          simpa using hi
        · rw [Function.update_of_ne hij]
          exact h.recoverers j
      rcases Recoverer.step_cases (h.recoverers i) cutoff w.store with
        ⟨command, rest, hahead, hcommand, hrest, hi⟩ | ⟨hnil, hcommand, hi, stage, hstage, hcourse⟩
      · rw [hrest] at hpending
        refine ⟨⟨h.executor, hsound hi⟩, .send (some i) command rest fresh hcommand hahead hpending ?_ ?_⟩
        · simp [Store.runOption, hcommand]
        · simp [Store.runOption, hcommand]
      · refine ⟨⟨h.executor, hsound hi⟩, .plan (some i) stage _ hcommand ?_ hcourse hstage hpending ?_ ?_⟩
        · show Course .quiet (w.recoverers i).pending
          rw [hnil]
          exact .nil
        · simp [Store.runOption, hcommand]
        · simp [Store.runOption, hcommand]
    · simp at hstep

/-! ## The outcome of a task -/

/-- The stream holds an end exactly when the status is terminal or a writer has its status still to write. -/
def Linked (w : World κ ν ι) : Prop :=
  Ended w.store.events ↔ w.store.status ≠ .running ∨ ∃ writer, closing (w.pending writer) = true

/-- At most one writer has its status still to write, and none when the status is terminal. -/
structure Exclusive (w : World κ ν ι) : Prop where
  one : ∀ x y, closing (w.pending x) = true → closing (w.pending y) = true → x = y
  none : w.store.status ≠ .running → ∀ x, closing (w.pending x) = false

/-- What is closing after a writer has come to other commands. -/
theorem closing_update [DecidableEq ι] {w w' : World κ ν ι} {writer : Option ι} {commands : List (Command ν)}
    (h : w'.pending = Function.update w.pending writer commands) (x : Option ι) :
    closing (w'.pending x) = if x = writer then closing commands else closing (w.pending x) := by
  rw [h]
  by_cases hx : x = writer
  · subst hx
    simp
  · simp [hx]

/-- Commands that are closing as little as those before them. -/
theorem closing_update_same [DecidableEq ι] {w w' : World κ ν ι} {writer : Option ι} {commands : List (Command ν)}
    (h : w'.pending = Function.update w.pending writer commands)
    (hsame : closing commands = closing (w.pending writer)) (x : Option ι) :
    closing (w'.pending x) = closing (w.pending x) := by
  rw [closing_update h]
  split_ifs with hx
  · rw [hx, hsame]
  · rfl

theorem linked_congr {w w' : World κ ν ι} (h : Linked w) (hended : Ended w'.store.events ↔ Ended w.store.events)
    (hstatus : w'.store.status = w.store.status)
    (hclosing : ∀ x, closing (w'.pending x) = closing (w.pending x)) : Linked w' := by
  unfold Linked at h ⊢
  rw [hended, h, hstatus]
  simp only [hclosing]

theorem exclusive_congr {w w' : World κ ν ι} (h : Exclusive w) (hstatus : w'.store.status = w.store.status)
    (hclosing : ∀ x, closing (w'.pending x) = closing (w.pending x)) : Exclusive w' := by
  constructor
  · simpa only [hclosing] using h.one
  · simpa only [hclosing, hstatus] using h.none

/-- The three kinds of commands that a writer sends. -/
theorem Course.head_cases {stage : Stage} {command : Command ν} {rest : List (Command ν)}
    (h : Course stage (command :: rest)) :
    (command.endsStream = false ∧ command.marks = false ∧ closing rest = closing (command :: rest)) ∨
      (∃ status, command = .hsetStatus status ∧ status ≠ .running ∧ closing (command :: rest) = true ∧
        closing rest = false) ∨
      ∃ event, command = .xadd event ∧ event.op = .end_ ∧ closing (command :: rest) = false ∧
        closing rest = true := by
  cases h with
  | plain hends hmarks hrest => exact .inl ⟨hends, hmarks, by simp [closing, hends, hmarks]⟩
  | status hstatus hrest =>
    refine .inr (.inl ⟨_, rfl, hstatus, ?_, ?_⟩)
    · simp [(Course.status hstatus hrest).closing_eq]
    · simp [hrest.closing_eq]
  | end_ hop hrest =>
    refine .inr (.inr ⟨_, rfl, hop, ?_, ?_⟩)
    · simp [(Course.end_ hop hrest).closing_eq]
    · simp [hrest.closing_eq]

/-- A command that neither ends the stream nor marks the task. -/
theorem run_of_plain {command : Command ν} (hends : command.endsStream = false) (hmarks : command.marks = false)
    (fresh : κ) (store : Store κ ν) :
    (Ended (store.run fresh command).events ↔ Ended store.events) ∧
      (store.run fresh command).status = store.status := by
  cases command with
  | xadd event =>
    have hop : event.op ≠ .end_ := by simpa [Command.endsStream] using hends
    exact ⟨by simp [Store.run, ended_append, hop], rfl⟩
  | hsetStatus status => simp [Command.marks] at hmarks
  | _ => exact ⟨Iff.rfl, rfl⟩

theorem linked_move [DecidableEq ι] {w w' : World κ ν ι} {l : Label κ ν ι} (hsound : Sound w) (h : Linked w)
    (hmove : Move w l w') : Linked w' := by
  cases hmove with
  | keep _ hpending hevents hstatus =>
    exact linked_congr h (by rw [hevents]) hstatus fun x => by rw [hpending]
  | plan writer stage commands _ hquiet hcourse hstage hpending hevents hstatus =>
    -- neither the commands before nor the new ones are between an end and its status
    refine linked_congr h (by rw [hevents]) hstatus (closing_update_same hpending ?_)
    rw [hcourse.closing_eq, hquiet.closing_eq]
    simpa using hstage
  | send writer command rest fresh _ hahead hpending hevents hstatus =>
    obtain ⟨stage, hcourse⟩ := hsound.course writer
    rw [hahead] at hcourse
    rcases hcourse.head_cases with ⟨hends, hmarks, hsame⟩ | ⟨status, rfl, hterminal, hclosing, -⟩ |
      ⟨event, rfl, hop, -, hclosing⟩
    · obtain ⟨hended, hrun⟩ := run_of_plain hends hmarks fresh w.store
      exact linked_congr h (by rw [hevents, hended]) (hstatus.trans hrun)
        (closing_update_same hpending (by rw [hahead, hsame]))
    · -- the writer has appended its end before
      have hended : Ended w.store.events := h.mpr (.inr ⟨writer, by rw [hahead, hclosing]⟩)
      refine ⟨fun _ => .inl (by rw [hstatus]; exact hterminal), fun _ => ?_⟩
      rw [hevents]
      exact hended
    · refine ⟨fun _ => .inr ⟨writer, by rw [hpending]; simpa using hclosing⟩, fun _ => ?_⟩
      rw [hevents]
      exact ended_append.mpr (.inr hop)

/-- Under fencing one writer at most comes to its outcome, and writes its status over a running one. -/
theorem exclusive_move [DecidableEq ι] {w w' : World κ ν ι} {l : Label κ ν ι} (hsound : Sound w) (h : Exclusive w)
    (hfenced : Fenced w l) (hmove : Move w l w') : Exclusive w' := by
  cases hmove with
  | keep _ hpending _ hstatus => exact exclusive_congr h hstatus fun x => by rw [hpending]
  | plan writer stage commands _ hquiet hcourse hstage hpending _ hstatus =>
    refine exclusive_congr h hstatus (closing_update_same hpending ?_)
    rw [hcourse.closing_eq, hquiet.closing_eq]
    simpa using hstage
  | send writer command rest fresh hsends hahead hpending hevents hstatus =>
    obtain ⟨stage, hcourse⟩ := hsound.course writer
    rw [hahead] at hcourse
    rcases hcourse.head_cases with ⟨hends, hmarks, hsame⟩ | ⟨status, rfl, hterminal, hclosing, hrest⟩ |
      ⟨event, rfl, hop, -, hclosing⟩
    · exact exclusive_congr h (hstatus.trans (run_of_plain hends hmarks fresh w.store).2)
        (closing_update_same hpending (by rw [hahead, hsame]))
    · -- the one writer that was closing has written its status
      have hnone : ∀ x, closing (w'.pending x) = false := by
        intro x
        rw [closing_update hpending]
        split_ifs with hx
        · exact hrest
        · rw [← Bool.not_eq_true]
          exact fun hx' => hx (h.one x writer hx' (by rw [hahead, hclosing]))
      exact ⟨fun x y hx => by simp [hnone x] at hx, fun _ => hnone⟩
    · -- no other writer is closing when an end is appended
      obtain ⟨hrunning, hothers⟩ := hfenced event hsends
      have honly : ∀ x, closing (w'.pending x) = true → x = writer := by
        intro x hx
        rw [closing_update hpending] at hx
        split_ifs at hx with hxw
        · exact hxw
        · simp [hothers x] at hx
      refine ⟨fun x y hx hy => (honly x hx).trans (honly y hy).symm, fun hne => ?_⟩
      exact absurd (hstatus.trans hrunning) hne

theorem keepsStatus_of_exclusive [DecidableEq ι] {w w' : World κ ν ι} {l : Label κ ν ι} (hsound : Sound w)
    (h : Exclusive w) (hmove : Move w l w') (hterminal : w.store.status ≠ .running) :
    w'.store.status = w.store.status := by
  cases hmove with
  | keep _ _ _ hstatus => exact hstatus
  | plan _ _ _ _ _ _ _ _ _ hstatus => exact hstatus
  | send writer command rest fresh _ hahead _ _ hstatus =>
    obtain ⟨stage, hcourse⟩ := hsound.course writer
    rw [hahead] at hcourse
    rcases hcourse.head_cases with ⟨hends, hmarks, -⟩ | ⟨status, rfl, -, hclosing, -⟩ | ⟨event, rfl, -⟩
    · exact hstatus.trans (run_of_plain hends hmarks fresh w.store).2
    · have hnone := h.none hterminal writer
      rw [hahead, hclosing] at hnone
      simp at hnone
    · exact hstatus

/-! ## The order of the stream -/

theorem endCount_eq_zero {events : List (Stored κ ν)} (h : ¬ Ended events) : endCount events = 0 := by
  rw [endCount, List.countP_eq_zero]
  intro item hitem
  simpa using fun hop => h ⟨item, hitem, hop⟩

/-- A stream in order can be lengthened while it holds no end, and only then. -/
theorem inOrder_append_iff {w w' : World κ ν ι} {item : Stored κ ν}
    (hevents : w'.store.events = w.store.events ++ [item]) : InOrder w' ↔ ¬ Ended w.store.events := by
  constructor
  · rintro ⟨-, hlast⟩ ⟨last, hmem, hop⟩
    obtain ⟨before, behind, hsplit⟩ := List.append_of_mem hmem
    have hnil := hlast before last (behind ++ [item]) (by rw [hevents, hsplit]; simp) hop
    simp at hnil
  · intro hended
    refine ⟨?_, fun before end_ behind hsplit hop => ?_⟩
    · rw [hevents, endCount, List.countP_append]
      have hzero := endCount_eq_zero hended
      rw [endCount] at hzero
      rw [hzero, Nat.zero_add]
      exact List.countP_le_length
    · rw [hevents] at hsplit
      rcases List.eq_nil_or_concat behind with rfl | ⟨behind, last, rfl⟩
      · rfl
      · -- the end would stand before the new entry
        have hsplit' : w.store.events ++ [item] = (before ++ end_ :: behind) ++ [last] := by
          simpa [List.concat_eq_append] using hsplit
        refine absurd ⟨end_, ?_, hop⟩ hended
        rw [(List.append_inj' hsplit' rfl).1]
        simp

/-- The stream changes only when an event is appended. -/
theorem Move.events_cases [DecidableEq ι] {w w' : World κ ν ι} {l : Label κ ν ι} (h : Move w l w') :
    (∃ event fresh, w.sends l = some (.xadd event) ∧ w'.store.events = w.store.events ++ [⟨fresh, event⟩]) ∨
      ((∀ event, w.sends l ≠ some (.xadd event)) ∧ w'.store.events = w.store.events) := by
  cases h with
  | keep hsends _ hevents _ => exact .inr ⟨by simp [hsends], hevents⟩
  | plan _ _ _ hsends _ _ _ _ hevents _ => exact .inr ⟨by simp [hsends], hevents⟩
  | send writer command rest fresh hsends _ _ hevents _ =>
    cases command with
    | xadd event => exact .inl ⟨event, fresh, hsends, hevents⟩
    | _ => exact .inr ⟨by simp [hsends], hevents⟩

/-- Between sound states a step is fenced exactly when it leaves the stream in order. -/
theorem fenced_iff_inOrder [DecidableEq ι] {w w' : World κ ν ι} {l : Label κ ν ι} (hlinked : Linked w)
    (h : InOrder w) (hmove : Move w l w') : Fenced w l ↔ InOrder w' := by
  have hended : ¬ Ended w.store.events ↔ w.store.status = .running ∧ ∀ x, closing (w.pending x) = false := by
    refine (not_congr hlinked).trans ?_
    simp
  rcases hmove.events_cases with ⟨event, fresh, hsends, hevents⟩ | ⟨hsends, hevents⟩
  · rw [inOrder_append_iff hevents, hended]
    simp [Fenced, hsends]
  · simp only [Fenced, hsends, false_imp_iff, implies_true, true_iff, InOrder, hevents]
    exact h

/-! ## Runs -/

section Runs

variable [LinearOrder κ] [DecidableEq ι]

section

omit [LinearOrder κ] [DecidableEq ι]

theorem Begun.sound {w : World κ ν ι} (h : Begun w) : Sound w where
  executor := ⟨⟨.quiet, by rw [h.pending]; exact .nil⟩, fun _ => h.pending, by simp [h.phase], by simp [h.phase]⟩
  recoverers i := by
    rw [h.recoverers i]
    exact Recoverer.sound_of_nil _

theorem Begun.closing_eq_false {w : World κ ν ι} (h : Begun w) (x : Option ι) : closing (w.pending x) = false := by
  cases x with
  | none => simp [World.pending, h.pending, closing]
  | some i => simp [World.pending, h.recoverers i, Recoverer.init, closing]

theorem Begun.not_ended {w : World κ ν ι} (h : Begun w) : ¬ Ended w.store.events :=
  fun ⟨item, hitem, hop⟩ => h.noEnd item hitem hop

end

/-- In any run the stream holds an end exactly when an outcome has begun to be written. -/
theorem linked_of_begun {w : World κ ν ι} (h : Begun w) (labels : List (Label κ ν ι)) :
    Machine.AllStates step (fun w => Sound w ∧ Linked w) w labels := by
  refine Machine.allStates_of_invariant (fun w l w' hw hstep => ?_) labels ⟨h.sound, ?_⟩
  · obtain ⟨hsound, hmove⟩ := move_of_step hw.1 hstep
    exact ⟨hsound, linked_move hw.1 hw.2 hmove⟩
  · simp [Linked, h.not_ended, h.status, h.closing_eq_false]

/-- In every run of an execute task and any recoverers: the stream stays in order, with at most one end and
nothing behind it, and a terminal status is never overwritten with another, exactly when every event is
appended while the status is still running and no writer is between its end and its status. -/
theorem ordered_iff_fenced {w w' : World κ ν ι} {labels : List (Label κ ν ι)} (hbegun : Begun w)
    (hexec : Machine.exec step w labels = some w') :
    Machine.AllStates step InOrder w labels ∧ Machine.AllSteps step KeepsStatus w labels ↔
      Machine.AllSteps step Fenced w labels := by
  have hlinked := linked_of_begun hbegun labels
  constructor
  -- the states on both sides of a step are in order, so it is fenced
  · rintro ⟨horder, -⟩
    refine Machine.allSteps_of_allStates (p := fun w => (Sound w ∧ Linked w) ∧ InOrder w) ?_ hexec
      (hlinked.and horder)
    rintro w l w' ⟨⟨hsound, hlinked⟩, horder⟩ hstep ⟨-, horder'⟩
    exact (fenced_iff_inOrder hlinked horder (move_of_step hsound hstep).2).mpr horder'
  · intro hfenced
    -- fenced steps let at most one writer come to its outcome, which gives the order and the status
    have hall : Machine.AllStates step (fun w => ((Sound w ∧ Linked w) ∧ Exclusive w) ∧ InOrder w) w labels := by
      refine Machine.allStates_of_allSteps ?_ ⟨⟨⟨hbegun.sound, ?_⟩, ?_⟩, ?_⟩ hfenced
      · rintro w l w' ⟨⟨⟨hsound, hlinked⟩, hexclusive⟩, horder⟩ hfenced hstep
        obtain ⟨hsound', hmove⟩ := move_of_step hsound hstep
        exact ⟨⟨⟨hsound', linked_move hsound hlinked hmove⟩, exclusive_move hsound hexclusive hfenced hmove⟩,
          (fenced_iff_inOrder hlinked horder hmove).mp hfenced⟩
      · simp [Linked, hbegun.not_ended, hbegun.status, hbegun.closing_eq_false]
      · exact ⟨fun x y hx => by simp [hbegun.closing_eq_false x] at hx, fun hne => absurd hbegun.status hne⟩
      · refine ⟨by simp [endCount_eq_zero hbegun.not_ended], fun before item behind hsplit hop => ?_⟩
        exact absurd ⟨item, by simp [hsplit], hop⟩ hbegun.not_ended
    refine ⟨hall.mono fun w h => h.2, Machine.allSteps_of_allStates ?_ hexec hall⟩
    rintro w l w' ⟨⟨⟨hsound, -⟩, hexclusive⟩, -⟩ hstep - w'' hstep' hterminal
    exact keepsStatus_of_exclusive hsound hexclusive (move_of_step hsound hstep').2 hterminal

end Runs

/-! ## A slow execute task -/

/-- A chat whose start has been published. -/
def chatWorld : World ℕ ℕ Unit where
  store := ⟨.running, 1, none, [⟨1, startEvent [] 1⟩], some 0, false⟩
  executor := .init
  recoverers _ := .init

theorem begun_chatWorld : Begun chatWorld := ⟨rfl, by decide, rfl, rfl, fun _ => rfl⟩

/-- A recoverer finds the heartbeat expired and writes an error, an end and the status. -/
def recoversChat : List (Label ℕ ℕ Unit) :=
  List.replicate 6 (.recover () 30 2) ++ List.replicate 3 (.recover () 30 3) ++ List.replicate 6 (.recover () 30 4)

/-- The execute task comes to its end. -/
def finishesChat : List (Label ℕ ℕ Unit) :=
  [.execute (.finish none) 4, .execute (.completed none) 4, .execute .send 4, .execute .send 5, .execute .send 5,
    .execute .send 5]

/-- The execute task alone keeps the order. -/
theorem ordered_iff_fenced_finishesChat : (∃ w, Machine.exec step chatWorld finishesChat = some w) ∧
    (Machine.AllStates step InOrder chatWorld finishesChat ∧
        Machine.AllSteps step KeepsStatus chatWorld finishesChat ↔
      Machine.AllSteps step Fenced chatWorld finishesChat) := by
  have hsome : ((Machine.exec step chatWorld finishesChat).map fun w => w.store.status) = some .completed := by decide
  obtain ⟨w, hw, -⟩ := Option.map_eq_some_iff.mp hsome
  exact ⟨⟨w, hw⟩, ordered_iff_fenced begun_chatWorld hw⟩

/-- A task that has been recovered while it was slow appends a second end and overwrites the status. -/
theorem slowTask_overwrites : Begun chatWorld ∧
    (∃ recovered w, Machine.exec step chatWorld recoversChat = some recovered ∧
      Machine.exec step recovered finishesChat = some w ∧ recovered.store.status = .failed ∧
      w.store.status = .completed ∧ w.store.events.map (fun item => item.data.op) = [.start, .error, .end_, .end_]) ∧
    ¬ (Machine.AllStates step InOrder chatWorld (recoversChat ++ finishesChat) ∧
      Machine.AllSteps step KeepsStatus chatWorld (recoversChat ++ finishesChat)) := by
  have hrecovered : ((Machine.exec step chatWorld recoversChat).map fun w => w.store.status) = some .failed := by
    decide
  have hfinished : ((Machine.exec step chatWorld (recoversChat ++ finishesChat)).map fun w =>
      (w.store.status, w.store.events.map fun item => item.data.op)) =
        some (.completed, [.start, .error, .end_, .end_]) := by
    decide
  obtain ⟨recovered, hr, hfailed⟩ := Option.map_eq_some_iff.mp hrecovered
  obtain ⟨w, hw, hwhole⟩ := Option.map_eq_some_iff.mp hfinished
  obtain ⟨hcompleted, hops⟩ := Prod.mk.inj hwhole
  have hrest : Machine.exec step recovered finishesChat = some w := by
    rw [Machine.exec_append, hr, Option.bind_some] at hw
    exact hw
  refine ⟨begun_chatWorld, ⟨recovered, w, hr, hrest, hfailed, hcompleted, hops⟩, fun ⟨horder, _⟩ => ?_⟩
  have hcount : endCount w.store.events = (w.store.events.map fun item => item.data.op).countP (· == .end_) := by
    rw [List.countP_map]
    rfl
  have hle := (horder.last hw).1
  rw [hcount, hops] at hle
  exact absurd hle (by decide)

end AgentUE.PythonRunner
