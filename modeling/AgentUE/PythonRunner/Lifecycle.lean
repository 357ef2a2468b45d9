import AgentUE.Data.Machine
import Mathlib.Logic.Function.Basic

/-!
# Python runner: the tasks of one event loop

Reference: `run`, `_execute`, `aclose` and `start` in `sdks/python/src/agentue/runner/runner.py`. Any number
of calls of `run` and of `aclose` take steps from one `await` to the next; a cancellation that has been
requested is delivered with the next step of its task. `complete` is invoked for every finished call
exactly when no cancellation hits one of three gaps and no execute task begins without a pulse.
-/

namespace AgentUE.PythonRunner.Lifecycle

open Data

variable {ι κ : Type}

/-- `CompletionSource` -/
inductive CompletionSource where
  | preStart
  | execute
  | cancelled
  | shutdown
  | heartbeatTimeout
deriving DecidableEq

/-- Where the coroutine of a call of `run` stands. `cancelled` says whether the error that it handles is a
cancellation. -/
inductive OwnerPc where
  | idle
  /-- before `_start_lock` -/
  | locking
  /-- in `start` with the lock -/
  | connecting
  /-- in `initialize` -/
  | initializing
  /-- in `complete` after an error before that -/
  | failing
  | preStart
  | publishStart
  /-- in `_publish_start_best_effort` -/
  | bestEffort (cancelled : Bool)
  /-- in the `complete` of `_finalize` -/
  | completing (cancelled : Bool)
  /-- in the rest of `_finalize` -/
  | publishing (cancelled : Bool)
  /-- in `_stream_live` -/
  | live
  | finished
deriving DecidableEq

/-- Where the execute task of a call stands. -/
inductive ExecutePc where
  /-- there is none -/
  | absent
  /-- before its first step -/
  | created
  /-- in `asyncio.wait`, with the pulse task that it has seen -/
  | waiting (pulse : ℕ)
  /-- in `asyncio.gather(business_task)` -/
  | gathering (source : CompletionSource)
  /-- in the `complete` of `_finalize` -/
  | completing
  /-- in the rest of `_finalize` -/
  | publishing
  /-- in `asyncio.gather(heartbeat_task)` -/
  | stopping
  | ended
deriving DecidableEq

/-- How a task has ended: with a result or an exception, or with a `CancelledError`. -/
inductive Ending where
  | done
  | cancelled
deriving DecidableEq

/-- A call of `run` with its tasks: the cancellations that have been requested, whether `published_seq` is not
0, how the business and the heartbeat task have ended if they have, and the sources `complete` has been invoked with. -/
structure Call where
  owner : OwnerPc
  execute : ExecutePc
  published : Bool
  ownerCancel : Bool
  executeCancel : Bool
  business : Option Ending
  heartbeat : Option Ending
  completions : List CompletionSource
deriving DecidableEq

/-- A call that has not begun. -/
def Call.init : Call := ⟨.idle, .absent, false, false, false, none, none, []⟩

/-- Where a call of `aclose` stands. -/
inductive Closer (ι : Type) where
  | idle
  /-- in `asyncio.gather(*tasks)` -/
  | waiting (tasks : List ι)
  /-- in `asyncio.gather(pulse)` -/
  | stopping (pulse : ℕ)
  | closed
deriving DecidableEq

/-- A Runner: its flags and its lock, `_watchdog`, `_pulse_task`, for every pulse task whether it has ended,
`_execute_tasks`, and the calls of `run` and `aclose`. -/
structure Runner (ι κ : Type) where
  closing : Bool
  stalled : Bool
  locked : Bool
  watchdog : Bool
  pulseTask : Option ℕ
  pulses : List Bool
  executeTasks : List ι
  calls : ι → Call
  closers : κ → Closer ι

/-- A new Runner. -/
def Runner.init : Runner ι κ := ⟨false, false, false, false, none, [], [], fun _ => .init, fun _ => .idle⟩

/-- How what a task awaits ends, unless the task is cancelled. -/
inductive Outcome where
  | ok
  | error
deriving DecidableEq

/-- What can happen on the event loop. -/
inductive Label (ι κ : Type) where
  | own (i : ι) (outcome : Outcome)
  | execute (i : ι)
  | businessEnds (i : ι) (ending : Ending)
  | heartbeatEnds (i : ι) (ending : Ending)
  | pulseEnds (pulse : ℕ)
  /-- the watchdog finds the loop stalled -/
  | stall
  | cancelOwner (i : ι)
  | cancelExecute (i : ι)
  | close (k : κ)
  | cancelClose (k : κ)
deriving DecidableEq

/-! ## A call of `run` -/

/-- `complete` is invoked. -/
def Call.invoke (c : Call) (source : CompletionSource) : Call := { c with completions := c.completions ++ [source] }

/-- The handler of an error in `start` and `initialize`. -/
def Call.failStart (c : Call) : Call := { c.invoke .preStart with owner := .failing }

/-- The handler of an error in `pre_start` and `_publish_start`. -/
def Call.failPreStart (c : Call) (cancelled : Bool) : Call :=
  if c.published then { c.invoke .preStart with owner := .completing cancelled }
  else { c with owner := .bestEffort cancelled }

section

variable [DecidableEq ι]

def Runner.setCall (r : Runner ι κ) (i : ι) (c : Call) : Runner ι κ := { r with calls := Function.update r.calls i c }

/-- The watchdog and the pulse task of `start`. -/
def Runner.startPulse (r : Runner ι κ) : Runner ι κ :=
  if r.watchdog then r
  else { r with watchdog := true, pulseTask := some r.pulses.length, pulses := r.pulses ++ [false] }

/-- `_spawn_execute` -/
def Runner.spawn (r : Runner ι κ) (i : ι) (c : Call) : Runner ι κ :=
  { r.setCall i { c with published := true, owner := .live, execute := .created } with
    executeTasks := r.executeTasks ++ [i] }

/-- One step of the coroutine of a call. -/
def Runner.own (r : Runner ι κ) (i : ι) (outcome : Outcome) : Option (Runner ι κ) :=
  let cancelled := (r.calls i).ownerCancel
  let c := { r.calls i with ownerCancel := false }
  let fails := cancelled || outcome == .error
  match c.owner with
  | .idle => some (r.setCall i { c with owner := .locking })
  | .locking =>
    if cancelled then some (r.setCall i c.failStart)
    else if r.locked then none
    else if r.closing || r.stalled then some (r.setCall i c.failStart)
    else some { r.setCall i { c with owner := .connecting } with locked := true }
  | .connecting =>
    if fails then some { r.setCall i c.failStart with locked := false }
    else some { r.startPulse.setCall i { c with owner := .initializing } with locked := false }
  | .initializing =>
    if fails then some (r.setCall i c.failStart) else some (r.setCall i { c with owner := .preStart })
  | .preStart =>
    if fails then some (r.setCall i (c.failPreStart cancelled)) else
      some (r.setCall i { c with owner := .publishStart })
  | .publishStart => if fails then some (r.setCall i (c.failPreStart cancelled)) else some (r.spawn i c)
  | .bestEffort wasCancelled =>
    -- only an `Exception` is caught: a cancellation leaves the handler
    if cancelled then some (r.setCall i { c with owner := .finished })
    else some (r.setCall i { c.invoke .preStart with owner := .completing wasCancelled, published := !fails })
  | .completing wasCancelled => some (r.setCall i { c with owner := .publishing wasCancelled })
  | .publishing wasCancelled =>
    if cancelled || wasCancelled then some (r.setCall i { c with owner := .finished })
    else some (r.setCall i { c with owner := .live })
  | .failing | .live => some (r.setCall i { c with owner := .finished })
  | .finished => none

/-- The pulse task has ended. -/
def Runner.pulseEnded (r : Runner ι κ) (pulse : ℕ) : Bool := r.pulses[pulse]?.getD false

/-- The source that `_execute` gives for the end of its wait: `exception()` of a task that has been cancelled raises the
cancellation, as a cancelled wait does. -/
def Runner.source (r : Runner ι κ) (c : Call) (cancelled : Bool) (pulse : ℕ) : CompletionSource :=
  let stopped := if r.closing then .shutdown else .cancelled
  if cancelled then stopped
  else if r.stalled || r.pulseEnded pulse then .heartbeatTimeout
  else if (c.heartbeat.or c.business) = some .cancelled then stopped
  else .execute

/-- The execute task ends. -/
def Runner.endExecute (r : Runner ι κ) (i : ι) (c : Call) : Runner ι κ :=
  { r.setCall i { c with execute := .ended } with executeTasks := r.executeTasks.erase i }

/-- One step of the execute task of a call. -/
def Runner.execute (r : Runner ι κ) (i : ι) : Option (Runner ι κ) :=
  let cancelled := (r.calls i).executeCancel
  let c := { r.calls i with executeCancel := false }
  match c.execute with
  | .absent | .ended => none
  | .created =>
    -- a task that is cancelled before its first step runs no line of its coroutine
    if cancelled then some (r.endExecute i c)
    else match r.pulseTask with
    | none => some (r.endExecute i c)
    | some pulse =>
      some (r.setCall i { c with execute := .waiting pulse, business := none, heartbeat := none })
  | .waiting pulse =>
    if cancelled || c.business.isSome || c.heartbeat.isSome || r.pulseEnded pulse then
      let source := r.source c cancelled pulse
      if c.business.isSome then some (r.setCall i { c.invoke source with execute := .completing })
      else some (r.setCall i { c with execute := .gathering source })
    else none
  | .gathering source =>
    if c.business.isNone then none
    else if cancelled then some (r.endExecute i c)
    else some (r.setCall i { c.invoke source with execute := .completing })
  | .completing => some (r.setCall i { c with execute := .publishing })
  | .publishing => some (r.setCall i { c with execute := .stopping })
  | .stopping => some (r.endExecute i c)

/-- A cancellation is requested of the coroutine of a call. -/
def Call.cancelOwner (c : Call) : Call :=
  match c.owner with
  | .idle | .finished => c
  | _ => { c with ownerCancel := true }

/-- A cancellation is requested of the execute task of a call. -/
def Call.cancelExecute (c : Call) : Call :=
  match c.execute with
  | .absent | .ended => c
  | _ => { c with executeCancel := true }

/-! ## `aclose` -/

/-- One step of a call of `aclose`. -/
def Runner.close [DecidableEq κ] (r : Runner ι κ) (k : κ) : Option (Runner ι κ) :=
  match r.closers k with
  | .idle =>
    some { r with
      closing := true
      calls := fun i => if i ∈ r.executeTasks then (r.calls i).cancelExecute else r.calls i
      closers := Function.update r.closers k (.waiting r.executeTasks) }
  | .waiting tasks =>
    if tasks.all fun i => (r.calls i).execute == .ended then
      match r.pulseTask with
      | some pulse => some { r with pulseTask := none, closers := Function.update r.closers k (.stopping pulse) }
      | none => some { r with watchdog := false, closers := Function.update r.closers k .closed }
    else none
  | .stopping pulse =>
    if r.pulseEnded pulse then some { r with watchdog := false, closers := Function.update r.closers k .closed }
    else none
  | .closed => none

/-- One step of the event loop. -/
def step [DecidableEq κ] (r : Runner ι κ) : Label ι κ → Option (Runner ι κ)
  | .own i outcome => r.own i outcome
  | .execute i => r.execute i
  -- a task ends once
  | .businessEnds i ending => some (r.setCall i { r.calls i with business := (r.calls i).business.or ending })
  | .heartbeatEnds i ending => some (r.setCall i { r.calls i with heartbeat := (r.calls i).heartbeat.or ending })
  | .pulseEnds pulse => some { r with pulses := r.pulses.set pulse true }
  | .stall => some { r with stalled := true }
  | .cancelOwner i => some (r.setCall i (r.calls i).cancelOwner)
  | .cancelExecute i => some (r.setCall i (r.calls i).cancelExecute)
  | .close k => r.close k
  | .cancelClose k => some { r with closers := Function.update r.closers k .closed }

end

/-! ## What is asked of the runs -/

/-- A call whose coroutine and execute task, if there is one, have finished, or whose execute task is done,
has had `complete` invoked. -/
def Call.Guaranteed (c : Call) : Prop :=
  (c.owner = .finished ∧ c.execute = .absent) ∨ c.execute = .ended → c.completions ≠ []

/-- `complete` has been invoked for every finished call. -/
def Guaranteed (r : Runner ι κ) : Prop := ∀ i, (r.calls i).Guaranteed

/-- A cancellation is delivered to a call that publishes its start after a failed pre-start. -/
def Call.LosesOwn (c : Call) : Prop := (∃ cancelled, c.owner = .bestEffort cancelled) ∧ c.ownerCancel = true

/-- A cancellation is delivered to an execute task before its first step or while it waits for its business
task, or it takes its first step without a pulse task. -/
def Call.LosesExecute (c : Call) (pulseTask : Option ℕ) : Prop :=
  c.execute = .created ∧ (c.executeCancel = true ∨ pulseTask = none) ∨
    (∃ source, c.execute = .gathering source) ∧ c.executeCancel = true

/-- The step loses the `complete` of a call. -/
def Loses (r : Runner ι κ) : Label ι κ → Prop
  | .own i _ => (r.calls i).LosesOwn
  | .execute i => (r.calls i).LosesExecute r.pulseTask
  | _ => False

/-! ## What a step does to a call -/

/-- `complete` is still to be invoked. -/
def Call.awaited (c : Call) : Bool :=
  match c.execute, c.owner with
  | .absent, .idle | .absent, .locking | .absent, .connecting | .absent, .initializing | .absent, .preStart
  | .absent, .publishStart | .absent, .bestEffort _ => true
  | .created, _ | .waiting _, _ | .gathering _, _ => true
  | _, _ => false

/-- A call has an execute task only when its coroutine is live or has finished. -/
def Call.Sound (c : Call) : Prop := c.execute ≠ .absent → c.owner = .live ∨ c.owner = .finished

/-- A step keeps what is to be expected of a call, invokes `complete`, or loses it. -/
inductive CallMove (lost : Prop) (c c' : Call) : Prop
  | keep : ¬ lost → c'.awaited = c.awaited → c'.completions = c.completions → CallMove lost c c'
  | completes : ¬ lost → c'.awaited = false → c'.completions ≠ [] → CallMove lost c c'
  | loses : lost → c.awaited = true → c'.completions = c.completions →
    (c'.owner = .finished ∧ c'.execute = .absent) ∨ c'.execute = .ended → CallMove lost c c'

/-- The call whose task takes the step. -/
def Label.target : Label ι κ → Option ι
  | .own i _ | .execute i => some i
  | _ => none

theorem Call.invoke_completions (c : Call) (source : CompletionSource) : (c.invoke source).completions ≠ [] := by
  simp [Call.invoke]

variable [DecidableEq ι]

/-- The handler of `start` and `initialize` invokes `complete`. -/
theorem move_failStart {c d : Call} (hlost : ¬ c.LosesOwn) (h : d.execute = .absent) :
    d.failStart.Sound ∧ CallMove c.LosesOwn c d.failStart := by
  refine ⟨fun hne => absurd h hne, .completes hlost ?_ (Call.invoke_completions _ _)⟩
  simp [Call.awaited, Call.failStart, Call.invoke, h]

/-- A step of a coroutine after which `complete` is still to be invoked. -/
theorem move_before {c d : Call} (hlost : ¬ c.LosesOwn) (h : d.execute = .absent) (hawaited : d.awaited = c.awaited)
    (hcompletions : d.completions = c.completions) : d.Sound ∧ CallMove c.LosesOwn c d :=
  ⟨fun hne => absurd h hne, .keep hlost hawaited hcompletions⟩

/-- The handler of `pre_start` and `_publish_start` invokes `complete` or tries to publish the start before. -/
theorem move_failPreStart {c d : Call} (hlost : ¬ c.LosesOwn) (h : d.execute = .absent) (hawaited : c.awaited = true)
    (hcompletions : d.completions = c.completions) (cancelled : Bool) :
    (d.failPreStart cancelled).Sound ∧ CallMove c.LosesOwn c (d.failPreStart cancelled) := by
  unfold Call.failPreStart
  split_ifs
  · refine ⟨fun hne => absurd h hne, .completes hlost ?_ (Call.invoke_completions _ _)⟩
    simp [Call.awaited, Call.invoke, h]
  · refine move_before hlost h ?_ hcompletions
    rw [hawaited]
    simp [Call.awaited, h]

omit [DecidableEq ι] in
theorem startPulse_calls (r : Runner ι κ) : r.startPulse.calls = r.calls := by
  unfold Runner.startPulse
  split_ifs <;> rfl

/-- A step of the coroutine of a call changes that call only. -/
theorem own_cases {r r' : Runner ι κ} {i : ι} {outcome : Outcome} (hsound : (r.calls i).Sound)
    (h : r.own i outcome = some r') :
    ∃ c', r'.calls = Function.update r.calls i c' ∧ c'.Sound ∧ CallMove (r.calls i).LosesOwn (r.calls i) c' := by
  unfold Runner.own at h
  generalize r.calls i = c at h hsound ⊢
  have habsent : c.owner ≠ .live → c.owner ≠ .finished → c.execute = .absent := by
    intro hlive hfinished
    by_contra hne
    rcases hsound hne with hl | hf
    · exact hlive hl
    · exact hfinished hf
  have hlost : (∀ cancelled, c.owner ≠ .bestEffort cancelled) → ¬ c.LosesOwn := by
    rintro hne ⟨⟨cancelled, heq⟩, -⟩
    exact hne cancelled heq
  cases howner : c.owner with
  | idle | completing | failing =>
    have hexecute := habsent (by simp [howner]) (by simp [howner])
    simp only [howner, Option.some.injEq] at h
    subst h
    exact ⟨_, rfl, move_before (hlost (by simp [howner])) hexecute (by simp [Call.awaited, howner, hexecute]) rfl⟩
  | locking =>
    have hexecute := habsent (by simp [howner]) (by simp [howner])
    have hlost := hlost (by simp [howner])
    simp only [howner] at h
    split_ifs at h <;> obtain rfl := Option.some.inj h
    · exact ⟨_, rfl, move_failStart hlost hexecute⟩
    · exact ⟨_, rfl, move_failStart hlost hexecute⟩
    · exact ⟨_, rfl, move_before hlost hexecute (by simp [Call.awaited, howner, hexecute]) rfl⟩
  | connecting =>
    have hexecute := habsent (by simp [howner]) (by simp [howner])
    have hlost := hlost (by simp [howner])
    simp only [howner] at h
    split_ifs at h <;> obtain rfl := Option.some.inj h
    · exact ⟨_, rfl, move_failStart hlost hexecute⟩
    · refine ⟨{ c with owner := .initializing, ownerCancel := false }, ?_, move_before hlost hexecute ?_ rfl⟩
      · simp only [Runner.setCall, startPulse_calls]
      · simp [Call.awaited, howner, hexecute]
  | initializing =>
    have hexecute := habsent (by simp [howner]) (by simp [howner])
    have hlost := hlost (by simp [howner])
    simp only [howner] at h
    split_ifs at h <;> obtain rfl := Option.some.inj h
    · exact ⟨_, rfl, move_failStart hlost hexecute⟩
    · exact ⟨_, rfl, move_before hlost hexecute (by simp [Call.awaited, howner, hexecute]) rfl⟩
  | preStart =>
    have hexecute := habsent (by simp [howner]) (by simp [howner])
    have hlost := hlost (by simp [howner])
    simp only [howner] at h
    split_ifs at h <;> obtain rfl := Option.some.inj h
    · refine ⟨_, rfl, move_failPreStart hlost ?_ (by simp [Call.awaited, howner, hexecute]) ?_ _⟩
      exacts [hexecute, rfl]
    · exact ⟨_, rfl, move_before hlost hexecute (by simp [Call.awaited, howner, hexecute]) rfl⟩
  | publishStart =>
    have hexecute := habsent (by simp [howner]) (by simp [howner])
    have hlost := hlost (by simp [howner])
    simp only [howner] at h
    split_ifs at h <;> obtain rfl := Option.some.inj h
    · refine ⟨_, rfl, move_failPreStart hlost ?_ (by simp [Call.awaited, howner, hexecute]) ?_ _⟩
      exacts [hexecute, rfl]
    · exact ⟨_, rfl, fun _ => .inl rfl, .keep hlost (by simp [Call.awaited, howner, hexecute]) rfl⟩
  | bestEffort wasCancelled =>
    have hexecute := habsent (by simp [howner]) (by simp [howner])
    simp only [howner] at h
    split_ifs at h with hcancel <;> obtain rfl := Option.some.inj h
    · refine ⟨_, rfl, fun hne => absurd hexecute hne, .loses ⟨⟨_, howner⟩, hcancel⟩ ?_ rfl (.inl ⟨rfl, hexecute⟩)⟩
      simp [Call.awaited, howner, hexecute]
    · refine ⟨_, rfl, fun hne => absurd hexecute hne, .completes (fun h => hcancel h.2) ?_
        (Call.invoke_completions _ _)⟩
      simp [Call.awaited, Call.invoke, hexecute]
  | publishing wasCancelled =>
    have hexecute := habsent (by simp [howner]) (by simp [howner])
    have hlost := hlost (by simp [howner])
    simp only [howner] at h
    split_ifs at h <;> obtain rfl := Option.some.inj h
    · exact ⟨_, rfl, move_before hlost hexecute (by simp [Call.awaited, howner, hexecute]) rfl⟩
    · exact ⟨_, rfl, move_before hlost hexecute (by simp [Call.awaited, howner, hexecute]) rfl⟩
  | live =>
    simp only [howner, Option.some.injEq] at h
    subst h
    refine ⟨_, rfl, fun _ => .inr rfl, .keep (hlost (by simp [howner])) ?_ rfl⟩
    cases hexecute : c.execute <;> simp [Call.awaited, howner, hexecute]
  | finished => simp [howner] at h

/-- A step of the execute task of a call changes that call only. -/
theorem execute_cases {r r' : Runner ι κ} {i : ι} (hsound : (r.calls i).Sound) (h : r.execute i = some r') :
    ∃ c', r'.calls = Function.update r.calls i c' ∧ c'.Sound ∧
      CallMove ((r.calls i).LosesExecute r.pulseTask) (r.calls i) c' := by
  unfold Runner.execute at h
  generalize r.calls i = c at h hsound ⊢
  have hsound' : ∀ {d : Call}, c.execute ≠ .absent → d.owner = c.owner → d.Sound := by
    intro d hne howner _
    rw [howner]
    exact hsound hne
  cases hexecute : c.execute with
  | absent => simp [hexecute] at h
  | ended => simp [hexecute] at h
  | created =>
    have hne : c.execute ≠ .absent := by simp [hexecute]
    have hawaited : c.awaited = true := by simp [Call.awaited, hexecute]
    simp only [hexecute] at h
    split_ifs at h with hcancel
    · obtain rfl := Option.some.inj h
      exact ⟨_, rfl, hsound' hne rfl, .loses (.inl ⟨hexecute, .inl hcancel⟩) hawaited rfl (.inr rfl)⟩
    · split at h
      · rename_i hpulse
        obtain rfl := Option.some.inj h
        exact ⟨_, rfl, hsound' hne rfl, .loses (.inl ⟨hexecute, .inr hpulse⟩) hawaited rfl (.inr rfl)⟩
      · rename_i pulse hpulse
        obtain rfl := Option.some.inj h
        refine ⟨_, rfl, hsound' hne rfl, .keep ?_ (by simp [Call.awaited, hexecute]) rfl⟩
        simp [Call.LosesExecute, hexecute, hcancel, hpulse]
  | waiting pulse =>
    have hne : c.execute ≠ .absent := by simp [hexecute]
    have hlost : ¬ c.LosesExecute r.pulseTask := by simp [Call.LosesExecute, hexecute]
    simp only [hexecute] at h
    split_ifs at h <;> obtain rfl := Option.some.inj h
    · exact ⟨_, rfl, hsound' hne rfl, .completes hlost (by simp [Call.awaited]) (Call.invoke_completions _ _)⟩
    · exact ⟨_, rfl, hsound' hne rfl, .keep hlost (by simp [Call.awaited, hexecute]) rfl⟩
  | gathering source =>
    have hne : c.execute ≠ .absent := by simp [hexecute]
    have hawaited : c.awaited = true := by simp [Call.awaited, hexecute]
    simp only [hexecute] at h
    split_ifs at h with hbusiness hcancel <;> obtain rfl := Option.some.inj h
    · exact ⟨_, rfl, hsound' hne rfl, .loses (.inr ⟨⟨_, hexecute⟩, hcancel⟩) hawaited rfl (.inr rfl)⟩
    · refine ⟨_, rfl, hsound' hne rfl, .completes ?_ (by simp [Call.awaited]) (Call.invoke_completions _ _)⟩
      simp [Call.LosesExecute, hexecute, hcancel]
  | completing | publishing | stopping =>
    simp only [hexecute, Option.some.injEq] at h
    subst h
    refine ⟨_, rfl, hsound' (by simp [hexecute]) rfl, .keep ?_ (by simp [Call.awaited, hexecute]) rfl⟩
    simp [Call.LosesExecute, hexecute]

/-- What every step keeps: an execute task belongs to a live or finished call, and nothing has been invoked
while `complete` is awaited. -/
structure Call.Kept (c : Call) : Prop where
  sound : c.Sound
  awaited : c.awaited = true → c.completions = []

/-- A step that touches only what the calls wait for. -/
theorem move_of_same {c c' : Call} (h : c.Sound) (howner : c'.owner = c.owner) (hexecute : c'.execute = c.execute)
    (hcompletions : c'.completions = c.completions) : c'.Sound ∧ CallMove False c c' := by
  refine ⟨?_, .keep id ?_ hcompletions⟩
  · unfold Call.Sound
    rw [howner, hexecute]
    exact h
  · unfold Call.awaited
    rw [howner, hexecute]

theorem cancelOwner_same (c : Call) : c.cancelOwner.owner = c.owner ∧ c.cancelOwner.execute = c.execute ∧
    c.cancelOwner.completions = c.completions := by
  unfold Call.cancelOwner
  split <;> exact ⟨rfl, rfl, rfl⟩

theorem cancelExecute_same (c : Call) : c.cancelExecute.owner = c.owner ∧ c.cancelExecute.execute = c.execute ∧
    c.cancelExecute.completions = c.completions := by
  unfold Call.cancelExecute
  split <;> exact ⟨rfl, rfl, rfl⟩

/-- The calls but one stay as they are. -/
theorem move_update {calls : ι → Call} {i : ι} {c' : Call} {lost : Prop} (hsound : ∀ j, (calls j).Sound)
    (h : c'.Sound ∧ CallMove lost (calls i) c') (j : ι) :
    (Function.update calls i c' j).Sound ∧
      CallMove (lost ∧ i = j) (calls j) (Function.update calls i c' j) := by
  by_cases hij : i = j
  · subst hij
    simpa using h
  · rw [Function.update_of_ne (Ne.symm hij)]
    exact ⟨hsound j, .keep (fun hlost => hij hlost.2) rfl rfl⟩

variable [DecidableEq κ]

omit [DecidableEq ι] [DecidableEq κ] in
/-- A call of `aclose` leaves every call where it stands. -/
theorem close_same [DecidableEq ι] [DecidableEq κ] {r r' : Runner ι κ} {k : κ} (h : r.close k = some r') (j : ι) :
    (r'.calls j).owner = (r.calls j).owner ∧ (r'.calls j).execute = (r.calls j).execute ∧
      (r'.calls j).completions = (r.calls j).completions := by
  unfold Runner.close at h
  split at h
  · obtain rfl := Option.some.inj h
    dsimp only
    split_ifs
    · exact cancelExecute_same _
    · exact ⟨rfl, rfl, rfl⟩
  · split at h
    · split at h <;> obtain rfl := Option.some.inj h <;> exact ⟨rfl, rfl, rfl⟩
    · simp at h
  · split at h
    · obtain rfl := Option.some.inj h
      exact ⟨rfl, rfl, rfl⟩
    · simp at h
  · simp at h

/-- What one step of the event loop does to a call. -/
theorem move_of_step {r r' : Runner ι κ} {l : Label ι κ} (hsound : ∀ j, (r.calls j).Sound)
    (h : step r l = some r') (j : ι) :
    (r'.calls j).Sound ∧ CallMove (Loses r l ∧ l.target = some j) (r.calls j) (r'.calls j) := by
  have hsame : ∀ {c' : Call}, ¬ Loses r l → c'.owner = (r.calls j).owner ∧ c'.execute = (r.calls j).execute ∧
      c'.completions = (r.calls j).completions →
      c'.Sound ∧ CallMove (Loses r l ∧ l.target = some j) (r.calls j) c' := by
    rintro c' hlost ⟨howner, hexecute, hcompletions⟩
    obtain ⟨hsound', hmove⟩ := move_of_same (hsound j) howner hexecute hcompletions
    have hiff : (Loses r l ∧ l.target = some j) = False := by simp [hlost]
    rw [hiff]
    exact ⟨hsound', hmove⟩
  have hupdate : ∀ {i : ι} {c' : Call}, ¬ Loses r l →
      c'.owner = (r.calls i).owner ∧ c'.execute = (r.calls i).execute ∧
        c'.completions = (r.calls i).completions →
      (Function.update r.calls i c' j).Sound ∧
        CallMove (Loses r l ∧ l.target = some j) (r.calls j) (Function.update r.calls i c' j) := by
    intro i c' hlost heq
    refine hsame hlost ?_
    by_cases hij : j = i
    · subst hij
      simpa using heq
    · simp [Function.update_of_ne hij]
  cases l with
  | own i outcome =>
    obtain ⟨c', hcalls, hcall⟩ := own_cases (hsound i) h
    rw [hcalls]
    simpa [Loses, Label.target] using move_update hsound hcall j
  | execute i =>
    obtain ⟨c', hcalls, hcall⟩ := execute_cases (hsound i) h
    rw [hcalls]
    simpa [Loses, Label.target] using move_update hsound hcall j
  | businessEnds i ending =>
    obtain rfl := Option.some.inj h
    exact hupdate id ⟨rfl, rfl, rfl⟩
  | heartbeatEnds i ending =>
    obtain rfl := Option.some.inj h
    exact hupdate id ⟨rfl, rfl, rfl⟩
  | pulseEnds pulse =>
    obtain rfl := Option.some.inj h
    exact hsame id ⟨rfl, rfl, rfl⟩
  | stall =>
    obtain rfl := Option.some.inj h
    exact hsame id ⟨rfl, rfl, rfl⟩
  | cancelOwner i =>
    obtain rfl := Option.some.inj h
    exact hupdate id (cancelOwner_same _)
  | cancelExecute i =>
    obtain rfl := Option.some.inj h
    exact hupdate id (cancelExecute_same _)
  | close k => exact hsame id (close_same h j)
  | cancelClose k =>
    obtain rfl := Option.some.inj h
    exact hsame id ⟨rfl, rfl, rfl⟩

/-! ## Runs -/

omit [DecidableEq ι] in
theorem kept_of_move {lost : Prop} {c c' : Call} (h : c.Kept) (hmove : c'.Sound ∧ CallMove lost c c') : c'.Kept := by
  obtain ⟨hsound, hmove⟩ := hmove
  refine ⟨hsound, fun hawaited => ?_⟩
  cases hmove with
  | keep _ hsame hcompletions => rw [hcompletions, h.awaited (hsame.symm.trans hawaited)]
  | completes _ hnot _ => simp [hnot] at hawaited
  | loses _ hbefore hcompletions _ => rw [hcompletions, h.awaited hbefore]

/-- While `complete` is not awaited any more it has been invoked. -/
def Call.Served (c : Call) : Prop := c.awaited = false → c.completions ≠ []

omit [DecidableEq ι] in
theorem guaranteed_of_served {c : Call} (h : c.Served) : c.Guaranteed := by
  rintro (⟨howner, hexecute⟩ | hexecute)
  · exact h (by simp [Call.awaited, howner, hexecute])
  · exact h (by simp [Call.awaited, hexecute])

omit [DecidableEq ι] in
theorem served_of_move {lost : Prop} {c c' : Call} (h : c.Served) (hlost : ¬ lost) (hmove : CallMove lost c c') :
    c'.Served := by
  intro hawaited
  cases hmove with
  | keep _ hsame hcompletions =>
    rw [hcompletions]
    exact h (hsame.symm.trans hawaited)
  | completes _ _ hinvoked => exact hinvoked
  | loses h _ _ _ => exact absurd h hlost

omit [DecidableEq ι] [DecidableEq κ] in
theorem target_of_loses {r : Runner ι κ} {l : Label ι κ} (h : Loses r l) : ∃ i, l.target = some i := by
  cases l with
  | own i outcome => exact ⟨i, rfl⟩
  | execute i => exact ⟨i, rfl⟩
  | _ => exact absurd h id

/-- In every run of a Runner: `complete` has been invoked, in every state, for every call whose coroutine and
execute task have finished and for every call whose execute task is done, exactly when no step loses it. -/
theorem guaranteed_iff_no_loss {labels : List (Label ι κ)} {r : Runner ι κ}
    (hexec : Machine.exec step Runner.init labels = some r) :
    Machine.AllStates step Guaranteed (Runner.init : Runner ι κ) labels ↔
      Machine.AllSteps step (fun r l => ¬ Loses r l) (Runner.init : Runner ι κ) labels := by
  have hinit : (Call.init).Kept := ⟨fun h => absurd rfl h, fun _ => rfl⟩
  have hkept : Machine.AllStates step (fun r => ∀ i, (r.calls i).Kept) (Runner.init : Runner ι κ) labels := by
    refine Machine.allStates_of_invariant (fun r l r' h hstep i => ?_) labels fun _ => hinit
    exact kept_of_move (h i) (move_of_step (fun j => (h j).sound) hstep i)
  constructor
  · intro hguaranteed
    refine Machine.allSteps_of_allStates (p := fun r => (∀ i, (r.calls i).Kept) ∧ Guaranteed r) ?_ hexec
      (hkept.and hguaranteed)
    rintro r l r' ⟨hkept, -⟩ hstep ⟨-, hguaranteed⟩ hlost
    obtain ⟨i, htarget⟩ := target_of_loses hlost
    obtain ⟨-, hmove⟩ := move_of_step (fun j => (hkept j).sound) hstep i
    cases hmove with
    | keep hnot _ _ => exact hnot ⟨hlost, htarget⟩
    | completes hnot _ _ => exact hnot ⟨hlost, htarget⟩
    | loses _ hawaited hcompletions hended =>
      exact hguaranteed i hended (hcompletions.trans ((hkept i).awaited hawaited))
  · intro hno
    have hserved : Machine.AllStates step
        (fun r => ∀ i, (r.calls i).Kept ∧ (r.calls i).Served) (Runner.init : Runner ι κ) labels := by
      refine Machine.allStates_of_allSteps (fun r l r' h hno hstep i => ?_) (fun _ => ⟨hinit, ?_⟩) hno
      · obtain ⟨hsound, hmove⟩ := move_of_step (fun j => (h j).1.sound) hstep i
        exact ⟨kept_of_move (h i).1 ⟨hsound, hmove⟩, served_of_move (h i).2 (fun hlost => hno hlost.1) hmove⟩
      · intro hawaited
        simp [Runner.init, Call.init, Call.awaited] at hawaited
    exact hserved.mono fun r h i => guaranteed_of_served (h i).2

/-- A call of `run` up to its execute task. -/
def spawns : List (Label Unit Unit) := List.replicate 6 (.own () .ok)

/-- The business ends, and with it the execute task and the call. -/
def finishes : List (Label Unit Unit) :=
  [.execute (), .businessEnds () .done, .execute (), .execute (), .execute (), .execute (), .own () .ok]

/-- The Runner is closed before the first step of the execute task. -/
def closesAtOnce : List (Label Unit Unit) := [.close (), .execute (), .own () .ok]

/-- Where a run leaves its call. -/
def outcome (labels : List (Label Unit Unit)) : Option (OwnerPc × ExecutePc × List CompletionSource) :=
  (Machine.exec step Runner.init labels).map fun r =>
    ((r.calls ()).owner, (r.calls ()).execute, (r.calls ()).completions)

theorem guaranteed_iff_no_loss_finishes :
    (∃ r, Machine.exec step (Runner.init : Runner Unit Unit) (spawns ++ finishes) = some r ∧
      (r.calls ()).execute = .ended ∧ (r.calls ()).completions = [.execute]) ∧
    (Machine.AllStates step Guaranteed (Runner.init : Runner Unit Unit) (spawns ++ finishes) ↔
      Machine.AllSteps step (fun r l => ¬ Loses r l) (Runner.init : Runner Unit Unit) (spawns ++ finishes)) := by
  have houtcome : outcome (spawns ++ finishes) = some (.finished, .ended, [.execute]) := by decide
  obtain ⟨r, hr, heq⟩ := Option.map_eq_some_iff.mp houtcome
  simp only [Prod.mk.injEq] at heq
  exact ⟨⟨r, hr, heq.2.1, heq.2.2⟩, guaranteed_iff_no_loss hr⟩

/-- A task that is cancelled before its first step ends without `complete`. -/
theorem closesAtOnce_loses_complete :
    ∃ r, Machine.exec step (Runner.init : Runner Unit Unit) (spawns ++ closesAtOnce) = some r ∧
      (r.calls ()).owner = .finished ∧ (r.calls ()).execute = .ended ∧ (r.calls ()).completions = [] ∧
      ¬ Guaranteed r := by
  have houtcome : outcome (spawns ++ closesAtOnce) = some (.finished, .ended, []) := by decide
  obtain ⟨r, hr, heq⟩ := Option.map_eq_some_iff.mp houtcome
  simp only [Prod.mk.injEq] at heq
  obtain ⟨howner, hexecute, hcompletions⟩ := heq
  exact ⟨r, hr, howner, hexecute, hcompletions, fun h => h () (.inr hexecute) hcompletions⟩

end AgentUE.PythonRunner.Lifecycle
