import AgentUE.PythonRunner.Watched

/-!
# Python runner: a run and its consumer come to their end

Reference: `_finalize` and `_stream_live` in `sdks/python/src/agentue/runner/runner.py`. From the call of `complete` on
the execute task takes a bounded number of steps, whatever command of it fails; when it is over the generator, whose
reads succeed, takes a number of steps that the length of the stream bounds, and neither of them is stuck before.
-/

namespace AgentUE.PythonRunner.Watched

open Data
open Live (Generator Pc TerminalEvent)
open Run (Fits)

variable {κ ν : Type}

/-! ## The execute task -/

/-- `complete` has been invoked, or the run is over. -/
def isClosing : Run.Phase ν → Bool
  | .completing _ _ | .publishingError _ _ | .publishingEnd _ _ _ | .marking _ _ | .returned _ | .raised => true
  | _ => false

/-- How many steps the execute task may still take after `complete` has been invoked: three commands and the `await` of
them for each of the two events and for `mark_terminal`. -/
def stepsToOver (r : Run.State κ ν) : ℕ :=
  match r.phase with
  | .completing _ _ => 13
  | .publishingError _ _ => r.pending.length + 9
  | .publishingEnd _ _ _ => r.pending.length + 5
  | .marking _ _ => r.pending.length + 1
  | _ => 0

/-- A step of the execute task itself. -/
def Label.isExecution : Label κ ν → Bool
  | .run .returns | .run (.raises _) | .run (.send _) | .run .resumes | .run (.fails _) => true
  | _ => false

/-- The step of a label that is not the execute task's changes neither the phase nor what it sends. -/
theorem run_others [LinearOrder κ] [DecidableEq ν] {r r' : Run.State κ ν} {l : Run.Label κ ν}
    (hclosing : isClosing r.phase = true) (hl : (Label.run l).isExecution = false) (hstep : Run.step r l = some r') :
    r'.phase = r.phase ∧ r'.pending = r.pending ∧ r'.store = r.store := by
  cases l with
  | emits offset | remodels model =>
    simp only [Run.step] at hstep
    split_ifs at hstep
    obtain rfl := Option.some.inj hstep
    exact ⟨rfl, rfl, rfl⟩
  | closes =>
    obtain rfl := Option.some.inj hstep
    exact ⟨rfl, rfl, rfl⟩
  | yields value error => cases hphase : r.phase <;> simp [hphase, isClosing, Run.step] at hclosing hstep
  | interrupts source error =>
    cases hphase : r.phase <;> simp [hphase, isClosing, Run.step, Run.Phase.inBusiness] at hclosing hstep
  | abandons =>
    cases hphase : r.phase <;> simp [hphase, isClosing, Run.step] at hclosing hstep
    all_goals
      split at hstep <;> simp [Run.Phase.inBusiness] at *
  | returns | raises error | send fresh | resumes | fails error => simp [Label.isExecution] at hl

theorem stepsToOver_beginEnd (outcome : Run.Outcome) (terminal : List (TerminalEvent ν)) (persisted : Bool)
    (r : Run.State κ ν) : isClosing (r.beginEnd outcome terminal persisted).phase = true ∧
      stepsToOver (r.beginEnd outcome terminal persisted) ≤ 8 := by
  cases persisted
  · exact ⟨rfl, by simp [Run.State.beginEnd, Run.State.beginMark, stepsToOver, markTerminal]⟩
  · exact ⟨rfl, by simp [Run.State.beginEnd, stepsToOver, publish]⟩

theorem stepsToOver_finalize (outcome : Run.Outcome) (r : Run.State κ ν) :
    isClosing (r.finalize outcome).phase = true ∧ stepsToOver (r.finalize outcome) ≤ 12 := by
  unfold Run.State.finalize
  cases outcome.error with
  | none =>
    obtain ⟨hclosing, hle⟩ := stepsToOver_beginEnd outcome [] true r
    exact ⟨hclosing, hle.trans (by omega)⟩
  | some error =>
    dsimp only
    split_ifs
    · exact ⟨rfl, by simp [stepsToOver, publish]⟩
    · obtain ⟨hclosing, hle⟩ := stepsToOver_beginEnd outcome _ false _
      exact ⟨hclosing, hle.trans (by omega)⟩

theorem stepsToOver_finish (outcome : Run.Outcome) (terminal : List (TerminalEvent ν)) (r : Run.State κ ν) :
    isClosing (r.finish outcome terminal).phase = true ∧ stepsToOver (r.finish outcome terminal) = 0 := by
  unfold Run.State.finish
  cases outcome.reraises
  · exact ⟨rfl, rfl⟩
  · exact ⟨rfl, rfl⟩

theorem closing_returns {r r' : Run.State κ ν} (hclosing : isClosing r.phase = true) (h : r.returns = some r') :
    isClosing r'.phase = true ∧ stepsToOver r' < stepsToOver r := by
  unfold Run.State.returns at h
  cases hphase : r.phase <;> simp only [hphase, isClosing, Option.some.injEq, reduceCtorEq] at hclosing h
  subst h
  obtain ⟨hafter, hle⟩ := stepsToOver_finalize (Run.outcomeOf _ _ none) r
  have hnow : stepsToOver r = 13 := by simp only [stepsToOver, hphase]
  exact ⟨hafter, by rw [hnow]; omega⟩

theorem closing_raises {r r' : Run.State κ ν} {error : Run.Raised} (hclosing : isClosing r.phase = true)
    (h : r.raises error = some r') : isClosing r'.phase = true ∧ stepsToOver r' < stepsToOver r := by
  unfold Run.State.raises at h
  cases hphase : r.phase <;> simp only [hphase, isClosing, Option.some.injEq, reduceCtorEq] at hclosing h
  subst h
  obtain ⟨hafter, hle⟩ := stepsToOver_finalize (Run.outcomeOf _ _ (some error)) r
  have hnow : stepsToOver r = 13 := by simp only [stepsToOver, hphase]
  exact ⟨hafter, by rw [hnow]; omega⟩

/-- The publish of the error is over, with the end or the end of the task next. -/
theorem closing_afterError {r r' : Run.State κ ν} {outcome outcome' : Run.Outcome} {event : Envelope ν}
    (hphase : r.phase = .publishingError outcome event) (terminal : List (TerminalEvent ν)) (persisted : Bool) :
    isClosing (r'.beginEnd outcome' terminal persisted).phase = true ∧
      stepsToOver (r'.beginEnd outcome' terminal persisted) < stepsToOver r := by
  obtain ⟨hafter, hle⟩ := stepsToOver_beginEnd outcome' terminal persisted r'
  have hnow : stepsToOver r = r.pending.length + 9 := by simp only [stepsToOver, hphase]
  exact ⟨hafter, by rw [hnow]; omega⟩

theorem closing_afterEnd {r r' : Run.State κ ν} {outcome outcome' : Run.Outcome} {before : List (TerminalEvent ν)}
    {event : Envelope ν} (hphase : r.phase = .publishingEnd outcome before event) (terminal : List (TerminalEvent ν)) :
    isClosing (r'.beginMark outcome' terminal).phase = true ∧
      stepsToOver (r'.beginMark outcome' terminal) < stepsToOver r :=
  ⟨rfl, by simp [stepsToOver, hphase, Run.State.beginMark, markTerminal]⟩

theorem closing_afterMark {r : Run.State κ ν} {outcome : Run.Outcome} {terminal : List (TerminalEvent ν)}
    (hphase : r.phase = .marking outcome terminal) : isClosing (r.finish outcome terminal).phase = true ∧
      stepsToOver (r.finish outcome terminal) < stepsToOver r := by
  obtain ⟨hafter, hzero⟩ := stepsToOver_finish outcome terminal r
  have hnow : stepsToOver r = r.pending.length + 1 := by simp only [stepsToOver, hphase]
  exact ⟨hafter, by rw [hnow]; omega⟩

theorem closing_resumes {r r' : Run.State κ ν} (hclosing : isClosing r.phase = true) (h : r.resumes = some r') :
    isClosing r'.phase = true ∧ stepsToOver r' < stepsToOver r := by
  unfold Run.State.resumes at h
  cases hphase : r.phase <;> simp only [hphase, isClosing, Option.some.injEq, reduceCtorEq] at hclosing h
  all_goals subst h
  case publishingError outcome event => exact closing_afterError hphase _ _
  case publishingEnd outcome terminal event => exact closing_afterEnd hphase _
  case marking outcome terminal => exact closing_afterMark hphase

/-- The failure of a command ends that part of `_finalize`, or all of it. -/
theorem closing_fails {r r' : Run.State κ ν} {error : Run.Raised} (hclosing : isClosing r.phase = true)
    (h : r.fails error = some r') : isClosing r'.phase = true ∧ stepsToOver r' < stepsToOver r := by
  unfold Run.State.fails at h
  cases hcancelled : error.cancelled with
  | true =>
    cases hphase : r.phase <;>
      simp only [hphase, hcancelled, isClosing, if_true, Option.some.injEq, reduceCtorEq] at hclosing h
    all_goals subst h
    all_goals exact ⟨rfl, by simp [stepsToOver, hphase]⟩
  | false =>
    cases hphase : r.phase <;>
      simp only [hphase, hcancelled, isClosing, Bool.false_eq_true, if_false, Option.some.injEq, reduceCtorEq]
        at hclosing h
    all_goals subst h
    case publishingError outcome event => exact closing_afterError hphase _ _
    case publishingEnd outcome terminal event => exact closing_afterEnd hphase _
    case marking outcome terminal => exact closing_afterMark hphase

section

variable [LinearOrder κ] [DecidableEq ν]

/-- Once `complete` has been invoked it is not undone, and each step of the execute task takes it nearer to its end. -/
theorem closing_step {r r' : Run.State κ ν} {l : Run.Label κ ν} (hfits : Fits r) (hclosing : isClosing r.phase = true)
    (hstep : Run.step r l = some r') : isClosing r'.phase = true ∧
      ((Label.run l).isExecution = true → stepsToOver r' < stepsToOver r) := by
  cases hl : (Label.run l).isExecution with
  | false =>
    obtain ⟨hphase, -, -⟩ := run_others hclosing hl hstep
    exact ⟨by rw [hphase]; exact hclosing, by simp⟩
  | true =>
    suffices h : isClosing r'.phase = true ∧ stepsToOver r' < stepsToOver r from ⟨h.1, fun _ => h.2⟩
    cases l with
    | returns => exact closing_returns hclosing hstep
    | raises error => exact closing_raises hclosing hstep
    | send fresh =>
      simp only [Run.step] at hstep
      cases hpending : r.pending with
      | nil => simp [hpending] at hstep
      | cons command rest =>
        simp only [hpending] at hstep
        split_ifs at hstep
        obtain rfl := Option.some.inj hstep
        refine ⟨hclosing, ?_⟩
        -- only three of the phases have something to send
        cases hphase : r.phase <;> simp only [hphase, isClosing, Fits, hpending, reduceCtorEq] at hclosing hfits
        all_goals simp [stepsToOver, hphase, hpending]
    | resumes =>
      simp only [Run.step] at hstep
      split_ifs at hstep
      exact closing_resumes hclosing hstep
    | fails error =>
      simp only [Run.step] at hstep
      split_ifs at hstep
      exact closing_fails hclosing hstep
    | emits offset | remodels model | yields value error | interrupts source error | abandons | closes =>
      simp [Label.isExecution] at hl

/-- The execute task is not stuck between `complete` and its end. -/
theorem execution_enabled {r : Run.State κ ν} (hclosing : isClosing r.phase = true) (hover : r.phase.isOver = false)
    {fresh : κ} (hfresh : r.store.accepts fresh = true) : ∃ l, (Label.run l).isExecution = true ∧
      l.isFailure = false ∧ (Run.step r l).isSome = true := by
  have hsends : (∃ event, r.resumes = some event) → ∃ l, (Label.run l).isExecution = true ∧ l.isFailure = false ∧
      (Run.step r l).isSome = true := by
    rintro ⟨after, hresumes⟩
    cases hpending : r.pending with
    | nil => exact ⟨.resumes, rfl, rfl, by simp [Run.step, hpending, hresumes]⟩
    | cons command rest => exact ⟨.send fresh, rfl, rfl, by simp [Run.step, hpending, hfresh]⟩
  cases hphase : r.phase <;> simp only [hphase, isClosing, Run.Phase.isOver, reduceCtorEq] at hclosing hover
  case completing => exact ⟨.returns, rfl, rfl, by simp [Run.step, Run.State.returns, hphase]⟩
  all_goals exact hsends ⟨_, by unfold Run.State.resumes; rw [hphase]⟩

/-- Nothing of a run that is over changes any more. -/
theorem over_step {r r' : Run.State κ ν} {l : Run.Label κ ν} (hfits : Fits r) (hover : r.phase.isOver = true)
    (hstep : Run.step r l = some r') : r'.phase = r.phase ∧ r'.store = r.store := by
  have hclosing : isClosing r.phase = true := by
    cases hphase : r.phase <;> simp [hphase, isClosing, Run.Phase.isOver] at hover ⊢
  have hzero : stepsToOver r = 0 := by
    cases hphase : r.phase <;> simp [hphase, stepsToOver, Run.Phase.isOver] at hover ⊢
  cases hl : (Label.run l).isExecution with
  | false =>
    obtain ⟨hphase, -, hstore⟩ := run_others hclosing hl hstep
    exact ⟨hphase, hstore⟩
  | true =>
    have hlt := (closing_step hfits hclosing hstep).2 hl
    omega

end

/-- A publish has three commands, and so has `mark_terminal`. -/
theorem stepsToOver_le {r : Run.State κ ν} (hfits : Fits r) (hstaged : Run.Staged r) : stepsToOver r ≤ 13 := by
  have hwriting : ∀ {event : Envelope ν} {base : List (Envelope ν)} {seq : ℕ}, r.Writing event base seq →
      r.pending.length ≤ 3 := by
    rintro event base seq (⟨hp, -⟩ | ⟨hp, -⟩ | ⟨hp, -⟩ | ⟨hp, -⟩) <;> simp [hp, publish]
  unfold stepsToOver
  cases hphase : r.phase <;> simp only [Run.Staged, Fits, hphase] at hstaged hfits
  case publishingError =>
    obtain ⟨-, base, seq, h, -⟩ := hstaged
    have hle := hwriting h
    dsimp only
    omega
  case publishingEnd =>
    obtain ⟨-, base, errors, seq, h, -⟩ := hstaged
    have hle := hwriting h
    dsimp only
    omega
  case marking =>
    obtain ⟨before, hmarks⟩ := hfits
    have hlength := congrArg List.length hmarks
    rw [List.length_append] at hlength
    simp only [markTerminal, List.length_cons, List.length_nil] at hlength
    dsimp only
    omega
  all_goals simp

/-! ## The generator -/

section

variable [LinearOrder κ]

/-- How many terminal events a run that is over hands to the generator. -/
def terminalCount : Run.Phase ν → ℕ
  | .returned terminal => terminal.length
  | _ => 0

/-- How many steps of its own the generator may still take when the run is over. A round that delivers `k` events takes
`k + 3` steps; the last round finds nothing. -/
def stepsToEnd (r : Run.State κ ν) (g : Generator κ ν) : ℕ :=
  match g.pc with
  | .requested => 4 * (unread g.cursor r.store.events).length + terminalCount r.phase + 3
  | .replied [] _ => terminalCount r.phase + 2
  | .replied _ _ => 4 * (unread g.cursor r.store.events).length + terminalCount r.phase + 2
  | .delivering batch =>
    4 * ((unread g.cursor r.store.events).length - batch.length) + batch.length + terminalCount r.phase + 4
  | .ended => 1
  | .unpersisted events => events.length + 1
  | .returned | .raised => 0

/-- A step of the generator, or of Redis for it. -/
def Label.isDelivery : Label κ ν → Bool
  | .evaluate | .advance => true
  | _ => false

/-- The generator has come to its end; it raises only what the execute task has raised. -/
def Finished (r : Run.State κ ν) (g : Generator κ ν) : Prop := g.pc = .returned ∨ g.pc = .raised ∧ r.phase = .raised

/-- What is left when the next event has been yielded. -/
theorem unread_behind {r : Run.State κ ν} {past rest : List (Stored κ ν)} {item : Stored κ ν}
    (hsorted : Sorted r.store.events) (hevents : r.store.events = past ++ item :: rest) :
    unread (some item.cursor) r.store.events = rest := by
  have hsplit : r.store.events = (past ++ [item]) ++ rest := by rw [hevents, List.append_assoc]; rfl
  have hlast : some item.cursor = (past ++ [item]).getLast?.map Stored.cursor := by simp
  unfold Sorted at hsorted
  rw [hsplit] at hsorted
  rw [hsplit, hlast, unread_append hsorted]

theorem length_missing_le (controls : List PatchOp) (terminal : List (TerminalEvent ν)) :
    (missing controls terminal).length ≤ terminal.length := by
  rw [missing, List.length_map]
  exact List.length_filter_le _ _

/-- The reply to a read takes the generator nearer to its end. -/
theorem stepsToEnd_evaluate {r : Run.State κ ν} {g : Generator κ ν} (hpc : g.pc = .requested) (count : ℕ) :
    stepsToEnd r { g with pc := .replied (r.store.read count g.cursor) r.store.events.length } < stepsToEnd r g := by
  have hnow : stepsToEnd r g = 4 * (unread g.cursor r.store.events).length + terminalCount r.phase + 3 := by
    simp only [stepsToEnd, hpc]
  rw [hnow]
  cases r.store.read count g.cursor with
  | nil =>
    simp only [stepsToEnd]
    omega
  | cons item rest =>
    simp only [stepsToEnd]
    omega

/-- When the run is over each step of the generator takes it nearer to its end, and none of them yields a ping. -/
theorem stepsToEnd_advance {r : Run.State κ ν} {g g' : Generator κ ν} {past rest : List (Stored κ ν)}
    (hsorted : Sorted r.store.events) (h : Tracks r g past rest) (hover : r.phase.isOver = true)
    (hstep : next (ofPhase r.phase) g = some g') : stepsToEnd r g' < stepsToEnd r g ∧
      ∃ yields, g'.yielded = g.yielded ++ yields ∧ .ping ∉ yields := by
  have hplace := h.place
  have hrest := h.unread hsorted
  unfold next at hstep
  cases hpc : g.pc <;> simp only [hpc, Place, reduceCtorEq] at hstep hplace
  case replied reply seen =>
    cases reply with
    | nil =>
      have hnow : stepsToEnd r g = terminalCount r.phase + 2 := by simp only [stepsToEnd, hpc]
      cases hphase : r.phase <;> simp only [hphase, Run.Phase.isOver, reduceCtorEq] at hover
      case returned terminal =>
        simp only [hphase, ofPhase, Option.some.injEq] at hstep
        subst hstep
        refine ⟨?_, [], by simp, by simp⟩
        have hle := length_missing_le g.controls terminal
        rw [hnow, hphase]
        simp only [stepsToEnd, terminalCount]
        omega
      case raised =>
        simp only [hphase, ofPhase, Option.some.injEq] at hstep
        subst hstep
        refine ⟨?_, [], by simp, by simp⟩
        rw [hnow]
        simp only [stepsToEnd]
        omega
    | cons item more =>
      obtain rfl := Option.some.inj hstep
      obtain ⟨-, -, hreply, -⟩ := hplace
      have hle := hreply.length_le
      refine ⟨?_, [], by simp, by simp⟩
      simp only [stepsToEnd, hpc, hrest, List.length_cons] at hle ⊢
      omega
  case delivering batch =>
    obtain ⟨-, -, hbatch⟩ := hplace
    cases batch with
    | nil =>
      obtain rfl := Option.some.inj hstep
      refine ⟨?_, [], by simp, by simp⟩
      simp only [stepsToEnd, hpc, List.length_nil]
      omega
    | cons item more =>
      obtain ⟨ahead, rfl⟩ := hbatch
      obtain rfl := Option.some.inj hstep
      refine ⟨?_, [.stored item], rfl, by simp⟩
      have hafter : unread (some item.cursor) r.store.events = more ++ ahead := unread_behind hsorted h.events
      by_cases hop : item.data.op = .end_
      · simp only [stepsToEnd, hpc, hop, if_true]
        omega
      · simp only [stepsToEnd, hpc, hop, if_false, hafter, hrest, List.length_append, List.length_cons]
        omega
  case ended =>
    obtain rfl := Option.some.inj hstep
    exact ⟨by simp [stepsToEnd, hpc], [], by simp, by simp⟩
  case unpersisted events =>
    cases events with
    | nil =>
      obtain rfl := Option.some.inj hstep
      exact ⟨by simp [stepsToEnd, hpc], [], by simp, by simp⟩
    | cons event more =>
      obtain rfl := Option.some.inj hstep
      exact ⟨by simp [stepsToEnd, hpc], [.unpersisted event], rfl, by simp⟩

omit [LinearOrder κ] in
/-- A run hands over an error and an end at most. -/
theorem terminalCount_le {r : Run.State κ ν} (h : Run.Staged r) : terminalCount r.phase ≤ 2 := by
  cases hphase : r.phase <;> simp only [terminalCount, Nat.zero_le]
  case returned terminal =>
    cases h.closed hphase with
    | ended _ hterminal _ herrors =>
      rcases herrors with rfl | ⟨error, rfl, -⟩ <;> simp [hterminal]
    | lost _ hterminal => simp [hterminal]

theorem stepsToEnd_le {r : Run.State κ ν} {g : Generator κ ν} {past rest : List (Stored κ ν)}
    (hstaged : Run.Staged r) (h : Tracks r g past rest) :
    stepsToEnd r g ≤ 4 * r.store.events.length + 6 := by
  have hle : (unread g.cursor r.store.events).length ≤ r.store.events.length := List.length_filter_le _ _
  have hterminal := terminalCount_le hstaged
  unfold stepsToEnd
  cases hpc : g.pc with
  | replied reply seen =>
    cases reply <;> dsimp only <;> omega
  | delivering batch =>
    have hplace := h.place
    simp only [Place, hpc] at hplace
    -- the batch is a part of the stream
    have hbatch : batch.length ≤ r.store.events.length := by
      rw [h.events, List.length_append]
      have := hplace.2.2.length_le
      omega
    dsimp only
    omega
  | unpersisted events =>
    have hplace := h.place
    simp only [Place, hpc] at hplace
    obtain ⟨terminal, given, hphase, -, hmissing, -⟩ := hplace
    have hcount := length_missing_le g.controls terminal
    rw [hmissing, List.length_append] at hcount
    rw [hphase, terminalCount] at hterminal
    dsimp only
    omega
  | _ =>
    dsimp only
    omega

/-! ## Both of them -/

/-- A generator that has raised has seen the execute task raise. -/
def Blames (w : World κ ν) : Prop := ∀ g ∈ w.live, g.pc = .raised → w.run.phase = .raised

omit [LinearOrder κ] in
/-- A generator that is not at its end raises only when the execute task has. -/
theorem blames_advance {phase : Run.Phase ν} {g g' : Generator κ ν} (hstep : next (ofPhase phase) g = some g')
    (hpc : g'.pc = .raised) : phase = .raised := by
  unfold next at hstep
  cases hg : g.pc with
  | replied reply seen =>
    cases reply with
    | nil => cases phase <;> simp only [hg, ofPhase, Option.some.injEq] at hstep <;> subst hstep <;> simp at hpc ⊢
    | cons item more =>
      simp only [hg, Option.some.injEq] at hstep
      simp [← hstep] at hpc
  | delivering batch =>
    cases batch with
    | nil =>
      simp only [hg, Option.some.injEq] at hstep
      simp [← hstep] at hpc
    | cons item more =>
      simp only [hg, Option.some.injEq] at hstep
      subst hstep
      dsimp only at hpc
      split_ifs at hpc
  | unpersisted events => cases events <;> simp only [hg, Option.some.injEq] at hstep <;> simp [← hstep] at hpc
  | ended =>
    simp only [hg, Option.some.injEq] at hstep
    simp [← hstep] at hpc
  | requested | returned | raised => simp [hg] at hstep

variable [DecidableEq ν]

theorem blames_move {count : ℕ} {w w' : World κ ν} {l : Label κ ν} (hsound : Sound w) (h : Blames w)
    (hmove : Move count w l w') : Blames w' := by
  cases hmove with
  | run hr =>
    intro g hg hpc
    have hphase := h g hg hpc
    rw [← hphase]
    exact (over_step hsound.fits (by rw [hphase]; rfl) hr).1
  | begins =>
    rintro g ⟨⟩ hpc
    simp [Generator.init] at hpc
  | evaluate =>
    rintro g ⟨⟩ hpc
    simp at hpc
  | advance hlive hnext =>
    rintro g ⟨⟩ hpc
    exact blames_advance hnext hpc

/-- A generator that is not at its end is not stuck. -/
theorem delivery_enabled (count : ℕ) {w : World κ ν} {g : Generator κ ν} (hlive : w.live = some g)
    (hreturned : g.pc ≠ .returned) (hraised : g.pc ≠ .raised) :
    ∃ l : Label κ ν, l.isDelivery = true ∧ (step count w l).isSome = true := by
  cases hpc : g.pc with
  | requested => exact ⟨.evaluate, rfl, by simp [step, hlive, hpc]⟩
  | returned => exact absurd hpc hreturned
  | raised => exact absurd hpc hraised
  | replied reply seen =>
    refine ⟨.advance, rfl, ?_⟩
    cases reply with
    | nil => cases hphase : ofPhase w.run.phase <;> simp [step, hlive, next, hpc, hphase]
    | cons item rest => simp [step, hlive, next, hpc]
  | delivering batch => exact ⟨.advance, rfl, by cases batch <;> simp [step, hlive, next, hpc]⟩
  | unpersisted events => exact ⟨.advance, rfl, by cases events <;> simp [step, hlive, next, hpc]⟩
  | ended => exact ⟨.advance, rfl, by simp [step, hlive, next, hpc]⟩

/-- What the generator may still do in a world whose run is over. -/
def stepsLeft (w : World κ ν) : ℕ := w.live.elim 0 fun g => stepsToEnd w.run g

/-- The run is over and nothing is added to its stream; the generator has yielded no ping since. -/
structure After (r : Run.State κ ν) (g : Generator κ ν) (w : World κ ν) : Prop where
  phase : w.run.phase = r.phase
  store : w.run.store = r.store
  live : ∃ g' yields, w.live = some g' ∧ g'.yielded = g.yielded ++ yields ∧ .ping ∉ yields

theorem after_move {count : ℕ} {r : Run.State κ ν} {g : Generator κ ν} {w w' : World κ ν} {l : Label κ ν}
    (hover : r.phase.isOver = true) (hsound : Sound w) (h : After r g w) (hmove : Move count w l w') :
    After r g w' ∧ (l.isDelivery = true → stepsLeft w' < stepsLeft w) ∧
      (l.isDelivery = false → stepsLeft w' ≤ stepsLeft w) := by
  have hnow : w.run.phase.isOver = true := by rw [h.phase]; exact hover
  obtain ⟨g', yields, hlive, hyielded, hping⟩ := h.live
  cases hmove with
  | @run l r' hr =>
    obtain ⟨hphase, hstore⟩ := over_step hsound.fits hnow hr
    refine ⟨⟨hphase.trans h.phase, hstore.trans h.store, h.live⟩, by simp [Label.isDelivery], fun _ => ?_⟩
    apply le_of_eq
    show w.live.elim 0 (fun g => stepsToEnd r' g) = w.live.elim 0 fun g => stepsToEnd w.run g
    rw [hlive]
    show stepsToEnd r' g' = stepsToEnd w.run g'
    unfold stepsToEnd
    rw [hphase, hstore]
  | begins hnone => simp [hnone] at hlive
  | evaluate hsome hpc =>
    obtain rfl := Option.some.inj (hsome.symm.trans hlive)
    refine ⟨⟨h.phase, h.store, _, yields, rfl, hyielded, hping⟩, fun _ => ?_, by simp [Label.isDelivery]⟩
    simp only [stepsLeft, hlive, Option.elim_some]
    exact stepsToEnd_evaluate hpc count
  | advance hsome hnext =>
    obtain rfl := Option.some.inj (hsome.symm.trans hlive)
    obtain ⟨past, rest, htracks⟩ := hsound.tracks _ hlive
    obtain ⟨hlt, more, hmore, hnone⟩ := stepsToEnd_advance hsound.sorted htracks hnow hnext
    refine ⟨⟨h.phase, h.store, _, yields ++ more, rfl, ?_, ?_⟩, fun _ => ?_, by simp [Label.isDelivery]⟩
    · rw [hmore, hyielded, List.append_assoc]
    · intro hmem
      exact (List.mem_append.mp hmem).elim hping hnone
    · simp only [stepsLeft, hlive, Option.elim_some]
      exact hlt

/-- The execute task between `complete` and its end. -/
theorem execution_finishes {count : ℕ} (hcount : 0 < count) {w w' : World κ ν} {more : List (Label κ ν)}
    (hsound : Sound w) (hclosing : isClosing w.run.phase = true)
    (hmore : Machine.exec (step count) w more = some w') :
    (more.filter Label.isExecution).length ≤ 13 ∧ isClosing w'.run.phase = true := by
  have hstep : ∀ (s : World κ ν) l s', Sound s ∧ isClosing s.run.phase = true → step count s l = some s' →
      (isClosing s'.run.phase = true ∧ (l.isExecution = true → stepsToOver s'.run < stepsToOver s.run)) ∧
        (l.isExecution = false → stepsToOver s'.run ≤ stepsToOver s.run) := by
    rintro s l s' ⟨hs, hphase⟩ hstep
    cases move_of_step hstep with
    | @run l r hr =>
      refine ⟨closing_step hs.fits hphase hr, fun hl => le_of_eq ?_⟩
      obtain ⟨hsame, hpending, -⟩ := run_others hphase hl hr
      show stepsToOver r = stepsToOver s.run
      unfold stepsToOver
      rw [hsame, hpending]
    | begins | evaluate | advance => exact ⟨⟨hphase, by simp [Label.isExecution]⟩, fun _ => le_rfl⟩
  have hinv : ∀ (s : World κ ν) l s', Sound s ∧ isClosing s.run.phase = true → step count s l = some s' →
      Sound s' ∧ isClosing s'.run.phase = true :=
    fun s l s' hs hs' => ⟨sound_move hcount hs.1 (move_of_step hs'), (hstep s l s' hs hs').1.1⟩
  have hbound := stepsToOver_le hsound.fits hsound.staged
  have hle := Machine.own_add_variant_le (fun s : World κ ν => Sound s ∧ isClosing s.run.phase = true)
    (fun s => stepsToOver s.run) Label.isExecution hinv (fun s l s' hs hs' => (hstep s l s' hs hs').1.2)
    (fun s l s' hs hs' => (hstep s l s' hs hs').2) ⟨hsound, hclosing⟩ hmore
  exact ⟨by omega, (Machine.exec_invariant hinv ⟨hsound, hclosing⟩ hmore).2⟩

/-- The generator of a run that is over. -/
theorem generator_finishes {count : ℕ} (hcount : 0 < count) {w w' : World κ ν} {more : List (Label κ ν)}
    {g : Generator κ ν} (hsound : Sound w) (hover : w.run.phase.isOver = true) (hlive : w.live = some g)
    (hmore : Machine.exec (step count) w more = some w') :
    (more.filter Label.isDelivery).length ≤ 4 * w.run.store.events.length + 6 ∧ After w.run g w' := by
  have hinv : ∀ (s : World κ ν) l s', Sound s ∧ After w.run g s → step count s l = some s' →
      Sound s' ∧ After w.run g s' := fun s l s' hs hs' =>
    ⟨sound_move hcount hs.1 (move_of_step hs'), (after_move hover hs.1 hs.2 (move_of_step hs')).1⟩
  have hstart : Sound w ∧ After w.run g w := ⟨hsound, rfl, rfl, g, [], hlive, by simp, by simp⟩
  have hle := Machine.own_add_variant_le (fun s : World κ ν => Sound s ∧ After w.run g s) stepsLeft Label.isDelivery
    hinv (fun s l s' hs hs' => (after_move hover hs.1 hs.2 (move_of_step hs')).2.1)
    (fun s l s' hs hs' => (after_move hover hs.1 hs.2 (move_of_step hs')).2.2) hstart hmore
  obtain ⟨past, rest, htracks⟩ := hsound.tracks g hlive
  have hbound := stepsToEnd_le hsound.staged htracks
  have hnow : stepsLeft w = stepsToEnd w.run g := by rw [stepsLeft, hlive, Option.elim_some]
  exact ⟨by omega, (Machine.exec_invariant hinv hstart hmore).2⟩

/-- Whatever command fails: from `complete` on the execute task takes at most thirteen steps, and it is not stuck before
its end. When it is over, a generator that has begun and whose reads succeed takes at most `4 n + 6` steps where `n`
events are stored, yields no more pings and is not stuck before it has returned, or has raised because the execute task
has. -/
theorem delivery_finishes (count : ℕ) (hcount : 0 < count) (model : Run.Model ν) (time : ℕ)
    (labels more : List (Label κ ν)) (w w' : World κ ν)
    (hrun : Machine.exec (step count) (World.init model time) labels = some w)
    (hclosing : isClosing w.run.phase = true) (hmore : Machine.exec (step count) w more = some w') :
    ((more.filter Label.isExecution).length ≤ 13 ∧
      (w'.run.phase.isOver = true ∨ ∀ fresh, w'.run.store.accepts fresh = true →
        ∃ l, (Label.run l).isExecution = true ∧ l.isFailure = false ∧ (step count w' (.run l)).isSome = true)) ∧
    (w.run.phase.isOver = true → ∀ g ∈ w.live,
      (more.filter Label.isDelivery).length ≤ 4 * w.run.store.events.length + 6 ∧
      ∃ g' yields, w'.live = some g' ∧ g'.yielded = g.yielded ++ yields ∧ .ping ∉ yields ∧
        (Finished w'.run g' ∨ ∃ l : Label κ ν, l.isDelivery = true ∧ (step count w' l).isSome = true)) := by
  have hinv : ∀ (s : World κ ν) l s', Sound s ∧ Blames s → step count s l = some s' → Sound s' ∧ Blames s' :=
    fun s l s' hs hs' =>
      ⟨sound_move hcount hs.1 (move_of_step hs'), blames_move hs.1 hs.2 (move_of_step hs')⟩
  have hw : Sound w ∧ Blames w :=
    Machine.exec_invariant hinv ⟨sound_init model time, by simp [Blames, World.init]⟩ hrun
  have hw' : Sound w' ∧ Blames w' := Machine.exec_invariant hinv hw hmore
  obtain ⟨hsteps, hclosing'⟩ := execution_finishes hcount hw.1 hclosing hmore
  refine ⟨⟨hsteps, ?_⟩, fun hover g hlive => ?_⟩
  · cases hover : w'.run.phase.isOver with
    | true => exact .inl rfl
    | false =>
      refine .inr fun fresh hfresh => ?_
      obtain ⟨l, hl, hfailure, henabled⟩ := execution_enabled hclosing' hover hfresh
      exact ⟨l, hl, hfailure, by rw [step, Option.isSome_map]; exact henabled⟩
  · obtain ⟨hsteps, hafter⟩ := generator_finishes hcount hw.1 hover hlive hmore
    obtain ⟨g', yields, hlive', hyielded, hping⟩ := hafter.live
    refine ⟨hsteps, g', yields, hlive', hyielded, hping, ?_⟩
    by_cases hreturned : g'.pc = .returned
    · exact .inl (.inl hreturned)
    · by_cases hraised : g'.pc = .raised
      · exact .inl (.inr ⟨hraised, hw'.2 g' hlive' hraised⟩)
      · exact .inr (delivery_enabled count hlive' hreturned hraised)

end

/-- The run of `losesError` is over; its generator reads on. -/
theorem delivery_finishes_losesError :
    ∃ w w' g, Machine.exec (step 100) (World.init Run.chatModel 0) (losesError.take 19) = some w ∧
      Machine.exec (step 100) w (losesError.drop 19) = some w' ∧ w.run.phase.isOver = true ∧ w.live = some g ∧
      ((losesError.drop 19).filter Label.isDelivery).length ≤ 4 * w.run.store.events.length + 6 ∧
      ∃ g' yields, w'.live = some g' ∧ g'.yielded = g.yielded ++ yields ∧ .ping ∉ yields ∧
        (Finished w'.run g' ∨ ∃ l : Label ℕ ℕ, l.isDelivery = true ∧ (step 100 w' l).isSome = true) := by
  have hfirst : (Machine.exec (step 100) (World.init Run.chatModel 0) (losesError.take 19)).map
      (fun w => (w.run.phase.isOver, isClosing w.run.phase, w.live.isSome)) = some (true, true, true) := by
    decide +kernel
  have hwhole : (Machine.exec (step 100) (World.init Run.chatModel 0) losesError).isSome = true := by decide +kernel
  obtain ⟨w, hw, hends⟩ := Option.map_eq_some_iff.mp hfirst
  obtain ⟨hover, hclosing, hsome⟩ : w.run.phase.isOver = true ∧ isClosing w.run.phase = true ∧
    w.live.isSome = true := by simpa using hends
  obtain ⟨g, hlive⟩ := Option.isSome_iff_exists.mp hsome
  obtain ⟨w', hw'⟩ := Option.isSome_iff_exists.mp hwhole
  rw [← List.take_append_drop 19 losesError, Machine.exec_append, hw, Option.bind_some] at hw'
  exact ⟨w, w', g, hw, hw', hover, hlive,
    (delivery_finishes 100 (by decide) Run.chatModel 0 _ _ w w' hw hclosing hw').2 hover g hlive⟩

end AgentUE.PythonRunner.Watched
